import Reflow.Lang.Lexer
import Reflow.Lang.Expr
/-!
# Parts of expressions

Many properties of an expression are properties of each of its parts: that a part is no call, or that a
name in it is one that the lexer reads as a name. They are instances of one definition.

## Main definitions

* `Expr.all`: a property of an expression and of all its parts.
* `Expr.names`: the names that occur in an expression.
* `Expr.isPlain`: expressions without calls and without double literals.
* `Lexer.isName`: words that the lexer reads as names.
-/

namespace Reflow

namespace Expr

mutual

/-- Whether an expression and all its parts have a property. -/
def all (p : Expr → Bool) : Expr → Bool
  | array items => p (array items) && allOf p items
  | index target i => p (index target i) && (all p target && all p i)
  | call callee args => p (call callee args) && allOf p args
  | unary op operand => p (unary op operand) && all p operand
  | binary op lhs rhs => p (binary op lhs rhs) && (all p lhs && all p rhs)
  | cond test yes no => p (cond test yes no) && (all p test && (all p yes && all p no))
  | e => p e

/-- Whether some expressions and all their parts have a property. -/
def allOf (p : Expr → Bool) : List Expr → Bool
  | [] => true
  | e :: es => all p e && allOf p es

end

mutual

/-- The names that occur in an expression. -/
def names : Expr → List String
  | name n => [n]
  | array items => namesOf items
  | index target i => names target ++ names i
  | call callee args => callee :: namesOf args
  | unary _ operand => names operand
  | binary _ lhs rhs => names lhs ++ names rhs
  | cond test yes no => names test ++ (names yes ++ names no)
  | _ => []

/-- The names that occur in some expressions. -/
def namesOf : List Expr → List String
  | [] => []
  | e :: es => names e ++ namesOf es

end

/-- Whether an expression is neither a call nor a double literal. -/
def isBasic : Expr → Bool
  | double _ => false
  | call _ _ => false
  | _ => true

/-- Whether an expression holds neither calls nor double literals. -/
def isPlain (e : Expr) : Bool := e.all isBasic

section All

variable {p q r : Expr → Bool}

mutual

/-- Two properties of all parts together give a third one. -/
theorem all_of_and (h : ∀ e, p e = true → q e = true → r e = true) :
    (e : Expr) → e.all p = true → e.all q = true → e.all r = true
  | null, hp, hq | bool _, hp, hq | int _, hp, hq | double _, hp, hq | str _, hp, hq
  | name _, hp, hq => h _ hp hq
  | array items, hp, hq => by
    simp only [all, Bool.and_eq_true] at hp hq ⊢
    exact ⟨h _ hp.1 hq.1, allOf_of_and h items hp.2 hq.2⟩
  | index target i, hp, hq => by
    simp only [all, Bool.and_eq_true] at hp hq ⊢
    exact ⟨h _ hp.1 hq.1, all_of_and h target hp.2.1 hq.2.1, all_of_and h i hp.2.2 hq.2.2⟩
  | call callee args, hp, hq => by
    simp only [all, Bool.and_eq_true] at hp hq ⊢
    exact ⟨h _ hp.1 hq.1, allOf_of_and h args hp.2 hq.2⟩
  | unary op operand, hp, hq => by
    simp only [all, Bool.and_eq_true] at hp hq ⊢
    exact ⟨h _ hp.1 hq.1, all_of_and h operand hp.2 hq.2⟩
  | binary op lhs rhs, hp, hq => by
    simp only [all, Bool.and_eq_true] at hp hq ⊢
    exact ⟨h _ hp.1 hq.1, all_of_and h lhs hp.2.1 hq.2.1, all_of_and h rhs hp.2.2 hq.2.2⟩
  | cond test yes no, hp, hq => by
    simp only [all, Bool.and_eq_true] at hp hq ⊢
    exact ⟨h _ hp.1 hq.1, all_of_and h test hp.2.1 hq.2.1, all_of_and h yes hp.2.2.1 hq.2.2.1,
      all_of_and h no hp.2.2.2 hq.2.2.2⟩

theorem allOf_of_and (h : ∀ e, p e = true → q e = true → r e = true) :
    (es : List Expr) → allOf p es = true → allOf q es = true → allOf r es = true
  | [], _, _ => rfl
  | e :: es, hp, hq => by
    simp only [allOf, Bool.and_eq_true] at hp hq ⊢
    exact ⟨all_of_and h e hp.1 hq.1, allOf_of_and h es hp.2 hq.2⟩

end

end All

end Expr

namespace Lexer

/-- A character with which the lexer starts a name: neither a gap nor a number nor a string starts
with it. -/
def startsName (c : Char) : Bool :=
  startsWord c && !c.isDigit && c != '\x22' && !Text.isBlank c

/-- Whether a text is a word that the lexer reads as a name. -/
def isName (s : String) : Bool :=
  match s.toList with
  | [] => false
  | c :: cs => startsName c && cs.all continuesWord && s ∉ ["def", "true", "false", "null"]

end Lexer

namespace Expr

/-- Whether an expression, if it is a name or a call, has a name that the lexer reads as one. -/
def isNamed : Expr → Bool
  | name n => Lexer.isName n
  | call n _ => Lexer.isName n
  | _ => true

/-- Whether an expression is no double literal and has, if it is a name or a call, a name that the
lexer reads as one. -/
def isLexable : Expr → Bool
  | double _ => false
  | e => e.isNamed

theorem isLexable_of_isPlain {e : Expr} (hplain : e.isPlain = true)
    (hnamed : e.all isNamed = true) : e.all isLexable = true := by
  refine all_of_and (fun e hbasic hnamed => ?_) e hplain hnamed
  cases e with
  | double x => cases hbasic
  | _ => exact hnamed

theorem isNamed_of_isLexable {e : Expr} (h : e.all isLexable = true) : e.all isNamed = true := by
  refine all_of_and (fun e hlexable _ => ?_) e h h
  cases e with
  | double x => rfl
  | _ => exact hlexable

end Expr

end Reflow
