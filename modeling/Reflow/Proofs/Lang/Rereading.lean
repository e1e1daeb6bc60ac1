import Reflow.Proofs.Lang.Scanning
/-!
# Reading expressions again

A rendered expression is read as the expression that it was rendered from, except for minus signs. One
that stands directly before a number is read as part of the number, unless the number has subscripts; it
is then read as an operator before all of them.

## Main definitions

* `Expr.reread`: the expression that a rendered expression is read as.
* `Expr.body`: the tokens of a rendered expression without the sign of a number that comes first.

## Main results

* `Expr.tokens_of_signed`: the sign of a number is a minus before it.
-/

namespace Reflow

theorem toInt_neg_of_nonneg {n : Int64} (h : 0 ≤ n.toInt) : (-n).toInt = -n.toInt := by
  have hhigh := Int64.toInt_le n
  have hmin : Int64.minValue.toInt = -9223372036854775808 := by decide
  have hmax : Int64.maxValue.toInt = 9223372036854775807 := by decide
  have hneg : -n = Int64.ofInt (-n.toInt) := by rw [Int64.ofInt_neg, Int64.ofInt_toInt]
  rw [hneg]
  exact Int64.toInt_ofInt_of_le (by omega) (by omega)

namespace Expr

/-- Whether a rendered expression starts with the minus of a number that, but for subscripts, is all
of it. -/
def signed : Expr → Bool
  | int n => n.toInt < 0
  | index target _ => signed target
  | _ => false

/-- What a minus stands before. -/
def magnitude : Expr → Expr
  | int n => int (-n)
  | unary .neg e => e
  | e => e

/-- The number that a minus and the number after it form. -/
def negativeLiteral? : UnaryOp → Expr → Option Int64
  | .neg, int n => if 0 ≤ n.toInt then some (-n) else none
  | _, _ => none

mutual

/-- The expression that a rendered expression is read as. -/
def reread : Expr → Expr
  | array items => array (rereadAll items)
  | index target i =>
    if target.signed then unary .neg (index (reread target).magnitude (reread i))
    else index (reread target) (reread i)
  | call callee args => call callee (rereadAll args)
  | unary op operand =>
    match negativeLiteral? op operand with
    | some n => int n
    | none => unary op (reread operand)
  | binary op lhs rhs => binary op (reread lhs) (reread rhs)
  | cond test yes no => cond (reread test) (reread yes) (reread no)
  | e => e

/-- The expressions that some rendered expressions are read as. -/
def rereadAll : List Expr → List Expr
  | [] => []
  | e :: es => reread e :: rereadAll es

end

/-- The tokens of an expression without its sign. -/
def body (e : Expr) : List Token := if e.signed then e.tokens.tail else e.tokens

/-- The expression that the tokens without the sign are read as. -/
def core (e : Expr) : Expr := if e.signed then e.reread.magnitude else e.reread

theorem precedence_of_signed {e : Expr} (h : e.signed = true) : e.precedence = 8 := by
  cases e with
  | int n => rfl
  | index target i => rfl
  | _ => cases h

theorem precedence_lt_of_binary (op : BinaryOp) : op.precedence < 7 := by
  cases op <;> decide

theorem precedence_le (e : Expr) : e.precedence ≤ 8 := by
  cases e with
  | binary op lhs rhs => exact Nat.le_of_lt (Nat.lt_trans (precedence_lt_of_binary op) (by decide))
  | _ => simp [precedence]

theorem groupedTokens_of_le {e : Expr} {ts : List Token} {least : Nat} (h : least ≤ e.precedence) :
    e.groupedTokens ts least = ts := if_neg (Nat.not_lt.2 h)

theorem groupedTokens_of_lt {e : Expr} {ts : List Token} {least : Nat} (h : e.precedence < least) :
    e.groupedTokens ts least = .mark .openParen :: (ts ++ [.mark .closeParen]) := if_pos h

/-- The sign of a number is a minus before it. -/
theorem tokens_of_signed : (e : Expr) → e.signed = true →
    ∃ k ts, e.tokens = .mark .minus :: .int k :: ts
  | int n, h => ⟨_, _, if_pos (of_decide_eq_true h)⟩
  | index target i, h => by
    obtain ⟨k, ts, htokens⟩ := tokens_of_signed target h
    have hgrouped : groupedTokens target target.tokens 8 = target.tokens :=
      groupedTokens_of_le (Nat.le_of_eq (@precedence_of_signed target h).symm)
    rw [tokens, hgrouped, htokens]
    exact ⟨k, _, rfl⟩

theorem body_index {target : Expr} (h : target.precedence = 8) (i : Expr) : (index target i).body =
    target.body ++ .mark .openBracket :: (i.tokens ++ [.mark .closeBracket]) := by
  have hgrouped : groupedTokens target target.tokens 8 = target.tokens :=
    groupedTokens_of_le (Nat.le_of_eq h.symm)
  unfold body
  rw [signed, tokens, hgrouped]
  split
  · rename_i hsigned
    obtain ⟨k, ts, htokens⟩ := tokens_of_signed target hsigned
    rw [htokens]
    rfl
  · rfl

end Expr

end Reflow
