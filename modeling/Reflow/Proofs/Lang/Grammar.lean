import Reflow.Lang.Parser
import Reflow.Proofs.Lang.Scanning
/-!
# Derivations

The grammar of programs is written down as the type of its derivations, one constructor for each
production; an optional part gives two productions, and a repetition is derived from the left, one more
part at a time. A derivation has the tokens that it derives. Two things are read off it that the grammar
itself does not say: which numbers and parameters are allowed, and the statements that it stands for.

```text
program     := statement*
statement   := "def" NAME "(" params? ")" "=" expr ";" | NAME "=" expr ";"
expr        := disjunction ("?" expr ":" expr)?
disjunction := conjunction ("||" conjunction)*
conjunction := equality ("&&" equality)*
equality    := comparison (("==" | "!=") comparison)*
comparison  := sum (("<" | "<=" | ">" | ">=") sum)*
sum         := product (("+" | "-") product)*
product     := unary (("*" | "/" | "%") unary)*
unary       := ("-" | "!") unary | subscripted
subscripted := primary ("[" expr "]")*
primary     := literal | NAME | NAME "(" args? ")" | "(" expr ")" | "{" args? "}"
```

## Main definitions

* `Tree`, `StatementTree`: derivations of expressions and of statements.
* `Tree.yield`, `StatementTree.yield`: the tokens that are derived.
* `Tree.Valid`, `StatementTree.Valid`: all numbers fit, and parameters are distinct.
* `Tree.ast`, `StatementTree.ast`: the expression and the statement of a derivation.
* `Forms`: some tokens have a derivation that stands for an expression.

## Main results

* `Tree.yield_head`: how the tokens of a derivation start.
-/

namespace Reflow

namespace Grammar

/-! ### Nonterminals -/

/-- The ranks of infix operators, from the weakest binding to the strongest. -/
inductive Rank
  | disjunction | conjunction | equality | comparison | sum | product

/-- The operators of a rank. -/
def Rank.operators : Rank → List BinaryOp
  | disjunction => [.or]
  | conjunction => [.and]
  | equality => [.eq, .ne]
  | comparison => [.lt, .le, .gt, .ge]
  | sum => [.add, .sub]
  | product => [.mul, .div, .mod]

/-- The nonterminals of expressions. -/
inductive Category
  | expr
  /-- Operands joined by the operators of a rank. -/
  | rank (r : Rank)
  | unary
  | subscripted
  | primary

/-- The operands that the operators of a rank join. -/
def Rank.operand : Rank → Category
  | disjunction => .rank .conjunction
  | conjunction => .rank .equality
  | equality => .rank .comparison
  | comparison => .rank .sum
  | sum => .rank .product
  | product => .unary

/-! ### Literals -/

/-- A number without a sign. -/
inductive Numeral
  | int (value : Nat)
  | double (value : Float)

namespace Numeral

/-- The token of a number. -/
def token : Numeral → Token
  | int k => .int k
  | double x => .double x

/-- The expression of a number. -/
def expr : Numeral → Expr
  | int k => .int (.ofInt k)
  | double x => .double x

/-- The expression of a number after a minus. -/
def negated : Numeral → Expr
  | int k => .int (.ofInt (-k))
  | double x => .double (-x)

/-- An integer is at most `2 ^ 63 - 1`, the greatest word. -/
def Fits : Numeral → Prop
  | int k => k ≤ 9223372036854775807
  | double _ => True

/-- An integer after a minus is at most `2 ^ 63`, which gives the least word. -/
def NegatedFits : Numeral → Prop
  | int k => k ≤ 9223372036854775808
  | double _ => True

end Numeral

/-- A literal. -/
inductive Literal
  | null
  | bool (value : Bool)
  | number (n : Numeral)
  | str (value : String)

namespace Literal

/-- The token of a literal. -/
def token : Literal → Token
  | null => .mark .null
  | bool true => .mark .yes
  | bool false => .mark .no
  | number n => n.token
  | str s => .str s

/-- The expression of a literal. -/
def expr : Literal → Expr
  | null => .null
  | bool b => .bool b
  | number n => n.expr
  | str s => .str s

/-- A number fits. -/
def Fits : Literal → Prop
  | number n => n.Fits
  | _ => True

end Literal

/-! ### Derivations of expressions -/

/-- A derivation from a nonterminal of expressions. -/
inductive Tree : Category → Type
  /-- `expr := disjunction` -/
  | plain (e : Tree (.rank .disjunction)) : Tree .expr
  /-- `expr := disjunction "?" expr ":" expr` -/
  | cond (test : Tree (.rank .disjunction)) (yes no : Tree .expr) : Tree .expr
  /-- A single operand is a chain of every rank. -/
  | single {r : Rank} (e : Tree r.operand) : Tree (.rank r)
  /-- A chain goes on with an operator of its rank and one more operand. -/
  | binary {r : Rank} (lhs : Tree (.rank r)) (op : BinaryOp) (member : op ∈ r.operators)
    (rhs : Tree r.operand) : Tree (.rank r)
  /-- `unary := ("-" | "!") unary` -/
  | unary (op : UnaryOp) (operand : Tree .unary) : Tree .unary
  /-- `unary := subscripted` -/
  | unsigned (e : Tree .subscripted) : Tree .unary
  /-- `subscripted := primary` -/
  | bare (e : Tree .primary) : Tree .subscripted
  /-- `subscripted := subscripted "[" expr "]"` -/
  | index (target : Tree .subscripted) (i : Tree .expr) : Tree .subscripted
  /-- `primary := literal` -/
  | literal (l : Literal) : Tree .primary
  /-- `primary := NAME` -/
  | name (n : String) : Tree .primary
  /-- `primary := NAME "(" args? ")"` -/
  | call (callee : String) (args : List (Tree .expr)) : Tree .primary
  /-- `primary := "(" expr ")"` -/
  | group (e : Tree .expr) : Tree .primary
  /-- `primary := "{" args? "}"`, with braces -/
  | array (items : List (Tree .expr)) : Tree .primary

namespace Tree

mutual

/-- The tokens of a derivation. -/
def yield : {c : Category} → Tree c → List Token
  | _, plain e => e.yield
  | _, cond test yes no =>
    test.yield ++ .mark .question :: (yes.yield ++ .mark .colon :: no.yield)
  | _, single e => e.yield
  | _, binary lhs op _ rhs => lhs.yield ++ .mark op.mark :: rhs.yield
  | _, unary op operand => .mark op.mark :: operand.yield
  | _, unsigned e => e.yield
  | _, bare e => e.yield
  | _, index target i =>
    target.yield ++ .mark .openBracket :: (i.yield ++ [.mark .closeBracket])
  | _, literal l => [l.token]
  | _, name n => [.name n]
  | _, call callee args =>
    .name callee :: .mark .openParen :: (yieldAll args ++ [.mark .closeParen])
  | _, group e => .mark .openParen :: (e.yield ++ [.mark .closeParen])
  | _, array items => .mark .openBrace :: (yieldAll items ++ [.mark .closeBrace])

/-- The tokens of some derivations with commas between them. -/
def yieldAll : List (Tree .expr) → List Token
  | [] => []
  | [e] => e.yield
  | e :: es => e.yield ++ .mark .comma :: yieldAll es

end

/-- The number that an operand is, if it is one without subscripts. -/
def numeral? : Tree .unary → Option Numeral
  | unsigned (bare (literal (.number n))) => some n
  | _ => none

theorem eq_of_numeral? {d : Tree .unary} {n : Numeral} (h : d.numeral? = some n) :
    d = .unsigned (.bare (.literal (.number n))) := by
  unfold numeral? at h
  split at h <;> cases h
  rfl

mutual

/-- All integers fit. One that a minus stands directly before fits as a negative one, unless it is
subscripted. -/
def Valid : {c : Category} → Tree c → Prop
  | _, plain e => e.Valid
  | _, cond test yes no => test.Valid ∧ yes.Valid ∧ no.Valid
  | _, single e => e.Valid
  | _, binary lhs _ _ rhs => lhs.Valid ∧ rhs.Valid
  | _, unary .neg operand =>
    match operand.numeral? with
    | some n => n.NegatedFits
    | none => operand.Valid
  | _, unary .not operand => operand.Valid
  | _, unsigned e => e.Valid
  | _, bare e => e.Valid
  | _, index target i => target.Valid ∧ i.Valid
  | _, literal l => l.Fits
  | _, name _ => True
  | _, call _ args => ValidAll args
  | _, group e => e.Valid
  | _, array items => ValidAll items

/-- All integers of some derivations fit. -/
def ValidAll : List (Tree .expr) → Prop
  | [] => True
  | e :: es => e.Valid ∧ ValidAll es

end

mutual

/-- The expression of a derivation. Chains group to the left, parentheses are dropped, and a minus
directly before a number without subscripts is its sign. -/
def ast : {c : Category} → Tree c → Expr
  | _, plain e => e.ast
  | _, cond test yes no => .cond test.ast yes.ast no.ast
  | _, single e => e.ast
  | _, binary lhs op _ rhs => .binary op lhs.ast rhs.ast
  | _, unary .neg operand =>
    match operand.numeral? with
    | some n => n.negated
    | none => .unary .neg operand.ast
  | _, unary .not operand => .unary .not operand.ast
  | _, unsigned e => e.ast
  | _, bare e => e.ast
  | _, index target i => .index target.ast i.ast
  | _, literal l => l.expr
  | _, name n => .name n
  | _, call callee args => .call callee (astAll args)
  | _, group e => e.ast
  | _, array items => .array (astAll items)

/-- The expressions of some derivations. -/
def astAll : List (Tree .expr) → List Expr
  | [] => []
  | e :: es => e.ast :: astAll es

end

end Tree

/-! ### Derivations of statements -/

/-- A derivation of a statement. -/
inductive StatementTree
  /-- `statement := NAME "=" expr ";"` -/
  | assign (target : String) (value : Tree .expr)
  /-- `statement := "def" NAME "(" params? ")" "=" expr ";"` -/
  | define (name : String) (params : List String) (body : Tree .expr)

namespace StatementTree

/-- The tokens of a statement. -/
def yield : StatementTree → List Token
  | assign target value => .name target :: .mark .assign :: (value.yield ++ [.mark .semicolon])
  | define name params body =>
    .mark .define :: .name name :: .mark .openParen :: (Statement.paramTokens params ++
      .mark .closeParen :: .mark .assign :: (body.yield ++ [.mark .semicolon]))

/-- All integers fit, and parameters are distinct. -/
def Valid : StatementTree → Prop
  | assign _ value => value.Valid
  | define _ params body => params.Nodup ∧ body.Valid

/-- The statement of a derivation. -/
def ast : StatementTree → Statement
  | assign target value => .assign target value.ast
  | define name params body => .define name params body.ast

end StatementTree

/-! ### How derived tokens start -/

/-- Whether a primary expression can start with a token. -/
def opensPrimary : Token → Bool
  | .mark m => m ∈ [Mark.null, .yes, .no, .openParen, .openBrace]
  | _ => true

/-- What the tokens of a nonterminal can start with. -/
def Category.Starts : Category → Token → Prop
  | subscripted, t => opensPrimary t = true
  | primary, t => opensPrimary t = true
  | _, t => opensPrimary t = true ∨ ∃ op : UnaryOp, t = .mark op.mark

theorem Rank.starts_operand {r : Rank} {t : Token} (h : r.operand.Starts t) :
    (Category.rank r).Starts t := by
  cases r <;> exact h

theorem opensPrimary_literal (l : Literal) : opensPrimary l.token = true := by
  cases l with
  | bool b => cases b <;> rfl
  | number n => cases n <;> rfl
  | _ => rfl

namespace Tree

/-- Every derivation has a first token, which its nonterminal allows. -/
theorem yield_head : {c : Category} → (d : Tree c) → ∃ t ts, d.yield = t :: ts ∧ c.Starts t
  | _, plain e => e.yield_head
  | _, cond test yes no => by
    obtain ⟨t, ts, htest, ht⟩ := test.yield_head
    exact ⟨t, _, by rw [yield, htest, List.cons_append], ht⟩
  | _, single e => by
    obtain ⟨t, ts, he, ht⟩ := e.yield_head
    exact ⟨t, ts, by rw [yield, he], Rank.starts_operand ht⟩
  | _, binary lhs op member rhs => by
    obtain ⟨t, ts, hlhs, ht⟩ := lhs.yield_head
    exact ⟨t, _, by rw [yield, hlhs, List.cons_append], ht⟩
  | _, unary op _ => ⟨_, _, rfl, .inr ⟨op, rfl⟩⟩
  | _, unsigned e => by
    obtain ⟨t, ts, he, ht⟩ := e.yield_head
    exact ⟨t, ts, by rw [yield, he], .inl ht⟩
  | _, bare e => by
    obtain ⟨t, ts, he, ht⟩ := e.yield_head
    exact ⟨t, ts, by rw [yield, he], ht⟩
  | _, index target i => by
    obtain ⟨t, ts, htarget, ht⟩ := target.yield_head
    exact ⟨t, _, by rw [yield, htarget, List.cons_append], ht⟩
  | _, literal l => ⟨_, _, rfl, opensPrimary_literal l⟩
  | _, name _ | _, call _ _ | _, group _ | _, array _ => ⟨_, _, rfl, rfl⟩

end Tree

/-! ### Productions

What a production makes of tokens that are derived. -/

/-- Some tokens have a derivation from a nonterminal that stands for `e`, and its numbers fit exactly if
`allowed`. -/
def Forms (c : Category) (ts : List Token) (allowed : Prop) (e : Expr) : Prop :=
  ∃ d : Tree c, d.yield = ts ∧ (d.Valid ↔ allowed) ∧ d.ast = e

/-- Some tokens are derived expressions with commas between them. -/
def FormsAll (ts : List Token) (allowed : Prop) (es : List Expr) : Prop :=
  ∃ ds : List (Tree .expr), Tree.yieldAll ds = ts ∧ (Tree.ValidAll ds ↔ allowed) ∧ Tree.astAll ds = es

/-- The operands joined by operators that bind at least as strongly as a bound. -/
def chain : Nat → Category
  | 0 | 1 => .rank .disjunction
  | 2 => .rank .conjunction
  | 3 => .rank .equality
  | 4 => .rank .comparison
  | 5 => .rank .sum
  | 6 => .rank .product
  | _ => .unary

section Productions

variable {ts us vs : List Token} {allowed allowed' allowed'' : Prop}
  {e lhs rhs test yes no target i : Expr} {es : List Expr}

theorem Forms.congr {c : Category} (h : Forms c ts allowed e) (hallowed : allowed ↔ allowed') :
    Forms c ts allowed' e := by
  obtain ⟨d, hd, hvalid, hast⟩ := h
  exact ⟨d, hd, hvalid.trans hallowed, hast⟩

/-- A single operand is a chain of weaker operators. -/
theorem Forms.single {r : Rank} (h : Forms r.operand ts allowed e) : Forms (.rank r) ts allowed e := by
  obtain ⟨d, hd, hvalid, hast⟩ := h
  exact ⟨.single d, hd, hvalid, hast⟩

theorem Forms.chain_of_le {k k' : Nat} (h : Forms (chain k') ts allowed e) (hle : k ≤ k') :
    Forms (chain k) ts allowed e := by
  induction hle with
  | refl => exact h
  | @step k' _ ih =>
    refine ih ?_
    match k', h with
    | 0, h => exact h
    | 1, h | 2, h | 3, h | 4, h | 5, h | 6, h => exact Forms.single h
    | _ + 7, h => exact h

/-- An operator belongs to a rank, which joins what binds more strongly. -/
theorem exists_rank (op : BinaryOp) : ∃ r : Rank, op ∈ r.operators ∧
    chain op.precedence = .rank r ∧ chain (op.precedence + 1) = r.operand := by
  cases op with
  | or => exact ⟨.disjunction, by decide, rfl, rfl⟩
  | and => exact ⟨.conjunction, by decide, rfl, rfl⟩
  | eq | ne => exact ⟨.equality, by decide, rfl, rfl⟩
  | lt | le | gt | ge => exact ⟨.comparison, by decide, rfl, rfl⟩
  | add | sub => exact ⟨.sum, by decide, rfl, rfl⟩
  | mul | div | mod => exact ⟨.product, by decide, rfl, rfl⟩

theorem Forms.binary {op : BinaryOp} (hlhs : Forms (chain op.precedence) ts allowed lhs)
    (hrhs : Forms (chain (op.precedence + 1)) us allowed' rhs) :
    Forms (chain op.precedence) (ts ++ .mark op.mark :: us) (allowed ∧ allowed')
      (.binary op lhs rhs) := by
  obtain ⟨r, hmem, hr, hoperand⟩ := exists_rank op
  rw [hr] at hlhs ⊢
  rw [hoperand] at hrhs
  obtain ⟨d, rfl, hvalid, rfl⟩ := hlhs
  obtain ⟨d', rfl, hvalid', rfl⟩ := hrhs
  exact ⟨.binary d op hmem d', rfl, and_congr hvalid hvalid', rfl⟩

theorem Forms.plain (h : Forms (chain 1) ts allowed e) : Forms .expr ts allowed e := by
  obtain ⟨d, hd, hvalid, hast⟩ := h
  exact ⟨.plain d, hd, hvalid, hast⟩

theorem Forms.cond (htest : Forms (chain 1) ts allowed test) (hyes : Forms .expr us allowed' yes)
    (hno : Forms .expr vs allowed'' no) :
    Forms .expr (ts ++ .mark .question :: (us ++ .mark .colon :: vs)) (allowed ∧ allowed' ∧ allowed'')
      (.cond test yes no) := by
  obtain ⟨d, rfl, hvalid, rfl⟩ := htest
  obtain ⟨d', rfl, hvalid', rfl⟩ := hyes
  obtain ⟨d'', rfl, hvalid'', rfl⟩ := hno
  exact ⟨.cond d d' d'', rfl, and_congr hvalid (and_congr hvalid' hvalid''), rfl⟩

/-- A minus directly before a number without subscripts. -/
theorem forms_negated (n : Numeral) : Forms .unary [.mark .minus, n.token] n.NegatedFits n.negated :=
  ⟨.unary .neg (.unsigned (.bare (.literal (.number n)))), rfl, Iff.rfl, rfl⟩

theorem Forms.neg (h : Forms .unary ts allowed e) (hts : ∀ n : Numeral, ts ≠ [n.token]) :
    Forms .unary (.mark .minus :: ts) allowed (.unary .neg e) := by
  obtain ⟨d, rfl, hvalid, rfl⟩ := h
  have hnone : d.numeral? = none := by
    cases hn : d.numeral? with
    | none => rfl
    | some n => exact absurd (by rw [Tree.eq_of_numeral? hn]; rfl) (hts n)
  refine ⟨.unary .neg d, rfl, ?_, ?_⟩
  · rwa [Tree.Valid, hnone]
  · rw [Tree.ast, hnone]

theorem Forms.not (h : Forms .unary ts allowed e) :
    Forms .unary (.mark .bang :: ts) allowed (.unary .not e) := by
  obtain ⟨d, rfl, hvalid, rfl⟩ := h
  exact ⟨.unary .not d, rfl, hvalid, rfl⟩

theorem Forms.unsigned (h : Forms .subscripted ts allowed e) : Forms .unary ts allowed e := by
  obtain ⟨d, hd, hvalid, hast⟩ := h
  exact ⟨.unsigned d, hd, hvalid, hast⟩

theorem Forms.bare (h : Forms .primary ts allowed e) : Forms .subscripted ts allowed e := by
  obtain ⟨d, hd, hvalid, hast⟩ := h
  exact ⟨.bare d, hd, hvalid, hast⟩

theorem Forms.index (h : Forms .subscripted ts allowed target) (hi : Forms .expr us allowed' i) :
    Forms .subscripted (ts ++ .mark .openBracket :: (us ++ [.mark .closeBracket]))
      (allowed ∧ allowed') (.index target i) := by
  obtain ⟨d, rfl, hvalid, rfl⟩ := h
  obtain ⟨d', rfl, hvalid', rfl⟩ := hi
  exact ⟨.index d d', rfl, and_congr hvalid hvalid', rfl⟩

theorem forms_literal (l : Literal) : Forms .primary [l.token] l.Fits l.expr :=
  ⟨.literal l, rfl, Iff.rfl, rfl⟩

theorem forms_name (n : String) : Forms .primary [.name n] True (.name n) :=
  ⟨.name n, rfl, Iff.rfl, rfl⟩

theorem FormsAll.call (callee : String) (h : FormsAll ts allowed es) :
    Forms .primary (.name callee :: .mark .openParen :: (ts ++ [.mark .closeParen])) allowed
      (.call callee es) := by
  obtain ⟨ds, rfl, hvalid, rfl⟩ := h
  exact ⟨.call callee ds, rfl, hvalid, rfl⟩

theorem Forms.group (h : Forms .expr ts allowed e) :
    Forms .primary (.mark .openParen :: (ts ++ [.mark .closeParen])) allowed e := by
  obtain ⟨d, rfl, hvalid, hast⟩ := h
  exact ⟨.group d, rfl, hvalid, hast⟩

theorem FormsAll.array (h : FormsAll ts allowed es) :
    Forms .primary (.mark .openBrace :: (ts ++ [.mark .closeBrace])) allowed (.array es) := by
  obtain ⟨ds, rfl, hvalid, rfl⟩ := h
  exact ⟨.array ds, rfl, hvalid, rfl⟩

theorem formsAll_nil : FormsAll [] True [] := ⟨[], rfl, Iff.rfl, rfl⟩

theorem Forms.item (h : Forms .expr ts allowed e) : FormsAll ts allowed [e] := by
  obtain ⟨d, rfl, hvalid, rfl⟩ := h
  exact ⟨[d], rfl, (and_iff_left trivial).trans hvalid, rfl⟩

theorem Forms.items (h : Forms .expr ts allowed e) (hes : es ≠ []) (hmore : FormsAll us allowed' es) :
    FormsAll (ts ++ .mark .comma :: us) (allowed ∧ allowed') (e :: es) := by
  obtain ⟨d, rfl, hvalid, rfl⟩ := h
  obtain ⟨ds, rfl, hvalid', rfl⟩ := hmore
  cases ds with
  | nil => exact absurd rfl hes
  | cons d' ds => exact ⟨d :: d' :: ds, rfl, and_congr hvalid hvalid', rfl⟩

end Productions

end Grammar

end Reflow
