import Reflow.Proofs.Lang.Consuming
import Reflow.Proofs.Lang.Grammar
/-!
# Reading what is derived

The parser reads the tokens of every derivation as the expression that the derivation stands for,
provided that its numbers fit, and otherwise it fails. What is read of an operand is settled by what
follows it: a chain of operators of one rank ends before an operator that binds more weakly.

The parser is bounded, and what is said of each reading function holds from a bound on that the number of
tokens determines.

## Main definitions

* `Grammar.Ends`, `Grammar.AtMost`, `Grammar.Closes`: what may follow an operand, a chain of operators
  and an expression.
* `Grammar.Category.Reads`: how the tokens of a nonterminal are read.

## Main results

* `Grammar.Tree.reads`: the tokens of a derivation are read as its expression.
-/

namespace Reflow

namespace Grammar

open Reflow.Parser

/-! ### What follows -/

/-- What follows continues neither subscripts nor a name. -/
def Ends (rest : List Located) : Prop :=
  startsWith .openBracket rest = false ∧ startsWith .openParen rest = false

/-- An operator that follows does not bind more strongly than a bound. -/
def AtMost (bound : Nat) (rest : List Located) : Prop :=
  ∀ op, frontOperator? rest = some op → op.precedence ≤ bound

/-- What follows continues no expression. -/
def Closes (rest : List Located) : Prop :=
  Ends rest ∧ frontOperator? rest = none ∧ startsWith .question rest = false

theorem AtMost.mono {bound bound' : Nat} {rest : List Located} (h : AtMost bound rest)
    (hle : bound ≤ bound') : AtMost bound' rest :=
  fun op hop => Nat.le_trans (h op hop) hle

theorem closes_mark {m : Mark}
    (h : m ∈ [Mark.closeParen, .closeBrace, .closeBracket, .comma, .semicolon, .colon])
    (p : Position) (ls : List Located) : Closes (⟨.mark m, p⟩ :: ls) := by
  simp only [List.mem_cons, List.not_mem_nil, or_false] at h
  rcases h with rfl | rfl | rfl | rfl | rfl | rfl <;> exact ⟨⟨rfl, rfl⟩, rfl, rfl⟩

theorem ends_operator (op : BinaryOp) (p : Position) (ls : List Located) :
    Ends (⟨.mark op.mark, p⟩ :: ls) := by
  cases op <;> exact ⟨rfl, rfl⟩

/-! ### What is read -/

/-- Before what continues no expression, the tokens are read as one. -/
structure ReadsExpr (ts : List Token) (allowed : Prop) (e : Expr) : Prop where
  read : ∀ {last fuel ls rest}, Consumes ls ts rest → Closes rest → 8 * ls.length + 4 ≤ fuel →
    ComesTo (expr last fuel ls) allowed (.ok (e, rest))

/-- Before an operator that does not bind more strongly than `bound`, the tokens are read as a left
operand. -/
structure ReadsOperand (ts : List Token) (allowed : Prop) (e : Expr) (bound : Nat) : Prop where
  read : ∀ (last : Position) {fuel least ls rest}, Consumes ls ts rest → Ends rest →
    AtMost bound rest → least ≤ bound → 8 * ls.length + 3 ≤ fuel → ∃ fuel', 8 * rest.length + 1 ≤ fuel' ∧
      ComesTo (binary last fuel least ls) allowed (operands last fuel' least e rest)

/-- Before what continues neither subscripts nor a name, the tokens are read as an operand with its prefix
operators. -/
structure ReadsUnary (ts : List Token) (allowed : Prop) (e : Expr) : Prop where
  read : ∀ {last fuel ls rest}, Consumes ls ts rest → Ends rest → 8 * ls.length + 2 ≤ fuel →
    ComesTo (unary last fuel ls) allowed (.ok (e, rest))

/-- The tokens are read as a primary expression and its subscripts, and more may follow. -/
structure ReadsSubscripted (ts : List Token) (allowed : Prop) (e : Expr) : Prop where
  read : ∀ (last : Position) {fuel ls rest}, Consumes ls ts rest →
    startsWith .openParen rest = false → 8 * ls.length + 1 ≤ fuel → ∃ fuel', 8 * rest.length + 1 ≤ fuel' ∧
      ComesTo (primary last fuel ls >>= fun (a, ls') => subscripts last fuel a ls') allowed
        (subscripts last fuel' e rest)

/-- Before what does not continue a name, the tokens are read as a primary expression. -/
structure ReadsPrimary (ts : List Token) (allowed : Prop) (e : Expr) : Prop where
  read : ∀ {last fuel ls rest}, Consumes ls ts rest → startsWith .openParen rest = false →
    8 * ls.length + 1 ≤ fuel → ComesTo (primary last fuel ls) allowed (.ok (e, rest))

/-- Before the mark that closes a list, the tokens are read as its items. -/
structure ReadsItems (ts : List Token) (allowed : Prop) (es : List Expr) : Prop where
  read : ∀ {last fuel close ls rest}, close ∈ [Mark.closeParen, .closeBrace] →
    Consumes ls (ts ++ [.mark close]) rest → 8 * ls.length + 6 ≤ fuel →
      ComesTo (items last fuel close ls) allowed (.ok (es, rest))

/-- How strongly the operators of a rank bind. -/
def Rank.strength : Rank → Nat
  | disjunction => 1
  | conjunction => 2
  | equality => 3
  | comparison => 4
  | sum => 5
  | product => 6

theorem Rank.precedence_of_mem {r : Rank} {op : BinaryOp} (h : op ∈ r.operators) :
    op.precedence = r.strength := by
  cases r <;> cases op <;> first | rfl | simp [operators] at h

/-- How the tokens of a nonterminal are read. -/
def Category.Reads : Category → List Token → Prop → Expr → Prop
  | expr, ts, allowed, e => ReadsExpr ts allowed e
  | rank r, ts, allowed, e => ReadsOperand ts allowed e r.strength
  | unary, ts, allowed, e => ReadsUnary ts allowed e
  | subscripted, ts, allowed, e => ReadsSubscripted ts allowed e
  | primary, ts, allowed, e => ReadsPrimary ts allowed e

section Productions

variable {last : Position} {fuel bound least : Nat} {ls rest : List Located}
  {ts us vs : List Token} {allowed allowed' allowed'' : Prop} {e lhs rhs test yes no : Expr}

/-! ### Chains of operators -/

theorem ReadsOperand.mono {bound' : Nat} (h : ReadsOperand ts allowed e bound')
    (hle : bound ≤ bound') : ReadsOperand ts allowed e bound :=
  ⟨fun last _ _ _ _ hls hends hrest hleast => h.read last hls hends (hrest.mono hle) (Nat.le_trans hleast hle)⟩

theorem ReadsUnary.operand (h : ReadsUnary ts allowed e) : ReadsOperand ts allowed e bound := by
  refine ⟨fun last fuel least ls rest hls hends _ _ hfuel => ?_⟩
  obtain ⟨fuel, rfl⟩ := Nat.exists_eq_add_of_le' (Nat.le_trans (Nat.le_add_left 1 _) hfuel)
  have hlength := hls.length_eq
  refine ⟨fuel, by omega, ?_⟩
  rw [binary]
  exact (h.read hls hends (by omega)).bind_eq rfl

/-- What the operators of a rank join. -/
theorem Rank.readsOperand {r : Rank} (h : r.operand.Reads ts allowed e) :
    ReadsOperand ts allowed e (r.strength + 1) := by
  cases r with
  | product => exact ReadsUnary.operand h
  | _ => exact h

/-- The operand ends before an operator that binds too weakly. -/
theorem operands_of_lt {fuel : Nat} (h : ∀ op, frontOperator? rest = some op → op.precedence < least)
    (hfuel : 1 ≤ fuel) : operands last fuel least lhs rest = .ok (lhs, rest) := by
  obtain ⟨fuel, rfl⟩ := Nat.exists_eq_add_of_le' hfuel
  rw [operands]
  cases hop : frontOperator? rest with
  | none => rfl
  | some op => exact if_pos (h op hop)

theorem ReadsOperand.whole (h : ReadsOperand ts allowed e bound) (hls : Consumes ls ts rest)
    (hends : Ends rest) (hrest : ∀ op, frontOperator? rest = some op → op.precedence < least)
    (hleast : least ≤ bound) (hfuel : 8 * ls.length + 3 ≤ fuel) :
    ComesTo (binary last fuel least ls) allowed (.ok (e, rest)) := by
  obtain ⟨fuel', hfuel', hread⟩ := h.read last hls hends
    (fun op hop => Nat.le_of_lt (Nat.lt_of_lt_of_le (hrest op hop) hleast)) hleast hfuel
  rwa [operands_of_lt hrest (by omega)] at hread

theorem ReadsOperand.chain {op : BinaryOp} (hlhs : ReadsOperand ts allowed lhs op.precedence)
    (hrhs : ReadsOperand us allowed' rhs (op.precedence + 1)) :
    ReadsOperand (ts ++ .mark op.mark :: us) (allowed ∧ allowed') (.binary op lhs rhs)
      op.precedence := by
  refine ⟨fun last fuel least ls rest hls hends hrest hleast hfuel => ?_⟩
  obtain ⟨mid, hts, hmid⟩ := consumes_append.1 hls
  obtain ⟨p, mid, rfl, hus⟩ := hmid.split_cons
  have hfront : frontOperator? (⟨.mark op.mark, p⟩ :: mid) = some op := operator?_mark op
  obtain ⟨fuel₁, hfuel₁, hread⟩ := hlhs.read last hts (ends_operator op p mid)
    (fun op' hop' => by
      rw [hfront] at hop'
      cases hop'
      exact Nat.le_refl _) hleast hfuel
  have hmid := hus.length_eq
  simp only [List.length_cons] at hfuel₁
  obtain ⟨fuel₁, rfl⟩ := Nat.exists_eq_add_of_le' (Nat.le_trans (Nat.le_add_left 1 _) hfuel₁)
  refine ⟨fuel₁, by omega, hread.trans ?_⟩
  rw [operands, hfront]
  dsimp only
  rw [if_neg (Nat.not_lt.2 hleast)]
  exact (hrhs.whole hus hends (fun op' hop' => Nat.lt_succ_of_le (hrest op' hop'))
    (Nat.le_refl _) (by omega)).bind_eq rfl

/-! ### Conditionals -/

theorem ReadsOperand.plain (h : ReadsOperand ts allowed e 1) : ReadsExpr ts allowed e := by
  refine ⟨fun {last fuel ls rest} hls ⟨hends, hop, hquestion⟩ hfuel => ?_⟩
  obtain ⟨fuel, rfl⟩ := Nat.exists_eq_add_of_le' (Nat.le_trans (Nat.le_add_left 1 _) hfuel)
  rw [expr]
  refine (h.whole hls hends (fun op h => ?_) (Nat.le_refl 1) (by omega)).bind_eq ?_
  · rw [hop] at h
    cases h
  · dsimp only
    rw [hquestion]
    rfl

theorem ReadsOperand.cond (htest : ReadsOperand ts allowed test 1)
    (hyes : ReadsExpr us allowed' yes) (hno : ReadsExpr vs allowed'' no) :
    ReadsExpr (ts ++ .mark .question :: (us ++ .mark .colon :: vs))
      (allowed ∧ allowed' ∧ allowed'') (.cond test yes no) := by
  refine ⟨fun {last fuel ls rest} hls hrest hfuel => ?_⟩
  obtain ⟨mid, hts, hmid⟩ := consumes_append.1 hls
  obtain ⟨p, ls₁, rfl, hls₁⟩ := hmid.split_cons
  obtain ⟨mid, hus, hmid'⟩ := consumes_append.1 hls₁
  obtain ⟨q, ls₂, rfl, hvs⟩ := hmid'.split_cons
  have hlength₁ := hts.length_eq
  have hlength₂ := hus.length_eq
  simp only [List.length_cons] at hlength₁ hlength₂
  obtain ⟨fuel, rfl⟩ := Nat.exists_eq_add_of_le' (Nat.le_trans (Nat.le_add_left 1 _) hfuel)
  rw [expr]
  refine (htest.whole hts ⟨rfl, rfl⟩ (fun op h => by cases h) (Nat.le_refl 1) (by omega)).bind ?_
  dsimp only
  rw [startsWith_mark, if_pos (decide_eq_true rfl)]
  refine (hyes.read hus (closes_mark (by decide) q ls₂) (by omega)).bind ?_
  dsimp only
  rw [expect_mark]
  exact (hno.read hvs hrest (by omega)).bind_eq rfl

/-! ### Prefix operators -/

theorem startsWith_of_opensPrimary {m : Mark} {t : Token} {p : Position} (h : opensPrimary t = true)
    (hm : opensPrimary (.mark m) = false) : startsWith m (⟨t, p⟩ :: ls) = false := by
  refine startsWith_of_ne fun heq => ?_
  rw [heq, hm] at h
  cases h

/-- A minus directly before a number without subscripts. -/
theorem readsUnary_negated (n : Numeral) :
    ReadsUnary [.mark .minus, n.token] n.NegatedFits n.negated := by
  refine ⟨fun {last fuel ls rest} hls hends hfuel => ?_⟩
  obtain ⟨p, ls₁, rfl, hls₁⟩ := hls.split_cons
  obtain ⟨q, ls₂, rfl, hend⟩ := hls₁.split_cons
  obtain rfl := hend.eq_of_nil
  obtain ⟨fuel, rfl⟩ := Nat.exists_eq_add_of_le' (Nat.le_trans (Nat.le_add_left 1 _) hfuel)
  rw [unary, startsWith_mark, if_pos (decide_eq_true rfl), List.drop_one, List.tail_cons]
  cases n with
  | double x =>
    refine .of_allowed trivial ?_
    simp only [Numeral.token, negated?, hends.1]
    rfl
  | int k =>
    simp only [Numeral.token, negated?, hends.1]
    by_cases hk : k ≤ 9223372036854775808
    · refine .of_allowed hk ?_
      rw [fit?_of_le (by omega) (by omega)]
      rfl
    · rw [fit?_of_lt (by omega)]
      exact .of_error hk rfl

theorem negated?_eq_none {t : Token} {p : Position}
    (h : ∀ n : Numeral, t = n.token → startsWith .openBracket ls = true) :
    negated? (⟨t, p⟩ :: ls) = none := by
  cases t with
  | int k => rw [negated?, if_pos (h (.int k) rfl)]
  | double x => rw [negated?, if_pos (h (.double x) rfl)]
  | _ => rfl

theorem ReadsUnary.neg {t : Token} (h : ReadsUnary (t :: ts) allowed e)
    (hnumeral : ∀ n : Numeral, t = n.token → ts.head? = some (.mark .openBracket)) :
    ReadsUnary (.mark .minus :: t :: ts) allowed (.unary .neg e) := by
  refine ⟨fun {last fuel ls rest} hls hends hfuel => ?_⟩
  obtain ⟨p, ls₁, rfl, hls₁⟩ := hls.split_cons
  obtain ⟨q, ls₂, rfl, hts⟩ := hls₁.split_cons
  obtain ⟨fuel, rfl⟩ := Nat.exists_eq_add_of_le' (Nat.le_trans (Nat.le_add_left 1 _) hfuel)
  have hnone : negated? (⟨t, q⟩ :: ls₂) = none := negated?_eq_none fun n hn => by
    cases ts with
    | nil => cases hnumeral n hn
    | cons u ts =>
      obtain rfl := Option.some.inj (hnumeral n hn)
      obtain ⟨r, ls, rfl, -⟩ := hts.split_cons
      rfl
  rw [unary, startsWith_mark, if_pos (decide_eq_true rfl), List.drop_one, List.tail_cons, hnone]
  simp only [List.length_cons] at hfuel
  exact (h.read hls₁ hends (by simp only [List.length_cons]; omega)).bind_eq rfl

theorem ReadsUnary.not (h : ReadsUnary ts allowed e) :
    ReadsUnary (.mark .bang :: ts) allowed (.unary .not e) := by
  refine ⟨fun {last fuel ls rest} hls hends hfuel => ?_⟩
  obtain ⟨p, ls₁, rfl, hts⟩ := hls.split_cons
  obtain ⟨fuel, rfl⟩ := Nat.exists_eq_add_of_le' (Nat.le_trans (Nat.le_add_left 1 _) hfuel)
  rw [unary, startsWith_mark, startsWith_mark, if_neg (by decide), if_pos (decide_eq_true rfl),
    List.drop_one, List.tail_cons]
  simp only [List.length_cons] at hfuel
  exact (h.read hts hends (by omega)).bind_eq rfl

/-! ### Subscripts -/

/-- The subscripts end where no bracket follows. -/
theorem subscripts_of_ends {fuel : Nat} (h : startsWith .openBracket rest = false) (hfuel : 1 ≤ fuel) :
    subscripts last fuel e rest = .ok (e, rest) := by
  obtain ⟨fuel, rfl⟩ := Nat.exists_eq_add_of_le' hfuel
  rw [subscripts, h]
  rfl

theorem ReadsSubscripted.unsigned {t : Token} (h : ReadsSubscripted (t :: ts) allowed e)
    (ht : opensPrimary t = true) : ReadsUnary (t :: ts) allowed e := by
  refine ⟨fun {last fuel ls rest} hls hends hfuel => ?_⟩
  obtain ⟨p, ls, rfl, -⟩ := hls.split_cons
  obtain ⟨fuel, rfl⟩ := Nat.exists_eq_add_of_le' (Nat.le_trans (Nat.le_add_left 1 _) hfuel)
  rw [unary, startsWith_of_opensPrimary ht rfl, startsWith_of_opensPrimary ht rfl]
  obtain ⟨fuel', hfuel', hread⟩ := h.read last hls hends.2 (Nat.le_of_succ_le_succ hfuel)
  rwa [subscripts_of_ends hends.1 (by omega)] at hread

theorem ReadsPrimary.bare (h : ReadsPrimary ts allowed e) : ReadsSubscripted ts allowed e := by
  refine ⟨fun last fuel ls rest hls hrest hfuel => ⟨fuel, ?_, (h.read hls hrest hfuel).bind_eq rfl⟩⟩
  have hlength := hls.length_eq
  omega

theorem ReadsSubscripted.index {i : Expr} (h : ReadsSubscripted ts allowed e)
    (hi : ReadsExpr us allowed' i) :
    ReadsSubscripted (ts ++ .mark .openBracket :: (us ++ [.mark .closeBracket]))
      (allowed ∧ allowed') (.index e i) := by
  refine ⟨fun last fuel ls rest hls hrest hfuel => ?_⟩
  obtain ⟨mid, hts, hmid⟩ := consumes_append.1 hls
  obtain ⟨p, ls₁, rfl, hls₁⟩ := hmid.split_cons
  obtain ⟨mid, hus, hmid'⟩ := consumes_append.1 hls₁
  obtain ⟨q, ls₂, rfl, hend⟩ := hmid'.split_cons
  obtain rfl := hend.eq_of_nil
  obtain ⟨fuel₁, hfuel₁, hread⟩ := h.read last hts rfl hfuel
  have hlength := hus.length_eq
  simp only [List.length_cons] at hfuel₁ hlength
  obtain ⟨fuel₁, rfl⟩ := Nat.exists_eq_add_of_le' (Nat.le_trans (Nat.le_add_left 1 _) hfuel₁)
  refine ⟨fuel₁, by omega, hread.trans ?_⟩
  rw [subscripts, startsWith_mark, if_pos (decide_eq_true rfl)]
  refine (hi.read hus (closes_mark (by decide) q ls₂) (by omega)).bind_eq ?_
  dsimp only
  rw [expect_mark]
  rfl

/-! ### Primary expressions -/

theorem readsPrimary_literal (l : Literal) : ReadsPrimary [l.token] l.Fits l.expr := by
  refine ⟨fun {last fuel ls rest} hls _ hfuel => ?_⟩
  obtain ⟨p, ls, rfl, hend⟩ := hls.split_cons
  obtain rfl := hend.eq_of_nil
  obtain ⟨fuel, rfl⟩ := Nat.exists_eq_add_of_le' (Nat.le_trans (Nat.le_add_left 1 _) hfuel)
  cases l with
  | number n =>
    cases n with
    | int k =>
      rw [primary.eq_def]
      simp only [Literal.token, Numeral.token]
      by_cases hk : k ≤ 9223372036854775807
      · refine .of_allowed hk ?_
        rw [fit?_of_le (by omega) (by omega)]
        rfl
      · rw [fit?_of_lt (by omega)]
        exact .of_error hk rfl
    | double x => exact .of_allowed trivial rfl
  | bool b => cases b <;> exact .of_allowed trivial rfl
  | _ => exact .of_allowed trivial rfl

theorem readsPrimary_name (n : String) : ReadsPrimary [.name n] True (.name n) := by
  refine ⟨fun {last fuel ls rest} hls hrest hfuel => ?_⟩
  obtain ⟨p, ls, rfl, hend⟩ := hls.split_cons
  obtain rfl := hend.eq_of_nil
  obtain ⟨fuel, rfl⟩ := Nat.exists_eq_add_of_le' (Nat.le_trans (Nat.le_add_left 1 _) hfuel)
  refine .of_eq ?_
  rw [primary, hrest]
  rfl

theorem ReadsItems.call {es : List Expr} (h : ReadsItems ts allowed es) (callee : String) :
    ReadsPrimary (.name callee :: .mark .openParen :: (ts ++ [.mark .closeParen])) allowed
      (.call callee es) := by
  refine ⟨fun {last fuel ls rest} hls hrest hfuel => ?_⟩
  obtain ⟨p, ls₁, rfl, hls₁⟩ := hls.split_cons
  obtain ⟨q, ls₂, rfl, hitems⟩ := hls₁.split_cons
  obtain ⟨fuel, rfl⟩ := Nat.exists_eq_add_of_le' (Nat.le_trans (Nat.le_add_left 1 _) hfuel)
  simp only [List.length_cons] at hfuel
  rw [primary, startsWith_mark, if_pos (decide_eq_true rfl), List.drop_one, List.tail_cons]
  exact (h.read (by decide) hitems (by omega)).bind_eq rfl

theorem ReadsExpr.group (h : ReadsExpr ts allowed e) :
    ReadsPrimary (.mark .openParen :: (ts ++ [.mark .closeParen])) allowed e := by
  refine ⟨fun {last fuel ls rest} hls hrest hfuel => ?_⟩
  obtain ⟨p, ls₁, rfl, hls₁⟩ := hls.split_cons
  obtain ⟨mid, hts, hmid⟩ := consumes_append.1 hls₁
  obtain ⟨q, mid, rfl, hend⟩ := hmid.split_cons
  obtain rfl := hend.eq_of_nil
  obtain ⟨fuel, rfl⟩ := Nat.exists_eq_add_of_le' (Nat.le_trans (Nat.le_add_left 1 _) hfuel)
  simp only [List.length_cons] at hfuel
  rw [primary]
  refine (h.read hts (closes_mark (by decide) q mid) (by omega)).bind_eq ?_
  dsimp only
  rw [expect_mark]
  rfl

theorem ReadsItems.array {es : List Expr} (h : ReadsItems ts allowed es) :
    ReadsPrimary (.mark .openBrace :: (ts ++ [.mark .closeBrace])) allowed (.array es) := by
  refine ⟨fun {last fuel ls rest} hls hrest hfuel => ?_⟩
  obtain ⟨p, ls₁, rfl, hitems⟩ := hls.split_cons
  obtain ⟨fuel, rfl⟩ := Nat.exists_eq_add_of_le' (Nat.le_trans (Nat.le_add_left 1 _) hfuel)
  simp only [List.length_cons] at hfuel
  rw [primary]
  exact (h.read (by decide) hitems (by omega)).bind_eq rfl

end Productions

/-! ### Derivations -/

theorem Numeral.token_ne_mark (n : Numeral) (m : Mark) : n.token ≠ .mark m := by
  cases n <;> exact fun h => by cases h

theorem Numeral.token_ne_name (n : Numeral) (name : String) : n.token ≠ .name name := by
  cases n <;> exact fun h => by cases h

theorem Literal.eq_of_token {l : Literal} {n : Numeral} (h : l.token = n.token) : l = .number n := by
  cases l with
  | number k =>
    cases k <;> cases n <;> cases h <;> rfl
  | bool b => cases b <;> exact absurd h.symm (n.token_ne_mark _)
  | null => exact absurd h.symm (n.token_ne_mark _)
  | str s => cases n <;> cases h

namespace Tree

/-- A number that comes first in a subscripted expression is all of it or has subscripts. -/
theorem number_first {n : Numeral} : (d : Tree .subscripted) → {ts : List Token} →
    d.yield = n.token :: ts →
      d = .bare (.literal (.number n)) ∨ ts.head? = some (.mark .openBracket)
  | bare (literal l), ts, h => by
    rw [Literal.eq_of_token (List.cons.inj h).1]
    exact .inl rfl
  | bare (name x), ts, h => absurd (List.cons.inj h).1.symm (n.token_ne_name x)
  | bare (call callee args), ts, h => absurd (List.cons.inj h).1.symm (n.token_ne_name callee)
  | bare (group e), ts, h => absurd (List.cons.inj h).1.symm (n.token_ne_mark _)
  | bare (array items), ts, h => absurd (List.cons.inj h).1.symm (n.token_ne_mark _)
  | index target i, ts, h => by
    obtain ⟨t, more, htarget, -⟩ := target.yield_head
    rw [yield, htarget, List.cons_append] at h
    obtain ⟨rfl, rfl⟩ := List.cons.inj h
    right
    rcases target.number_first htarget with rfl | hmore
    · rw [← (List.cons.inj htarget).2]
      rfl
    · rw [List.head?_append, hmore]
      rfl

/-- A number that comes first in an operand without being all of it has subscripts. -/
theorem number_first_unary {n : Numeral} {ts : List Token} (d : Tree .unary)
    (hnone : d.numeral? = none) (h : d.yield = n.token :: ts) :
    ts.head? = some (.mark .openBracket) := by
  cases d with
  | unary op operand => exact absurd (List.cons.inj h).1.symm (n.token_ne_mark _)
  | unsigned e =>
    rcases e.number_first h with rfl | hmore
    · cases hnone
    · exact hmore

/-! ### Lists -/

section Items

variable {last : Position} {fuel : Nat} {close : Mark} {ls rest : List Located} {e : Tree .expr}
  {es : List (Tree .expr)}

/-- Items with commas between them, before the mark that closes the list. -/
theorem reads_itemsTail (h : ∀ d ∈ e :: es, ReadsExpr d.yield d.Valid d.ast)
    (hclose : close ∈ [Mark.closeParen, .closeBrace])
    (hls : Consumes ls (yieldAll (e :: es) ++ [.mark close]) rest)
    (hfuel : 8 * ls.length + 5 ≤ fuel) :
    ComesTo (itemsTail last fuel close ls) (ValidAll (e :: es)) (.ok (astAll (e :: es), rest)) := by
  obtain ⟨fuel, rfl⟩ := Nat.exists_eq_add_of_le' (Nat.le_trans (Nat.le_add_left 1 _) hfuel)
  induction es generalizing e fuel ls with
  | nil =>
    obtain ⟨mid, hts, hmid⟩ := consumes_append.1 hls
    obtain ⟨p, mid, rfl, hend⟩ := hmid.split_cons
    obtain rfl := hend.eq_of_nil
    rw [itemsTail]
    refine ((h e List.mem_cons_self).read hts (closes_mark ?_ p mid) (by omega)).bind (.of_eq ?_)
    · exact List.mem_append_left [.closeBracket, .comma, .semicolon, .colon] hclose
    · dsimp only
      rw [startsWith_mark, if_pos (decide_eq_true rfl)]
      rfl
  | cons e' es ih =>
    have hyield : yieldAll (e :: e' :: es) = e.yield ++ .mark .comma :: yieldAll (e' :: es) := rfl
    rw [hyield, List.append_assoc] at hls
    obtain ⟨mid, hts, hmid⟩ := consumes_append.1 hls
    obtain ⟨p, mid, rfl, hmore⟩ := hmid.split_cons
    have hlength := hts.length_eq
    simp only [List.length_cons] at hlength
    obtain ⟨fuel, rfl⟩ : ∃ k, fuel = k + 1 := Nat.exists_eq_add_of_le' (by omega)
    have hcomma : Mark.comma ≠ close := fun heq => by
      rw [← heq] at hclose
      revert hclose
      decide
    rw [itemsTail]
    refine ((h e List.mem_cons_self).read hts (closes_mark (by decide) p mid) (by omega)).bind ?_
    dsimp only
    rw [startsWith_mark, if_neg (by simpa using hcomma), expect_mark]
    exact (ih (fun d hd => h d (List.mem_cons_of_mem _ hd)) hmore fuel (by omega)).bind_eq rfl

theorem yieldAll_head (e : Tree .expr) (es : List (Tree .expr)) :
    ∃ t ts, yieldAll (e :: es) = t :: ts ∧ Category.expr.Starts t := by
  obtain ⟨t, ts, he, ht⟩ := e.yield_head
  cases es with
  | nil => exact ⟨t, ts, he, ht⟩
  | cons e' es =>
    have hyield : yieldAll (e :: e' :: es) = e.yield ++ .mark .comma :: yieldAll (e' :: es) := rfl
    exact ⟨t, _, by rw [hyield, he, List.cons_append], ht⟩

/-- No expression starts with a mark that closes a list. -/
theorem ne_close {t : Token} (ht : Category.expr.Starts t)
    (hclose : close ∈ [Mark.closeParen, .closeBrace]) : t ≠ .mark close := by
  rintro rfl
  simp only [List.mem_cons, List.not_mem_nil, or_false] at hclose
  rcases ht with ht | ⟨op, hop⟩
  · rcases hclose with rfl | rfl <;> cases ht
  · rcases hclose with rfl | rfl <;> cases op <;> cases hop

theorem reads_items (h : ∀ d ∈ es, ReadsExpr d.yield d.Valid d.ast) :
    ReadsItems (yieldAll es) (ValidAll es) (astAll es) := by
  refine ⟨fun {last fuel close ls rest} hclose hls hfuel => ?_⟩
  obtain ⟨fuel, rfl⟩ := Nat.exists_eq_add_of_le' (Nat.le_trans (Nat.le_add_left 1 _) hfuel)
  cases es with
  | nil =>
    obtain ⟨p, ls, rfl, hend⟩ := hls.split_cons
    obtain rfl := hend.eq_of_nil
    rw [items, startsWith_mark, if_pos (decide_eq_true rfl)]
    exact .of_eq rfl
  | cons e es =>
    obtain ⟨t, ts, hyield, hstarts⟩ := yieldAll_head e es
    have hopen : ¬ startsWith close ls = true := by
      rw [hyield] at hls
      obtain ⟨p, ls, rfl, -⟩ := hls.split_cons
      rw [startsWith_of_ne (ne_close hstarts hclose)]
      exact Bool.false_ne_true
    rw [items, if_neg hopen]
    exact reads_itemsTail h hclose hls (by omega)

end Items

mutual

/-- The tokens of a derivation are read as its expression. -/
theorem reads : {c : Category} → (d : Tree c) → c.Reads d.yield d.Valid d.ast
  | _, plain e => e.reads.plain
  | _, cond test yes no => test.reads.cond yes.reads no.reads
  | _, single (r := r) e => ((Rank.readsOperand e.reads).mono (Nat.le_succ _) : ReadsOperand ..)
  | _, binary (r := r) lhs op member rhs => by
    have hop := Rank.precedence_of_mem member
    have hlhs : ReadsOperand lhs.yield lhs.Valid lhs.ast r.strength := lhs.reads
    have hrhs := Rank.readsOperand rhs.reads
    show ReadsOperand _ _ _ r.strength
    rw [← hop] at hlhs hrhs ⊢
    exact hlhs.chain hrhs
  | _, unary .neg operand => by
    have hoperand : ReadsUnary operand.yield operand.Valid operand.ast := operand.reads
    show ReadsUnary (.mark .minus :: operand.yield) _ _
    rw [Valid, ast]
    cases hnumeral : operand.numeral? with
    | some n =>
      rw [eq_of_numeral? hnumeral]
      exact readsUnary_negated n
    | none =>
      obtain ⟨t, ts, hyield, -⟩ := operand.yield_head
      rw [hyield] at hoperand ⊢
      exact hoperand.neg fun n hn => operand.number_first_unary hnumeral (hn ▸ hyield)
  | _, unary .not operand => ReadsUnary.not operand.reads
  | _, unsigned e => by
    have he : ReadsSubscripted e.yield e.Valid e.ast := e.reads
    obtain ⟨t, ts, hyield, ht⟩ := e.yield_head
    show ReadsUnary e.yield e.Valid e.ast
    rw [hyield] at he ⊢
    exact he.unsigned ht
  | _, bare e => ReadsPrimary.bare e.reads
  | _, index target i => ReadsSubscripted.index target.reads i.reads
  | _, literal l => readsPrimary_literal l
  | _, name n => readsPrimary_name n
  | _, call callee args => (reads_items (reads_all args)).call callee
  | _, group e => ReadsExpr.group e.reads
  | _, array items => (reads_items (reads_all items)).array

theorem reads_all : (es : List (Tree .expr)) → ∀ d ∈ es, ReadsExpr d.yield d.Valid d.ast
  | [] => List.forall_mem_nil _
  | e :: es => List.forall_mem_cons.2 ⟨e.reads, reads_all es⟩

end

end Tree

end Grammar

end Reflow
