import Reflow.Proofs.Lang.Consuming
import Reflow.Proofs.Lang.Grammar
/-!
# Deriving what is read

What the parser reads is derived from the grammar. The operators of all ranks are read by one loop. Of the
operand that it has read so far it is known from which rank on it is derived, and that no operator follows
that binds more strongly.

## Main definitions

* `Grammar.Derives`: some tokens are derived from a nonterminal and stand for an expression.
* `Grammar.Sound`: what is read with a given bound on the recursion is derived.

## Main results

* `Grammar.sound`: all that is read is derived.
-/

namespace Reflow

namespace Grammar

open Reflow.Parser

/-- The tokens that stand before `ls'` in `ls` are derived from a nonterminal and stand for `e`. -/
def Derives (c : Category) (ls : List Located) (e : Expr) (ls' : List Located) : Prop :=
  ∃ ts allowed, Forms c ts allowed e ∧ allowed ∧ Consumes ls ts ls'

/-- The tokens that stand before `ls'` in `ls` are items and the mark that closes the list. -/
def DerivesItems (close : Mark) (ls : List Located) (es : List Expr) (ls' : List Located) : Prop :=
  ∃ ts allowed, FormsAll ts allowed es ∧ allowed ∧ Consumes ls (ts ++ [.mark close]) ls'

/-- The operator that follows binds more weakly than a bound. -/
def Below (bound : Nat) (rest : List Located) : Prop :=
  ∀ op, frontOperator? rest = some op → op.precedence < bound

section Productions

variable {last : Position} {m : Mark} {p : Position} {ls mid rest ls' : List Located}
  {e lhs rhs test yes no i : Expr} {es : List Expr}

theorem Derives.chain_of_le {k k' : Nat} (h : Derives (chain k') ls e ls') (hle : k ≤ k') :
    Derives (chain k) ls e ls' := by
  obtain ⟨ts, allowed, hts, hrest⟩ := h
  exact ⟨ts, allowed, hts.chain_of_le hle, hrest⟩

theorem Derives.binary {op : BinaryOp} (hlhs : Derives (chain op.precedence) ls lhs mid)
    (hop : frontOperator? mid = some op)
    (hrhs : Derives (chain (op.precedence + 1)) (mid.drop 1) rhs ls') :
    Derives (chain op.precedence) ls (.binary op lhs rhs) ls' := by
  obtain ⟨ts, allowed, hts, hallowed, hls⟩ := hlhs
  obtain ⟨us, allowed', hus, hallowed', hls'⟩ := hrhs
  obtain ⟨p, hmid⟩ := frontOperator?_eq hop
  refine ⟨_, _, hts.binary hus, ⟨hallowed, hallowed'⟩, hls.append ?_⟩
  rw [hmid]
  exact .cons p hls'

theorem Derives.plain (h : Derives (chain 1) ls e ls') : Derives .expr ls e ls' := by
  obtain ⟨ts, allowed, hts, hrest⟩ := h
  exact ⟨ts, allowed, hts.plain, hrest⟩

theorem Derives.cond {ls₁ ls₂ ls₃ : List Located} (htest : Derives (chain 1) ls test ls₁)
    (hquestion : startsWith .question ls₁ = true) (hyes : Derives .expr (ls₁.drop 1) yes ls₂)
    (hcolon : expect last .colon ls₂ = .ok ls₃) (hno : Derives .expr ls₃ no ls') :
    Derives .expr ls (.cond test yes no) ls' := by
  obtain ⟨ts, allowed, hts, hallowed, hls⟩ := htest
  obtain ⟨us, allowed', hus, hallowed', hls₁⟩ := hyes
  obtain ⟨vs, allowed'', hvs, hallowed'', hls₃⟩ := hno
  exact ⟨_, _, hts.cond hus hvs, ⟨hallowed, hallowed', hallowed''⟩,
    hls.append ((consumes_drop hquestion).append (hls₁.append ((consumes_expect hcolon).append hls₃)))⟩

/-- The number that a minus and the number after it form. -/
theorem derives_negated {literal : Except SyntaxError Expr} (hminus : startsWith .minus ls = true)
    (h : negated? (ls.drop 1) = some literal) (he : literal = .ok e) :
    Derives .unary ls e (ls.drop 2) ∧ startsWith .openBracket (ls.drop 2) = false := by
  have hnumber : ∃ n : Numeral, Consumes (ls.drop 1) [n.token] (ls.drop 2) ∧ n.NegatedFits ∧
      n.negated = e ∧ startsWith .openBracket (ls.drop 2) = false := by
    have hdrop : ls.drop 2 = (ls.drop 1).drop 1 := by rw [List.drop_drop]
    rw [hdrop]
    unfold negated? at h
    split at h
    · rename_i k p rest hls
      split at h
      · cases h
      · rename_i hopen
        split at h
        · rename_i value hfit
          cases h
          cases he
          have hvalue := fit?_eq_some_iff.1 hfit
          have hlow := Int64.minValue_le_toInt value
          have hmin : Int64.minValue.toInt = -9223372036854775808 := by decide
          refine ⟨.int k, hls ▸ .cons p (.nil rest), ?_, ?_, hls ▸ Bool.eq_false_iff.2 hopen⟩
          · show k ≤ 9223372036854775808
            omega
          · rw [Numeral.negated, ← hvalue, Int64.ofInt_toInt]
        · cases h
          cases he
    · rename_i x p rest hls
      split at h <;> cases h
      cases he
      rename_i hopen
      exact ⟨.double x, hls ▸ .cons p (.nil rest), trivial, rfl, hls ▸ Bool.eq_false_iff.2 hopen⟩
    · cases h
  obtain ⟨n, hn, hfits, rfl, hend⟩ := hnumber
  exact ⟨⟨_, _, forms_negated n, hfits, (consumes_drop hminus).append hn⟩, hend⟩

/-- An operand that is a number without subscripts is one that a minus makes negative. -/
theorem negated?_ne_none {n : Numeral} (hls : Consumes ls [n.token] rest)
    (hrest : startsWith .openBracket rest = false) : negated? ls ≠ none := by
  obtain ⟨p, ls, rfl, hend⟩ := hls.split_cons
  obtain rfl := hend.eq_of_nil
  cases n with
  | int k =>
    simp only [Numeral.token, negated?, hrest]
    cases fit? (-(k : Int)) <;> simp
  | double x => simp [Numeral.token, negated?, hrest]

theorem Derives.neg (hminus : startsWith .minus ls = true) (hnone : negated? (ls.drop 1) = none)
    (h : Derives .unary (ls.drop 1) e ls') (hend : startsWith .openBracket ls' = false) :
    Derives .unary ls (.unary .neg e) ls' := by
  obtain ⟨ts, allowed, hts, hallowed, hls⟩ := h
  refine ⟨_, _, hts.neg fun n hn => ?_, hallowed, (consumes_drop hminus).append hls⟩
  exact negated?_ne_none (hn ▸ hls) hend hnone

theorem Derives.not (hbang : startsWith .bang ls = true) (h : Derives .unary (ls.drop 1) e ls') :
    Derives .unary ls (.unary .not e) ls' := by
  obtain ⟨ts, allowed, hts, hallowed, hls⟩ := h
  exact ⟨_, _, hts.not, hallowed, (consumes_drop hbang).append hls⟩

theorem Derives.unsigned (h : Derives .subscripted ls e ls') : Derives .unary ls e ls' := by
  obtain ⟨ts, allowed, hts, hrest⟩ := h
  exact ⟨ts, allowed, hts.unsigned, hrest⟩

theorem Derives.bare (h : Derives .primary ls e ls') : Derives .subscripted ls e ls' := by
  obtain ⟨ts, allowed, hts, hrest⟩ := h
  exact ⟨ts, allowed, hts.bare, hrest⟩

theorem Derives.index {ls₁ : List Located} (h : Derives .subscripted ls e mid)
    (hopen : startsWith .openBracket mid = true) (hi : Derives .expr (mid.drop 1) i ls₁)
    (hclose : expect last .closeBracket ls₁ = .ok ls') : Derives .subscripted ls (.index e i) ls' := by
  obtain ⟨ts, allowed, hts, hallowed, hls⟩ := h
  obtain ⟨us, allowed', hus, hallowed', hmid⟩ := hi
  exact ⟨_, _, hts.index hus, ⟨hallowed, hallowed'⟩,
    hls.append ((consumes_drop hopen).append (hmid.append (consumes_expect hclose)))⟩

theorem derives_literal (l : Literal) (p : Position) (hfits : l.Fits) :
    Derives .primary (⟨l.token, p⟩ :: ls) l.expr ls :=
  ⟨_, _, forms_literal l, hfits, .cons p (.nil ls)⟩

theorem derives_name (n : String) (p : Position) : Derives .primary (⟨.name n, p⟩ :: ls) (.name n) ls :=
  ⟨_, _, forms_name n, trivial, .cons p (.nil ls)⟩

theorem DerivesItems.call (callee : String) (hopen : startsWith .openParen ls = true)
    (h : DerivesItems .closeParen (ls.drop 1) es ls') :
    Derives .primary (⟨.name callee, p⟩ :: ls) (.call callee es) ls' := by
  obtain ⟨ts, allowed, hts, hallowed, hls⟩ := h
  exact ⟨_, _, hts.call callee, hallowed, .cons p ((consumes_drop hopen).append hls)⟩

theorem Derives.group (h : Derives .expr ls e mid) (hclose : expect last .closeParen mid = .ok ls') :
    Derives .primary (⟨.mark .openParen, p⟩ :: ls) e ls' := by
  obtain ⟨ts, allowed, hts, hallowed, hls⟩ := h
  exact ⟨_, _, hts.group, hallowed, .cons p (hls.append (consumes_expect hclose))⟩

theorem DerivesItems.array (h : DerivesItems .closeBrace ls es ls') :
    Derives .primary (⟨.mark .openBrace, p⟩ :: ls) (.array es) ls' := by
  obtain ⟨ts, allowed, hts, hallowed, hls⟩ := h
  exact ⟨_, _, hts.array, hallowed, .cons p hls⟩

theorem derivesItems_nil (hclose : startsWith m ls = true) : DerivesItems m ls [] (ls.drop 1) :=
  ⟨_, _, formsAll_nil, trivial, consumes_drop hclose⟩

theorem Derives.item (h : Derives .expr ls e mid) (hclose : startsWith m mid = true) :
    DerivesItems m ls [e] (mid.drop 1) := by
  obtain ⟨ts, allowed, hts, hallowed, hls⟩ := h
  exact ⟨_, _, hts.item, hallowed, hls.append (consumes_drop hclose)⟩

theorem Derives.items (h : Derives .expr ls e mid) (hcomma : expect last .comma mid = .ok rest)
    (hes : es ≠ []) (hmore : DerivesItems m rest es ls') : DerivesItems m ls (e :: es) ls' := by
  obtain ⟨ts, allowed, hts, hallowed, hls⟩ := h
  obtain ⟨us, allowed', hus, hallowed', hrest⟩ := hmore
  refine ⟨_, _, hts.items hes hus, ⟨hallowed, hallowed'⟩, ?_⟩
  rw [List.append_assoc]
  exact hls.append ((consumes_expect hcomma).append hrest)

end Productions

/-! ### What is read -/

/-- What is read with the given bound on the recursion is derived. -/
structure Sound (fuel : Nat) : Prop where
  expr : ∀ {last ls e ls'}, expr last fuel ls = .ok (e, ls') → Derives .expr ls e ls'
  binary : ∀ {last least ls e ls'}, binary last fuel least ls = .ok (e, ls') →
    Derives (chain least) ls e ls' ∧ Below least ls'
  operands : ∀ {last least k ls₀ lhs ls e ls'}, operands last fuel least lhs ls = .ok (e, ls') →
    least ≤ k → Derives (chain k) ls₀ lhs ls → Below (k + 1) ls →
      Derives (chain least) ls₀ e ls' ∧ Below least ls'
  unary : ∀ {last ls e ls'}, unary last fuel ls = .ok (e, ls') →
    Derives .unary ls e ls' ∧ startsWith .openBracket ls' = false
  subscripts : ∀ {last ls₀ target ls e ls'}, subscripts last fuel target ls = .ok (e, ls') →
    Derives .subscripted ls₀ target ls →
      Derives .subscripted ls₀ e ls' ∧ startsWith .openBracket ls' = false
  primary : ∀ {last ls e ls'}, primary last fuel ls = .ok (e, ls') → Derives .primary ls e ls'
  items : ∀ {last close ls es ls'}, items last fuel close ls = .ok (es, ls') →
    DerivesItems close ls es ls'
  itemsTail : ∀ {last close ls es ls'}, itemsTail last fuel close ls = .ok (es, ls') →
    es ≠ [] ∧ DerivesItems close ls es ls'

theorem sound_zero : Sound 0 :=
  ⟨fun hr => (by cases hr), fun hr => (by cases hr), fun hr => (by cases hr),
    fun hr => (by cases hr), fun hr => (by cases hr), fun hr => (by cases hr),
    fun hr => (by cases hr), fun hr => (by cases hr)⟩

namespace Sound

variable {last : Position} {fuel least k : Nat} {ls₀ ls ls' : List Located} {e lhs target : Expr}
  {es : List Expr} {close : Mark}

theorem expr_succ (h : Sound fuel) (hr : Parser.expr last (fuel + 1) ls = .ok (e, ls')) :
    Derives .expr ls e ls' := by
  rw [Parser.expr] at hr
  obtain ⟨⟨test, ls₁⟩, hread, hr⟩ := read_bind hr
  obtain ⟨htest, -⟩ := h.binary hread
  dsimp only at hr
  split at hr
  · rename_i hquestion
    obtain ⟨⟨yes, ls₂⟩, hyes, hr⟩ := read_bind hr
    obtain ⟨ls₃, hcolon, hr⟩ := read_bind hr
    obtain ⟨⟨no, ls₄⟩, hno, hr⟩ := read_bind hr
    cases hr
    exact htest.cond hquestion (h.expr hyes) hcolon (h.expr hno)
  · cases hr
    exact htest.plain

theorem binary_succ (h : Sound fuel) (hr : Parser.binary last (fuel + 1) least ls = .ok (e, ls')) :
    Derives (chain least) ls e ls' ∧ Below least ls' := by
  rw [Parser.binary] at hr
  obtain ⟨⟨lhs, ls₁⟩, hread, hr⟩ := read_bind hr
  have hlhs : Derives (chain (least + 7)) ls lhs ls₁ := (h.unary hread).1
  refine h.operands hr (Nat.le_add_right least 7) hlhs fun op _ => ?_
  have hop : op.precedence < 7 := by cases op <;> decide
  omega

theorem operands_succ (h : Sound fuel)
    (hr : Parser.operands last (fuel + 1) least lhs ls = .ok (e, ls')) (hleast : least ≤ k)
    (hlhs : Derives (chain k) ls₀ lhs ls) (hls : Below (k + 1) ls) :
    Derives (chain least) ls₀ e ls' ∧ Below least ls' := by
  rw [Parser.operands] at hr
  split at hr
  · rename_i hnone
    cases hr
    refine ⟨hlhs.chain_of_le hleast, fun op hop => ?_⟩
    rw [hnone] at hop
    cases hop
  · rename_i op hop
    split at hr
    · rename_i hlt
      cases hr
      refine ⟨hlhs.chain_of_le hleast, fun op' hop' => ?_⟩
      rw [hop] at hop'
      cases hop'
      exact hlt
    · rename_i hge
      obtain ⟨⟨rhs, ls₁⟩, hread, hr⟩ := read_bind hr
      obtain ⟨hrhs, hls₁⟩ := h.binary hread
      -- an operator that binds more weakly ends the operand on its left
      have hlhs' := hlhs.chain_of_le (Nat.le_of_lt_succ (hls op hop))
      exact h.operands hr (Nat.le_of_not_lt hge) (hlhs'.binary hop hrhs) hls₁

theorem unary_succ (h : Sound fuel) (hr : Parser.unary last (fuel + 1) ls = .ok (e, ls')) :
    Derives .unary ls e ls' ∧ startsWith .openBracket ls' = false := by
  rw [Parser.unary] at hr
  split at hr
  · rename_i hminus
    split at hr
    · rename_i literal hliteral
      obtain ⟨a, ha, hr⟩ := read_bind hr
      cases hr
      exact derives_negated hminus hliteral ha
    · rename_i hnone
      obtain ⟨⟨operand, ls₁⟩, hread, hr⟩ := read_bind hr
      obtain ⟨hoperand, hend⟩ := h.unary hread
      cases hr
      exact ⟨hoperand.neg hminus hnone hend, hend⟩
  · split at hr
    · rename_i hbang
      obtain ⟨⟨operand, ls₁⟩, hread, hr⟩ := read_bind hr
      obtain ⟨hoperand, hend⟩ := h.unary hread
      cases hr
      exact ⟨hoperand.not hbang, hend⟩
    · obtain ⟨⟨a, ls₁⟩, hread, hr⟩ := read_bind hr
      obtain ⟨he, hend⟩ := h.subscripts hr (h.primary hread).bare
      exact ⟨he.unsigned, hend⟩

theorem subscripts_succ (h : Sound fuel)
    (hr : Parser.subscripts last (fuel + 1) target ls = .ok (e, ls'))
    (htarget : Derives .subscripted ls₀ target ls) :
    Derives .subscripted ls₀ e ls' ∧ startsWith .openBracket ls' = false := by
  rw [Parser.subscripts] at hr
  split at hr
  · rename_i hopen
    obtain ⟨⟨i, ls₁⟩, hi, hr⟩ := read_bind hr
    obtain ⟨ls₂, hclose, hr⟩ := read_bind hr
    exact h.subscripts hr (htarget.index hopen (h.expr hi) hclose)
  · rename_i hopen
    cases hr
    exact ⟨htarget, Bool.eq_false_iff.2 hopen⟩

theorem primary_succ (h : Sound fuel) (hr : Parser.primary last (fuel + 1) ls = .ok (e, ls')) :
    Derives .primary ls e ls' := by
  rw [Parser.primary.eq_def] at hr
  dsimp only at hr
  split at hr
  · cases hr
    exact derives_literal .null _ trivial
  · cases hr
    exact derives_literal (.bool true) _ trivial
  · cases hr
    exact derives_literal (.bool false) _ trivial
  · rename_i k p ls
    split at hr <;> cases hr
    rename_i value hfit
    have hvalue := fit?_eq_some_iff.1 hfit
    have hhigh := Int64.toInt_le value
    have hmax : Int64.maxValue.toInt = 9223372036854775807 := by decide
    have hexpr : (Literal.number (.int k)).expr = .int value := by
      rw [Literal.expr, Numeral.expr, ← hvalue, Int64.ofInt_toInt]
    have hfits : k ≤ 9223372036854775807 := by omega
    exact hexpr ▸ derives_literal (.number (.int k)) p hfits
  · cases hr
    exact derives_literal (.number (.double _)) _ trivial
  · cases hr
    exact derives_literal (.str _) _ trivial
  · split at hr
    · rename_i hopen
      obtain ⟨⟨args, ls₁⟩, hargs, hr⟩ := read_bind hr
      cases hr
      exact (h.items hargs).call _ hopen
    · cases hr
      exact derives_name _ _
  · obtain ⟨⟨a, ls₁⟩, ha, hr⟩ := read_bind hr
    obtain ⟨ls₂, hclose, hr⟩ := read_bind hr
    cases hr
    exact (h.expr ha).group hclose
  · obtain ⟨⟨es, ls₁⟩, hes, hr⟩ := read_bind hr
    cases hr
    exact (h.items hes).array
  · cases hr

theorem items_succ (h : Sound fuel) (hr : Parser.items last (fuel + 1) close ls = .ok (es, ls')) :
    DerivesItems close ls es ls' := by
  rw [Parser.items] at hr
  split at hr
  · rename_i hclose
    cases hr
    exact derivesItems_nil hclose
  · exact (h.itemsTail hr).2

theorem itemsTail_succ (h : Sound fuel)
    (hr : Parser.itemsTail last (fuel + 1) close ls = .ok (es, ls')) :
    es ≠ [] ∧ DerivesItems close ls es ls' := by
  rw [Parser.itemsTail] at hr
  obtain ⟨⟨a, ls₁⟩, ha, hr⟩ := read_bind hr
  dsimp only at hr
  split at hr
  · rename_i hclose
    cases hr
    exact ⟨List.cons_ne_nil _ _, (h.expr ha).item hclose⟩
  · obtain ⟨ls₂, hcomma, hr⟩ := read_bind hr
    obtain ⟨⟨more, ls₃⟩, hread, hr⟩ := read_bind hr
    obtain ⟨hne, hmore⟩ := h.itemsTail hread
    cases hr
    exact ⟨List.cons_ne_nil _ _, (h.expr ha).items hcomma hne hmore⟩

end Sound

/-- What is read is derived. -/
theorem sound (fuel : Nat) : Sound fuel := by
  induction fuel with
  | zero => exact sound_zero
  | succ fuel ih =>
    exact ⟨ih.expr_succ, ih.binary_succ, ih.operands_succ, ih.unary_succ, ih.subscripts_succ,
      ih.primary_succ, ih.items_succ, ih.itemsTail_succ⟩

end Grammar

end Reflow
