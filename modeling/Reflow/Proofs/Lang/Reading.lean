import Reflow.Proofs.Lang.Recognition
import Reflow.Proofs.Lang.Rereading
/-!
# Reading rendered programs

The tokens of a rendered program are derived, and the derivation stands for the program with all its
expressions reread. An operand is derived in every place in which it may stand without parentheses; one that
binds too weakly for its place stands in parentheses. The one thing that cannot be read again is a subscript
directly on the least integer, whose number is too large without its sign.

## Main definitions

* `Grammar.Understood`: an expression whose tokens are derived in all places.
* `Statement.reread`: the statement that a rendered statement is read as.

## Main results

* `Grammar.understood`: the tokens of a rendered expression are derived.
* `parseProgram_renderAll_eq_ok_iff`: what a rendered program is read as.
-/

namespace Reflow

namespace Expr

/-- Whether an expression is not a subscript directly on the least integer. -/
def isReadable : Expr → Bool
  | index (int n) _ => n ≠ Int64.minValue
  | _ => true

theorem isReadable_index {target i : Expr} :
    (index target i).isReadable = true ↔ target ≠ .int Int64.minValue := by
  cases target with
  | int n => simp [isReadable]
  | _ => exact ⟨fun _ h => (by cases h), fun _ => rfl⟩

/-- A rendered integer without its sign. -/
theorem body_int (n : Int64) : (int n).body = [.int n.toInt.natAbs] := by
  unfold body signed tokens
  by_cases hn : n.toInt < 0 <;> simp [hn]

theorem core_int (n : Int64) : (int n).core = .int (.ofInt n.toInt.natAbs) := by
  unfold core signed
  by_cases hn : n.toInt < 0
  · have habs : (n.toInt.natAbs : Int) = -n.toInt := by omega
    simp [hn, reread, magnitude, habs, Int64.ofInt_neg]
  · have habs : (n.toInt.natAbs : Int) = n.toInt := by omega
    simp [hn, reread, habs]

theorem core_index (target i : Expr) : (index target i).core = .index target.core i.reread := by
  unfold core
  rw [signed, reread]
  split <;> rfl

theorem tokens_eq_body {e : Expr} (h : e.signed = false) : e.tokens = e.body := by
  rw [body, h]
  rfl

theorem reread_eq_core {e : Expr} (h : e.signed = false) : e.reread = e.core := by
  rw [core, h]
  rfl

/-- The sign comes before the rest. -/
theorem tokens_eq_cons {e : Expr} (h : e.signed = true) : e.tokens = .mark .minus :: e.body := by
  obtain ⟨k, ts, htokens⟩ := e.tokens_of_signed h
  rw [body, if_pos h, htokens]
  rfl

end Expr

namespace Grammar

/-- The tokens of a rendered expression are derived in all places in which it may stand. -/
structure Understood (e : Expr) : Prop where
  expr : Forms .expr e.tokens (e.all Expr.isReadable = true) e.reread
  operand : ∀ {k}, 1 ≤ k → k ≤ 7 → k ≤ e.precedence →
    Forms (chain k) e.tokens (e.all Expr.isReadable = true) e.reread
  subscripted : e.precedence = 8 →
    Forms .subscripted e.body (e.all Expr.isReadable = true ∧ e ≠ .int Int64.minValue) e.core

section Places

variable {e : Expr} {k : Nat}

theorem Understood.of_expr (hprec : e.precedence = 0)
    (h : Forms .expr e.tokens (e.all Expr.isReadable = true) e.reread) : Understood e :=
  ⟨h, fun hpos _ hk => absurd (Nat.le_trans hpos hk) (by omega), fun h => absurd h (by omega)⟩

theorem Understood.of_operand (hpos : 1 ≤ e.precedence) (hlt : e.precedence < 8)
    (h : Forms (chain e.precedence) e.tokens (e.all Expr.isReadable = true) e.reread) :
    Understood e :=
  ⟨(h.chain_of_le hpos).plain, fun _ _ hk => h.chain_of_le hk, fun h => (by omega)⟩

theorem Understood.of_subscripted
    (hunary : Forms (chain 7) e.tokens (e.all Expr.isReadable = true) e.reread)
    (h : Forms .subscripted e.body (e.all Expr.isReadable = true ∧ e ≠ .int Int64.minValue) e.core) :
    Understood e :=
  ⟨(hunary.chain_of_le (by decide)).plain, fun _ hk _ => hunary.chain_of_le hk, fun _ => h⟩

/-- An expression that starts without a sign. -/
theorem Understood.of_primary (hsigned : e.signed = false)
    (hint : e ≠ .int Int64.minValue)
    (h : Forms .subscripted e.tokens (e.all Expr.isReadable = true) e.reread) : Understood e := by
  refine .of_subscripted h.unsigned ?_
  rw [← Expr.tokens_eq_body hsigned, ← Expr.reread_eq_core hsigned]
  exact h.congr (and_iff_left hint).symm

theorem Understood.of_literal {l : Literal} (hfits : l.Fits) (hsigned : e.signed = false)
    (hint : e ≠ .int Int64.minValue) (hread : e.all Expr.isReadable = true) (htokens : e.tokens = [l.token])
    (hexpr : e.reread = l.expr) : Understood e := by
  refine .of_primary hsigned hint ?_
  rw [htokens, hexpr]
  exact (forms_literal l).bare.congr (iff_of_true hfits hread)

/-- An operand is derived in its place, in parentheses if it binds too weakly. -/
theorem Understood.grouped (h : Understood e) (hpos : 1 ≤ k) (hk : k ≤ 7) :
    Forms (chain k) (e.groupedTokens e.tokens k) (e.all Expr.isReadable = true) e.reread := by
  unfold Expr.groupedTokens
  split
  · have hgroup : Forms (chain 7) _ _ _ := h.expr.group.bare.unsigned
    exact hgroup.chain_of_le hk
  · exact h.operand hpos hk (by omega)

end Places

/-! ### Cases -/

section Cases

variable {target i operand lhs rhs test yes no : Expr}

theorem understood_int (n : Int64) : Understood (.int n) := by
  have hlow := Int64.minValue_le_toInt n
  have hhigh := Int64.toInt_le n
  have hmin : Int64.minValue.toInt = -9223372036854775808 := by decide
  have hmax : Int64.maxValue.toInt = 9223372036854775807 := by decide
  have hread : (Expr.int n).all Expr.isReadable = true := rfl
  refine .of_subscripted ?_ ?_
  · by_cases hn : n.toInt < 0
    · have hvalue : -(n.toInt.natAbs : Int) = n.toInt := by omega
      have hforms := forms_negated (.int n.toInt.natAbs)
      rw [Numeral.negated, hvalue, Int64.ofInt_toInt] at hforms
      rw [Expr.tokens, if_pos hn]
      refine hforms.congr (iff_of_true ?_ hread)
      show n.toInt.natAbs ≤ 9223372036854775808
      omega
    · have hvalue : (n.toInt.natAbs : Int) = n.toInt := by omega
      have hforms := (forms_literal (.number (.int n.toInt.natAbs))).bare.unsigned
      rw [Literal.expr, Numeral.expr, hvalue, Int64.ofInt_toInt] at hforms
      rw [Expr.tokens, if_neg hn]
      refine hforms.congr (iff_of_true ?_ hread)
      show n.toInt.natAbs ≤ 9223372036854775807
      omega
  · rw [Expr.body_int, Expr.core_int]
    refine (forms_literal (.number (.int n.toInt.natAbs))).bare.congr ?_
    have hne : Expr.int n ≠ .int Int64.minValue ↔ n.toInt ≠ Int64.minValue.toInt := by
      rw [Ne, Expr.int.injEq, ← Int64.toInt_inj]
    rw [hne, and_iff_right hread]
    show n.toInt.natAbs ≤ 9223372036854775807 ↔ _
    omega

theorem understood_index (htarget : Understood target) (hi : Understood i) :
    Understood (.index target i) := by
  have hvalid : (target.all Expr.isReadable = true ∧ target ≠ .int Int64.minValue) ∧
      i.all Expr.isReadable = true ↔ (Expr.index target i).all Expr.isReadable = true := by
    simp only [Expr.all, Bool.and_eq_true, Expr.isReadable_index]
    rw [and_assoc, and_left_comm]
  have hforms : Forms .subscripted (Expr.index target i).body
      ((Expr.index target i).all Expr.isReadable = true) (Expr.index target i).core := by
    rw [Expr.core_index]
    by_cases hprec : target.precedence = 8
    · rw [Expr.body_index hprec]
      exact ((htarget.subscripted hprec).index hi.expr).congr hvalid
    · have hsigned : target.signed = false :=
        Bool.eq_false_iff.2 fun h => hprec (Expr.precedence_of_signed h)
      have hlt := Nat.lt_of_le_of_ne target.precedence_le hprec
      have hgroup := (htarget.expr.group.bare.index hi.expr).congr ((and_congr_left fun _ =>
        (and_iff_left fun h => hprec (by rw [h]; rfl)).symm).trans hvalid)
      have hindex : (Expr.index target i).signed = false := hsigned
      rw [← Expr.tokens_eq_body hindex, Expr.tokens, Expr.groupedTokens_of_lt hlt,
        ← Expr.reread_eq_core hsigned]
      exact hgroup
  cases hsigned : target.signed with
  | true =>
    have hindex : (Expr.index target i).signed = true := hsigned
    refine .of_subscripted ?_ (hforms.congr (and_iff_left (by simp)).symm)
    have hreread : (Expr.index target i).reread = .unary .neg (Expr.index target i).core := by
      rw [Expr.core, if_pos hindex, Expr.reread, if_pos hsigned, Expr.magnitude]
    rw [Expr.tokens_eq_cons hindex, hreread]
    refine hforms.unsigned.neg fun n hn => ?_
    rw [Expr.body_index (Expr.precedence_of_signed hsigned)] at hn
    have hmem : Token.mark .openBracket ∈ [n.token] := hn ▸ by simp
    exact n.token_ne_mark _ (List.mem_singleton.1 hmem).symm
  | false =>
    have hindex : (Expr.index target i).signed = false := hsigned
    rw [← Expr.tokens_eq_body hindex, ← Expr.reread_eq_core hindex] at hforms
    exact .of_primary hindex (by simp) hforms

/-- An operand that is a number without a sign is an integer. -/
theorem eq_int_of_tokens {n : Numeral} (hlexable : operand.all Expr.isLexable = true)
    (h : operand.groupedTokens operand.tokens 7 = [n.token]) : ∃ k : Int64, operand = .int k ∧ 0 ≤ k.toInt := by
  have hmark : ∀ m : Mark, .mark m ∉ operand.groupedTokens operand.tokens 7 := fun m hm => by
    rw [h] at hm
    exact n.token_ne_mark m (List.mem_singleton.1 hm).symm
  have hgroup : 7 ≤ operand.precedence := by
    refine Nat.le_of_not_lt fun hlt => hmark .openParen ?_
    rw [Expr.groupedTokens_of_lt hlt]
    exact List.mem_cons_self
  rw [Expr.groupedTokens_of_le hgroup] at h hmark
  cases operand with
  | int k =>
    refine ⟨k, rfl, Int.not_lt.1 fun hk => hmark .minus ?_⟩
    simp [Expr.tokens, hk]
  | double x => cases hlexable
  | str s => cases n <;> cases h
  | name x => exact absurd (List.cons.inj h).1.symm (n.token_ne_name x)
  | bool b => cases b <;> exact absurd (List.cons.inj h).1.symm (n.token_ne_mark _)
  | null => exact absurd (List.cons.inj h).1.symm (n.token_ne_mark _)
  | array items => exact absurd (by simp [Expr.tokens]) (hmark .openBrace)
  | index target i => exact absurd (by simp [Expr.tokens]) (hmark .openBracket)
  | call callee args => exact absurd (by simp [Expr.tokens]) (hmark .openParen)
  | unary op e => exact absurd (by simp [Expr.tokens]) (hmark op.mark)
  | binary op lhs rhs => exact absurd (by simp [Expr.tokens]) (hmark op.mark)
  | cond test yes no => exact absurd (by simp [Expr.tokens]) (hmark .question)

theorem understood_unary {op : UnaryOp} (hlexable : operand.all Expr.isLexable = true)
    (h : Understood operand) : Understood (.unary op operand) := by
  have hoperand := h.grouped (k := 7) (by decide) (by decide)
  have hvalid : operand.all Expr.isReadable = true ↔
      (Expr.unary op operand).all Expr.isReadable = true := by
    simp [Expr.all, Expr.isReadable]
  refine .of_operand (Nat.le_of_ble_eq_true rfl) (Nat.le_of_ble_eq_true rfl) ?_
  show Forms .unary _ _ _
  rw [Expr.tokens]
  cases op with
  | not => exact (Forms.not hoperand).congr hvalid
  | neg =>
    cases hliteral : Expr.negativeLiteral? .neg operand with
    | none =>
      have hreread : (Expr.unary .neg operand).reread = .unary .neg operand.reread := by
        rw [Expr.reread, hliteral]
      rw [hreread]
      refine (Forms.neg hoperand fun n hn => ?_).congr hvalid
      obtain ⟨k, rfl, hk⟩ := eq_int_of_tokens hlexable hn
      rw [Expr.negativeLiteral?, if_pos hk] at hliteral
      cases hliteral
    | some k =>
      have hreread : (Expr.unary .neg operand).reread = .int k := by rw [Expr.reread, hliteral]
      cases operand with
      | int n =>
        rw [Expr.negativeLiteral?] at hliteral
        split at hliteral <;> cases hliteral
        rename_i hn
        have hhigh := Int64.toInt_le n
        have hmax : Int64.maxValue.toInt = 9223372036854775807 := by decide
        have hvalue : (n.toInt.natAbs : Int) = n.toInt := by omega
        have hforms := forms_negated (.int n.toInt.natAbs)
        rw [Numeral.negated, hvalue, Int64.ofInt_neg, Int64.ofInt_toInt] at hforms
        rw [hreread, Expr.groupedTokens_of_le (Nat.le_succ 7), Expr.tokens, if_neg (Int.not_lt.2 hn)]
        refine hforms.congr (iff_of_true ?_ rfl)
        show n.toInt.natAbs ≤ 9223372036854775808
        omega
      | _ => cases hliteral

theorem understood_binary {op : BinaryOp} (hlhs : Understood lhs) (hrhs : Understood rhs) :
    Understood (.binary op lhs rhs) := by
  have hpos : 1 ≤ op.precedence := by cases op <;> decide
  have hlt := Expr.precedence_lt_of_binary op
  have hvalid : lhs.all Expr.isReadable = true ∧ rhs.all Expr.isReadable = true ↔
      (Expr.binary op lhs rhs).all Expr.isReadable = true := by
    simp [Expr.all, Expr.isReadable]
  refine .of_operand hpos (Nat.lt_succ_of_lt hlt) ?_
  have hforms := (hlhs.grouped hpos (Nat.le_of_lt hlt)).binary (hrhs.grouped (Nat.le_add_left 1 _) hlt)
  exact hforms.congr hvalid

theorem understood_cond (htest : Understood test) (hyes : Understood yes) (hno : Understood no) :
    Understood (.cond test yes no) := by
  refine .of_expr rfl ?_
  have hforms := (htest.grouped (Nat.le_refl 1) (by decide)).cond
    (hyes.grouped (Nat.le_refl 1) (by decide)).plain hno.expr
  refine hforms.congr ?_
  simp [Expr.all, Expr.isReadable]

theorem formsAll_itemTokens : {es : List Expr} → (∀ e ∈ es, Understood e) →
    FormsAll (Expr.itemTokens es) (Expr.allOf Expr.isReadable es = true) (Expr.rereadAll es)
  | [], _ => ⟨[], rfl, iff_of_true trivial rfl, rfl⟩
  | [e], h => by
    obtain ⟨ds, hds, hvalid, hast⟩ := (h e List.mem_cons_self).expr.item
    refine ⟨ds, hds, hvalid.trans ?_, hast⟩
    simp [Expr.allOf]
  | e :: e' :: es, h => by
    have hmore := formsAll_itemTokens fun d hd => h d (List.mem_cons_of_mem e hd)
    obtain ⟨ds, hds, hvalid, hast⟩ :=
      (h e List.mem_cons_self).expr.items (List.cons_ne_nil _ _) hmore
    refine ⟨ds, hds, hvalid.trans ?_, hast⟩
    simp [Expr.allOf]

end Cases

mutual

/-- The tokens of a rendered expression are derived, and the derivation stands for its rereading. -/
theorem understood : (e : Expr) → e.all Expr.isLexable = true → Understood e
  | .null, _ => .of_literal (l := .null) trivial rfl (by simp) rfl rfl rfl
  | .bool true, _ => .of_literal (l := .bool true) trivial rfl (by simp) rfl rfl rfl
  | .bool false, _ => .of_literal (l := .bool false) trivial rfl (by simp) rfl rfl rfl
  | .str s, _ => .of_literal (l := .str s) trivial rfl (by simp) rfl rfl rfl
  | .int n, _ => understood_int n
  | .name n, _ => .of_primary rfl (by simp) ((forms_name n).bare.congr (iff_of_true trivial rfl))
  | .array items, h => by
    simp only [Expr.all, Bool.and_eq_true] at h
    exact .of_primary rfl (by simp) (formsAll_itemTokens (understood_all items h.2)).array.bare
  | .index target i, h => by
    simp only [Expr.all, Bool.and_eq_true] at h
    exact understood_index (understood target h.2.1) (understood i h.2.2)
  | .call callee args, h => by
    simp only [Expr.all, Bool.and_eq_true] at h
    exact .of_primary rfl (by simp)
      ((formsAll_itemTokens (understood_all args h.2)).call callee).bare
  | .unary op operand, h => by
    simp only [Expr.all, Bool.and_eq_true] at h
    exact understood_unary h.2 (understood operand h.2)
  | .binary op lhs rhs, h => by
    simp only [Expr.all, Bool.and_eq_true] at h
    exact understood_binary (understood lhs h.2.1) (understood rhs h.2.2)
  | .cond test yes no, h => by
    simp only [Expr.all, Bool.and_eq_true] at h
    exact understood_cond (understood test h.2.1) (understood yes h.2.2.1) (understood no h.2.2.2)

theorem understood_all : (es : List Expr) → Expr.allOf Expr.isLexable es = true →
    ∀ e ∈ es, Understood e
  | [], _ => List.forall_mem_nil _
  | e :: es, h => by
    rw [Expr.allOf, Bool.and_eq_true] at h
    exact List.forall_mem_cons.2 ⟨understood e h.1, understood_all es h.2⟩

end

end Grammar

/-! ### Statements -/

namespace Statement

/-- The parameters that a statement declares. -/
def parameters : Statement → List String
  | assign _ _ => []
  | define _ params _ => params

/-- The expression of a statement. -/
def expression : Statement → Expr
  | assign _ value => value
  | define _ _ body => body

/-- The statement that a rendered statement is read as. -/
def reread : Statement → Statement
  | assign target value => assign target value.reread
  | define name params body => define name params body.reread

/-- All names are words that the lexer reads as names, and no number is a double. -/
def Lexable (s : Statement) : Prop := s.Named ∧ s.expression.all Expr.isLexable = true

instance : DecidablePred Lexable := fun _ => inferInstanceAs (Decidable (_ ∧ _))

/-- The parameters are distinct, and no subscript stands directly on the least integer. -/
def Readable (s : Statement) : Prop :=
  s.parameters.Nodup ∧ s.expression.all Expr.isReadable = true

instance : DecidablePred Readable := fun _ => inferInstanceAs (Decidable (_ ∧ _))

end Statement

namespace Grammar

theorem exists_statementTree {s : Statement} (h : s.Lexable) : ∃ d : StatementTree,
    d.yield = s.tokens ∧ (d.Valid ↔ s.Readable) ∧ d.ast = s.reread := by
  cases s with
  | assign target value =>
    obtain ⟨d, hd, hvalid, hast⟩ := (understood value h.2).expr
    refine ⟨.assign target d, ?_, ?_, congrArg _ hast⟩
    · simp [StatementTree.yield, Statement.tokens, Statement.opening, Statement.inner, hd]
    · exact hvalid.trans (and_iff_right List.nodup_nil).symm
  | define name params body =>
    obtain ⟨d, hd, hvalid, hast⟩ := (understood body h.2).expr
    refine ⟨.define name params d, ?_, and_congr_right fun _ => hvalid, congrArg _ hast⟩
    simp [StatementTree.yield, Statement.tokens, Statement.opening, Statement.inner, hd]

theorem exists_statementTrees {program : List Statement} (h : ∀ s ∈ program, s.Lexable) :
    ∃ ds : List StatementTree, ds.flatMap StatementTree.yield = program.flatMap Statement.tokens ∧
      ((∀ d ∈ ds, d.Valid) ↔ ∀ s ∈ program, s.Readable) ∧
        ds.map StatementTree.ast = program.map Statement.reread := by
  induction program with
  | nil => exact ⟨[], rfl, by simp, rfl⟩
  | cons s rest ih =>
    obtain ⟨d, hd, hvalid, hast⟩ := exists_statementTree (h s List.mem_cons_self)
    obtain ⟨ds, hds, hvalids, hasts⟩ := ih fun s hs => h s (List.mem_cons_of_mem _ hs)
    refine ⟨d :: ds, ?_, ?_, ?_⟩
    · rw [List.flatMap_cons, List.flatMap_cons, hd, hds]
    · rw [List.forall_mem_cons, List.forall_mem_cons, hvalid, hvalids]
    · rw [List.map_cons, List.map_cons, hast, hasts]

end Grammar

/-! ### Whole programs -/

/-- A rendered program is read as the program with all its expressions reread, if parameters are distinct
and no subscript stands directly on the least integer, and is not a program otherwise. -/
theorem parseProgram_renderAll_eq_ok_iff {program read : List Statement}
    (h : ∀ s ∈ program, s.Lexable) : parseProgram (Statement.renderAll program) = .ok read ↔
      (∀ s ∈ program, s.Readable) ∧ read = program.map Statement.reread := by
  obtain ⟨ls, hls, htokens⟩ := splits_renderAll program (fun s hs => (h s hs).1) .start
  obtain ⟨ds, hds, hvalid, hast⟩ := Grammar.exists_statementTrees h
  have hprogram := Grammar.comesTo_program (htokens.trans hds.symm) read
  rw [hvalid, hast] at hprogram
  rw [parseProgram, tokenize, hls]
  refine hprogram.trans (and_congr_right fun _ => ?_)
  rw [Except.ok.injEq, eq_comm]

/-- A program of assignments. -/
def assignmentProgram (assignments : List (String × Expr)) : List Statement :=
  assignments.map fun a => .assign a.1 a.2

/-- A rendered program of assignments that can be read is read as the program with all its expressions
reread. -/
theorem parseProgram_renderAll {assignments : List (String × Expr)}
    (h : ∀ a ∈ assignments, Lexer.isName a.1 = true ∧ a.2.all Expr.isLexable = true)
    {program : List Statement}
    (hr : parseProgram (Statement.renderAll (assignmentProgram assignments)) = .ok program) :
    program = assignmentProgram (assignments.map fun a => (a.1, a.2.reread)) := by
  have hlexable : ∀ s ∈ assignmentProgram assignments, s.Lexable := fun s hs => by
    obtain ⟨a, ha, rfl⟩ := List.mem_map.1 hs
    exact ⟨⟨(h a ha).1, Expr.isNamed_of_isLexable (h a ha).2⟩, (h a ha).2⟩
  obtain ⟨-, rfl⟩ := (parseProgram_renderAll_eq_ok_iff hlexable).1 hr
  simp [assignmentProgram, Function.comp_def, Statement.reread]

end Reflow
