import Reflow.Edit.Exchange
import Reflow.Proofs.Edit.Batches
import Reflow.Proofs.Json.Decoding
import Reflow.Proofs.Lang.Reading
/-!
# Batches in exchange

A subtree that was written as JSON is read as it was, provided that its expressions are nested no deeper than
what can be read. A batch is read through the edits that it is written as, and comes back as it was if no
subtree is touched twice.

## Main definitions

* `Expr.nesting`: how deep an expression is nested.

## Main results

* `Subtree.ofJson?_written`: subtrees come back.
* `Batch.ofJson?_written`: what comes back from a batch.
* `Batch.canonicity`: how a batch is put together, and what it is read as.
-/

namespace Reflow

open Json

@[simp]
theorem Json.choice?_tagged (name : String) (j : Json) : (tagged name j).choice? = some ⟨name, some j⟩ := rfl

theorem UnaryOp.ofJson?_tag (op : UnaryOp) : UnaryOp.ofJson? (.str op.tag) = some op := by
  cases op <;> rfl

theorem BinaryOp.ofJson?_tag (op : BinaryOp) : BinaryOp.ofJson? (.str op.tag) = some op := by
  cases op <;> rfl

namespace Expr

mutual

/-- How deep an expression is nested; one without parts has depth one. -/
def nesting : Expr → Nat
  | null | bool _ | int _ | double _ | str _ | name _ => 1
  | array items => nestingAll items + 1
  | index target i => max target.nesting i.nesting + 1
  | call _ args => nestingAll args + 1
  | unary _ operand => operand.nesting + 1
  | binary _ lhs rhs => max lhs.nesting rhs.nesting + 1
  | cond test yes no => max test.nesting (max yes.nesting no.nesting) + 1

/-- How deep the deepest of some expressions is nested. -/
def nestingAll : List Expr → Nat
  | [] => 0
  | e :: es => max e.nesting (nestingAll es)

end

theorem nesting_le_nestingAll {e : Expr} {es : List Expr} (h : e ∈ es) : e.nesting ≤ nestingAll es := by
  induction es with
  | nil => cases h
  | cons d es ih =>
    rw [nestingAll]
    rcases List.mem_cons.1 h with rfl | h
    · exact Nat.le_max_left ..
    · exact Nat.le_trans (ih h) (Nat.le_max_right ..)

theorem toJsonAll_eq_map (es : List Expr) : toJsonAll es = es.map toJson := by
  induction es with
  | nil => rfl
  | cons e es ih => rw [toJsonAll, ih, List.map_cons]

/-- Expressions come back if they are nested no deeper than the reading goes. -/
theorem ofJsonWithin?_toJson {n : Nat} {e : Expr} (h : e.nesting ≤ n) :
    ofJsonWithin? n e.toJson = some e := by
  induction n generalizing e with
  | zero => cases e <;> simp [nesting] at h
  | succ n ih =>
    have hall : ∀ {es}, nestingAll es ≤ n →
        list? (ofJsonWithin? n) (.arr (toJsonAll es)) = some es := fun {es} hes => by
      rw [toJsonAll_eq_map]
      exact list?_map fun e he => ih (Nat.le_trans (nesting_le_nestingAll he) hes)
    cases e with
    | null | bool b | double x | str s | name s => rfl
    | int k =>
      have hk : int64? (.int k.toInt) = some k := fit?_eq_some_iff.2 rfl
      simp [toJson, ofJsonWithin?, Choice.carrying?, hk]
    | array items =>
      have hitems := hall (Nat.le_of_succ_le_succ h)
      simp [toJson, ofJsonWithin?, Choice.carrying?, hitems]
    | index target i =>
      obtain ⟨htarget, hi⟩ := Nat.max_le.1 (Nat.le_of_succ_le_succ h)
      simp [toJson, ofJsonWithin?, record?_obj, ih htarget, ih hi]
    | call callee args =>
      have hargs := hall (Nat.le_of_succ_le_succ h)
      simp [toJson, ofJsonWithin?, record?_obj, text?, hargs]
    | unary op operand =>
      simp [toJson, ofJsonWithin?, record?_obj, op.ofJson?_tag, ih (Nat.le_of_succ_le_succ h)]
    | binary op lhs rhs =>
      obtain ⟨hlhs, hrhs⟩ := Nat.max_le.1 (Nat.le_of_succ_le_succ h)
      simp [toJson, ofJsonWithin?, record?_obj, op.ofJson?_tag, ih hlhs, ih hrhs]
    | cond test yes no =>
      obtain ⟨htest, hmore⟩ := Nat.max_le.1 (Nat.le_of_succ_le_succ h)
      obtain ⟨hyes, hno⟩ := Nat.max_le.1 hmore
      simp [toJson, ofJsonWithin?, record?_obj, ih htest, ih hyes, ih hno]

end Expr

/-! ### Subtrees and batches -/

theorem Statement.ofJson?_written {s : Statement} (h : s.expression.nesting ≤ depthLimit) :
    ofJson? s.toJson = some s := by
  have hread : Expr.ofJson? s.expression.toJson = some s.expression := Expr.ofJsonWithin?_toJson h
  cases s with
  | assign target value =>
    have hvalue : Expr.ofJson? value.toJson = some value := hread
    simp [toJson, ofJson?, record?_obj, text?, hvalue]
  | define name params body =>
    have hbody : Expr.ofJson? body.toJson = some body := hread
    have hparams : list? text? (strs params) = some params := list?_map fun _ _ => rfl
    simp [toJson, ofJson?, record?_obj, text?, hparams, hbody]

theorem SubtreeId.ofJson?_written (id : SubtreeId) : ofJson? id.toJson = some id := by
  rw [toJson, ofJson?, text?, Option.bind_some, read?_text]

/-- Subtrees come back if their expressions are not nested too deep. -/
theorem Subtree.ofJson?_written {t : Subtree} (h : ∀ s ∈ t.statements, s.expression.nesting ≤ depthLimit) :
    ofJson? t.toJson = some t := by
  have hstatements := list?_map fun s hs => Statement.ofJson?_written (h s hs)
  simp [toJson, ofJson?, record?_obj, t.id.ofJson?_written, hstatements]

namespace Batch

variable {b : Batch}

/-- What is written as three sets is read as three lists of edits. -/
theorem ofJson?_written (h : ∀ t ∈ b.all, Subtree.ofJson? t.toJson = some t) :
    ofJson? b.toJson = some (ofEdits ⟨b.added, b.modified, b.deleted⟩) := by
  have hsets : ∀ {ts : List Subtree}, (∀ t ∈ ts, t ∈ b.all) →
      list? Subtree.ofJson? (.arr (ts.map Subtree.toJson)) = some ts := fun hts =>
    list?_map fun t ht => h t (hts t ht)
  have hadded := hsets fun t (ht : t ∈ b.added) => List.mem_append_right _ ht
  have hmodified := hsets fun t (ht : t ∈ b.modified) =>
    List.mem_append_left _ (List.mem_append_right _ ht)
  have hdeleted := hsets fun t (ht : t ∈ b.deleted) =>
    List.mem_append_left _ (List.mem_append_left _ ht)
  simp [toJson, ofJson?, record?_obj, hadded, hmodified, hdeleted]

/-- How a batch is put together from any calls and from any edits, and what it is read as. In each set the
identities stand in the order in which the edits of the set first name them, each with the content that they
give it last. A deletion wins over the rest, and a modification over an addition, so that no identity is
touched twice, and the size of the batch is the number of identities. A batch of that kind stays as it is when
it is put together once more, also after it was written and read, if all its subtrees are read as they were
written; those whose expressions are not nested too deep are. -/
theorem canonicity :
    (∀ calls : List EditCall, Edits.ofCalls calls = ⟨calls.filterMap EditCall.added?,
      calls.filterMap EditCall.modified?, calls.filterMap EditCall.deleted?⟩) ∧
    (∀ e : Edits,
      Subtree.Condenses (fun _ => True) e.deleted (ofEdits e).deleted ∧
      Subtree.Condenses (fun id => id ∉ e.deleted.map Subtree.id) e.modified (ofEdits e).modified ∧
      Subtree.Condenses (fun id => id ∉ e.modified.map Subtree.id ∧ id ∉ e.deleted.map Subtree.id) e.added
        (ofEdits e).added ∧
      (ofEdits e).Canonical ∧
      (ofEdits e).size = ((e.added ++ e.modified ++ e.deleted).map Subtree.id).toFinset.card) ∧
    (∀ b : Batch, b.Canonical → ofEdits ⟨b.added, b.modified, b.deleted⟩ = b) ∧
    (∀ b : Batch, b.Canonical → (∀ t ∈ b.all, Subtree.ofJson? t.toJson = some t) →
      ofJson? b.toJson = some b) ∧
    ∀ t : Subtree, (∀ s ∈ t.statements, s.expression.nesting ≤ depthLimit) →
      Subtree.ofJson? t.toJson = some t :=
  ⟨Edits.ofCalls_eq, fun e => ⟨condenses_deleted e, condenses_modified e, condenses_added e,
    canonical_ofEdits e, size_ofEdits e⟩, fun _ => ofEdits_canonical,
    fun _ hb hread => (ofJson?_written hread).trans (congrArg some (ofEdits_canonical hb)),
    fun _ => Subtree.ofJson?_written⟩

/-- A subtree that is added twice, one that is modified twice and added, and one that is modified and
deleted twice. -/
theorem canonicity_repeated :
    let e := Edits.ofCalls [.add ⟨.ofNat 5, []⟩, .delete (.ofNat 2), .modify ⟨.ofNat 7, []⟩,
      .add ⟨.ofNat 9, []⟩, .add ⟨.ofNat 5, [.assign "a" (.int 1)]⟩, .modify ⟨.ofNat 2, []⟩,
      .add ⟨.ofNat 7, []⟩, .modify ⟨.ofNat 7, [.assign "b" (.unary .neg (.double 2))]⟩,
      .delete (.ofNat 2)]
    let b : Batch := ⟨[⟨.ofNat 5, [.assign "a" (.int 1)]⟩, ⟨.ofNat 9, []⟩],
      [⟨.ofNat 7, [.assign "b" (.unary .neg (.double 2))]⟩], [.empty (.ofNat 2)]⟩
    ofEdits e = b ∧ b.size = 4 ∧ ofJson? b.toJson = some b := by
  intro e b
  have hb : ofEdits e = b := rfl
  obtain ⟨-, hedits, -, hread, hsubtrees⟩ := canonicity
  obtain ⟨-, -, -, hcanonical, hsize⟩ := hedits e
  rw [hb] at hcanonical hsize
  refine ⟨hb, hsize.trans (by decide), hread b hcanonical fun t ht => hsubtrees t ?_⟩
  simp only [b, all, List.cons_append, List.nil_append, List.mem_cons, List.not_mem_nil, or_false] at ht
  rcases ht with rfl | rfl | rfl | rfl <;> decide

end Batch

end Reflow
