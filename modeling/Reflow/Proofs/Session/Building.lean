import Reflow.Proofs.Graph.Records
import Reflow.Session.Basic
/-!
# What a batch of edits builds

## Main definitions

* `GraphMapping.gone`, `GraphMapping.dropped`, `GraphMapping.orphans`: the subtrees that a batch
  retires, the variables that these assigned, and those of them that nothing binds any more.
* `GraphMapping.kept`, `GraphMapping.relisted`: the records that a batch leaves, and those after it.
* `GraphMapping.fragmentOf`: the fragment of a batch.

## Main results

* `GraphMapping.build_eq`: a batch is built from these.
* `GraphMapping.sorted_kept`, `GraphMapping.sorted_enlist`: the records stay in order.
-/

namespace Reflow.GraphMapping

variable (m : GraphMapping) (b : Batch)

/-- The subtrees whose earlier code a batch retires. -/
def gone : List Subtree :=
  b.deleted ++ b.modified ++ b.added.filter fun s => (m.record? s.id).isSome

/-- The variables that the retired subtrees assigned. -/
def dropped : List String :=
  sortedNames (((m.gone b).filterMap fun s => m.record? s.id).flatMap fun r =>
    r.assigned.filterMap id)

/-- The records of the subtrees that a batch does not touch. -/
def kept : List SubtreeRecord :=
  (m.gone b).foldl (fun rs s => Keyed.erase SubtreeRecord.key s.id.toNat rs) m.committed

/-- The records after a batch, and the number of the next node. -/
def relisted : List SubtreeRecord × Nat := enlist (m.kept b) m.nextUid (b.modified ++ b.added)

/-- The variables of which a batch leaves nothing of the name. -/
def orphans : List String :=
  (m.dropped b).filter fun name => !(m.relisted b).1.any (name ∈ ·.bound)

/-- The fragment of a batch. -/
def fragmentOf : Fragment where
  units := (m.orphans b).map (fun name => ⟨none, name ++ " = null;"⟩)
    ++ ((b.modified ++ b.added).filter fun s => !s.statements.isEmpty).map fun s => ⟨some s.id, s.code⟩
  retired := ((m.gone b).foldl (fun f s => f.retire s.id) ({} : Fragment)).retired

theorem build_eq : m.build b = (m.fragmentOf b,
    { m with pending := some (m.relisted b).1, nextUid := (m.relisted b).2 }) := rfl

theorem mem_foldl_erase {gone : List Subtree} {records : List SubtreeRecord} {r : SubtreeRecord} :
    r ∈ gone.foldl (fun rs s => Keyed.erase SubtreeRecord.key s.id.toNat rs) records ↔
      r ∈ records ∧ ∀ s ∈ gone, r.subtree ≠ s.id := by
  induction gone generalizing records with
  | nil => simp
  | cons s rest ih =>
    have hkey : (r.key != s.id.toNat) = true ↔ r.subtree ≠ s.id := by
      rw [bne_iff_ne]
      exact not_congr ⟨SubtreeId.toNat_injective, congrArg SubtreeId.toNat⟩
    rw [List.foldl_cons, ih, Keyed.erase, List.mem_filter, hkey, List.forall_mem_cons, and_assoc]

/-- The records of subtrees that are not retired are kept. -/
theorem mem_kept {m : GraphMapping} {b : Batch} {r : SubtreeRecord} :
    r ∈ m.kept b ↔ r ∈ m.committed ∧ ∀ s ∈ m.gone b, r.subtree ≠ s.id := mem_foldl_erase

/-! ### Records in order -/

section Sorted

variable {m : GraphMapping} {b : Batch} {records : List SubtreeRecord} {r : SubtreeRecord}

theorem key_eq_iff {id : SubtreeId} : r.key = id.toNat ↔ r.subtree = id :=
  ⟨SubtreeId.toNat_injective, congrArg SubtreeId.toNat⟩

/-- The record of a subtree is found by its identity. -/
theorem record?_eq_some (h : Keyed.Sorted SubtreeRecord.key m.committed) {id : SubtreeId} :
    m.record? id = some r ↔ r ∈ m.committed ∧ r.subtree = id := by
  rw [record?, Keyed.get?_eq_some h, key_eq_iff]

theorem sorted_kept (h : Keyed.Sorted SubtreeRecord.key m.committed) :
    Keyed.Sorted SubtreeRecord.key (m.kept b) :=
  List.foldlRecOn (m.gone b) _ h fun _ hrecords _ _ => hrecords.sublist List.filter_sublist

/-- Enlisting subtrees replaces the records of their identities. -/
theorem sorted_enlist (h : Keyed.Sorted SubtreeRecord.key records) (next : Nat)
    (subtrees : List Subtree) :
    Keyed.Sorted SubtreeRecord.key (enlist records next subtrees).1 := by
  induction subtrees generalizing records next with
  | nil => exact h
  | cons s rest ih => exact ih (Keyed.sorted_put _ _ h) _

end Sorted

end Reflow.GraphMapping
