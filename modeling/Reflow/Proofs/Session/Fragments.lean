import Reflow.Proofs.Session.Versions
/-!
# The fragment of a batch

What a batch retires, and which variables it leaves behind without anything of their name, in terms of
the live subtrees before and after the batch.

## Main definitions

* `Subtree.Parsed`: the subtree of some program text.
* `Request.Parsed`: requests as hosts make them of program texts.

## Main results

* `GraphMapping.mem_units`, `GraphMapping.mem_retired`: the parts of a fragment.
* `GraphMapping.Lists.mem_orphans`: the variables that are set to null.
-/

namespace Reflow

/-- The subtree is the one of some program text. -/
def Subtree.Parsed (t : Subtree) : Prop := ∃ code, Subtree.parse t.id code = .ok t

theorem Subtree.Parsed.program {t : Subtree} (h : t.Parsed) :
    ∃ code, parseProgram code = .ok t.statements := by
  obtain ⟨code, hcode⟩ := h
  refine ⟨code, ?_⟩
  unfold Subtree.parse at hcode
  split at hcode
  · rename_i program hprogram
    rw [hprogram, ← Except.ok.inj hcode]
  · cases hcode

/-- The batch of the request, if it has one, is built from edits, and the subtrees that it brings are
those of program texts. -/
def Request.Parsed : Request → Prop
  | .updateGraph b => (∃ edits, b = Batch.ofEdits edits) ∧ ∀ t ∈ b.modified ++ b.added, t.Parsed
  | _ => True

namespace GraphMapping

variable {m : GraphMapping} {b : Batch} {live : List Subtree} {name : String}

theorem mem_insertName {n : String} {names : List String} :
    n ∈ insertName name names ↔ n = name ∨ n ∈ names := by
  induction names with
  | nil => simp [insertName]
  | cons first rest ih =>
    unfold insertName
    split
    · simp
    · split
      · rename_i heq
        simp [heq]
      · rw [List.mem_cons, ih, List.mem_cons]
        exact or_left_comm

theorem mem_sortedNames {names : List String} : name ∈ sortedNames names ↔ name ∈ names := by
  suffices h : ∀ done : List String,
      name ∈ names.foldl (fun done n => insertName n done) done ↔ name ∈ done ∨ name ∈ names by
    simpa [sortedNames] using h []
  induction names with
  | nil => simp
  | cons n rest ih =>
    intro done
    rw [List.foldl_cons, ih, mem_insertName, List.mem_cons, or_assoc, or_left_comm]

/-- The variables that subtrees lose which the batch touches. -/
theorem Lists.mem_dropped (h : m.Lists live) : name ∈ m.dropped b ↔
    ∃ t ∈ live, b.contains t.id = true ∧ some name ∈ t.statements.map Statement.assigned? := by
  simp only [dropped, mem_sortedNames, List.mem_flatMap, List.mem_filterMap, id_eq,
    exists_eq_right]
  constructor
  · rintro ⟨r, ⟨s, hs, hr⟩, hname⟩
    obtain ⟨hmem, hid⟩ := h.record?_eq_some.1 hr
    obtain ⟨t, ht, first, rfl⟩ := h.sound r hmem
    exact ⟨t, ht, (h.mem_gone ⟨t, ht, rfl⟩).1 ⟨s, hs, hid.symm⟩, hname⟩
  · rintro ⟨t, ht, hcontains, hname⟩
    obtain ⟨s, hs, hid⟩ := (h.mem_gone ⟨t, ht, rfl⟩).2 hcontains
    obtain ⟨first, hmem⟩ := h.complete t ht
    exact ⟨_, ⟨s, hs, h.record?_eq_some.2 ⟨hmem, hid.symm⟩⟩, hname⟩

/-- The variables that are set to null: a subtree has lost them, and no live subtree binds them. -/
theorem Lists.mem_orphans (h : m.Lists live) (hb : b.Canonical) : name ∈ m.orphans b ↔
    (∃ t ∈ live, b.contains t.id = true ∧ some name ∈ t.statements.map Statement.assigned?) ∧
      ∀ t ∈ b.applied live, name ∉ t.boundNames := by
  rw [orphans, List.mem_filter, h.mem_dropped]
  refine and_congr_right fun _ => ?_
  obtain ⟨hsound, hcomplete⟩ := h.relisted hb
  simp only [Bool.not_eq_true', List.any_eq_false, decide_eq_true_eq]
  constructor
  · intro hnone t ht hname
    obtain ⟨first, hmem⟩ := hcomplete t ht
    exact hnone _ hmem hname
  · intro hnone r hr hname
    obtain ⟨t, ht, first, rfl⟩ := hsound r hr
    exact hnone t ht hname

/-- The units of a fragment: one for each variable that is set to null, and one for each subtree that
the batch brings and that has statements. -/
theorem mem_units {u : FragmentUnit} : u ∈ (m.fragmentOf b).units ↔
    (∃ name ∈ m.orphans b, u = ⟨none, name ++ " = null;"⟩) ∨
      ∃ t ∈ b.modified ++ b.added, t.statements ≠ [] ∧ u = ⟨some t.id, t.code⟩ := by
  simp only [fragmentOf, List.mem_append, List.mem_map, List.mem_filter, Bool.not_eq_true',
    List.isEmpty_eq_false_iff, and_assoc, ne_eq, eq_comm (a := u)]

theorem orphan_mem_units (h : name ∈ m.orphans b) :
    ⟨none, name ++ " = null;"⟩ ∈ (m.fragmentOf b).units :=
  mem_units.2 (.inl ⟨name, h, rfl⟩)

theorem subtree_mem_units {t : Subtree} (ht : t ∈ b.modified ++ b.added) (hne : t.statements ≠ []) :
    ⟨some t.id, t.code⟩ ∈ (m.fragmentOf b).units :=
  mem_units.2 (.inr ⟨t, ht, hne, rfl⟩)

/-- The subtrees that a fragment retires. -/
theorem mem_retired {id : SubtreeId} :
    id ∈ (m.fragmentOf b).retired ↔ ∃ s ∈ m.gone b, s.id = id := by
  suffices h : ∀ (gone : List Subtree) (f : Fragment),
      id ∈ (gone.foldl (fun f s => f.retire s.id) f).retired ↔
        id ∈ f.retired ∨ ∃ s ∈ gone, s.id = id by
    simpa [fragmentOf] using h (m.gone b) {}
  intro gone
  induction gone with
  | nil => simp
  | cons s rest ih =>
    intro f
    have hretire : id ∈ (f.retire s.id).retired ↔ id ∈ f.retired ∨ s.id = id := by
      unfold Fragment.retire
      split
      · rename_i hs
        refine ⟨.inl, ?_⟩
        rintro (h | rfl)
        · exact h
        · exact hs
      · simp [eq_comm]
    rw [List.foldl_cons, ih, hretire, or_assoc]
    simp

/-- A live subtree is retired exactly if the batch touches it. -/
theorem Lists.mem_retired (h : m.Lists live) {t : Subtree} (ht : t ∈ live) :
    t.id ∈ (m.fragmentOf b).retired ↔ b.contains t.id = true :=
  GraphMapping.mem_retired.trans (h.mem_gone ⟨t, ht, rfl⟩)

end GraphMapping

end Reflow
