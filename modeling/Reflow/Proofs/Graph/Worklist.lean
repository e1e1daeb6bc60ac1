import Mathlib.Data.List.TakeWhile
import Reflow.Machine.Propagation
import Reflow.Proofs.Graph.Answers
/-!
# The worklist of a run

The statements that have to run are kept in program order, each once. The first active one of them is due,
and when it has run, the other statements join that read what it has changed.

## Main results

* `Propagation.mem_due`, `Propagation.isActive_of_due`: what is due.
* `Propagation.mem_worklist_advance`: what waits after a statement has run.
-/

namespace Reflow

namespace Propagation

variable {g : DependencyGraph} {ctx : RunContext} {p : Propagation} {k n : Nat} {rest : List Nat}
  {m : Machine}

/-- An active statement that waits is due. -/
theorem mem_due (hon : g.isActive n = true) (hn : n ∈ p.worklist) : n ∈ p.due g := by
  rw [← List.takeWhile_append_dropWhile (p := fun id => !g.isActive id) (l := p.worklist),
    List.mem_append] at hn
  refine hn.resolve_left fun htake => ?_
  have hoff := List.mem_takeWhile_imp htake
  rw [hon] at hoff
  cases hoff

/-- The first statement that is due is active. -/
theorem isActive_of_due (hdue : p.due g = k :: rest) : g.isActive k = true := by
  have hhead := List.head?_dropWhile_not (fun id => !g.isActive id) p.worklist
  rw [due] at hdue
  rw [hdue] at hhead
  simpa using hhead

theorem suffix_of_due (hdue : p.due g = k :: rest) : k :: rest <:+ p.worklist :=
  hdue ▸ List.dropWhile_suffix _

/-- When a statement has run, the others wait that waited, and those that read what it has changed. -/
theorem mem_worklist_advance : n ∈ (p.advance g ctx k rest m).worklist ↔
    n ∈ rest ∨ n ≠ k ∧ ∃ slot ∈ m.changed, n ∈ g.readersOf (.symbol ⟨ctx.block, slot⟩) := by
  change n ∈ m.changed.foldl _ rest ↔ _
  generalize m.changed = changed
  induction changed generalizing rest with
  | nil => simp
  | cons slot changed ih =>
    rw [List.foldl_cons, ih, Ascending.mem_union, List.mem_filter, List.exists_mem_cons_iff,
      decide_eq_true_eq]
    tauto

theorem sorted_worklist_advance (h : Keyed.Sorted id rest) (m : Machine) :
    Keyed.Sorted id (p.advance g ctx k rest m).worklist :=
  List.foldlRecOn m.changed _ (motive := Keyed.Sorted id) h fun _ hs _ _ =>
    Ascending.sorted_union hs _

end Propagation

end Reflow
