import Reflow.Proofs.Code.Noting
import Reflow.Proofs.Memory.Collection
import Reflow.Proofs.Program.Running
/-!
# What a run does to memory

However far a run gets, memory after it differs from memory before it only by stores into slots of the
program, each of which is noted, and by new objects on the heap. A slot that is not noted holds the
value that it held, and what that value points to is still there.

## Main results

* `Sound.execute_updates`: a run of a sound program, whether it succeeds or faults, leaves such a
  memory.
-/

namespace Reflow

namespace CompileState.Sound

variable {s : CompileState}

/-- Running one statement. -/
theorem runRange_updates (h : s.Sound) {n : GraphNode} (hn : n ∈ s.graph.nodes) (limit depth : Nat)
    (m : Machine) :
    match (runRange s.executable limit depth ⟨0, n.start, n.stop, []⟩).run m with
    | .ok _ m' => m.memory.Updates s.globalCount m'.memory
    | .error _ m' => m.memory.Updates s.globalCount m'.memory := by
  obtain ⟨slot, σ, e, hassigns⟩ := h.statements n hn
  have hquiet := (h.evaluate_spec hassigns limit depth).1
  rw [runRange_eq, runFrame_assigns hassigns, EStateM.run_bind]
  cases hv : (evaluate s.executable (enterWithin s.executable limit depth) σ [] e).run m with
  | error fault m' => exact (hquiet.of_error hv).updates _
  | ok v m' =>
    have hevaluated := (hquiet.of_ok hv).updates s.globalCount
    have hstored := updates_storeValue hassigns.allocated v m'
    dsimp only
    rw [EStateM.run_bind]
    cases hs : (storeValue slot v).run m' with
    | ok _ m'' =>
      rw [hs] at hstored
      exact hevaluated.trans hstored
    | error fault m'' =>
      rw [hs] at hstored
      exact hstored ▸ hevaluated

theorem propagate_updates (h : s.Sound) {ctx : RunContext} (hblock : ctx.block = 0) (fuel : Nat)
    (p : Propagation) :
    p.memory.Updates s.globalCount (propagate s.executable ctx s.graph fuel p).2 := by
  induction fuel generalizing p with
  | zero =>
    unfold propagate
    split <;> rfl
  | succ fuel ih =>
    unfold propagate
    split
    · rfl
    · rename_i id rest hdue
      split
      · rfl
      · split
        · rfl
        · rename_i n hn
          have hrun := h.runRange_updates (h.graph.node?_eq_some.1 hn).1 ctx.maxDepth ctx.maxDepth
            { memory := p.memory }
          rw [hblock]
          split
          · rename_i v m hr
            rw [hr] at hrun
            exact hrun.trans (ih (p.advance s.graph ctx id rest m))
          · rename_i fault m hr
            rw [hr] at hrun
            exact hrun

/-- A run of a sound program only stores into the slots of the program, and it notes each store. -/
theorem execute_updates (h : s.Sound) {ctx : RunContext} (hblock : ctx.block = 0)
    (memory : Memory) :
    memory.Updates s.globalCount (execute s.executable memory ctx).2 := by
  unfold execute
  simp only [hblock, executable_stream?_zero]
  exact h.propagate_updates hblock _ { memory, worklist := initialWorklist s.root.stream ctx }

end CompileState.Sound

end Reflow
