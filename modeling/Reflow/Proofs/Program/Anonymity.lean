import Reflow.Machine.Propagation
import Reflow.Proofs.Program.Relabelling
/-!
# Runs do not look at identities

What a program computes, and what it shows of its memory, does not depend on which of its statements and
procedures belong to whom.

## Main results

* `Memory.snapshot_relabel`, `Memory.globalsOf_relabel`: what a program shows.
* `runRange_relabel`: running code.
* `execute_relabel`: a whole run.
-/

namespace Reflow

variable (p : SubtreeId → SubtreeId)

namespace Executable

variable (x : Executable)

@[simp] theorem stream?_relabel (block : Nat) :
    (x.relabel p).stream? block = (x.stream? block).map (·.relabel p) := List.getElem?_map

@[simp] theorem procedureOf?_relabel (block index : Nat) :
    (x.relabel p).procedureOf? block index = (x.procedureOf? block index).map (·.relabel p) := by
  simp only [procedureOf?, relabel, List.getElem?_map]
  cases x.procedures[block]? with
  | none => rfl
  | some t => exact t.at?_relabel p index

@[simp] theorem graph?_relabel : (x.relabel p).graph? = x.graph?.map (·.relabel p) := by
  simp only [graph?, stream?_relabel, Option.map_map]
  rfl

@[simp] theorem pointers_relabel : (x.relabel p).pointers = x.pointers := rfl

@[simp] theorem functionName_relabel : (x.relabel p).functionName = x.functionName := by
  funext pointer
  simp only [functionName, pointers_relabel, procedureOf?_relabel]
  cases x.pointers.target? pointer with
  | none => rfl
  | some target =>
    simp only [Option.bind_some]
    cases x.procedureOf? target.1 target.2 <;> rfl

end Executable

/-! ### Values -/

namespace Memory

variable (m : Memory) (x : Executable)

theorem snapshotWithin_relabel (depth : Nat) (v : Value) :
    m.snapshotWithin (x.relabel p) depth v = m.snapshotWithin x depth v := by
  induction depth generalizing v with
  | zero => cases v <;> simp only [snapshotWithin, Executable.functionName_relabel]
  | succ depth ih =>
    cases v <;> simp only [snapshotWithin, Executable.functionName_relabel, funext ih]

@[simp] theorem snapshot_relabel : m.snapshot (x.relabel p) = m.snapshot x :=
  funext fun v => m.snapshotWithin_relabel p x _ v

@[simp] theorem snapshotAt?_relabel : m.snapshotAt? (x.relabel p) = m.snapshotAt? x := by
  funext slot
  simp only [snapshotAt?, snapshot_relabel]

@[simp] theorem snapshotOf?_relabel : m.snapshotOf? (x.relabel p) = m.snapshotOf? x := by
  funext name
  simp only [snapshotOf?, snapshotAt?_relabel]
  rfl

/-- A program shows the same globals, whatever the identities. -/
theorem globalsOf_relabel : m.globalsOf (x.relabel p) = m.globalsOf x := by
  simp only [globalsOf, snapshotAt?_relabel]
  rfl

theorem dump_relabel : m.dump (x.relabel p) = m.dump x := by
  simp only [dump, globalsOf_relabel]

end Memory

/-! ### Code -/

section Code

variable (x : Executable)

theorem applyBinary_relabel (m : Memory) (op : BinaryOp) (lhs rhs : Value) :
    applyBinary m (x.relabel p) op lhs rhs = applyBinary m x op lhs rhs := by
  have htext : joinText m (x.relabel p) = joinText m x := by
    funext v
    cases v <;> simp only [joinText, Memory.snapshot_relabel]
  simp only [applyBinary, htext]

theorem callProcedure_relabel : callProcedure (x.relabel p) = callProcedure x := by
  funext enter block index args
  simp only [callProcedure, Executable.procedureOf?_relabel]
  cases x.procedureOf? block index <;> rfl

theorem callValue_relabel : callValue (x.relabel p) = callValue x := by
  funext enter callee args
  simp only [callValue, callProcedure_relabel, Executable.pointers_relabel]

theorem step_relabel : step (x.relabel p) = step x := by
  funext enter r i pc stack
  simp only [step, applyBinary_relabel, callProcedure_relabel, callValue_relabel]

theorem runFrame_relabel : runFrame (x.relabel p) = runFrame x := by
  have hrun (enter : Range → Run Value) (r : Range) (code : Stream) (fuel : Nat) :
      runFrom (x.relabel p) enter r (code.relabel p) fuel = runFrom x enter r code fuel := by
    induction fuel with
    | zero => rfl
    | succ fuel ih =>
      funext pc stack
      simp only [runFrom, step_relabel, ih]
      rfl
  funext enter r
  simp only [runFrame, Executable.stream?_relabel]
  cases x.stream? r.block with
  | none => rfl
  | some code => exact congrFun (congrFun (hrun enter r code _) _) _

/-- Code runs the same, whatever the identities. -/
theorem runRange_relabel (limit depth : Nat) :
    runRange (x.relabel p) limit depth = runRange x limit depth := by
  induction depth with
  | zero =>
    funext r
    rw [runRange, runFrame_relabel, runRange]
  | succ depth ih =>
    funext r
    rw [runRange, runFrame_relabel, ih, runRange]

end Code

/-! ### Runs -/

theorem initialWorklist_relabel (s : Stream) (ctx : RunContext) :
    initialWorklist (s.relabel p) ctx = initialWorklist s ctx := by
  simp only [initialWorklist, Stream.relabel, DependencyGraph.activeNodes_relabel,
    DependencyGraph.writersOf_relabel, DependencyGraph.readersOf_relabel,
    DependencyGraph.isActive_relabel, List.filter_map, List.map_map]
  rfl

theorem propagate_relabel (x : Executable) (ctx : RunContext) (g : DependencyGraph) (fuel : Nat)
    (q : Propagation) :
    propagate (x.relabel p) ctx (g.relabel p) fuel q = propagate x ctx g fuel q := by
  have hdue (q : Propagation) : q.due (g.relabel p) = q.due g := by
    simp only [Propagation.due, DependencyGraph.isActive_relabel]
  have hadvance (q : Propagation) (id : Nat) (rest : List Nat) (m : Machine) :
      q.advance (g.relabel p) ctx id rest m = q.advance g ctx id rest m := by
    simp only [Propagation.advance, DependencyGraph.readersOf_relabel]
  induction fuel generalizing q with
  | zero => simp only [propagate, hdue]
  | succ fuel ih =>
    simp only [propagate, hdue, hadvance, ih, runRange_relabel, DependencyGraph.node?_relabel]
    split
    · rfl
    · split
      · rfl
      · rename_i id rest _ _
        cases g.node? id <;> rfl

/-- A run does the same, whatever the identities. -/
theorem execute_relabel (x : Executable) (memory : Memory) (ctx : RunContext) :
    execute (x.relabel p) memory ctx = execute x memory ctx := by
  simp only [execute, Executable.stream?_relabel]
  cases x.stream? ctx.block with
  | none => rfl
  | some s =>
    have hcount : (s.relabel p).graph.nodes.length = s.graph.nodes.length := List.length_map _
    simp only [Option.map_some, hcount, initialWorklist_relabel]
    exact propagate_relabel p x ctx s.graph _ _

end Reflow
