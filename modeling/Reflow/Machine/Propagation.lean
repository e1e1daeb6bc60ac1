import Reflow.Machine.Run
/-!
# Propagating changes

A run starts with the statements of the latest compilation, those queued by it and those the host
asks for. Whenever a statement changes a global, the statements that read it join, itself excepted.
Statements are taken in program order, and none may run more often than the limit.

## Main definitions

* `RunContext`: the settings of a run.
* `initialWorklist`: the statements that a run starts with.
* `execute`: a run.
-/

namespace Reflow

/-- The settings of a run. -/
structure RunContext where
  /-- The block whose code is run. -/
  block : Nat := 0
  /-- Statements to run although nothing they read has changed. -/
  forced : List Nat := []
  /-- How often one statement may run. -/
  maxPasses : Nat := 64
  /-- How deeply calls may be nested. -/
  maxDepth : Nat := 256
  deriving DecidableEq

/-- A problem that a statement met at run time. -/
structure RuntimeWarning where
  node : Nat
  message : String
  deriving DecidableEq

/-- The text of a warning: the statement and the problem. -/
def RuntimeWarning.text (w : RuntimeWarning) : String := exprText w.node ++ ": " ++ w.message

/-- What a run has done. -/
structure Execution where
  /-- The statements in the order in which they ran, each as often as it did. -/
  executed : List Nat
  warnings : List RuntimeWarning

/-- The statements that a run starts with, in program order. -/
def initialWorklist (s : Stream) (ctx : RunContext) : List Nat :=
  let entry := s.entry.getD s.size
  let pending := (s.graph.activeNodes.filter (entry ≤ ·.start)).map (·.id)
  let queued := s.updates.flatMap fun
    | .symbol key => s.graph.writersOf key
    | .procedure index => s.graph.readersOf (.procedure index)
  Ascending.ofList (pending ++ queued ++ ctx.forced.filter s.graph.isActive)

/-- A run under way. -/
structure Propagation where
  memory : Memory
  /-- The statements that have to run, in program order. -/
  worklist : List Nat
  /-- The statements that ran, the latest first. -/
  executed : List Nat := []
  warnings : List RuntimeWarning := []

namespace Propagation

/-- The worklist from its first active statement on. -/
def due (g : DependencyGraph) (p : Propagation) : List Nat :=
  p.worklist.dropWhile fun id => !g.isActive id

/-- The run after a statement has run and left the machine `m`; `rest` has to run besides what reads
the globals that the statement changed. -/
def advance (g : DependencyGraph) (ctx : RunContext) (p : Propagation) (id : Nat)
    (rest : List Nat) (m : Machine) : Propagation where
  memory := m.memory
  worklist := m.changed.foldl (fun list slot =>
    Ascending.union list ((g.readersOf (.symbol ⟨ctx.block, slot⟩)).filter (· ≠ id))) rest
  executed := id :: p.executed
  warnings := p.warnings ++ m.warnings.map (⟨id, ·⟩)

/-- What a finished run has done. -/
def result (p : Propagation) : Execution := ⟨p.executed.reverse, p.warnings⟩

end Propagation

/-- The rest of a run, of which `fuel` bounds the number of evaluations. When the evaluations that
the limit allows to all statements together are used up, every statement has reached the limit, so
the next one exceeds it. -/
def propagate (x : Executable) (ctx : RunContext) (g : DependencyGraph) :
    Nat → Propagation → Except Fault Execution × Memory
  | 0, p =>
    match p.due g with
    | [] => (.ok p.result, p.memory)
    | id :: _ => (.error (.updateCycle id ctx.maxPasses), p.memory)
  | fuel + 1, p =>
    match p.due g with
    | [] => (.ok p.result, p.memory)
    | id :: rest =>
      if ctx.maxPasses ≤ p.executed.count id then
        (.error (.updateCycle id ctx.maxPasses), p.memory)
      else match g.node? id with
        | none => (.ok p.result, p.memory)
        | some n =>
          match (runRange x ctx.maxDepth ctx.maxDepth ⟨ctx.block, n.start, n.stop, []⟩).run
              { memory := p.memory } with
          | .ok _ m => propagate x ctx g fuel (p.advance g ctx id rest m)
          | .error fault m => (.error fault, m.memory)

/-- Runs the pending part of an executable; also returns the memory after the run. -/
def execute (x : Executable) (memory : Memory) (ctx : RunContext) :
    Except Fault Execution × Memory :=
  match x.stream? ctx.block with
  | none => (.error (.missingBlock ctx.block), memory)
  | some s =>
    propagate x ctx s.graph (s.graph.nodes.length * ctx.maxPasses)
      { memory, worklist := initialWorklist s ctx }

end Reflow
