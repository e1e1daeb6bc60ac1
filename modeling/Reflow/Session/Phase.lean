/-!
# Phases of a session

A batch is compiled and then run, and either step may fail; whichever way it ends, the session is
idle again afterwards.

## Main definitions

* `Phase`: where a session is in the course of a batch.
* `Phase.successors`: the phases that may follow one.
-/

namespace Reflow

/-- Where a session is in the course of a batch. -/
inductive Phase
  | idle | compiling | compileFailed | compileSucceeded
  | executing | executeFailed | executeSucceeded
  deriving Repr, DecidableEq

namespace Phase

/-- All phases. -/
def all : List Phase :=
  [idle, compiling, compileFailed, compileSucceeded, executing, executeFailed, executeSucceeded]

/-- The name of a phase. -/
def name : Phase → String
  | idle => "Idle"
  | compiling => "Compiling"
  | compileFailed => "CompileFailed"
  | compileSucceeded => "CompileSucceeded"
  | executing => "Executing"
  | executeFailed => "ExecuteFailed"
  | executeSucceeded => "ExecuteSucceeded"

/-- The phase of a name. -/
def ofName? (name : String) : Option Phase := all.find? (·.name == name)

/-- The phases that may follow one. -/
def successors : Phase → List Phase
  | idle => [compiling]
  | compiling => [compileFailed, compileSucceeded]
  | compileSucceeded => [executing]
  | executing => [executeFailed, executeSucceeded]
  | compileFailed | executeFailed | executeSucceeded => [idle]

end Phase

end Reflow
