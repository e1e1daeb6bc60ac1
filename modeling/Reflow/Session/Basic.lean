import Reflow.Compile.Fragment
import Reflow.Session.Event
import Reflow.Session.Options
/-!
# Sessions

A session keeps a program running while the host edits it. Each batch is compiled on top of what was
compiled before and then run, so that only the statements that a change reaches are evaluated.

A rejected batch changes neither program nor memory. A batch whose run faults is taken back as far
as the program goes; the stores that it made stay, except in slots that the program before it did
not have.

## Main definitions

* `Session`: the state that lasts from batch to batch.
* `Session.runBatch`: compiles and runs one batch.
* `Session.updateGraph`, `Session.updateCode`, `Session.rerunSubtree`, `Session.rerunAll`: the calls
  that run a batch.
* `Session.query`, `Session.globals`, `Session.dump`: what the host can look at.
-/

namespace Reflow

/-- The state of a session. -/
structure Session where
  /-- What has been compiled so far. -/
  compiled : CompileState := {}
  /-- The program that was run last. -/
  executable : Executable := .empty
  memory : Memory := {}
  mapping : GraphMapping := {}
  /-- The number of global slots as of the last batch. -/
  baseline : Nat := 0
  options : Options := {}
  /-- The options have not taken effect yet. -/
  optionsPending : Bool := true
  configuration : Configuration := {}
  phase : Phase := .idle

/-- A call of a session. A call that fails keeps the state that it has reached. -/
abbrev SessionCall (α : Type) := EStateM SessionError Session α

namespace Session

/-- The answer of a call, and the session after it. -/
def answer {α : Type} (s : Session) (call : SessionCall α) : Except SessionError α × Session :=
  match call.run s with
  | .ok a s => (.ok a, s)
  | .error e s => (.error e, s)

/-- Goes on to the next phase of a batch. -/
def enter (next : Phase) : SessionCall Unit := do
  let s ← get
  if next ∈ s.phase.successors then set { s with phase := next }
  else throw (.illegalTransition s.phase next)

/-- The session without the pending changes of the mapping. -/
def abandon (s : Session) : Session := { s with mapping := s.mapping.abandon }

/-- The session with its options in effect. -/
def synchronized (s : Session) : Session :=
  if s.optionsPending then
    { s with configuration := .ofOptions s.options, optionsPending := false }
  else s

/-- The session without what the last batch has noted. -/
def reset (s : Session) : Session :=
  { s with memory := s.memory.resetModified, compiled := s.compiled.resetForNewDelta }

/-- The session ready to compile; `full` asks for a run of every active statement. -/
def prepared (s : Session) (full : Bool) : Session :=
  let s := s.reset
  (if full then { s with compiled := s.compiled.resetForFullExecution } else s).synchronized

/-- The session with slots for a program that needs `needed` of them. -/
def withRoom (s : Session) (needed : Nat) : Session :=
  let memory := if s.baseline ≤ needed then s.memory.grow (needed - s.baseline) else s.memory
  { s with memory, baseline := memory.globalCount }

/-- The report of a batch that succeeded. -/
def report (s : Session) (warnings : List String) (executed : Nat) : Report :=
  let names := s.memory.modified.filterMap fun slot =>
    (s.executable.globalSymbolAt? slot).map (·.name)
  { modifiedSymbols := names
    modifiedNodes := names.map fun name =>
      match s.mapping.nodeForVariable? name with
      | some (subtree, uid) => ⟨name, some subtree, some uid⟩
      | none => { name := name }
    warnings, executed
    globalCount := s.memory.globalCount }

/-- Answers a batch that changes nothing. -/
def skip : SessionCall Report := do
  modify reset
  return { globalCount := (← get).memory.globalCount }

/-- Ends a batch that is not run. -/
def reject (e : SessionError) : SessionCall Report := do
  enter .compileFailed
  modify abandon
  enter .idle
  throw e

/-- Installs a compiled program and runs it. -/
def runImage (image : CompiledImage) (forced : List Nat) (warnings : List String) :
    SessionCall Report := do
  let prior ← get
  set { prior with compiled := image.state, executable := image.executable }
  enter .executing
  let s ← get
  let settings := { s.configuration.run with forced, block := image.runningBlock }
  let (result, memory) := execute s.executable s.memory settings
  set { s with memory }
  match result with
  | .ok run =>
    enter .executeSucceeded
    modify fun s => { s with mapping := s.mapping.commit }
    enter .idle
    modify fun s => { s with memory := s.memory.collect.2 }
    return (← get).report (warnings ++ run.warnings.map RuntimeWarning.text) run.executed.length
  | .error fault =>
    enter .executeFailed
    modify fun s => { s.abandon with
      compiled := prior.compiled
      executable := prior.executable
      memory := s.memory.clearFrom prior.compiled.globalCount }
    enter .idle
    throw (.execute fault)

/-- Compiles a fragment and runs it, together with the statements in `forced`. -/
def runBatch (f : Fragment) (forced : List Nat) (full : Bool) : SessionCall Report := do
  let s ← get
  if s.phase ≠ .idle then
    modify abandon
    throw (.invariantViolation ("batch started in state " ++ s.phase.name))
  else
    enter .compiling
    modify (·.prepared full)
    let ⟨diagnostics, image⟩ := compile f (← get).compiled
    match image with
    | none => reject (.compile diagnostics)
    | some image =>
      modify (·.withRoom image.globalCount)
      let allocated := (← get).memory.globalCount
      if allocated < image.globalCount then
        reject (.invariantViolation (toString allocated
          ++ " global slots allocated, executable needs " ++ toString image.globalCount))
      else
        enter .compileSucceeded
        runImage image forced ((diagnostics.filter (!·.isError)).map Diagnostic.text)

/-- Refuses a call that the session's mode does not allow. -/
def requireMode (operation : String) (interpreterMode : Bool) : SessionCall Unit := do
  let s ← get
  if s.options.interpreterMode ≠ interpreterMode then
    throw (.modeMismatch operation s.options.interpreterMode)

/-- Applies a batch of graph edits. -/
def updateGraph (b : Batch) : SessionCall Report := do
  requireMode "update_graph" false
  if b.isEmpty then skip
  else
    let fragment ← modifyGet fun s =>
      let (fragment, mapping) := s.mapping.build b
      (fragment, { s with mapping })
    runBatch fragment [] false

/-- Compiles and runs statements that belong to no subtree. -/
def updateCode (code : String) : SessionCall Report := do
  requireMode "update_code" true
  if Text.isBlankText code then skip
  else runBatch (.ofCode code) [] false

/-- The active statements of a subtree in the program that was run last. -/
def statementsOf (s : Session) (subtree : SubtreeId) : List Nat :=
  match s.executable.graph? with
  | some g => (g.nodesOwnedBy subtree).map (·.id)
  | none => []

/-- Runs the statements of a subtree again, and all that depends on them. -/
def rerunSubtree (subtree : SubtreeId) : SessionCall Report := do
  match (← get).statementsOf subtree with
  | [] => skip
  | forced => runBatch {} forced false

/-- Runs every active statement again. -/
def rerunAll : SessionCall Report := runBatch {} [] true

/-- The session with other options, which take effect at the next batch. -/
def setOptions (s : Session) (options : Options) : Session :=
  { s with options, optionsPending := true }

/-- The value of what a reference stands for, if it stands for a variable. -/
def query (s : Session) (node : NodeRef) : Option Snapshot :=
  (s.mapping.variableFor? node).bind (s.memory.snapshotOf? s.executable)

/-- The top-level variables with their values, in the order of their slots. -/
def globals (s : Session) : List (String × Snapshot) := s.memory.globalsOf s.executable

/-- The listing of the top-level variables. -/
def dump (s : Session) : String := s.memory.dump s.executable

end Session

end Reflow
