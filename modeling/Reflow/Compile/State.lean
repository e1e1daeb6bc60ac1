import Reflow.Image.Executable
/-!
# The state of a session's compilations

A compilation builds on everything compiled before it. The state holds the top-level block and the
blocks of function bodies, whose numbers follow that of the top-level block, and the tables of the
whole program.

## Main definitions

* `CompileState`: what has been compiled so far.
* `CompileState.beginCompile`: where a compilation starts.
* `CompileState.declare`: the slot of a global.
* `CompileState.executable`: the program compiled so far.
-/

namespace Reflow

/-- Everything that a session has compiled so far. -/
structure CompileState where
  /-- The top-level block. -/
  root : CodeBlock := .fresh 0 .language .associative none
  /-- The blocks of function bodies; the first one has the number one. -/
  bodies : List CodeBlock := []
  dynamicVariables : DynamicVariables := {}
  dynamicFunctions : DynamicFunctions := {}
  pointers : FunctionPointers := {}
  /-- The number of the next statement. -/
  nextExpr : Nat := 0
  /-- The next compilation runs every active statement again. -/
  fullExecution : Bool := false

namespace CompileState

/-- All blocks of the program. -/
def arena (s : CompileState) : Arena := ⟨s.root :: s.bodies⟩

/-- The number of global slots declared so far. -/
def globalCount (s : CompileState) : Nat := s.root.globalSize

/-- The dependencies of the top-level code. -/
def graph (s : CompileState) : DependencyGraph := s.root.stream.graph

/-- Changes the top-level code and its dependencies. -/
def modifyStream (s : CompileState) (f : Stream → Stream) : CompileState :=
  { s with root := { s.root with stream := f s.root.stream } }

/-- Changes the dependencies of the top-level code. -/
def modifyGraph (s : CompileState) (f : DependencyGraph → DependencyGraph) : CompileState :=
  s.modifyStream fun stream => { stream with graph := f stream.graph }

/-- Queues something for the next run. -/
def pushUpdate (s : CompileState) (root : UpdateRoot) : CompileState :=
  s.modifyStream fun stream => { stream with updates := stream.updates ++ [root] }

/-- The state without what the last compilation noted for one run only. -/
def resetForNewDelta (s : CompileState) : CompileState :=
  { s.modifyStream (fun stream => { stream with updates := [] }) with fullExecution := false }

/-- The state after which the next compilation runs every active statement again. -/
def resetForFullExecution (s : CompileState) : CompileState :=
  { s.modifyStream (fun stream => { stream with updates := [] }) with fullExecution := true }

/-- The state at the start of a compilation: what is compiled from here on is pending. -/
def beginCompile (s : CompileState) : CompileState :=
  let s' := s.modifyStream fun stream =>
    { stream with entry := some (if s.fullExecution then 0 else stream.size), updates := [] }
  { s' with fullExecution := false }

/-- The slot of a global, which is declared if it is new. -/
def declare (s : CompileState) (name : String) : Nat × CompileState :=
  match s.root.symbols.indexOf? name with
  | some slot => (slot, s)
  | none =>
    let (slot, symbols) := s.root.symbols.insert { name := name }
    let globalSize := max s.root.globalSize (slot + 1)
    (slot, { s with root := { s.root with symbols, globalSize } })

/-- The index of a procedure, which is reserved if it is new. -/
def reserve (s : CompileState) (name : String) : Nat × CompileState :=
  let (index, procedures) := s.root.procedures.reserve name
  (index, { s with root := { s.root with procedures } })

/-- Adds the block of a function body with its arguments; also returns the block's number. -/
def addBody (s : CompileState) (procedure : Nat) (params : List String) : Nat × CompileState :=
  let id := s.bodies.length + 1
  let block := CodeBlock.fresh id .function .associative (some 0)
  let symbols := params.foldl (fun t p => (t.insert (.argument p procedure)).2) block.symbols
  (id, { s with
    root := { s.root with children := s.root.children ++ [id] }
    bodies := s.bodies ++ [{ block with symbols }] })

/-- The program compiled so far. -/
def executable (s : CompileState) : Executable :=
  .ofBlocks s.arena s.dynamicVariables s.dynamicFunctions s.pointers

end CompileState

end Reflow
