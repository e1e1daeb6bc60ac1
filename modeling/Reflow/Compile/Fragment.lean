import Reflow.Compile.Diagnostic
import Reflow.Compile.Emission
/-!
# Compiling fragments

A fragment is what one compilation receives: the subtrees whose earlier code is retired, and the
units of code to add. Compiled code is appended and never rewritten. Each assignment becomes one
statement of the top-level code, which ends in a store to its global; each function body becomes a
block of its own. Statements of retired subtrees are deactivated, and whatever has to run again
because of that is queued.

## Main definitions

* `Fragment`: what one compilation receives.
* `CompileState.retire`, `compileAssignment`, `compileFunction`: the steps of a compilation.
* `compile`: the result of compiling a fragment on top of a state.
-/

namespace Reflow

/-- Code of one subtree, or of none. -/
structure FragmentUnit where
  owner : Option SubtreeId
  code : String
  deriving DecidableEq

/-- What one compilation receives. -/
structure Fragment where
  /-- The code to add, in order. -/
  units : List FragmentUnit := []
  /-- The subtrees whose earlier code is retired first, each once. -/
  retired : List SubtreeId := []
  deriving DecidableEq

namespace Fragment

/-- A fragment of code that belongs to no subtree. -/
def ofCode (code : String) : Fragment := { units := [⟨none, code⟩] }

/-- One more unit of code. -/
def push (f : Fragment) (owner : Option SubtreeId) (code : String) : Fragment :=
  { f with units := f.units ++ [⟨owner, code⟩] }

/-- One more retired subtree, unless it is already. -/
def retire (f : Fragment) (subtree : SubtreeId) : Fragment :=
  if subtree ∈ f.retired then f else { f with retired := f.retired ++ [subtree] }

/-- Whether there is nothing to compile and nothing to retire. -/
def isEmpty (f : Fragment) : Bool :=
  f.retired.isEmpty && f.units.all fun u => Text.isBlankText u.code

/-- The code of all units, each followed by a line feed. -/
def text (f : Fragment) : String := String.join (f.units.map fun u => u.code ++ "\n")

end Fragment

namespace CompileState

/-- Deactivates all that a subtree compiled. What its assigned symbols have left as writers, and
what uses its functions, is queued to run again. -/
def retire (s : CompileState) (subtree : SubtreeId) : CompileState :=
  let (retired, graph) := s.graph.deactivateOwner subtree
  let s := s.modifyGraph fun _ => graph
  let s := (retired.filterMap (·.defines)).foldl (fun s key =>
    if s.graph.writersOf key = [] ∨ .symbol key ∈ s.root.stream.updates then s
    else s.pushUpdate (.symbol key)) s
  let owned := s.root.procedures.procedures.filter fun p => p.isActive ∧ p.owner = some subtree
  owned.foldl (fun s p =>
    let s := { s with root := { s.root with procedures := s.root.procedures.retire p.index } }
    (s.modifyGraph (·.retireProcedure p.index)).pushUpdate (.procedure p.index)) s

/-- Deactivates the statements without a subtree that assign a slot: a newer one replaces them. -/
def supersede (s : CompileState) (slot : Nat) : CompileState :=
  let old := (s.graph.writersOf (.global slot)).filter fun id =>
    (s.graph.node? id).any (·.owner.isNone)
  s.modifyGraph fun g => old.foldl (fun g id => g.deactivate id) g

/-- Whether a name is an active function. -/
def isFunction (s : CompileState) (name : String) : Bool :=
  (s.root.procedures.get? name).any (·.isActive)

/-- Whether some active statement assigns a name. -/
def isAssigned (s : CompileState) (name : String) : Bool :=
  (s.root.symbols.indexOf? name).any fun slot => s.graph.writersOf (.global slot) ≠ []

end CompileState

/-- Compiles an assignment; also returns the warnings. -/
def compileAssignment (owner : Option SubtreeId) (target : String) (value : Expr)
    (s : CompileState) : Except CompileError (List String × CompileState) :=
  if s.isFunction target then .error (.assignToFunction target)
  else
    let (slot, s) := s.declare target
    let s := s.supersede slot
    let start := s.root.stream.size
    let (code, m) := emit {} start value { state := s }
    let id := m.state.nextExpr
    let s := { m.state with nextExpr := id + 1 }
    let s := s.modifyStream fun stream =>
      (code ++ [Instruction.storeGlobal slot]).foldl Stream.push stream
    let s := s.modifyGraph fun g => g.insertNode
      { id, owner, defines := some (.global slot), reads := m.reads.map .global, calls := m.calls,
        start, stop := s.root.stream.size }
    .ok (m.warnings, s)

/-- Compiles a function definition; also returns the warnings. -/
def compileFunction (owner : Option SubtreeId) (name : String) (params : List String)
    (body : Expr) (s : CompileState) : Except CompileError (List String × CompileState) :=
  if s.isAssigned name then .error (.functionShadowsVariable name)
  else
    let (index, s) := s.reserve name
    let (block, s) := s.addBody index params
    let (code, m) := emit { params, defining := some name } 0 body { state := s }
    let code := code ++ [Instruction.ret]
    let s := m.state
    let s := { s with bodies := s.bodies.modify (block - 1) fun b =>
      { b with stream := code.foldl Stream.push b.stream } }
    let (_, procedures) := s.root.procedures.define name params block 0 code.length owner
    let s := { s with root := { s.root with procedures } }
    let s := s.modifyGraph (·.defineProcedure ⟨index, m.reads.map .global, m.calls⟩)
    let s := if s.graph.readersOf (.procedure index) = [] then s
      else s.pushUpdate (.procedure index)
    .ok (m.warnings, { s with dynamicFunctions := s.dynamicFunctions.resolve name })

/-- Compiles one statement; also returns the warnings. -/
def compileStatement (owner : Option SubtreeId) :
    Statement → CompileState → Except CompileError (List String × CompileState)
  | .assign target value => compileAssignment owner target value
  | .define name params body => compileFunction owner name params body

/-- A compilation under way: the state so far and the diagnostics so far. -/
structure Progress where
  state : CompileState
  diagnostics : List Diagnostic := []

namespace Progress

/-- Compiles one statement; a rejected one leaves the state as it is. -/
def statement (owner : Option SubtreeId) (p : Progress) (s : Statement) : Progress :=
  match compileStatement owner s p.state with
  | .ok (warnings, state) =>
    ⟨state, p.diagnostics ++ warnings.map fun w => .warning w owner⟩
  | .error e => { p with diagnostics := p.diagnostics ++ [.ofError e owner] }

/-- Compiles the statements of a unit, or notes why it has none. -/
def unit (p : Progress) (u : FragmentUnit) : Progress :=
  match parseProgram u.code with
  | .ok statements => statements.foldl (statement u.owner) p
  | .error e => { p with diagnostics := p.diagnostics ++ [.ofError (.parse e) u.owner] }

end Progress

/-- The result of a successful compilation. -/
structure CompiledImage where
  state : CompileState
  executable : Executable
  /-- The number of global slots that the executable needs. -/
  globalCount : Nat
  /-- The block to run. -/
  runningBlock : Nat

/-- The result of a compilation: its diagnostics, and an image unless one of them is an error. -/
structure CompileOutcome where
  diagnostics : List Diagnostic
  image : Option CompiledImage

/-- Compiles a fragment on top of a state. The tables of the image are those of its blocks, so they need
no check (`Executable.validate_ofBlocks`). -/
def compile (f : Fragment) (prior : CompileState) : CompileOutcome :=
  let start : Progress := ⟨f.retired.foldl CompileState.retire prior.beginCompile, []⟩
  let ⟨state, diagnostics⟩ := f.units.foldl Progress.unit start
  if diagnostics.any Diagnostic.isError then ⟨diagnostics, none⟩
  else ⟨diagnostics, some ⟨state, state.executable, state.globalCount, 0⟩⟩

end Reflow
