import Reflow.Proofs.Graph.Relabelling
import Reflow.Proofs.Program.Soundness
/-!
# Programs under other identities

What a compilation knows of subtrees is which statements and which procedures belong to whom. Under
other identities that are as different from each other, a fragment compiles to the same program, and its
diagnostics say the same about the same subtrees.

## Main definitions

* `CompileState.relabel`, `Fragment.relabel`, `CompileOutcome.relabel`: the same with other identities.

## Main results

* `emit_relabel`: the same code is emitted.
* `retire_relabel`, `compileStatement_relabel`: the steps of a compilation.
* `compile_relabel`: a whole compilation.
-/

namespace Reflow

/-- The procedure with another owner. -/
def Procedure.relabel (p : SubtreeId → SubtreeId) (q : Procedure) : Procedure :=
  { q with owner := q.owner.map p }

namespace ProcedureTable

/-- The procedures with other owners. -/
def relabel (p : SubtreeId → SubtreeId) (t : ProcedureTable) : ProcedureTable :=
  { t with procedures := t.procedures.map (·.relabel p) }

variable (p : SubtreeId → SubtreeId) (t : ProcedureTable)

@[simp] theorem indexOf?_relabel : (t.relabel p).indexOf? = t.indexOf? := by
  funext name
  exact List.findIdx?_map

@[simp] theorem at?_relabel (index : Nat) :
    (t.relabel p).at? index = (t.at? index).map (·.relabel p) := List.getElem?_map

@[simp] theorem get?_relabel (name : String) :
    (t.relabel p).get? name = (t.get? name).map (·.relabel p) := List.find?_map

@[simp] theorem reserve_relabel (name : String) :
    (t.relabel p).reserve name = ((t.reserve name).1, (t.reserve name).2.relabel p) := by
  simp only [reserve, indexOf?_relabel]
  split
  · rfl
  · simp [relabel, size, Procedure.relabel]

theorem modify_relabel {f f' : Procedure → Procedure} (h : ∀ q, (f q).relabel p = f' (q.relabel p))
    (index : Nat) : { t.relabel p with procedures := (t.relabel p).procedures.modify index f' } =
      ({ t with procedures := t.procedures.modify index f } : ProcedureTable).relabel p :=
  congrArg (ProcedureTable.mk t.block) (CompileState.map_modify h).symm

theorem retire_relabel (index : Nat) : (t.relabel p).retire index = (t.retire index).relabel p := by
  refine t.modify_relabel p ?_ index
  exact fun _ => rfl

theorem define_relabel (name : String) (params : List String) (body start stop : Nat)
    (owner : Option SubtreeId) :
    ((t.relabel p).define name params body start stop (owner.map p)).2 =
      (t.define name params body start stop owner).2.relabel p := by
  simp only [define, reserve_relabel]
  refine (t.reserve name).2.modify_relabel p ?_ (t.reserve name).1
  exact fun _ => rfl

end ProcedureTable

/-- The code with other identities. -/
def Stream.relabel (p : SubtreeId → SubtreeId) (s : Stream) : Stream :=
  { s with graph := s.graph.relabel p }

/-- The block with other identities. -/
def CodeBlock.relabel (p : SubtreeId → SubtreeId) (b : CodeBlock) : CodeBlock :=
  { b with procedures := b.procedures.relabel p, stream := b.stream.relabel p }

namespace CompileState

/-- The program with other identities. -/
def relabel (p : SubtreeId → SubtreeId) (s : CompileState) : CompileState :=
  { s with root := s.root.relabel p, bodies := s.bodies.map (·.relabel p) }

section Look

variable (p : SubtreeId → SubtreeId) (s : CompileState)

@[simp] theorem graph_relabel : (s.relabel p).graph = s.graph.relabel p := rfl

@[simp] theorem symbols_relabel : (s.relabel p).root.symbols = s.root.symbols := rfl

@[simp] theorem procedures_relabel :
    (s.relabel p).root.procedures = s.root.procedures.relabel p := rfl

@[simp] theorem pointers_relabel : (s.relabel p).pointers = s.pointers := rfl

@[simp] theorem updates_relabel : (s.relabel p).root.stream.updates = s.root.stream.updates := rfl

@[simp] theorem isFunction_relabel : (s.relabel p).isFunction = s.isFunction := by
  funext name
  simp only [isFunction, procedures_relabel, ProcedureTable.get?_relabel]
  cases s.root.procedures.get? name <;> rfl

@[simp] theorem isAssigned_relabel : (s.relabel p).isAssigned = s.isAssigned := by
  funext name
  simp only [isAssigned, symbols_relabel, graph_relabel, DependencyGraph.writersOf_relabel]

end Look

section Change

variable (p : SubtreeId → SubtreeId) (s : CompileState)

/-- What is the same on graphs with other identities, is so on programs. -/
theorem modifyGraph_relabel {f f' : DependencyGraph → DependencyGraph}
    (h : f' (s.graph.relabel p) = (f s.graph).relabel p) :
    (s.relabel p).modifyGraph f' = (s.modifyGraph f).relabel p :=
  congrArg (fun graph => (s.relabel p).modifyGraph fun _ => graph) h

@[simp] theorem declare_relabel (name : String) :
    (s.relabel p).declare name = ((s.declare name).1, (s.declare name).2.relabel p) := by
  simp only [declare, symbols_relabel]
  split <;> rfl

@[simp] theorem reserve_relabel (name : String) :
    (s.relabel p).reserve name = ((s.reserve name).1, (s.reserve name).2.relabel p) := by
  simp only [reserve, procedures_relabel, ProcedureTable.reserve_relabel]
  rfl

theorem supersede_relabel (slot : Nat) :
    (s.relabel p).supersede slot = (s.supersede slot).relabel p := by
  have howner : ∀ id, ((s.graph.node? id).map (·.relabel p)).any (·.owner.isNone) =
      (s.graph.node? id).any (·.owner.isNone) := by
    intro id
    cases s.graph.node? id with
    | none => rfl
    | some n => exact Option.isNone_map
  simp only [supersede, graph_relabel, DependencyGraph.writersOf_relabel,
    DependencyGraph.node?_relabel, howner]
  exact s.modifyGraph_relabel p (DependencyGraph.foldl_deactivate_relabel p _ _)

theorem addBody_relabel (index : Nat) (params : List String) :
    ((s.relabel p).addBody index params).2 = (s.addBody index params).2.relabel p := by
  simp [addBody, relabel, CodeBlock.relabel, Stream.relabel, CodeBlock.fresh, ProcedureTable.relabel,
    DependencyGraph.relabel]

end Change

end CompileState

/-! ### Emitting code -/

/-- The emission in a program with other identities. -/
def Emission.relabel (p : SubtreeId → SubtreeId) (m : Emission) : Emission :=
  { m with state := m.state.relabel p }

section Emit

variable (p : SubtreeId → SubtreeId) (scope : Scope)

@[simp] theorem emitName_relabel (name : String) (m : Emission) : emitName scope name (m.relabel p) =
    ((emitName scope name m).1, (emitName scope name m).2.relabel p) := by
  simp only [emitName, Emission.relabel, CompileState.procedures_relabel,
    CompileState.symbols_relabel, ProcedureTable.indexOf?_relabel, CompileState.pointers_relabel,
    CompileState.declare_relabel]
  split
  · rfl
  · split
    · rfl
    · split <;> rfl

@[simp] theorem resolveCallee_relabel (name : String) (argc : Nat) (m : Emission) :
    resolveCallee scope name argc (m.relabel p) =
      ((resolveCallee scope name argc m).1, (resolveCallee scope name argc m).2.relabel p) := by
  have hprocedure : ∀ q : Option Procedure, (q.map (·.relabel p)).filter (·.isActive) =
      (q.filter (·.isActive)).map (·.relabel p) := fun q => Option.filter_map
  simp only [resolveCallee, Emission.relabel, CompileState.procedures_relabel,
    CompileState.symbols_relabel, ProcedureTable.indexOf?_relabel, CompileState.reserve_relabel,
    ProcedureTable.at?_relabel, hprocedure]
  split
  · rfl
  · split
    · rfl
    · cases ((m.state.reserve name).2.root.procedures.at? (m.state.reserve name).1).filter
        (·.isActive) with
      | some q =>
        have harity : (q.relabel p).arity = q.arity := rfl
        simp only [Option.map_some, harity]
        split <;> rfl
      | none =>
        simp only [Option.map_none]
        split <;> rfl

mutual

theorem emit_relabel (base : Nat) : (e : Expr) → (m : Emission) →
    emit scope base e (m.relabel p) = ((emit scope base e m).1, (emit scope base e m).2.relabel p)
  | .null, _ | .bool _, _ | .int _, _ | .double _, _ | .str _, _ => rfl
  | .name n, m => by simp only [emit, emitName_relabel]
  | .array items, m => by simp only [emit, emitAll_relabel base items]
  | .index target i, m => by simp only [emit, emit_relabel base target, emit_relabel _ i]
  | .call callee args, m => by
    simp only [emit, resolveCallee_relabel]
    rcases resolveCallee scope callee args.length m with ⟨⟨procedure⟩ | ⟨load⟩, m⟩
    · simp only [emitAll_relabel base args]
      rfl
    · simp only [emitAll_relabel (base + 1) args]
  | .unary _ operand, m => by simp only [emit, emit_relabel base operand]
  | .binary _ lhs rhs, m => by simp only [emit, emit_relabel base lhs, emit_relabel _ rhs]
  | .cond test yes no, m => by
    simp only [emit, emit_relabel base test, emit_relabel _ yes, emit_relabel _ no]

theorem emitAll_relabel (base : Nat) : (es : List Expr) → (m : Emission) →
    emitAll scope base es (m.relabel p) =
      ((emitAll scope base es m).1, (emitAll scope base es m).2.relabel p)
  | [], _ => rfl
  | e :: es, m => by simp only [emitAll, emit_relabel base e, emitAll_relabel _ es]

end

end Emit

/-! ### Retiring -/

namespace CompileState

section Retire

variable {p : SubtreeId → SubtreeId} (s : CompileState)

theorem deactivateOwned_relabel (hp : Function.Injective p) (id : SubtreeId) :
    (s.relabel p).deactivateOwned (p id) = (s.deactivateOwned id).relabel p := by
  refine s.modifyGraph_relabel p ?_
  rw [DependencyGraph.nodesOwnedBy_relabel s.graph hp, List.map_map]
  exact DependencyGraph.foldl_deactivate_relabel p _ _

theorem queueWriters_relabel (key : SymbolKey) :
    (s.relabel p).queueWriters key = (s.queueWriters key).relabel p := by
  simp only [queueWriters, graph_relabel, DependencyGraph.writersOf_relabel, updates_relabel]
  split <;> rfl

theorem retireProcedure_relabel (index : Nat) :
    (s.relabel p).retireProcedure index = (s.retireProcedure index).relabel p := by
  simp only [retireProcedure, procedures_relabel, ProcedureTable.retire_relabel]
  rfl

theorem withoutStatements_relabel (hp : Function.Injective p) (id : SubtreeId) :
    (s.relabel p).withoutStatements (p id) = (s.withoutStatements id).relabel p := by
  have hkeys : ((s.graph.relabel p).nodesOwnedBy (p id)).filterMap (·.defines) =
      (s.graph.nodesOwnedBy id).filterMap (·.defines) := by
    rw [DependencyGraph.nodesOwnedBy_relabel s.graph hp, List.filterMap_map]
    rfl
  rw [withoutStatements, graph_relabel, hkeys, s.deactivateOwned_relabel hp]
  exact List.foldl_hom (relabel p) queueWriters_relabel

theorem proceduresOwnedBy_relabel (hp : Function.Injective p) (id : SubtreeId) :
    (s.relabel p).proceduresOwnedBy (p id) = (s.proceduresOwnedBy id).map (·.relabel p) := by
  have howner : ∀ q : Procedure, (q.relabel p).owner = some (p id) ↔ q.owner = some id := fun q =>
    (Option.map_injective hp).eq_iff (b := some id)
  have hon : ∀ q : Procedure, (q.relabel p).isActive = q.isActive := fun _ => rfl
  simp only [proceduresOwnedBy, procedures_relabel, ProcedureTable.relabel, List.filter_map,
    Function.comp_def, howner, hon]

/-- A subtree is retired under its other identity. -/
theorem retire_relabel (hp : Function.Injective p) (id : SubtreeId) :
    (s.relabel p).retire (p id) = (s.retire id).relabel p := by
  rw [retire_eq, retire_eq, s.withoutStatements_relabel hp, proceduresOwnedBy_relabel _ hp,
    List.foldl_map]
  exact List.foldl_hom (relabel p) fun s q => s.retireProcedure_relabel q.index

end Retire

/-! ### Adding statements -/

section Add

variable (p : SubtreeId → SubtreeId) (s : CompileState) (owner : Option SubtreeId)

theorem beforeValue_relabel (target : String) :
    (s.relabel p).beforeValue target = (s.beforeValue target).relabel p := by
  simp only [beforeValue, declare_relabel, supersede_relabel]

theorem emitValue_relabel (target : String) (value : Expr) :
    (s.relabel p).emitValue target value =
      ((s.emitValue target value).1, (s.emitValue target value).2.relabel p) := by
  simp only [emitValue, beforeValue_relabel]
  exact emit_relabel p {} _ value { state := s.beforeValue target }

theorem append_relabel (code : List Instruction) (n : GraphNode) :
    (s.relabel p).append code (n.relabel p) = (s.append code n).relabel p :=
  congrArg (fun graph => ((s.append code n).relabel p).modifyGraph fun _ => graph)
    (s.graph.insertNode_relabel p n)

theorem assigned_relabel (target : String) (value : Expr) :
    (s.relabel p).assigned (owner.map p) target value =
      (s.assigned owner target value).relabel p := by
  have hnode : (s.relabel p).assignmentNode (owner.map p) target value =
      (s.assignmentNode owner target value).relabel p := by
    simp only [assignmentNode, emitValue_relabel, declare_relabel, beforeValue_relabel]
    rfl
  simp only [assigned, hnode, emitValue_relabel, declare_relabel]
  exact append_relabel p _ _ _

theorem emitBody_relabel (name : String) (params : List String) (body : Expr) :
    (s.relabel p).emitBody name params body =
      ((s.emitBody name params body).1, (s.emitBody name params body).2.relabel p) := by
  have hbefore : (s.relabel p).beforeBody name params = (s.beforeBody name params).relabel p := by
    simp only [beforeBody, reserve_relabel, addBody_relabel]
  simp only [emitBody, hbefore]
  exact emit_relabel p _ 0 body { state := s.beforeBody name params }

theorem install_relabel (name : String) (params : List String) (body : Expr) :
    (s.relabel p).install (owner.map p) name params body =
      (s.install owner name params body).relabel p := by
  have huses : (s.relabel p).bodyUses name params body = s.bodyUses name params body := by
    simp only [bodyUses, reserve_relabel, emitBody_relabel]
    rfl
  have hlength : (s.relabel p).bodies.length = s.bodies.length := List.length_map _
  simp only [install, emitBody_relabel, huses, hlength, Emission.relabel, procedures_relabel,
    ProcedureTable.define_relabel]
  refine congrArg (fun bodies => { (s.install owner name params body).relabel p with bodies })
    (map_modify ?_).symm
  exact fun _ => rfl

theorem queueUsers_relabel (index : Nat) :
    (s.relabel p).queueUsers index = (s.queueUsers index).relabel p := by
  simp only [queueUsers, graph_relabel, DependencyGraph.readersOf_relabel]
  split <;> rfl

theorem defined_relabel (name : String) (params : List String) (body : Expr) :
    (s.relabel p).defined (owner.map p) name params body =
      (s.defined owner name params body).relabel p := by
  simp only [defined, install_relabel, reserve_relabel, queueUsers_relabel]
  rfl

/-- A statement is rejected for the same reason or compiled to the same code. -/
theorem compileStatement_relabel (statement : Statement) :
    compileStatement (owner.map p) statement (s.relabel p) =
      (compileStatement owner statement s).map fun (warnings, t) => (warnings, t.relabel p) := by
  cases statement with
  | assign target value =>
    simp only [compileStatement, compileAssignment_eq, isFunction_relabel, emitValue_relabel,
      assigned_relabel]
    split <;> rfl
  | define name params body =>
    simp only [compileStatement, compileFunction_eq, isAssigned_relabel, emitBody_relabel,
      defined_relabel]
    split <;> rfl

end Add

end CompileState

/-! ### Whole compilations -/

/-- The diagnostic of another subtree. -/
def Diagnostic.relabel (p : SubtreeId → SubtreeId) (d : Diagnostic) : Diagnostic :=
  { d with subtree := d.subtree.map p }

/-- The unit of another subtree. -/
def FragmentUnit.relabel (p : SubtreeId → SubtreeId) (u : FragmentUnit) : FragmentUnit :=
  { u with owner := u.owner.map p }

/-- The fragment of other subtrees. -/
def Fragment.relabel (p : SubtreeId → SubtreeId) (f : Fragment) : Fragment :=
  ⟨f.units.map (·.relabel p), f.retired.map p⟩

theorem Fragment.retire_relabel {p : SubtreeId → SubtreeId} (hp : Function.Injective p)
    (f : Fragment) (id : SubtreeId) : (f.relabel p).retire (p id) = (f.retire id).relabel p := by
  have hmem : p id ∈ (f.relabel p).retired ↔ id ∈ f.retired := List.mem_map_of_injective hp
  simp only [retire, hmem]
  split
  · rfl
  · simp [relabel]

/-- The program with other identities. -/
def Executable.relabel (p : SubtreeId → SubtreeId) (x : Executable) : Executable :=
  { x with procedures := x.procedures.map (·.relabel p), streams := x.streams.map (·.relabel p) }

/-- The compiled program with other identities. -/
def CompiledImage.relabel (p : SubtreeId → SubtreeId) (image : CompiledImage) : CompiledImage :=
  { image with state := image.state.relabel p, executable := image.executable.relabel p }

/-- The result of a compilation with other identities. -/
def CompileOutcome.relabel (p : SubtreeId → SubtreeId) (o : CompileOutcome) : CompileOutcome :=
  ⟨o.diagnostics.map (·.relabel p), o.image.map (·.relabel p)⟩

namespace Progress

/-- The compilation with other identities. -/
def relabel (p : SubtreeId → SubtreeId) (q : Progress) : Progress :=
  ⟨q.state.relabel p, q.diagnostics.map (·.relabel p)⟩

variable (p : SubtreeId → SubtreeId) (q : Progress)

theorem statement_relabel (owner : Option SubtreeId) (s : Statement) :
    (q.relabel p).statement (owner.map p) s = (q.statement owner s).relabel p := by
  simp only [statement, relabel, CompileState.compileStatement_relabel]
  rcases compileStatement owner s q.state with e | ⟨warnings, state⟩
  · simp [Except.map, Diagnostic.relabel, Diagnostic.ofError]
  · simp [Except.map, Diagnostic.relabel, Diagnostic.warning, Function.comp_def]

theorem unit_relabel (u : FragmentUnit) :
    (q.relabel p).unit (u.relabel p) = (q.unit u).relabel p := by
  have hcode : (u.relabel p).code = u.code := rfl
  simp only [unit, hcode]
  cases parseProgram u.code with
  | error e => simp [relabel, FragmentUnit.relabel, Diagnostic.relabel, Diagnostic.ofError]
  | ok statements =>
    exact List.foldl_hom (relabel p) fun q s => q.statement_relabel p u.owner s

end Progress

section Compile

variable {p : SubtreeId → SubtreeId}

theorem CompileState.executable_relabel (p : SubtreeId → SubtreeId) (s : CompileState) :
    (s.relabel p).executable = s.executable.relabel p := by
  have hblocks : (s.relabel p).arena.blocks = s.arena.blocks.map (·.relabel p) := rfl
  simp only [executable, Executable.ofBlocks, Executable.relabel, hblocks, Arena.get?, List.map_map,
    List.filter_map, List.length_map, List.getElem?_map, Option.any_map]
  rfl

theorem CompileState.image_relabel (p : SubtreeId → SubtreeId) (s : CompileState) :
    (s.relabel p).image = s.image.relabel p := by
  rw [image, executable_relabel]
  rfl

theorem Fragment.progress_relabel (hp : Function.Injective p) (f : Fragment) (s : CompileState) :
    (f.relabel p).progress (s.relabel p) = (f.progress s).relabel p := by
  have hretired : (f.retired.map p).foldl CompileState.retire (s.beginCompile.relabel p) =
      (f.retired.foldl CompileState.retire s.beginCompile).relabel p := by
    rw [List.foldl_map]
    refine List.foldl_hom (CompileState.relabel p) ?_
    exact fun s id => s.retire_relabel hp id
  have hunits (q : Progress) : (f.units.map (·.relabel p)).foldl Progress.unit (q.relabel p) =
      (f.units.foldl Progress.unit q).relabel p := by
    rw [List.foldl_map]
    exact List.foldl_hom (Progress.relabel p) fun q u => q.unit_relabel p u
  exact (congrArg (fun s => (f.relabel p).units.foldl Progress.unit ⟨s, []⟩) hretired).trans
    (hunits ⟨f.retired.foldl CompileState.retire s.beginCompile, []⟩)

/-- A fragment of other subtrees compiles to the same code. -/
theorem compile_relabel (hp : Function.Injective p) (f : Fragment) (s : CompileState) :
    compile (f.relabel p) (s.relabel p) = (compile f s).relabel p := by
  have herror (ds : List Diagnostic) :
      (ds.map (·.relabel p)).any Diagnostic.isError = ds.any Diagnostic.isError := List.any_map
  have hstate : (s.relabel p).compiled (f.relabel p) = (s.compiled f).relabel p :=
    congrArg Progress.state (f.progress_relabel hp s)
  simp only [compile_eq, f.progress_relabel hp, hstate, Progress.relabel, herror,
    CompileState.image_relabel]
  split <;> rfl

end Compile

end Reflow
