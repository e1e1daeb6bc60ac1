import Reflow.Proofs.Graph.Tiling
import Reflow.Proofs.Program.Changes
/-!
# Compiled code is appended

What a program holds keeps its place while more is compiled: instructions, blocks, symbols, procedures
and function pointers are only added after those before them, and the record of a statement changes at
most in that the statement is no longer active. So the ranges of all statements that were ever compiled
lie one after the other in the top-level code, and those of the latest compilation fill what it has
added.

## Main definitions

* `CodeBlock.Widens`: a block that is still the same scope.
* `CompileState.Adds`: what becomes of the records between two states.
* `CompileState.Reached`: the states that compilations and resets lead to.

## Main results

* `appends_assigned`, `appends_defined`, `appends_retire`: the steps of a compilation.
* `CompileState.Reached.append_only`: no compilation rewrites what is compiled already.
-/

namespace Reflow

namespace CompileState

/-! ### What becomes of the records -/

/-- Between the states `s` and `t` of a program, the statements in `off` have been deactivated, and
the statements `new` have been added; their code fills what was added to the code. -/
structure Adds (s t : CompileState) (off : List Nat) (new : List GraphNode) : Prop where
  nodes : t.graph.nodes = s.graph.nodes.map (·.deactivatedIn off) ++ new
  tiled : t.root.stream.Tiled new s.root.stream.size t.root.stream.size
  fresh : ∀ n ∈ new, s.nextExpr ≤ n.id

namespace Adds

variable {s t u : CompileState} {off off' : List Nat} {new new' : List GraphNode}

/-- No code is added. -/
theorem of_nodes (hnodes : t.graph.nodes = s.graph.nodes.map (·.deactivatedIn off))
    (hcode : t.root.stream.code = s.root.stream.code) : s.Adds t off [] where
  nodes := by rw [hnodes, List.append_nil]
  tiled := by
    rw [show t.root.stream.size = s.root.stream.size from congrArg Array.size hcode]
    exact .nil _
  fresh _ h := by cases h

/-- Neither statements nor code are touched. -/
theorem of_eq (hnodes : t.graph.nodes = s.graph.nodes)
    (hcode : t.root.stream.code = s.root.stream.code) : s.Adds t [] [] :=
  .of_nodes (by simp [hnodes]) hcode

theorem trans (hst : s.Extends t) (htu : t.Extends u) (h : s.Adds t off new)
    (k : t.Adds u off' new') :
    s.Adds u (off ++ off') (new.map (·.deactivatedIn off') ++ new') where
  nodes := by
    rw [k.nodes, h.nodes, List.map_append, List.map_map, List.append_assoc]
    congr 1
    exact List.map_congr_left fun n _ => n.deactivatedIn_deactivatedIn off off'
  tiled := ((h.tiled.mono fun _ _ => htu.at?).deactivatedIn off').append k.tiled
  fresh n hn := by
    rcases List.mem_append.1 hn with hn | hn
    · obtain ⟨m, hm, rfl⟩ := List.mem_map.1 hn
      rw [m.deactivatedIn_id]
      exact h.fresh m hm
    · exact Nat.le_trans hst.nextExpr (k.fresh n hn)

/-- The statements of a longer program fill its code, too. -/
theorem all (hext : s.Extends t) (h : s.Adds t off new)
    (hs : s.root.stream.Tiled s.graph.nodes 0 s.root.stream.size) :
    t.root.stream.Tiled t.graph.nodes 0 t.root.stream.size := by
  rw [h.nodes]
  exact ((hs.mono fun _ _ => hext.at?).deactivatedIn off).append h.tiled

end Adds

/-- A step that keeps a program sound and adds statements after those of the program. -/
def Appends (s t : CompileState) : Prop := s.Evolves t ∧ (s.Sound → ∃ off new, s.Adds t off new)

namespace Appends

@[refl] theorem refl (s : CompileState) : s.Appends s :=
  ⟨.refl s, fun _ => ⟨_, _, .of_eq rfl rfl⟩⟩

theorem trans {s t u : CompileState} (h : s.Appends t) (k : t.Appends u) : s.Appends u := by
  refine ⟨h.1.trans k.1, fun hs => ?_⟩
  obtain ⟨ht, hst⟩ := h.1 hs
  obtain ⟨-, htu⟩ := k.1 ht
  obtain ⟨off, new, hadds⟩ := h.2 hs
  obtain ⟨off', new', hadds'⟩ := k.2 ht
  exact ⟨_, _, hadds.trans hst htu hadds'⟩

theorem foldl {α : Type} {f : CompileState → α → CompileState} (h : ∀ s a, Appends s (f s a))
    (l : List α) (s : CompileState) : s.Appends (l.foldl f s) :=
  List.foldlRecOn l f (.refl s) fun _ ht a _ => ht.trans (h _ a)

end Appends

/-! ### The steps of a compilation -/

theorem appends_scheduled (s : CompileState) (entry : Option Nat) (updates : List UpdateRoot)
    (full : Bool) : s.Appends (s.scheduled entry updates full) :=
  ⟨s.evolves_scheduled entry updates full, fun _ => ⟨_, _, .of_eq rfl rfl⟩⟩

theorem appends_beginCompile (s : CompileState) : s.Appends s.beginCompile :=
  s.appends_scheduled _ _ _

theorem Registers.appends {s t : CompileState} (h : s.Registers t) : s.Appends t := by
  refine ⟨h.evolves, fun _ => ⟨_, _, .of_eq ?_ ?_⟩⟩
  · exact congrArg DependencyGraph.nodes h.graph
  · exact congrArg Stream.code h.stream

theorem appends_deactivate (s : CompileState) (ids : List Nat) :
    s.Appends (s.modifyGraph fun g => ids.foldl DependencyGraph.deactivate g) :=
  ⟨s.evolves_deactivate ids, fun h => ⟨_, _, .of_nodes (h.graph.nodes_foldl_deactivate ids) rfl⟩⟩

theorem appends_retireProcedure (s : CompileState) (index : Nat) :
    s.Appends (s.retireProcedure index) :=
  ⟨s.evolves_retireProcedure index, fun _ => ⟨_, _, .of_eq rfl rfl⟩⟩

theorem appends_retire (s : CompileState) (subtree : SubtreeId) :
    s.Appends (s.retire subtree) := by
  obtain ⟨updates, heq⟩ := s.exists_withoutStatements_eq subtree
  rw [retire_eq]
  refine .trans ?_ (.foldl (fun s (p : Procedure) => s.appends_retireProcedure p.index) _ _)
  rw [heq]
  exact .trans (s.appends_deactivate _) (appends_scheduled _ _ _ _)

/-- The code of one more statement is all that is added. -/
theorem adds_append {s : CompileState} (h : s.Sound) {n : GraphNode} {slot : Nat}
    {code : List Instruction} (hid : n.id = s.nextExpr) (hdefines : n.defines = some (.global slot))
    (hstart : n.start = s.root.stream.size) (hstop : n.stop = n.start + code.length + 1) :
    s.Adds (s.append (code ++ [.storeGlobal slot]) n) [] [n] where
  nodes := by
    refine (s.graph.insertNode_nodes n).trans ?_
    rw [Keyed.put_eq_concat fun m hm => hid ▸ h.ids m hm]
    simp
  tiled := by
    have hsize : (s.append (code ++ [.storeGlobal slot]) n).root.stream.size = n.stop := by
      simp only [append, Stream.size, Array.size_append, List.size_toArray, List.length_append,
        List.length_singleton]
      simp only [Stream.size] at hstart
      omega
    have hstore : (s.append (code ++ [.storeGlobal slot]) n).root.stream.at? (n.stop - 1) =
        some (.storeGlobal slot) := by
      have hlast : (s.append (code ++ [.storeGlobal slot]) n).root.stream.at?
          (s.root.stream.size + code.length) = some (.storeGlobal slot) :=
        carries_append code.length _ (by simp)
      rwa [← hstart, show n.start + code.length = n.stop - 1 by omega] at hlast
    rw [hsize, ← hstart]
    exact .cons (by omega) hdefines hstore (.nil _)
  fresh m hm := by
    rw [List.mem_singleton.1 hm, hid]

theorem appends_emitValue (s : CompileState) (target : String) (value : Expr) :
    s.Appends (s.emitValue target value).2.state :=
  (s.registers_declare target).appends.trans
    (((s.declare target).2.appends_deactivate _).trans (registers_emitValue s target value).appends)

theorem appends_assigned (s : CompileState) (owner : Option SubtreeId) (target : String)
    (value : Expr) : s.Appends (s.assigned owner target value) := by
  refine ⟨evolves_assigned s owner target value, fun h => ?_⟩
  obtain ⟨hevolves, hadds⟩ := s.appends_emitValue target value
  obtain ⟨hsound, hext⟩ := hevolves h
  obtain ⟨off, new, hadds⟩ := hadds h
  obtain ⟨-, hstart, -, -⟩ := h.assignment owner target value
  exact ⟨_, _, hadds.trans hext (extends_append rfl _) (adds_append hsound rfl rfl hstart rfl)⟩

theorem appends_queueUsers (s : CompileState) (index : Nat) : s.Appends (s.queueUsers index) := by
  unfold queueUsers
  split
  · rfl
  · exact s.appends_scheduled _ _ _

/-- A function body is a block of its own, beside the statements. -/
theorem appends_install (s : CompileState) (owner : Option SubtreeId) (name : String)
    (params : List String) (body : Expr) : s.Appends (s.install owner name params body) := by
  have hgraph := graph_install s owner name params body
  have hstream := (registers_emitBody s name params body).stream.trans
    (s.registers_reserve name).stream
  refine ⟨evolves_install s owner name params body, fun _ => ⟨_, _, .of_eq ?_ ?_⟩⟩
  · rw [hgraph]
    rfl
  · change (s.emitBody name params body).2.state.root.stream.code = _
    rw [hstream]

theorem appends_dynamicFunctions (s : CompileState) (dynamicFunctions : DynamicFunctions) :
    s.Appends { s with dynamicFunctions } :=
  ⟨evolves_dynamicFunctions s dynamicFunctions, fun _ => ⟨_, _, .of_eq rfl rfl⟩⟩

theorem appends_defined (s : CompileState) (owner : Option SubtreeId) (name : String)
    (params : List String) (body : Expr) : s.Appends (s.defined owner name params body) := by
  unfold defined
  refine (s.appends_install owner name params body).trans ?_
  exact (appends_queueUsers _ (s.reserve name).1).trans (appends_dynamicFunctions _ _)

end CompileState

theorem stepwise_appends : CompileState.Stepwise CompileState.Appends :=
  ⟨.refl, .trans, CompileState.appends_retire, CompileState.appends_assigned,
    CompileState.appends_defined⟩

/-- A compilation adds statements after those of the program. -/
theorem appends_compiled (f : Fragment) (prior : CompileState) :
    prior.Appends (prior.compiled f) :=
  prior.appends_beginCompile.trans (stepwise_appends.compiled f prior)

/-! ### The top-level block -/

/-- The block `b'` is the same scope as `b`, with more blocks under it. -/
structure CodeBlock.Widens (b b' : CodeBlock) : Prop where
  id : b'.id = b.id
  kind : b'.kind = b.kind
  language : b'.language = b.language
  parent : b'.parent = b.parent
  breakable : b'.breakable = b.breakable
  children : b.children <+: b'.children

namespace CodeBlock.Widens

@[refl] theorem refl (b : CodeBlock) : b.Widens b := ⟨rfl, rfl, rfl, rfl, rfl, List.prefix_refl _⟩

theorem trans {b b' b'' : CodeBlock} (h : b.Widens b') (k : b'.Widens b'') : b.Widens b'' :=
  ⟨k.id.trans h.id, k.kind.trans h.kind, k.language.trans h.language, k.parent.trans h.parent,
    k.breakable.trans h.breakable, h.children.trans k.children⟩

/-- What a scope holds makes no difference. -/
theorem contents (b : CodeBlock) (globalSize : Nat) (symbols : SymbolTable)
    (procedures : ProcedureTable) (stream : Stream) :
    b.Widens { b with globalSize, symbols, procedures, stream } :=
  ⟨rfl, rfl, rfl, rfl, rfl, List.prefix_refl _⟩

end CodeBlock.Widens

namespace CompileState

/-- The top-level block of `t` is the same scope as that of `s`. -/
def Widens (s t : CompileState) : Prop := s.root.Widens t.root

theorem Widens.trans {s t u : CompileState} (h : s.Widens t) (k : t.Widens u) : s.Widens u :=
  CodeBlock.Widens.trans h k

theorem widens_declare (s : CompileState) (name : String) : s.Widens (s.declare name).2 := by
  unfold declare
  split
  · exact .refl _
  · exact .contents _ _ _ _ _

theorem widens_reserve (s : CompileState) (name : String) : s.Widens (s.reserve name).2 :=
  .contents _ _ _ _ _

end CompileState

/-- Emitting code leaves the top-level block the same scope. -/
theorem respected_widens (scope : Scope) :
    Respected scope fun m m' => m.state.Widens m'.state where
  refl m := .refl _
  trans h k := h.trans k
  name n m := by
    unfold emitName
    split
    · exact .refl _
    · split
      · exact .refl _
      · split
        · exact .refl _
        · exact m.state.widens_declare n
  callee n argc m := by
    unfold resolveCallee
    split
    · exact .refl _
    · split
      · exact .refl _
      · dsimp only
        repeat' split
        all_goals exact m.state.widens_reserve n
  use p m := .refl _

namespace CompileState

theorem widens_assigned (s : CompileState) (owner : Option SubtreeId) (target : String)
    (value : Expr) : s.Widens (s.assigned owner target value) := by
  have hbefore : s.Widens (s.beforeValue target) :=
    (s.widens_declare target).trans (.contents _ _ _ _ _)
  have hemit : (s.beforeValue target).Widens (s.emitValue target value).2.state :=
    (respected_widens {}).emit _ value { state := s.beforeValue target }
  exact (hbefore.trans hemit).trans (.contents _ _ _ _ _)

theorem widens_queueUsers (s : CompileState) (index : Nat) : s.Widens (s.queueUsers index) := by
  unfold queueUsers
  split
  · exact .refl _
  · exact .contents _ _ _ _ _

theorem widens_dynamicFunctions (s : CompileState) (dynamicFunctions : DynamicFunctions) :
    s.Widens { s with dynamicFunctions } := .refl _

theorem widens_defined (s : CompileState) (owner : Option SubtreeId) (name : String)
    (params : List String) (body : Expr) : s.Widens (s.defined owner name params body) := by
  -- the new block is one more child
  have hblock : s.Widens (s.beforeBody name params) :=
    ⟨rfl, rfl, rfl, rfl, rfl, List.prefix_append _ _⟩
  have hemit : (s.beforeBody name params).Widens (s.emitBody name params body).2.state :=
    (respected_widens _).emit 0 body { state := s.beforeBody name params }
  have hinstall : (s.emitBody name params body).2.state.Widens
      (s.install owner name params body) := .contents _ _ _ _ _
  have hqueue := (s.install owner name params body).widens_queueUsers (s.reserve name).1
  unfold defined
  exact (((hblock.trans hemit).trans hinstall).trans hqueue).trans (widens_dynamicFunctions _ _)

theorem widens_retire (s : CompileState) (subtree : SubtreeId) : s.Widens (s.retire subtree) := by
  have hwithout : s.Widens (s.withoutStatements subtree) := by
    obtain ⟨updates, heq⟩ := s.exists_withoutStatements_eq subtree
    rw [heq]
    exact .contents _ _ _ _ _
  rw [retire_eq]
  exact List.foldlRecOn (motive := fun t => s.Widens t) _ _ hwithout
    fun t ht p _ => ht.trans (.contents _ _ _ _ _)

end CompileState

theorem stepwise_widens : CompileState.Stepwise CompileState.Widens :=
  ⟨fun _ => .refl _, .trans, CompileState.widens_retire, CompileState.widens_assigned,
    CompileState.widens_defined⟩

/-- The top-level block stays the same scope. -/
theorem widens_compiled (f : Fragment) (prior : CompileState) :
    prior.Widens (prior.compiled f) := by
  have hbegin : prior.Widens prior.beginCompile := .contents _ _ _ _ _
  exact hbegin.trans (stepwise_widens.compiled f prior)

/-! ### Whole sessions -/

namespace CompileState

/-- The states that compilations and resets lead to from the empty one, with the state on top of which
the latest of the compilations was made. -/
inductive Reached : Option CompileState → CompileState → Prop
  | new : Reached none {}
  | compiled {last : Option CompileState} {s : CompileState} {f : Fragment} {image : CompiledImage}
      (before : Reached last s) (accepted : (compile f s).image = some image) :
      Reached (some s) image.state
  | resetForNewDelta {last : Option CompileState} {s : CompileState} (before : Reached last s) :
      Reached last s.resetForNewDelta
  | resetForFullExecution {last : Option CompileState} {s : CompileState}
      (before : Reached last s) : Reached last s.resetForFullExecution

/-- The statements of `s` that `prior` has no record of. -/
def nodesSince (s prior : CompileState) : List GraphNode :=
  s.graph.nodes.filter fun n => (prior.graph.node? n.id).isNone

theorem Adds.nodesSince_eq {s t : CompileState} {off : List Nat} {new : List GraphNode}
    (hs : s.Sound) (h : s.Adds t off new) : t.nodesSince s = new := by
  have hold : (s.graph.nodes.map (·.deactivatedIn off)).filter
      (fun n => (s.graph.node? n.id).isNone) = [] := by
    refine List.filter_eq_nil_iff.2 fun n hn => ?_
    obtain ⟨m, hm, rfl⟩ := List.mem_map.1 hn
    simp [hs.graph.node?_eq_some.2 ⟨hm, rfl⟩]
  have hnew : new.filter (fun n => (s.graph.node? n.id).isNone) = new := by
    refine List.filter_eq_self.2 fun n hn => ?_
    cases hnode : s.graph.node? n.id with
    | none => rfl
    | some m =>
      obtain ⟨hm, hid⟩ := hs.graph.node?_eq_some.1 hnode
      have := hs.ids m hm
      have := h.fresh n hn
      omega
  rw [nodesSince, h.nodes, List.filter_append, hold, hnew, List.nil_append]

/-- The code of a program is that of its statements, in the order in which they were compiled, and the
part from the entry on is that of the statements that the latest compilation has added. -/
structure Laid (last : Option CompileState) (s : CompileState) : Prop where
  sound : s.Sound
  all : s.root.stream.Tiled s.graph.nodes 0 s.root.stream.size
  latest : ∀ prior, last = some prior → prior.fullExecution = false →
    ∃ entry, s.root.stream.entry = some entry ∧
      s.root.stream.Tiled (s.nodesSince prior) entry s.root.stream.size

namespace Laid

variable {last : Option CompileState} {s : CompileState}

/-- A reset concerns the next run only. -/
theorem scheduled (h : Laid last s) (updates : List UpdateRoot) (full : Bool) :
    Laid last (s.scheduled s.root.stream.entry updates full) := by
  have hat : ∀ pc i, s.root.stream.at? pc = some i →
      (s.scheduled s.root.stream.entry updates full).root.stream.at? pc = some i :=
    fun _ _ hi => hi
  refine ⟨(s.evolves_scheduled _ updates full h.sound).1, h.all.mono hat,
    fun prior hlast hfull => ?_⟩
  obtain ⟨entry, hentry, htiled⟩ := h.latest prior hlast hfull
  exact ⟨entry, hentry, htiled.mono hat⟩

theorem compiled (h : Laid last s) (f : Fragment) : Laid (some s) (s.compiled f) := by
  obtain ⟨hsound, hext⟩ := evolves_compiled f s h.sound
  obtain ⟨off, new, hadds⟩ := (appends_compiled f s).2 h.sound
  refine ⟨hsound, hadds.all hext h.all, ?_⟩
  rintro prior ⟨⟩ hfull
  have hbegin := (s.evolves_beginCompile h.sound).1
  have hentry : (s.compiled f).root.stream.entry = some s.root.stream.size := by
    rw [((tracked_compiled f s).2 hbegin).entry]
    simp [beginCompile, modifyStream, hfull]
  refine ⟨_, hentry, ?_⟩
  rw [hadds.nodesSince_eq h.sound]
  exact hadds.tiled

end Laid

theorem Reached.laid {last : Option CompileState} {s : CompileState} (h : Reached last s) :
    Laid last s := by
  induction h with
  | new => exact ⟨sound_empty, .nil 0, fun _ h => by cases h⟩
  | @compiled last s f image _ accepted ih =>
    rw [compile_image accepted]
    exact ih.compiled f
  | resetForNewDelta _ ih => exact ih.scheduled [] false
  | resetForFullExecution _ ih => exact ih.scheduled [] true

/-- Compiled code is appended and never rewritten. Whatever compiles next, the code, the blocks, the
symbols, the procedures and the function pointers of the program are where they were, and so are the
records of its statements, of which some may be deactivated. The ranges of all statements fill the
code in the order of their numbers, and unless the latest compilation runs everything again, those of
its own statements fill what comes after the entry. -/
theorem Reached.append_only {last : Option CompileState} {s : CompileState} (h : Reached last s) :
    (∀ f image, (compile f s).image = some image →
      s.Extends image.state ∧ s.root.Widens image.state.root ∧
        ∃ off new, image.state.graph.nodes = s.graph.nodes.map (·.deactivatedIn off) ++ new) ∧
    Keyed.Sorted GraphNode.id s.graph.nodes ∧
    s.root.stream.Tiled s.graph.nodes 0 s.root.stream.size ∧
    ∀ prior, last = some prior → prior.fullExecution = false →
      ∃ entry, s.root.stream.entry = some entry ∧
        s.root.stream.Tiled (s.nodesSince prior) entry s.root.stream.size := by
  have hlaid := h.laid
  refine ⟨fun f image hcompile => ?_, hlaid.sound.graph.nodes, hlaid.all, hlaid.latest⟩
  obtain ⟨off, new, hadds⟩ := (appends_compiled f s).2 hlaid.sound
  rw [compile_image hcompile]
  exact ⟨(evolves_compiled f s hlaid.sound).2, widens_compiled f s, off, new, hadds.nodes⟩

/-- A subtree is compiled a second time. The code of its first version stays, and that of the second
one comes after it. -/
theorem Reached.append_only_again : ∃ first second : CompiledImage,
    (compile { units := [⟨some (.ofNat 0), "a = 1;"⟩] } {}).image = some first ∧
    (compile { units := [⟨some (.ofNat 0), "a = 2;"⟩], retired := [.ofNat 0] } first.state).image =
      some second ∧
    first.state.Extends second.state ∧
    second.state.graph.nodes.map (·.isActive) = [false, true] ∧
    second.state.root.stream.entry = some 2 ∧ second.state.root.stream.Tiled
      (second.state.nodesSince first.state) 2 second.state.root.stream.size := by
  obtain ⟨first, hfirst⟩ := Option.isSome_iff_exists.1
    (show (compile { units := [⟨some (.ofNat 0), "a = 1;"⟩] } {}).image.isSome by decide +kernel)
  have hsecond : (compile { units := [⟨some (.ofNat 0), "a = 2;"⟩], retired := [.ofNat 0] }
      first.state).image.isSome := by
    rw [compile_image hfirst]
    decide +kernel
  obtain ⟨second, hsecond⟩ := Option.isSome_iff_exists.1 hsecond
  have hfull : first.state.fullExecution = false := by
    rw [compile_image hfirst]
    decide +kernel
  have hnodes : second.state.graph.nodes.map (·.isActive) = [false, true] := by
    rw [compile_image hsecond, compile_image hfirst]
    decide +kernel
  have hstart : second.state.root.stream.entry = some 2 := by
    rw [compile_image hsecond, compile_image hfirst]
    decide +kernel
  have hreached := Reached.compiled .new hfirst
  obtain ⟨hextends, -, -⟩ := hreached.append_only.1 _ _ hsecond
  obtain ⟨entry, hentry, htiled⟩ := (hreached.compiled hsecond).append_only.2.2.2 _ rfl hfull
  obtain rfl : entry = 2 := Option.some.inj (hentry.symm.trans hstart)
  exact ⟨first, second, hfirst, hsecond, hextends, hnodes, hstart, htiled⟩

/-- Every instruction of the top-level code belongs to one statement. -/
theorem Reached.existsUnique_statement {last : Option CompileState} {s : CompileState}
    (h : Reached last s) {pc : Nat} (hpc : pc < s.root.stream.size) :
    ∃! n, n ∈ s.graph.nodes ∧ n.start ≤ pc ∧ pc < n.stop :=
  h.laid.all.existsUnique (Nat.zero_le pc) hpc

end CompileState

end Reflow
