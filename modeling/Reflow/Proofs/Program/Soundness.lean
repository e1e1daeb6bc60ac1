import Reflow.Proofs.Code.Frames
import Reflow.Proofs.Program.Registration
/-!
# Sound programs

A program that was compiled step by step is sound: the record of every statement describes code that
evaluates an expression and stores the value, every active procedure has a body that evaluates an
expression and returns the value, and what the code refers to is in the tables and on record. Later
states of the program only add to it.

## Main definitions

* `CompileState.Assigns`: the code of a statement.
* `CompileState.Computes`: the code of a procedure.
* `CompileState.Sound`: all statements and all active procedures have such code.
* `CompileState.Extends`: a later state of the program.
* `CompileState.Evolves`: a step that keeps a program sound and only adds to it.
* `CompileState.Stepwise`: what every step of a compilation keeps.

## Main results

* `evolves_assigned`, `evolves_defined`, `evolves_retire`: the steps of a compilation.
* `compile_eq`: what a compilation gives.
* `evolves_compiled`: a whole compilation.
-/

namespace Reflow

theorem getElem?_of_isPrefix {α : Type} {l l' : List α} (h : l <+: l') {i : Nat} {a : α}
    (ha : l[i]? = some a) : l'[i]? = some a := by
  obtain ⟨more, rfl⟩ := h
  rw [List.getElem?_append_left (List.getElem?_eq_some_iff.1 ha).1]
  exact ha

/-- A name keeps its slot while the table only grows. -/
theorem indexOf?_of_isPrefix {names names' : SymbolTable} (h : names.symbols <+: names'.symbols)
    {name : String} {i : Nat} (hi : names.indexOf? name = some i) :
    names'.indexOf? name = some i := by
  obtain ⟨more, hmore⟩ := h
  rw [SymbolTable.indexOf?, ← hmore]
  exact findIdx?_append_of_some hi

/-- Two names of one slot are the same name. -/
theorem eq_of_indexOf? {names : SymbolTable} {x y : String} {i : Nat}
    (hx : names.indexOf? x = some i) (hy : names.indexOf? y = some i) : x = y := by
  obtain ⟨_, hx, -⟩ := List.findIdx?_eq_some_iff_getElem.1 hx
  obtain ⟨_, hy, -⟩ := List.findIdx?_eq_some_iff_getElem.1 hy
  exact (eq_of_beq hx).symm.trans (eq_of_beq hy)

/-- What an instruction refers to stays in the tables while these only grow. -/
theorem Instruction.Within.mono {s t : CompileState} {uses : List Vertex} {i : Instruction}
    (hi : i.Within s uses) (hslots : s.globalCount ≤ t.globalCount)
    (hpointers : s.pointers.targets <+: t.pointers.targets) : i.Within t uses := by
  cases i with
  | loadGlobal slot => exact ⟨Nat.lt_of_lt_of_le hi.1 hslots, hi.2⟩
  | pushFunction pointer =>
    obtain ⟨p, hp, hu⟩ := hi
    exact ⟨p, getElem?_of_isPrefix hpointers hp, hu⟩
  | call p argc => exact hi
  | _ => trivial

namespace CompileState

/-- The statement `n` evaluates the expression `e` under the names `σ` and stores the value in a
slot. -/
structure Assigns (s : CompileState) (n : GraphNode) (slot : Nat) (σ : Naming) (e : Expr) :
    Prop where
  defines : n.defines = some (.global slot)
  allocated : slot < s.globalCount
  carries : s.root.stream.Carries n.start (e.code σ n.start ++ [.storeGlobal slot])
  stop : n.stop = n.start + (e.code σ n.start).length + 1
  within : ∀ i ∈ e.code σ n.start, i.Within s n.uses

/-- The procedure `p`, whose uses are those on record in `u`, evaluates the expression `e` under the
names `σ` in the block `block`. -/
structure Computes (s : CompileState) (p : Procedure) (u : ProcedureUses) (block : CodeBlock)
    (σ : Naming) (e : Expr) : Prop where
  body : ∃ b, p.body = some (b + 1) ∧ s.bodies[b]? = some block
  code : block.stream.code.toList = e.code σ 0 ++ [.ret]
  start : p.start = 0
  stop : p.stop = (e.code σ 0).length + 1
  recorded : u ∈ s.graph.procedures
  procedure : u.procedure = p.index
  within : ∀ i ∈ e.code σ 0, i.Within s u.uses

/-- Every statement and every active procedure has code of its shape. -/
structure Sound (s : CompileState) : Prop where
  graph : s.graph.Sound
  tabled : s.Tabled
  /-- Only the top-level block has procedures, and all others lie in it. -/
  bodies : ∀ block ∈ s.bodies, block.procedures.procedures = [] ∧ block.parent = some 0
  ids : ∀ n ∈ s.graph.nodes, n.id < s.nextExpr
  statements : ∀ n ∈ s.graph.nodes, ∃ slot σ e, s.Assigns n slot σ e
  functions : ∀ p ∈ s.root.procedures.procedures, p.isActive = true →
    ∃ u block σ e, s.Computes p u block σ e

/-- `t` holds all that `s` holds: code, function bodies, globals, function pointers and the names of
procedures. -/
structure Extends (s t : CompileState) : Prop where
  code : s.root.stream.code.toList <+: t.root.stream.code.toList
  bodies : s.bodies <+: t.bodies
  slots : s.globalCount ≤ t.globalCount
  symbols : s.root.symbols.symbols <+: t.root.symbols.symbols
  pointers : s.pointers.targets <+: t.pointers.targets
  names : s.root.procedures.procedures.map Procedure.name <+:
    t.root.procedures.procedures.map Procedure.name
  nextExpr : s.nextExpr ≤ t.nextExpr

/-- A step from `s` to `t` keeps a program sound and only adds to it. -/
def Evolves (s t : CompileState) : Prop := s.Sound → t.Sound ∧ s.Extends t

theorem getElem?_modify_eq_some {α : Type} {l : List α} {f : α → α} {i j : Nat} {b : α} :
    (l.modify i f)[j]? = some b ↔ ∃ a, l[j]? = some a ∧ b = if i = j then f a else a := by
  rw [List.getElem?_modify, Option.map_eq_map, Option.map_eq_some_iff]
  simp [eq_comm]

/-- The image of a changed element is changed likewise. -/
theorem map_modify {α β : Type} {g : α → β} {f : α → α} {f' : β → β} (h : ∀ a, g (f a) = f' (g a))
    {l : List α} {i : Nat} : (l.modify i f).map g = (l.map g).modify i f' := by
  refine List.ext_getElem? fun j => ?_
  simp only [List.getElem?_map, List.getElem?_modify]
  cases l[j]? with
  | none => rfl
  | some a =>
    simp only [Option.map_eq_map, Option.map_some]
    split
    · rw [h]
    · rfl

/-- Changing one element without its image changes no image. -/
theorem map_modify_self {α β : Type} {g : α → β} {f : α → α} (h : ∀ a, g (f a) = g a) {l : List α}
    {i : Nat} : (l.modify i f).map g = l.map g := by
  have hid : ∀ a, g (f a) = id (g a) := h
  rw [map_modify hid, List.modify_id]

namespace Extends

@[refl] theorem refl (s : CompileState) : s.Extends s :=
  ⟨List.prefix_refl _, List.prefix_refl _, Nat.le_refl _, List.prefix_refl _, List.prefix_refl _,
    List.prefix_refl _, Nat.le_refl _⟩

theorem trans {s t u : CompileState} (h : s.Extends t) (k : t.Extends u) : s.Extends u :=
  ⟨h.code.trans k.code, h.bodies.trans k.bodies, Nat.le_trans h.slots k.slots,
    h.symbols.trans k.symbols, h.pointers.trans k.pointers, h.names.trans k.names,
    Nat.le_trans h.nextExpr k.nextExpr⟩

variable {s t : CompileState}

theorem at? (h : s.Extends t) {pc : Nat} {i : Instruction} (hi : s.root.stream.at? pc = some i) :
    t.root.stream.at? pc = some i := by
  rw [Stream.at?, ← Array.getElem?_toList] at hi ⊢
  exact getElem?_of_isPrefix h.code hi

theorem carries (h : s.Extends t) {base : Nat} {code : List Instruction}
    (hs : s.root.stream.Carries base code) : t.root.stream.Carries base code :=
  fun i c hc => h.at? (hs i c hc)

theorem within (h : s.Extends t) {uses : List Vertex} {i : Instruction} (hi : i.Within s uses) :
    i.Within t uses := hi.mono h.slots h.pointers

theorem assigns (h : s.Extends t) {n : GraphNode} {slot : Nat} {σ : Naming} {e : Expr}
    (hn : s.Assigns n slot σ e) : t.Assigns n slot σ e :=
  ⟨hn.defines, Nat.lt_of_lt_of_le hn.allocated h.slots, h.carries hn.carries, hn.stop,
    fun i hi => h.within (hn.within i hi)⟩

theorem computes (h : s.Extends t) {p : Procedure} {u : ProcedureUses} {block : CodeBlock}
    {σ : Naming} {e : Expr} (hp : s.Computes p u block σ e) (hu : u ∈ t.graph.procedures) :
    t.Computes p u block σ e := by
  obtain ⟨b, hb, hblock⟩ := hp.body
  exact ⟨⟨b, hb, getElem?_of_isPrefix h.bodies hblock⟩, hp.code, hp.start, hp.stop, hu, hp.procedure,
    fun i hi => h.within (hp.within i hi)⟩

/-- A statement of a sound program still has its code after an extension. -/
theorem statement (h : s.Extends t) (hs : s.Sound) {n : GraphNode} (hn : n ∈ s.graph.nodes) :
    ∃ slot σ e, t.Assigns n slot σ e := by
  obtain ⟨slot, σ, e, hassigns⟩ := hs.statements n hn
  exact ⟨slot, σ, e, h.assigns hassigns⟩

/-- An active procedure of a sound program still has its code after an extension, if its uses stay on
record. -/
theorem function (h : s.Extends t) (hs : s.Sound) {p : Procedure}
    (hp : p ∈ s.root.procedures.procedures) (hon : p.isActive = true)
    (hrecorded : ∀ u ∈ s.graph.procedures, u.procedure = p.index → u ∈ t.graph.procedures) :
    ∃ u block σ e, t.Computes p u block σ e := by
  obtain ⟨u, block, σ, e, hcomputes⟩ := hs.functions p hp hon
  exact ⟨u, block, σ, e, h.computes hcomputes (hrecorded u hcomputes.recorded hcomputes.procedure)⟩

end Extends

/-- The code of a statement is what stands in its range. -/
theorem Assigns.code_eq {s : CompileState} {n : GraphNode} {slot slot' : Nat} {σ σ' : Naming}
    {e e' : Expr} (h : s.Assigns n slot σ e) (h' : s.Assigns n slot' σ' e') :
    slot' = slot ∧ e'.code σ' n.start = e.code σ n.start := by
  have hslot : slot' = slot := by
    have := h'.defines.symm.trans h.defines
    simpa [SymbolKey.global] using this
  have hlength : (e'.code σ' n.start).length = (e.code σ n.start).length := by
    have := h.stop
    have := h'.stop
    omega
  refine ⟨hslot, List.ext_getElem? fun i => ?_⟩
  by_cases hi : i < (e.code σ n.start).length
  · have hi' : i < (e'.code σ' n.start).length := hlength ▸ hi
    have hat := h.carries.left i _ (List.getElem?_eq_getElem hi)
    have hat' := h'.carries.left i _ (List.getElem?_eq_getElem hi')
    rw [List.getElem?_eq_getElem hi, List.getElem?_eq_getElem hi', ← hat, ← hat']
  · rw [List.getElem?_eq_none (Nat.le_of_not_lt hi),
      List.getElem?_eq_none (Nat.le_of_not_lt (hlength ▸ hi))]

/-- A statement evaluates every expression that has its code. -/
theorem Assigns.of_code {s : CompileState} {n : GraphNode} {slot : Nat} {σ σ' : Naming}
    {e e' : Expr} (h : s.Assigns n slot σ e) (hcode : e'.code σ' n.start = e.code σ n.start) :
    s.Assigns n slot σ' e' :=
  ⟨h.defines, h.allocated, hcode ▸ h.carries, hcode ▸ h.stop, hcode ▸ h.within⟩

/-- What the code of a statement is in a later state, it was before. -/
theorem Extends.assigns_back {s t : CompileState} (hext : s.Extends t) {n : GraphNode}
    {slot slot' : Nat} {σ σ' : Naming} {e e' : Expr} (hs : s.Assigns n slot' σ' e')
    (ht : t.Assigns n slot σ e) : s.Assigns n slot σ e := by
  obtain ⟨rfl, hcode⟩ := ht.code_eq (hext.assigns hs)
  exact hs.of_code hcode.symm

theorem Assigns.deactivated {s : CompileState} {n : GraphNode} {slot : Nat} {σ : Naming} {e : Expr}
    (h : s.Assigns n slot σ e) : s.Assigns n.deactivated slot σ e :=
  ⟨h.defines, h.allocated, h.carries, h.stop, h.within⟩

theorem sound_empty : Sound {} where
  graph := DependencyGraph.sound_empty
  tabled := ⟨rfl, fun i symbol h => by simp [CodeBlock.fresh] at h,
    fun i p h => by simp [CodeBlock.fresh] at h, fun target h => by simp at h, List.nodup_nil, rfl⟩
  bodies := fun _ h => by cases h
  ids := fun _ h => by cases h
  statements := fun _ h => by cases h
  functions := fun _ h => by cases h

namespace Evolves

@[refl] theorem refl (s : CompileState) : s.Evolves s := fun h => ⟨h, .refl s⟩

theorem trans {s t u : CompileState} (h : s.Evolves t) (k : t.Evolves u) : s.Evolves u := fun hs =>
  ⟨(k (h hs).1).1, (h hs).2.trans (k (h hs).1).2⟩

theorem foldl {α : Type} {f : CompileState → α → CompileState} (h : ∀ s a, Evolves s (f s a))
    (l : List α) (s : CompileState) : s.Evolves (l.foldl f s) :=
  List.foldlRecOn l f (.refl s) fun t ht a _ => ht.trans (h t a)

end Evolves

/-! ### Changes that no code depends on -/

/-- What has to run next changes, and nothing else. -/
def scheduled (s : CompileState) (entry : Option Nat) (updates : List UpdateRoot) (full : Bool) :
    CompileState :=
  { s.modifyStream (fun stream => { stream with entry, updates }) with fullExecution := full }

theorem evolves_scheduled (s : CompileState) (entry : Option Nat) (updates : List UpdateRoot)
    (full : Bool) : s.Evolves (s.scheduled entry updates full) := by
  intro h
  have hext : s.Extends (s.scheduled entry updates full) :=
    ⟨List.prefix_refl _, List.prefix_refl _, Nat.le_refl _, List.prefix_refl _, List.prefix_refl _,
      List.prefix_refl _, Nat.le_refl _⟩
  refine ⟨⟨h.graph, ⟨h.tabled.slots, h.tabled.symbols, h.tabled.procedures, h.tabled.targets,
      h.tabled.names, h.tabled.parent⟩,
    h.bodies, h.ids, fun _ => hext.statement h, fun _ hp hon => hext.function h hp hon fun _ hu _ => hu⟩,
    hext⟩

theorem evolves_pushUpdate (s : CompileState) (root : UpdateRoot) : s.Evolves (s.pushUpdate root) :=
  s.evolves_scheduled s.root.stream.entry (s.root.stream.updates ++ [root]) s.fullExecution

theorem evolves_beginCompile (s : CompileState) : s.Evolves s.beginCompile :=
  s.evolves_scheduled _ _ _

/-- Registering names keeps a program sound. -/
theorem Registers.evolves {s t : CompileState} (hr : s.Registers t) : s.Evolves t := by
  intro h
  have htabled := hr.tabled h.tabled
  have hext : s.Extends t := by
    refine ⟨hr.stream ▸ List.prefix_refl _, hr.bodies ▸ List.prefix_refl _, ?_, hr.symbols,
      hr.pointers, List.IsPrefix.map _ hr.procedures, hr.nextExpr ▸ Nat.le_refl _⟩
    have hlength := hr.symbols.length_le
    have hs := h.tabled.slots
    have ht := htabled.slots
    simp only [globalCount]
    omega
  have hgraph := hr.graph
  refine ⟨⟨hgraph ▸ h.graph, htabled, hr.bodies ▸ h.bodies, ?_, ?_, ?_⟩, hext⟩
  · rw [hgraph, hr.nextExpr]
    exact h.ids
  · rw [hgraph]
    exact fun n => hext.statement h
  · exact fun p hp hon => hext.function h (hr.mem_of_active hp hon) hon fun u hu _ => hgraph ▸ hu

/-! ### Deactivating -/

theorem evolves_deactivate (s : CompileState) (ids : List Nat) :
    s.Evolves (s.modifyGraph fun g => ids.foldl DependencyGraph.deactivate g) := by
  intro h
  have hext : s.Extends (s.modifyGraph fun g => ids.foldl DependencyGraph.deactivate g) :=
    ⟨List.prefix_refl _, List.prefix_refl _, Nat.le_refl _, List.prefix_refl _, List.prefix_refl _,
      List.prefix_refl _, Nat.le_refl _⟩
  refine ⟨⟨h.graph.foldl_deactivate ids,
    ⟨h.tabled.slots, h.tabled.symbols, h.tabled.procedures, h.tabled.targets, h.tabled.names,
      h.tabled.parent⟩,
    h.bodies, fun m hm => ?_, fun m hm => ?_, fun p hp hon => ?_⟩, hext⟩
  · obtain ⟨n, hn, rfl⟩ := h.graph.mem_foldl_deactivate.1 hm
    have := h.ids n hn
    split <;> exact this
  · obtain ⟨n, hn, rfl⟩ := h.graph.mem_foldl_deactivate.1 hm
    obtain ⟨slot, σ, e, hassigns⟩ := h.statements n hn
    refine ⟨slot, σ, e, ?_⟩
    split
    · exact (hext.assigns hassigns).deactivated
    · exact hext.assigns hassigns
  · refine hext.function h hp hon fun u hu _ => ?_
    change u ∈ (ids.foldl DependencyGraph.deactivate s.graph).procedures
    rwa [DependencyGraph.foldl_deactivate_procedures]

theorem evolves_supersede (s : CompileState) (slot : Nat) : s.Evolves (s.supersede slot) :=
  s.evolves_deactivate _

/-- A procedure is retired. -/
def retireProcedure (s : CompileState) (index : Nat) : CompileState :=
  (({ s with root := { s.root with procedures := s.root.procedures.retire index } } :
    CompileState).modifyGraph (·.retireProcedure index)).pushUpdate (.procedure index)

theorem evolves_retireProcedure (s : CompileState) (index : Nat) :
    s.Evolves (s.retireProcedure index) := by
  refine .trans ?_ (evolves_pushUpdate _ _)
  intro h
  have hext : s.Extends (({ s with root := { s.root with
      procedures := s.root.procedures.retire index } } : CompileState).modifyGraph
        (·.retireProcedure index)) := by
    refine ⟨List.prefix_refl _, List.prefix_refl _, Nat.le_refl _, List.prefix_refl _,
      List.prefix_refl _, ?_, Nat.le_refl _⟩
    change _ <+: (s.root.procedures.procedures.modify index _).map Procedure.name
    have hname : ∀ p : Procedure, ({ p with isActive := false } : Procedure).name = p.name :=
      fun _ => rfl
    exact (map_modify_self hname (i := index)).symm ▸ List.prefix_refl _
  refine ⟨⟨h.graph.retireProcedure index, ⟨h.tabled.slots, h.tabled.symbols, fun i p hp => ?_, ?_,
      h.tabled.names, h.tabled.parent⟩,
    h.bodies, h.ids, fun _ => hext.statement h, fun p hp hon => ?_⟩, hext⟩
  · obtain ⟨q, hq, rfl⟩ := getElem?_modify_eq_some.1 hp
    split <;> exact h.tabled.procedures i q hq
  · intro target htarget
    obtain ⟨p, hp, rfl⟩ := h.tabled.targets target htarget
    exact ⟨p, by simpa [modifyGraph, modifyStream, ProcedureTable.retire] using hp, rfl⟩
  · obtain ⟨i, hp⟩ := List.mem_iff_getElem?.1 hp
    obtain ⟨q, hq, rfl⟩ := getElem?_modify_eq_some.1 hp
    split at hon
    · cases hon
    · rename_i hi
      rw [if_neg hi]
      refine hext.function h (List.mem_of_getElem? hq) hon fun u hu hindex => List.mem_filter.2 ⟨hu, ?_⟩
      rw [hindex, h.tabled.procedures i q hq]
      simpa using Ne.symm hi

/-- The statements of a subtree are deactivated. -/
def deactivateOwned (s : CompileState) (subtree : SubtreeId) : CompileState :=
  s.modifyGraph fun g => ((g.nodesOwnedBy subtree).map GraphNode.id).foldl .deactivate g

/-- The writers of a symbol are queued, if there are any and they are not queued yet. -/
def queueWriters (s : CompileState) (key : SymbolKey) : CompileState :=
  if s.graph.writersOf key = [] ∨ .symbol key ∈ s.root.stream.updates then s
  else s.pushUpdate (.symbol key)

/-- The statements of a subtree are deactivated, and what they assign is queued. -/
def withoutStatements (s : CompileState) (subtree : SubtreeId) : CompileState :=
  ((s.graph.nodesOwnedBy subtree).filterMap (·.defines)).foldl queueWriters
    (s.deactivateOwned subtree)

/-- Queueing symbols changes only what has to run next. -/
theorem exists_scheduled_foldl_queueWriters (keys : List SymbolKey) (s : CompileState) :
    ∃ updates, keys.foldl queueWriters s =
      s.scheduled s.root.stream.entry updates s.fullExecution := by
  induction keys generalizing s with
  | nil => exact ⟨s.root.stream.updates, rfl⟩
  | cons key rest ih =>
    obtain ⟨updates, hrest⟩ := ih (s.queueWriters key)
    refine ⟨updates, hrest.trans ?_⟩
    unfold queueWriters
    split <;> rfl

/-- What statements that are deactivated have assigned is queued, and nothing else changes. -/
theorem exists_withoutStatements_eq (s : CompileState) (id : SubtreeId) :
    ∃ updates, s.withoutStatements id = (s.deactivateOwned id).scheduled
      (s.deactivateOwned id).root.stream.entry updates (s.deactivateOwned id).fullExecution :=
  exists_scheduled_foldl_queueWriters _ _

/-- The active procedures of a subtree. -/
def proceduresOwnedBy (s : CompileState) (subtree : SubtreeId) : List Procedure :=
  s.root.procedures.procedures.filter fun p => p.isActive ∧ p.owner = some subtree

theorem retire_eq (s : CompileState) (subtree : SubtreeId) : s.retire subtree =
    ((s.withoutStatements subtree).proceduresOwnedBy subtree).foldl
      (fun s p => s.retireProcedure p.index) (s.withoutStatements subtree) := by
  have hgraph : (s.graph.deactivateOwner subtree).2 =
      ((s.graph.nodesOwnedBy subtree).map GraphNode.id).foldl DependencyGraph.deactivate s.graph :=
    List.foldl_map.symm
  have hkeys : (s.graph.deactivateOwner subtree).1.filterMap (·.defines) =
      (s.graph.nodesOwnedBy subtree).filterMap (·.defines) := List.filterMap_map
  unfold retire
  rw [← Prod.eta (s.graph.deactivateOwner subtree)]
  dsimp only
  rw [hkeys, hgraph]
  rfl

theorem evolves_withoutStatements (s : CompileState) (subtree : SubtreeId) :
    s.Evolves (s.withoutStatements subtree) := by
  obtain ⟨updates, heq⟩ := s.exists_withoutStatements_eq subtree
  rw [heq]
  exact .trans (s.evolves_deactivate _) (evolves_scheduled _ _ _ _)

theorem evolves_retire (s : CompileState) (subtree : SubtreeId) : s.Evolves (s.retire subtree) := by
  rw [retire_eq]
  refine (s.evolves_withoutStatements subtree).trans ?_
  exact .foldl (fun s (p : Procedure) => s.evolves_retireProcedure p.index) _ _

/-- A record that follows a sound program when a subtree is retired follows it when several are. -/
theorem Sound.foldl_retire {α : Type} {R : CompileState → α → Prop} {f : α → SubtreeId → α}
    (hstep : ∀ {s : CompileState} {a : α}, s.Sound → R s a → ∀ id, R (s.retire id) (f a id))
    (ids : List SubtreeId) {s : CompileState} {a : α} (hs : s.Sound) (h : R s a) :
    R (ids.foldl retire s) (ids.foldl f a) := by
  have hboth := List.foldl_rel (l := ids) (r := fun s a => s.Sound ∧ R s a) ⟨hs, h⟩
    fun id _ s a h => ⟨(s.evolves_retire id h.1).1, hstep h.1 h.2 id⟩
  exact hboth.2

/-! ### Adding a statement -/

theorem code_foldl_push (code : List Instruction) (stream : Stream) :
    code.foldl Stream.push stream = { stream with code := stream.code ++ code.toArray } := by
  induction code generalizing stream with
  | nil => simp
  | cons i rest ih =>
    rw [List.foldl_cons, ih]
    simp [Stream.push]

/-- Code appended to a stream stands at its end. -/
theorem carries_append {stream : Stream} {code : List Instruction} :
    ({ stream with code := stream.code ++ code.toArray } : Stream).Carries stream.size code := by
  intro i c hc
  simp [Stream.at?, Stream.size, Array.getElem?_append, hc]

/-- The state with the code of one more statement and its record. -/
def append (s : CompileState) (code : List Instruction) (n : GraphNode) : CompileState :=
  { s with
    nextExpr := n.id + 1
    root := { s.root with stream := { s.root.stream with
      code := s.root.stream.code ++ code.toArray
      graph := s.root.stream.graph.insertNode n } } }

section Append

variable {s : CompileState} {n : GraphNode} {slot : Nat} {σ : Naming} {e : Expr}

theorem extends_append (hid : n.id = s.nextExpr) (code : List Instruction) :
    s.Extends (s.append code n) := by
  refine ⟨?_, List.prefix_refl _, Nat.le_refl _, List.prefix_refl _, List.prefix_refl _,
    List.prefix_refl _, ?_⟩
  · simp [append]
  · simp only [append, hid]
    omega

/-- The statement that is added has the code that is added. -/
theorem assigns_append (hid : n.id = s.nextExpr) (hdefines : n.defines = some (.global slot))
    (hslot : slot < s.globalCount) (hstart : n.start = s.root.stream.size)
    (hstop : n.stop = n.start + (e.code σ n.start).length + 1)
    (hwithin : ∀ i ∈ e.code σ n.start, i.Within s n.uses) :
    (s.append (e.code σ n.start ++ [.storeGlobal slot]) n).Assigns n slot σ e := by
  have hext := extends_append hid (e.code σ n.start ++ [.storeGlobal slot])
  refine ⟨hdefines, hslot, ?_, hstop, fun i hi => hext.within (hwithin i hi)⟩
  rw [hstart]
  exact carries_append

theorem evolves_append (hid : n.id = s.nextExpr) (hdefines : n.defines = some (.global slot))
    (hslot : slot < s.globalCount) (hstart : n.start = s.root.stream.size)
    (hstop : n.stop = n.start + (e.code σ n.start).length + 1)
    (hwithin : ∀ i ∈ e.code σ n.start, i.Within s n.uses) :
    s.Evolves (s.append (e.code σ n.start ++ [.storeGlobal slot]) n) := by
  intro h
  have hext := extends_append hid (e.code σ n.start ++ [.storeGlobal slot])
  have hfresh : ∀ m ∈ s.graph.nodes, m.id ≠ n.id := by
    intro m hm
    have := h.ids m hm
    omega
  refine ⟨⟨h.graph.insertNode hfresh,
    ⟨h.tabled.slots, h.tabled.symbols, h.tabled.procedures, h.tabled.targets, h.tabled.names,
      h.tabled.parent⟩, h.bodies,
    fun m hm => ?_, fun m hm => ?_, fun p hp hon => ?_⟩, hext⟩
  · rcases (h.graph.mem_insertNode hfresh).1 hm with rfl | hm
    · exact Nat.lt_succ_self _
    · have := h.ids m hm
      simp only [append, hid]
      omega
  · rcases (h.graph.mem_insertNode hfresh).1 hm with rfl | hm
    · exact ⟨slot, σ, e, assigns_append hid hdefines hslot hstart hstop hwithin⟩
    · exact hext.statement h hm
  · refine hext.function h hp hon fun u hu _ => ?_
    change u ∈ (s.graph.insertNode n).procedures
    rwa [DependencyGraph.insertNode_procedures]

end Append

end CompileState

/-- The state in which the value of an assignment is compiled. -/
def CompileState.beforeValue (s : CompileState) (target : String) : CompileState :=
  (s.declare target).2.supersede (s.declare target).1

/-- The code of the value of an assignment. -/
def CompileState.emitValue (s : CompileState) (target : String) (value : Expr) :
    List Instruction × Emission :=
  emit {} (s.beforeValue target).root.stream.size value { state := s.beforeValue target }

/-- The record of an assignment. -/
def CompileState.assignmentNode (s : CompileState) (owner : Option SubtreeId) (target : String)
    (value : Expr) : GraphNode where
  id := (s.emitValue target value).2.state.nextExpr
  owner
  defines := some (.global (s.declare target).1)
  reads := (s.emitValue target value).2.reads.map .global
  calls := (s.emitValue target value).2.calls
  start := (s.beforeValue target).root.stream.size
  stop := (s.beforeValue target).root.stream.size + (s.emitValue target value).1.length + 1

/-- The state after an assignment. -/
def CompileState.assigned (s : CompileState) (owner : Option SubtreeId) (target : String)
    (value : Expr) : CompileState :=
  (s.emitValue target value).2.state.append
    ((s.emitValue target value).1 ++ [.storeGlobal (s.declare target).1])
    (s.assignmentNode owner target value)

section Assignment

variable {owner : Option SubtreeId} {target : String} {value : Expr} {s t : CompileState}
  {warnings : List String}

theorem registers_emitValue (s : CompileState) (target : String) (value : Expr) :
    (s.beforeValue target).Registers (s.emitValue target value).2.state :=
  ((respected_grows {}).emit _ value { state := s.beforeValue target }).state

theorem compileAssignment_eq (s : CompileState) (owner : Option SubtreeId) (target : String)
    (value : Expr) : compileAssignment owner target value s =
      if s.isFunction target then .error (.assignToFunction target)
      else .ok ((s.emitValue target value).2.warnings, s.assigned owner target value) := by
  have hstream := (registers_emitValue s target value).stream
  unfold compileAssignment
  split
  · rfl
  · have hsize : (s.emitValue target value).2.state.root.stream.size =
        (s.beforeValue target).root.stream.size := by rw [hstream]
    simp only [CompileState.modifyStream, CompileState.modifyGraph, CompileState.code_foldl_push,
      CompileState.assigned, CompileState.append, CompileState.assignmentNode]
    simp only [CompileState.emitValue, CompileState.beforeValue, Stream.size, Array.size_append,
      List.size_toArray, List.length_append, List.length_singleton] at hsize ⊢
    rw [hsize, Nat.add_assoc]

/-- The state before the new statement is added. -/
theorem evolves_emitValue (s : CompileState) (target : String) (value : Expr) :
    s.Evolves (s.emitValue target value).2.state :=
  (s.registers_declare target).evolves.trans
    (((s.declare target).2.evolves_supersede (s.declare target).1).trans
      (registers_emitValue s target value).evolves)

/-- The code of the new statement, under the names as they are after it was emitted. -/
theorem code_emitValue (s : CompileState) (target : String) (value : Expr) :
    (s.emitValue target value).1 = value.code ((s.emitValue target value).2.state.naming {})
      (s.beforeValue target).root.stream.size := emit_code _ value _ (.refl _)

/-- The conditions under which a statement is added hold of the new one. -/
theorem CompileState.Sound.assignment (h : s.Sound) (owner : Option SubtreeId) (target : String)
    (value : Expr) : let t := (s.emitValue target value).2.state
      let n := s.assignmentNode owner target value
      let code := value.code (t.naming {}) n.start
      (s.declare target).1 < t.globalCount ∧ n.start = t.root.stream.size ∧
        n.stop = n.start + code.length + 1 ∧ ∀ i ∈ code, i.Within t n.uses := by
  have hregisters := registers_emitValue s target value
  have hbefore := (((s.registers_declare target).evolves.trans
    ((s.declare target).2.evolves_supersede (s.declare target).1)) h).1
  have hcode := code_emitValue s target value
  dsimp only
  refine ⟨?_, ?_, ?_, fun i hi => ?_⟩
  · have hslot := SymbolTable.lt_of_indexOf? (s.indexOf?_declare target)
    have hdeclared := ((s.registers_declare target).evolves h).1.tabled.slots
    have hslots := (hregisters.evolves hbefore).2.slots
    have hsame : (s.beforeValue target).globalCount = (s.declare target).2.globalCount := rfl
    simp only [CompileState.globalCount] at hslots hsame ⊢
    omega
  · change Stream.size _ = Stream.size _
    rw [hregisters.stream]
  · change _ + (s.emitValue target value).1.length + 1 = _
    rw [hcode]
    rfl
  · have hcovers := covers_emit {} _ value { state := s.beforeValue target } hbefore.tabled i
      (hcode ▸ hi)
    have huses : (s.assignmentNode owner target value).uses = (s.emitValue target value).2.uses := by
      simp [GraphNode.uses, Emission.uses, CompileState.assignmentNode]
    rw [huses]
    exact hcovers

/-- What the new statement assigns. -/
theorem CompileState.Sound.assigns_assigned (h : s.Sound) (owner : Option SubtreeId)
    (target : String) (value : Expr) : (s.assigned owner target value).Assigns
      (s.assignmentNode owner target value) (s.declare target).1
      ((s.emitValue target value).2.state.naming {}) value := by
  obtain ⟨hslot, hstart, hstop, hwithin⟩ := h.assignment owner target value
  unfold CompileState.assigned
  rw [code_emitValue s target value]
  exact CompileState.assigns_append rfl rfl hslot hstart hstop hwithin

/-- An accepted assignment keeps a program sound and only adds to it. -/
theorem evolves_assigned (s : CompileState) (owner : Option SubtreeId) (target : String)
    (value : Expr) : s.Evolves (s.assigned owner target value) := by
  intro h
  refine (evolves_emitValue s target value |>.trans ?_) h
  obtain ⟨hslot, hstart, hstop, hwithin⟩ := h.assignment owner target value
  unfold CompileState.assigned
  rw [code_emitValue s target value]
  exact CompileState.evolves_append (n := s.assignmentNode owner target value) rfl rfl hslot hstart
    hstop hwithin

end Assignment

/-! ### Defining a function -/

/-- The state in which the body of a function is compiled. -/
def CompileState.beforeBody (s : CompileState) (name : String) (params : List String) :
    CompileState :=
  ((s.reserve name).2.addBody (s.reserve name).1 params).2

/-- The code of the body of a function. -/
def CompileState.emitBody (s : CompileState) (name : String) (params : List String) (body : Expr) :
    List Instruction × Emission :=
  emit { params, defining := some name } 0 body { state := s.beforeBody name params }

/-- What the body of a function reads and calls. -/
def CompileState.bodyUses (s : CompileState) (name : String) (params : List String) (body : Expr) :
    ProcedureUses where
  procedure := (s.reserve name).1
  reads := (s.emitBody name params body).2.reads.map .global
  calls := (s.emitBody name params body).2.calls

/-- The state with a block, a procedure and a record for a function. -/
def CompileState.install (s : CompileState) (owner : Option SubtreeId) (name : String)
    (params : List String) (body : Expr) : CompileState :=
  let t := (s.emitBody name params body).2.state
  let code := (s.emitBody name params body).1 ++ [Instruction.ret]
  { t with
    bodies := t.bodies.modify s.bodies.length fun b =>
      { b with stream := { b.stream with code := b.stream.code ++ code.toArray } }
    root := { t.root with
      procedures := (t.root.procedures.define name params (s.bodies.length + 1) 0 code.length
        owner).2
      stream := { t.root.stream with
        graph := t.root.stream.graph.defineProcedure (s.bodyUses name params body) } } }

/-- The users of a procedure are queued, if there are any. -/
def CompileState.queueUsers (s : CompileState) (index : Nat) : CompileState :=
  if s.graph.readersOf (.procedure index) = [] then s else s.pushUpdate (.procedure index)

/-- The state after a function definition. -/
def CompileState.defined (s : CompileState) (owner : Option SubtreeId) (name : String)
    (params : List String) (body : Expr) : CompileState :=
  let t := (s.install owner name params body).queueUsers (s.reserve name).1
  { t with dynamicFunctions := t.dynamicFunctions.resolve name }

theorem compileFunction_eq (s : CompileState) (owner : Option SubtreeId) (name : String)
    (params : List String) (body : Expr) : compileFunction owner name params body s =
      if s.isAssigned name then .error (.functionShadowsVariable name)
      else .ok ((s.emitBody name params body).2.warnings, s.defined owner name params body) := by
  unfold compileFunction
  split
  · rfl
  · simp only [CompileState.code_foldl_push]
    rfl

theorem registers_emitBody (s : CompileState) (name : String) (params : List String) (body : Expr) :
    (s.beforeBody name params).Registers (s.emitBody name params body).2.state :=
  ((respected_grows _).emit 0 body { state := s.beforeBody name params }).state

section Definition

variable (s : CompileState) (owner : Option SubtreeId) (name : String) (params : List String)
  (body : Expr)

theorem evolves_addBody (index : Nat) : s.Evolves (s.addBody index params).2 := by
  intro h
  have hext : s.Extends (s.addBody index params).2 :=
    ⟨List.prefix_refl _, List.prefix_append _ _, Nat.le_refl _, List.prefix_refl _,
      List.prefix_refl _, List.prefix_refl _, Nat.le_refl _⟩
  refine ⟨⟨h.graph, ⟨h.tabled.slots, h.tabled.symbols, h.tabled.procedures, h.tabled.targets,
      h.tabled.names, h.tabled.parent⟩,
    fun block hblock => ?_, h.ids, fun _ => hext.statement h,
    fun _ hp hon => hext.function h hp hon fun _ hu _ => hu⟩, hext⟩
  rcases List.mem_append.1 hblock with hblock | hblock
  · exact h.bodies block hblock
  · obtain rfl := List.mem_singleton.1 hblock
    exact ⟨rfl, rfl⟩

/-- While the body is compiled, the name keeps its procedure. -/
theorem indexOf?_emitBody : (s.emitBody name params body).2.state.root.procedures.indexOf? name =
    some (s.reserve name).1 :=
  (keeps_emit _ 0 body { state := s.beforeBody name params }).procedure name _
    (ProcedureTable.indexOf?_reserve _ _)

/-- A definition fills the procedure of the name. -/
theorem procedures_install : (s.install owner name params body).root.procedures.procedures =
    (s.emitBody name params body).2.state.root.procedures.procedures.modify (s.reserve name).1
      fun p => { p with
        params, owner, body := some (s.bodies.length + 1), start := 0
        stop := (s.emitBody name params body).1.length + 1, isActive := true } := by
  have hindex := indexOf?_emitBody s name params body
  simp only [CompileState.install, ProcedureTable.define, ProcedureTable.reserve_of_some hindex,
    List.length_append, List.length_singleton]

theorem bodies_beforeBody : ∃ block, (s.beforeBody name params).bodies = s.bodies ++ [block] ∧
    block.procedures.procedures = [] ∧ block.parent = some 0 ∧ block.stream.code = #[] ∧
    block.stream.graph.nodes = [] :=
  ⟨_, rfl, rfl, rfl, rfl, rfl⟩

theorem modify_concat {α : Type} (l : List α) (a : α) (f : α → α) :
    (l ++ [a]).modify l.length f = l ++ [f a] := by
  induction l with
  | nil => rfl
  | cons b rest ih => simpa using ih

/-- The block of a definition comes after all others. -/
theorem bodies_install : ∃ block, (s.install owner name params body).bodies = s.bodies ++ [block] ∧
    block.procedures.procedures = [] ∧ block.parent = some 0 ∧
    block.stream.code.toList = (s.emitBody name params body).1 ++ [.ret] ∧
    block.stream.graph.nodes = [] := by
  obtain ⟨block, hblock, hprocedures, hparent, hcode, hgraph⟩ := bodies_beforeBody s name params
  have hbodies := (registers_emitBody s name params body).bodies.trans hblock
  simp only [CompileState.install, hbodies, modify_concat]
  refine ⟨_, rfl, hprocedures, hparent, ?_, hgraph⟩
  simp [hcode]

/-- A definition records what its body uses. -/
theorem graph_install : (s.install owner name params body).graph =
    s.graph.defineProcedure (s.bodyUses name params body) :=
  congrArg (fun stream : Stream => stream.graph.defineProcedure (s.bodyUses name params body))
    ((registers_emitBody s name params body).stream.trans (s.registers_reserve name).stream)

theorem evolves_beforeBody : s.Evolves (s.beforeBody name params) :=
  (s.registers_reserve name).evolves.trans (evolves_addBody _ params _)

theorem evolves_emitBody : s.Evolves (s.emitBody name params body).2.state :=
  (evolves_beforeBody s name params).trans (registers_emitBody s name params body).evolves

theorem extends_install (h : s.Sound) : s.Extends (s.install owner name params body) := by
  obtain ⟨-, hext⟩ := evolves_emitBody s name params body h
  obtain ⟨block, hbodies, -⟩ := bodies_install s owner name params body
  refine ⟨hext.code, ?_, hext.slots, hext.symbols, hext.pointers, ?_, hext.nextExpr⟩
  · rw [hbodies]
    exact List.prefix_append _ _
  · rw [procedures_install, CompileState.map_modify_self]
    · exact hext.names
    · exact fun _ => rfl

/-- The procedure that a definition fills evaluates the body, under the names as they are after its code was
emitted. -/
theorem computes_install (h : s.Sound) {p q : Procedure}
    (hq : (s.emitBody name params body).2.state.root.procedures.procedures[(s.reserve name).1]? =
      some q)
    (hp : p = { q with
      params, owner, body := some (s.bodies.length + 1), start := 0
      stop := (s.emitBody name params body).1.length + 1, isActive := true }) :
    ∃ u block, (s.install owner name params body).Computes p u block
      ((s.emitBody name params body).2.state.naming { params }) body := by
  subst hp
  have htabled := (evolves_emitBody s name params body h).1.tabled
  obtain ⟨block, hbodies, -, -, hblock, -⟩ := bodies_install s owner name params body
  have hcode : (s.emitBody name params body).1 =
      body.code ((s.emitBody name params body).2.state.naming { params }) 0 :=
    emit_code 0 body _ (.refl _)
  refine ⟨s.bodyUses name params body, block, ⟨s.bodies.length, rfl, ?_⟩, hcode ▸ hblock, rfl,
    ?_, ?_, (htabled.procedures _ q hq).symm, fun c hc => ?_⟩
  · rw [hbodies, List.getElem?_concat_length]
  · rw [← hcode]
  · rw [graph_install]
    exact (Keyed.mem_put_iff h.graph.procedures).2 (.inl rfl)
  · have hcovers := covers_emit { params, defining := some name } 0 body
      { state := s.beforeBody name params } (evolves_beforeBody s name params h).1.tabled c (hcode ▸ hc)
    have huses : (s.bodyUses name params body).uses = (s.emitBody name params body).2.uses := by
      simp [ProcedureUses.uses, Emission.uses, CompileState.bodyUses]
    rw [huses]
    exact hcovers.mono (Nat.le_refl _) (List.prefix_refl _)

theorem evolves_install : s.Evolves (s.install owner name params body) := by
  intro h
  have htabled := (evolves_emitBody s name params body h).1.tabled
  have hext := extends_install s owner name params body h
  have hgraph := graph_install s owner name params body
  have hprocedures := procedures_install s owner name params body
  obtain ⟨block, hbodies, hempty, hparent, -⟩ := bodies_install s owner name params body
  refine ⟨⟨hgraph ▸ h.graph.defineProcedure _,
    ⟨htabled.slots, htabled.symbols, fun i p hp => ?_, fun target htarget => ?_, htabled.names,
      htabled.parent⟩,
    fun b hb => ?_, fun n hn => ?_, fun n hn => ?_, fun p hp hon => ?_⟩, hext⟩
  · rw [hprocedures] at hp
    obtain ⟨q, hq, rfl⟩ := CompileState.getElem?_modify_eq_some.1 hp
    split <;> exact htabled.procedures i q hq
  · obtain ⟨p, hp, rfl⟩ := htabled.targets target htarget
    refine ⟨p, ?_, rfl⟩
    rw [hprocedures, List.length_modify]
    exact hp
  · rw [hbodies] at hb
    rcases List.mem_append.1 hb with hb | hb
    · exact h.bodies b hb
    · obtain rfl := List.mem_singleton.1 hb
      exact ⟨hempty, hparent⟩
  · rw [hgraph] at hn
    exact Nat.lt_of_lt_of_le (h.ids n hn) hext.nextExpr
  · rw [hgraph] at hn
    exact hext.statement h hn
  · rw [hprocedures] at hp
    obtain ⟨i, hp⟩ := List.mem_iff_getElem?.1 hp
    obtain ⟨q, hq, hmodified⟩ := CompileState.getElem?_modify_eq_some.1 hp
    by_cases hnew : (s.reserve name).1 = i
    · rw [if_pos hnew] at hmodified
      obtain ⟨u, block, hcomputes⟩ :=
        computes_install s owner name params body h (hnew ▸ hq) hmodified
      exact ⟨u, block, _, body, hcomputes⟩
    · rw [if_neg hnew] at hmodified
      subst hmodified
      -- the procedure was active before the definition
      have hold : p ∈ s.root.procedures.procedures :=
        (s.registers_reserve name).mem_of_active
          ((registers_emitBody s name params body).mem_of_active (List.mem_of_getElem? hq) hon) hon
      refine hext.function h hold hon fun u hu hindex => ?_
      rw [hgraph]
      refine (Keyed.mem_put_iff h.graph.procedures).2 (.inr ⟨hu, ?_⟩)
      rw [hindex, htabled.procedures i p hq]
      exact Ne.symm hnew

theorem evolves_queueUsers (index : Nat) : s.Evolves (s.queueUsers index) := by
  unfold CompileState.queueUsers
  split
  · rfl
  · exact s.evolves_pushUpdate _

/-- The record of calls that came before the definition is for the host only. -/
theorem evolves_dynamicFunctions (dynamicFunctions : DynamicFunctions) :
    s.Evolves { s with dynamicFunctions } := by
  intro h
  have hext : s.Extends { s with dynamicFunctions } :=
    ⟨List.prefix_refl _, List.prefix_refl _, Nat.le_refl _, List.prefix_refl _, List.prefix_refl _,
      List.prefix_refl _, Nat.le_refl _⟩
  exact ⟨⟨h.graph, ⟨h.tabled.slots, h.tabled.symbols, h.tabled.procedures, h.tabled.targets,
      h.tabled.names, h.tabled.parent⟩,
    h.bodies, h.ids, fun _ => hext.statement h, fun _ hp hon => hext.function h hp hon fun _ hu _ => hu⟩,
    hext⟩

/-- With the function in place, a definition only queues its users and marks calls as resolved. -/
theorem evolves_install_defined :
    (s.install owner name params body).Evolves (s.defined owner name params body) :=
  .trans (evolves_queueUsers _ _) (evolves_dynamicFunctions _ _)

/-- An accepted definition keeps a program sound and only adds to it. -/
theorem evolves_defined : s.Evolves (s.defined owner name params body) :=
  .trans (evolves_install s owner name params body) (evolves_install_defined s owner name params body)

end Definition

/-! ### Whole compilations -/

/-- The state after an accepted statement. -/
def CompileState.extended (s : CompileState) (owner : Option SubtreeId) : Statement → CompileState
  | .assign target value => s.assigned owner target value
  | .define name params body => s.defined owner name params body

theorem compileStatement_ok {owner : Option SubtreeId} {statement : Statement} {s t : CompileState}
    {warnings : List String} (h : compileStatement owner statement s = .ok (warnings, t)) :
    t = s.extended owner statement := by
  cases statement with
  | assign target value =>
    rw [compileStatement, compileAssignment_eq] at h
    split at h <;> cases h
    rfl
  | define name params body =>
    rw [compileStatement, compileFunction_eq] at h
    split at h <;> cases h
    rfl

/-- The image of a state. -/
def CompileState.image (s : CompileState) : CompiledImage := ⟨s, s.executable, s.globalCount, 0⟩

/-- The state after compiling a fragment. -/
def CompileState.compiled (s : CompileState) (f : Fragment) : CompileState :=
  (f.units.foldl Progress.unit ⟨f.retired.foldl CompileState.retire s.beginCompile, []⟩).state

/-- The compilation under way when all units of a fragment are compiled. -/
def Fragment.progress (f : Fragment) (prior : CompileState) : Progress :=
  f.units.foldl Progress.unit ⟨f.retired.foldl CompileState.retire prior.beginCompile, []⟩

/-- A compilation gives the image of its last state, unless it has met an error. -/
theorem compile_eq (f : Fragment) (prior : CompileState) :
    compile f prior = ⟨(f.progress prior).diagnostics,
      if (f.progress prior).diagnostics.any Diagnostic.isError then none
      else some (prior.compiled f).image⟩ := by
  have hcompile : compile f prior =
      if (f.progress prior).diagnostics.any Diagnostic.isError then
        ⟨(f.progress prior).diagnostics, none⟩
      else ⟨(f.progress prior).diagnostics, some (prior.compiled f).image⟩ := rfl
  rw [hcompile]
  split <;> rfl

theorem compile_image {f : Fragment} {prior : CompileState} {image : CompiledImage}
    (h : (compile f prior).image = some image) : image = (prior.compiled f).image := by
  rw [compile_eq] at h
  dsimp only at h
  split at h
  · cases h
  · exact (Option.some.inj h).symm

/-- An accepted program is that of the state which the compilation leaves. -/
theorem compile_executable {f : Fragment} {prior : CompileState} {image : CompiledImage}
    (h : (compile f prior).image = some image) : image.executable = image.state.executable := by
  rw [compile_image h]
  rfl

/-- A relation between states that the steps of a compilation keep. -/
structure CompileState.Stepwise (R : CompileState → CompileState → Prop) : Prop where
  refl : ∀ s, R s s
  trans : ∀ {s t u}, R s t → R t u → R s u
  retire : ∀ s subtree, R s (s.retire subtree)
  assigned : ∀ s owner target value, R s (s.assigned owner target value)
  defined : ∀ s owner name params body, R s (s.defined owner name params body)

namespace CompileState.Stepwise

variable {R : CompileState → CompileState → Prop}

/-- A rejected statement changes nothing. -/
theorem statement (h : Stepwise R) (p : Progress) (owner : Option SubtreeId)
    (statement : Statement) : R p.state (p.statement owner statement).state := by
  unfold Progress.statement
  split
  · rename_i hcompile
    rw [compileStatement_ok hcompile]
    cases statement with
    | assign target value => exact h.assigned p.state owner target value
    | define name params body => exact h.defined p.state owner name params body
  · exact h.refl _

theorem unit (h : Stepwise R) (p : Progress) (u : FragmentUnit) : R p.state (p.unit u).state := by
  unfold Progress.unit
  split
  · rename_i statements _
    exact List.foldlRecOn statements _ (motive := fun q => R p.state q.state) (h.refl _)
      fun q hq statement _ => h.trans hq (h.statement q u.owner statement)
  · exact h.refl _

/-- What every step of a compilation keeps, the whole compilation keeps. -/
theorem compiled (h : Stepwise R) (f : Fragment) (prior : CompileState) :
    R prior.beginCompile (prior.compiled f) := by
  have hretired : R prior.beginCompile (f.retired.foldl CompileState.retire prior.beginCompile) :=
    List.foldlRecOn f.retired CompileState.retire (h.refl _) fun t ht subtree _ =>
      h.trans ht (h.retire t subtree)
  refine List.foldlRecOn f.units Progress.unit (motive := fun q => R prior.beginCompile q.state)
    ?_ fun q hq u _ => h.trans hq (h.unit q u)
  exact hretired

end CompileState.Stepwise

theorem stepwise_evolves : CompileState.Stepwise CompileState.Evolves :=
  ⟨.refl, .trans, CompileState.evolves_retire, evolves_assigned, evolves_defined⟩

/-- A compilation keeps a program sound and only adds to it. -/
theorem evolves_compiled (f : Fragment) (prior : CompileState) :
    prior.Evolves (prior.compiled f) :=
  (CompileState.evolves_beginCompile prior).trans (stepwise_evolves.compiled f prior)

end Reflow
