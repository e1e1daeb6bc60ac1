import Mathlib.Data.List.Forall2
import Reflow.Proofs.Graph.Answers
import Reflow.Proofs.Program.Acceptance
import Reflow.Proofs.Program.Contents
/-!
# What subtrees own in a program

The active statements and the active functions of a program may belong to subtrees. A ledger that lists
the statements of each subtree, as they were compiled, tells what belongs to which: a compilation strikes
out the subtrees that it retires and enters the statements of its units, and the program follows the
ledger.

Only code without a subtree is ever replaced by other code, so the statements of a subtree are all
active until the subtree is retired. A function may pass to another subtree, which defines it anew.

## Main definitions

* `Ledger`: the statements of each subtree, with `Ledger.compiled`.
* `CompileState.Stores`: a statement assigns a variable.
* `CompileState.Mirrors`: what the subtrees of a program own is in the ledger.

## Main results

* `CompileState.Mirrors.retire`, `CompileState.Mirrors.statement`: the steps of a compilation.
* `CompileState.Mirrors.compiled`: a whole compilation without errors.
-/

namespace Reflow

/-- The function that a statement defines; an assignment defines none. -/
def Statement.function? : Statement → Option String
  | .assign _ _ => none
  | .define name _ _ => some name

/-- The statements of a unit; a text that is no program has none. -/
def FragmentUnit.program (u : FragmentUnit) : List Statement :=
  match parseProgram u.code with
  | .ok program => program
  | .error _ => []

/-- A unit that was met without an error adds the statements of its program. -/
theorem Progress.Clean.unit_eq {p : Progress} {u : FragmentUnit} (h : (p.unit u).Clean) :
    p.unit u = u.program.foldl (Progress.statement u.owner) p := by
  obtain ⟨program, hparse, heq⟩ := h.unit
  rw [heq, FragmentUnit.program, hparse]

namespace Progress

variable {α : Type} {R : CompileState → α → Prop} {p : Progress} {a : α}

/-- A record that follows a sound program when a statement is compiled follows it through statements
without errors. -/
theorem Clean.foldl_statement {f : α → Statement → α} {owner : Option SubtreeId}
    {program : List Statement} (hclean : (program.foldl (Progress.statement owner) p).Clean)
    (hstep : ∀ {s t : CompileState} {statement : Statement} {warnings : List String} {a : α},
      statement ∈ program → s.Sound → R s a →
        compileStatement owner statement s = .ok (warnings, t) → R t (f a statement))
    (hs : p.state.Sound) (h : R p.state a) :
    R (program.foldl (Progress.statement owner) p).state (program.foldl f a) := by
  induction program generalizing p a with
  | nil => exact h
  | cons s rest ih =>
    obtain ⟨-, warnings, hcompile⟩ := Clean.statement (Clean.statements hclean)
    exact ih hclean (fun hmem => hstep (List.mem_cons_of_mem _ hmem))
      (stepwise_evolves.statement p owner s hs).1 (hstep List.mem_cons_self hs h hcompile)

/-- A record that follows a sound program through the statements of a unit follows it through units
without errors. -/
theorem Clean.foldl_unit {f : α → FragmentUnit → α} {units : List FragmentUnit}
    (hclean : (units.foldl Progress.unit p).Clean)
    (hstep : ∀ {q : Progress} {u : FragmentUnit} {a : α}, u ∈ units →
      (u.program.foldl (Progress.statement u.owner) q).Clean → q.state.Sound → R q.state a →
        R (u.program.foldl (Progress.statement u.owner) q).state (f a u))
    (hs : p.state.Sound) (h : R p.state a) :
    R (units.foldl Progress.unit p).state (units.foldl f a) := by
  induction units generalizing p a with
  | nil => exact h
  | cons u rest ih =>
    have hfirst : (p.unit u).Clean := Clean.of_units hclean
    have hunit := hfirst.unit_eq
    refine ih hclean (fun hu => hstep (List.mem_cons_of_mem _ hu)) (stepwise_evolves.unit p u hs).1 ?_
    rw [hunit] at hfirst ⊢
    exact hstep List.mem_cons_self hfirst hs h

end Progress

/-- The statements of each subtree. -/
abbrev Ledger := SubtreeId → List Statement

namespace Ledger

/-- The ledger without the statements of a subtree. -/
def retire (L : Ledger) (id : SubtreeId) : Ledger := fun i => if i = id then [] else L i

/-- The ledger with some more statements of one owner, if that is a subtree. -/
def extend (L : Ledger) (owner : Option SubtreeId) (program : List Statement) : Ledger :=
  fun id => if owner = some id then L id ++ program else L id

/-- The ledger after compiling a fragment. -/
def compiled (L : Ledger) (f : Fragment) : Ledger :=
  f.units.foldl (fun L u => L.extend u.owner u.program) (f.retired.foldl retire L)

variable {L : Ledger} {owner : Option SubtreeId} {id : SubtreeId} {program more : List Statement}

theorem extend_nil : L.extend owner [] = L := by
  funext id
  simp [extend]

theorem extend_extend : (L.extend owner program).extend owner more = L.extend owner (program ++ more) := by
  funext id
  by_cases howner : owner = some id
  · simp [extend, howner]
  · simp [extend, howner]

theorem foldl_extend_statement :
    program.foldl (fun L s => L.extend owner [s]) L = L.extend owner program := by
  induction program generalizing L with
  | nil => exact extend_nil.symm
  | cons s rest ih => rw [List.foldl_cons, ih, extend_extend, List.singleton_append]

theorem map_subset_extend {α : Type} {f : Statement → α} :
    (L id).map f ⊆ (L.extend owner program id).map f := by
  rw [extend]
  split
  · rw [List.map_append]
    exact List.subset_append_left _ _
  · exact List.Subset.refl _

theorem foldl_retire (retired : List SubtreeId) :
    (retired.foldl retire L) id = if id ∈ retired then [] else L id := by
  induction retired generalizing L with
  | nil => rfl
  | cons first rest ih =>
    rw [List.foldl_cons, ih, retire]
    by_cases hfirst : id = first
    · simp [hfirst]
    · simp [hfirst]

theorem foldl_extend (units : List FragmentUnit) :
    (units.foldl (fun L u => L.extend u.owner u.program) L) id =
      L id ++ (units.filter (·.owner = some id)).flatMap FragmentUnit.program := by
  induction units generalizing L with
  | nil => simp
  | cons u rest ih =>
    rw [List.foldl_cons, ih, extend]
    by_cases howner : u.owner = some id
    · simp [howner]
    · simp [howner]

/-- After a compilation, a subtree has the statements of its units, and those from before unless it is
retired. -/
theorem compiled_apply (f : Fragment) : L.compiled f id = (if id ∈ f.retired then [] else L id) ++
    (f.units.filter (·.owner = some id)).flatMap FragmentUnit.program := by
  rw [compiled, foldl_extend, foldl_retire]

end Ledger

/-! ### The statements of a subtree in order -/

namespace DependencyGraph

variable {g g' : DependencyGraph} {n : GraphNode} {id : SubtreeId}

theorem mem_nodesOwnedBy : n ∈ g.nodesOwnedBy id ↔
    n ∈ g.nodes ∧ n.isActive = true ∧ n.owner = some id := by
  simp [nodesOwnedBy, activeNodes, and_comm]

theorem Sound.sorted_nodesOwnedBy (h : g.Sound) (id : SubtreeId) :
    Keyed.Sorted GraphNode.id (g.nodesOwnedBy id) :=
  h.nodes.sublist (List.filter_sublist.trans List.filter_sublist)

/-- What a subtree owns is determined by the records that name it. -/
theorem Sound.nodesOwnedBy_eq (h : g.Sound) (h' : g'.Sound)
    (hmem : ∀ n : GraphNode, n.isActive = true → n.owner = some id → (n ∈ g'.nodes ↔ n ∈ g.nodes)) :
    g'.nodesOwnedBy id = g.nodesOwnedBy id := by
  refine Keyed.eq_of_mem_iff (h'.sorted_nodesOwnedBy id) (h.sorted_nodesOwnedBy id) fun n => ?_
  rw [mem_nodesOwnedBy, mem_nodesOwnedBy]
  exact and_congr_left fun h => hmem n h.1 h.2

/-- A statement that is newer than all others comes last. -/
theorem Sound.nodesOwnedBy_concat (h : g.Sound) (h' : g'.Sound) (hon : n.isActive = true)
    (howner : n.owner = some id) (hnew : ∀ m ∈ g.nodes, m.id < n.id)
    (hmem : ∀ m : GraphNode, m.isActive = true → m.owner = some id →
      (m ∈ g'.nodes ↔ m = n ∨ m ∈ g.nodes)) :
    g'.nodesOwnedBy id = g.nodesOwnedBy id ++ [n] := by
  have hsorted : Keyed.Sorted GraphNode.id (g.nodesOwnedBy id ++ [n]) := by
    refine List.pairwise_append.2 ⟨h.sorted_nodesOwnedBy id, List.pairwise_singleton _ n, ?_⟩
    intro m hm n' hn'
    obtain rfl := List.mem_singleton.1 hn'
    exact hnew m (mem_nodesOwnedBy.1 hm).1
  refine Keyed.eq_of_mem_iff (h'.sorted_nodesOwnedBy id) hsorted fun m => ?_
  rw [List.mem_append, List.mem_singleton, mem_nodesOwnedBy, mem_nodesOwnedBy]
  constructor
  · rintro ⟨hm, hmon, hmowner⟩
    rcases (hmem m hmon hmowner).1 hm with rfl | hm
    · exact .inr rfl
    · exact .inl ⟨hm, hmon, hmowner⟩
  · rintro (⟨hm, hmon, hmowner⟩ | rfl)
    · exact ⟨(hmem m hmon hmowner).2 (.inr hm), hmon, hmowner⟩
    · exact ⟨(hmem m hon howner).2 (.inl rfl), hon, howner⟩

end DependencyGraph

/-! ### Programs that follow a ledger -/

namespace CompileState

/-- The statement `n` assigns the variable `name`. -/
def Stores (s : CompileState) (n : GraphNode) (name : String) : Prop :=
  ∃ slot, s.root.symbols.indexOf? name = some slot ∧ n.defines = some (.global slot)

/-- The active statements of each subtree assign the variables that its statements in the ledger assign,
in the same order, and whatever function belongs to a subtree is defined by one of them. -/
structure Mirrors (s : CompileState) (L : Ledger) : Prop where
  statements : ∀ id, List.Forall₂ s.Stores (s.graph.nodesOwnedBy id)
    ((L id).filterMap Statement.assigned?)
  functions : ∀ p ∈ s.root.procedures.procedures, p.isActive = true → ∀ id, p.owner = some id →
    some p.name ∈ (L id).map Statement.function?

variable {s t : CompileState} {L L' : Ledger}

theorem mirrors_empty : ({} : CompileState).Mirrors fun _ => [] :=
  ⟨fun _ => .nil, fun _ hp => by cases hp⟩

/-- All that matters of a ledger is what its statements bind. -/
theorem Mirrors.congr (h : s.Mirrors L)
    (hassigned : ∀ id, (L' id).filterMap Statement.assigned? = (L id).filterMap Statement.assigned?)
    (hfunctions : ∀ id, (L' id).map Statement.function? = (L id).map Statement.function?) :
    s.Mirrors L' :=
  ⟨fun id => hassigned id ▸ h.statements id, fun p hp hon id howner =>
    hfunctions id ▸ h.functions p hp hon id howner⟩

theorem Stores.mono (hsymbols : s.root.symbols.symbols <+: t.root.symbols.symbols) {n : GraphNode}
    {name : String} (h : s.Stores n name) : t.Stores n name := by
  obtain ⟨slot, hslot, hdefines⟩ := h
  exact ⟨slot, indexOf?_of_isPrefix hsymbols hslot, hdefines⟩

/-- A step that leaves what subtrees own as it is. -/
theorem Mirrors.of_eq (h : s.Mirrors L)
    (hsymbols : s.root.symbols.symbols <+: t.root.symbols.symbols)
    (hnodes : ∀ id, t.graph.nodesOwnedBy id = s.graph.nodesOwnedBy id)
    (hprocedures : ∀ p ∈ t.root.procedures.procedures, p.isActive = true →
      p ∈ s.root.procedures.procedures) : t.Mirrors L := by
  refine ⟨fun id => ?_, fun p hp hon => h.functions p (hprocedures p hp hon) hon⟩
  rw [hnodes id]
  exact (h.statements id).imp fun _ _ hstores => hstores.mono hsymbols

theorem Mirrors.scheduled (h : s.Mirrors L) (entry : Option Nat) (updates : List UpdateRoot)
    (full : Bool) : (s.scheduled entry updates full).Mirrors L :=
  h.of_eq (List.prefix_refl _) (fun _ => rfl) fun _ hp _ => hp

/-! ### Retiring a subtree -/

theorem Sound.nodesOwnedBy_deactivateOwned (hs : s.Sound) (id i : SubtreeId) :
    (s.deactivateOwned id).graph.nodesOwnedBy i =
      if i = id then [] else s.graph.nodesOwnedBy i := by
  split
  · rename_i hi
    refine List.eq_nil_iff_forall_not_mem.2 fun n hn => ?_
    obtain ⟨hn, hon, howner⟩ := DependencyGraph.mem_nodesOwnedBy.1 hn
    exact ((hs.mem_deactivateOwned hon).1 hn).2 (hi ▸ howner)
  · rename_i hi
    refine hs.graph.nodesOwnedBy_eq (hs.graph.foldl_deactivate _) fun n hon howner => ?_
    refine (hs.mem_deactivateOwned hon).trans (and_iff_left fun heq => hi ?_)
    exact Option.some.inj (howner.symm.trans heq)

theorem nodesOwnedBy_foldl_retireProcedure (owned : List Procedure) (id : SubtreeId) :
    (owned.foldl (fun s p => s.retireProcedure p.index) s).graph.nodesOwnedBy id =
      s.graph.nodesOwnedBy id := by
  induction owned generalizing s with
  | nil => rfl
  | cons p rest ih => exact ih

/-- The procedures that stay active when some are retired are in their places, which are not those of the
retired ones. -/
theorem getElem?_foldl_retireProcedure {owned : List Procedure} {i : Nat} {p : Procedure}
    (hp : (owned.foldl (fun s p => s.retireProcedure p.index) s).root.procedures.procedures[i]? =
      some p) (hon : p.isActive = true) :
    s.root.procedures.procedures[i]? = some p ∧ ∀ q ∈ owned, q.index ≠ i := by
  induction owned generalizing s with
  | nil => exact ⟨hp, fun q hq => by cases hq⟩
  | cons first rest ih =>
    obtain ⟨hp, hrest⟩ := ih hp
    obtain ⟨q, hq, rfl⟩ := getElem?_modify_eq_some.1 hp
    split at hon
    · cases hon
    · rename_i hne
      rw [if_neg hne]
      exact ⟨hq, List.forall_mem_cons.2 ⟨hne, hrest⟩⟩

/-- A retired subtree owns no active function. -/
theorem Sound.mem_procedures_retire (hs : s.Sound) {id : SubtreeId} {p : Procedure}
    (hp : p ∈ (s.retire id).root.procedures.procedures) (hon : p.isActive = true) :
    p ∈ s.root.procedures.procedures ∧ p.owner ≠ some id := by
  obtain ⟨updates, hwithout⟩ := s.exists_withoutStatements_eq id
  rw [retire_eq, hwithout] at hp
  obtain ⟨i, hi⟩ := List.mem_iff_getElem?.1 hp
  obtain ⟨hi, hkept⟩ := getElem?_foldl_retireProcedure hi hon
  have hi : s.root.procedures.procedures[i]? = some p := hi
  refine ⟨List.mem_of_getElem? hi, fun howner => hkept p ?_ (hs.tabled.procedures i p hi)⟩
  exact List.mem_filter.2 ⟨List.mem_of_getElem? hi, by simp [hon, howner]⟩

/-- A retired subtree owns nothing, and all others own what they owned. -/
theorem Mirrors.retire (h : s.Mirrors L) (hs : s.Sound) (id : SubtreeId) :
    (s.retire id).Mirrors (L.retire id) := by
  have hsymbols := (evolves_retire s id hs).2.symbols
  have hnodes : ∀ i, (s.retire id).graph.nodesOwnedBy i =
      if i = id then [] else s.graph.nodesOwnedBy i := by
    intro i
    rw [retire_eq, nodesOwnedBy_foldl_retireProcedure, graph_withoutStatements]
    exact hs.nodesOwnedBy_deactivateOwned id i
  refine ⟨fun i => ?_, fun p hp hon i howner => ?_⟩
  · rw [hnodes, Ledger.retire]
    split
    · exact .nil
    · exact (h.statements i).imp fun _ _ hstores => hstores.mono hsymbols
  · obtain ⟨hp, hne⟩ := hs.mem_procedures_retire hp hon
    have hi : i ≠ id := by
      rintro rfl
      exact hne howner
    rw [Ledger.retire, if_neg hi]
    exact h.functions p hp hon i howner

/-! ### Adding a statement -/

section Statement

variable {owner : Option SubtreeId} {target name : String} {value body : Expr} {params : List String}

/-- A new assignment of a subtree comes after its other statements, all of which stay. -/
theorem Sound.nodesOwnedBy_assigned (hs : s.Sound) (owner : Option SubtreeId) (target : String)
    (value : Expr) (id : SubtreeId) : (s.assigned owner target value).graph.nodesOwnedBy id =
      s.graph.nodesOwnedBy id ++
        if owner = some id then [s.assignmentNode owner target value] else [] := by
  have hafter := (evolves_assigned s owner target value hs).1
  have hdeclared := (s.registers_declare target).evolves hs
  have hgraph := (s.registers_declare target).graph
  -- only statements without a subtree are replaced
  have hmem : ∀ n : GraphNode, n.isActive = true → n.owner = some id →
      (n ∈ (s.assigned owner target value).graph.nodes ↔
        n = s.assignmentNode owner target value ∨ n ∈ s.graph.nodes) := by
    intro n hon howner
    refine (s.mem_assigned owner target value hs hon).trans (or_congr_right ?_)
    refine and_iff_left_of_imp fun hn hsuperseded => ?_
    obtain ⟨hnone, -⟩ := (mem_superseded hdeclared.1 (hgraph ▸ hn) hon).1 hsuperseded
    rw [hnone] at howner
    cases howner
  split
  · rename_i howner
    refine hs.graph.nodesOwnedBy_concat hafter.graph rfl howner (fun m hm => ?_) hmem
    exact Nat.lt_of_lt_of_eq (hs.ids m hm) (s.nextExpr_emitValue target value).symm
  · rename_i howner
    rw [List.append_nil]
    refine hs.graph.nodesOwnedBy_eq hafter.graph fun n hon hn => ?_
    refine (hmem n hon hn).trans (or_iff_right ?_)
    rintro rfl
    exact howner hn

/-- An assignment is entered into the ledger. -/
theorem Mirrors.assigned (h : s.Mirrors L) (hs : s.Sound) (owner : Option SubtreeId)
    (target : String) (value : Expr) :
    (s.assigned owner target value).Mirrors (L.extend owner [.assign target value]) := by
  have hsymbols := (evolves_assigned s owner target value hs).2.symbols
  have hdeclare := s.registers_declare target
  have hemit := registers_emitValue s target value
  have hold := fun id => (h.statements id).imp fun _ _ (hn : s.Stores _ _) =>
    hn.mono (t := s.assigned owner target value) hsymbols
  have hnew : (s.assigned owner target value).Stores (s.assignmentNode owner target value) target :=
    ⟨_, indexOf?_of_isPrefix hemit.symbols (s.indexOf?_declare target), rfl⟩
  refine ⟨fun id => ?_, fun p hp hon id howner => ?_⟩
  · rw [hs.nodesOwnedBy_assigned, Ledger.extend]
    split
    · rw [List.filterMap_append]
      exact List.rel_append (hold id) (.cons hnew .nil)
    · rw [List.append_nil]
      exact hold id
  · have hold := hdeclare.mem_of_active (hemit.mem_of_active hp hon) hon
    exact Ledger.map_subset_extend (h.functions p hold hon id howner)

/-- An active function after a definition is the new one, or it was there before. -/
theorem mem_procedures_install {p : Procedure}
    (hp : p ∈ (s.install owner name params body).root.procedures.procedures)
    (hon : p.isActive = true) :
    p.name = name ∧ p.owner = owner ∨ p ∈ s.root.procedures.procedures := by
  obtain ⟨i, hi⟩ := List.mem_iff_getElem?.1 hp
  rw [procedures_install] at hi
  obtain ⟨q, hq, rfl⟩ := getElem?_modify_eq_some.1 hi
  split at hon
  · rename_i hindex
    rw [if_pos hindex]
    obtain ⟨hlt, hname, -⟩ :=
      List.findIdx?_eq_some_iff_getElem.1 (indexOf?_emitBody s name params body)
    obtain rfl : _ = q := Option.some.inj ((List.getElem?_eq_getElem (hindex ▸ hlt)).symm.trans hq)
    subst hindex
    exact .inl ⟨eq_of_beq hname, rfl⟩
  · rename_i hindex
    rw [if_neg hindex]
    have hemitted := (registers_emitBody s name params body).mem_of_active (List.mem_of_getElem? hq) hon
    exact .inr ((s.registers_reserve name).mem_of_active hemitted hon)

/-- Marking calls as resolved leaves the top-level block as it is. -/
theorem root_dynamicFunctions (s : CompileState) (dynamicFunctions : DynamicFunctions) :
    ({ s with dynamicFunctions } : CompileState).root = s.root := rfl

theorem graph_defined (s : CompileState) (owner : Option SubtreeId) (name : String)
    (params : List String) (body : Expr) : (s.defined owner name params body).graph =
      s.graph.defineProcedure (s.bodyUses name params body) := by
  have hqueue := (s.install owner name params body).graph_queueUsers (s.reserve name).1
  rw [← graph_install, ← hqueue, graph, graph, defined, root_dynamicFunctions]

theorem procedures_defined (s : CompileState) (owner : Option SubtreeId) (name : String)
    (params : List String) (body : Expr) : (s.defined owner name params body).root.procedures =
      (s.install owner name params body).root.procedures := by
  rw [defined, root_dynamicFunctions, procedures_queueUsers]

/-- A definition is entered into the ledger. The function no longer belongs to the subtree that defined it
before, if another one did. -/
theorem Mirrors.defined (h : s.Mirrors L) (hs : s.Sound) (owner : Option SubtreeId) (name : String)
    (params : List String) (body : Expr) :
    (s.defined owner name params body).Mirrors (L.extend owner [.define name params body]) := by
  have hsymbols := (evolves_defined s owner name params body hs).2.symbols
  have hnodes : ∀ id, (s.defined owner name params body).graph.nodesOwnedBy id =
      s.graph.nodesOwnedBy id := by
    intro id
    rw [graph_defined]
    rfl
  refine ⟨fun id => ?_, fun p hp hon id howner => ?_⟩
  · have hassigned : (L.extend owner [.define name params body] id).filterMap Statement.assigned? =
        (L id).filterMap Statement.assigned? := by
      rw [Ledger.extend]
      split
      · rw [List.filterMap_append]
        exact List.append_nil _
      · rfl
    rw [hnodes, hassigned]
    exact (h.statements id).imp fun _ _ hstores => hstores.mono hsymbols
  · rw [procedures_defined] at hp
    rcases mem_procedures_install hp hon with ⟨rfl, hnew⟩ | hp
    · rw [Ledger.extend, if_pos (hnew.symm.trans howner), List.map_append]
      exact List.mem_append_right _ List.mem_cons_self
    · exact Ledger.map_subset_extend (h.functions p hp hon id howner)

/-- A statement that is compiled is entered into the ledger. -/
theorem Mirrors.statement (h : s.Mirrors L) (hs : s.Sound) {statement : Statement}
    {warnings : List String} (hcompile : compileStatement owner statement s = .ok (warnings, t)) :
    t.Mirrors (L.extend owner [statement]) := by
  rw [compileStatement_ok hcompile]
  cases statement with
  | assign target value => exact h.assigned hs owner target value
  | define name params body => exact h.defined hs owner name params body

end Statement

end CompileState

/-! ### Whole compilations -/

namespace Progress

variable {p : Progress} {L : Ledger}

theorem mirrors_statements {owner : Option SubtreeId} {program : List Statement}
    (hclean : (program.foldl (statement owner) p).Clean) (h : p.state.Mirrors L)
    (hs : p.state.Sound) :
    (program.foldl (statement owner) p).state.Mirrors (L.extend owner program) := by
  rw [← Ledger.foldl_extend_statement]
  exact hclean.foldl_statement (fun _ hs h hcompile => h.statement hs hcompile) hs h

theorem mirrors_units {units : List FragmentUnit} (hclean : (units.foldl unit p).Clean)
    (h : p.state.Mirrors L) (hs : p.state.Sound) : (units.foldl unit p).state.Mirrors
      (units.foldl (fun L u => L.extend u.owner u.program) L) :=
  hclean.foldl_unit (fun _ hunit hs h => mirrors_statements hunit h hs) hs h

end Progress

namespace CompileState

variable {s : CompileState} {L : Ledger}

/-- After a compilation that gives an image, the program follows the ledger after it. -/
theorem Mirrors.compiled (h : s.Mirrors L) (hs : s.Sound) {f : Fragment}
    {diagnostics : List Diagnostic} {image : CompiledImage}
    (hcompile : compile f s = ⟨diagnostics, some image⟩) :
    (s.compiled f).Mirrors (L.compiled f) := by
  have hbegin : s.beginCompile.Mirrors L := h.scheduled _ _ _
  have hsound := (s.evolves_beginCompile hs).1
  have hretired := hsound.foldl_retire (fun hs h id => h.retire hs id) f.retired hbegin
  exact Progress.mirrors_units (clean_of_compile hcompile) hretired
    (Evolves.foldl evolves_retire f.retired _ hsound).1

end CompileState

end Reflow
