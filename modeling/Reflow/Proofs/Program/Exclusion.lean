import Reflow.Proofs.Program.History
import Reflow.Proofs.Program.Roster
/-!
# Names that exclude each other

A name is an active function or a variable with an active writer, never both: an assignment to a function
and a definition of an assigned variable are rejected, and whatever else changes the tables between the
check and the next one, subtrees that are retired, statements that are replaced, names that are declared or
reserved by their first use, makes nothing active.

A variable has at most one active writer without a subtree, because a new assignment replaces those that are
there. So the active one is the newest of all of them, and no statement is ever made active again.

## Main definitions

* `ProcedureTable.Distinct`: no two procedures have the same name.
* `CompileState.Exclusive`: the invariant.

## Main results

* `CompileState.Exclusive.retire`, `Exclusive.assigned`, `Exclusive.defined`: the steps of a compilation.
* `CompileState.Reached.exclusive`: functions, variables and writers without a subtree in every program.
-/

namespace Reflow

/-! ### The names of procedures -/

namespace ProcedureTable

/-- No two procedures have the same name. -/
def Distinct (t : ProcedureTable) : Prop := (t.procedures.map Procedure.name).Nodup

variable {t : ProcedureTable}

theorem Distinct.reserve (h : t.Distinct) (name : String) : (t.reserve name).2.Distinct := by
  unfold ProcedureTable.reserve
  cases hi : t.indexOf? name with
  | some i => exact h
  | none =>
    have hnew : name ∉ t.procedures.map Procedure.name := by simpa [indexOf?] using hi
    rw [Distinct, List.map_append, List.map_singleton, List.nodup_append]
    refine ⟨h, List.nodup_singleton name, fun a ha b hb hab => hnew ?_⟩
    obtain rfl : a = name := hab.trans (List.mem_singleton.1 hb)
    exact ha

/-- Changing a procedure, but not its name. -/
theorem Distinct.modify (h : t.Distinct) {f : Procedure → Procedure} (hf : ∀ p, (f p).name = p.name)
    (i : Nat) : ((t.procedures.modify i f).map Procedure.name).Nodup := by
  rw [CompileState.map_modify_self hf]
  exact h

/-- A procedure is the one of its name. -/
theorem Distinct.get?_eq (h : t.Distinct) {p : Procedure} (hp : p ∈ t.procedures) :
    t.get? p.name = some p := by
  cases hq : t.get? p.name with
  | none => exact absurd (List.find?_eq_none.1 hq p hp) (by simp)
  | some q =>
    have hname : q.name = p.name := by simpa using List.find?_some hq
    rw [List.inj_on_of_nodup_map h (List.mem_of_find?_eq_some hq) hp hname]

end ProcedureTable

/-- Emitting code reserves procedures under new names only. -/
theorem respected_distinct (scope : Scope) : Respected scope fun m m' =>
    m.state.root.procedures.Distinct → m'.state.root.procedures.Distinct where
  refl _ := id
  trans h k := k ∘ h
  name n m h := by
    unfold emitName
    split
    · exact h
    · split
      · exact h
      · split
        · exact h
        · exact (CompileState.declare_procedures m.state n).symm ▸ h
  callee n argc m h := by
    unfold resolveCallee
    split
    · exact h
    · split
      · exact h
      · dsimp only
        repeat' split
        all_goals exact h.reserve n
  use p m := id

namespace CompileState

/-! ### The invariant -/

/-- The names of procedures differ, no active statement stores the name of an active one, and an active
statement without a subtree is the newest of those to its variable. -/
structure Exclusive (s : CompileState) : Prop where
  names : s.root.procedures.Distinct
  separate : ∀ p ∈ s.root.procedures.procedures, p.isActive = true →
    ∀ n ∈ s.graph.nodes, n.isActive = true → ¬ s.Stores n p.name
  newest : ∀ n ∈ s.graph.nodes, n.isActive = true → n.owner = none →
    ∀ m ∈ s.graph.nodes, m.owner = none → m.defines = n.defines → m.id ≤ n.id

variable {s t : CompileState}

theorem exclusive_empty : Exclusive {} :=
  ⟨List.nodup_nil, fun _ hp => (by cases hp), fun _ hn => (by cases hn)⟩

/-- Every statement stores a variable. -/
theorem Sound.exists_stores (hs : s.Sound) {n : GraphNode} (hn : n ∈ s.graph.nodes) :
    ∃ name, s.Stores n name := by
  obtain ⟨slot, σ, e, hassigns⟩ := hs.statements n hn
  have hlt : slot < s.root.symbols.symbols.length := hs.tabled.slots ▸ hassigns.allocated
  refine ⟨s.root.symbols.symbols[slot].name, slot, ?_, hassigns.defines⟩
  rw [SymbolTable.indexOf?, List.findIdx?_eq_some_iff_getElem]
  refine ⟨hlt, beq_self_eq_true _, fun i hi => ?_⟩
  have hne := List.pairwise_iff_getElem.1 hs.tabled.names i slot (by simp; omega) (by simpa) hi
  simpa using hne

/-- A statement stores in a later state what it stored before. -/
theorem Sound.stores_back (hs : s.Sound) (hext : s.Extends t) {n : GraphNode} {name : String}
    (hn : n ∈ s.graph.nodes) (h : t.Stores n name) : s.Stores n name := by
  obtain ⟨name', hname'⟩ := hs.exists_stores hn
  rwa [(hname'.mono hext.symbols).unique h]

/-- A step that only deactivates statements and functions. -/
theorem Exclusive.of_deactivated (h : s.Exclusive) (hs : s.Sound) (hext : s.Extends t)
    (hnames : t.root.procedures.Distinct)
    (hprocedures : ∀ p ∈ t.root.procedures.procedures, p.isActive = true →
      p ∈ s.root.procedures.procedures)
    {off : List Nat} (hnodes : t.graph.nodes = s.graph.nodes.map (·.deactivatedIn off)) :
    t.Exclusive := by
  refine ⟨hnames, fun p hp hpon n hn hon hstores => ?_, fun n hn hon howner m hm hm' hkey => ?_⟩
  · obtain ⟨k, hk, rfl⟩ := List.mem_map.1 (hnodes ▸ hn)
    obtain ⟨hsame, -⟩ := GraphNode.isActive_of_deactivatedIn hon
    rw [hsame] at hon hstores
    exact h.separate p (hprocedures p hp hpon) hpon k hk hon (hs.stores_back hext hk hstores)
  · obtain ⟨k, hk, rfl⟩ := List.mem_map.1 (hnodes ▸ hn)
    obtain ⟨l, hl, rfl⟩ := List.mem_map.1 (hnodes ▸ hm)
    obtain ⟨hsame, -⟩ := GraphNode.isActive_of_deactivatedIn hon
    rw [hsame] at hon
    simp only [GraphNode.deactivatedIn_owner, GraphNode.deactivatedIn_defines,
      GraphNode.deactivatedIn_id] at howner hm' hkey ⊢
    exact h.newest k hk hon howner l hl hm' hkey

theorem Exclusive.scheduled (h : s.Exclusive) (hs : s.Sound) (entry : Option Nat)
    (updates : List UpdateRoot) (full : Bool) : (s.scheduled entry updates full).Exclusive := by
  have hnodes : (s.scheduled entry updates full).graph.nodes =
      s.graph.nodes.map (·.deactivatedIn []) := by
    simp [CompileState.scheduled, modifyStream, graph]
  exact h.of_deactivated hs (s.evolves_scheduled entry updates full hs).2 h.names
    (fun _ hp _ => hp) hnodes

/-! ### The steps of a compilation -/

theorem names_foldl_retireProcedure (h : s.root.procedures.Distinct) (owned : List Procedure) :
    (owned.foldl (fun s p => s.retireProcedure p.index) s).root.procedures.Distinct :=
  List.foldlRecOn (motive := fun t : CompileState => t.root.procedures.Distinct) owned _ h
    fun _ ht p _ => ht.modify (f := fun p => { p with isActive := false }) (fun _ => rfl) p.index

/-- Retiring a subtree only deactivates what it owns. -/
theorem Exclusive.retire (h : s.Exclusive) (hs : s.Sound) (id : SubtreeId) :
    (s.retire id).Exclusive := by
  have hnames : (s.retire id).root.procedures.Distinct := by
    obtain ⟨updates, hwithout⟩ := s.exists_withoutStatements_eq id
    rw [retire_eq, hwithout]
    exact names_foldl_retireProcedure (s := (s.deactivateOwned id).scheduled _ updates _) h.names _
  have hnodes : (s.retire id).graph.nodes =
      s.graph.nodes.map (·.deactivatedIn ((s.graph.nodesOwnedBy id).map GraphNode.id)) := by
    rw [retire_eq, nodes_foldl_retireProcedure, graph_withoutStatements]
    exact hs.graph.nodes_foldl_deactivate _
  exact h.of_deactivated hs (s.evolves_retire id hs).2 hnames
    (fun _ hp hon => (hs.mem_procedures_retire hp hon).1) hnodes

section Statement

variable {owner : Option SubtreeId} {target name : String} {value body : Expr} {params : List String}

/-- An active procedure makes its name a function. -/
theorem Exclusive.isFunction (h : s.Exclusive) {p : Procedure}
    (hp : p ∈ s.root.procedures.procedures) (hon : p.isActive = true) : s.isFunction p.name = true := by
  rw [CompileState.isFunction, h.names.get?_eq hp]
  exact hon

/-- The records after an assignment: those before it, without what it replaces, and then the new one. -/
theorem Sound.nodes_assigned (hs : s.Sound) (owner : Option SubtreeId) (target : String) (value : Expr) :
    (s.assigned owner target value).graph.nodes = s.graph.nodes.map
        (·.deactivatedIn ((s.declare target).2.superseded (s.declare target).1)) ++
      [s.assignmentNode owner target value] := by
  have hbefore := hs.graph.nodes_foldl_deactivate
    ((s.declare target).2.superseded (s.declare target).1)
  rw [← graph_emitValue s target value] at hbefore
  refine ((s.emitValue target value).2.state.graph.insertNode_nodes _).trans ?_
  rw [hbefore]
  refine Keyed.put_eq_concat fun m hm => ?_
  obtain ⟨k, hk, rfl⟩ := List.mem_map.1 hm
  rw [k.deactivatedIn_id]
  exact Nat.lt_of_lt_of_eq (hs.ids k hk) (s.nextExpr_emitValue target value).symm

/-- An accepted assignment stores no function, and it replaces the statements without a subtree that
stored its variable before. -/
theorem Exclusive.assigned (h : s.Exclusive) (hs : s.Sound) (hfree : s.isFunction target = false) :
    (s.assigned owner target value).Exclusive := by
  have hext := (evolves_assigned s owner target value hs).2
  have hdeclare := s.registers_declare target
  have hdeclared := (hdeclare.evolves hs).1
  have hemit := registers_emitValue s target value
  have hmem := fun {n} => s.mem_assigned owner target value hs (n := n)
  refine ⟨?_, fun p hp hpon n hn hon hstores => ?_, fun n hn hon howner m hm hmowner hkey => ?_⟩
  · refine (respected_distinct {}).emit _ value { state := s.beforeValue target } ?_
    exact (declare_procedures s target).symm ▸ h.names
  · have hp : p ∈ s.root.procedures.procedures :=
      hdeclare.mem_of_active (hemit.mem_of_active hp hpon) hpon
    rcases (hmem hon).1 hn with rfl | ⟨hn, -⟩
    · have hnew : (s.assigned owner target value).Stores (s.assignmentNode owner target value)
          target := ⟨_, indexOf?_of_isPrefix hemit.symbols (s.indexOf?_declare target), rfl⟩
      have hfunction := h.isFunction hp hpon
      rw [hnew.unique hstores, hfree] at hfunction
      cases hfunction
    · exact h.separate p hp hpon n hn hon (hs.stores_back hext hn hstores)
  · have hm : m = s.assignmentNode owner target value ∨ ∃ k ∈ s.graph.nodes, m.id = k.id ∧
        k.owner = none ∧ k.defines = n.defines := by
      rw [hs.nodes_assigned] at hm
      rcases List.mem_append.1 hm with hm | hm
      · obtain ⟨k, hk, rfl⟩ := List.mem_map.1 hm
        exact .inr ⟨k, hk, by simp, by simpa using hmowner, by simpa using hkey⟩
      · exact .inl (List.mem_singleton.1 hm)
    rcases (hmem hon).1 hn with rfl | ⟨hn, hstays⟩
    · rcases hm with rfl | ⟨k, hk, hid, -⟩
      · exact Nat.le_refl _
      · rw [hid]
        exact Nat.le_of_lt
          (Nat.lt_of_lt_of_eq (hs.ids k hk) (s.nextExpr_emitValue target value).symm)
    · rcases hm with rfl | ⟨k, hk, hid, hkowner, hkkey⟩
      · -- the new statement has replaced the other one
        have hn' : n ∈ (s.declare target).2.graph.nodes := by rwa [hdeclare.graph]
        exact absurd ((mem_superseded hdeclared hn' hon).2 ⟨howner, hkey.symm⟩) hstays
      · rw [hid]
        exact h.newest n hn hon howner k hk hkowner hkkey

/-- An accepted definition gives a name to a function that no active statement stores. -/
theorem Exclusive.defined (h : s.Exclusive) (hs : s.Sound) (hfree : s.isAssigned name = false) :
    (s.defined owner name params body).Exclusive := by
  have hext := (evolves_defined s owner name params body hs).2
  have hnodes : (s.defined owner name params body).graph.nodes = s.graph.nodes := by
    rw [graph_defined]
    rfl
  have hnames : (s.defined owner name params body).root.procedures.Distinct := by
    have hemitted := (respected_distinct { params, defining := some name }).emit 0 body
      { state := s.beforeBody name params } (h.names.reserve name)
    rw [procedures_defined, ProcedureTable.Distinct, procedures_install]
    refine hemitted.modify (fun p => ?_) _
    rfl
  refine ⟨hnames, fun p hp hpon n hn hon hstores => ?_, ?_⟩
  · rw [hnodes] at hn
    have hold := hs.stores_back hext hn hstores
    rw [procedures_defined] at hp
    rcases mem_procedures_install hp hpon with ⟨rfl, -⟩ | hp
    · have hassigned := hs.isAssigned_iff.2 ⟨n, hn, hon, hold⟩
      rw [hfree] at hassigned
      cases hassigned
    · exact h.separate p hp hpon n hn hon hold
  · rw [hnodes]
    exact h.newest

/-- An accepted statement keeps names exclusive. -/
theorem Exclusive.statement (h : s.Exclusive) (hs : s.Sound) {statement : Statement}
    {warnings : List String} (accepted : compileStatement owner statement s = .ok (warnings, t)) :
    t.Exclusive := by
  rw [compileStatement_ok accepted]
  cases statement with
  | assign target value =>
    rw [compileStatement, compileAssignment_eq] at accepted
    split at accepted
    · cases accepted
    · rename_i hfree
      exact h.assigned hs (Bool.eq_false_iff.2 hfree)
  | define name params body =>
    rw [compileStatement, compileFunction_eq] at accepted
    split at accepted
    · cases accepted
    · rename_i hfree
      exact h.defined hs (Bool.eq_false_iff.2 hfree)

end Statement

/-! ### Whole sessions -/

/-- Names exclude each other in every program that has a history. -/
theorem History.excludes {log : List Addition} (h : s.History log) : s.Exclusive := by
  induction h with
  | new => exact exclusive_empty
  | scheduled before entry updates full ih => exact ih.scheduled before.sound entry updates full
  | retire before subtree ih => exact ih.retire before.sound subtree
  | statement before accepted ih => exact ih.statement before.sound accepted

/-- What is not active is not active in any later program, and statements that are added come after all that
the program had. -/
theorem Sound.continues (hs : s.Sound) (h : s.Continues t) :
    (∀ n ∈ s.graph.nodes, n.isActive = false → t.graph.node? n.id = some n) ∧
      ∀ n ∈ t.graph.nodes, s.graph.node? n.id = none → ∀ m ∈ s.graph.nodes, m.id < n.id := by
  obtain ⟨hevolves, hadds⟩ := h.appends
  obtain ⟨ht, -⟩ := hevolves hs
  obtain ⟨off, new, hadds⟩ := hadds hs
  refine ⟨fun n hn hoff => ?_, fun n hn hnew m hm => ?_⟩
  · rw [ht.graph.node?_eq_some, hadds.nodes]
    refine ⟨List.mem_append_left _ (List.mem_map.2 ⟨n, hn, ?_⟩), rfl⟩
    exact GraphNode.deactivatedIn_of_not_active off hoff
  · rw [hadds.nodes] at hn
    rcases List.mem_append.1 hn with hn | hn
    · obtain ⟨k, hk, rfl⟩ := List.mem_map.1 hn
      rw [k.deactivatedIn_id, hs.graph.node?_eq_some.2 ⟨hk, rfl⟩] at hnew
      cases hnew
    · exact Nat.lt_of_lt_of_le (hs.ids m hm) (hadds.fresh n hn)

/-- In every program that compilations and resets lead to, no active statement writes the variable that has
the name of an active function. An active statement without a subtree is the only one of its variable, and
all others without a subtree that ever wrote the variable were compiled before it. A statement that is not
active stays so in all later programs, and what these add is compiled after all that was there. -/
theorem Reached.exclusive {last : Option CompileState} (h : Reached last s) :
    (∀ p ∈ s.root.procedures.procedures, p.isActive = true →
      ∀ slot, s.root.symbols.indexOf? p.name = some slot → s.graph.writersOf (.global slot) = []) ∧
    (∀ n ∈ s.graph.nodes, n.isActive = true → n.owner = none →
      ∀ m ∈ s.graph.nodes, m.owner = none → m.defines = n.defines →
        (m.isActive = true → m = n) ∧ (m.isActive = false → m.id < n.id ∧ m.stop ≤ n.start)) ∧
    ∀ t, s.Continues t →
      (∀ n ∈ s.graph.nodes, n.isActive = false → t.graph.node? n.id = some n) ∧
      ∀ n ∈ t.graph.nodes, s.graph.node? n.id = none → ∀ m ∈ s.graph.nodes, m.id < n.id := by
  have hlaid := h.laid
  obtain ⟨log, hlog⟩ := h.recounted
  have hs := hlaid.sound
  have hexclusive := hlog.history.excludes
  refine ⟨fun p hp hpon slot hslot => ?_, fun n hn hon howner m hm hmowner hkey => ⟨fun hmon => ?_,
    fun hmoff => ?_⟩, fun t ht => hs.continues ht⟩
  · refine List.eq_nil_iff_forall_not_mem.2 fun id hid => ?_
    obtain ⟨n, hn, -, hon, hdefines⟩ := hs.graph.mem_writersOf.1 hid
    exact hexclusive.separate p hp hpon n hn hon ⟨slot, hslot, hdefines⟩
  · have hle := hexclusive.newest n hn hon howner m hm hmowner hkey
    have hge := hexclusive.newest m hm hmon hmowner n hn howner hkey.symm
    exact Keyed.eq_of_key_eq hs.graph.nodes hm hn (Nat.le_antisymm hle hge)
  · have hle := hexclusive.newest n hn hon howner m hm hmowner hkey
    have hne : m.id ≠ n.id := by
      intro hid
      rw [Keyed.eq_of_key_eq hs.graph.nodes hm hn hid, hon] at hmoff
      cases hmoff
    have hlt := Nat.lt_of_le_of_ne hle hne
    exact ⟨hlt, hlaid.all.stop_le_start hs.graph.nodes hm hn hlt⟩

/-- The variable `f` passes to a function when its subtree is retired, and `a` is assigned a second time. -/
theorem Reached.exclusive_passed : ∃ first second : CompiledImage, ∃ m n p,
    (compile { units := [⟨none, "a = 1;"⟩, ⟨some (.ofNat 0), "f = 5;"⟩] } {}).image = some first ∧
    (compile { units := [⟨none, "a = 2; def f() = a;"⟩], retired := [.ofNat 0] } first.state).image =
      some second ∧
    second.state.graph.nodes[0]? = some m ∧ second.state.graph.nodes[2]? = some n ∧
    m.isActive = false ∧ n.isActive = true ∧ m.id < n.id ∧ m.stop ≤ n.start ∧
    second.state.active? "f" = some p ∧ second.state.root.symbols.indexOf? p.name = some 1 ∧
    second.state.graph.writersOf (.global 1) = [] := by
  obtain ⟨first, hfirst⟩ := Option.isSome_iff_exists.1 (show (compile { units :=
    [⟨none, "a = 1;"⟩, ⟨some (.ofNat 0), "f = 5;"⟩] } {}).image.isSome by decide +kernel)
  have hsecond : (compile { units := [⟨none, "a = 2; def f() = a;"⟩], retired := [.ofNat 0] }
      first.state).image.isSome := by
    rw [compile_image hfirst]
    decide +kernel
  obtain ⟨second, hsecond⟩ := Option.isSome_iff_exists.1 hsecond
  have hnodes : second.state.graph.nodes.map (fun n => (n.isActive, n.owner, n.defines)) =
      [(false, none, some (.global 0)), (false, some (.ofNat 0), some (.global 1)),
        (true, none, some (.global 0))] := by
    rw [compile_image hsecond, compile_image hfirst]
    decide +kernel
  have hfunction : (second.state.active? "f").map
      (fun p => (p.isActive, second.state.root.symbols.indexOf? p.name)) = some (true, some 1) := by
    rw [compile_image hsecond, compile_image hfirst]
    decide +kernel
  obtain ⟨p, hp, hpf⟩ := Option.map_eq_some_iff.1 hfunction
  obtain ⟨hpon, hslot⟩ := Prod.mk.inj hpf
  have hpmem := List.mem_of_find?_eq_some (Option.eq_some_of_filter_eq_some hp)
  have hm := congrArg (·[0]?) hnodes
  have hn := congrArg (·[2]?) hnodes
  simp only [List.getElem?_map] at hm hn
  obtain ⟨m, hm, hmf⟩ := Option.map_eq_some_iff.1 hm
  obtain ⟨n, hn, hnf⟩ := Option.map_eq_some_iff.1 hn
  simp only [Prod.mk.injEq] at hmf hnf
  obtain ⟨hfunctions, hwriters, -⟩ := ((Reached.new.compiled hfirst).compiled hsecond).exclusive
  obtain ⟨-, hlater⟩ := hwriters n (List.mem_of_getElem? hn) hnf.1 hnf.2.1 m
    (List.mem_of_getElem? hm) hmf.2.1 (hmf.2.2.trans hnf.2.2.symm)
  obtain ⟨hid, hstop⟩ := hlater hmf.1
  exact ⟨first, second, m, n, p, hfirst, hsecond, hm, hn, hmf.1, hnf.1, hid, hstop, hp, hslot,
    hfunctions p hpmem hpon 1 hslot⟩

end CompileState

end Reflow
