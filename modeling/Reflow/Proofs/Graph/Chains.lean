import Mathlib.Data.List.Induction
import Reflow.Proofs.Graph.Reloading
/-!
# Readers by chains of procedures

What a graph answers about readers follows from the operations that made it: from the statements that
were recorded and are still active, and from what was last recorded of each procedure and not retired
since. A statement reads a vertex if its own code uses it, or if procedures lie between, each of which is
called by the next one. A procedure without a record is no link of such a chain; it only passes what
changes at itself on to those that call it.

## Main definitions

* `GraphOperation.activeAfter`, `GraphOperation.recordAfter`: the active statements and the record of a
  procedure after some operations.
* `UseChain`: procedures from one that uses a vertex to one that is called, each called by the next.

## Main results

* `Sound.mem_activeAfter`, `Sound.recordAfter_eq`: what a graph has on record, by the operations that
  made it.
* `DependencyGraph.mem_readersOf_iff_chain`: the readers of a vertex, by these.
-/

namespace Reflow

namespace GraphOperation

/-- Whether an operation deactivates a statement. -/
def Deactivates (n : GraphNode) : GraphOperation → Prop
  | deactivate id => n.id = id
  | deactivateOwner owner => n.owner = some owner
  | _ => False

instance (n : GraphNode) : DecidablePred (Deactivates n)
  | insert _ | define _ | retire _ => isFalse not_false
  | deactivate id => inferInstanceAs (Decidable (n.id = id))
  | deactivateOwner owner => inferInstanceAs (Decidable (n.owner = some owner))

/-- The active statement that an operation records. -/
def started : GraphOperation → List GraphNode
  | insert n => if n.isActive then [n] else []
  | _ => []

theorem mem_started {o : GraphOperation} {n : GraphNode} :
    n ∈ o.started ↔ o = insert n ∧ n.isActive = true := by
  cases o with
  | insert m =>
    rw [started, insert.injEq]
    by_cases hm : m.isActive = true
    · rw [if_pos hm, List.mem_singleton, eq_comm]
      exact ⟨fun h => ⟨h, h ▸ hm⟩, fun h => h.1⟩
    · rw [if_neg hm]
      refine ⟨fun h => (List.not_mem_nil h).elim, ?_⟩
      rintro ⟨rfl, hn⟩
      exact absurd hn hm
  | _ => simp [started]

/-- The statements that some operations leave active, in the order in which they were recorded. -/
def activeAfter (operations : List GraphOperation) : List GraphNode :=
  operations.foldl (fun active o => active.filter (¬ o.Deactivates ·) ++ o.started) []

/-- The record of a procedure after one more operation. -/
def stepRecord (procedure : Nat) (record : Option ProcedureUses) :
    GraphOperation → Option ProcedureUses
  | define u => if u.procedure = procedure then some u else record
  | retire index => if index = procedure then none else record
  | _ => record

/-- The record that some operations leave of a procedure: the last one, unless it was retired since. -/
def recordAfter (operations : List GraphOperation) (procedure : Nat) : Option ProcedureUses :=
  operations.foldl (stepRecord procedure) none

end GraphOperation

open GraphOperation (activeAfter recordAfter)

/-- The record of a key after the record of another one was erased. -/
theorem Keyed.get?_erase {α : Type} (key : α → Nat) (k k' : Nat) (as : List α) :
    get? key k' (erase key k as) = if k = k' then none else get? key k' as := by
  rw [get?, erase, List.find?_filter]
  split
  · rename_i hk
    refine List.find?_eq_none.2 fun a _ => ?_
    simp [hk]
  · rename_i hk
    refine congrArg (as.find? ·) (funext fun a => ?_)
    by_cases ha : key a = k'
    · simp [ha, Ne.symm hk]
    · simp [ha]

namespace DependencyGraph

variable {g : DependencyGraph}

/-! ### What is on record -/

namespace Sound

/-- The record of a procedure after an operation, by the record before it. -/
theorem record_apply (h : g.Sound) (o : GraphOperation) (p : Nat) :
    Keyed.get? ProcedureUses.procedure p (g.apply o).procedures =
      o.stepRecord p (Keyed.get? ProcedureUses.procedure p g.procedures) := by
  cases o with
  | insert n => exact congrArg (Keyed.get? _ p) (insertNode_procedures g n)
  | define u => exact Keyed.get?_put _ u p h.procedures
  | retire index => exact Keyed.get?_erase _ index p g.procedures
  | deactivate id => exact congrArg (Keyed.get? _ p) (deactivate_procedures g id)
  | deactivateOwner owner =>
    rw [DependencyGraph.apply, deactivateOwner_snd, foldl_deactivate_procedures]
    rfl

/-- The statements of a subtree are deactivated, and no others. -/
theorem mem_deactivateOwner_of_active (h : g.Sound) {owner : SubtreeId} {n : GraphNode}
    (hon : n.isActive = true) :
    n ∈ (g.deactivateOwner owner).2.nodes ↔ n ∈ g.nodes ∧ n.owner ≠ some owner := by
  rw [deactivateOwner_snd, h.mem_foldl_deactivate_of_active hon]
  refine and_congr_right fun hn => not_congr ?_
  simp only [List.mem_map, nodesOwnedBy, activeNodes, List.mem_filter, decide_eq_true_eq]
  constructor
  · rintro ⟨m, ⟨⟨hm, -⟩, howner⟩, hid⟩
    rwa [← Keyed.eq_of_key_eq h.nodes hm hn hid]
  · exact fun howner => ⟨n, ⟨⟨hn, hon⟩, howner⟩, rfl⟩

/-- The active statements after an operation, by those before it. -/
theorem mem_apply_of_active (h : g.Sound) {o : GraphOperation}
    (hnew : ∀ id, o.inserted? = some id → ∀ m ∈ g.nodes, m.id ≠ id) {n : GraphNode}
    (hon : n.isActive = true) :
    n ∈ (g.apply o).nodes ↔ n ∈ g.nodes ∧ ¬ o.Deactivates n ∨ n ∈ o.started := by
  cases o with
  | insert m =>
    rw [DependencyGraph.apply, h.mem_insertNode (hnew m.id rfl), GraphOperation.mem_started,
      GraphOperation.insert.injEq, and_iff_left hon, eq_comm, or_comm]
    exact or_congr_left (and_iff_left not_false).symm
  | define u => exact (or_iff_left List.not_mem_nil |>.trans (and_iff_left not_false)).symm
  | retire index => exact (or_iff_left List.not_mem_nil |>.trans (and_iff_left not_false)).symm
  | deactivate id =>
    have hone : n ∈ ([id].foldl DependencyGraph.deactivate g).nodes ↔ n ∈ g.nodes ∧ n.id ∉ [id] :=
      h.mem_foldl_deactivate_of_active hon
    rw [List.mem_singleton] at hone
    exact hone.trans (or_iff_left List.not_mem_nil).symm
  | deactivateOwner owner =>
    exact (h.mem_deactivateOwner_of_active hon).trans (or_iff_left List.not_mem_nil).symm

end Sound

/-- What a graph has on record is what some operations leave. -/
structure Follows (operations : List GraphOperation) (g : DependencyGraph) : Prop where
  sound : g.Sound
  inserted : ∀ n ∈ g.nodes, n.id ∈ operations.filterMap GraphOperation.inserted?
  active : ∀ n, n ∈ activeAfter operations ↔ n ∈ g.nodes ∧ n.isActive = true
  records : ∀ p, recordAfter operations p = Keyed.get? ProcedureUses.procedure p g.procedures

namespace Follows

variable {operations : List GraphOperation}

theorem nil : Follows [] {} :=
  ⟨sound_empty, fun _ hn => (List.not_mem_nil hn).elim, fun _ => by simp [activeAfter], fun _ => rfl⟩

theorem apply (h : Follows operations g) {o : GraphOperation}
    (hfresh : ∀ id, o.inserted? = some id → id ∉ operations.filterMap GraphOperation.inserted?) :
    Follows (operations ++ [o]) (g.apply o) := by
  have hnew : ∀ id, o.inserted? = some id → ∀ m ∈ g.nodes, m.id ≠ id := by
    rintro id hid m hm rfl
    exact hfresh _ hid (h.inserted m hm)
  refine ⟨h.sound.apply hnew, fun n hn => ?_, fun n => ?_, fun p => ?_⟩
  · rw [List.filterMap_append, List.mem_append]
    obtain ⟨m, hm, hid⟩ | hid := h.sound.id_of_mem_apply hn
    · exact .inl (hid ▸ h.inserted m hm)
    · exact .inr (List.mem_filterMap.2 ⟨o, List.mem_singleton_self o, hid⟩)
  · have hstep : n ∈ activeAfter (operations ++ [o]) ↔
        (n ∈ g.nodes ∧ n.isActive = true) ∧ ¬ o.Deactivates n ∨ n ∈ o.started := by
      rw [activeAfter, List.foldl_concat, List.mem_append, List.mem_filter, ← activeAfter, h.active,
        decide_eq_true_eq]
    rw [hstep]
    by_cases hon : n.isActive = true
    · rw [h.sound.mem_apply_of_active hnew hon]
      simp [hon]
    · simp [hon, GraphOperation.mem_started]
  · rw [recordAfter, List.foldl_concat, ← recordAfter, h.records, h.sound.record_apply]

end Follows

/-- A graph has on record what the operations leave that made it. -/
theorem follows_applyAll (operations : List GraphOperation)
    (hnew : (operations.filterMap GraphOperation.inserted?).Nodup) :
    Follows operations (({} : DependencyGraph).applyAll operations) := by
  induction operations using List.reverseRecOn with
  | nil => exact .nil
  | append_singleton operations o ih =>
    rw [List.filterMap_append, List.nodup_append] at hnew
    rw [applyAll, List.foldl_concat]
    refine (ih hnew.1).apply fun id hid hold => ?_
    exact hnew.2.2 id hold id (List.mem_filterMap.2 ⟨o, List.mem_singleton_self o, hid⟩) rfl

/-! ### Chains of procedures -/

/-- Procedures by which code that calls the last of them uses a vertex: the first one has a record that
uses the vertex, and each one is called by the record of the next. -/
structure UseChain (record : Nat → Option ProcedureUses) (v : Vertex) (calls : List Nat)
    (first : Nat) (rest : List Nat) : Prop where
  uses : ∃ u, record first = some u ∧ v ∈ u.uses
  links : (first :: rest).IsChain fun p q => ∃ u, record q = some u ∧ p ∈ u.calls
  called : (first :: rest).getLast (List.cons_ne_nil _ _) ∈ calls

theorem procedure_mem_uses {u : ProcedureUses} {p : Nat} : .procedure p ∈ u.uses ↔ p ∈ u.calls := by
  simp [ProcedureUses.uses]

theorem procedure_mem_node_uses {n : GraphNode} {p : Nat} : .procedure p ∈ n.uses ↔ p ∈ n.calls := by
  simp [GraphNode.uses]

variable {record : Nat → Option ProcedureUses} {n : GraphNode}

/-- What is reached from a statement is used by its code, or by a chain of procedures. -/
theorem Reaches.chain (hrecord : ∀ u ∈ g.procedures, record u.procedure = some u) {v : Vertex}
    (h : g.Reaches n.uses v) :
    v ∈ n.uses ∨ ∃ first rest, UseChain record v n.calls first rest := by
  induction h with
  | use hv => exact .inl hv
  | @through u v hu _ hv ih =>
    refine .inr ?_
    rcases ih with hcalled | ⟨first, rest, hchain⟩
    · exact ⟨u.procedure, [], ⟨u, hrecord u hu, hv⟩, .singleton _, procedure_mem_node_uses.1 hcalled⟩
    · obtain ⟨w, hw, hcall⟩ := hchain.uses
      exact ⟨u.procedure, first :: rest, ⟨u, hrecord u hu, hv⟩,
        .cons_cons ⟨w, hw, procedure_mem_uses.1 hcall⟩ hchain.links, hchain.called⟩

/-- What a chain of procedures uses is reached from a statement that calls the last one. -/
theorem UseChain.reaches (hrecord : ∀ p u, record p = some u → u ∈ g.procedures ∧ u.procedure = p) :
    ∀ {v : Vertex} {first : Nat} {rest : List Nat}, UseChain record v n.calls first rest →
      g.Reaches n.uses v
  | v, first, [], h => by
    obtain ⟨u, hu, hv⟩ := h.uses
    obtain ⟨hmem, rfl⟩ := hrecord first u hu
    exact .through hmem (.use (procedure_mem_node_uses.2 h.called)) hv
  | v, first, second :: rest, h => by
    obtain ⟨u, hu, hv⟩ := h.uses
    obtain ⟨hmem, rfl⟩ := hrecord first u hu
    obtain ⟨⟨w, hw, hcall⟩, hlinks⟩ := List.isChain_cons_cons.1 h.links
    have hsecond : UseChain record (.procedure u.procedure) n.calls second rest :=
      ⟨⟨w, hw, procedure_mem_uses.2 hcall⟩, hlinks, h.called⟩
    exact .through hmem (hsecond.reaches hrecord) hv

/-- Every procedure of a chain has a record. -/
theorem UseChain.record_of_mem {p : Nat} : ∀ {v : Vertex} {calls : List Nat} {first : Nat}
    {rest : List Nat}, UseChain record v calls first rest → p ∈ first :: rest → ∃ u, record p = some u
  | v, calls, first, [], h, hp => by
    obtain ⟨u, hu, -⟩ := h.uses
    exact ⟨u, List.mem_singleton.1 hp ▸ hu⟩
  | v, calls, first, second :: rest, h, hp => by
    rcases List.mem_cons.1 hp with rfl | hp
    · obtain ⟨u, hu, -⟩ := h.uses
      exact ⟨u, hu⟩
    · obtain ⟨⟨w, hw, hcall⟩, hlinks⟩ := List.isChain_cons_cons.1 h.links
      have hsecond : UseChain record (.procedure first) calls second rest :=
        ⟨⟨w, hw, procedure_mem_uses.2 hcall⟩, hlinks, h.called⟩
      exact hsecond.record_of_mem hp

/-- However a graph has come about, if no number was given to two statements: the readers of a vertex are
the active statements whose code uses it, or calls the last of a chain of procedures the first of which
uses it. What counts of a procedure is its last record. One that has none, since it was never defined or
was retired, is in no chain, and nothing leads to it. -/
theorem mem_readersOf_iff_chain (operations : List GraphOperation)
    (hnew : (operations.filterMap GraphOperation.inserted?).Nodup) :
    let g := ({} : DependencyGraph).applyAll operations
    (∀ v e, e ∈ g.readersOf v ↔ ∃ n ∈ activeAfter operations, n.id = e ∧
      (v ∈ n.uses ∨ ∃ first rest, UseChain (recordAfter operations) v n.calls first rest)) ∧
    ∀ p, recordAfter operations p = none →
      (∀ v calls first rest, UseChain (recordAfter operations) v calls first rest → p ∉ first :: rest) ∧
      ∀ w, (⟨w, .procedure p⟩ : Edge) ∉ g.edges := by
  intro g
  have hfollows : Follows operations g := follows_applyAll operations hnew
  have hrecord : ∀ p u, recordAfter operations p = some u ↔ u ∈ g.procedures ∧ u.procedure = p :=
    fun p u => by rw [hfollows.records, Keyed.get?_eq_some hfollows.sound.procedures]
  refine ⟨fun v e => ⟨fun he => ?_, ?_⟩, fun p hp => ⟨fun v calls first rest hchain hmem => ?_, ?_⟩⟩
  · obtain ⟨n, hn, rfl, hon⟩ := hfollows.sound.isActive_iff.1 (mem_readersOf.1 he).1
    exact ⟨n, (hfollows.active n).2 ⟨hn, hon⟩, rfl,
      (hfollows.sound.reaches_of_mem_readersOf hn he).chain fun u hu => (hrecord _ u).2 ⟨hu, rfl⟩⟩
  · rintro ⟨n, hn, rfl, huse⟩
    obtain ⟨hn, hon⟩ := (hfollows.active n).1 hn
    refine hfollows.sound.mem_readersOf hn hon ?_
    rcases huse with huse | ⟨first, rest, hchain⟩
    · exact .use huse
    · exact hchain.reaches fun p u => (hrecord p u).1
  · obtain ⟨u, hu⟩ := hchain.record_of_mem hmem
    exact absurd (hu.symm.trans hp) (Option.some_ne_none u)
  · intro w hw
    obtain ⟨u, hu, hindex, -⟩ := hfollows.sound.use_of_edge hw
    exact absurd (((hrecord p u).2 ⟨hu, hindex⟩).symm.trans hp) (Option.some_ne_none u)

/-- Two procedures call each other, a third one calls one that is retired after statements have called
it. The statement that calls the second one reads what the first one reads, and the statement that calls
the third one is told of a change of the retired one only. -/
theorem mem_readersOf_iff_chain_mutual :
    let operations : List GraphOperation :=
      [.insert { id := 5, calls := [1] }, .insert { id := 4, calls := [2] }, .insert { id := 7, calls := [3] },
        .define ⟨0, [], [0]⟩, .define ⟨1, [], [0]⟩, .define ⟨0, [⟨0, 0⟩], [1, 0]⟩,
        .define ⟨2, [⟨0, 0⟩], [1]⟩, .define ⟨3, [], [2, 6]⟩, .deactivate 4, .retire 2]
    let g := ({} : DependencyGraph).applyAll operations
    (operations.filterMap GraphOperation.inserted?).Nodup ∧ recordAfter operations 2 = none ∧
      5 ∈ g.readersOf (.symbol ⟨0, 0⟩) ∧ 7 ∉ g.readersOf (.symbol ⟨0, 0⟩) ∧
      7 ∈ g.readersOf (.procedure 2) ∧ ∀ w, (⟨w, .procedure 2⟩ : Edge) ∉ g.edges := by
  intro operations g
  have hnew : (operations.filterMap GraphOperation.inserted?).Nodup := by decide
  have hretired : recordAfter operations 2 = none := by decide
  obtain ⟨hreaders, hnone⟩ := mem_readersOf_iff_chain operations hnew
  refine ⟨hnew, hretired, (hreaders _ 5).2 ?_, by decide, (hreaders _ 7).2 ?_, (hnone 2 hretired).2⟩
  · exact ⟨{ id := 5, calls := [1] }, by decide, rfl,
      .inr ⟨0, [1], ⟨_, rfl, by decide⟩, .cons_cons ⟨_, rfl, by decide⟩ (.singleton _), by decide⟩⟩
  · exact ⟨{ id := 7, calls := [3] }, by decide, rfl,
      .inr ⟨3, [], ⟨_, rfl, by decide⟩, .singleton _, by decide⟩⟩

end DependencyGraph

end Reflow
