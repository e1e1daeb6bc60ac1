import Reflow.Proofs.Graph.Answers
/-!
# A graph and its records

A graph is exchanged by its records only, and its edges are made anew from them: procedures before
statements, whatever the order was in which they were recorded, retired and replaced. Nothing is lost by
that, since however a graph has come about, its edges are those of its records.

## Main definitions

* `GraphOperation`: the operations that change a graph.
* `DependencyGraph.applyAll`: a graph after some operations.

## Main results

* `Sound.matches_ofRecords`: the graph that is made anew has the same records and the same edges.
* `edges_of_records`: every graph is determined by its records, now and after whatever follows.
-/

namespace Reflow

/-- An operation that changes a graph. -/
inductive GraphOperation
  | insert (node : GraphNode)
  | define (uses : ProcedureUses)
  | retire (procedure : Nat)
  | deactivate (id : Nat)
  | deactivateOwner (owner : SubtreeId)

/-- The number of the statement that an operation records. -/
def GraphOperation.inserted? : GraphOperation → Option Nat
  | insert n => some n.id
  | _ => none

namespace DependencyGraph

/-- The graph after an operation. -/
def apply (g : DependencyGraph) : GraphOperation → DependencyGraph
  | .insert n => g.insertNode n
  | .define u => g.defineProcedure u
  | .retire index => g.retireProcedure index
  | .deactivate id => g.deactivate id
  | .deactivateOwner owner => (g.deactivateOwner owner).2

/-- The graph after some operations. -/
def applyAll (g : DependencyGraph) (operations : List GraphOperation) : DependencyGraph :=
  operations.foldl apply g

variable {g g' : DependencyGraph}

/-! ### Operations in a row -/

theorem Matches.apply (h : g.Matches g') (o : GraphOperation) : (g.apply o).Matches (g'.apply o) := by
  cases o with
  | insert n => exact h.insertNode n
  | define u => exact h.defineProcedure u
  | retire index => exact h.retireProcedure index
  | deactivate id => exact h.deactivate id
  | deactivateOwner owner => exact (h.deactivateOwner owner).2

theorem Matches.applyAll (h : g.Matches g') (operations : List GraphOperation) :
    (g.applyAll operations).Matches (g'.applyAll operations) := by
  induction operations generalizing g g' with
  | nil => exact h
  | cons o rest ih => exact ih (h.apply o)

theorem deactivateOwner_snd (g : DependencyGraph) (owner : SubtreeId) :
    (g.deactivateOwner owner).2 = ((g.nodesOwnedBy owner).map GraphNode.id).foldl deactivate g :=
  List.foldl_map.symm

/-- Only an insertion adds a record of a statement. -/
theorem Sound.id_of_mem_apply (h : g.Sound) {o : GraphOperation} {n : GraphNode}
    (hn : n ∈ (g.apply o).nodes) : (∃ m ∈ g.nodes, m.id = n.id) ∨ o.inserted? = some n.id := by
  cases o with
  | insert m =>
    rw [apply, insertNode_nodes] at hn
    rcases Keyed.mem_put _ hn with rfl | hn
    · exact .inr rfl
    · exact .inl ⟨n, hn, rfl⟩
  | define u => exact .inl ⟨n, hn, rfl⟩
  | retire index => exact .inl ⟨n, hn, rfl⟩
  | deactivate id =>
    obtain ⟨m, hm, rfl⟩ := h.mem_deactivate.1 hn
    refine .inl ⟨m, hm, ?_⟩
    split <;> rfl
  | deactivateOwner owner =>
    rw [apply, deactivateOwner_snd, h.nodes_foldl_deactivate] at hn
    obtain ⟨m, hm, rfl⟩ := List.mem_map.1 hn
    exact .inl ⟨m, hm, (m.deactivatedIn_id _).symm⟩

theorem Sound.apply (h : g.Sound) {o : GraphOperation}
    (hnew : ∀ id, o.inserted? = some id → ∀ m ∈ g.nodes, m.id ≠ id) : (g.apply o).Sound := by
  cases o with
  | insert n => exact h.insertNode (hnew n.id rfl)
  | define u => exact h.defineProcedure u
  | retire index => exact h.retireProcedure index
  | deactivate id => exact h.deactivate id
  | deactivateOwner owner =>
    rw [DependencyGraph.apply, deactivateOwner_snd]
    exact h.foldl_deactivate _

/-- If no number is given to two statements, the edges stay those of the records. -/
theorem Sound.applyAll (h : g.Sound) {operations : List GraphOperation}
    (hdistinct : (operations.filterMap GraphOperation.inserted?).Nodup)
    (hnew : ∀ id ∈ operations.filterMap GraphOperation.inserted?, ∀ m ∈ g.nodes, m.id ≠ id) :
    (g.applyAll operations).Sound := by
  induction operations generalizing g with
  | nil => exact h
  | cons o rest ih =>
    have hmem : ∀ id, o.inserted? = some id ∨ id ∈ rest.filterMap GraphOperation.inserted? →
        id ∈ (o :: rest).filterMap GraphOperation.inserted? := by
      rintro id (hid | hid)
      · rw [List.filterMap_cons_some hid]
        exact List.mem_cons_self
      · rw [List.filterMap_cons]
        split
        · exact hid
        · exact List.mem_cons_of_mem _ hid
    refine ih (h.apply fun id hid => hnew id (hmem id (.inl hid)))
      (hdistinct.sublist (List.sublist_cons_self o rest |>.filterMap _)) fun id hid m hm => ?_
    obtain ⟨k, hk, hid'⟩ | hid' := h.id_of_mem_apply hm
    · exact hid' ▸ hnew id (hmem id (.inr hid)) k hk
    · rintro rfl
      rw [List.filterMap_cons_some hid', List.nodup_cons] at hdistinct
      exact hdistinct.1 hid

/-! ### Making a graph anew -/

theorem nodup_insertNode (h : g.edges.Nodup) (n : GraphNode) : (g.insertNode n).edges.Nodup := by
  unfold insertNode
  split
  · exact nodup_link h n.edges
  · exact h

theorem nodup_defineProcedure (h : g.edges.Nodup) (u : ProcedureUses) :
    (g.defineProcedure u).edges.Nodup :=
  nodup_link (nodup_unlink h _) u.edges

/-- Every edge of a graph is there once. -/
theorem nodup_apply (h : g.edges.Nodup) (o : GraphOperation) : (g.apply o).edges.Nodup := by
  have hdeactivate : ∀ (id : Nat) {g : DependencyGraph},
      g.edges.Nodup → (g.deactivate id).edges.Nodup := by
    intro id g h
    unfold deactivate
    split
    · exact nodup_unlink h _
    · exact h
  cases o with
  | insert n => exact nodup_insertNode h n
  | define u => exact nodup_defineProcedure h u
  | retire index => exact nodup_unlink h _
  | deactivate id => exact hdeactivate id h
  | deactivateOwner owner =>
    exact List.foldlRecOn (g.nodesOwnedBy owner) _ (motive := fun g : DependencyGraph => g.edges.Nodup) h
      fun _ hg n _ => hdeactivate n.id hg

theorem nodup_applyAll (h : g.edges.Nodup) (operations : List GraphOperation) :
    (g.applyAll operations).edges.Nodup :=
  List.foldlRecOn operations _ (motive := fun g : DependencyGraph => g.edges.Nodup) h
    fun _ hg o _ => nodup_apply hg o

theorem foldl_defineProcedure (records : List ProcedureUses)
    (hg : g.Sound) (hsorted : Keyed.Sorted ProcedureUses.procedure (g.procedures ++ records)) :
    let g' := records.foldl defineProcedure g
    g'.Sound ∧ g'.nodes = g.nodes ∧ g'.procedures = g.procedures ++ records := by
  induction records generalizing g with
  | nil => exact ⟨hg, rfl, (List.append_nil _).symm⟩
  | cons u rest ih =>
    have hlast : (g.defineProcedure u).procedures = g.procedures ++ [u] := by
      refine Keyed.put_eq_concat fun w hw => ?_
      exact (List.pairwise_append.1 hsorted).2.2 w hw u List.mem_cons_self
    obtain ⟨hsound, hnodes, hprocedures⟩ := ih (hg.defineProcedure u)
      (by rwa [hlast, List.append_assoc])
    refine ⟨hsound, hnodes, hprocedures.trans ?_⟩
    rw [hlast, List.append_assoc]
    rfl

theorem foldl_insertNode (records : List GraphNode)
    (hg : g.Sound) (hsorted : Keyed.Sorted GraphNode.id (g.nodes ++ records)) :
    let g' := records.foldl insertNode g
    g'.Sound ∧ g'.nodes = g.nodes ++ records ∧ g'.procedures = g.procedures := by
  induction records generalizing g with
  | nil => exact ⟨hg, (List.append_nil _).symm, rfl⟩
  | cons n rest ih =>
    have hbefore : ∀ m ∈ g.nodes, m.id < n.id := fun m hm =>
      (List.pairwise_append.1 hsorted).2.2 m hm n List.mem_cons_self
    have hlast : (g.insertNode n).nodes = g.nodes ++ [n] :=
      (insertNode_nodes g n).trans (Keyed.put_eq_concat hbefore)
    obtain ⟨hsound, hnodes, hprocedures⟩ :=
      ih (hg.insertNode fun m hm => Nat.ne_of_lt (hbefore m hm)) (by rwa [hlast, List.append_assoc])
    refine ⟨hsound, hnodes.trans ?_, hprocedures.trans (insertNode_procedures g n)⟩
    rw [hlast, List.append_assoc]
    rfl

/-- The graph that is made anew from the records of a graph has these records and the same edges. -/
theorem Sound.matches_ofRecords (h : g.Sound) (hnodup : g.edges.Nodup) :
    g.Matches (ofRecords g.nodes g.procedures) := by
  obtain ⟨hdefined, hnodes, hprocedures⟩ :=
    foldl_defineProcedure g.procedures sound_empty h.procedures
  obtain ⟨hsound, hnodes', hprocedures'⟩ := foldl_insertNode g.nodes hdefined
    (by rw [hnodes]; exact h.nodes)
  have hn : (ofRecords g.nodes g.procedures).nodes = g.nodes := by
    rw [ofRecords, hnodes', hnodes, List.nil_append]
  have hp : (ofRecords g.nodes g.procedures).procedures = g.procedures := by
    rw [ofRecords, hprocedures', hprocedures, List.nil_append]
  have hsound : (ofRecords g.nodes g.procedures).Sound := hsound
  refine ⟨hn, hp, fun e => ?_, hnodup, ?_⟩
  · rw [hsound.mem_edges, h.mem_edges, hn, hp]
  · refine List.foldlRecOn g.nodes _ (motive := fun g : DependencyGraph => g.edges.Nodup) ?_
      fun _ hg n _ => nodup_insertNode hg n
    exact List.foldlRecOn g.procedures _ (motive := fun g : DependencyGraph => g.edges.Nodup) List.nodup_nil
      fun _ hg u _ => nodup_defineProcedure hg u

/-- However a graph has come about, if no number was given to two statements, its edges are those of the
active statements and of the procedures on record, each once. The graph that is made anew from its records
therefore has the same statements and equally many edges and gives the same answers, now and after
whatever operations follow. -/
theorem edges_of_records (operations : List GraphOperation)
    (hnew : (operations.filterMap GraphOperation.inserted?).Nodup) :
    let g := ({} : DependencyGraph).applyAll operations
    (g.edges.Nodup ∧ ∀ e, e ∈ g.edges ↔
      (∃ n ∈ g.activeNodes, (∃ key ∈ n.reads, e = ⟨.symbol key, .expr n.id⟩) ∨
        (∃ p ∈ n.calls, e = ⟨.procedure p, .expr n.id⟩) ∨
        ∃ key, n.defines = some key ∧ e = ⟨.expr n.id, .symbol key⟩) ∨
      ∃ u ∈ g.procedures, (∃ key ∈ u.reads, e = ⟨.symbol key, .procedure u.procedure⟩) ∨
        ∃ p ∈ u.calls, p ≠ u.procedure ∧ e = ⟨.procedure p, .procedure u.procedure⟩) ∧
    ∀ later : List GraphOperation,
      let kept := g.applyAll later
      let reloaded := (ofRecords g.nodes g.procedures).applyAll later
      reloaded.nodes = kept.nodes ∧ reloaded.edges.length = kept.edges.length ∧
        (∀ v, reloaded.readersOf v = kept.readersOf v) ∧
        (∀ key, reloaded.writersOf key = kept.writersOf key) ∧
        (∀ roots, reloaded.affectedBy roots = kept.affectedBy roots) ∧
        ∀ owner, reloaded.nodesOwnedBy owner = kept.nodesOwnedBy owner := by
  intro g
  have hsound : g.Sound := sound_empty.applyAll hnew fun _ _ m hm => by cases hm
  have hnodup : g.edges.Nodup := nodup_applyAll List.nodup_nil operations
  refine ⟨⟨hnodup, fun e => ?_⟩, fun later => ?_⟩
  · simp only [hsound.mem_edges, activeNodes, List.mem_filter, and_assoc, GraphNode.mem_edges,
      ProcedureUses.mem_edges]
  · have hmatches := (hsound.matches_ofRecords hnodup).applyAll later
    exact ⟨hmatches.nodes, hmatches.edgeCount, congrFun hmatches.readersOf,
      congrFun hmatches.writersOf, congrFun hmatches.affectedBy, congrFun hmatches.nodesOwnedBy⟩

/-- A procedure is replaced after a statement has called it, and retired and recorded again after the
statement is gone: the edges that are left come in another order than the one in which the records give
them, and the answers are the same. -/
theorem edges_of_records_replaced :
    let first : List GraphOperation :=
      [.insert { id := 3, owner := some ⟨7⟩, defines := some ⟨0, 1⟩, reads := [⟨0, 0⟩], calls := [5] },
        .insert { id := 1, reads := [⟨0, 2⟩], isActive := false },
        .insert { id := 2, owner := some ⟨8⟩, defines := some ⟨0, 2⟩, reads := [⟨0, 1⟩] },
        .define ⟨5, [⟨0, 2⟩], [5]⟩, .define ⟨4, [⟨0, 0⟩], [5]⟩, .define ⟨5, [⟨0, 0⟩], [5]⟩,
        .retire 4, .deactivateOwner ⟨8⟩, .define ⟨4, [], [5]⟩]
    let kept := ({} : DependencyGraph).applyAll first
    let reloaded := ofRecords kept.nodes kept.procedures
    (first.filterMap GraphOperation.inserted?).Nodup ∧ reloaded.edges ≠ kept.edges ∧
      kept.readersOf (.symbol ⟨0, 0⟩) = [3] ∧
      reloaded.readersOf (.symbol ⟨0, 0⟩) = kept.readersOf (.symbol ⟨0, 0⟩) ∧
      (reloaded.applyAll [.deactivate 3]).edges.length = (kept.applyAll [.deactivate 3]).edges.length := by
  intro first kept reloaded
  have hnew : (first.filterMap GraphOperation.inserted?).Nodup := by decide
  have hlater := (edges_of_records first hnew).2
  exact ⟨hnew, by decide, by decide, (hlater []).2.2.1 _, (hlater [.deactivate 3]).2.1⟩

end DependencyGraph

end Reflow
