import Mathlib.Data.List.Sort
import Reflow.Proofs.Graph.Spreading
/-!
# What the answers of a graph depend on

A graph is asked for the readers of a vertex, for the writers of a symbol, for what a change may reach
and for the statements of a subtree. Every answer lists a set in program order. It depends on the records
and on which edges there are, but not on the order in which the edges were added.

## Main definitions

* `DependencyGraph.Matches`: two graphs with the same records and the same edges.

## Main results

* `Matches.readersOf`, `Matches.writersOf`, `Matches.affectedBy`, `Matches.nodesOwnedBy`: such graphs
  answer alike.
* `Matches.edgeCount`: they have equally many edges.
* `Matches.insertNode`, `Matches.defineProcedure`, `Matches.retireProcedure`, `Matches.deactivate`,
  `Matches.deactivateOwner`: every operation keeps them so.
-/

namespace Reflow

/-- Two sorted lists with the same records are the same. -/
theorem Keyed.eq_of_mem_iff {α : Type} {key : α → Nat} {as bs : List α} (h : Sorted key as)
    (h' : Sorted key bs) (hmem : ∀ a, a ∈ as ↔ a ∈ bs) : as = bs := by
  have : Std.Irrefl fun a b : α => key a < key b := ⟨fun _ => Nat.lt_irrefl _⟩
  have : Std.Antisymm fun a b : α => key a < key b := ⟨fun _ _ h h' => absurd h' (Nat.lt_asymm h)⟩
  exact List.Pairwise.eq_of_mem_iff h h' hmem

namespace Ascending

theorem sorted_union {s : List Nat} (h : Keyed.Sorted id s) (more : List Nat) :
    Keyed.Sorted id (union s more) :=
  List.foldlRecOn more _ (motive := Keyed.Sorted id) h fun _ hs n _ => Keyed.sorted_put id n hs

theorem sorted_ofList (ns : List Nat) : Keyed.Sorted id (ofList ns) := sorted_union .nil ns

end Ascending

namespace DependencyGraph

variable {g g' : DependencyGraph}

/-! ### Each edge once -/

theorem nodup_link (h : g.edges.Nodup) (es : List Edge) : (g.link es).edges.Nodup := by
  refine List.foldlRecOn es _ (motive := List.Nodup) h fun edges hedges e _ => ?_
  split
  · exact hedges
  · rename_i hnew
    rw [← List.concat_eq_append]
    exact List.Nodup.concat hnew hedges

theorem nodup_unlink (h : g.edges.Nodup) (p : Edge → Bool) : (g.unlink p).edges.Nodup := h.filter _

/-! ### Graphs that differ in the order of their edges -/

/-- The two graphs have the same records and the same edges, each once. -/
structure Matches (g g' : DependencyGraph) : Prop where
  nodes : g'.nodes = g.nodes
  procedures : g'.procedures = g.procedures
  edges : ∀ e, e ∈ g'.edges ↔ e ∈ g.edges
  nodup : g.edges.Nodup
  nodup' : g'.edges.Nodup

namespace Matches

/-- There are equally many edges. -/
theorem edgeCount (h : g.Matches g') : g'.edges.length = g.edges.length :=
  ((List.perm_ext_iff_of_nodup h.nodup' h.nodup).2 h.edges).length_eq

theorem isActive (h : g.Matches g') : g'.isActive = g.isActive := by
  funext id
  rw [DependencyGraph.isActive, node?, h.nodes]
  rfl

theorem definedBy? (h : g.Matches g') : g'.definedBy? = g.definedBy? := by
  funext id
  rw [DependencyGraph.definedBy?, node?, h.nodes]
  rfl

theorem nodesOwnedBy (h : g.Matches g') : g'.nodesOwnedBy = g.nodesOwnedBy := by
  funext owner
  rw [DependencyGraph.nodesOwnedBy, activeNodes, h.nodes]
  rfl

theorem leads (h : g.Matches g') {v w : Vertex} : g'.Leads v w ↔ g.Leads v w := by
  constructor
  · intro hw
    induction hw with
    | self => exact .self
    | next _ he ih => exact .next ih ((h.edges _).1 he)
  · intro hw
    induction hw with
    | self => exact .self
    | next _ he ih => exact .next ih ((h.edges _).2 he)

theorem readersOf (h : g.Matches g') : g'.readersOf = g.readersOf := by
  funext v
  refine Keyed.eq_of_mem_iff (Ascending.sorted_ofList _) (Ascending.sorted_ofList _) fun n => ?_
  simp only [mem_readersOf, h.isActive, h.leads, h.edges]

theorem writersOf (h : g.Matches g') : g'.writersOf = g.writersOf := by
  funext key
  refine Keyed.eq_of_mem_iff (Ascending.sorted_ofList _) (Ascending.sorted_ofList _) fun n => ?_
  simp only [mem_writersOf, h.isActive, h.edges]

theorem affectedBy (h : g.Matches g') : g'.affectedBy = g.affectedBy := by
  -- the search compares the sets that it has found, so it runs alike on both graphs
  have hspread : g'.spread = g.spread := by
    funext fuel
    induction fuel with
    | zero => rfl
    | succ fuel ih =>
      funext queue seen affected
      cases queue with
      | nil => rfl
      | cons v queue => simp only [spread_succ, fresh, ih, h.readersOf, h.definedBy?]
  funext roots
  rw [DependencyGraph.affectedBy, hspread, h.nodes]
  rfl

/-! ### Operations -/

theorem link (h : g.Matches g') (es : List Edge) : (g.link es).Matches (g'.link es) where
  nodes := h.nodes
  procedures := h.procedures
  edges e := by rw [mem_link, mem_link, h.edges]
  nodup := nodup_link h.nodup es
  nodup' := nodup_link h.nodup' es

theorem unlink (h : g.Matches g') (p : Edge → Bool) : (g.unlink p).Matches (g'.unlink p) where
  nodes := h.nodes
  procedures := h.procedures
  edges e := by rw [mem_unlink, mem_unlink, h.edges]
  nodup := nodup_unlink h.nodup p
  nodup' := nodup_unlink h.nodup' p

/-- The same change of the statements' records. -/
theorem mapNodes (h : g.Matches g') (f : List GraphNode → List GraphNode) :
    ({ g with nodes := f g.nodes } : DependencyGraph).Matches { g' with nodes := f g'.nodes } :=
  ⟨congrArg f h.nodes, h.procedures, h.edges, h.nodup, h.nodup'⟩

/-- The same change of the procedures' records. -/
theorem mapProcedures (h : g.Matches g') (f : List ProcedureUses → List ProcedureUses) :
    ({ g with procedures := f g.procedures } : DependencyGraph).Matches
      { g' with procedures := f g'.procedures } :=
  ⟨h.nodes, congrArg f h.procedures, h.edges, h.nodup, h.nodup'⟩

theorem insertNode (h : g.Matches g') (n : GraphNode) : (g.insertNode n).Matches (g'.insertNode n) := by
  unfold DependencyGraph.insertNode
  split
  · exact (h.link n.edges).mapNodes (Keyed.put GraphNode.id n)
  · exact h.mapNodes (Keyed.put GraphNode.id n)

theorem defineProcedure (h : g.Matches g') (u : ProcedureUses) :
    (g.defineProcedure u).Matches (g'.defineProcedure u) :=
  ((h.unlink _).link u.edges).mapProcedures (Keyed.put ProcedureUses.procedure u)

theorem retireProcedure (h : g.Matches g') (index : Nat) :
    (g.retireProcedure index).Matches (g'.retireProcedure index) :=
  (h.unlink _).mapProcedures (Keyed.erase ProcedureUses.procedure index)

theorem deactivate (h : g.Matches g') (id : Nat) : (g.deactivate id).Matches (g'.deactivate id) := by
  unfold DependencyGraph.deactivate
  rw [h.isActive]
  split
  · exact (h.unlink _).mapNodes fun nodes =>
      nodes.map fun n => if n.id = id then { n with isActive := false } else n
  · exact h

theorem deactivateOwner (h : g.Matches g') (owner : SubtreeId) :
    (g'.deactivateOwner owner).1 = (g.deactivateOwner owner).1 ∧
      (g.deactivateOwner owner).2.Matches (g'.deactivateOwner owner).2 := by
  unfold DependencyGraph.deactivateOwner
  rw [h.nodesOwnedBy]
  refine ⟨rfl, ?_⟩
  dsimp only
  generalize g.nodesOwnedBy owner = owned
  induction owned generalizing g g' with
  | nil => exact h
  | cons n rest ih => exact ih (h.deactivate n.id)

end Matches

end DependencyGraph

end Reflow
