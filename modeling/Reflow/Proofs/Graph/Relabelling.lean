import Reflow.Proofs.Graph.Answers
/-!
# Graphs under other identities

The statements of a graph belong to subtrees, whose identities are compared with each other and looked at
in no other way. Under other identities that are as different from each other, every operation does the
same and every answer is the same.

## Main definitions

* `GraphNode.relabel`, `DependencyGraph.relabel`: the same with other identities.

## Main results

* `DependencyGraph.insertNode_relabel`, `DependencyGraph.deactivate_relabel`: operations.
* `DependencyGraph.readersOf_relabel`, `DependencyGraph.writersOf_relabel`,
  `DependencyGraph.nodesOwnedBy_relabel`: answers.
-/

namespace Reflow

/-- The record with another identity. -/
def GraphNode.relabel (p : SubtreeId → SubtreeId) (n : GraphNode) : GraphNode :=
  { n with owner := n.owner.map p }

theorem GraphNode.id_relabel (p : SubtreeId → SubtreeId) (n : GraphNode) : (n.relabel p).id = n.id := rfl

namespace DependencyGraph

/-- The graph with other identities. -/
def relabel (p : SubtreeId → SubtreeId) (g : DependencyGraph) : DependencyGraph :=
  { g with nodes := g.nodes.map (·.relabel p) }

variable (p : SubtreeId → SubtreeId) (g : DependencyGraph)

@[simp] theorem node?_relabel (id : Nat) : (g.relabel p).node? id = (g.node? id).map (·.relabel p) :=
  Keyed.get?_map (GraphNode.id_relabel p) id g.nodes

@[simp] theorem isActive_relabel : (g.relabel p).isActive = g.isActive := by
  funext id
  rw [isActive, node?_relabel, isActive]
  cases g.node? id <;> rfl

@[simp] theorem activeNodes_relabel :
    (g.relabel p).activeNodes = g.activeNodes.map (·.relabel p) := List.filter_map

@[simp] theorem activeExpr?_relabel : (g.relabel p).activeExpr? = g.activeExpr? := by
  funext v
  cases v <;> simp only [activeExpr?, isActive_relabel]

theorem reach_relabel : (g.relabel p).reach = g.reach := by
  funext fuel
  induction fuel with
  | zero => rfl
  | succ fuel ih =>
    funext queue seen
    cases queue with
    | nil => rfl
    | cons v queue =>
      simp only [reach, ih]
      rfl

@[simp] theorem readersOf_relabel : (g.relabel p).readersOf = g.readersOf := by
  funext v
  simp only [readersOf, usersOf, reach_relabel, activeExpr?_relabel]
  rfl

@[simp] theorem writersOf_relabel : (g.relabel p).writersOf = g.writersOf := by
  funext key
  simp only [writersOf, activeExpr?_relabel]
  rfl

theorem nodesOwnedBy_relabel {p : SubtreeId → SubtreeId} (hp : Function.Injective p) (id : SubtreeId) :
    (g.relabel p).nodesOwnedBy (p id) = (g.nodesOwnedBy id).map (·.relabel p) := by
  have howner : ∀ n : GraphNode, (n.relabel p).owner = some (p id) ↔ n.owner = some id := fun n =>
    (Option.map_injective hp).eq_iff (b := some id)
  simp only [nodesOwnedBy, activeNodes_relabel, List.filter_map, Function.comp_def, howner]

theorem insertNode_relabel (n : GraphNode) :
    (g.relabel p).insertNode (n.relabel p) = (g.insertNode n).relabel p := by
  have hput := Keyed.put_map (GraphNode.id_relabel p) n g.nodes
  have hon : (n.relabel p).isActive = n.isActive := rfl
  simp only [insertNode, hon]
  split
  · exact congrArg (fun nodes => { g.link n.edges with nodes }) hput
  · exact congrArg (fun nodes => { g with nodes }) hput

theorem deactivate_relabel (id : Nat) :
    (g.relabel p).deactivate id = (g.deactivate id).relabel p := by
  unfold deactivate
  rw [isActive_relabel]
  split
  · simp only [relabel, unlink, List.map_map, DependencyGraph.mk.injEq, and_true]
    refine List.map_congr_left fun n _ => ?_
    simp only [Function.comp_apply, GraphNode.relabel]
    split <;> rfl
  · rfl

theorem foldl_deactivate_relabel (ids : List Nat) :
    ids.foldl deactivate (g.relabel p) = (ids.foldl deactivate g).relabel p :=
  List.foldl_hom (relabel p) (deactivate_relabel p)

end DependencyGraph

end Reflow
