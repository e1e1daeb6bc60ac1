import Reflow.Edit.SubtreeId
import Reflow.Image.Symbol
import Reflow.Order.Keyed
/-!
# Who reads what

The vertices of the dependency graph are global symbols, procedures and compiled statements. An
edge leads from what is read to what reads it: from a symbol or a procedure to the statements and
the procedures that use it, and from a statement to the symbol it assigns.

## Main definitions

* `GraphNode`: the record of one compiled statement.
* `DependencyGraph`: the records with their edges, and the operations on it.
* `DependencyGraph.readersOf`: the statements that read a vertex, looking through procedures.
* `DependencyGraph.affectedBy`: the statements that a change may reach.
-/

namespace Reflow

/-- The text of a statement's number. -/
def exprText (id : Nat) : String := "e" ++ toString id

/-- A vertex of the dependency graph. -/
inductive Vertex
  | symbol (key : SymbolKey)
  | procedure (index : Nat)
  | expr (id : Nat)
  deriving Repr, DecidableEq

/-- The record of one compiled top-level statement. -/
structure GraphNode where
  id : Nat
  /-- The subtree of the statement; none for code without one. -/
  owner : Option SubtreeId := none
  /-- The global that the statement assigns. -/
  defines : Option SymbolKey := none
  reads : List SymbolKey := []
  /-- The procedures that the statement calls or refers to. -/
  calls : List Nat := []
  /-- The range of the statement's instructions. -/
  start : Nat := 0
  stop : Nat := 0
  isActive : Bool := true
  deriving DecidableEq

/-- What the body of a procedure reads and calls. -/
structure ProcedureUses where
  procedure : Nat
  reads : List SymbolKey
  calls : List Nat
  deriving DecidableEq

/-- An edge from what is read to what reads it. -/
structure Edge where
  source : Vertex
  target : Vertex
  deriving DecidableEq

/-- The records of statements and procedures, each kind in ascending order of its number, and the
edges between them, each once. -/
structure DependencyGraph where
  nodes : List GraphNode := []
  procedures : List ProcedureUses := []
  edges : List Edge := []
  deriving DecidableEq

namespace GraphNode

/-- The edges of a statement. -/
def edges (n : GraphNode) : List Edge :=
  n.reads.map (⟨.symbol ·, .expr n.id⟩) ++ n.calls.map (⟨.procedure ·, .expr n.id⟩)
    ++ (n.defines.map (⟨.expr n.id, .symbol ·⟩)).toList

end GraphNode

/-- The edges of a procedure; it does not depend on itself. -/
def ProcedureUses.edges (p : ProcedureUses) : List Edge :=
  p.reads.map (⟨.symbol ·, .procedure p.procedure⟩)
    ++ (p.calls.filter (· ≠ p.procedure)).map (⟨.procedure ·, .procedure p.procedure⟩)

namespace DependencyGraph

/-- The graph with some more edges. -/
def link (g : DependencyGraph) (edges : List Edge) : DependencyGraph :=
  { g with edges := edges.foldl (fun es e => if e ∈ es then es else es ++ [e]) g.edges }

/-- The graph without the edges that have a property. -/
def unlink (g : DependencyGraph) (p : Edge → Bool) : DependencyGraph :=
  { g with edges := g.edges.filter fun e => !p e }

/-- Records a statement; an inactive one gets no edges. -/
def insertNode (g : DependencyGraph) (n : GraphNode) : DependencyGraph :=
  let g := if n.isActive then g.link n.edges else g
  { g with nodes := Keyed.put GraphNode.id n g.nodes }

/-- Records what the body of a procedure reads and calls, in place of what was recorded before. -/
def defineProcedure (g : DependencyGraph) (p : ProcedureUses) : DependencyGraph :=
  let g := (g.unlink fun e => e.target = .procedure p.procedure).link p.edges
  { g with procedures := Keyed.put ProcedureUses.procedure p g.procedures }

/-- Forgets what a procedure reads and calls; its callers stay linked to it. -/
def retireProcedure (g : DependencyGraph) (index : Nat) : DependencyGraph :=
  let g := g.unlink fun e => e.target = .procedure index
  { g with procedures := Keyed.erase ProcedureUses.procedure index g.procedures }

/-- The record of a statement. -/
def node? (g : DependencyGraph) (id : Nat) : Option GraphNode :=
  Keyed.get? GraphNode.id id g.nodes

/-- Whether a statement is active. -/
def isActive (g : DependencyGraph) (id : Nat) : Bool := (g.node? id).any (·.isActive)

/-- The active statements in program order. -/
def activeNodes (g : DependencyGraph) : List GraphNode := g.nodes.filter (·.isActive)

/-- The active statements of a subtree in program order. -/
def nodesOwnedBy (g : DependencyGraph) (owner : SubtreeId) : List GraphNode :=
  g.activeNodes.filter (·.owner = some owner)

/-- Deactivates a statement and drops its edges, if it is active. -/
def deactivate (g : DependencyGraph) (id : Nat) : DependencyGraph :=
  if g.isActive id then
    let g := g.unlink fun e => e.source = .expr id ∨ e.target = .expr id
    { g with nodes := g.nodes.map fun n => if n.id = id then { n with isActive := false } else n }
  else g

/-- Deactivates the statements of a subtree; also returns their records as they are then. -/
def deactivateOwner (g : DependencyGraph) (owner : SubtreeId) :
    List GraphNode × DependencyGraph :=
  let owned := g.nodesOwnedBy owner
  (owned.map fun n => { n with isActive := false }, owned.foldl (fun g n => g.deactivate n.id) g)

/-- The targets of the edges from a vertex. -/
def successors (g : DependencyGraph) (v : Vertex) : List Vertex :=
  (g.edges.filter (·.source = v)).map (·.target)

/-- Whether a vertex is a procedure. -/
def isProcedure : Vertex → Bool
  | .procedure _ => true
  | _ => false

/-- The procedures through which the vertices in `queue` are read, added to those seen before. Each
step takes one vertex of the queue, and every procedure enters the queue once at most. -/
def reach (g : DependencyGraph) : Nat → List Vertex → List Vertex → List Vertex
  | 0, _, seen => seen
  | _, [], seen => seen
  | fuel + 1, v :: queue, seen =>
    let found := (g.successors v).filter fun w => isProcedure w ∧ w ∉ seen
    reach g fuel (queue ++ found) (seen ++ found)

/-- A vertex with the procedures that use it, directly or through others. -/
def usersOf (g : DependencyGraph) (v : Vertex) : List Vertex :=
  g.reach (g.edges.length + 1) [v] [v]

/-- The number of the active statement that a vertex is. -/
def activeExpr? (g : DependencyGraph) : Vertex → Option Nat
  | .expr id => if g.isActive id then some id else none
  | _ => none

/-- The active statements that read a vertex, looking through procedures, in program order. -/
def readersOf (g : DependencyGraph) (v : Vertex) : List Nat :=
  Ascending.ofList ((g.usersOf v).flatMap fun u => (g.successors u).filterMap g.activeExpr?)

/-- The active statements that assign a symbol, in program order. -/
def writersOf (g : DependencyGraph) (key : SymbolKey) : List Nat :=
  Ascending.ofList
    ((g.edges.filter (·.target = .symbol key)).filterMap fun e => g.activeExpr? e.source)

/-- The symbol that a statement assigns. -/
def definedBy? (g : DependencyGraph) (id : Nat) : Option Vertex :=
  ((g.node? id).bind (·.defines)).map .symbol

/-- The statements reached from the vertices in `queue`, added to those reached before. Each step
takes one vertex of the queue, and every symbol enters it once at most besides the roots. -/
def spread (g : DependencyGraph) :
    Nat → List Vertex → List Vertex → List Nat → List Nat
  | 0, _, _, affected => affected
  | _, [], _, affected => affected
  | fuel + 1, v :: queue, seen, affected =>
    let fresh := (g.readersOf v).filter (· ∉ affected)
    let found := (fresh.filterMap g.definedBy?).foldl
      (fun found w => if w ∈ seen ∨ w ∈ found then found else found ++ [w]) []
    spread g fuel (queue ++ found) (seen ++ found) (Ascending.union affected fresh)

/-- The statements that may have to run again when the roots change: the readers of the roots, the
readers of what these assign, and so on; in program order. -/
def affectedBy (g : DependencyGraph) (roots : List Vertex) : List Nat :=
  g.spread (roots.length + g.nodes.length + 1) roots roots []

/-- The graph of given records: procedures first, then statements. -/
def ofRecords (nodes : List GraphNode) (procedures : List ProcedureUses) : DependencyGraph :=
  nodes.foldl insertNode (procedures.foldl defineProcedure {})

end DependencyGraph

end Reflow
