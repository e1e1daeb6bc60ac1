import Reflow.Compile.Fragment
import Reflow.Edit.Batch
/-!
# Subtrees, nodes and variables

Each statement of a subtree is a node of the host's graph and has a number that is never used again.
The node of the last statement stands for the whole subtree. The mapping between subtrees, nodes
and variables follows the edit batches: what a batch changes is pending until the batch has run, and
is dropped if it fails.

## Main definitions

* `SubtreeRecord`: the nodes and variables of a live subtree.
* `GraphMapping`: the committed and the pending records.
* `GraphMapping.build`: the fragment of a batch.
-/

namespace Reflow

/-- The text of a node's number. -/
def nodeText (uid : Nat) : String := "n" ++ toString uid

/-- The nodes of a live subtree. -/
structure SubtreeRecord where
  subtree : SubtreeId
  /-- The node of each statement, in order. -/
  uids : List Nat
  /-- The variable that each statement assigns. -/
  assigned : List (Option String)
  /-- The names that the statements bind. -/
  bound : List String
  deriving DecidableEq

namespace SubtreeRecord

/-- The record of a subtree whose first node has the number `first`. -/
def ofSubtree (first : Nat) (s : Subtree) : SubtreeRecord where
  subtree := s.id
  uids := List.range' first s.statements.length
  assigned := s.statements.map Statement.assigned?
  bound := s.boundNames

/-- The number by which records are ordered. -/
def key (r : SubtreeRecord) : Nat := r.subtree.toNat

/-- The node that stands for the subtree. -/
def canonical? (r : SubtreeRecord) : Option Nat := r.uids.getLast?

/-- The variable that carries the subtree's value. -/
def output? (r : SubtreeRecord) : Option String := (r.assigned.filterMap id).getLast?

/-- Whether some statement assigns a variable. -/
def assigns (r : SubtreeRecord) (name : String) : Bool := some name ∈ r.assigned

end SubtreeRecord

/-- The records of the live subtrees in the order of their identities. -/
structure GraphMapping where
  committed : List SubtreeRecord := []
  pending : Option (List SubtreeRecord) := none
  /-- The number of the next node. -/
  nextUid : Nat := 0

namespace GraphMapping

/-- The record of a live subtree. -/
def record? (m : GraphMapping) (id : SubtreeId) : Option SubtreeRecord :=
  Keyed.get? SubtreeRecord.key id.toNat m.committed

/-- The record that a node belongs to. -/
def recordOf? (m : GraphMapping) (uid : Nat) : Option SubtreeRecord :=
  m.committed.find? (uid ∈ ·.uids)

/-- The nodes of a subtree. -/
def nodeUids (m : GraphMapping) (id : SubtreeId) : List Nat :=
  ((m.record? id).map (·.uids)).getD []

/-- The node that stands for the subtree of a node; a node of no subtree stands for itself. -/
def canonicalize (m : GraphMapping) (uid : Nat) : Nat :=
  ((m.recordOf? uid).bind (·.canonical?)).getD uid

/-- The variable that a node's statement assigns. -/
def variableName? (m : GraphMapping) (uid : Nat) : Option String := do
  let r ← m.recordOf? uid
  let i ← r.uids.findIdx? (· == uid)
  (r.assigned[i]?).join

/-- The variable that carries a subtree's value. -/
def subtreeVariable? (m : GraphMapping) (id : SubtreeId) : Option String :=
  (m.record? id).bind (·.output?)

/-- The first subtree, in the order of identities, that assigns a variable, with its node. -/
def nodeForVariable? (m : GraphMapping) (name : String) : Option (SubtreeId × Nat) :=
  m.committed.findSome? fun r =>
    if r.assigns name then r.canonical?.map (r.subtree, ·) else none

/-- Puts a name in its place among names in ascending order. -/
def insertName (name : String) : List String → List String
  | [] => [name]
  | n :: rest =>
    if name < n then name :: n :: rest
    else if name = n then n :: rest
    else n :: insertName name rest

/-- Some names in ascending order, each once. -/
def sortedNames (names : List String) : List String :=
  names.foldl (fun done n => insertName n done) []

/-- Gives every statement of some subtrees a node of its own and puts the records in place. -/
def enlist (records : List SubtreeRecord) (next : Nat) :
    List Subtree → List SubtreeRecord × Nat
  | [] => (records, next)
  | s :: rest =>
    enlist (Keyed.put SubtreeRecord.key (.ofSubtree next s) records)
      (next + s.statements.length) rest

/-- The fragment of a batch, and the mapping with the batch pending. Deleted, modified and replaced
subtrees are retired. A variable that the batch leaves without anything of its name is assigned
null, so that its readers see that; a function's name is left alone. -/
def build (m : GraphMapping) (b : Batch) : Fragment × GraphMapping :=
  let gone := b.deleted ++ b.modified ++ b.added.filter fun s => (m.record? s.id).isSome
  let dropped := sortedNames ((gone.filterMap fun s => m.record? s.id).flatMap fun r =>
    r.assigned.filterMap id)
  let kept := gone.foldl (fun rs s => Keyed.erase SubtreeRecord.key s.id.toNat rs) m.committed
  let (records, nextUid) := enlist kept m.nextUid (b.modified ++ b.added)
  let orphans := dropped.filter fun name => !records.any (name ∈ ·.bound)
  let fragment : Fragment := {
    units := orphans.map (fun name => ⟨none, name ++ " = null;"⟩)
      ++ ((b.modified ++ b.added).filter fun s => !s.statements.isEmpty).map
        fun s => ⟨some s.id, s.code⟩
    retired := (gone.foldl (fun f s => f.retire s.id) ({} : Fragment)).retired }
  (fragment, { m with pending := some records, nextUid })

/-- The mapping after the pending batch has run. -/
def commit (m : GraphMapping) : GraphMapping :=
  { m with committed := m.pending.getD m.committed, pending := none }

/-- The mapping after the pending batch has failed. -/
def abandon (m : GraphMapping) : GraphMapping := { m with pending := none }

/-- The program text of some subtrees; those without statements are left out. -/
def nodesToCode (subtrees : List Subtree) : String :=
  separated "\n" ((subtrees.map Subtree.code).filter (· ≠ ""))

end GraphMapping

end Reflow
