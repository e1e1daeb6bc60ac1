import Reflow.Edit.Subtree
/-!
# Edit batches

A host collects additions, modifications and deletions in any shape. The canonical batch has three
disjoint sets: a deletion wins over everything, a modification over an addition. In each set the
first occurrence of an identity fixes its place and the last one its content.

## Main definitions

* `Edits`: raw, possibly overlapping edits.
* `Batch`: a canonical batch, with `Batch.ofEdits` building it.
-/

namespace Reflow

/-- Raw edits, each kind in the order in which the host gave them. -/
structure Edits where
  added : List Subtree := []
  modified : List Subtree := []
  deleted : List Subtree := []

namespace Edits

/-- One more addition. -/
def add (e : Edits) (s : Subtree) : Edits := { e with added := e.added ++ [s] }

/-- One more modification. -/
def modify (e : Edits) (s : Subtree) : Edits := { e with modified := e.modified ++ [s] }

/-- One more deletion. -/
def delete (e : Edits) (id : SubtreeId) : Edits :=
  { e with deleted := e.deleted ++ [Subtree.empty id] }

end Edits

namespace Subtree

/-- Whether some subtree of a list has an identity. -/
def occurs (id : SubtreeId) (subtrees : List Subtree) : Bool := subtrees.any (·.id == id)

/-- Puts a subtree in the place of the one with its identity, or at the end. -/
def put (s : Subtree) : List Subtree → List Subtree
  | [] => [s]
  | t :: rest => if t.id = s.id then s :: rest else t :: put s rest

/-- Each identity once, where it first occurs, with the content of its last occurrence. -/
def distinct (subtrees : List Subtree) : List Subtree :=
  subtrees.foldl (fun done s => put s done) []

end Subtree

/-- A canonical edit batch: three sets without a common identity. -/
structure Batch where
  added : List Subtree := []
  modified : List Subtree := []
  deleted : List Subtree := []

namespace Batch

/-- The canonical batch of raw edits. -/
def ofEdits (e : Edits) : Batch :=
  let deleted := Subtree.distinct e.deleted
  let modified := (Subtree.distinct e.modified).filter fun s => !Subtree.occurs s.id deleted
  let added := (Subtree.distinct e.added).filter fun s =>
    !Subtree.occurs s.id deleted && !Subtree.occurs s.id modified
  ⟨added, modified, deleted⟩

/-- Whether a batch touches no subtree. -/
def isEmpty (b : Batch) : Bool := b.added.isEmpty && b.modified.isEmpty && b.deleted.isEmpty

/-- The number of subtrees that a batch touches. -/
def size (b : Batch) : Nat := b.added.length + b.modified.length + b.deleted.length

/-- The touched subtrees: deletions, then modifications, then additions. -/
def all (b : Batch) : List Subtree := b.deleted ++ b.modified ++ b.added

/-- Whether a batch touches a subtree. -/
def contains (b : Batch) (id : SubtreeId) : Bool := Subtree.occurs id b.all

end Batch

end Reflow
