import Reflow.Machine.Value
/-!
# The heap

Strings and arrays live in numbered cells. A cell is never freed while a program runs; between runs
a collection empties every cell that the globals do not reach, and emptied cells are used again, the
one emptied last first.

## Main definitions

* `Heap`: the cells and the list of free ones.
* `Heap.alloc`: a new object.
* `Heap.collect`: empties what the given values do not reach.
-/

namespace Reflow

/-- What a heap cell holds. -/
inductive HeapObject
  | string (value : String)
  | array (items : List Value)

/-- The cells of the heap. -/
structure Heap where
  cells : Array (Option HeapObject) := #[]
  /-- The empty cells, the next one to be used first. -/
  free : List Nat := []

namespace Heap

/-- Puts an object into a free cell, or into a new one; also returns its number. -/
def alloc (h : Heap) (o : HeapObject) : Nat × Heap :=
  match h.free with
  | cell :: free => (cell, ⟨h.cells.setIfInBounds cell (some o), free⟩)
  | [] => (h.cells.size, ⟨h.cells.push (some o), []⟩)

/-- The object of a cell. -/
def get? (h : Heap) (cell : Nat) : Option HeapObject := h.cells[cell]?.join

/-- The string of a cell, if it holds one. -/
def string? (h : Heap) (cell : Nat) : Option String :=
  match h.get? cell with
  | some (.string s) => some s
  | _ => none

/-- The items of a cell, if it holds an array. -/
def array? (h : Heap) (cell : Nat) : Option (List Value) :=
  match h.get? cell with
  | some (.array items) => some items
  | _ => none

/-- The number of objects. -/
def liveCount (h : Heap) : Nat := h.cells.size - h.free.length

/-- The cells that some values point to. -/
def pointers (vs : List Value) : List Nat := vs.filterMap Value.pointer?

/-- The cells that a cell points to. -/
def children (h : Heap) (cell : Nat) : List Nat := pointers ((h.array? cell).getD [])

/-- Marks the cells reached from those in `pending`. Each step takes one of them, and the children
of a cell are added once, when it is marked. -/
def mark (h : Heap) : Nat → List Nat → Array Bool → Array Bool
  | 0, _, marked => marked
  | _, [], marked => marked
  | fuel + 1, cell :: pending, marked =>
    if marked[cell]? = some false then
      mark h fuel (h.children cell ++ pending) (marked.setIfInBounds cell true)
    else mark h fuel pending marked

/-- The number of items of all arrays. -/
def itemCount (h : Heap) : Nat :=
  h.cells.foldl (fun n o => match o with | some (.array items) => n + items.length | _ => n) 0

/-- Which cells the given values reach. -/
def reached (h : Heap) (roots : List Value) : Array Bool :=
  let pending := pointers roots
  h.mark (pending.length + h.itemCount + 1) pending (Array.replicate h.cells.size false)

/-- Empties the cells that the given values do not reach; also returns how many held an object. -/
def collect (h : Heap) (roots : List Value) : Nat × Heap :=
  let reached := h.reached roots
  let freed := (List.range h.cells.size).filter fun cell =>
    reached[cell]? = some false ∧ (h.get? cell).isSome
  (freed.length,
    ⟨freed.foldl (fun cells cell => cells.setIfInBounds cell none) h.cells,
      freed.reverse ++ h.free⟩)

end Heap

end Reflow
