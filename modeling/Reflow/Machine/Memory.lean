import Reflow.Machine.Fault
import Reflow.Machine.Heap
import Reflow.Order.Keyed
/-!
# Memory

Slot `i` of global memory belongs to the top-level symbol of that slot. The number of slots only
grows. A store compares deeply with what the slot holds, and only a different value counts as a
change.

## Main definitions

* `Memory`: global slots, heap, and the slots changed since the last reset.
* `Heap.same`: deep equality of values.
* `Memory.setGlobal`: a store.
-/

namespace Reflow

namespace Heap

/-- Deep equality down to `depth` nested arrays. A NaN equals a NaN, so that storing one over
another is no change. -/
def sameWithin (h : Heap) : Nat → Value → Value → Bool
  | _, .null, .null => true
  | _, .bool a, .bool b => a == b
  | _, .int a, .int b => a == b
  | _, .double a, .double b => a == b || (a.isNaN && b.isNaN)
  | _, .function a, .function b => a == b
  | _, .string a, .string b => a == b || h.string? a == h.string? b
  | 0, .array a, .array b => a == b
  | depth + 1, .array a, .array b =>
    a == b || match h.array? a, h.array? b with
      | some xs, some ys =>
        xs.length == ys.length && (xs.zip ys).all fun (x, y) => sameWithin h depth x y
      | _, _ => false
  | _, _, _ => false

/-- Deep equality of two values. Comparing two values of finite depth never meets one pair of cells
inside itself, so the number of pairs bounds the depth. -/
def same (h : Heap) (a b : Value) : Bool := h.sameWithin (h.cells.size * h.cells.size + 1) a b

end Heap

/-- The memory of a session. -/
structure Memory where
  globals : Array Value := #[]
  heap : Heap := {}
  /-- The slots whose value changed since the last reset, in ascending order. -/
  modified : List Nat := []

namespace Memory

/-- The memory with some more slots, which hold null. -/
def grow (m : Memory) (additional : Nat) : Memory :=
  { m with globals := m.globals ++ Array.replicate additional .null }

/-- The number of slots. -/
def globalCount (m : Memory) : Nat := m.globals.size

/-- The value of a slot. -/
def global? (m : Memory) (slot : Nat) : Option Value := m.globals[slot]?

/-- Stores a value in a slot; also tells whether the value changed. -/
def setGlobal (m : Memory) (slot : Nat) (v : Value) : Except Fault (Bool × Memory) :=
  match m.global? slot with
  | none => .error (.unallocatedGlobal slot m.globalCount)
  | some current =>
    if m.heap.same current v then .ok (false, m)
    else
      let globals := m.globals.setIfInBounds slot v
      .ok (true, { m with globals, modified := Ascending.insert slot m.modified })

/-- The memory with null in all slots from `start` on, which no longer count as changed. -/
def clearFrom (m : Memory) (start : Nat) : Memory :=
  { m with
    globals := m.globals.mapIdx fun slot v => if slot < start then v else .null
    modified := m.modified.filter (· < start) }

/-- The memory with no slot counting as changed. -/
def resetModified (m : Memory) : Memory := { m with modified := [] }

/-- A new string; also returns its value. -/
def allocString (m : Memory) (s : String) : Value × Memory :=
  let (p, heap) := m.heap.alloc (.string s)
  (.string p, { m with heap })

/-- A new array; also returns its value. -/
def allocArray (m : Memory) (items : List Value) : Value × Memory :=
  let (p, heap) := m.heap.alloc (.array items)
  (.array p, { m with heap })

/-- Empties the heap cells that no global reaches; also returns how many. -/
def collect (m : Memory) : Nat × Memory :=
  let (freed, heap) := m.heap.collect m.globals.toList
  (freed, { m with heap })

end Memory

end Reflow
