import Reflow.Machine.Operation
/-!
# Allocation

The free list of a heap holds each empty cell once, and allocating keeps it so. A new object
therefore never takes the place of one that is there: all that the heap held before, it still holds.

## Main definitions

* `Heap.Sound`: the free list is exactly the list of empty cells.
* `Heap.Extends`: a heap that holds all that another one holds.

## Main results

* `Heap.Sound.alloc`, `Heap.Sound.extends_alloc`: allocation keeps a heap sound and what it holds.
* `Heap.Sound.get?_alloc`: a new object is found in its cell.
-/

namespace Reflow.Heap

/-- The free list holds each empty cell once, and no other cell. -/
structure Sound (h : Heap) : Prop where
  mem_free : ∀ cell, cell ∈ h.free ↔ h.cells[cell]? = some none
  nodup : h.free.Nodup

/-- `h'` holds every object that `h` holds, in the same cell. -/
def Extends (h h' : Heap) : Prop := ∀ cell o, h.get? cell = some o → h'.get? cell = some o

@[refl] theorem Extends.refl (h : Heap) : h.Extends h := fun _ _ ho => ho

theorem Extends.trans {h h' h'' : Heap} (k : h.Extends h') (k' : h'.Extends h'') :
    h.Extends h'' := fun cell o ho => k' cell o (k cell o ho)

theorem get?_eq_some {h : Heap} {cell : Nat} {o : HeapObject} :
    h.get? cell = some o ↔ h.cells[cell]? = some (some o) := by
  simp [get?, Option.join_eq_some_iff]

theorem string?_eq_some {h : Heap} {cell : Nat} {s : String} :
    h.string? cell = some s ↔ h.get? cell = some (.string s) := by
  unfold string?
  split <;> simp_all

theorem array?_eq_some {h : Heap} {cell : Nat} {items : List Value} :
    h.array? cell = some items ↔ h.get? cell = some (.array items) := by
  unfold array?
  split <;> simp_all

namespace Extends

variable {h h' : Heap}

theorem string? (k : h.Extends h') {cell : Nat} {s : String} (hs : h.string? cell = some s) :
    h'.string? cell = some s :=
  string?_eq_some.2 (k cell _ (string?_eq_some.1 hs))

theorem array? (k : h.Extends h') {cell : Nat} {items : List Value}
    (hs : h.array? cell = some items) : h'.array? cell = some items :=
  array?_eq_some.2 (k cell _ (array?_eq_some.1 hs))

end Extends

theorem sound_empty : Sound {} := ⟨by simp, List.nodup_nil⟩

namespace Sound

variable {h : Heap}

theorem alloc (hs : h.Sound) (o : HeapObject) : (h.alloc o).2.Sound := by
  unfold Heap.alloc
  split
  · rename_i cell free hfree
    have hnodup := hs.nodup
    rw [hfree, List.nodup_cons] at hnodup
    refine ⟨fun c => ?_, hnodup.2⟩
    have hc := hs.mem_free c
    rw [hfree, List.mem_cons] at hc
    rw [Array.getElem?_setIfInBounds]
    by_cases hcell : cell = c
    · subst hcell
      simp only [if_true, hnodup.1, false_iff]
      split <;> simp
    · simp only [if_neg hcell, ← hc, Ne.symm hcell, false_or]
  · rename_i hfree
    refine ⟨fun c => ?_, List.nodup_nil⟩
    have hc := hs.mem_free c
    rw [hfree] at hc
    rw [Array.getElem?_push]
    split
    · simp
    · exact hc

theorem get?_alloc (hs : h.Sound) (o : HeapObject) : (h.alloc o).2.get? (h.alloc o).1 = some o := by
  rw [get?_eq_some]
  unfold Heap.alloc
  split
  · rename_i cell free hfree
    have hcell := (hs.mem_free cell).1 (by simp [hfree])
    obtain ⟨hlt, -⟩ := Array.getElem?_eq_some_iff.1 hcell
    simp [hlt]
  · simp

theorem extends_alloc (hs : h.Sound) (o : HeapObject) : h.Extends (h.alloc o).2 := by
  intro c p hp
  rw [get?_eq_some] at hp ⊢
  unfold Heap.alloc
  split
  · rename_i cell free hfree
    have hcell := (hs.mem_free cell).1 (by simp [hfree])
    -- the cell that is used is empty, so it is not `c`
    have hne : cell ≠ c := by
      rintro rfl
      simp [hp] at hcell
    simpa [Array.getElem?_setIfInBounds, hne] using hp
  · have hlt := (Array.getElem?_eq_some_iff.1 hp).1
    rw [Array.getElem?_push_lt hlt]
    exact congrArg some (Array.getElem?_eq_some_iff.1 hp).2

end Sound

end Reflow.Heap
