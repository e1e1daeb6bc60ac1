import Mathlib.Data.List.Perm.Subperm
import Reflow.Proofs.Memory.Collection
/-!
# Collections are exact

Whatever a heap has been through, its free list has each empty cell once, so that an allocation never
takes a cell with an object. A collection empties just the cells that its roots do not reach, whatever
points to what, and after it there is nothing left to collect.

## Main definitions

* `Heap.Obtained`: the heaps that allocations and collections make of the empty one.
* `Heap.occupied`: the cells with an object.

## Main results

* `Obtained.sound`: allocations and collections keep the free list.
* `collect_collect`: a second collection finds nothing.
* `Obtained.collection_exact`: what holds of every heap and of every collection of it.
-/

namespace Reflow.Heap

/-- The heaps that come from the empty one by allocations of any objects and collections with any
roots, in any order. -/
inductive Obtained : Heap → Prop
  | empty : Obtained {}
  | alloc {h : Heap} (hh : Obtained h) (o : HeapObject) : Obtained (h.alloc o).2
  | collect {h : Heap} (hh : Obtained h) (roots : List Value) : Obtained (h.collect roots).2

/-- The cells that hold an object. -/
def occupied (h : Heap) : List Nat :=
  (List.range h.cells.size).filter fun cell => (h.get? cell).isSome

variable {h : Heap} {roots : List Value}

/-- The free list of every heap has each empty cell once, and nothing else. -/
theorem Obtained.sound (hh : h.Obtained) : h.Sound := by
  induction hh with
  | empty => exact sound_empty
  | alloc _ o ih => exact ih.alloc o
  | collect _ roots ih => exact ih.collect roots

namespace Sound

theorem count_free (hs : h.Sound) {cell : Nat} (hcell : h.cells[cell]? = some none) :
    h.free.count cell = 1 :=
  List.count_eq_one_of_mem hs.nodup ((hs.mem_free cell).2 hcell)

/-- The cells that are not in the free list are those with an object. -/
theorem liveCount (hs : h.Sound) : h.liveCount = h.occupied.length := by
  have hfree : h.free.Perm ((List.range h.cells.size).filter fun cell => !(h.get? cell).isSome) := by
    refine (List.perm_ext_iff_of_nodup hs.nodup (List.nodup_range.filter _)).2 fun cell => ?_
    rw [hs.mem_free, List.mem_filter, List.mem_range, get?]
    constructor
    · intro hcell
      rw [hcell]
      exact ⟨(Array.getElem?_eq_some_iff.1 hcell).1, rfl⟩
    · rintro ⟨hlt, hempty⟩
      rw [Array.getElem?_eq_getElem hlt] at hempty ⊢
      simpa using hempty
  have hsplit := List.length_eq_length_filter_add (l := List.range h.cells.size)
    fun cell => (h.get? cell).isSome
  rw [List.length_range] at hsplit
  rw [Heap.liveCount, hfree.length_eq, occupied]
  omega

/-- An allocation takes a cell without an object. -/
theorem get?_alloc_fst (hs : h.Sound) (o : HeapObject) : h.get? (h.alloc o).1 = none := by
  unfold Heap.alloc
  split
  · rename_i cell free hfree
    rw [get?, (hs.mem_free cell).1 (by simp [hfree])]
    rfl
  · simp [get?]

end Sound

/-- A collection leaves the roots what they reach, and gives them nothing else. -/
theorem reachable_collect_iff {cell : Nat} :
    (h.collect roots).2.Reachable roots cell ↔ h.Reachable roots cell := by
  have harray : ∀ {p : Nat}, h.Reachable roots p → (h.collect roots).2.array? p = h.array? p :=
    fun hp => by rw [array?, array?, get?_collect hp]
  constructor
  · intro hcell
    induction hcell with
    | root hv hcell => exact .root hv hcell
    | item _ hitems hv hcell ih => exact .item ih (harray ih ▸ hitems) hv hcell
  · intro hcell
    induction hcell with
    | root hv hcell => exact .root hv hcell
    | item hp hitems hv hcell ih => exact .item ih ((harray hp).trans hitems) hv hcell

/-- Right after a collection, another one with the same roots finds nothing. -/
theorem collect_collect (h : Heap) (roots : List Value) :
    (h.collect roots).2.collect roots = (0, (h.collect roots).2) := by
  have hnone : (h.collect roots).2.freed roots = [] := by
    refine List.eq_nil_iff_forall_not_mem.2 fun cell hcell => ?_
    obtain ⟨hunreached, hobject⟩ := mem_freed.1 hcell
    rw [get?_collect_of_not fun hc => hunreached (reachable_collect_iff.2 hc)] at hobject
    cases hobject
  change (((h.collect roots).2.freed roots).length,
    (⟨((h.collect roots).2.freed roots).foldl _ _,
      ((h.collect roots).2.freed roots).reverse ++ _⟩ : Heap)) = _
  rw [hnone]
  rfl

/-- A collection returns how many of the cells with an object have none any more. -/
theorem fst_collect (h : Heap) (roots : List Value) : (h.collect roots).1 =
    (h.occupied.filter fun cell => ((h.collect roots).2.get? cell).isNone).length := by
  change (h.freed roots).length = _
  rw [occupied, List.filter_filter, freed]
  congr 1
  refine List.filter_congr fun cell hcell => ?_
  have hlt : cell < h.cells.size := List.mem_range.1 hcell
  by_cases hreached : h.Reachable roots cell
  · rw [get?_collect hreached]
    cases h.get? cell <;> simp [reached_eq_false_iff, hreached]
  · rw [get?_collect_of_not hreached]
    simp [reached_eq_false_iff, hreached, hlt]

/-- What holds of every heap that allocations and collections make, and of every collection of it with any
roots. The free list has each empty cell once, the count of objects is right, and an allocation never
takes a cell with an object. A collection leaves the cells that its roots reach as they are, empties all
others, tells how many it has emptied, and leaves nothing to a second one. Its marking ends, in whatever
order the waiting cells are taken, and always with the marks that the collection goes by. -/
theorem Obtained.collection_exact (hh : h.Obtained) :
    (∀ cell, h.cells[cell]? = some none → h.free.count cell = 1) ∧
      (∀ cell ∈ h.free, h.cells[cell]? = some none) ∧
      h.liveCount = h.occupied.length ∧
      (∀ o, (h.alloc o).1 ∉ h.occupied) ∧
      ∀ roots,
        (∀ cell, h.Reachable roots cell → (h.collect roots).2.cells[cell]? = h.cells[cell]?) ∧
        (∀ cell, ¬h.Reachable roots cell →
          (h.collect roots).2.cells[cell]? = h.cells[cell]?.map fun _ => none) ∧
        (h.collect roots).1 =
          (h.occupied.filter fun cell => ((h.collect roots).2.get? cell).isNone).length ∧
        (h.collect roots).2.collect roots = (0, (h.collect roots).2) ∧
        WellFounded (fun m' m => h.Turn m m') ∧
        ∀ m, Relation.ReflTransGen h.Turn (.start h roots) m →
          (∃ m', h.Turn m m') ∨ m = ⟨[], h.reached roots⟩ := by
  have hs := hh.sound
  refine ⟨fun _ => hs.count_free, fun cell => (hs.mem_free cell).1, hs.liveCount, fun o hmem => ?_,
    fun roots => ⟨fun _ => getElem?_collect, fun _ => getElem?_collect_of_not, h.fst_collect roots,
      h.collect_collect roots, h.wellFounded_turn, fun m hm => ?_⟩⟩
  · have hobject := (List.mem_filter.1 hmem).2
    rw [hs.get?_alloc_fst] at hobject
    cases hobject
  · obtain ⟨pending, marked⟩ := m
    by_cases hpending : pending = []
    · subst hpending
      exact .inr (congrArg _ (Marks.turns hm).eq_reached)
    · exact .inl (exists_turn hpending)

/-- Two arrays that hold each other, one of them also a pointer to no cell, and a string that nothing
points to. -/
theorem collection_exact_circle :
    let h := (((({} : Heap).alloc (.array [.array 1, .string 9])).2.alloc (.array [.array 0])).2.alloc
      (.string "x")).2
    h.Obtained ∧ h.liveCount = 3 ∧ h.Reachable [.array 1] 0 ∧ ¬h.Reachable [.array 1] 2 ∧
      (h.collect [.array 1]).2.cells[0]? = h.cells[0]? ∧
      (h.collect [.array 1]).2.cells[2]? = some none ∧
      (h.collect [.array 1]).1 = 1 ∧ ((h.collect [.array 1]).2.collect [.array 1]).1 = 0 := by
  intro h
  have hh : h.Obtained := ((Obtained.empty.alloc _).alloc _).alloc _
  have hitems : h.array? 1 = some [.array 0] := rfl
  have hin : h.Reachable [.array 1] 0 :=
    .item (.root List.mem_cons_self rfl) hitems List.mem_cons_self rfl
  have hout : ¬h.Reachable [.array 1] 2 := (reached_eq_false_iff.1 (by decide)).2
  obtain ⟨-, -, hcount, -, hcollect⟩ := hh.collection_exact
  obtain ⟨hkept, hemptied, hnumber, hsecond, -⟩ := hcollect [.array 1]
  exact ⟨hh, hcount.trans (by decide), hin, hout, hkept 0 hin, hemptied 2 hout,
    hnumber.trans (by decide), congrArg Prod.fst hsecond⟩

end Reflow.Heap
