import Mathlib.Algebra.BigOperators.Fin
import Mathlib.Algebra.Order.BigOperators.Group.Finset
import Mathlib.Logic.Relation
import Reflow.Proofs.Memory.Allocation
/-!
# Marking

A collection marks the cells that its roots reach through arrays. It takes one waiting cell after the
other; the pointers in an array join the waiting cells when its cell is marked, which happens once. Hence
a marking takes as many turns as there are pointers among the roots and in the marked arrays, whatever
the arrays look like: a circle meets a mark, and a pointer to no cell is passed over. In which order the
waiting cells are taken does not matter for what is marked in the end.

## Main definitions

* `Heap.Reachable`: the cells that some values reach.
* `Heap.Marking`, `Heap.Turn`: a marking under way, and one turn of it in any order.
* `Heap.unmarkedItems`: the pointers in arrays that are not marked yet.

## Main results

* `wellFounded_turn`: every marking ends.
* `Marks.eq_reached`: every marking that is over has marked the same cells.
* `reached_iff`: the marked cells are those that the roots reach.
-/

namespace Reflow.Heap

/-- The cells that some values reach: those that the values point to, and those that an array in a cell
which they reach points to. -/
inductive Reachable (h : Heap) (roots : List Value) : Nat → Prop
  | root {v : Value} {cell : Nat} (hv : v ∈ roots) (hcell : v.pointer? = some cell) :
    Reachable h roots cell
  | item {p : Nat} {items : List Value} {v : Value} {cell : Nat} (hp : Reachable h roots p)
    (hitems : h.array? p = some items) (hv : v ∈ items) (hcell : v.pointer? = some cell) :
    Reachable h roots cell

/-- A marking under way: the cells that wait, and which cells are marked. -/
structure Marking where
  pending : List Nat
  marked : Array Bool

/-- One turn of a marking. Any of the waiting cells may be taken; only one that is there and not marked
yet has an effect. -/
inductive Turn (h : Heap) : Marking → Marking → Prop
  | mark {cell : Nat} {pending rest : List Nat} {marked : Array Bool}
    (horder : pending.Perm (cell :: rest)) (hcell : marked[cell]? = some false) :
    Turn h ⟨pending, marked⟩ ⟨h.children cell ++ rest, marked.setIfInBounds cell true⟩
  | skip {cell : Nat} {pending rest : List Nat} {marked : Array Bool}
    (horder : pending.Perm (cell :: rest)) (hcell : marked[cell]? ≠ some false) :
    Turn h ⟨pending, marked⟩ ⟨rest, marked⟩

/-- The marking before its first turn. -/
def Marking.start (h : Heap) (roots : List Value) : Marking :=
  ⟨pointers roots, Array.replicate h.cells.size false⟩

variable {h : Heap} {roots : List Value}

theorem mem_pointers {vs : List Value} {cell : Nat} :
    cell ∈ pointers vs ↔ ∃ v ∈ vs, v.pointer? = some cell := List.mem_filterMap

theorem mem_children {p cell : Nat} : cell ∈ h.children p ↔
    ∃ items, h.array? p = some items ∧ ∃ v ∈ items, v.pointer? = some cell := by
  rw [children, mem_pointers]
  cases h.array? p <;> simp

theorem Reachable.of_mem_pointers {cell : Nat} (hcell : cell ∈ pointers roots) :
    h.Reachable roots cell := by
  obtain ⟨v, hv, hp⟩ := mem_pointers.1 hcell
  exact .root hv hp

theorem Reachable.of_mem_children {p cell : Nat} (hp : h.Reachable roots p)
    (hcell : cell ∈ h.children p) : h.Reachable roots cell := by
  obtain ⟨items, hitems, v, hv, hv'⟩ := mem_children.1 hcell
  exact .item hp hitems hv hv'

/-! ### The number of turns -/

/-- How many pointers are in arrays whose cells are not marked. -/
def unmarkedItems (h : Heap) (marked : Array Bool) : Nat :=
  ∑ cell ∈ Finset.range h.cells.size,
    if marked[cell]? = some false then (h.children cell).length else 0

/-- How many turns a marking takes until no cell waits. -/
def turnsLeft (h : Heap) (m : Marking) : Nat := m.pending.length + h.unmarkedItems m.marked

theorem children_eq_nil {cell : Nat} (hcell : h.cells.size ≤ cell) : h.children cell = [] := by
  have hnone : h.get? cell = none := by
    rw [get?, Array.getElem?_eq_none hcell]
    rfl
  simp [children, array?, hnone, pointers]

/-- Marking a cell takes its pointers out of the count. -/
theorem unmarkedItems_mark {marked : Array Bool} {cell : Nat} (hcell : marked[cell]? = some false) :
    (h.children cell).length + h.unmarkedItems (marked.setIfInBounds cell true) =
      h.unmarkedItems marked := by
  have hlt : cell < marked.size := (Array.getElem?_eq_some_iff.1 hcell).1
  have hothers : ∀ c, c ≠ cell → (marked.setIfInBounds cell true)[c]? = marked[c]? := fun c hc =>
    Array.getElem?_setIfInBounds_ne hc.symm
  unfold unmarkedItems
  by_cases hmem : cell ∈ Finset.range h.cells.size
  · rw [← Finset.add_sum_erase _ _ hmem, ← Finset.add_sum_erase _ _ hmem, if_pos hcell,
      Array.getElem?_setIfInBounds_self_of_lt hlt, if_neg (by simp), Nat.zero_add]
    congr 1
    refine Finset.sum_congr rfl fun c hc => ?_
    rw [hothers c (Finset.ne_of_mem_erase hc)]
  · rw [children_eq_nil (by simpa using hmem), List.length_nil, Nat.zero_add]
    refine Finset.sum_congr rfl fun c hc => ?_
    rw [hothers c fun heq => hmem (heq ▸ hc)]

/-- Every turn brings the end nearer by one. -/
theorem Turn.turnsLeft {m m' : Marking} (ht : h.Turn m m') : h.turnsLeft m' + 1 = h.turnsLeft m := by
  cases ht with
  | mark horder hcell =>
    have hlength := horder.length_eq
    have hcount := unmarkedItems_mark (h := h) hcell
    simp only [Heap.turnsLeft, List.length_append, List.length_cons] at hlength ⊢
    omega
  | skip horder hcell =>
    have hlength := horder.length_eq
    simp only [Heap.turnsLeft, List.length_cons] at hlength ⊢
    omega

/-- Every marking ends, whatever its heap looks like. -/
theorem wellFounded_turn (h : Heap) : WellFounded fun m' m => h.Turn m m' :=
  Subrelation.wf (fun ht => Nat.lt_of_succ_le ht.turnsLeft.le) (measure h.turnsLeft).wf

/-- As long as a cell waits, there is another turn. -/
theorem exists_turn {m : Marking} (hm : m.pending ≠ []) : ∃ m', h.Turn m m' := by
  obtain ⟨pending, marked⟩ := m
  obtain ⟨cell, rest, rfl⟩ := List.exists_cons_of_ne_nil hm
  by_cases hcell : marked[cell]? = some false
  · exact ⟨_, .mark (.refl _) hcell⟩
  · exact ⟨_, .skip (.refl _) hcell⟩

/-- The marking that takes the first of the waiting cells comes to its end. -/
theorem mark_turns {fuel : Nat} {m : Marking} (hfuel : h.turnsLeft m ≤ fuel) :
    Relation.ReflTransGen h.Turn m ⟨[], h.mark fuel m.pending m.marked⟩ := by
  induction fuel generalizing m with
  | zero =>
    obtain ⟨pending, marked⟩ := m
    obtain rfl : pending = [] := List.eq_nil_of_length_eq_zero (by
      simp only [Heap.turnsLeft] at hfuel; omega)
    rw [mark]
  | succ fuel ih =>
    obtain ⟨pending, marked⟩ := m
    cases pending with
    | nil =>
      rw [mark]
      simp
    | cons cell rest =>
      by_cases hcell : marked[cell]? = some false
      · have ht : h.Turn ⟨cell :: rest, marked⟩
          ⟨h.children cell ++ rest, marked.setIfInBounds cell true⟩ := .mark (.refl _) hcell
        have hleft := ht.turnsLeft
        rw [mark, if_pos hcell]
        exact .head ht (ih (by omega))
      · have ht : h.Turn ⟨cell :: rest, marked⟩ ⟨rest, marked⟩ := .skip (.refl _) hcell
        have hleft := ht.turnsLeft
        rw [mark, if_neg hcell]
        exact .head ht (ih (by omega))

/-- The number of items of an array; strings and empty cells have none. -/
def itemsOf : Option HeapObject → Nat
  | some (.array items) => items.length
  | _ => 0

theorem itemCount_eq (h : Heap) : h.itemCount = (h.cells.toList.map itemsOf).sum := by
  have hfold : ∀ f : Nat → Option HeapObject → Nat, (∀ n o, f n o = n + itemsOf o) →
      ∀ (l : List (Option HeapObject)) (n : Nat), l.foldl f n = n + (l.map itemsOf).sum := by
    intro f hf l
    induction l with
    | nil => simp
    | cons o rest ih =>
      intro n
      rw [List.foldl_cons, ih, hf, List.map_cons, List.sum_cons, Nat.add_assoc]
  rw [itemCount, ← Array.foldl_toList, hfold, Nat.zero_add]
  rintro n (_ | _ | items) <;> rfl

theorem length_children_le (h : Heap) (cell : Nat) :
    (h.children cell).length ≤ itemsOf (h.get? cell) := by
  unfold children pointers array?
  split
  · rename_i items hitems
    rw [hitems]
    exact List.length_filterMap_le _ _
  · simp

/-- There are no more pointers in arrays than items. -/
theorem unmarkedItems_le (h : Heap) (marked : Array Bool) : h.unmarkedItems marked ≤ h.itemCount := by
  have hsum : (h.cells.toList.map itemsOf).sum =
      ∑ cell ∈ Finset.range h.cells.size, itemsOf (h.get? cell) := by
    rw [Finset.sum_range, ← Fin.sum_univ_fun_getElem]
    refine Fintype.sum_congr _ _ fun i => ?_
    simp [get?]
  rw [itemCount_eq, hsum]
  refine Finset.sum_le_sum fun cell _ => ?_
  split
  · exact h.length_children_le cell
  · exact Nat.zero_le _

/-- A collection runs its marking to the end. -/
theorem turns_reached (h : Heap) (roots : List Value) :
    Relation.ReflTransGen h.Turn (.start h roots) ⟨[], h.reached roots⟩ := by
  have hitems := h.unmarkedItems_le (Array.replicate h.cells.size false)
  exact mark_turns (m := .start h roots) (by simp only [turnsLeft, Marking.start]; omega)

/-! ### What is marked -/

/-- What a marking has done so far: the marked and the waiting cells are reached, the roots are dealt with
or wait, and so are the pointers in arrays of marked cells. -/
structure Marks (h : Heap) (roots : List Value) (m : Marking) : Prop where
  size : m.marked.size = h.cells.size
  waiting : ∀ cell ∈ m.pending, h.Reachable roots cell
  sound : ∀ cell, m.marked[cell]? = some true → h.Reachable roots cell
  roots : ∀ cell ∈ pointers roots, m.marked[cell]? = some false → cell ∈ m.pending
  closed : ∀ p, m.marked[p]? = some true → ∀ cell ∈ h.children p, m.marked[cell]? = some false →
    cell ∈ m.pending

theorem marks_start (h : Heap) (roots : List Value) : h.Marks roots (.start h roots) where
  size := Array.size_replicate
  waiting _ hcell := .of_mem_pointers hcell
  sound cell hcell := by simp [Marking.start, Array.getElem?_replicate] at hcell
  roots _ hcell _ := hcell
  closed p hp := by simp [Marking.start, Array.getElem?_replicate] at hp

/-- A turn of a marking keeps what the marking has done. -/
theorem Marks.turn {m m' : Marking} (hm : h.Marks roots m) (ht : h.Turn m m') : h.Marks roots m' := by
  cases ht with
  | @mark cell pending rest marked horder hcell =>
    have hlt : cell < marked.size := (Array.getElem?_eq_some_iff.1 hcell).1
    have hreachable : h.Reachable roots cell := hm.waiting cell (horder.mem_iff.2 List.mem_cons_self)
    have hmarked : ∀ c, (marked.setIfInBounds cell true)[c]? =
        if c = cell then some true else marked[c]? := by
      intro c
      by_cases hc : c = cell
      · rw [if_pos hc, hc, Array.getElem?_setIfInBounds_self_of_lt hlt]
      · rw [if_neg hc, Array.getElem?_setIfInBounds_ne (Ne.symm hc)]
    -- a cell that is not marked after the turn waits after it if it waited before
    have hwaits : ∀ c, (marked.setIfInBounds cell true)[c]? = some false →
        (marked[c]? = some false → c ∈ pending) → c ∈ h.children cell ++ rest := by
      intro c hc hpending
      have hne : c ≠ cell := by
        rintro rfl
        simp [hmarked] at hc
      rw [hmarked, if_neg hne] at hc
      have hmem := (List.mem_cons.1 (horder.mem_iff.1 (hpending hc))).resolve_left hne
      exact List.mem_append_right _ hmem
    refine ⟨by simpa using hm.size, fun c hc => ?_, fun c hc => ?_, fun c hc hfalse => ?_,
      fun p hp c hc hfalse => ?_⟩
    · rcases List.mem_append.1 hc with hc | hc
      · exact hreachable.of_mem_children hc
      · exact hm.waiting c (horder.mem_iff.2 (List.mem_cons_of_mem _ hc))
    · by_cases hne : c = cell
      · exact hne ▸ hreachable
      · exact hm.sound c (by simpa [hmarked, hne] using hc)
    · exact hwaits c hfalse (hm.roots c hc)
    · by_cases hne : p = cell
      · exact List.mem_append_left _ (hne ▸ hc)
      · exact hwaits c hfalse (hm.closed p (by simpa [hmarked, hne] using hp) c hc)
  | @skip cell pending rest marked horder hcell =>
    have hwaits : ∀ c, marked[c]? = some false → c ∈ pending → c ∈ rest := by
      intro c hc hpending
      refine (List.mem_cons.1 (horder.mem_iff.1 hpending)).resolve_left ?_
      rintro rfl
      exact hcell hc
    exact ⟨hm.size, fun c hc => hm.waiting c (horder.mem_iff.2 (List.mem_cons_of_mem _ hc)), hm.sound,
      fun c hc hfalse => hwaits c hfalse (hm.roots c hc hfalse),
      fun p hp c hc hfalse => hwaits c hfalse (hm.closed p hp c hc hfalse)⟩

/-- So do all turns of a marking. -/
theorem Marks.turns {m : Marking} (hm : Relation.ReflTransGen h.Turn (.start h roots) m) :
    h.Marks roots m := by
  induction hm with
  | refl => exact h.marks_start roots
  | tail _ ht ih => exact ih.turn ht

/-- A marking that is over has marked the cells that the roots reach. -/
theorem Marks.marked_iff {marked : Array Bool} (hm : h.Marks roots ⟨[], marked⟩) {cell : Nat} :
    marked[cell]? = some true ↔ cell < h.cells.size ∧ h.Reachable roots cell := by
  have hsize : marked.size = h.cells.size := hm.size
  -- whatever is not marked is a cell that waits, or no cell
  have hmarked : ∀ c, (marked[c]? ≠ some false) → c < h.cells.size → marked[c]? = some true := by
    intro c hc hlt
    rw [Array.getElem?_eq_getElem (hsize ▸ hlt)] at hc ⊢
    simpa using hc
  refine ⟨fun hcell => ⟨hsize ▸ (Array.getElem?_eq_some_iff.1 hcell).1, hm.sound cell hcell⟩, ?_⟩
  rintro ⟨hlt, hreachable⟩
  refine hmarked cell ?_ hlt
  induction hreachable with
  | root hv hcell =>
    exact fun hfalse => List.not_mem_nil (hm.roots _ (mem_pointers.2 ⟨_, hv, hcell⟩) hfalse)
  | @item p items v cell hp hitems hv hcell ih =>
    have hmem : cell ∈ h.children p := mem_children.2 ⟨items, hitems, v, hv, hcell⟩
    have hp : p < h.cells.size := by
      by_contra hge
      rw [children_eq_nil (Nat.le_of_not_lt hge)] at hmem
      cases hmem
    exact fun hfalse => List.not_mem_nil (hm.closed p (hmarked p (ih hp) hp) cell hmem hfalse)

/-- The cells that a collection reaches are those that its roots reach. -/
theorem reached_iff {cell : Nat} :
    (h.reached roots)[cell]? = some true ↔ cell < h.cells.size ∧ h.Reachable roots cell :=
  (Marks.turns (h.turns_reached roots)).marked_iff

theorem size_reached (h : Heap) (roots : List Value) : (h.reached roots).size = h.cells.size :=
  (Marks.turns (h.turns_reached roots)).size

theorem reached_eq_false_iff {cell : Nat} :
    (h.reached roots)[cell]? = some false ↔ cell < h.cells.size ∧ ¬h.Reachable roots cell := by
  have hiff := @reached_iff h roots cell
  have hlt : cell < h.cells.size ↔ (h.reached roots)[cell]?.isSome = true := by
    rw [← h.size_reached roots]
    simp
  rw [hlt]
  cases hmark : (h.reached roots)[cell]? with
  | none => simp
  | some mark => cases mark <;> simp_all

/-- In whatever order the waiting cells are taken, in the end the same cells are marked. -/
theorem Marks.eq_reached {marked : Array Bool} (hm : h.Marks roots ⟨[], marked⟩) :
    marked = h.reached roots := by
  have hsize : marked.size = h.cells.size := hm.size
  refine Array.ext (hsize.trans (h.size_reached roots).symm) fun cell hlt hlt' => ?_
  have hiff : marked[cell]? = some true ↔ cell < h.cells.size ∧ h.Reachable roots cell := hm.marked_iff
  rw [← reached_iff, Array.getElem?_eq_getElem hlt, Array.getElem?_eq_getElem hlt',
    Option.some.injEq, Option.some.injEq] at hiff
  exact Bool.eq_iff_iff.2 hiff

end Reflow.Heap
