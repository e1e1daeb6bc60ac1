import Reflow.Proofs.Memory.Datum
import Reflow.Proofs.Memory.Marking
/-!
# Collection

A collection marks the cells that its roots reach and empties the others. A cell that is reached keeps
its object, and whatever an array in it points to is reached too. Hence all that the globals stand for,
they still stand for after the collection.

## Main definitions

* `Heap.freed`: the cells that a collection empties.

## Main results

* `getElem?_collect`, `getElem?_collect_of_not`: the cells after a collection.
* `Sound.collect`, `HeldAll.collect`: a collection keeps a heap sound and keeps what the roots hold.
-/

namespace Reflow.Heap

variable {names : Nat → Option String} {h : Heap}

/-! ### Emptying cells -/

/-- The cells that a collection empties. -/
def freed (h : Heap) (roots : List Value) : List Nat :=
  (List.range h.cells.size).filter fun cell =>
    (h.reached roots)[cell]? = some false ∧ (h.get? cell).isSome

theorem getElem?_foldl_clear (cells : List Nat) (a : Array (Option HeapObject)) (c : Nat) :
    (cells.foldl (fun a cell => a.setIfInBounds cell none) a)[c]? =
      if c ∈ cells then a[c]?.map fun _ => none else a[c]? := by
  induction cells generalizing a with
  | nil => rfl
  | cons cell rest ih =>
    rw [List.foldl_cons, ih, Array.getElem?_setIfInBounds]
    by_cases hc : cell = c
    · subst hc
      by_cases hlt : cell < a.size <;> simp [hlt]
    · simp [hc, Ne.symm hc]

variable {roots : List Value} {c : Nat}

theorem mem_freed : c ∈ h.freed roots ↔ ¬h.Reachable roots c ∧ (h.get? c).isSome = true := by
  simp only [freed, List.mem_filter, List.mem_range, decide_eq_true_eq, reached_eq_false_iff]
  constructor
  · rintro ⟨-, ⟨-, hc⟩, hobject⟩
    exact ⟨hc, hobject⟩
  · rintro ⟨hc, hobject⟩
    obtain ⟨o, ho⟩ := Option.isSome_iff_exists.1 hobject
    have hlt := (Array.getElem?_eq_some_iff.1 (get?_eq_some.1 ho)).1
    exact ⟨hlt, ⟨hlt, hc⟩, hobject⟩

/-- A cell that the roots reach stays as it is. -/
theorem getElem?_collect (hc : h.Reachable roots c) :
    (h.collect roots).2.cells[c]? = h.cells[c]? := by
  change ((h.freed roots).foldl _ h.cells)[c]? = _
  rw [getElem?_foldl_clear, if_neg fun hmem => (mem_freed.1 hmem).1 hc]

theorem get?_collect (hc : h.Reachable roots c) : (h.collect roots).2.get? c = h.get? c :=
  congrArg Option.join (getElem?_collect hc)

/-- A cell that the roots do not reach is empty afterwards. -/
theorem getElem?_collect_of_not (hc : ¬h.Reachable roots c) :
    (h.collect roots).2.cells[c]? = h.cells[c]?.map fun _ => none := by
  change ((h.freed roots).foldl _ h.cells)[c]? = _
  rw [getElem?_foldl_clear]
  split
  · rfl
  · rename_i hfreed
    have hempty : h.get? c = none :=
      Option.not_isSome_iff_eq_none.1 fun hobject => hfreed (mem_freed.2 ⟨hc, hobject⟩)
    rw [get?] at hempty
    cases hcell : h.cells[c]? with
    | none => rfl
    | some o =>
      rw [hcell] at hempty
      exact congrArg some hempty

theorem get?_collect_of_not (hc : ¬h.Reachable roots c) : (h.collect roots).2.get? c = none := by
  rw [get?, getElem?_collect_of_not hc]
  cases h.cells[c]? <;> rfl

/-- A collection keeps a heap sound. -/
theorem Sound.collect (hs : h.Sound) (roots : List Value) : (h.collect roots).2.Sound := by
  have hfull : ∀ c ∈ h.freed roots, ∃ o, h.cells[c]? = some (some o) := by
    intro c hc
    obtain ⟨o, ho⟩ := Option.isSome_iff_exists.1 (mem_freed.1 hc).2
    exact ⟨o, get?_eq_some.1 ho⟩
  refine ⟨fun c => ?_, ?_⟩
  · change c ∈ (h.freed roots).reverse ++ h.free ↔ ((h.freed roots).foldl _ h.cells)[c]? = some none
    rw [getElem?_foldl_clear, List.mem_append, List.mem_reverse, hs.mem_free]
    by_cases hc : c ∈ h.freed roots
    · obtain ⟨o, ho⟩ := hfull c hc
      simp [hc, ho]
    · simp [hc]
  · change ((h.freed roots).reverse ++ h.free).Nodup
    refine List.nodup_append.2 ⟨?_, hs.nodup, ?_⟩
    · exact List.nodup_reverse.2 (List.nodup_range.filter _)
    · rintro c hc d hd rfl
      obtain ⟨o, ho⟩ := hfull c (List.mem_reverse.1 hc)
      rw [(hs.mem_free c).1 hd] at ho
      cases ho

mutual

/-- What a value stands for, it still stands for if its cell is reached. -/
theorem Held.collect {v : Value} {d : Datum} (hd : Held names h v d)
    (hv : ∀ p, v.pointer? = some p → h.Reachable roots p) :
    Held names (h.collect roots).2 v d := by
  cases hd with
  | null => exact .null
  | bool => exact .bool _
  | int => exact .int _
  | double => exact .double _
  | function hp => exact .function hp
  | @string p s hs =>
    refine .string (string?_eq_some.2 ?_)
    rw [get?_collect (hv p rfl)]
    exact string?_eq_some.1 hs
  | @array p vs ds hp hs =>
    have hreached := hv p rfl
    refine .array (array?_eq_some.2 ?_) (HeldAll.collect hs fun c hc => ?_)
    · rw [get?_collect hreached]
      exact array?_eq_some.1 hp
    · obtain ⟨w, hw, hwc⟩ := mem_pointers.1 hc
      exact hreached.item hp hw hwc

theorem HeldAll.collect {vs : List Value} {ds : List Datum} (hs : HeldAll names h vs ds)
    (hvs : ∀ p ∈ pointers vs, h.Reachable roots p) :
    HeldAll names (h.collect roots).2 vs ds := by
  cases hs with
  | nil => exact .nil
  | @cons v d vs ds hd hs =>
    refine .cons (Held.collect hd fun p hp => hvs p ?_) (HeldAll.collect hs fun p hp => hvs p ?_)
    · exact mem_pointers.2 ⟨v, List.mem_cons_self, hp⟩
    · obtain ⟨w, hw, hwp⟩ := mem_pointers.1 hp
      exact mem_pointers.2 ⟨w, List.mem_cons_of_mem _ hw, hwp⟩

end

/-- A collection keeps what its roots stand for. -/
theorem HeldAll.collect_self {ds : List Datum} (hs : HeldAll names h roots ds) :
    HeldAll names (h.collect roots).2 roots ds := hs.collect fun _ => .of_mem_pointers

end Reflow.Heap
