import Reflow.Json.Decode
/-!
# Decoding what was encoded

A list that was encoded item by item is decoded if every item is, and an object that was written with the
fields of a record and no others is that record.

## Main results

* `Json.list?_map`: lists come back if their items do.
* `Json.record?_obj`: records with their fields in order, which are then read one by one.
-/

namespace Reflow.Json

theorem list?_map {α : Type} {encode : α → Json} {decode : Json → Option α} {as : List α}
    (h : ∀ a ∈ as, decode (encode a) = some a) : list? decode (arr (as.map encode)) = some as := by
  rw [list?]
  induction as with
  | nil => rfl
  | cons a as ih =>
    rw [List.map_cons, List.mapM_cons, h a List.mem_cons_self,
      ih fun a ha => h a (List.mem_cons_of_mem _ ha)]
    rfl

/-- The fields of a record that is written as an object with just these fields. -/
theorem record?_obj {names : List String} {fields : List (String × Json)}
    (h : fields.map Prod.fst = names) (hnodup : names.Nodup) :
    record? names (obj fields) = some ⟨false, fields⟩ := by
  have hknown : ∀ {fields : List (String × Json)}, (fields.map Prod.fst).Nodup →
      fields.map Prod.fst ⊆ names → known? names fields = some fields := by
    intro fields
    induction fields with
    | nil => exact fun _ _ => rfl
    | cons field fields ih =>
      intro hnodup hnames
      obtain ⟨hname, hnodup⟩ := List.nodup_cons.1 hnodup
      have hfresh : fields.any (·.1 == field.1) = false := by
        rw [List.any_eq_false]
        intro other hother heq
        exact hname (List.mem_map.2 ⟨other, hother, by simpa using heq⟩)
      have hmem : field.1 ∈ names := hnames List.mem_cons_self
      rw [known?, ih hnodup fun n hn => hnames (List.mem_cons_of_mem _ hn)]
      simp [hmem, hfresh]
  rw [record?, hknown (h ▸ hnodup) (h ▸ List.Subset.refl _)]
  rfl

namespace Record

variable {α : Type} {decode : Json → Option α} {default : α} {positional : Bool} {name other : String}
  {j : Json} {fields : List (String × Json)}

theorem get?_cons_of_ne (h : name ≠ other) :
    (⟨positional, (other, j) :: fields⟩ : Record).get? name =
      (⟨positional, fields⟩ : Record).get? name := by
  have hname : (name == other) = false := beq_eq_false_iff_ne.2 h
  rw [get?, List.lookup_cons, hname]
  rfl

@[simp]
theorem required?_cons_self :
    (⟨positional, (name, j) :: fields⟩ : Record).required? name decode = decode j := by
  simp [required?, get?]

@[simp]
theorem required?_cons_of_ne (h : name ≠ other) :
    (⟨positional, (other, j) :: fields⟩ : Record).required? name decode =
      (⟨positional, fields⟩ : Record).required? name decode := by
  rw [required?, get?_cons_of_ne h, required?]

@[simp]
theorem orDefault?_cons_self :
    (⟨positional, (name, j) :: fields⟩ : Record).orDefault? name decode default = decode j := by
  simp [orDefault?, get?]

@[simp]
theorem orDefault?_cons_of_ne (h : name ≠ other) :
    (⟨positional, (other, j) :: fields⟩ : Record).orDefault? name decode default =
      (⟨positional, fields⟩ : Record).orDefault? name decode default := by
  rw [orDefault?, get?_cons_of_ne h, orDefault?]

end Record

end Reflow.Json
