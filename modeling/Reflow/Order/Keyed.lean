/-!
# Lists in the order of a key

Records are kept in ascending order of a numeric key, one for each key. A set of numbers is the
case in which the key is the number itself.

## Main definitions

* `Keyed.put`: the list with one more record, which replaces the one of its key.
* `Keyed.get?`, `Keyed.erase`: the record of a key, and the list without it.
* `Ascending.insert`, `Ascending.union`: sets of numbers.

## Main results

* `Keyed.get?_put`: what the list holds after a record was put into it.
* `Ascending.mem_insert`: the elements of a set with one more number.
-/

namespace Reflow

namespace Keyed

variable {α : Type} (key : α → Nat)

/-- Puts a record in its place; it replaces the one of its key. -/
def put (a : α) : List α → List α
  | [] => [a]
  | b :: rest =>
    if key a < key b then a :: b :: rest
    else if key a = key b then a :: rest
    else b :: put a rest

/-- The record of a key. -/
def get? (k : Nat) (as : List α) : Option α := as.find? (fun a => key a == k)

/-- The list without the record of a key. -/
def erase (k : Nat) (as : List α) : List α := as.filter (fun a => key a != k)

/-- The list is in strictly ascending order of the key. -/
def Sorted (as : List α) : Prop := as.Pairwise (fun a b => key a < key b)

theorem mem_put {a x : α} {as : List α} (h : x ∈ put key a as) : x = a ∨ x ∈ as := by
  induction as with
  | nil => simpa [put] using h
  | cons b rest ih =>
    unfold put at h
    split at h
    · simpa using h
    · split at h
      · rcases List.mem_cons.1 h with rfl | h
        · exact .inl rfl
        · exact .inr (List.mem_cons_of_mem _ h)
      · rcases List.mem_cons.1 h with rfl | h
        · exact .inr List.mem_cons_self
        · exact (ih h).imp id (List.mem_cons_of_mem _)

theorem sorted_put (a : α) {as : List α} (h : Sorted key as) : Sorted key (put key a as) := by
  induction as with
  | nil => simp [put, Sorted]
  | cons b rest ih =>
    have ⟨hb, hr⟩ := List.pairwise_cons.1 h
    unfold put
    split
    · rename_i hlt
      refine List.pairwise_cons.2 ⟨fun x hx => ?_, h⟩
      rcases List.mem_cons.1 hx with rfl | hx
      · exact hlt
      · exact Nat.lt_trans hlt (hb x hx)
    · split
      · rename_i heq
        exact List.pairwise_cons.2 ⟨fun x hx => heq ▸ hb x hx, hr⟩
      · refine List.pairwise_cons.2 ⟨fun x hx => ?_, ih hr⟩
        rcases mem_put key hx with rfl | hx
        · omega
        · exact hb x hx

/-- After a record was put into a sorted list, its key gives that record and all other keys give
what they gave before. -/
theorem get?_put (a : α) (k : Nat) {as : List α} (h : Sorted key as) :
    get? key k (put key a as) = if key a = k then some a else get? key k as := by
  induction as with
  | nil => simp [put, get?, List.find?_cons]; split <;> simp_all
  | cons b rest ih =>
    have ⟨hb, hr⟩ := List.pairwise_cons.1 h
    unfold put
    split
    · simp only [get?, List.find?_cons]; split <;> simp_all
    · split
      · rename_i heq
        by_cases hk : key a = k
        · simp [get?, hk]
        · simp [get?, hk, heq ▸ hk]
      · rename_i hne
        have := ih hr
        simp only [get?, List.find?_cons] at this ⊢
        by_cases hk : key b = k
        · simp [hk]; omega
        · have hk : (key b == k) = false := by simpa using hk
          simp only [hk, this]

end Keyed

namespace Ascending

/-- The set with one more number. -/
def insert (n : Nat) (s : List Nat) : List Nat := Keyed.put id n s

/-- The set with some more numbers. -/
def union (s more : List Nat) : List Nat := more.foldl (fun s n => insert n s) s

/-- The set of the numbers of a list. -/
def ofList (ns : List Nat) : List Nat := union [] ns

theorem mem_insert {n m : Nat} {s : List Nat} : m ∈ insert n s ↔ m = n ∨ m ∈ s := by
  induction s with
  | nil => simp [insert, Keyed.put]
  | cons b rest ih =>
    unfold insert Keyed.put
    simp only [insert] at ih
    split
    · simp
    · split
      · rename_i heq
        simp only [id] at heq
        simp [heq]
      · simp only [List.mem_cons, ih]
        constructor <;> (rintro (h | h | h) <;> simp [h])

theorem mem_union {m : Nat} {s more : List Nat} : m ∈ union s more ↔ m ∈ s ∨ m ∈ more := by
  induction more generalizing s with
  | nil => simp [union]
  | cons n rest ih =>
    have : union s (n :: rest) = union (insert n s) rest := rfl
    rw [this, ih, mem_insert]
    simp only [List.mem_cons]
    constructor
    · rintro ((h | h) | h) <;> simp [h]
    · rintro (h | h | h) <;> simp [h]

theorem mem_ofList {m : Nat} {ns : List Nat} : m ∈ ofList ns ↔ m ∈ ns := by
  simp [ofList, mem_union]

end Ascending

end Reflow
