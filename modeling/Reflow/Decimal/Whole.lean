/-!
# Whole numbers of 64 bits

The language counts in signed words of 64 bits. What leaves their range is never wrapped: a reader
refuses it, and an operation on numbers is not defined there.

## Main definitions

* `fit?`: the word that holds a whole number.

## Main results

* `fit?_eq_some_iff`: a word holds exactly the number it stands for.
-/

namespace Reflow

/-- A whole number as a word of 64 bits, if it fits one. -/
def fit? (n : Int) : Option Int64 :=
  if Int64.minValue.toInt ≤ n ∧ n ≤ Int64.maxValue.toInt then some (Int64.ofInt n) else none

theorem fit?_eq_some_iff {n : Int} {k : Int64} : fit? n = some k ↔ k.toInt = n := by
  unfold fit?
  constructor
  · intro h
    split at h
    · rename_i hn
      obtain rfl := Option.some.inj h
      exact Int64.toInt_ofInt_of_le hn.1 (Int.lt_of_le_of_lt hn.2 (by decide))
    · cases h
  · rintro rfl
    have h : Int64.minValue.toInt ≤ k.toInt ∧ k.toInt ≤ Int64.maxValue.toInt :=
      ⟨Int64.minValue_le_toInt k, Int64.toInt_le k⟩
    rw [if_pos h, Int64.ofInt_toInt]

theorem fit?_of_le {n : Int} (hlow : -9223372036854775808 ≤ n) (hhigh : n ≤ 9223372036854775807) :
    fit? n = some (.ofInt n) :=
  if_pos ⟨hlow, hhigh⟩

theorem fit?_of_lt {n : Int} (h : n < -9223372036854775808 ∨ 9223372036854775807 < n) :
    fit? n = none := by
  refine if_neg fun ⟨hlow, hhigh⟩ => ?_
  have hmin : Int64.minValue.toInt = -9223372036854775808 := by decide
  have hmax : Int64.maxValue.toInt = 9223372036854775807 := by decide
  omega

end Reflow
