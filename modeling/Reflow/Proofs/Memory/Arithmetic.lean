import Reflow.Machine.Operation
/-!
# Whole numbers in words

The machine counts in words of 64 bits. Each arithmetic operator is described here by the number that
it should give, in the unbounded integers: a quotient is rounded toward zero, and what it leaves over
has the sign of the dividend. The operator gives that number whenever a word holds it, with one
exception. The least word divided by minus one leaves zero over, but its quotient is one more than the
greatest word, and a remainder counts only where the quotient does.

Positions count in words as well. The number of items is a word, and the sum of a negative position and
the number of items is one again, so that words give the place that the integers give.

## Main definitions

* `Division`: quotient and remainder of a division that rounds toward zero.
* `BinaryOp.Exact`: the exact result of an arithmetic operator.
* `wordIndex?`: the place of a position, computed in words that wrap around.

## Main results

* `intResult?_eq_some_iff`: which result an operator has on words.
* `resolveIndex?_eq_some_iff`: which place a position stands for.
* `resolveIndex?_eq_wordIndex?`: words suffice to find it.
-/

namespace Reflow

/-! ### Exact results -/

/-- `q` and `r` are quotient and remainder of `a` by `b`, where the quotient is rounded toward zero: the
remainder is smaller than the divisor and has the sign of the dividend. -/
structure Division (a b q r : Int) : Prop where
  eq : a = b * q + r
  small : r.natAbs < b.natAbs
  nonneg : 0 ≤ a → 0 ≤ r
  nonpos : a ≤ 0 → r ≤ 0

theorem division_tdiv_tmod {b : Int} (a : Int) (hb : b ≠ 0) :
    Division a b (a.tdiv b) (a.tmod b) where
  eq := (Int.mul_tdiv_add_tmod a b).symm
  small := by
    rw [Int.natAbs_tmod]
    exact Nat.mod_lt _ (Int.natAbs_pos.2 hb)
  nonneg := Int.tmod_nonneg b
  nonpos ha := by
    have h := Int.tmod_nonneg b (Int.neg_nonneg_of_nonpos ha)
    rw [Int.neg_tmod] at h
    omega

namespace Division

variable {a b q r : Int}

theorem ne_zero (h : Division a b q r) : b ≠ 0 := by
  rintro rfl
  exact Nat.not_lt_zero _ h.small

/-- There is one quotient and one remainder. -/
theorem unique (h : Division a b q r) : a.tdiv b = q ∧ a.tmod b = r := by
  have heq := h.eq
  have hsmall := h.small
  rcases Int.le_total 0 a with ha | ha
  · have hr := h.nonneg ha
    exact (Int.tdiv_tmod_unique ha h.ne_zero).2 ⟨by omega, hr, by omega⟩
  · have hr := h.nonpos ha
    exact (Int.tdiv_tmod_unique' ha h.ne_zero).2 ⟨by omega, by omega, hr⟩

end Division

namespace BinaryOp

/-- The operators that calculate with numbers. -/
def arithmetic : List BinaryOp := [add, sub, mul, div, mod]

/-- `n` is the exact result of an operator on `a` and `b`. -/
def Exact (a b n : Int) : BinaryOp → Prop
  | add => n = a + b
  | sub => n = a - b
  | mul => n = a * b
  | div => ∃ r, Division a b n r
  | mod => ∃ q, Division a b q n
  | _ => False

variable {a b n : Int}

theorem exact_div_iff : div.Exact a b n ↔ b ≠ 0 ∧ a.tdiv b = n := by
  constructor
  · rintro ⟨r, h⟩
    exact ⟨h.ne_zero, h.unique.1⟩
  · rintro ⟨hb, rfl⟩
    exact ⟨_, division_tdiv_tmod a hb⟩

theorem exact_mod_iff : mod.Exact a b n ↔ b ≠ 0 ∧ a.tmod b = n := by
  constructor
  · rintro ⟨q, h⟩
    exact ⟨h.ne_zero, h.unique.2⟩
  · rintro ⟨hb, rfl⟩
    exact ⟨_, division_tdiv_tmod a hb⟩

end BinaryOp

/-! ### Results that fit a word -/

/-- Of all quotients of two words, only that of the least word by minus one is no word. -/
theorem fit?_tdiv_eq_none_iff {a b : Int64} (hb : b.toInt ≠ 0) :
    fit? (a.toInt.tdiv b.toInt) = none ↔ a = .minValue ∧ b = -1 := by
  have hmin : Int64.minValue.toInt = -9223372036854775808 := rfl
  constructor
  · intro h
    have hfits : ¬(-9223372036854775808 ≤ a.toInt.tdiv b.toInt ∧
        a.toInt.tdiv b.toInt ≤ 9223372036854775807) := fun hq =>
      Option.some_ne_none _ ((fit?_of_le hq.1 hq.2).symm.trans h)
    have hle := Int.natAbs_tdiv_le_natAbs a.toInt b.toInt
    have hlow : -9223372036854775808 ≤ a.toInt := Int64.minValue_le_toInt a
    have hhigh : a.toInt ≤ 9223372036854775807 := Int64.toInt_le a
    have hleast : a.toInt = -9223372036854775808 := by omega
    -- the quotient is as large as the dividend, so that the divisor is a unit
    have hunit : b.toInt.natAbs < 2 := by
      refine Nat.lt_of_not_le fun htwo => ?_
      have hhalf := Nat.div_le_div_left (a := a.toInt.natAbs) htwo (by decide)
      have habs := Int.natAbs_tdiv a.toInt b.toInt
      change _ = a.toInt.natAbs / b.toInt.natAbs at habs
      omega
    have hone : b.toInt ≠ 1 := by
      intro hone
      rw [hone, Int.tdiv_one] at hfits
      exact hfits ⟨hlow, hhigh⟩
    have hminus : b.toInt = (-1 : Int64).toInt := by
      change b.toInt = -1
      omega
    exact ⟨Int64.toInt_inj.1 (hleast.trans hmin.symm), Int64.toInt_inj.1 hminus⟩
  · rintro ⟨rfl, rfl⟩
    rfl

/-- An operator gives the exact result if a word holds it, except for the remainder of the least word
by minus one. -/
theorem intResult?_eq_some_iff {op : BinaryOp} {a b n : Int64} :
    intResult? op a.toInt b.toInt = some n ↔
      op.Exact a.toInt b.toInt n.toInt ∧ ¬(op = .mod ∧ a = .minValue ∧ b = -1) := by
  cases op with
  | add | sub | mul => simp [intResult?, BinaryOp.Exact, fit?_eq_some_iff]
  | div =>
    rw [BinaryOp.exact_div_iff]
    by_cases hb : b.toInt = 0
    · simp [intResult?, hb]
    · rw [intResult?, if_neg hb, fit?_eq_some_iff]
      simp [hb, eq_comm]
  | mod =>
    rw [BinaryOp.exact_mod_iff]
    by_cases hb : b.toInt = 0
    · simp [intResult?, hb]
    · have hquotient := fit?_tdiv_eq_none_iff (a := a) hb
      rw [intResult?, if_neg hb, ← hquotient]
      cases fit? (a.toInt.tdiv b.toInt) with
      | none => simp
      | some q =>
        rw [Option.bind_some, fit?_eq_some_iff]
        simp [hb, eq_comm]
  | _ => simp [intResult?, BinaryOp.Exact]

/-- With zero as right operand, only a division has no result. -/
theorem eq_div_or_mod_of_intResult? {op : BinaryOp} {a : Int64} (hop : op ∈ BinaryOp.arithmetic)
    (h : intResult? op a.toInt 0 = none) : op = .div ∨ op = .mod := by
  have hfits : fit? a.toInt = some a := fit?_eq_some_iff.2 rfl
  have hzero : fit? 0 = some 0 := rfl
  cases op with
  | div => exact .inl rfl
  | mod => exact .inr rfl
  | add | sub | mul => simp [intResult?, hfits, hzero] at h
  | _ => simp [BinaryOp.arithmetic] at hop

/-! ### Positions -/

/-- A position stands for the place that it is, or for the place that it is when the number of items is
added. -/
theorem resolveIndex?_eq_some_iff {position : Int64} {size k : Nat} :
    resolveIndex? position size = some k ↔
      k < size ∧ (position.toInt = k ∨ position.toInt = k - size) := by
  unfold resolveIndex?
  dsimp only
  split <;> split <;> simp only [Option.some.injEq, reduceCtorEq, false_iff] <;> omega

theorem resolveIndex?_eq_none_iff {position : Int64} {size : Nat} :
    resolveIndex? position size = none ↔ position.toInt < -size ∨ size ≤ position.toInt := by
  unfold resolveIndex?
  dsimp only
  split <;> split <;> simp only [reduceCtorEq, false_iff, true_iff] <;> omega

/-- The place of a position, computed in words. Their sums wrap around. -/
def wordIndex? (position size : Int64) : Option Nat :=
  let resolved := if position < 0 then size + position else position
  if 0 ≤ resolved ∧ resolved < size then some resolved.toInt.toNat else none

/-- Adding the number of items to a negative position does not wrap around. -/
theorem toInt_add_of_neg {position size : Int64} (hsize : 0 ≤ size.toInt)
    (hposition : position.toInt < 0) : (size + position).toInt = size.toInt + position.toInt := by
  have hlow : -9223372036854775808 ≤ position.toInt := Int64.minValue_le_toInt position
  have hhigh : size.toInt ≤ 9223372036854775807 := Int64.toInt_le size
  rw [Int64.toInt_add]
  exact Int.bmod_eq_of_le (by omega) (by omega)

/-- Words suffice to find the place of a position. -/
theorem resolveIndex?_eq_wordIndex? {position size : Int64} {n : Nat} (h : size.toInt = n) :
    resolveIndex? position n = wordIndex? position size := by
  have hzero : (0 : Int64).toInt = 0 := rfl
  unfold resolveIndex? wordIndex?
  dsimp only
  simp only [Int64.lt_iff_toInt_lt, Int64.le_iff_toInt_le, hzero, ← h]
  split
  · rename_i hneg
    rw [toInt_add_of_neg (h ▸ Int.natCast_nonneg n) hneg]
  · rfl

end Reflow
