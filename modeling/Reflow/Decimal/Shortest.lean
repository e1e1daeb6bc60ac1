/-!
# The shortest decimal of a double

A finite positive double is `mantissa * 2 ^ exponent`. Every real number between the midpoints to
its two neighbours reads back as that double, the midpoints themselves exactly when the mantissa
is even. The shortest decimal is found on the grids `10 ^ e`: the coarsest grid with a point in
that interval wins, and on a grid only the two points around the value have to be tried, since if
any point of the grid lies in the interval, one of these two does.

## Main definitions

* `Binary`: sign-free binary form of a finite double, with `Float.binary?` reading it off the bits.
* `Digits`: a decimal `digits * 10 ^ exponent`.
* `Binary.shortest`: the shortest decimal that reads back, nearest first, ties by `Tie`.
-/

namespace Reflow.Decimal

/-- The magnitude `mantissa * 2 ^ exponent` of a finite double. -/
structure Binary where
  mantissa : Nat
  exponent : Int
  /-- The gap below the value is half the gap above it. -/
  lopsided : Bool
  deriving Repr, DecidableEq

/-- A decimal `digits * 10 ^ exponent`. -/
structure Digits where
  digits : Nat
  exponent : Int
  deriving Repr, DecidableEq

/-- Which of two equally near decimals is taken. -/
inductive Tie
  /-- The larger one. -/
  | up
  /-- The one with an even last digit. -/
  | even
  deriving Repr, DecidableEq

/-- The sign bit of a double; a zero has one too. -/
def signBit (x : Float) : Bool := x.toBits >>> 63 != 0

/-- The binary form of the magnitude of a finite double, `none` for a NaN and the infinities. -/
def binary? (x : Float) : Option Binary :=
  let bits : Nat := x.toBits.toNat
  let biased : Nat := (bits >>> 52) % 2048
  let fraction : Nat := bits % (1 <<< 52)
  if biased = 2047 then none
  else if biased = 0 then some ⟨fraction, -1074, false⟩
  else some ⟨(1 <<< 52) + fraction, (biased : Int) - 1075, fraction = 0 ∧ 1 < biased⟩

/-- The number of decimal digits of a natural number; zero has one. -/
def width (n : Nat) : Nat := (Nat.toDigits 10 n).length

/-- `a * base ^ e` as a quotient of two natural numbers, for a power of either sign. -/
def scaled (a : Nat) (base : Nat) (e : Int) : Nat × Nat :=
  match e with
  | .ofNat n => (a * Nat.pow base n, 1)
  | .negSucc n => (a, Nat.pow base (n + 1))

/-- Removes the zeros at the end of the digits. -/
def Digits.strip (d : Digits) : Digits :=
  go (width d.digits) d
where
  go : Nat → Digits → Digits
    | 0, d => d
    | fuel + 1, d =>
      if d.digits ≠ 0 ∧ d.digits % 10 = 0 then go fuel ⟨d.digits / 10, d.exponent + 1⟩ else d

/-- The point of the grid `10 ^ e` that reads back as `b` and is nearest to it, if there is one. -/
def Binary.onGrid? (b : Binary) (tie : Tie) (e : Int) : Option Digits :=
  -- all quantities in quarters of the unit `2 ^ exponent`, times the common denominator `den`
  let (num, den₂) := scaled 1 2 (b.exponent - 2)
  let (unit, den₁₀) := scaled 1 10 e
  let quarter := num * den₁₀
  let step := unit * den₂
  let value := 4 * b.mantissa * quarter
  let low := value - (if b.lopsided then quarter else 2 * quarter)
  let high := value + 2 * quarter
  let closed := b.mantissa % 2 = 0
  let below := value / step
  let above := below + 1
  let reads (p : Nat) : Bool :=
    if closed then low ≤ p * step ∧ p * step ≤ high else low < p * step ∧ p * step < high
  let down := reads below
  let up := reads above
  if down && up then
    let toBelow := value - below * step
    let toAbove := above * step - value
    if toBelow < toAbove then some ⟨below, e⟩
    else if toAbove < toBelow then some ⟨above, e⟩
    else match tie with
      | .up => some ⟨above, e⟩
      | .even => some ⟨if below % 2 = 0 then below else above, e⟩
  else if down then some ⟨below, e⟩
  else if up then some ⟨above, e⟩
  else none

/-- The exponent `k` with `10 ^ k ≤ value < 10 ^ (k + 1)`. -/
def Binary.magnitude (b : Binary) : Int :=
  let (num, den) := scaled b.mantissa 2 b.exponent
  if den ≤ num then (width (num / den) : Int) - 1
  else
    -- `10 ^ j * num / den` reaches one first for the wanted `j`
    let guess := width (den / num)
    if den ≤ num * Nat.pow 10 (guess - 1) then -((guess : Int) - 1) else -(guess : Int)

/-- The shortest decimal that reads back as `b`, the nearest one where there are several. The
seventeen grids tried always suffice for a double. -/
def Binary.shortest (b : Binary) (tie : Tie) : Digits :=
  if b.mantissa = 0 then ⟨0, 0⟩ else search 17 1
where
  search : Nat → Nat → Digits
    | 0, _ => ⟨b.mantissa, b.exponent⟩
    | fuel + 1, n =>
      match b.onGrid? tie (b.magnitude + 1 - n) with
      | some d => d.strip
      | none => search fuel (n + 1)

end Reflow.Decimal
