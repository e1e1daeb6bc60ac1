import Reflow.Decimal.Shortest
/-!
# The remainder of two doubles

The remainder of a division truncated toward zero is a multiple of the finer of the two binary
units and smaller than the divisor, so it is a double itself: it is computed exactly on the
mantissas and takes the sign of the dividend.

## Main definitions

* `ofBinary`: the double `mantissa * 2 ^ exponent`.
* `remainder`: the truncated remainder of two doubles.
-/

namespace Reflow.Decimal

/-- The double `mantissa * 2 ^ exponent` with the given sign, for a magnitude that is a double. -/
def ofBinary (negative : Bool) (mantissa : Nat) (exponent : Int) : Float :=
  let sign := if negative then 1 <<< 63 else 0
  if mantissa = 0 then Float.ofBits (UInt64.ofNat sign)
  else
    -- bring the mantissa to 53 bits, or to the least exponent
    let shift := min (53 - ((Nat.log2 mantissa : Int) + 1)) (exponent + 1074)
    let m := match shift with
      | .ofNat n => mantissa <<< n
      | .negSucc n => mantissa >>> (n + 1)
    let e := exponent - shift
    let biased := if m < 1 <<< 52 then 0 else (e + 1075).toNat
    Float.ofBits (UInt64.ofNat (sign + (biased <<< 52) + m % (1 <<< 52)))

/-- The remainder of the division of `x` by `y` truncated toward zero; a NaN where the quotient has
no whole part. -/
def remainder (x y : Float) : Float :=
  if x.isNaN ∨ y.isNaN then 0.0 / 0.0
  else match binary? x, binary? y with
    | none, _ => 0.0 / 0.0
    | some _, none => x
    | some bx, some bound =>
      if bound.mantissa = 0 then 0.0 / 0.0
      else
        let least := min bx.exponent bound.exponent
        let a := bx.mantissa <<< (bx.exponent - least).toNat
        let b := bound.mantissa <<< (bound.exponent - least).toNat
        ofBinary (signBit x) (a % b) least

end Reflow.Decimal
