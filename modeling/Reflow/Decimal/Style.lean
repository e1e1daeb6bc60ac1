import Reflow.Decimal.Shortest
/-!
# Written forms of a double

Every text of a double shows its shortest digits; the texts differ in a few decisions only, which
a `Style` records: how far positional notation reaches, whether a whole number keeps a zero after
the point, how an exponent is signed, and which of two equally short decimals is taken.

## Main definitions

* `Style`: the decisions of one written form.
* `Style.write`: the text of a double in that form.
-/

namespace Reflow.Decimal

/-- The decisions of one written form of doubles. -/
structure Style where
  /-- Numbers whose leading digit stands at a power of ten in this range are written without an
  exponent; `none` stands for no bound. -/
  positional : Option (Int × Int)
  /-- A whole number is written with a point and a zero. -/
  pointZero : Bool
  /-- A positive exponent carries a plus sign. -/
  plusSign : Bool
  tie : Tie

/-- `n` zeros. -/
def zeros (n : Nat) : String := String.ofList (List.replicate n '0')

/-- `digits * 10 ^ exponent` with a point and without an exponent. -/
def Digits.plain (d : Digits) (pointZero : Bool) : String :=
  let text := toString d.digits
  match d.exponent with
  | .ofNat n => text ++ zeros n ++ (if pointZero then ".0" else "")
  | .negSucc n =>
    let places := n + 1
    if places < text.length then
      String.ofList (text.toList.take (text.length - places)) ++ "."
        ++ String.ofList (text.toList.drop (text.length - places))
    else "0." ++ zeros (places - text.length) ++ text

/-- `digits * 10 ^ exponent` with one digit before the point and the power of ten after an `e`. -/
def Digits.scientific (d : Digits) (plusSign : Bool) : String :=
  let text := toString d.digits
  let power := d.exponent + (text.length : Int) - 1
  let tail := text.toList.drop 1
  String.ofList (text.toList.take 1) ++ (if tail.isEmpty then "" else "." ++ String.ofList tail)
    ++ "e" ++ (if plusSign ∧ 0 ≤ power then "+" else "") ++ toString power

/-- The text of a double's magnitude. -/
def Style.magnitude (style : Style) (b : Binary) : String :=
  let d := b.shortest style.tie
  let leading := d.exponent + (width d.digits : Int) - 1
  let plain := match style.positional with
    | none => true
    | some (least, most) => d.digits = 0 ∨ (least ≤ leading ∧ leading ≤ most)
  if plain then d.plain style.pointZero else d.scientific style.plusSign

/-- The text of a double. A NaN never has a sign; a negative zero has one. -/
def Style.write (style : Style) (x : Float) : String :=
  if x.isNaN then "NaN"
  else
    let sign := if signBit x then "-" else ""
    match binary? x with
    | none => sign ++ "inf"
    | some b => sign ++ style.magnitude b

end Reflow.Decimal
