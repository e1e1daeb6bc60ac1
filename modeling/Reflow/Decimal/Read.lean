/-!
# Reading a double

The accepted texts are an optional sign, then digits with at most one point and at least one digit,
then an optional exponent with at least one digit; or one of the words for an infinity and for a
NaN in either letter case. The result is the double nearest to the decimal.

## Main definitions

* `float?`: the double a text denotes.
* `nearest`: the double nearest to `digits * 10 ^ exponent`.
-/

namespace Reflow.Decimal

/-- The value of a list of decimal digits. -/
def natOfDigits (cs : List Char) : Nat :=
  cs.foldl (fun n c => 10 * n + (c.toNat - '0'.toNat)) 0

/-- The double nearest to `digits * 10 ^ exponent`. Powers far outside the range of doubles are
decided before any power of ten is formed. -/
def nearest (digits : Nat) (exponent : Int) : Float :=
  if digits = 0 then 0.0
  else
    let leading := exponent + ((Nat.toDigits 10 digits).length : Int)
    if 400 < leading then 1.0 / 0.0
    else if leading < -400 then 0.0
    else match exponent with
      | .ofNat n => Float.ofScientific digits false n
      | .negSucc n => Float.ofScientific digits true (n + 1)

/-- An exponent: an optional sign and at least one digit, to the end of the text. -/
def exponent? (cs : List Char) : Option Int :=
  let digits? (ds : List Char) : Option Nat :=
    if ds ≠ [] ∧ ds.all Char.isDigit then some (natOfDigits ds) else none
  match cs with
  | '-' :: ds => (digits? ds).map fun n => -(n : Int)
  | '+' :: ds => (digits? ds).map Int.ofNat
  | ds => (digits? ds).map Int.ofNat

/-- The double of a text without a sign. -/
def unsigned? (cs : List Char) : Option Float :=
  let whole := cs.takeWhile Char.isDigit
  let rest := cs.dropWhile Char.isDigit
  let (fraction, rest) := match rest with
    | '.' :: more => (more.takeWhile Char.isDigit, more.dropWhile Char.isDigit)
    | _ => ([], rest)
  if whole = [] ∧ fraction = [] then
    let word := String.ofList (cs.map Char.toLower)
    if word = "inf" ∨ word = "infinity" then some (1.0 / 0.0)
    else if word = "nan" then some (0.0 / 0.0)
    else none
  else
    let value (power : Int) : Float :=
      nearest (natOfDigits (whole ++ fraction)) (power - (fraction.length : Int))
    match rest with
    | [] => some (value 0)
    | c :: more => if c = 'e' ∨ c = 'E' then (exponent? more).map value else none

/-- The double a text denotes. -/
def float? (cs : List Char) : Option Float :=
  match cs with
  | '-' :: rest => (unsigned? rest).map fun x => -x
  | '+' :: rest => unsigned? rest
  | rest => unsigned? rest

end Reflow.Decimal
