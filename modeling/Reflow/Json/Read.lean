import Reflow.Decimal.Read
import Reflow.Decimal.Whole
import Reflow.Json.Basic
/-!
# Reading JSON

The reader takes exactly the JSON grammar, with blanks between all parts and nothing after the
value. Whole numbers that fit 64 bits are read exactly. All other numbers go through a significand
of 64 bits and one multiplication or division by a power of ten; digits that no longer fit are
dropped. Containers may be nested up to a limit before they become unreadable.

## Main definitions

* `Json.Reading`: what may differ from one kind of text to another.
* `Json.readWith?`, `Json.read?`: the value of a JSON text.
-/

namespace Reflow.Json

/-- The usual limit of nesting. -/
def depthLimit : Nat := 128

/-- What may differ from one kind of text to another. -/
structure Reading where
  /-- Containers nested this deep can be passed over, but not held. -/
  limit : Nat := depthLimit
  /-- Names of fields that are taken as they are spelled, with their escapes. -/
  verbatim : String → Bool := fun _ => false

/-- Blanks of JSON. -/
def isSpace (c : Char) : Bool := c == ' ' || c == '\n' || c == '\t' || c == '\r'

/-- A text from its first character on that is no blank. -/
def skipSpace (cs : List Char) : List Char := cs.dropWhile isSpace

/-- The value of a hexadecimal digit in either letter case. -/
def hexValue? (c : Char) : Option Nat :=
  if c.isDigit then some (c.toNat - '0'.toNat)
  else if 'a' ≤ c ∧ c ≤ 'f' then some (c.toNat - 'a'.toNat + 10)
  else if 'A' ≤ c ∧ c ≤ 'F' then some (c.toNat - 'A'.toNat + 10)
  else none

/-- The number that four hexadecimal digits denote. -/
def hex4? (a b c d : Char) : Option Nat := do
  return (← hexValue? a) * 4096 + (← hexValue? b) * 256 + (← hexValue? c) * 16 + (← hexValue? d)

/-- A piece of a string: a character, or half of a character outside the basic plane. -/
inductive Piece
  | char (c : Char)
  | half (code : Nat)

/-- The character that a one-letter escape stands for. -/
def escaped? (c : Char) : Option Char :=
  match c with
  | '\x22' => some '\x22'
  | '\\' => some '\\'
  | '/' => some '/'
  | 'b' => some '\x08'
  | 'f' => some '\x0c'
  | 'n' => some '\n'
  | 'r' => some '\r'
  | 't' => some '\t'
  | _ => none

/-- The piece that a code given by four hexadecimal digits stands for. -/
def Piece.ofCode (n : Nat) : Piece :=
  if 0xd800 ≤ n ∧ n ≤ 0xdfff then .half n else .char (Char.ofNat n)

/-- The pieces of a string after its opening quote, and the text after its closing quote. -/
def stringPieces? : List Char → Option (List Piece × List Char)
  | [] => none
  | '\x22' :: rest => some ([], rest)
  | '\\' :: 'u' :: a :: b :: c :: d :: rest => do
    let n ← hex4? a b c d
    let (pieces, rest) ← stringPieces? rest
    return (.ofCode n :: pieces, rest)
  | '\\' :: c :: rest => do
    let c ← escaped? c
    let (pieces, rest) ← stringPieces? rest
    return (.char c :: pieces, rest)
  | c :: rest =>
    if c.toNat < 32 ∨ c = '\\' then none
    else do
      let (pieces, rest) ← stringPieces? rest
      return (.char c :: pieces, rest)

/-- The characters of a string. The two halves of a character stand next to each other, the high
one first; a half that stands alone is no text. -/
def joinPieces? : List Piece → Option (List Char)
  | [] => some []
  | .char c :: rest => (joinPieces? rest).map (c :: ·)
  | .half high :: .half low :: rest =>
    if high < 0xdc00 ∧ 0xdc00 ≤ low then
      (joinPieces? rest).map
        (Char.ofNat (0x10000 + (high - 0xd800) * 0x400 + (low - 0xdc00)) :: ·)
    else none
  | .half _ :: _ => none

/-- A string after its opening quote: its text, if it is one, and the text after it. -/
def string? (cs : List Char) : Option (Option String × List Char) := do
  let (pieces, rest) ← stringPieces? cs
  return ((joinPieces? pieces).map String.ofList, rest)

/-- `10 ^ n` as a double, for the powers that are doubles' own range. -/
def powerOfTen (n : Nat) : Float := Float.ofScientific 1 false n

/-- `significand * 10 ^ exponent` in steps of one rounding each; `none` beyond the range. -/
def scale? (significand : Nat) (exponent : Int) : Option Float :=
  let x := Float.ofNat significand
  if 308 < exponent then (if significand = 0 then some x else none)
  else if 0 ≤ exponent then
    let y := x * powerOfTen exponent.toNat
    if y.isInf then none else some y
  else go 1200 x exponent
where
  go : Nat → Float → Int → Option Float
    | 0, x, _ => some x
    | fuel + 1, x, e =>
      if -308 ≤ e then some (x / powerOfTen (-e).toNat)
      else if x == 0 then some x
      else go fuel (x / powerOfTen 308) (e + 308)

/-- The digits that fit a significand of 64 bits, and how many of the others there are. -/
def significand (start : Nat) : List Char → Nat × Nat
  | [] => (start, 0)
  | c :: cs =>
    let next := 10 * start + (c.toNat - '0'.toNat)
    if next < UInt64.size then significand next cs else (start, (c :: cs).length)

/-- The digits of an exponent with its sign, and the text after them. -/
def exponent? (cs : List Char) : Option (Int × List Char) :=
  let (negative, cs) := match cs with
    | '-' :: rest => (true, rest)
    | '+' :: rest => (false, rest)
    | rest => (false, rest)
  let digits := cs.takeWhile Char.isDigit
  if digits = [] then none
  else
    let n := Decimal.natOfDigits digits
    some (if negative then -(n : Int) else n, cs.dropWhile Char.isDigit)

/-- The value of a number that is not a whole number of 64 bits: its digits before and after the
point, and its exponent. -/
def double? (negative : Bool) (whole fraction : List Char) (exponent : Int) : Json :=
  let (s, dropped) := significand 0 whole
  -- after digits before the point were dropped, a digit after it may fit again
  let (t, lost) := significand s fraction
  let places : Int := (dropped : Int) - ((fraction.length - lost : Nat) : Int)
  let value : Option Float :=
    if exponent.natAbs ≤ 2147483647 then scale? t (places + exponent)
    else if t ≠ 0 ∧ 0 < exponent then none
    else some 0.0
  match value with
  | none => .unreadable
  | some x => .double (if negative then -x else x)

/-- A number, and the text after it. -/
def number? (cs : List Char) : Option (Json × List Char) := do
  let (negative, cs) := match cs with
    | '-' :: rest => (true, rest)
    | rest => (false, rest)
  let whole := cs.takeWhile Char.isDigit
  let rest := cs.dropWhile Char.isDigit
  if whole = [] ∨ (whole.head? = some '0' ∧ 1 < whole.length) then none
  else
    let (fraction?, rest) ← match rest with
      | '.' :: more =>
        if more.takeWhile Char.isDigit = [] then none
        else some (some (more.takeWhile Char.isDigit), more.dropWhile Char.isDigit)
      | _ => some (none, rest)
    let (exponent?, rest) ← match rest with
      | c :: more =>
        if c = 'e' ∨ c = 'E' then (exponent? more).map fun (e, rest) => (some e, rest)
        else some (none, rest)
      | [] => some (none, rest)
    let n := Decimal.natOfDigits whole
    match fraction?, exponent? with
    | none, none =>
      if negative then
        if n ≠ 0 ∧ (fit? (-n)).isSome then return (.int (-n), rest)
        else return (double? true whole [] 0, rest)
      else if n < UInt64.size then return (.int n, rest)
      else return (double? false whole [] 0, rest)
    | fraction?, exponent? =>
      return (double? negative whole (fraction?.getD []) (exponent?.getD 0), rest)

/-- A fixed word at the front of a text, and the text after it. -/
def word? (word : String) (j : Json) (cs : List Char) : Option (Json × List Char) :=
  if word.toList.isPrefixOf cs then some (j, cs.drop word.length) else none

/-- A container at a depth of nesting: unreadable from the limit on. -/
def Reading.atDepth (r : Reading) (depth : Nat) (j : Json) : Json :=
  if r.limit ≤ depth then .unreadable else j

/-- A name as a field has it, where `cs` is the text after its opening quote and `rest` the text
after its closing quote. -/
def Reading.fieldName (r : Reading) (cs rest : List Char) (name : String) : String :=
  if r.verbatim name then String.ofList (cs.take (cs.length - rest.length - 1)) else name

mutual

/-- A value inside `depth` containers, and the text after it. -/
def value? (r : Reading) : Nat → Nat → List Char → Option (Json × List Char)
  | 0, _, _ => none
  | fuel + 1, depth, cs =>
    match skipSpace cs with
    | [] => none
    | '\x22' :: rest => do
      let (s, rest) ← string? rest
      return (match s with | some s => .str s | none => .unreadable, rest)
    | '[' :: rest => do
      let (items, rest) ←
        match skipSpace rest with
        | ']' :: rest => some ([], rest)
        | rest => items? r fuel (depth + 1) rest
      return (r.atDepth (depth + 1) (.arr items), rest)
    | '\x7b' :: rest => do
      let (fields, rest) ←
        match skipSpace rest with
        | '\x7d' :: rest => some (some [], rest)
        | rest => fields? r fuel (depth + 1) rest
      let j := match fields with | some fs => .obj fs | none => .unreadable
      return (r.atDepth (depth + 1) j, rest)
    | 't' :: rest => word? "true" (.bool true) ('t' :: rest)
    | 'f' :: rest => word? "false" (.bool false) ('f' :: rest)
    | 'n' :: rest => word? "null" .null ('n' :: rest)
    | rest => number? rest

/-- The items of an array up to and with its closing bracket. -/
def items? (r : Reading) : Nat → Nat → List Char → Option (List Json × List Char)
  | 0, _, _ => none
  | fuel + 1, depth, cs => do
    let (item, rest) ← value? r fuel depth cs
    match skipSpace rest with
    | ',' :: rest =>
      let (items, rest) ← items? r fuel depth rest
      return (item :: items, rest)
    | ']' :: rest => return ([item], rest)
    | _ => none

/-- The fields of an object up to and with its closing brace; no list if a name is no text. -/
def fields? (r : Reading) :
    Nat → Nat → List Char → Option (Option (List (String × Json)) × List Char)
  | 0, _, _ => none
  | fuel + 1, depth, cs =>
    match skipSpace cs with
    | '\x22' :: cs => do
      let (name, rest) ← string? cs
      let name := name.map (r.fieldName cs rest)
      match skipSpace rest with
      | ':' :: rest =>
        let (item, rest) ← value? r fuel depth rest
        match skipSpace rest with
        | ',' :: rest =>
          let (more, rest) ← fields? r fuel depth rest
          return (name.bind fun n => more.map ((n, item) :: ·), rest)
        | '\x7d' :: rest => return (name.map fun n => [(n, item)], rest)
        | _ => none
      | _ => none
    | _ => none

end

/-- The value of a JSON text. -/
def readWith? (r : Reading) (text : String) : Option Json := do
  let cs := text.toList
  let (j, rest) ← value? r (2 * cs.length + 2) 0 cs
  if (skipSpace rest).isEmpty then return j else none

/-- The value of a JSON text of no special kind. -/
def read? (text : String) : Option Json := readWith? {} text

end Reflow.Json
