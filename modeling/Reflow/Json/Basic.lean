import Reflow.Decimal.Style
/-!
# JSON values

Numbers keep whether they were written as an integer that fits a machine word; all others are
doubles. Fields stay in the order of the text, repeated names included. A value that is well formed
but cannot be held (a number or a character code out of range, or nesting beyond the limit) is
*unreadable*: it may stand where a value is passed over, and nowhere else.

## Main definitions

* `Json`: JSON values.
* `Json.write`, `Json.writeIndented`: the text of a value, compact or over several lines.
* `Json.sorted`: the value with the fields of every object in the order of their names.
-/

namespace Reflow

/-- A JSON value. -/
inductive Json
  | null
  | bool (value : Bool)
  /-- A whole number written without point and exponent. -/
  | int (value : Int)
  | double (value : Float)
  | str (value : String)
  | arr (items : List Json)
  | obj (fields : List (String × Json))
  /-- Well formed, but not to be held. -/
  | unreadable
  deriving Inhabited

namespace Json

/-- A natural number as a value. -/
def nat (n : Nat) : Json := .int n

/-- A list of texts as a value. -/
def strs (items : List String) : Json := .arr (items.map .str)

/-- An optional part as a value; a missing one is null. -/
def option {α : Type} (encode : α → Json) : Option α → Json
  | none => .null
  | some a => encode a

/-- One of the sixteen hexadecimal digits in lower case. -/
def hexDigit (n : Nat) : Char := (Nat.toDigits 16 (n % 16)).headD '0'

/-- One character inside a JSON string. -/
def escapeChar (c : Char) : List Char :=
  match c with
  | '\x22' => ['\\', '\x22']
  | '\\' => ['\\', '\\']
  | '\x08' => ['\\', 'b']
  | '\x0c' => ['\\', 'f']
  | '\n' => ['\\', 'n']
  | '\r' => ['\\', 'r']
  | '\t' => ['\\', 't']
  | other =>
    if other.toNat < 32 then
      ['\\', 'u', '0', '0', hexDigit (other.toNat / 16), hexDigit other.toNat]
    else [other]

/-- A JSON string. -/
def quoted (s : String) : String :=
  String.ofList ('\x22' :: (s.toList.flatMap escapeChar ++ ['\x22']))

/-- The written form of doubles in JSON: plain between `0.00001` and `1e16`, with a digit after the
point even for a whole number, and a sign on every exponent. -/
def doubleStyle : Decimal.Style := ⟨some (-5, 15), true, true, .even⟩

/-- A double in JSON, which has no NaN and no infinities. -/
def writeDouble (x : Float) : String :=
  if x.isNaN || x.isInf then "null" else doubleStyle.write x

/-- The texts of a list with commas between them. -/
def commaSeparated : List String → String
  | [] => ""
  | [s] => s
  | s :: rest => s ++ "," ++ commaSeparated rest

mutual

/-- The text of a value without blanks. -/
def write : Json → String
  | null => "null"
  | bool true => "true"
  | bool false => "false"
  | int value => toString value
  | double value => writeDouble value
  | str value => quoted value
  | arr items => "[" ++ commaSeparated (writeItems items) ++ "]"
  | obj fields => "\x7b" ++ commaSeparated (writeFields fields) ++ "\x7d"
  | unreadable => "null"

/-- The texts of the items of an array. -/
def writeItems : List Json → List String
  | [] => []
  | j :: js => write j :: writeItems js

/-- The texts of the fields of an object. -/
def writeFields : List (String × Json) → List String
  | [] => []
  | (name, j) :: rest => (quoted name ++ ":" ++ write j) :: writeFields rest

end

/-- A line break and two blanks for each level of nesting. -/
def lineBreak (level : Nat) : String := "\n" ++ String.ofList (List.replicate (2 * level) ' ')

/-- Parts on lines of their own between two brackets; no parts give the bare brackets. -/
def block (opening closing : String) (level : Nat) : List String → String
  | [] => opening ++ closing
  | parts =>
    opening ++ commaSeparated (parts.map (lineBreak (level + 1) ++ ·)) ++ lineBreak level ++ closing

mutual

/-- The text of a value at a level of nesting, each item and field on a line of its own. -/
def writeIndented (level : Nat) : Json → String
  | arr items => block "[" "]" level (indentedItems (level + 1) items)
  | obj fields => block "\x7b" "\x7d" level (indentedFields (level + 1) fields)
  | null => "null"
  | bool b => write (bool b)
  | int n => write (int n)
  | double x => write (double x)
  | str s => write (str s)
  | unreadable => "null"

/-- The items of an array at a level of nesting. -/
def indentedItems (level : Nat) : List Json → List String
  | [] => []
  | j :: js => writeIndented level j :: indentedItems level js

/-- The fields of an object at a level of nesting. -/
def indentedFields (level : Nat) : List (String × Json) → List String
  | [] => []
  | (name, j) :: rest =>
    (quoted name ++ ": " ++ writeIndented level j) :: indentedFields level rest

end

/-- Puts a field in its place among fields sorted by name; it replaces one of the same name. -/
def insertField (name : String) (j : Json) : List (String × Json) → List (String × Json)
  | [] => [(name, j)]
  | (n, k) :: rest =>
    if name < n then (name, j) :: (n, k) :: rest
    else if name = n then (name, j) :: rest
    else (n, k) :: insertField name j rest

mutual

/-- The value with the fields of every object sorted by name, of several fields of one name the
last. -/
def sorted : Json → Json
  | arr items => arr (sortedItems items)
  | obj fields => obj (sortedFields fields [])
  | null => null
  | bool b => bool b
  | int n => int n
  | double x => double x
  | str s => str s
  | unreadable => unreadable

/-- The items of an array, each sorted. -/
def sortedItems : List Json → List Json
  | [] => []
  | j :: js => sorted j :: sortedItems js

/-- The fields of an object, each sorted, put in their places one after the other. -/
def sortedFields : List (String × Json) → List (String × Json) → List (String × Json)
  | [], done => done
  | (name, j) :: rest, done => sortedFields rest (insertField name (sorted j) done)

end

mutual

/-- Whether a value holds nothing unreadable. -/
def readable : Json → Bool
  | arr items => allReadable items
  | obj fields => allFieldsReadable fields
  | unreadable => false
  | null => true
  | bool _ => true
  | int _ => true
  | double _ => true
  | str _ => true

/-- Whether all items of an array are readable. -/
def allReadable : List Json → Bool
  | [] => true
  | j :: js => readable j && allReadable js

/-- Whether all fields of an object are readable. -/
def allFieldsReadable : List (String × Json) → Bool
  | [] => true
  | (_, j) :: rest => readable j && allFieldsReadable rest

end

end Json

end Reflow
