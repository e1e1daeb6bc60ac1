import Reflow.Decimal.Whole
import Reflow.Json.Basic
/-!
# Decoding JSON values

A decoder turns a value into a part of the domain or fails. A record may be written as an object,
whose fields stand in any order and may be accompanied by others, or as an array of the fields in
their order; a field given twice is a failure. A choice between named alternatives is an object with
one field, or just the name where the alternative carries nothing.

## Main definitions

* `Json.text?`, `Json.list?` and their like: decoders of the basic kinds.
* `Json.Record`: the fields of a record, with `required?`, `optional?` and `orDefault?` reading one.
* `Json.Choice`: an alternative with what it carries.
-/

namespace Reflow.Json

/-- A string. -/
def text? : Json → Option String
  | str s => some s
  | _ => none

/-- A truth value. -/
def bool? : Json → Option Bool
  | bool b => some b
  | _ => none

/-- A whole number from zero to below `bound`. -/
def natBelow? (bound : Nat) : Json → Option Nat
  | int n => if 0 ≤ n ∧ n < bound then some n.toNat else none
  | _ => none

/-- A count or an index: a whole number of 64 bits. -/
def nat? : Json → Option Nat := natBelow? UInt64.size

/-- A whole number of the language. -/
def int64? : Json → Option Int64
  | int n => fit? n
  | _ => none

/-- A number, whole or not. -/
def float? : Json → Option Float
  | int n => some (Float.ofInt n)
  | double x => some x
  | _ => none

/-- An array, item by item. -/
def list? {α : Type} (decode : Json → Option α) : Json → Option (List α)
  | arr items => items.mapM decode
  | _ => none

/-- A part that may be null. -/
def nullable? {α : Type} (decode : Json → Option α) : Json → Option (Option α)
  | null => some none
  | j => (decode j).map some

/-- The fields of a record: the value of each, if it was given. -/
structure Record where
  /-- The record was written as an array. -/
  positional : Bool
  fields : List (String × Json)

/-- The fields of an object that have one of the given names; each may occur once. -/
def known? (names : List String) : List (String × Json) → Option (List (String × Json))
  | [] => some []
  | (name, j) :: rest => do
    let more ← known? names rest
    if name ∈ names then
      if more.any (·.1 == name) then none else return (name, j) :: more
    else return more

/-- A record whose fields, in order, have the given names. -/
def record? (names : List String) : Json → Option Record
  | obj fields => (known? names fields).map (⟨false, ·⟩)
  | arr items => if items.length ≤ names.length then some ⟨true, names.zip items⟩ else none
  | _ => none

namespace Record

/-- The value of a field, if it was given. -/
def get? (r : Record) (name : String) : Option Json := r.fields.lookup name

/-- A field that has to be given. -/
def required? {α : Type} (r : Record) (name : String) (decode : Json → Option α) : Option α :=
  (r.get? name).bind decode

/-- A field that may be null, and that may be left out of an object. -/
def optional? {α : Type} (r : Record) (name : String) (decode : Json → Option α) :
    Option (Option α) :=
  match r.get? name with
  | some j => nullable? decode j
  | none => if r.positional then none else some none

/-- A field with a default for when it is left out. -/
def orDefault? {α : Type} (r : Record) (name : String) (decode : Json → Option α) (default : α) :
    Option α :=
  match r.get? name with
  | some j => decode j
  | none => some default

end Record

/-- One of several named alternatives, with what it carries. -/
structure Choice where
  name : String
  /-- Missing if the alternative was given by its bare name. -/
  content : Option Json

/-- An alternative: its bare name, or an object with its name as the only field. -/
def choice? : Json → Option Choice
  | str name => some ⟨name, none⟩
  | obj [(name, j)] => some ⟨name, some j⟩
  | _ => none

namespace Choice

/-- An alternative that carries nothing; null may stand for nothing. -/
def bare? {α : Type} (c : Choice) (a : α) : Option α :=
  match c.content with
  | none => some a
  | some .null => some a
  | some _ => none

/-- An alternative with one part. -/
def carrying? {α : Type} (c : Choice) (decode : Json → Option α) : Option α :=
  c.content.bind decode

end Choice

end Reflow.Json
