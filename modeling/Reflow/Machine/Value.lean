import Reflow.Image.Primitive
/-!
# Values

A value fits a slot. Strings and arrays are kept in cells of the heap, and the value holds the
number of the cell; a function is an entry of the program's function pointer table.

## Main definitions

* `Value`: what a slot, an argument or the operand stack holds.
* `Value.kind`, `Value.pointer?`, `Value.number?`.
-/

namespace Reflow

/-- The text of a heap pointer. -/
def pointerText (pointer : Nat) : String := "@" ++ toString pointer

/-- A value in a global slot, among the arguments of a call or on the operand stack. -/
inductive Value
  | null
  | bool (value : Bool)
  | int (value : Int64)
  | double (value : Float)
  | string (pointer : Nat)
  | array (pointer : Nat)
  | function (pointer : Nat)
  deriving Inhabited

namespace Value

/-- The kind of a value. -/
def kind : Value → Primitive
  | null => .null
  | bool _ => .bool
  | int _ => .int
  | double _ => .double
  | string _ => .string
  | array _ => .array
  | function _ => .function

/-- The name of a value's kind. -/
def typeName (v : Value) : String := v.kind.name

/-- Whether a value is null. -/
def isNull : Value → Bool
  | null => true
  | _ => false

/-- The heap cell that a value points to. -/
def pointer? : Value → Option Nat
  | string p => some p
  | array p => some p
  | _ => none

/-- A number as a double. -/
def number? : Value → Option Float
  | int n => some (Float.ofInt n.toInt)
  | double x => some x
  | _ => none

end Value

end Reflow
