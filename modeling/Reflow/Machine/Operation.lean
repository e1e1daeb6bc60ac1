import Reflow.Decimal.Remainder
import Reflow.Decimal.Whole
import Reflow.Lang.Token
import Reflow.Machine.Snapshot
/-!
# Operations on values

No operation fails: where an operator is not defined for its operands, the result is null and a
warning is left. Whole numbers are those of 64 bits, and a result outside them counts as undefined.
Whole numbers and doubles compare as numbers, strings by their characters, and adding anything to a
string joins the texts.

## Main definitions

* `Memory.truthy`: whether a value counts as true.
* `Outcome`: the result of an operation, with the memory after it and at most one warning.
* `applyIndex`, `applyUnary`, `applyBinary`: the operations.
-/

namespace Reflow

/-- Whether a value counts as true. -/
def Memory.truthy (m : Memory) : Value → Bool
  | .null => false
  | .bool b => b
  | .int n => n != 0
  | .double x => x != 0
  | .string p => (m.heap.string? p).any fun s => !s.isEmpty
  | .array p => (m.heap.array? p).any fun items => !items.isEmpty
  | .function _ => true

/-- The result of an operation with the memory after it, and a warning if it was not defined. -/
structure Outcome where
  value : Value
  memory : Memory
  warning : Option String := none

namespace Outcome

/-- An undefined operation. -/
def undefined (m : Memory) (warning : String) : Outcome := ⟨.null, m, some warning⟩

/-- A new string. -/
def string (m : Memory) (s : String) : Outcome :=
  let (value, memory) := m.allocString s
  { value := value, memory := memory }

end Outcome

/-- The place that a position stands for in a list of `size` items; negative positions count from
the end. -/
def resolveIndex? (position : Int64) (size : Nat) : Option Nat :=
  let i := position.toInt
  let resolved := if i < 0 then size + i else i
  if 0 ≤ resolved ∧ resolved < size then some resolved.toNat else none

/-- The element of an array or the character of a string at a position. -/
def applyIndex (m : Memory) (target index : Value) : Outcome :=
  match index with
  | .int position =>
    let outOfRange (what : String) (size : Nat) : Outcome :=
      .undefined m ("index " ++ toString position.toInt ++ " out of range for " ++ what
        ++ " of length " ++ toString size)
    match target with
    | .array p =>
      let items := (m.heap.array? p).getD []
      match (resolveIndex? position items.length).bind (items[·]?) with
      | some v => { value := v, memory := m }
      | none => outOfRange "array" items.length
    | .string p =>
      let chars := ((m.heap.string? p).getD "").toList
      match (resolveIndex? position chars.length).bind (chars[·]?) with
      | some c => .string m (String.ofList [c])
      | none => outOfRange "string" chars.length
    | other => .undefined m ("cannot index a value of type " ++ other.typeName)
  | other => .undefined m ("index must be an int, got " ++ other.typeName)

/-- The value of a prefix operator. -/
def applyUnary (m : Memory) (op : UnaryOp) (operand : Value) : Outcome :=
  match op, operand with
  | .not, v => { value := .bool (!m.truthy v), memory := m }
  | .neg, .int n =>
    match fit? (-n.toInt) with
    | some k => { value := .int k, memory := m }
    | none => .undefined m ("integer overflow negating " ++ toString n.toInt)
  | .neg, .double x => { value := .double (-x), memory := m }
  | .neg, other => .undefined m ("cannot negate a value of type " ++ other.typeName)

/-- An arithmetic operator on whole numbers; division truncates, and a remainder is defined where
the quotient is. -/
def intResult? (op : BinaryOp) (a b : Int) : Option Int64 :=
  match op with
  | .add => fit? (a + b)
  | .sub => fit? (a - b)
  | .mul => fit? (a * b)
  | .div => if b = 0 then none else fit? (a.tdiv b)
  | .mod => if b = 0 then none else (fit? (a.tdiv b)).bind fun _ => fit? (a.tmod b)
  | _ => none

/-- An arithmetic operator on doubles. -/
def doubleResult (op : BinaryOp) (x y : Float) : Float :=
  match op with
  | .add => x + y
  | .sub => x - y
  | .mul => x * y
  | .div => x / y
  | _ => Decimal.remainder x y

/-- An operator on operands that it is not defined for. -/
def mismatch (m : Memory) (op : BinaryOp) (lhs rhs : Value) : Outcome :=
  .undefined m ("operator " ++ ticked op.symbol ++ " not defined for " ++ lhs.typeName ++ " and "
    ++ rhs.typeName)

/-- The value of an arithmetic operator. -/
def arithmetic (m : Memory) (op : BinaryOp) (lhs rhs : Value) : Outcome :=
  match lhs, rhs with
  | .int a, .int b =>
    match intResult? op a.toInt b.toInt with
    | some n => { value := .int n, memory := m }
    | none =>
      let reason := if b = 0 then "division by zero" else "integer overflow"
      .undefined m (reason ++ " in " ++ toString a.toInt ++ " " ++ op.symbol ++ " "
        ++ toString b.toInt)
  | _, _ =>
    match lhs.number?, rhs.number? with
    | some x, some y => { value := .double (doubleResult op x y), memory := m }
    | _, _ => mismatch m op lhs rhs

/-- The order of two texts by their characters; a missing text comes before all others. -/
def orderTexts : Option String → Option String → Ordering
  | none, none => .eq
  | none, some _ => .lt
  | some _, none => .gt
  | some a, some b => if a < b then .lt else if a = b then .eq else .gt

/-- The order of two doubles; a NaN has none. -/
def orderDoubles? (x y : Float) : Option Ordering :=
  if x < y then some .lt else if x == y then some .eq else if y < x then some .gt else none

/-- Whether a comparison holds of two values in the given order. -/
def holds (op : BinaryOp) (order : Ordering) : Bool :=
  match op with
  | .lt => order = .lt
  | .le => order ≠ .gt
  | .gt => order = .gt
  | _ => order ≠ .lt

/-- The value of a comparison. Nothing holds of values without an order. -/
def comparison (m : Memory) (op : BinaryOp) (lhs rhs : Value) : Outcome :=
  let result (order : Option Ordering) : Outcome :=
    { value := .bool (order.any (holds op)), memory := m }
  match lhs, rhs with
  | .int a, .int b => result (some (compare a.toInt b.toInt))
  | .string a, .string b => result (some (orderTexts (m.heap.string? a) (m.heap.string? b)))
  | _, _ =>
    match lhs.number?, rhs.number? with
    | some x, some y => result (orderDoubles? x y)
    | _, _ => mismatch m op lhs rhs

/-- Equality as the language has it: a whole number and a double are compared as numbers, all else
deeply. -/
def looselyEqual (m : Memory) (lhs rhs : Value) : Bool :=
  match lhs, rhs with
  | .int a, .double y => Float.ofInt a.toInt == y
  | .double x, .int b => x == Float.ofInt b.toInt
  | _, _ => m.heap.same lhs rhs

/-- The text that a value adds to a string. -/
def joinText (m : Memory) (x : Executable) : Value → String
  | .string p => (m.heap.string? p).getD ""
  | v => (m.snapshot x v).text

/-- Whether a value is a string. -/
def Value.isString : Value → Bool
  | string _ => true
  | _ => false

/-- The value of an infix operator. -/
def applyBinary (m : Memory) (x : Executable) (op : BinaryOp) (lhs rhs : Value) : Outcome :=
  let truth (b : Bool) : Outcome := { value := .bool b, memory := m }
  match op with
  | .and => truth (m.truthy lhs && m.truthy rhs)
  | .or => truth (m.truthy lhs || m.truthy rhs)
  | .eq => truth (looselyEqual m lhs rhs)
  | .ne => truth (!looselyEqual m lhs rhs)
  | .lt | .le | .gt | .ge => comparison m op lhs rhs
  | .add =>
    if lhs.isString || rhs.isString then .string m (joinText m x lhs ++ joinText m x rhs)
    else arithmetic m op lhs rhs
  | .sub | .mul | .div | .mod => arithmetic m op lhs rhs

end Reflow
