/-!
# Kinds of values

The built-in kinds of values are registered as the first classes, in a fixed order.

## Main definitions

* `Primitive`: the kinds of values, with names and class numbers.
* `ClassEntry`, `classes`: the registered classes.
-/

namespace Reflow

/-- A built-in kind of values. -/
inductive Primitive
  | null | bool | int | double | string | array | function
  deriving Repr, DecidableEq

namespace Primitive

/-- All kinds in the order of their class numbers. -/
def all : List Primitive := [null, bool, int, double, string, array, function]

/-- The name of a kind. -/
def name : Primitive → String
  | null => "null"
  | bool => "bool"
  | int => "int"
  | double => "double"
  | string => "string"
  | array => "array"
  | function => "function"

/-- The class number of a kind. -/
def classIndex : Primitive → Nat
  | null => 0
  | bool => 1
  | int => 2
  | double => 3
  | string => 4
  | array => 5
  | function => 6

theorem all_classIndex (p : Primitive) : all[p.classIndex]? = some p := by cases p <;> rfl

end Primitive

/-- A registered class. -/
structure ClassEntry where
  name : String
  index : Nat
  primitive : Primitive
  deriving Repr, DecidableEq

/-- The registered classes: one for each kind of values. -/
def classes : List ClassEntry := Primitive.all.map fun p => ⟨p.name, p.classIndex, p⟩

end Reflow
