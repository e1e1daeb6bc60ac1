/-!
# Tables of a whole program

A variable that is read before anything assigns it is declared on the fly, and a call may come
before the definition of its function; both are put on record. A function used as a value goes
through the table of function pointers, whose entries never move.

## Main definitions

* `DynamicVariables`: variables declared on the fly.
* `DynamicFunctions`: calls that came before the definition.
* `FunctionPointers`: procedures used as values.
-/

namespace Reflow

/-- A variable declared on the fly. -/
structure DynamicVariable where
  name : String
  block : Nat
  slot : Nat
  deriving Repr, DecidableEq

/-- The variables declared on the fly, each name of a block once. -/
structure DynamicVariables where
  entries : List DynamicVariable := []
  deriving Repr, DecidableEq

namespace DynamicVariables

/-- Whether a name of a block is on record. -/
def contains (t : DynamicVariables) (name : String) (block : Nat) : Bool :=
  t.entries.any fun v => v.name == name && v.block == block

/-- Puts a variable on record, unless its name is already. -/
def record (t : DynamicVariables) (v : DynamicVariable) : DynamicVariables :=
  if t.contains v.name v.block then t else ⟨t.entries ++ [v]⟩

end DynamicVariables

/-- A call that was compiled before its function was defined. -/
structure DynamicFunction where
  name : String
  procedure : Nat
  /-- The number of arguments at the first such call. -/
  argc : Nat
  resolved : Bool := false
  deriving Repr, DecidableEq

/-- The functions called before their definition, each name once. -/
structure DynamicFunctions where
  entries : List DynamicFunction := []
  deriving Repr, DecidableEq

namespace DynamicFunctions

/-- Puts a call on record, unless its name is already. -/
def record (t : DynamicFunctions) (name : String) (procedure argc : Nat) : DynamicFunctions :=
  if t.entries.any (·.name == name) then t else ⟨t.entries ++ [⟨name, procedure, argc, false⟩]⟩

/-- Whether a name waits for its definition. -/
def awaits (t : DynamicFunctions) (name : String) : Bool :=
  t.entries.any fun f => f.name == name && !f.resolved

/-- Marks a name as defined. -/
def resolve (t : DynamicFunctions) (name : String) : DynamicFunctions :=
  ⟨t.entries.map fun f => if f.name = name then { f with resolved := true } else f⟩

/-- The functions that still wait for their definition. -/
def unresolved (t : DynamicFunctions) : List DynamicFunction :=
  t.entries.filter fun f => !f.resolved

end DynamicFunctions

/-- Procedures used as values, by block and index, each once. -/
structure FunctionPointers where
  targets : List (Nat × Nat) := []
  deriving Repr, DecidableEq

namespace FunctionPointers

/-- The pointer of a procedure, which gets one at its first use. -/
def pointerTo (t : FunctionPointers) (block procedure : Nat) : Nat × FunctionPointers :=
  match t.targets.findIdx? (· == (block, procedure)) with
  | some pointer => (pointer, t)
  | none => (t.targets.length, ⟨t.targets ++ [(block, procedure)]⟩)

/-- The procedure of a pointer. -/
def target? (t : FunctionPointers) (pointer : Nat) : Option (Nat × Nat) := t.targets[pointer]?

end FunctionPointers

end Reflow
