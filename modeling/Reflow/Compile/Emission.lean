import Reflow.Compile.State
import Reflow.Lang.Token
/-!
# Code of expressions

The code of an expression leaves its value on the stack. A name is looked up first among the
parameters of the enclosing function, then among the functions, and at last among the globals; a
global that is not declared yet is declared by its first use and reads as null until something
assigns it.

Jumps are absolute, so the code of an expression depends on the place `base` at which it starts.

## Main definitions

* `Scope`: the function that an expression belongs to.
* `Emission`: what emitting code has gathered.
* `emit`: the code of an expression at a place.
-/

namespace Reflow

/-- The function whose body is compiled; a top-level expression has neither. -/
structure Scope where
  params : List String := []
  defining : Option String := none

/-- The compile state under emission, and what the emitted code uses. -/
structure Emission where
  state : CompileState
  /-- The slots of the globals read, in ascending order. -/
  reads : List Nat := []
  /-- The procedures called or referred to, in ascending order. -/
  calls : List Nat := []
  warnings : List String := []

namespace Emission

/-- Notes that the code reads a global. -/
def read (m : Emission) (slot : Nat) : Emission := { m with reads := Ascending.insert slot m.reads }

/-- Notes that the code uses a procedure. -/
def use (m : Emission) (procedure : Nat) : Emission :=
  { m with calls := Ascending.insert procedure m.calls }

/-- One more warning. -/
def warn (m : Emission) (message : String) : Emission :=
  { m with warnings := m.warnings ++ [message] }

end Emission

/-- The code of a name. -/
def emitName (scope : Scope) (name : String) (m : Emission) : Instruction × Emission :=
  match scope.params.findIdx? (· == name) with
  | some i => (.loadLocal i, m)
  | none =>
    match m.state.root.procedures.indexOf? name with
    | some procedure =>
      let (pointer, pointers) := m.state.pointers.pointerTo 0 procedure
      (.pushFunction pointer, { m with state := { m.state with pointers } }.use procedure)
    | none =>
      match m.state.root.symbols.indexOf? name with
      | some slot => (.loadGlobal slot, m.read slot)
      | none =>
        let (slot, state) := m.state.declare name
        let dynamicVariables := state.dynamicVariables.record ⟨name, 0, slot⟩
        (.loadGlobal slot, { m with state := { state with dynamicVariables } }.read slot)

/-- How a call reaches its function. -/
inductive Callee
  /-- A procedure, by index. -/
  | direct (procedure : Nat)
  /-- A function value that an instruction pushes first. -/
  | value (load : Instruction)

/-- Looks up the name of a call with `argc` arguments. A name that is neither a parameter nor a
function nor a global is reserved as a function. -/
def resolveCallee (scope : Scope) (name : String) (argc : Nat) (m : Emission) :
    Callee × Emission :=
  match scope.params.findIdx? (· == name) with
  | some i => (.value (.loadLocal i), m)
  | none =>
    match m.state.root.procedures.indexOf? name, m.state.root.symbols.indexOf? name with
    | none, some slot => (.value (.loadGlobal slot), m.read slot)
    | _, _ =>
      let (procedure, state) := m.state.reserve name
      let m := { m with state }
      match (state.root.procedures.at? procedure).filter (·.isActive) with
      | some p =>
        if p.arity = argc then (.direct procedure, m)
        else (.direct procedure, m.warn ("function " ++ ticked name ++ " expects "
          ++ toString p.arity ++ " argument(s), got " ++ toString argc))
      | none =>
        if scope.defining = some name then (.direct procedure, m)
        else
          let dynamicFunctions := state.dynamicFunctions.record name procedure argc
          (.direct procedure, { m with state := { state with dynamicFunctions } }.warn
            ("function " ++ ticked name ++ " is not defined yet"))

mutual

/-- The code of an expression that starts at the place `base`. -/
def emit (scope : Scope) (base : Nat) : Expr → Emission → List Instruction × Emission
  | .null, m => ([.pushNull], m)
  | .bool b, m => ([.pushBool b], m)
  | .int n, m => ([.pushInt n], m)
  | .double x, m => ([.pushDouble x], m)
  | .str s, m => ([.pushString s], m)
  | .name n, m =>
    let (i, m) := emitName scope n m
    ([i], m)
  | .array items, m =>
    let (code, m) := emitAll scope base items m
    (code ++ [.makeArray items.length], m)
  | .index target i, m =>
    let (code, m) := emit scope base target m
    let (more, m) := emit scope (base + code.length) i m
    (code ++ more ++ [.index], m)
  | .call callee args, m =>
    match resolveCallee scope callee args.length m with
    | (.direct procedure, m) =>
      let (code, m) := emitAll scope base args m
      (code ++ [.call procedure args.length], m.use procedure)
    | (.value load, m) =>
      let (code, m) := emitAll scope (base + 1) args m
      (load :: (code ++ [.callPointer args.length]), m)
  | .unary op operand, m =>
    let (code, m) := emit scope base operand m
    (code ++ [.unary op], m)
  | .binary op lhs rhs, m =>
    let (code, m) := emit scope base lhs m
    let (more, m) := emit scope (base + code.length) rhs m
    (code ++ more ++ [.binary op], m)
  | .cond test yes no, m =>
    let (testCode, m) := emit scope base test m
    let yesBase := base + testCode.length + 1
    let (yesCode, m) := emit scope yesBase yes m
    let noBase := yesBase + yesCode.length + 1
    let (noCode, m) := emit scope noBase no m
    (testCode ++ .jumpIfFalse noBase :: yesCode ++ .jump (noBase + noCode.length) :: noCode, m)

/-- The code of some expressions one after the other. -/
def emitAll (scope : Scope) (base : Nat) : List Expr → Emission → List Instruction × Emission
  | [], m => ([], m)
  | e :: es, m =>
    let (code, m) := emit scope base e m
    let (more, m) := emitAll scope (base + code.length) es m
    (code ++ more, m)

end

end Reflow
