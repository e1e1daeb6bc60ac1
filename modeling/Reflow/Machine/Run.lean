import Reflow.Machine.Operation
/-!
# Running code

A frame runs a range of one block's code with its own operand stack, until it reaches the end of the
range or returns. Calls open further frames, and only so many may be nested: frames are built from
the innermost one outward, so that the depth that is left decides how a call is answered.

Compiled code only jumps forward, so the length of its range bounds the steps of a frame. Other code
may jump backward `loopAllowance` times before its frame is given up.

## Main definitions

* `Machine`: what a run changes, with `Run` as the type of steps that may fault.
* `step`: one instruction.
* `runFrame`: one frame, given the answer to calls.
* `runRange`: a range of code with a limit on nested calls.
-/

namespace Reflow

/-- What a run changes: memory, the globals changed in order, and the warnings in order. -/
structure Machine where
  memory : Memory
  changed : List Nat := []
  warnings : List String := []

/-- A step of a run. A fault leaves the machine as it was when the fault arose. -/
abbrev Run (α : Type) := EStateM Fault Machine α

/-- Leaves a warning. -/
def warn (message : String) : Run Unit :=
  modify fun s => { s with warnings := s.warnings ++ [message] }

/-- Takes over the result of an operation. -/
def Outcome.apply (o : Outcome) : Run Value := do
  modify fun s => { s with memory := o.memory }
  match o.warning with
  | some message => warn message
  | none => pure ()
  return o.value

/-- A range of a block's code with the arguments of the call that runs it. -/
structure Range where
  block : Nat
  start : Nat
  stop : Nat
  locals : List Value := []

/-- How a frame goes on after an instruction. -/
inductive Flow
  /-- With the instruction at a place, on a stack whose top is the head of the list. -/
  | goto (pc : Nat) (stack : List Value)
  /-- Not at all; the value is the frame's result. -/
  | leave (v : Value)

/-- Calls a procedure; `enter` answers calls that are in order. -/
def callProcedure (x : Executable) (enter : Range → Run Value) (block index : Nat)
    (args : List Value) : Run Value :=
  match x.procedureOf? block index with
  | none => do
    warn ("call to unknown procedure #" ++ toString index)
    return .null
  | some p =>
    match if p.isActive then p.body else none with
    | none => do
      warn ("function " ++ ticked p.name ++ " is not defined")
      return .null
    | some body =>
      if p.arity = args.length then enter ⟨body, p.start, p.stop, args⟩
      else do
        warn ("function " ++ ticked p.name ++ " expects " ++ toString p.arity
          ++ " argument(s), got " ++ toString args.length)
        return .null

/-- Calls a function value. -/
def callValue (x : Executable) (enter : Range → Run Value) (callee : Value)
    (args : List Value) : Run Value :=
  match callee with
  | .function pointer =>
    match x.pointers.target? pointer with
    | some (block, index) => callProcedure x enter block index args
    | none => do
      warn ("dangling function pointer #" ++ toString pointer)
      return .null
  | other => do
    warn ("value of type " ++ other.typeName ++ " is not callable")
    return .null

/-- One instruction, which stands at the place `pc` of a frame. -/
def step (x : Executable) (enter : Range → Run Value) (r : Range) (i : Instruction) (pc : Nat)
    (stack : List Value) : Run Flow :=
  let next (stack : List Value) : Run Flow := pure (.goto (pc + 1) stack)
  let underflow : Run Flow := throw (.stackUnderflow r.block pc)
  match i, stack with
  | .pushNull, st => next (.null :: st)
  | .pushBool b, st => next (.bool b :: st)
  | .pushInt n, st => next (.int n :: st)
  | .pushDouble d, st => next (.double d :: st)
  | .pushString s, st => do
    let v ← modifyGet fun machine =>
      let (v, memory) := machine.memory.allocString s
      (v, { machine with memory })
    next (v :: st)
  | .pushFunction p, st => next (.function p :: st)
  | .loadGlobal slot, st => do
    let m := (← get).memory
    match m.global? slot with
    | some v => next (v :: st)
    | none => throw (.unallocatedGlobal slot m.globalCount)
  | .storeGlobal slot, v :: st => do
    let machine ← get
    match machine.memory.setGlobal slot v with
    | .error fault => throw fault
    | .ok (true, memory) =>
      set { machine with memory, changed := machine.changed ++ [slot] }
      next st
    | .ok (false, memory) =>
      set { machine with memory }
      next st
  | .loadLocal i, st => next ((r.locals[i]?.getD .null) :: st)
  | .makeArray count, st =>
    if count ≤ st.length then do
      let v ← modifyGet fun machine =>
        let (v, memory) := machine.memory.allocArray (st.take count).reverse
        (v, { machine with memory })
      next (v :: st.drop count)
    else underflow
  | .index, i :: target :: st => do
    let v ← (applyIndex (← get).memory target i).apply
    next (v :: st)
  | .unary op, operand :: st => do
    let v ← (applyUnary (← get).memory op operand).apply
    next (v :: st)
  | .binary op, rhs :: lhs :: st => do
    let v ← (applyBinary (← get).memory x op lhs rhs).apply
    next (v :: st)
  | .call procedure argc, st =>
    if argc ≤ st.length then do
      let v ← callProcedure x enter 0 procedure (st.take argc).reverse
      next (v :: st.drop argc)
    else underflow
  | .callPointer argc, st =>
    if argc ≤ st.length then
      match st.drop argc with
      | callee :: rest => do
        let v ← callValue x enter callee (st.take argc).reverse
        next (v :: rest)
      | [] => underflow
    else underflow
  | .jump target, st => pure (.goto target st)
  | .jumpIfFalse target, v :: st => do
    if (← get).memory.truthy v then next st else pure (.goto target st)
  | .ret, st => pure (.leave (st.headD .null))
  | .storeGlobal _, [] => underflow
  | .index, _ => underflow
  | .unary _, [] => underflow
  | .binary _, _ => underflow
  | .jumpIfFalse _, [] => underflow

/-- The instructions of a frame from the place `pc` on, at most `fuel` of them. -/
def runFrom (x : Executable) (enter : Range → Run Value) (r : Range) (code : Stream) :
    Nat → Nat → List Value → Run Value
  | 0, pc, _ => throw (.invalidProgramCounter r.block pc)
  | fuel + 1, pc, stack =>
    if pc < r.stop then
      match code.at? pc with
      | none => throw (.invalidProgramCounter r.block pc)
      | some i => do
        match ← step x enter r i pc stack with
        | .leave v => return v
        | .goto pc stack =>
          if pc < r.start ∨ r.stop < pc then throw (.invalidProgramCounter r.block pc)
          else runFrom x enter r code fuel pc stack
    else return stack.headD .null

/-- How many steps beyond the length of its range a frame may take. -/
def loopAllowance : Nat := UInt64.size

/-- Runs a range of code, whose calls `enter` answers. -/
def runFrame (x : Executable) (enter : Range → Run Value) (r : Range) : Run Value :=
  match x.stream? r.block with
  | none => throw (.missingBlock r.block)
  | some code => runFrom x enter r code (r.stop - r.start + loopAllowance) r.start []

/-- Runs a range of code with `depth` nested calls left of the `limit` allowed. -/
def runRange (x : Executable) (limit : Nat) : Nat → Range → Run Value
  | 0, r => runFrame x (fun _ => throw (.callDepthExceeded limit)) r
  | depth + 1, r => runFrame x (runRange x limit depth) r

end Reflow
