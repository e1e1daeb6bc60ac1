import Reflow.Image.Block
/-!
# Faults of a run

A fault ends a run; memory keeps what the last completed store left in it. Two faults are the
program's own doing, the others point at a broken executable.

## Main definitions

* `Fault`: why a run ended.
* `Fault.message`, `Fault.isProgramFault`.
-/

namespace Reflow

/-- Why a run ended before its time. -/
inductive Fault
  /-- A statement made itself run again more often than allowed. -/
  | updateCycle (node limit : Nat)
  /-- Calls were nested more deeply than allowed. -/
  | callDepthExceeded (limit : Nat)
  /-- A global slot beyond the allocated ones. -/
  | unallocatedGlobal (slot allocated : Nat)
  /-- A block without code. -/
  | missingBlock (block : Nat)
  /-- A place outside the range that is run. -/
  | invalidProgramCounter (block pc : Nat)
  /-- An instruction needed more operands than there were. -/
  | stackUnderflow (block pc : Nat)
  deriving Repr, DecidableEq

namespace Fault

/-- The name of the kind of fault. -/
def kind : Fault → String
  | updateCycle _ _ => "UpdateCycle"
  | callDepthExceeded _ => "CallDepthExceeded"
  | unallocatedGlobal _ _ => "UnallocatedGlobal"
  | missingBlock _ => "MissingBlock"
  | invalidProgramCounter _ _ => "InvalidProgramCounter"
  | stackUnderflow _ _ => "StackUnderflow"

/-- The error text. -/
def message : Fault → String
  | updateCycle node limit =>
    "update cycle: statement " ++ exprText node ++ " re-evaluated more than " ++ toString limit
      ++ " times"
  | callDepthExceeded limit => "call depth exceeded " ++ toString limit
  | unallocatedGlobal slot allocated =>
    "global slot " ++ toString slot ++ " is not allocated (" ++ toString allocated ++ " slots)"
  | missingBlock block => "no instruction stream for code block " ++ blockText block
  | invalidProgramCounter block pc =>
    "invalid program counter " ++ toString pc ++ " in code block " ++ blockText block
  | stackUnderflow block pc =>
    "operand stack underflow in code block " ++ blockText block ++ " at " ++ toString pc

/-- Whether the running program caused the fault, and not a broken executable. -/
def isProgramFault : Fault → Bool
  | updateCycle _ _ => true
  | callDepthExceeded _ => true
  | _ => false

end Fault

end Reflow
