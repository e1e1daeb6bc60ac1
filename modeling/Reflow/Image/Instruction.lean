import Reflow.Image.Dependency
import Reflow.Lang.Expr
/-!
# Instructions

Code is a sequence of instructions for a stack machine. Each block has one stream, to which code is
only ever appended; jumps give absolute places in it.

## Main definitions

* `Instruction`: the instructions.
* `UpdateRoot`: what has to be evaluated again at the next run.
* `Stream`: the code of one block with its dependencies.
-/

namespace Reflow

/-- An instruction of the stack machine. -/
inductive Instruction
  | pushNull
  | pushBool (value : Bool)
  | pushInt (value : Int64)
  | pushDouble (value : Float)
  | pushString (value : String)
  /-- Pushes an entry of the function pointer table. -/
  | pushFunction (pointer : Nat)
  | loadGlobal (slot : Nat)
  /-- Pops a value into a global slot. -/
  | storeGlobal (slot : Nat)
  /-- Pushes an argument of the running call. -/
  | loadLocal (index : Nat)
  /-- Pops that many values into a new array. -/
  | makeArray (count : Nat)
  /-- Pops an index and then a target, pushes the element. -/
  | index
  | unary (op : UnaryOp)
  | binary (op : BinaryOp)
  /-- Calls a top-level procedure with that many popped arguments. -/
  | call (procedure : Nat) (argc : Nat)
  /-- Pops that many arguments and then a function value, and calls it. -/
  | callPointer (argc : Nat)
  | jump (target : Nat)
  /-- Pops a value and jumps unless it counts as true. -/
  | jumpIfFalse (target : Nat)
  /-- Leaves the running call with the value on top of the stack. -/
  | ret
  deriving Inhabited

/-- Something whose readers or writers have to run at the next execution. -/
inductive UpdateRoot
  /-- The statements that assign a symbol. -/
  | symbol (key : SymbolKey)
  /-- The statements that use a procedure. -/
  | procedure (index : Nat)
  deriving Repr, DecidableEq

/-- How the statements of a block are run. -/
inductive Language
  /-- A statement runs again when what it reads has changed. -/
  | associative
  /-- Statements run once and in order. -/
  | imperative
  deriving Repr, DecidableEq, Inhabited

/-- The code of one block with its dependencies. -/
structure Stream where
  language : Language
  /-- The first instruction of the latest compilation. -/
  entry : Option Nat := none
  code : Array Instruction := #[]
  graph : DependencyGraph := {}
  /-- What has to be evaluated again at the next run. -/
  updates : List UpdateRoot := []

namespace Stream

/-- The place of the next instruction. -/
def size (s : Stream) : Nat := s.code.size

/-- The stream with one more instruction. -/
def push (s : Stream) (i : Instruction) : Stream := { s with code := s.code.push i }

/-- The instruction at a place. -/
def at? (s : Stream) (pc : Nat) : Option Instruction := s.code[pc]?

end Stream

/-- A jump with another target; all other instructions stay as they are. -/
def Instruction.retarget (target : Nat) : Instruction → Instruction
  | jump _ => jump target
  | jumpIfFalse _ => jumpIfFalse target
  | i => i

/-- The stream with the jump at a place leading to `target`. -/
def Stream.patch (s : Stream) (pc target : Nat) : Stream :=
  { s with code := s.code.modify pc (Instruction.retarget target) }

end Reflow
