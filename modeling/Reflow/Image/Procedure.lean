import Reflow.Edit.SubtreeId
/-!
# Procedures

A procedure keeps its index for the life of a session. A call to a function without a definition
reserves an inactive entry, a definition fills the entry or replaces what it held, and retiring a
procedure only marks it.

## Main definitions

* `Procedure`: one function.
* `ProcedureTable`: the procedures of one block, with `reserve`, `define` and `retire`.
-/

namespace Reflow

/-- A function. -/
structure Procedure where
  name : String
  index : Nat
  params : List String := []
  /-- The block of the body; none while the entry is only reserved. -/
  body : Option Nat := none
  /-- The range of the body's instructions. -/
  start : Nat := 0
  stop : Nat := 0
  /-- The subtree that defined the procedure. -/
  owner : Option SubtreeId := none
  /-- Defined and not retired. -/
  isActive : Bool := false
  deriving DecidableEq

/-- The number of arguments that a call has to give. -/
def Procedure.arity (p : Procedure) : Nat := p.params.length

/-- The procedures of one block in the order of their indices. -/
structure ProcedureTable where
  block : Nat
  procedures : List Procedure := []
  deriving DecidableEq

namespace ProcedureTable

/-- The index of a name. -/
def indexOf? (t : ProcedureTable) (name : String) : Option Nat :=
  t.procedures.findIdx? (·.name == name)

/-- The procedure of a name. -/
def get? (t : ProcedureTable) (name : String) : Option Procedure :=
  t.procedures.find? (·.name == name)

/-- The procedure of an index. -/
def at? (t : ProcedureTable) (index : Nat) : Option Procedure := t.procedures[index]?

/-- The number of procedures. -/
def size (t : ProcedureTable) : Nat := t.procedures.length

/-- The index of a name, which gets an inactive entry if it has none. -/
def reserve (t : ProcedureTable) (name : String) : Nat × ProcedureTable :=
  match t.indexOf? name with
  | some index => (index, t)
  | none => (t.size, { t with procedures := t.procedures ++ [{ name, index := t.size }] })

/-- Fills or replaces the entry of a name and activates it; also returns its index. -/
def define (t : ProcedureTable) (name : String) (params : List String) (body start stop : Nat)
    (owner : Option SubtreeId) : Nat × ProcedureTable :=
  let (index, t) := t.reserve name
  (index, { t with procedures := t.procedures.modify index fun p =>
    { p with params, body := some body, start, stop, owner, isActive := true } })

/-- Whether the procedure of an index is active. -/
def isActive (t : ProcedureTable) (index : Nat) : Bool := (t.at? index).any (·.isActive)

/-- Deactivates a procedure, whose index stays taken. -/
def retire (t : ProcedureTable) (index : Nat) : ProcedureTable :=
  { t with procedures := t.procedures.modify index fun p => { p with isActive := false } }

end ProcedureTable

end Reflow
