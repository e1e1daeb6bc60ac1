import Reflow.Image.Executable
import Reflow.Json.Decode
import Reflow.Lang.Render
import Reflow.Machine.Memory
/-!
# Snapshots of values

A snapshot is a value copied out of memory, with strings and arrays in full and functions by name.
It is what answers, events and listings show.

## Main definitions

* `Snapshot`: a value copied out of memory, with its text and its JSON form.
* `Memory.snapshot`: the snapshot of a value.
* `Memory.globalsOf`, `Memory.dump`: the globals that a program shows to its user.
-/

namespace Reflow

/-- A value copied out of memory. -/
inductive Snapshot
  | null
  | bool (value : Bool)
  | int (value : Int64)
  | double (value : Float)
  | str (value : String)
  | array (items : List Snapshot)
  /-- A function by name. -/
  | function (name : String)
  deriving Inhabited

namespace Snapshot

/-- Whether a snapshot shows null. -/
def isNull : Snapshot → Bool
  | null => true
  | _ => false

mutual

/-- The text of a snapshot, as listings show it. -/
def text : Snapshot → String
  | null => "null"
  | bool true => "true"
  | bool false => "false"
  | int n => toString n.toInt
  | double x => literalStyle.write x
  | str s => Text.shown s
  | array items => "\x7b" ++ separated ", " (textAll items) ++ "\x7d"
  | function name => "<function " ++ name ++ ">"

/-- The texts of some snapshots. -/
def textAll : List Snapshot → List String
  | [] => []
  | s :: rest => text s :: textAll rest

end

mutual

/-- A snapshot as plain JSON; a function becomes an object with its name. -/
def toJson : Snapshot → Json
  | null => .null
  | bool b => .bool b
  | int n => .int n.toInt
  | double x => .double x
  | str s => .str s
  | array items => .arr (toJsonAll items)
  | function name => .obj [("function", .str name)]

/-- Some snapshots as plain JSON. -/
def toJsonAll : List Snapshot → List Json
  | [] => []
  | s :: rest => toJson s :: toJsonAll rest

end

mutual

/-- A snapshot read from plain JSON. Numbers that are no integers of the language are doubles; an
object must name a function. -/
def ofJson? : Json → Option Snapshot
  | .null => some null
  | .bool b => some (bool b)
  | .int n =>
    match Json.int64? (.int n) with
    | some i => some (int i)
    | none => some (double (Float.ofInt n))
  | .double x => some (double x)
  | .str s => some (str s)
  | .arr items => (ofJsonAll? items).map array
  | .obj fields => (functionName? fields).map function
  | .unreadable => none

/-- Some snapshots read from plain JSON. -/
def ofJsonAll? : List Json → Option (List Snapshot)
  | [] => some []
  | j :: rest => do
    let s ← ofJson? j
    let more ← ofJsonAll? rest
    return s :: more

/-- The name of the function that an object stands for: one field of that name, all others being
passed over as far as they are readable. -/
def functionName? (fields : List (String × Json)) : Option String := do
  let r ← Json.record? ["function"] (.obj fields)
  if Json.allFieldsReadable fields then r.required? "function" Json.text? else none

end

end Snapshot

namespace Executable

/-- The name of the function that a pointer stands for. -/
def functionName (x : Executable) (pointer : Nat) : String :=
  match (x.pointers.target? pointer).bind fun (block, index) => x.procedureOf? block index with
  | some p => p.name
  | none => "#" ++ toString pointer

end Executable

namespace Memory

/-- The snapshot of a value, down to `depth` nested arrays. A pointer to nothing shows as null. -/
def snapshotWithin (m : Memory) (x : Executable) : Nat → Value → Snapshot
  | _, .null => .null
  | _, .bool b => .bool b
  | _, .int n => .int n
  | _, .double d => .double d
  | _, .string p =>
    match m.heap.string? p with
    | some s => .str s
    | none => .null
  | 0, .array _ => .null
  | depth + 1, .array p =>
    match m.heap.array? p with
    | some items => .array (items.map (snapshotWithin m x depth))
    | none => .null
  | _, .function p => .function (x.functionName p)

/-- The snapshot of a value. A value of finite depth meets no cell inside itself, so the number of
cells bounds the depth. -/
def snapshot (m : Memory) (x : Executable) (v : Value) : Snapshot :=
  m.snapshotWithin x (m.heap.cells.size + 1) v

/-- The snapshot of a slot. -/
def snapshotAt? (m : Memory) (x : Executable) (slot : Nat) : Option Snapshot :=
  (m.global? slot).map (m.snapshot x)

/-- The snapshot of a top-level symbol. -/
def snapshotOf? (m : Memory) (x : Executable) (name : String) : Option Snapshot :=
  (x.globalSymbol? name).bind fun s => m.snapshotAt? x s.index

/-- The globals that a listing shows, with their values, in the order of their slots. -/
def globalsOf (m : Memory) (x : Executable) : List (String × Snapshot) :=
  match x.symbols.head? with
  | none => []
  | some table =>
    (table.symbols.filter Symbol.isUserGlobal).map fun s =>
      (s.name, (m.snapshotAt? x s.index).getD .null)

/-- The listing of the globals: one line `name = value` each. -/
def dump (m : Memory) (x : Executable) : String :=
  String.join ((m.globalsOf x).map fun (name, v) => name ++ " = " ++ v.text ++ "\n")

end Memory

end Reflow
