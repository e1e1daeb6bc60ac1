import Reflow.Image.Archive
import Reflow.Machine.Snapshot
/-!
# Values as typed JSON

Plain JSON does not tell whole numbers from doubles and has no NaN. In typed JSON a number is an
object with one field, which names its kind and holds its text; so is whatever points elsewhere.

## Main definitions

* `Value.toTypedJson`, `Value.ofTypedJson?`: values, pointers as numbers.
* `Snapshot.toTypedJson`: values in full.
-/

namespace Reflow

namespace Value

/-- A value as typed JSON. -/
def toTypedJson : Value → Json
  | null => .null
  | bool b => .bool b
  | int n => .tagged "i" (.wholeText n)
  | double x => .tagged "d" (.doubleText x)
  | string p => .tagged "s" (.nat p)
  | array p => .tagged "a" (.nat p)
  | function p => .tagged "f" (.nat p)

/-- A value read from typed JSON. -/
def ofTypedJson? : Json → Option Value
  | .null => some null
  | .bool b => some (bool b)
  | .obj [("i", n)] => n.wholeOfText?.map int
  | .obj [("d", x)] => x.doubleOfText?.map double
  | .obj [("s", p)] => p.nat?.map string
  | .obj [("a", p)] => p.nat?.map array
  | .obj [("f", p)] => p.nat?.map function
  | _ => none

end Value

namespace Snapshot

mutual

/-- A snapshot as typed JSON. -/
def toTypedJson : Snapshot → Json
  | null => .null
  | bool b => .bool b
  | int n => .tagged "i" (.wholeText n)
  | double x => .tagged "d" (.doubleText x)
  | str s => .str s
  | array items => .arr (toTypedJsonAll items)
  | function name => .tagged "fn" (.str name)

/-- Some snapshots as typed JSON. -/
def toTypedJsonAll : List Snapshot → List Json
  | [] => []
  | s :: rest => toTypedJson s :: toTypedJsonAll rest

end

end Snapshot

end Reflow
