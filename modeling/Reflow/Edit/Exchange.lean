import Reflow.Edit.Batch
import Reflow.Json.Decode
import Reflow.Json.Read
/-!
# Edit batches as JSON

A batch is exchanged as an object with its three sets, a subtree as its identity and its statements
in tree form. Reading accepts raw edits and makes them canonical.

## Main definitions

* `Expr.toJson`, `Statement.toJson`, `Batch.toJson`: the written trees.
* `Expr.ofJson?`, `Statement.ofJson?`, `Batch.ofJson?`: reading them.
-/

namespace Reflow

/-- An alternative that carries something. -/
def Json.tagged (name : String) (content : Json) : Json := .obj [(name, content)]

/-- The name of a prefix operator in JSON. -/
def UnaryOp.tag : UnaryOp → String
  | neg => "Neg"
  | not => "Not"

/-- The name of an infix operator in JSON. -/
def BinaryOp.tag : BinaryOp → String
  | add => "Add"
  | sub => "Sub"
  | mul => "Mul"
  | div => "Div"
  | mod => "Mod"
  | eq => "Eq"
  | ne => "Ne"
  | lt => "Lt"
  | le => "Le"
  | gt => "Gt"
  | ge => "Ge"
  | and => "And"
  | or => "Or"

/-- A prefix operator given by name. -/
def UnaryOp.ofJson? (j : Json) : Option UnaryOp := do
  let c ← j.choice?
  match [UnaryOp.neg, .not].find? (·.tag == c.name) with
  | some op => c.bare? op
  | none => none

/-- The infix operators. -/
def BinaryOp.all : List BinaryOp :=
  [.add, .sub, .mul, .div, .mod, .eq, .ne, .lt, .le, .gt, .ge, .and, .or]

/-- An infix operator given by name. -/
def BinaryOp.ofJson? (j : Json) : Option BinaryOp := do
  let c ← j.choice?
  match BinaryOp.all.find? (·.tag == c.name) with
  | some op => c.bare? op
  | none => none

namespace Expr

mutual

/-- An expression as a JSON tree. -/
def toJson : Expr → Json
  | null => .str "Null"
  | bool b => .tagged "Bool" (.bool b)
  | int n => .tagged "Int" (.int n.toInt)
  | double x => .tagged "Double" (.double x)
  | str s => .tagged "Str" (.str s)
  | name n => .tagged "Ident" (.str n)
  | array items => .tagged "Array" (.arr (toJsonAll items))
  | index target i => .tagged "Index" (.obj [("target", toJson target), ("index", toJson i)])
  | call callee args =>
    .tagged "Call" (.obj [("callee", .str callee), ("args", .arr (toJsonAll args))])
  | unary op operand =>
    .tagged "Unary" (.obj [("op", .str op.tag), ("operand", toJson operand)])
  | binary op lhs rhs =>
    .tagged "Binary" (.obj [("op", .str op.tag), ("lhs", toJson lhs), ("rhs", toJson rhs)])
  | cond test yes no =>
    .tagged "Conditional"
      (.obj [("cond", toJson test), ("then", toJson yes), ("otherwise", toJson no)])

/-- A list of expressions as JSON trees. -/
def toJsonAll : List Expr → List Json
  | [] => []
  | e :: es => toJson e :: toJsonAll es

end

/-- An expression read from a JSON tree of at most the given depth. -/
def ofJsonWithin? : Nat → Json → Option Expr
  | 0, _ => none
  | depth + 1, j => do
    let c ← j.choice?
    let record (names : List String) : Option Json.Record := c.content.bind (Json.record? names)
    let sub := ofJsonWithin? depth
    match c.name with
    | "Null" => c.bare? .null
    | "Bool" => return .bool (← c.carrying? Json.bool?)
    | "Int" => return .int (← c.carrying? Json.int64?)
    | "Double" => return .double (← c.carrying? Json.float?)
    | "Str" => return .str (← c.carrying? Json.text?)
    | "Ident" => return .name (← c.carrying? Json.text?)
    | "Array" => return .array (← c.carrying? (Json.list? sub))
    | "Index" =>
      let r ← record ["target", "index"]
      return .index (← r.required? "target" sub) (← r.required? "index" sub)
    | "Call" =>
      let r ← record ["callee", "args"]
      return .call (← r.required? "callee" Json.text?) (← r.required? "args" (Json.list? sub))
    | "Unary" =>
      let r ← record ["op", "operand"]
      return .unary (← r.required? "op" UnaryOp.ofJson?) (← r.required? "operand" sub)
    | "Binary" =>
      let r ← record ["op", "lhs", "rhs"]
      return .binary (← r.required? "op" BinaryOp.ofJson?) (← r.required? "lhs" sub)
        (← r.required? "rhs" sub)
    | "Conditional" =>
      let r ← record ["cond", "then", "otherwise"]
      return .cond (← r.required? "cond" sub) (← r.required? "then" sub)
        (← r.required? "otherwise" sub)
    | _ => none

/-- An expression read from a JSON tree. Readable trees are no deeper than the limit of nesting. -/
def ofJson? (j : Json) : Option Expr := ofJsonWithin? Json.depthLimit j

end Expr

namespace Statement

/-- A statement as a JSON tree. -/
def toJson : Statement → Json
  | assign target value =>
    .tagged "Assign" (.obj [("target", .str target), ("value", value.toJson)])
  | define name params body =>
    .tagged "Function"
      (.obj [("name", .str name), ("params", .strs params), ("body", body.toJson)])

/-- A statement read from a JSON tree. -/
def ofJson? (j : Json) : Option Statement := do
  let c ← j.choice?
  match c.name with
  | "Assign" =>
    let r ← c.content.bind (Json.record? ["target", "value"])
    return .assign (← r.required? "target" Json.text?) (← r.required? "value" Expr.ofJson?)
  | "Function" =>
    let r ← c.content.bind (Json.record? ["name", "params", "body"])
    return .define (← r.required? "name" Json.text?)
      (← r.required? "params" (Json.list? Json.text?)) (← r.required? "body" Expr.ofJson?)
  | _ => none

end Statement

/-- An identity as JSON. -/
def SubtreeId.toJson (id : SubtreeId) : Json := .str id.text

/-- An identity read from JSON. -/
def SubtreeId.ofJson? (j : Json) : Option SubtreeId := j.text?.bind SubtreeId.read?

namespace Subtree

/-- A subtree as JSON. -/
def toJson (s : Subtree) : Json :=
  .obj [("id", s.id.toJson), ("ast_nodes", .arr (s.statements.map Statement.toJson))]

/-- A subtree read from JSON. -/
def ofJson? (j : Json) : Option Subtree := do
  let r ← Json.record? ["id", "ast_nodes"] j
  return ⟨← r.required? "id" SubtreeId.ofJson?,
    ← r.required? "ast_nodes" (Json.list? Statement.ofJson?)⟩

end Subtree

namespace Batch

/-- A batch as JSON. -/
def toJson (b : Batch) : Json :=
  .obj [("added", .arr (b.added.map Subtree.toJson)),
    ("modified", .arr (b.modified.map Subtree.toJson)),
    ("deleted", .arr (b.deleted.map Subtree.toJson))]

/-- The canonical batch of the edits read from JSON; a set may be left out. -/
def ofJson? (j : Json) : Option Batch := do
  let r ← Json.record? ["added", "modified", "deleted"] j
  let subtrees := Json.list? Subtree.ofJson?
  return ofEdits ⟨← r.orDefault? "added" subtrees [], ← r.orDefault? "modified" subtrees [],
    ← r.orDefault? "deleted" subtrees []⟩

end Batch

end Reflow
