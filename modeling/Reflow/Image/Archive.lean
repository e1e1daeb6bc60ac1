import Reflow.Decimal.Read
import Reflow.Image.Exchange
import Reflow.Image.Executable
import Reflow.Lang.Render
/-!
# Executables as JSON

An executable can be put away as JSON and taken up again. An instruction is an array of its name and
its operands; operators go by their symbols, and numbers of the language are texts, since JSON has
no NaN and readers of JSON may round long whole numbers.

## Main definitions

* `Instruction.toJson`, `Instruction.ofJson?`: instructions.
* `Executable.toJson`, `Executable.ofJson?`, `Executable.read?`: whole programs.
-/

namespace Reflow

/-- A prefix operator by its symbol. -/
def UnaryOp.ofSymbol? (j : Json) : Option UnaryOp :=
  j.text?.bind fun s => [UnaryOp.neg, .not].find? (·.symbol == s)

/-- An infix operator by its symbol. -/
def BinaryOp.ofSymbol? (j : Json) : Option BinaryOp :=
  j.text?.bind fun s => BinaryOp.all.find? (·.symbol == s)

/-- A whole number of the language as text. -/
def Json.wholeText (n : Int64) : Json := .str (toString n.toInt)

/-- A whole number of the language read from its text. -/
def Json.wholeOfText? (j : Json) : Option Int64 :=
  (j.text?.bind String.toInt?).bind fun n => Json.int64? (.int n)

/-- A double as text. -/
def Json.doubleText (x : Float) : Json := .str (literalStyle.write x)

/-- A double read from its text. -/
def Json.doubleOfText? (j : Json) : Option Float := j.text?.bind fun s => Decimal.float? s.toList

namespace Instruction

/-- An instruction as JSON. -/
def toJson : Instruction → Json
  | pushNull => .arr [.str "PushNull"]
  | pushBool b => .arr [.str "PushBool", .bool b]
  | pushInt n => .arr [.str "PushInt", .wholeText n]
  | pushDouble x => .arr [.str "PushDouble", .doubleText x]
  | pushString s => .arr [.str "PushString", .str s]
  | pushFunction pointer => .arr [.str "PushFunctionPointer", .nat pointer]
  | loadGlobal slot => .arr [.str "LoadGlobal", .nat slot]
  | storeGlobal slot => .arr [.str "StoreGlobal", .nat slot]
  | loadLocal i => .arr [.str "LoadLocal", .nat i]
  | makeArray count => .arr [.str "MakeArray", .nat count]
  | index => .arr [.str "Index"]
  | unary op => .arr [.str "Unary", .str op.symbol]
  | binary op => .arr [.str "Binary", .str op.symbol]
  | call procedure argc => .arr [.str "Call", .nat procedure, .nat argc]
  | callPointer argc => .arr [.str "CallPointer", .nat argc]
  | jump target => .arr [.str "Jump", .nat target]
  | jumpIfFalse target => .arr [.str "JumpIfFalse", .nat target]
  | ret => .arr [.str "Return"]

/-- An instruction read from JSON. -/
def ofJson? : Json → Option Instruction
  | .arr [.str "PushNull"] => some pushNull
  | .arr [.str "PushBool", b] => b.bool?.map pushBool
  | .arr [.str "PushInt", n] => n.wholeOfText?.map pushInt
  | .arr [.str "PushDouble", x] => x.doubleOfText?.map pushDouble
  | .arr [.str "PushString", s] => s.text?.map pushString
  | .arr [.str "PushFunctionPointer", n] => n.nat?.map pushFunction
  | .arr [.str "LoadGlobal", n] => n.nat?.map loadGlobal
  | .arr [.str "StoreGlobal", n] => n.nat?.map storeGlobal
  | .arr [.str "LoadLocal", n] => n.nat?.map loadLocal
  | .arr [.str "MakeArray", n] => n.nat?.map makeArray
  | .arr [.str "Index"] => some index
  | .arr [.str "Unary", op] => (UnaryOp.ofSymbol? op).map unary
  | .arr [.str "Binary", op] => (BinaryOp.ofSymbol? op).map binary
  | .arr [.str "Call", p, n] => do return call (← p.nat?) (← n.nat?)
  | .arr [.str "CallPointer", n] => n.nat?.map callPointer
  | .arr [.str "Jump", n] => n.nat?.map jump
  | .arr [.str "JumpIfFalse", n] => n.nat?.map jumpIfFalse
  | .arr [.str "Return"] => some ret
  | _ => none

end Instruction

namespace Language

/-- The name of a language. -/
def name : Language → String
  | associative => "Associative"
  | imperative => "Imperative"

/-- A language read from JSON. -/
def ofJson? (j : Json) : Option Language :=
  j.text?.bind fun s => [associative, imperative].find? (·.name == s)

end Language

namespace BlockKind

/-- The name of a kind of blocks. -/
def name : BlockKind → String
  | language => "Language"
  | construct => "Construct"
  | function => "Function"

/-- A kind of blocks read from JSON. -/
def ofJson? (j : Json) : Option BlockKind :=
  j.text?.bind fun s => [language, construct, function].find? (·.name == s)

end BlockKind

namespace UpdateRoot

/-- What has to be evaluated again, as JSON. -/
def toJson : UpdateRoot → Json
  | symbol key => .arr [.str "s", .nat key.block, .nat key.index]
  | procedure index => .arr [.str "p", .nat index]

/-- What has to be evaluated again, read from JSON. -/
def ofJson? : Json → Option UpdateRoot
  | .arr [.str "s", b, i] => do return symbol ⟨← b.nat?, ← i.nat?⟩
  | .arr [.str "p", i] => i.nat?.map procedure
  | _ => none

end UpdateRoot

namespace Stream

/-- The code of a block as JSON. -/
def toJson (s : Stream) : Json :=
  .obj [("language", .str s.language.name), ("entry", .option .nat s.entry),
    ("code", .arr (s.code.toList.map Instruction.toJson)),
    ("updates", .arr (s.updates.map UpdateRoot.toJson)), ("graph", s.graph.toJson)]

/-- The code of a block read from JSON. -/
def ofJson? (j : Json) : Option Stream := do
  let r ← Json.record? ["language", "entry", "code", "updates", "graph"] j
  return {
    language := ← r.required? "language" Language.ofJson?
    entry := ← r.optional? "entry" Json.nat?
    code := (← r.required? "code" (Json.list? Instruction.ofJson?)).toArray
    updates := ← r.required? "updates" (Json.list? UpdateRoot.ofJson?)
    graph := ← r.required? "graph" DependencyGraph.ofJson? }

end Stream

namespace Symbol

/-- A symbol as JSON. -/
def toJson (s : Symbol) : Json :=
  .obj [("name", .str s.name), ("index", .nat s.index), ("block", .nat s.block),
    ("function", .option .nat s.function), ("class", .option .nat s.classScope),
    ("static", .bool s.isStatic), ("argument", .bool s.isArgument), ("temp", .bool s.isTemp)]

/-- A symbol read from JSON. -/
def ofJson? (j : Json) : Option Symbol := do
  let r ← Json.record?
    ["name", "index", "block", "function", "class", "static", "argument", "temp"] j
  return {
    name := ← r.required? "name" Json.text?
    index := ← r.required? "index" Json.nat?
    block := ← r.required? "block" Json.nat?
    function := ← r.optional? "function" Json.nat?
    classScope := ← r.optional? "class" Json.nat?
    isStatic := ← r.required? "static" Json.bool?
    isArgument := ← r.required? "argument" Json.bool?
    isTemp := ← r.required? "temp" Json.bool? }

end Symbol

namespace SymbolTable

/-- The symbols of a block as JSON. -/
def toJson (t : SymbolTable) : Json :=
  .obj [("block", .nat t.block), ("symbols", .arr (t.symbols.map Symbol.toJson))]

/-- The symbols of a block read from JSON. -/
def ofJson? (j : Json) : Option SymbolTable := do
  let r ← Json.record? ["block", "symbols"] j
  return ⟨← r.required? "block" Json.nat?, ← r.required? "symbols" (Json.list? Symbol.ofJson?)⟩

end SymbolTable

namespace Procedure

/-- A procedure as JSON. -/
def toJson (p : Procedure) : Json :=
  .obj [("name", .str p.name), ("index", .nat p.index), ("params", .strs p.params),
    ("body", .option .nat p.body), ("pc", .arr [.nat p.start, .nat p.stop]),
    ("owner", .option SubtreeId.toJson p.owner), ("active", .bool p.isActive)]

/-- A procedure read from JSON. -/
def ofJson? (j : Json) : Option Procedure := do
  let r ← Json.record? ["name", "index", "params", "body", "pc", "owner", "active"] j
  let [start, stop] ← r.required? "pc" (Json.list? Json.nat?) | none
  return {
    start, stop
    name := ← r.required? "name" Json.text?
    index := ← r.required? "index" Json.nat?
    params := ← r.required? "params" (Json.list? Json.text?)
    body := ← r.optional? "body" Json.nat?
    owner := ← r.optional? "owner" SubtreeId.ofJson?
    isActive := ← r.required? "active" Json.bool? }

end Procedure

namespace ProcedureTable

/-- The procedures of a block as JSON. -/
def toJson (t : ProcedureTable) : Json :=
  .obj [("block", .nat t.block), ("procedures", .arr (t.procedures.map Procedure.toJson))]

/-- The procedures of a block read from JSON. -/
def ofJson? (j : Json) : Option ProcedureTable := do
  let r ← Json.record? ["block", "procedures"] j
  return ⟨← r.required? "block" Json.nat?,
    ← r.required? "procedures" (Json.list? Procedure.ofJson?)⟩

end ProcedureTable

namespace CodeBlock

/-- The place of a block in the tree, as JSON. The tables of an executable's blocks stand beside
the tree. -/
def toJson (b : CodeBlock) : Json :=
  .obj [("id", .nat b.id), ("type", .str b.kind.name), ("language", .str b.language.name),
    ("parent", .option .nat b.parent), ("children", .arr (b.children.map .nat)),
    ("global_size", .nat b.globalSize), ("breakable", .bool b.breakable)]

/-- A block without tables and code, read from JSON. -/
def ofJson? (j : Json) : Option CodeBlock := do
  let r ← Json.record?
    ["id", "type", "language", "parent", "children", "global_size", "breakable"] j
  let b := fresh (← r.required? "id" Json.nat?) (← r.required? "type" BlockKind.ofJson?)
    (← r.required? "language" Language.ofJson?) (← r.optional? "parent" Json.nat?)
  return { b with
    children := ← r.required? "children" (Json.list? Json.nat?)
    globalSize := ← r.required? "global_size" Json.nat?
    breakable := ← r.required? "breakable" Json.bool? }

end CodeBlock

namespace DynamicVariable

/-- A variable declared on the fly, as JSON. -/
def toJson (v : DynamicVariable) : Json := .arr [.str v.name, .nat v.block, .nat v.slot]

/-- A variable declared on the fly, read from JSON. -/
def ofJson? : Json → Option DynamicVariable
  | .arr [n, b, s] => do return ⟨← n.text?, ← b.nat?, ← s.nat?⟩
  | _ => none

end DynamicVariable

namespace DynamicFunction

/-- A call that came before its definition, as JSON. -/
def toJson (f : DynamicFunction) : Json :=
  .arr [.str f.name, .nat f.procedure, .nat f.argc, .bool f.resolved]

/-- A call that came before its definition, read from JSON. -/
def ofJson? : Json → Option DynamicFunction
  | .arr [n, p, a, r] => do return ⟨← n.text?, ← p.nat?, ← a.nat?, ← r.bool?⟩
  | _ => none

end DynamicFunction

namespace FunctionPointers

/-- The procedures used as values, as JSON. -/
def toJson (t : FunctionPointers) : Json :=
  .arr (t.targets.map fun (block, procedure) => .arr [.nat block, .nat procedure])

/-- The procedures used as values, read from JSON. -/
def ofJson? (j : Json) : Option FunctionPointers := do
  let targets ← Json.list? (fun
    | .arr [b, p] => do return (← b.nat?, ← p.nat?)
    | _ => none) j
  return ⟨targets⟩

end FunctionPointers

namespace Executable

/-- A program as JSON. -/
def toJson (x : Executable) : Json :=
  .obj [("blocks", .arr (x.arena.blocks.map CodeBlock.toJson)),
    ("streams", .arr (x.streams.map Stream.toJson)),
    ("symbols", .arr (x.symbols.map SymbolTable.toJson)),
    ("procedures", .arr (x.procedures.map ProcedureTable.toJson)),
    ("dynamic_variables", .arr (x.dynamicVariables.entries.map DynamicVariable.toJson)),
    ("dynamic_functions", .arr (x.dynamicFunctions.entries.map DynamicFunction.toJson)),
    ("function_pointers", x.pointers.toJson), ("single_assoc", .bool x.isSingleAssociative)]

/-- A program read from JSON. -/
def ofJson? (j : Json) : Option Executable := do
  let r ← Json.record? ["blocks", "streams", "symbols", "procedures", "dynamic_variables",
    "dynamic_functions", "function_pointers", "single_assoc"] j
  return {
    arena := ⟨← r.required? "blocks" (Json.list? CodeBlock.ofJson?)⟩
    streams := ← r.required? "streams" (Json.list? Stream.ofJson?)
    symbols := ← r.required? "symbols" (Json.list? SymbolTable.ofJson?)
    procedures := ← r.required? "procedures" (Json.list? ProcedureTable.ofJson?)
    dynamicVariables :=
      ⟨← r.required? "dynamic_variables" (Json.list? DynamicVariable.ofJson?)⟩
    dynamicFunctions :=
      ⟨← r.required? "dynamic_functions" (Json.list? DynamicFunction.ofJson?)⟩
    pointers := ← r.required? "function_pointers" FunctionPointers.ofJson?
    isSingleAssociative := ← r.required? "single_assoc" Json.bool? }

/-- The program of a text. -/
def read? (text : String) : Option Executable :=
  (Json.readWith? numberedReading text).bind ofJson?

end Executable

end Reflow
