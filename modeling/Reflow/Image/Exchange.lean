import Reflow.Edit.Exchange
import Reflow.Image.Dependency
import Reflow.Json.Read
/-!
# Dependency graphs as JSON

A graph is exchanged by its records: an object of statements and one of procedures, each under its
number. Reading links the records anew, procedures before statements. The numbers are read off the
text as they stand in it: one that is spelled with escapes is none.

## Main definitions

* `DependencyGraph.toJson`: the records of a graph.
* `DependencyGraph.ofJson?`, `DependencyGraph.read?`: the graph of some records.
-/

namespace Reflow

namespace SymbolKey

/-- A slot as JSON. -/
def toJson (k : SymbolKey) : Json := .obj [("block", .nat k.block), ("index", .nat k.index)]

/-- A slot read from JSON. -/
def ofJson? (j : Json) : Option SymbolKey := do
  let r ← Json.record? ["block", "index"] j
  return ⟨← r.required? "block" Json.nat?, ← r.required? "index" Json.nat?⟩

end SymbolKey

namespace GraphNode

/-- The record of a statement as JSON. -/
def toJson (n : GraphNode) : Json :=
  .obj [("id", .nat n.id), ("owner", .option SubtreeId.toJson n.owner),
    ("defines", .option SymbolKey.toJson n.defines), ("reads", .arr (n.reads.map SymbolKey.toJson)),
    ("calls", .arr (n.calls.map .nat)), ("pc_start", .nat n.start), ("pc_end", .nat n.stop),
    ("is_active", .bool n.isActive)]

/-- The record of a statement read from JSON. -/
def ofJson? (j : Json) : Option GraphNode := do
  let r ← Json.record?
    ["id", "owner", "defines", "reads", "calls", "pc_start", "pc_end", "is_active"] j
  return {
    id := ← r.required? "id" Json.nat?
    owner := ← r.optional? "owner" SubtreeId.ofJson?
    defines := ← r.optional? "defines" SymbolKey.ofJson?
    reads := ← r.required? "reads" (Json.list? SymbolKey.ofJson?)
    calls := ← r.required? "calls" (Json.list? Json.nat?)
    start := ← r.required? "pc_start" Json.nat?
    stop := ← r.required? "pc_end" Json.nat?
    isActive := ← r.required? "is_active" Json.bool? }

end GraphNode

namespace ProcedureUses

/-- What a procedure reads and calls as JSON. -/
def toJson (p : ProcedureUses) : Json :=
  .obj [("reads", .arr (p.reads.map SymbolKey.toJson)), ("calls", .arr (p.calls.map .nat))]

/-- What a procedure reads and calls, read from JSON. -/
def ofJson? (procedure : Nat) (j : Json) : Option ProcedureUses := do
  let r ← Json.record? ["reads", "calls"] j
  return ⟨procedure, ← r.required? "reads" (Json.list? SymbolKey.ofJson?),
    ← r.required? "calls" (Json.list? Json.nat?)⟩

end ProcedureUses

/-- The number that a field's name spells in decimal, without a sign and leading zeros. -/
def numberOfName? (name : String) : Option Nat :=
  let cs := name.toList
  let n := cs.foldl (fun n c => 10 * n + (c.toNat - '0'.toNat)) 0
  if cs.all Char.isDigit && name = toString n && n < UInt64.size then some n else none

/-- How a text with numbered records is read. -/
def numberedReading : Json.Reading := { verbatim := fun name => (numberOfName? name).isSome }

/-- The records under the numbers of an object, in ascending order; of several under one number the
last counts. -/
def numbered? {α : Type} (decode : Nat → Json → Option α) : Json → Option (List α)
  | .obj fields => do
    let records ← fields.mapM fun (name, j) => do
      let n ← numberOfName? name
      return (n, ← decode n j)
    return (records.foldl (fun done r => Keyed.put Prod.fst r done) []).map Prod.snd
  | _ => none

namespace DependencyGraph

/-- The records of a graph as JSON. -/
def toJson (g : DependencyGraph) : Json :=
  .obj [("nodes", .obj (g.nodes.map fun n => (toString n.id, n.toJson))),
    ("procedures", .obj (g.procedures.map fun p => (toString p.procedure, p.toJson)))]

/-- The graph of records read from JSON. -/
def ofJson? (j : Json) : Option DependencyGraph := do
  let r ← Json.record? ["nodes", "procedures"] j
  return ofRecords (← r.required? "nodes" (numbered? fun _ => GraphNode.ofJson?))
    (← r.required? "procedures" (numbered? ProcedureUses.ofJson?))

/-- The graph of a text. -/
def read? (text : String) : Option DependencyGraph :=
  (Json.readWith? numberedReading text).bind ofJson?

end DependencyGraph

end Reflow
