import Reflow.Json.Decode
import Reflow.Json.Read
import Reflow.Machine.Propagation
import Reflow.Session.Path
/-!
# Options

The host gives a session its options, at the start and at any later time. They take effect on the
configuration at the next batch.

## Main definitions

* `Options`: what the host sets, with `Options.toJson` and `Options.read?`.
* `Configuration`: what a session works with, with `Configuration.ofOptions`.
-/

namespace Reflow

/-- What the host sets. -/
structure Options where
  /-- The module that the program lives in. -/
  rootModule : Option Path := none
  /-- Directories to search, in order. -/
  searchDirectories : List Path := []
  /-- Settings handed through as they are, sorted by name. -/
  passThrough : List (String × Json) := []
  /-- The session takes statements, not graph edits. -/
  interpreterMode : Bool := false
  /-- How often one statement may run in a batch. -/
  maxPasses : Nat := 64
  /-- How deeply calls may be nested. -/
  maxDepth : Nat := 256

namespace Options

/-- The fields of an object, sorted by name; of several fields of one name the last counts. -/
def settings? : Json → Option (List (String × Json))
  | .obj fields =>
    if Json.allFieldsReadable fields then some (Json.sortedFields fields []) else none
  | _ => none

/-- A path read from JSON. -/
def path? (j : Json) : Option Path := j.text?.map Path.mk

/-- Options read from JSON; what is left out has its default. -/
def ofJson? (j : Json) : Option Options := do
  let r ← Json.record? ["root_module_path", "search_directories", "pass_through",
    "interpreter_mode", "max_update_passes", "max_call_depth"] j
  let d : Options := {}
  return {
    rootModule := ← r.orDefault? "root_module_path" (Json.nullable? path?) d.rootModule
    searchDirectories := ← r.orDefault? "search_directories" (Json.list? path?) d.searchDirectories
    passThrough := ← r.orDefault? "pass_through" settings? d.passThrough
    interpreterMode := ← r.orDefault? "interpreter_mode" Json.bool? d.interpreterMode
    maxPasses := ← r.orDefault? "max_update_passes" Json.nat? d.maxPasses
    maxDepth := ← r.orDefault? "max_call_depth" Json.nat? d.maxDepth }

/-- Options read from a JSON text. -/
def read? (text : String) : Option Options := (Json.read? text).bind ofJson?

/-- Options as JSON. -/
def toJson (o : Options) : Json :=
  .obj [("root_module_path", .option (fun p => .str p.text) o.rootModule),
    ("search_directories", .strs (o.searchDirectories.map Path.text)),
    ("pass_through", .obj o.passThrough),
    ("interpreter_mode", .bool o.interpreterMode),
    ("max_update_passes", .nat o.maxPasses),
    ("max_call_depth", .nat o.maxDepth)]

/-- The directory of the root module, if the module's path names one. -/
def rootDirectory? (o : Options) : Option Path :=
  (o.rootModule.bind Path.parent?).filter (·.text ≠ "")

end Options

/-- What a session works with. -/
structure Configuration where
  /-- The directory of the root module, then the search directories, each once. -/
  includeDirectories : List Path := []
  passThrough : List (String × Json) := []
  /-- The settings of every run. -/
  run : RunContext := {}

namespace Configuration

/-- Adds a directory, unless it is in the list already. -/
def includeOnce (directories : List Path) (d : Path) : List Path :=
  if directories.any (·.same d) then directories else directories ++ [d]

/-- The configuration that some options ask for. -/
def ofOptions (o : Options) : Configuration where
  includeDirectories := (o.rootDirectory?.toList ++ o.searchDirectories).foldl includeOnce []
  passThrough := o.passThrough
  run := { maxPasses := o.maxPasses, maxDepth := o.maxDepth }

end Configuration

end Reflow
