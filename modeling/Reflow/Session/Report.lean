import Reflow.Session.NodeRef
/-!
# Reports

A batch that succeeds is answered by a report on what it changed.

## Main definitions

* `Report`: what one batch did.
* `Report.toJson`, `Report.ofJson?`: its exchanged form.
-/

namespace Reflow

/-- A variable that changed, with the node that assigns it. -/
structure ModifiedNode where
  name : String
  /-- The subtree that assigns the variable; none for code without a subtree. -/
  subtree : Option SubtreeId := none
  /-- The node that stands for the subtree. -/
  uid : Option Nat := none
  deriving DecidableEq

/-- What one batch did. -/
structure Report where
  /-- The variables whose value changed, in the order of their slots. -/
  modifiedSymbols : List String := []
  /-- The nodes of these variables, in the same order. -/
  modifiedNodes : List ModifiedNode := []
  /-- The warnings of the compilation and of the run. -/
  warnings : List String := []
  /-- The number of evaluations of statements. -/
  executed : Nat := 0
  /-- The number of global slots after the batch. -/
  globalCount : Nat := 0
  deriving DecidableEq

namespace ModifiedNode

/-- A changed variable as JSON. -/
def toJson (n : ModifiedNode) : Json :=
  .obj [("variable", .str n.name), ("subtree", .option SubtreeId.toJson n.subtree),
    ("uid", .option .nat n.uid)]

/-- A changed variable read from JSON. -/
def ofJson? (j : Json) : Option ModifiedNode := do
  let r ← Json.record? ["variable", "subtree", "uid"] j
  return ⟨← r.required? "variable" Json.text?, ← r.optional? "subtree" SubtreeId.ofJson?,
    ← r.optional? "uid" NodeRef.uid?⟩

end ModifiedNode

namespace Report

/-- A report as JSON. -/
def toJson (r : Report) : Json :=
  .obj [("modified_symbols", .strs r.modifiedSymbols),
    ("modified_nodes", .arr (r.modifiedNodes.map ModifiedNode.toJson)),
    ("warnings", .strs r.warnings), ("executed", .nat r.executed),
    ("global_count", .nat r.globalCount)]

/-- A report read from JSON. -/
def ofJson? (j : Json) : Option Report := do
  let r ← Json.record?
    ["modified_symbols", "modified_nodes", "warnings", "executed", "global_count"] j
  let texts := Json.list? Json.text?
  return ⟨← r.required? "modified_symbols" texts,
    ← r.required? "modified_nodes" (Json.list? ModifiedNode.ofJson?),
    ← r.required? "warnings" texts, ← r.required? "executed" Json.nat?,
    ← r.required? "global_count" Json.nat?⟩

end Report

end Reflow
