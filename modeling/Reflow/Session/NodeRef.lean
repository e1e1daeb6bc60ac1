import Reflow.Compile.Mapping
import Reflow.Edit.Exchange
/-!
# References to nodes

A host asks for a value by the name of a variable, by the number of a node or by a subtree.

## Main definitions

* `NodeRef`: what a host can ask the value of.
* `NodeRef.toJson`, `NodeRef.ofJson?`: its exchanged form, an object with one field.
* `GraphMapping.variableFor?`: the variable that a reference stands for.
-/

namespace Reflow

/-- What a host can ask the value of. -/
inductive NodeRef
  /-- A top-level variable. -/
  | named (name : String)
  /-- A node of the graph; it stands for its subtree. -/
  | uid (number : Nat)
  | subtree (id : SubtreeId)
  deriving DecidableEq

namespace NodeRef

/-- How a message names a reference. -/
def text : NodeRef → String
  | named name => name
  | uid number => nodeText number
  | subtree id => "subtree " ++ id.text

/-- A reference as JSON. -/
def toJson : NodeRef → Json
  | named name => .tagged "name" (.str name)
  | uid number => .tagged "uid" (.nat number)
  | subtree id => .tagged "subtree" id.toJson

/-- The number of a node read from JSON; it has 32 bits. -/
def uid? : Json → Option Nat := Json.natBelow? UInt32.size

/-- A reference read from JSON. -/
def ofJson? (j : Json) : Option NodeRef := do
  let c ← j.choice?
  match c.name with
  | "name" => return .named (← c.carrying? Json.text?)
  | "uid" => return .uid (← c.carrying? uid?)
  | "subtree" => return .subtree (← c.carrying? SubtreeId.ofJson?)
  | _ => none

end NodeRef

/-- The variable that a reference stands for. -/
def GraphMapping.variableFor? (m : GraphMapping) : NodeRef → Option String
  | .named name => some name
  | .uid number => m.variableName? (m.canonicalize number)
  | .subtree id => m.subtreeVariable? id

end Reflow
