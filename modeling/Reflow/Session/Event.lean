import Reflow.Machine.Snapshot
import Reflow.Session.Error
import Reflow.Session.Report
/-!
# Events

The host is told about the end of every operation by an event. In exchange an event is an object
whose field `event` names its kind; reading an event demands that all of it be readable, also the
parts that are passed over.

## Main definitions

* `Event`: what the host is told.
* `Event.ofBatch`, `Event.ofQuery`: the events of a batch and of a query.
* `Event.toJson`, `Event.ofJson?`: the exchanged form.
-/

namespace Reflow

/-- How an operation ended. -/
inductive EventStatus
  | ok
  /-- It succeeded and left warnings. -/
  | warning
  | error
  deriving Repr, DecidableEq

namespace EventStatus

/-- The name of a status. -/
def name : EventStatus → String
  | ok => "Ok"
  | warning => "Warning"
  | error => "Error"

/-- A status read from JSON, by its name or as a choice that carries null or nothing at all. -/
def ofJson? (j : Json) : Option EventStatus := do
  let c ← j.choice?
  let status ← [ok, warning, error].find? (·.name == c.name)
  match c.content with
  | some (.obj []) => return status
  | _ => c.bare? status

end EventStatus

/-- What the host is told about an operation. -/
inductive Event
  /-- A queried value; none if the reference stands for nothing. -/
  | nodeValueReady (node : NodeRef) (value : Option Snapshot) (status : EventStatus)
      (message : Option String)
  /-- The end of a batch; a failed one has no report. -/
  | graphUpdateReady (report : Option Report) (status : EventStatus) (messages : List String)
  /-- Program text made from subtrees. -/
  | nodesToCodeCompleted (subtrees : List SubtreeId) (code : String) (status : EventStatus)

namespace Event

/-- How the operation of an event ended. -/
def status : Event → EventStatus
  | nodeValueReady _ _ status _ => status
  | graphUpdateReady _ status _ => status
  | nodesToCodeCompleted _ _ status => status

/-- The event of a batch: its warnings, or its error with the diagnostics. -/
def ofBatch : Except SessionError Report → Event
  | .ok report =>
    graphUpdateReady (some report) (if report.warnings.isEmpty then .ok else .warning)
      report.warnings
  | .error e => graphUpdateReady none .error (e.message :: e.diagnostics.map Diagnostic.text)

/-- The event of a query. -/
def ofQuery (node : NodeRef) : Option Snapshot → Event
  | some value => nodeValueReady node (some value) .ok none
  | none => nodeValueReady node none .warning (some (ticked node.text ++ " has no value"))

/-- The event of a conversion to program text. -/
def ofCode (subtrees : List Subtree) (code : String) : Event :=
  nodesToCodeCompleted (subtrees.map (·.id)) code .ok

/-- An event as JSON. -/
def toJson : Event → Json
  | nodeValueReady node value status message =>
    .obj [("event", .str "node_value_ready"), ("node", node.toJson),
      ("value", .option Snapshot.toJson value), ("status", .str status.name),
      ("message", .option .str message)]
  | graphUpdateReady report status messages =>
    .obj [("event", .str "graph_update_ready"), ("report", .option Report.toJson report),
      ("status", .str status.name), ("messages", .strs messages)]
  | nodesToCodeCompleted subtrees code status =>
    .obj [("event", .str "nodes_to_code_completed"),
      ("subtrees", .arr (subtrees.map SubtreeId.toJson)), ("code", .str code),
      ("status", .str status.name)]

/-- The kind of an event and what else it holds: the field `event` and the other fields, or the
first item of an array and the others. -/
def parts? : Json → Option (String × Json)
  | .obj fields => do
    let (tags, others) := fields.partition (·.1 == "event")
    match tags with
    | [(_, .str kind)] => return (kind, .obj others)
    | _ => none
  | .arr (.str kind :: items) => some (kind, .arr items)
  | _ => none

/-- An event read from JSON. -/
def ofJson? (j : Json) : Option Event := do
  let (kind, content) ← parts? j
  if !content.readable then none
  else match kind with
    | "node_value_ready" =>
      let r ← Json.record? ["node", "value", "status", "message"] content
      return nodeValueReady (← r.required? "node" NodeRef.ofJson?)
        (← r.optional? "value" Snapshot.ofJson?) (← r.required? "status" EventStatus.ofJson?)
        (← r.optional? "message" Json.text?)
    | "graph_update_ready" =>
      let r ← Json.record? ["report", "status", "messages"] content
      return graphUpdateReady (← r.optional? "report" Report.ofJson?)
        (← r.required? "status" EventStatus.ofJson?)
        (← r.required? "messages" (Json.list? Json.text?))
    | "nodes_to_code_completed" =>
      let r ← Json.record? ["subtrees", "code", "status"] content
      return nodesToCodeCompleted (← r.required? "subtrees" (Json.list? SubtreeId.ofJson?))
        (← r.required? "code" Json.text?) (← r.required? "status" EventStatus.ofJson?)
    | _ => none

end Event

end Reflow
