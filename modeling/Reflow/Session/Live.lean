import Reflow.Session.Basic
import Reflow.Session.WorkQueue
/-!
# Sessions behind a queue

Operations on a live session are either queued, to be answered later, or called, in which case
everything queued before them is done first. Each operation ends in one event for the host. The host
may refuse to take an event: then a call fails and a queued operation is dropped without an answer,
but what the session did stays done.

## Main definitions

* `Operation`: what a live session is asked to do, with `Operation.perform`.
* `LiveSession`: a session with its queue, the events so far and the answers so far.
* `LiveSession.submit`, `LiveSession.notify`: queue an operation.
* `LiveSession.call`: an operation done at once.
-/

namespace Reflow

/-- What a live session is asked to do. -/
inductive Operation
  | updateGraph (batch : Batch)
  | updateCode (code : String)
  | rerunAll
  /-- Something outside the program that a subtree depends on has changed. -/
  | propertyChanged (subtree : SubtreeId)
  | query (node : NodeRef)
  | convert (subtrees : List Subtree)

/-- The answer to an operation. -/
inductive Reply
  | batch (result : Except SessionError Report)
  | value (value : Option Snapshot)
  | code (text : String)

namespace Operation

/-- The name under which an operation is queued. -/
def name : Operation → String
  | updateGraph _ => "update_graph"
  | updateCode _ => "update_code"
  | rerunAll => "reexecute_all"
  | propertyChanged _ => "property_changed"
  | query _ => "query_node_value"
  | convert _ => "nodes_to_code"

/-- A batch with its answer, its event and the session after it. -/
def batch (s : Session) (call : SessionCall Report) : Reply × Event × Session :=
  let (result, s) := s.answer call
  (.batch result, .ofBatch result, s)

/-- The answer and the event of an operation, and the session after it. -/
def perform (s : Session) : Operation → Reply × Event × Session
  | updateGraph b => batch s (Session.updateGraph b)
  | updateCode code => batch s (Session.updateCode code)
  | rerunAll => batch s Session.rerunAll
  | propertyChanged subtree => batch s (Session.rerunSubtree subtree)
  | query node =>
    let value := s.query node
    (.value value, .ofQuery node value, s)
  | convert subtrees =>
    let code := GraphMapping.nodesToCode subtrees
    (.code code, .ofCode subtrees code, s)

end Operation

/-- A queued operation. -/
structure Job where
  operation : Operation
  /-- The number under which the answer is kept, if anybody waits for it. -/
  ticket : Option Nat

/-- A session with a queue. -/
structure LiveSession where
  session : Session
  queue : WorkQueue Job := {}
  /-- All events so far, the oldest first. -/
  events : List Event := []
  /-- The answers to queued operations, by ticket. -/
  replies : List (Nat × Except SessionError Reply) := []
  nextTicket : Nat := 0
  /-- The reason for which the host refuses to take events, if it does. -/
  refusal : Option String := none

namespace LiveSession

/-- A live session with some options. -/
def start (options : Options) : LiveSession := { session := { options } }

/-- Performs an operation; the event is told in any case. -/
def perform (l : LiveSession) (o : Operation) : Reply × LiveSession :=
  let (reply, event, session) := o.perform l.session
  (reply, { l with session, events := l.events ++ [event] })

/-- Queues an operation that answers under a new ticket. -/
def submit (l : LiveSession) (o : Operation) : Except SessionError (Nat × LiveSession) := do
  let queue ← l.queue.push ⟨o.name, o, some l.nextTicket⟩
  return (l.nextTicket, { l with queue, nextTicket := l.nextTicket + 1 })

/-- Queues a conversion to program text; without subtrees there is nothing to queue. -/
def submitConversion (l : LiveSession) (subtrees : List Subtree) :
    Except SessionError (Option Nat × LiveSession) :=
  if subtrees.isEmpty then .ok (none, l)
  else do
    let (ticket, l) ← l.submit (.convert subtrees)
    return (some ticket, l)

/-- Queues the news that something a subtree depends on has changed. -/
def notify (l : LiveSession) (subtree : SubtreeId) : Except SessionError LiveSession := do
  let o := Operation.propertyChanged subtree
  let queue ← l.queue.push ⟨o.name, o, none⟩
  return { l with queue }

/-- Ends the running task. -/
def finishTask (l : LiveSession) (t : Task Job) : LiveSession :=
  let (reply, l) := l.perform t.work.operation
  let (answer, ending) := match l.refusal with
    | none => (.ok reply, TaskEnd.finished)
    | some reason => (.error (.taskDropped t.name), .gaveUp (some reason))
  { l with
    queue := l.queue.finish ending
    replies := l.replies ++ (t.work.ticket.map (·, answer)).toList }

/-- The worker takes a task and ends it. -/
def work (l : LiveSession) : LiveSession :=
  match l.queue.take? with
  | none => l
  | some (t, queue) => { l with queue }.finishTask t

/-- The worker takes and ends up to `count` tasks. -/
def workTimes (l : LiveSession) : Nat → LiveSession
  | 0 => l
  | count + 1 => workTimes l.work count

/-- The worker ends all tasks that are waiting. -/
def settle (l : LiveSession) : LiveSession := l.workTimes l.queue.size

/-- The answer under a ticket, after everything queued was done. -/
def reply? (l : LiveSession) (ticket : Nat) : Option (Except SessionError Reply) :=
  l.replies.lookup ticket

/-- Does an operation as soon as all queued ones are done; an error is the host's reason to refuse
the event. -/
def call (l : LiveSession) (o : Operation) : Except String Reply × LiveSession :=
  let (reply, l) := l.settle.perform o
  match l.refusal with
  | none => (.ok reply, l)
  | some reason => (.error reason, l)

/-- Sets the options as soon as all queued operations are done. -/
def setOptions (l : LiveSession) (options : Options) : LiveSession :=
  let l := l.settle
  { l with session := l.session.setOptions options }

/-- From now on the host takes events, or refuses them for a reason. -/
def setRefusal (l : LiveSession) (refusal : Option String) : LiveSession :=
  { l.settle with refusal }

/-- Stops the session: what is queued is still done, and nothing more is taken. -/
def shutDown (l : LiveSession) : LiveSession :=
  { l with queue := l.queue.stop.join }.settle

end LiveSession

end Reflow
