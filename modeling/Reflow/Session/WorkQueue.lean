import Reflow.Session.Error
/-!
# The queue of tasks

One worker takes the tasks in the order in which they were accepted, one at a time. A call that
needs the session for itself waits until no task is waiting or running, and no task starts or is
accepted while it goes on. Each definition is one step that no other step can interrupt.

## Main definitions

* `WorkQueue`: the tasks waiting and running.
* `WorkQueue.push`, `WorkQueue.stop`: the steps of those who hand in tasks.
* `WorkQueue.take?`, `WorkQueue.finish`: the steps of the worker.
* `WorkQueue.admission`: how a call that needs an idle queue goes on.
-/

namespace Reflow

/-- A task with the name under which its failure is reported. -/
structure Task (α : Type) where
  name : String
  work : α

/-- How a task ended. -/
inductive TaskEnd
  | finished
  /-- It gave up, for a reason that it may have told. -/
  | gaveUp (reason : Option String)
  deriving DecidableEq

/-- The line that reports a task which gave up. -/
def TaskEnd.failure? (name : String) : TaskEnd → Option String
  | finished => none
  | gaveUp reason => some (name ++ ": " ++ reason.getD "unknown panic")

/-- Who makes a call. -/
inductive Caller
  | client
  /-- A task that is running. -/
  | worker
  deriving DecidableEq

/-- How a call that needs an idle queue goes on. -/
inductive Admission
  /-- The queue is idle and the call runs at once. -/
  | granted
  /-- The call waits for the worker. -/
  | deferred
  | refused (e : SessionError)
  deriving DecidableEq

/-- The tasks that wait for the worker and the one that it runs. -/
structure WorkQueue (α : Type) where
  /-- The accepted tasks that have not started, the oldest first. -/
  waiting : List (Task α) := []
  running : Option (Task α) := none
  /-- No more tasks are accepted. -/
  isStopped : Bool := false
  /-- Whoever stopped the queue is waiting for the worker to end. -/
  isJoined : Bool := false
  /-- The lines of the tasks that gave up, the oldest first. -/
  failures : List String := []

namespace WorkQueue

variable {α : Type}

/-- The number of waiting tasks. -/
def size (q : WorkQueue α) : Nat := q.waiting.length

/-- Whether no task is waiting or running. -/
def isIdle (q : WorkQueue α) : Bool := q.waiting.isEmpty && q.running.isNone

/-- Accepts a task, unless the queue is stopped. -/
def push (q : WorkQueue α) (t : Task α) : Except SessionError (WorkQueue α) :=
  if q.isStopped then .error .workerStopped else .ok { q with waiting := q.waiting ++ [t] }

/-- The worker starts the oldest task. -/
def take? (q : WorkQueue α) : Option (Task α × WorkQueue α) :=
  match q.running, q.waiting with
  | none, t :: rest => some (t, { q with waiting := rest, running := some t })
  | _, _ => none

/-- The running task ends. -/
def finish (q : WorkQueue α) (e : TaskEnd) : WorkQueue α :=
  match q.running with
  | none => q
  | some t => { q with running := none, failures := q.failures ++ (e.failure? t.name).toList }

/-- No more tasks are accepted. -/
def stop (q : WorkQueue α) : WorkQueue α := { q with isStopped := true }

/-- Whoever stopped the queue begins to wait for the worker. -/
def join (q : WorkQueue α) : WorkQueue α := { q with isJoined := q.isJoined || q.isStopped }

/-- The worker has nothing more to do and ends. -/
def isOver (q : WorkQueue α) : Bool := q.isStopped && q.isIdle

/-- How a call that needs an idle queue goes on; `purpose` is the reason for which a running task
may not make it. -/
def admission (q : WorkQueue α) (purpose : String) : Caller → Admission
  | .worker => .refused (.invariantViolation purpose)
  | .client =>
    if q.isIdle then .granted
    else if q.isJoined then .refused .workerStopped
    else .deferred

/-- How a call that has the session for itself goes on. -/
def exclusiveAdmission (q : WorkQueue α) : Caller → Admission :=
  q.admission "synchronous call issued from the worker thread"

/-- How a call that waits until all tasks have ended goes on. -/
def waitAdmission (q : WorkQueue α) : Caller → Admission :=
  q.admission "worker thread waiting on itself"

end WorkQueue

end Reflow
