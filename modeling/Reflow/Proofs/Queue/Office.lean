import Mathlib.Logic.Function.Basic
import Reflow.Proofs.Queue.Interleaving
import Reflow.Session.Live
/-!
# A live session and its clients

Any number of clients make calls of one live session. A call is let in when its operation is queued or,
if the client waits for the result, when the queue is idle; in this case the client itself has the session
do it, and nobody else gets at the queue meanwhile. The worker does what is queued. The client and the
worker have only some moments in common: letting in, taking a task and ending one need the queue, doing
something needs the session, and telling the host needs neither. All of them mix in any order.

## Main definitions

* `Errand`: what can be done to a session for a client, with `Errand.perform`.
* `Call`: an errand with the client that asks for it and the way in which it does.
* `Stage`: how far an errand has got.
* `Office`: a live session with its clients and its worker.
* `Office.Act`, `Office.Step`: what is done, and one step of it.

## Main results

* `Office.Step.workshop`: an office is a workshop whose tasks are the queued operations.
* `Office.work_steps`, `Office.settle_steps`, `Office.call_steps`: what a live session does at one go is what
  its office does when nobody comes in between.
-/

namespace Reflow

/-! ### Errands -/

/-- What can be done to a session for a client. -/
inductive Errand
  | operate (o : Operation)
  | setOptions (new : Options)
  | options
  | globals
  | dump
  | globalCount
  /-- Nothing is done: the client only waits until it is let in. -/
  | wait

/-- What a client gets for an errand. -/
inductive Answer
  | reply (r : Reply)
  | options (options : Options)
  | globals (values : List (String × Snapshot))
  | dump (text : String)
  | globalCount (count : Nat)
  | done

namespace Errand

/-- The answer to an errand, the event that tells of it, if one does, and the session after it. -/
def perform (s : Session) : Errand → Answer × Option Event × Session
  | operate o =>
    let (reply, event, s) := o.perform s
    (.reply reply, some event, s)
  | setOptions new => (.done, none, s.setOptions new)
  | options => (.options s.options, none, s)
  | globals => (.globals s.globals, none, s)
  | dump => (.dump s.dump, none, s)
  | globalCount => (.globalCount s.memory.globalCount, none, s)
  | wait => (.done, none, s)

end Errand

/-- What a client has queued; queries that are queued together are as many parcels. -/
inductive Parcel
  /-- The client gets a ticket for the answer. -/
  | later (o : Operation)
  /-- The client does not get an answer. -/
  | news (subtree : SubtreeId)

namespace Parcel

/-- What is queued. -/
def operation : Parcel → Operation
  | later o => o
  | news subtree => .propertyChanged subtree

/-- The ticket that goes with a parcel, if `next` is the next one. -/
def ticket? (next : Nat) : Parcel → Option Nat
  | later _ => some next
  | news _ => none

/-- The task in which a parcel is queued, if `next` is the next ticket. -/
def task (next : Nat) (p : Parcel) : Task Job := ⟨p.operation.name, p.operation, p.ticket? next⟩

end Parcel

/-- In which way a client asks for something. -/
inductive Demand
  /-- The client waits for the result. -/
  | now (e : Errand)
  | queue (p : Parcel)

/-- What a client asks for. -/
def Demand.errand : Demand → Errand
  | now e => e
  | queue p => .operate p.operation

/-- A call of a client. -/
structure Call where
  client : Nat
  /-- The number of calls that were made before, by whichever client. -/
  number : Nat
  demand : Demand

/-- What is done for a call. -/
def Call.errand (c : Call) : Errand := c.demand.errand

/-! ### Stages -/

/-- How far an errand has got. -/
inductive Stage
  | fresh
  /-- The session has done it, and the host is yet to be told. -/
  | performed (a : Answer) (e : Event)
  | told (a : Answer)
  /-- The host has refused the event. -/
  | refused (reason : String)
  /-- The worker has answered. -/
  | answered (e : TaskEnd)

namespace Stage

/-- What the client that waits for the result gets. -/
def result? : Stage → Option (Except String Answer)
  | told a => some (.ok a)
  | refused reason => some (.error reason)
  | _ => none

/-- What the worker answers, and how it ends the task. -/
def outcome? (task : String) : Stage → Option (Except SessionError Reply × TaskEnd)
  | told (.reply r) => some (.ok r, .finished)
  | refused reason => some (.error (.taskDropped task), .gaveUp (some reason))
  | _ => none

/-- What can be known of the result. -/
def known? : Stage → Option (Except String Answer)
  | performed a _ => some (.ok a)
  | told a => some (.ok a)
  | refused reason => some (.error reason)
  | _ => none

/-- The event that the host is yet to be told. -/
def untold : Stage → List Event
  | performed _ e => [e]
  | _ => []

/-- Whether the session is yet to do it. -/
def isFresh : Stage → Bool
  | fresh => true
  | _ => false

/-- Whether nobody has answered yet. -/
def isOpen : Stage → Bool
  | answered _ => false
  | _ => true

variable {stage : Stage}

/-- A result is given when the host was told or has refused. -/
theorem result?_cases {r : Except String Answer} (h : stage.result? = some r) :
    stage.isFresh = false ∧ stage.untold = [] ∧ stage.known? = some r := by
  cases stage <;> cases h <;> exact ⟨rfl, rfl, rfl⟩

/-- The worker answers when the host was told or has refused. -/
theorem outcome?_cases {task : String} {answer : Except SessionError Reply} {ending : TaskEnd}
    (h : stage.outcome? task = some (answer, ending)) :
    stage.isFresh = false ∧ stage.isOpen = true ∧ stage.untold = [] ∧
      ((∃ r, answer = .ok r ∧ stage.known? = some (.ok (.reply r))) ∨
        ∃ reason, answer = .error (.taskDropped task) ∧ stage.known? = some (.error reason)) := by
  cases stage with
  | told a =>
    cases a with
    | reply r =>
      cases h
      exact ⟨rfl, rfl, rfl, .inl ⟨r, rfl, rfl⟩⟩
    | _ => cases h
  | refused reason =>
    cases h
    exact ⟨rfl, rfl, rfl, .inr ⟨reason, rfl, rfl⟩⟩
  | _ => cases h

end Stage

namespace LiveSession

/-- The session does an errand. -/
def carryOut (l : LiveSession) (e : Errand) : Stage × LiveSession :=
  let (a, event, session) := e.perform l.session
  (match event with
    | none => .told a
    | some event => .performed a event,
    { l with session })

/-- The host is told; it may refuse. -/
def tell (l : LiveSession) (a : Answer) (e : Event) : Stage × LiveSession :=
  (match l.refusal with
    | none => .told a
    | some reason => .refused reason,
    { l with events := l.events ++ [e] })

/-- The worker answers. -/
def reply (l : LiveSession) (t : Task Job) (answer : Except SessionError Reply) : LiveSession :=
  { l with replies := l.replies ++ (t.work.ticket.map (·, answer)).toList }

/-- What comes of an attempt to queue something. -/
inductive Receipt
  /-- There was nothing to queue. -/
  | nothing
  | queued (ticket : Option Nat)

/-- Queues what a client wants queued. -/
def post (l : LiveSession) : Parcel → Except SessionError (Receipt × LiveSession)
  | .later (.convert subtrees) => do
    let (ticket, l) ← l.submitConversion subtrees
    return (if ticket.isNone then .nothing else .queued ticket, l)
  | .later o => do
    let (ticket, l) ← l.submit o
    return (.queued (some ticket), l)
  | .news subtree => do
    let l ← l.notify subtree
    return (.queued none, l)

variable {l l' : LiveSession} {p : Parcel} {stage : Stage}

theorem carryOut_cases {e : Errand} (h : l.carryOut e = (stage, l')) :
    stage.isFresh = false ∧ stage.isOpen = true ∧ stage.untold = (e.perform l.session).2.1.toList ∧
      stage.known? = some (.ok (e.perform l.session).1) ∧
      l' = { l with session := (e.perform l.session).2.2 } := by
  obtain ⟨rfl, rfl⟩ := Prod.mk.inj h
  cases e <;> exact ⟨rfl, rfl, rfl, rfl, rfl⟩

theorem tell_cases {answer : Answer} {event : Event} (h : l.tell answer event = (stage, l')) :
    stage.isFresh = false ∧ stage.isOpen = true ∧ stage.untold = [] ∧
      (stage.known? = some (.ok answer) ∨
        ∃ reason, l.refusal = some reason ∧ stage.known? = some (.error reason)) ∧
      l' = { l with events := l.events ++ [event] } := by
  obtain ⟨rfl, rfl⟩ := Prod.mk.inj h
  cases hrefusal : l.refusal with
  | none => exact ⟨rfl, rfl, rfl, .inl rfl, rfl⟩
  | some reason => exact ⟨rfl, rfl, rfl, .inr ⟨reason, rfl, rfl⟩, rfl⟩

theorem post_eq (h : p ≠ .later (.convert [])) : l.post p =
    (l.queue.push (p.task l.nextTicket)).map fun queue => (.queued (p.ticket? l.nextTicket),
      { l with queue, nextTicket := l.nextTicket + (p.ticket? l.nextTicket).toList.length }) := by
  cases p with
  | news subtree =>
    simp only [post, notify, Parcel.task, Parcel.operation, Parcel.ticket?]
    cases l.queue.push _ <;> rfl
  | later o =>
    cases o with
    | convert subtrees =>
      have hsome : subtrees.isEmpty = false := by
        cases subtrees with
        | nil => exact absurd rfl h
        | cons subtree rest => rfl
      simp only [post, submitConversion, submit, Parcel.task, Parcel.operation, Parcel.ticket?, hsome,
        Bool.false_eq_true, if_false]
      cases l.queue.push _ <;> rfl
    | _ =>
      simp only [post, submit, Parcel.task, Parcel.operation, Parcel.ticket?]
      cases l.queue.push _ <;> rfl

theorem post_cases {r : Receipt} (h : l.post p = .ok (r, l')) : r = .nothing ∧ l' = l ∨
    r = .queued (p.ticket? l.nextTicket) ∧ ∃ queue, l.queue.push (p.task l.nextTicket) = .ok queue ∧
      l' = { l with queue, nextTicket := l.nextTicket + (p.ticket? l.nextTicket).toList.length } := by
  by_cases hp : p = .later (.convert [])
  · rw [hp] at h
    cases h
    exact .inl ⟨rfl, rfl⟩
  · rw [post_eq hp] at h
    cases hpush : l.queue.push (p.task l.nextTicket) with
    | error e =>
      rw [hpush] at h
      cases h
    | ok queue =>
      rw [hpush] at h
      cases h
      exact .inr ⟨rfl, queue, rfl, rfl⟩

theorem post_error {e : SessionError} (h : l.post p = .error e) : e = .workerStopped := by
  by_cases hp : p = .later (.convert [])
  · rw [hp] at h
    cases h
  · rw [post_eq hp, WorkQueue.push] at h
    by_cases hstopped : l.queue.isStopped = true
    · rw [if_pos hstopped] at h
      cases h
      rfl
    · rw [if_neg hstopped] at h
      cases h

end LiveSession

/-! ### The office -/

/-- What a client or the worker is doing. -/
structure Duty where
  call : Call
  errand : Errand
  stage : Stage := .fresh

/-- A live session, and what its clients and its worker are at. -/
@[ext]
structure Office where
  live : LiveSession
  /-- The number of calls that were made. -/
  count : Nat := 0
  /-- The call with which a client waits until it is let in. -/
  pending : Nat → Option Call := fun _ => none
  /-- What the client does that has the queue for itself, and what the worker does. -/
  duty : Caller → Option Duty := fun _ => none
  /-- The calls whose operations are queued, the oldest first. -/
  queued : List Call := []
  /-- The worker has ended. -/
  hasLeft : Bool := false

namespace Office

/-- What somebody does in an office. -/
inductive Act
  /-- A client makes a call. -/
  | make (c : Call)
  /-- A call is let in; if its operation is queued, it may get a ticket. -/
  | accept (c : Call) (ticket : Option Nat)
  /-- There is nothing to do for a call. -/
  | dismiss (c : Call)
  | reject (c : Call) (e : SessionError)
  /-- The worker takes the oldest task. -/
  | take (c : Call)
  /-- The session does what is asked for. -/
  | perform (c : Call)
  /-- The host is told; it may refuse the event. -/
  | tell (c : Call) (refusal : Option String)
  /-- The client that has waited gets the result. -/
  | answer (c : Call) (result : Except String Answer)
  /-- The worker answers a queued call. -/
  | reply (c : Call) (answer : Except SessionError Reply)
  /-- The worker ends its task. -/
  | finish (c : Call) (e : TaskEnd)
  /-- From now on the host takes events, or refuses them. -/
  | switch (refusal : Option String)
  | stop
  | join
  /-- The worker ends. -/
  | exit

/-- Whether a client is not busy with a call. -/
def Free (o : Office) (client : Nat) : Prop :=
  o.pending client = none ∧ ∀ d, o.duty .client = some d → d.call.client ≠ client

/-- An office in which a client no longer waits to be let in. -/
def served (o : Office) (c : Call) : Office :=
  { o with pending := Function.update o.pending c.client none }

/-- An office in which a client or the worker has something else to do. -/
def assign (o : Office) (who : Caller) (d : Option Duty) : Office :=
  { o with duty := Function.update o.duty who d }

/-- Why a call is not let in. -/
def rejection? (l : LiveSession) : Demand → Option SessionError
  | .now _ =>
    match l.queue.exclusiveAdmission .client with
    | .refused e => some e
    | _ => none
  | .queue p =>
    match l.post p with
    | .error e => some e
    | _ => none

/-- One step. Those that need the queue wait until no client has it for itself. -/
inductive Step : Office → Act → Office → Prop
  | make {o : Office} {client : Nat} (hfree : o.Free client) (demand : Demand) :
      Step o (.make ⟨client, o.count, demand⟩)
        { o with
          count := o.count + 1
          pending := Function.update o.pending client (some ⟨client, o.count, demand⟩) }
  | post {o : Office} {c : Call} {p : Parcel} {ticket : Option Nat} {live : LiveSession}
      (hcall : o.pending c.client = some c) (hdemand : c.demand = .queue p) (hfree : o.duty .client = none)
      (hpost : o.live.post p = .ok (.queued ticket, live)) :
      Step o (.accept c ticket) { o.served c with live, queued := o.queued ++ [c] }
  | enter {o : Office} {c : Call} {e : Errand} (hcall : o.pending c.client = some c)
      (hdemand : c.demand = .now e) (hfree : o.duty .client = none)
      (hgranted : o.live.queue.exclusiveAdmission .client = .granted) :
      Step o (.accept c none) ((o.served c).assign .client (some ⟨c, e, .fresh⟩))
  | dismiss {o : Office} {c : Call} {p : Parcel} {live : LiveSession} (hcall : o.pending c.client = some c)
      (hdemand : c.demand = .queue p) (hpost : o.live.post p = .ok (.nothing, live)) :
      Step o (.dismiss c) { o.served c with live }
  | reject {o : Office} {c : Call} {e : SessionError} (hcall : o.pending c.client = some c)
      (hfree : o.duty .client = none) (hrejected : rejection? o.live c.demand = some e) :
      Step o (.reject c e) (o.served c)
  | take {o : Office} {c : Call} {rest : List Call} {t : Task Job} {queue : WorkQueue Job}
      (hfree : o.duty .client = none) (hhere : o.hasLeft = false)
      (htake : o.live.queue.take? = some (t, queue)) (hqueued : o.queued = c :: rest) :
      Step o (.take c) ({ o with live := { o.live with queue }, queued := rest }.assign .worker
        (some ⟨c, .operate t.work.operation, .fresh⟩))
  | perform {o : Office} {who : Caller} {c : Call} {e : Errand} {stage : Stage} {live : LiveSession}
      (hduty : o.duty who = some ⟨c, e, .fresh⟩) (hout : o.live.carryOut e = (stage, live)) :
      Step o (.perform c) ({ o with live }.assign who (some ⟨c, e, stage⟩))
  | tell {o : Office} {who : Caller} {c : Call} {e : Errand} {answer : Answer} {event : Event} {stage : Stage}
      {live : LiveSession} (hduty : o.duty who = some ⟨c, e, .performed answer event⟩)
      (htell : o.live.tell answer event = (stage, live)) :
      Step o (.tell c o.live.refusal) ({ o with live }.assign who (some ⟨c, e, stage⟩))
  | answer {o : Office} {d : Duty} {result : Except String Answer} (hduty : o.duty .client = some d)
      (hresult : d.stage.result? = some result) : Step o (.answer d.call result) (o.assign .client none)
  | reply {o : Office} {d : Duty} {t : Task Job} {answer : Except SessionError Reply} {ending : TaskEnd}
      (hduty : o.duty .worker = some d) (hrunning : o.live.queue.running = some t)
      (houtcome : d.stage.outcome? t.name = some (answer, ending)) :
      Step o (.reply d.call answer) ({ o with live := o.live.reply t answer }.assign .worker
        (some { d with stage := .answered ending }))
  | finish {o : Office} {c : Call} {e : Errand} {ending : TaskEnd} (hfree : o.duty .client = none)
      (hduty : o.duty .worker = some ⟨c, e, .answered ending⟩) :
      Step o (.finish c ending)
        ({ o with live := { o.live with queue := o.live.queue.finish ending } }.assign .worker none)
  | switch {o : Office} (refusal : Option String) :
      Step o (.switch refusal) { o with live := { o.live with refusal } }
  | stop {o : Office} (hfree : o.duty .client = none) :
      Step o .stop { o with live := { o.live with queue := o.live.queue.stop } }
  | join {o : Office} : Step o .join { o with live := { o.live with queue := o.live.queue.join } }
  | exit {o : Office} (hfree : o.duty .client = none) (hhere : o.hasLeft = false)
      (hover : o.live.queue.isOver = true) : Step o .exit { o with hasLeft := true }

/-- The queue of an office. -/
def workshop (o : Office) : Workshop Job :=
  { queue := o.live.queue
    holder := (o.duty .client).map (·.call.client)
    hasLeft := o.hasLeft }

variable {o o' : Office} {a : Act} {acts : List Act}

@[simp] theorem assign_duty (who : Caller) (d : Option Duty) : (o.assign who d).duty who = d :=
  Function.update_self _ _ _

theorem assign_duty_of_ne {who other : Caller} (h : other ≠ who) (d : Option Duty) :
    (o.assign who d).duty other = o.duty other := Function.update_of_ne h _ _

/-- As long as the one who acts keeps its call, the queue does not see the act. -/
theorem workshop_assign {who : Caller} {d d' : Duty} {live : LiveSession} (hduty : o.duty who = some d)
    (hcall : d'.call = d.call) (hqueue : live.queue = o.live.queue) :
    ({ o with live }.assign who (some d')).workshop = o.workshop := by
  unfold workshop
  cases who with
  | client =>
    rw [assign_duty, hduty, Option.map_some, Option.map_some, hcall]
    exact congrArg (Workshop.mk · _ _) hqueue
  | worker =>
    rw [assign_duty_of_ne (by decide)]
    exact congrArg (Workshop.mk · _ _) hqueue

/-- An office is a workshop whose tasks are the queued operations. -/
theorem Step.workshop (hstep : Step o a o') :
    o'.workshop = o.workshop ∨ ∃ b, Workshop.Step o.workshop b o'.workshop := by
  have hholder : o.duty .client = none → o.workshop.holder = none := fun h => by
    rw [Office.workshop, h]; rfl
  cases hstep with
  | make => exact .inl rfl
  | reject => exact .inl rfl
  | switch => exact .inl rfl
  | dismiss hcall hdemand hpost =>
    rcases LiveSession.post_cases hpost with ⟨-, rfl⟩ | ⟨h, -⟩
    · exact .inl rfl
    · cases h
  | post hcall hdemand hfree hpost =>
    rcases LiveSession.post_cases hpost with ⟨h, -⟩ | ⟨-, queue, hpush, rfl⟩
    · cases h
    · exact .inr ⟨_, .accept (hholder hfree) hpush⟩
  | enter hcall hdemand hfree hgranted => exact .inr ⟨_, .enter (hholder hfree) hgranted _⟩
  | @answer d result hduty hresult =>
    have hheld : o.workshop.holder = some d.call.client := by rw [Office.workshop, hduty]; rfl
    exact .inr ⟨_, .leave hheld⟩
  | take hfree hhere htake hqueued => exact .inr ⟨_, .start (hholder hfree) hhere htake⟩
  | perform hduty hout =>
    cases hout
    exact .inl (workshop_assign hduty rfl rfl)
  | tell hduty htell =>
    cases htell
    exact .inl (workshop_assign hduty rfl rfl)
  | reply hduty hrunning houtcome => exact .inl (workshop_assign hduty rfl rfl)
  | @finish c e ending hfree hduty =>
    cases hrunning : o.live.queue.running with
    | none => exact .inl (congrArg (Workshop.mk · _ _) (WorkQueue.finish_of_none hrunning ending))
    | some t => exact .inr ⟨_, .finish (hholder hfree) hrunning _⟩
  | stop hfree => exact .inr ⟨_, .stop (hholder hfree)⟩
  | join => exact .inr ⟨_, .join⟩
  | exit hfree hhere hover => exact .inr ⟨_, .exit (hholder hfree) hhere hover⟩

/-! ### At one go -/

theorem assign_assign (who : Caller) (d d' : Option Duty) :
    (o.assign who d).assign who d' = o.assign who d' :=
  congrArg (Office.mk _ _ _ · _ _) (Function.update_idem _ _ _)

/-- Nobody is doing anything, and what is queued belongs to calls. -/
structure Resting (o : Office) : Prop where
  duty : ∀ who, o.duty who = none
  running : o.live.queue.running = none
  queued : o.queued.length = o.live.queue.waiting.length
  here : o.hasLeft = false

/-- The stage at which an operation is once the host was told of it. -/
def told (l : LiveSession) (op : Operation) : Stage :=
  match l.refusal with
  | none => .told (.reply (l.perform op).1)
  | some reason => .refused reason

/-- Whoever has an operation to do has the session do it and tells the host. -/
theorem perform_steps {who : Caller} {c : Call} {op : Operation}
    (hduty : o.duty who = some ⟨c, .operate op, .fresh⟩) :
    Steps Step o [.perform c, .tell c o.live.refusal]
      ({ o with live := (o.live.perform op).2 }.assign who (some ⟨c, .operate op, told o.live op⟩)) := by
  rcases hop : op.perform o.live.session with ⟨r, event, session⟩
  have hout : o.live.carryOut (.operate op) = (.performed (.reply r) event, { o.live with session }) := by
    simp only [LiveSession.carryOut, Errand.perform, hop]
  have hlive : o.live.perform op = (r, { o.live with session, events := o.live.events ++ [event] }) := by
    simp only [LiveSession.perform, hop]
  let asked := { o with live := { o.live with session } }.assign who
    (some ⟨c, .operate op, .performed (.reply r) event⟩)
  have htell : Step asked (.tell c o.live.refusal) _ := .tell (assign_duty who _) rfl
  rw [told, hlive, ← assign_assign who (some ⟨c, .operate op, .performed (.reply r) event⟩)]
  exact .cons (.perform hduty hout) (.cons htell .nil)

/-- What the worker answers once the host was told, and how it ends the task. -/
def concluded (l : LiveSession) (t : Task Job) : Except SessionError Reply × TaskEnd :=
  match l.refusal with
  | none => (.ok (l.perform t.work.operation).1, .finished)
  | some reason => (.error (.taskDropped t.name), .gaveUp (some reason))

theorem outcome?_told (l : LiveSession) (t : Task Job) :
    (told l t.work.operation).outcome? t.name = some (concluded l t) := by
  unfold told concluded
  cases l.refusal <;> rfl

theorem finishTask_eq (l : LiveSession) (t : Task Job) :
    l.finishTask t = { (l.perform t.work.operation).2.reply t (concluded l t).1 with
      queue := l.queue.finish (concluded l t).2 } := by
  have hrefusal : (l.perform t.work.operation).2.refusal = l.refusal := rfl
  have hqueue : (l.perform t.work.operation).2.queue = l.queue := rfl
  rw [LiveSession.finishTask, concluded]
  cases hl : l.refusal <;> rw [hl] at hrefusal <;> simp only [hrefusal, hqueue, LiveSession.reply]

/-- The worker takes a task and ends it. -/
theorem work_steps (h : o.Resting) {t : Task Job} {queue : WorkQueue Job} {c : Call} {rest : List Call}
    (htake : o.live.queue.take? = some (t, queue)) (hqueued : o.queued = c :: rest) :
    ∃ acts, Steps Step o acts { o with live := o.live.work, queued := rest } := by
  obtain ⟨-, waiting, -, hqueue⟩ := WorkQueue.take?_eq_some.1 htake
  let l : LiveSession := { o.live with queue }
  let taken := { o with live := l, queued := rest }.assign .worker
    (some ⟨c, .operate t.work.operation, .fresh⟩)
  have htaken : Step o (.take c) taken := .take (h.duty _) h.here htake hqueued
  have hperformed := perform_steps (assign_duty .worker _ : taken.duty _ = _)
  let performed := { taken with live := (l.perform t.work.operation).2 }.assign .worker
    (some ⟨c, .operate t.work.operation, told l t.work.operation⟩)
  have hrunning : performed.live.queue.running = some t := by
    show queue.running = some t
    rw [hqueue]
  have hreplied : Step performed (.reply c (concluded l t).1) _ :=
    .reply (assign_duty .worker _) hrunning (outcome?_told l t)
  let replied := { performed with live := performed.live.reply t (concluded l t).1 }.assign .worker
    (some ⟨c, .operate t.work.operation, .answered (concluded l t).2⟩)
  have hclient : replied.duty .client = none := by
    rw [assign_duty_of_ne (by decide), assign_duty_of_ne (by decide), assign_duty_of_ne (by decide)]
    exact h.duty _
  let finished := { replied with
    live := { replied.live with queue := replied.live.queue.finish (concluded l t).2 } }.assign .worker none
  have hfinished : Step replied (.finish c (concluded l t).2) finished :=
    .finish hclient (assign_duty .worker _)
  have hlive : o.live.work = finished.live := by
    rw [LiveSession.work, htake]
    exact finishTask_eq l t
  have hall : finished = { o with live := o.live.work, queued := rest } := by
    refine Office.ext hlive.symm rfl rfl (funext fun who => ?_) rfl rfl
    cases who with
    | client => exact (assign_duty_of_ne (by decide) _).trans (hclient.trans (h.duty _).symm)
    | worker => exact (assign_duty _ _).trans (h.duty _).symm
  exact ⟨_, hall ▸ Steps.append_iff.2 ⟨_, .cons htaken hperformed, .cons hreplied (.cons hfinished .nil)⟩⟩

theorem work_queue {l : LiveSession} {t : Task Job} {queue : WorkQueue Job}
    (htake : l.queue.take? = some (t, queue)) :
    l.work.queue.running = none ∧ l.work.queue.waiting = queue.waiting := by
  obtain ⟨-, waiting, -, hqueue⟩ := WorkQueue.take?_eq_some.1 htake
  have hrunning : queue.running = some t := by rw [hqueue]
  rw [LiveSession.work, htake]
  simp only [finishTask_eq, WorkQueue.finish_eq hrunning, and_self]

theorem Resting.work (h : o.Resting) {t : Task Job} {queue : WorkQueue Job} {c : Call} {rest : List Call}
    (htake : o.live.queue.take? = some (t, queue)) (hqueued : o.queued = c :: rest) :
    Resting { o with live := o.live.work, queued := rest } where
  duty := h.duty
  running := (work_queue htake).1
  queued := by
    obtain ⟨-, waiting, hwaiting, rfl⟩ := WorkQueue.take?_eq_some.1 htake
    have hlength := h.queued
    rw [hqueued, hwaiting] at hlength
    rw [(work_queue htake).2]
    exact Nat.succ_inj.1 hlength
  here := h.here

/-- The worker ends all tasks that wait. -/
theorem settle_steps (h : o.Resting) :
    ∃ acts, Steps Step o acts { o with live := o.live.settle, queued := [] } ∧
      o.live.settle.queue.isIdle = true := by
  unfold LiveSession.settle
  generalize hsize : o.live.queue.size = size
  induction size generalizing o with
  | zero =>
    have hwaiting := List.length_eq_zero_iff.1 hsize
    have hqueued := List.length_eq_zero_iff.1 (h.queued.trans hsize)
    have hsame : { o with queued := [] } = o := Office.ext rfl rfl rfl rfl hqueued.symm rfl
    exact ⟨[], by rw [LiveSession.workTimes, hsame]; exact .nil, WorkQueue.isIdle_iff.2 ⟨hwaiting, h.running⟩⟩
  | succ size ih =>
    obtain ⟨t, waiting, hwaiting⟩ := List.exists_cons_of_length_eq_add_one hsize
    obtain ⟨c, rest, hqueued⟩ := List.exists_cons_of_length_eq_add_one (h.queued.trans hsize)
    have htake := WorkQueue.take?_eq_some.2 ⟨h.running, waiting, hwaiting, rfl⟩
    have hrest : o.live.work.queue.size = size := by
      rw [WorkQueue.size, (work_queue htake).2]
      rw [WorkQueue.size, hwaiting] at hsize
      exact Nat.succ_inj.1 hsize
    obtain ⟨acts, hacts⟩ := work_steps h htake hqueued
    obtain ⟨more, hmore, hidle⟩ := ih (h.work htake hqueued) hrest
    exact ⟨_, Steps.append_iff.2 ⟨_, hacts, hmore⟩, hidle⟩

theorem call_eq (l : LiveSession) (op : Operation) :
    (told l.settle op).result? = some ((l.call op).1.map .reply) ∧
      (l.call op).2 = (l.settle.perform op).2 := by
  have hrefusal : (l.settle.perform op).2.refusal = l.settle.refusal := rfl
  unfold told LiveSession.call
  cases hl : l.settle.refusal <;> rw [hl] at hrefusal <;> simp only [hrefusal] <;> exact ⟨rfl, trivial⟩

/-- A client calls for an operation. -/
theorem call_steps (h : o.Resting) {client : Nat} (hpending : o.pending client = none) (op : Operation) :
    ∃ acts, Steps Step o
      (acts ++ [.answer ⟨client, o.count, .now (.operate op)⟩ ((o.live.call op).1.map .reply)])
      { o with live := (o.live.call op).2, count := o.count + 1, queued := [] } := by
  obtain ⟨acts, hacts, hidle⟩ := settle_steps h
  obtain ⟨hresult, hlive⟩ := call_eq o.live op
  let c : Call := ⟨client, o.count, .now (.operate op)⟩
  let settled := { o with live := o.live.settle, queued := [] }
  let made := { settled with count := o.count + 1, pending := Function.update o.pending client (some c) }
  have hfree : settled.Free client := ⟨hpending, fun d hd => by cases (h.duty .client).symm.trans hd⟩
  have hmade : Step settled (.make c) made := .make hfree _
  let entered := (made.served c).assign .client (some ⟨c, .operate op, .fresh⟩)
  have hentered : Step made (.accept c none) entered :=
    .enter (Function.update_self _ _ _) rfl (h.duty _) (WorkQueue.granted_iff.2 ⟨rfl, hidle⟩)
  have hperformed := perform_steps (assign_duty .client _ : entered.duty _ = _)
  let performed := { entered with live := (o.live.settle.perform op).2 }.assign .client
    (some ⟨c, .operate op, told o.live.settle op⟩)
  have hanswered : Step performed (.answer c _) (performed.assign .client none) :=
    .answer (assign_duty .client _) hresult
  have hall : performed.assign .client none =
      { o with live := (o.live.call op).2, count := o.count + 1, queued := [] } := by
    refine Office.ext hlive.symm rfl ?_ (funext fun who => ?_) rfl rfl
    · exact (Function.update_idem _ _ _).trans (Function.update_eq_self_iff.2 hpending.symm)
    · cases who with
      | client => exact (assign_duty _ _).trans (h.duty _).symm
      | worker => rfl
  refine ⟨acts ++ ([.make c, .accept c none] ++ [.perform c, .tell c o.live.settle.refusal]), ?_⟩
  rw [← hall]
  exact Steps.append_iff.2 ⟨_, Steps.append_iff.2 ⟨_, hacts,
    Steps.append_iff.2 ⟨_, .cons hmade (.cons hentered .nil), hperformed⟩⟩, .cons hanswered .nil⟩

end Office

end Reflow
