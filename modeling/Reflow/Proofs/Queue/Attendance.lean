import Mathlib.Data.List.Forall2
import Mathlib.Data.List.Nodup
import Reflow.Proofs.Queue.Office
/-!
# Clients, tasks and tickets

Three things are kept by every step of an office. Each client waits with one call at most, so it is decided
about its calls in the order in which it has made them. The tasks of the queue are the operations of the
calls that wait for the worker, and whoever does something is alone: a client that has the queue for itself
has found it idle. The tickets are answered in the order in which they are given out.

## Main definitions

* `Office.made`, `Office.admitted`, `Office.performed`: the calls that were made, let in and performed.
* `Office.Attended`: what is kept about the clients.
* `Office.Manned`: what is kept about the queue.
* `Office.Ticketed`: what is kept about the tickets.

## Main results

* `Office.Attended.step`, `Office.Manned.step`, `Office.Ticketed.step`: they are kept.
* `Office.Manned.others`: whoever does something is alone.
-/

namespace Reflow

namespace Office

/-! ### What was done -/

/-- The call that is made. -/
def Act.made? : Act → Option Call
  | .make c => some c
  | _ => none

/-- The call about whose admission is decided. -/
def Act.decided? : Act → Option Call
  | .accept c _ => some c
  | .dismiss c => some c
  | .reject c _ => some c
  | _ => none

/-- The call that is let in. -/
def Act.admitted? : Act → Option Call
  | .accept c _ => some c
  | _ => none

/-- The ticket that is given out, and the call for which it is. -/
def Act.ticketed? : Act → Option (Nat × Call)
  | .accept c ticket => ticket.map (·, c)
  | _ => none

/-- The call that is performed. -/
def Act.performed? : Act → Option Call
  | .perform c => some c
  | _ => none

/-- The call that is answered. -/
def Act.given? : Act → Option Call
  | .answer c _ => some c
  | .reply c _ => some c
  | _ => none

/-- The calls that were made, the oldest first. -/
def made (acts : List Act) : List Call := acts.filterMap Act.made?

/-- The calls about whose admission was decided, in this order. -/
def decided (acts : List Act) : List Call := acts.filterMap Act.decided?

/-- The calls that were let in, in this order. -/
def admitted (acts : List Act) : List Call := acts.filterMap Act.admitted?

/-- The tickets that were given out, with the calls for which they are. -/
def ticketed (acts : List Act) : List (Nat × Call) := acts.filterMap Act.ticketed?

/-- The calls that were performed, in this order. -/
def performed (acts : List Act) : List Call := acts.filterMap Act.performed?

section

variable (acts : List Act) (a : Act)

theorem filterMap_concat {β : Type} (f : Act → Option β) :
    (acts ++ [a]).filterMap f = acts.filterMap f ++ (f a).toList := by
  rw [List.filterMap_append, List.filterMap_cons]
  cases f a <;> rfl

theorem made_concat : made (acts ++ [a]) = made acts ++ a.made?.toList := filterMap_concat ..

theorem decided_concat : decided (acts ++ [a]) = decided acts ++ a.decided?.toList := filterMap_concat ..

theorem admitted_concat : admitted (acts ++ [a]) = admitted acts ++ a.admitted?.toList :=
  filterMap_concat ..

theorem ticketed_concat : ticketed (acts ++ [a]) = ticketed acts ++ a.ticketed?.toList :=
  filterMap_concat ..

theorem performed_concat : performed (acts ++ [a]) = performed acts ++ a.performed?.toList :=
  filterMap_concat ..

end

variable {o o' : Office} {acts : List Act} {a : Act} {c : Call}

/-! ### The clients -/

/-- The calls of each client are decided about in the order in which it made them; each client waits with
one call at most. -/
structure Attended (acts : List Act) (o : Office) : Prop where
  calls : ∀ client, (made acts).filter (·.client == client) =
    (decided acts).filter (·.client == client) ++ (o.pending client).toList
  own : ∀ client c, o.pending client = some c → c.client = client
  numbers : (made acts).map Call.number = List.range o.count
  once : (decided acts).Nodup
  rejected : ∀ c e, .reject c e ∈ acts → e = .workerStopped

/-- A call that waits to be let in was not decided about. -/
theorem Attended.pending (h : Attended acts o) (hcall : o.pending c.client = some c) :
    c ∉ decided acts := by
  intro hc
  -- the calls of a client are all different, and this one comes after those that were decided about
  have hmade : (made acts).Nodup := .of_map _ (h.numbers ▸ List.nodup_range)
  have hnodup := hmade.filter (·.client == c.client)
  rw [h.calls, hcall] at hnodup
  exact (List.disjoint_of_nodup_append hnodup) (List.mem_filter.2 ⟨hc, beq_self_eq_true _⟩)
    (List.mem_singleton_self c)

/-- No call is made, and about none is decided. -/
theorem Attended.unchanged (h : Attended acts o) (hmade : a.made? = none) (hdecided : a.decided? = none)
    (hpending : o'.pending = o.pending) (hcount : o'.count = o.count) : Attended (acts ++ [a]) o' := by
  constructor
  · rw [made_concat, decided_concat, hmade, hdecided, Option.toList_none, List.append_nil, List.append_nil,
      hpending]
    exact h.calls
  · rw [hpending]
    exact h.own
  · rw [made_concat, hmade, Option.toList_none, List.append_nil, hcount]
    exact h.numbers
  · rw [decided_concat, hdecided, Option.toList_none, List.append_nil]
    exact h.once
  · intro c e hreject
    rcases List.mem_append.1 hreject with hreject | hreject
    · exact h.rejected c e hreject
    · obtain rfl := List.mem_singleton.1 hreject
      cases hdecided

/-- A client makes a call. -/
theorem Attended.make (h : Attended acts o) {client : Nat} {demand : Demand}
    (hfree : o.pending client = none) :
    Attended (acts ++ [.make ⟨client, o.count, demand⟩])
      { o with
        count := o.count + 1
        pending := Function.update o.pending client (some ⟨client, o.count, demand⟩) } := by
  constructor
  · intro other
    rw [made_concat, decided_concat, List.filter_append, h.calls]
    by_cases hother : client = other
    · subst hother
      simp [Act.made?, Act.decided?, hfree]
    · simp [Act.made?, Act.decided?, hother, Function.update_of_ne (Ne.symm hother)]
  · intro other c hc
    simp only [Function.update_apply] at hc
    by_cases hother : other = client
    · rw [if_pos hother] at hc
      cases hc
      exact hother.symm
    · rw [if_neg hother] at hc
      exact h.own other c hc
  · rw [made_concat, List.map_append, h.numbers, List.range_succ]
    rfl
  · rw [decided_concat]
    exact (List.append_nil _).symm ▸ h.once
  · intro c e hreject
    rcases List.mem_append.1 hreject with hreject | hreject
    · exact h.rejected c e hreject
    · cases List.mem_singleton.1 hreject

/-- About the call of a client is decided. -/
theorem Attended.decide (h : Attended acts o) (hcall : o.pending c.client = some c) (hmade : a.made? = none)
    (hdecided : a.decided? = some c) (hreason : ∀ e, a = .reject c e → e = .workerStopped)
    (hpending : o'.pending = (o.served c).pending) (hcount : o'.count = o.count) :
    Attended (acts ++ [a]) o' := by
  have hnew := h.pending hcall
  constructor
  · intro client
    rw [made_concat, decided_concat, hmade, hdecided, Option.toList_none, List.append_nil, hpending, h.calls,
      List.filter_append]
    by_cases hclient : c.client = client
    · subst hclient
      simp [served, hcall]
    · simp [served, hclient, Function.update_of_ne (Ne.symm hclient)]
  · intro client d hd
    rw [hpending] at hd
    by_cases hclient : client = c.client
    · simp [served, hclient] at hd
    · simp only [served, Function.update_of_ne hclient] at hd
      exact h.own client d hd
  · rw [made_concat, hmade, Option.toList_none, List.append_nil, hcount]
    exact h.numbers
  · rw [decided_concat, hdecided]
    exact List.nodup_append_comm.1 (List.nodup_cons.2 ⟨hnew, h.once⟩)
  · intro d e hreject
    rcases List.mem_append.1 hreject with hreject | hreject
    · exact h.rejected d e hreject
    · obtain rfl := List.mem_singleton.1 hreject
      obtain rfl := Option.some.inj hdecided
      exact hreason e rfl

/-- A call is not let in only if the queue is stopped. -/
theorem rejection?_eq {l : LiveSession} {d : Demand} {e : SessionError} (h : rejection? l d = some e) :
    e = .workerStopped := by
  cases d with
  | now errand =>
    simp only [rejection?, WorkQueue.exclusiveAdmission, WorkQueue.admission] at h
    by_cases hidle : l.queue.isIdle = true
    · simp [hidle] at h
    · by_cases hjoined : l.queue.isJoined = true <;> simp [hidle, hjoined] at h
      exact h.symm
  | queue p =>
    simp only [rejection?] at h
    cases hpost : l.post p with
    | ok r =>
      rw [hpost] at h
      cases h
    | error e' =>
      rw [hpost] at h
      cases h
      exact LiveSession.post_error hpost

theorem Attended.step (h : Attended acts o) (hstep : Step o a o') : Attended (acts ++ [a]) o' := by
  cases hstep with
  | make hfree demand => exact h.make hfree.1
  | post hcall => exact h.decide hcall rfl rfl (fun e he => by cases he) rfl rfl
  | enter hcall => exact h.decide hcall rfl rfl (fun e he => by cases he) rfl rfl
  | dismiss hcall => exact h.decide hcall rfl rfl (fun e he => by cases he) rfl rfl
  | reject hcall hfree hrejected =>
    refine h.decide hcall rfl rfl (fun e he => ?_) rfl rfl
    cases he
    exact rejection?_eq hrejected
  | _ => exact h.unchanged rfl rfl rfl rfl

/-! ### The queue -/

/-- A task in which the operation of a call is queued. -/
structure Carries (acts : List Act) (c : Call) (t : Task Job) : Prop where
  errand : c.errand = .operate t.work.operation
  name : t.name = t.work.operation.name
  ticket : ∀ n, t.work.ticket = some n → (n, c) ∈ ticketed acts

theorem Carries.concat {t : Task Job} (h : Carries acts c t) (a : Act) : Carries (acts ++ [a]) c t where
  errand := h.errand
  name := h.name
  ticket n hn := by
    rw [ticketed_concat]
    exact List.mem_append_left _ (h.ticket n hn)

/-- The calls whose operations are queued, and the one on which the worker is, are those of the tasks; a
client has the queue for itself only while it is idle. -/
structure Manned (acts : List Act) (o : Office) : Prop where
  waiting : List.Forall₂ (Carries acts) o.queued o.live.queue.waiting
  worker : Option.Rel (Carries acts ·.call) (o.duty .worker) o.live.queue.running
  idle : (o.duty .client).isSome → o.live.queue.isIdle = true

/-- The worker is on a call if and only if a task is running. -/
theorem Manned.running (h : Manned acts o) : o.live.queue.running = none ↔ o.duty .worker = none := by
  have hworker := h.worker
  generalize o.duty .worker = d, o.live.queue.running = t at hworker
  cases hworker <;> simp

/-- While the queue is idle, the worker is on no call. -/
theorem Manned.worker_eq_none (h : Manned acts o) (hidle : o.live.queue.isIdle = true) :
    o.duty .worker = none := h.running.1 (WorkQueue.isIdle_iff.1 hidle).2

/-- Whoever does something is alone. -/
theorem Manned.others (h : Manned acts o) {who other : Caller} {d : Duty} (hd : o.duty who = some d)
    (hne : other ≠ who) : o.duty other = none := by
  cases who with
  | client =>
    cases other with
    | client => exact absurd rfl hne
    | worker => exact h.worker_eq_none (h.idle (by rw [hd]; rfl))
  | worker =>
    cases other with
    | client =>
      refine Option.not_isSome_iff_eq_none.1 fun hclient => ?_
      cases hd.symm.trans (h.worker_eq_none (h.idle hclient))
    | worker => exact absurd rfl hne

/-- While a client has the queue for itself, it stays idle. -/
theorem Manned.idle_step (h : Manned acts o) (hstep : Step o a o') (hclient : (o'.duty .client).isSome) :
    o'.live.queue.isIdle = true := by
  have hholder (o : Office) : o.workshop.holder.isSome = (o.duty .client).isSome := Option.isSome_map
  have hidle : o.workshop.holder.isSome → o.workshop.queue.isIdle = true := by
    rw [hholder]
    exact h.idle
  rw [← hholder] at hclient
  rcases hstep.workshop with heq | ⟨b, hb⟩
  · rw [heq] at hclient
    exact (congrArg (·.queue.isIdle) heq).trans (hidle hclient)
  · exact hb.idle hidle hclient

theorem rel_concat {d d' : Option Duty} {t : Option (Task Job)} (h : Option.Rel (Carries acts ·.call) d t)
    (hcall : d'.map Duty.call = d.map Duty.call) : Option.Rel (Carries (acts ++ [a]) ·.call) d' t := by
  cases h with
  | some hcarries =>
    obtain ⟨d'', rfl, hsame⟩ := Option.map_eq_some_iff.1 hcall
    exact .some (hsame ▸ hcarries.concat a)
  | none =>
    rw [Option.map_eq_none_iff.1 hcall]
    exact .none

theorem forall₂_concat {calls : List Call} {tasks : List (Task Job)}
    (h : List.Forall₂ (Carries acts) calls tasks) : List.Forall₂ (Carries (acts ++ [a])) calls tasks :=
  h.imp fun _ _ h => h.concat a

/-- Nothing happens to the tasks and to the calls for which they are. -/
theorem Manned.unchanged (h : Manned acts o)
    (hidle : (o'.duty .client).isSome → o'.live.queue.isIdle = true) (hqueued : o'.queued = o.queued)
    (hduty : (o'.duty .worker).map Duty.call = (o.duty .worker).map Duty.call)
    (hwaiting : o'.live.queue.waiting = o.live.queue.waiting)
    (hrunning : o'.live.queue.running = o.live.queue.running) : Manned (acts ++ [a]) o' where
  waiting := by
    rw [hqueued, hwaiting]
    exact forall₂_concat h.waiting
  worker := by
    rw [hrunning]
    exact rel_concat h.worker hduty
  idle := hidle

theorem map_call_assign {who : Caller} {d : Duty} {stage : Stage} {live : LiveSession}
    (hd : o.duty who = some d) (other : Caller) :
    (({ o with live }.assign who (some { d with stage })).duty other).map Duty.call =
      (o.duty other).map Duty.call := by
  by_cases hother : other = who
  · rw [hother, assign_duty, hd, Option.map_some, Option.map_some]
  · rw [assign_duty_of_ne hother]

/-- What is queued for a call carries its operation, with the ticket that is given out. -/
theorem carries_task {p : Parcel} (hdemand : c.demand = .queue p) (next : Nat) :
    Carries (acts ++ [.accept c (p.ticket? next)]) c (p.task next) where
  errand := congrArg Demand.errand hdemand
  name := rfl
  ticket n hn := by
    have hticket : p.ticket? next = some n := hn
    rw [ticketed_concat, hticket]
    exact List.mem_append_right _ (List.mem_singleton_self _)

theorem Manned.step (h : Manned acts o) (hstep : Step o a o') : Manned (acts ++ [a]) o' := by
  have hidle := h.idle_step hstep
  cases hstep with
  | post hcall hdemand hfree hpost =>
    rcases LiveSession.post_cases hpost with ⟨hr, -⟩ | ⟨hr, queue, hpush, rfl⟩
    · cases hr
    cases hr
    obtain ⟨-, rfl⟩ := WorkQueue.push_eq_ok.1 hpush
    exact ⟨List.rel_append (forall₂_concat h.waiting) (.cons (carries_task hdemand _) .nil),
      rel_concat h.worker rfl, hidle⟩
  | take hfree hhere htake hqueued =>
    obtain ⟨hrunning, waiting, hwaiting, rfl⟩ := WorkQueue.take?_eq_some.1 htake
    have hcarried := h.waiting
    rw [hqueued, hwaiting] at hcarried
    obtain ⟨hcarries, hrest⟩ := List.forall₂_cons.1 hcarried
    refine ⟨forall₂_concat hrest, ?_, hidle⟩
    rw [assign_duty]
    exact .some (hcarries.concat _)
  | finish hfree hduty =>
    cases hrunning : o.live.queue.running with
    | none => cases hduty.symm.trans (h.running.1 hrunning)
    | some t =>
      have hfinish (e : TaskEnd) := WorkQueue.finish_eq hrunning e
      refine ⟨?_, ?_, hidle⟩
      · simpa only [assign, hfinish] using forall₂_concat h.waiting
      · simp only [assign, hfinish]
        exact .none
  | dismiss hcall hdemand hpost =>
    rcases LiveSession.post_cases hpost with ⟨-, rfl⟩ | ⟨hr, -⟩
    · exact h.unchanged hidle rfl rfl rfl rfl
    · cases hr
  | perform hduty hout =>
    obtain ⟨-, -, -, -, rfl⟩ := LiveSession.carryOut_cases hout
    exact h.unchanged hidle rfl (map_call_assign hduty .worker) rfl rfl
  | tell hduty htell =>
    obtain ⟨-, -, -, -, rfl⟩ := LiveSession.tell_cases htell
    exact h.unchanged hidle rfl (map_call_assign hduty .worker) rfl rfl
  | reply hduty => exact h.unchanged hidle rfl (map_call_assign hduty .worker) rfl rfl
  | _ => exact h.unchanged hidle rfl rfl rfl rfl

/-! ### The tickets -/

/-- The task that the worker is on and has not answered. -/
def unanswered (o : Office) : Option (Task Job) :=
  (o.duty .worker).bind fun d => if d.stage.isOpen then o.live.queue.running else none

/-- The tickets for which there is no answer yet. -/
def owed (o : Office) : List Nat :=
  (o.unanswered.bind (·.work.ticket)).toList ++ o.live.queue.waiting.filterMap (·.work.ticket)

/-- The tickets are given out one after the other and answered in this order, each once and as the worker
answers the call for which it is. -/
structure Ticketed (acts : List Act) (o : Office) : Prop where
  tickets : (ticketed acts).map Prod.fst = List.range o.live.nextTicket
  owed : List.range o.live.nextTicket = o.live.replies.map Prod.fst ++ o.owed
  replies : ∀ n answer, (n, answer) ∈ o.live.replies → ∃ c, (n, c) ∈ ticketed acts ∧ .reply c answer ∈ acts

/-- No ticket is given out and none is answered. -/
theorem Ticketed.unchanged (h : Ticketed acts o) (hticketed : a.ticketed? = none)
    (hnext : o'.live.nextTicket = o.live.nextTicket) (hreplies : o'.live.replies = o.live.replies)
    (howed : o'.owed = o.owed) : Ticketed (acts ++ [a]) o' where
  tickets := by
    rw [ticketed_concat, hticketed, hnext]
    simpa using h.tickets
  owed := by
    rw [hnext, hreplies, howed]
    exact h.owed
  replies n answer hmem := by
    rw [hreplies] at hmem
    obtain ⟨c, hc, hreply⟩ := h.replies n answer hmem
    rw [ticketed_concat]
    exact ⟨c, List.mem_append_left _ hc, List.mem_append_left _ hreply⟩

theorem owed_of_closed (h : ∀ d, o.duty .worker = some d → d.stage.isOpen = false) :
    o.owed = o.live.queue.waiting.filterMap (·.work.ticket) := by
  have hnone : o.unanswered = none := by
    unfold unanswered
    cases hd : o.duty .worker with
    | none => rfl
    | some d => rw [Option.bind_some, h d hd, if_neg Bool.false_ne_true]
  rw [owed, hnone]
  rfl

theorem owed_of_open {d : Duty} {t : Task Job} (hd : o.duty .worker = some d) (hopen : d.stage.isOpen = true)
    (hrunning : o.live.queue.running = some t) :
    o.owed = t.work.ticket.toList ++ o.live.queue.waiting.filterMap (·.work.ticket) := by
  rw [owed, unanswered, hd, Option.bind_some, if_pos hopen, hrunning, Option.bind_some]

theorem owed_assign {who : Caller} {d : Duty} {stage : Stage} {live : LiveSession}
    (hd : o.duty who = some d) (hopen : stage.isOpen = d.stage.isOpen) (hqueue : live.queue = o.live.queue) :
    ({ o with live }.assign who (some { d with stage })).owed = o.owed := by
  unfold owed unanswered
  cases who with
  | client => rw [assign_duty_of_ne (by decide)]; simp only [assign, hqueue]
  | worker => rw [assign_duty, hd]; simp only [assign, hqueue, Option.bind_some, hopen]

theorem Ticketed.step (h : Ticketed acts o) (hm : Manned acts o) (hstep : Step o a o') :
    Ticketed (acts ++ [a]) o' := by
  cases hstep with
  | @post c p ticket live hcall hdemand hfree hpost =>
    rcases LiveSession.post_cases hpost with ⟨hr, -⟩ | ⟨hr, queue, hpush, rfl⟩
    · cases hr
    cases hr
    obtain ⟨-, rfl⟩ := WorkQueue.push_eq_ok.1 hpush
    have hrange : List.range (o.live.nextTicket + (p.ticket? o.live.nextTicket).toList.length) =
        List.range o.live.nextTicket ++ (p.ticket? o.live.nextTicket).toList := by
      cases p with
      | later op => exact List.range_succ
      | news subtree => exact (List.append_nil _).symm
    refine ⟨?_, ?_, fun n answer hmem => ?_⟩
    · rw [hrange, ticketed_concat, List.map_append, h.tickets]
      cases p <;> rfl
    · rw [hrange, h.owed, List.append_assoc, Office.owed, List.append_assoc]
      refine congrArg (_ ++ ·) (congrArg (_ ++ ·) ?_)
      rw [List.filterMap_append]
      exact congrArg (_ ++ ·) (by cases p <;> rfl)
    · obtain ⟨c, hc, hreply⟩ := h.replies n answer hmem
      rw [ticketed_concat]
      exact ⟨c, List.mem_append_left _ hc, List.mem_append_left _ hreply⟩
  | @take c rest t queue hfree hhere htake hqueued =>
    obtain ⟨hrunning, waiting, hwaiting, rfl⟩ := WorkQueue.take?_eq_some.1 htake
    have hclosed (d : Duty) (hd : o.duty .worker = some d) : d.stage.isOpen = false := by
      cases (hm.running.1 hrunning).symm.trans hd
    refine h.unchanged rfl rfl rfl ?_
    rw [owed_of_open (assign_duty ..) rfl rfl, owed_of_closed hclosed, hwaiting, List.filterMap_cons]
    cases t.work.ticket <;> rfl
  | finish hfree hduty =>
    have hclosed (d : Duty) (hd : o.duty .worker = some d) : d.stage.isOpen = false := by
      cases hduty.symm.trans hd
      rfl
    refine h.unchanged rfl rfl rfl ?_
    rw [owed_of_closed hclosed, owed_of_closed fun d hd => by cases hd.symm.trans (assign_duty ..)]
    exact congrArg _ (WorkQueue.finish_waiting ..)
  | dismiss hcall hdemand hpost =>
    rcases LiveSession.post_cases hpost with ⟨-, rfl⟩ | ⟨hr, -⟩
    · exact h.unchanged rfl rfl rfl rfl
    · cases hr
  | perform hduty hout =>
    obtain ⟨-, hopen, -, -, rfl⟩ := LiveSession.carryOut_cases hout
    exact h.unchanged rfl rfl rfl (owed_assign hduty hopen rfl)
  | tell hduty htell =>
    obtain ⟨-, hopen, -, -, rfl⟩ := LiveSession.tell_cases htell
    exact h.unchanged rfl rfl rfl (owed_assign hduty hopen rfl)
  | @reply d t answer ending hduty hrunning houtcome =>
    have hworker := hm.worker
    rw [hduty, hrunning] at hworker
    obtain ⟨hcarries⟩ := hworker
    obtain ⟨-, hopen, -⟩ := Stage.outcome?_cases houtcome
    refine ⟨?_, ?_, fun n given hmem => ?_⟩
    · rw [ticketed_concat]
      exact (List.append_nil _).symm ▸ h.tickets
    · -- the ticket goes over from those that are owed to those that are answered
      rw [owed_of_closed fun d hd => by cases hd.symm.trans (assign_duty ..); rfl]
      refine h.owed.trans ?_
      rw [owed_of_open hduty hopen hrunning, ← List.append_assoc]
      refine congrArg (· ++ _) ?_
      cases hticket : t.work.ticket <;> simp [assign, LiveSession.reply, hticket]
    · rw [ticketed_concat]
      rcases List.mem_append.1 hmem with hmem | hmem
      · obtain ⟨c, hc, hreply⟩ := h.replies n given hmem
        exact ⟨c, List.mem_append_left _ hc, List.mem_append_left _ hreply⟩
      · obtain ⟨ticket, hticket, heq⟩ := Option.map_eq_some_iff.1 (Option.mem_toList.1 hmem)
        cases heq
        exact ⟨d.call, List.mem_append_left _ (hcarries.ticket _ hticket),
          List.mem_append_right _ (List.mem_singleton_self _)⟩
  | _ => exact h.unchanged rfl rfl rfl rfl

end Office

end Reflow
