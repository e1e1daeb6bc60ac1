import Reflow.Session.WorkQueue
/-!
# The queue under any interleaving

Producers hand in tasks, clients ask for the queue for themselves or wait until it is idle, one of them
stops it, and the worker takes the tasks. Each of them does one step at a time, and a step that needs the
queue is possible only while no client has it for itself. The steps of all of them mix in any order.

## Main definitions

* `Steps`: any number of steps, with what is done in them.
* `Workshop`: the queue with the client that has it for itself.
* `Workshop.Act`, `Workshop.Step`: what is done, and one step of it.
* `Workshop.Orderly`: what the queue promises to all of them.

## Main results

* `Workshop.Accounts.step`: every accepted task has ended, is running or waits.
* `Steps.undisturbed`: what holds once something has begun is kept until it is over.
* `Workshop.orderly`: whatever the interleaving, the queue keeps its promises.
-/

namespace Reflow

/-- Any number of steps, with what is done in them. -/
inductive Steps {σ ι : Type} (step : σ → ι → σ → Prop) : σ → List ι → σ → Prop
  | nil {s : σ} : Steps step s [] s
  | cons {s s' s'' : σ} {a : ι} {acts : List ι} (hstep : step s a s') (hrest : Steps step s' acts s'') :
      Steps step s (a :: acts) s''

/-- From the time at which something begins until it is over, nothing bad is done. -/
def Undisturbed {ι : Type} (acts : List ι) (begins : ι) (ends bad : ι → Prop) : Prop :=
  ∀ before during after, acts = before ++ begins :: (during ++ after) → (∀ a ∈ during, ¬ ends a) →
    ∀ a ∈ during, ¬ bad a

namespace Steps

variable {σ ι : Type} {step : σ → ι → σ → Prop} {s s' s'' : σ} {acts more : List ι}

theorem append_iff : Steps step s (acts ++ more) s'' ↔
    ∃ s', Steps step s acts s' ∧ Steps step s' more s'' := by
  induction acts generalizing s with
  | nil => exact ⟨fun h => ⟨s, .nil, h⟩, fun ⟨_, h, h'⟩ => by cases h; exact h'⟩
  | cons a acts ih =>
    constructor
    · rintro (_ | ⟨hstep, hrest⟩)
      obtain ⟨s', h, h'⟩ := ih.1 hrest
      exact ⟨s', .cons hstep h, h'⟩
    · rintro ⟨s', _ | ⟨hstep, hrest⟩, h'⟩
      exact .cons hstep (ih.2 ⟨s', hrest, h'⟩)

/-- What a step keeps, said of all that was done and of the state, holds all the while. -/
theorem invariant {P : List ι → σ → Prop}
    (hkeeps : ∀ acts s a s', P acts s → step s a s' → P (acts ++ [a]) s')
    (hsteps : Steps step s acts s') {before : List ι} (h : P before s) : P (before ++ acts) s' := by
  induction hsteps generalizing before with
  | nil => rwa [List.append_nil]
  | cons hstep _ ih =>
    have := ih (hkeeps _ _ _ _ h hstep)
    rwa [List.append_assoc] at this

/-- What holds once something has begun is kept by every step until it is over, and what is bad is
impossible meanwhile. -/
theorem undisturbed (hsteps : Steps step s acts s') {P : σ → Prop} {begins : ι} {ends bad : ι → Prop}
    (hbegins : ∀ s s', step s begins s' → P s')
    (hkeeps : ∀ s a s', P s → step s a s' → ¬ ends a → P s' ∧ ¬ bad a) :
    Undisturbed acts begins ends bad := by
  rintro before during after rfl hends
  obtain ⟨s₁, -, _ | ⟨hbegin, hrest⟩⟩ := append_iff.1 hsteps
  obtain ⟨s₂, hduring, -⟩ := append_iff.1 hrest
  have hP := hbegins _ _ hbegin
  clear hsteps hbegin hrest
  induction hduring with
  | nil => exact fun a ha => by cases ha
  | cons hstep _ ih =>
    obtain ⟨hend, hends⟩ := List.forall_mem_cons.1 hends
    obtain ⟨hP, hgood⟩ := hkeeps _ _ _ hP hstep hend
    exact List.forall_mem_cons.2 ⟨hgood, ih hends hP⟩

end Steps

/-- The queue, and what its worker and its clients are at. -/
structure Workshop (α : Type) where
  queue : WorkQueue α := {}
  /-- The client that has the queue for itself and runs its closure. -/
  holder : Option Nat := none
  /-- The worker has ended. -/
  hasLeft : Bool := false

namespace Workshop

variable {α : Type}

/-- What somebody does with the queue. -/
inductive Act (α : Type)
  /-- A task is handed in and accepted. -/
  | accept (t : Task α)
  /-- A task is handed in and refused. -/
  | refuse (t : Task α) (e : SessionError)
  /-- The worker starts a task. -/
  | start (t : Task α)
  /-- The task that the worker has run ends. -/
  | finish (t : Task α) (e : TaskEnd)
  /-- A client gets the queue for itself. -/
  | enter (client : Nat)
  /-- The client gives the queue back. -/
  | leave (client : Nat)
  /-- A call that does not get the queue for itself learns how it goes on. -/
  | look (who : Caller) (a : Admission)
  | stop
  | join
  /-- The worker ends. -/
  | exit

/-- One step. Those that need the queue wait until no client has it for itself. -/
inductive Step : Workshop α → Act α → Workshop α → Prop
  | accept {w : Workshop α} {t : Task α} {q : WorkQueue α} (hfree : w.holder = none)
      (hpush : w.queue.push t = .ok q) : Step w (.accept t) { w with queue := q }
  | refuse {w : Workshop α} {t : Task α} {e : SessionError} (hfree : w.holder = none)
      (hpush : w.queue.push t = .error e) : Step w (.refuse t e) w
  | start {w : Workshop α} {t : Task α} {q : WorkQueue α} (hfree : w.holder = none)
      (hhere : w.hasLeft = false) (htake : w.queue.take? = some (t, q)) :
      Step w (.start t) { w with queue := q }
  | finish {w : Workshop α} {t : Task α} (hfree : w.holder = none) (hrunning : w.queue.running = some t)
      (e : TaskEnd) : Step w (.finish t e) { w with queue := w.queue.finish e }
  | enter {w : Workshop α} (hfree : w.holder = none)
      (hgranted : w.queue.exclusiveAdmission .client = .granted) (client : Nat) :
      Step w (.enter client) { w with holder := some client }
  | leave {w : Workshop α} {client : Nat} (hholder : w.holder = some client) :
      Step w (.leave client) { w with holder := none }
  /-- The worker is refused before it asks for the queue. -/
  | wait {w : Workshop α} {who : Caller} (hfree : who = .client → w.holder = none) :
      Step w (.look who (w.queue.waitAdmission who)) w
  | turn {w : Workshop α} {who : Caller} (hfree : who = .client → w.holder = none)
      (hgranted : w.queue.exclusiveAdmission who ≠ .granted) :
      Step w (.look who (w.queue.exclusiveAdmission who)) w
  | stop {w : Workshop α} (hfree : w.holder = none) : Step w .stop { w with queue := w.queue.stop }
  /-- Waiting for the worker does not need the queue. -/
  | join {w : Workshop α} : Step w .join { w with queue := w.queue.join }
  | exit {w : Workshop α} (hfree : w.holder = none) (hhere : w.hasLeft = false)
      (hover : w.queue.isOver = true) : Step w .exit { w with hasLeft := true }

/-! ### What has become of the tasks -/

/-- The tasks that were accepted, the oldest first. -/
def accepted (acts : List (Act α)) : List (Task α) :=
  acts.filterMap fun
    | .accept t => some t
    | _ => none

/-- The tasks that the worker has started, the oldest first. -/
def started (acts : List (Act α)) : List (Task α) :=
  acts.filterMap fun
    | .start t => some t
    | _ => none

/-- The tasks that have ended and how, the oldest first. -/
def finished (acts : List (Act α)) : List (Task α × TaskEnd) :=
  acts.filterMap fun
    | .finish t e => some (t, e)
    | _ => none

/-- The lines of the tasks that gave up, in the order in which they ran. -/
def panicked (acts : List (Act α)) : List String :=
  (finished acts).filterMap fun (t, e) => e.failure? t.name

/-- Every accepted task has ended, is running or waits. -/
structure Balanced (acts : List (Act α)) (q : WorkQueue α) : Prop where
  accepted : accepted acts = started acts ++ q.waiting
  started : started acts = (finished acts).map Prod.fst ++ q.running.toList
  failures : q.failures = panicked acts

/-- The tasks are accounted for; a client has the queue for itself only while it is idle, and the worker has
ended only after the queue was stopped and idle. -/
structure Accounts (acts : List (Act α)) (w : Workshop α) : Prop extends Balanced acts w.queue where
  stopped : .stop ∈ acts → w.queue.isStopped = true
  held : w.holder.isSome → w.queue.isIdle = true
  left : .exit ∈ acts → w.queue.isOver = true

end Workshop

/-! ### Single steps of the queue -/

namespace WorkQueue

variable {α : Type} {q q' : WorkQueue α} {t : Task α}

theorem isIdle_iff : q.isIdle = true ↔ q.waiting = [] ∧ q.running = none := by
  simp [isIdle]

theorem isOver_iff : q.isOver = true ↔ q.isStopped = true ∧ q.isIdle = true := by
  simp [isOver]

theorem push_eq_ok : q.push t = .ok q' ↔
    q.isStopped = false ∧ q' = { q with waiting := q.waiting ++ [t] } := by
  unfold push
  by_cases hstopped : q.isStopped = true <;> simp [hstopped, eq_comm]

theorem push_of_stopped (h : q.isStopped = true) (t : Task α) : q.push t = .error .workerStopped :=
  if_pos h

theorem take?_eq_some : q.take? = some (t, q') ↔
    q.running = none ∧ ∃ rest, q.waiting = t :: rest ∧
      q' = { q with waiting := rest, running := some t } := by
  unfold take?
  constructor
  · intro h
    split at h
    · rename_i hrunning hwaiting
      cases h
      exact ⟨hrunning, _, hwaiting, rfl⟩
    · cases h
  · rintro ⟨hrunning, rest, hwaiting, rfl⟩
    rw [hrunning, hwaiting]

theorem finish_eq (h : q.running = some t) (e : TaskEnd) : q.finish e =
    { q with running := none, failures := q.failures ++ (e.failure? t.name).toList } := by
  rw [finish, h]

theorem finish_of_none (h : q.running = none) (e : TaskEnd) : q.finish e = q := by
  rw [finish, h]

theorem finish_waiting (q : WorkQueue α) (e : TaskEnd) : (q.finish e).waiting = q.waiting := by
  unfold finish
  cases q.running <;> rfl

theorem granted_iff {purpose : String} {who : Caller} :
    q.admission purpose who = .granted ↔ who = .client ∧ q.isIdle = true := by
  unfold admission
  cases who with
  | worker => simp
  | client => by_cases hidle : q.isIdle = true <;> by_cases hjoined : q.isJoined = true <;>
      simp [hidle, hjoined]

end WorkQueue

namespace Workshop

variable {α : Type} {w w' : Workshop α} {acts : List (Act α)} {a : Act α}

theorem accepted_append (acts more : List (Act α)) :
    accepted (acts ++ more) = accepted acts ++ accepted more := List.filterMap_append

theorem started_append (acts more : List (Act α)) :
    started (acts ++ more) = started acts ++ started more := List.filterMap_append

theorem finished_append (acts more : List (Act α)) :
    finished (acts ++ more) = finished acts ++ finished more := List.filterMap_append

theorem panicked_append (acts more : List (Act α)) :
    panicked (acts ++ more) = panicked acts ++ panicked more := by
  rw [panicked, finished_append, List.filterMap_append]
  rfl

/-! ### The tasks are accounted for -/

/-- What is done with the tasks is the difference between what waits and runs before and after it. -/
theorem Balanced.concat {q q' : WorkQueue α} (h : Balanced acts q)
    (hwaiting : q.waiting ++ Workshop.accepted [a] = Workshop.started [a] ++ q'.waiting)
    (hrunning : q.running.toList ++ Workshop.started [a] =
      (Workshop.finished [a]).map Prod.fst ++ q'.running.toList)
    (hfailures : q'.failures = q.failures ++ panicked [a]) : Balanced (acts ++ [a]) q' where
  accepted := by
    rw [accepted_append, started_append, h.accepted, List.append_assoc, hwaiting, List.append_assoc]
  started := by
    rw [started_append, finished_append, List.map_append, h.started, List.append_assoc, hrunning,
      List.append_assoc]
  failures := by rw [hfailures, h.failures, panicked_append]

theorem accounts_nil : Accounts [] ({} : Workshop α) where
  accepted := rfl
  started := rfl
  failures := rfl
  stopped h := by cases h
  held h := by cases h
  left h := by cases h

theorem Balanced.step (h : Balanced acts w.queue) (hstep : Step w a w') :
    Balanced (acts ++ [a]) w'.queue := by
  cases hstep with
  | accept hfree hpush =>
    obtain ⟨-, rfl⟩ := WorkQueue.push_eq_ok.1 hpush
    exact h.concat rfl (List.append_nil _) (List.append_nil _).symm
  | start hfree hhere htake =>
    obtain ⟨hrunning, rest, hwaiting, rfl⟩ := WorkQueue.take?_eq_some.1 htake
    refine h.concat ?_ ?_ (List.append_nil _).symm
    · rw [hwaiting]
      exact List.append_nil _
    · rw [hrunning]
      rfl
  | @finish t hfree hrunning e =>
    rw [WorkQueue.finish_eq hrunning]
    refine h.concat (List.append_nil _) ?_ ?_
    · rw [hrunning]
      rfl
    · refine congrArg (_ ++ ·) ?_
      cases hfailure : e.failure? t.name <;> simp [panicked, finished, hfailure]
  | _ => exact h.concat (List.append_nil _) (List.append_nil _) (List.append_nil _).symm

/-- A queue that is stopped stays so. -/
theorem Step.isStopped (hstep : Step w a w') (h : w.queue.isStopped = true) :
    w'.queue.isStopped = true := by
  cases hstep with
  | accept hfree hpush =>
    obtain ⟨-, rfl⟩ := WorkQueue.push_eq_ok.1 hpush
    exact h
  | start hfree hhere htake =>
    obtain ⟨-, rest, -, rfl⟩ := WorkQueue.take?_eq_some.1 htake
    exact h
  | finish hfree hrunning e =>
    rw [WorkQueue.finish_eq hrunning]
    exact h
  | stop hfree => rfl
  | _ => exact h

/-- While a client has the queue for itself, it gives it back or nothing happens to the tasks. -/
theorem Step.held (hstep : Step w a w') {client : Nat} (h : w.holder = some client) :
    a = .leave client ∨ w'.holder = some client ∧ (a = .join ∨ ∃ who admission, a = .look who admission) := by
  have hheld : w.holder ≠ none := by simp [h]
  cases hstep with
  | leave hholder => exact .inl (by rw [Option.some.inj (hholder.symm.trans h)])
  | join => exact .inr ⟨h, .inl rfl⟩
  | wait hfree => exact .inr ⟨h, .inr ⟨_, _, rfl⟩⟩
  | turn hfree hgranted => exact .inr ⟨h, .inr ⟨_, _, rfl⟩⟩
  | accept hfree | refuse hfree | start hfree | finish hfree | enter hfree | stop hfree | exit hfree =>
    exact absurd hfree hheld

/-- A queue that is stopped and idle stays so. -/
theorem Step.isOver (hstep : Step w a w') (h : w.queue.isOver = true) : w'.queue.isOver = true := by
  obtain ⟨hstopped, hidle⟩ := WorkQueue.isOver_iff.1 h
  obtain ⟨hwaiting, hrunning⟩ := WorkQueue.isIdle_iff.1 hidle
  cases hstep with
  | accept hfree hpush =>
    rw [WorkQueue.push_of_stopped hstopped] at hpush
    cases hpush
  | start hfree hhere htake =>
    obtain ⟨-, rest, hrest, -⟩ := WorkQueue.take?_eq_some.1 htake
    rw [hwaiting] at hrest
    cases hrest
  | finish hfree hnot e =>
    rw [hrunning] at hnot
    cases hnot
  | stop hfree => exact WorkQueue.isOver_iff.2 ⟨rfl, hidle⟩
  | _ => exact h

/-- While a client has the queue for itself, the queue is idle. -/
theorem Step.idle (hstep : Step w a w') (h : w.holder.isSome → w.queue.isIdle = true)
    (hheld : w'.holder.isSome) : w'.queue.isIdle = true := by
  cases hstep with
  | enter hfree hgranted client => exact (WorkQueue.granted_iff.1 hgranted).2
  | wait | turn | join => exact h hheld
  | leave => cases hheld
  | accept hfree | start hfree | finish hfree | stop hfree | exit hfree | refuse hfree =>
    rw [hfree] at hheld
    cases hheld

theorem Accounts.step (h : Accounts acts w) (hstep : Step w a w') : Accounts (acts ++ [a]) w' := by
  refine ⟨h.toBalanced.step hstep, fun hstop => ?_, hstep.idle h.held, fun hexit => ?_⟩
  · rcases List.mem_append.1 hstop with hstop | hstop
    · exact hstep.isStopped (h.stopped hstop)
    · obtain rfl := List.mem_singleton.1 hstop
      cases hstep
      rfl
  · rcases List.mem_append.1 hexit with hexit | hexit
    · exact hstep.isOver (h.left hexit)
    · obtain rfl := List.mem_singleton.1 hexit
      cases hstep with
      | exit hfree hhere hover => exact hover

/-- While a task is running, no other starts. -/
theorem Step.running (hstep : Step w a w') {t : Task α} (h : w.queue.running = some t)
    (hend : ¬ ∃ e, a = .finish t e) : w'.queue.running = some t ∧ ¬ ∃ u, a = .start u := by
  cases hstep with
  | accept hfree hpush =>
    obtain ⟨-, rfl⟩ := WorkQueue.push_eq_ok.1 hpush
    exact ⟨h, fun ⟨u, hu⟩ => by cases hu⟩
  | start hfree hhere htake =>
    obtain ⟨hrunning, -⟩ := WorkQueue.take?_eq_some.1 htake
    rw [h] at hrunning
    cases hrunning
  | finish hfree hrunning e =>
    obtain rfl := Option.some.inj (hrunning.symm.trans h)
    exact absurd ⟨e, rfl⟩ hend
  | _ => exact ⟨h, fun ⟨u, hu⟩ => by cases hu⟩

/-! ### What the queue promises -/

/-- What the queue promises to those who use it. -/
structure Orderly (acts : List (Act α)) (w : Workshop α) : Prop where
  /-- Tasks start in the order in which they were accepted, each of them once at most. -/
  order : started acts <+: accepted acts
  /-- Tasks end in this order too. -/
  ended : (finished acts).map Prod.fst <+: started acts
  /-- Until a task has ended, no other starts. -/
  single : ∀ t, Undisturbed acts (.start t) (fun a => ∃ e, a = .finish t e) fun a => ∃ u, a = .start u
  /-- When a client gets the queue for itself, all tasks that were accepted have ended. -/
  drained : ∀ before client after, acts = before ++ .enter client :: after →
    (finished before).map Prod.fst = accepted before
  /-- Until it gives the queue back, no task is accepted or started, and no other client gets the queue. -/
  exclusive : ∀ client, Undisturbed acts (.enter client) (· = .leave client) fun a =>
    (∃ t, a = .accept t) ∨ (∃ t, a = .start t) ∨ ∃ other, a = .enter other
  /-- After the queue was stopped, no task is accepted. -/
  closed : Undisturbed acts .stop (fun _ => False) fun a => ∃ t, a = .accept t
  /-- Whoever hands in a task then is told so. -/
  refused : .stop ∈ acts → ∀ t, w.queue.push t = .error .workerStopped
  /-- When the worker has ended, all tasks that were accepted have ended. -/
  executed : .exit ∈ acts → (finished acts).map Prod.fst = accepted acts
  /-- The failures are those of the tasks that gave up, in the order in which they ran. -/
  failures : w.queue.failures = panicked acts

/-- If the queue is idle, all accepted tasks have ended. -/
theorem Balanced.drained {q : WorkQueue α} (h : Balanced acts q) (hidle : q.isIdle = true) :
    (finished acts).map Prod.fst = Workshop.accepted acts := by
  obtain ⟨hwaiting, hrunning⟩ := WorkQueue.isIdle_iff.1 hidle
  rw [h.accepted, h.started, hwaiting, hrunning, List.append_nil, Option.toList_none,
    List.append_nil]

/-- Whatever the interleaving, the queue keeps its promises. -/
theorem orderly {acts : List (Act α)} {w : Workshop α} (h : Steps Step {} acts w) : Orderly acts w := by
  have haccounts : Accounts acts w := h.invariant (fun _ _ _ _ => .step) accounts_nil
  refine ⟨?_, ?_, fun t => ?_, ?_, fun client => ?_, ?_, fun hstop t => ?_, fun hexit => ?_,
    haccounts.failures⟩
  · rw [haccounts.accepted]
    exact List.prefix_append _ _
  · rw [haccounts.started]
    exact List.prefix_append _ _
  · refine h.undisturbed (P := fun w => w.queue.running = some t) (fun w w' hstep => ?_)
      fun w a w' hrunning hstep hend => hstep.running hrunning hend
    cases hstep with
    | start hfree hhere htake =>
      obtain ⟨-, rest, -, rfl⟩ := WorkQueue.take?_eq_some.1 htake
      rfl
  · rintro before client after rfl
    obtain ⟨w₁, hbefore, _ | ⟨henter, -⟩⟩ := Steps.append_iff.1 h
    have hbalanced : Accounts before w₁ := hbefore.invariant (fun _ _ _ _ => .step) accounts_nil
    cases henter with
    | enter hfree hgranted => exact hbalanced.drained (WorkQueue.granted_iff.1 hgranted).2
  · refine h.undisturbed (P := fun w => w.holder = some client) (fun w w' hstep => ?_)
      fun w a w' hheld hstep hend => ?_
    · cases hstep
      rfl
    · obtain ⟨hheld, hother⟩ := (hstep.held hheld).resolve_left hend
      refine ⟨hheld, ?_⟩
      rintro (⟨t, rfl⟩ | ⟨t, rfl⟩ | ⟨other, rfl⟩) <;> simp at hother
  · refine h.undisturbed (P := fun w => w.queue.isStopped = true) (fun w w' hstep => ?_)
      fun w a w' hstopped hstep _ => ⟨hstep.isStopped hstopped, ?_⟩
    · cases hstep
      rfl
    · rintro ⟨t, rfl⟩
      cases hstep with
      | accept hfree hpush =>
        rw [WorkQueue.push_of_stopped hstopped] at hpush
        cases hpush
  · exact WorkQueue.push_of_stopped (haccounts.stopped hstop) t
  · exact haccounts.toBalanced.drained (WorkQueue.isOver_iff.1 (haccounts.left hexit)).2

/-- A client waits for two tasks, the first of which gives up; the queue is stopped while a third waits. -/
theorem orderly_stopped :
    let a : Task Nat := ⟨"a", 1⟩
    let b : Task Nat := ⟨"b", 2⟩
    let c : Task Nat := ⟨"c", 3⟩
    let acts : List (Act Nat) :=
      [.accept a, .start a, .accept b, .look .client .deferred, .finish a (.gaveUp none), .start b,
        .finish b .finished, .enter 0, .leave 0, .accept c, .stop, .join, .refuse a .workerStopped,
        .look .client (.refused .workerStopped), .start c, .finish c .finished, .enter 1, .leave 1, .exit]
    let w : Workshop Nat :=
      { queue := { isStopped := true, isJoined := true, failures := ["a: unknown panic"] }
        hasLeft := true }
    Steps Step {} acts w ∧ Orderly acts w := by
  intro a b c acts w
  have hsteps : Steps Step {} acts w :=
    .cons (.accept rfl rfl) <| .cons (.start rfl rfl rfl) <| .cons (.accept rfl rfl) <|
    .cons (.wait fun _ => rfl) <| .cons (.finish rfl rfl _) <| .cons (.start rfl rfl rfl) <|
    .cons (.finish rfl rfl _) <| .cons (.enter rfl rfl 0) <| .cons (.leave rfl) <|
    .cons (.accept rfl rfl) <| .cons (.stop rfl) <| .cons .join <| .cons (.refuse rfl rfl) <|
    .cons (.wait fun _ => rfl) <| .cons (.start rfl rfl rfl) <| .cons (.finish rfl rfl _) <|
    .cons (.enter rfl rfl 1) <| .cons (.leave rfl) <| .cons (.exit rfl rfl rfl) .nil
  exact ⟨hsteps, orderly hsteps⟩

end Workshop

end Reflow
