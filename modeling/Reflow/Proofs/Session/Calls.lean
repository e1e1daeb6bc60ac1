import Reflow.Proofs.Program.Running
import Reflow.Session.Live
/-!
# What a call of a session does

A batch goes through the phases of a session in one of three ways: it is rejected, it is run, or its
run faults. Each way ends in the idle phase, so that a batch is described by the session that it
leaves, with no mention of the phases in between.

## Main definitions

* `Request`: the calls that may change a session.
* `Session.run`: a session after a series of calls.
* `Session.Keeps`: calls that keep a property of sessions or fail in some way.

## Main results

* `Session.run_runBatch`: what a batch does.
* `Session.keeps_request`: what batches keep, all requests keep.
-/

namespace Reflow

namespace Session

variable {s : Session}

theorem run_enter {next : Phase} (h : next ∈ s.phase.successors) :
    (enter next).run s = .ok () { s with phase := next } := by
  simp only [enter, EStateM.run_bind, EStateM.run_get, if_pos h]
  rfl

/-- The session when a compiled program is run. -/
def installed (s : Session) (image : CompiledImage) : Session :=
  { s.withRoom image.globalCount with compiled := image.state, executable := image.executable }

/-- The session after a run that succeeded; `memory` is the memory that the run left. -/
def succeeded (s : Session) (memory : Memory) : Session :=
  { s with memory := memory.collect.2, mapping := s.mapping.commit }

/-- The session after a run that faulted; the program is the one of `prior`. -/
def rolledBack (prior s : Session) (memory : Memory) : Session :=
  { s.abandon with
    compiled := prior.compiled
    executable := prior.executable
    memory := memory.clearFrom prior.compiled.globalCount }

/-- The settings of the run of an image. -/
def settings (s : Session) (forced : List Nat) (image : CompiledImage) : RunContext :=
  { s.configuration.run with forced, block := image.runningBlock }

theorem run_reject {e : SessionError} (h : s.phase = .compiling) :
    (reject e).run s = .error e { s.abandon with phase := .idle } := by
  simp only [reject, EStateM.run_bind]
  rw [run_enter (by simp [h, Phase.successors])]
  simp only [EStateM.run_modify]
  rw [run_enter (by simp [abandon, Phase.successors])]
  rfl

/-- Running an image that has room. -/
theorem run_runImage {image : CompiledImage} {forced : List Nat} {warnings : List String}
    (h : s.phase = .compileSucceeded) :
    (runImage image forced warnings).run s =
      let ready := { s with compiled := image.state, executable := image.executable, phase := .idle }
      match execute image.executable s.memory (s.settings forced image) with
      | (.ok run, memory) => .ok
          ((ready.succeeded memory).report (warnings ++ run.warnings.map RuntimeWarning.text)
            run.executed.length) (ready.succeeded memory)
      | (.error fault, memory) => .error (.execute fault) (rolledBack s ready memory) := by
  simp only [runImage, EStateM.run_bind, EStateM.run_get, EStateM.run_set]
  rw [run_enter (by simp [h, Phase.successors])]
  simp only [settings]
  rcases execute image.executable s.memory
    { s.configuration.run with forced, block := image.runningBlock } with ⟨result, memory⟩
  cases result with
  | ok run =>
    simp only [EStateM.run_bind]
    rw [run_enter (by simp [Phase.successors])]
    simp only [EStateM.run_modify]
    rw [run_enter (by simp [Phase.successors])]
    rfl
  | error fault =>
    simp only [EStateM.run_bind]
    rw [run_enter (by simp [Phase.successors])]
    simp only [EStateM.run_modify]
    rw [run_enter (by simp [abandon, Phase.successors])]
    rfl

/-! ### Batches -/

/-- A session ready to compile has dropped the notes of the last batch and taken over its options. -/
theorem prepared_eq (s : Session) (full : Bool) : s.prepared full = { s with
    memory := s.memory.resetModified
    compiled := s.compiled.scheduled s.compiled.root.stream.entry [] full
    configuration := if s.optionsPending then .ofOptions s.options else s.configuration
    optionsPending := false } := by
  rcases hs : s with ⟨compiled, executable, memory, mapping, baseline, options, pending,
    configuration, phase⟩
  cases full <;> cases pending <;> rfl

theorem globalCount_grow (m : Memory) (additional : Nat) :
    (m.grow additional).globalCount = m.globalCount + additional := by
  simp [Memory.grow, Memory.globalCount]

/-- After a session has made room, the memory has the slots of the program. -/
theorem globalCount_withRoom (h : s.baseline = s.memory.globalCount) (needed : Nat) :
    (s.withRoom needed).memory.globalCount = max s.memory.globalCount needed := by
  unfold withRoom
  dsimp only
  split
  · rw [globalCount_grow]
    omega
  · omega

theorem modified_withRoom (s : Session) (needed : Nat) :
    (s.withRoom needed).memory.modified = s.memory.modified := by
  unfold withRoom
  dsimp only
  split <;> rfl

theorem heap_withRoom (s : Session) (needed : Nat) :
    (s.withRoom needed).memory.heap = s.memory.heap := by
  unfold withRoom
  dsimp only
  split <;> rfl

/-- The texts of the warnings of a compilation. -/
def warningTexts (diagnostics : List Diagnostic) : List String :=
  (diagnostics.filter (!·.isError)).map Diagnostic.text

/-- What a batch does: it is rejected, and the session keeps its program and its memory; or it is
run, and the session has the new program; or its run faults, and the session keeps its program. -/
theorem run_runBatch {f : Fragment} {forced : List Nat} {full : Bool} (hphase : s.phase = .idle)
    (hbaseline : s.baseline = s.memory.globalCount) : (runBatch f forced full).run s =
      let ready := s.prepared full
      match compile f ready.compiled with
      | ⟨diagnostics, none⟩ => .error (.compile diagnostics) ready.abandon
      | ⟨diagnostics, some image⟩ =>
        let current := ready.installed image
        match execute image.executable current.memory (current.settings forced image) with
        | (.ok run, memory) => .ok
            ((current.succeeded memory).report
              (warningTexts diagnostics ++ run.warnings.map RuntimeWarning.text)
              run.executed.length) (current.succeeded memory)
        | (.error fault, memory) =>
          .error (.execute fault) (rolledBack ready current memory) := by
  simp only [runBatch, EStateM.run_bind, EStateM.run_get, hphase, ne_eq, not_true, if_false]
  rw [run_enter (by simp [hphase, Phase.successors])]
  simp only [EStateM.run_modify, prepared_eq]
  rcases compile f _ with ⟨diagnostics, _ | image⟩
  · simp only []
    rw [run_reject rfl]
    simp only [abandon, ← hphase]
  · simp only [EStateM.run_bind, EStateM.run_modify, EStateM.run_get]
    have hroom := globalCount_withRoom (s := { s with
      memory := s.memory.resetModified
      compiled := s.compiled.scheduled s.compiled.root.stream.entry [] full
      configuration := if s.optionsPending then .ofOptions s.options else s.configuration
      optionsPending := false
      phase := .compiling }) hbaseline image.globalCount
    rw [if_neg (by rw [hroom]; omega)]
    rw [EStateM.run_bind, run_enter (by simp [withRoom, Phase.successors])]
    simp only []
    rw [run_runImage rfl]
    simp only [installed, withRoom, succeeded, ← hphase]
    rfl

end Session

/-! ### Requests -/

/-- A call that may change a session. -/
inductive Request
  | updateGraph (batch : Batch)
  | updateCode (code : String)
  | rerunSubtree (subtree : SubtreeId)
  | rerunAll
  | setOptions (options : Options)

/-- What a session does with a request; setting options gives no report. -/
def Request.call : Request → SessionCall (Option Report)
  | updateGraph b => some <$> Session.updateGraph b
  | updateCode code => some <$> Session.updateCode code
  | rerunSubtree subtree => some <$> Session.rerunSubtree subtree
  | rerunAll => some <$> Session.rerunAll
  | setOptions options => do
    modify fun s => s.setOptions options
    return none

namespace Session

/-- From a session with the property `P` the call leads to another such session, or it fails, and
then the error and the session are as `Q` says. -/
def Keeps {α : Type} (P : Session → Prop) (Q : SessionError → Session → Prop)
    (call : SessionCall α) : Prop :=
  ∀ s, P s → match call.run s with
    | .ok _ s' => P s'
    | .error e s' => Q e s'

namespace Keeps

variable {α β : Type} {P : Session → Prop} {Q : SessionError → Session → Prop}

theorem pure (a : α) : Keeps P Q (Pure.pure a : SessionCall α) := fun _ h => h

theorem bind {f : SessionCall α} {g : α → SessionCall β} (hf : Keeps P Q f)
    (hg : ∀ a, Keeps P Q (g a)) : Keeps P Q (f >>= g) := by
  intro s hs
  have hfs := hf s hs
  rw [EStateM.run_bind]
  cases hr : f.run s with
  | ok a s' =>
    rw [hr] at hfs
    exact hg a s' hfs
  | error e s' =>
    rw [hr] at hfs
    exact hfs

/-- The call may look at the session. -/
theorem get {g : Session → SessionCall β} (h : ∀ s, Keeps P Q (g s)) :
    Keeps P Q (MonadState.get >>= g : SessionCall β) := fun s hs => h s s hs

theorem modify {f : Session → Session} (h : ∀ s, P s → P (f s)) :
    Keeps P Q (modify f : SessionCall Unit) := fun s hs => h s hs

theorem map (f : α → β) {call : SessionCall α} (h : Keeps P Q call) : Keeps P Q (f <$> call) := by
  rw [map_eq_pure_bind]
  exact h.bind fun a => .pure _

end Keeps

section Requests

variable {P : Session → Prop} {Q : SessionError → Session → Prop}

theorem keeps_skip (hreset : ∀ s, P s → P s.reset) : Keeps P Q skip :=
  .bind (.modify hreset) fun _ => .get fun _ => .pure _

theorem keeps_requireMode (hmode : ∀ s operation mode, P s → Q (.modeMismatch operation mode) s)
    (operation : String) (mode : Bool) : Keeps P Q (requireMode operation mode) := by
  refine .get fun s => ?_
  split
  · exact fun s h => hmode s _ _ h
  · exact .pure _

/-- If batches keep a property that depends neither on the mapping nor on the options nor on the notes
of the last batch, then all requests keep it. -/
theorem keeps_request (hreset : ∀ s, P s → P s.reset)
    (hmapping : ∀ (s : Session) mapping, P s → P { s with mapping })
    (hoptions : ∀ s options, P s → P (s.setOptions options))
    (hmode : ∀ s operation mode, P s → Q (.modeMismatch operation mode) s)
    (hbatch : ∀ f forced full, Keeps P Q (runBatch f forced full)) (r : Request) :
    Keeps P Q r.call := by
  cases r with
  | updateGraph b =>
    refine .map some (.bind (keeps_requireMode hmode _ _) fun _ => ?_)
    split
    · exact keeps_skip hreset
    · exact .bind (fun s h => hmapping s _ h) fun f => hbatch f [] false
  | updateCode code =>
    refine .map some (.bind (keeps_requireMode hmode _ _) fun _ => ?_)
    split
    · exact keeps_skip hreset
    · exact hbatch _ [] false
  | rerunSubtree subtree =>
    refine .map some (.get fun s => ?_)
    split
    · exact keeps_skip hreset
    · exact hbatch {} _ false
  | rerunAll => exact .map some (hbatch {} [] true)
  | setOptions options => exact .bind (.modify fun s h => hoptions s options h) fun _ => .pure _

theorem Keeps.answer {r : Request} (h : Keeps P Q r.call) {s : Session} (hs : P s) :
    match s.answer r.call with
    | (.ok _, s') => P s'
    | (.error e, s') => Q e s' := by
  have hr := h s hs
  unfold Session.answer
  cases hrun : r.call.run s with
  | ok report s' =>
    rw [hrun] at hr
    exact hr
  | error e s' =>
    rw [hrun] at hr
    exact hr

end Requests

end Session

/-- The session after a series of requests. -/
def Session.run (s : Session) (requests : List Request) : Session :=
  requests.foldl (fun s r => (s.answer r.call).2) s

/-- What every request keeps, a series of requests keeps. -/
theorem Session.run_induction {P : Session → Prop} {s : Session} (h : P s)
    (hstep : ∀ s, P s → ∀ r : Request, P (s.answer r.call).2) (requests : List Request) :
    P (s.run requests) :=
  List.foldlRecOn requests _ h fun s hs r _ => hstep s hs r

end Reflow
