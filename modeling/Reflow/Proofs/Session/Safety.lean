import Reflow.Proofs.Session.Calls
/-!
# Safety of sessions

Whatever a host asks of a session, no call ends in a broken state: the phase is idle again, and an
error is one of those that a host has to expect. For this the program is sound, so that a run on a
memory with the program's slots has no faults but its own, and the session has counted the slots of
its memory correctly, so that it makes room for every program that it runs.

## Main definitions

* `SessionError.Expected`: the errors that a host has to expect.
* `Session.Sound`: what every request keeps.

## Main results

* `Session.sound_run`: every session is sound at all times.
* `Session.answer_run`: whatever was asked before, an answer is a success or an expected error, and
  the session is idle again.
-/

namespace Reflow

/-- The errors that a host has to expect. -/
inductive SessionError.Expected : SessionError → Prop
  | compile (diagnostics : List Diagnostic) : Expected (.compile diagnostics)
  | modeMismatch (operation : String) (interpreterMode : Bool) :
    Expected (.modeMismatch operation interpreterMode)
  | updateCycle (node limit : Nat) : Expected (.execute (.updateCycle node limit))
  | callDepthExceeded (limit : Nat) : Expected (.execute (.callDepthExceeded limit))

theorem SessionError.expected_execute {fault : Fault} (h : fault.isProgramFault = true) :
    (SessionError.execute fault).Expected := by
  cases fault with
  | updateCycle node limit => exact .updateCycle node limit
  | callDepthExceeded limit => exact .callDepthExceeded limit
  | _ => cases h

namespace Session

/-- The session is idle, has counted its slots and has a sound program. -/
structure Sound (s : Session) : Prop where
  phase : s.phase = .idle
  baseline : s.baseline = s.memory.globalCount
  compiled : s.compiled.Sound

theorem Sound.reset {s : Session} (h : s.Sound) : s.reset.Sound :=
  ⟨h.phase, h.baseline, (s.compiled.evolves_scheduled s.compiled.root.stream.entry [] false
    h.compiled).1⟩

/-- The program of an installed image has its slots in memory. -/
theorem Sound.allocated {s : Session} (h : s.Sound) (image : CompiledImage) :
    image.globalCount ≤ (s.installed image).memory.globalCount := by
  have hcount := globalCount_withRoom h.baseline image.globalCount
  exact hcount ▸ Nat.le_max_right _ _

theorem Sound.prepared {s : Session} (h : s.Sound) (full : Bool) : (s.prepared full).Sound := by
  rw [prepared_eq]
  exact ⟨h.phase, h.baseline, (s.compiled.evolves_scheduled _ [] full h.compiled).1⟩

/-- However a batch ends, it ends well. -/
theorem sound_runBatch (f : Fragment) (forced : List Nat) (full : Bool) :
    Keeps Sound (fun e s => s.Sound ∧ e.Expected) (runBatch f forced full) := by
  intro s h
  rw [run_runBatch h.phase h.baseline]
  have hready := h.prepared full
  dsimp only
  rcases hcompile : compile f (s.prepared full).compiled with ⟨diagnostics, _ | image⟩
  · exact ⟨⟨hready.phase, hready.baseline, hready.compiled⟩, .compile diagnostics⟩
  · have himage := compile_image (congrArg CompileOutcome.image hcompile)
    have hsound : image.state.Sound := himage ▸ (evolves_compiled f _ hready.compiled).1
    have hexecutable := compile_executable (congrArg CompileOutcome.image hcompile)
    have hslots : image.state.globalCount ≤ ((s.prepared full).installed image).memory.globalCount :=
      Nat.le_trans (Nat.le_of_eq (by rw [himage]; rfl)) (hready.allocated image)
    have hblock : (((s.prepared full).installed image).settings forced image).block = 0 := by
      rw [himage]
      rfl
    obtain ⟨hcount, hfault⟩ := hsound.execute_spec hblock hslots
    rw [← hexecutable] at hcount hfault
    dsimp only
    rcases hrun : execute image.executable _ _ with ⟨result, memory⟩
    rw [hrun] at hcount hfault
    cases result with
    | ok run => exact ⟨hready.phase, hcount.symm, hsound⟩
    | error fault =>
      refine ⟨⟨hready.phase, ?_, hready.compiled⟩, SessionError.expected_execute (hfault fault rfl)⟩
      simp only [rolledBack, Memory.clearFrom, Memory.globalCount, Array.size_mapIdx] at hcount ⊢
      exact hcount.symm

theorem sound_request (r : Request) : Keeps Sound (fun e s => s.Sound ∧ e.Expected) r.call :=
  keeps_request (fun _ h => h.reset) (fun _ _ h => ⟨h.phase, h.baseline, h.compiled⟩)
    (fun _ _ h => ⟨h.phase, h.baseline, h.compiled⟩) (fun _ _ _ h => ⟨h, .modeMismatch _ _⟩)
    sound_runBatch r

/-- Every request keeps a session sound, and an error is an expected one. -/
theorem Sound.answer {s : Session} (h : s.Sound) (r : Request) :
    (s.answer r.call).2.Sound ∧ ∀ e, (s.answer r.call).1 = .error e → e.Expected := by
  have hr := (sound_request r).answer h
  rcases ha : s.answer r.call with ⟨e | report, s'⟩
  · rw [ha] at hr
    refine ⟨hr.1, fun e he => ?_⟩
    cases he
    exact hr.2
  · rw [ha] at hr
    exact ⟨hr, fun e he => by cases he⟩

theorem sound_fresh (options : Options) : ({ options } : Session).Sound where
  phase := rfl
  baseline := rfl
  compiled := CompileState.sound_empty

/-- Every session is sound at all times. -/
theorem sound_run (options : Options) (history : List Request) :
    (({ options } : Session).run history).Sound :=
  run_induction (sound_fresh options) (fun _ h r => (h.answer r).1) history

/-- Whatever was asked of a session before, the next request succeeds or fails with an expected
error, and the session is idle again. -/
theorem answer_run (options : Options) (history : List Request) (request : Request) :
    let (result, after) := (({ options } : Session).run history).answer request.call
    after.phase = .idle ∧ ((∃ report, result = .ok report) ∨ ∃ e, result = .error e ∧ e.Expected) := by
  obtain ⟨hsound, hexpected⟩ := (sound_run options history).answer request
  rcases hr : (({ options } : Session).run history).answer request.call with ⟨result, after⟩
  rw [hr] at hsound hexpected
  refine ⟨hsound.phase, ?_⟩
  cases result with
  | ok report => exact .inl ⟨report, rfl⟩
  | error e => exact .inr ⟨e, rfl, hexpected e rfl⟩

end Session

end Reflow
