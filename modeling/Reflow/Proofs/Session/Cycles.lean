import Reflow.Proofs.Program.Repetition
import Reflow.Proofs.Session.Comparison
import Reflow.Proofs.Session.Independence
/-!
# Calls without update cycles

A call that faults with an update cycle need not have found a cycle: the limit may also be too low for a
program whose statements are read by statements before them, as edits may leave it. If the limit allows for
two runs of a statement for each of these late statements, an update cycle means that there is a cycle.

## Main results

* `Session.configured_run`: the next batch of a session has the configuration that its options ask for.
* `Session.answer_ne_updateCycle`: no update cycle in an acyclic program, if the limit is high enough.
-/

namespace Reflow.Session

variable {s : Session}

theorem upcoming_outcome (s : Session) (f : Fragment) (forced : List Nat) (full : Bool) :
    (s.outcome f forced full).2.upcoming = s.upcoming := by
  rcases s.outcome_cases f forced full with ⟨diagnostics, -, ho⟩ |
    ⟨diagnostics, result, memory, -, -, ho⟩
  · rw [ho, prepared_eq]
    rfl
  · rw [ho, prepared_eq]
    cases result <;> rfl

/-- A request leaves the options to come into effect at the next batch, or they are in effect. -/
theorem Sound.configured (h : s.Sound) (hs : s.upcoming = .ofOptions s.options) (r : Request) :
    (s.answer r.call).2.upcoming = .ofOptions (s.answer r.call).2.options := by
  rw [answer_call h]
  cases hr : s.courseOf r with
  | refuse operation mode => exact hs
  | skip => exact hs
  | configure options => rfl
  | batch m f forced full =>
    refine (upcoming_outcome _ f forced full).trans (hs.trans ?_)
    exact congrArg _ (options_outcome { s with mapping := m } f forced full).symm

/-- The next batch of a session has the configuration that its options ask for. -/
theorem configured_run (options : Options) (history : List Request) :
    (({ options } : Session).run history).upcoming =
      .ofOptions (({ options } : Session).run history).options := by
  have hboth := run_induction (P := fun s => s.Sound ∧ s.upcoming = .ofOptions s.options)
    ⟨sound_fresh options, rfl⟩ (fun _ h r => ⟨(h.1.answer r).1, h.1.configured h.2 r⟩) history
  exact hboth.2

/-- A batch with an acyclic program finds no update cycle, if the limit is high enough. -/
theorem Sound.outcome_ne_updateCycle (h : s.Sound) (f : Fragment) (forced : List Nat) (full : Bool)
    (himage : ∀ image g, (compile f (s.prepared full).compiled).image = some image →
      image.executable.graph? = some g →
      g.Acyclic ∧ 2 ^ g.late.length ≤ s.upcoming.run.maxPasses) (node limit : Nat) :
    (s.outcome f forced full).1 ≠ .error (.execute (.updateCycle node limit)) := by
  rcases s.outcome_cases f forced full with ⟨diagnostics, -, ho⟩ |
    ⟨diagnostics, result, memory, hcompile, hx, ho⟩
  · rw [ho]
    exact fun h => by cases h
  · obtain ⟨hacyclic, hlimit⟩ := himage _ _ (congrArg CompileOutcome.image hcompile) rfl
    have hsound := (evolves_compiled f _ (h.prepared full).compiled).1
    have hpasses : (((s.prepared full).installed
        ((s.prepared full).compiled.compiled f).image).settings forced
        ((s.prepared full).compiled.compiled f).image).maxPasses = s.upcoming.run.maxPasses :=
      congrArg (·.run.maxPasses) (s.upcoming_prepared full).2
    have hne := hsound.execute_ne_updateCycle rfl hacyclic (hlimit.trans_eq hpasses.symm)
      ((s.prepared full).installed ((s.prepared full).compiled.compiled f).image).memory node limit
    rw [ho]
    cases result with
    | ok run => exact fun h => by cases h
    | error fault =>
      rintro hfault
      cases hfault
      exact hne (congrArg Prod.fst hx)

/-- Whatever was asked before, a call that compiles an acyclic program, in which no active statement is among
those that a change of its own global reaches, is not answered by an update cycle, provided that the limit
allows for two runs of a statement for each active statement whose global a statement before it reads. -/
theorem answer_ne_updateCycle (options : Options) (history : List Request) (request : Request)
    (himage : let s := ({ options } : Session).run history
      ∀ image g, s.imageOf? request = some image → image.executable.graph? = some g →
        g.Acyclic ∧ 2 ^ g.late.length ≤ s.options.maxPasses) (node limit : Nat) :
    ((({ options } : Session).run history).answer request.call).1 ≠
      .error (.execute (.updateCycle node limit)) := by
  have hsound := sound_run options history
  have hconfigured := configured_run options history
  generalize ({ options } : Session).run history = s at *
  rw [answer_call hsound]
  cases hr : s.courseOf request with
  | refuse operation mode => exact fun h => by cases h
  | skip => exact fun h => by cases h
  | configure options => exact fun h => by cases h
  | batch m f forced full =>
    have hne := (hsound.withMapping m).outcome_ne_updateCycle f forced full
      (fun image g hcompiled hg => ?_) node limit
    · simp only [taken]
      rcases ho : ({ s with mapping := m } : Session).outcome f forced full with ⟨e | report, s'⟩
      · rw [ho] at hne
        rintro hfault
        cases hfault
        exact hne rfl
      · exact fun h => by cases h
    · have hupcoming : ({ s with mapping := m } : Session).upcoming = .ofOptions s.options :=
        hconfigured
      rw [hupcoming]
      refine himage image g ?_ hg
      rw [imageOf?, hr]
      exact hcompiled

/-- `a` reads what the statement behind it assigns, and two runs are enough for that. -/
theorem answer_ne_updateCycle_backward :
    let s : Session := { options := { interpreterMode := true, maxPasses := 2 } }
    let r := Request.updateCode "a = b; b = 1;"
    (∀ image g, s.imageOf? r = some image → image.executable.graph? = some g →
      g.Acyclic ∧ 2 ^ g.late.length ≤ s.options.maxPasses) ∧
    ∀ node limit, (s.answer r.call).1 ≠ .error (.execute (.updateCycle node limit)) := by
  intro s r
  have hall : ((s.imageOf? r).bind (·.executable.graph?)).all
      (fun g => decide (g.Acyclic ∧ 2 ^ g.late.length ≤ s.options.maxPasses)) = true := by
    decide +kernel
  have himage : ∀ image g, s.imageOf? r = some image → image.executable.graph? = some g →
      g.Acyclic ∧ 2 ^ g.late.length ≤ s.options.maxPasses := by
    intro image g himage hg
    rw [himage, Option.bind_some, hg] at hall
    exact of_decide_eq_true hall
  exact ⟨himage, answer_ne_updateCycle { interpreterMode := true, maxPasses := 2 } [] r himage⟩

/-- With two late statements the first one runs four times, and a lower limit is exceeded. -/
example : (({ options := { interpreterMode := true, maxPasses := 3 } } : Session).answer
    (Request.updateCode "a = b == c; b = c == 1; c = 1;").call).1 =
      .error (.execute (.updateCycle 0 3)) := by decide +kernel

end Reflow.Session
