import Reflow.Proofs.Code.Founding
import Reflow.Proofs.Program.Termination
import Reflow.Proofs.Session.Course
import Reflow.Proofs.Session.Freshness
/-!
# Values and snapshots of sessions

Whatever is asked of a session, all values in its memory stand for data: those of the slots between two
requests, and besides them those in the open frames while a batch is run. A run starts with the slots that
the session has kept, goes on instruction by instruction, and leaves its slots to the session, cleared of
what a faulted run has put into slots of its own. A collection keeps what the slots lead to. So a session may
compare and copy any value of its memory at any time.

## Main definitions

* `Moment.memory`, `Moment.operands`: the memory of a run under way, and the values in open frames.
* `Session.moment?`: the run that answers a request after some steps.
* `Session.Grounded`: the slots of a session stand for data.

## Main results

* `holds_moment`: a run keeps values founded.
* `Session.Grounded.exists_moment?`: the run that answers a request comes to its end.
* `Session.comparable_run`: the values of a session can be compared and copied at all times.
-/

namespace Reflow

/-! ### Runs -/

namespace Moment

/-- The memory of a run under way. -/
def memory : Moment → Memory
  | choosing p => p.memory
  | evaluating _ _ _ a => a.memory
  | ended _ memory => memory

/-- The values on operand stacks and among arguments. -/
def operands : Moment → List Value
  | evaluating _ _ _ a => a.operands
  | _ => []

variable {x : Executable} {ctx : RunContext} {g : DependencyGraph}

/-- One step of a run keeps values founded. -/
theorem holds_next {a : Moment} (h : a.memory.Holds a.operands) :
    (a.next x ctx g).memory.Holds (a.next x ctx g).operands := by
  unfold next
  split
  · split
    · exact h
    · split
      · exact h
      · split
        · exact h
        · exact Activity.holds_enter h
  · exact h.mono (List.nil_subset _)
  · exact h
  · exact Activity.holds_next h
  · exact h

end Moment

/-- A run keeps values founded. -/
theorem holds_moment {memory : Memory} (h : memory.Holds []) (x : Executable) (ctx : RunContext) (k : Nat) :
    (x.moment memory ctx k).memory.Holds (x.moment memory ctx k).operands := by
  induction k with
  | zero =>
    change (Moment.start x memory ctx).memory.Holds (Moment.start x memory ctx).operands
    unfold Moment.start
    split <;> exact h
  | succ k ih =>
    rw [moment_succ]
    exact Moment.holds_next ih

/-! ### Between runs -/

namespace Session

/-- The program has come about by compilations, and the slots stand for data. -/
structure Grounded (s : Session) : Prop where
  reached : ∃ last, CompileState.Reached last s.compiled
  shows : ∃ names slots, s.memory.Shows names slots

/-- The run that answers a request after `k` steps, unless the request is answered without a run. -/
def moment? (s : Session) (r : Request) (k : Nat) : Option Moment :=
  match s.courseOf r with
  | .batch mapping f forced full =>
    let ready := ({ s with mapping } : Session).prepared full
    (compile f ready.compiled).image.map fun image =>
      let current := ready.installed image
      image.executable.moment current.memory (current.settings forced image) k
  | _ => none

variable {s : Session}

theorem grounded_fresh (options : Options) : ({ options } : Session).Grounded :=
  ⟨⟨none, .new⟩, fun _ => none, [], Heap.sound_empty, .nil⟩

theorem Grounded.withMapping (h : s.Grounded) (mapping : GraphMapping) :
    ({ s with mapping } : Session).Grounded := ⟨h.reached, h.shows⟩

theorem Grounded.reset (h : s.Grounded) : s.reset.Grounded := by
  obtain ⟨⟨last, hlast⟩, names, slots, hshows⟩ := h
  exact ⟨⟨last, hlast.resetForNewDelta⟩, names, slots, hshows.sound, hshows.held⟩

theorem Grounded.prepared (h : s.Grounded) (full : Bool) : (s.prepared full).Grounded := by
  obtain ⟨⟨last, hlast⟩, hshows⟩ := h.reset
  rw [prepared_eq]
  refine ⟨⟨last, ?_⟩, hshows⟩
  cases full with
  | false => exact hlast
  | true => exact hlast.resetForFullExecution

/-- The slots that a run starts with. -/
theorem Grounded.holds_installed (h : s.Grounded) (image : CompiledImage) :
    (s.installed image).memory.Holds [] := by
  obtain ⟨names, slots, hshows⟩ := h.shows
  change (s.withRoom image.globalCount).memory.Holds []
  unfold withRoom
  dsimp only
  split
  · exact (hshows.grow _).holds
  · exact hshows.holds

section Batch

variable {f : Fragment} {image : CompiledImage}

/-- A run of a compiled program comes to its end. -/
theorem Grounded.exists_moment (h : s.Grounded) (hcompile : (compile f s.compiled).image = some image)
    (memory : Memory) (ctx : RunContext) : ∃ k, image.executable.moment memory ctx k =
      .ended (execute image.executable memory ctx).1 (execute image.executable memory ctx).2 := by
  obtain ⟨last, hlast⟩ := h.reached
  exact exists_moment_execute (hlast.forwardFrom hcompile ctx.block) memory

/-- The slots that a run leaves. -/
theorem Grounded.holds_execute (h : s.Grounded) (hcompile : (compile f s.compiled).image = some image)
    (ctx : RunContext) : (execute image.executable (s.installed image).memory ctx).2.Holds [] := by
  obtain ⟨k, hk⟩ := h.exists_moment hcompile (s.installed image).memory ctx
  have hend := holds_moment (h.holds_installed image) image.executable ctx k
  rwa [hk] at hend

/-- However a batch ends, the slots stand for data. -/
theorem Grounded.outcome (h : s.Grounded) (f : Fragment) (forced : List Nat) (full : Bool) :
    (s.outcome f forced full).2.Grounded := by
  have hready := h.prepared full
  obtain ⟨last, hlast⟩ := hready.reached
  rcases s.outcome_cases f forced full with ⟨diagnostics, -, ho⟩ |
    ⟨diagnostics, result, memory, hcompile, hx, ho⟩
  · rw [ho]
    exact ⟨hready.reached, hready.shows⟩
  · have himage := congrArg CompileOutcome.image hcompile
    have hend := hready.holds_execute himage
      (((s.prepared full).installed ((s.prepared full).compiled.compiled f).image).settings forced
        ((s.prepared full).compiled.compiled f).image)
    rw [hx] at hend
    obtain ⟨names, slots, hshows⟩ := hend.shows
    rw [ho]
    cases result with
    | ok run => exact ⟨⟨_, hlast.compiled himage⟩, names, slots, hshows.collect⟩
    | error fault => exact ⟨hready.reached, names, _, hshows.clearFrom _⟩

end Batch

theorem Grounded.answer (h : s.Grounded) (hs : s.Sound) (r : Request) :
    (s.answer r.call).2.Grounded := by
  rw [answer_call hs]
  cases s.courseOf r with
  | refuse operation mode => exact h
  | skip => exact h.reset
  | configure options => exact ⟨h.reached, h.shows⟩
  | batch mapping f forced full => exact (h.withMapping mapping).outcome f forced full

/-- Between two requests, the slots of every session stand for data. -/
theorem grounded_run (options : Options) (history : List Request) :
    (({ options } : Session).run history).Grounded := by
  have hboth := run_induction (P := fun s => s.Sound ∧ s.Grounded)
    ⟨sound_fresh options, grounded_fresh options⟩
    (fun _ h r => ⟨(h.1.answer r).1, h.2.answer h.1 r⟩) history
  exact hboth.2

/-! ### At all times -/

/-- The run that answers a request comes to its end, and the slots of the session are those that it leaves,
without what a faulted run has put into new ones. -/
theorem Grounded.exists_moment? (h : s.Grounded) (hs : s.Sound) {r : Request} {start : Moment}
    (hstart : s.moment? r 0 = some start) : ∃ k result memory,
      s.moment? r k = some (.ended result memory) ∧ (s.answer r.call).2.memory = match result with
        | .ok _ => memory.collect.2
        | .error _ => memory.clearFrom s.compiled.globalCount := by
  rw [answer_call hs]
  cases hcourse : s.courseOf r with
  | batch mapping f forced full =>
    simp only [moment?, hcourse] at hstart ⊢
    obtain ⟨image, himage, -⟩ := Option.map_eq_some_iff.1 hstart
    rcases outcome_cases { s with mapping } f forced full with ⟨diagnostics, hcompile, -⟩ |
      ⟨diagnostics, result, memory, hcompile, hx, ho⟩
    · rw [hcompile] at himage
      cases himage
    · obtain ⟨k, hk⟩ := ((h.withMapping mapping).prepared full).exists_moment
        (congrArg CompileOutcome.image hcompile) _ _
      rw [hx] at hk
      refine ⟨k, result, memory, ?_, ?_⟩
      · rw [hcompile]
        exact congrArg some hk
      · rw [taken, ho, prepared_eq]
        cases result <;> rfl
  | _ =>
    rw [moment?, hcourse] at hstart
    cases hstart

/-- The moments of the run that answers a request keep values founded. -/
theorem Grounded.holds_moment? (h : s.Grounded) {r : Request} {k : Nat} {moment : Moment}
    (hmoment : s.moment? r k = some moment) : moment.memory.Holds moment.operands := by
  unfold moment? at hmoment
  split at hmoment
  · rename_i mapping f forced full hcourse
    obtain ⟨image, himage, rfl⟩ := Option.map_eq_some_iff.1 hmoment
    exact holds_moment (((h.withMapping mapping).prepared full).holds_installed image) _ _ _
  · cases hmoment

/-- At all times the values in the memory of a session can be compared and copied: those of the slots between
two requests, whatever they have led to, and those of the slots, the operand stacks and the arguments
after any number of steps of the run that answers a request. -/
theorem comparable_run (options : Options) (history : List Request) :
    let s := ({ options } : Session).run history
    s.memory.Comparable s.memory.globals.toList ∧
      ∀ r k moment, s.moment? r k = some moment →
        moment.memory.Comparable (moment.memory.globals.toList ++ moment.operands) := by
  have hgrounded := grounded_run options history
  refine ⟨?_, fun r k moment hmoment => (hgrounded.holds_moment? hmoment).comparable⟩
  obtain ⟨names, slots, hshows⟩ := hgrounded.shows
  exact (Memory.Founds.mono hshows.holds (List.subset_append_left _ _)).comparable

/-- The first slot has an array that a faulted run has made. In the call of `f` it is about to be compared
with an item of the argument. -/
theorem comparable_run_faulted :
    let s := ({ options := { interpreterMode := true, maxDepth := 3 } } : Session).run
      [.updateCode "a = \x7b1\x7d;", .updateCode "a = \x7ba, a\x7d; def f(n) = f(n); b = f(a);"]
    let r := Request.updateCode "c = f(\x7b\x7b\x22x\x22\x7d, 1\x7d); def f(n) = n[0] == a;"
    s.memory.Comparable s.memory.globals.toList ∧
    s.memory.globals.toList.map Value.pointer? = [some 1, none] ∧
    ∃ moment, s.moment? r 10 = some moment ∧
      moment.operands.map Value.pointer? = [some 1, some 3, some 4] ∧
      moment.memory.Comparable (moment.memory.globals.toList ++ moment.operands) := by
  intro s r
  have hglobals : s.memory.globals.toList.map Value.pointer? = [some 1, none] := by decide +kernel
  have hoperands : (s.moment? r 10).map (·.operands.map Value.pointer?) =
      some [some 1, some 3, some 4] := by decide +kernel
  obtain ⟨moment, hmoment, hoperands⟩ := Option.map_eq_some_iff.1 hoperands
  obtain ⟨hslots, hmoments⟩ := comparable_run { interpreterMode := true, maxDepth := 3 }
    [.updateCode "a = \x7b1\x7d;", .updateCode "a = \x7ba, a\x7d; def f(n) = f(n); b = f(a);"]
  exact ⟨hslots, hglobals, moment, hmoment, hoperands, hmoments r 10 moment hmoment⟩

end Session

end Reflow
