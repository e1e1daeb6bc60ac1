import Reflow.Proofs.Session.Course
import Reflow.Proofs.Session.Renumbering
/-!
# Comparing sessions

Two sessions with the same program compile the same fragments to the same images, whatever their
memories hold, and if they also have the same memory and work with the same configuration, then they
give the same answers from there on. What else a session holds has no influence: the list of what has to
run next and the notes of changes are cleared before every batch, and the numbers of nodes only name
them.

## Main definitions

* `Session.Akin`: two sessions with the same program.
* `Session.Alike`: two sessions with the same program and the same memory.
* `Session.InStep`: two sessions whose runs fault at the same requests.

## Main results

* `Akin.run`: sessions with the same program keep to it while they are in step.
* `Alike.answer_run`: sessions that are alike answer alike.
-/

namespace Reflow

namespace CompileState

theorem scheduled_self (s : CompileState) :
    s = s.scheduled s.root.stream.entry s.root.stream.updates s.fullExecution := rfl

/-- What a compilation makes of a program does not depend on what had to run next. -/
theorem beginCompile_scheduled (s : CompileState) (entry entry' : Option Nat)
    (updates updates' : List UpdateRoot) (full : Bool) :
    (s.scheduled entry updates full).beginCompile =
      (s.scheduled entry' updates' full).beginCompile := rfl

theorem compile_scheduled (f : Fragment) (s : CompileState) (entry entry' : Option Nat)
    (updates updates' : List UpdateRoot) (full : Bool) :
    compile f (s.scheduled entry updates full) = compile f (s.scheduled entry' updates' full) := by
  unfold compile
  rw [s.beginCompile_scheduled entry entry' updates updates' full]

end CompileState

/-- The two courses are the same up to the numbers of nodes. -/
inductive Course.Renumbers (rename : Nat → Nat) : Course → Course → Prop
  | refuse (operation : String) (mode : Bool) :
    Renumbers rename (.refuse operation mode) (.refuse operation mode)
  | skip : Renumbers rename .skip .skip
  | configure (options : Options) : Renumbers rename (.configure options) (.configure options)
  | batch {m m' : GraphMapping} (h : m.Renumbers rename m') (f : Fragment) (forced : List Nat)
    (full : Bool) : Renumbers rename (.batch m f forced full) (.batch m' f forced full)

/-- A snapshot copies from the heap only. -/
theorem Memory.snapshotWithin_congr {m m' : Memory} (h : m'.heap = m.heap) (x : Executable)
    (depth : Nat) (v : Value) : m'.snapshotWithin x depth v = m.snapshotWithin x depth v := by
  induction depth generalizing v with
  | zero => cases v <;> simp only [snapshotWithin, h]
  | succ depth ih =>
    cases v <;> simp only [snapshotWithin, h]
    rename_i p
    cases m.heap.array? p with
    | none => rfl
    | some items => exact congrArg Snapshot.array (List.map_congr_left fun v _ => ih v)

/-- What slots show is read from the slots and the heap only. -/
theorem Memory.snapshotAt?_congr {m m' : Memory} (hheap : m'.heap = m.heap)
    (hglobals : m'.globals = m.globals) (x : Executable) : m'.snapshotAt? x = m.snapshotAt? x := by
  have hvalue : m'.snapshot x = m.snapshot x := by
    funext v
    rw [snapshot, hheap]
    exact snapshotWithin_congr hheap _ _ v
  funext slot
  rw [snapshotAt?, snapshotAt?, global?, global?, hglobals, hvalue]

namespace Session

/-- The configuration of the next batch. -/
def upcoming (s : Session) : Configuration :=
  if s.optionsPending then .ofOptions s.options else s.configuration

/-- The two sessions have the same options and the same program, and all that their mappings say is the
same up to the numbers of nodes. -/
structure Akin (rename : Nat → Nat) (a b : Session) : Prop where
  left : a.Sound
  right : b.Sound
  options : b.options = a.options
  executable : b.executable = a.executable
  compiled : ∃ entry updates full, b.compiled = a.compiled.scheduled entry updates full
  mapping : a.mapping.Renumbers rename b.mapping

/-- The two sessions also have the same memory and the same configuration for the next batch. -/
structure Alike (rename : Nat → Nat) (a b : Session) : Prop extends Akin rename a b where
  globals : b.memory.globals = a.memory.globals
  heap : b.memory.heap = a.memory.heap
  upcoming : b.upcoming = a.upcoming

/-- The answer is a fault of a run. -/
def Faulted {α : Type} (answer : Except SessionError α) : Prop :=
  ∃ fault, answer = .error (.execute fault)

theorem faulted_map {α β : Type} (f : α → β) (answer : Except SessionError α) :
    Faulted (answer.map f) ↔ Faulted answer := by
  cases answer <;> simp [Faulted, Except.map]

/-! ### Batches -/

theorem Sound.withMapping {s : Session} (h : s.Sound) (mapping : GraphMapping) :
    ({ s with mapping } : Session).Sound := ⟨h.phase, h.baseline, h.compiled⟩

/-- However a batch ends, the session is sound. -/
theorem Sound.outcome {s : Session} (h : s.Sound) (f : Fragment) (forced : List Nat) (full : Bool) :
    (s.outcome f forced full).2.Sound := by
  have hbatch := sound_runBatch f forced full s h
  rw [run_runBatch_eq h] at hbatch
  rcases hr : s.outcome f forced full with ⟨e | report, s'⟩
  · rw [hr] at hbatch
    exact hbatch.1
  · rw [hr] at hbatch
    exact hbatch

section Batches

variable {rename : Nat → Nat} {a b : Session}

/-- Sessions with the same program compile alike. -/
theorem Akin.compile_eq (h : a.Akin rename b) (f : Fragment) (full : Bool) :
    compile f (b.prepared full).compiled = compile f (a.prepared full).compiled := by
  obtain ⟨entry, updates, full', hcompiled⟩ := h.compiled
  rw [prepared_eq, prepared_eq]
  dsimp only
  rw [hcompiled]
  exact a.compiled.compile_scheduled f _ _ _ _ full

theorem Akin.prepared (h : a.Akin rename b) (full : Bool) :
    (a.prepared full).Akin rename (b.prepared full) := by
  have hleft := h.left.prepared full
  have hright := h.right.prepared full
  rw [prepared_eq] at hleft hright ⊢
  rw [prepared_eq]
  obtain ⟨entry, updates, full', hcompiled⟩ := h.compiled
  refine ⟨hleft, hright, h.options, h.executable,
    ⟨b.compiled.root.stream.entry, [], full, ?_⟩, h.mapping⟩
  dsimp only
  rw [hcompiled]
  rfl

/-- As long as both runs fault or neither does, batches leave sessions with the same program. -/
theorem Akin.outcome (h : a.Akin rename b) (f : Fragment) (forced : List Nat) (full : Bool)
    (hfault : Faulted (a.outcome f forced full).1 ↔ Faulted (b.outcome f forced full).1) :
    (a.outcome f forced full).2.Akin rename (b.outcome f forced full).2 := by
  have hready := h.prepared full
  have hcompile := h.compile_eq f full
  have hleft := h.left.outcome f forced full
  have hright := h.right.outcome f forced full
  rcases a.outcome_cases f forced full with ⟨diagnostics, ha, hao⟩ |
      ⟨diagnostics, result, memory, ha, -, hao⟩ <;>
    rcases b.outcome_cases f forced full with ⟨diagnostics', hb, hbo⟩ |
      ⟨diagnostics', result', memory', hb, -, hbo⟩
  · rw [hao] at hleft ⊢
    rw [hbo] at hright ⊢
    exact ⟨hleft, hright, hready.options, hready.executable, hready.compiled, hready.mapping.abandon⟩
  · cases (hb.symm.trans hcompile).trans ha
  · cases (hb.symm.trans hcompile).trans ha
  · obtain ⟨-, himage⟩ := CompileOutcome.mk.inj ((hb.symm.trans hcompile).trans ha)
    have himage := Option.some.inj himage
    rw [hao] at hleft hfault ⊢
    rw [hbo] at hright hfault ⊢
    cases result with
    | ok run =>
      cases result' with
      | ok run' =>
        exact ⟨hleft, hright, hready.options, congrArg CompiledImage.executable himage,
          ⟨_, _, _, (congrArg CompiledImage.state himage).trans (CompileState.scheduled_self _)⟩,
          hready.mapping.commit⟩
      | error fault' =>
        obtain ⟨fault, heq⟩ := hfault.2 ⟨fault', rfl⟩
        cases heq
    | error fault =>
      cases result' with
      | ok run' =>
        obtain ⟨fault', heq⟩ := hfault.1 ⟨fault, rfl⟩
        cases heq
      | error fault' =>
        exact ⟨hleft, hright, hready.options, hready.executable, hready.compiled,
          hready.mapping.abandon⟩

/-- Sessions that are alike report the same up to the numbers of nodes. -/
theorem report_renumber (hexecutable : b.executable = a.executable) (hmemory : b.memory = a.memory)
    (hmapping : a.mapping.Renumbers rename b.mapping) (warnings : List String) (executed : Nat) :
    b.report warnings executed = (a.report warnings executed).renumber rename := by
  simp only [report, Report.renumber, hexecutable, hmemory, List.map_map, Report.mk.injEq, true_and,
    and_true]
  refine List.map_congr_left fun name _ => ?_
  simp only [Function.comp_apply, hmapping.nodeForVariable?]
  cases a.mapping.nodeForVariable? name <;> rfl

theorem upcoming_prepared (s : Session) (full : Bool) :
    (s.prepared full).upcoming = s.upcoming ∧ (s.prepared full).configuration = s.upcoming := by
  rw [prepared_eq]
  exact ⟨rfl, rfl⟩

theorem Alike.prepared (h : a.Alike rename b) (full : Bool) :
    (a.prepared full).Alike rename (b.prepared full) := by
  refine ⟨h.toAkin.prepared full, ?_, ?_, ?_⟩
  · rw [prepared_eq, prepared_eq]
    exact h.globals
  · rw [prepared_eq, prepared_eq]
    exact h.heap
  · rw [(b.upcoming_prepared full).1, (a.upcoming_prepared full).1, h.upcoming]

theorem Alike.memory_prepared (h : a.Alike rename b) (full : Bool) :
    (b.prepared full).memory = (a.prepared full).memory := by
  rw [prepared_eq, prepared_eq]
  simp only [Memory.resetModified, h.globals, h.heap]

/-- Sessions that are alike start a run on the same memory and with the same settings. -/
theorem Alike.installed (h : a.Alike rename b) (full : Bool) (forced : List Nat)
    (image : CompiledImage) :
    ((b.prepared full).installed image).memory = ((a.prepared full).installed image).memory ∧
      ((b.prepared full).installed image).settings forced image =
        ((a.prepared full).installed image).settings forced image := by
  have hready := h.prepared full
  have hmemory := h.memory_prepared full
  have hbaseline : (b.prepared full).baseline = (a.prepared full).baseline := by
    rw [hready.right.baseline, hready.left.baseline, hmemory]
  have hconfiguration : (b.prepared full).configuration = (a.prepared full).configuration := by
    rw [(b.upcoming_prepared full).2, (a.upcoming_prepared full).2, h.upcoming]
  constructor
  · simp only [Session.installed, withRoom, hbaseline, hmemory]
  · simp only [settings, Session.installed, withRoom, hconfiguration]

/-- A batch has the same answer in sessions that are alike, and leaves them alike. -/
theorem Alike.outcome (h : a.Alike rename b) (f : Fragment) (forced : List Nat) (full : Bool) :
    (b.outcome f forced full).1 =
        (a.outcome f forced full).1.map (Report.renumber rename) ∧
      (a.outcome f forced full).2.Alike rename (b.outcome f forced full).2 := by
  have hready := h.prepared full
  have hcompile := h.compile_eq f full
  have hakin := h.toAkin.outcome f forced full
  rcases a.outcome_cases f forced full with ⟨diagnostics, ha, hao⟩ |
      ⟨diagnostics, result, memory, ha, hax, hao⟩ <;>
    rcases b.outcome_cases f forced full with ⟨diagnostics', hb, hbo⟩ |
      ⟨diagnostics', result', memory', hb, hbx, hbo⟩
  · obtain ⟨rfl, -⟩ := CompileOutcome.mk.inj ((hb.symm.trans hcompile).trans ha)
    rw [hao, hbo] at hakin ⊢
    exact ⟨rfl, hakin (by simp [Faulted]), hready.globals, hready.heap, hready.upcoming⟩
  · cases (hb.symm.trans hcompile).trans ha
  · cases (hb.symm.trans hcompile).trans ha
  · obtain ⟨rfl, himage⟩ := CompileOutcome.mk.inj ((hb.symm.trans hcompile).trans ha)
    have himage := Option.some.inj himage
    obtain ⟨hmemory, hsettings⟩ := h.installed full forced ((a.prepared full).compiled.compiled f).image
    rw [himage, hmemory, hsettings, hax] at hbx
    obtain ⟨rfl, rfl⟩ := Prod.mk.inj hbx
    rw [himage] at hbo
    rw [hao, hbo] at hakin ⊢
    cases result with
    | ok run =>
      have hakin := hakin (by simp [Faulted])
      refine ⟨congrArg Except.ok (report_renumber ?_ ?_ ?_ _ _), hakin, rfl, rfl, hready.upcoming⟩
      · rfl
      · rfl
      · exact hready.mapping.commit
    | error fault =>
      have hakin := hakin (by simp [Faulted])
      have hcount : (b.prepared full).compiled.globalCount = (a.prepared full).compiled.globalCount := by
        obtain ⟨entry, updates, full', hcompiled⟩ := hready.compiled
        rw [hcompiled]
        rfl
      refine ⟨rfl, hakin, ?_, rfl, hready.upcoming⟩
      simp only [rolledBack, hcount]

end Batches

/-! ### Requests -/

section Requests

variable {rename : Nat → Nat} {a b : Session}

/-- In sessions with the same program, a request comes down to the same. -/
theorem Akin.courseOf (h : a.Akin rename b) (r : Request) :
    Course.Renumbers rename (a.courseOf r) (b.courseOf r) := by
  cases r with
  | updateGraph batch =>
    obtain ⟨hfragment, hmapping⟩ := h.mapping.build batch
    simp only [Session.courseOf, h.options, hfragment]
    split
    · exact .refuse _ _
    · split
      · exact .skip
      · exact .batch hmapping _ _ _
  | updateCode code =>
    simp only [Session.courseOf, h.options]
    split
    · exact .refuse _ _
    · split
      · exact .skip
      · exact .batch h.mapping _ _ _
  | rerunSubtree subtree =>
    simp only [Session.courseOf, statementsOf, h.executable]
    split
    · exact .skip
    · exact .batch h.mapping _ _ _
  | rerunAll => exact .batch h.mapping _ _ _
  | setOptions options => exact .configure options

theorem Akin.withMapping (h : a.Akin rename b) {m m' : GraphMapping} (hm : m.Renumbers rename m') :
    ({ a with mapping := m } : Session).Akin rename { b with mapping := m' } :=
  ⟨h.left.withMapping m, h.right.withMapping m', h.options, h.executable, h.compiled, hm⟩

theorem Akin.reset (h : a.Akin rename b) : a.reset.Akin rename b.reset := by
  obtain ⟨entry, updates, full, hcompiled⟩ := h.compiled
  refine ⟨h.left.reset, h.right.reset, h.options, h.executable,
    ⟨entry, [], false, ?_⟩, h.mapping⟩
  simp only [Session.reset, hcompiled]
  rfl

theorem Akin.setOptions (h : a.Akin rename b) (options : Options) :
    (a.setOptions options).Akin rename (b.setOptions options) :=
  ⟨⟨h.left.phase, h.left.baseline, h.left.compiled⟩,
    ⟨h.right.phase, h.right.baseline, h.right.compiled⟩, rfl, h.executable, h.compiled, h.mapping⟩

theorem Akin.taken (h : a.Akin rename b) {c c' : Course} (hc : c.Renumbers rename c')
    (hfault : Faulted (a.taken c).1 ↔ Faulted (b.taken c').1) :
    (a.taken c).2.Akin rename (b.taken c').2 := by
  cases hc with
  | refuse operation mode => exact h
  | skip => exact h.reset
  | configure options => exact h.setOptions options
  | batch hm f forced full =>
    refine (h.withMapping hm).outcome f forced full ?_
    exact (faulted_map some _).symm.trans (hfault.trans (faulted_map some _))

/-- As long as both runs fault or neither does, requests leave sessions with the same program. -/
theorem Akin.answer (h : a.Akin rename b) (r : Request)
    (hfault : Faulted (a.answer r.call).1 ↔ Faulted (b.answer r.call).1) :
    (a.answer r.call).2.Akin rename (b.answer r.call).2 := by
  rw [answer_call h.left, answer_call h.right] at hfault ⊢
  exact h.taken (h.courseOf r) hfault

theorem Alike.taken (h : a.Alike rename b) {c c' : Course} (hc : c.Renumbers rename c') :
    (b.taken c').1 = (a.taken c).1.map (Option.map (Report.renumber rename)) ∧
      (a.taken c).2.Alike rename (b.taken c').2 := by
  cases hc with
  | refuse operation mode => exact ⟨rfl, h⟩
  | skip =>
    have hcount : b.memory.globalCount = a.memory.globalCount := congrArg Array.size h.globals
    refine ⟨?_, h.toAkin.reset, h.globals, h.heap, h.upcoming⟩
    simp only [Session.taken, hcount]
    rfl
  | configure options => exact ⟨rfl, h.toAkin.setOptions options, h.globals, h.heap, rfl⟩
  | @batch m m' hm f forced full =>
    have hmapped : ({ a with mapping := m } : Session).Alike rename { b with mapping := m' } :=
      ⟨h.toAkin.withMapping hm, h.globals, h.heap, h.upcoming⟩
    obtain ⟨hanswer, hafter⟩ := hmapped.outcome f forced full
    refine ⟨?_, hafter⟩
    simp only [Session.taken, hanswer]
    rcases ({ a with mapping := m } : Session).outcome f forced full with ⟨e | report, s'⟩ <;> rfl

/-- Sessions that are alike give the same answer and stay alike. -/
theorem Alike.answer (h : a.Alike rename b) (r : Request) :
    (b.answer r.call).1 = (a.answer r.call).1.map (Option.map (Report.renumber rename)) ∧
      (a.answer r.call).2.Alike rename (b.answer r.call).2 := by
  rw [answer_call h.left, answer_call h.right]
  exact h.taken (h.courseOf r)

/-- A series of requests leaves sessions alike. -/
theorem Alike.run (h : a.Alike rename b) (later : List Request) :
    (a.run later).Alike rename (b.run later) := by
  induction later generalizing a b with
  | nil => exact h
  | cons r rest ih => exact ih (h.answer r).2

/-- In each request of the series, either both sessions answer that a run has faulted or neither. -/
def InStep (a b : Session) : List Request → Prop
  | [] => True
  | r :: rest => (Faulted (a.answer r.call).1 ↔ Faulted (b.answer r.call).1) ∧
      (a.answer r.call).2.InStep (b.answer r.call).2 rest

/-- A series of requests leaves sessions with the same program while they are in step. -/
theorem Akin.run (h : a.Akin rename b) {later : List Request} (hstep : a.InStep b later) :
    (a.run later).Akin rename (b.run later) := by
  induction later generalizing a b with
  | nil => exact h
  | cons r rest ih => exact ih (h.answer r hstep.1) hstep.2

theorem Alike.snapshotOf? (h : a.Alike rename b) (name : String) :
    b.memory.snapshotOf? b.executable name = a.memory.snapshotOf? a.executable name := by
  rw [Memory.snapshotOf?, Memory.snapshotOf?, h.executable,
    Memory.snapshotAt?_congr h.heap h.globals]

/-- Sessions that are alike show the same values. -/
theorem Alike.query (h : a.Alike rename b) (hinjective : Function.Injective rename) (node : NodeRef) :
    b.query (node.renumber rename) = a.query node := by
  rw [Session.query, h.mapping.variableFor? hinjective, funext h.snapshotOf?]
  rfl

end Requests

/-! ### Between batches -/

theorem mapping_prepared (s : Session) (full : Bool) : (s.prepared full).mapping = s.mapping := by
  rw [prepared_eq]

/-- A batch that succeeds commits what is pending in the mapping, and all others drop it. -/
theorem mapping_outcome (s : Session) (f : Fragment) (forced : List Nat) (full : Bool) :
    (s.outcome f forced full).2.mapping = s.mapping.commit ∧
        (∃ report, (s.outcome f forced full).1 = .ok report) ∨
      (s.outcome f forced full).2.mapping = s.mapping.abandon ∧
        ∃ e, (s.outcome f forced full).1 = .error e := by
  have hmapping := s.mapping_prepared full
  rcases s.outcome_cases f forced full with ⟨diagnostics, -, ho⟩ |
    ⟨diagnostics, result, memory, -, -, ho⟩
  · rw [ho]
    exact .inr ⟨congrArg GraphMapping.abandon hmapping, _, rfl⟩
  · rw [ho]
    cases result with
    | ok run => exact .inl ⟨congrArg GraphMapping.commit hmapping, _, rfl⟩
    | error fault => exact .inr ⟨congrArg GraphMapping.abandon hmapping, _, rfl⟩

theorem mapping_of_ok {s s' : Session} {f : Fragment} {forced : List Nat} {full : Bool}
    {report : Report} (h : s.outcome f forced full = (.ok report, s')) :
    s'.mapping = s.mapping.commit := by
  rcases s.mapping_outcome f forced full with ⟨hmapping, -⟩ | ⟨-, e, he⟩
  · rwa [h] at hmapping
  · rw [h] at he
    cases he

theorem mapping_of_error {s s' : Session} {f : Fragment} {forced : List Nat} {full : Bool}
    {e : SessionError} (h : s.outcome f forced full = (.error e, s')) :
    s'.mapping = s.mapping.abandon := by
  rcases s.mapping_outcome f forced full with ⟨-, report, hreport⟩ | ⟨hmapping, -⟩
  · rw [h] at hreport
    cases hreport
  · rwa [h] at hmapping

/-- The session is sound, nothing is pending, and all numbers in use have been given out. -/
structure Tidy (s : Session) : Prop where
  sound : s.Sound
  pending : s.mapping.pending = none
  numbered : s.mapping.Numbered

/-- A mapping that has taken numbers and lost what was pending. -/
theorem Tidy.renumbers {s : Session} (h : s.Tidy) {m : GraphMapping} {k : Nat}
    (hcommitted : m.committed = s.mapping.committed) (hnext : m.nextUid = s.mapping.nextUid + k) :
    s.mapping.Renumbers (shiftFrom s.mapping.nextUid k) m.abandon := by
  have heq : m.abandon = { s.mapping with nextUid := s.mapping.nextUid + k } := by
    rw [GraphMapping.abandon, hcommitted, hnext, ← h.pending]
  exact heq ▸ h.numbered.renumbers h.pending k

/-- The numbers in use have been given out when a request has been built. -/
theorem Tidy.numbered_courseOf {s : Session} (h : s.Tidy) {r : Request} {m : GraphMapping}
    {f : Fragment} {forced : List Nat} {full : Bool} (hr : s.courseOf r = .batch m f forced full) :
    m.Numbered ∧ m.committed = s.mapping.committed ∧
      ∃ k, m.nextUid = s.mapping.nextUid + k := by
  have hkept : s.mapping = m → m.Numbered ∧ m.committed = s.mapping.committed ∧
      ∃ k, m.nextUid = s.mapping.nextUid + k := by
    rintro rfl
    exact ⟨h.numbered, rfl, 0, rfl⟩
  cases r with
  | updateGraph b =>
    simp only [courseOf] at hr
    split at hr
    · cases hr
    · split at hr
      · cases hr
      · cases hr
        refine ⟨h.numbered.build b, rfl, _, (Nat.add_sub_of_le ?_).symm⟩
        exact (GraphMapping.numbered_enlist (s.mapping.kept b) _ fun r hr number hnumber =>
          h.numbered r (List.mem_append_left _ (GraphMapping.mem_kept.1 hr).1) number hnumber).1
  | updateCode code =>
    simp only [courseOf] at hr
    split at hr
    · cases hr
    · split at hr <;> cases hr
      exact hkept rfl
  | rerunSubtree subtree =>
    simp only [courseOf] at hr
    split at hr <;> cases hr
    exact hkept rfl
  | rerunAll =>
    cases hr
    exact hkept rfl
  | setOptions options => cases hr

theorem Tidy.answer {s : Session} (h : s.Tidy) (r : Request) : (s.answer r.call).2.Tidy := by
  have hmapping : (s.answer r.call).2.mapping.pending = none ∧
      (s.answer r.call).2.mapping.Numbered := by
    rw [answer_call h.sound]
    cases hr : s.courseOf r with
    | refuse operation mode => exact ⟨h.pending, h.numbered⟩
    | skip => exact ⟨h.pending, h.numbered⟩
    | configure options => exact ⟨h.pending, h.numbered⟩
    | batch m f forced full =>
      obtain ⟨hm, -, -⟩ := h.numbered_courseOf hr
      rcases ({ s with mapping := m } : Session).mapping_outcome f forced full with ⟨ho, -⟩ | ⟨ho, -⟩
      · simp only [taken, ho]
        exact ⟨rfl, hm.commit⟩
      · simp only [taken, ho]
        exact ⟨rfl, hm.abandon⟩
  exact ⟨(h.sound.answer r).1, hmapping.1, hmapping.2⟩

theorem tidy_run (options : Options) (history : List Request) :
    (({ options } : Session).run history).Tidy :=
  run_induction ⟨sound_fresh options, rfl, fun r hr => by cases hr⟩ (fun _ h r => h.answer r) history

end Session

end Reflow
