import Reflow.Proofs.Session.Layout
/-!
# The course of a request

A request is refused, or skipped, or it sets options, or it becomes a batch. Which of these it is depends
on the options and the program only, and a batch is answered in one of three ways. Two sessions that are
asked the same can so be compared course by course.

## Main definitions

* `Course`: what a request comes down to, with `Session.courseOf`.
* `Session.imageOf?`: the program that is compiled to answer a request.
* `Session.outcome`: what a batch comes to.
* `Session.taken`: what a course comes to.

## Main results

* `Session.answer_call`: a request is answered by taking its course.
* `Session.outcome_cases`: a batch is rejected, or its run succeeds, or its run faults.
* `Session.answer_ok_cases`, `Session.answer_fault_cases`: what a request has done, by its answer.
-/

namespace Reflow

/-- What a request comes down to. -/
inductive Course
  | refuse (operation : String) (interpreterMode : Bool)
  | skip
  | configure (options : Options)
  /-- Compile and run a fragment; the mapping has the changes that go with it. -/
  | batch (mapping : GraphMapping) (fragment : Fragment) (forced : List Nat) (full : Bool)

namespace Session

/-- What a request comes down to in a session. -/
def courseOf (s : Session) : Request → Course
  | .updateGraph b =>
    if s.options.interpreterMode ≠ false then .refuse "update_graph" s.options.interpreterMode
    else if b.isEmpty then .skip
    else .batch (s.mapping.build b).2 (s.mapping.build b).1 [] false
  | .updateCode code =>
    if s.options.interpreterMode ≠ true then .refuse "update_code" s.options.interpreterMode
    else if Text.isBlankText code then .skip
    else .batch s.mapping (.ofCode code) [] false
  | .rerunSubtree subtree =>
    match s.statementsOf subtree with
    | [] => .skip
    | forced => .batch s.mapping {} forced false
  | .rerunAll => .batch s.mapping {} [] true
  | .setOptions options => .configure options

/-- The program that is compiled to answer a request, unless there is none or it is rejected. -/
def imageOf? (s : Session) (r : Request) : Option CompiledImage :=
  match s.courseOf r with
  | .batch mapping f _ full =>
    (compile f (({ s with mapping } : Session).prepared full).compiled).image
  | _ => none

/-- What a batch comes to: the answer, and the session after it. -/
def outcome (s : Session) (f : Fragment) (forced : List Nat) (full : Bool) :
    Except SessionError Report × Session :=
  let ready := s.prepared full
  match compile f ready.compiled with
  | ⟨diagnostics, none⟩ => (.error (.compile diagnostics), ready.abandon)
  | ⟨diagnostics, some image⟩ =>
    let current := ready.installed image
    match execute image.executable current.memory (current.settings forced image) with
    | (.ok run, memory) =>
      (.ok ((current.succeeded memory).report
        (warningTexts diagnostics ++ run.warnings.map RuntimeWarning.text) run.executed.length),
        current.succeeded memory)
    | (.error fault, memory) => (.error (.execute fault), rolledBack ready current memory)

/-- What a course comes to: the answer, and the session after it. -/
def taken (s : Session) : Course → Except SessionError (Option Report) × Session
  | .refuse operation mode => (.error (.modeMismatch operation mode), s)
  | .skip => (.ok (some { globalCount := s.memory.globalCount }), s.reset)
  | .configure options => (.ok none, s.setOptions options)
  | .batch mapping f forced full =>
    let (result, s) := ({ s with mapping } : Session).outcome f forced full
    (result.map some, s)

variable {s : Session}

theorem run_runBatch_eq (h : s.Sound) (f : Fragment) (forced : List Nat) (full : Bool) :
    (runBatch f forced full).run s = match s.outcome f forced full with
      | (.ok report, s') => .ok report s'
      | (.error e, s') => .error e s' := by
  rw [run_runBatch h.phase h.baseline]
  unfold outcome
  dsimp only
  rcases compile f (s.prepared full).compiled with ⟨diagnostics, _ | image⟩
  · rfl
  · dsimp only
    rcases execute _ _ _ with ⟨fault | run, memory⟩ <;> rfl

theorem answer_map_runBatch (h : s.Sound) (f : Fragment) (forced : List Nat) (full : Bool) :
    s.answer (some <$> runBatch f forced full) =
      (((s.outcome f forced full).1.map some), (s.outcome f forced full).2) := by
  unfold answer
  rw [map_eq_pure_bind, EStateM.run_bind, run_runBatch_eq h]
  rcases s.outcome f forced full with ⟨e | report, s'⟩ <;> rfl

theorem answer_skip : s.answer (some <$> skip) =
    (.ok (some { globalCount := s.memory.globalCount }), s.reset) := by
  simp only [answer, skip, map_eq_pure_bind, EStateM.run_bind, EStateM.run_modify, EStateM.run_get]
  rfl

theorem answer_requireMode (operation : String) (mode : Bool) (call : SessionCall Report) :
    s.answer (some <$> do requireMode operation mode; call) =
      if s.options.interpreterMode ≠ mode then
        (.error (.modeMismatch operation s.options.interpreterMode), s)
      else s.answer (some <$> call) := by
  simp only [answer, requireMode, map_eq_pure_bind, EStateM.run_bind, EStateM.run_get]
  by_cases hmode : s.options.interpreterMode = mode
  · simp only [hmode, ne_eq, not_true, if_false, EStateM.run_pure]
  · simp only [hmode, ne_eq, not_false_eq_true, if_true, EStateM.run_throw]

/-- The fragment of a batch is run after the mapping has taken over the batch. -/
theorem answer_build (b : Batch) :
    s.answer (some <$> do
      let fragment ← modifyGet fun s =>
        let (fragment, mapping) := s.mapping.build b
        (fragment, { s with mapping })
      runBatch fragment [] false) =
    ({ s with mapping := (s.mapping.build b).2 } : Session).answer
      (some <$> runBatch (s.mapping.build b).1 [] false) := by
  simp only [answer, map_eq_pure_bind, EStateM.run_bind, EStateM.run_modifyGet]

/-- A request is answered by taking its course. -/
theorem answer_call (h : s.Sound) (r : Request) : s.answer r.call = s.taken (s.courseOf r) := by
  cases r with
  | updateGraph b =>
    have hbuilt : ({ s with mapping := (s.mapping.build b).2 } : Session).Sound :=
      ⟨h.phase, h.baseline, h.compiled⟩
    refine (answer_requireMode "update_graph" false _).trans ?_
    by_cases hmode : s.options.interpreterMode = false
    · by_cases hempty : b.isEmpty = true
      · simp only [courseOf, hmode, hempty, ne_eq, not_true, if_false, if_true]
        exact answer_skip
      · simp only [courseOf, hmode, hempty, ne_eq, not_true, if_false, Bool.false_eq_true]
        exact (answer_build b).trans (answer_map_runBatch hbuilt (s.mapping.build b).1 [] false)
    · simp only [courseOf, hmode, ne_eq]
      rfl
  | updateCode code =>
    refine (answer_requireMode "update_code" true _).trans ?_
    by_cases hmode : s.options.interpreterMode = true
    · by_cases hblank : Text.isBlankText code = true
      · simp only [courseOf, hmode, hblank, ne_eq, not_true, if_false, if_true]
        exact answer_skip
      · simp only [courseOf, hmode, hblank, ne_eq, not_true, if_false, Bool.false_eq_true]
        exact answer_map_runBatch h (.ofCode code) [] false
    · simp only [courseOf, hmode, ne_eq]
      rfl
  | rerunSubtree subtree =>
    have hcall : s.answer (some <$> rerunSubtree subtree) = match s.statementsOf subtree with
        | [] => s.answer (some <$> skip)
        | forced => s.answer (some <$> runBatch {} forced false) := by
      simp only [answer, rerunSubtree, map_eq_pure_bind, EStateM.run_bind, EStateM.run_get]
      cases s.statementsOf subtree <;> rfl
    refine hcall.trans ?_
    simp only [courseOf]
    cases s.statementsOf subtree with
    | nil => rfl
    | cons first rest => exact answer_map_runBatch h {} (first :: rest) false
  | rerunAll => exact answer_map_runBatch h {} [] true
  | setOptions options => rfl

/-- A batch is rejected, or its run succeeds, or its run faults. -/
theorem outcome_cases (s : Session) (f : Fragment) (forced : List Nat) (full : Bool) :
    let ready := s.prepared full
    let image := (ready.compiled.compiled f).image
    (∃ diagnostics, compile f ready.compiled = ⟨diagnostics, none⟩ ∧
      s.outcome f forced full = (.error (.compile diagnostics), ready.abandon)) ∨
    ∃ diagnostics result memory, compile f ready.compiled = ⟨diagnostics, some image⟩ ∧
      execute image.executable (ready.installed image).memory
        ((ready.installed image).settings forced image) = (result, memory) ∧
      s.outcome f forced full = match result with
        | .ok run => (.ok (((ready.installed image).succeeded memory).report
            (warningTexts diagnostics ++ run.warnings.map RuntimeWarning.text)
            run.executed.length), (ready.installed image).succeeded memory)
        | .error fault => (.error (.execute fault),
            rolledBack ready (ready.installed image) memory) := by
  dsimp only
  unfold outcome
  dsimp only
  rcases hcompile : compile f (s.prepared full).compiled with ⟨diagnostics, _ | image⟩
  · exact .inl ⟨diagnostics, rfl, rfl⟩
  · obtain rfl := compile_image (congrArg CompileOutcome.image hcompile)
    dsimp only
    rcases execute _ _ _ with ⟨result, memory⟩
    refine .inr ⟨diagnostics, result, memory, rfl, rfl, ?_⟩
    cases result <;> rfl

/-- What a batch has run that was taken over. -/
theorem taken_batch_ok {m : GraphMapping} {f : Fragment} {forced : List Nat} {full : Bool}
    {answer : Option Report} {s' : Session}
    (h : s.taken (.batch m f forced full) = (.ok answer, s')) :
    let ready := ({ s with mapping := m } : Session).prepared full
    let image := (ready.compiled.compiled f).image
    ∃ (run : Execution) (memory : Memory) (warnings : List String),
      execute image.executable (ready.installed image).memory
        ((ready.installed image).settings forced image) = (.ok run, memory) ∧
      s' = (ready.installed image).succeeded memory ∧
      answer = some (s'.report warnings run.executed.length) := by
  simp only [taken] at h
  rcases ({ s with mapping := m } : Session).outcome_cases f forced full with
    ⟨diagnostics, -, ho⟩ | ⟨diagnostics, result, memory, -, hx, ho⟩
  · rw [ho] at h
    cases h
  · rw [ho] at h
    cases result with
    | ok run =>
      cases h
      exact ⟨run, memory, _, hx, rfl, rfl⟩
    | error fault => cases h

/-- A request that succeeds is skipped, or it sets options, or its batch is run without a fault. -/
theorem answer_ok_cases (h : s.Sound) {r : Request} {answer : Option Report} {s' : Session}
    (ha : s.answer r.call = (.ok answer, s')) :
    (s.courseOf r = .skip ∧ answer = some { globalCount := s.memory.globalCount } ∧ s' = s.reset) ∨
    (∃ options, s.courseOf r = .configure options ∧ answer = none ∧ s' = s.setOptions options) ∨
    ∃ (mapping : GraphMapping) (f : Fragment) (forced : List Nat) (full : Bool) (run : Execution)
      (memory : Memory) (warnings : List String),
      let ready := ({ s with mapping } : Session).prepared full
      let image := (ready.compiled.compiled f).image
      s.courseOf r = .batch mapping f forced full ∧
        execute image.executable (ready.installed image).memory
          ((ready.installed image).settings forced image) = (.ok run, memory) ∧
        s' = (ready.installed image).succeeded memory ∧
        answer = some (s'.report warnings run.executed.length) := by
  rw [answer_call h] at ha
  cases hcourse : s.courseOf r with
  | refuse operation mode =>
    rw [hcourse] at ha
    cases ha
  | skip =>
    rw [hcourse] at ha
    cases ha
    exact .inl ⟨rfl, rfl, rfl⟩
  | configure options =>
    rw [hcourse] at ha
    cases ha
    exact .inr (.inl ⟨options, rfl, rfl, rfl⟩)
  | batch mapping f forced full =>
    rw [hcourse] at ha
    obtain ⟨run, memory, warnings, hrun⟩ := taken_batch_ok ha
    exact .inr (.inr ⟨mapping, f, forced, full, run, memory, warnings, rfl, hrun⟩)

/-- A request that is answered by a fault has a batch whose run has faulted. -/
theorem answer_fault_cases (h : s.Sound) {r : Request} {fault : Fault} {s' : Session}
    (ha : s.answer r.call = (.error (.execute fault), s')) :
    ∃ (mapping : GraphMapping) (f : Fragment) (forced : List Nat) (full : Bool) (memory : Memory),
      let ready := ({ s with mapping } : Session).prepared full
      let image := (ready.compiled.compiled f).image
      s.courseOf r = .batch mapping f forced full ∧
        execute image.executable (ready.installed image).memory
          ((ready.installed image).settings forced image) = (.error fault, memory) ∧
        s' = rolledBack ready (ready.installed image) memory := by
  rw [answer_call h] at ha
  cases hcourse : s.courseOf r with
  | refuse operation mode =>
    rw [hcourse] at ha
    cases ha
  | skip =>
    rw [hcourse] at ha
    cases ha
  | configure options =>
    rw [hcourse] at ha
    cases ha
  | batch mapping f forced full =>
    rw [hcourse, taken] at ha
    dsimp only at ha
    rcases outcome_cases { s with mapping } f forced full with
      ⟨diagnostics, -, heq⟩ | ⟨diagnostics, fault | run, memory, -, hr, heq⟩
    · rw [heq] at ha
      cases ha
    · rw [heq] at ha
      cases ha
      exact ⟨mapping, f, forced, full, memory, rfl, hr, rfl⟩
    · rw [heq] at ha
      cases ha

end Session

end Reflow
