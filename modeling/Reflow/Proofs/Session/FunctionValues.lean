import Reflow.Proofs.Session.Comparison
/-!
# Function values over whole sessions

A function value is a place in the table of function pointers, and what stands there is known only to the
programs that have the table. As long as a session keeps such a program, the value stands for the same
function, whatever is compiled later. A run that faults is taken back with the pointers that its batch gave
out first, so that a store of one of these, which stays, is not covered.

## Main definitions

* `Executable.Denotes`: the function that a pointer stands for in a program.
* `Session.Spares`: no request of a series stores into a slot.

## Main results

* `Session.LaidOut.global?_run`: a slot that is spared keeps its value.
* `Session.function_values`: a function value stands for the same function as long as it is in its slot.
-/

namespace Reflow

/-! ### What a pointer stands for -/

/-- The pointer of a function value. -/
def Value.function? : Value → Option Nat
  | .function pointer => some pointer
  | _ => none

theorem Value.function?_eq_some {v : Value} {pointer : Nat} :
    v.function? = some pointer ↔ v = .function pointer := by
  cases v <;> simp [function?]

/-- The pointer stands for the top-level procedure of an index, which has the given name. -/
def Executable.Denotes (x : Executable) (pointer index : Nat) (name : String) : Prop :=
  x.pointers.target? pointer = some (0, index) ∧ (x.procedure? index).map (·.name) = some name

namespace Executable.Denotes

variable {x : Executable} {pointer index : Nat} {name : String}

instance (x : Executable) (pointer index : Nat) (name : String) :
    Decidable (x.Denotes pointer index name) :=
  inferInstanceAs (Decidable (_ ∧ _))

/-- The function is shown by its name. -/
theorem functionName_eq (h : x.Denotes pointer index name) : x.functionName pointer = name := by
  obtain ⟨p, hp, hname⟩ := Option.map_eq_some_iff.1 h.2
  have hp : x.procedureOf? 0 index = some p := hp
  simp only [functionName, h.1, Option.bind_some, hp, hname]

/-- A call of the value is a call of the procedure. -/
theorem callValue_eq (h : x.Denotes pointer index name) (enter : Range → Run Value)
    (args : List Value) :
    callValue x enter (.function pointer) args = callProcedure x enter 0 index args := by
  simp only [callValue, h.1]

end Executable.Denotes

namespace CompileState

variable {s t : CompileState} {pointer index : Nat} {name : String}

theorem denotes_iff : s.executable.Denotes pointer index name ↔
    s.pointers.targets[pointer]? = some (0, index) ∧
      (s.root.procedures.procedures.map Procedure.name)[index]? = some name := by
  rw [List.getElem?_map]
  exact Iff.rfl

/-- A later program knows the pointers of an earlier one. -/
theorem Extends.denotes (h : s.Extends t) (hs : s.executable.Denotes pointer index name) :
    t.executable.Denotes pointer index name := by
  obtain ⟨htarget, hname⟩ := denotes_iff.1 hs
  exact denotes_iff.2 ⟨getElem?_of_isPrefix h.pointers htarget, getElem?_of_isPrefix h.names hname⟩

/-- A pointer that the earlier program has stands for the same in it. -/
theorem Extends.denotes_back (h : s.Extends t) (hs : s.Sound)
    (hknown : (s.pointers.target? pointer).isSome) (ht : t.executable.Denotes pointer index name) :
    s.executable.Denotes pointer index name := by
  obtain ⟨target, htarget⟩ := Option.isSome_iff_exists.1 hknown
  obtain ⟨p, hp, rfl⟩ := hs.tabled.targets target (List.mem_of_getElem? htarget)
  have hdenotes : s.executable.Denotes pointer p (s.root.procedures.procedures[p]).name :=
    denotes_iff.2 ⟨htarget, by rw [List.getElem?_map, List.getElem?_eq_getElem hp]; rfl⟩
  obtain ⟨htarget', hname'⟩ := h.denotes hdenotes
  obtain rfl : p = index := congrArg Prod.snd (Option.some.inj (htarget'.symm.trans ht.1))
  rwa [Option.some.inj (ht.2.symm.trans hname')]

end CompileState

namespace Session

variable {s : Session} {slot : Nat}

/-! ### What a slot holds -/

/-- A batch changes no slot of the program but those that are noted. -/
theorem LaidOut.global?_outcome (h : s.LaidOut) (f : Fragment) (forced : List Nat) (full : Bool)
    (hslot : slot < s.compiled.globalCount)
    (hspared : (compile f (s.prepared full).compiled).image.isSome →
      slot ∉ (s.outcome f forced full).2.memory.modified) :
    (s.outcome f forced full).2.memory.global? slot = s.memory.global? slot := by
  have hready := h.prepared full
  have hprepared : (s.prepared full).memory.global? slot = s.memory.global? slot := by
    rw [prepared_eq]
    rfl
  have hcount : slot < (s.prepared full).compiled.globalCount := by
    rw [prepared_eq]
    exact hslot
  have hinstalled (image : CompiledImage) :
      ((s.prepared full).installed image).memory.global? slot = s.memory.global? slot :=
    (global?_withRoom _ _ slot).trans
      ((if_pos (Nat.lt_of_lt_of_le hcount hready.room)).trans hprepared)
  have hupdates := hready.sound.updates f forced
  rcases s.outcome_cases f forced full with ⟨diagnostics, -, ho⟩ |
    ⟨diagnostics, result, memory, hcompile, hx, ho⟩
  · rw [ho]
    exact hprepared
  · have hspared := hspared (Option.isSome_of_eq_some (congrArg CompileOutcome.image hcompile))
    dsimp only at hupdates
    rw [hx] at hupdates
    rw [ho] at hspared ⊢
    cases result with
    | ok run => exact (hupdates.kept slot hspared).trans (hinstalled _)
    | error fault =>
      have hunmodified : slot ∉ memory.modified := fun hmem =>
        hspared (List.mem_filter.2 ⟨hmem, decide_eq_true hcount⟩)
      exact (Memory.global?_clearFrom_of_lt hcount).trans
        ((hupdates.kept slot hunmodified).trans (hinstalled _))

/-- No request of the series that is compiled and run stores another value into the slot. -/
def Spares (s : Session) (slot : Nat) : List Request → Prop
  | [] => True
  | r :: rest => ((s.imageOf? r).isSome → slot ∉ (s.answer r.call).2.memory.modified) ∧
      (s.answer r.call).2.Spares slot rest

/-- A request changes no slot of the program but those that are noted. -/
theorem LaidOut.global?_answer (h : s.LaidOut) {r : Request} (hslot : slot < s.compiled.globalCount)
    (hspared : (s.imageOf? r).isSome → slot ∉ (s.answer r.call).2.memory.modified) :
    (s.answer r.call).2.memory.global? slot = s.memory.global? slot := by
  rw [answer_call h.sound] at hspared ⊢
  rw [imageOf?] at hspared
  cases hr : s.courseOf r with
  | refuse operation mode => rfl
  | skip => rfl
  | configure options => rfl
  | batch m f forced full =>
    rw [hr] at hspared
    exact (h.withMapping m).global?_outcome f forced full hslot hspared

/-- A slot that is spared keeps its value. -/
theorem LaidOut.global?_run (h : s.LaidOut) {later : List Request}
    (hslot : slot < s.compiled.globalCount) (hspares : s.Spares slot later) :
    (s.run later).memory.global? slot = s.memory.global? slot := by
  induction later generalizing s with
  | nil => rfl
  | cons r rest ih =>
    have hnext := h.run [r]
    refine (ih hnext.laidOut ?_ hspares.2).trans (h.global?_answer hslot hspares.1)
    exact Nat.lt_of_lt_of_le hslot hnext.program.slots

theorem LaidOut.lt_globalCount (h : s.LaidOut) {name : String} (hslot : s.slotOf? name = some slot) :
    slot < s.compiled.globalCount := by
  obtain ⟨symbol, hat, -⟩ := h.slotOf?_eq_some.1 hslot
  rw [CompileState.globalCount, h.sound.compiled.tabled.slots]
  exact (List.getElem?_eq_some_iff.1 hat).1

/-! ### What function values stand for -/

variable {pointer index : Nat} {function : String}

theorem LaidOut.denotes_iff (h : s.LaidOut) : s.executable.Denotes pointer index function ↔
    s.compiled.executable.Denotes pointer index function := by
  obtain ⟨entry, updates, full, hx⟩ := h.executable
  rw [hx]
  exact Iff.rfl

/-- The program that is compiled for a request is a later one than that of the session, and the session has
it when the request has succeeded. -/
theorem LaidOut.compiled_imageOf? (h : s.LaidOut) {r : Request} {image : CompiledImage}
    (himage : s.imageOf? r = some image) :
    image.executable = image.state.executable ∧ s.compiled.Extends image.state ∧
      ∀ report, (s.answer r.call).1 = .ok report → (s.answer r.call).2.compiled = image.state := by
  rw [answer_call h.sound]
  rw [imageOf?] at himage
  cases hr : s.courseOf r with
  | batch m f forced full =>
    rw [hr] at himage
    have hready := (h.withMapping m).prepared full
    obtain rfl := compile_image himage
    have hext := (evolves_compiled f _ hready.sound.compiled).2
    refine ⟨rfl, ?_, fun report hreport => ?_⟩
    · rw [prepared_eq] at hext ⊢
      exact (s.compiled.evolves_scheduled _ [] full h.sound.compiled).2.trans hext
    · simp only [taken] at hreport ⊢
      rcases ({ s with mapping := m } : Session).outcome_cases f forced full with
        ⟨diagnostics, hcompile, -⟩ | ⟨diagnostics, result, memory, -, -, ho⟩
      · simp only [hcompile] at himage
        cases himage
      · rw [ho] at hreport ⊢
        cases result with
        | ok run => rfl
        | error fault => cases hreport
  | _ =>
    rw [hr] at himage
    cases himage

/-- A pointer that a batch uses stands for the same function afterwards, if the batch succeeds or the pointer
was there before. -/
theorem LaidOut.denotes_answer (h : s.LaidOut) {r : Request} {image : CompiledImage}
    (himage : s.imageOf? r = some image) (hdenotes : image.executable.Denotes pointer index function)
    (hkept : (∃ report, (s.answer r.call).1 = .ok report) ∨
      (s.executable.pointers.target? pointer).isSome) :
    (s.answer r.call).2.compiled.executable.Denotes pointer index function := by
  obtain ⟨hx, hext, hok⟩ := h.compiled_imageOf? himage
  rw [hx] at hdenotes
  rcases hkept with ⟨report, hreport⟩ | hknown
  · rwa [hok report hreport]
  · refine (h.run [r]).program.denotes (hext.denotes_back h.sound.compiled ?_ hdenotes)
    obtain ⟨entry, updates, full, hx⟩ := h.executable
    rwa [hx] at hknown

/-- A variable that holds a function value shows the name of its function. -/
theorem query_function {name : String} (hslot : s.slotOf? name = some slot)
    (hvalue : s.memory.global? slot = some (.function pointer))
    (hdenotes : s.executable.Denotes pointer index function) :
    s.query (.named name) = some (.function function) := by
  obtain ⟨symbol, hsymbol, rfl⟩ := Option.map_eq_some_iff.1 hslot
  change s.memory.snapshotOf? s.executable name = _
  rw [Memory.snapshotOf?, hsymbol, Option.bind_some, Memory.snapshotAt?, hvalue, Option.map_some,
    Memory.snapshot, Memory.snapshotWithin, hdenotes.functionName_eq]

/-- Function values keep their meaning. A run has left a pointer in the slot of a name that was known before
the call, and in the program that was run the pointer stands for a function. Unless the run has faulted and
its batch was the first to use the function as a value, then for as long as nothing is stored into the slot
the name shows this function, and in every program that is run the value calls this function. -/
theorem function_values (options : Options) (history : List Request) (request : Request)
    (image : CompiledImage) (name : String) (slot pointer index : Nat) (function : String)
    (later : List Request)
    (himage : (({ options } : Session).run history).imageOf? request = some image)
    (hslot : (({ options } : Session).run history).slotOf? name = some slot)
    (hvalue : ((({ options } : Session).run history).answer request.call).2.memory.global? slot =
      some (.function pointer))
    (hdenotes : image.executable.Denotes pointer index function)
    (hkept : (∃ report, ((({ options } : Session).run history).answer request.call).1 = .ok report) ∨
      ((({ options } : Session).run history).executable.pointers.target? pointer).isSome)
    (hspares : ((({ options } : Session).run history).answer request.call).2.Spares slot later) :
    let s := ((({ options } : Session).run history).answer request.call).2.run later
    s.memory.global? slot = some (.function pointer) ∧
      s.query (.named name) = some (.function function) ∧
      s.executable.Denotes pointer index function ∧
      ∀ next image', s.imageOf? next = some image' →
        image'.executable.Denotes pointer index function ∧ ∀ enter args,
          callValue image'.executable enter (.function pointer) args =
            callProcedure image'.executable enter 0 index args := by
  have h := laidOut_run options history
  generalize ({ options } : Session).run history = s₀ at *
  have hanswer := h.run [request]
  have hlater := hanswer.laidOut.run later
  have hcompiled := h.denotes_answer himage hdenotes hkept
  have hslot₁ := (hanswer.slotOf? h hslot).1
  have hslot₂ := (hlater.slotOf? hanswer.laidOut hslot₁).1
  have hvalue₂ :=
    (hanswer.laidOut.global?_run (hanswer.laidOut.lt_globalCount hslot₁) hspares).trans hvalue
  have hcompiled₂ := hlater.program.denotes hcompiled
  have hdenotes₂ := hlater.laidOut.denotes_iff.2 hcompiled₂
  refine ⟨hvalue₂, query_function hslot₂ hvalue₂ hdenotes₂, hdenotes₂,
    fun next image' himage' => ?_⟩
  obtain ⟨hx, hext, -⟩ := hlater.laidOut.compiled_imageOf? himage'
  have hnext : image'.executable.Denotes pointer index function := hx ▸ hext.denotes hcompiled₂
  exact ⟨hnext, hnext.callValue_eq⟩

/-- The session in which `p` holds the function `g`. -/
def holding : List Request := [.updateCode "def g() = 1; p = g; x = null;"]

/-- The run stores `g` in `x` and then faults, and later another function is used as a value: `x` still shows
`g`. -/
theorem function_values_faulted :
    let s := ({ options := { interpreterMode := true, maxDepth := 2 } } : Session).run holding
    let r := Request.updateCode "x = g; def f(n) = f(n); z = f(1);"
    let s' := (s.answer r.call).2
    Faulted (s.answer r.call).1 ∧
      (s'.run [.updateCode "def h() = 2; y = h;"]).query (.named "x") = some (.function "g") := by
  intro s r s'
  have hfault : (s.answer r.call).1 = .error (.execute (.callDepthExceeded 2)) := by decide +kernel
  obtain ⟨image, himage⟩ : ∃ image, s.imageOf? r = some image :=
    Option.isSome_iff_exists.1 (by decide +kernel)
  have hdenotes : image.executable.Denotes 0 0 "g" := by
    have hall : (s.imageOf? r).all (fun image => decide (image.executable.Denotes 0 0 "g")) = true := by
      decide +kernel
    rw [himage] at hall
    exact of_decide_eq_true hall
  have hvalue : s'.memory.global? 1 = some (.function 0) := by
    have hpointer : (s'.memory.global? 1).bind Value.function? = some 0 := by decide +kernel
    obtain ⟨v, hv, hpointer⟩ := Option.bind_eq_some_iff.1 hpointer
    rw [hv, Value.function?_eq_some.1 hpointer]
  obtain ⟨-, hquery, -⟩ := function_values { interpreterMode := true, maxDepth := 2 } holding r image "x"
    1 0 0 "g" [.updateCode "def h() = 2; y = h;"] himage (by decide +kernel) hvalue hdenotes
    (.inr (by decide +kernel)) ⟨fun _ => by decide +kernel, trivial⟩
  exact ⟨⟨_, hfault⟩, hquery⟩

end Session

end Reflow
