import Reflow.Proofs.Lang.Reading
import Reflow.Proofs.Program.Sources
import Reflow.Proofs.Session.Definers
/-!
# What calls by name run

A session compiles one text, a piece with each request that it accepts, and its active statements and
functions come from there. A call by name in one of them runs the last definition of the function, in
whatever order the text mentions, calls and defines it, with one exception: if the name was a variable when
the call was compiled, since the text had read or assigned it and neither called nor defined it before, then
the call reads this variable for good, also when the name has become a function since.

## Main definitions

* `Executable.Stores`, `Executable.Returns`: what statements and functions evaluate.
* `Executable.Runs`, `Executable.RunsGlobal`: the two ways in which a call by name goes on.
* `Session.source`: the text that a session compiles.
* `Session.RunsCalls`: what the calls in a piece of code run.

## Main results

* `CompileState.StemsFrom.runs`: a call by a name that was a function runs its last definition.
* `Session.stemsFrom_run`: the program of a session comes from its text.
* `Session.calls_run`: what statements and functions evaluate, and what their calls run.
-/

namespace Reflow

namespace Executable

/-- The range evaluates the expression `e` under `σ` and stores its value. -/
def Stores (x : Executable) (r : Range) (slot : Nat) (σ : Naming) (e : Expr) : Prop :=
  ∀ limit depth, runRange x limit depth r = do
    let v ← evaluate x (enterWithin x limit depth) σ r.locals e
    storeValue slot v
    return .null

/-- The top-level procedure `p`, called with as many arguments as it has parameters, evaluates the expression
`e` under `σ`, one call deeper. -/
def Returns (x : Executable) (p : Procedure) (σ : Naming) (e : Expr) : Prop :=
  ∀ limit depth vs, vs.length = p.arity →
    callProcedure x (enterWithin x limit (depth + 1)) 0 p.index vs =
      evaluate x (enterWithin x limit depth) σ vs e

/-- A call by the name `f` under `σ` evaluates the arguments and then, one call deeper, the expression `body`
under `σ'`. -/
def Runs (x : Executable) (σ : Naming) (f : String) (args : List Expr) (σ' : Naming) (body : Expr) : Prop :=
  ∀ limit depth locals, evaluate x (enterWithin x limit (depth + 1)) σ locals (.call f args) = do
    let vs ← evaluateAll x (enterWithin x limit (depth + 1)) σ locals args
    evaluate x (enterWithin x limit depth) σ' vs body

/-- A call by the name `f` under `σ` calls the value of a global. -/
def RunsGlobal (x : Executable) (σ : Naming) (f : String) (args : List Expr) (slot : Nat) : Prop :=
  ∀ enter locals, evaluate x enter σ locals (.call f args) = do
    let callee ← readGlobal slot
    callValue x enter callee (← evaluateAll x enter σ locals args)

end Executable

/-! ### Calls in a program -/

namespace CompileState

variable {t : CompileState} {text past : List Statement} {params : List String} {σ : Naming}
  {f : String} {args : List Expr} {p : Procedure} {body : Expr}

theorem Sound.returns (ht : t.Sound) (hp : p ∈ t.root.procedures.procedures) (hon : p.isActive = true)
    {r : ProcedureUses} {block : CodeBlock} (hcomputes : t.Computes p r block σ body) :
    t.executable.Returns p σ body := by
  intro limit depth vs hvs
  obtain ⟨i, hi⟩ := List.mem_iff_getElem?.1 hp
  obtain rfl : p.index = i := ht.tabled.procedures i p hi
  obtain ⟨b, hb, -⟩ := hcomputes.body
  simp only [callProcedure, executable_procedureOf?_zero, hi, hon, hb, if_true, hvs]
  rw [enterWithin, runRange_eq]
  exact Sound.runFrame_computes hcomputes hb _ vs

/-- The name of an active function stands for its procedure, if it was a function when the code was
compiled. -/
theorem Resolves.eq_procedure (h : t.Resolves past params σ) (ht : t.Sound) (hf : f ∉ params)
    (hkind : kindAfter past f = .function) (hp : t.active? f = some p) :
    ∃ pointer, σ f = .procedure p.index pointer := by
  obtain ⟨i, pointer, hσ, hi⟩ := h.function f hf hkind
  obtain ⟨hget, -⟩ := Option.filter_eq_some_iff.1 hp
  rw [ht.tabled.procedureIndex_eq, hget, Option.map_some] at hi
  exact ⟨pointer, Option.some.inj hi ▸ hσ⟩

/-- A call by a name that was a function runs the last definition of the function. -/
theorem StemsFrom.runs (h : t.StemsFrom text) (ht : t.Sound) (hres : t.Resolves past params σ)
    (hf : f ∉ params) (hkind : kindAfter past f = .function) (hp : t.active? f = some p)
    (harity : p.arity = args.length) : ∃ past' body σ', DefinedAt text past' f p.params body ∧
      t.Resolves past' p.params σ' ∧ t.executable.Runs σ f args σ' body := by
  obtain ⟨pointer, hσ⟩ := hres.eq_procedure ht hf hkind hp
  obtain ⟨past', body, u, hfrom⟩ := h.functions f p hp
  obtain ⟨r, block, hcomputes⟩ := hfrom.computes
  obtain ⟨hmem, hon, -⟩ := mem_of_active? hp
  refine ⟨past', body, _, hfrom.place, hfrom.stage.resolves p.params, fun limit depth locals => ?_⟩
  rw [evaluate, hσ]
  funext m
  change EStateM.run _ m = EStateM.run _ m
  simp only [EStateM.run_bind]
  cases hargs : (evaluateAll t.executable (enterWithin t.executable limit (depth + 1)) σ locals args).run
    m with
  | error fault m' => rfl
  | ok vs m' =>
    have hvs := (length_evaluateAll hargs).trans harity.symm
    simp only [ht.returns hmem hon hcomputes limit depth vs hvs]

/-- A call by a name that was a global calls the value of this global. -/
theorem Resolves.runsGlobal (h : t.Resolves past params σ) (hf : f ∉ params)
    (hkind : kindAfter past f = .global) : ∃ slot, t.root.symbols.indexOf? f = some slot ∧
      t.executable.RunsGlobal σ f args slot := by
  obtain ⟨slot, hσ, hslot⟩ := h.global f hf hkind
  refine ⟨slot, hslot, fun enter locals => ?_⟩
  rw [evaluate, hσ]
  rfl

end CompileState

/-! ### The text of a session -/

/-- The statements of a batch. -/
def Course.statements : Course → List Statement
  | .batch _ f _ _ => f.units.flatMap FragmentUnit.program
  | _ => []

namespace Session

/-- What a request adds to the text: the statements of its batch, if it is accepted. -/
def added (s : Session) (r : Request) : List Statement :=
  match (s.answer r.call).1 with
  | .ok _ => (s.courseOf r).statements
  | .error _ => []

/-- The text that a session compiles to answer a series of requests. -/
def source (s : Session) : List Request → List Statement
  | [] => []
  | r :: rest => s.added r ++ (s.answer r.call).2.source rest

variable {s : Session} {text past : List Statement} {params : List String} {σ : Naming} {e : Expr}

/-- A request that is accepted adds to the text of the program, and all others leave the program as it was. -/
theorem stemsFrom_answer (h : s.compiled.StemsFrom text) (hs : s.Sound) (r : Request) :
    (s.answer r.call).2.compiled.StemsFrom (text ++ s.added r) := by
  have hsame : s.compiled.StemsFrom (text ++ []) := by rwa [List.append_nil]
  rw [added, answer_call hs]
  cases s.courseOf r with
  | refuse operation mode => exact hsame
  | skip => exact hsame.scheduled hs.compiled _ _ _
  | configure options => exact hsame
  | batch m f forced full =>
    have hsound := (hs.withMapping m).prepared full
    have hready : (({ s with mapping := m } : Session).prepared full).compiled.StemsFrom text := by
      rw [prepared_eq]
      exact h.scheduled hs.compiled _ _ _
    have hsame : (({ s with mapping := m } : Session).prepared full).compiled.StemsFrom (text ++ []) := by
      rwa [List.append_nil]
    simp only [taken]
    rcases ({ s with mapping := m } : Session).outcome_cases f forced full with
      ⟨diagnostics, -, ho⟩ | ⟨diagnostics, result, memory, hcompile, -, ho⟩
    · rw [ho]
      exact hsame
    · cases result with
      | ok run =>
        rw [ho]
        exact hready.compiled hsound.compiled hcompile
      | error fault =>
        rw [ho]
        exact hsame

theorem stemsFrom_requests (h : s.compiled.StemsFrom text) (hs : s.Sound) (history : List Request) :
    (s.run history).compiled.StemsFrom (text ++ s.source history) := by
  induction history generalizing s text with
  | nil => rwa [source, List.append_nil]
  | cons r rest ih =>
    rw [source, ← List.append_assoc]
    exact ih (stemsFrom_answer h hs r) (hs.answer r).1

/-- The program of a session comes from its text. -/
theorem stemsFrom_run (options : Options) (history : List Request) :
    (({ options } : Session).run history).compiled.StemsFrom (({ options } : Session).source history) :=
  stemsFrom_requests CompileState.stemsFrom_empty (sound_fresh options) history

/-- What a piece of code adds to the text, if it is accepted. -/
theorem added_updateCode (hmode : s.options.interpreterMode = true) {code : String}
    {program : List Statement} (hread : parseProgram code = .ok program)
    (hblank : Text.isBlankText code = false)
    (hok : (s.answer (Request.updateCode code).call).1.toBool = true) :
    s.added (.updateCode code) = program := by
  have hcourse : s.courseOf (.updateCode code) = .batch s.mapping (.ofCode code) [] false := by
    simp [courseOf, hmode, hblank]
  rw [added, hcourse]
  cases hanswer : (s.answer (Request.updateCode code).call).1 with
  | error e =>
    rw [hanswer] at hok
    cases hok
  | ok report => simp [Course.statements, Fragment.ofCode, FragmentUnit.program, hread]

/-- The text of a session that has compiled one rendered program is the program. -/
theorem source_renderAll {options : Options} (hmode : options.interpreterMode = true)
    {program : List Statement} (hlexable : ∀ s ∈ program, s.Lexable)
    (hreadable : ∀ s ∈ program, s.Readable) (hself : program.map Statement.reread = program)
    (hblank : Text.isBlankText (Statement.renderAll program) = false)
    (hok : (({ options } : Session).answer
      (Request.updateCode (Statement.renderAll program)).call).1.toBool = true) :
    ({ options } : Session).source [.updateCode (Statement.renderAll program)] = program := by
  have hread := (parseProgram_renderAll_eq_ok_iff hlexable).2 ⟨hreadable, hself.symm⟩
  rw [source, added_updateCode hmode hread hblank hok]
  exact List.append_nil _

/-! ### What calls run -/

/-- Calls in the expression `e` by the name of an active function, with as many arguments as it has
parameters: if the name was a function after the text `past`, then they run the last definition of the
function, and otherwise they call the value of the variable that the name was. -/
def RunsCalls (s : Session) (text past : List Statement) (params : List String) (σ : Naming) (e : Expr) :
    Prop :=
  ∀ f args p, (f, args) ∈ e.calls → f ∉ params → s.executable.active? f = some p →
    p.arity = args.length →
    (kindAfter past f = .function → ∃ past' body σ', DefinedAt text past' f p.params body ∧
      s.compiled.Resolves past' p.params σ' ∧ s.executable.Runs σ f args σ' body) ∧
    (kindAfter past f ≠ .function → ∃ slot, s.slotOf? f = some slot ∧
      s.executable.RunsGlobal σ f args slot)

/-- Calls run what they have to, in code that is in the text. -/
theorem LaidOut.runsCalls (hs : s.LaidOut) (h : s.compiled.StemsFrom text)
    (hres : s.compiled.Resolves past params σ)
    (hcalls : ∀ f args, (f, args) ∈ e.calls → f ∉ params → kindAfter past f ≠ .unknown) :
    s.RunsCalls text past params σ e := by
  obtain ⟨entry, updates, full, hx⟩ := hs.executable
  have ht := (s.compiled.evolves_scheduled entry updates full hs.sound.compiled).1
  have hstems := h.scheduled hs.sound.compiled entry updates full
  have hresolves := (CompileState.resolves_scheduled entry updates full).2 hres
  intro f args p hcall hf hp harity
  rw [hs.active?] at hp
  rw [hx]
  refine ⟨fun hkind => ?_, fun hkind => ?_⟩
  · obtain ⟨past', body, σ', hdefined, hres', hruns⟩ := hstems.runs ht hresolves hf hkind hp harity
    exact ⟨past', body, σ', hdefined, (CompileState.resolves_scheduled entry updates full).1 hres', hruns⟩
  · have hglobal := NameKind.eq_global (hcalls f args hcall hf) hkind
    obtain ⟨slot, hslot, hruns⟩ := hresolves.runsGlobal hf hglobal
    exact ⟨slot, (hs.slotOf?_eq f).trans hslot, hruns⟩

/-- What the statements and functions of a session evaluate, and what their calls run. -/
theorem calls_run (options : Options) (history : List Request) :
    let s := ({ options } : Session).run history
    let text := ({ options } : Session).source history
    (∀ g, s.executable.graph? = some g → ∀ n ∈ g.nodes, n.isActive = true →
      ∃ past target value slot σ, AssignedAt text past n.id target value ∧ s.slotOf? target = some slot ∧
        s.compiled.Resolves past [] σ ∧ s.executable.Stores ⟨0, n.start, n.stop, []⟩ slot σ value ∧
        s.RunsCalls text past [] σ value) ∧
    ∀ name p, s.executable.active? name = some p →
      ∃ past body σ, DefinedAt text past name p.params body ∧ s.compiled.Resolves past p.params σ ∧
        s.executable.Returns p σ body ∧ s.RunsCalls text past p.params σ body := by
  intro s text
  have hs : s.LaidOut := laidOut_run options history
  have h : s.compiled.StemsFrom text := stemsFrom_run options history
  obtain ⟨entry, updates, full, hx⟩ := hs.executable
  have ht := (s.compiled.evolves_scheduled entry updates full hs.sound.compiled).1
  have hstems := h.scheduled hs.sound.compiled entry updates full
  refine ⟨fun g hg n hn hon => ?_, fun name p hp => ?_⟩
  · rw [hx, CompileState.executable_graph?] at hg
    obtain rfl := Option.some.inj hg
    obtain ⟨past, target, value, u, hfrom⟩ := hstems.statements n hn hon
    obtain ⟨slot, hslot, hassigns⟩ := hfrom.assigns
    have hres := (CompileState.resolves_scheduled entry updates full).1 (hfrom.stage.resolves [])
    refine ⟨past, target, value, slot, _, hfrom.place, (hs.slotOf?_eq target).trans hslot, hres,
      fun limit depth => ?_, hs.runsCalls h hres fun f args hcall hf => ?_⟩
    · rw [hx, runRange_eq, CompileState.Sound.runFrame_assigns hassigns]
    · exact hfrom.place.kindAfter_ne_unknown (Expr.call_mem_mentions hf value hcall)
  · rw [hs.active?] at hp
    obtain ⟨past, body, u, hfrom⟩ := hstems.functions name p hp
    obtain ⟨r, block, hcomputes⟩ := hfrom.computes
    obtain ⟨hmem, hon, -⟩ := CompileState.mem_of_active? hp
    have hres := (CompileState.resolves_scheduled entry updates full).1 (hfrom.stage.resolves p.params)
    refine ⟨past, body, _, hfrom.place, hres, ?_, hs.runsCalls h hres fun f args hcall hf => ?_⟩
    · rw [hx]
      exact ht.returns hmem hon hcomputes
    · exact hfrom.place.kindAfter_ne_unknown (Expr.call_mem_mentions hf body hcall)

/-- A program that reads `g` before it calls it, and calls `f` at once; both are defined in the end. -/
def crossed : List Statement :=
  [.assign "x" (.name "g"), .assign "y" (.call "g" [.int 1]), .assign "z" (.call "f" [.int 1]),
    .define "f" ["n"] (.name "n"), .define "g" ["n"] (.name "n")]

/-- A session that compiles the program. -/
def crossing : List Request := [.updateCode (Statement.renderAll crossed)]

theorem source_crossing :
    ({ options := { interpreterMode := true } } : Session).source crossing = crossed :=
  source_renderAll rfl (by decide +kernel) (by decide +kernel) rfl (by decide +kernel) (by decide +kernel)

/-- The statement that follows the reading calls the variable, and the other one runs the function. -/
theorem calls_run_crossing :
    let s := ({ options := { interpreterMode := true } } : Session).run crossing
    ∃ g, s.executable.graph? = some g ∧
      (∃ n ∈ g.nodes, ∃ slot σ callee, n.id = 1 ∧
        s.executable.Stores ⟨0, n.start, n.stop, []⟩ slot σ (.call "g" [.int 1]) ∧
        s.slotOf? "g" = some callee ∧ s.executable.RunsGlobal σ "g" [.int 1] callee) ∧
      ∃ n ∈ g.nodes, ∃ slot σ σ', n.id = 2 ∧
        s.executable.Stores ⟨0, n.start, n.stop, []⟩ slot σ (.call "f" [.int 1]) ∧
        s.executable.Runs σ "f" [.int 1] σ' (.name "n") := by
  intro s
  have hstatements := (calls_run { interpreterMode := true } crossing).1
  rw [source_crossing] at hstatements
  change ∀ g, s.executable.graph? = some g → _ at hstatements
  obtain ⟨g, hg⟩ : ∃ g, s.executable.graph? = some g := Option.isSome_iff_exists.1 (by decide +kernel)
  -- both statements and both functions are active
  have hnode : ∀ i ∈ [1, 2], ∃ n ∈ g.nodes, n.id = i ∧ n.isActive = true := fun i hi => by
    have hnodes : ∀ i ∈ [1, 2], s.executable.graph?.any (·.nodes.any fun n => n.id = i ∧ n.isActive) =
        true := by decide +kernel
    simpa [hg] using hnodes i hi
  have hfunction : ∀ f ∈ ["f", "g"], ∃ p, s.executable.active? f = some p ∧ p.params = ["n"] := by
    simp only [← Option.map_eq_some_iff (f := Procedure.params)]
    decide +kernel
  refine ⟨g, hg, ?_, ?_⟩
  · obtain ⟨n, hn, hid, hon⟩ := hnode 1 (by decide)
    obtain ⟨p, hp, hparams⟩ := hfunction "g" (by decide)
    have harity : p.arity = 1 := congrArg List.length hparams
    obtain ⟨past, target, value, slot, σ, hplace, -, -, hstores, hcalls⟩ := hstatements g hg n hn hon
    rw [hid] at hplace
    obtain ⟨rfl, rfl, rfl⟩ := AssignedAt.unique ⟨⟨crossed.drop 2, rfl⟩, [_], rfl, rfl⟩ hplace
    obtain ⟨-, hglobal⟩ := hcalls "g" [.int 1] p List.mem_cons_self List.not_mem_nil hp harity
    obtain ⟨callee, hcallee, hruns⟩ := hglobal (by decide +kernel)
    exact ⟨n, hn, slot, σ, callee, hid, hstores, hcallee, hruns⟩
  · obtain ⟨n, hn, hid, hon⟩ := hnode 2 (by decide)
    obtain ⟨p, hp, hparams⟩ := hfunction "f" (by decide)
    have harity : p.arity = 1 := congrArg List.length hparams
    obtain ⟨past, target, value, slot, σ, hplace, -, -, hstores, hcalls⟩ := hstatements g hg n hn hon
    rw [hid] at hplace
    obtain ⟨rfl, rfl, rfl⟩ := AssignedAt.unique ⟨⟨crossed.drop 3, rfl⟩, [_, _], rfl, rfl⟩ hplace
    obtain ⟨hfirst, -⟩ := hcalls "f" [.int 1] p List.mem_cons_self List.not_mem_nil hp harity
    obtain ⟨past', body, σ', hdefined, -, hruns⟩ := hfirst (by decide +kernel)
    obtain ⟨-, rfl⟩ : p.params = ["n"] ∧ body = .name "n" := by simpa [crossed] using hdefined.mem
    exact ⟨n, hn, slot, σ, σ', hid, hstores, hruns⟩

end Session

end Reflow
