import Reflow.Proofs.Session.Definers
/-!
# Which batches are accepted

A batch may bring subtrees that go well with one another and with all live ones, no name being both a
variable and a function, and still be rejected: a variable that was set to null because nothing of its name
was left is assigned by code without a subtree, which stays until a subtree assigns the variable again, so
that no function of that name can be defined.

## Main definitions

* `Prospect`: the names that a program may have when a fragment has been compiled.
* `Prospect.Fits`: the names given out so far go well with a prospect.
* `Batch.prospect`: the names of the subtrees that are live after a batch.

## Main results

* `Progress.OnCourse.clean_units`, `Progress.not_clean_units`: when a compilation meets no error.
* `GraphMapping.Lists.isSome_image_iff`: when a batch compiles.
* `Session.rejected_iff`: which batches a session rejects.
-/

namespace Reflow

/-- A compilation gives an image exactly if it meets no error. -/
theorem isSome_image_iff {f : Fragment} {prior : CompileState} :
    (compile f prior).image.isSome = true ↔ (f.progress prior).Clean := by
  rw [compile_eq, Progress.Clean]
  split
  · simp_all
  · simp_all

/-- The functions and the variables that a program may have when a fragment has been compiled, and the
functions that the fragment defines. -/
structure Prospect where
  isVariable : String → Prop
  isFunction : String → Prop
  isDefined : String → Prop
  /-- No name is both a variable and a function. -/
  apart : ∀ name, isVariable name → ¬ isFunction name
  included : ∀ name, isDefined name → isFunction name

namespace Prospect

/-- What code of an owner may do: set variables to null that are no functions, or assign variables and define
functions for a subtree. -/
def Allows (P : Prospect) : Option SubtreeId → Statement → Prop
  | none, s => ∃ target, s = .assign target .null ∧ ¬ P.isFunction target
  | some _, .assign target _ => P.isVariable target
  | some _, .define name _ _ => P.isDefined name

/-- The names given out so far go well with the prospect. -/
structure Fits (P : Prospect) (r : Roster) (L : Ledger) : Prop where
  definer : ∀ name d, r.definer name = some d → P.isFunction name
  assigned : ∀ id, ∀ name ∈ (L id).filterMap Statement.assigned?, P.isVariable name
  cleared : ∀ name, r.cleared name = true → ¬ P.isDefined name

variable {P : Prospect} {r : Roster} {L : Ledger} {owner : Option SubtreeId} {s : Statement}

/-- What the prospect allows keeps the names in order. -/
theorem Fits.enter (h : P.Fits r L) (hs : P.Allows owner s) :
    P.Fits (r.enter owner s) (L.extend owner [s]) := by
  cases owner with
  | none =>
    obtain ⟨target, rfl, hfree⟩ := hs
    refine ⟨h.definer, fun id name hname => h.assigned id name ?_, fun name hname => ?_⟩
    · simpa [Ledger.extend] using hname
    · by_cases heq : name = target
      · exact heq ▸ mt (P.included target) hfree
      · exact h.cleared name (by simpa [Roster.enter, heq] using hname)
  | some id =>
    cases s with
    | assign target value =>
      refine ⟨h.definer, fun i name hname => ?_, fun name hname => ?_⟩
      · by_cases hi : id = i
        · simp only [Ledger.extend, hi, if_true, List.filterMap_append, List.mem_append] at hname
          rcases hname with hname | hname
          · exact h.assigned i name hname
          · obtain rfl : name = target := by simpa [Statement.assigned?] using hname
            exact hs
        · exact h.assigned i name (by simpa [Ledger.extend, hi] using hname)
      · by_cases heq : name = target
        · simp [Roster.enter, heq] at hname
        · exact h.cleared name (by simpa [Roster.enter, heq] using hname)
    | define function params body =>
      refine ⟨fun name d hd => ?_, fun i name hname => h.assigned i name ?_, h.cleared⟩
      · by_cases heq : name = function
        · exact heq ▸ P.included function hs
        · exact h.definer name d (by simpa [Roster.enter, heq] using hd)
      · by_cases hi : id = i
        · simpa [Ledger.extend, hi, Statement.assigned?] using hname
        · simpa [Ledger.extend, hi] using hname

/-- What the prospect allows is compiled. -/
theorem Fits.compileStatement (h : P.Fits r L) (hs : P.Allows owner s) {state : CompileState}
    (hr : state.Enrols r) (hL : state.Mirrors L) (hsound : state.Sound) :
    ∃ warnings t, compileStatement owner s state = .ok (warnings, t) := by
  have hassign : ∀ target value, ¬ P.isFunction target →
      ∃ warnings t, Reflow.compileStatement owner (.assign target value) state = .ok (warnings, t) := by
    intro target value hfree
    have hfunction : ¬ state.isFunction target = true := by
      rw [hr.isFunction, Option.isSome_iff_exists]
      exact fun ⟨d, hd⟩ => hfree (h.definer target d hd)
    rw [Reflow.compileStatement, compileAssignment_eq, if_neg hfunction]
    exact ⟨_, _, rfl⟩
  cases owner with
  | none =>
    obtain ⟨target, rfl, hfree⟩ := hs
    exact hassign target .null hfree
  | some id =>
    cases s with
    | assign target value => exact hassign target value (P.apart target hs)
    | define name params body =>
      have hassigned : ¬ state.isAssigned name = true := by
        rw [hr.isAssigned hL hsound]
        rintro (hcleared | ⟨id, hname⟩)
        · exact h.cleared name hcleared hs
        · exact P.apart name (h.assigned id name hname) (P.included name hs)
      rw [Reflow.compileStatement, compileFunction_eq, if_neg hassigned]
      exact ⟨_, _, rfl⟩

end Prospect

/-! ### Compilations -/

namespace Progress

variable {p : Progress} {P : Prospect} {r : Roster} {L : Ledger} {owner : Option SubtreeId}
  {s : Statement} {program : List Statement} {units : List FragmentUnit}

/-- A statement that is compiled causes no error. -/
theorem Clean.of_ok (h : p.Clean) {warnings : List String} {t : CompileState}
    (hcompile : compileStatement owner s p.state = .ok (warnings, t)) :
    (p.statement owner s).Clean ∧ (p.statement owner s).state = t := by
  rw [Progress.statement, hcompile]
  refine ⟨fun d hd => ?_, rfl⟩
  rcases List.mem_append.1 hd with hd | hd
  · exact h d hd
  · obtain ⟨w, -, rfl⟩ := List.mem_map.1 hd
    rfl

/-- What a compilation under way keeps that meets no error. -/
structure OnCourse (P : Prospect) (p : Progress) (r : Roster) (L : Ledger) : Prop where
  clean : p.Clean
  sound : p.state.Sound
  enrols : p.state.Enrols r
  mirrors : p.state.Mirrors L
  fits : P.Fits r L

theorem OnCourse.statement (h : OnCourse P p r L) (hs : P.Allows owner s) :
    OnCourse P (p.statement owner s) (r.enter owner s) (L.extend owner [s]) := by
  obtain ⟨warnings, t, hcompile⟩ := h.fits.compileStatement hs h.enrols h.mirrors h.sound
  obtain ⟨hclean, hstate⟩ := h.clean.of_ok hcompile
  have hclears : owner = none → ∃ target, s = .assign target .null := by
    rintro rfl
    obtain ⟨target, hs, -⟩ := hs
    exact ⟨target, hs⟩
  exact ⟨hclean, (stepwise_evolves.statement p owner s h.sound).1,
    hstate ▸ h.enrols.statement h.sound hclears hcompile,
    hstate ▸ h.mirrors.statement h.sound hcompile, h.fits.enter hs⟩

theorem OnCourse.statements (h : OnCourse P p r L) (hprogram : ∀ s ∈ program, P.Allows owner s) :
    OnCourse P (program.foldl (Progress.statement owner) p) (program.foldl (·.enter owner ·) r)
      (L.extend owner program) := by
  induction program generalizing p r L with
  | nil => rwa [Ledger.extend_nil]
  | cons s rest ih =>
    have hrest := ih (h.statement (hprogram s List.mem_cons_self)) fun s hs =>
      hprogram s (List.mem_cons_of_mem _ hs)
    rwa [Ledger.extend_extend] at hrest

/-- A compilation of what the prospect allows meets no error. -/
theorem OnCourse.clean_units (h : OnCourse P p r L) (hunits : ∀ u ∈ units,
      ∃ program, parseProgram u.code = .ok program ∧ ∀ s ∈ program, P.Allows u.owner s) :
    (units.foldl unit p).Clean := by
  induction units generalizing p r L with
  | nil => exact h.clean
  | cons u rest ih =>
    obtain ⟨program, hparse, hprogram⟩ := hunits u List.mem_cons_self
    refine ih (p := p.unit u) (r := program.foldl (·.enter u.owner ·) r)
      (L := L.extend u.owner program) ?_ fun u hu => hunits u (List.mem_cons_of_mem _ hu)
    have hunit : p.unit u = program.foldl (Progress.statement u.owner) p := by
      rw [Progress.unit, hparse]
    exact hunit ▸ h.statements hprogram

end Progress

/-- A cleared variable stays cleared as long as no subtree assigns it. -/
theorem Roster.cleared_enter {r : Roster} {owner : Option SubtreeId} {s : Statement} {name : String}
    (h : r.cleared name = true) (hs : owner = none ∨ s.assigned? ≠ some name) :
    (r.enter owner s).cleared name = true := by
  cases s with
  | define function params body => exact h
  | assign target value =>
    by_cases heq : name = target
    · rcases hs with rfl | hs
      · simp [enter, heq]
      · exact absurd (congrArg some heq.symm) hs
    · simpa [enter, heq] using h

theorem Roster.cleared_foldl {r : Roster} {owner : Option SubtreeId} {program : List Statement}
    {name : String} (h : r.cleared name = true)
    (hprogram : owner = none ∨ ∀ s ∈ program, s.assigned? ≠ some name) :
    (program.foldl (·.enter owner ·) r).cleared name = true :=
  List.foldlRecOn program _ (motive := fun r : Roster => r.cleared name = true) h
    fun _ hr s hs => Roster.cleared_enter hr (hprogram.imp_right fun hprogram => hprogram s hs)

namespace Progress

variable {p : Progress} {r : Roster} {L : Ledger} {name : String} {params : List String} {body : Expr}

/-- A definition of a cleared variable is an error. -/
theorem not_clean_statement (hr : p.state.Enrols r) (hL : p.state.Mirrors L) (hs : p.state.Sound)
    (hcleared : r.cleared name = true) (owner : Option SubtreeId) :
    ¬ (p.statement owner (.define name params body)).Clean := by
  intro hclean
  obtain ⟨-, warnings, hcompile⟩ := hclean.statement
  rw [compileStatement, compileFunction_eq, if_pos ((hr.isAssigned hL hs).2 (.inl hcleared))] at hcompile
  cases hcompile

/-- Units that define a cleared variable, which no subtree assigns before, cause an error. -/
theorem not_clean_units {units : List FragmentUnit} (hr : p.state.Enrols r) (hL : p.state.Mirrors L)
    (hs : p.state.Sound) (hcleared : r.cleared name = true) (hclears : ∀ u ∈ units, u.Clears)
    (hkept : ∀ u ∈ units, u.owner = none ∨ ∀ s ∈ u.program, s.assigned? ≠ some name)
    {u : FragmentUnit} (hu : u ∈ units) (hdefine : .define name params body ∈ u.program) :
    ¬ (units.foldl unit p).Clean := by
  intro hclean
  -- the compilation up to the definition
  obtain ⟨before, after, rfl⟩ := List.append_of_mem hu
  rw [List.foldl_append, List.foldl_cons] at hclean
  have hunit := Clean.of_units hclean
  have hbefore := hunit.of_unit
  have hclears' : ∀ u ∈ before, u.Clears := fun u hu => hclears u (List.mem_append_left _ hu)
  have hsound : (before.foldl unit p).state.Sound :=
    (List.foldlRecOn before unit (motive := fun q : Progress => p.state.Evolves q.state) (.refl _)
      fun q hq u _ => hq.trans (stepwise_evolves.unit q u)) hs |>.1
  have hcleared' := List.foldlRecOn before
    (fun (r : Roster) (u : FragmentUnit) => u.program.foldl (·.enter u.owner ·) r)
    (motive := fun r : Roster => r.cleared name = true) hcleared fun r hr u hu =>
      Roster.cleared_foldl hr (hkept u (List.mem_append_left _ hu))
  have hr' := enrols_units hclears' hbefore hr hs
  have hL' := mirrors_units hbefore hL hs
  rw [hunit.unit_eq] at hunit
  obtain ⟨first, last, hsplit⟩ := List.append_of_mem hdefine
  rw [hsplit, List.foldl_append, List.foldl_cons] at hunit
  have hstatement := Clean.statements hunit
  have hfirst := hstatement.statement.1
  have hmem : ∀ s ∈ first, s ∈ u.program := fun s hs => hsplit ▸ List.mem_append_left _ hs
  refine not_clean_statement (enrols_statements (fun hnone s hs => hclears u hu hnone s (hmem s hs))
    hfirst hr' hsound) (mirrors_statements hfirst hL' hsound) ?_ ?_ u.owner hstatement
  · exact (List.foldlRecOn first (statement u.owner)
      (motive := fun q : Progress => (before.foldl unit p).state.Evolves q.state) (.refl _)
      fun q hq s _ => hq.trans (stepwise_evolves.statement q u.owner s)) hsound |>.1
  · exact Roster.cleared_foldl hcleared' ((hkept u hu).imp_right fun h s hs => h s (hmem s hs))

end Progress

/-! ### Batches -/

/-- Whether a subtree defines a function. -/
def Subtree.defines (t : Subtree) (name : String) : Bool :=
  t.statements.any (·.function? == some name)

namespace Subtree

variable {t : Subtree} {name : String}

theorem defines_iff :
    t.defines name = true ↔ some name ∈ t.statements.map Statement.function? := by
  simp [defines]

theorem mem_boundNames_of_defines (h : t.defines name = true) : name ∈ t.boundNames := by
  obtain ⟨s, hs, hname⟩ := List.mem_map.1 (defines_iff.1 h)
  obtain ⟨params, body, rfl⟩ := Statement.function?_eq_some.1 hname
  exact List.mem_map.2 ⟨_, hs, rfl⟩

/-- What a legible subtree defines, its code defines. -/
theorem Legible.exists_define (h : t.Legible) (hname : t.defines name = true)
    (owner : Option SubtreeId) :
    ∃ params body, .define name params body ∈ (FragmentUnit.mk owner t.code).program := by
  obtain ⟨program, hprogram, hheadings⟩ := h
  have hmem := defines_iff.1 hname
  rw [← Statement.map_congr_of_heading (fun _ _ => Statement.function?_congr) hheadings] at hmem
  obtain ⟨s, hs, hname⟩ := List.mem_map.1 hmem
  obtain ⟨params, body, rfl⟩ := Statement.function?_eq_some.1 hname
  refine ⟨params, body, ?_⟩
  rwa [FragmentUnit.program, hprogram]

/-- What the code of a legible subtree assigns, the subtree assigns. -/
theorem Legible.assigns_of_mem (h : t.Legible) {owner : Option SubtreeId} {s : Statement}
    (hs : s ∈ (FragmentUnit.mk owner t.code).program) (hname : s.assigned? = some name) :
    t.assigns name = true := by
  obtain ⟨program, hprogram, hheadings⟩ := h
  rw [FragmentUnit.program, hprogram] at hs
  rw [assigns_iff, ← Statement.map_congr_of_heading (fun _ _ h => (Statement.eq_of_heading h).1)
    hheadings]
  exact List.mem_map.2 ⟨s, hs, hname⟩

theorem Legible.defines_of_mem (h : t.Legible) {owner : Option SubtreeId} {s : Statement}
    (hs : s ∈ (FragmentUnit.mk owner t.code).program) (hname : s.function? = some name) :
    t.defines name = true := by
  obtain ⟨program, hprogram, hheadings⟩ := h
  rw [FragmentUnit.program, hprogram] at hs
  refine defines_iff.2 ?_
  rw [← Statement.map_congr_of_heading (fun _ _ => Statement.function?_congr) hheadings]
  exact List.mem_map.2 ⟨s, hs, hname⟩

end Subtree

/-- What the live subtrees after a batch assign and define. -/
def Batch.prospect (b : Batch) (live : List Subtree)
    (hapart : ∀ name, (∃ t ∈ b.applied live, t.assigns name = true) →
      ¬ ∃ t ∈ b.applied live, t.defines name = true) : Prospect where
  isVariable name := ∃ t ∈ b.applied live, t.assigns name = true
  isFunction name := ∃ t ∈ b.applied live, t.defines name = true
  isDefined name := ∃ t ∈ b.modified ++ b.added, t.defines name = true
  apart := hapart
  included _ := fun ⟨t, ht, hname⟩ => ⟨t, Batch.mem_applied.2 (.inr ht), hname⟩

namespace GraphMapping.Lists

variable {m : GraphMapping} {live : List Subtree} {b : Batch}
  {hapart : ∀ name, (∃ t ∈ b.applied live, t.assigns name = true) →
    ¬ ∃ t ∈ b.applied live, t.defines name = true}

/-- The prospect of a batch allows what the batch compiles. -/
theorem allows_units (h : m.Lists live) (hb : b.Canonical) (hlive : ∀ t ∈ live, t.Legible)
    (hnew : ∀ t ∈ b.modified ++ b.added, t.Legible) : ∀ u ∈ (m.fragmentOf b).units,
      ∃ program, parseProgram u.code = .ok program ∧
        ∀ s ∈ program, (b.prospect live hapart).Allows u.owner s := by
  intro u hu
  rcases mem_units.1 hu with ⟨name, hname, rfl⟩ | ⟨t, ht, -, rfl⟩
  · refine ⟨_, parseProgram_null (h.isName_of_mem_orphans hb hlive hname),
      List.forall_mem_singleton.2 ⟨name, rfl, ?_⟩⟩
    rintro ⟨t, ht, hdefines⟩
    exact ((h.mem_orphans hb).1 hname).2 t ht (Subtree.mem_boundNames_of_defines hdefines)
  · obtain ⟨program, hprogram, -⟩ := hnew t ht
    refine ⟨program, hprogram, fun s hs => ?_⟩
    have hmem : s ∈ (FragmentUnit.mk (some t.id) t.code).program := by
      rwa [FragmentUnit.program, hprogram]
    cases s with
    | assign target value =>
      exact ⟨t, Batch.mem_applied.2 (.inr ht), (hnew t ht).assigns_of_mem hmem rfl⟩
    | define name params body => exact ⟨t, ht, (hnew t ht).defines_of_mem hmem rfl⟩

/-- When the touched subtrees have been retired, the names go well with the prospect of the batch, unless
the batch defines a cleared variable. -/
theorem fits_retired (h : m.Lists live) {r : Roster} (hr : r.Defined live)
    (hcleared : ∀ t ∈ b.modified ++ b.added, ∀ name, t.defines name = true → r.cleared name = false) :
    (b.prospect live hapart).Fits ((m.fragmentOf b).retired.foldl Roster.retire r)
      ((m.fragmentOf b).retired.foldl Ledger.retire (.ofLive live)) := by
  rw [Roster.foldl_retire]
  refine ⟨fun name d hd => ?_, fun id name hname => ?_, fun name hname => ?_⟩
  · obtain ⟨hd, hkept⟩ := Option.filter_eq_some_iff.1 hd
    obtain ⟨t, ht, hid, body, hdefine⟩ := hr name d hd
    have hkept : ¬ b.contains t.id = true :=
      mt (h.mem_retired ht).2 (hid ▸ of_decide_eq_true hkept)
    exact ⟨t, Batch.mem_applied.2 (.inl ⟨ht, by simpa using hkept⟩),
      Subtree.defines_iff.2 (List.mem_map.2 ⟨_, hdefine, rfl⟩)⟩
  · rw [Ledger.foldl_retire, h.kept_statements] at hname
    obtain ⟨s, hs, hassigned⟩ := List.mem_filterMap.1 hname
    obtain ⟨t, ht, hs⟩ := List.mem_flatMap.1 hs
    obtain ⟨ht, hkept⟩ := List.mem_filter.1 (List.mem_filter.1 ht).1
    exact ⟨t, Batch.mem_applied.2 (.inl ⟨ht, by simpa using hkept⟩),
      Subtree.assigns_iff.2 (List.mem_map.2 ⟨s, hs, hassigned⟩)⟩
  · rintro ⟨t, ht, hdefines⟩
    rw [hcleared t ht name hdefines] at hname
    cases hname

/-- A batch that goes well with what is live compiles unless it defines a cleared variable. -/
theorem isSome_image_iff (h : m.Lists live) (hb : b.Canonical) (hlive : ∀ t ∈ live, t.Legible)
    (hnew : ∀ t ∈ b.modified ++ b.added, t.Legible)
    (hapart : ∀ name, (∃ t ∈ b.applied live, t.assigns name = true) →
      ¬ ∃ t ∈ b.applied live, t.defines name = true)
    {s : CompileState} (hs : s.Sound) (hL : s.Mirrors (.ofLive live)) {r : Roster} (hr : s.Enrols r)
    (hdefined : r.Defined live) : (compile (m.fragmentOf b) s).image.isSome = true ↔
      ∀ t ∈ b.modified ++ b.added, ∀ name, t.defines name = true → r.cleared name = false := by
  have hsound := (s.evolves_beginCompile hs).1
  have hbegin : s.beginCompile.Enrols r := hr.scheduled hs _ _ _
  have hbeginL : s.beginCompile.Mirrors (.ofLive live) := hL.scheduled _ _ _
  have henrols := hsound.foldl_retire (fun hs h id => h.retire hs id) (m.fragmentOf b).retired hbegin
  have hmirrors := hsound.foldl_retire (fun hs h id => h.retire hs id) (m.fragmentOf b).retired hbeginL
  have hretired :=
    (CompileState.Evolves.foldl CompileState.evolves_retire (m.fragmentOf b).retired _ hsound).1
  rw [Reflow.isSome_image_iff]
  constructor
  · intro hclean t ht name hname
    by_contra hcleared
    -- nothing that the batch brings assigns the name before it is defined
    have hkept : ∀ u ∈ (m.fragmentOf b).units,
        u.owner = none ∨ ∀ s ∈ u.program, s.assigned? ≠ some name := by
      intro u hu
      rcases mem_units.1 hu with ⟨_, -, rfl⟩ | ⟨t', ht', -, rfl⟩
      · exact .inl rfl
      · refine .inr fun s hs hassigned => hapart name ⟨t', ?_, ?_⟩ ⟨t, ?_, hname⟩
        · exact Batch.mem_applied.2 (.inr ht')
        · exact (hnew t' ht').assigns_of_mem hs hassigned
        · exact Batch.mem_applied.2 (.inr ht)
    obtain ⟨params, body, hdefine⟩ := (hnew t ht).exists_define hname (some t.id)
    have hne : t.statements ≠ [] := fun hempty => by simp [Subtree.defines, hempty] at hname
    refine Progress.not_clean_units henrols hmirrors hretired ?_ (h.clears_units hb hlive) hkept
      (subtree_mem_units ht hne) hdefine hclean
    rw [Roster.foldl_retire]
    simpa using hcleared
  · intro hcleared
    have hfits : (b.prospect live hapart).Fits _ _ := h.fits_retired hdefined hcleared
    exact Progress.OnCourse.clean_units ⟨fun _ hd => (by cases hd), hretired, henrols, hmirrors, hfits⟩
      (h.allows_units hb hlive hnew)

end GraphMapping.Lists

namespace Session

variable {s : Session} {a : Account}

/-- A batch that goes well with what is live is rejected exactly if it defines a cleared variable. -/
theorem Enrolled.compile_error_iff (h : s.Enrolled a) (hs : s.Sound) {b : Batch} (hb : b.Canonical)
    (hnew : ∀ t ∈ b.modified ++ b.added, t.Legible)
    (hapart : ∀ name, (∃ t ∈ b.applied a.live, t.assigns name = true) →
      ¬ ∃ t ∈ b.applied a.live, t.defines name = true) :
    (∃ diagnostics, (s.answer (Request.updateGraph b).call).1 = .error (.compile diagnostics)) ↔
      ∃ t ∈ b.modified ++ b.added, ∃ name, t.defines name = true ∧ a.roster.cleared name = true := by
  have hmode : ¬ s.options.interpreterMode ≠ false := not_not.2 h.inMode
  rw [answer_call hs]
  simp only [courseOf, if_neg hmode]
  by_cases hempty : b.isEmpty = true
  · have hnone : b.modified ++ b.added = [] := by
      simp only [Batch.isEmpty, Bool.and_eq_true, List.isEmpty_iff] at hempty
      rw [hempty.1.2, hempty.1.1, List.append_nil]
    simp [hempty, taken, hnone]
  · obtain ⟨m, hbuild⟩ : ∃ m, s.mapping.build b = (s.mapping.fragmentOf b, m) := ⟨_, rfl⟩
    have hready := prepared_eq ({ s with mapping := m } : Session) false
    have hcompile := h.agrees.lists.isSome_image_iff hb h.legible hnew hapart
      ((hs.withMapping m).prepared false).compiled (hready ▸ h.agrees.mirrors.scheduled _ _ _)
      (h.enrols_prepared hs m false) h.defined
    have hdefines : (∃ t ∈ b.modified ++ b.added, ∃ name,
        t.defines name = true ∧ a.roster.cleared name = true) ↔
          ¬ ∀ t ∈ b.modified ++ b.added, ∀ name, t.defines name = true → a.roster.cleared name = false := by
      simp
    rw [if_neg hempty, hdefines, ← hcompile, hbuild]
    simp only [taken]
    rcases ({ s with mapping := m } : Session).outcome_cases (s.mapping.fragmentOf b) [] false with
      ⟨diagnostics, hnone, ho⟩ | ⟨diagnostics, result, memory, hsome, -, ho⟩
    · simp [ho, hnone, Except.map]
    · cases result <;> simp [ho, hsome, Except.map]

/-- A session that is kept in graph mode is asked to take a batch of subtrees whose code can be read, after
which no name would be assigned by one live subtree and defined by another. It rejects the batch exactly if
this defines a function of a name that an earlier batch left without any binding after a variable of it had
been assigned, and that no subtree has assigned since. -/
theorem rejected_iff (options : Options) (hgraph : options.interpreterMode = false)
    (history : List Request) (hmode : ∀ r ∈ history, r.KeepsMode false)
    (hfaithful : ∀ r ∈ history, r.Faithful) (edits : Edits) :
    let s := ({ options } : Session).run history
    let a := ({ options } : Session).account {} history
    let b := Batch.ofEdits edits
    s.mapping.Lists a.live ∧
      ((∀ t ∈ b.modified ++ b.added, t.Legible) →
        (∀ name, (∃ t ∈ b.applied a.live, t.assigns name = true) →
          ¬ ∃ t ∈ b.applied a.live, t.defines name = true) →
        ((∃ diagnostics,
            (s.answer (Request.updateGraph b).call).1 = .error (.compile diagnostics)) ↔
          ∃ t ∈ b.modified ++ b.added, ∃ name,
            t.defines name = true ∧ a.roster.cleared name = true)) := by
  intro s a b
  have h : s.Enrolled a := enrolled_run hgraph hmode hfaithful
  exact ⟨h.agrees.lists, fun hlegible hapart =>
    h.compile_error_iff (tidy_run options history).sound (Batch.canonical_ofEdits edits) hlegible hapart⟩

/-- A session in which the only subtree, which assigns a variable, is deleted. -/
def emptied : List Request :=
  [.updateGraph (.ofEdits { added := [textual 0 "a = 1;"] }),
    .updateGraph (.ofEdits { deleted := [.empty (.ofNat 0)] })]

/-- After the deletion, no function can have the name of the variable. -/
theorem rejected_iff_emptied : ∃ diagnostics, ((({} : Session).run emptied).answer
    (Request.updateGraph (.ofEdits { added := [textual 1 "def a() = 1;"] })).call).1 =
      .error (.compile diagnostics) := by
  have hfaithful : ∀ r ∈ emptied, r.Faithful := by
    simp only [emptied, List.forall_mem_cons]
    refine ⟨⟨⟨_, rfl⟩, List.forall_mem_singleton.2 ?_⟩, ⟨⟨_, rfl⟩, List.forall_mem_nil _⟩,
      List.forall_mem_nil _⟩
    exact (parsed_textual _ _).faithful
  obtain ⟨-, hrejected⟩ := rejected_iff {} rfl emptied (by simp [emptied, Request.KeepsMode]) hfaithful
    { added := [textual 1 "def a() = 1;"] }
  have hlast : ({} : Session).account {} emptied = (({} : Account).after (.updateGraph
      (.ofEdits { added := [textual 0 "a = 1;"] }))).after (.updateGraph
      (.ofEdits { deleted := [.empty (.ofNat 0)] })) := by
    rw [emptied, account_cons (by decide +kernel), account_cons (by decide +kernel)]
    rfl
  rw [hlast] at hrejected
  refine (hrejected ?_ ?_).2 ⟨textual 1 "def a() = 1;", List.mem_cons_self, "a", by decide +kernel,
    by decide +kernel⟩
  · refine List.forall_mem_singleton.2 ?_
    have hread : (parseProgram (textual 1 "def a() = 1;").code).toBool = true := by decide +kernel
    cases hparse : parseProgram (textual 1 "def a() = 1;").code with
    | ok program => exact ⟨program, hparse, (parsed_textual 1 _).faithful program hparse⟩
    | error e =>
      rw [hparse] at hread
      cases hread
  · rintro name ⟨t, ht, hassigns⟩
    obtain rfl : t = textual 1 "def a() = 1;" := List.mem_singleton.1 ht
    have hnone : (textual 1 "def a() = 1;").statements.map Statement.assigned? = [none] := by
      decide +kernel
    rw [Subtree.assigns_iff, hnone] at hassigns
    simp at hassigns

end Session

end Reflow
