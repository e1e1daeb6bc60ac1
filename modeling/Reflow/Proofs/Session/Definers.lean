import Reflow.Proofs.Program.Roster
import Reflow.Proofs.Session.Agreement
import Reflow.Proofs.Session.Independence
/-!
# Who has defined a function

A session that is edited by batches gives an account of its names that can be told from the batches it has
accepted: the live subtrees, the functions with the subtree that defined each of them last, the variables
that are set to null because nothing of their name is left, and those that were displaced by a function.

A function belongs to the subtree that defined it last. As soon as a batch touches that subtree without
defining the function anew, the function is gone, also if other live subtrees define it.

## Main definitions

* `Subtree.Legible`: a subtree whose code is read as what it says.
* `Roster.after`: the names that a program has given out after a batch.
* `Account`: the names of a session, with `Session.account`.
* `Session.Enrolled`: the program of a session has the names of an account.

## Main results

* `GraphMapping.Lists.roster_compiled`: what a batch compiles gives out the names of the batch.
* `Session.Enrolled.answer`, `Session.enrolled_run`: requests keep to the account.
* `Session.active_procedures`: the active functions of a session.
-/

namespace Reflow

/-- The code of the subtree is a program whose statements bind the same names in the same way. -/
def Subtree.Legible (t : Subtree) : Prop := ∃ program, parseProgram t.code = .ok program ∧
  program.map Statement.heading = t.statements.map Statement.heading

/-- Whether a subtree assigns a variable. -/
def Subtree.assigns (t : Subtree) (name : String) : Bool :=
  t.statements.any (·.assigned? == some name)

/-- Whether one of some subtrees binds a name. -/
def Subtree.anyBinds (live : List Subtree) (name : String) : Bool :=
  live.any (name ∈ ·.boundNames)

namespace Batch

/-- Whether the batch touches a live subtree that assigns a variable. -/
def drops (b : Batch) (live : List Subtree) (name : String) : Bool :=
  live.any fun t => b.contains t.id && t.assigns name

/-- Whether the batch leaves a variable without anything of its name. -/
def orphaned (b : Batch) (live : List Subtree) (name : String) : Bool :=
  b.drops live name && !Subtree.anyBinds (b.applied live) name

end Batch

namespace Roster

/-- The roster with the statements of a subtree. -/
def entered (r : Roster) (t : Subtree) : Roster := t.statements.foldl (·.enter (some t.id) ·) r

/-- The roster after a batch: the functions of touched subtrees are gone, variables that nothing binds
any more are cleared, and what the batch brings is entered. -/
def after (r : Roster) (b : Batch) (live : List Subtree) : Roster :=
  (b.modified ++ b.added).foldl entered
    { cleared := fun name => r.cleared name || b.orphaned live name
      definer := fun name => (r.definer name).filter fun d => !b.contains d.1 }

end Roster

/-- What a session that is edited by batches has accepted, and the names that its program has given out. -/
structure Account where
  /-- The live subtrees, each in the version that was accepted last. -/
  live : List Subtree := []
  roster : Roster := {}
  /-- The variables that lost their last assignment to a function of their name, and that no subtree has
  assigned since. -/
  displaced : String → Bool := fun _ => false

/-- The account when one more request has been accepted. -/
def Account.after (a : Account) : Request → Account
  | .updateGraph b =>
    { live := b.applied a.live
      roster := a.roster.after b a.live
      displaced := fun name => !(b.applied a.live).any (·.assigns name) &&
        (a.displaced name || b.drops a.live name && Subtree.anyBinds (b.applied a.live) name) }
  | _ => a

/-- The account of a session after a series of requests, if it was `a` before. -/
def Session.account (s : Session) (a : Account) : List Request → Account
  | [] => a
  | r :: rest =>
    match s.answer r.call with
    | (.ok _, s') => s'.account (a.after r) rest
    | (.error _, s') => s'.account a rest

/-! ### What a batch gives out -/

namespace Roster

variable {r : Roster} {owner : Option SubtreeId}

theorem enter_congr {s s' : Statement} (h : s.heading = s'.heading) :
    r.enter owner s = r.enter owner s' := by
  cases s <;> cases s' <;> simp_all [Statement.heading, enter]

theorem foldl_enter_congr {program program' : List Statement}
    (h : program.map Statement.heading = program'.map Statement.heading) :
    program.foldl (·.enter owner ·) r = program'.foldl (·.enter owner ·) r := by
  induction program generalizing program' r with
  | nil =>
    obtain rfl := List.map_eq_nil_iff.1 h.symm
    rfl
  | cons s rest ih =>
    obtain ⟨s', rest', rfl, hs, hrest⟩ := List.map_eq_cons_iff.1 h.symm
    rw [List.foldl_cons, List.foldl_cons, enter_congr hs.symm, ih hrest.symm]

theorem filter_const_true {α : Type} (a : Option α) : a.filter (fun _ => true) = a := by
  cases a <;> rfl

/-- Retiring subtrees strikes out their functions. -/
theorem foldl_retire (r : Roster) (retired : List SubtreeId) : retired.foldl retire r =
    { r with definer := fun name => (r.definer name).filter fun d => d.1 ∉ retired } := by
  induction retired generalizing r with
  | nil => simp [filter_const_true]
  | cons id rest ih =>
    rw [List.foldl_cons, ih, retire]
    simp [Option.filter_filter]

/-- Setting variables to null clears them. -/
theorem foldl_null (r : Roster) {names : List String}
    (hnames : ∀ name ∈ names, Lexer.isName name = true) :
    (names.map fun name => (⟨none, name ++ " = null;"⟩ : FragmentUnit)).foldl
      (fun r u => u.program.foldl (·.enter u.owner ·) r) r =
    { r with cleared := fun name => r.cleared name || name ∈ names } := by
  induction names generalizing r with
  | nil => simp
  | cons first rest ih =>
    have hprogram : (FragmentUnit.mk none (first ++ " = null;")).program = [.assign first .null] := by
      rw [FragmentUnit.program, parseProgram_null (hnames first List.mem_cons_self)]
    rw [List.map_cons, List.foldl_cons, ih _ fun name h => hnames name (List.mem_cons_of_mem _ h)]
    simp only [hprogram, List.foldl_cons, List.foldl_nil, enter, mk.injEq, and_true]
    funext name
    by_cases hname : name = first <;> simp [hname]

/-- The units of some subtrees, which leave out those without statements, enter the statements of these
subtrees. -/
theorem foldl_subtrees (r : Roster) {brought : List Subtree}
    (h : ∀ t ∈ brought, t.statements ≠ [] →
      (FragmentUnit.mk (some t.id) t.code).program.map Statement.heading =
        t.statements.map Statement.heading) :
    ((brought.filter fun t => !t.statements.isEmpty).map fun t =>
      (⟨some t.id, t.code⟩ : FragmentUnit)).foldl
        (fun r u => u.program.foldl (·.enter u.owner ·) r) r = brought.foldl entered r := by
  induction brought generalizing r with
  | nil => rfl
  | cons t rest ih =>
    have hrest := fun r => ih r fun s hs => h s (List.mem_cons_of_mem _ hs)
    by_cases hempty : t.statements = []
    · simpa [hempty, entered] using hrest r
    · have ht : (FragmentUnit.mk (some t.id) t.code).program.foldl (·.enter (some t.id) ·) r =
          t.statements.foldl (·.enter (some t.id) ·) r :=
        foldl_enter_congr (h t List.mem_cons_self hempty)
      simp only [List.filter_cons, List.isEmpty_eq_false_iff.2 hempty, Bool.not_false, if_true,
        List.map_cons, List.foldl_cons, ht]
      exact hrest _

/-- A batch that touches nothing changes nothing. -/
theorem after_of_isEmpty (r : Roster) {b : Batch} (h : b.isEmpty = true) (live : List Subtree) :
    r.after b live = r := by
  simp only [Batch.isEmpty, Bool.and_eq_true, List.isEmpty_iff] at h
  obtain ⟨⟨hadded, hmodified⟩, hdeleted⟩ := h
  have hcontains : ∀ id, b.contains id = false := by
    simp [Batch.contains, Batch.all, hadded, hmodified, hdeleted, Subtree.occurs]
  have hdrops : ∀ name, b.drops live name = false := by simp [Batch.drops, hcontains]
  simp [after, hadded, hmodified, Batch.orphaned, hdrops, hcontains, filter_const_true]

/-- Every function of the roster is defined by a live subtree. -/
def Defined (r : Roster) (live : List Subtree) : Prop :=
  ∀ name d, r.definer name = some d →
    ∃ t ∈ live, t.id = d.1 ∧ ∃ body, .define name d.2 body ∈ t.statements

/-- The functions after a batch are defined by live subtrees after it. -/
theorem Defined.after {b : Batch} {live : List Subtree} (h : r.Defined live) :
    (r.after b live).Defined (b.applied live) := by
  have hkept : Roster.Defined
      { cleared := fun name => r.cleared name || b.orphaned live name
        definer := fun name => (r.definer name).filter fun d => !b.contains d.1 }
      (b.applied live) := by
    intro name d hd
    obtain ⟨hd, hkept⟩ := Option.filter_eq_some_iff.1 hd
    obtain ⟨t, ht, hid, hmem⟩ := h name d hd
    exact ⟨t, Batch.mem_applied.2 (.inl ⟨ht, by simpa [hid] using hkept⟩), hid, hmem⟩
  refine List.foldlRecOn (b.modified ++ b.added) entered
    (motive := fun r : Roster => r.Defined (b.applied live)) hkept fun r hr t ht => ?_
  refine List.foldlRecOn t.statements _ (motive := fun r : Roster => r.Defined (b.applied live)) hr
    fun r hr s hs name d hd => ?_
  cases s with
  | assign target value => exact hr name d hd
  | define function params body =>
    simp only [enter, Option.map_some] at hd
    split at hd
    · rename_i heq
      cases hd
      exact ⟨t, Batch.mem_applied.2 (.inr ht), rfl, body, heq ▸ hs⟩
    · exact hr name d hd

end Roster

theorem Subtree.assigns_iff {t : Subtree} {name : String} :
    t.assigns name = true ↔ some name ∈ t.statements.map Statement.assigned? := by
  simp [assigns]

/-- The lexer reads what a legible subtree binds as names. -/
theorem Subtree.Legible.isName {t : Subtree} (h : t.Legible) {name : String}
    (hname : name ∈ t.boundNames) : Lexer.isName name = true := by
  obtain ⟨program, hprogram, hheadings⟩ := h
  rw [boundNames, ← Statement.map_congr_of_heading (fun _ _ h => (Statement.eq_of_heading h).2)
    hheadings] at hname
  obtain ⟨s, hs, rfl⟩ := List.mem_map.1 hname
  have hnamed := named_of_parseProgram hprogram s hs
  cases s with
  | assign target value => exact hnamed.1
  | define function params body => exact hnamed.1

namespace GraphMapping

variable {m : GraphMapping} {b : Batch} {live : List Subtree} {name : String}

/-- The variables that a batch sets to null are those that it leaves without anything of their name. -/
theorem Lists.mem_orphans_iff (h : m.Lists live) (hb : b.Canonical) :
    name ∈ m.orphans b ↔ b.orphaned live name = true := by
  rw [h.mem_orphans hb]
  simp [Batch.orphaned, Batch.drops, Subtree.anyBinds, Subtree.assigns]

theorem Lists.isName_of_mem_orphans (h : m.Lists live) (hb : b.Canonical)
    (hlive : ∀ t ∈ live, t.Legible) (hname : name ∈ m.orphans b) : Lexer.isName name = true := by
  obtain ⟨⟨t, ht, -, hassigned⟩, -⟩ := (h.mem_orphans hb).1 hname
  obtain ⟨s, hs, hassigned⟩ := List.mem_map.1 hassigned
  refine (hlive t ht).isName (List.mem_map.2 ⟨s, hs, ?_⟩)
  cases s with
  | assign target value => exact Option.some.inj hassigned
  | define function params body => cases hassigned

/-- All code that a batch compiles belongs to subtrees or sets variables to null. -/
theorem Lists.clears_units (h : m.Lists live) (hb : b.Canonical) (hlive : ∀ t ∈ live, t.Legible) :
    ∀ u ∈ (m.fragmentOf b).units, u.Clears := by
  intro u hu howner s hs
  rcases mem_units.1 hu with ⟨name, hname, rfl⟩ | ⟨t, -, -, rfl⟩
  · rw [FragmentUnit.program, parseProgram_null (h.isName_of_mem_orphans hb hlive hname)] at hs
    exact ⟨name, List.mem_singleton.1 hs⟩
  · cases howner

/-- What a batch compiles gives out the names of the batch. -/
theorem Lists.roster_compiled (h : m.Lists live) (hb : b.Canonical)
    (hlive : ∀ t ∈ live, t.Legible) (hnew : ∀ t ∈ b.modified ++ b.added, t.Faithful)
    (hreadable : (m.fragmentOf b).Readable) {r : Roster} (hr : r.Defined live) :
    r.compiled (m.fragmentOf b) = r.after b live := by
  have hretired : ∀ name, ((r.definer name).filter fun d => d.1 ∉ (m.fragmentOf b).retired) =
      (r.definer name).filter fun d => !b.contains d.1 := by
    intro name
    cases hd : r.definer name with
    | none => rfl
    | some d =>
      obtain ⟨t, ht, hid, -⟩ := hr name d hd
      simp [← hid, Option.filter_some, h.mem_retired ht]
  have hunits := fun r => @Roster.foldl_subtrees r (b.modified ++ b.added)
    fun t ht hne => (hnew t ht).headings (hreadable ⟨some t.id, t.code⟩ (subtree_mem_units ht hne))
  rw [Roster.compiled, Roster.foldl_retire]
  simp only [hretired]
  rw [fragmentOf, List.foldl_append,
    Roster.foldl_null _ fun name hname => h.isName_of_mem_orphans hb hlive hname, hunits, Roster.after]
  have horphans : ∀ name, decide (name ∈ m.orphans b) = b.orphaned live name := fun name => by
    rw [Bool.eq_iff_iff, decide_eq_true_iff, h.mem_orphans_iff hb]
  simp only [horphans]

end GraphMapping

/-! ### Requests -/

namespace Session

/-- The session is in graph mode, and mapping and program agree with an account of what was accepted. -/
structure Enrolled (s : Session) (a : Account) : Prop where
  inMode : s.options.interpreterMode = false
  agrees : s.Agrees a.live
  legible : ∀ t ∈ a.live, t.Legible
  enrols : s.compiled.Enrols a.roster
  defined : a.roster.Defined a.live

variable {s : Session} {a a' : Account}

theorem enrolled_fresh {options : Options} (h : options.interpreterMode = false) :
    ({ options } : Session).Enrolled {} :=
  ⟨h, agrees_fresh options, fun _ ht => (by cases ht), CompileState.enrols_empty,
    fun _ _ hd => (by cases hd)⟩

theorem Enrolled.reset (h : s.Enrolled a) (hs : s.Sound) : s.reset.Enrolled a :=
  ⟨h.inMode, h.agrees.reset, h.legible, h.enrols.scheduled hs.compiled _ _ _, h.defined⟩

/-- The program that a batch is compiled on has the names of the account. -/
theorem Enrolled.enrols_prepared (h : s.Enrolled a) (hs : s.Sound) (m : GraphMapping) (full : Bool) :
    (({ s with mapping := m } : Session).prepared full).compiled.Enrols a.roster := by
  rw [prepared_eq]
  exact h.enrols.scheduled hs.compiled _ _ _

/-- A request whose answer and session are given has been accepted, which leads from the account `a` to
`a'`, or it has left the account as it was. -/
def Reaches (a a' : Account) : Except SessionError (Option Report) × Session → Prop
  | (.ok _, s') => s'.Enrolled a'
  | (.error _, s') => s'.Enrolled a

/-- A batch is taken over as a whole, or the account stays as it was. -/
theorem Enrolled.batch (h : s.Enrolled a) (hs : s.Sound) {m : GraphMapping} {f : Fragment}
    {forced : List Nat} {full : Bool} (hagrees : LeadsTo a.live a'.live (s.taken (.batch m f forced full)))
    (hclears : ∀ u ∈ f.units, u.Clears)
    (hafter : f.Readable → (∀ t ∈ a'.live, t.Legible) ∧ a.roster.compiled f = a'.roster ∧
      a'.roster.Defined a'.live) : Reaches a a' (s.taken (.batch m f forced full)) := by
  have hready := h.enrols_prepared hs m full
  have hsound := (hs.withMapping m).prepared full
  have hmode : (({ s with mapping := m } : Session).outcome f forced full).2.options.interpreterMode =
      false := (congrArg _ (options_outcome _ f forced full)).trans h.inMode
  simp only [taken] at hagrees ⊢
  rcases ({ s with mapping := m } : Session).outcome_cases f forced full with
    ⟨diagnostics, -, ho⟩ | ⟨diagnostics, result, memory, hcompile, -, ho⟩
  · rw [ho] at hagrees hmode ⊢
    exact ⟨hmode, hagrees, h.legible, hready, h.defined⟩
  · cases result with
    | ok run =>
      obtain ⟨hlegible, hroster, hdefined⟩ := hafter (readable_of_compile hcompile)
      rw [ho] at hagrees hmode ⊢
      refine ⟨hmode, hagrees, hlegible, ?_, hdefined⟩
      exact hroster ▸ hready.compiled hsound.compiled hclears hcompile
    | error fault =>
      rw [ho] at hagrees hmode ⊢
      exact ⟨hmode, hagrees, h.legible, hready, h.defined⟩

/-- The subtrees that a batch brings are legible if their code can be read. -/
theorem legible_applied {m : GraphMapping} {b : Batch} {live : List Subtree}
    (hlive : ∀ t ∈ live, t.Legible) (hnew : ∀ t ∈ b.modified ++ b.added, t.Faithful)
    (hreadable : (m.fragmentOf b).Readable) : ∀ t ∈ b.applied live, t.Legible := by
  intro t ht
  rcases Batch.mem_applied.1 ht with ⟨ht, -⟩ | ht
  · exact hlive t ht
  · by_cases hempty : t.statements = []
    · have hcode : t.code = "" := by rw [Subtree.code, hempty]; rfl
      exact ⟨[], hcode ▸ parseProgram_blank rfl, by rw [hempty]⟩
    · obtain ⟨program, hprogram⟩ :=
        hreadable ⟨some t.id, t.code⟩ (GraphMapping.subtree_mem_units ht hempty)
      exact ⟨program, hprogram, hnew t ht program hprogram⟩

/-- A batch of edits leads to the account after it. -/
theorem Enrolled.updateGraph (h : s.Enrolled a) (hs : s.Sound) {b : Batch} (hb : b.Canonical)
    (hnew : ∀ t ∈ b.modified ++ b.added, t.Faithful) :
    Reaches a (a.after (.updateGraph b)) (s.taken (s.courseOf (.updateGraph b))) := by
  have hagrees := h.agrees.updateGraph hs hb hnew
  have hmode : ¬ s.options.interpreterMode ≠ false := not_not.2 h.inMode
  simp only [courseOf, if_neg hmode] at hagrees ⊢
  by_cases hempty : b.isEmpty = true
  · rw [if_pos hempty] at hagrees ⊢
    have hlive := Batch.applied_of_isEmpty hempty a.live
    have hroster := a.roster.after_of_isEmpty hempty a.live
    obtain ⟨hmode, -, hlegible, henrols, hdefined⟩ := h.reset hs
    refine ⟨hmode, hagrees, ?_, ?_, ?_⟩
    · simpa only [Account.after, hlive] using hlegible
    · simpa only [Account.after, hroster] using henrols
    · simpa only [Account.after, hroster, hlive] using hdefined
  · rw [if_neg hempty] at hagrees ⊢
    exact h.batch hs hagrees (h.agrees.lists.clears_units hb h.legible) fun hreadable =>
      ⟨legible_applied h.legible hnew hreadable,
        h.agrees.lists.roster_compiled hb h.legible hnew hreadable h.defined, h.defined.after⟩

/-- Running statements again changes nothing that was accepted. -/
theorem Enrolled.rerun (h : s.Enrolled a) (htidy : s.Tidy) {forced : List Nat} {full : Bool} :
    Reaches a a (s.taken (.batch s.mapping {} forced full)) :=
  h.batch htidy.sound (h.agrees.unowned htidy rfl fun u hu => by cases hu) (fun u hu => by cases hu)
    fun _ => ⟨h.legible, rfl, h.defined⟩

/-- A request leads to the account after it or leaves the account as it was. -/
theorem Enrolled.answer (h : s.Enrolled a) (htidy : s.Tidy) {r : Request} (hmode : r.KeepsMode false)
    (hfaithful : r.Faithful) : Reaches a (a.after r) (s.answer r.call) := by
  rw [answer_call htidy.sound]
  cases r with
  | updateGraph b =>
    obtain ⟨⟨edits, rfl⟩, hnew⟩ := hfaithful
    exact h.updateGraph htidy.sound (Batch.canonical_ofEdits edits) hnew
  | updateCode code =>
    simp only [courseOf, h.inMode]
    exact h
  | rerunSubtree subtree =>
    simp only [courseOf]
    split
    · exact h.reset htidy.sound
    · exact h.rerun htidy
  | rerunAll => exact h.rerun htidy
  | setOptions options =>
    exact ⟨hmode, ⟨h.agrees.lists, h.agrees.mirrors⟩, h.legible, h.enrols, h.defined⟩

/-- A session keeps to its account. -/
theorem Enrolled.run (h : s.Enrolled a) (htidy : s.Tidy) {history : List Request}
    (hmode : ∀ r ∈ history, r.KeepsMode false) (hfaithful : ∀ r ∈ history, r.Faithful) :
    (s.run history).Enrolled (s.account a history) := by
  induction history generalizing s a with
  | nil => exact h
  | cons r rest ih =>
    have hstep := h.answer htidy (hmode r List.mem_cons_self) (hfaithful r List.mem_cons_self)
    have hafter : ∀ {a' : Account}, (s.answer r.call).2.Enrolled a' →
        ((s.answer r.call).2.run rest).Enrolled ((s.answer r.call).2.account a' rest) :=
      fun h => ih h (htidy.answer r) (fun r hr => hmode r (List.mem_cons_of_mem _ hr))
        fun r hr => hfaithful r (List.mem_cons_of_mem _ hr)
    rw [Session.account]
    change ((s.answer r.call).2.run rest).Enrolled _
    rcases ha : s.answer r.call with ⟨e | report, s'⟩ <;> rw [ha] at hstep hafter
    · exact hafter hstep
    · exact hafter hstep

theorem enrolled_run {options : Options} (hgraph : options.interpreterMode = false)
    {history : List Request} (hmode : ∀ r ∈ history, r.KeepsMode false)
    (hfaithful : ∀ r ∈ history, r.Faithful) :
    (({ options } : Session).run history).Enrolled (({ options } : Session).account {} history) :=
  (enrolled_fresh hgraph).run (tidy_run options []) hmode hfaithful

end Session

/-! ### The active functions -/

/-- The active top-level procedure of a name. -/
def Executable.active? (x : Executable) (name : String) : Option Procedure :=
  (x.procedures.head?.bind (·.get? name)).filter (·.isActive)

namespace Session

theorem LaidOut.active? {s : Session} (h : s.LaidOut) (name : String) :
    s.executable.active? name = s.compiled.active? name := by
  obtain ⟨entry, updates, full, hx⟩ := h.executable
  rw [hx]
  rfl

/-- The active functions of a session that is kept in graph mode. The active procedure of a name belongs to
the subtree that defined the name last, and has the parameters of that definition; if that subtree has been
touched since without defining it anew, there is none. So a function that a live subtree defines is active,
with the parameters of a live definition, exactly if the subtree of the last definition is still there. -/
theorem active_procedures (options : Options) (hgraph : options.interpreterMode = false)
    (history : List Request) (hmode : ∀ r ∈ history, r.KeepsMode false)
    (hfaithful : ∀ r ∈ history, r.Faithful) :
    let s := ({ options } : Session).run history
    let a := ({ options } : Session).account {} history
    s.mapping.Lists a.live ∧
      (∀ name, (s.executable.active? name).map (fun p => (p.owner, p.params)) =
        (a.roster.definer name).map fun d => (some d.1, d.2)) ∧
      ∀ t ∈ a.live, ∀ name params body, .define name params body ∈ t.statements →
        ((∃ p, s.executable.active? name = some p ∧
            ∃ t' ∈ a.live, ∃ body', .define name p.params body' ∈ t'.statements) ↔
          (a.roster.definer name).isSome = true) := by
  intro s a
  have h : s.Enrolled a := enrolled_run hgraph hmode hfaithful
  have hlaidOut : s.LaidOut := laidOut_run options history
  have hactive : ∀ name, (s.executable.active? name).map (fun p => (p.owner, p.params)) =
      (a.roster.definer name).map fun d => (some d.1, d.2) := fun name => by
    rw [hlaidOut.active?]
    exact h.enrols.functions name
  refine ⟨h.agrees.lists, hactive, fun t ht name params body hdefine => ?_⟩
  have hname := hactive name
  cases hp : s.executable.active? name with
  | none =>
    rw [hp, Option.map_none, eq_comm, Option.map_eq_none_iff] at hname
    simp [hname]
  | some p =>
    rw [hp, Option.map_some, eq_comm, Option.map_eq_some_iff] at hname
    obtain ⟨d, hd, heq⟩ := hname
    obtain ⟨t', ht', -, body', hdefine'⟩ := h.defined name d hd
    obtain ⟨-, hparams⟩ := Prod.mk.inj heq
    refine iff_of_true ⟨p, rfl, t', ht', body', ?_⟩ (by rw [hd]; rfl)
    exact hparams ▸ hdefine'

theorem account_cons {s : Session} {a : Account} {r : Request} {rest : List Request}
    (h : (s.answer r.call).1.toBool = true) :
    s.account a (r :: rest) = (s.answer r.call).2.account (a.after r) rest := by
  rw [account]
  rcases ha : s.answer r.call with ⟨e | report, s'⟩
  · rw [ha] at h
    cases h
  · rfl

/-- A session in which a second subtree takes a function over and is then deleted. -/
def overtaken : List Request :=
  [.updateGraph (.ofEdits { added := [textual 0 "def f(x) = x;"] }),
    .updateGraph (.ofEdits { added := [textual 1 "def f(x, y) = y;"] }),
    .updateGraph (.ofEdits { deleted := [.empty (.ofNat 1)] })]

/-- The function is gone, although the first subtree still defines it. -/
theorem active_procedures_overtaken :
    (∃ t ∈ (({} : Session).account {} overtaken).live, ∃ params body,
      .define "f" params body ∈ t.statements) ∧
    (({} : Session).run overtaken).executable.active? "f" = none := by
  have hfaithful : ∀ r ∈ overtaken, r.Faithful := by
    simp only [overtaken, List.forall_mem_cons]
    refine ⟨⟨⟨_, rfl⟩, List.forall_mem_singleton.2 ?_⟩, ⟨⟨_, rfl⟩, List.forall_mem_singleton.2 ?_⟩,
      ⟨⟨_, rfl⟩, List.forall_mem_nil _⟩, List.forall_mem_nil _⟩
    · exact (parsed_textual _ _).faithful
    · exact (parsed_textual _ _).faithful
  obtain ⟨-, hactive, -⟩ := active_procedures {} rfl overtaken (by simp [overtaken, Request.KeepsMode])
    hfaithful
  have hlast : ({} : Session).account {} overtaken = ((({} : Account).after (.updateGraph
      (.ofEdits { added := [textual 0 "def f(x) = x;"] }))).after (.updateGraph
      (.ofEdits { added := [textual 1 "def f(x, y) = y;"] }))).after (.updateGraph
      (.ofEdits { deleted := [.empty (.ofNat 1)] })) := by
    rw [overtaken, account_cons (by decide +kernel), account_cons (by decide +kernel),
      account_cons (by decide +kernel)]
    rfl
  rw [hlast] at hactive ⊢
  refine ⟨⟨textual 0 "def f(x) = x;", List.mem_cons_self, ?_⟩, ?_⟩
  · have hmem : some "f" ∈ (textual 0 "def f(x) = x;").statements.map Statement.function? := by
      decide +kernel
    obtain ⟨statement, hstatement, hname⟩ := List.mem_map.1 hmem
    obtain ⟨params, body, rfl⟩ := Statement.function?_eq_some.1 hname
    exact ⟨params, body, hstatement⟩
  · have hname := hactive "f"
    rwa [show Roster.definer _ "f" = none by decide +kernel, Option.map_none,
      Option.map_eq_none_iff] at hname

end Session

end Reflow
