import Reflow.Proofs.Session.Following
/-!
# Values do not depend on the history

Two sessions that are kept in their modes and have the same current assignments show the same values,
whatever was edited, deleted or rejected on the way, provided that each variable is assigned once and that
no variable depends on itself. One of them may be edited by batches and the other may take code without
subtrees.

## Main definitions

* `Request.Plain`: requests whose code consists of plain assignments.
* `Request.KeepsMode`: requests that keep a session in its mode.
* `Session.Stands`: the contents of a session are what it has accepted.

## Main results

* `Session.Stands.answer`, `Session.stands_run`: requests keep a session at what it has accepted.
* `Session.history_independent`: equal assignments have equal values.
-/

namespace Reflow

/-- All code of the request consists of plain assignments. -/
def Request.Plain : Request → Prop
  | .updateGraph b => ∀ t ∈ b.modified ++ b.added, t.Plain
  | .updateCode code => (FragmentUnit.mk none code).Plain
  | _ => True

/-- The request keeps a session in its mode. -/
def Request.KeepsMode (mode : Bool) : Request → Prop
  | .setOptions options => options.interpreterMode = mode
  | _ => True

/-- The contents are what was accepted in a mode. -/
inductive Contents.Tracks : Bool → Contents → Accepted → Prop
  | graph {c : Contents} {live : List Subtree} (h : c.Follows live) : Tracks false c ⟨live, []⟩
  | code (latest : Assignments) : Tracks true (unowned latest) ⟨[], latest⟩

theorem Contents.Tracks.renders {mode : Bool} {c : Contents} {a : Accepted} (h : c.Tracks mode a) :
    ∃ read, Expr.Faithful read ∧ c.Renders read a.assignments := by
  cases h with
  | graph h =>
    refine ⟨Expr.reread, Expr.faithful_reread, ?_⟩
    rw [Accepted.assignments, List.append_nil]
    exact h.renders
  | code latest => exact ⟨id, Expr.faithful_id, renders_unowned latest⟩

namespace Session

/-- The session is in its mode, its mapping lists the subtrees that it has accepted, and its contents are
the assignments that it has accepted. -/
structure Stands (mode : Bool) (a : Accepted) (s : Session) : Prop where
  inMode : s.options.interpreterMode = mode
  lists : s.mapping.Lists a.live
  pending : s.mapping.pending = none
  simple : ∀ t ∈ a.live, t.Simple
  contents : ∃ c, s.Carries c ∧ c.Tracks mode a

variable {s : Session} {mode : Bool} {a : Accepted}

theorem stands_fresh (options : Options) :
    ({ options } : Session).Stands options.interpreterMode {} := by
  refine ⟨rfl, GraphMapping.lists_empty, rfl, fun _ h => (by cases h), [], carries_fresh options, ?_⟩
  cases options.interpreterMode with
  | false => exact .graph Contents.follows_empty
  | true => exact .code []

theorem options_outcome (s : Session) (f : Fragment) (forced : List Nat) (full : Bool) :
    (s.outcome f forced full).2.options = s.options := by
  rcases s.outcome_cases f forced full with ⟨diagnostics, -, ho⟩ |
    ⟨diagnostics, result, memory, -, -, ho⟩
  · rw [ho, prepared_eq]
    rfl
  · rw [ho, prepared_eq]
    cases result <;> rfl

theorem Stands.reset (h : s.Stands mode a) : s.reset.Stands mode a := by
  obtain ⟨c, hc, htracks⟩ := h.contents
  exact ⟨h.inMode, h.lists, h.pending, h.simple, c, hc.reset, htracks⟩

/-- A request whose answer and session are given has been accepted, which leads from `a` to `a'`, or the
session stands where it was. -/
def Proceeds (mode : Bool) (a a' : Accepted) :
    Except SessionError (Option Report) × Session → Prop
  | (.ok _, s') => s'.Stands mode a'
  | (.error _, s') => s'.Stands mode a

/-- What a batch must bring about, if all its units are programs, to lead to `a'`. -/
structure Advances (mode : Bool) (c : Contents) (m : GraphMapping) (f : Fragment) (a' : Accepted) :
    Prop where
  lists : m.commit.Lists a'.live
  simple : ∀ t ∈ a'.live, t.Simple
  keeps : c.Keeps (c.compiled f)
  tracks : (c.compiled f).Tracks mode a'

/-- A batch whose run does not fault is accepted, or it leaves the session where it was. -/
theorem Stands.batch (h : s.Stands mode a) {m : GraphMapping} {f : Fragment} {forced : List Nat}
    {full : Bool} {a' : Accepted} (hcommitted : m.committed = s.mapping.committed)
    (hf : ∀ u ∈ f.units, u.Plain)
    (hadvances : ∀ c : Contents, c.Tracks mode a → f.Readable → Advances mode c m f a')
    (hfault : ∀ fault, (s.taken (.batch m f forced full)).1 ≠ .error (.execute fault)) :
    Proceeds mode a a' (s.taken (.batch m f forced full)) := by
  obtain ⟨c, hc, htracks⟩ := h.contents
  have hmode := ({ s with mapping := m } : Session).options_outcome f forced full
  have hcarries := (hc.withMapping m).outcome forced full hf
    (fun hreadable => (hadvances c htracks hreadable).keeps) (fun fault hr => by
      refine hfault fault ?_
      simp only [taken, hr, Except.map])
  simp only [taken]
  rcases hr : ({ s with mapping := m } : Session).outcome f forced full with ⟨e | report, s'⟩
  · rw [hr] at hmode hcarries
    have hmapping : s'.mapping = m.abandon := mapping_of_error hr
    exact ⟨hmode ▸ h.inMode, h.lists.of_committed (hmapping ▸ hcommitted), hmapping ▸ rfl, h.simple,
      c, hcarries, htracks⟩
  · rw [hr] at hmode hcarries
    have hmapping : s'.mapping = m.commit := mapping_of_ok hr
    obtain ⟨hreadable, hcarries⟩ := hcarries
    obtain ⟨hlists, hsimple, -, htracks'⟩ := hadvances c htracks hreadable
    exact ⟨hmode ▸ h.inMode, hmapping ▸ hlists, hmapping ▸ rfl, hsimple, _, hcarries, htracks'⟩

theorem Stands.commit (h : s.Stands mode a) : s.mapping.commit.Lists a.live := by
  refine h.lists.of_committed ?_
  rw [GraphMapping.commit, h.pending, Option.getD_none]

/-- A batch of edits leads to the live subtrees after it. -/
theorem Stands.updateGraph {live : List Subtree} (h : s.Stands false ⟨live, []⟩) {b : Batch}
    (hb : b.Canonical) (hnew : ∀ t ∈ b.modified ++ b.added, t.Simple)
    (hfault : ∀ fault, (s.taken (s.courseOf (.updateGraph b))).1 ≠ .error (.execute fault)) :
    Proceeds false ⟨live, []⟩ ⟨b.applied live, []⟩ (s.taken (s.courseOf (.updateGraph b))) := by
  have hmode : ¬ s.options.interpreterMode ≠ false := not_not.2 h.inMode
  simp only [courseOf, if_neg hmode] at hfault ⊢
  by_cases hempty : b.isEmpty = true
  · rw [if_pos hempty, Batch.applied_of_isEmpty hempty]
    exact h.reset
  · rw [if_neg hempty] at hfault ⊢
    refine h.batch rfl (h.lists.plain_units hb h.simple hnew) (fun c htracks hreadable => ?_) hfault
    cases htracks with
    | graph hfollows =>
      refine ⟨h.lists.build hb, fun t ht => ?_, hfollows.keeps h.lists hb h.simple hnew hreadable,
        .graph (hfollows.compiled h.lists hb h.simple hnew hreadable)⟩
      rcases Batch.mem_applied.1 ht with ⟨ht, -⟩ | ht
      · exact h.simple t ht
      · exact hnew t ht

/-- Code without a subtree leads to its assignments in place of the earlier ones. -/
theorem Stands.updateCode {latest : Assignments} (h : s.Stands true ⟨[], latest⟩) {code : String}
    (hplain : (FragmentUnit.mk none code).Plain)
    (hfault : ∀ fault, (s.taken (s.courseOf (.updateCode code))).1 ≠ .error (.execute fault)) :
    Proceeds true ⟨[], latest⟩ ((⟨[], latest⟩ : Accepted).after (.updateCode code))
      (s.taken (s.courseOf (.updateCode code))) := by
  have hmode : ¬ s.options.interpreterMode ≠ true := not_not.2 h.inMode
  simp only [courseOf, if_neg hmode] at hfault ⊢
  by_cases hblank : Text.isBlankText code = true
  · rw [if_pos hblank, Accepted.after, Contents.assignments_blank hblank]
    exact h.reset
  · rw [if_neg hblank] at hfault ⊢
    refine h.batch rfl (fun u hu => ?_) (fun c htracks _ => ?_) hfault
    · obtain rfl := List.mem_singleton.1 hu
      exact hplain
    · cases htracks with
      | code => exact ⟨h.commit, h.simple, Contents.keeps_ofCode, Contents.compiled_ofCode ▸ .code _⟩

/-- Running statements again changes nothing that was accepted. -/
theorem Stands.rerun (h : s.Stands mode a) {forced : List Nat} {full : Bool}
    (hfault : ∀ fault, (s.taken (.batch s.mapping {} forced full)).1 ≠ .error (.execute fault)) :
    Proceeds mode a a (s.taken (.batch s.mapping {} forced full)) :=
  h.batch rfl (fun u hu => by cases hu)
    (fun _ htracks _ => ⟨h.commit, h.simple, fun b hb => ⟨b, hb, rfl⟩, htracks⟩) hfault

/-- A request whose run does not fault is accepted, or it leaves the session where it was. -/
theorem Stands.answer (h : s.Stands mode a) {r : Request} (hmode : r.KeepsMode mode)
    (hparsed : r.Parsed) (hplain : r.Plain)
    (hfault : ∀ fault, (s.answer r.call).1 ≠ .error (.execute fault)) :
    Proceeds mode a (a.after r) (s.answer r.call) := by
  obtain ⟨c, hc, htracks⟩ := h.contents
  rw [answer_call hc.settled.sound] at hfault ⊢
  cases r with
  | updateGraph b =>
    cases htracks with
    | graph hfollows =>
      obtain ⟨⟨edits, rfl⟩, hparsed⟩ := hparsed
      exact h.updateGraph (Batch.canonical_ofEdits edits)
        (fun t ht => ⟨hparsed t ht, hplain t ht⟩) hfault
    | code latest =>
      simp only [courseOf, h.inMode]
      exact h
  | updateCode code =>
    cases htracks with
    | graph hfollows =>
      simp only [courseOf, h.inMode]
      exact h
    | code latest => exact h.updateCode hplain hfault
  | rerunSubtree subtree =>
    simp only [courseOf] at hfault ⊢
    cases hforced : s.statementsOf subtree with
    | nil => exact h.reset
    | cons first rest =>
      rw [hforced] at hfault
      exact h.rerun hfault
  | rerunAll => exact h.rerun hfault
  | setOptions options =>
    exact ⟨hmode, h.lists, h.pending, h.simple, c, hc.setOptions options, htracks⟩

/-- A session stands where it has accepted, as long as no run faults. -/
theorem Stands.run (h : s.Stands mode a) {history : List Request}
    (hmode : ∀ r ∈ history, r.KeepsMode mode) (hparsed : ∀ r ∈ history, r.Parsed)
    (hplain : ∀ r ∈ history, r.Plain) (hrun : s.Unfaulted history) :
    (s.run history).Stands mode (s.accepted a history) := by
  induction history generalizing s a with
  | nil => exact h
  | cons r rest ih =>
    obtain ⟨hanswer, hrest⟩ := hrun
    have hstep := h.answer (hmode r List.mem_cons_self) (hparsed r List.mem_cons_self)
      (hplain r List.mem_cons_self) hanswer
    have hafter : ∀ {a' : Accepted}, (s.answer r.call).2.Stands mode a' →
        ((s.answer r.call).2.run rest).Stands mode ((s.answer r.call).2.accepted a' rest) :=
      fun h => ih h (fun r hr => hmode r (List.mem_cons_of_mem _ hr))
        (fun r hr => hparsed r (List.mem_cons_of_mem _ hr))
        (fun r hr => hplain r (List.mem_cons_of_mem _ hr)) hrest
    rw [Session.accepted]
    change ((s.answer r.call).2.run rest).Stands mode _
    rcases ha : s.answer r.call with ⟨e | report, s'⟩ <;> rw [ha] at hstep hafter
    · exact hafter hstep
    · exact hafter hstep

/-- What a session shows solves the assignments that it has accepted. -/
theorem Stands.solved (h : s.Stands mode a) (hfunctional : a.assignments.Functional)
    (hacyclic : a.assignments.Acyclic) : ∃ env, a.assignments.Solved env ∧
      ∀ x e, (x, e) ∈ a.assignments → s.query (.named x) = some (env x).snapshot := by
  obtain ⟨c, hc, htracks⟩ := h.contents
  obtain ⟨read, hread, hrenders⟩ := htracks.renders
  exact hc.solved hrenders hread hfunctional hacyclic

/-- The assignments that a session has accepted are plain. -/
theorem Stands.plain (h : s.Stands mode a) (x : String) (e : Expr) (he : (x, e) ∈ a.assignments) :
    e.isPlain = true := by
  obtain ⟨c, hc, htracks⟩ := h.contents
  cases htracks with
  | graph hfollows =>
    rw [Accepted.assignments, List.append_nil, List.mem_flatMap] at he
    obtain ⟨t, ht, he⟩ := he
    obtain ⟨_, _, heq, hplain⟩ := (h.simple t ht).plain _ (mem_filterMap_assignment?.1 he)
    cases heq
    exact hplain
  | code latest =>
    have hmem : ⟨none, x, e⟩ ∈ Contents.unowned latest := Contents.mem_unowned.2 ⟨rfl, he⟩
    exact hc.represents.entries _ hmem

end Session

/-! ### Equal assignments have equal values -/

namespace Assignments

variable {A A' : Assignments}

/-- Which values solve assignments depends only on what these are. -/
theorem Solved.congr {env : String → Datum} (h : A'.Solved env)
    (hsame : ∀ x e, (x, e) ∈ A ↔ (x, e) ∈ A') : A.Solved env :=
  ⟨fun x e he => h.assigned x e ((hsame x e).1 he),
    fun x hx => h.unassigned x fun e he => hx e ((hsame x e).2 he)⟩

theorem Functional.congr (h : A.Functional) (hsame : ∀ x e, (x, e) ∈ A ↔ (x, e) ∈ A') :
    A'.Functional :=
  fun x e e' he he' => h x e e' ((hsame x e).2 he) ((hsame x e').2 he')

theorem Acyclic.congr (h : A.Acyclic) (hsame : ∀ x e, (x, e) ∈ A ↔ (x, e) ∈ A') : A'.Acyclic := by
  have hreads : A.Reads = A'.Reads := by
    funext x y
    simp only [Reads, hsame]
  intro x
  rw [← hreads]
  exact h x

end Assignments

namespace Session

/-- The history of a session does not matter. Take two sessions that are kept in their modes, in which no
run has faulted and all code consists of plain assignments. If they have accepted the same current
assignments in the end, each variable being assigned once and none depending on itself, then every
assigned variable has a value, and it is the same in both sessions. -/
theorem history_independent (options options' : Options) (history history' : List Request)
    (hmode : ∀ r ∈ history, r.KeepsMode options.interpreterMode)
    (hmode' : ∀ r ∈ history', r.KeepsMode options'.interpreterMode)
    (hparsed : ∀ r ∈ history, r.Parsed) (hparsed' : ∀ r ∈ history', r.Parsed)
    (hplain : ∀ r ∈ history, r.Plain) (hplain' : ∀ r ∈ history', r.Plain)
    (hrun : ({ options } : Session).Unfaulted history)
    (hrun' : ({ options := options' } : Session).Unfaulted history')
    (hsame : ∀ x e, (x, e) ∈ (({ options } : Session).accepted {} history).assignments ↔
      (x, e) ∈ (({ options := options' } : Session).accepted {} history').assignments)
    (hfunctional : (({ options } : Session).accepted {} history).assignments.Functional)
    (hacyclic : (({ options } : Session).accepted {} history).assignments.Acyclic) :
    ∀ x e, (x, e) ∈ (({ options } : Session).accepted {} history).assignments →
      ∃ v, (({ options } : Session).run history).query (.named x) = some v ∧
        (({ options := options' } : Session).run history').query (.named x) = some v := by
  intro x e he
  have hstands := (stands_fresh options).run hmode hparsed hplain hrun
  have hstands' := (stands_fresh options').run hmode' hparsed' hplain' hrun'
  obtain ⟨env, hsolved, hquery⟩ := hstands.solved hfunctional hacyclic
  obtain ⟨env', hsolved', hquery'⟩ :=
    hstands'.solved (hfunctional.congr hsame) (hacyclic.congr hsame)
  obtain ⟨hvalue, -⟩ := Assignments.Solved.unique hacyclic
    (fun a ha => hstands.plain a.1 a.2 ha) hsolved (hsolved'.congr hsame) x
  exact ⟨_, hquery x e he, hvalue ▸ hquery' x e ((hsame x e).1 he)⟩

/-! ### A changed variable -/

/-- A subtree that assigns one variable. -/
def single (id : Nat) (x : String) (e : Expr) : Subtree := ⟨.ofNat id, [.assign x e]⟩

section Single

variable {id : Nat} {x : String} {e : Expr} {code : String}

theorem plain_single (he : e.isPlain = true) : (single id x e).Plain := by
  intro s hs
  obtain rfl := List.mem_singleton.1 hs
  exact ⟨x, e, rfl, he⟩

variable (h : parseProgram code = .ok [.assign x e])
include h

theorem parsed_single : (single id x e).Parsed := ⟨code, by rw [Subtree.parse, h]; rfl⟩

theorem plain_unit (he : e.isPlain = true) : (FragmentUnit.mk none code).Plain := by
  intro program hprogram
  obtain rfl := Except.ok.inj (h.symm.trans hprogram)
  exact @plain_single 0 x e he

theorem after_updateCode (a : Accepted) :
    a.after (.updateCode code) = { a with latest := a.latest.assign x e } := by
  simp only [Accepted.after, FragmentUnit.assignments, h]
  rfl

end Single

/-- The sum `a + 1`. -/
def sum : Expr := .binary .add (.name "a") (.int 1)

theorem functional_sum : Assignments.Functional [("b", sum), ("a", .int 5)] := by
  intro x e e' he he'
  simp only [List.mem_cons, Prod.mk.injEq, List.not_mem_nil, or_false] at he he'
  rcases he with ⟨rfl, rfl⟩ | ⟨rfl, rfl⟩ <;> simp_all

theorem acyclic_sum : Assignments.Acyclic [("b", sum), ("a", .int 5)] := by
  have hreads : ∀ {x y}, Assignments.Reads [("b", sum), ("a", .int 5)] x y → x = "b" ∧ y = "a" := by
    rintro x y ⟨e, he, hy⟩
    simp only [List.mem_cons, Prod.mk.injEq, List.not_mem_nil, or_false] at he
    rcases he with ⟨rfl, rfl⟩ | ⟨rfl, rfl⟩
    · simpa [sum, Expr.names] using hy
    · cases hy
  intro x h
  obtain ⟨y, hxy, -⟩ := Relation.TransGen.head'_iff.1 h
  obtain ⟨y', -, hyx⟩ := Relation.TransGen.tail'_iff.1 h
  have hne := (hreads hxy).1.symm.trans (hreads hyx).2
  simp at hne

/-- A session in which `b` is assigned `a + 1` before `a` is assigned 1, and in which `a` is changed
thereafter, shows the same value of `b` as one in which the current assignments were given as code in
the other order. -/
theorem history_independent_changed :
    let s := ({} : Session).run
      [.updateGraph (.ofEdits { added := [single 1 "b" sum, single 0 "a" (.int 1)] }),
        .updateGraph (.ofEdits { modified := [single 0 "a" (.int 5)] })]
    let s' := ({ options := { interpreterMode := true } } : Session).run
      [.updateCode "a = 5;", .updateCode "b = a + 1;"]
    ∃ v, s.query (.named "b") = some v ∧ s'.query (.named "b") = some v := by
  have hone : parseProgram "a = 1;" = .ok [.assign "a" (.int 1)] :=
    parseProgram_assignment (by decide +kernel) (by decide +kernel) rfl rfl rfl (by decide +kernel)
  have hfive : parseProgram "a = 5;" = .ok [.assign "a" (.int 5)] :=
    parseProgram_assignment (by decide +kernel) (by decide +kernel) rfl rfl rfl (by decide +kernel)
  have hsum : parseProgram "b = a + 1;" = .ok [.assign "b" sum] :=
    parseProgram_assignment (by decide +kernel) (by decide +kernel) rfl (by decide +kernel) rfl (by decide +kernel)
  have hedits : (({} : Session).accepted {}
      [.updateGraph (.ofEdits { added := [single 1 "b" sum, single 0 "a" (.int 1)] }),
        .updateGraph (.ofEdits { modified := [single 0 "a" (.int 5)] })]).assignments =
      [("b", sum), ("a", .int 5)] := by
    rw [accepted_cons (by decide +kernel), accepted_cons (by decide +kernel)]
    rfl
  have hcode : (({ options := { interpreterMode := true } } : Session).accepted {}
      [.updateCode "a = 5;", .updateCode "b = a + 1;"]).assignments =
      [("a", .int 5), ("b", sum)] := by
    rw [accepted_cons (by decide +kernel), accepted_cons (by decide +kernel), accepted,
      after_updateCode hfive, after_updateCode hsum]
    rfl
  have hnew : ∀ t ∈ [single 1 "b" sum, single 0 "a" (.int 1), single 0 "a" (.int 5)],
      t.Parsed ∧ t.Plain := by
    simp only [List.forall_mem_cons]
    exact ⟨⟨parsed_single hsum, plain_single rfl⟩, ⟨parsed_single hone, plain_single rfl⟩,
      ⟨parsed_single hfive, plain_single rfl⟩, List.forall_mem_nil _⟩
  refine history_independent {} { interpreterMode := true } _ _ ?_ ?_ ?_ ?_ ?_ ?_ ?_ ?_ ?_ ?_ ?_
    "b" sum ?_
  · simp [Request.KeepsMode]
  · simp [Request.KeepsMode]
  · simp only [List.forall_mem_cons]
    exact ⟨⟨⟨_, rfl⟩, fun t ht => (hnew t (List.mem_append_left [_] ht)).1⟩,
      ⟨⟨_, rfl⟩, fun t ht => (hnew t (List.mem_append_right [_, _] ht)).1⟩, List.forall_mem_nil _⟩
  · simp [Request.Parsed]
  · simp only [List.forall_mem_cons]
    exact ⟨fun t ht => (hnew t (List.mem_append_left [_] ht)).2,
      fun t ht => (hnew t (List.mem_append_right [_, _] ht)).2, List.forall_mem_nil _⟩
  · simp only [List.forall_mem_cons]
    exact ⟨plain_unit hfive rfl, plain_unit hsum rfl, List.forall_mem_nil _⟩
  · exact unfaulted_cons (by decide +kernel) (unfaulted_cons (by decide +kernel) trivial)
  · exact unfaulted_cons (by decide +kernel) (unfaulted_cons (by decide +kernel) trivial)
  · intro x e
    rw [hedits, hcode]
    simp only [List.mem_cons, List.not_mem_nil, or_false]
    exact or_comm
  · rw [hedits]
    exact functional_sum
  · rw [hedits]
    exact acyclic_sum
  · rw [hedits]
    exact List.mem_cons_self

end Session

end Reflow
