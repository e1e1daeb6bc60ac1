import Reflow.Proofs.Lang.Named
import Reflow.Proofs.Lang.Scanning
import Reflow.Proofs.Session.Carrying
import Reflow.Proofs.Session.Fragments
/-!
# Contents that follow the host

When all code consists of plain assignments, the contents of a program follow what was accepted from the
host. In a session that is edited by batches, the assignments that belong to a subtree are those of its
live version, rendered and read again, and those that belong to none set variables to null that no live
subtree assigns. In a session that takes code without subtrees, they are the latest ones.

## Main definitions

* `Contents.Follows`: contents that follow the live subtrees.

## Main results

* `mem_assignments_renderAll`: what rendered assignments are read as.
* `Contents.Follows.compiled`: a batch keeps contents that follow the live subtrees.
* `Contents.compiled_ofCode`: code without a subtree keeps the contents that are the latest assignments.
-/

namespace Reflow

/-- The subtree consists of plain assignments. -/
def Subtree.Plain (t : Subtree) : Prop := ∀ s ∈ t.statements, s.Plain

/-! ### Rendered assignments -/

section Rendered

variable {program : List Statement} {owner : Option SubtreeId}

theorem mem_filterMap_assignment? {x : String} {e : Expr} :
    (x, e) ∈ program.filterMap Statement.assignment? ↔ .assign x e ∈ program := by
  rw [List.mem_filterMap]
  constructor
  · rintro ⟨s, hs, heq⟩
    cases s with
    | assign target value =>
      cases heq
      exact hs
    | define name params body => cases heq
  · exact fun h => ⟨_, h, rfl⟩

theorem assignmentProgram_filterMap (h : ∀ s ∈ program, s.Plain) :
    assignmentProgram (program.filterMap Statement.assignment?) = program := by
  induction program with
  | nil => rfl
  | cons s rest ih =>
    obtain ⟨target, value, rfl, -⟩ := h s List.mem_cons_self
    have hrest := ih fun s hs => h s (List.mem_cons_of_mem _ hs)
    exact congrArg (Statement.assign target value :: ·) hrest

variable (hplain : ∀ s ∈ program, s.Plain)
  (hnamed : ∀ x e, .assign x e ∈ program → Lexer.isName x = true ∧ e.all Expr.isNamed = true)
include hplain hnamed

/-- Rendered assignments are read as themselves, with their expressions reread. -/
theorem parseProgram_rendered {read : List Statement}
    (hr : parseProgram (Statement.renderAll program) = .ok read) :
    read = assignmentProgram ((program.filterMap Statement.assignment?).map fun a =>
      (a.1, a.2.reread)) := by
  rw [← assignmentProgram_filterMap hplain] at hr
  refine parseProgram_renderAll (fun a ha => ?_) hr
  have hmem := mem_filterMap_assignment?.1 ha
  obtain ⟨hname, hvalue⟩ := hnamed _ _ hmem
  obtain ⟨target, value, heq, hbasic⟩ := hplain _ hmem
  cases heq
  exact ⟨hname, Expr.isLexable_of_isPlain hbasic hvalue⟩

end Rendered

/-- A rendered assignment that is a program is read as itself, if its expression is reread as itself. -/
theorem parseProgram_assignment {code x : String} {e : Expr}
    (hcode : Statement.renderAll [.assign x e] = code) (hname : Lexer.isName x = true)
    (hplain : e.isPlain = true) (hnamed : e.all Expr.isNamed = true) (hread : e.reread = e)
    (hok : (parseProgram code).toBool = true) : parseProgram code = .ok [.assign x e] := by
  cases hr : parseProgram code with
  | error err =>
    rw [hr] at hok
    cases hok
  | ok read =>
    rw [← hcode] at hr
    rw [@parseProgram_rendered [.assign x e] (fun s hs => ?_) (fun y e' h => ?_) _ hr]
    · exact congrArg (fun e => Except.ok [Statement.assign x e]) hread
    · obtain rfl := List.mem_singleton.1 hs
      exact ⟨x, e, rfl, hplain⟩
    · cases List.mem_singleton.1 h
      exact ⟨hname, hnamed⟩

section Rendered

variable {program : List Statement} {owner : Option SubtreeId} (hplain : ∀ s ∈ program, s.Plain)
  (hnamed : ∀ x e, .assign x e ∈ program → Lexer.isName x = true ∧ e.all Expr.isNamed = true)
include hplain hnamed

theorem mem_assignments_renderAll (hok : ∃ read, parseProgram (Statement.renderAll program) = .ok read)
    {x : String} {e : Expr} :
    (x, e) ∈ (FragmentUnit.mk owner (Statement.renderAll program)).assignments ↔
      ∃ e₀, .assign x e₀ ∈ program ∧ e = e₀.reread := by
  obtain ⟨read, hread⟩ := hok
  have heq := parseProgram_rendered hplain hnamed hread
  rw [FragmentUnit.assignments, hread]
  simp only [heq, mem_filterMap_assignment?]
  simp only [assignmentProgram, List.map_map, List.mem_map, Prod.exists, Function.comp_apply,
    Statement.assign.injEq, mem_filterMap_assignment?]
  constructor
  · rintro ⟨x', e₀, hmem, rfl, rfl⟩
    exact ⟨e₀, hmem, rfl⟩
  · rintro ⟨e₀, hmem, rfl⟩
    exact ⟨x, e₀, hmem, rfl, rfl⟩

theorem plain_renderAll : (FragmentUnit.mk owner (Statement.renderAll program)).Plain := by
  intro read hread s hs
  rw [parseProgram_rendered hplain hnamed hread] at hs
  simp only [assignmentProgram, List.map_map, List.mem_map, Prod.exists, Function.comp_apply,
    mem_filterMap_assignment?] at hs
  obtain ⟨x, e₀, hmem, rfl⟩ := hs
  obtain ⟨target, value, heq, hbasic⟩ := hplain _ hmem
  cases heq
  exact ⟨_, _, rfl, Expr.isPlain_reread e₀ hbasic⟩

end Rendered

theorem Subtree.Parsed.named {t : Subtree} (h : t.Parsed) (x : String) (e : Expr)
    (hmem : .assign x e ∈ t.statements) :
    Lexer.isName x = true ∧ e.all Expr.isNamed = true := by
  obtain ⟨code, hcode⟩ := h.program
  exact named_of_parseProgram hcode _ hmem

/-- A variable that is set to null. -/
theorem null_code (name : String) :
    name ++ " = null;" = Statement.renderAll [.assign name .null] := by
  change name ++ " = null;" = name ++ " = " ++ "null" ++ ";"
  rw [String.append_assoc, String.append_assoc]
  rfl

theorem parseProgram_null {name : String} (hname : Lexer.isName name = true) :
    parseProgram (name ++ " = null;") = .ok [.assign name .null] := by
  have hlexable : ∀ s ∈ [Statement.assign name .null], s.Lexable :=
    List.forall_mem_singleton.2 ⟨⟨hname, rfl⟩, rfl⟩
  rw [null_code]
  exact (parseProgram_renderAll_eq_ok_iff hlexable).2
    ⟨List.forall_mem_singleton.2 ⟨List.nodup_nil, rfl⟩, rfl⟩

/-! ### The units of a fragment -/

/-- The subtree of a program text that consists of plain assignments. -/
structure Subtree.Simple (t : Subtree) : Prop where
  parsed : t.Parsed
  plain : t.Plain

namespace Subtree.Simple

variable {t : Subtree} {owner : Option SubtreeId} {x : String} {e : Expr}

theorem mem_boundNames (h : t.Simple) : x ∈ t.boundNames ↔ ∃ e, .assign x e ∈ t.statements := by
  rw [boundNames, List.mem_map]
  constructor
  · rintro ⟨s, hs, rfl⟩
    obtain ⟨target, value, rfl, -⟩ := h.plain s hs
    exact ⟨value, hs⟩
  · rintro ⟨e, he⟩
    exact ⟨_, he, rfl⟩

theorem mem_assigned (h : t.Simple) :
    some x ∈ t.statements.map Statement.assigned? ↔ ∃ e, .assign x e ∈ t.statements := by
  rw [List.mem_map]
  constructor
  · rintro ⟨s, hs, heq⟩
    obtain ⟨target, value, rfl, -⟩ := h.plain s hs
    cases heq
    exact ⟨value, hs⟩
  · rintro ⟨e, he⟩
    exact ⟨_, he, rfl⟩

/-- What the code of a subtree is read as. -/
theorem mem_assignments (h : t.Simple) (hok : ∃ program, parseProgram t.code = .ok program) :
    (x, e) ∈ (FragmentUnit.mk owner t.code).assignments ↔
      ∃ e₀, .assign x e₀ ∈ t.statements ∧ e = e₀.reread :=
  mem_assignments_renderAll h.plain h.parsed.named hok

theorem plain_code (h : t.Simple) : (FragmentUnit.mk owner t.code).Plain :=
  plain_renderAll h.plain h.parsed.named

end Subtree.Simple

section Null

variable {name : String} {owner : Option SubtreeId}

theorem plain_null (s : Statement) (hs : s ∈ [Statement.assign name .null]) : s.Plain := by
  obtain rfl := List.mem_singleton.1 hs
  exact ⟨name, .null, rfl, rfl⟩

variable (hname : Lexer.isName name = true)
include hname

theorem named_null (x : String) (e : Expr) (h : .assign x e ∈ [Statement.assign name .null]) :
    Lexer.isName x = true ∧ e.all Expr.isNamed = true := by
  cases List.mem_singleton.1 h
  exact ⟨hname, rfl⟩

theorem mem_assignments_null (hok : ∃ program, parseProgram (name ++ " = null;") = .ok program)
    {x : String} {e : Expr} :
    (x, e) ∈ (FragmentUnit.mk owner (name ++ " = null;")).assignments ↔ x = name ∧ e = .null := by
  rw [null_code] at hok ⊢
  rw [mem_assignments_renderAll plain_null (named_null hname) hok]
  simp only [List.mem_singleton, Statement.assign.injEq, and_assoc, exists_and_left,
    exists_eq_left]
  rfl

theorem plain_null_unit : (FragmentUnit.mk owner (name ++ " = null;")).Plain := by
  rw [null_code]
  exact plain_renderAll plain_null (named_null hname)

end Null

/-! ### Contents that follow the live subtrees -/

namespace GraphMapping

variable {m : GraphMapping} {b : Batch} {live : List Subtree} {name : String}

/-- A variable that is set to null was assigned by a subtree. -/
theorem Lists.isName_orphan (h : m.Lists live) (hb : b.Canonical) (hlive : ∀ t ∈ live, t.Simple)
    (hname : name ∈ m.orphans b) : Lexer.isName name = true := by
  obtain ⟨⟨t, ht, -, hassigned⟩, -⟩ := (h.mem_orphans hb).1 hname
  obtain ⟨e, he⟩ := (hlive t ht).mem_assigned.1 hassigned
  exact ((hlive t ht).parsed.named name e he).1

/-- All units of a fragment are plain. -/
theorem Lists.plain_units (h : m.Lists live) (hb : b.Canonical) (hlive : ∀ t ∈ live, t.Simple)
    (hnew : ∀ t ∈ b.modified ++ b.added, t.Simple) : ∀ u ∈ (m.fragmentOf b).units, u.Plain := by
  intro u hu
  rcases mem_units.1 hu with ⟨name, hname, rfl⟩ | ⟨t, ht, -, rfl⟩
  · exact plain_null_unit (h.isName_orphan hb hlive hname)
  · exact (hnew t ht).plain_code

end GraphMapping

namespace Contents

/-- The contents follow the live subtrees: what belongs to a subtree are its assignments, as they were
read, and all else sets variables to null that no live subtree assigns. -/
structure Follows (c : Contents) (live : List Subtree) : Prop where
  owned : ∀ id x e, ⟨some id, x, e⟩ ∈ c ↔
    ∃ t ∈ live, t.id = id ∧ ∃ e₀, .assign x e₀ ∈ t.statements ∧ e = e₀.reread
  unowned : ∀ x e, ⟨none, x, e⟩ ∈ c → e = .null ∧ ∀ t ∈ live, ∀ e₀, .assign x e₀ ∉ t.statements

variable {c : Contents} {m : GraphMapping} {b : Batch} {live : List Subtree}

theorem follows_empty : Follows [] [] :=
  ⟨fun _ _ _ => by simp, fun _ _ h => by cases h⟩

/-- Contents that follow the live subtrees are the assignments of these. -/
theorem Follows.renders (h : c.Follows live) : c.Renders Expr.reread
    (live.flatMap fun t => t.statements.filterMap Statement.assignment?) := by
  have hmem : ∀ x e, (x, e) ∈ (live.flatMap fun t => t.statements.filterMap Statement.assignment?) ↔
      ∃ t ∈ live, .assign x e ∈ t.statements := by
    simp only [List.mem_flatMap, mem_filterMap_assignment?, implies_true]
  refine ⟨fun x e he => ?_, fun a ha => ?_⟩
  · obtain ⟨t, ht, he⟩ := (hmem x e).1 he
    exact ⟨some t.id, (h.owned _ _ _).2 ⟨t, ht, rfl, e, he, rfl⟩⟩
  · obtain ⟨_ | id, x, e⟩ := a
    · obtain ⟨hnull, hnone⟩ := h.unowned x e ha
      refine .inr ⟨hnull, fun e he => ?_⟩
      obtain ⟨t, ht, he⟩ := (hmem x e).1 he
      exact hnone t ht e he
    · obtain ⟨t, ht, -, e₀, he, rfl⟩ := (h.owned _ _ _).1 ha
      exact .inl ⟨e₀, (hmem x e₀).2 ⟨t, ht, he⟩, rfl⟩

section Batch

variable (hc : c.Follows live) (hm : m.Lists live) (hb : b.Canonical)
  (hlive : ∀ t ∈ live, t.Simple) (hnew : ∀ t ∈ b.modified ++ b.added, t.Simple)
  (hreadable : (m.fragmentOf b).Readable)
include hc hm hb hlive hnew hreadable

/-- A batch keeps contents that follow the live subtrees. -/
theorem Follows.compiled : (c.compiled (m.fragmentOf b)).Follows (b.applied live) where
  owned id x e := by
    rw [mem_compiled_owned]
    constructor
    · rintro (⟨hold, hkept⟩ | ⟨u, hu, howner, hmem⟩)
      · obtain ⟨t, ht, rfl, hassigned⟩ := (hc.owned _ _ _).1 hold
        rw [hm.mem_retired ht, Bool.not_eq_true] at hkept
        exact ⟨t, Batch.mem_applied.2 (.inl ⟨ht, hkept⟩), rfl, hassigned⟩
      · rcases GraphMapping.mem_units.1 hu with ⟨name, -, rfl⟩ | ⟨t, ht, -, rfl⟩
        · cases howner
        · cases howner
          exact ⟨t, Batch.mem_applied.2 (.inr ht), rfl,
            ((hnew t ht).mem_assignments (hreadable ⟨some t.id, t.code⟩ hu)).1 hmem⟩
    · rintro ⟨t, ht, rfl, e₀, he, rfl⟩
      rcases Batch.mem_applied.1 ht with ⟨ht, hkept⟩ | ht
      · refine .inl ⟨(hc.owned _ _ _).2 ⟨t, ht, rfl, e₀, he, rfl⟩, ?_⟩
        rw [hm.mem_retired ht, hkept]
        exact Bool.false_ne_true
      · have hu := GraphMapping.subtree_mem_units (m := m) ht (List.ne_nil_of_mem he)
        exact .inr ⟨_, hu, rfl,
          ((hnew t ht).mem_assignments (hreadable ⟨some t.id, t.code⟩ hu)).2 ⟨e₀, he, rfl⟩⟩
  unowned x e h := by
    rcases mem_compiled_unowned h with ⟨hold, hkept⟩ | ⟨u, hu, howner, hmem⟩
    · obtain ⟨hnull, hnone⟩ := hc.unowned x e hold
      refine ⟨hnull, fun t ht e₀ he => ?_⟩
      rcases Batch.mem_applied.1 ht with ⟨ht, -⟩ | ht
      · exact hnone t ht e₀ he
      · have hu := GraphMapping.subtree_mem_units (m := m) ht (List.ne_nil_of_mem he)
        have hread := hreadable ⟨some t.id, t.code⟩ hu
        exact hkept _ hu _ (((hnew t ht).mem_assignments hread).2 ⟨e₀, he, rfl⟩) rfl
    · rcases GraphMapping.mem_units.1 hu with ⟨name, hname, rfl⟩ | ⟨t, -, -, rfl⟩
      · have hisname := hm.isName_orphan hb hlive hname
        have hread := hreadable ⟨none, name ++ " = null;"⟩ hu
        obtain ⟨rfl, rfl⟩ := (mem_assignments_null hisname hread).1 hmem
        refine ⟨rfl, fun t ht e₀ he => ((hm.mem_orphans hb).1 hname).2 t ht ?_⟩
        exact List.mem_map.2 ⟨_, he, rfl⟩
      · cases howner

/-- A batch leaves no variable without an assignment. -/
theorem Follows.keeps : c.Keeps (c.compiled (m.fragmentOf b)) := by
  intro a ha
  have hafter := hc.compiled hm hb hlive hnew hreadable
  by_cases hassigned : ∃ t ∈ b.applied live, ∃ e₀, .assign a.target e₀ ∈ t.statements
  · obtain ⟨t, ht, e₀, he⟩ := hassigned
    exact ⟨_, (hafter.owned _ _ _).2 ⟨t, ht, rfl, e₀, he, rfl⟩, rfl⟩
  · refine target_compiled ?_
    obtain ⟨_ | id, x, e⟩ := a
    · exact .inl ⟨_, ha, rfl, fun _ _ heq => by cases heq⟩
    · obtain ⟨t, ht, rfl, e₀, he, -⟩ := (hc.owned _ _ _).1 ha
      -- the subtree is touched, since its version from before is not live any more
      have htouched : b.contains t.id = true := by
        by_contra hkept
        rw [Bool.not_eq_true] at hkept
        exact hassigned ⟨t, Batch.mem_applied.2 (.inl ⟨ht, hkept⟩), e₀, he⟩
      have horphan : x ∈ m.orphans b := by
        refine (hm.mem_orphans hb).2 ⟨⟨t, ht, htouched, (hlive t ht).mem_assigned.2 ⟨e₀, he⟩⟩,
          fun t' ht' hbound => hassigned ⟨t', ht', ?_⟩⟩
        refine Subtree.Simple.mem_boundNames ?_ |>.1 hbound
        rcases Batch.mem_applied.1 ht' with ⟨ht', -⟩ | ht'
        · exact hlive t' ht'
        · exact hnew t' ht'
      have hu := GraphMapping.orphan_mem_units horphan
      have hread := hreadable ⟨none, x ++ " = null;"⟩ hu
      have hisname := hm.isName_orphan hb hlive horphan
      exact .inr ⟨_, hu, _, (mem_assignments_null hisname hread).2 ⟨rfl, rfl⟩, rfl⟩

end Batch

/-! ### Contents without subtrees -/

/-- The contents of a program whose assignments belong to no subtree. -/
def unowned (A : Assignments) : Contents := A.map fun a => ⟨none, a.1, a.2⟩

variable {A : Assignments} {x : String} {e : Expr} {code : String}

theorem mem_unowned {a : Entry} : a ∈ unowned A ↔ a.owner = none ∧ (a.target, a.value) ∈ A := by
  rw [unowned, List.mem_map]
  constructor
  · rintro ⟨⟨x, e⟩, h, rfl⟩
    exact ⟨rfl, h⟩
  · obtain ⟨owner, x, e⟩ := a
    rintro ⟨rfl, h⟩
    exact ⟨_, h, rfl⟩

theorem renders_unowned (A : Assignments) : (unowned A).Renders id A :=
  ⟨fun _ _ h => ⟨none, mem_unowned.2 ⟨rfl, h⟩⟩,
    fun _ ha => .inl ⟨_, (mem_unowned.1 ha).2, rfl⟩⟩

theorem assign_unowned : (unowned A).assign ⟨none, x, e⟩ = unowned (A.assign x e) := by
  simp only [assign, unowned, Assignments.assign, List.map_append, List.filter_map, List.map_cons,
    List.map_nil]
  rfl

/-- Code without a subtree leaves the contents of a program that are the latest assignments. -/
theorem compiled_ofCode : (unowned A).compiled (.ofCode code) =
    unowned ((FragmentUnit.mk none code).assignments.foldl (fun A a => A.assign a.1 a.2) A) := by
  change (unowned A).extend none (FragmentUnit.mk none code).assignments = _
  generalize (FragmentUnit.mk none code).assignments = more
  induction more generalizing A with
  | nil => rfl
  | cons a rest ih =>
    rw [extend, List.foldl_cons, assign_unowned]
    exact ih

theorem keeps_ofCode : (unowned A).Keeps ((unowned A).compiled (.ofCode code)) := by
  refine fun a ha => target_compiled (.inl ⟨a, ha, rfl, fun id hid => ?_⟩)
  cases hid

/-- Blank code has no assignments. -/
theorem assignments_blank (h : Text.isBlankText code = true) (owner : Option SubtreeId) :
    (FragmentUnit.mk owner code).assignments = [] := by
  simp only [FragmentUnit.assignments, parseProgram_blank h, List.filterMap_nil]

end Contents

end Reflow
