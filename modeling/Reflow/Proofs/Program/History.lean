import Reflow.Proofs.Program.Appending
import Reflow.Proofs.Program.Ownership
/-!
# The history of a program

A program comes about statement by statement. Its history lists the statements that were accepted, each
with the state of the program to which it was added. Subtrees that are retired and what is scheduled for the
next run change the program as well, without being listed. Whatever holds of the empty program and survives
each of these steps holds of every program that compilations without errors lead to.

## Main definitions

* `Addition`: an accepted statement, with the program before it.
* `CompileState.History`: what was added to a program, step by step.
* `Fragment.log`: what a compilation adds.
* `CompileState.Recounted`: the programs that compilations and resets lead to, with all that they added.
* `CompileState.Continues`: what compilations and resets make of a program.

## Main results

* `CompileState.Recounted.history`, `CompileState.Reached.recounted`: every program has a history.
* `CompileState.Continues.appends`: later programs only add statements.
-/

namespace Reflow

/-- A statement that was accepted, with the program to which it was added. -/
structure Addition where
  before : CompileState
  statement : Statement

namespace CompileState

/-- The program `s` has come about by adding the statements of a list, one after the other. -/
inductive History : List Addition → CompileState → Prop
  | new : History [] {}
  | scheduled {log : List Addition} {s : CompileState} (before : History log s) (entry : Option Nat)
      (updates : List UpdateRoot) (full : Bool) : History log (s.scheduled entry updates full)
  | retire {log : List Addition} {s : CompileState} (before : History log s) (subtree : SubtreeId) :
      History log (s.retire subtree)
  | statement {log : List Addition} {s t : CompileState} {owner : Option SubtreeId}
      {statement : Statement} {warnings : List String} (before : History log s)
      (accepted : compileStatement owner statement s = .ok (warnings, t)) :
      History (log ++ [⟨s, statement⟩]) t

/-- What the statements add if each of them is accepted. -/
def additions : List (Option SubtreeId × Statement) → CompileState → List Addition
  | [], _ => []
  | (owner, statement) :: rest, s => ⟨s, statement⟩ :: additions rest (s.extended owner statement)

end CompileState

/-- The statements of a fragment in order, each with the owner of its unit. -/
def Fragment.statements (f : Fragment) : List (Option SubtreeId × Statement) :=
  f.units.flatMap fun u => u.program.map (u.owner, ·)

/-- What the compilation of a fragment adds on top of a program. -/
def Fragment.log (f : Fragment) (prior : CompileState) : List Addition :=
  CompileState.additions f.statements (f.retired.foldl CompileState.retire prior.beginCompile)

/-! ### Compilations step by step -/

namespace CompileState

theorem additions_append (first second : List (Option SubtreeId × Statement)) (s : CompileState) :
    additions (first ++ second) s =
      additions first s ++ additions second (first.foldl (fun s a => s.extended a.1 a.2) s) := by
  induction first generalizing s with
  | nil => rfl
  | cons a rest ih => exact congrArg (⟨s, a.2⟩ :: ·) (ih _)

end CompileState

namespace Progress

variable {p q r : Progress} {first second : List (Option SubtreeId × Statement)}

/-- The compilation `q` under way comes after `p`, and in between the statements `added` were accepted. -/
structure Leads (p q : Progress) (added : List (Option SubtreeId × Statement)) : Prop where
  state : q.state = added.foldl (fun s a => s.extended a.1 a.2) p.state
  history : ∀ {log}, p.state.History log →
    q.state.History (log ++ CompileState.additions added p.state)

namespace Leads

theorem refl (p : Progress) : p.Leads p [] :=
  ⟨rfl, fun h => (List.append_nil _).symm ▸ h⟩

theorem trans (h : p.Leads q first) (k : q.Leads r second) : p.Leads r (first ++ second) where
  state := by rw [k.state, h.state, List.foldl_append]
  history hp := by
    rw [CompileState.additions_append, ← List.append_assoc, ← h.state]
    exact k.history (h.history hp)

end Leads

/-- A statement that was met without an error is added. -/
theorem Clean.leads_statement {owner : Option SubtreeId} {s : Statement}
    (h : (p.statement owner s).Clean) : p.Leads (p.statement owner s) [(owner, s)] := by
  obtain ⟨-, warnings, hcompile⟩ := h.statement
  exact ⟨compileStatement_ok hcompile, fun hp => hp.statement hcompile⟩

theorem Clean.leads_statements {owner : Option SubtreeId} {program : List Statement}
    (h : (program.foldl (Progress.statement owner) p).Clean) :
    p.Leads (program.foldl (Progress.statement owner) p) (program.map (owner, ·)) := by
  induction program generalizing p with
  | nil => exact .refl p
  | cons s rest ih =>
    have hfirst : (p.statement owner s).Clean := Clean.statements h
    have hfirst := hfirst.leads_statement
    exact hfirst.trans (ih h)

theorem Clean.leads_units {units : List FragmentUnit} (h : (units.foldl Progress.unit p).Clean) :
    p.Leads (units.foldl Progress.unit p)
      (units.flatMap fun u => u.program.map (u.owner, ·)) := by
  induction units generalizing p with
  | nil => exact .refl p
  | cons u rest ih =>
    have hunit : (p.unit u).Clean := Clean.of_units h
    have heq := hunit.unit_eq
    have hfirst : p.Leads (p.unit u) (u.program.map (u.owner, ·)) := by
      rw [heq] at hunit ⊢
      exact hunit.leads_statements
    exact hfirst.trans (ih h)

end Progress

namespace CompileState

variable {log : List Addition} {s t : CompileState}

theorem History.retired (h : s.History log) (retired : List SubtreeId) :
    (retired.foldl CompileState.retire s).History log :=
  List.foldlRecOn retired CompileState.retire h fun _ ht id _ => ht.retire id

/-- A compilation without errors adds all statements of its fragment. -/
theorem History.compiled (h : s.History log) {f : Fragment} {image : CompiledImage}
    (accepted : (compile f s).image = some image) : image.state.History (log ++ f.log s) := by
  have hcompile : compile f s = ⟨(compile f s).diagnostics, some image⟩ := by rw [← accepted]
  have hbegin : s.beginCompile.History log := h.scheduled _ _ _
  rw [compile_image accepted]
  exact (Progress.Clean.leads_units (clean_of_compile hcompile)).history (hbegin.retired f.retired)

/-- Every step to a program with a history keeps it sound. -/
theorem History.sound (h : s.History log) : s.Sound := by
  induction h with
  | new => exact sound_empty
  | scheduled _ entry updates full ih => exact (evolves_scheduled _ entry updates full ih).1
  | retire _ subtree ih => exact (evolves_retire _ subtree ih).1
  | @statement _ s t owner statement _ _ accepted ih =>
    rw [compileStatement_ok accepted]
    cases statement with
    | assign target value => exact (evolves_assigned s owner target value ih).1
    | define name params body => exact (evolves_defined s owner name params body ih).1

/-! ### Whole sessions -/

/-- The programs that compilations without errors and resets lead to from the empty one, with all that was
added on the way. -/
inductive Recounted : List Addition → CompileState → Prop
  | new : Recounted [] {}
  | compiled {log : List Addition} {s : CompileState} {f : Fragment} {image : CompiledImage}
      (before : Recounted log s) (accepted : (compile f s).image = some image) :
      Recounted (log ++ f.log s) image.state
  | resetForNewDelta {log : List Addition} {s : CompileState} (before : Recounted log s) :
      Recounted log s.resetForNewDelta
  | resetForFullExecution {log : List Addition} {s : CompileState} (before : Recounted log s) :
      Recounted log s.resetForFullExecution

theorem Recounted.history (h : s.Recounted log) : s.History log := by
  induction h with
  | new => exact .new
  | compiled _ accepted ih => exact ih.compiled accepted
  | @resetForNewDelta log s _ ih => exact ih.scheduled s.root.stream.entry [] false
  | @resetForFullExecution log s _ ih => exact ih.scheduled s.root.stream.entry [] true

theorem Reached.recounted {last : Option CompileState} (h : Reached last s) :
    ∃ log, s.Recounted log := by
  induction h with
  | new => exact ⟨_, .new⟩
  | compiled _ accepted ih =>
    obtain ⟨log, hlog⟩ := ih
    exact ⟨_, hlog.compiled accepted⟩
  | resetForNewDelta _ ih =>
    obtain ⟨log, hlog⟩ := ih
    exact ⟨log, hlog.resetForNewDelta⟩
  | resetForFullExecution _ ih =>
    obtain ⟨log, hlog⟩ := ih
    exact ⟨log, hlog.resetForFullExecution⟩

/-- The programs that compilations without errors and resets make of `s`. -/
inductive Continues (s : CompileState) : CompileState → Prop
  | refl : Continues s s
  | compiled {t : CompileState} {f : Fragment} {image : CompiledImage} (before : Continues s t)
      (accepted : (compile f t).image = some image) : Continues s image.state
  | resetForNewDelta {t : CompileState} (before : Continues s t) : Continues s t.resetForNewDelta
  | resetForFullExecution {t : CompileState} (before : Continues s t) :
      Continues s t.resetForFullExecution

/-- Later programs have what a program has, and add statements after it. -/
theorem Continues.appends (h : s.Continues t) : s.Appends t := by
  induction h with
  | refl => rfl
  | compiled _ accepted ih =>
    rw [compile_image accepted]
    exact ih.trans (appends_compiled _ _)
  | resetForNewDelta _ ih => exact ih.trans (appends_scheduled _ _ _ _)
  | resetForFullExecution _ ih => exact ih.trans (appends_scheduled _ _ _ _)

end CompileState

end Reflow
