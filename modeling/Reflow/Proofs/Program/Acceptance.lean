import Reflow.Proofs.Program.Soundness
/-!
# Compilations that succeed

Diagnostics are only added. A compilation that ends without an error has therefore met none on the way:
the code of every unit is a program, and every statement has been compiled.

## Main definitions

* `Progress.Clean`: a compilation that has met no error so far.
* `Fragment.Readable`: a fragment whose units are all programs.

## Main results

* `Progress.Clean.statement`, `Progress.Clean.unit`: what a compilation without errors has compiled.
* `clean_of_compile`: a compilation that gives an image has met no error.
* `readable_of_compile`: its units are all programs.
-/

namespace Reflow

/-- The code of every unit is a program. -/
def Fragment.Readable (f : Fragment) : Prop := ∀ u ∈ f.units, ∃ program, parseProgram u.code = .ok program

namespace Progress

/-- No error has been met so far. -/
def Clean (p : Progress) : Prop := ∀ d ∈ p.diagnostics, d.isError = false

variable {p : Progress} {owner : Option SubtreeId} {s : Statement} {program : List Statement}
  {u : FragmentUnit} {units : List FragmentUnit}

/-- A statement that was met without an error has been compiled. -/
theorem Clean.statement (h : (statement owner p s).Clean) :
    p.Clean ∧ ∃ warnings, compileStatement owner s p.state =
      .ok (warnings, (Progress.statement owner p s).state) := by
  unfold Progress.statement at h ⊢
  cases hs : compileStatement owner s p.state with
  | ok result =>
    obtain ⟨warnings, state⟩ := result
    rw [hs] at h
    exact ⟨fun d hd => h d (List.mem_append_left _ hd), warnings, rfl⟩
  | error e =>
    rw [hs] at h
    cases h (.ofError e owner) (List.mem_append_right _ List.mem_cons_self)

theorem Clean.statements (h : (program.foldl (Progress.statement owner) p).Clean) : p.Clean := by
  induction program generalizing p with
  | nil => exact h
  | cons s rest ih => exact (ih h).statement.1

/-- The code of a unit that was met without an error is a program. -/
theorem Clean.unit (h : (p.unit u).Clean) : ∃ program, parseProgram u.code = .ok program ∧
    p.unit u = program.foldl (Progress.statement u.owner) p := by
  unfold Progress.unit at h ⊢
  cases hparse : parseProgram u.code with
  | ok program => exact ⟨program, rfl, rfl⟩
  | error e =>
    rw [hparse] at h
    cases h (.ofError (.parse e) u.owner) (List.mem_append_right _ List.mem_cons_self)

theorem Clean.of_unit (h : (p.unit u).Clean) : p.Clean := by
  obtain ⟨program, -, heq⟩ := h.unit
  rw [heq] at h
  exact h.statements

theorem Clean.of_units (h : (units.foldl Progress.unit p).Clean) : p.Clean := by
  induction units generalizing p with
  | nil => exact h
  | cons u rest ih => exact (ih h).of_unit

/-- All units of a compilation without errors are programs. -/
theorem Clean.parse (h : (units.foldl Progress.unit p).Clean) (hu : u ∈ units) :
    ∃ program, parseProgram u.code = .ok program := by
  induction units generalizing p with
  | nil => cases hu
  | cons first rest ih =>
    rw [List.foldl_cons] at h
    rcases List.mem_cons.1 hu with rfl | hu
    · obtain ⟨program, hparse, -⟩ := h.of_units.unit
      exact ⟨program, hparse⟩
    · exact ih h hu

end Progress

/-- A compilation that gives an image has met no error. -/
theorem clean_of_compile {f : Fragment} {prior : CompileState} {diagnostics : List Diagnostic}
    {image : CompiledImage} (h : compile f prior = ⟨diagnostics, some image⟩) :
    (f.progress prior).Clean := by
  rw [compile_eq] at h
  have himage := (CompileOutcome.mk.inj h).2
  split at himage
  · cases himage
  · rename_i herror
    simpa [Progress.Clean] using herror

theorem readable_of_compile {f : Fragment} {prior : CompileState} {diagnostics : List Diagnostic}
    {image : CompiledImage} (h : compile f prior = ⟨diagnostics, some image⟩) : f.Readable :=
  fun _ hu => (clean_of_compile h).parse hu

end Reflow
