import Reflow.Proofs.Program.Redefinition
import Reflow.Proofs.Session.Freshness
/-!
# Calls of function values

A statement that calls a function through a value is not among the readers of the function, unless it
also uses the function by name. When the function is redefined, such a statement does not run again, and
its global may be stale. The global is not stale if the evaluation of the statement depends on no
function besides those that the statement uses.

## Main definitions

* `Session.indirect`: a session with such a call.

## Main results

* `Session.stored_of_unaffected`: the global of a statement holds its value, if no redefinition of
  functions that the statement does not use affects the value.
-/

namespace Reflow

namespace Session

variable {s : Session} {g : DependencyGraph} {n : GraphNode} {key : SymbolKey} {limit depth : Nat}
  {v : Value} {m : Machine}

/-- In a settled session, a statement that determines a global and that can be evaluated however the
functions of which it is no reader are redefined has the value that the global holds. -/
theorem Settled.same_of_redefined (h : s.Settled) (hg : s.executable.graph? = some g)
    (hn : g.Determines n key)
    (hr : (runRange s.executable limit depth ⟨0, n.start, n.stop - 1, []⟩).run
      { memory := s.memory } = .ok v m)
    (hruns : ∀ f : Procedure → Procedure, (∀ p, n.id ∈ g.readersOf (.procedure p.index) → f p = p) →
      ∃ v m, (runRange (s.executable.redefined f) limit depth ⟨0, n.start, n.stop - 1, []⟩).run
        { memory := s.memory } = .ok v m) :
    ∃ stored, s.memory.global? key.index = some stored ∧ m.memory.heap.same stored v = true := by
  obtain ⟨t, hx, rfl, ht, slots, hsteady⟩ := h.installed hg
  rw [hx] at hr hruns
  obtain ⟨slot, σ, e, rfl, hregular⟩ := ht.regular_of_determines hn
  have hused : ∀ f : Procedure → Procedure, (∀ p, t.Uses n p.index → f p = p) →
      ∃ v m, (runRange (t.executable.redefined f) limit depth ⟨0, n.start, n.stop - 1, []⟩).run
        { memory := s.memory } = .ok v m :=
    fun f hf => hruns f fun p hp => hf p (ht.graph.reaches_of_mem_readersOf hregular.mem hp)
  exact ht.same_of_consistent hsteady.shows hregular.assigns (hsteady.settled hregular)
    (fun d => ht.datum?_of_redefined hregular.assigns hsteady.shows hused) hr

/-- As long as no run faults, every statement that determines a global has the value that the global
holds, also if it calls functions through values, provided that its evaluation comes to the same however
the functions of which the statement is no reader are redefined. -/
theorem stored_of_unaffected (options : Options) (history : List Request)
    (hrun : ({ options } : Session).Unfaulted history) (g : DependencyGraph)
    (hg : (({ options } : Session).run history).executable.graph? = some g) :
    let s := ({ options } : Session).run history
    ∀ n key, g.Determines n key → ∀ limit depth v m,
      (runRange s.executable limit depth ⟨0, n.start, n.stop - 1, []⟩).run
        { memory := s.memory } = .ok v m →
      (∀ f : Procedure → Procedure,
        (∀ p, n.id ∈ g.readersOf (.procedure p.index) → f p = p) →
        (runRange (s.executable.redefined f) limit depth ⟨0, n.start, n.stop - 1, []⟩).run
          { memory := s.memory } = .ok v m) →
      ∃ stored, s.memory.global? key.index = some stored ∧ m.memory.heap.same stored v = true := by
  intro s n key hn limit depth v m hr hunaffected
  exact (settled_run options hrun).same_of_redefined hg hn hr fun f hf => ⟨v, m, hunaffected f hf⟩

/-- The session in which `x` is `p() + g()` for the function `g` that `p` holds, and in which `g` was
redefined thereafter. -/
def indirect : Session :=
  ({ options := { interpreterMode := true } } : Session).run
    [.updateCode "def g() = 1; p = g; x = p() + g();", .updateCode "def g() = 2;"]

/-- Evaluating the statement of `x` again gives what `x` holds. -/
theorem stored_of_unaffected_indirect : ∃ v m stored,
    (runRange indirect.executable 256 256 ⟨0, 2, 6, []⟩).run { memory := indirect.memory } = .ok v m ∧
      indirect.memory.global? 1 = some stored ∧ m.memory.heap.same stored v = true := by
  have hrun : ({ options := { interpreterMode := true } } : Session).Unfaulted
      [.updateCode "def g() = 1; p = g; x = p() + g();", .updateCode "def g() = 2;"] :=
    unfaulted_cons (by decide +kernel) (unfaulted_cons (by decide +kernel) trivial)
  have hn : indirect.compiled.graph.Determines
      ⟨1, none, some (.global 1), [.global 0], [0], 2, 7, true⟩ (.global 1) :=
    ⟨by decide +kernel, rfl, by decide +kernel, by decide +kernel⟩
  obtain ⟨v, m, hr⟩ := run_ok_of_isSome (f := runRange indirect.executable 256 256 ⟨0, 2, 6, []⟩)
    (m := { memory := indirect.memory }) (by decide +kernel)
  obtain ⟨stored, hstored, hsame⟩ := stored_of_unaffected _ _ hrun indirect.compiled.graph
    (by decide +kernel) _ _ hn 256 256 v m hr fun f hf => by
      -- `g` is the only function, and the statement reads it
      have hself : indirect.executable.redefined f = indirect.executable := by
        refine Executable.redefined_eq_self fun table htable p hp => hf p ?_
        have hindex : ∀ table ∈ indirect.executable.procedures, ∀ p ∈ table.procedures,
            p.index = 0 := by decide +kernel
        rw [hindex table htable p hp]
        decide +kernel
      exact (congrArg (fun x => (runRange x 256 256 ⟨0, 2, 6, []⟩).run
        { memory := indirect.memory }) hself).trans hr
  exact ⟨v, m, stored, hr, hstored, hsame⟩

end Session

end Reflow
