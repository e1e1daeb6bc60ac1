import Reflow.Proofs.Session.Comparison
/-!
# Faulted batches are taken back

A batch whose run faults leaves the program and the mapping of the session as they were, so that later
code compiles as if it had never been there. Memory keeps the stores that the run has made, but only in
slots that the program had before, and each of these slots is noted; what such a run has put on the heap
takes no place of anything else.

## Main definitions

* `Session.TakenBack`: what a batch that faulted leaves.

## Main results

* `Session.LaidOut.takenBack`: a batch that faulted is taken back.
* `Session.fault_confined`: what is as before after a fault, and what may have changed.
-/

namespace Reflow.Session

/-- The session after a batch that faulted: the program is the same, and memory has changed at most in
the slots of the program that are noted. -/
structure TakenBack (s s' : Session) : Prop where
  akin : ∃ k, s.Akin (shiftFrom s.mapping.nextUid k) s'
  committed : s'.mapping.committed = s.mapping.committed
  spare : ∀ slot, s.compiled.globalCount ≤ slot → slot < s'.memory.globalCount →
    s'.memory.global? slot = some .null
  kept : ∀ slot < s.compiled.globalCount, slot ∉ s'.memory.modified →
    s'.memory.global? slot = s.memory.global? slot
  heap : s.memory.heap.Extends s'.memory.heap

section

variable {s : Session} {f : Fragment} {memory : Memory}

/-- A slot of the program that a faulted run has not changed. -/
theorem LaidOut.global?_rolledBack (h : s.LaidOut)
    (hupdates : (s.installed (s.compiled.compiled f).image).memory.Updates
      (s.compiled.compiled f).globalCount memory) {slot : Nat} (hslot : slot < s.compiled.globalCount)
    (hkept : slot ∉
      (Session.rolledBack s (s.installed (s.compiled.compiled f).image) memory).memory.modified) :
    (Session.rolledBack s (s.installed (s.compiled.compiled f).image) memory).memory.global? slot =
      s.memory.global? slot := by
  have hunmodified : slot ∉ memory.modified := fun hmem =>
    hkept (List.mem_filter.2 ⟨hmem, decide_eq_true hslot⟩)
  refine (Memory.global?_clearFrom_of_lt hslot).trans ((hupdates.kept slot hunmodified).trans ?_)
  refine (s.global?_withRoom _ slot).trans (if_pos ?_)
  exact Nat.lt_of_lt_of_le hslot h.room

theorem LaidOut.heap_rolledBack (h : s.LaidOut)
    (hupdates : (s.installed (s.compiled.compiled f).image).memory.Updates
      (s.compiled.compiled f).globalCount memory) :
    s.memory.heap.Extends
      (Session.rolledBack s (s.installed (s.compiled.compiled f).image) memory).memory.heap := by
  have hheap : (s.installed (s.compiled.compiled f).image).memory.heap = s.memory.heap :=
    s.heap_withRoom _
  exact hheap ▸ hupdates.heap (h.heap_installed _)

/-- A request whose run faulted is taken back. -/
theorem LaidOut.takenBack (h : s.LaidOut) (htidy : s.Tidy) {r : Request} {fault : Fault}
    (hr : (s.answer r.call).1 = .error (.execute fault)) : s.TakenBack (s.answer r.call).2 := by
  rcases ha : s.answer r.call with ⟨result, s'⟩
  rw [ha] at hr
  obtain rfl : result = .error (.execute fault) := hr
  obtain ⟨m, f, forced, full, memory, hcourse, hx, rfl⟩ := answer_fault_cases h.sound ha
  obtain ⟨-, hcommitted, k, hnext⟩ := htidy.numbered_courseOf hcourse
  have hmapping := htidy.renumbers hcommitted hnext
  have hready := (h.withMapping m).prepared full
  have hupdates := hready.sound.updates f forced
  dsimp only at hupdates
  rw [hx] at hupdates
  have hlaidOut := hready.rolledBack hupdates
  have hkept := fun slot => @global?_rolledBack _ _ _ hready hupdates slot
  have hheap := hready.heap_rolledBack hupdates
  rw [prepared_eq] at hlaidOut hkept hheap ⊢
  exact ⟨⟨k, h.sound, hlaidOut.sound, rfl, rfl, ⟨_, _, _, rfl⟩, hmapping⟩, hcommitted, hlaidOut.spare,
    hkept, hheap⟩

end

/-- What a fault leaves. Program, names and mapping are as before, and any code compiles as before, also
later as long as no other run faults on account of the memory that is left. The slots that the program did
not have are null, and the others hold what they held, unless they are noted; what they point to is
there still. -/
theorem fault_confined (options : Options) (history : List Request) (request : Request)
    (fault : Fault)
    (hfault : ((({ options } : Session).run history).answer request.call).1 =
      .error (.execute fault)) :
    let s := ({ options } : Session).run history
    let s' := (s.answer request.call).2
    (s'.executable = s.executable ∧ s'.compiled.root.symbols = s.compiled.root.symbols ∧
      s'.compiled.root.procedures = s.compiled.root.procedures) ∧
    (s'.mapping.subtreeVariable? = s.mapping.subtreeVariable? ∧
      s'.mapping.canonicalize = s.mapping.canonicalize ∧
      s'.mapping.variableName? = s.mapping.variableName? ∧
      s'.mapping.nodeForVariable? = s.mapping.nodeForVariable?) ∧
    (∀ later, s.InStep s' later →
      (∀ batch, ((s'.run later).mapping.build batch).1 = ((s.run later).mapping.build batch).1) ∧
      ∀ f full, compile f ((s'.run later).prepared full).compiled =
        compile f ((s.run later).prepared full).compiled) ∧
    (∀ slot, s.compiled.globalCount ≤ slot → slot < s'.memory.globalCount →
      s'.memory.global? slot = some .null) ∧
    (∀ slot < s.compiled.globalCount, slot ∉ s'.memory.modified →
      s'.memory.global? slot = s.memory.global? slot) ∧
    s.memory.heap.Extends s'.memory.heap := by
  have h := (laidOut_run options history).takenBack (tidy_run options history) hfault
  intro s s'
  obtain ⟨k, hakin⟩ := h.akin
  obtain ⟨entry, updates, full, hcompiled⟩ := hakin.compiled
  refine ⟨⟨hakin.executable, ?_, ?_⟩, ⟨GraphMapping.subtreeVariable?_congr h.committed,
    GraphMapping.canonicalize_congr h.committed, GraphMapping.variableName?_congr h.committed,
    GraphMapping.nodeForVariable?_congr h.committed⟩, fun later hstep => ?_, h.spare, h.kept, h.heap⟩
  · exact (congrArg (fun t : CompileState => t.root.symbols) hcompiled).trans rfl
  · exact (congrArg (fun t : CompileState => t.root.procedures) hcompiled).trans rfl
  · have hlater := hakin.run hstep
    exact ⟨fun batch => (hlater.mapping.build batch).1, hlater.compile_eq⟩

/-- The batch gives `b` another value and then faults, because `c` would have to run a second time: `a`
holds what it held, the slots of `c` and `d` are null, and more code compiles as before. -/
theorem fault_confined_interrupted :
    let s := ({ options := { interpreterMode := true, maxPasses := 1 } } : Session).run
      [.updateCode "a = 1; b = 2;"]
    let r := Request.updateCode "b = 3; c = d; d = 5;"
    let s' := (s.answer r.call).2
    Faulted (s.answer r.call).1 ∧ s'.memory.global? 0 = s.memory.global? 0 ∧
      s'.memory.global? 3 = some .null ∧ ∀ f full,
        compile f (s'.prepared full).compiled = compile f (s.prepared full).compiled := by
  intro s r s'
  have hfault : (s.answer r.call).1 = .error (.execute (.updateCycle 3 1)) := by decide +kernel
  obtain ⟨-, -, hcompile, hspare, hkept, -⟩ := fault_confined { interpreterMode := true, maxPasses := 1 }
    [.updateCode "a = 1; b = 2;"] r _ hfault
  exact ⟨⟨_, hfault⟩, hkept 0 (by decide +kernel) (by decide +kernel),
    hspare 3 (by decide +kernel) (by decide +kernel), (hcompile [] trivial).2⟩

end Reflow.Session
