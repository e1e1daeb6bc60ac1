import Reflow.Proofs.Session.Comparison
/-!
# Rejected batches leave no trace

A batch that does not compile, and a call that the mode does not allow, leave program and memory as
they were. What they do leave behind, the numbers that their nodes were given, a cleared list of what has
to run next, cleared notes of changes and options that have taken effect, makes no difference to
anything that is asked of the session later.

## Main definitions

* `Session.isRejection`: whether an answer says that nothing was run.
* `Session.Unseen`: what a rejected call leaves.

## Main results

* `Session.Tidy.unseen`: a rejected call leaves a session that is alike.
* `Session.rejected_unseen`: nothing that is asked later shows that there was a rejected call.
-/

namespace Reflow.Session

/-- The call has run nothing: its code does not compile, or the mode does not allow it. -/
def isRejection {α : Type} : Except SessionError α → Bool
  | .error (.compile _) => true
  | .error (.modeMismatch _ _) => true
  | _ => false

/-- The session after a rejected call: alike, with what is committed in place, and with the numbers from
`nextUid` on moved up by the number of nodes of the rejected batch. -/
structure Unseen (s s' : Session) : Prop where
  alike : ∃ k, s.Alike (shiftFrom s.mapping.nextUid k) s'
  committed : s'.mapping.committed = s.mapping.committed

theorem Tidy.unseen_self {s : Session} (h : s.Tidy) : s.Unseen s := by
  have hmapping := h.numbered.renumbers h.pending 0
  exact ⟨⟨0, ⟨h.sound, h.sound, rfl, rfl, ⟨_, _, _, s.compiled.scheduled_self⟩, hmapping⟩, rfl, rfl,
    rfl⟩, rfl⟩

/-- A batch that does not compile. -/
theorem Tidy.unseen_abandon {s : Session} (h : s.Tidy) {m : GraphMapping} {k : Nat}
    (hcommitted : m.committed = s.mapping.committed) (hnext : m.nextUid = s.mapping.nextUid + k)
    (full : Bool) : s.Unseen (({ s with mapping := m } : Session).prepared full).abandon := by
  have hready := (h.sound.withMapping m).prepared full
  have hmapping := h.renumbers hcommitted hnext
  rw [prepared_eq] at hready ⊢
  exact ⟨⟨k, ⟨h.sound, hready.withMapping _, rfl, rfl, ⟨_, _, _, rfl⟩, hmapping⟩, rfl, rfl, rfl⟩,
    hcommitted⟩

/-- A rejected call is not seen in the session that it leaves. -/
theorem Tidy.unseen {s : Session} (h : s.Tidy) {r : Request} (hr : isRejection (s.answer r.call).1 = true) :
    s.Unseen (s.answer r.call).2 := by
  rw [answer_call h.sound] at hr ⊢
  cases hc : s.courseOf r with
  | refuse operation mode => exact h.unseen_self
  | skip =>
    rw [hc] at hr
    cases hr
  | configure options =>
    rw [hc] at hr
    cases hr
  | batch m f forced full =>
    obtain ⟨-, hcommitted, k, hnext⟩ := h.numbered_courseOf hc
    rw [hc] at hr
    rcases ({ s with mapping := m } : Session).outcome_cases f forced full with
      ⟨diagnostics, -, ho⟩ | ⟨diagnostics, result, memory, -, -, ho⟩
    · simp only [taken, ho]
      exact h.unseen_abandon hcommitted hnext full
    · simp only [taken, ho] at hr
      cases result <;> cases hr

/-- Nothing that is asked later shows that there was a rejected call. Program, memory and the values of
all nodes are as before, and any later call is answered as if there had been no rejected one, except that
nodes which were new after it may have other numbers. -/
theorem rejected_unseen (options : Options) (history : List Request) (request : Request)
    (hrejected : isRejection ((({ options } : Session).run history).answer request.call).1 = true) :
    let s := ({ options } : Session).run history
    let s' := (s.answer request.call).2
    (s'.executable = s.executable ∧ s'.memory.globals = s.memory.globals ∧
      s'.memory.heap = s.memory.heap ∧ ∀ node, s'.query node = s.query node) ∧
    ∃ rename : Nat → Nat, Function.Injective rename ∧
      (∀ number < s.mapping.nextUid, rename number = number) ∧
      ∀ (later : List Request) (next : Request),
        ((s'.run later).answer next.call).1 =
          ((s.run later).answer next.call).1.map (Option.map (Report.renumber rename)) ∧
        (s'.run later).executable = (s.run later).executable ∧
        (s'.run later).memory.globals = (s.run later).memory.globals ∧
        (s'.run later).memory.heap = (s.run later).memory.heap ∧
        ∀ node, (s'.run later).query (node.renumber rename) = (s.run later).query node := by
  have htidy := tidy_run options history
  obtain ⟨⟨k, halike⟩, hcommitted⟩ := htidy.unseen hrejected
  intro s s'
  have hinjective := shiftFrom_injective s.mapping.nextUid k
  refine ⟨⟨halike.executable, halike.globals, halike.heap, fun node => ?_⟩,
    _, hinjective, fun number hnumber => if_pos hnumber, fun later next => ?_⟩
  · rw [query, GraphMapping.variableFor?_congr hcommitted, funext halike.snapshotOf?]
    rfl
  · have hlater := halike.run later
    exact ⟨(hlater.answer next).1, hlater.executable, hlater.globals, hlater.heap,
      hlater.query hinjective⟩

/-- Code that is no program leaves the value of `a`, and later code sees it as if nothing had
happened. -/
theorem rejected_unseen_misspelt :
    let s := ({ options := { interpreterMode := true } } : Session).run [.updateCode "a = 7;"]
    let s' := (s.answer (Request.updateCode "a = = 8;").call).2
    isRejection (s.answer (Request.updateCode "a = = 8;").call).1 = true ∧
      s'.query (.named "a") = s.query (.named "a") ∧
      (s'.run [.updateCode "b = a;"]).query (.named "b") =
        (s.run [.updateCode "b = a;"]).query (.named "b") := by
  intro s s'
  have hrejected : isRejection (s.answer (Request.updateCode "a = = 8;").call).1 = true := by
    decide +kernel
  obtain ⟨⟨-, -, -, hquery⟩, rename, -, -, hlater⟩ :=
    rejected_unseen { interpreterMode := true } [.updateCode "a = 7;"] _ hrejected
  exact ⟨hrejected, hquery (.named "a"),
    (hlater [.updateCode "b = a;"] .rerunAll).2.2.2.2 (.named "b")⟩

end Reflow.Session
