import Reflow.Proofs.Program.Mending
import Reflow.Proofs.Session.Independence
/-!
# Running all statements repairs what a fault has left

A batch whose run faults is taken back, but the stores that it has made stay, and what they have left in the
slots may have nothing to do with the program. If all statements are then run again, every variable has the
value that it had before. No copy of the values is kept for that: the assignments determine them. Before the
fault the values satisfied the assignments, and they satisfy them again after a full run, from whatever it
started. Without cycles, and if nothing is read that is not assigned, there is only one way to do so.

## Main definitions

* `Session.Recoverable`: a session with a program of some contents, whatever its slots hold.

## Main results

* `Session.Carries.recoverable_of_fault`: what a fault leaves.
* `Session.Recoverable.rerunAll`: what running all statements makes of it.
* `Session.repaired`: after both, the variables have the values that they had before.
-/

namespace Reflow.Session

/-- The session has a program with these contents, and its slots stand for data, which need not fit the
program. -/
structure Recoverable (s : Session) (c : Contents) : Prop where
  laidOut : s.LaidOut
  represents : s.compiled.Represents c
  shows : ∃ names slots, s.memory.Shows names slots

variable {s s' : Session} {c : Contents}

theorem Recoverable.prepared (h : s.Recoverable c) (full : Bool) : (s.prepared full).Recoverable c := by
  have hlaidOut := h.laidOut.prepared full
  obtain ⟨names, slots, hshows⟩ := h.shows
  rw [prepared_eq] at hlaidOut ⊢
  exact ⟨hlaidOut, h.represents.scheduled h.laidOut.sound.compiled _ _ _, names, slots, hshows.sound,
    hshows.held⟩

/-- A fault leaves the contents of the program, and slots that stand for data. -/
theorem Carries.recoverable_of_fault (h : s.Carries c) {r : Request} {fault : Fault}
    (ha : s.answer r.call = (.error (.execute fault), s')) : s'.Recoverable c := by
  obtain ⟨mapping, f, forced, full, memory, -, hr, rfl⟩ := answer_fault_cases h.laidOut.sound ha
  have hready := (h.withMapping mapping).prepared full
  have hsound := hready.laidOut.sound
  have hupdates := hsound.updates f forced
  dsimp only at hupdates
  rw [hr] at hupdates
  -- the run started from values that stood for data in the program that has been taken back
  obtain ⟨ht, -⟩ := evolves_compiled f _ hsound.compiled
  obtain ⟨slots, hstart⟩ := hready.settled.steady_installed f {}
  obtain ⟨slots', hend⟩ := ht.execute_shows rfl hstart.shows hstart.room hr
  exact ⟨hready.laidOut.rolledBack hupdates, hready.represents, _, _, hend.clearFrom _⟩

/-- A run of all statements that succeeds leaves values that satisfy the assignments. -/
theorem Recoverable.succeeded (h : s.Recoverable c) (hc : c.Orderly) (hfull : s.compiled.fullExecution = true)
    (hnotes : s.memory.modified = []) {run : Execution} {memory : Memory}
    (hr : execute (s.compiled.compiled {}).image.executable
      (s.installed (s.compiled.compiled {}).image).memory
      ((s.installed (s.compiled.compiled {}).image).settings [] (s.compiled.compiled {}).image) =
        (.ok run, memory)) : ∃ env : String → Datum, ∀ a ∈ c,
      (env a.target).same (a.value.value env) = true ∧
        ((s.installed (s.compiled.compiled {}).image).succeeded memory).query (.named a.target) =
          some (env a.target).snapshot := by
  have hsound := h.laidOut.sound
  have hupdates := hsound.updates {} []
  dsimp only at hupdates
  rw [hr] at hupdates
  have hlaidOut := h.laidOut.succeeded hnotes hupdates
  obtain ⟨ht, -⟩ := evolves_compiled {} _ hsound.compiled
  have hrepresents : (s.compiled.compiled {}).Represents c :=
    h.represents.compiled hsound.compiled nofun
  -- the run starts with all statements, on slots that stand for data
  have hentry : (s.compiled.compiled {}).root.stream.entry = some 0 := congrArg some (if_pos hfull)
  obtain ⟨names, slots, hshows⟩ := h.shows
  obtain ⟨slots, hstart⟩ := (shows_withRoom hshows hsound.baseline
    (s.compiled.compiled {}).globalCount).shown (s.compiled.compiled {}).executable
  have hroom : (s.compiled.compiled {}).globalCount ≤ slots.length := by
    rw [← hstart.held.length_eq]
    exact hsound.allocated (s.compiled.compiled {}).image
  obtain ⟨slots', hend, hroom', hsame⟩ := hrepresents.execute_mending ht hc rfl hstart hroom
    (fun n hn hon => mem_initialWorklist_of_pending hn hon hentry (Nat.zero_le _)) hr
  refine ⟨(s.compiled.compiled {}).valueOf slots', fun a ha => ⟨hsame a ha, ?_⟩⟩
  obtain ⟨n, -, -, hholds⟩ := hrepresents.complete a ha
  obtain ⟨slot, hslot, -⟩ := hholds.assigns
  have hshown := hend.collect.snapshotAt?_eq (Executable.names_shownName _) slot
  rw [CompileState.getElem?_valueOf ht hroom' hslot, Option.map_some] at hshown
  rw [query_named, (hlaidOut.slotOf?_eq a.target).trans hslot, Option.bind_some]
  exact hshown

/-- The values that a session shows after all statements have been run satisfy its assignments. -/
theorem Recoverable.rerunAll (h : s.Recoverable c) (hc : c.Orderly) {answer : Option Report}
    (ha : s.answer Request.rerunAll.call = (.ok answer, s')) : ∃ env : String → Datum, ∀ a ∈ c,
      (env a.target).same (a.value.value env) = true ∧
        s'.query (.named a.target) = some (env a.target).snapshot := by
  obtain ⟨hskip, -⟩ | ⟨_, hconfigure, -⟩ | ⟨mapping, f, forced, full, run, memory, warnings, hcourse, hr,
    rfl, -⟩ := answer_ok_cases h.laidOut.sound ha
  · cases hskip
  · cases hconfigure
  · cases hcourse
    exact (h.prepared true).succeeded hc (by rw [prepared_eq]; rfl) (by rw [prepared_eq]; rfl) hr

/-- A full run repairs what a fault has left. Take a session that is kept in its mode, in which no run has
faulted and all code consists of plain assignments. Let each variable be assigned once, let no variable depend
on itself, and let all variables that are read be assigned. If the next call is answered by a fault, whatever
it brings, and if running all statements again then succeeds, every assigned variable has the value that it
had before these two calls. -/
theorem repaired (options : Options) (history : List Request)
    (hmode : ∀ r ∈ history, r.KeepsMode options.interpreterMode)
    (hparsed : ∀ r ∈ history, r.Parsed) (hplain : ∀ r ∈ history, r.Plain)
    (hrun : ({ options } : Session).Unfaulted history)
    (hfunctional : (({ options } : Session).accepted {} history).assignments.Functional)
    (hacyclic : (({ options } : Session).accepted {} history).assignments.Acyclic)
    (hclosed : (({ options } : Session).accepted {} history).assignments.Closed)
    (request : Request) (fault : Fault) (damaged : Session)
    (hfault : (({ options } : Session).run history).answer request.call =
      (.error (.execute fault), damaged))
    (answer : Option Report) (mended : Session)
    (hrerun : damaged.answer Request.rerunAll.call = (.ok answer, mended)) :
    ∀ x e, (x, e) ∈ (({ options } : Session).accepted {} history).assignments →
      ∃ v, (({ options } : Session).run history).query (.named x) = some v ∧
        mended.query (.named x) = some v := by
  intro x e he
  have hstands := (stands_fresh options).run hmode hparsed hplain hrun
  obtain ⟨env, hsolved, hquery⟩ := hstands.solved hfunctional hacyclic
  obtain ⟨c, hcarries, htracks⟩ := hstands.contents
  obtain ⟨read, hread, hrenders⟩ := htracks.renders
  obtain ⟨env', hmended⟩ := (hcarries.recoverable_of_fault hfault).rerunAll
    (hrenders.isOrderly hread hfunctional hacyclic) hrerun
  have hsatisfied : Assignments.Satisfied (({ options } : Session).accepted {} history).assignments
      env' := by
    intro y e' he'
    obtain ⟨owner, hmem⟩ := hrenders.complete y e' he'
    exact hread.value e' env' ▸ (hmended _ hmem).1
  have hvalue : env x = env' x := Assignments.Satisfied.unique_of_closed hacyclic
    (fun a ha => hstands.plain a.1 a.2 ha) hclosed hsolved.assigned hsatisfied he
  obtain ⟨owner, hmem⟩ := hrenders.complete x e he
  exact ⟨_, hquery x e he, hvalue ▸ (hmended _ hmem).2⟩

/-- The session in which `b` is `a + 1` and `a` is 5; no statement may run twice. -/
def founded : Session := ({ options := { maxPasses := 1 } } : Session).run
  [.updateGraph (.ofEdits { added := [single 0 "a" (.int 5), single 1 "b" sum] })]

/-- A batch that gives `a` another value, and in which `c` would have to run a second time. -/
def fatal : Request := .updateGraph (.ofEdits
  { modified := [single 0 "a" (.int 1)],
    added := [⟨.ofNat 2, [.assign "c" (.name "d"), .assign "d" (.int 5)]⟩] })

/-- After the fault `b` is 2, and after all statements have been run it has its value again, which is 6. -/
theorem repaired_founded :
    let damaged := (founded.answer fatal.call).2
    let mended := (damaged.answer Request.rerunAll.call).2
    Faulted (founded.answer fatal.call).1 ∧
      (damaged.query (.named "b")).map Snapshot.text = some "2" ∧
      ∃ v, founded.query (.named "b") = some v ∧ mended.query (.named "b") = some v := by
  intro damaged mended
  have hfault : (founded.answer fatal.call).1 = .error (.execute (.updateCycle 3 1)) := by decide +kernel
  have hok : (damaged.answer Request.rerunAll.call).1.toBool = true := by decide +kernel
  have hfive : parseProgram "a = 5;" = .ok [.assign "a" (.int 5)] :=
    parseProgram_assignment (by decide +kernel) (by decide +kernel) rfl rfl rfl (by decide +kernel)
  have hsum : parseProgram "b = a + 1;" = .ok [.assign "b" sum] :=
    parseProgram_assignment (by decide +kernel) (by decide +kernel) rfl (by decide +kernel) rfl
      (by decide +kernel)
  have haccepted : (({ options := { maxPasses := 1 } } : Session).accepted {}
      [.updateGraph (.ofEdits { added := [single 0 "a" (.int 5), single 1 "b" sum] })]).assignments =
      [("a", .int 5), ("b", sum)] := by
    rw [accepted_cons (by decide +kernel)]
    rfl
  have hsame : ∀ x e, (x, e) ∈ [("b", sum), ("a", .int 5)] ↔ (x, e) ∈ [("a", .int 5), ("b", sum)] := by
    intro x e
    simp only [List.mem_cons, List.not_mem_nil, or_false]
    exact or_comm
  have hnew : ∀ t ∈ [single 0 "a" (.int 5), single 1 "b" sum], t.Parsed ∧ t.Plain := by
    simp only [List.forall_mem_cons]
    exact ⟨⟨parsed_single hfive, plain_single rfl⟩, ⟨parsed_single hsum, plain_single rfl⟩,
      List.forall_mem_nil _⟩
  refine ⟨⟨_, hfault⟩, by decide +kernel, ?_⟩
  rcases hanswer : damaged.answer Request.rerunAll.call with ⟨e | answer, mended'⟩
  · rw [hanswer] at hok
    cases hok
  · have hmended : mended = mended' := congrArg Prod.snd hanswer
    rw [hmended]
    refine repaired { maxPasses := 1 } _ ?_ ?_ ?_ ?_ ?_ ?_ ?_ fatal _ damaged (Prod.ext hfault rfl) answer
      mended' hanswer "b" sum ?_
    · simp [Request.KeepsMode]
    · simp only [List.forall_mem_cons]
      exact ⟨⟨⟨_, rfl⟩, fun t ht => (hnew t ht).1⟩, List.forall_mem_nil _⟩
    · simp only [List.forall_mem_cons]
      exact ⟨fun t ht => (hnew t ht).2, List.forall_mem_nil _⟩
    · exact unfaulted_cons (by decide +kernel) trivial
    · rw [haccepted]
      exact functional_sum.congr hsame
    · rw [haccepted]
      exact acyclic_sum.congr hsame
    · rw [haccepted]
      rintro x y ⟨e, he, hy⟩
      simp only [List.mem_cons, Prod.mk.injEq, List.not_mem_nil, or_false] at he
      rcases he with ⟨rfl, rfl⟩ | ⟨rfl, rfl⟩
      · cases hy
      · obtain rfl : y = "a" := by simpa [sum, Expr.names] using hy
        exact ⟨_, List.mem_cons_self⟩
    · rw [haccepted]
      exact List.mem_cons_of_mem _ List.mem_cons_self

end Reflow.Session
