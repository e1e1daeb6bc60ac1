import Reflow.Proofs.Program.Anonymity
import Reflow.Proofs.Session.Comparison
import Reflow.Proofs.Session.Relisting
/-!
# Identities carry no meaning

The host gives every subtree an identity, and a session tells subtrees apart by it. Two hosts that edit
the same subtrees under different identities get the same answers, call by call, as far as the answers
name no subtree, and see the same values.

## Main definitions

* `Request.relabel`: a request under other identities.
* `Session.gist`: what an answer tells without naming a subtree.
* `Session.relabel`: a session with other identities in its program.

## Main results

* `Session.outcome_relabel`: a batch comes to the same.
* `Session.answer_relabel`: a request is answered alike.
* `Session.run_relabel`: a session after a series of requests under other identities.
* `Session.relabelled_run`: for every bijection of the identities, the host sees the same.
-/

namespace Reflow

/-- The request under other identities. -/
def Request.relabel (p : SubtreeId → SubtreeId) : Request → Request
  | updateGraph b => updateGraph (b.relabel p)
  | updateCode code => updateCode code
  | rerunSubtree id => rerunSubtree (p id)
  | rerunAll => rerunAll
  | setOptions options => setOptions options

/-- The two courses are the same under other identities. -/
inductive Course.Relabels (p : SubtreeId → SubtreeId) : Course → Course → Prop
  | refuse (operation : String) (mode : Bool) :
    Relabels p (.refuse operation mode) (.refuse operation mode)
  | skip : Relabels p .skip .skip
  | configure (options : Options) : Relabels p (.configure options) (.configure options)
  | batch {m m' : GraphMapping} (h : m.Relabels p m') (f : Fragment) (forced : List Nat)
    (full : Bool) : Relabels p (.batch m f forced full) (.batch m' (f.relabel p) forced full)

/-- What a report tells without naming a subtree: the variables that changed, the number of evaluations
and the number of global slots. -/
def Report.gist (r : Report) : List String × Nat × Nat := (r.modifiedSymbols, r.executed, r.globalCount)

namespace Session

/-- What an answer tells without naming a subtree; of an error, its kind. -/
def gist (answer : Except SessionError (Option Report)) :
    Except String (Option (List String × Nat × Nat)) :=
  (answer.mapError SessionError.kind).map (Option.map Report.gist)

/-- The session with other identities in its program, and with a mapping that goes with them. -/
def relabel (p : SubtreeId → SubtreeId) (mapping : GraphMapping) (s : Session) : Session :=
  { s with compiled := s.compiled.relabel p, executable := s.executable.relabel p, mapping }

variable {p : SubtreeId → SubtreeId} {s : Session} {m : GraphMapping}

@[simp] theorem mapping_relabel (p : SubtreeId → SubtreeId) (m : GraphMapping) (s : Session) :
    (s.relabel p m).mapping = m := rfl

/-! ### Batches -/

theorem prepared_relabel (p : SubtreeId → SubtreeId) (m : GraphMapping) (s : Session) (full : Bool) :
    (s.relabel p m).prepared full = (s.prepared full).relabel p m := by
  rw [prepared_eq, prepared_eq]
  rfl

/-- A batch of other subtrees comes to the same. -/
theorem outcome_relabel (hp : Function.Injective p) (h : s.mapping.Relabels p m) (f : Fragment)
    (forced : List Nat) (full : Bool) :
    ∃ m', (s.outcome f forced full).2.mapping.Relabels p m' ∧
      ((s.relabel p m).outcome (f.relabel p) forced full).2 =
        (s.outcome f forced full).2.relabel p m' ∧
      gist (((s.relabel p m).outcome (f.relabel p) forced full).1.map some) =
        gist ((s.outcome f forced full).1.map some) := by
  have hmapping := s.mapping_prepared full
  have hcompile := compile_relabel hp f (s.prepared full).compiled
  unfold outcome
  rw [prepared_relabel]
  dsimp only
  rw [← hmapping] at h
  generalize s.prepared full = ready at h hcompile
  have hready : (ready.relabel p m).compiled = ready.compiled.relabel p := rfl
  rw [hready, hcompile]
  rcases compile f ready.compiled with ⟨diagnostics, _ | image⟩
  · exact ⟨m.abandon, h.abandon, rfl, rfl⟩
  · have hrun : execute (image.relabel p).executable
        ((ready.relabel p m).installed (image.relabel p)).memory
        (((ready.relabel p m).installed (image.relabel p)).settings forced (image.relabel p)) =
          execute image.executable (ready.installed image).memory
            ((ready.installed image).settings forced image) :=
      execute_relabel p image.executable (ready.installed image).memory
        ((ready.installed image).settings forced image)
    simp only [CompileOutcome.relabel, Option.map_some, hrun]
    rcases execute _ _ _ with ⟨fault | run, memory⟩
    · exact ⟨m.abandon, h.abandon, rfl, rfl⟩
    · exact ⟨m.commit, h.commit, rfl, rfl⟩

/-! ### Requests -/

/-- Under other identities a request comes down to the same. -/
theorem courseOf_relabel (hp : Function.Injective p) (hs : s.Tidy) (h : s.mapping.Relabels p m)
    (r : Request) : Course.Relabels p (s.courseOf r) ((s.relabel p m).courseOf (r.relabel p)) := by
  have hoptions : (s.relabel p m).options = s.options := rfl
  cases r with
  | updateGraph b =>
    obtain ⟨hfragment, hmapping⟩ := h.build hp hs.numbered b
    have hempty : (b.relabel p).isEmpty = b.isEmpty := by
      simp only [Batch.isEmpty, Batch.relabel, List.isEmpty_map]
    simp only [Request.relabel, courseOf, hempty, hoptions, mapping_relabel]
    split
    · exact .refuse _ _
    · split
      · exact .skip
      · rw [hfragment]
        exact .batch hmapping _ _ _
  | updateCode code =>
    simp only [Request.relabel, courseOf, hoptions, mapping_relabel]
    split
    · exact .refuse _ _
    · split
      · exact .skip
      · exact .batch h _ _ _
  | rerunSubtree id =>
    have hstatements : (s.relabel p m).statementsOf (p id) = s.statementsOf id := by
      simp only [statementsOf, relabel, Executable.graph?_relabel]
      cases s.executable.graph? with
      | none => rfl
      | some g =>
        simp only [Option.map_some, g.nodesOwnedBy_relabel hp, List.map_map]
        rfl
    simp only [Request.relabel, courseOf, hstatements]
    split
    · exact .skip
    · exact .batch h _ _ _
  | rerunAll => exact .batch h _ _ _
  | setOptions options => exact .configure options

theorem taken_relabel (hp : Function.Injective p) (h : s.mapping.Relabels p m) {c c' : Course}
    (hc : c.Relabels p c') :
    ∃ m', (s.taken c).2.mapping.Relabels p m' ∧
      ((s.relabel p m).taken c').2 = (s.taken c).2.relabel p m' ∧
      gist ((s.relabel p m).taken c').1 = gist (s.taken c).1 := by
  cases hc with
  | refuse operation mode => exact ⟨m, h, rfl, rfl⟩
  | skip => exact ⟨m, h, rfl, rfl⟩
  | configure options => exact ⟨m, h, rfl, rfl⟩
  | batch hm f forced full => exact outcome_relabel (s := { s with mapping := _ }) hp hm f forced full

/-- Under other identities a request is answered alike, and the sessions after it are alike. -/
theorem answer_relabel (hp : Function.Injective p) (hs : s.Tidy) (hs' : (s.relabel p m).Sound)
    (h : s.mapping.Relabels p m) (r : Request) :
    ∃ m', (s.answer r.call).2.mapping.Relabels p m' ∧
      ((s.relabel p m).answer (r.relabel p).call).2 = (s.answer r.call).2.relabel p m' ∧
      gist ((s.relabel p m).answer (r.relabel p).call).1 = gist (s.answer r.call).1 := by
  rw [answer_call hs.sound, answer_call hs']
  exact taken_relabel hp h (courseOf_relabel hp hs h r)

/-- After a series of requests under other identities, a session is the same with other identities. -/
theorem run_relabel (hp : Function.Injective p) (options : Options) (history : List Request) :
    ∃ m, (({ options } : Session).run history).mapping.Relabels p m ∧
      ({ options } : Session).run (history.map (·.relabel p)) =
        (({ options } : Session).run history).relabel p m := by
  suffices hrun : ∀ (s : Session) (m : GraphMapping), s.Tidy → (s.relabel p m).Sound →
      s.mapping.Relabels p m → ∃ m', (s.run history).mapping.Relabels p m' ∧
        (s.relabel p m).run (history.map (·.relabel p)) = (s.run history).relabel p m' from
    hrun { options } {} (tidy_run options []) (sound_fresh options) (GraphMapping.relabels_empty p)
  induction history with
  | nil => exact fun s m _ _ h => ⟨m, h, rfl⟩
  | cons r rest ih =>
    intro s m hs hs' h
    obtain ⟨m', h', hafter, -⟩ := answer_relabel hp hs hs' h r
    have hsound := (hs'.answer (r.relabel p)).1
    rw [hafter] at hsound
    obtain ⟨m'', h'', hrest⟩ := ih (s.answer r.call).2 m' (hs.answer r) hsound h'
    exact ⟨m'', h'', (congrArg (fun s => s.run (rest.map (·.relabel p))) hafter).trans hrest⟩

/-- Identities carry no meaning: for every bijection of the identities, a session that is asked the same
under other identities answers alike, and shows the same values and the same nodes. -/
theorem relabelled_run (p : Equiv.Perm SubtreeId) (options : Options) (history : List Request) :
    let s := ({ options } : Session).run history
    let s' := ({ options } : Session).run (history.map (·.relabel p))
    (∀ r : Request, gist (s'.answer (r.relabel p).call).1 = gist (s.answer r.call).1) ∧
      s'.globals = s.globals ∧ s'.dump = s.dump ∧
      (∀ id, s'.mapping.nodeUids (p id) = s.mapping.nodeUids id) ∧
      (∀ node : NodeRef, s'.query (node.relabel p) = s.query node) ∧
      ∀ e : Edits, Batch.ofEdits (e.relabel p) = (Batch.ofEdits e).relabel p := by
  obtain ⟨m, hm, hrun⟩ := run_relabel p.injective options history
  have hs := tidy_run options history
  have hs' := (tidy_run options (history.map (·.relabel p))).sound
  intro s s'
  change s' = s.relabel p m at hrun
  refine ⟨fun r => ?_, ?_, ?_, fun id => ?_, fun node => ?_, Batch.ofEdits_relabel p.injective⟩
  · change s'.Sound at hs'
    rw [hrun] at hs' ⊢
    obtain ⟨-, -, -, hanswer⟩ := answer_relabel p.injective hs hs' hm r
    exact hanswer
  · rw [hrun]
    exact s.memory.globalsOf_relabel p s.executable
  · rw [hrun]
    exact s.memory.dump_relabel p s.executable
  · rw [hrun]
    exact hm.nodeUids p.injective id
  · simp only [hrun, query, mapping_relabel, hm.variableFor? p.injective]
    exact congrArg _ (s.memory.snapshotOf?_relabel p s.executable)

end Session

end Reflow
