import Reflow.Proofs.Program.Acceptance
import Reflow.Proofs.Program.Solution
import Reflow.Proofs.Session.Comparison
import Reflow.Proofs.Session.Freshness
/-!
# The contents of a session

As long as no run faults, a session has settled on the contents of its program: the slots of assigned
variables hold what the assignments say, and all other slots have never been written. A batch that is run
replaces the contents by those of the compiled program, and any other batch leaves them as they are.

## Main definitions

* `Session.Carries`: the session has settled on a program with some contents.
* `Contents.Keeps`: contents in which every variable stays assigned.

## Main results

* `Session.Carries.outcome`: what a batch makes of the contents.
* `Session.Carries.solved`: the values of a session solve its assignments.
-/

namespace Reflow

/-- Every variable that is assigned in `c` is assigned in `c'`. -/
def Contents.Keeps (c c' : Contents) : Prop := ∀ b ∈ c, ∃ b' ∈ c', b'.target = b.target

namespace Session

/-- The session has settled on a program with these contents, and slots that nothing assigns hold
null. -/
structure Carries (s : Session) (c : Contents) : Prop where
  settled : s.Settled
  laidOut : s.LaidOut
  represents : s.compiled.Represents c
  null : ∀ x slot, s.compiled.root.symbols.indexOf? x = some slot → (∀ b ∈ c, b.target ≠ x) →
    s.memory.global? slot = some .null

theorem carries_fresh (options : Options) : ({ options } : Session).Carries [] where
  settled := settled_fresh options
  laidOut := laidOut_fresh options
  represents := ⟨⟨rfl, rfl⟩, fun _ h => (by cases h),
    fun _ h => (by cases h), fun _ h => (by cases h)⟩
  null _ _ h := by cases h

variable {s : Session} {c : Contents}

/-- What has to run next, the notes of changes and all that is not program or memory do not matter. -/
theorem Carries.of_scheduled {s' : Session} (h : s.Carries c) (hs' : s'.Sound)
    {entry updates full} (hcompiled : s'.compiled = s.compiled.scheduled entry updates full)
    (hexecutable : s'.executable = s.executable)
    (hmemory : s'.memory = s.memory ∨ s'.memory = s.memory.resetModified) : s'.Carries c := by
  have hheap : s'.memory.heap = s.memory.heap := by
    rcases hmemory with heq | heq <;> exact (congrArg Memory.heap heq).trans rfl
  have hglobals : s'.memory.globals = s.memory.globals := by
    rcases hmemory with heq | heq <;> exact (congrArg Memory.globals heq).trans rfl
  refine ⟨h.settled.of_scheduled hs' hcompiled hexecutable hheap hglobals,
    h.laidOut.of_scheduled hs' hcompiled hexecutable hmemory, ?_, fun x slot hx hnone => ?_⟩
  · rw [hcompiled]
    exact h.represents.scheduled h.settled.sound.compiled entry updates full
  · rw [Memory.global?, hglobals]
    rw [hcompiled] at hx
    exact h.null x slot hx hnone

theorem Carries.prepared (h : s.Carries c) (full : Bool) : (s.prepared full).Carries c := by
  have hprepared := h.settled.sound.prepared full
  rw [prepared_eq] at hprepared ⊢
  exact h.of_scheduled hprepared rfl rfl (.inr rfl)

theorem Carries.reset (h : s.Carries c) : s.reset.Carries c :=
  h.of_scheduled h.settled.sound.reset rfl rfl (.inr rfl)

theorem Carries.withMapping (h : s.Carries c) (mapping : GraphMapping) :
    ({ s with mapping } : Session).Carries c :=
  h.of_scheduled ⟨h.settled.sound.phase, h.settled.sound.baseline, h.settled.sound.compiled⟩
    s.compiled.scheduled_self rfl (.inl rfl)

theorem Carries.setOptions (h : s.Carries c) (options : Options) :
    (s.setOptions options).Carries c :=
  h.of_scheduled ⟨h.settled.sound.phase, h.settled.sound.baseline, h.settled.sound.compiled⟩
    s.compiled.scheduled_self rfl (.inl rfl)

/-! ### Batches -/

section Batch

variable {f : Fragment} {forced : List Nat} {full : Bool} {memory : Memory} {run : Execution}

/-- A run writes only the slots of variables that something assigns. -/
theorem Carries.null_executed (h : s.Carries c) (hf : ∀ u ∈ f.units, u.Plain)
    (hkeeps : c.Keeps (c.compiled f))
    (hr : execute (s.compiled.compiled f).image.executable
      (s.installed (s.compiled.compiled f).image).memory
      ((s.installed (s.compiled.compiled f).image).settings forced
        (s.compiled.compiled f).image) = (.ok run, memory))
    {x : String} {slot : Nat}
    (hx : (s.compiled.compiled f).root.symbols.indexOf? x = some slot)
    (hnone : ∀ b ∈ c.compiled f, b.target ≠ x) : memory.global? slot = some .null := by
  have hsound := h.laidOut.sound.compiled
  obtain ⟨ht, -⟩ := evolves_compiled f _ hsound
  have hrepresents := h.represents.compiled hsound hf
  refine (ht.execute_global? rfl hr fun n hn hon hdefines => ?_).trans ?_
  · obtain ⟨b, hb, hholds⟩ := hrepresents.sound n hn hon
    exact hnone b hb (eq_of_indexOf? (hholds.indexOf?_of_defines hdefines) hx)
  · refine h.laidOut.blank_installed (fun slot hslot => h.null x slot hslot ?_) slot hx
    intro b hb htarget
    obtain ⟨b', hb', hsame⟩ := hkeeps b hb
    exact hnone b' hb' (hsame.trans htarget)

/-- A batch whose run does not fault replaces the contents by those of its program, if it is run, and
leaves them otherwise. -/
theorem Carries.outcome (h : s.Carries c) (forced : List Nat) (full : Bool)
    (hf : ∀ u ∈ f.units, u.Plain)
    (hkeeps : f.Readable → c.Keeps (c.compiled f))
    (hfault : ∀ fault, (s.outcome f forced full).1 ≠ .error (.execute fault)) :
    match s.outcome f forced full with
    | (.ok _, s') => f.Readable ∧ s'.Carries (c.compiled f)
    | (.error _, s') => s'.Carries c := by
  have hready := h.prepared full
  have hsettled := settled_runBatch f forced full s h.settled
  rw [run_runBatch_eq h.settled.sound] at hsettled
  rcases s.outcome_cases f forced full with ⟨diagnostics, -, ho⟩ |
    ⟨diagnostics, result, memory, hcompile, hx, ho⟩
  · rw [ho]
    exact hready.withMapping _
  · rw [ho] at hsettled hfault ⊢
    cases result with
    | error fault => exact absurd rfl (hfault fault)
    | ok run =>
      have hupdates := hready.laidOut.sound.updates f forced
      dsimp only at hupdates
      rw [hx] at hupdates
      have hnotes : (s.prepared full).memory.modified = [] := by
        rw [prepared_eq]
        rfl
      have hreadable := readable_of_compile hcompile
      exact ⟨hreadable, hsettled, hready.laidOut.succeeded hnotes hupdates,
        hready.represents.compiled hready.laidOut.sound.compiled hf,
        fun x slot => hready.null_executed hf (hkeeps hreadable) hx⟩

end Batch

/-! ### Values -/

/-- An assigned variable shows the value that its slot stands for. -/
theorem Carries.query_named (h : s.Carries c) {slots : List Datum}
    (hsteady : s.compiled.Steady s.memory [] slots) {a : Entry} (ha : a ∈ c) :
    s.query (.named a.target) = some (s.compiled.valueOf slots a.target).snapshot := by
  obtain ⟨n, -, -, hholds⟩ := h.represents.complete a ha
  obtain ⟨slot, hslot, -⟩ := hholds.assigns
  have hvalue := CompileState.getElem?_valueOf h.laidOut.sound.compiled hsteady.room hslot
  obtain ⟨entry, updates, full, hx⟩ := h.laidOut.executable
  have hshows := (hsteady.scheduled h.laidOut.sound.compiled entry updates full).shows
  rw [Session.query_named, h.laidOut.slotOf?_eq, hslot, Option.bind_some, hx,
    hshows.snapshotAt?_eq (Executable.names_pointerName? _), hvalue, Option.map_some]

/-- The values that a session shows solve its assignments. -/
theorem Carries.solved (h : s.Carries c) {read : Expr → Expr} {A : Assignments}
    (hrenders : c.Renders read A) (hread : Expr.Faithful read) (hfunctional : A.Functional)
    (hacyclic : A.Acyclic) : ∃ env, A.Solved env ∧
      ∀ x e, (x, e) ∈ A → s.query (.named x) = some (env x).snapshot := by
  obtain ⟨slots, hsteady⟩ := h.settled.steady
  refine ⟨s.compiled.valueOf slots, h.represents.solved h.laidOut.sound.compiled hsteady hrenders
    hread hfunctional hacyclic h.null, fun x e he => ?_⟩
  obtain ⟨owner, hmem⟩ := hrenders.complete x e he
  exact h.query_named hsteady hmem

end Session

end Reflow
