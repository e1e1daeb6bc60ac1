import Reflow.Proofs.Memory.Collection
import Reflow.Proofs.Program.Changes
import Reflow.Proofs.Session.Safety
/-!
# Sessions have no stale values

As long as no run faults, all regular statements of a session are consistent at all times: if no code
calls a function value, evaluating such a statement again gives what its global holds. What a
compilation changes is queued or pending, a run starts with that and settles, and a collection loses
nothing that a global stands for.

## Main definitions

* `Session.Settled`: all regular statements of the session are consistent.
* `Session.Unfaulted`: no request of a series was answered by a fault of a run.
* `DependencyGraph.Determines`: an active statement that alone assigns a global and does not read it.

## Main results

* `Session.settled_run`: a session is settled as long as no run faults.
* `Session.no_stale_values`: evaluating a statement again gives what its global holds.
-/

namespace Reflow

namespace Memory.Shows

variable {names names' : Nat → Option String} {m : Memory} {slots : List Datum}

/-- New slots hold null. -/
theorem grow (h : m.Shows names slots) (additional : Nat) :
    (m.grow additional).Shows names (slots ++ List.replicate additional .null) := by
  have hnull : m.heap.HeldAll names (List.replicate additional .null)
      (List.replicate additional .null) := by
    induction additional with
    | zero => exact .nil
    | succ n ih => exact .cons .null ih
  refine ⟨h.sound, ?_⟩
  rw [Memory.grow, Array.toList_append, Array.toList_replicate]
  exact h.held.append hnull

theorem collect (h : m.Shows names slots) : m.collect.2.Shows names slots :=
  ⟨h.sound.collect _, h.held.collect_self⟩

/-- Clearing leaves null from `start` on. -/
theorem clearFrom (h : m.Shows names slots) (start : Nat) : (m.clearFrom start).Shows names
    (slots.mapIdx fun slot d => if slot < start then d else .null) := by
  refine ⟨h.sound, ?_⟩
  rw [Memory.clearFrom, Array.toList_mapIdx]
  refine h.held.mapIdx fun slot v d hd => ?_
  by_cases hslot : slot < start
  · rw [if_pos hslot, if_pos hslot]
    exact hd
  · rw [if_neg hslot, if_neg hslot]
    exact .null

theorem mono (h : m.Shows names slots)
    (hn : ∀ p name, names p = some name → names' p = some name) : m.Shows names' slots :=
  ⟨h.sound, h.held.mono (.refl _) hn⟩

end Memory.Shows

namespace CompileState

variable {s : CompileState} {memory : Memory} {slots : List Datum}

/-- A program without calls of function values has never had any. -/
theorem Extends.direct {s t : CompileState} (h : s.Extends t) (ht : t.executable.Direct) :
    s.executable.Direct := by
  intro stream hstream argc hmem
  rcases List.mem_cons.1 hstream with rfl | hstream
  · refine ht t.root.stream List.mem_cons_self argc ?_
    rw [← Array.mem_toList_iff] at hmem ⊢
    exact h.code.subset hmem
  · obtain ⟨block, hblock, rfl⟩ := List.mem_map.1 hstream
    refine ht block.stream (List.mem_cons_of_mem _ ?_) argc hmem
    exact List.mem_map_of_mem (h.bodies.subset hblock)

theorem direct_scheduled (s : CompileState) (entry : Option Nat) (updates : List UpdateRoot)
    (full : Bool) : (s.scheduled entry updates full).executable.Direct ↔ s.executable.Direct := by
  have hforth : s.Extends (s.scheduled entry updates full) :=
    ⟨List.prefix_refl _, List.prefix_refl _, Nat.le_refl _, List.prefix_refl _, List.prefix_refl _,
      List.prefix_refl _, Nat.le_refl _⟩
  have hback : (s.scheduled entry updates full).Extends s :=
    ⟨List.prefix_refl _, List.prefix_refl _, Nat.le_refl _, List.prefix_refl _, List.prefix_refl _,
      List.prefix_refl _, Nat.le_refl _⟩
  exact ⟨hforth.direct, hback.direct⟩

/-- What has to run next does not matter for consistency. -/
theorem Steady.scheduled (h : s.Steady memory [] slots) (hs : s.Sound) (entry : Option Nat)
    (updates : List UpdateRoot) (full : Bool) :
    (s.scheduled entry updates full).Steady memory [] slots := by
  have hext := (s.evolves_scheduled entry updates full hs).2
  refine ⟨h.shows, h.room, fun n slot σ e hn => .inr ?_⟩
  have hregular : s.Regular n slot σ e := by
    refine ⟨hn.mem, hn.active, fun m hm hon hkey => ?_, hn.acyclic⟩
    obtain ⟨slot', σ', e', hassigns⟩ := hs.statements m hm
    exact hext.assigns_back hassigns (hn.copies m hm hon hkey)
  exact (h.settled hregular).transfer hregular.assigns hs hext (fun p _ => ⟨rfl, fun _ _ => .rfl⟩)
    h.shows.held.over fun _ _ _ => rfl

end CompileState

namespace Session

/-- The session has installed the program that it compiles on, and all regular statements of this program
are consistent. -/
structure Settled (s : Session) : Prop where
  sound : s.Sound
  executable : ∃ entry updates full,
    s.executable = (s.compiled.scheduled entry updates full).executable
  steady : ∃ slots, s.compiled.Steady s.memory [] slots

/-- What has to run next, the notes of changes and all that is not program or memory do not matter. -/
theorem Settled.of_scheduled {s s' : Session} (h : s.Settled) (hs' : s'.Sound) {entry updates full}
    (hcompiled : s'.compiled = s.compiled.scheduled entry updates full)
    (hexecutable : s'.executable = s.executable) (hheap : s'.memory.heap = s.memory.heap)
    (hglobals : s'.memory.globals = s.memory.globals) : s'.Settled := by
  refine ⟨hs', ?_, ?_⟩
  · obtain ⟨entry', updates', full', hx⟩ := h.executable
    exact ⟨entry', updates', full', by rw [hexecutable, hx, hcompiled]; rfl⟩
  · rw [hcompiled]
    obtain ⟨slots, hsteady⟩ := h.steady
    have hsteady := hsteady.scheduled h.sound.compiled entry updates full
    refine ⟨slots, ⟨hheap ▸ hsteady.shows.sound, ?_⟩, hsteady.room, hsteady.consistent⟩
    rw [hheap, hglobals]
    exact hsteady.shows.held

theorem Settled.withMapping {s : Session} (h : s.Settled) (mapping : GraphMapping) :
    ({ s with mapping } : Session).Settled :=
  ⟨⟨h.sound.phase, h.sound.baseline, h.sound.compiled⟩, h.executable, h.steady⟩

theorem settled_fresh (options : Options) : ({ options } : Session).Settled where
  sound := sound_fresh options
  executable := ⟨none, [], false, rfl⟩
  steady := ⟨[], ⟨Heap.sound_empty, .nil⟩, Nat.le_refl 0, fun n _ _ _ hn => by cases hn.mem⟩

/-- After a session has made room for a program, its memory stands for the same data and null in the
new slots. -/
theorem shows_withRoom {s : Session} {names : Nat → Option String} {slots : List Datum}
    (h : s.memory.Shows names slots) (hbaseline : s.baseline = s.memory.globalCount)
    (needed : Nat) : (s.withRoom needed).memory.Shows names
      (slots ++ List.replicate (needed - slots.length) .null) := by
  have hlength := h.held.length_eq
  rw [Array.length_toList] at hlength
  have hcount : s.baseline = slots.length := hbaseline.trans hlength
  unfold withRoom
  dsimp only
  split
  · rw [hcount]
    exact h.grow _
  · rename_i hle
    have hnone : needed - slots.length = 0 := by omega
    rw [hnone, List.replicate_zero, List.append_nil]
    exact h

/-- When the run of a compiled program starts, every regular statement is consistent or waits. -/
theorem Settled.steady_installed {s : Session} (h : s.Settled) (f : Fragment) (ctx : RunContext) :
    ∃ slots, (s.compiled.compiled f).Steady
      (s.withRoom (s.compiled.compiled f).globalCount).memory
      (initialWorklist (s.compiled.compiled f).root.stream ctx) slots := by
  have hext := (evolves_compiled f s.compiled h.sound.compiled).2
  obtain ⟨slots, hsteady⟩ := h.steady
  have hshows := (shows_withRoom hsteady.shows h.sound.baseline
    (s.compiled.compiled f).globalCount).mono fun _ _ =>
      h.sound.compiled.pointerName?_extends hext
  refine ⟨_, h.sound.compiled.steady_compiled f ctx hsteady hshows ?_ fun k hk => ?_⟩
  · rw [List.length_append, List.length_replicate]
    omega
  · exact List.getElem?_append_left (Nat.lt_of_lt_of_le hk hsteady.room)

theorem Settled.prepared {s : Session} (h : s.Settled) (full : Bool) :
    (s.prepared full).Settled := by
  have hprepared := h.sound.prepared full
  rw [prepared_eq] at hprepared ⊢
  exact h.of_scheduled hprepared rfl rfl rfl rfl

/-- A run that does not fault leaves a settled session. -/
theorem settled_runBatch (f : Fragment) (forced : List Nat) (full : Bool) :
    Keeps Settled (fun e s => (∃ fault, e = .execute fault) ∨ s.Settled)
      (runBatch f forced full) := by
  intro s h
  have hsound := sound_runBatch f forced full s h.sound
  rw [run_runBatch h.sound.phase h.sound.baseline] at hsound ⊢
  have hready := h.prepared full
  dsimp only at hsound ⊢
  rcases hcompile : compile f (s.prepared full).compiled with ⟨diagnostics, _ | image⟩
  · rw [hcompile] at hsound
    exact .inr ⟨hsound.1, hready.executable, hready.steady⟩
  · obtain rfl := compile_image (congrArg CompileOutcome.image hcompile)
    rw [hcompile] at hsound
    dsimp only at hsound ⊢
    rcases hrun : execute _ _ _ with ⟨fault | run, memory⟩
    · exact .inl ⟨fault, rfl⟩
    · rw [hrun] at hsound
      refine ⟨hsound, ⟨_, _, _, rfl⟩, ?_⟩
      obtain ⟨slots, hstart⟩ := hready.steady_installed f _
      have ht := (evolves_compiled f _ hready.sound.compiled).1
      obtain ⟨slots', hend⟩ := ht.execute_steady rfl hstart hrun
      exact ⟨slots', hend.shows.collect, hend.room, hend.consistent⟩

theorem settled_request (r : Request) :
    Keeps Settled (fun e s => (∃ fault, e = .execute fault) ∨ s.Settled) r.call :=
  keeps_request (fun _ h => h.of_scheduled h.sound.reset rfl rfl rfl rfl)
    (fun _ mapping h => h.withMapping mapping)
    (fun _ _ h => ⟨⟨h.sound.phase, h.sound.baseline, h.sound.compiled⟩, h.executable, h.steady⟩)
    (fun _ _ _ h => .inr h) settled_runBatch r

/-- No request of the series was answered by a fault of a run. -/
def Unfaulted (s : Session) : List Request → Prop
  | [] => True
  | r :: rest => (∀ fault, (s.answer r.call).1 ≠ .error (.execute fault)) ∧
      (s.answer r.call).2.Unfaulted rest

/-- A request that was accepted was not answered by a fault. -/
theorem unfaulted_cons {s : Session} {r : Request} {rest : List Request}
    (h : (s.answer r.call).1.toBool = true) (hrest : (s.answer r.call).2.Unfaulted rest) :
    s.Unfaulted (r :: rest) := by
  refine ⟨fun fault heq => ?_, hrest⟩
  rw [heq] at h
  cases h

/-- What every request keeps that is not answered by a fault, such a series keeps. -/
theorem Unfaulted.keeps {P : Session → Prop}
    (hP : ∀ r : Request, Keeps P (fun e s => (∃ fault, e = .execute fault) ∨ P s) r.call)
    {history : List Request} {s : Session} (h : s.Unfaulted history) (hs : P s) :
    P (s.run history) := by
  induction history generalizing s with
  | nil => exact hs
  | cons r rest ih =>
    obtain ⟨hanswer, hrest⟩ := h
    have hr := (hP r).answer hs
    have hnext : P (s.answer r.call).2 := by
      rcases ha : s.answer r.call with ⟨e | report, s'⟩
      · rw [ha] at hr hanswer
        exact hr.resolve_left fun ⟨fault, he⟩ => hanswer fault (congrArg _ he)
      · rw [ha] at hr
        exact hr
    exact ih hrest hnext

/-- A session is settled as long as no run faults. -/
theorem settled_run (options : Options) {history : List Request}
    (h : ({ options } : Session).Unfaulted history) :
    (({ options } : Session).run history).Settled := h.keeps settled_request (settled_fresh options)

end Session

/-! ### Evaluating again -/

/-- The active statement `n` is the only one that assigns the global `key`, and it is not one of the
readers of `key`. -/
structure DependencyGraph.Determines (g : DependencyGraph) (n : GraphNode) (key : SymbolKey) :
    Prop where
  active : n ∈ g.activeNodes
  defines : n.defines = some key
  writers : g.writersOf key = [n.id]
  readers : n.id ∉ g.readersOf (.symbol key)

namespace CompileState

variable {s : CompileState} {slots : List Datum} {n : GraphNode} {memory : Memory}

/-- A statement that determines a global is regular. -/
theorem Sound.regular_of_determines (h : s.Sound) {key : SymbolKey}
    (hn : s.graph.Determines n key) :
    ∃ slot σ e, key = .global slot ∧ s.Regular n slot σ e := by
  obtain ⟨hmem, hon⟩ := List.mem_filter.1 hn.active
  obtain ⟨slot, σ, e, hassigns⟩ := h.statements n hmem
  obtain rfl : key = .global slot := Option.some.inj (hn.defines.symm.trans hassigns.defines)
  refine ⟨slot, σ, e, rfl, hmem, hon, fun m hm hmon hkey => ?_, fun hreach => ?_⟩
  · exact h.graph.eq_of_writersOf hmem hn.writers hm hmon (hkey.trans hn.defines) ▸ hassigns
  · exact hn.readers (h.graph.mem_readersOf hmem hon hreach)

/-- The value of a consistent statement is the one that its slot holds, if values lead only to procedures
that the statement uses. -/
theorem Sound.same_of_consistent (h : s.Sound)
    (hm : memory.Shows s.executable.pointerName? slots) {slot : Nat} {σ : Naming} {e : Expr}
    (hn : s.Assigns n slot σ e) (hc : s.Consistent n slots slot σ e) {limit depth : Nat}
    (hused : ∀ d, e.datum? (s.executable.surroundings (fun _ => True) slots depth) σ [] = some d →
      e.datum? (s.executable.surroundings (s.Uses n) slots depth) σ [] = some d) {v : Value}
    {m : Machine} (hr : (runRange s.executable limit depth ⟨0, n.start, n.stop - 1, []⟩).run
      { memory } = .ok v m) :
    ∃ stored, memory.global? slot = some stored ∧ m.memory.heap.same stored v = true := by
  rw [runRange_eq, runFrame_unstored hn] at hr
  have hgrows := (h.evaluate_spec hn limit depth).1.of_ok hr
  obtain ⟨d, hd, hheld⟩ := h.statement_datum? (m := { memory }) hn hm hr
  obtain ⟨stored, hstored, hsame⟩ := hc depth d (hused d hd)
  obtain ⟨current, hcurrent, hheld'⟩ := hm.exists_global? hstored
  refine ⟨current, hcurrent, ?_⟩
  rw [(hheld'.extends (hgrows.heap hm.sound)).same hheld]
  exact hsame

end CompileState

namespace Session

/-- The installed program of a settled session. -/
theorem Settled.installed {s : Session} (h : s.Settled) {g : DependencyGraph} (hg : s.executable.graph? = some g) :
    ∃ t : CompileState, s.executable = t.executable ∧ t.graph = g ∧ t.Sound ∧
      ∃ slots, t.Steady s.memory [] slots := by
  obtain ⟨entry, updates, full, hx⟩ := h.executable
  have ht := (s.compiled.evolves_scheduled entry updates full h.sound.compiled).1
  rw [hx] at hg
  obtain ⟨slots, hsteady⟩ := h.steady
  exact ⟨_, hx, Option.some.inj hg, ht, slots,
    hsteady.scheduled h.sound.compiled entry updates full⟩

section Settled

variable {s : Session} {g : DependencyGraph} {n : GraphNode} {key : SymbolKey} {limit depth : Nat}
  {v : Value} {m : Machine}

/-- In a settled session, a statement that determines a global has the value that the global
holds. -/
theorem Settled.same (h : s.Settled) (hdirect : s.executable.Direct)
    (hg : s.executable.graph? = some g) (hn : g.Determines n key)
    (hr : (runRange s.executable limit depth ⟨0, n.start, n.stop - 1, []⟩).run
      { memory := s.memory } = .ok v m) :
    ∃ stored, s.memory.global? key.index = some stored ∧ m.memory.heap.same stored v = true := by
  obtain ⟨t, hx, rfl, ht, slots, hsteady⟩ := h.installed hg
  rw [hx] at hdirect hr
  obtain ⟨slot, σ, e, rfl, hregular⟩ := ht.regular_of_determines hn
  exact ht.same_of_consistent hsteady.shows hregular.assigns (hsteady.settled hregular)
    (fun _ => ht.datum?_of_direct hdirect hregular.assigns _) hr

/-- Running such a statement in full, with its store, changes no global. -/
theorem Settled.unchanged (h : s.Settled) (hdirect : s.executable.Direct)
    (hg : s.executable.graph? = some g) (hn : g.Determines n key)
    (hr : (runRange s.executable limit depth ⟨0, n.start, n.stop, []⟩).run
      { memory := s.memory } = .ok v m) : m.memory.globals = s.memory.globals ∧ m.changed = [] := by
  obtain ⟨t, hx, rfl, ht, slots, hsteady⟩ := h.installed hg
  rw [hx] at hdirect hr
  obtain ⟨slot, σ, e, -, hregular⟩ := ht.regular_of_determines hn
  have hgrows := (ht.run_consistent (m := { memory := s.memory }) hdirect hregular.assigns
    (hsteady.settled hregular) hsteady.shows hsteady.room hr).1
  exact ⟨hgrows.globals, hgrows.changed⟩

/-- In a settled session in which every active statement determines a global, a run of the program as
it is modifies nothing. -/
theorem Settled.execute_unmodified (h : s.Settled) (hdirect : s.compiled.executable.Direct)
    (hall : ∀ n ∈ s.compiled.graph.activeNodes, ∃ key, s.compiled.graph.Determines n key)
    {ctx : RunContext} (hblock : ctx.block = 0) {run : Execution} {memory : Memory}
    (hr : execute (s.compiled.compiled {}).executable
      (s.withRoom (s.compiled.compiled {}).globalCount).memory ctx = (.ok run, memory)) :
    memory.modified = s.memory.modified := by
  obtain ⟨slots, hsteady⟩ := h.steady
  obtain ⟨ht, -⟩ := evolves_compiled {} s.compiled h.sound.compiled
  -- without code to add, a compilation changes only what has to run next
  have hcompiled : (s.compiled.compiled {}).Steady s.memory [] slots :=
    hsteady.scheduled h.sound.compiled _ [] false
  have hshows := shows_withRoom hcompiled.shows h.sound.baseline (s.compiled.compiled {}).globalCount
  rw [Nat.sub_eq_zero_of_le hcompiled.room, List.replicate_zero, List.append_nil] at hshows
  have hconsistent : ∀ n ∈ (s.compiled.compiled {}).graph.nodes, n.isActive = true →
      ∃ slot σ e, (s.compiled.compiled {}).Assigns n slot σ e ∧
        (s.compiled.compiled {}).Consistent n slots slot σ e := by
    intro n hn hon
    obtain ⟨key, hkey⟩ := hall n (List.mem_filter.2 ⟨hn, hon⟩)
    obtain ⟨slot, σ, e, -, hregular⟩ := ht.regular_of_determines hkey
    exact ⟨slot, σ, e, hregular.assigns, hcompiled.settled hregular⟩
  rw [ht.execute_unchanged ((s.compiled.direct_scheduled _ _ _).2 hdirect) hblock hcompiled.room
    hconsistent hshows hr, modified_withRoom]

/-- If every active statement of a settled session determines a global, then running all of them
again modifies nothing. -/
theorem Settled.unmodified (h : s.Settled) (hdirect : s.executable.Direct)
    (hg : s.executable.graph? = some g) (hall : ∀ n ∈ g.activeNodes, ∃ key, g.Determines n key)
    {report : Report} {s' : Session} (hr : s.answer rerunAll = (.ok report, s')) :
    report.modifiedSymbols = [] := by
  obtain ⟨entry, updates, full, hx⟩ := h.executable
  rw [hx] at hdirect hg
  obtain rfl : s.compiled.graph = g := Option.some.inj hg
  have hready := h.prepared true
  unfold Session.answer rerunAll at hr
  rw [run_runBatch h.sound.phase h.sound.baseline] at hr
  dsimp only at hr
  rcases hcompile : compile {} (s.prepared true).compiled with ⟨diagnostics, _ | image⟩
  · rw [hcompile] at hr
    cases hr
  · obtain rfl := compile_image (congrArg CompileOutcome.image hcompile)
    rw [hcompile] at hr
    dsimp only at hr
    rcases hrun : execute _ _ _ with ⟨fault | run, memory⟩
    · rw [hrun] at hr
      cases hr
    · rw [hrun] at hr
      cases hr
      rw [prepared_eq] at hready hrun
      have hdirect := (s.compiled.direct_scheduled _ _ _).1 hdirect
      have hmodified := hready.execute_unmodified ((s.compiled.direct_scheduled _ _ _).2 hdirect) hall rfl hrun
      simp only [report, succeeded, Memory.collect, hmodified]
      rfl

end Settled

/-- No stale values. As long as no run faults and no code calls a function value, every statement that
determines a global has the value that the global holds, and storing it again changes nothing; and if
every active statement determines a global, running all of them again modifies nothing. The last
instruction of a statement is the store, without which it leaves its value. -/
theorem no_stale_values (options : Options) (history : List Request)
    (hrun : ({ options } : Session).Unfaulted history)
    (hdirect : (({ options } : Session).run history).executable.Direct) (g : DependencyGraph)
    (hg : (({ options } : Session).run history).executable.graph? = some g) :
    let s := ({ options } : Session).run history
    (∀ n key, g.Determines n key → ∀ limit depth,
      (∀ v m, (runRange s.executable limit depth ⟨0, n.start, n.stop - 1, []⟩).run
          { memory := s.memory } = .ok v m →
        ∃ stored, s.memory.global? key.index = some stored ∧
          m.memory.heap.same stored v = true) ∧
      (∀ v m, (runRange s.executable limit depth ⟨0, n.start, n.stop, []⟩).run
          { memory := s.memory } = .ok v m →
        m.memory.globals = s.memory.globals ∧ m.changed = [])) ∧
    ((∀ n ∈ g.activeNodes, ∃ key, g.Determines n key) → ∀ report s',
      s.answer rerunAll = (.ok report, s') → report.modifiedSymbols = []) := by
  have hsettled := settled_run options hrun
  refine ⟨fun n key hn limit depth => ⟨fun v m hr => ?_, fun v m hr => ?_⟩, fun hall report s' hr => ?_⟩
  · exact hsettled.same hdirect hg hn hr
  · exact hsettled.unchanged hdirect hg hn hr
  · exact hsettled.unmodified hdirect hg hall hr

/-- The session in which `f(x)` is `x + a` and `b` is `f(1)`, and in which `a` was changed
thereafter. -/
def changed : Session :=
  ({ options := { interpreterMode := true } } : Session).run
    [.updateCode "a = 1; def f(x) = x + a;", .updateCode "b = f(1);", .updateCode "a = 5;"]

/-- Evaluating the statement of `b` again gives what `b` holds. -/
theorem no_stale_values_changed : ∃ v m stored,
    (runRange changed.executable 256 256 ⟨0, 2, 4, []⟩).run { memory := changed.memory } = .ok v m ∧
      changed.memory.global? 1 = some stored ∧ m.memory.heap.same stored v = true := by
  have hrun : ({ options := { interpreterMode := true } } : Session).Unfaulted
      [.updateCode "a = 1; def f(x) = x + a;", .updateCode "b = f(1);", .updateCode "a = 5;"] :=
    unfaulted_cons (by decide +kernel) (unfaulted_cons (by decide +kernel)
      (unfaulted_cons (by decide +kernel) trivial))
  have hn : changed.compiled.graph.Determines ⟨1, none, some (.global 1), [], [0], 2, 5, true⟩
      (.global 1) :=
    ⟨by decide +kernel, rfl, by decide +kernel, by decide +kernel⟩
  have hsame := ((no_stale_values _ _ hrun (by decide +kernel) changed.compiled.graph
    (by decide +kernel)).1 _ _ hn 256 256).1
  obtain ⟨v, m, hr⟩ := run_ok_of_isSome (f := runRange changed.executable 256 256 ⟨0, 2, 4, []⟩)
    (m := { memory := changed.memory }) (by decide +kernel)
  obtain ⟨stored, hstored, hv⟩ := hsame v m hr
  exact ⟨v, m, stored, hr, hstored, hv⟩

end Session

end Reflow
