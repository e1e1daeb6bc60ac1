import Reflow.Proofs.Code.Noting
import Reflow.Proofs.Graph.Spreading
import Reflow.Proofs.Program.Termination
/-!
# A run stays within what its start may affect

What a run evaluates is decided while it goes on, by the changes that it finds. What a change of some globals
may affect is decided without a run, from the records of the dependency graph. The one stays within the other:
a statement that a run evaluates is one of those that it starts with, or a change of the globals that these
assign may reach it. For a statement stores into no global but its own, so that what waits because of a
change waits because of a statement that was evaluated before. This holds of runs that end with a fault, too.

## Main definitions

* `DependencyGraph.Concerns`: the statements that a run may evaluate, from those that it starts with.
* `Executable.Evaluates`: the statements that a run does evaluate.
* `Moment.Confined`: a run under way that has kept to such statements and to their globals.

## Main results

* `Sound.grows_of_fault`: a statement that faults has changed no global.
* `Moment.Confined.next`: one step of a run.
* `Reached.confined`: a whole run.
-/

namespace Reflow

/-- A run that starts with the statements `start` may evaluate the statement: it is one of them, or what they
assign affects it. -/
def DependencyGraph.Concerns (g : DependencyGraph) (start : List Nat) (id : Nat) : Prop :=
  id ∈ start ∨ id ∈ g.affectedBy (start.filterMap g.definedBy?)

/-- Whoever reads what a statement assigns is concerned if the statement is. -/
theorem DependencyGraph.Concerns.through {g : DependencyGraph} {start : List Nat} {m n : Nat} {v : Vertex}
    (hm : g.Concerns start m) (hv : g.definedBy? m = some v) (hn : n ∈ g.readersOf v) :
    g.Concerns start n := by
  refine .inr (mem_affectedBy.2 ?_)
  rcases hm with hm | hm
  · exact .root (List.mem_filterMap.2 ⟨m, hm, hv⟩) hn
  · exact .through (mem_affectedBy.1 hm) hv hn

/-- The run comes to evaluate the statement. -/
def Executable.Evaluates (x : Executable) (memory : Memory) (ctx : RunContext) (id : Nat) : Prop :=
  ∃ k p rest a, x.moment memory ctx k = .evaluating p id rest a

/-- The memory differs from `memory` only in globals that statements assign which the run evaluates. -/
def Executable.Keeps (x : Executable) (g : DependencyGraph) (memory : Memory) (ctx : RunContext)
    (memory' : Memory) : Prop :=
  ∀ slot, memory'.global? slot ≠ memory.global? slot →
    ∃ id, x.Evaluates memory ctx id ∧ g.definedBy? id = some (.symbol (.global slot))

theorem run_bind_error {α β : Type} {f : Run α} {g : α → Run β} {m m'' : Machine} {fault : Fault}
    (h : (f >>= g).run m = .error fault m'') : f.run m = .error fault m'' ∨
      ∃ a m', f.run m = .ok a m' ∧ (g a).run m' = .error fault m'' := by
  rw [EStateM.run_bind] at h
  cases hf : f.run m with
  | error fault' m' =>
    rw [hf] at h
    exact .inl (by simpa using h)
  | ok a m' =>
    rw [hf] at h
    exact .inr ⟨a, m', rfl, h⟩

namespace CompileState

variable {s : CompileState} {ctx : RunContext} {n : GraphNode}

/-- A statement that faults has changed no global: it faults before it stores its value, or because the
global is not allocated. -/
theorem Sound.grows_of_fault (h : s.Sound) (hn : n ∈ s.graph.nodes) {limit depth : Nat} {m m' : Machine}
    {fault : Fault}
    (hr : (runRange s.executable limit depth ⟨0, n.start, n.stop, []⟩).run m = .error fault m') :
    m.Grows m' := by
  obtain ⟨slot, σ, e, hassigns⟩ := h.statements n hn
  have hquiet := (h.evaluate_spec hassigns limit depth).1
  rw [runRange_eq, runFrame_assigns hassigns] at hr
  obtain hr | ⟨v, m₁, hv, hr⟩ := run_bind_error hr
  · exact hquiet.of_error hr
  · obtain hr | ⟨_, m₂, -, hr⟩ := run_bind_error hr
    · have hstore := updates_storeValue (Nat.lt_succ_self slot) v m₁
      rw [hr] at hstore
      rw [show m' = m₁ from hstore]
      exact hquiet.of_ok hv
    · cases hr

end CompileState

/-- The run has kept to statements that its start concerns, and to what they assign. -/
structure Propagation.Confined (s : CompileState) (memory : Memory) (ctx : RunContext) (start : List Nat)
    (p : Propagation) : Prop where
  waiting : ∀ n ∈ p.worklist, s.graph.Concerns start n
  evaluated : ∀ n ∈ p.executed, s.executable.Evaluates memory ctx n
  kept : s.executable.Keeps s.graph memory ctx p.memory

/-- The run has kept to statements that its start concerns, and a statement that is evaluated is one that was
due, on the way from its first instruction. -/
def Moment.Confined (s : CompileState) (memory : Memory) (ctx : RunContext) (start : List Nat) :
    Moment → Prop
  | choosing p => p.Confined s memory ctx start
  | evaluating p id rest a => p.Confined s memory ctx start ∧ p.due s.graph = id :: rest ∧
      ∃ n ∈ s.graph.nodes, n.id = id ∧ ∃ k, (Activity.next s.executable ctx.maxDepth)^[k]
        (.enter s.executable ctx.maxDepth ⟨0, n.start, n.stop, []⟩ [] { memory := p.memory }) = a
  | ended result memory' => (∀ run, result = .ok run → ∀ n ∈ run.executed,
      s.executable.Evaluates memory ctx n) ∧ s.executable.Keeps s.graph memory ctx memory'

namespace CompileState

variable {s : CompileState} {ctx : RunContext} {n : GraphNode} {memory : Memory} {start : List Nat}
  {p : Propagation} {rest : List Nat} {m : Machine}

/-- A statement that has come to its end has the result that running it has. -/
theorem Sound.runRange_of_iterate (h : s.Sound) (hn : n ∈ s.graph.nodes) {limit k : Nat}
    {result : EStateM.Result Fault Machine Value}
    (hk : (Activity.next s.executable limit)^[k]
      (.enter s.executable limit ⟨0, n.start, n.stop, []⟩ [] m) = .finished result) :
    (runRange s.executable limit limit ⟨0, n.start, n.stop, []⟩).run m = result := by
  obtain ⟨k', hk'⟩ := Activity.exists_next_enter limit h.forward (limit + 1) ⟨0, n.start, n.stop, []⟩
    [] m (fun code hcode => by cases hcode; exact h.forward_statement hn) (Nat.zero_add _)
  rw [Activity.resume_nil] at hk'
  have heq := iterate_unique rfl rfl hk' hk
  rwa [Activity.finished.injEq] at heq

/-- When a statement has run that was due, those wait that its start concerns. -/
theorem Sound.confined_advance (h : s.Sound) (hblock : ctx.block = 0)
    (hp : p.Confined s memory ctx start) (hn : n ∈ s.graph.nodes) (hdue : p.due s.graph = n.id :: rest)
    (hevaluates : s.executable.Evaluates memory ctx n.id) {v : Value}
    (hr : (runRange s.executable ctx.maxDepth ctx.maxDepth ⟨0, n.start, n.stop, []⟩).run
      { memory := p.memory } = .ok v m) :
    (p.advance s.graph ctx n.id rest m).Confined s memory ctx start := by
  obtain ⟨slot, σ, e, hassigns⟩ := h.statements n hn
  have hdefined := h.definedBy?_eq hn hassigns
  have hsuffix := Propagation.suffix_of_due hdue
  have hconcerned := hp.waiting n.id (hsuffix.subset List.mem_cons_self)
  refine ⟨fun k hk => ?_, fun k hk => ?_, fun k hk => ?_⟩
  · rcases Propagation.mem_worklist_advance.1 hk with hrest | ⟨-, slot', hslot', hreader⟩
    · exact hp.waiting k (hsuffix.subset (List.mem_cons_of_mem _ hrest))
    · obtain rfl := List.mem_singleton.1 (h.changed_run hassigns hr hslot')
      rw [hblock] at hreader
      exact hconcerned.through hdefined hreader
  · rcases List.mem_cons.1 hk with rfl | hk
    · exact hevaluates
    · exact hp.evaluated k hk
  · by_cases hslot : k = slot
    · subst hslot
      exact ⟨n.id, hevaluates, hdefined⟩
    · refine hp.kept k fun heq => hk ?_
      exact (h.run_global? hassigns hslot hr).trans heq

end CompileState

/-- One step of a run that has kept to what its start concerns. -/
theorem Moment.Confined.next {s : CompileState} (h : s.Sound) {ctx : RunContext} (hblock : ctx.block = 0)
    {memory : Memory} {start : List Nat} {k : Nat}
    (hk : (s.executable.moment memory ctx k).Confined s memory ctx start) :
    ((s.executable.moment memory ctx k).next s.executable ctx s.graph).Confined s memory ctx start := by
  generalize hmoment : s.executable.moment memory ctx k = moment at hk
  unfold Moment.next
  split
  · rename_i p
    have hended : Confined s memory ctx start (.ended (.ok p.result) p.memory) := by
      refine ⟨?_, hk.kept⟩
      rintro run ⟨⟩ n hn
      exact hk.evaluated n (List.mem_reverse.1 hn)
    split
    · exact hended
    · rename_i id rest hdue
      split
      · exact ⟨nofun, hk.kept⟩
      · split
        · exact hended
        · rename_i n hn
          obtain ⟨hn, hid⟩ := h.graph.node?_eq_some.1 hn
          rw [hblock]
          exact ⟨hk, hdue, n, hn, hid, 0, rfl⟩
  · rename_i p id rest v m
    obtain ⟨hp, hdue, n, hn, rfl, j, hj⟩ := hk
    exact h.confined_advance hblock hp hn hdue ⟨k, p, rest, _, hmoment⟩ (h.runRange_of_iterate hn hj)
  · rename_i p id rest fault m
    obtain ⟨hp, hdue, n, hn, rfl, j, hj⟩ := hk
    refine ⟨nofun, fun slot hslot => hp.kept slot fun heq => hslot ?_⟩
    have hgrows := h.grows_of_fault hn (h.runRange_of_iterate hn hj)
    exact (congrArg (·[slot]?) hgrows.globals).trans heq
  · rename_i p id rest f callers m
    obtain ⟨hp, hdue, n, hn, rfl, j, hj⟩ := hk
    refine ⟨hp, hdue, n, hn, rfl, j + 1, ?_⟩
    rw [Function.iterate_succ_apply', hj]
  · exact hk

namespace CompileState

variable {s : CompileState} {ctx : RunContext}

theorem Sound.confined_moment (h : s.Sound) (hblock : ctx.block = 0) (memory : Memory) (k : Nat) :
    (s.executable.moment memory ctx k).Confined s memory ctx (initialWorklist s.root.stream ctx) := by
  have hstream : s.executable.stream? ctx.block = some s.root.stream := by
    rw [hblock, executable_stream?_zero]
  induction k with
  | zero =>
    change (Moment.start s.executable memory ctx).Confined s memory ctx _
    simp only [Moment.start, hstream]
    exact ⟨fun n hn => .inl hn, nofun, fun slot hslot => absurd rfl hslot⟩
  | succ k ih =>
    have hgraph : s.executable.graphOf ctx.block = s.graph := by
      rw [Executable.graphOf, hstream]
      rfl
    rw [moment_succ, hgraph]
    exact ih.next h hblock

/-- A run of a compiled program evaluates only statements with which it starts and statements that a change
of the globals affects that these assign, and no global changes but those that an evaluated statement assigns.
This holds up to the end of the run, be it a success or a fault. -/
theorem Reached.confined {last : Option CompileState} (h : Reached last s) {f : Fragment}
    {image : CompiledImage} (hf : (compile f s).image = some image) (memory : Memory)
    (hblock : ctx.block = 0) :
    let x := image.executable
    let g := image.state.graph
    let start := initialWorklist image.state.root.stream ctx
    (∃ k, x.moment memory ctx k = .ended (execute x memory ctx).1 (execute x memory ctx).2) ∧
    (∀ k p id rest a, x.moment memory ctx k = .evaluating p id rest a →
      id ∈ start ∨ id ∈ g.affectedBy (start.filterMap g.definedBy?)) ∧
    (∀ run, (execute x memory ctx).1 = .ok run → ∀ id ∈ run.executed, x.Evaluates memory ctx id) ∧
    (∀ slot, (execute x memory ctx).2.global? slot ≠ memory.global? slot →
      ∃ id, x.Evaluates memory ctx id ∧ g.definedBy? id = some (.symbol (.global slot))) := by
  intro x g start
  have hnext := h.compiled hf
  have hsound := hnext.laid.sound
  have hx : x = image.state.executable := compile_executable hf
  have hconfined : ∀ k, (x.moment memory ctx k).Confined image.state memory ctx start := by
    rw [hx]
    exact hsound.confined_moment hblock memory
  have hforward : x.ForwardFrom ctx.block := h.forwardFrom hf ctx.block
  obtain ⟨k, hk⟩ := exists_moment_execute hforward memory
  obtain ⟨hexecuted, hkept⟩ := hk ▸ hconfined k
  rw [← hx] at hexecuted hkept
  refine ⟨⟨k, hk⟩, fun k p id rest a hmoment => ?_, hexecuted, hkept⟩
  obtain ⟨hp, hdue, -⟩ := hmoment ▸ hconfined k
  exact hp.waiting id ((Propagation.suffix_of_due hdue).subset List.mem_cons_self)

/-- In `a = 1; b = a + 1; c = 2;`, only the first statement is replaced. The run evaluates the new one and the
reader of `a`, but not the statement of `c`. -/
theorem Reached.confined_replaced : ∃ first second : CompiledImage,
    (compile { units := [⟨some (.ofNat 0), "a = 1;"⟩, ⟨some (.ofNat 1), "b = a + 1; c = 2;"⟩] } {}).image =
      some first ∧
    (compile { units := [⟨some (.ofNat 0), "a = 5;"⟩], retired := [.ofNat 0] } first.state).image =
      some second ∧
    (execute second.executable (Memory.grow {} 3) {}).1.toOption.map (·.executed) = some [3, 1] ∧
    second.executable.Evaluates (Memory.grow {} 3) {} 1 ∧
    ¬ second.executable.Evaluates (Memory.grow {} 3) {} 2 := by
  obtain ⟨first, hfirst⟩ := Option.isSome_iff_exists.1 (show (compile
    { units := [⟨some (.ofNat 0), "a = 1;"⟩, ⟨some (.ofNat 1), "b = a + 1; c = 2;"⟩] } {}).image.isSome
      by decide +kernel)
  have hsecond : (compile { units := [⟨some (.ofNat 0), "a = 5;"⟩], retired := [.ofNat 0] }
      first.state).image.isSome := by
    rw [compile_image hfirst]
    decide +kernel
  obtain ⟨second, hsecond⟩ := Option.isSome_iff_exists.1 hsecond
  have hexecuted : (execute second.executable (Memory.grow {} 3) {}).1.toOption.map (·.executed) =
      some [3, 1] := by
    rw [compile_image hsecond, compile_image hfirst]
    decide +kernel
  have hstart : initialWorklist second.state.root.stream {} = [3] ∧ second.state.graph.affectedBy
      ([3].filterMap second.state.graph.definedBy?) = [1] := by
    rw [compile_image hsecond, compile_image hfirst]
    decide +kernel
  obtain ⟨-, hconcerned, hall, -⟩ := (Reached.compiled .new hfirst).confined hsecond (Memory.grow {} 3)
    (rfl : ({} : RunContext).block = 0)
  refine ⟨first, second, hfirst, hsecond, hexecuted, ?_, ?_⟩
  · obtain ⟨run, hrun, hlist⟩ := Option.map_eq_some_iff.1 hexecuted
    cases hr : (execute second.executable (Memory.grow {} 3) {}).1 with
    | error fault =>
      rw [hr] at hrun
      cases hrun
    | ok run' =>
      rw [hr] at hrun
      cases hrun
      exact hall _ hr 1 (by rw [hlist]; decide)
  · rintro ⟨k, p, rest, a, hmoment⟩
    have hmem := hconcerned k p 2 rest a hmoment
    rw [hstart.1, hstart.2] at hmem
    revert hmem
    decide

end CompileState

end Reflow
