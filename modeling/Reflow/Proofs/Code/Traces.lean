import Reflow.Proofs.Code.Noting
import Reflow.Proofs.Graph.Worklist
/-!
# A run does what it must

A run is a sequence of evaluations, each on the memory that the one before has left. The statements that it
starts with are evaluated, and from then on a statement is evaluated again exactly when an earlier
evaluation of another one has changed a global that it reads: no such change is lost, and no evaluation
happens without one. This holds of any program, compiled or not, with whatever cycles.

## Main definitions

* `Evaluation`, `Evaluates`: the evaluations of a run.
* `Evaluation.Triggers`: a change that asks for another evaluation.
* `Starts`: the statements that a run starts with.
* `Exact`: evaluations that happen exactly when they must.

## Main results

* `mem_initialWorklist`: the worklist at the start of a run.
* `Exact.cons`: one evaluation.
* `execute_exact`: a whole run.
-/

namespace Reflow

/-- One evaluation of a statement. -/
structure Evaluation where
  statement : Nat
  /-- The memory before. -/
  memory : Memory
  /-- What the evaluation has left. -/
  machine : Machine

/-- The evaluation has changed a global that another statement reads. -/
def Evaluation.Triggers (g : DependencyGraph) (ctx : RunContext) (e : Evaluation) (n : Nat) : Prop :=
  n ≠ e.statement ∧ ∃ slot ∈ e.machine.changed, n ∈ g.readersOf (.symbol ⟨ctx.block, slot⟩)

/-- The evaluations lead from one memory to another. Each is that of an active statement. -/
inductive Evaluates (x : Executable) (ctx : RunContext) (g : DependencyGraph) :
    Memory → List Evaluation → Memory → Prop
  | nil (memory : Memory) : Evaluates x ctx g memory [] memory
  | cons {n : GraphNode} {memory memory' : Memory} {v : Value} {m : Machine}
    {evaluations : List Evaluation} (hn : g.node? n.id = some n) (hon : n.isActive = true)
    (hrun : (runRange x ctx.maxDepth ctx.maxDepth ⟨ctx.block, n.start, n.stop, []⟩).run { memory } =
      .ok v m)
    (hrest : Evaluates x ctx g m.memory evaluations memory') :
    Evaluates x ctx g memory (⟨n.id, memory, m⟩ :: evaluations) memory'

/-- The evaluations happen exactly when they must: `start` are the statements to begin with. -/
structure Exact (g : DependencyGraph) (ctx : RunContext) (start : Nat → Prop)
    (evaluations : List Evaluation) : Prop where
  /-- Every active statement to begin with is evaluated. -/
  started : ∀ n, start n → g.isActive n = true → ∃ e ∈ evaluations, e.statement = n
  /-- Whatever an evaluation asks for comes later. -/
  pursued : ∀ before e after, evaluations = before ++ e :: after → ∀ n, e.Triggers g ctx n →
    ∃ e' ∈ after, e'.statement = n
  /-- An evaluation is the first of a statement to begin with, or it was asked for since the statement was
  evaluated last. -/
  justified : ∀ before e after, evaluations = before ++ e :: after →
    (start e.statement ∧ ∀ e' ∈ before, e'.statement ≠ e.statement) ∨
      ∃ earlier cause between, before = earlier ++ cause :: between ∧
        cause.Triggers g ctx e.statement ∧ ∀ e' ∈ between, e'.statement ≠ e.statement

/-- A statement that a run starts with: it belongs to the pending code, it assigns a symbol or uses a
procedure that the compilation queued, or the host asks for it. -/
inductive Starts (s : Stream) (ctx : RunContext) : Nat → Prop
  | pending {n : GraphNode} (hn : n ∈ s.graph.activeNodes) (hstart : s.entry.getD s.size ≤ n.start) :
    Starts s ctx n.id
  | writer {key : SymbolKey} {n : Nat} (hkey : .symbol key ∈ s.updates)
    (hon : s.graph.isActive n = true) (hn : (⟨.expr n, .symbol key⟩ : Edge) ∈ s.graph.edges) :
    Starts s ctx n
  | caller {p n : Nat} {u : Vertex} (hp : .procedure p ∈ s.updates) (hon : s.graph.isActive n = true)
    (hu : s.graph.Leads (.procedure p) u) (hn : (⟨u, .expr n⟩ : Edge) ∈ s.graph.edges) :
    Starts s ctx n
  | forced {n : Nat} (hn : n ∈ ctx.forced) (hon : s.graph.isActive n = true) : Starts s ctx n

theorem mem_initialWorklist {s : Stream} {ctx : RunContext} {n : Nat} :
    n ∈ initialWorklist s ctx ↔ Starts s ctx n := by
  unfold initialWorklist
  simp only [Ascending.mem_ofList, List.mem_append, List.mem_map, List.mem_filter, List.mem_flatMap,
    decide_eq_true_eq]
  constructor
  · rintro ((⟨k, ⟨hk, hstart⟩, rfl⟩ | ⟨root, hroot, hn⟩) | ⟨hn, hon⟩)
    · exact .pending hk hstart
    · cases root with
      | symbol key =>
        obtain ⟨hon, hn⟩ := DependencyGraph.mem_writersOf.1 hn
        exact .writer hroot hon hn
      | procedure p =>
        obtain ⟨hon, u, hu, hn⟩ := DependencyGraph.mem_readersOf.1 hn
        exact .caller hroot hon hu hn
    · exact .forced hn hon
  · rintro (⟨hk, hstart⟩ | ⟨hkey, hon, hn⟩ | ⟨hp, hon, hu, hn⟩ | ⟨hn, hon⟩)
    · exact .inl (.inl ⟨_, ⟨hk, hstart⟩, rfl⟩)
    · exact .inl (.inr ⟨_, hkey, DependencyGraph.mem_writersOf.2 ⟨hon, hn⟩⟩)
    · exact .inl (.inr ⟨_, hp, DependencyGraph.mem_readersOf.2 ⟨hon, _, hu, hn⟩⟩)
    · exact .inr ⟨hn, hon⟩

section Propagation

variable {x : Executable} {ctx : RunContext} {g : DependencyGraph}

/-! ### What the evaluations note -/

/-- A memory after some evaluations. -/
theorem Evaluates.updates {memory memory' : Memory} {evaluations : List Evaluation}
    (h : Evaluates x ctx g memory evaluations memory') :
    memory.Updates memory.globalCount memory' := by
  induction h with
  | nil => rfl
  | cons _ _ hrun _ ih =>
    have hnotes := (noting_runRange _ _ _ _ _ _ _ hrun).memory
    exact hnotes.trans (hnotes.size ▸ ih)

/-- Every evaluation notes what it has changed. -/
theorem Evaluates.noted {memory memory' : Memory} {evaluations : List Evaluation}
    (h : Evaluates x ctx g memory evaluations memory') {e : Evaluation} (he : e ∈ evaluations)
    {slot : Nat} (hslot : slot ∉ e.machine.changed) :
    e.machine.memory.global? slot = e.memory.global? slot := by
  induction h with
  | nil => cases he
  | cons _ _ hrun _ ih =>
    rcases List.mem_cons.1 he with rfl | he
    · exact (noting_runRange _ _ _ _ _ _ _ hrun).kept slot hslot
    · exact ih he

/-! ### Each evaluation in its turn -/

theorem Exact.nil {start : Nat → Prop} (h : ∀ n, start n → g.isActive n ≠ true) :
    Exact g ctx start [] where
  started n hn hon := absurd hon (h n hn)
  pursued _ _ _ h := by cases List.append_ne_nil_of_right_ne_nil _ (List.cons_ne_nil _ _) h.symm
  justified _ _ _ h := by cases List.append_ne_nil_of_right_ne_nil _ (List.cons_ne_nil _ _) h.symm

/-- When the statement that is due has been evaluated, the evaluations that the rest of the worklist asks
for are those that must follow. -/
theorem Exact.cons {p : Propagation} {k : Nat} {rest : List Nat} {m : Machine} {memory : Memory}
    {evaluations : List Evaluation} (hdue : p.due g = k :: rest) (hsorted : Keyed.Sorted id p.worklist)
    (h : Exact g ctx (· ∈ (p.advance g ctx k rest m).worklist) evaluations) :
    Exact g ctx (· ∈ p.worklist) (⟨k, memory, m⟩ :: evaluations) := by
  have hsuffix := Propagation.suffix_of_due hdue
  refine ⟨fun n hn hon => ?_, fun before e after heq n hn => ?_, fun before e after heq => ?_⟩
  · have hmem := Propagation.mem_due hon hn
    rw [hdue] at hmem
    rcases List.mem_cons.1 hmem with rfl | hmem
    · exact ⟨_, List.mem_cons_self, rfl⟩
    · obtain ⟨e, he, hid⟩ := h.started n (Propagation.mem_worklist_advance.2 (.inl hmem)) hon
      exact ⟨e, List.mem_cons_of_mem _ he, hid⟩
  · cases before with
    | nil =>
      obtain ⟨rfl, rfl⟩ := List.cons.inj heq
      have hon := (DependencyGraph.mem_readersOf.1 hn.2.choose_spec.2).1
      exact h.started n (Propagation.mem_worklist_advance.2 (.inr hn)) hon
    | cons first before =>
      exact h.pursued before e after (List.cons.inj heq).2 n hn
  · cases before with
    | nil =>
      obtain ⟨rfl, rfl⟩ := List.cons.inj heq
      exact .inl ⟨hsuffix.subset List.mem_cons_self, fun _ he => by cases he⟩
    | cons first before =>
      obtain ⟨rfl, htail⟩ := List.cons.inj heq
      rcases h.justified before e after htail with ⟨hwait, hnot⟩ | ⟨earlier, cause, between, rfl, hcause⟩
      · rcases Propagation.mem_worklist_advance.1 hwait with hrest | htriggers
        · have hlt : k < e.statement :=
            (List.pairwise_cons.1 (hsorted.sublist hsuffix.sublist)).1 _ hrest
          refine .inl ⟨hsuffix.subset (List.mem_cons_of_mem _ hrest), fun e' he' => ?_⟩
          rcases List.mem_cons.1 he' with rfl | he'
          · exact Nat.ne_of_lt hlt
          · exact hnot e' he'
        · exact .inr ⟨[], _, before, rfl, htriggers, hnot⟩
      · exact .inr ⟨_ :: earlier, cause, between, rfl, hcause⟩

/-! ### Whole runs -/

theorem propagate_exact (fuel : Nat) {p : Propagation} (hsorted : Keyed.Sorted id p.worklist)
    {run : Execution} {memory : Memory} (hr : propagate x ctx g fuel p = (.ok run, memory)) :
    ∃ evaluations, Evaluates x ctx g p.memory evaluations memory ∧
      Exact g ctx (· ∈ p.worklist) evaluations ∧
      run.executed = p.executed.reverse ++ evaluations.map (·.statement) := by
  have hdone {p : Propagation} (hdue : p.due g = []) : Exact g ctx (· ∈ p.worklist) [] :=
    .nil fun n hn hon => by
      have hmem := Propagation.mem_due hon hn
      rw [hdue] at hmem
      cases hmem
  induction fuel generalizing p with
  | zero =>
    unfold propagate at hr
    split at hr
    · rename_i hdue
      cases hr
      exact ⟨[], .nil _, hdone hdue, (List.append_nil _).symm⟩
    · cases hr
  | succ fuel ih =>
    unfold propagate at hr
    split at hr
    · rename_i hdue
      cases hr
      exact ⟨[], .nil _, hdone hdue, (List.append_nil _).symm⟩
    · rename_i id rest hdue
      have hon := Propagation.isActive_of_due hdue
      rw [DependencyGraph.isActive] at hon
      split at hr
      · cases hr
      · cases hnode : g.node? id with
        | none =>
          rw [hnode] at hon
          cases hon
        | some n =>
          rw [hnode] at hr hon
          obtain rfl : n.id = id := by simpa using List.find?_some hnode
          dsimp only at hr
          split at hr
          · rename_i v m hrun
            have hrest := hsorted.sublist
              ((List.suffix_cons _ _).trans (Propagation.suffix_of_due hdue)).sublist
            obtain ⟨evaluations, hsteps, hexact, hexecuted⟩ :=
              ih (Propagation.sorted_worklist_advance hrest m) hr
            refine ⟨_, .cons hnode hon hrun hsteps, hexact.cons hdue hsorted, ?_⟩
            rw [hexecuted, Propagation.advance, List.reverse_cons, List.append_assoc]
            rfl
          · cases hr

/-- A run that succeeds is a sequence of evaluations, with exactly those that must be. Every slot whose
value an evaluation changes is among those that it has noted, and every slot that differs after the run
counts as modified; all others hold the values that they held, and what these point to is still there. -/
theorem execute_exact {memory memory' : Memory} {run : Execution}
    (hr : execute x memory ctx = (.ok run, memory')) :
    ∃ s evaluations, x.stream? ctx.block = some s ∧
      Evaluates x ctx s.graph memory evaluations memory' ∧
      run.executed = evaluations.map (·.statement) ∧ Exact s.graph ctx (Starts s ctx) evaluations ∧
      (∀ e ∈ evaluations, ∀ slot, e.machine.memory.global? slot ≠ e.memory.global? slot →
        slot ∈ e.machine.changed) ∧
      (∀ slot, memory'.global? slot ≠ memory.global? slot → slot ∈ memory'.modified) ∧
      (memory.heap.Sound → memory.heap.Extends memory'.heap) := by
  unfold execute at hr
  split at hr
  · cases hr
  · rename_i s hs
    obtain ⟨evaluations, hsteps, hexact, hexecuted⟩ :=
      propagate_exact _ (p := { memory, worklist := initialWorklist s ctx }) (Ascending.sorted_ofList _) hr
    have hstart : (· ∈ initialWorklist s ctx) = Starts s ctx := funext fun n =>
      propext mem_initialWorklist
    refine ⟨s, evaluations, hs, hsteps, hexecuted, hstart ▸ hexact, fun e he slot hslot => ?_,
      fun slot hslot => ?_, hsteps.updates.heap⟩
    · exact Decidable.byContradiction fun hnot => hslot (hsteps.noted he hnot)
    · exact Decidable.byContradiction fun hnot => hslot (hsteps.updates.kept slot hnot)

/-- In `x = y; y = 1`, the change of `y` makes the first statement run again. -/
theorem execute_exact_repeated :
    let graph := DependencyGraph.ofRecords
      [{ id := 0, defines := some ⟨0, 0⟩, reads := [⟨0, 1⟩], start := 0, stop := 2 },
        { id := 1, defines := some ⟨0, 1⟩, start := 2, stop := 4 }] []
    let stream : Stream :=
      { language := .associative, entry := some 0, graph
        code := #[.loadGlobal 1, .storeGlobal 0, .pushInt 1, .storeGlobal 1] }
    let x : Executable := { Executable.empty with streams := [stream] }
    ∃ run memory', execute x (Memory.grow {} 2) {} = (.ok run, memory') ∧ run.executed = [0, 1, 0] ∧
      memory'.modified = [0, 1] ∧
      ∃ evaluations, run.executed = evaluations.map (·.statement) ∧
        Exact graph {} (Starts stream {}) evaluations := by
  intro graph stream x
  have hexecuted : (execute x (Memory.grow {} 2) {}).1.toOption.map (·.executed) = some [0, 1, 0] := by
    decide +kernel
  have hmodified : (execute x (Memory.grow {} 2) {}).2.modified = [0, 1] := by decide +kernel
  cases hr : execute x (Memory.grow {} 2) {} with
  | mk result memory' =>
    rw [hr] at hexecuted hmodified
    cases result with
    | error fault => cases hexecuted
    | ok run =>
      obtain ⟨s, evaluations, hs, -, hall, hexact, -⟩ := execute_exact hr
      cases hs
      exact ⟨run, memory', rfl, Option.some.inj hexecuted, hmodified, evaluations, hall, hexact⟩

end Propagation

end Reflow
