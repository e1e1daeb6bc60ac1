import Reflow.Proofs.Code.Activity
import Reflow.Proofs.Program.Repetition
/-!
# Runs one step at a time

A run takes a statement that is due, evaluates it one instruction after the other, and takes the next one. It
goes on for as long as statements are due, and nothing bounds the number of its steps but the limits on
repetition and on nested calls. If all statements and all functions jump only forward, then the run comes to
its end after finitely many steps, with the result of the run. On the way it never exceeds a limit.

## Main definitions

* `Moment`: a run under way, with `Moment.next` as one step of it.
* `Executable.moment`: a run after some steps.
* `Counted`: evaluations of active statements, of each no more than the limit allows.
* `Executable.ForwardFrom`: programs that jump only forward.

## Main results

* `Moment.within_next`, `within_moment`: one step of a run keeps within the limits, and so does a run.
* `exists_moment_execute`: a run comes to its end.
* `execute_of_exhausted`, `execute_of_calls`: a run that is about to exceed a limit ends there.
-/

namespace Reflow

/-- A run under way. -/
inductive Moment
  /-- The next statement is taken. -/
  | choosing (p : Propagation)
  /-- The statement `id` is evaluated, and those in `rest` wait. -/
  | evaluating (p : Propagation) (id : Nat) (rest : List Nat) (activity : Activity)
  | ended (result : Except Fault Execution) (memory : Memory)

namespace Moment

/-- One step of a run. -/
def next (x : Executable) (ctx : RunContext) (g : DependencyGraph) : Moment → Moment
  | choosing p =>
    match p.due g with
    | [] => ended (.ok p.result) p.memory
    | id :: rest =>
      if ctx.maxPasses ≤ p.executed.count id then
        ended (.error (.updateCycle id ctx.maxPasses)) p.memory
      else match g.node? id with
        | none => ended (.ok p.result) p.memory
        | some n => evaluating p id rest
          (.enter x ctx.maxDepth ⟨ctx.block, n.start, n.stop, []⟩ [] { memory := p.memory })
  | evaluating p id rest (.finished (.ok _ m)) => choosing (p.advance g ctx id rest m)
  | evaluating _ _ _ (.finished (.error fault m)) => ended (.error fault) m.memory
  | evaluating p id rest (.running f callers m) =>
    evaluating p id rest (Activity.next x ctx.maxDepth (.running f callers m))
  | ended result memory => ended result memory

/-- The evaluations so far, the one under way included. Of those of a run that has faulted, nothing is
kept. -/
def evaluated : Moment → List Nat
  | choosing p => p.executed
  | evaluating p id _ _ => id :: p.executed
  | ended (.ok run) _ => run.executed
  | ended (.error _) _ => []

/-- The calls that are open. -/
def depth : Moment → Nat
  | evaluating _ _ _ a => a.depth
  | _ => 0

end Moment

/-- The dependencies of a block; those of a block without code are none. -/
def Executable.graphOf (x : Executable) (block : Nat) : DependencyGraph :=
  ((x.stream? block).map (·.graph)).getD {}

/-- The start of a run. -/
def Moment.start (x : Executable) (memory : Memory) (ctx : RunContext) : Moment :=
  match x.stream? ctx.block with
  | none => ended (.error (.missingBlock ctx.block)) memory
  | some s => choosing { memory, worklist := initialWorklist s ctx }

/-- A run after `k` steps. -/
def Executable.moment (x : Executable) (memory : Memory) (ctx : RunContext) (k : Nat) : Moment :=
  (Moment.next x ctx (x.graphOf ctx.block))^[k] (.start x memory ctx)

/-- Evaluations of active statements, of each no more than the limit allows. -/
structure Counted (g : DependencyGraph) (ctx : RunContext) (evaluated : List Nat) : Prop where
  active : evaluated ⊆ g.activeNodes.map (·.id)
  count : ∀ id, evaluated.count id ≤ ctx.maxPasses

section Runs

variable {x : Executable} {ctx : RunContext} {g : DependencyGraph}

theorem DependencyGraph.mem_activeNodes_of_isActive {id : Nat} (h : g.isActive id = true) :
    ∃ n ∈ g.activeNodes, g.node? id = some n ∧ n.id = id := by
  rw [isActive] at h
  cases hn : g.node? id with
  | none =>
    rw [hn] at h
    cases h
  | some n =>
    rw [hn] at h
    exact ⟨n, List.mem_filter.2 ⟨List.mem_of_find?_eq_some hn, h⟩, rfl, by simpa using List.find?_some hn⟩

namespace Counted

variable {evaluated : List Nat}

theorem cons (h : Counted g ctx evaluated) {id : Nat} (hon : g.isActive id = true)
    (hcount : evaluated.count id < ctx.maxPasses) : Counted g ctx (id :: evaluated) where
  active := by
    obtain ⟨n, hn, -, rfl⟩ := g.mem_activeNodes_of_isActive hon
    exact List.cons_subset.2 ⟨List.mem_map_of_mem hn, h.active⟩
  count k := by
    by_cases hk : id = k
    · subst hk
      rw [List.count_cons_self]
      exact hcount
    · rw [List.count_cons_of_ne hk]
      exact h.count k

theorem reverse (h : Counted g ctx evaluated) : Counted g ctx evaluated.reverse where
  active _ hid := h.active (List.mem_reverse.1 hid)
  count id := by
    rw [List.count_reverse]
    exact h.count id

/-- All evaluations together are no more than the limit allows to all active statements together. -/
theorem length_le (h : Counted g ctx evaluated) :
    evaluated.length ≤ ctx.maxPasses * g.activeNodes.length := by
  have hlength := length_le_of_count h.active h.count
  rwa [List.length_map, Nat.mul_comm] at hlength

/-- When there are as many evaluations as the limit allows to all statements together, then no active
statement has one left. -/
theorem exhausted (h : Counted g ctx evaluated)
    (hall : evaluated.length = g.nodes.length * ctx.maxPasses) {n : GraphNode} (hn : n ∈ g.activeNodes) :
    ctx.maxPasses ≤ evaluated.count n.id := by
  refine Nat.le_of_not_lt fun hlt => ?_
  have hlength := length_lt_of_count h.active h.count ⟨n.id, List.mem_map_of_mem hn, hlt⟩
  have hactive : g.activeNodes.length ≤ g.nodes.length := List.length_filter_le _ _
  have hpasses := Nat.mul_le_mul_right ctx.maxPasses hactive
  rw [List.length_map] at hlength
  omega

end Counted

namespace Moment

/-! ### One step keeps within the limits -/

/-- One step evaluates no statement too often and opens no call too many. -/
theorem within_next {a : Moment} (hcount : Counted g ctx a.evaluated) (hdepth : a.depth ≤ ctx.maxDepth) :
    Counted g ctx (a.next x ctx g).evaluated ∧ (a.next x ctx g).depth ≤ ctx.maxDepth := by
  unfold next
  split
  · rename_i p
    split
    · exact ⟨hcount.reverse, Nat.zero_le _⟩
    · rename_i id rest hdue
      split
      · exact ⟨⟨List.nil_subset _, fun _ => Nat.zero_le _⟩, Nat.zero_le _⟩
      · rename_i hlimit
        split
        · exact ⟨hcount.reverse, Nat.zero_le _⟩
        · exact ⟨hcount.cons (Propagation.isActive_of_due hdue) (Nat.lt_of_not_le hlimit),
            Activity.depth_enter _ _ _⟩
  · exact ⟨hcount, Nat.zero_le _⟩
  · exact ⟨⟨List.nil_subset _, fun _ => Nat.zero_le _⟩, Nat.zero_le _⟩
  · exact ⟨hcount, Activity.depth_next hdepth⟩
  · exact ⟨hcount, hdepth⟩

/-! ### The end -/

/-- A statement that comes to its end does so in the run. -/
theorem exists_next_evaluating (g : DependencyGraph) (p : Propagation) (id : Nat) (rest : List Nat)
    {result : EStateM.Result Fault Machine Value} {k : Nat} {a : Activity}
    (h : (Activity.next x ctx.maxDepth)^[k] a = .finished result) :
    ∃ k, (next x ctx g)^[k] (evaluating p id rest a) = evaluating p id rest (.finished result) := by
  induction k generalizing a with
  | zero => exact ⟨0, congrArg (evaluating p id rest) h⟩
  | succ k ih =>
    cases a with
    | finished result' =>
      rw [Activity.iterate_next_finished] at h
      exact ⟨0, congrArg (evaluating p id rest) h⟩
    | running f callers m =>
      obtain ⟨k', hk'⟩ := ih h
      exact ⟨k' + 1, hk'⟩

/-- A due statement that has an evaluation left and jumps only forward comes to its end in the run, with the
result that running it has. -/
theorem exists_next_due (hx : x.Forward) {p : Propagation} {n : GraphNode} {rest : List Nat}
    (hdue : p.due g = n.id :: rest) (hnode : g.node? n.id = some n)
    (hlimit : ¬ctx.maxPasses ≤ p.executed.count n.id)
    (hn : ∀ code, x.stream? ctx.block = some code → code.Forward n.start n.stop) :
    ∃ k, (next x ctx g)^[k] (choosing p) = evaluating p n.id rest (.finished
      ((runRange x ctx.maxDepth ctx.maxDepth ⟨ctx.block, n.start, n.stop, []⟩).run
        { memory := p.memory })) := by
  have hstart : next x ctx g (choosing p) = evaluating p n.id rest
      (.enter x ctx.maxDepth ⟨ctx.block, n.start, n.stop, []⟩ [] { memory := p.memory }) := by
    rw [next, hdue]
    dsimp only
    rw [if_neg hlimit, hnode]
  obtain ⟨k, hk⟩ := Activity.exists_next_enter ctx.maxDepth hx (ctx.maxDepth + 1)
    ⟨ctx.block, n.start, n.stop, []⟩ [] { memory := p.memory } hn (Nat.zero_add _)
  rw [Activity.resume_nil, enterWithin] at hk
  exact exists_iterate_succ (hstart ▸ exists_next_evaluating g p n.id rest hk)

/-- A run whose statements jump only forward comes to its end. When the evaluations that the limit allows to
all statements together are used up, then the next statement has none left. -/
theorem exists_next_choosing (hx : x.Forward)
    (hg : ∀ n ∈ g.nodes, ∀ code, x.stream? ctx.block = some code → code.Forward n.start n.stop) (fuel : Nat)
    (p : Propagation) (hcount : Counted g ctx p.executed)
    (hfuel : p.executed.length + fuel = g.nodes.length * ctx.maxPasses) :
    ∃ k, (next x ctx g)^[k] (choosing p) =
      ended (propagate x ctx g fuel p).1 (propagate x ctx g fuel p).2 := by
  induction fuel generalizing p with
  | zero =>
    refine ⟨1, ?_⟩
    rw [Function.iterate_one, next, propagate]
    cases hdue : p.due g with
    | nil => rfl
    | cons id rest =>
      obtain ⟨n, hn, -, rfl⟩ := g.mem_activeNodes_of_isActive (Propagation.isActive_of_due hdue)
      exact if_pos (hcount.exhausted hfuel hn)
  | succ fuel ih =>
    rw [propagate]
    cases hdue : p.due g with
    | nil => exact ⟨1, by rw [Function.iterate_one, next, hdue]⟩
    | cons id rest =>
      have hon := Propagation.isActive_of_due hdue
      obtain ⟨n, hn, hnode, rfl⟩ := g.mem_activeNodes_of_isActive hon
      dsimp only
      split
      · rename_i hlimit
        exact ⟨1, by rw [Function.iterate_one, next, hdue]; exact if_pos hlimit⟩
      · rename_i hlimit
        rw [hnode]
        dsimp only
        refine exists_iterate_trans (exists_next_due hx hdue hnode hlimit (hg n (List.mem_of_mem_filter hn)))
          (exists_iterate_succ ?_)
        cases (runRange x ctx.maxDepth ctx.maxDepth ⟨ctx.block, n.start, n.stop, []⟩).run
            { memory := p.memory } with
        | error fault m => exact ⟨0, rfl⟩
        | ok v m =>
          refine ih (p.advance g ctx n.id rest m) (hcount.cons hon (Nat.lt_of_not_le hlimit)) ?_
          change (n.id :: p.executed).length + fuel = _
          rw [List.length_cons, ← hfuel]
          omega

end Moment

/-! ### Whole runs -/

variable {memory : Memory}

theorem moment_succ (x : Executable) (memory : Memory) (ctx : RunContext) (k : Nat) :
    x.moment memory ctx (k + 1) = (x.moment memory ctx k).next x ctx (x.graphOf ctx.block) :=
  Function.iterate_succ_apply' _ _ _

/-- A run evaluates no statement too often and opens no call too many. -/
theorem within_moment (x : Executable) (memory : Memory) (ctx : RunContext) (k : Nat) :
    Counted (x.graphOf ctx.block) ctx (x.moment memory ctx k).evaluated ∧
      (x.moment memory ctx k).depth ≤ ctx.maxDepth := by
  induction k with
  | zero =>
    change Counted _ _ (Moment.start x memory ctx).evaluated ∧ (Moment.start x memory ctx).depth ≤ _
    unfold Moment.start
    split <;> exact ⟨⟨List.nil_subset _, fun _ => Nat.zero_le _⟩, Nat.zero_le _⟩
  | succ k ih =>
    rw [moment_succ]
    exact Moment.within_next ih.1 ih.2

/-- The statements of a block and all functions jump only forward. -/
structure Executable.ForwardFrom (x : Executable) (block : Nat) : Prop where
  functions : x.Forward
  statements : ∀ s, x.stream? block = some s → ∀ n ∈ s.graph.nodes, s.Forward n.start n.stop

/-- A run comes to its end after finitely many steps. -/
theorem exists_moment_execute (hx : x.ForwardFrom ctx.block) (memory : Memory) : ∃ k,
    x.moment memory ctx k = .ended (execute x memory ctx).1 (execute x memory ctx).2 := by
  unfold execute Executable.moment Moment.start Executable.graphOf
  cases hs : x.stream? ctx.block with
  | none => exact ⟨0, rfl⟩
  | some s =>
    refine Moment.exists_next_choosing hx.functions (fun n hn code hcode => ?_) _ _
      ⟨List.nil_subset _, fun _ => Nat.zero_le _⟩ (Nat.zero_add _)
    obtain rfl : s = code := Option.some.inj (hs.symm.trans hcode)
    exact hx.statements s hs n hn

/-- A run that has ended has the result of the run. -/
theorem execute_of_moment (hx : x.ForwardFrom ctx.block) {k : Nat} {result : Except Fault Execution}
    {memory' : Memory} (h : x.moment memory ctx k = .ended result memory') :
    execute x memory ctx = (result, memory') := by
  obtain ⟨k', hk'⟩ := exists_moment_execute hx memory
  have heq := iterate_unique rfl rfl hk' h
  rw [Moment.ended.injEq] at heq
  exact Prod.ext heq.1 heq.2

/-- A run in which a statement is due that has no evaluation left ends with an update cycle. -/
theorem execute_of_exhausted (hx : x.ForwardFrom ctx.block) {k : Nat} {p : Propagation} {id : Nat}
    {rest : List Nat} (h : x.moment memory ctx k = .choosing p)
    (hdue : p.due (x.graphOf ctx.block) = id :: rest) (hcount : ctx.maxPasses ≤ p.executed.count id) :
    execute x memory ctx = (.error (.updateCycle id ctx.maxPasses), p.memory) := by
  refine execute_of_moment hx (k := k + 1) ?_
  rw [moment_succ, h, Moment.next, hdue]
  exact if_pos hcount

/-- A run that opens another call when as many are open as there may be ends there. -/
theorem execute_of_calls (hx : x.ForwardFrom ctx.block) {k : Nat} {p : Propagation} {id : Nat}
    {rest : List Nat} {f : Frame} {callers : List Frame} {m : Machine}
    (h : x.moment memory ctx k = .evaluating p id rest (.running f callers m)) (hcalls : f.Calls x)
    (hdepth : ctx.maxDepth ≤ callers.length) :
    execute x memory ctx = (.error (.callDepthExceeded ctx.maxDepth), m.memory) := by
  refine execute_of_moment hx (k := k + 2) ?_
  rw [moment_succ, moment_succ, h, Moment.next, Activity.next_of_calls hcalls hdepth]
  rfl

end Runs

end Reflow
