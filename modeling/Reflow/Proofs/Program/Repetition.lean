import Reflow.Proofs.Code.Straight
import Reflow.Proofs.Graph.Precedence
import Reflow.Proofs.Graph.Worklist
import Reflow.Proofs.Program.Settling
/-!
# Runs of acyclic programs

A run of a program whose statements do not reach themselves takes each statement at most twice as often
for every late statement that there is. If the limit allows for that, then the run finds no update cycle.

## Main definitions

* `Propagation.Within`: a run under way that is within the limit.

## Main results

* `Sound.within_advance`: one statement of a run.
* `Sound.execute_ne_updateCycle`: a whole run.
-/

namespace Reflow

/-- The length of a list of some numbers, counted number by number. -/
theorem length_eq_sum_count {ids l : List Nat} (hsub : l ⊆ ids) :
    l.length = ∑ a ∈ ids.toFinset, l.count a := by
  have hmem : ∀ a ∈ (l : Multiset Nat), a ∈ ids.toFinset := fun a ha => List.mem_toFinset.2 (hsub ha)
  simpa only [Multiset.coe_card, Multiset.coe_count] using (Multiset.sum_count_eq_card hmem).symm

theorem sum_const_le (ids : List Nat) (k : Nat) : ∑ _a ∈ ids.toFinset, k ≤ ids.length * k := by
  rw [Finset.sum_const_nat fun _ _ => rfl]
  exact Nat.mul_le_mul_right k (List.toFinset_card_le ids)

/-- A list of some numbers, each of them `k` times at most. -/
theorem length_le_of_count {ids l : List Nat} {k : Nat} (hsub : l ⊆ ids) (hle : ∀ n, l.count n ≤ k) :
    l.length ≤ ids.length * k := by
  rw [length_eq_sum_count hsub]
  exact (Finset.sum_le_sum fun a _ => hle a).trans (sum_const_le ids k)

/-- A list of some numbers, each of them `k` times at most and one of them less often. -/
theorem length_lt_of_count {ids l : List Nat} {k : Nat} (hsub : l ⊆ ids) (hle : ∀ n, l.count n ≤ k)
    (hlt : ∃ n ∈ ids, l.count n < k) : l.length < ids.length * k := by
  obtain ⟨n, hn, hcount⟩ := hlt
  rw [length_eq_sum_count hsub]
  exact (Finset.sum_lt_sum (fun a _ => hle a) ⟨n, List.mem_toFinset.2 hn, hcount⟩).trans_le
    (sum_const_le ids k)

/-! ### One statement -/

namespace Propagation

/-- The run is within the limit: late statements account for all repetitions, only statements of the
program have run, and the rest of the evaluations that the limit allows is `fuel`. -/
structure Within (g : DependencyGraph) (limit fuel : Nat) (p : Propagation) : Prop where
  tallied : g.Tallied p.worklist p.executed
  known : p.executed ⊆ g.nodes.map (·.id)
  left : p.executed.length + fuel = g.nodes.length * limit

end Propagation

namespace CompileState

variable {s : CompileState} {ctx : RunContext} {n : GraphNode}

theorem changed_storeValue {slot : Nat} {v : Value} {m m' : Machine}
    (hr : (storeValue slot v).run m = .ok () m') :
    m'.changed = m.changed ∨ m'.changed = m.changed ++ [slot] := by
  obtain ⟨current, hcurrent⟩ := allocated_of_storeValue hr
  rw [run_storeValue hcurrent] at hr
  split at hr <;> cases hr
  · exact .inl rfl
  · exact .inr rfl

/-- The dependency graph says what a statement assigns. -/
theorem Sound.definedBy?_eq (h : s.Sound) (hn : n ∈ s.graph.nodes) {slot : Nat} {σ : Naming} {e : Expr}
    (hassigns : s.Assigns n slot σ e) :
    s.graph.definedBy? n.id = some (.symbol (.global slot)) := by
  rw [DependencyGraph.definedBy?, h.graph.node?_eq_some.2 ⟨hn, rfl⟩, Option.bind_some,
    hassigns.defines]
  rfl

/-- A statement changes at most its own global. -/
theorem Sound.changed_run (h : s.Sound) {slot : Nat} {σ : Naming} {e : Expr}
    (hn : s.Assigns n slot σ e) {limit depth : Nat} {v : Value} {memory : Memory} {m : Machine}
    (hr : (runRange s.executable limit depth ⟨0, n.start, n.stop, []⟩).run { memory } = .ok v m) :
    m.changed ⊆ [slot] := by
  obtain ⟨u, m₁, -, hgrows, hstore⟩ := h.stored_of_run hn hr
  have hquiet : m₁.changed = [] := hgrows.changed
  rcases changed_storeValue hstore with hchanged | hchanged <;> rw [hchanged, hquiet]
  · exact List.nil_subset _
  · exact List.Subset.refl _

/-- When a statement has run, the run is still within the limit. -/
theorem Sound.within_advance (h : s.Sound) (hblock : ctx.block = 0) (hacyclic : s.graph.Acyclic)
    {limit fuel : Nat} {p : Propagation} (hp : p.Within s.graph limit (fuel + 1))
    (hn : n ∈ s.graph.nodes) (hon : n.isActive = true) {rest : List Nat}
    (hdue : p.due s.graph = n.id :: rest) {m : Machine} {v : Value}
    (hr : (runRange s.executable ctx.maxDepth ctx.maxDepth ⟨0, n.start, n.stop, []⟩).run
      { memory := p.memory } = .ok v m) :
    (p.advance s.graph ctx n.id rest m).Within s.graph limit fuel := by
  have hsuffix := Propagation.suffix_of_due hdue
  have hrest : Keyed.Sorted id rest :=
    hp.tallied.sorted.sublist ((List.suffix_cons _ _).trans hsuffix).sublist
  obtain ⟨slot, σ, e, hassigns⟩ := h.statements n hn
  refine ⟨?_, ?_, ?_⟩
  · refine hp.tallied.advance hacyclic (List.mem_filter.2 ⟨hn, hon⟩) hsuffix
      (Propagation.sorted_worklist_advance hrest m) fun k hk => ?_
    refine (Propagation.mem_worklist_advance.1 hk).imp_right fun ⟨_, slot', hslot', hreader⟩ => ?_
    obtain rfl := List.mem_singleton.1 (h.changed_run hassigns hr hslot')
    rw [hblock] at hreader
    exact ⟨_, h.definedBy?_eq hn hassigns, hreader⟩
  · exact List.cons_subset.2 ⟨List.mem_map_of_mem hn, hp.known⟩
  · have hleft := hp.left
    simp only [Propagation.advance, List.length_cons]
    omega

/-! ### Whole runs -/

theorem Sound.propagate_ne_updateCycle (h : s.Sound) (hblock : ctx.block = 0)
    (hacyclic : s.graph.Acyclic) (hlimit : 2 ^ s.graph.late.length ≤ ctx.maxPasses) (fuel : Nat)
    {p : Propagation} (hp : p.Within s.graph ctx.maxPasses fuel) (node limit : Nat) :
    (propagate s.executable ctx s.graph fuel p).1 ≠ .error (.updateCycle node limit) := by
  -- whatever is due may run once more
  have hdue_lt : ∀ {p : Propagation} {fuel id : Nat} {rest : List Nat},
      p.Within s.graph ctx.maxPasses fuel → p.due s.graph = id :: rest →
      p.executed.count id < ctx.maxPasses := fun {p _ id rest} hp hdue => by
    have hmem := (Propagation.suffix_of_due hdue).subset List.mem_cons_self
    exact (hp.tallied.count_lt hacyclic hmem).trans_le hlimit
  induction fuel generalizing p with
  | zero =>
    unfold propagate
    split
    · exact fun h => by cases h
    · rename_i id rest hdue
      -- all evaluations are used up, but this statement has some left
      obtain ⟨n, hn, rfl, -⟩ := mem_of_due h hdue
      have hlength := length_lt_of_count hp.known
        (fun k => (hp.tallied.count_le_two_pow hacyclic k).trans hlimit)
        ⟨n.id, List.mem_map_of_mem hn, hdue_lt hp hdue⟩
      have hleft := hp.left
      rw [List.length_map] at hlength
      omega
  | succ fuel ih =>
    unfold propagate
    split
    · exact fun h => by cases h
    · rename_i id rest hdue
      obtain ⟨n, hn, rfl, hon⟩ := mem_of_due h hdue
      rw [if_neg (Nat.not_le_of_lt (hdue_lt hp hdue)), h.graph.node?_eq_some.2 ⟨hn, rfl⟩, hblock]
      dsimp only
      split
      · rename_i v m hr
        exact ih (h.within_advance hblock hacyclic hp hn hon hdue hr)
      · rename_i fault m hr
        rintro hfault
        cases hfault
        exact straight_runRange _ _ _ _ _ _ _ _ hr

/-- A run of an acyclic program finds no update cycle, if the limit allows for two runs of a statement
for each late statement that there is. -/
theorem Sound.execute_ne_updateCycle (h : s.Sound) (hblock : ctx.block = 0)
    (hacyclic : s.graph.Acyclic) (hlimit : 2 ^ s.graph.late.length ≤ ctx.maxPasses)
    (memory : Memory) (node limit : Nat) :
    (execute s.executable memory ctx).1 ≠ .error (.updateCycle node limit) := by
  unfold execute
  simp only [hblock, executable_stream?_zero]
  refine h.propagate_ne_updateCycle hblock hacyclic hlimit _ ⟨?_, List.nil_subset _, ?_⟩ node limit
  · exact DependencyGraph.tallied_nil (Ascending.sorted_ofList _)
  · exact Nat.zero_add _

end CompileState

end Reflow
