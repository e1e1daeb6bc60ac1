import Mathlib.Algebra.BigOperators.Group.Finset.Basic
import Mathlib.Algebra.Order.BigOperators.Group.Finset
import Mathlib.Data.Finset.Max
import Reflow.Proofs.Graph.Spreading
/-!
# How often a statement may run

In an acyclic graph the statements can be put in an order in which every change reaches only later ones.
A run takes them in program order instead, so that a statement runs again whenever a statement
*behind* it in program order changes what it reads. Every such late statement may double the number of
runs of the others, but no more than that.

## Main definitions

* `DependencyGraph.Precedes`, `DependencyGraph.Acyclic`: which statements a statement reaches.
* `DependencyGraph.late`: the statements that are read by a statement before them.
* `DependencyGraph.Tallied`: how often each statement has run, and whether it may run again.

## Main results

* `Tallied.advance`: what one statement of a run does to the tally.
* `Tallied.count_lt`: a statement that waits has run less often than late statements allow.
-/

namespace Reflow

/-- If each number exceeds the sum of those before it by one at most, then one more of them doubles the
sum at most. -/
theorem sum_add_one_le_two_pow {ι : Type} [DecidableEq ι] (r : ι → ι → Prop) [DecidableRel r]
    (htrans : ∀ a b c, r a b → r b c → r a c) (f : ι → Nat) (S : Finset ι)
    (hirrefl : ∀ a ∈ S, ¬ r a a) (h : ∀ a ∈ S, f a ≤ (∑ b ∈ S with r b a, f b) + 1) :
    (∑ a ∈ S, f a) + 1 ≤ 2 ^ S.card := by
  induction hcard : S.card generalizing S with
  | zero => simp [Finset.card_eq_zero.1 hcard]
  | succ k ih =>
    -- a last element of the order has the most elements before it
    obtain ⟨x, hx, hmax⟩ := S.exists_max_image (fun a => (S.filter (r · a)).card)
      (Finset.card_pos.1 (by omega))
    have hlast : ∀ y ∈ S, ¬ r x y := by
      intro y hy hxy
      refine absurd (hmax y hy) (Nat.not_le_of_lt (Finset.card_lt_card ?_))
      refine Finset.ssubset_iff_of_subset (fun b hb => ?_) |>.2 ⟨x, ?_, ?_⟩
      · obtain ⟨hb, hbx⟩ := Finset.mem_filter.1 hb
        exact Finset.mem_filter.2 ⟨hb, htrans b x y hbx hxy⟩
      · exact Finset.mem_filter.2 ⟨hx, hxy⟩
      · exact fun hself => hirrefl x hx (Finset.mem_filter.1 hself).2
    have herase : ∀ a ∈ S, S.filter (r · a) ⊆ S.erase x := by
      intro a ha b hb
      obtain ⟨hb, hba⟩ := Finset.mem_filter.1 hb
      refine Finset.mem_erase.2 ⟨?_, hb⟩
      rintro rfl
      exact hlast a ha hba
    have hrest : (∑ a ∈ S.erase x, f a) + 1 ≤ 2 ^ k := by
      refine ih _ (fun a ha => hirrefl a (Finset.mem_of_mem_erase ha)) (fun a ha => ?_)
        (by rw [Finset.card_erase_of_mem hx]; omega)
      have ha := Finset.mem_of_mem_erase ha
      refine (h a ha).trans (Nat.add_le_add_right (Finset.sum_le_sum_of_subset ?_) 1)
      exact fun b hb => Finset.mem_filter.2 ⟨herase a ha hb, (Finset.mem_filter.1 hb).2⟩
    have hxle : f x ≤ (∑ a ∈ S.erase x, f a) + 1 :=
      (h x hx).trans (Nat.add_le_add_right (Finset.sum_le_sum_of_subset (herase x hx)) 1)
    have hsum := Finset.add_sum_erase S f hx
    rw [Nat.pow_succ]
    omega

namespace DependencyGraph

variable {g : DependencyGraph}

/-- A change of what the one statement assigns reaches the other. -/
def Precedes (g : DependencyGraph) (m n : Nat) : Prop :=
  ∃ v ∈ g.definedBy? m, n ∈ g.affectedBy [v]

instance (g : DependencyGraph) : DecidableRel g.Precedes := fun m n =>
  inferInstanceAs (Decidable (∃ v ∈ g.definedBy? m, n ∈ g.affectedBy [v]))

/-- No active statement is among those that a change of what it assigns reaches. -/
def Acyclic (g : DependencyGraph) : Prop := ∀ n ∈ g.activeNodes, ¬ g.Precedes n.id n.id

instance (g : DependencyGraph) : Decidable g.Acyclic :=
  inferInstanceAs (Decidable (∀ n ∈ g.activeNodes, ¬ g.Precedes n.id n.id))

theorem Precedes.trans {k m n : Nat} (h : g.Precedes k m) (h' : g.Precedes m n) : g.Precedes k n := by
  obtain ⟨v, hv, hm⟩ := h
  obtain ⟨w, hw, hn⟩ := h'
  exact ⟨v, hv, mem_affectedBy.2 ((mem_affectedBy.1 hm).trans hw (mem_affectedBy.1 hn))⟩

theorem precedes_of_reader {m n : Nat} {v : Vertex} (hv : g.definedBy? m = some v)
    (hn : n ∈ g.readersOf v) : g.Precedes m n :=
  ⟨v, hv, mem_affectedBy.2 (.root List.mem_cons_self hn)⟩

/-- The active statements that assign what a statement before them reads. -/
def late (g : DependencyGraph) : List Nat :=
  (g.activeNodes.map (·.id)).filter fun n =>
    (g.definedBy? n).any fun v => (g.readersOf v).any (· < n)

theorem mem_late {n : Nat} : n ∈ g.late ↔ (∃ node ∈ g.activeNodes, node.id = n) ∧
    ∃ v, g.definedBy? n = some v ∧ ∃ m ∈ g.readersOf v, m < n := by
  simp [late, Option.any_eq_true]

/-! ### The tally of a run -/

/-- The statement is in the worklist, or a statement before it is there that reaches it. -/
def Waits (g : DependencyGraph) (worklist : List Nat) (n : Nat) : Prop :=
  ∃ m ∈ worklist, m ≤ n ∧ (m = n ∨ g.Precedes m n)

/-- How often late statements have run that reach the statement. -/
def triggers (g : DependencyGraph) (executed : List Nat) (n : Nat) : Nat :=
  ∑ m ∈ g.late.toFinset with g.Precedes m n, executed.count m

/-- Late statements account for every run of a statement but the first one; this includes the next run of
a statement that waits. -/
structure Tallied (g : DependencyGraph) (worklist executed : List Nat) : Prop where
  sorted : Keyed.Sorted id worklist
  count_le : ∀ n, executed.count n ≤ g.triggers executed n + 1
  count_of_waits : ∀ n, g.Waits worklist n → executed.count n ≤ g.triggers executed n

theorem triggers_le_cons (executed : List Nat) (m n : Nat) :
    g.triggers executed n ≤ g.triggers (m :: executed) n :=
  Finset.sum_le_sum fun _ _ => List.count_le_count_cons

/-- One more run of a late statement counts. -/
theorem triggers_lt_cons (executed : List Nat) {m n : Nat} (hm : m ∈ g.late) (hmn : g.Precedes m n) :
    g.triggers executed n < g.triggers (m :: executed) n :=
  Finset.sum_lt_sum (fun _ _ => List.count_le_count_cons)
    ⟨m, Finset.mem_filter.2 ⟨List.mem_toFinset.2 hm, hmn⟩, by simp⟩

theorem tallied_nil {worklist : List Nat} (h : Keyed.Sorted id worklist) : g.Tallied worklist [] :=
  ⟨h, fun _ => Nat.zero_le _, fun _ _ => Nat.zero_le _⟩

/-- The first active statement of the worklist has run, and some of its readers have joined the rest of the
worklist. -/
theorem Tallied.advance {worklist worklist' executed rest : List Nat} {n : GraphNode}
    (h : g.Tallied worklist executed) (hacyclic : g.Acyclic) (hn : n ∈ g.activeNodes)
    (hsuffix : n.id :: rest <:+ worklist) (hsorted : Keyed.Sorted id worklist')
    (hjoined : ∀ m ∈ worklist', m ∈ rest ∨ ∃ v, g.definedBy? n.id = some v ∧ m ∈ g.readersOf v) :
    g.Tallied worklist' (n.id :: executed) := by
  have hself := hacyclic n hn
  have hhead : n.id ∈ worklist := hsuffix.subset List.mem_cons_self
  have hrest : ∀ m ∈ rest, n.id < m := (List.pairwise_cons.1 (h.sorted.sublist hsuffix.sublist)).1
  -- the statement itself waits no longer: its readers do not reach it
  have hdone : ¬ g.Waits worklist' n.id := by
    rintro ⟨m, hm, hle, hreach⟩
    rcases hjoined m hm with hm | ⟨v, hv, hm⟩
    · exact absurd (hrest m hm) (Nat.not_lt_of_le hle)
    · have hm := precedes_of_reader hv hm
      rcases hreach with rfl | hreach
      · exact hself hm
      · exact hself (hm.trans hreach)
  -- any other statement that waits now did so before, or the statement that has run is late
  have hlate : ∀ k, g.Waits worklist' k → g.Waits worklist k ∨ n.id ∈ g.late ∧ g.Precedes n.id k := by
    rintro k ⟨m, hm, hle, hreach⟩
    rcases hjoined m hm with hm | ⟨v, hv, hm⟩
    · exact .inl ⟨m, hsuffix.subset (List.mem_cons_of_mem _ hm), hle, hreach⟩
    · have hnk : g.Precedes n.id k := by
        rcases hreach with rfl | hreach
        · exact precedes_of_reader hv hm
        · exact (precedes_of_reader hv hm).trans hreach
      by_cases hbefore : n.id ≤ k
      · exact .inl ⟨n.id, hhead, hbefore, .inr hnk⟩
      · exact .inr ⟨mem_late.2 ⟨⟨n, hn, rfl⟩, v, hv, m, hm, by omega⟩, hnk⟩
  have hcount : ∀ k, k ≠ n.id → (n.id :: executed).count k = executed.count k :=
    fun k hk => List.count_cons_of_ne (Ne.symm hk)
  have hmono := fun k => g.triggers_le_cons executed n.id k
  refine ⟨hsorted, fun k => ?_, fun k hwaits => ?_⟩
  · by_cases hk : k = n.id
    · subst hk
      have := h.count_of_waits n.id ⟨n.id, hhead, Nat.le_refl _, .inl rfl⟩
      have := hmono n.id
      rw [List.count_cons_self]
      omega
    · rw [hcount k hk]
      exact (h.count_le k).trans (Nat.add_le_add_right (hmono k) 1)
  · have hk : k ≠ n.id := by
      rintro rfl
      exact hdone hwaits
    rw [hcount k hk]
    rcases hlate k hwaits with hwaits | ⟨hn, hnk⟩
    · exact (h.count_of_waits k hwaits).trans (hmono k)
    · exact (h.count_le k).trans (g.triggers_lt_cons executed hn hnk)

/-- The late statements together have run less often than there are sets of them. -/
theorem Tallied.triggers_lt {worklist executed : List Nat} (h : g.Tallied worklist executed)
    (hacyclic : g.Acyclic) (n : Nat) : g.triggers executed n < 2 ^ g.late.length := by
  have hsum := sum_add_one_le_two_pow g.Precedes (fun _ _ _ => .trans) (executed.count ·)
    g.late.toFinset (fun a ha => ?_) fun a _ => h.count_le a
  · calc g.triggers executed n
        ≤ ∑ m ∈ g.late.toFinset, executed.count m :=
          Finset.sum_le_sum_of_subset (Finset.filter_subset _ _)
      _ < 2 ^ g.late.toFinset.card := hsum
      _ ≤ 2 ^ g.late.length := Nat.pow_le_pow_right (by omega) (List.toFinset_card_le _)
  · obtain ⟨⟨node, hnode, rfl⟩, -⟩ := mem_late.1 (List.mem_toFinset.1 ha)
    exact hacyclic node hnode

theorem Tallied.count_le_two_pow {worklist executed : List Nat} (h : g.Tallied worklist executed)
    (hacyclic : g.Acyclic) (n : Nat) : executed.count n ≤ 2 ^ g.late.length :=
  (h.count_le n).trans (h.triggers_lt hacyclic n)

/-- A statement that waits may run once more. -/
theorem Tallied.count_lt {worklist executed : List Nat} (h : g.Tallied worklist executed)
    (hacyclic : g.Acyclic) {n : Nat} (hn : n ∈ worklist) : executed.count n < 2 ^ g.late.length :=
  (h.count_of_waits n ⟨n, hn, Nat.le_refl _, .inl rfl⟩).trans_lt (h.triggers_lt hacyclic n)

end DependencyGraph

end Reflow
