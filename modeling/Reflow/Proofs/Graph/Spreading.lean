import Mathlib.Data.List.Nodup
import Mathlib.Data.List.Perm.Subperm
import Reflow.Proofs.Graph.Readers
/-!
# What a change may reach

A change of some vertices reaches the statements that read them, and through the globals that these
assign it reaches further statements. The search for them takes one step for each root and one for
each statement at most, and these suffice to find all of them and nothing else.

## Main definitions

* `DependencyGraph.Affects`: what a change of some vertices reaches.

## Main results

* `DependencyGraph.mem_affectedBy`: the search finds exactly what the change reaches.
-/

namespace Reflow.DependencyGraph

variable {g : DependencyGraph} {roots : List Vertex}

/-- A change of the roots reaches a statement: it reads a root, or it reads what a statement assigns
that the change reaches. -/
inductive Affects (g : DependencyGraph) (roots : List Vertex) : Nat → Prop
  | root {v : Vertex} {n : Nat} (hv : v ∈ roots) (hn : n ∈ g.readersOf v) : Affects g roots n
  | through {m n : Nat} {v : Vertex} (hm : Affects g roots m) (hv : g.definedBy? m = some v)
      (hn : n ∈ g.readersOf v) : Affects g roots n

/-- What the global of a reached statement reaches is reached. -/
theorem Affects.trans {m n : Nat} {v : Vertex} (hm : g.Affects roots m)
    (hv : g.definedBy? m = some v) (hn : g.Affects [v] n) : g.Affects roots n := by
  induction hn with
  | root hw hn => exact .through hm (List.mem_singleton.1 hw ▸ hv) hn
  | through _ hw hn ih => exact .through ih hw hn

/-! ### The search -/

/-- The readers of a vertex that were not reached before. -/
def fresh (g : DependencyGraph) (v : Vertex) (affected : List Nat) : List Nat :=
  (g.readersOf v).filter (· ∉ affected)

/-- Some vertices, each once, without those seen before. -/
def unseen (seen vs : List Vertex) : List Vertex :=
  vs.foldl (fun found w => if w ∈ seen ∨ w ∈ found then found else found ++ [w]) []

theorem spread_succ (fuel : Nat) (v : Vertex) (queue seen : List Vertex) (affected : List Nat) :
    g.spread (fuel + 1) (v :: queue) seen affected =
      let found := unseen seen ((g.fresh v affected).filterMap g.definedBy?)
      g.spread fuel (queue ++ found) (seen ++ found)
        (Ascending.union affected (g.fresh v affected)) := rfl

theorem mem_fresh {v : Vertex} {affected : List Nat} {n : Nat} :
    n ∈ g.fresh v affected ↔ n ∈ g.readersOf v ∧ n ∉ affected := by
  rw [fresh, List.mem_filter, decide_eq_true_eq]

/-- What the search finds at one vertex is new, each vertex once. -/
theorem unseen_spec (seen vs : List Vertex) :
    (unseen seen vs).Nodup ∧ ∀ w, w ∈ unseen seen vs ↔ w ∈ vs ∧ w ∉ seen := by
  have hfold : ∀ (vs found : List Vertex), found.Nodup →
      (vs.foldl (fun found w => if w ∈ seen ∨ w ∈ found then found else found ++ [w]) found).Nodup ∧
      ∀ w, w ∈ vs.foldl (fun found w => if w ∈ seen ∨ w ∈ found then found else found ++ [w]) found ↔
        w ∈ found ∨ w ∈ vs ∧ w ∉ seen := by
    intro vs
    induction vs with
    | nil => exact fun found hfound => ⟨hfound, by simp⟩
    | cons v rest ih =>
      intro found hfound
      rw [List.foldl_cons]
      by_cases hv : v ∈ seen ∨ v ∈ found
      · rw [if_pos hv]
        obtain ⟨hnodup, hmem⟩ := ih found hfound
        refine ⟨hnodup, fun w => (hmem w).trans ?_⟩
        by_cases hw : w = v
        · subst hw
          rcases hv with hv | hv <;> simp [hv]
        · simp [hw]
      · rw [if_neg hv]
        obtain ⟨hseen, hold⟩ := not_or.1 hv
        obtain ⟨hnodup, hmem⟩ := ih (found ++ [v])
          (List.concat_eq_append ▸ List.Nodup.concat hold hfound)
        refine ⟨hnodup, fun w => (hmem w).trans ?_⟩
        by_cases hw : w = v
        · subst hw
          simp [hseen]
        · simp [hw]
  simpa [unseen] using hfold vs [] List.nodup_nil

theorem mem_unseen {seen vs : List Vertex} {w : Vertex} :
    w ∈ unseen seen vs ↔ w ∈ vs ∧ w ∉ seen := (unseen_spec seen vs).2 w

/-- The symbols that statements assign. -/
def definedSymbols (g : DependencyGraph) : List Vertex :=
  g.nodes.filterMap fun n => n.defines.map .symbol

theorem mem_definedSymbols {n : Nat} {v : Vertex} (h : g.definedBy? n = some v) :
    v ∈ g.definedSymbols := by
  obtain ⟨key, hkey, rfl⟩ := Option.map_eq_some_iff.1 h
  obtain ⟨node, hnode, hdefines⟩ := Option.bind_eq_some_iff.1 hkey
  exact List.mem_filterMap.2 ⟨node, List.mem_of_find?_eq_some hnode, by rw [hdefines]; rfl⟩

/-- Every vertex that is found uses up a symbol that was not seen. -/
theorem length_unseen_add_le (v : Vertex) (seen : List Vertex) (affected : List Nat) :
    let found := unseen seen ((g.fresh v affected).filterMap g.definedBy?)
    found.length + g.definedSymbols.countP (fun w => decide (w ∉ seen ++ found)) ≤
      g.definedSymbols.countP fun w => decide (w ∉ seen) := by
  intro found
  have hmem : ∀ w ∈ found, w ∈ g.definedSymbols ∧ w ∉ seen := by
    intro w hw
    obtain ⟨hw, hseen⟩ := mem_unseen.1 hw
    obtain ⟨n, -, hn⟩ := List.mem_filterMap.1 hw
    exact ⟨mem_definedSymbols hn, hseen⟩
  have hlength : found.length ≤ g.definedSymbols.countP fun w => decide (w ∈ found) := by
    rw [List.countP_eq_length_filter]
    refine ((unseen_spec seen _).1.subperm fun w hw => ?_).length_le
    exact List.mem_filter.2 ⟨(hmem w hw).1, by simpa using hw⟩
  refine Nat.le_trans (Nat.add_le_add_right hlength _) ?_
  refine countP_add_le (fun w hw => ?_) (fun w hw => ?_) fun w _ hw => ?_
  · simpa using (hmem w (by simpa using hw)).2
  · simp only [decide_eq_true_eq, List.mem_append, not_or] at hw ⊢
    exact hw.1
  · simp only [decide_eq_true_eq] at hw
    simp [hw]

/-! ### The search is complete -/

/-- Everything reached is recorded, up to what the vertices in `queue` reach. -/
structure Explored (g : DependencyGraph) (queue seen : List Vertex) (affected : List Nat) : Prop where
  readers : ∀ v ∈ seen, v ∈ queue ∨ ∀ n ∈ g.readersOf v, n ∈ affected
  symbols : ∀ n ∈ affected, ∀ v, g.definedBy? n = some v → v ∈ seen

/-- What is found at a waiting vertex waits instead of it. -/
theorem Explored.advance {v : Vertex} {queue seen : List Vertex} {affected : List Nat}
    (h : g.Explored (v :: queue) seen affected) :
    let found := unseen seen ((g.fresh v affected).filterMap g.definedBy?)
    g.Explored (queue ++ found) (seen ++ found)
      (Ascending.union affected (g.fresh v affected)) := by
  intro found
  constructor
  · intro w hw
    rcases List.mem_append.1 hw with hw | hw
    · rcases h.readers w hw with hwait | hdone
      · rcases List.mem_cons.1 hwait with rfl | hwait
        · refine .inr fun n hn => Ascending.mem_union.2 ?_
          by_cases hold : n ∈ affected
          · exact .inl hold
          · exact .inr (mem_fresh.2 ⟨hn, hold⟩)
        · exact .inl (List.mem_append_left _ hwait)
      · exact .inr fun n hn => Ascending.mem_union.2 (.inl (hdone n hn))
    · exact .inl (List.mem_append_right _ hw)
  · intro n hn w hw
    rcases Ascending.mem_union.1 hn with hn | hn
    · exact List.mem_append_left _ (h.symbols n hn w hw)
    · by_cases hseen : w ∈ seen
      · exact List.mem_append_left _ hseen
      · exact List.mem_append_right _ (mem_unseen.2 ⟨List.mem_filterMap.2 ⟨n, hn, hw⟩, hseen⟩)

/-- With a step for every waiting vertex and for every symbol that was not seen, the search ends with
everything recorded; all that it has seen before, it has seen at the end. -/
theorem explored_spread : ∀ (fuel : Nat) (queue seen : List Vertex) (affected : List Nat),
    queue.length + g.definedSymbols.countP (fun w => decide (w ∉ seen)) ≤ fuel →
    g.Explored queue seen affected →
    ∃ seen', seen ⊆ seen' ∧ g.Explored [] seen' (g.spread fuel queue seen affected)
  | 0, queue, seen, affected, hfuel, h => by
    obtain rfl : queue = [] := List.eq_nil_of_length_eq_zero (by omega)
    rw [spread]
    exact ⟨seen, List.Subset.refl _, h⟩
  | fuel + 1, [], seen, affected, _, h => by
    rw [spread]
    · exact ⟨seen, List.Subset.refl _, h⟩
    · simp
  | fuel + 1, v :: queue, seen, affected, hfuel, h => by
    rw [spread_succ]
    have hcount := g.length_unseen_add_le v seen affected
    rw [List.length_cons] at hfuel
    obtain ⟨seen', hsub, h'⟩ := explored_spread fuel _ _ _
      (by rw [List.length_append]; dsimp only at hcount; omega) h.advance
    exact ⟨seen', List.Subset.trans (List.subset_append_left _ _) hsub, h'⟩

theorem Affects.mem_affectedBy {n : Nat} (h : g.Affects roots n) : n ∈ g.affectedBy roots := by
  have hcount : g.definedSymbols.countP (fun w => decide (w ∉ roots)) ≤ g.nodes.length :=
    Nat.le_trans List.countP_le_length (List.length_filterMap_le _ _)
  obtain ⟨seen, hroots, hexplored⟩ := g.explored_spread (roots.length + g.nodes.length + 1) roots
    roots [] (by omega) ⟨fun v hv => .inl hv, fun _ hn => by cases hn⟩
  have hall : ∀ v ∈ seen, ∀ n ∈ g.readersOf v, n ∈ g.affectedBy roots := fun v hv =>
    (hexplored.readers v hv).resolve_left List.not_mem_nil
  induction h with
  | root hv hn => exact hall _ (hroots hv) _ hn
  | through _ hv hn ih => exact hall _ (hexplored.symbols _ ih _ hv) _ hn

/-! ### The search is sound -/

/-- The vertex is a root, or a statement assigns it that the change reaches. -/
def Changed (g : DependencyGraph) (roots : List Vertex) (v : Vertex) : Prop :=
  v ∈ roots ∨ ∃ m, g.Affects roots m ∧ g.definedBy? m = some v

theorem Changed.affects {v : Vertex} (h : g.Changed roots v) {n : Nat} (hn : n ∈ g.readersOf v) :
    g.Affects roots n := by
  obtain hv | ⟨m, hm, hv⟩ := h
  · exact .root hv hn
  · exact .through hm hv hn

theorem affects_of_mem_spread : ∀ (fuel : Nat) (queue seen : List Vertex) (affected : List Nat),
    (∀ v ∈ queue, g.Changed roots v) → (∀ n ∈ affected, g.Affects roots n) →
    ∀ n ∈ g.spread fuel queue seen affected, g.Affects roots n
  | 0, queue, seen, affected, _, h => by
    rw [spread]
    exact h
  | fuel + 1, [], seen, affected, _, h => by
    rw [spread]
    · exact h
    · simp
  | fuel + 1, v :: queue, seen, affected, hqueue, h => by
    rw [spread_succ]
    have hfresh : ∀ n ∈ g.fresh v affected, g.Affects roots n := fun n hn =>
      (hqueue v List.mem_cons_self).affects (mem_fresh.1 hn).1
    refine affects_of_mem_spread fuel _ _ _ (fun w hw => ?_) fun n hn => ?_
    · rcases List.mem_append.1 hw with hw | hw
      · exact hqueue w (List.mem_cons_of_mem _ hw)
      · obtain ⟨n, hn, hdefined⟩ := List.mem_filterMap.1 (mem_unseen.1 hw).1
        exact .inr ⟨n, hfresh n hn, hdefined⟩
    · exact (Ascending.mem_union.1 hn).elim (h n) (hfresh n)

/-- The search finds exactly the statements that a change of the roots reaches. -/
theorem mem_affectedBy {n : Nat} : n ∈ g.affectedBy roots ↔ g.Affects roots n :=
  ⟨affects_of_mem_spread _ _ _ _ (fun _ hv => .inl hv) (fun _ hn => by cases hn) n,
    Affects.mem_affectedBy⟩

end Reflow.DependencyGraph
