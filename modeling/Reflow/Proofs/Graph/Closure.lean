import Mathlib.Order.Bounds.Basic
import Reflow.Proofs.Graph.Answers
/-!
# The least set that a change closes over

A set of statements takes in what a change of some vertices does to it if it holds the readers of these
vertices and, with a statement, the readers of what that assigns. The search for what a change reaches
ends, on graphs with cycles too, and it ends with the least such set. It therefore makes no difference in
which order the vertices are given, nor how often.

## Main definitions

* `DependencyGraph.TakesIn`: a set of statements that is closed under what a change does.
* `DependencyGraph.Spreads`, `DependencyGraph.Searches`: the two searches, run until nothing waits.

## Main results

* `DependencyGraph.isLeast_affectedBy`: what is found is the least set that takes the change in.
* `DependencyGraph.affectedBy_eq_of_mem_iff`, `DependencyGraph.affectedBy_append`: the answer by the set
  of the roots, and for two lists of them.
* `DependencyGraph.exists_spreads`, `DependencyGraph.exists_searches`: both searches end.
-/

namespace Reflow.DependencyGraph

variable {g : DependencyGraph} {roots : List Vertex}

/-- A set holds the readers of the roots and, with a statement, the readers of what it assigns. -/
structure TakesIn (g : DependencyGraph) (roots : List Vertex) (statements : Set Nat) : Prop where
  readers : ∀ v ∈ roots, ∀ e ∈ g.readersOf v, e ∈ statements
  assigned : ∀ e ∈ statements, ∀ n key, g.node? e = some n → n.defines = some key →
    ∀ e' ∈ g.readersOf (.symbol key), e' ∈ statements

theorem definedBy?_eq_some {e : Nat} {v : Vertex} : g.definedBy? e = some v ↔
    ∃ n key, g.node? e = some n ∧ n.defines = some key ∧ v = .symbol key := by
  unfold definedBy?
  constructor
  · intro h
    obtain ⟨key, hkey, rfl⟩ := Option.map_eq_some_iff.1 h
    obtain ⟨n, hn, hdefines⟩ := Option.bind_eq_some_iff.1 hkey
    exact ⟨n, key, hn, hdefines, rfl⟩
  · rintro ⟨n, key, hn, hdefines, rfl⟩
    rw [hn, Option.bind_some, hdefines, Option.map_some]

/-- What a change reaches takes it in. -/
theorem takesIn_affects (g : DependencyGraph) (roots : List Vertex) :
    g.TakesIn roots {e | g.Affects roots e} where
  readers _ hv _ he := .root hv he
  assigned _ he n key hn hkey _ he' :=
    .through he (definedBy?_eq_some.2 ⟨n, key, hn, hkey, rfl⟩) he'

/-- Whatever takes a change in holds all that the change reaches. -/
theorem TakesIn.mem_of_affects {statements : Set Nat} (h : g.TakesIn roots statements) {e : Nat}
    (he : g.Affects roots e) : e ∈ statements := by
  induction he with
  | root hv hn => exact h.readers _ hv _ hn
  | through _ hv hn ih =>
    obtain ⟨n, key, hnode, hkey, rfl⟩ := definedBy?_eq_some.1 hv
    exact h.assigned _ ih n key hnode hkey _ hn

/-- The statements that are found are the least set that takes the change in. -/
theorem isLeast_affectedBy (g : DependencyGraph) (roots : List Vertex) :
    IsLeast {statements : Set Nat | g.TakesIn roots statements} {e | e ∈ g.affectedBy roots} := by
  have hset : {e | e ∈ g.affectedBy roots} = {e | g.Affects roots e} := by
    ext e
    exact mem_affectedBy
  rw [hset]
  exact ⟨g.takesIn_affects roots, fun _ h _ he => h.mem_of_affects he⟩

/-! ### The roots as a set -/

theorem sorted_spread : ∀ (fuel : Nat) (queue seen : List Vertex) {affected : List Nat},
    Keyed.Sorted id affected → Keyed.Sorted id (g.spread fuel queue seen affected)
  | 0, _, _, _, h => by
    rw [spread]
    exact h
  | _ + 1, [], _, _, h => by
    rw [spread]
    · exact h
    · simp
  | fuel + 1, v :: queue, seen, _, h => by
    rw [spread_succ]
    exact sorted_spread fuel _ _ (Ascending.sorted_union h _)

theorem sorted_affectedBy (g : DependencyGraph) (roots : List Vertex) :
    Keyed.Sorted id (g.affectedBy roots) := sorted_spread _ _ _ .nil

theorem Affects.mono {more : List Vertex} (h : roots ⊆ more) {e : Nat} (he : g.Affects roots e) :
    g.Affects more e := by
  induction he with
  | root hv hn => exact .root (h hv) hn
  | through _ hv hn ih => exact .through ih hv hn

/-- The order of the roots and their repetitions make no difference. -/
theorem affectedBy_eq_of_mem_iff {roots' : List Vertex} (h : ∀ v, v ∈ roots' ↔ v ∈ roots) :
    g.affectedBy roots' = g.affectedBy roots := by
  refine Keyed.eq_of_mem_iff (g.sorted_affectedBy _) (g.sorted_affectedBy _) fun e => ?_
  rw [mem_affectedBy, mem_affectedBy]
  exact ⟨Affects.mono fun v => (h v).1, Affects.mono fun v => (h v).2⟩

/-- A change reaches a statement by one of its parts. -/
theorem affects_append {more : List Vertex} {e : Nat} :
    g.Affects (roots ++ more) e ↔ g.Affects roots e ∨ g.Affects more e := by
  constructor
  · intro he
    induction he with
    | root hv hn =>
      rcases List.mem_append.1 hv with hv | hv
      · exact .inl (.root hv hn)
      · exact .inr (.root hv hn)
    | through _ hv hn ih => exact ih.imp (.through · hv hn) (.through · hv hn)
  · rintro (he | he)
    · exact he.mono (List.subset_append_left _ _)
    · exact he.mono (List.subset_append_right _ _)

/-- Roots that are given together reach what each part of them reaches. -/
theorem affectedBy_append (g : DependencyGraph) (roots more : List Vertex) :
    g.affectedBy (roots ++ more) = Ascending.union (g.affectedBy roots) (g.affectedBy more) := by
  refine Keyed.eq_of_mem_iff (g.sorted_affectedBy _)
    (Ascending.sorted_union (g.sorted_affectedBy _) _) fun e => ?_
  rw [Ascending.mem_union, mem_affectedBy, mem_affectedBy, mem_affectedBy, affects_append]

/-! ### The searches end -/

/-- The search for what a change reaches, run for some turns until no vertex waits. -/
inductive Spreads (g : DependencyGraph) :
    Nat → List Vertex → List Vertex → List Nat → List Nat → Prop
  | done {seen : List Vertex} {affected : List Nat} : Spreads g 0 [] seen affected affected
  | turn {turns : Nat} {v : Vertex} {queue seen found : List Vertex} {affected result : List Nat}
      (hfound : found = unseen seen ((g.fresh v affected).filterMap g.definedBy?))
      (h : Spreads g turns (queue ++ found) (seen ++ found)
        (Ascending.union affected (g.fresh v affected)) result) :
      Spreads g (turns + 1) (v :: queue) seen affected result

/-- The search for the users of a vertex, run for some turns until no vertex waits. -/
inductive Searches (g : DependencyGraph) : Nat → List Vertex → List Vertex → List Vertex → Prop
  | done {seen : List Vertex} : Searches g 0 [] seen seen
  | turn {turns : Nat} {v : Vertex} {queue seen result : List Vertex}
      (h : Searches g turns (queue ++ g.found v seen) (seen ++ g.found v seen) result) :
      Searches g (turns + 1) (v :: queue) seen result

/-- With a turn for every waiting vertex and for every symbol that was not seen, the search ends. -/
theorem spreads_spread : ∀ (fuel : Nat) (queue seen : List Vertex) (affected : List Nat),
    queue.length + g.definedSymbols.countP (fun w => decide (w ∉ seen)) ≤ fuel →
    ∃ turns ≤ fuel, g.Spreads turns queue seen affected (g.spread fuel queue seen affected)
  | 0, queue, seen, affected, hfuel => by
    obtain rfl : queue = [] := List.eq_nil_of_length_eq_zero (by omega)
    rw [spread]
    exact ⟨0, Nat.le_refl 0, .done⟩
  | fuel + 1, [], seen, affected, _ => by
    rw [spread]
    · exact ⟨0, Nat.zero_le _, .done⟩
    · simp
  | fuel + 1, v :: queue, seen, affected, hfuel => by
    have hcount := g.length_unseen_add_le v seen affected
    dsimp only [spread_succ] at hcount ⊢
    generalize hfound : unseen seen ((g.fresh v affected).filterMap g.definedBy?) = found at hcount ⊢
    rw [List.length_cons] at hfuel
    obtain ⟨turns, hturns, h⟩ := spreads_spread fuel (queue ++ found) (seen ++ found)
      (Ascending.union affected (g.fresh v affected)) (by rw [List.length_append]; omega)
    exact ⟨turns + 1, Nat.succ_le_succ hturns, .turn hfound.symm h⟩

/-- The search for what a change reaches ends, after a turn for each root and each statement at most,
with what is given as the answer. -/
theorem exists_spreads (g : DependencyGraph) (roots : List Vertex) :
    ∃ turns ≤ roots.length + g.nodes.length + 1,
      g.Spreads turns roots roots [] (g.affectedBy roots) := by
  have hcount : g.definedSymbols.countP (fun w => decide (w ∉ roots)) ≤ g.nodes.length :=
    Nat.le_trans List.countP_le_length (List.length_filterMap_le _ _)
  exact spreads_spread _ _ _ _ (by omega)

/-- With a turn for every waiting vertex and for every edge to a vertex that was not seen, the search
ends. -/
theorem searches_reach : ∀ (fuel : Nat) (queue seen : List Vertex),
    queue.length + g.edges.countP (fun e => decide (e.target ∉ seen)) ≤ fuel →
    ∃ turns ≤ fuel, g.Searches turns queue seen (g.reach fuel queue seen)
  | 0, queue, seen, hfuel => by
    obtain rfl : queue = [] := List.eq_nil_of_length_eq_zero (by omega)
    rw [reach]
    exact ⟨0, Nat.le_refl 0, .done⟩
  | fuel + 1, [], seen, _ => by
    rw [reach]
    · exact ⟨0, Nat.zero_le _, .done⟩
    · simp
  | fuel + 1, v :: queue, seen, hfuel => by
    rw [reach]
    have hcount := g.length_found_add_le v seen
    rw [List.length_cons] at hfuel
    obtain ⟨turns, hturns, h⟩ := searches_reach fuel (queue ++ g.found v seen) (seen ++ g.found v seen)
      (by rw [List.length_append]; omega)
    exact ⟨turns + 1, Nat.succ_le_succ hturns, .turn h⟩

/-- The search for the users of a vertex ends, after a turn for the vertex and each edge at most. -/
theorem exists_searches (g : DependencyGraph) (v : Vertex) :
    ∃ turns ≤ g.edges.length + 1, g.Searches turns [v] [v] (g.usersOf v) := by
  have hcount := List.countP_le_length (p := fun e : Edge => decide (e.target ∉ [v])) (l := g.edges)
  exact searches_reach _ _ _ (by rw [List.length_singleton]; omega)

/-- Whatever the edges are, what a change may reach is the least set of statements that holds the readers
of the roots and, with a statement, the readers of what it assigns. It is the same for the same roots in
any order and any number, and for two lists of roots it is the union of what they reach. The search for it
ends after a turn for each root and each statement at most, and the search within every turn after one for
each edge at most; neither needs the graph to be without cycles. -/
theorem affectedBy_least_closed (g : DependencyGraph) (roots : List Vertex) :
    IsLeast {statements : Set Nat | g.TakesIn roots statements} {e | e ∈ g.affectedBy roots} ∧
    (∀ roots', (∀ v, v ∈ roots' ↔ v ∈ roots) → g.affectedBy roots' = g.affectedBy roots) ∧
    (∀ more,
      g.affectedBy (roots ++ more) = Ascending.union (g.affectedBy roots) (g.affectedBy more) ∧
      ∀ e, e ∈ g.affectedBy (roots ++ more) ↔ e ∈ g.affectedBy roots ∨ e ∈ g.affectedBy more) ∧
    (∃ turns ≤ roots.length + g.nodes.length + 1,
      g.Spreads turns roots roots [] (g.affectedBy roots)) ∧
    ∀ v, ∃ turns ≤ g.edges.length + 1, g.Searches turns [v] [v] (g.usersOf v) := by
  refine ⟨g.isLeast_affectedBy roots, fun roots' h => affectedBy_eq_of_mem_iff h, fun more => ?_,
    g.exists_spreads roots, g.exists_searches⟩
  have happend := g.affectedBy_append roots more
  refine ⟨happend, fun e => ?_⟩
  rw [happend, Ascending.mem_union]

/-- Three statements assign the globals that the next one reads, in a circle and through two procedures
that call each other: a change of one global reaches all of them, and giving it twice makes no
difference. -/
theorem affectedBy_least_closed_circle :
    let g : DependencyGraph := ofRecords
      [{ id := 0, defines := some ⟨0, 0⟩, reads := [⟨0, 2⟩] },
        { id := 1, defines := some ⟨0, 1⟩, calls := [0] },
        { id := 2, defines := some ⟨0, 2⟩, reads := [⟨0, 1⟩, ⟨0, 2⟩] }]
      [⟨0, [], [1]⟩, ⟨1, [⟨0, 0⟩], [0]⟩]
    g.affectedBy [.symbol ⟨0, 0⟩] = [0, 1, 2] ∧
      g.affectedBy [.symbol ⟨0, 0⟩, .symbol ⟨0, 0⟩] = g.affectedBy [.symbol ⟨0, 0⟩] := by
  intro g
  refine ⟨by decide, (affectedBy_least_closed g [.symbol ⟨0, 0⟩]).2.1 _ fun v => ?_⟩
  simp

end Reflow.DependencyGraph
