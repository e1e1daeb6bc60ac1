import Reflow.Proofs.Graph.Records
/-!
# Readers through procedures

A statement reads what its own code reads and what the procedures that it uses read, however many
procedures lie between. The search for the readers of a vertex takes as many steps as there are
edges, and these suffice to find all of them.

## Main definitions

* `DependencyGraph.Reaches`: what code uses, directly or through procedures.
* `DependencyGraph.Leads`: the vertices through which a vertex is read, by the edges of any graph.

## Main results

* `DependencyGraph.mem_readersOf`: the readers that the search finds, by the edges of any graph.
* `Sound.mem_readersOf`: every active statement that reads a vertex is among its readers.
* `Sound.reaches_of_mem_readersOf`: every statement among the readers of a vertex reads it.
-/

namespace Reflow

/-- What the code of a statement reads and calls. -/
def GraphNode.uses (n : GraphNode) : List Vertex := n.reads.map .symbol ++ n.calls.map .procedure

/-- What the body of a procedure reads and calls. -/
def ProcedureUses.uses (u : ProcedureUses) : List Vertex :=
  u.reads.map .symbol ++ u.calls.map .procedure

namespace DependencyGraph

variable {g : DependencyGraph}

/-- A vertex is reached from code that uses the vertices in `start`: it is one of them, or it is used
by a procedure that is reached. -/
inductive Reaches (g : DependencyGraph) (start : List Vertex) : Vertex → Prop
  | use {v : Vertex} (h : v ∈ start) : Reaches g start v
  | through {u : ProcedureUses} {v : Vertex} (hu : u ∈ g.procedures)
      (h : Reaches g start (.procedure u.procedure)) (hv : v ∈ u.uses) : Reaches g start v

/-- What one graph reaches, another one reaches too, if it has the same records of the procedures on
the way. -/
theorem Reaches.mono {g' : DependencyGraph} {start : List Vertex} {v : Vertex}
    (h : ∀ u ∈ g.procedures, g.Reaches start (.procedure u.procedure) →
      g'.Reaches start (.procedure u.procedure) → u ∈ g'.procedures)
    (hv : g.Reaches start v) : g'.Reaches start v := by
  induction hv with
  | use hv => exact .use hv
  | through hu hreach hv ih => exact .through (h _ hu hreach ih) ih hv

/-- What the body of a procedure reaches is reached from wherever the procedure is. -/
theorem Reaches.trans {start : List Vertex} {u : ProcedureUses} {v : Vertex} (hu : u ∈ g.procedures)
    (hstart : g.Reaches start (.procedure u.procedure)) (hv : g.Reaches u.uses v) :
    g.Reaches start v := by
  induction hv with
  | use hv => exact .through hu hstart hv
  | through hw _ hv ih => exact .through hw ih hv

namespace Sound

theorem edge_of_node (h : g.Sound) {n : GraphNode} {v : Vertex} (hn : n ∈ g.nodes)
    (hon : n.isActive = true) (hv : v ∈ n.uses) : (⟨v, .expr n.id⟩ : Edge) ∈ g.edges := by
  refine (h.mem_edges _).2 (.inl ⟨n, hn, hon, GraphNode.mem_edges.2 ?_⟩)
  rcases List.mem_append.1 hv with hv | hv
  · obtain ⟨key, hkey, rfl⟩ := List.mem_map.1 hv
    exact .inl ⟨key, hkey, rfl⟩
  · obtain ⟨p, hp, rfl⟩ := List.mem_map.1 hv
    exact .inr (.inl ⟨p, hp, rfl⟩)

/-- A procedure has an edge from all that it uses but itself. -/
theorem edge_of_procedure (h : g.Sound) {u : ProcedureUses} {v : Vertex} (hu : u ∈ g.procedures)
    (hv : v ∈ u.uses) (hne : v ≠ .procedure u.procedure) :
    (⟨v, .procedure u.procedure⟩ : Edge) ∈ g.edges := by
  refine (h.mem_edges _).2 (.inr ⟨u, hu, ProcedureUses.mem_edges.2 ?_⟩)
  rcases List.mem_append.1 hv with hv | hv
  · obtain ⟨key, hkey, rfl⟩ := List.mem_map.1 hv
    exact .inl ⟨key, hkey, rfl⟩
  · obtain ⟨p, hp, rfl⟩ := List.mem_map.1 hv
    exact .inr ⟨p, hp, by rintro rfl; exact hne rfl, rfl⟩

end Sound

/-! ### The search for users -/

theorem mem_successors {v w : Vertex} : w ∈ g.successors v ↔ (⟨v, w⟩ : Edge) ∈ g.edges := by
  unfold successors
  constructor
  · intro hw
    obtain ⟨⟨s, t⟩, he, rfl⟩ := List.mem_map.1 hw
    obtain ⟨he, hs⟩ := List.mem_filter.1 he
    obtain rfl : s = v := by simpa using hs
    simpa using he
  · intro he
    exact List.mem_map.2 ⟨_, List.mem_filter.2 ⟨he, by simp⟩, rfl⟩

/-- Two properties that exclude each other and imply a third one. -/
theorem countP_add_le {α : Type} {p q r : α → Bool} {l : List α} (hp : ∀ a, p a = true → r a = true)
    (hq : ∀ a, q a = true → r a = true) (hpq : ∀ a ∈ l, p a = true → q a = false) :
    l.countP p + l.countP q ≤ l.countP r := by
  induction l with
  | nil => simp
  | cons a rest ih =>
    have hrest := ih fun b hb => hpq b (List.mem_cons_of_mem _ hb)
    have hpa := hp a
    have hqa := hq a
    have hpqa := hpq a List.mem_cons_self
    simp only [List.countP_cons]
    cases h₁ : p a <;> cases h₂ : q a <;> cases h₃ : r a <;> simp_all <;> omega

/-- The procedures in `seen` are closed under use, up to those whose users wait in `queue`. -/
def Closed (g : DependencyGraph) (queue seen : List Vertex) : Prop :=
  ∀ u ∈ seen, u ∈ queue ∨ ∀ w ∈ g.successors u, isProcedure w = true → w ∈ seen

theorem subset_reach {v : Vertex} : ∀ (fuel : Nat) (queue seen : List Vertex), v ∈ seen →
    v ∈ g.reach fuel queue seen
  | 0, queue, seen, h => by
    rw [reach]
    exact h
  | fuel + 1, [], seen, h => by
    rw [reach]
    · exact h
    · simp
  | fuel + 1, u :: queue, seen, h => subset_reach fuel _ _ (List.mem_append_left _ h)

/-- The procedures that are found from a vertex: those that use it and were not seen. -/
def found (g : DependencyGraph) (u : Vertex) (seen : List Vertex) : List Vertex :=
  (g.successors u).filter fun w => isProcedure w ∧ w ∉ seen

theorem mem_found {u w : Vertex} {seen : List Vertex} :
    w ∈ g.found u seen ↔ w ∈ g.successors u ∧ isProcedure w = true ∧ w ∉ seen := by
  rw [found, List.mem_filter, decide_eq_true_eq]

/-- Every vertex that is found uses up the edge by which it is found. -/
theorem length_found_add_le (u : Vertex) (seen : List Vertex) :
    (g.found u seen).length + g.edges.countP (fun e => decide (e.target ∉ seen ++ g.found u seen)) ≤
      g.edges.countP fun e => decide (e.target ∉ seen) := by
  have hlength : (g.found u seen).length = g.edges.countP fun e =>
      decide (e.source = u) && decide (isProcedure e.target ∧ e.target ∉ seen) := by
    rw [found, successors, List.filter_map, List.length_map, List.filter_filter,
      ← List.countP_eq_length_filter]
    refine List.countP_congr fun e _ => ?_
    simp [and_comm]
  rw [hlength]
  refine countP_add_le (fun e he => ?_) (fun e he => ?_) fun e hedge he => ?_
  · simp only [Bool.and_eq_true, decide_eq_true_eq] at he ⊢
    exact he.2.2
  · simp only [decide_eq_true_eq, List.mem_append, not_or] at he ⊢
    exact he.1
  · simp only [Bool.and_eq_true, decide_eq_true_eq] at he
    obtain ⟨rfl, hp, hseen⟩ := he
    have hfresh := mem_found.2 ⟨mem_successors.2 hedge, hp, hseen⟩
    simp [hfresh]

/-- What is found from a waiting vertex waits instead of it. -/
theorem Closed.advance {u : Vertex} {queue seen : List Vertex} (hclosed : g.Closed (u :: queue) seen) :
    g.Closed (queue ++ g.found u seen) (seen ++ g.found u seen) := by
  intro w hw
  rcases List.mem_append.1 hw with hw | hw
  · rcases hclosed w hw with hq | hc
    · rcases List.mem_cons.1 hq with rfl | hq
      · refine .inr fun t ht hp => ?_
        by_cases hseen : t ∈ seen
        · exact List.mem_append_left _ hseen
        · exact List.mem_append_right _ (mem_found.2 ⟨ht, hp, hseen⟩)
      · exact .inl (List.mem_append_left _ hq)
    · exact .inr fun t ht hp => List.mem_append_left _ (hc t ht hp)
  · exact .inl (List.mem_append_right _ hw)

/-- With a step for every waiting vertex and for every edge to a vertex that was not seen, the search
ends with a closed set. -/
theorem closed_reach : ∀ (fuel : Nat) (queue seen : List Vertex),
    queue.length + g.edges.countP (fun e => decide (e.target ∉ seen)) ≤ fuel →
    g.Closed queue seen → g.Closed [] (g.reach fuel queue seen)
  | 0, queue, seen, hfuel, hclosed => by
    rw [reach]
    obtain rfl : queue = [] := List.eq_nil_of_length_eq_zero (by omega)
    exact hclosed
  | fuel + 1, [], seen, hfuel, hclosed => by
    rw [reach]
    · exact hclosed
    · simp
  | fuel + 1, u :: queue, seen, hfuel, hclosed => by
    rw [reach]
    refine closed_reach fuel _ _ ?_ hclosed.advance
    have hcount := g.length_found_add_le u seen
    rw [List.length_cons] at hfuel
    change (queue ++ g.found u seen).length + g.edges.countP
      (fun e => decide (e.target ∉ seen ++ g.found u seen)) ≤ fuel
    rw [List.length_append]
    omega

theorem mem_usersOf_self (g : DependencyGraph) (v : Vertex) : v ∈ g.usersOf v :=
  subset_reach _ _ _ List.mem_cons_self

theorem closed_usersOf (g : DependencyGraph) (v : Vertex) : g.Closed [] (g.usersOf v) := by
  refine closed_reach _ _ _ ?_ fun u hu => .inl hu
  have := List.countP_le_length (p := fun e : Edge => decide (e.target ∉ [v])) (l := g.edges)
  simp only [List.length_singleton]
  omega

/-- The vertices through which a vertex is read: the vertex itself, and the procedures that use one of
them. -/
inductive Leads (g : DependencyGraph) (v : Vertex) : Vertex → Prop
  | self : Leads g v v
  | next {u : Vertex} {p : Nat} (h : Leads g v u) (he : (⟨u, .procedure p⟩ : Edge) ∈ g.edges) :
    Leads g v (.procedure p)

theorem leads_of_mem_reach {v : Vertex} : ∀ (fuel : Nat) (queue seen : List Vertex), queue ⊆ seen →
    (∀ w ∈ seen, g.Leads v w) → ∀ w ∈ g.reach fuel queue seen, g.Leads v w
  | 0, queue, seen, _, hseen => by
    rw [reach]
    exact hseen
  | fuel + 1, [], seen, _, hseen => by
    rw [reach]
    · exact hseen
    · simp
  | fuel + 1, u :: queue, seen, hqueue, hseen => by
    rw [reach]
    refine leads_of_mem_reach fuel _ _ ?_ fun w hw => ?_
    · exact List.append_subset.2 ⟨List.Subset.trans (List.subset_of_cons_subset hqueue)
        (List.subset_append_left _ _), List.subset_append_right _ _⟩
    · rcases List.mem_append.1 hw with hw | hw
      · exact hseen w hw
      · obtain ⟨hw, hp, -⟩ := mem_found.1 hw
        cases w with
        | procedure p => exact .next (hseen u (hqueue List.mem_cons_self)) (mem_successors.1 hw)
        | _ => cases hp

/-- The search finds exactly the vertices through which a vertex is read. -/
theorem mem_usersOf {v w : Vertex} : w ∈ g.usersOf v ↔ g.Leads v w := by
  constructor
  · refine leads_of_mem_reach _ _ _ (List.Subset.refl _) (fun u hu => ?_) w
    exact List.mem_singleton.1 hu ▸ .self
  · intro h
    induction h with
    | self => exact g.mem_usersOf_self v
    | next _ he ih =>
      rcases g.closed_usersOf v _ ih with hnil | hclosed
      · cases hnil
      · exact hclosed _ (mem_successors.2 he) rfl

/-- The readers of a vertex are the active statements to which an edge leads from a vertex through which
it is read. -/
theorem mem_readersOf {n : Nat} {v : Vertex} : n ∈ g.readersOf v ↔
    g.isActive n = true ∧ ∃ u, g.Leads v u ∧ (⟨u, .expr n⟩ : Edge) ∈ g.edges := by
  simp only [readersOf, Ascending.mem_ofList, List.mem_flatMap, List.mem_filterMap, mem_usersOf,
    activeExpr?_eq_some, mem_successors]
  constructor
  · rintro ⟨u, hu, w, he, rfl, hon⟩
    exact ⟨hon, u, hu, he⟩
  · rintro ⟨hon, u, hu, he⟩
    exact ⟨u, hu, _, he, rfl, hon⟩

namespace Sound

/-- Every active statement that reads a vertex, directly or through procedures, is among the readers
that the search finds. -/
theorem mem_readersOf (h : g.Sound) {n : GraphNode} {v : Vertex} (hn : n ∈ g.nodes)
    (hon : n.isActive = true) (hr : g.Reaches n.uses v) : n.id ∈ g.readersOf v := by
  have hfind : ∀ {w}, g.Reaches n.uses w → g.Leads v w →
      ∃ u, g.Leads v u ∧ (⟨u, .expr n.id⟩ : Edge) ∈ g.edges := by
    intro w hw
    induction hw with
    | use hv => exact fun hw => ⟨_, hw, h.edge_of_node hn hon hv⟩
    | @through u w hu _ hv ih =>
      intro hw
      by_cases hself : w = .procedure u.procedure
      · exact ih (hself ▸ hw)
      · exact ih (.next hw (h.edge_of_procedure hu hv hself))
  exact DependencyGraph.mem_readersOf.2 ⟨by rw [h.isActive_of_mem hn, hon], hfind hr .self⟩

/-- Whatever leads to a procedure is used by it. -/
theorem use_of_edge (h : g.Sound) {w : Vertex} {p : Nat}
    (hw : (⟨w, .procedure p⟩ : Edge) ∈ g.edges) :
    ∃ u ∈ g.procedures, u.procedure = p ∧ w ∈ u.uses := by
  obtain ⟨n, -, -, he⟩ | ⟨u, hu, he⟩ := (h.mem_edges _).1 hw
  · obtain ⟨_, -, he⟩ | ⟨_, -, he⟩ | ⟨_, -, he⟩ := GraphNode.mem_edges.1 he <;> cases he
  · obtain ⟨key, hkey, he⟩ | ⟨q, hq, -, he⟩ := ProcedureUses.mem_edges.1 he <;> cases he
    · exact ⟨u, hu, rfl, List.mem_append_left _ (List.mem_map_of_mem hkey)⟩
    · exact ⟨u, hu, rfl, List.mem_append_right _ (List.mem_map_of_mem hq)⟩

/-- Whatever leads to an active statement is used by its code. -/
theorem use_of_edge_to_expr (h : g.Sound) {n : GraphNode} (hn : n ∈ g.nodes) {w : Vertex}
    (hw : (⟨w, .expr n.id⟩ : Edge) ∈ g.edges) : w ∈ n.uses := by
  obtain ⟨k, hk, -, he⟩ | ⟨r, -, he⟩ := (h.mem_edges _).1 hw
  · obtain ⟨key, hkey, he⟩ | ⟨q, hq, he⟩ | ⟨key, -, he⟩ := GraphNode.mem_edges.1 he <;>
      injection he with hsource htarget
    · injection htarget with hid
      obtain rfl := Keyed.eq_of_key_eq h.nodes hn hk hid
      exact List.mem_append_left _ (List.mem_map.2 ⟨key, hkey, hsource.symm⟩)
    · injection htarget with hid
      obtain rfl := Keyed.eq_of_key_eq h.nodes hn hk hid
      exact List.mem_append_right _ (List.mem_map.2 ⟨q, hq, hsource.symm⟩)
    · cases htarget
  · cases ProcedureUses.target_of_mem_edges he

/-- Whatever uses a vertex through which another one is read reaches that one. -/
theorem reaches_of_leads (h : g.Sound) {v w : Vertex} (hw : g.Leads v w) :
    ∀ start, w ∈ start → g.Reaches start v := by
  induction hw with
  | self => exact fun start hstart => .use hstart
  | next _ he ih =>
    intro start hstart
    obtain ⟨r, hr, rfl, huse⟩ := h.use_of_edge he
    exact .trans hr (.use hstart) (ih _ huse)

/-- Every statement among the readers of a vertex reads it, directly or through procedures. -/
theorem reaches_of_mem_readersOf (h : g.Sound) {n : GraphNode} {v : Vertex} (hn : n ∈ g.nodes)
    (hr : n.id ∈ g.readersOf v) : g.Reaches n.uses v := by
  obtain ⟨-, u, hu, he⟩ := DependencyGraph.mem_readersOf.1 hr
  exact h.reaches_of_leads hu _ (h.use_of_edge_to_expr hn he)

end Sound

end DependencyGraph

end Reflow
