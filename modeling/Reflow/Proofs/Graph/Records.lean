import Reflow.Image.Dependency
/-!
# Records and edges

The edges of a dependency graph are kept beside the records that they come from. In a sound graph
they are exactly the edges of the active statements and of the defined procedures, so that what the
graph says about readers and writers can be read off the records.

## Main definitions

* `DependencyGraph.Sound`: records in order, and the edges that belong to them.
* `GraphNode.deactivated`: the record of a statement that is no longer active.
* `GraphNode.deactivatedIn`: the record of a statement after some statements were deactivated.

## Main results

* `Sound.insertNode`, `Sound.deactivate`, `Sound.defineProcedure`, `Sound.retireProcedure`: every
  operation on a graph keeps it sound.
* `Sound.isActive_iff`, `Sound.mem_writersOf`: active statements and writers by records.
-/

namespace Reflow

namespace Keyed

variable {α : Type} {key : α → Nat} {as : List α}

/-- A sorted list has one record for each key. -/
theorem eq_of_key_eq (h : Sorted key as) {a b : α} (ha : a ∈ as) (hb : b ∈ as)
    (hk : key a = key b) : a = b := by
  induction as with
  | nil => cases ha
  | cons c rest ih =>
    obtain ⟨hc, hr⟩ := List.pairwise_cons.1 h
    rcases List.mem_cons.1 ha with hac | ha <;> rcases List.mem_cons.1 hb with hbc | hb
    · exact hac.trans hbc.symm
    · have := hc b hb
      rw [hac] at hk
      omega
    · have := hc a ha
      rw [hbc] at hk
      omega
    · exact ih hr ha hb

theorem get?_eq_some (h : Sorted key as) {a : α} {k : Nat} :
    get? key k as = some a ↔ a ∈ as ∧ key a = k := by
  constructor
  · intro hg
    exact ⟨List.mem_of_find?_eq_some hg, by simpa using List.find?_some hg⟩
  · rintro ⟨ha, rfl⟩
    cases hg : get? key (key a) as with
    | none => exact absurd (List.find?_eq_none.1 hg a ha) (by simp)
    | some b =>
      have hb : key b = key a := by simpa using List.find?_some hg
      rw [eq_of_key_eq h (List.mem_of_find?_eq_some hg) ha hb]

theorem mem_put_iff (h : Sorted key as) {a b : α} :
    b ∈ put key a as ↔ b = a ∨ b ∈ as ∧ key b ≠ key a := by
  have hs := sorted_put key a h
  rw [← and_iff_left (a := b ∈ put key a as) rfl, ← get?_eq_some hs, get?_put key a (key b) h]
  split
  · rename_i hk
    simp [hk, eq_comm]
  · rename_i hk
    rw [get?_eq_some h]
    constructor
    · rintro ⟨hb, -⟩
      exact .inr ⟨hb, Ne.symm hk⟩
    · rintro (rfl | ⟨hb, -⟩)
      · exact absurd rfl hk
      · exact ⟨hb, rfl⟩

/-- A record whose key is the greatest comes last. -/
theorem put_eq_concat {a : α} (h : ∀ b ∈ as, key b < key a) : put key a as = as ++ [a] := by
  induction as with
  | nil => rfl
  | cons b rest ih =>
    have hb := h b List.mem_cons_self
    have hlt : ¬ key a < key b := by omega
    have hne : key a ≠ key b := by omega
    rw [put, if_neg hlt, if_neg hne, ih fun c hc => h c (List.mem_cons_of_mem _ hc)]
    rfl

section Map

variable {f : α → α}

theorem put_map (hf : ∀ a, key (f a) = key a) (a : α) (as : List α) :
    put key (f a) (as.map f) = (put key a as).map f := by
  induction as with
  | nil => rfl
  | cons b rest ih =>
    simp only [List.map_cons, put, hf]
    split
    · rfl
    · split
      · rfl
      · rw [List.map_cons, ih]

theorem erase_map (hf : ∀ a, key (f a) = key a) (k : Nat) (as : List α) :
    erase key k (as.map f) = (erase key k as).map f := by
  simp only [erase, List.filter_map, Function.comp_def, hf]

theorem get?_map (hf : ∀ a, key (f a) = key a) (k : Nat) (as : List α) :
    get? key k (as.map f) = (get? key k as).map f := by
  simp only [get?, List.find?_map, Function.comp_def, hf]

end Map

end Keyed

theorem GraphNode.mem_edges {n : GraphNode} {e : Edge} : e ∈ n.edges ↔
    (∃ key ∈ n.reads, e = ⟨.symbol key, .expr n.id⟩) ∨
    (∃ p ∈ n.calls, e = ⟨.procedure p, .expr n.id⟩) ∨
    ∃ key, n.defines = some key ∧ e = ⟨.expr n.id, .symbol key⟩ := by
  simp [GraphNode.edges, @eq_comm _ e]

theorem ProcedureUses.mem_edges {u : ProcedureUses} {e : Edge} : e ∈ u.edges ↔
    (∃ key ∈ u.reads, e = ⟨.symbol key, .procedure u.procedure⟩) ∨
    ∃ p ∈ u.calls, p ≠ u.procedure ∧ e = ⟨.procedure p, .procedure u.procedure⟩ := by
  simp [ProcedureUses.edges, @eq_comm _ e, and_assoc]

theorem ProcedureUses.target_of_mem_edges {u : ProcedureUses} {e : Edge} (h : e ∈ u.edges) :
    e.target = .procedure u.procedure := by
  obtain ⟨key, -, rfl⟩ | ⟨p, -, -, rfl⟩ := ProcedureUses.mem_edges.1 h <;> rfl

/-- The record of a statement that is no longer active. -/
def GraphNode.deactivated (n : GraphNode) : GraphNode := { n with isActive := false }

namespace GraphNode

/-- The record of a statement after the statements in the list were deactivated. -/
def deactivatedIn (ids : List Nat) (n : GraphNode) : GraphNode :=
  if n.id ∈ ids then n.deactivated else n

variable (ids : List Nat) (n : GraphNode)

@[simp] theorem deactivatedIn_id : (n.deactivatedIn ids).id = n.id := by
  unfold deactivatedIn
  split <;> rfl

@[simp] theorem deactivatedIn_defines : (n.deactivatedIn ids).defines = n.defines := by
  unfold deactivatedIn
  split <;> rfl

@[simp] theorem deactivatedIn_owner : (n.deactivatedIn ids).owner = n.owner := by
  unfold deactivatedIn
  split <;> rfl

@[simp] theorem deactivatedIn_start : (n.deactivatedIn ids).start = n.start := by
  unfold deactivatedIn
  split <;> rfl

@[simp] theorem deactivatedIn_stop : (n.deactivatedIn ids).stop = n.stop := by
  unfold deactivatedIn
  split <;> rfl

@[simp] theorem deactivatedIn_nil : n.deactivatedIn [] = n := by
  simp [deactivatedIn]

/-- Deactivating makes nothing active. -/
theorem isActive_of_deactivatedIn {ids : List Nat} {n : GraphNode}
    (hon : (n.deactivatedIn ids).isActive = true) : n.deactivatedIn ids = n ∧ n.id ∉ ids := by
  unfold deactivatedIn at hon ⊢
  split
  · rename_i hid
    rw [if_pos hid] at hon
    cases hon
  · rename_i hid
    exact ⟨rfl, hid⟩

/-- What is not active stays as it is. -/
theorem deactivatedIn_of_not_active {n : GraphNode} (hoff : n.isActive = false) :
    n.deactivatedIn ids = n := by
  unfold deactivatedIn deactivated
  split
  · rw [← hoff]
  · rfl

theorem deactivatedIn_deactivatedIn (more : List Nat) :
    (n.deactivatedIn ids).deactivatedIn more = n.deactivatedIn (ids ++ more) := by
  unfold deactivatedIn
  by_cases hid : n.id ∈ ids
  · simp [hid, deactivated]
  · simp [hid]

end GraphNode

namespace DependencyGraph

variable {g : DependencyGraph}

theorem mem_link {es : List Edge} {e : Edge} : e ∈ (g.link es).edges ↔ e ∈ g.edges ∨ e ∈ es := by
  have hfold : ∀ (more : List Edge) (start : List Edge),
      e ∈ more.foldl (fun es e => if e ∈ es then es else es ++ [e]) start ↔
        e ∈ start ∨ e ∈ more := by
    intro more
    induction more with
    | nil => simp
    | cons d rest ih =>
      intro start
      rw [List.foldl_cons, ih]
      split
      · rename_i hd
        simp only [List.mem_cons]
        constructor
        · rintro (h | h) <;> simp [h]
        · rintro (h | rfl | h)
          · exact .inl h
          · exact .inl hd
          · exact .inr h
      · simp only [List.mem_append, List.mem_cons, List.mem_nil_iff, or_false, or_assoc]
  exact hfold es g.edges

theorem mem_unlink {p : Edge → Bool} {e : Edge} :
    e ∈ (g.unlink p).edges ↔ e ∈ g.edges ∧ p e = false := by
  simp [unlink]

@[simp] theorem link_nodes (es : List Edge) : (g.link es).nodes = g.nodes := rfl

@[simp] theorem link_procedures (es : List Edge) : (g.link es).procedures = g.procedures := rfl

/-- The records are in order, and the edges are those of the active statements and of the defined
procedures. -/
structure Sound (g : DependencyGraph) : Prop where
  nodes : Keyed.Sorted GraphNode.id g.nodes
  procedures : Keyed.Sorted ProcedureUses.procedure g.procedures
  mem_edges : ∀ e, e ∈ g.edges ↔
    (∃ n ∈ g.nodes, n.isActive = true ∧ e ∈ n.edges) ∨ ∃ u ∈ g.procedures, e ∈ u.edges

@[simp] theorem deactivate_procedures (g : DependencyGraph) (id : Nat) :
    (g.deactivate id).procedures = g.procedures := by
  unfold deactivate
  split <;> rfl

@[simp] theorem foldl_deactivate_procedures (ids : List Nat) (g : DependencyGraph) :
    (ids.foldl deactivate g).procedures = g.procedures := by
  induction ids generalizing g with
  | nil => rfl
  | cons id rest ih => rw [List.foldl_cons, ih, deactivate_procedures]

@[simp] theorem insertNode_procedures (g : DependencyGraph) (n : GraphNode) :
    (g.insertNode n).procedures = g.procedures := by
  unfold insertNode
  split <;> rfl

theorem insertNode_nodes (g : DependencyGraph) (n : GraphNode) :
    (g.insertNode n).nodes = Keyed.put GraphNode.id n g.nodes := by
  unfold insertNode
  split <;> rfl

theorem sound_empty : Sound {} :=
  ⟨List.Pairwise.nil, List.Pairwise.nil, fun e => by simp⟩

namespace Sound

theorem node?_eq_some (h : g.Sound) {n : GraphNode} {id : Nat} :
    g.node? id = some n ↔ n ∈ g.nodes ∧ n.id = id := Keyed.get?_eq_some h.nodes

theorem isActive_iff (h : g.Sound) {id : Nat} :
    g.isActive id = true ↔ ∃ n ∈ g.nodes, n.id = id ∧ n.isActive = true := by
  unfold isActive
  rw [Option.any_eq_true]
  constructor
  · rintro ⟨n, hn, hactive⟩
    obtain ⟨hmem, hid⟩ := h.node?_eq_some.1 hn
    exact ⟨n, hmem, hid, hactive⟩
  · rintro ⟨n, hmem, hid, hactive⟩
    exact ⟨n, h.node?_eq_some.2 ⟨hmem, hid⟩, hactive⟩

theorem isActive_of_mem (h : g.Sound) {n : GraphNode} (hn : n ∈ g.nodes) :
    g.isActive n.id = n.isActive := by
  unfold isActive
  rw [h.node?_eq_some.2 ⟨hn, rfl⟩]
  rfl

/-- A statement with a number of its own is recorded. -/
theorem insertNode (h : g.Sound) {n : GraphNode} (hn : ∀ m ∈ g.nodes, m.id ≠ n.id) :
    (g.insertNode n).Sound := by
  have hmem : ∀ m, m ∈ Keyed.put GraphNode.id n g.nodes ↔ m = n ∨ m ∈ g.nodes := by
    intro m
    rw [Keyed.mem_put_iff h.nodes]
    exact or_congr_right (and_iff_left_of_imp (hn m))
  unfold DependencyGraph.insertNode
  split
  · rename_i hactive
    refine ⟨Keyed.sorted_put _ n h.nodes, h.procedures, fun e => ?_⟩
    simp only [mem_link, h.mem_edges, link_nodes, link_procedures, hmem, or_and_right, exists_or,
      exists_eq_left, hactive, true_and]
    constructor
    · rintro ((h | h) | h) <;> simp [h]
    · rintro ((h | h) | h) <;> simp [h]
  · rename_i hactive
    refine ⟨Keyed.sorted_put _ n h.nodes, h.procedures, fun e => ?_⟩
    simp only [h.mem_edges, hmem, or_and_right, exists_or, exists_eq_left, hactive, false_and,
      false_or, Bool.false_eq_true]

theorem mem_insertNode (h : g.Sound) {n m : GraphNode} (hn : ∀ m ∈ g.nodes, m.id ≠ n.id) :
    m ∈ (g.insertNode n).nodes ↔ m = n ∨ m ∈ g.nodes := by
  rw [insertNode_nodes, Keyed.mem_put_iff h.nodes]
  exact or_congr_right (and_iff_left_of_imp (hn m))

/-- After a statement was deactivated, the records are the same up to its own. -/
theorem nodes_deactivate (h : g.Sound) (id : Nat) : (g.deactivate id).nodes =
    g.nodes.map fun n => if n.id = id then n.deactivated else n := by
  unfold DependencyGraph.deactivate
  split
  · rfl
  · rename_i hactive
    -- the record, if there is one, is inactive already
    refine ((List.map_congr_left fun n hn => ?_).trans (List.map_id _)).symm
    split
    · rename_i hid
      have hoff : n.isActive = false := by
        rw [← h.isActive_of_mem hn, hid]
        simpa using hactive
      rw [GraphNode.deactivated, ← hoff]
      rfl
    · rfl

theorem mem_deactivate (h : g.Sound) {id : Nat} {m : GraphNode} :
    m ∈ (g.deactivate id).nodes ↔
      ∃ n ∈ g.nodes, m = if n.id = id then n.deactivated else n := by
  simp [h.nodes_deactivate, eq_comm]

theorem deactivate (h : g.Sound) (id : Nat) : (g.deactivate id).Sound := by
  by_cases hactive : g.isActive id
  · have hsorted : Keyed.Sorted GraphNode.id (g.deactivate id).nodes := by
      rw [h.nodes_deactivate]
      refine List.Pairwise.map _ (fun m n hmn => ?_) h.nodes
      split <;> split <;> exact hmn
    refine ⟨hsorted, ?_, fun e => ?_⟩
    · rw [deactivate_procedures]
      exact h.procedures
    · have hedges : (g.deactivate id).edges =
          (g.unlink fun e => e.source = .expr id ∨ e.target = .expr id).edges := by
        simp [DependencyGraph.deactivate, hactive]
      rw [hedges, mem_unlink, h.mem_edges, deactivate_procedures]
      simp only [decide_eq_false_iff_not, not_or]
      constructor
      · rintro ⟨⟨n, hn, hon, he⟩ | hu, hs, ht⟩
        · -- the edges of the statement itself start or end at it
          have hid : n.id ≠ id := by
            rintro rfl
            obtain ⟨_, -, rfl⟩ | ⟨_, -, rfl⟩ | ⟨_, -, rfl⟩ := GraphNode.mem_edges.1 he
            · exact ht rfl
            · exact ht rfl
            · exact hs rfl
          exact .inl ⟨n, h.mem_deactivate.2 ⟨n, hn, by rw [if_neg hid]⟩, hon, he⟩
        · exact .inr hu
      · rintro (⟨m, hm, hon, he⟩ | ⟨u, hu, he⟩)
        · obtain ⟨n, hn, rfl⟩ := h.mem_deactivate.1 hm
          split at hon
          · cases hon
          · rename_i hid
            rw [if_neg hid] at he
            refine ⟨.inl ⟨n, hn, hon, he⟩, ?_⟩
            obtain ⟨_, -, rfl⟩ | ⟨_, -, rfl⟩ | ⟨_, -, rfl⟩ := GraphNode.mem_edges.1 he <;>
              simp [hid]
        · refine ⟨.inr ⟨u, hu, he⟩, ?_⟩
          obtain ⟨_, -, rfl⟩ | ⟨_, -, -, rfl⟩ := ProcedureUses.mem_edges.1 he <;> simp
  · have heq : g.deactivate id = g := by simp [DependencyGraph.deactivate, hactive]
    rwa [heq]

/-- Several statements are deactivated. -/
theorem foldl_deactivate (h : g.Sound) (ids : List Nat) :
    (ids.foldl DependencyGraph.deactivate g).Sound := by
  induction ids generalizing g with
  | nil => exact h
  | cons id rest ih => exact ih (h.deactivate id)

theorem nodes_foldl_deactivate (h : g.Sound) (ids : List Nat) :
    (ids.foldl DependencyGraph.deactivate g).nodes = g.nodes.map (·.deactivatedIn ids) := by
  induction ids generalizing g with
  | nil => simp
  | cons id rest ih =>
    have hfirst : (g.deactivate id).nodes = g.nodes.map (·.deactivatedIn [id]) := by
      simp [h.nodes_deactivate, GraphNode.deactivatedIn]
    rw [List.foldl_cons, ih (h.deactivate id), hfirst, List.map_map]
    exact List.map_congr_left fun n _ => n.deactivatedIn_deactivatedIn [id] rest

theorem mem_foldl_deactivate (h : g.Sound) {ids : List Nat} {m : GraphNode} :
    m ∈ (ids.foldl DependencyGraph.deactivate g).nodes ↔
      ∃ n ∈ g.nodes, m = if n.id ∈ ids then n.deactivated else n := by
  simp [h.nodes_foldl_deactivate, GraphNode.deactivatedIn, eq_comm]

/-- The statements that are still active after others were deactivated. -/
theorem mem_foldl_deactivate_of_active (h : g.Sound) {ids : List Nat} {n : GraphNode}
    (hon : n.isActive = true) :
    n ∈ (ids.foldl DependencyGraph.deactivate g).nodes ↔ n ∈ g.nodes ∧ n.id ∉ ids := by
  rw [h.mem_foldl_deactivate]
  constructor
  · rintro ⟨m, hm, rfl⟩
    by_cases hid : m.id ∈ ids
    · rw [if_pos hid] at hon
      cases hon
    · rw [if_neg hid]
      exact ⟨hm, hid⟩
  · rintro ⟨hn, hid⟩
    exact ⟨n, hn, by rw [if_neg hid]⟩

/-- A procedure gets a new record in place of the one that it had. -/
theorem defineProcedure (h : g.Sound) (u : ProcedureUses) : (g.defineProcedure u).Sound := by
  refine ⟨h.nodes, Keyed.sorted_put _ u h.procedures, fun e => ?_⟩
  change e ∈ ((g.unlink _).link u.edges).edges ↔ _
  rw [mem_link, mem_unlink, h.mem_edges]
  simp only [decide_eq_false_iff_not]
  constructor
  · rintro (⟨hn | ⟨w, hw, he⟩, ht⟩ | he)
    · exact .inl hn
    · refine .inr ⟨w, (Keyed.mem_put_iff h.procedures).2 (.inr ⟨hw, ?_⟩), he⟩
      rw [ProcedureUses.target_of_mem_edges he] at ht
      exact fun hkey => ht (congrArg Vertex.procedure hkey)
    · exact .inr ⟨u, (Keyed.mem_put_iff h.procedures).2 (.inl rfl), he⟩
  · rintro (⟨n, hn, hon, he⟩ | ⟨w, hw, he⟩)
    · refine .inl ⟨.inl ⟨n, hn, hon, he⟩, ?_⟩
      obtain ⟨_, -, rfl⟩ | ⟨_, -, rfl⟩ | ⟨_, -, rfl⟩ := GraphNode.mem_edges.1 he <;> simp
    · rcases (Keyed.mem_put_iff h.procedures).1 hw with rfl | ⟨hw, hkey⟩
      · exact .inr he
      · refine .inl ⟨.inr ⟨w, hw, he⟩, ?_⟩
        rw [ProcedureUses.target_of_mem_edges he]
        simpa using hkey

/-- The record of a procedure is dropped. -/
theorem retireProcedure (h : g.Sound) (index : Nat) : (g.retireProcedure index).Sound := by
  refine ⟨h.nodes, List.Pairwise.filter _ h.procedures, fun e => ?_⟩
  change e ∈ (g.unlink _).edges ↔ _ ∨ ∃ u ∈ Keyed.erase _ index g.procedures, _
  rw [mem_unlink, h.mem_edges]
  simp only [decide_eq_false_iff_not, Keyed.erase, List.mem_filter, bne_iff_ne]
  constructor
  · rintro ⟨hn | ⟨w, hw, he⟩, ht⟩
    · exact .inl hn
    · refine .inr ⟨w, ⟨hw, ?_⟩, he⟩
      rw [ProcedureUses.target_of_mem_edges he] at ht
      exact fun hkey => ht (congrArg Vertex.procedure hkey)
  · rintro (⟨n, hn, hon, he⟩ | ⟨w, ⟨hw, hkey⟩, he⟩)
    · refine ⟨.inl ⟨n, hn, hon, he⟩, ?_⟩
      obtain ⟨_, -, rfl⟩ | ⟨_, -, rfl⟩ | ⟨_, -, rfl⟩ := GraphNode.mem_edges.1 he <;> simp
    · refine ⟨.inr ⟨w, hw, he⟩, ?_⟩
      rw [ProcedureUses.target_of_mem_edges he]
      simpa using hkey

end Sound

theorem activeExpr?_eq_some {n : Nat} {v : Vertex} :
    g.activeExpr? v = some n ↔ v = .expr n ∧ g.isActive n = true := by
  cases v with
  | expr id =>
    simp only [activeExpr?, Option.ite_none_right_eq_some, Option.some.injEq, Vertex.expr.injEq]
    exact ⟨fun ⟨hon, heq⟩ => ⟨heq, heq ▸ hon⟩, fun ⟨heq, hon⟩ => ⟨heq ▸ hon, heq⟩⟩
  | symbol key => simp [activeExpr?]
  | procedure p => simp [activeExpr?]

/-- The writers of a symbol are the active statements from which an edge leads to it. -/
theorem mem_writersOf {n : Nat} {key : SymbolKey} : n ∈ g.writersOf key ↔
    g.isActive n = true ∧ (⟨.expr n, .symbol key⟩ : Edge) ∈ g.edges := by
  simp only [writersOf, Ascending.mem_ofList, List.mem_filterMap, List.mem_filter, activeExpr?_eq_some,
    decide_eq_true_eq]
  constructor
  · rintro ⟨⟨source, target⟩, ⟨he, rfl⟩, rfl, hon⟩
    exact ⟨hon, he⟩
  · rintro ⟨hon, he⟩
    exact ⟨_, ⟨he, rfl⟩, rfl, hon⟩

/-- The writers of a symbol are the active statements whose record says so. -/
theorem Sound.mem_writersOf (h : g.Sound) {key : SymbolKey} {id : Nat} : id ∈ g.writersOf key ↔
    ∃ n ∈ g.nodes, n.id = id ∧ n.isActive = true ∧ n.defines = some key := by
  rw [DependencyGraph.mem_writersOf]
  constructor
  · rintro ⟨-, he⟩
    obtain ⟨n, hn, hon, hen⟩ | ⟨u, hu, heu⟩ := (h.mem_edges _).1 he
    · obtain ⟨_, -, heq⟩ | ⟨_, -, heq⟩ | ⟨k, hk, heq⟩ := GraphNode.mem_edges.1 hen <;> cases heq
      exact ⟨n, hn, rfl, hon, hk⟩
    · cases ProcedureUses.target_of_mem_edges heu
  · rintro ⟨n, hn, rfl, hon, hdef⟩
    exact ⟨(h.isActive_of_mem hn).trans hon,
      (h.mem_edges _).2 (.inl ⟨n, hn, hon, GraphNode.mem_edges.2 (.inr (.inr ⟨key, hdef, rfl⟩))⟩)⟩

/-- If a symbol has one writer, no other active statement defines the symbol. -/
theorem Sound.eq_of_writersOf (h : g.Sound) {m n : GraphNode} {key : SymbolKey} (hn : n ∈ g.nodes)
    (hwriters : g.writersOf key = [n.id]) (hm : m ∈ g.nodes) (hon : m.isActive = true)
    (hkey : m.defines = some key) : m = n := by
  have hwriter : m.id ∈ g.writersOf key := h.mem_writersOf.2 ⟨m, hm, rfl, hon, hkey⟩
  rw [hwriters, List.mem_singleton] at hwriter
  exact Keyed.eq_of_key_eq h.nodes hm hn hwriter

end DependencyGraph

end Reflow
