import Reflow.Proofs.Program.Settling
/-!
# What a compilation queues

A compilation changes functions, deactivates statements and adds others. Each change that a remaining
statement may notice is queued for the next run: a function that is redefined or retired while the
statement reaches it, and a symbol that loses a writer while the statement writes it too. New code need
not be queued, because all of it is pending.

## Main definitions

* `CompileState.Since`: what has changed between two states is queued or pending.
* `CompileState.Tracked`: a step of a compilation all of whose changes are queued or pending.

## Main results

* `tracked_assigned`, `tracked_defined`, `tracked_retire`: the steps of a compilation.
* `Sound.steady_compiled`: after a compilation, a regular statement is consistent or its slot awaits a
  value when the next run starts.
-/

namespace Reflow

namespace CompileState

/-- Between the states `s` and `t` of a program, nothing has changed that a statement of both states
may notice, except for what is queued or pending. -/
structure Since (s t : CompileState) : Prop where
  entry : t.root.stream.entry = s.root.stream.entry
  updates : s.root.stream.updates ⊆ t.root.stream.updates
  /-- New statements have new numbers and new code. -/
  nodes : ∀ n ∈ t.graph.nodes, n.isActive = true → n ∈ s.graph.nodes ∨
    s.nextExpr ≤ n.id ∧ s.root.stream.size ≤ n.start
  /-- A statement reaches unchanged functions only, or one that is queued. -/
  functions : ∀ n ∈ t.graph.nodes, n ∈ s.graph.nodes → n.isActive = true →
    (∀ p, t.graph.Reaches n.uses (.procedure p) → s.Shares t p) ∨
      ∃ q, .procedure q ∈ t.root.stream.updates ∧ t.graph.Reaches n.uses (.procedure q)
  /-- A symbol that has lost a writer but not all of them is queued or has a new writer. -/
  writers : ∀ m ∈ s.graph.nodes, m.isActive = true → m ∉ t.graph.nodes → ∀ key,
    m.defines = some key → ∀ n ∈ t.graph.nodes, n ∈ s.graph.nodes → n.isActive = true →
      n.defines = some key → .symbol key ∈ t.root.stream.updates ∨
        ∃ k ∈ t.graph.nodes, k.isActive = true ∧ k.defines = some key ∧ s.nextExpr ≤ k.id

theorem Extends.size_le {s t : CompileState} (h : s.Extends t) :
    s.root.stream.size ≤ t.root.stream.size := by
  have := h.code.length_le
  simpa [Stream.size] using this

namespace Since

variable {s t u : CompileState}

theorem refl (s : CompileState) : s.Since s :=
  ⟨rfl, fun _ h => h, fun _ hn _ => .inl hn, fun _ _ _ _ => .inl fun p _ => .refl s p,
    fun _ hm _ hgone => absurd hm hgone⟩

/-- An active statement of `t` that is also one of `s` is one of all states in between. -/
theorem mem_between (hs : s.Sound) (hext : s.Extends t) (h : t.Since u) {n : GraphNode}
    (hn : n ∈ u.graph.nodes) (hold : n ∈ s.graph.nodes) (hon : n.isActive = true) :
    n ∈ t.graph.nodes := by
  refine (h.nodes n hn hon).resolve_right fun hnew => ?_
  have := hs.ids n hold
  have := hext.nextExpr
  omega

theorem trans (hs : s.Sound) (hext : s.Extends t) (h : s.Since t) (k : t.Since u) :
    s.Since u where
  entry := k.entry.trans h.entry
  updates := List.Subset.trans h.updates k.updates
  nodes n hn hon := by
    rcases k.nodes n hn hon with hn | ⟨hid, hstart⟩
    · exact h.nodes n hn hon
    · exact .inr ⟨Nat.le_trans hext.nextExpr hid, Nat.le_trans hext.size_le hstart⟩
  functions n hn hold hon := by
    have hmem := k.mem_between hs hext hn hold hon
    rcases k.functions n hn hmem hon with hshares | hqueued
    · -- what `n` reaches is the same in `t` and in `u`
      have hback : ∀ {v}, u.graph.Reaches n.uses v → t.graph.Reaches n.uses v :=
        .mono fun w hw hreach _ => ((hshares _ hreach).record w rfl).2 hw
      have hforth : ∀ {v}, t.graph.Reaches n.uses v → u.graph.Reaches n.uses v :=
        .mono fun w hw _ hreach => ((hshares _ hreach).record w rfl).1 hw
      rcases h.functions n hmem hold hon with hshares' | ⟨q, hq, hreach⟩
      · exact .inl fun p hp => (hshares' p (hback hp)).trans (hshares p hp)
      · exact .inr ⟨q, k.updates hq, hforth hreach⟩
    · exact .inr hqueued
  writers m hm hmon hgone key hkey n hn hold hon hnkey := by
    have hmem := k.mem_between hs hext hn hold hon
    by_cases hstays : m ∈ t.graph.nodes
    · obtain hqueued | ⟨w, hw, hwon, hwkey, hid⟩ :=
        k.writers m hstays hmon hgone key hkey n hn hmem hon hnkey
      · exact .inl hqueued
      · exact .inr ⟨w, hw, hwon, hwkey, Nat.le_trans hext.nextExpr hid⟩
    · obtain hqueued | ⟨w, hw, hwon, hwkey, hid⟩ :=
        h.writers m hm hmon hstays key hkey n hmem hold hon hnkey
      · exact .inl (k.updates hqueued)
      · by_cases hwstays : w ∈ u.graph.nodes
        · exact .inr ⟨w, hwstays, hwon, hwkey, hid⟩
        -- the new writer is gone again, and so there is a newer one
        · obtain hqueued | ⟨w', hw', hwon', hwkey', hid'⟩ :=
            k.writers w hw hwon hwstays key hwkey n hn hmem hon hnkey
          · exact .inl hqueued
          · exact .inr ⟨w', hw', hwon', hwkey', Nat.le_trans hext.nextExpr hid'⟩

end Since

/-- The step keeps a program sound, and all that it changes is queued or pending. -/
def Tracked (s t : CompileState) : Prop := s.Evolves t ∧ (s.Sound → s.Since t)

namespace Tracked

@[refl] theorem refl (s : CompileState) : s.Tracked s := ⟨.refl s, fun _ => .refl s⟩

theorem trans {s t u : CompileState} (h : s.Tracked t) (k : t.Tracked u) : s.Tracked u := by
  refine ⟨h.1.trans k.1, fun hs => ?_⟩
  obtain ⟨ht, hext⟩ := h.1 hs
  exact (h.2 hs).trans hs hext (k.2 ht)

theorem foldl {α : Type} {f : CompileState → α → CompileState} (h : ∀ s a, Tracked s (f s a))
    (l : List α) (s : CompileState) : s.Tracked (l.foldl f s) :=
  List.foldlRecOn l f (.refl s) fun t ht a _ => ht.trans (h t a)

end Tracked

/-! ### Steps that leave statements and functions alone -/

/-- A step that leaves the records and the active procedures as they are. -/
theorem Since.of_graph_eq {s t : CompileState} (hentry : t.root.stream.entry = s.root.stream.entry)
    (hupdates : s.root.stream.updates ⊆ t.root.stream.updates) (hgraph : t.graph = s.graph)
    (hprocedures : ∀ p, s.activeProcedure? p = t.activeProcedure? p) : s.Since t where
  entry := hentry
  updates := hupdates
  nodes n hn _ := .inl (hgraph ▸ hn)
  functions _ _ _ _ := .inl fun p _ => ⟨hprocedures p, fun _ _ => by rw [hgraph]⟩
  writers m hm _ hgone := absurd (hgraph ▸ hm) hgone

/-- Registering names leaves the active procedures as they are. -/
theorem Registers.activeProcedure?_eq {s t : CompileState} (h : s.Registers t) (hs : s.Tabled)
    (p : Nat) : s.activeProcedure? p = t.activeProcedure? p := by
  unfold activeProcedure?
  cases hq : t.root.procedures.procedures[p]? with
  | none =>
    have hnone : s.root.procedures.procedures[p]? = none := by
      have hle := h.procedures.length_le
      rw [List.getElem?_eq_none_iff] at hq ⊢
      omega
    rw [hnone]
  | some q =>
    rcases h.reserved q (List.mem_of_getElem? hq) with hold | hoff
    · obtain ⟨i, hi⟩ := List.mem_iff_getElem?.1 hold
      have hindex := (h.tabled hs).procedures p q hq
      obtain rfl : i = p := (hs.procedures i q hi).symm.trans hindex
      rw [hi]
    · cases hs' : s.root.procedures.procedures[p]? with
      | none => simp [hoff, Option.filter_some]
      | some r =>
        have hr := getElem?_of_isPrefix h.procedures hs'
        rw [hq] at hr
        cases hr
        rfl

theorem tracked_pushUpdate (s : CompileState) (root : UpdateRoot) :
    s.Tracked (s.pushUpdate root) :=
  ⟨s.evolves_pushUpdate root, fun _ =>
    .of_graph_eq rfl (List.subset_append_left _ _) rfl fun _ => rfl⟩

theorem tracked_queueUsers (s : CompileState) (index : Nat) : s.Tracked (s.queueUsers index) := by
  unfold queueUsers
  split
  · rfl
  · exact s.tracked_pushUpdate _

theorem tracked_dynamicFunctions (s : CompileState) (dynamicFunctions : DynamicFunctions) :
    s.Tracked { s with dynamicFunctions } :=
  ⟨evolves_dynamicFunctions s dynamicFunctions, fun _ =>
    .of_graph_eq rfl (fun _ hr => hr) rfl fun _ => rfl⟩

/-! ### Retiring a subtree -/

theorem graph_queueWriters (s : CompileState) (key : SymbolKey) :
    (s.queueWriters key).graph = s.graph := by
  unfold queueWriters
  split <;> rfl

theorem updates_queueWriters (s : CompileState) (key : SymbolKey) :
    s.root.stream.updates ⊆ (s.queueWriters key).root.stream.updates := by
  unfold queueWriters
  split
  · exact fun _ h => h
  · exact List.subset_append_left _ _

theorem updates_foldl_queueWriters (keys : List SymbolKey) (s : CompileState) :
    s.root.stream.updates ⊆ (keys.foldl queueWriters s).root.stream.updates := by
  induction keys generalizing s with
  | nil => exact fun _ h => h
  | cons key rest ih => exact List.Subset.trans (s.updates_queueWriters key) (ih _)

/-- Of the symbols in the list, those with a writer are queued. -/
theorem mem_updates_foldl_queueWriters {keys : List SymbolKey} {s : CompileState} {key : SymbolKey}
    (hkey : key ∈ keys) (hwriter : s.graph.writersOf key ≠ []) :
    .symbol key ∈ (keys.foldl queueWriters s).root.stream.updates := by
  induction keys generalizing s with
  | nil => cases hkey
  | cons first rest ih =>
    rcases List.mem_cons.1 hkey with rfl | hrest
    · refine updates_foldl_queueWriters rest _ ?_
      unfold queueWriters
      by_cases hmem : .symbol key ∈ s.root.stream.updates
      · rw [if_pos (.inr hmem)]
        exact hmem
      · rw [if_neg (by simp [hwriter, hmem])]
        exact List.mem_append_right _ (List.mem_singleton.2 rfl)
    · exact ih hrest (by rwa [graph_queueWriters])

theorem graph_withoutStatements (s : CompileState) (subtree : SubtreeId) :
    (s.withoutStatements subtree).graph =
      ((s.graph.nodesOwnedBy subtree).map GraphNode.id).foldl .deactivate s.graph := by
  obtain ⟨updates, heq⟩ := s.exists_withoutStatements_eq subtree
  rw [heq]
  rfl

/-- Whoever still writes what the deactivated statements assigned is queued. -/
theorem tracked_withoutStatements (s : CompileState) (subtree : SubtreeId) :
    s.Tracked (s.withoutStatements subtree) := by
  refine ⟨s.evolves_withoutStatements subtree, fun h => ?_⟩
  have hgraph := s.graph_withoutStatements subtree
  obtain ⟨updates, heq⟩ := s.exists_withoutStatements_eq subtree
  refine ⟨by rw [heq]; rfl, updates_foldl_queueWriters _ (s.deactivateOwned subtree), fun n hn hon => ?_, fun n _ _ _ => ?_,
    fun m hm hmon hgone key hkey n hn _ hon hnkey => ?_⟩
  · rw [hgraph, h.graph.mem_foldl_deactivate_of_active hon] at hn
    exact .inl hn.1
  · refine .inl fun p _ => ⟨?_, fun u _ => ?_⟩
    · rw [heq]
      rfl
    · rw [hgraph, DependencyGraph.foldl_deactivate_procedures]
  · rw [hgraph] at hn hgone
    have howned : m.id ∈ (s.graph.nodesOwnedBy subtree).map GraphNode.id := by
      by_contra hid
      exact hgone ((h.graph.mem_foldl_deactivate_of_active hmon).2 ⟨hm, hid⟩)
    obtain ⟨m', hm', hid⟩ := List.mem_map.1 howned
    have hmem : m' ∈ s.graph.nodes := List.mem_of_mem_filter (List.mem_of_mem_filter hm')
    obtain rfl := Keyed.eq_of_key_eq h.graph.nodes hmem hm hid
    refine .inl (mem_updates_foldl_queueWriters (List.mem_filterMap.2 ⟨m', hm', hkey⟩) ?_)
    exact List.ne_nil_of_mem
      ((h.graph.foldl_deactivate _).mem_writersOf.2 ⟨n, hn, rfl, hon, hnkey⟩)

/-- Retiring a procedure leaves all others as they are. -/
theorem shares_retireProcedure (s : CompileState) {index p : Nat} (hne : index ≠ p) :
    s.Shares (s.retireProcedure index) p := by
  refine ⟨?_, fun u hu => ?_⟩
  · change _ = ((s.root.procedures.procedures.modify index _)[p]?).filter _
    rw [List.getElem?_modify_ne _ _ hne]
    rfl
  · change _ ↔ u ∈ Keyed.erase ProcedureUses.procedure index s.graph.procedures
    simp [Keyed.erase, hu, Ne.symm hne]

/-- The users of a retired procedure are queued. -/
theorem tracked_retireProcedure (s : CompileState) (index : Nat) :
    s.Tracked (s.retireProcedure index) := by
  refine ⟨s.evolves_retireProcedure index, fun h => ⟨rfl, List.subset_append_left _ _,
    fun n hn _ => .inl hn, fun n _ _ _ => ?_, fun m hm _ hgone => absurd hm hgone⟩⟩
  by_cases hreach : (s.retireProcedure index).graph.Reaches n.uses (.procedure index)
  · exact .inr ⟨index, List.mem_append_right _ (List.mem_singleton.2 rfl), hreach⟩
  · refine .inl fun p hp => s.shares_retireProcedure ?_
    rintro rfl
    exact hreach hp

theorem tracked_retire (s : CompileState) (subtree : SubtreeId) :
    s.Tracked (s.retire subtree) := by
  rw [retire_eq]
  exact (s.tracked_withoutStatements subtree).trans
    (.foldl (fun s (p : Procedure) => s.tracked_retireProcedure p.index) _ _)

/-! ### Adding a statement -/

/-- The statements that a new assignment replaces. -/
def superseded (s : CompileState) (slot : Nat) : List Nat :=
  (s.graph.writersOf (.global slot)).filter fun id => (s.graph.node? id).any (·.owner.isNone)

/-- Only statements that assign the slot are replaced. -/
theorem defines_of_mem_superseded {s : CompileState} (h : s.Sound) {slot : Nat} {m : GraphNode}
    (hm : m ∈ s.graph.nodes) (hid : m.id ∈ s.superseded slot) : m.defines = some (.global slot) := by
  obtain ⟨n, hn, hnm, -, hkey⟩ := h.graph.mem_writersOf.1 (List.mem_of_mem_filter hid)
  rwa [← Keyed.eq_of_key_eq h.graph.nodes hn hm hnm]

section Assignment

variable (s : CompileState) (owner : Option SubtreeId) (target : String) (value : Expr)

/-- Until its code is appended, an assignment only deactivates what it replaces. -/
theorem stream_emitValue : (s.emitValue target value).2.state.root.stream =
    { s.root.stream with
      graph := ((s.declare target).2.superseded (s.declare target).1).foldl .deactivate s.graph } := by
  rw [(registers_emitValue s target value).stream]
  change ({ (s.declare target).2.root.stream with
    graph := ((s.declare target).2.superseded _).foldl _ (s.declare target).2.graph } : Stream) = _
  rw [graph, (s.registers_declare target).stream]
  rfl

theorem graph_emitValue : (s.emitValue target value).2.state.graph =
    ((s.declare target).2.superseded (s.declare target).1).foldl .deactivate s.graph :=
  congrArg Stream.graph (s.stream_emitValue target value)

theorem nextExpr_emitValue : (s.emitValue target value).2.state.nextExpr = s.nextExpr :=
  (registers_emitValue s target value).nextExpr.trans (s.registers_declare target).nextExpr

/-- The statements of the program after an assignment: the new one, and those before it that the
assignment does not replace. -/
theorem mem_assigned (h : s.Sound) {n : GraphNode} (hon : n.isActive = true) :
    n ∈ (s.assigned owner target value).graph.nodes ↔ n = s.assignmentNode owner target value ∨
      n ∈ s.graph.nodes ∧ n.id ∉ (s.declare target).2.superseded (s.declare target).1 := by
  have hgraph := s.graph_emitValue target value
  have hsound : (s.emitValue target value).2.state.graph.Sound :=
    hgraph ▸ h.graph.foldl_deactivate _
  have hfresh : ∀ m ∈ (s.emitValue target value).2.state.graph.nodes,
      m.id ≠ (s.assignmentNode owner target value).id := by
    intro m hm
    rw [hgraph, h.graph.mem_foldl_deactivate] at hm
    obtain ⟨k, hk, rfl⟩ := hm
    have hlt := h.ids k hk
    change _ ≠ (s.emitValue target value).2.state.nextExpr
    rw [nextExpr_emitValue]
    split <;> exact Nat.ne_of_lt hlt
  change n ∈ ((s.emitValue target value).2.state.graph.insertNode _).nodes ↔ _
  rw [hsound.mem_insertNode hfresh, hgraph, h.graph.mem_foldl_deactivate_of_active hon]

/-- An assignment leaves all procedures as they are. -/
theorem shares_assigned (h : s.Sound) (p : Nat) : s.Shares (s.assigned owner target value) p := by
  have hdeclare := s.registers_declare target
  have hbefore : (s.beforeValue target).Sound :=
    ((hdeclare.evolves.trans (evolves_supersede _ _)) h).1
  refine ⟨?_, fun u _ => ?_⟩
  · exact (hdeclare.activeProcedure?_eq h.tabled p).trans
      ((registers_emitValue s target value).activeProcedure?_eq hbefore.tabled p)
  · change _ ↔ u ∈ ((s.emitValue target value).2.state.graph.insertNode _).procedures
    rw [DependencyGraph.insertNode_procedures, s.graph_emitValue target value,
      DependencyGraph.foldl_deactivate_procedures]

/-- The new statement is pending, and whatever it replaces writes the same symbol. -/
theorem tracked_assigned : s.Tracked (s.assigned owner target value) := by
  refine ⟨evolves_assigned s owner target value, fun h => ?_⟩
  have hdeclare := s.registers_declare target
  have hstream := s.stream_emitValue target value
  have hnext := s.nextExpr_emitValue target value
  have hstart : (s.assignmentNode owner target value).start = s.root.stream.size := by
    change (s.declare target).2.root.stream.size = _
    rw [hdeclare.stream]
  have hactive : (s.assignmentNode owner target value).isActive = true := rfl
  have hnew : s.assignmentNode owner target value ∈ (s.assigned owner target value).graph.nodes :=
    (s.mem_assigned owner target value h hactive).2 (.inl rfl)
  have hsuperseded : ∀ m ∈ s.graph.nodes,
      m.id ∈ (s.declare target).2.superseded (s.declare target).1 →
        m.defines = some (.global (s.declare target).1) := by
    intro m hm hid
    have hm' : m ∈ (s.declare target).2.graph.nodes := by rwa [hdeclare.graph]
    exact defines_of_mem_superseded (hdeclare.evolves h).1 hm' hid
  refine ⟨?_, ?_, fun n hn hon => ?_,
    fun n _ _ _ => .inl fun p _ => s.shares_assigned owner target value h p,
    fun m hm hmon hgone key hkey n hn hold hon hnkey => .inr ?_⟩
  · change (s.emitValue target value).2.state.root.stream.entry = _
    rw [hstream]
  · change _ ⊆ (s.emitValue target value).2.state.root.stream.updates
    rw [hstream]
    exact fun _ hr => hr
  · rcases (s.mem_assigned owner target value h hon).1 hn with rfl | ⟨hn, -⟩
    · exact .inr ⟨Nat.le_of_eq hnext.symm, Nat.le_of_eq hstart.symm⟩
    · exact .inl hn
  · have hid : m.id ∈ (s.declare target).2.superseded (s.declare target).1 := by
      by_contra hid
      exact hgone ((s.mem_assigned owner target value h hmon).2 (.inr ⟨hm, hid⟩))
    have hslot := hsuperseded m hm hid
    exact ⟨_, hnew, hactive, hslot.symm.trans hkey, Nat.le_of_eq hnext.symm⟩

end Assignment

/-! ### Defining a function -/

section Definition

variable (s : CompileState) (owner : Option SubtreeId) (name : String) (params : List String)
  (body : Expr)

/-- A definition leaves all other procedures as they are. -/
theorem shares_install (h : s.Sound) {p : Nat} (hne : p ≠ (s.reserve name).1) :
    s.Shares (s.install owner name params body) p := by
  have hreserve := s.registers_reserve name
  have hbefore := (evolves_beforeBody s name params h).1.tabled
  refine ⟨?_, fun u hu => ?_⟩
  · have hemit := (registers_emitBody s name params body).activeProcedure?_eq hbefore p
    refine (hreserve.activeProcedure?_eq h.tabled p).trans (hemit.trans ?_)
    unfold activeProcedure?
    rw [procedures_install, List.getElem?_modify_ne _ _ hne.symm]
  · rw [graph_install]
    refine .trans ?_ (Keyed.mem_put_iff h.graph.procedures).symm
    constructor
    · exact fun hmem => .inr ⟨hmem, hu ▸ hne⟩
    · rintro (rfl | ⟨hmem, -⟩)
      · exact absurd hu.symm hne
      · exact hmem

theorem graph_queueUsers (index : Nat) : (s.queueUsers index).graph = s.graph := by
  unfold queueUsers
  split <;> rfl

theorem procedures_queueUsers (index : Nat) :
    (s.queueUsers index).root.procedures = s.root.procedures := by
  unfold queueUsers
  split <;> rfl

theorem mem_updates_queueUsers {index : Nat} (h : s.graph.readersOf (.procedure index) ≠ []) :
    .procedure index ∈ (s.queueUsers index).root.stream.updates := by
  unfold queueUsers
  rw [if_neg h]
  exact List.mem_append_right _ (List.mem_singleton.2 rfl)

/-- Whoever uses a function that is redefined is queued. -/
theorem tracked_install :
    s.Tracked ((s.install owner name params body).queueUsers (s.reserve name).1) := by
  have hgraph := (s.install owner name params body).graph_queueUsers (s.reserve name).1
  have hnodes : (s.install owner name params body).graph.nodes = s.graph.nodes := by
    rw [graph_install]
    rfl
  have hstream : (s.install owner name params body).root.stream =
      { s.root.stream with graph := s.graph.defineProcedure (s.bodyUses name params body) } :=
    congrArg (fun stream : Stream =>
      { stream with graph := stream.graph.defineProcedure (s.bodyUses name params body) })
      ((registers_emitBody s name params body).stream.trans (s.registers_reserve name).stream)
  refine ⟨(evolves_install s owner name params body).trans (evolves_queueUsers _ _), fun h => ?_⟩
  have hinstall := (evolves_install s owner name params body h).1
  have hqueue := ((s.install owner name params body).tracked_queueUsers (s.reserve name).1).2 hinstall
  refine ⟨hqueue.entry.trans (by rw [hstream]), List.Subset.trans ?_ hqueue.updates, fun n hn _ => .inl ?_,
    fun n hn _ hon => ?_, fun m hm _ hgone => absurd hm ?_⟩
  · rw [hstream]
    exact fun _ hr => hr
  · rwa [hgraph, hnodes] at hn
  · rw [hgraph] at hn ⊢
    by_cases hreach : (s.install owner name params body).graph.Reaches n.uses
        (.procedure (s.reserve name).1)
    · have hreader := hinstall.graph.mem_readersOf hn hon hreach
      exact .inr ⟨_, mem_updates_queueUsers _ (List.ne_nil_of_mem hreader), hreach⟩
    · refine .inl fun p hp => ?_
      have hne : p ≠ (s.reserve name).1 := by
        rintro rfl
        exact hreach hp
      refine (s.shares_install owner name params body h hne).trans ⟨?_, fun u _ => by rw [hgraph]⟩
      unfold activeProcedure?
      rw [procedures_queueUsers]
  · rwa [hgraph, hnodes] at hgone

theorem tracked_defined : s.Tracked (s.defined owner name params body) := by
  unfold defined
  exact (s.tracked_install owner name params body).trans (tracked_dynamicFunctions _ _)

end Definition

end CompileState

/-! ### Whole compilations -/

theorem stepwise_tracked : CompileState.Stepwise CompileState.Tracked :=
  ⟨.refl, .trans, CompileState.tracked_retire, CompileState.tracked_assigned,
    CompileState.tracked_defined⟩

/-- All that a compilation changes is queued or pending. -/
theorem tracked_compiled (f : Fragment) (prior : CompileState) :
    prior.beginCompile.Tracked (prior.compiled f) := stepwise_tracked.compiled f prior

/-! ### Where the next run starts -/

section Start

variable {s : Stream} {ctx : RunContext} {n : GraphNode}

theorem mem_initialWorklist_of_pending (hn : n ∈ s.graph.nodes) (hon : n.isActive = true)
    {entry : Nat} (hentry : s.entry = some entry) (hstart : entry ≤ n.start) :
    n.id ∈ initialWorklist s ctx := by
  refine Ascending.mem_ofList.2 (List.mem_append_left _ (List.mem_append_left _ ?_))
  refine List.mem_map_of_mem (List.mem_filter.2 ⟨List.mem_filter.2 ⟨hn, hon⟩, ?_⟩)
  simpa [hentry] using hstart

theorem mem_initialWorklist_of_symbol {key : SymbolKey} (hkey : .symbol key ∈ s.updates)
    (hn : n.id ∈ s.graph.writersOf key) : n.id ∈ initialWorklist s ctx := by
  refine Ascending.mem_ofList.2 (List.mem_append_left _ (List.mem_append_right _ ?_))
  exact List.mem_flatMap.2 ⟨_, hkey, hn⟩

theorem mem_initialWorklist_of_procedure {p : Nat} (hp : .procedure p ∈ s.updates)
    (hn : n.id ∈ s.graph.readersOf (.procedure p)) : n.id ∈ initialWorklist s ctx := by
  refine Ascending.mem_ofList.2 (List.mem_append_left _ (List.mem_append_right _ ?_))
  exact List.mem_flatMap.2 ⟨_, hp, hn⟩

end Start

namespace CompileState

variable {s : CompileState}

/-- A statement that was not there before a compilation waits when the next run starts. -/
theorem Sound.mem_or_mem_initialWorklist (h : s.Sound) (f : Fragment) (ctx : RunContext) {n : GraphNode}
    (hn : n ∈ (s.compiled f).graph.nodes) (hon : n.isActive = true) :
    n ∈ s.graph.nodes ∨ n.id ∈ initialWorklist (s.compiled f).root.stream ctx := by
  obtain ⟨hbegin, -⟩ := evolves_beginCompile s h
  have hsince := (tracked_compiled f s).2 hbegin
  refine (hsince.nodes n hn hon).imp_right fun ⟨_, hstart⟩ => ?_
  refine mem_initialWorklist_of_pending hn hon hsince.entry (Nat.le_trans ?_ hstart)
  split
  · exact Nat.zero_le _
  · exact Nat.le_refl _

/-- A regular statement whose slot awaits no value when the run after a compilation starts was there
before. It was regular then, and the functions that it reaches are still the same. -/
theorem Sound.unqueued (h : s.Sound) (f : Fragment) (ctx : RunContext) {n : GraphNode} {slot : Nat}
    {σ : Naming} {e : Expr} (hn : (s.compiled f).Regular n slot σ e)
    (hidle : ¬ (s.compiled f).Awaits (initialWorklist (s.compiled f).root.stream ctx) slot) :
    s.Regular n slot σ e ∧
      ∀ p, s.graph.Reaches n.uses (.procedure p) → s.Shares (s.compiled f) p := by
  obtain ⟨hbegin, -⟩ := evolves_beginCompile s h
  obtain ⟨hsound, hext⟩ := evolves_compiled f s h
  have hsince := (tracked_compiled f s).2 hbegin
  have hdefines := hn.assigns.defines
  -- whatever is new is pending
  have hold : ∀ m ∈ (s.compiled f).graph.nodes, m.isActive = true →
      m.defines = some (.global slot) → m ∈ s.graph.nodes := by
    intro m hm hon hkey
    refine (h.mem_or_mem_initialWorklist f ctx hm hon).resolve_right fun hmem => hidle ?_
    exact ⟨m, hm, hon, hkey, hmem⟩
  have hnold := hold n hn.mem hn.active hdefines
  have hwriter : .symbol (.global slot) ∉ (s.compiled f).root.stream.updates := fun hqueued =>
    hidle ⟨n, hn.mem, hn.active, hdefines, mem_initialWorklist_of_symbol hqueued
      (hsound.graph.mem_writersOf.2 ⟨n, hn.mem, rfl, hn.active, hdefines⟩)⟩
  have hshares : ∀ p, (s.compiled f).graph.Reaches n.uses (.procedure p) →
      s.Shares (s.compiled f) p := by
    rcases hsince.functions n hn.mem hnold hn.active with hshares | ⟨q, hq, hreach⟩
    · exact fun p hp => ⟨(hshares p hp).procedure, (hshares p hp).record⟩
    · have hqueued : n.id ∈ initialWorklist (s.compiled f).root.stream ctx :=
        mem_initialWorklist_of_procedure hq (hsound.graph.mem_readersOf hn.mem hn.active hreach)
      exact absurd ⟨n, hn.mem, hn.active, hdefines, hqueued⟩ hidle
  have hforth : ∀ {v}, s.graph.Reaches n.uses v → (s.compiled f).graph.Reaches n.uses v :=
    .mono fun u hu _ hreach => ((hshares _ hreach).record u rfl).1 hu
  refine ⟨⟨hnold, hn.active, fun m hm hon hkey => ?_, fun hreach => hn.acyclic (hforth hreach)⟩,
    fun p hp => hshares p (hforth hp)⟩
  by_cases hstays : m ∈ (s.compiled f).graph.nodes
  · obtain ⟨slot', σ', e', hassigns⟩ := h.statements m hm
    exact hext.assigns_back hassigns (hn.copies m hstays hon hkey)
  -- a writer that is gone would have left the slot queued, or another writer in its place
  · rcases hsince.writers m hm hon hstays _ (hkey.trans hdefines) n hn.mem hnold hn.active
      hdefines with hqueued | ⟨k, hk, hkon, hkkey, hid⟩
    · exact absurd hqueued hwriter
    · exact absurd (h.ids k (hold k hk hkon hkkey)) (Nat.not_lt.2 hid)

/-- If all regular statements of a program were consistent, then after a compilation they are so
except for those whose slots await a value when the next run starts. -/
theorem Sound.steady_compiled (h : s.Sound) (f : Fragment) (ctx : RunContext)
    {memory memory' : Memory} {slots slots' : List Datum} (hp : s.Steady memory [] slots)
    (hm : memory'.Shows (s.compiled f).executable.pointerName? slots')
    (hroom : (s.compiled f).globalCount ≤ slots'.length)
    (hslots : ∀ k < s.globalCount, slots'[k]? = slots[k]?) :
    (s.compiled f).Steady memory' (initialWorklist (s.compiled f).root.stream ctx) slots' := by
  refine ⟨hm, hroom, fun n slot σ e hn => or_iff_not_imp_left.2 fun hidle => ?_⟩
  obtain ⟨hregular, hshares⟩ := h.unqueued f ctx hn hidle
  exact (hp.settled hregular).transfer hregular.assigns h (evolves_compiled f s h).2 hshares
    hp.shows.held.over fun k hk _ => hslots k hk

end CompileState

end Reflow
