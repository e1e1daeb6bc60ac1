import Reflow.Proofs.Program.Ownership
/-!
# The names that a program has given out

Besides the variables of its subtrees, a program has two kinds of names: variables that no subtree assigns
any more and that are set to null, and functions. A roster lists both, the functions with the subtree that
defined each of them last and with its parameters. The ledger and the roster together decide which
statements a program accepts.

A function has one procedure, which the last definition fills, so that retiring the subtree of that
definition leaves the function without any, whatever other subtrees define it.

## Main definitions

* `Roster`: the cleared variables and the functions, with `Roster.compiled`.
* `CompileState.active?`: the active procedure of a name.
* `CompileState.Enrols`: the cleared variables and the functions of a program are those of a roster.

## Main results

* `CompileState.Enrols.retire`, `CompileState.Enrols.statement`: the steps of a compilation.
* `CompileState.Enrols.compiled`: a whole compilation without errors.
* `CompileState.Enrols.isFunction`, `CompileState.Enrols.isAssigned`: which statements are rejected.
-/

namespace Reflow

/-- The names that a program has given out besides the variables of its subtrees. -/
structure Roster where
  /-- The variables that code without a subtree sets to null. -/
  cleared : String → Bool := fun _ => false
  /-- The subtree that has defined a function, and its parameters. -/
  definer : String → Option (SubtreeId × List String) := fun _ => none

namespace Roster

/-- The roster without the functions of a subtree. -/
def retire (r : Roster) (id : SubtreeId) : Roster :=
  { r with definer := fun name => (r.definer name).filter (·.1 ≠ id) }

/-- The roster with one more statement. An assignment of a subtree takes over a cleared variable. -/
def enter (r : Roster) (owner : Option SubtreeId) : Statement → Roster
  | .assign target _ =>
    { r with cleared := fun name => if name = target then owner.isNone else r.cleared name }
  | .define function params _ =>
    { r with definer := fun name =>
        if name = function then owner.map (·, params) else r.definer name }

/-- The roster after compiling a fragment. -/
def compiled (r : Roster) (f : Fragment) : Roster :=
  f.units.foldl (fun r u => u.program.foldl (·.enter u.owner ·) r) (f.retired.foldl retire r)

end Roster

/-- The unit belongs to a subtree, or it sets variables to null. -/
def FragmentUnit.Clears (u : FragmentUnit) : Prop :=
  u.owner = none → ∀ s ∈ u.program, ∃ target, s = .assign target .null

namespace CompileState

/-- The active procedure of a name. -/
def active? (s : CompileState) (name : String) : Option Procedure :=
  (s.root.procedures.get? name).filter (·.isActive)

/-- The statement `n` sets the variable `name` to null. -/
def Clears (s : CompileState) (n : GraphNode) (name : String) : Prop :=
  ∃ slot σ, s.root.symbols.indexOf? name = some slot ∧ s.Assigns n slot σ .null

/-- The active statements without a subtree set the cleared variables of the roster to null, and the
active procedures are those of its functions. -/
structure Enrols (s : CompileState) (r : Roster) : Prop where
  sound : ∀ n ∈ s.graph.nodes, n.isActive = true → n.owner = none →
    ∃ name, r.cleared name = true ∧ s.Clears n name
  complete : ∀ name, r.cleared name = true → ∃ n ∈ s.graph.nodes, n.isActive = true ∧
    n.owner = none ∧ s.Clears n name
  functions : ∀ name, (s.active? name).map (fun p => (p.owner, p.params)) =
    (r.definer name).map fun d => (some d.1, d.2)

variable {s t : CompileState} {r : Roster} {n : GraphNode} {name : String}

theorem enrols_empty : ({} : CompileState).Enrols {} :=
  ⟨fun _ hn => (by cases hn), fun _ h => (by cases h), fun _ => rfl⟩

theorem Clears.extends (h : s.Clears n name) (hext : s.Extends t) : t.Clears n name := by
  obtain ⟨slot, σ, hslot, hassigns⟩ := h
  exact ⟨slot, σ, indexOf?_of_isPrefix hext.symbols hslot, hext.assigns hassigns⟩

theorem Clears.stores (h : s.Clears n name) : s.Stores n name := by
  obtain ⟨slot, σ, hslot, hassigns⟩ := h
  exact ⟨slot, hslot, hassigns.defines⟩

/-- A step that leaves the statements without a subtree as they are. -/
theorem Enrols.of_nodes (h : s.Enrols r) (hext : s.Extends t)
    (hnodes : ∀ n : GraphNode, n.isActive = true → n.owner = none →
      (n ∈ t.graph.nodes ↔ n ∈ s.graph.nodes))
    {definer : String → Option (SubtreeId × List String)}
    (hfunctions : ∀ name, (t.active? name).map (fun p => (p.owner, p.params)) =
      (definer name).map fun d => (some d.1, d.2)) : t.Enrols { r with definer } where
  sound n hn hon howner := by
    obtain ⟨name, hname, hclears⟩ := h.sound n ((hnodes n hon howner).1 hn) hon howner
    exact ⟨name, hname, hclears.extends hext⟩
  complete name hname := by
    obtain ⟨n, hn, hon, howner, hclears⟩ := h.complete name hname
    exact ⟨n, (hnodes n hon howner).2 hn, hon, howner, hclears.extends hext⟩
  functions := hfunctions

/-- A step that also leaves the active procedures as they are. -/
theorem Enrols.of_eq (h : s.Enrols r) (hext : s.Extends t)
    (hnodes : ∀ n : GraphNode, n.isActive = true → n.owner = none →
      (n ∈ t.graph.nodes ↔ n ∈ s.graph.nodes))
    (hactive : ∀ name, t.active? name = s.active? name) : t.Enrols r :=
  h.of_nodes hext hnodes fun name => (hactive name).symm ▸ h.functions name

theorem Enrols.scheduled (h : s.Enrols r) (hs : s.Sound) (entry : Option Nat)
    (updates : List UpdateRoot) (full : Bool) : (s.scheduled entry updates full).Enrols r :=
  h.of_eq (s.evolves_scheduled entry updates full hs).2 (fun _ _ _ => .rfl) fun _ => rfl

/-! ### Which statements are rejected -/

/-- A name cannot be assigned if it is a function. -/
theorem Enrols.isFunction (h : s.Enrols r) :
    s.isFunction name = true ↔ (r.definer name).isSome = true := by
  have hfunction : s.isFunction name = (s.active? name).isSome := by
    rw [CompileState.isFunction, active?]
    cases s.root.procedures.get? name with
    | none => rfl
    | some p => cases hon : p.isActive <;> simp [hon]
  have hsome := congrArg Option.isSome (h.functions name)
  rw [Option.isSome_map, Option.isSome_map] at hsome
  rw [hfunction, hsome]

/-- A statement stores one variable. -/
theorem Stores.unique {name' : String} (h : s.Stores n name) (h' : s.Stores n name') :
    name' = name := by
  obtain ⟨slot, hslot, hdefines⟩ := h
  obtain ⟨slot', hslot', hdefines'⟩ := h'
  obtain rfl : slot' = slot := by simpa [SymbolKey.global] using hdefines'.symm.trans hdefines
  exact eq_of_indexOf? hslot' hslot

/-- The active statements of a subtree store the variables that its statements assign. -/
theorem Mirrors.exists_stores {L : Ledger} (h : s.Mirrors L) {id : SubtreeId} :
    (∃ n ∈ s.graph.nodesOwnedBy id, s.Stores n name) ↔
      name ∈ (L id).filterMap Statement.assigned? := by
  have hstatements := h.statements id
  generalize s.graph.nodesOwnedBy id = nodes at hstatements ⊢
  generalize (L id).filterMap Statement.assigned? = names at hstatements ⊢
  induction hstatements with
  | nil => simp
  | cons hn _ ih =>
    simp only [List.mem_cons, exists_eq_or_imp, ih]
    exact or_congr_left ⟨fun h => hn.unique h, fun h => h ▸ hn⟩

/-- A name is assigned if an active statement stores it. -/
theorem Sound.isAssigned_iff (hs : s.Sound) : s.isAssigned name = true ↔
    ∃ n ∈ s.graph.nodes, n.isActive = true ∧ s.Stores n name := by
  rw [CompileState.isAssigned, Option.any_eq_true]
  constructor
  · rintro ⟨slot, hslot, hwriters⟩
    obtain ⟨id, hid⟩ := List.exists_mem_of_ne_nil _ (of_decide_eq_true hwriters)
    obtain ⟨n, hn, -, hon, hdefines⟩ := hs.graph.mem_writersOf.1 hid
    exact ⟨n, hn, hon, slot, hslot, hdefines⟩
  · rintro ⟨n, hn, hon, slot, hslot, hdefines⟩
    have hwriter := hs.graph.mem_writersOf.2 ⟨n, hn, rfl, hon, hdefines⟩
    exact ⟨slot, hslot, decide_eq_true (List.ne_nil_of_mem hwriter)⟩

/-- A name cannot be defined if a subtree assigns it or it is cleared. -/
theorem Enrols.isAssigned (h : s.Enrols r) {L : Ledger} (hL : s.Mirrors L) (hs : s.Sound) :
    s.isAssigned name = true ↔ r.cleared name = true ∨
      ∃ id, name ∈ (L id).filterMap Statement.assigned? := by
  rw [hs.isAssigned_iff]
  constructor
  · rintro ⟨n, hn, hon, hstores⟩
    cases howner : n.owner with
    | none =>
      obtain ⟨name', hcleared, hclears⟩ := h.sound n hn hon howner
      exact .inl (hstores.unique hclears.stores ▸ hcleared)
    | some id =>
      have hmem := DependencyGraph.mem_nodesOwnedBy.2 ⟨hn, hon, howner⟩
      exact .inr ⟨id, hL.exists_stores.1 ⟨n, hmem, hstores⟩⟩
  · rintro (hcleared | ⟨id, hname⟩)
    · obtain ⟨n, hn, hon, -, hclears⟩ := h.complete name hcleared
      exact ⟨n, hn, hon, hclears.stores⟩
    · obtain ⟨n, hn, hstores⟩ := hL.exists_stores.2 hname
      obtain ⟨hn, hon, -⟩ := DependencyGraph.mem_nodesOwnedBy.1 hn
      exact ⟨n, hn, hon, hstores⟩

/-! ### The procedures of a program -/

/-- In a table, changing the procedure of an index changes the one that bears the index. -/
theorem Tabled.modify_procedures (h : s.Tabled) (f : Procedure → Procedure) (i : Nat) :
    s.root.procedures.procedures.modify i f =
      s.root.procedures.procedures.map fun p => if p.index = i then f p else p := by
  refine List.ext_getElem? fun j => ?_
  rw [List.getElem?_modify, List.getElem?_map]
  cases hp : s.root.procedures.procedures[j]? with
  | none => rfl
  | some p => simp [h.procedures j p hp, eq_comm]

/-- An index has one procedure. -/
theorem Tabled.eq_of_index (h : s.Tabled) {p q : Procedure} (hp : p ∈ s.root.procedures.procedures)
    (hq : q ∈ s.root.procedures.procedures) (hindex : p.index = q.index) : p = q := by
  obtain ⟨i, hi⟩ := List.mem_iff_getElem?.1 hp
  obtain ⟨j, hj⟩ := List.mem_iff_getElem?.1 hq
  obtain rfl : i = j := (h.procedures i p hi).symm.trans (hindex.trans (h.procedures j q hj))
  exact Option.some.inj (hi.symm.trans hj)

/-- Changing procedures, but not their names, commutes with looking for a name. -/
theorem find?_map_procedures {f : Procedure → Procedure} (hf : ∀ p, (f p).name = p.name)
    (procedures : List Procedure) (name : String) :
    (procedures.map f).find? (·.name == name) = (procedures.find? (·.name == name)).map f := by
  have hname : (fun p : Procedure => p.name == name) ∘ f = (·.name == name) :=
    funext fun p => congrArg (· == name) (hf p)
  rw [List.find?_map, hname]

/-- Procedures that are only reserved are not active. -/
theorem Registers.active?_eq (h : s.Registers t) (name : String) : t.active? name = s.active? name := by
  obtain ⟨more, hmore⟩ := h.procedures
  rw [active?, active?, ProcedureTable.get?, ProcedureTable.get?, ← hmore, List.find?_append]
  cases hold : s.root.procedures.procedures.find? (·.name == name) with
  | some p => rfl
  | none =>
    rw [Option.none_or, Option.filter_none, Option.filter_eq_none_iff]
    intro p hp hon
    have hmem : p ∈ t.root.procedures.procedures :=
      hmore ▸ List.mem_append_right _ (List.mem_of_find?_eq_some hp)
    have hname := List.find?_some hp
    exact List.find?_eq_none.1 hold p (h.mem_of_active hmem hon) hname

/-- Retiring some procedures deactivates them and leaves all others as they are. -/
theorem Sound.procedures_foldl_retireProcedure (hs : s.Sound) (owned : List Procedure) :
    (owned.foldl (fun s p => s.retireProcedure p.index) s).root.procedures.procedures =
      s.root.procedures.procedures.map fun p =>
        if p.index ∈ owned.map Procedure.index then { p with isActive := false } else p := by
  induction owned generalizing s with
  | nil => simp
  | cons first rest ih =>
    have hfirst : (s.retireProcedure first.index).root.procedures.procedures =
        s.root.procedures.procedures.map fun p =>
          if p.index = first.index then { p with isActive := false } else p :=
      hs.tabled.modify_procedures _ _
    rw [List.foldl_cons, ih (s.evolves_retireProcedure first.index hs).1, hfirst, List.map_map]
    refine List.map_congr_left fun p _ => ?_
    by_cases hp : p.index = first.index
    · simp [hp]
    · simp [hp]

/-- Retiring a subtree retires the active procedures that it owns. -/
theorem Sound.active?_retire (hs : s.Sound) (id : SubtreeId) (name : String) :
    (s.retire id).active? name = (s.active? name).filter (·.owner ≠ some id) := by
  have hprocedures : (s.withoutStatements id).root.procedures = s.root.procedures := by
    obtain ⟨updates, hwithout⟩ := s.exists_withoutStatements_eq id
    rw [hwithout]
    rfl
  have hsound := (s.evolves_withoutStatements id hs).1
  rw [active?, ProcedureTable.get?, retire_eq, hsound.procedures_foldl_retireProcedure,
    find?_map_procedures (by intro p; split <;> rfl), proceduresOwnedBy, hprocedures, active?,
    ProcedureTable.get?]
  cases hp : s.root.procedures.procedures.find? (·.name == name) with
  | none => rfl
  | some p =>
    -- an index has one procedure
    have hmem : p.index ∈ (s.root.procedures.procedures.filter fun p =>
        p.isActive ∧ p.owner = some id).map Procedure.index ↔
          p.isActive = true ∧ p.owner = some id := by
      rw [List.mem_map]
      constructor
      · rintro ⟨q, hq, hindex⟩
        obtain ⟨hq, howned⟩ := List.mem_filter.1 hq
        obtain rfl : q = p := hs.tabled.eq_of_index hq (List.mem_of_find?_eq_some hp) hindex
        simpa using howned
      · intro howned
        exact ⟨p, List.mem_filter.2 ⟨List.mem_of_find?_eq_some hp, by simpa using howned⟩, rfl⟩
    simp only [Option.map_some, hmem, Option.filter_some]
    by_cases howned : p.isActive = true ∧ p.owner = some id
    · simp [howned, Option.filter_some]
    · cases hon : p.isActive with
      | false => simp [hon]
      | true =>
        have howner : p.owner ≠ some id := fun h => howned ⟨hon, h⟩
        simp [hon, howner, Option.filter_some]

section Definition

variable (owner : Option SubtreeId) (function : String) (params : List String) (body : Expr)

/-- A definition changes the procedure of its name only. -/
theorem Sound.get?_defined (hs : s.Sound) (name : String) :
    (s.defined owner function params body).root.procedures.get? name =
      ((s.emitBody function params body).2.state.root.procedures.get? name).map fun p =>
        if p.index = (s.reserve function).1 then { p with
          params, owner, body := some (s.bodies.length + 1), start := 0
          stop := (s.emitBody function params body).1.length + 1, isActive := true } else p := by
  rw [ProcedureTable.get?, procedures_defined, procedures_install,
    (evolves_emitBody s function params body hs).1.tabled.modify_procedures,
    find?_map_procedures (by intro p; split <;> rfl), ProcedureTable.get?]

/-- A definition fills the procedure of its name. -/
theorem Sound.active?_defined_self (hs : s.Sound) : ∃ q,
    (s.emitBody function params body).2.state.root.procedures.procedures[(s.reserve function).1]? =
      some q ∧
    (s.defined owner function params body).active? function = some { q with
      params, owner, body := some (s.bodies.length + 1), start := 0
      stop := (s.emitBody function params body).1.length + 1, isActive := true } := by
  obtain ⟨q, hat, hfound, -⟩ :=
    ProcedureTable.exists_of_indexOf? (indexOf?_emitBody s function params body)
  have hindex := (evolves_emitBody s function params body hs).1.tabled.procedures _ _ hat
  refine ⟨q, hat, ?_⟩
  rw [active?, hs.get?_defined, hfound, Option.map_some, if_pos hindex]
  rfl

/-- A definition leaves the functions of all other names as they are. -/
theorem Sound.active?_defined_of_ne (hs : s.Sound) {name : String} (hname : name ≠ function) :
    (s.defined owner function params body).active? name = s.active? name := by
  have hemitted := (evolves_emitBody s function params body hs).1.tabled
  have hbody := ((registers_emitBody s function params body).active?_eq name).trans
    ((s.registers_reserve function).active?_eq name)
  rw [← hbody, active?, hs.get?_defined, active?]
  cases hp : (s.emitBody function params body).2.state.root.procedures.get? name with
  | none => rfl
  | some p =>
    obtain ⟨hlt, hfunction, -⟩ :=
      List.findIdx?_eq_some_iff_getElem.1 (indexOf?_emitBody s function params body)
    have hindex := hemitted.procedures _ _ (List.getElem?_eq_getElem hlt)
    have hne : p.index ≠ (s.reserve function).1 := by
      intro heq
      obtain rfl := hemitted.eq_of_index (List.mem_of_find?_eq_some hp) (List.getElem_mem hlt)
        (heq.trans hindex.symm)
      have hfound := List.find?_some (p := fun p : Procedure => p.name == name) hp
      exact hname ((eq_of_beq hfound).symm.trans (eq_of_beq hfunction))
    rw [Option.map_some, if_neg hne]

/-- Who has defined a function, and with which parameters, after a definition. -/
theorem Sound.active?_defined (hs : s.Sound) (name : String) :
    ((s.defined owner function params body).active? name).map (fun p => (p.owner, p.params)) =
      if name = function then some (owner, params)
      else (s.active? name).map fun p => (p.owner, p.params) := by
  split
  · rename_i hname
    subst hname
    obtain ⟨q, -, hactive⟩ := hs.active?_defined_self owner name params body
    rw [hactive]
    rfl
  · rename_i hname
    rw [hs.active?_defined_of_ne owner function params body hname]

end Definition

/-! ### The steps of a compilation -/

/-- Retiring a subtree leaves the statements without a subtree as they are. -/
theorem nodes_foldl_retireProcedure (owned : List Procedure) :
    (owned.foldl (fun s p => s.retireProcedure p.index) s).graph.nodes = s.graph.nodes := by
  induction owned generalizing s with
  | nil => rfl
  | cons p rest ih => exact ih

/-- A retired subtree takes its functions with it. -/
theorem Enrols.retire (h : s.Enrols r) (hs : s.Sound) (id : SubtreeId) :
    (s.retire id).Enrols (r.retire id) := by
  have hext := (s.evolves_retire id hs).2
  have hnodes : ∀ n : GraphNode, n.isActive = true → n.owner = none →
      (n ∈ (s.retire id).graph.nodes ↔ n ∈ s.graph.nodes) := by
    intro n hon howner
    rw [retire_eq, nodes_foldl_retireProcedure, graph_withoutStatements]
    refine (hs.mem_deactivateOwned hon).trans (and_iff_left ?_)
    rw [howner]
    exact Option.some_ne_none id ∘ Eq.symm
  refine h.of_nodes hext hnodes fun name => ?_
  have hfunctions := h.functions name
  rw [hs.active?_retire]
  cases hp : s.active? name <;> cases hd : r.definer name <;> rw [hp, hd] at hfunctions
  · rfl
  · cases hfunctions
  · cases hfunctions
  · rename_i p d
    obtain ⟨howner, hparams⟩ : p.owner = some d.1 ∧ p.params = d.2 := by simpa using hfunctions
    by_cases hid : d.1 = id
    · simp [howner, hid, Option.filter_some]
    · simp [howner, hid, hparams, Option.filter_some]

section Statement

variable {owner : Option SubtreeId} {target function : String} {value body : Expr}
  {params : List String}

/-- An assignment of a subtree takes over a cleared variable, and one without a subtree clears it. -/
theorem Enrols.assigned (h : s.Enrols r) (hs : s.Sound) (hvalue : owner = none → value = .null) :
    (s.assigned owner target value).Enrols (r.enter owner (.assign target value)) := by
  have hext := (evolves_assigned s owner target value hs).2
  have hdeclared := (s.registers_declare target).evolves hs
  have hgraph := (s.registers_declare target).graph
  have hemit := registers_emitValue s target value
  have hnew : (s.assigned owner target value).root.symbols.indexOf? target =
      some (s.declare target).1 :=
    indexOf?_of_isPrefix hemit.symbols (s.indexOf?_declare target)
  -- a statement without a subtree is replaced if it clears the variable
  have hreplaced : ∀ n ∈ s.graph.nodes, n.isActive = true → n.owner = none → ∀ name,
      s.Clears n name →
        (n.id ∈ (s.declare target).2.superseded (s.declare target).1 ↔ name = target) := by
    rintro n hn hon howner name ⟨slot, σ, hslot, hassigns⟩
    rw [mem_superseded hdeclared.1 (hgraph ▸ hn) hon, hassigns.defines]
    refine (and_iff_right howner).trans ⟨fun hdefines => ?_, fun hname => ?_⟩
    · have heq : slot = (s.declare target).1 := by simpa [SymbolKey.global] using hdefines
      exact eq_of_indexOf? (indexOf?_declare_of_some (heq ▸ hslot)) (s.indexOf?_declare target)
    · rw [declare_of_some (hname ▸ hslot)]
  refine ⟨fun n hn hon howner => ?_, fun name hname => ?_, fun name => ?_⟩
  · rcases (s.mem_assigned owner target value hs hon).1 hn with rfl | ⟨hn, hstays⟩
    · obtain rfl : owner = none := howner
      obtain rfl := hvalue rfl
      exact ⟨target, by simp [Roster.enter], _, _, hnew, hs.assigns_assigned none target .null⟩
    · obtain ⟨name, hname, hclears⟩ := h.sound n hn hon howner
      have hne := mt (hreplaced n hn hon howner name hclears).2 hstays
      exact ⟨name, by simpa [Roster.enter, hne] using hname, hclears.extends hext⟩
  · by_cases heq : name = target
    · subst heq
      obtain rfl : owner = none := by simpa [Roster.enter] using hname
      obtain rfl := hvalue rfl
      exact ⟨_, (s.mem_assigned none name .null hs rfl).2 (.inl rfl), rfl, rfl, _, _, hnew,
        hs.assigns_assigned none name .null⟩
    · obtain ⟨n, hn, hon, howner, hclears⟩ :=
        h.complete name (by simpa [Roster.enter, heq] using hname)
      have hstays := mt (hreplaced n hn hon howner name hclears).1 heq
      exact ⟨n, (s.mem_assigned owner target value hs hon).2 (.inr ⟨hn, hstays⟩), hon, howner,
        hclears.extends hext⟩
  · have hactive := (hemit.active?_eq name).trans ((s.registers_declare target).active?_eq name)
    exact (congrArg _ hactive).trans (h.functions name)

/-- A definition takes over its function. -/
theorem Enrols.defined (h : s.Enrols r) (hs : s.Sound) {id : SubtreeId} :
    (s.defined (some id) function params body).Enrols
      (r.enter (some id) (.define function params body)) := by
  have hext := (evolves_defined s (some id) function params body hs).2
  have hnodes : (s.defined (some id) function params body).graph.nodes = s.graph.nodes := by
    rw [graph_defined]
    rfl
  refine ⟨fun n hn hon howner => ?_, fun name hname => ?_, fun name => ?_⟩
  · obtain ⟨name, hname, hclears⟩ := h.sound n (hnodes ▸ hn) hon howner
    exact ⟨name, hname, hclears.extends hext⟩
  · obtain ⟨n, hn, hon, howner, hclears⟩ := h.complete name hname
    exact ⟨n, hnodes ▸ hn, hon, howner, hclears.extends hext⟩
  · rw [hs.active?_defined]
    by_cases hname : name = function
    · simp [Roster.enter, hname]
    · simpa [Roster.enter, hname] using h.functions name

/-- A statement that is compiled is entered into the roster. -/
theorem Enrols.statement (h : s.Enrols r) (hs : s.Sound) {statement : Statement}
    (hclears : owner = none → ∃ target, statement = .assign target .null) {warnings : List String}
    (hcompile : compileStatement owner statement s = .ok (warnings, t)) :
    t.Enrols (r.enter owner statement) := by
  rw [compileStatement_ok hcompile]
  cases statement with
  | assign target value =>
    refine h.assigned hs fun hnone => ?_
    obtain ⟨_, heq⟩ := hclears hnone
    exact (Statement.assign.inj heq).2
  | define function params body =>
    cases owner with
    | none =>
      obtain ⟨_, heq⟩ := hclears rfl
      cases heq
    | some id => exact h.defined hs

end Statement

end CompileState

/-! ### Whole compilations -/

namespace Progress

variable {p : Progress} {r : Roster}

theorem enrols_statements {owner : Option SubtreeId} {program : List Statement}
    (hclears : owner = none → ∀ s ∈ program, ∃ target, s = .assign target .null)
    (hclean : (program.foldl (statement owner) p).Clean) (h : p.state.Enrols r) (hs : p.state.Sound) :
    (program.foldl (statement owner) p).state.Enrols (program.foldl (·.enter owner ·) r) :=
  hclean.foldl_statement
    (fun hmem hs h hcompile => h.statement hs (fun hnone => hclears hnone _ hmem) hcompile) hs h

theorem enrols_units {units : List FragmentUnit} (hclears : ∀ u ∈ units, u.Clears)
    (hclean : (units.foldl unit p).Clean) (h : p.state.Enrols r) (hs : p.state.Sound) :
    (units.foldl unit p).state.Enrols
      (units.foldl (fun r u => u.program.foldl (·.enter u.owner ·) r) r) :=
  hclean.foldl_unit (fun hu hunit hs h => enrols_statements (hclears _ hu) hunit h hs) hs h

end Progress

namespace CompileState

variable {s : CompileState} {r : Roster}

/-- After a compilation that gives an image, the names of the program are those of the roster after it. -/
theorem Enrols.compiled (h : s.Enrols r) (hs : s.Sound) {f : Fragment} (hf : ∀ u ∈ f.units, u.Clears)
    {diagnostics : List Diagnostic} {image : CompiledImage}
    (hcompile : compile f s = ⟨diagnostics, some image⟩) : (s.compiled f).Enrols (r.compiled f) := by
  have hbegin : s.beginCompile.Enrols r := h.scheduled hs _ _ _
  have hsound := (s.evolves_beginCompile hs).1
  have hretired := hsound.foldl_retire (fun hs h id => h.retire hs id) f.retired hbegin
  exact Progress.enrols_units hf (clean_of_compile hcompile) hretired
    (Evolves.foldl evolves_retire f.retired _ hsound).1

end CompileState

end Reflow
