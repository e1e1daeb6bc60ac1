import Reflow.Proofs.Code.Mentions
import Reflow.Proofs.Program.Roster
/-!
# Where the code of a program comes from

A program is compiled from a text, statement by statement, and what has been compiled is never compiled
again. So an active statement is the assignment in the text that has its number, and an active function is
the last definition of its name. The names in the code of either stand for what they were when the text had
been read up to there, whatever the text says later.

## Main definitions

* `AssignedAt`, `DefinedAt`: where a text makes an assignment, and where it defines a function last.
* `CompileState.Stage`: the state of a program in which the code of a statement was emitted.
* `CompileState.Resolves`: what names stand for after a beginning of the text.
* `CompileState.AssignedFrom`, `CompileState.DefinedFrom`: where statements and functions come from.
* `CompileState.StemsFrom`: the program has been compiled from a text.

## Main results

* `AssignedAt.unique`: the number of an assignment determines its place.
* `CompileState.Stage.resolves`: the names of an earlier state are resolved by the text up to there.
* `CompileState.StemsFrom.retire`, `CompileState.StemsFrom.statement`: the steps of a compilation.
* `CompileState.StemsFrom.compiled`: a whole compilation without errors.
-/

namespace Reflow

/-- The beginning `past` of a text ends with an assignment, which has the number `id`. -/
structure AssignedAt (text past : List Statement) (id : Nat) (target : String) (value : Expr) :
    Prop where
  begins : past <+: text
  ends : ∃ before, past = before ++ [.assign target value] ∧
    (before.filterMap Statement.assignment?).length = id

/-- The beginning `past` of a text ends with the last definition of a function. -/
structure DefinedAt (text past : List Statement) (name : String) (params : List String)
    (body : Expr) : Prop where
  begins : ∃ after, text = past ++ after ∧ ∀ s ∈ after, s.function? ≠ some name
  ends : ∃ before, past = before ++ [.define name params body]

/-! ### Places in a text -/

section Places

variable {text past past' : List Statement} {id : Nat} {target target' name : String}
  {value value' body : Expr} {params : List String} {m : Mention}

theorem AssignedAt.count (h : AssignedAt text past id target value) :
    (past.filterMap Statement.assignment?).length = id + 1 := by
  obtain ⟨before, rfl, rfl⟩ := h.ends
  rw [List.filterMap_append, List.length_append]
  rfl

/-- A longer beginning of a text that ends with an assignment has more of them. -/
theorem AssignedAt.eq_of_isPrefix (h : AssignedAt text past id target value)
    (h' : AssignedAt text past' id target' value') (hle : past <+: past') : past = past' := by
  obtain ⟨more, rfl⟩ := hle
  rcases List.eq_nil_or_concat more with rfl | ⟨rest, last, rfl⟩
  · exact (List.append_nil past).symm
  · obtain ⟨before, heq, hcount⟩ := h'.ends
    rw [List.concat_eq_append, ← List.append_assoc] at heq
    obtain ⟨rfl, -⟩ := List.append_inj' heq rfl
    rw [List.filterMap_append, List.length_append, h.count] at hcount
    omega

/-- The number of an assignment determines its place. -/
theorem AssignedAt.unique (h : AssignedAt text past id target value)
    (h' : AssignedAt text past' id target' value') :
    past = past' ∧ target = target' ∧ value = value' := by
  have hpast : past = past' := by
    rcases List.prefix_or_prefix_of_prefix h.begins h'.begins with hle | hle
    · exact h.eq_of_isPrefix h' hle
    · exact (h'.eq_of_isPrefix h hle).symm
  obtain ⟨before, rfl, -⟩ := h.ends
  obtain ⟨before', hends, -⟩ := h'.ends
  obtain ⟨-, hlast⟩ := List.append_inj' (hpast.trans hends) rfl
  cases hlast
  exact ⟨hpast, rfl, rfl⟩

/-- After an assignment, what its value mentions is known. -/
theorem AssignedAt.kindAfter_ne_unknown (h : AssignedAt text past id target value)
    (hm : m ∈ value.mentions []) : kindAfter past m.name ≠ .unknown := by
  obtain ⟨before, rfl, -⟩ := h.ends
  exact kindAfter_concat_ne_unknown before (List.mem_cons_of_mem _ hm)

theorem DefinedAt.mem (h : DefinedAt text past name params body) : .define name params body ∈ text := by
  obtain ⟨before, rfl⟩ := h.ends
  obtain ⟨after, rfl, -⟩ := h.begins
  exact List.mem_append_left _ (List.mem_append_right _ List.mem_cons_self)

/-- After a definition, what its body mentions is known. -/
theorem DefinedAt.kindAfter_ne_unknown (h : DefinedAt text past name params body)
    (hm : m ∈ body.mentions params) : kindAfter past m.name ≠ .unknown := by
  obtain ⟨before, rfl⟩ := h.ends
  exact kindAfter_concat_ne_unknown before (List.mem_cons_of_mem _ hm)

end Places

namespace CompileState

/-- `t` has all the names of `u` in their places: globals, functions and function pointers. -/
structure KnownTo (u t : CompileState) : Prop where
  symbols : u.root.symbols.symbols <+: t.root.symbols.symbols
  procedures : u.root.procedures.procedures.map Procedure.name <+:
    t.root.procedures.procedures.map Procedure.name
  pointers : u.pointers.targets <+: t.pointers.targets

/-- The program `t` was in the state `u` when the code of the last statement of `past` had been emitted. -/
structure Stage (t u : CompileState) (past : List Statement) : Prop where
  known : u.KnownTo t
  kinds : ∀ name, u.kindOf name = kindAfter past name

/-- Names in code with the given parameters stand for what they were after the text `past`: for arguments,
then for functions, and then for globals. -/
structure Resolves (t : CompileState) (past : List Statement) (params : List String) (σ : Naming) :
    Prop where
  argument : ∀ name i, params.findIdx? (· == name) = some i → σ name = .argument i
  function : ∀ name, name ∉ params → kindAfter past name = .function →
    ∃ p pointer, σ name = .procedure p pointer ∧ t.root.procedures.indexOf? name = some p
  global : ∀ name, name ∉ params → kindAfter past name = .global →
    ∃ slot, σ name = .global slot ∧ t.root.symbols.indexOf? name = some slot

/-- The statement `n` is the assignment at the end of `past`, compiled under the names of the state `u`. -/
structure AssignedFrom (t : CompileState) (text : List Statement) (n : GraphNode)
    (past : List Statement) (target : String) (value : Expr) (u : CompileState) : Prop where
  place : AssignedAt text past n.id target value
  stage : t.Stage u past
  assigns : ∃ slot, t.root.symbols.indexOf? target = some slot ∧ t.Assigns n slot (u.naming {}) value
  emitted : ∃ s : CompileState, n.uses = (s.emitValue target value).2.uses ∧
    u = (s.emitValue target value).2.state

/-- The function `p` has the definition at the end of `past`, compiled under the names of the state `u`. -/
structure DefinedFrom (t : CompileState) (text : List Statement) (p : Procedure) (name : String)
    (past : List Statement) (body : Expr) (u : CompileState) : Prop where
  place : DefinedAt text past name p.params body
  stage : t.Stage u past
  computes : ∃ r block, t.Computes p r block (u.naming { params := p.params }) body

/-- Only active procedures have records of what they use. -/
def Recorded (s : CompileState) : Prop :=
  ∀ u ∈ s.graph.procedures, (s.activeProcedure? u.procedure).isSome = true

/-- The program has been compiled from a text: names are what they are after the text, the next statement
has the number of assignments in the text, all that is active comes from there, and nothing else has a
record. -/
structure StemsFrom (t : CompileState) (text : List Statement) : Prop where
  kinds : ∀ name, t.kindOf name = kindAfter text name
  count : t.nextExpr = (text.filterMap Statement.assignment?).length
  statements : ∀ n ∈ t.graph.nodes, n.isActive = true →
    ∃ past target value u, t.AssignedFrom text n past target value u
  functions : ∀ name p, t.active? name = some p → ∃ past body u, t.DefinedFrom text p name past body u
  records : t.Recorded

variable {s t u : CompileState} {text past : List Statement} {n : GraphNode} {p : Procedure}
  {name target function : String} {value body : Expr} {params : List String}

theorem stemsFrom_empty : ({} : CompileState).StemsFrom [] :=
  ⟨fun _ => rfl, rfl, fun _ hn => (by cases hn), fun _ _ hp => (by cases hp), fun _ hu => (by cases hu)⟩

/-! ### What stays -/

/-- Only the names of procedures decide where a name is found. -/
theorem indexOf?_of_names (table : ProcedureTable) (name : String) : table.indexOf? name =
    (table.procedures.map Procedure.name).findIdx? (· == name) := by
  rw [ProcedureTable.indexOf?, List.findIdx?_map]
  rfl

/-- The active procedure of a name is in the table. -/
theorem mem_of_active? (h : s.active? name = some p) :
    p ∈ s.root.procedures.procedures ∧ p.isActive = true ∧ p.name = name := by
  obtain ⟨hget, hon⟩ := Option.filter_eq_some_iff.1 h
  have hname := List.find?_some (p := fun p : Procedure => p.name == name) hget
  exact ⟨List.mem_of_find?_eq_some hget, hon, eq_of_beq hname⟩

theorem KnownTo.extends (h : u.KnownTo s) (hext : s.Extends t) : u.KnownTo t :=
  ⟨h.symbols.trans hext.symbols, h.procedures.trans hext.names, h.pointers.trans hext.pointers⟩

theorem Stage.extends (h : s.Stage u past) (hext : s.Extends t) : t.Stage u past :=
  ⟨h.known.extends hext, h.kinds⟩

/-- A procedure keeps its number while names are only added. -/
theorem KnownTo.procedureIndex (h : u.KnownTo t) {i : Nat}
    (hi : u.root.procedures.indexOf? name = some i) : t.root.procedures.indexOf? name = some i := by
  obtain ⟨more, hmore⟩ := h.procedures
  rw [indexOf?_of_names] at hi ⊢
  rw [← hmore]
  exact findIdx?_append_of_some hi

/-- The names of an earlier state are resolved by the text up to there. -/
theorem Stage.resolves (h : t.Stage u past) (params : List String) :
    t.Resolves past params (u.naming { params }) where
  argument name i hi := by simp only [naming, hi]
  function name hname hkind := by
    obtain ⟨p, hp⟩ := kindOf_eq_function.1 ((h.kinds name).trans hkind)
    have hparam := findIdx?_eq_none_iff_not_mem.2 hname
    exact ⟨p, _, by simp only [naming, hparam, hp]; rfl, h.known.procedureIndex hp⟩
  global name hname hkind := by
    obtain ⟨hp, slot, hslot⟩ := kindOf_eq_global.1 ((h.kinds name).trans hkind)
    have hparam := findIdx?_eq_none_iff_not_mem.2 hname
    exact ⟨slot, by simp only [naming, hparam, hp, declare_of_some hslot],
      indexOf?_of_isPrefix h.known.symbols hslot⟩

/-- What has to run next does not matter for what names stand for. -/
theorem resolves_scheduled {σ : Naming} (entry : Option Nat) (updates : List UpdateRoot) (full : Bool) :
    (t.scheduled entry updates full).Resolves past params σ ↔ t.Resolves past params σ :=
  ⟨fun h => ⟨h.argument, h.function, h.global⟩, fun h => ⟨h.argument, h.function, h.global⟩⟩

/-- A statement comes from where it came from before, however the text goes on. -/
theorem AssignedFrom.extends (h : s.AssignedFrom text n past target value u) (hext : s.Extends t)
    (more : List Statement) : t.AssignedFrom (text ++ more) n past target value u where
  place := ⟨h.place.begins.trans (List.prefix_append text more), h.place.ends⟩
  stage := h.stage.extends hext
  assigns := by
    obtain ⟨slot, hslot, hassigns⟩ := h.assigns
    exact ⟨slot, indexOf?_of_isPrefix hext.symbols hslot, hext.assigns hassigns⟩
  emitted := h.emitted

/-- A procedure that is still active evaluates what it did before. -/
theorem Computes.extends {r : ProcedureUses} {block : CodeBlock} {σ : Naming}
    (h : s.Computes p r block σ body) (hext : s.Extends t) (ht : t.Sound)
    (hp : p ∈ t.root.procedures.procedures) (hon : p.isActive = true) :
    ∃ r, t.Computes p r block σ body := by
  obtain ⟨r', block', σ', e', hcomputes⟩ := ht.functions p hp hon
  obtain ⟨b, hb, hblock⟩ := h.body
  obtain ⟨b', hb', hblock'⟩ := hcomputes.body
  obtain rfl : b = b' := by simpa [hb] using hb'
  obtain rfl : block = block' :=
    Option.some.inj ((getElem?_of_isPrefix hext.bodies hblock).symm.trans hblock')
  exact ⟨r', hcomputes.of_code h.code⟩

/-- A function that is still active comes from where it came from before, if the text goes on without
another definition of it. -/
theorem DefinedFrom.extends (h : s.DefinedFrom text p name past body u) (hext : s.Extends t)
    (ht : t.Sound) (hp : t.active? name = some p) {more : List Statement}
    (hmore : ∀ s ∈ more, s.function? ≠ some name) :
    t.DefinedFrom (text ++ more) p name past body u where
  place := by
    obtain ⟨after, rfl, hafter⟩ := h.place.begins
    refine ⟨⟨after ++ more, List.append_assoc .., fun s hs => ?_⟩, h.place.ends⟩
    exact (List.mem_append.1 hs).elim (hafter s) (hmore s)
  stage := h.stage.extends hext
  computes := by
    obtain ⟨r, block, hcomputes⟩ := h.computes
    obtain ⟨hmem, hon, -⟩ := mem_of_active? hp
    obtain ⟨r', hcomputes'⟩ := hcomputes.extends hext ht hmem hon
    exact ⟨r', block, hcomputes'⟩

/-- A record of a procedure that is as it was before is one of an active procedure. -/
theorem Recorded.of_shares (h : s.Recorded) (hshares : ∀ r ∈ t.graph.procedures,
    s.Shares t r.procedure ∨ (t.activeProcedure? r.procedure).isSome = true) : t.Recorded := by
  intro r hr
  refine (hshares r hr).elim (fun hshares => ?_) id
  rw [← hshares.procedure]
  exact h r ((hshares.record r rfl).2 hr)

/-- A step that compiles nothing, and after which nothing is active that was not so before. -/
theorem StemsFrom.of_fewer (h : s.StemsFrom text) (hs : s.Sound) (hstep : s.Evolves t)
    (hkinds : ∀ name, t.kindOf name = s.kindOf name) (hcount : t.nextExpr = s.nextExpr)
    (hnodes : ∀ n ∈ t.graph.nodes, n.isActive = true → n ∈ s.graph.nodes)
    (hactive : ∀ name p, t.active? name = some p → s.active? name = some p)
    (hrecords : ∀ r ∈ t.graph.procedures, s.Shares t r.procedure) : t.StemsFrom text := by
  obtain ⟨ht, hext⟩ := hstep hs
  refine ⟨fun name => (hkinds name).trans (h.kinds name), hcount.trans h.count, fun n hn hon => ?_,
    fun name p hp => ?_, h.records.of_shares fun r hr => .inl (hrecords r hr)⟩
  · obtain ⟨past, target, value, u, hfrom⟩ := h.statements n (hnodes n hn hon) hon
    refine ⟨past, target, value, u, ?_⟩
    simpa using hfrom.extends hext []
  · obtain ⟨past, body, u, hfrom⟩ := h.functions name p (hactive name p hp)
    refine ⟨past, body, u, ?_⟩
    simpa using hfrom.extends hext ht hp (List.forall_mem_nil _)

theorem StemsFrom.scheduled (h : s.StemsFrom text) (hs : s.Sound) (entry : Option Nat)
    (updates : List UpdateRoot) (full : Bool) : (s.scheduled entry updates full).StemsFrom text :=
  h.of_fewer hs (s.evolves_scheduled entry updates full) (fun _ => rfl) rfl (fun _ hn _ => hn)
    (fun _ _ hp => hp) fun _ _ => ⟨rfl, fun _ _ => .rfl⟩

/-! ### Retiring a subtree -/

/-- A procedure that is retired is not active, and all others are as they were. -/
theorem Sound.active?_retireProcedure (hs : s.Sound) (i : Nat) (name : String) :
    (s.retireProcedure i).active? name = (s.active? name).filter (·.index ≠ i) := by
  have hprocedures : (s.retireProcedure i).root.procedures.procedures =
      s.root.procedures.procedures.map fun p => if p.index = i then { p with isActive := false } else p :=
    hs.tabled.modify_procedures _ _
  rw [active?, ProcedureTable.get?, hprocedures, find?_map_procedures (by intro p; split <;> rfl),
    active?, ProcedureTable.get?]
  cases s.root.procedures.procedures.find? (·.name == name) with
  | none => rfl
  | some p =>
    by_cases hp : p.index = i <;> cases hon : p.isActive <;> simp [hp, hon, Option.filter_some]

theorem StemsFrom.retireProcedure (h : s.StemsFrom text) (hs : s.Sound) (i : Nat) :
    (s.retireProcedure i).StemsFrom text := by
  refine h.of_fewer hs (s.evolves_retireProcedure i) (fun name => kindOf_congr ?_ rfl) rfl
    (fun _ hn _ => hn) (fun name p hp => ?_) fun r hr => s.shares_retireProcedure ?_
  · rw [indexOf?_of_names, indexOf?_of_names]
    exact congrArg (List.findIdx? _) (map_modify_self (by exact fun _ => rfl))
  · rw [hs.active?_retireProcedure] at hp
    exact (Option.filter_eq_some_iff.1 hp).1
  · rintro rfl
    exact absurd (List.mem_filter.1 hr).2 (by simp)

theorem StemsFrom.foldl_retireProcedure (h : s.StemsFrom text) (hs : s.Sound) (owned : List Procedure) :
    (owned.foldl (fun s p => s.retireProcedure p.index) s).StemsFrom text := by
  induction owned generalizing s with
  | nil => exact h
  | cons p rest ih => exact ih (h.retireProcedure hs p.index) (s.evolves_retireProcedure p.index hs).1

/-- Retiring a subtree compiles nothing. -/
theorem StemsFrom.retire (h : s.StemsFrom text) (hs : s.Sound) (id : SubtreeId) :
    (s.retire id).StemsFrom text := by
  have hdeactivate := s.evolves_deactivate ((s.graph.nodesOwnedBy id).map GraphNode.id)
  have hrecords : (s.deactivateOwned id).graph.procedures = s.graph.procedures :=
    DependencyGraph.foldl_deactivate_procedures ..
  have hdeactivated : (s.deactivateOwned id).StemsFrom text :=
    h.of_fewer hs hdeactivate (fun _ => rfl) rfl
      (fun n hn hon => ((hs.mem_deactivateOwned hon).1 hn).1) (fun _ _ hp => hp) fun r _ =>
        ⟨rfl, fun u _ => by rw [hrecords]⟩
  obtain ⟨updates, hwithout⟩ := s.exists_withoutStatements_eq id
  have hstems := hdeactivated.scheduled (hdeactivate hs).1 (s.deactivateOwned id).root.stream.entry
    updates (s.deactivateOwned id).fullExecution
  rw [← hwithout] at hstems
  rw [retire_eq]
  exact hstems.foldl_retireProcedure (s.evolves_withoutStatements id hs).1 _

/-! ### Adding an assignment -/

section Statement

variable {owner : Option SubtreeId}

/-- Until its code is appended, an assignment only mentions names. -/
theorem kindOf_emitValue (s : CompileState) (target : String) (value : Expr) (name : String) :
    (s.emitValue target value).2.state.kindOf name =
      (s.kindOf name).afterAll name (Statement.assign target value).mentions := by
  have hbefore : (s.beforeValue target).kindOf name = (s.kindOf name).after name (.value target) :=
    (kindOf_congr rfl rfl).trans (s.kindOf_declare target name)
  rw [emitValue, kindOf_emit, hbefore]
  rfl

/-- A statement uses what was noted when its value was emitted. -/
theorem uses_assignmentNode (s : CompileState) (owner : Option SubtreeId) (target : String)
    (value : Expr) : (s.assignmentNode owner target value).uses = (s.emitValue target value).2.uses := by
  simp [GraphNode.uses, Emission.uses, assignmentNode, Function.comp_def]

/-- An assignment is compiled from the end of the text. -/
theorem StemsFrom.assigned (h : s.StemsFrom text) (hs : s.Sound) :
    (s.assigned owner target value).StemsFrom (text ++ [.assign target value]) := by
  obtain ⟨ht, hext⟩ := evolves_assigned s owner target value hs
  have hemit := registers_emitValue s target value
  have hnext := s.nextExpr_emitValue target value
  have hkinds : ∀ name, (s.emitValue target value).2.state.kindOf name =
      kindAfter (text ++ [.assign target value]) name := fun name => by
    rw [kindOf_emitValue, kindAfter_concat, h.kinds]
  refine ⟨fun name => (kindOf_congr rfl rfl).trans (hkinds name), ?_, fun n hn hon => ?_,
    fun name p hp => ?_,
    h.records.of_shares fun r _ => .inl (s.shares_assigned owner target value hs r.procedure)⟩
  · change (s.emitValue target value).2.state.nextExpr + 1 = _
    rw [hnext, h.count, List.filterMap_append, List.length_append]
    rfl
  · rcases (s.mem_assigned owner target value hs hon).1 hn with rfl | ⟨hn, -⟩
    · -- the new statement has the number of the assignments before it
      have hid : (text.filterMap Statement.assignment?).length =
          (s.assignmentNode owner target value).id := h.count.symm.trans hnext.symm
      refine ⟨_, target, value, (s.emitValue target value).2.state,
        ⟨List.prefix_refl _, text, rfl, hid⟩,
        ⟨⟨List.prefix_refl _, List.prefix_refl _, List.prefix_refl _⟩, hkinds⟩,
        ⟨(s.declare target).1, ?_, hs.assigns_assigned owner target value⟩,
        s, s.uses_assignmentNode owner target value, rfl⟩
      exact indexOf?_of_isPrefix hemit.symbols (s.indexOf?_declare target)
    · obtain ⟨past, target', value', u, hfrom⟩ := h.statements n hn hon
      exact ⟨past, target', value', u, hfrom.extends hext _⟩
  · have hactive := (hemit.active?_eq name).trans ((s.registers_declare target).active?_eq name)
    obtain ⟨past, body, u, hfrom⟩ := h.functions name p (hactive.symm.trans hp)
    refine ⟨past, body, u, hfrom.extends hext ht hp (List.forall_mem_singleton.2 ?_)⟩
    exact Option.some_ne_none name ∘ Eq.symm

/-! ### Defining a function -/

/-- Until it is filled, the definition of a function only mentions names. -/
theorem kindOf_emitBody (s : CompileState) (function : String) (params : List String) (body : Expr)
    (name : String) : (s.emitBody function params body).2.state.kindOf name =
      (s.kindOf name).afterAll name (Statement.define function params body).mentions := by
  have hbefore : (s.beforeBody function params).kindOf name =
      (s.kindOf name).after name (.definition function) :=
    (kindOf_congr rfl rfl).trans (s.kindOf_reserve function name)
  rw [emitBody, kindOf_emit, hbefore]
  rfl

theorem symbols_defined : (s.defined owner function params body).root.symbols =
    (s.emitBody function params body).2.state.root.symbols := by
  rw [defined, root_dynamicFunctions, queueUsers]
  split <;> rfl

theorem names_defined : (s.defined owner function params body).root.procedures.procedures.map
    Procedure.name =
      (s.emitBody function params body).2.state.root.procedures.procedures.map Procedure.name := by
  rw [procedures_defined, procedures_install, map_modify_self (by exact fun _ => rfl)]

theorem nextExpr_defined : (s.defined owner function params body).nextExpr = s.nextExpr := by
  have hinstall : (s.defined owner function params body).nextExpr =
      (s.emitBody function params body).2.state.nextExpr := by
    rw [defined, queueUsers]
    split <;> rfl
  rw [hinstall, (registers_emitBody s function params body).nextExpr]
  exact (s.registers_reserve function).nextExpr

/-- Filling a procedure keeps the names as they are after the code of the body was emitted. -/
theorem knownTo_defined : (s.emitBody function params body).2.state.KnownTo
    (s.defined owner function params body) where
  symbols := ⟨[], (List.append_nil _).trans (congrArg SymbolTable.symbols symbols_defined).symm⟩
  procedures := ⟨[], (List.append_nil _).trans names_defined.symm⟩
  pointers := by
    rw [defined, queueUsers]
    split <;> exact List.prefix_refl _

/-- Filling a procedure makes nothing else of names. -/
theorem kindOf_defined (s : CompileState) (owner : Option SubtreeId) (function : String)
    (params : List String) (body : Expr) (name : String) :
    (s.defined owner function params body).kindOf name =
      (s.emitBody function params body).2.state.kindOf name := by
  refine kindOf_congr ?_ (by rw [symbols_defined])
  rw [indexOf?_of_names, indexOf?_of_names, names_defined]

/-- A definition records what an active procedure uses. -/
theorem Recorded.defined (h : s.Recorded) (hs : s.Sound) :
    (s.defined owner function params body).Recorded := by
  refine h.of_shares fun r hr => ?_
  by_cases hindex : r.procedure = (s.reserve function).1
  · obtain ⟨q, hq, -⟩ := hs.active?_defined_self owner function params body
    right
    rw [hindex, activeProcedure?, procedures_defined, procedures_install, List.getElem?_modify_eq, hq]
    rfl
  · have hinstall := shares_install s owner function params body hs hindex
    refine .inl ⟨hinstall.procedure.trans ?_, fun u hu => (hinstall.record u hu).trans ?_⟩
    · rw [activeProcedure?, activeProcedure?, procedures_defined]
    · rw [graph_install, graph_defined]

/-- A definition is compiled from the end of the text. -/
theorem StemsFrom.defined (h : s.StemsFrom text) (hs : s.Sound) :
    (s.defined owner function params body).StemsFrom (text ++ [.define function params body]) := by
  obtain ⟨ht, hext⟩ := evolves_defined s owner function params body hs
  have hkinds : ∀ name, (s.emitBody function params body).2.state.kindOf name =
      kindAfter (text ++ [.define function params body]) name := fun name => by
    rw [kindOf_emitBody, kindAfter_concat, h.kinds]
  refine ⟨fun name => (s.kindOf_defined owner function params body name).trans (hkinds name), ?_,
    fun n hn hon => ?_, fun name p hp => ?_, h.records.defined hs⟩
  · rw [nextExpr_defined, h.count, List.filterMap_append, List.length_append]
    rfl
  · have hn : n ∈ s.graph.nodes := by
      rw [graph_defined] at hn
      exact hn
    obtain ⟨past, target, value, u, hfrom⟩ := h.statements n hn hon
    exact ⟨past, target, value, u, hfrom.extends hext _⟩
  · by_cases hname : name = function
    · subst hname
      obtain ⟨q, hq, hactive⟩ := hs.active?_defined_self owner name params body
      obtain rfl := Option.some.inj (hactive.symm.trans hp)
      obtain ⟨r, block, hcomputes⟩ := computes_install s owner name params body hs hq rfl
      have hinstalled := (evolves_install s owner name params body hs).1
      have hlast := (evolves_install_defined s owner name params body hinstalled).2
      obtain ⟨hmem, hon, -⟩ := mem_of_active? hactive
      obtain ⟨r', hcomputes'⟩ := hcomputes.extends hlast ht hmem hon
      exact ⟨_, body, (s.emitBody name params body).2.state,
        ⟨⟨[], (List.append_nil _).symm, List.forall_mem_nil _⟩, text, rfl⟩,
        ⟨knownTo_defined, hkinds⟩, r', block, hcomputes'⟩
    · have hold := (hs.active?_defined_of_ne owner function params body hname).symm.trans hp
      obtain ⟨past, body', u, hfrom⟩ := h.functions name p hold
      refine ⟨past, body', u, hfrom.extends hext ht hp (List.forall_mem_singleton.2 ?_)⟩
      exact fun heq => hname (Option.some.inj heq).symm

/-- A statement that is compiled comes from the end of the text. -/
theorem StemsFrom.statement (h : s.StemsFrom text) (hs : s.Sound) {statement : Statement}
    {warnings : List String} (hcompile : compileStatement owner statement s = .ok (warnings, t)) :
    t.StemsFrom (text ++ [statement]) := by
  rw [compileStatement_ok hcompile]
  cases statement with
  | assign target value => exact h.assigned hs
  | define function params body => exact h.defined hs

end Statement

end CompileState

/-! ### Whole compilations -/

namespace Progress

variable {p : Progress} {text : List Statement}

theorem stemsFrom_statements {owner : Option SubtreeId} {program : List Statement}
    (hclean : (program.foldl (statement owner) p).Clean) (h : p.state.StemsFrom text)
    (hs : p.state.Sound) :
    (program.foldl (statement owner) p).state.StemsFrom (text ++ program) := by
  have hrun := hclean.foldl_statement (R := CompileState.StemsFrom) (f := fun text s => text ++ [s])
    (fun _ hs h hcompile => h.statement hs hcompile) hs h
  rwa [List.foldl_append_eq_append, ← List.flatMap_def, List.flatMap_singleton'] at hrun

theorem stemsFrom_units {units : List FragmentUnit} (hclean : (units.foldl unit p).Clean)
    (h : p.state.StemsFrom text) (hs : p.state.Sound) :
    (units.foldl unit p).state.StemsFrom (text ++ units.flatMap FragmentUnit.program) := by
  have hrun := hclean.foldl_unit (R := CompileState.StemsFrom) (f := fun text u => text ++ u.program)
    (fun _ hunit hs h => stemsFrom_statements hunit h hs) hs h
  rwa [List.foldl_append_eq_append, ← List.flatMap_def] at hrun

end Progress

namespace CompileState

variable {s : CompileState} {text : List Statement}

/-- After a compilation that gives an image, the program comes from the text that goes on with what was
compiled. -/
theorem StemsFrom.compiled (h : s.StemsFrom text) (hs : s.Sound) {f : Fragment}
    {diagnostics : List Diagnostic} {image : CompiledImage}
    (hcompile : compile f s = ⟨diagnostics, some image⟩) :
    (s.compiled f).StemsFrom (text ++ f.units.flatMap FragmentUnit.program) := by
  have hbegin : s.beginCompile.StemsFrom text := h.scheduled hs _ _ _
  have hsound := (s.evolves_beginCompile hs).1
  -- retiring adds nothing to the text
  have hretired := hsound.foldl_retire (R := CompileState.StemsFrom) (f := fun text _ => text)
    (fun hs h id => h.retire hs id) f.retired hbegin
  rw [List.foldl_fixed] at hretired
  exact Progress.stemsFrom_units (clean_of_compile hcompile) hretired
    (Evolves.foldl evolves_retire f.retired _ hsound).1

end CompileState

end Reflow
