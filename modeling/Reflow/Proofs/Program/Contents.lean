import Reflow.Proofs.Code.Plain
import Reflow.Proofs.Program.Changes
/-!
# The contents of a program

A program without functions is a number of assignments, each of which belongs to a subtree or to none.
What a compilation does to the program can then be said without code: a retired subtree takes its
assignments with it, and an assignment replaces those to its variable that belong to no subtree.

## Main definitions

* `Contents`: the assignments of a program, with `Contents.assign` and `Contents.retire`.
* `CompileState.Plain`: a program without functions.
* `CompileState.Holds`: a statement that evaluates and stores an assignment.
* `CompileState.Represents`: the active statements of a program are those of its contents.

## Main results

* `Represents.retire`, `Represents.assigned`: the steps of a compilation.
* `Represents.compiled`: a whole compilation.
-/

namespace Reflow

/-- An assignment of a program, with the subtree that it belongs to, if any. -/
structure Entry where
  owner : Option SubtreeId
  target : String
  value : Expr

/-- The assignments of a program. -/
abbrev Contents := List Entry

namespace Contents

/-- One more assignment; it replaces those to its variable that belong to no subtree. -/
def assign (c : Contents) (a : Entry) : Contents :=
  c.filter (fun b => b.owner.isSome || b.target ≠ a.target) ++ [a]

/-- The assignments that do not belong to a subtree. -/
def retire (c : Contents) (id : SubtreeId) : Contents := c.filter fun b => b.owner ≠ some id

/-- The contents with some more assignments of one owner. -/
def extend (c : Contents) (owner : Option SubtreeId) (more : List (String × Expr)) : Contents :=
  more.foldl (fun c a => c.assign ⟨owner, a.1, a.2⟩) c

theorem mem_assign {c : Contents} {a b : Entry} : b ∈ c.assign a ↔
    b ∈ c ∧ ¬ (b.owner = none ∧ b.target = a.target) ∨ b = a := by
  have hiff : (b.owner.isSome || decide (b.target ≠ a.target)) = true ↔
      ¬ (b.owner = none ∧ b.target = a.target) := by
    cases b.owner <;> simp
  rw [assign, List.mem_append, List.mem_filter, List.mem_singleton, hiff]

theorem mem_retire {c : Contents} {id : SubtreeId} {b : Entry} :
    b ∈ c.retire id ↔ b ∈ c ∧ b.owner ≠ some id := by
  simp [retire]

end Contents

namespace CompileState

/-- The program has no functions. -/
structure Plain (s : CompileState) : Prop where
  procedures : s.root.procedures.procedures = []
  records : s.graph.procedures = []

/-- The statement `n` evaluates and stores the assignment `a`, whose names are globals of the program
and all that the statement reads. -/
structure Holds (s : CompileState) (n : GraphNode) (a : Entry) : Prop where
  owner : n.owner = a.owner
  assigns : ∃ slot, s.root.symbols.indexOf? a.target = some slot ∧
    s.Assigns n slot (s.naming {}) a.value
  known : ∀ name ∈ a.value.names, ∃ i, s.root.symbols.indexOf? name = some i
  uses : ∀ v ∈ n.uses, ∃ name ∈ a.value.names, ∃ i,
    s.root.symbols.indexOf? name = some i ∧ v = .symbol (.global i)

/-- The active statements of the program are those of the contents, all of which are plain. -/
structure Represents (s : CompileState) (c : Contents) : Prop where
  plain : s.Plain
  entries : ∀ a ∈ c, a.value.isPlain = true
  sound : ∀ n ∈ s.graph.nodes, n.isActive = true → ∃ a ∈ c, s.Holds n a
  complete : ∀ a ∈ c, ∃ n ∈ s.graph.nodes, n.isActive = true ∧ s.Holds n a

variable {s t : CompileState} {n : GraphNode} {a : Entry} {c : Contents}

/-- A known name of a program without functions stands for its global. -/
theorem naming_eq_global (h : s.root.procedures.procedures = []) {name : String} {i : Nat}
    (hi : s.root.symbols.indexOf? name = some i) : s.naming {} name = .global i := by
  have hnone : s.root.procedures.indexOf? name = none := by
    rw [ProcedureTable.indexOf?, h]
    rfl
  simp only [naming, List.findIdx?_nil, hnone, declare_of_some hi]

/-- Without functions, a statement reaches what it reads itself. -/
theorem Plain.mem_of_reaches (h : s.Plain) {start : List Vertex} {v : Vertex}
    (hv : s.graph.Reaches start v) : v ∈ start := by
  cases hv with
  | use hv => exact hv
  | through hu _ _ =>
    rw [h.records] at hu
    cases hu

/-- A statement keeps its assignment in later states of the program. -/
theorem Holds.extends (h : s.Holds n a) (hs : s.Plain) (ht : t.Plain) (hext : s.Extends t) :
    t.Holds n a where
  owner := h.owner
  assigns := by
    obtain ⟨slot, hslot, hassigns⟩ := h.assigns
    refine ⟨slot, indexOf?_of_isPrefix hext.symbols hslot, (hext.assigns hassigns).of_code ?_⟩
    refine a.value.code_congr (fun name hname => ?_) n.start
    obtain ⟨i, hi⟩ := h.known name hname
    rw [naming_eq_global hs.procedures hi,
      naming_eq_global ht.procedures (indexOf?_of_isPrefix hext.symbols hi)]
  known name hname := by
    obtain ⟨i, hi⟩ := h.known name hname
    exact ⟨i, indexOf?_of_isPrefix hext.symbols hi⟩
  uses v hv := by
    obtain ⟨name, hname, i, hi, rfl⟩ := h.uses v hv
    exact ⟨name, hname, i, indexOf?_of_isPrefix hext.symbols hi, rfl⟩

/-- The slot of a statement is that of the variable that it assigns. -/
theorem Holds.indexOf?_of_defines (h : s.Holds n a) {slot : Nat}
    (hdefines : n.defines = some (.global slot)) :
    s.root.symbols.indexOf? a.target = some slot := by
  obtain ⟨slot', hslot, hassigns⟩ := h.assigns
  have heq := hdefines.symm.trans hassigns.defines
  simp only [Option.some.injEq, SymbolKey.global, SymbolKey.mk.injEq, true_and] at heq
  rw [hslot, heq]

/-! ### Steps that leave the contents alone -/

theorem Represents.scheduled (h : s.Represents c) (hs : s.Sound) (entry : Option Nat)
    (updates : List UpdateRoot) (full : Bool) :
    (s.scheduled entry updates full).Represents c := by
  have hplain : (s.scheduled entry updates full).Plain :=
    ⟨h.plain.procedures, h.plain.records⟩
  have hext := (s.evolves_scheduled entry updates full hs).2
  refine ⟨hplain, h.entries, fun n hn hon => ?_, fun a ha => ?_⟩
  · obtain ⟨a, ha, hholds⟩ := h.sound n hn hon
    exact ⟨a, ha, hholds.extends h.plain hplain hext⟩
  · obtain ⟨n, hn, hon, hholds⟩ := h.complete a ha
    exact ⟨n, hn, hon, hholds.extends h.plain hplain hext⟩

/-! ### Retiring a subtree -/

/-- The statements that stay active when those of a subtree are deactivated. -/
theorem Sound.mem_deactivateOwned (hs : s.Sound) {id : SubtreeId} (hon : n.isActive = true) :
    n ∈ (s.deactivateOwned id).graph.nodes ↔ n ∈ s.graph.nodes ∧ n.owner ≠ some id := by
  refine (hs.graph.mem_foldl_deactivate_of_active hon).trans (and_congr_right fun hn => not_congr ?_)
  constructor
  · intro howned
    obtain ⟨m, hm, hid⟩ := List.mem_map.1 howned
    obtain ⟨hm, howner⟩ := List.mem_filter.1 hm
    obtain rfl := Keyed.eq_of_key_eq hs.graph.nodes (List.mem_of_mem_filter hm) hn hid
    exact of_decide_eq_true howner
  · intro howner
    exact List.mem_map_of_mem (List.mem_filter.2 ⟨List.mem_filter.2 ⟨hn, hon⟩, by simp [howner]⟩)

theorem Represents.deactivateOwned (h : s.Represents c) (hs : s.Sound) (id : SubtreeId) :
    (s.deactivateOwned id).Represents (c.retire id) := by
  have hext := (s.evolves_deactivate ((s.graph.nodesOwnedBy id).map GraphNode.id) hs).2
  have hplain : (s.deactivateOwned id).Plain :=
    ⟨h.plain.procedures, (DependencyGraph.foldl_deactivate_procedures _ _).trans h.plain.records⟩
  refine ⟨hplain, fun a ha => h.entries a (Contents.mem_retire.1 ha).1, fun n hn hon => ?_,
    fun a ha => ?_⟩
  · obtain ⟨hn, howner⟩ := (hs.mem_deactivateOwned hon).1 hn
    obtain ⟨a, ha, hholds⟩ := h.sound n hn hon
    exact ⟨a, Contents.mem_retire.2 ⟨ha, hholds.owner ▸ howner⟩, hholds.extends h.plain hplain hext⟩
  · obtain ⟨ha, howner⟩ := Contents.mem_retire.1 ha
    obtain ⟨n, hn, hon, hholds⟩ := h.complete a ha
    exact ⟨n, (hs.mem_deactivateOwned hon).2 ⟨hn, hholds.owner ▸ howner⟩, hon,
      hholds.extends h.plain hplain hext⟩

/-- A retired subtree takes its assignments with it. -/
theorem Represents.retire (h : s.Represents c) (hs : s.Sound) (id : SubtreeId) :
    (s.retire id).Represents (c.retire id) := by
  have hsound := (s.evolves_deactivate ((s.graph.nodesOwnedBy id).map GraphNode.id) hs).1
  obtain ⟨updates, hwithout⟩ := s.exists_withoutStatements_eq id
  have hrepresents : (s.withoutStatements id).Represents (c.retire id) := by
    rw [hwithout]
    exact (h.deactivateOwned hs id).scheduled hsound _ _ _
  have hnone : (s.withoutStatements id).proceduresOwnedBy id = [] := by
    rw [proceduresOwnedBy, hrepresents.plain.procedures]
    rfl
  rw [retire_eq, hnone]
  exact hrepresents

/-! ### Adding an assignment -/

/-- An active statement is replaced by a new assignment if it belongs to no subtree and assigns the same
slot. -/
theorem mem_superseded (hs : s.Sound) (hn : n ∈ s.graph.nodes) (hon : n.isActive = true)
    {slot : Nat} : n.id ∈ s.superseded slot ↔
      n.owner = none ∧ n.defines = some (.global slot) := by
  have hnode : s.graph.node? n.id = some n := hs.graph.node?_eq_some.2 ⟨hn, rfl⟩
  rw [superseded, List.mem_filter, hs.graph.mem_writersOf, hnode]
  simp only [Option.any_some, Option.isNone_iff_eq_none]
  constructor
  · rintro ⟨⟨m, hm, hid, -, hdefines⟩, howner⟩
    obtain rfl := Keyed.eq_of_key_eq hs.graph.nodes hm hn hid
    exact ⟨howner, hdefines⟩
  · rintro ⟨howner, hdefines⟩
    exact ⟨⟨n, hn, rfl, hon, hdefines⟩, howner⟩

section Assignment

variable {value : Expr}

theorem Plain.notes_emitValue (h : s.Plain) (target : String) (hvalue : value.isPlain = true) :
    Emission.Notes value.names { state := s.beforeValue target }
      (s.emitValue target value).2 := by
  refine notes_emit _ value hvalue ?_
  change (s.declare target).2.root.procedures.procedures = []
  rw [declare_procedures]
  exact h.procedures

theorem Plain.assigned (h : s.Plain) (owner : Option SubtreeId) (target : String)
    (hvalue : value.isPlain = true) :
    (s.assigned owner target value).Plain where
  procedures := by
    change (s.emitValue target value).2.state.root.procedures.procedures = []
    rw [(h.notes_emitValue target hvalue).procedures]
    change (s.declare target).2.root.procedures.procedures = []
    rw [declare_procedures]
    exact h.procedures
  records := by
    change ((s.emitValue target value).2.state.graph.insertNode _).procedures = []
    rw [DependencyGraph.insertNode_procedures, s.graph_emitValue target value,
      DependencyGraph.foldl_deactivate_procedures]
    exact h.records

/-- After an assignment, its variable has the slot that it was given. -/
theorem Plain.indexOf?_assigned (h : s.Plain) (owner : Option SubtreeId) (target : String)
    (hvalue : value.isPlain = true) :
    (s.assigned owner target value).root.symbols.indexOf? target = some (s.declare target).1 :=
  (h.notes_emitValue target hvalue).slot target _ (s.indexOf?_declare target)

/-- The new statement has the new assignment. -/
theorem Plain.holds_assigned (h : s.Plain) (hs : s.Sound) (owner : Option SubtreeId)
    (target : String) (hvalue : value.isPlain = true) :
    (s.assigned owner target value).Holds (s.assignmentNode owner target value)
      ⟨owner, target, value⟩ := by
  have hnotes := h.notes_emitValue target hvalue
  have hplain := h.assigned owner target hvalue
  refine ⟨rfl, ⟨_, h.indexOf?_assigned owner target hvalue, ?_⟩, hnotes.known, fun v hv => ?_⟩
  · refine (hs.assigns_assigned owner target value).of_code
      (value.code_congr (fun name hname => ?_) _)
    obtain ⟨i, hi⟩ := hnotes.known name hname
    exact (naming_eq_global hplain.procedures hi).trans
      (naming_eq_global (s := (s.emitValue target value).2.state) hplain.procedures hi).symm
  · have hcalls : (s.assignmentNode owner target value).calls = [] := hnotes.calls
    rw [GraphNode.uses, hcalls, List.map_nil, List.append_nil] at hv
    obtain ⟨key, hkey, rfl⟩ := List.mem_map.1 hv
    obtain ⟨i, hi, rfl⟩ := List.mem_map.1 hkey
    rcases hnotes.reads i hi with hnil | ⟨name, hname, hslot⟩
    · cases hnil
    · exact ⟨name, hname, i, hslot, rfl⟩

/-- An assignment is added to the contents. -/
theorem Represents.assigned (h : s.Represents c) (hs : s.Sound) (owner : Option SubtreeId)
    (target : String) (hvalue : value.isPlain = true) :
    (s.assigned owner target value).Represents (c.assign ⟨owner, target, value⟩) := by
  have hplain := h.plain.assigned owner target hvalue
  have hext := (evolves_assigned s owner target value hs).2
  have hnew := h.plain.holds_assigned hs owner target hvalue
  have hgraph := (s.registers_declare target).graph
  have hreplaced : ∀ n ∈ s.graph.nodes, n.isActive = true → ∀ a, s.Holds n a →
      (n.id ∈ (s.declare target).2.superseded (s.declare target).1 ↔
        a.owner = none ∧ a.target = target) := by
    intro n hn hon a hholds
    rw [mem_superseded ((s.registers_declare target).evolves hs).1 (hgraph ▸ hn) hon, hholds.owner]
    refine and_congr_right fun _ => ⟨fun hdefines => ?_, fun htarget => ?_⟩
    · have hslot : (s.declare target).2.root.symbols.indexOf? a.target =
          some (s.declare target).1 :=
        indexOf?_declare_of_some (hholds.indexOf?_of_defines hdefines)
      exact eq_of_indexOf? hslot (s.indexOf?_declare target)
    · obtain ⟨slot, hslot, hassigns⟩ := hholds.assigns
      rw [htarget] at hslot
      rw [hassigns.defines, declare_of_some hslot]
  refine ⟨hplain, fun a ha => ?_, fun n hn hon => ?_, fun a ha => ?_⟩
  · rcases Contents.mem_assign.1 ha with ⟨ha, -⟩ | rfl
    · exact h.entries a ha
    · exact hvalue
  · rcases (s.mem_assigned owner target value hs hon).1 hn with rfl | ⟨hn, hstays⟩
    · exact ⟨_, Contents.mem_assign.2 (.inr rfl), hnew⟩
    · obtain ⟨a, ha, hholds⟩ := h.sound n hn hon
      have hkept := mt (hreplaced n hn hon a hholds).2 hstays
      exact ⟨a, Contents.mem_assign.2 (.inl ⟨ha, hkept⟩), hholds.extends h.plain hplain hext⟩
  · rcases Contents.mem_assign.1 ha with ⟨ha, hkept⟩ | rfl
    · obtain ⟨n, hn, hon, hholds⟩ := h.complete a ha
      have hstays := mt (hreplaced n hn hon a hholds).1 hkept
      exact ⟨n, (s.mem_assigned owner target value hs hon).2 (.inr ⟨hn, hstays⟩), hon,
        hholds.extends h.plain hplain hext⟩
    · exact ⟨_, (s.mem_assigned owner target value hs rfl).2 (.inl rfl), rfl, hnew⟩

end Assignment

end CompileState

/-! ### Whole compilations -/

/-- The variable that a statement assigns, with the expression. -/
def Statement.assignment? : Statement → Option (String × Expr)
  | .assign target value => some (target, value)
  | .define _ _ _ => none

/-- The statement assigns a plain expression. -/
def Statement.Plain (s : Statement) : Prop :=
  ∃ target value, s = .assign target value ∧ value.isPlain = true

namespace FragmentUnit

/-- The assignments of a unit; a text that is no program has none. -/
def assignments (u : FragmentUnit) : List (String × Expr) :=
  match parseProgram u.code with
  | .ok program => program.filterMap Statement.assignment?
  | .error _ => []

/-- A unit whose statements, if it has any, are assignments of plain expressions. -/
def Plain (u : FragmentUnit) : Prop :=
  ∀ program, parseProgram u.code = .ok program → ∀ s ∈ program, s.Plain

end FragmentUnit

namespace Contents

/-- The contents after compiling a fragment. -/
def compiled (c : Contents) (f : Fragment) : Contents :=
  f.units.foldl (fun c u => c.extend u.owner u.assignments) (f.retired.foldl retire c)

end Contents

namespace Progress

variable {p : Progress} {c : Contents}

theorem state_statement (h : p.state.Plain) (owner : Option SubtreeId) (target : String)
    (value : Expr) : (statement owner p (.assign target value)).state =
      p.state.assigned owner target value := by
  have hfunction : ¬ p.state.isFunction target = true := by
    simp [CompileState.isFunction, ProcedureTable.get?, h.procedures]
  rw [statement, compileStatement, compileAssignment_eq, if_neg hfunction]

theorem represents_statements {owner : Option SubtreeId} {program : List Statement}
    (hprogram : ∀ s ∈ program, s.Plain) (h : p.state.Represents c) (hs : p.state.Sound) :
    (program.foldl (statement owner) p).state.Represents
      (c.extend owner (program.filterMap Statement.assignment?)) := by
  induction program generalizing p c with
  | nil => exact h
  | cons s rest ih =>
    obtain ⟨target, value, rfl, hvalue⟩ := hprogram s List.mem_cons_self
    have hrest : ∀ s ∈ rest, s.Plain := fun s hs => hprogram s (List.mem_cons_of_mem _ hs)
    have hstate := state_statement h.plain owner target value
    rw [List.foldl_cons]
    refine ih hrest (hstate ▸ h.assigned hs owner target hvalue) ?_
    exact (stepwise_evolves.statement p owner _ hs).1

theorem represents_unit {u : FragmentUnit} (hu : u.Plain) (h : p.state.Represents c)
    (hs : p.state.Sound) : (p.unit u).state.Represents (c.extend u.owner u.assignments) := by
  unfold Progress.unit FragmentUnit.assignments
  cases hparse : parseProgram u.code with
  | ok program => exact represents_statements (hu program hparse) h hs
  | error e => exact h

theorem represents_units {units : List FragmentUnit} (hunits : ∀ u ∈ units, u.Plain)
    (h : p.state.Represents c) (hs : p.state.Sound) :
    (units.foldl unit p).state.Represents
      (units.foldl (fun c u => c.extend u.owner u.assignments) c) := by
  induction units generalizing p c with
  | nil => exact h
  | cons u rest ih =>
    have hrest : ∀ u ∈ rest, u.Plain := fun u hu => hunits u (List.mem_cons_of_mem _ hu)
    exact ih hrest (represents_unit (hunits u List.mem_cons_self) h hs) (stepwise_evolves.unit p u hs).1

end Progress

namespace CompileState

variable {s : CompileState} {c : Contents}

/-- After a compilation of plain code, the program has the contents that the compilation says. -/
theorem Represents.compiled (h : s.Represents c) (hs : s.Sound) {f : Fragment}
    (hf : ∀ u ∈ f.units, u.Plain) : (s.compiled f).Represents (c.compiled f) := by
  have hbegin := h.scheduled hs (some (if s.fullExecution then 0 else s.root.stream.size)) [] false
  have hsound := (s.evolves_beginCompile hs).1
  have hretired := hsound.foldl_retire (fun hs h id => h.retire hs id) f.retired hbegin
  exact Progress.represents_units hf (p := ⟨f.retired.foldl CompileState.retire s.beginCompile, []⟩) hretired
    (Evolves.foldl evolves_retire f.retired _ hsound).1

end CompileState

/-! ### What the contents hold -/

namespace Contents

variable {c : Contents} {b : Entry} {owner : Option SubtreeId} {more : List (String × Expr)}
  {x : String}

/-- An assignment is added unless it was there before, and only those that belong to no subtree are
replaced. -/
theorem mem_extend (h : b ∈ c.extend owner more) :
    b ∈ c ∧ (b.owner = none → ∀ a ∈ more, a.1 ≠ b.target) ∨
      b.owner = owner ∧ (b.target, b.value) ∈ more := by
  induction more generalizing c with
  | nil => exact .inl ⟨h, fun _ _ ha => by cases ha⟩
  | cons first rest ih =>
    rcases ih h with ⟨hb, hrest⟩ | ⟨howner, hmem⟩
    · rcases mem_assign.1 hb with ⟨hb, hkept⟩ | rfl
      · refine .inl ⟨hb, fun hnone a ha => ?_⟩
        rcases List.mem_cons.1 ha with rfl | ha
        · exact fun htarget => hkept ⟨hnone, htarget.symm⟩
        · exact hrest hnone a ha
      · exact .inr ⟨rfl, List.mem_cons_self⟩
    · exact .inr ⟨howner, List.mem_cons_of_mem _ hmem⟩

theorem mem_extend_of_mem (h : b ∈ c) (hkept : b.owner = none → ∀ a ∈ more, a.1 ≠ b.target) :
    b ∈ c.extend owner more := by
  induction more generalizing c with
  | nil => exact h
  | cons first rest ih =>
    refine ih (mem_assign.2 (.inl ⟨h, ?_⟩)) fun hnone a ha => hkept hnone a (List.mem_cons_of_mem _ ha)
    rintro ⟨hnone, htarget⟩
    exact hkept hnone first List.mem_cons_self htarget.symm

/-- The assignments of a subtree are all kept. -/
theorem mem_extend_owned {id : SubtreeId} {a : String × Expr} (h : a ∈ more) :
    ⟨some id, a.1, a.2⟩ ∈ c.extend (some id) more := by
  induction more generalizing c with
  | nil => cases h
  | cons first rest ih =>
    change _ ∈ (c.assign ⟨some id, first.1, first.2⟩).extend (some id) rest
    rcases List.mem_cons.1 h with rfl | h
    · exact mem_extend_of_mem (mem_assign.2 (.inr rfl)) fun hnone => by cases hnone
    · exact ih h

/-- A variable that is assigned stays so. -/
theorem target_extend (h : (∃ b ∈ c, b.target = x) ∨ ∃ a ∈ more, a.1 = x) :
    ∃ b ∈ c.extend owner more, b.target = x := by
  induction more generalizing c with
  | nil =>
    refine h.resolve_right ?_
    rintro ⟨a, ha, -⟩
    cases ha
  | cons first rest ih =>
    refine ih ?_
    by_cases hfirst : first.1 = x
    · exact .inl ⟨_, mem_assign.2 (.inr rfl), hfirst⟩
    · rcases h with ⟨b, hb, rfl⟩ | ⟨a, ha, rfl⟩
      · exact .inl ⟨b, mem_assign.2 (.inl ⟨hb, fun hkept => hfirst hkept.2.symm⟩), rfl⟩
      · rcases List.mem_cons.1 ha with rfl | ha
        · exact absurd rfl hfirst
        · exact .inr ⟨a, ha, rfl⟩

section Compiled

variable {f : Fragment} {units : List FragmentUnit}

theorem mem_retired {retired : List SubtreeId} : b ∈ retired.foldl retire c ↔
    b ∈ c ∧ ∀ id ∈ retired, b.owner ≠ some id := by
  induction retired generalizing c with
  | nil => simp
  | cons id rest ih =>
    rw [List.foldl_cons, ih, mem_retire]
    simp [and_assoc]

theorem mem_units (h : b ∈ units.foldl (fun c u => c.extend u.owner u.assignments) c) :
    b ∈ c ∧ (b.owner = none → ∀ u ∈ units, ∀ a ∈ u.assignments, a.1 ≠ b.target) ∨
      ∃ u ∈ units, b.owner = u.owner ∧ (b.target, b.value) ∈ u.assignments := by
  induction units generalizing c with
  | nil => exact .inl ⟨h, fun _ _ hu => by cases hu⟩
  | cons first rest ih =>
    rcases ih h with ⟨hb, hrest⟩ | ⟨u, hu, howner, hmem⟩
    · rcases mem_extend hb with ⟨hb, hfirst⟩ | ⟨howner, hmem⟩
      · refine .inl ⟨hb, fun hnone u hu => ?_⟩
        rcases List.mem_cons.1 hu with rfl | hu
        · exact hfirst hnone
        · exact hrest hnone u hu
      · exact .inr ⟨first, List.mem_cons_self, howner, hmem⟩
    · exact .inr ⟨u, List.mem_cons_of_mem _ hu, howner, hmem⟩

theorem mem_units_of_mem (h : b ∈ c) (howner : b.owner ≠ none) :
    b ∈ units.foldl (fun c u => c.extend u.owner u.assignments) c := by
  induction units generalizing c with
  | nil => exact h
  | cons first rest ih => exact ih (mem_extend_of_mem h fun hnone => absurd hnone howner)

theorem mem_units_owned {u : FragmentUnit} (hu : u ∈ units) {id : SubtreeId}
    (howner : u.owner = some id) {a : String × Expr} (ha : a ∈ u.assignments) :
    ⟨some id, a.1, a.2⟩ ∈ units.foldl (fun c u => c.extend u.owner u.assignments) c := by
  induction units generalizing c with
  | nil => cases hu
  | cons first rest ih =>
    rw [List.foldl_cons]
    rcases List.mem_cons.1 hu with rfl | hu
    · refine mem_units_of_mem ?_ (by simp)
      rw [howner]
      exact mem_extend_owned ha
    · exact ih hu

theorem target_units (h : (∃ b ∈ c, b.target = x) ∨ ∃ u ∈ units, ∃ a ∈ u.assignments, a.1 = x) :
    ∃ b ∈ units.foldl (fun c u => c.extend u.owner u.assignments) c, b.target = x := by
  induction units generalizing c with
  | nil =>
    refine h.resolve_right ?_
    rintro ⟨u, hu, -⟩
    cases hu
  | cons first rest ih =>
    refine ih ?_
    rcases h with hc | ⟨u, hu, ha⟩
    · exact .inl (target_extend (.inl hc))
    · rcases List.mem_cons.1 hu with rfl | hu
      · exact .inl (target_extend (.inr ha))
      · exact .inr ⟨u, hu, ha⟩

/-- After a compilation, a subtree has its new assignments, and the old ones unless it is retired. -/
theorem mem_compiled_owned {id : SubtreeId} {x : String} {e : Expr} :
    ⟨some id, x, e⟩ ∈ c.compiled f ↔ ⟨some id, x, e⟩ ∈ c ∧ id ∉ f.retired ∨
      ∃ u ∈ f.units, u.owner = some id ∧ (x, e) ∈ u.assignments := by
  constructor
  · intro h
    rcases mem_units h with ⟨hb, -⟩ | ⟨u, hu, howner, hmem⟩
    · obtain ⟨hb, hretired⟩ := mem_retired.1 hb
      exact .inl ⟨hb, fun hid => hretired id hid rfl⟩
    · exact .inr ⟨u, hu, howner.symm, hmem⟩
  · rintro (⟨hb, hretired⟩ | ⟨u, hu, howner, hmem⟩)
    · refine mem_units_of_mem (mem_retired.2 ⟨hb, fun id' hid' heq => ?_⟩) (by simp)
      cases heq
      exact hretired hid'
    · exact mem_units_owned hu howner hmem

/-- After a compilation, an assignment without a subtree is new, or it is old and nothing new assigns
its variable. -/
theorem mem_compiled_unowned {x : String} {e : Expr} (h : ⟨none, x, e⟩ ∈ c.compiled f) :
    ⟨none, x, e⟩ ∈ c ∧ (∀ u ∈ f.units, ∀ a ∈ u.assignments, a.1 ≠ x) ∨
      ∃ u ∈ f.units, u.owner = none ∧ (x, e) ∈ u.assignments := by
  rcases mem_units h with ⟨hb, hkept⟩ | ⟨u, hu, howner, hmem⟩
  · exact .inl ⟨(mem_retired.1 hb).1, hkept rfl⟩
  · exact .inr ⟨u, hu, howner.symm, hmem⟩

/-- After a compilation, a variable is assigned if something new assigns it, or something old that is
not retired. -/
theorem target_compiled {x : String} (h : (∃ b ∈ c, b.target = x ∧ ∀ id ∈ f.retired,
    b.owner ≠ some id) ∨ ∃ u ∈ f.units, ∃ a ∈ u.assignments, a.1 = x) :
    ∃ b ∈ c.compiled f, b.target = x := by
  refine target_units (h.imp_left ?_)
  rintro ⟨b, hb, htarget, hretired⟩
  exact ⟨b, mem_retired.2 ⟨hb, hretired⟩, htarget⟩

end Compiled

end Contents

end Reflow
