import Reflow.Proofs.Program.Functions
/-!
# Consistent statements

A statement is consistent with the global slots if evaluating it again would give what its slot holds.
Whether it is depends on the functions and the slots that the statement reaches, and so a consistent
statement stays consistent for as long as these stay the same, however the rest of the program changes.

## Main definitions

* `CompileState.Regular`: a statement that alone, but for copies of it, assigns its global and does not
  read it.
* `CompileState.Consistent`: an assignment whose slot holds the value of its expression.
* `CompileState.Shares`: a function that is the same in two states of a program.

## Main results

* `Sound.transfers`: what a statement reaches is the same in a later state that shares it.
* `Consistent.transfer`: a consistent assignment stays so.
-/

namespace Reflow

namespace CompileState

/-- The active statement `n` evaluates `e` under the names `σ` and stores the value in a slot that it
does not read, not even through functions. Every other active statement that assigns the slot does the
same. -/
structure Regular (s : CompileState) (n : GraphNode) (slot : Nat) (σ : Naming) (e : Expr) :
    Prop where
  mem : n ∈ s.graph.nodes
  active : n.isActive = true
  copies : ∀ m ∈ s.graph.nodes, m.isActive = true → m.defines = n.defines → s.Assigns m slot σ e
  acyclic : ¬ s.graph.Reaches n.uses (.symbol (.global slot))

theorem Regular.assigns {s : CompileState} {n : GraphNode} {slot : Nat} {σ : Naming} {e : Expr}
    (h : s.Regular n slot σ e) : s.Assigns n slot σ e := h.copies n h.mem h.active rfl

/-- A statement uses a procedure, itself or through other procedures. -/
def Uses (s : CompileState) (n : GraphNode) (p : Nat) : Prop :=
  s.graph.Reaches n.uses (.procedure p)

/-- The slot holds what the expression of the statement `n` stands for, provided that it stands for
anything when values lead only to procedures that the statement uses. -/
def Consistent (s : CompileState) (n : GraphNode) (slots : List Datum) (slot : Nat) (σ : Naming)
    (e : Expr) : Prop :=
  ∀ depth d, e.datum? (s.executable.surroundings (s.Uses n) slots depth) σ [] = some d →
    ∃ stored, slots[slot]? = some stored ∧ stored.same d = true

/-- The procedure of an index, if it is active. -/
def activeProcedure? (s : CompileState) (p : Nat) : Option Procedure :=
  s.root.procedures.procedures[p]?.filter (·.isActive)

/-- In the states `s` and `t`, a procedure has the same definition, if any, and the same record. -/
structure Shares (s t : CompileState) (p : Nat) : Prop where
  procedure : s.activeProcedure? p = t.activeProcedure? p
  record : ∀ u : ProcedureUses, u.procedure = p →
    (u ∈ s.graph.procedures ↔ u ∈ t.graph.procedures)

theorem Shares.refl (s : CompileState) (p : Nat) : s.Shares s p := ⟨rfl, fun _ _ => .rfl⟩

theorem Shares.trans {s t u : CompileState} {p : Nat} (h : s.Shares t p) (k : t.Shares u p) :
    s.Shares u p :=
  ⟨h.procedure.trans k.procedure, fun v hv => (h.record v hv).trans (k.record v hv)⟩

/-- What the instruction refers to is in the tables, and the statement `n` reaches it. -/
def Touches (s : CompileState) (n : GraphNode) (i : Instruction) : Prop :=
  ∃ uses, i.Within s uses ∧ ∀ v ∈ uses, s.graph.Reaches n.uses v

variable {s t : CompileState} {n : GraphNode} {slots slots' : List Datum}

theorem Assigns.touches {slot : Nat} {σ : Naming} {e : Expr} (h : s.Assigns n slot σ e) :
    e.Refers σ (s.Touches n) :=
  Expr.refers_of_code n.start e fun i hi => ⟨n.uses, h.within i hi, fun _ hv => .use hv⟩

theorem Computes.of_code {p : Procedure} {u : ProcedureUses} {block : CodeBlock} {σ σ' : Naming}
    {e e' : Expr} (h : s.Computes p u block σ e)
    (hcode : block.stream.code.toList = e'.code σ' 0 ++ [.ret]) : s.Computes p u block σ' e' := by
  have heq : e.code σ 0 = e'.code σ' 0 := List.append_cancel_right (h.code.symm.trans hcode)
  exact ⟨h.body, hcode, h.start, heq ▸ h.stop, h.recorded, h.procedure, heq ▸ h.within⟩

theorem Computes.touches {p : Procedure} {u : ProcedureUses} {block : CodeBlock} {σ : Naming}
    {e : Expr} (h : s.Computes p u block σ e) (hp : s.Uses n p.index) :
    e.Refers σ (s.Touches n) :=
  Expr.refers_of_code 0 e fun i hi => ⟨u.uses, h.within i hi, fun _ hv =>
    .through h.recorded (h.procedure ▸ hp) hv⟩

namespace Sound

/-- A later state defines a procedure that it shares in the same way. -/
theorem definition?_eq (h : s.Sound) (hext : s.Extends t) {p : Nat} (hp : s.Shares t p) :
    t.executable.definition? p = s.executable.definition? p := by
  have hactive : ∀ s : CompileState,
      (s.executable.procedure? p).filter (·.isActive) = s.activeProcedure? p := fun _ => rfl
  rw [Executable.definition?, Executable.definition?, hactive, hactive, ← hp.procedure]
  cases hq : s.activeProcedure? p with
  | none => rfl
  | some q =>
    obtain ⟨hq, hon⟩ := Option.filter_eq_some_iff.1 hq
    obtain ⟨u, block, σ, e, hcomputes⟩ := h.functions q (List.mem_of_getElem? hq) hon
    obtain ⟨b, hb, hblock⟩ := hcomputes.body
    simp only [Option.bind_some, hb, Option.map_some, executable_stream?_succ, hblock,
      getElem?_of_isPrefix hext.bodies hblock]

theorem index_of_getElem? (h : s.Sound) {i : Nat} {p : Procedure}
    (hp : s.root.procedures.procedures[i]? = some p) : p.index = i := h.tabled.procedures i p hp

/-- A function pointer keeps its name. -/
theorem pointerName?_extends (h : s.Sound) (hext : s.Extends t) {pointer : Nat} {name : String}
    (hp : s.executable.pointerName? pointer = some name) :
    t.executable.pointerName? pointer = some name := by
  unfold Executable.pointerName? at hp ⊢
  obtain ⟨q, hq, rfl⟩ := Option.map_eq_some_iff.1 hp
  obtain ⟨⟨b, i⟩, htarget, hq⟩ := Option.bind_eq_some_iff.1 hq
  obtain ⟨_, -, heq⟩ := h.tabled.targets _ (List.mem_of_getElem? htarget)
  cases heq
  change s.root.procedures.procedures[i]? = some q at hq
  have hname : (t.root.procedures.procedures.map Procedure.name)[i]? = some q.name :=
    getElem?_of_isPrefix hext.names (by rw [List.getElem?_map, hq]; rfl)
  have htarget' : t.pointers.targets[pointer]? = some (0, i) :=
    getElem?_of_isPrefix hext.pointers htarget
  rw [FunctionPointers.target?, executable_pointers, htarget', Option.bind_some]
  rwa [List.getElem?_map] at hname

/-- What a definition refers to is reached from wherever the procedure is. -/
theorem touches_of_definition (h : s.Sound) {p : Nat} (hp : s.Uses n p) {f : Definition}
    (hf : s.executable.definition? p = some f) {source : Naming × Expr}
    (hsource : f.source = some source) : source.2.Refers source.1 (s.Touches n) := by
  obtain ⟨q, hq, hf⟩ := Option.bind_eq_some_iff.1 hf
  obtain ⟨b, hb, rfl⟩ := Option.map_eq_some_iff.1 hf
  obtain ⟨hq, hon⟩ := Option.filter_eq_some_iff.1 hq
  obtain ⟨stream, hstream, rfl⟩ := Option.map_eq_some_iff.1 hsource
  obtain ⟨u, block, σ, e, hcomputes⟩ := h.functions q (List.mem_of_getElem? hq) hon
  obtain rfl := Option.some.inj ((hcomputes.stream? hb).symm.trans hstream)
  exact (hcomputes.of_code (bodySource_spec hcomputes.code)).touches (h.index_of_getElem? hq ▸ hp)

/-- A statement uses no more procedures than in an earlier state that shares those it used. -/
theorem uses_back (hshares : ∀ p, s.Uses n p → s.Shares t p) {p : Nat} (hp : t.Uses n p) :
    s.Uses n p :=
  .mono (fun u hu _ hreach => ((hshares _ hreach).record u rfl).2 hu) hp

/-- What a statement reaches means the same in the later state `t` as in `s`, if `t` shares the
functions that the statement reaches and the slots agree. -/
theorem transfers (h : s.Sound) (hext : s.Extends t) (hshares : ∀ p, s.Uses n p → s.Shares t p)
    (hover : Datum.OverAll (fun q name => s.executable.pointerName? q = some name) slots)
    (hslots : ∀ k < s.globalCount, s.graph.Reaches n.uses (.symbol (.global k)) →
      slots'[k]? = slots[k]?) :
    Transfers t.executable s.executable (t.Uses n) (s.Uses n) slots' slots (s.Touches n)
      fun q name => s.executable.pointerName? q = some name where
  slot k hk d hd := by
    obtain ⟨uses, ⟨hlt, huse⟩, hreach⟩ := hk
    rw [hslots k hlt (hreach _ huse)] at hd
    exact ⟨hd, Datum.overAll_iff.1 hover d (List.mem_of_getElem? hd)⟩
  pointer q hq name hname := by
    obtain ⟨uses, hwithin, -⟩ := hq
    obtain ⟨name', hname'⟩ := h.named_of_within hwithin
    rw [h.pointerName?_extends hext hname'] at hname
    rw [hname', hname]
    exact ⟨rfl, rfl⟩
  definition p argc hp := by
    obtain ⟨uses, huse, hreach⟩ := hp
    rw [h.definition?_eq hext (hshares p (hreach _ huse))]
  body p argc f source hp hf hsource := by
    obtain ⟨uses, huse, hreach⟩ := hp
    rw [h.definition?_eq hext (hshares p (hreach _ huse))] at hf
    exact h.touches_of_definition (hreach _ huse) hf hsource
  value argc _ q name target hname htarget huse := by
    obtain ⟨_, hq, -⟩ := Option.map_eq_some_iff.1 hname
    obtain ⟨target', htarget', -⟩ := Option.bind_eq_some_iff.1 hq
    obtain rfl : target' = target :=
      Option.some.inj ((getElem?_of_isPrefix hext.pointers htarget').symm.trans htarget)
    have huse := uses_back hshares huse
    refine ⟨htarget', huse, [.procedure target'.2], List.mem_singleton_self _, fun v hv => ?_⟩
    rwa [List.mem_singleton.1 hv]

end Sound

/-- A consistent assignment stays consistent in a later state of the program that shares the functions
that its statement reaches, if its own slot and those that it reaches hold the same. -/
theorem Consistent.transfer {slot : Nat} {σ : Naming} {e : Expr} (hc : s.Consistent n slots slot σ e)
    (hn : s.Assigns n slot σ e) (h : s.Sound) (hext : s.Extends t)
    (hshares : ∀ p, s.Uses n p → s.Shares t p)
    (hover : Datum.OverAll (fun q name => s.executable.pointerName? q = some name) slots)
    (hslots : ∀ k < s.globalCount, s.graph.Reaches n.uses (.symbol (.global k)) ∨ k = slot →
      slots'[k]? = slots[k]?) : t.Consistent n slots' slot σ e := by
  intro depth d hd
  have htransfers := h.transfers hext hshares hover fun k hk hreach => hslots k hk (.inl hreach)
  rw [hslots slot hn.allocated (.inr rfl)]
  exact hc depth d (htransfers.datum? (Nat.le_refl depth) (by trivial) hn.touches hd)

end CompileState

end Reflow
