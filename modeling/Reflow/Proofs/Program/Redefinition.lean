import Reflow.Proofs.Program.Consistency
/-!
# Functions that a statement does not use

A statement may call a function through a value without using it by name. Whether the evaluation of a
statement depends on such functions shows when these are redefined: if it succeeds however they are
redefined, then it calls none of them, and its datum is the same when values lead only to procedures that
the statement uses.

## Main definitions

* `Executable.redefined`: a program with other definitions for its procedures.
* `Executable.trapped`: a program in which all procedures but some fault when they are called.

## Main results

* `Expr.datum?_of_forall`: an expression has a datum if all that it needs is answered.
* `Sound.datum?_of_trapped`: a statement with a datum in all trapped programs uses all that it calls.
* `Sound.datum?_of_redefined`: so does a statement that can be evaluated however other functions are
  redefined.
-/

namespace Reflow

/-! ### What an expression needs -/

/-- What the instruction asks for is answered in the surroundings `w` if it is answered in all of `ws`. -/
def Instruction.Covered {ι : Type} (w : Surroundings) (ws : ι → Surroundings) : Instruction → Prop
  | loadGlobal slot => (∀ i, ∃ d, (ws i).slots[slot]? = some d) → ∃ d, w.slots[slot]? = some d
  | pushFunction pointer => (∀ i, ∃ name, (ws i).names pointer = some name) →
      ∃ name, w.names pointer = some name
  | call p _ => ∀ args, (∀ i, ∃ d, (ws i).call p args = some d) → ∃ d, w.call p args = some d
  | callPointer _ => ∀ f args, (∀ i, ∃ d, (ws i).apply f args = some d) →
      ∃ d, w.apply f args = some d
  | _ => True

section Option

variable {α β : Type} {a? : Option α} {a : α} {f : α → Option β}

theorem exists_of_map {f : α → β} (h : ∃ b, a?.map f = some b) : ∃ a, a? = some a := by
  obtain ⟨b, hb⟩ := h
  obtain ⟨a, ha, -⟩ := Option.map_eq_some_iff.1 hb
  exact ⟨a, ha⟩

theorem exists_of_bind (h : ∃ b, a?.bind f = some b) : ∃ a, a? = some a := by
  obtain ⟨b, hb⟩ := h
  obtain ⟨a, ha, -⟩ := Option.bind_eq_some_iff.1 hb
  exact ⟨a, ha⟩

theorem exists_of_bind_some (ha : a? = some a) (h : ∃ b, a?.bind f = some b) : ∃ b, f a = some b := by
  rwa [ha] at h

end Option

section Covered

variable {ι : Type} {w : Surroundings} {ws : ι → Surroundings} {σ : Naming} {args : List Datum}

theorem Referent.datum?_of_forall {r : Referent} (hr : r.load.Covered w ws)
    (h : ∀ i, ∃ d, r.datum? (ws i) args = some d) : ∃ d, r.datum? w args = some d := by
  cases r with
  | argument k => exact ⟨_, rfl⟩
  | procedure p pointer =>
    obtain ⟨name, hname⟩ := hr fun i => exists_of_map (h i)
    exact ⟨_, Option.map_eq_some_iff.2 ⟨name, hname, rfl⟩⟩
  | global slot => exact hr h

/-- What has a datum in `w` has the same in all of `ws`. -/
theorem Expr.datum?_all {e : Expr}
    (he : e.Refers σ fun i => i.Covered w ws ∧ ∀ k, i.Agrees (fun _ _ => True) w (ws k)) {d : Datum}
    (hd : e.datum? w σ args = some d) (k : ι) : e.datum? (ws k) σ args = some d :=
  (Expr.datum?_mono (Datum.overAll_true args) e (he.imp (fun _ h => h.2 k) e) hd).1

theorem Expr.data?_all {es : List Expr}
    (hes : Expr.RefersAll σ (fun i => i.Covered w ws ∧ ∀ k, i.Agrees (fun _ _ => True) w (ws k)) es)
    {ds : List Datum} (hds : Expr.data? w σ args es = some ds) (k : ι) :
    Expr.data? (ws k) σ args es = some ds :=
  (Expr.data?_mono (Datum.overAll_true args) es (hes.imp (fun _ h => h.2 k) es) hds).1

mutual

/-- An expression with a datum in all of `ws` has one in `w`, if there all that it asks for is answered as
it is in `ws`. -/
theorem Expr.datum?_of_forall : (e : Expr) →
    e.Refers σ (fun i => i.Covered w ws ∧ ∀ k, i.Agrees (fun _ _ => True) w (ws k)) →
    (∀ i, ∃ d, e.datum? (ws i) σ args = some d) → ∃ d, e.datum? w σ args = some d
  | .null, _, _ | .bool _, _, _ | .int _, _, _ | .double _, _, _ | .str _, _, _ => ⟨_, rfl⟩
  | .name n, he, h => Referent.datum?_of_forall he.1 h
  | .array items, he, h => by
    obtain ⟨ds, hds⟩ := Expr.data?_of_forall items he fun k => exists_of_map (h k)
    exact ⟨.array ds, Option.map_eq_some_iff.2 ⟨ds, hds, rfl⟩⟩
  | .index target i, he, h => by
    obtain ⟨t, ht⟩ := Expr.datum?_of_forall target he.1 fun k => exists_of_bind (h k)
    have hrest := fun k => exists_of_bind_some (Expr.datum?_all he.1 ht k) (h k)
    obtain ⟨j, hj⟩ := Expr.datum?_of_forall i he.2 fun k => exists_of_bind (hrest k)
    exact ⟨t.index j, by simp [Expr.datum?, ht, hj]⟩
  | .call callee operands, he, h => by
    obtain ⟨hcallee, hoperands⟩ := he
    simp only [Expr.datum?] at h ⊢
    cases hσ : σ callee with
    | procedure p pointer =>
      simp only [hσ] at h hcallee ⊢
      obtain ⟨ds, hds⟩ := Expr.data?_of_forall operands hoperands fun k => exists_of_bind (h k)
      obtain ⟨d, hd⟩ := hcallee.1 ds fun k =>
        exists_of_bind_some (Expr.data?_all hoperands hds k) (h k)
      exact ⟨d, by rw [hds, Option.bind_some, hd]⟩
    | argument j | global j =>
      simp only [hσ] at h hcallee ⊢
      obtain ⟨f, hf⟩ := Referent.datum?_of_forall hcallee.1.1 fun k => exists_of_bind (h k)
      have hrest := fun k => exists_of_bind_some
        (Referent.datum?_mono (hcallee.1.2 k) (Datum.overAll_true args) hf).1 (h k)
      obtain ⟨ds, hds⟩ := Expr.data?_of_forall operands hoperands fun k => exists_of_bind (hrest k)
      obtain ⟨d, hd⟩ := hcallee.2.1 f ds fun k =>
        exists_of_bind_some (Expr.data?_all hoperands hds k) (hrest k)
      exact ⟨d, by simp [hf, hds, hd]⟩
  | .unary op operand, he, h => by
    obtain ⟨a, ha⟩ := Expr.datum?_of_forall operand he fun k => exists_of_map (h k)
    exact ⟨a.unary op, Option.map_eq_some_iff.2 ⟨a, ha, rfl⟩⟩
  | .binary op lhs rhs, he, h => by
    obtain ⟨a, ha⟩ := Expr.datum?_of_forall lhs he.1 fun k => exists_of_bind (h k)
    have hrest := fun k => exists_of_bind_some (Expr.datum?_all he.1 ha k) (h k)
    obtain ⟨b, hb⟩ := Expr.datum?_of_forall rhs he.2 fun k => exists_of_bind (hrest k)
    exact ⟨a.binary op b, by simp [Expr.datum?, ha, hb]⟩
  | .cond test yes no, he, h => by
    obtain ⟨a, ha⟩ := Expr.datum?_of_forall test he.1 fun k => exists_of_bind (h k)
    have hbranch := fun k => exists_of_bind_some (Expr.datum?_all he.1 ha k) (h k)
    rw [Expr.datum?, ha]
    by_cases htruthy : a.truthy
    · simp only [if_pos htruthy, Option.bind_eq_bind, Option.bind_some] at hbranch ⊢
      exact Expr.datum?_of_forall yes he.2.1 hbranch
    · simp only [if_neg htruthy, Option.bind_eq_bind, Option.bind_some] at hbranch ⊢
      exact Expr.datum?_of_forall no he.2.2 hbranch

theorem Expr.data?_of_forall : (es : List Expr) →
    Expr.RefersAll σ (fun i => i.Covered w ws ∧ ∀ k, i.Agrees (fun _ _ => True) w (ws k)) es →
    (∀ i, ∃ ds, Expr.data? (ws i) σ args es = some ds) → ∃ ds, Expr.data? w σ args es = some ds
  | [], _, _ => ⟨[], rfl⟩
  | e :: es, he, h => by
    obtain ⟨d, hd⟩ := Expr.datum?_of_forall e he.1 fun k => exists_of_bind (h k)
    have hrest := fun k => exists_of_bind_some (Expr.datum?_all he.1 hd k) (h k)
    obtain ⟨rest, hds⟩ := Expr.data?_of_forall es he.2 fun k => exists_of_bind (hrest k)
    exact ⟨d :: rest, by simp [Expr.data?, hd, hds]⟩

end

end Covered

/-! ### Other definitions -/

/-- The program in which every procedure is replaced by what `f` gives for it, under its name. -/
def Executable.redefined (x : Executable) (f : Procedure → Procedure) : Executable :=
  { x with
    procedures := x.procedures.map fun table =>
      { table with
        procedures := table.procedures.map fun p => { f p with name := p.name, index := p.index } } }

namespace Executable

variable {x : Executable} {f : Procedure → Procedure}

theorem procedureOf?_redefined (block index : Nat) : (x.redefined f).procedureOf? block index =
    (x.procedureOf? block index).map fun p => { f p with name := p.name, index := p.index } := by
  simp only [redefined, procedureOf?, ProcedureTable.at?, List.getElem?_map]
  cases x.procedures[block]? <;> simp

/-- Function pointers keep their names. -/
theorem pointerName?_redefined : (x.redefined f).pointerName? = x.pointerName? := by
  funext pointer
  simp only [pointerName?, procedureOf?_redefined]
  change ((x.pointers.target? pointer).bind _).map _ = _
  cases x.pointers.target? pointer <;> simp [Function.comp_def]

/-- Replacing every procedure by itself changes nothing. -/
theorem redefined_eq_self (h : ∀ table ∈ x.procedures, ∀ p ∈ table.procedures, f p = p) :
    x.redefined f = x := by
  have hprocedures : ∀ table ∈ x.procedures, ({ table with procedures := table.procedures.map fun p =>
      { f p with name := p.name, index := p.index } } : ProcedureTable) = table := by
    intro table htable
    have hmap : (table.procedures.map fun p =>
        ({ f p with name := p.name, index := p.index } : Procedure)) = table.procedures :=
      (List.map_congr_left fun p hp => by rw [h table htable p hp]; rfl).trans (List.map_id _)
    rw [hmap]
  unfold redefined
  rw [List.map_congr_left hprocedures, List.map_id']

theorem definition?_redefined (index : Nat) : (x.redefined f).definition? index =
    (((x.procedure? index).map f).filter (·.isActive)).bind fun p => p.body.map fun b =>
      ⟨p.arity, (x.stream? b).map fun stream => bodySource stream.code⟩ := by
  rw [definition?, procedure?, procedureOf?_redefined]
  change (Option.filter _ (Option.map _ (x.procedure? index))).bind _ = _
  cases x.procedure? index with
  | none => rfl
  | some p =>
    by_cases hon : (f p).isActive = true
    · simp only [Option.map_some, Option.filter_some, hon, if_true]
      rfl
    · simp only [Option.map_some, Option.filter_some, hon, Bool.false_eq_true, if_false]
      rfl

open Classical in
/-- A procedure with the property `Q` is left as it is. Any other one is active, has `k` parameters and no
code. -/
noncomputable def trap (x : Executable) (Q : Nat → Prop) (k : Nat) (p : Procedure) : Procedure :=
  if Q p.index then p
  else { p with params := List.replicate k "", body := some x.streams.length, isActive := true }

/-- The program in which only procedures with the property `Q` are left as they are. A call of any other
one faults, if it has `k` arguments. -/
noncomputable def trapped (x : Executable) (Q : Nat → Prop) (k : Nat) : Executable :=
  x.redefined (x.trap Q k)

theorem stream?_trapped {Q : Nat → Prop} {k : Nat} : (x.trapped Q k).stream? = x.stream? := rfl

/-- If a call of a procedure with the property is answered in every trapped program, it is answered in the
program. -/
def AnswersTrapped (x : Executable) (Q : Nat → Prop) (slots : List Datum) (depth : Nat) : Prop :=
  ∀ p args, Q p →
    (∀ k, ∃ d, (x.trapped Q k).answer (fun _ => True) slots depth p args = some d) →
    ∃ d, x.answer Q slots depth p args = some d

end Executable

namespace CompileState.Sound

variable {s : CompileState} {Q : Nat → Prop} {k : Nat}

/-- A procedure with the property keeps its definition. -/
theorem definition?_trapped (h : s.Sound) {p : Nat} (hp : Q p) :
    (s.executable.trapped Q k).definition? p = s.executable.definition? p := by
  rw [Executable.trapped, Executable.definition?_redefined, Executable.definition?]
  cases hq : s.executable.procedure? p with
  | none => rfl
  | some q =>
    have hindex : q.index = p := h.index_of_getElem? hq
    rw [Option.map_some, Executable.trap, hindex, if_pos hp]

/-- Any other procedure has lost its code. -/
theorem definition?_trapped_of_not (h : s.Sound) {p : Nat} (hp : ¬ Q p) {q : Procedure}
    (hq : s.executable.procedure? p = some q) :
    (s.executable.trapped Q k).definition? p = some ⟨k, none⟩ := by
  have hindex : q.index = p := h.index_of_getElem? hq
  have hstream : s.executable.stream? s.executable.streams.length = none :=
    List.getElem?_eq_none (Nat.le_refl _)
  rw [Executable.trapped, Executable.definition?_redefined, hq, Option.map_some, Executable.trap, hindex,
    if_neg hp]
  simp [Option.filter_some, Procedure.arity, hstream]

/-- The bodies of a trapped program are those of the program. -/
theorem functional_trapped (h : s.Sound) : (s.executable.trapped Q k).Functional where
  nested b index := by
    rw [Executable.trapped, Executable.procedureOf?_redefined, h.procedureOf?_succ, Option.map_none]
  targets := h.functional.targets
  bodies index p b stream hp hon hb hstream := by
    rw [Executable.procedure?, Executable.trapped, Executable.procedureOf?_redefined] at hp
    obtain ⟨q, hq, rfl⟩ := Option.map_eq_some_iff.1 hp
    rw [Executable.trapped, Executable.pointerName?_redefined]
    by_cases hQ : Q q.index
    · simp only [Executable.trap, if_pos hQ] at hon hb ⊢
      exact h.functional.bodies index q b stream hq hon hb hstream
    · simp only [Executable.trap, if_neg hQ, Option.some.injEq] at hb
      subst hb
      rw [Executable.stream?_trapped, Executable.stream?,
        List.getElem?_eq_none (Nat.le_refl _)] at hstream
      cases hstream

/-- If the procedures with the property call only such procedures, they mean the same in every trapped
program. -/
theorem transfers_trapped (h : s.Sound) (hclosed : s.executable.Closed Q) (slots : List Datum) :
    Transfers s.executable (s.executable.trapped Q k) Q (fun _ => True) slots slots
      (Instruction.Calls Q) fun _ _ => True :=
  transfers_of_closed Executable.pointerName?_redefined rfl (fun _ => h.definition?_trapped) hclosed
    fun _ hp => ⟨trivial, hp⟩

/-- What calls only procedures with the property finds an answer in the program if it finds one in every
trapped program: a call of another procedure would find none where this has as many parameters as the call
has arguments. -/
theorem covered_trapped (h : s.Sound) {slots : List Datum} {depth : Nat}
    (hcall : s.executable.AnswersTrapped Q slots depth) {i : Instruction} (hi : i.Calls Q) :
    i.Covered (s.executable.surroundings Q slots depth) fun k =>
      (s.executable.trapped Q k).surroundings (fun _ => True) slots depth := by
  cases i with
  | loadGlobal slot => exact fun hall => hall 0
  | pushFunction pointer =>
    intro hall
    obtain ⟨name, hname⟩ := hall 0
    exact ⟨name, (congrFun Executable.pointerName?_redefined pointer).symm.trans hname⟩
  | call p argc => exact fun args => hcall p args hi
  | callPointer argc =>
    intro f args hall
    cases f with
    | function pointer name =>
      have hanswers : ∀ k, ∃ target, s.executable.pointers.target? pointer = some target ∧
          ∃ d, (s.executable.trapped Q k).answer (fun _ => True) slots depth target.2 args =
            some d := fun k => by
        obtain ⟨d, hd⟩ := hall k
        obtain ⟨target, htarget, hd⟩ := Option.bind_eq_some_iff.1 hd
        exact ⟨target, htarget, d, by rwa [if_pos trivial] at hd⟩
      obtain ⟨target, htarget, -⟩ := hanswers 0
      have htargets : ∀ k, ∃ d,
          (s.executable.trapped Q k).answer (fun _ => True) slots depth target.2 args = some d :=
        fun k => by
          obtain ⟨target', htarget', hd⟩ := hanswers k
          rwa [Option.some.inj (htarget.symm.trans htarget')]
      have hQ : Q target.2 := by
        by_contra hQ
        obtain ⟨p, hp, rfl⟩ := h.tabled.targets _ (List.mem_of_getElem? htarget)
        have hdef := h.definition?_trapped_of_not (k := args.length) hQ (List.getElem?_eq_getElem hp)
        obtain ⟨d, hd⟩ := htargets args.length
        cases depth <;> simp [Executable.answer, Executable.calling, hdef] at hd
      obtain ⟨d, hd⟩ := hcall target.2 args hQ htargets
      refine ⟨d, Option.bind_eq_some_iff.2 ⟨target, htarget, ?_⟩⟩
      rw [if_pos hQ]
      exact hd
    | _ => exact ⟨.null, rfl⟩
  | _ => trivial

section Closed

variable (h : s.Sound) (hclosed : s.executable.Closed Q)
include h hclosed

/-- An expression that calls only procedures with the property has a datum if it has one in every trapped
program and if this holds of calls. -/
theorem datum?_of_trapped_call {slots : List Datum} {depth : Nat}
    (hcall : s.executable.AnswersTrapped Q slots depth)
    {σ : Naming} {args : List Datum} {e : Expr} (he : e.Refers σ (Instruction.Calls Q))
    (hall : ∀ k, ∃ d,
      e.datum? ((s.executable.trapped Q k).surroundings (fun _ => True) slots depth) σ args = some d) :
    ∃ d, e.datum? (s.executable.surroundings Q slots depth) σ args = some d := by
  refine Expr.datum?_of_forall e (he.imp (fun i hi => ⟨h.covered_trapped hcall hi, fun k => ?_⟩) e) hall
  have htransfers := h.transfers_trapped (k := k) hclosed slots
  exact htransfers.agrees (fun p argc hp args d => htransfers.answer (Nat.le_refl depth) p argc hp args d)
    i hi

theorem answersTrapped (slots : List Datum) (depth : Nat) :
    s.executable.AnswersTrapped Q slots depth := by
  induction depth with
  | zero =>
    intro p args hp hall
    obtain ⟨d, hd⟩ := hall 0
    rw [Executable.answer, Executable.calling, h.definition?_trapped hp] at hd
    exact ⟨d, hd⟩
  | succ depth ih =>
    intro p args hp hall
    simp only [Executable.answer, Executable.calling, h.definition?_trapped hp] at hall ⊢
    cases hf : s.executable.definition? p with
    | none => exact ⟨.null, rfl⟩
    | some f =>
      simp only [hf] at hall ⊢
      by_cases harity : f.arity = args.length
      · simp only [if_pos harity] at hall ⊢
        obtain ⟨source, hsource⟩ := exists_of_bind (hall 0)
        simp only [hsource, Option.bind_some] at hall ⊢
        exact datum?_of_trapped_call h hclosed ih (hclosed p f source hp hf hsource) hall
      · rw [if_neg harity]
        exact ⟨.null, rfl⟩

/-- An expression that calls only procedures with the property has a datum if it has one in every trapped
program. -/
theorem datum?_of_trapped {slots : List Datum} {depth : Nat} {σ : Naming} {args : List Datum} {e : Expr}
    (he : e.Refers σ (Instruction.Calls Q)) (hall : ∀ k, ∃ d,
      e.datum? ((s.executable.trapped Q k).surroundings (fun _ => True) slots depth) σ args = some d) :
    ∃ d, e.datum? (s.executable.surroundings Q slots depth) σ args = some d :=
  datum?_of_trapped_call h hclosed (answersTrapped h hclosed slots depth) he hall

end Closed

/-- A statement that can be evaluated in a trapped program has a datum there. -/
theorem statement_datum?_trapped (h : s.Sound) {n : GraphNode} {slot : Nat} {σ : Naming} {e : Expr}
    (hn : s.Assigns n slot σ e) {memory : Memory} {slots : List Datum}
    (hm : memory.Shows s.executable.pointerName? slots) {limit depth : Nat} {v : Value} {m : Machine}
    (hr : (runRange (s.executable.trapped Q k) limit depth ⟨0, n.start, n.stop - 1, []⟩).run
      { memory } = .ok v m) :
    ∃ d, e.datum? ((s.executable.trapped Q k).surroundings (fun _ => True) slots depth) σ [] =
      some d := by
  have hfunctional := h.functional_trapped (Q := Q) (k := k)
  have hnames : (s.executable.trapped Q k).pointerName? = s.executable.pointerName? :=
    Executable.pointerName?_redefined
  have hstream : (s.executable.trapped Q k).stream? 0 = some s.root.stream := rfl
  rw [runRange_eq, runFrame_value (r := ⟨0, n.start, n.stop - 1, []⟩) hstream hn.carries.left
    (by simp only [hn.stop, Nat.add_sub_cancel])] at hr
  have hnamed : ∀ i ∈ e.code σ n.start, i.Named (s.executable.trapped Q k).pointerName? := by
    rw [hnames]
    exact fun i hi => h.named_of_within (hn.within i hi)
  rw [← hnames] at hm
  obtain ⟨d, hd, -⟩ := evaluate_datum? (m := { memory }) (hfunctional.quiet_enter limit depth)
    (Executable.names_pointerName? _) (hfunctional.answers slots limit depth) e
    (Expr.refers_of_code n.start e hnamed) hm .nil hr
  exact ⟨d, hd⟩

/-- If a statement can be evaluated however the functions that it does not use are redefined, then it has
its datum also when values lead only to functions that it uses. -/
theorem datum?_of_redefined (h : s.Sound) {n : GraphNode} {slot : Nat} {σ : Naming} {e : Expr}
    (hn : s.Assigns n slot σ e) {memory : Memory} {slots : List Datum}
    (hm : memory.Shows s.executable.pointerName? slots) {limit depth : Nat}
    (hruns : ∀ f : Procedure → Procedure, (∀ p, s.Uses n p.index → f p = p) →
      ∃ v m, (runRange (s.executable.redefined f) limit depth ⟨0, n.start, n.stop - 1, []⟩).run
        { memory } = .ok v m)
    {d : Datum} (hd : e.datum? (s.executable.surroundings (fun _ => True) slots depth) σ [] = some d) :
    e.datum? (s.executable.surroundings (s.Uses n) slots depth) σ [] = some d := by
  have hcalls : ∀ {i : Instruction}, s.Touches n i → i.Calls (s.Uses n) := by
    rintro i ⟨uses, huse, hreach⟩
    cases i with
    | call p argc => exact hreach _ huse
    | _ => trivial
  have hclosed : s.executable.Closed (s.Uses n) := fun p f source hp hf hsource =>
    (h.touches_of_definition hp hf hsource).imp (fun _ => hcalls) source.2
  have hall : ∀ k, ∃ d, e.datum? ((s.executable.trapped (s.Uses n) k).surroundings (fun _ => True)
      slots depth) σ [] = some d := fun k => by
    obtain ⟨v, m, hr⟩ := hruns (s.executable.trap (s.Uses n) k) fun p hp => if_pos hp
    exact h.statement_datum?_trapped hn hm hr
  obtain ⟨d', hd'⟩ := h.datum?_of_trapped hclosed (hn.touches.imp (fun _ => hcalls) e) hall
  rwa [Executable.datum?_unique hd hd']

end CompileState.Sound

end Reflow
