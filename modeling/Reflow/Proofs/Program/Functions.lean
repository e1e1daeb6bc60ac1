import Reflow.Proofs.Program.Running
/-!
# Functions of a program

What a call answers depends only on the data of its arguments, on what the global slots stand for and on
how deeply calls may still be nested. The datum of a statement is therefore determined by the slots, and
it is the same in all programs and on all slots that agree in what the statement reaches.

A call of a function value may reach any function that has a pointer. The answers are therefore defined
for any choice of the procedures that may be called in this way. A call of a value that leads to another
procedure has no answer.

## Main definitions

* `Executable.definition?`: the expression that a procedure computes.
* `Executable.answer`: the answer to a call.
* `Executable.Direct`: a program without calls of function values.

## Main results

* `Executable.Functional.answers`: the machine answers calls as `Executable.answer` says.
* `Sound.statement_datum?`: a statement has the datum of its expression as value.
* `Transfers.datum?`: the datum of an expression in another program and on other slots.
-/

namespace Reflow

/-- What a procedure computes: an expression, with the names in it, unless its code is missing. -/
structure Definition where
  arity : Nat
  source : Option (Naming × Expr)

open Classical in
/-- An expression, with the names in it, whose code followed by a return is the given code. -/
noncomputable def bodySource (code : Array Instruction) : Naming × Expr :=
  if h : ∃ source : Naming × Expr, code.toList = source.2.code source.1 0 ++ [.ret] then h.choose
  else (fun _ => .argument 0, .null)

theorem bodySource_spec {code : Array Instruction} {σ : Naming} {e : Expr}
    (h : code.toList = e.code σ 0 ++ [.ret]) :
    code.toList = (bodySource code).2.code (bodySource code).1 0 ++ [.ret] := by
  have hex : ∃ source : Naming × Expr, code.toList = source.2.code source.1 0 ++ [.ret] :=
    ⟨(σ, e), h⟩
  rw [bodySource, dif_pos hex]
  exact hex.choose_spec

namespace Executable

/-- What an active procedure computes. -/
noncomputable def definition? (x : Executable) (index : Nat) : Option Definition :=
  ((x.procedure? index).filter (·.isActive)).bind fun p => p.body.map fun b =>
    ⟨p.arity, (x.stream? b).map fun stream => bodySource stream.code⟩

/-- The answer to the call of a procedure whose body answers as given: null for a function without a
definition or with another number of arguments. -/
noncomputable def calling (x : Executable) (p : Nat) (args : List Datum)
    (body : Naming × Expr → Option Datum) : Option Datum :=
  match x.definition? p with
  | none => some .null
  | some f => if f.arity = args.length then f.source.bind body else some .null

open Classical in
/-- The answer to the call of a value, given those to calls of procedures, if only procedures with the
property `Q` may be called in this way. -/
noncomputable def applying (x : Executable) (Q : Nat → Prop)
    (call : Nat → List Datum → Option Datum) : Datum → List Datum → Option Datum
  | .function pointer _, args =>
    (x.pointers.target? pointer).bind fun target => if Q target.2 then call target.2 args else none
  | _, _ => some .null

/-- What an expression finds around it, given the answers to calls of procedures. -/
noncomputable def around (x : Executable) (Q : Nat → Prop) (slots : List Datum)
    (call : Nat → List Datum → Option Datum) : Surroundings :=
  ⟨slots, call, x.applying Q call, x.pointerName?⟩

/-- The answer to the call of a procedure when calls may be nested `depth` deep. There is none if calls
are nested more deeply. -/
noncomputable def answer (x : Executable) (Q : Nat → Prop) (slots : List Datum) :
    Nat → Nat → List Datum → Option Datum
  | 0, p, args => x.calling p args fun _ => none
  | depth + 1, p, args => x.calling p args fun source =>
      source.2.datum? (x.around Q slots (answer x Q slots depth)) source.1 args

/-- What an expression of the program finds around it when calls may be nested `depth` deep. -/
noncomputable def surroundings (x : Executable) (Q : Nat → Prop) (slots : List Datum) (depth : Nat) :
    Surroundings :=
  x.around Q slots (x.answer Q slots depth)

/-- The program calls no function value. -/
def Direct (x : Executable) : Prop :=
  ∀ stream ∈ x.streams, ∀ argc, Instruction.callPointer argc ∉ stream.code

/-- Whether an instruction calls a function value. -/
def callsValue : Instruction → Bool
  | .callPointer _ => true
  | _ => false

instance (x : Executable) : Decidable x.Direct :=
  decidable_of_iff (∀ stream ∈ x.streams, ∀ i ∈ stream.code, callsValue i = false) <| by
    refine forall₂_congr fun stream _ => ⟨fun h argc hmem => ?_, fun h i hi => ?_⟩
    · cases h _ hmem
    · cases i with
      | callPointer argc => exact absurd hi (h argc)
      | _ => rfl

/-- A call that has an answer has this answer wherever the procedure has the same definition and its body
has the same answer. -/
theorem calling_mono {x x' : Executable} {p : Nat} {args : List Datum}
    {body body' : Naming × Expr → Option Datum} {R : Datum → Prop} (hnull : R .null)
    (hdef : x'.definition? p = x.definition? p)
    (hbody : ∀ f source, x.definition? p = some f → f.source = some source → ∀ d,
      body source = some d → body' source = some d ∧ R d) {d : Datum}
    (h : x.calling p args body = some d) : x'.calling p args body' = some d ∧ R d := by
  unfold calling at h ⊢
  rw [hdef]
  cases hf : x.definition? p with
  | none =>
    rw [hf] at h
    obtain rfl := Option.some.inj h
    exact ⟨rfl, hnull⟩
  | some f =>
    simp only [hf] at h ⊢
    by_cases harity : f.arity = args.length
    · rw [if_pos harity] at h ⊢
      obtain ⟨source, hsource, h⟩ := Option.bind_eq_some_iff.1 h
      rw [hsource]
      exact hbody f source hf hsource d h
    · rw [if_neg harity] at h ⊢
      obtain rfl := Option.some.inj h
      exact ⟨rfl, hnull⟩

end Executable

/-! ### The machine answers calls -/

namespace Executable.Functional

variable {x : Executable} {limit depth : Nat}

/-- A call that succeeds gives null, as it does for all arguments of the same number, or it evaluates the
body of a definition. -/
theorem run_call_ok (h : x.Functional) {p : Nat} {vs : List Value} {m m' : Machine} {v : Value}
    (hr : (callProcedure x (enterWithin x limit depth) 0 p vs).run m = .ok v m') :
    (v = .null ∧ ∀ args body, vs.length = args.length → x.calling p args body = some .null) ∨
    ∃ k source, depth = k + 1 ∧ source.2.Refers source.1 (Instruction.Named x.pointerName?) ∧
      (evaluate x (enterWithin x limit k) source.1 vs source.2).run m = .ok v m' ∧
      ∀ args body, vs.length = args.length → x.calling p args body = body source := by
  unfold callProcedure at hr
  cases hp : x.procedureOf? 0 p with
  | none =>
    simp only [hp] at hr
    cases hr
    exact .inl ⟨rfl, fun _ _ _ => by simp [calling, definition?, procedure?, hp]⟩
  | some q =>
    simp only [hp] at hr
    by_cases hon : q.isActive = true
    swap
    · rw [if_neg hon] at hr
      cases hr
      exact .inl ⟨rfl, fun _ _ _ => by simp [calling, definition?, procedure?, hp, Option.filter_some, hon]⟩
    rw [if_pos hon] at hr
    cases hb : q.body with
    | none =>
      simp only [hb] at hr
      cases hr
      exact .inl ⟨rfl, fun _ _ _ => by simp [calling, definition?, procedure?, hp, Option.filter_some, hon, hb]⟩
    | some b =>
      have hdef : x.definition? p =
          some ⟨q.arity, (x.stream? b).map fun stream => bodySource stream.code⟩ := by
        simp [definition?, procedure?, hp, Option.filter_some, hon, hb]
      simp only [hb] at hr
      by_cases harity : q.arity = vs.length
      swap
      · rw [if_neg harity] at hr
        cases hr
        refine .inl ⟨rfl, fun args body hlength => ?_⟩
        rw [calling, hdef]
        exact if_neg fun hsame => harity (hsame.trans hlength.symm)
      rw [if_pos harity] at hr
      cases depth with
      | zero => cases hr
      | succ k =>
        rw [enterWithin, runRange_eq] at hr
        cases hstream : x.stream? b with
        | none =>
          rw [runFrame_missing hstream] at hr
          cases hr
        | some stream =>
          obtain ⟨σ, e, hcode, hstart, hstop, hnamed⟩ := h.bodies p q b stream hp hon hb hstream
          have hsource := bodySource_spec hcode
          have hsame : e.code σ 0 = (bodySource stream.code).2.code (bodySource stream.code).1 0 :=
            List.append_cancel_right (hcode.symm.trans hsource)
          rw [runFrame_function hstream hsource hstart (hsame ▸ hstop)] at hr
          refine .inr ⟨k, bodySource stream.code, rfl, Expr.refers_of_code 0 _ (hsame ▸ hnamed), hr,
            fun args body hlength => ?_⟩
          simp [calling, hdef, hstream, harity.trans hlength]

/-- A call of a function value is one of the procedure that the value leads to, and a call of any other
value gives null. -/
theorem answers_of_call (h : x.Functional) {slots : List Datum}
    (hcall : ∀ p vs ds m v m', m.memory.Shows x.pointerName? slots →
      m.memory.heap.HeldAll x.pointerName? vs ds →
      (callProcedure x (enterWithin x limit depth) 0 p vs).run m = .ok v m' →
        ∃ d, x.answer (fun _ => True) slots depth p ds = some d ∧
          m'.memory.heap.Held x.pointerName? v d) :
    (x.surroundings (fun _ => True) slots depth).Answers x (enterWithin x limit depth) := by
  refine ⟨hcall, fun u f vs ds m v m' hm hu hvs hr => ?_⟩
  cases hu with
  | @function q name hq =>
    -- a function value has a name, so that it leads to a procedure
    obtain ⟨_, hq, -⟩ := Option.map_eq_some_iff.1 hq
    obtain ⟨⟨block, p⟩, htarget, -⟩ := Option.bind_eq_some_iff.1 hq
    obtain rfl := h.targets q block p htarget
    simp only [callValue, htarget] at hr
    obtain ⟨d, hd, hv⟩ := hcall p vs ds m v m' hm hvs hr
    exact ⟨d, by simpa [surroundings, around, applying, htarget] using hd, hv⟩
  | _ =>
    cases hr
    exact ⟨.null, rfl, .null⟩

/-- The machine answers calls as the definitions of the program say. -/
theorem answers (h : x.Functional) (slots : List Datum) (limit depth : Nat) :
    (x.surroundings (fun _ => True) slots depth).Answers x (enterWithin x limit depth) := by
  induction depth with
  | zero =>
    refine h.answers_of_call fun p vs ds m v m' hm hvs hr => ?_
    rcases h.run_call_ok hr with ⟨rfl, hnull⟩ | ⟨k, source, hk, -⟩
    · exact ⟨.null, hnull ds _ hvs.length_eq, .null⟩
    · cases hk
  | succ depth ih =>
    refine h.answers_of_call fun p vs ds m v m' hm hvs hr => ?_
    rcases h.run_call_ok hr with ⟨rfl, hnull⟩ | ⟨k, source, hk, hrefers, hrun, hbody⟩
    · exact ⟨.null, hnull ds _ hvs.length_eq, .null⟩
    · cases hk
      obtain ⟨d, hd, hheld⟩ := evaluate_datum? (h.quiet_enter limit depth) x.names_pointerName? ih
        source.2 hrefers hm hvs hrun
      exact ⟨d, (hbody ds _ hvs.length_eq).trans hd, hheld⟩

end Executable.Functional

namespace CompileState.Sound

variable {s : CompileState}

/-- A statement that can be evaluated has the datum of its expression as value. -/
theorem statement_datum? (h : s.Sound) {n : GraphNode} {slot : Nat} {σ : Naming} {e : Expr}
    (hn : s.Assigns n slot σ e) {slots : List Datum} {m m' : Machine}
    (hm : m.memory.Shows s.executable.pointerName? slots) {limit depth : Nat} {v : Value}
    (hr : (evaluate s.executable (enterWithin s.executable limit depth) σ [] e).run m = .ok v m') :
    ∃ d, e.datum? (s.executable.surroundings (fun _ => True) slots depth) σ [] = some d ∧
      m'.memory.heap.Held s.executable.pointerName? v d :=
  evaluate_datum? (h.quiet_enter limit depth) s.executable.names_pointerName?
    (h.functional.answers slots limit depth) e
    (Expr.refers_of_code n.start e fun i hi => h.named_of_within (hn.within i hi)) hm .nil hr

end CompileState.Sound

/-! ### The same datum elsewhere -/

/-- Instructions with the property `P` find the same in the program `x` with the slots `slots` as in
the program `x'` with the slots `slots'`, also where they lead into functions. All functions that they
find have the property `F`, and calls of such functions lead to procedures with the property `Q`. -/
structure Transfers (x x' : Executable) (Q Q' : Nat → Prop) (slots slots' : List Datum)
    (P : Instruction → Prop) (F : Nat → String → Prop) : Prop where
  slot : ∀ k, P (.loadGlobal k) → ∀ d, slots[k]? = some d → slots'[k]? = some d ∧ d.Over F
  pointer : ∀ q, P (.pushFunction q) → ∀ name, x.pointerName? q = some name →
    x'.pointerName? q = some name ∧ F q name
  definition : ∀ p argc, P (.call p argc) → x'.definition? p = x.definition? p
  body : ∀ p argc f source, P (.call p argc) → x.definition? p = some f → f.source = some source →
    source.2.Refers source.1 P
  value : ∀ argc, P (.callPointer argc) → ∀ q name target, F q name →
    x.pointers.target? q = some target → Q target.2 →
      x'.pointers.target? q = some target ∧ Q' target.2 ∧ P (.call target.2 argc)

namespace Transfers

variable {x x' : Executable} {Q Q' : Nat → Prop} {slots slots' : List Datum}
  {P : Instruction → Prop} {F : Nat → String → Prop}

/-- What has the property finds the same, if calls may be nested no less deeply. -/
theorem agrees (h : Transfers x x' Q Q' slots slots' P F) {depth depth' : Nat}
    (hcall : ∀ p argc, P (.call p argc) → ∀ args d, Datum.OverAll F args →
      x.answer Q slots depth p args = some d → x'.answer Q' slots' depth' p args = some d ∧ d.Over F)
    (i : Instruction) (hi : P i) :
    i.Agrees F (x.surroundings Q slots depth) (x'.surroundings Q' slots' depth') := by
  cases i with
  | loadGlobal k => exact h.slot k hi
  | pushFunction q => exact h.pointer q hi
  | call p argc => exact fun args d => hcall p argc hi args d
  | callPointer argc =>
    intro f args d hf hargs hd
    cases f with
    | function q name =>
      obtain ⟨target, htarget, hd⟩ := Option.bind_eq_some_iff.1 hd
      split at hd
      · rename_i hQ
        obtain ⟨htarget', hQ', hP⟩ := h.value argc hi q name target hf htarget hQ
        obtain ⟨hd', hover⟩ := hcall target.2 argc hP args d hargs hd
        refine ⟨Option.bind_eq_some_iff.2 ⟨target, htarget', ?_⟩, hover⟩
        rw [if_pos hQ']
        exact hd'
      · cases hd
    | _ =>
      cases hd
      exact ⟨rfl, trivial⟩
  | _ => trivial

theorem answer (h : Transfers x x' Q Q' slots slots' P F) {depth depth' : Nat} (hle : depth ≤ depth')
    (p argc : Nat) (hp : P (.call p argc)) (args : List Datum) (d : Datum)
    (hargs : Datum.OverAll F args) (hd : x.answer Q slots depth p args = some d) :
    x'.answer Q' slots' depth' p args = some d ∧ d.Over F := by
  induction depth generalizing depth' p argc args d with
  | zero => cases depth' <;> exact Executable.calling_mono trivial (h.definition p argc hp) (by simp) hd
  | succ depth ih =>
    obtain ⟨k, rfl⟩ : ∃ k, depth' = k + 1 := ⟨depth' - 1, by omega⟩
    refine Executable.calling_mono trivial (h.definition p argc hp) (fun f source hf hsource d hd => ?_) hd
    have hagrees := h.agrees fun p argc hp args d => ih (Nat.le_of_succ_le_succ hle) p argc hp args d
    exact Expr.datum?_mono hargs source.2 ((h.body p argc f source hp hf hsource).imp hagrees source.2) hd

/-- An expression has the same datum elsewhere, if calls may be nested no less deeply. -/
theorem datum? (h : Transfers x x' Q Q' slots slots' P F) {depth depth' : Nat} (hle : depth ≤ depth')
    {σ : Naming} {args : List Datum} (hargs : Datum.OverAll F args) {e : Expr} (he : e.Refers σ P)
    {d : Datum} (hd : e.datum? (x.surroundings Q slots depth) σ args = some d) :
    e.datum? (x'.surroundings Q' slots' depth') σ args = some d :=
  (Expr.datum?_mono hargs e (he.imp (h.agrees fun p argc hp args d =>
    h.answer hle p argc hp args d) e) hd).1

end Transfers

/-- The instruction calls only procedures with the property `R` directly. -/
def Instruction.Calls (R : Nat → Prop) : Instruction → Prop
  | call p _ => R p
  | _ => True

/-- Procedures with the property `R` call only such procedures directly. -/
def Executable.Closed (x : Executable) (R : Nat → Prop) : Prop :=
  ∀ p f source, R p → x.definition? p = some f → f.source = some source →
    source.2.Refers source.1 (Instruction.Calls R)

/-- The procedures with the property `R` mean the same in the program `x'` as in `x`, if they call only such
procedures and if calls of values lead only to such procedures. -/
theorem transfers_of_closed {x x' : Executable} {Q Q' R : Nat → Prop} {slots : List Datum}
    (hnames : x'.pointerName? = x.pointerName?) (hpointers : x'.pointers = x.pointers)
    (hdef : ∀ p, R p → x'.definition? p = x.definition? p) (hclosed : x.Closed R)
    (hQ : ∀ p, Q p → Q' p ∧ R p) :
    Transfers x x' Q Q' slots slots (Instruction.Calls R) fun _ _ => True where
  slot _ _ d hd := ⟨hd, d.over_true⟩
  pointer _ _ _ hname := ⟨hnames ▸ hname, trivial⟩
  definition p _ hp := hdef p hp
  body p _ f source hp := hclosed p f source hp
  value _ _ _ _ target _ htarget hQtarget := ⟨hpointers ▸ htarget, hQ target.2 hQtarget⟩

namespace Executable

variable {x : Executable} {Q Q' : Nat → Prop} {slots : List Datum} {depth depth' : Nat} {σ : Naming}
  {args : List Datum} {e : Expr} {d d' : Datum}

/-- A datum stays the same when values may lead to more procedures and calls be nested more deeply. -/
theorem datum?_free (hle : depth ≤ depth')
    (hd : e.datum? (x.surroundings Q slots depth) σ args = some d) :
    e.datum? (x.surroundings (fun _ => True) slots depth') σ args = some d := by
  have hall : ∀ source : Naming × Expr,
      source.2.Refers source.1 (Instruction.Calls fun _ => True) := fun source =>
    Expr.refers_of_code 0 source.2 fun i _ => by cases i <;> trivial
  exact (transfers_of_closed rfl rfl (fun _ _ => rfl) (fun _ _ source _ _ _ => hall source)
    fun _ _ => ⟨trivial, trivial⟩).datum? hle (Datum.overAll_true args) (hall (σ, e)) hd

/-- An expression has one datum at most, wherever values may lead and however deeply calls may be
nested. -/
theorem datum?_unique (hd : e.datum? (x.surroundings Q slots depth) σ args = some d)
    (hd' : e.datum? (x.surroundings Q' slots depth') σ args = some d') : d = d' :=
  Option.some.inj ((datum?_free (Nat.le_max_left depth depth') hd).symm.trans
    (datum?_free (Nat.le_max_right depth depth') hd'))

end Executable

namespace CompileState.Sound

variable {s : CompileState}

/-- In a program without calls of values, it does not matter where these may lead. -/
theorem datum?_of_direct (h : s.Sound) (hx : s.executable.Direct) {n : GraphNode} {slot : Nat}
    {σ : Naming} {e : Expr} (hn : s.Assigns n slot σ e) (Q : Nat → Prop) {slots : List Datum}
    {depth : Nat} {d : Datum}
    (hd : e.datum? (s.executable.surroundings (fun _ => True) slots depth) σ [] = some d) :
    e.datum? (s.executable.surroundings Q slots depth) σ [] = some d := by
  have htransfers : Transfers s.executable s.executable (fun _ => True) Q slots slots
      (fun i => ∀ argc, i ≠ .callPointer argc) fun _ _ => True := by
    refine ⟨fun _ _ d hd => ⟨hd, d.over_true⟩, fun _ _ _ hname => ⟨hname, trivial⟩, fun _ _ _ => rfl,
      fun p _ f source _ hf hsource => ?_, fun argc hi => absurd rfl (hi argc)⟩
    obtain ⟨q, hq, hf⟩ := Option.bind_eq_some_iff.1 hf
    obtain ⟨b, hb, rfl⟩ := Option.map_eq_some_iff.1 hf
    obtain ⟨stream, hstream, rfl⟩ := Option.map_eq_some_iff.1 hsource
    obtain ⟨hq, hon⟩ := Option.filter_eq_some_iff.1 hq
    obtain ⟨σ, e, hcode, -⟩ := h.functional.bodies p q b stream hq hon hb hstream
    refine Expr.refers_of_code 0 _ fun i hi argc => ?_
    rintro rfl
    refine hx stream (List.mem_of_getElem? hstream) argc ?_
    rw [← Array.mem_toList_iff, bodySource_spec hcode]
    exact List.mem_append_left _ hi
  refine htransfers.datum? (Nat.le_refl depth) (Datum.overAll_true []) ?_ hd
  refine Expr.refers_of_code n.start e fun i hi argc => ?_
  rintro rfl
  refine hx s.root.stream List.mem_cons_self argc ?_
  obtain ⟨k, hk⟩ := List.mem_iff_getElem?.1 hi
  exact Array.mem_of_getElem? (hn.carries.left k _ hk)

end CompileState.Sound

end Reflow
