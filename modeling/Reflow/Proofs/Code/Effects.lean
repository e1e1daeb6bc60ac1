import Reflow.Proofs.Code.Evaluation
import Reflow.Proofs.Memory.Allocation
/-!
# What an evaluation changes

Evaluating an expression stores nothing: it changes no global, and the heap only gains objects. With
all slots that it reads allocated, it faults only where a function that it calls does.

## Main definitions

* `Machine.Grows`: a later machine whose heap has gained objects and that is otherwise the same, up
  to warnings.
* `Quiet`: computations that leave such a machine.
* `Safe`: computations whose faults are the program's own.
* `Executable.Enters`: the frames that a call may open.

## Main results

* `quiet_evaluate`, `safe_evaluate`: evaluation is quiet and safe if the calls are.
-/

namespace Reflow

/-- `m'` has the globals of `m` and has noted the same changes, and its heap holds all that the heap
of `m` holds. -/
structure Machine.Grows (m m' : Machine) : Prop where
  globals : m'.memory.globals = m.memory.globals
  modified : m'.memory.modified = m.memory.modified
  changed : m'.changed = m.changed
  sound : m.memory.heap.Sound → m'.memory.heap.Sound
  heap : m.memory.heap.Sound → m.memory.heap.Extends m'.memory.heap

namespace Machine.Grows

@[refl] theorem refl (m : Machine) : m.Grows m := ⟨rfl, rfl, rfl, id, fun _ => .refl _⟩

theorem trans {m m' m'' : Machine} (h : m.Grows m') (k : m'.Grows m'') : m.Grows m'' where
  globals := k.globals.trans h.globals
  modified := k.modified.trans h.modified
  changed := k.changed.trans h.changed
  sound hs := k.sound (h.sound hs)
  heap hs := (h.heap hs).trans (k.heap (h.sound hs))

/-- A new object on the heap. -/
theorem alloc (m : Machine) (o : HeapObject) :
    m.Grows { m with memory := { m.memory with heap := (m.memory.heap.alloc o).2 } } :=
  ⟨rfl, rfl, rfl, fun hs => hs.alloc o, fun hs => hs.extends_alloc o⟩

theorem globalCount {m m' : Machine} (h : m.Grows m') :
    m'.memory.globalCount = m.memory.globalCount := congrArg Array.size h.globals

end Machine.Grows

/-! ### Quiet computations -/

/-- Whether it succeeds or faults, the computation changes no global and only adds to the heap. -/
def Quiet {α : Type} (act : Run α) : Prop :=
  ∀ m, match act.run m with
    | .ok _ m' => m.Grows m'
    | .error _ m' => m.Grows m'

namespace Quiet

variable {α β : Type}

theorem of_ok {act : Run α} (h : Quiet act) {m m' : Machine} {a : α} (hr : act.run m = .ok a m') :
    m.Grows m' := by
  have hm := h m
  rwa [hr] at hm

theorem of_error {act : Run α} (h : Quiet act) {m m' : Machine} {fault : Fault}
    (hr : act.run m = .error fault m') : m.Grows m' := by
  have hm := h m
  rwa [hr] at hm

theorem pure (a : α) : Quiet (Pure.pure a : Run α) := fun m => .refl m

theorem throw (fault : Fault) : Quiet (MonadExcept.throw fault : Run α) := fun m => .refl m

theorem bind {f : Run α} {g : α → Run β} (hf : Quiet f) (hg : ∀ a, Quiet (g a)) :
    Quiet (f >>= g) := by
  intro m
  rw [EStateM.run_bind]
  cases hfm : f.run m with
  | error fault m' => exact hf.of_error hfm
  | ok a m' =>
    have h := hf.of_ok hfm
    have hgm := hg a m'
    dsimp only
    cases hr : (g a).run m' with
    | error fault m'' => exact h.trans ((hg a).of_error hr)
    | ok b m'' => exact h.trans ((hg a).of_ok hr)

/-- Looking at the machine changes nothing. -/
theorem get {g : Machine → Run β} (h : ∀ m, Quiet (g m)) :
    Quiet (MonadState.get >>= g : Run β) := fun m => h m m

theorem warn (message : String) : Quiet (Reflow.warn message) := by
  intro m
  exact (⟨rfl, rfl, rfl, id, fun _ => .refl _⟩ :
    m.Grows { m with warnings := m.warnings ++ [message] })

theorem newString (s : String) : Quiet (Reflow.newString s) := fun m => .alloc m _

theorem newArray (items : List Value) : Quiet (Reflow.newArray items) := fun m => .alloc m _

theorem readGlobal (slot : Nat) : Quiet (Reflow.readGlobal slot) := by
  refine .get fun m => ?_
  dsimp only
  split
  · exact .pure _
  · exact .throw _

theorem referent (args : List Value) (r : Referent) : Quiet (r.value args) := by
  cases r with
  | argument i => exact .pure _
  | procedure p pointer => exact .pure _
  | global slot => exact .readGlobal slot

end Quiet

/-- The result of an operation on the memory `m`: it leaves `m` or adds one object to its heap. -/
def Outcome.Of (m : Memory) (o : Outcome) : Prop :=
  o.memory = m ∨ ∃ object, o.memory = { m with heap := (m.heap.alloc object).2 }

/-! ### Operations add at most one object -/

theorem of_applyIndex (m : Memory) (target i : Value) : (applyIndex m target i).Of m := by
  unfold applyIndex
  split
  · dsimp only
    split
    · split <;> exact .inl rfl
    · split
      · exact .inr ⟨_, rfl⟩
      · exact .inl rfl
    · exact .inl rfl
  · exact .inl rfl

theorem of_applyUnary (m : Memory) (op : UnaryOp) (operand : Value) :
    (applyUnary m op operand).Of m := by
  unfold applyUnary
  split
  · exact .inl rfl
  · split <;> exact .inl rfl
  · exact .inl rfl
  · exact .inl rfl

theorem of_arithmetic (m : Memory) (op : BinaryOp) (lhs rhs : Value) :
    (arithmetic m op lhs rhs).Of m := by
  unfold arithmetic
  split
  · split <;> exact .inl rfl
  · split <;> exact .inl rfl

theorem of_comparison (m : Memory) (op : BinaryOp) (lhs rhs : Value) :
    (comparison m op lhs rhs).Of m := by
  unfold comparison
  dsimp only
  split
  · exact .inl rfl
  · exact .inl rfl
  · split <;> exact .inl rfl

theorem of_applyBinary (m : Memory) (x : Executable) (op : BinaryOp) (lhs rhs : Value) :
    (applyBinary m x op lhs rhs).Of m := by
  unfold applyBinary
  cases op with
  | and | or | eq | ne => exact .inl rfl
  | lt | le | gt | ge => exact of_comparison m _ lhs rhs
  | add =>
    dsimp only
    split
    · exact .inr ⟨_, rfl⟩
    · exact of_arithmetic m _ lhs rhs
  | sub | mul | div | mod => exact of_arithmetic m _ lhs rhs

/-- Taking over the result of an operation on the memory at hand. -/
theorem quiet_apply {op : Memory → Outcome} (h : ∀ m, (op m).Of m) :
    Quiet (do (op (← get).memory).apply) := by
  intro m
  have hgrows : m.Grows { m with memory := (op m.memory).memory } := by
    rcases h m.memory with heq | ⟨object, heq⟩
    · rw [heq]
    · rw [heq]
      exact .alloc m object
  rw [EStateM.run_bind, EStateM.run_get]
  simp only [Outcome.apply, EStateM.run_bind, EStateM.run_modify]
  split
  · rename_i hw
    split at hw <;> cases hw <;> exact hgrows.trans ⟨rfl, rfl, rfl, id, fun _ => .refl _⟩
  · rename_i hw
    split at hw <;> cases hw

/-! ### Calls -/

/-- The frames that a call of an active procedure opens. -/
def Executable.Enters (x : Executable) (r : Range) : Prop :=
  ∃ block index p body, x.procedureOf? block index = some p ∧ p.isActive = true ∧
    p.body = some body ∧ p.arity = r.locals.length ∧ r = ⟨body, p.start, p.stop, r.locals⟩

section Evaluation

variable {x : Executable} {enter : Range → Run Value} {σ : Naming} {args : List Value}

/-- A call is a warning with null as result, or it is the run of the frame that it opens. -/
theorem callProcedure_induction {P : Run Value → Prop}
    (hwarn : ∀ message, P (do warn message; return .null)) (h : ∀ r, x.Enters r → P (enter r))
    (block index : Nat) (operands : List Value) : P (callProcedure x enter block index operands) := by
  unfold callProcedure
  split
  · exact hwarn _
  · rename_i p hp
    split
    · exact hwarn _
    · rename_i body hbody
      split
      · rename_i harity
        split at hbody
        · rename_i hactive
          exact h _ ⟨block, index, p, body, hp, hactive, hbody, harity, rfl⟩
        · cases hbody
      · exact hwarn _

theorem callValue_induction {P : Run Value → Prop}
    (hwarn : ∀ message, P (do warn message; return .null)) (h : ∀ r, x.Enters r → P (enter r))
    (callee : Value) (operands : List Value) : P (callValue x enter callee operands) := by
  unfold callValue
  split
  · split
    · exact callProcedure_induction hwarn h _ _ _
    · exact hwarn _
  · exact hwarn _

theorem quiet_callProcedure (h : ∀ r, x.Enters r → Quiet (enter r)) (block index : Nat)
    (operands : List Value) : Quiet (callProcedure x enter block index operands) :=
  callProcedure_induction (fun _ => (Quiet.warn _).bind fun _ => .pure _) h block index operands

theorem quiet_callValue (h : ∀ r, x.Enters r → Quiet (enter r)) (callee : Value)
    (operands : List Value) : Quiet (callValue x enter callee operands) :=
  callValue_induction (fun _ => (Quiet.warn _).bind fun _ => .pure _) h callee operands

mutual

/-- Evaluating an expression is quiet if the calls are. -/
theorem quiet_evaluate (h : ∀ r, x.Enters r → Quiet (enter r)) :
    (e : Expr) → Quiet (evaluate x enter σ args e)
  | .null | .bool _ | .int _ | .double _ => .pure _
  | .str s => .newString s
  | .name n => .referent args (σ n)
  | .array items => (quiet_evaluateAll h items).bind fun vs => .newArray vs
  | .index target i => (quiet_evaluate h target).bind fun t => (quiet_evaluate h i).bind fun k =>
      quiet_apply fun m => of_applyIndex m t k
  | .call callee operands => by
    rw [evaluate]
    split
    · exact (quiet_evaluateAll h operands).bind fun vs => quiet_callProcedure h _ _ vs
    · exact (Quiet.referent args _).bind fun v => (quiet_evaluateAll h operands).bind fun vs =>
        quiet_callValue h v vs
  | .unary op operand => (quiet_evaluate h operand).bind fun v =>
      quiet_apply fun m => of_applyUnary m op v
  | .binary op lhs rhs => (quiet_evaluate h lhs).bind fun v => (quiet_evaluate h rhs).bind fun w =>
      quiet_apply fun m => of_applyBinary m x op v w
  | .cond test yes no => (quiet_evaluate h test).bind fun v => .get fun m => by
      split
      · exact quiet_evaluate h yes
      · exact quiet_evaluate h no

theorem quiet_evaluateAll (h : ∀ r, x.Enters r → Quiet (enter r)) :
    (es : List Expr) → Quiet (evaluateAll x enter σ args es)
  | [] => .pure _
  | e :: es => (quiet_evaluate h e).bind fun _ => (quiet_evaluateAll h es).bind fun _ => .pure _

end

/-! ### Safe computations -/

/-- On a memory of at least `k` slots, the computation faults only by the program's own doing. -/
def Safe {α : Type} (k : Nat) (act : Run α) : Prop :=
  ∀ m, k ≤ m.memory.globalCount → ∀ fault m', act.run m = .error fault m' →
    fault.isProgramFault = true

namespace Safe

variable {α β : Type} {k : Nat}

/-- A computation that never faults is safe. -/
theorem of_ok {act : Run α} (h : ∀ m, ∃ a m', act.run m = .ok a m') : Safe k act := by
  intro m _ fault m' hr
  obtain ⟨a, m'', hok⟩ := h m
  cases hok.symm.trans hr

theorem pure (a : α) : Safe k (Pure.pure a : Run α) := .of_ok fun m => ⟨a, m, rfl⟩

theorem warn (message : String) : Safe k (Reflow.warn message) := .of_ok fun _ => ⟨_, _, rfl⟩

theorem bind {f : Run α} {g : α → Run β} (hq : Quiet f) (hf : Safe k f) (hg : ∀ a, Safe k (g a)) :
    Safe k (f >>= g) := by
  intro m hk fault m' hr
  rw [EStateM.run_bind] at hr
  cases hfm : f.run m with
  | error fault' m'' =>
    rw [hfm] at hr
    cases hr
    exact hf m hk _ _ hfm
  | ok a m'' =>
    rw [hfm] at hr
    exact hg a m'' (by rwa [(hq.of_ok hfm).globalCount]) fault m' hr

theorem get {g : Machine → Run β} (h : ∀ m, Safe k (g m)) :
    Safe k (MonadState.get >>= g : Run β) := fun m hk fault m' hr => h m m hk fault m' hr

theorem readGlobal {slot : Nat} (h : slot < k) : Safe k (Reflow.readGlobal slot) := by
  intro m hk fault m' hr
  have hslot : slot < m.memory.globals.size := Nat.lt_of_lt_of_le h hk
  simp only [Reflow.readGlobal, EStateM.run_bind, EStateM.run_get, Memory.global?,
    Array.getElem?_eq_getElem hslot, EStateM.run_pure] at hr
  cases hr

theorem referent (args : List Value) {r : Referent} (h : ∀ slot, r.load = .loadGlobal slot → slot < k) :
    Safe k (r.value args) := by
  cases r with
  | argument i => exact .pure _
  | procedure p pointer => exact .pure _
  | global slot => exact .readGlobal (h slot rfl)

theorem apply (op : Memory → Outcome) : Safe k (do (op (← MonadState.get).memory).apply) := by
  refine .of_ok fun m => ?_
  rw [EStateM.run_bind, EStateM.run_get]
  simp only [Outcome.apply, EStateM.run_bind, EStateM.run_modify]
  cases (op m.memory).warning with
  | none => exact ⟨_, _, rfl⟩
  | some message => exact ⟨_, _, rfl⟩

end Safe

variable {k : Nat}

theorem safe_callProcedure (h : ∀ r, x.Enters r → Safe k (enter r)) (block index : Nat)
    (operands : List Value) : Safe k (callProcedure x enter block index operands) :=
  callProcedure_induction (fun _ => .bind (.warn _) (.warn _) fun _ => .pure _) h block index operands

theorem safe_callValue (h : ∀ r, x.Enters r → Safe k (enter r)) (callee : Value)
    (operands : List Value) : Safe k (callValue x enter callee operands) :=
  callValue_induction (fun _ => .bind (.warn _) (.warn _) fun _ => .pure _) h callee operands

/-- The instruction reads no global slot from `k` on. -/
def Instruction.LoadsBelow (k : Nat) (i : Instruction) : Prop := ∀ slot, i = .loadGlobal slot → slot < k

mutual

/-- Evaluating an expression is safe if the calls are and the slots that it reads lie below `k`. -/
theorem safe_evaluate (hq : ∀ r, x.Enters r → Quiet (enter r))
    (h : ∀ r, x.Enters r → Safe k (enter r)) : (e : Expr) →
      e.Refers σ (Instruction.LoadsBelow k) → Safe k (evaluate x enter σ args e)
  | .null, _ | .bool _, _ | .int _, _ | .double _, _ => .pure _
  | .str s, _ => .of_ok fun _ => ⟨_, _, rfl⟩
  | .name n, hk => .referent args hk
  | .array items, hk => .bind (quiet_evaluateAll hq items) (safe_evaluateAll hq h items hk)
      fun vs => .of_ok fun _ => ⟨_, _, rfl⟩
  | .index target i, hk => .bind (quiet_evaluate hq target) (safe_evaluate hq h target hk.1)
      fun t => .bind (quiet_evaluate hq i) (safe_evaluate hq h i hk.2)
        fun j => .apply fun m => applyIndex m t j
  | .call callee operands, hk => by
    rw [evaluate]
    have hc := hk.1
    cases hσ : σ callee with
    | procedure p pointer =>
      exact .bind (quiet_evaluateAll hq operands) (safe_evaluateAll hq h operands hk.2)
        fun vs => safe_callProcedure h _ _ vs
    | argument i | global slot =>
      rw [hσ] at hc
      exact .bind (.referent args _) (.referent args hc.1) fun v =>
        .bind (quiet_evaluateAll hq operands) (safe_evaluateAll hq h operands hk.2)
          fun vs => safe_callValue h v vs
  | .unary op operand, hk => .bind (quiet_evaluate hq operand) (safe_evaluate hq h operand hk)
      fun v => .apply fun m => applyUnary m op v
  | .binary op lhs rhs, hk => .bind (quiet_evaluate hq lhs) (safe_evaluate hq h lhs hk.1)
      fun v => .bind (quiet_evaluate hq rhs) (safe_evaluate hq h rhs hk.2)
        fun w => .apply fun m => applyBinary m x op v w
  | .cond test yes no, hk => .bind (quiet_evaluate hq test) (safe_evaluate hq h test hk.1)
      fun v => .get fun m => by
        split
        · exact safe_evaluate hq h yes hk.2.1
        · exact safe_evaluate hq h no hk.2.2

theorem safe_evaluateAll (hq : ∀ r, x.Enters r → Quiet (enter r))
    (h : ∀ r, x.Enters r → Safe k (enter r)) : (es : List Expr) →
      Expr.RefersAll σ (Instruction.LoadsBelow k) es → Safe k (evaluateAll x enter σ args es)
  | [], _ => .pure _
  | e :: es, hk => .bind (quiet_evaluate hq e) (safe_evaluate hq h e hk.1)
      fun _ => .bind (quiet_evaluateAll hq es) (safe_evaluateAll hq h es hk.2) fun _ => .pure _

end

end Evaluation

end Reflow
