import Reflow.Proofs.Code.Frames
/-!
# Properties of all code

A frame is composed of instructions, and an instruction of a few elementary computations. What holds of
these, and of whatever is composed of computations of which it holds, holds of all code, whether it was
compiled or not, and however deeply it calls.

## Main definitions

* `Stepwise`: properties of computations that are passed on from the elementary ones.

## Main results

* `Stepwise.runRange`: such a property holds of running any range of code.
-/

namespace Reflow

/-- The property holds of the elementary computations of instructions, and of whatever is composed of
computations of which it holds. -/
structure Stepwise (P : ∀ {α : Type}, Run α → Prop) : Prop where
  pure {α : Type} (a : α) : P (Pure.pure a : Run α)
  /-- A fault of code; that a statement has run too often is not for code to find. -/
  throw {α : Type} {fault : Fault} (h : ∀ node limit, fault ≠ .updateCycle node limit) :
    P (MonadExcept.throw fault : Run α)
  bind {α β : Type} {f : Run α} {g : α → Run β} (hf : P f) (hg : ∀ a, P (g a)) : P (f >>= g)
  get : P (MonadState.get : Run Machine)
  warn (message : String) : P (Reflow.warn message)
  newString (s : String) : P (Reflow.newString s)
  newArray (items : List Value) : P (Reflow.newArray items)
  apply {op : Memory → Outcome} (h : ∀ m, (op m).Of m) : P (do (op (← MonadState.get).memory).apply)
  store (slot : Nat) (v : Value) : P (storeValue slot v)

section Frames

variable {x : Executable} {enter : Range → Run Value} {r : Range}

/-- A load instruction puts the value of its slot on the stack. -/
theorem step_loadGlobal (slot pc : Nat) (stack : List Value) :
    step x enter r (.loadGlobal slot) pc stack = do
      let v ← readGlobal slot
      return .goto (pc + 1) (v :: stack) := by
  funext m
  change EStateM.run _ m = EStateM.run _ m
  simp only [readGlobal, EStateM.run_bind, EStateM.run_get]
  cases m.memory.global? slot <;> rfl

/-- A store instruction stores the topmost value. -/
theorem step_storeGlobal (slot pc : Nat) (v : Value) (stack : List Value) :
    step x enter r (.storeGlobal slot) pc (v :: stack) = do
      storeValue slot v
      return .goto (pc + 1) stack := by
  funext m
  change EStateM.run _ m = EStateM.run _ m
  simp only [storeValue, EStateM.run_bind, EStateM.run_get]
  cases m.memory.setGlobal slot v with
  | error fault => rfl
  | ok result => obtain ⟨_ | _, memory⟩ := result <;> rfl

end Frames

namespace Stepwise

variable {P : ∀ {α : Type}, Run α → Prop} {x : Executable} {enter : Range → Run Value}

theorem readGlobal (hP : Stepwise @P) (slot : Nat) : P (Reflow.readGlobal slot) := by
  refine hP.bind hP.get fun m => ?_
  dsimp only
  split
  · exact hP.pure _
  · exact hP.throw fun _ _ h => by cases h

theorem warning (hP : Stepwise @P) (message : String) :
    P (do Reflow.warn message; return .null : Run Value) :=
  hP.bind (hP.warn message) fun _ => hP.pure _

/-- One instruction. -/
theorem step (hP : Stepwise @P) (h : ∀ r, P (enter r)) (r : Range) (i : Instruction) (pc : Nat)
    (stack : List Value) : P (step x enter r i pc stack) := by
  have hunderflow : P (MonadExcept.throw (.stackUnderflow r.block pc) : Run Flow) :=
    hP.throw fun _ _ h => by cases h
  -- what follows an elementary computation puts its value on the stack
  have hpush {act : Run Value} (stack : List Value) (hact : P act) :
      P (act >>= fun v => Pure.pure (.goto (pc + 1) (v :: stack)) : Run Flow) :=
    hP.bind hact fun v => hP.pure _
  cases i with
  | pushNull | pushBool | pushInt | pushDouble | pushFunction | loadLocal | jump | ret =>
    exact hP.pure _
  | pushString s => exact hpush _ (hP.newString s)
  | loadGlobal slot =>
    rw [step_loadGlobal]
    exact hpush _ (hP.readGlobal slot)
  | storeGlobal slot =>
    cases stack with
    | nil => exact hunderflow
    | cons v stack =>
      rw [step_storeGlobal]
      exact hP.bind (hP.store slot v) fun _ => hP.pure _
  | makeArray count =>
    rw [Reflow.step]
    split
    · exact hpush _ (hP.newArray _)
    · exact hunderflow
  | index =>
    match stack with
    | [] | [_] => exact hunderflow
    | k :: target :: stack => exact hpush _ (hP.apply fun m => of_applyIndex m target k)
  | unary op =>
    cases stack with
    | nil => exact hunderflow
    | cons operand stack => exact hpush _ (hP.apply fun m => of_applyUnary m op operand)
  | binary op =>
    match stack with
    | [] | [_] => exact hunderflow
    | rhs :: lhs :: stack => exact hpush _ (hP.apply fun m => of_applyBinary m x op lhs rhs)
  | call procedure argc =>
    rw [Reflow.step]
    split
    · exact hpush _ (callProcedure_induction hP.warning (fun r _ => h r) _ _ _)
    · exact hunderflow
  | callPointer argc =>
    rw [Reflow.step]
    split
    · split
      · exact hpush _ (callValue_induction hP.warning (fun r _ => h r) _ _)
      · exact hunderflow
    · exact hunderflow
  | jumpIfFalse target =>
    cases stack with
    | nil => exact hunderflow
    | cons v stack =>
      refine hP.bind hP.get fun m => ?_
      split <;> exact hP.pure _

theorem runFrom (hP : Stepwise @P) (h : ∀ r, P (enter r)) (r : Range) (code : Stream) :
    ∀ (fuel pc : Nat) (stack : List Value), P (runFrom x enter r code fuel pc stack)
  | 0, _, _ => hP.throw fun _ _ h => by cases h
  | fuel + 1, pc, stack => by
    rw [Reflow.runFrom]
    split
    · split
      · exact hP.throw fun _ _ h => by cases h
      · refine hP.bind (hP.step h r _ pc stack) fun flow => ?_
        split
        · exact hP.pure _
        · split
          · exact hP.throw fun _ _ h => by cases h
          · exact hP.runFrom h r code fuel _ _
    · exact hP.pure _

theorem runFrame (hP : Stepwise @P) (h : ∀ r, P (enter r)) (r : Range) : P (runFrame x enter r) := by
  unfold Reflow.runFrame
  split
  · exact hP.throw fun _ _ h => by cases h
  · exact hP.runFrom h r _ _ _ _

/-- What is passed on from the elementary computations holds of all code. -/
theorem runRange (hP : Stepwise @P) (x : Executable) (limit : Nat) :
    ∀ (depth : Nat) (r : Range), P (runRange x limit depth r)
  | 0, r => hP.runFrame (fun _ => hP.throw fun _ _ h => by cases h) r
  | depth + 1, r => hP.runFrame (hP.runRange x limit depth) r

end Stepwise

end Reflow
