import Mathlib.Logic.Function.Iterate
import Reflow.Proofs.Code.Denotation
import Reflow.Proofs.Code.Forward
import Reflow.Proofs.Code.Stepwise
/-!
# Code one instruction at a time

A machine that runs code keeps the frames that are open: the innermost one, which has the next instruction,
and the frames whose calls it answers. Each step is one instruction, the opening of a frame or its end, and
nothing but the limit on nested calls bounds how long the machine goes on. If no frame jumps backward, then
the machine comes to an end, and it ends with what running the range gives.

## Main definitions

* `Frame`: a frame under way.
* `Activity`: the open frames with a machine, or the result.
* `Activity.next`: one step.
* `Executable.Forward`: programs whose functions jump only forward.

## Main results

* `Activity.exists_next_running`: a frame that jumps only forward comes to its end.
* `Activity.exists_next_enter`: so does everything that it calls, and the end is the result of the range.
-/

namespace Reflow

/-! ### Steps one after the other -/

theorem exists_iterate_succ {α : Type} {f : α → α} {a b : α} (h : ∃ k, f^[k] (f a) = b) :
    ∃ k, f^[k] a = b := by
  obtain ⟨k, hk⟩ := h
  exact ⟨k + 1, hk⟩

theorem exists_iterate_trans {α : Type} {f : α → α} {a b c : α} (h : ∃ k, f^[k] a = b)
    (h' : ∃ k, f^[k] b = c) : ∃ k, f^[k] a = c := by
  obtain ⟨k, rfl⟩ := h
  obtain ⟨k', rfl⟩ := h'
  exact ⟨k' + k, Function.iterate_add_apply f k' k a⟩

/-- Steps lead to one end only. -/
theorem iterate_unique {α : Type} {f : α → α} {a b c : α} {k k' : Nat} (hb : f b = b) (hc : f c = c)
    (h : f^[k] a = b) (h' : f^[k'] a = c) : b = c := by
  have hk : f^[k' + k] a = b := by rw [Function.iterate_add_apply, h, Function.iterate_fixed hb]
  have hk' : f^[k + k'] a = c := by rw [Function.iterate_add_apply, h', Function.iterate_fixed hc]
  rw [Nat.add_comm] at hk
  exact hk.symm.trans hk'

/-! ### Calls that open a frame -/

namespace Executable

variable (x : Executable)

/-- The range of a procedure's body, if a call with these arguments is in order. -/
def body? (block index : Nat) (args : List Value) : Option Range :=
  ((x.procedureOf? block index).filter fun p => p.isActive ∧ p.arity = args.length).bind fun p =>
    p.body.map fun body => ⟨body, p.start, p.stop, args⟩

/-- The range that an instruction calls, with the stack below the call. -/
def called? : Instruction → List Value → Option (Range × List Value)
  | .call index argc, stack =>
    if argc ≤ stack.length then
      (x.body? 0 index (stack.take argc).reverse).map (·, stack.drop argc)
    else none
  | .callPointer argc, stack =>
    if argc ≤ stack.length then
      match stack.drop argc with
      | .function pointer :: rest => (x.pointers.target? pointer).bind fun target =>
          (x.body? target.1 target.2 (stack.take argc).reverse).map (·, rest)
      | _ => none
    else none
  | _, _ => none

variable {x} {enter enter' : Range → Run Value} {r : Range} {block index : Nat} {args : List Value}

theorem callProcedure_of_body? (enter : Range → Run Value) (h : x.body? block index args = some r) :
    callProcedure x enter block index args = enter r ∧ x.Enters r := by
  obtain ⟨p, hp, hrange⟩ := Option.bind_eq_some_iff.1 h
  obtain ⟨hp, hon⟩ := Option.filter_eq_some_iff.1 hp
  obtain ⟨hon, harity⟩ := of_decide_eq_true hon
  obtain ⟨body, hbody, rfl⟩ := Option.map_eq_some_iff.1 hrange
  refine ⟨?_, block, index, p, body, hp, hon, hbody, harity, rfl⟩
  simp only [callProcedure, hp, hon, hbody, harity, if_true]

/-- A call that is not in order opens no frame. -/
theorem callProcedure_congr (h : x.body? block index args = none) :
    callProcedure x enter block index args = callProcedure x enter' block index args := by
  unfold callProcedure
  split
  · rfl
  · rename_i p hp
    split
    · rfl
    · rename_i body hbody
      split
      · rename_i harity
        split at hbody
        · rename_i hon
          simp [body?, hp, hon, harity, hbody] at h
        · cases hbody
      · rfl

theorem callValue_congr {callee : Value}
    (h : ∀ pointer target, callee = .function pointer → x.pointers.target? pointer = some target →
      x.body? target.1 target.2 args = none) :
    callValue x enter callee args = callValue x enter' callee args := by
  unfold callValue
  split
  · rename_i pointer
    split
    · rename_i block index htarget
      exact callProcedure_congr (h pointer (block, index) rfl htarget)
    · rfl
  · rfl

/-- An instruction that calls a range opens a frame for it and takes the result on the stack. -/
theorem step_of_called? (enter : Range → Run Value) (r : Range) {i : Instruction}
    {stack rest : List Value} {r' : Range} (h : x.called? i stack = some (r', rest)) (pc : Nat) :
    x.Enters r' ∧ step x enter r i pc stack = do
      let v ← enter r'
      return .goto (pc + 1) (v :: rest) := by
  cases i with
  | call index argc =>
    rw [called?] at h
    split at h
    · rename_i hargc
      obtain ⟨body, hbody, heq⟩ := Option.map_eq_some_iff.1 h
      cases heq
      obtain ⟨hcall, henters⟩ := callProcedure_of_body? enter hbody
      exact ⟨henters, by rw [step, if_pos hargc, hcall]⟩
    · cases h
  | callPointer argc =>
    rw [called?] at h
    split at h
    · rename_i hargc
      split at h
      · rename_i pointer rest' hdrop
        obtain ⟨⟨block, index⟩, htarget, hrange⟩ := Option.bind_eq_some_iff.1 h
        obtain ⟨body, hbody, heq⟩ := Option.map_eq_some_iff.1 hrange
        cases heq
        obtain ⟨hcall, henters⟩ := callProcedure_of_body? enter hbody
        refine ⟨henters, ?_⟩
        simp only [step, if_pos hargc, hdrop, callValue, htarget, hcall]
      · cases h
    · cases h
  | _ => cases h

/-- An instruction that calls no range does the same whatever calls do. -/
theorem step_congr (enter enter' : Range → Run Value) (r : Range) {i : Instruction}
    {stack : List Value} (h : x.called? i stack = none) (pc : Nat) :
    step x enter r i pc stack = step x enter' r i pc stack := by
  cases i with
  | call index argc =>
    rw [called?] at h
    rw [step, step]
    split
    · rename_i hargc
      rw [if_pos hargc, Option.map_eq_none_iff] at h
      rw [callProcedure_congr h]
    · rfl
  | callPointer argc =>
    rw [called?] at h
    rw [step, step]
    split
    · rename_i hargc
      rw [if_pos hargc] at h
      split
      · rename_i callee rest hdrop
        rw [callValue_congr fun pointer target hpointer htarget => ?_]
        rw [hdrop, hpointer] at h
        simpa [htarget] using h
      · rfl
    · rfl
  | storeGlobal | unary | jumpIfFalse => cases stack <;> rfl
  | index | binary =>
    match stack with
    | [] | [_] | _ :: _ :: _ => rfl
  | _ => rfl

end Executable

/-- A computation whose result is that the frame goes on with the next instruction. -/
theorem goto_of_bind {α : Type} {act : Run α} {pc pc' : Nat} {stack' : List Value}
    {left : α → List Value} {m m' : Machine}
    (h : (act >>= fun a => pure (.goto pc (left a)) : Run Flow).run m = .ok (.goto pc' stack') m') :
    pc' = pc := by
  obtain ⟨a, m₁, -, h⟩ := run_bind_ok h
  cases h
  rfl

/-- An instruction goes on with the next one or jumps. -/
theorem step_goto {x : Executable} {enter : Range → Run Value} {r : Range} {i : Instruction}
    {pc pc' : Nat} {stack stack' : List Value} {m m' : Machine}
    (h : (step x enter r i pc stack).run m = .ok (.goto pc' stack') m') :
    pc' = pc + 1 ∨ i.target? = some pc' := by
  cases i with
  | pushNull | pushBool | pushInt | pushDouble | pushFunction | loadLocal =>
    cases h
    exact .inl rfl
  | jump target =>
    cases h
    exact .inr rfl
  | ret => cases h
  | pushString s => exact .inl (goto_of_bind h)
  | loadGlobal slot =>
    rw [step_loadGlobal] at h
    exact .inl (goto_of_bind h)
  | storeGlobal slot =>
    cases stack with
    | nil => cases h
    | cons v stack =>
      rw [step_storeGlobal] at h
      exact .inl (goto_of_bind h)
  | makeArray count =>
    rw [step] at h
    split at h
    · exact .inl (goto_of_bind h)
    · cases h
  | index =>
    match stack with
    | [] | [_] => cases h
    | k :: target :: stack =>
      obtain ⟨machine, m₁, -, h⟩ := run_bind_ok h
      exact .inl (goto_of_bind h)
  | unary op =>
    cases stack with
    | nil => cases h
    | cons operand stack =>
      obtain ⟨machine, m₁, -, h⟩ := run_bind_ok h
      exact .inl (goto_of_bind h)
  | binary op =>
    match stack with
    | [] | [_] => cases h
    | rhs :: lhs :: stack =>
      obtain ⟨machine, m₁, -, h⟩ := run_bind_ok h
      exact .inl (goto_of_bind h)
  | call procedure argc =>
    rw [step] at h
    split at h
    · exact .inl (goto_of_bind h)
    · cases h
  | callPointer argc =>
    rw [step] at h
    split at h
    · split at h
      · exact .inl (goto_of_bind h)
      · cases h
    · cases h
  | jumpIfFalse target =>
    cases stack with
    | nil => cases h
    | cons v stack =>
      obtain ⟨machine, m₁, -, h⟩ := run_bind_ok h
      split at h
      · cases h
        exact .inl rfl
      · cases h
        exact .inr rfl

/-! ### Open frames -/

/-- A frame under way, with the place of its next instruction and its operand stack. -/
structure Frame where
  range : Range
  code : Stream
  pc : Nat
  stack : List Value := []

/-- The next instruction of the frame opens another one. -/
def Frame.Calls (x : Executable) (f : Frame) : Prop :=
  f.pc < f.range.stop ∧ ∃ i, f.code.at? f.pc = some i ∧ (x.called? i f.stack).isSome

/-- Code under way. -/
inductive Activity
  /-- The innermost frame, the frames whose calls it answers with the latest first, and the machine. -/
  | running (frame : Frame) (callers : List Frame) (machine : Machine)
  | finished (result : EStateM.Result Fault Machine Value)

/-- The innermost frame goes on at a place, which must lie in its range. -/
def Frame.goto (f : Frame) (pc : Nat) (stack : List Value) (callers : List Frame) (m : Machine) :
    Activity :=
  if pc < f.range.start ∨ f.range.stop < pc then
    .finished (.error (.invalidProgramCounter f.range.block pc) m)
  else .running { f with pc, stack } callers m

namespace Activity

/-- The innermost frame has ended. With its value the frame goes on that has called it. -/
def resume : List Frame → EStateM.Result Fault Machine Value → Activity
  | _, .error fault m => finished (.error fault m)
  | [], .ok v m => finished (.ok v m)
  | f :: callers, .ok v m => f.goto (f.pc + 1) (v :: f.stack) callers m

/-- A frame is opened for a range, unless too many calls are open. -/
def enter (x : Executable) (limit : Nat) (r : Range) (callers : List Frame) (m : Machine) : Activity :=
  if limit < callers.length then finished (.error (.callDepthExceeded limit) m)
  else
    match x.stream? r.block with
    | none => finished (.error (.missingBlock r.block) m)
    | some code => running { range := r, code, pc := r.start } callers m

/-- The next instruction of the innermost frame, or its end. -/
def next (x : Executable) (limit : Nat) : Activity → Activity
  | finished result => finished result
  | running f callers m =>
    if f.pc < f.range.stop then
      match f.code.at? f.pc with
      | none => finished (.error (.invalidProgramCounter f.range.block f.pc) m)
      | some i =>
        match x.called? i f.stack with
        | some (r, stack) => enter x limit r ({ f with stack } :: callers) m
        | none =>
          match (step x (fun _ => pure .null) f.range i f.pc f.stack).run m with
          | .ok (.goto pc stack) m => f.goto pc stack callers m
          | .ok (.leave v) m => resume callers (.ok v m)
          | .error fault m => finished (.error fault m)
    else resume callers (.ok (f.stack.headD .null) m)

/-- The calls that are open. -/
def depth : Activity → Nat
  | finished _ => 0
  | running _ callers _ => callers.length

variable {x : Executable} {limit : Nat} {a b c : Activity}

/-- What is finished stays so. -/
theorem iterate_next_finished (result : EStateM.Result Fault Machine Value) (k : Nat) :
    (next x limit)^[k] (finished result) = finished result := Function.iterate_fixed rfl k

/-- With no frame left, the result of the range is that of its frame. -/
theorem resume_nil (result : EStateM.Result Fault Machine Value) : resume [] result = finished result := by
  cases result <;> rfl

end Activity

/-- Every range that a call may enter jumps only forward. -/
def Executable.Forward (x : Executable) : Prop :=
  ∀ r code, x.Enters r → x.stream? r.block = some code → code.Forward r.start r.stop

namespace Activity

variable {x : Executable} {limit : Nat}

/-- A frame that jumps only forward comes to its end, if the calls do that it makes, and has the result that
running it with a sufficient amount of fuel gives. -/
theorem exists_next_running {depth : Nat}
    (hcalls : ∀ r callers m, x.Enters r → callers.length + depth = limit + 1 →
      ∃ k, (next x limit)^[k] (enter x limit r callers m) =
        resume callers ((enterWithin x limit depth r).run m))
    {r : Range} {code : Stream} (hforward : code.Forward r.start r.stop) {callers : List Frame}
    (hdepth : callers.length + depth = limit) (fuel pc : Nat) (stack : List Value) (m : Machine)
    (hstart : r.start ≤ pc) (hfuel : r.stop - pc < fuel) :
    ∃ k, (next x limit)^[k] (running ⟨r, code, pc, stack⟩ callers m) =
      resume callers ((runFrom x (enterWithin x limit depth) r code fuel pc stack).run m) := by
  induction fuel generalizing pc stack m with
  | zero => omega
  | succ fuel ih =>
    refine exists_iterate_succ ?_
    rw [next, runFrom]
    dsimp only
    split
    · rename_i hpc
      cases hat : code.at? pc with
      | none => exact ⟨0, rfl⟩
      | some i =>
        -- where the frame goes on, it is closer to its end
        have hgoto : ∀ f : Frame, f.range = r → f.code = code → ∀ pc' stack' m', pc < pc' ∧ pc' ≤ r.stop →
            ∃ k, (next x limit)^[k] (f.goto pc' stack' callers m') = resume callers
              ((if pc' < r.start ∨ r.stop < pc' then throw (.invalidProgramCounter r.block pc')
                else runFrom x (enterWithin x limit depth) r code fuel pc' stack').run m') := by
          rintro f rfl rfl pc' stack' m' ⟨hlt, hle⟩
          have hin : ¬(pc' < f.range.start ∨ f.range.stop < pc') := by omega
          rw [Frame.goto, if_neg hin, if_neg hin]
          exact ih pc' stack' m' (by omega) (by omega)
        dsimp only
        rw [EStateM.run_bind]
        cases hcalled : x.called? i stack with
        | some call =>
          obtain ⟨r', rest⟩ := call
          obtain ⟨henters, hstep⟩ := Executable.step_of_called? (enterWithin x limit depth) r
            hcalled pc
          have hcall := hcalls r' (⟨r, code, pc, rest⟩ :: callers) m henters
            (by rw [List.length_cons]; omega)
          refine exists_iterate_trans hcall ?_
          rw [hstep, EStateM.run_bind]
          cases (enterWithin x limit depth r').run m with
          | error fault m' => exact ⟨0, rfl⟩
          | ok v m' => exact hgoto ⟨r, code, pc, rest⟩ rfl rfl (pc + 1) (v :: rest) m' (by omega)
        | none =>
          have hstep := Executable.step_congr (fun _ => pure .null) (enterWithin x limit depth) r
            hcalled pc
          dsimp only
          rw [hstep]
          cases hr : (step x (enterWithin x limit depth) r i pc stack).run m with
          | error fault m' => exact ⟨0, rfl⟩
          | ok flow m' =>
            cases flow with
            | leave v => exact ⟨0, rfl⟩
            | goto pc' stack' =>
              refine hgoto ⟨r, code, pc, stack⟩ rfl rfl pc' stack' m' ?_
              rcases step_goto hr with rfl | htarget
              · omega
              · have := hforward pc i pc' hstart hpc hat htarget
                omega
    · exact ⟨0, rfl⟩

/-- A range that jumps only forward comes to its end, whatever it calls, if the functions of the program jump
only forward. Its result is that of running it. -/
theorem exists_next_enter (limit : Nat) (hx : x.Forward) : ∀ (depth : Nat) (r : Range)
    (callers : List Frame) (m : Machine),
      (∀ code, x.stream? r.block = some code → code.Forward r.start r.stop) →
      callers.length + depth = limit + 1 → ∃ k, (next x limit)^[k] (enter x limit r callers m) =
        resume callers ((enterWithin x limit depth r).run m)
  | 0, r, callers, m, _, hdepth => by
    rw [enter, if_pos (by omega)]
    exact ⟨0, rfl⟩
  | depth + 1, r, callers, m, hforward, hdepth => by
    rw [enter, if_neg (by omega), enterWithin, runRange_eq, runFrame]
    cases hcode : x.stream? r.block with
    | none => exact ⟨0, rfl⟩
    | some code =>
      have hpos := loopAllowance_pos
      refine exists_next_running (fun r' callers' m' henters hlength => ?_) (hforward code hcode)
        (by omega) _ r.start [] m (Nat.le_refl _) (by omega)
      exact exists_next_enter limit hx depth r' callers' m' (fun code' => hx r' code' henters) hlength

/-! ### No more than so many calls -/

/-- A frame that opens another call when as many are open as there may be faults. -/
theorem next_of_calls {f : Frame} (hf : f.Calls x) {callers : List Frame} (hlimit : limit ≤ callers.length)
    (m : Machine) : next x limit (running f callers m) = finished (.error (.callDepthExceeded limit) m) := by
  obtain ⟨hpc, i, hat, hcalled⟩ := hf
  obtain ⟨call, hcall⟩ := Option.isSome_iff_exists.1 hcalled
  have hlength : limit < callers.length + 1 := Nat.lt_succ_of_le hlimit
  simp only [next, hpc, hat, hcall, enter, List.length_cons, hlength, if_true]

theorem depth_goto (f : Frame) (pc : Nat) (stack : List Value) (callers : List Frame) (m : Machine) :
    (f.goto pc stack callers m).depth ≤ callers.length := by
  unfold Frame.goto
  split
  · exact Nat.zero_le _
  · exact Nat.le_refl _

theorem depth_resume (callers : List Frame) (result : EStateM.Result Fault Machine Value) :
    (resume callers result).depth ≤ callers.length := by
  unfold resume
  split
  · exact Nat.zero_le _
  · exact Nat.zero_le _
  · exact Nat.le_succ_of_le (depth_goto _ _ _ _ _)

theorem depth_enter (r : Range) (callers : List Frame) (m : Machine) :
    (enter x limit r callers m).depth ≤ limit := by
  unfold enter
  split
  · exact Nat.zero_le _
  · split
    · exact Nat.zero_le _
    · exact Nat.le_of_not_lt ‹_›

/-- One step opens no call beyond the limit. -/
theorem depth_next {a : Activity} (h : a.depth ≤ limit) : (a.next x limit).depth ≤ limit := by
  unfold next
  split
  · exact h
  · split
    · split
      · exact Nat.zero_le _
      · split
        · exact depth_enter _ _ _
        · split
          · exact Nat.le_trans (depth_goto _ _ _ _ _) h
          · exact Nat.le_trans (depth_resume _ _) h
          · exact Nat.zero_le _
    · exact Nat.le_trans (depth_resume _ _) h

end Activity

end Reflow
