import Reflow.Proofs.Code.Effects
/-!
# Frames of compiled code

Compiled code comes in two shapes: a statement is the code of an expression and a store, and the body
of a function is the code of an expression and a return. A frame that runs one of them evaluates the
expression and stores or returns the value.

## Main definitions

* `storeValue`: stores a value in a global slot.

## Main results

* `runFrame_statement`, `runFrame_body`: what a frame of either shape does.
* `runFrame_value`: what a frame that ends before the store or the return does.
* `run_storeValue`, `run_storeValue_of_none`: what a store does.
-/

namespace Reflow

/-- Stores a value in a global slot, which must be allocated, and notes a change. -/
def storeValue (slot : Nat) (v : Value) : Run Unit := do
  let machine ← get
  match machine.memory.setGlobal slot v with
  | .error fault => throw fault
  | .ok (true, memory) => set { machine with memory, changed := machine.changed ++ [slot] }
  | .ok (false, memory) => set { machine with memory }

/-- A store in an allocated slot succeeds. It changes the slot and notes that, unless the slot holds
the same value already. -/
theorem run_storeValue {slot : Nat} {v current : Value} {m : Machine}
    (h : m.memory.global? slot = some current) : (storeValue slot v).run m =
      if m.memory.heap.same current v then .ok () m
      else .ok () { m with
        memory := { m.memory with
          globals := m.memory.globals.setIfInBounds slot v
          modified := Ascending.insert slot m.memory.modified }
        changed := m.changed ++ [slot] } := by
  simp only [storeValue, EStateM.run_bind, EStateM.run_get, Memory.setGlobal, h]
  by_cases hsame : m.memory.heap.same current v
  · simp only [hsame, if_true]
    rfl
  · simp only [hsame]
    rfl

/-- A store in a slot that is not allocated faults. -/
theorem run_storeValue_of_none {slot : Nat} {m : Machine} (h : m.memory.global? slot = none)
    (v : Value) : (storeValue slot v).run m =
      .error (.unallocatedGlobal slot m.memory.globalCount) m := by
  simp only [storeValue, EStateM.run_bind, EStateM.run_get, Memory.setGlobal, h]
  rfl

theorem allocated_of_storeValue {slot : Nat} {v : Value} {m m' : Machine}
    (hr : (storeValue slot v).run m = .ok () m') :
    ∃ current, m.memory.global? slot = some current := by
  refine Option.ne_none_iff_exists'.1 fun hnone => ?_
  rw [run_storeValue_of_none hnone] at hr
  cases hr

theorem loopAllowance_pos : 0 < loopAllowance := by decide

section Frames

variable {x : Executable} {enter : Range → Run Value} {r : Range} {s : Stream} {σ : Naming}
  {e : Expr}

/-- A frame that starts with the code of an expression evaluates it and goes on behind the code. -/
theorem runFrame_code (enter : Range → Run Value) {n : Nat} (hx : x.stream? r.block = some s)
    (hs : s.Carries r.start (e.code σ r.start))
    (hstop : r.stop = r.start + (e.code σ r.start).length + n) (m : Machine) :
    ∃ spare, loopAllowance + n ≤ spare ∧ (runFrame x enter r).run m =
      match (evaluate x enter σ r.locals e).run m with
      | .ok v m' =>
        (runFrom x enter r s spare (r.start + (e.code σ r.start).length) [v]).run m'
      | .error fault m' => .error fault m' := by
  have hfuel : r.stop - r.start + loopAllowance =
      loopAllowance + n + (e.code σ r.start).length := by omega
  have hrealizes : Realizes x enter r s _ _ _ _ _ _ :=
    realizes_code r.start e hs (Nat.le_refl _) (by omega : _ ≤ r.stop)
  obtain ⟨spare, hle, heq⟩ := hrealizes (loopAllowance + n) [] m
  refine ⟨spare, hle, ?_⟩
  simp only [runFrame, hx, hfuel]
  refine heq.trans ?_
  cases (evaluate x enter σ r.locals e).run m <;> rfl

/-- A frame that ends just behind the code of an expression has its value as result. -/
theorem runFrame_value (hx : x.stream? r.block = some s)
    (hs : s.Carries r.start (e.code σ r.start))
    (hstop : r.stop = r.start + (e.code σ r.start).length) :
    runFrame x enter r = evaluate x enter σ r.locals e := by
  funext m
  obtain ⟨spare, hle, heq⟩ := runFrame_code enter (n := 0) hx hs hstop m
  refine heq.trans ?_
  have hpos := loopAllowance_pos
  obtain ⟨fuel, rfl⟩ : ∃ fuel, spare = fuel + 1 := ⟨spare - 1, by omega⟩
  change _ = (evaluate x enter σ r.locals e).run m
  cases (evaluate x enter σ r.locals e).run m with
  | error fault m' => rfl
  | ok v m' =>
    simp only [runFrom, ← hstop, Nat.lt_irrefl, if_false]
    rfl

/-- The frame of a function's body has the value of the body as result. -/
theorem runFrame_body (hx : x.stream? r.block = some s)
    (hs : s.Carries r.start (e.code σ r.start ++ [.ret]))
    (hstop : r.stop = r.start + (e.code σ r.start).length + 1) :
    runFrame x enter r = evaluate x enter σ r.locals e := by
  funext m
  obtain ⟨spare, hle, heq⟩ := runFrame_code enter hx hs.left hstop m
  refine heq.trans ?_
  obtain ⟨fuel, rfl⟩ : ∃ fuel, spare = fuel + 1 := ⟨spare - 1, by omega⟩
  change _ = (evaluate x enter σ r.locals e).run m
  cases (evaluate x enter σ r.locals e).run m with
  | error fault m' => rfl
  | ok v m' =>
    have hret : s.at? (r.start + (e.code σ r.start).length) = some .ret := hs.right.head
    simp only [runFrom, if_pos (show r.start + (e.code σ r.start).length < r.stop by omega), hret,
      step, pure_bind]
    rfl

/-- The frame of a statement evaluates the expression and stores the value. -/
theorem runFrame_statement {slot : Nat} (hx : x.stream? r.block = some s)
    (hs : s.Carries r.start (e.code σ r.start ++ [.storeGlobal slot]))
    (hstop : r.stop = r.start + (e.code σ r.start).length + 1) :
    runFrame x enter r = do
      let v ← evaluate x enter σ r.locals e
      storeValue slot v
      return .null := by
  funext m
  obtain ⟨spare, hle, heq⟩ := runFrame_code enter hx hs.left hstop m
  refine heq.trans ?_
  have hpos := loopAllowance_pos
  obtain ⟨fuel, rfl⟩ : ∃ fuel, spare = fuel + 2 := ⟨spare - 2, by omega⟩
  change _ = EStateM.run _ m
  rw [EStateM.run_bind]
  cases (evaluate x enter σ r.locals e).run m with
  | error fault m' => rfl
  | ok v m' =>
    have hstore : s.at? (r.start + (e.code σ r.start).length) = some (.storeGlobal slot) :=
      hs.right.head
    simp only [runFrom, if_pos (show r.start + (e.code σ r.start).length < r.stop by omega), hstore,
      step, storeValue, bind_assoc, EStateM.run_bind, EStateM.run_get]
    -- the store leaves the frame at its end, where it stops
    have hback : ¬r.start + (e.code σ r.start).length + 1 < r.start := by omega
    cases m'.memory.setGlobal slot v with
    | error fault => rfl
    | ok result =>
      obtain ⟨_ | _, memory⟩ := result <;>
        simp only [EStateM.run_bind, EStateM.run_set, hstop, hback,
          Nat.lt_irrefl, or_self, if_false, EStateM.run_pure, List.headD_nil]

end Frames

end Reflow
