import Reflow.Machine.Run
import Reflow.Proofs.Code.Naming
/-!
# The meaning of emitted code

The machine runs the code of an expression as a recursive evaluator computes the expression: operands
and arguments from left to right, both operands of `&&` and `||`, only the chosen arm of a
conditional, and the function value of a call before its arguments.

The code stands at some place of a frame's code and is run on a stack that it does not look at. The
statements therefore say what a frame does from the first place of the code on: it computes the value
of the expression, puts it on the stack and goes on behind the code.

## Main definitions

* `evaluate`: the value of an expression under given names.
* `Stream.Carries`: code that stands at a place of a stream.
* `Realizes`: what a frame does between two places.

## Main results

* `realizes_code`: the code of an expression realizes its evaluation.
* `runFrom_emit`: running emitted code is evaluating the expression.
-/

namespace Reflow

/-! ### Evaluating expressions -/

/-- Makes a new string. -/
def newString (s : String) : Run Value :=
  modifyGet fun machine =>
    let (v, memory) := machine.memory.allocString s
    (v, { machine with memory })

/-- Makes a new array. -/
def newArray (items : List Value) : Run Value :=
  modifyGet fun machine =>
    let (v, memory) := machine.memory.allocArray items
    (v, { machine with memory })

/-- The value of a global slot, which must be allocated. -/
def readGlobal (slot : Nat) : Run Value := do
  let m := (← get).memory
  match m.global? slot with
  | some v => pure v
  | none => throw (.unallocatedGlobal slot m.globalCount)

/-- The value of what a name stands for. A missing argument is null. -/
def Referent.value (args : List Value) : Referent → Run Value
  | argument i => pure (args[i]?.getD .null)
  | procedure _ pointer => pure (.function pointer)
  | global slot => readGlobal slot

mutual

/-- The value of an expression: `σ` says what names stand for, `args` are the arguments of the
running call, and `enter` runs the body of a function that is called. -/
def evaluate (x : Executable) (enter : Range → Run Value) (σ : Naming) (args : List Value) :
    Expr → Run Value
  | .null => pure .null
  | .bool b => pure (.bool b)
  | .int n => pure (.int n)
  | .double d => pure (.double d)
  | .str s => newString s
  | .name n => (σ n).value args
  | .array items => do newArray (← evaluateAll x enter σ args items)
  | .index target i => do
    let target ← evaluate x enter σ args target
    let i ← evaluate x enter σ args i
    (applyIndex (← get).memory target i).apply
  | .call callee operands =>
    match σ callee with
    | .procedure p _ => do
      callProcedure x enter 0 p (← evaluateAll x enter σ args operands)
    | r => do
      let callee ← r.value args
      callValue x enter callee (← evaluateAll x enter σ args operands)
  | .unary op operand => do
    let operand ← evaluate x enter σ args operand
    (applyUnary (← get).memory op operand).apply
  | .binary op lhs rhs => do
    let lhs ← evaluate x enter σ args lhs
    let rhs ← evaluate x enter σ args rhs
    (applyBinary (← get).memory x op lhs rhs).apply
  | .cond test yes no => do
    let test ← evaluate x enter σ args test
    if (← get).memory.truthy test then evaluate x enter σ args yes
    else evaluate x enter σ args no

/-- The values of some expressions, from left to right. -/
def evaluateAll (x : Executable) (enter : Range → Run Value) (σ : Naming) (args : List Value) :
    List Expr → Run (List Value)
  | [] => pure []
  | e :: es => do
    let v ← evaluate x enter σ args e
    let vs ← evaluateAll x enter σ args es
    pure (v :: vs)

end

/-! ### Code at a place -/

/-- The instructions of `code` stand at the place `base` of a stream. -/
def Stream.Carries (s : Stream) (base : Nat) (code : List Instruction) : Prop :=
  ∀ i c, code[i]? = some c → s.at? (base + i) = some c

namespace Stream.Carries

variable {s : Stream} {base : Nat}

theorem head {c : Instruction} {cs : List Instruction} (h : s.Carries base (c :: cs)) :
    s.at? base = some c := h 0 c rfl

theorem tail {c : Instruction} {cs : List Instruction} (h : s.Carries base (c :: cs)) :
    s.Carries (base + 1) cs := by
  intro i d hd
  rw [show base + 1 + i = base + (i + 1) by omega]
  exact h (i + 1) d hd

theorem left {cs ds : List Instruction} (h : s.Carries base (cs ++ ds)) : s.Carries base cs := by
  intro i c hc
  have hi : i < cs.length := (List.getElem?_eq_some_iff.1 hc).1
  exact h i c (by rwa [List.getElem?_append_left hi])

theorem right {cs ds : List Instruction} (h : s.Carries base (cs ++ ds)) :
    s.Carries (base + cs.length) ds := by
  intro i c hc
  rw [Nat.add_assoc]
  refine h (cs.length + i) c ?_
  rwa [List.getElem?_append_right (by omega), Nat.add_sub_cancel_left]

end Stream.Carries

/-! ### What a frame does between two places -/

/-- With `taken` on top of its stack, the frame goes from the place `start` to the place `stop` in at
most `size` instructions and does `act` on the way, whose result `a` leaves `left a` in place of
`taken`. A fault of `act` is the fault of the frame. -/
def Realizes {α : Type} (x : Executable) (enter : Range → Run Value) (r : Range) (s : Stream)
    (size start stop : Nat) (taken : List Value) (act : Run α) (left : α → List Value) : Prop :=
  ∀ spare stack m, ∃ spare', spare ≤ spare' ∧
    (runFrom x enter r s (spare + size) start (taken ++ stack)).run m =
      match act.run m with
      | .ok a m' => (runFrom x enter r s spare' stop (left a ++ stack)).run m'
      | .error fault m' => .error fault m'

namespace Realizes

variable {x : Executable} {enter : Range → Run Value} {r : Range} {s : Stream}

/-- Two stretches of code one after the other. -/
theorem bind {α β : Type} {n k a b c : Nat} {taken : List Value} {f : Run α} {g : α → Run β}
    {left : α → List Value} {left' : β → List Value}
    (h : Realizes x enter r s n a b taken f left)
    (hg : ∀ v m m', f.run m = .ok v m' → Realizes x enter r s k b c (left v) (g v) left') :
    Realizes x enter r s (n + k) a c taken (f >>= g) left' := by
  intro spare stack m
  obtain ⟨spare₁, hle, heq⟩ := h (spare + k) stack m
  rw [show spare + (n + k) = spare + k + n by omega, heq, EStateM.run_bind]
  cases hf : f.run m with
  | error fault m' => exact ⟨spare, Nat.le_refl _, rfl⟩
  | ok v m' =>
    obtain ⟨spare₂, hle', heq'⟩ := hg v m m' hf (spare₁ - k) stack m'
    refine ⟨spare₂, by omega, ?_⟩
    rw [← heq', Nat.sub_add_cancel (by omega)]

/-- What lies deeper in the stack stays there. -/
theorem frame {α : Type} {n a b : Nat} {taken : List Value} {act : Run α} {left : α → List Value}
    (h : Realizes x enter r s n a b taken act left) (below : List Value) :
    Realizes x enter r s n a b (taken ++ below) act (left · ++ below) := by
  intro spare stack m
  simpa only [List.append_assoc] using h spare (below ++ stack) m

/-- A result that is read in another form leaves the same stack. -/
theorem map {α β : Type} {n a b : Nat} {taken : List Value} {act : Run α} {left : α → List Value}
    {left' : β → List Value} (h : Realizes x enter r s n a b taken act left) (f : α → β)
    (hf : ∀ v, left v = left' (f v)) :
    Realizes x enter r s n a b taken (act >>= fun v => pure (f v)) left' := by
  intro spare stack m
  obtain ⟨spare', hle, heq⟩ := h spare stack m
  refine ⟨spare', hle, ?_⟩
  rw [heq, EStateM.run_bind]
  cases act.run m with
  | error fault m' => rfl
  | ok v m' => simp only [EStateM.run_pure, hf]

/-- One instruction that does not jump. -/
theorem step {α : Type} {i : Instruction} {pc : Nat} {taken : List Value} {act : Run α}
    {left : α → List Value} (hi : s.at? pc = some i) (hstart : r.start ≤ pc) (hstop : pc < r.stop)
    (h : ∀ stack, Reflow.step x enter r i pc (taken ++ stack) =
      act >>= fun a => pure (.goto (pc + 1) (left a ++ stack))) :
    Realizes x enter r s 1 pc (pc + 1) taken act left := by
  intro spare stack m
  refine ⟨spare, Nat.le_refl _, ?_⟩
  rw [runFrom, if_pos hstop]
  simp only [hi, h, bind_assoc, pure_bind, EStateM.run_bind]
  cases act.run m with
  | error fault m' => rfl
  | ok a m' => simp only [if_neg (show ¬(pc + 1 < r.start ∨ r.stop < pc + 1) by omega)]

/-- Two operands and an instruction that takes both. -/
theorem operands {α : Type} {n k a b c : Nat} {f g : Run Value} {op : Value → Value → Run α}
    {left : α → List Value} (hf : Realizes x enter r s n a b [] f ([·]))
    (hg : Realizes x enter r s k b c [] g ([·]))
    (hop : ∀ v w, Realizes x enter r s 1 c (c + 1) [w, v] (op v w) left) :
    Realizes x enter r s (n + k + 1) a (c + 1) []
      (do let v ← f; let w ← g; op v w) left := by
  rw [Nat.add_assoc]
  exact hf.bind fun v _ _ _ => (hg.frame [v]).bind fun w _ _ _ => hop v w

/-- The two arms of a conditional: the jump over the first one and the jump over the second one. -/
theorem branch {α : Type} {yes no : Run α} {v : Value} {left : α → List Value}
    {ny nn b j stop : Nat} (hb : s.at? b = some (.jumpIfFalse (j + 1)))
    (hyes : Realizes x enter r s ny (b + 1) j [] yes left)
    (hj : s.at? j = some (.jump stop))
    (hno : Realizes x enter r s nn (j + 1) stop [] no left)
    (hstart : r.start ≤ b) (hbj : b < j) (hjs : j < stop) (hstop : stop ≤ r.stop) :
    Realizes x enter r s (1 + ny + 1 + nn) b stop [v]
      (do if (← get).memory.truthy v then yes else no) left := by
  intro spare stack m
  rw [show spare + (1 + ny + 1 + nn) = spare + ny + nn + 1 + 1 by omega, runFrom,
    if_pos (by omega : b < r.stop)]
  simp only [hb, Reflow.step, List.singleton_append, bind_assoc, EStateM.run_bind, EStateM.run_get]
  by_cases ht : m.memory.truthy v
  · obtain ⟨spare₁, hle, heq⟩ := hyes (spare + nn + 1) stack m
    simp only [ht, if_true, EStateM.run_pure,
      if_neg (show ¬(b + 1 < r.start ∨ r.stop < b + 1) by omega)]
    rw [show spare + ny + nn + 1 = spare + nn + 1 + ny by omega]
    simp only [List.nil_append] at heq
    rw [heq]
    cases yes.run m with
    | error fault m' => exact ⟨spare, Nat.le_refl _, rfl⟩
    | ok a m' =>
      -- behind the first arm stands the jump to the end
      refine ⟨spare₁ - 1, by omega, ?_⟩
      obtain ⟨k, rfl⟩ : ∃ k, spare₁ = k + 1 := ⟨spare₁ - 1, by omega⟩
      simp only [runFrom, if_pos (show j < r.stop by omega), hj, Reflow.step, pure_bind,
        if_neg (show ¬(stop < r.start ∨ r.stop < stop) by omega), Nat.add_sub_cancel]
  · obtain ⟨spare₁, hle, heq⟩ := hno (spare + ny + 1) stack m
    refine ⟨spare₁, by omega, ?_⟩
    simp only [ht, Bool.false_eq_true, if_false, EStateM.run_pure,
      if_neg (show ¬(j + 1 < r.start ∨ r.stop < j + 1) by omega)]
    rw [show spare + ny + nn + 1 = spare + ny + 1 + nn by omega]
    exact heq

end Realizes

/-! ### The code of an expression realizes its evaluation -/

theorem length_evaluateAll {x : Executable} {enter : Range → Run Value} {σ : Naming}
    {args : List Value} : {es : List Expr} → {vs : List Value} → {m m' : Machine} →
      (evaluateAll x enter σ args es).run m = .ok vs m' → vs.length = es.length
  | [], _, _, _, h => by
    cases h
    rfl
  | e :: es, vs, m, m', h => by
    simp only [evaluateAll, EStateM.run_bind] at h
    split at h
    · rename_i v m₁ hv
      split at h
      · rename_i vs' m₂ hvs
        cases h
        simp [length_evaluateAll hvs]
      · cases h
    · cases h

section Code

variable {x : Executable} {enter : Range → Run Value} {r : Range} {s : Stream} {σ : Naming}

/-- Pushing what a name stands for. -/
theorem realizes_load (referent : Referent) {pc : Nat} (hi : s.at? pc = some referent.load)
    (hstart : r.start ≤ pc) (hstop : pc < r.stop) :
    Realizes x enter r s 1 pc (pc + 1) [] (referent.value r.locals) ([·]) := by
  refine .step hi hstart hstop fun stack => ?_
  cases referent with
  | argument i => rfl
  | procedure p pointer => rfl
  | global slot =>
    funext m
    simp only [Referent.load, step, Referent.value, readGlobal, bind_assoc]
    change EStateM.run _ m = EStateM.run _ m
    simp only [EStateM.run_bind, EStateM.run_get]
    cases m.memory.global? slot <;> rfl

/-- Calling a value: the value is pushed, then the arguments, and then it is called. -/
theorem realizes_callValue (referent : Referent) {base : Nat} {es : List Expr}
    {code : List Instruction}
    (hs : s.Carries base (referent.load :: (code ++ [.callPointer es.length])))
    (hlo : r.start ≤ base) (hhi : base + (code.length + 1 + 1) ≤ r.stop)
    (hargs : Realizes x enter r s code.length (base + 1) (base + 1 + code.length) []
      (evaluateAll x enter σ r.locals es) List.reverse) :
    Realizes x enter r s (code.length + 1 + 1) base (base + (code.length + 1 + 1)) []
      (do
        let callee ← referent.value r.locals
        callValue x enter callee (← evaluateAll x enter σ r.locals es)) ([·]) := by
  rw [show base + (code.length + 1 + 1) = base + 1 + code.length + 1 by omega,
    Nat.add_comm (code.length + 1) 1]
  refine (realizes_load referent hs.head hlo (by omega)).bind fun callee m m' hcallee => ?_
  refine (hargs.frame [callee]).bind fun vs m m' hvs => ?_
  refine .step hs.tail.right.head (by omega) (by omega) fun stack => ?_
  have hlen : es.length = vs.reverse.length := by simp [length_evaluateAll hvs]
  simp [step, hlen]

mutual

theorem realizes_code (base : Nat) : (e : Expr) → s.Carries base (e.code σ base) →
    r.start ≤ base → base + (e.code σ base).length ≤ r.stop →
      Realizes x enter r s (e.code σ base).length base (base + (e.code σ base).length) []
        (evaluate x enter σ r.locals e) ([·])
  | .null, hs, hlo, hhi | .bool _, hs, hlo, hhi | .int _, hs, hlo, hhi | .double _, hs, hlo, hhi
  | .str _, hs, hlo, hhi => .step hs.head hlo hhi fun stack => rfl
  | .name n, hs, hlo, hhi => realizes_load (σ n) hs.head hlo hhi
  | .array items, hs, hlo, hhi => by
    simp only [Expr.code, List.length_append, List.length_singleton, ← Nat.add_assoc] at hs hhi ⊢
    refine (realizes_codeAll base items hs.left hlo (by omega)).bind fun vs m m' hvs => ?_
    refine .step hs.right.head (by omega) (by omega) fun stack => ?_
    have hlen : vs.length = items.length := length_evaluateAll hvs
    simp only [step, List.length_append, List.length_reverse, hlen, Nat.le_add_right, if_true]
    rw [← hlen, ← List.length_reverse, List.take_left, List.drop_left, List.reverse_reverse]
    rfl
  | .index target i, hs, hlo, hhi => by
    simp only [Expr.code, List.length_append, List.length_singleton, ← Nat.add_assoc] at hs hhi ⊢
    have hi := hs.left.right
    have hop := hs.right
    rw [List.length_append, ← Nat.add_assoc] at hop
    refine .operands (realizes_code base target hs.left.left hlo (by omega))
      (realizes_code _ i hi (by omega) (by omega)) fun t k => ?_
    exact .step hop.head (by omega) (by omega) fun stack => by simp [step]
  | .call callee operands, hs, hlo, hhi => by
    rw [evaluate]
    simp only [Expr.code] at hs hhi ⊢
    cases hσ : σ callee with
    | procedure p pointer =>
      simp only [hσ, List.length_append, List.length_singleton, ← Nat.add_assoc] at hs hhi ⊢
      refine (realizes_codeAll base operands hs.left hlo (by omega)).bind fun vs m m' hvs => ?_
      refine .step hs.right.head (by omega) (by omega) fun stack => ?_
      have hlen : operands.length = vs.reverse.length := by simp [length_evaluateAll hvs]
      simp [step, hlen]
    | argument i =>
      simp only [hσ, List.length_cons, List.length_append, List.length_nil] at hs hhi ⊢
      exact realizes_callValue _ hs hlo (by omega)
        (realizes_codeAll (base + 1) operands hs.tail.left (by omega) (by omega))
    | global slot =>
      simp only [hσ, List.length_cons, List.length_append, List.length_nil] at hs hhi ⊢
      exact realizes_callValue _ hs hlo (by omega)
        (realizes_codeAll (base + 1) operands hs.tail.left (by omega) (by omega))
  | .unary op operand, hs, hlo, hhi => by
    simp only [Expr.code, List.length_append, List.length_singleton, ← Nat.add_assoc] at hs hhi ⊢
    refine (realizes_code base operand hs.left hlo (by omega)).bind fun v m m' hv => ?_
    exact .step hs.right.head (by omega) (by omega) fun stack => by simp [step]
  | .binary op lhs rhs, hs, hlo, hhi => by
    simp only [Expr.code, List.length_append, List.length_singleton, ← Nat.add_assoc] at hs hhi ⊢
    have hr := hs.left.right
    have hop := hs.right
    rw [List.length_append, ← Nat.add_assoc] at hop
    refine .operands (realizes_code base lhs hs.left.left hlo (by omega))
      (realizes_code _ rhs hr (by omega) (by omega)) fun v w => ?_
    exact .step hop.head (by omega) (by omega) fun stack => by simp [step]
  | .cond test yes no, hs, hlo, hhi => by
    simp only [Expr.code, List.length_append, List.length_cons] at hs hhi ⊢
    generalize htc : test.code σ base = testCode at hs hhi ⊢
    generalize hyc : yes.code σ (base + testCode.length + 1) = yesCode at hs hhi ⊢
    generalize hnc : no.code σ (base + testCode.length + 1 + yesCode.length + 1) = noCode
      at hs hhi ⊢
    have htest := realizes_code base test (htc ▸ hs.left.left) hlo (by rw [htc]; omega)
    have hyes := realizes_code _ yes (hyc ▸ hs.left.right.tail) (by omega) (by rw [hyc]; omega)
    have hrest := hs.right
    rw [List.length_append, List.length_cons,
      show base + (testCode.length + (yesCode.length + 1)) =
        base + testCode.length + 1 + yesCode.length by omega] at hrest
    have hno := realizes_code _ no (hnc ▸ hrest.tail) (by omega) (by rw [hnc]; omega)
    rw [htc] at htest
    rw [hyc] at hyes
    rw [hnc] at hno
    rw [show testCode.length + (yesCode.length + 1) + (noCode.length + 1) =
        testCode.length + (1 + yesCode.length + 1 + noCode.length) by omega,
      show base + (testCode.length + (1 + yesCode.length + 1 + noCode.length)) =
        base + testCode.length + 1 + yesCode.length + 1 + noCode.length by omega]
    exact htest.bind fun v m m' hv => .branch hs.left.right.head hyes hrest.head hno
      (by omega) (by omega) (by omega) (by omega)

theorem realizes_codeAll (base : Nat) : (es : List Expr) → s.Carries base (Expr.codeAll σ base es) →
    r.start ≤ base → base + (Expr.codeAll σ base es).length ≤ r.stop →
      Realizes x enter r s (Expr.codeAll σ base es).length base
        (base + (Expr.codeAll σ base es).length) []
        (evaluateAll x enter σ r.locals es) List.reverse
  | [], hs, hlo, hhi => fun spare stack m => ⟨spare, Nat.le_refl _, rfl⟩
  | e :: es, hs, hlo, hhi => by
    simp only [Expr.codeAll, List.length_append, ← Nat.add_assoc] at hs hhi ⊢
    refine (realizes_code base e hs.left hlo (by omega)).bind fun v m m' hv => ?_
    have hes := (realizes_codeAll _ es hs.right (by omega) (by omega)).frame [v]
    exact hes.map (v :: ·) fun vs => List.reverse_cons.symm

end

end Code

/-! ### Running emitted code -/

/-- How a frame with `depth` nested calls left of the `limit` allowed enters a call. -/
def enterWithin (x : Executable) (limit : Nat) : Nat → Range → Run Value
  | 0 => fun _ => throw (.callDepthExceeded limit)
  | depth + 1 => runRange x limit depth

theorem runRange_eq (x : Executable) (limit depth : Nat) (r : Range) :
    runRange x limit depth r = runFrame x (enterWithin x limit depth) r := by
  cases depth <;> rfl

/-- Running the code emitted for an expression, wherever it stands in a frame, is evaluating the
expression under the names as they are after the emission. A fault of the evaluation is the fault of
the frame, with the machine that the evaluation leaves. Otherwise the frame goes on just behind the
code with the machine that the evaluation leaves, the value on top of an unchanged stack, and no
fewer steps in hand than it had beyond one for each instruction of the code. -/
theorem runFrom_emit (x : Executable) (limit depth : Nat) (r : Range) (s : Stream) (scope : Scope)
    (base : Nat) (e : Expr) (m : Emission) (hs : s.Carries base (emit scope base e m).1)
    (hstart : r.start ≤ base) (hstop : base + (emit scope base e m).1.length ≤ r.stop)
    (spare : Nat) (stack : List Value) (machine : Machine) :
    ∃ spare', spare ≤ spare' ∧
      (runFrom x (enterWithin x limit depth) r s (spare + (emit scope base e m).1.length) base
          stack).run machine =
        match (evaluate x (enterWithin x limit depth) ((emit scope base e m).2.state.naming scope)
            r.locals e).run machine with
        | .ok v machine' =>
          (runFrom x (enterWithin x limit depth) r s spare' (base + (emit scope base e m).1.length)
            (v :: stack)).run machine'
        | .error fault machine' => .error fault machine' := by
  have hcode := emit_code base e m (.refl (emit scope base e m).2.state)
  rw [hcode] at hs hstop ⊢
  have hrealizes : Realizes x (enterWithin x limit depth) r s _ _ _ _ _ _ :=
    realizes_code base e hs hstart hstop
  obtain ⟨spare', hle, heq⟩ := hrealizes spare stack machine
  refine ⟨spare', hle, heq.trans ?_⟩
  cases (evaluate x (enterWithin x limit depth) _ r.locals e).run machine <;> rfl

/-- The conditional `c ? 1 : 2` at place 10, on a stack that holds a null already: with `c` true in
slot 0, the frame goes on at place 15 with the value 1 on the stack. -/
theorem runFrom_emit_conditional :
    ∃ spare', 3 ≤ spare' ∧
      (runFrom .empty (enterWithin .empty 4 1) ⟨0, 10, 20, []⟩
          { language := .associative
            code := Array.replicate 10 .pushNull ++
              #[.loadGlobal 0, .jumpIfFalse 14, .pushInt 1, .jump 15, .pushInt 2] }
          8 10 [.null]).run { memory := { globals := #[.bool true] } } =
        (runFrom .empty (enterWithin .empty 4 1) ⟨0, 10, 20, []⟩
          { language := .associative
            code := Array.replicate 10 .pushNull ++
              #[.loadGlobal 0, .jumpIfFalse 14, .pushInt 1, .jump 15, .pushInt 2] }
          spare' 15 [.int 1, .null]).run { memory := { globals := #[.bool true] } } := by
  have hcode : (emit {} 10 (.cond (.name "c") (.int 1) (.int 2)) { state := {} }).1 =
      [.loadGlobal 0, .jumpIfFalse 14, .pushInt 1, .jump 15, .pushInt 2] := rfl
  obtain ⟨spare', hle, heq⟩ := runFrom_emit .empty 4 1 ⟨0, 10, 20, []⟩
    { language := .associative
      code := Array.replicate 10 .pushNull ++
        #[.loadGlobal 0, .jumpIfFalse 14, .pushInt 1, .jump 15, .pushInt 2] }
    {} 10 (.cond (.name "c") (.int 1) (.int 2)) { state := {} }
    (by
      intro i c hc
      rw [hcode] at hc
      match i, hc with
      | 0, hc | 1, hc | 2, hc | 3, hc | 4, hc => exact hc)
    (Nat.le_refl _) (by rw [hcode]; decide) 3 [.null] { memory := { globals := #[.bool true] } }
  exact ⟨spare', hle, heq⟩

end Reflow
