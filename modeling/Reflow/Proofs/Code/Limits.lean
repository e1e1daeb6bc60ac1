import Reflow.Proofs.Code.Effects
import Reflow.Proofs.Lang.Literals
import Reflow.Proofs.Memory.Arithmetic
import Reflow.Proofs.Memory.Exactness
/-!
# Whole numbers at their limits

A frame that comes to an operator with whole numbers on its stack goes on behind it with the exact result,
if there is one and a word holds it. Otherwise it goes on with null and one more warning, and it never
faults. The same holds of a position in an array or in a string: either there is an element at it, counted
from the start or from the end, or the frame goes on with null and one more warning.

The only exact result that a word holds and that is not given is the remainder of the least word by minus
one (`least_remainder_undefined`).

## Main definitions

* `Instruction.Passes`: what a frame has before an instruction and behind it.
* `Mentions`: a text in a warning.

## Main results

* `integers_exact`: arithmetic, negation and indexing at all words.
-/

namespace Reflow

/-! ### Passing over an instruction -/

/-- A frame that comes to the instruction with a stack and a machine goes on behind it with another stack
and another machine, whatever the program and its other code. -/
def Instruction.Passes (i : Instruction) (stack : List Value) (m : Machine) (stack' : List Value)
    (m' : Machine) : Prop :=
  ∀ (x : Executable) (enter : Range → Run Value) (r : Range) (s : Stream) (pc fuel : Nat),
    s.at? pc = some i → r.start ≤ pc → pc < r.stop →
      (runFrom x enter r s (fuel + 1) pc stack).run m =
        (runFrom x enter r s fuel (pc + 1) stack').run m'

theorem Instruction.passes_of_step {i : Instruction} {stack stack' : List Value} {m m' : Machine}
    (h : ∀ x enter r pc, (step x enter r i pc stack).run m = .ok (.goto (pc + 1) stack') m') :
    i.Passes stack m stack' m' := by
  intro x enter r s pc fuel hi hstart hstop
  rw [runFrom, if_pos hstop]
  simp only [hi, EStateM.run_bind, h]
  rw [if_neg (by omega : ¬(pc + 1 < r.start ∨ r.stop < pc + 1))]

namespace Machine

/-- The machine that has taken over the result of an operation. -/
def after (m : Machine) (o : Outcome) : Machine :=
  { m with memory := o.memory, warnings := m.warnings ++ o.warning.toList }

/-- The machine with one more warning. -/
def warned (m : Machine) (message : String) : Machine :=
  { m with warnings := m.warnings ++ [message] }

theorem after_value (m : Machine) (v : Value) : m.after { value := v, memory := m.memory } = m := by
  simp [after]

end Machine

/-- An operation that gives a value and adds nothing to the heap changes nothing. -/
theorem Instruction.Passes.of_value {i : Instruction} {taken stack : List Value} {m : Machine}
    {v : Value} (h : i.Passes taken m (v :: stack) (m.after { value := v, memory := m.memory })) :
    i.Passes taken m (v :: stack) m := by
  rwa [m.after_value] at h

theorem Outcome.run_apply (o : Outcome) (m : Machine) : o.apply.run m = .ok o.value (m.after o) := by
  obtain ⟨v, memory, warning⟩ := o
  cases warning with
  | none =>
    simp only [Machine.after, Option.toList_none, List.append_nil]
    rfl
  | some message => rfl

section Operations

variable {m : Machine} {stack : List Value}

theorem passes_binary {op : BinaryOp} {v w : Value} {o : Outcome}
    (h : ∀ x, applyBinary m.memory x op v w = o) :
    (Instruction.binary op).Passes (w :: v :: stack) m (o.value :: stack) (m.after o) := by
  refine Instruction.passes_of_step fun x enter r pc => ?_
  simp only [step, EStateM.run_bind, EStateM.run_get, h, Outcome.run_apply, EStateM.run_pure]

theorem passes_unary {op : UnaryOp} {v : Value} {o : Outcome} (h : applyUnary m.memory op v = o) :
    (Instruction.unary op).Passes (v :: stack) m (o.value :: stack) (m.after o) := by
  refine Instruction.passes_of_step fun x enter r pc => ?_
  simp only [step, EStateM.run_bind, EStateM.run_get, h, Outcome.run_apply, EStateM.run_pure]

theorem passes_index {target i : Value} {o : Outcome} (h : applyIndex m.memory target i = o) :
    Instruction.index.Passes (i :: target :: stack) m (o.value :: stack) (m.after o) := by
  refine Instruction.passes_of_step fun x enter r pc => ?_
  simp only [step, EStateM.run_bind, EStateM.run_get, h, Outcome.run_apply, EStateM.run_pure]

end Operations

/-! ### What the warnings say -/

/-- The text has another one in it. -/
def Mentions (message part : String) : Prop := part.toList <:+: message.toList

/-- A text that has a letter which the other one lacks is not in it. -/
theorem not_mentions {message part : String} {c : Char} (hpart : c ∈ part.toList)
    (hmessage : c ∉ message.toList) : ¬Mentions message part := fun h => hmessage (h.mem hpart)

/-- Only digits and a minus stand in the text of a whole number. -/
theorem notMem_toString {c : Char} (hdigit : c.isDigit = false) (hminus : c ≠ '-') (n : Int) :
    c ∉ (toString n).toList := by
  obtain ⟨ds, hds, -, htext⟩ := Lexer.toList_toString n
  have hc : c ∉ ds := fun hc => by simp [hds c hc] at hdigit
  rcases htext with htext | htext <;> rw [htext]
  · exact hc
  · exact List.not_mem_cons_of_ne_of_not_mem hminus hc

theorem notMem_symbol (op : BinaryOp) : 'd' ∉ op.symbol.toList := by
  cases op <;> decide

/-- The warning of an arithmetic operator without a result. -/
def arithmeticWarning (op : BinaryOp) (a b : Int64) : String :=
  (if b = 0 then "division by zero" else "integer overflow") ++ " in " ++ toString a.toInt ++ " "
    ++ op.symbol ++ " " ++ toString b.toInt

theorem mentions_arithmeticWarning_iff (op : BinaryOp) (a b : Int64) :
    Mentions (arithmeticWarning op a b) "division by zero" ↔ b = 0 := by
  unfold arithmeticWarning
  by_cases hb : b = 0
  · rw [if_pos hb]
    simp only [hb, iff_true, Mentions, String.toList_append, List.append_assoc]
    exact (List.prefix_append _ _).isInfix
  · rw [if_neg hb]
    refine iff_of_false (not_mentions (c := 'd') (by decide) ?_) hb
    have hoverflow : 'd' ∉ "integer overflow".toList := by decide
    have hin : 'd' ∉ " in ".toList := by decide
    have hblank : 'd' ∉ " ".toList := by decide
    simp only [String.toList_append, List.mem_append, notMem_toString (c := 'd') rfl (by decide),
      notMem_symbol, hoverflow, hin, hblank, or_self, not_false_iff]

theorem not_mentions_negating (a : Int64) :
    ¬Mentions ("integer overflow negating " ++ toString a.toInt) "division by zero" := by
  refine not_mentions (c := 'd') (by decide) ?_
  have hnegating : 'd' ∉ "integer overflow negating ".toList := by decide
  simp only [String.toList_append, List.mem_append, notMem_toString (c := 'd') rfl (by decide),
    hnegating, or_self, not_false_iff]

/-! ### Arithmetic -/

section Words

variable {m : Machine} {stack : List Value} {op : BinaryOp} {a b n : Int64}

theorem applyBinary_int (hop : op ∈ BinaryOp.arithmetic) (memory : Memory) (x : Executable)
    (a b : Int64) :
    applyBinary memory x op (.int a) (.int b) = Reflow.arithmetic memory op (.int a) (.int b) := by
  cases op with
  | add | sub | mul | div | mod => rfl
  | _ => simp [BinaryOp.arithmetic] at hop

theorem passes_arithmetic (hop : op ∈ BinaryOp.arithmetic)
    (h : intResult? op a.toInt b.toInt = some n) :
    (Instruction.binary op).Passes (.int b :: .int a :: stack) m (.int n :: stack) m := by
  have hresult : ∀ x, applyBinary m.memory x op (.int a) (.int b) = ⟨.int n, m.memory, none⟩ :=
    fun x => by simp only [applyBinary_int hop, Reflow.arithmetic, h]
  exact .of_value (passes_binary hresult)

theorem passes_arithmetic_undefined (hop : op ∈ BinaryOp.arithmetic)
    (h : intResult? op a.toInt b.toInt = none) :
    (Instruction.binary op).Passes (.int b :: .int a :: stack) m (.null :: stack)
      (m.warned (arithmeticWarning op a b)) := by
  have hresult : ∀ x, applyBinary m.memory x op (.int a) (.int b) =
      .undefined m.memory (arithmeticWarning op a b) := fun x => by
    simp only [applyBinary_int hop, Reflow.arithmetic, h, arithmeticWarning]
  exact passes_binary hresult

theorem passes_neg (h : n.toInt = -a.toInt) :
    (Instruction.unary .neg).Passes (.int a :: stack) m (.int n :: stack) m := by
  have hresult : applyUnary m.memory .neg (.int a) = ⟨.int n, m.memory, none⟩ := by
    simp only [applyUnary, fit?_eq_some_iff.2 h]
  exact .of_value (passes_unary hresult)

theorem passes_neg_undefined (h : ∀ n : Int64, n.toInt ≠ -a.toInt) :
    (Instruction.unary .neg).Passes (.int a :: stack) m (.null :: stack)
      (m.warned ("integer overflow negating " ++ toString a.toInt)) := by
  have hnone : fit? (-a.toInt) = none :=
    Option.eq_none_iff_forall_ne_some.2 fun n hn => h n (fit?_eq_some_iff.1 hn)
  have hresult : applyUnary m.memory .neg (.int a) =
      .undefined m.memory ("integer overflow negating " ++ toString a.toInt) := by
    simp only [applyUnary, hnone]
  exact passes_unary hresult

end Words

/-! ### Indexing -/

section Items

variable {m : Machine} {stack items : List Value} {i : Int64} {p k : Nat} {text : String}

theorem passes_item (hp : m.memory.heap.array? p = some items)
    (hk : resolveIndex? i items.length = some k) (hlt : k < items.length) :
    Instruction.index.Passes (.int i :: .array p :: stack) m (items[k] :: stack) m := by
  have hresult : applyIndex m.memory (.array p) (.int i) = ⟨items[k], m.memory, none⟩ := by
    simp [applyIndex, hp, hk, List.getElem?_eq_getElem hlt]
  exact .of_value (passes_index hresult)

theorem passes_item_undefined (hp : m.memory.heap.array? p = some items)
    (hi : resolveIndex? i items.length = none) : ∃ message,
      Instruction.index.Passes (.int i :: .array p :: stack) m (.null :: stack) (m.warned message) := by
  obtain ⟨message, hresult⟩ : ∃ message,
      applyIndex m.memory (.array p) (.int i) = .undefined m.memory message :=
    ⟨_, by simp only [applyIndex, hp, hi, Option.getD_some, Option.bind_none]; rfl⟩
  exact ⟨message, passes_index hresult⟩

/-- The character is put on the heap as a string of its own. -/
theorem passes_character (hm : m.memory.heap.Sound) (hp : m.memory.heap.string? p = some text)
    (hk : resolveIndex? i text.toList.length = some k) (hlt : k < text.toList.length) :
    ∃ q m', Instruction.index.Passes (.int i :: .string p :: stack) m (.string q :: stack) m' ∧
      m'.memory.heap.string? q = some (String.ofList [text.toList[k]]) ∧ m.Grows m' ∧
      m'.warnings = m.warnings := by
  have hresult : applyIndex m.memory (.string p) (.int i) =
      .string m.memory (String.ofList [text.toList[k]]) := by
    simp only [applyIndex, hp, Option.getD_some, hk, Option.bind_some, List.getElem?_eq_getElem hlt]
  refine ⟨_, _, passes_index hresult, Heap.string?_eq_some.2 (hm.get?_alloc _), ?_,
    List.append_nil _⟩
  simp only [Machine.after, Outcome.string, Memory.allocString, Option.toList_none, List.append_nil]
  exact .alloc m _

theorem passes_character_undefined (hp : m.memory.heap.string? p = some text)
    (hi : resolveIndex? i text.toList.length = none) : ∃ message,
      Instruction.index.Passes (.int i :: .string p :: stack) m (.null :: stack)
        (m.warned message) := by
  obtain ⟨message, hresult⟩ : ∃ message,
      applyIndex m.memory (.string p) (.int i) = .undefined m.memory message :=
    ⟨_, by simp only [applyIndex, hp, hi, Option.getD_some, Option.bind_none]; rfl⟩
  exact ⟨message, passes_index hresult⟩

end Items

/-! ### All words -/

/-- Every frame, on every stack and with every machine, passes over an operator with words on its stack
and over an index. An arithmetic operator leaves the exact result where a word holds it, except for the
remainder of the least word by minus one, and changes nothing else; in all other cases it leaves null and
one warning, which speaks of a division by zero just if that is what it is. So does the negation. An index
leaves the item of an array or the character of a string that stands at the position, counted from the end
if it is negative, and null and one warning where there is none. The place of the item is found in words,
without a sum that wraps around. -/
theorem integers_exact :
    (∀ op ∈ BinaryOp.arithmetic, ∀ (a b : Int64) (stack : List Value) (m : Machine),
      (∀ n : Int64, op.Exact a.toInt b.toInt n.toInt → ¬(op = .mod ∧ a = .minValue ∧ b = -1) →
        (Instruction.binary op).Passes (.int b :: .int a :: stack) m (.int n :: stack) m) ∧
      ((∀ n : Int64, op.Exact a.toInt b.toInt n.toInt → op = .mod ∧ a = .minValue ∧ b = -1) →
        ∃ message, (Mentions message "division by zero" ↔ (op = .div ∨ op = .mod) ∧ b = 0) ∧
          (Instruction.binary op).Passes (.int b :: .int a :: stack) m (.null :: stack)
            (m.warned message))) ∧
    (∀ (a : Int64) (stack : List Value) (m : Machine),
      (∀ n : Int64, n.toInt = -a.toInt →
        (Instruction.unary .neg).Passes (.int a :: stack) m (.int n :: stack) m) ∧
      ((∀ n : Int64, n.toInt ≠ -a.toInt) → ∃ message, ¬Mentions message "division by zero" ∧
        (Instruction.unary .neg).Passes (.int a :: stack) m (.null :: stack) (m.warned message))) ∧
    (∀ (i : Int64) (p : Nat) (items stack : List Value) (m : Machine),
      m.memory.heap.array? p = some items →
        (∀ k (hk : k < items.length), i.toInt = k ∨ i.toInt = k - items.length →
          Instruction.index.Passes (.int i :: .array p :: stack) m (items[k] :: stack) m) ∧
        (i.toInt < -items.length ∨ items.length ≤ i.toInt → ∃ message,
          Instruction.index.Passes (.int i :: .array p :: stack) m (.null :: stack)
            (m.warned message))) ∧
    (∀ (i : Int64) (p : Nat) (text : String) (stack : List Value) (m : Machine),
      m.memory.heap.Obtained → m.memory.heap.string? p = some text →
        (∀ k (hk : k < text.toList.length), i.toInt = k ∨ i.toInt = k - text.toList.length →
          ∃ q m', Instruction.index.Passes (.int i :: .string p :: stack) m (.string q :: stack) m' ∧
            m'.memory.heap.string? q = some (String.ofList [text.toList[k]]) ∧ m.Grows m' ∧
            m'.warnings = m.warnings) ∧
        (i.toInt < -text.toList.length ∨ text.toList.length ≤ i.toInt → ∃ message,
          Instruction.index.Passes (.int i :: .string p :: stack) m (.null :: stack)
            (m.warned message))) ∧
    ∀ (i size : Int64) (n : Nat), size.toInt = n →
      (i.toInt < 0 → (size + i).toInt = n + i.toInt) ∧ resolveIndex? i n = wordIndex? i size := by
  refine ⟨fun op hop a b stack m => ⟨fun n hn hcorner => ?_, fun hnone => ?_⟩,
    fun a stack m => ⟨fun n => passes_neg, fun hnone => ?_⟩,
    fun i p items stack m hp => ⟨fun k hk hi => ?_, fun hi => ?_⟩,
    fun i p text stack m hm hp => ⟨fun k hk hi => ?_, fun hi => ?_⟩,
    fun i size n hsize => ⟨fun hi => ?_, resolveIndex?_eq_wordIndex? hsize⟩⟩
  · exact passes_arithmetic hop (intResult?_eq_some_iff.2 ⟨hn, hcorner⟩)
  · have hresult : intResult? op a.toInt b.toInt = none :=
      Option.eq_none_iff_forall_ne_some.2 fun n hn =>
        (intResult?_eq_some_iff.1 hn).2 (hnone n (intResult?_eq_some_iff.1 hn).1)
    refine ⟨_, (mentions_arithmeticWarning_iff op a b).trans ⟨?_, And.right⟩,
      passes_arithmetic_undefined hop hresult⟩
    rintro rfl
    exact ⟨eq_div_or_mod_of_intResult? hop hresult, rfl⟩
  · exact ⟨_, not_mentions_negating a, passes_neg_undefined hnone⟩
  · exact passes_item hp (resolveIndex?_eq_some_iff.2 ⟨hk, hi⟩) hk
  · exact passes_item_undefined hp (resolveIndex?_eq_none_iff.2 hi)
  · exact passes_character hm.sound hp (resolveIndex?_eq_some_iff.2 ⟨hk, hi⟩) hk
  · exact passes_character_undefined hp (resolveIndex?_eq_none_iff.2 hi)
  · rw [toInt_add_of_neg (hsize ▸ Int.natCast_nonneg n) hi, hsize]

/-- A quotient rounded toward zero, the remainder of a negative number, the quotient that no word holds, a
division by zero and the negation of the least word; the first of two items and the last of two characters,
counted from the end, and the least position of all. -/
theorem integers_exact_corners :
    let m : Machine := { memory := { heap :=
      ((({} : Heap).alloc (.array [.int 10, .int 20])).2.alloc (.string "ab")).2 } }
    (Instruction.binary .div).Passes [.int 2, .int (-7)] m [.int (-3)] m ∧
    (Instruction.binary .mod).Passes [.int 2, .int (-7)] m [.int (-1)] m ∧
    (∃ message, ¬Mentions message "division by zero" ∧
      (Instruction.binary .div).Passes [.int (-1), .int .minValue] m [.null] (m.warned message)) ∧
    (∃ message, Mentions message "division by zero" ∧
      (Instruction.binary .mod).Passes [.int 0, .int 7] m [.null] (m.warned message)) ∧
    (∃ message, ¬Mentions message "division by zero" ∧
      (Instruction.unary .neg).Passes [.int .minValue] m [.null] (m.warned message)) ∧
    Instruction.index.Passes [.int (-2), .array 0] m [.int 10] m ∧
    (∃ message, Instruction.index.Passes [.int .minValue, .array 0] m [.null] (m.warned message)) ∧
    (∃ q m', Instruction.index.Passes [.int (-1), .string 1] m [.string q] m' ∧
      m'.memory.heap.string? q = some "b") ∧
    ((2 : Int64) + (-2)).toInt = 0 := by
  intro m
  have hheap : m.memory.heap.Obtained := (Heap.Obtained.empty.alloc _).alloc _
  obtain ⟨harithmetic, hneg, harray, hstring, hwords⟩ := integers_exact
  obtain ⟨hitem, hnone⟩ := harray (-2) 0 _ [] m rfl
  refine ⟨(harithmetic .div (by decide) (-7) 2 [] m).1 (-3) ?_ (by decide),
    (harithmetic .mod (by decide) (-7) 2 [] m).1 (-1) ?_ (by decide), ?_, ?_, ?_,
    hitem 0 (by decide) (.inr rfl), (harray .minValue 0 _ [] m rfl).2 (.inl (by decide)), ?_,
    (hwords (-2) 2 2 rfl).1 (by decide)⟩
  · exact BinaryOp.exact_div_iff.2 ⟨by decide, by decide⟩
  · exact BinaryOp.exact_mod_iff.2 ⟨by decide, by decide⟩
  · obtain ⟨message, hmessage, hpasses⟩ :=
      (harithmetic .div (by decide) .minValue (-1) [] m).2 fun n hn => by
        have hlarge : (9223372036854775808 : Int) = n.toInt := (BinaryOp.exact_div_iff.1 hn).2
        have hword : n.toInt ≤ 9223372036854775807 := Int64.toInt_le n
        omega
    exact ⟨message, fun h => absurd (hmessage.1 h).2 (by decide), hpasses⟩
  · obtain ⟨message, hmessage, hpasses⟩ := (harithmetic .mod (by decide) 7 0 [] m).2 fun n hn =>
      absurd rfl (BinaryOp.exact_mod_iff.1 hn).1
    exact ⟨message, hmessage.2 ⟨.inr rfl, rfl⟩, hpasses⟩
  · refine (hneg .minValue [] m).2 fun n hn => ?_
    have hlarge : n.toInt = 9223372036854775808 := hn
    have hword : n.toInt ≤ 9223372036854775807 := Int64.toInt_le n
    omega
  · obtain ⟨q, m', hpasses, htext, -, -⟩ :=
      (hstring (-1) 1 "ab" [] m hheap rfl).1 1 (by decide) (.inr rfl)
    exact ⟨q, m', hpasses, htext⟩

/-- The least word by minus one leaves zero over, and zero is a word. Yet a program that computes the
remainder ends with null and a warning. -/
theorem least_remainder_undefined :
    BinaryOp.mod.Exact Int64.minValue.toInt (-1 : Int64).toInt (0 : Int64).toInt ∧
      ∃ m, (runRange { Executable.empty with streams := [{ language := .associative, code :=
          #[.pushInt .minValue, .pushInt (-1), .binary .mod] }] } 256 256 ⟨0, 0, 3, []⟩).run
        { memory := {} } = .ok .null m ∧
      m.warnings = ["integer overflow in -9223372036854775808 % -1"] := by
  refine ⟨BinaryOp.exact_mod_iff.2 ⟨by decide, by decide⟩, _, rfl, ?_⟩
  decide +kernel

end Reflow
