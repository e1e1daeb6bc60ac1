import Reflow.Proofs.Code.Evaluation
/-!
# Compiled code jumps forward

A conditional is the only expression whose code jumps: over the second arm, and before that over the first
one if the condition does not hold. Both jumps lead to a later place, and neither leads beyond the end of the
conditional, however deeply conditionals are nested and wherever the code stands. Code that jumps only
forward is run in as many steps as it has instructions at most.

## Main definitions

* `Instruction.target?`: the place that an instruction may jump to.
* `JumpsForward`: code in which every jump leads forward.
* `Stream.Forward`: a range of a stream that jumps lead forward in.

## Main results

* `jumpsForward_code`: the code of an expression jumps only forward.
* `Stream.Carries.forward`: so does a range that holds it and one more instruction.
-/

namespace Reflow

/-- The place that an instruction may jump to. -/
def Instruction.target? : Instruction → Option Nat
  | jump target => some target
  | jumpIfFalse target => some target
  | _ => none

/-- In code that starts at the place `base`, every jump leads to a later place, and none of them leads
beyond the end. -/
def JumpsForward (base : Nat) (code : List Instruction) : Prop :=
  ∀ i c target, code[i]? = some c → c.target? = some target →
    base + i < target ∧ target ≤ base + code.length

namespace JumpsForward

variable {base : Nat}

theorem nil : JumpsForward base [] := fun i c target hc => by simp at hc

/-- One instruction that does not jump. -/
theorem single {c : Instruction} (h : c.target? = none) : JumpsForward base [c] := by
  intro i d target hd htarget
  obtain rfl : d = c := by simpa using List.mem_of_getElem? hd
  rw [h] at htarget
  cases htarget

theorem append {cs ds : List Instruction} (h : JumpsForward base cs)
    (k : JumpsForward (base + cs.length) ds) : JumpsForward base (cs ++ ds) := by
  intro i c target hc htarget
  rw [List.length_append]
  by_cases hi : i < cs.length
  · rw [List.getElem?_append_left hi] at hc
    have := h i c target hc htarget
    omega
  · rw [List.getElem?_append_right (Nat.le_of_not_lt hi)] at hc
    have := k _ c target hc htarget
    omega

/-- A jump in front of code that it does not lead beyond. -/
theorem cons {c : Instruction} {cs : List Instruction}
    (hc : ∀ target, c.target? = some target → base < target ∧ target ≤ base + cs.length + 1)
    (h : JumpsForward (base + 1) cs) : JumpsForward base (c :: cs) := by
  intro i d target hd htarget
  rw [List.length_cons]
  cases i with
  | zero =>
    obtain rfl : c = d := by simpa using hd
    have := hc target htarget
    omega
  | succ i =>
    have := h i d target (by simpa using hd) htarget
    omega

end JumpsForward

/-- Pushing what a name stands for is no jump. -/
theorem Referent.target?_load (r : Referent) : r.load.target? = none := by
  cases r <;> rfl

variable {σ : Naming}

mutual

/-- The code of an expression jumps only forward. -/
theorem jumpsForward_code (base : Nat) : (e : Expr) → JumpsForward base (e.code σ base)
  | .null | .bool _ | .int _ | .double _ | .str _ => .single rfl
  | .name n => .single (σ n).target?_load
  | .array items => (jumpsForward_codeAll base items).append (.single rfl)
  | .index target i =>
    ((jumpsForward_code base target).append (jumpsForward_code _ i)).append (.single rfl)
  | .call callee args => by
    rw [Expr.code]
    cases σ callee with
    | procedure p pointer => exact (jumpsForward_codeAll base args).append (.single rfl)
    | argument i | global slot =>
      refine .cons (fun target htarget => ?_) ((jumpsForward_codeAll _ args).append (.single rfl))
      rw [Referent.target?_load] at htarget
      cases htarget
  | .unary _ operand => (jumpsForward_code base operand).append (.single rfl)
  | .binary _ lhs rhs =>
    ((jumpsForward_code base lhs).append (jumpsForward_code _ rhs)).append (.single rfl)
  | .cond test yes no => by
    rw [Expr.code, List.append_assoc, List.cons_append]
    -- the first jump leads just behind the second one, and the second one to the end
    refine .append (jumpsForward_code base test) (.cons ?_ (.append (jumpsForward_code _ yes) (.cons ?_ ?_)))
    · rintro target ⟨⟩
      simp only [List.length_append, List.length_cons]
      omega
    · rintro target ⟨⟩
      omega
    · exact jumpsForward_code _ no

theorem jumpsForward_codeAll (base : Nat) : (es : List Expr) →
    JumpsForward base (Expr.codeAll σ base es)
  | [] => .nil
  | e :: es => (jumpsForward_code base e).append (jumpsForward_codeAll _ es)

end

/-- In the range from `start` to `stop`, jumps lead forward within the range. -/
def Stream.Forward (s : Stream) (start stop : Nat) : Prop :=
  ∀ pc c target, start ≤ pc → pc < stop → s.at? pc = some c → c.target? = some target →
    pc < target ∧ target < stop

/-- A range that holds the code of an expression and one more instruction, which is no jump. -/
theorem Stream.Carries.forward {s : Stream} {start stop : Nat} {e : Expr} {last : Instruction}
    (h : s.Carries start (e.code σ start ++ [last])) (hstop : stop = start + (e.code σ start).length + 1)
    (hlast : last.target? = none) : s.Forward start stop := by
  intro pc c target hlow hhigh hat htarget
  obtain ⟨i, rfl⟩ := Nat.exists_eq_add_of_le hlow
  have hi : i < (e.code σ start ++ [last]).length := by
    rw [List.length_append, List.length_singleton]
    omega
  have hcode := List.getElem?_eq_getElem hi
  rw [h i _ hcode, Option.some.injEq] at hat
  rw [hat] at hcode
  rcases Nat.lt_or_ge i (e.code σ start).length with hi | hi
  · rw [List.getElem?_append_left hi] at hcode
    have := jumpsForward_code start e i c target hcode htarget
    omega
  · rw [List.getElem?_append_right hi] at hcode
    obtain rfl := List.mem_singleton.1 (List.mem_of_getElem? hcode)
    rw [hlast] at htarget
    cases htarget

end Reflow
