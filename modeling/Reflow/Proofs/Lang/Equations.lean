import Mathlib.Order.WellFoundedSet
import Reflow.Proofs.Lang.Meaning
/-!
# Assignments as equations

Assignments are equations between their variables. If no variable is read, directly or through others,
by the expression that is assigned to it, then the equations have one solution at most: whatever gave a
variable its value, the value is determined by the equations.

## Main definitions

* `Assignments`: variables with the expressions assigned to them.
* `Assignments.Reads`: the expression of one variable reads another one.
* `Assignments.Solved`: values that satisfy the equations, the other names being null.
* `Assignments.Satisfied`: values that satisfy the equations.
* `Assignments.Closed`: equations that read only what they assign to.

## Main results

* `Solved.unique`: equations without cycles have one solution at most.
* `Satisfied.unique_of_closed`: if they are closed, they determine all that they assign to.
-/

namespace Reflow

/-- Variables with the expressions assigned to them. -/
abbrev Assignments := List (String × Expr)

namespace Assignments

variable {A : Assignments} {env env' : String → Datum}

/-- An expression assigned to `x` reads `y`. -/
def Reads (A : Assignments) (x y : String) : Prop := ∃ e, (x, e) ∈ A ∧ y ∈ e.names

/-- Every variable is the same as the value of the expression assigned to it, and names without an
assignment are null. -/
structure Solved (A : Assignments) (env : String → Datum) : Prop where
  assigned : ∀ x e, (x, e) ∈ A → (env x).same (e.value env) = true
  unassigned : ∀ x, (∀ e, (x, e) ∉ A) → env x = .null

/-- Every variable is the same as the value of the expression assigned to it. -/
def Satisfied (A : Assignments) (env : String → Datum) : Prop :=
  ∀ x e, (x, e) ∈ A → (env x).same (e.value env) = true

/-- No expression reads a name without an assignment. -/
def Closed (A : Assignments) : Prop := ∀ x y, A.Reads x y → ∃ e, (y, e) ∈ A

/-- Without cycles, what is assigned to can be worked off from what is read to what reads it. -/
theorem wellFoundedOn_reads (hacyclic : ∀ x, ¬ Relation.TransGen A.Reads x x) :
    {x | ∃ e, (x, e) ∈ A}.WellFoundedOn fun y x => Relation.TransGen A.Reads x y := by
  have : Std.Irrefl fun y x => Relation.TransGen A.Reads x y := ⟨fun x => hacyclic x⟩
  have : IsTrans String fun y x => Relation.TransGen A.Reads x y :=
    ⟨fun _ _ _ hxy hyz => hyz.trans hxy⟩
  have : IsStrictOrder String fun y x => Relation.TransGen A.Reads x y := {}
  refine Set.Finite.wellFoundedOn ((List.finite_toSet (A.map Prod.fst)).subset ?_)
  rintro x ⟨e, he⟩
  exact List.mem_map.2 ⟨_, he, rfl⟩

/-- A variable has one value, and it is plain, if all that its expression reads has one value and is
plain. -/
theorem Satisfied.eq_of_names (h : A.Satisfied env) (h' : A.Satisfied env') {x : String} {e : Expr}
    (he : (x, e) ∈ A) (hplain : e.isPlain = true)
    (hnames : ∀ n ∈ e.names, env n = env' n ∧ (env n).isPlain = true) :
    env x = env' x ∧ (env x).isPlain = true := by
  have hvalue : e.value env = e.value env' := e.value_congr fun n hn => (hnames n hn).1
  have hvalueplain : (e.value env).isPlain = true :=
    e.isPlain_value hplain fun n hn => (hnames n hn).2
  have hleft := Datum.eq_of_same _ hvalueplain (h x e he)
  have hright := Datum.eq_of_same _ (hvalue ▸ hvalueplain) (h' x e he)
  rw [hleft, hright]
  exact ⟨hvalue, hvalueplain⟩

/-- Without cycles, the variables have one value each, and it is plain if the expressions are, provided that
this is so for the names that are read without an assignment. -/
theorem Satisfied.unique (hacyclic : ∀ x, ¬ Relation.TransGen A.Reads x x)
    (hplain : ∀ a ∈ A, a.2.isPlain = true) (h : A.Satisfied env) (h' : A.Satisfied env')
    (hfree : ∀ x y, A.Reads x y → (∀ e, (y, e) ∉ A) → env y = env' y ∧ (env y).isPlain = true)
    {x : String} {e : Expr} (hx : (x, e) ∈ A) : env x = env' x ∧ (env x).isPlain = true := by
  refine (wellFoundedOn_reads hacyclic).induction
    (P := fun x => env x = env' x ∧ (env x).isPlain = true) ⟨e, hx⟩ fun y hy ih => ?_
  obtain ⟨e, he⟩ := hy
  refine h.eq_of_names h' he (hplain _ he) fun n hn => ?_
  by_cases hassigned : ∃ e, (n, e) ∈ A
  · exact ih n hassigned (.single ⟨e, he, hn⟩)
  · exact hfree y n ⟨e, he, hn⟩ fun e he => hassigned ⟨e, he⟩

/-- Equations without cycles have one solution at most, and it is plain if the expressions are. -/
theorem Solved.unique (hacyclic : ∀ x, ¬ Relation.TransGen A.Reads x x)
    (hplain : ∀ a ∈ A, a.2.isPlain = true) (h : A.Solved env) (h' : A.Solved env') (x : String) :
    env x = env' x ∧ (env x).isPlain = true := by
  have hnull : ∀ x, (∀ e, (x, e) ∉ A) → env x = env' x ∧ (env x).isPlain = true := by
    intro x hx
    rw [h.unassigned x hx, h'.unassigned x hx]
    exact ⟨rfl, rfl⟩
  by_cases hx : ∃ e, (x, e) ∈ A
  · obtain ⟨e, he⟩ := hx
    exact Satisfied.unique hacyclic hplain h.assigned h'.assigned (fun _ y _ => hnull y) he
  · exact hnull x fun e he => hx ⟨e, he⟩

/-- Equations without cycles that read only what they assign to determine all of it. -/
theorem Satisfied.unique_of_closed (hacyclic : ∀ x, ¬ Relation.TransGen A.Reads x x)
    (hplain : ∀ a ∈ A, a.2.isPlain = true) (hclosed : A.Closed) (h : A.Satisfied env)
    (h' : A.Satisfied env') {x : String} {e : Expr} (hx : (x, e) ∈ A) : env x = env' x := by
  refine (h.unique hacyclic hplain h' (fun x y hreads hnone => ?_) hx).1
  obtain ⟨e, he⟩ := hclosed x y hreads
  exact absurd he (hnone e)

end Assignments

end Reflow
