import Reflow.Proofs.Lang.Equations
import Reflow.Proofs.Program.Contents
/-!
# The values of a program solve its assignments

In a program without functions that has settled, every variable has the value of the expression assigned
to it, provided that each variable is assigned once and that no variable is read by its own expression,
directly or through others. Variables without an assignment are null.

## Main definitions

* `Expr.Faithful`: ways of reading expressions that keep names and values.
* `Contents.Renders`: contents that are some assignments, read in such a way.
* `CompileState.valueOf`: the value of a variable.

## Main results

* `CompileState.Represents.solved`: the values of the variables solve the assignments.
-/

namespace Reflow

/-- Reading an expression in this way changes neither its names nor its value. -/
structure Expr.Faithful (read : Expr → Expr) : Prop where
  names : ∀ e, (read e).names = e.names
  value : ∀ e env, (read e).value env = e.value env

theorem Expr.faithful_id : Faithful id := ⟨fun _ => rfl, fun _ _ => rfl⟩

theorem Expr.faithful_reread : Faithful reread := ⟨names_reread, fun e _ => value_reread e⟩

/-- The contents are the assignments with their expressions as they were read. All else that is assigned
is null. -/
structure Contents.Renders (c : Contents) (read : Expr → Expr) (A : Assignments) : Prop where
  complete : ∀ x e, (x, e) ∈ A → ∃ owner, ⟨owner, x, read e⟩ ∈ c
  sound : ∀ b ∈ c, (∃ e, (b.target, e) ∈ A ∧ b.value = read e) ∨
    b.value = .null ∧ ∀ e, (b.target, e) ∉ A

namespace Assignments

/-- Every variable is assigned once. -/
def Functional (A : Assignments) : Prop := ∀ x e e', (x, e) ∈ A → (x, e') ∈ A → e = e'

/-- No variable is read by its own expression, directly or through others. -/
def Acyclic (A : Assignments) : Prop := ∀ x, ¬ Relation.TransGen A.Reads x x

end Assignments

namespace CompileState

/-- The value of a variable, given those of the slots. -/
def valueOf (s : CompileState) (slots : List Datum) (x : String) : Datum :=
  ((s.root.symbols.indexOf? x).bind (slots[·]?)).getD .null

variable {s : CompileState} {c : Contents} {slots : List Datum} {memory : Memory}
  {read : Expr → Expr} {A : Assignments} {a b : Entry} {n : GraphNode} {x : String} {slot : Nat}

/-- A known variable has the value that its slot holds. -/
theorem getElem?_valueOf (hs : s.Sound) (hroom : s.globalCount ≤ slots.length)
    (hx : s.root.symbols.indexOf? x = some slot) : slots[slot]? = some (s.valueOf slots x) := by
  have hlt : slot < slots.length := by
    obtain ⟨hslot, -⟩ := List.findIdx?_eq_some_iff_getElem.1 hx
    have hcount : s.globalCount = s.root.symbols.symbols.length := hs.tabled.slots
    omega
  rw [valueOf, hx, Option.bind_some, List.getElem?_eq_getElem hlt, Option.getD_some]

end CompileState

/-- All assignments to one variable have the same expression. -/
theorem Contents.Renders.value_eq {c : Contents} {read : Expr → Expr} {A : Assignments} {a b : Entry}
    (h : c.Renders read A) (hA : A.Functional) (ha : a ∈ c) (hb : b ∈ c)
    (htarget : b.target = a.target) : b.value = a.value := by
  rcases h.sound a ha with ⟨e, he, hvalue⟩ | ⟨hvalue, hnone⟩ <;>
    rcases h.sound b hb with ⟨e', he', hvalue'⟩ | ⟨hvalue', hnone'⟩
  · rw [hvalue, hvalue', hA _ _ _ he (htarget ▸ he')]
  · exact absurd (htarget ▸ he) (hnone' e)
  · exact absurd (htarget ▸ he') (hnone e')
  · rw [hvalue, hvalue']

/-- No expression reads the variable that it is assigned to. -/
theorem Contents.Renders.target_notMem {c : Contents} {read : Expr → Expr} {A : Assignments}
    {a : Entry} (h : c.Renders read A) (hread : Expr.Faithful read) (hA : A.Acyclic) (ha : a ∈ c) :
    a.target ∉ a.value.names := by
  intro hmem
  rcases h.sound a ha with ⟨e, he, hvalue⟩ | ⟨hvalue, -⟩
  · rw [hvalue, hread.names] at hmem
    exact hA _ (.single ⟨e, he, hmem⟩)
  · rw [hvalue] at hmem
    cases hmem

namespace CompileState

variable {s : CompileState} {c : Contents} {slots : List Datum} {memory : Memory}
  {read : Expr → Expr} {A : Assignments} {a : Entry} {n : GraphNode} {x : String} {slot : Nat}

/-- Every statement is the only one, but for copies, that assigns its variable, and it does not read
it. -/
theorem Represents.regular (h : s.Represents c) (hrenders : c.Renders read A)
    (hread : Expr.Faithful read) (hfunctional : A.Functional) (hacyclic : A.Acyclic) (ha : a ∈ c)
    (hn : n ∈ s.graph.nodes) (hon : n.isActive = true) (hholds : s.Holds n a)
    (hslot : s.root.symbols.indexOf? a.target = some slot) :
    s.Regular n slot (s.naming {}) a.value := by
  refine ⟨hn, hon, fun m hm hmon hdefines => ?_, fun hreach => ?_⟩
  · obtain ⟨b, hb, hm⟩ := h.sound m hm hmon
    obtain ⟨slot', hslot', hassigns⟩ := hholds.assigns
    obtain rfl : slot = slot' := Option.some.inj (hslot.symm.trans hslot')
    have htarget : b.target = a.target :=
      eq_of_indexOf? (hm.indexOf?_of_defines (hdefines.trans hassigns.defines)) hslot
    obtain ⟨slot'', hslot'', hcopy⟩ := hm.assigns
    rw [htarget, hslot] at hslot''
    obtain rfl := Option.some.inj hslot''
    rwa [hrenders.value_eq hfunctional ha hb htarget] at hcopy
  · obtain ⟨name, hname, i, hi, hvertex⟩ := hholds.uses _ (h.plain.mem_of_reaches hreach)
    cases hvertex
    rw [eq_of_indexOf? hi hslot] at hname
    exact hrenders.target_notMem hread hacyclic ha hname

/-- In a settled program, a variable is the same as the value of its expression. -/
theorem Represents.same_valueOf (h : s.Represents c) (hs : s.Sound)
    (hsteady : s.Steady memory [] slots) (hrenders : c.Renders read A) (hread : Expr.Faithful read)
    (hfunctional : A.Functional) (hacyclic : A.Acyclic) (ha : a ∈ c) :
    (s.valueOf slots a.target).same (a.value.value (s.valueOf slots)) = true := by
  obtain ⟨n, hn, hon, hholds⟩ := h.complete a ha
  obtain ⟨slot, hslot, -⟩ := hholds.assigns
  have hregular := h.regular hrenders hread hfunctional hacyclic ha hn hon hholds hslot
  have hnames : ∀ name ∈ a.value.names, ∃ i, s.naming {} name = .global i ∧
      slots[i]? = some (s.valueOf slots name) := by
    intro name hname
    obtain ⟨i, hi⟩ := hholds.known name hname
    exact ⟨i, naming_eq_global h.plain.procedures hi, getElem?_valueOf hs hsteady.room hi⟩
  have hdatum : a.value.datum? (s.executable.surroundings (s.Uses n) slots 0) (s.naming {}) [] =
      some (a.value.value (s.valueOf slots)) := a.value.datum?_eq_value (h.entries a ha) hnames
  obtain ⟨stored, hstored, hsame⟩ := hsteady.settled hregular 0 _ hdatum
  have hvalue := getElem?_valueOf hs hsteady.room hslot
  rwa [Option.some.inj (hstored.symm.trans hvalue)] at hsame

/-- The values of the variables solve the assignments, if slots that nothing assigns hold null. -/
theorem Represents.solved (h : s.Represents c) (hs : s.Sound) (hsteady : s.Steady memory [] slots)
    (hrenders : c.Renders read A) (hread : Expr.Faithful read) (hfunctional : A.Functional)
    (hacyclic : A.Acyclic) (hnull : ∀ x slot, s.root.symbols.indexOf? x = some slot →
      (∀ b ∈ c, b.target ≠ x) → memory.global? slot = some .null) :
    A.Solved (s.valueOf slots) where
  assigned x e he := by
    obtain ⟨owner, hmem⟩ := hrenders.complete x e he
    have hsame := h.same_valueOf hs hsteady hrenders hread hfunctional hacyclic hmem
    rwa [hread.value] at hsame
  unassigned x hx := by
    by_cases hassigned : ∃ b ∈ c, b.target = x
    · obtain ⟨b, hb, rfl⟩ := hassigned
      rcases hrenders.sound b hb with ⟨e, he, -⟩ | ⟨hvalue, -⟩
      · exact absurd he (hx e)
      · have hsame := h.same_valueOf hs hsteady hrenders hread hfunctional hacyclic hb
        rw [hvalue] at hsame
        exact Datum.eq_of_same .null rfl hsame
    · cases hslot : s.root.symbols.indexOf? x with
      | none => rw [valueOf, hslot]; rfl
      | some slot =>
        have hvalue := hnull x slot hslot fun b hb htarget => hassigned ⟨b, hb, htarget⟩
        rw [Memory.global?, ← Array.getElem?_toList] at hvalue
        obtain ⟨d, hd, hheld⟩ := hsteady.shows.held.getElem? hvalue
        cases hheld
        exact Option.some.inj ((getElem?_valueOf hs hsteady.room hslot).symm.trans hd)

end CompileState

end Reflow
