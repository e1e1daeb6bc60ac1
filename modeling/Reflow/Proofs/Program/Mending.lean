import Reflow.Proofs.Program.Confinement
import Reflow.Proofs.Program.Solution
/-!
# A full run mends the slots

In a program without functions, a run that starts with all statements ends with values that satisfy the
assignments of the program, whatever the slots have held before. They may be left from a run that has
faulted, with strings, arrays and even functions that the program has never made. A pointer of such a function
leads nowhere, and it is shown by its number, so that a value with such pointers in it still stands for a
datum. An assignment that waits is given its value when its statement runs, and one that does not wait holds
already: only a change of what it reads could have broken it, and then it waits.

## Main definitions

* `Contents.Orderly`: contents in which every variable has one expression, which does not read it.
* `CompileState.Mending`: the assignments hold, but for those whose slots await a value.

## Main results

* `Sound.execute_shows`: after a run, values stand for data, also if the run has faulted.
* `Mending.advance`: one statement of a run.
* `Represents.execute_mending`: a run that starts with all statements.
-/

namespace Reflow

/-- What stands for data stands for data under the names that a program shows. -/
theorem Memory.Shows.shown {names : Nat → Option String} {m : Memory} {slots : List Datum}
    (h : m.Shows names slots) (x : Executable) : ∃ slots', m.Shows x.shownName slots' := by
  obtain ⟨slots', hheld⟩ := h.held.renamed x.functionName
  exact ⟨slots', h.sound, hheld⟩

namespace CompileState

/-! ### Values after a fault -/

section Shows

variable {s : CompileState} {ctx : RunContext}

theorem Sound.propagate_shows (h : s.Sound) (hblock : ctx.block = 0) (fuel : Nat) {p : Propagation}
    {slots : List Datum} (hm : p.memory.Shows s.executable.pointerName? slots)
    (hroom : s.globalCount ≤ slots.length) : ∃ slots',
      (propagate s.executable ctx s.graph fuel p).2.Shows s.executable.pointerName? slots' := by
  induction fuel generalizing p slots with
  | zero =>
    unfold propagate
    split <;> exact ⟨slots, hm⟩
  | succ fuel ih =>
    unfold propagate
    split
    · exact ⟨slots, hm⟩
    · rename_i id rest hdue
      split
      · exact ⟨slots, hm⟩
      · split
        · exact ⟨slots, hm⟩
        · rename_i n hn
          have hmem := (h.graph.node?_eq_some.1 hn).1
          rw [hblock]
          split
          · rename_i v m hr
            obtain ⟨slot, σ, e, hassigns⟩ := h.statements n hmem
            obtain ⟨d, stored, -, -, heffect⟩ := h.run_statement hassigns hm hroom hr
            by_cases hsame : stored.same d = true
            · rw [if_pos hsame] at heffect
              exact ih (p := p.advance s.graph ctx id rest m) heffect.2 hroom
            · rw [if_neg hsame] at heffect
              exact ih (p := p.advance s.graph ctx id rest m) heffect.1
                (by rw [List.length_set]; exact hroom)
          · rename_i fault m hr
            exact ⟨slots, (h.grows_of_fault hmem hr).shows hm⟩

/-- After a run, whether it has succeeded or faulted, all slots stand for data. -/
theorem Sound.execute_shows (h : s.Sound) (hblock : ctx.block = 0) {memory memory' : Memory}
    {slots : List Datum} (hm : memory.Shows s.executable.pointerName? slots)
    (hroom : s.globalCount ≤ slots.length) {result : Except Fault Execution}
    (hr : execute s.executable memory ctx = (result, memory')) :
    ∃ slots', memory'.Shows s.executable.pointerName? slots' := by
  have hmemory : (execute s.executable memory ctx).2 = memory' := by rw [hr]
  rw [← hmemory]
  unfold execute
  simp only [hblock, executable_stream?_zero]
  exact h.propagate_shows hblock _ (p := { memory, worklist := initialWorklist s.root.stream ctx }) hm
    hroom

end Shows

/-! ### Evaluating a plain expression -/

/-- What plain expressions find around them: they call nothing. -/
def bare (s : CompileState) (slots : List Datum) : Surroundings :=
  ⟨slots, fun _ _ => some .null, fun _ _ => some .null, s.executable.shownName⟩

section Evaluation

variable {s : CompileState} {c : Contents} {slots : List Datum} {n : GraphNode} {a : Entry}

/-- In a program without functions, every call gives null. -/
theorem Sound.answers_bare (h : s.Sound) (hplain : s.Plain) (slots : List Datum)
    (enter : Range → Run Value) : (s.bare slots).Answers s.executable enter := by
  have hnone : ∀ p, s.executable.procedureOf? 0 p = none := by
    intro p
    change s.root.procedures.procedures[p]? = none
    rw [hplain.procedures]
    rfl
  have hcall : ∀ p vs m v m', (callProcedure s.executable enter 0 p vs).run m = .ok v m' →
      v = .null := by
    intro p vs m v m' hr
    simp only [callProcedure, hnone] at hr
    cases hr
    rfl
  refine ⟨fun p vs ds m v m' _ _ hr => ⟨.null, rfl, hcall p vs m v m' hr ▸ .null⟩,
    fun u f vs ds m v m' _ _ _ hr => ⟨.null, rfl, ?_⟩⟩
  have hvalue : v = .null := by
    cases u with
    | function q =>
      cases htarget : s.executable.pointers.target? q with
      | none =>
        simp only [callValue, htarget] at hr
        cases hr
        rfl
      | some target =>
        obtain ⟨p, -, rfl⟩ := h.tabled.targets _ (List.mem_of_getElem? htarget)
        simp only [callValue, htarget] at hr
        exact hcall p vs m v m' hr
    | _ =>
      cases hr
      rfl
  exact hvalue ▸ .null

/-- A statement that can be evaluated has the value of its assignment. -/
theorem Represents.evaluate_value (h : s.Represents c) (hs : s.Sound) (ha : a ∈ c)
    (hn : s.Holds n a) (hroom : s.globalCount ≤ slots.length) {m m' : Machine}
    (hm : m.memory.Shows s.executable.shownName slots) {limit depth : Nat} {v : Value}
    (hr : (evaluate s.executable (enterWithin s.executable limit depth) (s.naming {}) [] a.value).run m =
      .ok v m') :
    m'.memory.heap.Held s.executable.shownName v (a.value.value (s.valueOf slots)) := by
  obtain ⟨slot, -, hassigns⟩ := hn.assigns
  have hnamed : a.value.Refers (s.naming {}) (Instruction.Named s.executable.shownName) := by
    refine Expr.refers_of_code n.start a.value fun i _ => ?_
    cases i with
    | pushFunction pointer => exact ⟨_, rfl⟩
    | _ => trivial
  obtain ⟨d, hd, hheld⟩ := evaluate_datum? (w := s.bare slots) (hs.quiet_enter limit depth)
    s.executable.names_shownName (hs.answers_bare h.plain slots _) a.value hnamed hm .nil hr
  have hvalue : a.value.datum? (s.bare slots) (s.naming {}) [] = some (a.value.value (s.valueOf slots)) := by
    refine a.value.datum?_eq_value (h.entries a ha) fun name hname => ?_
    obtain ⟨i, hi⟩ := hn.known name hname
    exact ⟨i, naming_eq_global h.plain.procedures hi, getElem?_valueOf hs hroom hi⟩
  obtain rfl := Option.some.inj (hd.symm.trans hvalue)
  exact hheld

/-- What an expression reads is on record. -/
theorem Represents.reads (h : s.Represents c) (ha : a ∈ c) (hn : s.Holds n a) {name : String}
    (hname : name ∈ a.value.names) {i : Nat} (hi : s.root.symbols.indexOf? name = some i) :
    .symbol (.global i) ∈ n.uses := by
  obtain ⟨slot, -, hassigns⟩ := hn.assigns
  have hrefers := Expr.refers_of_code n.start a.value hassigns.within
  have hwithin := Expr.Refers.of_mem_names a.value (h.entries a ha) hrefers name hname
  rw [naming_eq_global h.plain.procedures hi] at hwithin
  exact hwithin.2

end Evaluation

/-! ### Storing a value -/

section Storing

variable {s : CompileState} {slots : List Datum} {x y : String} {slot : Nat} {d : Datum}

/-- The variable of a slot has the value that the slot is given. -/
theorem valueOf_set_self (hs : s.Sound) (hroom : s.globalCount ≤ slots.length)
    (hx : s.root.symbols.indexOf? x = some slot) : s.valueOf (slots.set slot d) x = d := by
  have hvalue := getElem?_valueOf hs (hroom.trans_eq (List.length_set (i := slot) (a := d)).symm) hx
  have hlt : slot < slots.length := by
    have := (List.getElem?_eq_some_iff.1 hvalue).1
    rwa [List.length_set] at this
  rw [List.getElem?_set_self hlt] at hvalue
  exact (Option.some.inj hvalue).symm

/-- Other variables keep their values. -/
theorem valueOf_set_of_ne (hx : s.root.symbols.indexOf? x = some slot) (hne : y ≠ x) :
    s.valueOf (slots.set slot d) y = s.valueOf slots y := by
  rw [valueOf, valueOf]
  cases hy : s.root.symbols.indexOf? y with
  | none => rfl
  | some slot' =>
    have hslot : slot ≠ slot' := by
      rintro rfl
      exact hne (eq_of_indexOf? hy hx)
    rw [Option.bind_some, Option.bind_some, List.getElem?_set_ne hslot]

end Storing

end CompileState

/-! ### Runs -/

/-- Every variable has one expression, which does not read it. -/
structure Contents.Orderly (c : Contents) : Prop where
  single : ∀ a ∈ c, ∀ b ∈ c, b.target = a.target → b.value = a.value
  irreflexive : ∀ a ∈ c, a.target ∉ a.value.names

theorem Contents.Renders.isOrderly {c : Contents} {read : Expr → Expr} {A : Assignments}
    (h : c.Renders read A) (hread : Expr.Faithful read) (hfunctional : A.Functional)
    (hacyclic : A.Acyclic) : c.Orderly :=
  ⟨fun _ ha _ hb => h.value_eq hfunctional ha hb, fun _ => h.target_notMem hread hacyclic⟩

namespace CompileState

/-- Every variable is the same as the value of its expression, except for those whose slots await a value. -/
structure Mending (s : CompileState) (c : Contents) (memory : Memory) (waiting : List Nat)
    (slots : List Datum) : Prop where
  shows : memory.Shows s.executable.shownName slots
  room : s.globalCount ≤ slots.length
  mended : ∀ a ∈ c, ∀ slot, s.root.symbols.indexOf? a.target = some slot →
    s.Awaits waiting slot ∨ (s.valueOf slots a.target).same (a.value.value (s.valueOf slots)) = true

section Run

variable {s : CompileState} {c : Contents} {ctx : RunContext} {slots : List Datum} {n : GraphNode}
  {a b : Entry} {p : Propagation} {rest : List Nat} {m : Machine} {own : Nat}

/-- When a statement has changed its slot, an assignment to another variable still holds, or its slot awaits
a value. -/
theorem Mending.changed (hp : s.Mending c p.memory p.worklist slots) (h : s.Represents c) (hs : s.Sound)
    (hblock : ctx.block = 0) (hn : n ∈ s.graph.nodes) (hdue : p.due s.graph = n.id :: rest)
    (hown : s.root.symbols.indexOf? b.target = some own) (hdefines : n.defines = some (.global own))
    (hchanged : m.changed = [own]) (d : Datum) (ha : a ∈ c) {slot : Nat}
    (hslot : s.root.symbols.indexOf? a.target = some slot) (hne : slot ≠ own) :
    s.Awaits (p.advance s.graph ctx n.id rest m).worklist slot ∨
      (s.valueOf (slots.set own d) a.target).same
        (a.value.value (s.valueOf (slots.set own d))) = true := by
  rcases hp.mended a ha slot hslot with hwait | hsame
  · obtain ⟨j, hj, hjon, hdefines, hmem⟩ := hwait.of_due hs hn hdue hdefines hne
    exact .inl ⟨j, hj, hjon, hdefines, Propagation.mem_worklist_advance.2 (.inl hmem)⟩
  by_cases hreads : b.target ∈ a.value.names
  · obtain ⟨k, hk, hkon, hholds⟩ := h.complete a ha
    obtain ⟨slot', hslot', hassigns⟩ := hholds.assigns
    obtain rfl := Option.some.inj (hslot.symm.trans hslot')
    have hid : k.id ≠ n.id := by
      intro hid
      obtain rfl := Keyed.eq_of_key_eq hs.graph.nodes hk hn hid
      exact hne (by simpa [SymbolKey.global] using hassigns.defines.symm.trans hdefines)
    refine .inl ⟨k, hk, hkon, hassigns.defines,
      Propagation.mem_worklist_advance.2 (.inr ⟨hid, own, ?_, ?_⟩)⟩
    · rw [hchanged]
      exact List.mem_singleton_self own
    · rw [hblock]
      exact hs.graph.mem_readersOf hk hkon (.use (h.reads ha hholds hreads hown))
  · have htarget : a.target ≠ b.target := by
      intro heq
      rw [heq, hown] at hslot
      exact hne (Option.some.inj hslot).symm
    have hvalue : a.value.value (s.valueOf (slots.set own d)) = a.value.value (s.valueOf slots) :=
      a.value.value_congr fun name hname =>
        valueOf_set_of_ne hown fun heq => hreads (heq ▸ hname)
    rw [valueOf_set_of_ne hown htarget, hvalue]
    exact .inr hsame

/-- When a statement has run, every assignment still holds, or its slot awaits a value. -/
theorem Mending.advance (hp : s.Mending c p.memory p.worklist slots) (h : s.Represents c) (hs : s.Sound)
    (hc : c.Orderly) (hblock : ctx.block = 0) (hn : n ∈ s.graph.nodes) (hon : n.isActive = true)
    (hdue : p.due s.graph = n.id :: rest) {v : Value} (hr : (runRange s.executable ctx.maxDepth
      ctx.maxDepth ⟨0, n.start, n.stop, []⟩).run { memory := p.memory } = .ok v m) :
    ∃ slots', s.Mending c m.memory (p.advance s.graph ctx n.id rest m).worklist slots' := by
  obtain ⟨b, hb, hholds⟩ := h.sound n hn hon
  obtain ⟨own, hown, hassigns⟩ := hholds.assigns
  obtain ⟨u, m₁, stored, hu, hstored, heffect⟩ := hs.run_assigns_ok hassigns hp.shows hp.room hr
  have heffect := heffect _ (h.evaluate_value hs hb hholds hp.room hp.shows hu)
  -- whatever assigns the same slot has the same expression
  have hcopy : ∀ {a : Entry}, a ∈ c → s.root.symbols.indexOf? a.target = some own →
      a.target = b.target ∧ a.value = b.value := fun ha hslot =>
    have htarget := eq_of_indexOf? hslot hown
    ⟨htarget, hc.single b hb _ ha htarget⟩
  by_cases hsame : stored.same (b.value.value (s.valueOf slots)) = true
  · rw [if_pos hsame] at heffect
    refine ⟨slots, heffect.2, hp.room, fun a ha slot hslot => ?_⟩
    by_cases hne : slot = own
    · subst hne
      obtain ⟨htarget, hvalue⟩ := hcopy ha hslot
      obtain rfl := Option.some.inj (hstored.symm.trans (getElem?_valueOf hs hp.room hown))
      exact .inr (htarget ▸ hvalue ▸ hsame)
    · rw [Propagation.advance, heffect.1.changed]
      exact (hp.mended a ha slot hslot).imp_left (Awaits.of_due hs hn hdue hassigns.defines hne)
  · rw [if_neg hsame] at heffect
    refine ⟨_, heffect.1, by rw [List.length_set]; exact hp.room, fun a ha slot hslot => ?_⟩
    by_cases hne : slot = own
    · subst hne
      obtain ⟨htarget, hvalue⟩ := hcopy ha hslot
      -- the expression does not read the variable, so that the store has not changed its value
      have hsame : b.value.value (s.valueOf (slots.set slot (b.value.value (s.valueOf slots)))) =
          b.value.value (s.valueOf slots) := b.value.value_congr fun name hname =>
        valueOf_set_of_ne hown fun heq => hc.irreflexive b hb (heq ▸ hname)
      rw [htarget, hvalue, hsame, valueOf_set_self hs hp.room hown]
      exact .inr (Datum.same_self _)
    · exact hp.changed h hs hblock hn hdue hown hassigns.defines heffect.2 _ ha hslot hne

/-- A run that starts with all statements ends with all assignments satisfied. -/
theorem Represents.execute_mending (h : s.Represents c) (hs : s.Sound) (hc : c.Orderly)
    (hblock : ctx.block = 0) {memory memory' : Memory} (hm : memory.Shows s.executable.shownName slots)
    (hroom : s.globalCount ≤ slots.length)
    (hall : ∀ n ∈ s.graph.nodes, n.isActive = true → n.id ∈ initialWorklist s.root.stream ctx)
    {run : Execution} (hr : execute s.executable memory ctx = (.ok run, memory')) :
    ∃ slots', memory'.Shows s.executable.shownName slots' ∧ s.globalCount ≤ slots'.length ∧
      ∀ a ∈ c, (s.valueOf slots' a.target).same (a.value.value (s.valueOf slots')) = true := by
  have hstart : s.Mending c memory (initialWorklist s.root.stream ctx) slots := by
    refine ⟨hm, hroom, fun a ha slot hslot => .inl ?_⟩
    obtain ⟨n, hn, hon, hholds⟩ := h.complete a ha
    obtain ⟨slot', hslot', hassigns⟩ := hholds.assigns
    obtain rfl := Option.some.inj (hslot.symm.trans hslot')
    exact ⟨n, hn, hon, hassigns.defines, hall n hn hon⟩
  obtain ⟨q, hdue, rfl, slots', hq⟩ := hs.execute_invariant hblock
    (I := fun memory waiting => ∃ slots, s.Mending c memory waiting slots)
    (fun p n rest m v ⟨slots, hp⟩ hn hon hdue hrun => hp.advance h hs hc hblock hn hon hdue hrun)
    ⟨slots, hstart⟩ hr
  refine ⟨slots', hq.shows, hq.room, fun a ha => ?_⟩
  obtain ⟨n, -, -, hholds⟩ := h.complete a ha
  obtain ⟨slot, hslot, -⟩ := hholds.assigns
  exact (hq.mended a ha slot hslot).resolve_left (not_awaits_of_due hs hdue)

end Run

end CompileState

end Reflow
