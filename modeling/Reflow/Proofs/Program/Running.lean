import Reflow.Machine.Propagation
import Reflow.Proofs.Code.Denotation
import Reflow.Proofs.Program.Soundness
/-!
# Running sound programs

In the executable of a sound program every frame evaluates an expression: the frame of a statement
stores its value, the frame of a call returns it. Such frames change nothing but the slot of the
statement and the heap, and with the program's slots allocated they fault only when calls are nested
too deeply.

## Main definitions

* `Executable.Functional`: programs whose functions evaluate expressions.

## Main results

* `Sound.functional`: the executable of a sound program is functional.
* `Sound.runFrame_computes`, `Sound.runFrame_assigns`: what the frames of a sound program do.
* `Executable.Functional.quiet_enter`, `Sound.safe_enter`: calls are quiet and safe.
* `Sound.execute_spec`: a run keeps the number of slots and faults only by the program's own doing.
-/

namespace Reflow

/-! ### The parts of an executable -/

namespace CompileState

variable {s : CompileState}

@[simp] theorem executable_stream?_zero (s : CompileState) :
    s.executable.stream? 0 = some s.root.stream := rfl

theorem executable_stream?_succ (s : CompileState) (b : Nat) :
    s.executable.stream? (b + 1) = s.bodies[b]?.map (·.stream) := by
  simp [executable, Executable.ofBlocks, arena, Executable.stream?]

/-- The block that a procedure names as its body has the code of the body. -/
theorem Computes.stream? {p : Procedure} {u : ProcedureUses} {block : CodeBlock} {σ : Naming} {e : Expr}
    (hp : s.Computes p u block σ e) {b : Nat} (hb : p.body = some b) :
    s.executable.stream? b = some block.stream := by
  obtain ⟨b', hb', hblock⟩ := hp.body
  obtain rfl : b' + 1 = b := Option.some.inj (hb'.symm.trans hb)
  rw [executable_stream?_succ, hblock, Option.map_some]

@[simp] theorem executable_procedureOf?_zero (s : CompileState) (index : Nat) :
    s.executable.procedureOf? 0 index = s.root.procedures.procedures[index]? := rfl

@[simp] theorem executable_pointers (s : CompileState) : s.executable.pointers = s.pointers := rfl

@[simp] theorem executable_graph? (s : CompileState) : s.executable.graph? = some s.graph := rfl

end CompileState

theorem Stream.carries_of_toList {stream : Stream} {code : List Instruction}
    (h : stream.code.toList = code) : stream.Carries 0 code := by
  intro i c hc
  rw [Nat.zero_add, Stream.at?, ← Array.getElem?_toList, h]
  exact hc

/-- All procedures are top-level, as are those that function pointers lead to. The body of an active one
evaluates an expression whose functions have names, unless its code is missing. -/
structure Executable.Functional (x : Executable) : Prop where
  nested : ∀ b index, x.procedureOf? (b + 1) index = none
  targets : ∀ pointer block index, x.pointers.target? pointer = some (block, index) → block = 0
  bodies : ∀ index p b stream, x.procedure? index = some p → p.isActive = true → p.body = some b →
    x.stream? b = some stream → ∃ (σ : Naming) (e : Expr),
      stream.code.toList = e.code σ 0 ++ [.ret] ∧ p.start = 0 ∧
      p.stop = (e.code σ 0).length + 1 ∧ ∀ i ∈ e.code σ 0, i.Named x.pointerName?

/-- The frame of a function whose code is that of an expression evaluates the expression. -/
theorem runFrame_function {x : Executable} {enter : Range → Run Value} {b : Nat} {p : Procedure}
    {stream : Stream} {σ : Naming} {e : Expr} (hstream : x.stream? b = some stream)
    (hcode : stream.code.toList = e.code σ 0 ++ [.ret]) (hstart : p.start = 0)
    (hstop : p.stop = (e.code σ 0).length + 1) (locals : List Value) :
    runFrame x enter ⟨b, p.start, p.stop, locals⟩ = evaluate x enter σ locals e := by
  refine runFrame_body (r := ⟨b, p.start, p.stop, locals⟩) hstream ?_ ?_
  · change stream.Carries p.start (e.code σ p.start ++ [.ret])
    rw [hstart]
    exact Stream.carries_of_toList hcode
  · change p.stop = p.start + (e.code σ p.start).length + 1
    rw [hstart, hstop, Nat.zero_add]

theorem runFrame_missing {x : Executable} {enter : Range → Run Value} {r : Range}
    (hstream : x.stream? r.block = none) :
    runFrame x enter r = throw (.missingBlock r.block) := by
  rw [runFrame, hstream]

/-- A call changes no global. -/
theorem Executable.Functional.quiet_enter {x : Executable} (h : x.Functional) (limit : Nat) :
    ∀ (depth : Nat) (r : Range), x.Enters r → Quiet (enterWithin x limit depth r)
  | 0, r, _ => .throw _
  | depth + 1, r, hr => by
    obtain ⟨block, index, p, b, hp, hon, hb, -, heq⟩ := hr
    cases block with
    | succ block => simp [h.nested] at hp
    | zero =>
      rw [enterWithin, runRange_eq, heq]
      cases hstream : x.stream? b with
      | none =>
        rw [runFrame_missing hstream]
        exact .throw _
      | some stream =>
        obtain ⟨σ, e, hcode, hstart, hstop, -⟩ := h.bodies index p b stream hp hon hb hstream
        rw [runFrame_function hstream hcode hstart hstop]
        exact quiet_evaluate (h.quiet_enter limit depth) e

namespace CompileState.Sound

variable {s : CompileState}

/-- Only top-level procedures exist. -/
theorem procedureOf?_succ (h : s.Sound) (b index : Nat) :
    s.executable.procedureOf? (b + 1) index = none := by
  have hb : s.executable.procedures[b + 1]? = s.bodies[b]?.map (·.procedures) := by
    simp [executable, Executable.ofBlocks, arena]
  rw [Executable.procedureOf?, hb]
  cases hblock : s.bodies[b]? with
  | none => rfl
  | some block => simp [ProcedureTable.at?, (h.bodies block (List.mem_of_getElem? hblock)).1]

/-- A frame that a call opens is the body of an active procedure. -/
theorem computes_of_enters (h : s.Sound) {r : Range} (hr : s.executable.Enters r) :
    ∃ p ∈ s.root.procedures.procedures, p.isActive = true ∧ p.arity = r.locals.length ∧
      ∃ u block σ e, s.Computes p u block σ e ∧
        ∃ b, p.body = some (b + 1) ∧ r = ⟨b + 1, p.start, p.stop, r.locals⟩ := by
  obtain ⟨block, index, p, body, hp, hon, hbody, harity, heq⟩ := hr
  cases block with
  | succ b => simp [h.procedureOf?_succ] at hp
  | zero =>
    have hmem : p ∈ s.root.procedures.procedures := List.mem_of_getElem? hp
    obtain ⟨u, block, σ, e, hcomputes⟩ := h.functions p hmem hon
    obtain ⟨b, hb, hblock⟩ := hcomputes.body
    rw [hbody, Option.some.injEq] at hb
    subst hb
    exact ⟨p, hmem, hon, harity, u, block, σ, e, hcomputes, b, hbody, heq⟩

/-- The frame of a procedure evaluates the procedure's expression. -/
theorem runFrame_computes {p : Procedure} {u : ProcedureUses} {block : CodeBlock} {σ : Naming}
    {e : Expr} (hp : s.Computes p u block σ e) {b : Nat} (hb : p.body = some (b + 1))
    (enter : Range → Run Value) (locals : List Value) :
    runFrame s.executable enter ⟨b + 1, p.start, p.stop, locals⟩ =
      evaluate s.executable enter σ locals e :=
  runFrame_function (hp.stream? hb) hp.code hp.start hp.stop locals

/-- The frame of a statement evaluates its expression and stores the value. -/
theorem runFrame_assigns {n : GraphNode} {slot : Nat} {σ : Naming} {e : Expr}
    (hn : s.Assigns n slot σ e) (enter : Range → Run Value) :
    runFrame s.executable enter ⟨0, n.start, n.stop, []⟩ = do
      let v ← evaluate s.executable enter σ [] e
      storeValue slot v
      return .null :=
  runFrame_statement (r := ⟨0, n.start, n.stop, []⟩) (executable_stream?_zero s) hn.carries hn.stop

/-- Without its last instruction, which is the store, a statement only evaluates its expression. -/
theorem runFrame_unstored {n : GraphNode} {slot : Nat} {σ : Naming} {e : Expr}
    (hn : s.Assigns n slot σ e) (enter : Range → Run Value) :
    runFrame s.executable enter ⟨0, n.start, n.stop - 1, []⟩ =
      evaluate s.executable enter σ [] e :=
  runFrame_value (r := ⟨0, n.start, n.stop - 1, []⟩) (executable_stream?_zero s) hn.carries.left
    (by simp only [hn.stop, Nat.add_sub_cancel])

/-! ### Calls are quiet and safe -/

/-- Every function pointer that code pushes has a name. -/
theorem named_of_within (h : s.Sound) {i : Instruction} {uses : List Vertex}
    (hi : i.Within s uses) : i.Named s.executable.pointerName? := by
  cases i with
  | pushFunction pointer =>
    obtain ⟨p, hp, -⟩ := hi
    obtain ⟨q, hq, heq⟩ := h.tabled.targets _ (List.mem_of_getElem? hp)
    obtain rfl : p = q := congrArg Prod.snd heq
    refine ⟨(s.root.procedures.procedures[p]).name, ?_⟩
    simp [Executable.pointerName?, hp, hq]
  | _ => trivial

theorem functional (h : s.Sound) : s.executable.Functional where
  nested := h.procedureOf?_succ
  targets pointer block index htarget := by
    obtain ⟨_, -, heq⟩ := h.tabled.targets _ (List.mem_of_getElem? htarget)
    exact congrArg Prod.fst heq
  bodies index p b stream hp hon hb hstream := by
    obtain ⟨u, block, σ, e, hcomputes⟩ := h.functions p (List.mem_of_getElem? hp) hon
    obtain rfl := Option.some.inj ((hcomputes.stream? hb).symm.trans hstream)
    exact ⟨σ, e, hcomputes.code, hcomputes.start, hcomputes.stop,
      fun i hi => h.named_of_within (hcomputes.within i hi)⟩

/-- A call changes no global. -/
theorem quiet_enter (h : s.Sound) (limit depth : Nat) (r : Range) (hr : s.executable.Enters r) :
    Quiet (enterWithin s.executable limit depth r) :=
  h.functional.quiet_enter limit depth r hr

theorem loadsBelow_of_within {uses : List Vertex} {i : Instruction} (hi : i.Within s uses) :
    i.LoadsBelow s.globalCount := by
  rintro slot rfl
  exact hi.1

/-- A call faults only by the program's own doing. -/
theorem safe_enter (h : s.Sound) (limit : Nat) : ∀ (depth : Nat) (r : Range),
    s.executable.Enters r → Safe s.globalCount (enterWithin s.executable limit depth r)
  | 0, r, _ => by
    intro m _ fault m' hr
    cases hr
    rfl
  | depth + 1, r, hr => by
    obtain ⟨p, -, -, -, u, block, σ, e, hp, b, hb, heq⟩ := h.computes_of_enters hr
    rw [enterWithin, runRange_eq, heq, runFrame_computes hp hb]
    exact safe_evaluate (h.quiet_enter limit depth) (h.safe_enter limit depth) e
      (Expr.refers_of_code 0 e fun i hi => loadsBelow_of_within (hp.within i hi))

/-! ### Statements and whole runs -/

/-- The value of a statement, on a memory with the program's slots: it changes no global, and it
faults only by the program's own doing. -/
theorem evaluate_spec (h : s.Sound) {n : GraphNode} {slot : Nat} {σ : Naming} {e : Expr}
    (hn : s.Assigns n slot σ e) (limit depth : Nat) :
    Quiet (evaluate s.executable (enterWithin s.executable limit depth) σ [] e) ∧
      Safe s.globalCount (evaluate s.executable (enterWithin s.executable limit depth) σ [] e) :=
  ⟨quiet_evaluate (h.quiet_enter limit depth) e,
    safe_evaluate (h.quiet_enter limit depth) (h.safe_enter limit depth) e
      (Expr.refers_of_code n.start e fun i hi => loadsBelow_of_within (hn.within i hi))⟩

/-- A statement that has run has evaluated its expression and stored the value. -/
theorem stored_of_run (h : s.Sound) {n : GraphNode} {slot : Nat} {σ : Naming} {e : Expr}
    (hn : s.Assigns n slot σ e) {limit depth : Nat} {v : Value} {m m' : Machine}
    (hr : (runRange s.executable limit depth ⟨0, n.start, n.stop, []⟩).run m = .ok v m') :
    ∃ u m₁, (evaluate s.executable (enterWithin s.executable limit depth) σ [] e).run m = .ok u m₁ ∧
      m.Grows m₁ ∧ (storeValue slot u).run m₁ = .ok () m' := by
  rw [runRange_eq, runFrame_assigns hn] at hr
  obtain ⟨u, m₁, hu, hr⟩ := run_bind_ok hr
  obtain ⟨_, m₂, hstore, hr⟩ := run_bind_ok hr
  cases hr
  exact ⟨u, m₁, hu, (h.evaluate_spec hn limit depth).1.of_ok hu, hstore⟩

/-- A statement keeps the number of slots and faults only by the program's own doing. -/
theorem runRange_spec (h : s.Sound) {n : GraphNode} (hn : n ∈ s.graph.nodes) (limit depth : Nat)
    {m : Machine} (hm : s.globalCount ≤ m.memory.globalCount) :
    match (runRange s.executable limit depth ⟨0, n.start, n.stop, []⟩).run m with
    | .ok _ m' => m'.memory.globalCount = m.memory.globalCount
    | .error fault m' =>
      m'.memory.globalCount = m.memory.globalCount ∧ fault.isProgramFault = true := by
  obtain ⟨slot, σ, e, hassigns⟩ := h.statements n hn
  obtain ⟨hquiet, hsafe⟩ := h.evaluate_spec hassigns limit depth
  rw [runRange_eq, runFrame_assigns hassigns, EStateM.run_bind]
  cases hv : (evaluate s.executable (enterWithin s.executable limit depth) σ [] e).run m with
  | error fault m' => exact ⟨(hquiet.of_error hv).globalCount, hsafe m hm fault m' hv⟩
  | ok v m' =>
    have hcount := (hquiet.of_ok hv).globalCount
    have hslot : slot < m'.memory.globals.size := by
      have := hassigns.allocated
      simp only [Memory.globalCount] at hcount hm
      omega
    have hcurrent : m'.memory.global? slot = some m'.memory.globals[slot] :=
      Array.getElem?_eq_getElem hslot
    simp only [EStateM.run_bind, run_storeValue hcurrent]
    by_cases hsame : m'.memory.heap.same m'.memory.globals[slot] v
    · simp only [hsame, if_true, EStateM.run_pure, hcount]
    · simpa only [hsame, Bool.false_eq_true, if_false, EStateM.run_pure, Memory.globalCount,
        Array.size_setIfInBounds] using hcount

theorem propagate_spec (h : s.Sound) {ctx : RunContext} (hblock : ctx.block = 0) (fuel : Nat)
    (p : Propagation) (hp : s.globalCount ≤ p.memory.globalCount) :
    (propagate s.executable ctx s.graph fuel p).2.globalCount = p.memory.globalCount ∧
      ∀ fault, (propagate s.executable ctx s.graph fuel p).1 = .error fault →
        fault.isProgramFault = true := by
  induction fuel generalizing p with
  | zero =>
    unfold propagate
    split
    · exact ⟨rfl, fun _ he => by cases he⟩
    · refine ⟨rfl, fun _ he => ?_⟩
      cases he
      rfl
  | succ fuel ih =>
    unfold propagate
    split
    · exact ⟨rfl, fun _ he => by cases he⟩
    · rename_i id rest hdue
      split
      · refine ⟨rfl, fun _ he => ?_⟩
        cases he
        rfl
      · split
        · exact ⟨rfl, fun _ he => by cases he⟩
        · rename_i n hn
          have hrun := h.runRange_spec (h.graph.node?_eq_some.1 hn).1 ctx.maxDepth ctx.maxDepth
            (m := { memory := p.memory }) hp
          rw [hblock]
          split
          · rename_i v m hr
            rw [hr] at hrun
            obtain ⟨hcount, hfault⟩ := ih (p.advance s.graph ctx id rest m)
              (Nat.le_trans hp (Nat.le_of_eq hrun.symm))
            exact ⟨hcount.trans hrun, hfault⟩
          · rename_i fault m hr
            rw [hr] at hrun
            refine ⟨hrun.1, fun _ he => ?_⟩
            cases he
            exact hrun.2

/-- A run of a sound program on a memory with the program's slots keeps the number of slots, and its
faults are update cycles and calls nested too deeply. -/
theorem execute_spec (h : s.Sound) {ctx : RunContext} (hblock : ctx.block = 0) {memory : Memory}
    (hm : s.globalCount ≤ memory.globalCount) :
    (execute s.executable memory ctx).2.globalCount = memory.globalCount ∧
      ∀ fault, (execute s.executable memory ctx).1 = .error fault →
        fault.isProgramFault = true := by
  unfold execute
  simp only [hblock, executable_stream?_zero]
  exact h.propagate_spec hblock _ { memory, worklist := initialWorklist s.root.stream ctx } hm

end CompileState.Sound

end Reflow
