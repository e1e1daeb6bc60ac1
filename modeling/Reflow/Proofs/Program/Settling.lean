import Reflow.Proofs.Graph.Worklist
import Reflow.Proofs.Program.Consistency
/-!
# Runs settle

A run evaluates the statements that wait, and a statement that changes its global makes those wait
that read it. All the while, every regular statement is consistent unless it or a copy of it waits, so
that at the end of the run, when no statement waits any more, all regular statements are consistent.

## Main definitions

* `CompileState.Steady`: every regular statement is consistent unless its slot awaits a value.
* `CompileState.KeptBy`: what every statement of a run keeps.

## Main results

* `Sound.run_statement`: what a statement does to the slots.
* `Sound.execute_invariant`: what every statement keeps holds at the end of a run.
* `Steady.advance`: one statement of a run.
* `Sound.execute_steady`: a whole run.
* `Sound.execute_unchanged`: a run of consistent statements changes nothing.
* `Sound.execute_global?`: a run changes no slot that no active statement assigns.
* `Sound.execute_null`: a run sets a slot to null if all active statements of the slot do so.
-/

namespace Reflow

namespace CompileState

/-- Some active statement that assigns the slot waits. -/
def Awaits (s : CompileState) (waiting : List Nat) (slot : Nat) : Prop :=
  ∃ m ∈ s.graph.nodes, m.isActive = true ∧ m.defines = some (.global slot) ∧ m.id ∈ waiting

/-- The slots of the memory stand for data with which every regular statement is consistent, except
for slots that await a value. -/
structure Steady (s : CompileState) (memory : Memory) (waiting : List Nat) (slots : List Datum) :
    Prop where
  shows : memory.Shows s.executable.pointerName? slots
  room : s.globalCount ≤ slots.length
  consistent : ∀ n slot σ e, s.Regular n slot σ e →
    s.Awaits waiting slot ∨ s.Consistent n slots slot σ e

theorem not_awaits_nil {s : CompileState} {slot : Nat} : ¬ s.Awaits [] slot := by
  rintro ⟨m, -, -, -, hmem⟩
  cases hmem

/-- With no statement waiting, all regular statements are consistent. -/
theorem Steady.settled {s : CompileState} {memory : Memory} {slots : List Datum}
    (h : s.Steady memory [] slots) {n : GraphNode} {slot : Nat} {σ : Naming} {e : Expr}
    (hn : s.Regular n slot σ e) : s.Consistent n slots slot σ e :=
  (h.consistent n slot σ e hn).resolve_left not_awaits_nil

namespace Sound

variable {s : CompileState} {n : GraphNode} {slots : List Datum}

/-- What a store does: if the slot held the same, nothing, and otherwise the slot holds the value. -/
theorem run_storeValue_ok {names : Nat → Option String} {m m' : Machine} {slot : Nat} {v : Value}
    {d stored : Datum} (hm : m.memory.Shows names slots) (hstored : slots[slot]? = some stored)
    (hd : m.memory.heap.Held names v d) (hr : (storeValue slot v).run m = .ok () m') :
    if stored.same d then m' = m
    else m'.memory.Shows names (slots.set slot d) ∧ m'.changed = m.changed ++ [slot] := by
  obtain ⟨current, hcurrent, hheld⟩ := hm.exists_global? hstored
  rw [run_storeValue hcurrent, hheld.same hd] at hr
  split
  · rename_i hsame
    rw [if_pos hsame] at hr
    cases hr
    rfl
  · rename_i hsame
    rw [if_neg hsame] at hr
    cases hr
    refine ⟨⟨hm.sound, ?_⟩, rfl⟩
    rw [Array.toList_setIfInBounds]
    exact hm.held.set hd slot

/-- A statement that has run has evaluated its expression. If the value was what its slot held, it has
changed nothing, and otherwise the slot holds the value. -/
theorem run_assigns_ok (h : s.Sound) {names : Nat → Option String} {slot : Nat} {σ : Naming} {e : Expr}
    (hn : s.Assigns n slot σ e) {m m' : Machine} (hm : m.memory.Shows names slots)
    (hroom : s.globalCount ≤ slots.length) {limit depth : Nat} {v : Value}
    (hr : (runRange s.executable limit depth ⟨0, n.start, n.stop, []⟩).run m = .ok v m') :
    ∃ u m₁ stored,
      (evaluate s.executable (enterWithin s.executable limit depth) σ [] e).run m = .ok u m₁ ∧
      slots[slot]? = some stored ∧ ∀ d, m₁.memory.heap.Held names u d →
        if stored.same d then m.Grows m' ∧ m'.memory.Shows names slots
        else m'.memory.Shows names (slots.set slot d) ∧ m'.changed = m.changed ++ [slot] := by
  obtain ⟨u, m₁, hu, hgrows, hstore⟩ := h.stored_of_run hn hr
  have hlt : slot < slots.length := Nat.lt_of_lt_of_le hn.allocated hroom
  have hstored : slots[slot]? = some slots[slot] := List.getElem?_eq_getElem hlt
  refine ⟨u, m₁, slots[slot], hu, hstored, fun d hheld => ?_⟩
  have heffect := run_storeValue_ok (hgrows.shows hm) hstored hheld hstore
  split
  · rename_i hsame
    rw [if_pos hsame] at heffect
    subst heffect
    exact ⟨hgrows, hgrows.shows hm⟩
  · rename_i hsame
    rw [if_neg hsame, hgrows.changed] at heffect
    exact heffect

/-- What a statement does: it evaluates its expression, and it changes nothing if the value is what
its slot holds, and its slot otherwise. -/
theorem run_statement (h : s.Sound) {slot : Nat} {σ : Naming} {e : Expr}
    (hn : s.Assigns n slot σ e) {m m' : Machine}
    (hm : m.memory.Shows s.executable.pointerName? slots) (hroom : s.globalCount ≤ slots.length)
    {limit depth : Nat} {v : Value}
    (hr : (runRange s.executable limit depth ⟨0, n.start, n.stop, []⟩).run m = .ok v m') :
    ∃ d stored,
      e.datum? (s.executable.surroundings (fun _ => True) slots depth) σ [] = some d ∧
      slots[slot]? = some stored ∧
      if stored.same d then m.Grows m' ∧ m'.memory.Shows s.executable.pointerName? slots
      else m'.memory.Shows s.executable.pointerName? (slots.set slot d) ∧
        m'.changed = m.changed ++ [slot] := by
  obtain ⟨u, m₁, stored, hu, hstored, heffect⟩ := h.run_assigns_ok hn hm hroom hr
  obtain ⟨d, hd, hheld⟩ := h.statement_datum? hn hm hu
  exact ⟨d, stored, hd, hstored, heffect d hheld⟩

/-- A regular statement is consistent once its value has been stored. -/
theorem consistent_set (h : s.Sound) {slot : Nat} {σ : Naming} {e : Expr}
    (hn : s.Regular n slot σ e) (hroom : s.globalCount ≤ slots.length)
    (hover : Datum.OverAll (fun q name => s.executable.pointerName? q = some name) slots) {depth : Nat}
    {d : Datum}
    (hd : e.datum? (s.executable.surroundings (fun _ => True) slots depth) σ [] = some d) :
    s.Consistent n (slots.set slot d) slot σ e := by
  intro depth' d' hd'
  -- the statement does not read its own slot, so the store does not change its value
  have hslots : ∀ k < s.globalCount, s.graph.Reaches n.uses (.symbol (.global k)) →
      (slots.set slot d)[k]? = slots[k]? := fun k _ hk => by
    refine List.getElem?_set_ne ?_
    rintro rfl
    exact hn.acyclic hk
  have htransfers := h.transfers (.refl s) (fun p _ => .refl s p) hover hslots
  have hlt : slot < slots.length := Nat.lt_of_lt_of_le hn.assigns.allocated hroom
  obtain rfl : d = d' := Executable.datum?_unique hd
    (htransfers.datum? (Nat.le_refl depth') (by trivial) hn.assigns.touches hd')
  exact ⟨d, List.getElem?_set_self hlt, d.same_self⟩

/-- A regular statement is consistent after a run of any of its copies. -/
theorem consistent_run (h : s.Sound) {k : GraphNode} {slot : Nat}
    {σ : Naming} {e : Expr} (hk : s.Regular k slot σ e) (hn : s.Assigns n slot σ e)
    {m m' : Machine} (hm : m.memory.Shows s.executable.pointerName? slots)
    (hroom : s.globalCount ≤ slots.length) {limit depth : Nat} {v : Value}
    (hr : (runRange s.executable limit depth ⟨0, n.start, n.stop, []⟩).run m = .ok v m')
    {slots' : List Datum} (hm' : m'.memory.Shows s.executable.pointerName? slots') :
    s.Consistent k slots' slot σ e := by
  obtain ⟨d, stored, hd, hstored, heffect⟩ := h.run_statement hn hm hroom hr
  by_cases hsame : stored.same d = true
  · rw [if_pos hsame] at heffect
    obtain rfl : slots' = slots := hm'.held.unique heffect.2.held
    intro depth' d' hd'
    obtain rfl : d = d' := Executable.datum?_unique hd hd'
    exact ⟨stored, hstored, hsame⟩
  · rw [if_neg hsame] at heffect
    obtain rfl : slots' = slots.set slot d := hm'.held.unique heffect.1.held
    exact h.consistent_set hk hroom hm.held.over hd

/-- A consistent statement that reads a slot neither itself nor through functions, and that does not
assign it, stays consistent when the slot changes. -/
theorem consistent_set_of_ne (h : s.Sound) {slot changed : Nat} {σ : Naming} {e : Expr}
    (hn : s.Assigns n slot σ e) (hne : slot ≠ changed) {d : Datum}
    (hover : Datum.OverAll (fun q name => s.executable.pointerName? q = some name) slots)
    (hc : s.Consistent n slots slot σ e)
    (hreads : ¬ s.graph.Reaches n.uses (.symbol (.global changed))) :
    s.Consistent n (slots.set changed d) slot σ e := by
  refine hc.transfer hn h (.refl s) (fun p _ => .refl s p) hover fun j _ hj =>
    List.getElem?_set_ne ?_
  rintro rfl
  rcases hj with hj | hj
  · exact hreads hj
  · exact hne hj.symm

end Sound

/-! ### Whole runs -/

section Run

variable {s : CompileState} {ctx : RunContext} {slots : List Datum}

/-- The first statement that is due is an active one on record. -/
theorem mem_of_due (h : s.Sound) {p : Propagation} {id : Nat} {rest : List Nat}
    (hdue : p.due s.graph = id :: rest) :
    ∃ n ∈ s.graph.nodes, n.id = id ∧ n.isActive = true :=
  h.graph.isActive_iff.1 (Propagation.isActive_of_due hdue)

/-- When no statement is due, no slot awaits a value. -/
theorem not_awaits_of_due (h : s.Sound) {p : Propagation} (hdue : p.due s.graph = []) {slot : Nat} :
    ¬ s.Awaits p.worklist slot := by
  rintro ⟨n, hn, hon, -, hmem⟩
  have hmem := Propagation.mem_due ((h.graph.isActive_of_mem hn).trans hon) hmem
  rw [hdue] at hmem
  cases hmem

/-- A slot that awaits a value awaits it still when a statement of another slot is taken. -/
theorem Awaits.of_due (h : s.Sound) {p : Propagation} {n : GraphNode} {rest : List Nat}
    (hn : n ∈ s.graph.nodes) (hdue : p.due s.graph = n.id :: rest) {own slot : Nat}
    (hdefines : n.defines = some (.global own)) (hne : slot ≠ own)
    (hwait : s.Awaits p.worklist slot) : s.Awaits rest slot := by
  obtain ⟨k, hk, hon, hkey, hmem⟩ := hwait
  have hmem := Propagation.mem_due ((h.graph.isActive_of_mem hk).trans hon) hmem
  rw [hdue] at hmem
  refine ⟨k, hk, hon, hkey, (List.mem_cons.1 hmem).resolve_left fun hid => hne ?_⟩
  obtain rfl := Keyed.eq_of_key_eq h.graph.nodes hk hn hid
  simpa [SymbolKey.global] using hkey.symm.trans hdefines

/-- When a statement has changed its slot, a regular statement of another slot is still consistent or
its slot awaits a value. -/
theorem Steady.changed (h : s.Sound) (hblock : ctx.block = 0) {p : Propagation}
    (hp : s.Steady p.memory p.worklist slots) {n : GraphNode} {rest : List Nat}
    (hn : n ∈ s.graph.nodes) (hdue : p.due s.graph = n.id :: rest) {own : Nat} {σ : Naming} {e : Expr}
    (hassigns : s.Assigns n own σ e) {m : Machine} (hchanged : m.changed = [own]) (d : Datum)
    {k : GraphNode} {slot : Nat} {σ' : Naming} {e' : Expr} (hk : s.Regular k slot σ' e')
    (hne : slot ≠ own) :
    s.Awaits (p.advance s.graph ctx n.id rest m).worklist slot ∨
      s.Consistent k (slots.set own d) slot σ' e' := by
  rcases hp.consistent k slot σ' e' hk with hwait | hc
  · obtain ⟨j, hj, hjon, hdefines, hmem⟩ := hwait.of_due h hn hdue hassigns.defines hne
    exact .inl ⟨j, hj, hjon, hdefines, Propagation.mem_worklist_advance.2 (.inl hmem)⟩
  by_cases hreads : s.graph.Reaches k.uses (.symbol (.global own))
  · have hreader := h.graph.mem_readersOf hk.mem hk.active hreads
    have hid : k.id ≠ n.id := by
      intro hid
      obtain rfl := Keyed.eq_of_key_eq h.graph.nodes hk.mem hn hid
      exact hne (hk.assigns.code_eq hassigns).1.symm
    refine .inl ⟨k, hk.mem, hk.active, hk.assigns.defines,
      Propagation.mem_worklist_advance.2 (.inr ⟨hid, own, ?_, ?_⟩)⟩
    · rw [hchanged]
      exact List.mem_singleton_self own
    · rw [hblock]
      exact hreader
  · exact .inr (h.consistent_set_of_ne hk.assigns hne hp.shows.held.over hc hreads)

/-- When a statement has run, every regular statement is still consistent or its slot awaits a
value. -/
theorem Steady.advance (h : s.Sound) (hblock : ctx.block = 0)
    {p : Propagation} (hp : s.Steady p.memory p.worklist slots) {n : GraphNode} {rest : List Nat}
    (hn : n ∈ s.graph.nodes) (hon : n.isActive = true) (hdue : p.due s.graph = n.id :: rest)
    {m : Machine} {v : Value} (hr : (runRange s.executable ctx.maxDepth ctx.maxDepth
      ⟨0, n.start, n.stop, []⟩).run { memory := p.memory } = .ok v m) :
    ∃ slots', s.Steady m.memory (p.advance s.graph ctx n.id rest m).worklist slots' := by
  obtain ⟨own, σ, e, hassigns⟩ := h.statements n hn
  obtain ⟨d, stored, hd, hstored, heffect⟩ := h.run_statement hassigns hp.shows hp.room hr
  -- whatever assigns the same slot is a copy, so that the run has given it its value
  have hown : ∀ {k σ' e' slots'}, s.Regular k own σ' e' →
      m.memory.Shows s.executable.pointerName? slots' → s.Consistent k slots' own σ' e' :=
    fun hk hshows => h.consistent_run hk
      (hk.copies n hn hon (hassigns.defines.trans hk.assigns.defines.symm)) hp.shows hp.room hr hshows
  by_cases hsame : stored.same d = true
  · rw [if_pos hsame] at heffect
    refine ⟨slots, heffect.2, hp.room, fun k slot σ' e' hk => ?_⟩
    by_cases hslot : slot = own
    · subst hslot
      exact .inr (hown hk heffect.2)
    · rw [Propagation.advance, heffect.1.changed]
      exact (hp.consistent k slot σ' e' hk).imp_left
        (Awaits.of_due h hn hdue hassigns.defines hslot)
  · rw [if_neg hsame] at heffect
    refine ⟨slots.set own d, heffect.1, by rw [List.length_set]; exact hp.room,
      fun k slot σ' e' hk => ?_⟩
    by_cases hslot : slot = own
    · subst hslot
      exact .inr (hown hk heffect.1)
    · exact hp.changed h hblock hn hdue hassigns heffect.2 d hk hslot

/-- With no active statement waiting, all regular statements are consistent. -/
theorem Steady.done (h : s.Sound) {p : Propagation} (hp : s.Steady p.memory p.worklist slots)
    (hdue : p.due s.graph = []) : s.Steady p.memory [] slots :=
  ⟨hp.shows, hp.room, fun n slot σ e hn =>
    .inr ((hp.consistent n slot σ e hn).resolve_left (not_awaits_of_due h hdue))⟩

/-- What is said of the memory and of the statements that wait is kept by every statement that runs. -/
def KeptBy (s : CompileState) (ctx : RunContext) (I : Memory → List Nat → Prop) : Prop :=
  ∀ (p : Propagation) (n : GraphNode) (rest : List Nat) (m : Machine) (v : Value),
    I p.memory p.worklist → n ∈ s.graph.nodes → n.isActive = true → p.due s.graph = n.id :: rest →
    (runRange s.executable ctx.maxDepth ctx.maxDepth ⟨0, n.start, n.stop, []⟩).run
      { memory := p.memory } = .ok v m →
    I m.memory (p.advance s.graph ctx n.id rest m).worklist

/-- What holds at the start of a run and is kept by every statement holds at its end, when no active
statement waits. -/
theorem Sound.propagate_invariant (h : s.Sound) (hblock : ctx.block = 0)
    {I : Memory → List Nat → Prop} (hstep : s.KeptBy ctx I)
    (fuel : Nat) {p : Propagation} (hp : I p.memory p.worklist) {run : Execution} {memory : Memory}
    (hr : propagate s.executable ctx s.graph fuel p = (.ok run, memory)) :
    ∃ q : Propagation, q.due s.graph = [] ∧ q.memory = memory ∧ I q.memory q.worklist := by
  induction fuel generalizing p with
  | zero =>
    unfold propagate at hr
    split at hr
    · rename_i hdue
      cases hr
      exact ⟨p, hdue, rfl, hp⟩
    · cases hr
  | succ fuel ih =>
    unfold propagate at hr
    split at hr
    · rename_i hdue
      cases hr
      exact ⟨p, hdue, rfl, hp⟩
    · rename_i id rest hdue
      obtain ⟨n, hn, rfl, hon⟩ := mem_of_due h hdue
      rw [h.graph.node?_eq_some.2 ⟨hn, rfl⟩] at hr
      split at hr
      · cases hr
      · dsimp only at hr
        split at hr
        · rename_i hrun
          rw [hblock] at hrun
          exact ih (hstep p n rest _ _ hp hn hon hdue hrun) hr
        · cases hr

theorem Sound.execute_invariant (h : s.Sound) (hblock : ctx.block = 0)
    {I : Memory → List Nat → Prop} (hstep : s.KeptBy ctx I)
    {memory memory' : Memory} (hp : I memory (initialWorklist s.root.stream ctx)) {run : Execution}
    (hr : execute s.executable memory ctx = (.ok run, memory')) :
    ∃ q : Propagation, q.due s.graph = [] ∧ q.memory = memory' ∧ I q.memory q.worklist := by
  unfold execute at hr
  rw [hblock, executable_stream?_zero] at hr
  exact h.propagate_invariant hblock hstep _ (p := { memory, worklist := _ }) hp hr

/-- A run that starts steady ends with all regular statements consistent. -/
theorem Sound.execute_steady (h : s.Sound) (hblock : ctx.block = 0)
    {memory memory' : Memory} (hp : s.Steady memory (initialWorklist s.root.stream ctx) slots)
    {run : Execution} (hr : execute s.executable memory ctx = (.ok run, memory')) :
    ∃ slots', s.Steady memory' [] slots' := by
  obtain ⟨q, hdue, rfl, slots', hq⟩ := h.execute_invariant hblock
    (I := fun memory waiting => ∃ slots, s.Steady memory waiting slots)
    (fun p n rest m v ⟨slots, hp⟩ hn hon hdue hrun => hp.advance h hblock hn hon hdue hrun)
    ⟨slots, hp⟩ hr
  exact ⟨slots', hq.done h hdue⟩

/-- A statement that is consistent changes nothing when it runs. -/
theorem Sound.run_consistent (h : s.Sound) (hx : s.executable.Direct) {n : GraphNode} {slot : Nat}
    {σ : Naming} {e : Expr} (hn : s.Assigns n slot σ e) (hc : s.Consistent n slots slot σ e)
    {m m' : Machine} (hm : m.memory.Shows s.executable.pointerName? slots)
    (hroom : s.globalCount ≤ slots.length) {limit depth : Nat} {v : Value}
    (hr : (runRange s.executable limit depth ⟨0, n.start, n.stop, []⟩).run m = .ok v m') :
    m.Grows m' ∧ m'.memory.Shows s.executable.pointerName? slots := by
  obtain ⟨d, stored, hd, hstored, heffect⟩ := h.run_statement hn hm hroom hr
  obtain ⟨stored', hstored', hsame⟩ := hc depth d (h.datum?_of_direct hx hn (s.Uses n) hd)
  obtain rfl : stored = stored' := Option.some.inj (hstored.symm.trans hstored')
  rwa [if_pos hsame] at heffect

/-- A run of consistent statements changes nothing. -/
theorem Sound.execute_unchanged (h : s.Sound) (hx : s.executable.Direct) (hblock : ctx.block = 0)
    (hroom : s.globalCount ≤ slots.length)
    (hall : ∀ n ∈ s.graph.nodes, n.isActive = true → ∃ slot σ e, s.Assigns n slot σ e ∧
      s.Consistent n slots slot σ e) {memory memory' : Memory}
    (hm : memory.Shows s.executable.pointerName? slots) {run : Execution}
    (hr : execute s.executable memory ctx = (.ok run, memory')) :
    memory'.modified = memory.modified := by
  obtain ⟨q, -, rfl, -, hmodified⟩ := h.execute_invariant hblock
    (I := fun memory' _ => memory'.Shows s.executable.pointerName? slots ∧
      memory'.modified = memory.modified)
    (fun p n rest m v ⟨hp, hmodified⟩ hn hon _ hrun => by
      obtain ⟨slot, σ, e, hassigns, hc⟩ := hall n hn hon
      obtain ⟨hgrows, hshows⟩ := h.run_consistent hx hassigns hc hp hroom hrun
      exact ⟨hshows, hgrows.modified.trans hmodified⟩) ⟨hm, rfl⟩ hr
  exact hmodified

/-! ### What a run leaves alone -/

theorem run_storeValue_global? {slot k : Nat} (hk : k ≠ slot) {v : Value} {m m' : Machine}
    (hr : (storeValue slot v).run m = .ok () m') : m'.memory.global? k = m.memory.global? k := by
  obtain ⟨current, hcurrent⟩ := allocated_of_storeValue hr
  rw [run_storeValue hcurrent] at hr
  split at hr <;> cases hr
  · rfl
  · exact Array.getElem?_setIfInBounds_ne (Ne.symm hk)

/-- A statement changes no slot but its own. -/
theorem Sound.run_global? (h : s.Sound) {n : GraphNode} {slot k : Nat} {σ : Naming} {e : Expr}
    (hn : s.Assigns n slot σ e) (hk : k ≠ slot) {limit depth : Nat} {v : Value} {m m' : Machine}
    (hr : (runRange s.executable limit depth ⟨0, n.start, n.stop, []⟩).run m = .ok v m') :
    m'.memory.global? k = m.memory.global? k := by
  obtain ⟨u, m₁, -, hgrows, hstore⟩ := h.stored_of_run hn hr
  rw [run_storeValue_global? hk hstore]
  exact congrArg (·[k]?) hgrows.globals

/-- A run changes no slot that no active statement assigns. -/
theorem Sound.execute_global? (h : s.Sound) (hblock : ctx.block = 0) {memory memory' : Memory}
    {run : Execution} (hr : execute s.executable memory ctx = (.ok run, memory')) {k : Nat}
    (hk : ∀ n ∈ s.graph.nodes, n.isActive = true → n.defines ≠ some (.global k)) :
    memory'.global? k = memory.global? k := by
  obtain ⟨q, -, rfl, hq⟩ := h.execute_invariant hblock
    (I := fun memory' _ => memory'.global? k = memory.global? k)
    (fun p n rest m v hp hn hon _ hrun => by
      obtain ⟨slot, σ, e, hassigns⟩ := h.statements n hn
      refine (h.run_global? hassigns ?_ hrun).trans hp
      rintro rfl
      exact hk n hn hon hassigns.defines) rfl hr
  exact hq

/-- Storing null leaves null. -/
theorem run_storeValue_null {slot : Nat} {m m' : Machine}
    (hr : (storeValue slot .null).run m = .ok () m') : m'.memory.global? slot = some .null := by
  obtain ⟨current, hcurrent⟩ := allocated_of_storeValue hr
  rw [run_storeValue hcurrent] at hr
  split at hr <;> cases hr
  · rename_i hsame
    cases current with
    | null => exact hcurrent
    | _ => simp [Heap.same, Heap.sameWithin] at hsame
  · have hlt : slot < m.memory.globals.size := (Array.getElem?_eq_some_iff.1 hcurrent).1
    exact Array.getElem?_setIfInBounds_self_of_lt hlt

/-- If all active statements of a slot set it to null, then it holds null after a run, provided that it did
so before or that one of them waited. -/
theorem Sound.execute_null (h : s.Sound) (hblock : ctx.block = 0) {memory memory' : Memory}
    {run : Execution} (hr : execute s.executable memory ctx = (.ok run, memory')) {k : Nat}
    (hk : ∀ n ∈ s.graph.nodes, n.isActive = true → n.defines = some (.global k) →
      ∃ σ, s.Assigns n k σ .null)
    (hstart : memory.global? k = some .null ∨ s.Awaits (initialWorklist s.root.stream ctx) k) :
    memory'.global? k = some .null := by
  obtain ⟨q, hdue, rfl, hq⟩ := h.execute_invariant hblock
    (I := fun memory waiting => memory.global? k = some .null ∨ s.Awaits waiting k)
    (fun p n rest m v hp hn hon hdue hrun => by
      obtain ⟨slot, σ, e, hassigns⟩ := h.statements n hn
      by_cases hslot : slot = k
      · subst hslot
        obtain ⟨σ, hnull⟩ := hk n hn hon hassigns.defines
        rw [runRange_eq, runFrame_assigns hnull, evaluate, pure_bind] at hrun
        obtain ⟨_, m', hstore, hrun⟩ := run_bind_ok hrun
        cases hrun
        exact .inl (run_storeValue_null hstore)
      · refine hp.imp (fun hp => (h.run_global? hassigns (Ne.symm hslot) hrun).trans hp) fun hp => ?_
        obtain ⟨j, hj, hjon, hdefines, hmem⟩ :=
          hp.of_due h hn hdue hassigns.defines (Ne.symm hslot)
        exact ⟨j, hj, hjon, hdefines, Propagation.mem_worklist_advance.2 (.inl hmem)⟩) hstart hr
  exact hq.resolve_right (not_awaits_of_due h hdue)

end Run

end CompileState

end Reflow
