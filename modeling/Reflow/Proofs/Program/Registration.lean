import Reflow.Compile.Fragment
import Reflow.Proofs.Code.Naming
import Reflow.Proofs.Graph.Readers
/-!
# Registering names

Emitting code declares globals, reserves procedures and hands out function pointers; it appends to the
tables of the program and touches nothing else. Whatever the emitted code refers to is then in the
tables, and it is on the emission's record of what the code reads and calls.

## Main definitions

* `CompileState.Tabled`: the tables are numbered in order, and each slot belongs to a symbol.
* `CompileState.Registers`: a later state with more entries in its tables.
* `Instruction.Within`: what an instruction refers to is in the tables and on record.

## Main results

* `respected_grows`: emitting code only registers names and notes uses.
* `covers_emit`: what emitted code refers to is in the tables and on record.
-/

namespace Reflow

namespace CompileState

/-- Entries of the tables have the numbers of their places, every global slot belongs to a symbol of
its own name, and every function pointer leads to a top-level procedure. -/
structure Tabled (s : CompileState) : Prop where
  slots : s.root.globalSize = s.root.symbols.symbols.length
  symbols : ∀ (i : Nat) (symbol : Symbol), s.root.symbols.symbols[i]? = some symbol →
    symbol.index = i
  procedures : ∀ (i : Nat) (p : Procedure), s.root.procedures.procedures[i]? = some p →
    p.index = i
  targets : ∀ target ∈ s.pointers.targets,
    ∃ p < s.root.procedures.procedures.length, target = (0, p)
  names : (s.root.symbols.symbols.map Symbol.name).Nodup
  /-- No block encloses the top-level one. -/
  parent : s.root.parent = none

/-- In a list whose elements bear the numbers of their places, the number of what is found is its place. -/
theorem findIdx?_eq_map_find? {α : Type} {l : List α} {number : α → Nat} {found : α → Bool}
    (h : ∀ i a, l[i]? = some a → number a = i) : l.findIdx? found = (l.find? found).map number := by
  cases ha : l.find? found with
  | none => exact List.findIdx?_eq_none_iff.2 fun a hmem =>
      Bool.eq_false_iff.2 (List.find?_eq_none.1 ha a hmem)
  | some a =>
    obtain ⟨hfound, i, hlt, hat, hfirst⟩ := List.find?_eq_some_iff_getElem.1 ha
    have hnumber := h i a (List.getElem?_eq_some_iff.2 ⟨hlt, hat⟩)
    rw [Option.map_some, hnumber, List.findIdx?_eq_some_iff_getElem]
    exact ⟨hlt, hat ▸ hfound, fun j hj => by simpa using hfirst j hj⟩

/-- The number of a procedure is its place. -/
theorem Tabled.procedureIndex_eq {s : CompileState} (h : s.Tabled) (name : String) :
    s.root.procedures.indexOf? name = (s.root.procedures.get? name).map (·.index) :=
  findIdx?_eq_map_find? h.procedures

/-- The slot of a name is the number of its symbol. -/
theorem Tabled.indexOf?_eq {s : CompileState} (h : s.Tabled) {name : String} :
    s.root.symbols.indexOf? name = (s.root.symbols.get? name).map (·.index) :=
  findIdx?_eq_map_find? h.symbols

/-- `t` is `s` with more globals, more procedures that are only reserved and more function
pointers. -/
structure Registers (s t : CompileState) : Prop where
  stream : t.root.stream = s.root.stream
  bodies : t.bodies = s.bodies
  nextExpr : t.nextExpr = s.nextExpr
  symbols : s.root.symbols.symbols <+: t.root.symbols.symbols
  procedures : s.root.procedures.procedures <+: t.root.procedures.procedures
  reserved : ∀ p ∈ t.root.procedures.procedures,
    p ∈ s.root.procedures.procedures ∨ p.isActive = false
  pointers : s.pointers.targets <+: t.pointers.targets
  tabled : s.Tabled → t.Tabled

namespace Registers

@[refl] theorem refl (s : CompileState) : s.Registers s :=
  ⟨rfl, rfl, rfl, List.prefix_refl _, List.prefix_refl _, fun _ h => .inl h, List.prefix_refl _, id⟩

theorem trans {s t u : CompileState} (h : s.Registers t) (k : t.Registers u) : s.Registers u where
  stream := k.stream.trans h.stream
  bodies := k.bodies.trans h.bodies
  nextExpr := k.nextExpr.trans h.nextExpr
  symbols := h.symbols.trans k.symbols
  procedures := h.procedures.trans k.procedures
  reserved p hp := (k.reserved p hp).elim (h.reserved p) .inr
  pointers := h.pointers.trans k.pointers
  tabled ht := k.tabled (h.tabled ht)

theorem graph {s t : CompileState} (h : s.Registers t) : t.graph = s.graph :=
  congrArg Stream.graph h.stream

/-- Procedures that are only reserved are not active. -/
theorem mem_of_active {s t : CompileState} (h : s.Registers t) {p : Procedure}
    (hp : p ∈ t.root.procedures.procedures) (hon : p.isActive = true) :
    p ∈ s.root.procedures.procedures :=
  (h.reserved p hp).resolve_right fun hoff => Bool.false_ne_true (hoff.symm.trans hon)

end Registers

theorem getElem?_concat {α : Type} {l : List α} {a b : α} {i : Nat}
    (h : (l ++ [a])[i]? = some b) : l[i]? = some b ∨ i = l.length ∧ b = a := by
  rw [List.getElem?_append] at h
  split at h
  · exact .inl h
  · rename_i hi
    rw [List.getElem?_singleton] at h
    split at h
    · cases h
      exact .inr ⟨by omega, rfl⟩
    · cases h

theorem registers_declare (s : CompileState) (name : String) :
    s.Registers (s.declare name).2 := by
  unfold declare
  cases hi : s.root.symbols.indexOf? name with
  | some slot => rfl
  | none =>
    simp only [SymbolTable.insert, hi]
    refine ⟨rfl, rfl, rfl, List.prefix_append _ _, List.prefix_refl _, fun _ h => .inl h,
      List.prefix_refl _, fun ht => ⟨?_, ?_, ht.procedures, ht.targets, ?_, ht.parent⟩⟩
    · simp [ht.slots, SymbolTable.size]
    · intro i symbol hsymbol
      obtain hold | ⟨rfl, rfl⟩ := getElem?_concat hsymbol
      · exact ht.symbols i symbol hold
      · rfl
    · have hnew : name ∉ s.root.symbols.symbols.map Symbol.name := by
        simpa [SymbolTable.indexOf?] using hi
      rw [List.map_append, List.map_singleton, List.nodup_append]
      refine ⟨ht.names, by simp, fun a ha b hb hab => hnew ?_⟩
      obtain rfl : a = name := hab.trans (List.mem_singleton.1 hb)
      exact ha

theorem registers_reserve (s : CompileState) (name : String) :
    s.Registers (s.reserve name).2 := by
  unfold reserve ProcedureTable.reserve
  cases hi : s.root.procedures.indexOf? name with
  | some index => rfl
  | none =>
    refine ⟨rfl, rfl, rfl, List.prefix_refl _, List.prefix_append _ _, fun p hp => ?_,
      List.prefix_refl _, fun ht => ⟨ht.slots, ht.symbols, ?_, fun target htarget => ?_, ht.names,
        ht.parent⟩⟩
    · rcases List.mem_append.1 hp with hp | hp
      · exact .inl hp
      · obtain rfl := List.mem_singleton.1 hp
        exact .inr rfl
    · intro i p hp
      obtain hold | ⟨rfl, rfl⟩ := getElem?_concat hp
      · exact ht.procedures i p hold
      · rfl
    · obtain ⟨p, hp, rfl⟩ := ht.targets target htarget
      exact ⟨p, by simp only [List.length_append]; omega, rfl⟩

/-- A procedure is given a function pointer. -/
theorem registers_pointerTo (s : CompileState) {p : Nat}
    (hp : p < s.root.procedures.procedures.length) :
    s.Registers { s with pointers := (s.pointers.pointerTo 0 p).2 } := by
  unfold FunctionPointers.pointerTo
  cases hi : s.pointers.targets.findIdx? (· == (0, p)) with
  | some k => rfl
  | none =>
    refine ⟨rfl, rfl, rfl, List.prefix_refl _, List.prefix_refl _, fun _ h => .inl h,
      List.prefix_append _ _, fun ht => ⟨ht.slots, ht.symbols, ht.procedures, fun target h => ?_,
        ht.names, ht.parent⟩⟩
    rcases List.mem_append.1 h with h | h
    · exact ht.targets target h
    · exact ⟨p, hp, List.mem_singleton.1 h⟩

end CompileState

/-! ### Emitting only registers names -/

theorem ProcedureTable.lt_of_indexOf? {t : ProcedureTable} {name : String} {p : Nat}
    (h : t.indexOf? name = some p) : p < t.procedures.length := by
  obtain ⟨hlt, -⟩ := List.findIdx?_eq_some_iff_getElem.1 h
  exact hlt

/-- At the first place of a name is the procedure of the name. -/
theorem ProcedureTable.exists_of_indexOf? {t : ProcedureTable} {name : String} {p : Nat}
    (h : t.indexOf? name = some p) :
    ∃ q, t.procedures[p]? = some q ∧ t.get? name = some q ∧ q.name = name := by
  obtain ⟨hlt, hname, hfirst⟩ := List.findIdx?_eq_some_iff_getElem.1 h
  refine ⟨_, List.getElem?_eq_getElem hlt, ?_, eq_of_beq hname⟩
  exact List.find?_eq_some_iff_getElem.2 ⟨hname, _, hlt, rfl, fun j hj => by simpa using hfirst j hj⟩

theorem SymbolTable.lt_of_indexOf? {t : SymbolTable} {name : String} {slot : Nat}
    (h : t.indexOf? name = some slot) : slot < t.symbols.length := by
  obtain ⟨hlt, -⟩ := List.findIdx?_eq_some_iff_getElem.1 h
  exact hlt

namespace Emission

/-- What the code emitted so far uses. -/
def uses (m : Emission) : List Vertex :=
  m.reads.map (fun slot => .symbol (.global slot)) ++ m.calls.map .procedure

/-- `m'` has registered more names than `m` and has noted more uses. -/
structure Grows (m m' : Emission) : Prop where
  state : m.state.Registers m'.state
  reads : m.reads ⊆ m'.reads
  calls : m.calls ⊆ m'.calls

namespace Grows

@[refl] theorem refl (m : Emission) : m.Grows m := ⟨.refl _, List.Subset.refl _, List.Subset.refl _⟩

theorem trans {m m' m'' : Emission} (h : m.Grows m') (k : m'.Grows m'') : m.Grows m'' :=
  ⟨h.state.trans k.state, List.Subset.trans h.reads k.reads, List.Subset.trans h.calls k.calls⟩

theorem uses {m m' : Emission} (h : m.Grows m') : m.uses ⊆ m'.uses := by
  intro v hv
  rcases List.mem_append.1 hv with hv | hv
  · exact List.mem_append_left _ (List.map_subset _ h.reads hv)
  · exact List.mem_append_right _ (List.map_subset _ h.calls hv)

end Grows

theorem mem_read {m : Emission} {slot k : Nat} : k ∈ (m.read slot).reads ↔ k = slot ∨ k ∈ m.reads :=
  Ascending.mem_insert

theorem mem_use {m : Emission} {p q : Nat} : q ∈ (m.use p).calls ↔ q = p ∨ q ∈ m.calls :=
  Ascending.mem_insert

theorem grows_read (m : Emission) (slot : Nat) : m.Grows (m.read slot) :=
  ⟨.refl _, fun _ h => mem_read.2 (.inr h), List.Subset.refl _⟩

theorem grows_use (m : Emission) (p : Nat) : m.Grows (m.use p) :=
  ⟨.refl _, List.Subset.refl _, fun _ h => mem_use.2 (.inr h)⟩

/-- Another state with more names registered. -/
theorem grows_state {m : Emission} {s : CompileState} (h : m.state.Registers s) :
    m.Grows { m with state := s } := ⟨h, List.Subset.refl _, List.Subset.refl _⟩

end Emission

theorem grows_emitName (scope : Scope) (name : String) (m : Emission) :
    m.Grows (emitName scope name m).2 := by
  unfold emitName
  split
  · rfl
  · split
    · rename_i p hp
      have hregisters := m.state.registers_pointerTo (ProcedureTable.lt_of_indexOf? hp)
      exact (Emission.grows_state hregisters).trans (Emission.grows_use _ p)
    · split
      · exact m.grows_read _
      · have hd := m.state.registers_declare name
        refine .trans (Emission.grows_state (s := { (m.state.declare name).2 with
          dynamicVariables := _ }) ?_) (Emission.grows_read _ _)
        exact ⟨hd.stream, hd.bodies, hd.nextExpr, hd.symbols, hd.procedures, hd.reserved,
          hd.pointers, fun ht => ⟨(hd.tabled ht).slots, (hd.tabled ht).symbols,
            (hd.tabled ht).procedures, (hd.tabled ht).targets, (hd.tabled ht).names,
            (hd.tabled ht).parent⟩⟩

theorem grows_resolveCallee (scope : Scope) (name : String) (argc : Nat) (m : Emission) :
    m.Grows (resolveCallee scope name argc m).2 := by
  unfold resolveCallee
  split
  · rfl
  · split
    · exact m.grows_read _
    · have hr := m.state.registers_reserve name
      dsimp only
      split
      · split <;> exact ⟨hr, List.Subset.refl _, List.Subset.refl _⟩
      · split
        · exact ⟨hr, List.Subset.refl _, List.Subset.refl _⟩
        · refine ⟨⟨hr.stream, hr.bodies, hr.nextExpr, hr.symbols, hr.procedures, hr.reserved,
            hr.pointers, fun ht => ⟨(hr.tabled ht).slots, (hr.tabled ht).symbols,
              (hr.tabled ht).procedures, (hr.tabled ht).targets, (hr.tabled ht).names,
              (hr.tabled ht).parent⟩⟩,
            List.Subset.refl _, List.Subset.refl _⟩

/-- Emitting only registers names and notes uses. -/
theorem respected_grows (scope : Scope) : Respected scope Emission.Grows where
  refl := .refl
  trans := .trans
  name := grows_emitName scope
  callee := grows_resolveCallee scope
  use p m := m.grows_use p

/-! ### What emitted code refers to -/

/-- What the instruction refers to is in the tables of a program, and `uses` has it on record. -/
def Instruction.Within (s : CompileState) (uses : List Vertex) : Instruction → Prop
  | loadGlobal slot => slot < s.globalCount ∧ .symbol (.global slot) ∈ uses
  | pushFunction pointer => ∃ p, s.pointers.target? pointer = some (0, p) ∧ .procedure p ∈ uses
  | call p _ => .procedure p ∈ uses
  | _ => True

/-- What the instruction refers to is registered and noted by an emission. -/
def Emission.Covers (m : Emission) (i : Instruction) : Prop := i.Within m.state m.uses

namespace Emission

variable {m m' : Emission}

theorem mem_uses_symbol {slot : Nat} : .symbol (.global slot) ∈ m.uses ↔ slot ∈ m.reads := by
  simp [uses, SymbolKey.global]

theorem mem_uses_procedure {p : Nat} : .procedure p ∈ m.uses ↔ p ∈ m.calls := by
  simp [uses]

theorem Grows.covers (h : m.Grows m') (ht : m.state.Tabled) {i : Instruction} (hi : m.Covers i) :
    m'.Covers i := by
  cases i with
  | loadGlobal slot =>
    refine ⟨?_, h.uses hi.2⟩
    have hslots := (h.state.tabled ht).slots
    have hlength := h.state.symbols.length_le
    have := hi.1
    have := ht.slots
    simp only [CompileState.globalCount] at *
    omega
  | pushFunction pointer =>
    obtain ⟨p, hp, hu⟩ := hi
    refine ⟨p, ?_, h.uses hu⟩
    obtain ⟨more, hmore⟩ := h.state.pointers
    rw [FunctionPointers.target?, ← hmore]
    exact List.getElem?_append_left (List.getElem?_eq_some_iff.1 hp).1 ▸ hp
  | call p argc => exact h.uses hi
  | _ => trivial

end Emission

theorem target?_of_findIdx? {t : FunctionPointers} {target : Nat × Nat} {k : Nat}
    (h : t.targets.findIdx? (· == target) = some k) : t.target? k = some target := by
  obtain ⟨hlt, heq, -⟩ := List.findIdx?_eq_some_iff_getElem.1 h
  rw [FunctionPointers.target?, List.getElem?_eq_getElem hlt]
  exact congrArg some (by simpa using heq)

theorem covers_emitName {scope : Scope} {name : String} {m : Emission} (ht : m.state.Tabled) :
    (emitName scope name m).2.Covers (emitName scope name m).1 := by
  unfold emitName
  split
  · trivial
  · split
    · rename_i p hp
      exact ⟨p, target?_of_findIdx? (FunctionPointers.findIdx?_pointerTo _ 0 p),
        Emission.mem_uses_procedure.2 (Emission.mem_use.2 (.inl rfl))⟩
    · split
      · rename_i slot hslot
        refine ⟨?_, Emission.mem_uses_symbol.2 (Emission.mem_read.2 (.inl rfl))⟩
        have := SymbolTable.lt_of_indexOf? hslot
        simpa only [Emission.read, CompileState.globalCount, ht.slots] using this
      · refine ⟨?_, Emission.mem_uses_symbol.2 (Emission.mem_read.2 (.inl rfl))⟩
        have := SymbolTable.lt_of_indexOf? (m.state.indexOf?_declare name)
        rwa [← ((m.state.registers_declare name).tabled ht).slots] at this

theorem covers_resolveCallee {scope : Scope} {name : String} {argc : Nat} {m : Emission}
    (ht : m.state.Tabled) {load : Instruction}
    (h : (resolveCallee scope name argc m).1 = .value load) :
    (resolveCallee scope name argc m).2.Covers load := by
  unfold resolveCallee at h ⊢
  split at h
  · cases h
    trivial
  · split at h
    · rename_i slot hp hs
      cases h
      refine ⟨?_, Emission.mem_uses_symbol.2 (Emission.mem_read.2 (.inl rfl))⟩
      have := SymbolTable.lt_of_indexOf? hs
      simpa only [Emission.read, CompileState.globalCount, ht.slots] using this
    · dsimp only at h
      split at h
      · split at h <;> cases h
      · split at h <;> cases h

mutual

/-- What emitted code refers to is registered and noted by the emission. -/
theorem covers_emit (scope : Scope) (base : Nat) : (e : Expr) → (m : Emission) →
    m.state.Tabled → ∀ i ∈ (emit scope base e m).1, (emit scope base e m).2.Covers i
  | .null, m, ht | .bool _, m, ht | .int _, m, ht | .double _, m, ht | .str _, m, ht => by
    intro i hi
    obtain rfl := List.mem_singleton.1 hi
    trivial
  | .name n, m, ht => by
    intro i hi
    obtain rfl := List.mem_singleton.1 hi
    exact covers_emitName ht
  | .array items, m, ht => by
    intro i hi
    rcases List.mem_append.1 hi with hi | hi
    · exact covers_emitAll scope base items m ht i hi
    · obtain rfl := List.mem_singleton.1 hi
      trivial
  | .index target k, m, ht => by
    have htarget := (respected_grows scope).emit base target m
    have hk := (respected_grows scope).emit (base + (emit scope base target m).1.length) k
      (emit scope base target m).2
    intro i hi
    simp only [emit, List.mem_append, List.mem_singleton] at hi
    rcases hi with (hi | hi) | rfl
    · exact hk.covers (htarget.state.tabled ht) (covers_emit scope base target m ht i hi)
    · exact covers_emit scope _ k _ (htarget.state.tabled ht) i hi
    · trivial
  | .call callee args, m, ht => by
    have hc := (respected_grows scope).callee callee args.length m
    have hload : ∀ load, (resolveCallee scope callee args.length m).1 = .value load → _ :=
      fun load => covers_resolveCallee ht
    simp only [emit]
    rcases hr : resolveCallee scope callee args.length m with ⟨⟨p⟩ | ⟨load⟩, m'⟩
    · simp only [hr] at hc ⊢
      have hargs := covers_emitAll scope base args m' (hc.state.tabled ht)
      have htable := ((respected_grows scope).emitAll base args m').state.tabled (hc.state.tabled ht)
      intro i hi
      rcases List.mem_append.1 hi with hi | hi
      · exact (Emission.grows_use _ p).covers htable (hargs i hi)
      · obtain rfl := List.mem_singleton.1 hi
        exact Emission.mem_uses_procedure.2 (Emission.mem_use.2 (.inl rfl))
    · simp only [hr] at hc hload ⊢
      have hargs := covers_emitAll scope (base + 1) args m' (hc.state.tabled ht)
      have hgrows := (respected_grows scope).emitAll (base + 1) args m'
      intro i hi
      rcases List.mem_cons.1 hi with rfl | hi
      · exact hgrows.covers (hc.state.tabled ht) (hload _ rfl)
      · rcases List.mem_append.1 hi with hi | hi
        · exact hargs i hi
        · obtain rfl := List.mem_singleton.1 hi
          trivial
  | .unary op operand, m, ht => by
    intro i hi
    rcases List.mem_append.1 hi with hi | hi
    · exact covers_emit scope base operand m ht i hi
    · obtain rfl := List.mem_singleton.1 hi
      trivial
  | .binary op lhs rhs, m, ht => by
    have hl := (respected_grows scope).emit base lhs m
    have hr := (respected_grows scope).emit (base + (emit scope base lhs m).1.length) rhs
      (emit scope base lhs m).2
    intro i hi
    simp only [emit, List.mem_append, List.mem_singleton] at hi
    rcases hi with (hi | hi) | rfl
    · exact hr.covers (hl.state.tabled ht) (covers_emit scope base lhs m ht i hi)
    · exact covers_emit scope _ rhs _ (hl.state.tabled ht) i hi
    · trivial
  | .cond test yes no, m, ht => by
    have htest := (respected_grows scope).emit base test m
    have hyes := (respected_grows scope).emit (base + (emit scope base test m).1.length + 1) yes
      (emit scope base test m).2
    have hno := (respected_grows scope).emit (base + (emit scope base test m).1.length + 1 +
      (emit scope (base + (emit scope base test m).1.length + 1) yes
        (emit scope base test m).2).1.length + 1) no
      (emit scope (base + (emit scope base test m).1.length + 1) yes (emit scope base test m).2).2
    have ht₁ := htest.state.tabled ht
    have ht₂ := hyes.state.tabled ht₁
    intro i hi
    simp only [emit, List.mem_append, List.mem_cons] at hi
    rcases hi with (hi | rfl | hi) | rfl | hi
    · exact (hyes.trans hno).covers ht₁ (covers_emit scope base test m ht i hi)
    · trivial
    · exact hno.covers ht₂ (covers_emit scope _ yes _ ht₁ i hi)
    · trivial
    · exact covers_emit scope _ no _ ht₂ i hi

theorem covers_emitAll (scope : Scope) (base : Nat) : (es : List Expr) → (m : Emission) →
    m.state.Tabled → ∀ i ∈ (emitAll scope base es m).1, (emitAll scope base es m).2.Covers i
  | [], m, ht => by
    intro i hi
    cases hi
  | e :: es, m, ht => by
    have he := (respected_grows scope).emit base e m
    have hes := (respected_grows scope).emitAll (base + (emit scope base e m).1.length) es
      (emit scope base e m).2
    intro i hi
    rcases List.mem_append.1 hi with hi | hi
    · exact hes.covers (he.state.tabled ht) (covers_emit scope base e m ht i hi)
    · exact covers_emitAll scope _ es _ (he.state.tabled ht) i hi

end

end Reflow
