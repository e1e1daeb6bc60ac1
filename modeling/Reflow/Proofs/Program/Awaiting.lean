import Mathlib.Data.List.Induction
import Reflow.Proofs.Lang.RoundTrip
import Reflow.Proofs.Program.History
import Reflow.Proofs.Program.Roster
/-!
# Functions that are awaited

A call may be compiled before its function is defined. The program then lists the name until a definition
comes. The list has one entry for each name, and a definition resolves the entry for good: when the function
is retired and called again, the name is not listed a second time. So a name is listed if some call ahead of
the definition is not followed by a definition, as one would expect, and no earlier one is either.

## Main definitions

* `CompileState.CallsAhead`: code calls a function that is not active.
* `CompileState.Files`: what emitting code does to the list.
* `Addition.CallsAhead`: a statement that was added calls a function that was not active.
* `CompileState.Outstanding`: no definition has followed the latest call ahead.
* `CompileState.Answered`: a definition has followed some call ahead.

## Main results

* `files_emit`: the list after emitting the code of an expression.
* `CompileState.lists_extended`, `CompileState.awaits_extended`: the list after a statement.
* `CompileState.Recounted.unresolved_iff`: which names are listed.
-/

namespace Reflow

/-! ### The list -/

namespace DynamicFunctions

/-- The list has an entry for a name. -/
def Lists (t : DynamicFunctions) (name : String) : Prop := ∃ f ∈ t.entries, f.name = name

variable (t : DynamicFunctions) (name other : String) (procedure argc : Nat)

theorem awaits_iff : t.awaits name = true ↔ ∃ f ∈ t.entries, f.name = name ∧ f.resolved = false := by
  simp [awaits]

theorem mem_unresolved_iff : (∃ f ∈ t.unresolved, f.name = name) ↔ t.awaits name = true := by
  rw [awaits_iff]
  constructor
  · rintro ⟨f, hf, hname⟩
    obtain ⟨hf, hopen⟩ := List.mem_filter.1 hf
    exact ⟨f, hf, hname, by simpa using hopen⟩
  · rintro ⟨f, hf, hname, hopen⟩
    exact ⟨f, List.mem_filter.2 ⟨hf, by simpa using hopen⟩, hname⟩

theorem lists_record :
    (t.record other procedure argc).Lists name ↔ t.Lists name ∨ name = other := by
  unfold record
  split
  · rename_i hlisted
    refine ⟨.inl, fun h => h.elim id ?_⟩
    rintro rfl
    simpa [Lists] using hlisted
  · simp [Lists, or_and_right, exists_or, eq_comm]

theorem awaits_record : (t.record other procedure argc).awaits name = true ↔
    t.awaits name = true ∨ name = other ∧ ¬ t.Lists name := by
  unfold record
  split
  · rename_i hlisted
    refine ⟨.inl, fun h => h.elim id ?_⟩
    rintro ⟨rfl, hnew⟩
    exact absurd (by simpa [Lists] using hlisted) hnew
  · rename_i hnew
    rw [awaits_iff, awaits_iff]
    simp only [List.mem_append, List.mem_singleton, or_and_right, exists_or, exists_eq_left, and_true]
    refine or_congr_right ⟨?_, fun h => h.1.symm⟩
    rintro rfl
    exact ⟨rfl, by simpa [Lists] using hnew⟩

theorem lists_resolve : (t.resolve other).Lists name ↔ t.Lists name := by
  have hname : ∀ f : DynamicFunction,
      (if f.name = other then { f with resolved := true } else f).name = f.name := by
    intro f
    split <;> rfl
  simp only [Lists, resolve, List.mem_map, exists_exists_and_eq_and, hname]

/-- A definition resolves every entry of its name. -/
theorem awaits_resolve :
    (t.resolve other).awaits name = true ↔ t.awaits name = true ∧ name ≠ other := by
  rw [awaits_iff, awaits_iff]
  simp only [resolve, List.mem_map, exists_exists_and_eq_and]
  constructor
  · rintro ⟨f, hf, hname, hopen⟩
    split at hopen
    · cases hopen
    · rename_i hne
      rw [if_neg hne] at hname
      exact ⟨⟨f, hf, hname, hopen⟩, hname ▸ hne⟩
  · rintro ⟨⟨f, hf, hname, hopen⟩, hne⟩
    have hne : f.name ≠ other := hname ▸ hne
    exact ⟨f, hf, by rw [if_neg hne]; exact hname, by rw [if_neg hne]; exact hopen⟩

end DynamicFunctions

/-! ### Emitting code -/

/-- Two names of one index are the same name. -/
theorem ProcedureTable.eq_of_indexOf? {t : ProcedureTable} {x y : String} {i : Nat}
    (hx : t.indexOf? x = some i) (hy : t.indexOf? y = some i) : x = y := by
  obtain ⟨_, hx, -⟩ := List.findIdx?_eq_some_iff_getElem.1 hx
  obtain ⟨_, hy, -⟩ := List.findIdx?_eq_some_iff_getElem.1 hy
  exact (eq_of_beq hx).symm.trans (eq_of_beq hy)

namespace CompileState

variable {s t u : CompileState} {defining : Option String} {code more : List Instruction} {name : String}

theorem Registers.indexOf?_procedures (h : s.Registers t) {p : Nat}
    (hp : s.root.procedures.indexOf? name = some p) : t.root.procedures.indexOf? name = some p := by
  obtain ⟨rest, hrest⟩ := h.procedures
  rw [ProcedureTable.indexOf?, ← hrest]
  exact findIdx?_append_of_some hp

/-- The code, emitted in the state `s` and with the names as in `t`, calls a function that is not active and
whose own body it is not. -/
structure CallsAhead (s t : CompileState) (defining : Option String) (code : List Instruction)
    (name : String) : Prop where
  called : ∃ p argc, t.root.procedures.indexOf? name = some p ∧ .call p argc ∈ code
  inactive : s.active? name = none
  foreign : defining ≠ some name

/-- From `s` to `t`, code was emitted, and the functions that it calls ahead were listed. -/
structure Files (defining : Option String) (code : List Instruction) (s t : CompileState) : Prop where
  registers : s.Registers t
  known : ∀ p argc, .call p argc ∈ code → ∃ name, t.root.procedures.indexOf? name = some p
  lists : ∀ name, t.dynamicFunctions.Lists name ↔
    s.dynamicFunctions.Lists name ∨ s.CallsAhead t defining code name
  awaits : ∀ name, t.dynamicFunctions.awaits name = true ↔ s.dynamicFunctions.awaits name = true ∨
    s.CallsAhead t defining code name ∧ ¬ s.dynamicFunctions.Lists name

/-- Code without calls. -/
theorem Files.of_forall_ne (registers : s.Registers t)
    (hsame : t.dynamicFunctions = s.dynamicFunctions) (hcode : ∀ p argc, .call p argc ∉ code) :
    Files defining code s t := by
  have hnone : ∀ name, ¬ s.CallsAhead t defining code name := by
    rintro name ⟨⟨p, argc, -, hcall⟩, -, -⟩
    exact hcode p argc hcall
  refine ⟨registers, fun p argc hcall => absurd hcall (hcode p argc), fun name => ?_, fun name => ?_⟩
  · simp [hsame, hnone]
  · simp [hsame, hnone]

/-- All that matters of the code is what it calls. -/
theorem Files.congr (h : Files defining code s t)
    (hcode : ∀ p argc, .call p argc ∈ more ↔ .call p argc ∈ code) : Files defining more s t := by
  have hcalls : ∀ name, s.CallsAhead t defining more name ↔ s.CallsAhead t defining code name := by
    intro name
    constructor
    · rintro ⟨⟨p, argc, hp, hcall⟩, hoff, hforeign⟩
      exact ⟨⟨p, argc, hp, (hcode p argc).1 hcall⟩, hoff, hforeign⟩
    · rintro ⟨⟨p, argc, hp, hcall⟩, hoff, hforeign⟩
      exact ⟨⟨p, argc, hp, (hcode p argc).2 hcall⟩, hoff, hforeign⟩
  exact ⟨h.registers, fun p argc hcall => h.known p argc ((hcode p argc).1 hcall),
    fun name => (h.lists name).trans (or_congr_right (hcalls name).symm),
    fun name => (h.awaits name).trans (or_congr_right (and_congr_left' (hcalls name).symm))⟩

/-- Code that is emitted in two parts calls ahead what either part calls ahead. -/
theorem Files.callsAhead_append (h : Files defining code s t) (k : Files defining more t u) :
    s.CallsAhead u defining (code ++ more) name ↔
      s.CallsAhead t defining code name ∨ t.CallsAhead u defining more name := by
  constructor
  · rintro ⟨⟨p, argc, hp, hcall⟩, hoff, hforeign⟩
    rcases List.mem_append.1 hcall with hcall | hcall
    · -- a name that is known after the first part keeps its index
      obtain ⟨name', hname'⟩ := h.known p argc hcall
      obtain rfl := ProcedureTable.eq_of_indexOf? (k.registers.indexOf?_procedures hname') hp
      exact .inl ⟨⟨p, argc, hname', hcall⟩, hoff, hforeign⟩
    · exact .inr ⟨⟨p, argc, hp, hcall⟩, (h.registers.active?_eq name).trans hoff, hforeign⟩
  · rintro (⟨⟨p, argc, hp, hcall⟩, hoff, hforeign⟩ | ⟨⟨p, argc, hp, hcall⟩, hoff, hforeign⟩)
    · exact ⟨⟨p, argc, k.registers.indexOf?_procedures hp, List.mem_append_left _ hcall⟩, hoff, hforeign⟩
    · exact ⟨⟨p, argc, hp, List.mem_append_right _ hcall⟩,
        (h.registers.active?_eq name).symm.trans hoff, hforeign⟩

theorem Files.append (h : Files defining code s t) (k : Files defining more t u) :
    Files defining (code ++ more) s u where
  registers := h.registers.trans k.registers
  known p argc hcall := by
    rcases List.mem_append.1 hcall with hcall | hcall
    · obtain ⟨name, hname⟩ := h.known p argc hcall
      exact ⟨name, k.registers.indexOf?_procedures hname⟩
    · exact k.known p argc hcall
  lists name := by
    rw [k.lists, h.lists, h.callsAhead_append k, or_assoc]
  awaits name := by
    rw [k.awaits, h.awaits, h.lists, h.callsAhead_append k]
    tauto

/-- One more instruction that is no call. -/
theorem Files.concat (h : Files defining code s t) {i : Instruction} (hi : ∀ p argc, i ≠ .call p argc) :
    Files defining (code ++ [i]) s t :=
  h.congr fun p argc => by simp [(hi p argc).symm]

end CompileState

/-- A name is no call. -/
theorem files_emitName (scope : Scope) (name : String) (m : Emission) :
    CompileState.Files scope.defining [(emitName scope name m).1] m.state (emitName scope name m).2.state := by
  refine .of_forall_ne (grows_emitName scope name m).state ?_ ?_
  · unfold emitName
    split
    · rfl
    · split
      · rfl
      · split
        · rfl
        · simp only [Emission.read]
          unfold CompileState.declare
          split <;> rfl
  · unfold emitName
    repeat' split
    all_goals simp

namespace CompileState

theorem callsAhead_singleton {s t : CompileState} {defining : Option String} {name : String} {p argc : Nat}
    (hp : t.root.procedures.indexOf? name = some p) (other : String) :
    s.CallsAhead t defining [.call p argc] other ↔
      other = name ∧ s.active? name = none ∧ defining ≠ some name := by
  constructor
  · rintro ⟨⟨q, n, hq, hcall⟩, hoff, hforeign⟩
    obtain ⟨rfl, -⟩ : q = p ∧ n = argc := by simpa using hcall
    obtain rfl := ProcedureTable.eq_of_indexOf? hq hp
    exact ⟨rfl, hoff, hforeign⟩
  · rintro ⟨rfl, hoff, hforeign⟩
    exact ⟨⟨p, argc, hp, List.mem_singleton_self _⟩, hoff, hforeign⟩

/-- A call that needs no listing, because its function is active or under definition. -/
theorem Files.of_known {s t : CompileState} {defining : Option String} {name : String} {p argc : Nat}
    (registers : s.Registers t) (hsame : t.dynamicFunctions = s.dynamicFunctions)
    (hp : t.root.procedures.indexOf? name = some p)
    (hknown : ¬ (s.active? name = none ∧ defining ≠ some name)) :
    Files defining [.call p argc] s t := by
  refine ⟨registers, fun q n hcall => ⟨name, ?_⟩, fun other => ?_, fun other => ?_⟩
  · obtain ⟨rfl, -⟩ : q = p ∧ n = argc := by simpa using hcall
    exact hp
  · simp only [hsame, callsAhead_singleton hp, hknown, and_false, or_false]
  · simp only [hsame, callsAhead_singleton hp, hknown, and_false, false_and, or_false]

/-- A call that is listed. -/
theorem Files.of_record {s t : CompileState} {defining : Option String} {name : String} {p argc : Nat}
    (registers : s.Registers t)
    (hrecord : t.dynamicFunctions = s.dynamicFunctions.record name p argc)
    (hp : t.root.procedures.indexOf? name = some p) (hoff : s.active? name = none)
    (hforeign : defining ≠ some name) : Files defining [.call p argc] s t := by
  refine ⟨registers, fun q n hcall => ⟨name, ?_⟩, fun other => ?_, fun other => ?_⟩
  · obtain ⟨rfl, -⟩ : q = p ∧ n = argc := by simpa using hcall
    exact hp
  · rw [hrecord, DynamicFunctions.lists_record, callsAhead_singleton hp, and_iff_left ⟨hoff, hforeign⟩]
  · rw [hrecord, DynamicFunctions.awaits_record, callsAhead_singleton hp,
      and_iff_left (⟨hoff, hforeign⟩ : _ ∧ _)]

/-- Reserving a name finds the procedure that is active under it. -/
theorem at?_reserve (s : CompileState) (name : String) :
    ((s.reserve name).2.root.procedures.at? (s.reserve name).1).filter (·.isActive) = s.active? name := by
  obtain ⟨q, hat, hget, -⟩ :=
    ProcedureTable.exists_of_indexOf? (ProcedureTable.indexOf?_reserve s.root.procedures name)
  have hactive := (s.registers_reserve name).active?_eq name
  rw [active?, show (s.reserve name).2.root.procedures.get? name = some q from hget] at hactive
  rw [ProcedureTable.at?, show (s.reserve name).2.root.procedures.procedures[(s.reserve name).1]? =
    some q from hat, hactive]

end CompileState

section Callee

variable {scope : Scope} {name : String} {argc p : Nat} {load : Instruction} {m m' : Emission}

/-- A function is called by its index. It is listed if it is neither active nor under definition. -/
theorem files_direct (h : resolveCallee scope name argc m = (.direct p, m')) :
    CompileState.Files scope.defining [.call p argc] m.state m'.state := by
  have hregisters := (grows_resolveCallee scope name argc m).state
  have hp : (m.state.reserve name).2.root.procedures.indexOf? name = some (m.state.reserve name).1 :=
    ProcedureTable.indexOf?_reserve _ _
  have hactive := m.state.at?_reserve name
  rw [h] at hregisters
  unfold resolveCallee at h
  split at h
  · cases h
  · split at h
    · cases h
    · dsimp only at h
      rw [hactive] at h
      split at h
      · rename_i q hq
        have hknown : ¬ (m.state.active? name = none ∧ scope.defining ≠ some name) := by simp [hq]
        split at h <;> cases h <;> exact .of_known hregisters rfl hp hknown
      · rename_i hoff
        split at h
        · rename_i hself
          cases h
          exact .of_known hregisters rfl hp fun hforeign => hforeign.2 hself
        · rename_i hforeign
          cases h
          exact .of_record hregisters rfl hp hoff hforeign

/-- Whatever is no function is called by its value. -/
theorem files_value (h : resolveCallee scope name argc m = (.value load, m')) :
    CompileState.Files scope.defining [load] m.state m'.state := by
  unfold resolveCallee at h
  split at h
  · cases h
    exact .of_forall_ne (.refl _) rfl (by simp)
  · split at h
    · cases h
      exact .of_forall_ne (.refl _) rfl (by simp)
    · dsimp only at h
      split at h
      · split at h <;> cases h
      · split at h <;> cases h

end Callee

mutual

/-- Emitting the code of an expression lists the functions that it calls ahead. -/
theorem files_emit (scope : Scope) (base : Nat) : (e : Expr) → (m : Emission) →
    CompileState.Files scope.defining (emit scope base e m).1 m.state (emit scope base e m).2.state
  | .null, m | .bool _, m | .int _, m | .double _, m | .str _, m =>
    .of_forall_ne (.refl _) rfl (by simp [emit])
  | .name n, m => files_emitName scope n m
  | .array items, m => (files_emitAll scope base items m).concat (by simp)
  | .index target i, m =>
    ((files_emit scope base target m).append (files_emit scope _ i _)).concat (by simp)
  | .call n args, m => by
    simp only [emit]
    rcases hr : resolveCallee scope n args.length m with ⟨⟨p⟩ | ⟨load⟩, m'⟩
    · -- the call is listed before its arguments, and its instruction comes after them
      have hcall := (files_direct hr).append (files_emitAll scope base args m')
      exact hcall.congr fun q argc => by simp [or_comm]
    · have hcall := (files_value hr).append (files_emitAll scope (base + 1) args m')
      exact (hcall.concat (i := .callPointer args.length) (by simp)).congr fun q argc => by simp
  | .unary _ operand, m => (files_emit scope base operand m).concat (by simp)
  | .binary _ lhs rhs, m =>
    ((files_emit scope base lhs m).append (files_emit scope _ rhs _)).concat (by simp)
  | .cond test yes no, m => by
    simp only [emit]
    refine .congr (((files_emit scope base test m).append (files_emit scope _ yes _)).append
      (files_emit scope _ no _)) fun q argc => ?_
    simp

theorem files_emitAll (scope : Scope) (base : Nat) : (es : List Expr) → (m : Emission) →
    CompileState.Files scope.defining (emitAll scope base es m).1 m.state
      (emitAll scope base es m).2.state
  | [], m => .of_forall_ne (.refl _) rfl (by simp [emitAll])
  | e :: es, m => (files_emit scope base e m).append (files_emitAll scope _ es _)

end

/-! ### Adding a statement -/

namespace Addition

/-- The code that was emitted for the statement, and what was gathered on the way. -/
def emitted (a : Addition) : List Instruction × Emission :=
  match a.statement with
  | .assign target value => a.before.emitValue target value
  | .define name params body => a.before.emitBody name params body

/-- The statement calls a function that was not active before it, other than the one that it defines. -/
def CallsAhead (a : Addition) (name : String) : Prop :=
  a.before.CallsAhead a.emitted.2.state a.statement.function? a.emitted.1 name

/-- The statement defines a function. -/
def Defines (a : Addition) (name : String) : Prop := a.statement.function? = some name

/-- A function is not called ahead by its own definition. -/
theorem CallsAhead.not_defines {a : Addition} {name : String} (h : a.CallsAhead name) :
    ¬ a.Defines name := h.foreign

end Addition

namespace CompileState

theorem CallsAhead.congr {s s' t : CompileState} {defining : Option String} {code : List Instruction}
    {name : String} (h : s'.active? name = s.active? name) :
    s'.CallsAhead t defining code name ↔ s.CallsAhead t defining code name :=
  ⟨fun k => ⟨k.called, h ▸ k.inactive, k.foreign⟩, fun k => ⟨k.called, h ▸ k.inactive, k.foreign⟩⟩

theorem dynamicFunctions_declare (s : CompileState) (target : String) :
    (s.declare target).2.dynamicFunctions = s.dynamicFunctions := by
  unfold declare
  split <;> rfl

theorem dynamicFunctions_defined (s : CompileState) (owner : Option SubtreeId) (name : String)
    (params : List String) (body : Expr) : (s.defined owner name params body).dynamicFunctions =
      (s.emitBody name params body).2.state.dynamicFunctions.resolve name := by
  unfold defined queueUsers
  split <;> rfl

/-- The list while the code of a statement is emitted. -/
theorem files_emitted (a : Addition) (name : String) :
    (a.emitted.2.state.dynamicFunctions.Lists name ↔
      a.before.dynamicFunctions.Lists name ∨ a.CallsAhead name) ∧
    (a.emitted.2.state.dynamicFunctions.awaits name = true ↔
      a.before.dynamicFunctions.awaits name = true ∨
        a.CallsAhead name ∧ ¬ a.before.dynamicFunctions.Lists name) := by
  obtain ⟨s, statement⟩ := a
  cases statement with
  | assign target value =>
    have hactive : (s.beforeValue target).active? name = s.active? name :=
      (s.registers_declare target).active?_eq name
    have hsame : (s.beforeValue target).dynamicFunctions = s.dynamicFunctions :=
      s.dynamicFunctions_declare target
    have hfiles := files_emit {} (s.beforeValue target).root.stream.size value
      { state := s.beforeValue target }
    have hlists := hfiles.lists name
    have hawaits := hfiles.awaits name
    rw [CallsAhead.congr hactive, hsame] at hlists hawaits
    exact ⟨hlists, hawaits⟩
  | define function params body =>
    have hactive : (s.beforeBody function params).active? name = s.active? name :=
      (s.registers_reserve function).active?_eq name
    have hfiles := files_emit { params, defining := some function } 0 body
      { state := s.beforeBody function params }
    have hlists := hfiles.lists name
    have hawaits := hfiles.awaits name
    rw [CallsAhead.congr hactive] at hlists hawaits
    exact ⟨hlists, hawaits⟩

section Extended

variable (s : CompileState) (owner : Option SubtreeId) (statement : Statement) (name : String)

/-- A statement lists what it calls ahead. -/
theorem lists_extended : (s.extended owner statement).dynamicFunctions.Lists name ↔
    s.dynamicFunctions.Lists name ∨ (⟨s, statement⟩ : Addition).CallsAhead name := by
  have hlists := (files_emitted ⟨s, statement⟩ name).1
  cases statement with
  | assign target value => exact hlists
  | define function params body =>
    rw [extended, dynamicFunctions_defined, DynamicFunctions.lists_resolve]
    exact hlists

/-- What a statement defines is not awaited any more, and what it calls ahead is awaited if it is listed for
the first time. -/
theorem awaits_extended : (s.extended owner statement).dynamicFunctions.awaits name = true ↔
    s.dynamicFunctions.awaits name = true ∧ ¬ (⟨s, statement⟩ : Addition).Defines name ∨
      (⟨s, statement⟩ : Addition).CallsAhead name ∧ ¬ s.dynamicFunctions.Lists name := by
  have hawaits := (files_emitted ⟨s, statement⟩ name).2
  cases statement with
  | assign target value =>
    have hnone : ¬ (⟨s, .assign target value⟩ : Addition).Defines name := fun h => by cases h
    rw [and_iff_left hnone]
    exact hawaits
  | define function params body =>
    have hdefines : (⟨s, .define function params body⟩ : Addition).Defines name ↔ name = function := by
      rw [Addition.Defines, Statement.function?, Option.some_inj, eq_comm]
    have hforeign : (⟨s, .define function params body⟩ : Addition).CallsAhead name → name ≠ function :=
      fun h => mt hdefines.2 h.not_defines
    rw [extended, dynamicFunctions_defined, DynamicFunctions.awaits_resolve, hdefines]
    refine (and_congr_left' hawaits).trans ?_
    tauto

end Extended

/-- Retiring a subtree leaves the list as it is. -/
theorem dynamicFunctions_retire (s : CompileState) (id : SubtreeId) :
    (s.retire id).dynamicFunctions = s.dynamicFunctions := by
  obtain ⟨updates, hwithout⟩ := s.exists_withoutStatements_eq id
  rw [retire_eq]
  refine List.foldlRecOn (motive := fun t : CompileState => t.dynamicFunctions = s.dynamicFunctions)
    _ _ ?_ fun _ ht _ _ => ht
  rw [hwithout]
  rfl

/-! ### Whole sessions -/

/-- Some call ahead of a function is the latest one, and no definition of the function has followed it. -/
def Outstanding (log : List Addition) (name : String) : Prop :=
  ∃ before a after, log = before ++ a :: after ∧ a.CallsAhead name ∧
    ∀ d ∈ after, ¬ d.CallsAhead name ∧ ¬ d.Defines name

/-- Some call ahead of a function was followed by a definition of the function. -/
def Answered (log : List Addition) (name : String) : Prop :=
  ∃ before a after, log = before ++ a :: after ∧ a.CallsAhead name ∧ ∃ d ∈ after, d.Defines name

variable {log : List Addition} {s : CompileState} {a : Addition} {name : String}

theorem Answered.exists_callsAhead (h : Answered log name) : ∃ a ∈ log, a.CallsAhead name := by
  obtain ⟨before, a, after, rfl, hcalls, -⟩ := h
  exact ⟨a, by simp, hcalls⟩

theorem answered_concat : Answered (log ++ [a]) name ↔
    Answered log name ∨ a.Defines name ∧ ∃ b ∈ log, b.CallsAhead name := by
  constructor
  · rintro ⟨before, b, after, hlog, hcalls, d, hd, hdefines⟩
    obtain ⟨rest, last, rfl⟩ : ∃ rest last, after = rest ++ [last] :=
      (List.eq_nil_or_concat' after).resolve_left (List.ne_nil_of_mem hd)
    rw [← List.cons_append, ← List.append_assoc] at hlog
    obtain ⟨rfl, hlast⟩ := List.append_inj' hlog rfl
    obtain rfl := List.singleton_inj.1 hlast
    rcases List.mem_append.1 hd with hd | hd
    · exact .inl ⟨before, b, rest, rfl, hcalls, d, hd, hdefines⟩
    · obtain rfl := List.mem_singleton.1 hd
      exact .inr ⟨hdefines, b, by simp, hcalls⟩
  · rintro (⟨before, b, after, rfl, hcalls, d, hd, hdefines⟩ | ⟨hdefines, b, hb, hcalls⟩)
    · exact ⟨before, b, after ++ [a], by simp, hcalls, d, List.mem_append_left _ hd, hdefines⟩
    · obtain ⟨before, after, rfl⟩ := List.append_of_mem hb
      exact ⟨before, b, after ++ [a], by simp, hcalls, a, by simp, hdefines⟩

/-- If no call ahead was ever answered, the latest one is outstanding. -/
theorem outstanding_iff (hopen : ¬ Answered log name) :
    Outstanding log name ↔ ∃ a ∈ log, a.CallsAhead name := by
  constructor
  · rintro ⟨before, a, after, rfl, hcalls, -⟩
    exact ⟨a, by simp, hcalls⟩
  · rintro ⟨a, ha, hcalls⟩
    obtain ⟨before, last, after, rfl, hlast, hrest⟩ : ∃ before last after, log = before ++ last :: after ∧
        last.CallsAhead name ∧ ∀ d ∈ after, ¬ d.CallsAhead name := by
      clear hopen
      induction log using List.reverseRecOn with
      | nil => cases ha
      | append_singleton log b ih =>
        by_cases hb : b.CallsAhead name
        · exact ⟨log, b, [], rfl, hb, by simp⟩
        · have ha : a ∈ log := by
            refine (List.mem_append.1 ha).resolve_right fun hlast => hb ?_
            rwa [← List.mem_singleton.1 hlast]
          obtain ⟨before, last, after, rfl, hlast, hrest⟩ := ih ha
          refine ⟨before, last, after ++ [b], by simp, hlast, fun d hd => ?_⟩
          rcases List.mem_append.1 hd with hd | hd
          · exact hrest d hd
          · rwa [List.mem_singleton.1 hd]
    exact ⟨before, last, after, rfl, hlast, fun d hd => ⟨hrest d hd, fun hdefines =>
      hopen ⟨before, last, after, rfl, hlast, d, hd, hdefines⟩⟩⟩

/-- The list has the names that were called ahead, and awaits those of them for which no definition has
followed any such call. -/
theorem History.awaits_iff (h : s.History log) (name : String) :
    (s.dynamicFunctions.Lists name ↔ ∃ a ∈ log, a.CallsAhead name) ∧
    (s.dynamicFunctions.awaits name = true ↔
      (∃ a ∈ log, a.CallsAhead name) ∧ ¬ Answered log name) := by
  induction h with
  | new => simp [DynamicFunctions.Lists, DynamicFunctions.awaits]
  | scheduled _ entry updates full ih => exact ih
  | @retire log s _ subtree ih =>
    rw [s.dynamicFunctions_retire subtree]
    exact ih
  | @statement log s t owner statement _ _ accepted ih =>
    obtain ⟨hlists, hawaits⟩ := ih
    have hconcat : (∃ a ∈ log ++ [⟨s, statement⟩], a.CallsAhead name) ↔
        (∃ a ∈ log, a.CallsAhead name) ∨ (⟨s, statement⟩ : Addition).CallsAhead name := by
      simp [or_and_right, exists_or]
    have hanswered : Answered log name → ∃ a ∈ log, a.CallsAhead name := Answered.exists_callsAhead
    rw [compileStatement_ok accepted, lists_extended, awaits_extended, hlists, hawaits, hconcat,
      answered_concat]
    refine ⟨.rfl, ?_, ?_⟩
    · rintro (⟨⟨hlisted, hopen⟩, hother⟩ | ⟨hcalls, hnew⟩)
      · exact ⟨.inl hlisted, not_or.2 ⟨hopen, fun h => hother h.1⟩⟩
      · exact ⟨.inr hcalls, not_or.2 ⟨fun h => hnew (hanswered h), fun h => hnew h.2⟩⟩
    · rintro ⟨hcalled, hno⟩
      obtain ⟨hopen, hother⟩ := not_or.1 hno
      by_cases hlisted : ∃ a ∈ log, a.CallsAhead name
      · exact .inl ⟨⟨hlisted, hopen⟩, fun h => hother ⟨h, hlisted⟩⟩
      · exact .inr ⟨hcalled.resolve_left hlisted, hlisted⟩

/-- A call is found without comparing doubles. -/
theorem call_mem_of_any {code : List Instruction}
    (h : (code.any fun i => i matches .call 0 0) = true) : .call 0 0 ∈ code := by
  obtain ⟨i, hi, hmatch⟩ := List.any_eq_true.1 h
  split at hmatch
  · exact hi
  · cases hmatch

/-- In every program that compilations and resets lead to, a function is listed as not yet defined if and
only if the latest call ahead of it has not been followed by a definition, and no earlier one has either. -/
theorem Recounted.unresolved_iff (h : s.Recounted log) (name : String) :
    (∃ f ∈ s.dynamicFunctions.unresolved, f.name = name) ↔
      Outstanding log name ∧ ¬ Answered log name := by
  rw [DynamicFunctions.mem_unresolved_iff, (h.history.awaits_iff name).2]
  exact and_congr_left fun hopen => (outstanding_iff hopen).symm

/-- The function `f` is called ahead, defined by a subtree, retired and called again. It is not listed, though
no definition has followed the second call. -/
theorem Recounted.unresolved_iff_retired : ∃ (log : List Addition) (s : CompileState),
    s.Recounted log ∧ Outstanding log "f" ∧ Answered log "f" ∧
      ¬ ∃ f ∈ s.dynamicFunctions.unresolved, f.name = "f" := by
  obtain ⟨first, hfirst⟩ := Option.isSome_iff_exists.1 (show (compile { units :=
    [⟨none, "y = f();"⟩, ⟨some (.ofNat 1), "def f() = 1;"⟩] } {}).image.isSome by decide +kernel)
  have hsecond : (compile { units := [⟨none, "z = f();"⟩], retired := [.ofNat 1] }
      first.state).image.isSome := by
    rw [compile_image hfirst]
    decide +kernel
  obtain ⟨second, hsecond⟩ := Option.isSome_iff_exists.1 hsecond
  have hparse : ∀ {s : Statement} {code : String}, s.Canonical → Statement.renderAll [s] = code →
      parseProgram code = .ok [s] :=
    fun hs hcode => hcode ▸ parseProgram_canonical (List.forall_mem_singleton.2 hs)
  have hcanonical : ∀ x ∈ ["y", "z"], (Statement.assign x (.call "f" [])).Canonical := by
    simp only [List.forall_mem_cons]
    exact ⟨⟨⟨by decide +kernel, by decide +kernel⟩, by decide, rfl, rfl⟩,
      ⟨⟨by decide +kernel, by decide +kernel⟩, by decide, rfl, rfl⟩, List.forall_mem_nil _⟩
  have hy : parseProgram "y = f();" = .ok [.assign "y" (.call "f" [])] :=
    hparse (hcanonical "y" (by decide)) (by decide +kernel)
  have hz : parseProgram "z = f();" = .ok [.assign "z" (.call "f" [])] :=
    hparse (hcanonical "z" (by decide)) (by decide +kernel)
  have hf : parseProgram "def f() = 1;" = .ok [.define "f" [] (.int 1)] :=
    hparse ⟨⟨by decide +kernel, by decide +kernel⟩, List.nodup_nil, rfl, rfl⟩ (by decide +kernel)
  have hreached := (Recounted.new.compiled hfirst).compiled hsecond
  simp only [Fragment.log, Fragment.statements, FragmentUnit.program, List.flatMap_cons, List.flatMap_nil,
    hy, hf, hz, List.map_cons, List.map_nil, List.append_nil, List.nil_append, List.singleton_append,
    additions, extended] at hreached
  have hcall : Addition.CallsAhead ⟨beginCompile {}, .assign "y" (.call "f" [])⟩ "f" :=
    ⟨⟨0, 0, by decide +kernel, call_mem_of_any (by decide +kernel)⟩, by decide +kernel, by decide⟩
  have hagain : Addition.CallsAhead ⟨[SubtreeId.ofNat 1].foldl CompileState.retire
      first.state.beginCompile, .assign "z" (.call "f" [])⟩ "f" := by
    rw [compile_image hfirst]
    exact ⟨⟨0, 0, by decide +kernel, call_mem_of_any (by decide +kernel)⟩, by decide +kernel, by decide⟩
  refine ⟨_, _, hreached, ⟨_, _, [], rfl, hagain, by simp⟩,
    ⟨[], _, _, rfl, hcall, _, List.mem_cons_self, rfl⟩, fun hlisted => ?_⟩
  exact ((hreached.unresolved_iff "f").1 hlisted).2
    ⟨[], _, _, rfl, hcall, _, List.mem_cons_self, rfl⟩

end CompileState

end Reflow
