import Reflow.Compile.Emission
/-!
# What names stand for

Emitting the code of an expression may declare globals, reserve functions and hand out function
pointers, so what a name stands for could depend on when it is looked up. It does not: a name keeps
its meaning from its first use in an expression to the end of the emission. The code of an
expression is therefore a function of the expression, the place where it starts and the names as the
state after the emission has them.

## Main definitions

* `Referent`: what a name stands for.
* `CompileState.naming`: the names as a state has them.
* `CompileState.Keeps`: a later state in which no name has changed its meaning.
* `Expr.code`: the code of an expression, the names being given.

## Main results

* `keeps_emit`: emitting code changes the meaning of no name.
* `emit_code`: the emitted code is `Expr.code` under the names of any later state.
-/

namespace Reflow

/-- What a name in an expression stands for. -/
inductive Referent
  /-- An argument of the running call. -/
  | argument (index : Nat)
  /-- A procedure, with the pointer that it has as a value. -/
  | procedure (index pointer : Nat)
  | global (slot : Nat)
  deriving Repr, DecidableEq

/-- What each name stands for. -/
abbrev Naming := String → Referent

/-- The instruction that pushes what a name stands for. -/
def Referent.load : Referent → Instruction
  | argument i => .loadLocal i
  | procedure _ pointer => .pushFunction pointer
  | global slot => .loadGlobal slot

namespace CompileState

/-- The names as a state has them: parameters first, then procedures, then globals. A function
without a pointer and a global without a slot stand for the next free one. -/
def naming (s : CompileState) (scope : Scope) : Naming := fun name =>
  match scope.params.findIdx? (· == name) with
  | some i => .argument i
  | none =>
    match s.root.procedures.indexOf? name with
    | some p => .procedure p (s.pointers.pointerTo 0 p).1
    | none => .global (s.declare name).1

/-- `t` knows every procedure, slot and function pointer that `s` knows, and no global of `s` that
was no procedure has become one. -/
structure Keeps (s t : CompileState) : Prop where
  procedure : ∀ name p, s.root.procedures.indexOf? name = some p →
    t.root.procedures.indexOf? name = some p
  slot : ∀ name i, s.root.symbols.indexOf? name = some i → t.root.symbols.indexOf? name = some i
  pointer : ∀ target k, s.pointers.targets.findIdx? (· == target) = some k →
    t.pointers.targets.findIdx? (· == target) = some k
  unreserved : ∀ name i, s.root.symbols.indexOf? name = some i →
    s.root.procedures.indexOf? name = none → t.root.procedures.indexOf? name = none

namespace Keeps

@[refl] theorem refl (s : CompileState) : s.Keeps s :=
  ⟨fun _ _ h => h, fun _ _ h => h, fun _ _ h => h, fun _ _ _ h => h⟩

theorem trans {s t u : CompileState} (h : s.Keeps t) (k : t.Keeps u) : s.Keeps u where
  procedure name p hp := k.procedure name p (h.procedure name p hp)
  slot name i hi := k.slot name i (h.slot name i hi)
  pointer target n hn := k.pointer target n (h.pointer target n hn)
  unreserved name i hi hp := k.unreserved name i (h.slot name i hi) (h.unreserved name i hi hp)

end Keeps

end CompileState

/-! ### Looking up after appending -/

theorem findIdx?_append_of_some {α : Type} {p : α → Bool} {l more : List α} {i : Nat}
    (h : l.findIdx? p = some i) : (l ++ more).findIdx? p = some i := by
  rw [List.findIdx?_append, h]
  rfl

theorem findIdx?_concat_of_none {α : Type} {p : α → Bool} {l : List α} {a : α}
    (h : l.findIdx? p = none) (ha : p a = true) : (l ++ [a]).findIdx? p = some l.length := by
  simp [List.findIdx?_append, h, List.findIdx?_singleton, ha]

theorem findIdx?_concat_eq_none {α : Type} {p : α → Bool} {l : List α} {a : α} :
    (l ++ [a]).findIdx? p = none ↔ l.findIdx? p = none ∧ p a = false := by
  simp [List.findIdx?_eq_none_iff]

namespace ProcedureTable

theorem indexOf?_reserve (t : ProcedureTable) (name : String) :
    (t.reserve name).2.indexOf? name = some (t.reserve name).1 := by
  unfold reserve
  cases h : t.indexOf? name with
  | some i => exact h
  | none => exact findIdx?_concat_of_none h (by simp)

theorem indexOf?_reserve_of_some {t : ProcedureTable} {name n : String} {p : Nat}
    (h : t.indexOf? n = some p) : (t.reserve name).2.indexOf? n = some p := by
  unfold reserve
  cases t.indexOf? name with
  | some i => exact h
  | none => exact findIdx?_append_of_some h

theorem indexOf?_reserve_of_ne {t : ProcedureTable} {name n : String} (hne : n ≠ name)
    (h : t.indexOf? n = none) : (t.reserve name).2.indexOf? n = none := by
  unfold reserve
  cases t.indexOf? name with
  | some i => exact h
  | none => exact findIdx?_concat_eq_none.2 ⟨h, by simpa using hne.symm⟩

theorem reserve_of_some {t : ProcedureTable} {name : String} {p : Nat}
    (h : t.indexOf? name = some p) : t.reserve name = (p, t) := by
  simp [reserve, h]

end ProcedureTable

namespace FunctionPointers

theorem findIdx?_pointerTo (t : FunctionPointers) (block p : Nat) :
    (t.pointerTo block p).2.targets.findIdx? (· == (block, p)) = some (t.pointerTo block p).1 := by
  unfold pointerTo
  cases h : t.targets.findIdx? (· == (block, p)) with
  | some k => exact h
  | none => exact findIdx?_concat_of_none h (by simp)

theorem findIdx?_pointerTo_of_some {t : FunctionPointers} {block p k : Nat} {target : Nat × Nat}
    (h : t.targets.findIdx? (· == target) = some k) :
    (t.pointerTo block p).2.targets.findIdx? (· == target) = some k := by
  unfold pointerTo
  cases t.targets.findIdx? (· == (block, p)) with
  | some i => exact h
  | none => exact findIdx?_append_of_some h

theorem pointerTo_of_some {t : FunctionPointers} {block p k : Nat}
    (h : t.targets.findIdx? (· == (block, p)) = some k) : (t.pointerTo block p).1 = k := by
  simp [pointerTo, h]

end FunctionPointers

namespace CompileState

theorem declare_of_some {s : CompileState} {name : String} {i : Nat}
    (h : s.root.symbols.indexOf? name = some i) : s.declare name = (i, s) := by
  simp [declare, h]

/-- A global that is declared is found afterwards in the slot that it was given. -/
theorem indexOf?_declare (s : CompileState) (name : String) :
    (s.declare name).2.root.symbols.indexOf? name = some (s.declare name).1 := by
  unfold declare
  cases h : s.root.symbols.indexOf? name with
  | some i => exact h
  | none =>
    simp only [SymbolTable.insert, h]
    exact findIdx?_concat_of_none h (by simp)

theorem indexOf?_declare_of_some {s : CompileState} {name n : String} {i : Nat}
    (h : s.root.symbols.indexOf? n = some i) :
    (s.declare name).2.root.symbols.indexOf? n = some i := by
  unfold declare
  cases hn : s.root.symbols.indexOf? name with
  | some i => exact h
  | none =>
    simp only [SymbolTable.insert, hn]
    exact findIdx?_append_of_some h

@[simp] theorem declare_procedures (s : CompileState) (name : String) :
    (s.declare name).2.root.procedures = s.root.procedures := by
  unfold declare
  split <;> rfl

@[simp] theorem declare_pointers (s : CompileState) (name : String) :
    (s.declare name).2.pointers = s.pointers := by
  unfold declare
  split <;> rfl

theorem keeps_declare (s : CompileState) (name : String) : s.Keeps (s.declare name).2 where
  procedure _ _ h := by rwa [declare_procedures]
  slot _ _ h := indexOf?_declare_of_some h
  pointer _ _ h := by rwa [declare_pointers]
  unreserved _ _ _ h := by rwa [declare_procedures]

/-- Reserving a name that is no global keeps all meanings. -/
theorem keeps_reserve {s : CompileState} {name : String}
    (h : s.root.symbols.indexOf? name = none ∨ ∃ p, s.root.procedures.indexOf? name = some p) :
    s.Keeps (s.reserve name).2 where
  procedure _ _ hp := ProcedureTable.indexOf?_reserve_of_some hp
  slot _ _ hi := hi
  pointer _ _ hk := hk
  unreserved n i hi hp := by
    rcases h with h | ⟨p, h⟩
    · refine ProcedureTable.indexOf?_reserve_of_ne ?_ hp
      rintro rfl
      simp [h] at hi
    · simpa [reserve, ProcedureTable.reserve_of_some h] using hp

end CompileState

/-! ### Emitting keeps the meaning of names -/

theorem keeps_emitName (scope : Scope) (name : String) (m : Emission) :
    m.state.Keeps (emitName scope name m).2.state := by
  unfold emitName
  split
  · rfl
  · split
    · exact ⟨fun _ _ h => h, fun _ _ h => h,
        fun _ _ h => FunctionPointers.findIdx?_pointerTo_of_some h, fun _ _ _ h => h⟩
    · split
      · rfl
      · have h := m.state.keeps_declare name
        exact ⟨h.procedure, h.slot, h.pointer, h.unreserved⟩

theorem keeps_resolveCallee (scope : Scope) (name : String) (argc : Nat) (m : Emission) :
    m.state.Keeps (resolveCallee scope name argc m).2.state := by
  unfold resolveCallee
  split
  · rfl
  · split
    · rfl
    · rename_i hname
      have hk : m.state.Keeps (m.state.reserve name).2 := by
        refine CompileState.keeps_reserve ?_
        cases hp : m.state.root.procedures.indexOf? name with
        | some p => exact .inr ⟨p, rfl⟩
        | none =>
          cases hs : m.state.root.symbols.indexOf? name with
          | none => exact .inl rfl
          | some i => exact (hname i hp hs).elim
      dsimp only
      split
      · split <;> exact hk
      · split
        · exact hk
        · exact ⟨hk.procedure, hk.slot, hk.pointer, hk.unreserved⟩

/-! ### What every step of an emission respects -/

/-- A relation between emissions that can be followed through an emission step by step. -/
structure Respected (scope : Scope) (R : Emission → Emission → Prop) : Prop where
  refl : ∀ m, R m m
  trans : ∀ {m m' m''}, R m m' → R m' m'' → R m m''
  name : ∀ n m, R m (emitName scope n m).2
  callee : ∀ n argc m, R m (resolveCallee scope n argc m).2
  use : ∀ p m, R m (m.use p)

namespace Respected

variable {scope : Scope} {R : Emission → Emission → Prop}

mutual

theorem emit (h : Respected scope R) (base : Nat) :
    (e : Expr) → (m : Emission) → R m (emit scope base e m).2
  | .null, m | .bool _, m | .int _, m | .double _, m | .str _, m => h.refl m
  | .name n, m => h.name n m
  | .array items, m => h.emitAll base items m
  | .index target i, m => h.trans (h.emit base target m) (h.emit _ i _)
  | .call n args, m => by
    have hc := h.callee n args.length m
    simp only [Reflow.emit]
    rcases hr : resolveCallee scope n args.length m with ⟨⟨p⟩ | ⟨load⟩, m'⟩ <;>
      simp only [hr] at hc ⊢
    · exact h.trans (h.trans hc (h.emitAll base args m')) (h.use p _)
    · exact h.trans hc (h.emitAll (base + 1) args m')
  | .unary _ operand, m => h.emit base operand m
  | .binary _ lhs rhs, m => h.trans (h.emit base lhs m) (h.emit _ rhs _)
  | .cond test yes no, m =>
    h.trans (h.trans (h.emit base test m) (h.emit _ yes _)) (h.emit _ no _)

theorem emitAll (h : Respected scope R) (base : Nat) :
    (es : List Expr) → (m : Emission) → R m (emitAll scope base es m).2
  | [], m => h.refl m
  | e :: es, m => h.trans (h.emit base e m) (h.emitAll _ es _)

end

end Respected

/-- No step of an emission changes the meaning of a name. -/
theorem respected_keeps (scope : Scope) :
    Respected scope fun m m' => m.state.Keeps m'.state where
  refl m := .refl m.state
  trans := .trans
  name := keeps_emitName scope
  callee := keeps_resolveCallee scope
  use _ m := .refl m.state

theorem keeps_emit (scope : Scope) (base : Nat) (e : Expr) (m : Emission) :
    m.state.Keeps (emit scope base e m).2.state := (respected_keeps scope).emit base e m

theorem keeps_emitAll (scope : Scope) (base : Nat) (es : List Expr) (m : Emission) :
    m.state.Keeps (emitAll scope base es m).2.state := (respected_keeps scope).emitAll base es m

/-! ### The code of an expression -/

mutual

/-- The code of an expression that starts at the place `base`, the names being given. -/
def Expr.code (σ : Naming) (base : Nat) : Expr → List Instruction
  | .null => [.pushNull]
  | .bool b => [.pushBool b]
  | .int n => [.pushInt n]
  | .double x => [.pushDouble x]
  | .str s => [.pushString s]
  | .name n => [(σ n).load]
  | .array items => Expr.codeAll σ base items ++ [.makeArray items.length]
  | .index target i =>
    let code := Expr.code σ base target
    code ++ Expr.code σ (base + code.length) i ++ [.index]
  | .call callee args =>
    match σ callee with
    | .procedure p _ => Expr.codeAll σ base args ++ [.call p args.length]
    | r => r.load :: (Expr.codeAll σ (base + 1) args ++ [.callPointer args.length])
  | .unary op operand => Expr.code σ base operand ++ [.unary op]
  | .binary op lhs rhs =>
    let code := Expr.code σ base lhs
    code ++ Expr.code σ (base + code.length) rhs ++ [.binary op]
  | .cond test yes no =>
    let testCode := Expr.code σ base test
    let yesBase := base + testCode.length + 1
    let yesCode := Expr.code σ yesBase yes
    let noBase := yesBase + yesCode.length + 1
    let noCode := Expr.code σ noBase no
    testCode ++ .jumpIfFalse noBase :: yesCode ++ .jump (noBase + noCode.length) :: noCode

/-- The code of some expressions one after the other, the names being given. -/
def Expr.codeAll (σ : Naming) (base : Nat) : List Expr → List Instruction
  | [] => []
  | e :: es =>
    let code := Expr.code σ base e
    code ++ Expr.codeAll σ (base + code.length) es

end

/-! ### What an expression refers to -/

mutual

/-- All instructions by which an expression refers to something outside of it, which are those that
push what a name stands for and those that call, have the property `P`. -/
def Expr.Refers (σ : Naming) (P : Instruction → Prop) : Expr → Prop
  | .null | .bool _ | .int _ | .double _ | .str _ => True
  | .name n => P (σ n).load
  | .array items => Expr.RefersAll σ P items
  | .index target i => Expr.Refers σ P target ∧ Expr.Refers σ P i
  | .call callee args =>
    (match σ callee with
      | .procedure p _ => P (.call p args.length)
      | r => P r.load ∧ P (.callPointer args.length)) ∧ Expr.RefersAll σ P args
  | .unary _ operand => Expr.Refers σ P operand
  | .binary _ lhs rhs => Expr.Refers σ P lhs ∧ Expr.Refers σ P rhs
  | .cond test yes no => Expr.Refers σ P test ∧ Expr.Refers σ P yes ∧ Expr.Refers σ P no

/-- All instructions by which some expressions refer to something outside of them have the property
`P`. -/
def Expr.RefersAll (σ : Naming) (P : Instruction → Prop) : List Expr → Prop
  | [] => True
  | e :: es => Expr.Refers σ P e ∧ Expr.RefersAll σ P es

end

section Refers

variable {σ : Naming} {P Q : Instruction → Prop}

mutual

theorem Expr.Refers.imp (h : ∀ i, P i → Q i) : (e : Expr) → e.Refers σ P → e.Refers σ Q
  | .null, _ | .bool _, _ | .int _, _ | .double _, _ | .str _, _ => trivial
  | .name _, hp => h _ hp
  | .array items, hp => Expr.RefersAll.imp h items hp
  | .index target i, hp => ⟨Expr.Refers.imp h target hp.1, Expr.Refers.imp h i hp.2⟩
  | .call callee args, hp => by
    refine ⟨?_, Expr.RefersAll.imp h args hp.2⟩
    have hc := hp.1
    cases hσ : σ callee with
    | procedure p pointer =>
      rw [hσ] at hc
      exact h _ hc
    | argument i | global slot =>
      rw [hσ] at hc
      exact ⟨h _ hc.1, h _ hc.2⟩
  | .unary _ operand, hp => Expr.Refers.imp h operand hp
  | .binary _ lhs rhs, hp => ⟨Expr.Refers.imp h lhs hp.1, Expr.Refers.imp h rhs hp.2⟩
  | .cond test yes no, hp =>
    ⟨Expr.Refers.imp h test hp.1, Expr.Refers.imp h yes hp.2.1, Expr.Refers.imp h no hp.2.2⟩

theorem Expr.RefersAll.imp (h : ∀ i, P i → Q i) :
    (es : List Expr) → Expr.RefersAll σ P es → Expr.RefersAll σ Q es
  | [], _ => trivial
  | e :: es, hp => ⟨Expr.Refers.imp h e hp.1, Expr.RefersAll.imp h es hp.2⟩

end

mutual

/-- An expression refers by instructions of its code. -/
theorem Expr.refers_of_code (base : Nat) : (e : Expr) → (∀ i ∈ e.code σ base, P i) → e.Refers σ P
  | .null, _ | .bool _, _ | .int _, _ | .double _, _ | .str _, _ => trivial
  | .name n, h => h _ List.mem_cons_self
  | .array items, h =>
    Expr.refersAll_of_code base items fun i hi => h i (List.mem_append_left _ hi)
  | .index target i, h =>
    ⟨Expr.refers_of_code base target fun j hj =>
        h j (List.mem_append_left _ (List.mem_append_left _ hj)),
      Expr.refers_of_code (base + (target.code σ base).length) i fun j hj =>
        h j (List.mem_append_left _ (List.mem_append_right _ hj))⟩
  | .call callee args, h => by
    simp only [Expr.code] at h
    simp only [Expr.Refers]
    cases hσ : σ callee with
    | procedure p pointer =>
      simp only [hσ] at h
      exact ⟨h _ (by simp), Expr.refersAll_of_code base args fun i hi =>
        h i (List.mem_append_left _ hi)⟩
    | argument k | global k =>
      simp only [hσ] at h
      exact ⟨⟨h _ (by simp), h _ (by simp)⟩,
        Expr.refersAll_of_code (base + 1) args fun i hi => h i (by simp [hi])⟩
  | .unary op operand, h => Expr.refers_of_code base operand fun i hi =>
      h i (List.mem_append_left _ hi)
  | .binary op lhs rhs, h =>
    ⟨Expr.refers_of_code base lhs fun j hj =>
        h j (List.mem_append_left _ (List.mem_append_left _ hj)),
      Expr.refers_of_code (base + (lhs.code σ base).length) rhs fun j hj =>
        h j (List.mem_append_left _ (List.mem_append_right _ hj))⟩
  | .cond test yes no, h => by
    simp only [Expr.code, List.mem_append, List.mem_cons] at h
    exact ⟨Expr.refers_of_code base test fun i hi => h i (.inl (.inl hi)),
      Expr.refers_of_code _ yes fun i hi => h i (.inl (.inr (.inr hi))),
      Expr.refers_of_code _ no fun i hi => h i (.inr (.inr hi))⟩

theorem Expr.refersAll_of_code (base : Nat) : (es : List Expr) →
    (∀ i ∈ Expr.codeAll σ base es, P i) → Expr.RefersAll σ P es
  | [], _ => trivial
  | e :: es, h =>
    ⟨Expr.refers_of_code base e fun i hi => h i (List.mem_append_left _ hi),
      Expr.refersAll_of_code (base + (e.code σ base).length) es fun i hi =>
        h i (List.mem_append_right _ hi)⟩

end

end Refers

/-! ### The emitted code -/

/-- The code of a name pushes what the name stands for from then on. -/
theorem emitName_fst {scope : Scope} {name : String} {m : Emission} {t : CompileState}
    (h : (emitName scope name m).2.state.Keeps t) :
    (emitName scope name m).1 = (t.naming scope name).load := by
  unfold emitName at h ⊢
  unfold CompileState.naming
  cases hparam : scope.params.findIdx? (· == name) with
  | some i => rfl
  | none =>
    simp only [hparam] at h
    cases hp : m.state.root.procedures.indexOf? name with
    | some p =>
      simp only [hp] at h
      have hp' : t.root.procedures.indexOf? name = some p := h.procedure name p hp
      have hk := h.pointer (0, p) _ (FunctionPointers.findIdx?_pointerTo _ 0 p)
      simp only [hp', FunctionPointers.pointerTo_of_some hk]
      rfl
    | none =>
      simp only [hp] at h
      cases hs : m.state.root.symbols.indexOf? name with
      | some i =>
        simp only [hs] at h
        have hp' : t.root.procedures.indexOf? name = none := h.unreserved name i hs hp
        simp only [hp', CompileState.declare_of_some (h.slot name i hs)]
        rfl
      | none =>
        simp only [hs] at h
        have hs' := CompileState.indexOf?_declare m.state name
        have hp' : t.root.procedures.indexOf? name = none :=
          h.unreserved name _ hs' (by rwa [← CompileState.declare_procedures] at hp)
        simp only [hp', CompileState.declare_of_some (h.slot name _ hs')]
        rfl

/-- How a call reaches its function, by what the callee's name stands for. -/
def Referent.callee : Referent → Callee
  | procedure p _ => .direct p
  | r => .value r.load

theorem resolveCallee_fst {scope : Scope} {name : String} {argc : Nat} {m : Emission}
    {t : CompileState} (h : (resolveCallee scope name argc m).2.state.Keeps t) :
    (resolveCallee scope name argc m).1 = (t.naming scope name).callee := by
  unfold resolveCallee at h ⊢
  unfold CompileState.naming
  cases hparam : scope.params.findIdx? (· == name) with
  | some i => rfl
  | none =>
    simp only [hparam] at h
    split at h
    · rename_i slot hp hs
      have hp' : t.root.procedures.indexOf? name = none := h.unreserved name slot hs hp
      simp only [hp', CompileState.declare_of_some (h.slot name slot hs)]
      rfl
    · rename_i hname
      -- whatever is noted besides, the name is a procedure from now on
      have hreserve : (m.state.reserve name).2.root.procedures.indexOf? name =
          some (m.state.reserve name).1 := ProcedureTable.indexOf?_reserve _ _
      have hp' : t.root.procedures.indexOf? name = some (m.state.reserve name).1 := by
        refine h.procedure name _ ?_
        split
        · split <;> exact hreserve
        · split <;> exact hreserve
      simp only [hp']
      split
      · split <;> rfl
      · split <;> rfl

mutual

/-- Emitted code is the code of the expression under the names of any later state. -/
theorem emit_code {scope : Scope} {t : CompileState} (base : Nat) : (e : Expr) → (m : Emission) →
    (emit scope base e m).2.state.Keeps t →
      (emit scope base e m).1 = e.code (t.naming scope) base
  | .null, _, _ | .bool _, _, _ | .int _, _, _ | .double _, _, _ | .str _, _, _ => rfl
  | .name n, m, h => by
    simp only [emit, Expr.code, emitName_fst h]
  | .array items, m, h => by
    simp only [emit, Expr.code, emitAll_code base items m h]
  | .index target i, m, h => by
    have ht := emit_code base target m ((keeps_emit scope _ i _).trans h)
    have hi := emit_code _ i _ h
    simp only [emit, Expr.code, ← ht, ← hi]
  | .call callee args, m, h => by
    have hk := keeps_resolveCallee scope callee args.length m
    simp only [emit, Expr.code] at h ⊢
    have hc : (resolveCallee scope callee args.length m).2.state.Keeps t → _ :=
      resolveCallee_fst
    rcases hr : resolveCallee scope callee args.length m with ⟨⟨p⟩ | ⟨load⟩, m'⟩
    · simp only [hr] at h hc ⊢
      have hcallee := hc ((keeps_emitAll scope base args m').trans h)
      cases hn : t.naming scope callee with
      | procedure q pointer =>
        rw [hn] at hcallee
        obtain rfl : p = q := by simpa [Referent.callee] using hcallee
        simp only [emitAll_code base args m' h]
      | argument i => simp [hn, Referent.callee] at hcallee
      | global slot => simp [hn, Referent.callee] at hcallee
    · simp only [hr] at h hc ⊢
      have hcallee := hc ((keeps_emitAll scope (base + 1) args m').trans h)
      cases hn : t.naming scope callee with
      | procedure q pointer => simp [hn, Referent.callee] at hcallee
      | argument i =>
        rw [hn] at hcallee
        obtain rfl : load = _ := by simpa [Referent.callee] using hcallee
        simp only [emitAll_code (base + 1) args m' h]
      | global slot =>
        rw [hn] at hcallee
        obtain rfl : load = _ := by simpa [Referent.callee] using hcallee
        simp only [emitAll_code (base + 1) args m' h]
  | .unary op operand, m, h => by
    simp only [emit, Expr.code, emit_code base operand m h]
  | .binary op lhs rhs, m, h => by
    have hl := emit_code base lhs m ((keeps_emit scope _ rhs _).trans h)
    have hr := emit_code _ rhs _ h
    simp only [emit, Expr.code, ← hl, ← hr]
  | .cond test yes no, m, h => by
    have hno := emit_code _ no _ h
    have hyes := emit_code _ yes _ ((keeps_emit scope _ no _).trans h)
    have htest := emit_code base test m
      ((keeps_emit scope _ yes _).trans ((keeps_emit scope _ no _).trans h))
    simp only [emit, Expr.code, ← htest, ← hyes, ← hno]

theorem emitAll_code {scope : Scope} {t : CompileState} (base : Nat) : (es : List Expr) →
    (m : Emission) → (emitAll scope base es m).2.state.Keeps t →
      (emitAll scope base es m).1 = Expr.codeAll (t.naming scope) base es
  | [], _, _ => rfl
  | e :: es, m, h => by
    have he := emit_code base e m ((keeps_emitAll scope _ es _).trans h)
    have hes := emitAll_code _ es _ h
    simp only [emitAll, Expr.codeAll, ← he, ← hes]

end

end Reflow
