import Reflow.Proofs.Code.Denotation
import Reflow.Proofs.Lang.Meaning
import Reflow.Proofs.Program.Registration
/-!
# Code of plain expressions

A plain expression has no calls, and in a program without functions its names are globals. Its code then
reads the slots of its names and refers to nothing else, and its datum is the value that the expression
has when its names have the values of their slots.

## Main definitions

* `Emission.Notes`: emitting code has noted the names of an expression and nothing else.

## Main results

* `notes_emit`: what emitting the code of a plain expression notes.
* `Expr.code_congr`: the code of an expression depends on what its names stand for only.
* `Expr.datum?_eq_value`: the datum of a plain expression is its value.
-/

namespace Reflow

/-! ### Code and names -/

section Code

variable {σ σ' : Naming}

mutual

/-- The code of an expression depends on what its names stand for only. -/
theorem Expr.code_congr : (e : Expr) → (∀ n ∈ e.names, σ n = σ' n) →
    ∀ base, e.code σ base = e.code σ' base
  | .null, _, _ | .bool _, _, _ | .int _, _, _ | .double _, _, _ | .str _, _, _ => rfl
  | .name n, h, _ => by rw [Expr.code, Expr.code, h n List.mem_cons_self]
  | .array items, h, base => by rw [Expr.code, Expr.code, Expr.codeAll_congr items h]
  | .index target i, h, base => by
    simp only [Expr.code]
    rw [Expr.code_congr target fun n hn => h n (List.mem_append_left _ hn),
      Expr.code_congr i fun n hn => h n (List.mem_append_right _ hn)]
  | .call callee args, h, base => by
    have hargs : ∀ n ∈ Expr.namesOf args, σ n = σ' n := fun n hn => h n (List.mem_cons_of_mem _ hn)
    simp only [Expr.code]
    rw [h callee List.mem_cons_self, Expr.codeAll_congr args hargs,
      Expr.codeAll_congr args hargs]
  | .unary op operand, h, base => by
    rw [Expr.code, Expr.code, Expr.code_congr operand h]
  | .binary op lhs rhs, h, base => by
    simp only [Expr.code]
    rw [Expr.code_congr lhs fun n hn => h n (List.mem_append_left _ hn),
      Expr.code_congr rhs fun n hn => h n (List.mem_append_right _ hn)]
  | .cond test yes no, h, base => by
    simp only [Expr.code]
    rw [Expr.code_congr test fun n hn => h n (List.mem_append_left _ hn),
      Expr.code_congr yes fun n hn => h n (List.mem_append_right _ (List.mem_append_left _ hn)),
      Expr.code_congr no fun n hn => h n (List.mem_append_right _ (List.mem_append_right _ hn))]

theorem Expr.codeAll_congr : (es : List Expr) → (∀ n ∈ Expr.namesOf es, σ n = σ' n) →
    ∀ base, Expr.codeAll σ base es = Expr.codeAll σ' base es
  | [], _, _ => rfl
  | e :: es, h, base => by
    simp only [Expr.codeAll]
    rw [Expr.code_congr e fun n hn => h n (List.mem_append_left _ hn),
      Expr.codeAll_congr es fun n hn => h n (List.mem_append_right _ hn)]

end

end Code

/-! ### What a plain expression refers to -/

section Reading

variable {σ : Naming} {P : Instruction → Prop}

mutual

/-- A plain expression refers to what each of its names stands for. -/
theorem Expr.Refers.of_mem_names : (e : Expr) → e.isPlain = true → e.Refers σ P →
    ∀ n ∈ e.names, P (σ n).load
  | .null, _, _, _, hn | .bool _, _, _, _, hn | .int _, _, _, _, hn | .str _, _, _, _, hn => by cases hn
  | .name _, _, h, n, hn => by
    obtain rfl := List.mem_singleton.1 hn
    exact h
  | .array items, hplain, h, n, hn => by
    simp only [Expr.isPlain, Expr.all, Bool.and_eq_true] at hplain
    exact Expr.RefersAll.of_mem_names items hplain.2 h n hn
  | .index target i, hplain, h, n, hn => by
    simp only [Expr.isPlain, Expr.all, Bool.and_eq_true] at hplain
    rcases List.mem_append.1 hn with hn | hn
    · exact Expr.Refers.of_mem_names target hplain.2.1 h.1 n hn
    · exact Expr.Refers.of_mem_names i hplain.2.2 h.2 n hn
  | .unary op operand, hplain, h, n, hn => by
    simp only [Expr.isPlain, Expr.all, Bool.and_eq_true] at hplain
    exact Expr.Refers.of_mem_names operand hplain.2 h n hn
  | .binary op lhs rhs, hplain, h, n, hn => by
    simp only [Expr.isPlain, Expr.all, Bool.and_eq_true] at hplain
    rcases List.mem_append.1 hn with hn | hn
    · exact Expr.Refers.of_mem_names lhs hplain.2.1 h.1 n hn
    · exact Expr.Refers.of_mem_names rhs hplain.2.2 h.2 n hn
  | .cond test yes no, hplain, h, n, hn => by
    simp only [Expr.isPlain, Expr.all, Bool.and_eq_true] at hplain
    rcases List.mem_append.1 hn with hn | hn
    · exact Expr.Refers.of_mem_names test hplain.2.1 h.1 n hn
    · rcases List.mem_append.1 hn with hn | hn
      · exact Expr.Refers.of_mem_names yes hplain.2.2.1 h.2.1 n hn
      · exact Expr.Refers.of_mem_names no hplain.2.2.2 h.2.2 n hn

theorem Expr.RefersAll.of_mem_names : (es : List Expr) → Expr.allOf Expr.isBasic es = true →
    Expr.RefersAll σ P es → ∀ n ∈ Expr.namesOf es, P (σ n).load
  | [], _, _, _, hn => by cases hn
  | e :: es, hplain, h, n, hn => by
    rw [Expr.allOf, Bool.and_eq_true] at hplain
    rcases List.mem_append.1 hn with hn | hn
    · exact Expr.Refers.of_mem_names e hplain.1 h.1 n hn
    · exact Expr.RefersAll.of_mem_names es hplain.2 h.2 n hn

end

end Reading

/-! ### The datum of a plain expression -/

section Datum

variable {w : Surroundings} {σ : Naming} {args : List Datum} {env : String → Datum}

mutual

/-- The datum of a plain expression is its value, if the slots of its names hold the values of these. -/
theorem Expr.datum?_eq_value : (e : Expr) → e.isPlain = true →
    (∀ n ∈ e.names, ∃ slot, σ n = .global slot ∧ w.slots[slot]? = some (env n)) →
    e.datum? w σ args = some (e.value env)
  | .null, _, _ | .bool _, _, _ | .int _, _, _ | .str _, _, _ => rfl
  | .name n, _, h => by
    obtain ⟨slot, hσ, hslot⟩ := h n List.mem_cons_self
    rw [Expr.datum?, hσ, Expr.value]
    exact hslot
  | .array items, hplain, h => by
    simp only [Expr.isPlain, Expr.all, Bool.and_eq_true] at hplain
    rw [Expr.datum?, Expr.data?_eq_values items hplain.2 h, Expr.value, Option.map_some]
  | .index target i, hplain, h => by
    simp only [Expr.isPlain, Expr.all, Bool.and_eq_true] at hplain
    rw [Expr.datum?,
      Expr.datum?_eq_value target hplain.2.1 fun n hn => h n (List.mem_append_left _ hn),
      Expr.datum?_eq_value i hplain.2.2 fun n hn => h n (List.mem_append_right _ hn), Expr.value]
    rfl
  | .unary op operand, hplain, h => by
    simp only [Expr.isPlain, Expr.all, Bool.and_eq_true] at hplain
    rw [Expr.datum?, Expr.datum?_eq_value operand hplain.2 h, Expr.value, Option.map_some]
  | .binary op lhs rhs, hplain, h => by
    simp only [Expr.isPlain, Expr.all, Bool.and_eq_true] at hplain
    rw [Expr.datum?,
      Expr.datum?_eq_value lhs hplain.2.1 fun n hn => h n (List.mem_append_left _ hn),
      Expr.datum?_eq_value rhs hplain.2.2 fun n hn => h n (List.mem_append_right _ hn), Expr.value]
    rfl
  | .cond test yes no, hplain, h => by
    simp only [Expr.isPlain, Expr.all, Bool.and_eq_true] at hplain
    have hbranches : ∀ n ∈ yes.names ++ no.names, ∃ slot, σ n = .global slot ∧
        w.slots[slot]? = some (env n) := fun n hn => h n (List.mem_append_right _ hn)
    rw [Expr.datum?,
      Expr.datum?_eq_value test hplain.2.1 fun n hn => h n (List.mem_append_left _ hn), Expr.value]
    simp only [Option.bind_eq_bind, Option.bind_some]
    split
    · exact Expr.datum?_eq_value yes hplain.2.2.1 fun n hn =>
        hbranches n (List.mem_append_left _ hn)
    · exact Expr.datum?_eq_value no hplain.2.2.2 fun n hn =>
        hbranches n (List.mem_append_right _ hn)

theorem Expr.data?_eq_values : (es : List Expr) → Expr.allOf Expr.isBasic es = true →
    (∀ n ∈ Expr.namesOf es, ∃ slot, σ n = .global slot ∧ w.slots[slot]? = some (env n)) →
    Expr.data? w σ args es = some (Expr.values env es)
  | [], _, _ => rfl
  | e :: es, hplain, h => by
    rw [Expr.allOf, Bool.and_eq_true] at hplain
    rw [Expr.data?, Expr.datum?_eq_value e hplain.1 fun n hn => h n (List.mem_append_left _ hn),
      Expr.data?_eq_values es hplain.2 fun n hn => h n (List.mem_append_right _ hn), Expr.values]
    rfl

end

end Datum

/-! ### What emitting notes -/

namespace Emission

/-- From `m` to `m'`, emitting has noted the globals of some names and nothing else, and these names
are known from then on. -/
structure Notes (names : List String) (m m' : Emission) : Prop where
  procedures : m'.state.root.procedures = m.state.root.procedures
  calls : m'.calls = m.calls
  slot : ∀ n i, m.state.root.symbols.indexOf? n = some i →
    m'.state.root.symbols.indexOf? n = some i
  known : ∀ n ∈ names, ∃ i, m'.state.root.symbols.indexOf? n = some i
  reads : ∀ i ∈ m'.reads, i ∈ m.reads ∨ ∃ n ∈ names, m'.state.root.symbols.indexOf? n = some i

theorem Notes.refl (m : Emission) : m.Notes [] m :=
  ⟨rfl, rfl, fun _ _ h => h, fun _ h => (by cases h), fun _ h => .inl h⟩

theorem Notes.trans {names names' : List String} {m m' m'' : Emission} (h : Notes names m m')
    (k : Notes names' m' m'') : Notes (names ++ names') m m'' where
  procedures := k.procedures.trans h.procedures
  calls := k.calls.trans h.calls
  slot n i hi := k.slot n i (h.slot n i hi)
  known n hn := by
    rcases List.mem_append.1 hn with hn | hn
    · obtain ⟨i, hi⟩ := h.known n hn
      exact ⟨i, k.slot n i hi⟩
    · exact k.known n hn
  reads i hi := by
    rcases k.reads i hi with hi | ⟨n, hn, hi⟩
    · rcases h.reads i hi with hi | ⟨n, hn, hi⟩
      · exact .inl hi
      · exact .inr ⟨n, List.mem_append_left _ hn, k.slot n i hi⟩
    · exact .inr ⟨n, List.mem_append_right _ hn, hi⟩

end Emission

/-- In a program without functions, a name is a global. -/
theorem notes_emitName (name : String) {m : Emission}
    (hm : m.state.root.procedures.procedures = []) : m.Notes [name] (emitName {} name m).2 := by
  have hnone : m.state.root.procedures.indexOf? name = none := by
    rw [ProcedureTable.indexOf?, hm]
    rfl
  have hread : ∀ (slot : Nat) (s : CompileState),
      s.root.procedures = m.state.root.procedures →
      (∀ n i, m.state.root.symbols.indexOf? n = some i → s.root.symbols.indexOf? n = some i) →
      s.root.symbols.indexOf? name = some slot →
      m.Notes [name] (({ m with state := s } : Emission).read slot) := by
    refine fun slot s hprocedures hkeeps hslot => ⟨hprocedures, rfl, hkeeps, fun n hn => ?_,
      fun i hi => ?_⟩
    · obtain rfl := List.mem_singleton.1 hn
      exact ⟨slot, hslot⟩
    · rcases Emission.mem_read.1 hi with rfl | hi
      · exact .inr ⟨name, List.mem_singleton.2 rfl, hslot⟩
      · exact .inl hi
  simp only [emitName, List.findIdx?_nil, hnone]
  cases hslot : m.state.root.symbols.indexOf? name with
  | some slot => exact hread slot m.state rfl (fun _ _ h => h) hslot
  | none =>
    have hkeeps := m.state.keeps_declare name
    exact hread _ { (m.state.declare name).2 with dynamicVariables := _ }
      (m.state.declare_procedures name) hkeeps.slot (m.state.indexOf?_declare name)

mutual

/-- In a program without functions, emitting the code of a plain expression notes its names. -/
theorem notes_emit (base : Nat) : (e : Expr) → e.isPlain = true → ∀ {m : Emission},
    m.state.root.procedures.procedures = [] → m.Notes e.names (emit {} base e m).2
  | .null, _, m, _ | .bool _, _, m, _ | .int _, _, m, _ | .str _, _, m, _ => .refl m
  | .name n, _, m, hm => notes_emitName n hm
  | .array items, h, m, hm => by
    simp only [Expr.isPlain, Expr.all, Bool.and_eq_true] at h
    exact notes_emitAll base items h.2 hm
  | .index target i, h, m, hm => by
    simp only [Expr.isPlain, Expr.all, Bool.and_eq_true] at h
    have htarget := notes_emit base target h.2.1 hm
    exact htarget.trans (notes_emit _ i h.2.2 (htarget.procedures ▸ hm))
  | .unary op operand, h, m, hm => by
    simp only [Expr.isPlain, Expr.all, Bool.and_eq_true] at h
    exact notes_emit base operand h.2 hm
  | .binary op lhs rhs, h, m, hm => by
    simp only [Expr.isPlain, Expr.all, Bool.and_eq_true] at h
    have hlhs := notes_emit base lhs h.2.1 hm
    exact hlhs.trans (notes_emit _ rhs h.2.2 (hlhs.procedures ▸ hm))
  | .cond test yes no, h, m, hm => by
    simp only [Expr.isPlain, Expr.all, Bool.and_eq_true] at h
    have htest := notes_emit base test h.2.1 hm
    have hm₁ : (emit {} base test m).2.state.root.procedures.procedures = [] :=
      htest.procedures ▸ hm
    have hyes := notes_emit (base + (emit {} base test m).1.length + 1) yes h.2.2.1 hm₁
    exact htest.trans (hyes.trans (notes_emit _ no h.2.2.2 (hyes.procedures ▸ hm₁)))

theorem notes_emitAll (base : Nat) : (es : List Expr) → Expr.allOf Expr.isBasic es = true →
    ∀ {m : Emission}, m.state.root.procedures.procedures = [] →
      m.Notes (Expr.namesOf es) (emitAll {} base es m).2
  | [], _, m, _ => .refl m
  | e :: es, h, m, hm => by
    rw [Expr.allOf, Bool.and_eq_true] at h
    have he := notes_emit base e h.1 hm
    exact he.trans (notes_emitAll _ es h.2 (he.procedures ▸ hm))

end

end Reflow
