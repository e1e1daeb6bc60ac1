import Mathlib.Data.List.Induction
import Reflow.Proofs.Code.Naming
/-!
# Names as programs mention them

Whether a name is a variable or a function is settled by what the program has said so far. The first
mention decides: a name that is first called is a function, and one that is first read or assigned is a
variable. A definition makes a function of whatever the name was. Nothing makes a variable of a function
again.

The tables of a program agree with that, since an emission looks at names in the order in which the
expression mentions them.

## Main definitions

* `Mention`: a mention of a name, with `Expr.mentions` and `Statement.mentions`.
* `Expr.calls`: the calls in an expression.
* `NameKind`, `kindOf`, `kindAfter`: what a name is after some mentions, and after a text.
* `CompileState.kindOf`: what a name is by the tables of a program.

## Main results

* `kindOf_eq_unknown_iff`, `kindOf_eq_function_iff`: what makes a function of a name.
* `Expr.call_mem_mentions`: a call in an expression is a mention.
* `kindOf_emit`: an emission makes of names what the mentions in its expression make of them.
-/

namespace Reflow

/-- A mention of a name that is no parameter. -/
inductive Mention
  /-- The name is read or assigned. -/
  | value (name : String)
  | call (name : String)
  | definition (name : String)
  deriving Repr, DecidableEq

/-- The name that is mentioned. -/
def Mention.name : Mention → String
  | value name | call name | definition name => name

mutual

/-- The mentions in an expression, in the order of its code, where a callee comes before its arguments. -/
def Expr.mentions (params : List String) : Expr → List Mention
  | .null | .bool _ | .int _ | .double _ | .str _ => []
  | .name n => if n ∈ params then [] else [.value n]
  | .array items => Expr.mentionsAll params items
  | .index target i => Expr.mentions params target ++ Expr.mentions params i
  | .call callee args =>
    (if callee ∈ params then [] else [.call callee]) ++ Expr.mentionsAll params args
  | .unary _ operand => Expr.mentions params operand
  | .binary _ lhs rhs => Expr.mentions params lhs ++ Expr.mentions params rhs
  | .cond test yes no =>
    Expr.mentions params test ++ Expr.mentions params yes ++ Expr.mentions params no

/-- The mentions in some expressions, one after the other. -/
def Expr.mentionsAll (params : List String) : List Expr → List Mention
  | [] => []
  | e :: es => Expr.mentions params e ++ Expr.mentionsAll params es

end

/-- The mentions in a statement, which begin with the name that it binds. -/
def Statement.mentions : Statement → List Mention
  | .assign target value => .value target :: value.mentions []
  | .define name params body => .definition name :: body.mentions params

mutual

/-- The calls in an expression, each with its arguments. -/
def Expr.calls : Expr → List (String × List Expr)
  | .null | .bool _ | .int _ | .double _ | .str _ | .name _ => []
  | .array items => Expr.callsAll items
  | .index target i => Expr.calls target ++ Expr.calls i
  | .call callee args => (callee, args) :: Expr.callsAll args
  | .unary _ operand => Expr.calls operand
  | .binary _ lhs rhs => Expr.calls lhs ++ Expr.calls rhs
  | .cond test yes no => Expr.calls test ++ Expr.calls yes ++ Expr.calls no

/-- The calls in some expressions. -/
def Expr.callsAll : List Expr → List (String × List Expr)
  | [] => []
  | e :: es => Expr.calls e ++ Expr.callsAll es

end

section Calls

variable {params : List String} {f : String} {args : List Expr}

mutual

/-- A call in an expression is a mention of the callee. -/
theorem Expr.call_mem_mentions (hf : f ∉ params) :
    (e : Expr) → (f, args) ∈ e.calls → .call f ∈ e.mentions params
  | .array items, h => Expr.call_mem_mentionsAll hf items h
  | .index target i, h => by
    rw [mentions]
    rcases List.mem_append.1 h with h | h
    · exact List.mem_append_left _ (Expr.call_mem_mentions hf target h)
    · exact List.mem_append_right _ (Expr.call_mem_mentions hf i h)
  | .call callee operands, h => by
    rw [mentions]
    rcases List.mem_cons.1 h with h | h
    · cases h
      rw [if_neg hf]
      exact List.mem_cons_self
    · exact List.mem_append_right _ (Expr.call_mem_mentionsAll hf operands h)
  | .unary op operand, h => Expr.call_mem_mentions hf operand h
  | .binary op lhs rhs, h => by
    rw [mentions]
    rcases List.mem_append.1 h with h | h
    · exact List.mem_append_left _ (Expr.call_mem_mentions hf lhs h)
    · exact List.mem_append_right _ (Expr.call_mem_mentions hf rhs h)
  | .cond test yes no, h => by
    rw [mentions]
    rcases List.mem_append.1 h with h | h
    · rcases List.mem_append.1 h with h | h
      · exact List.mem_append_left _ (List.mem_append_left _ (Expr.call_mem_mentions hf test h))
      · exact List.mem_append_left _ (List.mem_append_right _ (Expr.call_mem_mentions hf yes h))
    · exact List.mem_append_right _ (Expr.call_mem_mentions hf no h)

theorem Expr.call_mem_mentionsAll (hf : f ∉ params) :
    (es : List Expr) → (f, args) ∈ Expr.callsAll es → .call f ∈ Expr.mentionsAll params es
  | e :: es, h => by
    rw [mentionsAll]
    rcases List.mem_append.1 h with h | h
    · exact List.mem_append_left _ (Expr.call_mem_mentions hf e h)
    · exact List.mem_append_right _ (Expr.call_mem_mentionsAll hf es h)

end

end Calls

/-- What a name is. -/
inductive NameKind
  | unknown | global | function
  deriving Repr, DecidableEq

/-- What a name is after one more mention. -/
def NameKind.after (name : String) (kind : NameKind) : Mention → NameKind
  | .value n => if n = name ∧ kind = .unknown then .global else kind
  | .call n => if n = name ∧ kind = .unknown then .function else kind
  | .definition n => if n = name then .function else kind

/-- What a name is after some more mentions. -/
def NameKind.afterAll (name : String) (kind : NameKind) (mentions : List Mention) : NameKind :=
  mentions.foldl (NameKind.after name) kind

/-- What a name is after some mentions, if it was unknown before. -/
def kindOf (name : String) (mentions : List Mention) : NameKind :=
  NameKind.unknown.afterAll name mentions

/-- What a name is after a text. -/
def kindAfter (text : List Statement) (name : String) : NameKind :=
  kindOf name (text.flatMap Statement.mentions)

/-! ### What makes a function of a name -/

section Kinds

variable {name : String} {kind : NameKind} {ms : List Mention} {m : Mention}

theorem NameKind.afterAll_append (name : String) (kind : NameKind) (ms more : List Mention) :
    kind.afterAll name (ms ++ more) = (kind.afterAll name ms).afterAll name more := List.foldl_append

theorem kindOf_append (name : String) (ms more : List Mention) :
    kindOf name (ms ++ more) = (kindOf name ms).afterAll name more :=
  NameKind.afterAll_append name .unknown ms more

theorem kindOf_concat (name : String) (ms : List Mention) (m : Mention) :
    kindOf name (ms ++ [m]) = (kindOf name ms).after name m := kindOf_append name ms [m]

theorem NameKind.after_eq_unknown : kind.after name m = .unknown ↔ kind = .unknown ∧ m.name ≠ name := by
  cases m <;> grind [after, Mention.name]

theorem NameKind.after_eq_function : kind.after name m = .function ↔
    kind = .function ∨ m = .definition name ∨ kind = .unknown ∧ m = .call name := by
  cases m <;> grind [after]

theorem NameKind.eq_global (hknown : kind ≠ .unknown) (hkind : kind ≠ .function) : kind = .global := by
  cases kind with
  | unknown => exact absurd rfl hknown
  | global => rfl
  | function => exact absurd rfl hkind

/-- The mention of another name makes no difference. -/
theorem NameKind.after_of_ne (h : m.name ≠ name) : kind.after name m = kind := by
  cases m <;> grind [after, Mention.name]

/-- A name is unknown as long as nothing mentions it. -/
theorem kindOf_eq_unknown_iff : kindOf name ms = .unknown ↔ ∀ m ∈ ms, m.name ≠ name := by
  induction ms using List.reverseRecOn with
  | nil => simp [kindOf, NameKind.afterAll]
  | append_singleton ms m ih => simp [kindOf_concat, NameKind.after_eq_unknown, ih, or_imp, forall_and]

/-- A name is a function if it is defined, or if its first mention is a call. -/
theorem kindOf_eq_function_iff : kindOf name ms = .function ↔ .definition name ∈ ms ∨
    ∃ before after, ms = before ++ .call name :: after ∧ ∀ m ∈ before, m.name ≠ name := by
  induction ms using List.reverseRecOn with
  | nil => simp [kindOf, NameKind.afterAll]
  | append_singleton ms m ih =>
    rw [kindOf_concat, NameKind.after_eq_function, ih, kindOf_eq_unknown_iff, List.mem_append,
      List.mem_singleton]
    constructor
    · rintro ((hdefined | ⟨before, after, rfl, hbefore⟩) | rfl | ⟨hunknown, rfl⟩)
      · exact .inl (.inl hdefined)
      · exact .inr ⟨before, after ++ [m], by simp, hbefore⟩
      · exact .inl (.inr rfl)
      · exact .inr ⟨ms, [], rfl, hunknown⟩
    · rintro ((hdefined | rfl) | ⟨before, after, heq, hbefore⟩)
      · exact .inl (.inl hdefined)
      · exact .inr (.inl rfl)
      · rcases after.eq_nil_or_concat with rfl | ⟨after, last, rfl⟩
        · obtain ⟨rfl, hm⟩ := List.append_inj' heq rfl
          exact .inr (.inr ⟨hbefore, List.head_eq_of_cons_eq hm⟩)
        · rw [List.concat_eq_append, ← List.cons_append, ← List.append_assoc] at heq
          obtain ⟨rfl, -⟩ := List.append_inj' heq rfl
          exact .inl (.inr ⟨before, after, rfl, hbefore⟩)

/-- A statement makes of names what its mentions make of them. -/
theorem kindAfter_concat (text : List Statement) (s : Statement) (name : String) :
    kindAfter (text ++ [s]) name = (kindAfter text name).afterAll name s.mentions := by
  rw [kindAfter, List.flatMap_append, kindOf_append, List.flatMap_singleton, kindAfter]

/-- What the last statement mentions is known after it. -/
theorem kindAfter_concat_ne_unknown (text : List Statement) {s : Statement} (hm : m ∈ s.mentions) :
    kindAfter (text ++ [s]) m.name ≠ .unknown := fun hunknown =>
  kindOf_eq_unknown_iff.1 hunknown m
    (List.mem_flatMap.2 ⟨s, List.mem_append_right _ List.mem_cons_self, hm⟩) rfl

end Kinds

/-! ### The tables of a program -/

namespace CompileState

/-- What a name is by the tables of a program, which look for functions first. -/
def kindOf (s : CompileState) (name : String) : NameKind :=
  match s.root.procedures.indexOf? name, s.root.symbols.indexOf? name with
  | some _, _ => .function
  | none, some _ => .global
  | none, none => .unknown

variable {s t : CompileState} {name : String}

theorem kindOf_eq_function : s.kindOf name = .function ↔
    ∃ p, s.root.procedures.indexOf? name = some p := by
  unfold kindOf
  cases s.root.procedures.indexOf? name <;> cases s.root.symbols.indexOf? name <;> simp

theorem kindOf_eq_global : s.kindOf name = .global ↔
    s.root.procedures.indexOf? name = none ∧ ∃ slot, s.root.symbols.indexOf? name = some slot := by
  unfold kindOf
  cases s.root.procedures.indexOf? name <;> cases s.root.symbols.indexOf? name <;> simp

/-- Names are what they are by the tables of procedures and globals only. -/
theorem kindOf_congr (hprocedures : t.root.procedures.indexOf? name = s.root.procedures.indexOf? name)
    (hsymbols : t.root.symbols.indexOf? name = s.root.symbols.indexOf? name) :
    t.kindOf name = s.kindOf name := by
  rw [kindOf, hprocedures, hsymbols, kindOf]

/-- Reading or assigning a name that is known makes no difference. -/
theorem kindOf_after_value {n : String} (h : s.kindOf n ≠ .unknown) (name : String) :
    (s.kindOf name).after name (.value n) = s.kindOf name :=
  if_neg fun ⟨hn, hunknown⟩ => h (hn ▸ hunknown)

/-- Calling a name that is known makes no difference. -/
theorem kindOf_after_call {n : String} (h : s.kindOf n ≠ .unknown) (name : String) :
    (s.kindOf name).after name (.call n) = s.kindOf name :=
  if_neg fun ⟨hn, hunknown⟩ => h (hn ▸ hunknown)

theorem indexOf?_declare_of_ne {target : String} (hne : name ≠ target)
    (h : s.root.symbols.indexOf? name = none) :
    (s.declare target).2.root.symbols.indexOf? name = none := by
  unfold declare
  cases htarget : s.root.symbols.indexOf? target with
  | some i => exact h
  | none =>
    simp only [SymbolTable.insert, htarget]
    exact findIdx?_concat_eq_none.2 ⟨h, by simpa using hne.symm⟩

/-- A name that is declared is a global, unless it is a function. -/
theorem kindOf_declare (s : CompileState) (target name : String) :
    (s.declare target).2.kindOf name = (s.kindOf name).after name (.value target) := by
  by_cases hname : target = name
  · subst hname
    have hslot := s.indexOf?_declare target
    rw [kindOf, declare_procedures, hslot, kindOf]
    cases s.root.procedures.indexOf? target <;> cases s.root.symbols.indexOf? target <;>
      simp [NameKind.after]
  · rw [NameKind.after_of_ne (m := .value target) hname]
    refine kindOf_congr (by rw [declare_procedures]) ?_
    cases hslot : s.root.symbols.indexOf? name with
    | some slot => exact indexOf?_declare_of_some hslot
    | none => exact indexOf?_declare_of_ne (Ne.symm hname) hslot

/-- A name that is reserved is a function. -/
theorem kindOf_reserve (s : CompileState) (function name : String) :
    (s.reserve function).2.kindOf name = (s.kindOf name).after name (.definition function) := by
  by_cases hname : function = name
  · subst hname
    rw [NameKind.after, if_pos rfl, kindOf_eq_function]
    exact ⟨_, ProcedureTable.indexOf?_reserve _ _⟩
  · rw [NameKind.after_of_ne (m := .definition function) hname]
    refine kindOf_congr ?_ rfl
    cases hp : s.root.procedures.indexOf? name with
    | some p => exact ProcedureTable.indexOf?_reserve_of_some hp
    | none => exact ProcedureTable.indexOf?_reserve_of_ne (Ne.symm hname) hp

end CompileState

/-! ### Emissions -/

section Emissions

variable {scope : Scope}

theorem findIdx?_eq_none_iff_not_mem {params : List String} {name : String} :
    params.findIdx? (· == name) = none ↔ name ∉ params := by
  simp only [List.findIdx?_eq_none_iff, beq_eq_false_iff_ne]
  exact ⟨fun h hmem => h name hmem rfl, fun h n hn heq => h (heq ▸ hn)⟩

theorem mem_of_findIdx? {params : List String} {name : String} {i : Nat}
    (h : params.findIdx? (· == name) = some i) : name ∈ params := by
  by_contra hname
  rw [findIdx?_eq_none_iff_not_mem.2 hname] at h
  cases h

theorem kindOf_emitName (scope : Scope) (n : String) (m : Emission) (name : String) :
    (emitName scope n m).2.state.kindOf name =
      (m.state.kindOf name).afterAll name (Expr.mentions scope.params (.name n)) := by
  rw [Expr.mentions]
  cases hparam : scope.params.findIdx? (· == n) with
  | some i =>
    simp only [emitName, hparam, if_pos (mem_of_findIdx? hparam)]
    rfl
  | none =>
    rw [if_neg (findIdx?_eq_none_iff_not_mem.1 hparam)]
    cases hp : m.state.root.procedures.indexOf? n with
    | some p =>
      have hknown : m.state.kindOf n ≠ .unknown := by simp [CompileState.kindOf_eq_function.2 ⟨p, hp⟩]
      simp only [emitName, hparam, hp]
      exact (CompileState.kindOf_after_value hknown name).symm
    | none =>
      cases hs : m.state.root.symbols.indexOf? n with
      | some slot =>
        have hknown : m.state.kindOf n ≠ .unknown := by
          simp [CompileState.kindOf_eq_global.2 ⟨hp, slot, hs⟩]
        simp only [emitName, hparam, hp, hs]
        exact (CompileState.kindOf_after_value hknown name).symm
      | none =>
        simp only [emitName, hparam, hp, hs]
        exact m.state.kindOf_declare n name

/-- A callee is reserved, unless it is a global. -/
theorem kindOf_resolveCallee (scope : Scope) (n : String) (argc : Nat) (m : Emission) (name : String) :
    (resolveCallee scope n argc m).2.state.kindOf name =
      (m.state.kindOf name).afterAll name (if n ∈ scope.params then [] else [.call n]) := by
  cases hparam : scope.params.findIdx? (· == n) with
  | some i =>
    simp only [resolveCallee, hparam, if_pos (mem_of_findIdx? hparam)]
    rfl
  | none =>
    rw [if_neg (findIdx?_eq_none_iff_not_mem.1 hparam)]
    change _ = (m.state.kindOf name).after name (.call n)
    unfold resolveCallee
    simp only [hparam]
    split
    · rename_i slot hp hs
      have hknown : m.state.kindOf n ≠ .unknown := by
        simp [CompileState.kindOf_eq_global.2 ⟨hp, slot, hs⟩]
      exact (CompileState.kindOf_after_call hknown name).symm
    · rename_i hname
      -- whatever is noted besides, the name is reserved
      have hreserved : ∀ t : CompileState, t.root.procedures = (m.state.reserve n).2.root.procedures →
          t.root.symbols = (m.state.reserve n).2.root.symbols →
            t.kindOf name = (m.state.kindOf name).after name (.call n) := by
        intro t hprocedures hsymbols
        have hkind : m.state.kindOf n ≠ .global := fun hglobal => by
          obtain ⟨hp, slot, hs⟩ := CompileState.kindOf_eq_global.1 hglobal
          exact hname slot hp hs
        have hsame : t.kindOf name = (m.state.reserve n).2.kindOf name :=
          CompileState.kindOf_congr (by rw [hprocedures]) (by rw [hsymbols])
        rw [hsame, m.state.kindOf_reserve n name]
        by_cases hn : n = name
        · subst hn
          cases hk : m.state.kindOf n <;> simp_all [NameKind.after]
        · simp [NameKind.after, hn]
      split
      · split <;> exact hreserved _ rfl rfl
      · split <;> exact hreserved _ rfl rfl

mutual

/-- An emission makes of names what the mentions in its expression make of them. -/
theorem kindOf_emit (scope : Scope) (base : Nat) (name : String) : (e : Expr) → (m : Emission) →
    (emit scope base e m).2.state.kindOf name =
      (m.state.kindOf name).afterAll name (e.mentions scope.params)
  | .null, m | .bool _, m | .int _, m | .double _, m | .str _, m => rfl
  | .name n, m => kindOf_emitName scope n m name
  | .array items, m => kindOf_emitAll scope base name items m
  | .index target i, m => by
    rw [Expr.mentions, NameKind.afterAll_append, ← kindOf_emit scope base name target m]
    exact kindOf_emit scope _ name i _
  | .call callee args, m => by
    have hcallee := kindOf_resolveCallee scope callee args.length m name
    rw [Expr.mentions, NameKind.afterAll_append, ← hcallee]
    simp only [emit]
    rcases resolveCallee scope callee args.length m with ⟨⟨p⟩ | ⟨load⟩, m'⟩
    · exact kindOf_emitAll scope base name args m'
    · exact kindOf_emitAll scope (base + 1) name args m'
  | .unary op operand, m => kindOf_emit scope base name operand m
  | .binary op lhs rhs, m => by
    rw [Expr.mentions, NameKind.afterAll_append, ← kindOf_emit scope base name lhs m]
    exact kindOf_emit scope _ name rhs _
  | .cond test yes no, m => by
    rw [Expr.mentions, NameKind.afterAll_append, NameKind.afterAll_append,
      ← kindOf_emit scope base name test m, ← kindOf_emit scope _ name yes _]
    exact kindOf_emit scope _ name no _

theorem kindOf_emitAll (scope : Scope) (base : Nat) (name : String) : (es : List Expr) →
    (m : Emission) → (emitAll scope base es m).2.state.kindOf name =
      (m.state.kindOf name).afterAll name (Expr.mentionsAll scope.params es)
  | [], m => rfl
  | e :: es, m => by
    rw [Expr.mentionsAll, NameKind.afterAll_append, ← kindOf_emit scope base name e m]
    exact kindOf_emitAll scope _ name es _

end

end Emissions

end Reflow
