import Reflow.Proofs.Lang.Rereading
import Reflow.Proofs.Memory.Calculation
/-!
# What expressions mean

An expression without calls has a value as soon as its names have values. Nothing but these values
counts, and reading the rendered expression again does not change the value. Without double literals the
value is plain data, which stores compare exactly.

## Main definitions

* `Datum.isPlain`: data without doubles and without functions.
* `Expr.value`: the value of an expression, the values of its names being given.

## Main results

* `Datum.eq_of_same`: what stores take for equal to plain data is equal to it.
* `Expr.value_congr`: the value of an expression depends on the values of its names only.
* `Expr.isPlain_value`: the value of a plain expression is plain.
* `Expr.value_reread`: an expression that is read again has the same value.
-/

namespace Reflow

namespace Datum

mutual

/-- Whether a datum holds neither doubles nor functions. -/
def isPlain : Datum → Bool
  | double _ => false
  | function _ _ => false
  | array items => isPlainAll items
  | _ => true

/-- Whether some data hold neither doubles nor functions. -/
def isPlainAll : List Datum → Bool
  | [] => true
  | d :: ds => isPlain d && isPlainAll ds

end

mutual

/-- What stores take for equal to plain data is equal to it. -/
theorem eq_of_same : (d : Datum) → d.isPlain = true → ∀ {c : Datum}, c.same d = true → c = d
  | null, _, c, h => by
    cases c with
    | null => rfl
    | _ => cases h
  | bool b, _, c, h => by
    cases c with
    | bool a => rw [eq_of_beq h]
    | _ => cases h
  | int n, _, c, h => by
    cases c with
    | int k => rw [eq_of_beq h]
    | _ => cases h
  | string s, _, c, h => by
    cases c with
    | string t => rw [eq_of_beq h]
    | _ => cases h
  | array items, hplain, c, h => by
    cases c with
    | array others => rw [eq_of_sameAll items hplain h]
    | _ => cases h

theorem eq_of_sameAll : (ds : List Datum) → isPlainAll ds = true → ∀ {cs : List Datum},
    sameAll cs ds = true → cs = ds
  | [], _, cs, h => by
    cases cs with
    | nil => rfl
    | cons c cs => cases h
  | d :: ds, hplain, cs, h => by
    cases cs with
    | nil => cases h
    | cons c cs =>
      rw [sameAll, Bool.and_eq_true] at h
      rw [isPlainAll, Bool.and_eq_true] at hplain
      rw [eq_of_same d hplain.1 h.1, eq_of_sameAll ds hplain.2 h.2]

end

theorem isPlain_of_mem {d : Datum} {ds : List Datum} (hds : isPlainAll ds = true) (hd : d ∈ ds) :
    d.isPlain = true := by
  induction ds with
  | nil => cases hd
  | cons c cs ih =>
    rw [isPlainAll, Bool.and_eq_true] at hds
    rcases List.mem_cons.1 hd with rfl | hd
    · exact hds.1
    · exact ih hds.2 hd

/-! ### Operations on plain data -/

/-- The elements of plain arrays and the characters of strings are plain. -/
theorem isPlain_index {target : Datum} (h : target.isPlain = true) (i : Datum) :
    (target.index i).isPlain = true := by
  unfold index
  cases i with
  | int position =>
    cases target with
    | array items =>
      cases helement : (resolveIndex? position items.length).bind (items[·]?) with
      | none =>
        simp only [helement]
        rfl
      | some d =>
        obtain ⟨k, -, hk⟩ := Option.bind_eq_some_iff.1 helement
        simp only [helement]
        exact isPlain_of_mem h (List.mem_of_getElem? hk)
    | string s =>
      dsimp only
      split <;> rfl
    | _ => rfl
  | _ => rfl

theorem isPlain_int_or_null (n : Option Int64) : ((n.map int).getD null).isPlain = true := by
  cases n <;> rfl

theorem isPlain_unary (op : UnaryOp) {d : Datum} (h : d.isPlain = true) :
    (d.unary op).isPlain = true := by
  cases op with
  | not => rfl
  | neg =>
    cases d with
    | int n => exact isPlain_int_or_null _
    | double x => cases h
    | _ => rfl

/-- Plain data are calculated with and compared as numbers only if both are whole numbers. -/
theorem isPlain_binary (op : BinaryOp) {a b : Datum} (ha : a.isPlain = true)
    (hb : b.isPlain = true) : (a.binary op b).isPlain = true := by
  have harithmetic : (arithmetic op a b).isPlain = true := by
    cases a with
    | int m =>
      cases b with
      | int n => exact isPlain_int_or_null _
      | double x => cases hb
      | _ => rfl
    | double x => cases ha
    | _ => cases b <;> rfl
  have hcomparison : (comparison op a b).isPlain = true := by
    cases a with
    | int m =>
      cases b with
      | double x => cases hb
      | _ => rfl
    | double x => cases ha
    | _ => cases b <;> rfl
  unfold binary
  cases op with
  | and | or | eq | ne => rfl
  | lt | le | gt | ge => exact hcomparison
  | add =>
    dsimp only
    split
    · rfl
    · exact harithmetic
  | sub | mul | div | mod => exact harithmetic

end Datum

namespace Expr

mutual

/-- The value of an expression whose names have the values in `env`. A call counts as null. -/
def value (env : String → Datum) : Expr → Datum
  | null => .null
  | bool b => .bool b
  | int n => .int n
  | double x => .double x
  | str s => .string s
  | name n => env n
  | array items => .array (values env items)
  | index target i => (value env target).index (value env i)
  | call _ _ => .null
  | unary op operand => (value env operand).unary op
  | binary op lhs rhs => (value env lhs).binary op (value env rhs)
  | cond test yes no => if (value env test).truthy then value env yes else value env no

/-- The values of some expressions. -/
def values (env : String → Datum) : List Expr → List Datum
  | [] => []
  | e :: es => value env e :: values env es

end

section Value

variable {env env' : String → Datum}

mutual

/-- The value of an expression depends on the values of its names only. -/
theorem value_congr : (e : Expr) → (∀ n ∈ e.names, env n = env' n) → e.value env = e.value env'
  | null, _ | bool _, _ | int _, _ | double _, _ | str _, _ | call _ _, _ => rfl
  | name n, h => h n List.mem_cons_self
  | array items, h => by rw [value, value, values_congr items h]
  | index target i, h => by
    rw [value, value, value_congr target fun n hn => h n (List.mem_append_left _ hn),
      value_congr i fun n hn => h n (List.mem_append_right _ hn)]
  | unary op operand, h => by rw [value, value, value_congr operand h]
  | binary op lhs rhs, h => by
    rw [value, value, value_congr lhs fun n hn => h n (List.mem_append_left _ hn),
      value_congr rhs fun n hn => h n (List.mem_append_right _ hn)]
  | cond test yes no, h => by
    rw [value, value, value_congr test fun n hn => h n (List.mem_append_left _ hn),
      value_congr yes fun n hn => h n (List.mem_append_right _ (List.mem_append_left _ hn)),
      value_congr no fun n hn => h n (List.mem_append_right _ (List.mem_append_right _ hn))]

theorem values_congr : (es : List Expr) → (∀ n ∈ namesOf es, env n = env' n) →
    values env es = values env' es
  | [], _ => rfl
  | e :: es, h => by
    rw [values, values, value_congr e fun n hn => h n (List.mem_append_left _ hn),
      values_congr es fun n hn => h n (List.mem_append_right _ hn)]

end

mutual

/-- The value of a plain expression is plain if the values of its names are. -/
theorem isPlain_value : (e : Expr) → e.isPlain = true → (∀ n ∈ e.names, (env n).isPlain = true) →
    (e.value env).isPlain = true
  | null, _, _ | bool _, _, _ | int _, _, _ | str _, _, _ => rfl
  | name n, _, h => h n List.mem_cons_self
  | array items, hplain, h => by
    simp only [isPlain, all, Bool.and_eq_true] at hplain
    exact isPlain_values items hplain.2 h
  | index target i, hplain, h => by
    simp only [isPlain, all, Bool.and_eq_true] at hplain
    exact Datum.isPlain_index
      (isPlain_value target hplain.2.1 fun n hn => h n (List.mem_append_left _ hn)) _
  | unary op operand, hplain, h => by
    simp only [isPlain, all, Bool.and_eq_true] at hplain
    exact Datum.isPlain_unary op (isPlain_value operand hplain.2 h)
  | binary op lhs rhs, hplain, h => by
    simp only [isPlain, all, Bool.and_eq_true] at hplain
    exact Datum.isPlain_binary op
      (isPlain_value lhs hplain.2.1 fun n hn => h n (List.mem_append_left _ hn))
      (isPlain_value rhs hplain.2.2 fun n hn => h n (List.mem_append_right _ hn))
  | cond test yes no, hplain, h => by
    simp only [isPlain, all, Bool.and_eq_true] at hplain
    rw [value]
    split
    · exact isPlain_value yes hplain.2.2.1 fun n hn =>
        h n (List.mem_append_right _ (List.mem_append_left _ hn))
    · exact isPlain_value no hplain.2.2.2 fun n hn =>
        h n (List.mem_append_right _ (List.mem_append_right _ hn))

theorem isPlain_values : (es : List Expr) → allOf isBasic es = true →
    (∀ n ∈ namesOf es, (env n).isPlain = true) → Datum.isPlainAll (values env es) = true
  | [], _, _ => rfl
  | e :: es, hplain, h => by
    rw [allOf, Bool.and_eq_true] at hplain
    rw [values, Datum.isPlainAll, Bool.and_eq_true]
    exact ⟨isPlain_value e hplain.1 fun n hn => h n (List.mem_append_left _ hn),
      isPlain_values es hplain.2 fun n hn => h n (List.mem_append_right _ hn)⟩

end

end Value

/-! ### Reading again -/

/-- An expression that starts with the sign of a number has no elements. -/
theorem index_value_of_signed {env : String → Datum} : (e : Expr) → e.signed = true → ∀ d : Datum,
    (e.value env).index d = .null
  | int n, _, d => by cases d <;> rfl
  | index target i, h, d => by
    rw [value, index_value_of_signed target h]
    cases d <;> rfl

/-- Neither has it without the sign. -/
theorem index_value_magnitude {env : String → Datum} : (e : Expr) → e.signed = true →
    ∀ d : Datum, (e.reread.magnitude.value env).index d = .null
  | int n, _, d => by cases d <;> rfl
  | index target i, h, d => by
    have htarget : target.signed = true := h
    rw [reread, if_pos htarget, magnitude, value, index_value_magnitude target htarget]
    cases d <;> rfl

theorem value_negativeLiteral {env : String → Datum} {op : UnaryOp} {operand : Expr} {n : Int64}
    (h : negativeLiteral? op operand = some n) :
    (int n).value env = (operand.value env).unary op := by
  cases op with
  | not => cases h
  | neg =>
    cases operand with
    | int k =>
      rw [negativeLiteral?] at h
      split at h
      · rename_i hk
        cases h
        have hfit : fit? (-k.toInt) = some (-k) := fit?_eq_some_iff.2 (toInt_neg_of_nonneg hk)
        rw [value, value, Datum.unary, hfit]
        rfl
      · cases h
    | _ => cases h

mutual

/-- An expression that is read again has the same value. -/
theorem value_reread {env : String → Datum} : (e : Expr) → e.reread.value env = e.value env
  | null | bool _ | int _ | double _ | str _ | name _ | call _ _ => rfl
  | array items => by rw [reread, value, value, values_rereadAll items]
  | index target i => by
    rw [reread]
    split
    · rename_i hsigned
      rw [value, value, value, index_value_magnitude target hsigned,
        index_value_of_signed target hsigned]
      rfl
    · rw [value, value, value_reread target, value_reread i]
  | unary op operand => by
    rw [reread]
    split
    · rename_i n hliteral
      rw [value_negativeLiteral hliteral, value]
    · rw [value, value, value_reread operand]
  | binary op lhs rhs => by rw [reread, value, value, value_reread lhs, value_reread rhs]
  | cond test yes no => by
    rw [reread, value, value, value_reread test, value_reread yes, value_reread no]

theorem values_rereadAll {env : String → Datum} : (es : List Expr) →
    values env (rereadAll es) = values env es
  | [] => rfl
  | e :: es => by rw [rereadAll, values, values, value_reread e, values_rereadAll es]

end

/-- A sign holds no names. -/
theorem names_magnitude : (e : Expr) → e.magnitude.names = e.names
  | unary .neg _ => rfl
  | unary .not _ => rfl
  | null | bool _ | int _ | double _ | str _ | name _ | array _ | index _ _ | call _ _
  | binary _ _ _ | cond _ _ _ => rfl

mutual

/-- An expression that is read again has the same names. -/
theorem names_reread : (e : Expr) → e.reread.names = e.names
  | null | bool _ | int _ | double _ | str _ | name _ => rfl
  | array items => namesOf_rereadAll items
  | call callee args => congrArg (callee :: ·) (namesOf_rereadAll args)
  | index target i => by
    rw [reread]
    split
    · rw [names, names, names, names_magnitude, names_reread target, names_reread i]
    · rw [names, names, names_reread target, names_reread i]
  | unary op operand => by
    rw [reread]
    split
    · rename_i n hliteral
      cases op with
      | not => cases hliteral
      | neg =>
        cases operand with
        | int k => rfl
        | _ => cases hliteral
    · rw [names, names, names_reread operand]
  | binary op lhs rhs => by rw [reread, names, names, names_reread lhs, names_reread rhs]
  | cond test yes no => by
    rw [reread, names, names, names_reread test, names_reread yes, names_reread no]

theorem namesOf_rereadAll : (es : List Expr) → namesOf (rereadAll es) = namesOf es
  | [] => rfl
  | e :: es => by rw [rereadAll, namesOf, namesOf, names_reread e, namesOf_rereadAll es]

end

/-- An expression without its sign is plain if it was so. -/
theorem isPlain_magnitude : (e : Expr) → e.isPlain = true → e.magnitude.isPlain = true
  | unary .neg operand, h => by
    simp only [isPlain, all, Bool.and_eq_true] at h
    exact h.2
  | unary .not _, h => h
  | null, h | bool _, h | int _, h | double _, h | str _, h | name _, h | array _, h
  | index _ _, h | call _ _, h | binary _ _ _, h | cond _ _ _, h => h

mutual

/-- A plain expression that is read again is plain. -/
theorem isPlain_reread : (e : Expr) → e.isPlain = true → e.reread.isPlain = true
  | null, h | bool _, h | int _, h | str _, h | name _, h => h
  | array items, h => by
    simp only [isPlain, reread, all, Bool.and_eq_true] at h ⊢
    exact ⟨rfl, isPlain_rereadAll items h.2⟩
  | index target i, h => by
    simp only [isPlain, all, Bool.and_eq_true] at h
    have htarget := isPlain_reread target h.2.1
    have hi := isPlain_reread i h.2.2
    rw [reread]
    split
    · simp only [isPlain, all, Bool.and_eq_true]
      exact ⟨rfl, rfl, isPlain_magnitude _ htarget, hi⟩
    · simp only [isPlain, all, Bool.and_eq_true]
      exact ⟨rfl, htarget, hi⟩
  | unary op operand, h => by
    simp only [isPlain, all, Bool.and_eq_true] at h
    rw [reread]
    split
    · rfl
    · simp only [isPlain, all, Bool.and_eq_true]
      exact ⟨rfl, isPlain_reread operand h.2⟩
  | binary op lhs rhs, h => by
    simp only [isPlain, reread, all, Bool.and_eq_true] at h ⊢
    exact ⟨rfl, isPlain_reread lhs h.2.1, isPlain_reread rhs h.2.2⟩
  | cond test yes no, h => by
    simp only [isPlain, reread, all, Bool.and_eq_true] at h ⊢
    exact ⟨rfl, isPlain_reread test h.2.1, isPlain_reread yes h.2.2.1,
      isPlain_reread no h.2.2.2⟩

theorem isPlain_rereadAll : (es : List Expr) → allOf isBasic es = true →
    allOf isBasic (rereadAll es) = true
  | [], _ => rfl
  | e :: es, h => by
    simp only [rereadAll, allOf, Bool.and_eq_true] at h ⊢
    exact ⟨isPlain_reread e h.1, isPlain_rereadAll es h.2⟩

end

end Expr

end Reflow
