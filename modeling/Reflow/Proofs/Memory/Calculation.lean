import Reflow.Machine.Operation
import Reflow.Proofs.Memory.Datum
/-!
# Operations on data

The operations of the machine take values and may put a new object on the heap. What the result
stands for depends only on what the operands stand for, and not on the heap.

## Main definitions

* `Datum.truthy`, `Datum.index`, `Datum.unary`, `Datum.binary`: the operations on data.
* `Outcome.Gives`: the result of an operation stands for a datum.

## Main results

* `gives_applyIndex`, `gives_applyUnary`, `gives_applyBinary`: the operations of the machine are those
  on data.
-/

namespace Reflow

namespace Datum

/-- Whether a datum counts as true. -/
def truthy : Datum → Bool
  | null => false
  | bool b => b
  | int n => n != 0
  | double x => x != 0
  | string s => !s.isEmpty
  | array items => !items.isEmpty
  | function _ _ => true

/-- A number as a double. -/
def number? : Datum → Option Float
  | int n => some (Float.ofInt n.toInt)
  | double x => some x
  | _ => none

/-- The element of an array or the character of a string at a position. -/
def index (target i : Datum) : Datum :=
  match i with
  | int position =>
    match target with
    | array items => ((resolveIndex? position items.length).bind (items[·]?)).getD null
    | string s =>
      match (resolveIndex? position s.toList.length).bind (s.toList[·]?) with
      | some c => string (String.ofList [c])
      | none => null
    | _ => null
  | _ => null

/-- The value of a prefix operator. -/
def unary (op : UnaryOp) (d : Datum) : Datum :=
  match op, d with
  | .not, d => bool (!d.truthy)
  | .neg, int n => ((fit? (-n.toInt)).map int).getD null
  | .neg, double x => double (-x)
  | .neg, _ => null

/-- The value of an arithmetic operator. -/
def arithmetic (op : BinaryOp) (a b : Datum) : Datum :=
  match a, b with
  | int m, int n => ((intResult? op m.toInt n.toInt).map int).getD null
  | _, _ =>
    match a.number?, b.number? with
    | some x, some y => double (doubleResult op x y)
    | _, _ => null

/-- The value of a comparison. -/
def comparison (op : BinaryOp) (a b : Datum) : Datum :=
  match a, b with
  | int m, int n => bool ((some (compare m.toInt n.toInt)).any (holds op))
  | string s, string t => bool ((some (orderTexts (some s) (some t))).any (holds op))
  | _, _ =>
    match a.number?, b.number? with
    | some x, some y => bool ((orderDoubles? x y).any (holds op))
    | _, _ => null

/-- Equality as the language has it. -/
def looselyEqual (a b : Datum) : Bool :=
  match a, b with
  | int m, double y => Float.ofInt m.toInt == y
  | double x, int n => x == Float.ofInt n.toInt
  | _, _ => a.same b

/-- Whether a datum is a string. -/
def isString : Datum → Bool
  | string _ => true
  | _ => false

/-- The text that a datum adds to a string. -/
def joinText : Datum → String
  | string s => s
  | d => d.snapshot.text

/-- The value of an infix operator. -/
def binary (op : BinaryOp) (a b : Datum) : Datum :=
  match op with
  | .and => bool (a.truthy && b.truthy)
  | .or => bool (a.truthy || b.truthy)
  | .eq => bool (looselyEqual a b)
  | .ne => bool (!looselyEqual a b)
  | .lt | .le | .gt | .ge => comparison op a b
  | .add =>
    if a.isString || b.isString then string (a.joinText ++ b.joinText) else arithmetic op a b
  | .sub | .mul | .div | .mod => arithmetic op a b

variable {F : Nat → String → Prop} {a b : Datum}

/-- What is found in an array was in it. -/
theorem Over.index (h : a.Over F) : (a.index b).Over F := by
  unfold Datum.index
  split
  · rename_i position
    split
    · rename_i items
      cases hd : (resolveIndex? position items.length).bind (items[·]?) with
      | none => trivial
      | some d =>
        obtain ⟨i, -, hi⟩ := Option.bind_eq_some_iff.1 hd
        exact overAll_iff.1 h d (List.mem_of_getElem? hi)
    · split <;> trivial
    · trivial
  · trivial

/-- The value of a prefix operator has no functions in it. -/
theorem over_unary (op : UnaryOp) (d : Datum) : (d.unary op).Over F := by
  unfold Datum.unary
  split
  · trivial
  · cases fit? _ <;> trivial
  · trivial
  · trivial

theorem over_arithmetic (op : BinaryOp) (a b : Datum) : (a.arithmetic op b).Over F := by
  unfold Datum.arithmetic
  split
  · cases intResult? op _ _ <;> trivial
  · split <;> trivial

theorem over_comparison (op : BinaryOp) (a b : Datum) : (a.comparison op b).Over F := by
  unfold Datum.comparison
  split
  · trivial
  · trivial
  · split <;> trivial

/-- The value of an infix operator has no functions in it. -/
theorem over_binary (op : BinaryOp) (a b : Datum) : (a.binary op b).Over F := by
  unfold Datum.binary
  cases op with
  | and | or | eq | ne => trivial
  | lt | le | gt | ge => exact over_comparison _ a b
  | add =>
    dsimp only
    split
    · trivial
    · exact over_arithmetic _ a b
  | sub | mul | div | mod => exact over_arithmetic _ a b

end Datum

/-- The result of the operation stands for the datum `d` on the memory that the operation leaves. -/
def Outcome.Gives (names : Nat → Option String) (o : Outcome) (d : Datum) : Prop :=
  o.memory.heap.Held names o.value d

section Operations

variable {names : Nat → Option String} {m : Memory} {x : Executable} {v w : Value} {a b : Datum}

theorem Heap.Held.truthy (hv : m.heap.Held names v a) : m.truthy v = a.truthy := by
  cases hv with
  | string hs => simp [Memory.truthy, Datum.truthy, hs]
  | @array p vs ds hp hs =>
    have hlength := hs.length_eq
    rw [Memory.truthy, Datum.truthy, hp, Option.any_some]
    cases vs <;> cases ds <;> simp_all
  | _ => rfl

theorem Heap.Held.isString (hv : m.heap.Held names v a) : v.isString = a.isString := by
  cases hv <;> rfl

theorem gives_undefined (m : Memory) (warning : String) :
    (Outcome.undefined m warning).Gives names .null := .null

/-- A new string is found on the heap. -/
theorem gives_string (hm : m.heap.Sound) (s : String) :
    (Outcome.string m s).Gives names (.string s) :=
  .string (Heap.string?_eq_some.2 (hm.get?_alloc (.string s)))

theorem gives_applyIndex (hm : m.heap.Sound) (hv : m.heap.Held names v a)
    (hw : m.heap.Held names w b) : (applyIndex m v w).Gives names (a.index b) := by
  unfold applyIndex Datum.index
  cases hw with
  | int position =>
    cases hv with
    | @array p vs ds hp hs =>
      simp only [hp, Option.getD_some, hs.length_eq]
      cases hi : resolveIndex? position ds.length with
      | none => exact gives_undefined m _
      | some i =>
        simp only [Option.bind_some]
        cases hvs : vs[i]? with
        | none =>
          have hds : ds[i]? = none := by
            rw [List.getElem?_eq_none_iff] at hvs ⊢
            rwa [← hs.length_eq]
          rw [hds]
          exact gives_undefined m _
        | some v =>
          obtain ⟨d, hd, hheld⟩ := hs.getElem? hvs
          rw [hd]
          exact hheld
    | @string p s hs =>
      simp only [hs, Option.getD_some]
      cases (resolveIndex? position s.toList.length).bind (s.toList[·]?) with
      | some c => exact gives_string hm _
      | none => exact gives_undefined m _
    | _ => exact gives_undefined m _
  | _ => exact gives_undefined m _

theorem gives_applyUnary (op : UnaryOp) (hv : m.heap.Held names v a) :
    (applyUnary m op v).Gives names (a.unary op) := by
  cases op with
  | not =>
    simp only [applyUnary, Datum.unary, hv.truthy]
    exact .bool _
  | neg =>
    unfold applyUnary Datum.unary
    cases hv with
    | int n =>
      dsimp only
      cases fit? (-n.toInt) with
      | none => exact gives_undefined m _
      | some k => exact .int k
    | double y => exact .double _
    | _ => exact gives_undefined m _

theorem gives_arithmetic (op : BinaryOp) (hv : m.heap.Held names v a)
    (hw : m.heap.Held names w b) : (arithmetic m op v w).Gives names (a.arithmetic op b) := by
  cases hv with
  | int n =>
    cases hw with
    | int k =>
      unfold arithmetic Datum.arithmetic
      dsimp only
      cases intResult? op n.toInt k.toInt with
      | none => exact gives_undefined m _
      | some result => exact .int result
    | double y => exact .double _
    | _ => exact gives_undefined m _
  | double x =>
    cases hw with
    | int k => exact .double _
    | double y => exact .double _
    | _ => exact gives_undefined m _
  | _ => cases hw <;> exact gives_undefined m _

theorem gives_comparison (op : BinaryOp) (hv : m.heap.Held names v a)
    (hw : m.heap.Held names w b) : (comparison m op v w).Gives names (a.comparison op b) := by
  cases hv with
  | int n =>
    cases hw with
    | int k => exact .bool _
    | double y => exact .bool _
    | _ => exact gives_undefined m _
  | double x =>
    cases hw with
    | int k => exact .bool _
    | double y => exact .bool _
    | _ => exact gives_undefined m _
  | string hs =>
    cases hw with
    | string ht =>
      unfold comparison Datum.comparison
      simp only [hs, ht]
      exact .bool _
    | _ => exact gives_undefined m _
  | _ => cases hw <;> exact gives_undefined m _

theorem looselyEqual_eq (hv : m.heap.Held names v a) (hw : m.heap.Held names w b) :
    looselyEqual m v w = a.looselyEqual b := by
  have hsame := hv.same hw
  cases hv with
  | int n =>
    cases hw with
    | double y => rfl
    | _ => exact hsame
  | double x =>
    cases hw with
    | int k => rfl
    | _ => exact hsame
  | _ => exact hsame

theorem joinText_eq (hx : x.Names names) (hv : m.heap.Held names v a) :
    joinText m x v = a.joinText := by
  have hsnapshot := hv.snapshot hx
  cases hv with
  | string hs => simp [joinText, Datum.joinText, hs]
  | _ => exact congrArg Snapshot.text hsnapshot

theorem gives_applyBinary (hx : x.Names names) (op : BinaryOp) (hm : m.heap.Sound)
    (hv : m.heap.Held names v a) (hw : m.heap.Held names w b) :
    (applyBinary m x op v w).Gives names (a.binary op b) := by
  have harithmetic := gives_arithmetic op hv hw
  have hcomparison := gives_comparison op hv hw
  unfold applyBinary Datum.binary
  cases op with
  | and | or =>
    simp only [hv.truthy, hw.truthy]
    exact .bool _
  | eq | ne =>
    simp only [looselyEqual_eq hv hw]
    exact .bool _
  | lt | le | gt | ge => exact hcomparison
  | add =>
    simp only [hv.isString, hw.isString, joinText_eq hx hv, joinText_eq hx hw]
    split
    · exact gives_string hm _
    · exact harithmetic
  | sub | mul | div | mod => exact harithmetic

end Operations

end Reflow
