import Mathlib.Data.List.Perm.Subperm
import Reflow.Machine.Snapshot
import Reflow.Proofs.Memory.Allocation
/-!
# What a value stands for

A value may point into the heap, and what it stands for is found by following its pointers. The datum
of a value has no pointers: strings and arrays are given in full, and a function has its name beside
its number. A value has one datum at most, which stays the same while the heap only gains objects.

A value with a datum meets no cell inside itself. Its nesting is therefore bounded by the number of
cells, and so are the comparisons and the copies that the machine makes of it.

## Main definitions

* `Datum`: what a value stands for, with `Datum.same` and `Datum.snapshot`.
* `Datum.Over`: all functions in a datum have a property.
* `Heap.Held`: a value stands for a datum.
* `Executable.Names`: the names under which a program shows function pointers.
* `Executable.shownName`: how a program shows a function pointer, whether it knows it or not.

## Main results

* `Held.unique`, `Held.mono`: the datum of a value.
* `Held.depth_le`: the nesting of a value is bounded by the number of cells.
* `Held.same`, `Held.snapshot`: the machine compares and copies data.
-/

namespace Reflow

/-- What a value stands for. -/
inductive Datum
  | null
  | bool (value : Bool)
  | int (value : Int64)
  | double (value : Float)
  | string (value : String)
  | array (items : List Datum)
  /-- A function by its pointer and its name. -/
  | function (pointer : Nat) (name : String)

namespace Datum

mutual

/-- How deeply arrays are nested in a datum. -/
def depth : Datum → Nat
  | array items => depthAll items + 1
  | _ => 0

/-- How deeply arrays are nested in some data. -/
def depthAll : List Datum → Nat
  | [] => 0
  | d :: ds => max (depth d) (depthAll ds)

end

mutual

/-- Equality as stores have it: a NaN equals a NaN, and the two zeros are equal. -/
def same : Datum → Datum → Bool
  | null, null => true
  | bool a, bool b => a == b
  | int a, int b => a == b
  | double a, double b => a == b || (a.isNaN && b.isNaN)
  | string a, string b => a == b
  | array as, array bs => sameAll as bs
  | function a _, function b _ => a == b
  | _, _ => false

/-- Equality of as many data one by one. -/
def sameAll : List Datum → List Datum → Bool
  | [], [] => true
  | a :: as, b :: bs => same a b && sameAll as bs
  | _, _ => false

end

mutual

/-- The snapshot of a datum. -/
def snapshot : Datum → Snapshot
  | null => .null
  | bool b => .bool b
  | int n => .int n
  | double x => .double x
  | string s => .str s
  | array items => .array (snapshotAll items)
  | function _ name => .function name

/-- The snapshots of some data. -/
def snapshotAll : List Datum → List Snapshot
  | [] => []
  | d :: ds => snapshot d :: snapshotAll ds

end

theorem float_same (x : Float) : (x == x || (x.isNaN && x.isNaN)) = true := by
  change (x.toModel.unpack.beq x.toModel.unpack ||
    (x.toModel.unpack.isNaN && x.toModel.unpack.isNaN)) = true
  cases x.toModel.unpack with
  | notANumber => rfl
  | infinity s => cases s <;> rfl
  | zero s => rfl
  | finite s m e h =>
    have he : compare e e = .eq := Std.ReflCmp.compare_self
    have hm : compare m m = .eq := Std.ReflCmp.compare_self
    have hself : (compare e e).then (compare m m) = .eq := by rw [he, hm]; rfl
    cases s with
    | negative =>
      change ((some ((compare e e).then (compare m m)).swap == some .eq) || false) = true
      rw [hself]
      rfl
    | positive =>
      change ((some ((compare e e).then (compare m m)) == some .eq) || false) = true
      rw [hself]
      rfl

mutual

/-- Every datum is the same as itself. -/
theorem same_self : (d : Datum) → d.same d = true
  | null => rfl
  | bool b => by simp [same]
  | int n => by simp [same]
  | double x => float_same x
  | string s => by simp [same]
  | array items => by
    rw [same]
    exact sameAll_self items
  | function p name => by simp [same]

theorem sameAll_self : (ds : List Datum) → sameAll ds ds = true
  | [] => rfl
  | d :: ds => by
    rw [sameAll, same_self d, sameAll_self ds]
    rfl

end

end Datum

mutual

/-- All functions in a datum have the property `F`. -/
def Datum.Over (F : Nat → String → Prop) : Datum → Prop
  | .function p name => F p name
  | .array items => Datum.OverAll F items
  | _ => True

/-- All functions in some data have the property `F`. -/
def Datum.OverAll (F : Nat → String → Prop) : List Datum → Prop
  | [] => True
  | d :: ds => Datum.Over F d ∧ Datum.OverAll F ds

end

theorem Datum.overAll_iff {F : Nat → String → Prop} {ds : List Datum} :
    Datum.OverAll F ds ↔ ∀ d ∈ ds, d.Over F := by
  induction ds with
  | nil => simp [OverAll]
  | cons d ds ih => simp [OverAll, ih]

mutual

/-- A property that all functions have restricts no datum. -/
theorem Datum.over_true : (d : Datum) → d.Over fun _ _ => True
  | .array items => Datum.overAll_true items
  | .null | .bool _ | .int _ | .double _ | .string _ | .function _ _ => trivial

theorem Datum.overAll_true : (ds : List Datum) → Datum.OverAll (fun _ _ => True) ds
  | [] => trivial
  | d :: ds => ⟨Datum.over_true d, Datum.overAll_true ds⟩

end

mutual

/-- On the heap `h`, a value stands for a datum; `names` has the names of function pointers. -/
inductive Heap.Held (names : Nat → Option String) (h : Heap) : Value → Datum → Prop
  | null : Heap.Held names h .null .null
  | bool (b : Bool) : Heap.Held names h (.bool b) (.bool b)
  | int (n : Int64) : Heap.Held names h (.int n) (.int n)
  | double (x : Float) : Heap.Held names h (.double x) (.double x)
  | string {p : Nat} {s : String} (hs : h.string? p = some s) :
    Heap.Held names h (.string p) (.string s)
  | array {p : Nat} {vs : List Value} {ds : List Datum} (hp : h.array? p = some vs)
    (hs : Heap.HeldAll names h vs ds) : Heap.Held names h (.array p) (.array ds)
  | function {p : Nat} {name : String} (hp : names p = some name) :
    Heap.Held names h (.function p) (.function p name)

/-- Some values stand for some data one by one. -/
inductive Heap.HeldAll (names : Nat → Option String) (h : Heap) :
    List Value → List Datum → Prop
  | nil : Heap.HeldAll names h [] []
  | cons {v : Value} {d : Datum} {vs : List Value} {ds : List Datum} (hd : Heap.Held names h v d)
    (hs : Heap.HeldAll names h vs ds) : Heap.HeldAll names h (v :: vs) (d :: ds)

end

namespace Heap

variable {names names' : Nat → Option String} {h h' : Heap}

mutual

/-- A value stands for one datum at most. -/
theorem Held.unique {v : Value} {d d' : Datum} (hd : Held names h v d) (hd' : Held names h v d') :
    d = d' := by
  cases hd with
  | null | bool | int | double =>
    cases hd'
    rfl
  | string hs =>
    cases hd' with
    | string hs' => rw [Option.some.inj (hs.symm.trans hs')]
  | array hp hs =>
    cases hd' with
    | array hp' hs' =>
      obtain rfl := Option.some.inj (hp.symm.trans hp')
      rw [HeldAll.unique hs hs']
  | function hp =>
    cases hd' with
    | function hp' => rw [Option.some.inj (hp.symm.trans hp')]

theorem HeldAll.unique {vs : List Value} {ds ds' : List Datum} (hs : HeldAll names h vs ds)
    (hs' : HeldAll names h vs ds') : ds = ds' := by
  cases hs with
  | nil =>
    cases hs'
    rfl
  | cons hd hs =>
    cases hs' with
    | cons hd' hs' => rw [Held.unique hd hd', HeldAll.unique hs hs']

end

mutual

/-- A value keeps its datum while the heap only gains objects and pointers only gain names. -/
theorem Held.mono (k : h.Extends h') (hn : ∀ p name, names p = some name → names' p = some name)
    {v : Value} {d : Datum} (hd : Held names h v d) : Held names' h' v d := by
  cases hd with
  | null => exact .null
  | bool => exact .bool _
  | int => exact .int _
  | double => exact .double _
  | string hs => exact .string (k.string? hs)
  | array hp hs => exact .array (k.array? hp) (HeldAll.mono k hn hs)
  | function hp => exact .function (hn _ _ hp)

theorem HeldAll.mono (k : h.Extends h')
    (hn : ∀ p name, names p = some name → names' p = some name) {vs : List Value}
    {ds : List Datum} (hs : HeldAll names h vs ds) : HeldAll names' h' vs ds := by
  cases hs with
  | nil => exact .nil
  | cons hd hs => exact .cons (Held.mono k hn hd) (HeldAll.mono k hn hs)

end

mutual

/-- What stands for a datum also stands for one under other names, if every pointer has one. -/
theorem Held.renamed (shown : Nat → String) {v : Value} {d : Datum} (hd : Held names h v d) :
    ∃ d', Held (fun p => some (shown p)) h v d' := by
  cases hd with
  | null => exact ⟨_, .null⟩
  | bool => exact ⟨_, .bool _⟩
  | int => exact ⟨_, .int _⟩
  | double => exact ⟨_, .double _⟩
  | string hs => exact ⟨_, .string hs⟩
  | array hp hs =>
    obtain ⟨ds, hds⟩ := HeldAll.renamed shown hs
    exact ⟨_, .array hp hds⟩
  | function => exact ⟨_, .function rfl⟩

theorem HeldAll.renamed (shown : Nat → String) {vs : List Value} {ds : List Datum}
    (hs : HeldAll names h vs ds) : ∃ ds', HeldAll (fun p => some (shown p)) h vs ds' := by
  cases hs with
  | nil => exact ⟨[], .nil⟩
  | cons hd hs =>
    obtain ⟨d, hd⟩ := Held.renamed shown hd
    obtain ⟨ds, hs⟩ := HeldAll.renamed shown hs
    exact ⟨d :: ds, .cons hd hs⟩

end

mutual

/-- All functions in what a value stands for have their names. -/
theorem Held.over {v : Value} {d : Datum} (hd : Held names h v d) :
    d.Over fun p name => names p = some name := by
  cases hd with
  | array hp hs => exact HeldAll.over hs
  | function hp => exact hp
  | _ => trivial

theorem HeldAll.over {vs : List Value} {ds : List Datum} (hs : HeldAll names h vs ds) :
    Datum.OverAll (fun p name => names p = some name) ds := by
  cases hs with
  | nil => trivial
  | cons hd hs => exact ⟨Held.over hd, HeldAll.over hs⟩

end

theorem Held.extends (k : h.Extends h') {v : Value} {d : Datum} (hd : Held names h v d) :
    Held names h' v d := hd.mono k fun _ _ => id

theorem HeldAll.extends (k : h.Extends h') {vs : List Value} {ds : List Datum}
    (hs : HeldAll names h vs ds) : HeldAll names h' vs ds := hs.mono k fun _ _ => id

namespace HeldAll

variable {vs ws : List Value} {ds es : List Datum}

theorem length_eq (hs : HeldAll names h vs ds) : vs.length = ds.length := by
  induction vs generalizing ds with
  | nil =>
    cases hs
    rfl
  | cons v vs ih =>
    cases hs with
    | cons hd hs => rw [List.length_cons, List.length_cons, ih hs]

theorem getElem? (hs : HeldAll names h vs ds) {i : Nat} {v : Value} (hv : vs[i]? = some v) :
    ∃ d, ds[i]? = some d ∧ Held names h v d := by
  induction vs generalizing ds i with
  | nil => cases hv
  | cons w vs ih =>
    cases hs with
    | cons hd hs =>
      cases i with
      | zero =>
        cases hv
        exact ⟨_, rfl, hd⟩
      | succ i => exact ih hs hv

theorem set (hs : HeldAll names h vs ds) {v : Value} {d : Datum} (hd : Held names h v d) (i : Nat) :
    HeldAll names h (vs.set i v) (ds.set i d) := by
  induction vs generalizing ds i with
  | nil =>
    cases hs
    exact .nil
  | cons w vs ih =>
    cases hs with
    | cons he hs =>
      cases i with
      | zero => exact .cons hd hs
      | succ i => exact .cons he (ih hs i)

theorem mapIdx (hs : HeldAll names h vs ds) {f : Nat → Value → Value} {g : Nat → Datum → Datum}
    (hfg : ∀ i v d, Held names h v d → Held names h (f i v) (g i d)) :
    HeldAll names h (vs.mapIdx f) (ds.mapIdx g) := by
  induction vs generalizing ds f g with
  | nil =>
    cases hs
    exact .nil
  | cons v vs ih =>
    cases hs with
    | cons hd hs =>
      rw [List.mapIdx_cons, List.mapIdx_cons]
      exact .cons (hfg 0 _ _ hd) (ih hs fun i => hfg (i + 1))

theorem append (hs : HeldAll names h vs ds) (ht : HeldAll names h ws es) :
    HeldAll names h (vs ++ ws) (ds ++ es) := by
  induction vs generalizing ds with
  | nil =>
    cases hs
    exact ht
  | cons v vs ih =>
    cases hs with
    | cons hd hs => exact .cons hd (ih hs)

end HeldAll

/-! ### How deeply values are nested -/

theorem lt_size_of_array? {p : Nat} {items : List Value} (hp : h.array? p = some items) :
    p < h.cells.size :=
  (Array.getElem?_eq_some_iff.1 (get?_eq_some.1 (array?_eq_some.1 hp))).1

mutual

/-- A value of some depth leads to as many different cells, each with an array that is nested no more
deeply than the value. -/
theorem Held.cells {v : Value} {d : Datum} (hd : Held names h v d) :
    ∃ cs : List Nat, cs.Nodup ∧ cs.length = d.depth ∧ ∀ c ∈ cs, c < h.cells.size ∧
      ∃ e, Held names h (.array c) e ∧ e.depth ≤ d.depth := by
  cases hd with
  | null | bool | int | double | string | function =>
    exact ⟨[], List.nodup_nil, by simp [Datum.depth], fun c hc => by cases hc⟩
  | @array p vs ds hp hs =>
    obtain ⟨cs, hnodup, hlength, hcells⟩ := HeldAll.cells hs
    have hd : Held names h (.array p) (.array ds) := .array hp hs
    refine ⟨p :: cs, List.nodup_cons.2 ⟨fun hmem => ?_, hnodup⟩, ?_, fun c hc => ?_⟩
    · -- all that lies inside is nested less deeply than the array itself
      obtain ⟨-, e, he, hdepth⟩ := hcells p hmem
      rw [he.unique hd, Datum.depth] at hdepth
      omega
    · rw [List.length_cons, hlength, Datum.depth]
    · rcases List.mem_cons.1 hc with rfl | hc
      · exact ⟨lt_size_of_array? hp, _, hd, Nat.le_refl _⟩
      · obtain ⟨hlt, e, he, hdepth⟩ := hcells c hc
        rw [Datum.depth]
        exact ⟨hlt, e, he, by omega⟩

theorem HeldAll.cells {vs : List Value} {ds : List Datum} (hs : HeldAll names h vs ds) :
    ∃ cs : List Nat, cs.Nodup ∧ cs.length = Datum.depthAll ds ∧ ∀ c ∈ cs, c < h.cells.size ∧
      ∃ e, Held names h (.array c) e ∧ e.depth ≤ Datum.depthAll ds := by
  cases hs with
  | nil => exact ⟨[], List.nodup_nil, by simp [Datum.depthAll], fun c hc => by cases hc⟩
  | @cons v d vs ds hd hs =>
    rw [Datum.depthAll]
    by_cases hle : Datum.depthAll ds ≤ d.depth
    · rw [Nat.max_eq_left hle]
      exact Held.cells hd
    · rw [Nat.max_eq_right (by omega)]
      exact HeldAll.cells hs

end

/-- No value is nested more deeply than there are cells. -/
theorem Held.depth_le {v : Value} {d : Datum} (hd : Held names h v d) :
    d.depth ≤ h.cells.size := by
  obtain ⟨cs, hnodup, hlength, hcells⟩ := hd.cells
  have hsub : cs ⊆ List.range h.cells.size := fun c hc => List.mem_range.2 (hcells c hc).1
  have hle := (List.subperm_of_subset hnodup hsub).length_le
  rwa [hlength, List.length_range] at hle

/-! ### Comparing and copying -/

theorem HeldAll.all_sameWithin {fuel : Nat}
    (ih : ∀ {v w : Value} {a b : Datum}, Held names h v a → Held names h w b → a.depth ≤ fuel →
      h.sameWithin fuel v w = a.same b)
    {vs ws : List Value} {as bs : List Datum} (hs : HeldAll names h vs as)
    (ht : HeldAll names h ws bs) (hdepth : Datum.depthAll as ≤ fuel) :
    (vs.length == ws.length && (vs.zip ws).all fun (x, y) => h.sameWithin fuel x y) =
      Datum.sameAll as bs := by
  induction vs generalizing ws as bs with
  | nil =>
    cases hs
    cases ht <;> simp [Datum.sameAll]
  | cons v vs ihs =>
    cases hs with
    | cons hd hs =>
      rw [Datum.depthAll] at hdepth
      cases ht with
      | nil => simp [Datum.sameAll]
      | cons he ht =>
        rw [Datum.sameAll, ← ihs hs ht (by omega), ← ih hd he (by omega)]
        simp only [List.length_cons, List.zip_cons_cons, List.all_cons, Bool.and_left_comm,
          Nat.succ.injEq, beq_eq_decide]

theorem sameWithin_string {fuel p q : Nat} {s t : String} (hs : h.string? p = some s)
    (ht : h.string? q = some t) : h.sameWithin fuel (.string p) (.string q) = (s == t) := by
  rw [Heap.sameWithin, hs, ht]
  by_cases heq : p = q
  · subst heq
    obtain rfl := Option.some.inj (hs.symm.trans ht)
    simp
  · simp [heq]

theorem Held.sameWithin (fuel : Nat) {v w : Value} {a b : Datum} (ha : Held names h v a)
    (hb : Held names h w b) (hdepth : a.depth ≤ fuel) : h.sameWithin fuel v w = a.same b := by
  induction fuel generalizing v w a b with
  | zero =>
    cases ha with
    | array hp hs => simp [Datum.depth] at hdepth
    | string hs =>
      cases hb with
      | string ht => exact sameWithin_string hs ht
      | _ => simp [Heap.sameWithin, Datum.same]
    | _ => cases hb <;> simp [Heap.sameWithin, Datum.same]
  | succ fuel ih =>
    cases ha with
    | @array p vs as hp hs =>
      cases hb with
      | @array q ws bs hq ht =>
        rw [Datum.depth] at hdepth
        rw [Heap.sameWithin, Datum.same, hp, hq]
        by_cases heq : p = q
        · subst heq
          obtain rfl := Option.some.inj (hp.symm.trans hq)
          rw [hs.unique ht, Datum.sameAll_self]
          simp
        · rw [beq_eq_false_iff_ne.2 heq, Bool.false_or]
          exact hs.all_sameWithin ih ht (by omega)
      | _ => simp [Heap.sameWithin, Datum.same]
    | string hs =>
      cases hb with
      | string ht => exact sameWithin_string hs ht
      | _ => simp [Heap.sameWithin, Datum.same]
    | _ => cases hb <;> simp [Heap.sameWithin, Datum.same]

/-- Comparing two values compares their data. -/
theorem Held.same {v w : Value} {a b : Datum} (ha : Held names h v a) (hb : Held names h w b) :
    h.same v w = a.same b := by
  refine ha.sameWithin _ hb (Nat.le_trans ha.depth_le ?_)
  have := Nat.le_mul_self h.cells.size
  omega

end Heap

/-- The names of the function pointers of a program. -/
def Executable.pointerName? (x : Executable) (pointer : Nat) : Option String :=
  ((x.pointers.target? pointer).bind fun (block, index) => x.procedureOf? block index).map (·.name)

/-- The program shows the function pointers under their names. -/
def Executable.Names (x : Executable) (names : Nat → Option String) : Prop :=
  ∀ pointer name, names pointer = some name → x.functionName pointer = name

/-- How a program shows a function pointer: by the name of its procedure, or by its number. -/
def Executable.shownName (x : Executable) : Nat → Option String := fun p => some (x.functionName p)

theorem Executable.names_shownName (x : Executable) : x.Names x.shownName := fun _ _ => Option.some.inj

/-- A program shows its function pointers under the names of their procedures. -/
theorem Executable.names_pointerName? (x : Executable) : x.Names x.pointerName? := by
  intro pointer name h
  unfold pointerName? at h
  unfold functionName
  split
  · rename_i p hp
    rw [hp] at h
    exact Option.some.inj h
  · rename_i hp
    rw [hp] at h
    cases h

namespace Heap

variable {x : Executable} {names : Nat → Option String} {m : Memory}

theorem HeldAll.map_snapshotWithin {fuel : Nat}
    (ih : ∀ {v : Value} {d : Datum}, Held names m.heap v d → d.depth ≤ fuel →
      m.snapshotWithin x fuel v = d.snapshot)
    {vs : List Value} {ds : List Datum} (hs : HeldAll names m.heap vs ds)
    (hdepth : Datum.depthAll ds ≤ fuel) :
    vs.map (m.snapshotWithin x fuel) = Datum.snapshotAll ds := by
  induction vs generalizing ds with
  | nil =>
    cases hs
    rfl
  | cons v vs ihs =>
    cases hs with
    | cons hd hs =>
      rw [Datum.depthAll] at hdepth
      rw [List.map_cons, Datum.snapshotAll, ih hd (by omega), ihs hs (by omega)]

theorem Held.snapshotWithin (hx : x.Names names) (fuel : Nat) {v : Value} {d : Datum}
    (hd : Held names m.heap v d) (hdepth : d.depth ≤ fuel) :
    m.snapshotWithin x fuel v = d.snapshot := by
  induction fuel generalizing v d with
  | zero =>
    cases hd with
    | array hp hs => simp [Datum.depth] at hdepth
    | string hs => simp [Memory.snapshotWithin, Datum.snapshot, hs]
    | function hp =>
      simp [Memory.snapshotWithin, Datum.snapshot, hx _ _ hp]
    | _ => simp [Memory.snapshotWithin, Datum.snapshot]
  | succ fuel ih =>
    cases hd with
    | array hp hs =>
      rw [Datum.depth] at hdepth
      rw [Memory.snapshotWithin, Datum.snapshot, hp]
      exact congrArg Snapshot.array (hs.map_snapshotWithin ih (by omega))
    | string hs => simp [Memory.snapshotWithin, Datum.snapshot, hs]
    | function hp =>
      simp [Memory.snapshotWithin, Datum.snapshot, hx _ _ hp]
    | _ => simp [Memory.snapshotWithin, Datum.snapshot]

/-- The snapshot of a value is that of its datum. -/
theorem Held.snapshot (hx : x.Names names) {v : Value} {d : Datum} (hd : Held names m.heap v d) :
    m.snapshot x v = d.snapshot :=
  hd.snapshotWithin hx _ (Nat.le_trans hd.depth_le (Nat.le_succ _))

end Heap

end Reflow
