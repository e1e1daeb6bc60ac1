import Mathlib.Logic.Relation
import Reflow.Proofs.Memory.Datum
/-!
# Deep equality

A comparison of two arrays compares their items, and a copy of an array copies its items. Neither has a
bound of its own: both come to an end because a value that stands for a datum holds no array inside itself.
On values without doubles the comparison is then an equivalence relation, and without functions it finds
two values equal exactly if their snapshots are.

## Main definitions

* `Heap.Item`, `Heap.Occurs`: what an array holds, and all that some values lead to.
* `Heap.Lacks`, `Datum.Lacks`: no value of some kind occurs.
* `Heap.Compares`: the pairs that the comparison of a pair compares.
* `Heap.Founded`, `Memory.Founds`: values that stand for data.
* `Memory.Comparable`: values that are compared and copied as they should be.

## Main results

* `Datum.same_iff_eq`, `Datum.eq_of_snapshot_eq`: data that are the same or are shown alike.
* `Heap.Founded.acc`: a copy comes to its end.
* `Memory.Founds.comparable`: values that stand for data are compared and copied as they should be.
-/

namespace Reflow

/-! ### Data without values of a kind -/

namespace Datum

/-- The kind of a datum. -/
def kind : Datum → Primitive
  | null => .null
  | bool _ => .bool
  | int _ => .int
  | double _ => .double
  | string _ => .string
  | array _ => .array
  | function _ _ => .function

mutual

/-- A datum is not of the kind, nor is any datum in it. -/
def Lacks (k : Primitive) : Datum → Prop
  | array items => k ≠ .array ∧ LacksAll k items
  | d => d.kind ≠ k

/-- No datum of the kind is in some data. -/
def LacksAll (k : Primitive) : List Datum → Prop
  | [] => True
  | d :: ds => Lacks k d ∧ LacksAll k ds

end

mutual

/-- Data without doubles whose functions have their names by a rule are the same only if they are equal. -/
theorem same_iff_eq {rule : Nat → Option String} : (a b : Datum) → a.Lacks .double →
    a.Over (fun p name => rule p = some name) → b.Over (fun p name => rule p = some name) →
      (a.same b = true ↔ a = b)
  | null, b, _, _, _ => by cases b <;> simp [same]
  | bool _, b, _, _, _ => by cases b <;> simp [same]
  | int _, b, _, _, _ => by cases b <;> simp [same]
  | double _, b, hdouble, _, _ => absurd rfl hdouble
  | string _, b, _, _, _ => by cases b <;> simp [same]
  | array as, b, hdouble, ha, hb => by
    cases b with
    | array bs =>
      rw [same, array.injEq]
      exact sameAll_iff_eq as bs hdouble.2 ha hb
    | _ => simp [same]
  | function p name, b, _, ha, hb => by
    cases b with
    | function q name' =>
      have hname : p = q → name = name' := by
        rintro rfl
        exact Option.some.inj (ha.symm.trans hb)
      simpa [same] using hname
    | _ => simp [same]

theorem sameAll_iff_eq {rule : Nat → Option String} : (as bs : List Datum) → LacksAll .double as →
    OverAll (fun p name => rule p = some name) as → OverAll (fun p name => rule p = some name) bs →
      (sameAll as bs = true ↔ as = bs)
  | [], bs, _, _, _ => by cases bs <;> simp [sameAll]
  | a :: as, [], _, _, _ => by simp [sameAll]
  | a :: as, b :: bs, hdouble, ha, hb => by
    rw [sameAll, Bool.and_eq_true, List.cons.injEq, same_iff_eq a b hdouble.1 ha.1 hb.1,
      sameAll_iff_eq as bs hdouble.2 ha.2 hb.2]

end

mutual

/-- Only functions that are shown under one name are shown alike and may differ. -/
theorem eq_of_snapshot_eq : (a b : Datum) → a.Lacks .function → a.snapshot = b.snapshot → a = b
  | null, b, _, h => by cases b <;> simp_all [snapshot]
  | bool _, b, _, h => by cases b <;> simp_all [snapshot]
  | int _, b, _, h => by cases b <;> simp_all [snapshot]
  | double _, b, _, h => by cases b <;> simp_all [snapshot]
  | string _, b, _, h => by cases b <;> simp_all [snapshot]
  | array as, b, hfunction, h => by
    cases b with
    | array bs =>
      rw [snapshot, snapshot, Snapshot.array.injEq] at h
      rw [eq_of_snapshotAll_eq as bs hfunction.2 h]
    | _ => simp [snapshot] at h
  | function _ _, b, hfunction, _ => absurd rfl hfunction

theorem eq_of_snapshotAll_eq : (as bs : List Datum) → LacksAll .function as →
    snapshotAll as = snapshotAll bs → as = bs
  | [], bs, _, h => by cases bs <;> simp_all [snapshotAll]
  | a :: as, [], _, h => by simp [snapshotAll] at h
  | a :: as, b :: bs, hfunction, h => by
    rw [snapshotAll, snapshotAll, List.cons.injEq] at h
    rw [eq_of_snapshot_eq a b hfunction.1 h.1, eq_of_snapshotAll_eq as bs hfunction.2 h.2]

end

/-- What is in some data is nested no more deeply than they are. -/
theorem depth_le_depthAll {d : Datum} {ds : List Datum} (hd : d ∈ ds) : d.depth ≤ depthAll ds := by
  induction ds with
  | nil => cases hd
  | cons e ds ih =>
    rw [depthAll]
    rcases List.mem_cons.1 hd with rfl | hd
    · exact Nat.le_max_left _ _
    · exact Nat.le_trans (ih hd) (Nat.le_max_right _ _)

end Datum

/-! ### Values inside values -/

namespace Heap

/-- The value `u` is an item of the array that `v` points to. -/
def Item (h : Heap) (u v : Value) : Prop :=
  ∃ p items, v = .array p ∧ h.array? p = some items ∧ u ∈ items

/-- The values that some values lead to: themselves, and the items of the arrays that they lead to. -/
inductive Occurs (h : Heap) (vs : List Value) : Value → Prop
  | root {v : Value} (hv : v ∈ vs) : Occurs h vs v
  | item {u v : Value} (hv : Occurs h vs v) (hu : h.Item u v) : Occurs h vs u

/-- A value is not of the kind and leads to no value of it. -/
def Lacks (h : Heap) (k : Primitive) (v : Value) : Prop := ∀ u, h.Occurs [v] u → u.kind ≠ k

/-- To compare a pair of arrays, a pair of their items is compared. -/
inductive Compares (h : Heap) : Value × Value → Value × Value → Prop
  | items {p q : Nat} {xs ys : List Value} {pair : Value × Value} (hne : p ≠ q)
    (hxs : h.array? p = some xs) (hys : h.array? q = some ys) (hlength : xs.length = ys.length)
    (hpair : pair ∈ xs.zip ys) : Compares h pair (.array p, .array q)

/-- The value stands for a datum. -/
def Founded (h : Heap) (v : Value) : Prop := ∃ names d, h.Held names v d

variable {names : Nat → Option String} {h h' : Heap} {u v w : Value} {d a b : Datum}
  {vs ws : List Value} {ds : List Datum} {k : Primitive}

theorem Occurs.trans (hv : h.Occurs ws v) (hws : ∀ w ∈ ws, h.Occurs vs w) : h.Occurs vs v := by
  induction hv with
  | root hw => exact hws _ hw
  | item _ hu ih => exact ih.item hu

theorem Lacks.kind_ne (hv : h.Lacks k v) : v.kind ≠ k := hv v (.root (List.mem_singleton_self v))

theorem Lacks.item (hv : h.Lacks k v) (hu : h.Item u v) : h.Lacks k u := fun _ ht =>
  hv _ (ht.trans fun _ hw =>
    List.mem_singleton.1 hw ▸ (Occurs.root (List.mem_singleton_self v)).item hu)

theorem HeldAll.exists_of_mem (hs : HeldAll names h vs ds) (hv : v ∈ vs) :
    ∃ d ∈ ds, Held names h v d := by
  obtain ⟨i, hi⟩ := List.mem_iff_getElem?.1 hv
  obtain ⟨d, hd, hheld⟩ := hs.getElem? hi
  exact ⟨d, List.mem_of_getElem? hd, hheld⟩

/-- What is inside a value is nested less deeply than the value. -/
theorem Held.item (hd : Held names h v d) (hu : h.Item u v) :
    ∃ e, Held names h u e ∧ e.depth < d.depth := by
  obtain ⟨p, items, rfl, hitems, hmem⟩ := hu
  cases hd with
  | array hp hs =>
    obtain rfl := Option.some.inj (hitems.symm.trans hp)
    obtain ⟨e, he, hheld⟩ := hs.exists_of_mem hmem
    exact ⟨e, hheld, Nat.lt_succ_of_le (Datum.depth_le_depthAll he)⟩

mutual

/-- What does not occur in a value is not in its datum. -/
theorem Held.lacks {v : Value} {d : Datum} (hd : Held names h v d) (hv : h.Lacks k v) : d.Lacks k := by
  cases hd with
  | @array p vs ds hp hs =>
    exact ⟨fun hk => hv.kind_ne hk.symm,
      HeldAll.lacks hs fun u hu => hv.item ⟨p, vs, rfl, hp, hu⟩⟩
  | _ => exact hv.kind_ne

theorem HeldAll.lacks {vs : List Value} {ds : List Datum} (hs : HeldAll names h vs ds)
    (hvs : ∀ v ∈ vs, h.Lacks k v) : Datum.LacksAll k ds := by
  cases hs with
  | nil => trivial
  | cons hd hs =>
    exact ⟨Held.lacks hd (hvs _ List.mem_cons_self),
      HeldAll.lacks hs fun v hv => hvs v (List.mem_cons_of_mem _ hv)⟩

end

/-! ### Values that stand for data -/

/-- What is no pointer stands for a datum on any heap. -/
theorem Founded.of_pointer? (hv : v.pointer? = none) : h.Founded v := by
  cases v with
  | null => exact ⟨fun _ => none, _, .null⟩
  | bool b => exact ⟨fun _ => none, _, .bool b⟩
  | int n => exact ⟨fun _ => none, _, .int n⟩
  | double x => exact ⟨fun _ => none, _, .double x⟩
  | function p => exact ⟨fun _ => some "", _, .function rfl⟩
  | string p => cases hv
  | array p => cases hv

theorem Founded.extends (k : h.Extends h') (hv : h.Founded v) : h'.Founded v := by
  obtain ⟨names, d, hd⟩ := hv
  exact ⟨names, d, hd.extends k⟩

namespace Founded

/-- What stands for a datum stands for one under any names that all functions have. -/
theorem held (hv : h.Founded v) (shown : Nat → String) :
    ∃ d, Held (fun p => some (shown p)) h v d := by
  obtain ⟨names, d, hd⟩ := hv
  exact hd.renamed shown

theorem item (hv : h.Founded v) (hu : h.Item u v) : h.Founded u := by
  obtain ⟨names, d, hd⟩ := hv
  obtain ⟨e, he, -⟩ := hd.item hu
  exact ⟨names, e, he⟩

theorem of_occurs (hvs : ∀ v ∈ vs, h.Founded v) (hv : h.Occurs vs v) : h.Founded v := by
  induction hv with
  | root hv => exact hvs _ hv
  | item _ hu ih => exact ih.item hu

theorem string? {p : Nat} (hv : h.Founded (.string p)) : ∃ s, h.string? p = some s := by
  obtain ⟨names, d, hd⟩ := hv
  cases hd with
  | string hs => exact ⟨_, hs⟩

theorem array? {p : Nat} (hv : h.Founded (.array p)) : ∃ items, h.array? p = some items := by
  obtain ⟨names, d, hd⟩ := hv
  cases hd with
  | array hp hs => exact ⟨_, hp⟩

/-- From item to item, one comes to an end. -/
theorem acc (hv : h.Founded v) : Acc h.Item v := by
  obtain ⟨names, d, hd⟩ := hv
  induction hdepth : d.depth using Nat.strongRecOn generalizing v d with
  | _ depth ih =>
    refine .intro v fun u hu => ?_
    obtain ⟨e, he, hlt⟩ := hd.item hu
    exact ih e.depth (hdepth ▸ hlt) e he rfl

/-- From pair to pair, a comparison comes to its end, whatever the value is compared with. -/
theorem acc_compares (hv : h.Founded v) (w : Value) : Acc h.Compares (v, w) := by
  have hfirst : Subrelation h.Compares (InvImage h.Item Prod.fst) := by
    rintro ⟨u, t⟩ - ⟨hne, hxs, hys, hlength, hpair⟩
    exact ⟨_, _, rfl, hxs, (List.of_mem_zip hpair).1⟩
  exact hfirst.accessible (InvImage.accessible Prod.fst hv.acc)

/-- No value is inside itself. -/
theorem not_inside (hv : h.Founded v) : ¬ Relation.TransGen h.Item v v := by
  intro hinside
  have hacc := hv.acc.transGen
  clear hv
  induction hacc with
  | intro v _ ih => exact ih v hinside hinside

/-- Values that each stand for a datum stand for data. -/
theorem heldAll (hvs : ∀ v ∈ vs, h.Founded v) (shown : Nat → String) :
    ∃ ds, HeldAll (fun p => some (shown p)) h vs ds := by
  induction vs with
  | nil => exact ⟨[], .nil⟩
  | cons v vs ih =>
    obtain ⟨hv, hvs⟩ := List.forall_mem_cons.1 hvs
    obtain ⟨d, hd⟩ := hv.held shown
    obtain ⟨ds, hs⟩ := ih hvs
    exact ⟨d :: ds, .cons hd hs⟩

section Equations

variable {p q : Nat} {xs ys : List Value}

/-- Two arrays are compared item by item, unless they are in one cell. -/
theorem same_array (hp : h.Founded (.array p)) (hq : h.Founded (.array q))
    (hxs : h.array? p = some xs) (hys : h.array? q = some ys) :
    h.same (.array p) (.array q) =
      (p == q || (xs.length == ys.length && (xs.zip ys).all fun (x, y) => h.same x y)) := by
  obtain ⟨a, ha⟩ := hp.held fun _ => ""
  obtain ⟨b, hb⟩ := hq.held fun _ => ""
  by_cases heq : p = q
  · subst heq
    obtain rfl := ha.unique hb
    rw [ha.same hb, Datum.same_self, beq_self_eq_true, Bool.true_or]
  · rw [beq_eq_false_iff_ne.2 heq, Bool.false_or, ha.same hb]
    cases ha with
    | array hp hs =>
      cases hb with
      | array hq ht =>
        obtain rfl := Option.some.inj (hxs.symm.trans hp)
        obtain rfl := Option.some.inj (hys.symm.trans hq)
        have hdepth := (Held.array hp hs).depth_le
        have hcells := Nat.le_mul_self h.cells.size
        rw [Datum.depth] at hdepth
        exact (hs.all_sameWithin (fun ha hb => ha.sameWithin _ hb) ht (by omega)).symm

/-- An array is copied item by item. -/
theorem snapshot_array {m : Memory} (x : Executable) (hp : m.heap.Founded (.array p))
    (hxs : m.heap.array? p = some xs) :
    m.snapshot x (.array p) = .array (xs.map (m.snapshot x)) := by
  obtain ⟨a, ha⟩ := hp.held x.functionName
  rw [ha.snapshot x.names_shownName]
  cases ha with
  | array hp hs =>
    obtain rfl := Option.some.inj (hxs.symm.trans hp)
    have hdepth := (Held.array hp hs).depth_le
    rw [Datum.depth] at hdepth
    exact congrArg Snapshot.array
      (hs.map_snapshotWithin (fun hd => hd.snapshotWithin x.names_shownName _) (by omega)).symm

end Equations

end Founded

/-- Values without doubles are the same if they stand for one datum. -/
theorem Held.same_iff {shown : Nat → String} (ha : Held (fun p => some (shown p)) h v a)
    (hb : Held (fun p => some (shown p)) h w b) (hv : h.Lacks .double v) :
    h.same v w = true ↔ a = b := by
  rw [ha.same hb]
  exact Datum.same_iff_eq a b (ha.lacks hv) ha.over hb.over

end Heap

namespace Memory

/-- The heap is sound, and the values stand for data. -/
structure Founds (m : Memory) (vs : List Value) : Prop where
  sound : m.heap.Sound
  founded : ∀ v ∈ vs, m.heap.Founded v

/-- The values and all that they lead to are pointers to objects of their kinds, in no circle. Comparing
and copying them comes to an end, with what the recursion without a bound gives. Among those without doubles
the comparison is an equivalence relation, and among those without doubles and functions it finds two equal
exactly if they have one snapshot. -/
structure Comparable (m : Memory) (vs : List Value) : Prop where
  string : ∀ p, m.heap.Occurs vs (.string p) → ∃ s, m.heap.string? p = some s
  array : ∀ p, m.heap.Occurs vs (.array p) → ∃ items, m.heap.array? p = some items
  acyclic : ∀ v, m.heap.Occurs vs v → ¬ Relation.TransGen m.heap.Item v v
  compare_ends : ∀ v w, m.heap.Occurs vs v → m.heap.Occurs vs w → Acc m.heap.Compares (v, w)
  compare_array : ∀ p q xs ys, m.heap.Occurs vs (.array p) → m.heap.Occurs vs (.array q) →
    m.heap.array? p = some xs → m.heap.array? q = some ys → m.heap.same (.array p) (.array q) =
      (p == q || (xs.length == ys.length && (xs.zip ys).all fun (x, y) => m.heap.same x y))
  copy_ends : ∀ v, m.heap.Occurs vs v → Acc m.heap.Item v
  copy_array : ∀ x p items, m.heap.Occurs vs (.array p) → m.heap.array? p = some items →
    m.snapshot x (.array p) = .array (items.map (m.snapshot x))
  equivalence : Equivalence fun v w : { v // m.heap.Occurs vs v ∧ m.heap.Lacks .double v } =>
    m.heap.same v w = true
  same_iff_snapshot : ∀ x v w, m.heap.Occurs vs v → m.heap.Occurs vs w →
    m.heap.Lacks .double v → m.heap.Lacks .double w → m.heap.Lacks .function v →
      m.heap.Lacks .function w → (m.heap.same v w = true ↔ m.snapshot x v = m.snapshot x w)

variable {m : Memory} {vs ws : List Value}

/-- Values that stand for data are compared and copied as they should be. -/
theorem Founds.comparable (h : m.Founds vs) : m.Comparable vs := by
  have hfounded {v : Value} (hv : m.heap.Occurs vs v) : m.heap.Founded v :=
    .of_occurs h.founded hv
  refine ⟨fun p hp => (hfounded hp).string?, fun p hp => (hfounded hp).array?,
    fun v hv => (hfounded hv).not_inside, fun v w hv _ => (hfounded hv).acc_compares w,
    fun p q xs ys hp hq => (hfounded hp).same_array (hfounded hq), fun v hv => (hfounded hv).acc,
    fun x p items hp => (hfounded hp).snapshot_array x, ⟨?_, ?_, ?_⟩,
    fun x v w hv hw hdouble _ hfunction _ => ?_⟩
  · rintro ⟨v, hv, -⟩
    obtain ⟨a, ha⟩ := (hfounded hv).held fun _ => ""
    exact (ha.same ha).trans a.same_self
  · rintro ⟨v, hv, hvdouble⟩ ⟨w, hw, hwdouble⟩ hsame
    obtain ⟨a, ha⟩ := (hfounded hv).held fun _ => ""
    obtain ⟨b, hb⟩ := (hfounded hw).held fun _ => ""
    exact (hb.same_iff ha hwdouble).2 ((ha.same_iff hb hvdouble).1 hsame).symm
  · rintro ⟨u, hu, hudouble⟩ ⟨v, hv, hvdouble⟩ ⟨w, hw, _⟩ huv hvw
    obtain ⟨a, ha⟩ := (hfounded hu).held fun _ => ""
    obtain ⟨b, hb⟩ := (hfounded hv).held fun _ => ""
    obtain ⟨c, hc⟩ := (hfounded hw).held fun _ => ""
    exact (ha.same_iff hc hudouble).2
      (((ha.same_iff hb hudouble).1 huv).trans ((hb.same_iff hc hvdouble).1 hvw))
  · obtain ⟨a, ha⟩ := (hfounded hv).held x.functionName
    obtain ⟨b, hb⟩ := (hfounded hw).held x.functionName
    rw [ha.same_iff hb hdouble, ha.snapshot x.names_shownName, hb.snapshot x.names_shownName]
    exact ⟨congrArg Datum.snapshot, Datum.eq_of_snapshot_eq a b (ha.lacks hfunction)⟩

end Memory

end Reflow
