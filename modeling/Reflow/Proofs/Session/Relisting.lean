import Reflow.Proofs.Program.Relabelling
import Reflow.Proofs.Session.Renumbering
/-!
# Mappings under other identities

The records of a mapping are in the order of the identities, so that other identities put them in another
order. Nothing that is asked of the mapping depends on it: a subtree has one record at most, and so has a
node. A batch of other subtrees is built to the fragment of the other subtrees.

## Main definitions

* `Batch.relabel`, `Edits.relabel`, `NodeRef.relabel`: the same with other identities.
* `GraphMapping.Relists`: the same records under other identities.
* `GraphMapping.Relabels`: a mapping with other identities.

## Main results

* `Batch.ofEdits_relabel`: other identities are as often repeated.
* `Relabels.build`: the same fragments are built.
* `Relabels.nodeUids`, `Relabels.variableFor?`: the same answers.
-/

namespace Reflow

/-! ### Batches -/

/-- The subtree under another identity. -/
def Subtree.relabel (p : SubtreeId → SubtreeId) (s : Subtree) : Subtree := { s with id := p s.id }

/-- The edits of other subtrees. -/
def Edits.relabel (p : SubtreeId → SubtreeId) (e : Edits) : Edits :=
  ⟨e.added.map (·.relabel p), e.modified.map (·.relabel p), e.deleted.map (·.relabel p)⟩

/-- The batch of other subtrees. -/
def Batch.relabel (p : SubtreeId → SubtreeId) (b : Batch) : Batch :=
  ⟨b.added.map (·.relabel p), b.modified.map (·.relabel p), b.deleted.map (·.relabel p)⟩

/-- The reference to another subtree, if it is one to a subtree. -/
def NodeRef.relabel (p : SubtreeId → SubtreeId) : NodeRef → NodeRef
  | named name => named name
  | uid number => uid number
  | subtree id => subtree (p id)

section Batch

variable {p : SubtreeId → SubtreeId} (hp : Function.Injective p)
include hp

theorem Subtree.occurs_relabel (id : SubtreeId) (subtrees : List Subtree) :
    occurs (p id) (subtrees.map (·.relabel p)) = occurs id subtrees := by
  have hid (s : Subtree) : ((s.relabel p).id == p id) = (s.id == id) := hp.beq_eq
  simp only [occurs, List.any_map, Function.comp_def, hid]

theorem Subtree.put_relabel (s : Subtree) (subtrees : List Subtree) :
    put (s.relabel p) (subtrees.map (·.relabel p)) = (put s subtrees).map (·.relabel p) := by
  induction subtrees with
  | nil => rfl
  | cons t rest ih =>
    have hid : (t.relabel p).id = (s.relabel p).id ↔ t.id = s.id := hp.eq_iff
    simp only [List.map_cons, put, hid, ih]
    split <;> rfl

theorem Subtree.foldl_put_relabel (subtrees done : List Subtree) :
    (subtrees.map (·.relabel p)).foldl (fun done s => put s done) (done.map (·.relabel p)) =
      (subtrees.foldl (fun done s => put s done) done).map (·.relabel p) := by
  rw [List.foldl_map]
  refine List.foldl_hom (List.map (Subtree.relabel p)) ?_
  exact fun done s => put_relabel hp s done

theorem Subtree.distinct_relabel (subtrees : List Subtree) :
    distinct (subtrees.map (·.relabel p)) = (distinct subtrees).map (·.relabel p) :=
  foldl_put_relabel hp subtrees []

/-- The batch of other subtrees is built from the edits of these. -/
theorem Batch.ofEdits_relabel (e : Edits) : ofEdits (e.relabel p) = (ofEdits e).relabel p := by
  have hoccurs (s : Subtree) (subtrees : List Subtree) :
      Subtree.occurs (s.relabel p).id (subtrees.map (·.relabel p)) =
        Subtree.occurs s.id subtrees := Subtree.occurs_relabel hp s.id subtrees
  simp only [ofEdits, Edits.relabel, relabel, Subtree.distinct_relabel hp, List.filter_map,
    Function.comp_def, hoccurs]

end Batch

/-! ### Records -/

/-- The record of another subtree. -/
def SubtreeRecord.relabel (p : SubtreeId → SubtreeId) (r : SubtreeRecord) : SubtreeRecord :=
  { r with subtree := p r.subtree }

namespace GraphMapping

/-- The records of `records'` are those of `records` under other identities, and no two of them share a
node. -/
structure Relists (p : SubtreeId → SubtreeId) (records records' : List SubtreeRecord) : Prop where
  left : Keyed.Sorted SubtreeRecord.key records
  right : Keyed.Sorted SubtreeRecord.key records'
  disjoint : ∀ r ∈ records, ∀ r' ∈ records, ∀ number ∈ r.uids, number ∈ r'.uids → r = r'
  mem : ∀ r', r' ∈ records' ↔ ∃ r ∈ records, r.relabel p = r'

/-- `m'` is `m` with other identities. -/
structure Relabels (p : SubtreeId → SubtreeId) (m m' : GraphMapping) : Prop where
  committed : Relists p m.committed m'.committed
  pending : Option.Rel (Relists p) m.pending m'.pending
  nextUid : m'.nextUid = m.nextUid

theorem relabels_empty (p : SubtreeId → SubtreeId) : Relabels p {} {} :=
  ⟨⟨List.Pairwise.nil, List.Pairwise.nil, fun _ h => (by cases h), fun _ => by simp⟩, .none, rfl⟩

variable {p : SubtreeId → SubtreeId} {records records' : List SubtreeRecord} {m m' : GraphMapping}

namespace Relists

/-- What holds of some record, whatever its identity, holds of some record under other identities. -/
theorem any (h : Relists p records records') {f : SubtreeRecord → Bool}
    (hf : ∀ r, f (r.relabel p) = f r) : records'.any f = records.any f := by
  rw [Bool.eq_iff_iff, List.any_eq_true, List.any_eq_true]
  constructor
  · rintro ⟨r', hr', hholds⟩
    obtain ⟨r, hr, rfl⟩ := (h.mem r').1 hr'
    exact ⟨r, hr, hf r ▸ hholds⟩
  · rintro ⟨r, hr, hholds⟩
    exact ⟨r.relabel p, (h.mem _).2 ⟨r, hr, rfl⟩, (hf r).symm ▸ hholds⟩

/-- A record is put in its place under the other identities too. -/
theorem put (h : Relists p records records') (hp : Function.Injective p) {a : SubtreeRecord}
    (hfresh : ∀ r ∈ records, ∀ number ∈ r.uids, number ∉ a.uids) :
    Relists p (Keyed.put SubtreeRecord.key a records)
      (Keyed.put SubtreeRecord.key (a.relabel p) records') where
  left := Keyed.sorted_put _ _ h.left
  right := Keyed.sorted_put _ _ h.right
  disjoint := by
    intro r hr r' hr' number hnumber hnumber'
    rcases Keyed.mem_put _ hr with rfl | hold <;> rcases Keyed.mem_put _ hr' with rfl | hold'
    · rfl
    · exact absurd hnumber (hfresh r' hold' number hnumber')
    · exact absurd hnumber' (hfresh r hold number hnumber)
    · exact h.disjoint r hold r' hold' number hnumber hnumber'
  mem := by
    intro r'
    have hkey (r : SubtreeRecord) : (r.relabel p).key = (a.relabel p).key ↔ r.key = a.key :=
      key_eq_iff.trans (hp.eq_iff.trans key_eq_iff.symm)
    rw [Keyed.mem_put_iff h.right, h.mem]
    simp only [Keyed.mem_put_iff h.left]
    constructor
    · rintro (rfl | ⟨⟨r, hr, rfl⟩, hne⟩)
      · exact ⟨a, .inl rfl, rfl⟩
      · exact ⟨r, .inr ⟨hr, mt (hkey r).2 hne⟩, rfl⟩
    · rintro ⟨r, rfl | ⟨hr, hne⟩, rfl⟩
      · exact .inl rfl
      · exact .inr ⟨⟨r, hr, rfl⟩, mt (hkey r).1 hne⟩

/-- Other subtrees are enlisted with the same numbers. -/
theorem enlist (h : Relists p records records') (hp : Function.Injective p) {next : Nat}
    (hnumbered : ∀ r ∈ records, ∀ number ∈ r.uids, number < next) (subtrees : List Subtree) :
    Relists p (enlist records next subtrees).1
        (enlist records' next (subtrees.map (·.relabel p))).1 ∧
      (enlist records' next (subtrees.map (·.relabel p))).2 =
        (enlist records next subtrees).2 := by
  induction subtrees generalizing records records' next with
  | nil => exact ⟨h, rfl⟩
  | cons s rest ih =>
    refine ih (h.put hp (a := .ofSubtree next s) fun r hr number hnumber hmem => ?_) ?_
    · have := hnumbered r hr number hnumber
      have := (List.mem_range'_1.1 hmem).1
      omega
    · intro r hr number hnumber
      rcases Keyed.mem_put _ hr with rfl | hr
      · exact (List.mem_range'_1.1 hnumber).2
      · exact Nat.lt_of_lt_of_le (hnumbered r hr number hnumber) (Nat.le_add_right _ _)

end Relists

/-! ### The same answers -/

theorem mem_of_recordOf? {number : Nat} {r : SubtreeRecord} (h : m.recordOf? number = some r) :
    r ∈ m.committed ∧ number ∈ r.uids :=
  ⟨List.mem_of_find?_eq_some h, by simpa using List.find?_some h⟩

namespace Relabels

theorem record? (h : m.Relabels p m') (hp : Function.Injective p) (id : SubtreeId) :
    m'.record? (p id) = (m.record? id).map (·.relabel p) := by
  refine Option.ext fun r' => ?_
  rw [record?_eq_some h.committed.right, h.committed.mem, Option.map_eq_some_iff]
  simp only [record?_eq_some h.committed.left]
  constructor
  · rintro ⟨⟨r, hr, rfl⟩, hid⟩
    exact ⟨r, ⟨hr, hp hid⟩, rfl⟩
  · rintro ⟨r, ⟨hr, rfl⟩, rfl⟩
    exact ⟨⟨r, hr, rfl⟩, rfl⟩

/-- A subtree has the same nodes. -/
theorem nodeUids (h : m.Relabels p m') (hp : Function.Injective p) (id : SubtreeId) :
    m'.nodeUids (p id) = m.nodeUids id := by
  rw [GraphMapping.nodeUids, h.record? hp, GraphMapping.nodeUids]
  cases m.record? id <;> rfl

/-- A node belongs to the same subtree, though there may be others before it in the list. -/
theorem recordOf? (h : m.Relabels p m') (number : Nat) :
    m'.recordOf? number = (m.recordOf? number).map (·.relabel p) := by
  cases hr : m.recordOf? number with
  | none =>
    refine List.find?_eq_none.2 fun r' hr' => ?_
    obtain ⟨r, hmem, rfl⟩ := (h.committed.mem r').1 hr'
    exact List.find?_eq_none.1 hr r hmem
  | some r =>
    obtain ⟨hr, hnumber⟩ := mem_of_recordOf? hr
    cases hr' : m'.recordOf? number with
    | none =>
      have hmem : r.relabel p ∈ m'.committed := (h.committed.mem _).2 ⟨r, hr, rfl⟩
      exact (List.find?_eq_none.1 hr' _ hmem (decide_eq_true hnumber)).elim
    | some r' =>
      obtain ⟨hr', hnumber'⟩ := mem_of_recordOf? hr'
      obtain ⟨t, ht, rfl⟩ := (h.committed.mem r').1 hr'
      rw [h.committed.disjoint t ht r hr number hnumber' hnumber]
      rfl

/-- A reference stands for the same variable. -/
theorem variableFor? (h : m.Relabels p m') (hp : Function.Injective p) (node : NodeRef) :
    m'.variableFor? (node.relabel p) = m.variableFor? node := by
  cases node with
  | named name => rfl
  | uid number =>
    have hcanonical : m'.canonicalize number = m.canonicalize number := by
      rw [canonicalize, h.recordOf?, canonicalize]
      cases m.recordOf? number <;> rfl
    simp only [NodeRef.relabel, GraphMapping.variableFor?, hcanonical, variableName?, h.recordOf?]
    cases m.recordOf? (m.canonicalize number) <;> rfl
  | subtree id =>
    simp only [NodeRef.relabel, GraphMapping.variableFor?, subtreeVariable?, h.record? hp]
    cases m.record? id <;> rfl

/-! ### The same fragments -/

theorem gone (h : m.Relabels p m') (hp : Function.Injective p) (b : Batch) :
    m'.gone (b.relabel p) = (m.gone b).map (·.relabel p) := by
  have hlive (s : Subtree) : (m'.record? (s.relabel p).id).isSome = (m.record? s.id).isSome :=
    (congrArg Option.isSome (h.record? hp s.id)).trans Option.isSome_map
  simp only [GraphMapping.gone, Batch.relabel, List.map_append, List.filter_map, Function.comp_def,
    hlive]

theorem dropped (h : m.Relabels p m') (hp : Function.Injective p) (b : Batch) :
    m'.dropped (b.relabel p) = m.dropped b := by
  have hrecord (s : Subtree) : m'.record? (s.relabel p).id = (m.record? s.id).map (·.relabel p) :=
    h.record? hp s.id
  simp only [GraphMapping.dropped, h.gone hp, List.filterMap_map, Function.comp_def, hrecord]
  rw [← List.map_filterMap, List.flatMap_map]
  rfl

theorem kept (h : m.Relabels p m') (hp : Function.Injective p) (b : Batch) :
    Relists p (m.kept b) (m'.kept (b.relabel p)) where
  left := sorted_kept h.committed.left
  right := sorted_kept h.committed.right
  disjoint := fun r hr r' hr' =>
    h.committed.disjoint r (mem_kept.1 hr).1 r' (mem_kept.1 hr').1
  mem := by
    intro r'
    simp only [mem_kept, h.gone hp, h.committed.mem, List.forall_mem_map]
    constructor
    · rintro ⟨⟨r, hr, rfl⟩, hkept⟩
      exact ⟨r, ⟨hr, fun s hs heq => hkept s hs (congrArg p heq)⟩, rfl⟩
    · rintro ⟨r, ⟨hr, hkept⟩, rfl⟩
      exact ⟨⟨r, hr, rfl⟩, fun s hs heq => hkept s hs (hp heq)⟩

theorem relisted (h : m.Relabels p m') (hp : Function.Injective p) (hnumbered : m.Numbered)
    (b : Batch) : Relists p (m.relisted b).1 (m'.relisted (b.relabel p)).1 ∧
      (m'.relisted (b.relabel p)).2 = (m.relisted b).2 := by
  have hadded : (b.relabel p).modified ++ (b.relabel p).added =
      (b.modified ++ b.added).map (·.relabel p) := List.map_append.symm
  rw [GraphMapping.relisted, GraphMapping.relisted, hadded, h.nextUid]
  exact (h.kept hp b).enlist hp
    (fun r hr number hnumber => hnumbered r (List.mem_append_left _ (mem_kept.1 hr).1) number hnumber)
    (b.modified ++ b.added)

/-- A batch of other subtrees has the fragment of these. -/
theorem fragmentOf (h : m.Relabels p m') (hp : Function.Injective p) (hnumbered : m.Numbered)
    (b : Batch) : m'.fragmentOf (b.relabel p) = (m.fragmentOf b).relabel p := by
  have horphans : m'.orphans (b.relabel p) = m.orphans b := by
    have hbound (name : String) := (h.relisted hp hnumbered b).1.any
      (f := fun r => name ∈ r.bound) fun _ => rfl
    simp only [orphans, h.dropped hp, hbound]
  have hadded : ((b.relabel p).modified ++ (b.relabel p).added).filter (!·.statements.isEmpty) =
      ((b.modified ++ b.added).filter (!·.statements.isEmpty)).map (·.relabel p) :=
    (congrArg _ List.map_append.symm).trans List.filter_map
  have hretired (f : Fragment) :
      ((m.gone b).map (·.relabel p)).foldl (fun f s => f.retire s.id) (f.relabel p) =
        ((m.gone b).foldl (fun f s => f.retire s.id) f).relabel p := by
    rw [List.foldl_map]
    refine List.foldl_hom (Fragment.relabel p) ?_
    exact fun f s => f.retire_relabel hp s.id
  simp only [GraphMapping.fragmentOf, horphans, h.gone hp, hadded, Fragment.relabel, List.map_append,
    List.map_map, Fragment.mk.injEq]
  exact ⟨rfl, congrArg Fragment.retired (hretired {})⟩

theorem build (h : m.Relabels p m') (hp : Function.Injective p) (hnumbered : m.Numbered)
    (b : Batch) : (m'.build (b.relabel p)).1 = (m.build b).1.relabel p ∧
      (m.build b).2.Relabels p (m'.build (b.relabel p)).2 := by
  obtain ⟨hrecords, hnext⟩ := h.relisted hp hnumbered b
  exact ⟨h.fragmentOf hp hnumbered b, h.committed, .some hrecords, hnext⟩

theorem commit (h : m.Relabels p m') : m.commit.Relabels p m'.commit := by
  refine ⟨?_, .none, h.nextUid⟩
  have hpending := h.pending
  unfold GraphMapping.commit
  generalize m.pending = pending, m'.pending = pending' at hpending
  cases hpending with
  | none => exact h.committed
  | some hrecords => exact hrecords

theorem abandon (h : m.Relabels p m') : m.abandon.Relabels p m'.abandon :=
  ⟨h.committed, .none, h.nextUid⟩

end Relabels

end GraphMapping

end Reflow
