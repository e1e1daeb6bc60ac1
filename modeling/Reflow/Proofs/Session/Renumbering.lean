import Mathlib.Data.List.Basic
import Reflow.Proofs.Session.Building
/-!
# The numbers of nodes do not matter

Every batch of edits takes numbers for its nodes, and one that fails does not give them back. All that
a mapping is asked is the same under other numbers, with the numbers in the answers replaced likewise,
and so are the fragments that it builds.

## Main definitions

* `SubtreeRecord.renumber`, `Report.renumber`, `NodeRef.renumber`: the same with other numbers.
* `GraphMapping.Renumbers`: a mapping with other numbers.
* `GraphMapping.Numbered`: all numbers in use have been given out.
* `shiftFrom`: moves the numbers that have not been given out.

## Main results

* `Renumbers.build`: the same fragments are built, whatever the numbers.
* `Renumbers.variableFor?`, `Renumbers.nodeForVariable?`: the same answers.
-/

namespace Reflow

/-- The record with other numbers. -/
def SubtreeRecord.renumber (rename : Nat → Nat) (r : SubtreeRecord) : SubtreeRecord :=
  { r with uids := r.uids.map rename }

theorem SubtreeRecord.key_renumber (rename : Nat → Nat) (r : SubtreeRecord) :
    (r.renumber rename).key = r.key := rfl

/-- The report with other numbers. -/
def Report.renumber (rename : Nat → Nat) (r : Report) : Report :=
  { r with modifiedNodes := r.modifiedNodes.map fun n => { n with uid := n.uid.map rename } }

/-- The reference with another number, if it has one. -/
def NodeRef.renumber (rename : Nat → Nat) : NodeRef → NodeRef
  | named name => named name
  | uid number => uid (rename number)
  | subtree id => subtree id

/-- The numbers from `n` on are moved up by `k`. -/
def shiftFrom (n k number : Nat) : Nat := if number < n then number else number + k

theorem shiftFrom_injective (n k : Nat) : Function.Injective (shiftFrom n k) := by
  intro a b h
  unfold shiftFrom at h
  split at h <;> split at h <;> omega

namespace GraphMapping

/-- `m'` is `m` with its numbers replaced; the next numbers of the two go with each other. -/
structure Renumbers (rename : Nat → Nat) (m m' : GraphMapping) : Prop where
  committed : m'.committed = m.committed.map (·.renumber rename)
  pending : m'.pending = m.pending.map (List.map (·.renumber rename))
  fresh : ∀ k, rename (m.nextUid + k) = m'.nextUid + k

/-- The numbers of all nodes have been given out before. -/
def Numbered (m : GraphMapping) : Prop :=
  ∀ r ∈ m.committed ++ m.pending.getD [], ∀ number ∈ r.uids, number < m.nextUid

section Renumbers

variable {rename : Nat → Nat} {m m' : GraphMapping}

/-- Numbers that have not been given out may be taken. -/
theorem Numbered.renumbers (h : m.Numbered) (hpending : m.pending = none) (k : Nat) :
    m.Renumbers (shiftFrom m.nextUid k) { m with nextUid := m.nextUid + k } := by
  have hkept : ∀ r ∈ m.committed, r = r.renumber (shiftFrom m.nextUid k) := by
    intro r hr
    have huids : r.uids.map (shiftFrom m.nextUid k) = r.uids.map id :=
      List.map_congr_left fun number hnumber =>
        if_pos (h r (List.mem_append_left _ hr) number hnumber)
    rw [List.map_id] at huids
    rw [SubtreeRecord.renumber, huids]
  refine ⟨?_, by simp [hpending], fun i => ?_⟩
  · exact (List.map_id _).symm.trans (List.map_congr_left hkept)
  · rw [shiftFrom, if_neg (by omega)]
    exact Nat.add_right_comm _ _ _

/-! ### The same answers -/

section Committed

variable (h : m'.committed = m.committed)
include h

theorem record?_congr : m'.record? = m.record? := by
  funext id
  rw [GraphMapping.record?, h]
  rfl

theorem recordOf?_congr : m'.recordOf? = m.recordOf? := by
  funext number
  rw [GraphMapping.recordOf?, h]
  rfl

theorem canonicalize_congr : m'.canonicalize = m.canonicalize := by
  funext number
  rw [GraphMapping.canonicalize, recordOf?_congr h]
  rfl

theorem variableName?_congr : m'.variableName? = m.variableName? := by
  funext number
  rw [GraphMapping.variableName?, recordOf?_congr h]
  rfl

theorem subtreeVariable?_congr : m'.subtreeVariable? = m.subtreeVariable? := by
  funext id
  rw [GraphMapping.subtreeVariable?, record?_congr h]
  rfl

theorem nodeForVariable?_congr : m'.nodeForVariable? = m.nodeForVariable? := by
  funext name
  rw [GraphMapping.nodeForVariable?, h]
  rfl

/-- What a reference stands for is committed. -/
theorem variableFor?_congr : m'.variableFor? = m.variableFor? := by
  funext node
  cases node <;> simp only [GraphMapping.variableFor?, canonicalize_congr h, variableName?_congr h,
    subtreeVariable?_congr h]

end Committed

theorem Renumbers.record? (h : m.Renumbers rename m') (id : SubtreeId) :
    m'.record? id = (m.record? id).map (·.renumber rename) := by
  rw [GraphMapping.record?, h.committed, Keyed.get?_map (SubtreeRecord.key_renumber rename)]
  rfl

theorem Renumbers.recordOf? (h : m.Renumbers rename m') (hinjective : Function.Injective rename)
    (number : Nat) :
    m'.recordOf? (rename number) = (m.recordOf? number).map (·.renumber rename) := by
  have hmem : ∀ r : SubtreeRecord, rename number ∈ (r.renumber rename).uids ↔ number ∈ r.uids :=
    fun r => List.mem_map_of_injective hinjective
  simp only [GraphMapping.recordOf?, h.committed, List.find?_map, Function.comp_def, hmem]

theorem SubtreeRecord.canonical?_renumber (r : SubtreeRecord) :
    (r.renumber rename).canonical? = r.canonical?.map rename := by
  simp [SubtreeRecord.canonical?, SubtreeRecord.renumber]

theorem Renumbers.canonicalize (h : m.Renumbers rename m') (hinjective : Function.Injective rename)
    (number : Nat) : m'.canonicalize (rename number) = rename (m.canonicalize number) := by
  rw [GraphMapping.canonicalize, h.recordOf? hinjective, GraphMapping.canonicalize]
  cases m.recordOf? number with
  | none => rfl
  | some r =>
    simp only [Option.map_some, Option.bind_some, SubtreeRecord.canonical?_renumber]
    cases r.canonical? <;> rfl

theorem Renumbers.variableName? (h : m.Renumbers rename m') (hinjective : Function.Injective rename)
    (number : Nat) : m'.variableName? (rename number) = m.variableName? number := by
  have hplace : ∀ r : SubtreeRecord, (r.renumber rename).uids.findIdx? (· == rename number) =
      r.uids.findIdx? (· == number) := by
    intro r
    simp only [SubtreeRecord.renumber, List.findIdx?_map, Function.comp_def, beq_eq_decide,
      hinjective.eq_iff]
  unfold GraphMapping.variableName?
  rw [h.recordOf? hinjective]
  cases m.recordOf? number with
  | none => rfl
  | some r =>
    simp only [Option.map_some, Option.bind_eq_bind, Option.bind_some, hplace]
    rfl

theorem Renumbers.subtreeVariable? (h : m.Renumbers rename m') (id : SubtreeId) :
    m'.subtreeVariable? id = m.subtreeVariable? id := by
  rw [GraphMapping.subtreeVariable?, h.record?, GraphMapping.subtreeVariable?]
  cases m.record? id <;> rfl

/-- A reference stands for the same variable. -/
theorem Renumbers.variableFor? (h : m.Renumbers rename m') (hinjective : Function.Injective rename)
    (node : NodeRef) : m'.variableFor? (node.renumber rename) = m.variableFor? node := by
  cases node with
  | named name => rfl
  | uid number =>
    rw [NodeRef.renumber, GraphMapping.variableFor?, h.canonicalize hinjective,
      h.variableName? hinjective]
    rfl
  | subtree id => exact h.subtreeVariable? id

/-- A variable has the same subtree, with the number that goes with it. -/
theorem Renumbers.nodeForVariable? (h : m.Renumbers rename m') (name : String) :
    m'.nodeForVariable? name = (m.nodeForVariable? name).map fun (id, number) =>
      (id, rename number) := by
  simp only [GraphMapping.nodeForVariable?, h.committed, List.findSome?_map]
  induction m.committed with
  | nil => rfl
  | cons r rest ih =>
    simp only [List.findSome?_cons, Function.comp_apply, SubtreeRecord.canonical?_renumber]
    have hassigns : (r.renumber rename).assigns name = r.assigns name := rfl
    rw [hassigns]
    cases r.assigns name with
    | false => simpa using ih
    | true =>
      cases r.canonical? with
      | none => simpa using ih
      | some number => rfl

/-! ### The same fragments -/

theorem SubtreeRecord.renumber_ofSubtree {first first' : Nat}
    (h : ∀ k, rename (first + k) = first' + k) (s : Subtree) :
    (SubtreeRecord.ofSubtree first s).renumber rename = SubtreeRecord.ofSubtree first' s := by
  have huids : (List.range' first s.statements.length).map rename =
      List.range' first' s.statements.length := by
    simp only [List.range'_eq_map_range, List.map_map]
    exact List.map_congr_left fun k _ => h k
  rw [SubtreeRecord.renumber, SubtreeRecord.ofSubtree, huids]
  rfl

theorem enlist_renumber (records : List SubtreeRecord) {next next' : Nat}
    (h : ∀ k, rename (next + k) = next' + k) (subtrees : List Subtree) :
    (enlist (records.map (·.renumber rename)) next' subtrees).1 =
        (enlist records next subtrees).1.map (·.renumber rename) ∧
      ∀ k, rename ((enlist records next subtrees).2 + k) =
        (enlist (records.map (·.renumber rename)) next' subtrees).2 + k := by
  induction subtrees generalizing records next next' with
  | nil => exact ⟨rfl, h⟩
  | cons s rest ih =>
    have hnext : ∀ k, rename (next + s.statements.length + k) =
        next' + s.statements.length + k := by
      intro k
      rw [Nat.add_assoc, h, Nat.add_assoc]
    simp only [enlist]
    rw [← SubtreeRecord.renumber_ofSubtree h s, Keyed.put_map (SubtreeRecord.key_renumber rename)]
    exact ih _ hnext

theorem foldl_erase_renumber (gone : List Subtree) (records : List SubtreeRecord) :
    gone.foldl (fun rs s => Keyed.erase SubtreeRecord.key s.id.toNat rs)
        (records.map (·.renumber rename)) =
      (gone.foldl (fun rs s => Keyed.erase SubtreeRecord.key s.id.toNat rs) records).map
        (·.renumber rename) := by
  induction gone generalizing records with
  | nil => rfl
  | cons s rest ih =>
    rw [List.foldl_cons, Keyed.erase_map (SubtreeRecord.key_renumber rename), ih]
    rfl

theorem Renumbers.gone (h : m.Renumbers rename m') (b : Batch) : m'.gone b = m.gone b := by
  simp only [GraphMapping.gone, h.record?, Option.isSome_map]

theorem Renumbers.dropped (h : m.Renumbers rename m') (b : Batch) : m'.dropped b = m.dropped b := by
  have hrecords : (m.gone b).filterMap (fun s => m'.record? s.id) =
      ((m.gone b).filterMap fun s => m.record? s.id).map (·.renumber rename) := by
    simp only [h.record?, List.map_filterMap]
  rw [GraphMapping.dropped, h.gone, hrecords, List.flatMap_map]
  rfl

theorem Renumbers.kept (h : m.Renumbers rename m') (b : Batch) :
    m'.kept b = (m.kept b).map (·.renumber rename) := by
  rw [GraphMapping.kept, h.gone, h.committed, foldl_erase_renumber]
  rfl

/-- A batch has the same fragment, whatever the numbers of the mapping. -/
theorem Renumbers.build (h : m.Renumbers rename m') (b : Batch) :
    (m'.build b).1 = (m.build b).1 ∧ (m.build b).2.Renumbers rename (m'.build b).2 := by
  obtain ⟨hrecords, hfresh⟩ := enlist_renumber (m.kept b) h.fresh (b.modified ++ b.added)
  rw [← h.kept] at hrecords hfresh
  have horphans : m'.orphans b = m.orphans b := by
    simp only [orphans, relisted, h.dropped, hrecords, List.any_map, Function.comp_def,
      SubtreeRecord.renumber]
  refine ⟨?_, h.committed, congrArg some hrecords, hfresh⟩
  rw [build_eq, build_eq, fragmentOf, fragmentOf, horphans, h.gone]

theorem Renumbers.commit (h : m.Renumbers rename m') : m.commit.Renumbers rename m'.commit := by
  refine ⟨?_, rfl, h.fresh⟩
  simp only [GraphMapping.commit, h.pending, h.committed]
  cases m.pending <;> rfl

theorem Renumbers.abandon (h : m.Renumbers rename m') : m.abandon.Renumbers rename m'.abandon :=
  ⟨h.committed, rfl, h.fresh⟩

end Renumbers

/-! ### Numbers in use -/

section Numbered

variable {m : GraphMapping}

theorem numbered_enlist (records : List SubtreeRecord) {next : Nat} (subtrees : List Subtree)
    (h : ∀ r ∈ records, ∀ number ∈ r.uids, number < next) :
    next ≤ (enlist records next subtrees).2 ∧
      ∀ r ∈ (enlist records next subtrees).1, ∀ number ∈ r.uids,
        number < (enlist records next subtrees).2 := by
  induction subtrees generalizing records next with
  | nil => exact ⟨Nat.le_refl _, h⟩
  | cons s rest ih =>
    have hput : ∀ r ∈ Keyed.put SubtreeRecord.key (.ofSubtree next s) records,
        ∀ number ∈ r.uids, number < next + s.statements.length := by
      intro r hr number hnumber
      rcases Keyed.mem_put _ hr with rfl | hr
      · exact (List.mem_range'_1.1 hnumber).2
      · have := h r hr number hnumber
        omega
    obtain ⟨hle, hrest⟩ := ih _ hput
    exact ⟨Nat.le_trans (Nat.le_add_right _ _) hle, hrest⟩

theorem Numbered.build (h : m.Numbered) (b : Batch) : (m.build b).2.Numbered := by
  obtain ⟨hle, hrecords⟩ := numbered_enlist (m.kept b) (b.modified ++ b.added)
    fun r hr number hnumber => h r (List.mem_append_left _ (mem_kept.1 hr).1) number hnumber
  intro r hr number hnumber
  rcases List.mem_append.1 hr with hr | hr
  · exact Nat.lt_of_lt_of_le (h r (List.mem_append_left _ hr) number hnumber) hle
  · exact hrecords r hr number hnumber

theorem Numbered.commit (h : m.Numbered) : m.commit.Numbered := by
  intro r hr number hnumber
  refine h r ?_ number hnumber
  simp only [GraphMapping.commit, Option.getD_none, List.append_nil] at hr
  rw [List.mem_append]
  cases hpending : m.pending with
  | none => exact .inl (by simpa [hpending] using hr)
  | some records => exact .inr (by simpa [hpending] using hr)

theorem Numbered.abandon (h : m.Numbered) : m.abandon.Numbered := by
  intro r hr number hnumber
  simp only [GraphMapping.abandon, Option.getD_none, List.append_nil] at hr
  exact h r (List.mem_append_left _ hr) number hnumber

end Numbered

end GraphMapping

end Reflow
