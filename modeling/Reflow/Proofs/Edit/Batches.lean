import Mathlib.Data.Finset.Card
import Reflow.Edit.Batch
/-!
# Canonical batches

A batch is put together from edits that may overlap. Each of its sets condenses one list of edits: what is
left of the list has each identity once, in the place of its first occurrence and with the content of its last
one. A condensed list is determined by this, so that it does not matter in which way it was obtained, and
condensing it again changes nothing.

## Main definitions

* `Subtree.Condenses`: what is left of a list of subtrees when each identity is kept once.
* `Batch.Canonical`: no subtree is touched twice.
* `EditCall`: one edit of a host, with `Edits.ofCalls` collecting a series of them.

## Main results

* `Subtree.Condenses.unique`: there is one way to condense a list.
* `Batch.condenses_added`, `Batch.condenses_modified`, `Batch.condenses_deleted`: what the sets of a batch
  are.
* `Batch.canonical_ofEdits`: the batches that hosts build are canonical.
* `Batch.ofEdits_canonical`: a canonical batch stays as it is.
-/

namespace Reflow

namespace Subtree

variable {p q : SubtreeId → Prop} {s t : Subtree} {input set set' done : List Subtree}

theorem occurs_iff {id : SubtreeId} {subtrees : List Subtree} :
    occurs id subtrees = true ↔ ∃ t ∈ subtrees, t.id = id := by
  simp [occurs]

theorem occurs_iff_mem {id : SubtreeId} {subtrees : List Subtree} :
    occurs id subtrees = true ↔ id ∈ subtrees.map Subtree.id := by
  rw [occurs_iff, List.mem_map]

theorem map_id_put (s : Subtree) (subtrees : List Subtree) : (put s subtrees).map Subtree.id =
    if s.id ∈ subtrees.map Subtree.id then subtrees.map Subtree.id
    else subtrees.map Subtree.id ++ [s.id] := by
  induction subtrees with
  | nil => simp [put]
  | cons t rest ih =>
    unfold put
    by_cases ht : t.id = s.id
    · simp [ht]
    · rw [if_neg ht, List.map_cons, ih, List.map_cons]
      by_cases hs : s.id ∈ rest.map Subtree.id
      · rw [if_pos hs, if_pos (List.mem_cons_of_mem _ hs)]
      · rw [if_neg hs, if_neg (by simpa [Ne.symm ht] using hs), List.cons_append]

/-- A subtree takes the place of the one with its identity. -/
theorem eq_or_mem_of_mem_put (h : (done.map Subtree.id).Nodup) (ht : t ∈ put s done) :
    t = s ∨ t ∈ done ∧ t.id ≠ s.id := by
  induction done with
  | nil => exact .inl (List.mem_singleton.1 ht)
  | cons u rest ih =>
    obtain ⟨hu, hrest⟩ := List.nodup_cons.1 h
    unfold put at ht
    split at ht
    · rename_i heq
      rcases List.mem_cons.1 ht with rfl | ht
      · exact .inl rfl
      · exact .inr ⟨List.mem_cons_of_mem _ ht, fun hid => hu (List.mem_map.2 ⟨t, ht, hid.trans heq.symm⟩)⟩
    · rename_i hne
      rcases List.mem_cons.1 ht with rfl | ht
      · exact .inr ⟨List.mem_cons_self, hne⟩
      · exact (ih hrest ht).imp_right (And.imp_left (List.mem_cons_of_mem _))

theorem distinct_concat (input : List Subtree) (s : Subtree) :
    distinct (input ++ [s]) = put s (distinct input) := List.foldl_concat ..

/-! ### Condensed lists -/

/-- The set has each identity of the input that satisfies `p` once. The identities stand in the order of
their first occurrences, each with the content of its last occurrence. -/
structure Condenses (p : SubtreeId → Prop) (input set : List Subtree) : Prop where
  mem_ids : ∀ id, id ∈ set.map Subtree.id ↔ id ∈ input.map Subtree.id ∧ p id
  ordered : (set.map Subtree.id).Pairwise fun id id' =>
    (input.map Subtree.id).idxOf id < (input.map Subtree.id).idxOf id'
  content : ∀ t ∈ set, (input.filter (·.id = t.id)).getLast? = some t

namespace Condenses

theorem nodup (h : Condenses p input set) : (set.map Subtree.id).Nodup := by
  refine h.ordered.imp fun hlt heq => ?_
  rw [heq] at hlt
  exact Nat.lt_irrefl _ hlt

/-- Two condensed lists of the same input have the same subtrees. -/
theorem subset (h : Condenses p input set) (h' : Condenses p input set') : set ⊆ set' := by
  intro t ht
  have hid : t.id ∈ set'.map Subtree.id := (h'.mem_ids _).2 ((h.mem_ids _).1 (List.mem_map_of_mem ht))
  obtain ⟨t', ht', heq⟩ := List.mem_map.1 hid
  have hlast := h'.content t' ht'
  rw [heq, h.content t ht] at hlast
  exact Option.some.inj hlast ▸ ht'

/-- There is one way to condense a list. -/
theorem unique (h : Condenses p input set) (h' : Condenses p input set') : set = set' := by
  have hperm : set.Perm set' := (List.perm_ext_iff_of_nodup (List.Nodup.of_map _ h.nodup)
    (List.Nodup.of_map _ h'.nodup)).2 fun t => ⟨fun ht => h.subset h' ht, fun ht => h'.subset h ht⟩
  have hordered := List.pairwise_map.1 h.ordered
  have hordered' := List.pairwise_map.1 h'.ordered
  exact hperm.eq_of_pairwise (fun _ _ _ _ hlt hlt' => absurd hlt' (Nat.lt_asymm hlt)) hordered hordered'

/-- Only some of the identities. -/
theorem filter (h : Condenses p input set) {keep : Subtree → Bool} (hkeep : ∀ t, keep t = true ↔ q t.id) :
    Condenses (fun id => p id ∧ q id) input (set.filter keep) where
  mem_ids id := by
    rw [← and_assoc, ← h.mem_ids]
    constructor
    · intro hid
      obtain ⟨t, ht, rfl⟩ := List.mem_map.1 hid
      obtain ⟨ht, hq⟩ := List.mem_filter.1 ht
      exact ⟨List.mem_map_of_mem ht, (hkeep t).1 hq⟩
    · rintro ⟨hid, hq⟩
      obtain ⟨t, ht, rfl⟩ := List.mem_map.1 hid
      exact List.mem_map_of_mem (List.mem_filter.2 ⟨ht, (hkeep t).2 hq⟩)
  ordered := h.ordered.sublist (List.filter_sublist.map _)
  content t ht := h.content t (List.mem_filter.1 ht).1

theorem congr (h : Condenses p input set) (hpq : ∀ id, p id ↔ q id) : Condenses q input set :=
  ⟨fun id => (h.mem_ids id).trans (and_congr_right' (hpq id)), h.ordered, h.content⟩

/-- A list without repeated identities is condensed. -/
theorem of_nodup (h : (input.map Subtree.id).Nodup) : Condenses (fun _ => True) input input where
  mem_ids id := (and_iff_left trivial).symm
  ordered := by
    refine List.pairwise_iff_getElem.2 fun i j hi hj hlt => ?_
    rwa [h.idxOf_getElem i hi, h.idxOf_getElem j hj]
  content t ht := by
    cases hlast : (input.filter (·.id = t.id)).getLast? with
    | none =>
      have hmem : t ∈ input.filter (·.id = t.id) := List.mem_filter.2 ⟨ht, decide_eq_true rfl⟩
      rw [List.getLast?_eq_none_iff.1 hlast] at hmem
      cases hmem
    | some u =>
      obtain ⟨hu, hid⟩ := List.mem_filter.1 (List.mem_of_getLast? hlast)
      rw [List.inj_on_of_nodup_map h hu ht (of_decide_eq_true hid)]

/-- One more occurrence of an identity replaces the content, or comes last. -/
theorem concat (h : Condenses (fun _ => True) input set) (s : Subtree) :
    Condenses (fun _ => True) (input ++ [s]) (put s set) where
  mem_ids id := by
    have hids := h.mem_ids
    simp only [and_true] at hids ⊢
    rw [map_id_put, List.map_append, List.mem_append, ← hids]
    split <;> simp_all
  ordered := by
    have hold : (set.map Subtree.id).Pairwise fun id id' =>
        ((input ++ [s]).map Subtree.id).idxOf id < ((input ++ [s]).map Subtree.id).idxOf id' := by
      refine h.ordered.imp_of_mem fun hid hid' hlt => ?_
      rwa [List.map_append, List.idxOf_append_of_mem ((h.mem_ids _).1 hid).1,
        List.idxOf_append_of_mem ((h.mem_ids _).1 hid').1]
    rw [map_id_put]
    split
    · exact hold
    · rename_i hs
      refine List.pairwise_append.2 ⟨hold, List.pairwise_singleton .., fun id hid id' hid' => ?_⟩
      obtain rfl := List.mem_singleton.1 hid'
      have hmem := ((h.mem_ids id).1 hid).1
      have hnew : s.id ∉ input.map Subtree.id := fun hmem => hs ((h.mem_ids _).2 ⟨hmem, trivial⟩)
      rw [List.map_append, List.idxOf_append_of_mem hmem, List.idxOf_append_of_notMem hnew]
      exact Nat.lt_of_lt_of_le (List.idxOf_lt_length_of_mem hmem) (Nat.le_add_right _ _)
  content t ht := by
    rw [List.filter_append, List.getLast?_append]
    rcases eq_or_mem_of_mem_put h.nodup ht with rfl | ⟨ht, hne⟩
    · simp
    · rw [List.filter_cons_of_neg (by simpa using Ne.symm hne), h.content t ht]
      rfl

end Condenses

/-- Each identity once, where it first occurs, with the content of its last occurrence. -/
theorem condenses_distinct (input : List Subtree) : Condenses (fun _ => True) input (distinct input) := by
  induction input using List.reverseRecOn with
  | nil => exact .of_nodup List.nodup_nil
  | append_singleton input s ih =>
    rw [distinct_concat]
    exact ih.concat s

/-- A list without repeated identities stays as it is. -/
theorem distinct_of_nodup (h : (input.map Subtree.id).Nodup) : distinct input = input :=
  (condenses_distinct input).unique (.of_nodup h)

end Subtree

/-! ### The sets of a batch -/

namespace Batch

open Subtree

/-- No subtree is touched twice. -/
def Canonical (b : Batch) : Prop := (b.all.map Subtree.id).Nodup

instance : DecidablePred Canonical := fun _ => inferInstanceAs (Decidable (List.Nodup _))

variable {b : Batch} {e : Edits}

theorem contains_iff {id : SubtreeId} : b.contains id = true ↔ ∃ t ∈ b.all, t.id = id := occurs_iff

theorem ne_of_contains_eq_false {id : SubtreeId} (hid : b.contains id = false) {t : Subtree}
    (ht : t ∈ b.all) : t.id ≠ id := fun heq =>
  Bool.false_ne_true (hid.symm.trans (contains_iff.2 ⟨t, ht, heq⟩))

/-- All deletions count. -/
theorem condenses_deleted (e : Edits) : Condenses (fun _ => True) e.deleted (ofEdits e).deleted :=
  condenses_distinct e.deleted

theorem mem_ids_deleted {id : SubtreeId} :
    id ∈ (ofEdits e).deleted.map Subtree.id ↔ id ∈ e.deleted.map Subtree.id :=
  ((condenses_deleted e).mem_ids id).trans (and_iff_left trivial)

/-- A deletion wins over a modification. -/
theorem condenses_modified (e : Edits) :
    Condenses (fun id => id ∉ e.deleted.map Subtree.id) e.modified (ofEdits e).modified := by
  refine ((condenses_distinct e.modified).filter (q := fun id => id ∉ e.deleted.map Subtree.id)
    fun t => ?_).congr fun id => and_iff_right trivial
  rw [← mem_ids_deleted, ← occurs_iff_mem, Bool.not_eq_true, Bool.not_eq_true']
  rfl

/-- Both win over an addition. -/
theorem condenses_added (e : Edits) :
    Condenses (fun id => id ∉ e.modified.map Subtree.id ∧ id ∉ e.deleted.map Subtree.id) e.added
      (ofEdits e).added := by
  refine ((condenses_distinct e.added).filter (q := fun id =>
    id ∉ e.modified.map Subtree.id ∧ id ∉ e.deleted.map Subtree.id) fun t => ?_).congr
      fun id => and_iff_right trivial
  have hmodified : t.id ∉ (ofEdits e).modified.map Subtree.id ∧ t.id ∉ (ofEdits e).deleted.map Subtree.id ↔
      t.id ∉ e.modified.map Subtree.id ∧ t.id ∉ e.deleted.map Subtree.id := by
    rw [(condenses_modified e).mem_ids, mem_ids_deleted]
    tauto
  rw [← hmodified, ← occurs_iff_mem, ← occurs_iff_mem, Bool.and_eq_true, Bool.not_eq_true, Bool.not_eq_true,
    Bool.not_eq_true', Bool.not_eq_true', and_comm]
  rfl

/-- The batch touches the identities of all edits. -/
theorem mem_ids_all {id : SubtreeId} : id ∈ (ofEdits e).all.map Subtree.id ↔
    id ∈ (e.added ++ e.modified ++ e.deleted).map Subtree.id := by
  simp only [all, List.map_append, List.mem_append, mem_ids_deleted, (condenses_modified e).mem_ids,
    (condenses_added e).mem_ids]
  tauto

/-- The batches that hosts build are canonical. -/
theorem canonical_ofEdits (e : Edits) : (ofEdits e).Canonical := by
  unfold Canonical all
  rw [List.map_append, List.map_append]
  refine List.nodup_append.2 ⟨List.nodup_append.2 ⟨(condenses_deleted e).nodup,
    (condenses_modified e).nodup, ?_⟩, (condenses_added e).nodup, ?_⟩
  · rintro id hdeleted _ hmodified rfl
    exact (((condenses_modified e).mem_ids id).1 hmodified).2 (mem_ids_deleted.1 hdeleted)
  · rintro id hid _ hadded rfl
    obtain ⟨-, hmodified, hdeleted⟩ := ((condenses_added e).mem_ids id).1 hadded
    rcases List.mem_append.1 hid with hid | hid
    · exact hdeleted (mem_ids_deleted.1 hid)
    · exact hmodified (((condenses_modified e).mem_ids id).1 hid).1

/-- The size of a batch is the number of distinct identities of its edits. -/
theorem size_ofEdits (e : Edits) : (ofEdits e).size =
    ((e.added ++ e.modified ++ e.deleted).map Subtree.id).toFinset.card := by
  have hids : ((e.added ++ e.modified ++ e.deleted).map Subtree.id).toFinset =
      ((ofEdits e).all.map Subtree.id).toFinset := by
    ext id
    rw [List.mem_toFinset, List.mem_toFinset, mem_ids_all]
  rw [hids, List.toFinset_card_of_nodup (canonical_ofEdits e), List.length_map, all, List.length_append,
    List.length_append, size]
  omega

/-- A canonical batch stays as it is. -/
theorem ofEdits_canonical (h : b.Canonical) : ofEdits ⟨b.added, b.modified, b.deleted⟩ = b := by
  obtain ⟨added, modified, deleted⟩ := b
  unfold Canonical all at h
  rw [List.map_append, List.map_append] at h
  obtain ⟨hfirst, hadded, hapart⟩ := List.nodup_append.1 h
  obtain ⟨hdeleted, hmodified, hapart'⟩ := List.nodup_append.1 hfirst
  have hkept : modified.filter (fun t => !occurs t.id deleted) = modified := by
    refine List.filter_eq_self.2 fun t ht => ?_
    rw [Bool.not_eq_true', ← Bool.not_eq_true, occurs_iff_mem]
    exact fun hid => hapart' _ hid _ (List.mem_map_of_mem ht) rfl
  have hkept' : added.filter (fun t => !occurs t.id deleted && !occurs t.id modified) = added := by
    refine List.filter_eq_self.2 fun t ht => ?_
    rw [Bool.and_eq_true, Bool.not_eq_true', Bool.not_eq_true', ← Bool.not_eq_true, ← Bool.not_eq_true,
      occurs_iff_mem, occurs_iff_mem]
    exact ⟨fun hid => hapart _ (List.mem_append_left _ hid) _ (List.mem_map_of_mem ht) rfl,
      fun hid => hapart _ (List.mem_append_right _ hid) _ (List.mem_map_of_mem ht) rfl⟩
  simp only [ofEdits, distinct_of_nodup hdeleted, distinct_of_nodup hmodified, distinct_of_nodup hadded,
    hkept, hkept']

end Batch

/-! ### Edits one by one -/

/-- One edit of a host. -/
inductive EditCall
  | add (s : Subtree)
  | modify (s : Subtree)
  | delete (id : SubtreeId)

namespace EditCall

/-- The subtree that the call adds. -/
def added? : EditCall → Option Subtree
  | add s => some s
  | _ => none

/-- The subtree that the call modifies. -/
def modified? : EditCall → Option Subtree
  | modify s => some s
  | _ => none

/-- The subtree that the call deletes, without its statements. -/
def deleted? : EditCall → Option Subtree
  | delete id => some (.empty id)
  | _ => none

end EditCall

namespace Edits

/-- The edits after one more call. -/
def after (e : Edits) : EditCall → Edits
  | .add s => e.add s
  | .modify s => e.modify s
  | .delete id => e.delete id

/-- The edits of a series of calls. -/
def ofCalls (calls : List EditCall) : Edits := calls.foldl after {}

/-- The calls of each kind are kept in their order, whatever stands between them. -/
theorem ofCalls_eq (calls : List EditCall) : ofCalls calls =
    ⟨calls.filterMap EditCall.added?, calls.filterMap EditCall.modified?,
      calls.filterMap EditCall.deleted?⟩ := by
  induction calls using List.reverseRecOn with
  | nil => rfl
  | append_singleton calls call ih =>
    rw [ofCalls, List.foldl_concat]
    change (ofCalls calls).after call = _
    rw [ih]
    simp only [List.filterMap_append]
    cases call with
    | add s => simp [after, add, EditCall.added?, EditCall.modified?, EditCall.deleted?]
    | modify s => simp [after, modify, EditCall.added?, EditCall.modified?, EditCall.deleted?]
    | delete id => simp [after, delete, EditCall.added?, EditCall.modified?, EditCall.deleted?]

end Edits

end Reflow
