import Reflow.Proofs.Edit.Batches
import Reflow.Proofs.Lang.Equations
import Reflow.Proofs.Program.Contents
import Reflow.Proofs.Session.Comparison
/-!
# The versions of live subtrees

A session takes over the subtrees of every batch that it accepts. What it has accepted can be told from
its answers alone: which subtrees are live, each in the version that was last accepted, and which
assignment to each variable was last accepted as code without a subtree. The mapping of the session lists
exactly the live subtrees.

## Main definitions

* `Batch.applied`: the live subtrees after a batch.
* `Accepted`: what a session has accepted, with `Session.accepted`.
* `GraphMapping.Lists`: the mapping lists some subtrees.

## Main results

* `GraphMapping.Lists.build`: a batch that is committed lists the live subtrees after it.
-/

namespace Reflow

namespace Batch

/-- The live subtrees after a batch: those that it leaves alone, and those that it brings. -/
def applied (b : Batch) (live : List Subtree) : List Subtree :=
  live.filter (fun t => !b.contains t.id) ++ (b.modified ++ b.added)

variable {b : Batch} {live : List Subtree} {t : Subtree}

theorem mem_applied : t ∈ b.applied live ↔
    t ∈ live ∧ b.contains t.id = false ∨ t ∈ b.modified ++ b.added := by
  simp [applied]

/-- A batch that touches nothing changes nothing. -/
theorem applied_of_isEmpty (h : b.isEmpty = true) (live : List Subtree) : b.applied live = live := by
  simp only [isEmpty, Bool.and_eq_true, List.isEmpty_iff] at h
  obtain ⟨⟨hadded, hmodified⟩, hdeleted⟩ := h
  simp [applied, contains, all, hadded, hmodified, hdeleted, Subtree.occurs]

theorem mem_all_of_mem (h : t ∈ b.modified ++ b.added) : t ∈ b.all := by
  simp only [all, List.append_assoc]
  exact List.mem_append_right _ h

theorem Canonical.nodup (h : b.Canonical) : ((b.modified ++ b.added).map Subtree.id).Nodup := by
  unfold Canonical all at h
  rw [List.append_assoc, List.map_append] at h
  exact (List.nodup_append.1 h).2.1

/-- No subtree is deleted and brought. -/
theorem Canonical.id_ne (h : b.Canonical) {s : Subtree} (hs : s ∈ b.deleted)
    (ht : t ∈ b.modified ++ b.added) : s.id ≠ t.id := by
  unfold Canonical all at h
  rw [List.append_assoc, List.map_append] at h
  exact (List.nodup_append.1 h).2.2 _ (List.mem_map_of_mem hs) _ (List.mem_map_of_mem ht)

theorem Canonical.nodup_applied (h : b.Canonical) (hlive : (live.map Subtree.id).Nodup) :
    ((b.applied live).map Subtree.id).Nodup := by
  unfold applied
  rw [List.map_append]
  refine List.nodup_append.2 ⟨hlive.sublist (List.filter_sublist.map _), h.nodup, ?_⟩
  rintro id hid id' hid' rfl
  obtain ⟨t, ht, rfl⟩ := List.mem_map.1 hid
  obtain ⟨s, hs, heq⟩ := List.mem_map.1 hid'
  have hcontains := contains_iff.2 ⟨s, mem_all_of_mem hs, heq⟩
  simp [hcontains] at ht

end Batch

/-! ### The mapping -/

namespace GraphMapping

/-- The mapping lists the subtrees, each once and in the order of their identities, and nothing else. -/
structure Lists (m : GraphMapping) (live : List Subtree) : Prop where
  sorted : Keyed.Sorted SubtreeRecord.key m.committed
  distinct : (live.map Subtree.id).Nodup
  sound : ∀ r ∈ m.committed, ∃ t ∈ live, ∃ first, r = .ofSubtree first t
  complete : ∀ t ∈ live, ∃ first, .ofSubtree first t ∈ m.committed

theorem lists_empty : Lists {} [] :=
  ⟨List.Pairwise.nil, List.nodup_nil, fun _ h => (by cases h), fun _ h => (by cases h)⟩

variable {m : GraphMapping} {live : List Subtree} {b : Batch} {records : List SubtreeRecord}
  {r : SubtreeRecord}

theorem mem_enlist (h : Keyed.Sorted SubtreeRecord.key records) {next : Nat}
    {subtrees : List Subtree} (hr : r ∈ (enlist records next subtrees).1) :
    r ∈ records ∨ ∃ t ∈ subtrees, ∃ first, r = .ofSubtree first t := by
  induction subtrees generalizing records next with
  | nil => exact .inl hr
  | cons s rest ih =>
    rcases ih (Keyed.sorted_put _ _ h) hr with hr | ⟨t, ht, hr⟩
    · rcases Keyed.mem_put _ hr with rfl | hr
      · exact .inr ⟨s, List.mem_cons_self, next, rfl⟩
      · exact .inl hr
    · exact .inr ⟨t, List.mem_cons_of_mem _ ht, hr⟩

theorem mem_enlist_of_mem (h : Keyed.Sorted SubtreeRecord.key records) {next : Nat}
    {subtrees : List Subtree} (hr : r ∈ records) (hne : ∀ t ∈ subtrees, r.subtree ≠ t.id) :
    r ∈ (enlist records next subtrees).1 := by
  induction subtrees generalizing records next with
  | nil => exact hr
  | cons s rest ih =>
    refine ih (Keyed.sorted_put _ _ h) ((Keyed.mem_put_iff h).2 (.inr ⟨hr, ?_⟩))
      fun t ht => hne t (List.mem_cons_of_mem _ ht)
    exact fun hkey => hne s List.mem_cons_self (key_eq_iff.1 hkey)

theorem ofSubtree_mem_enlist (h : Keyed.Sorted SubtreeRecord.key records) {next : Nat}
    {subtrees : List Subtree} (hnodup : (subtrees.map Subtree.id).Nodup) {t : Subtree}
    (ht : t ∈ subtrees) : ∃ first, .ofSubtree first t ∈ (enlist records next subtrees).1 := by
  induction subtrees generalizing records next with
  | nil => cases ht
  | cons s rest ih =>
    obtain ⟨hs, hrest⟩ := List.nodup_cons.1 hnodup
    rcases List.mem_cons.1 ht with rfl | ht
    · refine ⟨next, mem_enlist_of_mem (Keyed.sorted_put _ _ h) ?_ fun t' ht' heq => hs ?_⟩
      · exact (Keyed.mem_put_iff h).2 (.inl rfl)
      · exact List.mem_map.2 ⟨t', ht', heq.symm⟩
    · exact ih (Keyed.sorted_put _ _ h) hrest ht

namespace Lists

/-- The record of a listed subtree is found by its identity. -/
theorem record?_eq_some (h : m.Lists live) {id : SubtreeId} :
    m.record? id = some r ↔ r ∈ m.committed ∧ r.subtree = id := GraphMapping.record?_eq_some h.sorted

theorem record?_isSome (h : m.Lists live) {id : SubtreeId} :
    (m.record? id).isSome = true ↔ ∃ t ∈ live, t.id = id := by
  rw [Option.isSome_iff_exists]
  constructor
  · rintro ⟨r, hr⟩
    obtain ⟨hmem, rfl⟩ := h.record?_eq_some.1 hr
    obtain ⟨t, ht, first, rfl⟩ := h.sound r hmem
    exact ⟨t, ht, rfl⟩
  · rintro ⟨t, ht, rfl⟩
    obtain ⟨first, hmem⟩ := h.complete t ht
    exact ⟨_, h.record?_eq_some.2 ⟨hmem, rfl⟩⟩

/-- The earlier code of a live subtree is retired exactly if the batch touches the subtree. -/
theorem mem_gone (h : m.Lists live) {id : SubtreeId} (hid : ∃ t ∈ live, t.id = id) :
    (∃ s ∈ m.gone b, s.id = id) ↔ b.contains id = true := by
  rw [Batch.contains_iff]
  unfold gone Batch.all
  constructor
  · rintro ⟨s, hs, rfl⟩
    refine ⟨s, ?_, rfl⟩
    simp only [List.mem_append, List.mem_filter] at hs ⊢
    exact hs.imp_right And.left
  · rintro ⟨s, hs, rfl⟩
    refine ⟨s, ?_, rfl⟩
    simp only [List.mem_append, List.mem_filter] at hs ⊢
    exact hs.imp_right fun hs => ⟨hs, h.record?_isSome.2 hid⟩

theorem mem_kept (h : m.Lists live) :
    r ∈ m.kept b ↔ r ∈ m.committed ∧ b.contains r.subtree = false := by
  rw [GraphMapping.mem_kept]
  refine and_congr_right fun hr => ?_
  obtain ⟨t, ht, first, rfl⟩ := h.sound r hr
  have hgone := h.mem_gone (b := b) ⟨t, ht, rfl⟩
  change (∀ s ∈ m.gone b, t.id ≠ s.id) ↔ b.contains t.id = false
  rw [← Bool.not_eq_true, ← hgone]
  simp [eq_comm]

/-- The records after a batch are those of the live subtrees after it. -/
theorem relisted (h : m.Lists live) (hb : b.Canonical) :
    (∀ r ∈ (m.relisted b).1, ∃ t ∈ b.applied live, ∃ first, r = .ofSubtree first t) ∧
      ∀ t ∈ b.applied live, ∃ first, .ofSubtree first t ∈ (m.relisted b).1 := by
  have hsorted := sorted_kept (b := b) h.sorted
  refine ⟨fun r hr => ?_, fun t ht => ?_⟩
  · rcases mem_enlist hsorted hr with hr | ⟨t, ht, hr⟩
    · obtain ⟨hr, hkept⟩ := h.mem_kept.1 hr
      obtain ⟨t, ht, first, rfl⟩ := h.sound r hr
      exact ⟨t, Batch.mem_applied.2 (.inl ⟨ht, hkept⟩), first, rfl⟩
    · exact ⟨t, Batch.mem_applied.2 (.inr ht), hr⟩
  · rcases Batch.mem_applied.1 ht with ⟨ht, hkept⟩ | ht
    · obtain ⟨first, hmem⟩ := h.complete t ht
      refine ⟨first, mem_enlist_of_mem hsorted (h.mem_kept.2 ⟨hmem, hkept⟩) fun s hs heq => ?_⟩
      exact Batch.ne_of_contains_eq_false hkept (Batch.mem_all_of_mem hs) heq.symm
    · exact ofSubtree_mem_enlist hsorted hb.nodup ht

/-- A batch that is committed lists the live subtrees after it. -/
theorem build (h : m.Lists live) (hb : b.Canonical) :
    (m.build b).2.commit.Lists (b.applied live) := by
  obtain ⟨hsound, hcomplete⟩ := h.relisted hb
  exact ⟨sorted_enlist (sorted_kept h.sorted) _ _, hb.nodup_applied h.distinct, hsound, hcomplete⟩

/-- What is listed is committed. -/
theorem of_committed {m' : GraphMapping} (h : m.Lists live) (hm : m'.committed = m.committed) :
    m'.Lists live :=
  ⟨hm ▸ h.sorted, h.distinct, hm ▸ h.sound, hm ▸ h.complete⟩

end Lists

end GraphMapping

/-! ### What a session has accepted -/

namespace Assignments

/-- One more assignment, in place of the earlier ones to its variable. -/
def assign (A : Assignments) (x : String) (e : Expr) : Assignments := A.filter (·.1 ≠ x) ++ [(x, e)]

end Assignments

/-- What a session has accepted from its host. -/
structure Accepted where
  /-- The live subtrees, each in the version that was accepted last. -/
  live : List Subtree := []
  /-- The assignment to each variable that was accepted last as code without a subtree. -/
  latest : Assignments := []

namespace Accepted

/-- What a session has accepted when it has accepted one more request. -/
def after (a : Accepted) : Request → Accepted
  | .updateGraph b => { a with live := b.applied a.live }
  | .updateCode code =>
    let more := (FragmentUnit.mk none code).assignments
    { a with latest := more.foldl (fun A b => A.assign b.1 b.2) a.latest }
  | _ => a

/-- The current assignments. -/
def assignments (a : Accepted) : Assignments :=
  a.live.flatMap (fun t => t.statements.filterMap Statement.assignment?) ++ a.latest

end Accepted

/-- What a session has accepted after a series of requests, if it had accepted `a` before. -/
def Session.accepted (s : Session) (a : Accepted) : List Request → Accepted
  | [] => a
  | r :: rest =>
    match s.answer r.call with
    | (.ok _, s') => s'.accepted (a.after r) rest
    | (.error _, s') => s'.accepted a rest

theorem Session.accepted_cons {s : Session} {a : Accepted} {r : Request} {rest : List Request}
    (h : (s.answer r.call).1.toBool = true) :
    s.accepted a (r :: rest) = (s.answer r.call).2.accepted (a.after r) rest := by
  rw [accepted]
  rcases ha : s.answer r.call with ⟨e | report, s'⟩
  · rw [ha] at h
    cases h
  · rfl

end Reflow
