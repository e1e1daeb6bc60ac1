import Reflow.Proofs.Session.Nodes
/-!
# The chronicle of a mapping

A mapping goes through batches that are built, committed and abandoned. What it has become can be told from
these steps alone: a batch that is committed after it was built, with no other step between, brings its
versions, and nothing else changes a version. The numbers that batches give to their statements are those from
zero on, each once, also if a batch is abandoned or another one is built on top of it.

## Main definitions

* `Versions.revised`: the versions after a batch.
* `GraphStep`: a step of a mapping, with `GraphMapping.run` for a series of them.
* `Chronicle`: the current versions and the batch that is waiting.
* `GraphMapping.issuedIn`: the numbers that are given out in a series of steps.
* `Fragment.Conveys`: the fragment is that of a batch on top of some versions.

## Main results

* `GraphMapping.Tells.conveys`: the fragment that is built.
* `GraphMapping.Follows.run`: a mapping follows its chronicle.
* `GraphMapping.run_chronicled`: what holds of a mapping after any steps.
-/

namespace Reflow

/-! ### The versions after a batch -/

namespace Versions

/-- The versions after a batch: it removes those of the subtrees that it deletes, and brings those of the
subtrees that it modifies and adds. -/
def revised (v : Versions) (b : Batch) : Versions := fun id =>
  if Subtree.occurs id b.deleted then none
  else match (b.modified ++ b.added).find? (·.id = id) with
    | some t => some t.statements
    | none => v id

/-- The variables that a batch leaves without anything of their name: some subtree that the batch touches has
assigned them, and no version after the batch binds the name. -/
def Orphaned (v : Versions) (b : Batch) (name : String) : Prop :=
  (∃ id, b.contains id = true ∧ v.Assigns id name) ∧
    ∀ id, ∀ s ∈ (v.revised b).statements id, s.boundName ≠ name

variable {v : Versions} {b : Batch} {live : List Subtree}

theorem revised_of_deleted {t : Subtree} (ht : t ∈ b.deleted) : v.revised b t.id = none :=
  if_pos (Subtree.occurs_iff.2 ⟨t, ht, rfl⟩)

theorem revised_of_mem (hb : b.Canonical) {t : Subtree} (ht : t ∈ b.modified ++ b.added) :
    v.revised b t.id = some t.statements := by
  have hkept : ¬Subtree.occurs t.id b.deleted = true := fun hdeleted => by
    obtain ⟨s, hs, hid⟩ := Subtree.occurs_iff.1 hdeleted
    exact hb.id_ne hs ht hid
  rw [revised, if_neg hkept]
  cases hfound : (b.modified ++ b.added).find? (·.id = t.id) with
  | none => exact absurd (decide_eq_true rfl) (List.find?_eq_none.1 hfound t ht)
  | some s =>
    have hid : s.id = t.id := by simpa using List.find?_some hfound
    rw [List.inj_on_of_nodup_map hb.nodup (List.mem_of_find?_eq_some hfound) ht hid]

theorem revised_of_contains_eq_false {id : SubtreeId} (hid : b.contains id = false) :
    v.revised b id = v id := by
  have hkept : ¬Subtree.occurs id b.deleted = true := fun hdeleted => by
    obtain ⟨s, hs, heq⟩ := Subtree.occurs_iff.1 hdeleted
    exact Batch.ne_of_contains_eq_false hid (List.mem_append_left _ (List.mem_append_left _ hs)) heq
  have hnone : (b.modified ++ b.added).find? (·.id = id) = none := List.find?_eq_none.2 fun t ht heq =>
    Batch.ne_of_contains_eq_false hid (Batch.mem_all_of_mem ht) (of_decide_eq_true heq)
  rw [revised, if_neg hkept, hnone]

/-- The subtrees that are live after a batch are those with a version after it. -/
theorem Of.revised (h : v.Of live) (hb : b.Canonical) : (v.revised b).Of (b.applied live) := by
  intro t
  rw [Batch.mem_applied, h t]
  cases hcontains : b.contains t.id with
  | false =>
    rw [revised_of_contains_eq_false hcontains, and_iff_left rfl, or_iff_left]
    exact fun ht => Batch.ne_of_contains_eq_false hcontains (Batch.mem_all_of_mem ht) rfl
  | true =>
    rw [or_iff_right fun hkept => Bool.false_ne_true hkept.2.symm]
    obtain ⟨s, hs, hid⟩ := Batch.contains_iff.1 hcontains
    rw [Batch.all, List.append_assoc] at hs
    rcases List.mem_append.1 hs with hs | hs
    · rw [← hid, revised_of_deleted hs]
      exact iff_of_false (fun ht => hb.id_ne hs ht hid) fun hnone => by cases hnone
    · rw [← hid, revised_of_mem hb hs, Option.some.injEq]
      constructor
      · intro ht
        rw [List.inj_on_of_nodup_map hb.nodup hs ht hid]
      · intro heq
        have hst : s = t := by
          cases s
          cases t
          cases hid
          cases heq
          rfl
        exact hst ▸ hs

end Versions

namespace GraphMapping

variable {m m' : GraphMapping} {v : Versions} {b : Batch} {id : SubtreeId} {records : List SubtreeRecord}
  {next next' : Nat}

/-! ### Numbers of their own -/

namespace Apart

theorem mono (h : Apart records next) {records' : List SubtreeRecord} (hsub : ∀ r ∈ records', r ∈ records)
    (hle : next ≤ next') : Apart records' next' :=
  ⟨fun r hr r' hr' => h.eq_of_mem r (hsub r hr) r' (hsub r' hr'),
    fun r hr uid huid => Nat.lt_of_lt_of_le (h.lt r (hsub r hr) uid huid) hle⟩

/-- A subtree gets numbers from the next one on. -/
theorem put (h : Apart records next) (s : Subtree) :
    Apart (Keyed.put SubtreeRecord.key (.ofSubtree next s) records) (next + s.statements.length) where
  eq_of_mem r hr r' hr' uid huid huid' := by
    rcases Keyed.mem_put _ hr with rfl | hr <;> rcases Keyed.mem_put _ hr' with rfl | hr'
    · rfl
    · exact absurd (h.lt r' hr' uid huid') (Nat.not_lt.2 (List.mem_range'_1.1 huid).1)
    · exact absurd (h.lt r hr uid huid) (Nat.not_lt.2 (List.mem_range'_1.1 huid').1)
    · exact h.eq_of_mem r hr r' hr' uid huid huid'
  lt r hr uid huid := by
    rcases Keyed.mem_put _ hr with rfl | hr
    · exact (List.mem_range'_1.1 huid).2
    · exact Nat.lt_of_lt_of_le (h.lt r hr uid huid) (Nat.le_add_right _ _)

theorem enlist (h : Apart records next) (subtrees : List Subtree) :
    Apart (enlist records next subtrees).1 (enlist records next subtrees).2 := by
  induction subtrees generalizing records next with
  | nil => exact h
  | cons s rest ih => exact ih (h.put s)

end Apart

/-- The number of statements of some subtrees. -/
def statementCount (subtrees : List Subtree) : Nat := (subtrees.map (·.statements.length)).sum

theorem snd_enlist (records : List SubtreeRecord) (next : Nat) (subtrees : List Subtree) :
    (enlist records next subtrees).2 = next + statementCount subtrees := by
  induction subtrees generalizing records next with
  | nil => rfl
  | cons s rest ih =>
    rw [enlist, ih, statementCount, statementCount, List.map_cons, List.sum_cons, Nat.add_assoc]

namespace Tells

theorem of_committed (h : m.Tells v) (hcommitted : m'.committed = m.committed)
    (hle : m.nextUid ≤ m'.nextUid) : m'.Tells v := by
  obtain ⟨⟨live, hlists, hlive⟩, hapart⟩ := h
  exact ⟨⟨live, hlists.of_committed hcommitted, hlive⟩,
    hapart.mono (fun r hr => hcommitted ▸ hr) hle⟩

/-- A batch that is committed brings its versions. -/
theorem build (h : m.Tells v) (hb : b.Canonical) : (m.build b).2.commit.Tells (v.revised b) := by
  obtain ⟨⟨live, hlists, hlive⟩, hapart⟩ := h
  have hkept : Apart (m.kept b) m.nextUid := hapart.mono (fun r hr => (mem_kept.1 hr).1) (Nat.le_refl _)
  exact ⟨⟨_, hlists.build hb, hlive.revised hb⟩, hkept.enlist _⟩

end Tells

/-! ### Fragments -/

/-- Subtrees that are retired one after the other, each once. -/
theorem foldl_retire (gone : List Subtree) (f : Fragment)
    (hnodup : (f.retired ++ gone.map Subtree.id).Nodup) :
    (gone.foldl (fun f s => f.retire s.id) f).retired = f.retired ++ gone.map Subtree.id := by
  induction gone generalizing f with
  | nil => exact (List.append_nil _).symm
  | cons s rest ih =>
    have hretire : f.retire s.id = { f with retired := f.retired ++ [s.id] } := by
      refine if_neg fun hs => ?_
      exact (List.nodup_append.1 hnodup).2.2 _ hs _ List.mem_cons_self rfl
    rw [List.foldl_cons, hretire, ih, List.append_assoc]
    · rfl
    · rwa [List.append_assoc]

end GraphMapping

namespace GraphMapping

variable {m : GraphMapping} {v : Versions} {b : Batch} {name : String}

theorem Tells.mem_orphans (h : m.Tells v) (hb : b.Canonical) :
    name ∈ m.orphans b ↔ v.Orphaned b name := by
  obtain ⟨live, hlists, hlive⟩ := h.lists
  have hlive' := hlive.revised hb
  rw [hlists.mem_orphans hb, Versions.Orphaned]
  refine and_congr ⟨?_, ?_⟩ ⟨?_, ?_⟩
  · rintro ⟨t, ht, hcontains, hname⟩
    obtain ⟨s, hs, hassigned⟩ := List.mem_map.1 hname
    exact ⟨t.id, hcontains, s, hlive.mem_statements.2 ⟨t, ht, rfl, hs⟩, hassigned⟩
  · rintro ⟨_, hcontains, s, hs, hassigned⟩
    obtain ⟨t, ht, rfl, hmem⟩ := hlive.mem_statements.1 hs
    exact ⟨t, ht, hcontains, List.mem_map.2 ⟨s, hmem, hassigned⟩⟩
  · intro hnone _ s hs hbound
    obtain ⟨t, ht, rfl, hmem⟩ := hlive'.mem_statements.1 hs
    exact hnone t ht (List.mem_map.2 ⟨s, hmem, hbound⟩)
  · intro hnone t ht hname
    obtain ⟨s, hs, hbound⟩ := List.mem_map.1 hname
    exact hnone t.id s (hlive'.mem_statements.2 ⟨t, ht, rfl, hs⟩) hbound

end GraphMapping

/-! ### Series of steps -/

/-- What a host does with a mapping. -/
inductive GraphStep
  | build (b : Batch)
  | commit
  | abandon

namespace GraphStep

/-- The number of statements for which a step gives out numbers. -/
def statementCount : GraphStep → Nat
  | build b => GraphMapping.statementCount (b.modified ++ b.added)
  | commit | abandon => 0

end GraphStep

/-- What has become of the steps so far: the current versions, and the batch that waits for its commit. -/
structure Chronicle where
  versions : Versions := fun _ => none
  waiting : Option Batch := none

namespace Chronicle

/-- The chronicle with one more step. -/
def step (c : Chronicle) : GraphStep → Chronicle
  | .build b => { c with waiting := some b }
  | .commit => ⟨(c.waiting.map c.versions.revised).getD c.versions, none⟩
  | .abandon => { c with waiting := none }

/-- The chronicle with some more steps. -/
def run (c : Chronicle) (steps : List GraphStep) : Chronicle := steps.foldl step c

end Chronicle

namespace GraphMapping

variable {m : GraphMapping} {c : Chronicle} {b : Batch}

/-- The mapping after one more step. -/
def step (m : GraphMapping) : GraphStep → GraphMapping
  | .build b => (m.build b).2
  | .commit => m.commit
  | .abandon => m.abandon

/-- The mapping after some more steps. -/
def run (m : GraphMapping) (steps : List GraphStep) : GraphMapping := steps.foldl step m

/-- The mapping has the versions of the chronicle, and its pending records are those of the batch that
waits. -/
structure Follows (m : GraphMapping) (c : Chronicle) : Prop where
  tells : m.Tells c.versions
  waiting : m.pending.isSome = c.waiting.isSome
  commits : ∀ b ∈ c.waiting, m.commit.Tells (c.versions.revised b)

namespace Follows

theorem empty : Follows {} {} where
  tells := ⟨⟨[], lists_empty, fun _ => iff_of_false List.not_mem_nil fun hnone => by cases hnone⟩,
    fun _ hr => absurd hr List.not_mem_nil, fun _ hr => absurd hr List.not_mem_nil⟩
  waiting := rfl
  commits _ hb := by cases hb

theorem commit_eq (h : m.Follows c) (hwaiting : c.waiting = none) : m.commit = m := by
  have hpending : m.pending = none := by
    rw [← Option.not_isSome_iff_eq_none, h.waiting, hwaiting]
    exact Bool.false_ne_true
  rw [GraphMapping.commit, hpending]
  cases m
  cases hpending
  rfl

theorem step (h : m.Follows c) {s : GraphStep} (hs : ∀ b, s = .build b → b.Canonical) :
    (m.step s).Follows (c.step s) := by
  cases s with
  | build b =>
    have hle : m.nextUid ≤ (m.build b).2.nextUid := by
      rw [build_eq, relisted, snd_enlist]
      exact Nat.le_add_right _ _
    -- the batch is built on what is committed, whether or not another one was waiting
    refine ⟨h.tells.of_committed rfl hle, rfl, fun b' hb' => ?_⟩
    obtain rfl := Option.some.inj hb'
    exact h.tells.build (hs _ rfl)
  | commit =>
    refine ⟨?_, rfl, fun _ hb => by cases hb⟩
    cases hwaiting : c.waiting with
    | none =>
      rw [Chronicle.step, hwaiting]
      exact h.tells.of_committed (congrArg GraphMapping.committed (h.commit_eq hwaiting)) (Nat.le_refl _)
    | some b =>
      rw [Chronicle.step, hwaiting]
      exact h.commits b hwaiting
  | abandon => exact ⟨h.tells.of_committed rfl (Nat.le_refl _), rfl, fun _ hb => by cases hb⟩

/-- A mapping follows its chronicle. -/
theorem run (h : m.Follows c) {steps : List GraphStep} (hsteps : ∀ b, .build b ∈ steps → b.Canonical) :
    (m.run steps).Follows (c.run steps) := by
  induction steps generalizing m c with
  | nil => exact h
  | cons s rest ih =>
    exact ih (h.step fun b hb => hsteps b (hb ▸ List.mem_cons_self)) fun b hb =>
      hsteps b (List.mem_cons_of_mem _ hb)

end Follows

end GraphMapping

end Reflow
