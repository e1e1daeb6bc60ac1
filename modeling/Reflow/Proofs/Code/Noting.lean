import Reflow.Proofs.Code.Stepwise
import Reflow.Proofs.Memory.Allocation
/-!
# Code notes what it changes

All that code does to memory is to store into slots that are there and to add objects to the heap. A store
that changes its slot is noted twice: in memory, for whoever asks what has changed, and in the machine, for
the statements that have to run again.

## Main definitions

* `Memory.Updates`: a memory after some stores into slots below a limit.
* `Machine.Notes`: a machine after some such stores, with all of them noted.
* `Noting`: computations that leave such a machine.

## Main results

* `noting_runRange`: running a range of code notes what it changes.
-/

namespace Reflow

/-- `m'` is `m` after some stores into slots below `limit`, all of which are noted in order. -/
structure Memory.Updates (limit : Nat) (m m' : Memory) : Prop where
  size : m'.globalCount = m.globalCount
  kept : ∀ slot, slot ∉ m'.modified → m'.global? slot = m.global? slot
  noted : m.modified ⊆ m'.modified
  ascending : Keyed.Sorted id m.modified → Keyed.Sorted id m'.modified
  below : ∀ slot ∈ m'.modified, slot ∈ m.modified ∨ slot < limit
  sound : m.heap.Sound → m'.heap.Sound
  heap : m.heap.Sound → m.heap.Extends m'.heap

namespace Memory.Updates

variable {limit : Nat} {m m' m'' : Memory}

@[refl] theorem refl (limit : Nat) (m : Memory) : m.Updates limit m :=
  ⟨rfl, fun _ _ => rfl, List.Subset.refl _, id, fun _ h => .inl h, id, fun _ => .refl _⟩

theorem trans (h : m.Updates limit m') (k : m'.Updates limit m'') : m.Updates limit m'' where
  size := k.size.trans h.size
  kept slot hslot := (k.kept slot hslot).trans (h.kept slot fun hm => hslot (k.noted hm))
  noted := List.Subset.trans h.noted k.noted
  ascending := k.ascending ∘ h.ascending
  below slot hslot := (k.below slot hslot).elim (h.below slot) .inr
  sound hs := k.sound (h.sound hs)
  heap hs := (h.heap hs).trans (k.heap (h.sound hs))

/-- On a memory without notes, the slots from the limit on are not touched. -/
theorem global?_of_le (h : m.Updates limit m') (hm : m.modified = []) {slot : Nat}
    (hslot : limit ≤ slot) : m'.global? slot = m.global? slot := by
  refine h.kept slot fun hmodified => ?_
  rcases h.below slot hmodified with hold | hlt
  · rw [hm] at hold
    cases hold
  · exact Nat.not_lt_of_le hslot hlt

theorem lt_of_mem_modified (h : m.Updates limit m') (hm : m.modified = []) {slot : Nat}
    (hslot : slot ∈ m'.modified) : slot < limit := by
  refine (h.below slot hslot).resolve_left fun hold => ?_
  rw [hm] at hold
  cases hold

end Memory.Updates

/-- Evaluating stores nothing. -/
theorem Machine.Grows.updates {m m' : Machine} (h : m.Grows m') (limit : Nat) :
    m.memory.Updates limit m'.memory where
  size := h.globalCount
  kept slot _ := by rw [Memory.global?, h.globals, Memory.global?]
  noted := h.modified ▸ List.Subset.refl _
  ascending hs := h.modified ▸ hs
  below slot hslot := .inl (h.modified ▸ hslot)
  sound := h.sound
  heap := h.heap

/-- A store is noted, or it changes nothing; into a slot that is not allocated it faults. -/
theorem updates_storeValue {limit slot : Nat} (hslot : slot < limit) (v : Value) (m : Machine) :
    match (storeValue slot v).run m with
    | .ok _ m' => m.memory.Updates limit m'.memory
    | .error _ m' => m' = m := by
  cases hcurrent : m.memory.global? slot with
  | none =>
    rw [run_storeValue_of_none hcurrent]
  | some current =>
    rw [run_storeValue hcurrent]
    by_cases hsame : m.memory.heap.same current v
    · simp only [hsame, if_true]
      rfl
    · simp only [hsame, Bool.false_eq_true, if_false]
      refine ⟨by simp [Memory.globalCount], fun k hk => ?_, fun k hk => ?_, Keyed.sorted_put id slot,
        fun k hk => ?_, id, fun _ => .refl _⟩
      · have hne : slot ≠ k := fun heq => hk (Ascending.mem_insert.2 (.inl heq.symm))
        simp [Memory.global?, hne]
      · exact Ascending.mem_insert.2 (.inr hk)
      · exact (Ascending.mem_insert.1 hk).symm.imp_right fun heq : k = slot => heq ▸ hslot

namespace Machine

/-- `m'` is `m` after some stores and some new objects, and every slot that has changed is noted. -/
structure Notes (m m' : Machine) : Prop where
  memory : m.memory.Updates m.memory.globalCount m'.memory
  changed : m.changed ⊆ m'.changed
  kept : ∀ slot, slot ∉ m'.changed → m'.memory.global? slot = m.memory.global? slot

variable {m m' m'' : Machine}

theorem Notes.trans (h : m.Notes m') (k : m'.Notes m'') : m.Notes m'' where
  memory := h.memory.trans (h.memory.size ▸ k.memory)
  changed := List.Subset.trans h.changed k.changed
  kept slot hslot := (k.kept slot hslot).trans (h.kept slot fun hm => hslot (k.changed hm))

theorem Grows.notes (h : m.Grows m') : m.Notes m' where
  memory := h.updates _
  changed := h.changed ▸ List.Subset.refl _
  kept slot _ := by rw [Memory.global?, h.globals, Memory.global?]

end Machine

/-- If it succeeds, the computation notes what it changes. -/
def Noting {α : Type} (act : Run α) : Prop := ∀ m a m', act.run m = .ok a m' → m.Notes m'

namespace Noting

variable {α β : Type}

theorem of_quiet {act : Run α} (h : Quiet act) : Noting act := fun _ _ _ hr => (h.of_ok hr).notes

theorem bind {f : Run α} {g : α → Run β} (hf : Noting f) (hg : ∀ a, Noting (g a)) :
    Noting (f >>= g) := by
  intro m b m'' hr
  rw [EStateM.run_bind] at hr
  cases hfm : f.run m with
  | error fault m' =>
    rw [hfm] at hr
    cases hr
  | ok a m' =>
    rw [hfm] at hr
    exact (hf m a m' hfm).trans (hg a m' b m'' hr)

theorem store (slot : Nat) (v : Value) : Noting (storeValue slot v) := by
  intro m a m' hr
  obtain ⟨current, hcurrent⟩ := allocated_of_storeValue hr
  have hupdates := updates_storeValue (Array.getElem?_eq_some_iff.1 hcurrent).1 v m
  rw [hr] at hupdates
  rw [run_storeValue hcurrent] at hr
  split at hr <;> cases hr
  · exact (Machine.Grows.refl m).notes
  · refine ⟨hupdates, List.subset_append_left _ _, fun k hk => ?_⟩
    have hne : slot ≠ k := fun heq =>
      hk (List.mem_append_right _ (List.mem_singleton.2 heq.symm))
    simp [Memory.global?, hne]

theorem stepwise : Stepwise @Noting where
  pure a := .of_quiet (.pure a)
  throw _ := .of_quiet (.throw _)
  bind := .bind
  get := .of_quiet fun m => .refl m
  warn message := .of_quiet (.warn message)
  newString s := .of_quiet (.newString s)
  newArray items := .of_quiet (.newArray items)
  apply h := .of_quiet (quiet_apply h)
  store := .store

end Noting

/-- All code notes what it changes. -/
theorem noting_runRange (x : Executable) (limit depth : Nat) (r : Range) :
    Noting (runRange x limit depth r) := Noting.stepwise.runRange x limit depth r

end Reflow
