import Mathlib.Logic.ExistsUnique
import Reflow.Image.Instruction
import Reflow.Proofs.Graph.Records
/-!
# Statements side by side

The records of a dependency graph say where the code of each statement is. Statements tile a part of the
code if their ranges fill it one after the other and each of them ends in the store to the slot that the
statement assigns.

## Main definitions

* `Stream.Tiled`: statements whose ranges fill a part of the code.

## Main results

* `Stream.Tiled.existsUnique`: every instruction of the part belongs to one of the statements.
-/

namespace Reflow

/-- The statements lie one after the other in the code from `start` on until `stop`. None of their
ranges is empty, and each ends in the store to the slot that the statement assigns. -/
inductive Stream.Tiled (stream : Stream) : List GraphNode → Nat → Nat → Prop
  | nil (pc : Nat) : stream.Tiled [] pc pc
  | cons {n : GraphNode} {rest : List GraphNode} {slot stop : Nat} (range : n.start < n.stop)
      (defines : n.defines = some (.global slot))
      (store : stream.at? (n.stop - 1) = some (.storeGlobal slot))
      (after : stream.Tiled rest n.stop stop) : stream.Tiled (n :: rest) n.start stop

namespace Stream.Tiled

variable {stream stream' : Stream} {ns ms : List GraphNode} {start mid stop : Nat}

theorem append (h : stream.Tiled ns start mid) (k : stream.Tiled ms mid stop) :
    stream.Tiled (ns ++ ms) start stop := by
  induction h with
  | nil pc => exact k
  | cons range defines store _ ih => exact .cons range defines store (ih k)

/-- Statements stay where they are in code that only grows. -/
theorem mono (hat : ∀ pc i, stream.at? pc = some i → stream'.at? pc = some i)
    (h : stream.Tiled ns start stop) : stream'.Tiled ns start stop := by
  induction h with
  | nil pc => exact .nil pc
  | cons range defines store _ ih => exact .cons range defines (hat _ _ store) ih

/-- A statement that is deactivated keeps its place. -/
theorem deactivatedIn (ids : List Nat) (h : stream.Tiled ns start stop) :
    stream.Tiled (ns.map (·.deactivatedIn ids)) start stop := by
  induction h with
  | nil pc => exact .nil pc
  | @cons n rest slot stop range defines store _ ih =>
    have hdefines : (n.deactivatedIn ids).defines = some (.global slot) := by simpa using defines
    rw [List.map_cons, ← n.deactivatedIn_start ids]
    refine .cons ?_ hdefines ?_ ?_
    · simpa using range
    · simpa using store
    · simpa using ih

theorem le (h : stream.Tiled ns start stop) : start ≤ stop := by
  induction h with
  | nil pc => exact Nat.le_refl pc
  | cons range _ _ _ ih => omega

theorem bounds (h : stream.Tiled ns start stop) {n : GraphNode} (hn : n ∈ ns) :
    start ≤ n.start ∧ n.stop ≤ stop := by
  induction h with
  | nil pc => cases hn
  | cons range _ _ after ih =>
    rcases List.mem_cons.1 hn with rfl | hn
    · exact ⟨Nat.le_refl _, after.le⟩
    · have := ih hn
      omega

/-- If the statements are numbered in order, the code of a later one comes after that of an earlier one. -/
theorem stop_le_start (h : stream.Tiled ns start stop) (hsorted : Keyed.Sorted GraphNode.id ns)
    {m n : GraphNode} (hm : m ∈ ns) (hn : n ∈ ns) (hlt : m.id < n.id) : m.stop ≤ n.start := by
  induction h with
  | nil pc => cases hm
  | cons range _ _ after ih =>
    obtain ⟨hfirst, hrest⟩ := List.pairwise_cons.1 hsorted
    rcases List.mem_cons.1 hm with rfl | hm' <;> rcases List.mem_cons.1 hn with rfl | hn'
    · omega
    · exact (after.bounds hn').1
    · have := hfirst m hm'
      omega
    · exact ih hrest hm' hn'

/-- Every instruction belongs to one statement. -/
theorem existsUnique (h : stream.Tiled ns start stop) {pc : Nat} (hstart : start ≤ pc)
    (hstop : pc < stop) : ∃! n, n ∈ ns ∧ n.start ≤ pc ∧ pc < n.stop := by
  induction h with
  | nil => omega
  | @cons n rest slot stop range defines store after ih =>
    by_cases hpc : pc < n.stop
    · refine ⟨n, ⟨List.mem_cons_self, hstart, hpc⟩, fun m ⟨hm, hlow, _⟩ => ?_⟩
      rcases List.mem_cons.1 hm with rfl | hm
      · rfl
      · have := (after.bounds hm).1
        omega
    · obtain ⟨m, ⟨hm, hrange⟩, hunique⟩ := ih (Nat.le_of_not_lt hpc) hstop
      refine ⟨m, ⟨List.mem_cons_of_mem _ hm, hrange⟩, fun k ⟨hk, hlow, hhigh⟩ => ?_⟩
      rcases List.mem_cons.1 hk with rfl | hk
      · exact absurd hhigh hpc
      · exact hunique k ⟨hk, hlow, hhigh⟩

end Stream.Tiled

end Reflow
