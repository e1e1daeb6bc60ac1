import Mathlib.Logic.Relation
import Reflow.Image.Block
/-!
# Blocks form a forest

An arena grows by blocks without a parent and by blocks under one that exists already. The place of a block
is its number, so that a parent has a smaller number than its child, and a block is noted in two places: it
names its parent, and its parent lists it. Both are kept in step by every call, which is all that the walk
toward the root needs to come to an end.

## Main definitions

* `Arena.Call`, `Arena.built`: calls that add blocks, and the arena that some calls make.
* `Arena.Adds`: what one more block does to an arena.
* `Arena.Forest`: what every call keeps.
* `Arena.Walk`: the walk from a block to its parent and on, until a block without one.

## Main results

* `call_cases`: a call is rejected or adds one block.
* `Forest.call`, `forest_built`: every call keeps the forest, and so do all calls of a sequence.
* `Forest.walk_ancestors`: the walk from a block comes to its end.
* `Forest.isAncestor_iff`: the blocks above a block are those that lie above it by parents.
* `built_forest`: the order of the blocks of every arena.
-/

namespace Reflow.Arena

/-! ### Calls -/

/-- A call that adds a block. -/
inductive Call
  | root (language : Language)
  | child (parent : Nat) (kind : BlockKind) (language : Language)

/-- The block under which a call adds another one. -/
def Call.parent? : Call → Option Nat
  | root _ => none
  | child parent _ _ => some parent

/-- The answer to a call, and the arena after it. -/
def call (a : Arena) : Call → Except ImageError Nat × Arena
  | .root language => (.ok (a.addRoot language).1, (a.addRoot language).2)
  | .child parent kind language =>
    match a.addChild parent kind language with
    | .ok (id, a') => (.ok id, a')
    | .error e => (.error e, a)

/-- The arena that some calls make of the empty one. -/
def built (calls : List Call) : Arena := calls.foldl (fun a c => (a.call c).2) {}

variable {a : Arena} {i j k p : Nat}

theorem get?_concat (a : Arena) (b : CodeBlock) (i : Nat) :
    (⟨a.blocks ++ [b]⟩ : Arena).get? i = if i = a.size then some b else a.get? i := by
  unfold get? size
  rcases Nat.lt_trichotomy i a.blocks.length with h | h | h
  · rw [List.getElem?_append_left h, if_neg (Nat.ne_of_lt h)]
  · rw [h, List.getElem?_concat_length, if_pos rfl]
  · rw [if_neg (Nat.ne_of_gt h), List.getElem?_eq_none (Nat.le_of_lt h), List.getElem?_eq_none]
    rw [List.length_append, List.length_singleton]
    omega

theorem size_modify (a : Arena) (i : Nat) (f : CodeBlock → CodeBlock) :
    (a.modify i f).size = a.size := List.length_modify ..

theorem get?_addRoot (a : Arena) (language : Language) (i : Nat) :
    (a.addRoot language).2.get? i =
      if i = a.size then some (.fresh a.size .language language none) else a.get? i :=
  get?_concat a _ i

/-- The arena with a new block under the block `p`. -/
def under (a : Arena) (p : Nat) (kind : BlockKind) (language : Language) : Arena :=
  ⟨(a.modify p fun b => { b with children := b.children ++ [a.size] }).blocks ++
    [.fresh a.size kind language (some p)]⟩

theorem call_child (a : Arena) (p : Nat) (kind : BlockKind) (language : Language) :
    a.call (.child p kind language) = if p < a.size then (.ok a.size, a.under p kind language)
      else (.error (.unknownBlock p), a) := by
  unfold call addChild
  by_cases hp : p < a.size
  · simp only [if_pos hp, size_modify, under]
  · simp only [if_neg hp]

theorem get?_under (a : Arena) (p : Nat) (kind : BlockKind) (language : Language) (i : Nat) :
    (a.under p kind language).get? i =
      if i = a.size then some (.fresh a.size kind language (some p))
      else if i = p then (a.get? i).map fun b => { b with children := b.children ++ [a.size] }
      else a.get? i := by
  rw [under, get?_concat, size_modify]
  by_cases hi : i = a.size
  · rw [if_pos hi, if_pos hi]
  · rw [if_neg hi, if_neg hi]
    simp only [modify, get?, List.getElem?_modify, Option.map_eq_map]
    by_cases hp : i = p
    · simp [hp]
    · simp [hp, Ne.symm hp]

theorem lt_size_of_get? {b : CodeBlock} (h : a.get? i = some b) : i < a.size :=
  (List.getElem?_eq_some_iff.1 h).1

theorem lt_size_of_parent? (h : a.parent? i = some p) : i < a.size := by
  obtain ⟨b, hb, -⟩ := Option.bind_eq_some_iff.1 h
  exact lt_size_of_get? hb

theorem parent?_of_size_le (h : a.size ≤ i) : a.parent? i = none :=
  Option.eq_none_iff_forall_ne_some.2 fun _ hp => absurd (lt_size_of_parent? hp) (by omega)

theorem parent?_addRoot (a : Arena) (language : Language) (i : Nat) :
    (a.addRoot language).2.parent? i = a.parent? i := by
  by_cases hi : i = a.size
  · rw [parent?_of_size_le (Nat.le_of_eq hi.symm), parent?, get?_addRoot, if_pos hi]
    rfl
  · rw [parent?, get?_addRoot, if_neg hi, parent?]

theorem parent?_under (a : Arena) (p : Nat) (kind : BlockKind) (language : Language) (i : Nat) :
    (a.under p kind language).parent? i = if i = a.size then some p else a.parent? i := by
  rw [parent?, get?_under]
  by_cases hi : i = a.size
  · rw [if_pos hi, if_pos hi]
    rfl
  · rw [if_neg hi, if_neg hi, parent?]
    by_cases hp : i = p
    · rw [if_pos hp]
      cases a.get? i <;> rfl
    · rw [if_neg hp]

/-- `a'` is `a` with one more block, which lists no other block and is listed by its parent, if it has
one. -/
structure Adds (a a' : Arena) (parent : Option Nat) : Prop where
  size : a'.size = a.size + 1
  lt_size : ∀ p, parent = some p → p < a.size
  parent? : ∀ i, a'.parent? i = if i = a.size then parent else a.parent? i
  get? : ∀ i b, a'.get? i = some b → i = a.size ∧ b.id = i ∧ b.children = [] ∨
    ∃ b', a.get? i = some b' ∧ b.id = b'.id ∧
      b.children = b'.children ++ if parent = some i then [a.size] else []

theorem adds_addRoot (a : Arena) (language : Language) : a.Adds (a.addRoot language).2 none where
  size := List.length_append
  lt_size p hp := by cases hp
  parent? i := by
    rw [parent?_addRoot]
    split
    · rename_i hi
      exact parent?_of_size_le (Nat.le_of_eq hi.symm)
    · rfl
  get? i b hb := by
    rw [get?_addRoot] at hb
    split at hb
    · rename_i hi
      obtain rfl := Option.some.inj hb
      exact .inl ⟨hi, hi.symm, rfl⟩
    · exact .inr ⟨b, hb, rfl, (List.append_nil _).symm⟩

theorem adds_under (hp : p < a.size) (kind : BlockKind) (language : Language) :
    a.Adds (a.under p kind language) (some p) where
  size := List.length_append.trans (congrArg (· + 1) (size_modify a p _))
  lt_size q hq := by
    obtain rfl := Option.some.inj hq
    exact hp
  parent? := parent?_under a p kind language
  get? i b hb := by
    rw [get?_under] at hb
    split at hb
    · rename_i hi
      obtain rfl := Option.some.inj hb
      exact .inl ⟨hi, hi.symm, rfl⟩
    · split at hb
      · rename_i hi
        obtain ⟨b', hb', rfl⟩ := Option.map_eq_some_iff.1 hb
        exact .inr ⟨b', hb', rfl, by rw [if_pos (congrArg some hi.symm)]⟩
      · rename_i hi
        refine .inr ⟨b, hb, rfl, ?_⟩
        rw [if_neg fun heq => hi (Option.some.inj heq).symm, List.append_nil]

/-- Either a call names a parent that is no block, is rejected and changes nothing, or it adds one block, under
the parent that it names. -/
theorem call_cases (a : Arena) (c : Call) :
    (∃ p, c.parent? = some p ∧ a.size ≤ p ∧ a.call c = (.error (.unknownBlock p), a)) ∨
      ((a.call c).1 = .ok a.size ∧ a.Adds (a.call c).2 c.parent?) := by
  cases c with
  | root language => exact .inr ⟨rfl, adds_addRoot a language⟩
  | child p kind language =>
    rw [call_child]
    by_cases hp : p < a.size
    · rw [if_pos hp]
      exact .inr ⟨rfl, adds_under hp kind language⟩
    · rw [if_neg hp]
      exact .inl ⟨p, rfl, Nat.le_of_not_lt hp, rfl⟩

/-! ### What every call keeps -/

/-- Each block has its place as number and a parent with a smaller number, if any, and it lists just the
blocks that name it as parent, each of them once. -/
structure Forest (a : Arena) : Prop where
  id_eq : ∀ i b, a.get? i = some b → b.id = i
  parent_lt : ∀ i p, a.parent? i = some p → p < i
  count_children : ∀ p b, a.get? p = some b →
    ∀ i, b.children.count i = if a.parent? i = some p then 1 else 0

theorem forest_empty : Forest {} where
  id_eq i b h := by cases h
  parent_lt i p h := by cases h
  count_children p b h := by cases h

namespace Forest

theorem adds {a' : Arena} {parent : Option Nat} (h : a.Forest) (k : a.Adds a' parent) :
    a'.Forest where
  id_eq i b hb := by
    rcases k.get? i b hb with ⟨-, hid, -⟩ | ⟨b', hb', hid, -⟩
    · exact hid
    · exact hid.trans (h.id_eq i b' hb')
  parent_lt i p hp := by
    rw [k.parent?] at hp
    split at hp
    · rename_i hi
      exact hi ▸ k.lt_size p hp
    · exact h.parent_lt i p hp
  count_children p b hb i := by
    have hnew : a.parent? a.size = none := parent?_of_size_le (Nat.le_refl _)
    rw [k.parent?]
    rcases k.get? p b hb with ⟨rfl, -, hchildren⟩ | ⟨b', hb', -, hchildren⟩
    · -- the new block is nobody's parent yet
      rw [hchildren, List.count_nil, if_neg]
      intro hi
      split at hi
      · exact Nat.lt_irrefl _ (k.lt_size _ hi)
      · exact Nat.lt_asymm (h.parent_lt i _ hi) (lt_size_of_parent? hi)
    · rw [hchildren, List.count_append, h.count_children p b' hb' i]
      by_cases hi : i = a.size
      · subst hi
        rw [hnew, if_neg nofun, if_pos rfl, Nat.zero_add]
        split
        · exact List.count_singleton_self ..
        · rfl
      · rw [if_neg hi, List.count_eq_zero_of_not_mem, Nat.add_zero]
        split
        · exact fun hmem => hi (List.mem_singleton.1 hmem)
        · exact List.not_mem_nil

/-- Every call keeps the forest, also one that is rejected. -/
theorem call (h : a.Forest) (c : Call) : (a.call c).2.Forest := by
  rcases a.call_cases c with ⟨p, -, -, heq⟩ | ⟨-, hadds⟩
  · rwa [heq]
  · exact h.adds hadds

end Forest

theorem forest_built (calls : List Call) : (built calls).Forest := by
  have hrun : ∀ a : Arena, a.Forest → (calls.foldl (fun a c => (a.call c).2) a).Forest := by
    induction calls with
    | nil => exact fun a h => h
    | cons c rest ih => exact fun a h => ih _ (h.call c)
  exact hrun {} forest_empty

/-! ### The walk toward the root -/

/-- The walk from a block: to its parent and on from there, until a block without a parent. -/
inductive Walk (a : Arena) : Nat → List Nat → Prop
  | stop {i : Nat} (h : a.parent? i = none) : Walk a i []
  | climb {i p : Nat} {path : List Nat} (h : a.parent? i = some p) (rest : Walk a p path) :
    Walk a i (p :: path)

/-- A block without a parent. -/
def IsRoot (a : Arena) (i : Nat) : Prop := ∃ b, a.get? i = some b ∧ b.parent = none

/-- `p` is the parent of `i`. -/
def HasParent (a : Arena) (i p : Nat) : Prop := a.parent? i = some p

theorem isRoot_of_parent? (hi : i < a.size) (h : a.parent? i = none) : a.IsRoot i := by
  have hb : a.get? i = some a.blocks[i] := List.getElem?_eq_getElem hi
  refine ⟨_, hb, ?_⟩
  rwa [parent?, hb] at h

/-- The parents fall, so that the number of a block is steps enough for the walk from it. -/
theorem Forest.walk_ancestorsWithin (h : a.Forest) {fuel : Nat} (hi : i < fuel) :
    a.Walk i (a.ancestorsWithin fuel i) := by
  induction fuel generalizing i with
  | zero => omega
  | succ fuel ih =>
    rw [ancestorsWithin]
    cases hp : a.parent? i with
    | none => exact .stop hp
    | some p =>
      have hlt := h.parent_lt i p hp
      exact .climb hp (ih (by omega))

theorem Forest.walk_ancestors (h : a.Forest) (i : Nat) : a.Walk i (a.ancestors i) :=
  h.walk_ancestorsWithin (Nat.lt_succ_self i)

namespace Walk

variable {path : List Nat}

/-- The numbers fall on the way. -/
theorem pairwise (hw : a.Walk i path) (h : a.Forest) : (i :: path).Pairwise (· > ·) := by
  induction hw with
  | stop => exact List.pairwise_singleton ..
  | climb hp rest ih =>
    refine List.pairwise_cons.2 ⟨fun j hj => ?_, ih⟩
    have hlt := h.parent_lt _ _ hp
    rcases List.mem_cons.1 hj with rfl | hj
    · exact hlt
    · exact Nat.lt_trans ((List.pairwise_cons.1 ih).1 j hj) hlt

theorem parent?_getLast (hw : a.Walk i path) :
    a.parent? ((i :: path).getLast (List.cons_ne_nil i path)) = none := by
  induction hw with
  | stop hp => exact hp
  | climb hp rest ih =>
    rw [List.getLast_cons (List.cons_ne_nil _ _)]
    exact ih

/-- From a block, the walk ends in a root. -/
theorem isRoot_getLast (hw : a.Walk i path) (h : a.Forest) (hi : i < a.size) :
    a.IsRoot ((i :: path).getLast (List.cons_ne_nil i path)) := by
  refine isRoot_of_parent? ?_ hw.parent?_getLast
  rcases List.mem_cons.1 (List.getLast_mem (List.cons_ne_nil i path)) with hlast | hlast
  · rwa [hlast]
  · exact Nat.lt_trans ((List.pairwise_cons.1 (hw.pairwise h)).1 _ hlast) hi

/-- The walk visits all that lies above by parents, and nothing else. -/
theorem mem_iff (hw : a.Walk i path) : j ∈ path ↔ Relation.TransGen a.HasParent i j := by
  rw [Relation.TransGen.head'_iff]
  induction hw with
  | stop hp =>
    refine iff_of_false List.not_mem_nil ?_
    rintro ⟨p, hparent, -⟩
    cases hp.symm.trans hparent
  | climb hp rest ih =>
    rw [List.mem_cons, ih, ← Relation.TransGen.head'_iff]
    constructor
    · rintro (rfl | hj)
      · exact ⟨_, hp, .refl⟩
      · exact ⟨_, hp, hj.to_reflTransGen⟩
    · rintro ⟨q, hq, hj⟩
      obtain rfl := Option.some.inj (hp.symm.trans hq)
      exact Relation.reflTransGen_iff_eq_or_transGen.1 hj

end Walk

/-! ### The order of the blocks -/

namespace Forest

theorem isAncestor_iff (h : a.Forest) :
    a.isAncestor i j = true ↔ Relation.TransGen a.HasParent i j := by
  rw [isAncestor, decide_eq_true_iff, (h.walk_ancestors i).mem_iff]

/-- What lies above a block has a smaller number. -/
theorem lt_of_isAncestor (h : a.Forest) (hij : a.isAncestor i j = true) : j < i :=
  (List.pairwise_cons.1 ((h.walk_ancestors i).pairwise h)).1 j (of_decide_eq_true hij)

theorem isAncestor_trans (h : a.Forest) (hij : a.isAncestor i j = true)
    (hjk : a.isAncestor j k = true) : a.isAncestor i k = true :=
  h.isAncestor_iff.2 ((h.isAncestor_iff.1 hij).trans (h.isAncestor_iff.1 hjk))

/-- Two blocks above the same one stand one above the other, as every block has one parent at most. -/
theorem isAncestor_total (h : a.Forest) (hij : a.isAncestor i j = true)
    (hik : a.isAncestor i k = true) :
    j = k ∨ a.isAncestor j k = true ∨ a.isAncestor k j = true := by
  have hunique : Relator.RightUnique a.HasParent := fun _ _ _ hp hq =>
    Option.some.inj (hp.symm.trans hq)
  rw [h.isAncestor_iff, h.isAncestor_iff]
  rcases Relation.ReflTransGen.total_of_right_unique hunique
    (h.isAncestor_iff.1 hij).to_reflTransGen (h.isAncestor_iff.1 hik).to_reflTransGen with hjk | hkj
  · rcases Relation.reflTransGen_iff_eq_or_transGen.1 hjk with heq | habove
    · exact .inl heq.symm
    · exact .inr (.inl habove)
  · rcases Relation.reflTransGen_iff_eq_or_transGen.1 hkj with heq | habove
    · exact .inl heq
    · exact .inr (.inr habove)

end Forest

/-- Whatever calls have made an arena, its blocks form a forest. A call that is rejected names no block as
parent and changes nothing; any other adds one block, under the parent that it names. The walk from a block
ends in a root and visits ever smaller numbers, so none twice, and a number without a block leads nowhere.
What it visits lies above the block by parents. This order is strict, and those above the same block are
comparable. -/
theorem built_forest (calls : List Call) :
    let a := built calls
    (∀ c, (∃ p, c.parent? = some p ∧ a.size ≤ p ∧ a.call c = (.error (.unknownBlock p), a)) ∨
      ((a.call c).1 = .ok a.size ∧ (a.call c).2.size = a.size + 1 ∧
        (a.call c).2.parent? a.size = c.parent?)) ∧
    a.Forest ∧
    (∀ i, a.Walk i (a.ancestors i) ∧ (i :: a.ancestors i).Pairwise (· > ·) ∧ (a.ancestors i).Nodup ∧
      (i < a.size → a.IsRoot ((i :: a.ancestors i).getLast (List.cons_ne_nil _ _))) ∧
      (a.size ≤ i → a.ancestors i = [])) ∧
    (∀ i j, a.isAncestor i j = true ↔ Relation.TransGen a.HasParent i j) ∧
    (∀ i, a.isAncestor i i = false) ∧
    (∀ i j k, a.isAncestor i j = true → a.isAncestor j k = true → a.isAncestor i k = true) ∧
    (∀ i j, a.isAncestor i j = true → a.isAncestor j i = false) ∧
    ∀ i j k, a.isAncestor i j = true → a.isAncestor i k = true →
      j = k ∨ a.isAncestor j k = true ∨ a.isAncestor k j = true := by
  intro a
  have h : a.Forest := forest_built calls
  refine ⟨fun c => (a.call_cases c).imp_right ?_, h, fun i => ?_, fun i j => h.isAncestor_iff,
    fun i => ?_, fun i j k => h.isAncestor_trans, fun i j hij => ?_, fun i j k => h.isAncestor_total⟩
  · rintro ⟨hok, hadds⟩
    exact ⟨hok, hadds.size, (hadds.parent? a.size).trans (if_pos rfl)⟩
  · have hwalk := h.walk_ancestors i
    have hfalls := hwalk.pairwise h
    refine ⟨hwalk, hfalls, ?_, hwalk.isRoot_getLast h, fun hi => ?_⟩
    · exact (List.pairwise_cons.1 hfalls).2.imp Nat.ne_of_gt
    · rw [ancestors, ancestorsWithin, parent?_of_size_le hi]
  · exact Bool.eq_false_iff.2 fun hi => Nat.lt_irrefl _ (h.lt_of_isAncestor hi)
  · refine Bool.eq_false_iff.2 fun hji => ?_
    exact Nat.lt_asymm (h.lt_of_isAncestor hij) (h.lt_of_isAncestor hji)

/-- Two roots, with a block under the first and two under that one; two calls name no block. -/
theorem built_forest_nested :
    let calls : List Call := [.child 0 .function .associative, .root .associative,
      .child 0 .construct .associative, .root .imperative, .child 1 .function .associative,
      .child 9 .function .associative, .child 1 .construct .imperative]
    let a := built calls
    a.size = 5 ∧ (a.call (.child 5 .function .associative)).2.size = 5 ∧ a.ancestors 3 = [1, 0] ∧
      a.isAncestor 3 1 = true ∧ a.isAncestor 1 0 = true ∧ a.isAncestor 3 0 = true ∧
      a.isAncestor 1 3 = false ∧ a.IsRoot 0 := by
  intro calls a
  obtain ⟨hcalls, -, hwalk, -, -, htrans, hasymm, -⟩ := built_forest calls
  have hnear : a.isAncestor 3 1 = true := by decide
  have hfar : a.isAncestor 1 0 = true := by decide
  refine ⟨rfl, ?_, by decide, hnear, hfar, htrans 3 1 0 hnear hfar, hasymm 3 1 hnear,
    (hwalk 3).2.2.2.1 (by decide)⟩
  rcases hcalls (.child 5 .function .associative) with ⟨p, -, -, heq⟩ | ⟨hok, -⟩
  · rw [heq]
    rfl
  · cases hok

end Reflow.Arena
