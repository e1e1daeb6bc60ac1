import Reflow.Lang.Parser
import Reflow.Proofs.Lang.Scanning
/-!
# How the parser takes tokens

A reading function takes tokens from the front and returns what it read, or it fails. What one function
returns often comes down to what another one returns, provided that some number is not too large.

## Main definitions

* `Parser.Consumes`: some tokens stand first, and others are left after them.
* `Parser.ComesTo`: a reading returns what another one returns if a condition holds, and fails if not.

## Main results

* `Parser.consumes_append`: tokens one after another.
* `Parser.ComesTo.bind`: readings one after another.
-/

namespace Reflow

namespace Parser

variable {last : Position} {ls ls' rest mid : List Located} {ts us : List Token} {t : Token}
  {m n : Mark}

/-! ### Tokens from the front -/

/-- The tokens `ts` stand first in `ls`, and `rest` is left after them. -/
inductive Consumes : List Located → List Token → List Located → Prop
  | nil (ls : List Located) : Consumes ls [] ls
  | cons {t : Token} (p : Position) {ls ts rest} : Consumes ls ts rest →
      Consumes (⟨t, p⟩ :: ls) (t :: ts) rest

namespace Consumes

/-- The first token and the others. -/
theorem split_cons (h : Consumes ls (t :: ts) rest) :
    ∃ p ls', ls = ⟨t, p⟩ :: ls' ∧ Consumes ls' ts rest := by
  cases h with
  | cons p h => exact ⟨p, _, rfl, h⟩

theorem eq_of_nil (h : Consumes ls [] rest) : ls = rest := by
  cases h
  rfl

theorem append (h : Consumes ls ts mid) (h' : Consumes mid us rest) :
    Consumes ls (ts ++ us) rest := by
  induction h with
  | nil ls => exact h'
  | cons p h ih => exact .cons p (ih h')

theorem length_eq (h : Consumes ls ts rest) : ls.length = ts.length + rest.length := by
  induction h with
  | nil ls => simp
  | cons p h ih => simp [ih, Nat.add_right_comm]

theorem map_token (h : Consumes ls ts rest) :
    ls.map Located.token = ts ++ rest.map Located.token := by
  induction h with
  | nil ls => rfl
  | cons p h ih => simp [ih]

end Consumes

theorem consumes_append :
    Consumes ls (ts ++ us) rest ↔ ∃ mid, Consumes ls ts mid ∧ Consumes mid us rest := by
  refine ⟨fun h => ?_, fun ⟨mid, h, h'⟩ => h.append h'⟩
  induction ts generalizing ls with
  | nil => exact ⟨ls, .nil ls, h⟩
  | cons t ts ih =>
    obtain ⟨p, ls, rfl, hrest⟩ := h.split_cons
    obtain ⟨mid, hts, hus⟩ := ih hrest
    exact ⟨mid, .cons p hts, hus⟩

/-- A list of tokens stands first in itself. -/
theorem consumes_map_token (ls : List Located) : Consumes ls (ls.map Located.token) [] := by
  induction ls with
  | nil => exact .nil []
  | cons l ls ih => exact .cons l.position ih

theorem consumes_nil_iff : Consumes ls ts [] ↔ ls.map Located.token = ts := by
  refine ⟨fun h => by simpa using h.map_token, ?_⟩
  rintro rfl
  exact consumes_map_token ls

/-! ### Marks and names -/

@[simp] theorem startsWith_nil (m : Mark) : startsWith m [] = false := rfl

@[simp] theorem startsWith_mark (m n : Mark) (p : Position) (ls : List Located) :
    startsWith m (⟨.mark n, p⟩ :: ls) = decide (n = m) := rfl

theorem startsWith_of_ne {p : Position} (h : t ≠ .mark m) : startsWith m (⟨t, p⟩ :: ls) = false := by
  cases t with
  | mark n => exact decide_eq_false fun heq => h (by rw [heq])
  | _ => rfl

theorem startsWith_eq (h : startsWith m ls = true) : ∃ p, ls = ⟨.mark m, p⟩ :: ls.drop 1 := by
  unfold startsWith at h
  split at h
  · rename_i p _
    exact ⟨p, by rw [← of_decide_eq_true h]; rfl⟩
  · cases h

/-- A mark that stands first. -/
theorem consumes_drop (h : startsWith m ls = true) : Consumes ls [.mark m] (ls.drop 1) := by
  obtain ⟨p, hls⟩ := startsWith_eq h
  rw [hls]
  exact .cons p (.nil _)

@[simp] theorem expect_mark (last : Position) (m : Mark) (p : Position) (ls : List Located) :
    expect last m (⟨.mark m, p⟩ :: ls) = .ok ls := by
  rw [expect, startsWith_mark, if_pos (decide_eq_true rfl)]
  rfl

theorem consumes_expect (h : expect last m ls = .ok ls') : Consumes ls [.mark m] ls' := by
  unfold expect at h
  split at h
  · rename_i hstart
    cases h
    exact consumes_drop hstart
  · cases h

theorem expectName_eq {what n : String} {p : Position}
    (h : expectName last what ls = .ok ((n, p), ls')) : ls = ⟨.name n, p⟩ :: ls' := by
  unfold expectName at h
  split at h <;> cases h
  rfl

/-- An infix operator that stands first. -/
theorem frontOperator?_eq {op : BinaryOp} (h : frontOperator? ls = some op) :
    ∃ p, ls = ⟨.mark op.mark, p⟩ :: ls.drop 1 := by
  cases ls with
  | nil => cases h
  | cons l ls =>
    obtain ⟨token, p⟩ := l
    refine ⟨p, ?_⟩
    cases token with
    | mark m => cases m <;> cases h <;> rfl
    | _ => cases h

@[simp] theorem operator?_mark (op : BinaryOp) : operator? (.mark op.mark) = some op := by
  cases op <;> rfl

/-! ### What a reading comes to -/

section ComesTo

variable {α β : Type} {first second third : Except SyntaxError α} {next : α → Except SyntaxError β}
  {result : Except SyntaxError β} {a : α} {b : β} {allowed allowed' : Prop}

/-- What reads one thing after another has read both. -/
theorem read_bind (h : first >>= next = .ok b) : ∃ a, first = .ok a ∧ next a = .ok b := by
  cases hfirst : first with
  | ok a => exact ⟨a, rfl, by rwa [hfirst] at h⟩
  | error e =>
    rw [hfirst] at h
    cases h

/-- A reading returns what another one returns if a condition holds, and fails if not. -/
def ComesTo (first : Except SyntaxError α) (allowed : Prop) (second : Except SyntaxError α) : Prop :=
  ∀ x, first = .ok x ↔ allowed ∧ second = .ok x

namespace ComesTo

theorem of_eq (h : first = second) : ComesTo first True second := fun x => by rw [h, true_and]

theorem of_allowed (hallowed : allowed) (h : first = second) : ComesTo first allowed second :=
  fun x => by rw [h, and_iff_right hallowed]

theorem of_error {err : SyntaxError} (hallowed : ¬ allowed) (h : first = .error err) :
    ComesTo first allowed second := fun x => by
  rw [h]
  exact ⟨fun hx => (by cases hx), fun hx => absurd hx.1 hallowed⟩

theorem trans (h : ComesTo first allowed second) (h' : ComesTo second allowed' third) :
    ComesTo first (allowed ∧ allowed') third := fun x => by
  rw [h x, h' x, and_assoc]

theorem bind (h : ComesTo first allowed (.ok a)) (h' : ComesTo (next a) allowed' result) :
    ComesTo (first >>= next) (allowed ∧ allowed') result := fun b => by
  rw [and_assoc, ← h' b]
  constructor
  · intro hb
    obtain ⟨x, hfirst, hnext⟩ := read_bind hb
    obtain ⟨hallowed, hx⟩ := (h x).1 hfirst
    cases hx
    exact ⟨hallowed, hnext⟩
  · rintro ⟨hallowed, hnext⟩
    rw [(h a).2 ⟨hallowed, rfl⟩]
    exact hnext

/-- What is read first is settled. -/
theorem of_bind (h : first = .ok a) (h' : ComesTo (next a) allowed result) :
    ComesTo (first >>= next) allowed result := by
  rw [h]
  exact h'

/-- What is read next is settled. -/
theorem bind_eq (h : ComesTo first allowed (.ok a)) (h' : next a = result) :
    ComesTo (first >>= next) allowed result := fun b => by
  rw [h.bind (of_eq h') b, and_true]

end ComesTo

end ComesTo

end Parser

end Reflow
