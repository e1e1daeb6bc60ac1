import Reflow.Proofs.Code.Stepwise
/-!
# Code claims no update cycles

That a statement has run too often is for the loop over the statements to find. Code itself faults in other
ways only, whatever it is and however deeply it calls.

## Main definitions

* `Straight`: computations that claim no update cycle.

## Main results

* `straight_runRange`: running a range of code claims none.
-/

namespace Reflow

/-- The computation never claims an update cycle. -/
def Straight {α : Type} (act : Run α) : Prop :=
  ∀ m node limit m', act.run m ≠ .error (.updateCycle node limit) m'

namespace Straight

variable {α β : Type}

/-- A computation that never faults is straight. -/
theorem of_ok {act : Run α} (h : ∀ m, ∃ a m', act.run m = .ok a m') : Straight act := by
  intro m node limit m' hr
  obtain ⟨a, m'', hok⟩ := h m
  cases hok.symm.trans hr

theorem pure (a : α) : Straight (Pure.pure a : Run α) := .of_ok fun m => ⟨a, m, rfl⟩

theorem throw {fault : Fault} (h : ∀ node limit, fault ≠ .updateCycle node limit) :
    Straight (MonadExcept.throw fault : Run α) := by
  intro m node limit m' hr
  cases hr
  exact h node limit rfl

theorem bind {f : Run α} {g : α → Run β} (hf : Straight f) (hg : ∀ a, Straight (g a)) :
    Straight (f >>= g) := by
  intro m node limit m' hr
  rw [EStateM.run_bind] at hr
  cases hfm : f.run m with
  | error fault m'' =>
    rw [hfm] at hr
    cases hr
    exact hf m node limit _ hfm
  | ok a m'' =>
    rw [hfm] at hr
    exact hg a m'' node limit m' hr

theorem get {g : Machine → Run β} (h : ∀ m, Straight (g m)) :
    Straight (MonadState.get >>= g : Run β) := fun m => h m m

theorem warn (message : String) : Straight (Reflow.warn message) := .of_ok fun _ => ⟨_, _, rfl⟩

theorem apply (o : Outcome) : Straight o.apply := by
  refine .bind (.of_ok fun _ => ⟨_, _, rfl⟩) fun _ => ?_
  split
  · exact .bind (.warn _) fun _ => .pure _
  · exact .bind (.pure _) fun _ => .pure _

theorem store (slot : Nat) (v : Value) : Straight (storeValue slot v) := by
  refine .get fun m => ?_
  split
  · rename_i hset
    unfold Memory.setGlobal at hset
    split at hset
    · cases hset
      exact .throw fun _ _ h => by cases h
    · split at hset <;> cases hset
  · exact .of_ok fun _ => ⟨_, _, rfl⟩
  · exact .of_ok fun _ => ⟨_, _, rfl⟩

theorem stepwise : Stepwise @Straight where
  pure := .pure
  throw := .throw
  bind := .bind
  get := .of_ok fun _ => ⟨_, _, rfl⟩
  warn := .warn
  newString _ := .of_ok fun _ => ⟨_, _, rfl⟩
  newArray _ := .of_ok fun _ => ⟨_, _, rfl⟩
  apply _ := .bind (.of_ok fun _ => ⟨_, _, rfl⟩) fun _ => .apply _
  store := .store

end Straight

/-- No code claims an update cycle. -/
theorem straight_runRange (x : Executable) (limit depth : Nat) (r : Range) :
    Straight (runRange x limit depth r) := Straight.stepwise.runRange x limit depth r

end Reflow
