import Reflow.Proofs.Code.Activity
import Reflow.Proofs.Memory.Equality
/-!
# Code keeps values founded

If the slots, the operand stacks and the arguments of the open frames stand for data, then they do so after
one more instruction. A new object gets a cell that was empty, so that no value changes what it stands for,
and an array is made from values that stand for data already. A fault drops the stacks and leaves the slots.

## Main definitions

* `Memory.Holds`: the slots and some more values stand for data.
* `Founding`: computations that keep values founded.
* `Activity.memory`, `Activity.operands`: the memory of code under way, and the values in its frames.

## Main results

* `Founding.frame`: all that stood for data does so after a founding computation.
* `founding_step`: one instruction keeps values founded.
* `Activity.holds_next`: so does one step of code under way.
-/

namespace Reflow

/-! ### Values of a memory -/

/-- The slots and the values `vs` stand for data. -/
def Memory.Holds (m : Memory) (vs : List Value) : Prop := m.Founds (m.globals.toList ++ vs)

namespace Memory

variable {m : Memory} {vs ws : List Value} {v : Value}

theorem Founds.mono (h : m.Founds vs) (hws : ws ⊆ vs) : m.Founds ws :=
  ⟨h.sound, fun w hw => h.founded w (hws hw)⟩

namespace Holds

theorem founded (h : m.Holds vs) (hv : v ∈ vs) : m.heap.Founded v :=
  Founds.founded h v (List.mem_append_right _ hv)

theorem global? (h : m.Holds vs) {slot : Nat} (hv : m.global? slot = some v) : m.heap.Founded v := by
  rw [Memory.global?, ← Array.getElem?_toList] at hv
  exact Founds.founded h v (List.mem_append_left _ (List.mem_of_getElem? hv))

/-- The slots stand for data, and so do any values of which that is known. -/
theorem replace (h : m.Holds vs) (hws : ∀ w ∈ ws, m.heap.Founded w) : m.Holds ws :=
  ⟨h.sound, List.forall_mem_append.2
    ⟨fun v hv => Founds.founded h v (List.mem_append_left _ hv), hws⟩⟩

theorem mono (h : m.Holds vs) (hws : ws ⊆ vs) : m.Holds ws :=
  h.replace fun _ hw => h.founded (hws hw)

end Holds

theorem Shows.holds {names : Nat → Option String} {slots : List Datum} (h : m.Shows names slots) :
    m.Holds [] := by
  refine ⟨h.sound, fun v hv => ?_⟩
  rw [List.append_nil] at hv
  obtain ⟨d, -, hd⟩ := h.held.exists_of_mem hv
  exact ⟨names, d, hd⟩

theorem Holds.shows (h : m.Holds vs) : ∃ names slots, m.Shows names slots := by
  obtain ⟨slots, hslots⟩ := Heap.Founded.heldAll
    (fun v hv => Founds.founded h v (List.mem_append_left _ hv)) fun _ => ""
  exact ⟨_, slots, h.sound, hslots⟩

end Memory

/-! ### Computations -/

/-- If the slots and the values `before` stand for data, then the computation leaves slots that do, and with
them the values `after` if it succeeds. No value changes what it stands for. -/
def Founding {α : Type} (before : List Value) (act : Run α) (after : α → List Value) : Prop :=
  ∀ m : Machine, m.memory.Holds before → match act.run m with
    | .ok a m' => m.memory.heap.Extends m'.memory.heap ∧ m'.memory.Holds (after a)
    | .error _ m' => m.memory.heap.Extends m'.memory.heap ∧ m'.memory.Holds []

/-- If it succeeds, the result of the computation is null. -/
def GivesNull (act : Run Value) : Prop := ∀ m v m', act.run m = .ok v m' → v = .null

theorem givesNull_pure : GivesNull (pure .null) := by
  rintro m v m' hr
  cases hr
  rfl

theorem givesNull_warning (message : String) : GivesNull (do warn message; return .null) := by
  rintro m v m' hr
  cases hr
  rfl

namespace Founding

variable {α β : Type} {before : List Value} {act : Run α} {after : α → List Value}

theorem pure {a : α} (h : ∀ m : Memory, m.Holds before → ∀ v ∈ after a, m.heap.Founded v) :
    Founding before (Pure.pure a) after := fun m hm => ⟨.refl _, hm.replace (h m.memory hm)⟩

theorem throw (fault : Fault) : Founding before (MonadExcept.throw fault) after :=
  fun _ hm => ⟨.refl _, hm.mono (List.nil_subset _)⟩

/-- If the computation succeeds, its result stands for data, and so does all that did so before. -/
theorem frame (hact : Founding before act after) {m m' : Machine} {vs : List Value} {a : α}
    (hm : m.memory.Holds vs) (hvs : before ⊆ vs) (hr : act.run m = .ok a m') :
    m.memory.heap.Extends m'.memory.heap ∧ m'.memory.Holds (after a ++ vs) := by
  have hafter := hact m (hm.mono hvs)
  rw [hr] at hafter
  obtain ⟨hext, hafter⟩ := hafter
  exact ⟨hext, hafter.replace (List.forall_mem_append.2
    ⟨fun v hv => hafter.founded hv, fun v hv => (hm.founded hv).extends hext⟩)⟩

/-- If the computation fails, the slots stand for data. -/
theorem frame_error (hact : Founding before act after) {m m' : Machine} {vs : List Value} {fault : Fault}
    (hm : m.memory.Holds vs) (hvs : before ⊆ vs) (hr : act.run m = .error fault m') :
    m.memory.heap.Extends m'.memory.heap ∧ m'.memory.Holds [] := by
  have hafter := hact m (hm.mono hvs)
  rwa [hr] at hafter

theorem bind {f : Run α} {g : α → Run β} {between : α → List Value} {after : β → List Value}
    (hf : Founding before f between) (hg : ∀ a, Founding (between a ++ before) (g a) after) :
    Founding before (f >>= g) after := by
  intro m hm
  rw [EStateM.run_bind]
  cases hr : f.run m with
  | error fault m' => exact hf.frame_error hm (List.Subset.refl _) hr
  | ok a m' =>
    obtain ⟨hext, hbetween⟩ := hf.frame hm (List.Subset.refl _) hr
    have hgm := hg a m' hbetween
    dsimp only
    cases hr : (g a).run m' with
    | error fault m'' =>
      rw [hr] at hgm
      exact hgm.imp_left hext.trans
    | ok b m'' =>
      rw [hr] at hgm
      exact hgm.imp_left hext.trans

/-- A computation that stores nothing is founding if its result is. -/
theorem of_quiet (hquiet : Quiet act) (h : ∀ m a m', m.memory.Holds before → act.run m = .ok a m' →
    ∀ v ∈ after a, m'.memory.heap.Founded v) : Founding before act after := by
  intro m hm
  have hheld {m' : Machine} (hgrows : m.Grows m') :
      m.memory.heap.Extends m'.memory.heap ∧ m'.memory.Holds [] := by
    have hext := hgrows.heap hm.sound
    refine ⟨hext, hgrows.sound hm.sound, fun v hv => ?_⟩
    rw [List.append_nil, hgrows.globals] at hv
    exact (Memory.Founds.founded hm v (List.mem_append_left _ hv)).extends hext
  cases hr : act.run m with
  | error fault m' => exact hheld (hquiet.of_error hr)
  | ok a m' =>
    obtain ⟨hext, hglobals⟩ := hheld (hquiet.of_ok hr)
    exact ⟨hext, hglobals.replace (h m a m' hm hr)⟩

/-! ### What instructions are made of -/

theorem newString (s : String) : Founding before (Reflow.newString s) ([·]) := by
  refine of_quiet (.newString s) fun m v m' hm hr => List.forall_mem_singleton.2 ?_
  cases hr
  exact ⟨fun _ => none, _, .string (Heap.string?_eq_some.2 (hm.sound.get?_alloc (.string s)))⟩

theorem newArray {items : List Value} (hitems : items ⊆ before) :
    Founding before (Reflow.newArray items) ([·]) := by
  refine of_quiet (.newArray items) fun m v m' hm hr => List.forall_mem_singleton.2 ?_
  cases hr
  obtain ⟨ds, hs⟩ := Heap.Founded.heldAll (fun v hv => hm.founded (hitems hv)) fun _ => ""
  exact ⟨_, _, .array (Heap.array?_eq_some.2 (hm.sound.get?_alloc (.array items)))
    (hs.extends (hm.sound.extends_alloc (.array items)))⟩

theorem readGlobal (slot : Nat) : Founding before (Reflow.readGlobal slot) ([·]) := by
  refine of_quiet (.readGlobal slot) fun m v m' hm hr => List.forall_mem_singleton.2 ?_
  simp only [Reflow.readGlobal, EStateM.run_bind, EStateM.run_get] at hr
  cases hv : m.memory.global? slot with
  | none =>
    simp only [hv] at hr
    cases hr
  | some u =>
    simp only [hv] at hr
    cases hr
    exact hm.global? hv

/-- An operation whose result stands for a datum. -/
theorem apply {op : Memory → Outcome} (hof : ∀ m, (op m).Of m)
    (hgives : ∀ m : Memory, m.Holds before → ∃ names d, (op m).Gives names d) :
    Founding before (do (op (← MonadState.get).memory).apply) ([·]) := by
  refine of_quiet (quiet_apply hof) fun m v m' hm hr => List.forall_mem_singleton.2 ?_
  obtain ⟨names, d, hd⟩ := hgives m.memory hm
  exact ⟨names, d, run_apply_ok op hd hr⟩

/-- A store into a slot that is there; into another one it faults. -/
theorem storeValue (slot : Nat) {v : Value} (hv : v ∈ before) :
    Founding before (Reflow.storeValue slot v) fun _ => [] := by
  intro m hm
  have hrefl := Heap.Extends.refl m.memory.heap
  have hglobals : m.memory.Holds [] := hm.mono (List.nil_subset _)
  cases hcurrent : m.memory.global? slot with
  | none =>
    rw [run_storeValue_of_none hcurrent]
    exact ⟨hrefl, hglobals⟩
  | some current =>
    rw [run_storeValue hcurrent]
    by_cases hsame : m.memory.heap.same current v = true
    · simp only [hsame, if_true]
      exact ⟨hrefl, hglobals⟩
    · simp only [hsame, Bool.false_eq_true, if_false]
      refine ⟨hrefl, hm.sound, fun u hu => ?_⟩
      rw [List.append_nil, Array.toList_setIfInBounds] at hu
      rcases List.mem_or_eq_of_mem_set hu with hu | rfl
      · exact Memory.Founds.founded hm u (List.mem_append_left _ hu)
      · exact hm.founded hv

/-- A computation that can only give null. -/
theorem null {act : Run Value} (hquiet : Quiet act) (hnull : GivesNull act) :
    Founding before act ([·]) := by
  refine of_quiet hquiet fun m v m' _ hr => List.forall_mem_singleton.2 ?_
  rw [hnull m v m' hr]
  exact .of_pointer? rfl

end Founding

/-! ### Instructions -/

/-- The values at hand after an instruction. -/
def Flow.values : Flow → List Value
  | .goto _ stack => stack
  | .leave v => [v]

section Step

variable {before stack : List Value}

/-- The frame goes on with a value on top of what was on its stack. -/
theorem Founding.goto {v : Value} (hv : ∀ m : Memory, m.Holds before → m.heap.Founded v)
    (hstack : stack ⊆ before) (pc : Nat) :
    Founding before (Pure.pure (.goto pc (v :: stack))) Flow.values :=
  .pure fun m hm => List.forall_mem_cons.2 ⟨hv m hm, fun _ hu => hm.founded (hstack hu)⟩

/-- The result of a computation is put on the stack. -/
theorem Founding.push {act : Run Value} (hact : Founding before act ([·])) (hstack : stack ⊆ before)
    (pc : Nat) : Founding before (act >>= fun v => Pure.pure (.goto pc (v :: stack))) Flow.values :=
  hact.bind fun _ => .goto (fun _ hm => hm.founded List.mem_cons_self)
    (fun _ hu => List.mem_cons_of_mem _ (hstack hu)) pc

/-- One instruction keeps values founded. Calls of functions are not looked at. -/
theorem founding_step (x : Executable) (r : Range) (i : Instruction) (pc : Nat) (stack : List Value) :
    Founding (stack ++ r.locals) (step x (fun _ => pure .null) r i pc stack) Flow.values := by
  have hstack : stack ⊆ stack ++ r.locals := List.subset_append_left _ _
  cases i with
  | pushNull | pushBool | pushInt | pushDouble | pushFunction =>
    exact .goto (fun _ _ => .of_pointer? rfl) hstack _
  | pushString s => exact .push (.newString s) hstack _
  | loadGlobal slot =>
    rw [step_loadGlobal]
    exact .push (.readGlobal slot) hstack _
  | storeGlobal slot =>
    cases stack with
    | nil => exact .throw _
    | cons v stack =>
      rw [step_storeGlobal]
      refine .bind (.storeValue slot (List.mem_append_left _ List.mem_cons_self)) fun _ => ?_
      exact .pure fun m hm u hu => hm.founded (hstack (List.mem_cons_of_mem _ hu))
  | loadLocal i =>
    refine .goto (fun m hm => ?_) hstack _
    cases hv : r.locals[i]? with
    | none => exact .of_pointer? rfl
    | some v => exact hm.founded (List.mem_append_right _ (List.mem_of_getElem? hv))
  | makeArray count =>
    rw [step]
    split
    · refine .push (.newArray fun v hv => ?_) (fun v hv => ?_) _
      · exact hstack (List.mem_of_mem_take (List.mem_reverse.1 hv))
      · exact hstack (List.mem_of_mem_drop hv)
    · exact .throw _
  | index =>
    match stack with
    | [] | [_] => exact .throw _
    | k :: target :: stack =>
      refine .push (.apply (fun m => of_applyIndex m target k) fun m hm => ?_)
        (fun u hu => hstack (List.mem_cons_of_mem _ (List.mem_cons_of_mem _ hu))) _
      obtain ⟨a, ha⟩ := (hm.founded (v := target) (by simp)).held fun _ => ""
      obtain ⟨b, hb⟩ := (hm.founded (v := k) (by simp)).held fun _ => ""
      exact ⟨_, _, gives_applyIndex hm.sound ha hb⟩
  | unary op =>
    cases stack with
    | nil => exact .throw _
    | cons operand stack =>
      refine .push (.apply (fun m => of_applyUnary m op operand) fun m hm => ?_)
        (fun u hu => hstack (List.mem_cons_of_mem _ hu)) _
      obtain ⟨a, ha⟩ := (hm.founded (v := operand) (by simp)).held fun _ => ""
      exact ⟨_, _, gives_applyUnary op ha⟩
  | binary op =>
    match stack with
    | [] | [_] => exact .throw _
    | rhs :: lhs :: stack =>
      refine .push (.apply (fun m => of_applyBinary m x op lhs rhs) fun m hm => ?_)
        (fun u hu => hstack (List.mem_cons_of_mem _ (List.mem_cons_of_mem _ hu))) _
      obtain ⟨a, ha⟩ := (hm.founded (v := lhs) (by simp)).held x.functionName
      obtain ⟨b, hb⟩ := (hm.founded (v := rhs) (by simp)).held x.functionName
      exact ⟨_, _, gives_applyBinary x.names_shownName op hm.sound ha hb⟩
  | call procedure argc =>
    rw [step]
    split
    · refine .push (.null (quiet_callProcedure (fun _ _ => .pure _) _ _ _) ?_)
        (fun v hv => hstack (List.mem_of_mem_drop hv)) _
      exact callProcedure_induction (P := GivesNull) givesNull_warning (fun _ _ => givesNull_pure) _ _ _
    · exact .throw _
  | callPointer argc =>
    rw [step]
    split
    · split
      · rename_i callee rest hdrop
        refine .push (.null (quiet_callValue (fun _ _ => .pure _) _ _) ?_)
          (fun v hv => hstack (List.mem_of_mem_drop (hdrop ▸ List.mem_cons_of_mem _ hv))) _
        exact callValue_induction (P := GivesNull) givesNull_warning (fun _ _ => givesNull_pure) _ _
      · exact .throw _
    · exact .throw _
  | jump target => exact .pure fun m hm u hu => hm.founded (hstack hu)
  | jumpIfFalse target =>
    cases stack with
    | nil => exact .throw _
    | cons v stack =>
      refine .of_quiet (.get fun m => by split <;> exact .pure _) fun m flow m' hm hr u hu => ?_
      obtain ⟨machine, m₁, hget, hr⟩ := run_bind_ok hr
      cases hget
      have hheld : u ∈ stack → m.memory.heap.Founded u := fun hu =>
        hm.founded (hstack (List.mem_cons_of_mem _ hu))
      split at hr
      · cases hr
        exact hheld hu
      · cases hr
        exact hheld hu
  | ret =>
    refine .pure fun m hm => List.forall_mem_singleton.2 ?_
    cases stack with
    | nil => exact .of_pointer? rfl
    | cons v stack => exact hm.founded (hstack List.mem_cons_self)

end Step

/-! ### Open frames -/

/-- The operand stack and the arguments of a frame. -/
def Frame.operands (f : Frame) : List Value := f.stack ++ f.range.locals

theorem Executable.body?_locals {x : Executable} {block index : Nat} {args : List Value} {r : Range}
    (h : x.body? block index args = some r) : r.locals = args := by
  obtain ⟨p, -, hrange⟩ := Option.bind_eq_some_iff.1 h
  obtain ⟨body, -, rfl⟩ := Option.map_eq_some_iff.1 hrange
  rfl

/-- A call takes its arguments from the stack. -/
theorem Executable.called?_subset {x : Executable} {i : Instruction} {stack rest : List Value} {r : Range}
    (h : x.called? i stack = some (r, rest)) : r.locals ⊆ stack ∧ rest ⊆ stack := by
  have hargs : ∀ {argc : Nat}, r.locals = (stack.take argc).reverse → r.locals ⊆ stack := by
    intro argc hlocals v hv
    rw [hlocals, List.mem_reverse] at hv
    exact List.mem_of_mem_take hv
  cases i with
  | call index argc =>
    rw [called?] at h
    split at h
    · obtain ⟨body, hbody, heq⟩ := Option.map_eq_some_iff.1 h
      cases heq
      exact ⟨hargs (body?_locals hbody), List.drop_subset _ _⟩
    · cases h
  | callPointer argc =>
    rw [called?] at h
    split at h
    · split at h
      · rename_i pointer rest' hdrop
        obtain ⟨target, -, hrange⟩ := Option.bind_eq_some_iff.1 h
        obtain ⟨body, hbody, heq⟩ := Option.map_eq_some_iff.1 hrange
        cases heq
        exact ⟨hargs (body?_locals hbody), fun v hv =>
          List.mem_of_mem_drop (hdrop ▸ List.mem_cons_of_mem _ hv)⟩
      · cases h
    · cases h
  | _ => cases h

namespace Activity

/-- The memory of code under way. -/
def memory : Activity → Memory
  | running _ _ m => m.memory
  | finished (.ok _ m) => m.memory
  | finished (.error _ m) => m.memory

/-- The operand stacks and the arguments of all open frames, or the result. -/
def operands : Activity → List Value
  | running f callers _ => f.operands ++ callers.flatMap Frame.operands
  | finished (.ok v _) => [v]
  | finished (.error _ _) => []

variable {x : Executable} {limit : Nat} {f : Frame} {callers : List Frame} {m : Machine}

theorem holds_error (fault : Fault) {vs : List Value} (h : m.memory.Holds vs) :
    (finished (.error fault m)).memory.Holds (finished (.error fault m)).operands :=
  h.mono (List.nil_subset _)

theorem holds_goto {stack : List Value} (pc : Nat)
    (h : m.memory.Holds ((stack ++ f.range.locals) ++ callers.flatMap Frame.operands)) :
    (f.goto pc stack callers m).memory.Holds (f.goto pc stack callers m).operands := by
  unfold Frame.goto
  split
  · exact holds_error _ h
  · exact h

theorem holds_resume {v : Value} (h : m.memory.Holds (v :: callers.flatMap Frame.operands)) :
    (resume callers (.ok v m)).memory.Holds (resume callers (.ok v m)).operands := by
  cases callers with
  | nil => exact h
  | cons f callers =>
    rw [List.flatMap_cons, Frame.operands, ← List.cons_append, ← List.cons_append] at h
    exact holds_goto _ h

theorem holds_enter {r : Range} (h : m.memory.Holds (r.locals ++ callers.flatMap Frame.operands)) :
    (enter x limit r callers m).memory.Holds (enter x limit r callers m).operands := by
  unfold enter
  split
  · exact holds_error _ h
  · split
    · exact holds_error _ h
    · exact h

/-- A call takes its arguments to the new frame and leaves the others to the frame of the caller. -/
theorem holds_called {i : Instruction} {r : Range} {stack : List Value}
    (hcalled : x.called? i f.stack = some (r, stack))
    (h : m.memory.Holds (f.operands ++ callers.flatMap Frame.operands)) :
    m.memory.Holds (r.locals ++ ({ f with stack } :: callers).flatMap Frame.operands) := by
  obtain ⟨hlocals, hrest⟩ := Executable.called?_subset hcalled
  refine h.mono fun v hv => ?_
  simp only [List.flatMap_cons, Frame.operands, List.mem_append] at hv ⊢
  rcases hv with hv | (hv | hv) | hv
  · exact .inl (.inl (hlocals hv))
  · exact .inl (.inl (hrest hv))
  · exact .inl (.inr hv)
  · exact .inr hv

/-- One step keeps the values of all open frames founded. -/
theorem holds_next {a : Activity} (h : a.memory.Holds a.operands) :
    (a.next x limit).memory.Holds (a.next x limit).operands := by
  cases a with
  | finished result => exact h
  | running f callers m =>
    change m.memory.Holds (f.operands ++ callers.flatMap Frame.operands) at h
    rw [next]
    split
    · split
      · exact holds_error _ h
      · rename_i i hat
        split
        · rename_i r rest hcalled
          exact holds_enter (holds_called hcalled h)
        · have hstep := founding_step x f.range i f.pc f.stack
          have hframe : f.stack ++ f.range.locals ⊆ f.operands ++ callers.flatMap Frame.operands :=
            List.subset_append_left _ _
          split
          · rename_i pc stack m' hr
            refine holds_goto pc ((hstep.frame h hframe hr).2.mono fun v hv => ?_)
            simp only [Flow.values, Frame.operands, List.mem_append] at hv ⊢
            rcases hv with (hv | hv) | hv
            · exact .inl hv
            · exact .inr (.inl (.inr hv))
            · exact .inr (.inr hv)
          · rename_i v m' hr
            exact holds_resume ((hstep.frame h hframe hr).2.mono
              (List.cons_subset_cons v (List.subset_append_right _ _)))
          · rename_i fault m' hr
            exact (hstep.frame_error h hframe hr).2
    · refine holds_resume (h.replace (List.forall_mem_cons.2
        ⟨?_, fun u hu => h.founded (List.mem_append_right _ hu)⟩))
      cases hstack : f.stack with
      | nil => exact .of_pointer? rfl
      | cons v stack =>
        refine h.founded (List.mem_append_left _ (List.mem_append_left _ ?_))
        rw [hstack]
        exact List.mem_cons_self

end Activity

end Reflow
