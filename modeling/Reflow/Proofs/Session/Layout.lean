import Reflow.Proofs.Program.Stores
import Reflow.Proofs.Session.Safety
/-!
# Slots over whole sessions

The program of a session has one slot for each of its top-level names, numbered in the order in which
the names were declared, and memory has these slots and perhaps more: after a run that faulted, the
slots of the program that was taken back are still there. These spare slots hold null, so that a name
that is given one of them later starts from null.

## Main definitions

* `Session.LaidOut`: what every request keeps.
* `Session.LaterThan`: a session that has kept the slots of an earlier one.
* `Session.slotOf?`: the slot of a name.

## Main results

* `Session.laidOut_run`: every session is laid out at all times.
* `Session.slots_run`: the slots of a session and what becomes of them.
-/

namespace Reflow

theorem CompileState.Sound.globalCount_executable {s : CompileState} (h : s.Sound) :
    s.executable.globalCount = s.globalCount := by
  have hbodies : (s.bodies.map Executable.bare).filter (·.parent.isNone) = [] := by
    refine List.filter_eq_nil_iff.2 fun b hb => ?_
    obtain ⟨block, hblock, rfl⟩ := List.mem_map.1 hb
    simp [Executable.bare, (h.bodies block hblock).2]
  have hroot : (Executable.bare s.root).parent.isNone = true := by
    simp [Executable.bare, h.tabled.parent]
  change ((Executable.bare s.root :: s.bodies.map Executable.bare).filter
    (·.parent.isNone)).foldl (fun n b => n + b.globalSize) 0 = _
  simp only [List.filter_cons, hroot, if_true, hbodies, List.foldl_cons, List.foldl_nil,
    Nat.zero_add]
  rfl

namespace CompileState

variable {s t : CompileState} {name : String} {symbol : Symbol}

/-- The symbol of a name is at its slot. -/
theorem Tabled.get?_eq_some (h : s.Tabled) : s.root.symbols.get? name = some symbol ↔
    s.root.symbols.symbols[symbol.index]? = some symbol ∧ symbol.name = name := by
  constructor
  · intro hget
    obtain ⟨i, hi⟩ := List.mem_iff_getElem?.1 (List.mem_of_find?_eq_some hget)
    have hname := List.find?_some hget
    rw [h.symbols i symbol hi]
    exact ⟨hi, eq_of_beq hname⟩
  · rintro ⟨hat, rfl⟩
    have hmem := List.mem_of_getElem? hat
    cases hget : s.root.symbols.get? symbol.name with
    | none => exact absurd (List.find?_eq_none.1 hget symbol hmem) (by simp)
    | some other =>
      -- two symbols of one name have one place
      have hname : (other.name == symbol.name) = true :=
        List.find?_some (p := fun s : Symbol => s.name == symbol.name) hget
      exact congrArg some (List.inj_on_of_nodup_map h.names (List.mem_of_find?_eq_some hget) hmem
        (eq_of_beq hname))

/-- A name that is new has a new slot. -/
theorem Extends.le_index (hext : s.Extends t) (hs : s.Tabled) (ht : t.Tabled)
    (hnone : s.root.symbols.get? name = none) (h : t.root.symbols.get? name = some symbol) :
    s.globalCount ≤ symbol.index := by
  obtain ⟨hat, rfl⟩ := ht.get?_eq_some.1 h
  rw [globalCount, hs.slots]
  refine Nat.le_of_not_lt fun hlt => ?_
  obtain ⟨more, hmore⟩ := hext.symbols
  rw [← hmore, List.getElem?_append_left hlt] at hat
  exact absurd (List.find?_eq_none.1 hnone symbol (List.mem_of_getElem? hat)) (by simp)

end CompileState

namespace Memory

theorem globalCount_clearFrom (m : Memory) (start : Nat) :
    (m.clearFrom start).globalCount = m.globalCount := Array.size_mapIdx

/-- Clearing leaves null in the slots from `start` on. -/
theorem global?_clearFrom_of_le {m : Memory} {start slot : Nat} (hle : start ≤ slot)
    (hlt : slot < (m.clearFrom start).globalCount) :
    (m.clearFrom start).global? slot = some .null := by
  rw [globalCount_clearFrom] at hlt
  have hslot : slot < m.globals.size := hlt
  simp [global?, clearFrom, hslot, Nat.not_lt_of_le hle]

/-- Clearing leaves the slots before `start` as they are. -/
theorem global?_clearFrom_of_lt {m : Memory} {start slot : Nat} (hlt : slot < start) :
    (m.clearFrom start).global? slot = m.global? slot := by
  simp [global?, clearFrom, hlt]

end Memory

namespace Session

/-- The slot of a name in the program that was run last. -/
def slotOf? (s : Session) (name : String) : Option Nat :=
  (s.executable.globalSymbol? name).map (·.index)

/-- The session has installed the program that it compiles on, memory has the slots of the program,
and spare slots hold null and have not changed. -/
structure LaidOut (s : Session) : Prop where
  sound : s.Sound
  executable : ∃ entry updates full,
    s.executable = (s.compiled.scheduled entry updates full).executable
  room : s.compiled.globalCount ≤ s.memory.globalCount
  spare : ∀ slot, s.compiled.globalCount ≤ slot → slot < s.memory.globalCount →
    s.memory.global? slot = some .null
  modified : ∀ slot ∈ s.memory.modified, slot < s.compiled.globalCount
  heap : s.memory.heap.Sound

theorem laidOut_fresh (options : Options) : ({ options } : Session).LaidOut where
  sound := sound_fresh options
  executable := ⟨none, [], false, rfl⟩
  room := Nat.le_refl 0
  spare _ _ h := absurd h (Nat.not_lt_zero _)
  modified _ h := by cases h
  heap := Heap.sound_empty

/-- What has to run next, the notes of changes and all that is not program or memory do not matter. -/
theorem LaidOut.of_scheduled {s s' : Session} (h : s.LaidOut) (hs' : s'.Sound) {entry updates full}
    (hcompiled : s'.compiled = s.compiled.scheduled entry updates full)
    (hexecutable : s'.executable = s.executable)
    (hmemory : s'.memory = s.memory ∨ s'.memory = s.memory.resetModified) : s'.LaidOut := by
  have hcount : s'.compiled.globalCount = s.compiled.globalCount := by rw [hcompiled]; rfl
  have hglobals : s'.memory.globals = s.memory.globals := by
    rcases hmemory with heq | heq
    · rw [heq]
    · rw [heq]
      rfl
  refine ⟨hs', ?_, ?_, fun slot hle hlt => ?_, fun slot hslot => ?_, ?_⟩
  · obtain ⟨entry', updates', full', hx⟩ := h.executable
    exact ⟨entry', updates', full', by rw [hexecutable, hx, hcompiled]; rfl⟩
  · rw [hcount, Memory.globalCount, hglobals]
    exact h.room
  · rw [hcount] at hle
    rw [Memory.globalCount, hglobals] at hlt
    rw [Memory.global?, hglobals]
    exact h.spare slot hle hlt
  · rw [hcount]
    rcases hmemory with heq | heq <;> rw [heq] at hslot
    · exact h.modified slot hslot
    · cases hslot
  · rcases hmemory with heq | heq <;> rw [heq] <;> exact h.heap

theorem LaidOut.reset {s : Session} (h : s.LaidOut) : s.reset.LaidOut :=
  h.of_scheduled h.sound.reset rfl rfl (.inr rfl)

theorem LaidOut.prepared {s : Session} (h : s.LaidOut) (full : Bool) : (s.prepared full).LaidOut := by
  have hprepared := h.sound.prepared full
  rw [prepared_eq] at hprepared ⊢
  exact h.of_scheduled hprepared rfl rfl (.inr rfl)

/-! ### A run starts and ends laid out -/

/-- Making room adds slots that hold null. -/
theorem global?_withRoom (s : Session) (needed slot : Nat) :
    (s.withRoom needed).memory.global? slot =
      if slot < s.memory.globalCount then s.memory.global? slot
      else if slot < (s.withRoom needed).memory.globalCount then some .null else none := by
  unfold withRoom
  dsimp only
  split
  · rw [globalCount_grow]
    by_cases hslot : slot < s.memory.globalCount
    · rw [if_pos hslot]
      exact Array.getElem?_append_left hslot
    · rw [if_neg hslot]
      refine (Array.getElem?_append_right (Nat.le_of_not_lt hslot)).trans ?_
      rw [Array.getElem?_replicate]
      exact if_congr (Nat.sub_lt_iff_lt_add' (Nat.le_of_not_lt hslot)) rfl rfl
  · split
    · rfl
    · exact Array.getElem?_eq_none (Nat.le_of_not_lt ‹_›)

/-- The memory that the run of a compiled program leaves, whether it succeeds or faults. -/
theorem Sound.updates {s : Session} (h : s.Sound) (f : Fragment) (forced : List Nat) :
    let image := (s.compiled.compiled f).image
    let current := s.installed image
    current.memory.Updates (s.compiled.compiled f).globalCount
      (execute image.executable current.memory (current.settings forced image)).2 :=
  (evolves_compiled f _ h.compiled).1.execute_updates rfl _

/-- When a compiled program is run, all slots that the program before it did not have hold null. -/
theorem LaidOut.null_installed {s : Session} (h : s.LaidOut) (image : CompiledImage) {slot : Nat}
    (hle : s.compiled.globalCount ≤ slot) (hlt : slot < (s.installed image).memory.globalCount) :
    (s.installed image).memory.global? slot = some .null := by
  refine (s.global?_withRoom image.globalCount slot).trans ?_
  split
  · exact h.spare slot hle ‹_›
  · exact if_pos hlt

/-- The variable has no slot, or its slot holds null. -/
def Blank (s : Session) (name : String) : Prop :=
  ∀ slot, s.compiled.root.symbols.indexOf? name = some slot → s.memory.global? slot = some .null

/-- When a compiled program is run, a variable that was blank is so still. -/
theorem LaidOut.blank_installed {s : Session} (h : s.LaidOut) {f : Fragment} {name : String}
    (hblank : s.Blank name) : (s.installed (s.compiled.compiled f).image).Blank name := by
  intro slot hslot
  obtain ⟨ht, hext⟩ := evolves_compiled f _ h.sound.compiled
  cases hold : s.compiled.root.symbols.indexOf? name with
  | some i =>
    obtain rfl : i = slot :=
      Option.some.inj ((indexOf?_of_isPrefix hext.symbols hold).symm.trans hslot)
    have hlt : i < s.memory.globalCount := by
      refine Nat.lt_of_lt_of_le ?_ h.room
      obtain ⟨hi, -⟩ := List.findIdx?_eq_some_iff_getElem.1 hold
      exact Nat.lt_of_lt_of_eq hi h.sound.compiled.tabled.slots.symm
    refine (s.global?_withRoom _ i).trans ?_
    rw [if_pos hlt]
    exact hblank i hold
  | none =>
    obtain ⟨hlt, -⟩ := List.findIdx?_eq_some_iff_getElem.1 hslot
    refine h.null_installed _ ?_ (Nat.lt_of_lt_of_le ?_ (h.sound.allocated _))
    · obtain ⟨more, hmore⟩ := hext.symbols
      have hnew : (s.compiled.root.symbols.symbols ++ more).findIdx? (·.name == name) = some slot :=
        hmore ▸ hslot
      rw [SymbolTable.indexOf?] at hold
      rw [List.findIdx?_append, hold, Option.none_or] at hnew
      obtain ⟨i, -, rfl⟩ := Option.map_eq_some_iff.1 hnew
      rw [CompileState.globalCount, h.sound.compiled.tabled.slots]
      exact Nat.le_add_left _ _
    · exact Nat.lt_of_lt_of_eq hlt ht.tabled.slots.symm

/-! ### Batches -/

section Batch

variable {s : Session} {f : Fragment} {memory : Memory}

theorem Sound.succeeded (h : s.Sound)
    (hupdates : (s.installed (s.compiled.compiled f).image).memory.Updates
      (s.compiled.compiled f).globalCount memory) :
    ((s.installed (s.compiled.compiled f).image).succeeded memory).Sound :=
  ⟨h.phase, hupdates.size.symm, (evolves_compiled f _ h.compiled).1⟩

theorem Sound.rolledBack (h : s.Sound)
    (hupdates : (s.installed (s.compiled.compiled f).image).memory.Updates
      (s.compiled.compiled f).globalCount memory) :
    (rolledBack s (s.installed (s.compiled.compiled f).image) memory).Sound :=
  ⟨h.phase, hupdates.size.symm.trans (memory.globalCount_clearFrom _).symm, h.compiled⟩

/-- What a batch keeps: it is enough to look at the three ways in which it may end. -/
theorem keeps_runBatch {P : Session → Prop} {Q : SessionError → Session → Prop} (f : Fragment)
    (forced : List Nat) (full : Bool) (hsound : ∀ s, P s → s.Sound)
    (hprepared : ∀ s, P s → P (s.prepared full))
    (hrejected : ∀ s diagnostics, P s → Q (.compile diagnostics) s.abandon)
    (hrun : ∀ s memory, P s → s.memory.modified = [] →
      (s.installed (s.compiled.compiled f).image).memory.Updates
        (s.compiled.compiled f).globalCount memory →
      P ((s.installed (s.compiled.compiled f).image).succeeded memory) ∧ ∀ fault,
        Q (.execute fault)
          (Session.rolledBack s (s.installed (s.compiled.compiled f).image) memory)) :
    Keeps P Q (runBatch f forced full) := by
  intro s h
  rw [run_runBatch (hsound s h).phase (hsound s h).baseline]
  have hready := hprepared s h
  have hnotes : (s.prepared full).memory.modified = [] := by rw [prepared_eq]; rfl
  dsimp only
  rcases hcompile : compile f (s.prepared full).compiled with ⟨diagnostics, _ | image⟩
  · exact hrejected _ _ hready
  · obtain rfl := compile_image (congrArg CompileOutcome.image hcompile)
    have hupdates := (hsound _ hready).updates f forced
    dsimp only at hupdates ⊢
    rcases hexecute : execute _ _ _ with ⟨fault | run, memory⟩
    · rw [hexecute] at hupdates
      exact (hrun _ _ hready hnotes hupdates).2 fault
    · rw [hexecute] at hupdates
      exact (hrun _ _ hready hnotes hupdates).1

theorem LaidOut.heap_installed (h : s.LaidOut) (image : CompiledImage) :
    (s.installed image).memory.heap.Sound := by
  have heq : (s.installed image).memory.heap = s.memory.heap := s.heap_withRoom _
  exact heq ▸ h.heap

/-- A run that succeeded leaves a session that is laid out. -/
theorem LaidOut.succeeded (h : s.LaidOut) (hnotes : s.memory.modified = [])
    (hupdates : (s.installed (s.compiled.compiled f).image).memory.Updates
      (s.compiled.compiled f).globalCount memory) :
    ((s.installed (s.compiled.compiled f).image).succeeded memory).LaidOut := by
  have hstart : (s.installed (s.compiled.compiled f).image).memory.modified = [] :=
    (s.modified_withRoom _).trans hnotes
  have hext := (evolves_compiled f _ h.sound.compiled).2
  refine ⟨h.sound.succeeded hupdates, ⟨_, _, _, rfl⟩, ?_, fun slot hle hlt => ?_,
    fun slot hslot => ?_, ?_⟩
  · exact Nat.le_trans (h.sound.allocated (s.compiled.compiled f).image)
      (Nat.le_of_eq hupdates.size.symm)
  · refine (hupdates.global?_of_le hstart hle).trans ?_
    exact h.null_installed _ (Nat.le_trans hext.slots hle) (hupdates.size ▸ hlt)
  · exact hupdates.lt_of_mem_modified hstart hslot
  · exact (hupdates.sound (h.heap_installed _)).collect _

/-- A run that faulted leaves a session that is laid out. -/
theorem LaidOut.rolledBack (h : s.LaidOut)
    (hupdates : (s.installed (s.compiled.compiled f).image).memory.Updates
      (s.compiled.compiled f).globalCount memory) :
    (Session.rolledBack s (s.installed (s.compiled.compiled f).image) memory).LaidOut := by
  have hslots := (evolves_compiled f _ h.sound.compiled).2.slots
  have hcount := h.sound.allocated (s.compiled.compiled f).image
  refine ⟨h.sound.rolledBack hupdates, h.executable, ?_, fun slot hle hlt => ?_,
    fun slot hslot => ?_, ?_⟩
  · change _ ≤ (memory.clearFrom s.compiled.globalCount).globalCount
    rw [Memory.globalCount_clearFrom]
    exact Nat.le_trans (Nat.le_trans hslots hcount) (Nat.le_of_eq hupdates.size.symm)
  · exact Memory.global?_clearFrom_of_le hle hlt
  · exact of_decide_eq_true (List.mem_filter.1 hslot).2
  · exact hupdates.sound (h.heap_installed _)

end Batch

/-! ### Whole sessions -/

theorem LaidOut.withMapping {s : Session} (h : s.LaidOut) (mapping : GraphMapping) :
    ({ s with mapping } : Session).LaidOut :=
  ⟨⟨h.sound.phase, h.sound.baseline, h.sound.compiled⟩, h.executable, h.room, h.spare, h.modified,
    h.heap⟩

theorem LaidOut.setOptions {s : Session} (h : s.LaidOut) (options : Options) :
    (s.setOptions options).LaidOut :=
  ⟨⟨h.sound.phase, h.sound.baseline, h.sound.compiled⟩, h.executable, h.room, h.spare, h.modified,
    h.heap⟩

/-- `s` is laid out and has all the slots and names of `s₀`. -/
structure LaterThan (s₀ s : Session) : Prop where
  laidOut : s.LaidOut
  program : s₀.compiled.Extends s.compiled
  count : s₀.memory.globalCount ≤ s.memory.globalCount

theorem LaterThan.of_scheduled {s₀ s s' : Session} (h : s₀.LaterThan s) (hs' : s'.LaidOut)
    {entry updates full} (hcompiled : s'.compiled = s.compiled.scheduled entry updates full)
    (hcount : s'.memory.globalCount = s.memory.globalCount) : s₀.LaterThan s' := by
  refine ⟨hs', ?_, hcount ▸ h.count⟩
  rw [hcompiled]
  exact h.program.trans (s.compiled.evolves_scheduled entry updates full h.laidOut.sound.compiled).2

theorem LaterThan.prepared {s₀ s : Session} (h : s₀.LaterThan s) (full : Bool) :
    s₀.LaterThan (s.prepared full) := by
  have hprepared := h.laidOut.prepared full
  rw [prepared_eq] at hprepared ⊢
  exact h.of_scheduled hprepared rfl rfl

theorem LaterThan.count_installed {s₀ s : Session} (h : s₀.LaterThan s) (image : CompiledImage) :
    s₀.memory.globalCount ≤ (s.installed image).memory.globalCount :=
  Nat.le_trans h.count (Nat.le_trans (Nat.le_max_left _ _)
    (Nat.le_of_eq (globalCount_withRoom h.laidOut.sound.baseline image.globalCount).symm))

theorem laterThan_runBatch (s₀ : Session) (f : Fragment) (forced : List Nat) (full : Bool) :
    Keeps s₀.LaterThan (fun _ s => s₀.LaterThan s) (runBatch f forced full) := by
  refine keeps_runBatch f forced full (fun _ h => h.laidOut.sound) (fun _ h => h.prepared full)
    (fun _ _ h => ⟨h.laidOut.withMapping _, h.program, h.count⟩) fun s memory h hnotes hupdates => ?_
  have hcount := h.count_installed (s.compiled.compiled f).image
  refine ⟨⟨h.laidOut.succeeded hnotes hupdates, ?_, ?_⟩,
    fun fault => ⟨h.laidOut.rolledBack hupdates, h.program, ?_⟩⟩
  · exact h.program.trans (evolves_compiled f _ h.laidOut.sound.compiled).2
  · exact Nat.le_trans hcount (Nat.le_of_eq hupdates.size.symm)
  · exact Nat.le_trans hcount (Nat.le_of_eq
      (hupdates.size.symm.trans (memory.globalCount_clearFrom _).symm))

/-- Every request keeps a session laid out with its slots, also if it fails. -/
theorem laterThan_request (s₀ : Session) (r : Request) :
    Keeps s₀.LaterThan (fun _ s => s₀.LaterThan s) r.call :=
  keeps_request (fun _ h => h.of_scheduled h.laidOut.reset rfl rfl)
    (fun _ mapping h => ⟨h.laidOut.withMapping mapping, h.program, h.count⟩)
    (fun _ options h => ⟨h.laidOut.setOptions options, h.program, h.count⟩) (fun _ _ _ h => h)
    (laterThan_runBatch s₀) r

/-- Whatever is asked of a session that is laid out, it stays so and keeps its slots. -/
theorem LaidOut.run {s : Session} (h : s.LaidOut) (later : List Request) :
    s.LaterThan (s.run later) := by
  have hstep : ∀ t, s.LaterThan t → ∀ r : Request, s.LaterThan (t.answer r.call).2 := by
    intro t ht r
    have hr := (laterThan_request s r).answer ht
    rcases ha : t.answer r.call with ⟨e | report, t'⟩ <;> (rw [ha] at hr; exact hr)
  exact run_induction (P := s.LaterThan) ⟨h, .refl _, Nat.le_refl _⟩ hstep later

/-- Every session is laid out at all times. -/
theorem laidOut_run (options : Options) (history : List Request) :
    (({ options } : Session).run history).LaidOut :=
  ((laidOut_fresh options).run history).laidOut

/-! ### The slots of names -/

/-- The installed program has the symbols of the compiled one. -/
theorem LaidOut.globalSymbol? {s : Session} (h : s.LaidOut) (name : String) :
    s.executable.globalSymbol? name = s.compiled.root.symbols.get? name := by
  obtain ⟨entry, updates, full, hx⟩ := h.executable
  rw [hx]
  rfl

theorem LaidOut.slotOf?_eq {s : Session} (h : s.LaidOut) (name : String) :
    s.slotOf? name = s.compiled.root.symbols.indexOf? name := by
  rw [slotOf?, h.globalSymbol?, h.sound.compiled.tabled.indexOf?_eq]

theorem LaidOut.slotOf?_eq_some {s : Session} (h : s.LaidOut) {name : String} {slot : Nat} :
    s.slotOf? name = some slot ↔ ∃ symbol, s.compiled.root.symbols.symbols[slot]? = some symbol ∧
      symbol.name = name := by
  rw [slotOf?, h.globalSymbol?, Option.map_eq_some_iff]
  constructor
  · rintro ⟨symbol, hget, rfl⟩
    exact ⟨symbol, h.sound.compiled.tabled.get?_eq_some.1 hget⟩
  · rintro ⟨symbol, hat, hname⟩
    have hindex := h.sound.compiled.tabled.symbols slot symbol hat
    exact ⟨symbol, h.sound.compiled.tabled.get?_eq_some.2 ⟨hindex ▸ hat, hname⟩, hindex⟩

/-- The value of a name is what its slot shows. -/
theorem query_named (s : Session) (name : String) : s.query (.named name) =
    (s.slotOf? name).bind (s.memory.snapshotAt? s.executable) := by
  change (s.executable.globalSymbol? name).bind _ = _
  rw [slotOf?]
  cases s.executable.globalSymbol? name <;> rfl

/-- A name keeps its slot, and no other name has it. -/
theorem LaterThan.slotOf? {s t : Session} (h : s.LaterThan t) (hs : s.LaidOut) {name : String}
    {slot : Nat} (hslot : s.slotOf? name = some slot) :
    t.slotOf? name = some slot ∧ ∀ other, t.slotOf? other = some slot → other = name := by
  obtain ⟨symbol, hat, hname⟩ := hs.slotOf?_eq_some.1 hslot
  have hlater := getElem?_of_isPrefix h.program.symbols hat
  refine ⟨h.laidOut.slotOf?_eq_some.2 ⟨symbol, hlater, hname⟩, fun other hother => ?_⟩
  obtain ⟨symbol', hat', rfl⟩ := h.laidOut.slotOf?_eq_some.1 hother
  rw [hlater, Option.some.injEq] at hat'
  rw [← hat', hname]

/-- When a compiled program is run, its new names start from null. -/
theorem LaidOut.null_of_new {s : Session} (h : s.LaidOut) (full : Bool) {f : Fragment}
    {diagnostics : List Diagnostic} {image : CompiledImage}
    (hcompile : compile f (s.prepared full).compiled = ⟨diagnostics, some image⟩) {name : String}
    {symbol : Symbol} (hnone : s.slotOf? name = none)
    (hnew : image.executable.globalSymbol? name = some symbol) :
    ((s.prepared full).installed image).memory.global? symbol.index = some .null := by
  obtain rfl := compile_image (congrArg CompileOutcome.image hcompile)
  have hready := h.prepared full
  obtain ⟨ht, hext⟩ := evolves_compiled f _ hready.sound.compiled
  have hold : (s.prepared full).compiled.root.symbols.get? name = none := by
    rw [slotOf?, h.globalSymbol?, Option.map_eq_none_iff] at hnone
    rw [prepared_eq]
    exact hnone
  refine hready.null_installed _ (hext.le_index hready.sound.compiled.tabled ht.tabled hold hnew) ?_
  refine Nat.lt_of_lt_of_le ?_ (hready.sound.allocated _)
  change symbol.index < CompileState.globalCount _
  rw [CompileState.globalCount, ht.tabled.slots]
  exact (List.getElem?_eq_some_iff.1 (ht.tabled.get?_eq_some.1 hnew).1).1

/-- The slots of a session and what becomes of them. The numbers of symbols, of distinct names and of
slots that the program needs are the same, memory has these slots, as many as the session has counted,
and spare ones are null and unchanged. Slots are never taken away, a name keeps its slot and is the only
one to have it, and a name that a batch declares starts from null. -/
theorem slots_run (options : Options) (history : List Request) :
    let s := ({ options } : Session).run history
    let names := s.compiled.root.symbols.symbols.map Symbol.name
    let needed := s.compiled.globalCount
    (s.executable.symbols.head? = some s.compiled.root.symbols ∧ names.length = needed ∧
      s.executable.globalCount = needed ∧ names.dedup.length = needed) ∧
    (s.memory.globalCount = s.baseline ∧ needed ≤ s.memory.globalCount ∧
      ∀ slot, needed ≤ slot → slot ∉ s.memory.modified ∧
        (slot < s.memory.globalCount → s.memory.global? slot = some .null)) ∧
    (∀ later, s.memory.globalCount ≤ (s.run later).memory.globalCount ∧
      ∀ name slot, s.slotOf? name = some slot → (s.run later).slotOf? name = some slot ∧
        ∀ other, (s.run later).slotOf? other = some slot → other = name) ∧
    ∀ f full diagnostics image, compile f (s.prepared full).compiled = ⟨diagnostics, some image⟩ →
      ∀ name symbol, s.slotOf? name = none → image.executable.globalSymbol? name = some symbol →
        ((s.prepared full).installed image).memory.global? symbol.index = some .null := by
  have h := laidOut_run options history
  intro s names needed
  have hnames : names.length = needed :=
    (List.length_map _).trans h.sound.compiled.tabled.slots.symm
  refine ⟨⟨?_, hnames, ?_, ?_⟩, ⟨h.sound.baseline.symm, h.room, fun slot hle => ⟨fun hslot => ?_,
    h.spare slot hle⟩⟩, fun later => ⟨(h.run later).count, fun _ _ => (h.run later).slotOf? h⟩,
    fun f full diagnostics image hcompile name symbol => h.null_of_new full hcompile⟩
  · obtain ⟨entry, updates, full, hx⟩ := h.executable
    rw [hx]
    rfl
  · obtain ⟨entry, updates, full, hx⟩ := h.executable
    rw [hx, (s.compiled.evolves_scheduled entry updates full h.sound.compiled).1.globalCount_executable]
    rfl
  · rw [List.Nodup.dedup h.sound.compiled.tabled.names]
    exact hnames
  · exact Nat.not_lt_of_le hle (h.modified slot hslot)

/-- The session whose only batch stored five in the slot of `b` and then faulted, because `a` would have
had to run a second time. -/
def interrupted : Session :=
  ({ options := { interpreterMode := true, maxPasses := 1 } } : Session).run
    [.updateCode "a = b; b = 5;"]

/-- The slot of `b` is spare and holds null, and so does `y` when it is given that slot. -/
theorem slots_run_interrupted : interrupted.memory.global? 1 = some .null ∧
    ∃ diagnostics image symbol,
      compile (.ofCode "x = 1; y = 2;") (interrupted.prepared false).compiled =
        ⟨diagnostics, some image⟩ ∧
      image.executable.globalSymbol? "y" = some symbol ∧ symbol.index = 1 ∧
      ((interrupted.prepared false).installed image).memory.global? symbol.index =
        some .null := by
  obtain ⟨-, ⟨-, -, hspare⟩, -, hnew⟩ :=
    slots_run { interpreterMode := true, maxPasses := 1 } [.updateCode "a = b; b = 5;"]
  refine ⟨(hspare 1 (by decide +kernel)).2 (by decide +kernel), ?_⟩
  have hok : (compile (.ofCode "x = 1; y = 2;") (interrupted.prepared false).compiled).image.isSome =
      true := by decide +kernel
  have hy : ((interrupted.prepared false).compiled.compiled
      (.ofCode "x = 1; y = 2;")).root.symbols.get? "y" = some { name := "y", index := 1 } := by
    decide +kernel
  rcases hcompile : compile (.ofCode "x = 1; y = 2;") (interrupted.prepared false).compiled with
    ⟨diagnostics, _ | image⟩
  · rw [hcompile] at hok
    cases hok
  · have hsymbol : image.executable.globalSymbol? "y" = some { name := "y", index := 1 } := by
      rw [compile_image (congrArg CompileOutcome.image hcompile)]
      exact hy
    exact ⟨diagnostics, image, _, rfl, hsymbol, rfl,
      hnew _ _ _ _ hcompile "y" _ (by decide +kernel) hsymbol⟩

end Session

end Reflow
