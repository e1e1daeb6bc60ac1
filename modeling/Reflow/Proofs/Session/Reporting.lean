import Mathlib.Data.List.Sort
import Reflow.Proofs.Session.Comparison
import Reflow.Proofs.Session.Freshness
/-!
# What a report does not mention has not changed

A report lists the variables that a batch has changed. As long as no run has faulted, every other variable
has the value that it had before, although the heap has lost cells and its free cells have been given to new
objects, and although the program has other code, more symbols and more function pointers than before. A
variable that is new and is not listed is null. The list has each name once, in the order of the slots.

The value of a variable is compared in full, by what its pointers lead to. It stays what it is while a run only
adds objects to the heap, and since the memory that the run leaves has a datum for each of its slots, a
collection keeps it.

## Main definitions

* `Session.names`: the names of a session, in the order of their slots.
* `Session.Fitted`: memory has no spare slots.
* `Session.Tells`: what a list of names tells of a change.

## Main results

* `Session.fitted_run`: as long as no run faults, memory has no spare slots.
* `Settled.snapshotAt?_succeeded`: a slot that a run has not noted shows the same before and after.
* `Session.unreported`: what a report does not mention has not changed.
-/

namespace Reflow

/-- What stands at ascending places of a list stands there in the order of the list. -/
theorem filterMap_getElem?_sublist {α : Type} (l : List α) {places : List Nat}
    (h : Keyed.Sorted id places) : (places.filterMap (l[·]?)).Sublist l := by
  suffices hfrom : ∀ base (places : List Nat), Keyed.Sorted id places → (∀ i ∈ places, base ≤ i) →
      (places.filterMap fun i => l[i - base]?).Sublist l from
    hfrom 0 places h fun i _ => Nat.zero_le i
  clear h places
  induction l with
  | nil => simp
  | cons a l ih =>
    intro base places hsorted hbase
    -- the places beyond the first one are those of the rest of the list
    have hrest : ∀ rest : List Nat, Keyed.Sorted id rest → (∀ i ∈ rest, base + 1 ≤ i) →
        (rest.filterMap fun i => (a :: l)[i - base]?).Sublist l := by
      intro rest hrest hbelow
      refine (List.filterMap_congr fun i hi => ?_) ▸ ih (base + 1) rest hrest hbelow
      have := hbelow i hi
      rw [show i - base = i - (base + 1) + 1 by omega, List.getElem?_cons_succ]
    cases places with
    | nil => exact List.nil_sublist _
    | cons i rest =>
      obtain ⟨hlt, hsorted'⟩ := List.pairwise_cons.1 hsorted
      have hi := hbase i List.mem_cons_self
      by_cases heq : i = base
      · subst heq
        have hhere : (a :: l)[i - i]? = some a := by rw [Nat.sub_self, List.getElem?_cons_zero]
        rw [List.filterMap_cons_some (f := fun j => (a :: l)[j - i]?) hhere]
        exact (hrest rest hsorted' fun j hj => hlt j hj).cons_cons a
      · refine (hrest (i :: rest) hsorted fun j hj => ?_).cons a
        have := hbase j hj
        rcases List.mem_cons.1 hj with rfl | hj
        · omega
        · have : i < j := hlt j hj
          omega

namespace Session

/-! ### Names -/

/-- The names that a session knows, in the order of their slots. -/
def names (s : Session) : List String :=
  (s.executable.symbols.head?.map fun table => table.symbols.map Symbol.name).getD []

variable {s : Session}

theorem LaidOut.names_eq (h : s.LaidOut) :
    s.names = s.compiled.root.symbols.symbols.map Symbol.name := by
  obtain ⟨entry, updates, full, hx⟩ := h.executable
  rw [names, hx]
  rfl

theorem LaidOut.nodup_names (h : s.LaidOut) : s.names.Nodup := by
  rw [h.names_eq]
  exact h.sound.compiled.tabled.names

theorem LaidOut.length_names (h : s.LaidOut) : s.names.length = s.compiled.globalCount := by
  rw [h.names_eq, List.length_map]
  exact h.sound.compiled.tabled.slots.symm

/-- The place of a name is its slot. -/
theorem LaidOut.getElem?_names (h : s.LaidOut) {name : String} {slot : Nat} :
    s.names[slot]? = some name ↔ s.slotOf? name = some slot := by
  rw [h.slotOf?_eq_some, h.names_eq, List.getElem?_map, Option.map_eq_some_iff]

/-- The listed names are those of the slots that have changed. -/
theorem modifiedSymbols_report (s : Session) (warnings : List String) (executed : Nat) :
    (s.report warnings executed).modifiedSymbols = s.memory.modified.filterMap (s.names[·]?) := by
  refine List.filterMap_congr fun slot _ => ?_
  rw [Executable.globalSymbolAt?, names]
  cases s.executable.symbols.head? with
  | none => rfl
  | some table => exact (List.getElem?_map ..).symm

/-- A session has values for the names that it knows, and for no others. -/
theorem LaidOut.isSome_query (h : s.LaidOut) (name : String) :
    (s.query (.named name)).isSome ↔ name ∈ s.names := by
  rw [query_named]
  constructor
  · intro hsome
    obtain ⟨shown, hshown⟩ := Option.isSome_iff_exists.1 hsome
    obtain ⟨slot, hslot, -⟩ := Option.bind_eq_some_iff.1 hshown
    exact List.mem_of_getElem? (h.getElem?_names.2 hslot)
  · intro hname
    obtain ⟨slot, hslot⟩ := List.mem_iff_getElem?.1 hname
    have hlt : slot < s.memory.globalCount :=
      Nat.lt_of_lt_of_le (List.getElem?_eq_some_iff.1 hslot).1 (h.length_names.trans_le h.room)
    rw [h.getElem?_names.1 hslot, Option.bind_some, Memory.snapshotAt?, Option.isSome_map]
    exact Option.isSome_iff_exists.2 ⟨_, Array.getElem?_eq_getElem hlt⟩

/-! ### Slots without a spare -/

/-- The session is laid out, and memory has the slots of the program and no others. -/
structure Fitted (s : Session) : Prop where
  laidOut : s.LaidOut
  count : s.memory.globalCount = s.compiled.globalCount

theorem Fitted.prepared (h : s.Fitted) (full : Bool) : (s.prepared full).Fitted := by
  refine ⟨h.laidOut.prepared full, ?_⟩
  rw [prepared_eq]
  exact h.count

/-- A run gets as many slots as its program needs. -/
theorem Fitted.succeeded (h : s.Fitted) {f : Fragment} {memory : Memory}
    (hnotes : s.memory.modified = [])
    (hupdates : (s.installed (s.compiled.compiled f).image).memory.Updates
      (s.compiled.compiled f).globalCount memory) :
    ((s.installed (s.compiled.compiled f).image).succeeded memory).Fitted := by
  refine ⟨h.laidOut.succeeded hnotes hupdates, hupdates.size.trans ?_⟩
  have hslots := (evolves_compiled f _ h.laidOut.sound.compiled).2.slots
  exact (globalCount_withRoom h.laidOut.sound.baseline _).trans
    (Nat.max_eq_right (h.count.trans_le hslots))

theorem fitted_request (r : Request) :
    Keeps Fitted (fun e s => (∃ fault, e = .execute fault) ∨ s.Fitted) r.call :=
  keeps_request (fun _ h => ⟨h.laidOut.reset, h.count⟩)
    (fun _ mapping h => ⟨h.laidOut.withMapping mapping, h.count⟩)
    (fun _ options h => ⟨h.laidOut.setOptions options, h.count⟩) (fun _ _ _ h => .inr h)
    (fun f forced full => keeps_runBatch f forced full (fun _ h => h.laidOut.sound)
      (fun _ h => h.prepared full) (fun _ _ h => .inr ⟨h.laidOut.withMapping _, h.count⟩)
      fun _ _ h hnotes hupdates => ⟨h.succeeded hnotes hupdates, fun fault => .inl ⟨fault, rfl⟩⟩) r

/-- As long as no run faults, memory has no spare slots. -/
theorem fitted_run (options : Options) {history : List Request}
    (h : ({ options } : Session).Unfaulted history) :
    (({ options } : Session).run history).Fitted :=
  h.keeps fitted_request ⟨laidOut_fresh options, rfl⟩

end Session

/-! ### What is not noted -/

namespace Memory

variable {names : Nat → Option String} {m m' : Memory} {slots slots' : List Datum} {slot : Nat}

/-- A slot that is not noted keeps its datum. -/
theorem Updates.getElem?_eq {limit : Nat} (h : m.Updates limit m') (hm : m.Shows names slots)
    (hm' : m'.Shows names slots') (hslot : slot ∉ m'.modified) : slots'[slot]? = slots[slot]? := by
  have hkept : m'.globals[slot]? = m.globals[slot]? := h.kept slot hslot
  have hlength : m.globals.size = slots.length := hm.held.length_eq
  have hlength' : m'.globals.size = slots'.length := hm'.held.length_eq
  cases hv : m.globals[slot]? with
  | none =>
    rw [hv] at hkept
    rw [List.getElem?_eq_none (hlength ▸ Array.getElem?_eq_none_iff.1 hv : slots.length ≤ slot),
      List.getElem?_eq_none (hlength' ▸ Array.getElem?_eq_none_iff.1 hkept)]
  | some v =>
    obtain ⟨d, hd, hheld⟩ := hm.held.getElem? (Array.getElem?_toList.trans hv)
    obtain ⟨d', hd', hheld'⟩ := hm'.held.getElem? (Array.getElem?_toList.trans (hkept.trans hv))
    rw [hd, hd', hheld'.unique (hheld.extends (h.heap hm.sound))]

end Memory

namespace Session

variable {s : Session} {f : Fragment} {forced : List Nat} {run : Execution} {memory : Memory}

/-- A slot that a run has not noted shows after the collection what it showed before the run, or null
if it is new. -/
theorem Settled.snapshotAt?_succeeded (h : s.Settled)
    (hr : execute (s.compiled.compiled f).image.executable
      (s.installed (s.compiled.compiled f).image).memory
      ((s.installed (s.compiled.compiled f).image).settings forced
        (s.compiled.compiled f).image) = (.ok run, memory)) {slot : Nat}
    (hslot : slot ∉ memory.modified) :
    (slot < s.memory.globalCount →
      memory.collect.2.snapshotAt? (s.compiled.compiled f).image.executable slot =
        s.memory.snapshotAt? s.executable slot) ∧
    (s.memory.globalCount ≤ slot → slot < memory.globalCount →
      memory.collect.2.snapshotAt? (s.compiled.compiled f).image.executable slot =
        some .null) := by
  obtain ⟨ht, hext⟩ := evolves_compiled f _ h.sound.compiled
  have hupdates := h.sound.updates f forced
  dsimp only at hupdates
  rw [hr] at hupdates
  obtain ⟨slots, hsteady⟩ := h.steady
  have hlength : s.memory.globals.size = slots.length := hsteady.shows.held.length_eq
  -- the data before the run, under the names of the program that is run
  have hstart := (shows_withRoom hsteady.shows h.sound.baseline
    (s.compiled.compiled f).globalCount).mono fun _ _ =>
      h.sound.compiled.pointerName?_extends hext
  obtain ⟨_, hinstalled⟩ := h.steady_installed f
    ((s.installed (s.compiled.compiled f).image).settings forced (s.compiled.compiled f).image)
  obtain ⟨slots', hend⟩ := ht.execute_steady rfl hinstalled hr
  have hshown : memory.collect.2.snapshotAt? (s.compiled.compiled f).image.executable slot =
      (slots ++ List.replicate ((s.compiled.compiled f).globalCount - slots.length) .null)[slot]?.map
        Datum.snapshot := by
    rw [← hupdates.getElem?_eq hstart hend.shows hslot]
    exact hend.shows.collect.snapshotAt?_eq (Executable.names_pointerName? _) slot
  refine ⟨fun hlt => ?_, fun hle hlt => ?_⟩
  · obtain ⟨entry, updates, full, hx⟩ := h.executable
    rw [hshown, List.getElem?_append_left (hlength ▸ hlt), hx]
    have hshows := (hsteady.scheduled h.sound.compiled entry updates full).shows
    exact (hshows.snapshotAt?_eq (Executable.names_pointerName? _) slot).symm
  · have hcount : memory.globalCount = _ := hupdates.size
    have hroom : memory.globalCount = max s.memory.globalCount (s.compiled.compiled f).globalCount :=
      hcount.trans (globalCount_withRoom h.sound.baseline _)
    have hnew : slot - slots.length < (s.compiled.compiled f).globalCount - slots.length := by
      change s.memory.globals.size ≤ slot at hle
      change _ = max s.memory.globals.size _ at hroom
      omega
    rw [hshown, List.getElem?_append_right (hlength ▸ hle), List.getElem?_replicate, if_pos hnew]
    rfl

/-- What an answer tells of the change from `s` to `s'`, if it lists the names in `listed`. -/
structure Tells (s : Session) (listed : List String) (s' : Session) : Prop where
  /-- What is known before and not listed has not changed. -/
  kept : ∀ name ∈ s.names, name ∉ listed → s'.query (.named name) = s.query (.named name)
  /-- What is new and not listed is null. -/
  fresh : ∀ name ∈ s'.names, name ∉ s.names → name ∉ listed → s'.query (.named name) = some .null
  /-- What is listed is known, and it is listed in the order of the slots. -/
  order : listed.Sublist s'.names

/-- What a session shows under its names depends on the program and on what memory holds only. -/
theorem shown_congr {s s' : Session} (hexecutable : s'.executable = s.executable)
    (hheap : s'.memory.heap = s.memory.heap) (hglobals : s'.memory.globals = s.memory.globals) :
    s'.names = s.names ∧ ∀ name, s'.query (.named name) = s.query (.named name) := by
  refine ⟨by rw [names, names, hexecutable], fun name => ?_⟩
  rw [query_named, query_named, slotOf?, slotOf?, hexecutable,
    Memory.snapshotAt?_congr hheap hglobals]

/-- An answer that lists nothing is right if program and memory stay as they are. -/
theorem Tells.of_same {s s' : Session} (hexecutable : s'.executable = s.executable)
    (hheap : s'.memory.heap = s.memory.heap) (hglobals : s'.memory.globals = s.memory.globals) :
    s.Tells [] s' := by
  obtain ⟨hnames, hquery⟩ := shown_congr hexecutable hheap hglobals
  exact ⟨fun name _ _ => hquery name, fun name hname hnew => absurd (hnames ▸ hname) hnew,
    List.nil_sublist _⟩

/-- What a run has noted is what its report has to list. -/
theorem Fitted.tells_succeeded (h : s.Fitted) (hsettled : s.Settled)
    (hnotes : s.memory.modified = [])
    (hr : execute (s.compiled.compiled f).image.executable
      (s.installed (s.compiled.compiled f).image).memory
      ((s.installed (s.compiled.compiled f).image).settings forced
        (s.compiled.compiled f).image) = (.ok run, memory)) :
    let s' := (s.installed (s.compiled.compiled f).image).succeeded memory
    s.Tells (memory.modified.filterMap (s'.names[·]?)) s' := by
  intro s'
  have hupdates := h.laidOut.sound.updates f forced
  dsimp only at hupdates
  rw [hr] at hupdates
  have hfitted : s'.Fitted := h.succeeded hnotes hupdates
  have hlater : s.LaterThan s' := ⟨hfitted.laidOut, (evolves_compiled f _ h.laidOut.sound.compiled).2,
    Nat.le_trans ((Nat.le_max_left _ _).trans_eq
      (globalCount_withRoom h.laidOut.sound.baseline _).symm) hupdates.size.ge⟩
  -- a name that is not listed has a slot that is not noted
  have hunnoted : ∀ name slot, s'.slotOf? name = some slot →
      name ∉ memory.modified.filterMap (s'.names[·]?) → slot ∉ memory.modified :=
    fun name slot hslot hlisted hnoted =>
      hlisted (List.mem_filterMap.2 ⟨slot, hnoted, hfitted.laidOut.getElem?_names.2 hslot⟩)
  refine ⟨fun name hname hlisted => ?_, fun name hname hnew hlisted => ?_,
    filterMap_getElem?_sublist _ (hupdates.ascending ?_)⟩
  · obtain ⟨slot, hplace⟩ := List.mem_iff_getElem?.1 hname
    have hlt : slot < s.memory.globalCount := by
      rw [h.count, ← h.laidOut.length_names]
      exact (List.getElem?_eq_some_iff.1 hplace).1
    have hslot := h.laidOut.getElem?_names.1 hplace
    have hslot' := (hlater.slotOf? h.laidOut hslot).1
    rw [query_named, query_named, hslot, hslot']
    exact (hsettled.snapshotAt?_succeeded hr (hunnoted name slot hslot' hlisted)).1 hlt
  · obtain ⟨slot, hplace⟩ := List.mem_iff_getElem?.1 hname
    have hslot := hfitted.laidOut.getElem?_names.1 hplace
    have hlt : slot < memory.globalCount := by
      have := (List.getElem?_eq_some_iff.1 hplace).1
      rw [hfitted.laidOut.length_names, ← hfitted.count] at this
      exact this
    have hle : s.memory.globalCount ≤ slot := by
      refine Nat.le_of_not_lt fun hold => hnew ?_
      rw [h.count, ← h.laidOut.length_names] at hold
      have hother := hlater.slotOf? h.laidOut
        (h.laidOut.getElem?_names.1 (List.getElem?_eq_getElem hold))
      rw [hother.2 name hslot]
      exact List.getElem_mem hold
    rw [query_named, hslot]
    exact (hsettled.snapshotAt?_succeeded hr (hunnoted name slot hslot hlisted)).2 hle hlt
  · change Keyed.Sorted id (s.withRoom _).memory.modified
    rw [modified_withRoom, hnotes]
    exact List.Pairwise.nil

/-- A successful answer to any request lists what has changed. -/
theorem Fitted.tells (h : s.Fitted) (hsettled : s.Settled) {request : Request}
    {answer : Option Report} {s' : Session} (ha : s.answer request.call = (.ok answer, s')) :
    s.Tells ((answer.map Report.modifiedSymbols).getD []) s' := by
  obtain ⟨-, rfl, rfl⟩ | ⟨options, -, rfl, rfl⟩ | ⟨mapping, f, forced, full, run, memory, warnings, -, hr,
    hs', rfl⟩ := answer_ok_cases h.laidOut.sound ha
  · exact .of_same rfl rfl rfl
  · exact .of_same rfl rfl rfl
  · have hready : (({ s with mapping } : Session).prepared full).Fitted :=
      Fitted.prepared ⟨h.laidOut.withMapping mapping, h.count⟩ full
    have htells := hready.tells_succeeded ((hsettled.withMapping mapping).prepared full)
      (by rw [prepared_eq]; rfl) hr
    -- what is known when the run starts is what was known before
    obtain ⟨hnames, hquery⟩ : (({ s with mapping } : Session).prepared full).names = s.names ∧
        ∀ name, (({ s with mapping } : Session).prepared full).query (.named name) =
          s.query (.named name) := by
      rw [prepared_eq]
      exact shown_congr rfl rfl rfl
    rw [Option.map_some, Option.getD_some, modifiedSymbols_report, hs']
    exact ⟨fun name hname hlisted => (htells.kept name (hnames ▸ hname) hlisted).trans (hquery name),
      fun name hname hnew => htells.fresh name hname (hnames ▸ hnew), htells.order⟩

/-- A report has the number of slots. -/
theorem Sound.globalCount_report (h : s.Sound) {request : Request} {report : Report} {s' : Session}
    (ha : s.answer request.call = (.ok (some report), s')) :
    report.globalCount = s'.memory.globalCount := by
  obtain ⟨-, hreport, rfl⟩ | ⟨-, -, hnone, -⟩ | ⟨-, -, -, -, run, -, warnings, -, -, -, hreport⟩ :=
    answer_ok_cases h ha
  · rw [Option.some.inj hreport]
    rfl
  · cases hnone
  · rw [Option.some.inj hreport]
    rfl

/-- What a report does not mention has not changed. As long as no run faults, whatever succeeds lists all
names that were known before and have another value, and all names that are new and are not null; it lists
each name once, in the order of the slots, and a report has the number of all names. The names of a session
are those that have a value, and the place of a name is its slot. -/
theorem unreported (options : Options) (history : List Request)
    (hrun : ({ options } : Session).Unfaulted history) (request : Request) (answer : Option Report)
    (s' : Session)
    (ha : (({ options } : Session).run history).answer request.call = (.ok answer, s')) :
    let s := ({ options } : Session).run history
    let listed := (answer.map Report.modifiedSymbols).getD []
    (∀ name ∈ s.names, name ∉ listed → s'.query (.named name) = s.query (.named name)) ∧
    (∀ name ∈ s'.names, name ∉ s.names → name ∉ listed → s'.query (.named name) = some .null) ∧
    (listed.Nodup ∧ listed.Sublist s'.names) ∧
    (s'.names.Nodup ∧ (∀ name slot, s'.names[slot]? = some name ↔ s'.slotOf? name = some slot) ∧
      ∀ name, name ∈ s'.names ↔ (s'.query (.named name)).isSome) ∧
    ∀ report, answer = some report → report.globalCount = s'.names.length := by
  intro s listed
  have hfitted : s.Fitted := fitted_run options hrun
  have hfitted' : s'.Fitted := by
    have hkeeps := (fitted_request request).answer hfitted
    rw [ha] at hkeeps
    exact hkeeps
  obtain ⟨hkept, hfresh, horder⟩ := hfitted.tells (settled_run options hrun) ha
  refine ⟨hkept, hfresh, ⟨hfitted'.laidOut.nodup_names.sublist horder, horder⟩,
    ⟨hfitted'.laidOut.nodup_names, fun _ _ => hfitted'.laidOut.getElem?_names,
      fun name => (hfitted'.laidOut.isSome_query name).symm⟩, ?_⟩
  rintro report rfl
  rw [hfitted.laidOut.sound.globalCount_report ha, hfitted'.laidOut.length_names, hfitted'.count]

/-- The session in which the array `b` holds the string of `a`, and `c` a string of its own. -/
def stocked : Session :=
  ({ options := { interpreterMode := true } } : Session).run
    [.updateCode "a = \"one\"; b = \x7b a, 2 \x7d; c = \"two\";"]

/-- A batch that gives `c` another value lists `c` only: `b` has not changed, and `z`, which is new and has
never been assigned, is null. -/
theorem unreported_stocked : ∃ report s',
    stocked.answer (Request.updateCode "c = \x7b a, z \x7d;").call = (.ok (some report), s') ∧
      report.modifiedSymbols = ["c"] ∧ s'.query (.named "b") = stocked.query (.named "b") ∧
      s'.query (.named "z") = some .null := by
  have hrun : ({ options := { interpreterMode := true } } : Session).Unfaulted
      [.updateCode "a = \"one\"; b = \x7b a, 2 \x7d; c = \"two\";"] :=
    unfaulted_cons (by decide +kernel) trivial
  have hlisted : (stocked.answer (Request.updateCode "c = \x7b a, z \x7d;").call).1.toOption.map
      (Option.map Report.modifiedSymbols) = some (some ["c"]) := by decide +kernel
  have hnew : "z" ∈ (stocked.answer (Request.updateCode "c = \x7b a, z \x7d;").call).2.names := by
    decide +kernel
  rcases ha : stocked.answer (Request.updateCode "c = \x7b a, z \x7d;").call with
    ⟨e | _ | report, s'⟩
  · rw [ha] at hlisted
    cases hlisted
  · rw [ha] at hlisted
    cases hlisted
  · rw [ha] at hlisted hnew
    have hmodified : report.modifiedSymbols = ["c"] := Option.some.inj (Option.some.inj hlisted)
    obtain ⟨hkept, hfresh, -⟩ := unreported _ _ hrun _ _ _ ha
    rw [Option.map_some, Option.getD_some, hmodified] at hkept hfresh
    exact ⟨report, s', rfl, hmodified, hkept "b" (by decide +kernel) (by decide +kernel),
      hfresh "z" hnew (by decide +kernel) (by decide +kernel)⟩

end Session

end Reflow
