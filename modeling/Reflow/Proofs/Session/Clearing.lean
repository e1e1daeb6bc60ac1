import Reflow.Proofs.Session.Definers
/-!
# Variables that nothing assigns

A variable that no live subtree assigns holds null, unless a function displaced it. The batch that takes
away the last subtree with the name of the variable sets it to null. If another subtree still binds the
name, which it can only do for a function, then nothing sets the variable to null, and it keeps its value
for as long as no subtree assigns it, also when the function is gone.

## Main definitions

* `Account.Free`: the variables that no live subtree assigns and no function displaced.
* `Session.Voids`: the free variables of a session are blank.

## Main results

* `Account.Coherent.free_of_after`: how a variable becomes free.
* `Session.Enrolled.voids_outcome`: a batch sets to null what it frees.
* `Session.null_of_unassigned`: which variables hold null, and what the others hold.
-/

namespace Reflow

/-! ### The names of an account -/

/-- A subtree takes over the cleared variables that it assigns. -/
theorem Roster.cleared_entered (r : Roster) (t : Subtree) (name : String) :
    (r.entered t).cleared name = (r.cleared name && !t.assigns name) := by
  rw [entered, Subtree.assigns]
  induction t.statements generalizing r with
  | nil => simp
  | cons s rest ih =>
    rw [List.foldl_cons, ih]
    cases s with
    | assign target value =>
      obtain rfl | hname := eq_or_ne target name
      · simp [enter, Statement.assigned?]
      · simp [enter, Statement.assigned?, hname.symm, beq_eq_false_iff_ne.2 hname]
    | define function params body => simp [enter, Statement.assigned?]

/-- The variables that are cleared after a batch. -/
theorem Roster.cleared_after_iff {r : Roster} {b : Batch} {live : List Subtree} {name : String} :
    (r.after b live).cleared name = true ↔
      (r.cleared name = true ∨ b.orphaned live name = true) ∧
        ∀ t ∈ b.modified ++ b.added, t.assigns name = false := by
  have hentered : ∀ (brought : List Subtree) (r : Roster), (brought.foldl entered r).cleared name = true ↔
      r.cleared name = true ∧ ∀ t ∈ brought, t.assigns name = false := by
    intro brought
    induction brought with
    | nil => simp
    | cons t rest ih => simp [ih, Roster.cleared_entered, and_assoc]
  rw [after, hentered, Bool.or_eq_true]

/-- A subtree that assigns a variable binds its name. -/
theorem Subtree.mem_boundNames_of_assigns {t : Subtree} {name : String} (h : t.assigns name = true) :
    name ∈ t.boundNames := by
  obtain ⟨s, hs, hassigned⟩ := List.mem_map.1 (assigns_iff.1 h)
  refine List.mem_map.2 ⟨s, hs, ?_⟩
  cases s with
  | assign target value => exact Option.some.inj hassigned
  | define function params body => cases hassigned

namespace Account

/-- Some live subtree assigns the variable. -/
def Assigns (a : Account) (name : String) : Prop := ∃ t ∈ a.live, t.assigns name = true

/-- No live subtree assigns the variable, and no function displaced it. -/
def Free (a : Account) (name : String) : Prop := ¬ a.Assigns name ∧ a.displaced name = false

/-- No live subtree assigns a cleared or displaced variable, and no variable is both. -/
structure Coherent (a : Account) : Prop where
  cleared : ∀ name, a.roster.cleared name = true → ¬ a.Assigns name
  displaced : ∀ name, a.displaced name = true → ¬ a.Assigns name ∧ a.roster.cleared name = false

variable {a : Account} {b : Batch} {name : String}

theorem coherent_fresh : ({} : Account).Coherent := ⟨fun _ h => (by cases h), fun _ h => (by cases h)⟩

/-- A subtree that a batch touches assigned the variable. -/
theorem drops_iff : b.drops a.live name = true ↔
    ∃ t ∈ a.live, b.contains t.id = true ∧ t.assigns name = true := by
  simp [Batch.drops]

theorem Assigns.of_drops (h : b.drops a.live name = true) : a.Assigns name := by
  obtain ⟨t, ht, -, hname⟩ := drops_iff.1 h
  exact ⟨t, ht, hname⟩

/-- A batch after which no subtree assigns a variable has touched all that did. -/
theorem Assigns.drops (h : a.Assigns name) (hafter : ¬ (a.after (.updateGraph b)).Assigns name) :
    b.drops a.live name = true := by
  obtain ⟨t, ht, hname⟩ := h
  refine drops_iff.2 ⟨t, ht, by_contra fun hkept => hafter ⟨t, ?_, hname⟩, hname⟩
  exact Batch.mem_applied.2 (.inl ⟨ht, by simpa using hkept⟩)

/-- What is orphaned was assigned, and nothing binds it any more. -/
theorem orphaned_iff : b.orphaned a.live name = true ↔ b.drops a.live name = true ∧
    Subtree.anyBinds (a.after (.updateGraph b)).live name = false := by
  simp [Batch.orphaned, Account.after]

theorem Assigns.anyBinds (h : a.Assigns name) : Subtree.anyBinds a.live name = true := by
  obtain ⟨t, ht, hname⟩ := h
  exact List.any_eq_true.2 ⟨t, ht, decide_eq_true (Subtree.mem_boundNames_of_assigns hname)⟩

theorem displaced_after_iff : (a.after (.updateGraph b)).displaced name = true ↔
    ¬ (a.after (.updateGraph b)).Assigns name ∧ (a.displaced name = true ∨
      b.drops a.live name = true ∧ Subtree.anyBinds (a.after (.updateGraph b)).live name = true) := by
  simp [Account.after, Assigns]

/-- A request keeps an account coherent. -/
theorem Coherent.after (h : a.Coherent) (r : Request) : (a.after r).Coherent := by
  cases r with
  | updateGraph b =>
    refine ⟨fun name hname hassigns => ?_, fun name hname => ?_⟩
    · obtain ⟨hcleared | horphaned, hnew⟩ := Roster.cleared_after_iff.1 hname
      · obtain ⟨t, ht, hassigns⟩ := hassigns
        rcases Batch.mem_applied.1 ht with ⟨ht, -⟩ | ht
        · exact h.cleared name hcleared ⟨t, ht, hassigns⟩
        · exact Bool.eq_false_iff.1 (hnew t ht) hassigns
      · exact Bool.eq_false_iff.1 (orphaned_iff.1 horphaned).2 hassigns.anyBinds
    · obtain ⟨hassigns, hname⟩ := displaced_after_iff.1 hname
      refine ⟨hassigns, Bool.eq_false_iff.2 fun hcleared => ?_⟩
      obtain ⟨hcleared | horphaned, -⟩ := Roster.cleared_after_iff.1 hcleared
      · rcases hname with hdisplaced | ⟨hdrops, -⟩
        · exact Bool.eq_false_iff.1 (h.displaced name hdisplaced).2 hcleared
        · exact h.cleared name hcleared (.of_drops hdrops)
      · obtain ⟨hdrops, hnone⟩ := orphaned_iff.1 horphaned
        rcases hname with hdisplaced | ⟨-, hbinds⟩
        · exact (h.displaced name hdisplaced).1 (.of_drops hdrops)
        · exact Bool.eq_false_iff.1 hnone hbinds
  | _ => exact h

/-- A variable is free after a request if it was free before, or if the request clears it. -/
theorem Coherent.free_of_after (h : a.Coherent) {r : Request} (hfree : (a.after r).Free name) :
    a.Free name ∨ a.roster.cleared name = false ∧ (a.after r).roster.cleared name = true := by
  cases r with
  | updateGraph b =>
    obtain ⟨hassigns, hdisplaced⟩ := hfree
    have hnot := mt displaced_after_iff.2 (Bool.eq_false_iff.1 hdisplaced)
    by_cases hold : a.Assigns name
    · have hdrops := hold.drops hassigns
      have hbinds := Bool.eq_false_iff.2 fun hbinds => hnot ⟨hassigns, .inr ⟨hdrops, hbinds⟩⟩
      refine .inr ⟨Bool.eq_false_iff.2 fun hcleared => h.cleared name hcleared hold, ?_⟩
      refine Roster.cleared_after_iff.2 ⟨.inr (orphaned_iff.2 ⟨hdrops, hbinds⟩), fun t ht => ?_⟩
      exact Bool.eq_false_iff.2 fun hname => hassigns ⟨t, Batch.mem_applied.2 (.inr ht), hname⟩
    · exact .inl ⟨hold, Bool.eq_false_iff.2 fun hname => hnot ⟨hassigns, .inl hname⟩⟩
  | _ => exact .inl hfree

end Account

/-! ### The program of a session -/

namespace CompileState

variable {s : CompileState} {r r' : Roster} {name : String}

/-- Cleared variables are those that active statements without a subtree set to null. -/
theorem Enrols.cleared_iff (h : s.Enrols r) : r.cleared name = true ↔
    ∃ n ∈ s.graph.nodes, n.isActive = true ∧ n.owner = none ∧ s.Clears n name := by
  refine ⟨h.complete name, fun ⟨n, hn, hon, howner, hclears⟩ => ?_⟩
  obtain ⟨name', hname, hclears'⟩ := h.sound n hn hon howner
  exact hclears.stores.unique hclears'.stores ▸ hname

/-- The active statements of a variable that no subtree assigns set it to null, and there are none unless
the variable is cleared. -/
theorem Enrols.assigns_null (h : s.Enrols r) {L : Ledger} (hL : s.Mirrors L)
    (hnone : ∀ id, name ∉ (L id).filterMap Statement.assigned?) {slot : Nat}
    (hslot : s.root.symbols.indexOf? name = some slot) {n : GraphNode} (hn : n ∈ s.graph.nodes)
    (hon : n.isActive = true) (hdefines : n.defines = some (.global slot)) :
    r.cleared name = true ∧ ∃ σ, s.Assigns n slot σ .null := by
  have hstores : s.Stores n name := ⟨slot, hslot, hdefines⟩
  cases howner : n.owner with
  | none =>
    obtain ⟨name', hname, hclears⟩ := h.sound n hn hon howner
    obtain rfl := hstores.unique hclears.stores
    obtain ⟨slot', σ, hslot', hassigns⟩ := hclears
    obtain rfl := Option.some.inj (hslot'.symm.trans hslot)
    exact ⟨hname, σ, hassigns⟩
  | some id =>
    have hmem := DependencyGraph.mem_nodesOwnedBy.2 ⟨hn, hon, howner⟩
    exact absurd (hL.exists_stores.1 ⟨n, hmem, hstores⟩) (hnone id)

/-- A variable that a compilation has cleared is set to null by the next run. -/
theorem Sound.awaits_of_cleared (hs : s.Sound) (h : s.Enrols r) {f : Fragment}
    (h' : (s.compiled f).Enrols r') (hold : r.cleared name = false) (hnew : r'.cleared name = true)
    (ctx : RunContext) {slot : Nat} (hslot : (s.compiled f).root.symbols.indexOf? name = some slot) :
    (s.compiled f).Awaits (initialWorklist (s.compiled f).root.stream ctx) slot := by
  obtain ⟨n, hn, hon, howner, hclears⟩ := h'.cleared_iff.1 hnew
  obtain ⟨slot', σ, hslot', hassigns⟩ := id hclears
  obtain rfl := Option.some.inj (hslot'.symm.trans hslot)
  refine ⟨n, hn, hon, hassigns.defines, ?_⟩
  -- the statement was not there before, when the variable was not cleared
  refine (hs.mem_or_mem_initialWorklist f ctx hn hon).resolve_left fun hn => ?_
  obtain ⟨name', hname, hclears'⟩ := h.sound n hn hon howner
  have hlater := hclears'.extends (evolves_compiled f s hs).2
  rw [hclears.stores.unique hlater.stores, hold] at hname
  cases hname

end CompileState

/-- No live subtree has a statement that assigns a variable which none of them assigns. -/
theorem Account.notMem_ofLive {a : Account} {name : String} (h : ¬ a.Assigns name) (id : SubtreeId) :
    name ∉ (Ledger.ofLive a.live id).filterMap Statement.assigned? := by
  intro hname
  obtain ⟨s, hs, hassigned⟩ := List.mem_filterMap.1 hname
  obtain ⟨t, ht, hs⟩ := List.mem_flatMap.1 hs
  exact h ⟨t, (List.mem_filter.1 ht).1, Subtree.assigns_iff.2 (List.mem_map.2 ⟨s, hs, hassigned⟩)⟩

namespace Session

/-- The free variables of the account are blank. -/
def Voids (s : Session) (a : Account) : Prop := ∀ name, a.Free name → s.Blank name

/-- A request whose answer and session are given has been accepted and leaves the free variables of `a'`
blank, or it leaves those of `a` blank. -/
def VoidsAfter (a a' : Account) : Except SessionError (Option Report) × Session → Prop
  | (.ok _, s') => s'.Voids a'
  | (.error _, s') => s'.Voids a

variable {s : Session} {a a' : Account} {m : GraphMapping} {f : Fragment} {forced : List Nat} {full : Bool}

/-- A batch whose run does not fault and that is not taken over leaves the session as prepared. -/
theorem taken_batch_error {e : SessionError} {s' : Session}
    (h : s.taken (.batch m f forced full) = (.error e, s'))
    (hfault : ∀ fault, e ≠ .execute fault) :
    s' = (({ s with mapping := m } : Session).prepared full).abandon := by
  simp only [taken] at h
  rcases ({ s with mapping := m } : Session).outcome_cases f forced full with
    ⟨diagnostics, -, ho⟩ | ⟨diagnostics, result, memory, -, hx, ho⟩
  · rw [ho] at h
    cases h
    rfl
  · rw [ho] at h
    cases result with
    | ok run => cases h
    | error fault =>
      cases h
      exact absurd rfl (hfault fault)

/-- What has to run next, the notes of changes and all that is not program or memory do not matter. -/
theorem Blank.of_scheduled {s' : Session} {name : String} (h : s.Blank name) {entry updates full}
    (hcompiled : s'.compiled = s.compiled.scheduled entry updates full)
    (hglobals : s'.memory.globals = s.memory.globals) : s'.Blank name := by
  intro slot hslot
  rw [hcompiled] at hslot
  rw [Memory.global?, hglobals]
  exact h slot hslot

theorem Blank.prepared {name : String} (h : s.Blank name) (m : GraphMapping) (full : Bool) :
    (({ s with mapping := m } : Session).prepared full).Blank name := by
  rw [prepared_eq]
  exact h.of_scheduled rfl rfl

/-- A batch that is taken over sets to null what it frees. -/
theorem Voids.batch (h : s.Voids a) (henrolled : s.Enrolled a) (hlaidOut : s.LaidOut)
    (hfree : ∀ name, a'.Free name →
      a.Free name ∨ a.roster.cleared name = false ∧ a'.roster.cleared name = true)
    (hreaches : Reaches a a' (s.taken (.batch m f forced full)))
    (hfault : ∀ fault, (s.taken (.batch m f forced full)).1 ≠ .error (.execute fault)) :
    VoidsAfter a a' (s.taken (.batch m f forced full)) := by
  have hready := (hlaidOut.withMapping m).prepared full
  have hblank := fun name hname => (h name hname).prepared m full
  rcases htaken : s.taken (.batch m f forced full) with ⟨e | report, s'⟩
  · rw [htaken] at hfault
    obtain rfl := taken_batch_error htaken fun fault he => hfault fault (congrArg _ he)
    exact hblank
  · rw [htaken] at hreaches
    obtain ⟨run, memory, -, hx, rfl, -⟩ := taken_batch_ok htaken
    intro name hname slot hslot
    obtain ⟨ht, -⟩ := evolves_compiled f _ hready.sound.compiled
    refine ht.execute_null rfl hx (fun n hn hon hdefines => ?_) ?_
    · exact (hreaches.enrols.assigns_null hreaches.agrees.mirrors (Account.notMem_ofLive hname.1) hslot
        hn hon hdefines).2
    · rcases hfree name hname with hfree | ⟨hold, hnew⟩
      · exact .inl (hready.blank_installed (hblank name hfree) slot hslot)
      · exact .inr (hready.sound.compiled.awaits_of_cleared
          (henrolled.enrols_prepared hlaidOut.sound m full) hreaches.enrols hold hnew _ hslot)

/-- A request leaves the free variables blank. -/
theorem Voids.answer (h : s.Voids a) (henrolled : s.Enrolled a) (hcoherent : a.Coherent)
    (hlaidOut : s.LaidOut) (htidy : s.Tidy) {r : Request} (hmode : r.KeepsMode false)
    (hfaithful : r.Faithful) (hfault : ∀ fault, (s.answer r.call).1 ≠ .error (.execute fault)) :
    VoidsAfter a (a.after r) (s.answer r.call) := by
  have hreaches := henrolled.answer htidy hmode hfaithful
  have hfree : ∀ name, (a.after r).Free name →
      a.Free name ∨ a.roster.cleared name = false ∧ (a.after r).roster.cleared name = true :=
    fun name => hcoherent.free_of_after
  rw [answer_call htidy.sound] at hreaches hfault ⊢
  -- what leaves the program as it is clears nothing
  have hskip : ∀ s' : Session, s'.Enrolled (a.after r) → ∀ entry updates full,
      s'.compiled = s.compiled.scheduled entry updates full →
      s'.memory.globals = s.memory.globals → s'.Voids (a.after r) := by
    intro s' henrolled' entry updates full hcompiled hglobals name hname
    rcases hfree name hname with hfree | ⟨hold, hnew⟩
    · exact (h name hfree).of_scheduled hcompiled hglobals
    · have hsame := henrolled.enrols.scheduled hlaidOut.sound.compiled entry updates full
      have hcleared := hsame.cleared_iff.2 (hcompiled ▸ henrolled'.enrols.cleared_iff.1 hnew)
      rw [hold] at hcleared
      cases hcleared
  cases hc : s.courseOf r with
  | refuse operation mode => exact h
  | skip =>
    rw [hc] at hreaches
    exact hskip s.reset hreaches _ _ _ rfl rfl
  | configure options =>
    rw [hc] at hreaches
    exact hskip (s.setOptions options) hreaches _ _ _ s.compiled.scheduled_self rfl
  | batch m f forced full =>
    rw [hc] at hreaches hfault
    exact h.batch henrolled hlaidOut hfree hreaches hfault

/-- The free variables of a session stay blank as long as no run faults. -/
theorem Voids.run (h : s.Voids a) (henrolled : s.Enrolled a) (hcoherent : a.Coherent)
    (hlaidOut : s.LaidOut) (htidy : s.Tidy) {history : List Request}
    (hmode : ∀ r ∈ history, r.KeepsMode false) (hfaithful : ∀ r ∈ history, r.Faithful)
    (hrun : s.Unfaulted history) : (s.run history).Voids (s.account a history) := by
  induction history generalizing s a with
  | nil => exact h
  | cons r rest ih =>
    obtain ⟨hfault, hrest⟩ := hrun
    have hmode' := hmode r List.mem_cons_self
    have hfaithful' := hfaithful r List.mem_cons_self
    have hreaches := henrolled.answer htidy hmode' hfaithful'
    have hstep := h.answer henrolled hcoherent hlaidOut htidy hmode' hfaithful' hfault
    have hafter : ∀ {a' : Account}, (s.answer r.call).2.Voids a' → (s.answer r.call).2.Enrolled a' →
        a'.Coherent →
        ((s.answer r.call).2.run rest).Voids ((s.answer r.call).2.account a' rest) :=
      fun h henrolled hcoherent => ih h henrolled hcoherent (hlaidOut.run [r]).laidOut (htidy.answer r)
        (fun r hr => hmode r (List.mem_cons_of_mem _ hr))
        (fun r hr => hfaithful r (List.mem_cons_of_mem _ hr)) hrest
    rw [Session.account]
    change ((s.answer r.call).2.run rest).Voids _
    rcases ha : s.answer r.call with ⟨e | report, s'⟩ <;> rw [ha] at hstep hreaches hafter
    · exact hafter hstep hreaches hcoherent
    · exact hafter hstep hreaches (hcoherent.after r)

/-- A variable that is displaced after a request that was accepted holds what it held before. -/
theorem Enrolled.kept (h : s.Enrolled a) (hcoherent : a.Coherent) (hlaidOut : s.LaidOut)
    (htidy : s.Tidy) {r : Request} (hmode : r.KeepsMode false) (hfaithful : r.Faithful)
    {report : Option Report} {s' : Session} (hr : s.answer r.call = (.ok report, s')) {name : String}
    (hname : (a.after r).displaced name = true) {slot : Nat} (hslot : s.slotOf? name = some slot) :
    s'.memory.global? slot = s.memory.global? slot := by
  have hreaches := h.answer htidy hmode hfaithful
  obtain ⟨hassigns, hcleared⟩ := (hcoherent.after r).displaced name hname
  rw [hlaidOut.slotOf?_eq] at hslot
  rw [hr] at hreaches
  rcases answer_ok_cases htidy.sound hr with ⟨-, -, rfl⟩ | ⟨options, -, -, rfl⟩ |
    ⟨m, f, forced, full, run, memory, -, -, hx, rfl, -⟩
  · rfl
  · rfl
  · have hready := (hlaidOut.withMapping m).prepared full
    obtain ⟨ht, hext⟩ := evolves_compiled f _ hready.sound.compiled
    have hprepared := prepared_eq ({ s with mapping := m } : Session) full
    have hold : (({ s with mapping := m } : Session).prepared full).compiled.root.symbols.indexOf? name =
        some slot := by
      rw [hprepared]
      exact hslot
    -- no active statement stores the variable after the batch
    have hglobal := ht.execute_global? rfl hx (k := slot) fun n hn hon hdefines => by
      obtain ⟨hnew, -⟩ := hreaches.enrols.assigns_null hreaches.agrees.mirrors
        (Account.notMem_ofLive hassigns) (indexOf?_of_isPrefix hext.symbols hold) hn hon hdefines
      rw [hnew] at hcleared
      cases hcleared
    have hlt : slot < s.memory.globalCount := by
      obtain ⟨hlt, -⟩ := List.findIdx?_eq_some_iff_getElem.1 hslot
      exact Nat.lt_of_lt_of_le (Nat.lt_of_lt_of_eq hlt hlaidOut.sound.compiled.tabled.slots.symm)
        hlaidOut.room
    refine hglobal.trans ((global?_withRoom _ _ slot).trans ?_)
    rw [hprepared]
    exact if_pos hlt

theorem coherent_account (h : a.Coherent) (history : List Request) : (s.account a history).Coherent := by
  induction history generalizing s a with
  | nil => exact h
  | cons r rest ih =>
    rw [account]
    rcases s.answer r.call with ⟨e | report, s'⟩
    · exact ih h
    · exact ih (h.after r)

/-- A variable that is blank shows null, or nothing if it has no slot. -/
theorem LaidOut.query_of_blank (h : s.LaidOut) {name : String} (hblank : s.Blank name) :
    s.query (.named name) = none ∨ s.query (.named name) = some .null := by
  change s.memory.snapshotOf? s.executable name = none ∨ s.memory.snapshotOf? s.executable name = some .null
  rw [Memory.snapshotOf?, h.globalSymbol?]
  cases hget : s.compiled.root.symbols.get? name with
  | none => exact .inl rfl
  | some symbol =>
    have hslot : s.compiled.root.symbols.indexOf? name = some symbol.index := by
      rw [h.sound.compiled.tabled.indexOf?_eq, hget, Option.map_some]
    rw [Option.bind_some, Memory.snapshotAt?, hblank symbol.index hslot]
    exact .inr rfl

/-- Which variables hold null in a session that is kept in graph mode. As long as no run faults, a variable
that no live subtree assigns shows null, if anything, unless it lost its last assignment to a function of its
name. Such a variable keeps its value over every request that is accepted, as long as no subtree assigns
it. -/
theorem null_of_unassigned (options : Options) (hgraph : options.interpreterMode = false)
    (history : List Request) (hmode : ∀ r ∈ history, r.KeepsMode false)
    (hfaithful : ∀ r ∈ history, r.Faithful) (hrun : ({ options } : Session).Unfaulted history) :
    let s := ({ options } : Session).run history
    let a := ({ options } : Session).account {} history
    s.mapping.Lists a.live ∧
      (∀ name, ¬ a.Assigns name → a.displaced name = false →
        s.query (.named name) = none ∨ s.query (.named name) = some .null) ∧
      ∀ r : Request, r.KeepsMode false → r.Faithful → ∀ report s', s.answer r.call = (.ok report, s') →
        ∀ name, (a.after r).displaced name = true → ∀ slot, s.slotOf? name = some slot →
          s'.memory.global? slot = s.memory.global? slot := by
  intro s a
  have henrolled : s.Enrolled a := enrolled_run hgraph hmode hfaithful
  have hlaidOut : s.LaidOut := laidOut_run options history
  have hvoids : s.Voids a := Voids.run (fun _ _ _ h => by cases h) (enrolled_fresh hgraph)
    Account.coherent_fresh (laidOut_fresh options) (tidy_run options []) hmode hfaithful hrun
  refine ⟨henrolled.agrees.lists, fun name hassigns hdisplaced => ?_, fun r hmode hfaithful report s' hr
    name hname slot hslot => ?_⟩
  · exact hlaidOut.query_of_blank (hvoids name ⟨hassigns, hdisplaced⟩)
  · exact henrolled.kept (coherent_account Account.coherent_fresh history) hlaidOut
      (tidy_run options history) hmode hfaithful hr hname hslot

/-- A session in which a function takes the place of one of two variables. -/
def replaced : List Request :=
  [.updateGraph (.ofEdits { added := [textual 0 "a = 1; b = 2;"] }),
    .updateGraph (.ofEdits { modified := [textual 0 "def a() = 3;"] })]

/-- The other variable is null, and the replaced one is not, even when the function is deleted too. -/
theorem null_of_unassigned_replaced :
    let s := ({} : Session).run replaced
    let delete := Request.updateGraph (.ofEdits { deleted := [.empty (.ofNat 0)] })
    s.query (.named "b") = some .null ∧
      ((s.answer delete.call).2.memory.global? 0).map Value.kind = some .int := by
  intro s delete
  have hfaithful : ∀ r ∈ replaced, r.Faithful := by
    simp only [replaced, List.forall_mem_cons]
    refine ⟨⟨⟨_, rfl⟩, List.forall_mem_singleton.2 ?_⟩, ⟨⟨_, rfl⟩, List.forall_mem_singleton.2 ?_⟩,
      List.forall_mem_nil _⟩
    · exact (parsed_textual _ _).faithful
    · exact (parsed_textual _ _).faithful
  have hrun : ({} : Session).Unfaulted replaced :=
    unfaulted_cons (by decide +kernel) (unfaulted_cons (by decide +kernel) trivial)
  obtain ⟨-, hnull, hkept⟩ := null_of_unassigned {} rfl replaced (by simp [replaced, Request.KeepsMode])
    hfaithful hrun
  have haccount : ({} : Session).account {} replaced = (({} : Account).after (.updateGraph
      (.ofEdits { added := [textual 0 "a = 1; b = 2;"] }))).after (.updateGraph
      (.ofEdits { modified := [textual 0 "def a() = 3;"] })) := by
    rw [replaced, account_cons (by decide +kernel), account_cons (by decide +kernel)]
    rfl
  rw [haccount] at hnull hkept
  refine ⟨(hnull "b" ?_ (by decide +kernel)).resolve_left (by decide +kernel), ?_⟩
  · rintro ⟨t, ht, hassigns⟩
    obtain rfl : t = textual 0 "def a() = 3;" := List.mem_singleton.1 ht
    exact absurd hassigns (by decide +kernel)
  · rcases hanswer : s.answer delete.call with ⟨e | report, s'⟩
    · have hok : (s.answer delete.call).1.toBool = true := by decide +kernel
      rw [hanswer] at hok
      cases hok
    · rw [hkept delete trivial ⟨⟨_, rfl⟩, List.forall_mem_nil _⟩ report s' hanswer "a"
        (by decide +kernel) 0 (by decide +kernel)]
      decide +kernel

end Session

end Reflow
