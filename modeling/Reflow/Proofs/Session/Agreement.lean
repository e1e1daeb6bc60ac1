import Reflow.Proofs.Lang.Named
import Reflow.Proofs.Program.Ownership
import Reflow.Proofs.Session.Fragments
/-!
# The mapping agrees with the program

A session keeps two accounts of its live subtrees: the mapping of the host's graph, and what the subtrees
own in the compiled program. Batches change both, each in its own way, and the program is compiled from
the rendered text of the subtrees. The two accounts agree at all times, whatever is edited, rejected or
taken back.

## Main definitions

* `Ledger.ofLive`: the statements of some subtrees.
* `Subtree.Faithful`: the code of a subtree binds the same names as its statements.
* `GraphMapping.Records`: the mapping has the record of a version of a subtree.
* `Session.Agrees`: mapping and program are those of the same subtrees.

## Main results

* `GraphMapping.Lists.headings_compiled`: a batch compiles the live subtrees after it.
* `Session.Agrees.answer`, `Session.Agrees.run`: requests keep mapping and program in agreement.
* `Session.mapping_agrees`: what the mapping and the program say about the live subtrees.
-/

namespace Reflow

/-! ### The statements of the live subtrees -/

namespace Ledger

/-- The statements of some subtrees. -/
def ofLive (live : List Subtree) : Ledger :=
  fun id => (live.filter (·.id = id)).flatMap Subtree.statements

variable {live : List Subtree} {id : SubtreeId} {t : Subtree} {program program' : List Statement}

theorem ofLive_append (live more : List Subtree) (id : SubtreeId) :
    ofLive (live ++ more) id = ofLive live id ++ ofLive more id := by
  simp [ofLive]

theorem ofLive_eq_nil (h : ∀ t ∈ live, t.id ≠ id) : ofLive live id = [] := by
  have hnone : live.filter (·.id = id) = [] := List.filter_eq_nil_iff.2 (by simpa using h)
  rw [ofLive, hnone, List.flatMap_nil]

/-- A live subtree has its own statements. -/
theorem ofLive_of_mem (hnodup : (live.map Subtree.id).Nodup) (ht : t ∈ live) :
    ofLive live t.id = t.statements := by
  induction live with
  | nil => cases ht
  | cons first rest ih =>
    obtain ⟨hfirst, hrest⟩ := List.nodup_cons.1 hnodup
    rcases List.mem_cons.1 ht with rfl | ht
    · have hnone : ofLive rest t.id = [] :=
        ofLive_eq_nil fun s hs heq => hfirst (List.mem_map.2 ⟨s, hs, heq⟩)
      rw [← List.singleton_append, ofLive_append, hnone]
      simp [ofLive]
    · have hne : first.id ≠ t.id := fun heq => hfirst (List.mem_map.2 ⟨t, ht, heq.symm⟩)
      rw [← List.singleton_append, ofLive_append, ih hrest ht]
      simp [ofLive, hne]

/-- Without the subtrees that a batch touches, the others have their statements. -/
theorem ofLive_filter (b : Batch) (live : List Subtree) (id : SubtreeId) :
    ofLive (live.filter fun t => !b.contains t.id) id =
      if b.contains id then [] else ofLive live id := by
  induction live with
  | nil => simp [ofLive]
  | cons t rest ih =>
    by_cases hid : t.id = id
    · subst hid
      cases hcontains : b.contains t.id with
      | true => simpa [hcontains] using ih
      | false => simpa [ofLive, hcontains] using ih
    · cases hcontains : b.contains t.id with
      | true => simpa [ofLive, hcontains, hid] using ih
      | false => simpa [ofLive, hcontains, hid] using ih

end Ledger

/-- What depends on the headings of statements only. -/
theorem Statement.map_congr_of_heading {α : Type} {f : Statement → α}
    (hf : ∀ s s' : Statement, s.heading = s'.heading → f s = f s') {program program' : List Statement}
    (h : program'.map heading = program.map heading) : program'.map f = program.map f := by
  induction program generalizing program' with
  | nil => rw [List.map_eq_nil_iff.1 h]
  | cons s rest ih =>
    obtain ⟨s', rest', rfl, hs, hrest⟩ := List.map_eq_cons_iff.1 h
    rw [List.map_cons, List.map_cons, hf s' s hs, ih hrest]

theorem Statement.function?_congr {s s' : Statement} (h : s.heading = s'.heading) :
    s.function? = s'.function? := by
  cases s <;> cases s' <;> simp_all [heading, function?]

/-- Statements with the same headings make the same ledger. -/
theorem CompileState.Mirrors.of_headings {s : CompileState} {L L' : Ledger} (h : s.Mirrors L)
    (hheadings : ∀ id, (L' id).map Statement.heading = (L id).map Statement.heading) :
    s.Mirrors L' := by
  refine h.congr (fun id => ?_) fun id =>
    Statement.map_congr_of_heading (fun _ _ => Statement.function?_congr) (hheadings id)
  have hassigned := Statement.map_congr_of_heading
    (fun _ _ heq => (Statement.eq_of_heading heq).1) (hheadings id)
  simpa using congrArg (List.filterMap fun a => a) hassigned

/-! ### What a batch compiles -/

/-- If the code of the subtree is a program, then its statements bind the same names in the same way. -/
def Subtree.Faithful (t : Subtree) : Prop := ∀ program, parseProgram t.code = .ok program →
  program.map Statement.heading = t.statements.map Statement.heading

/-- The batch of the request, if it has one, is built from edits, and the subtrees that it brings are
faithful. -/
def Request.Faithful : Request → Prop
  | .updateGraph b => (∃ edits, b = Batch.ofEdits edits) ∧ ∀ t ∈ b.modified ++ b.added, t.Faithful
  | _ => True

/-- The rendered code of a subtree is read as statements that bind the same names. -/
theorem Subtree.Parsed.faithful {t : Subtree} (h : t.Parsed) : t.Faithful := by
  obtain ⟨code, hcode⟩ := h.program
  exact fun program hprogram => headings_renderAll (named_of_parseProgram hcode) hprogram

theorem Request.Parsed.faithful {r : Request} (h : r.Parsed) : r.Faithful := by
  cases r with
  | updateGraph b => exact ⟨h.1, fun t ht => (h.2 t ht).faithful⟩
  | _ => trivial

theorem Subtree.Faithful.headings {t : Subtree} (h : t.Faithful) {owner : Option SubtreeId}
    (hread : ∃ program, parseProgram t.code = .ok program) :
    (FragmentUnit.mk owner t.code).program.map Statement.heading =
      t.statements.map Statement.heading := by
  obtain ⟨program, hprogram⟩ := hread
  have heq : (FragmentUnit.mk owner t.code).program = program := by
    simp only [FragmentUnit.program, hprogram]
  rw [heq]
  exact h program hprogram

/-- The units of some subtrees, which leave out those without statements, have the statements of these
subtrees. -/
theorem headings_units (brought : List Subtree) (id : SubtreeId)
    (h : ∀ t ∈ brought, t.statements ≠ [] →
      (FragmentUnit.mk (some t.id) t.code).program.map Statement.heading =
        t.statements.map Statement.heading) :
    ((((brought.filter fun t => !t.statements.isEmpty).map fun t =>
      (⟨some t.id, t.code⟩ : FragmentUnit)).filter (·.owner = some id)).flatMap
        FragmentUnit.program).map Statement.heading =
      (Ledger.ofLive brought id).map Statement.heading := by
  induction brought with
  | nil => rfl
  | cons t rest ih =>
    have hrest := ih fun s hs => h s (List.mem_cons_of_mem _ hs)
    rw [← List.singleton_append, Ledger.ofLive_append, List.map_append, ← hrest]
    by_cases hid : t.id = id
    · subst hid
      by_cases hempty : t.statements = []
      · simp [Ledger.ofLive, hempty]
      · simpa [Ledger.ofLive, hempty] using h t List.mem_cons_self hempty
    · by_cases hempty : t.statements = []
      · simp [Ledger.ofLive, hid, hempty]
      · simp [Ledger.ofLive, hid, hempty]

namespace GraphMapping

variable {m : GraphMapping} {b : Batch} {live : List Subtree}

/-- The mapping has the record of this version of a subtree. -/
def Records (m : GraphMapping) (t : Subtree) : Prop :=
  ∃ first, m.record? t.id = some (.ofSubtree first t)

/-- The statements that a batch leaves to a subtree. -/
theorem Lists.kept_statements (h : m.Lists live) (id : SubtreeId) :
    (if id ∈ (m.fragmentOf b).retired then [] else Ledger.ofLive live id) =
      Ledger.ofLive (live.filter fun t => !b.contains t.id) id := by
  rw [Ledger.ofLive_filter]
  by_cases hlive : ∃ t ∈ live, t.id = id
  · obtain ⟨t, ht, rfl⟩ := hlive
    exact if_congr (h.mem_retired ht) rfl rfl
  · have hnone : Ledger.ofLive live id = [] :=
      Ledger.ofLive_eq_nil fun t ht heq => hlive ⟨t, ht, heq⟩
    rw [hnone, ite_self, ite_self]

/-- A batch compiles the live subtrees after it, as far as the names are concerned that their statements
bind. -/
theorem Lists.headings_compiled (h : m.Lists live) (hnew : ∀ t ∈ b.modified ++ b.added, t.Faithful)
    (hreadable : (m.fragmentOf b).Readable) (id : SubtreeId) :
    (Ledger.ofLive (b.applied live) id).map Statement.heading =
      ((Ledger.ofLive live).compiled (m.fragmentOf b) id).map Statement.heading := by
  -- what sets variables to null belongs to no subtree
  have hunowned : ((m.orphans b).map fun name =>
      (⟨none, name ++ " = null;"⟩ : FragmentUnit)).filter (·.owner = some id) = [] := by
    simp [List.filter_eq_nil_iff]
  have hunits := headings_units (b.modified ++ b.added) id fun t ht hne =>
    (hnew t ht).headings (hreadable ⟨some t.id, t.code⟩ (subtree_mem_units ht hne))
  have hfragment : (m.fragmentOf b).units.filter (·.owner = some id) =
      (((b.modified ++ b.added).filter fun t => !t.statements.isEmpty).map fun t =>
        (⟨some t.id, t.code⟩ : FragmentUnit)).filter (·.owner = some id) := by
    rw [fragmentOf, List.filter_append, hunowned, List.nil_append]
  rw [Ledger.compiled_apply, h.kept_statements, hfragment, Batch.applied, Ledger.ofLive_append,
    List.map_append, List.map_append, hunits]

/-- The record of a live subtree is found. -/
theorem Lists.records (h : m.Lists live) {t : Subtree} (ht : t ∈ live) : m.Records t := by
  obtain ⟨first, hmem⟩ := h.complete t ht
  exact ⟨first, h.record?_eq_some.2 ⟨hmem, rfl⟩⟩

end GraphMapping

/-- Code without a subtree leaves the ledger as it is. -/
theorem Ledger.compiled_unowned (L : Ledger) {f : Fragment} (hretired : f.retired = [])
    (hunits : ∀ u ∈ f.units, u.owner = none) : L.compiled f = L := by
  funext id
  have hnone : f.units.filter (·.owner = some id) = [] := by
    refine List.filter_eq_nil_iff.2 fun u hu => ?_
    simp [hunits u hu]
  rw [compiled_apply, hretired, hnone, List.flatMap_nil, List.append_nil]
  exact if_neg List.not_mem_nil

/-! ### Requests -/

namespace Session

/-- The mapping lists the subtrees, and they own in the program what their statements say. -/
structure Agrees (s : Session) (live : List Subtree) : Prop where
  lists : s.mapping.Lists live
  mirrors : s.compiled.Mirrors (.ofLive live)

variable {s : Session} {live live' : List Subtree}

theorem agrees_fresh (options : Options) : ({ options } : Session).Agrees [] :=
  ⟨GraphMapping.lists_empty, CompileState.mirrors_empty⟩

theorem Agrees.reset (h : s.Agrees live) : s.reset.Agrees live :=
  ⟨h.lists, h.mirrors.scheduled _ _ _⟩

/-- A request whose answer and session are given has been accepted, which leads from `live` to `live'`,
or it has left mapping and program with the subtrees that they had. -/
def LeadsTo (live live' : List Subtree) : Except SessionError (Option Report) × Session → Prop
  | (.ok _, s') => s'.Agrees live'
  | (.error _, s') => s'.Agrees live

/-- A batch takes over mapping and program together, or neither of them. -/
theorem Agrees.batch (h : s.Agrees live) (hs : s.Sound) {m : GraphMapping} {f : Fragment}
    {forced : List Nat} {full : Bool} (hcommitted : m.committed = s.mapping.committed)
    (hlists : m.commit.Lists live')
    (hheadings : f.Readable → ∀ id, (Ledger.ofLive live' id).map Statement.heading =
      ((Ledger.ofLive live).compiled f id).map Statement.heading) :
    LeadsTo live live' (s.taken (.batch m f forced full)) := by
  have hready : (({ s with mapping := m } : Session).prepared full).compiled.Mirrors
      (.ofLive live) := by
    rw [prepared_eq]
    exact h.mirrors.scheduled _ _ _
  have hsound := (hs.withMapping m).prepared full
  simp only [taken]
  rcases ({ s with mapping := m } : Session).outcome_cases f forced full with
    ⟨diagnostics, -, ho⟩ | ⟨diagnostics, result, memory, hcompile, -, ho⟩
  · rw [ho]
    exact ⟨h.lists.of_committed (mapping_of_error ho ▸ hcommitted), hready⟩
  · cases result with
    | ok run =>
      rw [ho]
      refine ⟨mapping_of_ok ho ▸ hlists, ?_⟩
      exact (hready.compiled hsound.compiled hcompile).of_headings
        (hheadings (readable_of_compile hcompile))
    | error fault =>
      rw [ho]
      exact ⟨h.lists.of_committed (mapping_of_error ho ▸ hcommitted), hready⟩

/-- A batch of edits leads to the live subtrees after it. -/
theorem Agrees.updateGraph (h : s.Agrees live) (hs : s.Sound) {b : Batch} (hb : b.Canonical)
    (hnew : ∀ t ∈ b.modified ++ b.added, t.Faithful) :
    LeadsTo live (b.applied live) (s.taken (s.courseOf (.updateGraph b))) := by
  simp only [courseOf]
  split
  · exact h
  · split
    · rename_i hempty
      rw [Batch.applied_of_isEmpty hempty]
      exact h.reset
    · exact h.batch hs rfl (h.lists.build hb) (h.lists.headings_compiled hnew)

/-- Code that belongs to no subtree leads to the same subtrees. -/
theorem Agrees.unowned (h : s.Agrees live) (htidy : s.Tidy) {f : Fragment} {forced : List Nat}
    {full : Bool} (hretired : f.retired = []) (hunits : ∀ u ∈ f.units, u.owner = none) :
    LeadsTo live live (s.taken (.batch s.mapping f forced full)) := by
  refine h.batch htidy.sound rfl (h.lists.of_committed ?_) fun _ id => ?_
  · rw [GraphMapping.commit, htidy.pending, Option.getD_none]
  · rw [Ledger.compiled_unowned _ hretired hunits]

/-- A request keeps mapping and program in agreement. -/
theorem Agrees.answer {a : Accepted} (h : s.Agrees a.live) (htidy : s.Tidy) {r : Request}
    (hfaithful : r.Faithful) : LeadsTo a.live (a.after r).live (s.answer r.call) := by
  rw [answer_call htidy.sound]
  cases r with
  | updateGraph b =>
    obtain ⟨⟨edits, rfl⟩, hnew⟩ := hfaithful
    exact h.updateGraph htidy.sound (Batch.canonical_ofEdits edits) hnew
  | updateCode code =>
    simp only [courseOf]
    split
    · exact h
    · split
      · exact h.reset
      · exact h.unowned htidy rfl fun u hu => by rw [List.mem_singleton.1 hu]
  | rerunSubtree subtree =>
    simp only [courseOf]
    split
    · exact h.reset
    · exact h.unowned htidy rfl fun u hu => by cases hu
  | rerunAll => exact h.unowned htidy rfl fun u hu => by cases hu
  | setOptions options => exact ⟨h.lists, h.mirrors⟩

/-- Mapping and program agree after any series of requests. -/
theorem Agrees.run {a : Accepted} (h : s.Agrees a.live) (htidy : s.Tidy) {history : List Request}
    (hfaithful : ∀ r ∈ history, r.Faithful) :
    (s.run history).Agrees (s.accepted a history).live := by
  induction history generalizing s a with
  | nil => exact h
  | cons r rest ih =>
    have hstep := h.answer htidy (hfaithful r List.mem_cons_self)
    have htidy' := htidy.answer r
    have hrest : ∀ r ∈ rest, r.Faithful := fun r hr => hfaithful r (List.mem_cons_of_mem _ hr)
    rw [Session.accepted]
    change ((s.answer r.call).2.run rest).Agrees _
    rcases ha : s.answer r.call with ⟨e | report, s'⟩ <;> rw [ha] at hstep htidy'
    · exact ih hstep htidy' hrest
    · exact ih hstep htidy' hrest

end Session

/-! ### The program that was run last -/

/-- The name of a symbol. -/
def Executable.nameOf? (x : Executable) (key : SymbolKey) : Option String :=
  (x.symbols[key.block]?.bind (·.at? key.index)).map Symbol.name

namespace CompileState

variable {s : CompileState} {n : GraphNode} {name : String}

theorem Stores.nameOf? (h : s.Stores n name) : n.defines.bind s.executable.nameOf? = some name := by
  obtain ⟨slot, hslot, hdefines⟩ := h
  obtain ⟨hlt, hname, -⟩ := List.findIdx?_eq_some_iff_getElem.1 hslot
  have hat : s.executable.nameOf? (.global slot) =
      (s.root.symbols.symbols[slot]?).map Symbol.name := rfl
  rw [hdefines, Option.bind_some, hat, List.getElem?_eq_getElem hlt, Option.map_some, eq_of_beq hname]

theorem Mirrors.names {L : Ledger} (h : s.Mirrors L) (id : SubtreeId) :
    (s.graph.nodesOwnedBy id).map (fun n => n.defines.bind s.executable.nameOf?) =
      ((L id).filterMap Statement.assigned?).map some := by
  have hstores := h.statements id
  generalize s.graph.nodesOwnedBy id = nodes at hstores
  generalize (L id).filterMap Statement.assigned? = names at hstores
  induction hstores with
  | nil => rfl
  | cons hn _ ih => rw [List.map_cons, List.map_cons, hn.nameOf?, ih]

/-- Only the top-level block has procedures. -/
theorem Sound.mem_procedures_executable (h : s.Sound) {table : ProcedureTable} {p : Procedure}
    (htable : table ∈ s.executable.procedures) (hp : p ∈ table.procedures) :
    p ∈ s.root.procedures.procedures := by
  obtain ⟨block, hblock, rfl⟩ := List.mem_map.1 htable
  rcases List.mem_cons.1 hblock with rfl | hblock
  · exact hp
  · rw [(h.bodies block hblock).1] at hp
    cases hp

end CompileState

theorem Statement.function?_eq_some {s : Statement} {name : String} :
    s.function? = some name ↔ ∃ params body, s = .define name params body := by
  cases s <;> simp [function?]

namespace Session

/-- Mapping and program never drift apart. The mapping has the records of the live subtrees, each in the
version that was accepted last. The active statements that a live subtree owns in the program that was run
last define the variables that its assignments assign, in the same order; any other subtree owns no active
statement. Whoever owns an active function is a live subtree that defines it. -/
theorem mapping_agrees (options : Options) (history : List Request)
    (hparsed : ∀ r ∈ history, r.Parsed) :
    let s := ({ options } : Session).run history
    let live := (({ options } : Session).accepted {} history).live
    ∃ g, s.executable.graph? = some g ∧
      (∀ id, (s.mapping.record? id).isSome = true ↔ ∃ t ∈ live, t.id = id) ∧
      (∀ t ∈ live, s.mapping.Records t ∧ Keyed.Sorted GraphNode.id (g.nodesOwnedBy t.id) ∧
        (g.nodesOwnedBy t.id).map (fun n => n.defines.bind s.executable.nameOf?) =
          (t.statements.filterMap Statement.assigned?).map some) ∧
      (∀ id, s.mapping.record? id = none → g.nodesOwnedBy id = []) ∧
      ∀ table ∈ s.executable.procedures, ∀ p ∈ table.procedures, p.isActive = true →
        ∀ id, p.owner = some id → ∃ t ∈ live, t.id = id ∧ s.mapping.Records t ∧
          ∃ params body, .define p.name params body ∈ t.statements := by
  intro s live
  have hagrees : s.Agrees live := (agrees_fresh options).run (a := {}) (tidy_run options [])
    fun r hr => (hparsed r hr).faithful
  have hlaidOut : s.LaidOut := laidOut_run options history
  obtain ⟨entry, updates, full, hx⟩ := hlaidOut.executable
  have hmirrors := hagrees.mirrors.scheduled entry updates full
  have hsound := (s.compiled.evolves_scheduled entry updates full hlaidOut.sound.compiled).1
  have hdistinct := hagrees.lists.distinct
  have hnone : ∀ id, (∀ t ∈ live, t.id ≠ id) → Ledger.ofLive live id = [] :=
    fun id => Ledger.ofLive_eq_nil
  rw [hx]
  refine ⟨_, CompileState.executable_graph? _, fun id => hagrees.lists.record?_isSome, fun t ht =>
    ⟨hagrees.lists.records ht, hsound.graph.sorted_nodesOwnedBy t.id, ?_⟩, fun id hid => ?_,
    fun table htable p hp hon id howner => ?_⟩
  · refine (hmirrors.names t.id).trans ?_
    rw [Ledger.ofLive_of_mem hdistinct ht]
  · have hlive : ∀ t ∈ live, t.id ≠ id := by
      intro t ht heq
      have hsome := hagrees.lists.record?_isSome.2 ⟨t, ht, heq⟩
      rw [hid] at hsome
      cases hsome
    have hstatements := hmirrors.statements id
    rw [hnone id hlive] at hstatements
    exact List.forall₂_nil_right_iff.1 hstatements
  · have hmem := hmirrors.functions p (hsound.mem_procedures_executable htable hp) hon id howner
    by_cases hlive : ∃ t ∈ live, t.id = id
    · obtain ⟨t, ht, rfl⟩ := hlive
      rw [Ledger.ofLive_of_mem hdistinct ht] at hmem
      obtain ⟨statement, hstatement, hname⟩ := List.mem_map.1 hmem
      obtain ⟨params, body, rfl⟩ := Statement.function?_eq_some.1 hname
      exact ⟨t, ht, rfl, hagrees.lists.records ht, params, body, hstatement⟩
    · rw [hnone id fun t ht heq => hlive ⟨t, ht, heq⟩] at hmem
      cases hmem

/-- The subtree of a program text, or one without statements if the text is no program. -/
def textual (id : Nat) (code : String) : Subtree := ⟨.ofNat id, (FragmentUnit.mk none code).program⟩

theorem parsed_textual (id : Nat) (code : String) : (textual id code).Parsed := by
  cases h : parseProgram code with
  | ok program => exact ⟨code, by simp only [Subtree.parse, textual, FragmentUnit.program, h]⟩
  | error e =>
    have hempty : parseProgram "" = .ok [] := parseProgram_blank rfl
    exact ⟨"", by simp only [Subtree.parse, textual, FragmentUnit.program, h, hempty]⟩

/-- A session in which one subtree is changed and another one is deleted. -/
def exchanged : List Request :=
  [.updateGraph (.ofEdits { added := [textual 0 "a = 1; b = a;", textual 1 "def f(x) = x; c = f(b);"] }),
    .updateGraph (.ofEdits
      { modified := [textual 1 "d = 2; def g(x) = x; c = g(d);"], deleted := [.empty (.ofNat 0)] })]

/-- The changed subtree owns what its last version says, and the deleted one owns nothing. -/
theorem mapping_agrees_exchanged :
    ∃ g, (({} : Session).run exchanged).executable.graph? = some g ∧
      (g.nodesOwnedBy (.ofNat 1)).map (fun n =>
        n.defines.bind (({} : Session).run exchanged).executable.nameOf?) = [some "d", some "c"] ∧
      g.nodesOwnedBy (.ofNat 0) = [] := by
  have hparsed : ∀ r ∈ exchanged, r.Parsed := by
    simp only [exchanged, List.forall_mem_cons]
    refine ⟨⟨⟨_, rfl⟩, ?_⟩, ⟨⟨_, rfl⟩, ?_⟩, List.forall_mem_nil _⟩
    · exact List.forall_mem_cons.2 ⟨parsed_textual _ _, List.forall_mem_singleton.2 (parsed_textual _ _)⟩
    · exact List.forall_mem_singleton.2 (parsed_textual _ _)
  have hlive : (({} : Session).accepted {} exchanged).live =
      [textual 1 "d = 2; def g(x) = x; c = g(d);"] := by
    rw [exchanged, accepted_cons (by decide +kernel), accepted_cons (by decide +kernel)]
    rfl
  obtain ⟨g, hg, hrecords, howned, hfree, -⟩ := mapping_agrees {} exchanged hparsed
  rw [hlive] at hrecords howned
  obtain ⟨-, -, hnames⟩ := howned _ List.mem_cons_self
  refine ⟨g, hg, hnames.trans (by decide +kernel), hfree _ ?_⟩
  rw [← Option.not_isSome_iff_eq_none, hrecords]
  simp [textual, SubtreeId.ofNat]

end Session

end Reflow
