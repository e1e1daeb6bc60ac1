import Reflow.Proofs.Session.Freshness
import Reflow.Proofs.Session.FunctionValues
import Reflow.Proofs.Session.Resolution
/-!
# Variables that copy a name

A statement that assigns a mere name copies what the name stood for when the statement was compiled. If that
was a variable, the target holds what the variable holds. If it was a function, the target holds this function,
also when the function has no definition, or not any more, and the name has been assigned as a variable.

## Main definitions

* `Referent.uses`: what code uses that consists of a name.

## Main results

* `CompileState.uses_emitValue_name`: the uses of a statement that copies a name.
* `Session.copied`: what a variable holds that copies a name.
-/

namespace Reflow

/-- What the code of a mere name uses. -/
def Referent.uses : Referent → List Vertex
  | argument _ => []
  | procedure p _ => [.procedure p]
  | global slot => [.symbol (.global slot)]

theorem Referent.procedure_mem_uses {r : Referent} {p : Nat} :
    .procedure p ∈ r.uses ↔ ∃ pointer, r = .procedure p pointer := by
  cases r <;> simp [uses, eq_comm]

theorem Referent.symbol_mem_uses {r : Referent} {slot : Nat} :
    .symbol (.global slot) ∈ r.uses ↔ r = .global slot := by
  cases r <;> simp [uses, SymbolKey.global, eq_comm]

/-- From vertices without a procedure that has a record, nothing else is reached. -/
theorem DependencyGraph.Reaches.mem_of_unrecorded {g : DependencyGraph} {start : List Vertex} {v : Vertex}
    (h : g.Reaches start v) (hstart : ∀ r ∈ g.procedures, .procedure r.procedure ∉ start) : v ∈ start := by
  induction h with
  | use hv => exact hv
  | through hr _ _ ih => exact absurd ih (hstart _ hr)

theorem Executable.Denotes.pointerName?_eq {x : Executable} {pointer index : Nat} {name : String}
    (h : x.Denotes pointer index name) : x.pointerName? pointer = some name := by
  rw [pointerName?, h.1]
  exact h.2

namespace CompileState

variable {s t u : CompileState} {text past : List Statement} {n : GraphNode} {target x : String} {slot : Nat}
  {memory : Memory} {slots : List Datum}

theorem uses_naming_of_procedure {p : Nat} (hp : t.root.procedures.indexOf? x = some p) :
    (t.naming {} x).uses = [.procedure p] := by
  simp [naming, hp, Referent.uses]

theorem uses_naming_of_global {i : Nat} (hp : t.root.procedures.indexOf? x = none)
    (hi : t.root.symbols.indexOf? x = some i) : (t.naming {} x).uses = [.symbol (.global i)] := by
  simp [naming, hp, declare_of_some hi, Referent.uses]

/-- A statement that assigns a mere name uses what the name stands for. -/
theorem uses_emitValue_name (s : CompileState) (target x : String) :
    (s.emitValue target (.name x)).2.uses =
      ((s.emitValue target (.name x)).2.state.naming {} x).uses := by
  have hemit : (s.emitValue target (.name x)).2 =
      (emitName {} x { state := s.beforeValue target }).2 := rfl
  rw [hemit]
  cases hp : (s.beforeValue target).root.procedures.indexOf? x with
  | some p =>
    simp only [emitName, hp, List.findIdx?_nil]
    refine (uses_naming_of_procedure (p := p) ?_).symm
    exact hp
  | none =>
    cases hslot : (s.beforeValue target).root.symbols.indexOf? x with
    | some slot =>
      simp only [emitName, hp, hslot, List.findIdx?_nil]
      exact (uses_naming_of_global hp hslot).symm
    | none =>
      have hnone : ((s.beforeValue target).declare x).2.root.procedures.indexOf? x = none := by
        rw [declare_procedures, hp]
      simp only [emitName, hp, hslot, List.findIdx?_nil]
      refine (uses_naming_of_global (i := ((s.beforeValue target).declare x).1) ?_ ?_).symm
      · exact hnone
      · exact (s.beforeValue target).indexOf?_declare x

theorem AssignedFrom.uses_name (h : t.AssignedFrom text n past target (.name x) u) :
    n.uses = (u.naming {} x).uses := by
  obtain ⟨s, huses, rfl⟩ := h.emitted
  exact huses.trans (s.uses_emitValue_name target x)

/-- A statement that copies a name is regular, if it alone assigns its target, the name is not the target,
and it does not stand for an active procedure. -/
theorem AssignedFrom.regular (h : t.AssignedFrom text n past target (.name x) u) (hrecords : t.Recorded)
    (hn : n ∈ t.graph.activeNodes) (hslot : t.root.symbols.indexOf? target = some slot)
    (hwriters : ∀ m ∈ t.graph.nodes, m.isActive = true → m.defines = n.defines → m = n)
    (hself : u.naming {} x ≠ .global slot)
    (hoff : ∀ p pointer, u.naming {} x = .procedure p pointer → t.activeProcedure? p = none) :
    t.Regular n slot (u.naming {}) (.name x) := by
  obtain ⟨hmem, hon⟩ := List.mem_filter.1 hn
  obtain ⟨slot', hslot', hassigns⟩ := h.assigns
  obtain rfl : slot = slot' := Option.some.inj (hslot.symm.trans hslot')
  have huses := h.uses_name
  have hunrecorded : ∀ r ∈ t.graph.procedures, .procedure r.procedure ∉ n.uses := fun r hr hused => by
    obtain ⟨pointer, hname⟩ := Referent.procedure_mem_uses.1 (huses ▸ hused)
    simpa [hoff _ pointer hname] using hrecords r hr
  refine ⟨hmem, hon, fun m hm hmon hkey => hwriters m hm hmon hkey ▸ hassigns, fun hreach => hself ?_⟩
  exact Referent.symbol_mem_uses.1 (huses ▸ hreach.mem_of_unrecorded hunrecorded)

/-- When nothing waits, the slot of a regular statement that copies a name holds what the name stands for. -/
theorem Steady.stored_name {σ : Naming} {d : Datum} (h : t.Steady memory [] slots)
    (hn : t.Regular n slot σ (.name x))
    (hd : (σ x).datum? (t.executable.surroundings (t.Uses n) slots 0) [] = some d) :
    ∃ v stored, memory.global? slot = some v ∧ memory.heap.Held t.executable.pointerName? v stored ∧
      stored.same d = true := by
  obtain ⟨stored, hstored, hsame⟩ := h.settled hn 0 d hd
  obtain ⟨v, hv, hheld⟩ := h.shows.exists_global? hstored
  exact ⟨v, stored, hv, hheld, hsame⟩

/-- The slot of a statement that copies a global holds the same as the global. -/
theorem Steady.stored_global {σ : Naming} {source : Nat} (h : t.Steady memory [] slots)
    (hn : t.Regular n slot σ (.name x)) (hx : σ x = .global source) (hsource : source < t.globalCount) :
    ∃ v w, memory.global? slot = some v ∧ memory.global? source = some w ∧
      memory.heap.same v w = true := by
  have hd : slots[source]? = some _ := List.getElem?_eq_getElem (Nat.lt_of_lt_of_le hsource h.room)
  obtain ⟨v, stored, hv, hheld, hsame⟩ := h.stored_name hn (by rw [hx]; exact hd)
  obtain ⟨w, hw, hheld'⟩ := h.shows.exists_global? hd
  exact ⟨v, w, hv, hw, (hheld.same hheld').trans hsame⟩

/-- The slot of a statement that copies a function holds the function. -/
theorem Steady.stored_function {σ : Naming} {p pointer : Nat} {function : String}
    (h : t.Steady memory [] slots) (hn : t.Regular n slot σ (.name x)) (hx : σ x = .procedure p pointer)
    (hpointer : t.executable.Denotes pointer p function) :
    memory.global? slot = some (.function pointer) := by
  have hd : (t.executable.pointerName? pointer).map (Datum.function pointer) =
      some (.function pointer function) := by
    rw [hpointer.pointerName?_eq, Option.map_some]
  obtain ⟨v, stored, hv, hheld, hsame⟩ := h.stored_name hn (by rw [hx]; exact hd)
  cases hheld with
  | function hname =>
    obtain rfl := of_decide_eq_true hsame
    exact hv
  | _ => cases hsame

section Copies

variable (h : t.AssignedFrom text n past target (.name x) u) (hrecords : t.Recorded)
  (hsteady : t.Steady memory [] slots) (hn : n ∈ t.graph.activeNodes)
  (hslot : t.root.symbols.indexOf? target = some slot)
  (hwriters : ∀ m ∈ t.graph.nodes, m.isActive = true → m.defines = n.defines → m = n)

include h hrecords hsteady hn hslot hwriters

/-- If the name was a variable, the target holds the same as this variable. -/
theorem AssignedFrom.copies_global (ht : t.Sound) (hne : target ≠ x) (hkind : kindAfter past x ≠ .function) :
    ∃ source v w, t.root.symbols.indexOf? x = some source ∧ memory.global? slot = some v ∧
      memory.global? source = some w ∧ memory.heap.same v w = true := by
  have hknown : kindAfter past x ≠ .unknown :=
    h.place.kindAfter_ne_unknown (m := .value x) (List.mem_singleton.2 rfl)
  obtain ⟨source, hname, hsource⟩ :=
    (h.stage.resolves []).global x List.not_mem_nil (NameKind.eq_global hknown hkind)
  have hself : u.naming {} x ≠ .global slot := fun hself => hne <| by
    rw [hname] at hself
    obtain rfl := Referent.global.inj hself
    exact eq_of_indexOf? hslot hsource
  have hregular := h.regular hrecords hn hslot hwriters hself fun p pointer hp => by
    cases hname.symm.trans hp
  have hlt : source < t.globalCount :=
    Nat.lt_of_lt_of_eq (SymbolTable.lt_of_indexOf? hsource) ht.tabled.slots.symm
  obtain ⟨v, w, hv, hw, hsame⟩ := hsteady.stored_global hregular hname hlt
  exact ⟨source, v, w, hsource, hv, hw, hsame⟩

/-- If the name was a function and is not active, the target holds this function. -/
theorem AssignedFrom.copies_function (hkind : kindAfter past x = .function) (hoff : t.active? x = none) :
    ∃ pointer index, memory.global? slot = some (.function pointer) ∧
      t.executable.Denotes pointer index x := by
  obtain ⟨p, pointer, hname, hp⟩ := (h.stage.resolves []).function x List.not_mem_nil hkind
  obtain ⟨q, hat, hget, hq⟩ := ProcedureTable.exists_of_indexOf? hp
  have hself : u.naming {} x ≠ .global slot := fun hself => by cases hname.symm.trans hself
  have hregular := h.regular hrecords hn hslot hwriters hself fun p' pointer' hp' => by
    cases hname.symm.trans hp'
    rw [activeProcedure?, hat, ← hget]
    exact hoff
  have hpointer : t.executable.Denotes pointer p x := by
    obtain ⟨slot', -, hassigns⟩ := h.assigns
    have hwithin : Instruction.Within t n.uses (u.naming {} x).load :=
      hassigns.within _ (List.mem_singleton.2 rfl)
    rw [hname] at hwithin
    obtain ⟨p', htarget, hused⟩ := hwithin
    obtain ⟨pointer', hname'⟩ := Referent.procedure_mem_uses.1 (h.uses_name ▸ hused)
    cases hname.symm.trans hname'
    exact ⟨htarget, (congrArg (Option.map Procedure.name) hat).trans (congrArg some hq)⟩
  exact ⟨pointer, p, hsteady.stored_function hregular hname hpointer, hpointer⟩

end Copies

end CompileState

namespace Session

/-- The value of a variable. -/
def value? (s : Session) (name : String) : Option Value := (s.slotOf? name).bind s.memory.global?

/-- Variables that copy a name. As long as no run faults, a statement that assigns a mere name and is the only
one that assigns its target leaves there what the name stood for when the statement was compiled: if that was
a variable, what the variable holds, and otherwise the function, if it is not active. -/
theorem copied (options : Options) (history : List Request)
    (hrun : ({ options } : Session).Unfaulted history) (g : DependencyGraph)
    (hg : (({ options } : Session).run history).executable.graph? = some g) :
    let s := ({ options } : Session).run history
    ∀ n key, n ∈ g.activeNodes → n.defines = some key → g.writersOf key = [n.id] →
      ∀ past target x, AssignedAt (({ options } : Session).source history) past n.id target (.name x) →
        target ≠ x →
        (kindAfter past x ≠ .function → ∃ v w, s.value? target = some v ∧ s.value? x = some w ∧
          s.memory.heap.same v w = true) ∧
        (kindAfter past x = .function → s.executable.active? x = none →
          s.query (.named target) = some (.function x)) := by
  intro s n key hn hkey hwriters past target x hplace hne
  have hs : s.LaidOut := laidOut_run options history
  have hsettled : s.Settled := settled_run options hrun
  obtain ⟨entry, updates, full, hx⟩ := hs.executable
  have ht := (s.compiled.evolves_scheduled entry updates full hs.sound.compiled).1
  have hstems := (stemsFrom_run options history).scheduled hs.sound.compiled entry updates full
  obtain ⟨slots, hsteady⟩ := hsettled.steady
  have hsteady := hsteady.scheduled hs.sound.compiled entry updates full
  change s.executable.graph? = some g at hg
  rw [hx, CompileState.executable_graph?] at hg
  obtain rfl := Option.some.inj hg
  obtain ⟨hmem, hon⟩ := List.mem_filter.1 hn
  obtain ⟨past', target', value, u, hfrom⟩ := hstems.statements n hmem hon
  obtain ⟨rfl, rfl, rfl⟩ := hfrom.place.unique hplace
  obtain ⟨slot, hslot, hassigns⟩ := hfrom.assigns
  have hunique : ∀ m ∈ (s.compiled.scheduled entry updates full).graph.nodes, m.isActive = true →
      m.defines = n.defines → m = n := fun m hm hmon hdefines =>
    ht.graph.eq_of_writersOf hmem hwriters hm hmon (hdefines.trans hkey)
  have hvalue : s.value? target' = s.memory.global? slot := by
    rw [value?, (hs.slotOf?_eq target').trans hslot, Option.bind_some]
  refine ⟨fun hkind => ?_, fun hkind hoff => ?_⟩
  · obtain ⟨source, v, w, hsource, hv, hw, hsame⟩ :=
      hfrom.copies_global hstems.records hsteady hn hslot hunique ht hne hkind
    refine ⟨v, w, hvalue.trans hv, ?_, hsame⟩
    rw [value?, (hs.slotOf?_eq _).trans hsource, Option.bind_some]
    exact hw
  · obtain ⟨pointer, index, hv, hdenotes⟩ :=
      hfrom.copies_function hstems.records hsteady hn hslot hunique hkind ((hs.active? _).symm.trans hoff)
    exact query_function ((hs.slotOf?_eq target').trans hslot) hv (hx ▸ hdenotes)

/-- A program that calls `w` before it assigns it, and copies `w` and another variable. -/
def copying : List Statement :=
  [.assign "y" (.call "w" []), .assign "w" (.int 6), .assign "x" (.int 5), .assign "z" (.name "x"),
    .assign "v" (.name "w")]

/-- The copy of the other variable holds what the variable holds, and the copy of `w` shows a function. -/
theorem copied_called :
    let s := ({ options := { interpreterMode := true } } : Session).run
      [.updateCode (Statement.renderAll copying)]
    (∃ v w, s.value? "z" = some v ∧ s.value? "x" = some w ∧ s.memory.heap.same v w = true) ∧
      s.query (.named "v") = some (.function "w") := by
  intro s
  have hsource : ({ options := { interpreterMode := true } } : Session).source
      [.updateCode (Statement.renderAll copying)] = copying :=
    source_renderAll rfl (by decide +kernel) (by decide +kernel) rfl (by decide +kernel) (by decide +kernel)
  have hrun : ({ options := { interpreterMode := true } } : Session).Unfaulted
      [.updateCode (Statement.renderAll copying)] := unfaulted_cons (by decide +kernel) trivial
  obtain ⟨g, hg⟩ : ∃ g, s.executable.graph? = some g := Option.isSome_iff_exists.1 (by decide +kernel)
  have hnode : ∀ i ∈ [3, 4], ∃ n ∈ g.activeNodes, n.id = i ∧ n.defines = some (.global n.id) ∧
      g.writersOf (.global n.id) = [n.id] := fun i hi => by
    have hnodes : ∀ i ∈ [3, 4], s.executable.graph?.any (fun g => g.activeNodes.any fun n => n.id = i ∧
        n.defines = some (.global n.id) ∧ g.writersOf (.global n.id) = [n.id]) = true := by
      decide +kernel
    simpa [hg] using hnodes i hi
  have hcopied := copied { interpreterMode := true } _ hrun g hg
  rw [hsource] at hcopied
  refine ⟨?_, ?_⟩
  · obtain ⟨n, hn, hid, hkey, hwriters⟩ := hnode 3 (by decide)
    have hplace : AssignedAt copying (copying.take 4) n.id "z" (.name "x") :=
      ⟨List.take_prefix .., copying.take 3, rfl, hid.symm⟩
    exact (hcopied n _ hn hkey hwriters _ _ _ hplace (by decide)).1 (by decide +kernel)
  · obtain ⟨n, hn, hid, hkey, hwriters⟩ := hnode 4 (by decide)
    have hplace : AssignedAt copying (copying.take 5) n.id "v" (.name "w") :=
      ⟨List.take_prefix .., copying.take 4, rfl, hid.symm⟩
    exact (hcopied n _ hn hkey hwriters _ _ _ hplace (by decide)).2 (by decide +kernel) (by decide +kernel)

end Session

end Reflow
