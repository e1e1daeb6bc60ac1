import Reflow.Proofs.Json.Decoding
import Reflow.Session.Event
/-!
# Events in exchange

An event that is written and read again comes back as it was, with all that it holds, unless it tells that a
node has the value null: the value null and the absence of a value are both written as null, and what is
read is the absence. Doubles are left aside, since a text shows infinities and NaN as null too.

## Main definitions

* `Json.Survives`: what is read again as it was written.
* `Snapshot.IsExact`: values without doubles.
* `Event.Fits`: events whose values are exact and whose numbers fit the words of the machine.
* `Event.restored`: an event as it comes back.

## Main results

* `Event.ofJson?_toJson`: what comes back from an event, and which events come back as they were.
-/

namespace Reflow

/-! ### Parts of a value -/

namespace Json

variable {α : Type} {encode : α → Json} {decode : Json → Option α}

/-- What is written is readable, and what is read from it is what was written. -/
structure Survives (encode : α → Json) (decode : Json → Option α) (a : α) : Prop where
  readable : (encode a).readable = true
  decoded : decode (encode a) = some a

theorem allReadable_eq_true {js : List Json} : allReadable js = true ↔ ∀ j ∈ js, j.readable = true := by
  induction js with
  | nil => simp [allReadable]
  | cons j js ih => simp [allReadable, ih]

theorem survives_str (s : String) : Survives str text? s := ⟨rfl, rfl⟩

theorem survives_nat {n bound : Nat} (h : n < bound) : Survives nat (natBelow? bound) n := by
  refine ⟨rfl, ?_⟩
  simp [nat, natBelow?, h]

theorem survives_count {n : Nat} (h : n < UInt64.size) : Survives nat nat? n := survives_nat h

/-- A list survives if its items do. -/
theorem Survives.list {as : List α} (h : ∀ a ∈ as, Survives encode decode a) :
    Survives (fun as => arr (as.map encode)) (list? decode) as := by
  refine ⟨?_, ?_⟩
  · rw [Json.readable, allReadable_eq_true]
    intro j hj
    obtain ⟨a, ha, rfl⟩ := List.mem_map.1 hj
    exact (h a ha).readable
  · exact list?_map fun a ha => (h a ha).decoded

/-- An optional part survives, unless it is there and written as null. -/
theorem Survives.option {o : Option α} (h : ∀ a ∈ o, Survives encode decode a ∧ encode a ≠ null) :
    Survives (Json.option encode) (nullable? decode) o := by
  cases o with
  | none => exact ⟨rfl, rfl⟩
  | some a =>
    obtain ⟨⟨hreadable, hdecoded⟩, hnull⟩ := h a rfl
    refine ⟨hreadable, ?_⟩
    rw [Json.option, nullable?, hdecoded]
    · rfl
    · exact hnull

theorem survives_strs (items : List String) : Survives strs (list? text?) items :=
  .list fun s _ => survives_str s

end Json

open Json

/-! ### Values -/

namespace Snapshot

mutual

/-- The value holds no double. -/
def IsExact : Snapshot → Prop
  | double _ => False
  | array items => AreExact items
  | _ => True

/-- The values hold no double. -/
def AreExact : List Snapshot → Prop
  | [] => True
  | s :: rest => IsExact s ∧ AreExact rest

end

theorem functionName?_name (name : String) :
    functionName? [("function", .str name)] = some name := by
  rw [functionName?, record?_obj (by rfl) (by decide)]
  rfl

mutual

theorem survives : (s : Snapshot) → s.IsExact → Survives toJson ofJson? s
  | null, _ | bool _, _ | str _, _ => ⟨rfl, rfl⟩
  | int n, _ => by
    refine ⟨rfl, ?_⟩
    rw [toJson, ofJson?, Json.int64?, fit?_eq_some_iff.2 rfl]
  | array items, h => by
    obtain ⟨hreadable, hdecoded⟩ := survivesAll items h
    refine ⟨hreadable, ?_⟩
    rw [toJson, ofJson?, hdecoded]
    rfl
  | function name, _ => by
    refine ⟨rfl, ?_⟩
    rw [toJson, ofJson?, functionName?_name]
    rfl

theorem survivesAll : (ss : List Snapshot) → AreExact ss →
    allReadable (toJsonAll ss) = true ∧ ofJsonAll? (toJsonAll ss) = some ss
  | [], _ => ⟨rfl, rfl⟩
  | s :: rest, h => by
    obtain ⟨hreadable, hdecoded⟩ := survives s h.1
    obtain ⟨hrestReadable, hrest⟩ := survivesAll rest h.2
    refine ⟨?_, ?_⟩
    · rw [toJsonAll, allReadable, hreadable, hrestReadable]
      rfl
    · rw [toJsonAll, ofJsonAll?, hdecoded, hrest]
      rfl

end

end Snapshot

/-! ### References, statuses and reports -/

theorem SubtreeId.survives (id : SubtreeId) : Survives SubtreeId.toJson SubtreeId.ofJson? id := by
  refine ⟨rfl, ?_⟩
  rw [SubtreeId.toJson, SubtreeId.ofJson?, text?, Option.bind_some, read?_text]

theorem EventStatus.survives (status : EventStatus) : Survives (fun s => .str s.name) ofJson? status := by
  cases status <;> exact ⟨rfl, rfl⟩

/-- The number of a node has 32 bits. -/
def NodeRef.Fits : NodeRef → Prop
  | uid number => number < UInt32.size
  | _ => True

theorem NodeRef.survives_uid {number : Nat} (h : number < UInt32.size) : Survives nat uid? number :=
  survives_nat h

theorem NodeRef.ofJson?_uid (j : Json) : ofJson? (.tagged "uid" j) = (uid? j).map uid := by
  rw [Option.map_eq_bind]
  rfl

theorem NodeRef.survives {node : NodeRef} (h : node.Fits) : Survives toJson ofJson? node := by
  cases node with
  | named name => exact ⟨rfl, rfl⟩
  | uid number =>
    refine ⟨rfl, ?_⟩
    rw [toJson, ofJson?_uid, (survives_uid h).decoded]
    rfl
  | subtree id =>
    refine ⟨id.survives.readable, ?_⟩
    simp [toJson, ofJson?, Json.tagged, choice?, Choice.carrying?, id.survives.decoded]

/-- A changed variable that is given with all its fields in their order. -/
theorem ModifiedNode.ofJson?_obj (name subtree uid : Json) :
    ofJson? (.obj [("variable", name), ("subtree", subtree), ("uid", uid)]) = do
      return ⟨← text? name, ← nullable? SubtreeId.ofJson? subtree, ← nullable? NodeRef.uid? uid⟩ := by
  rw [ofJson?, record?_obj (by rfl) (by decide)]
  rfl

theorem ModifiedNode.survives {n : ModifiedNode} (h : ∀ uid ∈ n.uid, uid < UInt32.size) :
    Survives toJson ofJson? n := by
  have hsubtree := Survives.option (o := n.subtree) fun id _ => ⟨id.survives, fun h => by cases h⟩
  have huid := Survives.option (o := n.uid) fun uid huid =>
    ⟨NodeRef.survives_uid (h uid huid), fun h => by cases h⟩
  refine ⟨?_, ?_⟩
  · simp [toJson, readable, allFieldsReadable, hsubtree.readable, huid.readable]
  · rw [toJson, ofJson?_obj, hsubtree.decoded, huid.decoded]
    rfl

/-- The numbers of nodes have 32 bits, counts have 64. -/
structure Report.Fits (r : Report) : Prop where
  uids : ∀ n ∈ r.modifiedNodes, ∀ uid ∈ n.uid, uid < UInt32.size
  executed : r.executed < UInt64.size
  globalCount : r.globalCount < UInt64.size

/-- A report that is given with all its fields in their order. -/
theorem Report.ofJson?_obj (symbols nodes warnings executed count : Json) :
    ofJson? (.obj [("modified_symbols", symbols), ("modified_nodes", nodes), ("warnings", warnings),
      ("executed", executed), ("global_count", count)]) = do
        return ⟨← list? text? symbols, ← list? ModifiedNode.ofJson? nodes, ← list? text? warnings,
          ← nat? executed, ← nat? count⟩ := by
  rw [ofJson?, record?_obj (by rfl) (by decide)]
  rfl

theorem Report.survives {r : Report} (h : r.Fits) : Survives toJson ofJson? r := by
  have hnodes := Survives.list fun n hn => ModifiedNode.survives (h.uids n hn)
  refine ⟨?_, ?_⟩
  · have hreadable : allReadable (r.modifiedNodes.map ModifiedNode.toJson) = true := hnodes.readable
    simp [toJson, readable, allFieldsReadable, (survives_strs _).readable, hreadable, Json.nat]
  · rw [toJson, ofJson?_obj, (survives_strs _).decoded, hnodes.decoded, (survives_strs _).decoded,
      (survives_count h.executed).decoded, (survives_count h.globalCount).decoded]
    rfl

/-! ### Events -/

namespace Event

/-- The event tells of values without doubles, and its numbers fit the words of the machine. -/
def Fits : Event → Prop
  | nodeValueReady node value _ _ => node.Fits ∧ ∀ v ∈ value, v.IsExact
  | graphUpdateReady report _ _ => ∀ r ∈ report, r.Fits
  | nodesToCodeCompleted _ _ _ => True

/-- The event as it comes back: the value null is taken for the absence of a value. -/
def restored : Event → Event
  | nodeValueReady node value status message =>
    nodeValueReady node (value.filter (!·.isNull)) status message
  | e => e

/-- The fields of an event behind its kind. -/
theorem parts?_obj {kind : String} {fields : List (String × Json)}
    (h : fields.all (·.1 != "event") = true) :
    parts? (.obj (("event", .str kind) :: fields)) = some (kind, .obj fields) := by
  have hfilter : fields.filter (·.1 == "event") = [] := by
    refine List.filter_eq_nil_iff.2 fun field hfield => ?_
    simpa using List.all_eq_true.1 h field hfield
  have hrest : fields.filter (fun field => !(field.1 == "event")) = fields :=
    List.filter_eq_self.2 (List.all_eq_true.1 h)
  rw [parts?, List.partition_eq_filter_filter]
  simp only [List.filter_cons, beq_self_eq_true, if_true, Bool.not_true, Bool.false_eq_true, if_false,
    hfilter, Function.comp_def, hrest]
  rfl

theorem ofJson?_nodeValueReady {node value status message : Json} (hnode : node.readable = true)
    (hvalue : value.readable = true) (hstatus : status.readable = true)
    (hmessage : message.readable = true) :
    ofJson? (.obj [("event", .str "node_value_ready"), ("node", node), ("value", value),
      ("status", status), ("message", message)]) = do
        return nodeValueReady (← NodeRef.ofJson? node) (← nullable? Snapshot.ofJson? value)
          (← EventStatus.ofJson? status) (← nullable? text? message) := by
  have hreadable : (obj [("node", node), ("value", value), ("status", status),
      ("message", message)]).readable = true := by
    simp [readable, allFieldsReadable, hnode, hvalue, hstatus, hmessage]
  rw [ofJson?, parts?_obj (by simp)]
  change (if !(obj _).readable then none else _) = _
  rw [hreadable]
  change (do
    let r ← record? ["node", "value", "status", "message"] (obj _)
    _) = _
  rw [record?_obj (by rfl) (by decide)]
  rfl

theorem ofJson?_graphUpdateReady {report status messages : Json} (hreport : report.readable = true)
    (hstatus : status.readable = true) (hmessages : messages.readable = true) :
    ofJson? (.obj [("event", .str "graph_update_ready"), ("report", report), ("status", status),
      ("messages", messages)]) = do
        return graphUpdateReady (← nullable? Report.ofJson? report) (← EventStatus.ofJson? status)
          (← list? text? messages) := by
  have hreadable : (obj [("report", report), ("status", status), ("messages", messages)]).readable =
      true := by
    simp [readable, allFieldsReadable, hreport, hstatus, hmessages]
  rw [ofJson?, parts?_obj (by simp)]
  change (if !(obj _).readable then none else _) = _
  rw [hreadable]
  change (do
    let r ← record? ["report", "status", "messages"] (obj _)
    _) = _
  rw [record?_obj (by rfl) (by decide)]
  rfl

theorem ofJson?_nodesToCodeCompleted {subtrees code status : Json} (hsubtrees : subtrees.readable = true)
    (hcode : code.readable = true) (hstatus : status.readable = true) :
    ofJson? (.obj [("event", .str "nodes_to_code_completed"), ("subtrees", subtrees), ("code", code),
      ("status", status)]) = do
        return nodesToCodeCompleted (← list? SubtreeId.ofJson? subtrees) (← text? code)
          (← EventStatus.ofJson? status) := by
  have hreadable : (obj [("subtrees", subtrees), ("code", code), ("status", status)]).readable =
      true := by
    simp [readable, allFieldsReadable, hsubtrees, hcode, hstatus]
  rw [ofJson?, parts?_obj (by simp)]
  change (if !(obj _).readable then none else _) = _
  rw [hreadable]
  change (do
    let r ← record? ["subtrees", "code", "status"] (obj _)
    _) = _
  rw [record?_obj (by rfl) (by decide)]
  rfl

/-- A value comes back, unless it is null. -/
theorem survives_value {value : Option Snapshot} (h : ∀ v ∈ value, v.IsExact) :
    (Json.option Snapshot.toJson value).readable = true ∧
      nullable? Snapshot.ofJson? (.option Snapshot.toJson value) = some (value.filter (!·.isNull)) := by
  by_cases hnull : value = some .null
  · rw [hnull]
    exact ⟨rfl, rfl⟩
  · have hvalue := Survives.option (o := value) fun v hv => ⟨v.survives (h v hv), fun heq => by
      cases v with
      | null => exact hnull hv
      | _ => cases heq⟩
    refine ⟨hvalue.readable, hvalue.decoded.trans (congrArg some ?_)⟩
    cases value with
    | none => rfl
    | some v =>
      cases v with
      | null => exact absurd rfl hnull
      | _ => rfl

/-- An event comes back as it was, except that the value null comes back as the absence of a value. The
events that come back as they were are therefore those that tell of no value null. -/
theorem ofJson?_toJson {e : Event} (h : e.Fits) :
    ofJson? e.toJson = some e.restored ∧ (ofJson? e.toJson = some e ↔
      ∀ node status message, e ≠ nodeValueReady node (some .null) status message) := by
  have hrestored : ofJson? e.toJson = some e.restored := by
    cases e with
    | nodeValueReady node value status message =>
      have hvalue := survives_value h.2
      have hnode := NodeRef.survives h.1
      have hmessage := Survives.option (o := message) fun s _ => ⟨survives_str s, fun h => by cases h⟩
      rw [toJson, ofJson?_nodeValueReady hnode.readable hvalue.1 status.survives.readable
        hmessage.readable, hnode.decoded, hvalue.2, status.survives.decoded, hmessage.decoded]
      rfl
    | graphUpdateReady report status messages =>
      have hreport := Survives.option (o := report) fun r hr =>
        ⟨Report.survives (h r hr), fun h => by cases h⟩
      have hmessages := survives_strs messages
      rw [toJson, ofJson?_graphUpdateReady hreport.readable status.survives.readable
        hmessages.readable, hreport.decoded, status.survives.decoded, hmessages.decoded]
      rfl
    | nodesToCodeCompleted subtrees code status =>
      have hsubtrees := Survives.list fun (id : SubtreeId) (_ : id ∈ subtrees) => id.survives
      rw [toJson, ofJson?_nodesToCodeCompleted hsubtrees.readable (survives_str code).readable
        status.survives.readable, hsubtrees.decoded, (survives_str code).decoded,
        status.survives.decoded]
      rfl
  refine ⟨hrestored, ?_⟩
  rw [hrestored, Option.some.injEq]
  constructor
  · rintro heq node status message rfl
    cases heq
  · intro hnull
    cases e with
    | nodeValueReady node value status message =>
      cases value with
      | none => rfl
      | some v =>
        cases v with
        | null => exact absurd rfl (hnull node status message)
        | _ => rfl
    | _ => rfl

/-- A null inside an array comes back, a null by itself does not. -/
theorem ofJson?_toJson_null :
    let answer := fun v : Snapshot => nodeValueReady (.named "a") (some v) .ok none
    let nested := answer (.array [.null, .function "f"])
    (nested.Fits ∧ ofJson? nested.toJson = some nested) ∧
      (answer .null).Fits ∧
        ofJson? (answer .null).toJson = some (nodeValueReady (.named "a") none .ok none) := by
  intro answer nested
  have hnested : nested.Fits := ⟨trivial, by rintro v ⟨⟩; exact ⟨trivial, trivial, trivial⟩⟩
  have hnull : (answer .null).Fits := ⟨trivial, by rintro v ⟨⟩; exact trivial⟩
  exact ⟨⟨hnested, (ofJson?_toJson hnested).2.2 fun _ _ _ h => by simp [nested, answer] at h⟩,
    hnull, (ofJson?_toJson hnull).1⟩

end Event

end Reflow
