import GraphHarbor.Protocol
import GraphHarbor.Effects
import GraphHarbor.Kit.Dict
import GraphHarbor.Kit.PyStr
import GraphHarbor.Kit.Stored

/-!
# Live and replayed frames of a run stream

`_event_frame` of `streaming.py` makes a frame of an envelope: of the message that the fan-out
delivers while the run goes on, or of the stored row when a client comes back. The payload of
that row was kept in a JSONB column. Both go through `project_v3_event` of `protocol.py`.
-/

namespace GraphHarbor

open Kit

/-! ## `project_v3_event` -/

/-- `int(value)`; `none` for a `TypeError` or a `ValueError`. -/
def intOf : Json → Option Int
  | .num n => some n
  | .float x => some x.trunc
  | .bool b => some (if b then 1 else 0)
  | .str text => PyStr.int (PyStr.ofString text)
  | .null | .arr _ | .obj _ => none

/-- `int(str(value))`. -/
def intOfStr : Json → Option Int
  | .num n =>
      if (Nat.toDigits 10 n.natAbs).length ≤ PyStr.maxStrDigits then some n else none
  | value => PyStr.int (PyStr.ofString value.pyStr)

/-- The typed envelope; its interrupts and its sequence are fields only if there are some. -/
structure Projected where
  method : String
  «namespace» : List String
  timestamp : Int
  data : Json
  interrupts : Option Json
  seq : Option Int
  deriving DecidableEq, Repr

def Projected.params (p : Projected) : Dict :=
  [("namespace", .arr (p.namespace.map .str)), ("timestamp", .num p.timestamp),
    ("data", p.data)] ++ p.interrupts.toList.map fun interrupts => ("interrupts", interrupts)

/-- The envelope as the dictionary it is. -/
def Projected.dict (p : Projected) : Dict :=
  [("method", .str p.method), ("params", .obj p.params)] ++
    p.seq.toList.map fun seq => ("seq", .num seq)

namespace Event

variable (event : Dict)

def params : Dict := ((event.get? "params").bind Json.dict?).getD []

/-- `params.get(key, event.get(key))`. -/
def field (key : String) : Option Json := ((params event).get? key).or (event.get? key)

def name : Json :=
  firstTruthy [event.get? "method", event.get? "event", (params event).get? "method",
    some (.str "custom")]

def method : String := (name event).pyStr

def namespaceOr (fallback : List String) : List String :=
  match field event "namespace" with
  | none => fallback
  | some (.arr items) => items.map Json.pyStr
  | some _ => []

/-- The timestamp of the event, if it reads as a number. -/
def timestamp : Option Int := (field event "timestamp").bind intOfStr

/-- The data of a lifecycle event that has none but a status. -/
def statusData : Dict :=
  let status := Json.strOrEmpty (event.get? "status")
  [("event", .str (lifecyclePhase status)), ("status", .str status)] ++
    ["graph_name", "cause", "reason", "output", "error", "interrupts"].filterMap fun key =>
      (event.get? key).map fun value => (key, value)

/-- The data is made of the status. -/
def DataOfStatus : Prop :=
  method event = "lifecycle" ∧ (field event "data").getD .null = .null ∧
    (event.get? "status").any Json.truthy = true

instance : Decidable (DataOfStatus event) :=
  inferInstanceAs (Decidable (_ ∧ _))

def data : Json :=
  if DataOfStatus event then .obj (statusData event) else (field event "data").getD .null

/-- The method of the projection. -/
def typedMethod : String :=
  if method event = "input.requested" then "input" else method event

end Event

/-- `{"event": "requested", **data}`, unless there is an event. -/
def requestedData : Json → Json
  | .obj fields =>
      if Dict.contains fields "event" then .obj fields
      else .obj (("event", .str "requested") :: fields)
  | data => data

/-- `project_v3_event` at the time `now`. -/
def projectV3Event (now : Nat) (sequence : Option Int) (fallbackNamespace : List String)
    (event : Dict) : Projected where
  method := Event.typedMethod event
  «namespace» := Event.namespaceOr event fallbackNamespace
  timestamp := (Event.timestamp event).getD now
  data :=
    if Event.method event = "input.requested" then requestedData (Event.data event)
    else Event.data event
  interrupts := (Event.field event "interrupts").filter Json.truthy
  seq := sequence.or ((event.get? "seq").bind intOf)

/-! ## `_event_frame` -/

/-- A frame: its name, its data and its id. -/
structure EventFrame where
  event : String
  data : Json
  sequence : Int
  deriving DecidableEq, Repr

/-- A lifecycle event announces a scope in its data. -/
def Projected.target (typed : Projected) : Option Json :=
  if typed.method = "lifecycle" then typed.data.dict?.bind fun data => data.get? "namespace"
  else none

/-- The event belongs to a subgraph. -/
def Projected.nested (typed : Projected) : Bool :=
  !typed.namespace.isEmpty || typed.target.any Json.truthy

/-- `event.get("error") or {}`, as a dictionary. -/
def errorOf (event : Dict) : Dict :=
  match event.get? "error" with
  | none => []
  | some error =>
      if error.truthy then (error.dict?).getD [("message", .str error.pyStr)] else []

/-- The data of an error frame. -/
def errorData (event : Dict) : Json :=
  .obj [("error", ((errorOf event).get? "type").getD (.str "Error")),
    ("message", ((errorOf event).get? "message").getD (.str ""))]

/-- A value that cannot be looked up in a set. -/
def unhashable : Json → Bool
  | .arr _ | .obj _ => true
  | _ => false

/-- The status is that of a run that ended with an error. -/
def Event.Failed (event : Dict) : Prop :=
  event.get? "status" = some (.str RunStatus.error.value) ∨
    event.get? "status" = some (.str RunStatus.timeout.value)

instance (event : Dict) : Decidable (Event.Failed event) := inferInstanceAs (Decidable (_ ∨ _))

/-- The error frame of a lifecycle event in version 2. A status that cannot be hashed raises. -/
def errorFrame (event : Dict) (sequence : Option Int) : Except String (Option EventFrame) :=
  if (event.get? "status").any unhashable then .error "unhashable type"
  else if Event.Failed event then
    .ok <| sequence.map fun sequence => { event := "error", data := errorData event, sequence }
  else .ok none

/-- The data with the interrupts, which are a field of an object. -/
def withInterrupts (interrupts : Json) : Json → Json
  | .obj data => .obj (Dict.set data "__interrupt__" interrupts)
  | data => .obj [("value", data), ("__interrupt__", interrupts)]

/-- The data of a frame: values carry the interrupts. -/
def Projected.frameData (typed : Projected) (event : Dict) : Json :=
  let interrupts := firstTruthy [typed.interrupts, event.get? "interrupts", some (.arr [])]
  if typed.method = "values" ∧ interrupts.truthy then withInterrupts interrupts typed.data
  else typed.data

/-- `_event_frame` after the projection. `sequence` is `int(envelope["seq"])`. -/
def typedFrame (modes : List String) (streamSubgraphs : Bool) (version : String) (event : Dict)
    (sequence : Option Int) (typed : Projected) : Except String (Option EventFrame) :=
  if typed.nested ∧ ¬ streamSubgraphs then .ok none
  else if typed.method = "lifecycle" ∧ version ≠ "v3" then errorFrame event sequence
  else if version ≠ "v3" ∧ typed.method ∉ modes ∧ "events" ∉ modes ∧ "debug" ∉ modes then
    .ok none
  else .ok <| sequence.map fun sequence =>
    if version = "v3" then
      { event := typed.method
        data := .obj { typed with seq := some sequence }.dict
        sequence }
    else
      { event := "|".intercalate (typed.method :: typed.namespace)
        data := typed.frameData event
        sequence }

/-- `int(envelope.get("seq", 0) or 0)`; `none` when it raises. -/
def startSequence (envelope : Dict) : Option Int :=
  if (envelope.get? "seq").any Json.truthy then (envelope.get? "seq").bind intOf else some 0

/-- `_event_frame` at the time `now`. -/
def eventFrame (now : Nat) (modes : List String) (streamSubgraphs : Bool) (version : String)
    (envelope : Dict) : Except String (Option EventFrame) :=
  match envelope.get? "event" with
  | some (.obj event) =>
      match startSequence envelope, strItems (envelope.get? "namespace") with
      | some sequence, some fallback =>
          typedFrame modes streamSubgraphs version event ((envelope.get? "seq").bind intOf)
            (projectV3Event now (some sequence) fallback event)
      | _, _ => .error "invalid envelope"
  | _ => .ok none

/-! ## Envelopes -/

/-- `str(id)`, if there is one. -/
def idText (id : Option Nat) : Json := (id.map fun id => Json.str (toString id)).getD .null

/-- The fields that all envelopes have. -/
def RuntimeEventRow.envelope (row : RuntimeEventRow) (eventId : String) : Dict :=
  [("id", .str eventId), ("seq", .num row.sequence), ("run_id", idText row.runId),
    ("thread_id", idText row.threadId), ("event", .obj row.payload)]

/-- The run message of `_durable_messages`, after a stream read it: JSON gives the payload back. -/
def durableMessage (eventId : String) (row : RuntimeEventRow) : Dict := row.envelope eventId

/-- The run message of `_fanout_durable_event` of `core_api.py`. -/
def fanoutMessage (eventId : String) (row : RuntimeEventRow) : Dict := row.envelope eventId

/-- `_event_envelope`. -/
def eventEnvelope (eventId : String) (row : RuntimeEventRow) : Dict :=
  row.envelope eventId ++ [("namespace", .arr (row.namespace.map .str))]

/-- The row as it is loaded: a JSONB column kept its payload. -/
def RuntimeEventRow.reloaded (row : RuntimeEventRow) : RuntimeEventRow :=
  { row with payload := Json.storedFields row.payload }

/-! ## What is recorded -/

/-- The data of a lifecycle event of a graph gets the name that is known for its scope. -/
def nameScope (known : Option String) (params : Dict) : Dict :=
  match params.get? "data", known with
  | some (.obj data), some name =>
      match Dict.get? data "graph_name" with
      | some (.str _) => params
      | _ => params.set "data" (.obj (Dict.set data "graph_name" (.str name)))
  | _, _ => params

/-- The scope that a lifecycle event announces in its data, which has to be an object. -/
def announcedScope (method data : Json) : Option (Option Json) :=
  if method = .str "lifecycle" then data.dict?.map fun data => data.get? "namespace"
  else some none

/-- What `invoke_graph` makes of a part of the native stream, where `known` is the entry of
`scope_names` for its scope; `none` for a part that is left out or raises. -/
def graphEvent (known : Option String) (part : Dict) : Option Dict := do
  let method ← part.get? "method"
  let native ← (part.get? "params").bind Json.dict?
  let params := if method = .str "lifecycle" then nameScope known native else native
  let data ← params.get? "data"
  let ns ← params.get? "namespace"
  let scope ← announcedScope method data
  if method = .str "lifecycle" ∧ ¬ ns.truthy ∧ ¬ scope.any Json.truthy then none
  else
    let event := ((part.set "params" (.obj params)).set "event" method).set "data" data
    some ((event.set "namespace" ns).set "interrupts"
      ((params.get? "interrupts").getD (.arr [])))

/-- `list(event.get("namespace") or event.get("parent_ids") or [])`, its items as text; `none` for
a value that cannot be iterated. -/
def eventNamespace (event : Dict) : Option (List String) :=
  strItems (some (firstTruthy [event.get? "namespace", event.get? "parent_ids", some (.arr [])]))

/-- The arguments of `record_event` for an event of `_publish_events`. -/
def publishedEvent (event : Dict) : Option PublishedEvent :=
  (eventNamespace event).map fun ns =>
    { topic := ((event.get? "event").getD (.str "custom")).pyStr
      payload := event
      «namespace» := ns }

/-- The events that are recorded for a run. -/
inductive Recorded : PublishedEvent → Prop
  | graph {known : Option String} {part event : Dict} {e : PublishedEvent} :
      graphEvent known part = some event → publishedEvent event = some e → Recorded e
  | running : Recorded
      { topic := "lifecycle"
        payload := [("event", .str "lifecycle"), ("status", .str RunStatus.running.value)] }
  | lifecycle (status : RunStatus) (reason : RunReason) :
      Recorded { topic := "lifecycle", payload := GraphHarbor.lifecycle status reason }
  | returned (out : GraphOutput) : Recorded { topic := "lifecycle", payload := out.payload }
  | failed (status : RunStatus) (reason : RunReason) (type message : String) :
      Recorded { topic := "lifecycle", payload := failurePayload status reason type message }
  | requested (i : Interrupt) :
      Recorded
        { topic := i.requested.1
          payload := i.requested.2.1
          «namespace» := i.requested.2.2 }

/-- A row in which `record_event` stores the event, with the name of its graph or without. -/
def PublishedEvent.StoredIn (e : PublishedEvent) (row : RuntimeEventRow) : Prop :=
  ∃ now runId threadId sequence terminal payload,
    (payload = e.payload ∨ ∃ name, payload = e.payload.set "graph_name" (.str name)) ∧
      row = eventRow now runId threadId sequence e.topic payload e.namespace terminal

/-! ## The projection at two times -/

section

variable {event : Dict} {fallback fallback' : List String} {now now' : Nat}
  {sequence sequence' : Option Int}

/-- The fallback is not read if the event has a namespace. -/
theorem projectV3Event_fallback (h : (Event.field event "namespace").isSome) :
    projectV3Event now sequence fallback event = projectV3Event now sequence fallback' event := by
  have hnamespace : Event.namespaceOr event fallback = Event.namespaceOr event fallback' := by
    unfold Event.namespaceOr
    cases hfield : Event.field event "namespace" with
    | none =>
        rw [hfield] at h
        exact nomatch h
    | some value => cases value <;> rfl
  unfold projectV3Event
  rw [hnamespace]

/-- Only the timestamp depends on the time. -/
theorem projectV3Event_now (now now' : Nat) : projectV3Event now' sequence fallback event =
    { projectV3Event now sequence fallback event with
      timestamp := (Event.timestamp event).getD now' } := rfl

end

/-! ## Projecting twice -/

theorem truthy_firstTruthy (a b c : Option Json) :
    (firstTruthy [a, b, c, some (.str "custom")]).truthy = true := by
  have hstep (value : Option Json) (rest : Json) (h : rest.truthy = true) :
      (if value.any Json.truthy then value.getD .null else rest).truthy = true := by
    split
    next hvalue =>
      cases value with
      | none => exact nomatch hvalue
      | some v => exact hvalue
    next => exact h
  unfold firstTruthy
  exact hstep a _ (hstep b _ (hstep c _ rfl))

theorem ne_empty_of_opens {text : String} (h : Json.opens text = true) : text ≠ "" := by
  rintro rfl
  exact absurd h (by decide)

theorem pyStr_ne_empty {v : Json} (h : v.truthy = true) : v.pyStr ≠ "" := by
  cases v with
  | null => exact nomatch h
  | bool b =>
      cases b with
      | true => decide
      | false => exact nomatch h
  | num n => exact ne_empty_of_opens (Json.opens_toString n)
  | float x => exact ne_empty_of_opens (Json.opens_repr x)
  | str s => exact of_decide_eq_true h
  | arr items => exact ne_empty_of_opens (Json.opens_arr items)
  | obj fields => exact ne_empty_of_opens (Json.opens_obj fields)

theorem intOfStr_length {v : Json} {n : Int} (h : intOfStr v = some n) :
    (Nat.toDigits 10 n.natAbs).length ≤ PyStr.maxStrDigits := by
  unfold intOfStr at h
  split at h
  · obtain ⟨hlength, heq⟩ := Option.ite_none_right_eq_some.1 h
    obtain rfl := Option.some.inj heq
    exact hlength
  · exact PyStr.int_length h

/-- What a projection returns. -/
structure Projected.Normal (p : Projected) : Prop where
  method : p.method ≠ "" ∧ p.method ≠ "input.requested"
  timestamp : (Nat.toDigits 10 p.timestamp.natAbs).length ≤ PyStr.maxStrDigits
  interrupts : p.interrupts.all Json.truthy = true

theorem projectV3Event_normal {event : Dict} {fallback : List String} {now : Nat}
    {sequence : Option Int} (hnow : (Event.timestamp event).isSome ∨
      (Nat.toDigits 10 now).length ≤ PyStr.maxStrDigits) :
    (projectV3Event now sequence fallback event).Normal where
  method := by
    show (if _ then _ else _) ≠ _ ∧ (if _ then _ else _) ≠ _
    by_cases hinput : Event.method event = "input.requested"
    · rw [if_pos hinput]
      decide
    · rw [if_neg hinput]
      exact ⟨pyStr_ne_empty (truthy_firstTruthy ..), hinput⟩
  timestamp := by
    show (Nat.toDigits 10 ((Event.timestamp event).getD now).natAbs).length ≤ _
    cases htime : Event.timestamp event with
    | none =>
        rw [htime] at hnow
        exact hnow.resolve_left nofun
    | some n =>
        obtain ⟨v, -, hv⟩ := Option.bind_eq_some_iff.1 htime
        exact intOfStr_length hv
  interrupts := by
    show ((Event.field event "interrupts").filter Json.truthy).all Json.truthy = true
    cases hfield : Event.field event "interrupts" with
    | none => rfl
    | some v =>
        by_cases hv : v.truthy = true
        · rw [Option.filter_some_pos hv]
          exact hv
        · rw [Option.filter_some_neg (by simpa using hv)]
          rfl

namespace Projected

variable (p : Projected)

theorem dict_params : Event.params p.dict = p.params := rfl

theorem params_interrupts : p.params.get? "interrupts" = p.interrupts := by
  obtain ⟨m, ns, t, d, interrupts, seq⟩ := p
  cases interrupts <;> rfl

theorem dict_seq : p.dict.get? "seq" = p.seq.map .num := by
  obtain ⟨m, ns, t, d, interrupts, seq⟩ := p
  cases seq <;> rfl

theorem dict_get_none {key : String} (hmethod : key ≠ "method") (hparams : key ≠ "params")
    (hseq : key ≠ "seq") : p.dict.get? key = none := by
  obtain ⟨m, ns, t, d, interrupts, seq⟩ := p
  refine Dict.get?_eq_none fun hmem => ?_
  cases seq with
  | none =>
      simp only [dict, Option.toList_none, List.map_nil, List.append_nil, List.map_cons,
        List.mem_cons, List.not_mem_nil, or_false] at hmem
      exact hmem.elim hmethod hparams
  | some n =>
      simp only [dict, Option.toList_some, List.map_cons, List.map_nil, List.cons_append,
        List.nil_append, List.mem_cons, List.not_mem_nil, or_false] at hmem
      exact hmem.elim hmethod fun h => h.elim hparams hseq

variable {p}

theorem Normal.dict_method (hp : p.Normal) : Event.method p.dict = p.method := by
  have htruthy : (Json.str p.method).truthy = true := decide_eq_true hp.method.1
  show (if (Json.str p.method).truthy then Json.str p.method else _).pyStr = p.method
  rw [if_pos htruthy]
  rfl

theorem Normal.dict_typedMethod (hp : p.Normal) : Event.typedMethod p.dict = p.method := by
  unfold Event.typedMethod
  rw [hp.dict_method, if_neg hp.method.2]

theorem dict_data (p : Projected) : Event.data p.dict = p.data := by
  have hstatus : ¬ Event.DataOfStatus p.dict := by
    rintro ⟨-, -, hstatus⟩
    rw [dict_get_none p (by decide) (by decide) (by decide)] at hstatus
    exact nomatch hstatus
  exact if_neg hstatus

theorem dict_namespace (p : Projected) (fallback : List String) :
    Event.namespaceOr p.dict fallback = p.namespace := by
  show (p.namespace.map Json.str).map Json.pyStr = p.namespace
  rw [List.map_map]
  exact List.map_id _

theorem Normal.dict_timestamp (hp : p.Normal) : Event.timestamp p.dict = some p.timestamp :=
  if_pos hp.timestamp

theorem Normal.dict_interrupts (hp : p.Normal) :
    (Event.field p.dict "interrupts").filter Json.truthy = p.interrupts := by
  unfold Event.field
  rw [dict_params, params_interrupts, dict_get_none p (by decide) (by decide) (by decide),
    Option.or_none]
  have htruthy := hp.interrupts
  cases hinterrupts : p.interrupts with
  | none => rfl
  | some v =>
      rw [hinterrupts] at htruthy
      exact Option.filter_some_pos htruthy

end Projected

/-- To project what was projected changes nothing, with the same sequence or without one. -/
theorem projectV3Event_dict {p : Projected} (hp : p.Normal) {now : Nat} {sequence : Option Int}
    (hsequence : sequence = none ∨ sequence = p.seq) (fallback : List String) :
    projectV3Event now sequence fallback p.dict = p := by
  have hread : (p.dict.get? "seq").bind intOf = p.seq := by
    rw [p.dict_seq]
    cases p.seq <;> rfl
  have hseq : sequence.or ((p.dict.get? "seq").bind intOf) = p.seq := by
    rw [hread]
    rcases hsequence with rfl | rfl
    · rfl
    · exact Option.or_self
  unfold projectV3Event
  rw [hp.dict_typedMethod, hp.dict_method, p.dict_data, p.dict_namespace, hp.dict_timestamp,
    hp.dict_interrupts, hseq, if_neg hp.method.2]
  rfl

/-! ## What is recorded has a namespace, or none -/

theorem graphEvent_namespace {known : Option String} {part event : Dict}
    (h : graphEvent known part = some event) : (event.get? "namespace").isSome := by
  simp only [graphEvent, Option.bind_eq_bind, Option.bind_eq_some_iff] at h
  obtain ⟨method, -, native, -, data, -, ns, -, scope, -, h⟩ := h
  obtain ⟨-, heq⟩ := Option.ite_none_left_eq_some.1 h
  obtain rfl := Option.some.inj heq
  rw [Dict.get?_set_of_ne (by decide), Dict.get?_set_self]
  rfl

theorem PublishedEvent.StoredIn.namespace {e : PublishedEvent} {row : RuntimeEventRow}
    (h : e.StoredIn row) : row.namespace = e.namespace ∧
      row.payload.get? "namespace" = e.payload.get? "namespace" := by
  obtain ⟨now, runId, threadId, sequence, terminal, payload, hpayload, rfl⟩ := h
  refine ⟨rfl, ?_⟩
  show (payload.setDefault _ _).get? "namespace" = _
  rw [Dict.get?_setDefault_of_ne (by decide)]
  rcases hpayload with rfl | ⟨name, rfl⟩
  · rfl
  · exact Dict.get?_set_of_ne (by decide)

/-- A stored event has its own namespace, or its row has none. -/
theorem Recorded.namespace {e : PublishedEvent} {row : RuntimeEventRow} (h : Recorded e)
    (hrow : e.StoredIn row) :
    (Event.field row.payload "namespace").isSome ∨ row.namespace = [] := by
  obtain ⟨hnamespace, hpayload⟩ := hrow.namespace
  have hown (hsome : (e.payload.get? "namespace").isSome) :
      (Event.field row.payload "namespace").isSome := by
    unfold Event.field
    rw [hpayload, Option.isSome_or, hsome, Bool.or_true]
  rw [hnamespace]
  cases h with
  | graph hevent hpublished =>
      obtain ⟨ns, -, rfl⟩ := Option.map_eq_some_iff.1 hpublished
      exact .inl (hown (graphEvent_namespace hevent))
  | requested i => exact .inl (hown rfl)
  | running => exact .inr rfl
  | lifecycle status reason => exact .inr rfl
  | returned out => exact .inr rfl
  | failed status reason type message => exact .inr rfl

/-- What `record_event` returns is the terminal event that the run has, or stores the event. -/
theorem recordRunEvent_stores {avail : Lock → Bool} {now : Time} {v v' : Db} {id : RunId}
    {th : Option ThreadId} {e : PublishedEvent} {terminal : Bool} {row : RuntimeEventRow}
    (h : (recordRunEvent now id th e.topic e.payload e.namespace terminal).Returns avail v row v') :
    v.terminalEvent id = some row ∨ e.StoredIn row := by
  obtain ⟨run, -, ⟨-, hterminal, -⟩ | ⟨-, hrow, -⟩⟩ := recordRunEvent_returns h
  · exact .inl hterminal
  · refine .inr ⟨now, some id, run.threadId, v.nextSequence run, terminal, _, ?_, hrow⟩
    unfold Db.namedPayload
    split
    · exact .inr ⟨_, rfl⟩
    · exact .inl rfl

/-- The rows of a batch store its events. -/
theorem deltaRows_stores {now : Time} {id : RunId} {th : Option ThreadId} {n : Nat}
    {events : List PublishedEvent} (htopic : ∀ e ∈ events, e.topic = "messages")
    {row : RuntimeEventRow}
    (h : row ∈ deltaRows now id th n (events.map fun e => (e.payload, e.namespace))) :
    ∃ e ∈ events, e.StoredIn row := by
  induction events generalizing n with
  | nil => exact nomatch h
  | cons e events ih =>
      rcases List.mem_cons.1 h with hrow | hrest
      · refine ⟨e, List.mem_cons_self, now, some id, th, n + 1, false, e.payload, .inl rfl, ?_⟩
        rw [htopic e List.mem_cons_self]
        exact hrow
      · obtain ⟨e', he', hstored⟩ :=
          ih (fun e' he' => htopic e' (List.mem_cons_of_mem e he')) hrest
        exact ⟨e', List.mem_cons_of_mem e he', hstored⟩

/-! ## The event after it was stored -/

theorem firstTruthy_stored (values : List (Option Json)) :
    firstTruthy (values.map (Option.map Json.stored)) = (firstTruthy values).stored := by
  have hgetD (value : Option Json) :
      (value.map Json.stored).getD .null = (value.getD .null).stored := by
    cases value <;> rfl
  induction values with
  | nil => rfl
  | cons value values ih =>
      cases values with
      -- the last value is taken whether it is truthy or not
      | nil => exact hgetD value
      | cons next rest =>
          show (if (value.map Json.stored).any Json.truthy then
            (value.map Json.stored).getD .null else _) = _
          rw [Json.any_truthy_stored, hgetD, ih]
          exact (apply_ite Json.stored _ _ _).symm

/-- A value that reads as a number is a number or a text: storing it changes nothing. -/
theorem stored_of_intOfStr {v : Json} {n : Int} (h : intOfStr v = some n) : v.stored = v := by
  have hforeign {text : String} {c : Char} (hc : c ∈ text.toList)
      (hno : PyStr.foreign (PyStr.ofChar c) = true) : PyStr.int (PyStr.ofString text) = none :=
    PyStr.int_foreign (List.mem_map_of_mem hc) hno
  cases v with
  | null | bool | num | str => rfl
  | float x =>
      -- the text of a number that is no integer has a point or an exponent
      have hnone : PyStr.int (PyStr.ofString x.repr) = none := by
        rcases x.repr_marked with hpoint | hexponent
        · exact hforeign hpoint (by decide)
        · exact hforeign hexponent (by decide)
      exact absurd (h.symm.trans hnone) nofun
  | arr items =>
      -- a list starts with a bracket, which no integer has
      have hnone : PyStr.int (PyStr.ofString (Json.arr items).pyStr) = none :=
        hforeign (c := '[') (by simp [Json.pyStr, Json.pyRepr]) (by decide)
      exact absurd (h.symm.trans hnone) nofun
  | obj fields =>
      have hnone : PyStr.int (PyStr.ofString (Json.obj fields).pyStr) = none :=
        hforeign (c := '\x7b') (by simp [Json.pyStr, Json.pyRepr]) (by decide)
      exact absurd (h.symm.trans hnone) nofun

namespace Event

variable {event : Dict} {word : String}

theorem get?_stored (event : Dict) (key : String) :
    Dict.get? (Json.storedFields event) key = (event.get? key).map Json.stored :=
  Json.get?_storedFields

theorem params_stored (event : Dict) :
    params (Json.storedFields event) = Json.storedFields (params event) := by
  unfold params
  rw [get?_stored]
  cases event.get? "params" with
  | none => rfl
  | some v =>
      show v.stored.dict?.getD [] = Json.storedFields (v.dict?.getD [])
      rw [Json.dict?_stored]
      cases v.dict? <;> rfl

theorem field_stored (event : Dict) (key : String) :
    field (Json.storedFields event) key = (field event key).map Json.stored := by
  unfold field
  rw [params_stored, get?_stored, get?_stored, Option.map_or]

theorem name_stored (event : Dict) : name (Json.storedFields event) = (name event).stored := by
  unfold name
  rw [params_stored, get?_stored, get?_stored, get?_stored, ← firstTruthy_stored]
  rfl

theorem method_stored (h : Json.opens word = false) :
    method (Json.storedFields event) = word ↔ method event = word := by
  unfold method
  rw [name_stored]
  exact Json.pyStr_stored_word h

theorem typedMethod_stored_iff (event : Dict) :
    typedMethod (Json.storedFields event) = typedMethod event ↔ (name event).Steady := by
  have hinput : method (Json.storedFields event) = "input.requested" ↔
      method event = "input.requested" := method_stored (by decide)
  have hsteady : method (Json.storedFields event) = method event ↔ (name event).Steady := by
    unfold method
    rw [name_stored]
    rfl
  unfold typedMethod
  -- the methods agree on this one name, so only the other names have to be steady
  by_cases hmethod : method event = "input.requested"
  · rw [if_pos hmethod, if_pos (hinput.2 hmethod), ← hsteady]
    exact iff_of_true rfl ((hinput.2 hmethod).trans hmethod.symm)
  · rw [if_neg hmethod, if_neg fun hstored => hmethod (hinput.1 hstored)]
    exact hsteady

theorem typedMethod_stored (h : Json.opens word = false) :
    typedMethod (Json.storedFields event) = word ↔ typedMethod event = word := by
  have hinput : method (Json.storedFields event) = "input.requested" ↔
      method event = "input.requested" := method_stored (by decide)
  unfold typedMethod
  by_cases hmethod : method event = "input.requested"
  · rw [if_pos hmethod, if_pos (hinput.2 hmethod)]
  · rw [if_neg hmethod, if_neg fun hstored => hmethod (hinput.1 hstored)]
    exact method_stored h

/-- The texts that `project_v3_event` takes from the namespace of the event stay what they are. -/
def SteadyNamespace (event : Dict) : Prop :=
  ∀ items, field event "namespace" = some (.arr items) → ∀ item ∈ items, item.Steady

theorem namespaceOr_stored_iff (event : Dict) (fallback : List String) :
    namespaceOr (Json.storedFields event) fallback = namespaceOr event fallback ↔
      SteadyNamespace event := by
  unfold SteadyNamespace namespaceOr
  rw [field_stored]
  cases field event "namespace" with
  | none => exact iff_of_true rfl fun _ h => by cases h
  | some v =>
      cases v with
      | arr items =>
          show (Json.storedItems items).map Json.pyStr = items.map Json.pyStr ↔ _
          rw [Json.storedItems_eq, List.map_map, List.map_inj_left]
          constructor
          · intro h items' heq
            obtain rfl := Json.arr.inj (Option.some.inj heq)
            exact h
          · intro h
            exact h items rfl
      -- a number that becomes an integer is no list either before or after
      | float x =>
          refine iff_of_true ?_ fun _ h => by cases h
          rw [Option.map_some, Json.stored]
          cases x.wide? <;> rfl
      | null | bool | num | str | obj => exact iff_of_true rfl fun _ h => by cases h

theorem namespaceOr_stored_isEmpty (event : Dict) (fallback : List String) :
    (namespaceOr (Json.storedFields event) fallback).isEmpty =
      (namespaceOr event fallback).isEmpty := by
  unfold namespaceOr
  rw [field_stored]
  cases field event "namespace" with
  | none => rfl
  | some v =>
      cases v with
      | arr items => cases items <;> rfl
      | float x =>
          rw [Option.map_some, Json.stored]
          cases x.wide? <;> rfl
      | null | bool | num | str | obj => rfl

theorem timestamp_stored {n : Int} (h : timestamp event = some n) :
    timestamp (Json.storedFields event) = some n := by
  unfold timestamp at h ⊢
  rw [field_stored]
  obtain ⟨v, hv, hn⟩ := Option.bind_eq_some_iff.1 h
  rw [hv]
  show intOfStr v.stored = some n
  rw [stored_of_intOfStr hn, hn]

/-! ## Its data -/

theorem dataOfStatus_stored : DataOfStatus (Json.storedFields event) ↔ DataOfStatus event := by
  unfold DataOfStatus
  rw [method_stored (by decide), field_stored, get?_stored, Json.any_truthy_stored]
  refine and_congr_right fun _ => and_congr_left fun _ => ?_
  cases field event "data" with
  | none => rfl
  | some v =>
      exact Json.stored_eq_null_iff

/-- The status, where the data is made of it, stays the same text. -/
def SteadyStatus (event : Dict) : Prop :=
  DataOfStatus event → ((event.get? "status").getD .null).Steady

theorem data_stored (h : ¬ DataOfStatus event) :
    data (Json.storedFields event) = (data event).stored := by
  unfold data
  rw [if_neg h, if_neg fun hstored => h (dataOfStatus_stored.1 hstored), field_stored]
  cases field event "data" <;> rfl

theorem statusData_stored
    (h : Json.strOrEmpty ((event.get? "status").map Json.stored) =
      Json.strOrEmpty (event.get? "status")) :
    statusData (Json.storedFields event) =
      (statusData event).map fun f => (f.1, f.2.stored) := by
  unfold statusData
  rw [get?_stored, h]
  simp only [List.map_append, List.map_cons, List.map_nil, Json.stored, List.map_filterMap,
    get?_stored, Option.map_map, Function.comp_def]

theorem statusData_namespace (event : Dict) : (statusData event).get? "namespace" = none := by
  refine Dict.get?_eq_none fun hmem => ?_
  obtain ⟨f, hf, hkey⟩ := List.mem_map.1 hmem
  unfold statusData at hf
  rcases List.mem_append.1 hf with hf | hf
  · simp only [List.mem_cons, List.not_mem_nil, or_false] at hf
    -- no key of the made data is `namespace`
    rcases hf with rfl | rfl
    · exact absurd (show "event" = "namespace" from hkey) (by decide)
    · exact absurd (show "status" = "namespace" from hkey) (by decide)
  · obtain ⟨key, hmem, hvalue⟩ := List.mem_filterMap.1 hf
    obtain ⟨v, -, rfl⟩ := Option.map_eq_some_iff.1 hvalue
    obtain rfl : key = "namespace" := hkey
    exact absurd hmem (by decide)

theorem data_stored_iff (event : Dict) :
    (data (Json.storedFields event)).Same (data event) ↔ SteadyStatus event := by
  by_cases hstatus : DataOfStatus event
  -- the data is made of the status: the two data differ in its text only
  · obtain ⟨status, hget, htruthy⟩ := (Option.any_eq_true _ _).1 hstatus.2.2
    have hlive : Json.strOrEmpty (event.get? "status") = status.pyStr := by
      rw [hget]
      exact if_pos htruthy
    have hstored : Json.strOrEmpty ((event.get? "status").map Json.stored) =
        status.stored.pyStr := by
      rw [hget]
      exact if_pos (status.truthy_stored.trans htruthy)
    unfold SteadyStatus data
    rw [if_pos hstatus, if_pos (dataOfStatus_stored.2 hstatus), hget]
    constructor
    · intro h _
      have htext := Json.same_obj_iff.1 h "status"
      have hleft : Dict.get? (statusData (Json.storedFields event)) "status" =
          some (.str status.stored.pyStr) := by
        rw [← hstored, ← get?_stored]
        rfl
      have hright : Dict.get? (statusData event) "status" = some (.str status.pyStr) := by
        rw [← hlive]
        rfl
      rw [hleft, hright] at htext
      exact Json.str.inj (Option.some.inj htext)
    -- the status is the same text, and the other fields are stored as they are
    · intro h
      refine congrArg Json.obj ?_
      rw [statusData_stored (by rw [hstored, hlive]; exact h hstatus), Json.storedFields_map]
  · refine iff_of_true ?_ fun h => absurd h hstatus
    rw [data_stored hstatus]
    exact Json.same_stored _

/-- The scope that a lifecycle event announces is there after it was stored. -/
theorem scope_stored (event : Dict) :
    ((data (Json.storedFields event)).dict?.bind fun data => data.get? "namespace").any
        Json.truthy =
      ((data event).dict?.bind fun data => data.get? "namespace").any Json.truthy := by
  by_cases hstatus : DataOfStatus event
  · unfold data
    rw [if_pos hstatus, if_pos (dataOfStatus_stored.2 hstatus)]
    show ((statusData (Json.storedFields event)).get? "namespace").any Json.truthy =
      ((statusData event).get? "namespace").any Json.truthy
    rw [statusData_namespace, statusData_namespace]
  · rw [data_stored hstatus, Json.dict?_stored]
    cases (data event).dict? with
    | none => rfl
    | some fields =>
        show (Dict.get? (Json.storedFields fields) "namespace").any Json.truthy =
          (Dict.get? fields "namespace").any Json.truthy
        rw [get?_stored, Json.any_truthy_stored]

end Event

theorem requestedData_stored (v : Json) : (requestedData v.stored).Same (requestedData v) := by
  cases v with
  | float x =>
      have hwide : requestedData (Json.float x).stored = (Json.float x).stored := by
        rw [Json.stored]
        cases x.wide? <;> rfl
      rw [hwide]
      exact Json.same_stored _
  | obj fields =>
      have hcontains : Dict.contains (Json.storedFields fields) "event" =
          Dict.contains fields "event" := by
        rw [← Dict.isSome_get?, ← Dict.isSome_get?, Json.get?_storedFields, Option.isSome_map]
      show (if Dict.contains (Json.storedFields fields) "event" then _ else _ : Json).Same
        (if Dict.contains fields "event" then _ else _)
      rw [hcontains]
      split
      · exact Json.same_stored (.obj fields)
      · refine Json.same_obj_iff.2 fun key => ?_
        rw [Dict.get?_cons, Dict.get?_cons]
        split
        · rfl
        · exact Json.same_obj_iff.1 (Json.same_stored (.obj fields)) key
  | null | bool | num | str | arr => exact Json.same_stored _

/-! ## The projection after it was stored -/

section

variable {event : Dict} {fallback : List String} {now now' : Nat} {sequence : Option Int}

theorem data_projected_iff :
    (projectV3Event now' sequence fallback (Json.storedFields event)).data.Same
      (projectV3Event now sequence fallback event).data ↔ Event.SteadyStatus event := by
  have hinput : Event.method (Json.storedFields event) = "input.requested" ↔
      Event.method event = "input.requested" := Event.method_stored (by decide)
  show Json.Same (if Event.method (Json.storedFields event) = "input.requested" then
      requestedData (Event.data (Json.storedFields event))
    else Event.data (Json.storedFields event))
    (if Event.method event = "input.requested" then requestedData (Event.data event)
    else Event.data event) ↔ _
  by_cases hmethod : Event.method event = "input.requested"
  -- an event that asks for input takes its data as it is
  · have hstatus : ¬ Event.DataOfStatus event := by
      rintro ⟨hlifecycle, -⟩
      exact absurd (hmethod.symm.trans hlifecycle) (by decide)
    rw [if_pos hmethod, if_pos (hinput.2 hmethod), Event.data_stored hstatus]
    exact iff_of_true (requestedData_stored _) fun h => absurd h hstatus
  · rw [if_neg hmethod, if_neg fun hstored => hmethod (hinput.1 hstored)]
    exact Event.data_stored_iff event

theorem interrupts_projected :
    (projectV3Event now' sequence fallback (Json.storedFields event)).interrupts =
      (projectV3Event now sequence fallback event).interrupts.map Json.stored := by
  show (Event.field (Json.storedFields event) "interrupts").filter Json.truthy =
    ((Event.field event "interrupts").filter Json.truthy).map Json.stored
  rw [Event.field_stored]
  cases Event.field event "interrupts" with
  | none => rfl
  | some v =>
      show (some v.stored).filter Json.truthy = ((some v).filter Json.truthy).map Json.stored
      by_cases hv : v.truthy = true
      · rw [Option.filter_some_pos hv, Option.filter_some_pos (v.truthy_stored.trans hv)]
        rfl
      -- the stored value is truthy exactly when the value is
      · have hstored : ¬ v.stored.truthy = true := by
          rw [v.truthy_stored]
          exact hv
        rw [Option.filter_some_neg (by simpa using hstored),
          Option.filter_some_neg (by simpa using hv)]
        rfl

theorem nested_projected :
    (projectV3Event now' sequence fallback (Json.storedFields event)).nested =
      (projectV3Event now sequence fallback event).nested := by
  have htarget : (projectV3Event now' sequence fallback (Json.storedFields event)).target.any
      Json.truthy = (projectV3Event now sequence fallback event).target.any Json.truthy := by
    have hlifecycle : Event.typedMethod (Json.storedFields event) = "lifecycle" ↔
        Event.typedMethod event = "lifecycle" := Event.typedMethod_stored (by decide)
    show Option.any Json.truthy (if Event.typedMethod (Json.storedFields event) = "lifecycle" then
        _ else _) = Option.any Json.truthy (if Event.typedMethod event = "lifecycle" then _ else _)
    by_cases hmethod : Event.typedMethod event = "lifecycle"
    -- the data of a lifecycle event is not wrapped
    · have hplain (event : Dict) (h : Event.typedMethod event = "lifecycle") (now : Nat) :
          (projectV3Event now sequence fallback event).data = Event.data event := by
        refine if_neg fun hinput => ?_
        rw [Event.typedMethod, if_pos hinput] at h
        exact absurd h (by decide)
      rw [if_pos hmethod, if_pos (hlifecycle.2 hmethod), hplain event hmethod,
        hplain _ (hlifecycle.2 hmethod)]
      exact Event.scope_stored event
    · rw [if_neg hmethod, if_neg fun hstored => hmethod (hlifecycle.1 hstored)]
  have hnamespace := Event.namespaceOr_stored_isEmpty event fallback
  show (!(Event.namespaceOr (Json.storedFields event) fallback).isEmpty || _) =
    (!(Event.namespaceOr event fallback).isEmpty || _)
  rw [hnamespace, htarget]

end

/-! ## Frames -/

/-- The frame up to the order of the fields and the form of the numbers. -/
def EventFrame.stored (frame : EventFrame) : EventFrame := { frame with data := frame.data.stored }

/-- Both raise the same, have no frame, or have the same frame. -/
def SameFrame (a b : Except String (Option EventFrame)) : Prop :=
  a.map (Option.map EventFrame.stored) = b.map (Option.map EventFrame.stored)

instance (a b : Except String (Option EventFrame)) : Decidable (SameFrame a b) :=
  inferInstanceAs (Decidable (_ = _))

/-- The stored event belongs to a subgraph, and the client does not want these. -/
def RuntimeEventRow.hidden (row : RuntimeEventRow) (streamSubgraphs : Bool) : Bool :=
  (projectV3Event 0 none row.namespace row.payload).nested && !streamSubgraphs

namespace Event

variable (event : Dict) (fallback modes : List String)

/-- A frame of version 3 shows the same texts after the event was stored. -/
structure SteadyTyped : Prop where
  name : (name event).Steady
  «namespace» : SteadyNamespace event
  status : SteadyStatus event

/-- An error that is no object is shown as the same text after the event was stored. -/
def SteadyError : Prop :=
  Failed event → ∀ error, event.get? "error" = some error → error.truthy = true →
    error.dict? = none → error.Steady

/-- The modes ask for the event. -/
def wanted : Bool := typedMethod event ∈ modes || "events" ∈ modes || "debug" ∈ modes

/-- The method and its namespace, as other versions than 3 show them. -/
def scopedName : String := "|".intercalate (typedMethod event :: namespaceOr event fallback)

/-- The modes ask for the event as before after it was stored, and find the same name. -/
structure SteadyName : Prop where
  wanted : wanted (Json.storedFields event) modes = wanted event modes
  name : Event.wanted event modes = true →
    scopedName (Json.storedFields event) fallback = scopedName event fallback

end Event

/-- No frame, or one that shows neither the clock nor a text that storing the event changes. -/
def RuntimeEventRow.Settled (row : RuntimeEventRow) (modes : List String) (streamSubgraphs : Bool)
    (version : String) : Prop :=
  row.hidden streamSubgraphs = true ∨
    if version = "v3" then
      (Event.timestamp row.payload).isSome = true ∧ Event.SteadyTyped row.payload
    else if Event.method row.payload = "lifecycle" then Event.SteadyError row.payload
    else Event.SteadyName row.payload row.namespace modes

section

variable {now now' : Nat} {modes : List String} {streamSubgraphs : Bool} {version : String}
  {eventId : String} {row : RuntimeEventRow} {event : Dict} {fallback : List String}
  {sequence : Int}

/-- The frame of an envelope with this namespace. -/
theorem eventFrame_envelope (extra : Dict) (fallback : List String)
    (hextra : strItems (extra.get? "namespace") = some fallback) :
    eventFrame now modes streamSubgraphs version (row.envelope eventId ++ extra) =
      typedFrame modes streamSubgraphs version row.payload (some row.sequence)
        (projectV3Event now (some row.sequence) fallback row.payload) := by
  have hevent : Dict.get? (row.envelope eventId ++ extra) "event" = some (.obj row.payload) := rfl
  have hseq : Dict.get? (row.envelope eventId ++ extra) "seq" = some (.num row.sequence) := rfl
  have hnamespace : Dict.get? (row.envelope eventId ++ extra) "namespace" =
      extra.get? "namespace" := Dict.get?_append
  have hstart : startSequence (row.envelope eventId ++ extra) = some (row.sequence : Int) := by
    unfold startSequence
    rw [hseq]
    split
    next => rfl
    next hzero =>
      have hnum : (row.sequence : Int) = 0 := by
        by_contra hne
        exact hzero (decide_eq_true hne)
      rw [hnum]
  unfold eventFrame
  rw [hevent, hseq, hnamespace, hextra, hstart]
  rfl

theorem eventFrame_live :
    eventFrame now modes streamSubgraphs version (row.envelope eventId) =
      typedFrame modes streamSubgraphs version row.payload (some row.sequence)
        (projectV3Event now (some row.sequence) [] row.payload) := by
  have hframe : eventFrame now modes streamSubgraphs version (row.envelope eventId ++ []) =
      typedFrame modes streamSubgraphs version row.payload (some row.sequence)
        (projectV3Event now (some row.sequence) [] row.payload) := eventFrame_envelope [] [] rfl
  rw [List.append_nil] at hframe
  exact hframe

theorem strItems_strs (ns : List String) : strItems (some (.arr (ns.map .str))) = some ns := by
  cases ns with
  | nil => rfl
  | cons text ns =>
      show some (((text :: ns).map Json.str).map Json.pyStr) = some (text :: ns)
      rw [List.map_map]
      exact congrArg some (List.map_id _)

theorem eventFrame_replay :
    eventFrame now modes streamSubgraphs version (eventEnvelope eventId row) =
      typedFrame modes streamSubgraphs version row.payload (some row.sequence)
        (projectV3Event now (some row.sequence) row.namespace row.payload) :=
  eventFrame_envelope _ _ (strItems_strs row.namespace)

/-! ### Version 3 -/

theorem Projected.same_params_iff {p q : Projected} :
    (Json.obj p.params).Same (.obj q.params) ↔
      p.namespace = q.namespace ∧ p.timestamp = q.timestamp ∧ p.data.Same q.data ∧
        p.interrupts.map Json.stored = q.interrupts.map Json.stored := by
  have hstrs (ns : List String) : (Json.arr (ns.map .str)).stored = .arr (ns.map .str) := by
    rw [Json.stored, Json.storedItems_eq, List.map_map]
    rfl
  have hinjective (ns ns' : List String) :
      some (Json.arr (ns.map .str)).stored = some (Json.arr (ns'.map .str)).stored ↔ ns = ns' := by
    rw [hstrs, hstrs]
    constructor
    · intro h
      exact List.map_injective_iff.2 (fun _ _ => Json.str.inj) (Json.arr.inj (Option.some.inj h))
    · rintro rfl
      rfl
  rw [Json.same_obj_iff]
  constructor
  · intro h
    have hinterrupts := h "interrupts"
    rw [p.params_interrupts, q.params_interrupts] at hinterrupts
    exact ⟨(hinjective _ _).1 (h "namespace"),
      Json.num.inj (Option.some.inj (h "timestamp")), Option.some.inj (h "data"), hinterrupts⟩
  · rintro ⟨hnamespace, htimestamp, hdata, hinterrupts⟩ key
    have hlast (p : Projected) : Dict.get? (p.interrupts.toList.map fun interrupts =>
        ("interrupts", interrupts)) key =
          if "interrupts" = key then p.interrupts else none := by
      cases p.interrupts with
      | none => exact (ite_self none).symm
      | some v => exact Dict.get?_cons _ _
    unfold Projected.params
    rw [Dict.get?_append, Dict.get?_append, hlast, hlast, hnamespace, htimestamp, Option.map_or,
      Option.map_or, apply_ite (Option.map Json.stored), apply_ite (Option.map Json.stored),
      hinterrupts]
    congr 1
    simp only [Dict.get?_cons]
    split
    · rfl
    · split
      · rfl
      · split
        · exact congrArg some hdata
        · rfl

theorem Projected.same_dict_iff {p q : Projected} (hseq : p.seq = q.seq) :
    (Json.obj p.dict).Same (.obj q.dict) ↔
      p.method = q.method ∧ (Json.obj p.params).Same (.obj q.params) := by
  rw [Json.same_obj_iff]
  constructor
  · intro h
    exact ⟨Json.str.inj (Option.some.inj (h "method")), Option.some.inj (h "params")⟩
  · rintro ⟨hmethod, hparams⟩ key
    unfold Projected.dict
    rw [Dict.get?_append, Dict.get?_append, hmethod, hseq, Option.map_or, Option.map_or]
    congr 1
    simp only [Dict.get?_cons]
    split
    · rfl
    · split
      · exact congrArg some hparams
      · rfl

/-- Version 3 shows the whole projection. -/
theorem typedFrame_v3 {p : Projected} (h : ¬ (p.nested = true ∧ ¬ streamSubgraphs)) :
    typedFrame modes streamSubgraphs "v3" event (some sequence) p =
      .ok (some
        { event := p.method
          data := .obj { p with seq := some sequence }.dict
          sequence }) := by
  unfold typedFrame
  rw [if_neg h, if_neg fun hlifecycle => hlifecycle.2 rfl, if_neg fun hmode => hmode.1 rfl]
  rfl

/-- Frames of version 3 agree if their clocks do and no text has changed. -/
theorem typedFrame_v3_iff
    (h : ¬ ((projectV3Event now (some sequence) fallback event).nested = true ∧
      ¬ streamSubgraphs)) :
    SameFrame
        (typedFrame modes streamSubgraphs "v3" (Json.storedFields event) (some sequence)
          (projectV3Event now' (some sequence) fallback (Json.storedFields event)))
        (typedFrame modes streamSubgraphs "v3" event (some sequence)
          (projectV3Event now (some sequence) fallback event)) ↔
      ((Event.timestamp (Json.storedFields event)).getD now' : Int) =
        (Event.timestamp event).getD now ∧ Event.SteadyTyped event := by
  let live := projectV3Event now (some sequence) fallback event
  let replayed := projectV3Event now' (some sequence) fallback (Json.storedFields event)
  have hnested : replayed.nested = live.nested := nested_projected
  have hstored : ¬ (replayed.nested = true ∧ ¬ streamSubgraphs) := by
    rw [hnested]
    exact h
  have hread : replayed.interrupts = live.interrupts.map Json.stored := interrupts_projected
  have hinterrupts : replayed.interrupts.map Json.stored = live.interrupts.map Json.stored := by
    rw [hread, Option.map_map]
    exact Option.map_congr fun v _ => v.stored_stored
  rw [typedFrame_v3 h, typedFrame_v3 hstored]
  unfold SameFrame
  rw [Except.map, Except.map, Except.ok.injEq, Option.map_some, Option.map_some,
    Option.some.injEq, EventFrame.stored, EventFrame.stored, EventFrame.mk.injEq]
  have hdata : (Json.obj { replayed with seq := some sequence }.dict).Same
      (.obj { live with seq := some sequence }.dict) ↔
        replayed.method = live.method ∧ (Json.obj replayed.params).Same (.obj live.params) :=
    Projected.same_dict_iff rfl
  have hparams : (Json.obj replayed.params).Same (.obj live.params) ↔ _ :=
    Projected.same_params_iff
  have hname := Event.typedMethod_stored_iff event
  have hnamespace := Event.namespaceOr_stored_iff event fallback
  have hstatus : replayed.data.Same live.data ↔ Event.SteadyStatus event := data_projected_iff
  constructor
  · rintro ⟨hmethod, hdict, -⟩
    obtain ⟨-, hsame⟩ := hdata.1 hdict
    obtain ⟨hns, htime, hvalue, -⟩ := hparams.1 hsame
    exact ⟨htime, hname.1 hmethod, hnamespace.1 hns, hstatus.1 hvalue⟩
  · rintro ⟨htime, hsteady⟩
    refine ⟨hname.2 hsteady.name, hdata.2 ⟨hname.2 hsteady.name, hparams.2 ?_⟩, rfl⟩
    exact ⟨hnamespace.2 hsteady.namespace, htime, hstatus.2 hsteady.status, hinterrupts⟩

/-! ### Other versions -/

theorem any_unhashable_stored (value : Option Json) :
    (value.map Json.stored).any unhashable = value.any unhashable := by
  cases value with
  | none => rfl
  | some v =>
      cases v with
      | float x =>
          rw [Option.map_some, Json.stored]
          cases x.wide? <;> rfl
      | null | bool | num | str | arr | obj => rfl

theorem Event.failed_stored : Event.Failed (Json.storedFields event) ↔ Event.Failed event := by
  have htext (text : String) : (event.get? "status").map Json.stored = some (.str text) ↔
      event.get? "status" = some (.str text) := by
    cases event.get? "status" with
    | none => exact Iff.rfl
    | some v =>
        rw [Option.map_some, Option.some.injEq, Option.some.injEq]
        exact v.stored_eq_str_iff
  unfold Event.Failed
  rw [Event.get?_stored, htext, htext]

theorem errorData_stored_iff (event : Dict) :
    (errorData (Json.storedFields event)).Same (errorData event) ↔
      ∀ error, event.get? "error" = some error → error.truthy = true → error.dict? = none →
        error.Steady := by
  have hpair (type type' message message' : Json) :
      (Json.obj [("error", type), ("message", message)]).Same
          (.obj [("error", type'), ("message", message')]) ↔
        type.Same type' ∧ message.Same message' := by
    rw [Json.same_obj_iff]
    constructor
    · intro h
      exact ⟨Option.some.inj (h "error"), Option.some.inj (h "message")⟩
    · rintro ⟨htype, hmessage⟩ key
      simp only [Dict.get?_cons]
      split
      · exact congrArg some htype
      · split
        · exact congrArg some hmessage
        · rfl
  have hdefault (value : Option Json) (text : String) :
      ((value.map Json.stored).getD (.str text)).Same (value.getD (.str text)) := by
    cases value with
    | none => rfl
    | some v => exact v.same_stored
  unfold errorData errorOf
  rw [hpair, Event.get?_stored]
  cases event.get? "error" with
  | none => exact iff_of_true ⟨rfl, rfl⟩ fun _ h => by cases h
  | some error =>
      dsimp only [Option.map_some]
      rw [error.truthy_stored]
      by_cases htruthy : error.truthy = true
      · rw [if_pos htruthy, if_pos htruthy, error.dict?_stored]
        cases hdict : error.dict? with
        | some fields =>
            rw [Option.map_some, Option.getD_some, Option.getD_some, Event.get?_stored,
              Event.get?_stored]
            refine iff_of_true ⟨hdefault _ _, hdefault _ _⟩ ?_
            rintro error' heq - hnone
            obtain rfl := Option.some.inj heq
            rw [hdict] at hnone
            cases hnone
        | none =>
            constructor
            · rintro ⟨-, hmessage⟩ error' heq - -
              obtain rfl := Option.some.inj heq
              exact Json.str.inj hmessage
            · intro h
              exact ⟨rfl, congrArg Json.str (h error rfl htruthy hdict)⟩
      · rw [if_neg htruthy, if_neg htruthy]
        refine iff_of_true ⟨rfl, rfl⟩ fun error' heq htruthy' => ?_
        obtain rfl := Option.some.inj heq
        exact absurd htruthy' htruthy

/-- Error frames agree if no text has changed. -/
theorem errorFrame_stored_iff :
    SameFrame (errorFrame (Json.storedFields event) (some sequence))
        (errorFrame event (some sequence)) ↔ Event.SteadyError event := by
  by_cases hfailed : Event.Failed event
  · have hstored := Event.failed_stored.2 hfailed
    have hframe {event : Dict} (h : Event.Failed event) : errorFrame event (some sequence) =
        .ok (some { event := "error", data := errorData event, sequence }) := by
      have hhashable : (event.get? "status").any unhashable = false := by
        rcases h with h | h <;> rw [h] <;> rfl
      unfold errorFrame
      rw [hhashable, if_neg Bool.false_ne_true, if_pos h]
      rfl
    rw [hframe hfailed, hframe hstored]
    unfold SameFrame Event.SteadyError
    rw [Except.map, Except.map, Except.ok.injEq, Option.map_some, Option.map_some,
      Option.some.injEq, EventFrame.stored, EventFrame.stored, EventFrame.mk.injEq,
      ← errorData_stored_iff event]
    constructor
    · rintro ⟨-, hdata, -⟩ -
      exact hdata
    · intro h
      exact ⟨rfl, h hfailed, rfl⟩
  · refine iff_of_true ?_ fun h => absurd h hfailed
    unfold errorFrame
    rw [if_neg hfailed, if_neg fun hstored => hfailed (Event.failed_stored.1 hstored),
      Event.get?_stored, any_unhashable_stored]
    rfl

theorem withInterrupts_stored (interrupts data : Json) :
    (withInterrupts interrupts.stored data.stored).Same (withInterrupts interrupts data) := by
  have hfields : (Json.obj [("value", data.stored), ("__interrupt__", interrupts.stored)]).Same
      (.obj [("value", data), ("__interrupt__", interrupts)]) :=
    congrArg Json.obj
      (Json.storedFields_map [("value", data), ("__interrupt__", interrupts)])
  cases data with
  | obj fields =>
      refine Json.same_obj_iff.2 fun key => ?_
      rw [Dict.get?_set, Dict.get?_set]
      split
      · exact congrArg some interrupts.same_stored
      · exact Json.same_obj_iff.1 (Json.same_stored (.obj fields)) key
  | float x =>
      have hdata : withInterrupts interrupts.stored (Json.float x).stored =
          .obj [("value", (Json.float x).stored), ("__interrupt__", interrupts.stored)] := by
        rw [Json.stored]
        cases x.wide? <;> rfl
      rw [hdata]
      exact hfields
  | null | bool | num | str | arr => exact hfields

/-- Frames that show values agree: their interrupts are stored with them. -/
theorem frameData_stored (h : Event.method event ≠ "lifecycle") :
    ((projectV3Event now' (some sequence) fallback (Json.storedFields event)).frameData
        (Json.storedFields event)).Same
      ((projectV3Event now (some sequence) fallback event).frameData event) := by
  let live := projectV3Event now (some sequence) fallback event
  let replayed := projectV3Event now' (some sequence) fallback (Json.storedFields event)
  have hvalues : replayed.method = "values" ↔ live.method = "values" :=
    Event.typedMethod_stored (by decide)
  have hread : replayed.interrupts = live.interrupts.map Json.stored := interrupts_projected
  have hinterrupts : firstTruthy [replayed.interrupts, Dict.get? (Json.storedFields event)
        "interrupts", some (.arr [])] =
      (firstTruthy [live.interrupts, event.get? "interrupts", some (.arr [])]).stored := by
    rw [hread, Event.get?_stored, ← firstTruthy_stored]
    rfl
  show Json.Same (replayed.frameData (Json.storedFields event)) (live.frameData event)
  unfold Projected.frameData
  dsimp only
  rw [hinterrupts, Json.truthy_stored]
  by_cases hshown : live.method = "values" ∧
      (firstTruthy [live.interrupts, event.get? "interrupts", some (.arr [])]).truthy = true
  · have hinput : Event.method event ≠ "input.requested" := by
      intro hmethod
      have htyped : Event.typedMethod event = "input" := if_pos hmethod
      exact absurd (htyped.symm.trans hshown.1) (by decide)
    have hlive : live.data = Event.data event := if_neg hinput
    have hreplayed : replayed.data = Event.data (Json.storedFields event) :=
      if_neg fun hstored => hinput ((Event.method_stored (by decide)).1 hstored)
    rw [if_pos hshown, if_pos ⟨hvalues.2 hshown.1, hshown.2⟩, hlive, hreplayed,
      Event.data_stored fun hstatus => h hstatus.1]
    exact withInterrupts_stored _ _
  · rw [if_neg hshown, if_neg fun hstored => hshown ⟨hvalues.1 hstored.1, hstored.2⟩]
    exact data_projected_iff.2 fun hstatus => absurd hstatus.1 h

theorem typedFrame_lifecycle (hversion : version ≠ "v3")
    (h : ¬ ((projectV3Event now (some sequence) fallback event).nested = true ∧
      ¬ streamSubgraphs)) (hmethod : Event.method event = "lifecycle") :
    typedFrame modes streamSubgraphs version event (some sequence)
        (projectV3Event now (some sequence) fallback event) =
      errorFrame event (some sequence) := by
  have htyped : (projectV3Event now (some sequence) fallback event).method = "lifecycle" := by
    refine (if_neg fun hinput => ?_).trans hmethod
    exact absurd (hmethod.symm.trans hinput) (by decide)
  unfold typedFrame
  rw [if_neg h, if_pos ⟨htyped, hversion⟩]

theorem typedFrame_lifecycle_iff (hversion : version ≠ "v3")
    (h : ¬ ((projectV3Event now (some sequence) fallback event).nested = true ∧
      ¬ streamSubgraphs)) (hmethod : Event.method event = "lifecycle") :
    SameFrame
        (typedFrame modes streamSubgraphs version (Json.storedFields event) (some sequence)
          (projectV3Event now' (some sequence) fallback (Json.storedFields event)))
        (typedFrame modes streamSubgraphs version event (some sequence)
          (projectV3Event now (some sequence) fallback event)) ↔ Event.SteadyError event := by
  have hnested : (projectV3Event now' (some sequence) fallback (Json.storedFields event)).nested =
      (projectV3Event now (some sequence) fallback event).nested := nested_projected
  rw [typedFrame_lifecycle hversion h hmethod,
    typedFrame_lifecycle hversion (by rw [hnested]; exact h)
      ((Event.method_stored (by decide)).2 hmethod)]
  exact errorFrame_stored_iff

theorem typedFrame_named (hversion : version ≠ "v3")
    (h : ¬ ((projectV3Event now (some sequence) fallback event).nested = true ∧
      ¬ streamSubgraphs)) (hmethod : Event.method event ≠ "lifecycle") :
    typedFrame modes streamSubgraphs version event (some sequence)
        (projectV3Event now (some sequence) fallback event) =
      .ok (if Event.wanted event modes then
        some
          { event := Event.scopedName event fallback
            data := (projectV3Event now (some sequence) fallback event).frameData event
            sequence }
        else none) := by
  have htyped : (projectV3Event now (some sequence) fallback event).method ≠ "lifecycle" := by
    show Event.typedMethod event ≠ "lifecycle"
    unfold Event.typedMethod
    split
    · decide
    · exact hmethod
  have hwanted : (version ≠ "v3" ∧ (projectV3Event now (some sequence) fallback event).method ∉
      modes ∧ "events" ∉ modes ∧ "debug" ∉ modes) ↔ ¬ Event.wanted event modes = true := by
    unfold Event.wanted
    simp only [Bool.or_eq_true, decide_eq_true_eq, not_or, hversion, ne_eq, not_false_eq_true,
      true_and, and_assoc]
    rfl
  unfold typedFrame
  rw [if_neg h, if_neg fun hlifecycle => htyped hlifecycle.1]
  by_cases hmode : Event.wanted event modes = true
  · rw [if_pos hmode, if_neg fun hno => hwanted.1 hno hmode, Option.map_some, if_neg hversion]
    rfl
  · rw [if_neg hmode, if_pos (hwanted.2 hmode)]

theorem typedFrame_named_iff (hversion : version ≠ "v3")
    (h : ¬ ((projectV3Event now (some sequence) fallback event).nested = true ∧
      ¬ streamSubgraphs)) (hmethod : Event.method event ≠ "lifecycle") :
    SameFrame
        (typedFrame modes streamSubgraphs version (Json.storedFields event) (some sequence)
          (projectV3Event now' (some sequence) fallback (Json.storedFields event)))
        (typedFrame modes streamSubgraphs version event (some sequence)
          (projectV3Event now (some sequence) fallback event)) ↔
      Event.SteadyName event fallback modes := by
  have hnested : (projectV3Event now' (some sequence) fallback (Json.storedFields event)).nested =
      (projectV3Event now (some sequence) fallback event).nested := nested_projected
  have hstored : Event.method (Json.storedFields event) ≠ "lifecycle" := by
    intro hlifecycle
    exact hmethod ((Event.method_stored (by decide)).1 hlifecycle)
  have hdata : ((projectV3Event now' (some sequence) fallback
        (Json.storedFields event)).frameData (Json.storedFields event)).stored =
      ((projectV3Event now (some sequence) fallback event).frameData event).stored :=
    frameData_stored hmethod
  rw [typedFrame_named hversion h hmethod,
    typedFrame_named hversion (by rw [hnested]; exact h) hstored]
  unfold SameFrame
  rw [Except.map, Except.map, Except.ok.injEq]
  by_cases hlive : Event.wanted event modes = true
  · by_cases hreplayed : Event.wanted (Json.storedFields event) modes = true
    · rw [if_pos hlive, if_pos hreplayed, Option.map_some, Option.map_some, Option.some.injEq,
        EventFrame.stored, EventFrame.stored, EventFrame.mk.injEq]
      constructor
      · rintro ⟨hname, -⟩
        exact ⟨hreplayed.trans hlive.symm, fun _ => hname⟩
      · intro hsteady
        exact ⟨hsteady.name hlive, hdata, rfl⟩
    · rw [if_pos hlive, if_neg hreplayed]
      refine iff_of_false (fun hno => ?_) fun hsteady => hreplayed (hsteady.wanted.trans hlive)
      cases hno
  · by_cases hreplayed : Event.wanted (Json.storedFields event) modes = true
    · rw [if_neg hlive, if_pos hreplayed]
      refine iff_of_false (fun hno => ?_) fun hsteady =>
        hlive (hsteady.wanted.symm.trans hreplayed)
      cases hno
    · rw [if_neg hlive, if_neg hreplayed]
      refine iff_of_true rfl ⟨?_, fun hyes => absurd hyes hlive⟩
      rw [Bool.eq_false_iff.2 hlive, Bool.eq_false_iff.2 hreplayed]

theorem typedFrame_hidden {p : Projected} (h : p.nested = true ∧ ¬ streamSubgraphs) :
    typedFrame modes streamSubgraphs version event (some sequence) p = .ok none := if_pos h

/-- The live frames agree with the replayed ones at all times exactly if the row is settled. -/
theorem typedFrame_settled_iff :
    (∀ now now', SameFrame
        (typedFrame modes streamSubgraphs version (Json.storedFields row.payload)
          (some row.sequence)
          (projectV3Event now' (some row.sequence) row.namespace (Json.storedFields row.payload)))
        (typedFrame modes streamSubgraphs version row.payload (some row.sequence)
          (projectV3Event now (some row.sequence) row.namespace row.payload))) ↔
      row.Settled modes streamSubgraphs version := by
  have hnested (now now' : Nat) : (projectV3Event now' (some row.sequence) row.namespace
      (Json.storedFields row.payload)).nested =
        (projectV3Event now (some row.sequence) row.namespace row.payload).nested :=
    nested_projected
  unfold RuntimeEventRow.Settled
  by_cases hhidden : row.hidden streamSubgraphs = true
  · refine iff_of_true (fun now now' => ?_) (.inl hhidden)
    obtain ⟨hyes, hno⟩ : (projectV3Event now (some row.sequence) row.namespace
        row.payload).nested = true ∧ (!streamSubgraphs) = true := (Bool.and_eq_true _ _).mp hhidden
    have hsubgraphs : ¬ streamSubgraphs = true := by
      rw [Bool.not_eq_true'] at hno
      exact Bool.eq_false_iff.1 hno
    rw [typedFrame_hidden ⟨hyes, hsubgraphs⟩,
      typedFrame_hidden ⟨(hnested now now').trans hyes, hsubgraphs⟩]
    rfl
  · rw [or_iff_right hhidden]
    have hvisible (now : Nat) : ¬ ((projectV3Event now (some row.sequence) row.namespace
        row.payload).nested = true ∧ ¬ streamSubgraphs) := by
      rintro ⟨hyes, hno⟩
      refine hhidden ((Bool.and_eq_true _ _).mpr ⟨hyes, ?_⟩)
      rw [Bool.not_eq_true']
      exact Bool.eq_false_iff.2 hno
    by_cases hversion : version = "v3"
    · rw [if_pos hversion, hversion]
      simp only [typedFrame_v3_iff (hvisible _)]
      constructor
      · intro h
        refine ⟨?_, (h 0 0).2⟩
        cases htime : Event.timestamp row.payload with
        | some n => rfl
        | none =>
            -- two live frames show their own clocks, and one replayed frame agrees with both
            rw [htime] at h
            have hclocks : ((0 : Nat) : Int) = ((1 : Nat) : Int) :=
              ((h 0 0).1.symm.trans (h 1 0).1 :)
            exact absurd hclocks (by decide)
      · rintro ⟨htime, hsteady⟩ now now'
        obtain ⟨n, hn⟩ := Option.isSome_iff_exists.1 htime
        rw [hn, Event.timestamp_stored hn]
        exact ⟨rfl, hsteady⟩
    · rw [if_neg hversion]
      by_cases hmethod : Event.method row.payload = "lifecycle"
      · rw [if_pos hmethod]
        simp only [typedFrame_lifecycle_iff hversion (hvisible _) hmethod]
        exact ⟨fun h => h 0 0, fun h _ _ => h⟩
      · rw [if_neg hmethod]
        simp only [typedFrame_named_iff hversion (hvisible _) hmethod]
        exact ⟨fun h => h 0 0, fun h _ _ => h⟩

end

/-- The live and the replayed frame of a recorded event agree at all times exactly if there is
no frame, or it shows neither the clock nor a text that storing the event changes; and to project
again changes nothing. -/
theorem frames_agree_iff (e : PublishedEvent) (row : RuntimeEventRow) (h : Recorded e)
    (hrow : e.StoredIn row) (eventId : String) (modes : List String) (streamSubgraphs : Bool)
    (version : String) :
    ((∀ now now',
        SameFrame (eventFrame now modes streamSubgraphs version (durableMessage eventId row))
          (eventFrame now' modes streamSubgraphs version (eventEnvelope eventId row.reloaded)) ∧
        SameFrame (eventFrame now modes streamSubgraphs version (fanoutMessage eventId row))
          (eventFrame now' modes streamSubgraphs version (eventEnvelope eventId row.reloaded))) ↔
      row.Settled modes streamSubgraphs version) ∧
    ∀ (event : Dict) (now : Nat), (Event.timestamp event).isSome ∨
        (Nat.toDigits 10 now).length ≤ PyStr.maxStrDigits →
      ∀ now' sequence sequence' fallback fallback',
        sequence' = none ∨ sequence' = (projectV3Event now sequence fallback event).seq →
          projectV3Event now' sequence' fallback'
              (projectV3Event now sequence fallback event).dict =
            projectV3Event now sequence fallback event := by
  have hfallback (now : Nat) (sequence : Option Int) :
      projectV3Event now sequence [] row.payload =
        projectV3Event now sequence row.namespace row.payload := by
    rcases h.namespace hrow with hsome | hnone
    · exact projectV3Event_fallback hsome
    · rw [hnone]
  have hframes (now now' : Nat) :
      SameFrame (eventFrame now modes streamSubgraphs version (row.envelope eventId))
          (eventFrame now' modes streamSubgraphs version (eventEnvelope eventId row.reloaded)) ↔
        SameFrame
          (typedFrame modes streamSubgraphs version (Json.storedFields row.payload)
            (some row.sequence)
            (projectV3Event now' (some row.sequence) row.namespace
              (Json.storedFields row.payload)))
          (typedFrame modes streamSubgraphs version row.payload (some row.sequence)
            (projectV3Event now (some row.sequence) row.namespace row.payload)) := by
    rw [eventFrame_live, eventFrame_replay, hfallback]
    exact eq_comm
  refine ⟨?_, ?_⟩
  · rw [← typedFrame_settled_iff]
    constructor
    · intro hsame now now'
      exact (hframes now now').1 (hsame now now').1
    · intro hsame now now'
      have hlive := (hframes now now').2 (hsame now now')
      exact ⟨hlive, hlive⟩
  · intro event now hnow now' sequence sequence' fallback fallback' hsequence
    exact projectV3Event_dict (projectV3Event_normal hnow) hsequence fallback'

/-- A run that begins. -/
def runningRow : RuntimeEventRow :=
  eventRow 5000 (some 1) none 1 "lifecycle"
    [("event", .str "lifecycle"), ("status", .str RunStatus.running.value)] [] false

/-- A part of a graph's stream with an object whose fields a JSONB column orders. -/
def orderedPart : Dict :=
  [("method", .str "values"),
    ("params", .obj [("namespace", .arr [.str "sub"]), ("timestamp", .num 7),
      ("data", .obj [("bb", .num 1), ("a", .bool true)])])]

/-- Both kinds of frames agree although the payload changes. -/
theorem frames_agree_iff_running :
    SameFrame (eventFrame 1 [] false "v3" (durableMessage "event" runningRow))
        (eventFrame 2 [] false "v3" (eventEnvelope "event" runningRow.reloaded)) ∧
      ∃ e row, Recorded e ∧ (graphEvent none orderedPart).bind publishedEvent = some e ∧
        e.StoredIn row ∧ row.reloaded ≠ row ∧
        SameFrame (eventFrame 1 ["values"] true "v2" (durableMessage "event" row))
          (eventFrame 2 ["values"] true "v2" (eventEnvelope "event" row.reloaded)) := by
  have hstored : PublishedEvent.StoredIn
      { topic := "lifecycle"
        payload := [("event", .str "lifecycle"), ("status", .str RunStatus.running.value)] }
      runningRow := ⟨5000, some 1, none, 1, false, _, .inl rfl, rfl⟩
  have hnone : Event.field runningRow.payload "namespace" = none := by decide +kernel
  have hsettled : runningRow.Settled [] false "v3" := by
    refine .inr ⟨by decide +kernel, by decide +kernel, fun items h => ?_, fun _ => rfl⟩
    rw [hnone] at h
    cases h
  have hframes := (frames_agree_iff _ runningRow .running hstored "event" [] false "v3").1.2
    hsettled
  refine ⟨(hframes 1 2).1, ?_⟩
  have hpublished : ((graphEvent none orderedPart).bind publishedEvent).any (fun e =>
      (eventRow 5000 (some 1) none 1 e.topic e.payload e.namespace false).reloaded ≠
          eventRow 5000 (some 1) none 1 e.topic e.payload e.namespace false ∧
        Event.method (eventRow 5000 (some 1) none 1 e.topic e.payload e.namespace
          false).payload ≠ "lifecycle" ∧
        Event.wanted (eventRow 5000 (some 1) none 1 e.topic e.payload e.namespace
          false).reloaded.payload ["values"] =
          Event.wanted (eventRow 5000 (some 1) none 1 e.topic e.payload e.namespace
            false).payload ["values"] ∧
        Event.scopedName (eventRow 5000 (some 1) none 1 e.topic e.payload e.namespace
          false).reloaded.payload e.namespace =
          Event.scopedName (eventRow 5000 (some 1) none 1 e.topic e.payload e.namespace
            false).payload e.namespace) = true := by
    decide +kernel
  obtain ⟨e, he, hrow⟩ := (Option.any_eq_true _ _).1 hpublished
  obtain ⟨event, hevent, hrecorded⟩ := Option.bind_eq_some_iff.1 he
  obtain ⟨hchanged, hmethod, hwanted, hname⟩ := of_decide_eq_true hrow
  have hstored : e.StoredIn (eventRow 5000 (some 1) none 1 e.topic e.payload e.namespace false) :=
    ⟨5000, some 1, none, 1, false, _, .inl rfl, rfl⟩
  have hsettled : (eventRow 5000 (some 1) none 1 e.topic e.payload e.namespace false).Settled
      ["values"] true "v2" := by
    refine .inr ?_
    rw [if_neg (by decide), if_neg hmethod]
    exact ⟨hwanted, fun _ => hname⟩
  have hframes := (frames_agree_iff e _ (.graph hevent hrecorded) hstored "event" ["values"] true
    "v2").1.2 hsettled
  exact ⟨e, _, .graph hevent hrecorded, he, hstored, hchanged, (hframes 1 2).1⟩

/-- A part of a graph's stream whose timestamp is no number. -/
def untimedPart : Dict :=
  [("method", .str "values"),
    ("params", .obj [("namespace", .arr []), ("timestamp", .null), ("data", .num 1)])]

/-- A part whose scope is an object, which is shown as a text. -/
def scopedPart : Dict :=
  [("method", .str "values"),
    ("params", .obj [("namespace", .arr [.obj [("b", .num 1), ("a", .num 2)]]),
      ("timestamp", .num 7), ("data", .num 1)])]

/-- The frames of a part that is recorded do not agree. -/
def Drifts (part : Dict) (streamSubgraphs : Bool) (version : String) : Prop :=
  ∃ e row, Recorded e ∧ (graphEvent none part).bind publishedEvent = some e ∧ e.StoredIn row ∧
    ¬ SameFrame
      (eventFrame 1 ["values"] streamSubgraphs version (durableMessage "event" row))
      (eventFrame 2 ["values"] streamSubgraphs version (eventEnvelope "event" row.reloaded))

theorem drifts_of_decide {part : Dict} {streamSubgraphs : Bool} {version : String}
    (h : ((graphEvent none part).bind publishedEvent).any (fun e => ¬ SameFrame
      (eventFrame 1 ["values"] streamSubgraphs version (durableMessage "event"
        (eventRow 5000 (some 1) none 1 e.topic e.payload e.namespace false)))
      (eventFrame 2 ["values"] streamSubgraphs version (eventEnvelope "event"
        (eventRow 5000 (some 1) none 1 e.topic e.payload e.namespace false).reloaded))) = true) :
    Drifts part streamSubgraphs version := by
  obtain ⟨e, he, hframes⟩ := (Option.any_eq_true _ _).1 h
  obtain ⟨event, hevent, hrecorded⟩ := Option.bind_eq_some_iff.1 he
  exact ⟨e, _, .graph hevent hrecorded, he, ⟨5000, some 1, none, 1, false, _, .inl rfl, rfl⟩,
    of_decide_eq_true hframes⟩

/-- A frame of version 3 shows the time at which it is made, and other frames the order of the
fields of a scope. -/
theorem frame_drifts : Drifts untimedPart false "v3" ∧ Drifts scopedPart true "v2" :=
  ⟨drifts_of_decide (by decide +kernel), drifts_of_decide (by decide +kernel)⟩

end GraphHarbor
