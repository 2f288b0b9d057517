import GraphHarbor.Streaming

/-!
# `protocol.py` and the filters of `protocol_api.py`

The public envelope of an event, and what a subscription selects by its method, its
namespace and its interrupt.
-/

namespace GraphHarbor

open Kit

/-! ## The envelope -/

/-- What `protocol_event` makes of an event, without its timestamp and its node. -/
structure Wire where
  seq : Nat
  method : String
  «namespace» : List String
  data : Json
  deriving DecidableEq, Repr

/-- `[str(item) for item in (value or [])]`; `none` for a value that cannot be iterated. -/
def strItems (value : Option Json) : Option (List String) :=
  match value with
  | some v =>
      if v.truthy then
        match v with
        | .arr items => some (items.map Json.pyStr)
        | .obj fields => some (fields.map (·.1))
        | .str text => some (text.toList.map fun c => String.ofList [c])
        | .null | .bool _ | .num _ | .float _ => none
      else some []
  | none => some []

/-- `a or b or c` for values that may be missing. -/
def firstTruthy : List (Option Json) → Json
  | [] => .null
  | [last] => last.getD .null
  | value :: rest => if value.any Json.truthy then value.getD .null else firstTruthy rest

/-- The data of a message: its start gets an id and its metadata. -/
def startMessage (payload metadata : Dict) : Dict :=
  if payload.get? "event" = some (.str "message-start") then
    (payload.set "id" (firstTruthy
      [payload.get? "id", payload.get? "message_id", metadata.get? "run_id"])).set
      "metadata" (.obj metadata)
  else payload

/-- The data of a `messages` event, which come with their metadata. -/
def messageData (data : Json) : Json :=
  match data with
  | .arr [.obj payload, .obj metadata] =>
      if Dict.contains payload "event" then .obj (startMessage payload metadata) else data
  | _ => data

/-- The phase of a lifecycle event. -/
def lifecyclePhase (status : String) : String :=
  if status = RunStatus.success.value then "completed"
  else if status = RunStatus.error.value then "failed"
  else if status = RunStatus.timeout.value then "failed"
  else if status = RunStatus.interrupted.value then "interrupted"
  else "running"

/-- The data of a lifecycle event with a status. -/
def lifecycleData (event : Dict) : Dict :=
  let status := Json.strOrEmpty (event.get? "status")
  let present (key : String) : Dict := (event.get? key).toList.map fun v => (key, v)
  let truthy (key : String) : Dict := (present key).filter fun f => f.2.truthy
  [("event", .str (lifecyclePhase status)), ("status", .str status)] ++ present "graph_name" ++
    present "cause" ++ truthy "reason" ++ present "output" ++ present "error" ++
    truthy "interrupts"

/-- The data of an event, as a client gets them. -/
def wireData (name : String) (event : Dict) : Json :=
  let data := (event.get? "data").getD .null
  if name = "messages" then messageData data
  else if name = "lifecycle" then
    if (event.get? "status").any Json.truthy then .obj (lifecycleData event) else data
  else if name = "input.requested" then
    match data with
    | .obj fields =>
        match Dict.get? fields "value" with
        | some value => .obj (Dict.set fields "payload" value)
        | none => data
    | _ => data
  else data

/-- A lifecycle event announces the child scope of its data. -/
def childNamespace (ns : List String) (data : Dict) : List String :=
  match data.get? "namespace" with
  | some (.arr items) =>
      let child := items.filterMap fun item =>
        match item with
        | .str part => some part
        | _ => none
      if child.length = items.length && ns.length < child.length then child else ns
  | _ => ns

/-- `{**data, "error": data["error"]["message"]}`, where there is one. -/
def flattenError (data : Dict) : Dict :=
  match data.get? "error" with
  | some (.obj error) =>
      match Dict.get? error "message" with
      | some message => data.set "error" message
      | none => data
  | _ => data

/-- `protocol_event`; `none` when it raises. -/
def protocolEvent (row : RuntimeEventRow) : Option Wire :=
  let name := (eventName row.payload).pyStr
  let data := wireData name row.payload
  match strItems (row.payload.get? "namespace") with
  | none => none
  | some ns =>
      let wire : Wire := { seq := row.sequence, method := name, «namespace» := ns, data := data }
      match data with
      | .obj fields =>
          if name = "lifecycle" then
            some { wire with
              «namespace» := childNamespace ns fields
              data := .obj (flattenError fields) }
          else some wire
      | _ => some wire

/-! ## Subscriptions -/

/-- The body of a subscription: `channels` is a list with some element, `depth` the number
that `int` makes of it. -/
structure Subscription where
  channels : List Json
  namespaces : Json := .null
  depth : Option Int := none
  deriving DecidableEq, Repr

/-- `_namespace_matches`. -/
def namespaceMatches (ns : List String) (selectors : Json) (depth : Option Int) : Bool :=
  if selectors.truthy then
    match selectors with
    | .arr items => items.any fun selector =>
        match selector with
        | .arr parts =>
            let selected := parts.map Json.pyStr
            let distance := (ns.length : Int) - selected.length
            ns.take selected.length = selected &&
              match depth with
              | none => true
              | some d => distance ≤ max d 0
        | _ => false
    | _ => false
  else true

/-- `_channel_matches`. -/
def channelMatches (method : String) (channels : List Json) : Bool :=
  let channel :=
    if "input.".toList.isPrefixOf method.toList then "input"
    else String.ofList (method.toList.takeWhile (· ≠ ':'))
  channels.isEmpty || .str "*" ∈ channels || .str channel ∈ channels || .str method ∈ channels

/-- `_wire_matches`. -/
def Subscription.wireMatches (body : Subscription) (wire : Wire) : Bool :=
  channelMatches wire.method body.channels &&
    namespaceMatches wire.namespace body.namespaces body.depth

/-- `_is_active_protocol_event`: no request for an input of an interrupt that is not active. -/
def isActiveProtocolEvent (activeInterruptIds : List String) (wire : Wire) : Bool :=
  let data : Dict := match wire.data with
    | .obj fields => fields
    | _ => []
  let event := Json.strOrEmpty (data.get? "event")
  let requested := wire.method = "input.requested" ||
    (wire.method = "input" && event = "requested") || event = "input.requested"
  let id := Json.strOrEmpty (data.get? "interrupt_id")
  !requested || id = "" || id ∈ activeInterruptIds

/-! ## Events -/

/-- The event matches the filters of the subscription. -/
def Subscription.selects (body : Subscription) (e : RuntimeEventRow) : Bool :=
  (protocolEvent e).any body.wireMatches

/-- The event is no request of an interrupt other than these. -/
def RuntimeEventRow.activeIn (ids : List String) (e : RuntimeEventRow) : Bool :=
  (protocolEvent e).all (isActiveProtocolEvent ids)

/-- The interrupts that the thread has pending. -/
def interruptIds (t : ThreadId) (db : Db) : List String :=
  match db.threads.find? t with
  | some thread => thread.interrupts.map (·.1)
  | none => []

end GraphHarbor
