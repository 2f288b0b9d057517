import GraphHarbor.CoreApi

/-!
# The reads of `streaming.py` and `protocol_api.py`

The transactions in which a stream reads stored events: each reads the watermark of a run
or a thread and the events above a cursor under one share lock. Against the writers of
the row a share lock waits and is waited for as an exclusive one.
-/

namespace GraphHarbor

open Kit

/-- `SELECT … WHERE p AND sequence > after ORDER BY sequence`. -/
def eventsAfter (p : RuntimeEventRow → Bool) (after : Nat) (db : Db) : List RuntimeEventRow :=
  (db.events.filter fun e => p e && after < e.sequence).insertionSort
    fun a b => a.sequence ≤ b.sequence

/-- `_run_replay`: the run, if it is found, and its events. -/
def runReplay (id : RunId) (after : Nat) : Txn (Option RunRow × List RuntimeEventRow) := do
  match ← authorizedRun id with
  | none => pure (none, [])
  | some _ => do
      let run ← .perform (.lockRun id (fun _ => true) true false)
      let rows ← query (eventsAfter (inRun id) after)
      pure (run, rows)

/-- `_thread_events`: the watermark of the thread, and its events. -/
def threadEvents (t : ThreadId) (after : Nat) : Txn (Nat × List RuntimeEventRow) := do
  match ← lockThread t with
  | none => pure (0, [])
  | some thread => do
      let rows ← query (eventsAfter (inThread t) after)
      pure (thread.eventPrunedThrough, rows)

/-- `PROTOCOL_REPLAY_PAGE_SIZE`. -/
def protocolReplayPageSize : Nat := 32

/-- `_load_protocol_events`: the watermark of the thread, and a page of its events. -/
def loadProtocolEvents (t : ThreadId) (since : Nat) : Txn (Nat × List RuntimeEventRow) := do
  match ← lockThread t with
  | none => pure (0, [])
  | some thread => do
      let rows ← query fun db => (eventsAfter (inThread t) since db).take protocolReplayPageSize
      pure (thread.eventPrunedThrough, rows)

/-- What a stream makes of a replay: the client has to start over, or gets these events. -/
inductive Replay
  | notFound
  | cursorExpired
  | events (rows : List RuntimeEventRow)
  deriving DecidableEq, Repr

/-- The check of a cursor the client sent against a watermark. -/
def Replay.check (sent : Bool) (cursor watermark : Nat) (rows : List RuntimeEventRow) : Replay :=
  -- events between the cursor and the watermark may be gone
  if sent && cursor < watermark then .cursorExpired else .events rows

/-- The replay of `_run_sse`. Without a `Last-Event-ID` the cursor is 0. -/
def replayRun (id : RunId) (cursor : Nat) : Txn Replay := do
  let (snapshot, replay) ← runReplay id cursor
  match snapshot with
  | none => pure .notFound
  -- a `Last-Event-ID` of 0 asks for everything, like none
  | some run => pure (.check (cursor ≠ 0) cursor run.eventPrunedThrough replay)

/-- A reload of `thread_stream`. `sent` says that the request has a `Last-Event-ID` other
than `-`. -/
def replayThread (t : ThreadId) (sent : Bool) (cursor : Nat) : Txn Replay := do
  let (watermark, rows) ← threadEvents t cursor
  pure (.check sent cursor watermark rows)

/-- A page of `protocol_event_stream`. -/
def replayProtocol (t : ThreadId) (since : Nat) : Txn Replay := do
  let (watermark, page) ← loadProtocolEvents t since
  pure (.check (since ≠ 0) since watermark page)

/-! ## Resumable runs -/

/-- `CAST(text AS BOOLEAN)`; `none` for an error. -/
def castBoolean (text : String) : Option Bool :=
  let s := (text.trimAscii.toString).toLower
  if s ∈ ["t", "tr", "tru", "true", "y", "ye", "yes", "on", "1"] then some true
  else if s ∈ ["f", "fa", "fal", "fals", "false", "n", "no", "of", "off", "0"] then some false
  else none

/-- `kwargs["stream_resumable"].as_boolean().is_(True)`; `none` for an error of the cast. -/
def RunRow.streamResumable (run : RunRow) : Option Bool :=
  match run.kwargs.get? "stream_resumable" with
  | none | some .null => some false
  | some (.bool b) => some b
  | some (.str text) => castBoolean text
  -- PostgreSQL casts the text of the number: `2` is no boolean
  | some (.num n) => if n = 1 then some true else if n = 0 then some false else none
  | some (.float _) | some (.arr _) | some (.obj _) => none

/-- `_resumable_run_ids`, for the runs of these rows. -/
def resumableRunIds (rows : List RuntimeEventRow) (db : Db) : Option (List RunId) :=
  let runs := (rows.filterMap (·.runId)).filterMap db.runs.find?
  -- one run whose value cannot be cast fails the query for all
  if runs.any fun r => r.streamResumable.isNone then none
  else some ((runs.filter fun r => r.streamResumable = some true).map (·.runId))

/-! ## Frames of a thread stream -/

/-- `stream_modes`. -/
inductive StreamMode
  | lifecycle | runModes | stateUpdate
  deriving DecidableEq, Repr

/-- `event.get("event") or event.get("method") or "custom"`. A name that is no string is
written as its `str`. -/
def eventName (payload : Dict) : Json :=
  match payload.get? "event" with
  | some name => if name.truthy then name else methodName
  | none => methodName
where
  methodName :=
    match payload.get? "method" with
    | some name => if name.truthy then name else .str "custom"
    | none => .str "custom"

/-- `status in _TERMINAL`, for `str(event.get("status") or "")`. -/
def isTerminalStatus (status : Option Json) : Bool :=
  status = some (.str RunStatus.success.value) || status = some (.str RunStatus.error.value) ||
    status = some (.str RunStatus.timeout.value) ||
    status = some (.str RunStatus.interrupted.value)

/-- `str(run_id)`. -/
def runIdJson : Option RunId → Json
  | some id => .num id
  | none => .str "None"

/-- A server-sent event: its name, its data and its id. -/
structure Frame where
  event : Json
  data : Json
  eventId : Nat
  deriving DecidableEq, Repr

/-- `_thread_frame`. `attempt` is what it finds out about the attempt of a run. -/
def threadFrame (row : RuntimeEventRow) (modes : List StreamMode) (attempt : RunId → Nat) :
    Option Frame :=
  let name := eventName row.payload
  let hidden := .lifecycle ∉ modes && .runModes ∉ modes
  if name = .str "lifecycle" then
    let status := row.payload.get? "status"
    if status = some (.str RunStatus.running.value) then
      if hidden then none
      else some
        { event := .str "metadata"
          data := .obj [("run_id", runIdJson row.runId),
            ("attempt", .num (row.runId.elim 1 attempt : Nat))]
          eventId := row.sequence }
    else if isTerminalStatus status then
      if hidden then none
      else some
        { event := .str "metadata"
          data := .obj [("status", .str "run_done"), ("run_id", runIdJson row.runId)]
          eventId := row.sequence }
    else none
  else if name = .str "state_update" && .stateUpdate ∉ modes then none
  else if name ≠ .str "state_update" && .runModes ∉ modes then none
  else some { event := name, data := (row.payload.get? "data").getD .null, eventId := row.sequence }

/-- `_thread_frame` renders the event in these modes. -/
def RuntimeEventRow.renders (row : RuntimeEventRow) (modes : List StreamMode) : Bool :=
  (threadFrame row modes fun _ => 1).isSome

/-- Whether an event is rendered does not depend on the attempt of its run. -/
theorem threadFrame_isSome (row : RuntimeEventRow) (modes : List StreamMode)
    (attempt : RunId → Nat) : (threadFrame row modes attempt).isSome = row.renders modes := by
  simp only [RuntimeEventRow.renders, threadFrame, apply_ite Option.isSome, Option.isSome_some,
    Option.isSome_none]

theorem threadFrame_eventId {row : RuntimeEventRow} {modes : List StreamMode}
    {attempt : RunId → Nat} {frame : Frame} (h : threadFrame row modes attempt = some frame) :
    frame.eventId = row.sequence := by
  simp only [threadFrame] at h
  (repeat' split at h) <;> cases h <;> rfl

end GraphHarbor
