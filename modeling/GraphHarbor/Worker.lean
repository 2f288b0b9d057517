import GraphHarbor.Checkpoints

/-!
# `production_worker.py`

The transactions of one worker slot: the claim, the published events, and the
transactions that end an execution.
-/

namespace GraphHarbor

open Kit

/-- `conn.session.get(ThreadRow, thread_id) if thread_id else None`. -/
def getThreadOf (threadId : Option ThreadId) : Txn (Option ThreadRow) :=
  match threadId with
  | some t => getThread t
  | none => pure none

/-- The thread of a claimed run: its graph, when the runtime context was accepted, and
`busy`. -/
def enteredBy (validContext : Bool) (graphId : String) (thread : ThreadRow) : ThreadRow :=
  { thread with
    graphId := if validContext then some graphId else thread.graphId
    status := .busy }

/-- The rest of the claiming transaction of `run_once`: without its assistant the run
fails at once. -/
def enterRun (repo : RunRepository) (now : Time) (owner : String) (validContext : Bool)
    (run : RunRow) : Txn (Option RunRow) := do
  let thread ← getThreadOf run.threadId
  match ← query fun db => db.assistants.find? run.assistantId with
  | none => do
      -- the failure is in the transaction of the claim: no other one sees the run as running
      let _ ← fail repo now run.runId owner false .businessError none
      pure none
  | some assistant =>
      match thread with
      | none => pure (some run)
      | some thread => do
          assignThread thread.threadId (enteredBy validContext assistant.graphId)
          pure (some run)

/-- The transaction of `run_once` that claims a run; the run is returned when it is to be
executed. `validContext` says that its runtime context was accepted. -/
def claimRun (repo : RunRepository) (now : Time) (owner : String) (validContext : Bool) :
    Txn (Option RunRow) := do
  match ← claimNext repo now owner with
  | none => pure none
  | some run => enterRun repo now owner validContext run

/-- An event of an execution: topic, payload, namespace. -/
structure PublishedEvent where
  topic : String
  payload : Dict
  «namespace» : List String := []
  deriving DecidableEq, Repr

/-- `_is_message_delta`. -/
def PublishedEvent.isMessageDelta (e : PublishedEvent) : Bool :=
  e.topic = "messages" &&
    match e.payload.get? "data" with
    | some (.arr (.obj first :: _)) =>
        Dict.get? first "event" = some (.str "content-block-delta")
    | _ => false

/-- `str(event.get("status")) in TERMINAL_RUN_STATUSES`, of a lifecycle event. -/
def PublishedEvent.terminal (e : PublishedEvent) : Bool :=
  e.topic = "lifecycle" &&
    match e.payload.get? "status" with
    | some (.str s) => s = "success" || s = "error" || s = "timeout" || s = "interrupted"
    | _ => false

def recordAll (now : Time) (id : RunId) (threadId : Option ThreadId) :
    List PublishedEvent → Txn (List RuntimeEventRow)
  | [] => pure []
  | e :: es => do
      let event ← recordRunEvent now id threadId e.topic e.payload e.namespace e.terminal
      let rest ← recordAll now id threadId es
      pure (event :: rest)

/-- The transaction of `_publish_events`. -/
def publishEvents (now : Time) (id : RunId) (threadId : Option ThreadId)
    (events : List PublishedEvent) : Txn (List RuntimeEventRow) :=
  -- a single delta is recorded like any other event
  if events.length > 1 && events.all (·.isMessageDelta) then
    recordMessageDeltas now id threadId (events.map fun e => (e.payload, e.namespace))
  else recordAll now id threadId events

/-! ## Finalisation -/

/-- An interrupt of a graph: its id, value and namespace. -/
structure Interrupt where
  id : String
  value : Json
  ns : List String
  deriving DecidableEq, Repr

def Interrupt.item (i : Interrupt) : Json :=
  .obj [("id", .str i.id), ("value", i.value), ("ns", .arr (i.ns.map .str))]

/-- The `input.requested` event of an interrupt. -/
def Interrupt.requested (i : Interrupt) : String × Dict × List String :=
  ("input.requested",
    [("event", .str "input.requested"), ("namespace", .arr (i.ns.map .str)),
      ("data", .obj [("interrupt_id", .str i.id), ("value", i.value)])], i.ns)

/-- The result of a graph: its value and its interrupts. -/
structure GraphOutput where
  value : Json
  interrupts : List Interrupt
  deriving DecidableEq, Repr

def GraphOutput.status (out : GraphOutput) : RunStatus :=
  if out.interrupts.isEmpty then .success else .interrupted

def GraphOutput.reason (out : GraphOutput) : RunReason :=
  if out.interrupts.isEmpty then .completed else .hitlInterrupt

/-- The terminal payload of a completed or interrupted execution. -/
def GraphOutput.payload (out : GraphOutput) : Dict :=
  lifecycle out.status out.reason ++
    [("output", out.value), ("interrupts", .arr (out.interrupts.map (·.item)))]

/-- The thread after an execution that returned. -/
def GraphOutput.project (out : GraphOutput) (thread : ThreadRow) : ThreadRow :=
  if out.interrupts.isEmpty then
    { thread with status := .idle, interrupts := [], values := some out.value, error := none }
  else
    -- the error of an earlier run stays
    { thread with
      status := .interrupted
      interrupts := out.interrupts.map fun i => (i.id, i.item)
      values := some out.value }

/-- Assignments to a thread that was loaded, if it was. -/
def assignLoaded (thread : Option ThreadRow) (f : ThreadRow → ThreadRow) : Txn Unit :=
  match thread with
  | none => pure ()
  | some thread => assignThread thread.threadId f

/-- The finalisation after the graph returned. `threadId` is the run's thread as the
worker read it when it claimed the run. -/
def finalizeSuccess (now : Time) (id : RunId) (threadId : Option ThreadId) (owner : String)
    (out : GraphOutput) : Txn (List RuntimeEventRow) := do
  let runRow ← getRun id
  let threadRow ← getThreadOf threadId
  match runRow with
  | none => pure []
  | some run =>
      -- the run was cancelled while the graph returned
      if run.status.isTerminal then pure []
      else do
        match ← finish now id owner out.status out.reason (some out.payload)
            (out.interrupts.map (·.requested)) with
        | none => pure []
        | some events => do
            assignLoaded threadRow out.project
            pure events

/-- The finalisation of `except RunCancelled`, outside a shutdown. -/
def finalizeCancelled (now : Time) (id : RunId) (threadId : Option ThreadId) (owner : String) :
    Txn (List RuntimeEventRow) := do
  match ← getRun id with
  | none => pure []
  | some run =>
      if run.status.isTerminal then pure []
      else do
        match ← finish now id owner .interrupted .cancelRequested
            (some (lifecycle .interrupted .cancelRequested)) [] with
        | none => pure []
        | some events => do
            let threadRow ← getThreadOf threadId
            assignLoaded threadRow (.withStatus .idle)
            pure events

/-- Why an execution raised: the run timed out, or a business or an infrastructure
error. -/
inductive Failure
  | timedOut | business | infrastructure
  deriving DecidableEq, Repr

def Failure.reason : Failure → RunReason
  | timedOut => .timeout
  | business => .businessError
  | infrastructure => .infrastructureError

/-- `error: {"type": …, "message": …}`. -/
def errorField (type message : String) : Json :=
  .obj [("type", .str type), ("message", .str message)]

/-- `thread_row.status = "idle"; thread_row.error = {"message": …, "type": …}`. -/
def failedThread (type message : String) (thread : ThreadRow) : ThreadRow :=
  { thread with
    status := .idle
    error := some (.obj [("message", .str message), ("type", .str type)]) }

/-- The payload of a failed execution's terminal event. -/
def failurePayload (status : RunStatus) (reason : RunReason) (type message : String) : Dict :=
  lifecycle status reason ++ [("error", errorField type message)]

/-- The end of a failed execution: a timeout, an error, or a retry. -/
def endFailed (repo : RunRepository) (now : Time) (run : RunRow) (owner : String)
    (failure : Failure) (type message : String) : Txn (List RuntimeEventRow) :=
  match failure with
  | .timedOut => do
      let events ← finish now run.runId owner .timeout .timeout
        (some (failurePayload .timeout .timeout type message)) []
      pure (events.getD [])
  | failure => do
      let event ← fail repo now run.runId owner (failure = .infrastructure) failure.reason
        (if retries repo (failure = .infrastructure) run then none
          else some (failurePayload .error failure.reason type message))
      pure event.toList

/-- `except Exception`: the run times out, fails, or is put back for a retry. -/
def finalizeFailure (repo : RunRepository) (now : Time) (id : RunId)
    (threadId : Option ThreadId) (owner : String) (failure : Failure) (type message : String) :
    Txn (List RuntimeEventRow) := do
  match ← getRun id with
  | none => pure []
  | some run =>
      if run.status.isTerminal then pure []
      else do
        -- the thread is read before the run is ended, and is assigned also when the run is retried
        let threadRow ← getThreadOf threadId
        assignLoaded threadRow (failedThread type message)
        endFailed repo now run owner failure type message

/-- The failure of a run whose runtime context was refused. -/
def failInvalidContext (repo : RunRepository) (now : Time) (id : RunId) (owner : String)
    (type message : String) : Txn (List RuntimeEventRow) := do
  let event ← fail repo now id owner false .businessError
    (some (failurePayload .error .businessError type message))
  pure event.toList

/-- `lease_owner = None; lease_expires_at = None`. -/
def RunRow.withoutLease (run : RunRow) : RunRow :=
  { run with leaseOwner := none, leaseExpiresAt := none }

/-- `thread.status = "interrupted" if thread.interrupts else "idle"`. -/
def ThreadRow.settled (thread : ThreadRow) : ThreadRow :=
  { thread with status := if thread.interrupts.isEmpty then .idle else .interrupted }

/-- A cancelled run whose lease the worker still holds. -/
def stoppedBy (owner : String) (r : RunRow) : Bool :=
  r.leaseOwner = some owner && r.reason = some .cancelRequested

/-- The transaction of the `finally` block: the lease of a cancelled run is released once
its execution has stopped. -/
def releaseLease (id : RunId) (threadId : Option ThreadId) (owner : String) : Txn Unit := do
  match ← .perform (.lockRun id (stoppedBy owner) false false) with
  | none => pure ()
  | some _ => do
      assignRun id (·.withoutLease)
      deleteLease id
      let threadRow ← getThreadOf threadId
      -- the thread of the claim, which the run still has: runs do not change threads
      assignLoaded threadRow (·.settled)

end GraphHarbor
