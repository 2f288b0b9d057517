import Mathlib.Algebra.Group.Nat.Defs
import GraphHarbor.Session

/-!
# `run_store.py`

`RunRepository`: the transactions' own code for submission, claims, leases, ends of
runs, the reaper and the event log. `now` is the wall clock the function reads first.
-/

namespace GraphHarbor

open Kit

def second : Time := 1000000

/-- `RunRepository.__init__`, with what its clamping establishes. `retryBase` is
`retry_base_seconds`. -/
structure RunRepository where
  leaseSeconds : Nat
  maxAttempts : Nat
  retryBase : Time
  five_le_lease : 5 ≤ leaseSeconds
  one_le_attempts : 1 ≤ maxAttempts
  attempts_le : maxAttempts ≤ maxInfrastructureRetries

namespace RunRepository

/-- The constructor: `max(lease_seconds, 5)` and
`max(1, min(max_attempts, MAX_INFRASTRUCTURE_RETRIES))`. -/
def make (leaseSeconds maxAttempts : Nat) (retryBase : Time) : RunRepository where
  leaseSeconds := max leaseSeconds 5
  maxAttempts := max 1 (min maxAttempts maxInfrastructureRetries)
  retryBase := max retryBase (second / 10)
  five_le_lease := le_max_right _ _
  one_le_attempts := le_max_left _ _
  attempts_le := by simp [maxInfrastructureRetries]

/-- `RunRepository()`. -/
def default : RunRepository := make 60 maxInfrastructureRetries second

def lease (repo : RunRepository) : Time := repo.leaseSeconds * second

/-- `retry_delay`. -/
def retryDelay (repo : RunRepository) (retryCount : Nat) : Time :=
  min (repo.retryBase * 2 ^ (retryCount - 1)) (30 * second)

end RunRepository

/-! ## Commands and events -/

/-- `is_resume`: the command is an object with a `resume` field. -/
def isResume (kwargs : Dict) : Bool :=
  match kwargs.get? "command" with
  | some (.obj fields) => Dict.contains fields "resume"
  | _ => false

/-- `coalesce(kwargs -> 'command' ? 'resume', false)`. -/
def resumeKey (run : RunRow) : Bool :=
  match run.kwargs.get? "command" with
  | some command => command.hasKey "resume"
  | none => false

/-- The payload of a lifecycle event. -/
def lifecycle (status : RunStatus) (reason : RunReason) : Dict :=
  [("event", .str "lifecycle"), ("status", .str status.value), ("reason", .str reason.value)]

def missingRun (id : RunId) : Err := .runOwnership s!"run {id} does not exist"
def missingThread (id : ThreadId) : Err := .runOwnership s!"thread {id} does not exist"
def foreignRun (id : RunId) : Err := .runOwnership s!"run {id} is owned by another worker"
def foreignEvent : Err := .valueError "event thread_id does not match the run thread"

/-- `bool(payload.get(key))`. -/
def truthyField (payload : Dict) (key : String) : Bool :=
  match payload.get? key with
  | some value => value.truthy
  | none => false

/-- The lifecycle payload with the name of the graph of its run. -/
def withGraphName (run : RunRow) (topic : String) (payload : Dict) : Txn Dict :=
  if topic = "lifecycle" && truthyField payload "status" && !payload.contains "graph_name" then do
    let assistant ← query fun db => db.assistants.find? run.assistantId
    let name := match assistant with
      | some a => a.graphId
      | none => s!"{run.assistantId}"
    pure (payload.set "graph_name" (.str name))
  else pure payload

def inThread (t : ThreadId) (e : RuntimeEventRow) : Bool := e.threadId = some t

def inRun (r : RunId) (e : RuntimeEventRow) : Bool := e.runId = some r

/-- `thread.event_seq = n`. -/
def ThreadRow.numbered (n : Nat) (thread : ThreadRow) : ThreadRow := { thread with eventSeq := n }

/-- `run.event_seq = max(run.event_seq, n)`. -/
def RunRow.numbered (n : Nat) (run : RunRow) : RunRow :=
  { run with eventSeq := max run.eventSeq n }

/-- `thread.status = status`. -/
def ThreadRow.withStatus (status : ThreadStatus) (thread : ThreadRow) : ThreadRow :=
  { thread with status := status }

/-- The next number of a thread's log. -/
def nextThreadSequence (t : ThreadId) : Txn Nat := do
  match ← lockThread t with
  | none => .throw (missingThread t)
  | some thread => do
      let maxSequence ← query fun db => db.maxSequence (inThread t)
      assignThread t (.numbered (max thread.eventSeq maxSequence + 1))
      pure (max thread.eventSeq maxSequence + 1)

/-- The next number in the log of the run's thread, or of the run itself. -/
def nextSequence (run : RunRow) : Txn Nat :=
  match run.threadId with
  | some t => nextThreadSequence t
  | none => do
      let maxSequence ← query fun db => db.maxSequence (inRun run.runId)
      pure (max run.eventSeq maxSequence + 1)

/-- The row a new event is stored in. -/
def eventRow (now : Time) (runId : Option RunId) (threadId : Option ThreadId) (sequence : Nat)
    (topic : String) (payload : Dict) (ns : List String) (terminal : Bool) :
    RuntimeEventRow where
  runId := runId
  threadId := threadId
  sequence := sequence
  topic := topic
  «namespace» := ns
  payload := payload.setDefault "timestamp" (.num (now / 1000 : Nat))
  terminal := terminal
  createdAt := now

/-- The terminal event that a new terminal event must not repeat. -/
def existingTerminal (runId : RunId) (terminal : Bool) : Txn (Option RuntimeEventRow) :=
  if terminal then query fun db => db.events.find? fun e => inRun runId e && e.terminal
  else pure none

/-- The new row of `record_event`, for the run it loaded. -/
def appendRunEvent (now : Time) (run : RunRow) (topic : String) (payload : Dict)
    (ns : List String) (terminal : Bool) : Txn RuntimeEventRow := do
  let sequence ← nextSequence run
  assignRun run.runId (.numbered sequence)
  let event := eventRow now (some run.runId) run.threadId sequence topic payload ns terminal
  insertEvent event
  pure event

/-- `record_event` for a run. -/
def recordRunEvent (now : Time) (runId : RunId) (threadId : Option ThreadId) (topic : String)
    (payload : Dict) (ns : List String) (terminal : Bool) : Txn RuntimeEventRow := do
  match ← lockRun runId with
  | none => .throw (missingRun runId)
  | some run =>
      -- a caller without a thread writes in the thread of the run
      if threadId.isSome && threadId ≠ run.threadId then .throw foreignEvent
      else do
        let payload ← withGraphName run topic payload
        match ← existingTerminal runId terminal with
        -- the run has its terminal event: nothing is written
        | some event => pure event
        | none => appendRunEvent now run topic payload ns terminal

/-- `record_event` with `run_id=None`. -/
def recordThreadEvent (now : Time) (threadId : ThreadId) (topic : String) (payload : Dict)
    (ns : List String) (terminal : Bool) : Txn RuntimeEventRow := do
  let sequence ← nextThreadSequence threadId
  let event := eventRow now none (some threadId) sequence topic payload ns terminal
  insertEvent event
  pure event

/-- `record_event`. -/
def recordEvent (now : Time) (runId : Option RunId) (threadId : Option ThreadId)
    (topic : String) (payload : Dict) (ns : List String) (terminal : Bool) :
    Txn RuntimeEventRow :=
  match runId, threadId with
  | some runId, _ => recordRunEvent now runId threadId topic payload ns terminal
  | none, some threadId => recordThreadEvent now threadId topic payload ns terminal
  | none, none => .throw (.valueError "thread_id is required when recording a runless event")

/-- The rows of a batch of message deltas numbered from `sequence + 1`. -/
def deltaRows (now : Time) (runId : RunId) (threadId : Option ThreadId) :
    Nat → List (Dict × List String) → List RuntimeEventRow
  | _, [] => []
  | sequence, (payload, ns) :: events =>
      eventRow now (some runId) threadId (sequence + 1) "messages" payload ns false ::
        deltaRows now runId threadId (sequence + 1) events

def insertEvents : List RuntimeEventRow → Txn Unit
  | [] => pure ()
  | e :: es => do
      insertEvent e
      insertEvents es

/-- The last number before a batch of deltas. -/
def lastSequence (run : RunRow) : Txn Nat :=
  match run.threadId with
  | some t => do
      match ← lockThread t with
      | none => .throw (missingThread t)
      | some thread => do
          let maxSequence ← query fun db => db.maxSequence (inThread t)
          pure (max (max thread.eventSeq run.eventSeq) maxSequence)
  | none => do
      let maxSequence ← query fun db => db.maxSequence (inRun run.runId)
      pure (max run.eventSeq maxSequence)

/-- `run.event_seq = n`. -/
def RunRow.renumbered (n : Nat) (run : RunRow) : RunRow := { run with eventSeq := n }

def assignThreadOf (threadId : Option ThreadId) (f : ThreadRow → ThreadRow) : Txn Unit :=
  match threadId with
  | some t => assignThread t f
  | none => pure ()

/-- `record_message_deltas`. -/
def recordMessageDeltas (now : Time) (runId : RunId) (threadId : Option ThreadId)
    (events : List (Dict × List String)) : Txn (List RuntimeEventRow) := do
  if events.isEmpty then pure []
  else do
    match ← lockRun runId with
    | none => .throw (missingRun runId)
    | some run =>
        if threadId.isSome && threadId ≠ run.threadId then .throw foreignEvent
        else do
          let sequence ← lastSequence run
          assignRun runId (.renumbered (sequence + events.length))
          assignThreadOf run.threadId (.numbered (sequence + events.length))
          let rows := deltaRows now runId run.threadId sequence events
          insertEvents rows
          pure rows

/-! ## Submission -/

/-- The arguments of `create`. `runId` is the UUID the new row draws. -/
structure Submission where
  runId : RunId
  assistantId : AssistantId
  threadId : Option ThreadId
  kwargs : Dict
  metadata : Dict
  idempotencyKey : Option String
  multitaskStrategy : Option String
  deriving DecidableEq, Repr

/-- `idempotency_key` when it is truthy. -/
def Submission.key (q : Submission) : Option String :=
  match q.idempotencyKey with
  | some key => if key = "" then none else some key
  | none => none

def findKey (key : String) (db : Db) : Option RunRow :=
  db.runs.rows.find? fun r => r.idempotencyKey = some key

/-- The run that already carries the key, if it is for the same target. -/
def sameTarget (q : Submission) (existing : RunRow) : Txn RunRow :=
  if existing.threadId ≠ q.threadId || existing.assistantId ≠ q.assistantId then
    .throw (.runConflict "Idempotency key belongs to another run target")
  else pure existing

def isActive (threadId : Option ThreadId) (r : RunRow) : Bool :=
  r.threadId = threadId && (r.status = .pending || r.status = .running)

/-- `SELECT coalesce(max(queue_position), 0) + 1`. -/
def nextPosition (threadId : Option ThreadId) (db : Db) : Nat :=
  (((db.runs.rows.filter fun r => r.threadId = threadId).filterMap
    (·.queuePosition)).foldr max 0) + 1

/-- The row `create` adds. -/
def Submission.row (repo : RunRepository) (now : Time) (q : Submission) (position : Nat) :
    RunRow where
  runId := q.runId
  threadId := q.threadId
  assistantId := q.assistantId
  maxAttempts := repo.maxAttempts
  idempotencyKey := q.idempotencyKey
  metadata := q.metadata
  kwargs := q.kwargs.without "__graphharbor_resume_after_drain"
  queuePosition := some position
  multitaskStrategy := q.multitaskStrategy
  createdAt := now
  updatedAt := now

/-- The insert in its savepoint, and the recovery of the loser of a race. -/
def insertOrExisting (q : Submission) (run : RunRow) : Txn RunRow := do
  let inserted ← .perform (.insertRun run)
  if inserted then pure run
  -- the unique index refused the row: a race was lost, on the key if there is one
  else
    match q.key with
    | none => .throw .integrity
    | some key => do
        match ← query (findKey key) with
        | none => .throw .integrity
        | some existing => sameTarget q existing

/-- The check of `multitask_strategy="reject"`. -/
def rejects (q : Submission) : Txn Bool :=
  if q.threadId.isSome && q.multitaskStrategy = some "reject" && !isResume q.kwargs
  then query fun db => db.runs.rows.any (isActive q.threadId)
  else pure false

/-- `create` after the thread lock and the key lookup. -/
def submit (repo : RunRepository) (now : Time) (q : Submission) : Txn RunRow := do
  if ← rejects q then .throw (.runConflict "Thread already has a pending or running run")
  else do
    let position ← query (nextPosition q.threadId)
    insertOrExisting q (q.row repo now position)

/-- `select(ThreadRow).with_for_update()` when there is a thread. -/
def lockThreadOf (threadId : Option ThreadId) : Txn (Option ThreadRow) :=
  match threadId with
  | some t => lockThread t
  | none => pure none

/-- `create`. -/
def create (repo : RunRepository) (now : Time) (q : Submission) : Txn RunRow := do
  let _ ← lockThreadOf q.threadId
  match q.key with
  | none => submit repo now q
  | some key => do
      match ← query (findKey key) with
      | some existing => sameTarget q existing
      | none => submit repo now q

/-! ## Claims -/

/-- The order of a thread's queue: resume commands, then `queue_position`,
`created_at`, `run_id`. -/
def queueKey (r : RunRow) : Nat ×ₗ Nat ×ₗ Time ×ₗ RunId :=
  toLex (if resumeKey r then 0 else 1,
    toLex (r.queuePosition.getD 0, toLex (r.createdAt, r.runId)))

/-- `lease_owner IS NOT NULL AND lease_expires_at > now`. -/
def holdsLease (now : Time) (r : RunRow) : Bool :=
  r.leaseOwner.isSome && match r.leaseExpiresAt with
    | some expires => now < expires
    | none => false

/-- A run of `t` that keeps its thread from being claimed. -/
def occupies (now : Time) (t : ThreadId) (r : RunRow) : Bool :=
  r.threadId = some t &&
    (r.status = .running || r.reason = some .rollback || holdsLease now r)

/-- The thread waits for an answer this run does not give. -/
def interruptedThread (t : ThreadId) (r : RunRow) (thread : ThreadRow) : Bool :=
  thread.threadId = t && !thread.interrupts.isEmpty && !resumeKey r

/-- Another pending run of `t` comes before `r`. -/
def precedes (t : ThreadId) (r earlier : RunRow) : Bool :=
  earlier.threadId = some t && earlier.status = .pending && earlier.runId ≠ r.runId &&
    queueKey earlier < queueKey r

def isDue (now : Time) (r : RunRow) : Bool :=
  match r.nextAttemptAt with
  | none => true
  | some next => next ≤ now

/-- The predicate `eligible` of `claim_next`. -/
def eligible (now : Time) (db : Db) (r : RunRow) : Bool :=
  r.status = .pending && isDue now r &&
    match r.threadId with
    | none => true
    | some t =>
        -- no run of the thread executes, rolls back or holds a lease, the thread waits for no
        -- answer that this run does not give, and this run is its first
        !db.runs.rows.any (occupies now t) &&
        !db.threads.rows.any (interruptedThread t r) &&
        !db.runs.rows.any (precedes t r)

/-- `capture_baseline`: once for each run. -/
def captureBaseline (now : Time) (run : RunId) (thread : ThreadRow) : Txn Unit := do
  if ← query fun db => (db.baselines.find? run).isSome then pure ()
  else do
    let checkpoints ← query fun db =>
      db.checkpoints.rows.filter fun c => c.scope = .thread thread.threadId
    let writes ← query fun db =>
      db.checkpointWrites.rows.filter fun w => w.scope = .thread thread.threadId
    write fun db =>
      { db with
        baselines := db.baselines.insert
          { runId := run, threadId := thread.threadId, checkpoints, writes
            projection :=
              { capturedAt := now, values := thread.values, interrupts := thread.interrupts
                status := thread.status, error := thread.error, graphId := thread.graphId
                stateUpdatedAt := thread.stateUpdatedAt } } }

/-- The thread of the picked run is free, and the run still eligible under its lock. -/
def recheck (now : Time) (run : RunRow) : Txn Bool :=
  match run.threadId with
  | none => pure true
  | some t => do
      -- `SKIP LOCKED`: a thread that is locked counts as taken
      match ← .perform (.lockThread t true true) with
      | none => pure false
      | some thread =>
          if !thread.interrupts.isEmpty && !isResume run.kwargs then pure false
          else query fun db => db.runs.rows.any fun r => r.runId = run.runId && eligible now db r

/-- Lock the thread, if there is one and it exists, and assign to it. -/
def updateThreadOf (threadId : Option ThreadId) (f : ThreadRow → ThreadRow) : Txn Unit := do
  match ← lockThreadOf threadId with
  | none => pure ()
  | some thread => assignThread thread.threadId f

/-- The assignments to a run without attempts left. -/
def exhausted (now : Time) (run : RunRow) : RunRow :=
  { run with
    status := .error, reason := some .infrastructureError
    nextAttemptAt := none, updatedAt := now }

/-- A picked run without attempts left ends in error. -/
def exhaust (now : Time) (run : RunRow) : Txn Unit := do
  assignRun run.runId (exhausted now)
  updateThreadOf run.threadId (.withStatus .idle)
  let _ ← recordRunEvent now run.runId run.threadId "lifecycle"
    (lifecycle .error .infrastructureError) [] true

/-- Another run of `t` executes or rolls back. -/
def executesBeside (t : ThreadId) (id : RunId) (r : RunRow) : Bool :=
  r.threadId = some t && (r.status = .running || r.reason = some .rollback) && r.runId ≠ id

/-- The baseline of the thread, unless another of its runs executes. -/
def enterThread (now : Time) (run : RunRow) : Txn Bool :=
  match run.threadId with
  | none => pure true
  | some t => do
      match ← lockThread t with
      -- without a row of the thread there is no baseline, and the run starts all the same
      | none => pure true
      | some thread => do
          if ← query fun db => db.runs.rows.any (executesBeside t run.runId) then pure false
          else do
            captureBaseline now run.runId thread
            assignThread t (.withStatus .busy)
            pure true

/-- `run.max_attempts or self.max_attempts`. -/
def attemptsOr (n default : Nat) : Nat := if n = 0 then default else n

/-- The assignments of a claim. -/
def claimed (repo : RunRepository) (now : Time) (owner : String) (run : RunRow) : RunRow :=
  { run with
    status := .running
    reason := none
    nextAttemptAt := none
    retryCount := run.retryCount + 1
    maxAttempts := min (attemptsOr run.maxAttempts repo.maxAttempts) repo.maxAttempts
    leaseOwner := some owner
    leaseExpiresAt := some (now + repo.lease)
    heartbeatAt := some now }

/-- The picked run becomes `running` under a lease. -/
def startRun (repo : RunRepository) (now : Time) (owner : String) (run : RunRow) :
    Txn (Option RunRow) := do
  if ← enterThread now run then do
    -- `on_conflict_do_update`: a lease row of an earlier attempt is overwritten
    assignRun run.runId (claimed repo now owner)
    write fun db =>
      { db with
        leases := db.leases.upsert
          { runId := run.runId, owner, expiresAt := now + repo.lease, heartbeatAt := now
            generation := run.retryCount + 1 } }
    getRun run.runId
  else pure none

/-- `claim_next`. -/
def claimNext (repo : RunRepository) (now : Time) (owner : String) : Txn (Option RunRow) := do
  match ← .perform (.pickRun (eligible now) fun r => toLex (r.createdAt, r.runId)) with
  | none => pure none
  | some run => do
      if ← recheck now run then
        if run.retryCount ≥ run.maxAttempts then do
          exhaust now run
          pure none
        else startRun repo now owner run
      else pure none

/-! ## Leases and ends of attempts -/

/-- `run_id = id AND owner = owner AND expires_at > now`, of a lease row. -/
def RunLeaseRow.live (now : Time) (id : RunId) (owner : String) (l : RunLeaseRow) : Bool :=
  l.runId = id && l.owner = owner && now < l.expiresAt

def RunLeaseRow.renewed (now expires : Time) (id : RunId) (owner : String) (l : RunLeaseRow) :
    RunLeaseRow :=
  if l.live now id owner then { l with expiresAt := expires, heartbeatAt := now } else l

def RunRow.renewed (now expires : Time) (owner : String) (r : RunRow) : RunRow :=
  -- the second update has no condition on the expiry
  if r.leaseOwner = some owner then
    { r with leaseExpiresAt := some expires, heartbeatAt := some now, updatedAt := now }
  else r

theorem RunLeaseRow.renewed_runId (now expires : Time) (id : RunId) (owner : String)
    (l : RunLeaseRow) : (l.renewed now expires id owner).runId = l.runId := by
  unfold renewed
  split <;> rfl

theorem RunRow.renewed_runId (now expires : Time) (owner : String) (r : RunRow) :
    (r.renewed now expires owner).runId = r.runId := by
  unfold renewed
  split <;> rfl

/-- The two updates of `renew`; `false` when no live lease row was found. -/
def renewLease (now expires : Time) (id : RunId) (owner : String) : Txn Bool := do
  let renewed ← .perform (.update (fun db => db.leases.rows.any (·.live now id owner))
    (fun db => { db with
      leases := db.leases.modify id (·.renewed now expires id owner)
        (RunLeaseRow.renewed_runId now expires id owner) })
    fun _ => ⟨rfl, rfl⟩)
  if renewed then do
    .perform (.updateRun id (·.renewed now expires owner) (RunRow.renewed_runId now expires owner))
    pure true
  else pure false

/-- `renew`. -/
def renew (repo : RunRepository) (now : Time) (id : RunId) (owner : String) : Txn Bool := do
  match ← lockRun id with
  | none => pure false
  | some run =>
      if run.status ≠ .running || run.leaseOwner ≠ some owner then pure false
      else renewLease now (now + repo.lease) id owner

/-- The assignments that end an attempt and release its lease. -/
def released (now : Time) (change : Transition) (next : Option Time) (run : RunRow) : RunRow :=
  { run with
    status := change.status, reason := some change.reason
    leaseOwner := none, leaseExpiresAt := none, nextAttemptAt := next
    heartbeatAt := some now, updatedAt := now }

def deleteLease (id : RunId) : Txn Unit := write fun db => db.deleteLease id

/-- The events `finish` records before the terminal one: topic, payload, namespace. -/
def recordPreceding (now : Time) (id : RunId) (threadId : Option ThreadId) :
    List (String × Dict × List String) → Txn (List RuntimeEventRow)
  | [] => pure []
  | (topic, payload, ns) :: events => do
      let event ← recordRunEvent now id threadId topic payload ns false
      let rest ← recordPreceding now id threadId events
      pure (event :: rest)

/-- The terminal event of `finish`, if there is one. -/
def recordEnd (now : Time) (id : RunId) (threadId : Option ThreadId) (payload : Option Dict) :
    Txn (List RuntimeEventRow) :=
  match payload with
  | none => pure []
  | some payload => do
      let event ← recordRunEvent now id threadId "lifecycle" payload [] true
      pure [event]

/-- The payload of the terminal event: the given one, or the default one. -/
def endPayload (target : RunStatus) (reason : RunReason) (payload : Option Dict) : Option Dict :=
  if payload.isNone && target.isTerminal then some (lifecycle target reason) else payload

/-- The change of `finish`, after its checks. -/
def finishRow (now : Time) (run : RunRow) (target : RunStatus) (reason : RunReason)
    (payload : Option Dict) (preceding : List (String × Dict × List String)) :
    Txn (List RuntimeEventRow) := do
  let before ← recordPreceding now run.runId run.threadId preceding
  -- the preceding events are recorded before the status changes
  match transition run.status target reason run.retryCount with
  | none => .throw .invalidTransition
  | some change => do
      assignRun run.runId (released now change none)
      deleteLease run.runId
      let last ← recordEnd now run.runId run.threadId payload
      pure (before ++ last)

/-- `finish`: the recorded events (`last_transition_events`), or `none` when the run
already ended. -/
def finish (now : Time) (id : RunId) (owner : String) (target : RunStatus) (reason : RunReason)
    (terminalPayload : Option Dict) (preceding : List (String × Dict × List String)) :
    Txn (Option (List RuntimeEventRow)) := do
  match ← lockRun id with
  | none => .throw (missingRun id)
  | some run =>
      -- an ended run is left alone, whoever asks
      if run.status.isTerminal then pure none
      else if run.leaseOwner ≠ some owner then .throw (foreignRun id)
      else if terminalPayload.isSome && !target.isTerminal then
        .throw (.valueError "terminal_payload requires a terminal run status")
      else do
        let events ← finishRow now run target reason (endPayload target reason terminalPayload)
          preceding
        pure (some events)

/-- `terminal_payload or {…}`. -/
def payloadOr (payload : Option Dict) (default : Dict) : Dict :=
  match payload with
  | some p => if p.isEmpty then default else p
  | none => default

/-- `infrastructure and run.retry_count < min(run.max_attempts, self.max_attempts)`. -/
def retries (repo : RunRepository) (infrastructure : Bool) (run : RunRow) : Bool :=
  infrastructure && run.retryCount < min run.maxAttempts repo.maxAttempts

/-- The transition of `fail`. -/
def failChange (repo : RunRepository) (infrastructure : Bool) (reason : RunReason)
    (run : RunRow) : Option Transition :=
  if retries repo infrastructure run then transition run.status .pending .retry run.retryCount
  else transition run.status .error reason run.retryCount

/-- `next_attempt_at` after `fail`. -/
def failNext (repo : RunRepository) (now : Time) (infrastructure : Bool) (run : RunRow) :
    Option Time :=
  if retries repo infrastructure run then some (now + repo.retryDelay run.retryCount) else none

/-- `fail`: `none` when the run already ended, else the recorded event. -/
def fail (repo : RunRepository) (now : Time) (id : RunId) (owner : String)
    (infrastructure : Bool) (reason : RunReason) (terminalPayload : Option Dict) :
    Txn (Option RuntimeEventRow) := do
  match ← lockRun id with
  | none => .throw (missingRun id)
  | some run =>
      -- here the owner is checked first, unlike in `finish`
      if run.leaseOwner ≠ some owner then .throw (foreignRun id)
      else if run.status.isTerminal then pure none
      else
        match failChange repo infrastructure reason run with
        | none => .throw .invalidTransition
        | some change => do
            assignRun id (released now change (failNext repo now infrastructure run))
            deleteLease id
            let event ← recordRunEvent now id run.threadId "lifecycle"
              (payloadOr terminalPayload (lifecycle change.status change.reason)) []
              change.status.isTerminal
            pure (some event)

/-- `{**run.kwargs, "__graphharbor_resume_after_drain": True}`. -/
def afterDrain (drained : Bool) (kwargs : Dict) : Dict :=
  if drained then kwargs.set "__graphharbor_resume_after_drain" (.bool true) else kwargs

/-- The assignments of `requeue_for_shutdown`. -/
def shutDown (repo : RunRepository) (now : Time) (drained : Bool) (change : Transition)
    (run : RunRow) : RunRow :=
  { released now change (some (now + repo.retryDelay run.retryCount)) run with
    kwargs := afterDrain drained run.kwargs }

/-- `requeue_for_shutdown`: `none` when the run is not running, else the recorded event. -/
def requeueForShutdown (repo : RunRepository) (now : Time) (id : RunId) (owner : String)
    (drained : Bool) : Txn (Option RuntimeEventRow) := do
  match ← lockRun id with
  | none => .throw (missingRun id)
  | some run =>
      if run.leaseOwner ≠ some owner then .throw (foreignRun id)
      else if run.status ≠ .running then pure none
      else
        match transition run.status .pending .shutdownRequeue run.retryCount with
        | none => .throw .invalidTransition
        | some change => do
            assignRun id (shutDown repo now drained change)
            updateThreadOf run.threadId (.withStatus .idle)
            deleteLease id
            let event ← recordRunEvent now id run.threadId "lifecycle"
              (lifecycle change.status change.reason) [] false
            pure (some event)

/-! ## The reaper -/

def isExpired (now : Time) (r : RunRow) : Bool :=
  r.status = .running && match r.leaseExpiresAt with
    | some expires => expires < now
    | none => false

/-- `transition` of an expired run: to `error` when its attempts are used up. -/
def expiryChange (run : RunRow) : Option Transition :=
  if run.retryCount ≥ run.maxAttempts then
    transition run.status .error .infrastructureError run.retryCount
  -- the attempt whose lease ran out stays counted
  else transition run.status .pending .shutdownRequeue run.retryCount

/-- The assignments of the reaper. -/
def reaped (repo : RunRepository) (now : Time) (change : Transition) (run : RunRow) : RunRow :=
  { run with
    status := change.status, reason := some change.reason
    nextAttemptAt :=
      if run.retryCount ≥ run.maxAttempts then none
      else some (now + repo.retryDelay run.retryCount)
    leaseOwner := none, leaseExpiresAt := none, updatedAt := now }

/-- The thread of a reaped run. -/
def idled (status : RunStatus) (thread : ThreadRow) : ThreadRow :=
  { thread with
    status := .idle
    error := if status = .error then
      some (.obj [("reason", .str RunReason.infrastructureError.value)]) else thread.error }

/-- One run of the loop of `requeue_expired`. -/
def requeueOne (repo : RunRepository) (now : Time) (run : RunRow) : Txn RuntimeEventRow := do
  match expiryChange run with
  | none => .throw .invalidTransition
  | some change => do
      assignRun run.runId (reaped repo now change)
      updateThreadOf run.threadId (idled change.status)
      recordRunEvent now run.runId run.threadId "lifecycle"
        (lifecycle change.status change.reason) [] (change.status = .error)

def requeueAll (repo : RunRepository) (now : Time) : List RunRow → Txn (List RuntimeEventRow)
  | [] => pure []
  | run :: runs => do
      let event ← requeueOne repo now run
      let rest ← requeueAll repo now runs
      pure (event :: rest)

/-- `requeue_expired`: the recorded events, one for each reclaimed run. -/
def requeueExpired (repo : RunRepository) (now : Time) : Txn (List RuntimeEventRow) := do
  -- `SKIP LOCKED`: a run whose row is locked is left to the next round
  let runs ← .perform (.lockRuns (isExpired now) fun _ _ => true)
  let events ← requeueAll repo now runs
  write fun db =>
    { db with leases := db.leases.filter fun l => !runs.any fun run => run.runId = l.runId }
  pure events

/-! ## Retention -/

def prunable (cutoff : Time) (id : RunId) (e : RuntimeEventRow) : Bool :=
  e.runId = some id && e.createdAt < cutoff && !e.terminal

/-- The batch of `prune_expired_events`: the first events of the run, by sequence. -/
def pruneBatch (cutoff : Time) (id : RunId) (batchSize : Nat) (db : Db) : List RuntimeEventRow :=
  ((db.events.filter (prunable cutoff id)).insertionSort
    fun a b => a.sequence ≤ b.sequence).take batchSize

/-- An old terminal run with an event to delete. -/
def isPrunable (cutoff : Time) (db : Db) (r : RunRow) : Bool :=
  r.status.isTerminal && r.updatedAt < cutoff && db.events.any (prunable cutoff r.runId)

def RunRow.prunedThrough (n : Nat) (run : RunRow) : RunRow :=
  { run with eventPrunedThrough := max run.eventPrunedThrough n }

def ThreadRow.prunedThrough (n : Nat) (thread : ThreadRow) : ThreadRow :=
  { thread with eventPrunedThrough := max thread.eventPrunedThrough n }

/-- `DELETE FROM runtime_events … RETURNING sequence`, for the events of a batch. -/
def deleteEvents (batch : List RuntimeEventRow) : Txn (List Nat) :=
  .perform (.update (fun db => (db.events.filter (· ∈ batch)).map (·.sequence))
    (fun db => { db with events := db.events.filter (· ∉ batch) }) fun _ => ⟨rfl, rfl⟩)

/-- The watermarks after the events `deleted` are gone. -/
def markPruned (run : RunRow) (deleted : List Nat) : Txn Unit := do
  -- the watermark is the greatest number deleted, not the cutoff
  assignRun run.runId (.prunedThrough (deleted.foldr max 0))
  match run.threadId with
  | none => pure ()
  | some t => .perform (.updateThread t (.prunedThrough (deleted.foldr max 0)) fun _ => rfl)

/-- `prune_expired_events`. -/
def pruneExpiredEvents (now : Time) (retentionSeconds batchSize : Nat) : Txn Nat := do
  if retentionSeconds = 0 || batchSize = 0 then pure 0
  else do
    let cutoff := now - retentionSeconds * second
    match ← .perform (.pickRun (isPrunable cutoff) fun r => toLex (r.updatedAt, r.runId)) with
    | none => pure 0
    | some run => do
        let batch ← query (pruneBatch cutoff run.runId batchSize)
        if batch.isEmpty then pure 0
        else do
          let deleted ← deleteEvents batch
          if deleted.isEmpty then pure 0
          else do
            markPruned run deleted
            pure deleted.length

end GraphHarbor
