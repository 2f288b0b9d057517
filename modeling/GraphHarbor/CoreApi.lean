import GraphHarbor.Worker

/-!
# `core_api.py`

The transactions of the HTTP operations on runs and threads. Authentication and the
parsing of a request are left out: a program starts from the checked arguments.
-/

namespace GraphHarbor

open Kit

/-- `runs_create` for an authorised assistant: the thread must exist. -/
def runsCreate (repo : RunRepository) (now : Time) (q : Submission) : Txn RunRow := do
  match q.threadId with
  | none => create repo now q
  | some t => do
      match ← getThread t with
      | none => .throw (.valueError "thread not found")
      -- `create` locks the thread, which may be deleted in between
      | some _ => create repo now q

/-- The assignments of an interrupt: a running run keeps its lease. -/
def RunRow.interruptedBy (now : Time) (change : Transition) (wasRunning : Bool)
    (run : RunRow) : RunRow :=
  { run with
    status := change.status, reason := some change.reason
    leaseOwner := if wasRunning then run.leaseOwner else none
    leaseExpiresAt := if wasRunning then run.leaseExpiresAt else none
    heartbeatAt := some now, updatedAt := now }

/-- `if not was_running: delete(RunLeaseRow)`. -/
def deleteLeaseUnless (wasRunning : Bool) (id : RunId) : Txn Unit :=
  if wasRunning then pure () else deleteLease id

/-- `_cancel_row` with `action="interrupt"`, for the locked row. -/
def interruptRow (now : Time) (row : RunRow) : Txn Unit := do
  if row.status.isTerminal then pure ()
  else do
    match transition row.status .interrupted .cancelRequested row.retryCount with
    | none => .throw .invalidTransition
    | some change => do
        assignRun row.runId (.interruptedBy now change (row.status = .running))
        deleteLeaseUnless (row.status = .running) row.runId
        let _ ← recordRunEvent now row.runId row.threadId "lifecycle"
          (lifecycle .interrupted .cancelRequested) [] true

/-- The assignments of a rollback request. -/
def RunRow.rollingBack (now : Time) (run : RunRow) : RunRow :=
  { run with status := .interrupted, reason := some .rollback, updatedAt := now }

/-- `_cancel_row` with `action="rollback"`, for the locked row. -/
def rollbackRow (now : Time) (row : RunRow) : Txn Unit := do
  -- first what could forbid the rollback, while the row is as it was
  rollbackRun row true
  -- no worker holds the run: it is undone at once, else when the worker has stopped
  if row.leaseOwner.isNone then rollbackRun row false
  else assignRun row.runId (.rollingBack now)

inductive CancelAction
  | interrupt | rollback
  deriving DecidableEq, Repr

/-- `_cancel_row`. -/
def cancelRow (now : Time) (id : RunId) (action : CancelAction) : Txn Unit := do
  match ← .perform (.lockRun id (fun _ => true) true false) with
  | none => pure ()
  | some row =>
      match action with
      | .rollback => rollbackRow now row
      | .interrupt => interruptRow now row

/-- `_authorized_run`: the run, if its thread exists. -/
def authorizedRun (id : RunId) : Txn (Option RunRow) := do
  match ← getRun id with
  | none => pure none
  | some row =>
      match row.threadId with
      | none => pure (some row)
      | some t => do
          -- the thread may be gone while the caller still has the row of its run
          let allowed ← query fun db => (db.threads.find? t).isSome
          pure (if allowed then some row else none)

/-- `runs_cancel`: `false` when the run is not found. -/
def runsCancel (now : Time) (id : RunId) (action : CancelAction) : Txn Bool := do
  match ← authorizedRun id with
  | none => pure false
  | some _ => do
      cancelRow now id action
      pure true

/-- `runs_delete`. -/
def runsDelete (id : RunId) : Txn Unit := do
  match ← authorizedRun id with
  | none => pure ()
  | some _ => deleteRun id

/-- `threads_create`: `false` when the thread exists. -/
def threadsCreate (now : Time) (t : ThreadId) (graphId : Option String) : Txn Bool :=
  .perform (.insertThread { threadId := t, graphId, stateUpdatedAt := some now })

/-- The transaction of `threads_delete`, and of `threads_prune` with strategy `delete`
for one thread. -/
def threadsDelete (t : ThreadId) : Txn Unit := do
  match ← getThread t with
  -- its runs stay, its checkpoints are for the second transaction
  | none => pure ()
  | some _ => .perform (.deleteThread t)

/-- `delete_thread_checkpoints`, the second transaction of a thread deletion. -/
def deleteThreadCheckpoints (t : ThreadId) : Txn Unit :=
  write fun db =>
    { db with
      checkpoints := db.checkpoints.filter fun c => c.scope ≠ .thread t
      checkpointWrites := db.checkpointWrites.filter fun w => w.scope ≠ .thread t }

/-- `threads_prune` with strategy `keep_latest` for one thread. -/
def threadsPrune (blobs : List BlobKey) (t : ThreadId) : Txn Unit := do
  match ← lockThread t with
  | none => pure ()
  | some _ => pruneCheckpoints blobs t

def ThreadRow.stateUpdated (now : Time) (thread : ThreadRow) : ThreadRow :=
  { thread with stateUpdatedAt := some now }

/-- The last transaction of `threads_update_state`. -/
def threadsUpdateState (now : Time) (t : ThreadId) : Txn Unit := do
  match ← getThread t with
  | none => pure ()
  | some _ => assignThread t (.stateUpdated now)

/-! ## The answer of an interrupt -/

/-- The thread without the answered interrupt, and `busy`. -/
def ThreadRow.answered (interruptId : String) (thread : ThreadRow) : ThreadRow :=
  { thread with interrupts := thread.interrupts.without interruptId, status := .busy }

/-- The last transaction of `input.respond` in `protocol_commands`: the thread is read, and
written when the client may still see it. Before it come reads and a submission. -/
def inputRespond (t : ThreadId) (interruptId : String) : Txn Unit := do
  match ← getThread t with
  | none => pure ()
  | some _ => do
      if ← query fun db => (db.threads.find? t).isSome then
        assignThread t (.answered interruptId)
      else pure ()

/-! ## Queue operations -/

/-- A pending run of the thread that is not a resume command. -/
def isQueued (t : ThreadId) (r : RunRow) : Bool :=
  r.threadId = some t && r.status = .pending && !resumeKey r

/-- `ORDER BY queue_position, created_at, run_id`; a missing position comes last. -/
def positionKey (r : RunRow) : Nat ×ₗ Nat ×ₗ Time ×ₗ RunId :=
  toLex (if r.queuePosition.isNone then 1 else 0,
    toLex (r.queuePosition.getD 0, toLex (r.createdAt, r.runId)))

inductive QueueOperation
  | cancel | reorder
  deriving DecidableEq, Repr

def queueChanged : Err := .valueError "queue changed; refresh and retry"

/-- `sorted(row.queue_position or index + 1 for index, row in enumerate(rows))`. -/
def queuePositions (rows : List RunRow) : List Nat :=
  (rows.zipIdx.map fun (row, index) =>
    match row.queuePosition with
    | some (n + 1) => n + 1
    | _ => index + 1).insertionSort (· ≤ ·)

def RunRow.atPosition (position : Nat) (run : RunRow) : RunRow :=
  { run with queuePosition := some position }

/-- `by_id[run_id].queue_position = position` for each pair. -/
def assignPositions : List (RunId × Nat) → Txn Unit
  | [] => pure ()
  | (id, position) :: rest => do
      assignRun id (.atPosition position)
      assignPositions rest

def interruptAll (now : Time) : List RunId → Txn Unit
  | [] => pure ()
  | id :: ids => do
      cancelRow now id .interrupt
      interruptAll now ids

/-- `runs_queue`. The caller has checked that `requested` is a subset of `expected`
without duplicates, and a permutation of it for a reorder. -/
def runsQueue (now : Time) (t : ThreadId) (operation : QueueOperation)
    (expected requested : List RunId) : Txn Unit := do
  match ← lockThread t with
  | none => .throw (.valueError "thread not found")
  | some _ => do
      let rows ← .perform (.lockRuns (isQueued t) fun a b => positionKey a ≤ positionKey b)
      -- the locked read skips the runs that others hold: the count finds them
      let count ← query fun db => (db.runs.rows.filter (isQueued t)).length
      if count ≠ rows.length || rows.map (·.runId) ≠ expected then .throw queueChanged
      else
        match operation with
        -- the requested runs take the positions that the queue has, in order
        | .reorder => assignPositions (requested.zip (queuePositions rows))
        | .cancel => interruptAll now requested

end GraphHarbor
