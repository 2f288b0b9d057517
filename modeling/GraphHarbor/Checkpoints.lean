import GraphHarbor.RunStore

/-!
# `checkpoint.py` and `checkpoint_mutations.py`

The fenced writes of the checkpoint saver, rollback to a captured baseline, and pruning.
The saver's own SQL (langgraph-checkpoint-postgres) is modelled by its upserts.
-/

namespace GraphHarbor

open Kit

/-- The token `checkpoint_writer` of an execution attempt: run, owner, generation. -/
structure WriterToken where
  runId : RunId
  owner : String
  generation : Nat
  deriving DecidableEq, Repr

/-- `str(run["thread_id"] or run_id)`. -/
def RunRow.scope (run : RunRow) : CheckpointScope :=
  match run.threadId with
  | some t => .thread t
  | none => .run run.runId

/-- The run that `_writer` finds still belongs to the token. -/
def WriterToken.owns (token : WriterToken) (now : Time) (scope : CheckpointScope)
    (run : RunRow) : Bool :=
  run.status = .running &&
    (match run.leaseExpiresAt with
      | some expires => now < expires
      | none => false) &&
    run.leaseOwner = some token.owner && run.retryCount = token.generation &&
    run.scope = scope

def lostRun : Err := .checkpointConflict "checkpoint writer no longer owns the run"
def activeThread : Err := .checkpointConflict "thread has an active run or rollback"

/-- `run_id = current_run_uuid`, for a run that is executing or rolling back. -/
def excludes (t : ThreadId) (requested : Option RunId) (r : RunRow) : Bool :=
  r.threadId = some t && (r.status = .running || r.reason = some .rollback) &&
    (r.reason = some .rollback || requested ≠ some r.runId)

/-- The check of `_writer` for a write on a thread without a token. -/
def unfencedWriter (t : ThreadId) (requested : Option RunId) : Txn Unit := do
  let active ← query fun db => db.runs.rows.any (excludes t requested)
  -- an active run forbids the write, unless the write is its own
  if active then .throw activeThread
  else if requested.isNone then
    -- a write of a client: no run of the thread can be rolled back past it
    write fun db => { db with baselines := db.baselines.filter fun b => b.threadId ≠ t }
  else pure ()

/-- The check of `_writer` for a write with a token. -/
def fencedWriter (now : Time) (scope : CheckpointScope) (token : WriterToken) : Txn Unit := do
  match ← lockRun token.runId with
  | none => .throw lostRun
  | some run => if token.owns now scope run then pure () else .throw lostRun

def checkToken (now : Time) (scope : CheckpointScope) (token : Option WriterToken) : Txn Unit :=
  match token with
  | some token => fencedWriter now scope token
  | none => pure ()

/-- The thread of the write is locked; without a token it must be free. -/
def enterScope (scope : CheckpointScope) (token : Option WriterToken)
    (requested : Option RunId) : Txn Unit :=
  match scope with
  | .run _ => pure ()
  | .thread t => do
      -- the run was locked before the thread, as everywhere
      let _ ← lockThread t
      if token.isNone then unfencedWriter t requested else pure ()

/-- `FencedPostgresSaver._writer`: what must hold before a checkpoint write of `scope`.
`requested` is the run id of the write's config. -/
def writer (now : Time) (scope : CheckpointScope) (token : Option WriterToken)
    (requested : Option RunId) : Txn Unit := do
  checkToken now scope token
  enterScope scope token requested

/-- `metadata = {**metadata, "run_id": writer[0]}`. -/
def stamped (token : Option WriterToken) (metadata : Dict) : Dict :=
  match token with
  | some token => metadata.set "run_id" (.num token.runId)
  | none => metadata

/-- `aput`: one checkpoint, inserted or replaced. -/
def aput (now : Time) (token : Option WriterToken) (requested : Option RunId)
    (row : CheckpointRow) : Txn Unit := do
  writer now row.scope token requested
  write fun db =>
    { db with
      checkpoints := db.checkpoints.upsert { row with metadata := stamped token row.metadata } }

/-- `ON CONFLICT DO UPDATE` or `DO NOTHING`, by the kind of the channels. -/
def putWrite (overwrite : Bool) (t : Table CheckpointWriteRow) (w : CheckpointWriteRow) :
    Table CheckpointWriteRow :=
  if overwrite then t.upsert w else t.insert w

/-- `aput_writes`: the pending writes of one task. -/
def aputWrites (now : Time) (token : Option WriterToken) (requested : Option RunId)
    (scope : CheckpointScope) (rows : List CheckpointWriteRow) (overwrite : Bool) :
    Txn Unit := do
  writer now scope token requested
  write fun db =>
    { db with
      checkpointWrites :=
        (rows.map fun w => { w with scope := scope }).foldl (putWrite overwrite)
          db.checkpointWrites }

/-! ## Rollback -/

def threadGone : Err := .checkpointConflict "thread no longer exists"
def otherRuns : Err := .checkpointConflict "another run is executing on this thread"
def noBaseline : Err := .checkpointConflict "run has no safe rollback baseline"
def laterState : Err :=
  .checkpointConflict "later state depends on this run; rollback is unsafe"
def laterRun : Err := .checkpointConflict "a later run has already started on this thread"

/-- `str(checkpoint["metadata"].get("run_id", "")) == str(run_id)`. -/
def CheckpointRow.writtenBy (c : CheckpointRow) (id : RunId) : Bool :=
  c.metadata.get? "run_id" = some (.num id)

/-- A checkpoint that changed since the baseline and was not written by the run. -/
def RunCheckpointBaselineRow.foreign (b : RunCheckpointBaselineRow) (c : CheckpointRow) : Bool :=
  c.scope = .thread b.threadId && c ∉ b.checkpoints && !c.writtenBy b.runId

/-- Another baseline of the thread captured at the same time or later. -/
def RunCheckpointBaselineRow.overtaken (b other : RunCheckpointBaselineRow) : Bool :=
  other.threadId = b.threadId && other.runId ≠ b.runId &&
    b.projection.capturedAt ≤ other.projection.capturedAt

/-- The two checkpoint tables with the thread's rows replaced by those of the baseline. -/
def restoreCheckpoints (b : RunCheckpointBaselineRow) (db : Db) : Db :=
  { db with
    checkpointWrites := b.writes.foldl Table.insert
      (db.checkpointWrites.filter fun w => w.scope ≠ .thread b.threadId)
    checkpoints := b.checkpoints.foldl Table.insert
      (db.checkpoints.filter fun c => c.scope ≠ .thread b.threadId) }

/-- `setattr(thread, field, value)` for the captured columns. -/
def Projection.restore (p : Projection) (thread : ThreadRow) : ThreadRow :=
  { thread with
    values := p.values, interrupts := p.interrupts, status := p.status, error := p.error
    graphId := p.graphId, stateUpdatedAt := p.stateUpdatedAt }

def deleteRun (id : RunId) : Txn Unit := .perform (.deleteRun id)

/-- The rest of `rollback_run` when the run has a baseline. -/
def rollbackTo (b : RunCheckpointBaselineRow) (validateOnly : Bool) : Txn Unit := do
  if ← query fun db => db.checkpoints.rows.any b.foreign then .throw laterState
  else if ← query fun db => db.baselines.rows.any b.overtaken then .throw laterRun
  else if validateOnly then pure ()
  else do
    write (restoreCheckpoints b)
    assignThread b.threadId b.projection.restore
    deleteRun b.runId

/-- `rollback_run`; the caller holds the run. -/
def rollbackRun (run : RunRow) (validateOnly : Bool) : Txn Unit := do
  match run.threadId with
  | none => if validateOnly then pure () else deleteRun run.runId
  | some t => do
      match ← lockThread t with
      | none => .throw threadGone
      | some _ => do
          if ← query fun db => db.runs.rows.any (executesBeside t run.runId) then
            .throw otherRuns
          else do
            match ← query fun db => db.baselines.find? run.runId with
            | some b => rollbackTo b validateOnly
            | none =>
                -- a run that never started has nothing to undo
                if run.retryCount ≠ 0 || (run.status ≠ .pending && run.status ≠ .interrupted)
                then .throw noBaseline
                else if validateOnly then pure ()
                else deleteRun run.runId

/-- The execution of a run with a rollback request has stopped. -/
def hasStopped (now : Time) (owner : Option String) (run : RunRow) : Bool :=
  run.leaseOwner.isNone || (owner.isSome && run.leaseOwner = owner) ||
    match run.leaseExpiresAt with
    | some expires => expires ≤ now
    | none => false

/-- One run of the loop of `complete_rollbacks`. -/
def completeRollback (now : Time) (owner : Option String) (id : RunId) : Txn Unit := do
  match ← .perform (.lockRun id (fun r => r.reason = some .rollback) false true) with
  | none => pure ()
  | some run => if hasStopped now owner run then rollbackRun run false else pure ()

/-! ## Pruning -/

/-- The keys of `checkpoint.get(field, {})`, where checkpoints have an object or nothing. -/
def objectKeys (value : Json) (field : String) : List String :=
  match value with
  | .obj fields =>
      match Dict.get? fields field with
      | some (.obj inner) => inner.map (·.1)
      | _ => []
  | _ => []

/-- A row of `checkpoint_blobs` that is not `empty`: namespace, channel, version. -/
abbrev BlobKey := String × String × String

instance instLawfulBEqProdString : LawfulBEq (String × String) := inferInstance

instance : LawfulBEq BlobKey := inferInstance

/-- `str(checkpoint.get("channel_versions", {}).get(channel))`. -/
def channelVersion (checkpoint : Json) (channel : String) : String :=
  let version :=
    match checkpoint with
    | .obj fields =>
        match Dict.get? fields "channel_versions" with
        | some (.obj versions) => Dict.get? versions channel
        | _ => none
    | _ => none
  (version.getD .null).pyStr

/-- The delta channels whose full value is still to be found in an ancestor. -/
def stillUnresolved (blobs : List BlobKey) (c : CheckpointRow) (unresolved : List String) :
    List String :=
  -- a channel is found with its value in the checkpoint, or with a blob of its version
  unresolved.filter fun ch =>
    ch ∉ objectKeys c.checkpoint "channel_values" &&
      (c.checkpointNs, ch, channelVersion c.checkpoint ch) ∉ blobs

/-- The `while row` loop: keep `row` and its ancestors until no channel is unresolved.
Every turn keeps one more row, so `rows.length` turns are enough. -/
def keepAncestors (rows : List CheckpointRow) (blobs : List BlobKey) :
    Nat → Option CheckpointRow → List String → List (String × String) → List (String × String)
  | 0, _, _, kept => kept
  | _, none, _, kept => kept
  | fuel + 1, some row, unresolved, kept =>
      -- only a cycle of parents comes back to a row
      if (row.checkpointNs, row.checkpointId) ∈ kept then kept
      else
        let kept := kept ++ [(row.checkpointNs, row.checkpointId)]
        let unresolved := stillUnresolved blobs row unresolved
        if unresolved.isEmpty then kept
        else
          let parent := row.parentCheckpointId.bind fun p => rows.find? fun c =>
            c.checkpointNs = row.checkpointNs && c.checkpointId = p
          keepAncestors rows blobs fuel parent unresolved kept

/-- The loop over the rows, newest first: the first row of each namespace is its head. -/
def keepHeads (all : List CheckpointRow) (blobs : List BlobKey) :
    List CheckpointRow → List String → List (String × String) → List (String × String)
  | [], _, kept => kept
  | head :: rows, namespaces, kept =>
      if head.checkpointNs ∈ namespaces then keepHeads all blobs rows namespaces kept
      else
        -- the delta channels of the head, which are rebuilt from an ancestor
        let unresolved := objectKeys (.obj head.metadata) "counters_since_delta_snapshot"
        keepHeads all blobs rows (head.checkpointNs :: namespaces)
          (keepAncestors all blobs all.length (some head) unresolved kept)

/-- The checkpoints of a thread that `prune_checkpoints` keeps. -/
def keptKeys (blobs : List BlobKey) (t : ThreadId) (db : Db) : List (String × String) :=
  let rows := (db.checkpoints.rows.filter fun c => c.scope = .thread t).insertionSort
    fun a b => b.checkpointId ≤ a.checkpointId
  keepHeads rows blobs rows [] []

/-- `by_key.keys() - kept`. -/
def droppedKeys (blobs : List BlobKey) (t : ThreadId) (db : Db) : List (String × String) :=
  ((db.checkpoints.rows.filter fun c => c.scope = .thread t).map fun c =>
    (c.checkpointNs, c.checkpointId)).filter (· ∉ keptKeys blobs t db)

/-- `prune_checkpoints`; the caller holds the thread. -/
def pruneCheckpoints (blobs : List BlobKey) (t : ThreadId) : Txn Unit := do
  let active ← query fun db => db.runs.rows.any fun r =>
    r.threadId = some t && (r.status = .running || r.reason = some .rollback)
  if active then
    .throw (.checkpointConflict "cannot prune a thread while a run is executing")
  else do
    let dropped ← query (droppedKeys blobs t)
    write fun db =>
      { db with
        checkpointWrites := db.checkpointWrites.filter fun w =>
          !(w.scope = .thread t && (w.checkpointNs, w.checkpointId) ∈ dropped)
        checkpoints := db.checkpoints.filter fun c =>
          !(c.scope = .thread t && (c.checkpointNs, c.checkpointId) ∈ dropped) }
    write fun db => { db with baselines := db.baselines.filter fun b => b.threadId ≠ t }

end GraphHarbor
