import Mathlib.Data.List.Basic
import GraphHarbor.Kit.Table
import GraphHarbor.Kit.Json
import GraphHarbor.RunState

/-!
# The database rows

`models.py` and the two tables of the checkpoint saver. Ids are numbers for UUIDs;
times are microseconds on one clock. A table that is only appended to and filtered
(the runtime events) is a list.

Two columns are ghosts that no program reads: `recorded` keeps every runtime event ever
committed, `issued` every run id ever drawn.
-/

namespace GraphHarbor

open Kit

/-- UUIDs, of which nothing but their difference and order is used. -/
abbrev RunId := Nat
abbrev ThreadId := Nat
abbrev AssistantId := Nat
/-- Microseconds since the epoch. -/
abbrev Time := Nat

/-- A row of `assistants`: what a run reads of it. -/
structure AssistantRow where
  assistantId : AssistantId
  graphId : String
  deriving DecidableEq, Repr

/-- The values of `threads.status`. -/
inductive ThreadStatus
  | idle | busy | interrupted
  deriving DecidableEq, Repr

/-- A row of `threads`, with the defaults of its columns. -/
structure ThreadRow where
  threadId : ThreadId
  graphId : Option String := none
  status : ThreadStatus := .idle
  eventSeq : Nat := 0
  eventPrunedThrough : Nat := 0
  values : Option Json := none
  interrupts : Dict := []
  error : Option Json := none
  stateUpdatedAt : Option Time := none
  deriving DecidableEq, Repr

/-- A row of `runs`, with the defaults of its columns. `leaseOwner` and `leaseExpiresAt` copy the
lease of the run. -/
structure RunRow where
  runId : RunId
  threadId : Option ThreadId
  assistantId : AssistantId
  status : RunStatus := .pending
  reason : Option RunReason := none
  retryCount : Nat := 0
  maxAttempts : Nat := 3
  nextAttemptAt : Option Time := none
  idempotencyKey : Option String := none
  leaseOwner : Option String := none
  leaseExpiresAt : Option Time := none
  heartbeatAt : Option Time := none
  eventSeq : Nat := 0
  eventPrunedThrough : Nat := 0
  metadata : Dict := []
  kwargs : Dict := []
  queuePosition : Option Nat := none
  multitaskStrategy : Option String := none
  createdAt : Time
  updatedAt : Time
  deriving DecidableEq, Repr

/-- A row of `run_leases`, keyed by its run. -/
structure RunLeaseRow where
  runId : RunId
  owner : String
  expiresAt : Time
  heartbeatAt : Time
  generation : Nat
  deriving DecidableEq, Repr

/-- A row of `runtime_events`, of a run, of a thread, or of both. -/
structure RuntimeEventRow where
  runId : Option RunId
  threadId : Option ThreadId
  sequence : Nat
  topic : String
  «namespace» : List String := []
  payload : Dict
  terminal : Bool := false
  createdAt : Time
  deriving DecidableEq, Repr

/-- The `thread_id` text of a checkpoint: a thread, or a threadless run. -/
inductive CheckpointScope
  | thread (t : ThreadId)
  | run (r : RunId)
  deriving DecidableEq, Repr

/-- A row of `checkpoints`. -/
structure CheckpointRow where
  scope : CheckpointScope
  checkpointNs : String
  checkpointId : String
  parentCheckpointId : Option String := none
  checkpoint : Json := .null
  metadata : Dict := []
  deriving DecidableEq, Repr

/-- A row of `checkpoint_writes`. -/
structure CheckpointWriteRow where
  scope : CheckpointScope
  checkpointNs : String
  checkpointId : String
  taskId : String
  idx : Int
  channel : String := ""
  blob : Json := .null
  deriving DecidableEq, Repr

/-- The thread columns captured in a baseline, with the time of the capture. -/
structure Projection where
  capturedAt : Time
  values : Option Json
  interrupts : Dict
  status : ThreadStatus
  error : Option Json
  graphId : Option String
  stateUpdatedAt : Option Time
  deriving DecidableEq, Repr

/-- A row of `run_checkpoint_baselines`: what a rollback of the run restores. -/
structure RunCheckpointBaselineRow where
  runId : RunId
  threadId : ThreadId
  checkpoints : List CheckpointRow
  writes : List CheckpointWriteRow
  projection : Projection
  deriving DecidableEq, Repr

instance : Keyed AssistantRow AssistantId := ⟨AssistantRow.assistantId⟩
instance : Keyed ThreadRow ThreadId := ⟨ThreadRow.threadId⟩
instance : Keyed RunRow RunId := ⟨RunRow.runId⟩
instance : Keyed RunLeaseRow RunId := ⟨RunLeaseRow.runId⟩
instance : Keyed RunCheckpointBaselineRow RunId := ⟨RunCheckpointBaselineRow.runId⟩

instance : Keyed CheckpointRow (CheckpointScope × String × String) :=
  ⟨fun c => (c.scope, c.checkpointNs, c.checkpointId)⟩

instance : Keyed CheckpointWriteRow (CheckpointScope × String × String × String × Int) :=
  ⟨fun w => (w.scope, w.checkpointNs, w.checkpointId, w.taskId, w.idx)⟩

@[simp] theorem key_run (r : RunRow) : Keyed.key r = r.runId := rfl
@[simp] theorem key_thread (t : ThreadRow) : Keyed.key t = t.threadId := rfl
@[simp] theorem key_lease (l : RunLeaseRow) : Keyed.key l = l.runId := rfl
@[simp] theorem key_baseline (b : RunCheckpointBaselineRow) : Keyed.key b = b.runId := rfl

/-! ## Net column changes -/

/-- A flush writes a column only when its value changed since it was loaded. -/
def pick {α : Type} [DecidableEq α] (old new stored : α) : α :=
  if old = new then stored else new

@[simp] theorem pick_same {α : Type} [DecidableEq α] (a s : α) : pick a a s = s := by
  simp [pick]

/-- Over the row that was loaded, the object's value is stored. -/
@[simp] theorem pick_self {α : Type} [DecidableEq α] (a b : α) : pick a b a = b := by
  by_cases h : a = b <;> simp [pick, h]

/-- A column that was assigned another value is written, whatever is stored. -/
theorem pick_of_ne {α : Type} [DecidableEq α] {a b s : α} (h : a ≠ b) : pick a b s = b := by
  simp [pick, h]

/-- The stored row after a flush of an object loaded as `old` and now `new`. -/
def RunRow.merge (old new stored : RunRow) : RunRow where
  runId := stored.runId
  threadId := pick old.threadId new.threadId stored.threadId
  assistantId := pick old.assistantId new.assistantId stored.assistantId
  status := pick old.status new.status stored.status
  reason := pick old.reason new.reason stored.reason
  retryCount := pick old.retryCount new.retryCount stored.retryCount
  maxAttempts := pick old.maxAttempts new.maxAttempts stored.maxAttempts
  nextAttemptAt := pick old.nextAttemptAt new.nextAttemptAt stored.nextAttemptAt
  idempotencyKey := pick old.idempotencyKey new.idempotencyKey stored.idempotencyKey
  leaseOwner := pick old.leaseOwner new.leaseOwner stored.leaseOwner
  leaseExpiresAt := pick old.leaseExpiresAt new.leaseExpiresAt stored.leaseExpiresAt
  heartbeatAt := pick old.heartbeatAt new.heartbeatAt stored.heartbeatAt
  eventSeq := pick old.eventSeq new.eventSeq stored.eventSeq
  eventPrunedThrough :=
    pick old.eventPrunedThrough new.eventPrunedThrough stored.eventPrunedThrough
  metadata := pick old.metadata new.metadata stored.metadata
  kwargs := pick old.kwargs new.kwargs stored.kwargs
  queuePosition := pick old.queuePosition new.queuePosition stored.queuePosition
  multitaskStrategy := pick old.multitaskStrategy new.multitaskStrategy stored.multitaskStrategy
  createdAt := pick old.createdAt new.createdAt stored.createdAt
  updatedAt := pick old.updatedAt new.updatedAt stored.updatedAt

/-- A flush of an object that was not changed writes nothing. -/
@[simp] theorem RunRow.merge_same (a s : RunRow) : RunRow.merge a a s = s := by
  simp [merge]

/-- A flush over the row that was loaded writes the object. -/
theorem RunRow.merge_self {old new : RunRow} (h : new.runId = old.runId) :
    RunRow.merge old new old = new := by
  simp [merge, ← h]

/-- The same for a thread. -/
def ThreadRow.merge (old new stored : ThreadRow) : ThreadRow where
  threadId := stored.threadId
  graphId := pick old.graphId new.graphId stored.graphId
  status := pick old.status new.status stored.status
  eventSeq := pick old.eventSeq new.eventSeq stored.eventSeq
  eventPrunedThrough :=
    pick old.eventPrunedThrough new.eventPrunedThrough stored.eventPrunedThrough
  values := pick old.values new.values stored.values
  interrupts := pick old.interrupts new.interrupts stored.interrupts
  error := pick old.error new.error stored.error
  stateUpdatedAt := pick old.stateUpdatedAt new.stateUpdatedAt stored.stateUpdatedAt

@[simp] theorem ThreadRow.merge_same (a s : ThreadRow) : ThreadRow.merge a a s = s := by
  simp [merge]

theorem ThreadRow.merge_self {old new : ThreadRow} (h : new.threadId = old.threadId) :
    ThreadRow.merge old new old = new := by
  simp [merge, ← h]

/-- Assignments to the columns of a loaded run; its key is not one of them. -/
def RunRow.assign (r : RunRow) (f : RunRow → RunRow) : RunRow := { f r with runId := r.runId }

/-- The same for a thread. -/
def ThreadRow.assign (t : ThreadRow) (f : ThreadRow → ThreadRow) : ThreadRow :=
  { f t with threadId := t.threadId }

/-! ## The database -/

/-- The tables. `recorded` and `issued` are ghosts: every event ever recorded, and every run id
ever drawn. -/
structure Db where
  assistants : Table AssistantRow
  threads : Table ThreadRow
  runs : Table RunRow
  leases : Table RunLeaseRow
  baselines : Table RunCheckpointBaselineRow
  events : List RuntimeEventRow
  checkpoints : Table CheckpointRow
  checkpointWrites : Table CheckpointWriteRow
  recorded : List RuntimeEventRow
  issued : List RunId

namespace Db

/-- A database on which no run has been submitted yet. -/
structure Fresh (db : Db) : Prop where
  runs : db.runs = .empty
  leases : db.leases = .empty
  baselines : db.baselines = .empty
  events : db.events = []
  checkpoints : db.checkpoints = .empty
  checkpointWrites : db.checkpointWrites = .empty
  recorded : db.recorded = []
  issued : db.issued = []

/-- The fresh database with these assistants and threads. -/
def fresh (assistants : Table AssistantRow) (threads : Table ThreadRow) : Db :=
  ⟨assistants, threads, .empty, .empty, .empty, [], .empty, .empty, [], []⟩

theorem fresh_fresh (assistants : Table AssistantRow) (threads : Table ThreadRow) :
    (fresh assistants threads).Fresh := ⟨rfl, rfl, rfl, rfl, rfl, rfl, rfl, rfl⟩

/-- `UPDATE runs … WHERE run_id = id`. -/
def updateRun (db : Db) (id : RunId) (f : RunRow → RunRow)
    (hf : ∀ r, (f r).runId = r.runId) : Db :=
  { db with runs := db.runs.modify id f hf }

/-- `UPDATE threads … WHERE thread_id = id`. -/
def updateThread (db : Db) (id : ThreadId) (f : ThreadRow → ThreadRow)
    (hf : ∀ t, (f t).threadId = t.threadId) : Db :=
  { db with threads := db.threads.modify id f hf }

/-- `DELETE FROM runs`, with `ON DELETE CASCADE` of the lease, the baseline and the
events of the run. -/
def deleteRun (db : Db) (id : RunId) : Db :=
  { db with
    runs := db.runs.erase id
    leases := db.leases.erase id
    baselines := db.baselines.erase id
    events := db.events.filter fun e => e.runId ≠ some id }

/-- `DELETE FROM threads`, with `ON DELETE CASCADE` of the baselines and the events of
the thread. Its runs stay. -/
def deleteThread (db : Db) (id : ThreadId) : Db :=
  { db with
    threads := db.threads.erase id
    baselines := db.baselines.filter fun b => b.threadId ≠ id
    events := db.events.filter fun e => e.threadId ≠ some id }

/-- The id was drawn before. -/
def drawn (db : Db) (id : RunId) : Bool := id ∈ db.issued || (db.runs.find? id).isSome

/-- `INSERT INTO runs`; the id is drawn. -/
def insertRun (db : Db) (r : RunRow) : Db :=
  { db with runs := db.runs.insert r, issued := db.issued ++ [r.runId] }

/-- `INSERT INTO runtime_events`; the event is recorded. -/
def insertEvent (db : Db) (e : RuntimeEventRow) : Db :=
  { db with events := db.events ++ [e], recorded := db.recorded ++ [e] }

/-- `DELETE FROM run_leases`. -/
def deleteLease (db : Db) (id : RunId) : Db := { db with leases := db.leases.erase id }

/-- `SELECT coalesce(max(sequence), 0) FROM runtime_events WHERE p`. -/
def maxSequence (db : Db) (p : RuntimeEventRow → Bool) : Nat :=
  ((db.events.filter p).map (·.sequence)).foldr max 0

theorem le_foldr_max {l : List Nat} {n : Nat} (h : n ∈ l) : n ≤ l.foldr max 0 := by
  induction l with
  | nil => simp at h
  | cons x xs ih =>
      rw [List.foldr_cons]
      rcases List.mem_cons.1 h with rfl | h
      · exact le_max_left _ _
      · exact (ih h).trans (le_max_right _ _)

theorem foldr_max_mem {l : List Nat} (h : l ≠ []) : l.foldr max 0 ∈ l := by
  induction l with
  | nil => exact absurd rfl h
  | cons x xs ih =>
      rw [List.foldr_cons]
      cases xs with
      | nil => exact List.mem_singleton.2 (Nat.max_zero x)
      | cons y ys =>
          rcases Nat.le_total x ((y :: ys).foldr max 0) with hle | hle
          · rw [Nat.max_eq_right hle]
            exact List.mem_cons_of_mem _ (ih (List.cons_ne_nil _ _))
          · rw [Nat.max_eq_left hle]
            exact List.mem_cons_self

/-- No event that counts has a higher number. -/
theorem le_maxSequence {db : Db} {p : RuntimeEventRow → Bool} {e : RuntimeEventRow}
    (he : e ∈ db.events) (hp : p e = true) : e.sequence ≤ db.maxSequence p :=
  le_foldr_max (List.mem_map.2 ⟨e, List.mem_filter.2 ⟨he, hp⟩, rfl⟩)

end Db

end GraphHarbor
