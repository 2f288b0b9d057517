import Mathlib.Data.List.Sort
import Mathlib.Data.Prod.Lex
import GraphHarbor.Kit.Txn
import GraphHarbor.Models

/-!
# Statements of a database session

The SQL the programs issue through one SQLAlchemy session. The session is an identity
map: a row it has loaded keeps the column values it was loaded with, also when it is
selected again `FOR UPDATE`, unless the statement sets `populate_existing`. A flush
writes the net changes of an object.
-/

namespace GraphHarbor

open Kit

/-- Row locks, and the lock an `INSERT` holds on its value of the unique index
`uq_runs_idempotency`. -/
inductive Lock
  | run (id : RunId)
  | thread (id : ThreadId)
  | idempotency (key : String)
  deriving DecidableEq, Repr

/-- The exceptions that end a transaction. -/
inductive Err
  | runOwnership (message : String)
  | runConflict (message : String)
  | checkpointConflict (message : String)
  | invalidTransition
  | valueError (message : String)
  | integrity
  | staleData
  deriving DecidableEq, Repr

/-- The objects loaded in a session. -/
structure Session where
  run : RunId → Option RunRow
  thread : ThreadId → Option ThreadRow

namespace Session

/-- The session of a new transaction. -/
def empty : Session := ⟨fun _ => none, fun _ => none⟩

/-- The identity map after a load, an insert or an expunge. -/
def setRun (s : Session) (id : RunId) (r : Option RunRow) : Session :=
  { s with run := fun x => if x = id then r else s.run x }

/-- The same for a thread. -/
def setThread (s : Session) (id : ThreadId) (t : Option ThreadRow) : Session :=
  { s with thread := fun x => if x = id then t else s.thread x }

/-- The object a query returns for the stored row `r`. -/
def loadRun (s : Session) (populate : Bool) (r : RunRow) : RunRow :=
  if populate then r else (s.run r.runId).getD r

/-- The same for a thread. -/
def loadThread (s : Session) (populate : Bool) (t : ThreadRow) : ThreadRow :=
  if populate then t else (s.thread t.threadId).getD t

/-- The session after the rows of a query were loaded into it. -/
def setRuns (s : Session) (rows : List RunRow) : Session :=
  { s with
    run := fun x =>
      match rows.find? fun r => r.runId = x with
      | none => s.run x
      | some r => some (s.loadRun false r) }

@[simp] theorem setRun_run (s : Session) (id x : RunId) (r : Option RunRow) :
    (s.setRun id r).run x = if x = id then r else s.run x := rfl

@[simp] theorem setRun_thread (s : Session) (id : RunId) (r : Option RunRow) :
    (s.setRun id r).thread = s.thread := rfl

@[simp] theorem setThread_thread (s : Session) (id x : ThreadId) (t : Option ThreadRow) :
    (s.setThread id t).thread x = if x = id then t else s.thread x := rfl

@[simp] theorem setThread_run (s : Session) (id : ThreadId) (t : Option ThreadRow) :
    (s.setThread id t).run = s.run := rfl

end Session

/-- The statements. -/
inductive Stmt : Type → Type 1
  /-- A plain `SELECT`. -/
  | query {β : Type} (f : Db → β) : Stmt β
  /-- `session.get(RunRow, id)`. -/
  | getRun (id : RunId) : Stmt (Option RunRow)
  /-- `session.get(ThreadRow, id)`. -/
  | getThread (id : ThreadId) : Stmt (Option ThreadRow)
  /-- `SELECT … FROM runs WHERE run_id = id AND p FOR UPDATE [SKIP LOCKED]`. -/
  | lockRun (id : RunId) (p : RunRow → Bool) (populate skip : Bool) : Stmt (Option RunRow)
  /-- `SELECT … FROM threads WHERE thread_id = id FOR UPDATE [SKIP LOCKED]`. -/
  | lockThread (id : ThreadId) (populate skip : Bool) : Stmt (Option ThreadRow)
  /-- `SELECT … FROM runs WHERE p ORDER BY key FOR UPDATE SKIP LOCKED LIMIT 1`. -/
  | pickRun (p : Db → RunRow → Bool) (key : RunRow → Time ×ₗ RunId) : Stmt (Option RunRow)
  /-- `SELECT … FROM runs WHERE p ORDER BY le FOR UPDATE SKIP LOCKED`. -/
  | lockRuns (p : RunRow → Bool) (le : RunRow → RunRow → Bool) : Stmt (List RunRow)
  /-- Assignments to the columns of a loaded run, and their flush (an `UPDATE` of the
  columns that changed). -/
  | assignRun (id : RunId) (f : RunRow → RunRow) : Stmt Unit
  /-- Assignments to the columns of a loaded thread, and their flush. -/
  | assignThread (id : ThreadId) (f : ThreadRow → ThreadRow) : Stmt Unit
  /-- `INSERT INTO runs` in a savepoint; `false` for an `IntegrityError`. -/
  | insertRun (new : RunRow) : Stmt Bool
  | insertThread (new : ThreadRow) : Stmt Bool
  | insertEvent (e : RuntimeEventRow) : Stmt Unit
  | deleteRun (id : RunId) : Stmt Unit
  | deleteThread (id : ThreadId) : Stmt Unit
  /-- `UPDATE runs … WHERE run_id = id`, synchronised with the session. -/
  | updateRun (id : RunId) (f : RunRow → RunRow) (hf : ∀ r, (f r).runId = r.runId) : Stmt Unit
  /-- `UPDATE threads … WHERE thread_id = id`. -/
  | updateThread (id : ThreadId) (f : ThreadRow → ThreadRow)
      (hf : ∀ t, (f t).threadId = t.threadId) : Stmt Unit
  /-- `INSERT`, `UPDATE` or `DELETE` on tables without row locks of their own (leases,
  events, baselines, checkpoints), with what it reports. -/
  | update {β : Type} (f : Db → β) (g : Db → Db)
      (hg : ∀ db, (g db).runs = db.runs ∧ (g db).threads = db.threads) : Stmt β

/-- The unique indexes of `runtime_events`. -/
def RuntimeEventRow.clashes (e e' : RuntimeEventRow) : Bool :=
  e.runId.isSome ∧ e.runId = e'.runId ∧ (e.sequence = e'.sequence ∨ e.terminal ∧ e'.terminal)

namespace Stmt

variable {β : Type}

/-- `sem s avail session view`: the statement `s`, when the locks `avail` are free or
its own. -/
def sem : {β : Type} → Stmt β → (Lock → Bool) → Session → Db →
    Option (Except Err (Outcome β Db Lock Session))
  | _, .query f, _, session, view => some (.ok { value := f view, session })
  | _, .getRun id, _, session, view =>
      -- an object of the identity map is returned as it is
      match session.run id with
      | some r => some (.ok { value := some r, session })
      | none =>
          let r := view.runs.find? id
          some (.ok { value := r, session := session.setRun id r })
  | _, .getThread id, _, session, view =>
      match session.thread id with
      | some t => some (.ok { value := some t, session })
      | none =>
          let t := view.threads.find? id
          some (.ok { value := t, session := session.setThread id t })
  | _, .lockRun id p populate skip, avail, session, view =>
      -- the condition is on the stored row, not on the object that was loaded before
      match (view.runs.find? id).filter p with
      | none => some (.ok { value := none, session })
      | some stored =>
          if avail (.run id) then
            let r := session.loadRun populate stored
            some (.ok { value := some r, session := session.setRun id r, locks := [.run id] })
          else if skip then some (.ok { value := none, session })
          else none
  | _, .lockThread id populate skip, avail, session, view =>
      match view.threads.find? id with
      | none => some (.ok { value := none, session })
      | some stored =>
          if avail (.thread id) then
            let t := session.loadThread populate stored
            some (.ok
              { value := some t, session := session.setThread id t, locks := [.thread id] })
          else if skip then some (.ok { value := none, session })
          else none
  | _, .pickRun p key, avail, session, view =>
      -- `SKIP LOCKED` leaves out the runs that others hold
      match least key (view.runs.rows.filter fun r => p view r && avail (.run r.runId)) with
      | none => some (.ok { value := none, session })
      | some stored =>
          let r := session.loadRun false stored
          some (.ok
            { value := some r, session := session.setRun stored.runId r,
              locks := [.run stored.runId] })
  | _, .lockRuns p le, avail, session, view =>
      let rows := (view.runs.rows.filter fun r => p r && avail (.run r.runId)).insertionSort
        fun a b => le a b = true
      some (.ok
        { value := rows.map (session.loadRun false)
          session := session.setRuns rows
          locks := rows.map fun r => .run r.runId })
  | _, .assignRun id f, avail, session, view =>
      match (session.run id).or (view.runs.find? id) with
      | none => some (.ok { value := (), session })
      | some old =>
          let new := old.assign f
          -- an assignment that changes no column is not flushed
          if new = old then some (.ok { value := (), session })
          else
            match view.runs.find? id with
            -- the `UPDATE` of the flush matches no row
            | none => some (.error .staleData)
            | some _ =>
                if avail (.run id) then
                  some (.ok
                    { value := (), session := session.setRun id (some new),
                      effect := fun db => db.updateRun id (RunRow.merge old new) fun _ => rfl
                      locks := [.run id] })
                else none
  | _, .assignThread id f, avail, session, view =>
      match (session.thread id).or (view.threads.find? id) with
      | none => some (.ok { value := (), session })
      | some old =>
          let new := old.assign f
          if new = old then some (.ok { value := (), session })
          else
            match view.threads.find? id with
            | none => some (.error .staleData)
            | some _ =>
                if avail (.thread id) then
                  some (.ok
                    { value := (), session := session.setThread id (some new),
                      effect := fun db => db.updateThread id (ThreadRow.merge old new) fun _ => rfl
                      locks := [.thread id] })
                else none
  | _, .insertRun new, avail, session, view =>
      -- a random UUID is never drawn twice
      if view.drawn new.runId || !avail (.run new.runId) then none
      else
        match new.idempotencyKey with
        | none =>
            some (.ok
              { value := true, session := session.setRun new.runId (some new),
                effect := fun db => db.insertRun new, locks := [.run new.runId] })
        | some key =>
            -- the index refuses a committed key, and an open one is waited for
            if view.runs.rows.any fun r => r.idempotencyKey = some key then
              some (.ok { value := false, session })
            else if avail (.idempotency key) then
              some (.ok
                { value := true, session := session.setRun new.runId (some new),
                  effect := fun db => db.insertRun new,
                  locks := [.run new.runId, .idempotency key] })
            else none
  | _, .insertThread new, avail, session, view =>
      if (view.threads.find? new.threadId).isSome then
        some (.ok { value := false, session })
      else if avail (.thread new.threadId) then
        some (.ok
          { value := true, session,
            effect := fun db => { db with threads := db.threads.insert new }
            locks := [.thread new.threadId] })
      else none
  | _, .insertEvent e, _, session, view =>
      if view.events.any e.clashes then some (.error .integrity)
      else some (.ok { value := (), session, effect := fun db => db.insertEvent e })
  | _, .deleteRun id, avail, session, view =>
      match view.runs.find? id with
      | none => some (.ok { value := (), session := session.setRun id none })
      | some _ =>
          if avail (.run id) then
            some (.ok
              { value := (), session := session.setRun id none,
                effect := fun db => db.deleteRun id, locks := [.run id] })
          else none
  | _, .deleteThread id, avail, session, view =>
      match view.threads.find? id with
      | none => some (.ok { value := (), session := session.setThread id none })
      | some _ =>
          if avail (.thread id) then
            some (.ok
              { value := (), session := session.setThread id none,
                effect := fun db => db.deleteThread id, locks := [.thread id] })
          else none
  | _, .updateRun id f hf, avail, session, view =>
      match view.runs.find? id with
      | none => some (.ok { value := (), session })
      | some _ =>
          if avail (.run id) then
            some (.ok
              { value := (), session := session.setRun id ((session.run id).map f),
                effect := fun db => db.updateRun id f hf, locks := [.run id] })
          else none
  | _, .updateThread id f hf, avail, session, view =>
      match view.threads.find? id with
      | none => some (.ok { value := (), session })
      | some _ =>
          if avail (.thread id) then
            some (.ok
              { value := (), session := session.setThread id ((session.thread id).map f),
                effect := fun db => db.updateThread id f hf, locks := [.thread id] })
          else none
  | _, .update f g _, _, session, view =>
      some (.ok { value := f view, session, effect := g })

/-- A statement takes only locks that are free. -/
theorem sem_locks {s : Stmt β} {avail : Lock → Bool} {session : Session} {view : Db}
    {o : Outcome β Db Lock Session} (h : sem s avail session view = some (.ok o)) :
    ∀ l ∈ o.locks, avail l = true := by
  cases s with
  -- a picked row passed the filter on `avail`
  | pickRun p key =>
      simp only [sem] at h
      split at h
      · simp only [Option.some.injEq, Except.ok.injEq] at h
        simp [← h]
      · next stored hleast =>
          have hmem := List.mem_filter.1 (least_mem hleast)
          simp only [Option.some.injEq, Except.ok.injEq] at h
          simp_all [← h]
  -- each locked row passed it
  | lockRuns p le =>
      simp only [sem, Option.some.injEq, Except.ok.injEq] at h
      intro l hl
      rw [← h] at hl
      obtain ⟨r, hr, rfl⟩ := List.mem_map.1 hl
      have hmem := List.mem_filter.1 ((List.mem_insertionSort _).1 hr)
      simp_all
  | _ =>
      simp only [sem] at h
      (repeat' split at h) <;> simp only [Option.some.injEq, Except.ok.injEq, reduceCtorEq] at h <;>
        (try simp only [← h]) <;> simp_all

end Stmt

/-- The PostgreSQL session as an engine of transactions. -/
def engine : Engine Stmt Db Lock Session Err where
  fresh := .empty
  sem := Stmt.sem
  sem_locks := Stmt.sem_locks

/-- A transaction body. -/
abbrev Txn := Prog Stmt Err

section Statements

variable {β : Type}

/-- A read that loads no object. -/
def query (f : Db → β) : Txn β := .perform (.query f)

/-- `session.get(RunRow, id)`, or a query for the row by its id. -/
def getRun (id : RunId) : Txn (Option RunRow) := .perform (.getRun id)

/-- The same for a thread. -/
def getThread (id : ThreadId) : Txn (Option ThreadRow) := .perform (.getThread id)

/-- `SELECT … FOR UPDATE` of one run by its id. -/
def lockRun (id : RunId) : Txn (Option RunRow) :=
  .perform (.lockRun id (fun _ => true) false false)

/-- The same for a thread. -/
def lockThread (id : ThreadId) : Txn (Option ThreadRow) :=
  .perform (.lockThread id false false)

/-- Assignments to the columns of a run, flushed before the next statement. -/
def assignRun (id : RunId) (f : RunRow → RunRow) : Txn Unit := .perform (.assignRun id f)

/-- The same for a thread. -/
def assignThread (id : ThreadId) (f : ThreadRow → ThreadRow) : Txn Unit :=
  .perform (.assignThread id f)

/-- `session.add` of an event, with the flush. -/
def insertEvent (e : RuntimeEventRow) : Txn Unit := .perform (.insertEvent e)

/-- A write to tables without row locks of their own. -/
def write (g : Db → Db)
    (hg : ∀ db, (g db).runs = db.runs ∧ (g db).threads = db.threads := by
      exact fun _ => ⟨rfl, rfl⟩) : Txn Unit :=
  .perform (.update (fun _ => ()) g hg)

end Statements

end GraphHarbor
