import GraphHarbor.Kit.TSys
import GraphHarbor.CoreApi
import Mathlib.Logic.Function.Basic

/-!
# The run queue with heartbeats

The queue of `ops.py`: `Runs.next` claims pending runs, `Runs.enter` keeps a heartbeat in
Redis while a worker executes one, `Runs.sweep` takes back running runs that have none. A
claim and a sweep are cut where they await; the other transactions are one step, with the
row locks they would wait for as a condition. A row lock, or a not yet committed entry of
`uq_runs_one_running_per_thread`, names the claim whose transaction holds it.
-/

namespace GraphHarbor.Scheduler

open Kit

inductive ThreadStatus
  | idle | busy | interrupted | error
  deriving DecidableEq, Repr

structure ThreadRow where
  threadId : ThreadId
  status : ThreadStatus := .idle
  error : Option Dict := none
  deriving DecidableEq, Repr

instance : Keyed ThreadRow ThreadId := ⟨ThreadRow.threadId⟩

/-- Where a pass of `Runs.next` is: at the top of its loop, or in `_claim_next_run` with
the run whose row it has locked, the thread it has locked, and the siblings whose
heartbeats it has still to ask for. `clearing` is a failed commit, by an `IntegrityError` or
another exception. -/
inductive Claim
  | ended
  | idle
  | selected (run : RunId)
  | locked (run : RunId) (thread : ThreadId)
  | checked (run : RunId) (thread : ThreadId)
  | asking (run : RunId) (thread : Option ThreadId) (siblings : List RunId)
  | committing (run : RunId) (thread : Option ThreadId)
  | clearing (run : RunId) (integrity : Bool)
  deriving DecidableEq, Repr

/-- The run whose row the claim has locked. -/
def Claim.run? : Claim → Option RunId
  | .selected r | .locked r _ | .checked r _ | .asking r _ _ | .committing r _ => some r
  | .ended | .idle | .clearing _ _ => none

/-- The thread that the claim has locked, if its row exists. -/
def Claim.thread? : Claim → Option ThreadId
  | .locked _ t | .checked _ t => some t
  | .asking _ thread _ | .committing _ thread => thread
  | .ended | .idle | .selected _ | .clearing _ _ => none

/-- A call of `Runs.next`. -/
structure Claimer where
  phase : Claim := .ended
  limit : Nat := 0
  claimed : Nat := 0
  conflictBudget : Nat := 0
  blockedThreads : List ThreadId := []
  deriving DecidableEq, Repr

/-- The condition of the loop of `Runs.next`. -/
def Claimer.goesOn (c : Claimer) : Bool := c.claimed < c.limit && 0 < c.conflictBudget

/-- Where `Runs.sweep` is. From `counting` to `clearing` it has seen that the run has no
heartbeat. -/
inductive Sweep
  | idle
  | looking (ids : List RunId)
  | counting (run : RunId) (rest : List RunId)
  | updating (run : RunId) (attempts : Nat) (rest : List RunId)
  | clearing (run : RunId) (rest : List RunId)
  deriving DecidableEq, Repr

/-- The run that the sweep takes back. -/
def Sweep.target? : Sweep → Option RunId
  | .counting r _ | .updating r _ _ | .clearing r _ => some r
  | .idle | .looking _ => none

/-- A worker executes a claimed run in `Runs.enter`; `leaving` is its `finally`. -/
inductive Worker
  | idle
  | executing (run : RunId)
  | leaving (run : RunId)
  deriving DecidableEq, Repr

/-- The tables `runs`, `threads` and `retry_counters`, the heartbeat keys of Redis, the
locks, and the tasks of all processes. -/
structure State where
  runs : Table RunRow
  threads : Table ThreadRow
  retryCounters : RunId → Nat := fun _ => 0
  heartbeats : RunId → Bool := fun _ => false
  rowLocks : RunId → Option Nat := fun _ => none
  threadLocks : ThreadId → Option Nat := fun _ => none
  indexLocks : ThreadId → Option Nat := fun _ => none
  claimers : Nat → Claimer := fun _ => {}
  sweepers : Nat → Sweep := fun _ => .idle
  workers : Nat → Worker := fun _ => .idle

namespace State

/-! ## Reading -/

/-- `has_run_heartbeat`: `none` when Redis does not answer. -/
def hasRunHeartbeat (s : State) (id : RunId) (reachable : Bool) : Option Bool :=
  if reachable then some (s.heartbeats id) else none

/-- The pending and running rows of a thread, of which `_get_inflight_runs` and the
counting queries ask. -/
def inflight (s : State) (t : ThreadId) : List RunRow :=
  s.runs.rows.filter fun r => r.threadId = some t && (r.status = .pending || r.status = .running)

/-- Another run of the thread is running. -/
def otherRunning (s : State) (id : RunId) (t : ThreadId) : Bool :=
  s.runs.rows.any fun r => r.threadId = some t && r.status = .running && r.runId ≠ id

/-- The sibling query of `_has_heartbeating_sibling`. -/
def siblings (s : State) (id : RunId) (t : ThreadId) : List RunId :=
  (s.runs.rows.filter fun r => r.threadId = some t && r.runId ≠ id &&
    (r.status = .running || r.status = .interrupted)).map (·.runId)

/-- `_build_exclude_sql`. -/
def excluded (blockedThreads : List ThreadId) (r : RunRow) : Bool :=
  r.threadId.any fun t => t ∈ blockedThreads

/-- The candidate query. `busy` are rows that other transactions have locked at the time;
like the rows locked by claims they are skipped. -/
def candidate (s : State) (now : Time) (blockedThreads : List ThreadId) (busy : List RunId) :
    Option RunRow :=
  least (·.createdAt) (s.runs.rows.filter fun r =>
    r.status = .pending && r.createdAt ≤ now &&
    !(s.runs.rows.any fun r2 =>
      r2.threadId.isSome && r2.threadId = r.threadId && r2.status = .running) &&
    !excluded blockedThreads r && s.rowLocks r.runId = none && r.runId ∉ busy)

theorem candidate_spec {s : State} {now : Time} {blockedThreads : List ThreadId}
    {busy : List RunId} {row : RunRow} (h : s.candidate now blockedThreads busy = some row) :
    row ∈ s.runs ∧ row.status = .pending ∧ s.rowLocks row.runId = none := by
  obtain ⟨hmem, hconds⟩ := List.mem_filter.1 (least_mem h)
  simp only [Bool.and_eq_true, decide_eq_true_eq] at hconds
  obtain ⟨⟨⟨⟨⟨hstatus, -⟩, -⟩, -⟩, hlock⟩, -⟩ := hconds
  exact ⟨hmem, hstatus, hlock⟩

theorem not_running_of_otherRunning {s : State} {id : RunId} {t : ThreadId} {row : RunRow}
    (h : s.otherRunning id t = false) (hrow : row ∈ s.runs) (ht : row.threadId = some t)
    (hid : row.runId ≠ id) : row.status ≠ .running := by
  intro hr
  refine List.any_eq_false.1 h row hrow ?_
  rw [Bool.and_eq_true, Bool.and_eq_true]
  exact ⟨⟨decide_eq_true ht, decide_eq_true hr⟩, decide_eq_true hid⟩

theorem mem_siblings {s : State} {id : RunId} {t : ThreadId} {row : RunRow} (hrow : row ∈ s.runs)
    (ht : row.threadId = some t) (hid : row.runId ≠ id)
    (hst : row.status = .running ∨ row.status = .interrupted) : row.runId ∈ s.siblings id t := by
  refine List.mem_map.2 ⟨row, List.mem_filter.2 ⟨hrow, ?_⟩, rfl⟩
  rw [Bool.and_eq_true, Bool.and_eq_true, Bool.or_eq_true]
  exact ⟨⟨decide_eq_true ht, decide_eq_true hid⟩, hst.imp decide_eq_true decide_eq_true⟩

theorem hasRunHeartbeat_eq_false {s : State} {id : RunId} {reachable : Bool}
    (h : s.hasRunHeartbeat id reachable = some false) : s.heartbeats id = false :=
  Option.some.inj (Option.ite_none_right_eq_some.1 h).2

/-- `_thread_has_inflight_work`: a pending or running run, or an interrupted one with a
heartbeat. -/
def threadHasInflightWork (s : State) (t : ThreadId) (reachable : Bool) : Bool :=
  !(s.inflight t).isEmpty ||
    ((s.runs.rows.filter fun r => r.threadId = some t && r.status = .interrupted).any fun r =>
      s.hasRunHeartbeat r.runId reachable ≠ some false)

/-! ## Writing -/

/-- `UPDATE runs SET status, updated_at`. -/
def setStatus (s : State) (id : RunId) (status : RunStatus) (now : Time) : State :=
  { s with runs := s.runs.modify id (fun r => { r with status, updatedAt := now }) fun _ => rfl }

def updateThread (s : State) (t : ThreadId) (f : ThreadRow → ThreadRow)
    (hf : ∀ row, (f row).threadId = row.threadId) : State :=
  { s with threads := s.threads.modify t f hf }

/-- A run is deleted, and its retry counter with it. -/
def deleteRun (s : State) (id : RunId) : State :=
  { s with
    runs := s.runs.erase id
    retryCounters := Function.update s.retryCounters id 0 }

/-- `set_run_heartbeat`. -/
def setRunHeartbeat (s : State) (id : RunId) : State :=
  { s with heartbeats := Function.update s.heartbeats id true }

/-- `clear_run_heartbeat`. -/
def clearRunHeartbeat (s : State) (id : RunId) : State :=
  { s with heartbeats := Function.update s.heartbeats id false }

/-- `PgRetryCounter.increment`. -/
def increment (s : State) (id : RunId) : State :=
  { s with retryCounters := Function.update s.retryCounters id (s.retryCounters id + 1) }

/-- The transaction of the claim ends. -/
def release (s : State) (c : Nat) : State :=
  { s with
    rowLocks := fun r => if s.rowLocks r = some c then none else s.rowLocks r
    threadLocks := fun t => if s.threadLocks t = some c then none else s.threadLocks t
    indexLocks := fun t => if s.indexLocks t = some c then none else s.indexLocks t }

def setClaimer (s : State) (c : Nat) (x : Claimer) : State :=
  { s with claimers := Function.update s.claimers c x }

def goto (s : State) (c : Nat) (phase : Claim) : State :=
  s.setClaimer c { s.claimers c with phase }

def setSweep (s : State) (p : Nat) (x : Sweep) : State :=
  { s with sweepers := Function.update s.sweepers p x }

def setWorker (s : State) (w : Nat) (x : Worker) : State :=
  { s with workers := Function.update s.workers w x }

theorem release_rowLocks {s : State} {c d : Nat} {id : RunId} (hd : d ≠ c)
    (h : s.rowLocks id = some d) : (s.release c).rowLocks id = some d :=
  (if_neg fun heq => hd (Option.some.inj (h.symm.trans heq))).trans h

theorem release_threadLocks {s : State} {c d : Nat} {t : ThreadId} (hd : d ≠ c)
    (h : s.threadLocks t = some d) : (s.release c).threadLocks t = some d :=
  (if_neg fun heq => hd (Option.some.inj (h.symm.trans heq))).trans h

theorem setClaimer_claimers (s : State) (c d : Nat) (x : Claimer) :
    (s.setClaimer c x).claimers d = if d = c then x else s.claimers d :=
  Function.update_apply s.claimers c x d

theorem setSweep_sweepers (s : State) (p q : Nat) (x : Sweep) :
    (s.setSweep p x).sweepers q = if q = p then x else s.sweepers q :=
  Function.update_apply s.sweepers p x q

theorem setWorker_workers (s : State) (v w : Nat) (x : Worker) :
    (s.setWorker w x).workers v = if v = w then x else s.workers v :=
  Function.update_apply s.workers w x v

theorem setRunHeartbeat_heartbeats (s : State) (id j : RunId) :
    (s.setRunHeartbeat id).heartbeats j = if j = id then true else s.heartbeats j :=
  Function.update_apply s.heartbeats id true j

theorem clearRunHeartbeat_heartbeats (s : State) (id j : RunId) :
    (s.clearRunHeartbeat id).heartbeats j = if j = id then false else s.heartbeats j :=
  Function.update_apply s.heartbeats id false j

theorem increment_retryCounters (s : State) (id j : RunId) :
    (s.increment id).retryCounters j =
      if j = id then s.retryCounters id + 1 else s.retryCounters j :=
  Function.update_apply s.retryCounters id (s.retryCounters id + 1) j

theorem deleteRun_retryCounters (s : State) (id j : RunId) :
    (s.deleteRun id).retryCounters j = if j = id then 0 else s.retryCounters j :=
  Function.update_apply s.retryCounters id 0 j

/-- `_mark_thread_error_if_idle`. -/
def markThreadErrorIfIdle (s : State) (t : ThreadId) : State :=
  if (s.inflight t).isEmpty then
    s.updateThread t (fun row =>
      { row with
        status := .error
        error := row.error.or (some [("error", .str "RuntimeError"),
          ("message", .str "Run swept after exceeding max retries")]) }) fun _ => rfl
  else s

/-- A busy thread becomes idle. -/
def idleThread (s : State) (t : ThreadId) : State :=
  s.updateThread t (fun row => if row.status = .busy then { row with status := .idle } else row)
    fun row => by split <;> rfl

/-! ## A claim -/

/-- `Runs.next(limit)` is called. -/
def beginNext (s : State) (c limit : Nat) : Option State :=
  match (s.claimers c).phase with
  | .ended => some (s.setClaimer c
      { phase := .idle, limit, claimed := 0, conflictBudget := max (limit * 8) 8 })
  | _ => none

/-- The loop goes on with the candidate query; without a candidate the claim is `empty`. -/
def select (s : State) (c : Nat) (now : Time) (busy : List RunId) : Option State :=
  match (s.claimers c).phase with
  | .idle =>
      if (s.claimers c).goesOn then
        match s.candidate now (s.claimers c).blockedThreads busy with
        | none => some (s.goto c .ended)
        | some row => some ({ s with
            rowLocks := Function.update s.rowLocks row.runId (some c) }.goto c
              (.selected row.runId))
      else some (s.goto c .ended)
  | _ => none

/-- The row is loaded, and its thread is locked; a thread without a row locks nothing. -/
def lockThread (s : State) (c : Nat) : Option State :=
  match (s.claimers c).phase with
  | .selected id =>
      match s.runs.find? id with
      -- the picked row was deleted since: nothing is claimed
      | none => some ((s.release c).goto c .ended)
      | some row =>
          match row.threadId with
          | none => some (s.goto c (.asking id none []))
          | some t =>
              if (s.threads.find? t).isNone then some (s.goto c (.locked id t))
              else if s.threadLocks t = none then
                some ({ s with
                  threadLocks := Function.update s.threadLocks t (some c) }.goto c (.locked id t))
              else none
  | _ => none

/-- The claim is `blocked`: it is committed without a change, and the loop excludes the
thread from then on. -/
def blocked (s : State) (c : Nat) (t : ThreadId) : State :=
  (s.release c).setClaimer c
    { s.claimers c with
      phase := .idle
      conflictBudget := (s.claimers c).conflictBudget - 1
      blockedThreads := (s.claimers c).blockedThreads ++ [t] }

/-- `active`. -/
def checkActive (s : State) (c : Nat) : Option State :=
  match (s.claimers c).phase with
  | .locked id t =>
      if s.otherRunning id t then some (s.blocked c t) else some (s.goto c (.checked id t))
  | _ => none

/-- `_has_heartbeating_sibling` reads the siblings. -/
def listSiblings (s : State) (c : Nat) : Option State :=
  match (s.claimers c).phase with
  | .checked id t => some (s.goto c (.asking id (some t) (s.siblings id t)))
  | _ => none

/-- `_has_heartbeating_sibling` asks for the next heartbeat. -/
def askSibling (s : State) (c : Nat) (reachable : Bool) : Option State :=
  match (s.claimers c).phase with
  | .asking id (some t) (sid :: rest) =>
      if s.hasRunHeartbeat sid reachable = some false then
        some (s.goto c (.asking id (some t) rest))
      -- a heartbeat that may be there blocks the claim too
      else some (s.blocked c t)
  | _ => none

/-- The heartbeat of the run is set, and the commit flushes its row as running. The flush waits
for another transaction's entry of the unique index, and fails on a committed one. -/
def write (s : State) (c : Nat) : Option State :=
  match (s.claimers c).phase with
  | .asking id none [] => some ((s.setRunHeartbeat id).goto c (.committing id none))
  | .asking id (some t) [] =>
      -- another claim committed between the check and the flush
      if s.otherRunning id t then
        some (((s.setRunHeartbeat id).release c).goto c (.clearing id true))
      else if s.indexLocks t = none then
        some (({ s with
          indexLocks := Function.update s.indexLocks t (some c) }.setRunHeartbeat id).goto c
            (.committing id (some t)))
      else none
  | _ => none

/-- The claim is committed, and `_claim_and_dispatch` starts the worker `w`. -/
def commit (s : State) (c : Nat) (now : Time) (w : Nat) : Option State :=
  match (s.claimers c).phase, s.workers w with
  | .committing id thread, .idle =>
      let claimed := ((s.release c).setClaimer c
        { s.claimers c with
          phase := .idle
          claimed := (s.claimers c).claimed + 1 })
      let started := ((claimed.setStatus id .running now).increment id).setWorker w (.executing id)
      match thread with
      | none => some started
      | some t => some (started.updateThread t (fun row => { row with status := .busy })
          fun _ => rfl)
  | _, _ => none

/-- The commit raises; the heartbeat is cleared after the transaction. -/
def commitFails (s : State) (c : Nat) (integrity : Bool) : Option State :=
  match (s.claimers c).phase with
  | .committing id _ => some ((s.release c).goto c (.clearing id integrity))
  | _ => none

/-- `Runs.next` goes on after an `IntegrityError`. -/
def clearClaim (s : State) (c : Nat) : Option State :=
  match (s.claimers c).phase with
  | .clearing id integrity =>
      some ((s.clearRunHeartbeat id).setClaimer c
        { s.claimers c with
          phase := if integrity then .idle else .ended
          conflictBudget := (s.claimers c).conflictBudget - if integrity then 1 else 0 })
  | _ => none

/-- The claim raises or its process dies, at any time; a heartbeat it has set stays. -/
def claimFails (s : State) (c : Nat) : State := (s.release c).goto c .ended

/-! ## A sweep -/

/-- `Runs.sweep` reads the running runs. -/
def scan (s : State) (p : Nat) : Option State :=
  match s.sweepers p with
  | .idle => some (s.setSweep p (.looking
      ((s.runs.rows.filter fun r => r.status = .running).map (·.runId))))
  | _ => none

/-- The sweep asks for the next heartbeat, and goes on unless there is surely none. -/
def look (s : State) (p : Nat) (reachable : Bool) : Option State :=
  match s.sweepers p with
  | .looking (id :: rest) =>
      if s.hasRunHeartbeat id reachable = some false then
        some (s.setSweep p (.counting id rest))
      -- Redis does not answer, or the run beats: it is left alone
      else some (s.setSweep p (.looking rest))
  | _ => none

/-- `_sweep_single_run` reads the retry counter. -/
def countAttempts (s : State) (p : Nat) : Option State :=
  match s.sweepers p with
  | .counting id rest => some (s.setSweep p (.updating id (s.retryCounters id) rest))
  | _ => none

/-- The status that `_sweep_single_run` gives a run. -/
def sweptStatus (maxRetries attempts : Nat) : RunStatus :=
  if maxRetries ≤ attempts then .error else .pending

/-- The transaction of `_sweep_single_run`, which waits for the row and, where it changes
it, for the thread. -/
def sweepSingleRun (s : State) (maxRetries p : Nat) (now : Time) : Option State :=
  match s.sweepers p with
  | .updating id attempts rest =>
      if s.rowLocks id = none then
        match s.runs.find? id with
        | some row =>
            if row.status = .running then
              let s' := s.setStatus id (sweptStatus maxRetries attempts) now
              match sweptStatus maxRetries attempts, row.threadId with
              | .error, some t =>
                  -- with a run in flight the thread is not touched
                  if (s'.inflight t).isEmpty = false ∨ s.threadLocks t = none then
                    some ((s'.markThreadErrorIfIdle t).setSweep p (.clearing id rest))
                  else none
              | _, _ => some (s'.setSweep p (.clearing id rest))
            -- the run ended since the scan, or was taken back
            else some (s.setSweep p (.looking rest))
        | none => some (s.setSweep p (.looking rest))
      else none
  | _ => none

def clearSwept (s : State) (p : Nat) : Option State :=
  match s.sweepers p with
  | .clearing id rest => some ((s.clearRunHeartbeat id).setSweep p (.looking rest))
  | _ => none

/-- `_idle_orphaned_busy_threads`, at the end of the sweep. -/
def idleOrphanedBusyThreads (s : State) (p : Nat) (reachable : Bool) : Option State :=
  match s.sweepers p with
  | .looking [] =>
      let orphans := (s.threads.rows.filter fun t =>
        t.status = .busy && !s.threadHasInflightWork t.threadId reachable).map (·.threadId)
      if orphans.all fun t => s.threadLocks t = none then
        some ((orphans.foldl idleThread s).setSweep p .idle)
      else none
  | _ => none

/-! ## A worker -/

/-- The heartbeat of `Runs.enter`. -/
def refresh (s : State) (w : Nat) : Option State :=
  match s.workers w with
  | .executing id => some (s.setRunHeartbeat id)
  | _ => none

/-- The thread columns that `set_joint_status` writes; `base` and `error` come from the
checkpoint and the exception of the run. -/
def settleThread (s : State) (t : ThreadId) (base : ThreadStatus) (error : Option Dict) : State :=
  s.updateThread t (fun row =>
    { row with status := if (s.inflight t).isEmpty then base else .busy, error })
    fun _ => rfl

/-- `Threads.set_joint_status`, by the worker at the end of its run; `none` for the status
is `rollback`. -/
def setJointStatus (s : State) (w : Nat) (status : Option RunStatus) (base : ThreadStatus)
    (error : Option Dict) (now : Time) : Option State :=
  match s.workers w with
  | .executing id =>
      match s.runs.find? id with
      | some row =>
          match row.threadId with
          | some t =>
              if (s.threads.find? t).isSome ∧ s.rowLocks id = none ∧ s.threadLocks t = none then
                match status with
                | none => some (((s.deleteRun id).settleThread t base error).setWorker w
                    (.leaving id))
                | some status =>
                    if status.isTerminal then
                      some (((s.setStatus id status now).settleThread t base error).setWorker w
                        (.leaving id))
                    else none
              else none
          | none => none
      | none => none
  | _ => none

/-- `Runs.set_status(run_id, "pending")`, by the worker that gives its run back. -/
def giveBack (s : State) (w : Nat) (now : Time) : Option State :=
  match s.workers w with
  | .executing id =>
      if s.rowLocks id = none then
        some ((s.setStatus id .pending now).setWorker w (.leaving id))
      else none
  | _ => none

/-- The worker ends without a word on its run. -/
def abandon (s : State) (w : Nat) : Option State :=
  match s.workers w with
  | .executing id => some (s.setWorker w (.leaving id))
  | _ => none

/-- The `finally` of `Runs.enter`. -/
def leave (s : State) (w : Nat) : Option State :=
  match s.workers w with
  | .leaving id => some ((s.clearRunHeartbeat id).setWorker w .idle)
  | _ => none

/-! ## The API -/

/-- `Runs.put`, with the thread it names or makes. The thread is created if it may be, and
locked; with `prevent_insert_if_inflight` a run in flight keeps the new one out. -/
def put (s : State) (row : RunRow) (t : ThreadId) (createThread preventInsertIfInflight : Bool) :
    Option State :=
  if s.threadLocks t = none ∧ (s.runs.find? row.runId).isNone ∧ row.threadId = some t then
    let found := (s.threads.find? t).isSome
    if found || createThread then
      let ready : State :=
        if found then s.updateThread t (fun thread => { thread with status := .busy }) fun _ => rfl
        else { s with threads := s.threads.insert { threadId := t, status := .busy } }
      if preventInsertIfInflight && !(s.inflight t).isEmpty then some ready
      else if row.status = .running && s.otherRunning row.runId t then none
      else some { ready with runs := s.runs.insert row }
    else some s
  else none

/-- `Threads.put`. -/
def createThread (s : State) (t : ThreadId) : State :=
  if (s.threads.find? t).isSome then s
  else { s with threads := s.threads.insert { threadId := t } }

/-- A candidate of `Runs.cancel`: whether it was pending when the query found it, whether the
process has stream queues of the run, and whether Redis answers for its heartbeat. -/
structure Cancelled where
  run : RunId
  pending : Bool
  queues : Bool
  reachable : Bool
  deriving DecidableEq, Repr

/-- `_cancel_single_run`, with the thread of the run and whether the run was pending: the
session gives the object of the query for the locked row, with the status of that time. -/
def cancelSingleRun (s : State) (x : Cancelled) (action : CancelAction) (now : Time) :
    State × Option (Option ThreadId × Bool) :=
  match s.runs.find? x.run with
  | some row =>
      if row.status = .pending ∨ row.status = .running then
        if action = .rollback ∧ x.pending = true ∧ x.queues = false then
          (s.deleteRun x.run, some (row.threadId, x.pending))
        else (s.setStatus x.run .interrupted now, some (row.threadId, x.pending))
      else (s, none)
  | none => (s, none)

/-- `_cancel_candidates_loop`, with the affected threads. -/
def cancelCandidatesLoop (s : State) (action : CancelAction) (now : Time) :
    List Cancelled → List ThreadId → State × List ThreadId
  | [], affected => (s, affected)
  | x :: xs, affected =>
      match s.cancelSingleRun x action now with
      | (s', some (some t, wasPending)) =>
          let gone := wasPending || s'.hasRunHeartbeat x.run x.reachable = some false
          s'.cancelCandidatesLoop action now xs (if gone then affected ++ [t] else affected)
      | (s', _) => s'.cancelCandidatesLoop action now xs affected

/-- `_idle_affected_threads`. -/
def idleAffectedThreads (s : State) (affected : List ThreadId) : State :=
  affected.foldl (fun s t => if (s.inflight t).isEmpty then s.idleThread t else s) s

/-- `Runs.cancel`, of candidates whose rows are not locked. -/
def cancel (s : State) (xs : List Cancelled) (action : CancelAction) (now : Time) :
    Option State :=
  if xs.all fun x => s.rowLocks x.run = none then
    let r := s.cancelCandidatesLoop action now xs []
    if r.2.all fun t => s.threadLocks t = none || !(r.1.inflight t).isEmpty then
      some (r.1.idleAffectedThreads r.2)
    else none
  else none

/-- `Runs.delete`. -/
def delete (s : State) (id : RunId) : Option State :=
  if (s.runs.find? id).isSome ∧ s.rowLocks id = none then some (s.deleteRun id) else none

/-- `Threads.delete`. `seen` are the runs that its statements find; one that is submitted
meanwhile stays. -/
def deleteThread (s : State) (t : ThreadId) (seen : List RunId) : Option State :=
  if (s.threads.find? t).isSome ∧ s.threadLocks t = none ∧
      seen.all (fun id => s.rowLocks id = none &&
        (s.runs.find? id).any fun r => r.threadId = some t) then
    some { seen.foldl deleteRun s with threads := s.threads.erase t }
  else none

end State

/-! ## The system -/

/-- A step of `Runs.next`. -/
inductive ClaimStep
  | beginNext (limit : Nat)
  | select (now : Time) (busy : List RunId)
  | lockThread
  | checkActive
  | listSiblings
  | askSibling (reachable : Bool)
  | write
  | commit (now : Time) (w : Nat)
  | commitFails (integrity : Bool)
  | clearClaim
  | claimFails
  deriving DecidableEq, Repr

/-- A step of `Runs.sweep`; `fails` is an exception or the end of the process. -/
inductive SweepStep
  | scan
  | look (reachable : Bool)
  | countAttempts
  | sweepSingleRun (now : Time)
  | clearSwept
  | idleOrphanedBusyThreads (reachable : Bool)
  | fails
  deriving DecidableEq, Repr

/-- A step of a worker; `crash` is the end of its process. -/
inductive WorkerStep
  | refresh
  | setJointStatus (status : Option RunStatus) (base : ThreadStatus) (error : Option Dict)
      (now : Time)
  | giveBack (now : Time)
  | abandon
  | leave
  | crash
  deriving DecidableEq, Repr

/-- A transaction of the API, or the end of a heartbeat's time to live. -/
inductive ApiStep
  | put (row : RunRow) (t : ThreadId) (createThread preventInsertIfInflight : Bool)
  | createThread (t : ThreadId)
  | cancel (xs : List State.Cancelled) (action : CancelAction) (now : Time)
  | delete (id : RunId)
  | deleteThread (t : ThreadId) (seen : List RunId)
  | expire (id : RunId)
  deriving DecidableEq, Repr

inductive Step
  | claim (c : Nat) (x : ClaimStep)
  | sweep (p : Nat) (x : SweepStep)
  | work (w : Nat) (x : WorkerStep)
  | api (x : ApiStep)
  deriving DecidableEq, Repr

namespace State

def claim (s : State) (c : Nat) : ClaimStep → Option State
  | .beginNext limit => s.beginNext c limit
  | .select now busy => s.select c now busy
  | .lockThread => s.lockThread c
  | .checkActive => s.checkActive c
  | .listSiblings => s.listSiblings c
  | .askSibling reachable => s.askSibling c reachable
  | .write => s.write c
  | .commit now w => s.commit c now w
  | .commitFails integrity => s.commitFails c integrity
  | .clearClaim => s.clearClaim c
  | .claimFails => some (s.claimFails c)

/-- `maxRetries` is `BG_JOB_MAX_RETRIES`. -/
def sweep (s : State) (maxRetries p : Nat) : SweepStep → Option State
  | .scan => s.scan p
  | .look reachable => s.look p reachable
  | .countAttempts => s.countAttempts p
  | .sweepSingleRun now => s.sweepSingleRun maxRetries p now
  | .clearSwept => s.clearSwept p
  | .idleOrphanedBusyThreads reachable => s.idleOrphanedBusyThreads p reachable
  | .fails => some (s.setSweep p .idle)

def work (s : State) (w : Nat) : WorkerStep → Option State
  | .refresh => s.refresh w
  | .setJointStatus status base error now => s.setJointStatus w status base error now
  | .giveBack now => s.giveBack w now
  | .abandon => s.abandon w
  | .leave => s.leave w
  | .crash => some (s.setWorker w .idle)

def api (s : State) : ApiStep → Option State
  | .put row t createThread preventInsertIfInflight =>
      s.put row t createThread preventInsertIfInflight
  | .createThread t => some (s.createThread t)
  | .cancel xs action now => s.cancel xs action now
  | .delete id => s.delete id
  | .deleteThread t seen => s.deleteThread t seen
  | .expire id => some (s.clearRunHeartbeat id)

def next (s : State) (maxRetries : Nat) : Step → Option State
  | .claim c x => s.claim c x
  | .sweep p x => s.sweep maxRetries p x
  | .work w x => s.work w x
  | .api x => s.api x

end State

/-- The processes on one database and one Redis, from an empty queue. -/
def queue (maxRetries : Nat) : TSys State Step where
  init s := ∃ threads, s = { runs := .empty, threads }
  step s l s' := s.next maxRetries l = some s'

end GraphHarbor.Scheduler
