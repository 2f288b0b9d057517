import GraphHarbor.Sequential
import GraphHarbor.Service

/-!
# What the functions do when they run whole

One lemma for each function: the database it leaves, in terms of the one it found.
-/

namespace GraphHarbor

open Kit Txn

variable {avail : Lock → Bool} {v v' : Db} {now : Time}

/-! ## Assignments -/

namespace Db

variable {id x : RunId} {f : RunRow → RunRow} {t y : ThreadId} {g : ThreadRow → ThreadRow}

/-- What an assignment leaves in the row of each run. -/
theorem find?_assignRun : (v.assignRun id f).runs.find? x =
    if x = id then (v.runs.find? x).map (·.assign f) else v.runs.find? x :=
  Table.find?_modify (f := fun r : RunRow => r.assign f) fun _ => rfl

/-- What an assignment leaves in the row of each thread. -/
theorem find?_assignThread : (v.assignThread t g).threads.find? y =
    if y = t then (v.threads.find? y).map (·.assign g) else v.threads.find? y :=
  Table.find?_modify (f := fun t : ThreadRow => t.assign g) fun _ => rfl

@[simp] theorem assignRun_threads : (v.assignRun id f).threads = v.threads := rfl
@[simp] theorem assignRun_leases : (v.assignRun id f).leases = v.leases := rfl
@[simp] theorem assignRun_baselines : (v.assignRun id f).baselines = v.baselines := rfl
@[simp] theorem assignRun_events : (v.assignRun id f).events = v.events := rfl
@[simp] theorem assignRun_recorded : (v.assignRun id f).recorded = v.recorded := rfl
@[simp] theorem assignRun_issued : (v.assignRun id f).issued = v.issued := rfl
@[simp] theorem assignRun_checkpoints : (v.assignRun id f).checkpoints = v.checkpoints := rfl
@[simp] theorem assignRun_checkpointWrites :
    (v.assignRun id f).checkpointWrites = v.checkpointWrites := rfl
@[simp] theorem assignRun_assistants : (v.assignRun id f).assistants = v.assistants := rfl

@[simp] theorem assignThread_runs : (v.assignThread t g).runs = v.runs := rfl
@[simp] theorem assignThread_leases : (v.assignThread t g).leases = v.leases := rfl
@[simp] theorem assignThread_baselines : (v.assignThread t g).baselines = v.baselines := rfl
@[simp] theorem assignThread_events : (v.assignThread t g).events = v.events := rfl
@[simp] theorem assignThread_recorded : (v.assignThread t g).recorded = v.recorded := rfl
@[simp] theorem assignThread_issued : (v.assignThread t g).issued = v.issued := rfl
@[simp] theorem assignThread_checkpoints : (v.assignThread t g).checkpoints = v.checkpoints := rfl
@[simp] theorem assignThread_checkpointWrites :
    (v.assignThread t g).checkpointWrites = v.checkpointWrites := rfl
@[simp] theorem assignThread_assistants : (v.assignThread t g).assistants = v.assistants := rfl

/-- Assignments to a thread that may be absent. -/
def assignThreadOf (v : Db) (t : Option ThreadId) (g : ThreadRow → ThreadRow) : Db :=
  match t with
  | some t => v.assignThread t g
  | none => v

@[simp] theorem assignThreadOf_runs {t : Option ThreadId} :
    (v.assignThreadOf t g).runs = v.runs := by
  cases t <;> rfl

@[simp] theorem assignThreadOf_events {t : Option ThreadId} :
    (v.assignThreadOf t g).events = v.events := by
  cases t <;> rfl

@[simp] theorem assignThreadOf_recorded {t : Option ThreadId} :
    (v.assignThreadOf t g).recorded = v.recorded := by
  cases t <;> rfl

@[simp] theorem assignThreadOf_leases {t : Option ThreadId} :
    (v.assignThreadOf t g).leases = v.leases := by
  cases t <;> rfl

/-- The database after the event `e` of the run `id` was recorded. -/
def logged (v : Db) (id : RunId) (e : RuntimeEventRow) : Db :=
  ((v.assignThreadOf e.threadId (.numbered e.sequence)).assignRun id
    (.numbered e.sequence)).insertEvent e

/-- The ghost log grows by the event. -/
theorem logged_recorded {e : RuntimeEventRow} :
    (v.logged id e).recorded = v.recorded ++ [e] := by
  simp [logged, insertEvent]

end Db

/-! ## The event log -/

/-- The number `record_event` gives to the next event of the run. -/
def Db.nextSequence (v : Db) (run : RunRow) : Nat :=
  match run.threadId with
  | some t => max ((v.threads.find? t).elim 0 (·.eventSeq)) (v.maxSequence (inThread t)) + 1
  | none => max run.eventSeq (v.maxSequence (inRun run.runId)) + 1

/-- The terminal event of a run. -/
def Db.terminalEvent (v : Db) (id : RunId) : Option RuntimeEventRow :=
  v.events.find? fun e => inRun id e && e.terminal

/-- What the query for a terminal event finds is one. -/
theorem Db.terminalEvent_spec {id : RunId} {e : RuntimeEventRow}
    (h : v.terminalEvent id = some e) : e ∈ v.events ∧ e.runId = some id ∧ e.terminal = true := by
  have hp := List.find?_some h
  simp only [inRun, Bool.and_eq_true, decide_eq_true_eq] at hp
  exact ⟨List.mem_of_find?_eq_some h, hp⟩

/-- The graph name added to a lifecycle payload. -/
def Db.namedPayload (v : Db) (run : RunRow) (topic : String) (payload : Dict) : Dict :=
  if topic = "lifecycle" && truthyField payload "status" && !payload.contains "graph_name" then
    payload.set "graph_name" (.str (match v.assistants.find? run.assistantId with
      | some a => a.graphId
      | none => s!"{run.assistantId}"))
  else payload

/-- The name is read from the assistant; without one it is the assistant's id. -/
theorem withGraphName_returns {run : RunRow} {topic : String} {payload p : Dict}
    (h : (withGraphName run topic payload).Returns avail v p v') :
    p = v.namedPayload run topic payload ∧ v' = v := by
  unfold withGraphName at h
  unfold Db.namedPayload
  split at h
  · next hc =>
      rw [if_pos hc]
      simp only [returns_bind, returns_query, Prog.pure_eq, returns_ret] at h
      obtain ⟨_, _, ⟨rfl, rfl⟩, rfl, rfl⟩ := h
      exact ⟨rfl, rfl⟩
  · next hc =>
      rw [if_neg hc]
      exact returns_ret.1 h

/-- The thread must exist, and keeps the number it hands out. -/
theorem nextThreadSequence_returns {t : ThreadId} {n : Nat}
    (h : (nextThreadSequence t).Returns avail v n v') :
    (∃ thread, v.threads.find? t = some thread ∧
      n = max thread.eventSeq (v.maxSequence (inThread t)) + 1) ∧
      v' = v.assignThread t (.numbered n) := by
  simp only [nextThreadSequence, returns_bind, returns_lockThread] at h
  obtain ⟨_, _, ⟨rfl, rfl, -⟩, h⟩ := h
  split at h
  · simp at h
  · next thread hthread =>
      simp only [returns_bind, returns_query, returns_assignThread, Prog.pure_eq, returns_ret] at h
      obtain ⟨_, _, ⟨rfl, rfl⟩, _, _, ⟨rfl, -⟩, rfl, rfl⟩ := h
      exact ⟨⟨thread, hthread, rfl⟩, rfl⟩

/-- The number comes from the log of the thread, or of a run without one. -/
theorem nextSequence_returns {run : RunRow} {n : Nat}
    (h : (nextSequence run).Returns avail v n v') :
    n = v.nextSequence run ∧ v' = v.assignThreadOf run.threadId (.numbered n) ∧
      ∀ t, run.threadId = some t → (v.threads.find? t).isSome := by
  unfold nextSequence at h
  unfold Db.nextSequence
  split at h
  · next t ht =>
      obtain ⟨⟨thread, hthread, rfl⟩, rfl⟩ := nextThreadSequence_returns h
      simp [ht, hthread, Db.assignThreadOf]
  · next ht =>
      simp only [returns_bind, returns_query, Prog.pure_eq, returns_ret] at h
      obtain ⟨_, _, ⟨rfl, rfl⟩, rfl, rfl⟩ := h
      simp [ht, Db.assignThreadOf]

/-- The number is drawn, the run and the thread keep it, and the event is stored: one step to the
database `logged`. -/
theorem appendRunEvent_returns {run : RunRow} {topic : String} {payload : Dict}
    {ns : List String} {terminal : Bool} {e : RuntimeEventRow}
    (h : (appendRunEvent now run topic payload ns terminal).Returns avail v e v') :
    e = eventRow now (some run.runId) run.threadId (v.nextSequence run) topic payload ns
        terminal ∧
      v' = v.logged run.runId e ∧ v.events.any e.clashes = false ∧
      ∀ t, run.threadId = some t → (v.threads.find? t).isSome := by
  simp only [appendRunEvent, returns_bind, returns_assignRun, returns_insertEvent, Prog.pure_eq,
    returns_ret] at h
  obtain ⟨n, _, hn, _, _, ⟨rfl, -⟩, _, _, ⟨rfl, hclash⟩, rfl, rfl⟩ := h
  obtain ⟨rfl, rfl, hthread⟩ := nextSequence_returns hn
  refine ⟨rfl, rfl, ?_, hthread⟩
  cases ht : run.threadId <;> simpa [Db.assignThreadOf, ht] using hclash

/-- A terminal event is looked for only when one is to be recorded. -/
theorem existingTerminal_returns {id : RunId} {terminal : Bool} {ex : Option RuntimeEventRow}
    (h : (existingTerminal id terminal).Returns avail v ex v') :
    (terminal = true → ex = v.terminalEvent id) ∧ (terminal = false → ex = none) ∧ v' = v := by
  unfold existingTerminal at h
  split at h
  · next ht =>
      simp only [returns_query] at h
      exact ⟨fun _ => h.1, by simp [ht], h.2⟩
  · next ht =>
      simp only [Prog.pure_eq, returns_ret] at h
      exact ⟨fun h => absurd h ht, fun _ => h.1, h.2⟩

/-- `record_event` either returns the terminal event that exists, or appends one. -/
theorem recordRunEvent_returns {id : RunId} {th : Option ThreadId} {topic : String}
    {payload : Dict} {ns : List String} {terminal : Bool} {e : RuntimeEventRow}
    (h : (recordRunEvent now id th topic payload ns terminal).Returns avail v e v') :
    ∃ run, v.runs.find? id = some run ∧
      ((terminal = true ∧ v.terminalEvent id = some e ∧ v' = v) ∨
        ((terminal = true → v.terminalEvent id = none) ∧
          e = eventRow now (some id) run.threadId (v.nextSequence run) topic
            (v.namedPayload run topic payload) ns terminal ∧
          v' = v.logged id e ∧ v.events.any e.clashes = false ∧
          ∀ t, run.threadId = some t → (v.threads.find? t).isSome)) := by
  simp only [recordRunEvent, returns_bind, returns_lockRun] at h
  obtain ⟨_, _, ⟨rfl, rfl, -⟩, h⟩ := h
  split at h
  · simp at h
  · next run hrun =>
      obtain rfl : run.runId = id := Table.key_of_find? hrun
      refine ⟨run, hrun, ?_⟩
      split at h
      · simp at h
      · simp only [returns_bind] at h
        obtain ⟨p, _, hp, ex, _, hex, h⟩ := h
        obtain ⟨rfl, rfl⟩ := withGraphName_returns hp
        obtain ⟨hsome, hnone, rfl⟩ := existingTerminal_returns hex
        split at h
        · next event =>
            simp only [Prog.pure_eq, returns_ret] at h
            obtain ⟨rfl, rfl⟩ := h
            cases terminal with
            | true => exact .inl ⟨rfl, (hsome rfl).symm, rfl⟩
            | false => cases hnone rfl
        · obtain ⟨he, hv, hclash, hthread⟩ := appendRunEvent_returns h
          exact .inr ⟨fun ht => (hsome ht).symm, he, hv, hclash, hthread⟩

/-- A drain adds one key to the arguments of the run. -/
theorem kwargs_afterDrain {drained : Bool} {kwargs : Dict} (key : String)
    (h : key ≠ "__graphharbor_resume_after_drain") :
    (afterDrain drained kwargs).get? key = kwargs.get? key := by
  unfold afterDrain
  split
  · exact Dict.get?_set_of_ne h
  · rfl

end GraphHarbor
