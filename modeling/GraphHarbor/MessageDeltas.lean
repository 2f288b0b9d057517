import GraphHarbor.EventFrames
import GraphHarbor.Numbering
import GraphHarbor.Reaper
import GraphHarbor.Retention

/-!
# Batches of message deltas

`record_message_deltas` appends the deltas of a run under one lock of its cursor;
`_publish_events` records a single event with `record_event`. Both number the rows from
counters that they read in their own way.
-/

namespace GraphHarbor

open Kit Txn

variable {now : Time} {v v' : Db} {id : RunId} {th : Option ThreadId} {run : RunRow}

/-! ## Trace metadata -/

/-- `summarize_value`, of a value of a JSON column. -/
def summarizeValue (stableHash : Json → String) (value : Json) : Json :=
  let hash : String × Json := ("sha256", .str (stableHash value))
  match value with
  | .null | .bool _ | .num _ | .float _ => value
  | .str text => .obj [("kind", .str "str"), ("length", .num text.length), hash]
  | .obj fields => .obj
      [("kind", .str "dict"), ("size", .num fields.length),
        ("keys", .arr ((fields.take 10).map fun f => .str f.1)), hash]
  | .arr items => .obj [("kind", .str "list"), ("size", .num items.length), hash]

/-- `_DEFAULT_TRACE_CONTEXT_KEYS`. -/
def traceContextKeys : List String :=
  ["run_id", "thread_id", "assistant_id", "assistant_version", "deployment_version", "graph_id",
    "request_id"]

/-- `_SUMMARY_KEYS`. -/
def summaryKeys : List String :=
  ["data", "input", "output", "error", "interrupts", "content", "prompt", "response"]

/-- `build_trace_metadata`, of an event that has a name. -/
def buildTraceMetadata (stableHash : Json → String) (event context : Dict) : Dict :=
  let contexts := traceContextKeys.filterMap fun key =>
    ((context.get? key).filter fun value => value ≠ .null ∧ value ≠ .str "").map fun value =>
      (key, .str value.pyStr)
  let summaries := summaryKeys.filterMap fun key =>
    (event.get? key).map fun value => (key, summarizeValue stableHash value)
  let texts := ["status", "reason", "topic"].filterMap fun key =>
    (event.get? key).map fun value => (key, Json.str value.pyStr)
  let ns := ((event.get? "namespace").filter (· ≠ .null)).toList.map fun value =>
    ("namespace", summarizeValue stableHash value)
  let name := firstTruthy [event.get? "event", event.get? "method", some (.str "custom")]
  [("schema_version", .num 1)] ++ contexts ++ [("event", .str name.pyStr)] ++ ns ++ summaries ++
    texts

/-- What the trace of an event is made with: the hash of a value and the trace context. -/
structure Tracing where
  stableHash : Json → String
  context : Dict

/-- The context of a trace. -/
def Tracing.contextOf (T : Tracing) (runId : Option RunId) (threadId : Option ThreadId) : Dict :=
  Dict.update [("run_id", idText runId), ("thread_id", idText threadId)] T.context

/-- The trace of `record_event`, for the row and the payload it stores. -/
def Tracing.ofEvent (T : Tracing) (row : RuntimeEventRow) (payload : Dict) : Dict :=
  buildTraceMetadata T.stableHash
    (Dict.update [("event", .str row.topic), ("namespace", .arr (row.namespace.map .str))] payload)
    (T.contextOf row.runId row.threadId)

/-- The trace of `record_message_deltas`. -/
def Tracing.ofDelta (T : Tracing) (row : RuntimeEventRow) (event : Dict) : Dict :=
  buildTraceMetadata T.stableHash
    (Dict.update [("event", .str "messages"), ("namespace", .arr (row.namespace.map .str))] event)
    (T.contextOf row.runId row.threadId)

/-! ## Both recorders -/

/-- `_is_message_delta`. -/
def isMessageDelta (event : Dict) : Bool :=
  event.get? "event" = some (.str "messages") &&
    match event.get? "data" with
    | some (.arr (.obj first :: _)) => Dict.get? first "event" = some (.str "content-block-delta")
    | _ => false

/-- The `TypeError` of a namespace that cannot be iterated. -/
def typeError : Err := .valueError "object is not iterable"

/-- `record_event` for one event after the other, with the arguments of `_publish_events`. A row
is returned with its trace. -/
def recordEach (T : Tracing) (now : Time) (id : RunId) (th : Option ThreadId) :
    List Dict → Txn (List (RuntimeEventRow × Dict))
  | [] => pure []
  | event :: events =>
      match publishedEvent event with
      | none => .throw typeError
      | some e => do
          let row ← recordRunEvent now id th e.topic e.payload e.namespace e.terminal
          let rest ← recordEach T now id th events
          pure ((row, T.ofEvent row event) :: rest)

/-- The deltas with their namespaces. -/
def namespaced (events : List Dict) : Option (List (Dict × List String)) :=
  events.mapM fun event => (eventNamespace event).map fun ns => (event, ns)

/-- `record_message_deltas`, with the loop over the events as they come. -/
def recordDeltas (T : Tracing) (now : Time) (id : RunId) (th : Option ThreadId)
    (events : List Dict) : Txn (List (RuntimeEventRow × Dict)) :=
  match namespaced events with
  | some deltas => do
      let rows ← recordMessageDeltas now id th deltas
      pure (rows.zipWith (fun row event => (row, T.ofDelta row event)) events)
  | none => do
      -- the namespaces are read after the cursor
      match ← lockRun id with
      | none => .throw (missingRun id)
      | some run =>
          if th.isSome && th ≠ run.threadId then .throw foreignEvent
          else do
            let _ ← lastSequence run
            .throw typeError

/-- The result of a transaction that nothing else disturbs; `none` when it raises. -/
def outcome {α : Type} (p : Txn α) (v : Db) : Option (α × Db) :=
  match p.eval unlocked v with
  | some (.ok r) => some r
  | _ => none

theorem outcome_eq_some {α : Type} {p : Txn α} {a : α} :
    outcome p v = some (a, v') ↔ p.Returns unlocked v a v' := by
  unfold outcome Returns
  cases p.eval unlocked v with
  | none => simp
  | some r =>
      cases r with
      | error e => simp
      | ok r => simp

/-! ## Recording one delta -/

/-- The arguments with which a delta is recorded. -/
theorem publishedEvent_delta {event : Dict} (hdelta : isMessageDelta event = true)
    {ns : List String} (hns : eventNamespace event = some ns) :
    publishedEvent event = some { topic := "messages", payload := event, «namespace» := ns } := by
  have hevent : event.get? "event" = some (.str "messages") :=
    of_decide_eq_true ((Bool.and_eq_true _ _).mp hdelta).1
  unfold publishedEvent
  rw [hns, hevent]
  rfl

/-- The checks before the first event pass. -/
structure Admitted (v : Db) (id : RunId) (th : Option ThreadId) (run : RunRow) : Prop where
  stored : v.runs.find? id = some run
  target : th = none ∨ th = run.threadId
  thread : ∀ t, run.threadId = some t → (v.threads.find? t).isSome

theorem Admitted.not_foreign (h : Admitted v id th run) :
    (th.isSome && decide (th ≠ run.threadId)) = false := by
  rcases h.target with rfl | rfl
  · rfl
  · rw [decide_eq_false (not_not_intro rfl), Bool.and_false]

theorem admitted_target {th : Option ThreadId}
    (h : (th.isSome && decide (th ≠ run.threadId)) = false) : th = none ∨ th = run.threadId := by
  cases th with
  | none => exact .inl rfl
  | some t =>
      refine .inr ?_
      by_contra hne
      rw [decide_eq_true hne] at h
      exact nomatch h

/-- A message is recorded for the thread of its run, whether that was given or not. -/
theorem recordRunEvent_target (h : Admitted v id th run) {topic : String} {payload : Dict}
    {ns : List String} {terminal : Bool} {e : RuntimeEventRow}
    (hreturns : (recordRunEvent now id run.threadId topic payload ns terminal).Returns unlocked v e
      v') : (recordRunEvent now id th topic payload ns terminal).Returns unlocked v e v' := by
  have hown : (run.threadId.isSome && decide (run.threadId ≠ run.threadId)) = false := by
    rw [decide_eq_false (not_not_intro rfl), Bool.and_false]
  simp only [recordRunEvent, returns_bind, returns_lockRun] at hreturns ⊢
  obtain ⟨_, _, ⟨rfl, rfl, hlock⟩, hreturns⟩ := hreturns
  refine ⟨_, _, ⟨rfl, rfl, hlock⟩, ?_⟩
  rw [h.stored] at hreturns ⊢
  simp only [hown, h.not_foreign, Bool.false_eq_true, if_false] at hreturns ⊢
  exact hreturns

/-- The row of the next message of a run. -/
def nextDelta (now : Time) (v : Db) (run : RunRow) (payload : Dict) (ns : List String) :
    RuntimeEventRow :=
  eventRow now (some run.runId) run.threadId (v.nextSequence run) "messages" payload ns false

theorem recordRunEvent_delta (hv : v.Sound) (h : Admitted v id th run) {payload : Dict}
    {ns : List String} :
    (recordRunEvent now id th "messages" payload ns false).Returns unlocked v
      (nextDelta now v run payload ns) (v.logged id (nextDelta now v run payload ns)) := by
  obtain rfl : run.runId = id := Table.key_of_find? h.stored
  obtain ⟨e, v', hreturns⟩ : ∃ e v', (recordRunEvent now run.runId run.threadId "messages" payload
      ns false).Returns unlocked v e v' :=
    recordRunEvent_possible hv h.stored rfl fun t ht => ⟨h.thread t ht, rfl⟩
  obtain ⟨run', hrun', ⟨hterminal, -⟩ | ⟨-, he, rfl, -⟩⟩ := recordRunEvent_returns hreturns
  -- a delta is no terminal event, so no event stands in its place
  · exact nomatch hterminal
  · obtain rfl := Option.some.inj (hrun'.symm.trans h.stored)
    have hpayload : v.namedPayload run' "messages" payload = payload := rfl
    rw [hpayload] at he
    rw [he] at hreturns
    exact recordRunEvent_target h hreturns

theorem recordRunEvent_admitted {topic : String} {payload : Dict} {ns : List String}
    {terminal : Bool} {e : RuntimeEventRow} (hnew : terminal = false)
    (h : (recordRunEvent now id th topic payload ns terminal).Returns unlocked v e v') :
    ∃ run, Admitted v id th run := by
  obtain ⟨run, hrun, ⟨hterminal, -⟩ | ⟨-, -, -, -, hthread⟩⟩ := recordRunEvent_returns h
  · rw [hnew] at hterminal
    exact nomatch hterminal
  · refine ⟨run, hrun, admitted_target ?_, hthread⟩
    simp only [recordRunEvent, returns_bind, returns_lockRun] at h
    obtain ⟨_, _, ⟨rfl, rfl, -⟩, h⟩ := h
    rw [hrun] at h
    -- another thread than that of the run would have raised
    by_contra hforeign
    rw [Bool.not_eq_false] at hforeign
    simp only [hforeign, if_true] at h
    exact returns_throw h

/-! ## One after the other -/

theorem logged_sound (hv : v.Sound) (h : Admitted v id th run) {payload : Dict}
    {ns : List String} : (v.logged id (nextDelta now v run payload ns)).Sound := by
  -- the row is what the service commits for a publication of this one delta
  have hrecorded : (recordRunEvent now id th "messages" payload ns false).Returns unlocked v
      (nextDelta now v run payload ns) (v.logged id (nextDelta now v run payload ns)) :=
    recordRunEvent_delta hv h
  have hpublished : ((Request.publish id th [⟨"messages", payload, ns⟩]).program now).Returns
      unlocked v (.events [nextDelta now v run payload ns])
      (v.logged id (nextDelta now v run payload ns)) := by
    refine returns_bind.2 ⟨[nextDelta now v run payload ns], _, ?_, returns_ret.2 ⟨rfl, rfl⟩⟩
    show (recordAll now id th [⟨"messages", payload, ns⟩]).Returns _ _ _ _
    exact returns_bind.2 ⟨_, _, hrecorded, returns_bind.2 ⟨[], _, returns_ret.2 ⟨rfl, rfl⟩,
      returns_ret.2 ⟨rfl, rfl⟩⟩⟩
  exact Request.sound hv hpublished

theorem logged_admitted (h : Admitted v id th run) {e : RuntimeEventRow}
    (he : e.threadId = run.threadId) :
    Admitted (v.logged id e) id th (run.assign (.numbered e.sequence)) where
  stored := by
    show ((v.assignThreadOf _ _).assignRun id _).runs.find? id = _
    rw [Db.find?_assignRun, if_pos rfl, Db.assignThreadOf_runs, h.stored]
    rfl
  target := h.target
  thread t ht := by
    have hstored := h.thread t ht
    show ((v.assignThreadOf e.threadId _).threads.find? t).isSome
    rw [he]
    cases hthread : run.threadId with
    | none => exact hstored
    | some t' =>
        -- raising the counter keeps the row of the thread
        show ((v.assignThread t' _).threads.find? t).isSome
        rw [Db.find?_assignThread]
        split
        · rw [Option.isSome_map]
          exact hstored
        · exact hstored

theorem maxSequence_append {w : Db} {p : RuntimeEventRow → Bool} {e : RuntimeEventRow}
    (hevents : w.events = v.events ++ [e]) (hp : p e = true) :
    w.maxSequence p = max (v.maxSequence p) e.sequence := by
  have hfold (l : List Nat) (n : Nat) : l.foldr max (max n 0) = max (l.foldr max 0) n := by
    induction l with
    | nil => rw [List.foldr_nil, List.foldr_nil, Nat.max_comm]
    | cons m l ih => rw [List.foldr_cons, List.foldr_cons, ih, Nat.max_assoc]
  unfold Db.maxSequence
  rw [hevents, List.filter_append, List.filter_cons_of_pos hp, List.filter_nil, List.map_append,
    List.foldr_append]
  exact hfold _ _

/-- The next number is one more. -/
theorem nextSequence_logged (h : Admitted v id th run) {e : RuntimeEventRow}
    (hthread : e.threadId = run.threadId) (hrun : e.runId = some run.runId)
    (hsequence : e.sequence = v.nextSequence run) :
    (v.logged id e).nextSequence (run.assign (.numbered e.sequence)) = e.sequence + 1 := by
  have hevents : (v.logged id e).events = v.events ++ [e] := by
    show (v.assignThreadOf _ _).events ++ [e] = _
    rw [Db.assignThreadOf_events]
  cases hcase : run.threadId with
  -- the counter of the run and its greatest number are both `e.sequence` now
  | none =>
      have hown : (run.assign (.numbered e.sequence)).threadId = none := hcase
      have hmax : (v.logged id e).maxSequence (inRun run.runId) =
          max (v.maxSequence (inRun run.runId)) e.sequence :=
        maxSequence_append hevents (decide_eq_true hrun)
      simp only [Db.nextSequence, hown]
      show max (max run.eventSeq e.sequence) ((v.logged id e).maxSequence (inRun run.runId)) + 1 = _
      simp only [Db.nextSequence, hcase] at hsequence
      omega
  | some t =>
      have hown : (run.assign (.numbered e.sequence)).threadId = some t := hcase
      have hmax : (v.logged id e).maxSequence (inThread t) =
          max (v.maxSequence (inThread t)) e.sequence :=
        maxSequence_append hevents (decide_eq_true (hthread.trans hcase))
      -- the counter of the thread is `e.sequence` now, and no event has more
      obtain ⟨thread, hstored⟩ := Option.isSome_iff_exists.1 (h.thread t hcase)
      have hnumbered : (v.logged id e).threads.find? t =
          some (thread.assign (.numbered e.sequence)) := by
        show (v.assignThreadOf e.threadId _).threads.find? t = _
        rw [hthread, hcase]
        show (v.assignThread t _).threads.find? t = _
        rw [Db.find?_assignThread, if_pos rfl, hstored]
        rfl
      simp only [Db.nextSequence, hown, hnumbered, hmax]
      show max e.sequence _ + 1 = _
      simp only [Db.nextSequence, hcase] at hsequence
      omega

/-- The rows of the deltas, numbered from `n + 1`. -/
def rowsOf (now : Time) (id : RunId) (t : Option ThreadId) (n : Nat) (events : List Dict) :
    List RuntimeEventRow :=
  deltaRows now id t n (events.map fun event => (event, (eventNamespace event).getD []))

/-- The rows with their traces. -/
def Tracing.traced (T : Tracing) (rows : List RuntimeEventRow) (events : List Dict) :
    List (RuntimeEventRow × Dict) :=
  rows.zipWith (fun row event => (row, T.ofDelta row event)) events

/-- The database after these rows of the run were recorded one after the other. -/
def Db.loggedAll (v : Db) (id : RunId) (rows : List RuntimeEventRow) : Db :=
  rows.foldl (fun v row => v.logged id row) v

variable {T : Tracing} {events : List Dict}

theorem nextSequence_pos : 0 < v.nextSequence run := by
  unfold Db.nextSequence
  split <;> exact Nat.succ_pos _

theorem recordEach_returns (hdelta : ∀ event ∈ events, isMessageDelta event = true)
    (hns : ∀ event ∈ events, (eventNamespace event).isSome) (hv : v.Sound)
    (h : Admitted v id th run) :
    (recordEach T now id th events).Returns unlocked v
      (T.traced (rowsOf now id run.threadId (v.nextSequence run - 1) events) events)
      (v.loggedAll id (rowsOf now id run.threadId (v.nextSequence run - 1) events)) := by
  induction events generalizing v run with
  | nil => exact returns_ret.2 ⟨rfl, rfl⟩
  | cons event events ih =>
      obtain ⟨ns, hns₀⟩ := Option.isSome_iff_exists.1 (hns event List.mem_cons_self)
      have hpublished := publishedEvent_delta (hdelta event List.mem_cons_self) hns₀
      have hid : run.runId = id := Table.key_of_find? h.stored
      have hpos : 0 < v.nextSequence run := nextSequence_pos
      -- the first row of the list is the one that is recorded next
      have hrow : nextDelta now v run event ns = eventRow now (some id) run.threadId
          (v.nextSequence run - 1 + 1) "messages" event ((eventNamespace event).getD [])
          false := by
        rw [Nat.sub_add_cancel hpos, hns₀, ← hid]
        rfl
      have hsequence : (v.logged id (nextDelta now v run event ns)).nextSequence
          (run.assign (.numbered (nextDelta now v run event ns).sequence)) - 1 =
            v.nextSequence run - 1 + 1 := by
        rw [nextSequence_logged h rfl rfl rfl, Nat.sub_add_cancel hpos]
        rfl
      have hsound : (v.logged id (nextDelta now v run event ns)).Sound := logged_sound hv h
      have hrest := ih (fun e he => hdelta e (List.mem_cons_of_mem event he))
        (fun e he => hns e (List.mem_cons_of_mem event he)) hsound (logged_admitted h rfl)
      rw [hsequence] at hrest
      have hfirst : (recordRunEvent now id th "messages" event ns false).Returns unlocked v
          (nextDelta now v run event ns) (v.logged id (nextDelta now v run event ns)) :=
        recordRunEvent_delta hv h
      unfold recordEach
      rw [hpublished]
      refine returns_bind.2 ⟨_, _, hfirst, returns_bind.2 ⟨_, _, hrest, returns_ret.2 ⟨?_, ?_⟩⟩⟩
      · unfold rowsOf Tracing.traced
        rw [List.map_cons, deltaRows, ← hrow, List.zipWith_cons_cons]
        rfl
      · unfold rowsOf Db.loggedAll
        rw [List.map_cons, deltaRows, ← hrow, List.foldl_cons]
        rfl

/-- Nothing is recorded unless the run admits it and all namespaces are lists. -/
theorem recordEach_admitted (hdelta : ∀ event ∈ events, isMessageDelta event = true)
    {rows : List (RuntimeEventRow × Dict)}
    (h : (recordEach T now id th events).Returns unlocked v rows v') :
    (events ≠ [] → ∃ run, Admitted v id th run) ∧
      ∀ event ∈ events, (eventNamespace event).isSome := by
  induction events generalizing v v' rows with
  | nil => exact ⟨fun hne => absurd rfl hne, nofun⟩
  | cons event events ih =>
      unfold recordEach at h
      -- an event whose namespace is no list raises before anything is recorded
      cases hns : eventNamespace event with
      | none =>
          have hnone : publishedEvent event = none := by
            unfold publishedEvent
            rw [hns]
            rfl
          rw [hnone] at h
          exact absurd h returns_throw
      | some ns =>
          rw [publishedEvent_delta (hdelta event List.mem_cons_self) hns] at h
          obtain ⟨row, v₁, hrow, hrest⟩ := returns_bind.1 h
          obtain ⟨rest, v₂, hrest, -⟩ := returns_bind.1 hrest
          refine ⟨fun _ => recordRunEvent_admitted rfl hrow, fun e he => ?_⟩
          rcases List.mem_cons.1 he with rfl | he
          · rw [hns]
            rfl
          · exact (ih (fun e he => hdelta e (List.mem_cons_of_mem event he)) hrest).2 e he

/-! ## All at once -/

/-- The last number before a batch of the run. -/
def Db.lastSequence (v : Db) (run : RunRow) : Nat := max (v.nextSequence run - 1) run.eventSeq

theorem lastSequence_commits (h : Admitted v id th run) :
    (lastSequence run).Returns unlocked v (v.lastSequence run) v := by
  unfold GraphHarbor.lastSequence Db.lastSequence Db.nextSequence
  cases hcase : run.threadId with
  | none =>
      refine returns_bind.2 ⟨_, _, returns_query.2 ⟨rfl, rfl⟩, returns_ret.2 ⟨?_, rfl⟩⟩
      show max (max _ _ + 1 - 1) _ = _
      omega
  -- the batch locks the thread and takes the greater of the two counters
  | some t =>
      obtain ⟨thread, hstored⟩ := Option.isSome_iff_exists.1 (h.thread t hcase)
      refine returns_bind.2 ⟨_, _, returns_lockThread.2 ⟨rfl, rfl, fun _ => rfl⟩, ?_⟩
      simp only [hstored]
      refine returns_bind.2 ⟨_, _, returns_query.2 ⟨rfl, rfl⟩, returns_ret.2 ⟨?_, rfl⟩⟩
      show max (max _ _ + 1 - 1) _ = _
      rw [Option.elim_some]
      omega

/-- The counters of a run and its thread, raised to a number. -/
def Db.counted (v : Db) (id : RunId) (t : Option ThreadId) (n : Nat) : Db :=
  (v.assignThreadOf t (.numbered n)).assignRun id (.numbered n)

def Db.insertAll (v : Db) (rows : List RuntimeEventRow) : Db := rows.foldl Db.insertEvent v

theorem counted_insertAll (t : Option ThreadId) (n : Nat) (rows : List RuntimeEventRow) :
    (v.insertAll rows).counted id t n = (v.counted id t n).insertAll rows := by
  induction rows generalizing v with
  | nil => rfl
  | cons row rows ih =>
      have hstep : (v.insertEvent row).counted id t n = (v.counted id t n).insertEvent row := by
        cases t <;> rfl
      show ((v.insertEvent row).insertAll rows).counted id t n = _
      rw [ih, hstep]
      rfl

theorem assignThread_numbered (t : ThreadId) (m n : Nat) :
    (v.assignThread t (.numbered m)).assignThread t (.numbered n) =
      v.assignThread t (.numbered n) := by
  refine congrArg (fun threads => { v with threads := threads }) ?_
  exact Table.modify_modify (f := fun t : ThreadRow => t.assign (.numbered m))
    (g := fun t => t.assign (.numbered n)) (h := fun t => t.assign (.numbered n)) (fun _ => rfl)
    (fun _ => rfl) (fun _ => rfl) fun _ => rfl

theorem assignRun_numbered (id : RunId) {m n : Nat} (h : m ≤ n) :
    (v.assignRun id (.numbered m)).assignRun id (.numbered n) = v.assignRun id (.numbered n) := by
  refine congrArg (fun runs => { v with runs := runs }) ?_
  refine Table.modify_modify (f := fun r : RunRow => r.assign (.numbered m))
    (g := fun r => r.assign (.numbered n)) (h := fun r => r.assign (.numbered n)) (fun _ => rfl)
    (fun _ => rfl) (fun _ => rfl) fun run => ?_
  have hmax : max (max run.eventSeq m) n = max run.eventSeq n := by omega
  show ({ run with eventSeq := max (max run.eventSeq m) n } : RunRow) = { run with eventSeq := _ }
  rw [hmax]
  rfl

theorem counted_counted (t : Option ThreadId) {m n : Nat} (h : m ≤ n) :
    (v.counted id t m).counted id t n = v.counted id t n := by
  cases t with
  | none => exact assignRun_numbered id h
  | some t =>
      show (((v.assignThread t (.numbered m)).assignThread t (.numbered n)).assignRun id
        (.numbered m)).assignRun id (.numbered n) = _
      rw [assignThread_numbered, assignRun_numbered id h]
      rfl

theorem logged_eq (row : RuntimeEventRow) :
    v.logged id row = (v.counted id row.threadId row.sequence).insertEvent row := rfl

/-- Only the last of the counters that were set on the way is left. -/
theorem loggedAll_deltaRows (t : Option ThreadId) (n : Nat) {deltas : List (Dict × List String)}
    (hne : deltas ≠ []) : v.loggedAll id (deltaRows now id t n deltas) =
      (v.counted id t (n + deltas.length)).insertAll (deltaRows now id t n deltas) := by
  induction deltas generalizing v n with
  | nil => exact absurd rfl hne
  | cons delta deltas ih =>
      obtain ⟨payload, ns⟩ := delta
      show (v.logged id _).loggedAll id (deltaRows now id t (n + 1) deltas) =
        ((v.counted id t _).insertEvent _).insertAll (deltaRows now id t (n + 1) deltas)
      -- the counters of one more delta are overwritten by those of the next
      cases deltas with
      | nil => rfl
      | cons delta' deltas =>
          rw [ih (n + 1) (List.cons_ne_nil _ _), logged_eq]
          have hlength : n + 1 + (delta' :: deltas).length =
              n + ((payload, ns) :: delta' :: deltas).length := by
            simp only [List.length_cons]
            omega
          rw [hlength]
          refine congrArg (fun v : Db => v.insertAll _) ?_
          refine (counted_insertAll (v := v.counted id t (n + 1)) t
            (n + ((payload, ns) :: delta' :: deltas).length)
            [eventRow now (some id) t (n + 1) "messages" payload ns false]).trans ?_
          have hle : n + 1 ≤ n + ((payload, ns) :: delta' :: deltas).length := by
            simp only [List.length_cons]
            omega
          rw [counted_counted t hle]
          rfl

/-- The database after a batch with these rows. -/
def Db.batched (v : Db) (id : RunId) (t : Option ThreadId) (n : Nat)
    (rows : List RuntimeEventRow) : Db :=
  ((v.assignRun id (.renumbered n)).assignThreadOf t (.numbered n)).insertAll rows

/-- A batch leaves the counters that single events leave unless the counter of the run is
larger. -/
theorem batched_eq (hrun : v.runs.find? id = some run) {n : Nat} (hle : run.eventSeq ≤ n)
    (rows : List RuntimeEventRow) :
    v.batched id run.threadId n rows = (v.counted id run.threadId n).insertAll rows := by
  refine congrArg (fun v : Db => v.insertAll rows) ?_
  -- the counter of the run is not above `n`, so assigning and raising it agree
  have hassign : v.assignRun id (.renumbered n) = v.assignRun id (.numbered n) := by
    refine congrArg (fun runs => { v with runs := runs }) ?_
    refine Table.modify_congr (f := fun r : RunRow => r.assign (.renumbered n))
      (g := fun r => r.assign (.numbered n)) (fun _ => rfl) (fun _ => rfl) fun r hr => ?_
    obtain rfl := Option.some.inj (hrun.symm.trans hr)
    show ({ run with eventSeq := n } : RunRow) = { run with eventSeq := max run.eventSeq n }
    rw [Nat.max_eq_right hle]
  rw [hassign]
  cases run.threadId <;> rfl

theorem insertEvents_returns {es : List RuntimeEventRow} {n : Nat}
    (hstored : ∀ e ∈ v.events, e.runId = some id → e.sequence ≤ n) {t : Option ThreadId}
    {deltas : List (Dict × List String)} (hes : es = deltaRows now id t n deltas) :
    (insertEvents es).Returns unlocked v () (v.insertAll es) := by
  subst hes
  induction deltas generalizing v n with
  | nil => exact returns_ret.2 ⟨rfl, rfl⟩
  | cons delta deltas ih =>
      obtain ⟨payload, ns⟩ := delta
      -- the stored events of the run have smaller numbers, and a delta is not terminal
      have hclash : v.events.any (eventRow now (some id) t (n + 1) "messages" payload ns
          false).clashes = false := by
        rw [List.any_eq_false]
        intro e he hclash
        simp only [RuntimeEventRow.clashes, eventRow, Option.isSome_some,
          decide_eq_true_eq] at hclash
        obtain ⟨-, heq, hsame⟩ := hclash
        have hle := hstored e he heq.symm
        rcases hsame with hsequence | ⟨hterminal, -⟩
        · omega
        · cases hterminal
      refine returns_bind.2 ⟨(), _, returns_insertEvent.2 ⟨rfl, hclash⟩, ih fun e he hid => ?_⟩
      rcases List.mem_append.1 he with he | he
      · exact (hstored e he hid).trans (Nat.le_succ n)
      · obtain rfl := List.mem_singleton.1 he
        exact le_rfl

/-- No event of the run has a larger number. -/
theorem stored_le_lastSequence (hv : v.Sound) (hrun : v.runs.find? id = some run)
    {e : RuntimeEventRow} (he : e ∈ v.events) (hid : e.runId = some id) :
    e.sequence ≤ v.lastSequence run := by
  obtain ⟨r, hr, hthread⟩ := hv.eventRun e he id hid
  obtain rfl := Option.some.inj (hrun.symm.trans hr)
  obtain rfl : run.runId = id := Table.key_of_find? hrun
  unfold Db.lastSequence Db.nextSequence
  cases hcase : run.threadId with
  | none =>
      have hle : e.sequence ≤ v.maxSequence (inRun run.runId) :=
        Db.le_maxSequence he (decide_eq_true hid)
      show e.sequence ≤ max (max _ _ + 1 - 1) _
      omega
  | some t =>
      have hle : e.sequence ≤ v.maxSequence (inThread t) :=
        Db.le_maxSequence he (decide_eq_true (hthread.trans hcase))
      show e.sequence ≤ max (max _ _ + 1 - 1) _
      omega

theorem recordMessageDeltas_returns (hv : v.Sound) (h : Admitted v id th run)
    {deltas : List (Dict × List String)} (hne : deltas ≠ []) :
    (recordMessageDeltas now id th deltas).Returns unlocked v
      (deltaRows now id run.threadId (v.lastSequence run) deltas)
      (v.batched id run.threadId (v.lastSequence run + deltas.length)
        (deltaRows now id run.threadId (v.lastSequence run) deltas)) := by
  unfold recordMessageDeltas
  rw [if_neg (by rwa [List.isEmpty_iff])]
  refine returns_bind.2 ⟨_, _, returns_lockRun.2 ⟨rfl, rfl, fun _ => rfl⟩, ?_⟩
  simp only [h.stored, h.not_foreign, Bool.false_eq_true, if_false]
  have hthread (w : Db) : (assignThreadOf run.threadId (.numbered (v.lastSequence run +
      deltas.length))).Returns unlocked w () (w.assignThreadOf run.threadId
        (.numbered (v.lastSequence run + deltas.length))) := by
    cases run.threadId with
    | none => exact returns_ret.2 ⟨rfl, rfl⟩
    | some t => exact returns_assignThread.2 ⟨rfl, fun _ _ => .inr rfl⟩
  refine returns_bind.2 ⟨_, _, lastSequence_commits h, returns_bind.2 ⟨(), _,
    returns_assignRun.2 ⟨rfl, fun _ _ => .inr rfl⟩, returns_bind.2 ⟨(), _, hthread _,
      returns_bind.2 ⟨(), _, insertEvents_returns (fun e he hid => ?_) rfl,
        returns_ret.2 ⟨rfl, rfl⟩⟩⟩⟩⟩
  rw [Db.assignThreadOf_events] at he
  exact stored_le_lastSequence hv h.stored he hid

theorem insertEvents_tables {avail : Lock → Bool} {es : List RuntimeEventRow} {u : Unit}
    (h : (insertEvents es).Returns avail v u v') : v'.runs = v.runs ∧ v'.threads = v.threads := by
  induction es generalizing v with
  | nil =>
      obtain ⟨-, rfl⟩ := returns_ret.1 h
      exact ⟨rfl, rfl⟩
  | cons e es ih =>
      simp only [insertEvents, returns_bind, returns_insertEvent] at h
      obtain ⟨_, w, ⟨rfl, -⟩, h⟩ := h
      obtain ⟨hruns, hthreads⟩ := ih h
      exact ⟨hruns, hthreads⟩

theorem assignThreadOf_runs {avail : Lock → Bool} {t : Option ThreadId}
    {f : ThreadRow → ThreadRow} {u : Unit}
    (h : (assignThreadOf t f).Returns avail v u v') : v'.runs = v.runs := by
  cases t with
  | none => exact (returns_ret.1 h).2 ▸ rfl
  | some t => exact (returns_assignThread.1 h).1 ▸ rfl

/-- A batch that returns numbers its rows above both counters. -/
theorem recordMessageDeltas_commits {avail : Lock → Bool} {deltas : List (Dict × List String)}
    {rows : List RuntimeEventRow}
    (h : (recordMessageDeltas now id th deltas).Returns avail v rows v') :
    deltas = [] ∧ v' = v ∨ ∃ run n, Admitted v id th run ∧ run.eventSeq ≤ n ∧
      (∀ t, run.threadId = some t → (v.threads.find? t).elim 0 (·.eventSeq) ≤ n) ∧
      v'.runs = (v.assignRun id (.renumbered (n + deltas.length))).runs ∧
      v'.threads = (v.assignThreadOf run.threadId (.numbered (n + deltas.length))).threads := by
  unfold recordMessageDeltas at h
  split at h
  · next hempty =>
      obtain ⟨-, rfl⟩ := returns_ret.1 h
      exact .inl ⟨List.isEmpty_iff.1 hempty, rfl⟩
  simp only [returns_bind, returns_lockRun] at h
  obtain ⟨_, w, ⟨rfl, rfl, -⟩, h⟩ := h
  split at h
  · exact absurd h returns_throw
  next run hrun =>
  split at h
  · exact absurd h returns_throw
  next hforeign =>
  simp only [returns_bind, returns_assignRun, Prog.pure_eq, returns_ret] at h
  obtain ⟨n, v₀, hn, _, v₁, ⟨rfl, -⟩, _, v₂, hassign, _, v₃, hinsert, -, rfl⟩ := h
  obtain ⟨rfl, hstored⟩ := lastSequence_returns hn
  obtain ⟨hrun_le, hthread_le⟩ := Db.Numbered.lastSequence_ge hn
  have htables := insertEvents_tables hinsert
  refine .inr ⟨run, n, ⟨hrun, admitted_target (Bool.not_eq_true _ ▸ hforeign), hstored⟩, hrun_le,
    fun t ht => ?_, ?_, ?_⟩
  · obtain ⟨thread, hthread, hle⟩ := hthread_le t ht
    rw [hthread]
    exact hle
  · rw [htables.1, assignThreadOf_runs hassign]
  · rw [htables.2]
    cases ht : run.threadId with
    | none =>
        rw [ht] at hassign
        rw [(returns_ret.1 hassign).2]
        rfl
    | some t =>
        rw [ht] at hassign
        rw [(returns_assignThread.1 hassign).1]
        rfl

/-! ## Agreement -/

/-- The counter of the run is not ahead of the log of its thread. -/
def Db.Abreast (v : Db) (run : RunRow) : Prop :=
  ∀ t, run.threadId = some t →
    run.eventSeq ≤ max ((v.threads.find? t).elim 0 (·.eventSeq)) (v.maxSequence (inThread t))

theorem lastSequence_eq_iff :
    v.lastSequence run = v.nextSequence run - 1 ↔ v.Abreast run := by
  unfold Db.lastSequence Db.nextSequence Db.Abreast
  cases hcase : run.threadId with
  | none =>
      refine iff_of_true ?_ nofun
      show max (max _ _ + 1 - 1) _ = max _ _ + 1 - 1
      omega
  | some t =>
      show max (max _ _ + 1 - 1) _ = max _ _ + 1 - 1 ↔ _
      constructor
      · rintro heq t' ⟨⟩
        omega
      · intro habreast
        have hle := habreast t rfl
        omega

theorem namespaced_eq (hns : ∀ event ∈ events, (eventNamespace event).isSome) :
    namespaced events =
      some (events.map fun event => (event, (eventNamespace event).getD [])) := by
  unfold namespaced
  induction events with
  | nil => rfl
  | cons event events ih =>
      obtain ⟨ns, hfirst⟩ := Option.isSome_iff_exists.1 (hns event List.mem_cons_self)
      rw [List.mapM_cons, ih fun e he => hns e (List.mem_cons_of_mem event he), List.map_cons,
        hfirst]
      rfl

theorem namespaced_isSome {deltas : List (Dict × List String)}
    (h : namespaced events = some deltas) : ∀ event ∈ events, (eventNamespace event).isSome := by
  unfold namespaced at h
  induction events generalizing deltas with
  | nil => exact nofun
  | cons event events ih =>
      rw [List.mapM_cons] at h
      obtain ⟨first, hfirst, h⟩ := Option.bind_eq_some_iff.1 h
      obtain ⟨rest, hrest, -⟩ := Option.bind_eq_some_iff.1 h
      obtain ⟨ns, hns, -⟩ := Option.map_eq_some_iff.1 hfirst
      intro e he
      rcases List.mem_cons.1 he with rfl | he
      · exact Option.isSome_iff_exists.2 ⟨ns, hns⟩
      · exact ih hrest e he

theorem recordDeltas_returns (hns : ∀ event ∈ events, (eventNamespace event).isSome)
    (hne : events ≠ []) (hv : v.Sound) (h : Admitted v id th run) :
    (recordDeltas T now id th events).Returns unlocked v
      (T.traced (rowsOf now id run.threadId (v.lastSequence run) events) events)
      (v.batched id run.threadId (v.lastSequence run + events.length)
        (rowsOf now id run.threadId (v.lastSequence run) events)) := by
  unfold recordDeltas
  rw [namespaced_eq hns]
  have hdeltas : (events.map fun event => (event, (eventNamespace event).getD [])) ≠ [] :=
    fun hnil => hne (List.map_eq_nil_iff.1 hnil)
  refine returns_bind.2 ⟨_, _, recordMessageDeltas_returns hv h hdeltas, returns_ret.2 ⟨rfl, ?_⟩⟩
  rw [List.length_map]
  rfl

/-- As for single events, nothing is recorded unless the run admits it and all namespaces are
lists. -/
theorem recordDeltas_admitted {rows : List (RuntimeEventRow × Dict)}
    (h : (recordDeltas T now id th events).Returns unlocked v rows v') :
    (events ≠ [] → ∃ run, Admitted v id th run) ∧
      ∀ event ∈ events, (eventNamespace event).isSome := by
  unfold recordDeltas at h
  cases hnamespaced : namespaced events with
  | none =>
      rw [hnamespaced] at h
      simp only [returns_bind, returns_lockRun] at h
      obtain ⟨_, w, ⟨rfl, rfl, -⟩, h⟩ := h
      split at h
      · exact absurd h returns_throw
      split at h
      · exact absurd h returns_throw
      obtain ⟨_, _, -, h⟩ := returns_bind.1 h
      exact absurd h returns_throw
  | some deltas =>
      have hns := namespaced_isSome hnamespaced
      refine ⟨fun hne => ?_, hns⟩
      rw [hnamespaced] at h
      obtain ⟨stored, v₁, hbatch, -⟩ := returns_bind.1 h
      rcases recordMessageDeltas_commits hbatch with ⟨hnil, -⟩ | ⟨run, n, hadmitted, -⟩
      · rw [namespaced_eq hns, hnil] at hnamespaced
        exact absurd (List.map_eq_nil_iff.1 (Option.some.inj hnamespaced)) hne
      · exact ⟨run, hadmitted⟩

/-- On a run that admits the events, both recorders leave the same exactly when the counter of
the run is not ahead. -/
theorem outcomes_eq_iff (hdelta : ∀ event ∈ events, isMessageDelta event = true)
    (hns : ∀ event ∈ events, (eventNamespace event).isSome) (hne : events ≠ []) (hv : v.Sound)
    (h : Admitted v id th run) :
    outcome (recordEach T now id th events) v = outcome (recordDeltas T now id th events) v ↔
      v.Abreast run := by
  rw [outcome_eq_some.2 (recordEach_returns hdelta hns hv h),
    outcome_eq_some.2 (recordDeltas_returns hns hne hv h), ← lastSequence_eq_iff]
  constructor
  · intro heq
    obtain ⟨hrows, -⟩ := Prod.mk.inj (Option.some.inj heq)
    cases events with
    | nil => exact absurd rfl hne
    | cons event events =>
        -- the first rows have the numbers after the two counters
        have hfirst := congrArg (fun rows => rows.head?.map fun r => r.1.sequence) hrows
        have hsequence : v.nextSequence run - 1 + 1 = v.lastSequence run + 1 :=
          Option.some.inj hfirst
        omega
  · intro heq
    have hdeltas : (events.map fun event => (event, (eventNamespace event).getD [])) ≠ [] :=
      fun hnil => hne (List.map_eq_nil_iff.1 hnil)
    have hle : run.eventSeq ≤ v.nextSequence run - 1 + events.length := by
      have hrun : run.eventSeq ≤ v.lastSequence run := le_max_right _ _
      omega
    rw [heq, batched_eq h.stored hle]
    unfold rowsOf
    rw [loggedAll_deltaRows run.threadId _ hdeltas, List.length_map]

theorem outcome_congr {α : Type} {p q : Txn α} (hp : ∀ a v', ¬ p.Returns unlocked v a v')
    (hq : ∀ a v', ¬ q.Returns unlocked v a v') : outcome p v = outcome q v := by
  have hnone {r : Txn α} (hr : ∀ a v', ¬ r.Returns unlocked v a v') : outcome r v = none :=
    Option.eq_none_iff_forall_ne_some.2 fun x hx => hr x.1 x.2 (outcome_eq_some.1 hx)
  rw [hnone hp, hnone hq]

theorem outcomes_agree_iff (hdelta : ∀ event ∈ events, isMessageDelta event = true)
    (hv : v.Sound) :
    outcome (recordEach T now id th events) v = outcome (recordDeltas T now id th events) v ↔
      events = [] ∨ (∃ event ∈ events, eventNamespace event = none) ∨
        ∀ run, Admitted v id th run → v.Abreast run := by
  by_cases hne : events = []
  · subst hne
    exact iff_of_true rfl (.inl rfl)
  by_cases hns : ∀ event ∈ events, (eventNamespace event).isSome
  · have hsome : ¬ ∃ event ∈ events, eventNamespace event = none := by
      rintro ⟨event, he, hnone⟩
      have hstring := hns event he
      rw [hnone] at hstring
      exact nomatch hstring
    rw [or_iff_right hne, or_iff_right hsome]
    by_cases hadmitted : ∃ run, Admitted v id th run
    · obtain ⟨run, h⟩ := hadmitted
      rw [outcomes_eq_iff hdelta hns hne hv h]
      refine ⟨fun habreast r hr => ?_, fun hall => hall run h⟩
      obtain rfl := Option.some.inj (h.stored.symm.trans hr.stored)
      exact habreast
    · refine iff_of_true ?_ fun run h => absurd ⟨run, h⟩ hadmitted
      refine outcome_congr (fun a v' h => hadmitted ((recordEach_admitted hdelta h).1 hne))
        fun a v' h => hadmitted ((recordDeltas_admitted h).1 hne)
  · have hnone : ∃ event ∈ events, eventNamespace event = none := by
      by_contra hall
      refine hns fun event he => Option.isSome_iff_ne_none.2 fun hn => hall ⟨event, he, hn⟩
    refine iff_of_true ?_ (.inr (.inl hnone))
    exact outcome_congr (fun a v' h => hns (recordEach_admitted hdelta h).2)
      fun a v' h => hns (recordDeltas_admitted h).2

/-! ## Runs without a deletion -/

/-- No run is ahead of its thread. -/
def Db.CaughtUp (v : Db) : Prop :=
  ∀ x r, v.runs.find? x = some r → ∀ t, r.threadId = some t →
    r.eventSeq ≤ (v.threads.find? t).elim 0 (·.eventSeq)

namespace Db.CaughtUp

theorem abreast (h : v.CaughtUp) (hrun : v.runs.find? id = some run) : v.Abreast run :=
  fun t ht => (h id run hrun t ht).trans (le_max_left _ _)

/-- The counters of the threads grow, and the runs follow them. -/
theorem mono (h : v.CaughtUp)
    (hthreads : ∀ t, (v.threads.find? t).elim 0 (·.eventSeq) ≤
      (v'.threads.find? t).elim 0 (·.eventSeq))
    (hruns : ∀ x r', v'.runs.find? x = some r' → ∀ t, r'.threadId = some t →
      (∃ r, v.runs.find? x = some r ∧ r.threadId = some t ∧ r'.eventSeq ≤ r.eventSeq) ∨
        r'.eventSeq ≤ (v'.threads.find? t).elim 0 (·.eventSeq)) : v'.CaughtUp := by
  intro x r' hr' t ht
  rcases hruns x r' hr' t ht with ⟨r, hr, hthread, hle⟩ | hle
  · exact hle.trans ((h x r hr t hthread).trans (hthreads t))
  · exact hle

theorem assigned {t : ThreadId} {n : Nat} (ht : (v.threads.find? t).isSome) :
    ((v.assignThread t (.numbered n)).threads.find? t).elim 0 (·.eventSeq) = n := by
  obtain ⟨thread, hthread⟩ := Option.isSome_iff_exists.1 ht
  rw [Db.find?_assignThread, if_pos rfl, hthread]
  rfl

theorem assigned_ge {t : Option ThreadId} {n : Nat}
    (hle : ∀ x, t = some x → (v.threads.find? x).elim 0 (·.eventSeq) ≤ n) (x : ThreadId) :
    (v.threads.find? x).elim 0 (·.eventSeq) ≤
      ((v.assignThreadOf t (.numbered n)).threads.find? x).elim 0 (·.eventSeq) := by
  cases t with
  | none => exact le_rfl
  | some t =>
      show _ ≤ ((v.assignThread t (.numbered n)).threads.find? x).elim 0 (·.eventSeq)
      rw [Db.find?_assignThread]
      split
      · next heq =>
          have hle := hle x (heq ▸ rfl)
          cases hthread : v.threads.find? x with
          | none => exact le_rfl
          | some thread =>
              rw [hthread] at hle
              exact hle
      · exact le_rfl

/-- The run and its thread are given the same number, which is not below their own. -/
theorem counters (h : v.CaughtUp) (hadmitted : Admitted v id th run) {n : Nat}
    {f : RunRow → RunRow} (hf : (run.assign f).eventSeq ≤ n)
    (hthread : (run.assign f).threadId = run.threadId)
    (hle : ∀ t, run.threadId = some t → (v.threads.find? t).elim 0 (·.eventSeq) ≤ n)
    (hruns : v'.runs = (v.assignRun id f).runs)
    (hthreads : v'.threads = (v.assignThreadOf run.threadId (.numbered n)).threads) :
    v'.CaughtUp := by
  refine h.mono (fun t => ?_) fun x r' hr' t ht => ?_
  · rw [hthreads]
    exact assigned_ge hle t
  · rw [hruns, Db.find?_assignRun] at hr'
    split at hr'
    · next heq =>
        rw [heq, hadmitted.stored] at hr'
        obtain rfl := Option.some.inj hr'
        have hown : run.threadId = some t := hthread.symm.trans ht
        refine .inr (hf.trans (le_of_eq ?_))
        rw [hthreads, hown]
        exact (assigned (hadmitted.thread t hown)).symm
    · exact .inl ⟨r', hr', ht, le_rfl⟩

theorem write {K : Kind → Prop} (hsubmit : ¬K .submit) (hdrop : ¬K .dropThread)
    (hw : v.Write (Silent K) v') (h : v.CaughtUp) : v'.CaughtUp := by
  have hlog : ¬Silent K .log := fun hk => hk.2 rfl
  cases hw with
  | read => exact h
  | run id f hf keeps =>
      refine h.mono (fun _ => le_rfl) fun x r' hr' t ht => .inl ?_
      rw [Db.updateRun, Table.find?_modify hf] at hr'
      split at hr'
      · obtain ⟨r, hr, rfl⟩ := Option.map_eq_some_iff.1 hr'
        exact ⟨r, hr, (keeps r).threadId.symm.trans ht, ((keeps r).seq.resolve_right hlog).le⟩
      · exact ⟨r', hr', ht, le_rfl⟩
  | thread t f hf keeps =>
      refine h.mono (fun x => ?_) fun x r' hr' t ht => .inl ⟨r', hr', ht, le_rfl⟩
      rw [Db.updateThread, Table.find?_modify hf]
      split
      · cases v.threads.find? x with
        | none => exact le_rfl
        | some thread => exact ((keeps thread).seq.resolve_right hlog).ge
      · exact le_rfl
  | submit _ kind => exact absurd kind.1 hsubmit
  | openThread new _ fresh =>
      refine h.mono (fun x => ?_) fun x r' hr' t ht => .inl ⟨r', hr', ht, le_rfl⟩
      have habsent : v.threads.find? (Keyed.key new) = none := fresh
      rw [Table.find?_insert habsent]
      split
      · next heq =>
          rw [heq, habsent]
          exact Nat.zero_le _
      · exact le_rfl
  | log e kind => exact absurd kind hlog
  | dropRun id =>
      refine h.mono (fun _ => le_rfl) fun x r' hr' t ht => .inl ⟨r', ?_, ht, le_rfl⟩
      rw [Db.deleteRun, Table.find?_erase] at hr'
      split at hr'
      · cases hr'
      · exact hr'
  | dropThread t kind => exact absurd kind.1 hdrop
  | tables v' keeps runs threads =>
      intro x r' hr' t ht
      rw [runs] at hr'
      rw [threads]
      exact h x r' hr' t ht

theorem thread_lt {t : ThreadId} (ht : run.threadId = some t) :
    (v.threads.find? t).elim 0 (·.eventSeq) < v.nextSequence run := by
  unfold Db.nextSequence
  rw [ht]
  exact Nat.lt_succ_of_le (le_max_left _ _)

theorem recordRunEvent {avail : Lock → Bool} {topic : String} {payload : Dict} {ns : List String}
    {terminal : Bool} {e : RuntimeEventRow} (hv : v.CaughtUp)
    (h : (recordRunEvent now id th topic payload ns terminal).Returns avail v e v') :
    v'.CaughtUp := by
  obtain ⟨run, hrun, ⟨-, -, rfl⟩ | ⟨-, rfl, rfl, -, hstored⟩⟩ := recordRunEvent_returns h
  · exact hv
  · have hadmitted : Admitted v id none run := ⟨hrun, .inl rfl, hstored⟩
    cases hcase : run.threadId with
    | none =>
        -- the counter of a run without a thread follows nothing
        refine hv.mono (fun _ => le_of_eq ?_) fun x r' hr' t ht => ?_
        · show _ = ((v.assignThreadOf none _).threads.find? _).elim 0 _
          rfl
        · change (v.assignRun id _).runs.find? x = some r' at hr'
          rw [Db.find?_assignRun] at hr'
          split at hr'
          · next heq =>
              rw [heq, hrun] at hr'
              obtain rfl := Option.some.inj hr'
              exact nomatch hcase.symm.trans ht
          · exact .inl ⟨r', hr', ht, le_rfl⟩
    | some t =>
        have hlt := thread_lt (v := v) hcase
        have hle := hv id run hrun t hcase
        have hmax : max run.eventSeq (v.nextSequence run) ≤ v.nextSequence run := by omega
        refine hv.counters (n := v.nextSequence run) (f := .numbered (v.nextSequence run)) hadmitted
          hmax rfl (fun x hx => ?_) ?_ ?_
        · obtain rfl := Option.some.inj (hcase.symm.trans hx)
          exact hlt.le
        · rfl
        · rw [hcase]
          rfl

theorem recordThreadEvent {avail : Lock → Bool} {t : ThreadId} {topic : String} {payload : Dict}
    {ns : List String} {terminal : Bool} {e : RuntimeEventRow} (hv : v.CaughtUp)
    (h : (recordThreadEvent now t topic payload ns terminal).Returns avail v e v') :
    v'.CaughtUp := by
  simp only [GraphHarbor.recordThreadEvent, returns_bind, returns_insertEvent, Prog.pure_eq,
    returns_ret] at h
  obtain ⟨n, v₁, hn, _, _, ⟨rfl, -⟩, -, rfl⟩ := h
  obtain ⟨⟨thread, hthread, hseq⟩, rfl⟩ := nextThreadSequence_returns hn
  refine hv.mono (assigned_ge (t := some t) fun x hx => ?_) fun x r' hr' y hy =>
    .inl ⟨r', hr', hy, le_rfl⟩
  obtain rfl := Option.some.inj hx
  rw [hthread]
  show thread.eventSeq ≤ n
  omega

theorem recordMessageDeltas {avail : Lock → Bool} {deltas : List (Dict × List String)}
    {es : List RuntimeEventRow} (hv : v.CaughtUp)
    (h : (recordMessageDeltas now id th deltas).Returns avail v es v') : v'.CaughtUp := by
  rcases recordMessageDeltas_commits h with ⟨-, rfl⟩ | ⟨run, n, hadmitted, -, hle, hruns, hthreads⟩
  · exact hv
  · refine hv.counters hadmitted le_rfl rfl (fun t ht => ?_) hruns hthreads
    exact (hle t ht).trans (Nat.le_add_right _ _)

theorem recorders {K : Kind → Prop} (hsubmit : ¬K .submit) (hdrop : ¬K .dropThread) :
    Db.Recorders K Db.CaughtUp where
  write hw h := h.write hsubmit hdrop hw
  run h hv := hv.recordRunEvent h
  thread h hv := hv.recordThreadEvent h
  deltas h hv := hv.recordMessageDeltas h

theorem submit {repo : RunRepository} {q : Submission} {position : Nat} (hv : v.CaughtUp)
    (h : Submit (q.row repo now position) v v') : v'.CaughtUp := by
  refine hv.mono (fun t => ?_) fun x r' hr' t ht => ?_
  · rw [h.result]
    exact le_rfl
  · rw [h.find?] at hr'
    split at hr'
    · obtain rfl := Option.some.inj hr'
      exact .inr (Nat.zero_le _)
    · exact .inl ⟨r', hr', ht, le_rfl⟩

end Db.CaughtUp

theorem Request.caughtUp {avail : Lock → Bool} {q : Request} {a : Reply} (hq : q.KeepsThreads)
    (hv : v.CaughtUp) (h : (q.program now).Returns avail v a v') : v'.CaughtUp := by
  have hlogs (hsubmit : Kind.submit ∉ q.kinds) (hdrop : Kind.dropThread ∉ q.kinds) :
      v'.CaughtUp := (q.logs now).preserves (Db.CaughtUp.recorders hsubmit hdrop) h hv
  cases q with
  | threadsDelete => exact hq.elim
  | runsCreate =>
      obtain ⟨r, hr, -⟩ := replying_returns.1 h
      rcases runsCreate_returns hr with rfl | ⟨position, hsubmit⟩
      · exact hv
      · exact hv.submit hsubmit
  | finish =>
      refine hlogs ?_ ?_ <;> simp only [kinds] <;> split <;> simp
  | runsCancel _ action => cases action <;> exact hlogs (by simp [kinds]) (by simp [kinds])
  | runsQueue _ operation => cases operation <;> exact hlogs (by simp [kinds]) (by simp [kinds])
  | _ => exact hlogs (by simp [kinds]) (by simp [kinds])

theorem caughtUp_inductive :
    (service Request.KeepsThreads).Inductive fun w => w.db.CaughtUp where
  init w hfresh := by
    change w.db.Fresh at hfresh
    intro x r hr
    rw [hfresh.runs, Table.find?_empty] at hr
    exact nomatch hr
  step w l w' hw h := by
    cases l with
    | tick d =>
        obtain rfl := h
        exact hw
    | call q r =>
        obtain ⟨hq, avail, db, hrun, rfl⟩ := h
        rcases Request.run_cases hrun with ⟨a, -, hret⟩ | ⟨-, rfl⟩
        · exact Request.caughtUp hq hw hret
        · exact hw

/-- Both recorders leave the same rows and counters, or raise, unless the counter of the run is
ahead of the log of its thread; it never is as long as no thread is deleted. -/
theorem deltas_recorded_alike_iff (T : Tracing) (now : Time) (id : RunId) (th : Option ThreadId)
    (events : List Dict) (hdelta : ∀ event ∈ events, isMessageDelta event = true) :
    (∀ w, (service fun _ => True).Reachable w →
      (outcome (recordEach T now id th events) w.db =
          outcome (recordDeltas T now id th events) w.db ↔
        events = [] ∨ (∃ event ∈ events, eventNamespace event = none) ∨
          ∀ run, Admitted w.db id th run → w.db.Abreast run)) ∧
    ∀ w, (service Request.KeepsThreads).Reachable w →
      outcome (recordEach T now id th events) w.db =
        outcome (recordDeltas T now id th events) w.db := by
  constructor
  · intro w hw
    exact outcomes_agree_iff hdelta (sound_inductive.invariant w hw)
  · intro w hw
    refine (outcomes_agree_iff hdelta (sound_inductive.invariant w hw)).2 (.inr (.inr ?_))
    exact fun run h => (caughtUp_inductive.invariant w hw).abreast h.stored

/-! ## A thread that is deleted under its run -/

/-- A message delta. -/
def messageDelta : Dict :=
  [("event", .str "messages"),
    ("data", .arr [.obj [("event", .str "content-block-delta")], .obj []])]

/-- The run `1` is claimed on the thread `1` and records one event; the requests `qs` follow. -/
def claimedScript (qs : List Input) : List Input :=
  [.call (.runsCreate .default (submission 1 1)), .tick 1,
    .call (.claim .default "a" true), .call (.publish 1 (some 1) [⟨"custom", [], []⟩])] ++ qs

/-- Both recorders leave something, and no run is ahead of its thread. -/
def bothRecord (T : Tracing) (w : World) : Bool :=
  (outcome (recordEach T w.clock 1 (some 1) [messageDelta, messageDelta]) w.db).isSome &&
  w.db.runs.rows.all fun r => r.threadId.all fun t =>
    r.eventSeq ≤ (w.db.threads.find? t).elim 0 (·.eventSeq)

/-- Nothing is hashed, and the context is empty. -/
def plainTracing : Tracing := ⟨fun _ => "", []⟩

/-- Two deltas of a claimed run are recorded alike. -/
theorem deltas_recorded_alike_two : ∃ w, (service fun _ => True).Reachable w ∧
    (outcome (recordEach plainTracing w.clock 1 (some 1) [messageDelta, messageDelta])
      w.db).isSome = true ∧
    outcome (recordEach plainTracing w.clock 1 (some 1) [messageDelta, messageDelta]) w.db =
      outcome (recordDeltas plainTracing w.clock 1 (some 1) [messageDelta, messageDelta]) w.db := by
  obtain ⟨w, hreach, hboth⟩ : ∃ w, (service fun _ => True).Reachable w ∧
      bothRecord plainTracing w = true :=
    World.play_reachable (Db.fresh_fresh _ _)
      (show ((World.mk twoThreads 0).play (claimedScript [])).any _ = true by decide +kernel)
  obtain ⟨hsome, hcaught⟩ := (Bool.and_eq_true _ _).mp hboth
  have halike := deltas_recorded_alike_iff plainTracing w.clock 1 (some 1)
    [messageDelta, messageDelta] (by decide)
  refine ⟨w, hreach, hsome, (halike.1 w hreach).2 (.inr (.inr fun run hrun t ht => ?_))⟩
  have hle := List.all_eq_true.1 hcaught run (Table.mem_of_find? hrun.stored)
  rw [ht] at hle
  exact (of_decide_eq_true hle).trans (le_max_left _ _)

/-- The numbers of the rows that a recorder leaves. -/
def recordedNumbers (p : Txn (List (RuntimeEventRow × Dict))) (w : World) : Option (List Nat) :=
  (outcome p w.db).map fun r => r.1.map fun row => row.1.sequence

/-- The recorders number the two deltas from different counters. -/
def renumbers (w : World) : Bool :=
  recordedNumbers (recordEach plainTracing 0 1 (some 1) [messageDelta, messageDelta]) w =
      some [1, 2] &&
    recordedNumbers (recordDeltas plainTracing 0 1 (some 1) [messageDelta, messageDelta]) w =
      some [2, 3]

/-- A batch continues behind the counter of the run although its thread was deleted and opened
again. -/
theorem deltas_renumbered : ¬ ∀ w, (service fun _ => True).Reachable w →
    ∀ (T : Tracing) (now : Time) (id : RunId) (th : Option ThreadId) (events : List Dict),
      (∀ event ∈ events, isMessageDelta event = true) →
        outcome (recordEach T now id th events) w.db =
          outcome (recordDeltas T now id th events) w.db := by
  intro hall
  obtain ⟨w, hreach, hnumbers⟩ : ∃ w, (service fun _ => True).Reachable w ∧ renumbers w = true :=
    World.play_reachable (Db.fresh_fresh _ _)
      (show ((World.mk twoThreads 0).play
        (claimedScript [.call (.threadsDelete 1), .call (.threadsCreate 1 none)])).any _ = true by
        decide +kernel)
  obtain ⟨heach, hbatch⟩ := (Bool.and_eq_true _ _).mp hnumbers
  have halike := hall w hreach plainTracing 0 1 (some 1) [messageDelta, messageDelta] (by decide)
  have hsame : some [1, 2] = some [2, 3] := by
    rw [← of_decide_eq_true heach, ← of_decide_eq_true hbatch]
    unfold recordedNumbers
    rw [halike]
  exact nomatch hsame

end GraphHarbor
