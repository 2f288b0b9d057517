import GraphHarbor.LogReader
import GraphHarbor.Reaper

/-!
# The thread stream

`thread_stream` of `streaming.py`: a reader of the log of one thread. It remembers the
number of the last row it looked at; messages of the fan-out only wake it up.
-/

namespace GraphHarbor

open Kit Txn

/-! ## The reader -/

/-- `Last-Event-ID`: none, `-`, or the number of a stream id. -/
inductive LastEventId
  | absent | start
  | after (n : Nat)
  deriving DecidableEq, Repr

/-- `_thread_cursor`; without a header the cursor is queried later. -/
def LastEventId.cursor : LastEventId → Nat
  | .after n => n
  | .start | .absent => 0

/-- `not in (None, "-")`. -/
def LastEventId.sent : LastEventId → Bool
  | .after _ => true
  | .start | .absent => false

/-- The request of a thread stream. -/
structure ThreadRequest where
  thread : ThreadId
  modes : List StreamMode
  lastEventId : LastEventId

/-- The next step of the stream. `resumable` is the filter of a replay, and nothing after
the first reload. -/
inductive ReaderPhase
  /-- `add_thread_stream`. -/
  | opening
  /-- The query of the cursor without a header. -/
  | positioning
  /-- `_thread_events`. -/
  | reloading
  /-- `_resumable_run_ids`. -/
  | loaded (rows : List RuntimeEventRow)
  /-- The query of the attempts. -/
  | filtered (rows : List RuntimeEventRow) (resumable : Option (List RunId))
  | emitting (rows : List RuntimeEventRow) (resumable : Option (List RunId))
      (attempts : List (RunId × Nat))
  /-- `queue.get()`, which returns or times out. -/
  | waiting
  /-- The stream ended with `cursor_expired`. -/
  | expired
  | closed
  deriving DecidableEq, Repr

/-- A thread stream. `sent` are its frames, each with the event it renders; `since` counts
the events committed before the subscription. -/
structure ThreadReader where
  phase : ReaderPhase := .opening
  cursor : Nat := 0
  initialReplay : Bool := true
  since : Nat := 0
  sent : List (RuntimeEventRow × Frame) := []

/-- `_thread_event_sequence`. -/
def threadEventSequence (t : ThreadId) (db : Db) : Nat := db.maxSequence (inThread t)

/-- `attempts`: the runs that a row reports as running. -/
def startedAttempts (rows : List RuntimeEventRow) (db : Db) : List (RunId × Nat) :=
  let started := rows.filter fun row => eventName row.payload = .str "lifecycle" &&
    row.payload.get? "status" = some (.str RunStatus.running.value)
  ((started.filterMap (·.runId)).filterMap db.runs.find?).map fun r =>
    (r.runId, max r.retryCount 1)

/-- The attempt in a frame: from `attempts`, or from the run itself. -/
def attemptOf (attempts : List (RunId × Nat)) (db : Db) (id : RunId) : Nat :=
  match attempts.find? (·.1 = id) with
  | some p => p.2
  | none =>
      match db.runs.find? id with
      | some r => max r.retryCount 1
      | none => 1

/-- The row is not skipped by a replay. -/
def passes (resumable : Option (List RunId)) (row : RuntimeEventRow) : Bool :=
  match resumable, row.runId with
  | some ids, some id => id ∈ ids
  | _, _ => true

/-- The frame of a row, if it gets one. -/
def ThreadRequest.frames (q : ThreadRequest) (resumable : Option (List RunId))
    (attempt : RunId → Nat) (row : RuntimeEventRow) : List (RuntimeEventRow × Frame) :=
  if passes resumable row then
    ((threadFrame row q.modes attempt).map fun frame => (row, frame)).toList
  else []

/-- The next step of the stream, on what is committed now. -/
def ThreadReader.advance (q : ThreadRequest) (avail : Lock → Bool) (v : Db) (s : ThreadReader) :
    Option ThreadReader :=
  match s.phase with
  | .opening => some { s with
      cursor := q.lastEventId.cursor
      since := v.recorded.length
      phase := if q.lastEventId = .absent then .positioning else .reloading }
  | .positioning => some { s with
      cursor := threadEventSequence q.thread v
      phase := .reloading }
  | .reloading =>
      match engine.run avail (replayThread q.thread q.lastEventId.sent s.cursor) v with
      | some (.ok (.events rows), _) => some { s with phase := .loaded rows }
      | some (.ok .cursorExpired, _) => some { s with phase := .expired }
      | _ => none
  | .loaded rows =>
      if s.initialReplay then
        match resumableRunIds rows v with
        | none => some { s with phase := .closed }
        | some ids => some { s with phase := .filtered rows (some ids) }
      else some { s with phase := .filtered rows none }
  | .filtered rows resumable => some { s with
      phase := .emitting rows resumable (startedAttempts rows v) }
  | .emitting (row :: rows) resumable attempts => some { s with
      cursor := row.sequence
      sent := s.sent ++ q.frames resumable (attemptOf attempts v) row
      phase := .emitting rows resumable attempts }
  | .emitting [] _ _ => some { s with phase := .waiting, initialReplay := false }
  | .waiting => some { s with phase := .reloading }
  | .expired | .closed => none

/-- The stream advances, or ends: the client leaves, loses its authorisation, or an error is
raised. -/
inductive ReaderStep
  | advance | leave
  deriving DecidableEq, Repr

def ThreadReader.look (q : ThreadRequest) (v : Db) (s : ThreadReader) (l : ReaderStep)
    (s' : ThreadReader) : Prop :=
  match l with
  | .advance => ∃ avail, s.advance q avail v = some s'
  | .leave => s' = { s with phase := .closed }

/-- A thread stream beside the service. -/
def ThreadRequest.system (q : ThreadRequest) :
    TSys (Db × ThreadReader) (Timed × Except Err Reply ⊕ ReaderStep) :=
  keeping.observe (fun s => s = {}) (ThreadReader.look q)

/-! ## What a stream owes its client -/

/-- The event is of the thread, is rendered, and was committed after the subscription or
follows the cursor that was sent. -/
def ThreadRequest.Wants (q : ThreadRequest) (v : Db) (since : Nat) (e : RuntimeEventRow) : Prop :=
  e.threadId = some q.thread ∧ e.renders q.modes = true ∧
    (v.Since since e ∨
      q.lastEventId ≠ .absent ∧ q.lastEventId.cursor < e.sequence ∧ v.replayable e = true)

instance (q : ThreadRequest) (v : Db) (since : Nat) (e : RuntimeEventRow) :
    Decidable (q.Wants v since e) := inferInstanceAs (Decidable (_ ∧ _ ∧ (_ ∨ _ ∧ _ ∧ _)))

/-- The frames come in the order of their numbers, and none is missing before a frame that
was sent. -/
structure ThreadReader.Complete (q : ThreadRequest) (v : Db) (s : ThreadReader) : Prop where
  increasing : (s.sent.map (·.2.eventId)).Pairwise (· < ·)
  once : ∀ p ∈ s.sent, ∀ e ∈ v.recorded, q.Wants v s.since e → e.sequence ≤ p.2.eventId →
    (s.sent.map (·.1)).count e = 1

/-! ## When it pays -/

/-- No rendered event was committed since the subscription at or below the cursor that was
sent. -/
def ThreadReader.Ahead (q : ThreadRequest) (v : Db) (s : ThreadReader) : Prop :=
  ∀ e ∈ v.recorded.drop s.since, e.threadId = some q.thread → e.renders q.modes = true →
    q.lastEventId.cursor < e.sequence

/-- The rendered events above the cursor that were committed since the subscription belong to
resumable runs, or to none. -/
def ThreadReader.Resumable (q : ThreadRequest) (v : Db) (s : ThreadReader) : Prop :=
  ∀ e ∈ v.recorded.drop s.since, e.threadId = some q.thread → e.renders q.modes = true →
    s.cursor < e.sequence → v.replayable e = true

/-- No wanted event above the cursor was pruned. -/
def ThreadReader.Unpruned (q : ThreadRequest) (v : Db) (s : ThreadReader) : Prop :=
  ∀ e ∈ v.recorded, q.Wants v s.since e → s.cursor < e.sequence → e ∈ v.events

/-- What must hold at a reload: of the cursor that was sent, of the first reload, and where
no watermark is checked. -/
structure ThreadReader.ReloadSafe (q : ThreadRequest) (v : Db) (s : ThreadReader) : Prop where
  ahead : q.lastEventId.sent = true → s.Ahead q v
  resumable : s.initialReplay = true → s.Resumable q v
  stored : q.lastEventId.sent = false → s.Unpruned q v

/-- The condition of a step: at the query of the cursor no rendered event was committed
since the subscription, and reloads are safe. -/
def ThreadReader.Safe (q : ThreadRequest) (v : Db) (s : ThreadReader) : ReaderStep → Prop
  | .leave => True
  | .advance =>
      match s.phase with
      | .positioning => ∀ e ∈ v.recorded.drop s.since, e.threadId = some q.thread →
          e.renders q.modes = false
      | .reloading => s.ReloadSafe q v
      | _ => True

/-! ## The invariant -/

def ReaderPhase.rows : ReaderPhase → List RuntimeEventRow
  | .loaded rows | .filtered rows _ | .emitting rows _ _ => rows
  | _ => []

/-- The filter of the phase. -/
def ReaderPhase.resumable : ReaderPhase → Option (List RunId)
  | .filtered _ resumable | .emitting _ resumable _ => resumable
  | _ => none

/-- The cursor of the stream is set, and the stream has not ended. -/
def ReaderPhase.started : ReaderPhase → Bool
  | .opening | .positioning | .expired | .closed => false
  | _ => true

variable {q : ThreadRequest} {v v' : Db} {s s' : ThreadReader} {e : RuntimeEventRow}
  {avail : Lock → Bool}

/-- Committed after the subscription at or below the cursor that was sent. -/
def ThreadRequest.Late (q : ThreadRequest) (v : Db) (since : Nat) (e : RuntimeEventRow) : Prop :=
  q.lastEventId.sent = true ∧ v.Since since e ∧ e.sequence ≤ q.lastEventId.cursor

structure ThreadReader.Sound (q : ThreadRequest) (v : Db) (s : ThreadReader) : Prop where
  since : s.since ≤ v.recorded.length
  unset : s.phase = .opening ∨ s.phase = .positioning → s.sent = []
  absent : s.phase = .positioning → q.lastEventId = .absent
  /-- The frames. -/
  frames : ∀ p ∈ s.sent, p.2.eventId = p.1.sequence ∧ p.1 ∈ v.recorded ∧
    p.1.threadId = some q.thread ∧ q.lastEventId.cursor < p.1.sequence ∧ p.1.sequence ≤ s.cursor
  increasing : (s.sent.map (·.1.sequence)).Pairwise (· < ·)
  once : ∀ p ∈ s.sent, ∀ e ∈ v.recorded, q.Wants v s.since e → e.sequence ≤ p.1.sequence →
    e ∈ s.sent.map (·.1)
  /-- The cursor, at or below which nothing is missing. -/
  cursor : s.phase.started = true → q.lastEventId.cursor ≤ s.cursor
  anchored : s.phase.started = true → s.cursor = q.lastEventId.cursor ∨
    ∃ e ∈ v.recorded, e.threadId = some q.thread ∧ s.cursor ≤ e.sequence
  seen : s.phase.started = true → ∀ e ∈ v.recorded, q.Wants v s.since e → e.sequence ≤ s.cursor →
    e ∈ s.sent.map (·.1) ∨ q.Late v s.since e
  late : s.phase.rows ≠ [] → ∀ e ∈ v.recorded, q.Wants v s.since e → ¬q.Late v s.since e
  /-- The rows still to be looked at. -/
  rows : ∀ e ∈ s.phase.rows, e ∈ v.recorded ∧ e.threadId = some q.thread ∧ s.cursor < e.sequence
  sorted : s.phase.rows.Pairwise fun a b => a.sequence < b.sequence
  gapless : ∀ r ∈ s.phase.rows, ∀ e ∈ v.recorded, q.Wants v s.since e → s.cursor < e.sequence →
    e.sequence ≤ r.sequence → e ∈ s.phase.rows
  replay : s.initialReplay = true → ∀ e ∈ s.phase.rows, q.Wants v s.since e →
    v.replayable e = true
  filter : ∀ ids, s.phase.resumable = some ids → s.initialReplay = true ∧
    ∀ e ∈ s.phase.rows, v.replayable e = true → passes (some ids) e = true

theorem ReaderPhase.started_of_rows {p : ReaderPhase} (h : p.rows ≠ []) : p.started = true := by
  cases p <;> first | rfl | exact absurd rfl h

/-! ### Commits -/

/-- Old events are wanted as before. -/
theorem ThreadRequest.wants_of_extends (hv : v.Kept) (hv' : v'.Kept) (h : v.Extends v') {n : Nat}
    (hn : n ≤ v.recorded.length) (he : e ∈ v.recorded) (hwants : q.Wants v' n e) :
    q.Wants v n e := by
  obtain ⟨ht, hrenders, hwants⟩ := hwants
  refine ⟨ht, hrenders, hwants.imp (fun hsince => ?_) fun ⟨hsent, hlt, hreplay⟩ => ?_⟩
  · exact (hv'.since_of_extends h hn hsince).resolve_right fun hnew => hnew he
  · exact ⟨hsent, hlt, hv.replayable_eq h he ▸ hreplay⟩

/-- What others commit does not disturb the stream. -/
theorem ThreadReader.Sound.extends (hs : s.Sound q v) (hv : v.Kept) (hv' : v'.Kept)
    (h : v.Extends v') : s.Sound q v' := by
  have hsub : v.recorded ⊆ v'.recorded := h.recorded.subset
  have hwants {e : RuntimeEventRow} (he : e ∈ v.recorded) (hw : q.Wants v' s.since e) :
      q.Wants v s.since e := ThreadRequest.wants_of_extends hv hv' h hs.since he hw
  have hnew {e e₀ : RuntimeEventRow} (he : e ∈ v'.recorded) (hold : e ∉ v.recorded)
      (hw : q.Wants v' s.since e) (he₀ : e₀ ∈ v.recorded) (ht : e₀.threadId = some q.thread) :
      e₀.sequence < e.sequence := hv'.above h he₀ he hold ht hw.1
  refine ⟨hs.since.trans h.recorded.length_le, hs.unset, hs.absent, fun p hp => ?_, hs.increasing,
    fun p hp e he hw hle => ?_, hs.cursor, fun hstarted => ?_, fun hstarted e he hw hle => ?_,
    fun hrows e he hw hlate => ?_, fun e he => ?_, hs.sorted, fun r hr e he hw hlt hle => ?_,
    fun hinitial e he hw => ?_, fun ids hids => ?_⟩
  · obtain ⟨hid, hmem, hrest⟩ := hs.frames p hp
    exact ⟨hid, hsub hmem, hrest⟩
  · obtain ⟨-, hmem, ht, -⟩ := hs.frames p hp
    by_cases hold : e ∈ v.recorded
    · exact hs.once p hp e hold (hwants hold hw) hle
    · have := hnew he hold hw hmem ht
      omega
  · exact (hs.anchored hstarted).imp_right fun ⟨e, he, hrest⟩ => ⟨e, hsub he, hrest⟩
  · by_cases hold : e ∈ v.recorded
    · refine (hs.seen hstarted e hold (hwants hold hw) hle).imp_right fun ⟨hsent, hsince, hle⟩ => ?_
      exact ⟨hsent, hsince.of_extends h hs.since, hle⟩
    · rcases hs.anchored hstarted with hcursor | ⟨e₀, he₀, ht₀, hle₀⟩
      · -- a number at or below a cursor that was sent before it was given
        refine .inr ⟨?_, Db.since_of_new h hs.since he hold, hcursor ▸ hle⟩
        have hpos := hv'.numbered.positive e he
        rw [hcursor] at hle
        cases hid : q.lastEventId with
        | after n => rfl
        | start | absent =>
            simp only [hid, LastEventId.cursor] at hle
            omega
      · have := hnew he hold hw he₀ ht₀
        omega
  · obtain ⟨hsent, hsince, hle⟩ := hlate
    by_cases hold : e ∈ v.recorded
    · refine hs.late hrows e hold (hwants hold hw) ⟨hsent, ?_, hle⟩
      exact (hv'.since_of_extends h hs.since hsince).resolve_right fun hnew => hnew hold
    · obtain ⟨r, hr⟩ := List.exists_mem_of_ne_nil _ hrows
      obtain ⟨hmem, ht, hlt⟩ := hs.rows r hr
      have hcursor := hs.cursor (ReaderPhase.started_of_rows hrows)
      have := hnew he hold hw hmem ht
      omega
  · obtain ⟨hmem, hrest⟩ := hs.rows e he
    exact ⟨hsub hmem, hrest⟩
  · obtain ⟨hmem, ht, -⟩ := hs.rows r hr
    by_cases hold : e ∈ v.recorded
    · exact hs.gapless r hr e hold (hwants hold hw) hlt hle
    · have := hnew he hold hw hmem ht
      omega
  · obtain ⟨hmem, -⟩ := hs.rows e he
    rw [hv.replayable_eq h hmem]
    exact hs.replay hinitial e he (hwants hmem hw)
  · obtain ⟨hinitial, hpasses⟩ := hs.filter ids hids
    refine ⟨hinitial, fun e he hreplay => hpasses e he ?_⟩
    rwa [hv.replayable_eq h (hs.rows e he).1] at hreplay

/-! ### Steps of the stream -/

/-- Phases that look at the same rows, or at none. -/
theorem ThreadReader.Sound.move (hs : s.Sound q v) {p : ReaderPhase} {initial : Bool}
    (hset : p ≠ .opening ∧ p ≠ .positioning) (hstarted : p.started = true → s.phase.started = true)
    (hrows : p.rows = s.phase.rows ∨ p.rows = [])
    (hinitial : initial = true → s.initialReplay = true)
    (hfilter : ∀ ids, p.resumable = some ids → initial = true ∧
      ∀ e ∈ p.rows, v.replayable e = true → passes (some ids) e = true) :
    ({ s with phase := p, initialReplay := initial } : ThreadReader).Sound q v := by
  refine ⟨hs.since, fun h => (h.elim hset.1 hset.2).elim, fun h => (hset.2 h).elim, hs.frames,
    hs.increasing, hs.once, fun h => hs.cursor (hstarted h), fun h => hs.anchored (hstarted h),
    fun h => hs.seen (hstarted h), ?_, ?_, ?_, ?_, ?_, hfilter⟩
  all_goals rcases hrows with hrows | hrows <;> simp only [hrows]
  · exact hs.late
  · exact fun h => absurd rfl h
  · exact hs.rows
  · simp
  · exact hs.sorted
  · exact .nil
  · exact hs.gapless
  · simp
  · exact fun h => hs.replay (hinitial h)
  · simp

theorem ThreadReader.Sound.open (hs : s.Sound q v) (hphase : s.phase = .opening) :
    ({ s with
        cursor := q.lastEventId.cursor
        since := v.recorded.length
        phase := if q.lastEventId = .absent then .positioning else .reloading } :
      ThreadReader).Sound q v := by
  have hsent : s.sent = [] := hs.unset (.inl hphase)
  have hrows : (if q.lastEventId = .absent then ReaderPhase.positioning
      else .reloading).rows = [] := by
    split <;> rfl
  have hfilter : (if q.lastEventId = .absent then ReaderPhase.positioning
      else .reloading).resumable =
      none := by
    split <;> rfl
  refine ⟨le_rfl, fun _ => hsent, fun h => ?_, ?_, ?_, ?_, fun _ => le_rfl, fun _ => .inl rfl,
    fun _ e he hw hle => ?_, ?_, ?_, ?_, ?_, ?_, ?_⟩
  · by_contra hne
    simp [hne] at h
  · simp [hsent]
  · simp [hsent]
  · simp [hsent]
  · -- what follows the cursor is not at or below it
    obtain ⟨-, -, hsince | ⟨-, hlt, -⟩⟩ := hw
    · simp [Db.Since] at hsince
    · exact absurd hle (Nat.not_le.2 hlt)
  all_goals simp only [hrows, hfilter]
  · exact fun h => absurd rfl h
  · simp
  · exact .nil
  · simp
  · simp
  · simp

theorem ThreadReader.Sound.position (hs : s.Sound q v) (hv : v.Kept)
    (hphase : s.phase = .positioning) (hsafe : ∀ e ∈ v.recorded.drop s.since,
      e.threadId = some q.thread → e.renders q.modes = false) :
    ({ s with cursor := threadEventSequence q.thread v, phase := .reloading } :
      ThreadReader).Sound q v := by
  have hsent : s.sent = [] := hs.unset (.inr hphase)
  have habsent := hs.absent hphase
  refine ⟨hs.since, fun h => by simp at h, fun h => by simp at h, ?_, ?_, ?_, fun _ => ?_,
    fun _ => ?_, fun _ e he hw hle => ?_, fun h => absurd rfl h, ?_, .nil, ?_, ?_, ?_⟩
  · simp [hsent]
  · simp [hsent]
  · simp [hsent]
  · rw [habsent]
    exact Nat.zero_le _
  · rcases Db.Kept.maxSequence_cases (inThread q.thread) with hzero | ⟨e, he, ht, hseq⟩
    · left
      rw [habsent]
      exact hzero
    · exact .inr ⟨e, hv.numbered.events.subset he, by simpa [inThread] using ht, hseq.ge⟩
  · obtain ⟨ht, hrenders, hsince | ⟨hheader, -⟩⟩ := hw
    · rw [hsafe e hsince ht] at hrenders
      cases hrenders
    · exact absurd habsent hheader
  · simp [ReaderPhase.rows]
  · simp [ReaderPhase.rows]
  · simp [ReaderPhase.rows]
  · simp [ReaderPhase.resumable]

/-- The rows of a reload. -/
theorem replayThread_rows (hv : v.Kept) {t : ThreadId} {sent : Bool} {c : Nat}
    {rows : List RuntimeEventRow}
    (h : (replayThread t sent c).Returns avail v (.events rows) v') :
    rows = eventsAfter (inThread t) c v := by
  simp only [replayThread, threadEvents, returns_bind, returns_lockThread] at h
  obtain ⟨⟨watermark, found⟩, _, ⟨thread, u, ⟨rfl, rfl, -⟩, h₁⟩, h₂⟩ := h
  obtain ⟨hreply, -⟩ := returns_ret.1 h₂
  have hfound : rows = found := by
    unfold Replay.check at hreply
    split at hreply
    · cases hreply
    · exact Replay.events.inj hreply
  rw [hfound]
  cases hthread : u.threads.find? t with
  | none =>
      rw [hthread] at h₁
      obtain ⟨heq, -⟩ := returns_ret.1 h₁
      obtain ⟨-, rfl⟩ := Prod.mk.inj heq
      exact (hv.eventsAfter_of_absent hthread).symm
  | some th =>
      rw [hthread] at h₁
      simp only [returns_bind, returns_query, Prog.pure_eq, returns_ret] at h₁
      obtain ⟨_, _, ⟨rfl, rfl⟩, heq, -⟩ := h₁
      exact (Prod.mk.inj heq).2

theorem ThreadReader.Sound.reload (hs : s.Sound q v) (hv : v.Kept) (hphase : s.phase = .reloading)
    (hsafe : s.ReloadSafe q v) {rows : List RuntimeEventRow}
    (h : (replayThread q.thread q.lastEventId.sent s.cursor).Returns avail v (.events rows) v') :
    ({ s with phase := .loaded rows } : ThreadReader).Sound q v := by
  have hstarted : s.phase.started = true := by rw [hphase]; rfl
  have hrows := replayThread_rows hv h
  have hcursor := hs.cursor hstarted
  -- every wanted event above the cursor is stored, and in the rows
  have hstored (e : RuntimeEventRow) (he : e ∈ v.recorded) (hw : q.Wants v s.since e)
      (hlt : s.cursor < e.sequence) : e ∈ rows := by
    rw [hrows]
    refine mem_eventsAfter.2 ⟨?_, by simp [inThread, hw.1], hlt⟩
    cases hsent : q.lastEventId.sent with
    | false => exact hsafe.stored hsent e he hw hlt
    | true =>
        rw [hsent] at h
        obtain ⟨-, hreplayed⟩ := replayThread_returns hv.retained h
        exact (hreplayed e ⟨he, hw.1, hv.hasRun he⟩ hlt).1
  refine ⟨hs.since, fun h => by simp at h, fun h => by simp at h, hs.frames, hs.increasing,
    hs.once, fun _ => hcursor, fun _ => hs.anchored hstarted, fun _ => hs.seen hstarted,
    fun _ e he hw hlate => ?_, fun e he => ?_, ?_, fun r hr e he hw hlt hle => hstored e he hw hlt,
    fun hinitial e he hw => ?_, fun ids hids => by simp [ReaderPhase.resumable] at hids⟩
  · obtain ⟨hsent, hsince, hle⟩ := hlate
    have := hsafe.ahead hsent e hsince hw.1 hw.2.1
    omega
  · change e ∈ rows at he
    rw [hrows] at he
    obtain ⟨he, ht, hlt⟩ := mem_eventsAfter.1 he
    exact ⟨hv.numbered.events.subset he, by simpa [inThread] using ht, hlt⟩
  · change rows.Pairwise _
    rw [hrows]
    exact hv.sorted_eventsAfter
  · obtain ⟨ht, hrenders, hsince | ⟨-, -, hreplay⟩⟩ := hw
    · change e ∈ rows at he
      rw [hrows] at he
      exact hsafe.resumable hinitial e hsince ht hrenders (mem_eventsAfter.1 he).2.2
    · exact hreplay

/-- A row gets at most one frame. -/
theorem ThreadRequest.mem_frames {resumable : Option (List RunId)} {attempt : RunId → Nat}
    {row : RuntimeEventRow} {p : RuntimeEventRow × Frame}
    (h : p ∈ q.frames resumable attempt row) : p.1 = row ∧ p.2.eventId = row.sequence := by
  unfold ThreadRequest.frames at h
  split at h
  · obtain ⟨frame, hframe, rfl⟩ := by simpa using h
    exact ⟨rfl, threadFrame_eventId hframe⟩
  · cases h

theorem ThreadRequest.frames_cases (resumable : Option (List RunId)) (attempt : RunId → Nat)
    (row : RuntimeEventRow) : q.frames resumable attempt row = [] ∨
      ∃ frame, q.frames resumable attempt row = [(row, frame)] := by
  unfold ThreadRequest.frames
  split
  · cases threadFrame row q.modes attempt with
    | none => exact .inl rfl
    | some frame => exact .inr ⟨frame, rfl⟩
  · exact .inl rfl

/-- A rendered row that passes the filter gets a frame. -/
theorem ThreadRequest.frames_of_renders {resumable : Option (List RunId)} {attempt : RunId → Nat}
    {row : RuntimeEventRow} (hrenders : row.renders q.modes = true)
    (hpasses : passes resumable row = true) : row ∈ (q.frames resumable attempt row).map (·.1) := by
  obtain ⟨frame, hframe⟩ := Option.isSome_iff_exists.1
    ((threadFrame_isSome row q.modes attempt).trans
    hrenders)
  simp [ThreadRequest.frames, hpasses, hframe]

theorem ThreadReader.Sound.emit (hs : s.Sound q v) {row : RuntimeEventRow}
    {rows : List RuntimeEventRow} {resumable : Option (List RunId)} {attempts : List (RunId × Nat)}
    {attempt : RunId → Nat} (hphase : s.phase = .emitting (row :: rows) resumable attempts) :
    ({ s with
        cursor := row.sequence
        sent := s.sent ++ q.frames resumable attempt row
        phase := .emitting rows resumable attempts } : ThreadReader).Sound q v := by
  have hrows : s.phase.rows = row :: rows := by rw [hphase]; rfl
  have hstarted : s.phase.started = true := by rw [hphase]; rfl
  have hmem : row ∈ s.phase.rows := by rw [hrows]; exact List.mem_cons_self
  have htail {e : RuntimeEventRow} (he : e ∈ rows) : e ∈ s.phase.rows := by
    rw [hrows]
    exact List.mem_cons_of_mem _ he
  obtain ⟨hrecorded, ht, hlt⟩ := hs.rows row hmem
  have hsorted : ∀ e ∈ rows, row.sequence < e.sequence := by
    have hsorted := hs.sorted
    rw [hrows] at hsorted
    exact (List.pairwise_cons.1 hsorted).1
  have hcursor := hs.cursor hstarted
  -- the row itself gets its frame when it is wanted
  have hframe (hw : q.Wants v s.since row) :
      row ∈ (q.frames resumable attempt row).map (·.1) := by
    refine ThreadRequest.frames_of_renders hw.2.1 ?_
    cases hresumable : resumable with
    | none => rfl
    | some ids =>
        obtain ⟨hinitial, hpasses⟩ := hs.filter ids (by rw [hphase, ← hresumable]; rfl)
        exact hpasses row hmem (hs.replay hinitial row hmem hw)
  have hseen (e : RuntimeEventRow) (he : e ∈ v.recorded) (hw : q.Wants v s.since e)
      (hle : e.sequence ≤ row.sequence) :
      e ∈ (s.sent ++ q.frames resumable attempt row).map (·.1) := by
    rw [List.map_append, List.mem_append]
    by_cases hold : e.sequence ≤ s.cursor
    · refine .inl ((hs.seen hstarted e he hw hold).resolve_right ?_)
      exact hs.late (by rw [hrows]; simp) e he hw
    · have hgap := hs.gapless row hmem e he hw (by omega) hle
      rw [hrows] at hgap
      rcases List.mem_cons.1 hgap with rfl | hlater
      · exact .inr (hframe hw)
      · have := hsorted e hlater
        omega
  refine ⟨hs.since, fun h => by simp at h, fun h => by simp at h, fun p hp => ?_, ?_,
    fun p hp e he hw hle => hseen e he hw ?_, fun _ => hcursor.trans hlt.le,
    fun _ => .inr ⟨row, hrecorded, ht, le_rfl⟩, fun _ e he hw hle => .inl (hseen e he hw hle),
    fun _ => hs.late (by rw [hrows]; simp), fun e he => ?_, ?_, fun r hr e he hw hlt' hle => ?_,
    fun hinitial e he => hs.replay hinitial e (htail he), fun ids hids => ?_⟩
  · rcases List.mem_append.1 hp with hp | hp
    · obtain ⟨hid, hmem, ht, hlt', hle⟩ := hs.frames p hp
      exact ⟨hid, hmem, ht, hlt', hle.trans hlt.le⟩
    · obtain ⟨rfl, hid⟩ := ThreadRequest.mem_frames hp
      exact ⟨hid, hrecorded, ht, hcursor.trans_lt hlt, le_rfl⟩
  · rw [List.map_append, List.pairwise_append]
    refine ⟨hs.increasing, ?_, fun a ha b hb => ?_⟩
    · rcases ThreadRequest.frames_cases (q := q) resumable attempt row with h | ⟨frame, h⟩ <;>
        simp [h]
    · obtain ⟨p, hp, rfl⟩ := List.mem_map.1 ha
      obtain ⟨p', hp', rfl⟩ := List.mem_map.1 hb
      obtain ⟨-, -, -, -, hle⟩ := hs.frames p hp
      rw [(ThreadRequest.mem_frames hp').1]
      omega
  · rcases List.mem_append.1 hp with hp | hp
    · obtain ⟨-, -, -, -, hle'⟩ := hs.frames p hp
      omega
    · exact (ThreadRequest.mem_frames hp).1 ▸ hle
  · obtain ⟨hmem, ht, -⟩ := hs.rows e (htail he)
    exact ⟨hmem, ht, hsorted e he⟩
  · have hsorted := hs.sorted
    rw [hrows] at hsorted
    exact hsorted.of_cons
  · have hgap := hs.gapless r (htail hr) e he hw (hlt.trans hlt') hle
    rw [hrows] at hgap
    refine (List.mem_cons.1 hgap).resolve_left ?_
    rintro rfl
    exact lt_irrefl _ hlt'
  · obtain ⟨hinitial, hpasses⟩ := hs.filter ids (by rw [hphase]; exact hids)
    exact ⟨hinitial, fun e he => hpasses e (htail he)⟩

theorem ThreadReader.Sound.advance (hs : s.Sound q v) (hv : v.Kept) (hsafe : s.Safe q v .advance)
    (h : s.advance q avail v = some s') : s'.Sound q v := by
  unfold ThreadReader.advance at h
  simp only [ThreadReader.Safe] at hsafe
  split at h
  · next hphase =>
      obtain rfl := Option.some.inj h
      exact hs.open hphase
  · next hphase =>
      obtain rfl := Option.some.inj h
      rw [hphase] at hsafe
      exact hs.position hv hphase hsafe
  · next hphase =>
      rw [hphase] at hsafe
      split at h
      · next rows v' hrun =>
          obtain rfl := Option.some.inj h
          exact hs.reload hv hphase hsafe (run_ok_iff.1 hrun)
      · obtain rfl := Option.some.inj h
        exact hs.move (by simp) (by simp [ReaderPhase.started]) (.inr rfl) id
          (by simp [ReaderPhase.resumable])
      · cases h
  · next rows hphase =>
      have hrows : rows = s.phase.rows := by rw [hphase]; rfl
      split at h
      · next hinitial =>
          split at h
          · obtain rfl := Option.some.inj h
            exact hs.move (by simp) (by simp [ReaderPhase.started]) (.inr rfl) id
              (by simp [ReaderPhase.resumable])
          · next ids hids =>
              obtain rfl := Option.some.inj h
              refine hs.move (by simp) (by rw [hphase]; simp [ReaderPhase.started]) (.inl hrows) id
                fun ids' hids' => ?_
              obtain rfl := Option.some.inj hids'
              refine ⟨hinitial, fun e he hreplay => ?_⟩
              cases hid : e.runId with
              | none => simp [passes, hid]
              | some x => simpa [passes, hid] using (mem_resumableRunIds hids he hid).2 hreplay
      · obtain rfl := Option.some.inj h
        exact hs.move (by simp) (by rw [hphase]; simp [ReaderPhase.started]) (.inl hrows) id
          (by simp [ReaderPhase.resumable])
  · next rows resumable hphase =>
      obtain rfl := Option.some.inj h
      refine hs.move (by simp) (by rw [hphase]; simp [ReaderPhase.started])
        (.inl (by rw [hphase]; rfl)) id fun ids hids => ?_
      have hfilter := hs.filter ids (by rw [hphase]; exact hids)
      rwa [hphase] at hfilter
  · next row rows resumable attempts hphase =>
      obtain rfl := Option.some.inj h
      exact hs.emit hphase
  · next hphase =>
      obtain rfl := Option.some.inj h
      exact hs.move (by simp) (by rw [hphase]; simp [ReaderPhase.started]) (.inr rfl) (by simp)
        (by simp [ReaderPhase.resumable])
  · next hphase =>
      obtain rfl := Option.some.inj h
      exact hs.move (by simp) (by rw [hphase]; simp [ReaderPhase.started]) (.inr rfl) id
        (by simp [ReaderPhase.resumable])
  · cases h
  · cases h

/-! ## The law -/

def ThreadRequest.Safe (q : ThreadRequest) (w : Db × ThreadReader) :
    Timed × Except Err Reply ⊕ ReaderStep → Prop
  | .inl _ => True
  | .inr l => w.2.Safe q w.1 l

/-- The stream beside the service, in runs whose steps are all safe. -/
def ThreadRequest.safely (q : ThreadRequest) :
    TSys (Db × ThreadReader) (Timed × Except Err Reply ⊕ ReaderStep) := q.system.restrict q.Safe

theorem ThreadReader.Sound.start (q : ThreadRequest) (v : Db) :
    ({} : ThreadReader).Sound q v := by
  refine ⟨Nat.zero_le _, fun _ => rfl, ?_, ?_, .nil, ?_, ?_, ?_, ?_, ?_, ?_, .nil, ?_, ?_, ?_⟩ <;>
    simp [ReaderPhase.started, ReaderPhase.rows, ReaderPhase.resumable]

theorem sound_reader_inductive (q : ThreadRequest) :
    q.safely.Inductive fun w => w.1.Kept ∧ w.2.Sound q w.1 := by
  refine TSys.observe_inductive kept_inductive ?_ ?_ ?_
  · rintro v s - rfl
    exact .start q v
  · intro v l v' s hv hv' _ hstep hs
    exact hs.extends hv hv' (keeping_extends hstep)
  · intro v s l s' hv hsafe hlook hs
    cases l with
    | advance =>
        obtain ⟨avail, hadvance⟩ := hlook
        exact hs.advance hv hsafe hadvance
    | leave =>
        obtain rfl := hlook
        exact hs.move (by simp) (by simp [ReaderPhase.started]) (.inr rfl) id
          (by simp [ReaderPhase.resumable])

theorem ThreadReader.Sound.complete (hs : s.Sound q v) : s.Complete q v where
  increasing := by
    have hids : s.sent.map (·.2.eventId) = s.sent.map (·.1.sequence) :=
      List.map_congr_left fun p hp => (hs.frames p hp).1
    rw [hids]
    exact hs.increasing
  once p hp e he hw hle := by
    refine List.count_eq_one_of_mem ?_ (hs.once p hp e he hw ((hs.frames p hp).1 ▸ hle))
    -- two frames of one event would have one number
    refine List.pairwise_map.2 ((List.pairwise_map.1 hs.increasing).imp fun hlt heq => ?_)
    exact lt_irrefl _ (heq ▸ hlt)

/-- A thread stream whose steps are safe sends its frames in order and leaves out none. -/
theorem thread_stream_complete (q : ThreadRequest) (w : Db × ThreadReader)
    (h : q.safely.Reachable w) : w.2.Complete q w.1 :=
  ((sound_reader_inductive q).invariant w h).2.complete

/-! ## Two streams -/

section Decidable

variable (q : ThreadRequest) (v : Db) (s : ThreadReader)

instance : Decidable (s.Ahead q v) := inferInstanceAs (Decidable (∀ e ∈ _, _ → _ → _))

instance : Decidable (s.Resumable q v) := inferInstanceAs (Decidable (∀ e ∈ _, _ → _ → _ → _))

instance : Decidable (s.Unpruned q v) := inferInstanceAs (Decidable (∀ e ∈ _, _ → _ → _))

instance : Decidable (s.ReloadSafe q v) :=
  decidable_of_iff ((q.lastEventId.sent = true → s.Ahead q v) ∧
      (s.initialReplay = true → s.Resumable q v) ∧ (q.lastEventId.sent = false → s.Unpruned q v))
    ⟨fun h => ⟨h.1, h.2.1, h.2.2⟩, fun h => ⟨h.ahead, h.resumable, h.stored⟩⟩

instance : Decidable (s.Safe q v .advance) :=
  match h : s.phase with
  | .positioning => decidable_of_iff (∀ e ∈ v.recorded.drop s.since,
      e.threadId = some q.thread → e.renders q.modes = false) (by simp [ThreadReader.Safe, h])
  | .reloading => decidable_of_iff (s.ReloadSafe q v) (by simp [ThreadReader.Safe, h])
  | .opening | .loaded _ | .filtered .. | .emitting .. | .waiting | .expired | .closed =>
      isTrue (by simp [ThreadReader.Safe, h])

end Decidable

/-- An input of a script: a request, or the next step of the stream. -/
inductive StreamInput
  | commit (q : Request)
  | look

/-- The inputs while no other transaction holds a lock, as long as the steps of the stream
pass `ok`. -/
def ThreadRequest.next (q : ThreadRequest) (ok : Db → ThreadReader → Bool)
    (w : Db × ThreadReader) : StreamInput → Option (Db × ThreadReader)
  | .commit c =>
      if Kind.dropRun ∉ c.kinds ∧ Kind.dropThread ∉ c.kinds then
        (c.run unlocked 0 w.1).map fun (_, v) => (v, w.2)
      else none
  | .look => if ok w.1 w.2 then (w.2.advance q unlocked w.1).map fun s => (w.1, s) else none

theorem ThreadRequest.next_step {ok : Db → ThreadReader → Bool} {w w' : Db × ThreadReader}
    {i : StreamInput} (h : q.next ok w i = some w') :
    ∃ l, q.system.step w l w' ∧
      ((∀ v s, ok v s = true → s.Safe q v .advance) → q.Safe w l) := by
  cases i with
  | commit c =>
      simp only [next] at h
      split at h
      · next hkeeps =>
          obtain ⟨⟨r, v⟩, hrun, rfl⟩ := Option.map_eq_some_iff.1 h
          exact ⟨.inl (⟨0, c⟩, r), ⟨⟨hkeeps, unlocked, hrun⟩, rfl⟩, fun _ => trivial⟩
      · cases h
  | look =>
      simp only [next] at h
      split at h
      · next hok =>
          obtain ⟨s, hs, rfl⟩ := Option.map_eq_some_iff.1 h
          exact ⟨.inr .advance, ⟨rfl, unlocked, hs⟩, fun hsafe => hsafe w.1 w.2 hok⟩
      · cases h

theorem twoThreads_init : q.system.init (twoThreads, {}) := ⟨Db.fresh_fresh _ _, rfl⟩

/-- The frames of a script from the fresh database. -/
theorem ThreadRequest.play_safely {inputs : List StreamInput} {p : Db × ThreadReader → Bool}
    (h : ((TSys.play (q.next fun v s => decide (s.Safe q v .advance)) (twoThreads, {}) inputs).any
      p) = true) : ∃ w, q.safely.Reachable w ∧ p w = true := by
  refine TSys.play_reachable (fun w i w' hnext => ?_) (twoThreads_init (q := q)) h
  obtain ⟨l, hstep, hsafe⟩ := next_step hnext
  exact ⟨l, hstep, hsafe fun v s => of_decide_eq_true⟩

theorem ThreadRequest.play_system {inputs : List StreamInput} {p : Db × ThreadReader → Bool}
    (h : ((TSys.play (q.next fun _ _ => true) (twoThreads, {}) inputs).any p) = true) :
    ∃ w, q.system.Reachable w ∧ p w = true := by
  refine TSys.play_reachable (fun w i w' hnext => ?_) (twoThreads_init (q := q)) h
  obtain ⟨l, hstep, -⟩ := next_step hnext
  exact ⟨l, hstep⟩

/-- The stream of thread 1 without `Last-Event-ID`. -/
def liveRequest : ThreadRequest := ⟨1, [.runModes], .absent⟩

/-- A reload that finds one row, up to the next wait. -/
def reloadOne : List StreamInput := [.look, .look, .look, .look, .look]

def customEvent (n : Int) : PublishedEvent :=
  ⟨"custom", [("event", .str "custom"), ("data", .num n)], []⟩

/-- Events of a run that is not resumable, committed after the first reload, are sent. -/
theorem thread_stream_complete_live : ∃ w : Db × ThreadReader,
    w.2.Complete liveRequest w.1 ∧ w.2.sent.map (·.2.eventId) = [1, 2] := by
  obtain ⟨w, hreach, hsent⟩ := liveRequest.play_safely
    (p := fun w => w.2.sent.map (·.2.eventId) = [1, 2])
    (show (TSys.play _ _ ([.commit (.runsCreate .default (submission 1 1)), .look, .look, .look,
      .look, .look, .look, .commit (.publish 1 (some 1) [customEvent 1]), .look] ++ reloadOne ++
      [.commit (.publish 1 (some 1) [customEvent 2]), .look] ++ reloadOne)).any _ = true by
      decide +kernel)
  exact ⟨w, thread_stream_complete liveRequest w hreach, of_decide_eq_true hsent⟩

/-- A wanted event is missing before a frame that was sent. -/
def ThreadReader.misses (q : ThreadRequest) (v : Db) (s : ThreadReader) : Bool :=
  s.sent.any fun p => v.recorded.any fun e => decide (q.Wants v s.since e) &&
    e.sequence ≤ p.2.eventId && e ∉ s.sent.map (·.1)

theorem ThreadReader.not_complete (h : s.misses q v = true) : ¬s.Complete q v := by
  intro hcomplete
  simp only [misses, List.any_eq_true, Bool.and_eq_true, decide_eq_true_eq] at h
  obtain ⟨p, hp, e, he, ⟨hw, hle⟩, hmissing⟩ := h
  have honce := hcomplete.once p hp e he hw hle
  rw [List.count_eq_zero_of_not_mem hmissing] at honce
  cases honce

/-- The first reload drops a live event of a run that is not resumable: it is committed after
the subscription, and the next event is sent without it. -/
theorem thread_stream_drops_live_event : ∃ w : Db × ThreadReader,
    liveRequest.system.Reachable w ∧ ¬w.2.Complete liveRequest w.1 := by
  obtain ⟨w, hreach, hmisses⟩ := liveRequest.play_system
    (p := fun w => w.2.misses liveRequest w.1)
    (show (TSys.play _ _ ([.commit (.runsCreate .default (submission 1 1)), .look, .look,
      .commit (.publish 1 (some 1) [customEvent 1]), .look] ++ reloadOne ++
      [.commit (.publish 1 (some 1) [customEvent 2]), .look] ++ reloadOne)).any _ = true by
      decide +kernel)
  exact ⟨w, hreach, ThreadReader.not_complete hmisses⟩

end GraphHarbor
