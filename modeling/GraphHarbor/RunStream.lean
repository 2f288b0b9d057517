import GraphHarbor.EventFrames
import GraphHarbor.LogReader
import GraphHarbor.Reaper

/-!
# The run stream

`_run_sse` of `streaming.py`: a stream of one run. It subscribes to the messages of the
run, replays the stored events above the cursor, looks whether the run has ended, and then
follows the messages. When it waits in vain it looks again, and reloads what is stored once
the run has ended. A client that comes back sends the id of its last frame.
-/

namespace GraphHarbor

open Kit Txn

/-! ## The stream -/

/-- The request of a run stream. `created` is `include_location`: the request made the run. -/
structure RunRequest where
  run : RunId
  thread : Option ThreadId
  cursor : Nat
  created : Bool
  modes : List String
  streamSubgraphs : Bool
  version : String

/-- The next step of the stream. -/
inductive RunPhase
  /-- `_authorized_run`. -/
  | opening
  /-- `add_queue`. -/
  | subscribing
  /-- `_run_replay`. -/
  | replaying
  /-- `for envelope in replay`. -/
  | emitting (rows : List RuntimeEventRow)
  /-- `_run_snapshot` after the replay. -/
  | settling
  /-- `queue.get()`. -/
  | live
  /-- `_run_snapshot` after a timeout of the queue. -/
  | polling
  /-- `_load_events`. -/
  | reloading
  /-- `for envelope in await _load_events(…)`. -/
  | reemitting (rows : List RuntimeEventRow)
  /-- The request was answered with `cursor_expired`. -/
  | expired
  /-- The run has ended, and so has the stream. -/
  | finished
  | closed
  deriving DecidableEq, Repr

/-- A run stream. `published` counts the committed events whose fan-out is over, and
`buffered` is where the part of them begins that the buffer of the process still held at the
subscription; `silent` are the events that had no message, and `sent` those of the frames.
`loadedAt` counts the events committed before the last read of the log, and `covered` those
that the end of the stream answers for. -/
structure RunReader where
  phase : RunPhase := .opening
  queue : List RuntimeEventRow := []
  sent : List RuntimeEventRow := []
  silent : List RuntimeEventRow := []
  published : Nat := 0
  buffered : Nat := 0
  loadedAt : Nat := 0
  covered : Nat := 0

/-- The queue of the stream is registered. -/
def RunPhase.listening : RunPhase → Bool
  | .replaying | .emitting _ | .settling | .live | .polling | .reloading | .reemitting _ => true
  | .opening | .subscribing | .expired | .finished | .closed => false

/-- `seen`. -/
def RunReader.seen (s : RunReader) : List Nat := s.sent.map (·.sequence)

/-- `max(seen or {cursor})`. -/
def RunReader.position (q : RunRequest) (s : RunReader) : Nat :=
  if s.sent = [] then q.cursor else s.seen.foldr max 0

/-- `emit_envelope`: the stream after the envelope of `e`, unless `_event_frame` raises. -/
def RunReader.emit (q : RunRequest) (now : Nat) (s : RunReader) (e : RuntimeEventRow)
    (envelope : Dict) : Except String RunReader :=
  (eventFrame now q.modes q.streamSubgraphs q.version envelope).map fun frame =>
    match frame with
    | none => s
    | some frame =>
        if frame.sequence ≤ q.cursor ∨ frame.sequence ∈ s.seen.map Int.ofNat then s
        else { s with sent := s.sent ++ [e] }

/-- A row of a replay or a reload. -/
def RunReader.emitRow (q : RunRequest) (now : Nat) (s : RunReader) (row : RuntimeEventRow)
    (next : RunPhase) : RunReader :=
  match s.emit q now row (eventEnvelope "" row) with
  | .error _ => { s with phase := .closed }
  | .ok s => { s with phase := next }

/-- The payload says that the run has ended. -/
def RuntimeEventRow.ends (e : RuntimeEventRow) : Bool :=
  e.payload.get? "event" = some (.str "lifecycle") && isTerminalStatus (e.payload.get? "status")

/-- The stream ends after the message that ends the run. -/
def RunReader.handled (v : Db) (e : RuntimeEventRow) (s : RunReader) : RunReader :=
  if e.ends then { s with phase := .finished, covered := v.recorded.idxOf e + 1 }
  else { s with phase := .live }

/-- A message of the queue. -/
def RunReader.receive (q : RunRequest) (v : Db) (now : Nat) (s : RunReader)
    (e : RuntimeEventRow) : RunReader :=
  match s.emit q now e (durableMessage "" e) with
  | .error _ => { s with phase := .closed }
  | .ok s => s.handled v e

/-- `_load_events`. -/
def loadEvents (id : RunId) (after : Nat) (v : Db) : List RuntimeEventRow :=
  eventsAfter (inRun id) after v

/-- `not include_location and not snapshot.kwargs.get("stream_resumable", False)`. -/
def RunRequest.late (q : RunRequest) (run : RunRow) : Bool :=
  !q.created && !(run.kwargs.get? "stream_resumable").any Json.truthy

/-- What the stream does with a replay. -/
def RunReader.replay (q : RunRequest) (v : Db) (s : RunReader) (run : RunRow)
    (rows : List RuntimeEventRow) : RunReader :=
  if q.cursor ≠ 0 ∧ q.cursor < run.eventPrunedThrough then { s with phase := .expired }
  else if q.late run then
    if run.status.isTerminal then { s with phase := .closed }
    else { s with loadedAt := v.recorded.length, phase := .emitting [] }
  else { s with loadedAt := v.recorded.length, phase := .emitting rows }

/-- The next step of the stream at the time `now`, on what is committed. -/
def RunReader.advance (q : RunRequest) (avail : Lock → Bool) (now : Nat) (v : Db)
    (s : RunReader) : Option RunReader :=
  match s.phase with
  | .opening =>
      match engine.run avail (authorizedRun q.run) v with
      | some (.ok run, _) => some { s with
          phase := if run.any (·.threadId = q.thread) then .subscribing else .closed }
      | _ => none
  | .subscribing => none
  | .replaying =>
      match engine.run avail (runReplay q.run q.cursor) v with
      | some (.ok (some run, rows), _) => some (s.replay q v run rows)
      | some (.ok (none, _), _) => some { s with phase := .closed }
      | _ => none
  | .emitting (row :: rows) => some (s.emitRow q now row (.emitting rows))
  | .emitting [] => some { s with phase := .settling }
  | .settling =>
      match engine.run avail (authorizedRun q.run) v with
      | some (.ok (some run), _) => some <|
          if run.status.isTerminal then
            { s with phase := .finished, covered := v.recorded.length }
          else { s with phase := .live }
      | some (.ok none, _) => some { s with phase := .closed }
      | _ => none
  | .live =>
      match s.queue with
      | [] => none
      | e :: queue => some ({ s with queue := queue }.receive q v now e)
  | .polling =>
      match engine.run avail (authorizedRun q.run) v with
      | some (.ok run, _) => some { s with
          phase := if run.any (·.status.isTerminal) then .reloading else .live }
      | _ => none
  | .reloading => some { s with
      loadedAt := v.recorded.length
      phase := .reemitting (loadEvents q.run (s.position q) v) }
  | .reemitting (row :: rows) => some (s.emitRow q now row (.reemitting rows))
  | .reemitting [] => some { s with phase := .finished, covered := s.loadedAt }
  | .expired | .finished | .closed => none

/-- `add_queue` with `replay=True`: the messages of the buffer, from the event at `start`
on, are in the queue. -/
def RunReader.subscribe (q : RunRequest) (v : Db) (s : RunReader) (start : Nat) :
    Option RunReader :=
  if s.phase = .subscribing ∧ start ≤ s.published then
    some { s with
      phase := .replaying
      buffered := start
      queue := ((v.recorded.take s.published).drop start).filter fun e =>
        e.runId = some q.run && e ∉ s.silent }
  else none

/-- The fan-out of the next committed event. Some events have no message, such as those of
the reaper. -/
def RunReader.deliver (q : RunRequest) (v : Db) (s : RunReader) (message : Bool) :
    Option RunReader :=
  match v.recorded[s.published]? with
  | none => none
  | some e => some { s with
      published := s.published + 1
      silent := if message then s.silent else s.silent ++ [e]
      queue := if message && s.phase.listening && e.runId = some q.run then s.queue ++ [e]
        else s.queue }

/-- The steps of a stream. It waits in vain for a message, or it ends: it times out, the
client leaves or loses its authorisation, or an error is raised. -/
inductive RunStreamStep
  | advance
  | subscribe (start : Nat)
  | deliver (message : Bool)
  | timeout
  | leave
  deriving DecidableEq, Repr

def RunReader.look (q : RunRequest) (v : Db) (s : RunReader) (l : RunStreamStep)
    (s' : RunReader) : Prop :=
  match l with
  | .advance => ∃ avail now, s.advance q avail now v = some s'
  | .subscribe start => s.subscribe q v start = some s'
  | .deliver message => s.deliver q v message = some s'
  | .timeout => s.phase = .live ∧ s' = { s with phase := .polling }
  | .leave => s' = { s with phase := .closed }

/-- A run stream beside the service. The messages come in the order of the commits. -/
def RunRequest.system (q : RunRequest) :
    TSys (Db × RunReader) (Timed × Except Err Reply ⊕ RunStreamStep) :=
  keeping.observe (fun s => s = {}) (RunReader.look q)

/-! ## What a stream owes its client -/

/-- What `_event_frame` makes of an envelope: a frame or none, if it does not raise. -/
def RunRequest.rendering (q : RunRequest) (envelope : Dict) : Except String Bool :=
  (eventFrame 0 q.modes q.streamSubgraphs q.version envelope).map Option.isSome

/-- An event of the run above the cursor that has a frame when it is replayed. -/
structure RunRequest.Wants (q : RunRequest) (v : Db) (e : RuntimeEventRow) : Prop where
  recorded : e ∈ v.recorded
  run : e.runId = some q.run
  above : q.cursor < e.sequence
  renders : q.rendering (eventEnvelope "" e) = .ok true

/-- Only wanted events have frames, in the order of their numbers, and none is missing before
a frame. A stream that ended with its run has sent all that were committed by the end it
saw: the terminal event whose message ended it, or the last read of the log. -/
structure RunReader.Complete (q : RunRequest) (v : Db) (s : RunReader) : Prop where
  wanted : ∀ e ∈ s.sent, q.Wants v e
  increasing : s.seen.Pairwise (· < ·)
  gapless : ∀ p ∈ s.sent, ∀ e, q.Wants v e → e.sequence ≤ p.sequence → s.sent.count e = 1
  finished : s.phase = .finished → ∀ e ∈ v.recorded.take s.covered, q.Wants v e →
    s.sent.count e = 1

/-! ## When it pays -/

/-- Every wanted event that has no frame yet is still stored. -/
def RunReader.Stored (q : RunRequest) (v : Db) (s : RunReader) : Prop :=
  ∀ e ∈ v.recorded, q.Wants v e → e ∉ s.sent → e ∈ v.events

/-- The event has its namespace in its payload, or has none. -/
def RuntimeEventRow.Named (e : RuntimeEventRow) : Prop :=
  (Event.field e.payload "namespace").isSome ∨ e.namespace = []

/-- A frame of `e` is new to the client. -/
def RunReader.fresh (q : RunRequest) (s : RunReader) (e : RuntimeEventRow) : Bool :=
  q.cursor < e.sequence && e.sequence ∉ s.seen

/-- A message gets a frame, or ends the stream. -/
def RunReader.counts (q : RunRequest) (s : RunReader) (e : RuntimeEventRow) : Bool :=
  e.ends || (s.fresh q e && q.rendering (eventEnvelope "" e) = .ok true)

/-- The condition of a step of the stream. -/
def RunReader.Safe (q : RunRequest) (v : Db) (s : RunReader) : RunStreamStep → Prop
  | .subscribe _ | .deliver _ | .timeout | .leave => True
  | .advance =>
      match s.phase with
      -- the client may be late for a resumable run only; without a cursor no watermark counts
      | .replaying => (∀ run, v.runs.find? q.run = some run → q.late run = false) ∧
          (q.cursor = 0 → s.Stored q v)
      -- nothing was committed between the replay and the end of the run
      | .settling => (∃ run, v.runs.find? q.run = some run ∧ run.status.isTerminal = true) →
          ∀ e ∈ v.recorded.drop s.loadedAt, ¬q.Wants v e
      | .reloading => s.Stored q v
      -- no message overtakes a wanted event that had none
      | .live => ∀ e ∈ s.queue.head?, e.Named ∧ (s.counts q e = true →
          ∀ e' ∈ s.silent, q.Wants v e' → e'.sequence < e.sequence → e' ∈ s.sent)
      | _ => True

def RunRequest.Safe (q : RunRequest) (w : Db × RunReader) :
    Timed × Except Err Reply ⊕ RunStreamStep → Prop
  | .inl _ => True
  | .inr l => w.2.Safe q w.1 l

/-- The stream beside the service, in runs whose steps are all safe. -/
def RunRequest.safely (q : RunRequest) :
    TSys (Db × RunReader) (Timed × Except Err Reply ⊕ RunStreamStep) :=
  q.system.restrict q.Safe

/-! ## Frames -/

section Frames

variable {now : Nat} {modes : List String} {streamSubgraphs : Bool} {version eventId : String}
  {e : RuntimeEventRow}

/-- Whether an event has a frame does not depend on its timestamp. -/
theorem typedFrame_isSome {event : Dict} {sequence : Option Int} (p : Projected)
    (timestamp : Int) :
    (typedFrame modes streamSubgraphs version event sequence { p with timestamp }).map
        Option.isSome =
      (typedFrame modes streamSubgraphs version event sequence p).map Option.isSome := by
  have hnested : Projected.nested { p with timestamp } = p.nested := rfl
  unfold typedFrame
  rw [hnested]
  split
  · rfl
  · split
    · rfl
    · split
      · rfl
      · show Except.ok _ = Except.ok _
        rw [Option.isSome_map, Option.isSome_map]

/-- A frame has the sequence of its envelope. -/
theorem typedFrame_sequence {event : Dict} {n : Int} {p : Projected} {frame : EventFrame}
    (h : typedFrame modes streamSubgraphs version event (some n) p = .ok (some frame)) :
    frame.sequence = n := by
  unfold typedFrame at h
  split at h
  · cases h
  · split at h
    · unfold errorFrame at h
      split at h
      · cases h
      · split at h
        · cases h
          rfl
        · cases h
    · split at h
      · cases h
      · simp only [Option.map_some, Except.ok.injEq, Option.some.injEq] at h
        rw [← h]
        split <;> rfl

theorem projected_isSome {fallback : List String} :
    (typedFrame modes streamSubgraphs version e.payload (some e.sequence)
        (projectV3Event now (some e.sequence) fallback e.payload)).map Option.isSome =
      (typedFrame modes streamSubgraphs version e.payload (some e.sequence)
        (projectV3Event 0 (some e.sequence) fallback e.payload)).map Option.isSome := by
  rw [projectV3Event_now 0 now]
  exact typedFrame_isSome _ _

variable {q : RunRequest}

/-- A row has a frame at all times or at none. -/
theorem rendering_row :
    (eventFrame now q.modes q.streamSubgraphs q.version (eventEnvelope "" e)).map Option.isSome =
      q.rendering (eventEnvelope "" e) := by
  unfold RunRequest.rendering
  rw [eventFrame_replay, eventFrame_replay]
  exact projected_isSome

/-- A message has a frame if its row has one. -/
theorem rendering_message (hnamed : e.Named) :
    (eventFrame now q.modes q.streamSubgraphs q.version (durableMessage "" e)).map Option.isSome =
      q.rendering (eventEnvelope "" e) := by
  have hfallback : projectV3Event now (some e.sequence) [] e.payload =
      projectV3Event now (some e.sequence) e.namespace e.payload := by
    rcases hnamed with hsome | hnone
    · exact projectV3Event_fallback hsome
    · rw [hnone]
  unfold RunRequest.rendering durableMessage
  rw [eventFrame_live, eventFrame_replay, hfallback]
  exact projected_isSome

theorem sequence_row {frame : EventFrame}
    (h : eventFrame now q.modes q.streamSubgraphs q.version (eventEnvelope "" e) =
      .ok (some frame)) : frame.sequence = e.sequence := by
  rw [eventFrame_replay] at h
  exact typedFrame_sequence h

theorem sequence_message {frame : EventFrame}
    (h : eventFrame now q.modes q.streamSubgraphs q.version (durableMessage "" e) =
      .ok (some frame)) : frame.sequence = e.sequence := by
  unfold durableMessage at h
  rw [eventFrame_live] at h
  exact typedFrame_sequence h

end Frames

/-! ## Emissions -/

variable {q : RunRequest} {v v' : Db} {s s' : RunReader} {e : RuntimeEventRow}
  {avail : Lock → Bool} {now : Nat}

/-- The stream after an envelope of `e`, which has a frame or none. -/
def RunReader.pass (q : RunRequest) (e : RuntimeEventRow) (s : RunReader) (renders : Bool) :
    RunReader :=
  if renders && s.fresh q e then { s with sent := s.sent ++ [e] } else s

theorem RunReader.pass_false : s.pass q e false = s := rfl

theorem RunReader.pass_true (h : s.fresh q e = true) :
    s.pass q e true = { s with sent := s.sent ++ [e] } := if_pos h

/-- The check of `emit_envelope`. -/
theorem RunReader.stale_iff :
    ((e.sequence : Int) ≤ q.cursor ∨ (e.sequence : Int) ∈ s.seen.map Int.ofNat) ↔
      ¬s.fresh q e = true := by
  have hmem : ((e.sequence : Int) ∈ s.seen.map Int.ofNat) ↔ e.sequence ∈ s.seen := by
    constructor
    · intro h
      obtain ⟨n, hn, heq⟩ := List.mem_map.1 h
      exact Int.ofNat.inj heq ▸ hn
    · intro h
      exact List.mem_map.2 ⟨e.sequence, h, rfl⟩
  rw [hmem]
  simp only [RunReader.fresh, Bool.and_eq_true, decide_eq_true_eq, not_and, not_not]
  constructor
  · intro h hlt
    exact h.resolve_left (by omega)
  · intro h
    by_cases hlt : q.cursor < e.sequence
    · exact .inr (h hlt)
    · exact .inl (by omega)

/-- What is emitted for an envelope of `e`. -/
theorem RunReader.emit_eq {envelope : Dict}
    (hsequence : ∀ frame, eventFrame now q.modes q.streamSubgraphs q.version envelope =
      .ok (some frame) → frame.sequence = e.sequence) :
    s.emit q now e envelope =
      ((eventFrame now q.modes q.streamSubgraphs q.version envelope).map Option.isSome).map
        (s.pass q e) := by
  unfold RunReader.emit
  cases hframe : eventFrame now q.modes q.streamSubgraphs q.version envelope with
  | error message => rfl
  | ok frame =>
      cases frame with
      | none => rfl
      | some frame =>
          show Except.ok (if _ then s else _) = Except.ok (s.pass q e true)
          rw [hsequence frame hframe]
          by_cases hstale : (e.sequence : Int) ≤ q.cursor ∨
              (e.sequence : Int) ∈ s.seen.map Int.ofNat
          · rw [if_pos hstale, RunReader.pass, if_neg (by simpa using stale_iff.1 hstale)]
          · rw [if_neg hstale, RunReader.pass_true (not_not.1 (mt stale_iff.2 hstale))]

theorem RunReader.emit_row : s.emit q now e (eventEnvelope "" e) =
    (q.rendering (eventEnvelope "" e)).map (s.pass q e) := by
  rw [RunReader.emit_eq fun _ => sequence_row, rendering_row]

theorem RunReader.emit_message (hnamed : e.Named) : s.emit q now e (durableMessage "" e) =
    (q.rendering (eventEnvelope "" e)).map (s.pass q e) := by
  rw [RunReader.emit_eq fun _ => sequence_message, rendering_message hnamed]

/-! ## The invariant -/

def RunPhase.rows : RunPhase → List RuntimeEventRow
  | .emitting rows | .reemitting rows => rows
  | _ => []

/-- What holds while the queue is registered: it has the messages not handled yet. -/
structure RunReader.Listens (q : RunRequest) (v : Db) (s : RunReader) : Prop where
  buffered : s.buffered ≤ s.published
  queued : ∀ e ∈ s.queue, e ∈ (v.recorded.take s.published).drop s.buffered ∧ e.runId = some q.run
  sorted : s.queue.Pairwise fun a b => a.sequence < b.sequence
  handled : ∀ e ∈ (v.recorded.take s.published).drop s.buffered, e ∉ s.silent → q.Wants v e →
    e ∈ s.queue ∨ e ∈ s.sent

/-- What holds from the replay on: the events committed before it have frames, or are rows. -/
structure RunReader.Loaded (q : RunRequest) (v : Db) (s : RunReader) : Prop where
  buffered : s.buffered ≤ s.loadedAt
  length : s.loadedAt ≤ v.recorded.length
  rows : ∀ e ∈ s.phase.rows, e ∈ v.recorded.take s.loadedAt ∧ e.runId = some q.run ∧
    q.cursor < e.sequence ∧ ∀ p ∈ s.sent, p.sequence < e.sequence
  sorted : s.phase.rows.Pairwise fun a b => a.sequence < b.sequence
  owed : ∀ e ∈ v.recorded.take s.loadedAt, q.Wants v e → e ∈ s.phase.rows ∨ e ∈ s.sent

theorem RunPhase.started {p : RunPhase} (hp : p.listening = true) (hp' : p ≠ .replaying) :
    ¬(p = .opening ∨ p = .subscribing ∨ p = .replaying) ∧ p ≠ .finished := by
  cases p with
  | emitting | settling | live | polling | reloading | reemitting => simp
  | replaying => exact absurd rfl hp'
  | opening | subscribing | expired | finished | closed => cases hp

structure RunReader.Sound (q : RunRequest) (v : Db) (s : RunReader) : Prop where
  published : s.published ≤ v.recorded.length
  unset : s.phase = .opening ∨ s.phase = .subscribing ∨ s.phase = .replaying → s.sent = []
  frames : ∀ e ∈ s.sent, q.Wants v e
  increasing : s.seen.Pairwise (· < ·)
  gapless : ∀ p ∈ s.sent, ∀ e, q.Wants v e → e.sequence < p.sequence → e ∈ s.sent
  listens : s.phase.listening = true → s.Listens q v
  loaded : s.phase.listening = true → s.phase ≠ .replaying → s.Loaded q v
  finished : s.phase = .finished → s.covered ≤ v.recorded.length ∧
    ∀ e ∈ v.recorded.take s.covered, q.Wants v e → e ∈ s.sent

theorem RunRequest.Wants.of_mem (h : q.Wants v' e) (he : e ∈ v.recorded) : q.Wants v e :=
  ⟨he, h.run, h.above, h.renders⟩

/-! ### Commits -/

theorem RunReader.Sound.extends (hs : s.Sound q v) (hv' : v'.Kept) (hlog' : v'.Homed)
    (h : v.Extends v') : s.Sound q v' := by
  have hsub : v.recorded ⊆ v'.recorded := h.recorded.subset
  have htake {n : Nat} (hn : n ≤ v.recorded.length) : v'.recorded.take n = v.recorded.take n := by
    obtain ⟨new, hnew⟩ := h.recorded
    rw [← hnew, List.take_append_of_le_length hn]
  have hold {n : Nat} {e : RuntimeEventRow} (he : e ∈ v.recorded.take n) (hw : q.Wants v' e) :
      q.Wants v e := hw.of_mem (List.mem_of_mem_take he)
  refine ⟨hs.published.trans h.recorded.length_le, hs.unset, ?_, hs.increasing, ?_, ?_, ?_, ?_⟩
  · intro e he
    exact (hs.frames e he).of_mem (hsub (hs.frames e he).recorded)
  · intro p hp e hw hlt
    have hp' := hs.frames p hp
    by_cases he : e ∈ v.recorded
    · exact hs.gapless p hp e (hw.of_mem he) hlt
    · have := hv'.above_run hlog' h hp'.recorded hw.recorded he hp'.run hw.run
      omega
  · intro hphase
    have hl := hs.listens hphase
    refine ⟨hl.buffered, ?_, hl.sorted, ?_⟩
    · rw [htake hs.published]
      exact hl.queued
    · rw [htake hs.published]
      intro e he hsilent hw
      exact hl.handled e he hsilent (hold (List.mem_of_mem_drop he) hw)
  · intro hphase hreplaying
    have hl := hs.loaded hphase hreplaying
    refine ⟨hl.buffered, hl.length.trans h.recorded.length_le, ?_, hl.sorted, ?_⟩
    · rw [htake hl.length]
      exact hl.rows
    · rw [htake hl.length]
      intro e he hw
      exact hl.owed e he (hold he hw)
  · intro hphase
    obtain ⟨hlength, hall⟩ := hs.finished hphase
    refine ⟨hlength.trans h.recorded.length_le, ?_⟩
    rw [htake hlength]
    intro e he hw
    exact hall e he (hold he hw)

/-! ### Steps of the stream -/

/-- The stream ends before its run, or is no stream yet. -/
theorem RunReader.Sound.stop (hs : s.Sound q v) {p : RunPhase} {queue : List RuntimeEventRow}
    (hp : p = .closed ∨ p = .expired) :
    ({ s with phase := p, queue := queue } : RunReader).Sound q v := by
  have hdeaf : p.listening = false := by rcases hp with rfl | rfl <;> rfl
  refine ⟨hs.published, fun h => ?_, hs.frames, hs.increasing, hs.gapless, fun h => ?_,
    fun h => ?_, fun h => ?_⟩
  · rcases hp with rfl | rfl <;> simp at h
  · exact absurd h (by simp [hdeaf])
  · exact absurd h (by simp [hdeaf])
  · rcases hp with rfl | rfl <;> cases h

/-- The stream goes on; the rows it leaves out have frames or are not wanted. -/
theorem RunReader.Sound.move (hs : s.Sound q v) {p : RunPhase} (hphase : s.phase.listening = true)
    (hreplaying : s.phase ≠ .replaying) (hp : p.listening = true) (hp' : p ≠ .replaying)
    (hrows : p.rows.Sublist s.phase.rows)
    (howed : ∀ e ∈ s.phase.rows, q.Wants v e → e ∈ p.rows ∨ e ∈ s.sent) :
    ({ s with phase := p } : RunReader).Sound q v := by
  have hl := hs.listens hphase
  have hloaded := hs.loaded hphase hreplaying
  obtain ⟨hset, hunfinished⟩ := RunPhase.started hp hp'
  refine ⟨hs.published, fun h => absurd h hset, hs.frames, hs.increasing, hs.gapless,
    fun _ => ⟨hl.buffered, hl.queued, hl.sorted, hl.handled⟩, fun _ _ => ?_,
    fun h => absurd h hunfinished⟩
  refine ⟨hloaded.buffered, hloaded.length, fun e he => hloaded.rows e (hrows.subset he),
    hloaded.sorted.sublist hrows, fun e he hw => ?_⟩
  rcases hloaded.owed e he hw with hin | hin
  · exact howed e hin hw
  · exact .inr hin

/-- The stream goes on with the same rows. -/
theorem RunReader.Sound.step (hs : s.Sound q v) {p : RunPhase} (hphase : s.phase.listening = true)
    (hreplaying : s.phase ≠ .replaying) (hp : p.listening = true) (hp' : p ≠ .replaying)
    (hrows : p.rows = s.phase.rows) : ({ s with phase := p } : RunReader).Sound q v :=
  hs.move hphase hreplaying hp hp' (hrows ▸ List.Sublist.refl _) fun _ he _ => .inl (hrows ▸ he)

/-- The stream ends with its run. -/
theorem RunReader.Sound.finish (hs : s.Sound q v) {n : Nat} (hn : n ≤ v.recorded.length)
    (hall : ∀ e ∈ v.recorded.take n, q.Wants v e → e ∈ s.sent) :
    ({ s with phase := .finished, covered := n } : RunReader).Sound q v := by
  exact ⟨hs.published, by simp, hs.frames, hs.increasing, hs.gapless, nofun, nofun,
    fun _ => ⟨hn, hall⟩⟩

theorem RunReader.Sound.subscribe (hs : s.Sound q v) (hv : v.Kept) (hlog : v.Homed)
    {start : Nat} (h : s.subscribe q v start = some s') : s'.Sound q v := by
  obtain ⟨⟨hphase, hstart⟩, h⟩ := Option.ite_none_right_eq_some.1 h
  obtain rfl := Option.some.inj h
  have hsent : s.sent = [] := hs.unset (.inr (.inl hphase))
  refine ⟨hs.published, fun _ => hsent, hs.frames, hs.increasing, hs.gapless, fun _ => ?_,
    fun _ hne => absurd rfl hne, fun h => by cases h⟩
  refine ⟨hstart, fun e he => ?_, ?_, fun e he hsilent hw => .inl ?_⟩
  · obtain ⟨hmem, hrun⟩ := List.mem_filter.1 he
    simp only [Bool.and_eq_true, decide_eq_true_eq] at hrun
    exact ⟨hmem, hrun.1⟩
  · have horder : ((v.recorded.take s.published).drop start).Pairwise fun e e' =>
        e.SameLog e' → e.sequence < e'.sequence :=
      hv.numbered.order.sublist ((List.drop_sublist _ _).trans (List.take_sublist _ _))
    refine List.Pairwise.imp_of_mem (fun {a b} ha hb hab => ?_) (horder.filter _)
    obtain ⟨ha, hruna⟩ := List.mem_filter.1 ha
    obtain ⟨hb, hrunb⟩ := List.mem_filter.1 hb
    simp only [Bool.and_eq_true, decide_eq_true_eq] at hruna hrunb
    exact hab (hv.sameLog hlog (List.mem_of_mem_take (List.mem_of_mem_drop ha))
      (List.mem_of_mem_take (List.mem_of_mem_drop hb)) hruna.1 hrunb.1)
  · refine List.mem_filter.2 ⟨he, ?_⟩
    simp only [Bool.and_eq_true, decide_eq_true_eq]
    exact ⟨hw.run, hsilent⟩

/-- The window of the fan-out grows by one event. -/
theorem RunReader.Listens.window_succ (hl : s.Listens q v) (hs : s.published ≤ v.recorded.length)
    (he : v.recorded[s.published]? = some e) :
    (v.recorded.take (s.published + 1)).drop s.buffered =
      (v.recorded.take s.published).drop s.buffered ++ [e] := by
  have hle : s.buffered ≤ (v.recorded.take s.published).length := by
    rw [List.length_take, Nat.min_eq_left hs]
    exact hl.buffered
  rw [List.take_add_one, he, List.drop_append_of_le_length hle]
  rfl

theorem RunReader.Sound.deliver (hs : s.Sound q v) (hv : v.Kept) (hlog : v.Homed)
    {message : Bool} (h : s.deliver q v message = some s') : s'.Sound q v := by
  unfold RunReader.deliver at h
  cases hm : v.recorded[s.published]? with
  | none =>
      rw [hm] at h
      cases h
  | some m =>
      rw [hm] at h
      obtain rfl := Option.some.inj h
      have hlt : s.published < v.recorded.length := (List.getElem?_eq_some_iff.1 hm).1
      refine ⟨hlt, hs.unset, hs.frames, hs.increasing, hs.gapless, fun hphase => ?_,
        fun hphase hne => ?_, hs.finished⟩
      · have hl := hs.listens hphase
        have hwindow := hl.window_succ hs.published hm
        refine ⟨hl.buffered.trans (Nat.le_succ _), ?_, ?_, ?_⟩
        · intro e he
          dsimp only at he ⊢
          rw [hwindow]
          split at he
          · next hqueued =>
              rcases List.mem_append.1 he with he | he
              · exact ⟨List.mem_append_left _ (hl.queued e he).1, (hl.queued e he).2⟩
              · obtain rfl := List.mem_singleton.1 he
                simp only [Bool.and_eq_true, decide_eq_true_eq] at hqueued
                exact ⟨List.mem_append_right _ he, hqueued.2⟩
          · exact ⟨List.mem_append_left _ (hl.queued e he).1, (hl.queued e he).2⟩
        · show (if _ then s.queue ++ [m] else s.queue).Pairwise _
          split
          · next hqueued =>
              simp only [Bool.and_eq_true, decide_eq_true_eq] at hqueued
              refine List.pairwise_append.2 ⟨hl.sorted, List.pairwise_singleton _ _,
                fun e he e' he' => ?_⟩
              obtain rfl := List.mem_singleton.1 he'
              obtain ⟨hmem, hrun⟩ := hl.queued e he
              have hlater : e' ∈ v.recorded.drop s.published :=
                List.mem_of_getElem? (i := 0) (by rw [List.getElem?_drop]; exact hm)
              exact hv.lt_of_earlier hlog (List.mem_of_mem_drop hmem) hlater hrun hqueued.2
          · exact hl.sorted
        · intro e he hsilent hw
          dsimp only at he hsilent ⊢
          rw [hwindow] at he
          rcases List.mem_append.1 he with he | he
          · have hunheard : e ∉ s.silent := by
              intro hmem
              refine hsilent ?_
              split
              · exact hmem
              · exact List.mem_append_left _ hmem
            refine (hl.handled e he hunheard hw).imp_left fun hin => ?_
            split
            · exact List.mem_append_left _ hin
            · exact hin
          · obtain rfl := List.mem_singleton.1 he
            cases message with
            | false => exact absurd (List.mem_append_right _ (List.mem_singleton_self e)) hsilent
            | true =>
                have hqueued : (true && s.phase.listening && decide (e.runId = some q.run)) =
                    true := by
                  rw [show s.phase.listening = true from hphase, hw.run]
                  simp
                rw [if_pos hqueued]
                exact .inl (List.mem_append_right _ (List.mem_singleton_self e))
      · have hl := hs.loaded hphase hne
        exact ⟨hl.buffered, hl.length, hl.rows, hl.sorted, hl.owed⟩

/-! ### Reads of the log -/

theorem runReplay_returns {id : RunId} {c : Nat} {run : RunRow} {rows : List RuntimeEventRow}
    (h : (runReplay id c).Returns avail v (some run, rows) v') :
    v.runs.find? id = some run ∧ rows = eventsAfter (inRun id) c v := by
  simp only [runReplay, returns_bind] at h
  obtain ⟨authorized, _, hauthorized, h⟩ := h
  obtain ⟨rfl, hfound⟩ := authorizedRun_returns hauthorized
  cases authorized with
  | none =>
      obtain ⟨heq, -⟩ := returns_ret.1 h
      cases heq
  | some row =>
      have hrow := (hfound row rfl).1
      simp only [returns_bind, returns_lockRunIf, returns_query, Prog.pure_eq, returns_ret] at h
      obtain ⟨found, _, ⟨rfl, ⟨rfl, -⟩ | ⟨-, hskip, -⟩⟩, _, _, ⟨rfl, rfl⟩, heq, rfl⟩ := h
      · obtain ⟨hrun, rfl⟩ := Prod.mk.inj heq
        rw [hrow] at hrun
        exact ⟨hrow.trans hrun.symm, rfl⟩
      · cases hskip

/-- A row that is read. -/
theorem Db.Kept.read_run (hv : v.Kept) {id : RunId} {c : Nat}
    (he : e ∈ eventsAfter (inRun id) c v) :
    e ∈ v.recorded ∧ e.runId = some id ∧ c < e.sequence := by
  obtain ⟨hstored, hrun, hlt⟩ := mem_eventsAfter.1 he
  exact ⟨hv.numbered.events.subset hstored, by simpa [inRun] using hrun, hlt⟩

theorem RunReader.Sound.replay (hs : s.Sound q v) (hv : v.Kept) (hlog : v.Homed)
    (hphase : s.phase = .replaying) {run : RunRow} (hrun : v.runs.find? q.run = some run)
    (hlate : q.late run = false) (hstored : q.cursor = 0 → s.Stored q v) :
    (s.replay q v run (eventsAfter (inRun q.run) q.cursor v)).Sound q v := by
  have hsent : s.sent = [] := hs.unset (.inr (.inr hphase))
  have hl := hs.listens (by rw [hphase]; rfl)
  unfold RunReader.replay
  rw [hlate]
  split
  · exact hs.stop (.inr rfl)
  · next haccepted =>
      rw [if_neg Bool.false_ne_true]
      refine ⟨hs.published, fun h => by simp at h, hs.frames, hs.increasing, hs.gapless,
        fun _ => ⟨hl.buffered, hl.queued, hl.sorted, hl.handled⟩, fun _ _ => ?_,
        fun h => by cases h⟩
      refine ⟨hl.buffered.trans hs.published, le_rfl, fun e he => ?_, hv.sorted_run hlog,
        fun e he hw => .inl ?_⟩
      · obtain ⟨hmem, hid, hlt⟩ := hv.read_run he
        refine ⟨by rwa [List.take_length], hid, hlt, fun p hp => ?_⟩
        rw [show s.sent = [] from hsent] at hp
        cases hp
      · -- without a cursor nothing was pruned, and with one the watermark was checked
        have hmem : e ∈ v.events := by
          rcases Nat.eq_zero_or_pos q.cursor with hzero | hpos
          · refine hstored hzero e hw.recorded hw ?_
            rw [hsent]
            exact List.not_mem_nil
          · refine hv.retained.stored_of_run hw.recorded hw.run hrun ?_ hw.above
            by_contra hlt
            exact haccepted ⟨hpos.ne', Nat.not_le.1 hlt⟩
        exact mem_eventsAfter.2 ⟨hmem, by simp [inRun, hw.run], hw.above⟩

/-- The reload begins above all frames. -/
theorem RunReader.Sound.position_spec (hs : s.Sound q v) :
    q.cursor ≤ s.position q ∧ (∀ p ∈ s.sent, p.sequence ≤ s.position q) ∧
      (s.position q = q.cursor ∨ ∃ p ∈ s.sent, s.position q = p.sequence) := by
  unfold RunReader.position
  split
  · next hempty =>
      refine ⟨le_rfl, fun p hp => ?_, .inl rfl⟩
      rw [hempty] at hp
      cases hp
  · next hsome =>
      have hbelow : ∀ p ∈ s.sent, p.sequence ≤ s.seen.foldr max 0 :=
        fun p hp => Db.le_foldr_max (List.mem_map_of_mem hp)
      have hseen : s.seen ≠ [] := fun hnil => hsome (List.map_eq_nil_iff.1 hnil)
      obtain ⟨p, hp, heq⟩ := List.mem_map.1 (Db.foldr_max_mem hseen)
      exact ⟨heq ▸ (hs.frames p hp).above.le, hbelow, .inr ⟨p, hp, heq.symm⟩⟩

theorem RunReader.Sound.reload (hs : s.Sound q v) (hv : v.Kept) (hlog : v.Homed)
    (hphase : s.phase = .reloading) (hstored : s.Stored q v) :
    ({ s with
        loadedAt := v.recorded.length
        phase := .reemitting (loadEvents q.run (s.position q) v) } : RunReader).Sound q v := by
  have hl := hs.listens (by rw [hphase]; rfl)
  have hloaded := hs.loaded (by rw [hphase]; rfl) (by rw [hphase]; simp)
  obtain ⟨hcursor, hbelow, hreached⟩ := hs.position_spec
  refine ⟨hs.published, fun h => by simp at h, hs.frames, hs.increasing, hs.gapless,
    fun _ => ⟨hl.buffered, hl.queued, hl.sorted, hl.handled⟩, fun _ _ => ?_, fun h => by cases h⟩
  refine ⟨hl.buffered.trans hs.published, le_rfl, fun e he => ?_, hv.sorted_run hlog,
    fun e he hw => ?_⟩
  · obtain ⟨hmem, hid, hlt⟩ := hv.read_run he
    refine ⟨by rwa [List.take_length], hid, hcursor.trans_lt hlt, fun p hp => ?_⟩
    exact (hbelow p hp).trans_lt hlt
  · by_cases hsent : e ∈ s.sent
    · exact .inr hsent
    · refine .inl (mem_eventsAfter.2 ⟨hstored e hw.recorded hw hsent, by simp [inRun, hw.run], ?_⟩)
      -- below the last frame nothing is missing
      rcases hreached with heq | ⟨p, hp, heq⟩
      · rw [heq]
        exact hw.above
      · rw [heq]
        by_contra hle
        rcases Nat.lt_or_eq_of_le (Nat.not_lt.1 hle) with hlt | hseq
        · exact hsent (hs.gapless p hp e hw hlt)
        · have hp' := hs.frames p hp
          have hsame := hv.eq_of_run hlog hw.recorded hp'.recorded hw.run hp'.run hseq
          exact hsent (hsame ▸ hp)

/-! ### Frames of rows and messages -/

/-- One more frame: it is wanted, and no wanted event is missing before it. -/
theorem RunReader.Sound.append_frame (hs : s.Sound q v) (hw : q.Wants v e)
    (hbelow : ∀ p ∈ s.sent, p.sequence < e.sequence)
    (hbefore : ∀ e', q.Wants v e' → e'.sequence < e.sequence → e' ∈ s.sent) :
    (∀ p ∈ s.sent ++ [e], q.Wants v p) ∧
      ((s.sent ++ [e]).map (·.sequence)).Pairwise (· < ·) ∧
      ∀ p ∈ s.sent ++ [e], ∀ e', q.Wants v e' → e'.sequence < p.sequence → e' ∈ s.sent ++ [e] := by
  refine ⟨fun p hp => ?_, ?_, fun p hp e' hw' hlt => List.mem_append_left _ ?_⟩
  · rcases List.mem_append.1 hp with hp | hp
    · exact hs.frames p hp
    · exact List.mem_singleton.1 hp ▸ hw
  · rw [List.map_append, List.pairwise_append]
    refine ⟨hs.increasing, List.pairwise_singleton _ _, fun a ha b hb => ?_⟩
    obtain ⟨p, hp, rfl⟩ := List.mem_map.1 ha
    obtain rfl := List.mem_singleton.1 hb
    exact hbelow p hp
  · rcases List.mem_append.1 hp with hp | hp
    · exact hs.gapless p hp e' hw' hlt
    · exact hbefore e' hw' (List.mem_singleton.1 hp ▸ hlt)

/-- The row at the head gets its frame. -/
theorem RunReader.Sound.send_row (hs : s.Sound q v) (hv : v.Kept) (hlog : v.Homed)
    (hphase : s.phase.listening = true) (hreplaying : s.phase ≠ .replaying)
    {row : RuntimeEventRow} {rows : List RuntimeEventRow} (hrows : s.phase.rows = row :: rows)
    (hw : q.Wants v row) {p : RunPhase} (hp : p.listening = true) (hp' : p ≠ .replaying)
    (hnext : p.rows = rows) :
    ({ s with sent := s.sent ++ [row], phase := p } : RunReader).Sound q v := by
  have hl := hs.listens hphase
  have hloaded := hs.loaded hphase hreplaying
  obtain ⟨hset, hunfinished⟩ := RunPhase.started hp hp'
  have hsorted := hloaded.sorted
  rw [hrows, List.pairwise_cons] at hsorted
  obtain ⟨hmem, hid, -, hbelow⟩ := hloaded.rows row (by rw [hrows]; exact List.mem_cons_self)
  -- a wanted event before the row was committed before it
  have hbefore (e : RuntimeEventRow) (hw : q.Wants v e) (hlt : e.sequence < row.sequence) :
      e ∈ s.sent := by
    have hearlier := hv.earlier_of_lt hlog hw.recorded hmem hw.run hid hlt
    refine (hloaded.owed e hearlier hw).resolve_left fun hin => ?_
    rw [hrows] at hin
    rcases List.mem_cons.1 hin with rfl | hlater
    · omega
    · have := hsorted.1 e hlater
      omega
  obtain ⟨hframes, hincreasing, hgapless⟩ := hs.append_frame hw hbelow hbefore
  refine ⟨hs.published, fun h => absurd h hset, hframes, hincreasing, hgapless, fun _ => ?_,
    fun _ _ => ?_, fun h => absurd h hunfinished⟩
  · refine ⟨hl.buffered, hl.queued, hl.sorted, fun e he hsilent hw => ?_⟩
    exact (hl.handled e he hsilent hw).imp_right fun hin => List.mem_append_left _ hin
  · refine ⟨hloaded.buffered, hloaded.length, fun e he => ?_, ?_, fun e he hw => ?_⟩
    · have he' : e ∈ rows := hnext ▸ he
      obtain ⟨hearlier, hrun, hlt, hover⟩ :=
        hloaded.rows e (by rw [hrows]; exact List.mem_cons_of_mem _ he')
      refine ⟨hearlier, hrun, hlt, fun p hp => ?_⟩
      rcases List.mem_append.1 hp with hp | hp
      · exact hover p hp
      · exact List.mem_singleton.1 hp ▸ hsorted.1 e he'
    · show p.rows.Pairwise _
      rw [hnext]
      exact hsorted.2
    · show e ∈ p.rows ∨ e ∈ s.sent ++ [row]
      rw [hnext]
      rcases hloaded.owed e he hw with hin | hin
      · rw [hrows] at hin
        rcases List.mem_cons.1 hin with rfl | hin
        · exact .inr (List.mem_append_right _ (List.mem_singleton_self e))
        · exact .inl hin
      · exact .inr (List.mem_append_left _ hin)

/-- The row at the head gets its frame, has none, or raises. -/
theorem RunReader.Sound.emit_row (hs : s.Sound q v) (hv : v.Kept) (hlog : v.Homed)
    (hphase : s.phase.listening = true) (hreplaying : s.phase ≠ .replaying)
    {row : RuntimeEventRow} {rows : List RuntimeEventRow} (hrows : s.phase.rows = row :: rows)
    {p : RunPhase} (hp : p.listening = true) (hp' : p ≠ .replaying) (hnext : p.rows = rows) :
    (s.emitRow q now row p).Sound q v := by
  obtain ⟨hmem, hid, habove, hbelow⟩ :=
    (hs.loaded hphase hreplaying).rows row (by rw [hrows]; exact List.mem_cons_self)
  have hfresh : s.fresh q row = true := by
    simp only [RunReader.fresh, Bool.and_eq_true, decide_eq_true_eq]
    refine ⟨habove, fun hseen => ?_⟩
    obtain ⟨p, hp, heq⟩ := List.mem_map.1 hseen
    have := hbelow p hp
    omega
  unfold RunReader.emitRow
  rw [RunReader.emit_row]
  cases hrender : q.rendering (eventEnvelope "" row) with
  | error message => exact hs.stop (.inl rfl)
  | ok renders =>
      show RunReader.Sound q v { s.pass q row renders with phase := p }
      cases renders with
      | false =>
          rw [RunReader.pass_false]
          refine hs.move hphase hreplaying hp hp' ?_ fun e he hw => .inl ?_
          · rw [hrows, hnext]
            exact List.sublist_cons_self row rows
          · rw [hrows] at he
            rw [hnext]
            refine (List.mem_cons.1 he).resolve_left fun heq => ?_
            rw [← heq, hw.renders] at hrender
            cases hrender
      | true =>
          rw [RunReader.pass_true hfresh]
          exact hs.send_row hv hlog hphase hreplaying hrows
            ⟨List.mem_of_mem_take hmem, hid, habove, hrender⟩ hp hp' hnext

/-- Nothing wanted is missing before a message that counts. -/
theorem RunReader.Sound.before_message (hs : s.Sound q v) (hv : v.Kept) (hlog : v.Homed)
    (hphase : s.phase = .live) {m : RuntimeEventRow} {queue : List RuntimeEventRow}
    (hqueue : s.queue = m :: queue)
    (hsilent : ∀ e ∈ s.silent, q.Wants v e → e.sequence < m.sequence → e ∈ s.sent)
    (hw : q.Wants v e) (hlt : e.sequence < m.sequence) : e ∈ s.sent := by
  have hl := hs.listens (by rw [hphase]; rfl)
  have hloaded := hs.loaded (by rw [hphase]; rfl) (by rw [hphase]; simp)
  have hrows : s.phase.rows = [] := by rw [hphase]; rfl
  obtain ⟨hmem, hid⟩ := hl.queued m (by rw [hqueue]; exact List.mem_cons_self)
  have hsorted := hl.sorted
  rw [hqueue, List.pairwise_cons] at hsorted
  have hearlier := hv.earlier_of_lt hlog hw.recorded (List.mem_of_mem_drop hmem) hw.run hid hlt
  rw [← List.take_append_drop s.buffered (v.recorded.take s.published)] at hearlier
  rcases List.mem_append.1 hearlier with hbefore | hwindow
  · -- the replay came after the events that the buffer had no more
    have hloadedAt : e ∈ v.recorded.take s.loadedAt := by
      rw [List.take_take, Nat.min_eq_left hl.buffered] at hbefore
      exact List.take_subset_take_left _ hloaded.buffered hbefore
    refine (hloaded.owed e hloadedAt hw).resolve_left fun hin => ?_
    rw [hrows] at hin
    cases hin
  · by_cases hheard : e ∈ s.silent
    · exact hsilent e hheard hw hlt
    · refine (hl.handled e hwindow hheard hw).resolve_left fun hin => ?_
      rw [hqueue] at hin
      rcases List.mem_cons.1 hin with rfl | hin
      · omega
      · have := hsorted.1 e hin
        omega

/-- A message that is no news leaves the frames as they are. -/
theorem RunReader.Sound.skip_message (hs : s.Sound q v) {m : RuntimeEventRow}
    {queue : List RuntimeEventRow} (hphase : s.phase = .live) (hqueue : s.queue = m :: queue)
    (hnews : q.Wants v m → m ∈ s.sent) : ({ s with queue := queue } : RunReader).Sound q v := by
  have hl := hs.listens (by rw [hphase]; rfl)
  have hsorted := hl.sorted
  rw [hqueue, List.pairwise_cons] at hsorted
  refine ⟨hs.published, hs.unset, hs.frames, hs.increasing, hs.gapless, fun _ => ?_,
    fun h h' => ?_, hs.finished⟩
  · refine ⟨hl.buffered, fun e he => hl.queued e ?_, hsorted.2, fun e he hsilent hw => ?_⟩
    · rw [hqueue]
      exact List.mem_cons_of_mem _ he
    · rcases hl.handled e he hsilent hw with hin | hin
      · rw [hqueue] at hin
        rcases List.mem_cons.1 hin with rfl | hin
        · exact .inr (hnews hw)
        · exact .inl hin
      · exact .inr hin
  · have hloaded := hs.loaded h h'
    exact ⟨hloaded.buffered, hloaded.length, hloaded.rows, hloaded.sorted, hloaded.owed⟩

/-- A message gets its frame. -/
theorem RunReader.Sound.send_message (hs : s.Sound q v) {m : RuntimeEventRow}
    {queue : List RuntimeEventRow} (hphase : s.phase = .live) (hqueue : s.queue = m :: queue)
    (hw : q.Wants v m) (hbelow : ∀ p ∈ s.sent, p.sequence < m.sequence)
    (hbefore : ∀ e, q.Wants v e → e.sequence < m.sequence → e ∈ s.sent) :
    ({ s with queue := queue, sent := s.sent ++ [m] } : RunReader).Sound q v := by
  have hl := hs.listens (by rw [hphase]; rfl)
  have hloaded := hs.loaded (by rw [hphase]; rfl) (by rw [hphase]; simp)
  have hrows : s.phase.rows = [] := by rw [hphase]; rfl
  have hsorted := hl.sorted
  rw [hqueue, List.pairwise_cons] at hsorted
  obtain ⟨hframes, hincreasing, hgapless⟩ := hs.append_frame hw hbelow hbefore
  refine ⟨hs.published, fun h => by simp [hphase] at h, hframes, hincreasing, hgapless, fun _ => ?_,
    fun _ _ => ?_, fun h => by simp [hphase] at h⟩
  · refine ⟨hl.buffered, fun e he => hl.queued e ?_, hsorted.2, fun e he hsilent hw => ?_⟩
    · rw [hqueue]
      exact List.mem_cons_of_mem _ he
    · rcases hl.handled e he hsilent hw with hin | hin
      · rw [hqueue] at hin
        rcases List.mem_cons.1 hin with rfl | hin
        · exact .inr (List.mem_append_right _ (List.mem_singleton_self e))
        · exact .inl hin
      · exact .inr (List.mem_append_left _ hin)
  · refine ⟨hloaded.buffered, hloaded.length, fun e he => ?_, ?_, fun e he hw => ?_⟩
    · rw [show (RunPhase.rows _) = [] from hrows] at he
      cases he
    · rw [show (RunPhase.rows _) = [] from hrows]
      exact .nil
    · exact (hloaded.owed e he hw).imp_right (List.mem_append_left _)

theorem RunReader.Sound.receive (hs : s.Sound q v) (hv : v.Kept) (hlog : v.Homed)
    (hphase : s.phase = .live) {m : RuntimeEventRow} {queue : List RuntimeEventRow}
    (hqueue : s.queue = m :: queue) (hnamed : m.Named)
    (hsilent : s.counts q m = true → ∀ e ∈ s.silent, q.Wants v e → e.sequence < m.sequence →
      e ∈ s.sent) : ({ s with queue := queue }.receive q v now m).Sound q v := by
  have hl := hs.listens (by rw [hphase]; rfl)
  obtain ⟨hmem, hid⟩ := hl.queued m (by rw [hqueue]; exact List.mem_cons_self)
  have hrecorded : m ∈ v.recorded := List.mem_of_mem_take (List.mem_of_mem_drop hmem)
  have hbefore (hcounts : s.counts q m = true) (e : RuntimeEventRow) (hw : q.Wants v e)
      (hlt : e.sequence < m.sequence) : e ∈ s.sent :=
    hs.before_message hv hlog hphase hqueue (hsilent hcounts) hw hlt
  -- a wanted event that has its number among the frames is one of them
  have hseen (hw : q.Wants v m) (hin : m.sequence ∈ s.seen) : m ∈ s.sent := by
    obtain ⟨p, hp, heq⟩ := List.mem_map.1 hin
    have hp' := hs.frames p hp
    have hsame := hv.eq_of_run hlog hp'.recorded hrecorded hp'.run hid heq
    exact hsame ▸ hp
  -- the end of the run answers for all before it
  have hend (s' : RunReader) (hs' : s'.Sound q v) (hnews : q.Wants v m → m ∈ s'.sent)
      (hold : ∀ e, q.Wants v e → e.sequence < m.sequence → e ∈ s'.sent) :
      ({ s' with
        phase := .finished
        covered := v.recorded.idxOf m + 1 } : RunReader).Sound q v := by
    have hlt : v.recorded.idxOf m < v.recorded.length := List.idxOf_lt_length_of_mem hrecorded
    refine hs'.finish hlt fun e he hw => ?_
    rw [List.take_add_one, List.getElem?_eq_getElem hlt, List.getElem_idxOf hlt] at he
    rcases List.mem_append.1 he with he | he
    · have hlater : m ∈ v.recorded.drop (v.recorded.idxOf m) :=
        List.mem_of_getElem? (i := 0) (by
          rw [List.getElem?_drop, Nat.add_zero, List.getElem?_eq_getElem hlt,
            List.getElem_idxOf hlt])
      exact hold e hw (hv.lt_of_earlier hlog he hlater hw.run hid)
    · obtain rfl : e = m := by simpa using he
      exact hnews hw
  have hnext (s' : RunReader) (hlive : s'.phase = .live) (hs' : s'.Sound q v)
      (hnews : q.Wants v m → m ∈ s'.sent) (hold : m.ends = true → ∀ e, q.Wants v e →
        e.sequence < m.sequence → e ∈ s'.sent) : (s'.handled v m).Sound q v := by
    unfold RunReader.handled
    split
    · next hends => exact hend s' hs' hnews (hold hends)
    · rw [← hlive]
      exact hs'
  have hends (h : m.ends = true) : s.counts q m = true := by
    simp only [RunReader.counts, h, Bool.true_or]
  unfold RunReader.receive
  rw [RunReader.emit_message hnamed]
  cases hrender : q.rendering (eventEnvelope "" m) with
  | error message => exact hs.stop (.inl rfl)
  | ok renders =>
      show RunReader.Sound q v ((RunReader.pass q m { s with queue := queue } renders).handled v m)
      by_cases hsends : (renders && s.fresh q m) = true
      · obtain ⟨rfl, hnew⟩ := (Bool.and_eq_true _ _).mp hsends
        have hcounts : s.counts q m = true := by
          simp only [RunReader.counts, hnew, hrender, Bool.true_and, decide_true, Bool.or_true]
        rw [RunReader.pass_true (s := { s with queue := queue }) hnew]
        simp only [RunReader.fresh, Bool.and_eq_true, decide_eq_true_eq] at hnew
        have hw : q.Wants v m := ⟨hrecorded, hid, hnew.1, hrender⟩
        have hbelow : ∀ p ∈ s.sent, p.sequence < m.sequence := by
          intro p hp
          by_contra hle
          rcases Nat.lt_or_eq_of_le (Nat.not_lt.1 hle) with hlt | heq
          · exact hnew.2 (List.mem_map_of_mem (hs.gapless p hp m hw hlt))
          · exact hnew.2 (List.mem_map.2 ⟨p, hp, heq.symm⟩)
        refine hnext _ hphase (hs.send_message hphase hqueue hw hbelow (hbefore hcounts))
          (fun _ => List.mem_append_right _ (List.mem_singleton_self m)) fun _ e hw hlt => ?_
        exact List.mem_append_left _ (hbefore hcounts e hw hlt)
      · have hnews : q.Wants v m → m ∈ s.sent := by
          intro hw
          rw [hw.renders] at hrender
          obtain rfl := Except.ok.inj hrender
          refine hseen hw ?_
          by_contra hunseen
          refine hsends ?_
          simp only [RunReader.fresh, Bool.true_and, Bool.and_eq_true, decide_eq_true_eq]
          exact ⟨hw.above, hunseen⟩
        have hskip : RunReader.pass q m { s with queue := queue } renders =
            { s with queue := queue } := if_neg hsends
        rw [hskip]
        exact hnext _ hphase (hs.skip_message hphase hqueue hnews) hnews
          fun h => hbefore (hends h)

/-! ### Runs -/

theorem RunReader.Sound.advance (hs : s.Sound q v) (hv : v.Kept) (hlog : v.Homed)
    (hsafe : s.Safe q v .advance) (h : s.advance q avail now v = some s') : s'.Sound q v := by
  unfold RunReader.advance at h
  simp only [RunReader.Safe] at hsafe
  split at h
  · next hphase =>
      split at h
      · next run _ hrun =>
          obtain rfl := Option.some.inj h
          have hsent : s.sent = [] := hs.unset (.inl hphase)
          split
          · exact ⟨hs.published, fun _ => hsent, hs.frames, hs.increasing, hs.gapless, nofun, nofun,
              nofun⟩
          · exact hs.stop (.inl rfl)
      · cases h
  · cases h
  · next hphase =>
      rw [hphase] at hsafe
      split at h
      · next run rows _ hrun =>
          obtain rfl := Option.some.inj h
          obtain ⟨hfound, rfl⟩ := runReplay_returns (run_ok_iff.1 hrun)
          exact hs.replay hv hlog hphase hfound (hsafe.1 run hfound) hsafe.2
      · obtain rfl := Option.some.inj h
        exact hs.stop (.inl rfl)
      · cases h
  · next row rows hphase =>
      obtain rfl := Option.some.inj h
      exact hs.emit_row hv hlog (by rw [hphase]; rfl) (by rw [hphase]; simp)
        (by rw [hphase]; rfl) rfl (by simp) rfl
  · next hphase =>
      obtain rfl := Option.some.inj h
      exact hs.step (by rw [hphase]; rfl) (by rw [hphase]; simp) rfl (by simp)
        (by rw [hphase]; rfl)
  · next hphase =>
      rw [hphase] at hsafe
      split at h
      · next run _ hrun =>
          obtain rfl := Option.some.inj h
          split
          · next hterminal =>
              obtain ⟨-, hfound⟩ := authorizedRun_returns (run_ok_iff.1 hrun)
              have hnone := hsafe ⟨run, (hfound run rfl).1, hterminal⟩
              have hloaded := hs.loaded (by rw [hphase]; rfl) (by rw [hphase]; simp)
              refine hs.finish le_rfl fun e he hw => ?_
              rw [List.take_length, ← List.take_append_drop s.loadedAt v.recorded] at he
              rcases List.mem_append.1 he with he | he
              · refine (hloaded.owed e he hw).resolve_left fun hin => ?_
                rw [hphase] at hin
                cases hin
              · exact absurd hw (hnone e he)
          · exact hs.step (by rw [hphase]; rfl) (by rw [hphase]; simp) rfl (by simp)
              (by rw [hphase]; rfl)
      · obtain rfl := Option.some.inj h
        exact hs.stop (.inl rfl)
      · cases h
  · next hphase =>
      rw [hphase] at hsafe
      split at h
      · cases h
      · next m queue hqueue =>
          obtain rfl := Option.some.inj h
          obtain ⟨hnamed, hsilent⟩ := hsafe m (by rw [hqueue]; rfl)
          exact hs.receive hv hlog hphase hqueue hnamed hsilent
  · next hphase =>
      split at h
      · obtain rfl := Option.some.inj h
        refine hs.step (by rw [hphase]; rfl) (by rw [hphase]; simp) ?_ ?_ ?_
        · split <;> rfl
        · split <;> simp
        · rw [hphase]
          split <;> rfl
      · cases h
  · next hphase =>
      rw [hphase] at hsafe
      obtain rfl := Option.some.inj h
      exact hs.reload hv hlog hphase hsafe
  · next row rows hphase =>
      obtain rfl := Option.some.inj h
      exact hs.emit_row hv hlog (by rw [hphase]; rfl) (by rw [hphase]; simp)
        (by rw [hphase]; rfl) rfl (by simp) rfl
  · next hphase =>
      obtain rfl := Option.some.inj h
      have hloaded := hs.loaded (by rw [hphase]; rfl) (by rw [hphase]; simp)
      refine hs.finish hloaded.length fun e he hw => ?_
      refine (hloaded.owed e he hw).resolve_left fun hin => ?_
      rw [hphase] at hin
      cases hin
  · cases h
  · cases h
  · cases h

theorem RunReader.Sound.start (q : RunRequest) (v : Db) : ({} : RunReader).Sound q v := by
  refine ⟨Nat.zero_le _, fun _ => rfl, ?_, .nil, ?_, ?_, ?_, ?_⟩ <;> simp [RunPhase.listening]

theorem run_reader_inductive (q : RunRequest) :
    q.safely.Inductive fun w => (w.1.Kept ∧ w.1.Homed) ∧ w.2.Sound q w.1 := by
  refine TSys.observe_inductive homed_inductive ?_ ?_ ?_
  · rintro v s - rfl
    exact .start q v
  · intro v l v' s hv hv' _ hstep hs
    exact hs.extends hv'.1 hv'.2 (keeping_extends hstep)
  · intro v s l s' hv hsafe hlook hs
    cases l with
    | advance =>
        obtain ⟨avail, now, hadvance⟩ := hlook
        exact hs.advance hv.1 hv.2 hsafe hadvance
    | subscribe start => exact hs.subscribe hv.1 hv.2 hlook
    | deliver message => exact hs.deliver hv.1 hv.2 hlook
    | timeout =>
        obtain ⟨hphase, rfl⟩ := hlook
        exact hs.step (by rw [hphase]; rfl) (by rw [hphase]; simp) rfl (by simp)
          (by rw [hphase]; rfl)
    | leave =>
        obtain rfl := hlook
        exact hs.stop (.inl rfl)

theorem RunReader.Sound.count_eq_one (hs : s.Sound q v) (he : e ∈ s.sent) :
    s.sent.count e = 1 := by
  refine List.count_eq_one_of_mem ?_ he
  refine (List.pairwise_map.1 hs.increasing).imp fun {a b} hlt heq => ?_
  exact lt_irrefl _ (heq ▸ hlt)

theorem RunReader.Sound.law (hs : s.Sound q v) (hv : v.Kept) (hlog : v.Homed) :
    s.Complete q v where
  wanted := hs.frames
  increasing := hs.increasing
  gapless p hp e hw hle := by
    apply hs.count_eq_one
    rcases Nat.lt_or_eq_of_le hle with hlt | heq
    · exact hs.gapless p hp e hw hlt
    · have hp' := hs.frames p hp
      have hsame := hv.eq_of_run hlog hw.recorded hp'.recorded hw.run hp'.run heq
      exact hsame ▸ hp
  finished hphase e he hw := hs.count_eq_one ((hs.finished hphase).2 e he hw)

/-- A run stream whose steps are safe sends what its client wants in order and without a gap,
and has sent all of it when it ends with its run. -/
theorem run_stream_complete (q : RunRequest) :
    q.safely.Invariant fun w => w.2.Complete q w.1 := by
  intro w hreach
  obtain ⟨⟨hv, hlog⟩, hs⟩ := (run_reader_inductive q).invariant w hreach
  exact hs.law hv hlog

/-! ## Streams that come back -/

/-- The request of a client that comes back with the id of its last frame. -/
def RunRequest.resumed (q : RunRequest) (s : RunReader) : RunRequest :=
  { q with cursor := s.seen.getLast?.getD q.cursor, created := false }

/-- The frames of a client that came back any number of times, and its last stream. A stream
that was left stays as it is while the service goes on. -/
inductive RunRequest.Session (v : Db) : RunRequest → List RuntimeEventRow → RunReader → Prop
  | last {q : RunRequest} {s : RunReader} (h : q.safely.Reachable (v, s)) : Session v q s.sent s
  | resume {q : RunRequest} {s s' : RunReader} {frames : List RuntimeEventRow}
      (h : q.safely.Reachable (v, s)) (hrest : Session v (q.resumed s) frames s') :
      Session v q (s.sent ++ frames) s'

/-- The last frame has the largest number. -/
theorem RunReader.Complete.last_seen (h : s.Complete q v) :
    (∀ p ∈ s.sent, p.sequence ≤ (q.resumed s).cursor) ∧ q.cursor ≤ (q.resumed s).cursor ∧
      ((q.resumed s).cursor = q.cursor ∧ s.sent = [] ∨
        ∃ p ∈ s.sent, (q.resumed s).cursor = p.sequence) := by
  rcases List.eq_nil_or_concat s.sent with hnil | ⟨front, p, hsent⟩
  · have hcursor : (q.resumed s).cursor = q.cursor := by
      simp [RunRequest.resumed, RunReader.seen, hnil]
    exact ⟨by simp [hnil], hcursor.ge, .inl ⟨hcursor, hnil⟩⟩
  · rw [List.concat_eq_append] at hsent
    have hcursor : (q.resumed s).cursor = p.sequence := by
      simp [RunRequest.resumed, RunReader.seen, hsent]
    have hmem : p ∈ s.sent := by
      rw [hsent]
      exact List.mem_append_right _ (List.mem_singleton_self p)
    have hincreasing := h.increasing
    rw [RunReader.seen, hsent, List.map_append, List.pairwise_append] at hincreasing
    refine ⟨fun p' hp' => ?_, ?_, .inr ⟨p, hmem, hcursor⟩⟩
    · rw [hcursor]
      rw [hsent] at hp'
      rcases List.mem_append.1 hp' with hp' | hp'
      · exact (hincreasing.2.2 _ (List.mem_map_of_mem hp') _ (by simp)).le
      · exact (congrArg (·.sequence) (List.mem_singleton.1 hp')).le
    · rw [hcursor]
      exact (h.wanted p hmem).above.le

/-- What a client wants that comes back is what it still wants. -/
theorem RunReader.Complete.wants_resumed (h : s.Complete q v) (hw : q.Wants v e) :
    e ∈ s.sent ∨ (q.resumed s).Wants v e := by
  obtain ⟨-, -, ⟨hcursor, -⟩ | ⟨p, hp, hcursor⟩⟩ := h.last_seen
  · exact .inr ⟨hw.recorded, hw.run, hcursor ▸ hw.above, hw.renders⟩
  · rcases Nat.lt_or_ge p.sequence e.sequence with hlt | hle
    · exact .inr ⟨hw.recorded, hw.run, hcursor ▸ hlt, hw.renders⟩
    · have hcount := h.gapless p hp e hw hle
      exact .inl (List.count_pos_iff.1 (by omega))

/-- The frames before and after a break are complete together. -/
theorem RunReader.Complete.resume {frames : List RuntimeEventRow} (h : s.Complete q v)
    (h' : ({ s' with sent := frames } : RunReader).Complete (q.resumed s) v) :
    ({ s' with sent := s.sent ++ frames } : RunReader).Complete q v := by
  obtain ⟨hbelow, hcursor, -⟩ := h.last_seen
  have habove : ∀ e ∈ frames, (q.resumed s).cursor < e.sequence :=
    fun e he => (h'.wanted e he).above
  have hapart : ∀ e ∈ s.sent, e ∉ frames := by
    intro e he he'
    have := hbelow e he
    have := habove e he'
    omega
  have hcount (e : RuntimeEventRow) (hw : q.Wants v e)
      (hfirst : e ∈ s.sent → s.sent.count e = 1)
      (hrest : (q.resumed s).Wants v e → frames.count e = 1) :
      (s.sent ++ frames).count e = 1 := by
    rw [List.count_append]
    by_cases hmem : e ∈ s.sent
    · rw [hfirst hmem, List.count_eq_zero_of_not_mem (hapart e hmem)]
    · rw [List.count_eq_zero_of_not_mem hmem, hrest ((h.wants_resumed hw).resolve_left hmem)]
  have honce (e : RuntimeEventRow) (he : e ∈ s.sent) : s.sent.count e = 1 :=
    h.gapless e he e (h.wanted e he) le_rfl
  refine ⟨fun e he => ?_, ?_, fun p hp e hw hle => ?_, fun hphase e he hw => ?_⟩
  · rcases List.mem_append.1 he with he | he
    · exact h.wanted e he
    · have hw := h'.wanted e he
      exact ⟨hw.recorded, hw.run, hcursor.trans_lt hw.above, hw.renders⟩
  · show ((s.sent ++ frames).map (·.sequence)).Pairwise (· < ·)
    rw [List.map_append, List.pairwise_append]
    refine ⟨h.increasing, h'.increasing, fun a ha b hb => ?_⟩
    obtain ⟨e, he, rfl⟩ := List.mem_map.1 ha
    obtain ⟨e', he', rfl⟩ := List.mem_map.1 hb
    exact (hbelow e he).trans_lt (habove e' he')
  · refine hcount e hw (honce e) fun hw' => ?_
    rcases List.mem_append.1 hp with hp | hp
    · -- an event up to a frame of the first stream is no event of the second
      have := hbelow p hp
      have := hw'.above
      omega
    · exact h'.gapless p hp e hw' hle
  · exact hcount e hw (honce e) fun hw' => h'.finished hphase e he hw'

/-- However often a client comes back, all its frames together are those of one stream
without a break. -/
theorem run_sessions_complete {frames : List RuntimeEventRow} (h : q.Session v frames s) :
    ({ s with sent := frames } : RunReader).Complete q v := by
  induction h with
  | last h => exact run_stream_complete _ _ h
  | resume h _ ih => exact (run_stream_complete _ _ h).resume ih

/-! ## A break -/

section Decidable

variable (q : RunRequest) (v : Db) (s : RunReader) (e : RuntimeEventRow)

instance RunRequest.decidableWants : Decidable (q.Wants v e) :=
  decidable_of_iff (e ∈ v.recorded ∧ e.runId = some q.run ∧ q.cursor < e.sequence ∧
      q.rendering (eventEnvelope "" e) = .ok true)
    ⟨fun h => ⟨h.1, h.2.1, h.2.2.1, h.2.2.2⟩, fun h => ⟨h.recorded, h.run, h.above, h.renders⟩⟩

instance RunReader.decidableStored : Decidable (s.Stored q v) :=
  inferInstanceAs (Decidable (∀ e ∈ _, _ → _ → _))

instance RuntimeEventRow.decidableNamed : Decidable e.Named := inferInstanceAs (Decidable (_ ∨ _))

/-- The condition of a next step, on the run as it is stored. -/
def RunReader.isSafe : Bool :=
  match s.phase with
  | .replaying => (v.runs.find? q.run).all (fun run => !q.late run) &&
      decide (q.cursor = 0 → s.Stored q v)
  | .settling => !(v.runs.find? q.run).any (·.status.isTerminal) ||
      (v.recorded.drop s.loadedAt).all fun e => !decide (q.Wants v e)
  | .reloading => decide (s.Stored q v)
  | .live => s.queue.head?.all fun e => decide e.Named && (!s.counts q e ||
      s.silent.all fun e' => !decide (q.Wants v e' ∧ e'.sequence < e.sequence) || e' ∈ s.sent)
  | _ => true

end Decidable

theorem RunReader.safe_of_isSafe (h : s.isSafe q v = true) : s.Safe q v .advance := by
  unfold RunReader.isSafe at h
  cases hphase : s.phase with
  | replaying =>
      rw [hphase] at h
      obtain ⟨hlate, hstored⟩ := (Bool.and_eq_true _ _).mp h
      simp only [RunReader.Safe, hphase]
      refine ⟨fun run hrun => ?_, of_decide_eq_true hstored⟩
      rw [hrun, Option.all_some, Bool.not_eq_true'] at hlate
      exact hlate
  | settling =>
      rw [hphase] at h
      simp only [RunReader.Safe, hphase]
      rintro ⟨run, hrun, hterminal⟩ e he hw
      simp only [hrun, Option.any_some, hterminal, Bool.not_true, Bool.false_or, List.all_eq_true,
        Bool.not_eq_true', decide_eq_false_iff_not] at h
      exact h e he hw
  | reloading =>
      rw [hphase] at h
      simp only [RunReader.Safe, hphase]
      exact of_decide_eq_true h
  | live =>
      rw [hphase] at h
      simp only [RunReader.Safe, hphase]
      intro e he
      rw [Option.mem_def] at he
      simp only [he, Option.all_some, Bool.and_eq_true, Bool.or_eq_true, decide_eq_true_eq,
        Bool.not_eq_true', List.all_eq_true, decide_eq_false_iff_not, not_and] at h
      refine ⟨h.1, fun hcounts e' he' hw hlt => ?_⟩
      rcases h.2 with hno | hall
      · rw [hcounts] at hno
        cases hno
      · exact (hall e' he').resolve_left fun hnot => hnot hw hlt
  | _ => simp only [RunReader.Safe, hphase]

/-- Requests one after the other, while no other transaction holds a lock. -/
def commitAll (v : Db) (qs : List Request) : Option Db :=
  TSys.play (fun v q =>
    if Kind.dropRun ∉ q.kinds ∧ Kind.dropThread ∉ q.kinds then
      (q.run unlocked 0 v).map Prod.snd
    else none) v qs

/-- A safe step of the stream. -/
def RunRequest.next (q : RunRequest) (v : Db) (s : RunReader) : RunStreamStep → Option RunReader
  | .advance => if s.isSafe q v then s.advance q unlocked 0 v else none
  | .subscribe start => s.subscribe q v start
  | .deliver message => s.deliver q v message
  | .timeout => if s.phase = .live then some { s with phase := .polling } else none
  | .leave => some { s with phase := .closed }

/-- The stream after these steps, when nothing is committed in between. -/
def RunRequest.follow (q : RunRequest) (v : Db) (s : RunReader) (steps : List RunStreamStep) :
    Option RunReader := TSys.play (q.next v) s steps

theorem RunRequest.starts : q.safely.init (twoThreads, {}) := ⟨Db.fresh_fresh _ _, rfl⟩

theorem RunRequest.reachable_commits {qs : List Request} (hreach : q.safely.Reachable (v, {}))
    (h : commitAll v qs = some v') : q.safely.Reachable (v', {}) := by
  induction qs generalizing v with
  | nil =>
      obtain rfl := Option.some.inj h
      exact hreach
  | cons c qs ih =>
      obtain ⟨v₁, hnext, hrest⟩ := Option.bind_eq_some_iff.1 h
      obtain ⟨hkeeps, hnext⟩ := Option.ite_none_right_eq_some.1 hnext
      obtain ⟨⟨r, v₂⟩, hrun, rfl⟩ := Option.map_eq_some_iff.1 hnext
      have hstep : q.system.step (v, {}) (.inl (⟨0, c⟩, r)) (v₂, {}) :=
        ⟨⟨hkeeps, unlocked, hrun⟩, rfl⟩
      exact ih (hreach.append (.cons ⟨hstep, trivial⟩ .nil)) hrest

theorem RunRequest.next_step {l : RunStreamStep} (h : q.next v s l = some s') :
    q.safely.step (v, s) (.inr l) (v, s') := by
  cases l with
  | advance =>
      obtain ⟨hsafe, hadvance⟩ := Option.ite_none_right_eq_some.1 h
      exact ⟨⟨rfl, unlocked, 0, hadvance⟩, RunReader.safe_of_isSafe hsafe⟩
  | subscribe | deliver => exact ⟨⟨rfl, h⟩, trivial⟩
  | timeout =>
      obtain ⟨hphase, heq⟩ := Option.ite_none_right_eq_some.1 h
      exact ⟨⟨rfl, hphase, (Option.some.inj heq).symm⟩, trivial⟩
  | leave => exact ⟨⟨rfl, (Option.some.inj h).symm⟩, trivial⟩

theorem RunRequest.reachable_follow {steps : List RunStreamStep}
    (hreach : q.safely.Reachable (v, s)) (h : q.follow v s steps = some s') :
    q.safely.Reachable (v, s') := by
  induction steps generalizing s with
  | nil =>
      obtain rfl := Option.some.inj h
      exact hreach
  | cons l steps ih =>
      obtain ⟨s₁, hnext, hrest⟩ := Option.bind_eq_some_iff.1 h
      exact ih (hreach.append (.cons (next_step hnext) .nil)) hrest

/-- The client that made run 1 follows it in version 3. -/
def wholeRun : RunRequest := ⟨1, some 1, 0, true, [], false, "v3"⟩

/-- A resumable run begins and ends. -/
def endedRun : List Request :=
  [.runsCreate .default { submission 1 1 with kwargs := [("stream_resumable", .bool true)] },
    .claim .default "a" true,
    .publish 1 (some 1) [⟨"custom", [("event", .str "custom"), ("data", .num 1)], []⟩],
    .finalizeSuccess 1 (some 1) "a" ⟨.null, []⟩]

/-- The client loses the first stream after a frame; the second one ends with the run. -/
theorem run_sessions_complete_twice : ∃ (v : Db) (s s' : RunReader),
    wholeRun.Session v (s.sent ++ s'.sent) s' ∧
      ({ s' with sent := s.sent ++ s'.sent } : RunReader).Complete wholeRun v ∧
      s'.phase = .finished ∧ s.seen = [1] ∧ s'.seen = [2] := by
  have hfirst : ((commitAll twoThreads endedRun).bind fun v => wholeRun.follow v {}
      [.advance, .subscribe 0, .advance, .advance, .leave]).any (fun s => s.seen = [1]) = true := by
    decide +kernel
  have hsecond : ((commitAll twoThreads endedRun).bind fun v =>
      ({ wholeRun with cursor := 1, created := false } : RunRequest).follow v {}
        [.advance, .subscribe 0, .advance, .advance, .advance, .advance]).any
          (fun s => s.seen = [2] && s.phase = .finished) = true := by
    decide +kernel
  obtain ⟨s, hs, hseen⟩ := (Option.any_eq_true _ _).1 hfirst
  obtain ⟨s', hs', hended⟩ := (Option.any_eq_true _ _).1 hsecond
  obtain ⟨v, hv, hs⟩ := Option.bind_eq_some_iff.1 hs
  obtain ⟨v', hv', hs'⟩ := Option.bind_eq_some_iff.1 hs'
  obtain rfl : v = v' := Option.some.inj (hv.symm.trans hv')
  simp only [Bool.and_eq_true, decide_eq_true_eq] at hseen hended
  have hresumed : wholeRun.resumed s = { wholeRun with cursor := 1, created := false } := by
    simp [RunRequest.resumed, hseen]
  have hcommits (q : RunRequest) : q.safely.Reachable (v, {}) :=
    RunRequest.reachable_commits ⟨[], _, RunRequest.starts, .nil⟩ hv
  have hsession : wholeRun.Session v (s.sent ++ s'.sent) s' := by
    refine .resume (RunRequest.reachable_follow (hcommits _) hs) (.last ?_)
    rw [hresumed]
    exact RunRequest.reachable_follow (hcommits _) hs'
  exact ⟨v, s, s', hsession, run_sessions_complete hsession, hended.2, hseen, hended.1⟩

end GraphHarbor
