import GraphHarbor.LogReader
import GraphHarbor.Protocol
import GraphHarbor.Reaper

/-!
# The protocol event stream

`protocol_event_stream` of `protocol_api.py`: a stream that replays the log of a thread in
pages and then follows the messages of the fan-out. It asks which interrupts are pending
before it subscribes; its queue fills from then on.
-/

namespace GraphHarbor

open Kit Txn

/-! ## The stream -/

/-- The request of an event stream. -/
structure ProtocolRequest where
  thread : ThreadId
  since : Nat
  body : Subscription

/-- The next step of the stream. `count` is `page_count`. -/
inductive ProtocolPhase
  /-- `_thread`. -/
  | opening
  /-- `add_thread_stream`. -/
  | subscribing
  /-- `_load_protocol_events`. -/
  | loading
  /-- `_resumable_run_ids`. -/
  | loaded (page : List RuntimeEventRow)
  | emitting (page : List RuntimeEventRow) (resumable : List RunId) (count : Nat)
  /-- `queue.get()`. -/
  | live
  /-- The request was answered with `cursor_expired`. -/
  | expired
  | closed
  deriving DecidableEq, Repr

/-- An event stream. `published` counts the committed events whose fan-out is over,
`registered` those of them before the subscription, and `subscribedAt` the events committed
before it; `silent` are the events that had no message, `read` the rows of the pages that had
their turn, and `sent` the events of the frames. -/
structure ProtocolReader where
  phase : ProtocolPhase := .opening
  activeInterruptIds : List String := []
  cursor : Nat := 0
  queue : List RuntimeEventRow := []
  sent : List RuntimeEventRow := []
  read : List RuntimeEventRow := []
  silent : List RuntimeEventRow := []
  published : Nat := 0
  registered : Nat := 0
  subscribedAt : Nat := 0

/-- The queue of the stream is registered. -/
def ProtocolPhase.listening : ProtocolPhase → Bool
  | .loading | .loaded _ | .emitting .. | .live => true
  | .opening | .subscribing | .expired | .closed => false

/-- `uid is None or uid in resumable`. -/
def inResumable (resumable : List RunId) (e : RuntimeEventRow) : Bool :=
  match e.runId with
  | none => true
  | some id => id ∈ resumable

/-- A row of a page gets a frame. -/
def ProtocolReader.replays (q : ProtocolRequest) (s : ProtocolReader) (resumable : List RunId)
    (row : RuntimeEventRow) : Bool :=
  inResumable resumable row && row.activeIn s.activeInterruptIds && q.body.selects row

/-- A message of the queue gets a frame. -/
def ProtocolReader.forwards (q : ProtocolRequest) (s : ProtocolReader) (e : RuntimeEventRow) :
    Bool :=
  q.since < e.sequence && e.sequence ∉ s.sent.map (·.sequence) && q.body.selects e

/-- The next step of the stream, on what is committed now. -/
def ProtocolReader.advance (q : ProtocolRequest) (avail : Lock → Bool) (v : Db)
    (s : ProtocolReader) : Option ProtocolReader :=
  match s.phase with
  | .opening =>
      match v.threads.find? q.thread with
      | none => some { s with phase := .closed }
      | some thread => some { s with
          activeInterruptIds := thread.interrupts.map (·.1)
          phase := .subscribing }
  | .subscribing => some { s with
      registered := s.published
      subscribedAt := v.recorded.length
      cursor := q.since
      phase := .loading }
  | .loading =>
      match engine.run avail (replayProtocol q.thread s.cursor) v with
      | some (.ok (.events page), _) =>
          -- `_wire_from_row` of every row
          if page.all fun row => (protocolEvent row).isSome then
            some { s with phase := .loaded page }
          else some { s with phase := .closed }
      | some (.ok .cursorExpired, _) => some { s with phase := .expired }
      | _ => none
  | .loaded page =>
      if page = [] then some { s with phase := .live }
      else
        match resumableRunIds page v with
        | none => some { s with phase := .closed }
        | some resumable => some { s with phase := .emitting page resumable page.length }
  | .emitting (row :: page) resumable count => some { s with
      cursor := max s.cursor row.sequence
      sent := if s.replays q resumable row then s.sent ++ [row] else s.sent
      read := s.read ++ [row]
      phase := .emitting page resumable count }
  | .emitting [] _ count => some { s with
      phase := if count < protocolReplayPageSize then .live else .loading }
  | .live =>
      match s.queue with
      | [] => none
      | e :: queue => some { s with
          queue := queue
          sent := if s.forwards q e then s.sent ++ [e] else s.sent }
  | .expired | .closed => none

/-- The fan-out of the next committed event. Some events have no message: those of the
reaper, and those of no run. -/
def ProtocolReader.deliver (q : ProtocolRequest) (v : Db) (s : ProtocolReader) (message : Bool) :
    Option ProtocolReader :=
  match v.recorded[s.published]? with
  | none => none
  | some e =>
      let queued := s.phase.listening && e.threadId = some q.thread && (protocolEvent e).isSome
      some { s with
        published := s.published + 1
        silent := if message then s.silent else s.silent ++ [e]
        queue := if message && queued then s.queue ++ [e] else s.queue }

/-- The stream advances, or ends: it times out, the client leaves or loses its authorisation,
or an error is raised. -/
inductive ProtocolStep
  | advance
  | deliver (message : Bool)
  | leave
  deriving DecidableEq, Repr

def ProtocolReader.look (q : ProtocolRequest) (v : Db) (s : ProtocolReader) (l : ProtocolStep)
    (s' : ProtocolReader) : Prop :=
  match l with
  | .advance => ∃ avail, s.advance q avail v = some s'
  | .deliver message => s.deliver q v message = some s'
  | .leave => s' = { s with phase := .closed }

/-- An event stream beside the service. The messages come in the order of the commits. -/
def ProtocolRequest.system (q : ProtocolRequest) :
    TSys (Db × ProtocolReader) (Timed × Except Err Reply ⊕ ProtocolStep) :=
  keeping.observe (fun s => s = {}) (ProtocolReader.look q)

/-! ## What a stream owes its client -/

/-- The event is of the thread, follows `since` and matches the filters. -/
structure ProtocolRequest.Selects (q : ProtocolRequest) (e : RuntimeEventRow) : Prop where
  thread : e.threadId = some q.thread
  above : q.since < e.sequence
  selects : q.body.selects e = true

/-- A selected event that is replayable or was committed after the subscription, and is no
request of an interrupt that is not pending. -/
structure ProtocolRequest.Wants (q : ProtocolRequest) (v : Db) (subscribedAt : Nat)
    (e : RuntimeEventRow) : Prop where
  recorded : e ∈ v.recorded
  selected : q.Selects e
  covered : v.replayable e = true ∨ v.Since subscribedAt e
  pending : e.activeIn (interruptIds q.thread v) = true

/-- The frames come in the order of their numbers. While the stream has not ended, no
wanted event is missing before a frame, and none at all once every message is handled. -/
structure ProtocolReader.Complete (q : ProtocolRequest) (v : Db) (s : ProtocolReader) : Prop where
  increasing : (s.sent.map (·.sequence)).Pairwise (· < ·)
  gapless : s.phase.listening = true → ∀ p ∈ s.sent, ∀ e, q.Wants v s.subscribedAt e →
    e.sequence ≤ p.sequence → s.sent.count e = 1
  all : s.phase = .live → s.queue = [] → s.published = v.recorded.length →
    ∀ e, q.Wants v s.subscribedAt e → s.sent.count e = 1

/-! ## When it pays -/

/-- The event has a message for the queue: its fan-out is not over at the subscription. -/
def ProtocolReader.Coming (v : Db) (s : ProtocolReader) (e : RuntimeEventRow) : Prop :=
  e ∈ v.recorded.drop s.registered ∧ e ∉ s.silent

/-- A page that does not check a watermark: a wanted event that was pruned comes as a
message. -/
def ProtocolReader.Unpruned (q : ProtocolRequest) (v : Db) (s : ProtocolReader) : Prop :=
  ∀ e ∈ v.recorded, q.Wants v s.subscribedAt e → e ∈ v.events ∨ s.Coming v e

/-- A page had the row of the event, which the replay leaves out neither for its run nor for
its interrupt. -/
def ProtocolReader.Replayed (v : Db) (s : ProtocolReader) (e : RuntimeEventRow) : Prop :=
  e ∈ s.read ∧ v.replayable e = true ∧ e.activeIn s.activeInterruptIds = true

/-- The selected events before a row that also come as messages were replayed. -/
def ProtocolReader.InTurn (q : ProtocolRequest) (v : Db) (s : ProtocolReader)
    (row : RuntimeEventRow) : Prop :=
  ∀ e ∈ v.recorded, s.Coming v e → q.Selects e → e.sequence < row.sequence → s.Replayed v e

/-- A wanted row of a run that is not resumable, or of an interrupt that was not pending at
first, comes as a message. -/
def ProtocolReader.Dismissible (q : ProtocolRequest) (v : Db) (s : ProtocolReader)
    (row : RuntimeEventRow) : Prop :=
  v.replayable row = false ∨ row.activeIn s.activeInterruptIds = false →
    q.Wants v s.subscribedAt row →
    s.Coming v row

def ProtocolPhase.rows : ProtocolPhase → List RuntimeEventRow
  | .loaded page | .emitting page _ _ => page
  | _ => []

/-- No page follows. -/
def ProtocolPhase.last : ProtocolPhase → Bool
  | .loaded page => page.length < protocolReplayPageSize
  | .emitting _ _ count => count < protocolReplayPageSize
  | .live => true
  | _ => false

/-- The replay still comes to the event. -/
def ProtocolReader.Ahead (s : ProtocolReader) (e : RuntimeEventRow) : Prop :=
  s.cursor < e.sequence ∧
    (e ∈ s.phase.rows ∨ s.phase.last = false ∧ ∀ r ∈ s.phase.rows, r.sequence < e.sequence)

/-- The condition of a step of the stream. -/
def ProtocolReader.Safe (q : ProtocolRequest) (v : Db) (s : ProtocolReader) :
    ProtocolStep → Prop
  | .leave => True
  | .deliver message => message = false → s.phase.listening = true →
      ∀ e, v.recorded[s.published]? = some e → q.Wants v s.subscribedAt e →
        s.Replayed v e ∨ s.Ahead e
  | .advance =>
      match s.phase with
      | .loading => s.cursor = 0 → s.Unpruned q v
      | .emitting (row :: _) resumable _ =>
          if s.replays q resumable row then s.InTurn q v row else s.Dismissible q v row
      | _ => True

/-- The condition of a step of the service: no interrupt becomes pending whose request was
committed before, was not replayed and comes in no message. -/
def ProtocolReader.Settles (q : ProtocolRequest) (v : Db) (s : ProtocolReader)
    (l : Timed × Except Err Reply) : Prop :=
  s.phase.listening = true → ∀ v', keeping.step v l v' → ∀ e ∈ v.recorded, q.Selects e →
    ¬s.Coming v e → ¬s.Replayed v e → e.activeIn (interruptIds q.thread v') = true →
      e.activeIn (interruptIds q.thread v) = true

def ProtocolRequest.Safe (q : ProtocolRequest) (w : Db × ProtocolReader) :
    Timed × Except Err Reply ⊕ ProtocolStep → Prop
  | .inl l => w.2.Settles q w.1 l
  | .inr l => w.2.Safe q w.1 l

/-- The stream beside the service, in runs whose steps are all safe. -/
def ProtocolRequest.safely (q : ProtocolRequest) :
    TSys (Db × ProtocolReader) (Timed × Except Err Reply ⊕ ProtocolStep) :=
  q.system.restrict q.Safe

/-! ## The invariant -/

/-- A wanted event without a frame that comes in no message. -/
def ProtocolReader.Owes (q : ProtocolRequest) (v : Db) (s : ProtocolReader)
    (e : RuntimeEventRow) : Prop :=
  q.Wants v s.subscribedAt e ∧ e ∉ s.sent ∧ ¬s.Coming v e

/-- What holds while the queue is registered. -/
structure ProtocolReader.Listens (q : ProtocolRequest) (v : Db) (s : ProtocolReader) : Prop where
  registered : s.registered ≤ s.published
  subscribed : s.registered ≤ s.subscribedAt
  subscribedAt : s.subscribedAt ≤ v.recorded.length
  /-- The cursor is `since`, or the number of an event. -/
  since : q.since ≤ s.cursor
  anchored : s.cursor = q.since ∨ ∃ e ∈ v.recorded, e.threadId = some q.thread ∧
    s.cursor ≤ e.sequence
  /-- The queue holds the messages that are not handled yet. -/
  queued : ∀ e ∈ s.queue, e ∈ (v.recorded.take s.published).drop s.registered ∧ e ∉ s.silent ∧
    e.threadId = some q.thread
  sorted : s.queue.Pairwise fun a b => a.sequence < b.sequence
  handled : ∀ e ∈ (v.recorded.take s.published).drop s.registered, e ∉ s.silent → q.Selects e →
    e ∈ s.queue ∨ e ∈ s.sent
  /-- The frames of pages are at or below the cursor, and no message is overtaken. -/
  paged : s.phase ≠ .live → ∀ e ∈ s.sent, e.sequence ≤ s.cursor
  order : ∀ p ∈ s.sent, ∀ e ∈ v.recorded, s.Coming v e → q.Selects e →
    e.sequence < p.sequence → e ∈ s.sent
  /-- The rows of the page, with all that is owed up to them. -/
  owed : ∀ e, s.Owes q v e → s.cursor < e.sequence
  rows : ∀ e ∈ s.phase.rows, e ∈ v.recorded ∧ e.threadId = some q.thread ∧ s.cursor < e.sequence
  rowsSorted : s.phase.rows.Pairwise fun a b => a.sequence < b.sequence
  gapless : ∀ r ∈ s.phase.rows, ∀ e, s.Owes q v e → e.sequence ≤ r.sequence → e ∈ s.phase.rows
  complete : s.phase.last = true → ∀ e, s.Owes q v e → e ∈ s.phase.rows
  filter : ∀ page ids n, s.phase = .emitting page ids n → ∀ e ∈ page,
    inResumable ids e = v.replayable e

structure ProtocolReader.Sound (q : ProtocolRequest) (v : Db) (s : ProtocolReader) : Prop where
  published : s.published ≤ v.recorded.length
  silent : ∀ e ∈ s.silent, e ∈ v.recorded.take s.published
  unset : s.phase = .opening ∨ s.phase = .subscribing →
    s.sent = [] ∧ s.read = [] ∧ s.queue = []
  frames : ∀ e ∈ s.sent, e ∈ v.recorded ∧ q.Selects e
  read : ∀ e ∈ s.read, e ∈ v.recorded ∧ (q.Selects e → s.Replayed v e → e ∈ s.sent)
  increasing : (s.sent.map (·.sequence)).Pairwise (· < ·)
  listens : s.phase.listening = true → s.Listens q v

variable {q : ProtocolRequest} {v v' : Db} {s s' : ProtocolReader} {e : RuntimeEventRow}
  {avail : Lock → Bool}

/-! ### Commits -/

theorem ProtocolReader.coming_of_extends (h : v.Extends v') (hn : s.registered ≤ v.recorded.length)
    (hcoming : s.Coming v e) : s.Coming v' e :=
  ⟨Db.Since.of_extends hcoming.1 h hn, hcoming.2⟩

/-- A step that settles makes nothing owed that was not owed before. -/
theorem ProtocolReader.Sound.owes_of_extends {l : Timed × Except Err Reply} (hs : s.Sound q v)
    (hv : v.Kept) (hv' : v'.Kept) (hphase : s.phase.listening = true)
    (hstep : keeping.step v l v') (hsettles : s.Settles q v l) (howes : s.Owes q v' e) :
    s.Owes q v e := by
  have h := keeping_extends hstep
  have hl := hs.listens hphase
  have hle : s.registered ≤ v.recorded.length := hl.subscribed.trans hl.subscribedAt
  obtain ⟨hwants, hunsent, hsilent⟩ := howes
  -- a new event has a message to come
  have hold : e ∈ v.recorded := by
    by_contra hnew
    refine hsilent ⟨Db.since_of_new h hle hwants.recorded hnew, fun hmem => ?_⟩
    exact hnew (List.mem_of_mem_take (hs.silent e hmem))
  refine ⟨⟨hold, hwants.selected, ?_, ?_⟩, hunsent, fun hcoming => ?_⟩
  · refine hwants.covered.imp (fun hreplay => ?_) fun hsince => ?_
    · rwa [hv.replayable_eq h hold] at hreplay
    · exact (hv'.since_of_extends h hl.subscribedAt hsince).resolve_right fun hnew => hnew hold
  · refine hsettles hphase v' hstep e hold hwants.selected
      (fun hcoming => hsilent (coming_of_extends h hle hcoming)) (fun hreplayed => ?_)
      hwants.pending
    exact hunsent ((hs.read e hreplayed.1).2 hwants.selected hreplayed)
  · exact hsilent (coming_of_extends h hle hcoming)

theorem ProtocolReader.Sound.extends {l : Timed × Except Err Reply} (hs : s.Sound q v)
    (hv : v.Kept) (hv' : v'.Kept) (hstep : keeping.step v l v') (hsettles : s.Settles q v l) :
    s.Sound q v' := by
  have h := keeping_extends hstep
  have hsub : v.recorded ⊆ v'.recorded := h.recorded.subset
  have htake : v'.recorded.take s.published = v.recorded.take s.published := by
    obtain ⟨new, hnew⟩ := h.recorded
    rw [← hnew, List.take_append_of_le_length hs.published]
  refine ⟨hs.published.trans h.recorded.length_le, htake ▸ hs.silent, hs.unset,
    fun e he => ⟨hsub (hs.frames e he).1, (hs.frames e he).2⟩, fun e he => ?_, hs.increasing,
    fun hphase => ?_⟩
  · obtain ⟨hold, hsent⟩ := hs.read e he
    refine ⟨hsub hold, fun hselects ⟨hread, hreplayable, hactive⟩ => ?_⟩
    rw [hv.replayable_eq h hold] at hreplayable
    exact hsent hselects ⟨hread, hreplayable, hactive⟩
  have hl := hs.listens hphase
  have hle : s.registered ≤ v.recorded.length := hl.subscribed.trans hl.subscribedAt
  have howes : ∀ e, s.Owes q v' e → s.Owes q v e :=
    fun e he => hs.owes_of_extends hv hv' hphase hstep hsettles he
  refine ⟨hl.registered, hl.subscribed, hl.subscribedAt.trans h.recorded.length_le, hl.since, ?_,
    ?_, hl.sorted, ?_, hl.paged, ?_, fun e he => hl.owed e (howes e he), ?_, hl.rowsSorted,
    fun r hr e he => hl.gapless r hr e (howes e he),
    fun hlast e he => hl.complete hlast e (howes e he), ?_⟩
  · exact hl.anchored.imp_right fun ⟨e, he, hrest⟩ => ⟨e, hsub he, hrest⟩
  · rw [htake]
    exact hl.queued
  · rw [htake]
    exact hl.handled
  · intro p hp e he hcoming hselects hlt
    obtain ⟨hmem, hselected⟩ := hs.frames p hp
    by_cases hold : e ∈ v.recorded
    · have hcoming' : s.Coming v e :=
        ⟨(hv'.since_of_extends h hle hcoming.1).resolve_right fun hnew => hnew hold, hcoming.2⟩
      exact hl.order p hp e hold hcoming' hselects hlt
    · have := hv'.above h hmem he hold hselected.thread hselects.thread
      omega
  · intro e he
    obtain ⟨hmem, hrest⟩ := hl.rows e he
    exact ⟨hsub hmem, hrest⟩
  · intro page ids n hemitting e he
    have hmem : e ∈ s.phase.rows := by rw [hemitting]; exact he
    rw [hv.replayable_eq h (hl.rows e hmem).1]
    exact hl.filter page ids n hemitting e he

/-! ### Steps of the stream -/

/-- The stream ends. -/
theorem ProtocolReader.Sound.stop (hs : s.Sound q v) {p : ProtocolPhase}
    (hp : p = .closed ∨ p = .expired) : ({ s with phase := p } : ProtocolReader).Sound q v := by
  refine ⟨hs.published, hs.silent, fun h => ?_, hs.frames, hs.read, hs.increasing,
    fun h => ?_⟩ <;>
    obtain rfl | rfl := hp <;> simp [ProtocolPhase.listening] at h

theorem ProtocolReader.Sound.subscribe (hs : s.Sound q v) (hphase : s.phase = .subscribing) :
    ({ s with
        registered := s.published
        subscribedAt := v.recorded.length
        cursor := q.since
        phase := .loading } : ProtocolReader).Sound q v := by
  obtain ⟨hsent, -, hqueue⟩ := hs.unset (.inr hphase)
  refine ⟨hs.published, hs.silent, fun h => by simp at h, hs.frames, hs.read, hs.increasing,
    fun _ => ?_⟩
  refine ⟨le_rfl, hs.published, le_rfl, le_rfl, .inl rfl, ?_, ?_, ?_, ?_, ?_, ?_, ?_, .nil, ?_, ?_,
    ?_⟩
  · simp [hqueue]
  · simp [hqueue]
  · intro e he
    rw [List.drop_eq_nil_of_le (List.length_take_le _ _)] at he
    cases he
  · simp [hsent]
  · simp [hsent]
  · exact fun e he => he.1.selected.above
  · simp [ProtocolPhase.rows]
  · simp [ProtocolPhase.rows]
  · simp [ProtocolPhase.last]
  · simp

/-- The rows of a page, and what it reads when no watermark is checked. -/
theorem replayProtocol_rows (hv : v.Kept) {t : ThreadId} {c : Nat} {page : List RuntimeEventRow}
    (h : (replayProtocol t c).Returns avail v (.events page) v') :
    page = (eventsAfter (inThread t) c v).take protocolReplayPageSize := by
  simp only [replayProtocol, loadProtocolEvents, returns_bind, returns_lockThread] at h
  obtain ⟨⟨watermark, found⟩, _, ⟨thread, u, ⟨rfl, rfl, -⟩, h₁⟩, h₂⟩ := h
  obtain ⟨hreply, -⟩ := returns_ret.1 h₂
  have hfound : page = found := by
    unfold Replay.check at hreply
    split at hreply
    · cases hreply
    · exact Replay.events.inj hreply
  rw [hfound]
  cases hthread : u.threads.find? t with
  | none =>
      rw [hthread] at h₁
      obtain ⟨heq, -⟩ := returns_ret.1 h₁
      obtain ⟨-, rfl⟩ := Prod.mk.inj heq
      rw [hv.eventsAfter_of_absent hthread, List.take_nil]
  | some th =>
      rw [hthread] at h₁
      simp only [returns_bind, returns_query, Prog.pure_eq, returns_ret] at h₁
      obtain ⟨_, _, ⟨rfl, rfl⟩, heq, -⟩ := h₁
      exact (Prod.mk.inj heq).2

theorem ProtocolReader.Sound.load (hs : s.Sound q v) (hv : v.Kept) (hphase : s.phase = .loading)
    (hsafe : s.cursor = 0 → s.Unpruned q v) {page : List RuntimeEventRow}
    (h : (replayProtocol q.thread s.cursor).Returns avail v (.events page) v') :
    ({ s with phase := .loaded page } : ProtocolReader).Sound q v := by
  refine ⟨hs.published, hs.silent, fun h => by simp at h, hs.frames, hs.read, hs.increasing,
    fun _ => ?_⟩
  have hl := hs.listens (by rw [hphase]; rfl)
  have hpage := replayProtocol_rows hv h
  have hrow : ∀ e ∈ page, e ∈ v.recorded ∧ e.threadId = some q.thread ∧ s.cursor < e.sequence := by
    intro e he
    rw [hpage] at he
    obtain ⟨he, ht, hlt⟩ := mem_eventsAfter.1 (List.mem_of_mem_take he)
    exact ⟨hv.numbered.events.subset he, by simpa [inThread] using ht, hlt⟩
  -- what is owed is in the page, or follows a full one
  have howed : ∀ e, s.Owes q v e → e ∈ page ∨
      page.length = protocolReplayPageSize ∧ ∀ e' ∈ page, e'.sequence ≤ e.sequence := by
    intro e he
    have hlt := hl.owed e he
    obtain ⟨hwants, -, hsilent⟩ := he
    have hrecorded := hwants.recorded
    have hselected := hwants.selected
    rcases Nat.eq_zero_or_pos s.cursor with hzero | hpos
    · have hstored := (hsafe hzero e hrecorded hwants).resolve_right hsilent
      rw [hpage]
      exact mem_page (mem_eventsAfter.2 ⟨hstored, by simp [inThread, hselected.thread], hlt⟩)
    · obtain ⟨-, hreplayed⟩ := replayProtocol_returns hv.retained hpos h
      exact (hreplayed e ⟨hrecorded, hselected.thread, hv.hasRun hrecorded⟩ hlt).2
  refine ⟨hl.registered, hl.subscribed, hl.subscribedAt, hl.since, hl.anchored, hl.queued,
    hl.sorted, hl.handled, fun _ => hl.paged (by rw [hphase]; simp), hl.order, hl.owed, hrow, ?_,
    ?_, ?_, fun _ _ _ h => by simp at h⟩
  · change page.Pairwise _
    rw [hpage]
    exact hv.sorted_eventsAfter.sublist (List.take_sublist _ _)
  · intro r hr e he hle
    obtain hmem | ⟨-, hfull⟩ := howed e he
    · exact hmem
    · obtain ⟨hrecorded, ht, -⟩ := hrow r hr
      obtain rfl := hv.eq_of_sequence he.1.recorded hrecorded he.1.selected.thread ht
        (Nat.le_antisymm hle (hfull r hr))
      exact hr
  · intro hlast e he
    simp only [ProtocolPhase.last, decide_eq_true_eq] at hlast
    exact (howed e he).resolve_right fun hfull => absurd hfull.1 hlast.ne

/-- Phases that look at the same rows, of which the last ones stay the last. -/
theorem ProtocolReader.Listens.move (hl : s.Listens q v) {p : ProtocolPhase}
    (hpaged : p ≠ .live → s.phase ≠ .live) (hrows : p.rows = s.phase.rows)
    (hlast : p.last = true → s.phase.last = true)
    (hfilter : ∀ page ids n, p = .emitting page ids n → ∀ e ∈ page,
      inResumable ids e = v.replayable e) :
    ({ s with phase := p } : ProtocolReader).Listens q v := by
  refine ⟨hl.registered, hl.subscribed, hl.subscribedAt, hl.since, hl.anchored, hl.queued,
    hl.sorted, hl.handled, fun h => hl.paged (hpaged h), hl.order, hl.owed, ?_, ?_, ?_, ?_,
    hfilter⟩
  · rw [hrows]
    exact hl.rows
  · rw [hrows]
    exact hl.rowsSorted
  · rw [hrows]
    exact hl.gapless
  · intro h
    rw [hrows]
    exact hl.complete (hlast h)

theorem ProtocolReader.Sound.move (hs : s.Sound q v) {p : ProtocolPhase}
    (hphase : s.phase.listening = true) (hp : p.listening = true)
    (hpaged : p ≠ .live → s.phase ≠ .live) (hrows : p.rows = s.phase.rows)
    (hlast : p.last = true → s.phase.last = true)
    (hfilter : ∀ page ids n, p = .emitting page ids n → ∀ e ∈ page,
      inResumable ids e = v.replayable e) :
    ({ s with phase := p } : ProtocolReader).Sound q v := by
  refine ⟨hs.published, hs.silent, fun h => ?_, hs.frames, hs.read, hs.increasing,
    fun _ => (hs.listens hphase).move hpaged hrows hlast hfilter⟩
  obtain rfl | rfl := h <;> cases hp

/-- The row at the head of the page gets its frame, or is left out. -/
theorem ProtocolReader.Sound.emit (hs : s.Sound q v) {row : RuntimeEventRow}
    {page : List RuntimeEventRow} {resumable : List RunId} {count : Nat}
    (hphase : s.phase = .emitting (row :: page) resumable count)
    (hsafe : if s.replays q resumable row then s.InTurn q v row else s.Dismissible q v row) :
    ({ s with
        cursor := max s.cursor row.sequence
        sent := if s.replays q resumable row then s.sent ++ [row] else s.sent
        read := s.read ++ [row]
        phase := .emitting page resumable count } : ProtocolReader).Sound q v := by
  have hl := hs.listens (by rw [hphase]; rfl)
  have hrows : s.phase.rows = row :: page := by rw [hphase]; rfl
  have hmem : row ∈ s.phase.rows := by rw [hrows]; exact List.mem_cons_self
  have htail {e : RuntimeEventRow} (he : e ∈ page) : e ∈ s.phase.rows := by
    rw [hrows]
    exact List.mem_cons_of_mem _ he
  obtain ⟨hrecorded, ht, hlt⟩ := hl.rows row hmem
  have hmax : max s.cursor row.sequence = row.sequence := Nat.max_eq_right hlt.le
  have hsorted := hl.rowsSorted
  rw [hrows, List.pairwise_cons] at hsorted
  have hpaged := hl.paged (by rw [hphase]; simp)
  have hselects : s.replays q resumable row = true → q.Selects row := by
    intro hreplays
    simp only [replays, Bool.and_eq_true] at hreplays
    exact ⟨ht, hl.since.trans_lt hlt, hreplays.2⟩
  set sent := if s.replays q resumable row then s.sent ++ [row] else s.sent with hsent
  have hold : ∀ e ∈ s.sent, e ∈ sent := by
    intro e he
    rw [hsent]
    split
    · exact List.mem_append_left _ he
    · exact he
  have hnew : ∀ e ∈ sent, e ∈ s.sent ∨ e = row ∧ s.replays q resumable row = true := by
    intro e he
    rw [hsent] at he
    split at he
    · next hreplays => exact (List.mem_append.1 he).imp_right fun h => ⟨by simpa using h, hreplays⟩
    · exact .inl he
  have howes : ∀ e, ({ s with sent := sent } : ProtocolReader).Owes q v e → s.Owes q v e :=
    fun e he => ⟨he.1, fun h => he.2.1 (hold e h), he.2.2⟩
  -- a row that is left out is not owed
  have hrow : ∀ e, e = row → q.Wants v s.subscribedAt e → e ∉ sent → s.Coming v e := by
    rintro e rfl hwants hunsent
    have hleft : s.replays q resumable e = false := by
      by_contra hreplays
      rw [Bool.not_eq_false] at hreplays
      rw [hsent, if_pos hreplays] at hunsent
      simp at hunsent
    rw [hleft] at hsafe
    refine hsafe ?_ hwants
    simp only [replays, Bool.and_eq_false_iff] at hleft
    rw [← hl.filter _ _ _ hphase e List.mem_cons_self]
    refine hleft.resolve_right fun h => ?_
    rw [hwants.selected.selects] at h
    cases h
  refine ⟨hs.published, hs.silent, fun h => by simp at h, fun e he => ?_, fun e he => ?_, ?_,
    fun _ => ?_⟩
  · obtain he | ⟨rfl, hreplays⟩ := hnew e he
    · exact hs.frames e he
    · exact ⟨hrecorded, hselects hreplays⟩
  · obtain he | he := List.mem_append.1 he
    · refine ⟨(hs.read e he).1, fun hselected hreplayed => ?_⟩
      exact hold e ((hs.read e he).2 hselected ⟨he, hreplayed.2⟩)
    · obtain rfl := List.mem_singleton.1 he
      refine ⟨hrecorded, fun hselected ⟨_, hreplayable, hactive⟩ => ?_⟩
      have hreplays : s.replays q resumable e = true := by
        rw [← hl.filter _ _ _ hphase e List.mem_cons_self] at hreplayable
        simp [replays, hreplayable, hactive, hselected.selects]
      show e ∈ sent
      rw [hsent, if_pos hreplays]
      exact List.mem_append_right _ (List.mem_singleton_self e)
  · show (sent.map (·.sequence)).Pairwise (· < ·)
    rw [hsent]
    split
    · rw [List.map_append, List.pairwise_append]
      refine ⟨hs.increasing, List.pairwise_singleton _ _, fun a ha b hb => ?_⟩
      obtain ⟨e, he, rfl⟩ := List.mem_map.1 ha
      obtain rfl := List.mem_singleton.1 hb
      exact (hpaged e he).trans_lt hlt
    · exact hs.increasing
  refine ⟨hl.registered, hl.subscribed, hl.subscribedAt, hl.since.trans (le_max_left _ _),
    .inr ⟨row, hrecorded, ht, hmax.le⟩, hl.queued, hl.sorted, ?_, fun _ e he => ?_, ?_, ?_, ?_,
    hsorted.2, ?_, ?_, ?_⟩
  · intro e he hmessage hselected
    exact (hl.handled e he hmessage hselected).imp_right (hold e)
  · show e.sequence ≤ max s.cursor row.sequence
    rw [hmax]
    obtain he | ⟨rfl, -⟩ := hnew e he
    · exact (hpaged e he).trans hlt.le
    · exact le_rfl
  · intro p hp e he hcoming hselected hlt'
    obtain hp | ⟨rfl, hreplays⟩ := hnew p hp
    · exact hold e (hl.order p hp e he hcoming hselected hlt')
    · rw [if_pos hreplays] at hsafe
      have hreplayed := hsafe e he hcoming hselected hlt'
      exact hold e ((hs.read e hreplayed.1).2 hselected hreplayed)
  · intro e he
    show max s.cursor row.sequence < e.sequence
    rw [hmax]
    by_contra hle
    have hgap := hl.gapless row hmem e (howes e he) (Nat.not_lt.1 hle)
    rw [hrows] at hgap
    obtain heq | hlater := List.mem_cons.1 hgap
    · exact he.2.2 (hrow e heq he.1 he.2.1)
    · exact hle (hsorted.1 e hlater)
  · intro e he
    obtain ⟨hrec, hthread, -⟩ := hl.rows e (htail he)
    refine ⟨hrec, hthread, ?_⟩
    show max s.cursor row.sequence < e.sequence
    rw [hmax]
    exact hsorted.1 e he
  · intro r hr e he hle
    have hgap := hl.gapless r (htail hr) e (howes e he) hle
    rw [hrows] at hgap
    exact (List.mem_cons.1 hgap).resolve_left fun heq => he.2.2 (hrow e heq he.1 he.2.1)
  · intro hlast e he
    have hall := hl.complete (by rw [hphase]; exact hlast) e (howes e he)
    rw [hrows] at hall
    exact (List.mem_cons.1 hall).resolve_left fun heq => he.2.2 (hrow e heq he.1 he.2.1)
  · intro page' ids n heq e he
    obtain ⟨rfl, rfl, -⟩ := ProtocolPhase.emitting.inj heq
    exact hl.filter _ _ _ hphase e (List.mem_cons_of_mem _ he)

/-! ### Messages -/

/-- What is fanned out from the subscription to now, and what is still to come. -/
theorem ProtocolReader.Sound.window (hs : s.Sound q v) (hl : s.Listens q v) :
    v.recorded.drop s.registered =
      (v.recorded.take s.published).drop s.registered ++ v.recorded.drop s.published := by
  conv_lhs => rw [← List.take_append_drop s.published v.recorded]
  rw [List.drop_append_of_le_length]
  rw [List.length_take, Nat.min_eq_left hs.published]
  exact hl.registered

/-- A message of the queue, which gets a frame or not. -/
theorem ProtocolReader.Sound.forward (hs : s.Sound q v) (hv : v.Kept) (hphase : s.phase = .live)
    {m : RuntimeEventRow} {queue : List RuntimeEventRow} (hqueue : s.queue = m :: queue) :
    ({ s with
        queue := queue
        sent := if s.forwards q m then s.sent ++ [m] else s.sent } : ProtocolReader).Sound q v := by
  have hl := hs.listens (by rw [hphase]; rfl)
  have hsorted := hl.sorted
  rw [hqueue, List.pairwise_cons] at hsorted
  obtain ⟨hmessage, hheard, hthread⟩ := hl.queued m (by rw [hqueue]; exact List.mem_cons_self)
  have hwindow := hs.window hl
  have hcoming : s.Coming v m := by
    refine ⟨?_, hheard⟩
    rw [hwindow]
    exact List.mem_append_left _ hmessage
  have hrecorded : m ∈ v.recorded := List.mem_of_mem_drop hcoming.1
  have hselects : s.forwards q m = true → q.Selects m ∧ ∀ p ∈ s.sent, p.sequence < m.sequence := by
    intro hforwards
    simp only [forwards, Bool.and_eq_true, decide_eq_true_eq] at hforwards
    obtain ⟨⟨hsince, hunseen⟩, hselected⟩ := hforwards
    have hm : q.Selects m := ⟨hthread, hsince, hselected⟩
    refine ⟨hm, fun p hp => ?_⟩
    by_contra hle
    -- a frame with a larger number would have overtaken the message
    rcases Nat.lt_or_eq_of_le (Nat.not_lt.1 hle) with hlt | heq
    · have hsent := hl.order p hp m hrecorded hcoming hm hlt
      exact hunseen (List.mem_map.2 ⟨m, hsent, rfl⟩)
    · exact hunseen (List.mem_map.2 ⟨p, hp, heq.symm⟩)
  set sent := if s.forwards q m then s.sent ++ [m] else s.sent with hsent
  have hold : ∀ e ∈ s.sent, e ∈ sent := by
    intro e he
    rw [hsent]
    split
    · exact List.mem_append_left _ he
    · exact he
  have hnew : ∀ e ∈ sent, e ∈ s.sent ∨ e = m ∧ s.forwards q m = true := by
    intro e he
    rw [hsent] at he
    split at he
    · next hforwards =>
        exact (List.mem_append.1 he).imp_right fun h => ⟨by simpa using h, hforwards⟩
    · exact .inl he
  -- a selected message has its frame now
  have hdone : q.Selects m → m ∈ sent := by
    intro hm
    rw [hsent]
    split
    · exact List.mem_append_right _ (List.mem_singleton_self m)
    · next hforwards =>
        simp only [forwards, Bool.and_eq_true, decide_eq_true_eq, hm.above, hm.selects,
          true_and, and_true, not_not] at hforwards
        obtain ⟨p, hp, heq⟩ := List.mem_map.1 hforwards
        obtain ⟨hprecorded, hpselects⟩ := hs.frames p hp
        exact hv.eq_of_sequence hprecorded hrecorded hpselects.thread hthread heq ▸ hp
  have hhandled : ∀ e ∈ (v.recorded.take s.published).drop s.registered, e ∉ s.silent →
      q.Selects e → e ∈ queue ∨ e ∈ sent := by
    intro e he hsilent hselected
    obtain hin | hin := hl.handled e he hsilent hselected
    · rw [hqueue] at hin
      obtain rfl | hin := List.mem_cons.1 hin
      · exact .inr (hdone hselected)
      · exact .inl hin
    · exact .inr (hold e hin)
  have howes : ∀ e, ({ s with queue := queue, sent := sent } : ProtocolReader).Owes q v e →
      s.Owes q v e := fun e he => ⟨he.1, fun h => he.2.1 (hold e h), he.2.2⟩
  refine ⟨hs.published, hs.silent, fun h => by simp [hphase] at h, fun e he => ?_,
    fun e he => ⟨(hs.read e he).1, fun hselected hreplayed =>
      hold e ((hs.read e he).2 hselected hreplayed)⟩, ?_, fun _ => ?_⟩
  · obtain he | ⟨rfl, hforwards⟩ := hnew e he
    · exact hs.frames e he
    · exact ⟨hrecorded, (hselects hforwards).1⟩
  · show (sent.map (·.sequence)).Pairwise (· < ·)
    rw [hsent]
    split
    · next hforwards =>
        rw [List.map_append, List.pairwise_append]
        refine ⟨hs.increasing, List.pairwise_singleton _ _, fun a ha b hb => ?_⟩
        obtain ⟨e, he, rfl⟩ := List.mem_map.1 ha
        obtain rfl := List.mem_singleton.1 hb
        exact (hselects hforwards).2 e he
    · exact hs.increasing
  refine ⟨hl.registered, hl.subscribed, hl.subscribedAt, hl.since, hl.anchored, fun e he => ?_,
    hsorted.2, hhandled, fun h => absurd hphase h, ?_, fun e he => hl.owed e (howes e he), hl.rows,
    hl.rowsSorted, fun r hr e he => hl.gapless r hr e (howes e he),
    fun hlast e he => hl.complete hlast e (howes e he), hl.filter⟩
  · exact hl.queued e (by rw [hqueue]; exact List.mem_cons_of_mem _ he)
  · intro p hp e he hcoming' hselected hlt
    obtain hp | ⟨rfl, hforwards⟩ := hnew p hp
    · exact hold e (hl.order p hp e he hcoming' hselected hlt)
    · -- the events before a message of the queue were handled
      have hwithin : e ∈ (v.recorded.take s.published).drop s.registered := by
        have hlater := hcoming'.1
        rw [hwindow] at hlater
        refine (List.mem_append.1 hlater).resolve_right fun hlater => ?_
        have horder := hv.numbered.order
        rw [← List.take_append_drop s.published v.recorded, List.pairwise_append] at horder
        have := horder.2.2 p (List.mem_of_mem_drop hmessage) e hlater
          ⟨hselected.thread.trans hthread.symm, fun hnone => by simp [hthread] at hnone⟩
        omega
      refine (hhandled e hwithin hcoming'.2 hselected).resolve_left fun hin => ?_
      have := hsorted.1 e hin
      omega

section Deliver

variable {m : RuntimeEventRow}

/-- The fan-out of one more event. -/
theorem ProtocolReader.Sound.window_succ (hs : s.Sound q v) (hl : s.Listens q v)
    (hm : v.recorded[s.published]? = some m) :
    (v.recorded.take (s.published + 1)).drop s.registered =
      (v.recorded.take s.published).drop s.registered ++ [m] := by
  have hle : s.registered ≤ (v.recorded.take s.published).length := by
    rw [List.length_take, Nat.min_eq_left hs.published]
    exact hl.registered
  rw [List.take_add_one, hm, List.drop_append_of_le_length hle]
  rfl

/-- The next event to be fanned out comes after those that were. -/
theorem Db.Kept.lt_of_taken (hv : v.Kept) {n : Nat} {t : ThreadId} (hm : v.recorded[n]? = some m)
    (he : e ∈ v.recorded.take n) (ht : e.threadId = some t) (hmt : m.threadId = some t) :
    e.sequence < m.sequence := by
  have hsorted := hv.numbered.order.sublist (List.take_sublist (n + 1) v.recorded)
  rw [List.take_add_one, hm] at hsorted
  exact (List.pairwise_append.1 hsorted).2.2 e he m (by simp)
    ⟨hmt.trans ht.symm, fun hnone => by simp [ht] at hnone⟩

theorem Db.Kept.not_mem_taken (hv : v.Kept) {n : Nat} (hm : v.recorded[n]? = some m) :
    m ∉ v.recorded.take n := by
  have hnodup := hv.nodup.sublist (List.take_sublist (n + 1) v.recorded)
  rw [List.take_add_one, hm] at hnodup
  exact fun hmem => List.disjoint_of_nodup_append hnodup hmem (by simp)

theorem ProtocolReader.Sound.deliver_message (hs : s.Sound q v) (hv : v.Kept)
    (hm : v.recorded[s.published]? = some m) :
    ({ s with
        published := s.published + 1
        queue := if s.phase.listening && m.threadId = some q.thread && (protocolEvent m).isSome then
          s.queue ++ [m] else s.queue } : ProtocolReader).Sound q v := by
  have hlt : s.published < v.recorded.length := (List.getElem?_eq_some_iff.1 hm).1
  have hunheard : m ∉ s.silent := fun hmem => hv.not_mem_taken hm (hs.silent m hmem)
  refine ⟨hlt, fun e he => ?_, fun hunset => ?_, hs.frames, hs.read, hs.increasing,
    fun hphase => ?_⟩
  · exact List.take_subset_take_left _ (Nat.le_succ _) (hs.silent e he)
  · obtain ⟨hsent, hread, hqueue⟩ := hs.unset hunset
    have hdeaf : s.phase.listening = false := by
      obtain h | h : s.phase = .opening ∨ s.phase = .subscribing := hunset <;> rw [h] <;> rfl
    exact ⟨hsent, hread, by simp [hdeaf, hqueue]⟩
  have hl := hs.listens hphase
  have hwindow := hs.window_succ hl hm
  refine ⟨hl.registered.trans (Nat.le_succ _), hl.subscribed, hl.subscribedAt, hl.since,
    hl.anchored, ?_, ?_, ?_, hl.paged, hl.order, hl.owed, hl.rows, hl.rowsSorted, hl.gapless,
    hl.complete, hl.filter⟩
  · intro e he
    dsimp only at he ⊢
    rw [hwindow]
    have hin : e ∈ s.queue ∨ e = m ∧ m.threadId = some q.thread := by
      split at he
      · next hqueued =>
          simp only [Bool.and_eq_true, decide_eq_true_eq] at hqueued
          exact (List.mem_append.1 he).imp_right fun h => ⟨by simpa using h, hqueued.1.2⟩
      · exact .inl he
    obtain hin | ⟨rfl, hthread⟩ := hin
    · obtain ⟨hmem, hrest⟩ := hl.queued e hin
      exact ⟨List.mem_append_left _ hmem, hrest⟩
    · exact ⟨List.mem_append_right _ (List.mem_singleton_self e), hunheard, hthread⟩
  · dsimp only
    split
    · next hqueued =>
        simp only [Bool.and_eq_true, decide_eq_true_eq] at hqueued
        refine List.pairwise_append.2 ⟨hl.sorted, List.pairwise_singleton _ _,
          fun e he e' he' => ?_⟩
        obtain rfl := List.mem_singleton.1 he'
        obtain ⟨hmem, -, hthread⟩ := hl.queued e he
        exact hv.lt_of_taken hm (List.mem_of_mem_drop hmem) hthread hqueued.1.2
    · exact hl.sorted
  · intro e he hsilent hselected
    dsimp only at he ⊢
    rw [hwindow] at he
    obtain he | he := List.mem_append.1 he
    · refine (hl.handled e he hsilent hselected).imp_left fun hin => ?_
      split
      · exact List.mem_append_left _ hin
      · exact hin
    · obtain rfl := List.mem_singleton.1 he
      have hwire : (protocolEvent e).isSome = true := by
        obtain ⟨wire, hwire, -⟩ := (Option.any_eq_true _ _).1 hselected.selects
        rw [hwire]
        rfl
      rw [if_pos (by simp [hphase, hselected.thread, hwire])]
      exact .inl (List.mem_append_right _ (List.mem_singleton_self e))

theorem ProtocolReader.Sound.deliver_silent (hs : s.Sound q v) (hv : v.Kept)
    (hm : v.recorded[s.published]? = some m)
    (hsafe : s.phase.listening = true → q.Wants v s.subscribedAt m →
      s.Replayed v m ∨ s.Ahead m) :
    ({ s with published := s.published + 1, silent := s.silent ++ [m] } :
      ProtocolReader).Sound q v := by
  have hlt : s.published < v.recorded.length := (List.getElem?_eq_some_iff.1 hm).1
  refine ⟨hlt, fun e he => ?_, hs.unset, hs.frames, hs.read, hs.increasing, fun hphase => ?_⟩
  · dsimp only
    rw [List.take_add_one, hm]
    obtain he | he := List.mem_append.1 he
    · exact List.mem_append_left _ (hs.silent e he)
    · exact List.mem_append_right _ (by simpa using he)
  have hl := hs.listens hphase
  have hwindow := hs.window_succ hl hm
  -- what is owed now was owed before, or is this event
  have howes : ∀ e, ({ s with silent := s.silent ++ [m] } : ProtocolReader).Owes q v e →
      s.Owes q v e ∨ e = m ∧ s.Ahead e := by
    intro e ⟨hwants, hunsent, hsilent⟩
    by_cases hem : e = m
    · subst hem
      refine .inr ⟨rfl, (hsafe hphase hwants).resolve_left fun hreplayed => hunsent ?_⟩
      exact (hs.read e hreplayed.1).2 hwants.selected hreplayed
    · refine .inl ⟨hwants, hunsent, fun hcoming => hsilent ⟨hcoming.1, fun hmem => ?_⟩⟩
      exact (List.mem_append.1 hmem).elim hcoming.2 fun h => hem (by simpa using h)
  refine ⟨hl.registered.trans (Nat.le_succ _), hl.subscribed, hl.subscribedAt, hl.since,
    hl.anchored, ?_, hl.sorted, ?_, hl.paged, ?_, ?_, hl.rows, hl.rowsSorted, ?_, ?_, hl.filter⟩
  · intro e he
    obtain ⟨hmem, hsilent, hthread⟩ := hl.queued e he
    dsimp only
    rw [hwindow]
    refine ⟨List.mem_append_left _ hmem, fun h => ?_, hthread⟩
    obtain h | h := List.mem_append.1 h
    · exact hsilent h
    · obtain rfl := List.mem_singleton.1 h
      exact hv.not_mem_taken hm (List.mem_of_mem_drop hmem)
  · intro e he hsilent hselected
    dsimp only at he
    rw [hwindow] at he
    obtain he | he := List.mem_append.1 he
    · exact hl.handled e he (fun h => hsilent (List.mem_append_left _ h)) hselected
    · exact absurd (List.mem_append_right _ he) hsilent
  · intro p hp e he hcoming hselected hlt'
    exact hl.order p hp e he ⟨hcoming.1, fun h => hcoming.2 (List.mem_append_left _ h)⟩ hselected
      hlt'
  · intro e he
    obtain he | ⟨-, hahead⟩ := howes e he
    · exact hl.owed e he
    · exact hahead.1
  · intro r hr e he hle
    obtain he | ⟨-, -, hin | ⟨-, hbeyond⟩⟩ := howes e he
    · exact hl.gapless r hr e he hle
    · exact hin
    · exact absurd (hbeyond r hr) (Nat.not_lt.2 hle)
  · intro hlast e he
    obtain he | ⟨-, -, hin | ⟨hmore, -⟩⟩ := howes e he
    · exact hl.complete hlast e he
    · exact hin
    · rw [show s.phase.last = true from hlast] at hmore
      cases hmore

end Deliver

theorem ProtocolReader.Sound.deliver (hs : s.Sound q v) (hv : v.Kept) {message : Bool}
    (hsafe : s.Safe q v (.deliver message)) (h : s.deliver q v message = some s') :
    s'.Sound q v := by
  unfold ProtocolReader.deliver at h
  cases hm : v.recorded[s.published]? with
  | none => simp [hm] at h
  | some m =>
      simp only [hm, Option.some.injEq] at h
      subst h
      cases message with
      | true => exact hs.deliver_message hv hm
      | false => exact hs.deliver_silent hv hm fun hphase => hsafe rfl hphase m hm

theorem ProtocolReader.Sound.advance (hs : s.Sound q v) (hv : v.Kept)
    (hsafe : s.Safe q v .advance) (h : s.advance q avail v = some s') : s'.Sound q v := by
  unfold ProtocolReader.advance at h
  simp only [ProtocolReader.Safe] at hsafe
  split at h
  · next hphase =>
      split at h
      · obtain rfl := Option.some.inj h
        exact hs.stop (.inl rfl)
      · obtain rfl := Option.some.inj h
        have hunset := hs.unset (.inl hphase)
        refine ⟨hs.published, hs.silent, fun _ => hunset, hs.frames, fun e he => ?_,
          hs.increasing, fun h => by simp [ProtocolPhase.listening] at h⟩
        -- the snapshot of the interrupts is taken before any row is read
        rw [hunset.2.1] at he
        cases he
  · next hphase =>
      obtain rfl := Option.some.inj h
      exact hs.subscribe hphase
  · next hphase =>
      rw [hphase] at hsafe
      split at h
      · next page v' hrun =>
          split at h
          · obtain rfl := Option.some.inj h
            exact hs.load hv hphase hsafe (run_ok_iff.1 hrun)
          · obtain rfl := Option.some.inj h
            exact hs.stop (.inl rfl)
      · obtain rfl := Option.some.inj h
        exact hs.stop (.inr rfl)
      · cases h
  · next page hphase =>
      have hlistening : s.phase.listening = true := by rw [hphase]; rfl
      split at h
      · next hempty =>
          obtain rfl := Option.some.inj h
          refine hs.move hlistening rfl (by simp) (by rw [hphase]; exact hempty.symm) (fun _ => ?_)
            (by simp)
          rw [hphase, hempty]
          rfl
      · split at h
        · obtain rfl := Option.some.inj h
          exact hs.stop (.inl rfl)
        · next ids hids =>
            obtain rfl := Option.some.inj h
            refine hs.move hlistening rfl (by rw [hphase]; simp) (by rw [hphase]; rfl)
              (by rw [hphase]; exact id) fun page' ids' n heq e he => ?_
            obtain ⟨rfl, rfl, -⟩ := ProtocolPhase.emitting.inj heq
            cases hid : e.runId with
            | none => simp [inResumable, Db.replayable, hid]
            | some x =>
                have hiff := mem_resumableRunIds hids he hid
                rw [Bool.eq_iff_iff, ← hiff]
                simp [inResumable, hid]
  · next row page resumable count hphase =>
      rw [hphase] at hsafe
      obtain rfl := Option.some.inj h
      exact hs.emit hphase hsafe
  · next resumable count hphase =>
      have hlistening : s.phase.listening = true := by rw [hphase]; rfl
      obtain rfl := Option.some.inj h
      split
      · next hcount =>
          refine hs.move hlistening rfl (by simp) (by rw [hphase]; rfl) (fun _ => ?_) (by simp)
          rw [hphase]
          simpa [ProtocolPhase.last] using hcount
      · exact hs.move hlistening rfl (by rw [hphase]; simp) (by rw [hphase]; rfl)
          (by simp [ProtocolPhase.last]) (by simp)
  · next hphase =>
      split at h
      · cases h
      · next m queue hqueue =>
          obtain rfl := Option.some.inj h
          exact hs.forward hv hphase hqueue
  · cases h
  · cases h

/-! ## The law -/

theorem ProtocolReader.Sound.start (q : ProtocolRequest) (v : Db) :
    ({} : ProtocolReader).Sound q v := by
  refine ⟨Nat.zero_le _, ?_, fun _ => ⟨rfl, rfl, rfl⟩, ?_, ?_, .nil, ?_⟩ <;>
    simp [ProtocolPhase.listening]

theorem protocol_reader_inductive (q : ProtocolRequest) :
    q.safely.Inductive fun w => w.1.Kept ∧ w.2.Sound q w.1 := by
  refine TSys.observe_inductive kept_inductive ?_ ?_ ?_
  · rintro v s - rfl
    exact .start q v
  · intro v l v' s hv hv' hsettles hstep hs
    exact hs.extends hv hv' hstep hsettles
  · intro v s l s' hv hsafe hlook hs
    cases l with
    | advance =>
        obtain ⟨avail, hadvance⟩ := hlook
        exact hs.advance hv hsafe hadvance
    | deliver message => exact hs.deliver hv hsafe hlook
    | leave =>
        obtain rfl := hlook
        exact hs.stop (.inl rfl)

/-- Each event has one frame at most. -/
theorem ProtocolReader.Sound.count_eq_one (hs : s.Sound q v) (he : e ∈ s.sent) :
    s.sent.count e = 1 := by
  refine List.count_eq_one_of_mem ?_ he
  refine (List.pairwise_map.1 hs.increasing).imp fun {a b} hlt heq => ?_
  exact lt_irrefl _ (heq ▸ hlt)

theorem ProtocolReader.Sound.law (hs : s.Sound q v) (hv : v.Kept) : s.Complete q v where
  increasing := hs.increasing
  gapless hphase p hp e he hle := by
    have hl := hs.listens hphase
    apply hs.count_eq_one
    by_contra hunsent
    by_cases hcoming : s.Coming v e
    · rcases Nat.lt_or_eq_of_le hle with hlt | heq
      · exact hunsent (hl.order p hp e he.recorded hcoming he.selected hlt)
      · obtain ⟨hrecorded, hselects⟩ := hs.frames p hp
        obtain rfl := hv.eq_of_sequence he.recorded hrecorded he.selected.thread hselects.thread heq
        exact hunsent hp
    · have howed := hl.owed e ⟨he, hunsent, hcoming⟩
      have hlive : s.phase = .live := by
        by_contra hpaged
        have := hl.paged hpaged p hp
        omega
      have hrow := hl.complete (by rw [hlive]; rfl) e ⟨he, hunsent, hcoming⟩
      rw [hlive] at hrow
      cases hrow
  all hphase hqueue hpublished e he := by
    have hl := hs.listens (by rw [hphase]; rfl)
    apply hs.count_eq_one
    by_contra hunsent
    by_cases hcoming : s.Coming v e
    · have hwindow : e ∈ (v.recorded.take s.published).drop s.registered := by
        rw [hpublished, List.take_length]
        exact hcoming.1
      have hhandled := hl.handled e hwindow hcoming.2 he.selected
      rw [hqueue] at hhandled
      exact hhandled.elim List.not_mem_nil hunsent
    · have hrow := hl.complete (by rw [hphase]; rfl) e ⟨he, hunsent, hcoming⟩
      rw [hphase] at hrow
      cases hrow

/-- An event stream whose steps are safe, beside a service whose steps settle, sends its
frames in order and leaves out none. -/
theorem protocol_stream_complete (q : ProtocolRequest) (w : Db × ProtocolReader)
    (h : q.safely.Reachable w) : w.2.Complete q w.1 := by
  obtain ⟨hv, hs⟩ := (protocol_reader_inductive q).invariant w h
  exact hs.law hv

/-! ## Answers -/

/-- An event that is active among fewer interrupts is active. -/
theorem RuntimeEventRow.activeIn_of_subset {ids ids' : List String} (hsub : ids ⊆ ids')
    (h : e.activeIn ids = true) : e.activeIn ids' = true := by
  simp only [activeIn, Option.all_eq_true] at h ⊢
  intro wire hwire
  have hactive := h wire hwire
  simp only [isActiveProtocolEvent, Bool.or_eq_true, decide_eq_true_eq] at hactive ⊢
  exact hactive.imp_right fun hmem => hsub hmem

/-- An answer makes no interrupt pending. -/
theorem inputRespond_interruptIds {t t' : ThreadId} {interruptId : String} {u : Unit}
    (h : (inputRespond t interruptId).Returns avail v u v') :
    interruptIds t' v' ⊆ interruptIds t' v := by
  simp only [inputRespond, returns_bind, returns_getThread] at h
  obtain ⟨_, w, ⟨rfl, rfl⟩, h⟩ := h
  split at h
  · obtain ⟨-, rfl⟩ := returns_ret.1 h
    exact List.Subset.refl _
  simp only [returns_bind, returns_query] at h
  obtain ⟨_, w, ⟨rfl, rfl⟩, h⟩ := h
  split at h
  · obtain ⟨rfl, -⟩ := returns_assignThread.1 h
    rw [interruptIds, interruptIds, Db.find?_assignThread]
    by_cases ht : t' = t
    · rw [if_pos ht]
      cases w.threads.find? t' with
      | none => exact List.Subset.refl _
      | some thread => exact List.map_subset _ List.filter_sublist.subset
    · rw [if_neg ht]
      exact List.Subset.refl _
  · obtain ⟨-, rfl⟩ := returns_ret.1 h
    exact List.Subset.refl _

/-- So every stream allows an answer at any time. -/
theorem ProtocolReader.answer_settles {l : Timed × Except Err Reply} {t : ThreadId}
    {interruptId : String} (hl : l.1.request = .inputRespond t interruptId) :
    s.Settles q v l := by
  intro _ v' hstep e _ _ _ _ hactive
  rcases keeping_step hstep with rfl | ⟨avail, a, hret⟩
  · exact hactive
  · rw [hl] at hret
    obtain ⟨u, hanswer, -⟩ := replying_returns.1 hret
    exact e.activeIn_of_subset (inputRespond_interruptIds hanswer) hactive

/-! ## An interrupt while subscribing -/

namespace ProtocolReader

variable (q : ProtocolRequest) (v : Db) (s : ProtocolReader) (e : RuntimeEventRow)

instance : Decidable (q.Selects e) :=
  decidable_of_iff (e.threadId = some q.thread ∧ q.since < e.sequence ∧ q.body.selects e = true)
    ⟨fun h => ⟨h.1, h.2.1, h.2.2⟩, fun h => ⟨h.thread, h.above, h.selects⟩⟩

instance (n : Nat) : Decidable (q.Wants v n e) :=
  decidable_of_iff (e ∈ v.recorded ∧ q.Selects e ∧ (v.replayable e = true ∨ v.Since n e) ∧
      e.activeIn (interruptIds q.thread v) = true)
    ⟨fun h => ⟨h.1, h.2.1, h.2.2.1, h.2.2.2⟩,
      fun h => ⟨h.recorded, h.selected, h.covered, h.pending⟩⟩

instance : Decidable (s.Coming v e) := inferInstanceAs (Decidable (_ ∧ _))

instance : Decidable (s.Unpruned q v) := inferInstanceAs (Decidable (∀ e ∈ _, _ → _))

instance : Decidable (s.Replayed v e) := inferInstanceAs (Decidable (_ ∧ _ ∧ _))

instance : Decidable (s.InTurn q v e) :=
  inferInstanceAs (Decidable (∀ e ∈ _, _ → _ → _ → _))

instance : Decidable (s.Dismissible q v e) := inferInstanceAs (Decidable (_ ∨ _ → _ → _))

instance : Decidable (s.Safe q v .advance) :=
  match h : s.phase with
  | .loading => decidable_of_iff (s.cursor = 0 → s.Unpruned q v) (by
      simp [ProtocolReader.Safe, h])
  | .emitting (row :: _) resumable _ => decidable_of_iff
      (if s.replays q resumable row then s.InTurn q v row else s.Dismissible q v row) (by
        simp [ProtocolReader.Safe, h])
  | .emitting [] .. | .opening | .subscribing | .loaded _ | .live | .expired | .closed =>
      isTrue (by simp [ProtocolReader.Safe, h])

end ProtocolReader

/-- No request without a frame can become pending: all interrupts are. -/
def ProtocolReader.calm (q : ProtocolRequest) (v : Db) (s : ProtocolReader) : Bool :=
  !s.phase.listening || v.recorded.all fun e => e.activeIn (interruptIds q.thread v)

theorem ProtocolReader.settles_of_calm {l : Timed × Except Err Reply}
    (h : s.calm q v = true) : s.Settles q v l := by
  intro hphase v' _ e he _ _ _ _
  simp only [calm, hphase, Bool.not_true, Bool.false_or, List.all_eq_true] at h
  exact h e he

def Request.answers : Request → Bool
  | .inputRespond .. => true
  | _ => false

theorem ProtocolReader.settles_of_answers {l : Timed × Except Err Reply}
    (h : l.1.request.answers = true) : s.Settles q v l := by
  unfold Request.answers at h
  split at h
  · next hl => exact answer_settles hl
  · cases h

/-- An input of a script: a request, the next step of the stream, or the next message. -/
inductive ProtocolInput
  | commit (q : Request)
  | advance
  | message

/-- The inputs while no other transaction holds a lock; with `careful` only safe steps. -/
def ProtocolRequest.next (q : ProtocolRequest) (careful : Bool) (w : Db × ProtocolReader) :
    ProtocolInput → Option (Db × ProtocolReader)
  | .commit c =>
      if (Kind.dropRun ∉ c.kinds ∧ Kind.dropThread ∉ c.kinds) ∧
          (careful = true → c.answers = true ∨ w.2.calm q w.1 = true) then
        (c.run unlocked 0 w.1).map fun (_, v) => (v, w.2)
      else none
  | .advance =>
      if careful = true → w.2.Safe q w.1 .advance then
        (w.2.advance q unlocked w.1).map fun s => (w.1, s)
      else none
  | .message => (w.2.deliver q w.1 true).map fun s => (w.1, s)

theorem ProtocolRequest.next_step {careful : Bool} {w w' : Db × ProtocolReader}
    {i : ProtocolInput} (h : q.next careful w i = some w') :
    ∃ l, q.system.step w l w' ∧ (careful = true → q.Safe w l) := by
  cases i with
  | commit c =>
      obtain ⟨⟨hkeeps, hcalm⟩, h⟩ := Option.ite_none_right_eq_some.1 h
      obtain ⟨⟨r, v⟩, hrun, rfl⟩ := Option.map_eq_some_iff.1 h
      refine ⟨.inl (⟨0, c⟩, r), ⟨⟨hkeeps, unlocked, hrun⟩, rfl⟩,
        fun hcareful => ?_⟩
      exact (hcalm hcareful).elim (fun h => ProtocolReader.settles_of_answers h)
        fun h => ProtocolReader.settles_of_calm h
  | advance =>
      obtain ⟨hsafe, h⟩ := Option.ite_none_right_eq_some.1 h
      obtain ⟨s, hs, rfl⟩ := Option.map_eq_some_iff.1 h
      exact ⟨.inr .advance, ⟨rfl, unlocked, hs⟩, hsafe⟩
  | message =>
      obtain ⟨s, hs, rfl⟩ := Option.map_eq_some_iff.1 h
      exact ⟨.inr (.deliver true), ⟨rfl, hs⟩, fun _ htrue => by cases htrue⟩

theorem ProtocolRequest.starts : q.system.init (twoThreads, {}) := ⟨Db.fresh_fresh _ _, rfl⟩

theorem ProtocolRequest.play_safely {inputs : List ProtocolInput}
    {p : Db × ProtocolReader → Bool}
    (h : ((TSys.play (q.next true) (twoThreads, {}) inputs).any p) = true) :
    ∃ w, q.safely.Reachable w ∧ p w = true := by
  refine TSys.play_reachable (fun w i w' hnext => ?_) (starts (q := q)) h
  obtain ⟨l, hstep, hsafe⟩ := next_step hnext
  exact ⟨l, hstep, hsafe rfl⟩

theorem ProtocolRequest.play_system {inputs : List ProtocolInput}
    {p : Db × ProtocolReader → Bool}
    (h : ((TSys.play (q.next false) (twoThreads, {}) inputs).any p) = true) :
    ∃ w, q.system.Reachable w ∧ p w = true := by
  refine TSys.play_reachable (fun w i w' hnext => ?_) (starts (q := q)) h
  obtain ⟨l, hstep, -⟩ := next_step hnext
  exact ⟨l, hstep⟩

/-- A stream of all events of thread 1. -/
def everything : ProtocolRequest := ⟨1, 0, { channels := [.str "*"] }⟩

/-- A resumable run is claimed. -/
def resumableRun : List ProtocolInput :=
  [.commit (.runsCreate .default
      { submission 1 1 with kwargs := [("stream_resumable", .bool true)] }),
    .commit (.claim .default "a" true)]

/-- The run ends with an interrupt, and both events are fanned out. -/
def interruption : List ProtocolInput :=
  [.commit (.finalizeSuccess 1 (some 1) "a" ⟨.null, [⟨"i", .null, []⟩]⟩), .message, .message]

/-- The page with both events, after the subscription. -/
def firstPage : List ProtocolInput := [.advance, .advance, .advance, .advance, .advance]

/-- A stream that is opened after the interrupt sends both events, and ends its page after
the interrupt was answered. -/
theorem protocol_stream_complete_interrupted : ∃ w : Db × ProtocolReader,
    w.2.Complete everything w.1 ∧ w.2.sent.map (·.sequence) = [1, 2] ∧
      interruptIds 1 w.1 = [] := by
  obtain ⟨w, hreach, hsent⟩ := everything.play_safely
    (p := fun w => w.2.sent.map (·.sequence) = [1, 2] ∧ interruptIds 1 w.1 = [])
    (show (TSys.play _ _ (resumableRun ++ interruption ++ [.advance] ++ firstPage ++
      [.commit (.inputRespond 1 "i"), .advance])).any _ = true by decide +kernel)
  exact ⟨w, protocol_stream_complete everything w hreach, of_decide_eq_true hsent⟩

/-- A wanted event is missing before a frame. -/
def ProtocolReader.misses (q : ProtocolRequest) (v : Db) (s : ProtocolReader) : Bool :=
  s.phase.listening && s.sent.any fun p => v.recorded.any fun e =>
    decide (q.Wants v s.subscribedAt e) && e.sequence ≤ p.sequence && e ∉ s.sent

theorem ProtocolReader.not_complete (h : s.misses q v = true) : ¬s.Complete q v := by
  intro hcomplete
  simp only [misses, List.any_eq_true, Bool.and_eq_true, decide_eq_true_eq] at h
  obtain ⟨hphase, p, hp, e, -, ⟨hw, hle⟩, hmissing⟩ := h
  have hcount := hcomplete.gapless hphase p hp e hw hle
  rw [List.count_eq_zero_of_not_mem hmissing] at hcount
  cases hcount

/-- The interrupt is stored after the stream asked for the pending ones and fanned out before
it subscribes: the page leaves the request for an input out, and no message brings it. -/
theorem protocol_stream_loses_interrupt : ∃ w : Db × ProtocolReader,
    everything.system.Reachable w ∧ ¬w.2.Complete everything w.1 := by
  obtain ⟨w, hreach, hmisses⟩ := everything.play_system
    (p := fun w => w.2.misses everything w.1)
    (show (TSys.play _ _ (resumableRun ++ [.advance] ++ interruption ++ firstPage)).any _ = true by
      decide +kernel)
  exact ⟨w, hreach, ProtocolReader.not_complete hmisses⟩

end GraphHarbor
