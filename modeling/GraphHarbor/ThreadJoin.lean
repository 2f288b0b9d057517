import GraphHarbor.StreamIds
import Mathlib.Data.List.Count

/-!
# Joining a thread stream

`join_event_streaming` of `ops.py`: the messages of all runs of a thread are restored from
their streams, sorted by id, and then drained from one queue for each run and one for the
thread. Restored and live copies are told apart by one set of ids, which all runs share.
-/

namespace GraphHarbor

open Kit

/-! ## Messages -/

/-- A message of a run, or of the thread itself, with the number pair of its id. -/
structure StreamMessage (δ : Type) where
  key : Option RunId
  id : Option MessageId
  data : δ
  deriving DecidableEq, Repr

/-- The id as the string it is. -/
def MessageId.text (id : MessageId) : PyStr :=
  (Nat.toDigits 10 id.1).map PyStr.ofChar ++ StreamId.dash ::
    (Nat.toDigits 10 id.2).map PyStr.ofChar

/-- `ms_seq_id_gt(mid, cursor)`; without a cursor every id is after it. -/
def afterCursor (cursor : Option PyStr) (id : MessageId) : Bool :=
  match cursor with
  | none => true
  | some cursor => StreamId.msSeqIdGt id.text cursor

/-- `decode_stream_message`, with `none` for a `ValueError` or a `KeyError`, and what is read
from a payload: whether it is `b"done"`, and whether it passes `_lifecycle_passes`. -/
structure StreamCodec (δ : Type) where
  decode : StreamMessage δ → Option (String × δ)
  done : δ → Bool
  /-- `{"status": "run_done", "run_id": run_id}`. -/
  runDone : RunId → δ
  lifecycle : δ → Bool

variable {δ : Type}

/-- `_make_event_filter`: whether the event is dropped. -/
def StreamCodec.shouldFilter (codec : StreamCodec δ) (modes : List String) (event : String)
    (payload : δ) : Bool :=
  if "run_modes" ∈ modes ∧ event ≠ "state_update" then false
  else if "state_update" ∈ modes ∧ event = "state_update" then false
  else if "lifecycle" ∈ modes ∧ event = "metadata" then codec.lifecycle payload
  else true

/-- The event and the payload that are yielded for a message; `done` on the control channel of
a run becomes a metadata event. `none` is a message that does not decode or is filtered. -/
def StreamCodec.frame (codec : StreamCodec δ) (modes : List String) (m : StreamMessage δ) :
    Option (String × δ) :=
  match codec.decode m with
  | none => none
  | some (event, payload) =>
      let kept (out : String × δ) : Option (String × δ) :=
        if codec.shouldFilter modes out.1 out.2 then none else some out
      if event = "control" ∧ codec.done payload then
        match m.key with
        | some run => kept ("metadata", codec.runDone run)
        -- `_make_done_frame` raises, as the topic of the thread names no run
        | none => none
      else kept (event, payload)

/-! ## The request -/

structure JoinRequest (δ : Type) where
  codec : StreamCodec δ
  modes : List String
  lastEventId : Option PyStr

namespace JoinRequest

def fromBeginning (q : JoinRequest δ) : Bool :=
  q.lastEventId = some [StreamId.dash] || q.lastEventId = some []

def resumeCursor (q : JoinRequest δ) : Option PyStr :=
  if q.fromBeginning then none else q.lastEventId

def restoreCursor (q : JoinRequest δ) : Option PyStr :=
  if q.fromBeginning then some [StreamId.dash] else q.resumeCursor

/-- The message decodes and passes the filter. -/
def passes (q : JoinRequest δ) (m : StreamMessage δ) : Bool := (q.codec.frame q.modes m).isSome

end JoinRequest

/-! ## The stream -/

/-- What is read of a run when its messages are restored: its stream in Redis, the answer of
`XRANGE` (none, if Redis refuses the cursor), and the buffer of the process. -/
structure Reading (δ : Type) where
  runId : RunId
  stream : List (StreamMessage δ)
  rows : Option (List (StreamMessage δ))
  store : List (StreamMessage δ)

/-- The messages with an id after the cursor. -/
def messagesAfter (cursor : Option PyStr) (messages : List (StreamMessage δ)) :
    List (StreamMessage δ) :=
  messages.filter fun m => m.id.any (afterCursor cursor)

/-- `_replay_into_queue`; a message without id is not skipped. -/
def replayInto (cursor : Option PyStr) (messages : List (StreamMessage δ)) :
    List (StreamMessage δ) :=
  messages.filter fun m => m.id.all (afterCursor cursor)

/-- `restore_messages_async`. -/
def Reading.restored (r : Reading δ) (cursor : Option PyStr) : List (StreamMessage δ) :=
  let fromRedis := messagesAfter cursor (r.rows.getD [])
  if fromRedis.isEmpty then messagesAfter cursor r.store else fromRedis

/-- The order of `ms_seq_id_sort_key`; a message without id comes first. -/
def idLe (a b : StreamMessage δ) : Bool :=
  match a.id, b.id with
  | none, _ => true
  | some _, none => false
  | some i, some j => !msSeqIdGt i j

inductive JoinPhase
  | opening | restoring | live
  deriving DecidableEq, Repr

/-- A joined stream. `pending` is the rest of `all_events`, `queues` are the created queues by
their key; `emitted` are the messages of the frames, `known` all that was read or queued.
`added` are the messages added to a stream or fanned out beside that: those in `coming` have
not reached this process yet, those in `missed` reached it while their run had no queue. -/
structure ThreadJoin (δ : Type) where
  phase : JoinPhase := .opening
  pending : List (StreamMessage δ) := []
  queues : Option RunId → Option (List (StreamMessage δ)) := fun _ => none
  emittedIds : List MessageId := []
  emitted : List (StreamMessage δ) := []
  known : List (StreamMessage δ) := []
  added : List (StreamMessage δ) := []
  coming : List (StreamMessage δ) := []
  missed : List (StreamMessage δ) := []

inductive JoinStep (δ : Type)
  /-- `_restore_thread_events` reads the runs and sorts what it restored. -/
  | restore (readings : List (Reading δ))
  /-- The next message of `all_events`. -/
  | take
  /-- `_stream_thread_events_loop` begins. -/
  | live
  /-- A queue of a run is created, and its buffer replayed, or the queue of the thread. -/
  | subscribe (key : Option RunId) (store : List (StreamMessage δ))
  /-- A process adds a message to the stream of a run; its fan-out is still to come. -/
  | add (m : StreamMessage δ)
  /-- A message is delivered to the queue of its run. -/
  | put (m : StreamMessage δ)
  /-- A message is delivered while its run has no queue. -/
  | miss (m : StreamMessage δ)
  /-- The next message of a queue. -/
  | drain (key : Option RunId)

namespace ThreadJoin

/-- `_accept_message`: the ids emitted after it, or `none` for a message that is refused. -/
def accept (q : JoinRequest δ) (s : ThreadJoin δ) (m : StreamMessage δ) :
    Option (List MessageId) :=
  match m.id with
  | none => some s.emittedIds
  | some id =>
      if id ∈ s.emittedIds then none
      else if afterCursor q.resumeCursor id then some (id :: s.emittedIds)
      else none

/-- The frame of a message is yielded if it has one. -/
def push (q : JoinRequest δ) (s : ThreadJoin δ) (m : StreamMessage δ) : List (StreamMessage δ) :=
  if q.passes m then s.emitted ++ [m] else s.emitted

def emit (q : JoinRequest δ) (s : ThreadJoin δ) (m : StreamMessage δ) : ThreadJoin δ :=
  match s.accept q m with
  | none => s
  | some emittedIds => { s with emittedIds, emitted := s.push q m }

/-- The messages that a step reads or puts in a queue for the first time. -/
def arrivals (q : JoinRequest δ) : JoinStep δ → List (StreamMessage δ)
  | .restore readings => readings.flatMap fun r =>
      r.restored q.restoreCursor ++ messagesAfter q.restoreCursor r.stream
  | .subscribe key store => if key = none then [] else replayInto q.resumeCursor store
  | .put m => [m]
  | _ => []

/-- The messages that a step adds beside that. -/
def additions : JoinStep δ → List (StreamMessage δ)
  | .add m | .miss m => [m]
  | _ => []

def learn (s : ThreadJoin δ) (messages : List (StreamMessage δ)) : ThreadJoin δ :=
  { s with known := s.known ++ messages }

/-- The messages still to come when the entry of `m` has come. -/
def comingAfter (s : ThreadJoin δ) (m : StreamMessage δ) : List (StreamMessage δ) :=
  s.coming.filter fun m' => m'.key ≠ m.key ∨ m'.id ≠ m.id

def setQueue (s : ThreadJoin δ) (key : Option RunId) (items : List (StreamMessage δ)) :
    ThreadJoin δ :=
  { s with queues := fun k => if k = key then some items else s.queues k }

def next (q : JoinRequest δ) (s : ThreadJoin δ) (l : JoinStep δ) : Option (ThreadJoin δ) :=
  let s := s.learn (arrivals q l)
  match l with
  | .restore readings =>
      if s.phase = .opening ∧ q.restoreCursor ≠ none then
        some { s with
          phase := .restoring
          pending := (readings.flatMap fun r => r.restored q.restoreCursor).mergeSort idLe }
      else none
  | .take =>
      match s.pending with
      | [] => none
      | m :: pending => some { s.emit q m with pending }
  | .live =>
      if s.phase = .opening ∧ q.restoreCursor = none ∨ s.phase = .restoring ∧ s.pending = [] then
        some { s with phase := .live }
      else none
  | .subscribe key store =>
      if s.phase = .live ∧ s.queues key = none then
        some (s.setQueue key (arrivals q (.subscribe key store)))
      else none
  | .add m =>
      if m.key = none then none
      else some { s with added := s.added ++ [m], coming := s.coming ++ [m] }
  | .put m =>
      match s.queues m.key with
      | none => none
      | some items =>
          some { s.setQueue m.key (items ++ [m]) with coming := s.comingAfter m }
  | .miss m =>
      match s.queues m.key with
      | none => some { s with
          added := s.added ++ [m]
          coming := s.comingAfter m
          missed := s.missed ++ [m] }
      | some _ => none
  | .drain key =>
      match s.queues key with
      | none | some [] => none
      | some (m :: items) => some ((s.emit q m).setQueue key items)

end ThreadJoin

/-- A client joins a thread. -/
def threadJoins (q : JoinRequest δ) : TSys (ThreadJoin δ) (JoinStep δ) where
  init s := s = {}
  step s l s' := s.next q l = some s'

/-! ## Order of ids -/

def IdLt (i j : MessageId) : Prop := i.1 < j.1 ∨ i.1 = j.1 ∧ i.2 < j.2

theorem msSeqIdGt_iff {i j : MessageId} : msSeqIdGt i j = true ↔ IdLt j i := by
  unfold msSeqIdGt IdLt
  rw [Bool.or_eq_true, Bool.and_eq_true, decide_eq_true_eq, decide_eq_true_eq, decide_eq_true_eq,
    eq_comm]

theorem IdLt.trichotomy (i j : MessageId) : IdLt i j ∨ i = j ∨ IdLt j i := by
  unfold IdLt
  rw [Prod.ext_iff]
  omega

theorem IdLt.asymm {i j : MessageId} (h : IdLt i j) : ¬ IdLt j i := by
  unfold IdLt at *
  omega

theorem IdLt.ne {i j : MessageId} (h : IdLt i j) : i ≠ j := by
  rintro rfl
  exact h.asymm h

namespace StreamMessage

/-- The ids of the messages are in order. -/
def Before (m m' : StreamMessage δ) : Prop :=
  ∀ i j, m.id = some i → m'.id = some j → IdLt i j

end StreamMessage

namespace ThreadJoin

variable {q : JoinRequest δ} {s s' : ThreadJoin δ} {l : JoinStep δ} {m m' : StreamMessage δ}
  {i j : MessageId} {key : Option RunId}

/-! ## Cursors -/

theorem dash_lt_text (id : MessageId) : StreamId.msSeqIdGt id.text [StreamId.dash] = true := by
  have hdash : StreamId.parseMsSeqId [StreamId.dash] = none := by decide
  rw [StreamId.gt_of_unparsed (.inr hdash)]
  cases hdigits : Nat.toDigits 10 id.1 with
  | nil => exact absurd hdigits Nat.toDigits_ne_nil
  | cons c cs =>
      have hc : c.isDigit = true :=
        PyStr.toDigits_isDigit id.1 c (by rw [hdigits]; exact List.mem_cons_self)
      have hcode := PyStr.ofChar_digit hc
      unfold MessageId.text
      rw [hdigits]
      refine List.Lex.rel ?_
      rw [Fin.lt_def]
      exact Nat.lt_of_lt_of_le (by decide) hcode.1

/-- Restoring and emitting skip the same ids. -/
theorem afterCursor_restore (q : JoinRequest δ) (i : MessageId) :
    afterCursor q.restoreCursor i = afterCursor q.resumeCursor i := by
  unfold JoinRequest.restoreCursor JoinRequest.resumeCursor
  split
  · exact dash_lt_text i
  · rfl

theorem mem_messagesAfter {messages : List (StreamMessage δ)} :
    m ∈ messagesAfter q.restoreCursor messages ↔
      m ∈ messages ∧ ∃ i, m.id = some i ∧ afterCursor q.resumeCursor i = true := by
  rw [messagesAfter, List.mem_filter, Option.any_eq_true_iff_get]
  constructor
  · rintro ⟨hm, hid, hafter⟩
    refine ⟨hm, m.id.get hid, (Option.some_get hid).symm, ?_⟩
    rw [← afterCursor_restore]
    exact hafter
  · rintro ⟨hm, i, hid, hafter⟩
    refine ⟨hm, by rw [hid]; rfl, ?_⟩
    simp only [hid, Option.get_some, afterCursor_restore, hafter]

/-! ## Accepting a message -/

/-- What `emit` does: the message is refused, it has no id, or its id is new. -/
theorem emit_cases (q : JoinRequest δ) (s : ThreadJoin δ) (m : StreamMessage δ) :
    (s.emit q m = s ∧ ∃ i, m.id = some i ∧
      (i ∈ s.emittedIds ∨ afterCursor q.resumeCursor i = false)) ∨
    (m.id = none ∧ s.emit q m = { s with emitted := s.push q m }) ∨
    ∃ i, m.id = some i ∧ i ∉ s.emittedIds ∧ afterCursor q.resumeCursor i = true ∧
      s.emit q m = { s with emittedIds := i :: s.emittedIds, emitted := s.push q m } := by
  cases hid : m.id with
  | none =>
      refine .inr (.inl ⟨rfl, ?_⟩)
      simp only [emit, accept, hid]
  | some i =>
      by_cases hseen : i ∈ s.emittedIds
      · refine .inl ⟨?_, i, rfl, .inl hseen⟩
        simp only [emit, accept, hid, if_pos hseen]
      · by_cases hafter : afterCursor q.resumeCursor i = true
        · refine .inr (.inr ⟨i, rfl, hseen, hafter, ?_⟩)
          simp only [emit, accept, hid, if_neg hseen, if_pos hafter]
        · refine .inl ⟨?_, i, rfl, .inr (Bool.eq_false_of_not_eq_true hafter)⟩
          simp only [emit, accept, hid, if_neg hseen, if_neg hafter]

theorem mem_push (h : m' ∈ s.push q m) : m' ∈ s.emitted ∨ m' = m ∧ q.passes m = true := by
  unfold push at h
  split at h
  next hpass =>
    rcases List.mem_append.1 h with h | h
    · exact .inl h
    · exact .inr ⟨List.mem_singleton.1 h, hpass⟩
  next => exact .inl h

/-- A message that comes after all emitted ones of its run keeps the order. -/
theorem push_sorted (hbefore : ∀ m₀ ∈ s.emitted, m₀.key = m.key → m₀.Before m)
    (hsorted : (s.emitted.filter fun m => m.key = key).Pairwise StreamMessage.Before) :
    ((s.push q m).filter fun m => m.key = key).Pairwise StreamMessage.Before := by
  unfold push
  split
  · rw [List.filter_append, List.pairwise_append]
    refine ⟨hsorted, List.Pairwise.filter _ (List.pairwise_singleton _ _), ?_⟩
    intro m₀ hm₀ m₁ hm₁
    obtain ⟨hm₀, hkey₀⟩ := List.mem_filter.1 hm₀
    obtain ⟨hm₁, hkey₁⟩ := List.mem_filter.1 hm₁
    obtain rfl := List.mem_singleton.1 hm₁
    exact hbefore m₀ hm₀ ((of_decide_eq_true hkey₀).trans (of_decide_eq_true hkey₁).symm)
  · exact hsorted

/-! ## Where messages wait -/

/-- A message with an id after the cursor. -/
def Due (q : JoinRequest δ) (m : StreamMessage δ) (i : MessageId) : Prop :=
  m.id = some i ∧ afterCursor q.resumeCursor i = true

/-- A message that is new has a greater id than those known of its run. -/
def Follows (known : List (StreamMessage δ)) (m : StreamMessage δ) : Prop :=
  m ∈ known ∨ ∀ m' ∈ known, m'.key = m.key → m'.Before m

def FollowAll : List (StreamMessage δ) → List (StreamMessage δ) → Prop
  | _, [] => True
  | known, m :: items => Follows known m ∧ FollowAll (known ++ [m]) items

theorem followAll_mem {known items : List (StreamMessage δ)} (h : FollowAll known items)
    (hm : m ∈ items) : Follows known m := by
  induction items generalizing known with
  | nil => exact nomatch hm
  | cons m₀ items ih =>
      rcases List.mem_cons.1 hm with rfl | hm
      · exact h.1
      · rcases ih h.2 hm with hknown | hbefore
        · rcases List.mem_append.1 hknown with hknown | hknown
          · exact .inl hknown
          · rw [List.mem_singleton.1 hknown]
            exact h.1
        · exact .inr fun m' hm' => hbefore m' (List.mem_append_left _ hm')

/-- Before a message in the list, all smaller ids of its run have been accepted or are ahead
of it. -/
def First (q : JoinRequest δ) (ids : List MessageId) (known items : List (StreamMessage δ)) :
    Prop :=
  ∀ u m' v, items = u ++ m' :: v → ∀ j, Due q m' j → j ∉ ids →
    ∀ m ∈ known, m.key = m'.key → ∀ i, Due q m i → IdLt i j → i ∈ ids ∨ m ∈ u

/-- What is known of a run and not accepted yet is in the list. -/
def Covered (q : JoinRequest δ) (ids : List MessageId) (known : List (StreamMessage δ))
    (key : Option RunId) (items : List (StreamMessage δ)) : Prop :=
  ∀ m ∈ known, m.key = key → ∀ i, Due q m i → i ∉ ids → m ∈ items

section

variable {ids ids' : List MessageId} {known items : List (StreamMessage δ)}

theorem First.nil : First q ids known [] := by
  intro u m' v h
  exact absurd h (by simp)

theorem First.grow (h : First q ids known items) (hgrow : ∀ i ∈ ids, i ∈ ids') :
    First q ids' known items := by
  intro u m' v hsplit j hdue hj m hm hkey i hi hlt
  have hold := h u m' v hsplit j hdue (fun hmem => hj (hgrow j hmem)) m hm hkey i hi hlt
  exact hold.imp (hgrow i) id

/-- The head is accepted, and the rest moves on. -/
theorem First.tail (h : First q ids known (m :: items)) (hgrow : ∀ i ∈ ids, i ∈ ids')
    (hm : ∀ i, Due q m i → i ∈ ids') : First q ids' known items := by
  intro u m' v hsplit j hdue hj m₀ hm₀ hkey i hi hlt
  -- what was known before stays before, now without the head of the list
  have hold := h (m :: u) m' v (by rw [hsplit]; rfl) j hdue
    (fun hmem => hj (hgrow j hmem)) m₀ hm₀ hkey i hi hlt
  rcases hold with hold | hold
  · exact .inl (hgrow i hold)
  · rcases List.mem_cons.1 hold with rfl | hold
    · exact .inl (hm i hi)
    · exact .inr hold

/-- Messages of another run become known. -/
theorem First.other (h : First q ids known items) {more : List (StreamMessage δ)}
    (hmore : ∀ m ∈ more, ∀ m' ∈ items, m.key ≠ m'.key) :
    First q ids (known ++ more) items := by
  intro u m' v hsplit j hdue hj m₀ hm₀ hkey i hi hlt
  rcases List.mem_append.1 hm₀ with hm₀ | hm₀
  · exact h u m' v hsplit j hdue hj m₀ hm₀ hkey i hi hlt
  · exact absurd hkey (hmore m₀ hm₀ m' (by rw [hsplit]; simp))

/-- A message that follows is appended. -/
theorem First.snoc (h : First q ids known items) (hcovered : Covered q ids known m.key items)
    (hknown : ∀ m' ∈ items, m' ∈ known) (hfollows : Follows known m) :
    First q ids (known ++ [m]) (items ++ [m]) := by
  intro u m' v hsplit j hdue hj m₀ hm₀ hkey i hi hlt
  rcases List.append_eq_append_iff.1 hsplit with ⟨w, hu, hw⟩ | ⟨w, hitems, hw⟩
  · -- `m'` is the new message: all the others of its run are in `items`
    obtain ⟨rfl, hrest⟩ : m' = m ∧ w = [] := by
      cases w with
      | nil =>
          rw [List.nil_append] at hw
          exact ⟨(List.cons.inj hw).1.symm, rfl⟩
      | cons x w =>
          have hlength := congrArg List.length hw
          simp at hlength
    rw [hrest, List.append_nil] at hu
    rw [hu]
    rcases List.mem_append.1 hm₀ with hm₀ | hm₀
    · by_cases hi' : i ∈ ids
      · exact .inl hi'
      · exact .inr (hcovered m₀ hm₀ hkey i hi hi')
    · obtain rfl := List.mem_singleton.1 hm₀
      obtain rfl := Option.some.inj (hi.1.symm.trans hdue.1)
      exact absurd rfl hlt.ne
  · cases w with
    | nil =>
        rw [List.nil_append] at hw
        obtain rfl := (List.cons.inj hw).1
        rw [List.append_nil] at hitems
        rw [← hitems]
        rcases List.mem_append.1 hm₀ with hm₀ | hm₀
        · by_cases hi' : i ∈ ids
          · exact .inl hi'
          · exact .inr (hcovered m₀ hm₀ hkey i hi hi')
        · obtain rfl := List.mem_singleton.1 hm₀
          obtain rfl := Option.some.inj (hi.1.symm.trans hdue.1)
          exact absurd rfl hlt.ne
    -- `m'` was there before: its run is ordered up to the new message, which follows
    | cons x w =>
        obtain rfl := (List.cons.inj hw).1
        have hm' : m' ∈ known := hknown m' (by rw [hitems]; simp)
        rcases List.mem_append.1 hm₀ with hm₀ | hm₀
        · exact h u m' w hitems j hdue hj m₀ hm₀ hkey i hi hlt
        · obtain rfl := List.mem_singleton.1 hm₀
          rcases hfollows with hold | hbefore
          · exact h u m' w hitems j hdue hj m₀ hold hkey i hi hlt
          · exact absurd hlt (hbefore m' hm' hkey.symm j i hdue.1 hi.1).asymm

theorem Covered.snoc (h : Covered q ids known m.key items) :
    Covered q ids (known ++ [m]) m.key (items ++ [m]) := by
  intro m₀ hm₀ hkey i hi hi'
  rcases List.mem_append.1 hm₀ with hm₀ | hm₀
  · exact List.mem_append_left _ (h m₀ hm₀ hkey i hi hi')
  · exact List.mem_append_right _ hm₀

/-- All messages of a list are appended, one after the other. -/
theorem First.append (h : First q ids known items) (hcovered : Covered q ids known key items)
    (hknown : ∀ m' ∈ items, m' ∈ known) {more : List (StreamMessage δ)}
    (hkey : ∀ m ∈ more, m.key = key) (hfollows : FollowAll known more) :
    First q ids (known ++ more) (items ++ more) ∧
      Covered q ids (known ++ more) key (items ++ more) := by
  induction more generalizing known items with
  | nil =>
      rw [List.append_nil, List.append_nil]
      exact ⟨h, hcovered⟩
  | cons m more ih =>
      obtain rfl := hkey m List.mem_cons_self
      have hnext := ih (h.snoc hcovered hknown hfollows.1) hcovered.snoc
        (fun m' hm' => (List.mem_append.1 hm').elim
          (fun hm' => List.mem_append_left _ (hknown m' hm')) (List.mem_append_right _))
        (fun m' hm' => hkey m' (List.mem_cons_of_mem m hm')) hfollows.2
      rw [List.append_assoc, List.append_assoc] at hnext
      exact hnext

end

/-- The messages there are after a step, on their way or not. -/
def messages (q : JoinRequest δ) (s : ThreadJoin δ) (l : JoinStep δ) : List (StreamMessage δ) :=
  s.known ++ arrivals q l ++ (s.added ++ additions l)

/-- What is given of the streams: the messages of a run are where they belong, and an id is
unique within its run. -/
structure Given (q : JoinRequest δ) (s : ThreadJoin δ) (l : JoinStep δ) : Prop where
  unique : ∀ m ∈ messages q s l, ∀ m' ∈ messages q s l,
    m.key = m'.key → m.id = m'.id → m.id ≠ none → m = m'
  keyed : ∀ key store, l = .subscribe key store → ∀ m ∈ store, m.key = key

/-- No two runs share an id, the queue of a run continues what was restored of it, `XRANGE`
returns all entries after the cursor, and a message that reached the process before its run
had a queue was restored, or is in the buffer that the new queue replays. -/
structure Separate (q : JoinRequest δ) (s : ThreadJoin δ) (l : JoinStep δ) : Prop where
  apart : ∀ m ∈ s.known ++ arrivals q l, ∀ m' ∈ s.known ++ arrivals q l,
    m.id = m'.id → m.id ≠ none → m.key = m'.key
  follows : (∀ readings, l ≠ .restore readings) → FollowAll s.known (arrivals q l)
  complete : ∀ readings, l = .restore readings → ∀ r ∈ readings,
    ∀ m ∈ messagesAfter q.restoreCursor r.stream, m ∈ r.rows.getD []
  held : ∀ key store, l = .subscribe key store → ∀ m ∈ s.missed, m.key = key → ∀ i, Due q m i →
    m ∈ s.known ∨ m ∈ arrivals q l

/-! ## Steps -/

/-- The message waits in the rest of the restored ones or in its queue. -/
def Waits (s : ThreadJoin δ) (m : StreamMessage δ) : Prop :=
  m ∈ s.pending ∨ ∃ items, s.queues m.key = some items ∧ m ∈ items

/-- The message is on its way to its queue. -/
def OnItsWay (s : ThreadJoin δ) (m : StreamMessage δ) : Prop :=
  m ∈ s.coming ∨ m ∈ s.missed ∧ s.queues m.key = none

theorem emit_frame (q : JoinRequest δ) (s : ThreadJoin δ) (m : StreamMessage δ) :
    (s.emit q m).known = s.known ∧ (s.emit q m).pending = s.pending ∧
      (s.emit q m).queues = s.queues ∧ (s.emit q m).phase = s.phase := by
  rcases emit_cases q s m with ⟨hemit, -⟩ | ⟨-, hemit⟩ | ⟨i, -, -, -, hemit⟩ <;> rw [hemit] <;>
    exact ⟨rfl, rfl, rfl, rfl⟩

theorem emit_ways (q : JoinRequest δ) (s : ThreadJoin δ) (m : StreamMessage δ) :
    (s.emit q m).added = s.added ∧ (s.emit q m).coming = s.coming ∧
      (s.emit q m).missed = s.missed := by
  rcases emit_cases q s m with ⟨hemit, -⟩ | ⟨-, hemit⟩ | ⟨i, -, -, -, hemit⟩ <;> rw [hemit] <;>
    exact ⟨rfl, rfl, rfl⟩

theorem emit_grow (hi : i ∈ s.emittedIds) : i ∈ (s.emit q m).emittedIds := by
  rcases emit_cases q s m with ⟨hemit, -⟩ | ⟨-, hemit⟩ | ⟨j, -, -, -, hemit⟩ <;> rw [hemit]
  · exact hi
  · exact hi
  · exact List.mem_cons_of_mem j hi

theorem emit_due (hdue : Due q m i) : i ∈ (s.emit q m).emittedIds := by
  rcases emit_cases q s m with ⟨hemit, j, hid, hj⟩ | ⟨hid, -⟩ | ⟨j, hid, -, -, hemit⟩
  · obtain rfl := Option.some.inj (hid.symm.trans hdue.1)
    rw [hemit]
    rcases hj with hj | hj
    · exact hj
    · exact absurd (hj.symm.trans hdue.2) Bool.false_ne_true
  · exact nomatch hid.symm.trans hdue.1
  · obtain rfl := Option.some.inj (hid.symm.trans hdue.1)
    rw [hemit]
    exact List.mem_cons_self

/-- Where the known messages are. -/
structure Placed (q : JoinRequest δ) (s : ThreadJoin δ) : Prop where
  waiting : ∀ m ∈ s.known, ∀ i, Due q m i → i ∉ s.emittedIds → s.Waits m
  pendingFirst : First q s.emittedIds s.known s.pending
  queueFirst : ∀ key items, s.queues key = some items → First q s.emittedIds s.known items
  pendingKnown : ∀ m ∈ s.pending, m ∈ s.known
  queueKnown : ∀ key items, s.queues key = some items → ∀ m ∈ items, m ∈ s.known ∧ m.key = key
  live : s.phase = .live → s.pending = []
  closed : s.phase ≠ .live → ∀ key, s.queues key = none
  opening : s.phase = .opening → s.known = []

/-- In a live stream the unaccepted messages of a run are in its queue. -/
theorem Placed.covered (h : Placed q s) (hlive : s.phase = .live) :
    -- in a live stream nothing is pending, so who waits is in a queue
    Covered q s.emittedIds s.known key ((s.queues key).getD []) := by
  intro m hm hmkey i hi hi'
  rcases h.waiting m hm i hi hi' with hpending | ⟨items, hqueue, hmem⟩
  · rw [h.live hlive] at hpending
    exact nomatch hpending
  · rw [hmkey] at hqueue
    rw [hqueue]
    exact hmem

/-- The next restored message is taken. -/
theorem Placed.take (h : Placed q s) {pending : List (StreamMessage δ)}
    (hpending : s.pending = m :: pending) : Placed q { s.emit q m with pending } := by
  obtain ⟨hknown, -, hqueues, hphase⟩ := emit_frame q s m
  have hnotLive : s.phase ≠ .live := by
    intro hlive
    exact nomatch hpending.symm.trans (h.live hlive)
  -- the pending list has a head, so there are no queues yet
  have hfirst := h.pendingFirst
  rw [hpending] at hfirst
  refine ⟨?_, ?_, ?_, ?_, ?_, ?_, ?_, ?_⟩
  · -- whoever waited still does, but for the taken message, which is accepted if it is due
    intro m₀ hm₀ i hdue hi
    rw [show _ = s.known from hknown] at hm₀
    rcases h.waiting m₀ hm₀ i hdue fun hmem => hi (emit_grow hmem) with hwait | ⟨items, hqueue, -⟩
    · rw [hpending] at hwait
      rcases List.mem_cons.1 hwait with rfl | hwait
      · exact absurd (emit_due hdue) hi
      · exact .inl hwait
    · exact nomatch hqueue.symm.trans (h.closed hnotLive m₀.key)
  · show First q _ (s.emit q m).known pending
    rw [hknown]
    exact hfirst.tail (fun i hi => emit_grow hi) fun i hi => emit_due hi
  · intro key items hitems
    rw [show _ = s.queues from hqueues, h.closed hnotLive key] at hitems
    exact nomatch hitems
  · intro m₀ hm₀
    show m₀ ∈ (s.emit q m).known
    rw [hknown]
    exact h.pendingKnown m₀ (by rw [hpending]; exact List.mem_cons_of_mem m hm₀)
  · intro key items hitems
    rw [show _ = s.queues from hqueues, h.closed hnotLive key] at hitems
    exact nomatch hitems
  · intro hlive
    exact absurd (hphase.symm.trans hlive) hnotLive
  · intro _ key
    show (s.emit q m).queues key = none
    rw [hqueues]
    exact h.closed hnotLive key
  · intro hopening
    show (s.emit q m).known = []
    rw [hknown]
    exact h.opening (hphase.symm.trans hopening)

/-- The next message of a queue is taken. -/
theorem Placed.drain (h : Placed q s) {items : List (StreamMessage δ)}
    (hqueue : s.queues key = some (m :: items)) :
    Placed q ((s.emit q m).setQueue key items) := by
  obtain ⟨hknown, hpending, hqueues, hphase⟩ := emit_frame q s m
  have hlive : s.phase = .live := by
    by_contra hnot
    exact nomatch hqueue.symm.trans (h.closed hnot key)
  -- the message may be emitted or not; of the queues, only its own changes
  have hother (k : Option RunId) (hk : k ≠ key) :
      ((s.emit q m).setQueue key items).queues k = s.queues k :=
    (if_neg hk).trans (congrFun hqueues k)
  have hown : ((s.emit q m).setQueue key items).queues key = some items := if_pos rfl
  refine ⟨?_, ?_, ?_, ?_, ?_, ?_, ?_, ?_⟩
  · intro m₀ hm₀ i hdue hi
    rw [show ((s.emit q m).setQueue key items).known = s.known from hknown] at hm₀
    -- who waited in this queue still does, but for the taken message
    rcases h.waiting m₀ hm₀ i hdue fun hmem => hi (emit_grow hmem) with hwait | ⟨items', hq, hmem⟩
    · rw [h.live hlive] at hwait
      exact nomatch hwait
    · by_cases hk : m₀.key = key
      · rw [hk, hqueue] at hq
        obtain rfl := Option.some.inj hq
        rcases List.mem_cons.1 hmem with rfl | hmem
        · exact absurd (emit_due hdue) hi
        · exact .inr ⟨items, by rw [hk]; exact hown, hmem⟩
      · exact .inr ⟨items', (hother _ hk).trans hq, hmem⟩
  · show First q _ (s.emit q m).known (s.emit q m).pending
    rw [hpending, h.live hlive]
    exact .nil
  · intro k items' hitems'
    show First q (s.emit q m).emittedIds (s.emit q m).known items'
    rw [hknown]
    by_cases hk : k = key
    · rw [hk, hown] at hitems'
      obtain rfl := Option.some.inj hitems'
      exact (h.queueFirst key _ hqueue).tail (fun i hi => emit_grow hi) fun i hi => emit_due hi
    · rw [hother k hk] at hitems'
      exact (h.queueFirst k items' hitems').grow fun i hi => emit_grow hi
  · intro m₀ hm₀
    rw [show ((s.emit q m).setQueue key items).pending = s.pending from hpending,
      h.live hlive] at hm₀
    exact nomatch hm₀
  · intro k items' hitems' m₀ hm₀
    rw [show ((s.emit q m).setQueue key items).known = s.known from hknown]
    by_cases hk : k = key
    · rw [hk, hown] at hitems'
      obtain rfl := Option.some.inj hitems'
      rw [hk]
      exact h.queueKnown key _ hqueue m₀ (List.mem_cons_of_mem m hm₀)
    · rw [hother k hk] at hitems'
      exact h.queueKnown k items' hitems' m₀ hm₀
  · intro _
    exact hpending.trans (h.live hlive)
  · intro hnot
    exact absurd (hphase.trans hlive) hnot
  · intro hopening
    exact nomatch hlive.symm.trans (hphase.symm.trans hopening)

/-- Messages come into a queue, which may be a new one. -/
theorem Placed.queue (h : Placed q s) (hlive : s.phase = .live) {more : List (StreamMessage δ)}
    (hkey : ∀ m ∈ more, m.key = key) (hfollows : FollowAll s.known more) :
    Placed q ((s.learn more).setQueue key ((s.queues key).getD [] ++ more)) := by
  -- a new queue starts empty, an old one as it is
  have hitems : First q s.emittedIds s.known ((s.queues key).getD []) ∧
      ∀ m ∈ (s.queues key).getD [], m ∈ s.known ∧ m.key = key := by
    cases hqueue : s.queues key with
    | none => exact ⟨.nil, nofun⟩
    | some items => exact ⟨h.queueFirst key items hqueue, h.queueKnown key items hqueue⟩
  obtain ⟨hfirst, hcovered⟩ := hitems.1.append (h.covered hlive)
    (fun m hm => (hitems.2 m hm).1) hkey hfollows
  refine ⟨?_, ?_, ?_, ?_, ?_, ?_, ?_, ?_⟩
  · intro m₀ hm₀ i hdue hi
    by_cases hk : m₀.key = key
    · exact .inr ⟨_, if_pos hk, hcovered m₀ hm₀ hk i hdue hi⟩
    · rcases List.mem_append.1 hm₀ with hm₀ | hm₀
      · rcases h.waiting m₀ hm₀ i hdue hi with hwait | ⟨items, hq, hmem⟩
        · exact .inl hwait
        · exact .inr ⟨items, (if_neg hk).trans hq, hmem⟩
      · exact absurd (hkey m₀ hm₀) hk
  · show First q s.emittedIds (s.known ++ more) s.pending
    -- the new messages are all of this run, so only its queue changes
    rw [h.live hlive]
    exact .nil
  · intro k items hitems'
    by_cases hk : k = key
    · obtain rfl := Option.some.inj ((if_pos hk).symm.trans hitems')
      exact hfirst
    · -- the new messages are of another run, so they come before none of this queue
      have hq : s.queues k = some items := (if_neg hk).symm.trans hitems'
      refine (h.queueFirst k items hq).other ?_
      intro m₀ hm₀ m' hm' heq
      exact hk ((h.queueKnown k items hq m' hm').2.symm.trans (heq.symm.trans (hkey m₀ hm₀)))
  · intro m₀ hm₀
    exact List.mem_append_left _ (h.pendingKnown m₀ hm₀)
  · intro k items hitems' m₀ hm₀
    by_cases hk : k = key
    · obtain rfl := Option.some.inj ((if_pos hk).symm.trans hitems')
      rcases List.mem_append.1 hm₀ with hm₀ | hm₀
      · obtain ⟨hknown, hkey₀⟩ := hitems.2 m₀ hm₀
        exact ⟨List.mem_append_left _ hknown, hkey₀.trans hk.symm⟩
      · exact ⟨List.mem_append_right _ hm₀, (hkey m₀ hm₀).trans hk.symm⟩
    · have hq : s.queues k = some items := (if_neg hk).symm.trans hitems'
      obtain ⟨hknown, hkey₀⟩ := h.queueKnown k items hq m₀ hm₀
      exact ⟨List.mem_append_left _ hknown, hkey₀⟩
  · exact h.live
  · intro hnot
    exact absurd hlive hnot
  · intro hopening
    exact nomatch hlive.symm.trans hopening

/-! ## Messages on their way -/

/-- An added message is known, or on its way. -/
def Tracked (q : JoinRequest δ) (s : ThreadJoin δ) : Prop :=
  ∀ m ∈ s.added, ∀ i, Due q m i → m ∈ s.known ∨ s.OnItsWay m

/-- More is known, and queues are only filled. -/
theorem Tracked.of_known (h : Tracked q s) (hadded : s'.added = s.added)
    (hcoming : s'.coming = s.coming) (hmissed : s'.missed = s.missed) (hknown : s.known ⊆ s'.known)
    (hqueues : ∀ k, s.queues k = none → s'.queues k = none) : Tracked q s' := by
  intro m hm i hdue
  rw [hadded] at hm
  unfold OnItsWay
  rw [hcoming, hmissed]
  rcases h m hm i hdue with hm | hcome | ⟨hmiss, hnone⟩
  · exact .inl (hknown hm)
  · exact .inr (.inl hcome)
  · exact .inr (.inr ⟨hmiss, hqueues m.key hnone⟩)

theorem Tracked.emit (h : Tracked q s) (m : StreamMessage δ) : Tracked q (s.emit q m) := by
  obtain ⟨hknown, -, hqueues, -⟩ := emit_frame q s m
  obtain ⟨hadded, hcoming, hmissed⟩ := emit_ways q s m
  refine h.of_known hadded hcoming hmissed ?_ fun k hk => (congrFun hqueues k).trans hk
  rw [hknown]
  exact List.Subset.refl _

theorem mem_comingAfter (h : m' ∈ s.coming) :
    m' ∈ s.comingAfter m ∨ m'.key = m.key ∧ m'.id = m.id := by
  by_cases hsame : m'.key = m.key ∧ m'.id = m.id
  · exact .inr hsame
  · refine .inl (List.mem_filter.2 ⟨h, decide_eq_true ?_⟩)
    rwa [not_and_or] at hsame

/-- The queue is created: what had missed it comes with the buffer, or was restored. -/
theorem Tracked.subscribe (h : Tracked q s) {more : List (StreamMessage δ)}
    (hheld : ∀ m ∈ s.missed, m.key = key → ∀ i, Due q m i → m ∈ s.known ∨ m ∈ more) :
    Tracked q ((s.learn more).setQueue key more) := by
  intro m hm i hdue
  rcases h m hm i hdue with hm | hcome | ⟨hmiss, hnone⟩
  · exact .inl (List.mem_append_left _ hm)
  · exact .inr (.inl hcome)
  · by_cases hk : m.key = key
    · exact .inl (List.mem_append.2 (hheld m hmiss hk i hdue))
    · exact .inr (.inr ⟨hmiss, (if_neg hk).trans hnone⟩)

/-- The message comes into its queue. -/
theorem Tracked.put (h : Tracked q s) {items : List (StreamMessage δ)}
    (hqueue : s.queues m.key = some items)
    (hunique : ∀ m' ∈ s.added, m'.key = m.key → m'.id = m.id → m'.id ≠ none → m' = m) :
    Tracked q { (s.learn [m]).setQueue m.key (items ++ [m]) with coming := s.comingAfter m } := by
  intro m' hm' i hdue
  -- a known message stays known, and one on its way may be this one
  rcases h m' hm' i hdue with hknown | hcome | ⟨hmiss, hnone⟩
  · exact .inl (List.mem_append_left _ hknown)
  · rcases mem_comingAfter (m := m) hcome with hcome | ⟨hkey, hid⟩
    · exact .inr (.inl hcome)
    · -- one id names one message of a run, so it is this one that arrives
      rw [hunique m' hm' hkey hid (by rw [hdue.1]; simp)]
      exact .inl (List.mem_append_right _ (List.mem_singleton_self m))
  · have hne : m'.key ≠ m.key := by
      intro hkey
      rw [hkey, hqueue] at hnone
      cases hnone
    exact .inr (.inr ⟨hmiss, (if_neg hne).trans hnone⟩)

theorem Tracked.add (h : Tracked q s) :
    Tracked q { s with added := s.added ++ [m], coming := s.coming ++ [m] } := by
  intro m' hm' i hdue
  rcases List.mem_append.1 hm' with hm' | hm'
  · rcases h m' hm' i hdue with hknown | hcome | hmiss
    · exact .inl hknown
    · exact .inr (.inl (List.mem_append_left _ hcome))
    · exact .inr (.inr hmiss)
  · exact .inr (.inl (List.mem_append_right _ hm'))

/-- The message comes before its queue. -/
theorem Tracked.miss (h : Tracked q s) (hqueue : s.queues m.key = none)
    (hunique : ∀ m' ∈ s.added, m'.key = m.key → m'.id = m.id → m'.id ≠ none → m' = m) :
    Tracked q { s with
      added := s.added ++ [m]
      coming := s.comingAfter m
      missed := s.missed ++ [m] } := by
  intro m' hm' i hdue
  have hself : m ∈ s.missed ++ [m] := List.mem_append_right _ (List.mem_singleton_self m)
  rcases List.mem_append.1 hm' with hm' | hm'
  · rcases h m' hm' i hdue with hknown | hcome | ⟨hmiss, hnone⟩
    · exact .inl hknown
    · rcases mem_comingAfter (m := m) hcome with hcome | ⟨hkey, hid⟩
      · exact .inr (.inl hcome)
      · -- a copy was on its way already, and missed the queue as well
        rw [hunique m' hm' hkey hid (by rw [hdue.1]; simp)]
        exact .inr (.inr ⟨hself, hqueue⟩)
    · exact .inr (.inr ⟨List.mem_append_left _ hmiss, hnone⟩)
  · rw [List.mem_singleton.1 hm']
    exact .inr (.inr ⟨hself, hqueue⟩)

/-! ## Restoring -/

/-- All that a run has after the cursor is restored. -/
theorem mem_restored {r : Reading δ}
    (hcomplete : ∀ m ∈ messagesAfter q.restoreCursor r.stream, m ∈ r.rows.getD [])
    (hm : m ∈ messagesAfter q.restoreCursor r.stream) : m ∈ r.restored q.restoreCursor := by
  have hrows : m ∈ messagesAfter q.restoreCursor (r.rows.getD []) :=
    mem_messagesAfter.2 ⟨hcomplete m hm, (mem_messagesAfter.1 hm).2⟩
  unfold Reading.restored
  have hnonempty : (messagesAfter q.restoreCursor (r.rows.getD [])).isEmpty = false := by
    rw [List.isEmpty_eq_false_iff]
    exact List.ne_nil_of_mem hrows
  simp only [hnonempty, Bool.false_eq_true, if_false]
  exact hrows

-- `None` is below everything, else this is the order of the pairs
theorem idLe_trans (a b c : StreamMessage δ) (hab : idLe a b = true) (hbc : idLe b c = true) :
    idLe a c = true := by
  unfold idLe at *
  cases ha : a.id with
  | none => rfl
  | some i =>
      cases hb : b.id with
      | none =>
          rw [ha, hb] at hab
          exact nomatch hab
      | some j =>
          cases hc : c.id with
          | none =>
              rw [hb, hc] at hbc
              exact nomatch hbc
          | some k =>
              rw [ha, hb] at hab
              rw [hb, hc] at hbc
              simp only [Bool.not_eq_true', ← Bool.not_eq_true, msSeqIdGt_iff] at hab hbc ⊢
              unfold IdLt at *
              omega

theorem idLe_total (a b : StreamMessage δ) : (idLe a b || idLe b a) = true := by
  unfold idLe
  cases ha : a.id with
  | none => rfl
  | some i =>
      cases hb : b.id with
      | none => rfl
      | some j =>
          simp only [Bool.or_eq_true, Bool.not_eq_true']
          by_cases hgt : msSeqIdGt i j = true
          · right
            rw [← Bool.not_eq_true, msSeqIdGt_iff]
            exact (msSeqIdGt_iff.1 hgt).asymm
          · exact .inl (Bool.eq_false_of_not_eq_true hgt)

/-- A sorted list is emitted in the order of the ids. -/
theorem First.sorted {known items : List (StreamMessage δ)} (hsorted : items.Pairwise (idLe · ·))
    (hknown : ∀ m ∈ known, m ∈ items) : First q [] known items := by
  intro u m' v hsplit j hdue _ m hm _ i hi hlt
  have hmem := hknown m hm
  rw [hsplit] at hmem hsorted
  rcases List.mem_append.1 hmem with hmem | hmem
  · exact .inr hmem
  · rcases List.mem_cons.1 hmem with rfl | hmem
    · exact absurd (Option.some.inj (hi.1.symm.trans hdue.1)) hlt.ne
    · have hle := (List.pairwise_cons.1 (List.pairwise_append.1 hsorted).2.1).1 m hmem
      unfold idLe at hle
      rw [hdue.1, hi.1] at hle
      simp only [Bool.not_eq_true', ← Bool.not_eq_true, msSeqIdGt_iff] at hle
      exact absurd hlt hle

/-- The runs were restored. -/
theorem Placed.restore (h : Placed q s) {readings : List (Reading δ)}
    (hopening : s.phase = .opening) (hids : s.emittedIds = [])
    (hcomplete : ∀ r ∈ readings, ∀ m ∈ messagesAfter q.restoreCursor r.stream,
      m ∈ r.rows.getD []) :
    Placed q { s.learn (arrivals q (.restore readings)) with
      phase := .restoring
      pending := (readings.flatMap fun r => r.restored q.restoreCursor).mergeSort idLe } := by
  have hknown : s.known ++ arrivals q (.restore readings) = arrivals q (.restore readings) := by
    rw [h.opening hopening, List.nil_append]
  have hnotLive : s.phase ≠ .live := by
    rw [hopening]
    nofun
  have hpending : ∀ m, m ∈ arrivals q (.restore readings) ↔
      m ∈ (readings.flatMap fun r => r.restored q.restoreCursor).mergeSort idLe := by
    intro m
    rw [List.mem_mergeSort]
    constructor
    · intro hm
      obtain ⟨r, hr, hm⟩ := List.mem_flatMap.1 hm
      refine List.mem_flatMap.2 ⟨r, hr, ?_⟩
      rcases List.mem_append.1 hm with hm | hm
      · exact hm
      · exact mem_restored (hcomplete r hr) hm
    · intro hm
      obtain ⟨r, hr, hm⟩ := List.mem_flatMap.1 hm
      exact List.mem_flatMap.2 ⟨r, hr, List.mem_append_left _ hm⟩
  have hnone (key : Option RunId) : s.queues key = none := h.closed hnotLive key
  refine ⟨?_, ?_, ?_, ?_, ?_, nofun, fun _ => hnone, nofun⟩
  · intro m hm i _ _
    have hm : m ∈ s.known ++ arrivals q (.restore readings) := hm
    rw [hknown] at hm
    exact .inl ((hpending m).1 hm)
  · show First q s.emittedIds (s.known ++ arrivals q (.restore readings)) _
    rw [hids, hknown]
    exact .sorted (List.pairwise_mergeSort idLe_trans idLe_total _) fun m hm => (hpending m).1 hm
  · intro key items hitems
    exact nomatch (hnone key).symm.trans hitems
  · intro m hm
    exact List.mem_append_right _ ((hpending m).2 hm)
  · intro key items hitems
    exact nomatch (hnone key).symm.trans hitems

theorem Placed.congr (h : Placed q s) (hknown : s'.known = s.known)
    (hids : s'.emittedIds = s.emittedIds) (hpending : s'.pending = s.pending)
    (hqueues : s'.queues = s.queues) (hphase : s'.phase = s.phase) : Placed q s' := by
  have hwaits (m : StreamMessage δ) (hm : s.Waits m) : s'.Waits m := by
    unfold Waits
    rw [hpending, hqueues]
    exact hm
  refine ⟨?_, ?_, ?_, ?_, ?_, ?_, ?_, ?_⟩
  · rw [hknown, hids]
    exact fun m hm i hdue hi => hwaits m (h.waiting m hm i hdue hi)
  · rw [hknown, hids, hpending]
    exact h.pendingFirst
  · rw [hknown, hids, hqueues]
    exact h.queueFirst
  · rw [hknown, hpending]
    exact h.pendingKnown
  · rw [hknown, hqueues]
    exact h.queueKnown
  · rw [hphase, hpending]
    exact h.live
  · rw [hphase, hqueues]
    exact h.closed
  · rw [hphase, hknown]
    exact h.opening

/-- The loop over the queues begins. -/
theorem Placed.goLive (h : Placed q s) (hpending : s.pending = []) :
    Placed q { s with phase := .live } where
  waiting := h.waiting
  pendingFirst := h.pendingFirst
  queueFirst := h.queueFirst
  pendingKnown := h.pendingKnown
  queueKnown := h.queueKnown
  live _ := hpending
  closed hnot := absurd rfl hnot
  opening := nofun

/-! ## The law -/

variable [DecidableEq δ]

/-- The message was read or queued, or was added and is not on its way any more. -/
def Arrived (s : ThreadJoin δ) (m : StreamMessage δ) : Prop :=
  m ∈ s.known ∨ m ∈ s.added ∧ ¬ s.OnItsWay m

/-- Every message of a run that arrived, with an id after the cursor, which decodes and passes
the filter, is emitted once when its turn has come, none twice, and those of one run in
order. -/
structure Lawful (q : JoinRequest δ) (s : ThreadJoin δ) : Prop where
  once : ∀ m, s.Arrived m → ∀ i, m.id = some i → afterCursor q.resumeCursor i = true →
    q.passes m = true → ¬ s.Waits m → s.emitted.count m = 1
  atMost : ∀ m, m.id ≠ none → s.emitted.count m ≤ 1
  order : ∀ key, (s.emitted.filter fun m => m.key = key).Pairwise StreamMessage.Before

/-! ## What was accepted -/

theorem count_push_of_ne (h : m' ≠ m) : (s.push q m).count m' = s.emitted.count m' := by
  unfold push
  split
  · rw [List.count_append, List.count_singleton, beq_false_of_ne h.symm]
    rfl
  · rfl

theorem count_push_self : (s.push q m).count m =
    s.emitted.count m + if q.passes m then 1 else 0 := by
  unfold push
  split
  · rw [List.count_append, List.count_singleton_self]
  · rfl

/-- What was accepted and emitted so far, of the known messages. -/
structure Accepted (q : JoinRequest δ) (s : ThreadJoin δ) : Prop where
  ident : ∀ m ∈ s.known, ∀ m' ∈ s.known, ∀ i, m.id = some i → m'.id = some i → m = m'
  ids : ∀ i ∈ s.emittedIds, ∃ m ∈ s.known, Due q m i
  emitted : ∀ m ∈ s.emitted, m ∈ s.known ∧ ∀ i, m.id = some i → i ∈ s.emittedIds
  count : ∀ m ∈ s.known, ∀ i ∈ s.emittedIds, m.id = some i →
    s.emitted.count m = if q.passes m then 1 else 0
  order : ∀ m ∈ s.known, ∀ m' ∈ s.known, m.key = m'.key → ∀ i ∈ s.emittedIds, ∀ j,
    m.id = some i → Due q m' j → j ∉ s.emittedIds → IdLt i j
  sorted : ∀ key, (s.emitted.filter fun m => m.key = key).Pairwise StreamMessage.Before

theorem Accepted.count_zero (h : Accepted q s) (hid : m.id = some i) (hi : i ∉ s.emittedIds) :
    s.emitted.count m = 0 := by
  refine List.count_eq_zero.2 fun hmem => hi ?_
  exact (h.emitted m hmem).2 i hid

/-- A known message is accepted while all smaller ids of its run have been. -/
theorem Accepted.emit (h : Accepted q s) (hm : m ∈ s.known)
    (hfirst : ∀ j, Due q m j → j ∉ s.emittedIds → ∀ m₀ ∈ s.known, m₀.key = m.key → ∀ i,
      Due q m₀ i → IdLt i j → i ∈ s.emittedIds) : Accepted q (s.emit q m) := by
  rcases emit_cases q s m with ⟨hemit, -⟩ | ⟨hid, hemit⟩ | ⟨j, hid, hnew, hafter, hemit⟩
  · rw [hemit]
    exact h
  · -- a message without id has no place in the order of its run
    rw [hemit]
    refine ⟨h.ident, h.ids, ?_, ?_, h.order, ?_⟩
    · intro m₀ hm₀
      rcases mem_push hm₀ with hm₀ | ⟨rfl, -⟩
      · exact h.emitted m₀ hm₀
      · exact ⟨hm, fun i hi => nomatch hid.symm.trans hi⟩
    · intro m₀ hm₀ i hi hid₀
      have hne : m₀ ≠ m := by
        rintro rfl
        exact nomatch hid.symm.trans hid₀
      exact (count_push_of_ne hne).trans (h.count m₀ hm₀ i hi hid₀)
    · intro key
      exact push_sorted (fun m₀ _ _ i j _ hj => nomatch hid.symm.trans hj) (h.sorted key)
  · rw [hemit]
    have hdue : Due q m j := ⟨hid, hafter⟩
    have hsame (m₀ : StreamMessage δ) (hm₀ : m₀ ∈ s.known) (hid₀ : m₀.id = some j) : m₀ = m :=
      h.ident m₀ hm₀ m hm j hid₀ hid
    refine ⟨h.ident, ?_, ?_, ?_, ?_, ?_⟩
    · intro i hi
      rcases List.mem_cons.1 hi with rfl | hi
      · exact ⟨m, hm, hdue⟩
      · exact h.ids i hi
    · intro m₀ hm₀
      rcases mem_push hm₀ with hm₀ | ⟨rfl, -⟩
      · exact ⟨(h.emitted m₀ hm₀).1, fun i hi =>
          List.mem_cons_of_mem j ((h.emitted m₀ hm₀).2 i hi)⟩
      · refine ⟨hm, fun i hi => ?_⟩
        obtain rfl := Option.some.inj (hid.symm.trans hi)
        exact List.mem_cons_self
    · intro m₀ hm₀ i hi hid₀
      show (s.push q m).count m₀ = _
      rcases List.mem_cons.1 hi with rfl | hold
      · obtain rfl := hsame m₀ hm₀ hid₀
        rw [count_push_self, h.count_zero hid hnew, Nat.zero_add]
      · have hne : m₀ ≠ m := by
          rintro rfl
          obtain rfl := Option.some.inj (hid.symm.trans hid₀)
          exact hnew hold
        rw [count_push_of_ne hne]
        exact h.count m₀ hm₀ i hold hid₀
    · -- whoever is not accepted yet is greater: otherwise it would have come first
      intro m₀ hm₀ m₁ hm₁ hkey i hi k hid₀ hdue₁ hk
      have hk' : k ∉ s.emittedIds := fun hmem => hk (List.mem_cons_of_mem j hmem)
      rcases List.mem_cons.1 hi with rfl | hi
      · obtain rfl := hsame m₀ hm₀ hid₀
        rcases IdLt.trichotomy i k with hlt | rfl | hlt
        · exact hlt
        · exact absurd List.mem_cons_self hk
        · exact absurd (hfirst i hdue hnew m₁ hm₁ hkey.symm k hdue₁ hlt) hk'
      · exact h.order m₀ hm₀ m₁ hm₁ hkey i hi k hid₀ hdue₁ hk'
    · intro key
      refine push_sorted ?_ (h.sorted key)
      intro m₀ hm₀ hkey i k hi hk
      obtain rfl := Option.some.inj (hid.symm.trans hk)
      obtain ⟨hknown, hseen⟩ := h.emitted m₀ hm₀
      exact h.order m₀ hknown m hm hkey i (hseen i hi) j hi hdue hnew

/-- More messages become known, each after those of its run. -/
theorem Accepted.arrive (h : Accepted q s) {items : List (StreamMessage δ)}
    (hident : ∀ m ∈ s.known ++ items, ∀ m' ∈ s.known ++ items, ∀ i, m.id = some i →
      m'.id = some i → m = m')
    (hfollows : ∀ m ∈ items, Follows s.known m) :
    Accepted q (s.learn items) := by
  have hold (m : StreamMessage δ) (hm : m ∈ s.known ++ items) (i : MessageId)
      (hi : i ∈ s.emittedIds) (hid : m.id = some i) : m ∈ s.known := by
    obtain ⟨m₀, hm₀, hdue⟩ := h.ids i hi
    rw [hident m hm m₀ (List.mem_append_left _ hm₀) i hid hdue.1]
    exact hm₀
  refine ⟨hident, ?_, ?_, ?_, ?_, h.sorted⟩
  · intro i hi
    obtain ⟨m₀, hm₀, hdue⟩ := h.ids i hi
    exact ⟨m₀, List.mem_append_left _ hm₀, hdue⟩
  · intro m hm
    exact ⟨List.mem_append_left _ (h.emitted m hm).1, (h.emitted m hm).2⟩
  · intro m hm i hi hid
    exact h.count m (hold m hm i hi hid) i hi hid
  · intro m hm m' hm' hkey i hi j hid hdue hj
    have hm := hold m hm i hi hid
    rcases List.mem_append.1 hm' with hm' | hm'
    · exact h.order m hm m' hm' hkey i hi j hid hdue hj
    · rcases hfollows m' hm' with hknown | hbefore
      · exact h.order m hm m' hknown hkey i hi j hid hdue hj
      · exact hbefore m hm hkey i j hid hdue.1

theorem Accepted.congr (h : Accepted q s) (hknown : s'.known = s.known)
    (hids : s'.emittedIds = s.emittedIds) (hemitted : s'.emitted = s.emitted) : Accepted q s' := by
  refine ⟨?_, ?_, ?_, ?_, ?_, ?_⟩
  · rw [hknown]
    exact h.ident
  · rw [hknown, hids]
    exact h.ids
  · rw [hknown, hids, hemitted]
    exact h.emitted
  · rw [hknown, hids, hemitted]
    exact h.count
  · rw [hknown, hids]
    exact h.order
  · rw [hemitted]
    exact h.sorted

/-! ## Runs -/

omit [DecidableEq δ] in
theorem learn_nil : s.learn [] = s := by
  unfold learn
  rw [List.append_nil]

omit [DecidableEq δ] in
/-- With both conditions an id names one message. -/
theorem ident_of (hgiven : Given q s l) (hsep : Separate q s l) :
    ∀ m ∈ s.known ++ arrivals q l, ∀ m' ∈ s.known ++ arrivals q l, ∀ i, m.id = some i →
      m'.id = some i → m = m' := by
  intro m hm m' hm' i hid hid'
  have hsame : m.id = m'.id := hid.trans hid'.symm
  have hne : m.id ≠ none := by
    rw [hid]
    nofun
  exact hgiven.unique m (List.mem_append_left _ hm) m' (List.mem_append_left _ hm')
    (hsep.apart m hm m' hm' hsame hne) hsame hne

/-- Streams that are given as the claims on them say, and kept apart. -/
def Orderly (q : JoinRequest δ) (s : ThreadJoin δ) (l : JoinStep δ) : Prop :=
  Given q s l ∧ Separate q s l

theorem sound_inductive : ((threadJoins q).restrict (Orderly q)).Inductive fun s =>
    Accepted q s ∧ Placed q s where
  init s hs := by
    obtain rfl := hs
    refine ⟨⟨nofun, nofun, nofun, nofun, nofun, fun _ => .nil⟩, ?_⟩
    exact ⟨nofun, .nil, nofun, nofun, nofun, nofun, fun _ _ => rfl, fun _ => rfl⟩
  step s l s' hs hstep := by
    obtain ⟨hacc, hplaced⟩ := hs
    obtain ⟨hnext, hgiven, hsep⟩ := hstep
    have hident := ident_of hgiven hsep
    have hfollows (hl : ∀ readings, l ≠ .restore readings) : ∀ m ∈ arrivals q l,
        Follows s.known m := fun m hm => followAll_mem (hsep.follows hl) hm
    cases l with
    | restore readings =>
        obtain ⟨⟨hopening, -⟩, heq⟩ := Option.ite_none_right_eq_some.1 hnext
        obtain rfl := Option.some.inj heq
        have hopening : s.phase = .opening := hopening
        have hknown := hplaced.opening hopening
        have hids : s.emittedIds = [] := by
          refine List.eq_nil_iff_forall_not_mem.2 fun i hi => ?_
          obtain ⟨m, hm, -⟩ := hacc.ids i hi
          rw [hknown] at hm
          exact nomatch hm
        have harrived := hacc.arrive hident (by rw [hknown]; exact fun m _ => .inr nofun)
        exact ⟨harrived.congr rfl rfl rfl,
          hplaced.restore hopening hids fun r hr => hsep.complete readings rfl r hr⟩
    | take =>
        have hnext : s.next q .take = some s' := hnext
        simp only [ThreadJoin.next, arrivals, learn_nil] at hnext
        split at hnext
        next => exact nomatch hnext
        next m pending hpending =>
          obtain rfl := Option.some.inj hnext
          have hm : m ∈ s.known := hplaced.pendingKnown m (by rw [hpending]; simp)
          -- the head of `pending` comes first among the unaccepted messages of its run
          refine ⟨(hacc.emit hm ?_).congr rfl rfl rfl, hplaced.take hpending⟩
          intro j hdue hj m₀ hm₀ hkey i hi hlt
          exact (hplaced.pendingFirst [] m pending hpending j hdue hj m₀ hm₀ hkey i hi
            hlt).resolve_right nofun
    | live =>
        have hnext : s.next q .live = some s' := hnext
        simp only [ThreadJoin.next, arrivals, learn_nil] at hnext
        obtain ⟨hphase, heq⟩ := Option.ite_none_right_eq_some.1 hnext
        obtain rfl := Option.some.inj heq
        have hpending : s.pending = [] := by
          rcases hphase with ⟨hopening, -⟩ | ⟨-, hpending⟩
          · refine List.eq_nil_iff_forall_not_mem.2 fun m hm => ?_
            have hknown := hplaced.pendingKnown m hm
            rw [hplaced.opening hopening] at hknown
            exact nomatch hknown
          · exact hpending
        exact ⟨hacc.congr rfl rfl rfl, hplaced.goLive hpending⟩
    | subscribe key store =>
        obtain ⟨⟨hlive, hqueue⟩, heq⟩ := Option.ite_none_right_eq_some.1 hnext
        obtain rfl := Option.some.inj heq
        have hqueue : s.queues key = none := hqueue
        have hkey : ∀ m ∈ arrivals q (.subscribe key store), m.key = key := by
          intro m hm
          have hm : m ∈ if key = none then [] else replayInto q.resumeCursor store := hm
          split at hm
          · exact nomatch hm
          · exact hgiven.keyed key store rfl m (List.mem_of_mem_filter hm)
        have hplaced' := hplaced.queue hlive hkey (hsep.follows nofun)
        rw [hqueue] at hplaced'
        exact ⟨(hacc.arrive hident (hfollows nofun)).congr rfl rfl rfl, hplaced'⟩
    | add m =>
        have hnext : s.next q (.add m) = some s' := hnext
        simp only [ThreadJoin.next, arrivals, learn_nil] at hnext
        obtain ⟨-, heq⟩ := Option.ite_none_left_eq_some.1 hnext
        obtain rfl := Option.some.inj heq
        exact ⟨hacc.congr rfl rfl rfl, hplaced.congr rfl rfl rfl rfl rfl⟩
    | put m =>
        have hnext : s.next q (.put m) = some s' := hnext
        simp only [ThreadJoin.next] at hnext
        split at hnext
        next => exact nomatch hnext
        next items hqueue =>
          obtain rfl := Option.some.inj hnext
          have hqueue : s.queues m.key = some items := hqueue
          have hlive : s.phase = .live := by
            by_contra hnot
            exact nomatch hqueue.symm.trans (hplaced.closed hnot m.key)
          have hkey : ∀ m' ∈ [m], m'.key = m.key :=
            fun m' hm' => congrArg StreamMessage.key (List.mem_singleton.1 hm')
          have hplaced' := hplaced.queue hlive hkey (hsep.follows nofun)
          rw [hqueue] at hplaced'
          exact ⟨(hacc.arrive hident (hfollows nofun)).congr rfl rfl rfl,
            hplaced'.congr rfl rfl rfl rfl rfl⟩
    | miss m =>
        have hnext : s.next q (.miss m) = some s' := hnext
        simp only [ThreadJoin.next, arrivals, learn_nil] at hnext
        split at hnext
        next =>
          obtain rfl := Option.some.inj hnext
          exact ⟨hacc.congr rfl rfl rfl, hplaced.congr rfl rfl rfl rfl rfl⟩
        next => exact nomatch hnext
    | drain key =>
        have hnext : s.next q (.drain key) = some s' := hnext
        simp only [ThreadJoin.next, arrivals, learn_nil] at hnext
        split at hnext
        next => exact nomatch hnext
        next => exact nomatch hnext
        next m items hqueue =>
          obtain rfl := Option.some.inj hnext
          have hm : m ∈ s.known := (hplaced.queueKnown key _ hqueue m List.mem_cons_self).1
          refine ⟨(hacc.emit hm ?_).congr rfl rfl rfl, hplaced.drain hqueue⟩
          intro j hdue hj m₀ hm₀ hkey i hi hlt
          exact (hplaced.queueFirst key _ hqueue [] m items rfl j hdue hj m₀ hm₀ hkey i hi
            hlt).resolve_right nofun

omit [DecidableEq δ] in
/-- An id names one message of a run, added or not. -/
theorem unique_of_added (hgiven : Given q s l) (hm : m ∈ messages q s l) :
    ∀ m' ∈ s.added, m'.key = m.key → m'.id = m.id → m'.id ≠ none → m' = m := by
  intro m' hm' hkey hid hne
  refine hgiven.unique m' ?_ m hm hkey hid hne
  exact List.mem_append_right _ (List.mem_append_left _ hm')

omit [DecidableEq δ] in
theorem tracked_inductive : ((threadJoins q).restrict (Orderly q)).Inductive (Tracked q) where
  init s hs := by
    obtain rfl := hs
    exact nofun
  step s l s' hs hstep := by
    obtain ⟨hnext, hgiven, hsep⟩ := hstep
    have hnext : s.next q l = some s' := hnext
    cases l with
    | restore readings =>
        obtain ⟨-, heq⟩ := Option.ite_none_right_eq_some.1 hnext
        obtain rfl := Option.some.inj heq
        exact hs.of_known rfl rfl rfl (List.subset_append_left _ _) fun _ => id
    | take =>
        simp only [ThreadJoin.next, arrivals, learn_nil] at hnext
        split at hnext
        next => exact nomatch hnext
        next m pending hpending =>
          obtain rfl := Option.some.inj hnext
          exact (hs.emit m).of_known rfl rfl rfl (List.Subset.refl _) fun _ => id
    | live =>
        simp only [ThreadJoin.next, arrivals, learn_nil] at hnext
        obtain ⟨-, heq⟩ := Option.ite_none_right_eq_some.1 hnext
        obtain rfl := Option.some.inj heq
        exact hs.of_known rfl rfl rfl (List.Subset.refl _) fun _ => id
    | subscribe key store =>
        obtain ⟨-, heq⟩ := Option.ite_none_right_eq_some.1 hnext
        obtain rfl := Option.some.inj heq
        exact hs.subscribe (hsep.held key store rfl)
    | add m =>
        simp only [ThreadJoin.next, arrivals, learn_nil] at hnext
        obtain ⟨-, heq⟩ := Option.ite_none_left_eq_some.1 hnext
        obtain rfl := Option.some.inj heq
        exact hs.add
    | put m =>
        simp only [ThreadJoin.next] at hnext
        split at hnext
        next => exact nomatch hnext
        next items hqueue =>
          obtain rfl := Option.some.inj hnext
          refine hs.put hqueue (unique_of_added hgiven ?_)
          exact List.mem_append_left _ (List.mem_append_right _ (List.mem_singleton_self m))
    | miss m =>
        simp only [ThreadJoin.next, arrivals, learn_nil] at hnext
        split at hnext
        next hqueue =>
          obtain rfl := Option.some.inj hnext
          refine hs.miss hqueue (unique_of_added hgiven ?_)
          exact List.mem_append_right _ (List.mem_append_right _ (List.mem_singleton_self m))
        next => exact nomatch hnext
    | drain key =>
        simp only [ThreadJoin.next, arrivals, learn_nil] at hnext
        split at hnext
        next => exact nomatch hnext
        next => exact nomatch hnext
        next m items hqueue =>
          obtain rfl := Option.some.inj hnext
          obtain ⟨-, -, hqueues, -⟩ := emit_frame q s m
          refine (hs.emit m).of_known rfl rfl rfl (List.Subset.refl _) fun k hk => ?_
          have hne : k ≠ key := by
            rintro rfl
            exact nomatch hqueue.symm.trans ((congrFun hqueues k).symm.trans hk)
          exact (if_neg hne).trans hk

theorem lawful_of_sound (hacc : Accepted q s) (hplaced : Placed q s) (htracked : Tracked q s) :
    s.Lawful q where
  once m harrived i hid hafter hpass hwaits := by
    have hm : m ∈ s.known := by
      rcases harrived with hm | ⟨hm, hcome⟩
      · exact hm
      · exact (htracked m hm i ⟨hid, hafter⟩).resolve_right hcome
    have hi : i ∈ s.emittedIds := by
      by_contra hi
      exact hwaits (hplaced.waiting m hm i ⟨hid, hafter⟩ hi)
    rw [hacc.count m hm i hi hid, if_pos hpass]
  atMost m hne := by
    obtain ⟨i, hid⟩ := Option.ne_none_iff_exists'.1 hne
    by_cases hm : m ∈ s.emitted
    · obtain ⟨hknown, hseen⟩ := hacc.emitted m hm
      rw [hacc.count m hknown i (hseen i hid) hid]
      split <;> omega
    · rw [List.count_eq_zero.2 hm]
      omega
  order := hacc.sorted

/-! ## Messages that share an id -/

/-- No two emitted messages share an id. -/
def Distinct (s : ThreadJoin δ) : Prop :=
  ∀ m ∈ s.emitted, ∀ m' ∈ s.emitted, ∀ i, m.id = some i → m'.id = some i → m = m'

/-- Emitted ids are remembered, and each stands for one message. -/
structure Marked (s : ThreadJoin δ) : Prop where
  ids : ∀ m ∈ s.emitted, ∀ i, m.id = some i → i ∈ s.emittedIds
  distinct : s.Distinct

omit [DecidableEq δ] in
theorem Marked.emit (h : Marked s) : Marked (s.emit q m) := by
  rcases emit_cases q s m with ⟨hemit, -⟩ | ⟨hid, hemit⟩ | ⟨j, hid, hnew, -, hemit⟩
  · rw [hemit]
    exact h
  · rw [hemit]
    refine ⟨fun m₀ hm₀ i hi => ?_, fun m₀ hm₀ m₁ hm₁ i hi hi' => ?_⟩
    · rcases mem_push hm₀ with hm₀ | ⟨rfl, -⟩
      · exact h.ids m₀ hm₀ i hi
      · exact nomatch hid.symm.trans hi
    · rcases mem_push hm₀ with hm₀ | ⟨rfl, -⟩
      · rcases mem_push hm₁ with hm₁ | ⟨rfl, -⟩
        · exact h.distinct m₀ hm₀ m₁ hm₁ i hi hi'
        · exact nomatch hid.symm.trans hi'
      · exact nomatch hid.symm.trans hi
  · rw [hemit]
    have hold (m₀ : StreamMessage δ) (hm₀ : m₀ ∈ s.emitted) : m₀.id ≠ m.id := by
      intro heq
      exact hnew (h.ids m₀ hm₀ j (heq.trans hid))
    refine ⟨fun m₀ hm₀ i hi => ?_, fun m₀ hm₀ m₁ hm₁ i hi hi' => ?_⟩
    · rcases mem_push hm₀ with hm₀ | ⟨rfl, -⟩
      · exact List.mem_cons_of_mem j (h.ids m₀ hm₀ i hi)
      · obtain rfl := Option.some.inj (hid.symm.trans hi)
        exact List.mem_cons_self
    · rcases mem_push hm₀ with hm₀ | ⟨hm₀, -⟩
      · rcases mem_push hm₁ with hm₁ | ⟨hm₁, -⟩
        · exact h.distinct m₀ hm₀ m₁ hm₁ i hi hi'
        · exact absurd (hi.trans (hm₁ ▸ hi').symm) (hold m₀ hm₀)
      · rcases mem_push hm₁ with hm₁ | ⟨hm₁, -⟩
        · exact absurd (hi'.trans (hm₀ ▸ hi).symm) (hold m₁ hm₁)
        · exact hm₀.trans hm₁.symm

omit [DecidableEq δ] in
theorem Marked.congr (h : Marked s) (hids : s'.emittedIds = s.emittedIds)
    (hemitted : s'.emitted = s.emitted) : Marked s' := by
  refine ⟨?_, ?_⟩
  · rw [hids, hemitted]
    exact h.ids
  · unfold Distinct
    rw [hemitted]
    exact h.distinct

omit [DecidableEq δ] in
/-- A step emits one message, or none. -/
theorem next_emits (h : s.next q l = some s') :
    (s'.emittedIds = s.emittedIds ∧ s'.emitted = s.emitted) ∨
    ∃ m, s'.emittedIds = (s.emit q m).emittedIds ∧ s'.emitted = (s.emit q m).emitted := by
  cases l with
  | restore readings =>
      obtain ⟨-, heq⟩ := Option.ite_none_right_eq_some.1 h
      obtain rfl := Option.some.inj heq
      exact .inl ⟨rfl, rfl⟩
  | take =>
      simp only [ThreadJoin.next, arrivals, learn_nil] at h
      split at h
      next => exact nomatch h
      next m pending hpending =>
        obtain rfl := Option.some.inj h
        exact .inr ⟨m, rfl, rfl⟩
  | live =>
      obtain ⟨-, heq⟩ := Option.ite_none_right_eq_some.1 h
      obtain rfl := Option.some.inj heq
      exact .inl ⟨rfl, rfl⟩
  | subscribe key store =>
      obtain ⟨-, heq⟩ := Option.ite_none_right_eq_some.1 h
      obtain rfl := Option.some.inj heq
      exact .inl ⟨rfl, rfl⟩
  | add m =>
      obtain ⟨-, heq⟩ := Option.ite_none_left_eq_some.1 h
      obtain rfl := Option.some.inj heq
      exact .inl ⟨rfl, rfl⟩
  | put m =>
      simp only [ThreadJoin.next] at h
      split at h
      next => exact nomatch h
      next items hqueue =>
        obtain rfl := Option.some.inj h
        exact .inl ⟨rfl, rfl⟩
  | miss m =>
      simp only [ThreadJoin.next] at h
      split at h
      next =>
        obtain rfl := Option.some.inj h
        exact .inl ⟨rfl, rfl⟩
      next => exact nomatch h
  | drain key =>
      simp only [ThreadJoin.next, arrivals, learn_nil] at h
      split at h
      next => exact nomatch h
      next => exact nomatch h
      next m items hqueue =>
        obtain rfl := Option.some.inj h
        exact .inr ⟨m, rfl, rfl⟩

omit [DecidableEq δ] in
theorem marked_inductive : (threadJoins q).Inductive Marked where
  init s hs := by
    obtain rfl := hs
    exact ⟨nofun, nofun⟩
  step s l s' hs hstep := by
    rcases next_emits hstep with ⟨hids, hemitted⟩ | ⟨m, hids, hemitted⟩
    · exact hs.congr hids hemitted
    · exact hs.emit.congr hids hemitted

/-! ## Joined streams -/

/-- While no two runs share an id, every queue continues what was restored, Redis returns all
entries after the cursor and what came before its queue is restored or buffered, a joined stream
is lawful; of two messages that share an id, no stream emits both. -/
theorem joined_lawful (q : JoinRequest δ) (s : ThreadJoin δ)
    (h : (threadJoins q).Reachable s) :
    (((threadJoins q).restrict (Orderly q)).Reachable s → s.Lawful q) ∧ s.Distinct := by
  refine ⟨fun hrestricted => ?_, (marked_inductive.invariant s h).distinct⟩
  obtain ⟨hacc, hplaced⟩ := sound_inductive.invariant s hrestricted
  exact lawful_of_sound hacc hplaced (tracked_inductive.invariant s hrestricted)

/-- A request of a client that has nothing yet; messages are their own payload. -/
def plainJoin : JoinRequest Nat where
  codec :=
    { decode := fun m => some ("messages", m.data)
      done := fun _ => false
      runDone := fun _ => 0
      lifecycle := fun _ => true }
  modes := ["run_modes"]
  lastEventId := none

/-- The message `5-0` of a run. -/
def fiveOf (run : RunId) : StreamMessage Nat := ⟨some run, some (5, 0), run⟩

/-- A step that concerns no message but one is orderly. -/
theorem orderly_single {s : ThreadJoin Nat} {l : JoinStep Nat} {m : StreamMessage Nat}
    (hone : ∀ m' ∈ messages plainJoin s l, m' = m)
    (hkeyed : ∀ key store, l = .subscribe key store → ∀ m' ∈ store, m'.key = key)
    (hrestore : ∀ readings, l ≠ .restore readings)
    (hfollows : FollowAll s.known (arrivals plainJoin l)) (hmissed : s.missed = []) :
    Orderly plainJoin s l := by
  refine ⟨⟨fun m' hm' m'' hm'' _ _ _ => ?_, hkeyed⟩, ⟨fun m' hm' m'' hm'' _ _ => ?_, fun _ => ?_,
    fun readings hl => absurd hl (hrestore readings), fun key store _ m' hm' => ?_⟩⟩
  · exact (hone m' hm').trans (hone m'' hm'').symm
  · rw [hone m' (List.mem_append_left _ hm'), hone m'' (List.mem_append_left _ hm'')]
  · exact hfollows
  · rw [hmissed] at hm'
    exact nomatch hm'

/-- A run whose message another process adds while the client joins. -/
theorem joined_lawful_single : ∃ s, ((threadJoins plainJoin).restrict (Orderly plainJoin)).Reachable
    s ∧ s.Lawful plainJoin ∧ s.added = [fiveOf 1] ∧ s.emitted = [fiveOf 1] := by
  let joined : ThreadJoin Nat := { ({} : ThreadJoin Nat) with phase := .live }
  let added := { joined with added := [fiveOf 1], coming := [fiveOf 1] }
  let subscribed := added.setQueue (some 1) []
  let queued := { (subscribed.learn [fiveOf 1]).setQueue (some 1) [fiveOf 1] with
    coming := subscribed.comingAfter (fiveOf 1) }
  let drained := (queued.emit plainJoin (fiveOf 1)).setQueue (some 1) []
  have hlive : (threadJoins plainJoin).step {} .live joined := rfl
  have hadd : (threadJoins plainJoin).step joined (.add (fiveOf 1)) added := rfl
  have hsubscribe : (threadJoins plainJoin).step added (.subscribe (some 1) []) subscribed := rfl
  have hput : (threadJoins plainJoin).step subscribed (.put (fiveOf 1)) queued := rfl
  have hdrain : (threadJoins plainJoin).step queued (.drain (some 1)) drained := rfl
  have hlive' : Orderly plainJoin {} .live :=
    orderly_single (m := fiveOf 1) nofun nofun nofun trivial rfl
  have hadd' : Orderly plainJoin joined (.add (fiveOf 1)) :=
    orderly_single (m := fiveOf 1) (by decide) nofun nofun trivial rfl
  have hsubscribe' : Orderly plainJoin added (.subscribe (some 1) []) := by
    refine orderly_single (m := fiveOf 1) (by decide) ?_ nofun trivial rfl
    rintro key store hl m hm
    cases hl
    exact nomatch hm
  have hput' : Orderly plainJoin subscribed (.put (fiveOf 1)) :=
    orderly_single (m := fiveOf 1) (by decide) nofun nofun ⟨.inr nofun, trivial⟩ rfl
  have hdrain' : Orderly plainJoin queued (.drain (some 1)) :=
    orderly_single (m := fiveOf 1) (by decide) nofun nofun trivial rfl
  have hreach : ((threadJoins plainJoin).restrict (Orderly plainJoin)).Reachable drained :=
    ⟨_, {}, rfl, .snoc (.snoc (.snoc (.snoc (.snoc .nil ⟨hlive, hlive'⟩) ⟨hadd, hadd'⟩)
      ⟨hsubscribe, hsubscribe'⟩) ⟨hput, hput'⟩) ⟨hdrain, hdrain'⟩⟩
  have hreach' : (threadJoins plainJoin).Reachable drained := hreach.of_restrict
  exact ⟨drained, hreach, (joined_lawful plainJoin drained hreach').1 hreach, rfl, rfl⟩

/-- Two runs of a thread with a message `5-0` each. -/
def collision : List (JoinStep Nat) :=
  [.live, .subscribe (some 1) [fiveOf 1], .subscribe (some 2) [fiveOf 2], .drain (some 1),
    .drain (some 2)]

/-- Only the first of them is emitted. -/
theorem joined_message_lost : ∃ s, (threadJoins plainJoin).Reachable s ∧
    fiveOf 2 ∈ s.known ∧ afterCursor plainJoin.resumeCursor (5, 0) = true ∧
      plainJoin.passes (fiveOf 2) = true ∧ s.queues (some 2) = some [] ∧ s.pending = [] ∧
        s.emitted = [fiveOf 1] ∧ ¬ s.Lawful plainJoin := by
  have hplay : (TSys.play (ThreadJoin.next plainJoin) {} collision).any (fun s =>
      decide (s.known = [fiveOf 1, fiveOf 2]) && decide (s.queues (some 2) = some []) &&
        decide (s.pending = []) && decide (s.emitted = [fiveOf 1])) = true := by decide +kernel
  obtain ⟨s, hs, hcheck⟩ :=
    TSys.play_reachable (T := threadJoins plainJoin) (fun s l s' h => ⟨l, h⟩) rfl hplay
  simp only [Bool.and_eq_true, decide_eq_true_eq] at hcheck
  obtain ⟨⟨⟨hknown, hqueue⟩, hpending⟩, hemitted⟩ := hcheck
  have hmem : fiveOf 2 ∈ s.known := by
    rw [hknown]
    decide
  refine ⟨s, hs, hmem, rfl, by decide, hqueue, hpending, hemitted, fun hlawful => ?_⟩
  have hwaits : ¬ s.Waits (fiveOf 2) := by
    rintro (hwait | ⟨items, hitems, hwait⟩)
    · rw [hpending] at hwait
      exact nomatch hwait
    · obtain rfl := Option.some.inj (hqueue.symm.trans hitems)
      exact nomatch hwait
  have hcount := hlawful.once (fiveOf 2) (.inl hmem) (5, 0) rfl rfl (by decide) hwaits
  rw [hemitted] at hcount
  exact absurd hcount (by decide)

end ThreadJoin

end GraphHarbor
