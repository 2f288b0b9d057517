import GraphHarbor.Reaper
import GraphHarbor.Footprint

/-!
# The buffer of message deltas

`_StreamEventBuffer` collects the deltas of a run for `publish`, in the task of `execute`
and in a timer task, under one lock. It clears `pending` only after `publish` returned,
and a cancellation can reach `publish` after its transaction took effect: the events of
such a publish stay pending and the next one records them again. As long as no
transaction takes effect after a publish was cut short in this way, every delta is
recorded at most once, in the order of the calls and without a gap.
-/

namespace GraphHarbor

open Kit Txn

variable {α ε : Type}

/-! ## The buffer and its tasks -/

/-- How far `publish` came: its transaction did not take effect yet, or it did and
`publish` waits for the answer of the database or for the fan-out. -/
inductive Phase
  | transaction | committed
  deriving DecidableEq, Repr

/-- How a call of `add` or `flush` ended. -/
inductive Outcome (ε : Type)
  | ok
  | raised (x : ε)
  | cancelled
  deriving DecidableEq, Repr

/-- The task of `execute`, at a suspension point. -/
inductive Producer (α ε : Type)
  /-- Outside of the buffer; the last call was a `flush` or an `add`, and ended so. -/
  | idle (flush : Bool) (last : Outcome ε)
  /-- `add` waits for the lock. -/
  | adding (e : α)
  /-- `flush` waits for the lock. -/
  | flushing
  /-- `flush` or `add` holds the lock, inside `publish`. -/
  | publishing (flush : Bool) (phase : Phase)
  /-- The `finally` of `flush` waits for the timer it cancelled. -/
  | joining (result : Outcome ε)
  deriving DecidableEq, Repr

/-- The task of `_flush_after_delay`. -/
inductive Timer
  | sleeping
  | waiting
  | publishing (phase : Phase)
  | done
  deriving DecidableEq, Repr

/-- `_StreamEventBuffer` with its tasks. `added` and `recorded` are the events of all calls
and of all committed transactions, `durable` counts the pending events a transaction has
recorded, and `raised` is what the last failed `publish` raised. -/
structure StreamEventBuffer (α ε : Type) where
  pending : List α := []
  timer : Option Timer := none
  error : Option ε := none
  producer : Producer α ε := .idle false .ok
  added : List α := []
  recorded : List α := []
  durable : Nat := 0
  raised : Option ε := none
  deriving DecidableEq, Repr

namespace Producer

def isPublishing : Producer α ε → Bool
  | publishing .. => true
  | _ => false

def isJoining : Producer α ε → Bool
  | joining _ => true
  | _ => false

end Producer

def Timer.isPublishing : Timer → Bool
  | publishing _ => true
  | _ => false

/-- A choice of the event loop or of the environment. -/
inductive BufferStep (α ε : Type)
  /-- The producer calls `add`. -/
  | add (e : α)
  /-- The producer calls `flush`. -/
  | flush
  /-- The producer gets the lock. -/
  | enter
  /-- The delay of the timer is over. -/
  | fire
  /-- The timer gets the lock. -/
  | enterTimer
  /-- The transaction of `publish` takes effect. -/
  | commit
  /-- `publish` returns. -/
  | ret
  /-- `publish` raises an exception. -/
  | fail (x : ε)
  /-- The task of `execute` is cancelled. -/
  | cancel
  /-- The cancellation by `flush` reaches the timer. -/
  | cancelTimer
  /-- The cancelled timer has ended. -/
  | join
  deriving DecidableEq, Repr

namespace StreamEventBuffer

variable (b : StreamEventBuffer α ε)

/-- The lock is held across a suspension only inside `publish`. -/
def locked : Bool := b.producer.isPublishing || b.timer.any Timer.isPublishing

/-- `self.pending.append(event)`. -/
def append (e : α) : StreamEventBuffer α ε :=
  { b with pending := b.pending ++ [e], added := b.added ++ [e] }

/-- `if self.timer is None or self.timer.done()`: start a timer. -/
def startTimer : StreamEventBuffer α ε :=
  match b.timer with
  | none | some .done => { b with timer := some .sleeping }
  | some _ => b

/-- The `finally` of `flush`. -/
def leave (result : Outcome ε) : StreamEventBuffer α ε :=
  match b.timer with
  | none => { b with producer := .idle true result }
  | some _ => { b with producer := .joining result }

/-- The end of a call that held the lock. -/
def ends (flush : Bool) (result : Outcome ε) : StreamEventBuffer α ε :=
  if flush then b.leave result else { b with producer := .idle false result }

/-- `self.pending = []`. -/
def published : StreamEventBuffer α ε := { b with pending := [], durable := 0 }

/-- `self.error = exc`. -/
def failed (x : ε) : StreamEventBuffer α ε := { b with error := some x, raised := some x }

/-- The transaction of `publish(self.pending)` took effect. -/
def recordPending : StreamEventBuffer α ε :=
  { b with recorded := b.recorded ++ b.pending, durable := b.pending.length }

/-- `add` under the lock. -/
def addLocked (e : α) : StreamEventBuffer α ε :=
  match b.error with
  | some x => { b with producer := .idle false (.raised x) }
  | none =>
      if (b.append e).pending.length ≥ 32 then
        { b.append e with producer := .publishing false .transaction }
      else { (b.append e).startTimer with producer := .idle false .ok }

/-- `flush` under the lock. -/
def flushLocked : StreamEventBuffer α ε :=
  match b.error with
  | some x => b.leave (.raised x)
  | none =>
      if b.pending.isEmpty then b.leave .ok
      else { b with producer := .publishing true .transaction }

/-- `_flush_after_delay` under the lock. -/
def timerLocked : StreamEventBuffer α ε :=
  if b.pending.isEmpty then { b with timer := some .done }
  else { b with timer := some (.publishing .transaction) }

/-- One step; `none` when it is not possible. A timer that `flush` has cancelled takes no
step of its own, but its transaction may still take effect. -/
def next : BufferStep α ε → Option (StreamEventBuffer α ε)
  | .add e =>
      match b.producer with
      | .idle .. => some { b with producer := .adding e }
      | _ => none
  | .flush =>
      match b.producer with
      | .idle .. => some { b with producer := .flushing }
      | _ => none
  | .enter =>
      if b.locked then none
      else
        match b.producer with
        | .adding e => some (b.addLocked e)
        | .flushing => some b.flushLocked
        | _ => none
  | .fire =>
      if b.producer.isJoining then none
      else
        match b.timer with
        | some .sleeping => some { b with timer := some .waiting }
        | _ => none
  | .enterTimer =>
      if b.locked || b.producer.isJoining then none
      else
        match b.timer with
        | some .waiting => some b.timerLocked
        | _ => none
  | .commit =>
      match b.producer, b.timer with
      | .publishing flush .transaction, _ =>
          some { b.recordPending with producer := .publishing flush .committed }
      | _, some (.publishing .transaction) =>
          some { b.recordPending with timer := some (.publishing .committed) }
      | _, _ => none
  | .ret =>
      match b.producer, b.timer with
      | .publishing flush .committed, _ => some (b.published.ends flush .ok)
      | .joining _, _ => none
      | _, some (.publishing .committed) => some { b.published with timer := some .done }
      | _, _ => none
  | .fail x =>
      match b.producer, b.timer with
      | .publishing flush _, _ => some ((b.failed x).ends flush (.raised x))
      | .joining _, _ => none
      | _, some (.publishing _) => some { b.failed x with timer := some .done }
      | _, _ => none
  | .cancel =>
      match b.producer with
      | .idle .. => none
      | .adding _ => some { b with producer := .idle false .cancelled }
      | .flushing => some (b.leave .cancelled)
      | .publishing flush _ => some (b.ends flush .cancelled)
      -- `contextlib.suppress(asyncio.CancelledError)`
      | .joining _ => some b
  | .cancelTimer =>
      match b.producer, b.timer with
      | .joining _, some .done => none
      | .joining _, some _ => some { b with timer := some .done }
      | _, _ => none
  | .join =>
      match b.producer, b.timer with
      | .joining result, some .done => some { b with timer := none, producer := .idle true result }
      | _, _ => none

/-! ## The invariant -/

/-- No transaction takes effect while events recorded by an earlier publish are pending:
no publish was cut short past its commit. -/
def Uncut (b : StreamEventBuffer α ε) (l : BufferStep α ε) : Prop := l = .commit → b.durable = 0

/-- The recorded events and the pending ones not yet recorded are the added ones. -/
structure Split (b : StreamEventBuffer α ε) : Prop where
  added : b.recorded ++ b.pending.drop b.durable = b.added
  bound : b.durable ≤ b.pending.length

/-- What holds while a task is inside `publish`. -/
structure Publishes (b : StreamEventBuffer α ε) (phase : Phase) : Prop where
  pending : b.pending ≠ []
  durable : phase = .committed → b.durable = b.pending.length

/-- The part of the invariant that does not look at the producer. -/
structure Base (b : StreamEventBuffer α ε) : Prop extends b.Split where
  error : b.error = b.raised
  timer : ∀ phase, b.timer = some (.publishing phase) → b.Publishes phase

/-- What the result of a `flush` says about the buffer. -/
structure Tells (b : StreamEventBuffer α ε) (result : Outcome ε) : Prop where
  ok : result = .ok → b.error = none ∧ b.pending = []
  raised : ∀ x, result = .raised x → b.error = some x

structure Inv (b : StreamEventBuffer α ε) : Prop extends b.Base where
  exclusive : b.producer.isPublishing = true → b.timer.any Timer.isPublishing = false
  publishing : ∀ flush phase, b.producer = .publishing flush phase →
    b.error = none ∧ b.Publishes phase
  joining : ∀ result, b.producer = .joining result → b.Tells result
  flushed : b.producer = .idle true .ok → b.pending = []

variable {b} {b' : StreamEventBuffer α ε} {l : BufferStep α ε} {x : ε} {phase : Phase}

theorem Inv.empty : Inv ({} : StreamEventBuffer α ε) where
  added := rfl
  bound := le_rfl
  error := rfl
  timer := nofun
  exclusive := nofun
  publishing := nofun
  joining := nofun
  flushed := nofun

theorem Split.append (h : b.Split) (e : α) : (b.append e).Split where
  added := by
    show b.recorded ++ (b.pending ++ [e]).drop b.durable = b.added ++ [e]
    rw [List.drop_append_of_le_length h.bound, ← List.append_assoc, h.added]
  bound := by
    have hbound := h.bound
    simp only [StreamEventBuffer.append, List.length_append]
    omega

theorem Split.recordPending (h : b.Split) (hdurable : b.durable = 0) : b.recordPending.Split where
  added := by
    have hadded := h.added
    rw [hdurable, List.drop_zero] at hadded
    simp [StreamEventBuffer.recordPending, hadded]
  bound := le_rfl

theorem Split.published (h : b.Split) (hdurable : b.durable = b.pending.length) :
    b.published.Split where
  added := by
    have hadded := h.added
    rw [hdurable, List.drop_length] at hadded
    simpa [StreamEventBuffer.published] using hadded
  bound := le_rfl

theorem Split.inOrder (h : b.Split) : b.recorded <+: b.added := ⟨_, h.added⟩

/-- A transaction that records pending events again breaks the prefix. -/
theorem Split.recordPending_prefix_iff (h : b.Split) :
    b.recordPending.recorded <+: b.recordPending.added ↔ b.durable = 0 := by
  constructor
  · intro hprefix
    have hle := hprefix.length_le
    have hlength := congrArg List.length h.added
    have hbound := h.bound
    simp only [StreamEventBuffer.recordPending, List.length_append, List.length_drop] at hle hlength
    omega
  · exact fun hdurable => (h.recordPending hdurable).inOrder

theorem Tells.cancelled : b.Tells .cancelled := ⟨nofun, nofun⟩

theorem Publishes.congr (h : b.Publishes phase) (hpending : b'.pending = b.pending)
    (hdurable : b'.durable = b.durable) : b'.Publishes phase where
  pending := hpending ▸ h.pending
  durable hphase := by rw [hdurable, hpending, h.durable hphase]

theorem Base.withProducer {producer : Producer α ε} (h : b.Base) :
    Base { b with producer := producer } :=
  ⟨⟨h.added, h.bound⟩, h.error, fun phase htimer => (h.timer phase htimer).congr rfl rfl⟩

/-- A producer that is outside of `publish` and does not claim an empty buffer. -/
theorem Base.inv {producer : Producer α ε} (h : b.Base)
    (hproducer : (∃ last, producer = .idle false last) ∨ (∃ e, producer = .adding e) ∨
      producer = .flushing) : Inv { b with producer := producer } := by
  refine ⟨h.withProducer, ?_, ?_, ?_, ?_⟩ <;>
    rcases hproducer with ⟨last, rfl⟩ | ⟨e, rfl⟩ | rfl <;> nofun

theorem Base.leave {result : Outcome ε} (h : b.Base) (hresult : b.Tells result) :
    (b.leave result).Inv := by
  unfold StreamEventBuffer.leave
  split
  · refine ⟨h.withProducer, nofun, nofun, nofun, fun hproducer => ?_⟩
    obtain ⟨-, rfl⟩ := Producer.idle.inj hproducer
    exact (hresult.ok rfl).2
  · refine ⟨h.withProducer, nofun, nofun, ?_, nofun⟩
    rintro _ ⟨rfl⟩
    exact ⟨hresult.ok, hresult.raised⟩

theorem Base.ends {flush : Bool} {result : Outcome ε} (h : b.Base) (hresult : b.Tells result) :
    (b.ends flush result).Inv := by
  unfold StreamEventBuffer.ends
  split
  · exact h.leave hresult
  · exact h.inv (.inl ⟨_, rfl⟩)

/-- A task enters `publish`. -/
theorem Base.publish {flush : Bool} (h : b.Base) (herror : b.error = none)
    (hpending : b.pending ≠ []) (hfree : b.timer.any Timer.isPublishing = false) :
    Inv { b with producer := .publishing flush .transaction } := by
  refine ⟨h.withProducer, fun _ => hfree, ?_, nofun, nofun⟩
  rintro _ _ ⟨rfl, rfl⟩
  exact ⟨herror, hpending, nofun⟩

theorem Base.append (h : b.Base) (e : α) (hfree : b.timer.any Timer.isPublishing = false) :
    (b.append e).Base := by
  refine ⟨h.toSplit.append e, h.error, fun phase htimer => ?_⟩
  rw [show b.timer = some (.publishing phase) from htimer] at hfree
  cases hfree

theorem Base.startTimer (h : b.Base) : b.startTimer.Base := by
  unfold StreamEventBuffer.startTimer
  split
  · exact ⟨⟨h.added, h.bound⟩, h.error, nofun⟩
  · exact ⟨⟨h.added, h.bound⟩, h.error, nofun⟩
  · exact h

theorem Base.addLocked (h : b.Base) (e : α) (hfree : b.timer.any Timer.isPublishing = false) :
    (b.addLocked e).Inv := by
  unfold StreamEventBuffer.addLocked
  split
  · exact h.inv (.inl ⟨_, rfl⟩)
  · next herror =>
      split
      · exact (h.append e hfree).publish herror (by simp [StreamEventBuffer.append]) hfree
      · exact (h.append e hfree).startTimer.inv (.inl ⟨_, rfl⟩)

theorem Base.flushLocked (h : b.Base) (hfree : b.timer.any Timer.isPublishing = false) :
    b.flushLocked.Inv := by
  unfold StreamEventBuffer.flushLocked
  split
  · next x herror => exact h.leave ⟨nofun, fun y hy => by rw [herror, Outcome.raised.inj hy]⟩
  · next herror =>
      split
      · next hempty => exact h.leave ⟨fun _ => ⟨herror, List.isEmpty_iff.1 hempty⟩, nofun⟩
      · next hpending => exact h.publish herror (by simpa using hpending) hfree

/-- A step of the timer, which enters `publish` only while the producer is outside. -/
theorem Inv.withTimer {timer : Option Timer} (h : b.Inv)
    (htimer : ∀ phase, timer = some (.publishing phase) →
      b.producer.isPublishing = false ∧ b.Publishes phase) : Inv { b with timer := timer } := by
  refine ⟨⟨⟨h.added, h.bound⟩, h.error, fun phase hphase => ?_⟩, fun hp => ?_,
    fun flush phase hp => ?_, fun result hp => ?_, h.flushed⟩
  · exact (htimer phase hphase).2.congr rfl rfl
  · refine Bool.eq_false_iff.2 fun hpublishing => ?_
    obtain ⟨timer, rfl, hpublishing⟩ := (Option.any_eq_true _ _).1 hpublishing
    cases timer with
    | publishing phase =>
        have hproducer := (htimer phase rfl).1
        rw [show b.producer.isPublishing = true from hp] at hproducer
        cases hproducer
    | sleeping | waiting | done => cases hpublishing
  · obtain ⟨herror, hpublishes⟩ := h.publishing flush phase hp
    exact ⟨herror, hpublishes.congr rfl rfl⟩
  · exact ⟨(h.joining result hp).ok, (h.joining result hp).raised⟩

theorem free_of_unlocked (h : b.locked = false) : b.timer.any Timer.isPublishing = false :=
  (Bool.or_eq_false_iff.1 h).2

/-- The two tasks are not both inside `publish`. -/
theorem Inv.timer_exclusive (h : b.Inv) (htimer : b.timer = some (.publishing phase)) :
    b.producer.isPublishing = false := by
  refine Bool.eq_false_iff.2 fun hproducer => ?_
  have hfree := h.exclusive hproducer
  rw [htimer] at hfree
  cases hfree

/-- The rest of `publish`'s caller, after `pending` was cleared. -/
theorem Inv.published (h : b.Inv) (hphase : b.Publishes .committed) : b.published.Split :=
  h.toSplit.published (hphase.durable rfl)

theorem Inv.commit (h : b.Inv) (hl : b.Uncut .commit) (hstep : b.next .commit = some b') :
    b'.Inv := by
  have hrecorded := h.toSplit.recordPending (hl rfl)
  simp only [StreamEventBuffer.next] at hstep
  split at hstep
  · next flush _ hproducer =>
      obtain rfl := Option.some.inj hstep
      obtain ⟨herror, hpublishes⟩ := h.publishing _ _ hproducer
      have hfree : b.timer.any Timer.isPublishing = false := h.exclusive (by rw [hproducer]; rfl)
      refine ⟨⟨⟨hrecorded.added, hrecorded.bound⟩, h.error, fun phase htimer => ?_⟩,
        fun _ => hfree, ?_, nofun, nofun⟩
      · rw [show b.timer = some (.publishing phase) from htimer] at hfree
        cases hfree
      · rintro _ _ ⟨rfl, rfl⟩
        exact ⟨herror, hpublishes.pending, fun _ => rfl⟩
  · next htimer _ =>
      obtain rfl := Option.some.inj hstep
      have hpending := (h.timer _ htimer).pending
      have hproducer := h.timer_exclusive htimer
      refine ⟨⟨⟨hrecorded.added, hrecorded.bound⟩, h.error, ?_⟩, fun hp => ?_,
        fun flush phase hp => ?_, fun result hp => ?_, fun hp => ?_⟩
      · rintro _ ⟨rfl⟩
        exact ⟨hpending, fun _ => rfl⟩
      · rw [show b.producer.isPublishing = true from hp] at hproducer
        cases hproducer
      · rw [show b.producer = .publishing flush phase from hp] at hproducer
        cases hproducer
      · exact ⟨(h.joining result hp).ok, (h.joining result hp).raised⟩
      · exact h.flushed hp
  · cases hstep

theorem Inv.ret (h : b.Inv) (hstep : b.next .ret = some b') : b'.Inv := by
  simp only [StreamEventBuffer.next] at hstep
  split at hstep
  · next flush _ hproducer =>
      obtain rfl := Option.some.inj hstep
      obtain ⟨herror, hpublishes⟩ := h.publishing _ _ hproducer
      have hfree : b.timer.any Timer.isPublishing = false := h.exclusive (by rw [hproducer]; rfl)
      refine Base.ends ⟨h.published hpublishes, h.error, fun phase htimer => ?_⟩
        ⟨fun _ => ⟨herror, rfl⟩, nofun⟩
      rw [show b.timer = some (.publishing phase) from htimer] at hfree
      cases hfree
  · cases hstep
  · next htimer _ hjoining =>
      obtain rfl := Option.some.inj hstep
      have hsplit := h.published (h.timer _ htimer)
      have hproducer := h.timer_exclusive htimer
      refine ⟨⟨⟨hsplit.added, hsplit.bound⟩, h.error, nofun⟩, fun _ => rfl,
        fun flush phase hp => ?_, fun result hp => ?_, fun hp => rfl⟩
      · rw [show b.producer = .publishing flush phase from hp] at hproducer
        cases hproducer
      · exact absurd hp (hjoining result)
  · cases hstep

theorem Inv.fail (h : b.Inv) (hstep : b.next (.fail x) = some b') : b'.Inv := by
  simp only [StreamEventBuffer.next] at hstep
  split at hstep
  · next flush _ _ hproducer =>
      obtain rfl := Option.some.inj hstep
      have hfree : b.timer.any Timer.isPublishing = false := h.exclusive (by rw [hproducer]; rfl)
      refine Base.ends ⟨⟨h.added, h.bound⟩, rfl, fun phase htimer => ?_⟩
        ⟨nofun, fun y hy => by rw [← Outcome.raised.inj hy]; rfl⟩
      rw [show b.timer = some (.publishing phase) from htimer] at hfree
      cases hfree
  · cases hstep
  · next phase htimer _ hjoining =>
      obtain rfl := Option.some.inj hstep
      have hproducer := h.timer_exclusive htimer
      refine ⟨⟨⟨h.added, h.bound⟩, rfl, nofun⟩, fun _ => rfl,
        fun flush phase hp => ?_, fun result hp => ?_, h.flushed⟩
      · rw [show b.producer = .publishing flush phase from hp] at hproducer
        cases hproducer
      · exact absurd hp (hjoining result)
  · cases hstep

/-- The invariant is kept as long as no publish was cut short past its commit. -/
theorem Inv.next (h : b.Inv) (hl : b.Uncut l) (hstep : b.next l = some b') : b'.Inv := by
  cases l with
  | commit => exact h.commit hl hstep
  | ret => exact h.ret hstep
  | fail x => exact h.fail hstep
  | add e | flush =>
      simp only [StreamEventBuffer.next] at hstep
      split at hstep
      · obtain rfl := Option.some.inj hstep
        exact h.toBase.inv (by simp)
      · cases hstep
  | enter =>
      simp only [StreamEventBuffer.next] at hstep
      split at hstep
      · cases hstep
      · next hlocked =>
          have hfree := free_of_unlocked (Bool.eq_false_iff.2 hlocked)
          split at hstep
          · obtain rfl := Option.some.inj hstep
            exact h.toBase.addLocked _ hfree
          · obtain rfl := Option.some.inj hstep
            exact h.toBase.flushLocked hfree
          · cases hstep
  | fire =>
      simp only [StreamEventBuffer.next] at hstep
      split at hstep
      · cases hstep
      · split at hstep
        · obtain rfl := Option.some.inj hstep
          exact h.withTimer nofun
        · cases hstep
  | enterTimer =>
      simp only [StreamEventBuffer.next] at hstep
      split at hstep
      · cases hstep
      · next hlocked =>
          have hunlocked : b.locked = false :=
            (Bool.or_eq_false_iff.1 (Bool.eq_false_iff.2 hlocked)).1
          split at hstep
          · obtain rfl := Option.some.inj hstep
            unfold timerLocked
            split
            · exact h.withTimer nofun
            · next hpending =>
                refine h.withTimer ?_
                rintro _ ⟨rfl⟩
                exact ⟨(Bool.or_eq_false_iff.1 hunlocked).1, by simpa using hpending, nofun⟩
          · cases hstep
  | cancel =>
      simp only [StreamEventBuffer.next] at hstep
      split at hstep
      · cases hstep
      · obtain rfl := Option.some.inj hstep
        exact h.toBase.inv (by simp)
      · obtain rfl := Option.some.inj hstep
        exact h.toBase.leave .cancelled
      · obtain rfl := Option.some.inj hstep
        exact h.toBase.ends .cancelled
      · obtain rfl := Option.some.inj hstep
        exact h
  | cancelTimer =>
      simp only [StreamEventBuffer.next] at hstep
      split at hstep
      · cases hstep
      · obtain rfl := Option.some.inj hstep
        exact h.withTimer nofun
      · cases hstep
  | join =>
      simp only [StreamEventBuffer.next] at hstep
      split at hstep
      · next result hproducer _ =>
          obtain rfl := Option.some.inj hstep
          refine ⟨⟨⟨h.added, h.bound⟩, h.error, nofun⟩, nofun, nofun, nofun, fun hp => ?_⟩
          obtain ⟨-, rfl⟩ := Producer.idle.inj hp
          exact ((h.joining _ hproducer).ok rfl).2
      · cases hstep

/-- How a call ends that is not cancelled: with the exception of the last failed `publish`,
if there was one. -/
def result (b : StreamEventBuffer α ε) : Outcome ε := b.raised.elim .ok .raised

variable {flush : Bool} {last : Outcome ε}

theorem leave_idle {outcome : Outcome ε} (h : (b.leave outcome).producer = .idle flush last) :
    last = outcome ∧ (b.leave outcome).raised = b.raised := by
  unfold leave at h ⊢
  split at h
  · exact ⟨(Producer.idle.inj h).2.symm, rfl⟩
  · cases h

theorem ends_idle {call : Bool} {outcome : Outcome ε}
    (h : (b.ends call outcome).producer = .idle flush last) :
    last = outcome ∧ (b.ends call outcome).raised = b.raised := by
  unfold ends at h ⊢
  split at h
  · next hcall => simpa only [hcall, if_true] using leave_idle h
  · next hcall => exact ⟨(Producer.idle.inj h).2.symm, by rw [if_neg hcall]⟩

theorem result_of_error (h : b.Base) (hx : b.error = some x) : b.result = .raised x := by
  rw [result, ← h.error, hx]
  rfl

theorem result_of_none (h : b.Base) (hnone : b.error = none) : b.result = .ok := by
  rw [result, ← h.error, hnone]
  rfl

theorem addLocked_idle {e : α} (h : b.Base) (hended : (b.addLocked e).producer = .idle flush last) :
    last = (b.addLocked e).result := by
  unfold addLocked at hended ⊢
  split at hended
  · next x herror =>
      rw [← (Producer.idle.inj hended).2]
      exact (result_of_error h herror).symm
  · next herror =>
      split at hended
      · cases hended
      · next hlength =>
          have hraised : (b.append e).startTimer.raised = b.raised := by
            unfold startTimer
            split <;> rfl
          rw [← (Producer.idle.inj hended).2, if_neg hlength]
          show Outcome.ok = (b.append e).startTimer.raised.elim .ok .raised
          rw [hraised]
          exact (result_of_none h herror).symm

theorem flushLocked_idle (h : b.Base) (hended : b.flushLocked.producer = .idle flush last) :
    last = b.flushLocked.result := by
  unfold flushLocked at hended ⊢
  split at hended
  · next x herror =>
      obtain ⟨rfl, hraised⟩ := leave_idle hended
      rw [result, hraised]
      exact (result_of_error h herror).symm
  · next herror =>
      split at hended
      · next hempty =>
          obtain ⟨rfl, hraised⟩ := leave_idle hended
          rw [if_pos hempty, result, hraised]
          exact (result_of_none h herror).symm
      · cases hended

/-- A call that ends was cancelled, or ends with the exception of the last failed `publish`. -/
theorem Inv.outcome (h : b.Inv) (hstep : b.next l = some b')
    (hcall : ∀ flush last, b.producer ≠ .idle flush last)
    (hended : b'.producer = .idle flush last) : last = .cancelled ∨ last = b'.result := by
  -- a step of the timer leaves the producer inside its call
  have hsame (hproducer : b'.producer = b.producer) : False :=
    hcall flush last (hproducer ▸ hended)
  cases l with
  | add e | flush =>
      -- a producer inside a call makes no other
      simp only [StreamEventBuffer.next] at hstep
      cases hstep
  | enter =>
      simp only [StreamEventBuffer.next] at hstep
      split at hstep
      · cases hstep
      · split at hstep
        · obtain rfl := Option.some.inj hstep
          exact .inr (addLocked_idle h.toBase hended)
        · obtain rfl := Option.some.inj hstep
          exact .inr (flushLocked_idle h.toBase hended)
        · cases hstep
  | fire =>
      simp only [StreamEventBuffer.next] at hstep
      split at hstep
      · cases hstep
      · split at hstep
        · obtain rfl := Option.some.inj hstep
          exact (hsame rfl).elim
        · cases hstep
  | enterTimer =>
      simp only [StreamEventBuffer.next] at hstep
      split at hstep
      · cases hstep
      · split at hstep
        · obtain rfl := Option.some.inj hstep
          refine (hsame ?_).elim
          unfold timerLocked
          split <;> rfl
        · cases hstep
  | commit =>
      simp only [StreamEventBuffer.next] at hstep
      split at hstep
      · obtain rfl := Option.some.inj hstep
        cases hended
      · obtain rfl := Option.some.inj hstep
        exact (hsame rfl).elim
      · cases hstep
  | ret =>
      simp only [StreamEventBuffer.next] at hstep
      split at hstep
      · next hproducer =>
          obtain rfl := Option.some.inj hstep
          obtain ⟨rfl, hraised⟩ := ends_idle hended
          rw [result, hraised]
          exact .inr (result_of_none h.toBase (h.publishing _ _ hproducer).1).symm
      · cases hstep
      · obtain rfl := Option.some.inj hstep
        exact (hsame rfl).elim
      · cases hstep
  | fail x =>
      simp only [StreamEventBuffer.next] at hstep
      split at hstep
      · obtain rfl := Option.some.inj hstep
        obtain ⟨rfl, hraised⟩ := ends_idle hended
        rw [result, hraised]
        exact .inr rfl
      · cases hstep
      · obtain rfl := Option.some.inj hstep
        exact (hsame rfl).elim
      · cases hstep
  | cancel =>
      simp only [StreamEventBuffer.next] at hstep
      split at hstep
      · cases hstep
      · obtain rfl := Option.some.inj hstep
        exact .inl (Producer.idle.inj hended).2.symm
      · obtain rfl := Option.some.inj hstep
        exact .inl (leave_idle hended).1
      · obtain rfl := Option.some.inj hstep
        exact .inl (ends_idle hended).1
      · obtain rfl := Option.some.inj hstep
        exact (hsame rfl).elim
  | cancelTimer =>
      simp only [StreamEventBuffer.next] at hstep
      split at hstep
      · cases hstep
      · obtain rfl := Option.some.inj hstep
        exact (hsame rfl).elim
      · cases hstep
  | join =>
      simp only [StreamEventBuffer.next] at hstep
      split at hstep
      · next outcome hproducer _ =>
          obtain rfl := Option.some.inj hstep
          obtain ⟨-, rfl⟩ := Producer.idle.inj hended
          have htells := h.joining _ hproducer
          cases outcome with
          | ok => exact .inr (result_of_none h.toBase (htells.ok rfl).1).symm
          | raised x => exact .inr (result_of_error h.toBase (htells.raised x rfl)).symm
          | cancelled => exact .inl rfl
      · cases hstep

end StreamEventBuffer

/-! ## What a step does to the events -/

namespace StreamEventBuffer

variable {b b' : StreamEventBuffer α ε} {l : BufferStep α ε} {flush : Bool} {o : Outcome ε}
  {e : α} {x : ε}

/-- The buffers hold, and have recorded, the same events. -/
structure SameEvents (b b' : StreamEventBuffer α ε) : Prop where
  pending : b'.pending = b.pending
  added : b'.added = b.added
  recorded : b'.recorded = b.recorded
  durable : b'.durable = b.durable

theorem leave_same : b.SameEvents (b.leave o) := by
  unfold leave
  split <;> exact ⟨rfl, rfl, rfl, rfl⟩

theorem ends_same : b.SameEvents (b.ends flush o) := by
  unfold ends
  split
  · exact leave_same
  · exact ⟨rfl, rfl, rfl, rfl⟩

theorem startTimer_same : b.SameEvents b.startTimer := by
  unfold startTimer
  split <;> exact ⟨rfl, rfl, rfl, rfl⟩

theorem flushLocked_same : b.SameEvents b.flushLocked := by
  unfold flushLocked
  split
  · exact leave_same
  · split
    · exact leave_same
    · exact ⟨rfl, rfl, rfl, rfl⟩

theorem timerLocked_same : b.SameEvents b.timerLocked := by
  unfold timerLocked
  split <;> exact ⟨rfl, rfl, rfl, rfl⟩

/-- What a step does to the events: it adds one, clears the pending ones, records them, or
nothing. -/
inductive Effect (b b' : StreamEventBuffer α ε) : BufferStep α ε → Prop
  | same (l : BufferStep α ε) (hcommit : l ≠ .commit) (hret : l ≠ .ret) (h : b.SameEvents b') :
      Effect b b' l
  | add (e : α) (h : b.producer = .adding e) (happend : (b.append e).SameEvents b') :
      Effect b b' .enter
  | clear (h : b.published.SameEvents b') : Effect b b' .ret
  | record (h : b.recordPending.SameEvents b') : Effect b b' .commit

theorem addLocked_effect (h : b.producer = .adding e) : b.Effect (b.addLocked e) .enter := by
  unfold addLocked
  split
  · exact .same _ nofun nofun ⟨rfl, rfl, rfl, rfl⟩
  · split
    · exact .add e h ⟨rfl, rfl, rfl, rfl⟩
    · have hsame := startTimer_same (b := b.append e)
      exact .add e h ⟨hsame.pending, hsame.added, hsame.recorded, hsame.durable⟩

theorem next_effect (h : b.next l = some b') : b.Effect b' l := by
  cases l with
  | commit =>
      simp only [next] at h
      split at h
      · obtain rfl := Option.some.inj h
        exact .record ⟨rfl, rfl, rfl, rfl⟩
      · obtain rfl := Option.some.inj h
        exact .record ⟨rfl, rfl, rfl, rfl⟩
      · cases h
  | ret =>
      simp only [next] at h
      split at h
      · obtain rfl := Option.some.inj h
        exact .clear ends_same
      · cases h
      · obtain rfl := Option.some.inj h
        exact .clear ⟨rfl, rfl, rfl, rfl⟩
      · cases h
  | enter =>
      simp only [next] at h
      split at h
      · cases h
      · split at h
        · next hproducer =>
            obtain rfl := Option.some.inj h
            exact addLocked_effect hproducer
        · obtain rfl := Option.some.inj h
          exact .same _ nofun nofun flushLocked_same
        · cases h
  | fail x =>
      simp only [next] at h
      split at h
      · obtain rfl := Option.some.inj h
        have hsame {flush : Bool} : (b.failed x).SameEvents ((b.failed x).ends flush (.raised x)) :=
          ends_same
        exact .same _ nofun nofun ⟨hsame.pending, hsame.added, hsame.recorded, hsame.durable⟩
      · cases h
      · obtain rfl := Option.some.inj h
        exact .same _ nofun nofun ⟨rfl, rfl, rfl, rfl⟩
      · cases h
  | cancel =>
      simp only [next] at h
      split at h
      · cases h
      · obtain rfl := Option.some.inj h
        exact .same _ nofun nofun ⟨rfl, rfl, rfl, rfl⟩
      · obtain rfl := Option.some.inj h
        exact .same _ nofun nofun leave_same
      · obtain rfl := Option.some.inj h
        exact .same _ nofun nofun ends_same
      · obtain rfl := Option.some.inj h
        exact .same _ nofun nofun ⟨rfl, rfl, rfl, rfl⟩
  | enterTimer =>
      simp only [next] at h
      split at h
      · cases h
      · split at h
        · obtain rfl := Option.some.inj h
          exact .same _ nofun nofun timerLocked_same
        · cases h
  | add | flush | fire | cancelTimer | join =>
      simp only [next] at h
      (repeat' split at h) <;> first
        | (cases h; done)
        | (obtain rfl := Option.some.inj h; exact .same _ nofun nofun ⟨rfl, rfl, rfl, rfl⟩)

/-- Pending events are recorded ones from a commit until the next `publish` that returns. -/
theorem next_durable (h : b.next l = some b') : b'.durable =
    match l with
    | .commit => b.pending.length
    | .ret => 0
    | _ => b.durable := by
  cases next_effect h with
  | same l hcommit hret hsame =>
      rw [hsame.durable]
      split
      · exact absurd rfl hcommit
      · exact absurd rfl hret
      · rfl
  | add e _ hsame => exact hsame.durable
  | clear hsame => exact hsame.durable
  | record hsame => exact hsame.durable

theorem leave_adding : (b.leave o).producer ≠ .adding e := by
  unfold leave
  split <;> nofun

theorem ends_adding : (b.ends flush o).producer ≠ .adding e := by
  unfold ends
  split
  · exact leave_adding
  · nofun

/-- Only a call of `add` waits with its event. -/
theorem next_adding (h : b.next l = some b') (he : b'.producer = .adding e) :
    b.producer = .adding e ∨ l = .add e := by
  cases l with
  | add e' =>
      simp only [next] at h
      split at h
      · obtain rfl := Option.some.inj h
        exact .inr (congrArg _ (Producer.adding.inj he))
      · cases h
  | enter =>
      simp only [next] at h
      split at h
      · cases h
      · split at h
        · obtain rfl := Option.some.inj h
          unfold addLocked at he
          split at he
          · cases he
          · split at he <;> cases he
        · obtain rfl := Option.some.inj h
          unfold flushLocked at he
          split at he
          · exact (leave_adding he).elim
          · split at he
            · exact (leave_adding he).elim
            · cases he
        · cases h
  | enterTimer =>
      simp only [next] at h
      split at h
      · cases h
      · split at h
        · obtain rfl := Option.some.inj h
          unfold timerLocked at he
          split at he <;> exact .inl he
        · cases h
  | cancel =>
      simp only [next] at h
      split at h
      · cases h
      · obtain rfl := Option.some.inj h
        cases he
      · obtain rfl := Option.some.inj h
        exact (leave_adding he).elim
      · obtain rfl := Option.some.inj h
        exact (ends_adding he).elim
      · obtain rfl := Option.some.inj h
        exact .inl he
  | ret | fail =>
      simp only [next] at h
      split at h
      · obtain rfl := Option.some.inj h
        exact (ends_adding he).elim
      · cases h
      · obtain rfl := Option.some.inj h
        exact .inl he
      · cases h
  | flush | fire | commit | cancelTimer | join =>
      simp only [next] at h
      (repeat' split at h) <;> cases h <;> first | exact .inl he | cases he

/-- Events that `add` is called with satisfy `P`. -/
structure Holds (P : α → Prop) (b : StreamEventBuffer α ε) : Prop where
  pending : ∀ e ∈ b.pending, P e
  adding : ∀ e, b.producer = .adding e → P e

theorem Holds.next {P : α → Prop} (h : b.Holds P) (hl : ∀ e, l = .add e → P e)
    (hstep : b.next l = some b') : b'.Holds P where
  pending e he := by
    cases next_effect hstep with
    | same _ _ _ hsame => exact h.pending e (hsame.pending ▸ he)
    | add e' hproducer happend =>
        rw [happend.pending] at he
        rcases List.mem_append.1 he with he | he
        · exact h.pending e he
        · exact List.mem_singleton.1 he ▸ h.adding _ hproducer
    | clear hclear =>
        rw [hclear.pending] at he
        cases he
    | record hrecord => exact h.pending e (hrecord.pending ▸ he)
  adding e he := by
    rcases next_adding hstep he with hproducer | rfl
    · exact h.adding e hproducer
    · exact hl e rfl

end StreamEventBuffer

/-! ## What cuts a publish -/

namespace StreamEventBuffer

/-- A task is inside `publish`, behind the commit. -/
def Committed (b : StreamEventBuffer α ε) : Prop :=
  (∃ flush, b.producer = .publishing flush .committed) ∨ b.timer = some (.publishing .committed)

/-- The step ends a `publish` between its commit and its return. -/
def Cuts (b : StreamEventBuffer α ε) : BufferStep α ε → Prop
  | .fail _ => b.Committed
  | .cancel => ∃ flush, b.producer = .publishing flush .committed
  | .cancelTimer => b.timer = some (.publishing .committed)
  | _ => False

variable {b b' : StreamEventBuffer α ε} {l : BufferStep α ε}

theorem next_commit (h : b.next .commit = some b') : b'.Committed := by
  simp only [next] at h
  split at h
  · next flush _ =>
      obtain rfl := Option.some.inj h
      exact .inl ⟨flush, rfl⟩
  · obtain rfl := Option.some.inj h
    exact .inr rfl
  · cases h

/-- The task stays there until it returns or is cut, and nobody commits meanwhile. -/
theorem Committed.next (hinv : b.Inv) (hc : b.Committed) (hcut : ¬ b.Cuts l) (hret : l ≠ .ret)
    (h : b.next l = some b') : l ≠ .commit ∧ b'.Committed := by
  rcases hc with ⟨flush, hproducer⟩ | htimer
  · have hlocked : b.locked = true := by simp [locked, hproducer, Producer.isPublishing]
    have hfree := hinv.exclusive (by rw [hproducer]; rfl)
    cases l with
    | ret => exact absurd rfl hret
    | fail x => exact absurd (.inl ⟨flush, hproducer⟩) hcut
    | cancel => exact absurd ⟨flush, hproducer⟩ hcut
    | fire =>
        simp only [StreamEventBuffer.next, hproducer, Producer.isJoining] at h
        split at h
        · cases h
        · split at h
          · obtain rfl := Option.some.inj h
            exact ⟨nofun, .inl ⟨flush, rfl⟩⟩
          · cases h
    | commit =>
        -- the lock is held, so the timer is not inside `publish`
        simp only [StreamEventBuffer.next, hproducer] at h
        split at h
        · next heq => cases heq
        · next htimer _ =>
            rw [htimer] at hfree
            cases hfree
        · cases h
    | add | flush | enter | enterTimer | cancelTimer | join =>
        simp [StreamEventBuffer.next, hproducer, hlocked] at h
  · have hlocked : b.locked = true := by simp [locked, htimer, Timer.isPublishing]
    have houtside : b.producer.isPublishing = false := by
      refine Bool.eq_false_iff.2 fun hpublishing => ?_
      have hfree := hinv.exclusive hpublishing
      rw [htimer] at hfree
      cases hfree
    cases l with
    | ret => exact absurd rfl hret
    | fail x => exact absurd (.inr htimer) hcut
    | cancelTimer => exact absurd htimer hcut
    | enter | enterTimer => simp [StreamEventBuffer.next, hlocked] at h
    | fire => simp [StreamEventBuffer.next, htimer] at h
    | commit =>
        simp only [StreamEventBuffer.next] at h
        split at h
        · next hproducer =>
            rw [hproducer] at houtside
            cases houtside
        · next heq _ => cases htimer.symm.trans heq
        · cases h
    | join =>
        simp only [StreamEventBuffer.next] at h
        split at h
        · next heq => cases htimer.symm.trans heq
        · cases h
    | add | flush =>
        simp only [StreamEventBuffer.next] at h
        split at h
        · obtain rfl := Option.some.inj h
          exact ⟨nofun, .inr htimer⟩
        · cases h
    | cancel =>
        simp only [StreamEventBuffer.next] at h
        split at h
        · cases h
        · obtain rfl := Option.some.inj h
          exact ⟨nofun, .inr htimer⟩
        · obtain rfl := Option.some.inj h
          refine ⟨nofun, .inr ?_⟩
          unfold leave
          split <;> exact htimer
        · next hproducer =>
            rw [hproducer] at houtside
            cases houtside
        · obtain rfl := Option.some.inj h
          exact ⟨nofun, .inr htimer⟩

/-- While pending events are recorded ones, some task is inside `publish`, behind its commit. -/
def Guarded (b : StreamEventBuffer α ε) : Prop := b.durable ≠ 0 → b.Committed

/-- Where nothing was cut, no transaction records an event again. -/
theorem Guarded.uncut (hinv : b.Inv) (hguard : b.Guarded) (hcut : ¬ b.Cuts l)
    (h : b.next l = some b') : b.Uncut l := by
  rintro rfl
  by_contra hdurable
  exact ((hguard hdurable).next hinv hcut nofun h).1 rfl

theorem Guarded.next (hinv : b.Inv) (hguard : b.Guarded) (hcut : ¬ b.Cuts l)
    (h : b.next l = some b') : b'.Guarded := by
  intro hdurable
  have hnext := next_durable h
  by_cases hcommit : l = .commit
  · subst hcommit
    exact next_commit h
  · by_cases hret : l = .ret
    · subst hret
      exact absurd hnext hdurable
    · have hsame : b'.durable = b.durable := by
        rw [hnext]
        split
        · exact absurd rfl hcommit
        · exact absurd rfl hret
        · rfl
      exact ((hguard (hsame ▸ hdurable)).next hinv hcut hret h).2

end StreamEventBuffer

/-! ## `_publish_events` on deltas -/

section Publish

variable {now : Time} {v v' : Db} {avail : Lock → Bool} {id : RunId} {th : Option ThreadId}
  {events : List PublishedEvent} {es : List RuntimeEventRow}

/-- The row holds the event of the run `id`. -/
structure Records (id : RunId) (row : RuntimeEventRow) (e : PublishedEvent) : Prop where
  run : row.runId = some id
  topic : row.topic = e.topic
  ns : row.namespace = e.namespace
  payload : ∃ stamp, row.payload = e.payload.setDefault "timestamp" stamp

theorem PublishedEvent.topic_of_delta {e : PublishedEvent} (h : e.isMessageDelta = true) :
    e.topic = "messages" := by
  simp only [isMessageDelta, Bool.and_eq_true, decide_eq_true_eq] at h
  exact h.1

theorem insertEvents_recorded {u : Unit} (h : (insertEvents es).Returns avail v u v') :
    v'.recorded = v.recorded ++ es := by
  induction es generalizing v with
  | nil =>
      obtain ⟨-, rfl⟩ := returns_ret.1 h
      simp
  | cons e es ih =>
      simp only [insertEvents, returns_bind, returns_insertEvent] at h
      obtain ⟨_, _, ⟨rfl, -⟩, h⟩ := h
      rw [ih h]
      simp [Db.insertEvent]

theorem deltaRows_records {t : Option ThreadId} {n : Nat} (h : ∀ e ∈ events, e.isMessageDelta) :
    List.Forall₂ (Records id)
      (deltaRows now id t n (events.map fun e => (e.payload, e.namespace))) events := by
  induction events generalizing n with
  | nil => exact .nil
  | cons e events ih =>
      have htopic := PublishedEvent.topic_of_delta (h e List.mem_cons_self)
      refine .cons ⟨rfl, htopic.symm, rfl, _, rfl⟩ ?_
      exact ih fun e' he' => h e' (List.mem_cons_of_mem _ he')

theorem recordMessageDeltas_recorded {deltas : List (Dict × List String)}
    (h : (recordMessageDeltas now id th deltas).Returns avail v es v') :
    v'.recorded = v.recorded ++ es ∧ ∃ t n, es = deltaRows now id t n deltas := by
  unfold recordMessageDeltas at h
  split at h
  · next hempty =>
      obtain ⟨rfl, rfl⟩ := returns_ret.1 h
      rw [List.isEmpty_iff.1 hempty]
      exact ⟨by simp, none, 0, rfl⟩
  · simp only [returns_bind, returns_lockRun] at h
    obtain ⟨_, _, ⟨rfl, rfl, -⟩, h⟩ := h
    split at h
    · simp at h
    · next run hrun =>
        split at h
        · simp at h
        · simp only [returns_bind, returns_assignRun, Prog.pure_eq, returns_ret] at h
          obtain ⟨n, v₀, hn, _, v₁, ⟨rfl, -⟩, _, v₂, hthread, _, v₃, hinsert, rfl, rfl⟩ := h
          obtain ⟨rfl, -⟩ := lastSequence_returns hn
          refine ⟨?_, run.threadId, n, rfl⟩
          have hnumbered : v₂.recorded = v₀.recorded := by
            cases hth : run.threadId with
            | none =>
                rw [hth] at hthread
                rw [(returns_ret.1 hthread).2]
                rfl
            | some t =>
                rw [hth] at hthread
                rw [(returns_assignThread.1 hthread).1]
                rfl
          rw [insertEvents_recorded hinsert, hnumbered]

theorem recordRunEvent_recorded {topic : String} {payload : Dict} {ns : List String}
    {e : RuntimeEventRow} (htopic : topic ≠ "lifecycle")
    (h : (recordRunEvent now id th topic payload ns false).Returns avail v e v') :
    v'.recorded = v.recorded ++ [e] ∧ Records id e ⟨topic, payload, ns⟩ := by
  obtain ⟨run, -, ⟨hterminal, -⟩ | ⟨-, rfl, rfl, -⟩⟩ := recordRunEvent_returns h
  · cases hterminal
  · refine ⟨Db.logged_recorded, rfl, rfl, rfl, .num (now / 1000 : Nat), ?_⟩
    show Dict.setDefault (v.namedPayload run topic payload) _ _ = _
    rw [Db.namedPayload, if_neg (by simp [htopic])]

/-- A committed batch of deltas stores one row for each, in the order of the batch. -/
theorem publishEvents_records (hdelta : ∀ e ∈ events, e.isMessageDelta)
    (h : (publishEvents now id th events).Returns avail v es v') :
    v'.recorded = v.recorded ++ es ∧ List.Forall₂ (Records id) es events := by
  have hall {events : List PublishedEvent} {es : List RuntimeEventRow} {v : Db}
      (hdelta : ∀ e ∈ events, e.isMessageDelta)
      (h : (recordAll now id th events).Returns avail v es v') :
      v'.recorded = v.recorded ++ es ∧ List.Forall₂ (Records id) es events := by
    induction events generalizing v es with
    | nil =>
        obtain ⟨rfl, rfl⟩ := returns_ret.1 h
        exact ⟨by simp, .nil⟩
    | cons e events ih =>
        simp only [recordAll, returns_bind, Prog.pure_eq, returns_ret] at h
        obtain ⟨row, v₁, hrow, rest, _, hrest, rfl, rfl⟩ := h
        have htopic : e.topic = "messages" :=
          PublishedEvent.topic_of_delta (hdelta e List.mem_cons_self)
        have hterminal : e.terminal = false := by simp [PublishedEvent.terminal, htopic]
        rw [hterminal] at hrow
        obtain ⟨hrecorded, hrecords⟩ := recordRunEvent_recorded (by simp [htopic]) hrow
        obtain ⟨hrecorded', hrecords'⟩ :=
          ih (fun e' he' => hdelta e' (List.mem_cons_of_mem _ he')) hrest
        exact ⟨by rw [hrecorded', hrecorded, List.append_assoc]; rfl, .cons hrecords hrecords'⟩
  unfold publishEvents at h
  split at h
  · obtain ⟨hrecorded, t, n, rfl⟩ := recordMessageDeltas_recorded h
    exact ⟨hrecorded, deltaRows_records hdelta⟩
  · exact hall hdelta h

/-- No request takes an event back. -/
theorem Request.keeps_recorded {q : Request} {a : Reply}
    (h : (q.program now).Returns avail v a v') : v.recorded <+: v'.recorded := by
  refine (q.within now).preserves (I := fun u => v.recorded <+: u.recorded) ?_ h List.prefix_rfl
  intro u u' hwrite hu
  cases hwrite with
  | log e _ _ => exact hu.trans (List.prefix_append _ _)
  | tables _ keeps => exact keeps.recorded ▸ hu
  | _ => exact hu

end Publish

/-! ## A run that streams into the service -/

/-- The service, the buffer of one run, and the rows its publishes committed. -/
structure StreamWorld (ε : Type) where
  world : World
  buffer : StreamEventBuffer PublishedEvent ε := {}
  rows : List RuntimeEventRow := []

/-- A step of the service, or of the buffer and its tasks. -/
inductive StreamStep (ε : Type)
  | service (l : Step)
  | buffer (l : BufferStep PublishedEvent ε)

/-- `on_event` adds message deltas only. -/
def BufferStep.onEvent : BufferStep PublishedEvent ε → Prop
  | .add e => e.isMessageDelta = true
  | _ => True

/-- The buffer of the run `id` next to the service: its transactions are those of
`_publish_events`. -/
def deltaStream (ε : Type) (id : RunId) (th : Option ThreadId) :
    TSys (StreamWorld ε) (StreamStep ε) where
  init s := s.world.db.Fresh ∧ s.buffer = {} ∧ s.rows = []
  step s l s' :=
    match l with
    | .service l => (service fun _ => True).step s.world l s'.world ∧
        s'.buffer = s.buffer ∧ s'.rows = s.rows
    | .buffer l => l.onEvent ∧ s.buffer.next l = some s'.buffer ∧
        (l = .commit → ∃ es, (service fun _ => True).step s.world
          (.call (.publish id th s.buffer.pending) (.ok (.events es))) s'.world ∧
          s'.rows = s.rows ++ es) ∧
        (l ≠ .commit → s'.world = s.world ∧ s'.rows = s.rows)

/-- The transaction of a step records no event again. -/
def StreamWorld.Uncut (s : StreamWorld ε) : StreamStep ε → Prop
  | .service _ => True
  | .buffer l => s.buffer.Uncut l

/-- Each delta is recorded once. -/
structure DeltaLaw (id : RunId) (s : StreamWorld ε) : Prop where
  /-- The rows of the run hold the recorded events, and they are in the log. -/
  rows : List.Forall₂ (Records id) s.rows s.buffer.recorded
  stored : s.rows.Sublist s.world.db.recorded
  /-- At most once, in the order of the calls, without gaps. -/
  order : s.buffer.recorded <+: s.buffer.added
  /-- After a `flush` that raised nothing, all of them. -/
  complete : s.buffer.producer = .idle true .ok → s.buffer.recorded = s.buffer.added
  /-- A call that is not cancelled raises the error of the last failed publish. -/
  raises : ∀ l b' flush last, s.buffer.next l = some b' → b'.producer = .idle flush last →
    (∃ flush last, s.buffer.producer = .idle flush last) ∨ last = .cancelled ∨ last = b'.result

/-- What every run without a transaction after a cut publish keeps. -/
structure StreamInv (id : RunId) (s : StreamWorld ε) : Prop where
  buffer : s.buffer.Inv
  deltas : s.buffer.Holds fun e => e.isMessageDelta = true
  rows : List.Forall₂ (Records id) s.rows s.buffer.recorded
  stored : s.rows.Sublist s.world.db.recorded

theorem service_keeps_recorded {w w' : World} {l : Step}
    (h : (service fun _ => True).step w l w') : w.db.recorded <+: w'.db.recorded := by
  rcases service_step h with ⟨d, -, rfl⟩ | ⟨q, e, -, rfl⟩ | ⟨q, a, avail, db', -, -, rfl, hret⟩
  · exact List.prefix_rfl
  · exact List.prefix_rfl
  · exact Request.keeps_recorded hret

section Stream

variable {id : RunId} {th : Option ThreadId} {s s' : StreamWorld ε} {l : StreamStep ε}

theorem StreamInv.law (h : StreamInv id s) : DeltaLaw id s where
  rows := h.rows
  stored := h.stored
  order := h.buffer.toSplit.inOrder
  complete hproducer := by
    have hadded := h.buffer.added
    rw [h.buffer.flushed hproducer] at hadded
    simpa using hadded
  raises l b' flush last hstep hended := by
    by_cases hidle : ∃ flush last, s.buffer.producer = .idle flush last
    · exact .inl hidle
    · have hcall (flush : Bool) (last : Outcome ε) : s.buffer.producer ≠ .idle flush last :=
        fun hproducer => hidle ⟨flush, last, hproducer⟩
      exact .inr (h.buffer.outcome hstep hcall hended)

/-- The rows of a committed publish are those of the pending events. -/
theorem StreamInv.commit {es : List RuntimeEventRow} (h : StreamInv id s)
    (hstep : (service fun _ => True).step s.world
      (.call (.publish id th s.buffer.pending) (.ok (.events es))) s'.world) :
    s'.world.db.recorded = s.world.db.recorded ++ es ∧
      List.Forall₂ (Records id) es s.buffer.pending := by
  rcases service_step hstep with ⟨d, hl, -⟩ | ⟨q, e, hl, -⟩ | ⟨q, a, avail, db', hl, -, hw, hret⟩
  · cases hl
  · cases hl
  · obtain ⟨rfl, ha⟩ := Step.call.inj hl
    obtain rfl := Except.ok.inj ha
    rw [hw]
    obtain ⟨es', hpublish, heq⟩ := replying_returns.1 hret
    obtain rfl := Reply.events.inj heq
    exact publishEvents_records h.deltas.pending hpublish

theorem StreamInv.step (h : StreamInv id s) (hl : s.Uncut l)
    (hstep : (deltaStream ε id th).step s l s') : StreamInv id s' := by
  cases l with
  | service l =>
      obtain ⟨hservice, hbuffer, hrows⟩ := hstep
      refine ⟨hbuffer ▸ h.buffer, hbuffer ▸ h.deltas, ?_, ?_⟩
      · rw [hrows, hbuffer]
        exact h.rows
      · rw [hrows]
        exact h.stored.trans (service_keeps_recorded hservice).sublist
  | buffer l =>
      obtain ⟨hevent, hnext, hcommit, hother⟩ := hstep
      have hdeltas : s'.buffer.Holds fun e => e.isMessageDelta = true := by
        refine h.deltas.next ?_ hnext
        rintro e rfl
        exact hevent
      have heffect := StreamEventBuffer.next_effect hnext
      by_cases hl' : l = .commit
      · subst hl'
        obtain ⟨es, hpublish, hrows⟩ := hcommit rfl
        obtain ⟨hrecorded, hes⟩ := h.commit hpublish
        refine ⟨h.buffer.next hl hnext, hdeltas, ?_, ?_⟩
        · cases heffect with
          | same _ hne _ _ => exact absurd rfl hne
          | record hsame =>
              rw [hrows, hsame.recorded]
              exact List.rel_append h.rows hes
        · rw [hrows, hrecorded]
          exact h.stored.append (List.Sublist.refl es)
      · obtain ⟨hworld, hrows⟩ := hother hl'
        refine ⟨h.buffer.next hl hnext, hdeltas, ?_, ?_⟩
        · have hrecorded : s'.buffer.recorded = s.buffer.recorded := by
            cases heffect with
            | same _ _ _ hsame => exact hsame.recorded
            | add e _ hsame => exact hsame.recorded
            | clear hsame => exact hsame.recorded
            | record _ => exact absurd rfl hl'
          rw [hrows, hrecorded]
          exact h.rows
        · rw [hrows, hworld]
          exact h.stored

theorem streamInv_inductive (ε : Type) (id : RunId) (th : Option ThreadId) :
    ((deltaStream ε id th).restrict StreamWorld.Uncut).Inductive (StreamInv id) where
  init s hs := by
    obtain ⟨-, hbuffer, hrows⟩ := hs
    refine ⟨?_, ?_, ?_, ?_⟩
    · rw [hbuffer]
      exact .empty
    · rw [hbuffer]
      exact ⟨nofun, nofun⟩
    · rw [hrows, hbuffer]
      exact .nil
    · rw [hrows]
      exact List.nil_sublist _
  step s l s' h hstep := h.step hstep.2 hstep.1

end Stream

/-- In a run where no transaction takes effect while events of a cut publish are pending,
every delta is recorded once, and the next step records none again exactly when it is no
such transaction. -/
theorem deltas_recorded_once_iff (id : RunId) (th : Option ThreadId) (s : StreamWorld ε)
    (hreach : ((deltaStream ε id th).restrict StreamWorld.Uncut).Reachable s) :
    DeltaLaw id s ∧ ∀ l s', (deltaStream ε id th).step s l s' →
      (DeltaLaw id s' ↔ s.Uncut l) := by
  have hinv := (streamInv_inductive ε id th).invariant s hreach
  refine ⟨hinv.law, fun l s' hstep => ⟨fun hlaw => ?_, fun hl => (hinv.step hl hstep).law⟩⟩
  cases l with
  | service l => trivial
  | buffer l =>
      rintro rfl
      -- the transaction recorded all pending events, so those of the cut publish twice
      have horder := hlaw.order
      cases StreamEventBuffer.next_effect hstep.2.1 with
      | same _ hne _ _ => exact absurd rfl hne
      | record hsame =>
          rw [hsame.recorded, hsame.added] at horder
          exact hinv.buffer.toSplit.recordPending_prefix_iff.1 horder

/-- The step cuts no `publish` between its commit and its return. -/
def StreamWorld.Returns (s : StreamWorld ε) : StreamStep ε → Prop
  | .service _ => True
  | .buffer l => ¬ s.buffer.Cuts l

/-- Where every `publish` whose transaction took effect returns, each delta is recorded once. -/
theorem deltas_recorded_once_of_returns (id : RunId) (th : Option ThreadId) (s : StreamWorld ε)
    (hreach : ((deltaStream ε id th).restrict StreamWorld.Returns).Reachable s) :
    DeltaLaw id s := by
  have hind : ((deltaStream ε id th).restrict StreamWorld.Returns).Inductive fun s =>
      StreamInv id s ∧ s.buffer.Guarded := by
    constructor
    · intro s hs
      refine ⟨(streamInv_inductive ε id th).init s hs, ?_⟩
      rw [StreamEventBuffer.Guarded, hs.2.1]
      exact fun hne => absurd rfl hne
    · rintro s l s' ⟨hinv, hguard⟩ ⟨hstep, hl⟩
      cases l with
      | service l =>
          have huncut : s.Uncut (.service l) := trivial
          exact ⟨hinv.step huncut hstep, hstep.2.1 ▸ hguard⟩
      | buffer l =>
          have huncut : s.Uncut (.buffer l) := hguard.uncut hinv.buffer hl hstep.2.1
          exact ⟨hinv.step huncut hstep, hguard.next hinv.buffer hl hstep.2.1⟩
  exact (hind.invariant s hreach).1.law

/-! ## One delta, and one recorded twice -/

instance (l : BufferStep PublishedEvent ε) : Decidable l.onEvent := by
  unfold BufferStep.onEvent
  split <;> infer_instance

/-- A step on an input, while no other transaction holds a lock. -/
def StreamWorld.next (id : RunId) (th : Option ThreadId) (s : StreamWorld ε) :
    Input ⊕ BufferStep PublishedEvent ε → Option (StreamWorld ε)
  | .inl i => (s.world.next i).map fun (_, w) => { s with world := w }
  | .inr .commit =>
      match s.buffer.next .commit, s.world.next (.call (.publish id th s.buffer.pending)) with
      | some b, some (.call _ (.ok (.events es)), w) => some ⟨w, b, s.rows ++ es⟩
      | _, _ => none
  | .inr l =>
      if l.onEvent then (s.buffer.next l).map fun b => { s with buffer := b } else none

/-- The input commits no event again. -/
def StreamWorld.uncut (s : StreamWorld ε) : Input ⊕ BufferStep PublishedEvent ε → Bool
  | .inr .commit => s.buffer.durable = 0
  | _ => true

theorem StreamWorld.next_step {id : RunId} {th : Option ThreadId} {s s' : StreamWorld ε}
    {i : Input ⊕ BufferStep PublishedEvent ε} (h : s.next id th i = some s') :
    ∃ l, (deltaStream ε id th).step s l s' ∧ (s.uncut i = true → s.Uncut l) := by
  cases i with
  | inl i =>
      obtain ⟨⟨l, w⟩, hnext, rfl⟩ := Option.map_eq_some_iff.1 h
      exact ⟨.service l, ⟨World.next_step hnext, rfl, rfl⟩, fun _ => trivial⟩
  | inr l =>
      refine ⟨.buffer l, ?_⟩
      unfold StreamWorld.next at h
      split at h
      · next heq => cases heq
      · split at h
        · next heq _ _ b _ es w hbuffer hworld =>
            obtain rfl := Sum.inr.inj heq
            obtain rfl := Option.some.inj h
            obtain ⟨⟨r, db⟩, -, hcall⟩ := Option.map_eq_some_iff.1 hworld
            obtain ⟨hlabel, -⟩ := Prod.mk.inj hcall
            obtain ⟨rfl, -⟩ := Step.call.inj hlabel
            exact ⟨⟨trivial, hbuffer, fun _ => ⟨es, World.next_step hworld, rfl⟩,
              fun hne => absurd rfl hne⟩, fun huncut _ => of_decide_eq_true huncut⟩
        · cases h
      · next l' hne heq =>
          obtain rfl := Sum.inr.inj heq
          split at h
          · next hevent =>
              obtain ⟨b, hbuffer, rfl⟩ := Option.map_eq_some_iff.1 h
              have hother : l ≠ .commit := by
                rintro rfl
                exact hne rfl
              exact ⟨⟨hevent, hbuffer, fun hl => absurd hl hother, fun _ => ⟨rfl, rfl⟩⟩,
                fun _ hl => absurd hl hother⟩
          · cases h

/-- A step on an input that commits no event again. -/
def StreamWorld.nextUncut (s : StreamWorld String)
    (i : Input ⊕ BufferStep PublishedEvent String) : Option (StreamWorld String) :=
  if s.uncut i then s.next 1 (some 1) i else none

theorem StreamWorld.nextUncut_step (s : StreamWorld String)
    (i : Input ⊕ BufferStep PublishedEvent String) (s' : StreamWorld String)
    (h : s.nextUncut i = some s') :
    ∃ l, ((deltaStream String 1 (some 1)).restrict StreamWorld.Uncut).step s l s' := by
  unfold nextUncut at h
  split at h
  · next huncut =>
      obtain ⟨l, hstep, hl⟩ := StreamWorld.next_step h
      exact ⟨l, hstep, hl huncut⟩
  · cases h

/-- A message delta. -/
def delta : PublishedEvent where
  topic := "messages"
  payload := [("data", .arr [.obj [("event", .str "content-block-delta")]])]

/-- The first run is created and its producer adds a delta. -/
def addScript : List (Input ⊕ BufferStep PublishedEvent String) :=
  [.inl (.call (.runsCreate .default (submission 1 1))), .inr (.add delta), .inr .enter]

/-- The timer of the producer publishes the delta, and the producer flushes. -/
def timerScript : List (Input ⊕ BufferStep PublishedEvent String) :=
  addScript ++ [.inr .fire, .inr .enterTimer, .inr .commit, .inr .ret, .inr .flush, .inr .enter,
    .inr .join]

/-- The task of `execute` is cancelled while `publish` waits for the fan-out, and its `finally`
flushes. -/
def cutScript : List (Input ⊕ BufferStep PublishedEvent String) :=
  addScript ++ [.inr .flush, .inr .enter, .inr .commit, .inr .cancel, .inr .cancelTimer,
    .inr .join, .inr .flush, .inr .enter, .inr .commit, .inr .ret]

/-- A delta is recorded by the timer. -/
theorem deltas_recorded_once_iff_timer : ∃ s : StreamWorld String,
    ((deltaStream String 1 (some 1)).restrict StreamWorld.Uncut).Reachable s ∧
    s.buffer.added = [delta] ∧ s.buffer.producer = .idle true .ok ∧ DeltaLaw 1 s := by
  have hplay : (TSys.play StreamWorld.nextUncut ⟨⟨twoThreads, 0⟩, {}, []⟩ timerScript).any
      (fun s => s.buffer.added = [delta] && s.buffer.producer = .idle true .ok) = true := by
    decide +kernel
  obtain ⟨s, hreach, hcheck⟩ :=
    TSys.play_reachable StreamWorld.nextUncut_step ⟨Db.fresh_fresh _ _, rfl, rfl⟩ hplay
  simp only [Bool.and_eq_true, decide_eq_true_eq] at hcheck
  exact ⟨s, hreach, hcheck.1, hcheck.2, (deltas_recorded_once_iff 1 (some 1) s hreach).1⟩

/-- A delta is recorded twice. -/
theorem delta_recorded_twice : ¬ ∀ s : StreamWorld String,
    (deltaStream String 1 (some 1)).Reachable s → s.buffer.recorded <+: s.buffer.added := by
  have hplay : (TSys.play (StreamWorld.next 1 (some 1)) ⟨⟨twoThreads, 0⟩, {}, []⟩ cutScript).any
      (fun s => s.buffer.recorded.length = 2 && s.buffer.added.length = 1) = true := by
    decide +kernel
  have hnext (s : StreamWorld String) (i : Input ⊕ BufferStep PublishedEvent String)
      (s' : StreamWorld String) (h : s.next 1 (some 1) i = some s') :
      ∃ l, (deltaStream String 1 (some 1)).step s l s' := by
    obtain ⟨l, hstep, -⟩ := StreamWorld.next_step h
    exact ⟨l, hstep⟩
  obtain ⟨s, hreach, hcheck⟩ :=
    TSys.play_reachable hnext ⟨Db.fresh_fresh _ _, rfl, rfl⟩ hplay
  simp only [Bool.and_eq_true, decide_eq_true_eq] at hcheck
  intro hlaw
  have hle := (hlaw s hreach).length_le
  omega

end GraphHarbor
