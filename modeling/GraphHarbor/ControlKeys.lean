import GraphHarbor.Fanout
import Mathlib.Data.List.Infix

/-!
# Control messages

Cancels and events share the run channels. Whoever puts or receives a message of a run
tells them apart by looking for `control` in its topic, so an event is safe from being
taken for a cancel as long as its name does not contain this word. It comes to the stream
queues as long as no other message of its run has its id.
-/

namespace GraphHarbor

open Kit

/-! ## Topics and calls -/

/-- The topics that are put: `event:{name}` and `run:control` for a run, `protocol:{method}`
for a thread. -/
inductive Topic
  | event (name : List Char)
  | protocol (method : List Char)
  | runControl
  deriving DecidableEq, Repr

def Topic.text : Topic → List Char
  | .event name => ['e', 'v', 'e', 'n', 't', ':'] ++ name
  | .protocol method => ['p', 'r', 'o', 't', 'o', 'c', 'o', 'l', ':'] ++ method
  | .runControl => ['r', 'u', 'n', ':', 'c', 'o', 'n', 't', 'r', 'o', 'l']

/-- `"control" in text`. -/
def hasControl (text : List Char) : Bool := decide (['c', 'o', 'n', 't', 'r', 'o', 'l'] <:+: text)

def Topic.control (topic : Topic) : Bool := hasControl topic.text

/-- What is fanned out. -/
inductive Publication
  /-- `put` of an event, by `_fanout_durable_event` of a worker or of the API. -/
  | event (runId : RunId) (threadId : Option ThreadId) (name : List Char)
  /-- `put_thread` of the same event. -/
  | protocol (threadId : ThreadId) (method : List Char)
  /-- `put_batch` of events, each with its name and the method of its thread message. -/
  | batch (runId : RunId) (threadId : Option ThreadId) (events : List (List Char × List Char))
  /-- The API cancels a run. -/
  | cancel (runId : RunId) (threadId : ThreadId)
  deriving DecidableEq, Repr

def Publication.call : Publication → Call
  | .event runId threadId name => .put runId threadId (Topic.event name).control true
  | .protocol threadId _ => .putThread threadId
  | .batch runId threadId events =>
      .putBatch runId threadId (events.map fun e => ((Topic.event e.1).control, true))
  | .cancel runId threadId => .put runId (some threadId) Topic.runControl.control false

/-- The topics of the messages of the call, in their order. -/
def Publication.topics : Publication → List Topic
  | .event _ _ name => [.event name]
  | .protocol _ method => [.protocol method]
  | .batch _ threadId events =>
      events.flatMap fun e =>
        .event e.1 :: match threadId with
          | some _ => [.protocol e.2]
          | none => []
  | .cancel .. => [.runControl]

/-- The names of the events of a publication. -/
def Publication.names : Publication → List (List Char)
  | .event _ _ name => [name]
  | .batch _ _ events => events.map (·.1)
  | _ => []

/-! ## Control state -/

/-- The fan-out with its control state: `control_keys` and `control_queues` of each process,
and the control keys in Redis. `keyed` are the messages whose `SET` was done. -/
structure Control where
  fanout : Fanout := {}
  topics : List Topic := []
  keys : ProcessId → Scope → Option MessageNo := fun _ _ => none
  queues : ProcessId → List Queue := fun _ => []
  stored : Scope → Option MessageNo := fun _ => none
  keyed : List MessageNo := []

inductive ControlStep
  | publish (c : Caller) (k : Publication)
  /-- The next step of a call, as in `Fanout`. -/
  | act (c : Caller) (ms : Nat) (entry : MessageId)
  /-- The `SET` of the control key, which a `put` makes before its `PUBLISH`. -/
  | set (c : Caller)
  | hand (p : ProcessId) (ch : Channel)
  | addQueue (p : ProcessId) (threadId : Option ThreadId) (runId : RunId)
      (afterId : Option MessageId) (replay : Bool)
  | addThreadStream (p : ProcessId) (threadId : ThreadId)
  | removeQueue (p : ProcessId) (i : Nat)
  | addControlQueue (p : ProcessId) (threadId : Option ThreadId) (runId : RunId)
  | removeControlQueue (p : ProcessId) (i : Nat)
  /-- `aget_control_key`, by `_cancel_requested`. -/
  | getControlKey (p : ProcessId) (threadId : Option ThreadId) (runId : RunId)
  /-- `clear_run_buffers`, in the process and in Redis. -/
  | clear (p : ProcessId) (threadId : Option ThreadId) (runId : RunId)
  | expire (threadId : Option ThreadId) (runId : RunId)
  deriving Repr

namespace Control

/-- `self.control_keys[thread_id][run_id] = message`. -/
def setKey (s : Control) (p : ProcessId) (scope : Scope) (value : Option MessageNo) : Control :=
  { s with keys := fun x k => if x = p ∧ k = scope then value else s.keys x k }

def setQueues (s : Control) (p : ProcessId) (f : List Queue → List Queue) : Control :=
  { s with queues := fun x => if x = p then f (s.queues x) else s.queues x }

/-- `_deliver_local` of a control message that was not seen. -/
def takeControl (s : Control) (p : ProcessId) (scope : Scope) (m : MessageNo) : Control :=
  (s.setKey p scope (some m)).setQueues p (fanoutPut scope m)

def seen (s : Control) (p : ProcessId) (key : SeenKey) : Bool :=
  decide (key ∈ (s.fanout.managers p).seen)

/-- The control state after a message was delivered in its own process. `put` sets the key
before it looks whether the id was seen; `put_batch` delivers no message as control. -/
def deliverOwn (s : Control) (p : ProcessId) (m : MessageNo) : Control :=
  match s.fanout.messages[m]?, s.fanout.ids m with
  | some out, some id =>
      -- the message was seen before when the process already took it from its envelope
      if out.control && !out.batched then
        let s' := s.setKey p out.scope (some m)
        if s.seen p (out.scope, id) then s' else s'.takeControl p out.scope m
      else s
  | _, _ => s

/-- The control state after an envelope was handled. -/
def deliverHanded (s : Control) (p : ProcessId) (m : MessageNo) : Control :=
  match s.fanout.messages[m]?, s.fanout.ids m with
  | some out, some id =>
      if out.control then
        if s.seen p (out.scope, id) then s else s.takeControl p out.scope m
      else s
  | _, _ => s

/-- A `put` of a control message that has not set the Redis key yet. -/
def awaitsSet (s : Control) (m : MessageNo) : Bool :=
  s.fanout.messages[m]?.any (fun out => out.control && !out.batched) && decide (m ∉ s.keyed)

def withFanout (s : Control) (l : FanoutStep) (f : Control → Control) : Option Control :=
  (s.fanout.next l).map fun fanout => { f s with fanout }

def next (s : Control) : ControlStep → Option Control
  | .publish c k => s.withFanout (.call c k.call) fun s => { s with topics := s.topics ++ k.topics }
  | .act c ms entry =>
      match s.fanout.calls c with
      | .deliver m :: _ => s.withFanout (.act c ms entry) fun s => s.deliverOwn c.process m
      | .publish m :: _ =>
          -- the `SET` comes before the `PUBLISH`
          if s.awaitsSet m then none else s.withFanout (.act c ms entry) id
      | _ => s.withFanout (.act c ms entry) id
  | .set c =>
      match s.fanout.calls c with
      | .publish m :: _ =>
          match s.fanout.messages[m]? with
          | some out =>
              if s.awaitsSet m then
                some { s with
                  stored := fun k => if k = out.scope then some m else s.stored k
                  keyed := m :: s.keyed }
              else none
          | none => none
      | _ => none
  | .hand p ch =>
      match (s.fanout.log ch)[(s.fanout.managers p).handed ch]? with
      | some m => s.withFanout (.hand p ch) fun s => s.deliverHanded p m
      | none => none
  | .addQueue p threadId runId afterId replay =>
      s.withFanout (.addQueue p threadId runId afterId replay) id
  | .addThreadStream p threadId => s.withFanout (.addThreadStream p threadId) id
  | .removeQueue p i => s.withFanout (.removeQueue p i) id
  | .addControlQueue p threadId runId =>
      some (s.setQueues p fun queues =>
        queues ++ [⟨.run threadId runId, s.fanout.messages.length, []⟩])
  | .removeControlQueue p i => some (s.setQueues p fun queues => queues.eraseIdx i)
  | .getControlKey p threadId runId =>
      let scope := Scope.run threadId runId
      -- the process has no key of its own: what Redis has becomes its key
      if s.keys p scope = none then some (s.setKey p scope (s.stored scope)) else some s
  | .clear p threadId runId => some (s.setKey p (.run threadId runId) none)
  | .expire threadId runId =>
      some { s with stored := fun k => if k = .run threadId runId then none else s.stored k }

/-- What `_cancel_requested` reads of the control state. -/
def cancelRequested (s : Control) (p : ProcessId) (threadId : Option ThreadId) (runId : RunId) :
    Bool :=
  (s.keys p (.run threadId runId)).isSome || (s.stored (.run threadId runId)).isSome

end Control

/-- Processes that fan out events and cancels. -/
def control : TSys Control ControlStep where
  init s := s = {}
  step s l s' := s.next l = some s'

/-! ## The law -/

namespace Control

/-- The message is the one of an API cancel of the run. -/
def Cancels (s : Control) (scope : Scope) (m : MessageNo) : Prop :=
  s.topics[m]? = some .runControl ∧ ∃ out, s.fanout.messages[m]? = some out ∧ out.scope = scope

/-- The step of the fan-out in a step. -/
def fanoutStep : ControlStep → Option FanoutStep
  | .publish c k => some (.call c k.call)
  | .act c ms entry => some (.act c ms entry)
  | .hand p ch => some (.hand p ch)
  | .addQueue p threadId runId afterId replay => some (.addQueue p threadId runId afterId replay)
  | .addThreadStream p threadId => some (.addThreadStream p threadId)
  | .removeQueue p i => some (.removeQueue p i)
  | _ => none

/-- The process and the message that a step delivers. -/
def arrival (s : Control) : ControlStep → Option (ProcessId × MessageNo)
  | .act c _ _ =>
      match s.fanout.calls c with
      | .deliver m :: _ => some (c.process, m)
      | _ => none
  | .hand p ch => ((s.fanout.log ch)[(s.fanout.managers p).handed ch]?).map fun m => (p, m)
  | _ => none

/-- The step leaves the control state. -/
structure Spares (s s' : Control) : Prop where
  keys : s'.keys = s.keys
  stored : s'.stored = s.stored
  controlQueues : s'.queues = s.queues

/-- The message is an event for the queue, put after its registration. -/
structure Expects (s : Control) (q : Queue) (m : MessageNo) : Prop where
  since : q.since ≤ m
  scope : Fanout.scopeOf s.fanout.messages m = some q.scope
  event : ∃ name, s.topics[m]? = some (.event name)

/-- Only cancels reach the control state, and a run only its own ones. An event comes to every
stream queue of its run that was registered before, in the processes it reached, and in the
end in all. -/
structure Lawful (s : Control) : Prop where
  keys : ∀ p scope m, s.keys p scope = some m → s.Cancels scope m
  stored : ∀ scope m, s.stored scope = some m → s.Cancels scope m
  controlQueues : ∀ p, ∀ q ∈ s.queues p, ∀ m ∈ q.items, s.Cancels q.scope m
  requested : ∀ p threadId runId, s.cancelRequested p threadId runId = true →
    ∃ m, s.Cancels (.run threadId runId) m
  spares : ∀ l s' p m name, s.next l = some s' → s.arrival l = some (p, m) →
    s.topics[m]? = some (.event name) → s.Spares s'
  delivered : ∀ p, ∀ q ∈ (s.fanout.managers p).queues, ∀ m, s.Expects q m →
    s.fanout.Reached p m → m ∈ q.items
  all : ∀ p, s.fanout.Settled p → ∀ q ∈ (s.fanout.managers p).queues, ∀ m, s.Expects q m →
    m ∈ q.items

/-- No event with `control` in its name is published. -/
def plainNames : ControlStep → Bool
  | .publish _ k => k.names.all fun name => !hasControl name
  | _ => true

/-- No message of a run gets an id that another one of it holds. -/
def freshIds (s : Control) (l : ControlStep) : Bool :=
  (fanoutStep l).all fun k => (s.fanout.identifies k).all fun m =>
    (Fanout.scopeOf s.fanout.messages m).all fun scope =>
      scope.channel ≠ .run || s.fanout.unused k

/-- The condition of a step. -/
def safe (s : Control) (l : ControlStep) : Bool := plainNames l && s.freshIds l

/-! ## Topics of the messages -/

/-- The flag of a message says what its topic says, and an event belongs to a run. -/
def Tagged (out : Outgoing) (topic : Topic) : Prop :=
  (∀ name, topic = .event name → out.control = topic.control ∧ out.scope.channel = .run) ∧
    ∀ method, topic = .protocol method → out.control = false

end Control

/-- The name alone decides: no part of the word is in `event:`. -/
theorem Topic.control_event (name : List Char) : (Topic.event name).control = hasControl name := by
  have hne (c : Char) (rest : List Char) (hc : c ≠ 'c') :
      ['c', 'o', 'n', 't', 'r', 'o', 'l'] <:+: c :: rest ↔
        ['c', 'o', 'n', 't', 'r', 'o', 'l'] <:+: rest := by
    rw [List.infix_cons_iff, or_iff_right]
    intro h
    exact hc (List.cons_prefix_cons.1 h).1.symm
  unfold Topic.control hasControl Topic.text
  rw [decide_eq_decide]
  simp only [List.cons_append, List.nil_append]
  rw [hne _ _ (by decide), hne _ _ (by decide), hne _ _ (by decide), hne _ _ (by decide),
    hne _ _ (by decide), hne _ _ (by decide)]

theorem Publication.tagged (c : Caller) (k : Publication) :
    List.Forall₂ Control.Tagged (k.call.outgoing c) k.topics := by
  have hevent (name : List Char) (out : Outgoing) (h : out.control = (Topic.event name).control)
      (hrun : out.scope.channel = .run) : Control.Tagged out (.event name) := by
    refine ⟨?_, nofun⟩
    intro name' heq
    exact ⟨heq ▸ h, hrun⟩
  cases k with
  | event runId threadId name => exact .cons (hevent name _ rfl rfl) .nil
  | protocol threadId method => exact .cons ⟨nofun, fun _ _ => rfl⟩ .nil
  | cancel runId threadId => exact .cons ⟨nofun, nofun⟩ .nil
  | batch runId threadId events =>
      -- induction on the batch: each event brings its message and that of its thread
      induction events with
      | nil => exact .nil
      | cons e events ih =>
          refine .cons (hevent e.1 _ rfl rfl) ?_
          refine List.rel_append ?_ ih
          -- a batch without a thread has no protocol messages
          cases threadId with
          | none => exact .nil
          | some t => exact .cons ⟨nofun, fun _ _ => rfl⟩ .nil

/-- The messages that a step creates. -/
def FanoutStep.outgoing : FanoutStep → List Outgoing
  | .call c k => k.outgoing c
  | _ => []

theorem Fanout.perform_messages {s s' : Fanout} {p : ProcessId} {ms : Nat} {entry : MessageId}
    {a : CallStep} (h : s.perform p ms entry a = some s') : s'.messages = s.messages := by
  cases a with
  | xadd m =>
      simp only [Fanout.perform] at h
      split at h
      · cases h
      · split at h
        · obtain rfl := Option.some.inj h
          rfl
        · cases h
  | stamp m =>
      obtain rfl := Option.some.inj h
      rfl
  | deliver m =>
      simp only [Fanout.perform] at h
      split at h
      · obtain rfl := Option.some.inj h
        rfl
      · cases h
  | publish m =>
      obtain rfl := Option.some.inj h
      rfl

theorem Fanout.next_messages {s s' : Fanout} {l : FanoutStep} (h : s.next l = some s') :
    s'.messages = s.messages ++ l.outgoing := by
  cases l with
  | call c k =>
      simp only [Fanout.next] at h
      split at h
      · obtain rfl := Option.some.inj h
        rfl
      · cases h
  | act c ms entry =>
      simp only [Fanout.next] at h
      split at h
      · cases h
      · obtain ⟨s₁, hperform, rfl⟩ := Option.map_eq_some_iff.1 h
        show s₁.messages = _
        -- a step of a call creates no message
        rw [Fanout.perform_messages hperform]
        exact (List.append_nil _).symm
  | hand p ch =>
      simp only [Fanout.next, Fanout.hand] at h
      split at h
      · cases h
      · split at h
        · obtain rfl := Option.some.inj h
          exact (List.append_nil _).symm
        · cases h
  | _ =>
      obtain rfl := Option.some.inj h
      exact (List.append_nil _).symm

namespace Control

variable {s s' : Control} {p : ProcessId} {scope : Scope} {m : MessageNo} {out : Outgoing}

theorem withFanout_eq {l : FanoutStep} {f : Control → Control}
    (h : s.withFanout l f = some s') :
    ∃ fanout, s.fanout.next l = some fanout ∧ s' = { f s with fanout } := by
  obtain ⟨fanout, hnext, rfl⟩ := Option.map_eq_some_iff.1 h
  exact ⟨fanout, hnext, rfl⟩

theorem tagged_get {messages : List Outgoing} {topics : List Topic}
    (h : List.Forall₂ Tagged messages topics) (hout : messages[m]? = some out) :
    ∃ topic, topics[m]? = some topic ∧ Tagged out topic := by
  induction h generalizing m with
  | nil => exact nomatch hout
  | cons htag _ ih =>
      cases m with
      | zero =>
          obtain rfl := Option.some.inj hout
          exact ⟨_, rfl, htag⟩
      | succ m => exact ih hout

/-! ## What a step does -/

/-- The message is flagged as control, and of this run. -/
def Flagged (s : Control) (scope : Scope) (m : MessageNo) : Prop :=
  ∃ out, s.fanout.messages[m]? = some out ∧ out.control = true ∧ out.scope = scope

/-- What comes into the control state is a flagged message, or was in it before. -/
structure Changes (s s' : Control) : Prop where
  keys : ∀ p scope m, s'.keys p scope = some m →
    s.keys p scope = some m ∨ s.stored scope = some m ∨ s.Flagged scope m
  stored : ∀ scope m, s'.stored scope = some m → s.stored scope = some m ∨ s.Flagged scope m
  queues : ∀ p, ∀ q ∈ s'.queues p, ∀ m ∈ q.items,
    (∃ q' ∈ s.queues p, q'.scope = q.scope ∧ m ∈ q'.items) ∨ s.Flagged q.scope m

theorem Changes.of_eq (hkeys : s'.keys = s.keys) (hstored : s'.stored = s.stored)
    (hqueues : s'.queues = s.queues) : s.Changes s' where
  keys _ _ _ h := .inl (hkeys ▸ h)
  stored _ _ h := .inl (hstored ▸ h)
  queues _ q hq _ hm := .inl ⟨q, hqueues ▸ hq, rfl, hm⟩

theorem Changes.setKey {value : Option MessageNo}
    (hvalue : ∀ m, value = some m → s.stored scope = some m ∨ s.Flagged scope m) :
    s.Changes (s.setKey p scope value) where
  keys p' scope' m h := by
    by_cases hkey : p' = p ∧ scope' = scope
    · rw [show (s.setKey p scope value).keys p' scope' = value from if_pos hkey] at h
      rw [hkey.2]
      exact .inr (hvalue m h)
    · rw [show (s.setKey p scope value).keys p' scope' = s.keys p' scope' from if_neg hkey] at h
      exact .inl h
  stored scope m h := .inl h
  queues p q hq m hm := .inl ⟨q, hq, rfl, hm⟩

theorem Changes.setQueues {f : List Queue → List Queue}
    (hf : ∀ queues, ∀ q ∈ f queues, ∀ m ∈ q.items,
      (∃ q' ∈ queues, q'.scope = q.scope ∧ m ∈ q'.items) ∨ s.Flagged q.scope m) :
    s.Changes (s.setQueues p f) where
  keys p scope m h := .inl h
  stored scope m h := .inl h
  queues p' q hq m hm := by
    by_cases hp : p' = p
    · rw [show (s.setQueues p f).queues p' = f (s.queues p') from if_pos hp] at hq
      exact hf _ q hq m hm
    · rw [show (s.setQueues p f).queues p' = s.queues p' from if_neg hp] at hq
      exact .inl ⟨q, hq, rfl, hm⟩

/-- Within one step the messages stay the same. -/
theorem Changes.trans {s₁ s₂ : Control} (h : s.Changes s₁) (h' : s₁.Changes s₂)
    (hsame : s₁.fanout = s.fanout) : s.Changes s₂ := by
  have hflagged (scope : Scope) (m : MessageNo) (h : s₁.Flagged scope m) : s.Flagged scope m := by
    unfold Flagged at h
    rw [hsame] at h
    exact h
  refine ⟨?_, ?_, ?_⟩
  · intro p scope m hm
    rcases h'.keys p scope m hm with hkey | hstored | hflag
    · exact h.keys p scope m hkey
    · exact .inr (h.stored scope m hstored)
    · exact .inr (.inr (hflagged scope m hflag))
  · intro scope m hm
    rcases h'.stored scope m hm with hstored | hflag
    · exact h.stored scope m hstored
    · exact .inr (hflagged scope m hflag)
  · intro p q hq m hm
    rcases h'.queues p q hq m hm with ⟨q₁, hq₁, hscope, hm₁⟩ | hflag
    · rcases h.queues p q₁ hq₁ m hm₁ with ⟨q₀, hq₀, hscope₀, hm₀⟩ | hflag
      · exact .inl ⟨q₀, hq₀, hscope₀.trans hscope, hm₀⟩
      · exact .inr (hscope ▸ hflag)
    · exact .inr (hflagged q.scope m hflag)

theorem Changes.takeControl (hflag : s.Flagged scope m) : s.Changes (s.takeControl p scope m) := by
  have hkey : s.Changes (s.setKey p scope (some m)) :=
    .setKey fun _ heq => .inr (Option.some.inj heq ▸ hflag)
  refine hkey.trans (.setQueues ?_) rfl
  intro queues q hq m' hm'
  obtain ⟨q₀, hq₀, rfl⟩ := List.mem_map.1 hq
  split at hm'
  next hscope =>
    rw [if_pos hscope]
    rcases List.mem_append.1 hm' with hm' | hm'
    · exact .inl ⟨q₀, hq₀, rfl, hm'⟩
    · rw [List.mem_singleton.1 hm', hscope]
      exact .inr hflag
  next hscope =>
    rw [if_neg hscope]
    exact .inl ⟨q₀, hq₀, rfl, hm'⟩

theorem Changes.deliverOwn : s.Changes (s.deliverOwn p m) := by
  unfold Control.deliverOwn
  split
  next out id hout hid =>
    split
    next hcontrol =>
      have hflag : s.Flagged out.scope m := ⟨out, hout, (Bool.and_eq_true_iff.1 hcontrol).1, rfl⟩
      have hkey : s.Changes (s.setKey p out.scope (some m)) :=
        .setKey fun _ heq => .inr (Option.some.inj heq ▸ hflag)
      dsimp only
      split
      · exact hkey
      · exact hkey.trans (.takeControl hflag) rfl
    next => exact .of_eq rfl rfl rfl
  next => exact .of_eq rfl rfl rfl

theorem Changes.deliverHanded : s.Changes (s.deliverHanded p m) := by
  unfold Control.deliverHanded
  split
  next out id hout hid =>
    split
    next hcontrol =>
      split
      · exact .of_eq rfl rfl rfl
      · exact .takeControl ⟨out, hout, hcontrol, rfl⟩
    next => exact .of_eq rfl rfl rfl
  next => exact .of_eq rfl rfl rfl

theorem deliverOwn_fanout : (s.deliverOwn p m).fanout = s.fanout ∧
    (s.deliverOwn p m).topics = s.topics := by
  unfold Control.deliverOwn
  split
  · split
    · dsimp only
      split <;> exact ⟨rfl, rfl⟩
    · exact ⟨rfl, rfl⟩
  · exact ⟨rfl, rfl⟩

theorem deliverHanded_fanout : (s.deliverHanded p m).fanout = s.fanout ∧
    (s.deliverHanded p m).topics = s.topics := by
  unfold Control.deliverHanded
  split
  · split
    · split <;> exact ⟨rfl, rfl⟩
    · exact ⟨rfl, rfl⟩
  · exact ⟨rfl, rfl⟩

end Control

/-- The messages that a step creates, and their topics. -/
def ControlStep.outgoing : ControlStep → List Outgoing
  | .publish c k => k.call.outgoing c
  | _ => []

def ControlStep.topics : ControlStep → List Topic
  | .publish _ k => k.topics
  | _ => []

namespace Control

variable {s s' : Control} {p : ProcessId} {scope : Scope} {m : MessageNo} {out : Outgoing}
  {l : ControlStep}

/-- What a step does, in one place. -/
structure Moves (s : Control) (l : ControlStep) (s' : Control) : Prop where
  messages : s'.fanout.messages = s.fanout.messages ++ l.outgoing
  topics : s'.topics = s.topics ++ l.topics
  changes : s.Changes s'

theorem Moves.of_withFanout {k : FanoutStep} {f : Control → Control}
    (h : s.withFanout k f = some s') (hk : k.outgoing = l.outgoing)
    (hf : s.Changes (f s) ∧ (f s).topics = s.topics ++ l.topics) : s.Moves l s' := by
  obtain ⟨fanout, hnext, rfl⟩ := withFanout_eq h
  have hmessages := Fanout.next_messages hnext
  rw [hk] at hmessages
  exact ⟨hmessages, hf.2, hf.1.keys, hf.1.stored, hf.1.queues⟩

theorem Moves.of_changes (hfanout : s'.fanout = s.fanout) (htopics : s'.topics = s.topics)
    (hl : l.outgoing = [] ∧ l.topics = []) (h : s.Changes s') : s.Moves l s' := by
  refine ⟨?_, ?_, h⟩
  · rw [hl.1, List.append_nil, hfanout]
  · rw [hl.2, List.append_nil, htopics]

theorem next_moves (h : s.next l = some s') : s.Moves l s' := by
  have hnil : s.topics = s.topics ++ [] := (List.append_nil _).symm
  have hid : s.Changes (id s) := .of_eq rfl rfl rfl
  cases l with
  | publish c k =>
      exact .of_withFanout (f := fun s => { s with topics := s.topics ++ k.topics }) h rfl
        ⟨.of_eq rfl rfl rfl, rfl⟩
  | act c ms entry =>
      simp only [Control.next] at h
      split at h
      next m rest _ =>
        exact .of_withFanout h rfl ⟨.deliverOwn, deliverOwn_fanout.2.trans hnil⟩
      next m rest _ =>
        split at h
        · exact nomatch h
        · exact .of_withFanout h rfl ⟨hid, hnil⟩
      next => exact .of_withFanout h rfl ⟨hid, hnil⟩
  | set c =>
      simp only [Control.next] at h
      split at h
      next m rest _ =>
        split at h
        next out hout =>
          split at h
          next hawaits =>
            obtain rfl := Option.some.inj h
            have hflag : s.Flagged out.scope m := by
              simp only [awaitsSet, hout, Option.any_some, Bool.and_eq_true] at hawaits
              exact ⟨out, hout, hawaits.1.1, rfl⟩
            refine .of_changes rfl rfl ⟨rfl, rfl⟩ ⟨fun p k x hx => .inl hx, ?_,
              fun p q hq x hx => .inl ⟨q, hq, rfl, hx⟩⟩
            intro k x hx
            by_cases hk : k = out.scope
            · obtain rfl := Option.some.inj ((if_pos hk).symm.trans hx)
              exact .inr (hk ▸ hflag)
            · exact .inl ((if_neg hk).symm.trans hx)
          next => exact nomatch h
        next => exact nomatch h
      next => exact nomatch h
  | hand p ch =>
      simp only [Control.next] at h
      split at h
      next m _ => exact .of_withFanout h rfl ⟨.deliverHanded, deliverHanded_fanout.2.trans hnil⟩
      next => exact nomatch h
  | addQueue p threadId runId afterId replay => exact .of_withFanout h rfl ⟨hid, hnil⟩
  | addThreadStream p threadId => exact .of_withFanout h rfl ⟨hid, hnil⟩
  | removeQueue p i => exact .of_withFanout h rfl ⟨hid, hnil⟩
  | addControlQueue p threadId runId =>
      obtain rfl := Option.some.inj h
      refine .of_changes rfl rfl ⟨rfl, rfl⟩ (.setQueues ?_)
      intro queues q hq m hm
      rcases List.mem_append.1 hq with hq | hq
      · exact .inl ⟨q, hq, rfl, hm⟩
      · rw [List.mem_singleton.1 hq] at hm
        exact nomatch hm
  | removeControlQueue p i =>
      obtain rfl := Option.some.inj h
      refine .of_changes rfl rfl ⟨rfl, rfl⟩ (.setQueues ?_)
      intro queues q hq m hm
      exact .inl ⟨q, List.mem_of_mem_eraseIdx hq, rfl, hm⟩
  | getControlKey p threadId runId =>
      simp only [Control.next] at h
      split at h
      · obtain rfl := Option.some.inj h
        exact .of_changes rfl rfl ⟨rfl, rfl⟩ (.setKey fun m hm => .inl hm)
      · obtain rfl := Option.some.inj h
        exact .of_changes rfl rfl ⟨rfl, rfl⟩ hid
  | clear p threadId runId =>
      obtain rfl := Option.some.inj h
      exact .of_changes rfl rfl ⟨rfl, rfl⟩ (.setKey nofun)
  | expire threadId runId =>
      obtain rfl := Option.some.inj h
      refine .of_changes rfl rfl ⟨rfl, rfl⟩ ⟨fun p k x hx => .inl hx, ?_,
        fun p q hq x hx => .inl ⟨q, hq, rfl, hx⟩⟩
      intro k x hx
      by_cases hk : k = .run threadId runId
      · exact nomatch (if_pos hk).symm.trans hx
      · exact .inl ((if_neg hk).symm.trans hx)

/-! ## Runs -/

theorem tagged_inductive :
    control.Inductive fun s => List.Forall₂ Tagged s.fanout.messages s.topics where
  init s hs := by
    obtain rfl := hs
    exact .nil
  step s l s' hs hstep := by
    have hmoves := next_moves hstep
    rw [hmoves.messages, hmoves.topics]
    refine List.rel_append hs ?_
    cases l with
    | publish c k => exact k.tagged c
    | _ => exact .nil

theorem next_fanout (h : s.next l = some s') :
    (∃ k, fanoutStep l = some k ∧ s.fanout.next k = some s'.fanout) ∨
      fanoutStep l = none ∧ s'.fanout = s.fanout := by
  have hfanout {k : FanoutStep} {f : Control → Control} (h : s.withFanout k f = some s') :
      s.fanout.next k = some s'.fanout := by
    obtain ⟨fanout, hnext, rfl⟩ := withFanout_eq h
    exact hnext
  cases l with
  | publish c k =>
      exact .inl ⟨_, rfl, hfanout (f := fun s => { s with topics := s.topics ++ k.topics }) h⟩
  | act c ms entry =>
      refine .inl ⟨_, rfl, ?_⟩
      simp only [Control.next] at h
      split at h
      · exact hfanout h
      · split at h
        · cases h
        · exact hfanout h
      · exact hfanout h
  | set c =>
      simp only [Control.next] at h
      split at h
      · split at h
        · split at h
          · obtain rfl := Option.some.inj h
            exact .inr ⟨rfl, rfl⟩
          · cases h
        · cases h
      · cases h
  | hand p ch =>
      refine .inl ⟨_, rfl, ?_⟩
      simp only [Control.next] at h
      split at h
      · exact hfanout h
      · cases h
  | addQueue p threadId runId afterId replay => exact .inl ⟨_, rfl, hfanout h⟩
  | addThreadStream p threadId => exact .inl ⟨_, rfl, hfanout h⟩
  | removeQueue p i => exact .inl ⟨_, rfl, hfanout h⟩
  | getControlKey p threadId runId =>
      simp only [Control.next] at h
      split at h <;>
        (obtain rfl := Option.some.inj h
         exact .inr ⟨rfl, rfl⟩)
  | addControlQueue | removeControlQueue | clear | expire =>
      obtain rfl := Option.some.inj h
      exact .inr ⟨rfl, rfl⟩

/-- The state of a run in which no event had `control` in its name. -/
structure Plain (s : Control) : Prop where
  tagged : List.Forall₂ Tagged s.fanout.messages s.topics
  plain : ∀ name, Topic.event name ∈ s.topics → hasControl name = false
  keys : ∀ p scope m, s.keys p scope = some m → s.Cancels scope m
  stored : ∀ scope m, s.stored scope = some m → s.Cancels scope m
  queues : ∀ p, ∀ q ∈ s.queues p, ∀ m ∈ q.items, s.Cancels q.scope m

/-- Only cancels are flagged. -/
theorem Plain.cancels (h : s.Plain) (hflag : s.Flagged scope m) : s.Cancels scope m := by
  obtain ⟨out, hout, hcontrol, hscope⟩ := hflag
  obtain ⟨topic, htopic, htag⟩ := tagged_get h.tagged hout
  cases topic with
  | event name =>
      -- an event is flagged by its name, which is none of those
      have hplain := h.plain name (List.mem_of_getElem? htopic)
      rw [(htag.1 name rfl).1, Topic.control_event, hplain] at hcontrol
      exact nomatch hcontrol
  | protocol method =>
      rw [htag.2 method rfl] at hcontrol
      exact nomatch hcontrol
  | runControl => exact ⟨htopic, out, hout, hscope⟩

/-- `_cancel_requested` finds a key only if the run was cancelled. -/
theorem Plain.requested (h : s.Plain) {threadId : Option ThreadId} {runId : RunId}
    (hrequested : s.cancelRequested p threadId runId = true) :
    ∃ m, s.Cancels (.run threadId runId) m := by
  rcases (Bool.or_eq_true_iff).1 hrequested with hkey | hstored
  · obtain ⟨m, hm⟩ := Option.isSome_iff_exists.1 hkey
    exact ⟨m, h.keys p _ m hm⟩
  · obtain ⟨m, hm⟩ := Option.isSome_iff_exists.1 hstored
    exact ⟨m, h.stored _ m hm⟩

theorem Moves.cancels (h : s.Moves l s') (hm : s.Cancels scope m) : s'.Cancels scope m := by
  obtain ⟨htopic, out, hout, hscope⟩ := hm
  refine ⟨?_, out, ?_, hscope⟩
  · rw [h.topics]
    rw [List.getElem?_append_left (List.getElem?_eq_some_iff.1 htopic).1]
    exact htopic
  · rw [h.messages]
    rw [List.getElem?_append_left (List.getElem?_eq_some_iff.1 hout).1]
    exact hout

/-- A cancel is an old one, or the one that the step publishes. -/
theorem Moves.cancels_cases (h : s.Moves l s') (hs : s.Plain) (hm : s'.Cancels scope m) :
    s.Cancels scope m ∨ ∃ c runId threadId, l = .publish c (.cancel runId threadId) ∧
      scope = .run (some threadId) runId := by
  obtain ⟨htopic, out, hout, hscope⟩ := hm
  have hlength := hs.tagged.length_eq
  rw [h.topics] at htopic
  rw [h.messages] at hout
  -- both lists have grown at their ends, so the position says whether the message is new
  rcases Nat.lt_or_ge m s.topics.length with hold | hnew
  · rw [List.getElem?_append_left hold] at htopic
    rw [List.getElem?_append_left (hlength ▸ hold)] at hout
    exact .inl ⟨htopic, out, hout, hscope⟩
  · rw [List.getElem?_append_right hnew] at htopic
    rw [List.getElem?_append_right (hlength ▸ hnew), hlength] at hout
    have hmem := List.mem_of_getElem? htopic
    refine .inr ?_
    cases l with
    | publish c k =>
        cases k with
        | cancel runId threadId =>
            have hout := List.mem_singleton.1 (List.mem_of_getElem? hout)
            exact ⟨c, runId, threadId, rfl, hscope ▸ hout ▸ rfl⟩
        | event | protocol => exact nomatch List.mem_singleton.1 hmem
        | batch runId threadId events =>
            obtain ⟨e, -, hmem⟩ := List.mem_flatMap.1 hmem
            cases threadId with
            | none => exact nomatch List.mem_singleton.1 hmem
            | some t => simp at hmem
    | _ => exact nomatch hmem

theorem mem_topics (h : plainNames l = true) {name : List Char}
    (hname : Topic.event name ∈ l.topics) : hasControl name = false := by
  cases l with
  | publish c k =>
      have hk : ∀ name ∈ k.names, hasControl name = false := by
        simpa [plainNames] using h
      apply hk
      cases k with
      | event runId threadId x =>
          rw [Topic.event.inj (List.mem_singleton.1 hname)]
          exact List.mem_singleton_self x
      | batch runId threadId events =>
          obtain ⟨e, he, hmem⟩ := List.mem_flatMap.1 hname
          rcases List.mem_cons.1 hmem with heq | hmem
          · rw [Topic.event.inj heq]
            exact List.mem_map_of_mem he
          · cases threadId with
            | none => exact nomatch hmem
            | some t => exact nomatch List.mem_singleton.1 hmem
      | protocol threadId method => exact nomatch List.mem_singleton.1 hname
      | cancel runId threadId => exact nomatch List.mem_singleton.1 hname
  | _ => exact nomatch hname

theorem plain_inductive : (control.restrict fun _ l => plainNames l = true).Inductive Plain where
  init s hs := by
    obtain rfl := hs
    exact ⟨.nil, nofun, nofun, nofun, nofun⟩
  step s l s' hs hstep := by
    have hmoves := next_moves hstep.1
    refine ⟨tagged_inductive.step s l s' hs.tagged hstep.1, ?_, ?_, ?_, ?_⟩
    · intro name hname
      rw [hmoves.topics] at hname
      rcases List.mem_append.1 hname with hname | hname
      · exact hs.plain name hname
      · exact mem_topics hstep.2 hname
    · intro p scope m hm
      -- a new key comes from a key in the process, from Redis, or from a flagged message
      rcases hmoves.changes.keys p scope m hm with hkey | hstored | hflag
      · exact hmoves.cancels (hs.keys p scope m hkey)
      · exact hmoves.cancels (hs.stored scope m hstored)
      · exact hmoves.cancels (hs.cancels hflag)
    · intro scope m hm
      rcases hmoves.changes.stored scope m hm with hstored | hflag
      · exact hmoves.cancels (hs.stored scope m hstored)
      · exact hmoves.cancels (hs.cancels hflag)
    · intro p q hq m hm
      rcases hmoves.changes.queues p q hq m hm with ⟨q₀, hq₀, hscope, hm₀⟩ | hflag
      · exact hmoves.cancels (hscope ▸ hs.queues p q₀ hq₀ m hm₀)
      · exact hmoves.cancels (hs.cancels hflag)

/-- The fan-out keeps its events in the queues. -/
theorem heard_step (hs : s.fanout.Heard (·.channel = .run)) (h : s.next l = some s')
    (hfresh : s.freshIds l = true) : s'.fanout.Heard (·.channel = .run) := by
  rcases next_fanout h with ⟨k, hk, hnext⟩ | ⟨-, hsame⟩
  · refine hs.step hnext fun m scope hm hscope hrun => ?_
    simpa [freshIds, hk, hm, hscope, hrun] using hfresh
  · exact hsame ▸ hs

/-- Moreover no message of a run has the id of another one. -/
structure Clean (s : Control) : Prop extends s.Plain where
  heard : s.fanout.Heard (·.channel = .run)

theorem clean_inductive :
    (control.restrict fun s l => s.safe l = true).Inductive Clean where
  init s hs := by
    refine ⟨plain_inductive.init s hs, ?_⟩
    obtain rfl := hs
    exact Fanout.kept_empty (StreamManager.heard_law _)
  step s l s' hs hstep := by
    obtain ⟨hplain, hfresh⟩ := Bool.and_eq_true_iff.1 hstep.2
    exact ⟨plain_inductive.step s l s' hs.toPlain ⟨hstep.1, hplain⟩,
      heard_step hs.heard hstep.1 hfresh⟩

/-! ## Deliveries -/

/-- A message that is not flagged leaves the control state, in its own process and from its
envelope. -/
theorem spares_of_not_control (h : s.next l = some s') (harrival : s.arrival l = some (p, m))
    (hout : s.fanout.messages[m]? = some out) (hcontrol : out.control = false) :
    s.Spares s' := by
  cases l with
  | act c ms entry =>
      simp only [arrival] at harrival
      split at harrival
      next m' rest hcalls =>
        obtain ⟨rfl, rfl⟩ := Prod.mk.inj (Option.some.inj harrival)
        simp only [Control.next, hcalls] at h
        obtain ⟨fanout, -, rfl⟩ := withFanout_eq h
        have hown : s.deliverOwn c.process m' = s := by
          unfold Control.deliverOwn
          cases s.fanout.ids m' <;> simp [hout, hcontrol]
        rw [hown]
        exact ⟨rfl, rfl, rfl⟩
      next => exact nomatch harrival
  | hand p' ch =>
      obtain ⟨m', hm', heq⟩ := Option.map_eq_some_iff.1 harrival
      obtain ⟨rfl, rfl⟩ := Prod.mk.inj heq
      simp only [Control.next, hm'] at h
      obtain ⟨fanout, -, rfl⟩ := withFanout_eq h
      have hhanded : s.deliverHanded p' m' = s := by
        unfold Control.deliverHanded
        cases s.fanout.ids m' <;> simp [hout, hcontrol]
      rw [hhanded]
      exact ⟨rfl, rfl, rfl⟩
  | _ => exact nomatch harrival

/-- An event is not flagged. -/
theorem Plain.event (h : s.Plain) {name : List Char} (htopic : s.topics[m]? = some (.event name)) :
    ∃ out, s.fanout.messages[m]? = some out ∧ out.control = false ∧ out.scope.channel = .run := by
  have hlength := h.tagged.length_eq
  have hlt : m < s.fanout.messages.length := hlength ▸ (List.getElem?_eq_some_iff.1 htopic).1
  obtain ⟨topic, htopic', htag⟩ := tagged_get h.tagged (List.getElem?_eq_getElem hlt)
  obtain rfl := Option.some.inj (htopic.symm.trans htopic')
  obtain ⟨hcontrol, hrun⟩ := htag.1 name rfl
  refine ⟨_, List.getElem?_eq_getElem hlt, ?_, hrun⟩
  rw [hcontrol, Topic.control_event]
  exact h.plain name (List.mem_of_getElem? htopic)

/-- An event that reached a process is in the queues it is for. -/
theorem Clean.delivered (h : s.Clean) {q : Queue} (hq : q ∈ (s.fanout.managers p).queues)
    (hm : s.Expects q m) (hreached : s.fanout.Reached p m) : m ∈ q.items := by
  obtain ⟨name, htopic⟩ := hm.event
  obtain ⟨out, hout, hcontrol, hrun⟩ := h.toPlain.event htopic
  have hscope : out.scope = q.scope := by
    have hsame := hm.scope
    rw [Fanout.scopeOf, hout] at hsame
    exact Option.some.inj hsame
  exact (h.heard.managers p).queues q hq (hscope ▸ hrun) m ⟨hm.since, out, hout, hscope, hcontrol⟩
    hreached

theorem Clean.lawful (h : s.Clean) : s.Lawful where
  keys := h.keys
  stored := h.stored
  controlQueues := h.queues
  requested p threadId runId hrequested := h.toPlain.requested hrequested
  spares l s' p m name hnext harrival htopic := by
    obtain ⟨out, hout, hcontrol, -⟩ := h.toPlain.event htopic
    exact spares_of_not_control hnext harrival hout hcontrol
  delivered p q hq m hm hreached := h.delivered hq hm hreached
  all p hsettled q hq m hm := by
    obtain ⟨name, htopic⟩ := hm.event
    obtain ⟨out, hout, -⟩ := h.toPlain.event htopic
    exact h.delivered hq hm (h.heard.ordered.reached_of_settled hsettled hout)

theorem not_lawful (hkey : s.keys p scope = some m) (htopic : s.topics[m]? ≠ some .runControl) :
    ¬ s.Lawful := fun h => htopic (h.keys p scope m hkey).1

/-- `put` of a message that is flagged as control sets the key of its run. -/
theorem act_keys {c : Caller} {ms : Nat} {entry id : MessageId} {rest : List CallStep}
    (hcalls : s.fanout.calls c = .deliver m :: rest) (h : s.next (.act c ms entry) = some s')
    (hout : s.fanout.messages[m]? = some out) (hid : s.fanout.ids m = some id)
    (hput : (out.control && !out.batched) = true) :
    s'.keys c.process out.scope = some m ∧ s'.topics = s.topics := by
  simp only [Control.next, hcalls] at h
  obtain ⟨fanout, -, rfl⟩ := withFanout_eq h
  refine ⟨?_, deliverOwn_fanout.2⟩
  show (s.deliverOwn c.process m).keys c.process out.scope = some m
  unfold Control.deliverOwn
  simp only [hout, hid, hput, if_true]
  split
  · exact if_pos ⟨rfl, rfl⟩
  · exact if_pos ⟨rfl, rfl⟩

/-- While no event has `control` in its name and no message of a run the id of another one,
events and cancels are kept apart, and every event is delivered. A process that puts an event
with such a name takes it for a cancel of its run. -/
theorem control_kept_apart (s : Control) :
    ((control.restrict fun s l => s.safe l = true).Reachable s → s.Lawful) ∧
      ∀ c ms entry m rest out id name s', control.Reachable s →
        s.fanout.calls c = .deliver m :: rest → s.next (.act c ms entry) = some s' →
        s.fanout.messages[m]? = some out → s.fanout.ids m = some id → out.batched = false →
        s.topics[m]? = some (.event name) → hasControl name = true → ¬ s'.Lawful := by
  refine ⟨fun hs => (clean_inductive.invariant s hs).lawful, ?_⟩
  intro c ms entry m rest out id name s' hs hcalls hnext hout hid hbatched htopic hname
  obtain ⟨topic, htopic', htag⟩ := tagged_get (tagged_inductive.invariant s hs) hout
  obtain rfl := Option.some.inj (htopic.symm.trans htopic')
  have hput : (out.control && !out.batched) = true := by
    rw [(htag.1 name rfl).1, Topic.control_event, hname, hbatched]
    rfl
  obtain ⟨hkey, htopics⟩ := act_keys hcalls hnext hout hid hput
  refine not_lawful hkey ?_
  rw [htopics, htopic]
  exact nofun

/-- An event of a run on the thread 1, put by a worker of the process 0. -/
def putEvent (runId : RunId) (name : List Char) : List ControlStep :=
  [.publish ⟨0, 0⟩ (.event runId (some 1) name), .act ⟨0, 0⟩ 5 (5, 0), .act ⟨0, 0⟩ 5 (5, 0)]

/-- A custom event `steering` is put after a queue was registered; it comes there, and nothing
is taken for a cancel. -/
theorem control_kept_apart_steering : ∃ s : Control,
    (control.restrict fun s l => s.safe l = true).Reachable s ∧ s.Lawful ∧
      (s.fanout.managers 0).queues.map (·.items) = [[0]] := by
  have hplay : (TSys.play (fun s l => if s.safe l then s.next l else none) ({} : Control)
      (.addQueue 0 (some 1) 7 none false ::
        putEvent 7 ['s', 't', 'e', 'e', 'r', 'i', 'n', 'g'])).any
        (fun s => decide ((s.fanout.managers 0).queues.map (·.items) = [[0]])) = true := by
    decide +kernel
  obtain ⟨s, hs, hitems⟩ := TSys.play_reachable
    (T := control.restrict fun s l => s.safe l = true) (fun s l s' h => by
      split at h
      next hsafe => exact ⟨l, h, hsafe⟩
      next => exact nomatch h) rfl hplay
  exact ⟨s, hs, (control_kept_apart s).1 hs, of_decide_eq_true hitems⟩

/-- A custom event `controls` is put, and `_cancel_requested` answers yes in its process,
though no run was cancelled. -/
theorem event_cancels_run : ∃ s : Control, control.Reachable s ∧ .runControl ∉ s.topics ∧
    s.cancelRequested 0 (some 1) 7 = true ∧ ¬ s.Lawful := by
  have hplay : (TSys.play Control.next ({} : Control)
      (putEvent 7 ['c', 'o', 'n', 't', 'r', 'o', 'l', 's'])).any (fun s =>
        decide (.runControl ∉ s.topics) && s.cancelRequested 0 (some 1) 7 &&
          decide (s.keys 0 (.run (some 1) 7) = some 0)) = true := by decide +kernel
  obtain ⟨s, hs, hcheck⟩ := TSys.play_reachable (T := control) (fun s l s' h => ⟨l, h⟩) rfl hplay
  simp only [Bool.and_eq_true, decide_eq_true_eq] at hcheck
  refine ⟨s, hs, hcheck.1.1, hcheck.1.2, not_lawful hcheck.2 ?_⟩
  intro htopic
  exact hcheck.1.1 (List.mem_of_getElem? htopic)

end Control

end GraphHarbor
