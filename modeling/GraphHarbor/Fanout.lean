import GraphHarbor.RedisStream
import Mathlib.Data.List.Nodup
import Mathlib.Data.List.Range

/-!
# Every queue gets every message once

A message reaches a manager through its own process or through its envelope, and is put in
a queue the first time. The ids decide what the first time is, so it matters that no two
messages of a scope have one id: `_generate_ms_seq_id` promises that within a process, and
`XADD` within a stream.
-/

namespace GraphHarbor

open Kit

variable {s s' : Fanout} {messages : List Outgoing} {ids : MessageNo → Option MessageId}
  {p : ProcessId} {c : Caller} {ch : Channel} {m n : MessageNo}

/-! ## What is promised -/

namespace Fanout

def callerOf (messages : List Outgoing) (m : MessageNo) : Option Caller :=
  messages[m]?.map (·.caller)

def scopeOf (messages : List Outgoing) (m : MessageNo) : Option Scope :=
  messages[m]?.map (·.scope)

/-- The message was delivered in its own process `p`, or `p` has handled its envelope. -/
def Reached (s : Fanout) (p : ProcessId) (m : MessageNo) : Prop :=
  (m ∈ s.delivered ∧ (callerOf s.messages m).map (·.process) = some p) ∨
    ∃ ch, m ∈ (s.log ch).take ((s.managers p).handed ch)

/-- No call is in progress, and the process has handled every envelope. -/
def Settled (s : Fanout) (p : ProcessId) : Prop :=
  (∀ c, s.calls c = []) ∧ ∀ ch, (s.log ch).length ≤ (s.managers p).handed ch

end Fanout

/-- A message for the queue that is no control message and is put after its registration. -/
structure Queue.Expects (messages : List Outgoing) (q : Queue) (m : MessageNo) : Prop where
  since : q.since ≤ m
  message : ∃ out, messages[m]? = some out ∧ out.scope = q.scope ∧ out.control = false

/-- Messages put after the registration by one caller are in the order of its calls. -/
def Queue.InOrder (messages : List Outgoing) (q : Queue) : Prop :=
  q.items.Pairwise fun m n => q.since ≤ m → q.since ≤ n →
    Fanout.callerOf messages m = Fanout.callerOf messages n → m < n

/-- A queue has each expected message that reached its process once, and no other one. -/
structure Queue.Served (s : Fanout) (p : ProcessId) (q : Queue) : Prop where
  once : ∀ m, q.Expects s.messages m → s.Reached p m → q.items.count m = 1
  none : ∀ m, q.Expects s.messages m → ¬s.Reached p m → q.items.count m = 0
  all : s.Settled p → ∀ m, q.Expects s.messages m → q.items.count m = 1
  order : q.InOrder s.messages

def Fanout.Served (s : Fanout) : Prop :=
  ∀ p, ∀ q ∈ (s.managers p).queues, q.Served s p

/-! ## Keys -/

namespace Fanout

/-- The key of a message once it has an id. -/
def keyOf (messages : List Outgoing) (ids : MessageNo → Option MessageId) (m : MessageNo) :
    Option SeenKey :=
  match messages[m]?, ids m with
  | some out, some id => some (out.scope, id)
  | _, _ => none

theorem keyOf_eq_some {key : SeenKey} : keyOf messages ids m = some key ↔
    ∃ out id, messages[m]? = some out ∧ ids m = some id ∧ key = (out.scope, id) := by
  cases hout : messages[m]? with
  | none => simp [keyOf, hout]
  | some out => cases hid : ids m <;> simp [keyOf, hout, hid, eq_comm]

/-- The id is held by a message of the scope of `m`. -/
def holds (s : Fanout) (m : MessageNo) (id : MessageId) : Bool :=
  (List.range s.messages.length).any fun n =>
    scopeOf s.messages n = scopeOf s.messages m && s.ids n = some id

/-- The id that a call gets for a message is not held by another message of its scope. -/
def unused (s : Fanout) : FanoutStep → Bool
  | .act c ms entry =>
      match s.calls c with
      | .xadd m :: _ => !s.holds m entry
      | .stamp m :: _ => !s.holds m (generateMsSeqId ms (s.managers c.process).lastId)
      | _ => true
  | _ => true

end Fanout

/-! ## A manager -/

/-- What `seen` keeps of the recorded ids. -/
structure StreamManager.Remembers (mgr : StreamManager) : Prop where
  suffix : mgr.seen <:+ mgr.recorded
  length : min mgr.recorded.length 5000 ≤ mgr.seen.length

/-- The items of a queue, when `reached` are the messages that its manager has got. -/
structure Queue.Sound (messages : List Outgoing) (reached : MessageNo → Prop) (q : Queue) :
    Prop where
  since_le : q.since ≤ messages.length
  scope : ∀ m ∈ q.items, Fanout.scopeOf messages m = some q.scope
  received : ∀ m ∈ q.items, q.since ≤ m → reached m
  once : ∀ m, q.Expects messages m → reached m → q.items.count m = 1
  order : q.InOrder messages

/-- A manager that has got the messages `reached`. -/
structure StreamManager.Sound (messages : List Outgoing) (ids : MessageNo → Option MessageId)
    (reached : MessageNo → Prop) (mgr : StreamManager) : Prop where
  remembers : mgr.Remembers
  recorded : ∀ key, key ∈ mgr.recorded ↔ ∃ m, reached m ∧ Fanout.keyOf messages ids m = some key
  stored : ∀ scope, ∀ m ∈ mgr.messageStores scope, Fanout.scopeOf messages m = some scope
  queues : ∀ q ∈ mgr.queues, q.Sound messages reached

/-- A property of a manager that has got the messages `reached`. -/
abbrev ManagerProperty :=
  List Outgoing → (MessageNo → Option MessageId) → (MessageNo → Prop) → StreamManager → Prop

/-- The steps of a manager keep the property while no two messages of the scopes `S` have one
id. A message that comes again is left to `Fanout.Kept.step`. -/
structure ManagerProperty.Law (S : Scope → Prop) (M : ManagerProperty) : Prop where
  empty : M [] (fun _ => none) (fun _ => False) {}
  /-- Messages are created, and those it has not got get ids. -/
  extend : ∀ {messages ids reached mgr} (more : List Outgoing)
      (ids' : MessageNo → Option MessageId),
    M messages ids reached mgr → (∀ m, reached m → m < messages.length) →
    (∀ m, reached m → ids' m = ids m) → M (messages ++ more) ids' reached mgr
  congr : ∀ {messages ids reached} {mgr mgr' : StreamManager}, M messages ids reached mgr →
    mgr'.seen = mgr.seen → mgr'.recorded = mgr.recorded →
    mgr'.messageStores = mgr.messageStores → mgr'.queues = mgr.queues →
    M messages ids reached mgr'
  buffer : ∀ {messages ids reached mgr scope m}, M messages ids reached mgr →
    Fanout.scopeOf messages m = some scope → M messages ids reached (mgr.buffer scope m)
  /-- The first delivery of a message. -/
  deliver : ∀ {messages ids reached mgr m} {out : Outgoing} {id : MessageId} (queued : Bool),
    M messages ids reached mgr → messages[m]? = some out → ids m = some id → ¬reached m →
    (S out.scope → ∀ n, reached n → Fanout.keyOf messages ids n ≠ some (out.scope, id)) →
    (out.control = false → queued = true) →
    (∀ n, reached n → Fanout.scopeOf messages n = Fanout.scopeOf messages m →
      Fanout.callerOf messages n = Fanout.callerOf messages m → n < m) →
    M messages ids (fun n => reached n ∨ n = m) (mgr.deliver (out.scope, id) m queued)
  addQueue : ∀ {messages ids reached mgr scope} {items : List MessageNo},
    M messages ids reached mgr → (∀ m ∈ items, m ∈ mgr.messageStores scope) →
    M messages ids reached { mgr with queues := mgr.queues ++ [⟨scope, messages.length, items⟩] }
  removeQueue : ∀ {messages ids reached mgr} (i : Nat), M messages ids reached mgr →
    M messages ids reached { mgr with queues := mgr.queues.eraseIdx i }

variable {reached : MessageNo → Prop} {mgr : StreamManager} {q : Queue} {key : SeenKey}
  {out : Outgoing}

theorem addSeen_suffix {seen recorded : List SeenKey} (h : seen <:+ recorded) :
    addSeen seen key <:+ recorded ++ [key] := by
  have happend : seen ++ [key] <:+ recorded ++ [key] := by
    obtain ⟨older, rfl⟩ := h
    exact ⟨older, by simp⟩
  simp only [addSeen]
  split
  · exact (List.drop_suffix _ _).trans happend
  · exact happend

theorem addSeen_length {seen recorded : List SeenKey}
    (h : min recorded.length 5000 ≤ seen.length) :
    min (recorded ++ [key]).length 5000 ≤ (addSeen seen key).length := by
  have hmax : seenMaxlen = 10000 := rfl
  simp only [addSeen]
  split
  · next hfull =>
      -- of more than 10000 ids the newer half stays
      simp only [List.length_append, List.length_singleton, List.length_drop] at hfull ⊢
      omega
  · simp only [List.length_append, List.length_singleton]
    omega

namespace StreamManager

/-- An id that was recorded a short time ago is still seen. -/
theorem Remembers.mem_seen (h : mgr.Remembers)
    (hkey : key ∈ mgr.recorded.drop (mgr.recorded.length - 5000)) : key ∈ mgr.seen := by
  have hlength := h.length
  have hle : (mgr.recorded.drop (mgr.recorded.length - 5000)).length ≤ mgr.seen.length := by
    rw [List.length_drop]
    omega
  exact (List.suffix_of_suffix_length_le (List.drop_suffix _ _) h.suffix hle).subset hkey

theorem Remembers.deliver (h : mgr.Remembers) (key : SeenKey) (m : MessageNo) (queued : Bool) :
    (mgr.deliver key m queued).Remembers := by
  simp only [StreamManager.deliver]
  split
  · exact h
  · exact ⟨addSeen_suffix h.suffix, addSeen_length h.length⟩

end StreamManager

namespace Queue

/-- A queue that does not expect the message is left alone. -/
theorem Sound.skip (h : q.Sound messages reached) (hm : ¬q.Expects messages m) :
    q.Sound messages fun n => reached n ∨ n = m where
  since_le := h.since_le
  scope := h.scope
  received n hn hsince := .inl (h.received n hn hsince)
  once n hn hreached := by
    obtain hreached | rfl := hreached
    · exact h.once n hn hreached
    · exact absurd hn hm
  order := h.order

theorem Sound.push (h : q.Sound messages reached)
    (hscope : Fanout.scopeOf messages m = some q.scope) (hnew : ¬reached m)
    (hlast : ∀ n, reached n → Fanout.scopeOf messages n = Fanout.scopeOf messages m →
      Fanout.callerOf messages n = Fanout.callerOf messages m → n < m) :
    ({ q with items := q.items ++ [m] } : Queue).Sound messages fun n => reached n ∨ n = m where
  since_le := h.since_le
  scope n hn := by
    obtain hn | hn := List.mem_append.1 hn
    · exact h.scope n hn
    · rw [List.mem_singleton.1 hn]
      exact hscope
  received n hn hsince := by
    obtain hn | hn := List.mem_append.1 hn
    · exact .inl (h.received n hn hsince)
    · exact .inr (List.mem_singleton.1 hn)
  once n hn hreached := by
    have hexpects : q.Expects messages n := ⟨hn.since, hn.message⟩
    show (q.items ++ [m]).count n = 1
    rw [List.count_append]
    obtain hreached | rfl := hreached
    · have hne : m ≠ n := by
        rintro rfl
        exact hnew hreached
      rw [h.once n hexpects hreached, List.count_singleton, if_neg (by simpa using hne)]
    · have habsent : n ∉ q.items := fun hmem => hnew (h.received n hmem hexpects.since)
      rw [List.count_eq_zero_of_not_mem habsent, List.count_singleton_self]
  order := by
    refine List.pairwise_append.2 ⟨h.order, List.pairwise_singleton _ _, ?_⟩
    intro n hn m' hm' hsince _ hcaller
    obtain rfl := List.mem_singleton.1 hm'
    apply hlast n (h.received n hn hsince) _ hcaller
    rw [h.scope n hn, hscope]

end Queue

namespace StreamManager

/-- A message that comes again while its id is seen. -/
theorem deliver_seen {queued : Bool} (hkey : key ∈ mgr.seen) : mgr.deliver key m queued = mgr := by
  simp only [StreamManager.deliver, if_pos hkey]

/-- The first delivery of a message whose id no message had before. -/
theorem Sound.deliver (h : mgr.Sound messages ids reached) {queued : Bool} {id : MessageId}
    (hout : messages[m]? = some out) (hid : ids m = some id) (hnew : ¬reached m)
    (hunique : ∀ n, reached n → Fanout.keyOf messages ids n ≠ some (out.scope, id))
    (hqueued : out.control = false → queued = true)
    (hlast : ∀ n, reached n → Fanout.scopeOf messages n = Fanout.scopeOf messages m →
      Fanout.callerOf messages n = Fanout.callerOf messages m → n < m) :
    (mgr.deliver (out.scope, id) m queued).Sound messages ids fun n => reached n ∨ n = m := by
  have hkey : Fanout.keyOf messages ids m = some (out.scope, id) :=
    Fanout.keyOf_eq_some.2 ⟨out, id, hout, hid, rfl⟩
  have hscope : Fanout.scopeOf messages m = some out.scope := by simp [Fanout.scopeOf, hout]
  have hunseen : (out.scope, id) ∉ mgr.seen := by
    intro hseen
    obtain ⟨n, hn, hsame⟩ := (h.recorded _).1 (h.remembers.suffix.subset hseen)
    exact hunique n hn hsame
  have hremembers := h.remembers.deliver (out.scope, id) m queued
  simp only [StreamManager.deliver, if_neg hunseen] at hremembers ⊢
  refine ⟨hremembers, ?_, h.stored, ?_⟩
  · intro key
    simp only [List.mem_append, List.mem_singleton, h.recorded]
    constructor
    · rintro (⟨n, hn, hkeyn⟩ | rfl)
      · exact ⟨n, .inl hn, hkeyn⟩
      · exact ⟨m, .inr rfl, hkey⟩
    · rintro ⟨n, hn | rfl, hkeyn⟩
      · exact .inl ⟨n, hn, hkeyn⟩
      · rw [hkey] at hkeyn
        exact .inr (Option.some.inj hkeyn).symm
  · intro q hq
    cases queued with
    | false =>
        refine (h.queues q hq).skip fun hexpects => ?_
        obtain ⟨out', hout', -, hcontrol⟩ := hexpects.message
        obtain rfl := Option.some.inj (hout.symm.trans hout')
        cases hqueued hcontrol
    | true =>
        obtain ⟨q₀, hq₀, rfl⟩ := List.mem_map.1 hq
        by_cases hq₀scope : q₀.scope = out.scope
        · rw [if_pos hq₀scope]
          exact (h.queues q₀ hq₀).push (by rw [hscope, hq₀scope]) hnew hlast
        · rw [if_neg hq₀scope]
          refine (h.queues q₀ hq₀).skip fun hexpects => ?_
          obtain ⟨out', hout', hsame, -⟩ := hexpects.message
          obtain rfl := Option.some.inj (hout.symm.trans hout')
          exact hq₀scope hsame.symm

/-- A manager stays sound when messages are created and messages it has not got get ids. -/
theorem Sound.extend (h : mgr.Sound messages ids reached) (more : List Outgoing)
    (ids' : MessageNo → Option MessageId) (hreached : ∀ m, reached m → m < messages.length)
    (hids : ∀ m, reached m → ids' m = ids m) :
    mgr.Sound (messages ++ more) ids' reached := by
  have hold : ∀ m, m < messages.length → (messages ++ more)[m]? = messages[m]? :=
    fun m hm => List.getElem?_append_left hm
  have hscoped : ∀ m scope, Fanout.scopeOf messages m = some scope →
      m < messages.length ∧ Fanout.scopeOf (messages ++ more) m = some scope := by
    intro m scope hm
    obtain ⟨out, hout, -⟩ := Option.map_eq_some_iff.1 hm
    have hlt := (List.getElem?_eq_some_iff.1 hout).1
    exact ⟨hlt, by rw [Fanout.scopeOf, hold m hlt]; exact hm⟩
  have hkeys : ∀ m, reached m → Fanout.keyOf (messages ++ more) ids' m =
      Fanout.keyOf messages ids m := by
    intro m hm
    simp only [Fanout.keyOf, hold m (hreached m hm), hids m hm]
  refine ⟨h.remembers, ?_, fun scope m hm => (hscoped m scope (h.stored scope m hm)).2, ?_⟩
  · intro key
    rw [h.recorded]
    refine exists_congr fun m => and_congr_right fun hm => ?_
    rw [hkeys m hm]
  · intro q hq
    have hqs := h.queues q hq
    refine ⟨?_, fun m hm => (hscoped m _ (hqs.scope m hm)).2, hqs.received, ?_, ?_⟩
    · rw [List.length_append]
      exact Nat.le_add_right_of_le hqs.since_le
    · intro m hm hgot
      obtain ⟨out, hout, hrest⟩ := hm.message
      rw [hold m (hreached m hgot)] at hout
      exact hqs.once m ⟨hm.since, out, hout, hrest⟩ hgot
    · refine List.Pairwise.imp_of_mem ?_ hqs.order
      intro m n hm hn hlt hsincem hsincen hcaller
      apply hlt hsincem hsincen
      simpa only [Fanout.callerOf, hold m (hscoped m _ (hqs.scope m hm)).1,
        hold n (hscoped n _ (hqs.scope n hn)).1] using hcaller

end StreamManager

/-! ## Calls -/

namespace CallStep

def message : CallStep → MessageNo
  | xadd m | stamp m | deliver m | publish m => m

/-- A message gets its id (0), is delivered in its process (1) and is published (2). -/
def stage : CallStep → Nat
  | xadd _ | stamp _ => 0
  | deliver _ => 1
  | publish _ => 2

def Before (a b : CallStep) : Prop := a.message = b.message → a.stage < b.stage

/-- The messages that have a stage in front of them. -/
def pending (k : Nat) (steps : List CallStep) : List MessageNo :=
  (steps.filter (·.stage = k)).map message

variable {a b : CallStep} {steps : List CallStep} {k : Nat}

theorem mem_pending : m ∈ pending k steps ↔ ∃ a ∈ steps, a.stage = k ∧ a.message = m := by
  simp only [pending, List.mem_map, List.mem_filter, decide_eq_true_eq]
  exact exists_congr fun a => and_assoc

theorem pending_cons : pending k (a :: steps) =
    (if a.stage = k then [a.message] else []) ++ pending k steps := by
  by_cases ha : a.stage = k <;> simp [pending, ha]

theorem pending_append (left right : List CallStep) :
    pending k (left ++ right) = pending k left ++ pending k right := by
  simp [pending]

/-- A message does not come back to a stage that it has passed. -/
theorem not_mem_pending (h : (a :: steps).Pairwise Before) (hk : k ≤ a.stage) :
    a.message ∉ pending k steps := by
  intro hmem
  obtain ⟨b, hb, hstage, hmessage⟩ := mem_pending.1 hmem
  have hlt := List.rel_of_pairwise_cons h hb hmessage.symm
  omega

end CallStep

open CallStep (pending)

section Actions

variable {batch : List (Outgoing × MessageNo)} {a : CallStep} {x : Outgoing × MessageNo}

theorem mem_deliverySteps : a ∈ deliverySteps x ↔
    a = .stamp x.2 ∧ x.1.stamped = true ∨ a = .deliver x.2 := by
  cases hstamped : x.1.stamped <;> simp [deliverySteps, hstamped]

theorem message_deliverySteps (ha : a ∈ deliverySteps x) : a.message = x.2 := by
  obtain ⟨rfl, -⟩ | rfl := mem_deliverySteps.1 ha <;> rfl

theorem mem_actions : a ∈ actions batch ↔ ∃ x ∈ batch,
    (a = .xadd x.2 ∧ x.1.stamped = false) ∨ a ∈ deliverySteps x ∨ a = .publish x.2 := by
  simp only [actions, List.mem_append, List.mem_map, List.mem_filter, List.mem_flatMap]
  constructor
  · rintro ((⟨x, ⟨hx, hstamped⟩, rfl⟩ | ⟨x, hx, ha⟩) | ⟨x, hx, rfl⟩)
    · exact ⟨x, hx, .inl ⟨rfl, by simpa using hstamped⟩⟩
    · exact ⟨x, hx, .inr (.inl ha)⟩
    · exact ⟨x, hx, .inr (.inr rfl)⟩
  · rintro ⟨x, hx, ⟨rfl, hstamped⟩ | ha | rfl⟩
    · exact .inl (.inl ⟨x, ⟨hx, by simp [hstamped]⟩, rfl⟩)
    · exact .inl (.inr ⟨x, hx, ha⟩)
    · exact .inr ⟨x, hx, rfl⟩

theorem message_mem_actions (ha : a ∈ actions batch) : a.message ∈ batch.map (·.2) := by
  obtain ⟨x, hx, h⟩ := mem_actions.1 ha
  refine List.mem_map.2 ⟨x, hx, ?_⟩
  obtain ⟨rfl, -⟩ | ha | rfl := h
  · rfl
  · exact (message_deliverySteps ha).symm
  · rfl

theorem mem_pending_assign (hm : m ∈ batch.map (·.2)) : m ∈ pending 0 (actions batch) := by
  obtain ⟨x, hx, rfl⟩ := List.mem_map.1 hm
  rw [CallStep.mem_pending]
  cases hstamped : x.1.stamped with
  | true =>
      have hstamp := mem_deliverySteps.2 (.inl ⟨rfl, hstamped⟩)
      exact ⟨.stamp x.2, mem_actions.2 ⟨x, hx, .inr (.inl hstamp)⟩, rfl, rfl⟩
  | false => exact ⟨.xadd x.2, mem_actions.2 ⟨x, hx, .inl ⟨rfl, hstamped⟩⟩, rfl, rfl⟩

theorem pending_deliver_actions : pending 1 (actions batch) = batch.map (·.2) := by
  have hdeliver : pending 1 (batch.flatMap deliverySteps) = batch.map (·.2) := by
    induction batch with
    | nil => rfl
    | cons x batch ih =>
        rw [List.flatMap_cons, CallStep.pending_append, ih, deliverySteps]
        split <;> rfl
  rw [actions, CallStep.pending_append, CallStep.pending_append, hdeliver]
  simp [pending, List.filter_map, Function.comp_def, CallStep.stage]

theorem pending_publish_actions : pending 2 (actions batch) = batch.map (·.2) := by
  have hdeliver : pending 2 (batch.flatMap deliverySteps) = [] := by
    refine List.map_eq_nil_iff.2 (List.filter_eq_nil_iff.2 fun a ha => ?_)
    obtain ⟨x, -, ha⟩ := List.mem_flatMap.1 ha
    obtain ⟨rfl, -⟩ | rfl := mem_deliverySteps.1 ha <;> simp [CallStep.stage]
  rw [actions, CallStep.pending_append, CallStep.pending_append, hdeliver]
  simp [pending, List.filter_map, Function.comp_def, CallStep.stage, CallStep.message]

/-- The steps of one message are in the order of their stages. -/
theorem actions_before (h : (batch.map (·.2)).Nodup) :
    (actions batch).Pairwise CallStep.Before := by
  have hdistinct : batch.Pairwise fun x y => x.2 ≠ y.2 := List.pairwise_map.1 h
  rw [actions, List.pairwise_append, List.pairwise_append]
  refine ⟨⟨?_, ?_, ?_⟩, ?_, ?_⟩
  · exact List.pairwise_map.2 ((hdistinct.filter _).imp fun hne hm => absurd hm hne)
  · refine List.pairwise_flatMap.2 ⟨fun x _ => ?_, hdistinct.imp ?_⟩
    · rw [deliverySteps]
      split <;> simp [CallStep.Before, CallStep.stage]
    · intro x y hne a ha b hb hm
      rw [message_deliverySteps ha, message_deliverySteps hb] at hm
      exact absurd hm hne
  · intro a ha b hb hm
    obtain ⟨x, hx, rfl⟩ := List.mem_map.1 ha
    obtain ⟨hx, hstamped⟩ := List.mem_filter.1 hx
    obtain ⟨y, hy, hb⟩ := List.mem_flatMap.1 hb
    have hxy : x = y :=
      List.inj_on_of_nodup_map h hx hy (hm.trans (message_deliverySteps hb))
    obtain ⟨-, hy'⟩ | rfl := mem_deliverySteps.1 hb
    · -- a message with an `XADD` is not stamped
      rw [hxy, hy'] at hstamped
      cases hstamped
    · exact Nat.zero_lt_one
  · exact List.pairwise_map.2 (hdistinct.imp fun hne hm => absurd hm hne)
  · intro a ha b hb _
    obtain ⟨y, -, rfl⟩ := List.mem_map.1 hb
    show a.stage < 2
    obtain ha | ha := List.mem_append.1 ha
    · obtain ⟨x, -, rfl⟩ := List.mem_map.1 ha
      exact Nat.zero_lt_two
    · obtain ⟨x, -, ha⟩ := List.mem_flatMap.1 ha
      obtain ⟨rfl, -⟩ | rfl := mem_deliverySteps.1 ha <;> simp [CallStep.stage]

end Actions

/-! ## The order of the calls -/

namespace Fanout

/-- The messages of a caller. -/
def ofCaller (messages : List Outgoing) (c : Caller) : List MessageNo :=
  (List.range messages.length).filter fun m => callerOf messages m = some c

/-- The members of a list that a caller put. -/
def putBy (messages : List Outgoing) (c : Caller) (l : List MessageNo) : List MessageNo :=
  l.filter fun m => callerOf messages m = some c

/-- Each caller's messages get an id, are delivered and are published in their order. -/
structure Ordered (s : Fanout) : Prop where
  owner : ∀ c, ∀ a ∈ s.calls c, callerOf s.messages a.message = some c
  before : ∀ c, (s.calls c).Pairwise CallStep.Before
  assigned : ∀ c m, callerOf s.messages m = some c → (m ∈ pending 0 (s.calls c) ↔ s.ids m = none)
  delivered : ∀ c, putBy s.messages c s.delivered ++ pending 1 (s.calls c) = ofCaller s.messages c
  published : ∀ c, putBy s.messages c s.published ++ pending 2 (s.calls c) = ofCaller s.messages c
  unmade : ∀ m, s.messages.length ≤ m → s.ids m = none
  known : ∀ m ∈ s.delivered, m < s.messages.length
  identified : ∀ m ∈ s.delivered, s.ids m ≠ none
  after : ∀ m ∈ s.published, m ∈ s.delivered

theorem callerOf_eq_some : callerOf messages m = some c ↔
    ∃ out, messages[m]? = some out ∧ out.caller = c := Option.map_eq_some_iff

theorem lt_of_callerOf (h : callerOf messages m = some c) : m < messages.length := by
  obtain ⟨out, hout, -⟩ := callerOf_eq_some.1 h
  exact (List.getElem?_eq_some_iff.1 hout).1

theorem ofCaller_sorted (messages : List Outgoing) (c : Caller) :
    (ofCaller messages c).Pairwise (· < ·) :=
  List.pairwise_lt_range.filter _

theorem mem_ofCaller (h : callerOf messages m = some c) : m ∈ ofCaller messages c :=
  List.mem_filter.2 ⟨List.mem_range.2 (lt_of_callerOf h), by simpa using h⟩

theorem putBy_append {l r : List MessageNo} :
    putBy messages c (l ++ r) = putBy messages c l ++ putBy messages c r := by
  rw [putBy, List.filter_append]; rfl

theorem mem_putBy {l : List MessageNo} : m ∈ putBy messages c l ↔
    m ∈ l ∧ callerOf messages m = some c := by
  simp [putBy]

/-- The step at the head of a call, which goes on with `rest`. -/
structure Turn (s s' : Fanout) (c : Caller) (a : CallStep) (rest : List CallStep) : Prop where
  head : s.calls c = a :: rest
  messages : s'.messages = s.messages
  calls : s'.calls = fun x => if x = c then rest else s.calls x
  ids : ∀ n, s'.ids n = none ↔ s.ids n = none ∧ ¬(a.stage = 0 ∧ n = a.message)
  delivered : s'.delivered = s.delivered ++ if a.stage = 1 then [a.message] else []
  published : s'.published = s.published ++ if a.stage = 2 then [a.message] else []

variable {a : CallStep} {rest : List CallStep}

/-- A stage that a turn passes: the message moves from the pending ones to the others. -/
theorem Ordered.passes (h : s.Ordered) (hhead : s.calls c = a :: rest) {k : Nat}
    {passed : List MessageNo} {calls : Caller → List CallStep}
    (hcalls : calls = fun x => if x = c then rest else s.calls x)
    (hpassed : ∀ c', putBy s.messages c' passed ++ pending k (s.calls c') = ofCaller s.messages c')
    (c' : Caller) :
    putBy s.messages c' (passed ++ if a.stage = k then [a.message] else []) ++
      pending k (calls c') =
      ofCaller s.messages c' := by
  have howner := h.owner c a (hhead ▸ List.mem_cons_self)
  rw [← hpassed c', putBy_append, hcalls, List.append_assoc]
  congr 1
  by_cases hc : c' = c
  · subst hc
    simp only [↓reduceIte, hhead, CallStep.pending_cons]
    congr 1
    split <;> simp [putBy, howner]
  · have hother : callerOf s.messages a.message ≠ some c' := by
      rw [howner]
      exact fun h => hc (Option.some.inj h).symm
    simp only [if_neg hc]
    split <;> simp [putBy, hother]

theorem Ordered.turn (h : s.Ordered) (t : Turn s s' c a rest) : s'.Ordered := by
  have hmem : a ∈ s.calls c := by
    rw [t.head]
    exact List.mem_cons_self
  have howner := h.owner c a hmem
  have hbefore := h.before c
  rw [t.head] at hbefore
  have hcalls : ∀ c', s'.calls c' = if c' = c then rest else s.calls c' := by
    intro c'
    rw [t.calls]
  have hsub : ∀ c', ∀ b ∈ s'.calls c', b ∈ s.calls c' := by
    intro c' b hb
    rw [hcalls] at hb
    split at hb
    · next hc => rw [hc, t.head]; exact List.mem_cons_of_mem _ hb
    · exact hb
  refine ⟨?_, ?_, ?_, ?_, ?_, ?_, ?_, ?_, ?_⟩
  · intro c' b hb
    rw [t.messages]
    exact h.owner c' b (hsub c' b hb)
  · intro c'
    rw [hcalls]
    split
    · exact hbefore.of_cons
    · exact h.before c'
  · intro c' n hn
    rw [t.messages] at hn
    rw [hcalls, t.ids, ← h.assigned c' n hn]
    by_cases hc : c' = c
    · rw [if_pos hc, hc, t.head, CallStep.pending_cons, List.mem_append]
      constructor
      · refine fun hrest => ⟨.inr hrest, ?_⟩
        rintro ⟨hstage, rfl⟩
        exact CallStep.not_mem_pending hbefore (by omega) hrest
      · rintro ⟨hhead | hrest, hne⟩
        · split at hhead
          · next hstage => exact absurd ⟨hstage, List.mem_singleton.1 hhead⟩ hne
          · cases hhead
        · exact hrest
    · rw [if_neg hc]
      refine ⟨fun hpending => ⟨hpending, ?_⟩, And.left⟩
      rintro ⟨-, rfl⟩
      exact hc (Option.some.inj (hn.symm.trans howner))
  · intro c'
    rw [t.messages, t.delivered]
    exact h.passes t.head t.calls h.delivered c'
  · intro c'
    rw [t.messages, t.published]
    exact h.passes t.head t.calls h.published c'
  · intro n hn
    rw [t.messages] at hn
    refine (t.ids n).2 ⟨h.unmade n hn, ?_⟩
    rintro ⟨-, rfl⟩
    exact absurd (lt_of_callerOf howner) (Nat.not_lt.2 hn)
  · intro n hn
    rw [t.messages]
    rw [t.delivered] at hn
    obtain hn | hn := List.mem_append.1 hn
    · exact h.known n hn
    · split at hn
      · rw [List.mem_singleton.1 hn]
        exact lt_of_callerOf howner
      · cases hn
  · intro n hn hnone
    obtain ⟨hnone, -⟩ := (t.ids n).1 hnone
    rw [t.delivered] at hn
    obtain hn | hn := List.mem_append.1 hn
    · exact h.identified n hn hnone
    · split at hn
      · next hstage =>
          -- the id comes before the delivery
          rw [List.mem_singleton.1 hn, ← h.assigned c _ howner, t.head, CallStep.pending_cons,
            if_neg (by omega)] at hnone
          exact CallStep.not_mem_pending hbefore (by omega) hnone
      · cases hn
  · intro n hn
    rw [t.published] at hn
    rw [t.delivered, List.mem_append]
    obtain hn | hn := List.mem_append.1 hn
    · exact .inl (h.after n hn)
    · split at hn
      · next hstage =>
          -- the delivery comes before the publication
          obtain rfl := List.mem_singleton.1 hn
          have hall := mem_ofCaller howner
          rw [← h.delivered c, t.head, CallStep.pending_cons, if_neg (by omega)] at hall
          obtain hdone | hpending := List.mem_append.1 hall
          · exact .inl (mem_putBy.1 hdone).1
          · exact absurd hpending (CallStep.not_mem_pending hbefore (by omega))
      · cases hn

/-! ## New calls -/

section NewMessages

variable {outgoing : List Outgoing}

theorem callerOf_append (hm : m < messages.length) :
    callerOf (messages ++ outgoing) m = callerOf messages m := by
  simp only [callerOf, List.getElem?_append_left hm]

theorem callerOf_new (howner : ∀ out ∈ outgoing, out.caller = c)
    (hm : m ∈ List.range' messages.length outgoing.length) :
    callerOf (messages ++ outgoing) m = some c := by
  obtain ⟨hle, hlt⟩ := List.mem_range'_1.1 hm
  have hlt' : m - messages.length < outgoing.length := Nat.sub_lt_left_of_lt_add hle hlt
  rw [callerOf, List.getElem?_append_right hle, List.getElem?_eq_getElem hlt', Option.map_some]
  exact congrArg some (howner _ (List.getElem_mem hlt'))

theorem putBy_append_messages {l : List MessageNo} (hl : ∀ m ∈ l, m < messages.length) :
    putBy (messages ++ outgoing) c l = putBy messages c l :=
  List.filter_congr fun m hm => by rw [callerOf_append (hl m hm)]

theorem ofCaller_append (howner : ∀ out ∈ outgoing, out.caller = c) (c' : Caller) :
    ofCaller (messages ++ outgoing) c' = ofCaller messages c' ++
      if c' = c then List.range' messages.length outgoing.length else [] := by
  have hrange : List.range (messages ++ outgoing).length =
      List.range messages.length ++ List.range' messages.length outgoing.length := by
    rw [List.length_append, List.range_add, List.range'_eq_map_range]
  rw [ofCaller, hrange, List.filter_append]
  congr 1
  · exact List.filter_congr fun m hm => by rw [callerOf_append (List.mem_range.1 hm)]
  · split
    · next hc =>
        refine List.filter_eq_self.2 fun m hm => ?_
        rw [callerOf_new howner hm, hc]
        simp
    · next hc =>
        refine List.filter_eq_nil_iff.2 fun m hm => ?_
        rw [callerOf_new howner hm]
        simpa using fun h => hc h.symm

end NewMessages

theorem outgoing_caller (k : Call) : ∀ out ∈ k.outgoing c, out.caller = c := by
  intro out hout
  cases k with
  | put runId threadId control resumable => rw [List.mem_singleton.1 hout]
  | putThread threadId => rw [List.mem_singleton.1 hout]
  | putBatch runId threadId messages =>
      obtain ⟨⟨control, withThread⟩, -, hout⟩ := List.mem_flatMap.1 hout
      obtain rfl | hout := List.mem_cons.1 hout
      · rfl
      · split at hout
        · split at hout
          · rw [List.mem_singleton.1 hout]
          · cases hout
        · cases hout

theorem Ordered.call (h : s.Ordered) {outgoing : List Outgoing} (hfree : s.calls c = [])
    (howner : ∀ out ∈ outgoing, out.caller = c) :
    Ordered { s with
      messages := s.messages ++ outgoing
      calls := fun x =>
        if x = c then actions (outgoing.zipIdx s.messages.length) else s.calls x } := by
  have hnumbers : (outgoing.zipIdx s.messages.length).map (·.2) =
      List.range' s.messages.length outgoing.length := List.zipIdx_map_snd _ _
  have hpublished : ∀ m ∈ s.published, m < s.messages.length :=
    fun m hm => h.known m (h.after m hm)
  refine ⟨?_, ?_, ?_, ?_, ?_, ?_, ?_, h.identified, h.after⟩
  · intro c' a ha
    dsimp only at ha ⊢
    split at ha
    · next hc =>
        have hnew := message_mem_actions ha
        rw [hnumbers] at hnew
        rw [hc]
        exact callerOf_new howner hnew
    · have hold := h.owner c' a ha
      rw [callerOf_append (lt_of_callerOf hold)]
      exact hold
  · intro c'
    dsimp only
    split
    · apply actions_before
      rw [hnumbers]
      exact List.nodup_range'
    · exact h.before c'
  · intro c' m hm
    dsimp only at hm ⊢
    by_cases hlt : m < s.messages.length
    · rw [callerOf_append hlt] at hm
      rw [← h.assigned c' m hm]
      split
      · next hc =>
          -- the caller had no call, and the new one is about new messages
          rw [hc, hfree]
          refine iff_of_false (fun hnew => ?_) List.not_mem_nil
          obtain ⟨a, ha, -, rfl⟩ := CallStep.mem_pending.1 hnew
          have hnew := message_mem_actions ha
          rw [hnumbers] at hnew
          exact absurd hlt (Nat.not_lt.2 (List.mem_range'_1.1 hnew).1)
      · exact Iff.rfl
    · have hnone := h.unmade m (Nat.not_lt.1 hlt)
      have hmade : m < (s.messages ++ outgoing).length := lt_of_callerOf hm
      rw [List.length_append] at hmade
      have hnew : m ∈ List.range' s.messages.length outgoing.length :=
        List.mem_range'_1.2 ⟨Nat.not_lt.1 hlt, hmade⟩
      have hc : c' = c := Option.some.inj (hm.symm.trans (callerOf_new howner hnew))
      rw [if_pos hc]
      exact iff_of_true (mem_pending_assign (hnumbers ▸ hnew)) hnone
  · intro c'
    dsimp only
    rw [putBy_append_messages h.known, ofCaller_append howner, ← h.delivered c']
    split
    · next hc => rw [hc, hfree, pending_deliver_actions, hnumbers]; simp [pending]
    · rw [List.append_nil]
  · intro c'
    dsimp only
    rw [putBy_append_messages hpublished, ofCaller_append howner, ← h.published c']
    split
    · next hc => rw [hc, hfree, pending_publish_actions, hnumbers]; simp [pending]
    · rw [List.append_nil]
  · intro m hm
    dsimp only at hm ⊢
    rw [List.length_append] at hm
    exact h.unmade m (Nat.le_of_add_right_le hm)
  · intro m hm
    dsimp only
    rw [List.length_append]
    exact Nat.lt_add_right _ (h.known m hm)

/-! ## What the order gives -/

/-- A caller's message is delivered in its process after those it put before. -/
theorem Ordered.lt_of_delivered (h : s.Ordered) {rest : List CallStep}
    (hhead : s.calls c = .deliver m :: rest) (hn : n ∈ s.delivered)
    (hc : callerOf s.messages n = some c) : n < m := by
  have hsorted := ofCaller_sorted s.messages c
  rw [← h.delivered c, hhead] at hsorted
  exact (List.pairwise_append.1 hsorted).2.2 n (mem_putBy.2 ⟨hn, hc⟩) m List.mem_cons_self

theorem mem_log : m ∈ s.log ch → m ∈ s.published := fun h => (List.mem_filter.1 h).1

/-- The envelopes of one caller come in the order of its calls. -/
theorem Ordered.lt_of_handed (h : s.Ordered) {i : Nat} (hm : (s.log ch)[i]? = some m)
    (hn : n ∈ (s.log ch).take i) (hc : callerOf s.messages n = callerOf s.messages m) :
    n < m := by
  have hmem : m ∈ s.published := mem_log (List.mem_of_getElem? hm)
  obtain ⟨c, hmc⟩ : ∃ c, callerOf s.messages m = some c := by
    have hlt := h.known m (h.after m hmem)
    exact ⟨_, by rw [callerOf, List.getElem?_eq_getElem hlt, Option.map_some]⟩
  have hsorted := ofCaller_sorted s.messages c
  rw [← h.published c] at hsorted
  have hlogs : ((s.log ch).take (i + 1)).Sublist s.published :=
    (List.take_sublist _ _).trans List.filter_sublist
  have htake : (s.log ch).take (i + 1) = (s.log ch).take i ++ [m] := by
    rw [List.take_add_one, hm]; rfl
  have hpairs := ((List.pairwise_append.1 hsorted).1).sublist (hlogs.filter _)
  rw [htake] at hpairs
  change (putBy s.messages c ((s.log ch).take i ++ [m])).Pairwise (· < ·) at hpairs
  rw [putBy_append] at hpairs
  exact (List.pairwise_append.1 hpairs).2.2 n (mem_putBy.2 ⟨hn, hc.trans hmc⟩) m
    (mem_putBy.2 ⟨List.mem_singleton_self m, hmc⟩)

/-! ## All managers -/

/-- Each manager keeps `M` for what reached it, and no two messages of a scope in `S` have one
id. -/
structure Kept (S : Scope → Prop) (M : ManagerProperty) (s : Fanout) : Prop where
  ordered : s.Ordered
  unique : ∀ m n key, S key.1 → keyOf s.messages s.ids m = some key →
    keyOf s.messages s.ids n = some key → m = n
  handed : ∀ p ch, (s.managers p).handed ch ≤ (s.log ch).length
  managers : ∀ p, M s.messages s.ids (s.Reached p) (s.managers p)

variable {S : Scope → Prop} {M : ManagerProperty}

theorem Ordered.reached_delivered (h : s.Ordered) (hm : s.Reached p m) : m ∈ s.delivered := by
  obtain ⟨hm, -⟩ | ⟨ch, hm⟩ := hm
  · exact hm
  · exact h.after m (mem_log (List.mem_of_mem_take hm))

theorem log_append {outgoing : List Outgoing} {s' : Fanout}
    (hknown : ∀ m ∈ s.published, m < s.messages.length)
    (hmessages : s'.messages = s.messages ++ outgoing) (hpublished : s'.published = s.published) :
    s'.log ch = s.log ch := by
  rw [log, log, hpublished, hmessages]
  exact List.filter_congr fun m hm => by rw [List.getElem?_append_left (hknown m hm)]

theorem reached_congr {P Q : MessageNo → Prop} {mgr : StreamManager}
    (h : M messages ids P mgr) (hPQ : ∀ m, P m ↔ Q m) : M messages ids Q mgr := by
  obtain rfl : P = Q := funext fun m => propext (hPQ m)
  exact h

/-- A call begins. -/
theorem Kept.call (h : s.Kept S M) (hM : M.Law S) {k : Call}
    (hstep : s.next (.call c k) = some s') : s'.Kept S M := by
  have hknown : ∀ m ∈ s.published, m < s.messages.length :=
    fun m hm => h.ordered.known m (h.ordered.after m hm)
  simp only [next, Option.ite_none_right_eq_some, Option.some.injEq] at hstep
  obtain ⟨hfree, hstep⟩ := hstep
  have hordered := h.ordered.call hfree (outgoing_caller k)
  rw [hstep] at hordered
  have hlog : ∀ ch, s'.log ch = s.log ch := fun ch => by
    rw [← hstep]
    exact log_append hknown rfl rfl
  subst hstep
  refine ⟨hordered, ?_, ?_, ?_⟩
  · intro m n key hkey hm hn
    -- new messages have no id yet
    have hold : ∀ m, keyOf (s.messages ++ k.outgoing c) s.ids m = some key →
        keyOf s.messages s.ids m = some key := by
      intro m hm
      obtain ⟨out, id, hout, hid, rfl⟩ := keyOf_eq_some.1 hm
      have hlt : m < s.messages.length := by
        by_contra hle
        rw [h.ordered.unmade m (Nat.not_lt.1 hle)] at hid
        cases hid
      rw [List.getElem?_append_left hlt] at hout
      exact keyOf_eq_some.2 ⟨out, id, hout, hid, rfl⟩
    exact h.unique m n key hkey (hold m hm) (hold n hn)
  · intro p ch
    rw [hlog]
    exact h.handed p ch
  · intro p
    have hsound := hM.extend (k.outgoing c) s.ids (h.managers p)
      (fun m hm => h.ordered.known m (h.ordered.reached_delivered hm)) fun m _ => rfl
    refine reached_congr hsound fun m => ?_
    simp only [Reached, hlog]
    refine or_congr (and_congr_right fun hm => ?_) Iff.rfl
    rw [callerOf_append (h.ordered.known m hm)]

/-- A message gets an id that no other message of its scope has. -/
theorem Kept.assign (h : s.Kept S M) (hM : M.Law S) {a : CallStep} {rest : List CallStep}
    (id : MessageId) (t : Turn s s' c a rest) (ha : a.stage = 0)
    (hids : s'.ids = (s.assign a.message id).ids)
    (hunused : ∀ scope, scopeOf s.messages a.message = some scope → S scope →
      s.holds a.message id = false)
    (hmanagers : ∀ p, ∃ last, s'.managers p = { s.managers p with lastId := last }) :
    s'.Kept S M := by
  have hnone : s.ids a.message = none := by
    refine (h.ordered.assigned c _ (h.ordered.owner c a ?_)).1 ?_
    · rw [t.head]
      exact List.mem_cons_self
    · rw [t.head, CallStep.pending_cons, if_pos ha]
      exact List.mem_cons_self
  have hdelivered : s'.delivered = s.delivered := by rw [t.delivered, if_neg (by omega)]; simp
  have hpublished : s'.published = s.published := by rw [t.published, if_neg (by omega)]; simp
  have hother : ∀ n, n ≠ a.message → keyOf s'.messages s'.ids n = keyOf s.messages s.ids n := by
    intro n hn
    rw [t.messages, hids]
    simp only [keyOf, Fanout.assign, if_neg hn]
  have hfresh : ∀ n key, S key.1 → n ≠ a.message → keyOf s'.messages s'.ids n = some key →
      keyOf s'.messages s'.ids a.message ≠ some key := by
    intro n key hS hn hkey hsame
    rw [hother n hn] at hkey
    obtain ⟨out, id', hout, hid', rfl⟩ := keyOf_eq_some.1 hkey
    obtain ⟨outa, ida, houta, hida, heq⟩ := keyOf_eq_some.1 hsame
    rw [t.messages] at houta
    have hid : ida = id := by
      rw [hids] at hida
      simpa [Fanout.assign] using hida.symm
    rw [Prod.mk.injEq] at heq
    obtain ⟨hscope, rfl⟩ := heq
    have hholds : s.holds a.message id = true := by
      refine List.any_eq_true.2 ⟨n, List.mem_range.2 (List.getElem?_eq_some_iff.1 hout).1, ?_⟩
      simp [scopeOf, hout, houta, hscope, hid', hid]
    rw [hunused outa.scope (by rw [scopeOf, houta]; rfl) (hscope ▸ hS)] at hholds
    cases hholds
  refine ⟨h.ordered.turn t, ?_, ?_, ?_⟩
  · intro m n key hS hm hn
    by_cases hma : m = a.message
    · by_cases hna : n = a.message
      · rw [hma, hna]
      · exact absurd (hma ▸ hm) (hfresh n key hS hna hn)
    · by_cases hna : n = a.message
      · exact absurd (hna ▸ hn) (hfresh m key hS hma hm)
      · rw [hother m hma] at hm
        rw [hother n hna] at hn
        exact h.unique m n key hS hm hn
  · intro p ch
    obtain ⟨last, hmgr⟩ := hmanagers p
    rw [hmgr, log, hpublished, t.messages]
    exact h.handed p ch
  · intro p
    obtain ⟨last, hmgr⟩ := hmanagers p
    have hsound := hM.extend [] s'.ids (h.managers p)
      (fun m hm => h.ordered.known m (h.ordered.reached_delivered hm)) fun m hm => by
        have hne : m ≠ a.message := by
          rintro rfl
          exact h.ordered.identified _ (h.ordered.reached_delivered hm) hnone
        rw [hids]
        simp only [Fanout.assign, if_neg hne]
    rw [List.append_nil, ← t.messages] at hsound
    rw [hmgr]
    refine reached_congr (P := s.Reached p) (hM.congr hsound rfl rfl rfl rfl) fun m => ?_
    simp only [Reached, log, hdelivered, hpublished, t.messages, hmgr]

theorem Kept.publish (h : s.Kept S M) {rest : List CallStep}
    (t : Turn s s' c (.publish m) rest) (hids : s'.ids = s.ids)
    (hmanagers : s'.managers = s.managers) : s'.Kept S M := by
  have hdelivered : s'.delivered = s.delivered := by simp [t.delivered, CallStep.stage]
  have hpublished : s'.published = s.published ++ [m] := by
    simp [t.published, CallStep.stage, CallStep.message]
  have hlogs : ∀ ch, s.log ch <+: s'.log ch := by
    intro ch
    rw [log, log, t.messages, hpublished]
    exact (List.prefix_append _ _).filter _
  have htake : ∀ p ch, (s'.log ch).take ((s.managers p).handed ch) =
      (s.log ch).take ((s.managers p).handed ch) := by
    intro p ch
    obtain ⟨tail, htail⟩ := hlogs ch
    rw [← htail, List.take_append_of_le_length (h.handed p ch)]
  refine ⟨h.ordered.turn t, ?_, ?_, ?_⟩
  · rw [t.messages, hids]
    exact h.unique
  · intro p ch
    rw [hmanagers]
    exact (h.handed p ch).trans (hlogs ch).length_le
  · intro p
    rw [t.messages, hids, hmanagers]
    refine reached_congr (h.managers p) fun m => ?_
    simp only [Reached, hdelivered, t.messages, hmanagers, htake]

/-- A manager gets a message, which may have reached it before. -/
theorem Kept.receive (h : s.Kept S M) (hM : M.Law S) {out : Outgoing} {id : MessageId}
    {mgr : StreamManager} (queued : Bool) (hmgr : M s.messages s.ids (s.Reached p) mgr)
    (hout : s.messages[m]? = some out) (hid : s.ids m = some id)
    (hqueued : out.control = false → queued = true)
    (hagain : s.Reached p m →
      M s.messages s.ids (s.Reached p) (mgr.deliver (out.scope, id) m queued))
    (hlast : ∀ n, s.Reached p n → scopeOf s.messages n = scopeOf s.messages m →
      callerOf s.messages n = callerOf s.messages m → ¬s.Reached p m → n < m) :
    M s.messages s.ids (fun n => s.Reached p n ∨ n = m)
      (mgr.deliver (out.scope, id) m queued) := by
  by_cases hreached : s.Reached p m
  · refine reached_congr (hagain hreached) fun n => ⟨.inl, ?_⟩
    rintro (hn | rfl)
    · exact hn
    · exact hreached
  · refine hM.deliver queued hmgr hout hid hreached (fun hS n hn hsame => ?_) hqueued
      fun n hn hscope hcaller => hlast n hn hscope hcaller hreached
    obtain rfl := h.unique n m _ hS hsame (keyOf_eq_some.2 ⟨out, id, hout, hid, rfl⟩)
    exact hreached hn

theorem deliver_handed {mgr : StreamManager} {key : SeenKey} {queued : Bool} :
    (mgr.deliver key m queued).handed = mgr.handed := by
  simp only [StreamManager.deliver]
  split <;> rfl

theorem deliverOwn_handed {mgr : StreamManager} {out : Outgoing} {id : MessageId} :
    (mgr.deliverOwn m out id).handed = mgr.handed := by
  rw [StreamManager.deliverOwn, deliver_handed]
  split <;> rfl

/-- The delivery in the own process. -/
theorem Kept.deliver (h : s.Kept S M) (hM : M.Law S) {rest : List CallStep} {out : Outgoing}
    {id : MessageId} (t : Turn s s' c (.deliver m) rest) (hout : s.messages[m]? = some out)
    (hid : s.ids m = some id) (hids : s'.ids = s.ids)
    (hmanagers : s'.managers = (s.deliverOwn c.process m out id).managers) : s'.Kept S M := by
  have howner : callerOf s.messages m = some c :=
    h.ordered.owner c (.deliver m) (by rw [t.head]; exact List.mem_cons_self)
  have hscope : scopeOf s.messages m = some out.scope := by rw [scopeOf, hout]; rfl
  have hunreached : ∀ p, ¬s.Reached p m := fun p hm =>
    lt_irrefl _ (h.ordered.lt_of_delivered t.head (h.ordered.reached_delivered hm) howner)
  have hdelivered : s'.delivered = s.delivered ++ [m] := by
    simp [t.delivered, CallStep.stage, CallStep.message]
  have hlog : ∀ ch, s'.log ch = s.log ch := by
    intro ch
    rw [log, log, t.messages, t.published]
    simp [CallStep.stage]
  have hmanager : ∀ p, s'.managers p =
      if p = c.process then (s.managers p).deliverOwn m out id else s.managers p := by
    intro p
    rw [hmanagers]
    rfl
  have hhanded : ∀ p, (s'.managers p).handed = (s.managers p).handed := by
    intro p
    rw [hmanager]
    split
    · exact deliverOwn_handed
    · rfl
  have hreached : ∀ p n, s'.Reached p n ↔ s.Reached p n ∨ (p = c.process ∧ n = m) := by
    intro p n
    simp only [Reached, hdelivered, t.messages, hlog, hhanded, List.mem_append,
      List.mem_singleton]
    constructor
    · rintro (⟨hn | rfl, hprocess⟩ | hhanded)
      · exact .inl (.inl ⟨hn, hprocess⟩)
      · rw [howner] at hprocess
        exact .inr ⟨(Option.some.inj hprocess).symm, rfl⟩
      · exact .inl (.inr hhanded)
    · rintro ((⟨hn, hprocess⟩ | hhanded) | ⟨rfl, rfl⟩)
      · exact .inl ⟨.inl hn, hprocess⟩
      · exact .inr hhanded
      · exact .inl ⟨.inr rfl, by rw [howner]; rfl⟩
  refine ⟨h.ordered.turn t, ?_, ?_, ?_⟩
  · rw [t.messages, hids]
    exact h.unique
  · intro p ch
    rw [hlog, hhanded]
    exact h.handed p ch
  · intro p
    have hmgr := h.managers p
    rw [t.messages, hids, hmanager]
    split
    · next hp =>
        refine reached_congr (P := fun n => s.Reached p n ∨ n = m) ?_ fun n => ?_
        · refine h.receive hM _ ?_ hout hid ?_ (fun hm => absurd hm (hunreached p)) ?_
          · split
            · exact hM.buffer hmgr hscope
            · exact hmgr
          · intro hcontrol
            cases hs : out.scope <;> simp [Outgoing.queued, hs, hcontrol]
          · intro n hn _ hsame _
            exact h.ordered.lt_of_delivered t.head (h.ordered.reached_delivered hn)
              (hsame.trans howner)
        · rw [hreached, and_iff_right hp]
    · next hp =>
        refine reached_congr hmgr fun n => ?_
        rw [hreached]
        simp [hp]

theorem channel_of_log (hm : m ∈ s.log ch) :
    (scopeOf s.messages m).map Scope.channel = some ch := by
  have hany := (List.mem_filter.1 hm).2
  cases hout : s.messages[m]? with
  | none => simp [hout] at hany
  | some out => simpa [scopeOf, hout] using hany

/-- What a process has got of a message when its envelope is handled is the delivery by its
own call. -/
theorem Ordered.own_of_reached (h : s.Ordered) {out : Outgoing}
    (hm : (s.log ch)[(s.managers p).handed ch]? = some m) (hout : s.messages[m]? = some out)
    (hreached : s.Reached p m) : out.caller.process = p := by
  obtain ⟨-, hprocess⟩ | ⟨ch', hhanded⟩ := hreached
  · simpa [callerOf, hout] using hprocess
  · have hm' := channel_of_log (List.mem_of_getElem? hm)
    obtain rfl := Option.some.inj ((channel_of_log (List.mem_of_mem_take hhanded)).symm.trans hm')
    exact absurd (h.lt_of_handed hm hhanded rfl) (lt_irrefl _)

/-- A mux task handles an envelope. -/
theorem Kept.hand (h : s.Kept S M) (hM : M.Law S) (hstep : s.next (.hand p ch) = some s')
    (hagain : ∀ m out id, (s.log ch)[(s.managers p).handed ch]? = some m →
      s.messages[m]? = some out → s.ids m = some id → s.Reached p m →
      M s.messages s.ids (s.Reached p)
        ((s.managers p).deliver (out.scope, id) m (!out.control))) : s'.Kept S M := by
  simp only [next, Fanout.hand] at hstep
  cases hm : (s.log ch)[(s.managers p).handed ch]? with
  | none => simp [hm] at hstep
  | some m =>
  cases hout : s.messages[m]? with
  | none => simp [hm, hout] at hstep
  | some out =>
  cases hid : s.ids m with
  | none => simp [hm, hout, hid] at hstep
  | some id =>
  simp only [hm, hout, hid, Option.some.injEq] at hstep
  have hlt : (s.managers p).handed ch < (s.log ch).length := (List.getElem?_eq_some_iff.1 hm).1
  have hlast : ∀ n, s.Reached p n → scopeOf s.messages n = scopeOf s.messages m →
      callerOf s.messages n = callerOf s.messages m → ¬s.Reached p m → n < m := by
    intro n hn hsame hcaller hnew
    obtain ⟨-, hprocess⟩ | ⟨ch', hhanded⟩ := hn
    · -- an own message has reached the process before its envelope
      have hpub : m ∈ s.published := mem_log (List.mem_of_getElem? hm)
      exact absurd (.inl ⟨h.ordered.after m hpub, hcaller ▸ hprocess⟩) hnew
    · have hm' := channel_of_log (List.mem_of_getElem? hm)
      rw [← hsame] at hm'
      obtain rfl := Option.some.inj
        ((channel_of_log (List.mem_of_mem_take hhanded)).symm.trans hm')
      exact h.ordered.lt_of_handed hm hhanded hcaller
  have hreceived := h.receive hM (!out.control) (h.managers p) hout hid (fun hc => by simp [hc])
    (hagain m out id hm hout hid) hlast
  have hhanded : ∀ p', (s'.managers p').handed = if p' = p then
      fun x => if x = ch then (s.managers p).handed x + 1 else (s.managers p).handed x
      else (s.managers p').handed := by
    intro p'
    rw [← hstep]
    simp only [update]
    split
    · next hp => rw [hp]
    · rfl
  have hreached : ∀ p' n, s'.Reached p' n ↔ s.Reached p' n ∨ (p' = p ∧ n = m) := by
    intro p' n
    have hbase : s'.delivered = s.delivered ∧ s'.messages = s.messages ∧ s'.log = s.log := by
      rw [← hstep]
      exact ⟨rfl, rfl, rfl⟩
    simp only [Reached, hbase, hhanded]
    by_cases hp : p' = p
    · subst hp
      simp only [↓reduceIte, true_and, or_assoc]
      refine or_congr_right ⟨?_, ?_⟩
      · rintro ⟨x, hx⟩
        split at hx
        · next hxch =>
            rw [hxch, List.take_add_one, hm, List.mem_append] at hx
            obtain hx | hx := hx
            · exact .inl ⟨ch, hx⟩
            · exact .inr (by simpa using hx)
        · exact .inl ⟨x, hx⟩
      · rintro (⟨x, hx⟩ | rfl)
        · refine ⟨x, ?_⟩
          split
          · exact List.take_subset_take_left _ (Nat.le_succ _) hx
          · exact hx
        · refine ⟨ch, ?_⟩
          rw [if_pos rfl, List.take_add_one, hm]
          simp
    · simp [hp]
  subst hstep
  refine ⟨?_, h.unique, ?_, ?_⟩
  · exact ⟨h.ordered.owner, h.ordered.before, h.ordered.assigned, h.ordered.delivered,
      h.ordered.published, h.ordered.unmade, h.ordered.known, h.ordered.identified,
      h.ordered.after⟩
  · intro p' x
    rw [hhanded]
    have hle := h.handed p' x
    split
    · next hp =>
        dsimp only
        split
        · next hx => rw [hx]; exact hlt
        · exact hp ▸ hle
    · exact hle
  · intro p'
    refine reached_congr (P := fun n => s.Reached p' n ∨ (p' = p ∧ n = m)) ?_
      fun n => (hreached p' n).symm
    show M s.messages s.ids _ (if p' = p then _ else _)
    by_cases hp : p' = p
    · subst hp
      rw [if_pos rfl]
      refine reached_congr (P := fun n => s.Reached p' n ∨ n = m) ?_ fun n => by simp
      exact hM.congr hreceived rfl rfl rfl rfl
    · rw [if_neg hp]
      exact reached_congr (h.managers p') fun n => by simp [hp]

/-- Steps that change the queues of one manager only. -/
theorem Kept.setQueues (h : s.Kept S M) {f : List Queue → List Queue}
    (hf : M s.messages s.ids (s.Reached p)
      { s.managers p with queues := f (s.managers p).queues }) :
    (s.update p fun mgr => { mgr with queues := f mgr.queues }).Kept S M := by
  have hreached : ∀ p', (s.update p fun mgr => { mgr with queues := f mgr.queues }).Reached p' =
      s.Reached p' := by
    intro p'
    funext n
    have hhanded : ((s.update p fun mgr => { mgr with queues := f mgr.queues }).managers
        p').handed = (s.managers p').handed := by
      simp only [update]
      split <;> rfl
    simp only [Reached, hhanded]
    rfl
  refine ⟨?_, h.unique, ?_, ?_⟩
  · exact ⟨h.ordered.owner, h.ordered.before, h.ordered.assigned, h.ordered.delivered,
      h.ordered.published, h.ordered.unmade, h.ordered.known, h.ordered.identified,
      h.ordered.after⟩
  · intro p' ch
    show (if p' = p then _ else _ : StreamManager).handed ch ≤ (s.log ch).length
    have hle := h.handed p' ch
    split <;> exact hle
  · intro p'
    rw [hreached]
    show M s.messages s.ids _ (if p' = p then _ else _)
    split
    · next hp =>
        rw [hp]
        exact hf
    · exact h.managers p'

theorem Kept.addQueue (h : s.Kept S M) (hM : M.Law S) {scope : Scope} {items : List MessageNo}
    (hitems : ∀ m ∈ items, m ∈ (s.managers p).messageStores scope) :
    (s.addQueue p scope items).Kept S M := by
  have hq := hM.addQueue (h.managers p) hitems
  exact h.setQueues (p := p) (f := (· ++ [⟨scope, s.messages.length, items⟩])) hq

/-- The message that gets its id. -/
def identifies (s : Fanout) : FanoutStep → Option MessageNo
  | .act c _ _ =>
      match s.calls c with
      | .xadd m :: _ | .stamp m :: _ => some m
      | _ => none
  | _ => none

/-- A step of a call. -/
theorem Kept.act (h : s.Kept S M) (hM : M.Law S) {ms : Nat} {entry : MessageId}
    (hstep : s.next (.act c ms entry) = some s')
    (hunused : ∀ m scope, s.identifies (.act c ms entry) = some m →
      scopeOf s.messages m = some scope → S scope → s.unused (.act c ms entry) = true) :
    s'.Kept S M := by
  simp only [next] at hstep
  cases hcalls : s.calls c with
  | nil => simp [hcalls] at hstep
  | cons a rest =>
  simp only [hcalls] at hstep
  simp only [unused, identifies, hcalls] at hunused
  obtain ⟨s₁, hperform, rfl⟩ := Option.map_eq_some_iff.1 hstep
  cases a with
  | xadd m =>
      cases hout : s.messages[m]? with
      | none => simp [perform, hout] at hperform
      | some out =>
          simp only [perform, hout, Option.ite_none_right_eq_some, Option.some.injEq] at hperform
          obtain ⟨-, rfl⟩ := hperform
          refine h.assign hM (c := c) (a := .xadd m) entry
            ⟨hcalls, rfl, rfl, fun n => ?_, ?_, ?_⟩ rfl rfl
            (fun scope hscope hS => ?_) fun p => ⟨_, rfl⟩
          · by_cases hn : n = m <;> simp [Fanout.assign, CallStep.stage, CallStep.message, hn]
          · simp [Fanout.assign, CallStep.stage]
          · simp [Fanout.assign, CallStep.stage]
          · simpa [CallStep.message] using hunused m scope rfl hscope hS
  | stamp m =>
      obtain rfl := Option.some.inj hperform
      refine h.assign hM (c := c) (a := .stamp m)
        (generateMsSeqId ms (s.managers c.process).lastId)
        ⟨hcalls, rfl, rfl, fun n => ?_, ?_, ?_⟩ rfl rfl
        (fun scope hscope hS => ?_) fun p => ?_
      · by_cases hn : n = m <;>
          simp [Fanout.assign, update, CallStep.stage, CallStep.message, hn]
      · simp [Fanout.assign, update, CallStep.stage]
      · simp [Fanout.assign, update, CallStep.stage]
      · simpa [CallStep.message] using hunused m scope rfl hscope hS
      · by_cases hp : p = c.process
        · exact ⟨_, by simp only [update, Fanout.assign, if_pos hp]; rfl⟩
        · exact ⟨(s.managers p).lastId, by simp only [update, Fanout.assign, if_neg hp]⟩
  | deliver m =>
      cases hout : s.messages[m]? with
      | none => simp [perform, hout] at hperform
      | some out =>
      cases hid : s.ids m with
      | none => simp [perform, hout, hid] at hperform
      | some id =>
          simp only [perform, hout, hid, Option.some.injEq] at hperform
          subst hperform
          refine h.deliver hM (c := c) (m := m) ⟨hcalls, rfl, rfl, fun n => ?_, ?_, ?_⟩
            hout hid rfl rfl
          · simp [deliverOwn, update, CallStep.stage]
          · simp [deliverOwn, CallStep.stage, CallStep.message]
          · simp [deliverOwn, update, CallStep.stage]
  | publish m =>
      obtain rfl := Option.some.inj hperform
      refine h.publish (c := c) (m := m) ⟨hcalls, rfl, rfl, fun n => ?_, ?_, ?_⟩
        rfl rfl
      · simp [CallStep.stage]
      · simp [CallStep.stage]
      · simp [CallStep.stage, CallStep.message]

theorem ordered_empty : Ordered {} := by
  refine ⟨?_, ?_, ?_, ?_, ?_, ?_, ?_, ?_, ?_⟩
  · intro c a ha
    cases ha
  · intro c
    exact .nil
  · intro c m hm
    cases hm
  · intro c
    rfl
  · intro c
    rfl
  · intro m _
    rfl
  · intro m hm
    cases hm
  · intro m hm
    cases hm
  · intro m hm
    cases hm

theorem kept_empty (hM : M.Law S) : Kept S M {} := by
  refine ⟨ordered_empty, fun m n key _ hm => ?_, fun p ch => le_rfl, fun p => ?_⟩
  · cases hm
  · refine reached_congr (P := fun _ => False) hM.empty fun m => iff_of_false id ?_
    rintro (⟨hm, -⟩ | ⟨ch, hm⟩) <;> cases hm

/-- A step of the processes. `hagain` is about an envelope that comes after the delivery in the
own process. -/
theorem Kept.step (h : s.Kept S M) (hM : M.Law S) {l : FanoutStep} (hstep : s.next l = some s')
    (hunused : ∀ m scope, s.identifies l = some m → scopeOf s.messages m = some scope →
      S scope → s.unused l = true)
    (hagain : ∀ p ch m out id, l = .hand p ch →
      (s.log ch)[(s.managers p).handed ch]? = some m → s.messages[m]? = some out →
      s.ids m = some id → s.Reached p m →
      M s.messages s.ids (s.Reached p)
        ((s.managers p).deliver (out.scope, id) m (!out.control))) : s'.Kept S M := by
  cases l with
  | call c k => exact h.call hM hstep
  | act c ms entry => exact h.act hM hstep hunused
  | hand p ch => exact h.hand hM hstep fun m out id => hagain p ch m out id rfl
  | addQueue p threadId runId afterId replay =>
      obtain rfl := Option.some.inj hstep
      refine h.addQueue hM fun m hm => ?_
      split at hm
      · exact (List.mem_filter.1 hm).1
      · cases hm
  | addThreadStream p threadId =>
      obtain rfl := Option.some.inj hstep
      exact h.addQueue hM fun m hm => by cases hm
  | removeQueue p i =>
      obtain rfl := Option.some.inj hstep
      exact h.setQueues (p := p) (f := (·.eraseIdx i)) (hM.removeQueue i (h.managers p))

end Fanout

/-! ## Exactly once -/

theorem StreamManager.sound_law : ManagerProperty.Law (fun _ => True) StreamManager.Sound where
  empty := by
    refine ⟨⟨List.suffix_rfl, Nat.min_le_left _ _⟩, fun key => ?_, ?_, ?_⟩
    · refine iff_of_false List.not_mem_nil ?_
      rintro ⟨m, hm, -⟩
      exact hm
    · intro scope m hm
      cases hm
    · intro q hq
      cases hq
  extend more ids' h := h.extend more ids'
  congr h hseen hrecorded hstores hqueues := by
    refine ⟨?_, hrecorded ▸ h.recorded, hstores ▸ h.stored, hqueues ▸ h.queues⟩
    exact ⟨hseen ▸ hrecorded ▸ h.remembers.suffix, hseen ▸ hrecorded ▸ h.remembers.length⟩
  buffer {messages ids reached mgr scope m} h hm := by
    refine ⟨⟨h.remembers.suffix, h.remembers.length⟩, h.recorded, ?_, h.queues⟩
    intro x n hn
    simp only [StreamManager.buffer] at hn
    split at hn
    · next hx =>
        obtain hn | hn := List.mem_append.1 (List.mem_of_mem_drop hn)
        · exact h.stored x n hn
        · rw [List.mem_singleton.1 hn, hx, hm]
    · exact h.stored x n hn
  deliver queued h hout hid hnew hunique hqueued hlast :=
    h.deliver hout hid hnew (hunique trivial) hqueued hlast
  addQueue {messages ids reached mgr scope items} h hitems := by
    have hscope : ∀ m ∈ items, Fanout.scopeOf messages m = some scope :=
      fun m hm => h.stored scope m (hitems m hm)
    have hold : ∀ m ∈ items, m < messages.length := by
      intro m hm
      obtain ⟨out, hout, -⟩ := Option.map_eq_some_iff.1 (hscope m hm)
      exact (List.getElem?_eq_some_iff.1 hout).1
    refine ⟨⟨h.remembers.suffix, h.remembers.length⟩, h.recorded, h.stored, fun q hq => ?_⟩
    obtain hq | hq := List.mem_append.1 hq
    · exact h.queues q hq
    · -- no message was put after the registration
      obtain rfl := List.mem_singleton.1 hq
      refine ⟨le_rfl, hscope, fun m hm hsince => ?_, fun m hm _ => ?_, ?_⟩
      · exact absurd (hold m hm) (Nat.not_lt.2 hsince)
      · obtain ⟨out, hout, -⟩ := hm.message
        exact absurd (List.getElem?_eq_some_iff.1 hout).1 (Nat.not_lt.2 hm.since)
      · exact List.pairwise_of_forall_mem_list fun m hm _ _ hsince =>
          absurd (hold m hm) (Nat.not_lt.2 hsince)
  removeQueue i h := by
    refine ⟨⟨h.remembers.suffix, h.remembers.length⟩, h.recorded, h.stored, fun q hq => ?_⟩
    exact h.queues q (List.mem_of_mem_eraseIdx hq)

namespace Fanout

/-- No two messages of a scope have one id, and each manager has what reached it. -/
abbrev Sound (s : Fanout) : Prop := s.Kept (fun _ => True) StreamManager.Sound

theorem Sound.step (h : s.Sound) {l : FanoutStep} (hstep : s.next l = some s')
    (hrecent : s.recent l = true) (hunused : s.unused l = true) : s'.Sound := by
  refine Kept.step h StreamManager.sound_law hstep (fun _ _ _ _ _ => hunused) ?_
  rintro p ch m out id rfl hm hout hid hreached
  -- the id was recorded a short time ago, by the delivery in the own process
  have hseen : (out.scope, id) ∈ (s.managers p).seen := by
    apply (h.managers p).remembers.mem_seen
    simpa [recent, hm, hout, hid, h.ordered.own_of_reached hm hout hreached] using hrecent
  rw [StreamManager.deliver_seen hseen]
  exact h.managers p

end Fanout

/-! ## At least once -/

/-- The queues of the scopes `S` have every message that reached the manager, once or more. -/
structure StreamManager.Heard (S : Scope → Prop) (messages : List Outgoing)
    (ids : MessageNo → Option MessageId) (reached : MessageNo → Prop) (mgr : StreamManager) :
    Prop where
  seen : ∀ key ∈ mgr.seen, ∃ m, reached m ∧ Fanout.keyOf messages ids m = some key
  since : ∀ q ∈ mgr.queues, q.since ≤ messages.length
  queues : ∀ q ∈ mgr.queues, S q.scope → ∀ m, q.Expects messages m → reached m → m ∈ q.items

namespace StreamManager

/-- What a delivery does to a queue. -/
theorem mem_deliver_queues {queued : Bool} (hq : q ∈ (mgr.deliver key m queued).queues) :
    ∃ q₀ ∈ mgr.queues, q.scope = q₀.scope ∧ q.since = q₀.since ∧ q₀.items ⊆ q.items ∧
      (key ∉ mgr.seen → queued = true → q.scope = key.1 → m ∈ q.items) := by
  unfold StreamManager.deliver at hq
  split at hq
  · next hseen => exact ⟨q, hq, rfl, rfl, List.Subset.refl _, fun h => absurd hseen h⟩
  · split at hq
    · obtain ⟨q₀, hq₀, rfl⟩ := List.mem_map.1 hq
      refine ⟨q₀, hq₀, ?_⟩
      split
      · exact ⟨rfl, rfl, List.subset_append_left _ _, fun _ _ _ => by simp⟩
      · next hscope => exact ⟨rfl, rfl, List.Subset.refl _, fun _ _ h => absurd h hscope⟩
    · next hqueued => exact ⟨q, hq, rfl, rfl, List.Subset.refl _, fun _ h => absurd h hqueued⟩

theorem mem_deliver_seen {key' : SeenKey} {queued : Bool}
    (hkey : key' ∈ (mgr.deliver key m queued).seen) : key' ∈ mgr.seen ∨ key' = key := by
  unfold StreamManager.deliver at hkey
  split at hkey
  · exact .inl hkey
  · have hmem := (addSeen_suffix List.suffix_rfl).subset hkey
    exact (List.mem_append.1 hmem).imp_right List.mem_singleton.1

variable {S : Scope → Prop}

/-- A delivery, when the queues get the message or need not. -/
theorem Heard.deliver {queued : Bool} {id : MessageId} (h : mgr.Heard S messages ids reached)
    (hout : messages[m]? = some out) (hid : ids m = some id)
    (hqueued : out.control = false → queued = true)
    (hnew : S out.scope → (out.scope, id) ∈ mgr.seen → reached m) :
    (mgr.deliver (out.scope, id) m queued).Heard S messages ids fun n => reached n ∨ n = m where
  seen key hkey := by
    obtain hkey | rfl := mem_deliver_seen hkey
    · obtain ⟨n, hn, hsame⟩ := h.seen key hkey
      exact ⟨n, .inl hn, hsame⟩
    · exact ⟨m, .inr rfl, Fanout.keyOf_eq_some.2 ⟨out, id, hout, hid, rfl⟩⟩
  since q hq := by
    obtain ⟨q₀, hq₀, -, hsince, -⟩ := mem_deliver_queues hq
    exact hsince ▸ h.since q₀ hq₀
  queues q hq hS n hn hreached := by
    obtain ⟨q₀, hq₀, hscope, hsince, hitems, hput⟩ := mem_deliver_queues hq
    have hn₀ : q₀.Expects messages n := ⟨hsince ▸ hn.since, hscope ▸ hn.message⟩
    by_cases hgot : reached n
    · exact hitems (h.queues q₀ hq₀ (hscope ▸ hS) n hn₀ hgot)
    · -- the message of this delivery
      obtain rfl := hreached.resolve_left hgot
      obtain ⟨out', hout', hsame, hcontrol⟩ := hn.message
      obtain rfl := Option.some.inj (hout.symm.trans hout')
      exact hput (fun hseen => hgot (hnew (hsame ▸ hS) hseen)) (hqueued hcontrol) hsame.symm

theorem heard_law (S : Scope → Prop) : ManagerProperty.Law S (StreamManager.Heard S) where
  empty := by
    refine ⟨fun key hkey => ?_, fun q hq => ?_, fun q hq => ?_⟩
    · cases hkey
    · cases hq
    · cases hq
  extend {messages ids reached mgr} more ids' h hreached hids := by
    have hold : ∀ m, reached m → (messages ++ more)[m]? = messages[m]? :=
      fun m hm => List.getElem?_append_left (hreached m hm)
    refine ⟨fun key hkey => ?_, fun q hq => ?_, fun q hq hS m hm hgot => ?_⟩
    · obtain ⟨m, hm, hsame⟩ := h.seen key hkey
      refine ⟨m, hm, ?_⟩
      simpa only [Fanout.keyOf, hold m hm, hids m hm] using hsame
    · rw [List.length_append]
      exact Nat.le_add_right_of_le (h.since q hq)
    · obtain ⟨out, hout, hrest⟩ := hm.message
      rw [hold m hgot] at hout
      exact h.queues q hq hS m ⟨hm.since, out, hout, hrest⟩ hgot
  congr h hseen _ _ hqueues :=
    ⟨hseen ▸ h.seen, hqueues ▸ h.since, hqueues ▸ h.queues⟩
  buffer h _ := ⟨h.seen, h.since, h.queues⟩
  deliver {messages ids reached mgr m out id} queued h hout hid hnew hunique hqueued _ := by
    refine h.deliver hout hid hqueued fun hS hseen => ?_
    obtain ⟨n, hn, hsame⟩ := h.seen _ hseen
    exact absurd hsame (hunique hS n hn)
  addQueue {messages ids reached mgr scope items} h _ := by
    refine ⟨h.seen, fun q hq => ?_, fun q hq hS m hm hgot => ?_⟩
    · obtain hq | hq := List.mem_append.1 hq
      · exact h.since q hq
      · rw [List.mem_singleton.1 hq]
    · obtain hq | hq := List.mem_append.1 hq
      · exact h.queues q hq hS m hm hgot
      · -- no message was put after the registration
        obtain rfl := List.mem_singleton.1 hq
        obtain ⟨out, hout, -⟩ := hm.message
        exact absurd (List.getElem?_eq_some_iff.1 hout).1 (Nat.not_lt.2 hm.since)
  removeQueue i h :=
    ⟨h.seen, fun q hq => h.since q (List.mem_of_mem_eraseIdx hq),
      fun q hq => h.queues q (List.mem_of_mem_eraseIdx hq)⟩

end StreamManager

namespace Fanout

variable {S : Scope → Prop}

/-- Each manager has what reached it in the queues of the scopes `S`. -/
abbrev Heard (S : Scope → Prop) (s : Fanout) : Prop := s.Kept S (StreamManager.Heard S)

/-- A message may come again when its id is forgotten. -/
theorem Heard.step (h : s.Heard S) {l : FanoutStep} (hstep : s.next l = some s')
    (hunused : ∀ m scope, s.identifies l = some m → scopeOf s.messages m = some scope →
      S scope → s.unused l = true) : s'.Heard S := by
  refine Kept.step h (StreamManager.heard_law S) hstep hunused ?_
  rintro p ch m out id rfl hm hout hid hreached
  refine reached_congr ((h.managers p).deliver hout hid (fun hc => by simp [hc])
    fun _ _ => hreached) fun n => ⟨?_, .inl⟩
  rintro (hn | rfl)
  · exact hn
  · exact hreached

end Fanout

/-! ## Where an id comes from -/

theorem generateMsSeqId_gt (ms : Nat) (last : MessageId) :
    msSeqIdGt (generateMsSeqId ms last) last = true := by
  unfold msSeqIdGt generateMsSeqId
  split
  · simp_all
  · simp

theorem msSeqIdGt_le_trans {i last new : MessageId} (hle : msSeqIdGt i last = false)
    (hlt : msSeqIdGt new last = true) : msSeqIdGt i new = false := by
  simp only [msSeqIdGt, Bool.or_eq_true, Bool.or_eq_false_iff, Bool.and_eq_true,
    Bool.and_eq_false_iff, decide_eq_true_eq, decide_eq_false_iff_not] at hle hlt ⊢
  omega

theorem msSeqIdGt_self (i : MessageId) : msSeqIdGt i i = false := by simp [msSeqIdGt]

namespace Fanout

/-- The last id of the source that a message has its id from: the generator of its process, or
`XADD` to its stream. -/
def lastOf (s : Fanout) (out : Outgoing) : MessageId :=
  if out.stamped then (s.managers out.caller.process).lastId else s.entries out.scope

/-- The source that the step asks for an id is the one of the message. -/
def Asks (s : Fanout) (c : Caller) : CallStep → Prop
  | .xadd m => ∃ out, s.messages[m]? = some out ∧ out.stamped = false
  | .stamp m => ∃ out, s.messages[m]? = some out ∧ out.stamped = true ∧ out.caller = c
  | _ => True

/-- No id is larger than the last one of its source. -/
structure Sourced (s : Fanout) : Prop where
  asks : ∀ c, ∀ a ∈ s.calls c, s.Asks c a
  ids : ∀ m out id, s.messages[m]? = some out → s.ids m = some id →
    msSeqIdGt id (s.lastOf out) = false

theorem Asks.congr {a : CallStep} (h : s.Asks c a) (hmessages : s.messages <+: s'.messages) :
    s'.Asks c a := by
  have hold {m : MessageNo} {out : Outgoing} (hout : s.messages[m]? = some out) :
      s'.messages[m]? = some out := by
    obtain ⟨more, hmore⟩ := hmessages
    rw [← hmore, List.getElem?_append_left (List.getElem?_eq_some_iff.1 hout).1]
    exact hout
  cases a with
  | xadd m => exact h.imp fun out hout => ⟨hold hout.1, hout.2⟩
  | stamp m => exact h.imp fun out hout => ⟨hold hout.1, hout.2⟩
  | deliver m => trivial
  | publish m => trivial

/-- A call asks for the ids of its own messages. -/
theorem Sourced.call (h : s.Sourced) (hordered : s.Ordered) {k : Call}
    (hstep : s.next (.call c k) = some s') : s'.Sourced := by
  simp only [next, Option.ite_none_right_eq_some, Option.some.injEq] at hstep
  obtain ⟨-, rfl⟩ := hstep
  refine ⟨fun c' a ha => ?_, fun m out id hout hid => ?_⟩
  · dsimp only at ha
    split at ha
    · next hc =>
        obtain ⟨⟨out, m⟩, hx, ha⟩ := mem_actions.1 ha
        obtain ⟨hle, hlt, hget⟩ := List.mem_zipIdx hx
        have hout : (s.messages ++ k.outgoing c)[m]? = some out := by
          rw [List.getElem?_append_right hle, List.getElem?_eq_getElem (by omega), hget]
        have hcaller : out.caller = c := outgoing_caller k out (hget ▸ List.getElem_mem _)
        obtain ⟨rfl, hstamped⟩ | ha | rfl := ha
        · exact ⟨out, hout, hstamped⟩
        · obtain ⟨rfl, hstamped⟩ | rfl := mem_deliverySteps.1 ha
          · exact ⟨out, hout, hstamped, hcaller.trans hc.symm⟩
          · trivial
        · trivial
    · exact (h.asks c' a ha).congr (List.prefix_append _ _)
  · -- new messages have no id yet
    have hlt : m < s.messages.length := by
      by_contra hle
      have hnone := hordered.unmade m (Nat.not_lt.1 hle)
      exact nomatch hnone.symm.trans hid
    refine h.ids m out id ?_ hid
    dsimp only at hout
    rwa [List.getElem?_append_left hlt] at hout

/-- The ids and what their sources gave last stay. -/
theorem Sourced.congr (h : s.Sourced) (hcalls : ∀ c, s'.calls c ⊆ s.calls c)
    (hmessages : s'.messages = s.messages) (hids : s'.ids = s.ids)
    (hlast : ∀ out, s'.lastOf out = s.lastOf out) : s'.Sourced := by
  refine ⟨fun c a ha => ?_, fun m out id hout hid => ?_⟩
  · exact (h.asks c a (hcalls c ha)).congr (hmessages ▸ List.prefix_rfl)
  · rw [hlast]
    rw [hmessages] at hout
    rw [hids] at hid
    exact h.ids m out id hout hid

/-- A source gives a message a larger id than all before. -/
theorem Sourced.assign (h : s.Sourced) {out : Outgoing} {new : MessageId}
    (hcalls : ∀ c, s'.calls c ⊆ s.calls c) (hmessages : s'.messages = s.messages)
    (hout : s.messages[m]? = some out) (hids : s'.ids = (s.assign m new).ids)
    (hnew : msSeqIdGt new (s.lastOf out) = true) (hlast : s'.lastOf out = new)
    (hother : ∀ o, s'.lastOf o = s.lastOf o ∨ s.lastOf o = s.lastOf out ∧ s'.lastOf o = new) :
    s'.Sourced := by
  refine ⟨fun c a ha => (h.asks c a (hcalls c ha)).congr (hmessages ▸ List.prefix_rfl),
    fun n o id ho hid => ?_⟩
  rw [hmessages] at ho
  rw [hids] at hid
  by_cases hn : n = m
  · subst hn
    obtain rfl := Option.some.inj (hout.symm.trans ho)
    obtain rfl := Option.some.inj ((if_pos rfl).symm.trans hid)
    rw [hlast]
    exact msSeqIdGt_self _
  · have hold := h.ids n o id ho ((if_neg hn).symm.trans hid)
    rcases hother o with hsame | ⟨hsource, hsame⟩
    · rw [hsame]
      exact hold
    · rw [hsame]
      rw [hsource] at hold
      exact msSeqIdGt_le_trans hold hnew

theorem deliver_lastId {mgr : StreamManager} {key : SeenKey} {queued : Bool} :
    (mgr.deliver key m queued).lastId = mgr.lastId := by
  simp only [StreamManager.deliver]
  split <;> rfl

theorem deliverOwn_lastId {mgr : StreamManager} {out : Outgoing} {id : MessageId} :
    (mgr.deliverOwn m out id).lastId = mgr.lastId := by
  rw [StreamManager.deliverOwn, deliver_lastId]
  split <;> rfl

/-- What changes no last id of a manager changes no source. -/
theorem lastOf_update {f : StreamManager → StreamManager} (hf : ∀ mgr, (f mgr).lastId = mgr.lastId)
    (out : Outgoing) : (s.update p f).lastOf out = s.lastOf out := by
  unfold lastOf
  split
  · show (if _ then _ else _ : StreamManager).lastId = _
    split
    · exact hf _
    · rfl
  · rfl

theorem Sourced.act (h : s.Sourced) {ms : Nat} {entry : MessageId}
    (hstep : s.next (.act c ms entry) = some s') : s'.Sourced := by
  simp only [next] at hstep
  cases hcalls : s.calls c with
  | nil => simp [hcalls] at hstep
  | cons a rest =>
  simp only [hcalls] at hstep
  obtain ⟨s₁, hperform, rfl⟩ := Option.map_eq_some_iff.1 hstep
  have hask : s.Asks c a := h.asks c a (by rw [hcalls]; exact List.mem_cons_self)
  have hsub (calls : Caller → List CallStep) (hsame : calls = s.calls) (c' : Caller) :
      (if c' = c then rest else calls c') ⊆ s.calls c' := by
    split
    · next hc =>
        rw [hc, hcalls]
        exact List.subset_cons_self _ _
    · rw [hsame]
      exact List.Subset.refl _
  cases a with
  | xadd m =>
      obtain ⟨out, hout, hstamped⟩ := hask
      simp only [perform, hout, Option.ite_none_right_eq_some, Option.some.injEq] at hperform
      obtain ⟨hgt, rfl⟩ := hperform
      have hlast : s.lastOf out = s.entries out.scope := by simp [lastOf, hstamped]
      refine h.assign (hsub _ rfl) rfl hout rfl (hlast ▸ hgt) ?_ fun o => ?_
      · simp [lastOf, hstamped]
      · rw [hlast]
        unfold lastOf
        cases o.stamped with
        | true => exact .inl rfl
        | false =>
            by_cases hscope : o.scope = out.scope
            · exact .inr ⟨congrArg s.entries hscope, if_pos hscope⟩
            · exact .inl (if_neg hscope)
  | stamp m =>
      obtain ⟨out, hout, hstamped, rfl⟩ := hask
      obtain rfl := Option.some.inj hperform
      have hlast : s.lastOf out = (s.managers out.caller.process).lastId := by
        simp [lastOf, hstamped]
      refine h.assign (hsub _ rfl) rfl hout rfl (hlast ▸ generateMsSeqId_gt ms _) ?_ fun o => ?_
      · simp [lastOf, hstamped, update]
      · rw [hlast]
        unfold lastOf
        cases o.stamped with
        | true =>
            by_cases hprocess : o.caller.process = out.caller.process
            · refine .inr ⟨by rw [hprocess]; rfl, ?_⟩
              simp [update, hprocess]
            · exact .inl (by simp [update, hprocess, Fanout.assign])
        | false => exact .inl rfl
  | deliver m =>
      simp only [perform] at hperform
      split at hperform
      · obtain rfl := Option.some.inj hperform
        exact h.congr (hsub _ rfl) rfl rfl (lastOf_update fun mgr => deliverOwn_lastId)
      · cases hperform
  | publish m =>
      obtain rfl := Option.some.inj hperform
      exact h.congr (hsub _ rfl) rfl rfl fun _ => rfl

theorem Sourced.step (h : s.Sourced) (hordered : s.Ordered) {l : FanoutStep}
    (hstep : s.next l = some s') : s'.Sourced := by
  have hsame (c : Caller) : s.calls c ⊆ s.calls c := List.Subset.refl _
  cases l with
  | call c k => exact h.call hordered hstep
  | act c ms entry => exact h.act hstep
  | hand p ch =>
      simp only [next, Fanout.hand] at hstep
      split at hstep
      · cases hstep
      · split at hstep
        · obtain rfl := Option.some.inj hstep
          exact h.congr hsame rfl rfl (lastOf_update fun mgr => deliver_lastId)
        · cases hstep
  | addQueue p threadId runId afterId replay =>
      obtain rfl := Option.some.inj hstep
      exact h.congr hsame rfl rfl (lastOf_update fun _ => rfl)
  | addThreadStream p threadId =>
      obtain rfl := Option.some.inj hstep
      exact h.congr hsame rfl rfl (lastOf_update fun _ => rfl)
  | removeQueue p i =>
      obtain rfl := Option.some.inj hstep
      exact h.congr hsame rfl rfl (lastOf_update fun _ => rfl)

/-- No id has to be unused for the order of the calls. -/
theorem sourced_inductive : fanout.Inductive fun s => s.Heard (fun _ => False) ∧ s.Sourced where
  init := by
    rintro s rfl
    refine ⟨kept_empty (StreamManager.heard_law _), fun c a ha => ?_, fun m out id hout => ?_⟩
    · cases ha
    · cases hout
  step s l s' h hstep :=
    ⟨h.1.step hstep.1 fun _ _ _ _ hS => hS.elim, h.2.step h.1.ordered hstep.1⟩

/-- An id that a call gets though another message of its scope holds it comes from elsewhere:
the generator of another process, or `XADD` and not a generator. -/
theorem used_elsewhere {ms : Nat} {entry : MessageId} (h : fanout.Reachable s)
    (hpossible : (s.next (.act c ms entry)).isSome)
    (hused : s.unused (.act c ms entry) = false) :
    ∃ (m n : MessageNo) (out out' : Outgoing),
      s.identifies (.act c ms entry) = some m ∧ s.messages[m]? = some out ∧
        s.messages[n]? = some out' ∧ out'.scope = out.scope ∧
          (out'.stamped ≠ out.stamped ∨
            out.stamped = true ∧ out'.caller.process ≠ c.process) := by
  have hsourced := (sourced_inductive.invariant s h).2
  -- who holds the id, and that it is larger than all of its own source
  have hholder {m : MessageNo} {new : MessageId} {out : Outgoing} (hout : s.messages[m]? = some out)
      (hholds : s.holds m new = true) (hnew : msSeqIdGt new (s.lastOf out) = true) :
      ∃ (n : MessageNo) (out' : Outgoing), s.messages[n]? = some out' ∧ out'.scope = out.scope ∧
        s.lastOf out' ≠ s.lastOf out := by
    obtain ⟨n, hn, hsame⟩ := List.any_eq_true.1 hholds
    simp only [Bool.and_eq_true, decide_eq_true_eq] at hsame
    obtain ⟨hscope, hid⟩ := hsame
    have hlt : n < s.messages.length := List.mem_range.1 hn
    obtain ⟨out', hout'⟩ : ∃ out', s.messages[n]? = some out' :=
      ⟨_, List.getElem?_eq_getElem hlt⟩
    refine ⟨n, out', hout', ?_, fun hlast => ?_⟩
    · simpa [scopeOf, hout, hout'] using hscope
    · have hle := hsourced.ids n out' new hout' hid
      rw [hlast, hnew] at hle
      cases hle
  simp only [unused] at hused
  cases hcalls : s.calls c with
  | nil => simp [hcalls] at hused
  | cons a rest =>
  have hask : s.Asks c a := hsourced.asks c a (by rw [hcalls]; exact List.mem_cons_self)
  cases a with
  | xadd m =>
      obtain ⟨out, hout, hstamped⟩ := hask
      simp only [hcalls, Bool.not_eq_false'] at hused
      have hlast : s.lastOf out = s.entries out.scope := by simp [lastOf, hstamped]
      have hgt : msSeqIdGt entry (s.lastOf out) = true := by
        rw [hlast]
        by_contra hnot
        simp [next, hcalls, perform, hout, hnot] at hpossible
      obtain ⟨n, out', hout', hscope, hne⟩ := hholder hout hused hgt
      refine ⟨m, n, out, out', by simp [identifies, hcalls], hout, hout', hscope, .inl ?_⟩
      intro hsame
      apply hne
      rw [hlast]
      simp [lastOf, hsame, hstamped, hscope]
  | stamp m =>
      obtain ⟨out, hout, hstamped, rfl⟩ := hask
      simp only [hcalls, Bool.not_eq_false'] at hused
      have hlast : s.lastOf out = (s.managers out.caller.process).lastId := by
        simp [lastOf, hstamped]
      obtain ⟨n, out', hout', hscope, hne⟩ :=
        hholder hout hused (hlast ▸ generateMsSeqId_gt ms _)
      refine ⟨m, n, out, out', by simp [identifies, hcalls], hout, hout', hscope, ?_⟩
      by_cases hsame : out'.stamped = out.stamped
      · refine .inr ⟨hstamped, fun hprocess => hne ?_⟩
        rw [hlast]
        simp [lastOf, hsame, hstamped, hprocess]
      · exact .inl hsame
  | deliver m => simp [hcalls] at hused
  | publish m => simp [hcalls] at hused

end Fanout

namespace Fanout

/-! ## Every queue is served -/

/-- When no call is in progress and all envelopes are handled, every message has arrived. -/
theorem Ordered.reached_of_settled (h : s.Ordered) (hsettled : s.Settled p) {out : Outgoing}
    (hout : s.messages[m]? = some out) : s.Reached p m := by
  have hcaller : callerOf s.messages m = some out.caller := by rw [callerOf, hout]; rfl
  have hall := mem_ofCaller hcaller
  rw [← h.published out.caller, hsettled.1 out.caller] at hall
  obtain hdone | hpending := List.mem_append.1 hall
  · refine .inr ⟨out.scope.channel, ?_⟩
    rw [List.take_of_length_le (hsettled.2 _), log, List.mem_filter]
    exact ⟨(mem_putBy.1 hdone).1, by simp [hout]⟩
  · cases hpending

theorem Sound.served (h : s.Sound) : s.Served := by
  intro p q hq
  have hqs := (h.managers p).queues q hq
  refine ⟨hqs.once, ?_, ?_, hqs.order⟩
  · intro m hm hmissing
    exact List.count_eq_zero_of_not_mem fun hmem => hmissing (hqs.received m hmem hm.since)
  · intro hsettled m hm
    obtain ⟨out, hout, -⟩ := hm.message
    exact hqs.once m hm (h.ordered.reached_of_settled hsettled hout)

/-- The fan-out whose calls get no id that another message of the scope holds. -/
def safely : TSys Fanout FanoutStep := fanout.restrict fun s l => s.unused l = true

theorem sound_inductive : safely.Inductive Sound where
  init := by
    rintro s rfl
    exact kept_empty StreamManager.sound_law
  step s l s' h hstep := h.step hstep.1.1 hstep.1.2 hstep.2

end Fanout

/-- While no id is held by two messages of a scope, every queue gets every message that
reaches its process once, in the order of its caller. -/
theorem fanout_delivers_once (s : Fanout) (h : Fanout.safely.Reachable s) : s.Served :=
  (Fanout.sound_inductive.invariant s h).served

/-! ## Two processes on one thread -/

/-- Plays a step that is possible and passes `ok`. -/
def Fanout.play (ok : Fanout → FanoutStep → Bool) (s : Fanout) (l : FanoutStep) : Option Fanout :=
  if s.recent l = true ∧ ok s l = true then s.next l else none

theorem Fanout.play_safely {steps : List FanoutStep} {p : Fanout → Bool}
    (h : (TSys.play (Fanout.play Fanout.unused) {} steps).any p = true) :
    ∃ s, safely.Reachable s ∧ p s = true := by
  refine TSys.play_reachable (fun s l s' hnext => ⟨l, ?_⟩) rfl h
  obtain ⟨⟨hrecent, hunused⟩, hnext⟩ := Option.ite_none_right_eq_some.1 hnext
  exact ⟨⟨hnext, hrecent⟩, hunused⟩

theorem Fanout.play_fanout {steps : List FanoutStep} {p : Fanout → Bool}
    (h : (TSys.play (Fanout.play fun _ _ => true) {} steps).any p = true) :
    ∃ s, fanout.Reachable s ∧ p s = true := by
  refine TSys.play_reachable (fun s l s' hnext => ⟨l, ?_⟩) rfl h
  obtain ⟨⟨hrecent, -⟩, hnext⟩ := Option.ite_none_right_eq_some.1 hnext
  exact ⟨hnext, hrecent⟩

/-- `put_thread` by a process on thread 7, when its clock shows `ms`. -/
def putThreadAt (process : ProcessId) (ms : Nat) : List FanoutStep :=
  let c : Caller := ⟨process, 0⟩
  [.call c (.putThread 7), .act c ms (0, 0), .act c 0 (0, 0), .act c 0 (0, 0)]

/-- Two processes put a message for a thread, and the second one has a stream of it. -/
def twoProcesses (ms ms' : Nat) : List FanoutStep :=
  [.addThreadStream 1 7] ++ putThreadAt 1 ms ++ putThreadAt 0 ms' ++
    [.hand 1 .thread, .hand 1 .thread]

/-- In different milliseconds both messages arrive. -/
theorem fanout_delivers_once_apart : ∃ s : Fanout,
    s.Served ∧ (s.managers 1).queues.map (·.items) = [[0, 1]] := by
  obtain ⟨s, hreach, hitems⟩ := Fanout.play_safely
    (p := fun s => (s.managers 1).queues.map (·.items) = [[0, 1]])
    (show (TSys.play _ _ (twoProcesses 5 6)).any _ = true by decide +kernel)
  exact ⟨s, fanout_delivers_once s hreach, of_decide_eq_true hitems⟩

/-- A queue of the process lacks a message whose envelope was handled. -/
def Fanout.lacks (s : Fanout) (p : ProcessId) (m : MessageNo) : Bool :=
  (s.managers p).queues.any fun q => q.since ≤ m && q.items.count m != 1 &&
    (s.messages[m]?.any fun out => out.scope = q.scope && !out.control) &&
    m ∈ (s.log .thread).take ((s.managers p).handed .thread)

theorem Fanout.not_served (h : s.lacks p m = true) : ¬s.Served := by
  intro hserved
  simp only [lacks, List.any_eq_true, Bool.and_eq_true, decide_eq_true_eq, bne_iff_ne,
    Option.any_eq_true, Bool.not_eq_true'] at h
  obtain ⟨q, hq, ⟨⟨hsince, hcount⟩, out, hout, hscope, hcontrol⟩, hhanded⟩ := h
  exact hcount ((hserved p q hq).once m ⟨hsince, out, hout, hscope, hcontrol⟩
    (.inr ⟨.thread, hhanded⟩))

/-- In one millisecond both processes generate one id, and the second message is dropped. -/
theorem fanout_drops_message : ∃ s : Fanout, fanout.Reachable s ∧ ¬s.Served := by
  obtain ⟨s, hreach, hlacks⟩ := Fanout.play_fanout (p := fun s => s.lacks 1 1)
    (show (TSys.play _ _ (twoProcesses 5 5)).any _ = true by decide +kernel)
  exact ⟨s, hreach, Fanout.not_served hlacks⟩

end GraphHarbor
