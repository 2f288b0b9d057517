import GraphHarbor.Models
import GraphHarbor.Kit.TSys

/-!
# `redis_stream.py`

The `StreamManager` of each process and what joins them: `XADD` to a stream for each run,
and one publish/subscribe channel for runs and one for threads. A message is delivered to
the queues of its own process at once, and to those of every process when its envelope
comes back; an id that was seen in its scope is dropped.
-/

namespace GraphHarbor

open Kit

abbrev ProcessId := Nat

/-- A message object, by the order in which the messages were created. -/
abbrev MessageNo := Nat

/-- An id `ms-seq`. -/
abbrev MessageId := Nat × Nat

/-- The scope of an id: `run:{thread_id}:{run_id}` or `thread:{thread_id}`. -/
inductive Scope
  | run (threadId : Option ThreadId) (runId : RunId)
  | thread (threadId : ThreadId)
  deriving DecidableEq, Repr

/-- The two patterns of the fan-out, each with a mux task in every process. -/
inductive Channel
  | run | thread
  deriving DecidableEq, Repr

def Scope.channel : Scope → Channel
  | .run .. => .run
  | .thread _ => .thread

/-- A task of a process that calls the manager, one call after the other. -/
structure Caller where
  process : ProcessId
  task : Nat
  deriving DecidableEq, Repr

/-- What is known of a message when it is put. `stamped` messages get their id from
`_generate_ms_seq_id`, the others from `XADD`. -/
structure Outgoing where
  caller : Caller
  scope : Scope
  /-- `"control" in topic`, for a message of a run. -/
  control : Bool := false
  stamped : Bool
  /-- Put by `put_batch`, which delivers a message of a run whatever its topic. -/
  batched : Bool := false
  deriving DecidableEq, Repr

/-! ## Ids -/

/-- `_generate_ms_seq_id` at the clock `ms`, from the last id of the process. -/
def generateMsSeqId (ms : Nat) (last : MessageId) : MessageId :=
  if last.1 < ms then (ms, 0) else (last.1, last.2 + 1)

/-- `ms_seq_id_gt`. -/
def msSeqIdGt (left right : MessageId) : Bool :=
  right.1 < left.1 || right.1 = left.1 && right.2 < left.2

/-- An id in its scope. -/
abbrev SeenKey := Scope × MessageId

instance : LawfulBEq SeenKey := inferInstance

/-- `_SeenIds(maxlen=10_000)`. -/
def seenMaxlen : Nat := 10000

/-- `_SeenIds.add` of an id that is not seen: the older half goes when the set is full. -/
def addSeen (seen : List SeenKey) (key : SeenKey) : List SeenKey :=
  let order := seen ++ [key]
  if order.length > seenMaxlen then order.drop (order.length / 2) else order

/-! ## The manager of a process -/

/-- A registered queue, and how many messages had been created before. -/
structure Queue where
  scope : Scope
  since : Nat
  items : List MessageNo
  deriving DecidableEq, Repr

/-- `recorded` are all ids ever added to `seen`; `handed` counts the envelopes that a mux
task has handled. -/
structure StreamManager where
  lastId : MessageId := (0, 0)
  seen : List SeenKey := []
  recorded : List SeenKey := []
  messageStores : Scope → List MessageNo := fun _ => []
  queues : List Queue := []
  handed : Channel → Nat := fun _ => 0

/-- `_fanout_put` to the queues of a scope. -/
def fanoutPut (scope : Scope) (m : MessageNo) (queues : List Queue) : List Queue :=
  queues.map fun q => if q.scope = scope then { q with items := q.items ++ [m] } else q

/-- `_deliver_local` and `_deliver_thread_local`: an id that was not seen is recorded, and
its message put in the queues, unless it goes to the control queues. -/
def StreamManager.deliver (mgr : StreamManager) (key : SeenKey) (m : MessageNo) (queued : Bool) :
    StreamManager :=
  if key ∈ mgr.seen then mgr
  else
    { mgr with
      seen := addSeen mgr.seen key
      recorded := mgr.recorded ++ [key]
      queues := if queued then fanoutPut key.1 m mgr.queues else mgr.queues }

/-- The buffer of a run keeps the last 2000 messages. -/
def StreamManager.buffer (mgr : StreamManager) (scope : Scope) (m : MessageNo) : StreamManager :=
  { mgr with
    messageStores := fun s =>
      if s = scope then
        let buf := mgr.messageStores s ++ [m]
        buf.drop (buf.length - 2000)
      else mgr.messageStores s }

/-- Whether the own delivery goes to the queues and not to the control queues. -/
def Outgoing.queued (out : Outgoing) : Bool :=
  match out.scope with
  | .thread _ => true
  | .run .. => !out.control || out.batched

def Outgoing.buffered (out : Outgoing) : Bool :=
  match out.scope with
  | .thread _ => false
  | .run .. => !out.control || out.batched

/-- The delivery in the own process, which buffers a message of a run for new queues. -/
def StreamManager.deliverOwn (mgr : StreamManager) (m : MessageNo) (out : Outgoing)
    (id : MessageId) : StreamManager :=
  (if out.buffered then mgr.buffer out.scope m else mgr).deliver (out.scope, id) m out.queued

/-! ## Calls -/

/-- The calls; a message of a batch says whether its topic contains `control` and whether it
comes with a message for the thread. -/
inductive Call
  | put (runId : RunId) (threadId : Option ThreadId) (control resumable : Bool)
  | putThread (threadId : ThreadId)
  | putBatch (runId : RunId) (threadId : Option ThreadId) (messages : List (Bool × Bool))
  deriving DecidableEq, Repr

/-- The messages of a call, in their order. -/
def Call.outgoing (caller : Caller) : Call → List Outgoing
  | .put runId threadId control resumable =>
      [{ caller, scope := .run threadId runId, control, stamped := !resumable }]
  | .putThread threadId => [{ caller, scope := .thread threadId, stamped := true }]
  | .putBatch runId threadId messages =>
      messages.flatMap fun (control, withThread) =>
        { caller, scope := .run threadId runId, control, stamped := false, batched := true } ::
          match threadId with
          | some t => if withThread then [{ caller, scope := .thread t, stamped := true }] else []
          | none => []

/-- The steps of a call. -/
inductive CallStep
  | xadd (m : MessageNo)
  | stamp (m : MessageNo)
  | deliver (m : MessageNo)
  | publish (m : MessageNo)
  deriving DecidableEq, Repr

/-- The delivery of a message in its own process. -/
def deliverySteps (m : Outgoing × MessageNo) : List CallStep :=
  if m.1.stamped then [.stamp m.2, .deliver m.2] else [.deliver m.2]

/-- A call: the `XADD` pipeline, the deliveries in its own process, and the `PUBLISH`
pipeline. -/
def actions (messages : List (Outgoing × MessageNo)) : List CallStep :=
  (messages.filter fun m => !m.1.stamped).map (fun m => .xadd m.2) ++
    messages.flatMap deliverySteps ++ messages.map fun m => .publish m.2

/-! ## The processes together -/

/-- All processes and Redis. `entries` are the last ids of the streams, `published` the
envelopes in the order of their publication; `delivered` are the messages that were
delivered in their own process. `_buf_lock` is left out: the steps of two calls may be
interleaved in any way. -/
structure Fanout where
  messages : List Outgoing := []
  ids : MessageNo → Option MessageId := fun _ => none
  calls : Caller → List CallStep := fun _ => []
  entries : Scope → MessageId := fun _ => (0, 0)
  delivered : List MessageNo := []
  published : List MessageNo := []
  managers : ProcessId → StreamManager := fun _ => {}

/-- Steps of the processes. -/
inductive FanoutStep
  /-- A caller without a call in progress begins one. -/
  | call (c : Caller) (k : Call)
  /-- The next step of a call; `ms` is the clock of its process, `entry` the id of `XADD`. -/
  | act (c : Caller) (ms : Nat) (entry : MessageId)
  /-- A mux task is handed the next envelope. -/
  | hand (p : ProcessId) (ch : Channel)
  | addQueue (p : ProcessId) (threadId : Option ThreadId) (runId : RunId)
      (afterId : Option MessageId) (replay : Bool)
  | addThreadStream (p : ProcessId) (threadId : ThreadId)
  /-- `remove_queue` and `remove_thread_stream`, for the queue at a position. -/
  | removeQueue (p : ProcessId) (i : Nat)
  deriving Repr

namespace Fanout

def update (s : Fanout) (p : ProcessId) (f : StreamManager → StreamManager) : Fanout :=
  { s with managers := fun x => if x = p then f (s.managers x) else s.managers x }

def assign (s : Fanout) (m : MessageNo) (id : MessageId) : Fanout :=
  { s with ids := fun x => if x = m then some id else s.ids x }

/-- The envelopes of a channel. -/
def log (s : Fanout) (ch : Channel) : List MessageNo :=
  s.published.filter fun m => s.messages[m]?.any fun out => out.scope.channel = ch

def deliverOwn (s : Fanout) (p : ProcessId) (m : MessageNo) (out : Outgoing) (id : MessageId) :
    Fanout :=
  { s.update p fun mgr => mgr.deliverOwn m out id with delivered := s.delivered ++ [m] }

/-- The effect of a step of a caller in the process `p`. -/
def perform (s : Fanout) (p : ProcessId) (ms : Nat) (entry : MessageId) : CallStep → Option Fanout
  | .xadd m =>
      match s.messages[m]? with
      | none => none
      | some out =>
          -- `XADD` ids increase
          if msSeqIdGt entry (s.entries out.scope) then
            some { s.assign m entry with
              entries := fun x => if x = out.scope then entry else s.entries x }
          else none
  | .stamp m =>
      let id := generateMsSeqId ms (s.managers p).lastId
      some ((s.assign m id).update p fun mgr => { mgr with lastId := id })
  | .deliver m =>
      match s.messages[m]?, s.ids m with
      | some out, some id => some (s.deliverOwn p m out id)
      | _, _ => none
  | .publish m => some { s with published := s.published ++ [m] }

/-- `_handle_run_fanout_message` and `_handle_thread_fanout_message`, for the next envelope. -/
def hand (s : Fanout) (p : ProcessId) (ch : Channel) : Option Fanout :=
  match (s.log ch)[(s.managers p).handed ch]? with
  | none => none
  | some m =>
      match s.messages[m]?, s.ids m with
      | some out, some id =>
          some (s.update p fun mgr =>
            { mgr.deliver (out.scope, id) m (!out.control) with
              handed := fun x => if x = ch then mgr.handed x + 1 else mgr.handed x })
      | _, _ => none

/-- `_replay_into_queue`. -/
def replayed (s : Fanout) (afterId : Option MessageId) (messages : List MessageNo) :
    List MessageNo :=
  messages.filter fun m =>
    match afterId, s.ids m with
    | some after, some id => msSeqIdGt id after
    | _, _ => true

def addQueue (s : Fanout) (p : ProcessId) (scope : Scope) (items : List MessageNo) : Fanout :=
  s.update p fun mgr => { mgr with queues := mgr.queues ++ [⟨scope, s.messages.length, items⟩] }

def next (s : Fanout) : FanoutStep → Option Fanout
  | .call c k =>
      if s.calls c = [] then
        let outgoing := k.outgoing c
        some { s with
          messages := s.messages ++ outgoing
          calls := fun x =>
            if x = c then actions (outgoing.zipIdx s.messages.length) else s.calls x }
      else none
  | .act c ms entry =>
      match s.calls c with
      | [] => none
      | a :: rest =>
          (s.perform c.process ms entry a).map fun s =>
            { s with calls := fun x => if x = c then rest else s.calls x }
  | .hand p ch => s.hand p ch
  | .addQueue p threadId runId afterId replay =>
      let scope := Scope.run threadId runId
      some (s.addQueue p scope
        (if replay then s.replayed afterId ((s.managers p).messageStores scope) else []))
  | .addThreadStream p threadId => some (s.addQueue p (.thread threadId) [])
  | .removeQueue p i => some (s.update p fun mgr => { mgr with queues := mgr.queues.eraseIdx i })

/-! ## What the fan-out may assume -/

/-- A manager records fewer than 5000 other ids between the two deliveries of a message: the
one by its own process and the one of its envelope. -/
def recent (s : Fanout) : FanoutStep → Bool
  | .hand p ch =>
      match (s.log ch)[(s.managers p).handed ch]? with
      | none => true
      | some m =>
          match s.messages[m]?, s.ids m with
          | some out, some id =>
              let recorded := (s.managers p).recorded
              out.caller.process ≠ p ||
                (out.scope, id) ∈ recorded.drop (recorded.length - 5000)
          | _, _ => true
  | _ => true

end Fanout

/-- Any number of processes with clocks of their own. -/
def fanout : TSys Fanout FanoutStep where
  init s := s = {}
  step s l s' := s.next l = some s' ∧ s.recent l = true

end GraphHarbor
