import GraphHarbor.CoreApi
import GraphHarbor.Kit.TSys

/-!
# The service

Every transaction of the API, the workers and the reaper is a request. They meet in the
database in two ways: one after the other (`service`), or statement by statement
(`Engine.system` of the session engine).
-/

namespace GraphHarbor

open Kit

/-- The transactions. Requests of a worker carry its repository and owner name. -/
inductive Request
  | runsCreate (repo : RunRepository) (q : Submission)
  | claim (repo : RunRepository) (owner : String) (validContext : Bool)
  | renew (repo : RunRepository) (id : RunId) (owner : String)
  | publish (id : RunId) (threadId : Option ThreadId) (events : List PublishedEvent)
  | finish (id : RunId) (owner : String) (target : RunStatus) (reason : RunReason)
      (payload : Option Dict) (preceding : List (String × Dict × List String))
  | fail (repo : RunRepository) (id : RunId) (owner : String) (infrastructure : Bool)
      (reason : RunReason) (payload : Option Dict)
  | finalizeSuccess (id : RunId) (threadId : Option ThreadId) (owner : String)
      (out : GraphOutput)
  | finalizeCancelled (id : RunId) (threadId : Option ThreadId) (owner : String)
  | finalizeFailure (repo : RunRepository) (id : RunId) (threadId : Option ThreadId)
      (owner : String) (failure : Failure) (type message : String)
  | failInvalidContext (repo : RunRepository) (id : RunId) (owner type message : String)
  | requeueForShutdown (repo : RunRepository) (id : RunId) (owner : String) (drained : Bool)
  | releaseLease (id : RunId) (threadId : Option ThreadId) (owner : String)
  | requeueExpired (repo : RunRepository)
  | completeRollback (owner : Option String) (id : RunId)
  | pruneExpiredEvents (retentionSeconds batchSize : Nat)
  | recordThreadEvent (t : ThreadId) (topic : String) (payload : Dict) (ns : List String)
  | runsCancel (id : RunId) (action : CancelAction)
  | runsDelete (id : RunId)
  | threadsCreate (t : ThreadId) (graphId : Option String)
  | threadsDelete (t : ThreadId)
  | deleteThreadCheckpoints (t : ThreadId)
  | threadsPrune (blobs : List BlobKey) (t : ThreadId)
  | threadsUpdateState (t : ThreadId)
  | inputRespond (t : ThreadId) (interruptId : String)
  | runsQueue (t : ThreadId) (operation : QueueOperation) (expected requested : List RunId)
  | aput (token : Option WriterToken) (requested : Option RunId) (row : CheckpointRow)
  | aputWrites (token : Option WriterToken) (requested : Option RunId)
      (scope : CheckpointScope) (rows : List CheckpointWriteRow) (overwrite : Bool)

/-- What a committed transaction returned. -/
inductive Reply
  | done
  | run (r : Option RunRow)
  | flag (b : Bool)
  | count (n : Nat)
  | events (es : List RuntimeEventRow)
  deriving DecidableEq, Repr

def replying {α : Type} (p : Txn α) (f : α → Reply) : Txn Reply := do
  let a ← p
  pure (f a)

/-- The program of a request begun at `now`. -/
def Request.program (now : Time) : Request → Txn Reply
  | .runsCreate repo q => replying (GraphHarbor.runsCreate repo now q) fun r => .run (some r)
  | .claim repo owner validContext => replying (claimRun repo now owner validContext) .run
  | .renew repo id owner => replying (GraphHarbor.renew repo now id owner) .flag
  | .publish id threadId events => replying (publishEvents now id threadId events) .events
  | .finish id owner target reason payload preceding =>
      replying (GraphHarbor.finish now id owner target reason payload preceding)
        fun es => .events (es.getD [])
  | .fail repo id owner infrastructure reason payload =>
      replying (GraphHarbor.fail repo now id owner infrastructure reason payload)
        fun e => .events e.toList
  | .finalizeSuccess id threadId owner out =>
      replying (GraphHarbor.finalizeSuccess now id threadId owner out) .events
  | .finalizeCancelled id threadId owner =>
      replying (GraphHarbor.finalizeCancelled now id threadId owner) .events
  | .finalizeFailure repo id threadId owner failure type message =>
      replying (GraphHarbor.finalizeFailure repo now id threadId owner failure type message) .events
  | .failInvalidContext repo id owner type message =>
      replying (GraphHarbor.failInvalidContext repo now id owner type message) .events
  | .requeueForShutdown repo id owner drained =>
      replying (GraphHarbor.requeueForShutdown repo now id owner drained) fun e => .events e.toList
  | .releaseLease id threadId owner =>
      replying (GraphHarbor.releaseLease id threadId owner) fun _ => .done
  | .requeueExpired repo => replying (GraphHarbor.requeueExpired repo now) .events
  | .completeRollback owner id =>
      replying (GraphHarbor.completeRollback now owner id) fun _ => .done
  | .pruneExpiredEvents retentionSeconds batchSize =>
      replying (GraphHarbor.pruneExpiredEvents now retentionSeconds batchSize) .count
  | .recordThreadEvent t topic payload ns =>
      replying (GraphHarbor.recordThreadEvent now t topic payload ns false) fun e => .events [e]
  | .runsCancel id action => replying (GraphHarbor.runsCancel now id action) .flag
  | .runsDelete id => replying (GraphHarbor.runsDelete id) fun _ => .done
  | .threadsCreate t graphId => replying (GraphHarbor.threadsCreate now t graphId) .flag
  | .threadsDelete t => replying (GraphHarbor.threadsDelete t) fun _ => .done
  | .deleteThreadCheckpoints t =>
      replying (GraphHarbor.deleteThreadCheckpoints t) fun _ => .done
  | .threadsPrune blobs t => replying (GraphHarbor.threadsPrune blobs t) fun _ => .done
  | .threadsUpdateState t => replying (GraphHarbor.threadsUpdateState now t) fun _ => .done
  | .inputRespond t interruptId =>
      replying (GraphHarbor.inputRespond t interruptId) fun _ => .done
  | .runsQueue t operation expected requested =>
      replying (GraphHarbor.runsQueue now t operation expected requested) fun _ => .done
  | .aput token requested row => replying (GraphHarbor.aput now token requested row) fun _ => .done
  | .aputWrites token requested scope rows overwrite =>
      replying (GraphHarbor.aputWrites now token requested scope rows overwrite) fun _ => .done

/-! ## Transactions one after the other -/

/-- The database and the clock. -/
structure World where
  db : Db
  clock : Time

/-- The clock advances, or a request is executed with this result. -/
inductive Step
  | tick (d : Time)
  | call (q : Request) (r : Except Err Reply)

/-- A whole request on `db`, when no other transaction holds the locks `avail`. -/
def Request.run (q : Request) (avail : Lock → Bool) (now : Time) (db : Db) :
    Option (Except Err Reply × Db) :=
  engine.run avail (q.program now) db

/-- The atomic service: any requests in any order, between ticks of one clock. At each
request other transactions may hold any locks: a request that would wait for one is not
executed, one that skips locked rows is. -/
def service (allows : Request → Prop) : TSys World Step where
  init w := w.db.Fresh
  step w l w' :=
    match l with
    | .tick d => w' = { w with clock := w.clock + d }
    | .call q r => allows q ∧ ∃ avail db', q.run avail w.clock w.db = some (r, db') ∧
        w' = { w with db := db' }

/-- A request with the wall clock its program reads. -/
structure Timed where
  now : Time
  request : Request

def Timed.program (q : Timed) : Txn Reply := q.request.program q.now

/-- The atomic service when every process reads a clock of its own: the requests come in
any order with any times. -/
def drifting (allows : Request → Prop) : TSys Db (Timed × Except Err Reply) where
  init v := v.Fresh
  step v l v' := allows l.1.request ∧ ∃ avail, l.1.request.run avail l.1.now v = some (l.2, v')

/-! ## Scripts -/

/-- No other transaction holds a lock. -/
def unlocked : Lock → Bool := fun _ => true

/-- An input of the atomic service. -/
inductive Input
  | tick (d : Time)
  | call (q : Request)

def World.next (w : World) : Input → Option (Step × World)
  | .tick d => some (.tick d, { w with clock := w.clock + d })
  | .call q => (q.run unlocked w.clock w.db).map fun (r, db) => (.call q r, { w with db := db })

/-- The inputs one after the other, while no other transaction holds a lock. -/
def World.play (w : World) : List Input → Option (List Step × World)
  | [] => some ([], w)
  | i :: inputs =>
      match w.next i with
      | none => none
      | some (l, w') => (w'.play inputs).map fun (tr, w'') => (l :: tr, w'')

theorem World.next_step {w w' : World} {i : Input} {l : Step} (h : w.next i = some (l, w')) :
    (service fun _ => True).step w l w' := by
  cases i with
  | tick d =>
      obtain ⟨rfl, rfl⟩ := Prod.mk.inj (Option.some.inj h)
      rfl
  | call q =>
      obtain ⟨⟨r, db⟩, hrun, heq⟩ := Option.map_eq_some_iff.1 h
      obtain ⟨rfl, rfl⟩ := Prod.mk.inj heq
      exact ⟨trivial, unlocked, db, hrun, rfl⟩

theorem World.play_steps {w w' : World} {inputs : List Input} {tr : List Step}
    (h : w.play inputs = some (tr, w')) : (service fun _ => True).Steps w tr w' := by
  induction inputs generalizing w tr with
  | nil =>
      obtain ⟨rfl, rfl⟩ := Prod.mk.inj (Option.some.inj h)
      exact .nil
  | cons i inputs ih =>
      simp only [play] at h
      split at h
      · cases h
      · next l w₁ hnext =>
          obtain ⟨⟨tr₁, w₂⟩, hplay, heq⟩ := Option.map_eq_some_iff.1 h
          obtain ⟨rfl, rfl⟩ := Prod.mk.inj heq
          exact .cons (World.next_step hnext) (ih hplay)

/-- A script played from a fresh database. -/
theorem World.play_exec {w w' : World} {inputs : List Input} {tr : List Step}
    (hfresh : w.db.Fresh) (h : w.play inputs = some (tr, w')) :
    (service fun _ => True).Exec tr w' := ⟨w, hfresh, World.play_steps h⟩

/-- A check of the state that a script reaches. -/
theorem World.play_reachable {w : World} {inputs : List Input} {p : World → Bool}
    (hfresh : w.db.Fresh) (h : ((w.play inputs).any fun x => p x.2) = true) :
    ∃ w', (service fun _ => True).Reachable w' ∧ p w' = true := by
  cases hplay : w.play inputs with
  | none => simp [hplay] at h
  | some x =>
      rw [hplay] at h
      exact ⟨x.2, ⟨x.1, World.play_exec hfresh hplay⟩, h⟩

/-- The open transactions of the interleaved service. -/
abbrev Transactions := Engine.Config Stmt Db Lock Session Err Reply Timed

abbrev TxnEvent := Engine.Event Db Err Reply Timed

/-- The interleaved service: the requests of `stepwise` run statement by statement, those
of `whole` in one go. -/
def interleaved (Q : Engine.Requests Timed) : TSys Transactions TxnEvent :=
  engine.system Timed.program Q Db.Fresh

end GraphHarbor
