import GraphHarbor.Footprint
import GraphHarbor.Transitions

/-!
# Places in a queue

`queue_position` is written when a run is inserted and when its thread's queue is
reordered. Every other program keeps the place of every run, whatever the database
returns to it.
-/

namespace GraphHarbor

open Kit Txn

variable {now : Time} {v v' w : Db} {avail : Lock → Bool} {id x : RunId} {α β : Type}

/-! ## Kept places -/

/-- The run stands where it stood, in the queue of the same thread. -/
structure RunRow.SamePlace (r r' : RunRow) : Prop where
  queuePosition : r'.queuePosition = r.queuePosition
  threadId : r'.threadId = r.threadId

/-- The statement moves no run. -/
def Stmt.KeepsPlaces : (β : Type) → Stmt β → Prop
  | _, .assignRun _ f => ∀ r : RunRow, r.SamePlace (r.assign f)
  | _, .updateRun _ f _ => ∀ r : RunRow, r.SamePlace (f r)
  | _, .insertRun _ => False
  | _, _ => True

/-- The program moves no run. -/
abbrev Txn.KeepsPlaces (p : Txn α) : Prop := Prog.All Stmt.KeepsPlaces p

/-- Every stored run was stored before, at its place. -/
def Db.SamePlaces (v v' : Db) : Prop := ∀ x, v.From RunRow.SamePlace v' x

theorem RunRow.SamePlace.trans {a b c : RunRow} (h : a.SamePlace b) (h' : b.SamePlace c) :
    a.SamePlace c :=
  ⟨h'.queuePosition.trans h.queuePosition, h'.threadId.trans h.threadId⟩

theorem Stmt.KeepsPlaces.rows {s : Stmt β} (hs : s.KeepsPlaces) :
    s.KeepsRows RunRow.SamePlace := by
  cases s <;> exact hs

/-- A program that moves no run returns with all places kept. -/
theorem Txn.KeepsPlaces.places {p : Txn α} (hp : p.KeepsPlaces) {a : α}
    (h : p.Returns avail v a v') : v.SamePlaces v' :=
  Txn.rows_of_all (fun _ => ⟨rfl, rfl⟩) .trans (Prog.All.mono hp fun _ _ hs => hs.rows) h

/-! ## `run_store.py` -/

section RunStore

variable {repo : RunRepository} {t : ThreadId} {th : Option ThreadId} {owner topic : String}
  {payload : Dict} {ns : List String} {terminal : Bool} {run : RunRow}

theorem withGraphName_places : (withGraphName run topic payload).KeepsPlaces := by
  unfold withGraphName
  split
  · exact .bind (.perform trivial) fun _ => .ret
  · exact .ret

/-- It writes the counter of the thread, which orders events and not runs. -/
theorem nextThreadSequence_places : (nextThreadSequence t).KeepsPlaces := by
  refine .bind (.perform trivial) fun thread => ?_
  split
  · exact .throw
  · exact .bind (.perform trivial) fun _ => .bind (.perform trivial) fun _ => .ret

theorem nextSequence_places : (nextSequence run).KeepsPlaces := by
  unfold nextSequence
  split
  · exact nextThreadSequence_places
  · exact .bind (.perform trivial) fun _ => .ret

/-- Recording an event writes the run's counter and its time, never its place. -/
theorem recordRunEvent_places :
    (recordRunEvent now id th topic payload ns terminal).KeepsPlaces := by
  have hexisting : (existingTerminal id terminal).KeepsPlaces := by
    unfold existingTerminal
    split
    · exact .perform trivial
    · exact .ret
  refine .bind (.perform trivial) fun run => ?_
  split
  · exact .throw
  · split
    · exact .throw
    · refine .bind withGraphName_places fun _ => .bind hexisting fun existing => ?_
      split
      · exact .ret
      · exact .bind nextSequence_places fun _ => .bind (.perform fun _ => ⟨rfl, rfl⟩) fun _ =>
          .bind (.perform trivial) fun _ => .ret

theorem recordThreadEvent_places :
    (recordThreadEvent now t topic payload ns terminal).KeepsPlaces :=
  .bind nextThreadSequence_places fun _ => .bind (.perform trivial) fun _ => .ret

theorem insertEvents_places {es : List RuntimeEventRow} : (insertEvents es).KeepsPlaces := by
  induction es with
  | nil => exact .ret
  | cons e es ih => exact .bind (.perform trivial) fun _ => ih

theorem assignThreadOf_places {f : ThreadRow → ThreadRow} :
    (assignThreadOf th f).KeepsPlaces := by
  cases th with
  | none => exact .ret
  | some t => exact .perform trivial

/-- The batch of deltas assigns the last number to the run once, after the loop. -/
theorem recordMessageDeltas_places {events : List (Dict × List String)} :
    (recordMessageDeltas now id th events).KeepsPlaces := by
  have hlast (run : RunRow) : (lastSequence run).KeepsPlaces := by
    unfold lastSequence
    split
    · refine .bind (.perform trivial) fun thread => ?_
      split
      · exact .throw
      · exact .bind (.perform trivial) fun _ => .ret
    · exact .bind (.perform trivial) fun _ => .ret
  unfold recordMessageDeltas
  split
  · exact .ret
  · refine .bind (.perform trivial) fun run => ?_
    split
    · exact .throw
    · split
      · exact .throw
      · exact .bind (hlast _) fun _ => .bind (.perform fun _ => ⟨rfl, rfl⟩) fun _ =>
          .bind assignThreadOf_places fun _ => .bind insertEvents_places fun _ => .ret

/-- Both ways to publish: the batch of message deltas, and one event after the other. -/
theorem publishEvents_places {events : List PublishedEvent} :
    (publishEvents now id th events).KeepsPlaces := by
  have hall (events : List PublishedEvent) : (recordAll now id th events).KeepsPlaces := by
    induction events with
    | nil => exact .ret
    | cons e es ih => exact .bind recordRunEvent_places fun _ => .bind ih fun _ => .ret
  unfold publishEvents
  split
  · exact recordMessageDeltas_places
  · exact hall events

theorem lockThreadOf_places : (lockThreadOf th).KeepsPlaces := by
  cases th with
  | none => exact .ret
  | some t => exact .perform trivial

theorem updateThreadOf_places {f : ThreadRow → ThreadRow} :
    (updateThreadOf th f).KeepsPlaces := by
  refine .bind lockThreadOf_places fun thread => ?_
  split
  · exact .ret
  · exact .perform trivial

theorem deleteLease_places : (deleteLease id).KeepsPlaces := .perform trivial

/-- A started run keeps the place it was claimed from; only its status leaves the queue. -/
theorem startRun_places : (startRun repo now owner run).KeepsPlaces := by
  have hcapture (thread : ThreadRow) : (captureBaseline now run.runId thread).KeepsPlaces := by
    refine .bind (.perform trivial) fun captured => ?_
    split
    · exact .ret
    · exact .bind (.perform trivial) fun _ => .bind (.perform trivial) fun _ => .perform trivial
  have henter : (enterThread now run).KeepsPlaces := by
    unfold enterThread
    split
    · exact .ret
    · refine .bind (.perform trivial) fun thread => ?_
      split
      · exact .ret
      · refine .bind (.perform trivial) fun busy => ?_
        split
        · exact .ret
        · exact .bind (hcapture _) fun _ => .bind (.perform trivial) fun _ => .ret
  refine .bind henter fun entered => ?_
  split
  · exact .bind (.perform fun _ => ⟨rfl, rfl⟩) fun _ => .bind (.perform trivial) fun _ =>
      .perform trivial
  · exact .ret

/-- The claim reads places to pick a run, whether it then starts or exhausts it. -/
theorem claimNext_places : (claimNext repo now owner).KeepsPlaces := by
  have hrecheck (run : RunRow) : (recheck now run).KeepsPlaces := by
    unfold recheck
    split
    · exact .ret
    · refine .bind (.perform trivial) fun thread => ?_
      split
      · exact .ret
      · split
        · exact .ret
        · exact .perform trivial
  have hexhaust (run : RunRow) : (exhaust now run).KeepsPlaces :=
    .bind (.perform fun _ => ⟨rfl, rfl⟩) fun _ => .bind updateThreadOf_places fun _ =>
      .bind recordRunEvent_places fun _ => .ret
  refine .bind (.perform trivial) fun picked => ?_
  split
  · exact .ret
  · refine .bind (hrecheck _) fun free => ?_
    split
    · split
      · exact .bind (hexhaust _) fun _ => .ret
      · exact startRun_places
    · exact .ret

/-- A renewal of a lease, also of one that is no longer held. -/
theorem renew_places : (renew repo now id owner).KeepsPlaces := by
  have hrow {expires : Time} (r : RunRow) : r.SamePlace (r.renewed now expires owner) := by
    unfold RunRow.renewed
    split <;> exact ⟨rfl, rfl⟩
  refine .bind (.perform trivial) fun run => ?_
  split
  · exact .ret
  · split
    · exact .ret
    · refine .bind (.perform trivial) fun renewed => ?_
      split
      · exact .bind (.perform hrow) fun _ => .ret
      · exact .ret

/-- The end of an attempt; earlier events of the same transaction are recorded before it. -/
theorem finish_places {target : RunStatus} {reason : RunReason} {payload : Option Dict}
    {preceding : List (String × Dict × List String)} :
    (finish now id owner target reason payload preceding).KeepsPlaces := by
  have hpreceding (id : RunId) (th : Option ThreadId)
      (events : List (String × Dict × List String)) :
      (recordPreceding now id th events).KeepsPlaces := by
    induction events with
    | nil => exact .ret
    | cons e es ih => exact .bind recordRunEvent_places fun _ => .bind ih fun _ => .ret
  have hend (id : RunId) (th : Option ThreadId) (payload : Option Dict) :
      (recordEnd now id th payload).KeepsPlaces := by
    unfold recordEnd
    split
    · exact .ret
    · exact .bind recordRunEvent_places fun _ => .ret
  refine .bind (.perform trivial) fun run => ?_
  split
  · exact .throw
  · split
    · exact .ret
    · split
      · exact .throw
      · split
        · exact .throw
        · refine .bind (.bind (hpreceding _ _ _) fun _ => ?_) fun _ => .ret
          split
          · exact .throw
          · exact .bind (.perform fun _ => ⟨rfl, rfl⟩) fun _ => .bind deleteLease_places fun _ =>
              .bind (hend _ _ _) fun _ => .ret

/-- A failed run goes back to the place it had, or to no queue at all. -/
theorem fail_places {infrastructure : Bool} {reason : RunReason} {payload : Option Dict} :
    (fail repo now id owner infrastructure reason payload).KeepsPlaces := by
  refine .bind (.perform trivial) fun run => ?_
  split
  · exact .throw
  · split
    · exact .throw
    · split
      · exact .ret
      · split
        · exact .throw
        · exact .bind (.perform fun _ => ⟨rfl, rfl⟩) fun _ => .bind deleteLease_places fun _ =>
            .bind recordRunEvent_places fun _ => .ret

/-- A drained run is pending again at its old place, so ahead of later runs. -/
theorem requeueForShutdown_places {drained : Bool} :
    (requeueForShutdown repo now id owner drained).KeepsPlaces := by
  refine .bind (.perform trivial) fun run => ?_
  split
  · exact .throw
  · split
    · exact .throw
    · split
      · exact .ret
      · split
        · exact .throw
        · exact .bind (.perform fun _ => ⟨rfl, rfl⟩) fun _ => .bind updateThreadOf_places fun _ =>
            .bind deleteLease_places fun _ => .bind recordRunEvent_places fun _ => .ret

/-- The reaper puts every expired run back at its old place. -/
theorem requeueExpired_places : (requeueExpired repo now).KeepsPlaces := by
  have hone (run : RunRow) : (requeueOne repo now run).KeepsPlaces := by
    unfold requeueOne
    split
    · exact .throw
    · exact .bind (.perform fun _ => ⟨rfl, rfl⟩) fun _ => .bind updateThreadOf_places fun _ =>
        recordRunEvent_places
  have hall (runs : List RunRow) : (requeueAll repo now runs).KeepsPlaces := by
    induction runs with
    | nil => exact .ret
    | cons run runs ih => exact .bind (hone run) fun _ => .bind ih fun _ => .ret
  exact .bind (.perform trivial) fun runs => .bind (hall runs) fun _ =>
    .bind (.perform trivial) fun _ => .ret

/-- The retention job marks the run of the events it deletes, and moves none. -/
theorem pruneExpiredEvents_places {retentionSeconds batchSize : Nat} :
    (pruneExpiredEvents now retentionSeconds batchSize).KeepsPlaces := by
  have hmark (run : RunRow) (deleted : List Nat) : (markPruned run deleted).KeepsPlaces := by
    refine .bind (.perform fun _ => ⟨rfl, rfl⟩) fun _ => ?_
    split
    · exact .ret
    · exact .perform trivial
  unfold pruneExpiredEvents
  split
  · exact .ret
  · refine .bind (.perform trivial) fun picked => ?_
    split
    · exact .ret
    · refine .bind (.perform trivial) fun batch => ?_
      split
      · exact .ret
      · refine .bind (.perform trivial) fun deleted => ?_
        split
        · exact .ret
        · exact .bind (hmark _ _) fun _ => .ret

end RunStore

/-! ## `checkpoint.py` and `checkpoint_mutations.py` -/

section Checkpoints

variable {scope : CheckpointScope} {token : Option WriterToken} {requested : Option RunId}

/-- The checks before a checkpoint is written read the runs and may drop captured states. -/
theorem writer_places : (writer now scope token requested).KeepsPlaces := by
  have htoken : (checkToken now scope token).KeepsPlaces := by
    cases token with
    | none => exact .ret
    | some token =>
        refine .bind (.perform trivial) fun run => ?_
        split
        · exact .throw
        · split
          · exact .ret
          · exact .throw
  have hunfenced (t : ThreadId) : (unfencedWriter t requested).KeepsPlaces := by
    refine .bind (.perform trivial) fun active => ?_
    split
    · exact .throw
    · split
      · exact .perform trivial
      · exact .ret
  refine .bind htoken fun _ => ?_
  unfold enterScope
  split
  · exact .ret
  · refine .bind (.perform trivial) fun _ => ?_
    split
    · exact hunfenced _
    · exact .ret

/-- A rollback deletes checkpoints and the run itself, or only validates. -/
theorem rollbackRun_places {run : RunRow} {validateOnly : Bool} :
    (rollbackRun run validateOnly).KeepsPlaces := by
  have hto (b : RunCheckpointBaselineRow) : (rollbackTo b validateOnly).KeepsPlaces := by
    refine .bind (.perform trivial) fun _ => ?_
    split
    · exact .throw
    · refine .bind (.perform trivial) fun _ => ?_
      split
      · exact .throw
      · split
        · exact .ret
        · exact .bind (.perform trivial) fun _ => .bind (.perform trivial) fun _ =>
            .perform trivial
  unfold rollbackRun
  split
  · split
    · exact .ret
    · exact .perform trivial
  · refine .bind (.perform trivial) fun thread => ?_
    split
    · exact .throw
    · refine .bind (.perform trivial) fun busy => ?_
      split
      · exact .throw
      · refine .bind (.perform trivial) fun baseline => ?_
        split
        · exact hto _
        · split
          · exact .throw
          · split
            · exact .ret
            · exact .perform trivial

/-- The rollback after the worker has stopped. -/
theorem completeRollback_places {owner : Option String} :
    (completeRollback now owner id).KeepsPlaces := by
  refine .bind (.perform trivial) fun row => ?_
  split
  · exact .ret
  · split
    · exact rollbackRun_places
    · exact .ret

end Checkpoints

/-! ## `production_worker.py` -/

section Worker

variable {repo : RunRepository} {th : Option ThreadId} {owner type message : String}

theorem getThreadOf_places : (getThreadOf th).KeepsPlaces := by
  cases th with
  | none => exact .ret
  | some t => exact .perform trivial

theorem assignLoaded_places {thread : Option ThreadRow} {f : ThreadRow → ThreadRow} :
    (assignLoaded thread f).KeepsPlaces := by
  cases thread with
  | none => exact .ret
  | some t => exact .perform trivial

/-- The worker's claim: a run without a graph fails in the same transaction. -/
theorem claimRun_places {valid : Bool} : (claimRun repo now owner valid).KeepsPlaces := by
  refine .bind claimNext_places fun claim => ?_
  split
  · exact .ret
  · refine .bind getThreadOf_places fun thread => .bind (.perform trivial) fun assistant => ?_
    split
    · exact .bind fail_places fun _ => .ret
    · split
      · exact .ret
      · exact .bind (.perform trivial) fun _ => .ret

/-- The thread is written after the run's end; neither write is of a place. -/
theorem finalizeSuccess_places {out : GraphOutput} :
    (finalizeSuccess now id th owner out).KeepsPlaces := by
  refine .bind (.perform trivial) fun row => .bind getThreadOf_places fun thread => ?_
  split
  · exact .ret
  · split
    · exact .ret
    · refine .bind finish_places fun events => ?_
      split
      · exact .ret
      · exact .bind assignLoaded_places fun _ => .ret

theorem finalizeCancelled_places : (finalizeCancelled now id th owner).KeepsPlaces := by
  refine .bind (.perform trivial) fun row => ?_
  split
  · exact .ret
  · split
    · exact .ret
    · refine .bind finish_places fun events => ?_
      split
      · exact .ret
      · exact .bind getThreadOf_places fun _ => .bind assignLoaded_places fun _ => .ret

/-- The thread's error status is assigned first, then the run ends or is tried again. -/
theorem finalizeFailure_places {failure : Failure} :
    (finalizeFailure repo now id th owner failure type message).KeepsPlaces := by
  refine .bind (.perform trivial) fun row => ?_
  split
  · exact .ret
  · split
    · exact .ret
    · refine .bind getThreadOf_places fun thread => .bind assignLoaded_places fun _ => ?_
      cases failure with
      | timedOut => exact .bind finish_places fun _ => .ret
      | business | infrastructure => exact .bind fail_places fun _ => .ret

theorem failInvalidContext_places :
    (failInvalidContext repo now id owner type message).KeepsPlaces :=
  .bind fail_places fun _ => .ret

/-- The compensation after a claim that could not be begun. -/
theorem releaseLease_places : (releaseLease id th owner).KeepsPlaces := by
  refine .bind (.perform trivial) fun row => ?_
  split
  · exact .ret
  · exact .bind (.perform fun _ => ⟨rfl, rfl⟩) fun _ => .bind deleteLease_places fun _ =>
      .bind getThreadOf_places fun _ => assignLoaded_places

end Worker

/-! ## `core_api.py` -/

section CoreApi

/-- An interrupted run leaves the queue by its status and keeps its number. -/
theorem interruptRow_places {row : RunRow} : (interruptRow now row).KeepsPlaces := by
  have hlease (b : Bool) : (deleteLeaseUnless b row.runId).KeepsPlaces := by
    cases b with
    | true => exact .ret
    | false => exact deleteLease_places
  unfold interruptRow
  split
  · exact .ret
  · split
    · exact .throw
    · exact .bind (.perform fun _ => ⟨rfl, rfl⟩) fun _ => .bind (hlease _) fun _ =>
        .bind recordRunEvent_places fun _ => .ret

/-- Both actions: an interrupt, and a rollback of a run that runs or does not. -/
theorem cancelRow_places {action : CancelAction} : (cancelRow now id action).KeepsPlaces := by
  refine .bind (.perform trivial) fun row => ?_
  split
  · exact .ret
  · split
    · refine .bind rollbackRun_places fun _ => ?_
      split
      · exact rollbackRun_places
      · exact .perform fun _ => ⟨rfl, rfl⟩
    · exact interruptRow_places

theorem authorizedRun_places : (authorizedRun id).KeepsPlaces := by
  refine .bind (.perform trivial) fun row => ?_
  split
  · exact .ret
  · split
    · exact .ret
    · exact .bind (.perform trivial) fun _ => .ret

theorem runsCancel_places {action : CancelAction} : (runsCancel now id action).KeepsPlaces := by
  refine .bind authorizedRun_places fun row => ?_
  split
  · exact .ret
  · exact .bind cancelRow_places fun _ => .ret

theorem runsDelete_places : (runsDelete id).KeepsPlaces := by
  refine .bind authorizedRun_places fun row => ?_
  split
  · exact .ret
  · exact .perform trivial

theorem threadsDelete_places {t : ThreadId} : (threadsDelete t).KeepsPlaces := by
  refine .bind (.perform trivial) fun thread => ?_
  split
  · exact .ret
  · exact .perform trivial

theorem threadsPrune_places {blobs : List BlobKey} {t : ThreadId} :
    (threadsPrune blobs t).KeepsPlaces := by
  refine .bind (.perform trivial) fun thread => ?_
  split
  · exact .ret
  · refine .bind (.perform trivial) fun active => ?_
    split
    · exact .throw
    · exact .bind (.perform trivial) fun _ => .bind (.perform trivial) fun _ => .perform trivial

theorem threadsUpdateState_places {t : ThreadId} : (threadsUpdateState now t).KeepsPlaces := by
  refine .bind (.perform trivial) fun thread => ?_
  split
  · exact .ret
  · exact .perform trivial

theorem inputRespond_places {t : ThreadId} {interruptId : String} :
    (inputRespond t interruptId).KeepsPlaces := by
  refine .bind (.perform trivial) fun thread => ?_
  split
  · exact .ret
  · refine .bind (.perform trivial) fun seen => ?_
    split
    · exact .perform trivial
    · exact .ret

theorem interruptAll_places {ids : List RunId} : (interruptAll now ids).KeepsPlaces := by
  induction ids with
  | nil => exact .ret
  | cons id ids ih => exact .bind cancelRow_places fun _ => ih

/-- Cancelling a part of the queue moves none of the runs that stay in it. -/
theorem runsQueue_cancel_places {t : ThreadId} {expected requested : List RunId} :
    (runsQueue now t .cancel expected requested).KeepsPlaces := by
  refine .bind (.perform trivial) fun thread => ?_
  split
  · exact .throw
  · refine .bind (.perform trivial) fun rows => .bind (.perform trivial) fun count => ?_
    split
    · exact .throw
    · exact interruptAll_places

end CoreApi

/-! ## Requests -/

/-- The request inserts no run and reorders no queue. -/
def Request.keepsPlaces : Request → Bool
  | .runsCreate .. | .runsQueue _ .reorder _ _ => false
  | _ => true

/-- The law of the module, a case for each request: only submissions and reorders write places. -/
theorem Request.places {q : Request} (hq : q.keepsPlaces = true) :
    (q.program now).KeepsPlaces := by
  cases q with
  | runsCreate => cases hq
  | claim => exact .bind claimRun_places fun _ => .ret
  | renew => exact .bind renew_places fun _ => .ret
  | publish => exact .bind publishEvents_places fun _ => .ret
  | finish => exact .bind finish_places fun _ => .ret
  | fail => exact .bind fail_places fun _ => .ret
  | finalizeSuccess => exact .bind finalizeSuccess_places fun _ => .ret
  | finalizeCancelled => exact .bind finalizeCancelled_places fun _ => .ret
  | finalizeFailure => exact .bind finalizeFailure_places fun _ => .ret
  | failInvalidContext => exact .bind failInvalidContext_places fun _ => .ret
  | requeueForShutdown => exact .bind requeueForShutdown_places fun _ => .ret
  | releaseLease => exact .bind releaseLease_places fun _ => .ret
  | requeueExpired => exact .bind requeueExpired_places fun _ => .ret
  | completeRollback => exact .bind completeRollback_places fun _ => .ret
  | pruneExpiredEvents => exact .bind pruneExpiredEvents_places fun _ => .ret
  | recordThreadEvent => exact .bind recordThreadEvent_places fun _ => .ret
  | runsCancel => exact .bind runsCancel_places fun _ => .ret
  | runsDelete => exact .bind runsDelete_places fun _ => .ret
  | threadsDelete => exact .bind threadsDelete_places fun _ => .ret
  | threadsPrune => exact .bind threadsPrune_places fun _ => .ret
  | threadsUpdateState => exact .bind threadsUpdateState_places fun _ => .ret
  | inputRespond => exact .bind inputRespond_places fun _ => .ret
  | runsQueue t operation =>
      cases operation with
      | reorder => cases hq
      | cancel => exact .bind runsQueue_cancel_places fun _ => .ret
  | aput | aputWrites => exact .bind (.bind writer_places fun _ => .perform trivial) fun _ => .ret
  | threadsCreate | deleteThreadCheckpoints => exact .bind (.perform trivial) fun _ => .ret

end GraphHarbor
