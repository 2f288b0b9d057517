import GraphHarbor.Lifecycle

/-!
# Footprints

Which kinds of writes a program may issue, whatever the database returns to it. A fact
that no statement of the other kinds can change is then a fact of every request without
that kind in its footprint.
-/

namespace GraphHarbor

open Kit

/-- Kinds of writes. Assignments to other columns, and to the lease table, are free. -/
inductive Kind
  /-- `INSERT INTO runtime_events`. -/
  | log
  /-- The deletions and watermarks of `prune_expired_events`. -/
  | prune
  | submit
  | openThread
  | dropRun
  | dropThread
  /-- A run becomes `interrupted` with reason `cancel_requested`. -/
  | cancel
  /-- Writes to the two checkpoint tables. -/
  | checkpoint
  | baseline
  deriving DecidableEq, Repr

/-- The run was ended by an interrupt request. -/
def RunRow.CancelRequested (r : RunRow) : Prop :=
  r.status = .interrupted ∧ r.reason = some .cancelRequested

/-- The columns of a run that a write of the kinds `K` leaves as they are. -/
structure RunRow.Keeps (K : Kind → Prop) (r r' : RunRow) : Prop
    extends RunRow.SameIdentity r r' where
  pruned : r'.eventPrunedThrough = r.eventPrunedThrough ∨ K .prune
  seq : r'.eventSeq = r.eventSeq ∨ K .log
  cancel : r'.CancelRequested → r.CancelRequested ∨ K .cancel

/-- The columns of a thread that a write of the kinds `K` leaves as they are. -/
structure ThreadRow.Keeps (K : Kind → Prop) (t t' : ThreadRow) : Prop where
  pruned : t'.eventPrunedThrough = t.eventPrunedThrough ∨ K .prune
  seq : t'.eventSeq = t.eventSeq ∨ K .log

/-- The tables that a write of the kinds `K` without row locks leaves as they are. -/
structure Db.KeepsTables (K : Kind → Prop) (v v' : Db) : Prop where
  assistants : v'.assistants = v.assistants
  issued : v'.issued = v.issued
  recorded : v'.recorded = v.recorded
  events : v'.events = v.events ∨ K .prune ∧ v'.events.Sublist v.events
  checkpoints : v'.checkpoints = v.checkpoints ∧ v'.checkpointWrites = v.checkpointWrites ∨
    K .checkpoint
  baselines : v'.baselines = v.baselines ∨ K .baseline

/-- The statement writes only what the kinds `K` allow. -/
def Stmt.Within (K : Kind → Prop) : (β : Type) → Stmt β → Prop
  | _, .query _ | _, .getRun _ | _, .getThread _ | _, .lockRun .. | _, .lockThread ..
  | _, .pickRun .. | _, .lockRuns .. => True
  | _, .assignRun _ f => ∀ r : RunRow, r.Keeps K (r.assign f)
  | _, .updateRun _ f _ => ∀ r : RunRow, r.Keeps K (f r)
  | _, .assignThread _ f => ∀ t : ThreadRow, t.Keeps K (f t)
  | _, .updateThread _ f _ => ∀ t : ThreadRow, t.Keeps K (f t)
  | _, .insertRun new => K .submit ∧ new.Submitted
  | _, .insertThread _ => K .openThread
  | _, .insertEvent _ => K .log
  | _, .deleteRun _ => K .dropRun
  | _, .deleteThread _ => K .dropThread
  | _, .update _ g _ => ∀ v : Db, v.KeepsTables K (g v)

/-- The program writes only what the kinds `K` allow. -/
def Txn.Within {α : Type} (K : Kind → Prop) (p : Txn α) : Prop := Prog.All (Stmt.Within K) p

variable {K : Kind → Prop} {now : Time} {α β : Type}

/-- Columns other than the identity, the watermark, the counter, the status and the
reason. -/
theorem RunRow.Keeps.of_same {r r' : RunRow} (h : r.SameIdentity r')
    (hpruned : r'.eventPrunedThrough = r.eventPrunedThrough)
    (hseq : r'.eventSeq = r.eventSeq ∨ K .log) (hstatus : r'.status = r.status)
    (hreason : r'.reason = r.reason) : r.Keeps K r' :=
  ⟨h, .inl hpruned, hseq, fun hc => .inl (by rwa [CancelRequested, hstatus, hreason] at hc)⟩

/-- A status or reason of no interrupt request. -/
theorem RunRow.Keeps.of_not_cancel {r r' : RunRow} (h : r.SameIdentity r')
    (hpruned : r'.eventPrunedThrough = r.eventPrunedThrough)
    (hseq : r'.eventSeq = r.eventSeq) (hcancel : r'.CancelRequested → K .cancel) : r.Keeps K r' :=
  ⟨h, .inl hpruned, .inl hseq, fun hc => .inr (hcancel hc)⟩

/-! ## Weaker footprints -/

variable {K' : Kind → Prop} {v v' : Db}

/-- More kinds keep less. The same for threads, tables, statements and programs below. -/
theorem RunRow.Keeps.mono {r r' : RunRow} (h : r.Keeps K r') (hK : ∀ k, K k → K' k) :
    r.Keeps K' r' :=
  ⟨h.toSameIdentity, h.pruned.imp_right (hK _), h.seq.imp_right (hK _),
    fun hc => (h.cancel hc).imp_right (hK _)⟩

theorem ThreadRow.Keeps.mono {t t' : ThreadRow} (h : t.Keeps K t') (hK : ∀ k, K k → K' k) :
    t.Keeps K' t' := ⟨h.pruned.imp_right (hK _), h.seq.imp_right (hK _)⟩

theorem Db.KeepsTables.mono (h : v.KeepsTables K v') (hK : ∀ k, K k → K' k) :
    v.KeepsTables K' v' :=
  ⟨h.assistants, h.issued, h.recorded, h.events.imp_right fun he => ⟨hK _ he.1, he.2⟩,
    h.checkpoints.imp_right (hK _), h.baselines.imp_right (hK _)⟩

theorem Stmt.Within.mono {s : Stmt β} (h : s.Within K) (hK : ∀ k, K k → K' k) :
    s.Within K' := by
  cases s with
  | query | getRun | getThread | lockRun | lockThread | pickRun | lockRuns => trivial
  | assignRun | updateRun => exact fun r => (h r).mono hK
  | assignThread | updateThread => exact fun t => (h t).mono hK
  | insertRun => exact ⟨hK _ h.1, h.2⟩
  | insertThread | insertEvent | deleteRun | deleteThread => exact hK _ h
  | update => exact fun v => (h v).mono hK

theorem Txn.Within.mono {p : Txn α} (h : p.Within K) (hK : ∀ k, K k → K' k) : p.Within K' :=
  Prog.All.mono h fun _ _ hs => hs.mono hK

/-! ## Single statements -/

namespace Txn

theorem Within.ret {a : α} : Within K (.ret a) := Prog.All.ret

theorem Within.throw {e : Err} : Within (α := α) K (.throw e) := Prog.All.throw

theorem Within.perform {s : Stmt β} (hs : s.Within K) : Within K (Prog.perform s) :=
  Prog.All.perform hs

theorem Within.bind {p : Txn α} {f : α → Txn β} (hp : p.Within K)
    (hf : ∀ a, (f a).Within K) : Within K (p >>= f) := Prog.All.bind hp hf

theorem Within.query {f : Db → β} : (query f).Within K := .perform trivial

theorem Within.getRun {id : RunId} : (getRun id).Within K := .perform trivial

theorem Within.getThread {t : ThreadId} : (getThread t).Within K := .perform trivial

theorem Within.lockRun {id : RunId} : (lockRun id).Within K := .perform trivial

theorem Within.lockThread {t : ThreadId} : (lockThread t).Within K := .perform trivial

/-- The columns that are assigned decide the kind. -/
theorem Within.assignRun {id : RunId} {f : RunRow → RunRow}
    (hf : ∀ r : RunRow, r.Keeps K (r.assign f)) : (assignRun id f).Within K := .perform hf

theorem Within.assignThread {t : ThreadId} {f : ThreadRow → ThreadRow}
    (hf : ∀ t : ThreadRow, t.Keeps K (f t)) : (assignThread t f).Within K :=
  .perform hf

theorem Within.insertEvent {e : RuntimeEventRow} (h : K .log) : (insertEvent e).Within K :=
  .perform h

/-- The tables that are written decide the kind. -/
theorem Within.write {g : Db → Db} {hg} (h : ∀ v : Db, v.KeepsTables K (g v)) :
    (write g hg).Within K := .perform h

end Txn

open Txn

/-! ## `run_store.py` -/

section RunStore

variable {repo : RunRepository} {id : RunId} {t : ThreadId} {th : Option ThreadId}
  {owner topic : String} {payload : Dict} {ns : List String} {terminal : Bool} {run : RunRow}

theorem withGraphName_within : (withGraphName run topic payload).Within K := by
  unfold withGraphName
  split
  · exact .bind .query fun _ => .ret
  · exact .ret

/-- The counter of a thread moves with the log. -/
theorem nextThreadSequence_within (h : K .log) : (nextThreadSequence t).Within K := by
  refine .bind .lockThread fun thread => ?_
  split
  · exact .throw
  · exact .bind .query fun _ => .bind (.assignThread fun _ => ⟨.inl rfl, .inr h⟩) fun _ => .ret

theorem nextSequence_within (h : K .log) : (nextSequence run).Within K := by
  unfold nextSequence
  split
  · exact nextThreadSequence_within h
  · exact .bind .query fun _ => .ret

theorem existingTerminal_within : (existingTerminal id terminal).Within K := by
  unfold existingTerminal
  split
  · exact .query
  · exact .ret

/-- The counter of a run, too. -/
theorem numbered_keeps {n : Nat} (h : K .log) (r : RunRow) :
    r.Keeps K (r.assign (.numbered n)) :=
  .of_same ⟨rfl, rfl, rfl, rfl, rfl, fun _ _ => rfl⟩ rfl (.inr h) rfl rfl

theorem appendRunEvent_within (h : K .log) :
    (appendRunEvent now run topic payload ns terminal).Within K :=
  .bind (nextSequence_within h) fun _ => .bind (.assignRun (numbered_keeps h)) fun _ =>
    .bind (.insertEvent h) fun _ => .ret

/-- An event needs the kind `log` and no other. -/
theorem recordRunEvent_within (h : K .log) :
    (recordRunEvent now id th topic payload ns terminal).Within K := by
  refine .bind .lockRun fun run => ?_
  split
  · exact .throw
  · split
    · exact .throw
    · refine .bind withGraphName_within fun _ => .bind existingTerminal_within fun ex => ?_
      split
      · exact .ret
      · exact appendRunEvent_within h

theorem recordThreadEvent_within (h : K .log) :
    (recordThreadEvent now t topic payload ns terminal).Within K :=
  .bind (nextThreadSequence_within h) fun _ => .bind (.insertEvent h) fun _ => .ret

/-- The rows of a batch. -/
theorem insertEvents_within {es : List RuntimeEventRow} (h : K .log) :
    (insertEvents es).Within K := by
  induction es with
  | nil => exact .ret
  | cons e es ih => exact .bind (.insertEvent h) fun _ => ih

/-- The last number is read and not written. -/
theorem lastSequence_within : (lastSequence run).Within K := by
  unfold lastSequence
  split
  · refine .bind .lockThread fun thread => ?_
    split
    · exact .throw
    · exact .bind .query fun _ => .ret
  · exact .bind .query fun _ => .ret

/-- A thread that may be absent: the columns assigned decide the kind. -/
theorem assignThreadOf_within {f : ThreadRow → ThreadRow}
    (hf : ∀ t : ThreadRow, t.Keeps K (f t)) :
    (assignThreadOf th f).Within K := by
  cases th with
  | none => exact .ret
  | some t => exact .assignThread hf

/-- The batch of deltas is one write of the log. -/
theorem recordMessageDeltas_within {events : List (Dict × List String)} (h : K .log) :
    (recordMessageDeltas now id th events).Within K := by
  unfold recordMessageDeltas
  split
  · exact .ret
  · refine .bind .lockRun fun run => ?_
    split
    · exact .throw
    · split
      · exact .throw
      · exact .bind lastSequence_within fun _ =>
          .bind (.assignRun fun r =>
            .of_same ⟨rfl, rfl, rfl, rfl, rfl, fun _ _ => rfl⟩ rfl (.inr h) rfl rfl) fun _ =>
          .bind (assignThreadOf_within fun _ => ⟨.inl rfl, .inr h⟩) fun _ =>
          .bind (insertEvents_within h) fun _ => .ret

/-! ### The recorders

Every event reaches the log through `record_event`, for a run or a thread, or through
`record_message_deltas`. -/

/-- The kinds `K` without the events. -/
def Silent (K : Kind → Prop) (k : Kind) : Prop := K k ∧ k ≠ .log

/-- The program writes what `K` allows, and events through the recorders only. -/
inductive Txn.Logs (K : Kind → Prop) : {α : Type} → Txn α → Prop
  | within {α : Type} {p : Txn α} (h : p.Within (Silent K)) : Logs K p
  | bind {α β : Type} {p : Txn α} {f : α → Txn β} (hp : Logs K p) (hf : ∀ a, Logs K (f a)) :
      Logs K (p >>= f)
  | run {now : Time} {id : RunId} {th : Option ThreadId} {topic : String} {payload : Dict}
      {ns : List String} {terminal : Bool} (h : K .log) :
      Logs K (recordRunEvent now id th topic payload ns terminal)
  | thread {now : Time} {t : ThreadId} {topic : String} {payload : Dict} {ns : List String}
      {terminal : Bool} (h : K .log) : Logs K (recordThreadEvent now t topic payload ns terminal)
  | deltas {now : Time} {id : RunId} {th : Option ThreadId}
      {events : List (Dict × List String)} (h : K .log) :
      Logs K (recordMessageDeltas now id th events)

/-- What records events through the recorders writes the log and nothing more. -/
theorem Txn.Logs.toWithin {p : Txn α} (h : p.Logs K) : p.Within K := by
  induction h with
  | within h => exact h.mono fun _ hk => hk.1
  | bind _ _ ihp ihf => exact ihp.bind ihf
  | run h => exact recordRunEvent_within h
  | thread h => exact recordThreadEvent_within h
  | deltas h => exact recordMessageDeltas_within h

theorem lockThreadOf_within : (lockThreadOf th).Within K := by
  cases th with
  | none => exact .ret
  | some t => exact .lockThread

/-- The comparison of targets only reads. -/
theorem sameTarget_within {q : Submission} : (sameTarget q run).Within K := by
  unfold sameTarget
  split
  · exact .throw
  · exact .ret

/-- A submission inserts one run, which is pending and without attempts. -/
theorem submit_within {q : Submission} (h : K .submit) : (submit repo now q).Within K := by
  have hrejects : (rejects q).Within K := by
    unfold rejects
    split
    · exact .query
    · exact .ret
  have hinsert (position : Nat) : (insertOrExisting q (q.row repo now position)).Within K := by
    refine .bind (.perform ⟨h, rfl, rfl, rfl, ⟨repo.one_le_attempts, repo.attempts_le⟩, rfl, rfl⟩)
      fun inserted => ?_
    split
    · exact .ret
    · split
      · exact .throw
      · refine .bind .query fun existing => ?_
        split
        · exact .throw
        · exact sameTarget_within
  refine .bind hrejects fun b => ?_
  split
  · exact .throw
  · exact .bind .query fun _ => hinsert _

theorem create_within {q : Submission} (h : K .submit) : (create repo now q).Within K := by
  refine .bind lockThreadOf_within fun _ => ?_
  split
  · exact submit_within h
  · refine .bind .query fun existing => ?_
    split
    · exact sameTarget_within
    · exact submit_within h

/-- A claim writes the captured state before the run starts. -/
theorem captureBaseline_within {thread : ThreadRow} (h : K .baseline) :
    (captureBaseline now id thread).Within K := by
  refine .bind .query fun b => ?_
  split
  · exact .ret
  · exact .bind .query fun _ => .bind .query fun _ =>
      .write fun _ => ⟨rfl, rfl, rfl, .inl rfl, .inl ⟨rfl, rfl⟩, .inr h⟩

/-- The second check locks and reads. -/
theorem recheck_within : (recheck now run).Within K := by
  unfold recheck
  split
  · exact .ret
  · refine .bind (.perform trivial) fun thread => ?_
    split
    · exact .ret
    · split
      · exact .ret
      · exact .query

/-- Under the lock: the columns assigned decide the kind. -/
theorem updateThreadOf_within {f : ThreadRow → ThreadRow}
    (hf : ∀ t : ThreadRow, t.Keeps K (f t)) :
    (updateThreadOf th f).Within K := by
  refine .bind lockThreadOf_within fun thread => ?_
  split
  · exact .ret
  · exact .assignThread hf

/-- The end of an exhausted run is recorded. -/
theorem exhaust_logs (hlog : K .log) : (exhaust now run).Logs K :=
  .bind (.within (.assignRun fun _ =>
    .of_not_cancel ⟨rfl, rfl, rfl, rfl, rfl, fun _ _ => rfl⟩ rfl rfl
      fun hc => nomatch hc.1)) fun _ =>
    .bind (.within (updateThreadOf_within fun _ => ⟨.inl rfl, .inl rfl⟩)) fun _ =>
    .bind (.run hlog) fun _ => .within .ret

/-- Setting the thread busy is free; the captured state is not. -/
theorem enterThread_within (h : K .baseline) : (enterThread now run).Within K := by
  unfold enterThread
  split
  · exact .ret
  · refine .bind .lockThread fun thread => ?_
    split
    · exact .ret
    · refine .bind .query fun b => ?_
      split
      · exact .ret
      · exact .bind (captureBaseline_within h) fun _ =>
          .bind (.assignThread fun _ => ⟨.inl rfl, .inl rfl⟩) fun _ => .ret

/-- A write to the lease table. -/
theorem leases_keep {v : Db} {leases : Table RunLeaseRow} :
    v.KeepsTables K { v with leases := leases } :=
  ⟨rfl, rfl, rfl, .inl rfl, .inl ⟨rfl, rfl⟩, .inl rfl⟩

/-- The start itself records nothing. -/
theorem startRun_within (h : K .baseline) : (startRun repo now owner run).Within K := by
  refine .bind (enterThread_within h) fun b => ?_
  split
  · exact .bind (.assignRun fun r =>
      .of_not_cancel ⟨rfl, rfl, rfl, rfl, rfl, fun _ _ => rfl⟩ rfl rfl
        fun hc => nomatch hc.1) fun _ =>
      .bind (.write fun _ => leases_keep) fun _ => .getRun
  · exact .ret

/-- A claim writes the log when it ends an exhausted run, and captured states otherwise. -/
theorem claimNext_logs (hlog : K .log) (hbaseline : K .baseline) :
    (claimNext repo now owner).Logs K := by
  refine .bind (.within (.perform trivial)) fun picked => ?_
  split
  · exact .within .ret
  · refine .bind (.within recheck_within) fun b => ?_
    split
    · split
      · exact .bind (exhaust_logs hlog) fun _ => .within .ret
      · exact .within (startRun_within ⟨hbaseline, by simp⟩)
    · exact .within .ret

/-- The columns of a lease are free. -/
theorem renewed_keeps {expires : Time} (r : RunRow) : r.Keeps K (r.renewed now expires owner) := by
  unfold RunRow.renewed
  split
  · exact .of_same ⟨rfl, rfl, rfl, rfl, rfl, fun _ _ => rfl⟩ rfl (.inl rfl) rfl rfl
  · exact .of_same ⟨rfl, rfl, rfl, rfl, rfl, fun _ _ => rfl⟩ rfl (.inl rfl) rfl rfl

/-- A renewal has no footprint at all. -/
theorem renew_within : (renew repo now id owner).Within K := by
  refine .bind .lockRun fun run => ?_
  split
  · exact .ret
  · split
    · exact .ret
    · refine .bind (.perform fun _ => leases_keep) fun b => ?_
      split
      · exact .bind (.perform renewed_keeps) fun _ => .ret
      · exact .ret

theorem deleteLease_within : (deleteLease id).Within K := .write fun _ => leases_keep

theorem recordPreceding_logs {events : List (String × Dict × List String)} (hlog : K .log) :
    (recordPreceding now id th events).Logs K := by
  induction events with
  | nil => exact .within .ret
  | cons e es ih => exact .bind (.run hlog) fun _ => .bind ih fun _ => .within .ret

/-- The terminal event, when there is a payload. -/
theorem recordEnd_logs {payload : Option Dict} (hlog : K .log) :
    (recordEnd now id th payload).Logs K := by
  unfold recordEnd
  split
  · exact .within .ret
  · exact .bind (.run hlog) fun _ => .within .ret

/-- The end of an attempt, for a change that is no interrupt request. -/
theorem released_keeps {change : Transition} {next : Option Time}
    (hcancel : change.status = .interrupted → change.reason = .cancelRequested → K .cancel)
    (r : RunRow) : r.Keeps K (r.assign (released now change next)) :=
  .of_not_cancel ⟨rfl, rfl, rfl, rfl, rfl, fun _ _ => rfl⟩ rfl rfl
    fun hc => hcancel hc.1 (Option.some.inj hc.2)

/-- The end of an attempt is a cancel only for one target and reason. -/
theorem finish_logs {target : RunStatus} {reason : RunReason} {payload : Option Dict}
    {preceding : List (String × Dict × List String)} (hlog : K .log)
    (hcancel : target = .interrupted → reason = .cancelRequested → K .cancel) :
    (finish now id owner target reason payload preceding).Logs K := by
  refine .bind (.within .lockRun) fun run => ?_
  split
  · exact .within .throw
  · split
    · exact .within .ret
    · split
      · exact .within .throw
      · split
        · exact .within .throw
        · refine .bind (.bind (recordPreceding_logs hlog) fun _ => ?_) fun _ => .within .ret
          split
          · exact .within .throw
          · next change hchange =>
              obtain ⟨rfl, -, -⟩ := transition_eq_some hchange
              -- the row that ends has the target and the reason that were asked for
              exact .bind (.within (.assignRun (released_keeps
                  fun ht hr => ⟨hcancel ht hr, by simp⟩))) fun _ =>
                .bind (.within deleteLease_within) fun _ =>
                .bind (recordEnd_logs hlog) fun _ => .within .ret

/-- No failure looks like an interrupt request. -/
theorem fail_logs {infrastructure : Bool} {reason : RunReason} {payload : Option Dict}
    (hlog : K .log) :
    (fail repo now id owner infrastructure reason payload).Logs K := by
  refine .bind (.within .lockRun) fun run => ?_
  split
  · exact .within .throw
  · split
    · exact .within .throw
    · split
      · exact .within .ret
      · split
        · exact .within .throw
        · next change hchange =>
            have hne : change.status ≠ .interrupted := by
              unfold failChange at hchange
              split at hchange <;> obtain ⟨rfl, -, -⟩ := transition_eq_some hchange <;> simp
            exact .bind (.within (.assignRun (released_keeps fun hc => absurd hc hne))) fun _ =>
              .bind (.within deleteLease_within) fun _ => .bind (.run hlog) fun _ => .within .ret

/-- A drained run is pending again. -/
theorem requeueForShutdown_logs {drained : Bool} (hlog : K .log) :
    (requeueForShutdown repo now id owner drained).Logs K := by
  refine .bind (.within .lockRun) fun run => ?_
  split
  · exact .within .throw
  · split
    · exact .within .throw
    · split
      · exact .within .ret
      · split
        · exact .within .throw
        · next change hchange =>
            obtain ⟨rfl, -, -⟩ := transition_eq_some hchange
            exact .bind (.within (.assignRun fun r => .of_not_cancel
                ⟨rfl, rfl, rfl, rfl, rfl, kwargs_afterDrain⟩ rfl rfl fun hc => nomatch hc.1))
              fun _ => .bind (.within (updateThreadOf_within
                fun _ => ⟨.inl rfl, .inl rfl⟩)) fun _ =>
              .bind (.within deleteLease_within) fun _ => .bind (.run hlog) fun _ => .within .ret

theorem requeueOne_logs (hlog : K .log) : (requeueOne repo now run).Logs K := by
  unfold requeueOne
  split
  · exact .within .throw
  · next change hchange =>
      have hne : change.status ≠ .interrupted := by
        unfold expiryChange at hchange
        split at hchange <;> obtain ⟨rfl, -, -⟩ := transition_eq_some hchange <;> simp
      exact .bind (.within (.assignRun fun r => .of_not_cancel
          ⟨rfl, rfl, rfl, rfl, rfl, fun _ _ => rfl⟩ rfl rfl fun hc => absurd hc.1 hne)) fun _ =>
        .bind (.within (updateThreadOf_within fun _ => ⟨.inl rfl, .inl rfl⟩)) fun _ => .run hlog

/-- The reaper's batch, run by run. -/
theorem requeueExpired_logs (hlog : K .log) : (requeueExpired repo now).Logs K := by
  have hall (runs : List RunRow) : (requeueAll repo now runs).Logs K := by
    induction runs with
    | nil => exact .within .ret
    | cons run runs ih => exact .bind (requeueOne_logs hlog) fun _ => .bind ih fun _ => .within .ret
  exact .bind (.within (.perform trivial)) fun runs => .bind (hall runs) fun _ =>
    .bind (.within (.write fun _ => leases_keep)) fun _ => .within .ret

/-- The one writer of the watermarks. -/
theorem pruneExpiredEvents_within {retentionSeconds batchSize : Nat} (h : K .prune) :
    (pruneExpiredEvents now retentionSeconds batchSize).Within K := by
  have hmark (run : RunRow) (deleted : List Nat) : (markPruned run deleted).Within K := by
    refine .bind (.assignRun fun r => ⟨⟨rfl, rfl, rfl, rfl, rfl, fun _ _ => rfl⟩, .inr h,
      .inl rfl, .inl⟩) fun _ => ?_
    split
    · exact .ret
    · exact .perform fun _ => ⟨.inr h, .inl rfl⟩
  unfold pruneExpiredEvents
  split
  · exact .ret
  · refine .bind (.perform trivial) fun picked => ?_
    split
    · exact .ret
    · refine .bind .query fun batch => ?_
      split
      · exact .ret
      · refine .bind (.perform fun _ => ⟨rfl, rfl, rfl, .inr ⟨h, List.filter_sublist⟩,
          .inl ⟨rfl, rfl⟩, .inl rfl⟩) fun deleted => ?_
        split
        · exact .ret
        · exact .bind (hmark _ _) fun _ => .ret

end RunStore

/-! ## `checkpoint.py` and `checkpoint_mutations.py` -/

section Checkpoints

variable {scope : CheckpointScope} {token : Option WriterToken} {requested : Option RunId}

/-- A write to the baselines. -/
theorem baselines_keep {v : Db} {baselines : Table RunCheckpointBaselineRow} (h : K .baseline) :
    v.KeepsTables K { v with baselines := baselines } :=
  ⟨rfl, rfl, rfl, .inl rfl, .inl ⟨rfl, rfl⟩, .inr h⟩

/-- A write to the checkpoint tables. -/
theorem checkpoints_keep {v : Db} {checkpoints : Table CheckpointRow}
    {writes : Table CheckpointWriteRow} (h : K .checkpoint) :
    v.KeepsTables K { v with checkpoints := checkpoints, checkpointWrites := writes } :=
  ⟨rfl, rfl, rfl, .inl rfl, .inr h, .inl rfl⟩

/-- A write without a token drops captured states. -/
theorem writer_within (h : K .baseline) : (writer now scope token requested).Within K := by
  have htoken : (checkToken now scope token).Within K := by
    unfold checkToken
    split
    · refine .bind .lockRun fun run => ?_
      split
      · exact .throw
      · split
        · exact .ret
        · exact .throw
    · exact .ret
  refine .bind htoken fun _ => ?_
  unfold enterScope
  split
  · exact .ret
  · refine .bind .lockThread fun _ => ?_
    split
    · refine .bind .query fun b => ?_
      split
      · exact .throw
      · split
        · exact .write fun _ => baselines_keep h
        · exact .ret
    · exact .ret

/-- A checkpoint is written behind the checks. -/
theorem aput_within {row : CheckpointRow} (hcheckpoint : K .checkpoint)
    (hbaseline : K .baseline) : (aput now token requested row).Within K :=
  .bind (writer_within hbaseline) fun _ => .write fun _ => checkpoints_keep hcheckpoint

theorem aputWrites_within {rows : List CheckpointWriteRow} {overwrite : Bool}
    (hcheckpoint : K .checkpoint) (hbaseline : K .baseline) :
    (aputWrites now token requested scope rows overwrite).Within K :=
  .bind (writer_within hbaseline) fun _ => .write fun _ => checkpoints_keep hcheckpoint

/-- A rollback writes the checkpoint tables back and drops the run. -/
theorem rollbackTo_within {b : RunCheckpointBaselineRow} {validateOnly : Bool}
    (hcheckpoint : K .checkpoint) (hdrop : K .dropRun) : (rollbackTo b validateOnly).Within K := by
  refine .bind .query fun foreign => ?_
  split
  · exact .throw
  · refine .bind .query fun overtaken => ?_
    split
    · exact .throw
    · split
      · exact .ret
      · exact .bind (.write fun _ => checkpoints_keep hcheckpoint) fun _ =>
          .bind (.assignThread fun _ => ⟨.inl rfl, .inl rfl⟩) fun _ => .perform hdrop

/-- A rollback that only validates writes nothing, any other drops the run. -/
theorem rollbackRun_within {run : RunRow} {validateOnly : Bool} (hcheckpoint : K .checkpoint)
    (hdrop : K .dropRun) : (rollbackRun run validateOnly).Within K := by
  unfold rollbackRun
  split
  · split
    · exact .ret
    · exact .perform hdrop
  · refine .bind .lockThread fun thread => ?_
    split
    · exact .throw
    · refine .bind .query fun b => ?_
      split
      · exact .throw
      · refine .bind .query fun baseline => ?_
        split
        · exact rollbackTo_within hcheckpoint hdrop
        · split
          · exact .throw
          · split
            · exact .ret
            · exact .perform hdrop

theorem completeRollback_within {owner : Option String} {id : RunId}
    (hcheckpoint : K .checkpoint) (hdrop : K .dropRun) :
    (completeRollback now owner id).Within K := by
  refine .bind (.perform trivial) fun run => ?_
  split
  · exact .ret
  · split
    · exact rollbackRun_within hcheckpoint hdrop
    · exact .ret

/-- Pruning makes the captured states obsolete. -/
theorem pruneCheckpoints_within {blobs : List BlobKey} {t : ThreadId}
    (hcheckpoint : K .checkpoint) (hbaseline : K .baseline) :
    (pruneCheckpoints blobs t).Within K := by
  refine .bind .query fun b => ?_
  split
  · exact .throw
  · exact .bind .query fun _ => .bind (.write fun _ => checkpoints_keep hcheckpoint) fun _ =>
      .write fun _ => baselines_keep hbaseline

end Checkpoints

/-! ## `production_worker.py` -/

section Worker

variable {repo : RunRepository} {id : RunId} {th : Option ThreadId} {owner type message : String}

theorem getThreadOf_within : (getThreadOf th).Within K := by
  cases th with
  | none => exact .ret
  | some t => exact .getThread

theorem claimRun_logs {valid : Bool} (hlog : K .log) (hbaseline : K .baseline) :
    (claimRun repo now owner valid).Logs K := by
  refine .bind (claimNext_logs hlog hbaseline) fun run => ?_
  split
  · exact .within .ret
  · refine .bind (.within getThreadOf_within) fun thread =>
      .bind (.within .query) fun assistant => ?_
    split
    · exact .bind (fail_logs hlog) fun _ => .within .ret
    · split
      · exact .within .ret
      · exact .within (.bind (.assignThread fun _ => ⟨.inl rfl, .inl rfl⟩) fun _ => .ret)

/-- Both ways to publish end in a recorder. -/
theorem publishEvents_logs {events : List PublishedEvent} (hlog : K .log) :
    (publishEvents now id th events).Logs K := by
  have hall (events : List PublishedEvent) : (recordAll now id th events).Logs K := by
    induction events with
    | nil => exact .within .ret
    | cons e es ih => exact .bind (.run hlog) fun _ => .bind ih fun _ => .within .ret
  unfold publishEvents
  split
  · exact .deltas hlog
  · exact hall events

theorem assignLoaded_within {thread : Option ThreadRow} {f : ThreadRow → ThreadRow}
    (hf : ∀ t : ThreadRow, t.Keeps K (f t)) :
    (assignLoaded thread f).Within K := by
  cases thread with
  | none => exact .ret
  | some t => exact .assignThread hf

theorem finalizeSuccess_logs {out : GraphOutput} (hlog : K .log) :
    (finalizeSuccess now id th owner out).Logs K := by
  refine .bind (.within .getRun) fun run => .bind (.within getThreadOf_within) fun thread => ?_
  split
  · exact .within .ret
  · split
    · exact .within .ret
    · refine .bind (finish_logs hlog fun _ hreason => ?_) fun events => ?_
      · unfold GraphOutput.reason at hreason
        split at hreason <;> cases hreason
      · split
        · exact .within .ret
        · refine .within (.bind (assignLoaded_within fun t => ?_) fun _ => .ret)
          unfold GraphOutput.project
          split <;> exact ⟨.inl rfl, .inl rfl⟩

/-- The end of a cancelled attempt is a cancel. -/
theorem finalizeCancelled_logs (hlog : K .log) (hcancel : K .cancel) :
    (finalizeCancelled now id th owner).Logs K := by
  refine .bind (.within .getRun) fun run => ?_
  split
  · exact .within .ret
  · split
    · exact .within .ret
    · refine .bind (finish_logs hlog fun _ _ => hcancel) fun events => ?_
      split
      · exact .within .ret
      · exact .within (.bind getThreadOf_within fun _ =>
          .bind (assignLoaded_within fun _ => ⟨.inl rfl, .inl rfl⟩) fun _ => .ret)

/-- The end of a failed attempt is no cancel, and neither is a timeout. -/
theorem finalizeFailure_logs {failure : Failure} (hlog : K .log) :
    (finalizeFailure repo now id th owner failure type message).Logs K := by
  refine .bind (.within .getRun) fun run => ?_
  split
  · exact .within .ret
  · split
    · exact .within .ret
    · refine .bind (.within getThreadOf_within) fun _ =>
        .bind (.within (assignLoaded_within fun _ => ⟨.inl rfl, .inl rfl⟩)) fun _ => ?_
      unfold endFailed
      split
      · exact .bind (finish_logs hlog fun h => nomatch h) fun _ => .within .ret
      · exact .bind (fail_logs hlog) fun _ => .within .ret

theorem failInvalidContext_logs (hlog : K .log) :
    (failInvalidContext repo now id owner type message).Logs K :=
  .bind (fail_logs hlog) fun _ => .within .ret

/-- The run is pending again without an event. -/
theorem releaseLease_within : (releaseLease id th owner).Within K := by
  refine .bind (.perform trivial) fun run => ?_
  split
  · exact .ret
  · exact .bind (.assignRun fun r =>
      .of_same ⟨rfl, rfl, rfl, rfl, rfl, fun _ _ => rfl⟩ rfl (.inl rfl) rfl rfl) fun _ =>
      .bind deleteLease_within fun _ => .bind getThreadOf_within fun _ =>
      assignLoaded_within fun _ => ⟨.inl rfl, .inl rfl⟩

end Worker

/-! ## `core_api.py` -/

section CoreApi

variable {repo : RunRepository} {id : RunId} {t : ThreadId}

theorem runsCreate_within {q : Submission} (h : K .submit) :
    (runsCreate repo now q).Within K := by
  unfold runsCreate
  split
  · exact create_within h
  · refine .bind .getThread fun thread => ?_
    split
    · exact .throw
    · exact create_within h

/-- A cancel is recorded and changes the status. -/
theorem interruptRow_logs {row : RunRow} (hlog : K .log) (hcancel : K .cancel) :
    (interruptRow now row).Logs K := by
  have hlease (b : Bool) : (deleteLeaseUnless b row.runId).Within (Silent K) := by
    cases b with
    | true => exact .ret
    | false => exact deleteLease_within
  unfold interruptRow
  split
  · exact .within .ret
  · split
    · exact .within .throw
    · exact .bind (.within (.assignRun fun _ => .of_not_cancel
          ⟨rfl, rfl, rfl, rfl, rfl, fun _ _ => rfl⟩ rfl rfl fun _ => ⟨hcancel, by simp⟩)) fun _ =>
        .bind (.within (hlease _)) fun _ => .bind (.run hlog) fun _ => .within .ret

/-- A rollback request records nothing: the held run is marked, any other is dropped. -/
theorem rollbackRow_within {row : RunRow} (hcheckpoint : K .checkpoint) (hdrop : K .dropRun) :
    (rollbackRow now row).Within K := by
  refine .bind (rollbackRun_within hcheckpoint hdrop) fun _ => ?_
  split
  · exact rollbackRun_within hcheckpoint hdrop
  · exact .assignRun fun _ => .of_not_cancel ⟨rfl, rfl, rfl, rfl, rfl, fun _ _ => rfl⟩ rfl rfl
      fun hc => nomatch hc.2

theorem interrupt_logs (hlog : K .log) (hcancel : K .cancel) :
    (cancelRow now id .interrupt).Logs K := by
  refine .bind (.within (.perform trivial)) fun row => ?_
  split
  · exact .within .ret
  · exact interruptRow_logs hlog hcancel

theorem rollback_within (hcheckpoint : K .checkpoint) (hdrop : K .dropRun) :
    (cancelRow now id .rollback).Within K := by
  refine .bind (.perform trivial) fun row => ?_
  split
  · exact .ret
  · exact rollbackRow_within hcheckpoint hdrop

/-- The lookup of the run only reads. -/
theorem authorizedRun_within : (authorizedRun id).Within K := by
  refine .bind .getRun fun row => ?_
  split
  · exact .ret
  · split
    · exact .ret
    · exact .bind .query fun _ => .ret

/-- The operation adds a lookup to the action. -/
theorem runsCancel_logs {action : CancelAction} (h : (cancelRow now id action).Logs K) :
    (runsCancel now id action).Logs K := by
  refine .bind (.within authorizedRun_within) fun row => ?_
  split
  · exact .within .ret
  · exact .bind h fun _ => .within .ret

theorem runsDelete_within (h : K .dropRun) : (runsDelete id).Within K := by
  refine .bind authorizedRun_within fun row => ?_
  split
  · exact .ret
  · exact .perform h

/-- The rows that go with the thread are no writes of their own. -/
theorem threadsDelete_within (h : K .dropThread) : (threadsDelete t).Within K := by
  refine .bind .getThread fun thread => ?_
  split
  · exact .ret
  · exact .perform h

theorem threadsPrune_within {blobs : List BlobKey} (hcheckpoint : K .checkpoint)
    (hbaseline : K .baseline) : (threadsPrune blobs t).Within K := by
  refine .bind .lockThread fun thread => ?_
  split
  · exact .ret
  · exact pruneCheckpoints_within hcheckpoint hbaseline

theorem threadsUpdateState_within : (threadsUpdateState now t).Within K := by
  refine .bind .getThread fun thread => ?_
  split
  · exact .ret
  · exact .assignThread fun _ => ⟨.inl rfl, .inl rfl⟩

theorem inputRespond_within {interruptId : String} : (inputRespond t interruptId).Within K := by
  refine .bind .getThread fun thread => ?_
  split
  · exact .ret
  · refine .bind .query fun seen => ?_
    split
    · exact .assignThread fun _ => ⟨.inl rfl, .inl rfl⟩
    · exact .ret

/-- A reorder writes places, which are free; a cancel writes what `_cancel_row` does. -/
theorem runsQueue_logs {operation : QueueOperation} {expected requested : List RunId}
    (hcancel : operation = .cancel → K .log ∧ K .cancel) :
    (runsQueue now t operation expected requested).Logs K := by
  have hpositions (pairs : List (RunId × Nat)) : (assignPositions pairs).Within (Silent K) := by
    induction pairs with
    | nil => exact .ret
    | cons pair pairs ih =>
        exact .bind (.assignRun fun _ =>
          .of_same ⟨rfl, rfl, rfl, rfl, rfl, fun _ _ => rfl⟩ rfl (.inl rfl) rfl
          rfl) fun _ => ih
  have hinterrupts (ids : List RunId) (h : K .log ∧ K .cancel) :
      (interruptAll now ids).Logs K := by
    induction ids with
    | nil => exact .within .ret
    | cons id ids ih => exact .bind (interrupt_logs h.1 h.2) fun _ => ih
  refine .bind (.within .lockThread) fun thread => ?_
  split
  · exact .within .throw
  · refine .bind (.within (.perform trivial)) fun rows => .bind (.within .query) fun count => ?_
    split
    · exact .within .throw
    · cases operation with
      | reorder => exact .within (hpositions _)
      | cancel => exact hinterrupts _ (hcancel rfl)

end CoreApi

/-! ## Requests -/

/-- The kinds of writes of a request. -/
def Request.kinds : Request → List Kind
  | .runsCreate .. => [.submit]
  | .claim .. => [.log, .baseline]
  | .publish .. | .fail .. | .finalizeSuccess .. | .finalizeFailure .. | .failInvalidContext ..
  | .requeueForShutdown .. | .requeueExpired .. | .recordThreadEvent .. => [.log]
  | .finish _ _ target reason _ _ =>
      if target = .interrupted ∧ reason = .cancelRequested then [.log, .cancel] else [.log]
  | .finalizeCancelled .. => [.log, .cancel]
  | .renew .. | .releaseLease .. | .threadsUpdateState .. | .inputRespond .. => []
  | .completeRollback .. => [.checkpoint, .dropRun]
  | .pruneExpiredEvents .. => [.prune]
  | .runsCancel _ .interrupt | .runsQueue _ .cancel _ _ => [.log, .cancel]
  | .runsCancel _ .rollback => [.checkpoint, .dropRun]
  | .runsQueue _ .reorder _ _ => []
  | .runsDelete _ => [.dropRun]
  | .threadsCreate .. => [.openThread]
  | .threadsDelete _ => [.dropThread]
  | .deleteThreadCheckpoints _ => [.checkpoint]
  | .threadsPrune .. | .aput .. | .aputWrites .. => [.checkpoint, .baseline]

theorem replying_logs {p : Txn α} {f : α → Reply} (hp : p.Logs K) : (replying p f).Logs K :=
  .bind hp fun _ => .within .ret

/-- Every request keeps to its kinds, and records events through the recorders. -/
theorem Request.logs (q : Request) (now : Time) : (q.program now).Logs (· ∈ q.kinds) := by
  -- a write of any kind but `log` needs no recorder
  have silent {k : Kind} (hk : k ∈ q.kinds) (hne : k ≠ .log) : Silent (· ∈ q.kinds) k := ⟨hk, hne⟩
  cases q with
  | runsCreate =>
      exact replying_logs (.within (runsCreate_within (silent (by simp [kinds]) (by simp))))
  | claim => exact replying_logs (claimRun_logs (by simp [kinds]) (by simp [kinds]))
  | renew => exact replying_logs (.within renew_within)
  | publish => exact replying_logs (publishEvents_logs (by simp [kinds]))
  | finish _ _ target reason =>
      refine replying_logs (finish_logs ?_ fun ht hr => ?_)
      · simp only [kinds]
        split <;> simp
      · simp [kinds, ht, hr]
  | fail => exact replying_logs (fail_logs (by simp [kinds]))
  | finalizeSuccess => exact replying_logs (finalizeSuccess_logs (by simp [kinds]))
  | finalizeCancelled =>
      exact replying_logs (finalizeCancelled_logs (by simp [kinds]) (by simp [kinds]))
  | finalizeFailure => exact replying_logs (finalizeFailure_logs (by simp [kinds]))
  | failInvalidContext => exact replying_logs (failInvalidContext_logs (by simp [kinds]))
  | requeueForShutdown => exact replying_logs (requeueForShutdown_logs (by simp [kinds]))
  | releaseLease => exact replying_logs (.within releaseLease_within)
  | requeueExpired => exact replying_logs (requeueExpired_logs (by simp [kinds]))
  | completeRollback =>
      exact replying_logs (.within (completeRollback_within (silent (by simp [kinds]) (by simp))
        (silent (by simp [kinds]) (by simp))))
  | pruneExpiredEvents =>
      exact replying_logs (.within (pruneExpiredEvents_within (silent (by simp [kinds]) (by simp))))
  | recordThreadEvent => exact replying_logs (.thread (by simp [kinds]))
  | runsCancel _ action =>
      refine replying_logs (runsCancel_logs ?_)
      cases action with
      | interrupt => exact interrupt_logs (by simp [kinds]) (by simp [kinds])
      | rollback =>
          exact .within (rollback_within (silent (by simp [kinds]) (by simp))
            (silent (by simp [kinds]) (by simp)))
  | runsDelete =>
      exact replying_logs (.within (runsDelete_within (silent (by simp [kinds]) (by simp))))
  | threadsCreate =>
      exact replying_logs (.within (.perform (show Silent _ Kind.openThread from
        silent (by simp [kinds]) (by simp))))
  | threadsDelete =>
      exact replying_logs (.within (threadsDelete_within (silent (by simp [kinds]) (by simp))))
  | deleteThreadCheckpoints =>
      exact replying_logs (.within (.write fun _ =>
        checkpoints_keep (silent (by simp [kinds]) (by simp))))
  | threadsPrune =>
      exact replying_logs (.within (threadsPrune_within (silent (by simp [kinds]) (by simp))
        (silent (by simp [kinds]) (by simp))))
  | threadsUpdateState => exact replying_logs (.within threadsUpdateState_within)
  | inputRespond => exact replying_logs (.within inputRespond_within)
  | runsQueue _ operation =>
      refine replying_logs (runsQueue_logs fun hcancel => ?_)
      simp [kinds, hcancel]
  | aput =>
      exact replying_logs (.within (aput_within (silent (by simp [kinds]) (by simp))
        (silent (by simp [kinds]) (by simp))))
  | aputWrites =>
      exact replying_logs (.within (aputWrites_within (silent (by simp [kinds]) (by simp))
        (silent (by simp [kinds]) (by simp))))

/-- The law of the module: a request stays within its kinds. -/
theorem Request.within (q : Request) (now : Time) : (q.program now).Within (· ∈ q.kinds) :=
  (q.logs now).toWithin

/-! ## What a footprint says about a transaction -/

/-- One write of the kinds `K`. -/
inductive Db.Write (K : Kind → Prop) (v : Db) : Db → Prop
  | read : Write K v v
  | run (id : RunId) (f : RunRow → RunRow) (hf) (keeps : ∀ r : RunRow, r.Keeps K (f r)) :
      Write K v (v.updateRun id f hf)
  | thread (t : ThreadId) (f : ThreadRow → ThreadRow) (hf)
      (keeps : ∀ t : ThreadRow, t.Keeps K (f t)) :
      Write K v (v.updateThread t f hf)
  | submit (new : RunRow) (kind : K .submit) (fresh : v.drawn new.runId = false)
      (submitted : new.Submitted) : Write K v (v.insertRun new)
  | openThread (new : ThreadRow) (kind : K .openThread)
      (fresh : v.threads.find? new.threadId = none) :
      Write K v { v with threads := v.threads.insert new }
  | log (e : RuntimeEventRow) (kind : K .log) (unique : v.events.any e.clashes = false) :
      Write K v (v.insertEvent e)
  | dropRun (id : RunId) (kind : K .dropRun) : Write K v (v.deleteRun id)
  | dropThread (t : ThreadId) (kind : K .dropThread) : Write K v (v.deleteThread t)
  | tables (v' : Db) (keeps : v.KeepsTables K v') (runs : v'.runs = v.runs)
      (threads : v'.threads = v.threads) : Write K v v'

variable {avail : Lock → Bool} {v v' : Db}

/-- A statement within `K` makes one write of the kinds `K`. -/
theorem Stmt.direct_within {s : Stmt β} {b : β} (hs : s.Within K)
    (h : s.direct avail v = some (.ok (b, v'))) : v.Write K v' := by
  cases s with
  | query | getRun | getThread | pickRun | lockRuns =>
      obtain ⟨-, rfl⟩ := by simpa [direct] using h
      exact .read
  | lockRun | lockThread =>
      simp only [direct] at h
      (repeat' split at h) <;> simp only [Option.some.injEq, Except.ok.injEq, Prod.mk.injEq,
        reduceCtorEq] at h
      all_goals
        obtain ⟨-, rfl⟩ := h
        exact .read
  | assignRun id f =>
      simp only [direct] at h
      (repeat' split at h) <;> simp only [Option.some.injEq, Except.ok.injEq, Prod.mk.injEq,
        reduceCtorEq] at h <;> obtain ⟨-, rfl⟩ := h
      · exact .read
      · exact .run _ _ _ hs
  | updateRun id f hf =>
      simp only [direct] at h
      (repeat' split at h) <;> simp only [Option.some.injEq, Except.ok.injEq, Prod.mk.injEq,
        reduceCtorEq] at h <;> obtain ⟨-, rfl⟩ := h
      · exact .read
      · exact .run _ _ _ hs
  | assignThread t f =>
      have hkeeps (t : ThreadRow) : t.Keeps K (t.assign f) := ⟨(hs t).pruned, (hs t).seq⟩
      simp only [direct] at h
      (repeat' split at h) <;> simp only [Option.some.injEq, Except.ok.injEq, Prod.mk.injEq,
        reduceCtorEq] at h <;> obtain ⟨-, rfl⟩ := h
      · exact .read
      · exact .thread _ _ _ hkeeps
  | updateThread t f hf =>
      simp only [direct] at h
      (repeat' split at h) <;> simp only [Option.some.injEq, Except.ok.injEq, Prod.mk.injEq,
        reduceCtorEq] at h <;> obtain ⟨-, rfl⟩ := h
      · exact .read
      · exact .thread _ _ _ hs
  | insertRun new =>
      have hnew (v' : Db) (hdrawn : ¬(v.drawn new.runId || !avail (.run new.runId)) = true)
          (hv : v' = v.insertRun new) : v.Write K v' := by
        simp only [Bool.or_eq_true, not_or, Bool.not_eq_true] at hdrawn
        rw [hv]
        exact .submit new hs.1 hdrawn.1 hs.2
      simp only [direct] at h
      split at h
      · simp at h
      · next hdrawn =>
          (repeat' split at h) <;> simp only [Option.some.injEq, Except.ok.injEq, Prod.mk.injEq,
            reduceCtorEq] at h
          · exact hnew _ hdrawn h.2.symm
          · obtain ⟨-, rfl⟩ := h
            exact .read
          · exact hnew _ hdrawn h.2.symm
  | insertThread new =>
      simp only [direct] at h
      (repeat' split at h) <;> simp only [Option.some.injEq, Except.ok.injEq, Prod.mk.injEq,
        reduceCtorEq] at h <;> obtain ⟨-, rfl⟩ := h
      · exact .read
      · next hnone _ => exact .openThread new hs (by simpa using hnone)
  | insertEvent e =>
      simp only [direct] at h
      split at h
      · simp at h
      · next hunique =>
          obtain ⟨-, rfl⟩ := by simpa using h
          exact .log e hs (Bool.eq_false_iff.2 hunique)
  | deleteRun id =>
      simp only [direct] at h
      (repeat' split at h) <;> simp only [Option.some.injEq, Except.ok.injEq, Prod.mk.injEq,
        reduceCtorEq] at h <;> obtain ⟨-, rfl⟩ := h
      · exact .read
      · exact .dropRun id hs
  | deleteThread t =>
      simp only [direct] at h
      (repeat' split at h) <;> simp only [Option.some.injEq, Except.ok.injEq, Prod.mk.injEq,
        reduceCtorEq] at h <;> obtain ⟨-, rfl⟩ := h
      · exact .read
      · exact .dropThread t hs
  | update f g hg =>
      obtain ⟨-, rfl⟩ := by simpa [direct] using h
      exact .tables _ (hs v) (hg v).1 (hg v).2

/-- What every statement of a program keeps, the program keeps. -/
theorem Txn.preserves_of_all {P : (γ : Type) → Stmt γ → Prop} {I : Db → Prop}
    (hI : ∀ (γ : Type) (s : Stmt γ) (b : γ) (v v' : Db), P γ s →
      s.direct avail v = some (.ok (b, v')) → I v → I v')
    {p : Txn α} (hp : Prog.All P p) {a : α} (h : p.Returns avail v a v') (hv : I v) : I v' := by
  induction p generalizing v with
  | ret =>
      obtain ⟨-, rfl⟩ := returns_ret.1 h
      exact hv
  | throw => exact absurd h returns_throw
  | stmt s k ih =>
      rw [← Prog.perform_bind, returns_bind] at h
      obtain ⟨b, v₁, hs, hk⟩ := h
      exact ih b (hp.2 b) hk (hI _ _ _ _ _ hp.1 (returns_perform.1 hs) hv)

/-- The statement inserts no run, and writes rows as `R` allows. -/
def Stmt.KeepsRows (R : RunRow → RunRow → Prop) : (β : Type) → Stmt β → Prop
  | _, .assignRun _ f => ∀ r : RunRow, R r (r.assign f)
  | _, .updateRun _ f _ => ∀ r : RunRow, R r (f r)
  | _, .insertRun _ => False
  | _, _ => True

/-- One statement, whatever it finds: every row comes from a row by `R`. -/
theorem Stmt.direct_rows {R : RunRow → RunRow → Prop} (hrefl : ∀ r, R r r) {s : Stmt β} {b : β}
    (hs : s.KeepsRows R) (h : s.direct avail v = some (.ok (b, v'))) (x : RunId) :
    v.From R v' x := by
  cases s with
  | insertRun => exact hs.elim
  | assignRun y f =>
      simp only [direct] at h
      (repeat' split at h) <;> simp only [Option.some.injEq, Except.ok.injEq, Prod.mk.injEq,
        reduceCtorEq] at h <;> obtain ⟨-, rfl⟩ := h
      · exact .of_runs hrefl rfl
      · exact .updateRun hrefl hs
  | updateRun y f hf =>
      simp only [direct] at h
      (repeat' split at h) <;> simp only [Option.some.injEq, Except.ok.injEq, Prod.mk.injEq,
        reduceCtorEq] at h <;> obtain ⟨-, rfl⟩ := h
      · exact .of_runs hrefl rfl
      · exact .updateRun hrefl hs
  | deleteRun y =>
      simp only [direct] at h
      (repeat' split at h) <;> simp only [Option.some.injEq, Except.ok.injEq, Prod.mk.injEq,
        reduceCtorEq] at h <;> obtain ⟨-, rfl⟩ := h
      · exact .of_runs hrefl rfl
      · exact .deleteRun hrefl
  | update f g hg =>
      obtain ⟨-, rfl⟩ := by simpa [direct] using h
      exact .of_runs hrefl (hg v).1
  | _ =>
      -- reads, locks, and writes to other tables
      simp only [direct] at h
      (repeat' split at h) <;> simp only [Option.some.injEq, Except.ok.injEq, Prod.mk.injEq,
        reduceCtorEq] at h <;> obtain ⟨-, rfl⟩ := h <;> exact .of_runs hrefl rfl

/-- The same for a program, by induction on its statements. -/
theorem Txn.rows_of_all {R : RunRow → RunRow → Prop} (hrefl : ∀ r, R r r)
    (htrans : ∀ {a b c}, R a b → R b c → R a c) {p : Txn α}
    (hp : Prog.All (Stmt.KeepsRows R) p) {a : α} (h : p.Returns avail v a v') (x : RunId) :
    v.From R v' x :=
  Txn.preserves_of_all (I := fun u => v.From R u x)
    (fun _ _ _ _ _ hs hdirect hu => hu.trans htrans (Stmt.direct_rows hrefl hs hdirect x)) hp h
    (.of_runs hrefl rfl)

/-- What every write of the kinds `K` keeps, a transaction within `K` keeps. -/
theorem Txn.Within.preserves {I : Db → Prop} (hI : ∀ v v', v.Write K v' → I v → I v')
    {p : Txn α} (hp : p.Within K) {a : α} (h : p.Returns avail v a v') (hv : I v) : I v' :=
  Txn.preserves_of_all (fun _ _ _ v v' hs hdirect => hI v v' (Stmt.direct_within hs hdirect))
    hp h hv

/-- A reflexive and transitive relation that every write of the kinds `K` respects. -/
theorem Txn.Within.related {R : Db → Db → Prop} (refl : ∀ v, R v v)
    (trans : ∀ u v w, R u v → R v w → R u w) (hR : ∀ v v', v.Write K v' → R v v')
    {p : Txn α} (hp : p.Within K) {a : α} (h : p.Returns avail v a v') : R v v' :=
  hp.preserves (I := R v) (fun u w hw hu => trans _ _ _ hu (hR u w hw)) h (refl v)

/-- Without the kind `log` the ghost log stays. -/
theorem Txn.Within.recorded {p : Txn α} (hlog : ¬K .log) (hp : p.Within K) {a : α}
    (h : p.Returns avail v a v') : v'.recorded = v.recorded := by
  refine hp.related (R := fun v v' => v'.recorded = v.recorded) (fun _ => rfl)
    (fun _ _ _ h h' => h'.trans h) (fun v v' hw => ?_) h
  cases hw with
  | log _ kind => exact absurd kind hlog
  | tables _ keeps => exact keeps.recorded
  | _ => rfl

/-- A transaction without checkpoint writes keeps both checkpoint tables. -/
theorem Txn.Within.checkpoints {p : Txn α} (hcheckpoint : ¬K .checkpoint) (hp : p.Within K)
    {a : α} (h : p.Returns avail v a v') :
    v'.checkpoints = v.checkpoints ∧ v'.checkpointWrites = v.checkpointWrites := by
  refine hp.related (R := fun v v' => v'.checkpoints = v.checkpoints ∧
      v'.checkpointWrites = v.checkpointWrites) (fun _ => ⟨rfl, rfl⟩)
    (fun _ _ _ h h' => ⟨h'.1.trans h.1, h'.2.trans h.2⟩) (fun v v' hw => ?_) h
  cases hw with
  | tables _ keeps => exact keeps.checkpoints.resolve_right hcheckpoint
  | _ => exact ⟨rfl, rfl⟩

/-- The recorders, and the other writes of the kinds `K`, keep `I`. -/
structure Db.Recorders (K : Kind → Prop) (I : Db → Prop) : Prop where
  write : ∀ {v v' : Db}, v.Write (Silent K) v' → I v → I v'
  run : ∀ {now : Time} {id : RunId} {th : Option ThreadId} {topic : String} {payload : Dict}
    {ns : List String} {terminal : Bool} {avail : Lock → Bool} {v v' : Db} {e : RuntimeEventRow},
    (recordRunEvent now id th topic payload ns terminal).Returns avail v e v' → I v → I v'
  thread : ∀ {now : Time} {t : ThreadId} {topic : String} {payload : Dict} {ns : List String}
    {terminal : Bool} {avail : Lock → Bool} {v v' : Db} {e : RuntimeEventRow},
    (recordThreadEvent now t topic payload ns terminal).Returns avail v e v' → I v → I v'
  deltas : ∀ {now : Time} {id : RunId} {th : Option ThreadId} {events : List (Dict × List String)}
    {avail : Lock → Bool} {v v' : Db} {es : List RuntimeEventRow},
    (recordMessageDeltas now id th events).Returns avail v es v' → I v → I v'

/-- What every recorder keeps, and every silent write, holds after the program. -/
theorem Txn.Logs.preserves {I : Db → Prop} (hI : Db.Recorders K I) {p : Txn α} (hp : p.Logs K)
    {a : α} (h : p.Returns avail v a v') (hv : I v) : I v' := by
  induction hp generalizing v v' with
  | within hp => exact hp.preserves (fun _ _ hw hu => hI.write hw hu) h hv
  | bind _ _ ihp ihf =>
      obtain ⟨b, v₁, hb, h⟩ := returns_bind.1 h
      exact ihf b h (ihp hb hv)
  | run => exact hI.run h hv
  | thread => exact hI.thread h hv
  | deltas => exact hI.deltas h hv

end GraphHarbor
