import GraphHarbor.Lifecycle

/-!
# What each transaction does to the runs

One lemma for each function of the model: a whole transaction makes `Moves`, and a claim
in addition one `Start`.
-/

namespace GraphHarbor

open Kit Txn

variable {now : Time} {S : RunRow → Prop} {v v' : Db} {avail : Lock → Bool} {id : RunId}

/-! ## The event log -/

/-- Recording an event adds it to the log and renumbers, and changes no run otherwise. -/
theorem recordRunEvent_quiet {th : Option ThreadId} {topic : String} {payload : Dict}
    {ns : List String} {terminal : Bool} {e : RuntimeEventRow}
    (h : (recordRunEvent now id th topic payload ns terminal).Returns avail v e v') :
    v.QuietStep v' := by
  obtain ⟨run, hrun, ⟨-, -, rfl⟩ | ⟨-, he, rfl, -, hthread⟩⟩ := recordRunEvent_returns h
  · exact .refl _
  · exact .logged hrun (by rw [he]; rfl) (by rw [he]; rfl) hthread

/-- The events recorded before the end of an attempt, by induction on their list. -/
theorem recordPreceding_quiet {th : Option ThreadId}
    {events : List (String × Dict × List String)} {es : List RuntimeEventRow}
    (h : (recordPreceding now id th events).Returns avail v es v') : v.QuietStep v' := by
  induction events generalizing v es with
  | nil =>
      obtain ⟨-, rfl⟩ := returns_ret.1 h
      exact .refl _
  | cons e events ih =>
      obtain ⟨topic, payload, ns⟩ := e
      simp only [recordPreceding, returns_bind, Prog.pure_eq, returns_ret] at h
      obtain ⟨e, v₁, he, rest, _, hrest, -, rfl⟩ := h
      exact (recordRunEvent_quiet he).trans (ih hrest)

/-! ## Ends of attempts -/

theorem deleteLease_returns {u : Unit} (h : (deleteLease id).Returns avail v u v') :
    v' = v.deleteLease id := returns_write.1 h

/-- The mirror of a lease is no column of a run. -/
theorem deleteLease_moves {u : Unit} (h : (deleteLease id).Returns avail v u v') :
    Moves now S v v' := by
  rw [deleteLease_returns h]
  exact .of_sameRuns ⟨rfl, rfl, List.Subset.refl _, fun _ h => h⟩

/-- The end of an attempt as an assignment. -/
theorem released_move {r : RunRow} {change : Transition} {next : Option Time}
    (hlive : r.status.isTerminal = false)
    (hheld : r.leaseOwner.isSome ∨ change.status ≠ .running)
    (hallowed : change.status ∈ r.status.allowed) :
    RunMove now S r (r.assign (released now change next)) :=
  .released ⟨⟨rfl, rfl, rfl, rfl, rfl, fun _ _ => rfl⟩, rfl, rfl⟩ hlive hheld hallowed rfl rfl

/-- The terminal event of an attempt, when there is a payload for it. -/
theorem recordEnd_quiet {th : Option ThreadId} {payload : Option Dict}
    {es : List RuntimeEventRow} (h : (recordEnd now id th payload).Returns avail v es v') :
    v.QuietStep v' := by
  unfold recordEnd at h
  split at h
  · obtain ⟨-, rfl⟩ := returns_ret.1 h
    exact .refl _
  · simp only [returns_bind, Prog.pure_eq, returns_ret] at h
    obtain ⟨e, _, he, -, rfl⟩ := h
    exact recordRunEvent_quiet he

/-- The part of `finish` behind its checks: events, the end of the row, its lease, the last event.
The row that ends may be numbered higher than the one that was checked. -/
theorem finishRow_moves {run : RunRow} {target : RunStatus} {reason : RunReason}
    {payload : Option Dict} {preceding : List (String × Dict × List String)}
    {es : List RuntimeEventRow} (hrun : v.runs.find? run.runId = some run)
    (hlive : run.status.isTerminal = false) (howner : run.leaseOwner.isSome)
    (h : (finishRow now run target reason payload preceding).Returns avail v es v') :
    Moves now S v v' := by
  simp only [finishRow, returns_bind] at h
  obtain ⟨before, v₁, hbefore, h⟩ := h
  have hquiet := recordPreceding_quiet hbefore
  obtain ⟨r₁, hr₁, hq⟩ := hquiet.find? hrun
  split at h
  · simp at h
  · next change hchange =>
      obtain ⟨rfl, hallowed, -⟩ := transition_eq_some hchange
      simp only [returns_bind, returns_assignRun, Prog.pure_eq, returns_ret] at h
      obtain ⟨_, _, ⟨rfl, -⟩, _, v₃, hlease, last, _, hlast, -, rfl⟩ := h
      have hmove : RunMove now S r₁ (r₁.assign
          (released now ⟨target, reason, run.retryCount⟩ none)) :=
        released_move (by rw [hq.status, hlive]) (.inl (by rw [hq.leaseOwner, howner]))
          (by rw [hq.status]; exact hallowed)
      exact (hquiet.moves.trans (Moves.assignRun hr₁ hmove)).trans
        ((deleteLease_moves hlease).trans (recordEnd_quiet hlast).moves)

/-- `finish` ends a run that its caller holds, or changes nothing. -/
theorem finish_moves {owner : String} {target : RunStatus} {reason : RunReason}
    {payload : Option Dict} {preceding : List (String × Dict × List String)}
    {es : Option (List RuntimeEventRow)}
    (h : (finish now id owner target reason payload preceding).Returns avail v es v') :
    Moves now S v v' := by
  simp only [finish, returns_bind, returns_lockRun] at h
  obtain ⟨_, _, ⟨rfl, rfl, -⟩, h⟩ := h
  split at h
  · simp at h
  · next run hrun =>
      obtain rfl : run.runId = id := Table.key_of_find? hrun
      split at h
      · obtain ⟨-, rfl⟩ := returns_ret.1 h
        exact .refl
      · next hlive =>
          split at h
          · simp at h
          · next howner =>
              split at h
              · simp at h
              · simp only [returns_bind, Prog.pure_eq, returns_ret] at h
                obtain ⟨es, _, hes, -, rfl⟩ := h
                exact finishRow_moves hrun (by simpa using hlive)
                  (by simp only [not_not] at howner; simp [howner]) hes

/-- A failed attempt is followed by another or by an error, whatever the cause. -/
theorem failChange_eq_some {repo : RunRepository} {infrastructure : Bool} {reason : RunReason}
    {run : RunRow} {change : Transition}
    (h : failChange repo infrastructure reason run = some change) :
    change.status ∈ run.status.allowed ∧ (change.status = .pending ∨ change.status = .error) := by
  unfold failChange at h
  split at h <;> obtain ⟨rfl, hallowed, -⟩ := transition_eq_some h <;> simp [hallowed]

/-- `fail` ends the attempt of a run that its caller holds, or changes nothing. -/
theorem fail_moves {repo : RunRepository} {owner : String} {infrastructure : Bool}
    {reason : RunReason} {payload : Option Dict} {e : Option RuntimeEventRow}
    (h : (fail repo now id owner infrastructure reason payload).Returns avail v e v') :
    Moves now S v v' := by
  simp only [fail, returns_bind, returns_lockRun] at h
  obtain ⟨_, _, ⟨rfl, rfl, -⟩, h⟩ := h
  split at h
  · simp at h
  · next run hrun =>
      split at h
      · simp at h
      · next howner =>
          split at h
          · obtain ⟨-, rfl⟩ := returns_ret.1 h
            exact .refl
          · next hlive =>
              split at h
              · simp at h
              · next change hchange =>
                  obtain ⟨hallowed, -⟩ := failChange_eq_some hchange
                  simp only [returns_bind, returns_assignRun, Prog.pure_eq, returns_ret] at h
                  obtain ⟨_, _, ⟨rfl, -⟩, _, v₃, hlease, e, _, he, -, rfl⟩ := h
                  have hmove : RunMove now S run
                      (run.assign (released now change (failNext repo now infrastructure run))) :=
                    released_move (by simpa using hlive)
                      (.inl (by simp only [not_not] at howner; simp [howner])) hallowed
                  exact (Moves.assignRun hrun hmove).trans
                    ((deleteLease_moves hlease).trans (recordRunEvent_quiet he).moves)

/-- A locked thread is written if it exists. -/
theorem updateThreadOf_returns {t : Option ThreadId} {f : ThreadRow → ThreadRow} {u : Unit}
    (h : (updateThreadOf t f).Returns avail v u v') : v' = v.assignThreadOf t f := by
  simp only [updateThreadOf, returns_bind] at h
  obtain ⟨thread, v₁, hthread, h⟩ := h
  cases t with
  | none =>
      obtain ⟨rfl, rfl⟩ := returns_ret.1 hthread
      exact (returns_ret.1 h).2
  | some t =>
      obtain ⟨rfl, rfl, -⟩ := returns_lockThread.1 hthread
      split at h
      · next hnone =>
          obtain ⟨-, rfl⟩ := returns_ret.1 h
          exact (assignThread_of_none hnone).symm
      · next thread hsome =>
          obtain rfl : thread.threadId = t := Table.key_of_find? hsome
          exact (returns_assignThread.1 h).1

theorem updateThreadOf_quiet {t : Option ThreadId} {f : ThreadRow → ThreadRow} {u : Unit}
    (h : (updateThreadOf t f).Returns avail v u v') : v.QuietStep v' := by
  rw [updateThreadOf_returns h]
  exact .assignThreadOf

/-- A drain gives a run that its caller holds back to the queue. It is an end of an attempt that
also writes `kwargs`. -/
theorem requeueForShutdown_moves {repo : RunRepository} {owner : String} {drained : Bool}
    {e : Option RuntimeEventRow}
    (h : (requeueForShutdown repo now id owner drained).Returns avail v e v') :
    Moves now S v v' := by
  simp only [requeueForShutdown, returns_bind, returns_lockRun] at h
  obtain ⟨_, _, ⟨rfl, rfl, -⟩, h⟩ := h
  split at h
  · simp at h
  · next run hrun =>
      split at h
      · simp at h
      · next howner =>
          split at h
          · obtain ⟨-, rfl⟩ := returns_ret.1 h
            exact .refl
          · next hrunning =>
              split at h
              · simp at h
              · next change hchange =>
                  obtain ⟨rfl, hallowed, -⟩ := transition_eq_some hchange
                  simp only [returns_bind, returns_assignRun, Prog.pure_eq, returns_ret] at h
                  obtain ⟨_, _, ⟨rfl, -⟩, _, v₃, hthread, _, v₄, hlease, e, _, he, -, rfl⟩ := h
                  simp only [not_not] at hrunning howner
                  refine (Moves.assignRun hrun ?_).trans ((updateThreadOf_quiet hthread).moves.trans
                    ((deleteLease_moves hlease).trans (recordRunEvent_quiet he).moves))
                  exact .released ⟨⟨rfl, rfl, rfl, rfl, rfl, kwargs_afterDrain⟩, rfl, rfl⟩
                    (by rw [hrunning]; rfl) (.inl (by simp [howner])) hallowed rfl rfl

/-- An expired lease is followed by another attempt or by an error. -/
theorem expiryChange_eq_some {run : RunRow} {change : Transition}
    (h : expiryChange run = some change) :
    change.status ∈ run.status.allowed ∧ (change.status = .pending ∨ change.status = .error) := by
  unfold expiryChange at h
  split at h <;> obtain ⟨rfl, hallowed, -⟩ := transition_eq_some h <;> simp [hallowed]

/-- An unlocked read of a thread that may be absent. -/
theorem getThreadOf_returns {t : Option ThreadId} {a : Option ThreadRow}
    (h : (getThreadOf t).Returns avail v a v') :
    a = t.bind v.threads.find? ∧ v' = v := by
  cases t with
  | none => exact returns_ret.1 h
  | some t => exact returns_getThread.1 h

/-- The thread is written as it was loaded, without a lock. -/
theorem assignLoaded_quiet {t : Option ThreadRow} {f : ThreadRow → ThreadRow} {u : Unit}
    (h : (assignLoaded t f).Returns avail v u v') : v.QuietStep v' := by
  cases t with
  | none =>
      obtain ⟨-, rfl⟩ := returns_ret.1 h
      exact .refl _
  | some t =>
      obtain ⟨rfl, -⟩ := returns_assignThread.1 h
      exact .assignThread

/-! ## Leases -/

/-- The renewal itself. `RunLeaseRow` is updated first; its count says whether the run is, too. -/
theorem renewLease_moves {expires : Time} {owner : String} {r : RunRow} {b : Bool}
    (hr : v.runs.find? id = some r) (hrunning : r.status = .running)
    (howner : r.leaseOwner = some owner)
    (h : (renewLease now expires id owner).Returns avail v b v') : Moves now S v v' := by
  simp only [renewLease, returns_bind, returns_update] at h
  obtain ⟨b, _, ⟨rfl, rfl⟩, h⟩ := h
  split at h
  · simp only [returns_bind, returns_updateRun, Prog.pure_eq, returns_ret] at h
    obtain ⟨_, _, ⟨hnone, rfl⟩ | ⟨-, -, rfl⟩, -, rfl⟩ := h
    · exact .of_sameRuns ⟨rfl, rfl, List.Subset.refl _, fun _ h => h⟩
    · refine .single (.change id (fun r' hr' => ?_) (fun r' _ hnone => ?_) (fun x hx => ?_) rfl
        (.of_subset (List.Subset.refl _) (fun x hx => ?_) fun _ _ _ _ h => h))
      · simp only [Db.updateRun, Table.find?_modify, if_true, hr, Option.map_some,
          Option.some.injEq] at hr'
        refine ⟨r, hr, ?_⟩
        rw [← hr', RunRow.renewed, if_pos howner]
        exact .renewed ⟨⟨rfl, rfl, rfl, rfl, rfl, fun _ _ => rfl⟩, rfl, rfl⟩ hrunning hrunning rfl
          (by simp [howner]) rfl
      · simp [Db.updateRun, Table.find?_modify, hr] at hnone
      · exact Db.same_of_eq (by simp only [Db.updateRun, Table.find?_modify, if_neg hx])
      · rwa [Db.updateRun, Table.isSome_find?_modify]
  · obtain ⟨-, rfl⟩ := returns_ret.1 h
    exact .of_sameRuns ⟨rfl, rfl, List.Subset.refl _, fun _ h => h⟩

/-- `renew` extends the lease of a run that its caller holds, or changes nothing. -/
theorem renew_moves {repo : RunRepository} {owner : String} {b : Bool}
    (h : (renew repo now id owner).Returns avail v b v') : Moves now S v v' := by
  simp only [renew, returns_bind, returns_lockRun] at h
  obtain ⟨_, _, ⟨rfl, rfl, -⟩, h⟩ := h
  split at h
  · obtain ⟨-, rfl⟩ := returns_ret.1 h
    exact .refl
  · next r hr =>
      split at h
      · obtain ⟨-, rfl⟩ := returns_ret.1 h
        exact .refl
      · next hheld =>
          simp only [ne_eq, Bool.or_eq_true, decide_eq_true_eq, not_or, not_not] at hheld
          exact renewLease_moves hr hheld.1 hheld.2 h

/-- The compensation after a claim. Its caller declares the execution stopped, which is what
allows the run to leave its lease. -/
theorem releaseLease_moves {th : Option ThreadId} {owner : String} {u : Unit}
    (hstop : ∀ r, r.runId = id → r.leaseOwner = some owner → S r)
    (h : (releaseLease id th owner).Returns avail v u v') : Moves now S v v' := by
  simp only [releaseLease, returns_bind, returns_lockRunIf, Bool.false_eq_true, false_and,
    and_false, or_false] at h
  obtain ⟨_, _, ⟨rfl, rfl, -⟩, h⟩ := h
  split at h
  · obtain ⟨-, rfl⟩ := returns_ret.1 h
    exact .refl
  · next r hr =>
      obtain ⟨hr, hstopped⟩ := Option.filter_eq_some_iff.1 hr
      simp only [stoppedBy, Bool.and_eq_true, decide_eq_true_eq] at hstopped
      simp only [returns_bind, returns_assignRun] at h
      obtain ⟨_, _, ⟨rfl, -⟩, _, v₁, hlease, thread, v₂, hthread, h⟩ := h
      obtain ⟨-, rfl⟩ := getThreadOf_returns hthread
      have hmove : RunMove now S r (r.assign (·.withoutLease)) :=
        .leaseReleased ⟨⟨rfl, rfl, rfl, rfl, rfl, fun _ _ => rfl⟩, rfl, rfl⟩
          (hstop r (Table.key_of_find? hr) hstopped.1) hstopped.2 rfl rfl rfl rfl
      exact (Moves.assignRun hr hmove).trans
        ((deleteLease_moves hlease).trans (assignLoaded_quiet h).moves)

/-! ## The reaper -/

/-- An event of one run leaves the row of every other. -/
theorem Db.find?_logged {e : RuntimeEventRow} {x : RunId} (hx : x ≠ id) :
    (v.logged id e).runs.find? x = v.runs.find? x := by
  simp only [Db.logged, Db.insertEvent, Db.find?_assignRun, if_neg hx, Db.assignThreadOf_runs]

/-- The same for the function: the runs that follow in the batch are still as they were picked. -/
theorem recordRunEvent_others {th : Option ThreadId} {topic : String} {payload : Dict}
    {ns : List String} {terminal : Bool} {e : RuntimeEventRow} {x : RunId} (hx : x ≠ id)
    (h : (recordRunEvent now id th topic payload ns terminal).Returns avail v e v') :
    v'.runs.find? x = v.runs.find? x := by
  obtain ⟨run, -, ⟨-, -, rfl⟩ | ⟨-, -, rfl, -⟩⟩ := recordRunEvent_returns h
  · rfl
  · exact Db.find?_logged hx

/-- The reaper's assignment ends the attempt of a running run, held or not. -/
theorem reaped_move {repo : RunRepository} {run : RunRow} {change : Transition}
    (hrunning : run.status = .running) (hchange : expiryChange run = some change) :
    RunMove now S run (run.assign (reaped repo now change)) := by
  obtain ⟨hallowed, hstatus⟩ := expiryChange_eq_some hchange
  have hne : change.status ≠ .running := by rcases hstatus with hs | hs <;> simp [hs]
  exact .released ⟨⟨rfl, rfl, rfl, rfl, rfl, fun _ _ => rfl⟩, rfl, rfl⟩ (by rw [hrunning]; rfl)
    (.inr hne) hallowed rfl rfl

/-- One run of the batch, with the frame the loop needs. -/
theorem requeueOne_moves {repo : RunRepository} {run : RunRow} {e : RuntimeEventRow}
    (hrun : v.runs.find? run.runId = some run) (hrunning : run.status = .running)
    (h : (requeueOne repo now run).Returns avail v e v') :
    Moves now S v v' ∧ ∀ x, x ≠ run.runId → v'.runs.find? x = v.runs.find? x := by
  unfold requeueOne at h
  split at h
  · simp at h
  · next change hchange =>
      simp only [returns_bind, returns_assignRun] at h
      obtain ⟨_, _, ⟨rfl, -⟩, _, v₁, hthread, h⟩ := h
      refine ⟨(Moves.assignRun hrun (reaped_move hrunning hchange)).trans
        ((updateThreadOf_quiet hthread).moves.trans (recordRunEvent_quiet h).moves), ?_⟩
      · intro x hx
        rw [recordRunEvent_others hx h, updateThreadOf_returns hthread, Db.assignThreadOf_runs,
          Db.find?_assignRun, if_neg hx]

/-- The loop, by induction on the batch. Each run occurs in it once, so it is met as it was
picked. -/
theorem requeueAll_moves {repo : RunRepository} {runs : List RunRow}
    {es : List RuntimeEventRow} (hnodup : (runs.map (·.runId)).Nodup)
    (hruns : ∀ run ∈ runs, v.runs.find? run.runId = some run ∧ run.status = .running)
    (h : (requeueAll repo now runs).Returns avail v es v') : Moves now S v v' := by
  induction runs generalizing v es with
  | nil =>
      obtain ⟨-, rfl⟩ := returns_ret.1 h
      exact .refl
  | cons run runs ih =>
      simp only [requeueAll, returns_bind, Prog.pure_eq, returns_ret] at h
      obtain ⟨e, v₁, he, rest, _, hrest, -, rfl⟩ := h
      obtain ⟨hrun, hrunning⟩ := hruns run List.mem_cons_self
      obtain ⟨hmoves, hothers⟩ := requeueOne_moves hrun hrunning he
      rw [List.map_cons, List.nodup_cons] at hnodup
      refine hmoves.trans (ih hnodup.2 (fun r hr => ?_) hrest)
      -- the runs that are left are not the one just requeued, so they are as they were picked
      have hne : r.runId ≠ run.runId := fun heq =>
        hnodup.1 (heq ▸ List.mem_map_of_mem hr)
      rw [hothers _ hne]
      exact hruns r (List.mem_cons_of_mem _ hr)

/-- The rows that `lockRuns` returns: the stored rows that satisfy `p`, each once. -/
theorem lockRuns_rows {p : RunRow → Bool} {le : RunRow → RunRow → Bool} {rows : List RunRow}
    (h : Returns avail (.perform (.lockRuns p le)) v rows v') :
    v' = v ∧ (∀ r, r ∈ rows ↔ v.runs.find? r.runId = some r ∧ p r = true ∧
      avail (.run r.runId) = true) ∧ (rows.map (·.runId)).Nodup := by
  obtain ⟨rfl, rfl⟩ := returns_lockRuns.1 h
  refine ⟨rfl, fun r => ?_, ?_⟩
  · rw [List.mem_insertionSort, List.mem_filter, Bool.and_eq_true, Table.mem_rows,
      Table.mem_iff_find?, key_run]
  · refine ((List.perm_insertionSort _ _).map _).nodup_iff.2 ?_
    exact (List.filter_sublist.map _).nodup v'.runs.nodup

/-- The reaper's transaction. -/
theorem requeueExpired_moves {repo : RunRepository} {es : List RuntimeEventRow}
    (h : (requeueExpired repo now).Returns avail v es v') : Moves now S v v' := by
  simp only [requeueExpired, returns_bind, returns_write, Prog.pure_eq, returns_ret] at h
  obtain ⟨rows, _, hrows, es, v₁, hall, _, _, rfl, -, rfl⟩ := h
  obtain ⟨rfl, hmem, hnodup⟩ := lockRuns_rows hrows
  refine (requeueAll_moves hnodup (fun run hrun => ?_) hall).trans
    (Moves.of_sameRuns ⟨rfl, rfl, List.Subset.refl _, fun _ h => h⟩)
  obtain ⟨hfind, hexpired, -⟩ := (hmem run).1 hrun
  simp only [isExpired, Bool.and_eq_true, decide_eq_true_eq] at hexpired
  exact ⟨hfind, hexpired.1⟩

/-! ## Claims -/

/-- The checkpoints of a thread are copied for a rollback; no run is touched. -/
theorem captureBaseline_returns {run : RunId} {thread : ThreadRow} {u : Unit}
    (h : (captureBaseline now run thread).Returns avail v u v') :
    v.SameRuns v' := by
  simp only [captureBaseline, returns_bind, returns_query] at h
  obtain ⟨_, _, ⟨rfl, rfl⟩, h⟩ := h
  split at h
  · obtain ⟨-, rfl⟩ := returns_ret.1 h
    exact ⟨rfl, rfl, List.Subset.refl _, fun _ h => h⟩
  · simp only [returns_bind, returns_query, returns_write] at h
    obtain ⟨_, _, ⟨rfl, rfl⟩, _, _, ⟨rfl, rfl⟩, rfl⟩ := h
    exact ⟨rfl, rfl, List.Subset.refl _, fun _ h => h⟩

/-- The thread of a claimed run is set busy, unless another run executes or rolls back on it. -/
theorem enterThread_returns {run : RunRow} {b : Bool}
    (h : (enterThread now run).Returns avail v b v') :
    v.SameRuns v' := by
  unfold enterThread at h
  split at h
  · obtain ⟨-, rfl⟩ := returns_ret.1 h
    exact ⟨rfl, rfl, List.Subset.refl _, fun _ h => h⟩
  · simp only [returns_bind, returns_lockThread] at h
    obtain ⟨_, _, ⟨rfl, rfl, -⟩, h⟩ := h
    split at h
    · obtain ⟨-, rfl⟩ := returns_ret.1 h
      exact ⟨rfl, rfl, List.Subset.refl _, fun _ h => h⟩
    · simp only [returns_bind, returns_query] at h
      obtain ⟨_, _, ⟨rfl, rfl⟩, h⟩ := h
      split at h
      · obtain ⟨-, rfl⟩ := returns_ret.1 h
        exact ⟨rfl, rfl, List.Subset.refl _, fun _ h => h⟩
      · simp only [returns_bind, returns_assignThread, Prog.pure_eq, returns_ret] at h
        obtain ⟨_, _, hcapture, _, _, ⟨rfl, -⟩, -, rfl⟩ := h
        exact (captureBaseline_returns hcapture).trans .assignThread

/-- Behind the second check a run starts, or the thread was taken and nothing happens to it. -/
theorem startRun_returns {repo : RunRepository} {owner : String} {run : RunRow}
    {a : Option RunRow} (hrun : v.runs.find? run.runId = some run)
    (heligible : eligible now v run = true) (hattempts : run.retryCount < run.maxAttempts)
    (h : (startRun repo now owner run).Returns avail v a v') :
    a = none ∧ Moves now S v v' ∨
      a = some (claimed repo now owner run) ∧ Start repo now owner run v v' := by
  simp only [startRun, returns_bind] at h
  obtain ⟨b, v₁, hb, h⟩ := h
  have hsame := enterThread_returns hb
  split at h
  · simp only [returns_bind, returns_assignRun, returns_write, returns_getRun] at h
    obtain ⟨_, _, ⟨rfl, -⟩, _, _, rfl, rfl, rfl⟩ := h
    have hrow : (v₁.assignRun run.runId (claimed repo now owner)).runs.find? run.runId =
        some (claimed repo now owner run) := by
      rw [Db.find?_assignRun, if_pos rfl, hsame.runs, hrun]
      rfl
    refine .inr ⟨hrow, hrun, heligible, hattempts, hrow, fun x hx => ?_, hsame.issued,
      hsame.events, hsame.threads⟩
    change (v₁.assignRun run.runId (claimed repo now owner)).runs.find? x = _
    rw [Db.find?_assignRun, if_neg hx, hsame.runs]
  · obtain ⟨rfl, rfl⟩ := returns_ret.1 h
    exact .inl ⟨rfl, .of_sameRuns hsame⟩

/-- A pending run without attempts left ends in error. -/
theorem exhaust_moves {run : RunRow} {u : Unit} (hrun : v.runs.find? run.runId = some run)
    (hpending : run.status = .pending) (h : (exhaust now run).Returns avail v u v') :
    Moves now S v v' := by
  simp only [exhaust, returns_bind, returns_assignRun, Prog.pure_eq, returns_ret] at h
  obtain ⟨_, _, ⟨rfl, -⟩, _, v₁, hthread, e, _, he, -, rfl⟩ := h
  have hmove : RunMove now S run (run.assign (exhausted now)) :=
    .exhausted ⟨⟨rfl, rfl, rfl, rfl, rfl, fun _ _ => rfl⟩, rfl, rfl⟩ hpending rfl rfl rfl rfl
  exact (Moves.assignRun hrun hmove).trans
    ((updateThreadOf_quiet hthread).moves.trans (recordRunEvent_quiet he).moves)

/-- The picked run: eligible, and stored as it was returned. -/
theorem pickRun_eligible {run : RunRow} {p : Db → RunRow → Bool}
    {key : RunRow → Time ×ₗ RunId}
    (h : Returns avail (.perform (.pickRun p key)) v (some run) v') :
    v' = v ∧ v.runs.find? run.runId = some run ∧ p v run = true ∧
      avail (.run run.runId) = true := by
  obtain ⟨hleast, rfl⟩ := returns_pickRun.1 h
  have hmem := List.mem_filter.1 (least_mem hleast.symm)
  rw [Bool.and_eq_true] at hmem
  exact ⟨rfl, Table.mem_iff_find?.1 hmem.1, hmem.2⟩

theorem eligible_pending {r : RunRow} (h : eligible now v r = true) : r.status = .pending := by
  simp only [eligible, Bool.and_eq_true, decide_eq_true_eq] at h
  exact h.1.1

/-- The second check only reads and locks. -/
theorem recheck_returns {run : RunRow} {b : Bool} (h : (recheck now run).Returns avail v b v') :
    v' = v := by
  unfold recheck at h
  split at h
  · exact (returns_ret.1 h).2
  · simp only [returns_bind, returns_lockThreadIf] at h
    obtain ⟨thread, _, ⟨rfl, -⟩, h⟩ := h
    split at h
    · exact (returns_ret.1 h).2
    · split at h
      · exact (returns_ret.1 h).2
      · exact (returns_query.1 h).2

/-- A claim starts the picked run, or starts none. -/
theorem claimNext_returns {repo : RunRepository} {owner : String} {a : Option RunRow}
    (h : (claimNext repo now owner).Returns avail v a v') :
    a = none ∧ Moves now S v v' ∨
      ∃ run, a = some (claimed repo now owner run) ∧ Start repo now owner run v v' := by
  simp only [claimNext, returns_bind] at h
  obtain ⟨picked, v₁, hpick, h⟩ := h
  split at h
  · obtain ⟨-, rfl⟩ := returns_pickRun.1 hpick
    obtain ⟨rfl, rfl⟩ := returns_ret.1 h
    exact .inl ⟨rfl, .refl⟩
  · next run =>
      obtain ⟨rfl, hrun, heligible, -⟩ := pickRun_eligible hpick
      simp only [returns_bind] at h
      obtain ⟨b, v₂, hb, h⟩ := h
      obtain rfl := recheck_returns hb
      split at h
      · split at h
        · simp only [returns_bind, Prog.pure_eq, returns_ret] at h
          obtain ⟨u, _, hu, rfl, rfl⟩ := h
          exact .inl ⟨rfl, exhaust_moves hrun (eligible_pending heligible) hu⟩
        · next hattempts =>
            rcases startRun_returns hrun heligible (not_le.1 hattempts) h with h | h
            · exact .inl h
            · exact .inr ⟨run, h⟩
      · obtain ⟨rfl, rfl⟩ := returns_ret.1 h
        exact .inl ⟨rfl, .refl⟩

/-- A business failure ends the run in error. -/
theorem fail_business {repo : RunRepository} {owner : String} {reason : RunReason}
    {payload : Option Dict} {e : Option RuntimeEventRow}
    (h : (fail repo now id owner false reason payload).Returns avail v e v') {r' : RunRow}
    (hr' : v'.runs.find? id = some r') : r'.status.isTerminal = true := by
  simp only [fail, returns_bind, returns_lockRun] at h
  obtain ⟨_, _, ⟨rfl, rfl, -⟩, h⟩ := h
  split at h
  · simp at h
  · next run hrun =>
      split at h
      · simp at h
      · split at h
        · next hterminal =>
            obtain ⟨-, rfl⟩ := returns_ret.1 h
            obtain rfl := Option.some.inj (hrun.symm.trans hr')
            exact hterminal
        · split at h
          · simp at h
          · next change hchange =>
              simp only [failChange, retries, Bool.false_and, Bool.false_eq_true, if_false]
                at hchange
              obtain ⟨rfl, -, -⟩ := transition_eq_some hchange
              simp only [returns_bind, returns_assignRun, Prog.pure_eq, returns_ret] at h
              obtain ⟨_, v₁, ⟨hv₁, -⟩, _, v₂, hlease, e, _, he, -, rfl⟩ := h
              -- back from the last row to the assignment: event and lease leave the status
              obtain ⟨r, hr, hq⟩ := (recordRunEvent_quiet he).runs id |>.source r' hr'
              rw [deleteLease_returns hlease] at hr
              rw [hq.status]
              change v₁.runs.find? id = some r at hr
              rw [hv₁, Db.find?_assignRun, if_pos rfl, hrun] at hr
              rw [← Option.some.inj hr]
              rfl

/-- What follows a claim in its transaction: the run is returned, or its assistant is gone and it
fails. -/
theorem enterRun_returns {repo : RunRepository} {owner : String} {valid : Bool} {run : RunRow}
    {a : Option RunRow} (h : (enterRun repo now owner valid run).Returns avail v a v') :
    Moves now S v v' ∧ (∀ r, a = some r → r = run ∧ v.QuietStep v') ∧
      (a = none → ∀ r', v'.runs.find? run.runId = some r' → r'.status.isTerminal = true) := by
  simp only [enterRun, returns_bind, returns_query] at h
  obtain ⟨thread, v₁, hthread, _, _, ⟨rfl, rfl⟩, h⟩ := h
  obtain ⟨-, rfl⟩ := getThreadOf_returns hthread
  split at h
  · simp only [returns_bind, Prog.pure_eq, returns_ret] at h
    obtain ⟨e, _, he, rfl, rfl⟩ := h
    exact ⟨fail_moves he, by simp, fun _ r' hr' => fail_business he hr'⟩
  · split at h
    · obtain ⟨rfl, rfl⟩ := returns_ret.1 h
      exact ⟨.refl, fun r hr => ⟨(Option.some.inj hr).symm, .refl _⟩, by simp⟩
    · simp only [returns_bind, returns_assignThread, Prog.pure_eq, returns_ret] at h
      obtain ⟨_, _, ⟨rfl, -⟩, rfl, rfl⟩ := h
      exact ⟨Db.QuietStep.assignThread.moves,
        fun r hr => ⟨(Option.some.inj hr).symm, .assignThread⟩, by simp⟩

/-- What the claiming transaction returns: the started run, unless it failed at once. -/
def ClaimReply (repo : RunRepository) (now : Time) (owner : String) (run : RunRow)
    (a : Option RunRow) (v₁ v' : Db) : Prop :=
  (a = none ∧ ∀ r', v'.runs.find? run.runId = some r' → r'.status.isTerminal = true) ∨
    a = some (claimed repo now owner run) ∧ v₁.QuietStep v'

/-- The claiming transaction: a `Start` and moves, or moves only and no run. -/
theorem claimRun_returns {repo : RunRepository} {owner : String} {valid : Bool}
    {a : Option RunRow} (h : (claimRun repo now owner valid).Returns avail v a v') :
    a = none ∧ Moves now S v v' ∨
      ∃ run v₁, Start repo now owner run v v₁ ∧ Moves now S v₁ v' ∧
        ClaimReply repo now owner run a v₁ v' := by
  simp only [claimRun, returns_bind] at h
  obtain ⟨claim, v₁, hclaim, h⟩ := h
  rcases claimNext_returns hclaim with ⟨rfl, hmoves⟩ | ⟨run, rfl, hstart⟩
  · obtain ⟨rfl, rfl⟩ := returns_ret.1 h
    exact .inl ⟨rfl, hmoves⟩
  · obtain ⟨hmoves, hrow, hnone⟩ := enterRun_returns h
    refine .inr ⟨run, v₁, hstart, hmoves, ?_⟩
    cases a with
    | none => exact .inl ⟨rfl, hnone rfl⟩
    | some r =>
        obtain ⟨rfl, hquiet⟩ := hrow r rfl
        exact .inr ⟨rfl, hquiet⟩

/-! ## Published events -/

/-- Drawing a number writes the thread's counter. -/
theorem nextThreadSequence_quiet {t : ThreadId} {n : Nat}
    (h : (nextThreadSequence t).Returns avail v n v') : v.QuietStep v' := by
  rw [(nextThreadSequence_returns h).2]
  exact .assignThread

/-- An event of a thread belongs to no run. -/
theorem recordThreadEvent_quiet {t : ThreadId} {topic : String} {payload : Dict}
    {ns : List String} {terminal : Bool} {e : RuntimeEventRow}
    (h : (recordThreadEvent now t topic payload ns terminal).Returns avail v e v') :
    v.QuietStep v' := by
  simp only [recordThreadEvent, returns_bind, returns_insertEvent, Prog.pure_eq, returns_ret] at h
  obtain ⟨n, v₁, hn, _, _, ⟨rfl, -⟩, -, rfl⟩ := h
  obtain ⟨⟨thread, hthread, -⟩, -⟩ := nextThreadSequence_returns hn
  refine (nextThreadSequence_quiet hn).trans (.insertEvent (fun x hx => by cases hx) ?_)
  rintro x hx
  obtain rfl : t = x := Option.some.inj hx
  rw [(nextThreadSequence_quiet hn).threads, hthread]
  rfl

/-- The deltas are inserted one by one; each refers to a stored run and thread. -/
theorem insertEvents_quiet {es : List RuntimeEventRow} {u : Unit}
    (hes : ∀ e ∈ es, ∀ x, e.runId = some x →
      ∃ r, v.runs.find? x = some r ∧ e.threadId = r.threadId)
    (hts : ∀ e ∈ es, ∀ t, e.threadId = some t → (v.threads.find? t).isSome)
    (h : (insertEvents es).Returns avail v u v') : v.QuietStep v' := by
  induction es generalizing v with
  | nil =>
      obtain ⟨-, rfl⟩ := returns_ret.1 h
      exact .refl _
  | cons e es ih =>
      simp only [insertEvents, returns_bind, returns_insertEvent] at h
      obtain ⟨_, _, ⟨rfl, -⟩, h⟩ := h
      have hinsert := Db.QuietStep.insertEvent (hes e List.mem_cons_self) (hts e List.mem_cons_self)
      exact hinsert.trans (ih (fun e' he' => hes e' (List.mem_cons_of_mem _ he'))
        (fun e' he' => hts e' (List.mem_cons_of_mem _ he')) h)

/-- Every row of the batch belongs to the run and thread it was built for. -/
theorem deltaRows_mem {th : Option ThreadId} {n : Nat} {events : List (Dict × List String)}
    {e : RuntimeEventRow} (he : e ∈ deltaRows now id th n events) :
    e.runId = some id ∧ e.threadId = th := by
  induction events generalizing n with
  | nil => simp [deltaRows] at he
  | cons x xs ih =>
      rcases List.mem_cons.1 he with rfl | he
      · exact ⟨rfl, rfl⟩
      · exact ih he

/-- The last number of the log, read under the lock of the thread. -/
theorem lastSequence_returns {run : RunRow} {n : Nat}
    (h : (lastSequence run).Returns avail v n v') :
    v' = v ∧ ∀ t, run.threadId = some t → (v.threads.find? t).isSome := by
  unfold lastSequence at h
  split at h
  · next t ht =>
      simp only [returns_bind, returns_lockThread] at h
      obtain ⟨_, _, ⟨rfl, rfl, -⟩, h⟩ := h
      split at h
      · simp at h
      · next thread hthread =>
          simp only [returns_bind, returns_query, Prog.pure_eq, returns_ret] at h
          obtain ⟨_, _, ⟨-, rfl⟩, -, rfl⟩ := h
          refine ⟨rfl, fun x hx => ?_⟩
          rw [ht] at hx
          simp [← Option.some.inj hx, hthread]
  · next ht =>
      simp only [returns_bind, returns_query, Prog.pure_eq, returns_ret] at h
      obtain ⟨_, _, ⟨-, rfl⟩, -, rfl⟩ := h
      exact ⟨rfl, by simp [ht]⟩

/-- The counter of the thread after the batch. -/
theorem assignThreadOf_quiet {t : Option ThreadId} {f : ThreadRow → ThreadRow} {u : Unit}
    (h : (assignThreadOf t f).Returns avail v u v') : v.QuietStep v' := by
  cases t with
  | none =>
      obtain ⟨-, rfl⟩ := returns_ret.1 h
      exact .refl _
  | some t =>
      obtain ⟨rfl, -⟩ := returns_assignThread.1 h
      exact .assignThread

/-- The batch of message deltas. -/
theorem recordMessageDeltas_quiet {th : Option ThreadId} {events : List (Dict × List String)}
    {es : List RuntimeEventRow}
    (h : (recordMessageDeltas now id th events).Returns avail v es v') : v.QuietStep v' := by
  unfold recordMessageDeltas at h
  split at h
  · obtain ⟨-, rfl⟩ := returns_ret.1 h
    exact .refl _
  · simp only [returns_bind, returns_lockRun] at h
    obtain ⟨_, _, ⟨rfl, rfl, -⟩, h⟩ := h
    split at h
    · simp at h
    · next run hrun =>
        split at h
        · simp at h
        · simp only [returns_bind, returns_assignRun, Prog.pure_eq, returns_ret] at h
          obtain ⟨n, v₀, hn, _, v₁, ⟨hv₁, -⟩, _, v₂, hthread, _, v₃, hinsert, -, rfl⟩ := h
          obtain ⟨rfl, hthreads⟩ := lastSequence_returns hn
          have hnumbered (r : RunRow) : r.Quiet (r.assign (.renumbered (n + events.length))) :=
            ⟨⟨rfl, rfl, rfl, rfl, rfl, fun _ _ => rfl⟩, rfl, rfl, rfl, rfl, rfl, rfl, rfl⟩
          -- the counters of the run and its thread first, the rows after them
          have hquiet : v₀.QuietStep v₂ :=
            (hv₁ ▸ Db.QuietStep.assignRun hnumbered).trans (assignThreadOf_quiet hthread)
          obtain ⟨run', hrun', hq⟩ := hquiet.find? hrun
          refine hquiet.trans (insertEvents_quiet (fun e he x hx => ?_) (fun e he t ht => ?_)
            hinsert)
          · obtain ⟨hid, hth⟩ := deltaRows_mem he
            rw [hid] at hx
            exact ⟨run', Option.some.inj hx ▸ hrun', hth.trans hq.threadId.symm⟩
          · rw [hquiet.threads]
            exact hthreads t ((deltaRows_mem he).2 ▸ ht)

/-- Other events are recorded one after the other. -/
theorem recordAll_quiet {th : Option ThreadId} {events : List PublishedEvent}
    {es : List RuntimeEventRow} (h : (recordAll now id th events).Returns avail v es v') :
    v.QuietStep v' := by
  induction events generalizing v es with
  | nil =>
      obtain ⟨-, rfl⟩ := returns_ret.1 h
      exact .refl _
  | cons e events ih =>
      simp only [recordAll, returns_bind, Prog.pure_eq, returns_ret] at h
      obtain ⟨e, v₁, he, rest, _, hrest, -, rfl⟩ := h
      exact (recordRunEvent_quiet he).trans (ih hrest)

/-- Publishing in both of its forms. -/
theorem publishEvents_quiet {th : Option ThreadId} {events : List PublishedEvent}
    {es : List RuntimeEventRow} (h : (publishEvents now id th events).Returns avail v es v') :
    v.QuietStep v' := by
  unfold publishEvents at h
  split at h
  · exact recordMessageDeltas_quiet h
  · exact recordAll_quiet h

/-- The run keeps the highest number that was deleted from its log. -/
theorem markPruned_moves {run : RunRow} {deleted : List Nat} {u : Unit}
    (h : (markPruned run deleted).Returns avail v u v') : Moves now S v v' := by
  simp only [markPruned, returns_bind, returns_assignRun] at h
  obtain ⟨_, v₁, ⟨rfl, -⟩, h⟩ := h
  have hpruned (r : RunRow) : r.Quiet (r.assign (.prunedThrough (deleted.foldr max 0))) :=
    ⟨⟨rfl, rfl, rfl, rfl, rfl, fun _ _ => rfl⟩, rfl, rfl, rfl, rfl, rfl, rfl, rfl⟩
  have hquiet : v.QuietStep (v.assignRun run.runId (.prunedThrough (deleted.foldr max 0))) :=
    .assignRun hpruned
  refine hquiet.moves.trans ?_
  split at h
  · obtain ⟨-, rfl⟩ := returns_ret.1 h
    exact .refl
  · rcases returns_updateThread.1 h with ⟨-, rfl⟩ | ⟨-, -, rfl⟩
    · exact .refl
    · exact Moves.of_sameRuns ⟨rfl, rfl, List.Subset.refl _,
        fun x hx => Db.isSome_updateThread.trans hx⟩

/-- The retention job deletes events and marks their run. No stored event loses its run. -/
theorem pruneExpiredEvents_moves {retentionSeconds batchSize n : Nat}
    (h : (pruneExpiredEvents now retentionSeconds batchSize).Returns avail v n v') :
    Moves now S v v' := by
  unfold pruneExpiredEvents at h
  split at h
  · obtain ⟨-, rfl⟩ := returns_ret.1 h
    exact .refl
  · simp only [returns_bind, returns_pickRun] at h
    obtain ⟨picked, _, ⟨-, rfl⟩, h⟩ := h
    split at h
    · obtain ⟨-, rfl⟩ := returns_ret.1 h
      exact .refl
    · next run =>
        simp only [returns_bind, returns_query] at h
        obtain ⟨_, _, ⟨rfl, rfl⟩, h⟩ := h
        split at h
        · obtain ⟨-, rfl⟩ := returns_ret.1 h
          exact .refl
        · simp only [returns_bind, deleteEvents, returns_update] at h
          obtain ⟨deleted, _, ⟨-, rfl⟩, h⟩ := h
          split at h
          · obtain ⟨-, rfl⟩ := returns_ret.1 h
            exact .of_sameRuns ⟨rfl, rfl, fun _ he => (List.mem_filter.1 he).1, fun _ h => h⟩
          · simp only [returns_bind, Prog.pure_eq, returns_ret] at h
            obtain ⟨_, _, hmark, -, rfl⟩ := h
            refine Relation.ReflTransGen.trans ?_ (markPruned_moves hmark)
            exact Moves.of_sameRuns ⟨rfl, rfl, fun _ he => (List.mem_filter.1 he).1, fun _ h => h⟩

/-! ## Finalisation -/

/-- The end of a successful attempt with the thread's values. -/
theorem finalizeSuccess_moves {th : Option ThreadId} {owner : String} {out : GraphOutput}
    {es : List RuntimeEventRow}
    (h : (finalizeSuccess now id th owner out).Returns avail v es v') : Moves now S v v' := by
  simp only [finalizeSuccess, returns_bind, returns_getRun] at h
  obtain ⟨_, _, ⟨rfl, rfl⟩, thread, _, hthread, h⟩ := h
  obtain ⟨-, rfl⟩ := getThreadOf_returns hthread
  split at h
  · obtain ⟨-, rfl⟩ := returns_ret.1 h
    exact .refl
  · split at h
    · obtain ⟨-, rfl⟩ := returns_ret.1 h
      exact .refl
    · simp only [returns_bind] at h
      obtain ⟨events, v₁, hfinish, h⟩ := h
      refine (finish_moves hfinish).trans ?_
      split at h
      · obtain ⟨-, rfl⟩ := returns_ret.1 h
        exact .refl
      · simp only [returns_bind, Prog.pure_eq, returns_ret] at h
        obtain ⟨_, _, hproject, -, rfl⟩ := h
        exact (assignLoaded_quiet hproject).moves

/-- The end of a cancelled attempt. -/
theorem finalizeCancelled_moves {th : Option ThreadId} {owner : String}
    {es : List RuntimeEventRow}
    (h : (finalizeCancelled now id th owner).Returns avail v es v') : Moves now S v v' := by
  simp only [finalizeCancelled, returns_bind, returns_getRun] at h
  obtain ⟨_, _, ⟨rfl, rfl⟩, h⟩ := h
  split at h
  · obtain ⟨-, rfl⟩ := returns_ret.1 h
    exact .refl
  · split at h
    · obtain ⟨-, rfl⟩ := returns_ret.1 h
      exact .refl
    · simp only [returns_bind] at h
      obtain ⟨events, v₁, hfinish, h⟩ := h
      refine (finish_moves hfinish).trans ?_
      split at h
      · obtain ⟨-, rfl⟩ := returns_ret.1 h
        exact .refl
      · simp only [returns_bind, Prog.pure_eq, returns_ret] at h
        obtain ⟨thread, _, hthread, _, _, hproject, -, rfl⟩ := h
        obtain ⟨-, rfl⟩ := getThreadOf_returns hthread
        exact (assignLoaded_quiet hproject).moves

/-- A timeout is an end, any other failure goes through `fail`. -/
theorem endFailed_moves {repo : RunRepository} {run : RunRow} {owner : String}
    {failure : Failure} {type message : String} {es : List RuntimeEventRow}
    (h : (endFailed repo now run owner failure type message).Returns avail v es v') :
    Moves now S v v' := by
  cases failure <;>
    simp only [endFailed, returns_bind, Prog.pure_eq, returns_ret] at h <;>
    obtain ⟨_, _, h, -, rfl⟩ := h
  · exact finish_moves h
  · exact fail_moves h
  · exact fail_moves h

/-- The end of a failed attempt with the thread's error. -/
theorem finalizeFailure_moves {repo : RunRepository} {th : Option ThreadId} {owner : String}
    {failure : Failure} {type message : String} {es : List RuntimeEventRow}
    (h : (finalizeFailure repo now id th owner failure type message).Returns avail v es v') :
    Moves now S v v' := by
  simp only [finalizeFailure, returns_bind, returns_getRun] at h
  obtain ⟨_, _, ⟨rfl, rfl⟩, h⟩ := h
  split at h
  · obtain ⟨-, rfl⟩ := returns_ret.1 h
    exact .refl
  · split at h
    · obtain ⟨-, rfl⟩ := returns_ret.1 h
      exact .refl
    · simp only [returns_bind] at h
      obtain ⟨thread, _, hthread, _, v₁, hassign, h⟩ := h
      obtain ⟨-, rfl⟩ := getThreadOf_returns hthread
      exact (assignLoaded_quiet hassign).moves.trans (endFailed_moves h)

/-- A run whose context token cannot be opened fails for good. -/
theorem failInvalidContext_moves {repo : RunRepository} {owner type message : String}
    {es : List RuntimeEventRow}
    (h : (failInvalidContext repo now id owner type message).Returns avail v es v') :
    Moves now S v v' := by
  simp only [failInvalidContext, returns_bind, Prog.pure_eq, returns_ret] at h
  obtain ⟨_, _, h, -, rfl⟩ := h
  exact fail_moves h

/-! ## Rollback and cancellation -/

/-- A run may go when its execution has stopped or its lease is over. -/
theorem deleteRun_moves {u : Unit}
    (hstop : ∀ r, v.runs.find? id = some r → S r ∨ holdsLease now r = false)
    (h : (deleteRun id).Returns avail v u v') : Moves now S v v' := by
  rcases returns_deleteRun.1 h with ⟨-, rfl⟩ | ⟨-, -, rfl⟩
  · exact .refl
  · exact Moves.deleteRun hstop

/-- A rollback to a captured state deletes the run after its checkpoints. -/
theorem rollbackTo_moves {b : RunCheckpointBaselineRow} {validateOnly : Bool} {u : Unit}
    (hstop : ∀ r, v.runs.find? b.runId = some r → S r ∨ holdsLease now r = false)
    (h : (rollbackTo b validateOnly).Returns avail v u v') : Moves now S v v' := by
  simp only [rollbackTo, returns_bind, returns_query] at h
  obtain ⟨_, _, ⟨rfl, rfl⟩, h⟩ := h
  split at h
  · simp at h
  · simp only [returns_bind, returns_query] at h
    obtain ⟨_, _, ⟨rfl, rfl⟩, h⟩ := h
    split at h
    · simp at h
    · split at h
      · obtain ⟨-, rfl⟩ := returns_ret.1 h
        exact .refl
      · simp only [returns_bind, returns_write, returns_assignThread] at h
        obtain ⟨_, _, rfl, _, _, ⟨rfl, -⟩, h⟩ := h
        refine Relation.ReflTransGen.trans ?_ (deleteRun_moves ?_ h)
        · refine Relation.ReflTransGen.trans ?_ Db.QuietStep.assignThread.moves
          exact Moves.of_sameRuns ⟨rfl, rfl, List.Subset.refl _, fun _ h => h⟩
        · exact hstop

/-- A rollback in all its branches: with a baseline, without one, and without a thread. -/
theorem rollbackRun_moves {run : RunRow} {validateOnly : Bool} {u : Unit}
    (hstop : ∀ r, v.runs.find? run.runId = some r → S r ∨ holdsLease now r = false)
    (h : (rollbackRun run validateOnly).Returns avail v u v') : Moves now S v v' := by
  unfold rollbackRun at h
  split at h
  · split at h
    · obtain ⟨-, rfl⟩ := returns_ret.1 h
      exact .refl
    · exact deleteRun_moves hstop h
  · simp only [returns_bind, returns_lockThread] at h
    obtain ⟨_, _, ⟨rfl, rfl, -⟩, h⟩ := h
    split at h
    · simp at h
    · simp only [returns_bind, returns_query] at h
      obtain ⟨_, _, ⟨rfl, rfl⟩, h⟩ := h
      split at h
      · simp at h
      · simp only [returns_bind, returns_query] at h
        obtain ⟨_, _, ⟨rfl, rfl⟩, h⟩ := h
        split at h
        · next b hb =>
            have hid : b.runId = run.runId := Table.key_of_find? hb
            exact rollbackTo_moves (hid ▸ hstop) h
        · split at h
          · simp at h
          · split at h
            · obtain ⟨-, rfl⟩ := returns_ret.1 h
              exact .refl
            · exact deleteRun_moves hstop h

/-- A rollback that only validates changes nothing. -/
theorem rollbackRun_validate {run : RunRow} {u : Unit}
    (h : (rollbackRun run true).Returns avail v u v') : v' = v := by
  unfold rollbackRun at h
  split at h
  · exact (returns_ret.1 h).2
  · simp only [returns_bind, returns_lockThread] at h
    obtain ⟨_, _, ⟨rfl, rfl, -⟩, h⟩ := h
    split at h
    · simp at h
    · simp only [returns_bind, returns_query] at h
      obtain ⟨_, _, ⟨rfl, rfl⟩, h⟩ := h
      split at h
      · simp at h
      · simp only [returns_bind, returns_query] at h
        obtain ⟨_, _, ⟨rfl, rfl⟩, h⟩ := h
        split at h
        · simp only [rollbackTo, returns_bind, returns_query] at h
          obtain ⟨_, _, ⟨rfl, rfl⟩, h⟩ := h
          split at h
          · simp at h
          · simp only [returns_bind, returns_query] at h
            obtain ⟨_, _, ⟨rfl, rfl⟩, h⟩ := h
            split at h
            · simp at h
            · exact (returns_ret.1 h).2
        · split at h
          · simp at h
          · exact (returns_ret.1 h).2

/-- A run whose execution has stopped is declared so, or its lease is over. -/
theorem hasStopped_cases {owner : Option String} {r : RunRow}
    (h : hasStopped now owner r = true) :
    (owner.isSome ∧ r.leaseOwner = owner) ∨ holdsLease now r = false := by
  simp only [hasStopped, Bool.or_eq_true, Bool.and_eq_true, decide_eq_true_eq] at h
  rcases h with (h | h) | h
  · exact .inr (by simp [holdsLease, Option.isNone_iff_eq_none.1 h])
  · exact .inl h
  · refine .inr ?_
    cases he : r.leaseExpiresAt with
    | none => simp [holdsLease, he]
    | some e =>
        simp only [he, decide_eq_true_eq] at h
        simp [holdsLease, he, h]

/-- The rollback of the worker itself, once its execution has stopped. -/
theorem completeRollback_moves {owner : Option String} {u : Unit}
    (hstop : ∀ r, r.runId = id → owner.isSome → r.leaseOwner = owner → S r)
    (h : (completeRollback now owner id).Returns avail v u v') : Moves now S v v' := by
  simp only [completeRollback, returns_bind, returns_lockRunIf] at h
  obtain ⟨a, _, ⟨rfl, ha⟩, h⟩ := h
  split at h
  · obtain ⟨-, rfl⟩ := returns_ret.1 h
    exact .refl
  · next run =>
      obtain ⟨hrun, -⟩ : some run = _ ∧ _ := by simpa using ha
      have hfind := (Option.filter_eq_some_iff.1 hrun.symm).1
      split at h
      · next hstopped =>
          refine rollbackRun_moves (fun r hr => ?_) h
          obtain rfl : run.runId = id := Table.key_of_find? hfind
          obtain rfl := Option.some.inj (hfind.symm.trans hr)
          rcases hasStopped_cases hstopped with ⟨hsome, howner⟩ | hover
          · -- the worker itself reports that it has stopped
            exact .inl (hstop run rfl hsome howner)
          · exact .inr hover
      · obtain ⟨-, rfl⟩ := returns_ret.1 h
        exact .refl

/-- The mirror of a running run stays with its lease. -/
theorem deleteLeaseUnless_moves {b : Bool} {u : Unit}
    (h : (deleteLeaseUnless b id).Returns avail v u v') : Moves now S v v' := by
  cases b with
  | true =>
      obtain ⟨-, rfl⟩ := returns_ret.1 h
      exact .refl
  | false => exact deleteLease_moves h

/-- An interrupt ends the run, which keeps its lease while it is running. -/
theorem interruptRow_moves {row : RunRow} {u : Unit}
    (hrow : v.runs.find? row.runId = some row)
    (h : (interruptRow now row).Returns avail v u v') : Moves now S v v' := by
  unfold interruptRow at h
  split at h
  · obtain ⟨-, rfl⟩ := returns_ret.1 h
    exact .refl
  · next hlive =>
      split at h
      · simp at h
      · next change hchange =>
          obtain ⟨rfl, -, -⟩ := transition_eq_some hchange
          simp only [returns_bind, returns_assignRun, Prog.pure_eq, returns_ret] at h
          obtain ⟨_, _, ⟨rfl, -⟩, _, v₁, hlease, e, _, he, -, rfl⟩ := h
          refine (Moves.assignRun hrow ?_).trans
            ((deleteLeaseUnless_moves hlease).trans (recordRunEvent_quiet he).moves)
          refine .interrupted ⟨⟨rfl, rfl, rfl, rfl, rfl, fun _ _ => rfl⟩, rfl, rfl⟩
            (by simpa using hlive)
            rfl rfl ?_
          -- `was_running`: the lease stays until the worker has noticed
          by_cases hrunning : row.status = .running
          · exact .inl ⟨hrunning, by simp [RunRow.assign, RunRow.interruptedBy, hrunning]⟩
          · exact .inr (by simp [RunRow.assign, RunRow.interruptedBy, hrunning])

/-- A rollback of a run that is not held removes it; a held one is only marked. -/
theorem rollbackRow_moves {row : RunRow} {u : Unit}
    (hrow : v.runs.find? row.runId = some row)
    (h : (rollbackRow now row).Returns avail v u v') : Moves now S v v' := by
  simp only [rollbackRow, returns_bind] at h
  obtain ⟨_, v₁, hvalidate, h⟩ := h
  obtain rfl := rollbackRun_validate hvalidate
  split at h
  · -- nobody holds the run, so its lease needs no declaration
    next howner =>
      refine rollbackRun_moves (fun r hr => .inr ?_) h
      obtain rfl := Option.some.inj (hrow.symm.trans hr)
      simp [holdsLease, Option.isNone_iff_eq_none.1 howner]
  · next howner =>
      obtain ⟨rfl, -⟩ := returns_assignRun.1 h
      exact .assignRun hrow (.rollingBack ⟨⟨rfl, rfl, rfl, rfl, rfl, fun _ _ => rfl⟩, rfl, rfl⟩
        (by simpa [Option.isSome_iff_ne_none] using howner) rfl rfl rfl rfl)

/-- Both actions on the locked row. -/
theorem cancelRow_moves {action : CancelAction} {u : Unit}
    (h : (cancelRow now id action).Returns avail v u v') : Moves now S v v' := by
  simp only [cancelRow, returns_bind, returns_lockRunIf] at h
  obtain ⟨a, _, ⟨rfl, ⟨rfl, -⟩ | ⟨-, hskip, -⟩⟩, h⟩ := h
  · split at h
    · obtain ⟨-, rfl⟩ := returns_ret.1 h
      exact .refl
    · next row hrow =>
        have hfind := (Option.filter_eq_some_iff.1 hrow).1
        obtain rfl : row.runId = id := Table.key_of_find? hfind
        cases action with
        | rollback => exact rollbackRow_moves hfind h
        | interrupt => exact interruptRow_moves hfind h
  · cases hskip

/-! ### The cancelled run -/

/-- The row is deleted whatever else happens. -/
theorem deleteRun_gone {u : Unit} (h : (deleteRun id).Returns avail v u v') :
    v'.runs.find? id = none := by
  rcases returns_deleteRun.1 h with ⟨hnone, rfl⟩ | ⟨-, -, rfl⟩
  · exact hnone
  · simp [Db.deleteRun, Table.find?_erase]

/-- With a baseline the run is removed last. -/
theorem rollbackTo_gone {b : RunCheckpointBaselineRow} {u : Unit}
    (h : (rollbackTo b false).Returns avail v u v') : v'.runs.find? b.runId = none := by
  simp only [rollbackTo, returns_bind, returns_query] at h
  obtain ⟨_, _, ⟨rfl, rfl⟩, h⟩ := h
  split at h
  · simp at h
  · simp only [returns_bind, returns_query] at h
    obtain ⟨_, _, ⟨rfl, rfl⟩, h⟩ := h
    split at h
    · simp at h
    · simp only [Bool.false_eq_true, if_false, returns_bind] at h
      obtain ⟨_, _, -, _, _, -, h⟩ := h
      exact deleteRun_gone h

/-- A rollback that commits removes its run. -/
theorem rollbackRun_gone {run : RunRow} {u : Unit}
    (h : (rollbackRun run false).Returns avail v u v') : v'.runs.find? run.runId = none := by
  unfold rollbackRun at h
  split at h
  · exact deleteRun_gone h
  · simp only [returns_bind, returns_lockThread] at h
    obtain ⟨_, _, ⟨rfl, rfl, -⟩, h⟩ := h
    split at h
    · simp at h
    · simp only [returns_bind, returns_query] at h
      obtain ⟨_, _, ⟨rfl, rfl⟩, h⟩ := h
      split at h
      · simp at h
      · simp only [returns_bind, returns_query] at h
        obtain ⟨_, _, ⟨rfl, rfl⟩, h⟩ := h
        split at h
        · next b hb =>
            have hid : b.runId = run.runId := Table.key_of_find? hb
            exact hid ▸ rollbackTo_gone h
        · split at h
          · simp at h
          · exact deleteRun_gone h

/-- The run `id` ended; unless it was pending, with the lease of `r`. -/
def Db.Ended (v : Db) (id : RunId) (r : RunRow) : Prop :=
  ∃ r', v.runs.find? id = some r' ∧ r'.threadId = r.threadId ∧ r'.status.isTerminal = true ∧
    (r.status ≠ .pending → r'.leaseOwner = r.leaseOwner ∧ r'.leaseExpiresAt = r.leaseExpiresAt)

/-- An interrupted run has a terminal status when the cancel commits. -/
theorem interruptRow_ended {row : RunRow} {u : Unit}
    (hrow : v.runs.find? row.runId = some row)
    (h : (interruptRow now row).Returns avail v u v') : v'.Ended row.runId row := by
  unfold interruptRow at h
  split at h
  · next hterminal =>
      obtain ⟨-, rfl⟩ := returns_ret.1 h
      exact ⟨row, hrow, rfl, hterminal, fun _ => ⟨rfl, rfl⟩⟩
  · next hlive =>
      split at h
      · simp at h
      · next change hchange =>
          obtain ⟨rfl, -, -⟩ := transition_eq_some hchange
          simp only [returns_bind, returns_assignRun, Prog.pure_eq, returns_ret] at h
          obtain ⟨_, v₁, ⟨hv₁, -⟩, _, v₂, hlease, e, _, he, -, rfl⟩ := h
          have hfind : v₂.runs.find? row.runId = some (row.assign (.interruptedBy now
              ⟨.interrupted, .cancelRequested, row.retryCount⟩ (row.status = .running))) := by
            have hruns : v₂.runs = v₁.runs := by
              unfold deleteLeaseUnless at hlease
              split at hlease
              · rw [(returns_ret.1 hlease).2]
              · rw [deleteLease_returns hlease]
                rfl
            rw [hruns, hv₁, Db.find?_assignRun, if_pos rfl, hrow]
            rfl
          obtain ⟨r', hr', hquiet⟩ := (recordRunEvent_quiet he).find? hfind
          refine ⟨r', hr', hquiet.threadId, by rw [hquiet.status]; rfl, fun hp => ?_⟩
          -- a live run that is not pending is running, and that is the case that keeps the lease
          have hrunning : row.status = .running := by
            rcases RunStatus.isTerminal_eq_false.1 (by simpa using hlive) with hs | hs
            · exact absurd hs hp
            · exact hs
          rw [hquiet.leaseOwner, hquiet.leaseExpiresAt]
          simp [RunRow.assign, RunRow.interruptedBy, hrunning]

/-- A run that is marked for a rollback has a terminal status as well. -/
theorem rollbackRow_ended {row : RunRow} {u : Unit}
    (hrow : v.runs.find? row.runId = some row)
    (h : (rollbackRow now row).Returns avail v u v') :
    (row.leaseOwner = none ∧ v'.runs.find? row.runId = none) ∨ v'.Ended row.runId row := by
  simp only [rollbackRow, returns_bind] at h
  obtain ⟨_, v₁, hvalidate, h⟩ := h
  obtain rfl := rollbackRun_validate hvalidate
  split at h
  · next howner => exact .inl ⟨Option.isNone_iff_eq_none.1 howner, rollbackRun_gone h⟩
  · obtain ⟨rfl, -⟩ := returns_assignRun.1 h
    refine .inr ⟨row.assign (.rollingBack now), ?_, rfl, rfl, fun _ => ⟨rfl, rfl⟩⟩
    rw [Db.find?_assignRun, if_pos rfl, hrow]
    rfl

/-- A cancel that commits ends the run, or removes it when it holds no lease. -/
theorem cancelRow_ended {row : RunRow} {action : CancelAction} {u : Unit}
    (hrow : v.runs.find? id = some row) (h : (cancelRow now id action).Returns avail v u v') :
    (row.leaseOwner = none ∧ v'.runs.find? id = none) ∨ v'.Ended id row := by
  obtain rfl : row.runId = id := Table.key_of_find? hrow
  simp only [cancelRow, returns_bind, returns_lockRunIf] at h
  obtain ⟨a, _, ⟨rfl, ⟨rfl, -⟩ | ⟨-, hskip, -⟩⟩, h⟩ := h
  · rw [hrow] at h
    cases action with
    | rollback => exact rollbackRow_ended hrow h
    | interrupt => exact .inr (interruptRow_ended hrow h)
  · cases hskip

/-- The run is found if it is stored and so is its thread. -/
theorem authorizedRun_returns {a : Option RunRow}
    (h : (authorizedRun id).Returns avail v a v') :
    v' = v ∧ ∀ r, a = some r → v.runs.find? id = some r ∧
      ∀ t, r.threadId = some t → (v.threads.find? t).isSome := by
  simp only [authorizedRun, returns_bind, returns_getRun] at h
  obtain ⟨_, _, ⟨rfl, rfl⟩, h⟩ := h
  split at h
  · obtain ⟨rfl, rfl⟩ := returns_ret.1 h
    exact ⟨rfl, by simp⟩
  · next row hrow =>
      split at h
      · next hthread =>
          obtain ⟨rfl, rfl⟩ := returns_ret.1 h
          exact ⟨rfl, fun r hr => by cases hr; exact ⟨hrow, by simp [hthread]⟩⟩
      · next t hthread =>
          simp only [returns_bind, returns_query, Prog.pure_eq, returns_ret] at h
          obtain ⟨_, _, ⟨rfl, rfl⟩, rfl, rfl⟩ := h
          refine ⟨rfl, fun r hr => ?_⟩
          split at hr
          · next hsome =>
              cases hr
              refine ⟨hrow, fun t' ht' => ?_⟩
              rw [hthread] at ht'
              cases ht'
              exact hsome
          · simp at hr

/-- `runs_cancel` does what `_cancel_row` does, or finds no run. -/
theorem runsCancel_moves {action : CancelAction} {b : Bool}
    (h : (runsCancel now id action).Returns avail v b v') : Moves now S v v' := by
  simp only [runsCancel, returns_bind] at h
  obtain ⟨row, _, hrow, h⟩ := h
  obtain ⟨rfl, -⟩ := authorizedRun_returns hrow
  split at h
  · obtain ⟨-, rfl⟩ := returns_ret.1 h
    exact .refl
  · simp only [returns_bind, Prog.pure_eq, returns_ret] at h
    obtain ⟨_, _, hcancel, -, rfl⟩ := h
    exact cancelRow_moves hcancel

/-- A cancel that finds its run ends it, or removes it when it holds no lease. -/
theorem runsCancel_ended {action : CancelAction}
    (h : (runsCancel now id action).Returns avail v true v') :
    ∃ row, v.runs.find? id = some row ∧
      ((row.leaseOwner = none ∧ v'.runs.find? id = none) ∨ v'.Ended id row) := by
  simp only [runsCancel, returns_bind] at h
  obtain ⟨a, _, ha, h⟩ := h
  obtain ⟨rfl, hfound⟩ := authorizedRun_returns ha
  split at h
  · simp at h
  · next row =>
      simp only [returns_bind, Prog.pure_eq, returns_ret] at h
      obtain ⟨_, _, hcancel, -, rfl⟩ := h
      have hrow := (hfound row rfl).1
      exact ⟨row, hrow, cancelRow_ended hrow hcancel⟩

/-- `runs_delete` removes the run without a look at its lease, which is why the request counts as
a stop. -/
theorem runsDelete_moves {u : Unit} (hstop : ∀ r, r.runId = id → S r)
    (h : (runsDelete id).Returns avail v u v') : Moves now S v v' := by
  simp only [runsDelete, returns_bind] at h
  obtain ⟨row, _, hrow, h⟩ := h
  obtain ⟨rfl, -⟩ := authorizedRun_returns hrow
  split at h
  · obtain ⟨-, rfl⟩ := returns_ret.1 h
    exact .refl
  · exact deleteRun_moves (fun r hr => .inl (hstop r (Table.key_of_find? hr))) h

/-! ## Submission -/

/-- A run found by its idempotency key is returned for the same thread and assistant only. -/
theorem sameTarget_returns {q : Submission} {existing a : RunRow}
    (h : (sameTarget q existing).Returns avail v a v') :
    v' = v ∧ a = existing ∧ existing.threadId = q.threadId ∧
      existing.assistantId = q.assistantId := by
  unfold sameTarget at h
  split at h
  · simp at h
  · next hsame =>
      simp only [ne_eq, Bool.or_eq_true, decide_eq_true_eq, not_or, not_not] at hsame
      obtain ⟨rfl, rfl⟩ := returns_ret.1 h
      exact ⟨rfl, rfl, hsame⟩

/-- The row of a submission is pending, without attempts, and bounded in them. -/
theorem Submission.row_submitted (repo : RunRepository) (now : Time) (q : Submission)
    (position : Nat) : (q.row repo now position).Submitted :=
  ⟨rfl, rfl, rfl, ⟨repo.one_le_attempts, repo.attempts_le⟩, rfl, rfl⟩

/-- The insert succeeds, or the conflict on the key finds the run of another submission. -/
theorem insertOrExisting_returns {q : Submission} {run a : RunRow} (hrun : run.Submitted)
    (h : (insertOrExisting q run).Returns avail v a v') : v' = v ∨ Submit run v v' := by
  simp only [insertOrExisting, returns_bind] at h
  obtain ⟨inserted, v₁, hinsert, h⟩ := h
  obtain ⟨hfresh, ⟨rfl, rfl, hkeys⟩ | ⟨rfl, rfl⟩⟩ := insertRun_returns hinsert
  · obtain ⟨-, rfl⟩ := returns_ret.1 h
    exact .inr ⟨hfresh, hrun, hkeys, rfl⟩
  · split at h
    · contradiction
    · split at h
      · simp at h
      · simp only [returns_bind, returns_query] at h
        obtain ⟨_, _, ⟨rfl, rfl⟩, h⟩ := h
        split at h
        · simp at h
        · obtain ⟨rfl, -⟩ := sameTarget_returns h
          exact .inl rfl

/-- The look for a busy thread only reads. -/
theorem rejects_returns {q : Submission} {b : Bool} (h : (rejects q).Returns avail v b v') :
    v' = v := by
  unfold rejects at h
  split at h
  · exact (returns_query.1 h).2
  · exact (returns_ret.1 h).2

/-- A submission that inserts a run numbers it behind the runs of its thread. -/
theorem submit_numbers {repo : RunRepository} {q : Submission} {a : RunRow}
    (h : (submit repo now q).Returns avail v a v') :
    v' = v ∨ Submit (q.row repo now (nextPosition q.threadId v)) v v' := by
  simp only [submit, returns_bind] at h
  obtain ⟨b, _, hb, h⟩ := h
  obtain rfl := rejects_returns hb
  split at h
  · simp at h
  · simp only [returns_bind, returns_query] at h
    obtain ⟨_, _, ⟨rfl, rfl⟩, h⟩ := h
    exact insertOrExisting_returns (q.row_submitted repo now _) h

/-- A locking read of a thread that may be absent. -/
theorem lockThreadOf_returns {t : Option ThreadId} {a : Option ThreadRow}
    (h : (lockThreadOf t).Returns avail v a v') :
    a = t.bind v.threads.find? ∧ v' = v := by
  cases t with
  | none => exact returns_ret.1 h
  | some t =>
      obtain ⟨rfl, rfl, -⟩ := returns_lockThread.1 h
      exact ⟨rfl, rfl⟩

/-- `create` inserts the run at the next place of its thread, or returns an older one. -/
theorem create_numbers {repo : RunRepository} {q : Submission} {a : RunRow}
    (h : (create repo now q).Returns avail v a v') :
    v' = v ∨ Submit (q.row repo now (nextPosition q.threadId v)) v v' := by
  simp only [create, returns_bind] at h
  obtain ⟨thread, _, hthread, h⟩ := h
  obtain ⟨-, rfl⟩ := lockThreadOf_returns hthread
  split at h
  · exact submit_numbers h
  · simp only [returns_bind, returns_query] at h
    obtain ⟨_, _, ⟨rfl, rfl⟩, h⟩ := h
    split at h
    · obtain ⟨rfl, -⟩ := sameTarget_returns h
      exact .inl rfl
    · exact submit_numbers h

/-- The same for the HTTP operation, which asks for the thread first. -/
theorem runsCreate_numbers {repo : RunRepository} {q : Submission} {a : RunRow}
    (h : (runsCreate repo now q).Returns avail v a v') :
    v' = v ∨ Submit (q.row repo now (nextPosition q.threadId v)) v v' := by
  unfold runsCreate at h
  split at h
  · exact create_numbers h
  · simp only [returns_bind, returns_getThread] at h
    obtain ⟨_, _, ⟨rfl, rfl⟩, h⟩ := h
    split at h
    · simp at h
    · exact create_numbers h

/-- The place forgotten, for the results that do not speak of the queue. -/
theorem runsCreate_returns {repo : RunRepository} {q : Submission} {a : RunRow}
    (h : (runsCreate repo now q).Returns avail v a v') :
    v' = v ∨ ∃ position, Submit (q.row repo now position) v v' :=
  (runsCreate_numbers h).imp_right fun hsubmit => ⟨_, hsubmit⟩

/-! ## Queue operations -/

/-- Places are no part of what a move reports. -/
theorem assignPositions_quiet {pairs : List (RunId × Nat)} {u : Unit}
    (h : (assignPositions pairs).Returns avail v u v') : v.QuietStep v' := by
  induction pairs generalizing v with
  | nil =>
      obtain ⟨-, rfl⟩ := returns_ret.1 h
      exact .refl _
  | cons pair pairs ih =>
      simp only [assignPositions, returns_bind, returns_assignRun] at h
      obtain ⟨_, _, ⟨rfl, -⟩, h⟩ := h
      have hposition (r : RunRow) : r.Quiet (r.assign (.atPosition pair.2)) :=
        ⟨⟨rfl, rfl, rfl, rfl, rfl, fun _ _ => rfl⟩, rfl, rfl, rfl, rfl, rfl, rfl, rfl⟩
      exact (Db.QuietStep.assignRun hposition).trans (ih h)

/-- The cancelled part of a queue, run by run. -/
theorem interruptAll_moves {ids : List RunId} {u : Unit}
    (h : (interruptAll now ids).Returns avail v u v') : Moves now S v v' := by
  induction ids generalizing v with
  | nil =>
      obtain ⟨-, rfl⟩ := returns_ret.1 h
      exact .refl
  | cons id ids ih =>
      simp only [interruptAll, returns_bind] at h
      obtain ⟨_, v₁, hcancel, h⟩ := h
      exact (cancelRow_moves hcancel).trans (ih h)

/-- Both operations on a queue. Neither starts a run. -/
theorem runsQueue_moves {t : ThreadId} {operation : QueueOperation}
    {expected requested : List RunId} {u : Unit}
    (h : (runsQueue now t operation expected requested).Returns avail v u v') :
    Moves now S v v' := by
  simp only [runsQueue, returns_bind, returns_lockThread] at h
  obtain ⟨_, _, ⟨rfl, rfl, -⟩, h⟩ := h
  split at h
  · simp at h
  · simp only [returns_bind, returns_query] at h
    obtain ⟨rows, _, hrows, _, _, ⟨rfl, rfl⟩, h⟩ := h
    obtain ⟨rfl, -⟩ := lockRuns_rows hrows
    split at h
    · simp at h
    · split at h
      · exact (assignPositions_quiet h).moves
      · exact interruptAll_moves h

/-! ## Threads and checkpoints -/

/-- The deletion of a thread leaves its runs in place, without events. -/
theorem threadsDelete_moves {t : ThreadId} {u : Unit}
    (h : (threadsDelete t).Returns avail v u v') : Moves now S v v' := by
  simp only [threadsDelete, returns_bind, returns_getThread] at h
  obtain ⟨_, _, ⟨rfl, rfl⟩, h⟩ := h
  split at h
  · obtain ⟨-, rfl⟩ := returns_ret.1 h
    exact .refl
  · rcases returns_deleteThread.1 h with ⟨-, rfl⟩ | ⟨-, -, rfl⟩
    · exact .refl
    · exact .deleteThread

/-- A new thread has no runs. -/
theorem threadsCreate_runs {t : ThreadId} {graphId : Option String} {b : Bool}
    (h : (threadsCreate now t graphId).Returns avail v b v') :
    v.SameRuns v' := by
  rcases returns_insertThread.1 h with ⟨-, -, rfl⟩ | ⟨-, hnone, -, rfl⟩
  · exact .refl _
  · refine ⟨rfl, rfl, List.Subset.refl _, fun x hx => ?_⟩
    rw [Table.find?_insert (by exact hnone)]
    split
    · rfl
    · exact hx

/-- Pruning deletes checkpoints only. -/
theorem pruneCheckpoints_runs {blobs : List BlobKey} {t : ThreadId} {u : Unit}
    (h : (pruneCheckpoints blobs t).Returns avail v u v') :
    v.SameRuns v' := by
  simp only [pruneCheckpoints, returns_bind, returns_query] at h
  obtain ⟨_, _, ⟨rfl, rfl⟩, h⟩ := h
  split at h
  · simp at h
  · simp only [returns_bind, returns_query, returns_write] at h
    obtain ⟨_, _, ⟨rfl, rfl⟩, _, _, rfl, rfl⟩ := h
    exact ⟨rfl, rfl, List.Subset.refl _, fun _ h => h⟩

/-- So does the operation, under the lock of the thread. -/
theorem threadsPrune_runs {blobs : List BlobKey} {t : ThreadId} {u : Unit}
    (h : (threadsPrune blobs t).Returns avail v u v') :
    v.SameRuns v' := by
  simp only [threadsPrune, returns_bind, returns_lockThread] at h
  obtain ⟨_, _, ⟨rfl, rfl, -⟩, h⟩ := h
  split at h
  · obtain ⟨-, rfl⟩ := returns_ret.1 h
    exact ⟨rfl, rfl, List.Subset.refl _, fun _ h => h⟩
  · exact pruneCheckpoints_runs h

/-- The last transaction of a state update writes the thread. -/
theorem threadsUpdateState_runs {t : ThreadId} {u : Unit}
    (h : (threadsUpdateState now t).Returns avail v u v') :
    v.SameRuns v' := by
  simp only [threadsUpdateState, returns_bind, returns_getThread] at h
  obtain ⟨_, _, ⟨rfl, rfl⟩, h⟩ := h
  split at h
  · obtain ⟨-, rfl⟩ := returns_ret.1 h
    exact ⟨rfl, rfl, List.Subset.refl _, fun _ h => h⟩
  · obtain ⟨rfl, -⟩ := returns_assignThread.1 h
    exact .assignThread

/-- The answer of an interrupt writes the thread. -/
theorem inputRespond_runs {t : ThreadId} {interruptId : String} {u : Unit}
    (h : (inputRespond t interruptId).Returns avail v u v') : v.SameRuns v' := by
  simp only [inputRespond, returns_bind, returns_getThread] at h
  obtain ⟨_, _, ⟨rfl, rfl⟩, h⟩ := h
  split at h
  · obtain ⟨-, rfl⟩ := returns_ret.1 h
    exact ⟨rfl, rfl, List.Subset.refl _, fun _ h => h⟩
  · simp only [returns_bind, returns_query] at h
    obtain ⟨_, _, ⟨rfl, rfl⟩, h⟩ := h
    split at h
    · obtain ⟨rfl, -⟩ := returns_assignThread.1 h
      exact .assignThread
    · obtain ⟨-, rfl⟩ := returns_ret.1 h
      exact ⟨rfl, rfl, List.Subset.refl _, fun _ h => h⟩

/-- A writer without a token is refused beside an active run. Otherwise it may drop the captured
states of the thread. -/
theorem unfencedWriter_runs {t : ThreadId} {requested : Option RunId} {u : Unit}
    (h : (unfencedWriter t requested).Returns avail v u v') :
    v.SameRuns v' := by
  simp only [unfencedWriter, returns_bind, returns_query] at h
  obtain ⟨_, _, ⟨rfl, rfl⟩, h⟩ := h
  split at h
  · simp at h
  · split at h
    · rw [returns_write.1 h]
      exact ⟨rfl, rfl, List.Subset.refl _, fun _ h => h⟩
    · obtain ⟨-, rfl⟩ := returns_ret.1 h
      exact ⟨rfl, rfl, List.Subset.refl _, fun _ h => h⟩

/-- The thread is locked, so that no claim comes between the check and the write. -/
theorem enterScope_runs {scope : CheckpointScope} {token : Option WriterToken}
    {requested : Option RunId} {u : Unit}
    (h : (enterScope scope token requested).Returns avail v u v') :
    v.SameRuns v' := by
  cases scope with
  | run r =>
      obtain ⟨-, rfl⟩ := returns_ret.1 h
      exact ⟨rfl, rfl, List.Subset.refl _, fun _ h => h⟩
  | thread t =>
      simp only [enterScope, returns_bind, returns_lockThread] at h
      obtain ⟨_, _, ⟨rfl, rfl, -⟩, h⟩ := h
      split at h
      · exact unfencedWriter_runs h
      · obtain ⟨-, rfl⟩ := returns_ret.1 h
        exact ⟨rfl, rfl, List.Subset.refl _, fun _ h => h⟩

/-- The token, if there is one, owns its run. -/
def Db.Admits (v : Db) (now : Time) (scope : CheckpointScope) (token : Option WriterToken) :
    Prop :=
  ∀ k, token = some k → ∃ run, v.runs.find? k.runId = some run ∧ k.owns now scope run = true

/-- A token passes when its run is stored and owned as the token says. -/
theorem checkToken_returns {scope : CheckpointScope} {token : Option WriterToken} {u : Unit}
    (h : (checkToken now scope token).Returns avail v u v') :
    v' = v ∧ v.Admits now scope token := by
  cases token with
  | none => exact ⟨(returns_ret.1 h).2, by simp [Db.Admits]⟩
  | some k =>
      simp only [checkToken, fencedWriter, returns_bind, returns_lockRun] at h
      obtain ⟨_, _, ⟨rfl, rfl, -⟩, h⟩ := h
      split at h
      · simp at h
      · next run hrun =>
          split at h
          · next howns =>
              refine ⟨(returns_ret.1 h).2, fun k' hk' => ?_⟩
              cases hk'
              exact ⟨run, hrun, howns⟩
          · simp at h

/-- A write that carries a token is let through only for the run that still owns it. -/
theorem writer_returns {scope : CheckpointScope} {token : Option WriterToken}
    {requested : Option RunId} {u : Unit}
    (h : (writer now scope token requested).Returns avail v u v') :
    v.SameRuns v' ∧ v.Admits now scope token := by
  simp only [writer, returns_bind] at h
  obtain ⟨_, v₁, htoken, h⟩ := h
  obtain ⟨rfl, hadmits⟩ := checkToken_returns htoken
  exact ⟨enterScope_runs h, hadmits⟩

/-- A stored checkpoint changes no run, and its token was admitted. -/
theorem aput_returns {token : Option WriterToken} {requested : Option RunId}
    {row : CheckpointRow} {u : Unit} (h : (aput now token requested row).Returns avail v u v') :
    v.SameRuns v' ∧ v.Admits now row.scope token := by
  simp only [aput, returns_bind, returns_write] at h
  obtain ⟨_, v₁, hwriter, rfl⟩ := h
  obtain ⟨hsame, hadmits⟩ := writer_returns hwriter
  exact ⟨⟨hsame.runs, hsame.issued, hsame.events, hsame.threads⟩, hadmits⟩

/-- The same for the writes of a task. -/
theorem aputWrites_returns {token : Option WriterToken} {requested : Option RunId}
    {scope : CheckpointScope} {rows : List CheckpointWriteRow} {overwrite : Bool} {u : Unit}
    (h : (aputWrites now token requested scope rows overwrite).Returns avail v u v') :
    v.SameRuns v' ∧ v.Admits now scope token := by
  simp only [aputWrites, returns_bind, returns_write] at h
  obtain ⟨_, v₁, hwriter, rfl⟩ := h
  obtain ⟨hsame, hadmits⟩ := writer_returns hwriter
  exact ⟨⟨hsame.runs, hsame.issued, hsame.events, hsame.threads⟩, hadmits⟩

/-! ## Requests -/

/-- The reply is computed after the program, and changes nothing. -/
theorem replying_returns {α : Type} {p : Txn α} {f : α → Reply} {a : Reply} :
    (replying p f).Returns avail v a v' ↔ ∃ x, p.Returns avail v x v' ∧ a = f x := by
  simp only [replying, returns_bind, Prog.pure_eq, returns_ret]
  constructor
  · rintro ⟨x, v₁, hx, rfl, rfl⟩
    exact ⟨x, hx, rfl⟩
  · rintro ⟨x, hx, rfl⟩
    exact ⟨x, v', hx, rfl, rfl⟩

/-- The runs whose execution the request declares stopped: its worker says so, or the run
is deleted. -/
def Request.Stops (q : Request) (r : RunRow) : Prop :=
  match q with
  | .releaseLease id _ owner => r.runId = id ∧ r.leaseOwner = some owner
  | .completeRollback owner id => r.runId = id ∧ owner.isSome ∧ r.leaseOwner = owner
  | .runsDelete id => r.runId = id
  | _ => False

/-- What a committed request does to the runs: it makes moves, it submits a run, or it is
a claim that starts one. -/
inductive Request.Effect (now : Time) (q : Request) (a : Reply) (v v' : Db) : Prop
  | moves (h : Moves now q.Stops v v') (hclaim : ∀ repo owner valid, q = .claim repo owner valid →
      a = .run none)
  | submit {repo : RunRepository} {s : Submission} {position : Nat}
      (request : q = .runsCreate repo s) (h : Submit (s.row repo now position) v v')
  | claim {repo : RunRepository} {owner : String} {valid : Bool} {run : RunRow} {v₁ : Db}
      (request : q = .claim repo owner valid) (start : Start repo now owner run v v₁)
      (h : Moves now q.Stops v₁ v') {b : Option RunRow} (reply : a = .run b)
      (started : ClaimReply repo now owner run b v₁ v')

/-- The law of the module: a case for each request, from the lemma about its program. -/
theorem Request.effect {q : Request} {a : Reply}
    (h : (q.program now).Returns avail v a v') : q.Effect now a v v' := by
  cases q <;> simp only [Request.program, replying_returns] at h <;> obtain ⟨x, h, rfl⟩ := h
  case claim repo owner valid =>
    rcases claimRun_returns h with ⟨rfl, hmoves⟩ | ⟨run, v₁, hstart, hmoves, hreply⟩
    · exact .moves hmoves fun _ _ _ _ => rfl
    · exact .claim rfl hstart hmoves rfl hreply
  case runsCreate =>
    rcases runsCreate_returns h with rfl | ⟨position, hsubmit⟩
    · exact .moves .refl (by simp)
    · exact .submit rfl hsubmit
  -- every other request neither starts nor submits a run
  all_goals refine .moves ?_ (by simp)
  case renew => exact renew_moves h
  case publish => exact (publishEvents_quiet h).moves
  case finish => exact finish_moves h
  case fail => exact fail_moves h
  case finalizeSuccess => exact finalizeSuccess_moves h
  case finalizeCancelled => exact finalizeCancelled_moves h
  case finalizeFailure => exact finalizeFailure_moves h
  case failInvalidContext => exact failInvalidContext_moves h
  case requeueForShutdown => exact requeueForShutdown_moves h
  case releaseLease => exact releaseLease_moves (fun r hr howner => ⟨hr, howner⟩) h
  case requeueExpired => exact requeueExpired_moves h
  case completeRollback =>
    exact completeRollback_moves (fun r hr hsome howner => ⟨hr, hsome, howner⟩) h
  case pruneExpiredEvents => exact pruneExpiredEvents_moves h
  case recordThreadEvent => exact (recordThreadEvent_quiet h).moves
  case runsCancel => exact runsCancel_moves h
  case runsDelete => exact runsDelete_moves (fun r hr => hr) h
  case threadsCreate =>
    exact .of_sameRuns (threadsCreate_runs h)
  case threadsDelete =>
    exact threadsDelete_moves h
  case deleteThreadCheckpoints =>
    rw [returns_write.1 h]
    exact .of_sameRuns ⟨rfl, rfl, List.Subset.refl _, fun _ h => h⟩
  case threadsPrune =>
    exact .of_sameRuns (threadsPrune_runs h)
  case threadsUpdateState =>
    exact .of_sameRuns (threadsUpdateState_runs h)
  case inputRespond => exact .of_sameRuns (inputRespond_runs h)
  case runsQueue => exact runsQueue_moves h
  case aput =>
    exact .of_sameRuns (aput_returns h).1
  case aputWrites =>
    exact .of_sameRuns (aputWrites_returns h).1

/-- A whole request commits what its program returns, or changes nothing. -/
theorem Request.run_cases {q : Request} {r : Except Err Reply}
    (h : q.run avail now v = some (r, v')) :
    (∃ a, r = .ok a ∧ (q.program now).Returns avail v a v') ∨ (∃ e, r = .error e) ∧ v' = v := by
  rw [Request.run, run_eq_eval, Option.map_eq_some_iff] at h
  obtain ⟨res, hres, hr⟩ := h
  cases res with
  | error e =>
      obtain ⟨rfl, rfl⟩ := Prod.mk.inj hr
      exact .inr ⟨⟨e, rfl⟩, rfl⟩
  | ok x =>
      obtain ⟨rfl, rfl⟩ := Prod.mk.inj hr
      exact .inl ⟨x.1, rfl, hres⟩

/-! ## Runs of the service -/

section Service

variable {allows : Request → Prop} {w w' : World}

/-- A step of the service: the clock ticks, a request changes nothing, or it commits. -/
theorem service_step {l : Step} (h : (service allows).step w l w') :
    (∃ d, l = .tick d ∧ w' = { w with clock := w.clock + d }) ∨
      (∃ q e, l = .call q (.error e) ∧ w' = w) ∨
      ∃ q a avail db', l = .call q (.ok a) ∧ allows q ∧ w' = { w with db := db' } ∧
        (q.program w.clock).Returns avail w.db a db' := by
  cases l with
  | tick d => exact .inl ⟨d, rfl, h⟩
  | call q r =>
      obtain ⟨hallows, avail, db', hrun, rfl⟩ := h
      rcases Request.run_cases hrun with ⟨a, rfl, hreturns⟩ | ⟨⟨e, rfl⟩, rfl⟩
      · exact .inr (.inr ⟨q, a, avail, db', rfl, hallows, rfl, hreturns⟩)
      · exact .inr (.inl ⟨q, e, rfl, rfl⟩)

/-- A reply is what the program returned in the state before. -/
theorem service_commit {q : Request} {a : Reply}
    (h : (service allows).step w (.call q (.ok a)) w') :
    ∃ avail db', w' = { w with db := db' } ∧ (q.program w.clock).Returns avail w.db a db' := by
  rcases service_step h with ⟨_, hl, -⟩ | ⟨_, _, hl, -⟩ | ⟨q', a', avail, db', hl, -, hw, hret⟩
  · cases hl
  · cases hl
  · cases hl
    exact ⟨avail, db', hw, hret⟩

/-- What ticks, moves and claims keep holds in every run of the service. -/
theorem service_inductive {P : Time → Db → Prop} (init : ∀ now v, v.Fresh → P now v)
    (tick : ∀ now d v, P now v → P (now + d) v)
    (move : ∀ now S v v', P now v → Move now S v v' → P now v')
    (submit : ∀ now r v v', P now v → Submit r v v' → P now v')
    (start : ∀ repo now owner r v v', P now v → Start repo now owner r v v' → P now v') :
    (service allows).Inductive fun w => P w.clock w.db where
  init w h := init w.clock w.db h
  step w l w' hw h := by
    rcases service_step h with ⟨d, -, rfl⟩ | ⟨q, e, -, rfl⟩ | ⟨q, a, avail, db', -, -, rfl, hret⟩
    · exact tick w.clock d w.db hw
    · exact hw
    · cases Request.effect hret with
      | moves hmoves => exact hmoves.preserves (move w.clock _) hw
      | submit _ hsubmit => exact submit _ _ _ _ hw hsubmit
      | claim _ hstart hmoves =>
          exact hmoves.preserves (move w.clock _) (start _ _ _ _ _ _ hw hstart)

end Service

end GraphHarbor
