import GraphHarbor.Leases

/-!
# What a drain costs

`claim_next` counts an attempt, and `requeue_for_shutdown` does not give it back. The
counter of a run is the number of its drains and failures, plus one while it runs, so a
run that is drained often enough ends in `infrastructure_error` without a failure. Where
all workers have one `max_attempts`, a run ends so after that many failures if and only if
it was never drained.
-/

namespace GraphHarbor

open Kit Txn

variable {now : Time} {v v' w : Db} {avail : Lock → Bool} {id x : RunId} {r r' : RunRow}
  {th : Option ThreadId} {α β : Type}

/-! ## Steady programs -/

/-- The row keeps its status and reason, or it ends otherwise than with an infrastructure
error. -/
def RunRow.Steady (r r' : RunRow) : Prop :=
  r'.status = r.status ∧ r'.reason = r.reason ∨
    r'.status.isTerminal = true ∧ r'.reason ≠ some .infrastructureError

/-- A row that stays is steady. -/
theorem RunRow.Steady.refl (r : RunRow) : r.Steady r := .inl ⟨rfl, rfl⟩

/-- Two changes in one transaction: the last one decides. -/
theorem RunRow.Steady.trans {a b c : RunRow} (h : a.Steady b) (h' : b.Steady c) :
    a.Steady c := by
  rcases h' with ⟨hstatus, hreason⟩ | h'
  · rw [RunRow.Steady, hstatus, hreason]
    exact h
  · exact .inr h'

theorem RunRow.Quiet.steady (h : r.Quiet r') : r.Steady r' := .inl ⟨h.status, h.reason⟩

/-- Every stored run was stored before, and is steady. -/
def Db.Steady (v v' : Db) : Prop := ∀ x, v.From RunRow.Steady v' x

namespace Db.Steady

/-- The table of runs was left alone. -/
theorem of_runs (h : v'.runs = v.runs) : v.Steady v' := fun _ => .of_runs .refl h

/-- Two parts of a transaction. -/
theorem trans (h : v.Steady v') (h' : v'.Steady w) : v.Steady w :=
  fun x => (h x).trans .trans (h' x)

/-- Events and their numbers end no run. -/
theorem of_quiet (h : v.QuietStep v') : v.Steady v' := by
  intro x r' hr'
  obtain ⟨r, hr, hq⟩ := (h.runs x).source r' hr'
  exact ⟨r, hr, hq.steady⟩

end Db.Steady

/-- The program leaves every run steady. -/
def Txn.Steady (p : Txn α) : Prop :=
  ∀ avail v a v', p.Returns avail v a v' → v.Steady v'

/-- Columns of a lease keep status and reason. -/
theorem RunRow.SameLease.steady (h : r.SameLease r') : r.Steady r' := .inl ⟨h.status, h.reason⟩

/-- Columns of a lease keep status and reason. -/
theorem Stmt.KeepsLeases.rows {s : Stmt β} (hs : s.KeepsLeases) :
    s.KeepsRows RunRow.Steady := by
  cases s with
  | assignRun y f => exact fun r => (hs r).steady
  | updateRun y f hf => exact fun r => (hs r).steady
  | insertRun => exact hs
  | _ => trivial

namespace Txn.Steady

/-- Programs that touch no lease end no run. -/
theorem of_leases {p : Txn α} (hp : p.KeepsLeases) : p.Steady := fun _ _ _ _ h =>
  Txn.rows_of_all .refl .trans (Prog.All.mono hp fun _ _ hs => hs.rows) h

/-- Programs that only record. -/
theorem of_quiet {p : Txn α}
    (hp : ∀ {avail v a v'}, p.Returns avail v a v' → v.QuietStep v') : p.Steady :=
  fun _ _ _ _ h => .of_quiet (hp h)

theorem ret {a : α} : Steady (.ret a) := fun _ _ _ _ h => .of_runs (by rw [(returns_ret.1 h).2])

theorem throw {e : Err} : Steady (α := α) (.throw e) := fun _ _ _ _ h => by simp at h

/-- A program in two parts. -/
theorem bind {p : Txn α} {f : α → Txn β} (hp : p.Steady) (hf : ∀ a, (f a).Steady) :
    Steady (p >>= f) := by
  intro avail v b v' h
  obtain ⟨a, v₁, hfirst, hrest⟩ := returns_bind.1 h
  exact (hp avail v a v₁ hfirst).trans (hf a avail v₁ b v' hrest)

/-- A statement that writes no run. -/
theorem perform {s : Stmt β} (hs : s.KeepsLeases) : Steady (Prog.perform s) :=
  of_leases (.perform hs)

/-- An assignment is steady if it is so on every row. -/
theorem assignRun {f : RunRow → RunRow} (hf : ∀ r : RunRow, r.Steady (r.assign f)) :
    (assignRun id f).Steady := by
  intro avail v a v' h
  obtain ⟨rfl, -⟩ := returns_assignRun.1 h
  exact fun _ => .updateRun .refl hf

theorem deleteLease : (deleteLease id).Steady := fun _ _ _ _ h =>
  .of_runs (by rw [deleteLease_returns h]; rfl)

end Txn.Steady

/-! ## Ends that are no infrastructure errors -/

section Ends

variable {repo : RunRepository} {owner : String}

/-- An attempt that ends for good, and not for the infrastructure. -/
theorem released_steady {change : Transition} {next : Option Time}
    (hterminal : change.status.isTerminal = true)
    (hreason : change.reason ≠ .infrastructureError) (r : RunRow) :
    r.Steady (r.assign (released now change next)) :=
  .inr ⟨hterminal, fun h => hreason (Option.some.inj h)⟩

/-- No end the worker asks of `finish` is an infrastructure error. -/
theorem workerEnds_steady {target : RunStatus} {reason : RunReason}
    (hend : (target, reason) ∈ workerEnds) :
    target.isTerminal = true ∧ reason ≠ .infrastructureError := by
  simp only [workerEnds, List.mem_cons, Prod.mk.injEq, List.not_mem_nil, or_false] at hend
  rcases hend with ⟨rfl, rfl⟩ | ⟨rfl, rfl⟩ | ⟨rfl, rfl⟩ | ⟨rfl, rfl⟩ <;> decide

/-- `finish` with the arguments of the worker. -/
theorem finish_steady {target : RunStatus} {reason : RunReason} {payload : Option Dict}
    {preceding : List (String × Dict × List String)} (hend : (target, reason) ∈ workerEnds) :
    (finish now id owner target reason payload preceding).Steady := by
  refine .bind (.perform trivial) fun run => ?_
  split
  · exact .throw
  · split
    · exact .ret
    · split
      · exact .throw
      · split
        · exact .throw
        · refine .bind (.bind (.of_quiet recordPreceding_quiet) fun before => ?_) fun _ => .ret
          split
          · exact .throw
          · next change hchange =>
              obtain ⟨rfl, -, -⟩ := transition_eq_some hchange
              obtain ⟨hterminal, hreason⟩ := workerEnds_steady hend
              exact .bind (.assignRun (released_steady hterminal hreason)) fun _ =>
                .bind .deleteLease fun _ => .bind (.of_quiet recordEnd_quiet) fun _ => .ret

/-- A failure that is not one of the infrastructure. -/
theorem fail_steady {reason : RunReason} {payload : Option Dict}
    (hreason : reason ≠ .infrastructureError) :
    (fail repo now id owner false reason payload).Steady := by
  refine .bind (.perform trivial) fun run => ?_
  split
  · exact .throw
  · split
    · exact .throw
    · split
      · exact .ret
      · split
        · exact .throw
        · next change hchange =>
            have hfail : failChange repo false reason _ = some change := hchange
            simp only [failChange, retries, Bool.false_and, Bool.false_eq_true, if_false] at hfail
            obtain ⟨rfl, -, -⟩ := transition_eq_some hfail
            exact .bind (.assignRun (released_steady rfl hreason)) fun _ =>
              .bind .deleteLease fun _ => .bind (.of_quiet recordRunEvent_quiet) fun _ => .ret

theorem getThreadOf_steady : (getThreadOf th).Steady := fun _ _ _ _ h =>
  .of_runs (by rw [(getThreadOf_returns h).2])

/-- Both outcomes of a graph are ends of the worker. -/
theorem finalizeSuccess_steady {out : GraphOutput} :
    (finalizeSuccess now id th owner out).Steady := by
  have hend : (out.status, out.reason) ∈ workerEnds := by
    unfold GraphOutput.status GraphOutput.reason
    split <;> simp [workerEnds]
  refine .bind (.perform trivial) fun row => .bind getThreadOf_steady fun thread => ?_
  split
  · exact .ret
  · split
    · exact .ret
    · refine .bind (finish_steady hend) fun events => ?_
      split
      · exact .ret
      · exact .bind (.of_quiet assignLoaded_quiet) fun _ => .ret

theorem finalizeCancelled_steady : (finalizeCancelled now id th owner).Steady := by
  refine .bind (.perform trivial) fun row => ?_
  split
  · exact .ret
  · split
    · exact .ret
    · refine .bind (finish_steady (by simp [workerEnds])) fun events => ?_
      split
      · exact .ret
      · exact .bind getThreadOf_steady fun _ => .bind (.of_quiet assignLoaded_quiet) fun _ => .ret

/-- A rejected context is no failure of the infrastructure. -/
theorem failInvalidContext_steady {type message : String} :
    (failInvalidContext repo now id owner type message).Steady :=
  .bind (fail_steady (by simp)) fun _ => .ret

theorem releaseLease_steady : (releaseLease id th owner).Steady := by
  refine .bind (.perform trivial) fun run => ?_
  split
  · exact .ret
  · exact .bind (.assignRun fun _ => .inl ⟨rfl, rfl⟩) fun _ => .bind .deleteLease fun _ =>
      .bind getThreadOf_steady fun _ => .of_quiet assignLoaded_quiet

/-- A renewal moves the expiry only. -/
theorem renew_steady : (renew repo now id owner).Steady := by
  have hrow {expires : Time} (r : RunRow) : r.Steady (r.renewed now expires owner) := by
    unfold RunRow.renewed
    split <;> exact .inl ⟨rfl, rfl⟩
  refine .bind (.perform trivial) fun run => ?_
  split
  · exact .ret
  · split
    · exact .ret
    · refine .bind ?_ fun renewed => ?_
      · intro avail v a v' h
        obtain ⟨-, rfl⟩ := returns_update.1 h
        exact .of_runs rfl
      · split
        · refine .bind ?_ fun _ => .ret
          intro avail v a v' h
          rcases returns_updateRun.1 h with ⟨-, rfl⟩ | ⟨-, -, rfl⟩
          · exact .of_runs rfl
          · exact fun _ => .updateRun .refl hrow
        · exact .ret

/-- A cancel ends the run, with its own reason. -/
theorem interruptRow_steady {row : RunRow} : (interruptRow now row).Steady := by
  have hlease (b : Bool) : (deleteLeaseUnless b row.runId).Steady := by
    cases b with
    | true => exact .ret
    | false => exact .deleteLease
  unfold interruptRow
  split
  · exact .ret
  · split
    · exact .throw
    · next change hchange =>
        obtain ⟨rfl, -, -⟩ := transition_eq_some hchange
        refine .bind (.assignRun fun r => .inr ⟨rfl, ?_⟩) fun _ => .bind (hlease _) fun _ =>
          .bind (.of_quiet recordRunEvent_quiet) fun _ => .ret
        simp [RunRow.assign, RunRow.interruptedBy]

/-- A rollback deletes the run or ends it, with its own reason. -/
theorem cancelRow_steady {action : CancelAction} : (cancelRow now id action).Steady := by
  refine .bind (.perform trivial) fun row => ?_
  split
  · exact .ret
  · split
    · refine .bind (.of_leases rollbackRun_leases) fun _ => ?_
      split
      · exact .of_leases rollbackRun_leases
      · exact .assignRun fun r => .inr ⟨rfl, by simp [RunRow.assign, RunRow.rollingBack]⟩
    · exact interruptRow_steady

theorem runsCancel_steady {action : CancelAction} : (runsCancel now id action).Steady := by
  refine .bind (.of_leases authorizedRun_leases) fun row => ?_
  split
  · exact .ret
  · exact .bind cancelRow_steady fun _ => .ret

theorem interruptAll_steady {ids : List RunId} : (interruptAll now ids).Steady := by
  induction ids with
  | nil => exact .ret
  | cons id ids ih => exact .bind cancelRow_steady fun _ => ih

theorem runsQueue_steady {t : ThreadId} {operation : QueueOperation}
    {expected requested : List RunId} :
    (runsQueue now t operation expected requested).Steady := by
  refine .bind (.perform trivial) fun thread => ?_
  split
  · exact .throw
  · refine .bind (.perform trivial) fun rows => .bind (.perform trivial) fun count => ?_
    split
    · exact .throw
    · split
      · exact .of_quiet assignPositions_quiet
      · exact interruptAll_steady

end Ends

/-! ## Requests that stop an attempt -/

/-- The row is steady, or, where `T` holds, its attempt stops: the run is pending again,
or in error with the attempts of `limit` used up. -/
def RunRow.Stops (T : Prop) (limit : RunRow → Nat) (r r' : RunRow) : Prop :=
  r.Steady r' ∨ T ∧ r.status = .running ∧
    (r'.status = .pending ∨ r'.status = .error ∧ limit r ≤ r.retryCount)

/-- The rows after an assignment to the run `id` and bookkeeping. -/
theorem Db.from_assignRun {f : RunRow → RunRow} {R : RunRow → RunRow → Prop}
    (hruns : w.runs = (v.assignRun id f).runs) (hquiet : w.QuietStep v')
    (hself : x = id → ∀ r r', v.runs.find? id = some r → (r.assign f).Quiet r' → R r r')
    (hother : ∀ r r', r.Quiet r' → R r r') : v.From R v' x := by
  intro r' hr'
  obtain ⟨r₁, hr₁, hq⟩ := (hquiet.runs x).source r' hr'
  rw [hruns, Db.find?_assignRun] at hr₁
  split at hr₁
  · next heq =>
      obtain ⟨r, hr, rfl⟩ := Option.map_eq_some_iff.1 hr₁
      exact ⟨r, hr, hself heq r r' (heq ▸ hr) hq⟩
  · exact ⟨r₁, hr₁, hother r₁ r' hq⟩

section Stops

variable {repo : RunRepository} {owner : String} {limit : RunRow → Nat} {T : Prop}

theorem RunRow.Quiet.stops (h : r.Quiet r') : r.Stops T limit r' := .inl h.steady

/-- Where every row is steady, none was stopped. -/
theorem Db.Steady.stops (h : v.Steady v') : v.From (RunRow.Stops T limit) v' x := by
  intro r' hr'
  obtain ⟨r, hr, hsteady⟩ := h x r' hr'
  exact ⟨r, hr, .inl hsteady⟩

/-- The limit `fail` compares the attempts with. -/
def failLimit (repo : RunRepository) (r : RunRow) : Nat := min r.maxAttempts repo.maxAttempts

/-- `fail` for the infrastructure: the run is tried again, or its attempts have reached the limit
`fail` computed. -/
theorem fail_stops {reason : RunReason} {payload : Option Dict} {e : Option RuntimeEventRow}
    (hv : v.Guarded)
    (h : (fail repo now id owner true reason payload).Returns avail v e v') (x : RunId) :
    v.From (RunRow.Stops (id = x) (failLimit repo)) v' x := by
  simp only [fail, returns_bind, returns_lockRun] at h
  obtain ⟨_, v, ⟨rfl, rfl, -⟩, h⟩ := h
  split at h
  · simp at h
  · next run hrun =>
      split at h
      · simp at h
      · next howner =>
          split at h
          · obtain ⟨-, rfl⟩ := returns_ret.1 h
            exact (Db.Steady.of_runs rfl).stops
          · next hlive =>
              split at h
              · simp at h
              · next change hchange =>
                  simp only [returns_bind, returns_assignRun, Prog.pure_eq, returns_ret] at h
                  obtain ⟨_, _, ⟨rfl, -⟩, _, v₂, hlease, e, _, he, -, rfl⟩ := h
                  have hrunning := hv.running hrun (not_not.1 howner) hlive
                  refine Db.from_assignRun (w := v₂) (by rw [deleteLease_returns hlease]; rfl)
                    (recordRunEvent_quiet he) (fun hx r r' hr hq => ?_) fun r r' hq => hq.stops
                  obtain rfl := Option.some.inj (hrun.symm.trans hr)
                  refine .inr ⟨hx.symm, hrunning, ?_⟩
                  rw [hq.status]
                  -- `retries`: either the run has attempts left, or it ends
                  unfold failChange at hchange
                  split at hchange
                  · obtain ⟨rfl, -, -⟩ := transition_eq_some hchange
                    exact .inl rfl
                  · next hno =>
                      obtain ⟨rfl, -, -⟩ := transition_eq_some hchange
                      refine .inr ⟨rfl, ?_⟩
                      unfold failLimit
                      simp only [retries, Bool.true_and, decide_eq_true_eq, not_lt] at hno
                      exact hno

/-- A drain puts the run back, whatever its attempts. -/
theorem requeueForShutdown_stops {drained : Bool} {e : Option RuntimeEventRow}
    (h : (requeueForShutdown repo now id owner drained).Returns avail v e v') (x : RunId) :
    v.From (RunRow.Stops (id = x) limit) v' x := by
  simp only [requeueForShutdown, returns_bind, returns_lockRun] at h
  obtain ⟨_, v, ⟨rfl, rfl, -⟩, h⟩ := h
  split at h
  · simp at h
  · next run hrun =>
      split at h
      · simp at h
      · split at h
        · obtain ⟨-, rfl⟩ := returns_ret.1 h
          exact (Db.Steady.of_runs rfl).stops
        · next hrunning =>
            split at h
            · simp at h
            · next change hchange =>
                obtain ⟨rfl, -, -⟩ := transition_eq_some hchange
                simp only [returns_bind, returns_assignRun, Prog.pure_eq, returns_ret] at h
                obtain ⟨_, v₁, ⟨hv₁, -⟩, _, v₂, hthread, _, v₃, hlease, e, _, he, -, rfl⟩ := h
                have hruns : v₃.runs = v₁.runs := by
                  rw [deleteLease_returns hlease, updateThreadOf_returns hthread]
                  exact Db.assignThreadOf_runs
                refine Db.from_assignRun (hruns.trans (by rw [hv₁])) (recordRunEvent_quiet he)
                  (fun hx r r' hr hq => ?_) fun r r' hq => hq.stops
                obtain rfl := Option.some.inj (hrun.symm.trans hr)
                refine .inr ⟨hx.symm, not_not.1 hrunning, .inl ?_⟩
                rw [hq.status]
                rfl

/-- The reaper stops the attempt of one run. -/
theorem requeueOne_stops {run : RunRow} {e : RuntimeEventRow}
    (hrun : v.runs.find? run.runId = some run) (hrunning : run.status = .running)
    (h : (requeueOne repo now run).Returns avail v e v') (x : RunId) :
    v.From (RunRow.Stops True (·.maxAttempts)) v' x := by
  unfold requeueOne at h
  split at h
  · simp at h
  · next change hchange =>
      simp only [returns_bind, returns_assignRun] at h
      obtain ⟨_, v₁, ⟨hv₁, -⟩, _, v₂, hthread, he⟩ := h
      have hruns : v₂.runs = v₁.runs := by
        rw [updateThreadOf_returns hthread]
        exact Db.assignThreadOf_runs
      refine Db.from_assignRun (hruns.trans (by rw [hv₁])) (recordRunEvent_quiet he)
        (fun hx r r' hr hq => ?_) fun r r' hq => hq.stops
      obtain rfl := Option.some.inj (hrun.symm.trans hr)
      refine .inr ⟨trivial, hrunning, ?_⟩
      rw [hq.status]
      unfold expiryChange at hchange
      split at hchange
      · next hused =>
          obtain ⟨rfl, -, -⟩ := transition_eq_some hchange
          exact .inr ⟨rfl, hused⟩
      · obtain ⟨rfl, -, -⟩ := transition_eq_some hchange
        exact .inl rfl

/-- The reaper's loop writes the runs of its batch only. -/
theorem requeueAll_others {runs : List RunRow} {es : List RuntimeEventRow}
    (hnodup : (runs.map (·.runId)).Nodup)
    (hruns : ∀ run ∈ runs, v.runs.find? run.runId = some run ∧ run.status = .running)
    (h : (requeueAll repo now runs).Returns avail v es v') (hx : x ∉ runs.map (·.runId)) :
    v'.runs.find? x = v.runs.find? x := by
  induction runs generalizing v es with
  | nil =>
      obtain ⟨-, rfl⟩ := returns_ret.1 h
      rfl
  | cons run runs ih =>
      simp only [requeueAll, returns_bind, Prog.pure_eq, returns_ret] at h
      obtain ⟨e, v₁, hone, rest, _, hrest, -, rfl⟩ := h
      simp only [List.map_cons, List.nodup_cons] at hnodup
      simp only [List.map_cons, List.mem_cons, not_or] at hx
      obtain ⟨hrun, hrunning⟩ := hruns run (by simp)
      have hothers := (requeueOne_moves (S := fun _ => False) hrun hrunning hone).2
      refine (ih hnodup.2 (fun r hr => ?_) hrest hx.2).trans (hothers x hx.1)
      have hne : r.runId ≠ run.runId := fun heq => hnodup.1 (heq ▸ List.mem_map_of_mem hr)
      rw [hothers r.runId hne]
      exact hruns r (by simp [hr])

/-- The reaper's loop stops each run of its batch once. -/
theorem requeueAll_stops {runs : List RunRow} {es : List RuntimeEventRow}
    (hnodup : (runs.map (·.runId)).Nodup)
    (hruns : ∀ run ∈ runs, v.runs.find? run.runId = some run ∧ run.status = .running)
    (h : (requeueAll repo now runs).Returns avail v es v') (x : RunId) :
    v.From (RunRow.Stops True (·.maxAttempts)) v' x := by
  induction runs generalizing v es with
  | nil =>
      obtain ⟨-, rfl⟩ := returns_ret.1 h
      exact (Db.Steady.of_runs rfl).stops
  | cons run runs ih =>
      simp only [requeueAll, returns_bind, Prog.pure_eq, returns_ret] at h
      obtain ⟨e, v₁, hone, rest, _, hrest, -, rfl⟩ := h
      simp only [List.map_cons, List.nodup_cons] at hnodup
      obtain ⟨hrun, hrunning⟩ := hruns run (by simp)
      have hothers := (requeueOne_moves (S := fun _ => False) hrun hrunning hone).2
      have hkept (r : RunRow) (hr : r ∈ runs) :
          v₁.runs.find? r.runId = some r ∧ r.status = .running := by
        have hne : r.runId ≠ run.runId := fun heq => hnodup.1 (heq ▸ List.mem_map_of_mem hr)
        rw [hothers r.runId hne]
        exact hruns r (by simp [hr])
      intro r' hr'
      by_cases hx : x = run.runId
      · -- the rest of the loop does not touch this run again
        subst hx
        rw [requeueAll_others hnodup.2 hkept hrest hnodup.1] at hr'
        exact requeueOne_stops hrun hrunning hone _ r' hr'
      · obtain ⟨r, hr, hstops⟩ := ih hnodup.2 hkept hrest r' hr'
        exact ⟨r, by rwa [← hothers x hx], hstops⟩

/-- The reaper stops running runs; it compares with the limit in the row. -/
theorem requeueExpired_stops {es : List RuntimeEventRow}
    (h : (requeueExpired repo now).Returns avail v es v') (x : RunId) :
    v.From (RunRow.Stops True (·.maxAttempts)) v' x := by
  simp only [requeueExpired, returns_bind, returns_write, Prog.pure_eq, returns_ret] at h
  obtain ⟨runs, _, hrows, es, v₁, hall, _, _, rfl, -, rfl⟩ := h
  obtain ⟨rfl, hmem, hnodup⟩ := lockRuns_rows hrows
  refine requeueAll_stops hnodup (fun run hrun => ?_) hall x
  obtain ⟨hfind, hexpired, -⟩ := (hmem run).1 hrun
  simp only [isExpired, Bool.and_eq_true, decide_eq_true_eq] at hexpired
  exact ⟨hfind, hexpired.1⟩

/-- A finalisation stops the attempt for an infrastructure failure only. -/
theorem finalizeFailure_stops {failure : Failure} {type message : String}
    {es : List RuntimeEventRow} (hv : v.Guarded)
    (h : (finalizeFailure repo now id th owner failure type message).Returns avail v es v')
    (x : RunId) :
    v.From (RunRow.Stops (id = x ∧ failure = .infrastructure) (failLimit repo)) v' x := by
  simp only [finalizeFailure, returns_bind, returns_getRun] at h
  obtain ⟨_, v, ⟨rfl, rfl⟩, h⟩ := h
  split at h
  · obtain ⟨-, rfl⟩ := returns_ret.1 h
    exact (Db.Steady.of_runs rfl).stops
  · next run hrun =>
      obtain rfl : run.runId = id := Table.key_of_find? hrun
      split at h
      · obtain ⟨-, rfl⟩ := returns_ret.1 h
        exact (Db.Steady.of_runs rfl).stops
      · simp only [returns_bind] at h
        obtain ⟨thread, v, hthread, _, v₁, hassign, h⟩ := h
        obtain ⟨rfl, rfl⟩ := getThreadOf_returns hthread
        have hruns : v₁.runs = v.runs := by
          rw [assignLoaded_returns (fun _ => rfl) hassign]
          exact Db.assignThreadOf_runs
        have hsteady (hrest : v₁.Steady v') :
            v.From (RunRow.Stops (run.runId = x ∧ failure = .infrastructure) (failLimit repo))
              v' x := ((Db.Steady.of_runs hruns).trans hrest).stops
        -- only the last of the three failures stops an attempt
        cases failure <;> simp only [endFailed, returns_bind, Prog.pure_eq, returns_ret] at h <;>
          obtain ⟨_, _, h, -, rfl⟩ := h
        · exact hsteady (finish_steady (by simp [workerEnds]) _ _ _ _ h)
        · refine hsteady (fail_steady ?_ _ _ _ _ h)
          simp [Failure.reason]
        · have hguarded : v₁.Guarded := fun r hr => hv r (hruns ▸ hr)
          intro r' hr'
          obtain ⟨r, hr, hstops⟩ := fail_stops hguarded h x r' hr'
          refine ⟨r, by rwa [← hruns], hstops.imp_right fun hstop => ?_⟩
          exact ⟨⟨hstop.1, rfl⟩, hstop.2⟩

end Stops

/-! ## Claims -/

section Claims

variable {repo : RunRepository} {owner : String}

/-- A claim that starts nothing may find a run without attempts left. -/
theorem claimNext_none {a : Option RunRow}
    (h : (claimNext repo now owner).Returns avail v a v') :
    (∃ run, Start repo now owner run v v' ∧ a = some (claimed repo now owner run)) ∨
      a = none ∧ v.From (fun r r' => r.Steady r' ∨
        r.status = .pending ∧ r'.status = .error ∧ r.maxAttempts ≤ r.retryCount) v' x := by
  have hsteady {v v' : Db} (h : v.Steady v') : v.From (fun r r' => r.Steady r' ∨
      r.status = .pending ∧ r'.status = .error ∧ r.maxAttempts ≤ r.retryCount) v' x := by
    intro r' hr'
    obtain ⟨r, hr, hkept⟩ := h x r' hr'
    exact ⟨r, hr, .inl hkept⟩
  simp only [claimNext, returns_bind] at h
  obtain ⟨picked, v₁, hpick, h⟩ := h
  split at h
  · obtain ⟨-, rfl⟩ := returns_pickRun.1 hpick
    obtain ⟨rfl, rfl⟩ := returns_ret.1 h
    exact .inr ⟨rfl, hsteady (.of_runs rfl)⟩
  · next run =>
      obtain ⟨rfl, hrun, heligible, -⟩ := pickRun_eligible hpick
      simp only [returns_bind] at h
      obtain ⟨b, v₂, hb, h⟩ := h
      obtain rfl := recheck_returns hb
      split at h
      · split at h
        · next hused =>
            simp only [exhaust, returns_bind, returns_assignRun, Prog.pure_eq, returns_ret] at h
            obtain ⟨_, _, ⟨_, v₁, ⟨hv₁, -⟩, _, v₃, hthread, e, _, he, -, rfl⟩, rfl, rfl⟩ := h
            have hruns : v₃.runs = v₁.runs := by
              rw [updateThreadOf_returns hthread]
              exact Db.assignThreadOf_runs
            refine .inr ⟨rfl, Db.from_assignRun (hruns.trans (by rw [hv₁]))
              (recordRunEvent_quiet he) (fun hx r r' hr hq => ?_) fun r r' hq => .inl hq.steady⟩
            obtain rfl := Option.some.inj (hrun.symm.trans hr)
            exact .inr ⟨eligible_pending heligible, hq.status, hused⟩
        · next hattempts =>
            rcases startRun_returns (S := fun _ => False) hrun heligible (not_le.1 hattempts) h
              with ⟨rfl, -⟩ | ⟨rfl, hstart⟩
            · simp only [startRun, returns_bind] at h
              obtain ⟨b, v₁, henter, h⟩ := h
              split at h
              · -- a started run is stored, and returned
                simp only [returns_bind, returns_assignRun, returns_write, returns_getRun] at h
                obtain ⟨_, _, ⟨rfl, -⟩, _, _, rfl, hnone, rfl⟩ := h
                have hrow : v₁.runs.find? run.runId = some run := by
                  rw [(enterThread_returns henter).runs, hrun]
                change none =
                  (v₁.assignRun run.runId (claimed repo now owner)).runs.find? _ at hnone
                rw [Db.find?_assignRun, if_pos rfl, hrow] at hnone
                cases hnone
              · obtain ⟨-, rfl⟩ := returns_ret.1 h
                exact .inr ⟨rfl, hsteady (.of_runs (enterThread_returns henter).runs)⟩
            · exact .inl ⟨run, hstart, rfl⟩
      · obtain ⟨rfl, rfl⟩ := returns_ret.1 h
        exact .inr ⟨rfl, hsteady (.of_runs rfl)⟩

/-- What follows a claim may end the run, for its missing assistant. -/
theorem enterRun_steady {valid : Bool} {run : RunRow} :
    (enterRun repo now owner valid run).Steady := by
  refine .bind getThreadOf_steady fun thread => .bind (.perform trivial) fun assistant => ?_
  split
  · exact .bind (fail_steady (by simp)) fun _ => .ret
  · split
    · exact .ret
    · exact .bind (.perform trivial) fun _ => .ret

end Claims

/-! ## Every step of the service -/

/-- The arguments the worker passes to `finish` and `fail`. -/
def Request.byWorker : Request → Bool
  | .finish _ _ target reason _ _ => (target, reason) ∈ workerEnds
  | .fail _ _ _ infrastructure reason _ =>
      reason = if infrastructure then .infrastructureError else .businessError
  | _ => true

/-- The number of attempts with which the request compares those of the run. -/
def Request.limit : Request → RunRow → Nat
  | .fail repo .., r => failLimit repo r
  | .finalizeFailure repo .., r => failLimit repo r
  | _, r => r.maxAttempts

/-- A drain of the run `x`. -/
def Request.drains (x : RunId) : Request → Bool
  | .requeueForShutdown _ id _ _ => id = x
  | _ => false

/-- An infrastructure exception of the run `x`, or the reaper. -/
def Request.fails (x : RunId) : Request → Bool
  | .fail _ id _ infrastructure _ _ => id = x && infrastructure
  | .finalizeFailure _ id _ _ failure _ _ => id = x && failure = .infrastructure
  | .requeueExpired _ => true
  | _ => false

/-- What a request can do to the row of the run `x`. -/
inductive RunRow.Advances (q : Request) (x : RunId) (r r' : RunRow) : Prop
  | steady (h : r.Steady r') (count : r'.status.isTerminal = false → r'.retryCount = r.retryCount)
  | claimed (pending : r.status = .pending) (running : r'.status = .running)
      (count : r'.retryCount = r.retryCount + 1)
  | exhausted (pending : r.status = .pending) (error : r'.status = .error)
      (limit : q.limit r ≤ r.retryCount)
  | stopped (stops : q.drains x = true ∨ q.fails x = true) (running : r.status = .running)
      (count : r'.retryCount = r.retryCount)
      (status : r'.status = .pending ∨ r'.status = .error ∧ q.limit r ≤ r.retryCount)

/-- The run `x` is submitted. -/
def Db.Enters (x : RunId) (v : Db) (r : RunRow) : Prop :=
  x ∉ v.issued ∧ r.status = .pending ∧ r.retryCount = 0

/-- A request that claims and submits nothing leaves every row steady, or stops it. -/
theorem Request.advances_of_stops {q : Request} {T : Prop} {limit : RunRow → Nat}
    (hmoves : Moves now q.Stops v v') (hv : v.Guarded)
    (hstops : v.From (RunRow.Stops T limit) v' x) (hT : T → q.drains x = true ∨ q.fails x = true)
    (hlimit : ∀ r, q.limit r = limit r) : v.From (RunRow.Advances q x) v' x := by
  intro r' hr'
  obtain ⟨r, hr, -, hcount⟩ := Moves.leads hmoves hv hr'
  obtain ⟨r₁, hr₁, hstop⟩ := hstops r' hr'
  obtain rfl := Option.some.inj (hr.symm.trans hr₁)
  refine ⟨r, hr, ?_⟩
  rcases hstop with hsteady | ⟨hcause, hrunning, hstatus⟩
  · exact .steady hsteady fun _ => hcount
  · exact .stopped (hT hcause) hrunning hcount (by rwa [hlimit])

/-- The claim counts the attempt, and what follows it in the transaction keeps the count. -/
theorem claimRun_advances {repo : RunRepository} {owner : String} {valid : Bool}
    {a : Option RunRow} (hv : v.Guarded)
    (h : (claimRun repo now owner valid).Returns avail v a v') (x : RunId) :
    v.From (RunRow.Advances (.claim repo owner valid) x) v' x := by
  simp only [claimRun, returns_bind] at h
  obtain ⟨claim, v₁, hclaim, h⟩ := h
  intro r' hr'
  rcases claimNext_none (x := x) hclaim with ⟨run, hstart, rfl⟩ | ⟨rfl, hrows⟩
  · have hmoves : Moves now (fun _ => False) v₁ v' := (enterRun_returns h).1
    obtain ⟨r₁, hr₁, -, hcount⟩ := Moves.leads hmoves (hstart.guarded hv) hr'
    obtain ⟨r₂, hr₂, hsteady⟩ := enterRun_steady _ _ _ _ h x r' hr'
    obtain rfl := Option.some.inj (hr₁.symm.trans hr₂)
    by_cases hx : x = run.runId
    · subst hx
      obtain rfl := Option.some.inj (hstart.row.symm.trans hr₁)
      refine ⟨run, hstart.found, ?_⟩
      rcases hsteady with ⟨hstatus, -⟩ | hended
      · exact .claimed (eligible_pending hstart.eligible) hstatus hcount
      · exact .steady (.inr hended) fun hlive => by simp [hended.1] at hlive
    · rw [hstart.others x hx] at hr₁
      exact ⟨r₁, hr₁, .steady hsteady fun _ => hcount⟩
  · obtain ⟨-, rfl⟩ := returns_ret.1 h
    obtain ⟨r, hr, hrow⟩ := hrows r' hr'
    refine ⟨r, hr, ?_⟩
    rcases hrow with hsteady | ⟨hpending, herror, hused⟩
    · rcases claimNext_returns (S := fun _ => False) hclaim with ⟨-, hmoves⟩ | ⟨run, hsome, -⟩
      · obtain ⟨r₁, hr₁, -, hcount⟩ := Moves.leads hmoves hv hr'
        obtain rfl := Option.some.inj (hr.symm.trans hr₁)
        exact .steady hsteady fun _ => hcount
      · cases hsome
    · exact .exhausted hpending herror hused

/-- A committed request, for a run that is stored afterwards. -/
theorem Request.advances {q : Request} {a : Reply} (hq : q.byWorker = true) (hv : v.Guarded)
    (h : (q.program now).Returns avail v a v') (hr' : v'.runs.find? x = some r') :
    (∃ r, v.runs.find? x = some r ∧ RunRow.Advances q x r r') ∨ v.Enters x r' := by
  have hmoves (hclaim : ∀ repo owner valid, q ≠ .claim repo owner valid)
      (hcreate : ∀ repo s, q ≠ .runsCreate repo s) : Moves now q.Stops v v' := by
    cases q.effect h with
    | moves hmoves => exact hmoves
    | submit hsubmit => exact absurd hsubmit (hcreate _ _)
    | claim hclaims => exact absurd hclaims (hclaim _ _ _)
  have hsteady (hclaim : ∀ repo owner valid, q ≠ .claim repo owner valid)
      (hcreate : ∀ repo s, q ≠ .runsCreate repo s) (hkept : v.Steady v') :
      (∃ r, v.runs.find? x = some r ∧ RunRow.Advances q x r r') ∨ v.Enters x r' :=
    .inl (advances_of_stops (T := False) (hmoves hclaim hcreate) hv hkept.stops False.elim
      (fun _ => rfl) r' hr')
  cases q <;> simp only [Request.program, replying_returns] at h <;> obtain ⟨y, h, rfl⟩ := h
  case runsCreate repo s =>
    rcases runsCreate_returns h with rfl | ⟨position, hsubmit⟩
    · exact .inl ⟨r', hr', .steady (.refl r') fun _ => rfl⟩
    · rw [hsubmit.find?] at hr'
      split at hr'
      · next heq =>
          obtain rfl := Option.some.inj hr'
          have hfresh := hsubmit.fresh
          simp only [Db.drawn, Bool.or_eq_false_iff, decide_eq_false_iff_not] at hfresh
          exact .inr ⟨heq ▸ hfresh.1, hsubmit.submitted.status, hsubmit.submitted.retryCount⟩
      · exact .inl ⟨r', hr', .steady (.refl r') fun _ => rfl⟩
  case claim => exact .inl (claimRun_advances hv h x r' hr')
  case renew => exact hsteady (by simp) (by simp) (renew_steady _ _ _ _ h)
  case publish => exact hsteady (by simp) (by simp) (.of_quiet (publishEvents_quiet h))
  case finish =>
    exact hsteady (by simp) (by simp) (finish_steady (by simpa [byWorker] using hq) _ _ _ _ h)
  case fail repo id owner infrastructure reason payload =>
    cases infrastructure with
    | true =>
        exact .inl (advances_of_stops (hmoves (by simp) (by simp)) hv (fail_stops hv h x)
          (fun hx => .inr (by simp [fails, hx])) (fun _ => rfl) r' hr')
    | false =>
        obtain rfl : reason = .businessError := by simpa [byWorker] using hq
        exact hsteady (by simp) (by simp) (fail_steady (by simp) _ _ _ _ h)
  case finalizeSuccess => exact hsteady (by simp) (by simp) (finalizeSuccess_steady _ _ _ _ h)
  case finalizeCancelled => exact hsteady (by simp) (by simp) (finalizeCancelled_steady _ _ _ _ h)
  case finalizeFailure =>
    exact .inl (advances_of_stops (hmoves (by simp) (by simp)) hv (finalizeFailure_stops hv h x)
      (fun hx => .inr (by simp [fails, hx])) (fun _ => rfl) r' hr')
  case failInvalidContext => exact hsteady (by simp) (by simp) (failInvalidContext_steady _ _ _ _ h)
  case requeueForShutdown =>
    exact .inl (advances_of_stops (hmoves (by simp) (by simp)) hv (requeueForShutdown_stops h x)
      (fun hx => .inl (by simp [drains, hx])) (fun _ => rfl) r' hr')
  case releaseLease => exact hsteady (by simp) (by simp) (releaseLease_steady _ _ _ _ h)
  case requeueExpired =>
    exact .inl (advances_of_stops (hmoves (by simp) (by simp)) hv (requeueExpired_stops h x)
      (fun _ => .inr rfl) (fun _ => rfl) r' hr')
  case completeRollback =>
    exact hsteady (by simp) (by simp) (Txn.Steady.of_leases completeRollback_leases _ _ _ _ h)
  case pruneExpiredEvents =>
    exact hsteady (by simp) (by simp) (Txn.Steady.of_leases pruneExpiredEvents_leases _ _ _ _ h)
  case recordThreadEvent =>
    exact hsteady (by simp) (by simp) (.of_quiet (recordThreadEvent_quiet h))
  case runsCancel => exact hsteady (by simp) (by simp) (runsCancel_steady _ _ _ _ h)
  case runsDelete =>
    exact hsteady (by simp) (by simp) (Txn.Steady.of_leases runsDelete_leases _ _ _ _ h)
  case threadsCreate =>
    exact hsteady (by simp) (by simp) (Txn.Steady.of_leases threadsCreate_leases _ _ _ _ h)
  case threadsDelete =>
    exact hsteady (by simp) (by simp) (Txn.Steady.of_leases threadsDelete_leases _ _ _ _ h)
  case deleteThreadCheckpoints =>
    exact hsteady (by simp) (by simp)
      (Txn.Steady.of_leases deleteThreadCheckpoints_leases _ _ _ _ h)
  case threadsPrune =>
    exact hsteady (by simp) (by simp) (Txn.Steady.of_leases threadsPrune_leases _ _ _ _ h)
  case threadsUpdateState =>
    exact hsteady (by simp) (by simp) (Txn.Steady.of_leases threadsUpdateState_leases _ _ _ _ h)
  case inputRespond =>
    exact hsteady (by simp) (by simp) (Txn.Steady.of_leases inputRespond_leases _ _ _ _ h)
  case runsQueue => exact hsteady (by simp) (by simp) (runsQueue_steady _ _ _ _ h)
  case aput => exact hsteady (by simp) (by simp) (Txn.Steady.of_leases aput_leases _ _ _ _ h)
  case aputWrites =>
    exact hsteady (by simp) (by simp) (Txn.Steady.of_leases aputWrites_leases _ _ _ _ h)

/-! ## The ledger of a run -/

/-- A request of `C` that committed. -/
def Step.committed (C : Request → Bool) : Step → Bool
  | .call q (.ok _) => C q
  | _ => false

/-- The run `x` runs before the step, a request of `C`, and not after it. -/
def stopsBy (C : Request → Bool) (x : RunId) (w : World) (l : Step) (w' : World) : Bool :=
  l.committed C && (w.db.runs.find? x).any (·.status = .running) &&
    (w'.db.runs.find? x).any (·.status ≠ .running)

/-- The service with the drains and the failures of the run `x`. -/
def ledger (x : RunId) : TSys ((World × Nat) × Nat) Step :=
  ((service fun q => q.byWorker = true).counting fun w l w' =>
    stopsBy (Request.drains x) x w l w' = true).counting fun s l s' =>
      stopsBy (Request.fails x) x s.1 l s'.1 = true

/-- The attempts of the run are its drains, its failures and the running attempt. -/
structure Db.Balanced (v : Db) (x : RunId) (drains failures : Nat) : Prop where
  pending : ∀ r, v.runs.find? x = some r → r.status = .pending →
    r.retryCount = drains + failures
  running : ∀ r, v.runs.find? x = some r → r.status = .running →
    r.retryCount = drains + failures + 1
  unissued : x ∉ v.issued → drains = 0 ∧ failures = 0

/-- The count after a step that may stop an attempt. -/
def Counted (stops : Bool) (n n' : Nat) : Prop :=
  stops = true ∧ n' = n + 1 ∨ ¬ stops = true ∧ n' = n

section Ledger

variable {w w' : World} {q : Request} {a : Reply} {d d' f f' : Nat}

/-- No request is both. -/
theorem Request.drains_not_fails (h : q.drains x = true) : q.fails x = false := by
  cases q <;> first | rfl | cases h

/-- An attempt that stops is a drain or a failure, not both. -/
theorem Counted.stopped (hr : w.db.runs.find? x = some r) (hrunning : r.status = .running)
    (hr' : w'.db.runs.find? x = some r') (hstopped : r'.status ≠ .running)
    (hcause : q.drains x = true ∨ q.fails x = true)
    (hd : Counted (stopsBy (Request.drains x) x w (.call q (.ok a)) w') d d')
    (hf : Counted (stopsBy (Request.fails x) x w (.call q (.ok a)) w') f f') :
    d' + f' = d + f + 1 := by
  simp only [Counted, stopsBy, Step.committed, hr, hr', Option.any_some, hrunning, hstopped, ne_eq,
    not_false_eq_true, decide_true, Bool.and_true] at hd hf
  cases hdrains : q.drains x with
  | true =>
      have hfails := Request.drains_not_fails hdrains
      simp only [hdrains, hfails, true_and, not_true_eq_false, false_and, or_false,
        Bool.false_eq_true, not_false_eq_true, false_or] at hd hf
      omega
  | false =>
      have hfails : q.fails x = true := hcause.resolve_left (by simp [hdrains])
      simp only [hdrains, hfails, true_and, not_true_eq_false, false_and, or_false,
        Bool.false_eq_true, not_false_eq_true, false_or] at hd hf
      omega

/-- Where no attempt stops, nothing is counted. -/
theorem Counted.kept {C : Request → Bool} {l : Step} {n n' : Nat}
    (h : (w.db.runs.find? x).any (·.status = .running) = false ∨
      (w'.db.runs.find? x).any (·.status ≠ .running) = false)
    (hcount : Counted (stopsBy C x w l w') n n') : n' = n := by
  have hno : stopsBy C x w l w' = false := by
    rcases h with h | h
    · rw [stopsBy, h, Bool.and_false, Bool.false_and]
    · rw [stopsBy, h, Bool.and_false]
  simp only [Counted, hno, Bool.false_eq_true, false_and, not_false_eq_true, true_and,
    false_or] at hcount
  exact hcount

/-- One committed request. -/
theorem Db.Balanced.commit (hq : q.byWorker = true) (hv : w.db.Guarded)
    (henrolled : w.db.Enrolled) (hb : w.db.Balanced x d f)
    (hret : (q.program now).Returns avail w.db a w'.db)
    (hd : Counted (stopsBy (Request.drains x) x w (.call q (.ok a)) w') d d')
    (hf : Counted (stopsBy (Request.fails x) x w (.call q (.ok a)) w') f f') :
    w'.db.Balanced x d' f' := by
  have habsent (hnew : x ∉ w.db.issued) :
      (w.db.runs.find? x).any (·.status = .running) = false := by
    cases hr : w.db.runs.find? x with
    | none => rfl
    | some r => exact absurd (henrolled x r hr) hnew
  have hrow (r' : RunRow) (hr' : w'.db.runs.find? x = some r') :
      (r'.status = .pending → r'.retryCount = d' + f') ∧
        (r'.status = .running → r'.retryCount = d' + f' + 1) := by
    rcases Request.advances hq hv hret hr' with ⟨r, hr, hadvance⟩ | ⟨hnew, hpending, hzero⟩
    · have hpend := hb.pending r hr
      have hrun := hb.running r hr
      -- a claim moves the counter, a stop moves the ledger, and no other change moves either
      cases hadvance with
      | steady hsteady hcount =>
          rcases hsteady with ⟨hstatus, -⟩ | ⟨hterminal, -⟩
          · -- the same status: either pending, or running before and after
            have hsame : (w.db.runs.find? x).any (·.status = .running) = false ∨
                (w'.db.runs.find? x).any (·.status ≠ .running) = false := by
              rw [hr, hr']
              simpa [hstatus] using (em (r.status = .running)).symm
            obtain rfl : d' = d := Counted.kept hsame hd
            obtain rfl : f' = f := Counted.kept hsame hf
            constructor
            · intro hp
              rw [hcount (by rw [hp]; rfl)]
              exact hpend (hstatus ▸ hp)
            · intro hrunning
              rw [hcount (by rw [hrunning]; rfl)]
              exact hrun (hstatus ▸ hrunning)
          · constructor <;> intro h <;> simp [h] at hterminal
      | claimed hpending hrunning hcount =>
          have hd' : d' = d := Counted.kept (.inl (by rw [hr]; simp [hpending])) hd
          have hf' : f' = f := Counted.kept (.inl (by rw [hr]; simp [hpending])) hf
          have hbefore := hpend hpending
          exact ⟨fun hp => by simp [hp] at hrunning, fun _ => by omega⟩
      | exhausted _ herror _ =>
          exact ⟨fun h => by simp [h] at herror, fun h => by simp [h] at herror⟩
      | stopped hcause hrunning hcount hstatus =>
          have hstopped : r'.status ≠ .running := by
            rcases hstatus with h | ⟨h, -⟩ <;> simp [h]
          have htotal := Counted.stopped hr hrunning hr' hstopped hcause hd hf
          have hbefore := hrun hrunning
          exact ⟨fun _ => by omega, fun h => absurd h hstopped⟩
    · -- a new run: nothing was counted before
      obtain ⟨hd₀, hf₀⟩ := hb.unissued hnew
      have hd' : d' = d := Counted.kept (.inl (habsent hnew)) hd
      have hf' : f' = f := Counted.kept (.inl (habsent hnew)) hf
      exact ⟨fun _ => by omega, fun h => by simp [h] at hpending⟩
  refine ⟨fun r' hr' => (hrow r' hr').1, fun r' hr' => (hrow r' hr').2, fun hnew => ?_⟩
  have hold : x ∉ w.db.issued := fun h => hnew ((Request.continues hret).issued h)
  have hd' : d' = d := Counted.kept (.inl (habsent hold)) hd
  have hf' : f' = f := Counted.kept (.inl (habsent hold)) hf
  rw [hd', hf']
  exact hb.unissued hold

/-- The balance holds in every state the service reaches. -/
theorem ledger_inductive (x : RunId) : (ledger x).Inductive fun s =>
    (s.1.1.db.Guarded ∧ s.1.1.db.Enrolled) ∧ s.1.1.db.Balanced x s.1.2 s.2 where
  init s hs := by
    obtain ⟨⟨hinit, hd⟩, hf⟩ := hs
    refine ⟨⟨guarded_inductive.init s.1.1 hinit, enrolled_inductive.init s.1.1 hinit⟩, ?_⟩
    have hnone (r : RunRow) (hr : s.1.1.db.runs.find? x = some r) : False := by
      rw [hinit.runs] at hr
      simp at hr
    exact ⟨fun r hr => (hnone r hr).elim, fun r hr => (hnone r hr).elim, fun _ => ⟨hd, hf⟩⟩
  step s l s' hs hstep := by
    obtain ⟨⟨hstep, hd⟩, hf⟩ := hstep
    obtain ⟨⟨hguarded, henrolled⟩, hb⟩ := hs
    refine ⟨⟨guarded_inductive.step _ _ _ hguarded hstep,
      enrolled_inductive.step _ _ _ henrolled hstep⟩, ?_⟩
    rcases service_step hstep with ⟨d, rfl, hw⟩ | ⟨q, e, rfl, hw⟩ | ⟨q, a, avail, db', rfl, hq, hw,
      hret⟩
    · have hd' : s'.1.2 = s.1.2 := by simpa [stopsBy, Step.committed] using hd
      have hf' : s'.2 = s.2 := by simpa [stopsBy, Step.committed] using hf
      rw [hd', hf', hw]
      exact hb
    · have hd' : s'.1.2 = s.1.2 := by simpa [stopsBy, Step.committed] using hd
      have hf' : s'.2 = s.2 := by simpa [stopsBy, Step.committed] using hf
      rw [hd', hf', hw]
      exact hb
    · exact hb.commit hq hguarded henrolled (by rw [hw]; exact hret) hd hf

end Ledger

/-! ## One limit -/

/-- A request of a worker has the given `max_attempts`. -/
def Request.attemptsOf (M : Nat) : Request → Bool
  | .claim repo .. | .fail repo .. | .finalizeFailure repo .. => repo.maxAttempts = M
  | _ => true

/-- The same for a step. -/
def Step.attemptsOf (M : Nat) : Step → Bool
  | .call q _ => q.attemptsOf M
  | .tick _ => true

/-- The service with the ledger of the run `x`, where all workers have one `max_attempts`. -/
def ledgerOf (M : Nat) (x : RunId) : TSys ((World × Nat) × Nat) Step :=
  (ledger x).restrict fun _ l => l.attemptsOf M = true

/-- The attempts of a run stay within its limit, which is at most `M` after the first one. -/
structure RunRow.Limited (M : Nat) (r : RunRow) : Prop where
  within : r.retryCount ≤ r.maxAttempts
  limit : 0 < r.retryCount → r.maxAttempts ≤ M

/-- Every stored run is limited. -/
def Db.Limited (M : Nat) (v : Db) : Prop := ∀ r ∈ v.runs, r.Limited M

section Limited

variable {M : Nat}

/-- Moves touch neither column. -/
theorem Moves.limited {S : RunRow → Prop} (hmoves : Moves now S v v') (h : v.Limited M) :
    v'.Limited M := by
  refine hmoves.preserves (P := Db.Limited M) (fun _ _ hv hmove r' hr' => ?_) h
  obtain ⟨r, hr, hrun⟩ := hmove.origin hr'
  have hrow := hv r hr
  constructor
  · rw [hrun.sameAttempts.retryCount, hrun.sameAttempts.maxAttempts]
    exact hrow.within
  · rw [hrun.sameAttempts.retryCount, hrun.sameAttempts.maxAttempts]
    exact hrow.limit

/-- A submitted run has no attempt yet; its limit is what it asked for. -/
theorem Submit.limited (hsubmit : Submit r v v') (h : v.Limited M) : v'.Limited M := by
  intro r' hr'
  rcases hsubmit.origin hr' with rfl | ⟨hr, -⟩
  · have hzero := hsubmit.submitted.retryCount
    exact ⟨by omega, fun hpos => by omega⟩
  · exact h r' hr

/-- A claim does not lower the limit below the attempt it starts. -/
theorem Start.limited {repo : RunRepository} {owner : String}
    (hstart : Start repo now owner r v v') (hrepo : repo.maxAttempts = M) (h : v.Limited M) :
    v'.Limited M := by
  intro r' hr'
  rcases hstart.origin hr' with rfl | ⟨hr, -⟩
  · have hrow := h r (Table.mem_of_find? hstart.found)
    have hattempts := hstart.attempts
    have hlimit := hrow.limit
    have hone := repo.one_le_attempts
    have hmax : (claimed repo now owner r).maxAttempts = min r.maxAttempts M := by
      show min (attemptsOr r.maxAttempts repo.maxAttempts) repo.maxAttempts = _
      rw [attemptsOr, if_neg (by omega), hrepo]
    refine ⟨?_, fun _ => hmax ▸ min_le_right _ _⟩
    -- an attempt of a worker with the same limit was compared with it before
    rw [hmax]
    show r.retryCount + 1 ≤ _
    omega
  · exact h r' hr

/-- One committed request. -/
theorem Request.limited {q : Request} {a : Reply} (hq : q.attemptsOf M = true)
    (h : v.Limited M) (hret : (q.program now).Returns avail v a v') : v'.Limited M := by
  cases q.effect hret with
  | moves hmoves => exact hmoves.limited h
  | submit _ hsubmit => exact hsubmit.limited h
  | claim hclaim hstart hmoves =>
      subst hclaim
      exact hmoves.limited (hstart.limited (by simpa [attemptsOf] using hq) h)

/-- The attempts stay within the limits in every run with one `max_attempts`. -/
theorem ledgerOf_inductive (M : Nat) (x : RunId) :
    (ledgerOf M x).Inductive fun s => s.1.1.db.Limited M where
  init s hs r hr := by
    rw [hs.1.1.runs] at hr
    simp at hr
  step s l s' h hstep := by
    obtain ⟨⟨⟨hstep, -⟩, -⟩, hl⟩ := hstep
    rcases service_step hstep with ⟨d, rfl, hw⟩ | ⟨q, e, rfl, hw⟩ | ⟨q, a, avail, db', rfl, -, hw,
      hret⟩
    · exact hw ▸ h
    · exact hw ▸ h
    · rw [hw]
      exact Request.limited hl h hret

/-- A request does not compare with a smaller limit than the run has. -/
theorem RunRow.Limited.eq (h : r.Limited M) {q : Request} (hq : q.attemptsOf M = true)
    (hlimit : q.limit r ≤ r.retryCount) : r.retryCount = q.limit r := by
  have hwithin := h.within
  have hcap := h.limit
  have hfail (repo : RunRepository) (hrepo : repo.maxAttempts = M)
      (hle : failLimit repo r ≤ r.retryCount) : r.retryCount = failLimit repo r := by
    have hone := repo.one_le_attempts
    simp only [failLimit] at hle ⊢
    omega
  cases q
  case fail repo _ _ _ _ _ => exact hfail repo (by simpa [Request.attemptsOf] using hq) hlimit
  case finalizeFailure repo _ _ _ _ _ _ =>
    exact hfail repo (by simpa [Request.attemptsOf] using hq) hlimit
  all_goals exact le_antisymm hwithin hlimit

end Limited

/-! ## The law -/

/-- The step ends the live run `r` in error `infrastructure_error`, as `r'`. -/
structure EndsInfrastructure (r r' : RunRow) : Prop where
  live : r.status.isTerminal = false
  status : r'.status = .error
  reason : r'.reason = some .infrastructureError

/-- The counts after a step that ends the run. -/
theorem EndsInfrastructure.counts {s s' : (World × Nat) × Nat} {q : Request}
    {a : Except Err Reply} (hend : EndsInfrastructure r r') (hguarded : s.1.1.db.Guarded)
    (hb : s.1.1.db.Balanced x s.1.2 s.2) (hstep : (ledger x).step s (.call q a) s')
    (hr : s.1.1.db.runs.find? x = some r) (hr' : s'.1.1.db.runs.find? x = some r') :
    q.limit r ≤ r.retryCount ∧ r.retryCount = s'.1.2 + s'.2 := by
  obtain ⟨⟨hstep, hd⟩, hf⟩ := hstep
  rcases service_step hstep with ⟨d, hl, -⟩ | ⟨q', e, -, hw⟩ | ⟨q', a', avail, db', hl, hq, hw,
    hret⟩
  · cases hl
  · -- a request that raises changes nothing
    rw [hw] at hr'
    obtain rfl := Option.some.inj (hr.symm.trans hr')
    have hlive := hend.live
    simp [hend.status, RunStatus.isTerminal] at hlive
  · cases hl
    have hret' : (q.program s.1.1.clock).Returns avail s.1.1.db a' s'.1.1.db := by
      rw [hw]
      exact hret
    rcases Request.advances hq hguarded hret' hr' with ⟨r₀, hr₀, hadvance⟩ | ⟨-, hpending, -⟩
    · obtain rfl := Option.some.inj (hr.symm.trans hr₀)
      cases hadvance with
      | steady hsteady _ =>
          rcases hsteady with ⟨hstatus, -⟩ | ⟨-, hreason⟩
          · have hlive := hend.live
            rw [← hstatus, hend.status] at hlive
            simp [RunStatus.isTerminal] at hlive
          · exact absurd hend.reason hreason
      | claimed _ hrunning _ => simp [hend.status] at hrunning
      | exhausted hpending _ hlimit =>
          -- the run ends at its next claim, so no attempt stops in this step
          have hidle : (s.1.1.db.runs.find? x).any (·.status = .running) = false := by
            rw [hr]
            simp [hpending]
          have hd' : s'.1.2 = s.1.2 := Counted.kept (.inl hidle) hd
          have hf' : s'.2 = s.2 := Counted.kept (.inl hidle) hf
          have hcount := hb.pending r hr hpending
          exact ⟨hlimit, by omega⟩
      | stopped hcause hrunning _ hstatus =>
          have herror : r'.status ≠ .running := by simp [hend.status]
          have htotal := Counted.stopped hr hrunning hr' herror hcause hd hf
          have hcount := hb.running r hr hrunning
          have hlimit : q.limit r ≤ r.retryCount := by
            rcases hstatus with h | ⟨-, h⟩
            · simp [hend.status] at h
            · exact h
          exact ⟨hlimit, by omega⟩
    · have hstatus := hend.status
      simp [hpending] at hstatus

/-- Every limit allows an attempt. -/
theorem Request.limit_pos (q : Request) (htried : 0 < r.maxAttempts) : 0 < q.limit r := by
  have hfail (repo : RunRepository) : 0 < failLimit repo r := by
    have hone := repo.one_le_attempts
    simp only [failLimit]
    omega
  cases q
  case fail repo _ _ _ _ _ => exact hfail repo
  case finalizeFailure repo _ _ _ _ _ _ => exact hfail repo
  all_goals exact htried

/-- A run that was never drained ends with `infrastructure_error` after as many failures as it
had attempts. Where all workers have one `max_attempts`, this is so for no drained run; where
they differ, for one whose drains come on top of its attempts. -/
theorem infrastructure_end_iff (x : RunId) (s s' : (World × Nat) × Nat) (q : Request)
    (a : Except Err Reply) (r r' : RunRow) (hreach : (ledger x).Reachable s)
    (hstep : (ledger x).step s (.call q a) s') (hr : s.1.1.db.runs.find? x = some r)
    (hr' : s'.1.1.db.runs.find? x = some r') (hend : EndsInfrastructure r r') :
    0 < q.limit r ∧ q.limit r ≤ r.retryCount ∧
      (s'.1.2 = 0 → q.limit r ≤ s'.2) ∧
      (∀ M, (ledgerOf M x).Reachable s → q.attemptsOf M = true →
        (q.limit r ≤ s'.2 ↔ s'.1.2 = 0)) ∧
      (q.limit r ≤ s'.2 ↔ q.limit r + s'.1.2 ≤ r.retryCount) := by
  obtain ⟨⟨hguarded, henrolled⟩, hb⟩ := (ledger_inductive x).invariant s hreach
  obtain ⟨hlimit, hcount⟩ := hend.counts hguarded hb hstep hr hr'
  have hmem := Table.mem_of_find? hr
  have htried := (hguarded r hmem).tried
  refine ⟨q.limit_pos htried, hlimit, fun hnone => by omega, fun M hM hq => ?_, by omega⟩
  have hone := ((ledgerOf_inductive M x).invariant s hM r hmem).eq hq hlimit
  omega

/-! ## One lost lease, and three drains -/

/-- An input that a worker can send. -/
def Input.byWorker : Input → Bool
  | .tick _ => true
  | .call q => q.byWorker

/-- One input of a script, if a worker can send it. -/
def World.nextByWorker (w : World) (i : Input) : Option (Step × World) :=
  if i.byWorker then w.next i else none

/-- The ledger of the first run, input after input, all of workers with the same limit. -/
def ledgerNext (M : Nat) (s : (World × Nat) × Nat) (i : Input) :
    Option (Step × ((World × Nat) × Nat)) :=
  (TSys.countNext (fun s l s' => stopsBy (Request.fails 1) 1 s.1 l s'.1)
    (TSys.countNext (fun w l w' => stopsBy (Request.drains 1) 1 w l w') World.nextByWorker)
    s i).filter fun r => r.1.attemptsOf M

theorem World.nextByWorker_step (w : World) (i : Input) (l : Step) (w' : World)
    (h : w.nextByWorker i = some (l, w')) : (service fun q => q.byWorker = true).step w l w' := by
  unfold nextByWorker at h
  split at h
  · next hi =>
      have hstep := World.next_step h
      cases i with
      | tick d =>
          obtain ⟨rfl, rfl⟩ := Prod.mk.inj (Option.some.inj h)
          rfl
      | call q =>
          obtain ⟨⟨a, db⟩, hrun, heq⟩ := Option.map_eq_some_iff.1 h
          obtain ⟨rfl, rfl⟩ := Prod.mk.inj heq
          exact ⟨hi, hstep.2⟩
  · cases h

/-- Playing an input is a step. -/
theorem ledgerNext_step {M : Nat} (s : (World × Nat) × Nat) (i : Input) (l : Step)
    (s' : (World × Nat) × Nat) (h : ledgerNext M s i = some (l, s')) :
    (ledgerOf M 1).step s l s' := by
  obtain ⟨hnext, hl⟩ := Option.filter_eq_some_iff.1 h
  exact ⟨TSys.countNext_step (TSys.countNext_step World.nextByWorker_step) s i l s' hnext, hl⟩

/-- The last step ends the first run with `infrastructure_error`, after these counts. -/
def endsWith (limit drains failures : Nat) (s : (World × Nat) × Nat) (l : Step)
    (s' : (World × Nat) × Nat) : Bool :=
  (match l with
    | .call q _ => (s.1.1.db.runs.find? 1).any fun r =>
        !r.status.isTerminal && q.limit r = limit
    | .tick _ => false) &&
  ((s'.1.1.db.runs.find? 1).any fun r =>
    r.status = .error && r.reason = some .infrastructureError) &&
  s'.1.2 = drains && s'.2 = failures

/-- What `endsWith` says about the last step. -/
theorem endsWith_spec {limit drains failures : Nat} {s s' : (World × Nat) × Nat} {l : Step}
    (h : endsWith limit drains failures s l s' = true) :
    ∃ q a r r', l = .call q a ∧ s.1.1.db.runs.find? 1 = some r ∧
      s'.1.1.db.runs.find? 1 = some r' ∧ EndsInfrastructure r r' ∧ q.limit r = limit ∧
      s'.1.2 = drains ∧ s'.2 = failures := by
  simp only [endsWith, Bool.and_eq_true, decide_eq_true_eq] at h
  obtain ⟨⟨⟨hbefore, hafter⟩, hdrains⟩, hfailures⟩ := h
  cases l with
  | tick => cases hbefore
  | call q a =>
      obtain ⟨r, hr, hlive⟩ := (Option.any_eq_true _ _).1 hbefore
      obtain ⟨r', hr', hended⟩ := (Option.any_eq_true _ _).1 hafter
      simp only [Bool.and_eq_true, Bool.not_eq_true', decide_eq_true_eq] at hlive hended
      exact ⟨q, a, r, r', rfl, hr, hr', ⟨hlive.1, hended.1, hended.2⟩, hlive.2, hdrains,
        hfailures⟩

/-- A worker that tries once claims the run and loses its lease. -/
def lostScript : List Input :=
  [.call (.runsCreate (.make 60 1 second) (submission 1 1)), .tick 1,
    .call (.claim (.make 60 1 second) "a" true), .tick (61 * second)]

/-- The reaper ends a run whose only attempt failed. -/
theorem infrastructure_end_iff_lost : ∃ s s' q a r r', (ledgerOf 1 1).Reachable s ∧
    (ledgerOf 1 1).step s (.call q a) s' ∧ s.1.1.db.runs.find? 1 = some r ∧
    s'.1.1.db.runs.find? 1 = some r' ∧ EndsInfrastructure r r' ∧ q.limit r ≤ s'.2 := by
  obtain ⟨s, l, s', hreach, hstep, hcheck⟩ := TSys.play_last (T := ledgerOf 1 1)
    (s := ((⟨twoThreads, 0⟩, 0), 0)) (i := .call (.requeueExpired (.make 60 1 second)))
    (p := endsWith 1 0 1) lostScript ledgerNext_step
    ⟨⟨Db.fresh_fresh _ _, rfl⟩, rfl⟩ (by decide +kernel)
  obtain ⟨q, a, r, r', rfl, hr, hr', hend, hlimit, hdrains, -⟩ := endsWith_spec hcheck
  have hlaw := infrastructure_end_iff 1 s s' q a r r' hreach.of_restrict hstep.1 hr hr' hend
  obtain ⟨-, -, -, hone, -⟩ := hlaw
  exact ⟨s, s', q, a, r, r', hreach, hstep, hr, hr', hend, (hone 1 hreach hstep.2).2 hdrains⟩

/-- A worker claims the run and drains it. -/
def drainOnce : List Input :=
  [.call (.claim .default "a" true), .call (.requeueForShutdown .default 1 "a" true),
    .tick (30 * second)]

/-- Three drains end the run at the next claim, although no attempt of it failed. -/
theorem drains_end_run : ¬ ∀ (s s' : (World × Nat) × Nat) (q : Request) (a : Except Err Reply)
    (r r' : RunRow), (ledger 1).Reachable s → (ledger 1).step s (.call q a) s' →
    s.1.1.db.runs.find? 1 = some r → s'.1.1.db.runs.find? 1 = some r' →
    EndsInfrastructure r r' → q.limit r ≤ s'.2 := by
  obtain ⟨s, l, s', hreach, hstep, hcheck⟩ := TSys.play_last (T := ledgerOf 3 1)
    (s := ((⟨twoThreads, 0⟩, 0), 0)) (i := .call (.claim .default "a" true))
    (p := endsWith 3 3 0) ([.call (.runsCreate .default (submission 1 1)), .tick 1] ++
      drainOnce ++ drainOnce ++ drainOnce) ledgerNext_step
    ⟨⟨Db.fresh_fresh _ _, rfl⟩, rfl⟩ (by decide +kernel)
  obtain ⟨q, a, r, r', rfl, hr, hr', hend, hlimit, -, hfailures⟩ := endsWith_spec hcheck
  intro hlaw
  have hle := hlaw s s' q a r r' hreach.of_restrict hstep.1 hr hr' hend
  rw [hlimit, hfailures] at hle
  omega

end GraphHarbor
