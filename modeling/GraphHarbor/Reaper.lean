import GraphHarbor.Integrity

/-!
# The reaper

`requeue_expired` reclaims every expired run in one transaction. Recording the event of
a run whose thread was deleted raises, and then no run is reclaimed: the reaper recovers
every expired lease exactly when the threads of the expired runs exist.
-/

namespace GraphHarbor

open Kit Txn

variable {now : Time} {v v' : Db} {avail : Lock → Bool} {repo : RunRepository} {run : RunRow}

/-- The status a reclaimed run goes to. -/
def reclaimedStatus (run : RunRow) : RunStatus :=
  if run.retryCount < run.maxAttempts then .pending else .error

/-- The run was put back, or ended when its attempts are used up. -/
def Db.Reclaimed (v : Db) (run : RunRow) : Prop :=
  ∃ r, v.runs.find? run.runId = some r ∧ r.status = reclaimedStatus run

/-- The thread of the run, if it has one, is stored. -/
def Db.HasThread (v : Db) (run : RunRow) : Prop :=
  ∀ t, run.threadId = some t → (v.threads.find? t).isSome

/-! ## One run -/

theorem expiryChange_status {change : Transition} (h : expiryChange run = some change) :
    change.status = reclaimedStatus run := by
  unfold expiryChange at h
  unfold reclaimedStatus
  split at h
  · next hge =>
      rw [(transition_eq_some h).1, if_neg (not_lt.2 hge)]
  · next hlt =>
      rw [(transition_eq_some h).1, if_pos (not_le.1 hlt)]

theorem expiryChange_isSome (hrunning : run.status = .running)
    (hcount : run.retryCount ≤ maxInfrastructureRetries) : (expiryChange run).isSome := by
  unfold expiryChange transition
  rw [hrunning]
  split <;> simp [RunStatus.allowed, not_lt.2 hcount]

/-- What is left after one run was reclaimed. -/
theorem requeueOne_returns (hsound : v.Sound) (hrun : v.runs.find? run.runId = some run)
    {e : RuntimeEventRow} (h : (requeueOne repo now run).Returns avail v e v') :
    v'.Reclaimed run ∧ v.HasThread run ∧ v'.leases = v.leases ∧
      ∀ t, (v'.threads.find? t).isSome = (v.threads.find? t).isSome := by
  unfold requeueOne at h
  split at h
  · simp at h
  · next change hchange =>
      simp only [returns_bind, returns_assignRun] at h
      obtain ⟨_, v₁, ⟨rfl, -⟩, _, v₂, hthread, h⟩ := h
      obtain rfl := updateThreadOf_returns hthread
      have hquiet := recordRunEvent_quiet h
      have hthreads (t : ThreadId) : (v'.threads.find? t).isSome = (v.threads.find? t).isSome :=
        (hquiet.threads t).trans
          (Db.QuietStep.assignThreadOf.threads t)
      have hrow : ((v.assignRun run.runId (reaped repo now change)).assignThreadOf run.threadId
          (idled change.status)).runs.find? run.runId =
          some (run.assign (reaped repo now change)) := by
        rw [Db.assignThreadOf_runs, Db.find?_assignRun, if_pos rfl, hrun]
        rfl
      refine ⟨?_, ?_, ?_, hthreads⟩
      · obtain ⟨r, hr, hq⟩ := hquiet.find? hrow
        exact ⟨r, hr, by rw [hq.status, ← expiryChange_status hchange]; rfl⟩
      · obtain ⟨r, hr, ⟨-, hterminal, rfl⟩ | ⟨-, -, -, -, hstored⟩⟩ := recordRunEvent_returns h
        -- the run may have its terminal event already, which `record_event` then returns
        · -- a stored event of the run belongs to a stored thread
          intro t ht
          obtain ⟨he, hid, -⟩ := Db.terminalEvent_spec hterminal
          rw [Db.assignThreadOf_events, Db.assignRun_events] at he
          obtain ⟨r₀, hr₀, hsame⟩ := hsound.eventRun e he run.runId hid
          obtain rfl := Option.some.inj (hrun.symm.trans hr₀)
          exact hsound.eventThread e he t (hsame.trans ht)
        · intro t ht
          obtain rfl := Option.some.inj (hrow.symm.trans hr)
          rw [← hthreads, hquiet.threads]
          exact hstored t ht
      · rw [hquiet.leases, Db.assignThreadOf_leases, Db.assignRun_leases]

theorem requeueOne_commits (hsound : v.Sound) (hrun : v.runs.find? run.runId = some run)
    (hrunning : run.status = .running) (hthread : v.HasThread run) :
    Commits (requeueOne repo now run) v := by
  have hcount := (hsound.attempts run (Table.mem_of_find? hrun)).1
  obtain ⟨change, hchange⟩ := Option.isSome_iff_exists.1 (expiryChange_isSome hrunning hcount)
  -- the row is assigned before its event is recorded, so the event finds the new status
  have hmoves : Moves now (fun _ => False) v ((v.assignRun run.runId
      (reaped repo now change)).assignThreadOf run.threadId (idled change.status)) :=
    (Moves.assignRun hrun (reaped_move hrunning hchange)).trans Db.QuietStep.assignThreadOf.moves
  have hrow : ((v.assignRun run.runId (reaped repo now change)).assignThreadOf run.threadId
      (idled change.status)).runs.find? run.runId = some (run.assign (reaped repo now change)) := by
    rw [Db.assignThreadOf_runs, Db.find?_assignRun, if_pos rfl, hrun]
    rfl
  have hstored (t : ThreadId) (ht : run.threadId = some t) :
      (((v.assignRun run.runId (reaped repo now change)).assignThreadOf run.threadId
        (idled change.status)).threads.find? t).isSome := by
    rw [Db.QuietStep.assignThreadOf.threads]
    exact hthread t ht
  obtain ⟨e, v', he⟩ := recordRunEvent_commits (hmoves.sound hsound) hrow hstored
  refine ⟨e, v', ?_⟩
  simp only [requeueOne, hchange, returns_bind, returns_assignRun]
  exact ⟨(), _, ⟨rfl, fun _ _ => .inr rfl⟩, (), _, updateThreadOf_commits, he⟩

/-! ## All expired runs -/

section Loop

variable {runs : List RunRow}

/-- The runs of the loop: distinct, and stored as `running`. -/
structure Db.Running (v : Db) (runs : List RunRow) : Prop where
  nodup : (runs.map (·.runId)).Nodup
  stored : ∀ run ∈ runs, v.runs.find? run.runId = some run ∧ run.status = .running

theorem Db.Running.tail (h : v.Running (run :: runs))
    (hothers : ∀ x, x ≠ run.runId → v'.runs.find? x = v.runs.find? x) : v'.Running runs where
  nodup := (List.nodup_cons.1 h.nodup).2
  stored r hr := by
    have hne : r.runId ≠ run.runId := fun heq =>
      (List.nodup_cons.1 h.nodup).1 (List.mem_map.2 ⟨r, hr, heq⟩)
    rw [hothers _ hne]
    exact h.stored r (List.mem_cons_of_mem _ hr)

/-- What is left after the loop. -/
theorem requeueAll_returns (hsound : v.Sound) (hruns : v.Running runs)
    {es : List RuntimeEventRow} (h : (requeueAll repo now runs).Returns avail v es v') :
    (∀ run ∈ runs, v'.Reclaimed run ∧ v.HasThread run) ∧ v'.leases = v.leases ∧
      ∀ x, (∀ run ∈ runs, x ≠ run.runId) → v'.runs.find? x = v.runs.find? x := by
  -- the rows still to come were read before the loop: none of its steps touches them
  induction runs generalizing v es with
  | nil =>
      obtain ⟨-, rfl⟩ := returns_ret.1 h
      simp
  | cons run runs ih =>
      simp only [requeueAll, returns_bind, Prog.pure_eq, returns_ret] at h
      obtain ⟨e, v₁, he, rest, _, hrest, -, rfl⟩ := h
      obtain ⟨hrun, hrunning⟩ := hruns.stored run List.mem_cons_self
      obtain ⟨hreclaimed, hthread, hleases, hthreads⟩ := requeueOne_returns hsound hrun he
      obtain ⟨hmoves, hothers⟩ : Moves now (fun _ => False) v v₁ ∧ _ :=
        requeueOne_moves hrun hrunning he
      obtain ⟨hall, hleases', hkept⟩ := ih (hmoves.sound hsound) (hruns.tail hothers) hrest
      refine ⟨fun r hr => ?_, hleases'.trans hleases, fun x hx => ?_⟩
      · rcases List.mem_cons.1 hr with rfl | hr
        · obtain ⟨r', hr', hstatus⟩ := hreclaimed
          refine ⟨⟨r', ?_, hstatus⟩, hthread⟩
          -- the later rows are others, the one of this step stays as it was put back
          rw [hkept r.runId, hr']
          exact fun s hs heq =>
            (List.nodup_cons.1 hruns.nodup).1 (List.mem_map.2 ⟨s, hs, heq.symm⟩)
        · exact ⟨(hall r hr).1, fun t ht => hthreads t ▸ (hall r hr).2 t ht⟩
      · rw [hkept x fun s hs => hx s (List.mem_cons_of_mem _ hs),
          hothers x (hx run List.mem_cons_self)]

theorem requeueAll_commits (hsound : v.Sound) (hruns : v.Running runs)
    (hthreads : ∀ run ∈ runs, v.HasThread run) : Commits (requeueAll repo now runs) v := by
  induction runs generalizing v with
  | nil => exact ⟨[], v, returns_ret.2 ⟨rfl, rfl⟩⟩
  | cons run runs ih =>
      obtain ⟨hrun, hrunning⟩ := hruns.stored run List.mem_cons_self
      obtain ⟨e, v₁, he⟩ : Commits (requeueOne repo now run) v :=
        requeueOne_commits hsound hrun hrunning (hthreads run List.mem_cons_self)
      obtain ⟨-, -, -, hsame⟩ := requeueOne_returns hsound hrun he
      obtain ⟨hmoves, hothers⟩ : Moves now (fun _ => False) v v₁ ∧ _ :=
        requeueOne_moves hrun hrunning he
      obtain ⟨es, v₂, hes⟩ := ih (hmoves.sound hsound) (hruns.tail hothers) fun r hr t ht =>
        (hsame t).symm ▸ hthreads r (List.mem_cons_of_mem _ hr) t ht
      refine ⟨e :: es, v₂, ?_⟩
      simp only [requeueAll, returns_bind, Prog.pure_eq, returns_ret]
      exact ⟨e, v₁, he, es, v₂, hes, rfl, rfl⟩

end Loop

/-! ## The law -/

/-- The call of the reaper commits and recovers every expired run: none is left running
with an expired lease, each was put back or ended and has no lease row, and the other
runs are as they were. -/
def Recovers (repo : RunRepository) (w : World) : Prop :=
  ∃ es db, (Request.requeueExpired repo).run unlocked w.clock w.db = some (.ok (.events es), db) ∧
    (∀ r ∈ db.runs, isExpired w.clock r = false) ∧
    (∀ r ∈ w.db.runs, isExpired w.clock r = true →
      db.Reclaimed r ∧ db.leases.find? r.runId = none) ∧
    ∀ r ∈ w.db.runs, isExpired w.clock r = false → db.runs.find? r.runId = some r

/-- Every expired run has its thread. -/
def ExpiredHaveThreads (w : World) : Prop :=
  ∀ r ∈ w.db.runs, isExpired w.clock r = true → w.db.HasThread r

/-- The rows the loop runs over. -/
theorem lockExpired_rows {rows : List RunRow}
    (h : Returns unlocked (.perform (.lockRuns (isExpired now) fun _ _ => true)) v rows v') :
    v' = v ∧ v.Running rows ∧ ∀ r, r ∈ rows ↔ r ∈ v.runs ∧ isExpired now r = true := by
  obtain ⟨hv, hmem, hnodup⟩ := lockRuns_rows h
  have hrows (r : RunRow) : r ∈ rows ↔ r ∈ v.runs ∧ isExpired now r = true := by
    rw [hmem, Db.mem_runs]
    simp [unlocked]
  refine ⟨hv, ⟨hnodup, fun run hrun => ?_⟩, hrows⟩
  obtain ⟨hfind, hexpired, -⟩ := (hmem run).1 hrun
  simp only [isExpired, Bool.and_eq_true, decide_eq_true_eq] at hexpired
  exact ⟨hfind, hexpired.1⟩

theorem isExpired_of_status {r : RunRow} (h : r.status ≠ .running) : isExpired now r = false := by
  simp [isExpired, h]

/-- A commit of the reaper recovers every expired run, and they had their threads. -/
theorem requeueExpired_returns (hsound : v.Sound) {es : List RuntimeEventRow}
    (h : (requeueExpired repo now).Returns unlocked v es v') :
    (∀ r ∈ v.runs, isExpired now r = true →
      v.HasThread r ∧ v'.Reclaimed r ∧ v'.leases.find? r.runId = none) ∧
    (∀ r ∈ v'.runs, isExpired now r = false) ∧
    ∀ r ∈ v.runs, isExpired now r = false → v'.runs.find? r.runId = some r := by
  have hmoves : Moves now (fun _ => False) v v' := requeueExpired_moves h
  simp only [requeueExpired, returns_bind, returns_write, Prog.pure_eq, returns_ret] at h
  obtain ⟨rows, w, hrows, es, v₁, hall, _, _, rfl, -, rfl⟩ := h
  obtain ⟨hw, hrunning, hmem⟩ := lockExpired_rows hrows
  subst w
  obtain ⟨hreclaimed, -, hkept⟩ := requeueAll_returns hsound hrunning hall
  refine ⟨fun r hr hexpired => ?_, fun r' hr' => ?_, fun r hr hexpired => ?_⟩
  · obtain ⟨hr₁, hthread⟩ := hreclaimed r ((hmem r).2 ⟨hr, hexpired⟩)
    refine ⟨hthread, hr₁, ?_⟩
    rw [Table.find?_filter]
    cases hl : v₁.leases.find? r.runId with
    | none => rfl
    | some l =>
        have hid : l.runId = r.runId := Table.key_of_find? hl
        have hany : rows.any (fun run => run.runId = l.runId) = true :=
          List.any_eq_true.2 ⟨r, (hmem r).2 ⟨hr, hexpired⟩, by simp [hid]⟩
        simp [Option.filter, hany]
  -- a row behind the loop was there before it: no move adds a run
  · obtain ⟨r, hr, hrun⟩ : ∃ r ∈ v.runs, r.runId = r'.runId := by
      refine hmoves.preserves (P := fun w => ∀ r' ∈ w.runs, ∃ r ∈ v.runs, r.runId = r'.runId)
        (fun w w' hw hmove r' hr' => ?_) (fun r hr => ⟨r, hr, rfl⟩) r' hr'
      obtain ⟨r₁, hr₁, hm⟩ := hmove.origin hr'
      obtain ⟨r, hr, hid⟩ := hw r₁ hr₁
      exact ⟨r, hr, hid.trans hm.sameAttempts.runId.symm⟩
    have hfind' : v₁.runs.find? r.runId = some r' := hrun ▸ Db.mem_runs.1 hr'
    by_cases hexpired : isExpired now r = true
    · obtain ⟨⟨r₁, hr₁, hstatus⟩, -⟩ := hreclaimed r ((hmem r).2 ⟨hr, hexpired⟩)
      obtain rfl := Option.some.inj (hr₁.symm.trans hfind')
      refine isExpired_of_status ?_
      rw [hstatus, reclaimedStatus]
      split <;> simp
    · rw [hkept r.runId fun s hs heq => ?_, Db.mem_runs.1 hr] at hfind'
      · obtain rfl := Option.some.inj hfind'
        simpa using hexpired
      -- a row the loop did not reach had not expired
      · obtain ⟨hs₀, hs₁⟩ := (hmem s).1 hs
        obtain rfl := Table.eq_of_mem_of_key_eq hr hs₀ heq
        exact hexpired hs₁
  · change v₁.runs.find? r.runId = some r
    rw [hkept r.runId fun s hs heq => ?_, Db.mem_runs.1 hr]
    obtain ⟨hs₀, hs₁⟩ := (hmem s).1 hs
    obtain rfl := Table.eq_of_mem_of_key_eq hr hs₀ heq
    rw [hexpired] at hs₁
    cases hs₁

theorem requeueExpired_commits (hsound : v.Sound)
    (hthreads : ∀ r ∈ v.runs, isExpired now r = true → v.HasThread r) :
    Commits (requeueExpired repo now) v := by
  have hrows : Returns unlocked (.perform (.lockRuns (isExpired now) fun _ _ => true)) v _ v :=
    returns_lockRuns.2 ⟨rfl, rfl⟩
  obtain ⟨-, hrunning, hmem⟩ := lockExpired_rows hrows
  obtain ⟨es, v₁, hall⟩ : Commits (requeueAll repo now _) v :=
    requeueAll_commits hsound hrunning
      fun r hr => hthreads r ((hmem r).1 hr).1 ((hmem r).1 hr).2
  simp only [Commits, requeueExpired, returns_bind, returns_write, Prog.pure_eq, returns_ret]
  exact ⟨es, _, _, v, hrows, es, v₁, hall, (), _, rfl, rfl, rfl⟩

/-- The reaper recovers every expired lease exactly when the threads of the expired runs
exist. -/
theorem reaper_recovers_iff (repo : RunRepository) (w : World)
    (hreach : (service fun _ => True).Reachable w) :
    Recovers repo w ↔ ExpiredHaveThreads w := by
  have hsound := sound_inductive.invariant w hreach
  constructor
  · rintro ⟨es, db, hrun, -⟩
    rcases Request.run_cases hrun with ⟨a, ha, hret⟩ | ⟨⟨e, he⟩, -⟩
    · cases ha
      obtain ⟨x, hret, -⟩ := replying_returns.1 hret
      exact fun r hr hexpired => ((requeueExpired_returns hsound hret).1 r hr hexpired).1
    · cases he
  · intro hthreads
    obtain ⟨es, db, hret⟩ : Commits (requeueExpired repo w.clock) w.db :=
      requeueExpired_commits hsound hthreads
    obtain ⟨hexpired, hnone, hkept⟩ := requeueExpired_returns hsound hret
    refine ⟨es, db, ?_, hnone, fun r hr he => (hexpired r hr he).2, hkept⟩
    have hreply : ((Request.requeueExpired repo).program w.clock).Returns unlocked w.db
        (.events es) db := replying_returns.2 ⟨es, hret, rfl⟩
    exact run_ok_iff.2 hreply

/-! ## Two expired runs -/

/-- The assistant and the two threads of the script. -/
def twoThreads : Db :=
  .fresh (Table.empty.insert ⟨1, "agent"⟩)
    ((Table.empty.insert { threadId := 1 }).insert { threadId := 2 })

/-- A submission on a thread. -/
def submission (id : RunId) (t : ThreadId) : Submission where
  runId := id
  assistantId := 1
  threadId := some t
  kwargs := []
  metadata := []
  idempotencyKey := none
  multitaskStrategy := none

/-- Two runs execute; the requests `qs` follow, and both leases expire. -/
def expiryScript (qs : List Input) : List Input :=
  [.call (.runsCreate .default (submission 1 1)), .tick 1,
    .call (.runsCreate .default (submission 2 2)), .tick 1,
    .call (.claim .default "a" true), .call (.claim .default "b" true)] ++ qs ++
  [.tick (61 * second)]

/-- Two runs have expired, and their threads exist. -/
def twoExpired (w : World) : Bool :=
  (w.db.runs.rows.filter (isExpired w.clock)).length = 2 &&
  w.db.runs.rows.all fun r => r.threadId.all fun t => (w.db.threads.find? t).isSome

/-- Both runs are recovered while their threads exist. -/
theorem reaper_recovers_both : ∃ w, (service fun _ => True).Reachable w ∧
    (w.db.runs.rows.filter (isExpired w.clock)).length = 2 ∧ Recovers .default w := by
  obtain ⟨w, hreach, hexpired⟩ : ∃ w, (service fun _ => True).Reachable w ∧ twoExpired w = true :=
    World.play_reachable (Db.fresh_fresh _ _)
      (show ((World.mk twoThreads 0).play (expiryScript [])).any _ = true by decide +kernel)
  simp only [twoExpired, Bool.and_eq_true, decide_eq_true_eq, List.all_eq_true] at hexpired
  refine ⟨w, hreach, hexpired.1, (reaper_recovers_iff .default w hreach).2 fun r hr _ t ht => ?_⟩
  have hthread := hexpired.2 r hr
  rwa [ht] at hthread

/-- The reaper fails on the orphaned run while another run waits for its recovery. -/
def reaperFails (w : World) : Bool :=
  (w.db.runs.rows.any fun r =>
    isExpired w.clock r && r.threadId = some 2 && (w.db.threads.find? 2).isSome) &&
  ((Request.requeueExpired .default).run unlocked w.clock w.db).map (·.1) =
    some (.error (missingThread 1))

/-- One run whose thread was deleted keeps the run of another thread from being
recovered. -/
theorem reaper_blocked_by_orphan : ∃ w, (service fun _ => True).Reachable w ∧
    (∃ r ∈ w.db.runs, isExpired w.clock r = true ∧ r.threadId = some 2 ∧
      (w.db.threads.find? 2).isSome) ∧ ¬ Recovers .default w := by
  obtain ⟨w, hreach, hfails⟩ : ∃ w, (service fun _ => True).Reachable w ∧ reaperFails w = true :=
    World.play_reachable (Db.fresh_fresh _ _)
      (show ((World.mk twoThreads 0).play (expiryScript [.call (.threadsDelete 1)])).any _ = true
        by decide +kernel)
  simp only [reaperFails, Bool.and_eq_true, List.any_eq_true, decide_eq_true_eq] at hfails
  obtain ⟨⟨r, hr, ⟨hexpired, hthread⟩, hstored⟩, hrun⟩ := hfails
  refine ⟨w, hreach, ⟨r, hr, hexpired, hthread, hstored⟩, ?_⟩
  rintro ⟨es, db, hrecovers, -⟩
  rw [hrecovers] at hrun
  cases hrun

end GraphHarbor
