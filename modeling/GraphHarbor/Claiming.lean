import GraphHarbor.Reaper

/-!
# Work conservation

`claim_next` picks the first eligible run by an SQL predicate and checks it again in
Python. A run that passes the first check and fails the second stays the first one: it
blocks the claims of every other run. A claim makes progress exactly when the first
eligible run is not such a blocker.
-/

namespace GraphHarbor

open Kit Txn

variable {now : Time} {v v' : Db} {avail : Lock → Bool} {repo : RunRepository} {run : RunRow}
  {owner : String}

/-- The order in which `claim_next` picks. -/
def claimOrder (r : RunRow) : Time ×ₗ RunId := toLex (r.createdAt, r.runId)

/-- The run fails the check made under its lock: its thread is gone, or waits for an
answer and the command is no resume object. -/
def Db.blocks (v : Db) (r : RunRow) : Bool :=
  match r.threadId with
  | none => false
  | some t =>
      match v.threads.find? t with
      | none => true
      | some thread => !thread.interrupts.isEmpty && !isResume r.kwargs

/-- The first eligible run is a blocker. -/
def HeadBlocked (w : World) : Prop :=
  ∃ b ∈ w.db.runs, eligible w.clock w.db b = true ∧ w.db.blocks b = true ∧
    ∀ r ∈ w.db.runs, eligible w.clock w.db r = true → claimOrder b ≤ claimOrder r

/-- A due run that may be executed: it has no thread, or it is the head of the queue of an
existing thread that is free and waits for no other answer. -/
structure Db.Claimable (now : Time) (v : Db) (r : RunRow) : Prop where
  pending : r.status = .pending
  due : isDue now r = true
  thread : ∀ t, r.threadId = some t → ∃ thread, v.threads.find? t = some thread ∧
    (∀ x ∈ v.runs, occupies now t x = false) ∧
    (thread.interrupts.isEmpty = true ∨ resumeKey r = true) ∧
    ∀ x ∈ v.runs, precedes t r x = false

/-- The claim commits, and starts a pending run or moves one to a terminal status. -/
def Progress (repo : RunRepository) (owner : String) (w : World) : Prop :=
  ∃ a db, engine.run unlocked (claimNext repo w.clock owner) w.db = some (.ok a, db) ∧
    ∃ r ∈ w.db.runs, r.status = .pending ∧ ∃ r', db.runs.find? r.runId = some r' ∧
      (a = some r' ∧ r'.status = .running ∨ r'.status.isTerminal = true)

/-! ## Eligible runs -/

theorem Db.Claimable.eligible {r : RunRow} (h : v.Claimable now r) :
    GraphHarbor.eligible now v r = true := by
  unfold GraphHarbor.eligible
  cases ht : r.threadId with
  | none => simp [h.pending, h.due]
  | some t =>
      obtain ⟨thread, hthread, hfree, hanswer, hhead⟩ := h.thread t ht
      -- the thread that `eligible` reads is the stored one
      have hwaits : v.threads.rows.any (interruptedThread t r) = false := by
        refine List.any_eq_false.2 fun x hx => ?_
        simp only [interruptedThread, Bool.and_eq_true, decide_eq_true_eq, Bool.not_eq_true',
          not_and, Bool.not_eq_false]
        rintro ⟨hid, hinterrupts⟩
        obtain rfl := Option.some.inj (hthread.symm.trans (Table.find?_eq_some.2 ⟨hx, hid⟩))
        exact hanswer.resolve_left (by simp [hinterrupts])
      have hbusy : v.runs.rows.any (occupies now t) = false :=
        List.any_eq_false.2 fun x hx => by simp [hfree x hx]
      have hfirst : v.runs.rows.any (precedes t r) = false :=
        List.any_eq_false.2 fun x hx => by simp [hhead x hx]
      simp [h.pending, h.due, hwaits, hbusy, hfirst]

/-- The thread of an eligible run is free. -/
theorem eligible_free {r x : RunRow} {t : ThreadId} (h : eligible now v r = true)
    (ht : r.threadId = some t) (hx : x ∈ v.runs) : occupies now t x = false := by
  simp only [eligible, ht, Bool.and_eq_true, Bool.not_eq_true', List.any_eq_false] at h
  simpa using h.2.1.1 x hx

/-- An eligible run whose thread exists may be executed. -/
theorem claimable_of_eligible {r : RunRow} (h : GraphHarbor.eligible now v r = true)
    (hthread : ∀ t, r.threadId = some t → (v.threads.find? t).isSome) : v.Claimable now r where
  pending := eligible_pending h
  due := by
    simp only [GraphHarbor.eligible, Bool.and_eq_true] at h
    exact h.1.2
  thread t ht := by
    obtain ⟨thread, hfind⟩ := Option.isSome_iff_exists.1 (hthread t ht)
    refine ⟨thread, hfind, fun x hx => eligible_free h ht hx, ?_, ?_⟩
    all_goals simp only [GraphHarbor.eligible, ht, Bool.and_eq_true, Bool.not_eq_true'] at h
    · have hwaits := List.any_eq_false.1 h.2.1.2 thread (Table.mem_of_find? hfind)
      have hid : thread.threadId = t := Table.key_of_find? hfind
      by_cases hi : thread.interrupts.isEmpty = true
      · exact .inl hi
      · exact .inr (by simpa [interruptedThread, hid, hi] using hwaits)
    · exact fun x hx => by simpa using List.any_eq_false.1 h.2.2 x hx

/-- The check under the lock lets through the runs that do not block. -/
theorem recheck_commits (hrun : run ∈ v.runs) (heligible : eligible now v run = true) :
    (recheck now run).Returns unlocked v (!v.blocks run) v := by
  unfold recheck Db.blocks
  cases ht : run.threadId with
  | none => exact returns_ret.2 ⟨rfl, rfl⟩
  | some t =>
      simp only [returns_bind, returns_lockThreadIf]
      refine ⟨v.threads.find? t, v, ⟨rfl, .inl ⟨rfl, fun _ => rfl⟩⟩, ?_⟩
      cases v.threads.find? t with
      | none => exact returns_ret.2 ⟨rfl, rfl⟩
      | some thread =>
          by_cases hblocks : (!thread.interrupts.isEmpty && !isResume run.kwargs) = true
          · simp only [hblocks, if_true]
            exact returns_ret.2 ⟨rfl, rfl⟩
          · simp only [hblocks, Bool.false_eq_true, if_false, returns_query, and_true]
            -- the second query of `claim_next` sees what the first one saw: nobody wrote in between
            exact (List.any_eq_true.2 ⟨run, hrun, by simp [heligible]⟩).symm

/-- The run that `claim_next` picks. -/
theorem pickRun_first {b : RunRow} (hb : b ∈ v.runs) (heligible : eligible now v b = true)
    (hfirst : ∀ r ∈ v.runs, eligible now v r = true → claimOrder b ≤ claimOrder r) :
    Returns unlocked (.perform (.pickRun (eligible now) claimOrder)) v (some b) v := by
  refine returns_pickRun.2 ⟨?_, rfl⟩
  have hmem : b ∈ v.runs.rows.filter fun r => eligible now v r && unlocked (.run r.runId) :=
    List.mem_filter.2 ⟨hb, by simp [heligible, unlocked]⟩
  cases hleast : least claimOrder
      (v.runs.rows.filter fun r => eligible now v r && unlocked (.run r.runId)) with
  | none =>
      rw [least_eq_none.1 hleast] at hmem
      cases hmem
  | some r =>
      obtain ⟨hr, he⟩ := List.mem_filter.1 (least_mem hleast)
      -- the claim order ends with the id, so the least row is this one
      have heq : claimOrder b = claimOrder r :=
        le_antisymm (hfirst r hr (Bool.and_eq_true_iff.1 he).1) (least_le hleast hmem)
      have hid : b.runId = r.runId := congrArg (fun k => (ofLex k).2) heq
      rw [Table.eq_of_mem_of_key_eq hb hr hid]

/-! ## A claim that gets through -/

theorem captureBaseline_commits {id : RunId} {thread : ThreadRow} :
    Commits (captureBaseline now id thread) v := by
  refine .bind (returns_query.2 ⟨rfl, rfl⟩) ?_
  split
  · exact ⟨(), v, returns_ret.2 ⟨rfl, rfl⟩⟩
  · refine .bind (returns_query.2 ⟨rfl, rfl⟩) (.bind (returns_query.2 ⟨rfl, rfl⟩) ?_)
    exact ⟨(), _, returns_write.2 rfl⟩

theorem enterThread_commits (heligible : eligible now v run = true) :
    ∃ v', (enterThread now run).Returns unlocked v true v' := by
  unfold enterThread
  cases ht : run.threadId with
  | none => exact ⟨v, returns_ret.2 ⟨rfl, rfl⟩⟩
  | some t =>
      simp only [returns_bind, returns_lockThread]
      cases hthread : v.threads.find? t with
      | none => exact ⟨v, _, _, ⟨rfl, rfl, fun _ => rfl⟩, returns_ret.2 ⟨rfl, rfl⟩⟩
      | some thread =>
          -- what `executesBeside` asks for is part of `occupies`, which was refused before
          have hfree : v.runs.rows.any (executesBeside t run.runId) = false := by
            refine List.any_eq_false.2 fun x hx => ?_
            have hx := eligible_free heligible ht hx
            simp only [occupies, executesBeside, Bool.and_eq_false_iff,
              Bool.or_eq_false_iff] at hx ⊢
            simp only [Bool.not_eq_true]
            rcases hx with hx | ⟨hx, -⟩ <;> simp_all
          obtain ⟨u, v₁, hcapture⟩ : Commits (captureBaseline now run.runId thread) v :=
            captureBaseline_commits
          refine ⟨v₁.assignThread t (.withStatus .busy), _, _, ⟨rfl, rfl, fun _ => rfl⟩, ?_⟩
          simp only [returns_bind, returns_query]
          refine ⟨_, _, ⟨rfl, rfl⟩, ?_⟩
          simp only [hfree, Bool.false_eq_true, if_false, returns_bind, returns_assignThread,
            Prog.pure_eq, returns_ret]
          exact ⟨u, v₁, hcapture, (), _, ⟨rfl, fun _ _ => .inr rfl⟩, trivial, rfl⟩

theorem startRun_commits (hrun : v.runs.find? run.runId = some run)
    (heligible : eligible now v run = true) :
    ∃ v', (startRun repo now owner run).Returns unlocked v (some (claimed repo now owner run)) v' ∧
      v'.runs.find? run.runId = some (claimed repo now owner run) := by
  obtain ⟨v₁, hv₁⟩ := enterThread_commits heligible
  have hrow : (v₁.assignRun run.runId (claimed repo now owner)).runs.find? run.runId =
      some (claimed repo now owner run) := by
    rw [Db.find?_assignRun, if_pos rfl, (enterThread_returns hv₁).runs, hrun]
    rfl
  refine ⟨{ v₁.assignRun run.runId (claimed repo now owner) with
    leases := v₁.leases.upsert
      { runId := run.runId, owner, expiresAt := now + repo.lease, heartbeatAt := now
        generation := run.retryCount + 1 } }, ?_, hrow⟩
  simp only [startRun, returns_bind]
  refine ⟨true, v₁, hv₁, ?_⟩
  simp only [if_true, returns_bind, returns_assignRun, returns_write, returns_getRun]
  exact ⟨(), _, ⟨rfl, fun _ _ => .inr rfl⟩, (), _, rfl, hrow.symm, rfl⟩

/-- A run without attempts left is moved to `error`. -/
theorem exhaust_commits (hsound : v.Sound) (hrun : v.runs.find? run.runId = some run)
    (hpending : run.status = .pending)
    (hthread : ∀ t, run.threadId = some t → (v.threads.find? t).isSome) :
    ∃ v', (exhaust now run).Returns unlocked v () v' ∧
      ∃ r', v'.runs.find? run.runId = some r' ∧ r'.status = .error := by
  have hmove : RunMove now (fun _ => False) run (run.assign (exhausted now)) :=
    .exhausted ⟨⟨rfl, rfl, rfl, rfl, rfl, fun _ _ => rfl⟩, rfl, rfl⟩ hpending rfl rfl rfl rfl
  have hmoves : Moves now (fun _ => False) v ((v.assignRun run.runId
      (exhausted now)).assignThreadOf run.threadId (.withStatus .idle)) :=
    (Moves.assignRun hrun hmove).trans Db.QuietStep.assignThreadOf.moves
  have hrow : ((v.assignRun run.runId (exhausted now)).assignThreadOf run.threadId
      (.withStatus .idle)).runs.find? run.runId = some (run.assign (exhausted now)) := by
    rw [Db.assignThreadOf_runs, Db.find?_assignRun, if_pos rfl, hrun]
    rfl
  have hstored (t : ThreadId) (ht : run.threadId = some t) :
      (((v.assignRun run.runId (exhausted now)).assignThreadOf run.threadId
        (.withStatus .idle)).threads.find? t).isSome := by
    rw [Db.QuietStep.assignThreadOf.threads]
    exact hthread t ht
  obtain ⟨e, v', he⟩ := recordRunEvent_commits (hmoves.sound hsound) hrow hstored
  refine ⟨v', ?_, ?_⟩
  · simp only [exhaust, returns_bind, returns_assignRun, Prog.pure_eq, returns_ret]
    exact ⟨(), _, ⟨rfl, fun _ _ => .inr rfl⟩, (), _, updateThreadOf_commits, e, v', he,
      trivial, rfl⟩
  · obtain ⟨r', hr', hq⟩ := (recordRunEvent_quiet he).find? hrow
    exact ⟨r', hr', hq.status⟩

/-! ## The law -/

/-- The first eligible run, when it is not a blocker, is started or ended. -/
theorem progress_of_first {w : World} {b : RunRow} (hsound : w.db.Sound) (hb : b ∈ w.db.runs)
    (heligible : eligible w.clock w.db b = true) (hfree : w.db.blocks b = false)
    (hfirst : ∀ r ∈ w.db.runs, eligible w.clock w.db r = true → claimOrder b ≤ claimOrder r) :
    Progress repo owner w := by
  have hfind := Db.mem_runs.1 hb
  have hpending := eligible_pending heligible
  have hpick := pickRun_first hb heligible hfirst
  have hcheck := hfree ▸ recheck_commits hb heligible
  by_cases hattempts : b.retryCount ≥ b.maxAttempts
  -- a run of no stored thread would be a blocker
  · have hthread (t : ThreadId) (ht : b.threadId = some t) : (w.db.threads.find? t).isSome := by
      simp only [Db.blocks, ht] at hfree
      cases hfind : w.db.threads.find? t with
      | none => simp [hfind] at hfree
      | some thread => rfl
    obtain ⟨v', hexhaust, r', hr', hstatus⟩ := exhaust_commits hsound hfind hpending hthread
    refine ⟨none, v', run_ok_iff.2 ?_, b, hb, hpending, r', hr', .inr (by rw [hstatus]; rfl)⟩
    simp only [claimNext, returns_bind]
    refine ⟨some b, w.db, hpick, ?_⟩
    simp only [returns_bind]
    refine ⟨true, w.db, hcheck, ?_⟩
    simp only [if_true, hattempts, returns_bind, Prog.pure_eq, returns_ret]
    exact ⟨(), v', hexhaust, trivial, rfl⟩
  · obtain ⟨v', hstart, hrow⟩ : ∃ v', (startRun repo w.clock owner b).Returns unlocked w.db
        (some (claimed repo w.clock owner b)) v' ∧
        v'.runs.find? b.runId = some (claimed repo w.clock owner b) :=
      startRun_commits hfind heligible
    refine ⟨_, v', run_ok_iff.2 ?_, b, hb, hpending, _, hrow, .inl ⟨rfl, rfl⟩⟩
    simp only [claimNext, returns_bind]
    refine ⟨some b, w.db, hpick, ?_⟩
    simp only [returns_bind]
    refine ⟨true, w.db, hcheck, ?_⟩
    simp only [if_true, hattempts, if_false]
    exact hstart

/-- While the first eligible run is a blocker a claim changes nothing. -/
theorem HeadBlocked.claims_nothing {w : World} (h : HeadBlocked w) :
    engine.run unlocked (claimNext repo w.clock owner) w.db = some (.ok none, w.db) := by
  obtain ⟨b, hb, heligible, hblocks, hfirst⟩ := h
  have hcheck := hblocks ▸ recheck_commits hb heligible
  refine run_ok_iff.2 ?_
  simp only [claimNext, returns_bind]
  refine ⟨some b, w.db, pickRun_first hb heligible hfirst, ?_⟩
  simp only [returns_bind]
  exact ⟨false, w.db, hcheck, returns_ret.2 ⟨rfl, rfl⟩⟩

theorem HeadBlocked.no_progress {w : World} (h : HeadBlocked w) : ¬ Progress repo owner w := by
  -- the state does not change, and a pending run would have to move
  rintro ⟨a, db, hrun, r, hr, hpending, r', hr', hmoved⟩
  rw [h.claims_nothing] at hrun
  obtain ⟨rfl, rfl⟩ : none = a ∧ w.db = db := by simpa using hrun
  obtain rfl := Option.some.inj ((Db.mem_runs.1 hr).symm.trans hr')
  simp [hpending] at hmoved

/-- With a claimable run, a claim makes progress exactly when the first eligible run is not
a blocker. -/
theorem claim_progress_iff (repo : RunRepository) (owner : String) (w : World)
    (hreach : (service fun _ => True).Reachable w)
    (hclaimable : ∃ r ∈ w.db.runs, w.db.Claimable w.clock r) :
    Progress repo owner w ↔ ¬ HeadBlocked w := by
  obtain ⟨r, hr, hclaimable⟩ := hclaimable
  constructor
  · exact fun hprogress hblocked => hblocked.no_progress hprogress
  · intro hblocked
    have hsome : least claimOrder (w.db.runs.rows.filter (eligible w.clock w.db)) ≠ none :=
      fun hnone => by
        have hmem := List.mem_filter.2 ⟨hr, hclaimable.eligible⟩
        rw [least_eq_none.1 hnone] at hmem
        cases hmem
    obtain ⟨b, hleast⟩ := Option.ne_none_iff_exists'.1 hsome
    -- the least eligible run is the head, and by assumption it does not block
    obtain ⟨hb, heligible⟩ := List.mem_filter.1 (least_mem hleast)
    have hfirst (r : RunRow) (hr : r ∈ w.db.runs) (he : eligible w.clock w.db r = true) :
        claimOrder b ≤ claimOrder r := least_le hleast (List.mem_filter.2 ⟨hr, he⟩)
    have hfree : w.db.blocks b = false :=
      Bool.of_not_eq_true fun hb' => hblocked ⟨b, hb, heligible, hb', hfirst⟩
    exact progress_of_first (sound_inductive.invariant w hreach) hb heligible hfree hfirst

/-! ## Two waiting runs -/

/-- Two runs wait on two threads; the requests `qs` follow. -/
def waitingScript (qs : List Input) : List Input :=
  [.call (.runsCreate .default (submission 1 1)), .tick 1,
    .call (.runsCreate .default (submission 2 2)), .tick 1] ++ qs

/-- Some run is claimable, and the first eligible run is no blocker. -/
def noneBlocked (w : World) : Bool :=
  (w.db.runs.rows.any fun r =>
    eligible w.clock w.db r && r.threadId.all fun t => (w.db.threads.find? t).isSome) &&
  w.db.runs.rows.all fun b => !w.db.blocks b

/-- A claim makes progress while both threads exist. -/
theorem claim_progress_two : ∃ w, (service fun _ => True).Reachable w ∧
    Progress .default "a" w := by
  obtain ⟨w, hreach, hfree⟩ : ∃ w, (service fun _ => True).Reachable w ∧ noneBlocked w = true :=
    World.play_reachable (Db.fresh_fresh _ _)
      (show ((World.mk twoThreads 0).play (waitingScript [])).any _ = true by decide +kernel)
  simp only [noneBlocked, Bool.and_eq_true, List.any_eq_true, List.all_eq_true,
    Bool.not_eq_true'] at hfree
  obtain ⟨⟨r, hr, heligible, hthread⟩, hblocks⟩ := hfree
  have hclaimable : w.db.Claimable w.clock r := claimable_of_eligible heligible fun t ht => by
    rwa [ht] at hthread
  refine ⟨w, hreach, (claim_progress_iff .default "a" w hreach ⟨r, hr, hclaimable⟩).2 ?_⟩
  rintro ⟨b, hb, -, hblocked, -⟩
  rw [hblocks b hb] at hblocked
  cases hblocked

/-- The run of the deleted thread is the first eligible one, and the other run is eligible
on an existing thread. -/
def orphanFirst (w : World) : Bool :=
  (w.db.runs.rows.any fun b => eligible w.clock w.db b && w.db.blocks b &&
    w.db.runs.rows.all fun r => claimOrder b ≤ claimOrder r) &&
  w.db.runs.rows.any fun r => eligible w.clock w.db r && r.threadId = some 2 &&
    (w.db.threads.find? 2).isSome

/-- The run of a deleted thread keeps the run of another thread from being claimed. -/
theorem claim_blocked_by_orphan : ∃ w, (service fun _ => True).Reachable w ∧
    (∃ r ∈ w.db.runs, w.db.Claimable w.clock r) ∧ ¬ Progress .default "a" w := by
  obtain ⟨w, hreach, hfirst⟩ : ∃ w, (service fun _ => True).Reachable w ∧ orphanFirst w = true :=
    World.play_reachable (Db.fresh_fresh _ _)
      (show ((World.mk twoThreads 0).play (waitingScript [.call (.threadsDelete 1)])).any _ = true
        by decide +kernel)
  simp only [orphanFirst, Bool.and_eq_true, List.any_eq_true, List.all_eq_true,
    decide_eq_true_eq] at hfirst
  obtain ⟨⟨b, hb, ⟨heligible, hblocks⟩, hle⟩, r, hr, ⟨he, hthread⟩, hstored⟩ := hfirst
  have hblocked : HeadBlocked w := ⟨b, hb, heligible, hblocks, fun r hr _ => hle r hr⟩
  refine ⟨w, hreach, ⟨r, hr, claimable_of_eligible he fun t ht => ?_⟩, hblocked.no_progress⟩
  rw [hthread] at ht
  exact Option.some.inj ht ▸ hstored

end GraphHarbor
