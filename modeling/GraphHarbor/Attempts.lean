import GraphHarbor.Attribution
import GraphHarbor.Ends

/-!
# Attempts are bounded, and no transition is refused

`transition` refuses a pair of statuses, a reason or a counter out of range. What the rows
satisfy in every state the service reaches (`RunRow.Guarded`) says that its callers never
ask for such a transition, and that a run is claimed at most three times.
-/

namespace GraphHarbor

open Kit Txn

variable {now : Time} {S : RunRow → Prop} {v v' w : Db} {avail : Lock → Bool} {id x : RunId}
  {th : Option ThreadId} {α β : Type}

/-! ## The invariant of a row -/

/-- What `transition` checks, as facts about the stored row. -/
structure RunRow.Guarded (r : RunRow) : Prop where
  attempts : r.retryCount ≤ maxInfrastructureRetries
  limit : r.maxAttempts ≤ maxInfrastructureRetries
  /-- The run may be tried. -/
  tried : 0 < r.maxAttempts
  /-- A run with a lease runs, or was interrupted while it ran. -/
  leased : r.leaseOwner.isSome → r.status = .running ∨ r.status = .interrupted

/-- Every stored run is guarded. -/
def Db.Guarded (v : Db) : Prop := ∀ r ∈ v.runs, r.Guarded

/-- No move touches a counter or a limit, and a run that keeps its lease runs on or is
interrupted. -/
theorem RunMove.guarded {r r' : RunRow} (h : RunMove now S r r') (hr : r.Guarded) :
    r'.Guarded where
  attempts := h.sameAttempts.retryCount ▸ hr.attempts
  limit := h.sameAttempts.maxAttempts ▸ hr.limit
  tried := h.sameAttempts.maxAttempts ▸ hr.tried
  leased howner := by
    cases h with
    | quiet h =>
        rw [h.status]
        exact hr.leased (h.leaseOwner ▸ howner)
    | renewed _ _ hs => exact .inl hs
    | released _ _ _ _ hnone => simp [hnone] at howner
    | interrupted _ _ hs => exact .inr hs
    | rollingBack _ _ hs => exact .inr hs
    | leaseReleased _ _ _ _ _ hnone => simp [hnone] at howner
    | exhausted _ hp _ _ ho =>
        rcases hr.leased (ho ▸ howner) with h | h <;> rw [hp] at h <;> cases h

/-- One move, for all runs. -/
theorem Move.guarded (hmove : Move now S v v') (h : v.Guarded) : v'.Guarded := by
  intro r' hr'
  obtain ⟨r, hr, hrun⟩ := hmove.origin hr'
  exact hrun.guarded (h r hr)

/-- A transaction of moves. -/
theorem Moves.guarded (hmoves : Moves now S v v') (h : v.Guarded) : v'.Guarded :=
  hmoves.preserves (P := Db.Guarded) (fun _ _ hv hmove => hmove.guarded hv) h

/-- A submission is bounded by the checks of its request. -/
theorem Submit.guarded {r : RunRow} (hsubmit : Submit r v v') (h : v.Guarded) : v'.Guarded := by
  intro r' hr'
  rcases hsubmit.origin hr' with rfl | ⟨hr, -⟩
  · refine ⟨by simp [hsubmit.submitted.retryCount], hsubmit.submitted.maxAttempts.2,
      hsubmit.submitted.maxAttempts.1, fun ho => ?_⟩
    simp [hsubmit.submitted.leaseOwner] at ho
  · exact h r' hr

/-- The limit a claim stores is positive again. -/
theorem Start.tried {repo : RunRepository} {owner : String} {run : RunRow}
    (hstart : Start repo now owner run v v') : 0 < (claimed repo now owner run).maxAttempts := by
  have hattempts := hstart.attempts
  have hrepo := repo.one_le_attempts
  show 0 < min (attemptsOr run.maxAttempts repo.maxAttempts) repo.maxAttempts
  rw [attemptsOr, if_neg (by omega)]
  omega

/-- A claim uses one attempt, which the picked run had left. -/
theorem Start.guarded {repo : RunRepository} {owner : String} {run : RunRow}
    (hstart : Start repo now owner run v v') (h : v.Guarded) : v'.Guarded := by
  intro r' hr'
  rcases hstart.origin hr' with rfl | ⟨hr, -⟩
  · have hrun := h run (Table.mem_of_find? hstart.found)
    have hlimit : min (attemptsOr run.maxAttempts repo.maxAttempts) repo.maxAttempts ≤
        repo.maxAttempts := min_le_right _ _
    exact ⟨le_trans hstart.attempts hrun.limit, hlimit.trans repo.attempts_le,
      hstart.tried, fun _ => .inl rfl⟩
  · exact h r' hr

/-- The invariant holds in every state the service reaches. -/
theorem guarded_inductive {allows : Request → Prop} :
    (service allows).Inductive fun w => w.db.Guarded := by
  refine service_inductive (P := fun _ v => v.Guarded) ?_ ?_ ?_ ?_ ?_
  · intro now v hfresh r hr
    rw [hfresh.runs] at hr
    simp at hr
  · exact fun now d v h => h
  · exact fun now S v v' h hmove => hmove.guarded h
  · exact fun now r v v' h hsubmit => hsubmit.guarded h
  · exact fun repo now owner r v v' h hstart => hstart.guarded h

/-! ## Status changes -/

/-- Where a transaction that claims nothing can take a run. -/
def RunStatus.Leads (s s' : RunStatus) : Prop :=
  s' = s ∨ s = .running ∨ s = .pending ∧ (s' = .error ∨ s' = .interrupted)

/-- Several moves in one transaction lead where one could. -/
theorem RunStatus.Leads.trans {a b c : RunStatus} (h : a.Leads b) (h' : b.Leads c) :
    a.Leads c := by
  -- by the first step: nothing, from `running`, from `pending` to an end
  rcases h with rfl | h | ⟨rfl, rfl | rfl⟩
  · exact h'
  · exact .inr (.inl h)
  · rcases h' with rfl | h | ⟨h, -⟩
    · exact .inr (.inr ⟨rfl, .inl rfl⟩)
    · cases h
    · cases h
  · rcases h' with rfl | h | ⟨h, -⟩
    · exact .inr (.inr ⟨rfl, .inr rfl⟩)
    · cases h
    · cases h

/-- The change from `s` to `s'` is one of `_ALLOWED`, and leaves a terminal status alone. -/
def RunStatus.MayBecome (s s' : RunStatus) : Prop :=
  s' ∈ s.allowed ∧ (s.isTerminal = true → s' = s)

/-- All of these changes are in `_ALLOWED`. -/
theorem RunStatus.Leads.mayBecome {s s' : RunStatus} (h : s.Leads s') : s.MayBecome s' := by
  rcases h with rfl | rfl | ⟨rfl, rfl | rfl⟩
  · exact ⟨by cases s' <;> simp [allowed], fun _ => rfl⟩
  · exact ⟨by cases s' <;> simp [allowed], by simp⟩
  · exact ⟨by simp [allowed], by simp⟩
  · exact ⟨by simp [allowed], by simp⟩

/-- A case for each move. -/
theorem RunMove.leads {r r' : RunRow} (h : RunMove now S r r') (hr : r.Guarded) :
    r.status.Leads r'.status := by
  cases h with
  | quiet h => exact .inl h.status
  | renewed _ hrunning => exact .inr (.inl hrunning)
  | released _ hlive hheld hallowed =>
      rcases RunStatus.isTerminal_eq_false.1 hlive with hp | hrunning
      · -- a pending run has no lease, so it cannot be released into `running`
        -- otherwise the move has an owner, which only a running or an interrupted run has
        have hne : r'.status ≠ .running := hheld.resolve_left fun howner => by
          rcases hr.leased howner with h | h <;> rw [hp] at h <;> cases h
        rw [hp] at hallowed ⊢
        simp only [RunStatus.allowed, List.mem_cons, List.not_mem_nil, or_false] at hallowed
        rcases hallowed with h | h | h | h
        · exact .inl h
        · exact absurd h hne
        · exact .inr (.inr ⟨rfl, .inl h⟩)
        · exact .inr (.inr ⟨rfl, .inr h⟩)
      · exact .inr (.inl hrunning)
  | interrupted _ hlive hs =>
      rcases RunStatus.isTerminal_eq_false.1 hlive with hp | hrunning
      · exact .inr (.inr ⟨hp, .inr hs⟩)
      · exact .inr (.inl hrunning)
  | rollingBack _ howned hs =>
      -- an owned run is running, or was interrupted before
      rcases hr.leased howned with h | h
      · exact .inr (.inl h)
      · exact .inl (hs.trans h.symm)
  | leaseReleased _ _ _ hs => exact .inl hs
  | exhausted _ hp hs => exact .inr (.inr ⟨hp, .inl hs⟩)

/-- A run that is still stored has its attempts, and a status its old one leads to. -/
theorem Moves.leads (hmoves : Moves now S v v') (hv : v.Guarded) {r' : RunRow}
    (hr' : v'.runs.find? x = some r') :
    ∃ r, v.runs.find? x = some r ∧ r.status.Leads r'.status ∧ r'.retryCount = r.retryCount := by
  induction hmoves generalizing r' with
  | refl => exact ⟨r', hr', .inl rfl, rfl⟩
  | tail hmoves hmove ih =>
      obtain ⟨r₁, hr₁, hrun⟩ := hmove.origin (Table.mem_of_find? hr')
      have hid : r₁.runId = x := hrun.sameAttempts.runId.symm.trans (Table.key_of_find? hr')
      rw [Db.mem_runs, hid] at hr₁
      -- the last move changed it in the state that the moves before it reached
      obtain ⟨r, hr, hleads, hcount⟩ := ih hr₁
      exact ⟨r, hr, hleads.trans (hrun.leads (Moves.guarded hmoves hv _ (Table.mem_of_find? hr₁))),
        hrun.sameAttempts.retryCount.trans hcount⟩

/-- A run that is stored before and after changed its status as `_ALLOWED` says. -/
def Db.MayBecome (v v' : Db) : Prop :=
  ∀ x r r', v.runs.find? x = some r → v'.runs.find? x = some r' → r.status.MayBecome r'.status

/-- A transaction of moves changes statuses as `_ALLOWED` says. -/
theorem Moves.mayBecome (hmoves : Moves now S v v') (hv : v.Guarded) : v.MayBecome v' := by
  intro x r r' hr hr'
  obtain ⟨r₀, hr₀, hleads, -⟩ := hmoves.leads hv hr'
  obtain rfl := Option.some.inj (hr.symm.trans hr₀)
  exact hleads.mayBecome

/-- The rest of the claiming transaction leaves the claimed run `running`, or ends its only
attempt in the same transaction. -/
theorem enterRun_status {repo : RunRepository} {owner : String} {valid : Bool} {run : RunRow}
    {a : Option RunRow} (hrun : v.runs.find? run.runId = some run)
    (hrunning : run.status = .running)
    (h : (enterRun repo now owner valid run).Returns avail v a v') {r' : RunRow}
    (hr' : v'.runs.find? run.runId = some r') :
    r'.status = .running ∨ r'.status = .pending ∨ r'.status = .error := by
  simp only [enterRun, returns_bind, returns_query] at h
  obtain ⟨thread, v₁, hthread, _, _, ⟨rfl, rfl⟩, h⟩ := h
  obtain ⟨-, rfl⟩ := getThreadOf_returns hthread
  split at h
  · simp only [returns_bind, Prog.pure_eq, returns_ret] at h
    -- without its assistant the run fails at once, from `running`
    obtain ⟨e, _, hfail, -, rfl⟩ := h
    rcases fail_turns hfail with ⟨-, hterminal⟩ | ⟨r₀, r₁, hturns, -, hstatus⟩
    · exact absurd (hterminal run hrun) (by simp [hrunning])
    · obtain rfl := Option.some.inj (hr'.symm.trans hturns.after)
      exact .inr hstatus
  · left
    split at h
    · obtain ⟨-, rfl⟩ := returns_ret.1 h
      rwa [← Option.some.inj (hrun.symm.trans hr')]
    · simp only [returns_bind, returns_assignThread, Prog.pure_eq, returns_ret] at h
      obtain ⟨_, _, ⟨rfl, -⟩, -, rfl⟩ := h
      rwa [← Option.some.inj (hrun.symm.trans hr')]

/-- A committed request changes statuses as `_ALLOWED` says. -/
theorem Request.mayBecome {q : Request} {a : Reply} (hv : v.Guarded)
    (h : (q.program now).Returns avail v a v') : v.MayBecome v' := by
  cases q.effect h with
  | moves hmoves => exact hmoves.mayBecome hv
  | submit _ hsubmit =>
      intro x r r' hr hr'
      rw [hsubmit.find?] at hr'
      split at hr'
      -- the submitted run was not stored before
      · next heq =>
          have hnone := hsubmit.absent
          rw [key_run, ← heq, hr] at hnone
          cases hnone
      · obtain rfl := Option.some.inj (hr.symm.trans hr')
        exact RunStatus.Leads.mayBecome (.inl rfl)
  | claim hq =>
      subst hq
      obtain ⟨b, h, -⟩ := replying_returns.1 h
      simp only [claimRun, returns_bind] at h
      obtain ⟨claim, v₁, hclaim, h⟩ := h
      rcases claimNext_returns (S := fun _ => False) hclaim with ⟨rfl, hmoves⟩ | ⟨run, rfl, hstart⟩
      · obtain ⟨-, rfl⟩ := returns_ret.1 h
        exact Moves.mayBecome hmoves hv
      · intro x r r' hr hr'
        have hmoves : Moves now (fun _ => False) v₁ v' := (enterRun_returns h).1
        obtain ⟨r₁, hr₁, hleads, -⟩ := Moves.leads hmoves (hstart.guarded hv) hr'
        by_cases hid : x = run.runId
        · subst hid
          -- the run that the claim picked goes from `pending` to what `enterRun` leaves
          obtain rfl := Option.some.inj (hstart.found.symm.trans hr)
          have hpending := eligible_pending hstart.eligible
          have hstatus := enterRun_status hstart.row rfl h hr'
          refine ⟨?_, by simp [hpending]⟩
          rw [hpending]
          rcases hstatus with hs | hs | hs <;> simp [hs, RunStatus.allowed]
        -- every other run is as the moves after the claim leave it
        · rw [hstart.others x hid, hr] at hr₁
          obtain rfl := Option.some.inj hr₁
          exact hleads.mayBecome

/-! ## Claims -/

/-- The step in which `claim_next` returns the run `x`. -/
def Takes (x : RunId) (w : World) (l : Step) (w' : World) : Prop :=
  ∃ repo owner valid avail run v₁ a r, l = .call (.claim repo owner valid) (.ok r) ∧
    (claimNext repo w.clock owner).Returns avail w.db (some run) v₁ ∧
    (enterRun repo w.clock owner valid run).Returns avail v₁ a w'.db ∧ run.runId = x

/-- The attempts of a run that a commit leaves stored do not decrease. -/
theorem Request.attempts {q : Request} {a : Reply} (hv : v.Guarded)
    (h : (q.program now).Returns avail v a v') {r' : RunRow} (hr' : v'.runs.find? x = some r') :
    (∃ r, v.runs.find? x = some r ∧ r.retryCount ≤ r'.retryCount) ∨ x ∉ v.issued := by
  cases q.effect h with
  | moves hmoves =>
      obtain ⟨r, hr, -, hcount⟩ := Moves.leads hmoves hv hr'
      exact .inl ⟨r, hr, hcount.ge⟩
  | submit _ hsubmit =>
      rw [hsubmit.find?] at hr'
      split at hr'
      · next heq =>
          -- an id that was drawn is not issued to a new run
          have hfresh := hsubmit.fresh
          simp only [Db.drawn, Bool.or_eq_false_iff, decide_eq_false_iff_not] at hfresh
          exact .inr (heq ▸ hfresh.1)
      · exact .inl ⟨r', hr', le_rfl⟩
  | @claim _ _ _ run _ _ hstart hmoves =>
      obtain ⟨r₁, hr₁, -, hcount⟩ := Moves.leads hmoves (hstart.guarded hv) hr'
      left
      by_cases hid : x = run.runId
      · subst hid
        obtain rfl := Option.some.inj (hstart.row.symm.trans hr₁)
        exact ⟨run, hstart.found, by rw [hcount]; exact Nat.le_succ _⟩
      · rw [hstart.others x hid] at hr₁
        exact ⟨r₁, hr₁, hcount.ge⟩

/-- Claims are counted in the row of the run, as long as there is one. -/
structure Db.Tallied (v : Db) (x : RunId) (n : Nat) : Prop where
  bound : n ≤ maxInfrastructureRetries
  row : ∀ r, v.runs.find? x = some r → n ≤ r.retryCount
  unissued : x ∉ v.issued → n = 0

/-- Claims of the run `x` are counted by its row. A claim adds one to both; the enrolment of ids
says that no second run with the id starts again at zero. -/
theorem tallied_inductive (x : RunId) :
    ((service fun _ => True).counting (Takes x)).Inductive fun s =>
      (s.1.db.Guarded ∧ s.1.db.Enrolled) ∧ s.1.db.Tallied x s.2 := by
  refine TSys.counting_inductive (P := fun w n => w.db.Tallied x n)
    (guarded_inductive.and enrolled_inductive) ?_ ?_ ?_
  · intro w hw
    exact ⟨Nat.zero_le _, fun _ _ => Nat.zero_le _, fun _ => rfl⟩
  · rintro w l w' n ⟨hv, henrolled⟩ - ⟨repo, owner, valid, avail, run, v₁, a, r, -, hclaim, henter,
      rfl⟩ h
    rcases claimNext_returns (S := fun _ => False) hclaim with ⟨hnone, -⟩ | ⟨picked, hrun, hstart⟩
    · cases hnone
    obtain rfl := Option.some.inj hrun
    -- the picked run had an attempt left, so the count stays below the limit
    have hle : n ≤ picked.retryCount := h.row picked hstart.found
    have hlimit : picked.maxAttempts ≤ maxInfrastructureRetries :=
      (hv picked (Table.mem_of_find? hstart.found)).limit
    have hmore := hstart.attempts
    refine ⟨by omega, fun r' hr' => ?_, fun hx => ?_⟩
    · -- the rest of the transaction leaves the counter of the claim
      have hmoves : Moves w.clock (fun _ => False) v₁ w'.db := (enterRun_returns henter).1
      obtain ⟨r₁, hr₁, -, hcount⟩ := Moves.leads hmoves (hstart.guarded hv) hr'
      obtain rfl := Option.some.inj (hstart.row.symm.trans hr₁)
      rw [hcount]
      exact Nat.succ_le_succ hle
    · have hmoves : Moves w.clock (fun _ => False) v₁ w'.db := (enterRun_returns henter).1
      -- the claimed run was issued
      rw [Moves.issued hmoves, hstart.issued] at hx
      exact absurd (henrolled _ picked hstart.found) hx
  · rintro w l w' n ⟨hv, henrolled⟩ hstep - h
    rcases service_step hstep with ⟨d, -, rfl⟩ | ⟨q, e, -, rfl⟩ | ⟨q, a, avail, db',
      -, -, rfl, hret⟩
    · exact h
    · exact h
    · refine ⟨h.bound, fun r' hr' => ?_, fun hx => ?_⟩
      · rcases Request.attempts hv hret hr' with ⟨r, hr, hle⟩ | hnew
        · exact (h.row r hr).trans hle
        · rw [h.unissued hnew]
          exact Nat.zero_le _
      · exact h.unissued fun hold => hx ((Request.continues hret).issued hold)

/-! ## Programs that ask for no transition -/

namespace Txn

/-- The program does not end in `InvalidTransition`. -/
def Accepted (avail : Lock → Bool) (p : Txn α) (v : Db) : Prop :=
  ¬ p.Raises avail v .invalidTransition

/-- The program raises no `InvalidTransition` by itself, whatever it reads. -/
abbrev Plain (p : Txn α) : Prop := Prog.Throws (· ≠ Err.invalidTransition) p

/-- Such a program never ends so. -/
theorem Accepted.plain {p : Txn α} (hp : p.Plain) : p.Accepted avail v :=
  fun h => Throws.raises hp (by simp) h rfl

theorem Accepted.ret {a : α} : Accepted avail (.ret a) v := raises_ret

/-- The first part must be accepted, and the second at what the first can return. -/
theorem Accepted.bind {p : Txn α} {f : α → Txn β} (hp : p.Accepted avail v)
    (hf : ∀ a v₁, p.Returns avail v a v₁ → (f a).Accepted avail v₁) :
    (p >>= f).Accepted avail v := by
  intro h
  rcases raises_bind.1 h with h | ⟨a, v₁, hret, h⟩
  · exact hp h
  · exact hf a v₁ hret h

end Txn

section Plain

variable {repo : RunRepository} {owner topic : String} {payload : Dict} {ns : List String}
  {terminal : Bool} {run : RunRow}

theorem nextSequence_plain : (nextSequence run).Plain := by
  unfold nextSequence
  split
  · refine .bind .perform fun thread => ?_
    split
    · exact .throw (by simp [missingThread])
    · exact .bind .perform fun _ => .bind .perform fun _ => .ret
  · exact .bind .perform fun _ => .ret

/-- Recording an event asks for no transition. -/
theorem recordRunEvent_plain : (recordRunEvent now id th topic payload ns terminal).Plain := by
  have hname (run : RunRow) : (withGraphName run topic payload).Plain := by
    unfold withGraphName
    split
    · exact .bind .perform fun _ => .ret
    · exact .ret
  have hexisting : (existingTerminal id terminal).Plain := by
    unfold existingTerminal
    split
    · exact .perform
    · exact .ret
  refine .bind .perform fun run => ?_
  split
  · exact .throw (by simp [missingRun])
  · split
    · exact .throw (by simp [foreignEvent])
    · refine .bind (hname _) fun _ => .bind hexisting fun event => ?_
      split
      · exact .ret
      · exact .bind nextSequence_plain fun _ => .bind .perform fun _ => .bind .perform fun _ => .ret

theorem recordPreceding_plain {events : List (String × Dict × List String)} :
    (recordPreceding now id th events).Plain := by
  induction events with
  | nil => exact .ret
  | cons e es ih => exact .bind recordRunEvent_plain fun _ => .bind ih fun _ => .ret

theorem recordEnd_plain {payload : Option Dict} : (recordEnd now id th payload).Plain := by
  cases payload with
  | none => exact .ret
  | some payload => exact .bind recordRunEvent_plain fun _ => .ret

theorem lockThreadOf_plain : (lockThreadOf th).Plain := by
  cases th with
  | none => exact .ret
  | some t => exact .perform

theorem getThreadOf_plain : (getThreadOf th).Plain := by
  cases th with
  | none => exact .ret
  | some t => exact .perform

theorem updateThreadOf_plain {f : ThreadRow → ThreadRow} : (updateThreadOf th f).Plain := by
  refine .bind lockThreadOf_plain fun thread => ?_
  split
  · exact .ret
  · exact .perform

theorem assignLoaded_plain {thread : Option ThreadRow} {f : ThreadRow → ThreadRow} :
    (assignLoaded thread f).Plain := by
  cases thread with
  | none => exact .ret
  | some thread => exact .perform

theorem recheck_plain : (recheck now run).Plain := by
  unfold recheck
  split
  · exact .ret
  · refine .bind .perform fun thread => ?_
    split
    · exact .ret
    · split
      · exact .ret
      · exact .perform

theorem exhaust_plain : (exhaust now run).Plain :=
  .bind .perform fun _ => .bind updateThreadOf_plain fun _ => .bind recordRunEvent_plain
    fun _ => .ret

/-- A claim writes `running` without asking `transition`. -/
theorem startRun_plain : (startRun repo now owner run).Plain := by
  have hcapture (thread : ThreadRow) : (captureBaseline now run.runId thread).Plain := by
    refine .bind .perform fun captured => ?_
    split
    · exact .ret
    · exact .bind .perform fun _ => .bind .perform fun _ => .perform
  have henter : (enterThread now run).Plain := by
    unfold enterThread
    split
    · exact .ret
    · refine .bind .perform fun thread => ?_
      split
      · exact .ret
      · refine .bind .perform fun busy => ?_
        split
        · exact .ret
        · exact .bind (hcapture _) fun _ => .bind .perform fun _ => .ret
  refine .bind henter fun entered => ?_
  split
  · exact .bind .perform fun _ => .bind .perform fun _ => .perform
  · exact .ret

/-- `claim_next` writes statuses without `transition`. -/
theorem claimNext_plain : (claimNext repo now owner).Plain := by
  refine .bind .perform fun picked => ?_
  split
  · exact .ret
  · refine .bind recheck_plain fun ok => ?_
    split
    · split
      · exact .bind exhaust_plain fun _ => .ret
      · exact startRun_plain
    · exact .ret

/-- A rollback deletes runs and ends none. -/
theorem rollbackRun_plain {validateOnly : Bool} : (rollbackRun run validateOnly).Plain := by
  have hdelete (id : RunId) : (deleteRun id).Plain := .perform
  have hto (b : RunCheckpointBaselineRow) : (rollbackTo b validateOnly).Plain := by
    refine .bind .perform fun _ => ?_
    split
    · exact .throw (by simp [laterState])
    · refine .bind .perform fun _ => ?_
      split
      · exact .throw (by simp [laterRun])
      · split
        · exact .ret
        · exact .bind .perform fun _ => .bind .perform fun _ => hdelete _
  unfold rollbackRun
  split
  · split
    · exact .ret
    · exact hdelete _
  · refine .bind .perform fun thread => ?_
    split
    · exact .throw (by simp [threadGone])
    · refine .bind .perform fun busy => ?_
      split
      · exact .throw (by simp [otherRuns])
      · refine .bind .perform fun baseline => ?_
        split
        · exact hto _
        · split
          · exact .throw (by simp [noBaseline])
          · split
            · exact .ret
            · exact hdelete _

theorem authorizedRun_plain : (authorizedRun id).Plain := by
  refine .bind .perform fun row => ?_
  split
  · exact .ret
  · split
    · exact .ret
    · exact .bind .perform fun _ => .ret

theorem assignPositions_plain {pairs : List (RunId × Nat)} : (assignPositions pairs).Plain := by
  induction pairs with
  | nil => exact .ret
  | cons pair pairs ih => exact .bind .perform fun _ => ih

end Plain

/-! ## Transitions that are accepted -/

/-- The targets and reasons the worker passes to `finish`. -/
def workerEnds : List (RunStatus × RunReason) :=
  [(.success, .completed), (.interrupted, .hitlInterrupt), (.interrupted, .cancelRequested),
    (.timeout, .timeout)]

/-- A run with a lease is `running`, unless it is over. -/
theorem Db.Guarded.running (hv : v.Guarded) {r : RunRow} (hr : v.runs.find? id = some r)
    {owner : String} (howner : r.leaseOwner = some owner) (hlive : ¬ r.status.isTerminal = true) :
    r.status = .running := by
  rcases (hv r (Table.mem_of_find? hr)).leased (by simp [howner]) with h | h
  · exact h
  · simp [h, RunStatus.isTerminal] at hlive

/-- A held run is running, and every end of the worker is allowed from there. -/
theorem finish_accepted {owner : String} {target : RunStatus} {reason : RunReason}
    {payload : Option Dict} {preceding : List (String × Dict × List String)} (hv : v.Guarded)
    (hend : (target, reason) ∈ workerEnds) :
    (finish now id owner target reason payload preceding).Accepted avail v := by
  refine .bind (.plain .perform) fun a v₁ hlock => ?_
  obtain ⟨rfl, rfl, -⟩ := returns_lockRun.1 hlock
  split
  · exact .plain (.throw (by simp [missingRun]))
  · next run hrun =>
      split
      · exact .ret
      · next hlive =>
          split
          · exact .plain (.throw (by simp [foreignRun]))
          · next howner =>
              split
              · exact .plain (.throw (by simp))
              · -- `transition` is asked after the events, for the row as it was locked
                have hrunning := hv.running hrun (not_not.1 howner) hlive
                have haccept : transition run.status target reason run.retryCount =
                    some ⟨target, reason, run.retryCount⟩ := by
                  refine transition_accepts ?_ (hv run (Table.mem_of_find? hrun)).attempts ?_ ?_
                  all_goals
                    simp only [workerEnds, List.mem_cons, Prod.mk.injEq, List.not_mem_nil,
                      or_false] at hend
                    rcases hend with ⟨rfl, rfl⟩ | ⟨rfl, rfl⟩ | ⟨rfl, rfl⟩ | ⟨rfl, rfl⟩ <;>
                      simp [hrunning, RunStatus.allowed, interruptReasons]
                refine .bind (.bind (.plain recordPreceding_plain) fun before v₂ _ => ?_)
                  fun _ _ _ => .ret
                rw [haccept]
                exact .plain (.bind .perform fun _ => .bind .perform fun _ =>
                  .bind recordEnd_plain fun _ => .ret)

/-- A held run may go back to the queue, or end in error. -/
theorem fail_accepted {repo : RunRepository} {owner : String} {infrastructure : Bool}
    {reason : RunReason} {payload : Option Dict} (hv : v.Guarded) :
    (fail repo now id owner infrastructure reason payload).Accepted avail v := by
  refine .bind (.plain .perform) fun a v₁ hlock => ?_
  obtain ⟨rfl, rfl, -⟩ := returns_lockRun.1 hlock
  split
  · exact .plain (.throw (by simp [missingRun]))
  · next run hrun =>
      split
      · exact .plain (.throw (by simp [foreignRun]))
      · next howner =>
          split
          · exact .ret
          · next hlive =>
              have hrunning := hv.running hrun (not_not.1 howner) hlive
              have hattempts := (hv run (Table.mem_of_find? hrun)).attempts
              have haccept : (failChange repo infrastructure reason run).isSome := by
                unfold failChange
                split
                · rw [transition_accepts (by simp [hrunning, RunStatus.allowed]) hattempts
                    (by simp) (by simp)]
                  rfl
                · rw [transition_accepts (by simp [hrunning, RunStatus.allowed]) hattempts
                    (by simp) (by simp)]
                  rfl
              split
              · next hnone => simp [hnone] at haccept
              · exact .plain (.bind .perform fun _ => .bind .perform fun _ =>
                  .bind recordRunEvent_plain fun _ => .ret)

/-- A running run may go back to the queue. -/
theorem requeueForShutdown_accepted {repo : RunRepository} {owner : String} {drained : Bool}
    (hv : v.Guarded) : (requeueForShutdown repo now id owner drained).Accepted avail v := by
  refine .bind (.plain .perform) fun a v₁ hlock => ?_
  obtain ⟨rfl, rfl, -⟩ := returns_lockRun.1 hlock
  split
  · exact .plain (.throw (by simp [missingRun]))
  · next run hrun =>
      split
      · exact .plain (.throw (by simp [foreignRun]))
      · split
        · exact .ret
        · next hrunning =>
            rw [transition_accepts (by simp [not_not.1 hrunning, RunStatus.allowed])
              (hv run (Table.mem_of_find? hrun)).attempts (by simp) (by simp)]
            exact .plain (.bind .perform fun _ => .bind updateThreadOf_plain fun _ =>
              .bind .perform fun _ => .bind recordRunEvent_plain fun _ => .ret)

/-- The loop of the reaper. Its runs were checked when they were locked, and no other run of the
batch changes them. -/
theorem requeueAll_accepted {repo : RunRepository} {runs : List RunRow}
    (hruns : ∀ run ∈ runs, run.status = .running ∧ run.retryCount ≤ maxInfrastructureRetries) :
    (requeueAll repo now runs).Accepted avail v := by
  induction runs generalizing v with
  | nil => exact .ret
  | cons run runs ih =>
      obtain ⟨hrunning, hattempts⟩ := hruns run (by simp)
      have haccept : (expiryChange run).isSome := by
        unfold expiryChange
        split
        · rw [transition_accepts (by simp [hrunning, RunStatus.allowed]) hattempts (by simp)
            (by simp)]
          rfl
        · rw [transition_accepts (by simp [hrunning, RunStatus.allowed]) hattempts (by simp)
            (by simp)]
          rfl
      refine .bind ?_ fun _ _ _ => .bind (ih fun r hr => hruns r (by simp [hr])) fun _ _ _ => .ret
      unfold requeueOne
      split
      · next hnone => simp [hnone] at haccept
      · exact .plain (.bind .perform fun _ => .bind updateThreadOf_plain fun _ =>
          recordRunEvent_plain)

/-- The reaper locks running runs only. -/
theorem requeueExpired_accepted {repo : RunRepository} (hv : v.Guarded) :
    (requeueExpired repo now).Accepted avail v := by
  refine .bind (.plain .perform) fun runs v₁ hlock => ?_
  obtain ⟨rfl, rfl⟩ := returns_lockRuns.1 hlock
  refine .bind (requeueAll_accepted fun run hrun => ?_) fun _ _ _ =>
    .plain (.bind .perform fun _ => .ret)
  obtain ⟨hmem, hexpired⟩ := List.mem_filter.1 ((List.mem_insertionSort _).1 hrun)
  simp only [isExpired, Bool.and_eq_true, decide_eq_true_eq] at hexpired
  exact ⟨hexpired.1.1, (hv run hmem).attempts⟩

/-- A live run may be interrupted. -/
theorem cancelRow_accepted {action : CancelAction} (hv : v.Guarded) :
    (cancelRow now id action).Accepted avail v := by
  refine .bind (.plain .perform) fun a v₁ hlock => ?_
  obtain ⟨rfl, ⟨rfl, -⟩ | ⟨-, hskip, -⟩⟩ := returns_lockRunIf.1 hlock
  · split
    · exact .ret
    · next row hrow =>
        cases action with
        | rollback =>
            refine .plain (.bind rollbackRun_plain fun _ => ?_)
            split
            · exact rollbackRun_plain
            · exact .perform
        | interrupt =>
            have hguarded := hv row (Table.mem_of_find? (Option.filter_eq_some_iff.1 hrow).1)
            simp only [interruptRow]
            split
            · exact .ret
            · next hlive =>
                have hallowed : RunStatus.interrupted ∈ row.status.allowed := by
                  rcases RunStatus.isTerminal_eq_false.1 (by simpa using hlive) with h | h <;>
                    simp [h, RunStatus.allowed]
                have hlease (b : Bool) : (deleteLeaseUnless b row.runId).Plain := by
                  cases b with
                  | true => exact .ret
                  | false => exact .perform
                rw [transition_accepts hallowed hguarded.attempts (by simp [interruptReasons])
                  (by simp)]
                exact .plain (.bind .perform fun _ => .bind (hlease _) fun _ =>
                  .bind recordRunEvent_plain fun _ => .ret)
  · cases hskip

theorem interruptAll_accepted {ids : List RunId} (hv : v.Guarded) :
    (interruptAll now ids).Accepted avail v := by
  induction ids generalizing v with
  | nil => exact .ret
  | cons id ids ih =>
      refine .bind (cancelRow_accepted hv) fun _ v₁ hcancel => ih ?_
      exact Moves.guarded (cancelRow_moves (S := fun _ => False) hcancel) hv

/-- What may be refused is the failure behind a claim, of a run just started. -/
theorem claimRun_accepted {repo : RunRepository} {owner : String} {valid : Bool} (hv : v.Guarded) :
    (claimRun repo now owner valid).Accepted avail v := by
  refine .bind (.plain claimNext_plain) fun claim v₁ hclaim => ?_
  rcases claimNext_returns (S := fun _ => False) hclaim with ⟨rfl, -⟩ | ⟨run, rfl, hstart⟩
  · exact .ret
  · refine .bind (.plain getThreadOf_plain) fun thread v₂ hthread => ?_
    obtain ⟨-, rfl⟩ := getThreadOf_returns hthread
    refine .bind (.plain .perform) fun assistant v₃ hquery => ?_
    obtain ⟨-, rfl⟩ := returns_query.1 hquery
    split
    · exact .bind (fail_accepted (hstart.guarded hv)) fun _ _ _ => .ret
    · split
      · exact .ret
      · exact .plain (.bind .perform fun _ => .ret)

section Ends

variable {repo : RunRepository} {owner : String}

theorem finalizeSuccess_accepted {out : GraphOutput} (hv : v.Guarded) :
    (finalizeSuccess now id th owner out).Accepted avail v := by
  have hend : (out.status, out.reason) ∈ workerEnds := by
    unfold GraphOutput.status GraphOutput.reason
    split <;> simp [workerEnds]
  refine .bind (.plain .perform) fun row v₁ hrow => ?_
  obtain ⟨-, rfl⟩ := returns_getRun.1 hrow
  refine .bind (.plain getThreadOf_plain) fun thread v₂ hthread => ?_
  obtain ⟨-, rfl⟩ := getThreadOf_returns hthread
  split
  · exact .ret
  · split
    · exact .ret
    · refine .bind (finish_accepted hv hend) fun events _ _ => ?_
      split
      · exact .ret
      · exact .plain (.bind assignLoaded_plain fun _ => .ret)

/-- A cancelled attempt ends as interrupted. -/
theorem finalizeCancelled_accepted (hv : v.Guarded) :
    (finalizeCancelled now id th owner).Accepted avail v := by
  refine .bind (.plain .perform) fun row v₁ hrow => ?_
  obtain ⟨-, rfl⟩ := returns_getRun.1 hrow
  split
  · exact .ret
  · split
    · exact .ret
    · refine .bind (finish_accepted hv (by simp [workerEnds])) fun events _ _ => ?_
      split
      · exact .ret
      · exact .plain (.bind getThreadOf_plain fun _ => .bind assignLoaded_plain fun _ => .ret)

/-- A timeout ends the attempt, any other failure goes through `fail`. -/
theorem finalizeFailure_accepted {failure : Failure} {type message : String} (hv : v.Guarded) :
    (finalizeFailure repo now id th owner failure type message).Accepted avail v := by
  refine .bind (.plain .perform) fun row v₁ hrow => ?_
  obtain ⟨-, rfl⟩ := returns_getRun.1 hrow
  split
  · exact .ret
  · split
    · exact .ret
    · refine .bind (.plain getThreadOf_plain) fun thread v₂ hthread => ?_
      obtain ⟨rfl, rfl⟩ := getThreadOf_returns hthread
      refine .bind (.plain assignLoaded_plain) fun _ v₃ hassign => ?_
      have hmoves : Moves now (fun _ => False) _ v₃ := (assignLoaded_quiet hassign).moves
      have hguarded : v₃.Guarded := Moves.guarded hmoves hv
      cases failure with
      | timedOut => exact .bind (finish_accepted hguarded (by simp [workerEnds])) fun _ _ _ => .ret
      | business => exact .bind (fail_accepted hguarded) fun _ _ _ => .ret
      | infrastructure => exact .bind (fail_accepted hguarded) fun _ _ _ => .ret

end Ends

theorem runsCancel_accepted {action : CancelAction} (hv : v.Guarded) :
    (runsCancel now id action).Accepted avail v := by
  refine .bind (.plain authorizedRun_plain) fun row v₁ hrow => ?_
  obtain ⟨rfl, -⟩ := authorizedRun_returns hrow
  split
  · exact .ret
  · exact .bind (cancelRow_accepted hv) fun _ _ _ => .ret

/-- A reorder asks for no transition. -/
theorem runsQueue_accepted {t : ThreadId} {operation : QueueOperation}
    {expected requested : List RunId} (hv : v.Guarded) :
    (runsQueue now t operation expected requested).Accepted avail v := by
  refine .bind (.plain .perform) fun thread v₁ hthread => ?_
  obtain ⟨-, rfl, -⟩ := returns_lockThread.1 hthread
  split
  · exact .plain (.throw (by simp))
  · refine .bind (.plain .perform) fun rows v₂ hrows => ?_
    obtain ⟨-, rfl⟩ := returns_lockRuns.1 hrows
    refine .bind (.plain .perform) fun count v₃ hcount => ?_
    obtain ⟨-, rfl⟩ := returns_query.1 hcount
    split
    · exact .plain (.throw (by simp [queueChanged]))
    · split
      · exact .plain assignPositions_plain
      · exact interruptAll_accepted hv

/-! ## The law -/

/-- The requests of the code that calls `transition`: `claim_next` and the worker's
transactions that end an attempt, with the worker's arguments of `finish`, the reaper, and
the cancellations. -/
def Request.Transitions : Request → Prop
  | .finish _ _ target reason _ _ => (target, reason) ∈ workerEnds
  | .claim .. | .fail .. | .finalizeSuccess .. | .finalizeCancelled .. | .finalizeFailure ..
  | .failInvalidContext .. | .requeueForShutdown .. | .requeueExpired _ | .runsCancel ..
  | .runsQueue .. => True
  | _ => False

theorem replying_accepted {p : Txn α} {f : α → Reply} (hp : p.Accepted avail v) :
    (replying p f).Accepted avail v := .bind hp fun _ _ _ => .ret

/-- The law of the section, a case for each request that asks for transitions. -/
theorem Request.accepted {q : Request} (hv : v.Guarded) (hq : q.Transitions) :
    (q.program now).Accepted avail v := by
  cases q with
  | finish => exact replying_accepted (finish_accepted hv hq)
  | claim => exact replying_accepted (claimRun_accepted hv)
  | fail => exact replying_accepted (fail_accepted hv)
  | finalizeSuccess => exact replying_accepted (finalizeSuccess_accepted hv)
  | finalizeCancelled => exact replying_accepted (finalizeCancelled_accepted hv)
  | finalizeFailure => exact replying_accepted (finalizeFailure_accepted hv)
  | failInvalidContext => exact replying_accepted (.bind (fail_accepted hv) fun _ _ _ => .ret)
  | requeueForShutdown => exact replying_accepted (requeueForShutdown_accepted hv)
  | requeueExpired => exact replying_accepted (requeueExpired_accepted hv)
  | runsCancel => exact replying_accepted (runsCancel_accepted hv)
  | runsQueue => exact replying_accepted (runsQueue_accepted hv)
  | _ => exact hq.elim

/-- What bounds the attempts of the run `x`, claimed `n` times before the state `w`. -/
structure BoundedAttempts (x : RunId) (w : World) (n : Nat) : Prop where
  claims : n ≤ 3
  retryCount : ∀ r, w.db.runs.find? x = some r → r.retryCount ≤ 3
  /-- A committed change of the status is one of `_ALLOWED`. -/
  allowed : ∀ l w' r r', (service fun _ => True).step w l w' → w.db.runs.find? x = some r →
    w'.db.runs.find? x = some r' → r'.status ∈ r.status.allowed
  terminal : ∀ l w' r r', (service fun _ => True).step w l w' → w.db.runs.find? x = some r →
    w'.db.runs.find? x = some r' → r.status.isTerminal = true → r'.status = r.status
  /-- No transition is refused. -/
  accepted : ∀ q w', q.Transitions →
    ¬ (service fun _ => True).step w (.call q (.error .invalidTransition)) w'

/-- Every step of the service changes statuses as `_ALLOWED` says. -/
theorem service_mayBecome {w w' : World} {l : Step} (hw : w.db.Guarded)
    (h : (service fun _ => True).step w l w') : w.db.MayBecome w'.db := by
  have hrefl : w.db.MayBecome w.db := fun x r r' hr hr' => by
    obtain rfl := Option.some.inj (hr.symm.trans hr')
    exact RunStatus.Leads.mayBecome (.inl rfl)
  rcases service_step h with ⟨d, -, rfl⟩ | ⟨q, e, -, rfl⟩ | ⟨q, a, avail, db', -, -, rfl, hret⟩
  · exact hrefl
  · exact hrefl
  · exact Request.mayBecome hw hret

/-- For every run of the service and every stored run. -/
theorem bounded_attempts (x : RunId) :
    ((service fun _ => True).counting (Takes x)).Invariant fun s =>
      BoundedAttempts x s.1 s.2 := by
  intro s hreach
  obtain ⟨⟨hguarded, -⟩, htallied⟩ := (tallied_inductive x).invariant s hreach
  refine ⟨htallied.bound, fun r hr => (hguarded r (Table.mem_of_find? hr)).attempts, ?_, ?_, ?_⟩
  · intro l w' r r' hstep hr hr'
    exact (service_mayBecome hguarded hstep x r r' hr hr').1
  · intro l w' r r' hstep hr hr'
    exact (service_mayBecome hguarded hstep x r r' hr hr').2
  · rintro q w' hq ⟨-, avail, db', hrun, -⟩
    exact Request.accepted hguarded hq (run_error_iff.1 hrun).1

end GraphHarbor
