import GraphHarbor.Transitions

/-!
# One executor per thread

A run is active while it is `running` or holds an unexpired lease. No two runs of a
thread are active, and a claim never starts a run beside one that is active or rolls
back.
-/

namespace GraphHarbor

open Kit Txn

variable {now : Time} {S : RunRow → Prop} {v v' : Db}

/-- The run executes, or may still execute. -/
def RunRow.Active (now : Time) (r : RunRow) : Prop :=
  r.status = .running ∨ holdsLease now r = true

/-- The runs of a thread that satisfy `p` are at most one. -/
def Db.AtMostOne (v : Db) (p : RunRow → Prop) : Prop :=
  ∀ x ∈ v.runs, ∀ y ∈ v.runs, x.threadId.isSome → x.threadId = y.threadId → p x → p y → x = y

/-- The invariant of mutual exclusion. -/
structure Db.Exclusive (now : Time) (v : Db) : Prop where
  pending : ∀ r ∈ v.runs, r.status = .pending → r.leaseOwner = none
  active : v.AtMostOne (RunRow.Active now)

/-! ## Leases -/

theorem holdsLease_eq_true {r : RunRow} :
    holdsLease now r = true ↔
      r.leaseOwner.isSome ∧ ∃ expires, r.leaseExpiresAt = some expires ∧ now < expires := by
  unfold holdsLease
  cases r.leaseExpiresAt <;> simp

theorem holdsLease_congr {r r' : RunRow} (howner : r'.leaseOwner = r.leaseOwner)
    (hexpires : r'.leaseExpiresAt = r.leaseExpiresAt) : holdsLease now r' = holdsLease now r := by
  simp [holdsLease, howner, hexpires]

theorem holdsLease_of_none {r : RunRow} (h : r.leaseOwner = none) : holdsLease now r = false := by
  simp [holdsLease, h]

theorem holdsLease_of_later {r : RunRow} {later : Time} (hle : now ≤ later)
    (h : holdsLease later r = true) : holdsLease now r = true := by
  obtain ⟨howner, e, he, hlt⟩ := holdsLease_eq_true.1 h
  exact holdsLease_eq_true.2 ⟨howner, e, he, lt_of_le_of_lt hle hlt⟩

/-! ## Steps -/

theorem RunMove.pending_lease {r r' : RunRow} (h : RunMove now S r r')
    (hr : r.status = .pending → r.leaseOwner = none) :
    r'.status = .pending → r'.leaseOwner = none := by
  intro hp
  cases h with
  | quiet h => rw [h.leaseOwner, hr (h.status ▸ hp)]
  | renewed _ _ hs => simp [hs] at hp
  | released _ _ _ _ howner => exact howner
  | interrupted _ _ hs => simp [hs] at hp
  | rollingBack _ _ hs => simp [hs] at hp
  | leaseReleased _ _ _ _ _ howner => exact howner
  | exhausted _ _ hs => simp [hs] at hp

/-- No move but a claim makes a run active. -/
theorem RunMove.active {r r' : RunRow} (h : RunMove now S r r')
    (hr : r.status = .pending → r.leaseOwner = none) (h' : r'.Active now) : r.Active now := by
  rcases h' with hrunning | hlease
  · rcases h.running hrunning with hrun | ⟨hp, howner⟩
    · exact .inl hrun
    -- a pending run that keeps an owner through the step would have had one before
    · simp [hr hp] at howner
  · cases h with
    | quiet h => exact .inr (holdsLease_congr h.leaseOwner h.leaseExpiresAt ▸ hlease)
    | renewed _ hrunning => exact .inl hrunning
    | released _ _ _ _ howner => simp [holdsLease_of_none howner] at hlease
    | interrupted _ _ _ _ hl =>
        rcases hl with ⟨hrunning, -⟩ | ⟨howner, -⟩
        · exact .inl hrunning
        · simp [holdsLease_of_none howner] at hlease
    | rollingBack _ _ _ _ howner hexpires =>
        exact .inr (holdsLease_congr howner hexpires ▸ hlease)
    | leaseReleased _ _ _ _ _ howner => simp [holdsLease_of_none howner] at hlease
    | exhausted _ _ _ _ howner hexpires =>
        exact .inr (holdsLease_congr howner hexpires ▸ hlease)

theorem RunRow.Submitted.not_active {r : RunRow} (h : r.Submitted) : ¬ r.Active now := by
  rintro (hr | hl)
  · simp [h.status] at hr
  · simp [holdsLease_of_none h.leaseOwner] at hl

theorem Move.exclusive (h : Db.Exclusive now v) (hmove : Move now S v v') :
    Db.Exclusive now v' where
  pending r' hr' := by
    obtain ⟨r, hr, hrun⟩ := hmove.origin hr'
    exact hrun.pending_lease (h.pending r hr)
  active x' hx' y' hy' hthread hsame hax hay := by
    obtain ⟨x, hx, hmx⟩ := hmove.origin hx'
    obtain ⟨y, hy, hmy⟩ := hmove.origin hy'
    -- an active run was active before the step, so two of them were one run already
    have hx₀ := hmx.active (h.pending x hx) hax
    have hy₀ := hmy.active (h.pending y hy) hay
    rw [hmx.sameAttempts.threadId] at hthread hsame
    rw [hmy.sameAttempts.threadId] at hsame
    have heq := h.active x hx y hy hthread hsame hx₀ hy₀
    refine Table.eq_of_mem_of_key_eq hx' hy' ?_
    rw [key_run, key_run, hmx.sameAttempts.runId, hmy.sameAttempts.runId, heq]

theorem Submit.exclusive {r : RunRow} (h : Db.Exclusive now v) (hsubmit : Submit r v v') :
    Db.Exclusive now v' where
  pending r' hr' hp := by
    rcases hsubmit.origin hr' with rfl | ⟨hr, -⟩
    · exact hsubmit.submitted.leaseOwner
    · exact h.pending r' hr hp
  -- the new run is pending and has no lease: it is not active
  active x hx y hy hthread hsame hax hay := by
    rcases hsubmit.origin hx with rfl | ⟨hx, -⟩
    · exact absurd hax hsubmit.submitted.not_active
    · rcases hsubmit.origin hy with rfl | ⟨hy, -⟩
      · exact absurd hay hsubmit.submitted.not_active
      · exact h.active x hx y hy hthread hsame hax hay

/-- Beside an eligible run of a thread no other run is running, rolls back or holds a
lease. -/
theorem eligible_alone {r x : RunRow} (h : eligible now v r = true) (hx : x ∈ v.runs)
    (hthread : r.threadId.isSome) (hsame : x.threadId = r.threadId) :
    x.status ≠ .running ∧ x.reason ≠ some .rollback ∧ holdsLease now x = false := by
  obtain ⟨t, ht⟩ := Option.isSome_iff_exists.1 hthread
  simp only [eligible, ht, Bool.and_eq_true, Bool.not_eq_true', List.any_eq_false] at h
  have hfree := h.2.1.1 x hx
  simp only [occupies, hsame, ht, decide_true, Bool.true_and, Bool.or_eq_true,
    decide_eq_true_eq, not_or, Bool.not_eq_true] at hfree
  exact ⟨hfree.1.1, hfree.1.2, hfree.2⟩

theorem Start.exclusive {repo : RunRepository} {owner : String} {r : RunRow}
    (h : Db.Exclusive now v) (hstart : Start repo now owner r v v') : Db.Exclusive now v' where
  pending r' hr' hp := by
    rcases hstart.origin hr' with rfl | ⟨hr, -⟩
    · cases hp
    · exact h.pending r' hr hp
  active x' hx' y' hy' hthread hsame hax hay := by
    have hidle (x : RunRow) (hx : x ∈ v.runs) (hr : r.threadId.isSome)
        (hxr : x.threadId = r.threadId) : ¬ x.Active now := by
      obtain ⟨hrunning, -, hlease⟩ := eligible_alone hstart.eligible hx hr hxr
      -- `eligible` found no other run of the thread that executes or may still execute
      rintro (hrun | hl)
      · exact hrunning hrun
      · simp [hlease] at hl
    rcases hstart.origin hx' with rfl | ⟨hx, -⟩ <;> rcases hstart.origin hy' with rfl | ⟨hy, -⟩
    · rfl
    · exact absurd hay (hidle y' hy hthread hsame.symm)
    · exact absurd hax (hidle x' hx (hsame ▸ hthread) hsame)
    · exact h.active x' hx y' hy hthread hsame hax hay

theorem exclusive_inductive {allows : Request → Prop} :
    (service allows).Inductive fun w => w.db.Exclusive w.clock := by
  refine service_inductive (P := Db.Exclusive) ?_ ?_ ?_ ?_ ?_
  · intro now v hfresh
    refine ⟨?_, ?_⟩ <;> simp [Db.AtMostOne, hfresh.runs]
  · intro now d v h
    refine ⟨h.pending, fun x hx y hy hthread hsame hax hay => ?_⟩
    have hearlier (r : RunRow) (hr : r.Active (now + d)) : r.Active now :=
      hr.imp_right (holdsLease_of_later (Nat.le_add_right now d))
    exact h.active x hx y hy hthread hsame (hearlier x hax) (hearlier y hay)
  · exact fun now S v v' h hmove => hmove.exclusive h
  · exact fun now r v v' h hsubmit => hsubmit.exclusive h
  · exact fun repo now owner r v v' h hstart => hstart.exclusive h

/-! ## Cancelled executions -/

/-- The run `x` of the thread `th` has ended, but the lease `o`, `e` of its execution was
not released. -/
def Db.Detached (v : Db) (x : RunId) (th : Option ThreadId) (o : String) (e : Time) : Prop :=
  ∃ r, v.runs.find? x = some r ∧ r.threadId = th ∧ r.status.isTerminal = true ∧
    r.leaseOwner = some o ∧ r.leaseExpiresAt = some e

/-- The request declares the execution of `x` by `o` stopped. -/
def Request.Releases (q : Request) (x : RunId) (o : String) : Prop :=
  ∃ r : RunRow, r.runId = x ∧ r.leaseOwner = some o ∧ q.Stops r

theorem RunMove.keeps_lease {r r' : RunRow} (h : RunMove now S r r')
    (ht : r.status.isTerminal = true) :
    S r ∨ r'.leaseOwner = r.leaseOwner ∧ r'.leaseExpiresAt = r.leaseExpiresAt := by
  cases h with
  | quiet h => exact .inr ⟨h.leaseOwner, h.leaseExpiresAt⟩
  | renewed _ hrunning => simp [hrunning] at ht
  | released _ hlive => simp [hlive] at ht
  | interrupted _ hlive => simp [hlive] at ht
  | rollingBack _ _ _ _ howner hexpires => exact .inr ⟨howner, hexpires⟩
  | leaseReleased _ hstopped => exact .inl hstopped
  | exhausted _ hp => simp [hp] at ht

variable {x : RunId} {th : Option ThreadId} {o : String} {e : Time}

theorem Move.detached (hmove : Move now S v v') (h : v.Detached x th o e) (hlt : now < e)
    (hS : ∀ r : RunRow, r.runId = x → r.leaseOwner = some o → ¬ S r) : v'.Detached x th o e := by
  obtain ⟨r, hr, hthread, hterminal, howner, hexpires⟩ := h
  have hid : r.runId = x := Table.key_of_find? hr
  have hquiet (hsame : v.Same v' x) : v'.Detached x th o e := by
    obtain ⟨r', hr', hq⟩ := hsame.find? hr
    exact ⟨r', hr', hq.threadId.trans hthread, by rw [hq.status, hterminal],
      hq.leaseOwner.trans howner, hq.leaseExpiresAt.trans hexpires⟩
  cases hmove with
  | change id hmoved hkept hothers =>
      by_cases hx : x = id
      · subst hx
        cases hr' : v'.runs.find? x with
        -- the row goes only when its execution was stopped or its lease is over
        | none =>
            rcases hkept r hr hr' with hs | hover
            · exact absurd hs (hS r hid howner)
            · have hheld : holdsLease now r = true :=
                holdsLease_eq_true.2 ⟨by simp [howner], e, hexpires, hlt⟩
              simp [hover] at hheld
        | some r' =>
            obtain ⟨r₀, hr₀, hrun⟩ := hmoved r' hr'
            obtain rfl := Option.some.inj (hr.symm.trans hr₀)
            rcases hrun.keeps_lease hterminal with hs | ⟨ho, he⟩
            · exact absurd hs (hS r hid howner)
            · exact ⟨r', hr', hrun.sameAttempts.threadId.trans hthread, hrun.terminal hterminal,
                ho.trans howner, he.trans hexpires⟩
      · exact hquiet (hothers x hx)

theorem Submit.detached {r₀ : RunRow} (hsubmit : Submit r₀ v v') (h : v.Detached x th o e) :
    v'.Detached x th o e := by
  obtain ⟨r, hr, hrest⟩ := h
  refine ⟨r, ?_, hrest⟩
  rw [hsubmit.find?, if_neg, hr]
  -- a new id is no stored one
  rintro rfl
  rw [show v.runs.find? r₀.runId = none from hsubmit.absent] at hr
  cases hr

theorem Start.detached {repo : RunRepository} {owner : String} {run : RunRow}
    (hstart : Start repo now owner run v v') (h : v.Detached x th o e) : v'.Detached x th o e := by
  obtain ⟨r, hr, hthread, hterminal, hlease⟩ := h
  refine ⟨r, ?_, hthread, hterminal, hlease⟩
  rw [hstart.others x ?_, hr]
  rintro rfl
  -- a run that is claimed is pending, this one is over
  obtain rfl := Option.some.inj (hstart.found.symm.trans hr)
  simp [eligible_pending hstart.eligible] at hterminal

/-- The execution of a cancelled run counts until a request releases it or its lease
expires. -/
theorem detached_run {allows : Request → Prop} {w w' : World} {tr : List Step}
    (h : w.db.Detached x th o e) (hsteps : (service allows).Steps w tr w') :
    (∃ q a, Step.call q (.ok a) ∈ tr ∧ q.Releases x o) ∨ e ≤ w'.clock ∨
      w'.db.Detached x th o e := by
  induction hsteps with
  | nil => exact .inr (.inr h)
  | @snoc tr l w₁ w₂ _ hstep ih =>
      rcases ih with ⟨q, a, hmem, hrel⟩ | hexpired | hdetached
      · exact .inl ⟨q, a, List.mem_append_left _ hmem, hrel⟩
      · rcases service_step hstep with ⟨d, -, rfl⟩ | ⟨-, -, -, rfl⟩ | ⟨-, -, -, db, -, -, rfl, -⟩
        · exact .inr (.inl (hexpired.trans (Nat.le_add_right _ _)))
        · exact .inr (.inl hexpired)
        · exact .inr (.inl hexpired)
      -- before `e` only a request that stops the execution can take the lease
      · by_cases hlt : w₁.clock < e
        · rcases service_step hstep with ⟨d, -, rfl⟩ | ⟨-, -, -, rfl⟩ |
            ⟨q, a, avail, db, rfl, -, rfl, hret⟩
          · exact .inr (.inr hdetached)
          · exact .inr (.inr hdetached)
          · by_cases hrel : q.Releases x o
            · exact .inl ⟨q, a, by simp, hrel⟩
            · have hS (r : RunRow) (hid : r.runId = x) (howner : r.leaseOwner = some o) :
                  ¬ q.Stops r := fun hs => hrel ⟨r, hid, howner, hs⟩
              refine .inr (.inr ?_)
              have hkeep (v v' : Db) (hv : v.Detached x th o e)
                  (hmove : Move w₁.clock q.Stops v v') : v'.Detached x th o e :=
                hmove.detached hv hlt hS
              cases Request.effect hret with
              | moves hmoves => exact hmoves.preserves hkeep hdetached
              | submit _ hsubmit => exact hsubmit.detached hdetached
              | claim _ hstart hmoves =>
                  exact hmoves.preserves hkeep (hstart.detached hdetached)
        · rcases service_step hstep with ⟨d, -, rfl⟩ | ⟨-, -, -, rfl⟩ | ⟨-, -, -, db, -, -, rfl, -⟩
          · exact .inr (.inl ((not_lt.1 hlt).trans (Nat.le_add_right _ _)))
          · exact .inr (.inl (not_lt.1 hlt))
          · exact .inr (.inl (not_lt.1 hlt))

/-! ## The law -/

/-- The step of a claim that starts the run `r`. -/
def Claims (w : World) (r : RunRow) (w' : World) : Prop :=
  ∃ repo owner valid,
    (service fun _ => True).step w (.call (.claim repo owner valid) (.ok (.run (some r)))) w'

/-- A claim that starts `r` found it eligible. -/
theorem Claims.eligible {w w' : World} {r : RunRow} (h : Claims w r w') :
    ∃ r₀, r₀.runId = r.runId ∧ r₀.threadId = r.threadId ∧ eligible w.clock w.db r₀ = true := by
  obtain ⟨repo, owner, valid, hstep⟩ := h
  obtain ⟨avail, db, rfl, hret⟩ := service_commit hstep
  cases Request.effect hret with
  | moves _ hclaim => cases hclaim _ _ _ rfl
  | submit hq => cases hq
  | @claim _ _ _ run _ _ hstart _ _ hreply hstarted =>
      cases hreply
      rcases hstarted with ⟨hnone, -⟩ | ⟨hsome, -⟩
      · cases hnone
      · cases hsome
        exact ⟨run, rfl, rfl, hstart.eligible⟩

/-- What mutual exclusion says of a state `w` of the service. -/
structure OneExecutor (w : World) : Prop where
  running : w.db.AtMostOne fun r => r.status = .running
  leased : w.db.AtMostOne fun r => holdsLease w.clock r = true
  /-- A claim starts a run only when no other run of its thread executes, may still
  execute or rolls back. -/
  claims : ∀ r w', Claims w r w' → r.threadId.isSome → ∀ x ∈ w.db.runs,
    x.threadId = r.threadId → x.runId ≠ r.runId →
      x.status ≠ .running ∧ x.reason ≠ some .rollback ∧ holdsLease w.clock x = false
  /-- A cancel leaves the lease of the cancelled execution in place. -/
  cancelled : ∀ id action w' r o e,
    (service fun _ => True).step w (.call (.runsCancel id action) (.ok (.flag true))) w' →
    w.db.runs.find? id = some r → r.leaseOwner = some o → r.leaseExpiresAt = some e →
      w'.db.Detached id r.threadId o e
  /-- The next run of the thread starts when that execution has released its lease or the
  lease has expired. -/
  next : ∀ x o e tr w' r w'', w.db.Detached x r.threadId o e →
    (service fun _ => True).Steps w tr w' → Claims w' r w'' → r.threadId.isSome →
      (∃ q a, Step.call q (.ok a) ∈ tr ∧ q.Releases x o) ∨ e ≤ w'.clock

/-- One executor per thread, in every state the service reaches. -/
theorem one_executor_per_thread : (service fun _ => True).Invariant OneExecutor := by
  intro w hreach
  have hexcl : w.db.Exclusive w.clock := exclusive_inductive.invariant w hreach
  refine ⟨?_, ?_, ?_, ?_, ?_⟩
  · exact fun x hx y hy ht hsame hrx hry => hexcl.active x hx y hy ht hsame (.inl hrx) (.inl hry)
  · exact fun x hx y hy ht hsame hlx hly => hexcl.active x hx y hy ht hsame (.inr hlx) (.inr hly)
  · intro r w' hclaim hthread x hx hsame _
    obtain ⟨r₀, -, ht, heligible⟩ := hclaim.eligible
    exact eligible_alone heligible hx (ht ▸ hthread) (ht ▸ hsame)
  · intro id action w' r o e hstep hr ho he
    obtain ⟨avail, db, rfl, hret⟩ := service_commit hstep
    obtain ⟨b, hret, hb⟩ := replying_returns.1 hret
    cases hb
    obtain ⟨row, hrow, hended⟩ := runsCancel_ended hret
    obtain rfl := Option.some.inj (hr.symm.trans hrow)
    rcases hended with ⟨hnone, -⟩ | ⟨r', hr', hthread, hterminal, hlease⟩
    -- a cancel of a pending run leaves no lease, so the run was not pending
    · simp [ho] at hnone
    · have hnotpending : r.status ≠ .pending := fun hp => by
        simp [hexcl.pending r (Table.mem_of_find? hr) hp] at ho
      obtain ⟨ho', he'⟩ := hlease hnotpending
      exact ⟨r', hr', hthread, hterminal, ho'.trans ho, he'.trans he⟩
  · intro x o e tr w' r w'' hdetached hsteps hclaim hthread
    rcases detached_run hdetached hsteps with hrel | hexpired | ⟨s, hs, hsame, -, ho, he⟩
    · exact .inl hrel
    · exact .inr hexpired
    · obtain ⟨r₀, -, ht, heligible⟩ := hclaim.eligible
      have hfree := (eligible_alone heligible (Table.mem_of_find? hs) (ht ▸ hthread)
        (ht ▸ hsame)).2.2
      -- otherwise the run still holds its lease, and the claim would not have found the thread free
      refine .inr (not_lt.1 fun hlt => ?_)
      have hheld : holdsLease w'.clock s = true :=
        holdsLease_eq_true.2 ⟨by simp [ho], e, he, hlt⟩
      simp [hfree] at hheld

end GraphHarbor
