import GraphHarbor.Scheduler

/-!
# At most one worker

Between two reads of a claim or a sweep anything can happen. What holds in spite of this is
carried by the row locks and the heartbeat: a claim has locked its run and its thread, so no
other claim starts a run there; a sibling that is executed has a heartbeat, so the claim
finds it. What cannot be excluded, that a task clears the heartbeat of a later worker, is a
condition of the runs: `Safe`.
-/

namespace GraphHarbor.Scheduler

open Kit

/-- The thread whose runs the claim has found not to be running. -/
def Claim.checks? : Claim → Option ThreadId
  | .checked _ t => some t
  | .asking _ thread _ | .committing _ thread => thread
  | .ended | .idle | .selected _ | .locked _ _ | .clearing _ _ => none

/-- The thread, and the runs on it that a worker may still execute for all the claim knows. -/
def Claim.open? : Claim → Option (ThreadId × List RunId)
  | .asking _ (some t) siblings => some (t, siblings)
  | .committing _ (some t) => some (t, [])
  | _ => none

/-- The thread of the claimed run, as far as the claim has read it. -/
def Claim.Reads (claim : Claim) (row : RunRow) : Prop :=
  match claim with
  | .locked _ t | .checked _ t => row.threadId = some t
  | .asking _ thread _ | .committing _ thread => row.threadId = thread
  | .ended | .idle | .selected _ | .clearing _ _ => True

theorem Claim.thread_of_checks {claim : Claim} {t : ThreadId} (h : claim.checks? = some t) :
    claim.thread? = some t := by
  cases claim with
  | checked | asking | committing => exact h
  | ended | idle | selected | locked | clearing => cases h

theorem Claim.checks_of_open {claim : Claim} {t : ThreadId} {ids : List RunId}
    (h : claim.open? = some (t, ids)) : claim.checks? = some t := by
  cases claim with
  | asking id thread siblings =>
      cases thread with
      | none => cases h
      | some t' =>
          have ht : t' = t := congrArg Prod.fst (Option.some.inj h)
          exact congrArg some ht
  | committing id thread =>
      cases thread with
      | none => cases h
      | some t' =>
          have ht : t' = t := congrArg Prod.fst (Option.some.inj h)
          exact congrArg some ht
  | ended | idle | selected | locked | checked | clearing => cases h

namespace State

/-- No worker executes the run. -/
def Unserved (s : State) (id : RunId) : Prop := ∀ w, s.workers w ≠ .executing id

/-- No sweep, worker or claim is about to clear the heartbeat of the run. -/
def Unthreatened (s : State) (id : RunId) : Prop :=
  (∀ p, (s.sweepers p).target? ≠ some id) ∧ (∀ w, s.workers w ≠ .leaving id) ∧
    ∀ c integrity, (s.claimers c).phase ≠ .clearing id integrity

/-- The heartbeat of the run is there and will not be cleared under it. -/
def Kept (s : State) (id : RunId) : Prop := s.heartbeats id = true ∧ s.Unthreatened id

/-- No claim of the run is about to be committed. -/
def Uncommitted (s : State) (id : RunId) : Prop :=
  ∀ c thread, (s.claimers c).phase ≠ .committing id thread

/-- A claim of a run is written while nothing is about to clear its heartbeat; a run is
given back below the limit of attempts; a run is not deleted under its worker, be it because a
cancel saw it pending, nor a thread before its runs; a heartbeat does not expire under the
worker or the claim that keeps it. -/
def Safe (maxRetries : Nat) (s : State) : Step → Prop
  | .claim c .write => ∀ id thread, (s.claimers c).phase = .asking id thread [] →
      s.Unthreatened id
  | .work w (.giveBack _) => ∀ id, s.workers w = .executing id → s.retryCounters id < maxRetries
  | .api (.delete id) => s.Unserved id
  | .api (.cancel xs action _) => action = .rollback → ∀ x ∈ xs, x.pending = true →
      x.queues = false → s.Unserved x.run
  | .api (.deleteThread t seen) => ∀ row ∈ s.runs, row.threadId = some t →
      row.runId ∈ seen ∧ s.Unserved row.runId
  | .api (.expire id) => s.Unserved id ∧ s.Uncommitted id
  | _ => True

/-- What holds of the workers and the queue in every safe run. -/
structure Sound (maxRetries : Nat) (s : State) : Prop where
  threaded : ∀ row ∈ s.runs, ∀ t, row.threadId = some t → (s.threads.find? t).isSome
  running : ∀ row ∈ s.runs, ∀ row' ∈ s.runs, ∀ t, row.status = .running →
    row'.status = .running → row.threadId = some t → row'.threadId = some t →
    row.runId = row'.runId
  counted : ∀ id, s.retryCounters id ≤ max 1 maxRetries
  fresh : ∀ id, (∀ row ∈ s.runs, row.runId ≠ id) → s.retryCounters id = 0
  pending : ∀ row ∈ s.runs, row.status = .pending →
    s.retryCounters row.runId < max 1 maxRetries
  executing : ∀ w id, s.workers w = .executing id → s.Kept id ∧
    ∃ row ∈ s.runs, row.runId = id ∧ (row.status = .running ∨ row.status = .interrupted)
  alone : ∀ v w id, s.workers v = .executing id → s.workers w = .executing id → v = w
  apart : ∀ v w, ∀ row ∈ s.runs, ∀ row' ∈ s.runs, ∀ t, s.workers v = .executing row.runId →
    s.workers w = .executing row'.runId → row.threadId = some t → row'.threadId = some t → v = w
  rows : ∀ c id, (s.claimers c).phase.run? = some id → s.rowLocks id = some c ∧
    ∃ row ∈ s.runs, row.runId = id ∧ row.status = .pending ∧ (s.claimers c).phase.Reads row
  threads : ∀ c t, (s.claimers c).phase.thread? = some t → s.threadLocks t = some c
  opposed : ∀ c t, (s.claimers c).phase.checks? = some t → ∀ row ∈ s.runs,
    row.threadId = some t → row.status ≠ .running
  asked : ∀ c t ids, (s.claimers c).phase.open? = some (t, ids) → ∀ w, ∀ row ∈ s.runs,
    row.threadId = some t → s.workers w = .executing row.runId → row.runId ∈ ids
  committing : ∀ c id thread, (s.claimers c).phase = .committing id thread → s.Kept id
  updating : ∀ p id attempts rest, s.sweepers p = .updating id attempts rest →
    s.retryCounters id ≤ attempts

/-! ## Rows after a write -/

section Rows

variable {s s' : State} {id : RunId} {status : RunStatus} {now : Time} {row : RunRow}
  {t : ThreadId}

theorem mem_setStatus : row ∈ (s.setStatus id status now).runs ↔
    ∃ old ∈ s.runs, row = if old.runId = id then { old with status, updatedAt := now } else old :=
  Table.mem_modify (f := fun r : RunRow => { r with status, updatedAt := now }) fun _ => rfl

theorem of_mem_setStatus (h : row ∈ (s.setStatus id status now).runs) :
    ∃ old ∈ s.runs, row.runId = old.runId ∧ row.threadId = old.threadId ∧
      (row.runId = id ∧ row.status = status ∨ row.runId ≠ id ∧ row = old) := by
  obtain ⟨old, hold, rfl⟩ := mem_setStatus.1 h
  refine ⟨old, hold, ?_⟩
  by_cases hid : old.runId = id
  · rw [if_pos hid]
    exact ⟨rfl, rfl, .inl ⟨hid, rfl⟩⟩
  · rw [if_neg hid]
    exact ⟨rfl, rfl, .inr ⟨hid, rfl⟩⟩

theorem mem_setStatus_of_ne (h : row ∈ s.runs) (hid : row.runId ≠ id) :
    row ∈ (s.setStatus id status now).runs :=
  mem_setStatus.2 ⟨row, h, (if_neg hid).symm⟩

theorem mem_setStatus_self (h : row ∈ s.runs) (hid : row.runId = id) :
    { row with status, updatedAt := now } ∈ (s.setStatus id status now).runs :=
  mem_setStatus.2 ⟨row, h, (if_pos hid).symm⟩

theorem mem_deleteRun : row ∈ (s.deleteRun id).runs ↔ row ∈ s.runs ∧ row.runId ≠ id :=
  Table.mem_erase

theorem isSome_updateThread (f : ThreadRow → ThreadRow) (hf) (t' : ThreadId) :
    ((s.updateThread t f hf).threads.find? t').isSome = (s.threads.find? t').isSome :=
  Table.isSome_find?_modify hf

end Rows

/-! ## What keeps the invariant -/

namespace Sound

variable {m : Nat} {s : State} {id : RunId} {t : ThreadId} {c d p v w : Nat} {row : RunRow}

/-- A run that a worker executes is not pending, so no claim has locked it. -/
theorem unlocked_of_executing (h : Sound m s) (hw : s.workers w = .executing id) :
    (s.claimers c).phase.run? ≠ some id := by
  intro hrun
  obtain ⟨-, row, hrow, hid, hstatus, -⟩ := h.rows c id hrun
  obtain ⟨-, row', hrow', hid', hstatus'⟩ := h.executing w id hw
  have heq : row' = row := Table.eq_of_mem_of_key_eq hrow' hrow (hid'.trans hid.symm)
  subst heq
  rcases hstatus' with h' | h'
  · exact absurd (hstatus.symm.trans h') (by decide)
  · exact absurd (hstatus.symm.trans h') (by decide)

/-- Two claims do not have one run. -/
theorem claim_unique (h : Sound m s) (hc : (s.claimers c).phase.run? = some id)
    (hd : (s.claimers d).phase.run? = some id) : c = d :=
  Option.some.inj ((h.rows c id hc).1.symm.trans (h.rows d id hd).1)

theorem thread_unique (h : Sound m s) (hc : (s.claimers c).phase.thread? = some t)
    (hd : (s.claimers d).phase.thread? = some t) : c = d :=
  Option.some.inj ((h.threads c t hc).symm.trans (h.threads d t hd))

/-- A claim about to be committed finds no worker on its thread. -/
theorem unserved_of_committing (h : Sound m s) {thread : Option ThreadId}
    (hc : (s.claimers c).phase = .committing id thread) : s.Unserved id := by
  intro w hw
  exact h.unlocked_of_executing hw (c := c) (by rw [hc]; rfl)

/-- A heartbeat that is about to be cleared is not that of a worker or a written claim. -/
theorem unserved (h : Sound m s) (hid : ¬ s.Unthreatened id) : s.Unserved id :=
  fun w hw => hid (h.executing w id hw).1.2

theorem uncommitted (h : Sound m s) (hid : ¬ s.Unthreatened id) : s.Uncommitted id :=
  fun c thread hc => hid (h.committing c id thread hc).2

/-- A sweep takes another position. -/
theorem setSweep (h : Sound m s) {x : Sweep}
    (htarget : ∀ id, x.target? = some id → s.Unserved id ∧ s.Uncommitted id)
    (hcount : ∀ id attempts rest, x = .updating id attempts rest →
      s.retryCounters id ≤ attempts) : Sound m (s.setSweep p x) := by
  have hkept (id) (hnot : x.target? ≠ some id) (hid : s.Kept id) : (s.setSweep p x).Kept id := by
    obtain ⟨hbeat, hsweeps, hworkers, hclaims⟩ := hid
    refine ⟨hbeat, fun q => ?_, hworkers, hclaims⟩
    rw [setSweep_sweepers]
    split
    · exact hnot
    · exact hsweeps q
  exact
    { h with
      executing := by
        intro w id hw
        obtain ⟨hid, hrow⟩ := h.executing w id hw
        exact ⟨hkept id (fun hx => (htarget id hx).1 w hw) hid, hrow⟩
      committing := fun c id thread hc =>
        hkept id (fun hx => (htarget id hx).2 c thread hc) (h.committing c id thread hc)
      updating := by
        intro q id attempts rest hq
        rw [setSweep_sweepers] at hq
        split at hq
        · exact hcount id attempts rest hq
        · exact h.updating q id attempts rest hq }

/-- A worker has left its run, or its process is gone. -/
theorem setWorker (h : Sound m s) {x : Worker} (hnot : ∀ id, x ≠ .executing id)
    (hleaving : ∀ id, x = .leaving id → s.workers w = .executing id) :
    Sound m (s.setWorker w x) := by
  have hold (v id) (hv : (s.setWorker w x).workers v = .executing id) :
      v ≠ w ∧ s.workers v = .executing id := by
    rw [setWorker_workers] at hv
    by_cases hvw : v = w
    · rw [if_pos hvw] at hv
      exact absurd hv (hnot id)
    · rw [if_neg hvw] at hv
      exact ⟨hvw, hv⟩
  have hkept (id) (hx : x ≠ .leaving id) (hid : s.Kept id) : (s.setWorker w x).Kept id := by
    obtain ⟨hbeat, hsweeps, hworkers, hclaims⟩ := hid
    refine ⟨hbeat, hsweeps, fun v => ?_, hclaims⟩
    rw [setWorker_workers]
    split
    · exact hx
    · exact hworkers v
  exact
    { h with
      executing := by
        intro v id hv
        obtain ⟨hvw, hv⟩ := hold v id hv
        obtain ⟨hid, hrow⟩ := h.executing v id hv
        -- Another worker of the run would be this one.
        exact ⟨hkept id (fun hx => hvw (h.alone v w id hv (hleaving id hx))) hid, hrow⟩
      alone := fun u v id hu hv => h.alone u v id (hold u id hu).2 (hold v id hv).2
      apart := fun u v row hrow row' hrow' t hu hv =>
        h.apart u v row hrow row' hrow' t (hold u _ hu).2 (hold v _ hv).2
      asked := fun c t ids hc v row hrow ht hv =>
        h.asked c t ids hc v row hrow ht (hold v _ hv).2
      committing := fun c id thread hc =>
        hkept id (fun hx => h.unserved_of_committing hc w (hleaving id hx))
          (h.committing c id thread hc) }

theorem setRunHeartbeat (h : Sound m s) : Sound m (s.setRunHeartbeat id) := by
  have hkept (j) (hj : s.Kept j) : (s.setRunHeartbeat id).Kept j := by
    refine ⟨?_, hj.2⟩
    rw [setRunHeartbeat_heartbeats]
    split
    · rfl
    · exact hj.1
  exact
    { h with
      executing := fun v j hv => ⟨hkept j (h.executing v j hv).1, (h.executing v j hv).2⟩
      committing := fun c j thread hc => hkept j (h.committing c j thread hc) }

/-- The heartbeat of a run without a worker and without a claim about to be committed. -/
theorem clearRunHeartbeat (h : Sound m s) (hserved : s.Unserved id) (hcommit : s.Uncommitted id) :
    Sound m (s.clearRunHeartbeat id) := by
  have hkept (j) (hne : j ≠ id) (hj : s.Kept j) : (s.clearRunHeartbeat id).Kept j := by
    refine ⟨?_, hj.2⟩
    rw [clearRunHeartbeat_heartbeats, if_neg hne]
    exact hj.1
  exact
    { h with
      executing := by
        intro v j hv
        have hne : j ≠ id := fun heq => hserved v (heq ▸ hv)
        exact ⟨hkept j hne (h.executing v j hv).1, (h.executing v j hv).2⟩
      committing := by
        intro c j thread hc
        have hne : j ≠ id := fun heq => hcommit c thread (heq ▸ hc)
        exact hkept j hne (h.committing c j thread hc) }

/-- The threads change, but none with a run goes away. -/
theorem setThreads (h : Sound m s) {threads : Table ThreadRow}
    (hthreads : ∀ row ∈ s.runs, ∀ t, row.threadId = some t → (s.threads.find? t).isSome →
      (threads.find? t).isSome) : Sound m { s with threads } :=
  { h with
    threaded := fun row hrow t ht => hthreads row hrow t ht (h.threaded row hrow t ht) }

theorem updateThread (h : Sound m s) (f : ThreadRow → ThreadRow)
    (hf : ∀ row, (f row).threadId = row.threadId) : Sound m (s.updateThread t f hf) :=
  h.setThreads fun _ _ t' _ ht' => (isSome_updateThread f hf t').trans ht'

/-- A run that no claim has locked gets a status other than `running`. -/
theorem setStatus (h : Sound m s) {status : RunStatus} {now : Time}
    (hunlocked : ∀ c, (s.claimers c).phase.run? ≠ some id) (hnot : status ≠ .running)
    (hserved : s.Unserved id ∨ status = .interrupted)
    (hpending : status = .pending → s.retryCounters id < max 1 m) :
    Sound m (s.setStatus id status now) := by
  have hrunning (row) (hrow : row ∈ (s.setStatus id status now).runs)
      (hr : row.status = .running) : row ∈ s.runs := by
    obtain ⟨old, hold, -, -, ⟨-, hst⟩ | ⟨-, rfl⟩⟩ := of_mem_setStatus hrow
    · exact absurd (hst.symm.trans hr) hnot
    · exact hold
  exact
    { h with
      threaded := by
        intro row hrow t ht
        obtain ⟨old, hold, -, hthread, -⟩ := of_mem_setStatus hrow
        exact h.threaded old hold t (hthread.symm.trans ht)
      running := fun row hrow row' hrow' t hr hr' =>
        h.running row (hrunning row hrow hr) row' (hrunning row' hrow' hr') t hr hr'
      fresh := by
        intro j hj
        refine h.fresh j fun row hrow hid => ?_
        by_cases hrid : row.runId = id
        · exact hj _ (mem_setStatus_self hrow hrid) hid
        · exact hj row (mem_setStatus_of_ne hrow hrid) hid
      pending := by
        intro row hrow hp
        obtain ⟨old, hold, -, -, ⟨hid, hst⟩ | ⟨-, rfl⟩⟩ := of_mem_setStatus hrow
        · rw [hid]
          exact hpending (hst.symm.trans hp)
        · exact h.pending row hold hp
      executing := by
        intro v j hv
        obtain ⟨hbeat, row, hrow, hid, hst⟩ := h.executing v j hv
        refine ⟨hbeat, ?_⟩
        by_cases hrid : row.runId = id
        · have hint : status = .interrupted :=
            hserved.resolve_left fun hu => hu v (by rw [← hrid, hid]; exact hv)
          exact ⟨_, mem_setStatus_self hrow hrid, hid, .inr hint⟩
        · exact ⟨row, mem_setStatus_of_ne hrow hrid, hid, hst⟩
      apart := by
        intro u v row hrow row' hrow' t hu hv ht ht'
        obtain ⟨old, hold, hid, hthread, -⟩ := of_mem_setStatus hrow
        obtain ⟨old', hold', hid', hthread', -⟩ := of_mem_setStatus hrow'
        rw [hid] at hu
        rw [hid'] at hv
        exact h.apart u v old hold old' hold' t hu hv (hthread.symm.trans ht)
          (hthread'.symm.trans ht')
      rows := by
        intro c j hc
        obtain ⟨hlock, row, hrow, hid, hst, hreads⟩ := h.rows c j hc
        have hne : row.runId ≠ id := fun heq => hunlocked c (by rw [← heq, hid]; exact hc)
        exact ⟨hlock, row, mem_setStatus_of_ne hrow hne, hid, hst, hreads⟩
      opposed := fun c t hc row hrow ht hr => h.opposed c t hc row (hrunning row hrow hr) ht hr
      asked := by
        intro c t ids hc v row hrow ht hv
        obtain ⟨old, hold, hid, hthread, -⟩ := of_mem_setStatus hrow
        rw [hid] at hv ⊢
        exact h.asked c t ids hc v old hold (hthread.symm.trans ht) hv }

/-- A run that no claim has locked and no worker executes is deleted. -/
theorem deleteRun (h : Sound m s) (hunlocked : ∀ c, (s.claimers c).phase.run? ≠ some id)
    (hserved : s.Unserved id) : Sound m (s.deleteRun id) := by
  have hle (j) : (s.deleteRun id).retryCounters j ≤ s.retryCounters j := by
    rw [deleteRun_retryCounters]
    split
    · exact Nat.zero_le _
    · exact le_rfl
  have hmem (row) (hrow : row ∈ (s.deleteRun id).runs) : row ∈ s.runs := (mem_deleteRun.1 hrow).1
  exact
    { h with
      threaded := fun row hrow => h.threaded row (hmem row hrow)
      running := fun row hrow row' hrow' => h.running row (hmem row hrow) row' (hmem row' hrow')
      counted := fun j => (hle j).trans (h.counted j)
      fresh := by
        intro j hj
        rw [deleteRun_retryCounters]
        by_cases hjd : j = id
        · exact if_pos hjd
        · rw [if_neg hjd]
          refine h.fresh j fun row hrow hid => hj row (mem_deleteRun.2 ⟨hrow, ?_⟩) hid
          rwa [hid]
      pending := fun row hrow hp => (hle _).trans_lt (h.pending row (hmem row hrow) hp)
      executing := by
        intro v j hv
        obtain ⟨hbeat, row, hrow, hid, hst⟩ := h.executing v j hv
        refine ⟨hbeat, row, mem_deleteRun.2 ⟨hrow, fun heq => ?_⟩, hid, hst⟩
        exact hserved v (by rw [← heq, hid]; exact hv)
      apart := fun u v row hrow row' hrow' =>
        h.apart u v row (hmem row hrow) row' (hmem row' hrow')
      rows := by
        intro c j hc
        obtain ⟨hlock, row, hrow, hid, hst, hreads⟩ := h.rows c j hc
        refine ⟨hlock, row, mem_deleteRun.2 ⟨hrow, fun heq => ?_⟩, hid, hst, hreads⟩
        exact hunlocked c (by rw [← heq, hid]; exact hc)
      opposed := fun c t hc row hrow => h.opposed c t hc row (hmem row hrow)
      asked := fun c t ids hc v row hrow => h.asked c t ids hc v row (hmem row hrow)
      updating := fun q j attempts rest hq => (hle j).trans (h.updating q j attempts rest hq) }

/-- A claim goes on. It keeps the locks of the others, and has those of its new phase. -/
theorem moveClaim (h : Sound m s) {x : Claimer} {rowLocks : RunId → Option Nat}
    {threadLocks indexLocks : ThreadId → Option Nat}
    (hrow : ∀ d ≠ c, ∀ id, s.rowLocks id = some d → rowLocks id = some d)
    (hthread : ∀ d ≠ c, ∀ t, s.threadLocks t = some d → threadLocks t = some d)
    (hrun : ∀ id, x.phase.run? = some id → rowLocks id = some c ∧
      ∃ row ∈ s.runs, row.runId = id ∧ row.status = .pending ∧ x.phase.Reads row)
    (hlocked : ∀ t, x.phase.thread? = some t → threadLocks t = some c)
    (hopposed : ∀ t, x.phase.checks? = some t → ∀ row ∈ s.runs, row.threadId = some t →
      row.status ≠ .running)
    (hasked : ∀ t ids, x.phase.open? = some (t, ids) → ∀ w, ∀ row ∈ s.runs,
      row.threadId = some t → s.workers w = .executing row.runId → row.runId ∈ ids)
    (hcommit : ∀ id thread, x.phase = .committing id thread → s.Kept id)
    (hclear : ∀ id integrity, x.phase = .clearing id integrity →
      (s.claimers c).phase.run? = some id) :
    Sound m ({ s with rowLocks, threadLocks, indexLocks }.setClaimer c x) := by
  have hkept (id) (hx : ∀ integrity, x.phase ≠ .clearing id integrity) (hid : s.Kept id) :
      ({ s with rowLocks, threadLocks, indexLocks }.setClaimer c x).Kept id := by
    obtain ⟨hbeat, hsweeps, hworkers, hclaims⟩ := hid
    refine ⟨hbeat, hsweeps, hworkers, fun d => ?_⟩
    rw [setClaimer_claimers]
    split
    · exact hx
    · exact hclaims d
  exact
    { h with
      executing := by
        intro w id hw
        obtain ⟨hid, hrow⟩ := h.executing w id hw
        refine ⟨hkept id (fun integrity hx => ?_) hid, hrow⟩
        exact h.unlocked_of_executing hw (hclear id integrity hx)
      rows := by
        intro d id hd
        rw [setClaimer_claimers] at hd ⊢
        by_cases hdc : d = c
        · subst hdc
          rw [if_pos rfl] at hd ⊢
          exact hrun id hd
        · rw [if_neg hdc] at hd ⊢
          obtain ⟨hlock, hrest⟩ := h.rows d id hd
          exact ⟨hrow d hdc id hlock, hrest⟩
      threads := by
        intro d t hd
        rw [setClaimer_claimers] at hd
        by_cases hdc : d = c
        · subst hdc
          rw [if_pos rfl] at hd
          exact hlocked t hd
        · rw [if_neg hdc] at hd
          exact hthread d hdc t (h.threads d t hd)
      opposed := by
        intro d t hd
        rw [setClaimer_claimers] at hd
        split at hd
        · exact hopposed t hd
        · exact h.opposed d t hd
      asked := by
        intro d t ids hd
        rw [setClaimer_claimers] at hd
        split at hd
        · exact hasked t ids hd
        · exact h.asked d t ids hd
      committing := by
        intro d id thread hd
        rw [setClaimer_claimers] at hd
        by_cases hdc : d = c
        · rw [if_pos hdc] at hd
          exact hkept id (fun integrity hx => by rw [hd] at hx; cases hx) (hcommit id thread hd)
        · -- were this claim to clear the run of the other, both would hold its row
          rw [if_neg hdc] at hd
          refine hkept id (fun integrity hx => hdc ?_) (h.committing d id thread hd)
          exact h.claim_unique (by rw [hd]; rfl) (hclear id integrity hx) }

/-- A claim goes on under the locks that it has. -/
theorem goOn (h : Sound m s) {phase : Claim} {indexLocks : ThreadId → Option Nat}
    (hrun : phase.run? = (s.claimers c).phase.run?)
    (hthread : phase.thread? = (s.claimers c).phase.thread?)
    (hreads : ∀ row, (s.claimers c).phase.Reads row → phase.Reads row)
    (hopposed : ∀ t, phase.checks? = some t → ∀ row ∈ s.runs, row.threadId = some t →
      row.status ≠ .running)
    (hasked : ∀ t ids, phase.open? = some (t, ids) → ∀ w, ∀ row ∈ s.runs,
      row.threadId = some t → s.workers w = .executing row.runId → row.runId ∈ ids)
    (hcommit : ∀ id thread, phase = .committing id thread → s.Kept id)
    (hclear : ∀ id integrity, phase ≠ .clearing id integrity) :
    Sound m ({ s with indexLocks }.goto c phase) := by
  refine h.moveClaim (fun _ _ _ hd => hd) (fun _ _ _ ht => ht) (fun id hid => ?_)
    (fun t ht => ?_) hopposed hasked hcommit
    fun id integrity hid => absurd hid (hclear id integrity)
  · obtain ⟨hlock, row, hrow, hid', hstatus, hread⟩ := h.rows c id (hrun.symm.trans hid)
    exact ⟨hlock, row, hrow, hid', hstatus, hreads row hread⟩
  · exact h.threads c t (hthread.symm.trans ht)

/-- The worker of a committed claim starts: no other claim has checked its thread, and no
run of its thread is running or executed. -/
theorem start (h : Sound m s) (now : Time) (hrow : row ∈ s.runs) (hstatus : row.status = .pending)
    (hid : s.Kept row.runId) (hunlocked : ∀ c, (s.claimers c).phase.run? ≠ some row.runId)
    (hchecks : ∀ c t, row.threadId = some t → (s.claimers c).phase.checks? ≠ some t)
    (hfree : ∀ t, row.threadId = some t → ∀ row' ∈ s.runs, row'.threadId = some t →
      row'.status ≠ .running ∧ s.Unserved row'.runId) :
    Sound m (((s.setStatus row.runId .running now).increment row.runId).setWorker w
      (.executing row.runId)) := by
  have hnone : s.Unserved row.runId := by
    intro v hv
    obtain ⟨-, row', hrow', hid', hst⟩ := h.executing v _ hv
    obtain rfl : row' = row := Table.eq_of_mem_of_key_eq hrow' hrow hid'
    rcases hst with hst | hst
    · exact absurd (hstatus.symm.trans hst) (by decide)
    · exact absurd (hstatus.symm.trans hst) (by decide)
  have hcases (v j) (hv : (((s.setStatus row.runId .running now).increment row.runId).setWorker w
      (.executing row.runId)).workers v = .executing j) :
      v = w ∧ j = row.runId ∨ v ≠ w ∧ s.workers v = .executing j := by
    rw [setWorker_workers] at hv
    by_cases hvw : v = w
    · rw [if_pos hvw] at hv
      exact .inl ⟨hvw, (Worker.executing.inj hv).symm⟩
    · rw [if_neg hvw] at hv
      exact .inr ⟨hvw, hv⟩
  have hkept (j) (hj : s.Kept j) : (((s.setStatus row.runId .running now).increment
      row.runId).setWorker w (.executing row.runId)).Kept j := by
    obtain ⟨hbeat, hsweeps, hworkers, hclaims⟩ := hj
    refine ⟨hbeat, hsweeps, fun v hv => ?_, hclaims⟩
    rw [setWorker_workers] at hv
    split at hv
    · cases hv
    · exact hworkers v hv
  -- A row of the new state that carries the id of the claimed run has its thread.
  have hthread (old) (hold : old ∈ s.runs) (hid' : old.runId = row.runId) : old = row :=
    Table.eq_of_mem_of_key_eq hold hrow hid'
  exact
    { threaded := by
        intro row' hrow' t ht
        obtain ⟨old, hold, -, hth, -⟩ := of_mem_setStatus hrow'
        exact h.threaded old hold t (hth.symm.trans ht)
      running := by
        intro row₁ hrow₁ row₂ hrow₂ t hr₁ hr₂ ht₁ ht₂
        obtain ⟨old₁, hold₁, hid₁, hth₁, hst₁⟩ := of_mem_setStatus hrow₁
        obtain ⟨old₂, hold₂, hid₂, hth₂, hst₂⟩ := of_mem_setStatus hrow₂
        -- each of the two is the claimed run, or was running before
        rcases hst₁ with ⟨heq₁, -⟩ | ⟨hne₁, rfl⟩
        · rcases hst₂ with ⟨heq₂, -⟩ | ⟨hne₂, rfl⟩
          · exact heq₁.trans heq₂.symm
          · obtain rfl := hthread old₁ hold₁ (hid₁.symm.trans heq₁)
            exact absurd hr₂ (hfree t (hth₁.symm.trans ht₁) _ hold₂ ht₂).1
        · rcases hst₂ with ⟨heq₂, -⟩ | ⟨hne₂, rfl⟩
          · obtain rfl := hthread old₂ hold₂ (hid₂.symm.trans heq₂)
            exact absurd hr₁ (hfree t (hth₂.symm.trans ht₂) _ hold₁ ht₁).1
          · exact h.running _ hold₁ _ hold₂ t hr₁ hr₂ ht₁ ht₂
      counted := by
        intro j
        refine (increment_retryCounters _ _ _).trans_le ?_
        split
        · -- a pending run has an attempt left
          exact h.pending row hrow hstatus
        · exact h.counted j
      fresh := by
        intro j hj
        have hne : j ≠ row.runId := fun heq =>
          hj _ (mem_setStatus_self hrow rfl) heq.symm
        refine ((increment_retryCounters _ _ _).trans (if_neg hne)).trans ?_
        refine h.fresh j fun row' hrow' hid' => ?_
        by_cases hrid : row'.runId = row.runId
        · exact hj _ (mem_setStatus_self hrow' hrid) hid'
        · exact hj row' (mem_setStatus_of_ne hrow' hrid) hid'
      pending := by
        intro row' hrow' hp
        obtain ⟨old, hold, -, -, ⟨-, hst⟩ | ⟨hne, rfl⟩⟩ := of_mem_setStatus hrow'
        · exact absurd (hst.symm.trans hp) (by decide)
        · refine ((increment_retryCounters _ _ _).trans (if_neg hne)).trans_lt ?_
          exact h.pending _ hold hp
      executing := by
        intro v j hv
        rcases hcases v j hv with ⟨rfl, rfl⟩ | ⟨-, hv⟩
        · exact ⟨hkept _ hid, _, mem_setStatus_self hrow rfl, rfl, .inl rfl⟩
        · obtain ⟨hj, row', hrow', hid', hst⟩ := h.executing v j hv
          refine ⟨hkept j hj, row', mem_setStatus_of_ne hrow' fun heq => ?_, hid', hst⟩
          exact hnone v (by rw [← heq, hid']; exact hv)
      alone := by
        intro u v j hu hv
        rcases hcases u j hu with ⟨rfl, rfl⟩ | ⟨-, hu'⟩
        · rcases hcases v _ hv with ⟨rfl, -⟩ | ⟨-, hv'⟩
          · rfl
          · exact absurd hv' (hnone v)
        · rcases hcases v j hv with ⟨rfl, rfl⟩ | ⟨-, hv'⟩
          · exact absurd hu' (hnone u)
          · exact h.alone u v j hu' hv'
      apart := by
        intro u v row₁ hrow₁ row₂ hrow₂ t hu hv ht₁ ht₂
        obtain ⟨old₁, hold₁, hid₁, hth₁, -⟩ := of_mem_setStatus hrow₁
        obtain ⟨old₂, hold₂, hid₂, hth₂, -⟩ := of_mem_setStatus hrow₂
        rw [hid₁] at hu
        rw [hid₂] at hv
        rcases hcases u _ hu with ⟨rfl, heq₁⟩ | ⟨-, hu'⟩
        · rcases hcases v _ hv with ⟨rfl, -⟩ | ⟨-, hv'⟩
          · rfl
          · obtain rfl := hthread old₁ hold₁ heq₁
            exact absurd hv' ((hfree t (hth₁.symm.trans ht₁) old₂ hold₂ (hth₂.symm.trans ht₂)).2 v)
        · rcases hcases v _ hv with ⟨rfl, heq₂⟩ | ⟨-, hv'⟩
          · obtain rfl := hthread old₂ hold₂ heq₂
            exact absurd hu' ((hfree t (hth₂.symm.trans ht₂) old₁ hold₁ (hth₁.symm.trans ht₁)).2 u)
          · exact h.apart u v old₁ hold₁ old₂ hold₂ t hu' hv' (hth₁.symm.trans ht₁)
              (hth₂.symm.trans ht₂)
      rows := by
        intro d j hd
        obtain ⟨hlock, row', hrow', hid', hst, hreads⟩ := h.rows d j hd
        have hne : row'.runId ≠ row.runId := fun heq =>
          hunlocked d (by rw [← heq, hid']; exact hd)
        exact ⟨hlock, row', mem_setStatus_of_ne hrow' hne, hid', hst, hreads⟩
      threads := h.threads
      opposed := by
        intro d t hd row' hrow' ht
        obtain ⟨old, hold, hid', hth, ⟨heq, -⟩ | ⟨-, rfl⟩⟩ := of_mem_setStatus hrow'
        · obtain rfl := hthread old hold (hid'.symm.trans heq)
          exact absurd hd (hchecks d t (hth.symm.trans ht))
        · exact h.opposed d t hd _ hold ht
      asked := by
        intro d t ids hd v row' hrow' ht hv
        obtain ⟨old, hold, hid', hth, -⟩ := of_mem_setStatus hrow'
        rw [hid'] at hv ⊢
        rcases hcases v _ hv with ⟨-, heq⟩ | ⟨-, hv⟩
        · obtain rfl := hthread old hold heq
          exact absurd (Claim.checks_of_open hd) (hchecks d t (hth.symm.trans ht))
        · exact h.asked d t ids hd v old hold (hth.symm.trans ht) hv
      committing := fun d j thread hd => hkept j (h.committing d j thread hd)
      updating := by
        intro q j attempts rest hq
        have hne : j ≠ row.runId := by
          rintro rfl
          exact hid.2.1 q (congrArg Sweep.target? hq)
        refine ((increment_retryCounters _ _ _).trans (if_neg hne)).trans_le ?_
        exact h.updating q j attempts rest hq }

/-- A run is submitted, while no claim has its thread. -/
theorem insertRun (h : Sound m s) (hnew : s.runs.find? row.runId = none)
    (ht : row.threadId = some t) (hthread : (s.threads.find? t).isSome)
    (hlock : s.threadLocks t = none)
    (hrun : row.status = .running → s.otherRunning row.runId t = false) :
    Sound m { s with runs := s.runs.insert row } := by
  have hmem (row') : row' ∈ s.runs.insert row ↔ row' ∈ s.runs ∨ row' = row :=
    Table.mem_insert hnew
  have habsent : ∀ row' ∈ s.runs, row'.runId ≠ row.runId := Table.find?_eq_none.1 hnew
  have hserved : s.Unserved row.runId := by
    intro v hv
    obtain ⟨-, row', hrow', hid', -⟩ := h.executing v _ hv
    exact habsent row' hrow' hid'
  have hother (row') (hrow' : row' ∈ s.runs) (hr : row.status = .running)
      (ht' : row'.threadId = some t) : row'.status ≠ .running :=
    not_running_of_otherRunning (hrun hr) hrow' ht' (habsent row' hrow')
  exact
    { h with
      threaded := by
        intro row' hrow' t' ht'
        rcases (hmem row').1 hrow' with hold | rfl
        · exact h.threaded row' hold t' ht'
        · rwa [← Option.some.inj (ht.symm.trans ht')]
      running := by
        intro row₁ hrow₁ row₂ hrow₂ t' hr₁ hr₂ ht₁ ht₂
        rcases (hmem row₁).1 hrow₁ with hold₁ | rfl
        · rcases (hmem row₂).1 hrow₂ with hold₂ | rfl
          · exact h.running row₁ hold₁ row₂ hold₂ t' hr₁ hr₂ ht₁ ht₂
          · exact absurd hr₁ (hother row₁ hold₁ hr₂ (ht₁.trans (ht₂.symm.trans ht)))
        · rcases (hmem row₂).1 hrow₂ with hold₂ | rfl
          · exact absurd hr₂ (hother row₂ hold₂ hr₁ (ht₂.trans (ht₁.symm.trans ht)))
          · rfl
      fresh := fun j hj => h.fresh j fun row' hrow' => hj row' ((hmem row').2 (.inl hrow'))
      pending := by
        intro row' hrow' hp
        rcases (hmem row').1 hrow' with hold | rfl
        · exact h.pending row' hold hp
        · -- a run that was never stored has made no attempt
          rw [h.fresh _ habsent]
          exact Nat.lt_of_lt_of_le Nat.zero_lt_one (le_max_left 1 m)
      executing := by
        intro v j hv
        obtain ⟨hj, row', hrow', hid', hst⟩ := h.executing v j hv
        exact ⟨hj, row', (hmem row').2 (.inl hrow'), hid', hst⟩
      apart := by
        intro u v row₁ hrow₁ row₂ hrow₂ t' hu hv
        rcases (hmem row₁).1 hrow₁ with hold₁ | rfl
        · rcases (hmem row₂).1 hrow₂ with hold₂ | rfl
          · exact h.apart u v row₁ hold₁ row₂ hold₂ t' hu hv
          · exact absurd hv (hserved v)
        · exact absurd hu (hserved u)
      rows := by
        intro d j hd
        obtain ⟨hl, row', hrow', hrest⟩ := h.rows d j hd
        exact ⟨hl, row', (hmem row').2 (.inl hrow'), hrest⟩
      opposed := by
        intro d t' hd row' hrow' ht'
        rcases (hmem row').1 hrow' with hold | rfl
        · exact h.opposed d t' hd row' hold ht'
        · -- a claim that checks the thread holds its lock, and the lock is free
          have hd' := h.threads d t' (Claim.thread_of_checks hd)
          rw [← Option.some.inj (ht.symm.trans ht'), hlock] at hd'
          cases hd'
      asked := by
        intro d t' ids hd v row' hrow' ht' hv
        rcases (hmem row').1 hrow' with hold | rfl
        · exact h.asked d t' ids hd v row' hold ht' hv
        · exact absurd hv (hserved v) }

/-! ## The steps of a claim -/

/-- A claim ends or begins anew. -/
theorem finishClaim (h : Sound m s) {x : Claimer} {rowLocks : RunId → Option Nat}
    {threadLocks indexLocks : ThreadId → Option Nat} (hx : x.phase = .ended ∨ x.phase = .idle)
    (hrow : ∀ d ≠ c, ∀ id, s.rowLocks id = some d → rowLocks id = some d)
    (hthread : ∀ d ≠ c, ∀ t, s.threadLocks t = some d → threadLocks t = some d) :
    Sound m ({ s with rowLocks, threadLocks, indexLocks }.setClaimer c x) := by
  refine h.moveClaim hrow hthread ?_ ?_ ?_ ?_ ?_ ?_
  all_goals rcases hx with hx | hx <;> rw [hx] <;> intros <;> contradiction

theorem rest (h : Sound m s) {x : Claimer} (hx : x.phase = .ended ∨ x.phase = .idle) :
    Sound m (s.setClaimer c x) :=
  h.finishClaim hx (fun _ _ _ hd => hd) fun _ _ _ hd => hd

theorem giveUp (h : Sound m s) {x : Claimer} (hx : x.phase = .ended ∨ x.phase = .idle) :
    Sound m ((s.release c).setClaimer c x) :=
  h.finishClaim hx (fun _ hd _ hid => release_rowLocks hd hid)
    fun _ hd _ ht => release_threadLocks hd ht

variable {s' : State}

theorem beginNext (h : Sound m s) {limit : Nat} (heq : s.beginNext c limit = some s') :
    Sound m s' := by
  unfold State.beginNext at heq
  split at heq
  next =>
    obtain rfl := Option.some.inj heq
    exact h.rest (.inr rfl)
  next => cases heq

theorem select (h : Sound m s) {now : Time} {busy : List RunId}
    (heq : s.select c now busy = some s') : Sound m s' := by
  unfold State.select at heq
  split at heq
  next =>
    split at heq
    next =>
      split at heq
      next =>
        obtain rfl := Option.some.inj heq
        exact h.rest (.inl rfl)
      next row hcand =>
        obtain rfl := Option.some.inj heq
        obtain ⟨hrow, hstatus, hlock⟩ := candidate_spec hcand
        refine h.moveClaim (fun d _ id hid => ?_) (fun _ _ _ ht => ht) (fun id hid => ?_) nofun
          nofun nofun nofun nofun
        · have hne : id ≠ row.runId := by
            rintro rfl
            rw [hlock] at hid
            cases hid
          exact (Function.update_of_ne hne _ _).trans hid
        · obtain rfl := Option.some.inj hid
          exact ⟨Function.update_self _ _ _, row, hrow, rfl, hstatus, trivial⟩
    next =>
      obtain rfl := Option.some.inj heq
      exact h.rest (.inl rfl)
  next => cases heq

theorem lockThread (h : Sound m s) (heq : s.lockThread c = some s') : Sound m s' := by
  unfold State.lockThread at heq
  split at heq
  next id hphase =>
    obtain ⟨hlock, row, hrow, hid, hstatus, -⟩ := h.rows c id (by rw [hphase]; rfl)
    have hfind : s.runs.find? id = some row := Table.find?_eq_some.2 ⟨hrow, hid⟩
    rw [hfind] at heq
    dsimp only at heq
    cases hthread : row.threadId with
    | none =>
        rw [hthread] at heq
        obtain rfl := Option.some.inj heq
        refine h.moveClaim (fun _ _ _ hd => hd) (fun _ _ _ ht => ht) (fun j hj => ?_) nofun
          nofun nofun nofun nofun
        obtain rfl := Option.some.inj hj
        exact ⟨hlock, row, hrow, hid, hstatus, hthread⟩
    | some t =>
        rw [hthread] at heq
        -- the thread is stored, so its lock is waited for
        have hsome := h.threaded row hrow t hthread
        have hnot : (s.threads.find? t).isNone = false := Option.isNone_eq_false_iff.2 hsome
        simp only [hnot, Bool.false_eq_true, if_false] at heq
        obtain ⟨hfree, heq⟩ := Option.ite_none_right_eq_some.1 heq
        obtain rfl := Option.some.inj heq
        refine h.moveClaim (fun _ _ _ hd => hd) (fun d _ t' ht' => ?_) (fun j hj => ?_)
          (fun t' ht' => ?_) nofun nofun nofun nofun
        · have hne : t' ≠ t := by
            rintro rfl
            rw [hfree] at ht'
            cases ht'
          exact (Function.update_of_ne hne _ _).trans ht'
        · obtain rfl := Option.some.inj hj
          exact ⟨hlock, row, hrow, hid, hstatus, hthread⟩
        · obtain rfl := Option.some.inj ht'
          exact Function.update_self _ _ _
  next => cases heq

/-- A run of the claimed thread that is running or executed is another run. -/
theorem claimed_ne (h : Sound m s) (hc : (s.claimers c).phase.run? = some id)
    (hrow : row ∈ s.runs) (hst : row.status = .running ∨ s.workers w = .executing row.runId) :
    row.runId ≠ id := by
  intro heq
  rcases hst with hst | hw
  · obtain ⟨-, row', hrow', hid', hpending, -⟩ := h.rows c id hc
    obtain rfl : row = row' := Table.eq_of_mem_of_key_eq hrow hrow' (heq.trans hid'.symm)
    exact absurd (hpending.symm.trans hst) (by decide)
  · exact h.unlocked_of_executing hw (by rw [heq]; exact hc)

theorem checkActive (h : Sound m s) (heq : s.checkActive c = some s') : Sound m s' := by
  unfold State.checkActive at heq
  split at heq
  next id t hphase =>
    have hrun : (s.claimers c).phase.run? = some id := by rw [hphase]; rfl
    split at heq
    next =>
      obtain rfl := Option.some.inj heq
      exact h.giveUp (.inr rfl)
    next hother =>
      obtain rfl := Option.some.inj heq
      refine h.goOn (by rw [hphase]; rfl) (by rw [hphase]; rfl) (fun row hreads => ?_)
        (fun t' ht' row' hrow' hon hr => ?_) nofun nofun nofun
      · rw [hphase] at hreads
        exact hreads
      · obtain rfl := Option.some.inj ht'
        have hne := h.claimed_ne (w := 0) hrun hrow' (.inl hr)
        exact not_running_of_otherRunning (Bool.eq_false_of_not_eq_true hother) hrow' hon hne hr
  next => cases heq

theorem listSiblings (h : Sound m s) (heq : s.listSiblings c = some s') : Sound m s' := by
  unfold State.listSiblings at heq
  split at heq
  next id t hphase =>
    have hrun : (s.claimers c).phase.run? = some id := by rw [hphase]; rfl
    have hchecks : (s.claimers c).phase.checks? = some t := by rw [hphase]; rfl
    obtain rfl := Option.some.inj heq
    refine h.goOn (by rw [hphase]; rfl) (by rw [hphase]; rfl) (fun row hreads => ?_)
      (fun t' ht' => ?_) (fun t' ids ht' w row' hrow' hon hw => ?_) nofun nofun
    · rw [hphase] at hreads
      exact hreads
    · obtain rfl := Option.some.inj ht'
      exact h.opposed c _ hchecks
    · obtain ⟨rfl, rfl⟩ := Prod.mk.inj (Option.some.inj ht')
      obtain ⟨-, row₂, hrow₂, hid₂, hst⟩ := h.executing w _ hw
      obtain rfl : row' = row₂ := Table.eq_of_mem_of_key_eq hrow' hrow₂ hid₂.symm
      exact mem_siblings hrow' hon (h.claimed_ne hrun hrow' (.inr hw)) hst
  next => cases heq

theorem askSibling (h : Sound m s) {reachable : Bool} (heq : s.askSibling c reachable = some s') :
    Sound m s' := by
  unfold State.askSibling at heq
  split at heq
  next id t sid rest hphase =>
    have hchecks : (s.claimers c).phase.checks? = some t := by rw [hphase]; rfl
    have hopen : (s.claimers c).phase.open? = some (t, sid :: rest) := by rw [hphase]; rfl
    split at heq
    next hbeat =>
      obtain rfl := Option.some.inj heq
      refine h.goOn (by rw [hphase]; rfl) (by rw [hphase]; rfl) (fun row hreads => ?_)
        (fun t' ht' => ?_) (fun t' ids ht' w row' hrow' hon hw => ?_) nofun nofun
      · rw [hphase] at hreads
        exact hreads
      · obtain rfl := Option.some.inj ht'
        exact h.opposed c _ hchecks
      · obtain ⟨rfl, rfl⟩ := Prod.mk.inj (Option.some.inj ht')
        rcases List.mem_cons.1 (h.asked c _ _ hopen w row' hrow' hon hw) with heq | hmem
        · -- A worker would have kept the heartbeat of this sibling.
          have htrue := (h.executing w _ hw).1.1
          rw [heq, hasRunHeartbeat_eq_false hbeat] at htrue
          cases htrue
        · exact hmem
    next =>
      obtain rfl := Option.some.inj heq
      exact h.giveUp (.inr rfl)
  next => cases heq

/-- The claim is written: the heartbeat is set, and the phase says what the claim has seen. -/
theorem writeClaim (h : Sound m s) {thread : Option ThreadId} {indexLocks : ThreadId → Option Nat}
    (hphase : (s.claimers c).phase = .asking id thread []) (hsafe : s.Unthreatened id) :
    Sound m (({ s with indexLocks }.setRunHeartbeat id).goto c (.committing id thread)) := by
  have hbeat : Sound m (s.setRunHeartbeat id) := h.setRunHeartbeat
  have hasking : ((s.setRunHeartbeat id).claimers c).phase = .asking id thread [] := hphase
  refine hbeat.goOn (by rw [hasking]; rfl) (by rw [hasking]; rfl) (fun row hreads => ?_)
    (fun t ht => ?_) (fun t ids ht => ?_) (fun j thread' hj => ?_) nofun
  · rw [hasking] at hreads
    exact hreads
  · exact h.opposed c t (by rw [hphase]; exact ht)
  · cases thread with
    | none => cases ht
    | some t' => exact h.asked c t ids (by rw [hphase]; exact ht)
  · obtain ⟨rfl, -⟩ := Claim.committing.inj hj
    exact ⟨(setRunHeartbeat_heartbeats _ _ _).trans (if_pos rfl), hsafe⟩

/-- The transaction of a claim fails, whose heartbeat is still to be cleared. -/
theorem failClaim (h : Sound m s) {integrity : Bool} (hrun : (s.claimers c).phase.run? = some id) :
    Sound m ((s.release c).goto c (.clearing id integrity)) := by
  refine h.moveClaim (fun _ hd _ hid => release_rowLocks hd hid)
    (fun _ hd _ ht => release_threadLocks hd ht) nofun nofun nofun nofun nofun
    fun j integrity' hj => ?_
  obtain ⟨rfl, -⟩ := Claim.clearing.inj hj
  exact hrun

theorem write (h : Sound m s) (hsafe : s.Safe m (.claim c .write)) (heq : s.write c = some s') :
    Sound m s' := by
  unfold State.write at heq
  split at heq
  next id hphase =>
    obtain rfl := Option.some.inj heq
    exact h.writeClaim hphase (hsafe id none hphase)
  next id t hphase =>
    split at heq
    next =>
      obtain rfl := Option.some.inj heq
      have hbeat : Sound m (s.setRunHeartbeat id) := h.setRunHeartbeat
      have hrun : (s.claimers c).phase.run? = some id := by rw [hphase]; rfl
      exact hbeat.failClaim hrun
    next =>
      obtain ⟨-, heq⟩ := Option.ite_none_right_eq_some.1 heq
      obtain rfl := Option.some.inj heq
      exact h.writeClaim hphase (hsafe id (some t) hphase)
  next => cases heq

theorem commit (h : Sound m s) {now : Time} (heq : s.commit c now w = some s') : Sound m s' := by
  unfold State.commit at heq
  split at heq
  next id thread hphase hw =>
    have hrun : (s.claimers c).phase.run? = some id := by rw [hphase]; rfl
    obtain ⟨-, row, hrow, rfl, hstatus, hreads⟩ := h.rows c id hrun
    rw [hphase] at hreads
    obtain rfl : row.threadId = thread := hreads
    -- The claim ends first; nobody else has its run or its thread.
    have hended : Sound m ((s.release c).setClaimer c
        { s.claimers c with
          phase := .idle
          claimed := (s.claimers c).claimed + 1 }) := h.giveUp (.inr rfl)
    have hstart := hended.start (w := w) now hrow hstatus ?_ ?_ ?_ ?_
    · cases hthread : row.threadId with
      | none =>
          rw [hthread] at heq
          obtain rfl := Option.some.inj heq
          exact hstart
      | some t =>
          rw [hthread] at heq
          obtain rfl := Option.some.inj heq
          exact hstart.updateThread _ _
    · obtain ⟨hbeat, hsweeps, hworkers, hclaims⟩ := h.committing c _ _ hphase
      refine ⟨hbeat, hsweeps, hworkers, fun d => ?_⟩
      rw [setClaimer_claimers]
      split
      · exact nofun
      · exact hclaims d
    · intro d hd
      rw [setClaimer_claimers] at hd
      split at hd
      · cases hd
      next hdc => exact hdc (h.claim_unique hd hrun)
    · intro d t ht hd
      rw [setClaimer_claimers] at hd
      split at hd
      · cases hd
      next hdc =>
        refine hdc (h.thread_unique (Claim.thread_of_checks hd) ?_)
        rw [hphase]
        exact ht
    · intro t ht row' hrow' ht'
      refine ⟨h.opposed c t (by rw [hphase]; exact ht) row' hrow' ht', fun v hv => ?_⟩
      have hopen : (s.claimers c).phase.open? = some (t, []) := by
        rw [hphase, ht]
        rfl
      -- every sibling was asked, and a worker would have answered for its run
      exact absurd (h.asked c t [] hopen v row' hrow' ht' hv) List.not_mem_nil
  next => cases heq

theorem commitFails (h : Sound m s) {integrity : Bool}
    (heq : s.commitFails c integrity = some s') : Sound m s' := by
  unfold State.commitFails at heq
  split at heq
  next id thread hphase =>
    obtain rfl := Option.some.inj heq
    exact h.failClaim (by rw [hphase]; rfl)
  next => cases heq

theorem clearClaim (h : Sound m s) (heq : s.clearClaim c = some s') : Sound m s' := by
  unfold State.clearClaim at heq
  split at heq
  next id integrity hphase =>
    obtain rfl := Option.some.inj heq
    have hid : ¬ s.Unthreatened id := fun hsafe => hsafe.2.2 c integrity hphase
    have hclear := h.clearRunHeartbeat (h.unserved hid) (h.uncommitted hid)
    refine hclear.rest ?_
    cases integrity with
    | true => exact .inr rfl
    | false => exact .inl rfl
  next => cases heq

/-- Every step of a claim keeps the invariant. -/
theorem claim (h : Sound m s) {x : ClaimStep} (hsafe : s.Safe m (.claim c x))
    (heq : s.claim c x = some s') : Sound m s' := by
  cases x with
  | beginNext limit => exact h.beginNext heq
  | select now busy => exact h.select heq
  | lockThread => exact h.lockThread heq
  | checkActive => exact h.checkActive heq
  | listSiblings => exact h.listSiblings heq
  | askSibling reachable => exact h.askSibling heq
  | write => exact h.write hsafe heq
  | commit now w => exact h.commit heq
  | commitFails integrity => exact h.commitFails heq
  | clearClaim => exact h.clearClaim heq
  | claimFails =>
      obtain rfl := Option.some.inj heq
      exact h.giveUp (.inl rfl)

/-! ## The steps of a sweep -/

theorem scan (h : Sound m s) (heq : s.scan p = some s') : Sound m s' := by
  unfold State.scan at heq
  split at heq
  next =>
    obtain rfl := Option.some.inj heq
    exact h.setSweep nofun nofun
  next => cases heq

theorem look (h : Sound m s) {reachable : Bool} (heq : s.look p reachable = some s') :
    Sound m s' := by
  unfold State.look at heq
  split at heq
  next id rest hsweep =>
    split at heq
    next hbeat =>
      obtain rfl := Option.some.inj heq
      have hfalse := hasRunHeartbeat_eq_false hbeat
      refine h.setSweep (fun j hj => ?_) nofun
      obtain rfl := Option.some.inj hj
      constructor
      · intro w hw
        have htrue := (h.executing w _ hw).1.1
        rw [hfalse] at htrue
        cases htrue
      · intro c thread hc
        have htrue := (h.committing c _ thread hc).1
        rw [hfalse] at htrue
        cases htrue
    next =>
      obtain rfl := Option.some.inj heq
      exact h.setSweep nofun nofun
  next => cases heq

/-- The run that a sweep takes back has no worker and no written claim. -/
theorem target (h : Sound m s) (hp : (s.sweepers p).target? = some id) :
    s.Unserved id ∧ s.Uncommitted id := by
  have hid : ¬ s.Unthreatened id := fun hsafe => hsafe.1 p hp
  exact ⟨h.unserved hid, h.uncommitted hid⟩

theorem countAttempts (h : Sound m s) (heq : s.countAttempts p = some s') : Sound m s' := by
  unfold State.countAttempts at heq
  split at heq
  next id rest hsweep =>
    obtain rfl := Option.some.inj heq
    refine h.setSweep (fun j hj => ?_) fun j attempts rest' hx => ?_
    · obtain rfl := Option.some.inj hj
      exact h.target (by rw [hsweep]; rfl)
    · obtain ⟨rfl, rfl, -⟩ := Sweep.updating.inj hx
      exact le_rfl
  next => cases heq

theorem markThreadErrorIfIdle (h : Sound m s) : Sound m (s.markThreadErrorIfIdle t) := by
  unfold State.markThreadErrorIfIdle
  split
  · exact h.updateThread _ _
  · exact h

/-- A row that no transaction has locked is not that of a claim. -/
theorem unlocked (h : Sound m s) (hlock : s.rowLocks id = none) (c : Nat) :
    (s.claimers c).phase.run? ≠ some id := by
  intro hc
  have hd := (h.rows c id hc).1
  rw [hlock] at hd
  cases hd

theorem sweepSingleRun (h : Sound m s) {now : Time} (heq : s.sweepSingleRun m p now = some s') :
    Sound m s' := by
  unfold State.sweepSingleRun at heq
  split at heq
  next id attempts rest hsweep =>
    have htarget := h.target (p := p) (show _ = some id by rw [hsweep]; rfl)
    have hcount := h.updating p id attempts rest hsweep
    obtain ⟨hlock, heq⟩ := Option.ite_none_right_eq_some.1 heq
    have hskip : Sound m (s.setSweep p (.looking rest)) := h.setSweep nofun nofun
    have hswept : Sound m (s.setStatus id (sweptStatus m attempts) now) := by
      refine h.setStatus (h.unlocked hlock) ?_ (.inl htarget.1) ?_
      · unfold sweptStatus
        split <;> exact nofun
      · intro hpending
        have hlt : ¬ m ≤ attempts := by
          intro hle
          rw [sweptStatus, if_pos hle] at hpending
          cases hpending
        omega
    have hclear (s₁ : State) (h₁ : Sound m s₁) (hw : s₁.workers = s.workers)
        (hc : s₁.claimers = s.claimers) : Sound m (s₁.setSweep p (.clearing id rest)) := by
      refine h₁.setSweep (fun j hj => ?_) nofun
      obtain rfl := Option.some.inj hj
      refine ⟨fun w => ?_, fun c thread => ?_⟩
      · rw [hw]
        exact htarget.1 w
      · rw [hc]
        exact htarget.2 c thread
    split at heq
    next row hfind =>
      split at heq
      next =>
        split at heq
        next =>
          obtain ⟨-, heq⟩ := Option.ite_none_right_eq_some.1 heq
          obtain rfl := Option.some.inj heq
          refine hclear _ hswept.markThreadErrorIfIdle ?_ ?_
          · unfold State.markThreadErrorIfIdle
            split <;> rfl
          · unfold State.markThreadErrorIfIdle
            split <;> rfl
        next =>
          obtain rfl := Option.some.inj heq
          exact hclear _ hswept rfl rfl
      next =>
        obtain rfl := Option.some.inj heq
        exact hskip
    next =>
      obtain rfl := Option.some.inj heq
      exact hskip
  next => cases heq

theorem clearSwept (h : Sound m s) (heq : s.clearSwept p = some s') : Sound m s' := by
  unfold State.clearSwept at heq
  split at heq
  next id rest hsweep =>
    obtain rfl := Option.some.inj heq
    have htarget := h.target (p := p) (show _ = some id by rw [hsweep]; rfl)
    exact (h.clearRunHeartbeat htarget.1 htarget.2).setSweep nofun nofun
  next => cases heq

theorem idleThread (h : Sound m s) : Sound m (s.idleThread t) := h.updateThread _ _

theorem idleThreads (ts : List ThreadId) (h : Sound m s) :
    Sound m (ts.foldl State.idleThread s) := by
  induction ts generalizing s with
  | nil => exact h
  | cons t ts ih => exact ih h.idleThread

theorem idleOrphanedBusyThreads (h : Sound m s) {reachable : Bool}
    (heq : s.idleOrphanedBusyThreads p reachable = some s') : Sound m s' := by
  unfold State.idleOrphanedBusyThreads at heq
  split at heq
  next hsweep =>
    obtain ⟨-, heq⟩ := Option.ite_none_right_eq_some.1 heq
    obtain rfl := Option.some.inj heq
    exact (h.idleThreads _).setSweep nofun nofun
  next => cases heq

/-- Every step of a sweep keeps the invariant. -/
theorem sweep (h : Sound m s) {x : SweepStep} (heq : s.sweep m p x = some s') : Sound m s' := by
  cases x with
  | scan => exact h.scan heq
  | look reachable => exact h.look heq
  | countAttempts => exact h.countAttempts heq
  | sweepSingleRun now => exact h.sweepSingleRun heq
  | clearSwept => exact h.clearSwept heq
  | idleOrphanedBusyThreads reachable => exact h.idleOrphanedBusyThreads heq
  | fails =>
      obtain rfl := Option.some.inj heq
      exact h.setSweep nofun nofun

/-! ## The steps of a worker -/

theorem refresh (h : Sound m s) (heq : s.refresh w = some s') : Sound m s' := by
  unfold State.refresh at heq
  split at heq
  next =>
    obtain rfl := Option.some.inj heq
    exact h.setRunHeartbeat
  next => cases heq

/-- The worker of a run has left it, and nobody executes it any more. -/
theorem setLeaving (h : Sound m s) (hw : s.workers w = .executing id) :
    Sound m (s.setWorker w (.leaving id)) ∧ (s.setWorker w (.leaving id)).Unserved id := by
  refine ⟨h.setWorker nofun fun j hj => ?_, fun v hv => ?_⟩
  · rw [← Worker.leaving.inj hj]
    exact hw
  · rw [setWorker_workers] at hv
    by_cases hvw : v = w
    · rw [if_pos hvw] at hv
      cases hv
    · rw [if_neg hvw] at hv
      exact hvw (h.alone v w id hv hw)

theorem settleThread (h : Sound m s) {base : ThreadStatus} {error : Option Dict} :
    Sound m (s.settleThread t base error) := h.updateThread _ _

theorem setJointStatus (h : Sound m s) {status : Option RunStatus} {base : ThreadStatus}
    {error : Option Dict} {now : Time}
    (heq : s.setJointStatus w status base error now = some s') : Sound m s' := by
  unfold State.setJointStatus at heq
  split at heq
  next id hw =>
    obtain ⟨hleft, hserved⟩ := h.setLeaving hw
    split at heq
    next =>
      split at heq
      next =>
        obtain ⟨⟨-, hlock, -⟩, heq⟩ := Option.ite_none_right_eq_some.1 heq
        cases status with
        | none =>
            obtain rfl := Option.some.inj heq
            exact (hleft.deleteRun (h.unlocked hlock) hserved).settleThread
        | some status =>
            obtain ⟨hterminal, heq⟩ := Option.ite_none_right_eq_some.1 heq
            obtain rfl := Option.some.inj heq
            refine (hleft.setStatus (h.unlocked hlock) ?_ (.inl hserved) ?_).settleThread
            · rintro rfl
              cases hterminal
            · rintro rfl
              cases hterminal
      next => cases heq
    next => cases heq
  next => cases heq

theorem giveBack (h : Sound m s) {now : Time} (hsafe : s.Safe m (.work w (.giveBack now)))
    (heq : s.giveBack w now = some s') : Sound m s' := by
  unfold State.giveBack at heq
  split at heq
  next id hw =>
    obtain ⟨hleft, hserved⟩ := h.setLeaving hw
    obtain ⟨hlock, heq⟩ := Option.ite_none_right_eq_some.1 heq
    obtain rfl := Option.some.inj heq
    refine hleft.setStatus (h.unlocked hlock) nofun (.inl hserved) fun _ => ?_
    exact Nat.lt_of_lt_of_le (hsafe id hw) (le_max_right 1 m)
  next => cases heq

theorem abandon (h : Sound m s) (heq : s.abandon w = some s') : Sound m s' := by
  unfold State.abandon at heq
  split at heq
  next id hw =>
    obtain rfl := Option.some.inj heq
    exact (h.setLeaving hw).1
  next => cases heq

theorem leave (h : Sound m s) (heq : s.leave w = some s') : Sound m s' := by
  unfold State.leave at heq
  split at heq
  next id hw =>
    obtain rfl := Option.some.inj heq
    have hid : ¬ s.Unthreatened id := fun hsafe => hsafe.2.1 w hw
    exact (h.clearRunHeartbeat (h.unserved hid) (h.uncommitted hid)).setWorker nofun nofun
  next => cases heq

/-- Every step of a worker keeps the invariant. -/
theorem work (h : Sound m s) {x : WorkerStep} (hsafe : s.Safe m (.work w x))
    (heq : s.work w x = some s') : Sound m s' := by
  cases x with
  | refresh => exact h.refresh heq
  | setJointStatus status base error now => exact h.setJointStatus heq
  | giveBack now => exact h.giveBack hsafe heq
  | abandon => exact h.abandon heq
  | leave => exact h.leave heq
  | crash =>
      obtain rfl := Option.some.inj heq
      exact h.setWorker nofun nofun

/-! ## The steps of the API -/

theorem put (h : Sound m s) {createThread preventInsertIfInflight : Bool}
    (heq : s.put row t createThread preventInsertIfInflight = some s') : Sound m s' := by
  unfold State.put at heq
  obtain ⟨⟨hlock, hnew, hthread⟩, heq⟩ := Option.ite_none_right_eq_some.1 heq
  rw [Option.isNone_iff_eq_none] at hnew
  by_cases hmay : ((s.threads.find? t).isSome || createThread) = true
  · simp only [hmay, if_true] at heq
    -- The thread is there from now on.
    have hready : ∃ threads : Table ThreadRow, (if (s.threads.find? t).isSome = true then
        s.updateThread t (fun thread => { thread with status := .busy }) fun _ => rfl
        else { s with threads := s.threads.insert { threadId := t, status := .busy } }) =
          { s with threads } ∧ (threads.find? t).isSome ∧
        ∀ t', (s.threads.find? t').isSome → (threads.find? t').isSome := by
      split
      next hfound =>
        refine ⟨_, rfl, ?_, fun t' ht' => ?_⟩
        · exact (Table.isSome_find?_modify _).trans hfound
        · exact (Table.isSome_find?_modify _).trans ht'
      next hfound =>
        have hnone : s.threads.find? t = none := by simpa using hfound
        refine ⟨_, rfl, ?_, fun t' ht' => ?_⟩
        · rw [Table.find?_insert hnone]
          exact Option.isSome_iff_exists.2 ⟨_, if_pos rfl⟩
        · rw [Table.find?_insert hnone]
          split
          · rfl
          · exact ht'
    obtain ⟨threads, hthreads, hsome, hkeeps⟩ := hready
    rw [hthreads] at heq
    have hsound : Sound m { s with threads } := h.setThreads fun _ _ t' _ ht' => hkeeps t' ht'
    split at heq
    next =>
      obtain rfl := Option.some.inj heq
      exact hsound
    next =>
      split at heq
      next => cases heq
      next hrun =>
        obtain rfl := Option.some.inj heq
        refine hsound.insertRun hnew hthread hsome hlock fun hr => ?_
        rw [hr] at hrun
        show s.otherRunning row.runId t = false
        simpa using hrun
  · simp only [hmay] at heq
    obtain rfl := Option.some.inj heq
    exact h

theorem createThread (h : Sound m s) : Sound m (s.createThread t) := by
  unfold State.createThread
  split
  · exact h
  next hfound =>
    have hnone : s.threads.find? t = none := by simpa using hfound
    refine h.setThreads fun _ _ t' _ ht' => ?_
    rw [Table.find?_insert hnone]
    split
    · rfl
    · exact ht'

theorem cancelSingleRun (h : Sound m s) {x : Cancelled} (action : CancelAction) (now : Time)
    (hlock : s.rowLocks x.run = none)
    (hserved : action = .rollback → x.pending = true → x.queues = false → s.Unserved x.run) :
    Sound m (s.cancelSingleRun x action now).1 ∧
      (s.cancelSingleRun x action now).1.rowLocks = s.rowLocks ∧
      (s.cancelSingleRun x action now).1.workers = s.workers := by
  unfold State.cancelSingleRun
  split
  next row hfind =>
    split
    next =>
      split
      next hdelete =>
        exact ⟨h.deleteRun (h.unlocked hlock) (hserved hdelete.1 hdelete.2.1 hdelete.2.2), rfl,
          rfl⟩
      next => exact ⟨h.setStatus (h.unlocked hlock) nofun (.inr rfl) nofun, rfl, rfl⟩
    next => exact ⟨h, rfl, rfl⟩
  next => exact ⟨h, rfl, rfl⟩

theorem cancelCandidatesLoop {action : CancelAction} {now : Time} (xs : List Cancelled)
    (affected : List ThreadId) (h : Sound m s) (hlocks : ∀ x ∈ xs, s.rowLocks x.run = none)
    (hserved : action = .rollback → ∀ x ∈ xs, x.pending = true → x.queues = false →
      s.Unserved x.run) :
    Sound m (s.cancelCandidatesLoop action now xs affected).1 := by
  induction xs generalizing s affected with
  | nil => exact h
  | cons x xs ih =>
      obtain ⟨hsound, hsame, hworkers⟩ := h.cancelSingleRun action now
        (hlocks x List.mem_cons_self) fun haction => hserved haction x List.mem_cons_self
      have hrest : ∀ y ∈ xs, (s.cancelSingleRun x action now).1.rowLocks y.run = none := by
        intro y hy
        rw [hsame]
        exact hlocks y (List.mem_cons_of_mem x hy)
      have hlater : action = .rollback → ∀ y ∈ xs, y.pending = true → y.queues = false →
          (s.cancelSingleRun x action now).1.Unserved y.run := by
        intro haction y hy hpending hqueues w
        rw [hworkers]
        exact hserved haction y (List.mem_cons_of_mem x hy) hpending hqueues w
      unfold State.cancelCandidatesLoop
      split
      next heq =>
        rw [heq] at hsound hrest hlater
        exact ih _ hsound hrest hlater
      next heq =>
        rw [heq] at hsound hrest hlater
        exact ih _ hsound hrest hlater

theorem idleAffectedThreads (ts : List ThreadId) (h : Sound m s) :
    Sound m (s.idleAffectedThreads ts) := by
  unfold State.idleAffectedThreads
  induction ts generalizing s with
  | nil => exact h
  | cons t ts ih =>
      rw [List.foldl_cons]
      split
      · exact ih h.idleThread
      · exact ih h

theorem cancel (h : Sound m s) {xs : List Cancelled} {action : CancelAction} {now : Time}
    (hsafe : s.Safe m (.api (.cancel xs action now))) (heq : s.cancel xs action now = some s') :
    Sound m s' := by
  unfold State.cancel at heq
  obtain ⟨hlocks, heq⟩ := Option.ite_none_right_eq_some.1 heq
  obtain ⟨-, heq⟩ := Option.ite_none_right_eq_some.1 heq
  obtain rfl := Option.some.inj heq
  refine idleAffectedThreads _ (cancelCandidatesLoop xs [] h (fun x hx => ?_) hsafe)
  exact of_decide_eq_true (List.all_eq_true.1 hlocks x hx)

theorem delete (h : Sound m s) (hsafe : s.Safe m (.api (.delete id)))
    (heq : s.delete id = some s') : Sound m s' := by
  unfold State.delete at heq
  obtain ⟨⟨-, hlock⟩, heq⟩ := Option.ite_none_right_eq_some.1 heq
  obtain rfl := Option.some.inj heq
  exact h.deleteRun (h.unlocked hlock) hsafe

/-- Unlocked runs without a worker are deleted, one after the other. -/
theorem deleteRuns (ids : List RunId) (h : Sound m s) (hlocks : ∀ id ∈ ids, s.rowLocks id = none)
    (hserved : ∀ id ∈ ids, s.Unserved id) : Sound m (ids.foldl State.deleteRun s) := by
  induction ids generalizing s with
  | nil => exact h
  | cons id ids ih =>
      have hone := h.deleteRun (h.unlocked (hlocks id List.mem_cons_self))
        (hserved id List.mem_cons_self)
      exact ih hone (fun j hj => hlocks j (List.mem_cons_of_mem id hj))
        fun j hj => hserved j (List.mem_cons_of_mem id hj)

end Sound

theorem mem_deleteRuns {s : State} {row : RunRow} (ids : List RunId) :
    row ∈ (ids.foldl deleteRun s).runs ↔ row ∈ s.runs ∧ row.runId ∉ ids := by
  induction ids generalizing s with
  | nil => simp
  | cons id ids ih =>
      rw [List.foldl_cons, ih, mem_deleteRun, List.mem_cons, not_or, and_assoc]

theorem threads_deleteRuns {s : State} (ids : List RunId) :
    (ids.foldl deleteRun s).threads = s.threads := by
  induction ids generalizing s with
  | nil => rfl
  | cons id ids ih =>
      rw [List.foldl_cons, ih]
      rfl

namespace Sound

variable {m : Nat} {s s' : State} {id : RunId} {t : ThreadId}

theorem deleteThread (h : Sound m s) {seen : List RunId}
    (hsafe : s.Safe m (.api (.deleteThread t seen))) (heq : s.deleteThread t seen = some s') :
    Sound m s' := by
  unfold State.deleteThread at heq
  obtain ⟨⟨-, -, hseen⟩, heq⟩ := Option.ite_none_right_eq_some.1 heq
  obtain rfl := Option.some.inj heq
  have hconds (id) (hid : id ∈ seen) : s.rowLocks id = none ∧ s.Unserved id := by
    have hboth := List.all_eq_true.1 hseen id hid
    rw [Bool.and_eq_true] at hboth
    obtain ⟨row, hfind, hthread⟩ := (Option.any_eq_true _ _).1 hboth.2
    obtain ⟨hrow, hkey⟩ := Table.find?_eq_some.1 hfind
    refine ⟨of_decide_eq_true hboth.1, ?_⟩
    rw [← show row.runId = id from hkey]
    exact (hsafe row hrow (of_decide_eq_true hthread)).2
  have hruns := h.deleteRuns seen (fun id hid => (hconds id hid).1) fun id hid => (hconds id hid).2
  refine hruns.setThreads fun row hrow t' ht' hsome => ?_
  obtain ⟨hold, hnot⟩ := (mem_deleteRuns seen).1 hrow
  have hne : t' ≠ t := by
    rintro rfl
    exact hnot (hsafe row hold ht').1
  rw [Table.find?_erase, if_neg hne, ← threads_deleteRuns seen]
  exact hsome

/-- Every step of the API keeps the invariant. -/
theorem api (h : Sound m s) {x : ApiStep} (hsafe : s.Safe m (.api x))
    (heq : s.api x = some s') : Sound m s' := by
  cases x with
  | put row t createThread preventInsertIfInflight => exact h.put heq
  | createThread t =>
      obtain rfl := Option.some.inj heq
      exact h.createThread
  | cancel xs action now => exact h.cancel hsafe heq
  | delete id => exact h.delete hsafe heq
  | deleteThread t seen => exact h.deleteThread hsafe heq
  | expire id =>
      obtain rfl := Option.some.inj heq
      exact h.clearRunHeartbeat hsafe.1 hsafe.2

theorem init {threads : Table ThreadRow} : Sound m { runs := .empty, threads } where
  threaded _ hrow := absurd hrow Table.not_mem_empty
  running _ hrow := absurd hrow Table.not_mem_empty
  counted _ := Nat.zero_le _
  fresh _ _ := rfl
  pending _ hrow := absurd hrow Table.not_mem_empty
  executing := nofun
  alone := nofun
  apart _ _ _ hrow := absurd hrow Table.not_mem_empty
  rows := nofun
  threads := nofun
  opposed _ _ _ _ hrow := absurd hrow Table.not_mem_empty
  asked _ _ _ _ _ _ hrow := absurd hrow Table.not_mem_empty
  committing := nofun
  updating := nofun

end Sound

theorem sound_inductive (m : Nat) : ((queue m).restrict (Safe m)).Inductive (Sound m) where
  init := by
    rintro s ⟨threads, rfl⟩
    exact .init
  step s l s' hs hstep := by
    obtain ⟨heq, hsafe⟩ := hstep
    cases l with
    | claim c x => exact hs.claim hsafe heq
    | sweep p x => exact hs.sweep heq
    | work w x => exact hs.work hsafe heq
    | api x => exact hs.api hsafe heq

/-- At most one worker executes a run, and at most one the runs of a thread. The run it
executes is running or interrupted and has its heartbeat. No run has been started more often
than there are attempts, of which there is one at least. -/
structure OneWorker (maxRetries : Nat) (s : State) : Prop where
  run : ∀ v w id, s.workers v = .executing id → s.workers w = .executing id → v = w
  thread : ∀ v w row row' t, s.runs.find? row.runId = some row →
    s.runs.find? row'.runId = some row' → row.threadId = some t → row'.threadId = some t →
    s.workers v = .executing row.runId → s.workers w = .executing row'.runId → v = w
  status : ∀ w id, s.workers w = .executing id → ∃ row, s.runs.find? id = some row ∧
    (row.status = .running ∨ row.status = .interrupted)
  heartbeat : ∀ w id, s.workers w = .executing id → s.heartbeats id = true
  attempts : ∀ id, s.retryCounters id ≤ max 1 maxRetries

theorem Sound.oneWorker {m : Nat} {s : State} (h : Sound m s) : s.OneWorker m where
  run := h.alone
  thread v w row row' t hrow hrow' ht ht' hv hw :=
    h.apart v w row (Table.mem_of_find? hrow) row' (Table.mem_of_find? hrow') t hv hw ht ht'
  status w id hw := by
    obtain ⟨-, row, hrow, hid, hst⟩ := h.executing w id hw
    exact ⟨row, Table.find?_eq_some.2 ⟨hrow, hid⟩, hst⟩
  heartbeat w id hw := (h.executing w id hw).1.1
  attempts := h.counted

end State

/-- In every safe run of the queue, in every state. -/
theorem one_worker (maxRetries : Nat) :
    ((queue maxRetries).restrict (State.Safe maxRetries)).Invariant (State.OneWorker maxRetries) :=
  fun s hs => ((State.sound_inductive maxRetries).invariant s hs).oneWorker

/-! ## An unsafe run -/

def pendingRun : RunRow :=
  { runId := 7, threadId := some 1, assistantId := 0, createdAt := 0, updatedAt := 0 }

/-- A claim of the only pending run, up to its worker. -/
def claimAlone (w : Nat) : List Step :=
  [.select 0 [], .lockThread, .checkActive, .listSiblings, .write, .commit 0 w].map (.claim 0)

/-- A sweep that has seen no heartbeat takes the run back after it was claimed again. -/
theorem two_workers : ∃ s, (queue 3).Reachable s ∧
    s.workers 1 = .executing 7 ∧ s.workers 2 = .executing 7 := by
  have hplay : (TSys.play (fun (s : State) l => s.next 3 l) { runs := .empty, threads := .empty }
      ([.api (.put pendingRun 1 true false), .claim 0 (.beginNext 3)] ++ claimAlone 0 ++
        [.work 0 .crash, .api (.expire 7), .sweep 0 .scan, .sweep 0 (.look true),
          .sweep 1 .scan, .sweep 1 (.look true), .sweep 1 .countAttempts,
          .sweep 1 (.sweepSingleRun 0), .sweep 1 .clearSwept] ++ claimAlone 1 ++
        [.sweep 0 .countAttempts, .sweep 0 (.sweepSingleRun 0), .sweep 0 .clearSwept] ++
        claimAlone 2)).any (fun s => decide (s.workers 1 = .executing 7) &&
          decide (s.workers 2 = .executing 7)) = true := by
    decide +kernel
  obtain ⟨s, hreach, hs⟩ := TSys.play_reachable (T := queue 3) (fun s l s' h => ⟨l, h⟩)
    ⟨.empty, rfl⟩ hplay
  rw [Bool.and_eq_true, decide_eq_true_eq, decide_eq_true_eq] at hs
  exact ⟨s, hreach, hs⟩

end GraphHarbor.Scheduler
