import Mathlib.Logic.Relation
import GraphHarbor.Effects

/-!
# The lifecycle of runs

What a transaction that runs whole can do to the rows of `runs`, said once: it makes a
sequence of `Move`s, each of which changes one run in one of a few ways, and a claim in
addition one `Start`. The invariants of the service are proved of these moves.
-/

namespace GraphHarbor

open Kit Txn

/-! ## Moves of one run -/

/-- The columns that never change. -/
structure RunRow.SameIdentity (r r' : RunRow) : Prop where
  runId : r'.runId = r.runId
  threadId : r'.threadId = r.threadId
  assistantId : r'.assistantId = r.assistantId
  idempotencyKey : r'.idempotencyKey = r.idempotencyKey
  createdAt : r'.createdAt = r.createdAt
  kwargs : ∀ key, key ≠ "__graphharbor_resume_after_drain" →
    r'.kwargs.get? key = r.kwargs.get? key

theorem RunRow.SameIdentity.refl (r : RunRow) : r.SameIdentity r :=
  ⟨rfl, rfl, rfl, rfl, rfl, fun _ _ => rfl⟩

theorem RunRow.SameIdentity.trans {a b c : RunRow} (h : a.SameIdentity b)
    (h' : b.SameIdentity c) : a.SameIdentity c :=
  ⟨h'.runId.trans h.runId, h'.threadId.trans h.threadId, h'.assistantId.trans h.assistantId,
    h'.idempotencyKey.trans h.idempotencyKey, h'.createdAt.trans h.createdAt,
    fun key hkey => (h'.kwargs key hkey).trans (h.kwargs key hkey)⟩

/-- Only bookkeeping columns changed. -/
structure RunRow.Quiet (r r' : RunRow) : Prop extends RunRow.SameIdentity r r' where
  status : r'.status = r.status
  reason : r'.reason = r.reason
  retryCount : r'.retryCount = r.retryCount
  maxAttempts : r'.maxAttempts = r.maxAttempts
  nextAttemptAt : r'.nextAttemptAt = r.nextAttemptAt
  leaseOwner : r'.leaseOwner = r.leaseOwner
  leaseExpiresAt : r'.leaseExpiresAt = r.leaseExpiresAt

theorem RunRow.Quiet.refl (r : RunRow) : r.Quiet r :=
  ⟨.refl r, rfl, rfl, rfl, rfl, rfl, rfl, rfl⟩

theorem RunRow.Quiet.trans {a b c : RunRow} (h : a.Quiet b) (h' : b.Quiet c) : a.Quiet c :=
  ⟨h.toSameIdentity.trans h'.toSameIdentity, h'.status.trans h.status,
    h'.reason.trans h.reason, h'.retryCount.trans h.retryCount,
    h'.maxAttempts.trans h.maxAttempts, h'.nextAttemptAt.trans h.nextAttemptAt,
    h'.leaseOwner.trans h.leaseOwner, h'.leaseExpiresAt.trans h.leaseExpiresAt⟩

/-- The attempt counters did not change. -/
structure RunRow.SameAttempts (r r' : RunRow) : Prop extends RunRow.SameIdentity r r' where
  retryCount : r'.retryCount = r.retryCount
  maxAttempts : r'.maxAttempts = r.maxAttempts

/-- What can happen to one run, apart from a claim. `S` are the runs whose execution the
transaction may declare stopped. -/
inductive RunMove (now : Time) (S : RunRow → Prop) (r r' : RunRow) : Prop
  /-- Bookkeeping. -/
  | quiet (h : r.Quiet r')
  /-- `renew`. -/
  | renewed (h : r.SameAttempts r') (running : r.status = .running) (status : r'.status = .running)
      (reason : r'.reason = r.reason) (owned : r.leaseOwner.isSome)
      (owner : r'.leaseOwner = r.leaseOwner)
  /-- An attempt ends or is put back, by its owner or by the reaper. -/
  | released (h : r.SameAttempts r') (live : r.status.isTerminal = false)
      (held : r.leaseOwner.isSome ∨ r'.status ≠ .running) (allowed : r'.status ∈ r.status.allowed)
      (owner : r'.leaseOwner = none) (expires : r'.leaseExpiresAt = none)
  /-- `_cancel_row` interrupts the run; a running run keeps its lease. -/
  | interrupted (h : r.SameAttempts r') (live : r.status.isTerminal = false)
      (status : r'.status = .interrupted) (reason : r'.reason = some .cancelRequested)
      (lease : r.status = .running ∧ r'.leaseOwner = r.leaseOwner ∧
          r'.leaseExpiresAt = r.leaseExpiresAt ∨
        r'.leaseOwner = none ∧ r'.leaseExpiresAt = none)
  /-- `_cancel_row` requests a rollback; the lease stays. -/
  | rollingBack (h : r.SameAttempts r') (owned : r.leaseOwner.isSome)
      (status : r'.status = .interrupted) (reason : r'.reason = some .rollback)
      (owner : r'.leaseOwner = r.leaseOwner) (expires : r'.leaseExpiresAt = r.leaseExpiresAt)
  /-- The worker releases the lease of a cancelled run. -/
  | leaseReleased (h : r.SameAttempts r') (stopped : S r)
      (reason : r.reason = some .cancelRequested)
      (status : r'.status = r.status) (reason' : r'.reason = r.reason)
      (owner : r'.leaseOwner = none) (expires : r'.leaseExpiresAt = none)
  /-- A run without attempts left ends in error. -/
  | exhausted (h : r.SameAttempts r') (pending : r.status = .pending)
      (status : r'.status = .error) (reason : r'.reason = some .infrastructureError)
      (owner : r'.leaseOwner = r.leaseOwner) (expires : r'.leaseExpiresAt = r.leaseExpiresAt)

/-- No move touches the counter of attempts or their limit. -/
theorem RunMove.sameAttempts {now : Time} {S : RunRow → Prop} {r r' : RunRow}
    (h : RunMove now S r r') :
    r.SameAttempts r' := by
  cases h with
  | quiet h => exact ⟨h.toSameIdentity, h.retryCount, h.maxAttempts⟩
  | _ => assumption

/-- No move but a claim makes a run `running`. -/
theorem RunMove.running {now : Time} {S : RunRow → Prop} {r r' : RunRow}
    (h : RunMove now S r r')
    (h' : r'.status = .running) :
    r.status = .running ∨ r.status = .pending ∧ r.leaseOwner.isSome := by
  cases h with
  | quiet h => exact .inl (h.status ▸ h')
  | renewed _ hr => exact .inl hr
  -- were a pending run released to `running`, it would have had an owner
  | released _ hlive hheld =>
      rcases RunStatus.isTerminal_eq_false.1 hlive with hp | hr
      · exact .inr ⟨hp, hheld.resolve_right (by simp [h'])⟩
      · exact .inl hr
  | interrupted _ _ hs => simp [hs] at h'
  | rollingBack _ _ hs => simp [hs] at h'
  | leaseReleased _ _ _ hs => exact .inl (hs ▸ h')
  | exhausted _ _ hs => simp [hs] at h'

/-- A terminal run stays terminal. -/
theorem RunMove.terminal {now : Time} {S : RunRow → Prop} {r r' : RunRow}
    (h : RunMove now S r r')
    (ht : r.status.isTerminal = true) : r'.status.isTerminal = true := by
  cases h with
  | quiet h => rw [h.status, ht]
  | renewed _ hr => simp [hr] at ht
  | released _ hlive => simp [hlive] at ht
  | interrupted _ hlive => simp [hlive] at ht
  | rollingBack _ _ hs => rw [hs]; rfl
  | leaseReleased _ _ _ hs => rw [hs, ht]
  | exhausted _ hp => simp [hp] at ht

/-! ## Moves of the database -/

/-- Every run `x` of `v'` comes from a run of `v` by `R`. -/
def Db.From (v : Db) (R : RunRow → RunRow → Prop) (v' : Db) (x : RunId) : Prop :=
  ∀ r', v'.runs.find? x = some r' → ∃ r, v.runs.find? x = some r ∧ R r r'

/-- A run as `create` inserts it. -/
structure RunRow.Submitted (r : RunRow) : Prop where
  status : r.status = .pending
  reason : r.reason = none
  retryCount : r.retryCount = 0
  maxAttempts : 1 ≤ r.maxAttempts ∧ r.maxAttempts ≤ maxInfrastructureRetries
  leaseOwner : r.leaseOwner = none
  leaseExpiresAt : r.leaseExpiresAt = none

/-- The rows of the run `x` differ in bookkeeping only. -/
def Db.Same (v v' : Db) (x : RunId) : Prop :=
  Option.Rel RunRow.Quiet (v.runs.find? x) (v'.runs.find? x)

/-- A new event belongs to a stored run and to its thread; a run or a thread that goes
takes its events along. -/
structure Db.KeepsEvents (v v' : Db) : Prop where
  run : ∀ e ∈ v'.events, ∀ x, e.runId = some x →
    (∃ r, v'.runs.find? x = some r ∧ e.threadId = r.threadId) ∨
      e ∈ v.events ∧ ((v.runs.find? x).isSome → (v'.runs.find? x).isSome)
  thread : ∀ e ∈ v'.events, ∀ t, e.threadId = some t →
    (v'.threads.find? t).isSome ∨
      e ∈ v.events ∧ ((v.threads.find? t).isSome → (v'.threads.find? t).isSome)

/-- One run moves or disappears; the others only change bookkeeping. A run disappears
while it holds its lease only when it is declared stopped. -/
inductive Move (now : Time) (S : RunRow → Prop) (v v' : Db) : Prop
  | change (id : RunId) (moved : v.From (RunMove now S) v' id)
      (kept : ∀ r, v.runs.find? id = some r → v'.runs.find? id = none →
        S r ∨ holdsLease now r = false)
      (others : ∀ x, x ≠ id → v.Same v' x) (issued : v'.issued = v.issued)
      (events : v.KeepsEvents v')

/-- The run `r` is submitted. -/
structure Submit (r : RunRow) (v v' : Db) : Prop where
  fresh : v.drawn r.runId = false
  submitted : r.Submitted
  keys : ∀ key, r.idempotencyKey = some key → ∀ x ∈ v.runs, x.idempotencyKey ≠ some key
  result : v' = v.insertRun r

/-- The moves of a transaction, in a row. -/
abbrev Moves (now : Time) (S : RunRow → Prop) : Db → Db → Prop := Relation.ReflTransGen (Move now S)

/-- A claim: the picked run becomes `running` under a lease of `owner`. -/
structure Start (repo : RunRepository) (now : Time) (owner : String) (r : RunRow)
    (v v' : Db) : Prop where
  found : v.runs.find? r.runId = some r
  eligible : eligible now v r = true
  attempts : r.retryCount < r.maxAttempts
  row : v'.runs.find? r.runId = some (claimed repo now owner r)
  others : ∀ x, x ≠ r.runId → v'.runs.find? x = v.runs.find? x
  issued : v'.issued = v.issued
  events : v'.events ⊆ v.events
  threads : ∀ t, (v.threads.find? t).isSome → (v'.threads.find? t).isSome

variable {now : Time} {S : RunRow → Prop} {v v' w : Db} {avail : Lock → Bool} {id : RunId}

theorem Db.same_of_eq {x : RunId} (h : v'.runs.find? x = v.runs.find? x) : v.Same v' x := by
  unfold Db.Same
  rw [h]
  cases v.runs.find? x with
  | none => exact .none
  | some r => exact .some (.refl r)

/-- A run of the state before is stored after, with the same columns but bookkeeping. -/
theorem Db.Same.find? {x : RunId} (h : v.Same v' x) {r : RunRow}
    (hr : v.runs.find? x = some r) : ∃ r', v'.runs.find? x = some r' ∧ r.Quiet r' := by
  unfold Db.Same at h
  rw [hr] at h
  cases hv : v'.runs.find? x with
  | none => rw [hv] at h; cases h
  | some r' => rw [hv] at h; cases h with | some hq => exact ⟨r', rfl, hq⟩

/-- The other direction: what is stored after was stored before. -/
theorem Db.Same.source {x : RunId} (h : v.Same v' x) : v.From RunRow.Quiet v' x := by
  intro r' hr'
  unfold Db.Same at h
  rw [hr'] at h
  cases hv : v.runs.find? x with
  | none => rw [hv] at h; cases h
  | some r => rw [hv] at h; cases h with | some hq => exact ⟨r, rfl, hq⟩

/-! ### Rows that come from rows -/

namespace Db.From

variable {R : RunRow → RunRow → Prop} {x : RunId}

/-- What leaves the table of runs alone keeps every row. -/
theorem of_runs (hrefl : ∀ r, R r r) (h : v'.runs = v.runs) : v.From R v' x := by
  intro r' hr'
  rw [h] at hr'
  exact ⟨r', hr', hrefl r'⟩

theorem trans (htrans : ∀ {a b c}, R a b → R b c → R a c) (h : v.From R v' x)
    (h' : v'.From R w x) : v.From R w x := by
  intro r'' hr''
  obtain ⟨r', hr', hrow'⟩ := h' r'' hr''
  obtain ⟨r, hr, hrow⟩ := h r' hr'
  exact ⟨r, hr, htrans hrow hrow'⟩

/-- One row is written as `R` allows. -/
theorem updateRun (hrefl : ∀ r, R r r) {f : RunRow → RunRow} {hf} (h : ∀ r, R r (f r)) :
    v.From R (v.updateRun id f hf) x := by
  intro r' hr'
  rw [Db.updateRun, Table.find?_modify hf] at hr'
  split at hr'
  -- the written row is the one of the run `id`
  · obtain ⟨r, hr, rfl⟩ := Option.map_eq_some_iff.1 hr'
    exact ⟨r, hr, h r⟩
  · exact ⟨r', hr', hrefl r'⟩

/-- A deleted row comes from nowhere and goes nowhere. -/
theorem deleteRun (hrefl : ∀ r, R r r) : v.From R (v.deleteRun id) x := by
  intro r' hr'
  rw [Db.deleteRun, Table.find?_erase] at hr'
  split at hr'
  · cases hr'
  · exact ⟨r', hr', hrefl r'⟩

end Db.From

/-! ## Events -/

namespace Db.KeepsEvents

/-- Events were only deleted, and every run and thread with events is still there. -/
theorem of_subset (hevents : v'.events ⊆ v.events)
    (hruns : ∀ x, (v.runs.find? x).isSome → (v'.runs.find? x).isSome)
    (hthreads : ∀ e ∈ v'.events, ∀ t, e.threadId = some t →
      (v.threads.find? t).isSome → (v'.threads.find? t).isSome) : v.KeepsEvents v' where
  run _ he x _ := .inr ⟨hevents he, hruns x⟩
  thread _ he t ht := .inr ⟨hevents he, hthreads _ he t ht⟩

/-- Two steps, the second of which loses no run and no thread. -/
theorem trans (h : v.KeepsEvents v') (h' : v'.KeepsEvents w)
    (hrow : ∀ x r r', v'.runs.find? x = some r → w.runs.find? x = some r' →
      r'.threadId = r.threadId) (hruns : ∀ x, (v'.runs.find? x).isSome → (w.runs.find? x).isSome)
    (hthreads : ∀ t, (v'.threads.find? t).isSome → (w.threads.find? t).isSome) :
    v.KeepsEvents w where
  run e he x hx := by
    -- the event is new in the second step, or in the first, or was there before both
    rcases h'.run e he x hx with hnew | ⟨he, hkept⟩
    · exact .inl hnew
    · rcases h.run e he x hx with ⟨r, hr, ht⟩ | ⟨he, hkept'⟩
      -- the run of a new event survives the second step, on its thread
      · obtain ⟨r', hr'⟩ := Option.isSome_iff_exists.1 (hruns x (by simp [hr]))
        exact .inl ⟨r', hr', ht.trans (hrow x r r' hr hr').symm⟩
      · exact .inr ⟨he, fun hsome => hkept (hkept' hsome)⟩
  thread e he t ht := by
    rcases h'.thread e he t ht with hnew | ⟨he, hkept⟩
    · exact .inl hnew
    · rcases h.thread e he t ht with hsome | ⟨he, hkept'⟩
      · exact .inl (hthreads t hsome)
      · exact .inr ⟨he, fun hsome => hkept (hkept' hsome)⟩

end Db.KeepsEvents

/-- An update creates no thread and deletes none. -/
theorem Db.isSome_updateThread {t x : ThreadId} {f : ThreadRow → ThreadRow} {hf} :
    ((v.updateThread t f hf).threads.find? x).isSome = (v.threads.find? x).isSome :=
  Table.isSome_find?_modify hf

/-! ## Quiet steps -/

/-- No run or lease moved; rows only changed bookkeeping columns. -/
structure Db.QuietStep (v v' : Db) : Prop where
  runs : ∀ x, v.Same v' x
  issued : v'.issued = v.issued
  events : v.KeepsEvents v'
  leases : v'.leases = v.leases
  baselines : v'.baselines = v.baselines
  checkpoints : v'.checkpoints = v.checkpoints
  checkpointWrites : v'.checkpointWrites = v.checkpointWrites
  threads : ∀ t, (v'.threads.find? t).isSome = (v.threads.find? t).isSome

namespace Db.QuietStep

theorem refl (v : Db) : v.QuietStep v where
  runs _ := Db.same_of_eq rfl
  issued := rfl
  events := .of_subset (List.Subset.refl _) (fun _ => id) fun _ _ _ _ h => h
  leases := rfl
  baselines := rfl
  checkpoints := rfl
  checkpointWrites := rfl
  threads _ := rfl

theorem trans (h : v.QuietStep v') (h' : v'.QuietStep w) : v.QuietStep w where
  runs x := by
    have h₁ := h.runs x
    have h₂ := h'.runs x
    unfold Db.Same at *
    revert h₁ h₂
    cases v.runs.find? x <;> cases v'.runs.find? x <;> cases w.runs.find? x <;> intro h₁ h₂ <;>
      cases h₁ <;> cases h₂
    · exact .none
    · next hq hq' => exact .some (hq.trans hq')
  issued := h'.issued.trans h.issued
  events := h.events.trans h'.events
    (fun x r r' hr hr' => by
      obtain ⟨r'', hr'', hq⟩ := (h'.runs x).find? hr
      rw [hr''] at hr'
      exact Option.some.inj hr' ▸ hq.threadId)
    (fun x hx => by
      obtain ⟨r, hr⟩ := Option.isSome_iff_exists.1 hx
      obtain ⟨r', hr', -⟩ := (h'.runs x).find? hr
      simp [hr'])
    (fun t ht => by rwa [h'.threads t])
  leases := h'.leases.trans h.leases
  baselines := h'.baselines.trans h.baselines
  checkpoints := h'.checkpoints.trans h.checkpoints
  checkpointWrites := h'.checkpointWrites.trans h.checkpointWrites
  threads t := (h'.threads t).trans (h.threads t)

/-- The row of a run after a quiet step. -/
theorem find? (h : v.QuietStep v') {r : RunRow} (hr : v.runs.find? id = some r) :
    ∃ r', v'.runs.find? id = some r' ∧ r.Quiet r' := (h.runs id).find? hr

/-- Bookkeeping is a move. -/
theorem moves (h : v.QuietStep v') : Moves now S v v' := by
  refine .single (.change 0 (fun r' hr' => ?_) (fun r hr hnone => ?_) (fun x _ => h.runs x) h.issued
    h.events)
  · obtain ⟨r, hr, hq⟩ := (h.runs 0).source r' hr'
    exact ⟨r, hr, .quiet hq⟩
  · obtain ⟨r', hr', -⟩ := h.find? hr
    simp [hr'] at hnone

/-- No column of a thread is followed. -/
theorem assignThread {t : ThreadId} {g : ThreadRow → ThreadRow} :
    v.QuietStep (v.assignThread t g) where
  runs := (refl v).runs
  issued := rfl
  events := .of_subset (List.Subset.refl _) (fun _ => id) fun _ _ x _ hx => by
    rw [Db.find?_assignThread]
    split <;> simpa using hx
  leases := rfl
  baselines := rfl
  checkpoints := rfl
  checkpointWrites := rfl
  threads x := by
    rw [Db.find?_assignThread]
    split
    · exact Option.isSome_map
    · rfl

theorem assignThreadOf {t : Option ThreadId} {g : ThreadRow → ThreadRow} :
    v.QuietStep (v.assignThreadOf t g) := by
  cases t with
  | none => exact .refl v
  | some t => exact .assignThread

/-- Assignments to columns that are not followed. -/
theorem assignRun {f : RunRow → RunRow} (hf : ∀ r : RunRow, r.Quiet (r.assign f)) :
    v.QuietStep (v.assignRun id f) where
  runs x := by
    unfold Db.Same
    rw [Db.find?_assignRun]
    split
    · cases v.runs.find? x with
      | none => exact .none
      | some r => exact .some (hf r)
    · exact Db.same_of_eq rfl
  issued := rfl
  events := .of_subset (List.Subset.refl _) (fun x hx => by
    rw [Db.find?_assignRun]
    split <;> simpa using hx) fun _ _ _ _ h => h
  leases := rfl
  baselines := rfl
  checkpoints := rfl
  checkpointWrites := rfl
  threads _ := rfl

/-- A new event of a stored run and its thread. -/
theorem insertEvent {e : RuntimeEventRow}
    (he : ∀ x, e.runId = some x → ∃ r, v.runs.find? x = some r ∧ e.threadId = r.threadId)
    (ht : ∀ t, e.threadId = some t → (v.threads.find? t).isSome) :
    v.QuietStep (v.insertEvent e) where
  runs := (refl v).runs
  issued := rfl
  events := by
    refine ⟨fun e' he' x hx => ?_, fun e' he' t hthread => ?_⟩ <;>
      rcases List.mem_append.1 he' with he' | he'
    · exact .inr ⟨he', id⟩
    · rw [List.mem_singleton.1 he'] at hx ⊢
      exact .inl (he x hx)
    · exact .inr ⟨he', id⟩
    · rw [List.mem_singleton.1 he'] at hthread
      exact .inl (ht t hthread)
  leases := rfl
  baselines := rfl
  checkpoints := rfl
  checkpointWrites := rfl
  threads _ := rfl

/-- What `record_event` leaves is bookkeeping and one new event. -/
theorem logged {e : RuntimeEventRow} {run : RunRow} (hrun : v.runs.find? id = some run)
    (hid : e.runId = some id) (hthread : e.threadId = run.threadId)
    (ht : ∀ t, run.threadId = some t → (v.threads.find? t).isSome) :
    v.QuietStep (v.logged id e) := by
  have hnumbered (r : RunRow) : r.Quiet (r.assign (.numbered e.sequence)) :=
    ⟨⟨rfl, rfl, rfl, rfl, rfl, fun _ _ => rfl⟩, rfl, rfl, rfl, rfl, rfl, rfl, rfl⟩
  unfold Db.logged
  have hsteps : v.QuietStep ((v.assignThreadOf e.threadId (.numbered e.sequence)).assignRun id
      (.numbered e.sequence)) := assignThreadOf.trans (assignRun hnumbered)
  refine hsteps.trans (insertEvent (fun x hx => ?_) fun t hx => ?_)
  · rw [hid] at hx
    obtain rfl := Option.some.inj hx
    refine ⟨run.assign (.numbered e.sequence), ?_, hthread⟩
    rw [Db.find?_assignRun, if_pos rfl, Db.assignThreadOf_runs, hrun]
    rfl
  · rw [hsteps.threads]
    exact ht t (hthread ▸ hx)

end Db.QuietStep

/-! ## Single moves -/

/-- The runs stayed as they were, and no event was added. -/
structure Db.SameRuns (v v' : Db) : Prop where
  runs : v'.runs = v.runs
  issued : v'.issued = v.issued
  events : v'.events ⊆ v.events
  threads : ∀ t, (v.threads.find? t).isSome → (v'.threads.find? t).isSome

theorem Db.SameRuns.refl (v : Db) : v.SameRuns v :=
  ⟨rfl, rfl, List.Subset.refl _, fun _ h => h⟩

theorem Db.SameRuns.trans (h : v.SameRuns v') (h' : v'.SameRuns w) : v.SameRuns w :=
  ⟨h'.runs.trans h.runs, h'.issued.trans h.issued, List.Subset.trans h'.events h.events,
    fun t ht => h'.threads t (h.threads t ht)⟩

theorem Db.SameRuns.assignThread {t : ThreadId} {g : ThreadRow → ThreadRow} :
    v.SameRuns (v.assignThread t g) :=
  ⟨rfl, rfl, List.Subset.refl _, fun x hx => by
    rwa [(QuietStep.assignThread (v := v) (t := t) (g := g)).threads x]⟩

namespace Moves

/-- A transaction that leaves the runs alone makes a move that moves nothing. -/
theorem of_sameRuns (h : v.SameRuns v') : Moves now S v v' := by
  refine .single (.change 0 (fun r hr => ⟨r, by rwa [← h.runs], .quiet (.refl r)⟩)
    (fun r hr hnone => ?_) (fun x _ => Db.same_of_eq (by rw [h.runs])) h.issued
    (.of_subset h.events (fun x hx => by rwa [h.runs]) fun _ _ t _ => h.threads t))
  rw [h.runs, hr] at hnone
  cases hnone

/-- An assignment is a move of its run. -/
theorem assignRun {f : RunRow → RunRow} {r : RunRow} (hr : v.runs.find? id = some r)
    (hmove : RunMove now S r (r.assign f)) : Moves now S v (v.assignRun id f) := by
  have hrow : (v.assignRun id f).runs.find? id = some (r.assign f) := by
    rw [Db.find?_assignRun, if_pos rfl, hr]
    rfl
  refine .single (.change id (fun r' hr' => ?_) (fun r' _ hnone => ?_) (fun x hx => ?_) rfl
    (.of_subset (List.Subset.refl _) (fun x hx => ?_) fun _ _ _ _ h => h))
  · exact ⟨r, hr, Option.some.inj (hrow.symm.trans hr') ▸ hmove⟩
  · rw [hrow] at hnone
    cases hnone
  · exact Db.same_of_eq (by rw [Db.find?_assignRun, if_neg hx])
  · rw [Db.find?_assignRun]
    split <;> simpa using hx

/-- The deletion of a thread is a move of no run; the events of the thread go. -/
theorem deleteThread {t : ThreadId} : Moves now S v (v.deleteThread t) := by
  refine .single (.change 0 (fun r hr => ⟨r, hr, .quiet (.refl r)⟩) (fun r hr hnone => ?_)
    (fun x _ => Db.same_of_eq rfl) rfl (.of_subset (fun _ he => (List.mem_filter.1 he).1)
      (fun _ h => h) fun _ he x hx hsome => ?_))
  · rw [show v.runs.find? 0 = none from hnone] at hr
    cases hr
  · -- the events of the thread go with it
    have hne := (List.mem_filter.1 he).2
    simp only [hx, ne_eq, Option.some.injEq, decide_eq_true_eq] at hne
    rwa [Db.deleteThread, Table.find?_erase, if_neg hne]

/-- A run may go when it is declared stopped, or its lease is over. -/
theorem deleteRun (hstop : ∀ r, v.runs.find? id = some r → S r ∨ holdsLease now r = false) :
    Moves now S v (v.deleteRun id) := by
  refine .single (.change id (fun r' hr' => ?_) (fun r hr _ => hstop r hr) (fun x hx => ?_) rfl
    ⟨fun e he x hx => ?_, fun e he t _ => .inr ⟨(List.mem_filter.1 he).1, fun h => h⟩⟩)
  · simp [Db.deleteRun, Table.find?_erase] at hr'
  · exact Db.same_of_eq (by simp only [Db.deleteRun, Table.find?_erase, if_neg hx])
  · obtain ⟨hmem, hne⟩ := List.mem_filter.1 he
    refine .inr ⟨hmem, fun hsome => ?_⟩
    simp only [hx, ne_eq, Option.some.injEq, decide_eq_true_eq] at hne
    rwa [Db.deleteRun, Table.find?_erase, if_neg hne]

end Moves

/-! ## Where rows come from -/

/-- A stored run is found by its id. -/
theorem Db.mem_runs {r : RunRow} : r ∈ v.runs ↔ v.runs.find? r.runId = some r :=
  Table.mem_iff_find?

/-- After a move every row was moved. -/
theorem Move.origin (h : Move now S v v') {r' : RunRow} (hr' : r' ∈ v'.runs) :
    ∃ r ∈ v.runs, RunMove now S r r' := by
  rw [Db.mem_runs] at hr'
  obtain ⟨id, hmoved, -, hothers, -, -⟩ := h
  by_cases hid : r'.runId = id
  · obtain ⟨r, hr, hmove⟩ := hmoved r' (hid ▸ hr')
    exact ⟨r, Table.mem_of_find? hr, hmove⟩
  · obtain ⟨r, hr, hq⟩ := (hothers _ hid).source r' hr'
    exact ⟨r, Table.mem_of_find? hr, .quiet hq⟩

/-- No move draws an id. -/
theorem Move.issued (h : Move now S v v') : v'.issued = v.issued := by
  obtain ⟨_, -, -, -, hissued, -⟩ := h
  exact hissued

/-- Every move keeps the foreign keys of the events. -/
theorem Move.events (h : Move now S v v') : v.KeepsEvents v' := by
  obtain ⟨_, -, -, -, -, hevents⟩ := h
  exact hevents

/-- The id of a submitted run was not stored. -/
theorem Submit.absent {r : RunRow} (h : Submit r v v') : v.runs.find? (Keyed.key r) = none := by
  have hfresh := h.fresh
  simp only [Db.drawn, Bool.or_eq_false_iff] at hfresh
  simpa using hfresh.2

/-- The rows after a submission. -/
theorem Submit.find? {r : RunRow} (h : Submit r v v') (x : RunId) :
    v'.runs.find? x = if x = r.runId then some r else v.runs.find? x := by
  simp only [h.result, Db.insertRun, Table.find?_insert h.absent, key_run]

/-- The id is drawn. -/
theorem Submit.issued {r : RunRow} (h : Submit r v v') : v'.issued = v.issued ++ [r.runId] := by
  rw [h.result]
  rfl

/-- After a submission every row is an old one, or the submitted one. -/
theorem Submit.origin {r r' : RunRow} (h : Submit r v v') (hr' : r' ∈ v'.runs) :
    r' = r ∨ r' ∈ v.runs ∧ r'.runId ≠ r.runId := by
  rw [Db.mem_runs, h.find?] at hr'
  split at hr'
  · exact .inl (Option.some.inj hr').symm
  · next hne => exact .inr ⟨Table.mem_of_find? hr', hne⟩

/-- After a claim every row is an old one, or that of the started run. -/
theorem Start.origin {repo : RunRepository} {owner : String} {r r' : RunRow}
    (h : Start repo now owner r v v') (hr' : r' ∈ v'.runs) :
    r' = claimed repo now owner r ∨ r' ∈ v.runs ∧ r'.runId ≠ r.runId := by
  rw [Db.mem_runs] at hr'
  by_cases hid : r'.runId = r.runId
  · rw [hid, h.row] at hr'
    exact .inl (Option.some.inj hr').symm
  · rw [h.others _ hid] at hr'
    exact .inr ⟨Table.mem_of_find? hr', hid⟩

/-- A property of databases that every move keeps. -/
theorem Moves.preserves {P : Db → Prop} (hP : ∀ v v', P v → Move now S v v' → P v')
    (h : Moves now S v v') (hv : P v) : P v' := by
  induction h with
  | refl => exact hv
  | tail _ hmove ih => exact hP _ _ ih hmove

/-- Rows come from rows, and a terminal run stays terminal. -/
def Db.Persists (v v' : Db) : Prop :=
  ∀ x r', v'.runs.find? x = some r' → ∃ r, v.runs.find? x = some r ∧
    (r.status.isTerminal = true → r'.status.isTerminal = true)

theorem Db.Persists.trans (h : v.Persists v') (h' : v'.Persists w) : v.Persists w := by
  intro x r'' hr''
  obtain ⟨r', hr', hterminal'⟩ := h' x r'' hr''
  obtain ⟨r, hr, hterminal⟩ := h x r' hr'
  exact ⟨r, hr, fun ht => hterminal' (hterminal ht)⟩

/-- No move brings a run back or takes a terminal status from it. -/
theorem Moves.persists (h : Moves now S v v') : v.Persists v' := by
  induction h with
  | refl => exact fun x r hr => ⟨r, hr, id⟩
  | tail _ hmove ih =>
      refine ih.trans fun x r' hr' => ?_
      obtain ⟨r, hr, hrun⟩ := hmove.origin (Table.mem_of_find? hr')
      have hid : r.runId = x := hrun.sameAttempts.runId.symm.trans (Table.key_of_find? hr')
      exact ⟨r, hid ▸ Db.mem_runs.1 hr, hrun.terminal⟩

/-- No transaction of moves draws an id. -/
theorem Moves.issued (h : Moves now S v v') : v'.issued = v.issued := by
  induction h with
  | refl => rfl
  | tail _ hmove ih => rw [hmove.issued, ih]

end GraphHarbor
