import GraphHarbor.ControlKeys
import GraphHarbor.Fencing
import GraphHarbor.Footprint
import GraphHarbor.Reaper

/-!
# Who cancelled a run

One event object stops an execution for three causes: a control message waits for the
run, the lease was lost, the heartbeat failed. `run_once` ends the run with reason
`cancel_requested` whatever the cause was, and a message is taken for a cancel when its
topic contains `control`. As long as no event has such a name, and a worker that stopped
for one of the last two causes finds its run ended or owned by somebody else, only runs
with an interrupt request end so, and faults lead to a requeue, a retry or an
`infrastructure_error`.
-/

namespace GraphHarbor

open Kit Txn

variable {now : Time} {v v' w : Db} {avail : Lock → Bool} {id : RunId} {R C : RunId → Prop}
  {K : Kind → Prop} {α β : Type}

/-! ## Interrupted runs -/

/-- Every run that ended by an interrupt request is one of `R`. -/
def Db.Attributed (R : RunId → Prop) (v : Db) : Prop :=
  ∀ x r, v.runs.find? x = some r → r.CancelRequested → R x

theorem Db.Attributed.mono {R' : RunId → Prop} (h : v.Attributed R) (hR : ∀ x, R x → R' x) :
    v.Attributed R' := fun x r hr hc => hR x (h x r hr hc)

theorem Db.Attributed.of_runs (h : v.Attributed R) (hruns : v'.runs = v.runs) :
    v'.Attributed R := by
  intro x r hr
  rw [hruns] at hr
  exact h x r hr

/-- A write to runs in `R`, or one that interrupts no run. -/
theorem Db.Attributed.updateRun (h : v.Attributed R) {f : RunRow → RunRow} {hf}
    (hid : R id ∨ ∀ r, (f r).CancelRequested → r.CancelRequested) :
    (v.updateRun id f hf).Attributed R := by
  intro x r' hr' hc
  rw [Db.updateRun, Table.find?_modify hf] at hr'
  split at hr'
  · next heq =>
      obtain ⟨r, hr, rfl⟩ := Option.map_eq_some_iff.1 hr'
      rcases hid with hid | hkeeps
      · exact heq ▸ hid
      · exact h x r hr (hkeeps r hc)
  · exact h x r' hr' hc

theorem Db.Write.attributed (hK : ¬K .cancel) (hw : v.Write K v') (h : v.Attributed R) :
    v'.Attributed R := by
  cases hw with
  | read => exact h
  | run id f hf keeps =>
      exact h.updateRun (.inr fun r hc => ((keeps r).cancel hc).resolve_right hK)
  | thread => exact h
  | submit new kind fresh submitted =>
      intro x r hr hc
      have habsent : v.runs.find? (Keyed.key new) = none := by
        simp only [drawn, Bool.or_eq_false_iff] at fresh
        simpa using fresh.2
      rw [Db.insertRun, Table.find?_insert habsent] at hr
      split at hr
      · -- a new run is pending
        obtain rfl := Option.some.inj hr
        rw [RunRow.CancelRequested, submitted.status] at hc
        cases hc.1
      · exact h x r hr hc
  | openThread => exact h
  | log => exact h
  | dropRun id =>
      intro x r hr hc
      rw [Db.deleteRun, Table.find?_erase] at hr
      split at hr
      · cases hr
      · exact h x r hr hc
  | dropThread => exact h
  | tables v' keeps runs => exact h.of_runs runs

/-- A statement that interrupts no run but those of `C`. -/
inductive Stmt.Interrupts (C : RunId → Prop) : (β : Type) → Stmt β → Prop
  | within {β : Type} (s : Stmt β) (h : s.Within (· ≠ .cancel)) : Interrupts C β s
  | assign (id : RunId) (f : RunRow → RunRow) (h : C id) : Interrupts C Unit (.assignRun id f)

/-- The program interrupts no run but those of `C`. -/
def Txn.Interrupts (C : RunId → Prop) (p : Txn α) : Prop := Prog.All (Stmt.Interrupts C) p

theorem Txn.Within.interrupts {p : Txn α} (h : p.Within (· ≠ .cancel)) : p.Interrupts C :=
  Prog.All.mono h fun _ s hs => .within s hs

theorem Txn.Interrupts.attributed {p : Txn α} (hp : p.Interrupts C) (hC : ∀ x, C x → R x)
    {a : α} (h : p.Returns avail v a v') (hv : v.Attributed R) : v'.Attributed R := by
  refine Txn.preserves_of_all (fun β s b u u' hs hdirect hu => ?_) hp h hv
  cases hs with
  | within s hs => exact (Stmt.direct_within hs hdirect).attributed (by simp) hu
  | assign id f hid =>
      obtain ⟨rfl, -⟩ := returns_assignRun.1 (returns_perform.2 hdirect)
      exact hu.updateRun (.inl (hC id hid))

theorem interruptRow_interrupts {row : RunRow} :
    (interruptRow now row).Interrupts (· = row.runId) := by
  have hlease (b : Bool) : (deleteLeaseUnless b row.runId).Within (· ≠ .cancel) := by
    cases b with
    | true => exact .ret
    | false => exact deleteLease_within
  unfold interruptRow
  split
  · exact .ret
  · split
    · exact .throw
    · refine .bind (.perform (.assign _ _ rfl)) fun _ => ?_
      exact ((hlease _).bind fun _ => .bind (recordRunEvent_within (by simp)) fun _ =>
        .ret).interrupts

/-- An interrupt request ends a stored run only. -/
theorem interrupt_attributed {u : Unit} (hv : v.Attributed R)
    (hid : (v.runs.find? id).isSome → R id)
    (h : (cancelRow now id .interrupt).Returns avail v u v') : v'.Attributed R := by
  simp only [cancelRow, returns_bind, returns_lockRunIf] at h
  obtain ⟨a, _, ⟨rfl, ⟨rfl, -⟩ | ⟨-, hskip, -⟩⟩, h⟩ := h
  · split at h
    · obtain ⟨-, rfl⟩ := returns_ret.1 h
      exact hv
    · next row hrow =>
        have hfind := (Option.filter_eq_some_iff.1 hrow).1
        obtain rfl : row.runId = id := Table.key_of_find? hfind
        refine interruptRow_interrupts.attributed (fun x hx => ?_) h hv
        exact hx ▸ hid (by simp [hfind])
  · cases hskip

theorem interruptAll_attributed {ids : List RunId} {u : Unit} (hv : v.Attributed R)
    (hids : ∀ x ∈ ids, (v.runs.find? x).isSome → R x)
    (h : (interruptAll now ids).Returns avail v u v') : v'.Attributed R := by
  induction ids generalizing v with
  | nil =>
      obtain ⟨-, rfl⟩ := returns_ret.1 h
      exact hv
  | cons id ids ih =>
      simp only [interruptAll, returns_bind] at h
      obtain ⟨_, v₁, hcancel, h⟩ := h
      have hmoves : Moves now (fun _ => False) v v₁ := cancelRow_moves hcancel
      refine ih (interrupt_attributed hv (hids id List.mem_cons_self) hcancel)
        (fun x hx hsome => ?_) h
      obtain ⟨r, hr⟩ := Option.isSome_iff_exists.1 hsome
      obtain ⟨r₀, hr₀, -⟩ := hmoves.persists x r hr
      exact hids x (.tail _ hx) (by simp [hr₀])

/-- The runs an interrupt request names. -/
def Request.interrupts : Request → List RunId
  | .runsCancel id .interrupt => [id]
  | .runsQueue _ .cancel _ requested => requested
  | _ => []

/-- The requests that do not come from the execution of a run: its worker's heartbeat,
and the end of a cancelled execution. `finish` and `fail` are parts of other requests. -/
def Request.elsewhere : Request → Bool
  | .finish .. | .fail .. | .renew .. | .finalizeCancelled .. => false
  | _ => true

theorem Request.attributed {q : Request} {a : Reply} (hq : q.elsewhere = true) (hv : v.Attributed R)
    (hR : ∀ x ∈ q.interrupts, (v.runs.find? x).isSome → R x)
    (h : (q.program now).Returns avail v a v') : v'.Attributed R := by
  have hother (hkind : Kind.cancel ∉ q.kinds) : v'.Attributed R :=
    (q.within now).preserves (fun _ _ hw hu => hw.attributed hkind hu) h hv
  cases q with
  | finish | finalizeCancelled => cases hq
  | runsCancel id action =>
      cases action with
      | rollback => exact hother (by simp [kinds])
      | interrupt =>
          simp only [program, replying_returns, GraphHarbor.runsCancel, returns_bind] at h
          obtain ⟨b, ⟨row, _, hrow, h⟩, -⟩ := h
          obtain ⟨rfl, -⟩ := authorizedRun_returns hrow
          split at h
          · obtain ⟨-, rfl⟩ := returns_ret.1 h
            exact hv
          · simp only [returns_bind, Prog.pure_eq, returns_ret] at h
            obtain ⟨_, _, hcancel, -, rfl⟩ := h
            exact interrupt_attributed hv (hR id (by simp [interrupts])) hcancel
  | runsQueue t operation expected requested =>
      cases operation with
      | reorder => exact hother (by simp [kinds])
      | cancel =>
          simp only [program, replying_returns, GraphHarbor.runsQueue, returns_bind,
            returns_lockThread] at h
          obtain ⟨u, ⟨_, _, ⟨rfl, rfl, -⟩, h⟩, -⟩ := h
          split at h
          · simp at h
          · simp only [returns_bind, returns_query] at h
            obtain ⟨rows, _, hrows, _, _, ⟨rfl, rfl⟩, h⟩ := h
            obtain ⟨rfl, -⟩ := lockRuns_rows hrows
            split at h
            · simp at h
            · exact interruptAll_attributed hv hR h
  | _ => exact hother (by simp [kinds])

/-! ## Faults -/

/-- What a fault may do to a run: nothing, a retry, a requeue, or the final
infrastructure error. -/
def RunRow.Recovers (r r' : RunRow) : Prop :=
  r'.status = r.status ∧ r'.reason = r.reason ∨
    r'.status = .pending ∧ (r'.reason = some .retry ∨ r'.reason = some .shutdownRequeue) ∨
    r'.status = .error ∧ r'.reason = some .infrastructureError

/-- The runs of `v` after faults only. -/
def Db.Recovers (v v' : Db) : Prop :=
  ∀ x, Option.Rel RunRow.Recovers (v.runs.find? x) (v'.runs.find? x)

theorem RunRow.Recovers.trans {r r' r'' : RunRow} (h : r.Recovers r') (h' : r'.Recovers r'') :
    r.Recovers r'' := by
  rcases h' with ⟨hstatus, hreason⟩ | h'
  · rw [RunRow.Recovers, hstatus, hreason]
    exact h
  · exact .inr h'

namespace Db.Recovers

theorem of_runs (h : v'.runs = v.runs) : v.Recovers v' := by
  intro x
  rw [h]
  cases v.runs.find? x with
  | none => exact .none
  | some r => exact .some (.inl ⟨rfl, rfl⟩)

theorem trans (h : v.Recovers v') (h' : v'.Recovers w) : v.Recovers w := by
  intro x
  have h₁ := h x
  have h₂ := h' x
  revert h₁ h₂
  cases v.runs.find? x <;> cases v'.runs.find? x <;> cases w.runs.find? x <;> intro h₁ h₂ <;>
    cases h₁ <;> cases h₂
  · exact .none
  · next hr hr' => exact .some (hr.trans hr')

theorem of_quiet (h : v.QuietStep v') : v.Recovers v' := by
  intro x
  have hsame := h.runs x
  unfold Db.Same at hsame
  revert hsame
  cases v.runs.find? x <;> cases v'.runs.find? x <;> intro hsame <;> cases hsame
  · exact .none
  · next hq => exact .some (.inl ⟨hq.status, hq.reason⟩)

theorem updateRun {f : RunRow → RunRow} {hf}
    (hrow : ∀ r, v.runs.find? id = some r → r.Recovers (f r)) :
    v.Recovers (v.updateRun id f hf) := by
  intro x
  rw [Db.updateRun, Table.find?_modify hf]
  split
  · next heq =>
      subst heq
      cases hr : v.runs.find? x with
      | none => exact .none
      | some r => exact .some (hrow r hr)
  · exact of_runs rfl x

end Db.Recovers

/-- The worker `owner` has no run to finalise: it is gone, ended, owned by somebody else,
or its terminal event cannot be recorded because its thread is gone. -/
def Db.settled (v : Db) (id : RunId) (owner : String) : Bool :=
  (v.runs.find? id).all fun r => r.status.isTerminal || r.leaseOwner ≠ some owner ||
    (v.terminalEvent id).isNone && r.threadId.any fun t => (v.threads.find? t).isNone

/-- What set the event object of an execution. -/
inductive Cause
  | lost | raised | requested
  deriving DecidableEq, Repr

/-- The execution of a claimed run in a process: what its heartbeat knows, and its event
object. -/
structure Slot where
  process : ProcessId
  run : RunId
  threadId : Option ThreadId
  owner : String
  cancel : Option Cause := none
  deriving DecidableEq, Repr

def Slot.stoppedBy (s : Slot) (cause : Cause) : Slot := { s with cancel := some cause }

/-- The service, the control messages between its processes, and the executions of its
workers. `requested` is a ghost: the stored runs that a committed interrupt request named. -/
structure Workers where
  world : World
  control : Control := {}
  slots : List Slot
  requested : List RunId

/-- The execution that a claim with an accepted runtime context starts in its process. -/
def Step.opened (process : ProcessId) : Step → List Slot
  | .call (.claim _ owner true) (.ok (.run (some r))) =>
      [⟨process, r.runId, r.threadId, owner, none⟩]
  | _ => []

def Step.requested (v : Db) : Step → List RunId
  | .call q (.ok _) => q.interrupts.filter fun x => (v.runs.find? x).isSome
  | _ => []

/-- The run of an API cancel that the step publishes. -/
def ControlStep.cancels : ControlStep → Option RunId
  | .publish _ (.cancel runId _) => some runId
  | _ => none

/-- What happens to the workers: a step of the service in a process, a step of the
messages, a heartbeat that renews the lease or loses it, one that raises, one that finds a
control message or an ended run, the end of a cancelled execution, and any other end. -/
inductive Action
  | service (process : ProcessId) (l : Step)
  | message (l : ControlStep)
  | renew (i : Nat) (repo : RunRepository) (renewed : Bool)
  | raise (i : Nat)
  | notice (i : Nat)
  | cancelled (i : Nat) (r : Except Err Reply)
  | leave (i : Nat)

/-- `_cancel_requested`: the process of the worker or Redis has a control key of the run, or
the run is gone or has ended. -/
def Workers.cancelRequested (p : Workers) (s : Slot) : Bool :=
  p.control.cancelRequested s.process s.threadId s.run ||
    (p.world.db.runs.find? s.run).all (·.status.isTerminal)

/-- The slot `i`, while nothing has set its event object. -/
def Workers.beating (p : Workers) (i : Nat) : Option Slot :=
  p.slots[i]?.filter (·.cancel.isNone)

/-- The slot `i`, after something has set its event object. -/
def Workers.stopped (p : Workers) (i : Nat) : Option Slot :=
  p.slots[i]?.filter (·.cancel.isSome)

/-- The workers: any requests from elsewhere, any messages, and the executions side by side.
A cancel is published after its request committed. -/
def workers : TSys Workers Action where
  init p := p.world.db.Fresh ∧ p.control = {} ∧ p.slots = [] ∧ p.requested = []
  step p l p' :=
    match l with
    | .service process l =>
        (GraphHarbor.service fun q => q.elsewhere = true).step p.world l p'.world ∧
        p'.control = p.control ∧ p'.slots = p.slots ++ l.opened process ∧
        p'.requested = p.requested ++ l.requested p.world.db
    | .message l => (∀ id, l.cancels = some id → id ∈ p.requested) ∧
        ∃ control, p.control.next l = some control ∧ p' = { p with control }
    | .renew i repo renewed => ∃ s, p.beating i = some s ∧
        (GraphHarbor.service fun _ => True).step p.world
          (.call (.renew repo s.run s.owner) (.ok (.flag renewed))) p'.world ∧
        p'.control = p.control ∧
        p'.slots = (if renewed then p.slots else p.slots.set i (s.stoppedBy .lost)) ∧
        p'.requested = p.requested
    | .raise i => ∃ s, p.beating i = some s ∧
        p' = { p with slots := p.slots.set i (s.stoppedBy .raised) }
    | .notice i => ∃ s, p.beating i = some s ∧ p.cancelRequested s = true ∧
        p' = { p with slots := p.slots.set i (s.stoppedBy .requested) }
    | .cancelled i r => ∃ s, p.stopped i = some s ∧
        (GraphHarbor.service fun _ => True).step p.world
          (.call (.finalizeCancelled s.run s.threadId s.owner) r) p'.world ∧
        p'.control = p.control ∧ p'.slots = p.slots.eraseIdx i ∧ p'.requested = p.requested
    | .leave i => p' = { p with slots := p.slots.eraseIdx i }

/-- No event with `control` in its name is published. -/
def Action.plain : Action → Bool
  | .message l => Control.plainNames l
  | _ => true

/-- A worker that stopped for a fault finds its run settled. -/
def Workers.settles (p : Workers) : Action → Bool
  | .cancelled i _ => (p.stopped i).all fun s =>
      s.cancel = some .requested || p.world.db.settled s.run s.owner
  | _ => true

/-- Every stored run was submitted. -/
def Db.Enrolled (v : Db) : Prop := ∀ x r, v.runs.find? x = some r → x ∈ v.issued

/-- What the runs `v` submitted stay in `v'`: submitted, and over when they were. -/
structure Db.Continues (v v' : Db) : Prop where
  enrolled : v.Enrolled → v'.Enrolled
  issued : v.issued ⊆ v'.issued
  stillOver : ∀ x, v.Over x → v'.Over x

theorem Db.Continues.refl (v : Db) : v.Continues v :=
  ⟨id, List.Subset.refl _, fun _ h => h⟩

theorem Request.continues {q : Request} {a : Reply}
    (h : (q.program now).Returns avail v a v') : v.Continues v' where
  stillOver _ hx := Request.over hx h
  issued := by
    cases q.effect h with
    | moves hmoves => exact hmoves.issued ▸ List.Subset.refl _
    | submit _ hsubmit => exact hsubmit.issued ▸ List.subset_append_left _ _
    | claim _ hstart hmoves => exact hmoves.issued ▸ hstart.issued ▸ List.Subset.refl _
  -- an id stays enrolled: the row was there before, or its id was just issued
  enrolled hv x r hr := by
    cases q.effect h with
    | moves hmoves =>
        obtain ⟨r₀, hr₀, -⟩ := hmoves.persists x r hr
        exact hmoves.issued ▸ hv x r₀ hr₀
    | submit _ hsubmit =>
        rw [hsubmit.issued, List.mem_append, List.mem_singleton]
        rw [hsubmit.find?] at hr
        split at hr
        · next heq => exact .inr heq
        · exact .inl (hv x r hr)
    | @claim _ _ _ run _ _ hstart hmoves =>
        obtain ⟨r₁, hr₁, -⟩ := hmoves.persists x r hr
        rw [hmoves.issued, hstart.issued]
        by_cases hid : x = run.runId
        · exact hid ▸ hv _ _ hstart.found
        · exact hv x r₁ (hstart.others x hid ▸ hr₁)

theorem service_continues {allows : Request → Prop} {w w' : World} {l : Step}
    (h : (service allows).step w l w') : w.db.Continues w'.db := by
  rcases service_step h with ⟨d, -, rfl⟩ | ⟨q, e, -, rfl⟩ | ⟨q, a, avail, db', -, -, rfl, hret⟩
  · exact .refl _
  · exact .refl _
  · exact Request.continues hret

theorem enrolled_inductive {allows : Request → Prop} :
    (service allows).Inductive fun w => w.db.Enrolled where
  init w hw x r hr := by
    rw [hw.runs] at hr
    simp at hr
  step _ _ _ h hstep := (service_continues hstep).enrolled h

/-- The invariant of the workers. -/
structure Workers.Sound (p : Workers) : Prop where
  plain : p.control.Plain
  asked : ∀ threadId runId m, p.control.Cancels (.run threadId runId) m → runId ∈ p.requested
  enrolled : p.world.db.Enrolled
  attributed : p.world.db.Attributed (· ∈ p.requested)
  issued : ∀ s ∈ p.slots, s.run ∈ p.world.db.issued
  noticed : ∀ s ∈ p.slots, s.cancel = some .requested →
    s.run ∈ p.requested ∨ p.world.db.Over s.run

variable {p p' : Workers}

/-- Slots are old ones, or sound ones. -/
theorem Workers.Sound.next (h : p.Sound) (hcontrol : p'.control = p.control)
    (hdb : p.world.db.Continues p'.world.db)
    (hattributed : p'.world.db.Attributed (· ∈ p'.requested))
    (hrequested : p.requested ⊆ p'.requested)
    (hslots : ∀ s ∈ p'.slots, s ∈ p.slots ∨ s.run ∈ p'.world.db.issued ∧
      (s.cancel = some .requested → s.run ∈ p'.requested ∨ p'.world.db.Over s.run)) :
    p'.Sound where
  plain := hcontrol ▸ h.plain
  asked threadId runId m hm := hrequested (h.asked threadId runId m (hcontrol ▸ hm))
  enrolled := hdb.enrolled h.enrolled
  attributed := hattributed
  issued s hs := (hslots s hs).elim (fun hold => hdb.issued (h.issued s hold)) (·.1)
  noticed s hs hc := by
    rcases hslots s hs with hold | ⟨-, hnew⟩
    · exact (h.noticed s hold hc).imp (fun hx => hrequested hx) (hdb.stillOver _)
    -- the slots that the step leaves alone
    · exact hnew hc

theorem Workers.mem_of_filter {i : Nat} {s : Slot} {f : Slot → Bool}
    (h : p.slots[i]?.filter f = some s) : s ∈ p.slots ∧ f s = true := by
  obtain ⟨hs, hf⟩ := Option.filter_eq_some_iff.1 h
  exact ⟨List.mem_of_getElem? hs, hf⟩

/-- The event object of one slot is set. -/
theorem Workers.Sound.stop (h : p.Sound) {i : Nat} {s : Slot} {cause : Cause}
    (hs : p.beating i = some s) (hcontrol : p'.control = p.control)
    (hworld : p.world.db.Continues p'.world.db)
    (hattributed : p'.world.db.Attributed (· ∈ p'.requested))
    (hrequested : p'.requested = p.requested)
    (hslots : p'.slots = p.slots.set i (s.stoppedBy cause))
    (hcause : cause = .requested → s.run ∈ p.requested ∨ p'.world.db.Over s.run) : p'.Sound := by
  have hissued := h.issued s (Workers.mem_of_filter hs).1
  refine h.next hcontrol hworld hattributed (hrequested ▸ List.Subset.refl _) fun s' hs' => ?_
  rw [hslots] at hs'
  rcases List.mem_or_eq_of_mem_set hs' with hold | rfl
  · exact .inl hold
  · refine .inr ⟨hworld.issued hissued, fun hc => ?_⟩
    rw [hrequested]
    exact hcause (Option.some.inj hc)

/-- A claim opens an execution of a stored run. -/
theorem opened_issued {w w' : World} {l : Step}
    (h : (service fun q => q.elsewhere = true).step w l w')
    (hw : w'.db.Enrolled) {process : ProcessId} {s : Slot} (hs : s ∈ l.opened process) :
    s.run ∈ w'.db.issued ∧ s.cancel = none := by
  unfold Step.opened at hs
  split at hs
  · next repo owner r =>
      obtain rfl := List.mem_singleton.1 hs
      obtain ⟨avail, db', rfl, hret⟩ := service_commit h
      refine ⟨?_, rfl⟩
      cases Request.effect hret with
      | moves _ hclaim => cases hclaim repo owner true rfl
      | submit request => cases request
      | claim request hstart hmoves hreply started =>
          cases hreply
          rcases started with ⟨heq, -⟩ | ⟨heq, hquiet⟩
          · cases heq
          · obtain rfl := Option.some.inj heq
            obtain ⟨r', hr', -⟩ := hquiet.find? hstart.row
            exact hw _ r' hr'
  · simp at hs

theorem Workers.Sound.service {process : ProcessId} {l : Step} (h : p.Sound)
    (hstep : (GraphHarbor.service fun q => q.elsewhere = true).step p.world l p'.world)
    (hcontrol : p'.control = p.control) (hslots : p'.slots = p.slots ++ l.opened process)
    (hrequested : p'.requested = p.requested ++ l.requested p.world.db) : p'.Sound := by
  have hdb := service_continues hstep
  have hsubset : p.requested ⊆ p'.requested := hrequested ▸ List.subset_append_left _ _
  refine h.next hcontrol hdb ?_ hsubset fun s hs => ?_
  -- a request that names the run is in `requested` after it
  · have hold := h.attributed.mono fun x hx => hsubset hx
    rcases service_step hstep with ⟨d, rfl, hw⟩ | ⟨q, e, rfl, hw⟩ |
      ⟨q, a, avail, db', rfl, hq, hw, hret⟩
    · exact hw ▸ hold
    · exact hw ▸ hold
    · rw [hw]
      refine Request.attributed hq hold (fun x hx hstored => ?_) hret
      rw [hrequested]
      exact List.mem_append_right _ (List.mem_filter.2 ⟨hx, hstored⟩)
  -- the new executions have not been stopped by anything
  · rw [hslots, List.mem_append] at hs
    refine hs.imp_right fun hnew => ?_
    obtain ⟨hissued, hnone⟩ := opened_issued hstep (hdb.enrolled h.enrolled) hnew
    exact ⟨hissued, fun hc => by rw [hnone] at hc; cases hc⟩

theorem Db.Over.settled {owner : String} (h : v.Over id) : v.settled id owner = true := by
  unfold Db.settled
  cases hr : v.runs.find? id with
  | none => rfl
  | some r => simp [h.ended r hr]

/-- A step of the messages: the keys are those of requested cancels. -/
theorem Workers.Sound.message {l : ControlStep} {control : Control} (h : p.Sound)
    (hcancels : ∀ id, l.cancels = some id → id ∈ p.requested)
    (hnext : p.control.next l = some control) (hplain : Control.plainNames l = true) :
    Workers.Sound { p with control } where
  plain := Control.plain_inductive.step _ l _ h.plain ⟨hnext, hplain⟩
  asked threadId runId m hm := by
    rcases (Control.next_moves hnext).cancels_cases h.plain hm with hold |
      ⟨c, runId', threadId', rfl, hscope⟩
    · exact h.asked threadId runId m hold
    · obtain ⟨-, rfl⟩ := Scope.run.inj hscope
      exact hcancels runId rfl
  enrolled := h.enrolled
  attributed := h.attributed
  issued := h.issued
  noticed := h.noticed

/-- `_cancel_requested` is right about the run of an execution. -/
theorem Workers.Sound.cancelRequested (h : p.Sound) {s : Slot} (hs : s ∈ p.slots)
    (hrequested : p.cancelRequested s = true) :
    s.run ∈ p.requested ∨ p.world.db.Over s.run := by
  rcases Bool.or_eq_true_iff.1 hrequested with hkey | hended
  · obtain ⟨m, hm⟩ := h.plain.requested hkey
    exact .inl (h.asked s.threadId s.run m hm)
  · refine .inr ⟨h.issued s hs, fun r hr => ?_⟩
    simpa [hr] using hended

/-- An input of the workers, which are in the process 0. -/
inductive WorkersInput
  | service (i : Input)
  | message (l : ControlStep)
  | raise (i : Nat)
  | notice (i : Nat)
  | cancelled (i : Nat)

def Step.elsewhere : Step → Bool
  | .tick _ => true
  | .call q _ => q.elsewhere

def Workers.next (p : Workers) : WorkersInput → Option (Action × Workers)
  | .service i => do
      let (l, w) ← p.world.next i
      if l.elsewhere then
        some (.service 0 l,
          ⟨w, p.control, p.slots ++ l.opened 0, p.requested ++ l.requested p.world.db⟩)
      else none
  | .message l => do
      let control ← p.control.next l
      if l.cancels.all (· ∈ p.requested) then some (.message l, { p with control }) else none
  | .raise i => do
      let s ← p.beating i
      some (.raise i, { p with slots := p.slots.set i (s.stoppedBy .raised) })
  | .notice i => do
      let s ← p.beating i
      if p.cancelRequested s then
        some (.notice i, { p with slots := p.slots.set i (s.stoppedBy .requested) })
      else none
  | .cancelled i => do
      let s ← p.stopped i
      let (l, w) ← p.world.next (.call (.finalizeCancelled s.run s.threadId s.owner))
      match l with
      | .tick _ => none
      | .call _ r => some (.cancelled i r, { p with world := w, slots := p.slots.eraseIdx i })

theorem World.next_elsewhere {w w' : World} {i : Input} {l : Step}
    (h : w.next i = some (l, w')) (hl : l.elsewhere = true) :
    (service fun q => q.elsewhere = true).step w l w' := by
  have hstep := World.next_step h
  cases l with
  | tick => exact hstep
  | call q r => exact ⟨hl, hstep.2⟩

theorem Workers.next_step {i : WorkersInput} {l : Action} (h : p.next i = some (l, p')) :
    workers.step p l p' := by
  cases i with
  | service i =>
      obtain ⟨⟨l₀, w⟩, hnext, h⟩ := Option.bind_eq_some_iff.1 h
      simp only [Option.ite_none_right_eq_some] at h
      obtain ⟨hl, h⟩ := h
      obtain ⟨rfl, rfl⟩ := Prod.mk.inj (Option.some.inj h)
      exact ⟨World.next_elsewhere hnext hl, rfl, rfl, rfl⟩
  | message l₀ =>
      obtain ⟨control, hnext, h⟩ := Option.bind_eq_some_iff.1 h
      simp only [Option.ite_none_right_eq_some] at h
      obtain ⟨hcancels, h⟩ := h
      obtain ⟨rfl, rfl⟩ := Prod.mk.inj (Option.some.inj h)
      refine ⟨fun id hid => ?_, control, hnext, rfl⟩
      simpa [hid] using hcancels
  | raise i =>
      obtain ⟨s, hs, h⟩ := Option.bind_eq_some_iff.1 h
      obtain ⟨rfl, rfl⟩ := Prod.mk.inj (Option.some.inj h)
      exact ⟨s, hs, rfl⟩
  | notice i =>
      obtain ⟨s, hs, h⟩ := Option.bind_eq_some_iff.1 h
      simp only [Option.ite_none_right_eq_some] at h
      obtain ⟨hrequested, h⟩ := h
      obtain ⟨rfl, rfl⟩ := Prod.mk.inj (Option.some.inj h)
      exact ⟨s, hs, hrequested, rfl⟩
  | cancelled i =>
      obtain ⟨s, hs, h⟩ := Option.bind_eq_some_iff.1 h
      obtain ⟨⟨l₀, w⟩, hnext, h⟩ := Option.bind_eq_some_iff.1 h
      have hstep := World.next_step hnext
      obtain ⟨⟨r, db⟩, -, heq⟩ := Option.map_eq_some_iff.1 hnext
      obtain ⟨rfl, -⟩ := Prod.mk.inj heq
      obtain ⟨rfl, rfl⟩ := Prod.mk.inj (Option.some.inj h)
      exact ⟨s, hs, hstep, rfl, rfl, rfl⟩

/-- The next state, when the action meets the condition. -/
def Workers.nextIf (ok : Workers → Action → Bool) (p : Workers) (i : WorkersInput) :
    Option Workers := do
  let (l, p') ← p.next i
  if ok p l then some p' else none

/-- No run was submitted yet. -/
def Workers.started : Workers := ⟨⟨twoThreads, 0⟩, {}, [], []⟩

theorem Workers.play_reachable {ok : Workers → Action → Bool} {inputs : List WorkersInput}
    {check : Workers → Bool}
    (h : (TSys.play (Workers.nextIf ok) started inputs).any check = true) :
    ∃ p, (workers.restrict fun p l => ok p l = true).Reachable p ∧ check p = true := by
  refine TSys.play_reachable (fun p i p' h => ?_) ⟨Db.fresh_fresh _ _, rfl, rfl, rfl⟩ h
  obtain ⟨⟨l, p₁⟩, hnext, h⟩ := Option.bind_eq_some_iff.1 h
  simp only [Option.ite_none_right_eq_some] at h
  obtain ⟨hok, h⟩ := h
  obtain rfl := Option.some.inj h
  exact ⟨l, Workers.next_step hnext, hok⟩

/-- A worker claims run 1. -/
def claimScript : List WorkersInput :=
  [.service (.call (.runsCreate .default (submission 1 1))), .service (.tick 1),
    .service (.call (.claim .default "a" true))]

/-- Run 1 has this status and reason, and nobody requested an interrupt. -/
def Workers.ends (status : RunStatus) (reason : RunReason) (p : Workers) : Bool :=
  p.requested.isEmpty &&
    (p.world.db.runs.find? 1).any fun r => r.status = status && r.reason = some reason

theorem Workers.not_attributed (h : p.ends .interrupted .cancelRequested = true) :
    ¬ ∀ x r, p.world.db.runs.find? x = some r → r.status = .interrupted →
      r.reason = some .cancelRequested → x ∈ p.requested := by
  intro hattributed
  simp only [Workers.ends, Bool.and_eq_true, Option.any_eq_true, decide_eq_true_eq,
    List.isEmpty_iff] at h
  obtain ⟨hnone, r, hr, hstatus, hreason⟩ := h
  have hrequested := hattributed 1 r hr hstatus hreason
  rw [hnone] at hrequested
  cases hrequested

/-- The worker of run 1 puts an event `controls`, and its heartbeat looks for a cancel. -/
def eventScript : List WorkersInput :=
  claimScript ++ (Control.putEvent 1 ['c', 'o', 'n', 't', 'r', 'o', 'l', 's']).map .message ++
    [.notice 0, .cancelled 0]

/-- So does an event whose name contains `control`, without any fault. -/
theorem event_name_cancels : ∃ p, (workers.restrict fun p l => p.settles l = true).Reachable p ∧
    ¬ ∀ x r, p.world.db.runs.find? x = some r → r.status = .interrupted →
      r.reason = some .cancelRequested → x ∈ p.requested := by
  obtain ⟨p, hreach, hp⟩ := Workers.play_reachable
    (show (TSys.play (Workers.nextIf Workers.settles) .started
      eventScript).any (Workers.ends .interrupted .cancelRequested) = true by decide +kernel)
  exact ⟨p, hreach, Workers.not_attributed hp⟩

end GraphHarbor
