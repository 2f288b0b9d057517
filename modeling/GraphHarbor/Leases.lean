import GraphHarbor.Attempts

/-!
# The two copies of a lease

A claim stores the lease in `runs` and in `run_leases`. The copies agree after every
transaction. Inside one they do not: a release clears the columns of the run first and
deletes the row of `run_leases` later. `Db.MirrorsOff P` is the invariant in between, with
the runs of `P` released and their rows still to be deleted.
-/

namespace GraphHarbor

open Kit Txn

variable {now : Time} {v v' w : Db} {avail : Lock → Bool} {id x : RunId} {r r' : RunRow}
  {th : Option ThreadId} {α β : Type} {P Q : RunId → Prop}

/-! ## The invariant -/

/-- The rows of one run in the two tables. -/
def Mirror : Option RunRow → Option RunLeaseRow → Prop
  | none, l => l = none
  | some r, none => r.leaseOwner = none ∧ r.status ≠ .running
  | some r, some l => r.leaseOwner = some l.owner ∧ r.leaseExpiresAt = some l.expiresAt ∧
      r.retryCount = l.generation ∧ r.status ≠ .pending ∧ (r.status = .running → r.reason = none)

/-- The invariant for the run `x`; a stored lease of a deleted run would break it too. -/
def Db.MirrorAt (v : Db) (x : RunId) : Prop := Mirror (v.runs.find? x) (v.leases.find? x)

/-- The run is not leased and does not run. -/
def RunRow.Free (r : RunRow) : Prop := r.leaseOwner = none ∧ r.status ≠ .running

/-- The run `x`, if it is stored, is free. -/
def Db.FreeAt (v : Db) (x : RunId) : Prop := ∀ r, v.runs.find? x = some r → r.Free

/-- The copies of the lease agree, except that the runs of `P` are released and may still
have a lease row. -/
def Db.MirrorsOff (P : RunId → Prop) (v : Db) : Prop :=
  ∀ x, (P x → v.FreeAt x) ∧ (¬ P x → v.MirrorAt x)

/-- The copies of every lease agree. -/
abbrev Db.Mirrored (v : Db) : Prop := v.MirrorsOff fun _ => False

/-- The columns of the lease and of the attempt did not change. -/
structure RunRow.SameLease (r r' : RunRow) : Prop where
  leaseOwner : r'.leaseOwner = r.leaseOwner
  leaseExpiresAt : r'.leaseExpiresAt = r.leaseExpiresAt
  retryCount : r'.retryCount = r.retryCount
  status : r'.status = r.status
  reason : r'.reason = r.reason

/-- Bookkeeping leaves the lease alone. -/
theorem RunRow.Quiet.sameLease (h : r.Quiet r') : r.SameLease r' :=
  ⟨h.leaseOwner, h.leaseExpiresAt, h.retryCount, h.status, h.reason⟩

/-- A free run stays free. -/
theorem RunRow.SameLease.free (h : r.SameLease r') (hr : r.Free) : r'.Free :=
  ⟨h.leaseOwner ▸ hr.1, h.status ▸ hr.2⟩

/-- The run may change in its other columns next to the same lease. -/
theorem Mirror.sameLease {l : Option RunLeaseRow} (h : r.SameLease r')
    (hr : Mirror (some r) l) : Mirror (some r') l := by
  cases l with
  | none => exact ⟨h.leaseOwner ▸ hr.1, h.status ▸ hr.2⟩
  | some l =>
      obtain ⟨howner, hexpires, hcount, hpending, hreason⟩ := hr
      exact ⟨h.leaseOwner ▸ howner, h.leaseExpiresAt ▸ hexpires, h.retryCount ▸ hcount,
        h.status ▸ hpending, by rwa [h.status, h.reason]⟩

namespace Db.Mirrored

theorem at_run (h : v.Mirrored) (x : RunId) : v.MirrorAt x := (h x).2 not_false

/-- A leased run has the lease row that mirrors it. -/
theorem leased (h : v.Mirrored) (hr : v.runs.find? id = some r) (howner : r.leaseOwner.isSome) :
    ∃ l, v.leases.find? id = some l ∧ Mirror (some r) (some l) := by
  have hmirror := h.at_run id
  unfold MirrorAt at hmirror
  rw [hr] at hmirror
  cases hl : v.leases.find? id with
  | none =>
      rw [hl] at hmirror
      simp [hmirror.1] at howner
  | some l => exact ⟨l, rfl, hl ▸ hmirror⟩

/-- A pending run is not leased. -/
theorem pending (h : v.Mirrored) (hr : v.runs.find? id = some r) (hp : r.status = .pending) :
    v.leases.find? id = none ∧ r.leaseOwner = none := by
  have hmirror := h.at_run id
  unfold MirrorAt at hmirror
  rw [hr] at hmirror
  cases hl : v.leases.find? id with
  | none =>
      rw [hl] at hmirror
      exact ⟨rfl, hmirror.1⟩
  | some l =>
      rw [hl] at hmirror
      exact absurd hp hmirror.2.2.2.1

end Db.Mirrored

/-! ## Steps inside a transaction -/

namespace Db.MirrorsOff

/-- Rows that keep their lease columns, next to the same lease table. -/
theorem of_rows (h : v.MirrorsOff P)
    (hruns : ∀ x, Option.Rel RunRow.SameLease (v.runs.find? x) (v'.runs.find? x))
    (hleases : v'.leases = v.leases) : v'.MirrorsOff P := by
  intro x
  have hx := hruns x
  refine ⟨fun hP r' hr' => ?_, fun hP => ?_⟩
  · rw [hr'] at hx
    cases hr : v.runs.find? x with
    | none => rw [hr] at hx; cases hx
    | some r =>
        rw [hr] at hx
        cases hx with
        | some hsame => exact hsame.free ((h x).1 hP r hr)
  · have hmirror := (h x).2 hP
    unfold MirrorAt at hmirror ⊢
    rw [hleases]
    revert hx hmirror
    cases v.runs.find? x <;> cases v'.runs.find? x <;> intro hx hmirror <;> cases hx
    · exact hmirror
    · next hsame => exact hmirror.sameLease hsame

/-- Recording an event disturbs neither copy. -/
theorem quiet (h : v.MirrorsOff P) (hquiet : v.QuietStep v') : v'.MirrorsOff P := by
  refine h.of_rows (fun x => ?_) hquiet.leases
  have hx := hquiet.runs x
  unfold Db.Same at hx
  revert hx
  cases v.runs.find? x <;> cases v'.runs.find? x <;> intro hx <;> cases hx
  · exact .none
  · next hq => exact .some hq.sameLease

/-- The run `id` is released. -/
theorem release (h : v.MirrorsOff P) {f : RunRow → RunRow} (hr : v.runs.find? id = some r)
    (hf : (r.assign f).Free) : (v.assignRun id f).MirrorsOff fun x => x = id ∨ P x := by
  intro x
  by_cases hx : x = id
  · subst hx
    refine ⟨fun _ r' hr' => ?_, fun hn => absurd (.inl rfl) hn⟩
    rw [Db.find?_assignRun, if_pos rfl, hr] at hr'
    obtain rfl := Option.some.inj hr'
    exact hf
  · have hrow : (v.assignRun id f).runs.find? x = v.runs.find? x := by
      rw [Db.find?_assignRun, if_neg hx]
    refine ⟨fun hP r' hr' => (h x).1 (hP.resolve_left hx) r' (hrow ▸ hr'), fun hn => ?_⟩
    unfold MirrorAt
    rw [hrow]
    exact (h x).2 fun hP => hn (.inr hP)

/-- The lease rows of the released runs are gone. -/
theorem settle (h : v.MirrorsOff P) (hruns : v'.runs = v.runs)
    (hgone : ∀ x, P x → v'.leases.find? x = none)
    (hkept : ∀ x, ¬ P x → v'.leases.find? x = v.leases.find? x) : v'.Mirrored := by
  refine fun x => ⟨False.elim, fun _ => ?_⟩
  unfold MirrorAt
  rw [hruns]
  by_cases hP : P x
  · rw [hgone x hP]
    cases hr : v.runs.find? x with
    | none => rfl
    | some r => exact (h x).1 hP r hr
  · rw [hkept x hP]
    exact (h x).2 hP

/-- The runs in between, described in other words. -/
theorem mono (h : v.MirrorsOff P) (hPQ : ∀ x, P x ↔ Q x) : v.MirrorsOff Q := fun x =>
  ⟨fun hQ => (h x).1 ((hPQ x).2 hQ), fun hQ => (h x).2 fun hP => hQ ((hPQ x).1 hP)⟩

/-- The step that ends the state in between: the row of the released run goes. -/
theorem deleteLease (h : v.MirrorsOff fun x => x = id ∨ False) : (v.deleteLease id).Mirrored := by
  refine h.settle rfl (fun x hx => ?_) fun x hx => ?_
  · rw [Db.deleteLease, Table.find?_erase, if_pos (by simpa using hx)]
  · rw [Db.deleteLease, Table.find?_erase, if_neg (by simpa using hx)]

end Db.MirrorsOff

namespace Db.Mirrored

/-- A run keeps its lease and stops running, or keeps its status. -/
theorem hold (h : v.Mirrored) {f : RunRow → RunRow} (hr : v.runs.find? id = some r)
    (hheld : r.leaseOwner.isSome) (howner : (r.assign f).leaseOwner = r.leaseOwner)
    (hexpires : (r.assign f).leaseExpiresAt = r.leaseExpiresAt)
    (hcount : (r.assign f).retryCount = r.retryCount)
    (hstatus : (r.assign f).status = .interrupted) : (v.assignRun id f).Mirrored := by
  refine fun x => ⟨False.elim, fun _ => ?_⟩
  unfold MirrorAt
  rw [Db.find?_assignRun]
  by_cases hx : x = id
  · subst hx
    obtain ⟨l, hl, hmirror⟩ := h.leased hr hheld
    rw [if_pos rfl, hr]
    change Mirror (some (r.assign f)) (v.leases.find? x)
    rw [hl]
    exact ⟨howner.trans hmirror.1, hexpires.trans hmirror.2.1, hcount.trans hmirror.2.2.1,
      by simp [hstatus], by simp [hstatus]⟩
  · rw [if_neg hx]
    exact h.at_run x

/-- A pending run ends; it has no lease row. -/
theorem endPending (h : v.Mirrored) {f : RunRow → RunRow} (hr : v.runs.find? id = some r)
    (hp : r.status = .pending) (howner : (r.assign f).leaseOwner = r.leaseOwner)
    (hstatus : (r.assign f).status ≠ .running) : (v.assignRun id f).Mirrored := by
  obtain ⟨hl, hnone⟩ := h.pending hr hp
  have hfree : (r.assign f).Free := ⟨howner.trans hnone, hstatus⟩
  refine (Db.MirrorsOff.release h hr hfree).settle rfl (fun x hx => ?_) fun x _ => rfl
  obtain rfl : x = id := by simpa using hx
  exact hl

/-- A run goes with its lease, by ON DELETE CASCADE. -/
theorem deleteRun (h : v.Mirrored) : (v.deleteRun id).Mirrored := by
  refine fun x => ⟨False.elim, fun _ => ?_⟩
  unfold MirrorAt
  simp only [Db.deleteRun, Table.find?_erase]
  by_cases hx : x = id
  · rw [if_pos hx, if_pos hx]
    rfl
  · rw [if_neg hx, if_neg hx]
    exact h.at_run x

/-- A submitted run has no lease, and no older run with its id left one. -/
theorem submit (h : v.Mirrored) (hsubmit : Submit r v v') : v'.Mirrored := by
  refine fun x => ⟨False.elim, fun _ => ?_⟩
  have hleases : v'.leases = v.leases := by rw [hsubmit.result]; rfl
  unfold MirrorAt
  rw [hsubmit.find?, hleases]
  by_cases hx : x = r.runId
  · have hmirror := h.at_run x
    have habsent := hsubmit.absent
    unfold MirrorAt at hmirror
    rw [key_run, ← hx] at habsent
    rw [habsent] at hmirror
    rw [if_pos hx, show v.leases.find? x = none from hmirror]
    exact ⟨hsubmit.submitted.leaseOwner, by simp [hsubmit.submitted.status]⟩
  · rw [if_neg hx]
    exact h.at_run x

end Db.Mirrored

/-! ## Programs that leave the leases alone -/

/-- The statement changes no copy of a lease, except that a run goes with its lease row. -/
def Stmt.KeepsLeases : (β : Type) → Stmt β → Prop
  | _, .assignRun _ f => ∀ r : RunRow, r.SameLease (r.assign f)
  | _, .updateRun _ f _ => ∀ r : RunRow, r.SameLease (f r)
  | _, .insertRun _ => False
  | _, .update _ g _ => ∀ v : Db, (g v).leases = v.leases
  | _, _ => True

/-- The program touches no copy of a lease, whatever the database returns to it. -/
abbrev Txn.KeepsLeases (p : Txn α) : Prop := Prog.All Stmt.KeepsLeases p

/-- Neither table was written. -/
theorem Db.Mirrored.of_same (h : v.Mirrored) (hruns : v'.runs = v.runs)
    (hleases : v'.leases = v.leases) : v'.Mirrored := by
  refine Db.MirrorsOff.of_rows h (fun x => ?_) hleases
  rw [hruns]
  cases v.runs.find? x with
  | none => exact .none
  | some r => exact .some ⟨rfl, rfl, rfl, rfl, rfl⟩

/-- Other columns of a run were written. -/
theorem Db.Mirrored.updateRun (h : v.Mirrored) {f : RunRow → RunRow} {hf}
    (hsame : ∀ r : RunRow, r.SameLease (f r)) : (v.updateRun id f hf).Mirrored := by
  refine Db.MirrorsOff.of_rows h (fun x => ?_) rfl
  simp only [Db.updateRun, Table.find?_modify]
  split
  · cases v.runs.find? x with
    | none => exact .none
    | some r => exact .some (hsame r)
  · cases v.runs.find? x with
    | none => exact .none
    | some r => exact .some ⟨rfl, rfl, rfl, rfl, rfl⟩

/-- The step lemma for the programs of this section. -/
theorem Stmt.direct_mirrored {s : Stmt β} {b : β} (hs : s.KeepsLeases)
    (h : s.direct avail v = some (.ok (b, v'))) (hv : v.Mirrored) : v'.Mirrored := by
  cases s with
  | insertRun => exact hs.elim
  | assignRun y f =>
      simp only [direct] at h
      (repeat' split at h) <;> simp only [Option.some.injEq, Except.ok.injEq, Prod.mk.injEq,
        reduceCtorEq] at h <;> obtain ⟨-, rfl⟩ := h
      · exact hv
      · exact hv.updateRun hs
  | updateRun y f hf =>
      simp only [direct] at h
      (repeat' split at h) <;> simp only [Option.some.injEq, Except.ok.injEq, Prod.mk.injEq,
        reduceCtorEq] at h <;> obtain ⟨-, rfl⟩ := h
      · exact hv
      · exact hv.updateRun hs
  | deleteRun y =>
      simp only [direct] at h
      (repeat' split at h) <;> simp only [Option.some.injEq, Except.ok.injEq, Prod.mk.injEq,
        reduceCtorEq] at h <;> obtain ⟨-, rfl⟩ := h
      · exact hv
      · exact hv.deleteRun
  | update f g hg =>
      obtain ⟨-, rfl⟩ := by simpa [direct] using h
      exact hv.of_same (hg v).1 (hs v)
  | _ =>
      simp only [direct] at h
      (repeat' split at h) <;> simp only [Option.some.injEq, Except.ok.injEq, Prod.mk.injEq,
        reduceCtorEq] at h <;> obtain ⟨-, rfl⟩ := h <;> exact hv.of_same rfl rfl

/-- The run lemma: such a program returns with the copies in agreement. -/
theorem Txn.KeepsLeases.mirrored {p : Txn α} (hp : p.KeepsLeases) {a : α}
    (h : p.Returns avail v a v') (hv : v.Mirrored) : v'.Mirrored :=
  Txn.preserves_of_all (fun _ _ _ _ _ hs hdirect => Stmt.direct_mirrored hs hdirect) hp h hv

section Programs

variable {run : RunRow} {t : ThreadId}

theorem captureBaseline_leases {thread : ThreadRow} :
    (captureBaseline now id thread).KeepsLeases := by
  refine .bind (.perform trivial) fun captured => ?_
  split
  · exact .ret
  · exact .bind (.perform trivial) fun _ => .bind (.perform trivial) fun _ =>
      .perform fun _ => rfl

theorem enterThread_leases : (enterThread now run).KeepsLeases := by
  unfold enterThread
  split
  · exact .ret
  · refine .bind (.perform trivial) fun thread => ?_
    split
    · exact .ret
    · refine .bind (.perform trivial) fun busy => ?_
      split
      · exact .ret
      · exact .bind captureBaseline_leases fun _ => .bind (.perform trivial) fun _ => .ret

/-- The run is deleted, or nothing but checkpoints changes. -/
theorem rollbackRun_leases {validateOnly : Bool} : (rollbackRun run validateOnly).KeepsLeases := by
  have hdelete (id : RunId) : (deleteRun id).KeepsLeases := .perform trivial
  have hto (b : RunCheckpointBaselineRow) : (rollbackTo b validateOnly).KeepsLeases := by
    refine .bind (.perform trivial) fun _ => ?_
    split
    · exact .throw
    · refine .bind (.perform trivial) fun _ => ?_
      split
      · exact .throw
      · split
        · exact .ret
        · exact .bind (.perform fun _ => rfl) fun _ => .bind (.perform trivial) fun _ => hdelete _
  unfold rollbackRun
  split
  · split
    · exact .ret
    · exact hdelete _
  · refine .bind (.perform trivial) fun thread => ?_
    split
    · exact .throw
    · refine .bind (.perform trivial) fun busy => ?_
      split
      · exact .throw
      · refine .bind (.perform trivial) fun baseline => ?_
        split
        · exact hto _
        · split
          · exact .throw
          · split
            · exact .ret
            · exact hdelete _

theorem completeRollback_leases {owner : Option String} :
    (completeRollback now owner id).KeepsLeases := by
  refine .bind (.perform trivial) fun row => ?_
  split
  · exact .ret
  · split
    · exact rollbackRun_leases
    · exact .ret

/-- The watermark is no column of the lease. -/
theorem pruneExpiredEvents_leases {retentionSeconds batchSize : Nat} :
    (pruneExpiredEvents now retentionSeconds batchSize).KeepsLeases := by
  have hmark (run : RunRow) (deleted : List Nat) : (markPruned run deleted).KeepsLeases := by
    refine .bind (.perform fun _ => ⟨rfl, rfl, rfl, rfl, rfl⟩) fun _ => ?_
    split
    · exact .ret
    · exact .perform trivial
  unfold pruneExpiredEvents
  split
  · exact .ret
  · refine .bind (.perform trivial) fun picked => ?_
    split
    · exact .ret
    · refine .bind (.perform trivial) fun batch => ?_
      split
      · exact .ret
      · refine .bind (.perform fun _ => rfl) fun deleted => ?_
        split
        · exact .ret
        · exact .bind (hmark _ _) fun _ => .ret

theorem authorizedRun_leases : (authorizedRun id).KeepsLeases := by
  refine .bind (.perform trivial) fun row => ?_
  split
  · exact .ret
  · split
    · exact .ret
    · exact .bind (.perform trivial) fun _ => .ret

theorem runsDelete_leases : (runsDelete id).KeepsLeases := by
  refine .bind authorizedRun_leases fun row => ?_
  split
  · exact .ret
  · exact .perform trivial

theorem threadsCreate_leases {graphId : Option String} :
    (threadsCreate now t graphId).KeepsLeases := .perform trivial

theorem deleteThreadCheckpoints_leases : (deleteThreadCheckpoints t).KeepsLeases :=
  .perform fun _ => rfl

theorem threadsDelete_leases : (threadsDelete t).KeepsLeases := by
  refine .bind (.perform trivial) fun thread => ?_
  split
  · exact .ret
  · exact .perform trivial

theorem threadsPrune_leases {blobs : List BlobKey} : (threadsPrune blobs t).KeepsLeases := by
  refine .bind (.perform trivial) fun thread => ?_
  split
  · exact .ret
  · refine .bind (.perform trivial) fun active => ?_
    split
    · exact .throw
    · exact .bind (.perform trivial) fun _ => .bind (.perform fun _ => rfl) fun _ =>
        .perform fun _ => rfl

theorem threadsUpdateState_leases : (threadsUpdateState now t).KeepsLeases := by
  refine .bind (.perform trivial) fun thread => ?_
  split
  · exact .ret
  · exact .perform trivial

theorem inputRespond_leases {interruptId : String} :
    (inputRespond t interruptId).KeepsLeases := by
  refine .bind (.perform trivial) fun thread => ?_
  split
  · exact .ret
  · refine .bind (.perform trivial) fun seen => ?_
    split
    · exact .perform trivial
    · exact .ret

variable {scope : CheckpointScope} {token : Option WriterToken} {requested : Option RunId}

/-- The checks of a checkpoint write read the lease and leave it. -/
theorem writer_leases : (writer now scope token requested).KeepsLeases := by
  have htoken : (checkToken now scope token).KeepsLeases := by
    cases token with
    | none => exact .ret
    | some token =>
        refine .bind (.perform trivial) fun run => ?_
        split
        · exact .throw
        · split
          · exact .ret
          · exact .throw
  have hunfenced (t : ThreadId) : (unfencedWriter t requested).KeepsLeases := by
    refine .bind (.perform trivial) fun active => ?_
    split
    · exact .throw
    · split
      · exact .perform fun _ => rfl
      · exact .ret
  refine .bind htoken fun _ => ?_
  unfold enterScope
  split
  · exact .ret
  · refine .bind (.perform trivial) fun _ => ?_
    split
    · exact hunfenced _
    · exact .ret

theorem aput_leases {row : CheckpointRow} : (aput now token requested row).KeepsLeases :=
  .bind writer_leases fun _ => .perform fun _ => rfl

theorem aputWrites_leases {rows : List CheckpointWriteRow} {overwrite : Bool} :
    (aputWrites now token requested scope rows overwrite).KeepsLeases :=
  .bind writer_leases fun _ => .perform fun _ => rfl

end Programs

/-! ## Programs that write a lease -/

section Leases

variable {repo : RunRepository} {owner : String}

/-- The deletion of the lease row as a program. -/
theorem deleteLease_settles {u : Unit} (h : (deleteLease id).Returns avail v u v')
    (hv : v.MirrorsOff fun x => x = id ∨ False) : v'.Mirrored := by
  rw [deleteLease_returns h]
  exact hv.deleteLease

/-- A renewal extends both copies or neither: the row of `run_leases` decides, and it belongs to
the owner of the run. -/
theorem renewLease_mirrored {expires : Time} {b : Bool} (hv : v.Mirrored)
    (hr : v.runs.find? id = some r) (howner : r.leaseOwner = some owner)
    (h : (renewLease now expires id owner).Returns avail v b v') : v'.Mirrored := by
  simp only [renewLease, returns_bind, returns_update] at h
  obtain ⟨renewed, v₁, ⟨hb, rfl⟩, h⟩ := h
  obtain ⟨l, hl, hmirror⟩ := hv.leased hr (by simp [howner])
  obtain ⟨hlo, hle, hlc, hlp, hlr⟩ := hmirror
  have hid : l.runId = id := Table.key_of_find? hl
  have hlease (x : RunId) : (v.leases.modify id (·.renewed now expires id owner)
      (RunLeaseRow.renewed_runId now expires id owner)).find? x =
        if x = id then (v.leases.find? x).map (·.renewed now expires id owner)
        else v.leases.find? x := Table.find?_modify _
  split at h
  · next hlive =>
      -- the live row is the one of this run
      obtain ⟨l', hl', hlive⟩ := List.any_eq_true.1 (hb ▸ hlive)
      have hll : l' = l := by
        have hid' : l'.runId = id := by
          simp only [RunLeaseRow.live, Bool.and_eq_true, decide_eq_true_eq] at hlive
          exact hlive.1.1
        have hfind := (Table.mem_iff_find? (t := v.leases)).1 hl'
        rw [key_lease, hid', hl] at hfind
        exact (Option.some.inj hfind).symm
      subst hll
      simp only [returns_bind, returns_updateRun, Prog.pure_eq, returns_ret] at h
      obtain ⟨_, v₂, hupdate, -, rfl⟩ := h
      replace hupdate := (hupdate.resolve_left fun hnone => by
        rw [show v.runs.find? id = none from hnone.1] at hr
        cases hr).2.2
      refine fun x => ⟨False.elim, fun _ => ?_⟩
      unfold Db.MirrorAt
      rw [hupdate]
      simp only [Db.updateRun, Table.find?_modify]
      by_cases hx : x = id
      · subst hx
        have hrow : r.renewed now expires owner =
            { r with leaseExpiresAt := some expires, heartbeatAt := some now, updatedAt := now } :=
          if_pos howner
        have hcopy : l'.renewed now expires x owner =
            { l' with expiresAt := expires, heartbeatAt := now } := if_pos hlive
        rw [if_pos rfl, if_pos rfl, hr, hl]
        change Mirror (some (r.renewed now expires owner)) (some (l'.renewed now expires x owner))
        rw [hrow, hcopy]
        exact ⟨hlo, rfl, hlc, hlp, hlr⟩
      · rw [if_neg hx, if_neg hx]
        exact hv.at_run x
  · next hdead =>
      obtain ⟨-, rfl⟩ := returns_ret.1 h
      have hsame : l.renewed now expires id owner = l := by
        refine if_neg fun hlive => hdead ?_
        rw [hb]
        exact List.any_eq_true.2 ⟨l, Table.mem_of_find? hl, hlive⟩
      refine fun x => ⟨False.elim, fun _ => ?_⟩
      have hx := hv.at_run x
      unfold Db.MirrorAt at hx ⊢
      change Mirror (v.runs.find? x) _
      rw [hlease]
      split
      · next heq =>
          subst heq
          rw [hl, Option.map_some, hsame, ← hl]
          exact hx
      · exact hx

/-- `renew` reaches the renewal only for the owner of a running run. -/
theorem renew_mirrored {b : Bool} (hv : v.Mirrored)
    (h : (renew repo now id owner).Returns avail v b v') : v'.Mirrored := by
  simp only [renew, returns_bind, returns_lockRun] at h
  obtain ⟨_, v, ⟨rfl, rfl, -⟩, h⟩ := h
  split at h
  · obtain ⟨-, rfl⟩ := returns_ret.1 h
    exact hv
  · next run hrun =>
      split at h
      · obtain ⟨-, rfl⟩ := returns_ret.1 h
        exact hv
      · next hown =>
          simp only [Bool.or_eq_true, decide_eq_true_eq, not_or, not_not] at hown
          exact renewLease_mirrored hv hrun hown.2 h

/-- The run is released, its row goes, and the events in between disturb neither. A target of
`running` would leave a running run without a lease. -/
theorem finish_mirrored {target : RunStatus} {reason : RunReason} {payload : Option Dict}
    {preceding : List (String × Dict × List String)} {es : Option (List RuntimeEventRow)}
    (htarget : target ≠ .running) (hv : v.Mirrored)
    (h : (finish now id owner target reason payload preceding).Returns avail v es v') :
    v'.Mirrored := by
  simp only [finish, returns_bind, returns_lockRun] at h
  obtain ⟨_, v, ⟨rfl, rfl, -⟩, h⟩ := h
  split at h
  · simp at h
  · next run hrun =>
      obtain rfl : run.runId = id := Table.key_of_find? hrun
      split at h
      · obtain ⟨-, rfl⟩ := returns_ret.1 h
        exact hv
      · split at h
        · simp at h
        · split at h
          · simp at h
          · simp only [finishRow, returns_bind, Prog.pure_eq, returns_ret] at h
            obtain ⟨events, _, ⟨before, v₁, hbefore, h⟩, -, rfl⟩ := h
            split at h
            · simp at h
            · next change hchange =>
                obtain ⟨rfl, -, -⟩ := transition_eq_some hchange
                simp only [returns_bind, returns_assignRun, returns_ret] at h
                obtain ⟨_, _, ⟨rfl, -⟩, _, v₃, hlease, last, _, hlast, -, rfl⟩ := h
                obtain ⟨r₁, hr₁, -⟩ := (recordPreceding_quiet hbefore).find? hrun
                -- from here to `deleteLease` the run is free and its lease row is still there
                have hreleased := (Db.MirrorsOff.quiet hv (recordPreceding_quiet hbefore)).release
                  (f := released now ⟨target, reason, run.retryCount⟩ none) hr₁ ⟨rfl, htarget⟩
                exact Db.MirrorsOff.quiet (deleteLease_settles hlease hreleased)
                  (recordEnd_quiet hlast)

/-- The same steps for a failure. -/
theorem fail_mirrored {infrastructure : Bool} {reason : RunReason} {payload : Option Dict}
    {e : Option RuntimeEventRow} (hv : v.Mirrored)
    (h : (fail repo now id owner infrastructure reason payload).Returns avail v e v') :
    v'.Mirrored := by
  simp only [fail, returns_bind, returns_lockRun] at h
  obtain ⟨_, v, ⟨rfl, rfl, -⟩, h⟩ := h
  split at h
  · simp at h
  · next run hrun =>
      split at h
      · simp at h
      · split at h
        · obtain ⟨-, rfl⟩ := returns_ret.1 h
          exact hv
        · split at h
          · simp at h
          · next change hchange =>
              obtain ⟨-, hstatus⟩ := failChange_eq_some hchange
              simp only [returns_bind, returns_assignRun, Prog.pure_eq, returns_ret] at h
              obtain ⟨_, _, ⟨rfl, -⟩, _, v₃, hlease, e, _, he, -, rfl⟩ := h
              have hreleased := Db.MirrorsOff.release hv (f := released now change
                (failNext repo now infrastructure run)) hrun
                  ⟨rfl, show change.status ≠ .running by rcases hstatus with hs | hs <;> simp [hs]⟩
              exact Db.MirrorsOff.quiet (deleteLease_settles hlease hreleased)
                (recordRunEvent_quiet he)

/-- The same steps for a drain, with the thread written in between. -/
theorem requeueForShutdown_mirrored {drained : Bool} {e : Option RuntimeEventRow}
    (hv : v.Mirrored) (h : (requeueForShutdown repo now id owner drained).Returns avail v e v') :
    v'.Mirrored := by
  simp only [requeueForShutdown, returns_bind, returns_lockRun] at h
  obtain ⟨_, v, ⟨rfl, rfl, -⟩, h⟩ := h
  split at h
  · simp at h
  · next run hrun =>
      split at h
      · simp at h
      · split at h
        · obtain ⟨-, rfl⟩ := returns_ret.1 h
          exact hv
        · split at h
          · simp at h
          · next change hchange =>
              obtain ⟨rfl, -, -⟩ := transition_eq_some hchange
              simp only [returns_bind, returns_assignRun, Prog.pure_eq, returns_ret] at h
              obtain ⟨_, _, ⟨rfl, -⟩, _, v₂, hthread, _, v₃, hlease, e, _, he, -, rfl⟩ := h
              have hreleased := (Db.MirrorsOff.release hv (f := shutDown repo now drained
                ⟨.pending, .shutdownRequeue, run.retryCount⟩) hrun
                  ⟨rfl, by simp [RunRow.assign, shutDown, released]⟩).quiet
                    (updateThreadOf_quiet hthread)
              exact Db.MirrorsOff.quiet (deleteLease_settles hlease hreleased)
                (recordRunEvent_quiet he)

/-- A cancelled run loses the lease it kept. -/
theorem releaseLease_mirrored {u : Unit} (hv : v.Mirrored)
    (h : (releaseLease id th owner).Returns avail v u v') : v'.Mirrored := by
  simp only [releaseLease, returns_bind, returns_lockRunIf, Bool.false_eq_true, false_and,
    and_false, or_false] at h
  obtain ⟨_, v, ⟨rfl, rfl, -⟩, h⟩ := h
  split at h
  · obtain ⟨-, rfl⟩ := returns_ret.1 h
    exact hv
  · next r hr =>
      obtain ⟨hr, hstopped⟩ := Option.filter_eq_some_iff.1 hr
      simp only [stoppedBy, Bool.and_eq_true, decide_eq_true_eq] at hstopped
      -- a cancelled run that is still leased does not run
      have hstatus : r.status ≠ .running := fun hrunning => by
        obtain ⟨l, -, hmirror⟩ := hv.leased hr (by simp [hstopped.1])
        have hnone := hmirror.2.2.2.2 hrunning
        rw [hstopped.2] at hnone
        cases hnone
      simp only [returns_bind, returns_assignRun] at h
      obtain ⟨_, _, ⟨rfl, -⟩, _, v₂, hlease, thread, v₃, hthread, h⟩ := h
      obtain ⟨-, rfl⟩ := getThreadOf_returns hthread
      have hreleased := Db.MirrorsOff.release hv (f := (·.withoutLease)) hr ⟨rfl, hstatus⟩
      exact Db.MirrorsOff.quiet (deleteLease_settles hlease hreleased) (assignLoaded_quiet h)

/-- The reclaimed runs are released; their lease rows go at the end. -/
theorem requeueAll_mirrors {runs : List RunRow} {es : List RuntimeEventRow}
    (hnodup : (runs.map (·.runId)).Nodup)
    (hrows : ∀ r ∈ runs, ∃ r', v.runs.find? r.runId = some r') (hv : v.MirrorsOff P)
    (h : (requeueAll repo now runs).Returns avail v es v') :
    v'.MirrorsOff fun x => P x ∨ x ∈ runs.map (·.runId) := by
  induction runs generalizing v es P with
  | nil =>
      obtain ⟨-, rfl⟩ := returns_ret.1 h
      exact hv.mono fun x => by simp
  | cons run runs ih =>
      simp only [requeueAll, returns_bind, Prog.pure_eq, returns_ret] at h
      obtain ⟨e, v₁, hone, rest, _, hrest, -, rfl⟩ := h
      simp only [List.map_cons, List.nodup_cons] at hnodup
      obtain ⟨r, hr⟩ := hrows run (by simp)
      unfold requeueOne at hone
      split at hone
      · simp at hone
      · next change hchange =>
          obtain ⟨-, hstatus⟩ := expiryChange_eq_some hchange
          simp only [returns_bind, returns_assignRun] at hone
          obtain ⟨_, _, ⟨rfl, -⟩, _, v₂, hthread, hone⟩ := hone
          have hfree : (r.assign (reaped repo now change)).Free :=
            ⟨rfl, show change.status ≠ .running by rcases hstatus with hs | hs <;> simp [hs]⟩
          have hquiet := (updateThreadOf_quiet hthread).trans (recordRunEvent_quiet hone)
          have hreleased := (hv.release hr hfree).quiet hquiet
          -- one more run is in between; its row stays until the loop is over
          refine (ih hnodup.2 (fun r₁ hr₁ => ?_) hreleased hrest).mono fun x => ?_
          · have hne : r₁.runId ≠ run.runId := fun heq =>
              hnodup.1 (heq ▸ List.mem_map_of_mem hr₁)
            obtain ⟨r₂, hr₂⟩ := hrows r₁ (by simp [hr₁])
            have hother : (v.assignRun run.runId (reaped repo now change)).runs.find? r₁.runId =
                some r₂ := by rw [Db.find?_assignRun, if_neg hne, hr₂]
            obtain ⟨r₃, hr₃, -⟩ := hquiet.find? hother
            exact ⟨r₃, hr₃⟩
          · rw [List.map_cons, List.mem_cons]
            tauto

/-- The reaper's batch: all runs are released in the loop, all rows go at its end. -/
theorem requeueExpired_mirrored {es : List RuntimeEventRow} (hv : v.Mirrored)
    (h : (requeueExpired repo now).Returns avail v es v') : v'.Mirrored := by
  simp only [requeueExpired, returns_bind, returns_write, Prog.pure_eq, returns_ret] at h
  obtain ⟨runs, _, hruns, es, v₁, hall, _, _, rfl, -, rfl⟩ := h
  obtain ⟨rfl, hrows, hnodup⟩ := lockRuns_rows hruns
  have hreleased := requeueAll_mirrors hnodup (fun r hr => ⟨r, ((hrows r).1 hr).1⟩) hv hall
  refine hreleased.settle rfl (fun x hx => ?_) fun x hx => ?_
  · obtain ⟨r, hr, rfl⟩ := List.mem_map.1 (hx.resolve_left id)
    refine Table.find?_eq_none.2 fun l hl heq => ?_
    have hkept := (Table.mem_filter.1 hl).2
    rw [key_lease] at heq
    simp only [Bool.not_eq_true', List.any_eq_false, decide_eq_true_eq] at hkept
    exact hkept r hr heq.symm
  · refine Table.find?_congr fun l hl => ?_
    rw [Table.mem_filter]
    refine ⟨And.left, fun hmem => ⟨hmem, ?_⟩⟩
    rw [key_lease] at hl
    simp only [Bool.not_eq_true', List.any_eq_false, decide_eq_true_eq]
    rintro r hr heq
    exact hx (.inr (List.mem_map.2 ⟨r, hr, heq.trans hl⟩))

/-- The claim writes both copies; a stale row of the run would be overwritten. -/
theorem startRun_mirrored {run : RunRow} {a : Option RunRow} (hv : v.Mirrored)
    (hrun : v.runs.find? run.runId = some run)
    (h : (startRun repo now owner run).Returns avail v a v') : v'.Mirrored := by
  simp only [startRun, returns_bind] at h
  obtain ⟨b, v₁, henter, h⟩ := h
  have hv₁ := enterThread_leases.mirrored henter hv
  have hrow : v₁.runs.find? run.runId = some run := by
    rw [(enterThread_returns henter).runs, hrun]
  split at h
  · simp only [returns_bind, returns_assignRun, returns_write, returns_getRun] at h
    obtain ⟨_, _, ⟨rfl, -⟩, _, _, rfl, -, rfl⟩ := h
    refine fun x => ⟨False.elim, fun _ => ?_⟩
    unfold Db.MirrorAt
    change Mirror ((v₁.assignRun run.runId (claimed repo now owner)).runs.find? x)
      ((v₁.leases.upsert _).find? x)
    rw [Db.find?_assignRun, Table.find?_upsert, key_lease]
    by_cases hx : x = run.runId
    · subst hx
      rw [if_pos rfl, if_pos rfl, hrow]
      exact ⟨rfl, rfl, rfl, by simp [RunRow.assign, claimed], fun _ => rfl⟩
    · rw [if_neg hx, if_neg hx]
      exact hv₁.at_run x
  · obtain ⟨-, rfl⟩ := returns_ret.1 h
    exact hv₁

/-- A claim starts the run, ends it, or passes it over. -/
theorem claimNext_mirrored {a : Option RunRow} (hv : v.Mirrored)
    (h : (claimNext repo now owner).Returns avail v a v') : v'.Mirrored := by
  simp only [claimNext, returns_bind] at h
  obtain ⟨picked, v₁, hpick, h⟩ := h
  split at h
  · obtain ⟨-, rfl⟩ := returns_pickRun.1 hpick
    obtain ⟨-, rfl⟩ := returns_ret.1 h
    exact hv
  · next run =>
      obtain ⟨rfl, hrun, heligible, -⟩ := pickRun_eligible hpick
      simp only [returns_bind] at h
      obtain ⟨b, v₂, hb, h⟩ := h
      obtain rfl := recheck_returns hb
      split at h
      · split at h
        · simp only [exhaust, returns_bind, returns_assignRun, Prog.pure_eq, returns_ret] at h
          obtain ⟨_, _, ⟨_, _, ⟨rfl, -⟩, _, v₃, hthread, e, _, he, -, rfl⟩, -, rfl⟩ := h
          have hended := hv.endPending (f := exhausted now) hrun (eligible_pending heligible) rfl
            (by simp [RunRow.assign, exhausted])
          exact Db.MirrorsOff.quiet hended
            ((updateThreadOf_quiet hthread).trans (recordRunEvent_quiet he))
        · exact startRun_mirrored hv hrun h
      · obtain ⟨-, rfl⟩ := returns_ret.1 h
        exact hv

/-- What follows the claim may end the run again. -/
theorem claimRun_mirrored {valid : Bool} {a : Option RunRow} (hv : v.Mirrored)
    (h : (claimRun repo now owner valid).Returns avail v a v') : v'.Mirrored := by
  simp only [claimRun, returns_bind] at h
  obtain ⟨claim, v₁, hclaim, h⟩ := h
  have hv₁ := claimNext_mirrored hv hclaim
  split at h
  · obtain ⟨-, rfl⟩ := returns_ret.1 h
    exact hv₁
  · simp only [enterRun, returns_bind, returns_query] at h
    obtain ⟨thread, v₂, hthread, _, _, ⟨rfl, rfl⟩, h⟩ := h
    obtain ⟨-, rfl⟩ := getThreadOf_returns hthread
    split at h
    · simp only [returns_bind, Prog.pure_eq, returns_ret] at h
      obtain ⟨e, _, hfail, -, rfl⟩ := h
      exact fail_mirrored hv₁ hfail
    · split at h
      · obtain ⟨-, rfl⟩ := returns_ret.1 h
        exact hv₁
      · simp only [returns_bind, returns_assignThread, Prog.pure_eq, returns_ret] at h
        obtain ⟨_, _, ⟨rfl, -⟩, -, rfl⟩ := h
        exact Db.MirrorsOff.quiet hv₁ .assignThread

/-- A running run keeps both copies, a pending one has none. -/
theorem cancelRow_mirrored {action : CancelAction} {u : Unit} (hv : v.Mirrored)
    (h : (cancelRow now id action).Returns avail v u v') : v'.Mirrored := by
  simp only [cancelRow, returns_bind, returns_lockRunIf] at h
  obtain ⟨a, v, ⟨rfl, ⟨rfl, -⟩ | ⟨-, hskip, -⟩⟩, h⟩ := h
  · split at h
    · obtain ⟨-, rfl⟩ := returns_ret.1 h
      exact hv
    · next row hrow =>
        replace hrow := (Option.filter_eq_some_iff.1 hrow).1
        obtain rfl : row.runId = id := Table.key_of_find? hrow
        cases action with
        | rollback =>
            simp only [rollbackRow, returns_bind] at h
            obtain ⟨_, v₁, hvalidate, h⟩ := h
            obtain rfl := rollbackRun_validate hvalidate
            split at h
            · exact rollbackRun_leases.mirrored h hv
            · next howner =>
                obtain ⟨rfl, -⟩ := returns_assignRun.1 h
                exact hv.hold hrow (by simpa [Option.isSome_iff_ne_none] using howner)
                  rfl rfl rfl rfl
        | interrupt =>
            simp only [interruptRow] at h
            split at h
            · obtain ⟨-, rfl⟩ := returns_ret.1 h
              exact hv
            · next hlive =>
                split at h
                · simp at h
                · next change hchange =>
                    obtain ⟨rfl, -, -⟩ := transition_eq_some hchange
                    simp only [returns_bind, returns_assignRun, Prog.pure_eq, returns_ret] at h
                    obtain ⟨_, _, ⟨rfl, -⟩, _, v₁, hlease, e, _, he, -, rfl⟩ := h
                    refine Db.MirrorsOff.quiet ?_ (recordRunEvent_quiet he)
                    by_cases hrunning : row.status = .running
                    · -- the execution keeps its lease until it has stopped
                      simp only [hrunning, decide_true, deleteLeaseUnless, if_true] at hlease
                      obtain ⟨-, rfl⟩ := returns_ret.1 hlease
                      have hheld : row.leaseOwner.isSome := by
                        have hmirror := hv.at_run row.runId
                        unfold Db.MirrorAt at hmirror
                        rw [hrow] at hmirror
                        cases hl : v.leases.find? row.runId with
                        | none =>
                            rw [hl] at hmirror
                            exact absurd hrunning hmirror.2
                        | some l =>
                            rw [hl] at hmirror
                            simp [hmirror.1]
                      refine hv.hold hrow hheld ?_ ?_ rfl rfl <;>
                        simp [RunRow.assign, RunRow.interruptedBy]
                    · simp only [hrunning, decide_false, deleteLeaseUnless, if_false,
                        Bool.false_eq_true] at hlease
                      refine deleteLease_settles hlease (Db.MirrorsOff.release hv hrow ⟨?_, ?_⟩) <;>
                        simp [RunRow.assign, RunRow.interruptedBy]
  · cases hskip

/-- The cancelled part of a queue, run by run. -/
theorem interruptAll_mirrored {ids : List RunId} {u : Unit} (hv : v.Mirrored)
    (h : (interruptAll now ids).Returns avail v u v') : v'.Mirrored := by
  induction ids generalizing v with
  | nil =>
      obtain ⟨-, rfl⟩ := returns_ret.1 h
      exact hv
  | cons id ids ih =>
      simp only [interruptAll, returns_bind] at h
      obtain ⟨_, v₁, hcancel, h⟩ := h
      exact ih (cancelRow_mirrored hv hcancel) h

/-- A reorder writes places, a cancel ends the runs it names. -/
theorem runsQueue_mirrored {t : ThreadId} {operation : QueueOperation}
    {expected requested : List RunId} {u : Unit} (hv : v.Mirrored)
    (h : (runsQueue now t operation expected requested).Returns avail v u v') : v'.Mirrored := by
  simp only [runsQueue, returns_bind, returns_lockThread] at h
  obtain ⟨_, v, ⟨rfl, rfl, -⟩, h⟩ := h
  split at h
  · simp at h
  · simp only [returns_bind, returns_query] at h
    obtain ⟨rows, _, hrows, _, _, ⟨rfl, rfl⟩, h⟩ := h
    obtain ⟨rfl, -⟩ := lockRuns_rows hrows
    split at h
    · simp at h
    · split at h
      · exact Db.MirrorsOff.quiet hv (assignPositions_quiet h)
      · exact interruptAll_mirrored hv h

/-- A finalisation ends the attempt and then writes the thread. -/
theorem finalizeSuccess_mirrored {out : GraphOutput} {es : List RuntimeEventRow}
    (hv : v.Mirrored) (h : (finalizeSuccess now id th owner out).Returns avail v es v') :
    v'.Mirrored := by
  simp only [finalizeSuccess, returns_bind, returns_getRun] at h
  obtain ⟨_, v, ⟨rfl, rfl⟩, thread, v₁, hthread, h⟩ := h
  obtain ⟨-, rfl⟩ := getThreadOf_returns hthread
  split at h
  · obtain ⟨-, rfl⟩ := returns_ret.1 h
    exact hv
  · split at h
    · obtain ⟨-, rfl⟩ := returns_ret.1 h
      exact hv
    · simp only [returns_bind] at h
      obtain ⟨events, v₂, hfinish, h⟩ := h
      have hv₂ := finish_mirrored out.status_ne hv hfinish
      split at h
      · obtain ⟨-, rfl⟩ := returns_ret.1 h
        exact hv₂
      · simp only [returns_bind, Prog.pure_eq, returns_ret] at h
        obtain ⟨_, _, hproject, -, rfl⟩ := h
        exact Db.MirrorsOff.quiet hv₂ (assignLoaded_quiet hproject)

theorem finalizeCancelled_mirrored {es : List RuntimeEventRow} (hv : v.Mirrored)
    (h : (finalizeCancelled now id th owner).Returns avail v es v') : v'.Mirrored := by
  simp only [finalizeCancelled, returns_bind, returns_getRun] at h
  obtain ⟨_, v, ⟨rfl, rfl⟩, h⟩ := h
  split at h
  · obtain ⟨-, rfl⟩ := returns_ret.1 h
    exact hv
  · split at h
    · obtain ⟨-, rfl⟩ := returns_ret.1 h
      exact hv
    · simp only [returns_bind] at h
      obtain ⟨events, v₂, hfinish, h⟩ := h
      have hv₂ := finish_mirrored (by simp) hv hfinish
      split at h
      · obtain ⟨-, rfl⟩ := returns_ret.1 h
        exact hv₂
      · simp only [returns_bind, Prog.pure_eq, returns_ret] at h
        obtain ⟨thread, _, hthread, _, _, hassign, -, rfl⟩ := h
        obtain ⟨-, rfl⟩ := getThreadOf_returns hthread
        exact Db.MirrorsOff.quiet hv₂ (assignLoaded_quiet hassign)

theorem endFailed_mirrored {run : RunRow} {failure : Failure} {type message : String}
    {es : List RuntimeEventRow} (hv : v.Mirrored)
    (h : (endFailed repo now run owner failure type message).Returns avail v es v') :
    v'.Mirrored := by
  cases failure <;> simp only [endFailed, returns_bind, Prog.pure_eq, returns_ret] at h <;>
    obtain ⟨_, _, h, -, rfl⟩ := h
  · exact finish_mirrored (by simp) hv h
  · exact fail_mirrored hv h
  · exact fail_mirrored hv h

/-- The thread is written first, then the attempt ends. -/
theorem finalizeFailure_mirrored {failure : Failure} {type message : String}
    {es : List RuntimeEventRow} (hv : v.Mirrored)
    (h : (finalizeFailure repo now id th owner failure type message).Returns avail v es v') :
    v'.Mirrored := by
  simp only [finalizeFailure, returns_bind, returns_getRun] at h
  obtain ⟨_, v, ⟨rfl, rfl⟩, h⟩ := h
  split at h
  · obtain ⟨-, rfl⟩ := returns_ret.1 h
    exact hv
  · split at h
    · obtain ⟨-, rfl⟩ := returns_ret.1 h
      exact hv
    · simp only [returns_bind] at h
      obtain ⟨thread, _, hthread, _, v₁, hassign, h⟩ := h
      obtain ⟨-, rfl⟩ := getThreadOf_returns hthread
      exact endFailed_mirrored (Db.MirrorsOff.quiet hv (assignLoaded_quiet hassign)) h

end Leases

/-! ## The law -/

/-- `finish` is asked to end the attempt, as by every one of its callers. -/
def Request.EndsAttempt : Request → Prop
  | .finish _ _ target _ _ _ => target ≠ .running
  | _ => True

/-- The law of the module, a case for each request. -/
theorem Request.mirrored {q : Request} {a : Reply} (hq : q.EndsAttempt) (hv : v.Mirrored)
    (h : (q.program now).Returns avail v a v') : v'.Mirrored := by
  cases q <;> simp only [Request.program, replying_returns] at h <;> obtain ⟨y, h, rfl⟩ := h
  case runsCreate =>
    rcases runsCreate_returns h with rfl | ⟨position, hsubmit⟩
    · exact hv
    · exact hv.submit hsubmit
  case claim => exact claimRun_mirrored hv h
  case renew => exact renew_mirrored hv h
  case publish => exact Db.MirrorsOff.quiet hv (publishEvents_quiet h)
  case finish => exact finish_mirrored hq hv h
  case fail => exact fail_mirrored hv h
  case finalizeSuccess => exact finalizeSuccess_mirrored hv h
  case finalizeCancelled => exact finalizeCancelled_mirrored hv h
  case finalizeFailure => exact finalizeFailure_mirrored hv h
  case failInvalidContext =>
    simp only [GraphHarbor.failInvalidContext, returns_bind, Prog.pure_eq, returns_ret] at h
    obtain ⟨e, _, h, -, rfl⟩ := h
    exact fail_mirrored hv h
  case requeueForShutdown => exact requeueForShutdown_mirrored hv h
  case releaseLease => exact releaseLease_mirrored hv h
  case requeueExpired => exact requeueExpired_mirrored hv h
  case completeRollback => exact completeRollback_leases.mirrored h hv
  case pruneExpiredEvents => exact pruneExpiredEvents_leases.mirrored h hv
  case recordThreadEvent => exact Db.MirrorsOff.quiet hv (recordThreadEvent_quiet h)
  case runsCancel =>
    simp only [GraphHarbor.runsCancel, returns_bind] at h
    obtain ⟨row, v₁, hrow, h⟩ := h
    obtain ⟨rfl, -⟩ := authorizedRun_returns hrow
    split at h
    · obtain ⟨-, rfl⟩ := returns_ret.1 h
      exact hv
    · simp only [returns_bind, Prog.pure_eq, returns_ret] at h
      obtain ⟨_, _, hcancel, -, rfl⟩ := h
      exact cancelRow_mirrored hv hcancel
  case runsDelete => exact runsDelete_leases.mirrored h hv
  case threadsCreate => exact threadsCreate_leases.mirrored h hv
  case threadsDelete => exact threadsDelete_leases.mirrored h hv
  case deleteThreadCheckpoints => exact deleteThreadCheckpoints_leases.mirrored h hv
  case threadsPrune => exact threadsPrune_leases.mirrored h hv
  case threadsUpdateState => exact threadsUpdateState_leases.mirrored h hv
  case inputRespond => exact inputRespond_leases.mirrored h hv
  case runsQueue => exact runsQueue_mirrored hv h
  case aput => exact aput_leases.mirrored h hv
  case aputWrites => exact aputWrites_leases.mirrored h hv

/-- A call of the worker `owner` about its execution of the run `id`. -/
inductive Request.OwnerCall (id : RunId) (owner : String) : Request → Prop
  | renew (repo : RunRepository) : OwnerCall id owner (.renew repo id owner)
  | finish (target : RunStatus) (reason : RunReason) (payload : Option Dict)
      (preceding : List (String × Dict × List String)) :
      OwnerCall id owner (.finish id owner target reason payload preceding)
  | fail (repo : RunRepository) (infrastructure : Bool) (reason : RunReason)
      (payload : Option Dict) :
      OwnerCall id owner (.fail repo id owner infrastructure reason payload)
  | requeueForShutdown (repo : RunRepository) (drained : Bool) :
      OwnerCall id owner (.requeueForShutdown repo id owner drained)

/-- A worker that does not own the run changes nothing. -/
theorem Request.OwnerCall.unchanged {q : Request} {owner : String} {a : Reply}
    (hq : q.OwnerCall id owner)
    (hforeign : ∀ r, v.runs.find? id = some r → r.leaseOwner ≠ some owner)
    (h : (q.program now).Returns avail v a v') : v' = v := by
  cases hq <;> simp only [Request.program, replying_returns] at h <;> obtain ⟨y, h, rfl⟩ := h
  · simp only [GraphHarbor.renew, returns_bind, returns_lockRun] at h
    obtain ⟨_, v, ⟨rfl, rfl, -⟩, h⟩ := h
    split at h
    · exact (returns_ret.1 h).2
    · next run hrun =>
        rw [if_pos (by simp [hforeign run hrun])] at h
        exact (returns_ret.1 h).2
  · simp only [GraphHarbor.finish, returns_bind, returns_lockRun] at h
    obtain ⟨_, v, ⟨rfl, rfl, -⟩, h⟩ := h
    split at h
    · simp at h
    · next run hrun =>
        split at h
        · exact (returns_ret.1 h).2
        · rw [if_pos (hforeign run hrun)] at h
          simp at h
  · simp only [GraphHarbor.fail, returns_bind, returns_lockRun] at h
    obtain ⟨_, v, ⟨rfl, rfl, -⟩, h⟩ := h
    split at h
    · simp at h
    · next run hrun =>
        rw [if_pos (hforeign run hrun)] at h
        simp at h
  · simp only [GraphHarbor.requeueForShutdown, returns_bind, returns_lockRun] at h
    obtain ⟨_, v, ⟨rfl, rfl, -⟩, h⟩ := h
    split at h
    · simp at h
    · next run hrun =>
        rw [if_pos (hforeign run hrun)] at h
        simp at h

end GraphHarbor
