import GraphHarbor.Reruns

/-!
# The repository, statement by statement

The worker's calls about a run it has claimed (its events, the renewals and the ends of its
attempt) are interleaved with each other and with every other request. Each of them reruns,
so the interleaved system is simulated by its serial runs: the committed database is the
result of the committed requests one after the other, the worker's calls as if nobody held a
lock, and each of them got the answer it gets there.
-/

namespace GraphHarbor

open Kit Txn

variable {now : Time} {avail : Lock → Bool} {v v' : Db} {id : RunId} {th : Option ThreadId}
  {owner : String} {α β : Type} {tx tx' tx₁ : Tx Db Lock Session} {v₁ : Db} {p : Txn α} {a : α}

/-! ## The transactions of an attempt -/

/-- What they write, besides leases and columns of locked rows. -/
def Kind.Reported (k : Kind) : Prop := k = .log ∨ k = .cancel

section Attempt

variable {topic : String} {payload : Dict} {ns : List String} {terminal : Bool} {run : RunRow}

/-- What follows a part of the attempt finds the log in order. -/
theorem reruns_reported {f : α → Txn β} (h : Steady Db.Logbook tx v) (hp : Reruns p tx v)
    (hlogs : p.Logs Kind.Reported)
    (hf : ∀ a tx₁ v₁, lockEnv.Ends p tx v (.ok a) tx₁ v₁ → Settled tx₁ v₁ →
      Steady Db.Logbook tx₁ v₁ → Reruns (f a) tx₁ v₁) : Reruns (p >>= f) tx v :=
  reruns_bind hp fun a tx₁ v₁ hends hset =>
    hf a tx₁ v₁ hends hset
      (h.logs hp hlogs (by simp [Kind.Reported]) (by simp [Kind.Reported]) hends)

/-- The thread of a run that is stored is stored. -/
theorem Steady.hosted {run : RunRow} (h : Steady Db.Logbook tx v)
    (hfound : Steady (·.runs.find? id = some run) tx v) (t : ThreadId)
    (ht : run.threadId = some t) : Steady (fun w => (w.threads.find? t).isSome) tx v :=
  fun w hw => (h w hw).hosted id run t (hfound w hw) ht

theorem reruns_deleteLease (h : Settled tx v) : Reruns (deleteLease id) tx v :=
  reruns_write h .leases

theorem reruns_recordAll {events : List PublishedEvent} (h : Settled tx v)
    (hsteady : Steady Db.Logbook tx v) : Reruns (recordAll now id th events) tx v := by
  induction events generalizing tx v with
  | nil => exact reruns_ret h
  | cons e es ih =>
      have hfirst : Reruns (recordRunEvent now id th e.topic e.payload e.namespace e.terminal)
          tx v := reruns_recordRunEvent h hsteady
      refine reruns_reported hsteady hfirst (.run (.inl rfl)) fun _ _ _ _ hset₁ hsteady₁ => ?_
      exact reruns_map (ih hset₁ hsteady₁)

theorem reruns_publishEvents {events : List PublishedEvent} (h : Settled tx v)
    (hsteady : Steady Db.Logbook tx v) : Reruns (publishEvents now id th events) tx v := by
  unfold publishEvents
  split
  · exact reruns_recordMessageDeltas h hsteady
  · exact reruns_recordAll h hsteady

theorem reruns_recordPreceding {events : List (String × Dict × List String)} (h : Settled tx v)
    (hsteady : Steady Db.Logbook tx v) : Reruns (recordPreceding now id th events) tx v := by
  induction events generalizing tx v with
  | nil => exact reruns_ret h
  | cons e es ih =>
      have hfirst : Reruns (recordRunEvent now id th e.1 e.2.1 e.2.2 false) tx v :=
        reruns_recordRunEvent h hsteady
      refine reruns_reported hsteady hfirst (.run (.inl rfl)) fun _ _ _ _ hset₁ hsteady₁ => ?_
      exact reruns_map (ih hset₁ hsteady₁)

theorem reruns_recordEnd {payload : Option Dict} (h : Settled tx v)
    (hsteady : Steady Db.Logbook tx v) : Reruns (recordEnd now id th payload) tx v := by
  unfold recordEnd
  split
  · exact reruns_ret h
  · exact reruns_map (reruns_recordRunEvent h hsteady)

/-- The change of the locked row, the end of its lease and the events after it. -/
theorem reruns_release {f : RunRow → RunRow} {p : Txn α} (h : Settled tx v)
    (hsteady : Steady Db.Logbook tx v) (hheld : .run id ∈ tx.held)
    (hf : ∀ r : RunRow, r.Keeps (Silent Kind.Reported) (r.assign f))
    (hp : ∀ tx₁ v₁, Settled tx₁ v₁ → Steady Db.Logbook tx₁ v₁ → Reruns p tx₁ v₁) :
    Reruns (do assignRun id f; deleteLease id; p) tx v := by
  have hassign : Reruns (assignRun id f) tx v := reruns_assignRun h hheld
  refine reruns_reported hsteady hassign (.within (.assignRun hf))
    fun _ tx₁ v₁ _ hset₁ hsteady₁ => ?_
  have hdelete : Reruns (deleteLease id) tx₁ v₁ := reruns_deleteLease hset₁
  exact reruns_reported hsteady₁ hdelete (.within deleteLease_within)
    fun _ tx₂ v₂ _ hset₂ hsteady₂ => hp tx₂ v₂ hset₂ hsteady₂

theorem reruns_finishRow {target : RunStatus} {reason : RunReason} {payload : Option Dict}
    {preceding : List (String × Dict × List String)} (h : Settled tx v)
    (hsteady : Steady Db.Logbook tx v) (hheld : .run run.runId ∈ tx.held) :
    Reruns (finishRow now run target reason payload preceding) tx v := by
  have hbefore : Reruns (recordPreceding now run.runId run.threadId preceding) tx v :=
    reruns_recordPreceding h hsteady
  refine reruns_reported hsteady hbefore (recordPreceding_logs (.inl rfl))
    fun before tx₁ v₁ hends₁ hset₁ hsteady₁ => ?_
  split
  · exact reruns_throw trivial
  · next change hchange =>
      refine reruns_release hset₁ hsteady₁ (hends₁.held hheld)
        (released_keeps fun _ _ => ⟨.inr rfl, by simp⟩) fun tx₂ v₂ hset₂ hsteady₂ => ?_
      exact reruns_map (reruns_recordEnd hset₂ hsteady₂)

theorem reruns_finish {target : RunStatus} {reason : RunReason} {payload : Option Dict}
    {preceding : List (String × Dict × List String)} (h : Settled tx v)
    (hsteady : Steady Db.Logbook tx v) :
    Reruns (finish now id owner target reason payload preceding) tx v := by
  refine reruns_lockRun h (onlyFails_throw trivial)
    fun run tx₁ v₁ hset₁ hkeeps hlock hfound => ?_
  obtain rfl : run.runId = id := Table.key_of_find? hfound.now
  have hsteady₁ : Steady Db.Logbook tx₁ v₁ := hkeeps hsteady
  dsimp only
  split
  · exact reruns_ret hset₁
  · split
    · exact reruns_throw trivial
    · split
      · exact reruns_throw trivial
      · exact reruns_map (reruns_finishRow hset₁ hsteady₁ hlock)

theorem failChange_ne {repo : RunRepository} {infrastructure : Bool} {reason : RunReason}
    {change : Transition} (h : failChange repo infrastructure reason run = some change) :
    change.status ≠ .interrupted := by
  unfold failChange at h
  split at h <;> obtain ⟨rfl, -, -⟩ := transition_eq_some h <;> simp

theorem reruns_fail {repo : RunRepository} {infrastructure : Bool} {reason : RunReason}
    {payload : Option Dict} (h : Settled tx v) (hsteady : Steady Db.Logbook tx v) :
    Reruns (fail repo now id owner infrastructure reason payload) tx v := by
  refine reruns_lockRun h (onlyFails_throw trivial)
    fun run tx₁ v₁ hset₁ hkeeps hlock _ => ?_
  have hsteady₁ : Steady Db.Logbook tx₁ v₁ := hkeeps hsteady
  dsimp only
  split
  · exact reruns_throw trivial
  · split
    · exact reruns_ret hset₁
    · split
      · exact reruns_throw trivial
      · next change hchange =>
          refine reruns_release hset₁ hsteady₁ hlock
            (released_keeps fun hc => absurd hc (failChange_ne hchange))
            fun tx₂ v₂ hset₂ hsteady₂ => ?_
          exact reruns_map (reruns_recordRunEvent hset₂ hsteady₂)

theorem reruns_failInvalidContext {repo : RunRepository} {type message : String}
    (h : Settled tx v) (hsteady : Steady Db.Logbook tx v) :
    Reruns (failInvalidContext repo now id owner type message) tx v :=
  reruns_map (reruns_fail h hsteady)

theorem shutDown_keeps {repo : RunRepository} {drained : Bool} {K : Kind → Prop}
    {change : Transition} (hne : change.status ≠ .interrupted) (r : RunRow) :
    r.Keeps K (r.assign (shutDown repo now drained change)) :=
  .of_not_cancel ⟨rfl, rfl, rfl, rfl, rfl, kwargs_afterDrain⟩ rfl rfl fun hc => absurd hc.1 hne

theorem reruns_requeueForShutdown {repo : RunRepository} {drained : Bool} (h : Settled tx v)
    (hsteady : Steady Db.Logbook tx v) :
    Reruns (requeueForShutdown repo now id owner drained) tx v := by
  refine reruns_lockRun h (onlyFails_throw trivial)
    fun run tx₁ v₁ hset₁ hkeeps hlock hfound => ?_
  have hsteady₁ : Steady Db.Logbook tx₁ v₁ := hkeeps hsteady
  dsimp only
  split
  · exact reruns_throw trivial
  · split
    · exact reruns_ret hset₁
    · split
      · exact reruns_throw trivial
      · next change hchange =>
          have hne : change.status ≠ .interrupted := by
            obtain ⟨rfl, -, -⟩ := transition_eq_some hchange
            simp
          have hassign : Reruns (assignRun id (shutDown repo now drained change)) tx₁ v₁ :=
            reruns_assignRun hset₁ hlock
          refine reruns_reported hsteady₁ hassign (.within (.assignRun (shutDown_keeps hne)))
            fun _ tx₂ v₂ hends₂ hset₂ hsteady₂ => ?_
          -- the write to the run leaves its thread stored
          have hhosted (t : ThreadId) (ht : run.threadId = some t) :
              Steady (fun w => (w.threads.find? t).isSome) tx₂ v₂ := by
            refine (hsteady₁.hosted hfound t ht).next hassign (fun w w' hret hw => ?_) hends₂
            rwa [(returns_assignRun.1 hret).1]
          have hupdate : Reruns (updateThreadOf run.threadId (.withStatus .idle)) tx₂ v₂ :=
            reruns_updateThreadOf hset₂ hhosted
          refine reruns_reported hsteady₂ hupdate
            (.within (updateThreadOf_within fun _ => ⟨.inl rfl, .inl rfl⟩))
            fun _ tx₃ v₃ _ hset₃ hsteady₃ => ?_
          have hdelete : Reruns (deleteLease id) tx₃ v₃ := reruns_deleteLease hset₃
          refine reruns_reported hsteady₃ hdelete (.within deleteLease_within)
            fun _ tx₄ v₄ _ hset₄ hsteady₄ => ?_
          exact reruns_map (reruns_recordRunEvent hset₄ hsteady₄)

/-! ### Renewals -/

/-- Whether the lease of a leased run is live can be read off the run. -/
theorem Db.Mirrored.live_eq (h : v.Mirrored) (hr : v.runs.find? id = some run)
    (howner : run.leaseOwner = some owner) :
    v.leases.rows.any (·.live now id owner) = run.leaseExpiresAt.any (now < ·) := by
  obtain ⟨l, hl, hlo, hle, -⟩ := h.leased hr (by simp [howner])
  have hid : l.runId = id := Table.key_of_find? hl
  have hown : l.owner = owner := Option.some.inj (hlo.symm.trans howner)
  rw [hle, Bool.eq_iff_iff, List.any_eq_true]
  constructor
  · rintro ⟨l', hl', hlive⟩
    simp only [RunLeaseRow.live, Bool.and_eq_true, decide_eq_true_eq] at hlive
    have hfind := (Table.mem_iff_find? (t := v.leases)).1 hl'
    rw [key_lease, hlive.1.1, hl] at hfind
    obtain rfl := Option.some.inj hfind
    simpa using hlive.2
  · intro hlive
    exact ⟨l, Table.mem_of_find? hl, by simpa [RunLeaseRow.live, hid, hown] using hlive⟩

/-- The update of the lease and the column of the run agree on whether it is renewed. -/
theorem reruns_renewLease {expires : Time} {b : Bool} (h : Settled tx v)
    (hheld : .run id ∈ tx.held)
    (hlive : Steady (fun w => w.leases.rows.any (·.live now id owner) = b) tx v) :
    Reruns (renewLease now expires id owner) tx v := by
  -- no lock protects the leases: that the answer stays the same is `hlive`
  refine reruns_bind (reruns_perform h (fun _ _ _ hu => h.succeeds hu)
    fun u w avail o hu hw hsem _ => ?_) fun renewed tx₁ v₁ hrenewed hset₁ => ?_
  · simp only [Stmt.sem, hlive u hu, hlive w hw, Option.some.injEq, Except.ok.injEq] at hsem ⊢
    exact ⟨hsem, hsem ▸ .leases⟩
  · split
    · exact reruns_map (reruns_updateRun hset₁ (hrenewed.held hheld))
    · exact reruns_ret hset₁

theorem lockRun_effect {o : Option RunRow} (h : lockEnv.Ends (lockRun id) tx v (.ok o) tx' v') :
    tx'.effect = tx.effect := by
  obtain ⟨u, avail, -, -, hexec, -⟩ := Env.ends_perform h
  obtain ⟨out, hsem, -, rfl⟩ := Engine.exec_ok hexec
  simp only [engine, Stmt.sem] at hsem
  (repeat' split at hsem) <;>
    simp only [Option.some.injEq, Except.ok.injEq, reduceCtorEq] at hsem <;> subst hsem <;> rfl

/-- A refused renewal writes nothing. -/
theorem renew_refused {repo : RunRepository}
    (h : (renew repo now id owner).Returns avail v false v') : v' = v := by
  simp only [renew, returns_bind, returns_lockRun] at h
  obtain ⟨_, v, ⟨rfl, rfl, -⟩, h⟩ := h
  split at h
  · exact (returns_ret.1 h).2
  · split at h
    · exact (returns_ret.1 h).2
    · simp only [renewLease, returns_bind, returns_update] at h
      obtain ⟨renewed, v₁, ⟨hb, rfl⟩, h⟩ := h
      split at h
      · simp only [returns_bind, Prog.pure_eq, returns_ret] at h
        obtain ⟨_, _, -, hfalse, -⟩ := h
        cases hfalse
      · next hdead =>
          obtain ⟨-, rfl⟩ := returns_ret.1 h
          -- no row of the lease table is the live one
          have hsame (l : RunLeaseRow) (hl : v.leases.find? id = some l) :
              l.renewed now (now + repo.lease) id owner = l := by
            refine if_neg fun hlive => hdead ?_
            rw [hb]
            exact List.any_eq_true.2 ⟨l, Table.mem_of_find? hl, hlive⟩
          rw [Table.modify_eq_self _ hsame]

/-- `renew`, except that it fails without a run. -/
def renewStored (repo : RunRepository) (now : Time) (id : RunId) (owner : String) : Txn Bool := do
  match ← lockRun id with
  | none => .throw (missingRun id)
  | some run =>
      if run.status ≠ .running || run.leaseOwner ≠ some owner then pure false
      else renewLease now (now + repo.lease) id owner

theorem reruns_renewStored {repo : RunRepository} (h : Settled tx v)
    (hsteady : Steady Db.Mirrored tx v) : Reruns (renewStored repo now id owner) tx v := by
  refine reruns_lockRun h (onlyFails_throw trivial)
    fun run tx₁ v₁ hset₁ hkeeps hlock hrun => ?_
  have hsteady₁ : Steady Db.Mirrored tx₁ v₁ := hkeeps hsteady
  dsimp only
  split
  · exact reruns_ret hset₁
  · next hown =>
      simp only [Bool.or_eq_true, decide_eq_true_eq, not_or, not_not] at hown
      exact reruns_renewLease hset₁ hlock fun w hw =>
        (hsteady₁ w hw).live_eq (hrun w hw) hown.2

/-- `renew` answers `false` for a run that it does not find, and is `renewStored` otherwise. -/
theorem renew_ends {repo : RunRepository} {r : Except Err Bool}
    (h : lockEnv.Ends (renew repo now id owner) tx v r tx' v') :
    r = .ok false ∧ tx'.effect = tx.effect ∨
      lockEnv.Ends (renewStored repo now id owner) tx v r tx' v' := by
  rcases Env.ends_bind h with ⟨e, herror, -⟩ | ⟨row, tx₁, v₁, hlock, hrest⟩
  · obtain ⟨u, avail, -, hexec⟩ := Env.ends_perform_error herror
    have hsem := Engine.exec_error hexec
    simp only [engine, Stmt.sem] at hsem
    (repeat' split at hsem) <;> simp at hsem
  · cases row with
    | none =>
        obtain ⟨hr, rfl, -⟩ := hrest
        exact .inl ⟨hr, lockRun_effect hlock⟩
    | some run => exact .inr (hlock.bind hrest)

theorem renewStored_returns {repo : RunRepository} {b : Bool}
    (h : (renewStored repo now id owner).Returns avail v b v') :
    (renew repo now id owner).Returns avail v b v' := by
  obtain ⟨row, w, hrow, hret⟩ := returns_bind.1 h
  refine returns_bind.2 ⟨row, w, hrow, ?_⟩
  cases row with
  | none => exact absurd hret returns_throw
  | some run => exact hret

/-- A renewal that is granted reruns; one that is refused writes nothing. -/
theorem renew_reruns {repo : RunRepository} {b : Bool} (h : Settled tx v)
    (hsteady : Steady Db.Mirrored tx v)
    (hends : lockEnv.Ends (renew repo now id owner) tx v (.ok b) tx' v') :
    if b then (renew repo now id owner).Returns unlocked (tx.effect v') b (tx'.effect v')
    else tx'.effect v' = tx.effect v' := by
  rcases renew_ends hends with ⟨hr, heffect⟩ | hstored
  · rw [Except.ok.inj hr, if_neg Bool.false_ne_true, heffect]
  · have hret := renewStored_returns ((reruns_renewStored h hsteady).returns b tx' v' hstored).1
    cases b with
    | true => exact hret
    | false => exact renew_refused hret

end Attempt

/-! ## Requests -/

/-- The calls of a worker about a run that it has claimed, and the events of a thread. -/
def Request.Reports : Request → Prop
  | .renew .. | .publish .. | .fail .. | .failInvalidContext .. | .requeueForShutdown ..
  | .recordThreadEvent .. => True
  | .finish _ _ target _ _ _ => target ≠ .running
  | _ => False

/-- No thread is deleted. -/
def Request.Permitted (q : Request) : Prop := Kind.dropThread ∉ q.kinds ∧ q.EndsAttempt

/-- The reports are interleaved statement by statement with each other, and with every other
request as a whole. -/
def reporting : Engine.Requests Timed where
  stepwise q := q.request.Reports
  whole q := ¬q.request.Reports ∧ q.request.Permitted

/-- A refused renewal has no effect. -/
def Timed.effective (q : Timed) (a : Reply) : Bool :=
  match q.request, a with
  | .renew .., .flag renewed => renewed
  | _, _ => true

theorem Request.Reports.permitted {q : Request} (hq : q.Reports) : q.Permitted := by
  cases q with
  | finish _ _ target reason =>
      refine ⟨?_, hq⟩
      simp only [kinds]
      split <;> simp
  | renew | publish | fail | failInvalidContext | requeueForShutdown | recordThreadEvent =>
      exact ⟨by simp [kinds], trivial⟩
  | _ => cases hq

theorem reruns_replying {f : α → Reply} (hp : Reruns p tx v) : Reruns (replying p f) tx v :=
  reruns_map hp

/-- A report whose answer has an effect would have had it whole; a report fails only by an
exception of its own. -/
theorem Request.reruns {q : Request} (hq : q.Reports) (hv : v.Intact) :
    (∀ a tx v', lockEnv.Ends (q.program now) engine.start v (.ok a) tx v' →
      if Timed.effective ⟨now, q⟩ a then (q.program now).Returns unlocked v' a (tx.effect v')
      else tx.effect v' = v') ∧
    ∀ e tx v', lockEnv.Ends (q.program now) engine.start v (.error e) tx v' → e.Raised := by
  have hstart : Settled engine.start v := .start
  have hintact : Steady Db.Intact engine.start v := fun w hw => hw.2 hv
  have hsteady : Steady Db.Logbook engine.start v := fun w hw => (hintact w hw).toLogbook
  have whole (heffective : ∀ a, Timed.effective ⟨now, q⟩ a = true)
      (hp : Reruns (q.program now) engine.start v) :
      (∀ a tx v', lockEnv.Ends (q.program now) engine.start v (.ok a) tx v' →
        if Timed.effective ⟨now, q⟩ a then (q.program now).Returns unlocked v' a (tx.effect v')
        else tx.effect v' = v') ∧
      ∀ e tx v', lockEnv.Ends (q.program now) engine.start v (.error e) tx v' → e.Raised := by
    refine ⟨fun a tx v' h => ?_, hp.raises⟩
    rw [if_pos (heffective a)]
    exact (hp.returns a tx v' h).1
  cases q with
  | renew repo id owner =>
      have hmirrored : Steady Db.Mirrored engine.start v := fun w hw => (hintact w hw).mirrored
      refine ⟨fun a tx v' h => ?_, fun e tx v' h => ?_⟩
      · obtain ⟨b, tx₁, v₁, hb, ha, rfl, hrely⟩ := Env.ends_bind_ok h
        obtain rfl := Except.ok.inj ha
        have hrenew := renew_reruns hstart hmirrored (hb.wait hrely)
        cases b with
        | true => exact replying_returns.2 ⟨true, hrenew, rfl⟩
        | false => exact hrenew
      · rcases Env.ends_bind h with ⟨e', he, herror⟩ | ⟨b, tx₁, v₁, -, hrest⟩
        · obtain rfl := Except.error.inj herror
          rcases renew_ends he with ⟨hr, -⟩ | hstored
          · cases hr
          · exact (reruns_renewStored hstart hmirrored).raises e tx v' hstored
        · cases hrest.1
  | publish => exact whole (fun _ => rfl) (reruns_replying (reruns_publishEvents hstart hsteady))
  | finish => exact whole (fun _ => rfl) (reruns_replying (reruns_finish hstart hsteady))
  | fail => exact whole (fun _ => rfl) (reruns_replying (reruns_fail hstart hsteady))
  | failInvalidContext =>
      exact whole (fun _ => rfl) (reruns_replying (reruns_failInvalidContext hstart hsteady))
  | requeueForShutdown =>
      exact whole (fun _ => rfl) (reruns_replying (reruns_requeueForShutdown hstart hsteady))
  | recordThreadEvent =>
      exact whole (fun _ => rfl) (reruns_replying (reruns_recordThreadEvent hstart hsteady))
  | _ => cases hq

/-! ## The invariant of the commits -/

theorem runsCreate_hosted {repo : RunRepository} {q : Submission} {r : RunRow} {t : ThreadId}
    (h : (runsCreate repo now q).Returns avail v r v') (ht : q.threadId = some t) :
    (v.threads.find? t).isSome := by
  unfold runsCreate at h
  rw [ht] at h
  simp only [returns_bind, returns_getThread] at h
  obtain ⟨thread, w, ⟨rfl, rfl⟩, h⟩ := h
  split at h
  · exact absurd h returns_throw
  · next hfound => simp [hfound]

theorem Db.Logbook.submit {r : RunRow} (h : v.Logbook) (hnumbered : v'.Numbered)
    (hsubmit : Submit r v v') (hhosted : ∀ t, r.threadId = some t → (v.threads.find? t).isSome) :
    v'.Logbook where
  numbered := hnumbered
  housed e he x hx := by
    rw [hsubmit.result] at he
    obtain ⟨r', hr', hthread⟩ := h.housed e he x hx
    refine ⟨r', ?_, hthread⟩
    rw [hsubmit.find?, if_neg, hr']
    rintro rfl
    have habsent : v.runs.find? r.runId = none := hsubmit.absent
    rw [habsent] at hr'
    cases hr'
  hosted x r' t hr' ht := by
    have hthreads : v'.threads = v.threads := by rw [hsubmit.result]; rfl
    rw [hthreads]
    rw [hsubmit.find?] at hr'
    split at hr'
    · obtain rfl := Option.some.inj hr'
      exact hhosted t ht
    · exact h.hosted x r' t hr' ht

/-- Every request that deletes no thread keeps the log, its runs and the leases in order. -/
theorem Request.intact {q : Request} {a : Reply} (hq : q.Permitted) (hv : v.Intact)
    (h : (q.program now).Returns avail v a v') : v'.Intact := by
  refine ⟨?_, Request.mirrored hq.2 hv.mirrored h⟩
  have hnumbered : v'.Numbered := Request.numbered hq.1 hv.numbered h
  by_cases hsubmit : Kind.submit ∈ q.kinds
  · cases q with
    | runsCreate repo s =>
        obtain ⟨r, hr, -⟩ := replying_returns.1 h
        rcases runsCreate_returns hr with rfl | ⟨position, hsubmit⟩
        · exact hv.toLogbook
        · exact hv.toLogbook.submit hnumbered hsubmit fun t ht => runsCreate_hosted hr ht
    | finish _ _ target reason =>
        simp only [kinds] at hsubmit
        split at hsubmit <;> simp at hsubmit
    | runsCancel _ action => cases action <;> simp [kinds] at hsubmit
    | runsQueue _ operation => cases operation <;> simp [kinds] at hsubmit
    | _ => simp [kinds] at hsubmit
  · exact (q.logs now).preserves (Db.Logbook.recorders hq.1 hsubmit) h hv.toLogbook

theorem Db.Intact.of_fresh (hv : v.Fresh) : v.Intact := by
  refine ⟨Db.Logbook.of_fresh hv, fun x => ⟨False.elim, fun _ => ?_⟩⟩
  unfold Db.MirrorAt
  rw [hv.runs, hv.leases]
  exact Table.find?_eq_none.2 (by simp)

/-! ## The law -/

/-- What a commit of a request does to the rest of the service. -/
theorem Request.commit {q : Request} {Γ : Env engine} {a : Reply} {w : Db} (hq : q.Permitted)
    (hends : Γ.Ends (q.program now) engine.start v (.ok a) tx w) (hintact : (tx.effect w).Intact) :
    (tx.effect w).Intact ∧ ∀ H, H.Disjoint tx.held → lockEnv.rely H w (tx.effect w) :=
  ⟨hintact, fun H hH => ⟨(Request.confined hq.1 hends).respects H hH w, fun _ => hintact⟩⟩

def reportDiscipline : Discipline engine Timed.program reporting where
  env := lockEnv
  inv := Db.Intact
  inv_rely h := h.2
  commits {q a tx b db} hq hb hends := by
    refine Request.commit hq.permitted hends ?_
    have hdb : db.Intact := hends.rely.2 hb
    have hrerun := (Request.reruns hq hb).1 a tx db hends
    split at hrerun
    · exact Request.intact hq.permitted hdb hrerun
    · rwa [hrerun]
  wholes {q a tx avail db} hq hdb hends :=
    Request.commit hq.2 hends (Request.intact hq.2 hdb (run_ok_iff.1 (Engine.run_of_ends hends)))

theorem reportDiscipline_reruns : reportDiscipline.Reruns Timed.effective := by
  intro q a tx b db hq hb hends
  have hrerun := (Request.reruns hq hb).1 a tx db hends
  split at hrerun
  · next heffective =>
      rw [if_pos heffective]
      exact run_ok_iff.2 hrerun
  · next hrefused =>
      rw [if_neg hrefused]
      exact hrerun

/-- The committed requests of an event, with their answers. -/
def serialized (ev : TxnEvent) : Option (Timed × Reply) :=
  Discipline.committed Timed.effective ev

/-- The committed requests one after the other. -/
abbrev serially : TSys Db (Timed × Reply) :=
  Discipline.serial engine Timed.program reporting Db.Fresh

theorem reporting_safe : (interleaved reporting).Inductive reportDiscipline.Safe := by
  refine reportDiscipline.inductive_of_admits (fun c ev => ?_) fun v hv => ?_
  · cases ev <;> simp [Engine.Admitted, reportDiscipline, lockEnv]
  · exact .of_fresh hv

/-- The interleaved service is simulated by the serial one. -/
theorem reporting_simulation :
    (interleaved reporting).Simulation serially Engine.Config.db serialized
      reportDiscipline.Safe := by
  refine reportDiscipline_reruns.simulation (fun c ev => ?_) fun q a hq => ?_
  · cases ev <;> simp [Engine.Admitted, reportDiscipline, lockEnv]
  · unfold Timed.effective
    split
    · next heq => exact absurd (heq ▸ trivial : q.request.Reports) hq.1
    · rfl

/-- Events are added behind the log, and nothing else is. -/
def Db.Appends (v v' : Db) : Prop :=
  ∃ new, v'.recorded = v.recorded ++ new ∧ ∀ e ∈ v'.events, e ∈ v.events ∨ e ∈ new

theorem Db.Appends.of_subset (hrecorded : v'.recorded = v.recorded)
    (hevents : v'.events ⊆ v.events) : v.Appends v' :=
  ⟨[], by rw [hrecorded, List.append_nil], fun _ he => .inl (hevents he)⟩

theorem Db.Appends.trans {w : Db} (h : v.Appends v') (h' : v'.Appends w) : v.Appends w := by
  obtain ⟨new, hrecorded, hevents⟩ := h
  obtain ⟨new', hrecorded', hevents'⟩ := h'
  refine ⟨new ++ new', by rw [hrecorded', hrecorded, List.append_assoc], fun e he => ?_⟩
  rcases hevents' e he with hold | hnew
  · exact (hevents e hold).imp_right fun hnew => List.mem_append_left _ hnew
  · exact .inr (List.mem_append_right _ hnew)

theorem Db.Write.appends {K : Kind → Prop} (hw : v.Write K v') : v.Appends v' := by
  cases hw with
  | log e => exact ⟨[e], rfl, fun _ he => List.mem_append.1 he⟩
  | dropRun id => exact .of_subset rfl List.filter_sublist.subset
  | dropThread t => exact .of_subset rfl List.filter_sublist.subset
  | tables _ keeps =>
      refine .of_subset keeps.recorded ?_
      rcases keeps.events with hevents | ⟨-, hsublist⟩
      · exact hevents ▸ List.Subset.refl _
      · exact hsublist.subset
  | _ => exact .of_subset rfl (List.Subset.refl _)

theorem Request.appends {q : Request} {a : Reply} (h : (q.program now).Returns avail v a v') :
    v.Appends v' :=
  (q.within now).related (fun _ => .of_subset rfl (List.Subset.refl _))
    (fun _ _ _ h h' => h.trans h') (fun _ _ hw => hw.appends) h

/-- The log of an interleaved service. -/
structure LogLaw (c : Transactions) : Prop where
  /-- Numbers grow in the order of the commits. -/
  ordered : c.db.recorded.Pairwise fun e e' => e.SameLog e' → e.sequence < e'.sequence
  /-- An event that is committed later has a larger number than all that could be read. -/
  later : ∀ ev c', (interleaved reporting).step c ev c' → ∀ e' ∈ c'.db.events, e' ∉ c.db.events →
    ∀ e ∈ c.db.recorded, e.SameLog e' → e.sequence < e'.sequence
  /-- No report fails at a unique index of the events, or at a row that is gone. -/
  raised : ∀ q e began before c',
    (interleaved reporting).step c (.failed q e began before) c' → q.request.Reports → e.Raised

theorem serially_run {l : Timed × Reply} (h : serially.step v l v') :
    ∃ avail, engine.run avail l.1.program v = some (.ok l.2, v') := by
  rcases h with ⟨-, hrun⟩ | ⟨-, hrun⟩
  · exact ⟨_, hrun⟩
  · exact hrun

/-- In every interleaving. -/
theorem log_numbered : (interleaved reporting).Invariant LogLaw := by
  intro c hc
  have hsafe : reportDiscipline.Safe c := reporting_safe.invariant c hc
  have hintact : c.db.Intact := hsafe.inv
  refine ⟨hintact.numbered.order, fun ev c' hstep e' he' hnew e he hsame => ?_,
    fun q e began before c' hstep hq => ?_⟩
  · have hintact' : c'.db.Intact := (reporting_safe.step c ev c' hsafe hstep).inv
    -- the step is one of a serial run, or shows nothing
    have happends : c.db.Appends c'.db := by
      cases hseen : serialized ev with
      | none =>
          rw [reporting_simulation.silent c ev c' hsafe hstep hseen]
          exact .of_subset rfl (List.Subset.refl _)
      | some l =>
          obtain ⟨avail, hrun⟩ := serially_run
            (reporting_simulation.step c ev c' l hsafe hstep hseen)
          exact Request.appends (run_ok_iff.1 hrun)
    obtain ⟨new, hrecorded, hevents⟩ := happends
    -- the new event is behind the log, which is in order after the step too
    have horder := hintact'.numbered.order
    rw [hrecorded] at horder
    exact (List.pairwise_append.1 horder).2.2 e he e' ((hevents e' he').resolve_left hnew) hsame
  · obtain ⟨m, hm, hstep⟩ := hstep
    obtain ⟨hbegan, -, ⟨hq, tx, hends⟩ | ⟨hq', -⟩⟩ :=
      (hsafe.step hm hstep (by simp [Engine.Admitted])).2
    · exact (Request.reruns hq hbegan).2 e tx before hends
    · exact absurd hq hq'.1

end GraphHarbor
