import GraphHarbor.Columns
import GraphHarbor.Exclusion

/-!
# How the ends of an attempt leave the thread

A worker that ends an attempt, apart from a refused runtime context, makes one run stop
`running` and writes another status than `busy` to its thread.
-/

namespace GraphHarbor

open Kit Txn

variable {now : Time} {v v' w : Db} {avail : Lock → Bool} {id : RunId} {r r' : RunRow}
  {p : RunRow → Prop} {th : Option ThreadId}

/-! ## One run changes -/

/-- The run `id` goes from `r` to `r'`; the others change bookkeeping only. -/
structure Db.Turns (id : RunId) (r r' : RunRow) (v v' : Db) : Prop where
  before : v.runs.find? id = some r
  after : v'.runs.find? id = some r'
  thread : r'.threadId = r.threadId
  others : ∀ x, x ≠ id → v.Same v' x

namespace Db.Turns

theorem assignRun {f : RunRow → RunRow} (hr : v.runs.find? id = some r)
    (hf : (r.assign f).threadId = r.threadId) : v.Turns id r (r.assign f) (v.assignRun id f) where
  before := hr
  after := by
    rw [Db.find?_assignRun, if_pos rfl, hr]
    rfl
  thread := hf
  others x hx := Db.same_of_eq (by rw [Db.find?_assignRun, if_neg hx])

/-- Bookkeeping before the change. -/
theorem of_quiet (hquiet : v.QuietStep w) (hr : v.runs.find? id = some r)
    (h : ∀ r₁, r.Quiet r₁ → w.runs.find? id = some r₁ → w.Turns id r₁ r' v') :
    v.Turns id r r' v' := by
  obtain ⟨r₁, hr₁, hq⟩ := hquiet.find? hr
  have hturns := h r₁ hq hr₁
  refine ⟨hr, hturns.after, hturns.thread.trans hq.threadId, fun x hx => ?_⟩
  have h₁ := hquiet.runs x
  have h₂ := hturns.others x hx
  unfold Db.Same at h₁ h₂ ⊢
  revert h₁ h₂
  -- either the row is missing in all three databases or it is there in all of them
  cases v.runs.find? x <;> cases w.runs.find? x <;> cases v'.runs.find? x <;> intro h₁ h₂ <;>
    cases h₁ <;> cases h₂
  · exact .none
  · next hq hq' => exact .some (hq.trans hq')

/-- Bookkeeping after the change. -/
theorem quiet (h : v.Turns id r r' w) (hquiet : w.QuietStep v') :
    ∃ r'', r'.Quiet r'' ∧ v.Turns id r r'' v' := by
  obtain ⟨r'', hr'', hq⟩ := hquiet.find? h.after
  refine ⟨r'', hq, h.before, hr'', hq.threadId.trans h.thread, fun x hx => ?_⟩
  have h₁ := h.others x hx
  have h₂ := hquiet.runs x
  unfold Db.Same at h₁ h₂ ⊢
  revert h₁ h₂
  cases v.runs.find? x <;> cases w.runs.find? x <;> cases v'.runs.find? x <;> intro h₁ h₂ <;>
    cases h₁ <;> cases h₂
  · exact .none
  · next hq hq' => exact .some (hq.trans hq')

/-- A step that leaves all runs as they are. -/
theorem of_runs {u : Db} (h : v.Turns id r r' w) (hruns : u.runs = w.runs) :
    v.Turns id r r' u :=
  ⟨h.before, by rw [hruns, h.after], h.thread, fun x hx => by
    have hsame := h.others x hx
    unfold Db.Same at hsame ⊢
    rwa [hruns]⟩

end Db.Turns

/-- The attempt of `owner` goes on. -/
def RunRow.AttemptOf (owner : String) (r : RunRow) : Prop :=
  r.status.isTerminal = false ∧ r.leaseOwner = some owner

theorem finish_turns {owner : String} {target : RunStatus} {reason : RunReason}
    {payload : Option Dict} {preceding : List (String × Dict × List String)}
    {es : Option (List RuntimeEventRow)}
    (h : (finish now id owner target reason payload preceding).Returns avail v es v') :
    (es = none ∧ v' = v ∧ ∀ r, v.runs.find? id = some r → r.status.isTerminal = true) ∨
      ∃ events r r', es = some events ∧ v.Turns id r r' v' ∧ r.AttemptOf owner ∧
        r'.status = target := by
  simp only [finish, returns_bind, returns_lockRun] at h
  obtain ⟨_, _, ⟨rfl, rfl, -⟩, h⟩ := h
  split at h
  · simp at h
  · next run hrun =>
      obtain rfl : run.runId = id := Table.key_of_find? hrun
      split at h
      · next hterminal =>
          obtain ⟨rfl, rfl⟩ := returns_ret.1 h
          exact .inl ⟨rfl, rfl, fun r hr => Option.some.inj (hrun.symm.trans hr) ▸ hterminal⟩
      · next hlive =>
          split at h
          · simp at h
          · next howner =>
              split at h
              · simp at h
              · simp only [finishRow, returns_bind, Prog.pure_eq, returns_ret] at h
                obtain ⟨events, _, ⟨before, v₁, hbefore, h⟩, rfl, rfl⟩ := h
                split at h
                · simp at h
                · next change hchange =>
                    -- `transition` gave the target status: the change is what `finish` asked for
                    obtain ⟨rfl, -, -⟩ := transition_eq_some hchange
                    simp only [returns_bind, returns_assignRun, returns_ret] at h
                    obtain ⟨_, _, ⟨rfl, -⟩, _, v₃, hlease, last, _, hlast, -, rfl⟩ := h
                    obtain ⟨r₁, hr₁, hq⟩ := (recordPreceding_quiet hbefore).find? hrun
                    have hturns := (Db.Turns.assignRun (f := released now
                      ⟨target, reason, run.retryCount⟩ none) hr₁ rfl).of_runs
                        (u := v₃) (by rw [deleteLease_returns hlease]; rfl)
                    obtain ⟨r', hq', hturns⟩ := hturns.quiet (recordEnd_quiet hlast)
                    refine .inr ⟨_, run, r', rfl, ?_, ⟨by simpa using hlive, by simpa using howner⟩,
                      hq'.status⟩
                    -- the events before the end are bookkeeping, the change comes after them
                    refine .of_quiet (recordPreceding_quiet hbefore) hrun fun r₂ _ hr₂ => ?_
                    obtain rfl := Option.some.inj (hr₁.symm.trans hr₂)
                    exact hturns

theorem fail_turns {repo : RunRepository} {owner : String} {infrastructure : Bool}
    {reason : RunReason} {payload : Option Dict} {e : Option RuntimeEventRow}
    (h : (fail repo now id owner infrastructure reason payload).Returns avail v e v') :
    (v' = v ∧ ∀ r, v.runs.find? id = some r → r.status.isTerminal = true) ∨
      ∃ r r', v.Turns id r r' v' ∧ r.AttemptOf owner ∧
        (r'.status = .pending ∨ r'.status = .error) := by
  simp only [fail, returns_bind, returns_lockRun] at h
  obtain ⟨_, _, ⟨rfl, rfl, -⟩, h⟩ := h
  split at h
  · simp at h
  · next run hrun =>
      split at h
      · simp at h
      · next howner =>
          split at h
          · next hterminal =>
              obtain ⟨-, rfl⟩ := returns_ret.1 h
              exact .inl ⟨rfl, fun r hr => Option.some.inj (hrun.symm.trans hr) ▸ hterminal⟩
          · next hlive =>
              split at h
              · simp at h
              · next change hchange =>
                  obtain ⟨-, hstatus⟩ := failChange_eq_some hchange
                  simp only [returns_bind, returns_assignRun, Prog.pure_eq, returns_ret] at h
                  obtain ⟨_, _, ⟨rfl, -⟩, _, v₃, hlease, e, _, he, -, rfl⟩ := h
                  have hturns := (Db.Turns.assignRun (f := released now change
                    (failNext repo now infrastructure run)) hrun rfl).of_runs
                      (u := v₃) (by rw [deleteLease_returns hlease]; rfl)
                  obtain ⟨r', hq', hturns⟩ := hturns.quiet (recordRunEvent_quiet he)
                  exact .inr ⟨run, r', hturns, ⟨by simpa using hlive, by simpa using howner⟩,
                    hq'.status ▸ hstatus⟩

/-! ## The status of the thread -/

/-- The run `id`, of which `p` holds, stops running, and the thread `th` is not busy any
more. -/
structure Db.Settles (id : RunId) (p : RunRow → Prop) (th : Option ThreadId) (v v' : Db) :
    Prop where
  turns : ∃ r r', v.Turns id r r' v' ∧ p r ∧ r'.status ≠ .running
  idle : ∀ y, th = some y → v'.column ThreadRow.status y ≠ some .busy
  elsewhere : ∀ y, th ≠ some y → v'.column ThreadRow.status y = v.column ThreadRow.status y

/-- A status other than `busy`, written to the thread `th` between steps that write
none. -/
theorem Db.idle_assignThreadOf {f : ThreadRow → ThreadRow} {y : ThreadId} {o : Option ThreadId}
    {u : Db} (hf : ∀ t, (f t).status ≠ .busy)
    (hafter : u.column ThreadRow.status y = (w.assignThreadOf o f).column ThreadRow.status y) :
    (o = some y → u.column ThreadRow.status y ≠ some .busy) ∧
      (o ≠ some y → u.column ThreadRow.status y = w.column ThreadRow.status y) := by
  rw [hafter]
  cases o with
  | none => exact ⟨by simp, fun _ => rfl⟩
  | some t =>
      rw [Db.assignThreadOf, Db.column_assignThread]
      constructor
      · rintro hy heq
        obtain rfl := Option.some.inj hy
        rw [if_pos rfl, Option.map_eq_some_iff] at heq
        obtain ⟨thread, -, hstatus⟩ := heq
        exact hf thread hstatus
      · intro hy
        rw [if_neg fun heq => hy (congrArg some heq.symm)]

/-- The thread was loaded from `v`, whose threads are those of `w`. -/
theorem assignLoaded_returns {f : ThreadRow → ThreadRow} {u : Unit}
    (hthreads : ∀ t, (w.threads.find? t).isSome = (v.threads.find? t).isSome)
    (h : (assignLoaded (th.bind v.threads.find?) f).Returns avail w u v') :
    v' = w.assignThreadOf th f := by
  cases th with
  | none => exact (returns_ret.1 h).2
  | some t =>
      cases ht : v.threads.find? t with
      | none =>
          simp only [Option.bind_some, ht] at h
          obtain ⟨-, rfl⟩ := returns_ret.1 h
          -- a thread that is missing now was missing when it was loaded, so nothing is assigned
          have hnone := hthreads t
          rw [ht] at hnone
          exact (assignThread_of_none (by simpa using hnone)).symm
      | some thread =>
          simp only [Option.bind_some, ht] at h
          obtain rfl : thread.threadId = t := Table.key_of_find? ht
          exact (returns_assignThread.1 h).1

theorem GraphOutput.project_status (out : GraphOutput) (t : ThreadRow) :
    (out.project t).status ≠ .busy := by
  unfold project
  split <;> simp

theorem GraphOutput.status_ne (out : GraphOutput) : out.status ≠ .running := by
  unfold status
  split <;> simp

theorem finish_threads {owner : String} {target : RunStatus} {reason : RunReason}
    {payload : Option Dict} {preceding : List (String × Dict × List String)}
    {es : Option (List RuntimeEventRow)}
    (h : (finish now id owner target reason payload preceding).Returns avail v es v')
    (t : ThreadId) : (v'.threads.find? t).isSome = (v.threads.find? t).isSome := by
  have hcolumn := (finish_column uncounted_status).column h t
  unfold Db.column at hcolumn
  rw [← Option.isSome_map, hcolumn, Option.isSome_map]

theorem finalizeSuccess_settles {owner : String} {out : GraphOutput}
    {es : List RuntimeEventRow}
    (h : (finalizeSuccess now id th owner out).Returns avail v es v') :
    (es = [] ∧ v' = v) ∨ v.Settles id (·.AttemptOf owner) th v' := by
  simp only [finalizeSuccess, returns_bind, returns_getRun] at h
  obtain ⟨_, _, ⟨rfl, rfl⟩, thread, _, hthread, h⟩ := h
  -- the run is gone, or over: the finaliser writes nothing
  obtain ⟨rfl, rfl⟩ := getThreadOf_returns hthread
  split at h
  · obtain ⟨rfl, rfl⟩ := returns_ret.1 h
    exact .inl ⟨rfl, rfl⟩
  · split at h
    · obtain ⟨rfl, rfl⟩ := returns_ret.1 h
      exact .inl ⟨rfl, rfl⟩
    · simp only [returns_bind] at h
      obtain ⟨events, v₁, hfinish, h⟩ := h
      rcases finish_turns hfinish with ⟨rfl, rfl, -⟩ | ⟨es', r, r', rfl, hturns, hr, hstatus⟩
      · obtain ⟨rfl, rfl⟩ := returns_ret.1 h
        exact .inl ⟨rfl, rfl⟩
      · simp only [returns_bind, Prog.pure_eq, returns_ret] at h
        -- the projection onto the thread is the last write
        obtain ⟨_, v₂, hproject, -, rfl⟩ := h
        have hv' := assignLoaded_returns (finish_threads hfinish) hproject
        have hidle (y : ThreadId) := Db.idle_assignThreadOf (y := y) out.project_status
          (congrArg (fun u : Db => u.column ThreadRow.status y) hv')
        refine .inr ⟨⟨r, r', hturns.of_runs (by rw [hv']; simp), hr, ?_⟩, fun y => (hidle y).1,
          fun y hy => ?_⟩
        · rw [hstatus]
          exact out.status_ne
        · rw [(hidle y).2 hy, (finish_column uncounted_status).column hfinish]

theorem finalizeCancelled_settles {owner : String} {es : List RuntimeEventRow}
    (h : (finalizeCancelled now id th owner).Returns avail v es v') :
    v' = v ∨ v.Settles id (·.AttemptOf owner) th v' := by
  simp only [finalizeCancelled, returns_bind, returns_getRun] at h
  obtain ⟨_, _, ⟨rfl, rfl⟩, h⟩ := h
  split at h
  · exact .inl (returns_ret.1 h).2
  · split at h
    · exact .inl (returns_ret.1 h).2
    · simp only [returns_bind] at h
      obtain ⟨events, v₁, hfinish, h⟩ := h
      rcases finish_turns hfinish with ⟨rfl, rfl, -⟩ | ⟨es', r, r', rfl, hturns, hr, hstatus⟩
      · exact .inl (returns_ret.1 h).2
      · simp only [returns_bind, Prog.pure_eq, returns_ret] at h
        obtain ⟨thread, _, hthread, _, v₂, hassign, -, rfl⟩ := h
        obtain ⟨rfl, rfl⟩ := getThreadOf_returns hthread
        have hv' := assignLoaded_returns (fun _ => rfl) hassign
        have hidle (y : ThreadId) := Db.idle_assignThreadOf (y := y)
          (f := ThreadRow.withStatus .idle) (fun _ => by simp [ThreadRow.withStatus])
          (congrArg (fun u : Db => u.column ThreadRow.status y) hv')
        refine .inr ⟨⟨r, r', hturns.of_runs (by rw [hv']; simp), hr, by simp [hstatus]⟩,
          fun y => (hidle y).1, fun y hy => ?_⟩
        rw [(hidle y).2 hy, (finish_column uncounted_status).column hfinish]

theorem endFailed_turns {repo : RunRepository} {run : RunRow} {owner : String}
    {failure : Failure} {type message : String} {es : List RuntimeEventRow}
    (h : (endFailed repo now run owner failure type message).Returns avail v es v') :
    (v' = v ∧ ∀ r, v.runs.find? run.runId = some r → r.status.isTerminal = true) ∨
      ∃ r r', v.Turns run.runId r r' v' ∧ r.AttemptOf owner ∧ r'.status ≠ .running := by
  cases failure <;>
    simp only [endFailed, returns_bind, Prog.pure_eq, returns_ret] at h <;>
    obtain ⟨_, _, h, -, rfl⟩ := h
  · rcases finish_turns h with ⟨-, h⟩ | ⟨-, r, r', -, hturns, hr, hstatus⟩
    · exact .inl h
    · exact .inr ⟨r, r', hturns, hr, by simp [hstatus]⟩
  all_goals
    rcases fail_turns h with h | ⟨r, r', hturns, hr, hstatus⟩
    · exact .inl h
    · exact .inr ⟨r, r', hturns, hr, by rcases hstatus with hs | hs <;> simp [hs]⟩

theorem endFailed_column {γ : Type} {g : ThreadRow → γ} (hg : Uncounted g)
    {repo : RunRepository} {run : RunRow} {owner : String} {failure : Failure}
    {type message : String} :
    (endFailed repo now run owner failure type message).KeepsColumn g := by
  cases failure with
  | timedOut => exact .bind (finish_column hg) fun _ => .ret
  | business | infrastructure => exact .bind (fail_column hg) fun _ => .ret

theorem finalizeFailure_settles {repo : RunRepository} {owner : String} {failure : Failure}
    {type message : String} {es : List RuntimeEventRow}
    (h : (finalizeFailure repo now id th owner failure type message).Returns avail v es v') :
    v' = v ∨ v.Settles id (·.AttemptOf owner) th v' := by
  simp only [finalizeFailure, returns_bind, returns_getRun] at h
  obtain ⟨_, v, ⟨rfl, rfl⟩, h⟩ := h
  split at h
  · exact .inl (returns_ret.1 h).2
  · next run hrun =>
      obtain rfl : run.runId = id := Table.key_of_find? hrun
      split at h
      · exact .inl (returns_ret.1 h).2
      · next hlive =>
          simp only [returns_bind] at h
          obtain ⟨thread, v, hthread, _, v₁, hassign, h⟩ := h
          obtain ⟨rfl, rfl⟩ := getThreadOf_returns hthread
          have hv₁ := assignLoaded_returns (fun _ => rfl) hassign
          have hrow : v₁.runs.find? run.runId = some run := by simpa [hv₁] using hrun
          have hidle (y : ThreadId) := Db.idle_assignThreadOf (y := y) (o := th)
            (f := failedThread type message) (u := v') (w := v)
            (fun _ => by simp [failedThread])
            ((endFailed_column uncounted_status).column h y |>.trans (by rw [hv₁]))
          rcases endFailed_turns h with ⟨-, hterminal⟩ | ⟨r, r', hturns, hr, hstatus⟩
          -- a live run is not over, so the failure is recorded
          · exact absurd (hterminal run hrow) hlive
          · obtain ⟨hbefore, hafter, hturn, hothers⟩ := hturns
            refine .inr ⟨⟨r, r', ⟨by simpa [hv₁] using hbefore, hafter, hturn, fun x hx => ?_⟩, hr,
              hstatus⟩, fun y => (hidle y).1, fun y => (hidle y).2⟩
            have hsame := hothers x hx
            unfold Db.Same at hsame ⊢
            simpa [hv₁] using hsame

theorem requeueForShutdown_settles {repo : RunRepository} {owner : String} {drained : Bool}
    {e : Option RuntimeEventRow}
    (h : (requeueForShutdown repo now id owner drained).Returns avail v e v') :
    v' = v ∨ ∃ run, v.runs.find? id = some run ∧
      v.Settles id (·.AttemptOf owner) run.threadId v' := by
  simp only [requeueForShutdown, returns_bind, returns_lockRun] at h
  obtain ⟨_, v, ⟨rfl, rfl, -⟩, h⟩ := h
  split at h
  · simp at h
  · next run hrun =>
      split at h
      · simp at h
      · next howner =>
          split at h
          · exact .inl (returns_ret.1 h).2
          · next hrunning =>
              split at h
              · simp at h
              · next change hchange =>
                  obtain ⟨rfl, -, -⟩ := transition_eq_some hchange
                  simp only [returns_bind, returns_assignRun, Prog.pure_eq, returns_ret] at h
                  -- `requeue_for_shutdown` writes the run, its thread and its lease, then the event
                  obtain ⟨_, v₁, ⟨hv₁, -⟩, _, v₂, hthread, _, v₃, hlease, e, _, he, -, rfl⟩ := h
                  simp only [not_not] at hrunning howner
                  have hv₂ := updateThreadOf_returns hthread
                  have hv₃ := deleteLease_returns hlease
                  have hturns : v.Turns id run (run.assign (shutDown repo now drained
                      ⟨.pending, .shutdownRequeue, run.retryCount⟩)) v₃ :=
                    (hv₁ ▸ Db.Turns.assignRun hrun rfl : v.Turns id run _ v₁).of_runs (by
                      rw [hv₃, Db.deleteLease, hv₂, Db.assignThreadOf_runs])
                  obtain ⟨r', hq, hturns⟩ := hturns.quiet (recordRunEvent_quiet he)
                  have hidle (y : ThreadId) := Db.idle_assignThreadOf (y := y)
                    (o := run.threadId) (u := v') (w := v₁) (f := ThreadRow.withStatus .idle)
                    (fun _ => by simp [ThreadRow.withStatus])
                    ((recordRunEvent_column uncounted_status).column he y |>.trans
                      (by rw [hv₃, ← hv₂]; rfl))
                  refine .inr ⟨run, hrun, ⟨run, r', hturns, ⟨by rw [hrunning]; rfl, howner⟩, ?_⟩,
                    fun y => (hidle y).1, fun y hy => ?_⟩
                  · rw [hq.status]
                    simp [RunRow.assign, shutDown, released]
                  · rw [(hidle y).2 hy, hv₁]
                    rfl

/-! ## In the service -/

/-- With these requests a worker ends its attempt of the run. -/
inductive Request.Ends (id : RunId) (owner : String) : Request → Prop
  | success (th : Option ThreadId) (out : GraphOutput) :
      Ends id owner (.finalizeSuccess id th owner out)
  | cancelled (th : Option ThreadId) : Ends id owner (.finalizeCancelled id th owner)
  | failure (repo : RunRepository) (th : Option ThreadId) (failure : Failure)
      (type message : String) :
      Ends id owner (.finalizeFailure repo id th owner failure type message)
  | shutdown (repo : RunRepository) (drained : Bool) :
      Ends id owner (.requeueForShutdown repo id owner drained)

/-- A worker that ends its attempt stops only its run and leaves the thread free, or it changes
nothing: the attempt is over already. -/
theorem attempt_end_settles {owner : String} {q : Request} {w w' : World} {reply : Reply}
    (hq : q.Ends id owner) (h : (service fun _ => True).step w (.call q (.ok reply)) w') :
    w'.db = w.db ∨ ∃ th, w.db.Settles id (·.AttemptOf owner) th w'.db := by
  obtain ⟨avail, db, rfl, hret⟩ := service_commit h
  cases hq with
  | success th out =>
      obtain ⟨es, hret, -⟩ := replying_returns.1 hret
      rcases finalizeSuccess_settles hret with ⟨-, hsame⟩ | hsettles
      · exact .inl hsame
      · exact .inr ⟨th, hsettles⟩
  | cancelled th =>
      obtain ⟨es, hret, -⟩ := replying_returns.1 hret
      exact (finalizeCancelled_settles hret).imp_right fun hsettles => ⟨th, hsettles⟩
  | failure repo th failure type message =>
      obtain ⟨es, hret, -⟩ := replying_returns.1 hret
      exact (finalizeFailure_settles hret).imp_right fun hsettles => ⟨th, hsettles⟩
  | shutdown repo drained =>
      obtain ⟨e, hret, -⟩ := replying_returns.1 hret
      exact (requeueForShutdown_settles hret).imp_right fun ⟨run, _, hsettles⟩ =>
        ⟨run.threadId, hsettles⟩

end GraphHarbor
