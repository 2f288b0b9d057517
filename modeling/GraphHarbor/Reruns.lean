import GraphHarbor.Locking
import GraphHarbor.Leases
import GraphHarbor.Numbering

/-!
# Transactions that could have run whole

A transaction that reads only what it has locked before, while it meets other transactions
between its statements, ends as it would have ended had it run whole at the time of its
commit (`Reruns`). The event recorders are such transactions: what they read besides the
locked rows is the largest stored number of a log, and the counter of the locked row is never
below it.
-/

namespace GraphHarbor

open Kit Txn

variable {K : Kind → Prop} {H : List Lock} {v v' w : Db} {x : RunId} {t : ThreadId} {α β : Type}

/-! ## The log and its runs -/

/-- The numbers are in order, the events of a run are in the log of its thread, and the
threads of the runs are stored. -/
structure Db.Logbook (v : Db) : Prop where
  numbered : v.Numbered
  housed : ∀ e ∈ v.events, ∀ x, e.runId = some x →
    ∃ r, v.runs.find? x = some r ∧ e.threadId = r.threadId
  hosted : ∀ x r t, v.runs.find? x = some r → r.threadId = some t → (v.threads.find? t).isSome

namespace Db.Logbook

theorem of_fresh (h : v.Fresh) : v.Logbook := by
  refine ⟨.of_fresh h, ?_, ?_⟩ <;> simp [h.events, h.runs]

theorem quiet (h : v.Logbook) (hnumbered : v'.Numbered) (hquiet : v.QuietStep v') : v'.Logbook where
  numbered := hnumbered
  housed e he x hx := by
    rcases hquiet.events.run e he x hx with hnew | ⟨hold, -⟩
    · exact hnew
    · obtain ⟨r, hr, hthread⟩ := h.housed e hold x hx
      obtain ⟨r', hr', hsame⟩ := hquiet.find? hr
      exact ⟨r', hr', hthread.trans hsame.threadId.symm⟩
  hosted x r' t hr' ht := by
    obtain ⟨r, hr, hsame⟩ := (hquiet.runs x).source r' hr'
    rw [hquiet.threads]
    exact h.hosted x r t hr (hsame.threadId.symm.trans ht)

/-- Rows with the threads they had, and no new event. -/
theorem frame (h : v.Logbook) (hnumbered : v'.Numbered) (hevents : v'.events ⊆ v.events)
    (hkept : ∀ e ∈ v'.events, ∀ x r, e.runId = some x → v.runs.find? x = some r →
      ∃ r', v'.runs.find? x = some r' ∧ r'.threadId = r.threadId)
    (hruns : ∀ x r', v'.runs.find? x = some r' →
      ∃ r, v.runs.find? x = some r ∧ r'.threadId = r.threadId)
    (hthreads : ∀ t, (v.threads.find? t).isSome → (v'.threads.find? t).isSome) : v'.Logbook where
  numbered := hnumbered
  housed e he x hx := by
    obtain ⟨r, hr, hthread⟩ := h.housed e (hevents he) x hx
    obtain ⟨r', hr', hsame⟩ := hkept e he x r hx hr
    exact ⟨r', hr', hthread.trans hsame.symm⟩
  hosted x r' t hr' ht := by
    obtain ⟨r, hr, hsame⟩ := hruns x r' hr'
    exact hthreads t (h.hosted x r t hr (hsame.symm.trans ht))

theorem write (h : v.Logbook) (hthread : ¬K .dropThread) (hsubmit : ¬K .submit)
    (hw : v.Write (Silent K) v') : v'.Logbook := by
  have hnumbered : v'.Numbered := h.numbered.write hthread hw
  cases hw with
  | read => exact h
  | run id f hf keeps =>
      refine h.frame hnumbered (List.Subset.refl _) (fun e _ x r _ hr => ?_) (fun x r' hr' => ?_)
        fun t ht => ht
      · rw [Db.updateRun, Table.find?_modify hf]
        split
        · exact ⟨f r, by rw [hr]; rfl, (keeps r).threadId⟩
        · exact ⟨r, hr, rfl⟩
      · rw [Db.updateRun, Table.find?_modify hf] at hr'
        split at hr'
        · obtain ⟨r, hr, rfl⟩ := Option.map_eq_some_iff.1 hr'
          exact ⟨r, hr, (keeps r).threadId⟩
        · exact ⟨r', hr', rfl⟩
  | thread t f hf =>
      refine h.frame hnumbered (List.Subset.refl _) (fun _ _ x r _ hr => ⟨r, hr, rfl⟩)
        (fun x r hr => ⟨r, hr, rfl⟩) fun y hy => ?_
      rwa [Db.isSome_updateThread]
  | submit _ kind => exact absurd kind.1 hsubmit
  | openThread new =>
      refine h.frame hnumbered (List.Subset.refl _) (fun _ _ x r _ hr => ⟨r, hr, rfl⟩)
        (fun x r hr => ⟨r, hr, rfl⟩) fun t ht => ?_
      by_cases heq : t = Keyed.key new
      · rw [heq] at ht ⊢
        rwa [Table.insert_of_mem ht]
      · rwa [Table.find?_insert_of_ne heq]
  | log _ kind => exact absurd rfl kind.2
  | dropRun id =>
      have hgone (e : RuntimeEventRow) (he : e ∈ (v.deleteRun id).events) : e.runId ≠ some id := by
        simpa using (List.mem_filter.1 he).2
      refine h.frame hnumbered List.filter_sublist.subset (fun e he x r hx hr => ⟨r, ?_, rfl⟩)
        (fun x r hr => ⟨r, ?_, rfl⟩) fun t ht => ht
      · rw [Db.deleteRun, Table.find?_erase, if_neg, hr]
        rintro rfl
        exact hgone e he hx
      · rw [Db.deleteRun, Table.find?_erase] at hr
        split at hr
        · cases hr
        · exact hr
  | dropThread _ kind => exact absurd kind.1 hthread
  | tables _ keeps runs threads =>
      refine h.frame hnumbered ?_ (fun _ _ x r _ hr => ⟨r, runs ▸ hr, rfl⟩)
        (fun x r hr => ⟨r, runs ▸ hr, rfl⟩) fun t ht => threads ▸ ht
      rcases keeps.events with hevents | ⟨-, hsublist⟩
      · exact hevents ▸ List.Subset.refl _
      · exact hsublist.subset

/-- The recorders, and writes that submit no run and delete no thread. -/
theorem recorders (hthread : ¬K .dropThread) (hsubmit : ¬K .submit) :
    Db.Recorders K Db.Logbook where
  write hw h := h.write hthread hsubmit hw
  run h hv := hv.quiet (hv.numbered.recordRunEvent h) (recordRunEvent_quiet h)
  thread h hv := hv.quiet (hv.numbered.recordThreadEvent h) (recordThreadEvent_quiet h)
  deltas h hv := hv.quiet (hv.numbered.recordMessageDeltas h) (recordMessageDeltas_quiet h)

/-- No stored number of a thread exceeds its counter. -/
theorem maxSequence_le_thread (h : v.Logbook) {th : ThreadRow}
    (hth : v.threads.find? t = some th) : v.maxSequence (inThread t) ≤ th.eventSeq := by
  by_cases hnil : (v.events.filter (inThread t)).map (·.sequence) = []
  · simp [Db.maxSequence, hnil]
  · obtain ⟨e, he, hseq⟩ := List.mem_map.1 (Db.foldr_max_mem hnil)
    obtain ⟨hmem, hin⟩ := List.mem_filter.1 he
    have ht : e.threadId = some t := by simpa [inThread] using hin
    obtain ⟨th', hth', hle⟩ := h.numbered.thread e (h.numbered.events.subset hmem) t ht
    obtain rfl := Option.some.inj (hth.symm.trans hth')
    exact le_of_eq_of_le (show v.maxSequence (inThread t) = e.sequence from hseq.symm) hle

/-- Nor does one of a run without a thread. -/
theorem maxSequence_le_run (h : v.Logbook) {r : RunRow} (hr : v.runs.find? x = some r)
    (hnone : r.threadId = none) : v.maxSequence (inRun x) ≤ r.eventSeq := by
  by_cases hnil : (v.events.filter (inRun x)).map (·.sequence) = []
  · simp [Db.maxSequence, hnil]
  · obtain ⟨e, he, hseq⟩ := List.mem_map.1 (Db.foldr_max_mem hnil)
    obtain ⟨hmem, hin⟩ := List.mem_filter.1 he
    have hx : e.runId = some x := by simpa [inRun] using hin
    obtain ⟨r', hr', hthread⟩ := h.housed e hmem x hx
    obtain rfl := Option.some.inj (hr.symm.trans hr')
    have hle : e.sequence ≤ r.eventSeq :=
      h.numbered.run e (h.numbered.events.subset hmem) (hthread.trans hnone) x r hx hr
    exact le_of_eq_of_le (show v.maxSequence (inRun x) = e.sequence from hseq.symm) hle

end Db.Logbook

/-! ### New numbers -/

/-- The events of the run have numbers below `n`. -/
def Db.Below (x : RunId) (n : Nat) (v : Db) : Prop :=
  ∀ e ∈ v.events, e.runId = some x → e.sequence < n

theorem Db.Below.no_clash {n : Nat} {e : RuntimeEventRow} (h : v.Below x n)
    (hid : e.runId = some x) (hn : n ≤ e.sequence)
    (hterminal : e.terminal = true → v.terminalEvent x = none) :
    v.events.any e.clashes = false := by
  refine List.any_eq_false.2 fun e' he' hclash => ?_
  simp only [RuntimeEventRow.clashes, decide_eq_true_eq] at hclash
  obtain ⟨-, hsame, hseq | ⟨hnew, hold⟩⟩ := hclash
  · have hlt : e'.sequence < n := h e' he' (hsame.symm.trans hid)
    omega
  · have hnone := List.find?_eq_none.1 (hterminal hnew) e' he'
    simp [inRun, hsame.symm.trans hid, hold] at hnone

section Numbers

variable {run : RunRow} {n : Nat} {avail : Lock → Bool}

/-- The counter of its log is above the numbers of a run. -/
theorem Db.Logbook.below (h : v.Logbook) (hrun : v.runs.find? x = some run)
    (hthread : ∀ t th, run.threadId = some t → v.threads.find? t = some th → th.eventSeq < n)
    (hnone : run.threadId = none → run.eventSeq < n) : v.Below x n := by
  intro e he hid
  obtain ⟨r, hr, hhouse⟩ := h.housed e he x hid
  obtain rfl := Option.some.inj (hrun.symm.trans hr)
  have hmem : e ∈ v.recorded := h.numbered.events.subset he
  cases ht : run.threadId with
  | some t =>
      obtain ⟨th, hth, hle⟩ := h.numbered.thread e hmem t (hhouse.trans ht)
      exact hle.trans_lt (hthread t th ht hth)
  | none => exact (h.numbered.run e hmem (hhouse.trans ht) x run hid hrun).trans_lt (hnone ht)

theorem Db.Logbook.nextSequence_below (h : v.Logbook) (hrun : v.runs.find? run.runId = some run)
    (hret : (GraphHarbor.nextSequence run).Returns avail v n v') :
    v'.Below run.runId n ∧ v'.events = v.events := by
  obtain ⟨hn, hv', -⟩ := nextSequence_returns hret
  have hevents : v'.events = v.events := by rw [hv', Db.assignThreadOf_events]
  refine ⟨?_, hevents⟩
  rw [Db.Below, hevents]
  refine h.below hrun (fun t th ht hth => ?_) fun hnone => ?_
  · simp only [hn, Db.nextSequence, ht, hth, Option.elim_some]
    omega
  · simp only [hn, Db.nextSequence, hnone]
    omega

theorem Db.Logbook.lastSequence_below (h : v.Logbook) (hrun : v.runs.find? run.runId = some run)
    (hret : (GraphHarbor.lastSequence run).Returns avail v n v') :
    v'.Below run.runId (n + 1) := by
  obtain ⟨rfl, -⟩ := lastSequence_returns hret
  obtain ⟨hle, hthreads⟩ := Db.Numbered.lastSequence_ge hret
  refine h.below hrun (fun t th ht hth => ?_) fun _ => Nat.lt_succ_of_le hle
  obtain ⟨th', hth', hle'⟩ := hthreads t ht
  obtain rfl := Option.some.inj (hth.symm.trans hth')
  exact Nat.lt_succ_of_le hle'

theorem assignThreadOf_events {th : Option ThreadId} {f : ThreadRow → ThreadRow} {a : Unit}
    (h : (assignThreadOf th f).Returns avail v a v') : v'.events = v.events := by
  cases th with
  | none => rw [(returns_ret.1 h).2]
  | some t =>
      rw [(returns_assignThread.1 h).1]
      rfl

end Numbers

/-- What every committed database satisfies. -/
structure Db.Intact (v : Db) : Prop extends Db.Logbook v where
  mirrored : v.Mirrored

/-- What a transaction relies on: the rows it has locked stay as they are. -/
def lockEnv : Env engine where
  rely H v v' := v.Respects H v' ∧ (v.Intact → v'.Intact)
  admits _ _ _ _ := True
  refl H v := ⟨.refl H v, id⟩
  trans h h' := ⟨h.1.trans h'.1, fun hv => h'.2 (h.2 hv)⟩
  mono hsub h := ⟨h.1.mono hsub, h.2⟩

/-! ## Local writes -/

/-- The write treats locked rows alike wherever they are alike. -/
def LocalWrite (f : Db → Db) : Prop :=
  ∀ H (v v' : Db), v.Respects H v' → (f v).Respects H (f v')

namespace LocalWrite

theorem id : LocalWrite id := fun _ _ _ h => h

theorem comp {f g : Db → Db} (hg : LocalWrite g) (hf : LocalWrite f) :
    LocalWrite fun v => g (f v) :=
  fun H v v' h => hg H (f v) (f v') (hf H v v' h)

theorem updateRun {f : RunRow → RunRow} {hf} : LocalWrite fun v => v.updateRun x f hf := by
  intro H v v' h
  refine ⟨fun y hy => ?_, h.threads, h.events, h.terminal, h.assistants⟩
  change (v'.runs.modify x f hf).find? y = (v.runs.modify x f hf).find? y
  rw [Table.find?_modify hf, Table.find?_modify hf, h.runs y hy]

theorem updateThread {f : ThreadRow → ThreadRow} {hf} :
    LocalWrite fun v => v.updateThread t f hf := by
  intro H v v' h
  refine ⟨h.runs, fun y hy => ?_, h.events, h.terminal, h.assistants⟩
  change (v'.threads.modify t f hf).find? y = (v.threads.modify t f hf).find? y
  rw [Table.find?_modify hf, Table.find?_modify hf, h.threads y hy]

theorem insertEvent {e : RuntimeEventRow} : LocalWrite fun v => v.insertEvent e := by
  intro H v v' h
  refine ⟨h.runs, h.threads, fun e' he' x hx hlock => ?_, fun x hx => ?_, h.assistants⟩
  · rcases List.mem_append.1 he' with hold | hnew
    · exact List.mem_append_left _ (h.events e' hold x hx hlock)
    · exact List.mem_append_right _ hnew
  · have hterminal := h.terminal x hx
    simp only [Db.terminalEvent, Db.insertEvent, List.find?_append] at hterminal ⊢
    rw [hterminal]

/-- Writes to the leases. -/
theorem leases {g : Db → Table RunLeaseRow} : LocalWrite fun v => { v with leases := g v } :=
  fun _ _ _ h => ⟨h.runs, h.threads, h.events, h.terminal, h.assistants⟩

end LocalWrite

/-! ## Reruns -/

/-- The repository raises the exception itself; the others come from the database. -/
def Err.Raised : Err → Prop
  | .integrity | .staleData => False
  | _ => True

/-- The statement inserts no event: it checks no unique index that it could violate. -/
def Stmt.Unindexed : Stmt β → Prop
  | .insertEvent _ => False
  | _ => True

theorem Stmt.Unindexed.direct_ok {s : Stmt β} (hs : s.Unindexed) (avail : Lock → Bool) (v : Db)
    (e : Err) : s.direct avail v ≠ some (.error e) := by
  intro h
  cases s with
  | insertEvent => exact hs
  | _ =>
      simp only [Stmt.direct] at h
      (repeat' split at h) <;> simp at h

section Reruns

variable {tx tx' tx₁ : Tx Db Lock Session} {u v₁ : Db} {a : α} {b : β} {p : Txn α} {s : Stmt β}

/-- The transaction has loaded only rows it has locked: its copies are what is stored. -/
structure Settled (tx : Tx Db Lock Session) (v : Db) : Prop where
  localWrite : LocalWrite tx.effect
  coherent : ∀ v', lockEnv.rely tx.held v v' → tx.session.Coherent (tx.effect v')

/-- The database the transaction sees has this property, now and later. -/
def Steady (I : Db → Prop) (tx : Tx Db Lock Session) (v : Db) : Prop :=
  ∀ v', lockEnv.rely tx.held v v' → I (tx.effect v')

/-- What the program returns, it would have returned had it run whole at that time, and it
fails by exceptions of its own only. -/
structure Reruns (p : Txn α) (tx : Tx Db Lock Session) (v : Db) : Prop where
  returns : ∀ a tx' v', lockEnv.Ends p tx v (.ok a) tx' v' →
    p.Returns unlocked (tx.effect v') a (tx'.effect v') ∧ Settled tx' v'
  raises : ∀ e tx' v', lockEnv.Ends p tx v (.error e) tx' v' → e.Raised

/-- The program only fails, and by exceptions of its own. -/
def OnlyFails (p : Txn α) : Prop :=
  ∀ tx v r tx' v', lockEnv.Ends p tx v r tx' v' → ∃ e : Err, r = .error e ∧ e.Raised

theorem Settled.start : Settled engine.start v where
  localWrite := .id
  coherent v' _ := .empty v'

theorem Settled.rely (h : Settled tx v) (hrely : lockEnv.rely tx.held v v') : Settled tx v' :=
  ⟨h.localWrite, fun w hw => h.coherent w (lockEnv.trans hrely hw)⟩

theorem Settled.respects (h : Settled tx v) (hrely : lockEnv.rely H u w) :
    (tx.effect u).Respects H (tx.effect w) := h.localWrite H u w hrely.1

theorem Steady.rely {I : Db → Prop} (h : Steady I tx v) (hrely : lockEnv.rely tx.held v v') :
    Steady I tx v' := fun w hw => h w (lockEnv.trans hrely hw)

theorem Steady.now {I : Db → Prop} (h : Steady I tx v) : I (tx.effect v) :=
  h v (lockEnv.refl _ v)

theorem Steady.and {I J : Db → Prop} (h : Steady I tx v) (h' : Steady J tx v) :
    Steady (fun w => I w ∧ J w) tx v := fun w hw => ⟨h w hw, h' w hw⟩

/-- The same writes under more locks. -/
theorem Steady.lock {I : Db → Prop} (h : Steady I tx v) (heffect : tx₁.effect = tx.effect)
    (hheld : tx.held ⊆ tx₁.held) : Steady I tx₁ v := fun w hw => by
  rw [heffect]
  exact h w (lockEnv.mono hheld hw)

/-- What the program brings about when it runs whole, it brings about when it reruns. -/
theorem Steady.next {I J : Db → Prop} (h : Steady I tx v) (hp : Reruns p tx v)
    (hnext : ∀ w w', p.Returns unlocked w a w' → I w → J w')
    (hends : lockEnv.Ends p tx v (.ok a) tx' v') : Steady J tx' v' := by
  intro w hw
  have hends' : lockEnv.Ends p tx v (.ok a) tx' w := hends.wait hw
  exact hnext _ _ (hp.returns a tx' w hends').1 (h w hends'.rely)

/-- A program that records through the recorders keeps the logbook. -/
theorem Steady.logs (h : Steady Db.Logbook tx v) (hp : Reruns p tx v) (hlogs : p.Logs K)
    (hthread : ¬K .dropThread) (hsubmit : ¬K .submit)
    (hends : lockEnv.Ends p tx v (.ok a) tx' v') : Steady Db.Logbook tx' v' :=
  h.next hp (fun _ _ hret => hlogs.preserves (Db.Logbook.recorders hthread hsubmit) hret) hends

theorem Steady.plain (h : Steady Db.Logbook tx v) (hp : Reruns p tx v)
    (hwithin : p.Within fun _ => False)
    (hends : lockEnv.Ends p tx v (.ok a) tx' v') : Steady Db.Logbook tx' v' :=
  h.logs (K := fun _ => False) hp (.within (hwithin.mono fun _ hk => hk.elim)) id id hends

/-! ### Programs -/

theorem Settled.succeeds (h : Settled tx v) {avail : Lock → Bool} {e : Err}
    (hu : lockEnv.rely tx.held v u) (hs : s.Unindexed := by exact trivial) :
    s.sem avail tx.session (tx.effect u) ≠ some (.error e) := by
  intro hsem
  have hdirect := @Stmt.sem_direct _ avail _ _ s (h.coherent u hu)
  rw [hsem] at hdirect
  exact hs.direct_ok avail _ e hdirect

theorem onlyFails_throw {e : Err} (he : e.Raised) : OnlyFails (.throw e : Txn α) := by
  rintro tx v r tx' v' ⟨rfl, -, -⟩
  exact ⟨e, rfl, he⟩

theorem OnlyFails.reruns (h : OnlyFails p) : Reruns p tx v := by
  refine ⟨fun a tx' v' hends => ?_, fun e tx' v' hends => ?_⟩
  · obtain ⟨e, herror, -⟩ := h _ _ _ _ _ hends
    cases herror
  · obtain ⟨e', herror, hraised⟩ := h _ _ _ _ _ hends
    obtain rfl := Except.error.inj herror
    exact hraised

theorem reruns_throw {e : Err} (he : e.Raised) : Reruns (.throw e : Txn α) tx v :=
  (onlyFails_throw he).reruns

theorem reruns_ret (h : Settled tx v) : Reruns (.ret a) tx v := by
  refine ⟨?_, fun e tx' v' hends => by cases hends.1⟩
  rintro b tx' v' ⟨hb, rfl, hrely⟩
  obtain rfl := Except.ok.inj hb
  exact ⟨returns_ret.2 ⟨rfl, rfl⟩, h.rely hrely⟩

theorem reruns_bind {f : α → Txn β} (hp : Reruns p tx v)
    (hf : ∀ a tx₁ v₁, lockEnv.Ends p tx v (.ok a) tx₁ v₁ → Settled tx₁ v₁ → Reruns (f a) tx₁ v₁) :
    Reruns (p >>= f) tx v := by
  have hrest {a tx₁ v₁} (ha : lockEnv.Ends p tx v (.ok a) tx₁ v₁) : Reruns (f a) tx₁ v₁ :=
    hf a tx₁ v₁ ha (hp.returns a tx₁ v₁ ha).2
  refine ⟨fun b tx' v' h => ?_, fun e tx' v' h => ?_⟩
  · obtain ⟨a, tx₁, v₁, ha, hb⟩ := Env.ends_bind_ok h
    obtain ⟨hret, hsettled⟩ := (hrest ha).returns b tx' v' hb
    have hwait : lockEnv.Ends p tx v (.ok a) tx₁ v' := ha.wait hb.rely
    exact ⟨returns_bind.2 ⟨a, tx₁.effect v', (hp.returns a tx₁ v' hwait).1, hret⟩, hsettled⟩
  · rcases Env.ends_bind h with ⟨e', he, herror⟩ | ⟨a, tx₁, v₁, ha, hb⟩
    · obtain rfl := Except.error.inj herror
      exact hp.raises e tx' v' he
    · exact (hrest ha).raises e tx' v' hb

theorem reruns_map {f : α → β} (hp : Reruns p tx v) :
    Reruns (p >>= fun a => pure (f a)) tx v :=
  reruns_bind hp fun _ _ _ _ hset => reruns_ret hset

/-- A statement that would have the same outcome at the end, unless the rest of the program
fails after it. -/
theorem reruns_stmt {k : β → Txn α} (h : Settled tx v)
    (hsucceeds : ∀ u avail e, lockEnv.rely tx.held v u →
      s.sem avail tx.session (tx.effect u) ≠ some (.error e))
    (hsame : ∀ u w avail o, lockEnv.rely tx.held v u → lockEnv.rely tx.held v w →
      s.sem avail tx.session (tx.effect u) = some (.ok o) →
      (tx.effect u).Respects (tx.held ++ o.locks) (tx.effect w) → ¬OnlyFails (k o.value) →
      s.sem unlocked tx.session (tx.effect w) = some (.ok o) ∧ LocalWrite o.effect)
    (hk : ∀ u avail o, lockEnv.rely tx.held v u →
      s.sem avail tx.session (tx.effect u) = some (.ok o) → ¬OnlyFails (k o.value) →
      Settled ⟨tx.held ++ o.locks, fun d => o.effect (tx.effect d), o.session⟩ u →
      Reruns (k o.value) ⟨tx.held ++ o.locks, fun d => o.effect (tx.effect d), o.session⟩ u) :
    Reruns (.stmt s k) tx v := by
  -- the rest of the program, and the outcome at every time after the statement
  have hrest {u avail o} (hu : lockEnv.rely tx.held v u)
      (hsem : s.sem avail tx.session (tx.effect u) = some (.ok o)) (hnot : ¬OnlyFails (k o.value)) :
      Reruns (k o.value) ⟨tx.held ++ o.locks, fun d => o.effect (tx.effect d), o.session⟩ u ∧
        ∀ w, lockEnv.rely (tx.held ++ o.locks) u w →
          s.direct unlocked (tx.effect w) = some (.ok (o.value, o.effect (tx.effect w))) := by
    have hlater (w : Db) (hw : lockEnv.rely (tx.held ++ o.locks) u w) :
        s.direct unlocked (tx.effect w) = some (.ok (o.value, o.effect (tx.effect w))) ∧
          o.session.Coherent (o.effect (tx.effect w)) ∧ LocalWrite o.effect := by
      have hw' : lockEnv.rely tx.held v w :=
        lockEnv.trans hu (lockEnv.mono (List.subset_append_left _ _) hw)
      obtain ⟨hagain, hlocal⟩ := hsame u w avail o hu hw' hsem (h.respects hw) hnot
      have hdirect := @Stmt.sem_direct _ unlocked _ _ s (h.coherent w hw')
      rw [hagain] at hdirect
      exact ⟨hdirect.1, hdirect.2, hlocal⟩
    have hlocal : LocalWrite o.effect := (hlater u (lockEnv.refl _ u)).2.2
    exact ⟨hk u avail o hu hsem hnot
      ⟨hlocal.comp h.localWrite, fun w hw => (hlater w hw).2.1⟩, fun w hw => (hlater w hw).1⟩
  refine ⟨fun a tx' v' hends => ?_, fun e tx' v' hends => ?_⟩
  · obtain ⟨u, avail, hu, ⟨e, -, herror, -⟩ | ⟨b, tx₁, -, hexec, hends⟩⟩ := hends
    · cases herror
    · obtain ⟨o, hsem, rfl, rfl⟩ := Engine.exec_ok hexec
      by_cases hfails : OnlyFails (k o.value)
      · obtain ⟨e, herror, -⟩ := hfails _ _ _ _ _ hends
        cases herror
      · obtain ⟨hreruns, hlater⟩ := hrest hu hsem hfails
        obtain ⟨hret, hsettled⟩ := hreruns.returns a tx' v' hends
        refine ⟨?_, hsettled⟩
        rw [← Prog.perform_bind, returns_bind]
        exact ⟨o.value, o.effect (tx.effect v'),
          returns_perform.2 (hlater v' hends.rely), hret⟩
  · obtain ⟨u, avail, hu, ⟨e', hexec, -, -⟩ | ⟨b, tx₁, -, hexec, hends⟩⟩ := hends
    · exact absurd (Engine.exec_error hexec) (hsucceeds u avail e' hu)
    · obtain ⟨o, hsem, rfl, rfl⟩ := Engine.exec_ok hexec
      by_cases hfails : OnlyFails (k o.value)
      · exact (hfails.reruns).raises e tx' v' hends
      · exact (hrest hu hsem hfails).1.raises e tx' v' hends

/-- A statement that would have the same outcome at the end. -/
theorem reruns_perform (h : Settled tx v)
    (hsucceeds : ∀ u avail e, lockEnv.rely tx.held v u →
      s.sem avail tx.session (tx.effect u) ≠ some (.error e))
    (hsame : ∀ u w avail o, lockEnv.rely tx.held v u → lockEnv.rely tx.held v w →
      s.sem avail tx.session (tx.effect u) = some (.ok o) →
      (tx.effect u).Respects (tx.held ++ o.locks) (tx.effect w) →
      s.sem unlocked tx.session (tx.effect w) = some (.ok o) ∧ LocalWrite o.effect) :
    Reruns (.perform s) tx v :=
  reruns_stmt h hsucceeds
    (fun u w avail o hu hw hsem hrespects _ => hsame u w avail o hu hw hsem hrespects)
    fun _ _ _ _ _ _ hsettled => reruns_ret hsettled

/-- A query whose answer, as far as the rest of the program uses it, stays the same. -/
theorem reruns_query {f : Db → β} {k : β → Txn α}
    (hsame : ∀ u w, lockEnv.rely tx.held v u → lockEnv.rely tx.held u w →
      k (f (tx.effect u)) = k (f (tx.effect w)))
    (hk : ∀ u, lockEnv.rely tx.held v u → Reruns (k (f (tx.effect u))) tx u) :
    Reruns (query f >>= k) tx v := by
  -- the answer is what the database held when it was asked
  have hquery {b tx₁ v₁} (hb : lockEnv.Ends (query f) tx v (.ok b) tx₁ v₁) :
      ∃ u, lockEnv.rely tx.held v u ∧ lockEnv.rely tx.held u v₁ ∧ b = f (tx.effect u) ∧
        tx₁ = tx := by
    obtain ⟨u, avail, hu, -, hexec, hv₁⟩ := Env.ends_perform hb
    obtain ⟨o, hsem, rfl, htx⟩ := Engine.exec_ok hexec
    simp only [engine, Stmt.sem] at hsem
    obtain rfl := Except.ok.inj (Option.some.inj hsem)
    obtain rfl : tx₁ = tx := by simpa using htx
    exact ⟨u, hu, hv₁, rfl, rfl⟩
  refine ⟨fun a tx' v' h => ?_, fun e tx' v' h => ?_⟩
  · obtain ⟨b, tx₁, v₁, hb, ha⟩ := Env.ends_bind_ok h
    obtain ⟨u, hu, hv₁, rfl, rfl⟩ := hquery hb
    obtain ⟨hret, hsettled⟩ := (hk u hu).returns a tx' v' (ha.of_rely hv₁)
    refine ⟨returns_bind.2 ⟨f (tx₁.effect v'), tx₁.effect v', returns_query.2 ⟨rfl, rfl⟩, ?_⟩,
      hsettled⟩
    rw [← hsame u v' hu (lockEnv.trans hv₁ ha.rely)]
    exact hret
  · rcases Env.ends_bind h with ⟨e', he, -⟩ | ⟨b, tx₁, v₁, hb, herror⟩
    · obtain ⟨u, avail, -, hexec⟩ := Env.ends_perform_error he
      cases Engine.exec_error hexec
    · obtain ⟨u, hu, hv₁, rfl, rfl⟩ := hquery hb
      exact (hk u hu).raises e tx' v' (herror.of_rely hv₁)

/-- A run that is locked, and found. -/
theorem reruns_lockRun {id : RunId} {k : Option RunRow → Txn α} (h : Settled tx v)
    (hnone : OnlyFails (k none))
    (hsome : ∀ r tx₁ v₁, Settled tx₁ v₁ → (∀ {I : Db → Prop}, Steady I tx v → Steady I tx₁ v₁) →
      .run id ∈ tx₁.held → Steady (·.runs.find? id = some r) tx₁ v₁ →
      Reruns (k (some r)) tx₁ v₁) :
    Reruns (lockRun id >>= k) tx v := by
  refine reruns_stmt h (fun _ _ _ hu => h.succeeds hu)
    (fun u w avail o hu _ hsem hrespects hnot => ?_) fun u avail o hu hsem hnot hsettled => ?_
  · simp only [Stmt.sem] at hsem ⊢
    split at hsem
    · obtain rfl := Except.ok.inj (Option.some.inj hsem)
      exact absurd hnone hnot
    · next stored hstored =>
        split at hsem
        · obtain rfl := Except.ok.inj (Option.some.inj hsem)
          rw [hrespects.runs id (by simp), hstored]
          exact ⟨rfl, .id⟩
        · simp at hsem
  · simp only [Stmt.sem] at hsem
    split at hsem
    · obtain rfl := Except.ok.inj (Option.some.inj hsem)
      exact absurd hnone hnot
    · next stored hfilter =>
        have hstored := (Option.filter_eq_some_iff.1 hfilter).1
        split at hsem
        · obtain rfl := Except.ok.inj (Option.some.inj hsem)
          rw [(h.coherent u hu).loadRun hstored false] at hsettled ⊢
          refine hsome stored _ u hsettled
            (fun hI => (hI.rely hu).lock rfl (List.subset_append_left _ _)) (by simp)
            fun w hw => ?_
          exact ((h.respects hw).runs id (by simp)).trans hstored
        · simp at hsem

/-- A thread that is locked, and found. -/
theorem reruns_lockThread {k : Option ThreadRow → Txn α} (h : Settled tx v)
    (hnone : ∀ u, lockEnv.rely tx.held v u → (tx.effect u).threads.find? t = none →
      OnlyFails (k none))
    (hsome : ∀ th tx₁ v₁, Settled tx₁ v₁ → (∀ {I : Db → Prop}, Steady I tx v → Steady I tx₁ v₁) →
      .thread t ∈ tx₁.held → Steady (·.threads.find? t = some th) tx₁ v₁ →
      Reruns (k (some th)) tx₁ v₁) :
    Reruns (lockThread t >>= k) tx v := by
  refine reruns_stmt h (fun _ _ _ hu => h.succeeds hu)
    (fun u w avail o hu _ hsem hrespects hnot => ?_) fun u avail o hu hsem hnot hsettled => ?_
  · simp only [Stmt.sem] at hsem ⊢
    split at hsem
    · next hmissing =>
        obtain rfl := Except.ok.inj (Option.some.inj hsem)
        exact absurd (hnone u hu hmissing) hnot
    · next stored hstored =>
        split at hsem
        · obtain rfl := Except.ok.inj (Option.some.inj hsem)
          rw [hrespects.threads t (by simp), hstored]
          exact ⟨rfl, .id⟩
        · simp at hsem
  · simp only [Stmt.sem] at hsem
    split at hsem
    · next hmissing =>
        obtain rfl := Except.ok.inj (Option.some.inj hsem)
        exact absurd (hnone u hu hmissing) hnot
    · next stored hstored =>
        split at hsem
        · obtain rfl := Except.ok.inj (Option.some.inj hsem)
          rw [(h.coherent u hu).loadThread hstored false] at hsettled ⊢
          refine hsome stored _ u hsettled
            (fun hI => (hI.rely hu).lock rfl (List.subset_append_left _ _)) (by simp)
            fun w hw => ?_
          exact ((h.respects hw).threads t (by simp)).trans hstored
        · simp at hsem

/-! ### Writes to locked rows -/

theorem reruns_assignRun {f : RunRow → RunRow} (h : Settled tx v) (hheld : .run x ∈ tx.held) :
    Reruns (assignRun x f) tx v := by
  refine reruns_perform h (fun _ _ _ hu => h.succeeds hu)
    fun u w avail o hu hw hsem hrespects => ?_
  have hsame := hrespects.runs x (List.mem_append_left _ hheld)
  simp only [Stmt.sem, hsame] at hsem ⊢
  (repeat' split at hsem) <;> simp only [Option.some.injEq, Except.ok.injEq, reduceCtorEq] at hsem
  · exact ⟨by simp [hsem], hsem ▸ .id⟩
  · next hnew => exact ⟨by simp [hnew, hsem], hsem ▸ .id⟩
  · next hnew _ _ _ _ => exact ⟨by simp [hnew, unlocked, hsem], hsem ▸ .updateRun⟩

theorem reruns_assignThread {f : ThreadRow → ThreadRow} (h : Settled tx v)
    (hheld : .thread t ∈ tx.held) : Reruns (assignThread t f) tx v := by
  refine reruns_perform h (fun _ _ _ hu => h.succeeds hu)
    fun u w avail o hu hw hsem hrespects => ?_
  have hsame := hrespects.threads t (List.mem_append_left _ hheld)
  simp only [Stmt.sem, hsame] at hsem ⊢
  (repeat' split at hsem) <;> simp only [Option.some.injEq, Except.ok.injEq, reduceCtorEq] at hsem
  · exact ⟨by simp [hsem], hsem ▸ .id⟩
  · next hnew => exact ⟨by simp [hnew, hsem], hsem ▸ .id⟩
  · next hnew _ _ _ _ => exact ⟨by simp [hnew, unlocked, hsem], hsem ▸ .updateThread⟩

theorem reruns_updateRun {f : RunRow → RunRow} {hf} (h : Settled tx v)
    (hheld : .run x ∈ tx.held) : Reruns (.perform (.updateRun x f hf)) tx v := by
  refine reruns_perform h (fun _ _ _ hu => h.succeeds hu)
    fun u w avail o hu hw hsem hrespects => ?_
  have hsame := hrespects.runs x (List.mem_append_left _ hheld)
  simp only [Stmt.sem, hsame] at hsem ⊢
  (repeat' split at hsem) <;> simp only [Option.some.injEq, Except.ok.injEq, reduceCtorEq] at hsem
  · exact ⟨by simp [hsem], hsem ▸ .id⟩
  · exact ⟨by simp [unlocked, hsem], hsem ▸ .updateRun⟩

/-- The lock and the assignment of a thread that is stored. -/
theorem reruns_updateThreadOf {th : Option ThreadId} {f : ThreadRow → ThreadRow}
    (h : Settled tx v)
    (hstored : ∀ t, th = some t → Steady (fun w => (w.threads.find? t).isSome) tx v) :
    Reruns (updateThreadOf th f) tx v := by
  cases th with
  | none => exact reruns_ret h
  | some t =>
      refine reruns_lockThread h (fun u hu hmissing => ?_)
        fun thread tx₁ v₁ hset₁ _ hlock hfound => ?_
      · have hsome : ((tx.effect u).threads.find? t).isSome := hstored t rfl u hu
        rw [hmissing] at hsome
        cases hsome
      · obtain rfl : thread.threadId = t := Table.key_of_find? hfound.now
        exact reruns_assignThread hset₁ hlock

/-- A write to tables that the locks do not protect. -/
theorem reruns_write {g : Db → Db} {hg} (h : Settled tx v) (hlocal : LocalWrite g) :
    Reruns (write g hg) tx v := by
  refine reruns_perform h (fun _ _ _ hu => h.succeeds hu)
    fun u w avail o hu hw hsem hrespects => ?_
  simp only [Stmt.sem, Option.some.injEq, Except.ok.injEq] at hsem ⊢
  exact ⟨hsem, hsem ▸ hlocal⟩

/-- An event that violates no unique index. -/
theorem reruns_insertEvent {e : RuntimeEventRow} (h : Settled tx v)
    (hfree : Steady (fun w => w.events.any e.clashes = false) tx v) :
    Reruns (insertEvent e) tx v := by
  have hsem (u : Db) (hu : lockEnv.rely tx.held v u) (avail : Lock → Bool) :
      (Stmt.insertEvent e).sem avail tx.session (tx.effect u) =
        some (.ok
          { value := (), session := tx.session, effect := fun db => db.insertEvent e }) := by
    simp only [Stmt.sem]
    rw [if_neg (Bool.eq_false_iff.1 (hfree u hu))]
  refine reruns_perform h (fun u avail e' hu herror => ?_) fun u w avail o hu hw hagain _ => ?_
  · rw [hsem u hu avail] at herror
    cases herror
  · rw [hsem u hu avail] at hagain
    obtain rfl := Except.ok.inj (Option.some.inj hagain)
    exact ⟨hsem w hw unlocked, .insertEvent⟩

/-! ### The recorders -/

variable {now : Time} {id : RunId} {run : RunRow} {th : Option ThreadId} {topic : String}
  {payload : Dict} {ns : List String} {terminal : Bool}

theorem reruns_withGraphName (h : Settled tx v) :
    Reruns (withGraphName run topic payload) tx v := by
  unfold withGraphName
  split
  · refine reruns_query (fun u w _ hw => ?_) fun u hu => reruns_ret (h.rely hu)
    rw [(h.respects hw).assistants]
  · exact reruns_ret h

theorem reruns_existingTerminal (h : Settled tx v) (hheld : .run id ∈ tx.held) :
    Reruns (existingTerminal id terminal) tx v := by
  unfold existingTerminal
  split
  · refine reruns_query (k := .ret) (fun u w _ hw => ?_) fun u hu => reruns_ret (h.rely hu)
    exact congrArg _ ((h.respects hw).terminal id hheld).symm
  · exact reruns_ret h

/-- The counter of the locked thread decides. -/
theorem reruns_nextThreadSequence (h : Settled tx v) (hsteady : Steady Db.Logbook tx v) :
    Reruns (nextThreadSequence t) tx v := by
  refine reruns_lockThread h (fun _ _ _ => onlyFails_throw trivial)
    fun thread tx₁ v₁ hset hkeeps hlock hfound => ?_
  have hsteady₁ : Steady Db.Logbook tx₁ v₁ := hkeeps hsteady
  have hmax (w : Db) (hw : lockEnv.rely tx₁.held v₁ w) :
      max thread.eventSeq ((tx₁.effect w).maxSequence (inThread t)) = thread.eventSeq :=
    max_eq_left ((hsteady₁ w hw).maxSequence_le_thread (hfound w hw))
  refine reruns_query (fun u w hu hw => ?_) fun u hu => ?_
  · simp only [hmax u hu, hmax w (lockEnv.trans hu hw)]
  · exact reruns_map (reruns_assignThread (hset.rely hu) hlock)

theorem reruns_nextSequence (h : Settled tx v) (hsteady : Steady Db.Logbook tx v)
    (hfound : Steady (·.runs.find? run.runId = some run) tx v) :
    Reruns (nextSequence run) tx v := by
  unfold nextSequence
  split
  · exact reruns_nextThreadSequence h hsteady
  · next hnone =>
      have hmax (w : Db) (hw : lockEnv.rely tx.held v w) :
          max run.eventSeq ((tx.effect w).maxSequence (inRun run.runId)) = run.eventSeq :=
        max_eq_left ((hsteady w hw).maxSequence_le_run (hfound w hw) hnone)
      refine reruns_query (fun u w hu hw => ?_) fun u hu => reruns_ret (h.rely hu)
      simp only [hmax u hu, hmax w (lockEnv.trans hu hw)]

theorem reruns_appendRunEvent (h : Settled tx v) (hsteady : Steady Db.Logbook tx v)
    (hheld : .run run.runId ∈ tx.held)
    (hfound : Steady (·.runs.find? run.runId = some run) tx v)
    (hterminal : Steady (fun w => terminal = true → w.terminalEvent run.runId = none) tx v) :
    Reruns (appendRunEvent now run topic payload ns terminal) tx v := by
  have hnext : Reruns (nextSequence run) tx v := reruns_nextSequence h hsteady hfound
  refine reruns_bind hnext fun n tx₁ v₁ hn hset₁ => ?_
  have hassigns : Reruns (assignRun run.runId (.numbered n)) tx₁ v₁ :=
    reruns_assignRun hset₁ (hn.held hheld)
  -- the number is above those of the run when it is drawn, and remains so
  have hbelow : Steady (fun w => w.Below run.runId n ∧
      (terminal = true → w.terminalEvent run.runId = none)) tx₁ v₁ := by
    refine ((hsteady.and hfound).and hterminal).next hnext (fun w w' hret hw => ?_) hn
    obtain ⟨hw', hevents⟩ := hw.1.1.nextSequence_below hw.1.2 hret
    exact ⟨hw', fun ht => by rw [Db.terminalEvent, hevents]; exact hw.2 ht⟩
  refine reruns_bind hassigns fun _ tx₂ v₂ hassign hset₂ => ?_
  refine reruns_map (reruns_insertEvent hset₂ ?_)
  refine hbelow.next hassigns (fun w w' hret hw => ?_) hassign
  rw [(returns_assignRun.1 hret).1]
  exact Db.Below.no_clash hw.1 rfl le_rfl hw.2

/-- `record_event` for a run, under the locks of the run and of its thread. -/
theorem reruns_recordRunEvent (h : Settled tx v) (hsteady : Steady Db.Logbook tx v) :
    Reruns (recordRunEvent now id th topic payload ns terminal) tx v := by
  refine reruns_lockRun h (onlyFails_throw trivial)
    fun run tx₁ v₁ hset₁ hkeeps hlock hfound => ?_
  obtain rfl : run.runId = id := Table.key_of_find? hfound.now
  have hsteady₁ : Steady Db.Logbook tx₁ v₁ := hkeeps hsteady
  dsimp only
  split
  · exact reruns_throw trivial
  · refine reruns_bind (reruns_withGraphName hset₁) fun p tx₂ v₂ hname hset₂ => ?_
    have hsteady₂ := hsteady₁.plain (reruns_withGraphName hset₁) withGraphName_within hname
    have hfound₂ : Steady (·.runs.find? run.runId = some run) tx₂ v₂ :=
      hfound.next (reruns_withGraphName hset₁) (fun _ _ hret hw => by
        rwa [(withGraphName_returns hret).2]) hname
    have hheld₂ := hname.held hlock
    have hex₂ : Reruns (existingTerminal run.runId terminal) tx₂ v₂ :=
      reruns_existingTerminal hset₂ hheld₂
    refine reruns_bind hex₂ fun ex tx₃ v₃ hex hset₃ => ?_
    split
    · exact reruns_ret hset₃
    · refine reruns_appendRunEvent hset₃ (hsteady₂.plain hex₂ existingTerminal_within hex)
        (hex.held hheld₂) (hfound₂.next hex₂ (fun _ _ hret hw => ?_) hex)
        (hfound₂.next hex₂ (fun w w' hret _ ht => ?_) hex)
      · rwa [(existingTerminal_returns hret).2.2]
      · obtain ⟨hterminal, -, rfl⟩ := existingTerminal_returns hret
        exact (hterminal ht).symm

/-- `record_event` without a run, under the lock of the thread. -/
theorem reruns_recordThreadEvent (h : Settled tx v) (hsteady : Steady Db.Logbook tx v) :
    Reruns (recordThreadEvent now t topic payload ns terminal) tx v := by
  refine reruns_bind (reruns_nextThreadSequence h hsteady) fun n tx₁ v₁ _ hset₁ => ?_
  refine reruns_map (reruns_insertEvent hset₁ fun w _ => ?_)
  -- the unique indexes are about events of runs
  exact List.any_eq_false.2 fun e _ => by simp [RuntimeEventRow.clashes, eventRow]

theorem reruns_lastSequence (h : Settled tx v) (hsteady : Steady Db.Logbook tx v)
    (hfound : Steady (·.runs.find? run.runId = some run) tx v) :
    Reruns (lastSequence run) tx v := by
  unfold lastSequence
  split
  · next t _ =>
      refine reruns_lockThread h (fun _ _ _ => onlyFails_throw trivial)
        fun thread tx₁ v₁ hset hkeeps hlock hthread => ?_
      have hsteady₁ : Steady Db.Logbook tx₁ v₁ := hkeeps hsteady
      have hmax (w : Db) (hw : lockEnv.rely tx₁.held v₁ w) :
          max (max thread.eventSeq run.eventSeq) ((tx₁.effect w).maxSequence (inThread t)) =
            max thread.eventSeq run.eventSeq :=
        max_eq_left (((hsteady₁ w hw).maxSequence_le_thread (hthread w hw)).trans
          (le_max_left _ _))
      refine reruns_query (fun u w hu hw => ?_) fun u hu => reruns_ret (hset.rely hu)
      simp only [hmax u hu, hmax w (lockEnv.trans hu hw)]
  · next hnone =>
      have hmax (w : Db) (hw : lockEnv.rely tx.held v w) :
          max run.eventSeq ((tx.effect w).maxSequence (inRun run.runId)) = run.eventSeq :=
        max_eq_left ((hsteady w hw).maxSequence_le_run (hfound w hw) hnone)
      refine reruns_query (fun u w hu hw => ?_) fun u hu => reruns_ret (h.rely hu)
      simp only [hmax u hu, hmax w (lockEnv.trans hu hw)]

theorem reruns_insertEvents {n : Nat} {events : List (Dict × List String)} (h : Settled tx v)
    (hbelow : Steady (Db.Below id (n + 1)) tx v) :
    Reruns (insertEvents (deltaRows now id th n events)) tx v := by
  induction events generalizing n tx v with
  | nil => exact reruns_ret h
  | cons event events ih =>
      obtain ⟨payload, ns⟩ := event
      have hinserts : Reruns (insertEvent (eventRow now (some id) th (n + 1) "messages" payload ns
          false)) tx v :=
        reruns_insertEvent h fun w hw => (hbelow w hw).no_clash rfl le_rfl fun ht => by cases ht
      refine reruns_bind hinserts fun _ tx₁ v₁ hinsert hset₁ => ih hset₁ ?_
      refine hbelow.next hinserts (fun w w' hret hw e he hid => ?_) hinsert
      rw [(returns_insertEvent.1 hret).1] at he
      rcases List.mem_append.1 he with hold | hnew
      · exact (hw e hold hid).trans (Nat.lt_succ_self _)
      · obtain rfl := List.mem_singleton.1 hnew
        exact Nat.lt_succ_self _

/-- `record_message_deltas`, under the locks of the run and of its thread. -/
theorem reruns_recordMessageDeltas {events : List (Dict × List String)} (h : Settled tx v)
    (hsteady : Steady Db.Logbook tx v) : Reruns (recordMessageDeltas now id th events) tx v := by
  unfold recordMessageDeltas
  split
  · exact reruns_ret h
  · refine reruns_lockRun h (onlyFails_throw trivial)
      fun run tx₁ v₁ hset₁ hkeeps hlock hfound => ?_
    obtain rfl : run.runId = id := Table.key_of_find? hfound.now
    have hsteady₁ : Steady Db.Logbook tx₁ v₁ := hkeeps hsteady
    dsimp only
    split
    · exact reruns_throw trivial
    · have hlast : Reruns (lastSequence run) tx₁ v₁ := reruns_lastSequence hset₁ hsteady₁ hfound
      refine reruns_bind hlast fun n tx₂ v₂ hn hset₂ => ?_
      have hbelow₂ : Steady (Db.Below run.runId (n + 1)) tx₂ v₂ :=
        (hsteady₁.and hfound).next hlast (fun _ _ hret hw => hw.1.lastSequence_below hw.2 hret) hn
      have hassigns : Reruns (assignRun run.runId (.renumbered (n + events.length))) tx₂ v₂ :=
        reruns_assignRun hset₂ (hn.held hlock)
      refine reruns_bind hassigns fun _ tx₃ v₃ hassign hset₃ => ?_
      have hof : Reruns (assignThreadOf run.threadId (.numbered (n + events.length))) tx₃ v₃ := by
        cases ht : run.threadId with
        | none => exact reruns_ret hset₃
        | some t => exact reruns_assignThread hset₃ (hassign.held (lastSequence_held hn t ht))
      refine reruns_bind hof fun _ tx₄ v₄ hends₄ hset₄ => ?_
      refine reruns_map (reruns_insertEvents hset₄ ?_)
      -- the assignments leave the events as they are
      have hbelow₃ : Steady (Db.Below run.runId (n + 1)) tx₃ v₃ :=
        hbelow₂.next hassigns (fun _ _ hret hw => by rwa [(returns_assignRun.1 hret).1]) hassign
      refine hbelow₃.next hof (fun w w' hret hw => ?_) hends₄
      rwa [Db.Below, assignThreadOf_events hret]

end Reruns

end GraphHarbor
