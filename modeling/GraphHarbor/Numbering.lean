import GraphHarbor.Footprint
import GraphHarbor.Transitions

/-!
# The numbers of the log

`record_event` and `record_message_deltas` number an event under the lock of its thread,
or of its run when it has no thread, above the stored counter. As long as no thread is
deleted the counter is not below any number ever given, so the numbers of a thread, and
those of a run without a thread, grow in the order of the commits.
-/

namespace GraphHarbor

open Kit Txn

variable {now : Time} {v v' : Db} {avail : Lock → Bool} {id : RunId} {t : ThreadId} {n : Nat}

/-- The two events are numbered by the same counter. -/
def RuntimeEventRow.SameLog (e e' : RuntimeEventRow) : Prop :=
  e'.threadId = e.threadId ∧ (e.threadId = none → e'.runId = e.runId)

structure Db.Numbered (v : Db) : Prop where
  positive : ∀ e ∈ v.recorded, 0 < e.sequence
  order : v.recorded.Pairwise fun e e' => e.SameLog e' → e.sequence < e'.sequence
  thread : ∀ e ∈ v.recorded, ∀ t, e.threadId = some t →
    ∃ th, v.threads.find? t = some th ∧ e.sequence ≤ th.eventSeq
  run : ∀ e ∈ v.recorded, e.threadId = none → ∀ x r, e.runId = some x →
    v.runs.find? x = some r → e.sequence ≤ r.eventSeq
  source : ∀ e ∈ v.recorded, e.threadId.isSome ∨ e.runId.isSome
  issued : ∀ e ∈ v.recorded, ∀ x, e.runId = some x → x ∈ v.issued
  stored : ∀ x r, v.runs.find? x = some r → x ∈ v.issued
  events : v.events.Sublist v.recorded

namespace Db.Numbered

/-! ## Single writes -/

/-- Rows with counters no lower, and no new event. -/
theorem frame (h : v.Numbered) (hrecorded : v'.recorded = v.recorded)
    (hevents : v'.events.Sublist v.events) (hissued : v'.issued = v.issued)
    (hruns : ∀ x r', v'.runs.find? x = some r' → ∃ r, v.runs.find? x = some r ∧
      r.eventSeq ≤ r'.eventSeq)
    (hthreads : ∀ t th, v.threads.find? t = some th → ∃ th', v'.threads.find? t = some th' ∧
      th.eventSeq ≤ th'.eventSeq) : v'.Numbered where
  positive := hrecorded ▸ h.positive
  order := hrecorded ▸ h.order
  thread e he t ht := by
    rw [hrecorded] at he
    obtain ⟨th, hth, hle⟩ := h.thread e he t ht
    obtain ⟨th', hth', hle'⟩ := hthreads t th hth
    exact ⟨th', hth', hle.trans hle'⟩
  run e he hnone x r' hx hr' := by
    rw [hrecorded] at he
    obtain ⟨r, hr, hle⟩ := hruns x r' hr'
    exact (h.run e he hnone x r hx hr).trans hle
  source e he := h.source e (hrecorded ▸ he)
  issued e he x hx := by
    rw [hrecorded] at he
    rw [hissued]
    exact h.issued e he x hx
  stored x r' hr' := by
    obtain ⟨r, hr, -⟩ := hruns x r' hr'
    rw [hissued]
    exact h.stored x r hr
  events := by
    rw [hrecorded]
    exact hevents.trans h.events

theorem updateRun (h : v.Numbered) {f : RunRow → RunRow} {hf}
    (hseq : ∀ r, v.runs.find? id = some r → r.eventSeq ≤ (f r).eventSeq) :
    (v.updateRun id f hf).Numbered := by
  refine h.frame rfl (List.Sublist.refl _) rfl (fun x r' hr' => ?_) fun t th hth =>
    ⟨th, hth, le_rfl⟩
  rw [Db.updateRun, Table.find?_modify hf] at hr'
  split at hr'
  · next heq =>
      obtain ⟨r, hr, rfl⟩ := Option.map_eq_some_iff.1 hr'
      exact ⟨r, hr, hseq r (heq ▸ hr)⟩
  · exact ⟨r', hr', le_rfl⟩

theorem updateThread (h : v.Numbered) {f : ThreadRow → ThreadRow} {hf}
    (hseq : ∀ th, v.threads.find? t = some th → th.eventSeq ≤ (f th).eventSeq) :
    (v.updateThread t f hf).Numbered := by
  refine h.frame rfl (List.Sublist.refl _) rfl (fun x r hr => ⟨r, hr, le_rfl⟩) fun x th hth => ?_
  rw [Db.updateThread, Table.find?_modify hf]
  split
  · next heq => exact ⟨f th, by rw [hth]; rfl, hseq th (heq ▸ hth)⟩
  · exact ⟨th, hth, le_rfl⟩

theorem insertRun (h : v.Numbered) {r : RunRow} (hfresh : v.drawn r.runId = false) :
    (v.insertRun r).Numbered := by
  simp only [drawn, Bool.or_eq_false_iff, decide_eq_false_iff_not] at hfresh
  have habsent : v.runs.find? (Keyed.key r) = none := by simpa using hfresh.2
  refine ⟨h.positive, h.order, h.thread, fun e he hnone x r' hx hr' => ?_,
    h.source, fun e he x hx =>
    List.mem_append_left _ (h.issued e he x hx), fun x r' hr' => ?_, h.events⟩
  · rw [Db.insertRun, Table.find?_insert habsent] at hr'
    split at hr'
    · -- a new run has no events yet
      next heq =>
        rw [key_run] at heq
        exact absurd (heq ▸ h.issued e he x hx) hfresh.1
    · exact h.run e he hnone x r' hx hr'
  · rw [Db.insertRun, Table.find?_insert habsent] at hr'
    split at hr'
    · next heq => exact List.mem_append_right _ (by simp [heq])
    · exact List.mem_append_left _ (h.stored x r' hr')

theorem write {K : Kind → Prop} (hK : ¬K .dropThread) (hw : v.Write (Silent K) v')
    (h : v.Numbered) : v'.Numbered := by
  have hlog : ¬Silent K .log := fun hk => hk.2 rfl
  cases hw with
  | read => exact h
  | run id f hf keeps => exact h.updateRun fun r _ => ((keeps r).seq.resolve_right hlog).ge
  | thread t f hf keeps => exact h.updateThread fun th _ => ((keeps th).seq.resolve_right hlog).ge
  | submit new _ fresh => exact h.insertRun fresh
  | openThread new _ fresh =>
      refine h.frame rfl (List.Sublist.refl _) rfl (fun x r hr => ⟨r, hr, le_rfl⟩)
        fun t th hth => ⟨th, ?_, le_rfl⟩
      rw [Table.find?_insert (show v.threads.find? (Keyed.key new) = none from fresh), if_neg, hth]
      rintro rfl
      rw [key_thread, fresh] at hth
      cases hth
  | log _ kind => exact absurd kind hlog
  | dropRun id =>
      refine h.frame rfl List.filter_sublist rfl (fun x r hr => ⟨r, ?_, le_rfl⟩)
        fun t th hth => ⟨th, hth, le_rfl⟩
      rw [Db.deleteRun, Table.find?_erase] at hr
      split at hr
      · cases hr
      · exact hr
  | dropThread _ kind => exact absurd kind.1 hK
  | tables v' keeps runs threads =>
      refine h.frame keeps.recorded ?_ keeps.issued (fun x r hr => ⟨r, runs ▸ hr, le_rfl⟩)
        fun t th hth => ⟨th, threads ▸ hth, le_rfl⟩
      rcases keeps.events with hevents | ⟨-, hsublist⟩
      · exact hevents ▸ List.Sublist.refl _
      · exact hsublist

/-! ## New events -/

/-- An event with a number above those of its log, and not above its counter. -/
theorem insertEvent (h : v.Numbered) {e : RuntimeEventRow} (hpos : 0 < e.sequence)
    (habove : ∀ e₀ ∈ v.recorded, e₀.SameLog e → e₀.sequence < e.sequence)
    (hthread : ∀ t, e.threadId = some t → ∃ th, v.threads.find? t = some th ∧
      e.sequence ≤ th.eventSeq)
    (hrun : ∀ x, e.runId = some x → ∃ r, v.runs.find? x = some r ∧
      (e.threadId = none → e.sequence ≤ r.eventSeq))
    (hsource : e.threadId.isSome ∨ e.runId.isSome) : (v.insertEvent e).Numbered where
  positive e₀ he₀ := by
    rcases List.mem_append.1 he₀ with he₀ | he₀
    · exact h.positive e₀ he₀
    · exact List.mem_singleton.1 he₀ ▸ hpos
  order := by
    refine List.pairwise_append.2 ⟨h.order, List.pairwise_singleton _ _, fun e₀ he₀ e' he' => ?_⟩
    exact List.mem_singleton.1 he' ▸ habove e₀ he₀
  thread e₀ he₀ t ht := by
    rcases List.mem_append.1 he₀ with he₀ | he₀
    · exact h.thread e₀ he₀ t ht
    · exact hthread t (List.mem_singleton.1 he₀ ▸ ht) |>.imp fun th hth =>
        ⟨hth.1, List.mem_singleton.1 he₀ ▸ hth.2⟩
  run e₀ he₀ hnone x r hx hr := by
    rcases List.mem_append.1 he₀ with he₀ | he₀
    · exact h.run e₀ he₀ hnone x r hx hr
    · obtain rfl := List.mem_singleton.1 he₀
      obtain ⟨r', hr', hle⟩ := hrun x hx
      obtain rfl := Option.some.inj (hr.symm.trans hr')
      exact hle hnone
  source e₀ he₀ := by
    rcases List.mem_append.1 he₀ with he₀ | he₀
    · exact h.source e₀ he₀
    · exact List.mem_singleton.1 he₀ ▸ hsource
  issued e₀ he₀ x hx := by
    rcases List.mem_append.1 he₀ with he₀ | he₀
    · exact h.issued e₀ he₀ x hx
    · obtain ⟨r, hr, -⟩ := hrun x (List.mem_singleton.1 he₀ ▸ hx)
      exact h.stored x r hr
  stored := h.stored
  events := h.events.append (List.Sublist.refl _)

/-- No number of a log exceeds its counter. -/
theorem le_counter (h : v.Numbered) {e : RuntimeEventRow}
    (hthread : ∀ t th, e.threadId = some t → v.threads.find? t = some th → th.eventSeq ≤ n)
    (hrun : ∀ x, e.runId = some x → ∃ r, v.runs.find? x = some r ∧
      (e.threadId = none → r.eventSeq ≤ n)) :
    ∀ e₀ ∈ v.recorded, e₀.SameLog e → e₀.sequence ≤ n := by
  intro e₀ he₀ ⟨hthreads, hruns⟩
  cases ht : e₀.threadId with
  | some t =>
      obtain ⟨th, hth, hle⟩ := h.thread e₀ he₀ t ht
      exact hle.trans (hthread t th (hthreads.trans ht) hth)
  | none =>
      obtain ⟨x, hx⟩ := Option.isSome_iff_exists.1 ((h.source e₀ he₀).resolve_left (by simp [ht]))
      obtain ⟨r, hr, hle⟩ := hrun x ((hruns ht).trans hx)
      exact (h.run e₀ he₀ ht x r hx hr).trans (hle (hthreads.trans ht))

theorem recordThreadEvent {topic : String} {payload : Dict} {ns : List String} {terminal : Bool}
    {e : RuntimeEventRow} (hv : v.Numbered)
    (h : (recordThreadEvent now t topic payload ns terminal).Returns avail v e v') :
    v'.Numbered := by
  simp only [GraphHarbor.recordThreadEvent, returns_bind, returns_insertEvent, Prog.pure_eq,
    returns_ret] at h
  obtain ⟨n, v₁, hn, _, _, ⟨rfl, -⟩, -, rfl⟩ := h
  obtain ⟨⟨thread, hthread, hseq⟩, rfl⟩ := nextThreadSequence_returns hn
  have hlt : thread.eventSeq < n := by omega
  have hpos : 0 < n := by omega
  have hv₁ : (v.assignThread t (.numbered n)).Numbered := by
    refine hv.updateThread fun th hth => ?_
    obtain rfl := Option.some.inj (hthread.symm.trans hth)
    exact hlt.le
  refine hv₁.insertEvent hpos (fun e₀ he₀ hsame => ?_) (fun x hx => ?_) (fun x hx => by cases hx)
    (.inl rfl)
  · refine lt_of_le_of_lt (hv.le_counter (fun x th hx hth => ?_) (fun x hx => ?_) e₀ he₀ hsame) hlt
    · obtain rfl := Option.some.inj hx
      obtain rfl := Option.some.inj (hthread.symm.trans hth)
      exact le_rfl
    · cases hx
  · obtain rfl := Option.some.inj hx
    refine ⟨thread.assign (.numbered n), ?_, le_rfl⟩
    rw [Db.find?_assignThread, if_pos rfl, hthread]
    rfl

/-- The counters after the event `e` of the run `id` was numbered. -/
theorem logged (hv : v.Numbered) {run : RunRow} {e : RuntimeEventRow}
    (hrun : v.runs.find? id = some run) (hid : e.runId = some id)
    (hthread : e.threadId = run.threadId) (hseq : e.sequence = v.nextSequence run)
    (hthreads : ∀ t, run.threadId = some t → (v.threads.find? t).isSome) :
    (v.logged id e).Numbered := by
  have hthread_lt (t : ThreadId) (th : ThreadRow) (ht : e.threadId = some t)
      (hth : v.threads.find? t = some th) : th.eventSeq < e.sequence := by
    rw [hseq, Db.nextSequence, ← hthread, ht]
    simp only [hth, Option.elim_some]
    omega
  have hrun_lt (hnone : e.threadId = none) : run.eventSeq < e.sequence := by
    rw [hseq, Db.nextSequence, ← hthread, hnone]
    simp only
    omega
  have hv₁ : (v.assignThreadOf e.threadId (.numbered e.sequence)).Numbered := by
    cases ht : e.threadId with
    | none => exact hv
    | some t => exact hv.updateThread fun th hth => (hthread_lt t th ht hth).le
  have hv₂ : ((v.assignThreadOf e.threadId (.numbered e.sequence)).assignRun id
      (.numbered e.sequence)).Numbered := hv₁.updateRun fun r _ => le_max_left _ _
  have hpos : 0 < e.sequence := by
    rw [hseq, Db.nextSequence]
    split <;> omega
  refine hv₂.insertEvent hpos (fun e₀ he₀ hsame => ?_) (fun t ht => ?_) (fun x hx => ?_)
    (.inr (by rw [hid]; rfl))
  · have hmem : e₀ ∈ v.recorded := by simpa using he₀
    -- below the number it gets, the event of the log has a counter
    have hle := hv.le_counter (n := e.sequence - 1) (fun t th ht hth => ?_) (fun x hx => ?_) e₀ hmem
      hsame
    · omega
    · have := hthread_lt t th ht hth
      omega
    · obtain rfl := Option.some.inj (hid.symm.trans hx)
      refine ⟨run, hrun, fun hnone => ?_⟩
      have := hrun_lt hnone
      omega
  · obtain ⟨th, hth⟩ := Option.isSome_iff_exists.1 (hthreads t (hthread.symm.trans ht))
    refine ⟨th.assign (.numbered e.sequence), ?_, le_rfl⟩
    rw [ht]
    change (v.assignThread t (.numbered e.sequence)).threads.find? t = _
    rw [Db.find?_assignThread, if_pos rfl, hth]
    rfl
  · obtain rfl := Option.some.inj (hid.symm.trans hx)
    refine ⟨run.assign (.numbered e.sequence), ?_, fun _ => le_max_right _ _⟩
    rw [Db.find?_assignRun, if_pos rfl, Db.assignThreadOf_runs, hrun]
    rfl

theorem recordRunEvent {th : Option ThreadId} {topic : String} {payload : Dict}
    {ns : List String} {terminal : Bool} {e : RuntimeEventRow} (hv : v.Numbered)
    (h : (recordRunEvent now id th topic payload ns terminal).Returns avail v e v') :
    v'.Numbered := by
  obtain ⟨run, hrun, ⟨-, -, rfl⟩ | ⟨-, he, rfl, -, hthreads⟩⟩ := recordRunEvent_returns h
  · exact hv
  · exact hv.logged hrun (by rw [he]; rfl) (by rw [he]; rfl) (by rw [he]; rfl) hthreads

/-! ## Batches of deltas -/

/-- The number before a batch is not below the counters of its log. -/
theorem lastSequence_ge {run : RunRow} (h : (lastSequence run).Returns avail v n v') :
    run.eventSeq ≤ n ∧ ∀ t, run.threadId = some t → ∃ th, v.threads.find? t = some th ∧
      th.eventSeq ≤ n := by
  unfold lastSequence at h
  split at h
  · next t ht =>
      simp only [returns_bind, returns_lockThread] at h
      obtain ⟨_, _, ⟨rfl, rfl, -⟩, h⟩ := h
      split at h
      · simp at h
      · next thread hthread =>
          simp only [returns_bind, returns_query, Prog.pure_eq, returns_ret] at h
          obtain ⟨_, _, ⟨rfl, rfl⟩, rfl, rfl⟩ := h
          refine ⟨by omega, fun x hx => ?_⟩
          obtain rfl := Option.some.inj (ht.symm.trans hx)
          exact ⟨thread, hthread, by omega⟩
  · next ht =>
      simp only [returns_bind, returns_query, Prog.pure_eq, returns_ret] at h
      obtain ⟨_, _, ⟨rfl, rfl⟩, rfl, rfl⟩ := h
      exact ⟨le_max_left _ _, fun x hx => by simp [ht] at hx⟩

/-- The rows of a batch go above the number `n`, as far as the counters were raised. -/
theorem insertDeltas {th : Option ThreadId} {events : List (Dict × List String)} {u : Unit}
    {run : RunRow} (hv : v.Numbered) (hrun : v.runs.find? id = some run)
    (hthread : ∀ t, th = some t → ∃ th, v.threads.find? t = some th ∧
      n + events.length ≤ th.eventSeq)
    (hcounter : n + events.length ≤ run.eventSeq)
    (hbelow : ∀ e₀ ∈ v.recorded, e₀.threadId = th → (th = none → e₀.runId = some id) →
      e₀.sequence ≤ n)
    (h : (insertEvents (deltaRows now id th n events)).Returns avail v u v') : v'.Numbered := by
  induction events generalizing v n with
  | nil =>
      obtain ⟨-, rfl⟩ := returns_ret.1 h
      exact hv
  | cons x xs ih =>
      obtain ⟨payload, ns⟩ := x
      simp only [deltaRows, insertEvents, returns_bind, returns_insertEvent] at h
      obtain ⟨_, _, ⟨rfl, -⟩, h⟩ := h
      simp only [List.length_cons] at hthread hcounter
      have hv' : (v.insertEvent
          (eventRow now (some id) th (n + 1) "messages" payload ns false)).Numbered := by
        refine hv.insertEvent (Nat.succ_pos n) (fun e₀ he₀ hsame => ?_) (fun t ht => ?_)
          (fun y hy => ?_) (.inr rfl)
        · have hle := hbelow e₀ he₀ hsame.1.symm fun hnone =>
            (hsame.2 (hsame.1.symm.trans hnone)).symm
          change e₀.sequence < n + 1
          omega
        · obtain ⟨row, hrow, hle⟩ := hthread t ht
          refine ⟨row, hrow, ?_⟩
          change n + 1 ≤ row.eventSeq
          omega
        · obtain rfl := Option.some.inj hy
          refine ⟨run, hrun, fun _ => ?_⟩
          change n + 1 ≤ run.eventSeq
          omega
      refine ih hv' hrun (fun t ht => ?_) (by omega) (fun e₀ he₀ hth hid => ?_) h
      · obtain ⟨row, hrow, hle⟩ := hthread t ht
        exact ⟨row, hrow, by omega⟩
      · rcases List.mem_append.1 he₀ with he₀ | he₀
        · exact (hbelow e₀ he₀ hth hid).trans (Nat.le_succ n)
        · obtain rfl := List.mem_singleton.1 he₀
          exact le_rfl

theorem recordMessageDeltas {th : Option ThreadId} {events : List (Dict × List String)}
    {es : List RuntimeEventRow} (hv : v.Numbered)
    (h : (recordMessageDeltas now id th events).Returns avail v es v') : v'.Numbered := by
  unfold GraphHarbor.recordMessageDeltas at h
  split at h
  · obtain ⟨-, rfl⟩ := returns_ret.1 h
    exact hv
  · simp only [returns_bind, returns_lockRun] at h
    obtain ⟨_, _, ⟨rfl, rfl, -⟩, h⟩ := h
    split at h
    · simp at h
    · next run hrun =>
        split at h
        · simp at h
        · simp only [returns_bind, returns_assignRun, Prog.pure_eq, returns_ret] at h
          obtain ⟨n, v₀, hn, _, v₁, ⟨hv₁, -⟩, _, v₂, hassign, _, v₃, hinsert, -, rfl⟩ := h
          obtain ⟨rfl, -⟩ := lastSequence_returns hn
          obtain ⟨hrun_le, hthread_le⟩ := lastSequence_ge hn
          have hnumbered₁ : v₁.Numbered := by
            rw [hv₁]
            refine hv.updateRun fun r hr => ?_
            obtain rfl := Option.some.inj (hrun.symm.trans hr)
            exact hrun_le.trans (Nat.le_add_right _ _)
          have hrun₁ : v₁.runs.find? id = some (run.assign (.renumbered (n + events.length))) := by
            rw [hv₁, Db.find?_assignRun, if_pos rfl, hrun]
            rfl
          have hv₂ : v₂ = v₁.assignThreadOf run.threadId (.numbered (n + events.length)) := by
            cases ht : run.threadId with
            | none =>
                rw [ht] at hassign
                exact (returns_ret.1 hassign).2
            | some t =>
                rw [ht] at hassign
                exact (returns_assignThread.1 hassign).1
          have hnumbered₂ : v₂.Numbered := by
            rw [hv₂]
            cases ht : run.threadId with
            | none => exact hnumbered₁
            | some t =>
                refine hnumbered₁.updateThread fun row hrow => ?_
                rw [hv₁, Db.assignRun_threads] at hrow
                obtain ⟨row', hrow', hle⟩ := hthread_le t ht
                obtain rfl := Option.some.inj (hrow'.symm.trans hrow)
                exact hle.trans (Nat.le_add_right _ _)
          have hrecorded : v₂.recorded = v₀.recorded := by
            rw [hv₂, Db.assignThreadOf_recorded, hv₁, Db.assignRun_recorded]
          have hrun₂ : v₂.runs.find? id = some (run.assign (.renumbered (n + events.length))) := by
            rw [hv₂, Db.assignThreadOf_runs, hrun₁]
          refine hnumbered₂.insertDeltas hrun₂ (fun t ht => ?_) le_rfl (fun e₀ he₀ hth hid => ?_)
            hinsert
          · obtain ⟨row, hrow, -⟩ := hthread_le t ht
            refine ⟨row.assign (.numbered (n + events.length)), ?_, le_rfl⟩
            rw [hv₂, ht]
            change (v₁.assignThread t _).threads.find? t = _
            rw [Db.find?_assignThread, if_pos rfl, hv₁, Db.assignRun_threads, hrow]
            rfl
          · rw [hrecorded] at he₀
            -- an event of the same log as the first row of the batch
            refine hv.le_counter (e := eventRow now (some id) run.threadId n "" [] [] false)
              (fun t row ht hrow => ?_) (fun x hx => ?_) e₀ he₀ ⟨hth.symm, fun hnone => ?_⟩
            · obtain ⟨row', hrow', hle⟩ := hthread_le t ht
              obtain rfl := Option.some.inj (hrow'.symm.trans hrow)
              exact hle
            · obtain rfl := Option.some.inj hx
              exact ⟨run, hrun, fun _ => hrun_le⟩
            · exact (hid (hth.symm.trans hnone)).symm

/-! ## Requests -/

/-- The recorders keep the numbers of the log in order. -/
theorem recorders {K : Kind → Prop} (hK : ¬K .dropThread) : Db.Recorders K Db.Numbered where
  write hw h := h.write hK hw
  run h hv := hv.recordRunEvent h
  thread h hv := hv.recordThreadEvent h
  deltas h hv := hv.recordMessageDeltas h

theorem of_fresh (h : v.Fresh) : v.Numbered := by
  refine ⟨?_, ?_, ?_, ?_, ?_, ?_, ?_, ?_⟩ <;> simp [h.recorded, h.events, h.runs]

end Db.Numbered

theorem Request.numbered {q : Request} {a : Reply} (hq : Kind.dropThread ∉ q.kinds)
    (hv : v.Numbered) (h : (q.program now).Returns avail v a v') : v'.Numbered :=
  (q.logs now).preserves (Db.Numbered.recorders hq) h hv

end GraphHarbor
