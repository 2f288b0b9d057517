import GraphHarbor.Footprint
import GraphHarbor.Integrity
import GraphHarbor.Streaming

/-!
# Retention

`prune_expired_events` picks events by age, run by run, and raises two watermarks to the
largest number it deleted. Whatever it deleted in whatever order, a replay whose cursor
is not below the watermark misses no event.
-/

namespace GraphHarbor

open Kit Txn

variable {now : Time} {v v' : Db} {avail : Lock → Bool} {id : RunId}

/-- The event is still stored, or lies at or below the watermarks of its run and of its
thread. -/
def Db.Keeps (v : Db) (e : RuntimeEventRow) : Prop :=
  ∀ x r, e.runId = some x → v.runs.find? x = some r → e ∈ v.events ∨
    e.sequence ≤ r.eventPrunedThrough ∧ ∀ t th, e.threadId = some t →
      v.threads.find? t = some th → e.sequence ≤ th.eventPrunedThrough

/-- What a statement that neither prunes nor deletes a thread keeps of the log. -/
structure Db.Gapless (v : Db) : Prop where
  kept : ∀ e ∈ v.recorded, v.Keeps e
  runless : ∀ e ∈ v.recorded, e.runId = none → e ∈ v.events
  unique : v.events.Pairwise fun e e' => e'.clashes e = false
  stored : ∀ x r, v.runs.find? x = some r → x ∈ v.issued

/-- The log has no silent gap, and belongs to issued runs and stored threads. -/
structure Db.Retained (v : Db) : Prop extends v.Gapless where
  threads : ∀ e ∈ v.recorded, ∀ t, e.threadId = some t → (v.threads.find? t).isSome
  issued : ∀ e ∈ v.recorded, ∀ x, e.runId = some x → x ∈ v.issued

/-! ## Requests that do not prune -/

section Write

variable {K : Kind → Prop}

/-- Rows that come from rows with watermarks no lower keep the log gapless. -/
theorem Db.Gapless.frame (h : v.Gapless) (hrecorded : v'.recorded = v.recorded)
    (hevents : v'.events = v.events) (hissued : v'.issued = v.issued)
    (hruns : ∀ x r', v'.runs.find? x = some r' → ∃ r, v.runs.find? x = some r ∧
      r.eventPrunedThrough ≤ r'.eventPrunedThrough)
    (hthreads : ∀ t th', v'.threads.find? t = some th' → ∃ th, v.threads.find? t = some th ∧
      th.eventPrunedThrough ≤ th'.eventPrunedThrough) : v'.Gapless where
  kept e he x r' hx hr' := by
    rw [hrecorded] at he
    obtain ⟨r, hr, hle⟩ := hruns x r' hr'
    rw [hevents]
    refine (h.kept e he x r hx hr).imp_right fun ⟨hrun, hthread⟩ => ⟨hrun.trans hle, ?_⟩
    intro t th' ht hth'
    obtain ⟨th, hth, hle'⟩ := hthreads t th' hth'
    exact (hthread t th ht hth).trans hle'
  runless e he hnone := by
    rw [hrecorded] at he
    rw [hevents]
    exact h.runless e he hnone
  unique := hevents ▸ h.unique
  stored x r' hr' := by
    obtain ⟨r, hr, -⟩ := hruns x r' hr'
    rw [hissued]
    exact h.stored x r hr

theorem Db.Gapless.write (hw : v.Write K v') (hprune : ¬K .prune) (hsubmit : ¬K .submit)
    (hopen : ¬K .openThread) (hdrop : ¬K .dropThread) (h : v.Gapless) : v'.Gapless := by
  cases hw with
  | read => exact h
  | run id f hf keeps =>
      refine h.frame rfl rfl rfl (fun x r' hr' => ?_) fun t th hth => ⟨th, hth, le_rfl⟩
      rw [Db.updateRun, Table.find?_modify hf] at hr'
      split at hr'
      · obtain ⟨r, hr, rfl⟩ := Option.map_eq_some_iff.1 hr'
        exact ⟨r, hr, ((keeps r).pruned.resolve_right hprune).ge⟩
      · exact ⟨r', hr', le_rfl⟩
  | thread t f hf keeps =>
      refine h.frame rfl rfl rfl (fun x r hr => ⟨r, hr, le_rfl⟩) fun t' th' hth' => ?_
      rw [Db.updateThread, Table.find?_modify hf] at hth'
      split at hth'
      · obtain ⟨th, hth, rfl⟩ := Option.map_eq_some_iff.1 hth'
        exact ⟨th, hth, ((keeps th).pruned.resolve_right hprune).ge⟩
      · exact ⟨th', hth', le_rfl⟩
  | submit _ kind => exact absurd kind hsubmit
  | openThread _ kind => exact absurd kind hopen
  | log e _ unique =>
      refine ⟨fun e' he' x r hx hr => ?_, fun e' he' hnone => ?_, ?_, h.stored⟩
      · rcases List.mem_append.1 he' with he' | he'
        · exact (h.kept e' he' x r hx hr).imp_left fun hmem => List.mem_append_left _ hmem
        · exact .inl (List.mem_append_right _ he')
      · rcases List.mem_append.1 he' with he' | he'
        · exact List.mem_append_left _ (h.runless e' he' hnone)
        · exact List.mem_append_right _ he'
      · refine List.pairwise_append.2 ⟨h.unique, List.pairwise_singleton _ _, ?_⟩
        intro e₀ he₀ e' he'
        obtain rfl := List.mem_singleton.1 he'
        exact List.any_eq_false.1 unique e₀ he₀ |> Bool.eq_false_iff.2
  | dropRun id _ =>
      refine ⟨fun e he x r hx hr => ?_, fun e he hnone => ?_, h.unique.filter _, fun x r hr => ?_⟩
      · rw [Db.deleteRun, Table.find?_erase] at hr
        split at hr
        · cases hr
        · next hne =>
            -- the events of the other runs stay
            refine (h.kept e he x r hx hr).imp_left fun hmem => List.mem_filter.2 ⟨hmem, ?_⟩
            simpa [hx] using hne
      · exact List.mem_filter.2 ⟨h.runless e he hnone, by simp [hnone]⟩
      · rw [Db.deleteRun, Table.find?_erase] at hr
        split at hr
        · cases hr
        · exact h.stored x r hr
  | dropThread _ kind => exact absurd kind hdrop
  | tables _ keeps runs threads =>
      refine h.frame keeps.recorded (keeps.events.resolve_right fun hk => hprune hk.1) keeps.issued
        (fun x r hr => ⟨r, runs ▸ hr, le_rfl⟩) fun t th hth => ⟨th, threads ▸ hth, le_rfl⟩

end Write

/-! ## Pruning -/

/-- A prune: a batch of old events of a terminal run is deleted, and the watermarks rise to
the largest number of the batch. -/
structure Prune (batchSize : Nat) (run : RunRow) (batch : List RuntimeEventRow) (n : Nat)
    (v v' : Db) : Prop where
  found : v.runs.find? run.runId = some run
  terminal : run.status.isTerminal = true
  length : batch.length ≤ batchSize
  events : v'.events = v.events.filter (· ∉ batch)
  batch : ∀ e ∈ batch, e.runId = some run.runId ∧ e.terminal = false ∧ e.sequence ≤ n
  recorded : v'.recorded = v.recorded
  issued : v'.issued = v.issued
  runs : ∀ x, v'.runs.find? x =
    if x = run.runId then (v.runs.find? x).map (.prunedThrough n) else v.runs.find? x
  threads : ∀ t, v'.threads.find? t =
    if run.threadId = some t then (v.threads.find? t).map (.prunedThrough n)
    else v.threads.find? t

theorem pruneBatch_spec {cutoff : Time} {batchSize : Nat} :
    (pruneBatch cutoff id batchSize v).length ≤ batchSize ∧
      ∀ e ∈ pruneBatch cutoff id batchSize v, e ∈ v.events ∧ e.runId = some id ∧
        e.terminal = false := by
  refine ⟨List.length_take_le _ _, fun e he => ?_⟩
  have hmem := (List.mem_insertionSort _).1 (List.mem_of_mem_take he)
  obtain ⟨hmem, hprunable⟩ := List.mem_filter.1 hmem
  simp only [prunable, Bool.and_eq_true, decide_eq_true_eq, Bool.not_eq_true'] at hprunable
  exact ⟨hmem, hprunable.1.1, hprunable.2⟩

theorem markPruned_returns {run : RunRow} {deleted : List Nat} {u : Unit}
    (h : (markPruned run deleted).Returns avail v u v') :
    v'.events = v.events ∧ v'.recorded = v.recorded ∧ v'.issued = v.issued ∧
      (∀ x, v'.runs.find? x = if x = run.runId then
        (v.runs.find? x).map (.prunedThrough (deleted.foldr max 0)) else v.runs.find? x) ∧
      ∀ t, v'.threads.find? t = if run.threadId = some t then
        (v.threads.find? t).map (.prunedThrough (deleted.foldr max 0)) else v.threads.find? t := by
  simp only [markPruned, returns_bind, returns_assignRun] at h
  obtain ⟨_, v₁, ⟨rfl, -⟩, h⟩ := h
  split at h
  · next hnone =>
      obtain ⟨-, rfl⟩ := returns_ret.1 h
      exact ⟨rfl, rfl, rfl, fun x => Db.find?_assignRun, fun t => by simp [hnone]⟩
  · next t hthread =>
      rcases returns_updateThread.1 h with ⟨hnone, rfl⟩ | ⟨-, -, rfl⟩
      · refine ⟨rfl, rfl, rfl, fun x => Db.find?_assignRun, fun t' => ?_⟩
        split
        · next heq =>
            obtain rfl : t = t' := Option.some.inj (hthread.symm.trans heq)
            rw [hnone, show v.threads.find? t = none from hnone]
            rfl
        · rfl
      · refine ⟨rfl, rfl, rfl, fun x => Db.find?_assignRun, fun t' => ?_⟩
        rw [hthread]
        simp only [Option.some.injEq, eq_comm (a := t)]
        exact Table.find?_modify (f := ThreadRow.prunedThrough (deleted.foldr max 0)) fun _ => rfl

theorem pruneExpiredEvents_returns {retentionSeconds batchSize k : Nat}
    (h : (pruneExpiredEvents now retentionSeconds batchSize).Returns avail v k v') :
    v' = v ∨ ∃ run batch n, Prune batchSize run batch n v v' := by
  unfold pruneExpiredEvents at h
  split at h
  · exact .inl (returns_ret.1 h).2
  · simp only [returns_bind] at h
    obtain ⟨picked, _, hpick, h⟩ := h
    split at h
    · obtain ⟨-, rfl⟩ := returns_pickRun.1 hpick
      exact .inl (returns_ret.1 h).2
    · next run =>
        obtain ⟨rfl, hrun, hprunable, -⟩ := pickRun_eligible hpick
        simp only [isPrunable, Bool.and_eq_true] at hprunable
        simp only [returns_bind, returns_query] at h
        obtain ⟨batch, _, ⟨hbatch, rfl⟩, h⟩ := h
        split at h
        · exact .inl (returns_ret.1 h).2
        · simp only [returns_bind, deleteEvents, returns_update] at h
          obtain ⟨deleted, w, ⟨hdeleted, hw⟩, h⟩ := h
          split at h
          · -- nothing was deleted
            next hempty =>
              obtain ⟨-, rfl⟩ := returns_ret.1 h
              refine .inl ?_
              rw [hdeleted, List.isEmpty_iff, List.map_eq_nil_iff, List.filter_eq_nil_iff] at hempty
              rw [hw, List.filter_eq_self.2]
              simpa using hempty
          · simp only [returns_bind, Prog.pure_eq, returns_ret] at h
            obtain ⟨_, _, hmark, -, rfl⟩ := h
            obtain ⟨hevents, hrecorded, hissued, hruns, hthreads⟩ := markPruned_returns hmark
            obtain ⟨hlength, hmem⟩ := hbatch ▸ pruneBatch_spec
            refine .inr ⟨run, batch, deleted.foldr max 0, hrun, hprunable.1.1, hlength,
              by rw [hevents, hw], fun e he => ?_, by rw [hrecorded, hw], by rw [hissued, hw],
              by simpa [hw] using hruns, by simpa [hw] using hthreads⟩
            obtain ⟨he₀, hid, hterminal⟩ := hmem e he
            refine ⟨hid, hterminal, Db.le_foldr_max ?_⟩
            rw [hdeleted]
            exact List.mem_map.2 ⟨e, List.mem_filter.2 ⟨he₀, by simpa using he⟩, rfl⟩

section Prune

variable {batchSize n : Nat} {run : RunRow} {batch : List RuntimeEventRow}

/-- Rows keep their watermarks, or raise them to `n`. -/
theorem Prune.run_le (h : Prune batchSize run batch n v v') {x : RunId} {r' : RunRow}
    (hr' : v'.runs.find? x = some r') : ∃ r, v.runs.find? x = some r ∧
      r.eventPrunedThrough ≤ r'.eventPrunedThrough ∧
      (x = run.runId → n ≤ r'.eventPrunedThrough) := by
  rw [h.runs] at hr'
  split at hr'
  · obtain ⟨r, hr, rfl⟩ := Option.map_eq_some_iff.1 hr'
    exact ⟨r, hr, le_max_left _ _, fun _ => le_max_right _ _⟩
  · next hne => exact ⟨r', hr', le_rfl, fun hx => absurd hx hne⟩

theorem Prune.thread_le (h : Prune batchSize run batch n v v') {t : ThreadId} {th' : ThreadRow}
    (hth' : v'.threads.find? t = some th') : ∃ th, v.threads.find? t = some th ∧
      th.eventPrunedThrough ≤ th'.eventPrunedThrough ∧
      (run.threadId = some t → n ≤ th'.eventPrunedThrough) := by
  rw [h.threads] at hth'
  split at hth'
  · obtain ⟨th, hth, rfl⟩ := Option.map_eq_some_iff.1 hth'
    exact ⟨th, hth, le_max_left _ _, fun _ => le_max_right _ _⟩
  · next hne => exact ⟨th', hth', le_rfl, fun ht => absurd ht hne⟩

/-- An event of the batch lies at or below the new watermarks. -/
theorem Prune.covers (h : Prune batchSize run batch n v v') (hsound : v.Sound)
    {e : RuntimeEventRow} (he : e ∈ v.events) (hbatch : e ∈ batch) : v'.Keeps e := by
  obtain ⟨hid, -, hn⟩ := h.batch e hbatch
  intro x r' hx hr'
  obtain rfl : run.runId = x := Option.some.inj (hid.symm.trans hx)
  obtain ⟨-, -, -, hrun⟩ := h.run_le hr'
  refine .inr ⟨hn.trans (hrun rfl), fun t th' ht hth' => ?_⟩
  -- a stored event is of the thread of its run
  obtain ⟨r, hr, hthread⟩ := hsound.eventRun e he run.runId hid
  obtain rfl := Option.some.inj (h.found.symm.trans hr)
  obtain ⟨-, -, -, hwatermark⟩ := h.thread_le hth'
  exact hn.trans (hwatermark (hthread.symm.trans ht))

theorem Prune.retained (h : Prune batchSize run batch n v v') (hsound : v.Sound)
    (hv : v.Retained) : v'.Retained where
  kept e he := by
    rw [h.recorded] at he
    by_cases hevent : e ∈ v.events ∧ e ∈ batch
    · exact h.covers hsound hevent.1 hevent.2
    · intro x r' hx hr'
      obtain ⟨r, hr, hrun, -⟩ := h.run_le hr'
      rcases hv.kept e he x r hx hr with hmem | ⟨hle, hthread⟩
      · have hkept : e ∉ batch := fun hbatch => hevent ⟨hmem, hbatch⟩
        rw [h.events]
        exact .inl (List.mem_filter.2 ⟨hmem, by simpa using hkept⟩)
      · refine .inr ⟨hle.trans hrun, fun t th' ht hth' => ?_⟩
        obtain ⟨th, hth, hth_le, -⟩ := h.thread_le hth'
        exact (hthread t th ht hth).trans hth_le
  runless e he hnone := by
    rw [h.recorded] at he
    rw [h.events]
    refine List.mem_filter.2 ⟨hv.runless e he hnone, ?_⟩
    simp only [decide_not, Bool.not_eq_true', decide_eq_false_iff_not]
    intro hbatch
    have hid := (h.batch e hbatch).1
    rw [hnone] at hid
    cases hid
  unique := h.events ▸ hv.unique.filter _
  stored x r' hr' := by
    obtain ⟨r, hr, -⟩ := h.run_le hr'
    rw [h.issued]
    exact hv.stored x r hr
  threads e he t ht := by
    rw [h.recorded] at he
    rw [h.threads]
    split <;> simpa using hv.threads e he t ht
  issued e he x hx := by
    rw [h.recorded] at he
    rw [h.issued]
    exact hv.issued e he x hx

end Prune

/-! ## Requests -/

/-- Everything but the deletion of threads. -/
def Request.KeepsThreads : Request → Prop
  | .threadsDelete _ => False
  | _ => True

theorem Submit.retained {r : RunRow} (h : Submit r v v') (hv : v.Retained) : v'.Retained := by
  have habsent := h.absent
  have hfresh := h.fresh
  simp only [Db.drawn, Bool.or_eq_false_iff, decide_eq_false_iff_not] at hfresh
  obtain ⟨-, -, -, rfl⟩ := h
  refine ⟨⟨fun e he x r' hx hr' => ?_, hv.runless, hv.unique, fun x r' hr' => ?_⟩, hv.threads,
    fun e he x hx => List.mem_append_left _ (hv.issued e he x hx)⟩
  · rw [Db.insertRun, Table.find?_insert habsent] at hr'
    split at hr'
    · next heq =>
        have hmem := hv.issued e he x hx
        rw [heq, key_run] at hmem
        exact absurd hmem hfresh.1
    · exact hv.kept e he x r' hx hr'
  · rw [Db.insertRun, Table.find?_insert habsent] at hr'
    split at hr'
    · next heq => exact List.mem_append_right _ (by simp [heq])
    · exact List.mem_append_left _ (hv.stored x r' hr')

/-- A new thread has no events. -/
theorem Db.Retained.openThread {new : ThreadRow} (hv : v.Retained)
    (hnone : v.threads.find? new.threadId = none) :
    Db.Retained { v with threads := v.threads.insert new } := by
  have habsent : v.threads.find? (Keyed.key new) = none := hnone
  refine ⟨⟨fun e he x r hx hr => ?_, hv.runless, hv.unique, hv.stored⟩, fun e he t ht => ?_,
    hv.issued⟩
  · refine (hv.kept e he x r hx hr).imp_right fun ⟨hle, hthread⟩ => ⟨hle, fun t th ht hth => ?_⟩
    rw [Table.find?_insert habsent] at hth
    split at hth
    · next heq =>
        have hsome := hv.threads e he t ht
        rw [heq, habsent] at hsome
        cases hsome
    · exact hthread t th ht hth
  · rw [Table.find?_insert habsent]
    split
    · rfl
    · exact hv.threads e he t ht

/-- Requests that neither prune nor open or delete a thread nor submit a run: a new event
is stored, and belongs to a stored run and thread. -/
theorem Db.Retained.within {K : Kind → Prop} {α : Type} {p : Txn α} {a : α} (hv : v.Retained)
    (hprune : ¬K .prune) (hsubmit : ¬K .submit) (hopen : ¬K .openThread)
    (hdrop : ¬K .dropThread) (hlog : ¬K .log ∨ ¬K .dropRun) (hsound : v'.Sound)
    (hp : p.Within K) (h : p.Returns avail v a v') : v'.Retained := by
  have hgapless : v'.Gapless :=
    hp.preserves (I := Db.Gapless) (fun _ _ hw hu => hu.write hw hprune hsubmit hopen hdrop) h
      hv.toGapless
  have hnew : ∀ e ∈ v'.recorded, e ∈ v.recorded ∨ e ∈ v'.events := by
    rcases hlog with hlog | hdropRun
    · rw [hp.recorded hlog h]
      exact fun e he => .inl he
    · refine hp.preserves (I := fun w => ∀ e ∈ w.recorded, e ∈ v.recorded ∨ e ∈ w.events) ?_ h
        fun e he => .inl he
      intro u w hw hu e he
      cases hw with
      | log e' =>
          rcases List.mem_append.1 he with he | he
          · exact (hu e he).imp_right fun h => List.mem_append_left _ h
          · exact .inr (List.mem_append_right _ he)
      | dropRun _ kind => exact absurd kind hdropRun
      | dropThread _ kind => exact absurd kind hdrop
      | tables _ keeps =>
          rw [keeps.recorded] at he
          rw [keeps.events.resolve_right fun hk => hprune hk.1]
          exact hu e he
      | _ => exact hu e he
  have hkept : (∀ t, (v.threads.find? t).isSome → (v'.threads.find? t).isSome) ∧
      v'.issued = v.issued := by
    refine hp.preserves (I := fun w => (∀ t, (v.threads.find? t).isSome →
      (w.threads.find? t).isSome) ∧ w.issued = v.issued) ?_ h ⟨fun t ht => ht, rfl⟩
    rintro u w hw ⟨hthreads, hissued⟩
    cases hw with
    | thread t f hf =>
        exact ⟨fun x hx => Db.isSome_updateThread.trans (hthreads x hx), hissued⟩
    | submit _ kind => exact absurd kind hsubmit
    | openThread _ kind => exact absurd kind hopen
    | dropThread _ kind => exact absurd kind hdrop
    | tables _ keeps _ threads =>
        exact ⟨fun t ht => threads ▸ hthreads t ht, keeps.issued.trans hissued⟩
    | _ => exact ⟨hthreads, hissued⟩
  refine ⟨hgapless, fun e he t ht => ?_, fun e he x hx => ?_⟩
  · rcases hnew e he with hold | hstored
    · exact hkept.1 t (hv.threads e hold t ht)
    · exact hsound.eventThread e hstored t ht
  · rcases hnew e he with hold | hstored
    · rw [hkept.2]
      exact hv.issued e hold x hx
    · obtain ⟨r, hr, -⟩ := hsound.eventRun e hstored x hx
      exact hgapless.stored x r hr

theorem Request.retained {q : Request} {a : Reply} (hq : q.KeepsThreads) (hv : v.Retained)
    (hsound : v.Sound) (hsound' : v'.Sound) (h : (q.program now).Returns avail v a v') :
    v'.Retained := by
  cases q with
  | threadsDelete => exact hq.elim
  | pruneExpiredEvents =>
      obtain ⟨k, hk, -⟩ := replying_returns.1 h
      rcases pruneExpiredEvents_returns hk with rfl | ⟨run, batch, n, hprune⟩
      · exact hv
      · exact hprune.retained hsound hv
  | runsCreate =>
      obtain ⟨r, hr, -⟩ := replying_returns.1 h
      rcases runsCreate_returns hr with rfl | ⟨position, hsubmit⟩
      · exact hv
      · exact hsubmit.retained hv
  | threadsCreate =>
      obtain ⟨b, hb, -⟩ := replying_returns.1 h
      rcases returns_insertThread.1 hb with ⟨-, -, rfl⟩ | ⟨-, hnone, -, rfl⟩
      · exact hv
      · exact hv.openThread hnone
  | finish =>
      refine hv.within ?_ ?_ ?_ ?_ (.inr ?_) hsound' (Request.within _ now) h <;>
        simp only [kinds] <;> split <;> simp
  | runsCancel _ action =>
      cases action <;>
        exact hv.within (by simp [kinds]) (by simp [kinds]) (by simp [kinds]) (by simp [kinds])
          (by simp [kinds]) hsound' (Request.within _ now) h
  | runsQueue _ operation =>
      cases operation <;>
        exact hv.within (by simp [kinds]) (by simp [kinds]) (by simp [kinds]) (by simp [kinds])
          (by simp [kinds]) hsound' (Request.within _ now) h
  | _ =>
      exact hv.within (by simp [kinds]) (by simp [kinds]) (by simp [kinds]) (by simp [kinds])
        (by simp [kinds]) hsound' (Request.within _ now) h

theorem retained_inductive :
    (drifting Request.KeepsThreads).Inductive fun v => v.Sound ∧ v.Retained where
  init v hfresh := by
    change v.Fresh at hfresh
    refine ⟨⟨?_, ?_, ?_⟩, ⟨?_, ?_, ?_, ?_⟩, ?_, ?_⟩ <;>
      simp [hfresh.recorded, hfresh.events, hfresh.runs]
  step v l v' hv h := by
    obtain ⟨hq, avail, hrun⟩ := h
    rcases Request.run_cases hrun with ⟨a, -, hret⟩ | ⟨-, rfl⟩
    · have hsound' := Request.sound hv.1 hret
      exact ⟨hsound', Request.retained hq hv.2 hv.1 hsound' hret⟩
    · exact hv

/-! ## Replays -/

theorem mem_eventsAfter {p : RuntimeEventRow → Bool} {c : Nat} {e : RuntimeEventRow} :
    e ∈ eventsAfter p c v ↔ e ∈ v.events ∧ p e = true ∧ c < e.sequence := by
  simp [eventsAfter, List.mem_filter]

/-- The first rows of a sorted list, and the others. -/
theorem mem_page {p : RuntimeEventRow → Bool} {c k : Nat} {e : RuntimeEventRow}
    (he : e ∈ eventsAfter p c v) : e ∈ (eventsAfter p c v).take k ∨
      ((eventsAfter p c v).take k).length = k ∧
        ∀ e' ∈ (eventsAfter p c v).take k, e'.sequence ≤ e.sequence := by
  have hsorted : (eventsAfter p c v).Pairwise fun a b => a.sequence ≤ b.sequence :=
    List.pairwise_insertionSort _ _
  generalize eventsAfter p c v = rows at he hsorted
  rw [← List.take_append_drop k rows] at he hsorted
  rcases List.mem_append.1 he with he | he
  · exact .inl he
  · refine .inr ⟨?_, fun e' he' => (List.pairwise_append.1 hsorted).2.2 e' he' e he⟩
    have hlt : 0 < (rows.drop k).length := List.length_pos_of_mem he
    rw [List.length_drop] at hlt
    rw [List.length_take]
    omega

/-- Every event of the run above the cursor is still stored. -/
theorem Db.Retained.stored_of_run (hv : v.Retained) {r : RunRow} {e : RuntimeEventRow} {c : Nat}
    (he : e ∈ v.recorded) (hid : e.runId = some id) (hr : v.runs.find? id = some r)
    (hc : r.eventPrunedThrough ≤ c) (hlt : c < e.sequence) : e ∈ v.events := by
  rcases hv.kept e he id r hid hr with hmem | ⟨hle, -⟩
  · exact hmem
  · omega

theorem Db.Retained.stored_of_thread (hv : v.Retained) {t : ThreadId} {th : ThreadRow}
    {e : RuntimeEventRow} {c : Nat} (he : e ∈ v.recorded) (ht : e.threadId = some t)
    (hrun : ∀ x, e.runId = some x → (v.runs.find? x).isSome)
    (hth : v.threads.find? t = some th) (hc : th.eventPrunedThrough ≤ c) (hlt : c < e.sequence) :
    e ∈ v.events := by
  cases hid : e.runId with
  | none => exact hv.runless e he hid
  | some x =>
      obtain ⟨r, hr⟩ := Option.isSome_iff_exists.1 (hrun x hid)
      rcases hv.kept e he x r hid hr with hmem | ⟨-, hle⟩
      · exact hmem
      · have hle' := hle t th ht hth
        omega

/-- A run that is not found is not stored, or its thread is not. -/
theorem authorizedRun_none (h : (authorizedRun id).Returns avail v none v') :
    ∀ r, v.runs.find? id = some r → ∃ t, r.threadId = some t ∧ v.threads.find? t = none := by
  intro r hr
  simp only [authorizedRun, returns_bind, returns_getRun] at h
  obtain ⟨_, _, ⟨rfl, rfl⟩, h⟩ := h
  rw [hr] at h
  cases hthread : r.threadId with
  | none => simp [hthread] at h
  | some t =>
      simp only [hthread, returns_bind, returns_query, Prog.pure_eq, returns_ret] at h
      obtain ⟨_, _, ⟨rfl, rfl⟩, h, -⟩ := h
      refine ⟨t, rfl, ?_⟩
      split at h
      · cases h
      · next hnone => simpa using hnone

/-- A replay of the run `id` from `c`: the cursor has expired, or every event of the run
above it is still stored and in the answer. -/
def Db.RunReplayed (v : Db) (id : RunId) (c : Nat) : Replay → Prop
  | .notFound => ∀ r, v.runs.find? id = some r → ∃ t, r.threadId = some t ∧
      v.threads.find? t = none
  | .cursorExpired => ∃ r, v.runs.find? id = some r ∧ c < r.eventPrunedThrough
  | .events rows => (∃ r, v.runs.find? id = some r ∧ r.eventPrunedThrough ≤ c) ∧
      ∀ e ∈ v.recorded, e.runId = some id → c < e.sequence → e ∈ v.events ∧ e ∈ rows

/-- The event belongs to the thread, and to a run that still exists or to none. -/
def Db.HasEvent (v : Db) (t : ThreadId) (e : RuntimeEventRow) : Prop :=
  e ∈ v.recorded ∧ e.threadId = some t ∧ ∀ x, e.runId = some x → (v.runs.find? x).isSome

/-- A reload of the thread `t` from `c`. -/
def Db.ThreadReplayed (v : Db) (t : ThreadId) (c : Nat) : Replay → Prop
  | .notFound => False
  | .cursorExpired => ∃ th, v.threads.find? t = some th ∧ c < th.eventPrunedThrough
  | .events rows => (∀ th, v.threads.find? t = some th → th.eventPrunedThrough ≤ c) ∧
      ∀ e, v.HasEvent t e → c < e.sequence → e ∈ v.events ∧ e ∈ rows

/-- A page of the thread `t` from `c`: an event above the cursor is in the page, or comes
after a full page. -/
def Db.PageReplayed (v : Db) (t : ThreadId) (c : Nat) : Replay → Prop
  | .notFound => False
  | .cursorExpired => ∃ th, v.threads.find? t = some th ∧ c < th.eventPrunedThrough
  | .events rows => (∀ th, v.threads.find? t = some th → th.eventPrunedThrough ≤ c) ∧
      ∀ e, v.HasEvent t e → c < e.sequence → e ∈ v.events ∧ (e ∈ rows ∨
        rows.length = protocolReplayPageSize ∧ ∀ e' ∈ rows, e'.sequence ≤ e.sequence)

theorem replayRun_returns (hv : v.Retained) {c : Nat} (hc : 0 < c) {reply : Replay}
    (h : (replayRun id c).Returns avail v reply v') : v.RunReplayed id c reply := by
  simp only [replayRun, runReplay, returns_bind] at h
  obtain ⟨⟨snapshot, rows⟩, _, ⟨authorized, _, hauthorized, h₁⟩, h₂⟩ := h
  obtain ⟨rfl, hfound⟩ := authorizedRun_returns hauthorized
  cases authorized with
  | none =>
      obtain ⟨heq, rfl⟩ := returns_ret.1 h₁
      obtain ⟨rfl, rfl⟩ := Prod.mk.inj heq
      obtain ⟨rfl, -⟩ := returns_ret.1 h₂
      intro r hr
      exact authorizedRun_none hauthorized r hr
  | some row =>
      have hrow := (hfound row rfl).1
      simp only [returns_bind, returns_lockRunIf, returns_query, Prog.pure_eq, returns_ret] at h₁
      obtain ⟨run, _, ⟨rfl, ⟨rfl, -⟩ | ⟨-, hskip, -⟩⟩, _, _, ⟨rfl, rfl⟩, heq, rfl⟩ := h₁
      · obtain ⟨rfl, rfl⟩ := Prod.mk.inj heq
        rw [hrow] at h₂
        obtain ⟨rfl, -⟩ := returns_ret.1 h₂
        unfold Replay.check
        split
        · next hexpired =>
            simp only [Bool.and_eq_true, decide_eq_true_eq] at hexpired
            exact ⟨row, hrow, hexpired.2⟩
        · next haccepted =>
            have hle : row.eventPrunedThrough ≤ c := by
              simp only [Bool.and_eq_true, decide_eq_true_eq, not_and, not_lt] at haccepted
              exact haccepted (by omega)
            refine ⟨⟨row, hrow, hle⟩, fun e he hid hlt => ?_⟩
            have hstored := hv.stored_of_run he hid hrow hle hlt
            exact ⟨hstored, mem_eventsAfter.2 ⟨hstored, by simp [inRun, hid], hlt⟩⟩
      · cases hskip

/-- Without a watermark no cursor expires. -/
theorem Replay.check_zero {sent : Bool} {c : Nat} {rows : List RuntimeEventRow} :
    Replay.check sent c 0 rows = .events rows := by
  simp [check]

theorem replayThread_returns (hv : v.Retained) {t : ThreadId} {c : Nat} {reply : Replay}
    (h : (replayThread t true c).Returns avail v reply v') : v.ThreadReplayed t c reply := by
  simp only [replayThread, threadEvents, returns_bind, returns_lockThread] at h
  obtain ⟨⟨watermark, rows⟩, _, ⟨thread, u, ⟨rfl, rfl, -⟩, h₁⟩, h₂⟩ := h
  obtain ⟨rfl, -⟩ := returns_ret.1 h₂
  cases hthread : u.threads.find? t with
  | none =>
      rw [hthread] at h₁
      obtain ⟨heq, -⟩ := returns_ret.1 h₁
      obtain ⟨rfl, rfl⟩ := Prod.mk.inj heq
      rw [Replay.check_zero]
      refine ⟨by simp [hthread], fun e he _ => ?_⟩
      have hsome := hv.threads e he.1 t he.2.1
      rw [hthread] at hsome
      cases hsome
  | some th =>
      rw [hthread] at h₁
      simp only [returns_bind, returns_query, Prog.pure_eq, returns_ret] at h₁
      obtain ⟨_, _, ⟨rfl, rfl⟩, heq, rfl⟩ := h₁
      obtain ⟨rfl, rfl⟩ := Prod.mk.inj heq
      unfold Replay.check
      split
      · next hexpired => exact ⟨th, hthread, by simpa using hexpired⟩
      · next haccepted =>
          have hle : th.eventPrunedThrough ≤ c := by simpa using haccepted
          refine ⟨fun th' hth' => ?_, ?_⟩
          · rw [hthread] at hth'
            exact Option.some.inj hth' ▸ hle
          · rintro e ⟨he, ht, hrun⟩ hlt
            have hstored := hv.stored_of_thread he ht hrun hthread hle hlt
            exact ⟨hstored, mem_eventsAfter.2 ⟨hstored, by simp [inThread, ht], hlt⟩⟩

theorem replayProtocol_returns (hv : v.Retained) {t : ThreadId} {c : Nat} (hc : 0 < c)
    {reply : Replay} (h : (replayProtocol t c).Returns avail v reply v') :
    v.PageReplayed t c reply := by
  simp only [replayProtocol, loadProtocolEvents, returns_bind, returns_lockThread] at h
  obtain ⟨⟨watermark, rows⟩, _, ⟨thread, u, ⟨rfl, rfl, -⟩, h₁⟩, h₂⟩ := h
  obtain ⟨rfl, -⟩ := returns_ret.1 h₂
  cases hthread : u.threads.find? t with
  | none =>
      rw [hthread] at h₁
      obtain ⟨heq, -⟩ := returns_ret.1 h₁
      obtain ⟨rfl, rfl⟩ := Prod.mk.inj heq
      rw [Replay.check_zero]
      refine ⟨by simp [hthread], fun e he _ => ?_⟩
      have hsome := hv.threads e he.1 t he.2.1
      rw [hthread] at hsome
      cases hsome
  | some th =>
      rw [hthread] at h₁
      simp only [returns_bind, returns_query, Prog.pure_eq, returns_ret] at h₁
      obtain ⟨_, _, ⟨rfl, rfl⟩, heq, rfl⟩ := h₁
      obtain ⟨rfl, rfl⟩ := Prod.mk.inj heq
      unfold Replay.check
      split
      · next hexpired =>
          simp only [Bool.and_eq_true, decide_eq_true_eq] at hexpired
          exact ⟨th, hthread, hexpired.2⟩
      · next haccepted =>
          have hle : th.eventPrunedThrough ≤ c := by
            simp only [Bool.and_eq_true, decide_eq_true_eq, not_and, not_lt] at haccepted
            exact haccepted (by omega)
          refine ⟨fun th' hth' => ?_, ?_⟩
          · rw [hthread] at hth'
            exact Option.some.inj hth' ▸ hle
          · rintro e ⟨he, ht, hrun⟩ hlt
            have hstored := hv.stored_of_thread he ht hrun hthread hle hlt
            exact ⟨hstored, mem_page (mem_eventsAfter.2 ⟨hstored, by simp [inThread, ht], hlt⟩)⟩

/-! ## The law -/

/-- The events a step deleted. -/
def Db.deleted (v v' : Db) : List RuntimeEventRow := v.events.filter (· ∉ v'.events)

/-- At most `batchSize` events were deleted, none of them terminal and all of ended runs. -/
structure Db.PrunedBy (v : Db) (batchSize : Nat) (v' : Db) : Prop where
  length : (v.deleted v').length ≤ batchSize
  ended : ∀ e ∈ v.deleted v', e.terminal = false ∧ ∃ x r, e.runId = some x ∧
    v.runs.find? x = some r ∧ r.status.isTerminal = true

theorem Db.PrunedBy.refl (v : Db) (batchSize : Nat) : v.PrunedBy batchSize v := by
  have hnone : v.deleted v = [] := List.filter_eq_nil_iff.2 (by simp)
  exact ⟨by simp [hnone], by simp [hnone]⟩

theorem Prune.prunedBy {batchSize n : Nat} {run : RunRow} {batch : List RuntimeEventRow}
    (h : Prune batchSize run batch n v v') (hv : v.Gapless) : v.PrunedBy batchSize v' := by
  have hmem (e : RuntimeEventRow) (he : e ∈ v.deleted v') : e ∈ batch := by
    obtain ⟨hstored, hgone⟩ := List.mem_filter.1 he
    by_contra hbatch
    rw [decide_eq_true_eq, h.events] at hgone
    exact hgone (List.mem_filter.2 ⟨hstored, by simpa using hbatch⟩)
  refine ⟨le_trans ?_ h.length, fun e he => ?_⟩
  · -- the unique index tells the deleted events apart
    have hnodup : (v.deleted v').Nodup := by
      refine List.Pairwise.imp_of_mem ?_ (hv.unique.filter _)
      rintro e e' he - hunique rfl
      simp [RuntimeEventRow.clashes, (h.batch e (hmem e he)).1] at hunique
    exact (List.subperm_of_subset hnodup hmem).length_le
  · obtain ⟨hid, hterminal, -⟩ := h.batch e (hmem e he)
    exact ⟨hterminal, run.runId, run, hid, h.found, h.terminal⟩

/-- Pruning leaves no silent gap, whatever was recorded and pruned at whatever times: a
replay is complete above its cursor or tells that the cursor has expired, and a call
deletes at most a batch of non-terminal events of ended runs. -/
theorem pruning_leaves_no_gap : (drifting Request.KeepsThreads).Invariant fun v =>
    (∀ c, 0 < c →
      (∀ avail id reply v', (replayRun id c).Returns avail v reply v' →
        v.RunReplayed id c reply) ∧
      (∀ avail t reply v', (replayThread t true c).Returns avail v reply v' →
        v.ThreadReplayed t c reply) ∧
      ∀ avail t reply v', (replayProtocol t c).Returns avail v reply v' →
        v.PageReplayed t c reply) ∧
    ∀ now retentionSeconds batchSize r v',
      (drifting Request.KeepsThreads).step v
        (⟨now, .pruneExpiredEvents retentionSeconds batchSize⟩, r) v' →
      v.PrunedBy batchSize v' := by
  intro v hreach
  obtain ⟨-, hretained⟩ := retained_inductive.invariant v hreach
  refine ⟨fun c hc => ⟨fun avail id reply v' h => replayRun_returns hretained hc h,
    fun avail t reply v' h => replayThread_returns hretained h,
    fun avail t reply v' h => replayProtocol_returns hretained hc h⟩, ?_⟩
  rintro now retentionSeconds batchSize r v' ⟨-, avail, hrun⟩
  rcases Request.run_cases hrun with ⟨a, -, hret⟩ | ⟨-, rfl⟩
  · obtain ⟨k, hk, -⟩ := replying_returns.1 hret
    rcases pruneExpiredEvents_returns hk with rfl | ⟨run, batch, n, hprune⟩
    · exact .refl _ _
    · exact hprune.prunedBy hretained.toGapless
  · exact .refl _ _

end GraphHarbor
