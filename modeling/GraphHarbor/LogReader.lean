import GraphHarbor.Numbering
import GraphHarbor.Retention

/-!
# Readers of the log

What a stream can rely on between two of its reads, while no run and no thread is deleted:
the log grows at its end, in the order of the numbers, and the run of an event stays with
its arguments.
-/

namespace GraphHarbor

open Kit Txn

variable {now : Time} {v v' : Db} {avail : Lock → Bool} {t : ThreadId}
  {e e' : RuntimeEventRow} {n : Nat}

/-- No run and no thread is deleted. -/
def Request.KeepsRows (q : Request) : Prop := Kind.dropRun ∉ q.kinds ∧ Kind.dropThread ∉ q.kinds

structure Db.Kept (v : Db) : Prop where
  sound : v.Sound
  retained : v.Retained
  numbered : v.Numbered
  undeleted : ∀ x ∈ v.issued, (v.runs.find? x).isSome

/-- What is committed stays, and more follows. -/
structure Db.Extends (v v' : Db) : Prop where
  recorded : v.recorded <+: v'.recorded
  issued : v.issued ⊆ v'.issued
  runs : ∀ x r, v.runs.find? x = some r → ∃ r', v'.runs.find? x = some r' ∧ r.SameIdentity r'

/-! ## One request -/

theorem Db.Extends.refl (v : Db) : v.Extends v :=
  ⟨List.prefix_rfl, List.Subset.refl _, fun _ r hr => ⟨r, hr, .refl r⟩⟩

theorem Db.Extends.trans {w : Db} (h : v.Extends v') (h' : v'.Extends w) : v.Extends w where
  recorded := h.recorded.trans h'.recorded
  issued := List.Subset.trans h.issued h'.issued
  runs x r hr := by
    obtain ⟨r', hr', hsame⟩ := h.runs x r hr
    obtain ⟨r'', hr'', hsame'⟩ := h'.runs x r' hr'
    exact ⟨r'', hr'', hsame.trans hsame'⟩

/-- The rows of the runs with the changes of one write. -/
theorem Db.Write.extends {K : Kind → Prop} (hK : ¬K .dropRun) (hw : v.Write K v') :
    v.Extends v' ∧ ∀ x ∈ v'.issued, x ∈ v.issued ∨ (v'.runs.find? x).isSome := by
  cases hw with
  | run id f hf keeps =>
      refine ⟨⟨List.prefix_rfl, List.Subset.refl _, fun x r hr => ?_⟩, fun x hx => .inl hx⟩
      rw [Db.updateRun, Table.find?_modify hf]
      split
      · exact ⟨f r, by rw [hr]; rfl, (keeps r).toSameIdentity⟩
      · exact ⟨r, hr, .refl r⟩
  | submit new _ fresh =>
      simp only [drawn, Bool.or_eq_false_iff, decide_eq_false_iff_not] at fresh
      have habsent : v.runs.find? (Keyed.key new) = none := by simpa using fresh.2
      refine ⟨⟨List.prefix_rfl, List.subset_append_left _ _, fun x r hr => ⟨r, ?_, .refl r⟩⟩,
        fun x hx => ?_⟩
      · rw [Db.insertRun, Table.find?_insert habsent, if_neg, hr]
        rintro rfl
        rw [habsent] at hr
        cases hr
      · refine (List.mem_append.1 hx).imp_right fun hx => ?_
        have hid : x = Keyed.key new := List.mem_singleton.1 hx
        rw [Db.insertRun, Table.find?_insert habsent, if_pos hid]
        rfl
  | log e => exact ⟨⟨List.prefix_append _ _, List.Subset.refl _, fun _ r hr => ⟨r, hr, .refl r⟩⟩,
      fun x hx => .inl hx⟩
  | dropRun _ kind => exact absurd kind hK
  | tables _ keeps runs =>
      refine ⟨⟨keeps.recorded ▸ List.prefix_rfl, keeps.issued ▸ List.Subset.refl _,
        fun x r hr => ⟨r, runs ▸ hr, .refl r⟩⟩, fun x hx => .inl (keeps.issued ▸ hx)⟩
  -- the other writes leave the log, the runs and the issued ids alone
  | _ =>
      exact ⟨⟨List.prefix_rfl, List.Subset.refl _, fun _ r hr => ⟨r, hr, .refl r⟩⟩,
        fun x hx => .inl hx⟩

theorem Request.extends {q : Request} {a : Reply} (hq : q.KeepsRows)
    (h : (q.program now).Returns avail v a v') :
    v.Extends v' ∧ ∀ x ∈ v'.issued, x ∈ v.issued ∨ (v'.runs.find? x).isSome := by
  refine (q.within now).related
    (R := fun v v' => v.Extends v' ∧ ∀ x ∈ v'.issued, x ∈ v.issued ∨ (v'.runs.find? x).isSome)
    (fun v => ⟨.refl v, fun x hx => .inl hx⟩) (fun u v w h h' => ⟨h.1.trans h'.1, fun x hx => ?_⟩)
    -- an id issued in the first part keeps its run through the second
    (fun v v' hw => hw.extends hq.1) h
  rcases h'.2 x hx with hx | hx
  · refine (h.2 x hx).imp_right fun hx => ?_
    obtain ⟨r, hr⟩ := Option.isSome_iff_exists.1 hx
    obtain ⟨r', hr', -⟩ := h'.1.runs x r hr
    rw [hr']
    rfl
  · exact .inr hx

theorem Request.keepsThreads {q : Request} (hq : Kind.dropThread ∉ q.kinds) : q.KeepsThreads := by
  cases q with
  | threadsDelete => simp [kinds] at hq
  | _ => trivial

theorem Request.kept {q : Request} {a : Reply} (hq : q.KeepsRows) (hv : v.Kept)
    (h : (q.program now).Returns avail v a v') : v'.Kept := by
  have hsound := Request.sound hv.sound h
  obtain ⟨hextends, hissued⟩ := Request.extends hq h
  refine ⟨hsound, Request.retained (Request.keepsThreads hq.2) hv.retained hv.sound hsound h,
    -- what was issued before has its run by the invariant, the rest by the request
    Request.numbered hq.2 hv.numbered h, fun x hx => ?_⟩
  rcases hissued x hx with hx | hx
  · obtain ⟨r, hr⟩ := Option.isSome_iff_exists.1 (hv.undeleted x hx)
    obtain ⟨r', hr', -⟩ := hextends.runs x r hr
    rw [hr']
    rfl
  · exact hx

/-- The service while no run and no thread is deleted. -/
abbrev keeping : TSys Db (Timed × Except Err Reply) := drifting Request.KeepsRows

theorem keeping_step {l : Timed × Except Err Reply} (h : keeping.step v l v') :
    v' = v ∨ ∃ avail a, (l.1.request.program l.1.now).Returns avail v a v' := by
  obtain ⟨-, avail, hrun⟩ := h
  rcases Request.run_cases hrun with ⟨a, -, hret⟩ | ⟨-, rfl⟩
  · exact .inr ⟨avail, a, hret⟩
  · exact .inl rfl

theorem keeping_extends {l : Timed × Except Err Reply} (h : keeping.step v l v') :
    v.Extends v' := by
  rcases keeping_step h with rfl | ⟨avail, a, hret⟩
  · exact .refl _
  · exact (Request.extends h.1 hret).1

theorem kept_inductive : keeping.Inductive Db.Kept where
  init v hfresh := by
    obtain ⟨hsound, hretained⟩ := retained_inductive.init v hfresh
    refine ⟨hsound, hretained, .of_fresh hfresh, fun x hx => ?_⟩
    rw [hfresh.issued] at hx
    cases hx
  step v l v' hv h := by
    rcases keeping_step h with rfl | ⟨avail, a, hret⟩
    · exact hv
    · exact Request.kept h.1 hv hret

/-! ## The log of a thread -/

/-- The event was committed after the first `n` events. -/
abbrev Db.Since (v : Db) (n : Nat) (e : RuntimeEventRow) : Prop := e ∈ v.recorded.drop n

theorem Db.Since.of_extends (hsince : v.Since n e) (h : v.Extends v')
    (hn : n ≤ v.recorded.length) : v'.Since n e := by
  obtain ⟨new, hnew⟩ := h.recorded
  rw [Db.Since, ← hnew, List.drop_append_of_le_length hn]
  exact List.mem_append_left _ hsince

theorem Db.since_of_new (h : v.Extends v') (hn : n ≤ v.recorded.length) (he : e ∈ v'.recorded)
    (hold : e ∉ v.recorded) : v'.Since n e := by
  obtain ⟨new, hnew⟩ := h.recorded
  rw [← hnew] at he
  rw [Db.Since, ← hnew, List.drop_append_of_le_length hn]
  exact List.mem_append_right _ ((List.mem_append.1 he).resolve_left hold)

namespace Db.Kept

/-- Events of one log with one number are one event. -/
theorem eq_of_sameLog (hv : v.Kept) (he : e ∈ v.recorded) (he' : e' ∈ v.recorded)
    (hsame : e.SameLog e') (hsame' : e'.SameLog e) (hseq : e.sequence = e'.sequence) : e = e' := by
  -- the numbers of one log increase in the order of the commits, so no two are equal
  have hpair : v.recorded.Pairwise fun a b => a.SameLog b → b.SameLog a →
      a.sequence = b.sequence → a = b :=
    hv.numbered.order.imp fun hlt hab _ heq => absurd heq (hlt hab).ne
  refine List.Pairwise.forall_of_forall_of_flip (fun a _ _ _ _ => rfl) hpair ?_ he he' hsame hsame'
    hseq
  exact hpair.imp fun h hba hab heq => (h hab hba heq.symm).symm

theorem eq_of_sequence (hv : v.Kept) (he : e ∈ v.recorded) (he' : e' ∈ v.recorded)
    (ht : e.threadId = some t) (ht' : e'.threadId = some t) (hseq : e.sequence = e'.sequence) :
    e = e' :=
  hv.eq_of_sameLog he he' ⟨ht'.trans ht.symm, fun hnone => by simp [ht] at hnone⟩
    ⟨ht.trans ht'.symm, fun hnone => by simp [ht'] at hnone⟩ hseq

theorem nodup (hv : v.Kept) : v.recorded.Nodup := by
  refine hv.numbered.order.imp fun {a b} hlt heq => ?_
  subst heq
  exact lt_irrefl _ (hlt ⟨rfl, fun _ => rfl⟩)

/-- A new event of the thread has a number above the old ones. -/
theorem above (hv' : v'.Kept) (h : v.Extends v') (he : e ∈ v.recorded)
    (he' : e' ∈ v'.recorded) (hnew : e' ∉ v.recorded) (ht : e.threadId = some t)
    (ht' : e'.threadId = some t) : e.sequence < e'.sequence := by
  obtain ⟨new, hnews⟩ := h.recorded
  rw [← hnews] at he'
  have hmem : e' ∈ new := (List.mem_append.1 he').resolve_left hnew
  have horder := hv'.numbered.order
  rw [← hnews] at horder
  exact (List.pairwise_append.1 horder).2.2 e he e' hmem
    ⟨ht'.trans ht.symm, fun hnone => by simp [ht] at hnone⟩

/-- What was committed since an earlier moment was committed since then before, or is new. -/
theorem since_of_extends (hv' : v'.Kept) (h : v.Extends v') (hn : n ≤ v.recorded.length)
    (hsince : v'.Since n e) : v.Since n e ∨ e ∉ v.recorded := by
  obtain ⟨new, hnews⟩ := h.recorded
  have hnodup := hv'.nodup
  rw [Db.Since, ← hnews, List.drop_append_of_le_length hn] at hsince
  rw [← hnews] at hnodup
  exact (List.mem_append.1 hsince).imp_right fun hmem hold =>
    List.disjoint_of_nodup_append hnodup hold hmem

/-- The run of an event is stored. -/
theorem hasRun (hv : v.Kept) (he : e ∈ v.recorded) :
    ∀ x, e.runId = some x → (v.runs.find? x).isSome :=
  fun x hx => hv.undeleted x (hv.numbered.issued e he x hx)

/-- Some event attains the largest stored number. -/
theorem maxSequence_cases (p : RuntimeEventRow → Bool) :
    -- the maximum over a list is 0 or attained, by induction on the list
    v.maxSequence p = 0 ∨ ∃ e ∈ v.events, p e = true ∧ e.sequence = v.maxSequence p := by
  have hmax (l : List RuntimeEventRow) : (l.map (·.sequence)).foldr max 0 = 0 ∨
      ∃ e ∈ l, e.sequence = (l.map (·.sequence)).foldr max 0 := by
    induction l with
    | nil => exact .inl rfl
    | cons a l ih =>
        rw [List.map_cons, List.foldr_cons]
        rcases Nat.le_total ((l.map (·.sequence)).foldr max 0) a.sequence with hle | hle
        · exact .inr ⟨a, List.mem_cons_self, (Nat.max_eq_left hle).symm⟩
        · rw [Nat.max_eq_right hle]
          exact ih.imp_right fun ⟨e, he, heq⟩ => ⟨e, List.mem_cons_of_mem _ he, heq⟩
  refine (hmax (v.events.filter p)).imp_right fun ⟨e, he, heq⟩ => ?_
  exact ⟨e, (List.mem_filter.1 he).1, (List.mem_filter.1 he).2, heq⟩

/-- The rows of a reload are in the order of their numbers. -/
theorem sorted_eventsAfter (hv : v.Kept) :
    (eventsAfter (inThread t) n v).Pairwise fun a b => a.sequence < b.sequence := by
  have hle : (eventsAfter (inThread t) n v).Pairwise fun a b => a.sequence ≤ b.sequence :=
    List.pairwise_insertionSort _ _
  have hnodup : (eventsAfter (inThread t) n v).Nodup := by
    exact (List.perm_insertionSort _ _).nodup_iff.2 ((hv.nodup.sublist hv.numbered.events).filter _)
  refine List.Pairwise.imp_of_mem (fun {a b} ha hb hab => ?_) (hle.and hnodup)
  obtain ⟨ha, hta, -⟩ := mem_eventsAfter.1 ha
  obtain ⟨hb, htb, -⟩ := mem_eventsAfter.1 hb
  -- equal numbers in one thread would make them one event
  refine lt_of_le_of_ne hab.1 fun heq => hab.2 ?_
  simp only [inThread, decide_eq_true_eq] at hta htb
  exact hv.eq_of_sequence (hv.numbered.events.subset ha) (hv.numbered.events.subset hb) hta htb
    heq

/-- A thread that is not stored has no events. -/
theorem eventsAfter_of_absent (hv : v.Kept) (h : v.threads.find? t = none) :
    eventsAfter (inThread t) n v = [] := by
  refine List.eq_nil_iff_forall_not_mem.2 fun e he => ?_
  obtain ⟨he, ht, -⟩ := mem_eventsAfter.1 he
  -- retention deletes the events of a thread with it
  have hsome := hv.retained.threads e (hv.numbered.events.subset he) t
    (by simpa [inThread] using ht)
  rw [h] at hsome
  cases hsome

end Db.Kept

/-! ## Resumable runs -/

/-- The event belongs to no run, or to a resumable one. -/
def Db.replayable (v : Db) (e : RuntimeEventRow) : Bool :=
  match e.runId with
  | none => true
  | some id =>
      match v.runs.find? id with
      | none => false
      | some r => r.streamResumable = some true

theorem RunRow.SameIdentity.streamResumable {r r' : RunRow} (h : r.SameIdentity r') :
    r'.streamResumable = r.streamResumable := by
  unfold RunRow.streamResumable
  rw [h.kwargs "stream_resumable" (by simp)]

/-- Whether a committed event is replayable does not change. -/
theorem Db.Kept.replayable_eq (hv : v.Kept) (h : v.Extends v') (he : e ∈ v.recorded) :
    v'.replayable e = v.replayable e := by
  cases hid : e.runId with
  | none => simp [replayable, hid]
  | some x =>
      obtain ⟨r, hr⟩ := Option.isSome_iff_exists.1 (hv.hasRun he x hid)
      -- `stream_resumable` is among the kwargs that no request changes
      obtain ⟨r', hr', hsame⟩ := h.runs x r hr
      simp [replayable, hid, hr, hr', hsame.streamResumable]

/-- `_resumable_run_ids` finds the runs of the replayable rows. -/
theorem mem_resumableRunIds {rows : List RuntimeEventRow} {ids : List RunId} {x : RunId}
    (h : resumableRunIds rows v = some ids) (he : e ∈ rows) (hx : e.runId = some x) :
    x ∈ ids ↔ v.replayable e = true := by
  simp only [resumableRunIds] at h
  split at h
  · cases h
  · obtain rfl := Option.some.inj h
    simp only [List.mem_map, List.mem_filter, List.mem_filterMap, decide_eq_true_eq, Db.replayable,
      hx]
    constructor
    · rintro ⟨r, ⟨⟨y, ⟨-, -⟩, hr⟩, hresumable⟩, rfl⟩
      obtain rfl : r.runId = y := Table.key_of_find? hr
      simp [hr, hresumable]
    · intro hreplay
      split at hreplay
      · cases hreplay
      · next r hr =>
          refine ⟨r, ⟨⟨x, ⟨e, he, hx⟩, hr⟩, by simpa using hreplay⟩, Table.key_of_find? hr⟩

/-! ## The log of a run -/

/-- The events of a run are in the log of its thread. -/
def Db.Homed (v : Db) : Prop :=
  ∀ e ∈ v.recorded, ∀ x r, e.runId = some x → v.runs.find? x = some r → e.threadId = r.threadId

/-- What a write adds to the log is stored, and what was stored stays. -/
theorem Db.Write.stores {K : Kind → Prop} (hprune : ¬K .prune) (hrun : ¬K .dropRun)
    (hthread : ¬K .dropThread) (hw : v.Write K v') :
    v.events ⊆ v'.events ∧ ∀ e ∈ v'.recorded, e ∈ v.recorded ∨ e ∈ v'.events := by
  cases hw with
  | log new =>
      refine ⟨List.subset_append_left _ _, fun e he => ?_⟩
      exact (List.mem_append.1 he).imp_right fun hnew => List.mem_append_right _ hnew
  | dropRun _ kind => exact absurd kind hrun
  | dropThread _ kind => exact absurd kind hthread
  | tables _ keeps =>
      have hevents : v'.events = v.events := keeps.events.resolve_right fun h => hprune h.1
      exact ⟨hevents ▸ List.Subset.refl _, fun e he => .inl (keeps.recorded ▸ he)⟩
  | _ => exact ⟨List.Subset.refl _, fun e he => .inl he⟩

/-- A new event is stored at the end of its request. -/
theorem Request.stores {q : Request} {a : Reply} (hq : q.KeepsRows)
    (h : (q.program now).Returns avail v a v') (he : e ∈ v'.recorded) (hnew : e ∉ v.recorded) :
    e ∈ v'.events := by
  by_cases hlog : Kind.log ∈ q.kinds
  -- no request both prunes and records
  · have hprune : Kind.prune ∉ q.kinds := by
      intro hprune
      cases q with
      | pruneExpiredEvents => simp [kinds] at hlog
      | finish _ _ target reason =>
          simp only [kinds] at hprune
          split at hprune <;> simp at hprune
      | runsCancel _ action => cases action <;> simp [kinds] at hprune
      | runsQueue _ operation => cases operation <;> simp [kinds] at hprune
      | _ => simp [kinds] at hprune
    have hstores := (q.within now).related
      (R := fun v v' => v.events ⊆ v'.events ∧ ∀ e ∈ v'.recorded, e ∈ v.recorded ∨ e ∈ v'.events)
      (fun v => ⟨List.Subset.refl _, fun e he => .inl he⟩)
      (fun u v w huv hvw => ⟨List.Subset.trans huv.1 hvw.1, fun e he => ?_⟩)
      (fun v v' hw => hw.stores hprune hq.1 hq.2) h
    · exact (hstores.2 e he).resolve_left hnew
    · rcases hvw.2 e he with hold | hstored
      · exact (huv.2 e hold).imp_right fun hstored => hvw.1 hstored
      · exact .inr hstored
  · have hrecorded : v'.recorded = v.recorded := (q.within now).recorded hlog h
    exact absurd (hrecorded ▸ he) hnew

/-- While no run is deleted, the log of a run stays in one place. -/
theorem Request.homed {q : Request} {a : Reply} (hq : q.KeepsRows) (hv : v.Kept)
    (hv' : v'.Kept) (hlog : v.Homed) (h : (q.program now).Returns avail v a v') :
    v'.Homed := by
  intro e he x r' hx hr'
  by_cases hold : e ∈ v.recorded
  · obtain ⟨r, hr⟩ := Option.isSome_iff_exists.1 (hv.hasRun hold x hx)
    obtain ⟨r'', hr'', hsame⟩ := (Request.extends hq h).1.runs x r hr
    have heq : r'' = r' := Option.some.inj (hr''.symm.trans hr')
    rw [hlog e hold x r hx hr, ← heq, hsame.threadId]
  · have hstored : e ∈ v'.events := Request.stores hq h he hold
    -- a new event is stored, and a stored event is where its run is
    obtain ⟨r, hr, hthread⟩ := hv'.sound.eventRun e hstored x hx
    have heq : r = r' := Option.some.inj (hr.symm.trans hr')
    rw [hthread, heq]

theorem homed_inductive : keeping.Inductive fun v => v.Kept ∧ v.Homed where
  init v hfresh := by
    refine ⟨kept_inductive.init v hfresh, fun e he => ?_⟩
    have hnone : v.recorded = [] := Db.Fresh.recorded hfresh
    rw [hnone] at he
    cases he
  step v l v' hv h := by
    have hv' : v'.Kept := kept_inductive.step v l v' hv.1 h
    rcases keeping_step h with rfl | ⟨avail, a, hret⟩
    · exact hv
    · exact ⟨hv', Request.homed h.1 hv.1 hv' hv.2 hret⟩

namespace Db.Kept

variable {x : RunId}

/-- Two events of one run are in one log. -/
theorem sameLog (hv : v.Kept) (hlog : v.Homed) (he : e ∈ v.recorded)
    (he' : e' ∈ v.recorded) (hx : e.runId = some x) (hx' : e'.runId = some x) :
    e.SameLog e' := by
  obtain ⟨r, hr⟩ := Option.isSome_iff_exists.1 (hv.hasRun he x hx)
  have hthread := hlog e he x r hx hr
  have hthread' := hlog e' he' x r hx' hr
  exact ⟨hthread'.trans hthread.symm, fun _ => hx'.trans hx.symm⟩

theorem eq_of_run (hv : v.Kept) (hlog : v.Homed) (he : e ∈ v.recorded)
    (he' : e' ∈ v.recorded) (hx : e.runId = some x) (hx' : e'.runId = some x)
    (hseq : e.sequence = e'.sequence) : e = e' :=
  hv.eq_of_sameLog he he' (hv.sameLog hlog he he' hx hx') (hv.sameLog hlog he' he hx' hx) hseq

/-- An event of the run that was committed earlier has a smaller number. -/
theorem lt_of_earlier (hv : v.Kept) (hlog : v.Homed) (he : e ∈ v.recorded.take n)
    (he' : e' ∈ v.recorded.drop n) (hx : e.runId = some x) (hx' : e'.runId = some x) :
    e.sequence < e'.sequence := by
  have hsame := hv.sameLog hlog (List.mem_of_mem_take he) (List.mem_of_mem_drop he') hx hx'
  have horder := hv.numbered.order
  rw [← List.take_append_drop n v.recorded] at horder
  exact (List.pairwise_append.1 horder).2.2 e he e' he' hsame

theorem earlier_of_lt (hv : v.Kept) (hlog : v.Homed) (he : e ∈ v.recorded)
    (he' : e' ∈ v.recorded.take n) (hx : e.runId = some x) (hx' : e'.runId = some x)
    (hlt : e.sequence < e'.sequence) : e ∈ v.recorded.take n := by
  rw [← List.take_append_drop n v.recorded] at he
  refine (List.mem_append.1 he).resolve_right fun hlater => ?_
  -- the other way round its number would be larger
  have := hv.lt_of_earlier hlog he' hlater hx' hx
  omega

/-- A new event of the run has a number above the old ones. -/
theorem above_run (hv' : v'.Kept) (hlog' : v'.Homed) (h : v.Extends v')
    (he : e ∈ v.recorded) (he' : e' ∈ v'.recorded) (hnew : e' ∉ v.recorded)
    (hx : e.runId = some x) (hx' : e'.runId = some x) : e.sequence < e'.sequence := by
  have htake : v'.recorded.take v.recorded.length = v.recorded :=
    (List.prefix_iff_eq_take.1 h.recorded).symm
  have hlater : e' ∈ v'.recorded.drop v.recorded.length := by
    rw [← List.take_append_drop v.recorded.length v'.recorded, htake] at he'
    exact (List.mem_append.1 he').resolve_left hnew
  exact hv'.lt_of_earlier hlog' (htake.symm ▸ he) hlater hx hx'

/-- The rows of a run are read in the order of their numbers. -/
theorem sorted_run (hv : v.Kept) (hlog : v.Homed) :
    (eventsAfter (inRun x) n v).Pairwise fun a b => a.sequence < b.sequence := by
  have hle : (eventsAfter (inRun x) n v).Pairwise fun a b => a.sequence ≤ b.sequence :=
    List.pairwise_insertionSort _ _
  have hnodup : (eventsAfter (inRun x) n v).Nodup := by
    exact (List.perm_insertionSort _ _).nodup_iff.2 ((hv.nodup.sublist hv.numbered.events).filter _)
  refine List.Pairwise.imp_of_mem (fun {a b} ha hb hab => ?_) (hle.and hnodup)
  obtain ⟨ha, hxa, -⟩ := mem_eventsAfter.1 ha
  obtain ⟨hb, hxb, -⟩ := mem_eventsAfter.1 hb
  simp only [inRun, decide_eq_true_eq] at hxa hxb
  refine lt_of_le_of_ne hab.1 fun heq => hab.2 ?_
  exact hv.eq_of_run hlog (hv.numbered.events.subset ha) (hv.numbered.events.subset hb) hxa hxb heq

end Db.Kept

end GraphHarbor
