import GraphHarbor.Transitions

/-!
# Integrity of the stored rows

What the foreign keys of the events and the counters of the attempts say in every state
the service reaches: an event belongs to a stored run and to its thread, and no run is
tried more often than `maxInfrastructureRetries`.
-/

namespace GraphHarbor

open Kit Txn

variable {now : Time} {S : RunRow → Prop} {v v' : Db} {avail : Lock → Bool} {id : RunId}

/-- The invariant. The foreign keys of the schema give the first two, the bounds in `create` and in
the claim the third. -/
structure Db.Sound (v : Db) : Prop where
  eventRun : ∀ e ∈ v.events, ∀ x, e.runId = some x →
    ∃ r, v.runs.find? x = some r ∧ e.threadId = r.threadId
  eventThread : ∀ e ∈ v.events, ∀ t, e.threadId = some t → (v.threads.find? t).isSome
  attempts : ∀ r ∈ v.runs,
    r.retryCount ≤ maxInfrastructureRetries ∧ r.maxAttempts ≤ maxInfrastructureRetries

/-! ## The invariant -/

/-- A step that neither inserts nor starts a run. -/
theorem Move.sound (hmove : Move now S v v') (h : v.Sound) : v'.Sound where
  eventRun e he x hx := by
    rcases hmove.events.run e he x hx with hnew | ⟨he, hkept⟩
    · exact hnew
    · obtain ⟨r, hr, ht⟩ := h.eventRun e he x hx
      obtain ⟨r', hr'⟩ := Option.isSome_iff_exists.1 (hkept (by simp [hr]))
      obtain ⟨r₀, hr₀, hrun⟩ := hmove.origin (Table.mem_of_find? hr')
      have hid : r₀.runId = x :=
        hrun.sameAttempts.runId.symm.trans (Table.key_of_find? hr')
      rw [Db.mem_runs, hid, hr] at hr₀
      obtain rfl := Option.some.inj hr₀
      exact ⟨r', hr', ht.trans hrun.sameAttempts.threadId.symm⟩
  eventThread e he t ht := by
    rcases hmove.events.thread e he t ht with hnew | ⟨he, hkept⟩
    · exact hnew
    · exact hkept (h.eventThread e he t ht)
  attempts r' hr' := by
    obtain ⟨r, hr, hrun⟩ := hmove.origin hr'
    rw [hrun.sameAttempts.retryCount, hrun.sameAttempts.maxAttempts]
    exact h.attempts r hr

/-- A submission stores a run without events, and with no attempt used. -/
theorem Submit.sound {r : RunRow} (hsubmit : Submit r v v') (h : v.Sound) : v'.Sound where
  eventRun e he x hx := by
    rw [hsubmit.result] at he
    obtain ⟨r₀, hr₀, ht⟩ := h.eventRun e he x hx
    refine ⟨r₀, ?_, ht⟩
    rw [hsubmit.find?, if_neg, hr₀]
    rintro rfl
    rw [show v.runs.find? r.runId = none from hsubmit.absent] at hr₀
    cases hr₀
  eventThread e he t ht := by
    rw [hsubmit.result] at he ⊢
    exact h.eventThread e he t ht
  attempts r' hr' := by
    rcases hsubmit.origin hr' with rfl | ⟨hr, -⟩
    · rw [hsubmit.submitted.retryCount]
      exact ⟨Nat.zero_le _, hsubmit.submitted.maxAttempts.2⟩
    · exact h.attempts r' hr

/-- A start uses an attempt, which the claim has compared with the limit. -/
theorem Start.sound {repo : RunRepository} {owner : String} {run : RunRow}
    (hstart : Start repo now owner run v v') (h : v.Sound) : v'.Sound where
  eventRun e he x hx := by
    obtain ⟨r, hr, ht⟩ := h.eventRun e (hstart.events he) x hx
    by_cases hid : x = run.runId
    · subst hid
      obtain rfl := Option.some.inj (hstart.found.symm.trans hr)
      exact ⟨_, hstart.row, ht⟩
    · exact ⟨r, (hstart.others x hid).trans hr, ht⟩
  eventThread e he t ht := hstart.threads t (h.eventThread e (hstart.events he) t ht)
  attempts r' hr' := by
    rcases hstart.origin hr' with rfl | ⟨hr, -⟩
    · have hrun := h.attempts run (Table.mem_of_find? hstart.found)
      refine ⟨le_trans hstart.attempts hrun.2, ?_⟩
      exact (min_le_right _ _).trans repo.attempts_le
    · exact h.attempts r' hr

/-- The invariant holds in every state that the service reaches. -/
theorem sound_inductive {allows : Request → Prop} :
    (service allows).Inductive fun w => w.db.Sound := by
  refine service_inductive (P := fun _ v => v.Sound) ?_ ?_ ?_ ?_ ?_
  · intro now v hfresh
    refine ⟨?_, ?_, ?_⟩ <;> simp [hfresh.events, hfresh.runs]
  · exact fun now d v h => h
  · exact fun now S v v' h hmove => hmove.sound h
  · exact fun now r v v' h hsubmit => hsubmit.sound h
  · exact fun repo now owner r v v' h hstart => hstart.sound h

/-- Several moves in one transaction. -/
theorem Moves.sound (hmoves : Moves now S v v') (h : v.Sound) : v'.Sound :=
  hmoves.preserves (fun _ _ hv hmove => hmove.sound hv) h

/-- The same for a request that is executed whole. -/
theorem Request.sound {q : Request} {a : Reply} (hv : v.Sound)
    (h : (q.program now).Returns avail v a v') : v'.Sound := by
  cases q.effect h with
  | moves hmoves => exact hmoves.sound hv
  | submit _ hsubmit => exact hsubmit.sound hv
  | claim _ hstart hmoves => exact hmoves.sound (hstart.sound hv)

/-! ## Recording an event never fails on a sound database -/

/-- The next event of a run clashes with none that is stored. -/
theorem Db.Sound.no_clash (h : v.Sound) {run : RunRow} (hrun : v.runs.find? id = some run)
    {topic : String} {payload : Dict} {ns : List String} {terminal : Bool}
    (hterminal : terminal = true → v.terminalEvent id = none) :
    v.events.any (eventRow now (some id) run.threadId (v.nextSequence run) topic payload ns
      terminal).clashes = false := by
  rw [List.any_eq_false]
  intro e he hclash
  simp only [RuntimeEventRow.clashes, eventRow, Option.isSome_some, decide_eq_true_eq] at hclash
  obtain ⟨-, heq, hsame⟩ := hclash
  obtain ⟨r, hr, ht⟩ := h.eventRun e he id heq.symm
  obtain rfl := Option.some.inj (hrun.symm.trans hr)
  rcases hsame with hsequence | ⟨hnew, hold⟩
  · -- the number is larger than that of every event of the thread, or of the run
    cases hthread : run.threadId with
    | none =>
        obtain rfl : run.runId = id := Table.key_of_find? hrun
        have hle : e.sequence ≤ v.maxSequence (inRun run.runId) :=
          Db.le_maxSequence he (by simp [inRun, ← heq])
        simp only [Db.nextSequence, hthread] at hsequence
        omega
    | some t =>
        have hle : e.sequence ≤ v.maxSequence (inThread t) :=
          Db.le_maxSequence he (by simp [inThread, ht, hthread])
        simp only [Db.nextSequence, hthread] at hsequence
        omega
  · have hnone := List.find?_eq_none.1 (hterminal hnew) e he
    simp [inRun, ← heq, hold] at hnone

/-- The transaction commits when nothing else is running. -/
def Commits {α : Type} (p : Txn α) (v : Db) : Prop := ∃ a v', p.Returns unlocked v a v'

/-- One part commits at the database the part before it left. -/
theorem Commits.bind {α β : Type} {p : Txn α} {f : α → Txn β} {a : α}
    (h : p.Returns unlocked v a v') (hf : Commits (f a) v') : Commits (p >>= f) v := by
  obtain ⟨b, w, hb⟩ := hf
  exact ⟨b, w, returns_bind.2 ⟨a, v', h, hb⟩⟩

/-- Locking and writing a thread cannot fail; a missing one is skipped. -/
theorem updateThreadOf_commits {t : Option ThreadId} {f : ThreadRow → ThreadRow} :
    (updateThreadOf t f).Returns unlocked v () (v.assignThreadOf t f) := by
  simp only [updateThreadOf, returns_bind]
  cases t with
  | none => exact ⟨none, v, returns_ret.2 ⟨rfl, rfl⟩, returns_ret.2 ⟨rfl, rfl⟩⟩
  | some t =>
      refine ⟨v.threads.find? t, v, returns_lockThread.2 ⟨rfl, rfl, fun _ => rfl⟩, ?_⟩
      cases ht : v.threads.find? t with
      | none => exact returns_ret.2 ⟨rfl, assignThread_of_none ht⟩
      | some thread =>
          obtain rfl : thread.threadId = t := Table.key_of_find? ht
          exact returns_assignThread.2 ⟨rfl, fun _ _ => .inr rfl⟩

/-- Reading the graph's name always succeeds. -/
theorem withGraphName_commits {run : RunRow} {topic : String} {payload : Dict} :
    (withGraphName run topic payload).Returns avail v (v.namedPayload run topic payload) v := by
  unfold withGraphName Db.namedPayload
  split
  · simp only [returns_bind, returns_query, Prog.pure_eq, returns_ret]
    exact ⟨_, _, ⟨rfl, rfl⟩, rfl, rfl⟩
  · simp

/-- Drawing a number needs the thread, and its lock. -/
theorem nextSequence_commits {run : RunRow}
    (hthread : ∀ t, run.threadId = some t →
      (v.threads.find? t).isSome ∧ avail (.thread t) = true) :
    (nextSequence run).Returns avail v (v.nextSequence run)
      (v.assignThreadOf run.threadId (.numbered (v.nextSequence run))) := by
  unfold nextSequence Db.nextSequence
  cases ht : run.threadId with
  | none =>
      simp only [returns_bind, returns_query, Prog.pure_eq, returns_ret]
      exact ⟨_, _, ⟨rfl, rfl⟩, rfl, rfl⟩
  | some t =>
      obtain ⟨hstored, havail⟩ := hthread t ht
      obtain ⟨thread, hfind⟩ := Option.isSome_iff_exists.1 hstored
      simp only [nextThreadSequence, returns_bind, returns_lockThread]
      refine ⟨_, _, ⟨rfl, rfl, fun _ => havail⟩, ?_⟩
      simp only [hfind, returns_bind, returns_query, returns_assignThread, Prog.pure_eq,
        returns_ret, Option.elim_some]
      exact ⟨_, _, ⟨rfl, rfl⟩, (), _, ⟨rfl, fun _ _ => .inr havail⟩, rfl, rfl⟩

/-- With the locks and no clash of numbers the event is stored. -/
theorem appendRunEvent_commits {run : RunRow} {topic : String} {payload : Dict}
    {ns : List String} {terminal : Bool} (hlock : avail (.run run.runId) = true)
    (hthread : ∀ t, run.threadId = some t →
      (v.threads.find? t).isSome ∧ avail (.thread t) = true)
    (hclash : v.events.any (eventRow now (some run.runId) run.threadId (v.nextSequence run) topic
      payload ns terminal).clashes = false) :
    ∃ e v', (appendRunEvent now run topic payload ns terminal).Returns avail v e v' := by
  have hevents : ((v.assignThreadOf run.threadId (.numbered (v.nextSequence run))).assignRun
      run.runId (.numbered (v.nextSequence run))).events = v.events := by
    cases run.threadId <;> rfl
  simp only [appendRunEvent, returns_bind, returns_assignRun, returns_insertEvent, Prog.pure_eq,
    returns_ret]
  exact ⟨_, _, _, _, nextSequence_commits hthread, (), _, ⟨rfl, fun _ _ => .inr hlock⟩, (), _,
    ⟨rfl, hevents ▸ hclash⟩, rfl, rfl⟩

/-- Recording an event waits for the run and its thread, and for nothing else. -/
theorem recordRunEvent_possible (h : v.Sound) {run : RunRow} (hrun : v.runs.find? id = some run)
    (hlock : avail (.run id) = true)
    (hthread : ∀ t, run.threadId = some t →
      (v.threads.find? t).isSome ∧ avail (.thread t) = true) {topic : String}
    {payload : Dict} {ns : List String} {terminal : Bool} :
    ∃ e v', (recordRunEvent now id run.threadId topic payload ns terminal).Returns avail v e
      v' := by
  obtain rfl : run.runId = id := Table.key_of_find? hrun
  simp only [recordRunEvent, returns_bind, returns_lockRun]
  have happend (hterminal : terminal = true → v.terminalEvent run.runId = none) :
      ∃ e v', (appendRunEvent now run topic (v.namedPayload run topic payload) ns
        terminal).Returns avail v e v' :=
    appendRunEvent_commits hlock hthread (h.no_clash hrun hterminal)
  obtain ⟨existing, hexisting, hnone⟩ : ∃ o : Option RuntimeEventRow,
      (existingTerminal run.runId terminal).Returns avail v o v ∧
        (o = none → terminal = true → v.terminalEvent run.runId = none) := by
    cases terminal with
    | false => exact ⟨none, by simp [existingTerminal], by simp⟩
    | true =>
        exact ⟨v.terminalEvent run.runId, by simp [existingTerminal, Db.terminalEvent],
          fun hnone _ => hnone⟩
  obtain ⟨e, v', he⟩ : ∃ e v', (existing.elim
      (appendRunEvent now run topic (v.namedPayload run topic payload) ns terminal)
      pure).Returns avail v e v' := by
    cases existing with
    | some e => exact ⟨e, v, returns_ret.2 ⟨rfl, rfl⟩⟩
    | none => exact happend (hnone rfl)
  refine ⟨e, v', _, _, ⟨rfl, rfl, fun _ => hlock⟩, ?_⟩
  rw [hrun]
  simp only [ne_eq, not_true_eq_false, decide_false, Bool.and_false, Bool.false_eq_true, if_false,
    returns_bind]
  exact ⟨_, _, withGraphName_commits, existing, v, hexisting, by cases existing <;> exact he⟩

/-- With nothing else running, an event of a stored run is always recorded. -/
theorem recordRunEvent_commits (h : v.Sound) {run : RunRow} (hrun : v.runs.find? id = some run)
    (hthread : ∀ t, run.threadId = some t → (v.threads.find? t).isSome) {topic : String}
    {payload : Dict} {ns : List String} {terminal : Bool} :
    Commits (recordRunEvent now id run.threadId topic payload ns terminal) v :=
  recordRunEvent_possible h hrun rfl fun t ht => ⟨hthread t ht, rfl⟩

end GraphHarbor
