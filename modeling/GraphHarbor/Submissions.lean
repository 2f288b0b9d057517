import GraphHarbor.Retention
import GraphHarbor.Attribution

/-!
# Submissions, statement by statement

Any number of processes run `runs_create` at the same time, each statement of theirs
between any statements of the others, and between the whole transactions of the workers,
the reaper and the other endpoints. Two mechanisms keep them apart: the row lock of the
thread, and the unique index on the idempotency key. A submission answers with the run
that carries its key or adds one run; no key is carried twice; and where the submissions
of a thread ask to be rejected while it is active, it never has two of their runs active.
-/

namespace GraphHarbor

open Kit Txn

variable {T : ThreadId → Prop} {H : List Lock} {now : Time} {repo : RunRepository}
  {s : Submission} {u v v' w : Db} {r r' : RunRow} {t : ThreadId} {x : RunId} {key : String}

/-! ## Rows -/

/-- `r'` is the run `r` at a later time. -/
structure RunRow.Ages (r r' : RunRow) : Prop extends RunRow.SameIdentity r r' where
  terminal : r.status.isTerminal = true → r'.status.isTerminal = true

theorem RunRow.Ages.refl (r : RunRow) : r.Ages r := ⟨.refl r, id⟩

theorem RunRow.Ages.trans {r'' : RunRow} (h : r.Ages r') (h' : r'.Ages r'') : r.Ages r'' :=
  ⟨h.toSameIdentity.trans h'.toSameIdentity, fun ht => h'.terminal (h.terminal ht)⟩

/-- The run is pending or running in the thread `t`, and answers no interrupt. -/
def RunRow.Engages (r : RunRow) (t : ThreadId) : Prop :=
  isActive (some t) r = true ∧ isResume r.kwargs = false

theorem isActive_iff {th : Option ThreadId} :
    isActive th r = true ↔ r.threadId = th ∧ r.status.isTerminal = false := by
  rw [isActive, Bool.and_eq_true, decide_eq_true_eq, Bool.or_eq_true, decide_eq_true_eq,
    decide_eq_true_eq, RunStatus.isTerminal_eq_false]

/-- A run that is active now was active before. -/
theorem RunRow.Ages.active {th : Option ThreadId} (h : r.Ages r')
    (hactive : isActive th r' = true) : isActive th r = true := by
  obtain ⟨hth, hlive⟩ := isActive_iff.1 hactive
  refine isActive_iff.2 ⟨h.threadId.symm.trans hth, ?_⟩
  by_contra hover
  rw [h.terminal (by simpa using hover)] at hlive
  cases hlive

theorem RunRow.Ages.engages (h : r.Ages r') (hengages : r'.Engages t) : r.Engages t := by
  refine ⟨h.active hengages.1, ?_⟩
  have hcommand := h.kwargs "command" (by decide)
  have hresume := hengages.2
  rw [isResume, hcommand] at hresume
  exact hresume

/-! ## Requests -/

/-- A submission to one of the threads `T` that answers no interrupt asks to be rejected
when the thread is active. -/
def Submission.Strict (T : ThreadId → Prop) (s : Submission) : Prop :=
  ∀ t, s.threadId = some t → T t → isResume s.kwargs = false →
    s.multitaskStrategy = some "reject"

/-- Submissions run statement by statement, everything else runs whole; no thread is
deleted. -/
def submissions (T : ThreadId → Prop) : Engine.Requests Timed where
  stepwise q := ∃ repo s, q.request = .runsCreate repo s ∧ s.Strict T
  whole q := (∀ repo s, q.request ≠ .runsCreate repo s) ∧ Kind.dropThread ∉ q.request.kinds

abbrev submitting (T : ThreadId → Prop) : TSys Transactions TxnEvent :=
  interleaved (submissions T)

/-! ## The environment of a submission -/

/-- The rows of `v'` come from rows of `v`. -/
def Db.Aged (v v' : Db) : Prop :=
  ∀ x r', v'.runs.find? x = some r' → ∃ r, v.runs.find? x = some r ∧ r.Ages r'

/-- What a transaction that holds the locks `H` may find changed: no thread is gone, and
a run that was not there before has no lock of `H`. -/
structure Db.Meets (H : List Lock) (v v' : Db) : Prop where
  threads : ∀ t, (v.threads.find? t).isSome → (v'.threads.find? t).isSome
  issued : v.issued ⊆ v'.issued
  drawn : ∀ x ∈ v'.issued, x ∈ v.issued ∨ Lock.run x ∉ H
  runs : ∀ x r', v'.runs.find? x = some r' → (∃ r, v.runs.find? x = some r ∧ r.Ages r') ∨
    x ∉ v.issued ∧ (∀ t, r'.threadId = some t → Lock.thread t ∉ H) ∧
      ∀ key, r'.idempotencyKey = some key → Lock.idempotency key ∉ H

theorem Db.Meets.refl (H : List Lock) (v : Db) : v.Meets H v where
  threads _ h := h
  issued := List.Subset.refl _
  drawn _ hx := .inl hx
  runs _ r hr := .inl ⟨r, hr, .refl r⟩

theorem Db.Meets.trans (h : u.Meets H v) (h' : v.Meets H w) : u.Meets H w where
  threads t ht := h'.threads t (h.threads t ht)
  issued := List.Subset.trans h.issued h'.issued
  drawn x hx := by
    rcases h'.drawn x hx with hx | hfree
    · exact h.drawn x hx
    · exact .inr hfree
  runs x r'' hr'' := by
    rcases h'.runs x r'' hr'' with ⟨r', hr', hages'⟩ | ⟨hnew, hfree⟩
    · rcases h.runs x r' hr' with ⟨r, hr, hages⟩ | ⟨hnew, hthread, hkey⟩
      · exact .inl ⟨r, hr, hages.trans hages'⟩
      · refine .inr ⟨hnew, fun t ht => hthread t ?_, fun key hk => hkey key ?_⟩
        · exact hages'.threadId.symm.trans ht
        · exact hages'.idempotencyKey.symm.trans hk
    · exact .inr ⟨fun hx => hnew (h.issued hx), hfree⟩

theorem Db.Meets.mono {H' : List Lock} (hsub : H ⊆ H') (h : v.Meets H' v') : v.Meets H v' where
  threads := h.threads
  issued := h.issued
  drawn x hx := (h.drawn x hx).imp_right fun hfree hmem => hfree (hsub hmem)
  runs x r' hr' := by
    refine (h.runs x r' hr').imp_right fun ⟨hnew, hthread, hkey⟩ => ?_
    exact ⟨hnew, fun t ht hmem => hthread t ht (hsub hmem),
      fun key hk hmem => hkey key hk (hsub hmem)⟩

theorem Db.Aged.meets (h : v.Aged v') (hissued : v'.issued = v.issued)
    (hthreads : ∀ t, (v.threads.find? t).isSome → (v'.threads.find? t).isSome) :
    v.Meets H v' where
  threads := hthreads
  issued := hissued ▸ List.Subset.refl _
  drawn _ hx := .inl (hissued ▸ hx)
  runs x r' hr' := .inl (h x r' hr')

/-- A stored run was there before, when its number had been drawn. -/
theorem Db.Meets.source (h : v.Meets H v') (hr' : v'.runs.find? x = some r')
    (hx : x ∈ v.issued) : ∃ r, v.runs.find? x = some r ∧ r.Ages r' :=
  (h.runs x r' hr').resolve_right fun hnew => hnew.1 hx

/-- While the thread is locked, no run of it begins. -/
theorem Db.Meets.active (h : v.Meets H v') (hlock : Lock.thread t ∈ H)
    (hr' : v'.runs.find? x = some r') (hactive : isActive (some t) r' = true) :
    ∃ r, v.runs.find? x = some r ∧ r.Ages r' := by
  refine (h.runs x r' hr').resolve_right fun ⟨_, hthread, _⟩ => ?_
  exact hthread t (isActive_iff.1 hactive).1 hlock

/-! ## The invariant -/

/-- No key is carried twice, and no thread of `T` is engaged twice. -/
structure Db.Distinct (T : ThreadId → Prop) (v : Db) : Prop where
  enrolled : v.Enrolled
  keys : ∀ x y r r' key, v.runs.find? x = some r → v.runs.find? y = some r' →
    r.idempotencyKey = some key → r'.idempotencyKey = some key → x = y
  engaged : ∀ t, T t → ∀ x y r r', v.runs.find? x = some r → v.runs.find? y = some r' →
    r.Engages t → r'.Engages t → x = y

namespace Db.Distinct

theorem of_fresh (h : v.Fresh) : v.Distinct T := by
  refine ⟨?_, ?_, ?_⟩ <;> simp [Db.Enrolled, h.runs]

theorem of_aged (h : v.Distinct T) (haged : v.Aged v') (hissued : v.issued ⊆ v'.issued) :
    v'.Distinct T where
  enrolled x r' hr' := by
    obtain ⟨r, hr, -⟩ := haged x r' hr'
    exact hissued (h.enrolled x r hr)
  keys x y r r' key hr hr' hk hk' := by
    obtain ⟨r₀, hr₀, hages⟩ := haged x r hr
    obtain ⟨r₀', hr₀', hages'⟩ := haged y r' hr'
    exact h.keys x y r₀ r₀' key hr₀ hr₀' (hages.idempotencyKey.symm.trans hk)
      (hages'.idempotencyKey.symm.trans hk')
  engaged t ht x y r r' hr hr' he he' := by
    obtain ⟨r₀, hr₀, hages⟩ := haged x r hr
    obtain ⟨r₀', hr₀', hages'⟩ := haged y r' hr'
    exact h.engaged t ht x y r₀ r₀' hr₀ hr₀' (hages.engages he) (hages'.engages he')

/-- A new run, with a key of its own and, in a thread of `T`, no other engaged run. -/
theorem insert (h : v.Distinct T) (hfresh : v.drawn r.runId = false)
    (hkeys : ∀ key, r.idempotencyKey = some key → ∀ x r', v.runs.find? x = some r' →
      r'.idempotencyKey ≠ some key)
    (hengaged : ∀ t, T t → r.Engages t → ∀ x r', v.runs.find? x = some r' → ¬r'.Engages t) :
    (v.insertRun r).Distinct T := by
  simp only [drawn, Bool.or_eq_false_iff, decide_eq_false_iff_not] at hfresh
  have habsent : v.runs.find? (Keyed.key r) = none := by simpa using hfresh.2
  have hfind (x : RunId) (r' : RunRow) (hr' : (v.insertRun r).runs.find? x = some r') :
      x = r.runId ∧ r' = r ∨ v.runs.find? x = some r' := by
    rw [Db.insertRun, Table.find?_insert habsent] at hr'
    split at hr'
    · next hx => exact .inl ⟨hx, (Option.some.inj hr').symm⟩
    · exact .inr hr'
  refine ⟨fun x r' hr' => ?_, fun x y r₁ r₂ key hr₁ hr₂ hk₁ hk₂ => ?_,
    fun t ht x y r₁ r₂ hr₁ hr₂ he₁ he₂ => ?_⟩
  · rw [Db.insertRun, List.mem_append, List.mem_singleton]
    rcases hfind x r' hr' with ⟨rfl, -⟩ | hr'
    · exact .inr rfl
    · exact .inl (h.enrolled x r' hr')
  · rcases hfind x r₁ hr₁ with ⟨rfl, rfl⟩ | hold₁ <;> rcases hfind y r₂ hr₂ with ⟨rfl, rfl⟩ | hold₂
    · rfl
    · exact absurd hk₂ (hkeys key hk₁ y r₂ hold₂)
    · exact absurd hk₁ (hkeys key hk₂ x r₁ hold₁)
    · exact h.keys x y r₁ r₂ key hold₁ hold₂ hk₁ hk₂
  · rcases hfind x r₁ hr₁ with ⟨rfl, rfl⟩ | hold₁ <;> rcases hfind y r₂ hr₂ with ⟨rfl, rfl⟩ | hold₂
    · rfl
    · exact absurd he₂ (hengaged t ht he₁ y r₂ hold₂)
    · exact absurd he₁ (hengaged t ht he₂ x r₁ hold₁)
    · exact h.engaged t ht x y r₁ r₂ hold₁ hold₂ he₁ he₂

end Db.Distinct

/-- What submissions rely on: the locks they hold are respected, and the invariant stays. -/
def submissionEnv (T : ThreadId → Prop) : Env engine where
  rely H v v' := v.Meets H v' ∧ (v.Distinct T → v'.Distinct T)
  admits _ _ _ _ := True
  refl H v := ⟨.refl H v, id⟩
  trans h h' := ⟨h.1.trans h'.1, fun hv => h'.2 (h.2 hv)⟩
  mono hsub h := ⟨h.1.mono hsub, h.2⟩

/-! ## Statements in this environment -/

section Statements

variable {tx tx' : Tx Db Lock Session}

theorem submissionEnv_meets {β : Type} {p : Txn β} {a : Except Err β}
    (h : (submissionEnv T).Ends p tx v a tx' v') : v.Meets tx.held v' := h.rely.1

theorem query_ends {β : Type} {f : Db → β} {b : β}
    (h : (submissionEnv T).Ends (query f) tx v (.ok b) tx' v') :
    ∃ u, (submissionEnv T).rely tx.held v u ∧ b = f (tx.effect u) ∧ tx' = tx ∧
      (submissionEnv T).rely tx.held u v' := by
  obtain ⟨u, avail, hrely, -, hexec, hrely'⟩ := Env.ends_perform h
  obtain ⟨rfl, rfl⟩ : f (tx.effect u) = b ∧ _ = tx' := by
    simpa [Engine.exec, engine, Stmt.sem] using hexec
  exact ⟨u, hrely, rfl, by simp, by simpa using hrely'⟩

theorem getThread_ends {a : Option ThreadRow}
    (h : (submissionEnv T).Ends (getThread t) (engine.start) v (.ok a) tx' v') :
    ∃ u, (submissionEnv T).rely [] v u ∧ a = u.threads.find? t ∧ tx'.effect = id ∧
      tx'.held = [] ∧ (submissionEnv T).rely [] u v' := by
  obtain ⟨u, avail, hrely, -, hexec, hrely'⟩ := Env.ends_perform h
  obtain ⟨rfl, rfl⟩ : u.threads.find? t = a ∧ _ = tx' := by
    simpa [Engine.exec, engine, Stmt.sem, Engine.start, Session.empty] using hexec
  exact ⟨u, hrely, rfl, rfl, by simp, by simpa using hrely'⟩

/-- A stored thread is locked. -/
theorem lockThread_ends {a : Option ThreadRow}
    (h : (submissionEnv T).Ends (lockThread t) tx v (.ok a) tx' v') :
    ∃ u, (submissionEnv T).rely tx.held v u ∧ tx'.effect = tx.effect ∧
      (((tx.effect u).threads.find? t).isSome → Lock.thread t ∈ tx'.held) ∧
      (submissionEnv T).rely tx'.held u v' := by
  obtain ⟨u, avail, hrely, -, hexec, hrely'⟩ := Env.ends_perform h
  obtain ⟨o, hsem, -, rfl⟩ := Engine.exec_ok hexec
  simp only [engine, Stmt.sem] at hsem
  cases hfind : (tx.effect u).threads.find? t with
  | none =>
      rw [hfind] at hsem
      obtain rfl := Except.ok.inj (Option.some.inj hsem)
      exact ⟨u, hrely, rfl, fun hstored => by simp [hfind] at hstored, hrely'⟩
  | some stored =>
      rw [hfind] at hsem
      simp only at hsem
      split at hsem
      · obtain rfl := Except.ok.inj (Option.some.inj hsem)
        exact ⟨u, hrely, rfl, fun _ => by simp, hrely'⟩
      · cases hsem

/-- An insert keeps the number and the key of its row for itself, or meets the key. -/
theorem insertRun_ends {b : Bool}
    (h : (submissionEnv T).Ends (.perform (.insertRun r)) tx v (.ok b) tx' v') :
    ∃ u, (submissionEnv T).rely tx.held v u ∧ (submissionEnv T).rely tx'.held u v' ∧
      tx.held ⊆ tx'.held ∧ (tx.effect u).drawn r.runId = false ∧
      ((b = false ∧ tx' = tx ∧ r.idempotencyKey.isSome) ∨
        (b = true ∧ tx'.effect = (fun d => (tx.effect d).insertRun r) ∧
          Lock.run r.runId ∈ tx'.held ∧ ∀ key, r.idempotencyKey = some key →
            Lock.idempotency key ∈ tx'.held ∧
            ∀ x r', (tx.effect u).runs.find? x = some r' → r'.idempotencyKey ≠ some key)) := by
  obtain ⟨u, avail, hrely, -, hexec, hrely'⟩ := Env.ends_perform h
  refine ⟨u, hrely, hrely', Env.exec_held hexec, ?_⟩
  obtain ⟨o, hsem, rfl, rfl⟩ := Engine.exec_ok hexec
  simp only [engine, Stmt.sem] at hsem
  split at hsem
  · cases hsem
  · next hdrawn =>
      simp only [Bool.or_eq_true, not_or, Bool.not_eq_true] at hdrawn
      refine ⟨hdrawn.1, ?_⟩
      cases hkey : r.idempotencyKey with
      | none =>
          rw [hkey] at hsem
          obtain rfl := Except.ok.inj (Option.some.inj hsem)
          exact .inr ⟨rfl, rfl, by simp, by simp⟩
      | some key =>
          rw [hkey] at hsem
          simp only at hsem
          split at hsem
          · obtain rfl := Except.ok.inj (Option.some.inj hsem)
            exact .inl ⟨rfl, by simp, rfl⟩
          · next hfree =>
              split at hsem
              · obtain rfl := Except.ok.inj (Option.some.inj hsem)
                refine .inr ⟨rfl, rfl, by simp, fun key' hkey' => ?_⟩
                obtain rfl := Option.some.inj hkey'
                refine ⟨by simp, fun x r' hr' hcarries => hfree ?_⟩
                exact List.any_eq_true.2 ⟨r', Table.mem_of_find? hr', by simpa using hcarries⟩
              · cases hsem

end Statements

/-! ## What a submission answers -/

/-- The submission is refused when its thread has an active run. -/
def Submission.Rejecting (s : Submission) : Prop :=
  s.threadId.isSome ∧ s.multitaskStrategy = some "reject" ∧ isResume s.kwargs = false

/-- The submission answers with the run `r`, which carries its key. -/
structure Submission.Finds (s : Submission) (r : RunRow) (v : Db) : Prop where
  carries : ∃ key, s.key = some key ∧ r.idempotencyKey = some key
  target : r.threadId = s.threadId ∧ r.assistantId = s.assistantId
  issued : r.runId ∈ v.issued
  current : ∀ r', v.runs.find? r.runId = some r' → r.Ages r'

/-- The submission adds the run `r`. -/
structure Submission.Adds (s : Submission) (repo : RunRepository) (now : Time) (r : RunRow)
    (v : Db) : Prop where
  row : ∃ position, r = s.row repo now position
  fresh : v.drawn r.runId = false
  keys : ∀ key, s.idempotencyKey = some key → ∀ x r', v.runs.find? x = some r' →
    r'.idempotencyKey ≠ some key
  alone : s.Rejecting → ∀ x r', v.runs.find? x = some r' → isActive s.threadId r' = false

/-- The transaction inserts `r`, and keeps everything that `r` needs for itself locked. -/
structure RunRow.Inserted (r : RunRow) (tx : Tx Db Lock Session) : Prop where
  effect : tx.effect = fun d => d.insertRun r
  run : Lock.run r.runId ∈ tx.held
  thread : ∀ t, r.threadId = some t → Lock.thread t ∈ tx.held
  idempotency : ∀ key, r.idempotencyKey = some key → Lock.idempotency key ∈ tx.held

section Programs

variable {tx tx' : Tx Db Lock Session} {a : RunRow} {position : Nat}

theorem findKey_eq_some (h : findKey key v = some r) :
    v.runs.find? r.runId = some r ∧ r.idempotencyKey = some key :=
  ⟨Table.mem_iff_find?.1 (List.mem_of_find?_eq_some h), by simpa using List.find?_some h⟩

theorem findKey_isSome (hr : v.runs.find? x = some r) (hkey : r.idempotencyKey = some key) :
    (findKey key v).isSome := by
  rw [findKey, List.find?_isSome]
  exact ⟨r, Table.mem_of_find? hr, by simpa using hkey⟩

/-- A run found by its key, for the target of the submission. -/
theorem sameTarget_ends (h : (submissionEnv T).Ends (sameTarget s r) tx v (.ok a) tx' v') :
    tx' = tx ∧ a = r ∧ (r.threadId = s.threadId ∧ r.assistantId = s.assistantId) ∧
      v.Meets tx.held v' := by
  unfold sameTarget at h
  split at h
  · cases h.1
  · next hsame =>
      simp only [ne_eq, Bool.or_eq_true, decide_eq_true_eq, not_or, not_not] at hsame
      obtain ⟨hr, htx, hrely⟩ := h
      exact ⟨htx, Except.ok.inj hr, hsame, hrely.1⟩

theorem finds_of_findKey (hv : v.Distinct T) (hkey : s.key = some key)
    (hfind : findKey key v = some r) (hrely : v.Meets H v')
    (htarget : r.threadId = s.threadId ∧ r.assistantId = s.assistantId) : s.Finds r v' := by
  obtain ⟨hr, hcarries⟩ := findKey_eq_some hfind
  have hissued : r.runId ∈ v.issued := hv.enrolled r.runId r hr
  refine ⟨⟨key, hkey, hcarries⟩, htarget, hrely.issued hissued, fun r' hr' => ?_⟩
  obtain ⟨r₀, hr₀, hages⟩ := hrely.source hr' hissued
  obtain rfl : r = r₀ := Option.some.inj (hr.symm.trans hr₀)
  exact hages

/-- What was drawn, and no one else may draw, is still to be inserted at the commit. -/
theorem Db.Meets.drawn_eq_false (h : v.Meets H v') (hv' : v'.Distinct T)
    (hlock : Lock.run x ∈ H) (hfresh : v.drawn x = false) : v'.drawn x = false := by
  simp only [Db.drawn, Bool.or_eq_false_iff, decide_eq_false_iff_not] at hfresh ⊢
  have hissued : x ∉ v'.issued := fun hx =>
    (h.drawn x hx).elim hfresh.1 fun hfree => hfree hlock
  refine ⟨hissued, ?_⟩
  cases hx : v'.runs.find? x with
  | none => rfl
  | some r => exact absurd (hv'.enrolled x r hx) hissued

theorem insertOrExisting_ends (hv : v.Distinct T) (heffect : tx.effect = id)
    (hr : r = s.row repo now position)
    (hthread : ∀ t, s.threadId = some t → Lock.thread t ∈ tx.held)
    (h : (submissionEnv T).Ends (insertOrExisting s r) tx v (.ok a) tx' v') :
    (tx'.effect = id ∧ s.Finds a v') ∨
      (a = r ∧ r.Inserted tx' ∧ v'.drawn r.runId = false ∧
        ∀ key, s.idempotencyKey = some key → ∀ x r', v'.runs.find? x = some r' →
          r'.idempotencyKey ≠ some key) := by
  have hv' : v'.Distinct T := h.rely.2 hv
  obtain ⟨inserted, tx₁, v₁, hinsert, hrest⟩ := Env.ends_bind_ok h
  obtain ⟨u, hu, hu', hheld, hfresh, ⟨rfl, rfl, -⟩ | ⟨rfl, heffect', hrun, hkeys⟩⟩ :=
    insertRun_ends hinsert
  · -- another transaction has committed the key meanwhile
    left
    simp only [Bool.false_eq_true, if_false] at hrest
    split at hrest
    · cases hrest.1
    · next key hkey =>
        obtain ⟨existing, tx₂, v₂, hquery, hrest⟩ := Env.ends_bind_ok hrest
        obtain ⟨u₂, hu₂, rfl, rfl, hu₂'⟩ := query_ends hquery
        rw [heffect] at hrest
        split at hrest
        · cases hrest.1
        · next existing hfind =>
            obtain ⟨rfl, rfl, htarget, hmeets⟩ := sameTarget_ends hrest
            have hdistinct : u₂.Distinct T := hu₂.2 (hu'.2 (hu.2 hv))
            exact ⟨heffect, finds_of_findKey hdistinct hkey hfind (hu₂'.1.trans hmeets) htarget⟩
  · right
    simp only [if_true] at hrest
    obtain ⟨ha, rfl, hrely⟩ := hrest
    have hmeets : u.Meets tx'.held v' := hu'.1.trans hrely.1
    rw [heffect] at hfresh heffect' hkeys
    have hinserted : r.Inserted tx' := ⟨heffect', hrun,
      fun t ht => hheld (hthread t (by rw [← ht, hr]; rfl)), fun key hkey => (hkeys key hkey).1⟩
    refine ⟨Except.ok.inj ha, hinserted, hmeets.drawn_eq_false hv' hrun hfresh,
      fun key hkey x r' hr' hcarries => ?_⟩
    obtain ⟨hlock, hnone⟩ := hkeys key (by rw [hr]; exact hkey)
    -- a run with this key was there at the insert, or came while the key was locked
    rcases hmeets.runs x r' hr' with ⟨r₀, hr₀, hages⟩ | ⟨-, -, hfree⟩
    · exact hnone x r₀ hr₀ (hages.idempotencyKey.symm.trans hcarries)
    · exact hfree key hcarries hlock

/-- A submission that is not refused found its thread without an active run; the lock of
the thread keeps it so. -/
theorem rejects_ends (heffect : tx.effect = id)
    (hthread : ∀ t, s.threadId = some t → Lock.thread t ∈ tx.held)
    (h : (submissionEnv T).Ends (rejects s) tx v (.ok false) tx' v') :
    tx' = tx ∧ (s.Rejecting → ∀ w, v'.Meets tx.held w → ∀ x r', w.runs.find? x = some r' →
      isActive s.threadId r' = false) := by
  unfold rejects at h
  split at h
  · next hcond =>
      simp only [Bool.and_eq_true, decide_eq_true_eq] at hcond
      obtain ⟨t, ht⟩ := Option.isSome_iff_exists.1 hcond.1.1
      obtain ⟨u, hu, hnone, rfl, hu'⟩ := query_ends h
      refine ⟨rfl, fun _ w hw x r' hr' => ?_⟩
      -- an active run of the locked thread was active when it was looked for
      by_contra hactive
      rw [Bool.not_eq_false, ht] at hactive
      obtain ⟨r₀, hr₀, hages⟩ := (hu'.1.trans hw).active (hthread t ht) hr' hactive
      rw [heffect] at hnone
      have hany : u.runs.rows.any (isActive s.threadId) = true :=
        List.any_eq_true.2 ⟨r₀, Table.mem_of_find? hr₀, ht ▸ hages.active hactive⟩
      exact absurd (hnone.trans hany) (by simp)
  · next hcond =>
      refine ⟨h.2.1, fun hrejecting => absurd ?_ hcond⟩
      obtain ⟨hsome, hstrategy, hresume⟩ := hrejecting
      simp [hsome, hstrategy, hresume]

theorem submit_ends (hv : v.Distinct T) (heffect : tx.effect = id)
    (hthread : ∀ t, s.threadId = some t → Lock.thread t ∈ tx.held)
    (h : (submissionEnv T).Ends (submit repo now s) tx v (.ok a) tx' v') :
    (tx'.effect = id ∧ s.Finds a v') ∨ (a.Inserted tx' ∧ s.Adds repo now a v') := by
  obtain ⟨refused, tx₁, v₁, hrejects, hrest⟩ := Env.ends_bind_ok h
  cases refused with
  | true => cases hrest.1
  | false =>
      obtain ⟨rfl, halone⟩ := rejects_ends heffect hthread hrejects
      simp only [Bool.false_eq_true, if_false] at hrest
      obtain ⟨position, tx₂, v₂, hposition, hinsert⟩ := Env.ends_bind_ok hrest
      obtain ⟨u, hu, -, rfl, hu'⟩ := query_ends hposition
      have hv₂ : v₂.Distinct T := hu'.2 (hu.2 (hrejects.rely.2 hv))
      rcases insertOrExisting_ends hv₂ heffect rfl hthread hinsert with hfound | hinserted
      · exact .inl hfound
      · obtain ⟨rfl, hinserted, hfresh, hkeys⟩ := hinserted
        have hafter : v₁.Meets tx₂.held v' := hu.1.trans (hu'.1.trans (submissionEnv_meets hinsert))
        exact .inr ⟨hinserted, ⟨position, rfl⟩, hfresh, hkeys,
          fun hrejecting => halone hrejecting v' hafter⟩

/-- `create` answers with the run of its key, or inserts one. -/
theorem create_ends (hv : v.Distinct T) (heffect : tx.effect = id)
    (hstored : ∀ t, s.threadId = some t → (v.threads.find? t).isSome)
    (h : (submissionEnv T).Ends (create repo now s) tx v (.ok a) tx' v') :
    (tx'.effect = id ∧ s.Finds a v') ∨ (a.Inserted tx' ∧ s.Adds repo now a v') := by
  obtain ⟨thread, tx₁, v₁, hlock, hrest⟩ := Env.ends_bind_ok h
  have hlocked : tx₁.effect = id ∧ ∀ t, s.threadId = some t → Lock.thread t ∈ tx₁.held := by
    cases ht : s.threadId with
    | none =>
        rw [ht] at hlock
        exact ⟨hlock.2.1 ▸ heffect, nofun⟩
    | some t =>
        rw [ht] at hlock
        obtain ⟨u, hu, heffect₁, hheld, -⟩ := lockThread_ends hlock
        refine ⟨heffect₁.trans heffect, fun t' ht' => ?_⟩
        obtain rfl := Option.some.inj ht'
        rw [heffect] at hheld
        exact hheld (hu.1.threads t (hstored t ht))
  have hv₁ : v₁.Distinct T := hlock.rely.2 hv
  split at hrest
  · exact submit_ends hv₁ hlocked.1 hlocked.2 hrest
  · next key hkey =>
      obtain ⟨existing, tx₂, v₂, hquery, hrest⟩ := Env.ends_bind_ok hrest
      obtain ⟨u, hu, rfl, rfl, hu'⟩ := query_ends hquery
      rw [hlocked.1] at hrest
      split at hrest
      · next existing hfind =>
          obtain ⟨rfl, rfl, htarget, hmeets⟩ := sameTarget_ends hrest
          have hfinds := finds_of_findKey (hu.2 hv₁) hkey hfind (hu'.1.trans hmeets) htarget
          exact .inl ⟨hlocked.1, hfinds⟩
      · exact submit_ends (hu'.2 (hu.2 hv₁)) hlocked.1 hlocked.2 hrest

theorem runsCreate_ends (hv : v.Distinct T)
    (h : (submissionEnv T).Ends (runsCreate repo now s) engine.start v (.ok a) tx' v') :
    (tx'.effect = id ∧ s.Finds a v') ∨ (a.Inserted tx' ∧ s.Adds repo now a v') := by
  unfold runsCreate at h
  split at h
  · next ht => exact create_ends hv rfl (fun t ht' => by simp [ht] at ht') h
  · next t ht =>
      obtain ⟨thread, tx₁, v₁, hget, hrest⟩ := Env.ends_bind_ok h
      obtain ⟨u, hu, rfl, heffect, hheld, hu'⟩ := getThread_ends hget
      split at hrest
      · cases hrest.1
      · next thread hthread =>
          refine create_ends (hu'.2 (hu.2 hv)) heffect (fun t' ht' => ?_) hrest
          obtain rfl := Option.some.inj (ht.symm.trans ht')
          exact hu'.1.threads t (by rw [hthread]; rfl)

theorem lockThread_never_fails {e : Err}
    (h : (submissionEnv T).Ends (lockThread t) tx v (.error e) tx' v') : False := by
  obtain ⟨u, avail, -, hexec⟩ := Env.ends_perform_error h
  have hsem := Engine.exec_error hexec
  simp only [engine, Stmt.sem] at hsem
  (repeat' split at hsem) <;> simp at hsem

theorem query_never_fails {β : Type} {f : Db → β} {e : Err}
    (h : (submissionEnv T).Ends (query f) tx v (.error e) tx' v') : False := by
  obtain ⟨u, avail, -, hexec⟩ := Env.ends_perform_error h
  have hsem := Engine.exec_error hexec
  simp [engine, Stmt.sem] at hsem

theorem getThread_never_fails {e : Err}
    (h : (submissionEnv T).Ends (getThread t) tx v (.error e) tx' v') : False := by
  obtain ⟨u, avail, -, hexec⟩ := Env.ends_perform_error h
  have hsem := Engine.exec_error hexec
  simp only [engine, Stmt.sem] at hsem
  split at hsem <;> simp at hsem

def targetConflict : Err := .runConflict "Idempotency key belongs to another run target"

/-- A submission whose key is carried all the while finds the run with the key, and compares its
target. -/
theorem create_compares {out : Except Err RunRow} (hv : v.Distinct T) (heffect : tx.effect = id)
    (hkey : s.key = some key) (hr : v'.runs.find? x = some r) (hx : x ∈ v.issued)
    (hcarries : r.idempotencyKey = some key)
    (h : (submissionEnv T).Ends (create repo now s) tx v out tx' v') :
    ∃ r₀ tx₁ v₁, r₀.threadId = r.threadId ∧ r₀.assistantId = r.assistantId ∧
      (submissionEnv T).Ends (sameTarget s r₀) tx₁ v₁ out tx' v' := by
  rcases Env.ends_bind h with ⟨e', hlock, -⟩ | ⟨thread, tx₁, v₁, hlock, hrest⟩
  · cases ht : s.threadId with
    | none =>
        rw [ht] at hlock
        cases hlock.1
    | some t =>
        rw [ht] at hlock
        exact (lockThread_never_fails hlock).elim
  · have heffect₁ : tx₁.effect = id := by
      cases ht : s.threadId with
      | none =>
          rw [ht] at hlock
          exact hlock.2.1 ▸ heffect
      | some t =>
          rw [ht] at hlock
          obtain ⟨u, -, heffect₁, -⟩ := lockThread_ends hlock
          exact heffect₁.trans heffect
    simp only [hkey] at hrest
    rcases Env.ends_bind hrest with ⟨e', hquery, -⟩ | ⟨existing, tx₂, v₂, hquery, hrest⟩
    · exact (query_never_fails hquery).elim
    · obtain ⟨u, hu, rfl, rfl, hu'⟩ := query_ends hquery
      have hdistinct : u.Distinct T := hu.2 (hlock.rely.2 hv)
      have hissued : x ∈ u.issued := hu.1.issued (hlock.rely.1.issued hx)
      -- the run was there when the key was looked up
      have hmeets : u.Meets [] v' :=
        (hu'.1.mono (List.nil_subset _)).trans (hrest.rely.1.mono (List.nil_subset _))
      obtain ⟨r₀, hr₀, hages⟩ := hmeets.source hr hissued
      have hcarries₀ : r₀.idempotencyKey = some key := hages.idempotencyKey.symm.trans hcarries
      rw [heffect₁] at hrest
      split at hrest
      · next existing hfind =>
          obtain ⟨hexisting, hcarries'⟩ := findKey_eq_some hfind
          obtain rfl : x = existing.runId :=
            hdistinct.keys x existing.runId r₀ existing key hr₀ hexisting hcarries₀ hcarries'
          obtain rfl : r₀ = existing := Option.some.inj (hr₀.symm.trans hexisting)
          exact ⟨r₀, _, _, hages.threadId.symm, hages.assistantId.symm, hrest⟩
      · next hnone =>
          have hsome := findKey_isSome hr₀ hcarries₀
          change (findKey key u).isSome = true at hsome
          rw [show findKey key u = none from hnone] at hsome
          cases hsome

/-- It is refused only for its target. -/
theorem create_refuses {e : Err} (hv : v.Distinct T) (heffect : tx.effect = id)
    (hkey : s.key = some key) (hr : v'.runs.find? x = some r) (hx : x ∈ v.issued)
    (hcarries : r.idempotencyKey = some key)
    (h : (submissionEnv T).Ends (create repo now s) tx v (.error e) tx' v') :
    e = targetConflict ∧ (r.threadId ≠ s.threadId ∨ r.assistantId ≠ s.assistantId) := by
  obtain ⟨r₀, tx₁, v₁, hthread, hassistant, hsame⟩ :=
    create_compares hv heffect hkey hr hx hcarries h
  rw [← hthread, ← hassistant]
  unfold sameTarget at hsame
  split at hsame
  · next hother =>
      refine ⟨Except.error.inj hsame.1, ?_⟩
      simpa [Bool.or_eq_true] using hother
  · cases hsame.1

/-- It commits only for the target of the key. -/
theorem create_targets {a : RunRow} (hv : v.Distinct T) (heffect : tx.effect = id)
    (hkey : s.key = some key) (hr : v'.runs.find? x = some r) (hx : x ∈ v.issued)
    (hcarries : r.idempotencyKey = some key)
    (h : (submissionEnv T).Ends (create repo now s) tx v (.ok a) tx' v') :
    r.threadId = s.threadId ∧ r.assistantId = s.assistantId := by
  obtain ⟨r₀, tx₁, v₁, hthread, hassistant, hsame⟩ :=
    create_compares hv heffect hkey hr hx hcarries h
  obtain ⟨-, -, htarget, -⟩ := sameTarget_ends hsame
  rw [← hthread, ← hassistant]
  exact htarget

theorem runsCreate_targets {a : RunRow} (hv : v.Distinct T) (hkey : s.key = some key)
    (hr : v'.runs.find? x = some r) (hx : x ∈ v.issued) (hcarries : r.idempotencyKey = some key)
    (h : (submissionEnv T).Ends (runsCreate repo now s) engine.start v (.ok a) tx' v') :
    r.threadId = s.threadId ∧ r.assistantId = s.assistantId := by
  unfold runsCreate at h
  split at h
  · exact create_targets hv rfl hkey hr hx hcarries h
  · obtain ⟨thread, tx₁, v₁, hget, hrest⟩ := Env.ends_bind_ok h
    obtain ⟨u, hu, rfl, heffect, -, hu'⟩ := getThread_ends hget
    split at hrest
    · cases hrest.1
    · have hissued : x ∈ v₁.issued := hu'.1.issued (hu.1.issued hx)
      exact create_targets (hu'.2 (hu.2 hv)) heffect hkey hr hissued hcarries hrest

theorem runsCreate_refuses {e : Err} (hv : v.Distinct T) (hkey : s.key = some key)
    (hr : v'.runs.find? x = some r) (hx : x ∈ v.issued) (hcarries : r.idempotencyKey = some key)
    (h : (submissionEnv T).Ends (runsCreate repo now s) engine.start v (.error e) tx' v') :
    e = .valueError "thread not found" ∨
      e = targetConflict ∧ (r.threadId ≠ s.threadId ∨ r.assistantId ≠ s.assistantId) := by
  unfold runsCreate at h
  split at h
  · exact .inr (create_refuses hv rfl hkey hr hx hcarries h)
  · rcases Env.ends_bind h with ⟨e', hget, -⟩ | ⟨thread, tx₁, v₁, hget, hrest⟩
    · exact (getThread_never_fails hget).elim
    · obtain ⟨u, hu, rfl, heffect, -, hu'⟩ := getThread_ends hget
      split at hrest
      · exact .inl (Except.error.inj hrest.1)
      · have hissued : x ∈ v₁.issued := hu'.1.issued (hu.1.issued hx)
        exact .inr (create_refuses (hu'.2 (hu.2 hv)) heffect hkey hr hissued hcarries hrest)

end Programs

/-! ## Commits -/

section Commits

variable {tx : Tx Db Lock Session}

/-- The new run keeps the invariant, and meets no lock of another transaction. -/
theorem RunRow.Inserted.commits (h : r.Inserted tx) (hs : s.Strict T)
    (hadds : s.Adds repo now r v) (hv : v.Distinct T) :
    (v.insertRun r).Distinct T ∧
      ∀ H : List Lock, H.Disjoint tx.held → v.Meets H (v.insertRun r) := by
  obtain ⟨position, hrow⟩ := hadds.row
  have hfresh := hadds.fresh
  simp only [Db.drawn, Bool.or_eq_false_iff, decide_eq_false_iff_not] at hfresh
  have habsent : v.runs.find? (Keyed.key r) = none := by simpa using hfresh.2
  constructor
  · refine hv.insert hadds.fresh (fun key hkey => hadds.keys key (by rw [← hkey, hrow]; rfl))
      fun t ht hengages x r' hr' hengages' => ?_
    have hthread : s.threadId = some t := by
      rw [← (isActive_iff.1 hengages.1).1, hrow]
      rfl
    have hresume : isResume s.kwargs = false := by
      have hcommand := hengages.2
      rw [hrow, Submission.row, isResume, Dict.get?_without_of_ne (by decide)] at hcommand
      exact hcommand
    have halone := hadds.alone ⟨by simp [hthread], hs t hthread ht hresume, hresume⟩ x r' hr'
    rw [hthread, hengages'.1] at halone
    cases halone
  · intro H hdisjoint
    refine ⟨fun t ht => ht, List.subset_append_left _ _, fun x hx => ?_, fun x r' hr' => ?_⟩
    · refine (List.mem_append.1 hx).imp_right fun hx => ?_
      rw [List.mem_singleton.1 hx]
      exact fun hmem => hdisjoint hmem h.run
    · rw [Db.insertRun, Table.find?_insert habsent] at hr'
      split at hr'
      · next hx =>
          obtain rfl := Option.some.inj hr'
          exact .inr ⟨hx ▸ hfresh.1, fun t ht hmem => hdisjoint hmem (h.thread t ht),
            fun key hkey hmem => hdisjoint hmem (h.idempotency key hkey)⟩
      · exact .inl ⟨r', hr', .refl r'⟩

theorem Moves.aged {S : RunRow → Prop} (h : Moves now S v v') : v.Aged v' := by
  induction h with
  | refl => exact fun x r hr => ⟨r, hr, .refl r⟩
  | tail _ hmove ih =>
      intro x r'' hr''
      obtain ⟨r', hr', hrun⟩ := hmove.origin (Table.mem_of_find? hr'')
      have hid : r'.runId = x := hrun.sameAttempts.runId.symm.trans (Table.key_of_find? hr'')
      obtain ⟨r, hr, hages⟩ := ih x r' (hid ▸ Db.mem_runs.1 hr')
      exact ⟨r, hr, hages.trans ⟨hrun.sameAttempts.toSameIdentity, hrun.terminal⟩⟩

theorem Start.aged {owner : String} (h : Start repo now owner r v v') : v.Aged v' := by
  intro x r' hr'
  by_cases hx : x = r.runId
  · subst hx
    obtain rfl := Option.some.inj (h.row.symm.trans hr')
    have hpending := eligible_pending h.eligible
    refine ⟨r, h.found, ⟨⟨rfl, rfl, rfl, rfl, rfl, fun key hkey => ?_⟩, fun hover => ?_⟩⟩
    · rfl
    · rw [hpending] at hover
      cases hover
  · exact ⟨r', h.others x hx ▸ hr', .refl r'⟩

/-- Requests other than submissions add no run. -/
theorem Request.aged {q : Request} {a : Reply} {avail : Lock → Bool}
    (hq : ∀ repo s, q ≠ .runsCreate repo s) (h : (q.program now).Returns avail v a v') :
    v.Aged v' ∧ v'.issued = v.issued := by
  cases q.effect h with
  | moves hmoves => exact ⟨hmoves.aged, hmoves.issued⟩
  | submit heq => exact absurd heq (hq _ _)
  | claim _ hstart hmoves =>
      refine ⟨fun x r'' hr'' => ?_, hmoves.issued.trans hstart.issued⟩
      obtain ⟨r', hr', hages'⟩ := hmoves.aged x r'' hr''
      obtain ⟨r, hr, hages⟩ := hstart.aged x r' hr'
      exact ⟨r, hr, hages.trans hages'⟩

theorem Db.Write.threads_kept {K : Kind → Prop} (hK : ¬K .dropThread) (hw : v.Write K v')
    (t : ThreadId) (ht : (v.threads.find? t).isSome) : (v'.threads.find? t).isSome := by
  cases hw with
  | thread y f hf => exact (Table.isSome_find?_modify hf).symm ▸ ht
  | openThread new _ fresh =>
      rw [Table.find?_insert (show v.threads.find? (Keyed.key new) = none from fresh)]
      split
      · rfl
      · exact ht
  | dropThread _ kind => exact absurd kind hK
  | tables _ _ _ threads => exact threads ▸ ht
  | _ => exact ht

theorem Request.threads_kept {q : Request} {a : Reply} {avail : Lock → Bool}
    (hq : Kind.dropThread ∉ q.kinds) (h : (q.program now).Returns avail v a v') (t : ThreadId)
    (ht : (v.threads.find? t).isSome) : (v'.threads.find? t).isSome :=
  (q.within now).related
    (R := fun v v' => ∀ t, (v.threads.find? t).isSome → (v'.threads.find? t).isSome)
    (fun _ _ ht => ht) (fun _ _ _ h h' t ht => h' t (h t ht))
    (fun _ _ hw => hw.threads_kept hq) h t ht

end Commits

/-! ## All interleavings -/

theorem replying_ends {α : Type} {p : Txn α} {f : α → Reply} {a : Reply}
    {tx tx' : Tx Db Lock Session}
    (h : (submissionEnv T).Ends (replying p f) tx v (.ok a) tx' v') :
    ∃ x, a = f x ∧ (submissionEnv T).Ends p tx v (.ok x) tx' v' := by
  obtain ⟨x, tx₁, v₁, hp, ha, rfl, hrely⟩ := Env.ends_bind_ok h
  exact ⟨x, Except.ok.inj ha, hp.wait hrely⟩

theorem replying_fails {α : Type} {p : Txn α} {f : α → Reply} {e : Err}
    {tx tx' : Tx Db Lock Session}
    (h : (submissionEnv T).Ends (replying p f) tx v (.error e) tx' v') :
    (submissionEnv T).Ends p tx v (.error e) tx' v' := by
  rcases Env.ends_bind h with ⟨e', hp, he⟩ | ⟨x, tx₁, v₁, -, he, -⟩
  · cases he
    exact hp
  · cases he

/-- Submissions and whole requests keep the invariant, and respect each other's locks. -/
def submissionDiscipline (T : ThreadId → Prop) :
    Discipline engine Timed.program (submissions T) where
  env := submissionEnv T
  inv := Db.Distinct T
  inv_rely h hv := h.2 hv
  commits {q a tx b v} hq hb h := by
    obtain ⟨repo, s, hrequest, hs⟩ := hq
    have hv : v.Distinct T := h.rely.2 hb
    rw [Timed.program, hrequest] at h
    obtain ⟨r, -, hcreate⟩ := replying_ends h
    rcases runsCreate_ends hb hcreate with ⟨heffect, -⟩ | ⟨hinserted, hadds⟩
    · rw [heffect]
      exact ⟨hv, fun H _ => ⟨.refl H v, id⟩⟩
    · obtain ⟨hdistinct, hmeets⟩ := hinserted.commits hs hadds hv
      rw [hinserted.effect]
      exact ⟨hdistinct, fun H hdisjoint => ⟨hmeets H hdisjoint, fun _ => hdistinct⟩⟩
  wholes {q a tx avail v} hq hv h := by
    have hrun : q.request.run avail q.now v = some (.ok a, tx.effect v) := Engine.run_of_ends h
    rcases Request.run_cases hrun with ⟨a', -, hret⟩ | ⟨⟨e, he⟩, -⟩
    · obtain ⟨haged, hissued⟩ := Request.aged hq.1 hret
      have hdistinct := hv.of_aged haged (hissued ▸ List.Subset.refl _)
      exact ⟨hdistinct, fun H _ => ⟨haged.meets hissued (Request.threads_kept hq.2 hret),
        fun _ => hdistinct⟩⟩
    · cases he

/-- What submissions may count on in every state of every interleaving. -/
structure SubmissionLaw (T : ThreadId → Prop) (c : Transactions) : Prop where
  /-- No two runs carry one key. -/
  keys : ∀ r ∈ c.db.runs, ∀ r' ∈ c.db.runs, ∀ key,
    r.idempotencyKey = some key → r'.idempotencyKey = some key → r = r'
  /-- A thread of `T` has one active run at most that answers no interrupt. -/
  engaged : ∀ t, T t → ∀ r ∈ c.db.runs, ∀ r' ∈ c.db.runs, r.Engages t → r'.Engages t → r = r'
  /-- A submission that commits answers with the run of its key and changes nothing, or adds
  the run it answers with. -/
  answers : ∀ now repo s a began before after c',
    (submitting T).step c (.committed ⟨now, .runsCreate repo s⟩ a began before after) c' →
      ∃ r, a = .run (some r) ∧
        (c'.db = c.db ∧ s.Finds r c.db ∧
            (∀ r' ∈ c.db.runs, ∀ key, s.key = some key → r'.idempotencyKey = some key →
              r.Ages r' ∨ c.db.runs.find? r.runId = none) ∨
          c'.db = c.db.insertRun r ∧ s.Adds repo now r c.db)
  /-- While a run carries its key, a submission for another target does not commit. -/
  targets : ∀ now repo s a began before after c',
    (submitting T).step c (.committed ⟨now, .runsCreate repo s⟩ a began before after) c' →
      ∀ r ∈ c.db.runs, r.runId ∈ began.issued → ∀ key, s.key = some key →
        r.idempotencyKey = some key → r.threadId = s.threadId ∧ r.assistantId = s.assistantId
  /-- While a run carries its key, a submission fails because its thread is not found, or because
  its target is another. -/
  refuses : ∀ now repo s e began before c',
    (submitting T).step c (.failed ⟨now, .runsCreate repo s⟩ e began before) c' →
      ∀ r ∈ c.db.runs, r.runId ∈ began.issued → ∀ key, s.key = some key →
        r.idempotencyKey = some key → e = .valueError "thread not found" ∨
          e = targetConflict ∧ (r.threadId ≠ s.threadId ∨ r.assistantId ≠ s.assistantId)

theorem Db.Distinct.eq_of_key (hv : v.Distinct T) (hr : r ∈ v.runs) (hr' : r' ∈ v.runs)
    (hkey : r.idempotencyKey = some key) (hkey' : r'.idempotencyKey = some key) : r = r' := by
  have hid : r.runId = r'.runId :=
    hv.keys r.runId r'.runId r r' key (Db.mem_runs.1 hr) (Db.mem_runs.1 hr') hkey hkey'
  exact Table.eq_of_mem_of_key_eq hr hr' hid

/-- The run found is still the one that carries the key, unless it was deleted. -/
theorem Submission.Finds.only (h : s.Finds r v) (hv : v.Distinct T) (hr' : r' ∈ v.runs)
    (hkey : s.key = some key) (hcarries : r'.idempotencyKey = some key) :
    r.Ages r' ∨ v.runs.find? r.runId = none := by
  cases hfind : v.runs.find? r.runId with
  | none => exact .inr rfl
  | some r'' =>
      have hages : r.Ages r'' := h.current r'' hfind
      obtain ⟨key', hkey', hcarries'⟩ := h.carries
      obtain rfl := Option.some.inj (hkey.symm.trans hkey')
      have heq : r'' = r' := hv.eq_of_key (Table.mem_of_find? hfind) hr'
        (hages.idempotencyKey.trans hcarries') hcarries
      exact .inl (heq ▸ hages)

theorem submitting_safe : (submitting T).Inductive (submissionDiscipline T).Safe := by
  refine (submissionDiscipline T).inductive_of_admits (fun c ev => ?_) fun v hv => .of_fresh hv
  cases ev <;> simp [Engine.Admitted, submissionDiscipline, submissionEnv]

/-- However submissions are interleaved, statement by statement, no key is given twice, and
no thread that rejects submissions is engaged twice. -/
theorem submissions_exclusive (T : ThreadId → Prop) :
    (submitting T).Invariant (SubmissionLaw T) := by
  intro c hc
  have hsafe := submitting_safe.invariant c hc
  have hv : c.db.Distinct T := hsafe.inv
  refine ⟨fun r hr r' hr' key hk hk' => hv.eq_of_key hr hr' hk hk',
    fun t ht r hr r' hr' he he' => ?_,
    fun now repo s a began before after c' hstep => ?_,
    fun now repo s a began before after c' hstep r hr hissued key hkey hcarries => ?_,
    fun now repo s e began before c' hstep r hr hissued key hkey hcarries => ?_⟩
  · have hid : r.runId = r'.runId :=
      hv.engaged t ht r.runId r'.runId r r' (Db.mem_runs.1 hr) (Db.mem_runs.1 hr') he he'
    exact Table.eq_of_mem_of_key_eq hr hr' hid
  · obtain ⟨m, hm, hstep⟩ := hstep
    obtain ⟨rfl, rfl⟩ := Engine.step_committed hstep
    have hexplained := (hsafe.step hm hstep (by simp [Engine.Admitted])).2
    obtain ⟨hbegan, -, ⟨-, tx, hends, hafter⟩ | ⟨hwhole, -⟩⟩ := hexplained
    · obtain ⟨r, ha, hcreate⟩ := replying_ends hends
      refine ⟨r, ha, ?_⟩
      rcases runsCreate_ends hbegan hcreate with ⟨heffect, hfinds⟩ | ⟨hinserted, hadds⟩
      · rw [heffect] at hafter
        exact .inl ⟨hafter, hfinds, fun r' hr' key hkey hk => hfinds.only hv hr' hkey hk⟩
      · rw [hinserted.effect] at hafter
        exact .inr ⟨hafter, hadds⟩
    · exact absurd rfl (hwhole.1 repo s)
  · obtain ⟨m, hm, hstep⟩ := hstep
    obtain ⟨rfl, rfl⟩ := Engine.step_committed hstep
    have hexplained := (hsafe.step hm hstep (by simp [Engine.Admitted])).2
    obtain ⟨hbegan, -, ⟨-, tx, hends, -⟩ | ⟨hwhole, -⟩⟩ := hexplained
    · obtain ⟨a, -, hcreate⟩ := replying_ends hends
      exact runsCreate_targets hbegan hkey (Db.mem_runs.1 hr) hissued hcarries hcreate
    · exact absurd rfl (hwhole.1 repo s)
  · obtain ⟨m, hm, hstep⟩ := hstep
    obtain ⟨rfl, -⟩ := Engine.step_failed hstep
    have hexplained := (hsafe.step hm hstep (by simp [Engine.Admitted])).2
    obtain ⟨hbegan, -, ⟨-, tx, hends⟩ | ⟨hwhole, -⟩⟩ := hexplained
    · exact runsCreate_refuses hbegan hkey (Db.mem_runs.1 hr) hissued hcarries
        (replying_fails hends)
    · exact absurd rfl (hwhole.1 repo s)

def racing (id : RunId) : Timed where
  now := 0
  request := .runsCreate .default
    { runId := id, assistantId := 1, threadId := none, kwargs := [], metadata := []
      idempotencyKey := some "key", multitaskStrategy := none }

-- both submissions look up the key before the first commits, and the second finds its run
example :
    (TSys.play (fun c m => (engine.step Timed.program c m).map Prod.snd) ⟨twoThreads, []⟩
      [.start 0 (racing 10), .start 1 (racing 11), .exec 0, .exec 0, .exec 1, .exec 1, .exec 0,
        .finish 0, .exec 1, .exec 1, .finish 1]).map
      (fun c : Transactions => (c.db.runs.rows.map (·.runId), c.live.length)) = some ([10], 0) := by
  decide

end GraphHarbor
