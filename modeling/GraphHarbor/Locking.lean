import GraphHarbor.Retention

/-!
# What the row locks protect

A transaction writes to a row of `runs` or `threads`, and to the events of a run, only while
it holds the lock of the row or the run. So whatever other transactions commit, a transaction
finds the rows it has locked as it left them.
-/

namespace GraphHarbor

open Kit Txn

variable {K : Kind → Prop} {H : List Lock} {now : Time} {avail : Lock → Bool}
  {session : Session} {v v' w : Db} {id x : RunId} {t : ThreadId} {α β : Type}

/-! ## Protected rows -/

/-- `v'` agrees with `v` on what the locks `H` protect, and on the assistants. -/
structure Db.Respects (H : List Lock) (v v' : Db) : Prop where
  runs : ∀ x, .run x ∈ H → v'.runs.find? x = v.runs.find? x
  threads : ∀ t, .thread t ∈ H → v'.threads.find? t = v.threads.find? t
  /-- Only old events of a locked run may go. -/
  events : ∀ e ∈ v'.events, ∀ x, e.runId = some x → .run x ∈ H → e ∈ v.events
  terminal : ∀ x, .run x ∈ H → v'.terminalEvent x = v.terminalEvent x
  assistants : v'.assistants = v.assistants

namespace Db.Respects

/-- Nothing was written. -/
theorem refl (H : List Lock) (v : Db) : v.Respects H v :=
  ⟨fun _ _ => rfl, fun _ _ => rfl, fun _ he _ _ _ => he, fun _ _ => rfl, rfl⟩

/-- Two commits of other transactions, one after the other. -/
theorem trans (h : v.Respects H v') (h' : v'.Respects H w) : v.Respects H w where
  runs x hx := (h'.runs x hx).trans (h.runs x hx)
  threads t ht := (h'.threads t ht).trans (h.threads t ht)
  events e he x hid hx := h.events e (h'.events e he x hid hx) x hid hx
  terminal x hx := (h'.terminal x hx).trans (h.terminal x hx)
  assistants := h'.assistants.trans h.assistants

/-- Fewer locks protect less. -/
theorem mono {H' : List Lock} (hsub : H ⊆ H') (h : v.Respects H' v') : v.Respects H v' where
  runs x hx := h.runs x (hsub hx)
  threads t ht := h.threads t (hsub ht)
  events e he x hid hx := h.events e he x hid (hsub hx)
  terminal x hx := h.terminal x (hsub hx)
  assistants := h.assistants

/-! ### Single writes -/

/-- An UPDATE of a run that is not locked. -/
theorem updateRun {f : RunRow → RunRow} {hf} (hid : .run id ∉ H) :
    v.Respects H (v.updateRun id f hf) where
  runs x hx := by
    rw [Db.updateRun, Table.find?_modify hf, if_neg]
    rintro rfl
    exact hid hx
  threads _ _ := rfl
  events _ he _ _ _ := he
  terminal _ _ := rfl
  assistants := rfl

/-- An UPDATE of a thread that is not locked. -/
theorem updateThread {f : ThreadRow → ThreadRow} {hf} (ht : .thread t ∉ H) :
    v.Respects H (v.updateThread t f hf) where
  runs _ _ := rfl
  threads y hy := by
    rw [Db.updateThread, Table.find?_modify hf, if_neg]
    rintro rfl
    exact ht hy
  events _ he _ _ _ := he
  terminal _ _ := rfl
  assistants := rfl

/-- A new run, whose id nobody has locked. -/
theorem insertRun {r : RunRow} (hid : .run r.runId ∉ H) : v.Respects H (v.insertRun r) where
  runs x hx := by
    refine Table.find?_insert_of_ne fun heq => hid ?_
    rwa [show r.runId = x from heq.symm]
  threads _ _ := rfl
  events _ he _ _ _ := he
  terminal _ _ := rfl
  assistants := rfl

/-- A new thread, whose id nobody has locked. -/
theorem insertThread {th : ThreadRow} (ht : .thread th.threadId ∉ H) :
    v.Respects H { v with threads := v.threads.insert th } where
  runs _ _ := rfl
  threads y hy := by
    refine Table.find?_insert_of_ne fun heq => ht ?_
    rwa [show th.threadId = y from heq.symm]
  events _ he _ _ _ := he
  terminal _ _ := rfl
  assistants := rfl

/-- A new event of a run that is not locked. -/
theorem insertEvent {e : RuntimeEventRow} (he : ∀ x, e.runId = some x → .run x ∉ H) :
    v.Respects H (v.insertEvent e) where
  runs _ _ := rfl
  threads _ _ := rfl
  events e' he' x hid hx := by
    refine (List.mem_append.1 he').resolve_right fun hnew => ?_
    obtain rfl := List.mem_singleton.1 hnew
    exact he x hid hx
  terminal x hx := by
    have hother : (inRun x e && e.terminal) = false := by
      rw [Bool.and_eq_false_iff, inRun, decide_eq_false_iff_not]
      exact .inl fun hid => he x hid hx
    simp [Db.terminalEvent, Db.insertEvent, List.find?_append, hother]
  assistants := rfl

/-- Events that no locked run has, and events that are not terminal, may be deleted. -/
theorem filterEvents {q : RuntimeEventRow → Bool}
    (hq : ∀ e x, e.runId = some x → .run x ∈ H → e.terminal = true → q e = true) :
    v.Respects H { v with events := v.events.filter q } where
  runs _ _ := rfl
  threads _ _ := rfl
  events _ he _ _ _ := (List.mem_filter.1 he).1
  terminal x hx := by
    rw [Db.terminalEvent, Db.terminalEvent, List.find?_filter]
    refine congrArg (v.events.find? ·) (funext fun e => ?_)
    cases hp : (inRun x e && e.terminal) with
    | false => simp
    | true =>
        simp only [inRun, Bool.and_eq_true, decide_eq_true_eq] at hp
        simp [hq e x hp.1 hx hp.2]
  assistants := rfl

/-- A deletion with its events. -/
theorem deleteRun (hid : .run id ∉ H) : v.Respects H (v.deleteRun id) where
  runs x hx := by
    rw [Db.deleteRun, Table.find?_erase, if_neg]
    rintro rfl
    exact hid hx
  threads _ _ := rfl
  events _ he _ _ _ := (List.mem_filter.1 he).1
  terminal x hx := by
    refine (filterEvents (H := H) (v := v) (q := fun e => e.runId ≠ some id) ?_).terminal x hx
    intro e y hy hlock _
    rw [hy, decide_eq_true_eq, ne_eq, Option.some.injEq]
    rintro rfl
    exact hid hlock
  assistants := rfl

/-- Writes to the other tables. -/
theorem tables (hruns : v'.runs = v.runs) (hthreads : v'.threads = v.threads)
    (hevents : v'.events = v.events) (hassistants : v'.assistants = v.assistants) :
    v.Respects H v' where
  runs _ _ := by rw [hruns]
  threads _ _ := by rw [hthreads]
  events _ he _ _ _ := hevents ▸ he
  terminal _ _ := by rw [Db.terminalEvent, Db.terminalEvent, hevents]
  assistants := hassistants

end Db.Respects

/-! ## Statements -/

/-- Statements whose own locks protect what they write. -/
def Stmt.Guarded : (β : Type) → Stmt β → Prop
  | _, .insertEvent _ => False
  | _, .deleteThread _ => False
  | _, .update _ g _ => ∀ v : Db, (g v).events = v.events ∧ (g v).assistants = v.assistants
  | _, _ => True

/-- Recorders apart, every statement of these kinds locks what it writes. -/
theorem Stmt.Within.guarded {s : Stmt β} (hs : s.Within (Silent K)) (hprune : ¬K .prune)
    (hthread : ¬K .dropThread) : s.Guarded := by
  cases s with
  | insertEvent => exact hs.2 rfl
  | deleteThread => exact hthread hs.1
  | update f g hg =>
      exact fun v => ⟨(hs v).events.resolve_right fun h => hprune h.1.1, (hs v).assistants⟩
  | _ => exact trivial

/-- The loaded copies are filed under their keys. -/
def Session.Filed (s : Session) : Prop := ∀ x r, s.run x = some r → r.runId = x

theorem Session.Filed.setRun (h : session.Filed) {r : Option RunRow}
    (hr : ∀ c, r = some c → c.runId = id) : (session.setRun id r).Filed := by
  intro x c hc
  rw [Session.setRun_run] at hc
  split at hc
  · next hx => exact hx ▸ hr c hc
  · exact h x c hc

/-- What a query loads under an id has the id. -/
theorem Session.Filed.loadRun (h : session.Filed) {populate : Bool} {r : RunRow} :
    (session.loadRun populate r).runId = r.runId := by
  unfold Session.loadRun
  split
  · rfl
  · cases hc : session.run r.runId with
    | none => rfl
    | some c => exact h r.runId c hc

variable {s : Stmt β} {o : Kit.Outcome β Db Lock Session}

/-- Copies stay filed under their keys. -/
theorem Stmt.sem_filed (hfiled : session.Filed) (h : s.sem avail session v = some (.ok o)) :
    o.session.Filed := by
  cases s with
  | lockRun id =>
      simp only [sem] at h
      split at h
      · obtain rfl := Except.ok.inj (Option.some.inj h)
        exact hfiled
      · next stored hstored =>
          have hid : stored.runId = id :=
            Table.key_of_find? (Option.filter_eq_some_iff.1 hstored).1
          split at h
          · obtain rfl := Except.ok.inj (Option.some.inj h)
            refine hfiled.setRun fun c hc => ?_
            rw [← Option.some.inj hc, hfiled.loadRun, hid]
          · split at h
            · obtain rfl := Except.ok.inj (Option.some.inj h)
              exact hfiled
            · cases h
  | getRun id =>
      simp only [sem] at h
      split at h
      · obtain rfl := Except.ok.inj (Option.some.inj h)
        exact hfiled
      · obtain rfl := Except.ok.inj (Option.some.inj h)
        exact hfiled.setRun fun c hc => Table.key_of_find? hc
  | pickRun p key =>
      simp only [sem] at h
      split at h
      · obtain rfl := Except.ok.inj (Option.some.inj h)
        exact hfiled
      · obtain rfl := Except.ok.inj (Option.some.inj h)
        exact hfiled.setRun fun c hc => by rw [← Option.some.inj hc, hfiled.loadRun]
  | lockRuns p le =>
      simp only [sem] at h
      obtain rfl := Except.ok.inj (Option.some.inj h)
      intro x c hc
      simp only [Session.setRuns] at hc
      split at hc
      · exact hfiled x c hc
      · next r hr =>
          rw [← Option.some.inj hc, hfiled.loadRun]
          simpa using List.find?_some hr
  | assignRun id f =>
      simp only [sem] at h
      split at h
      · obtain rfl := Except.ok.inj (Option.some.inj h)
        exact hfiled
      · next old hold =>
          -- the changed row is the copy of the session, or is loaded now
          have hid : old.runId = id := by
            rcases Option.or_eq_some_iff.1 hold with hold | ⟨-, hold⟩
            · exact hfiled id old hold
            · exact Table.key_of_find? hold
          (repeat' split at h) <;> simp only [Option.some.injEq, Except.ok.injEq, reduceCtorEq] at h
          · exact h ▸ hfiled
          · rw [← h]
            refine hfiled.setRun fun c hc => ?_
            rw [← Option.some.inj hc]
            exact hid
  | insertRun new =>
      simp only [sem] at h
      (repeat' split at h) <;> simp only [Option.some.injEq, Except.ok.injEq, reduceCtorEq] at h <;>
        rw [← h]
      · exact hfiled.setRun fun c hc => by rw [← Option.some.inj hc]
      · exact hfiled
      · exact hfiled.setRun fun c hc => by rw [← Option.some.inj hc]
  | deleteRun id =>
      simp only [sem] at h
      (repeat' split at h) <;> simp only [Option.some.injEq, Except.ok.injEq, reduceCtorEq] at h <;>
        rw [← h]
      · exact hfiled.setRun fun c hc => by cases hc
      · exact hfiled.setRun fun c hc => by cases hc
  | updateRun id f hf =>
      simp only [sem] at h
      (repeat' split at h) <;> simp only [Option.some.injEq, Except.ok.injEq, reduceCtorEq] at h <;>
        rw [← h]
      · exact hfiled
      · refine hfiled.setRun fun c hc => ?_
        obtain ⟨c₀, hc₀, rfl⟩ := Option.map_eq_some_iff.1 hc
        rw [hf, hfiled id c₀ hc₀]
  | _ =>
      simp only [sem] at h
      (repeat' split at h) <;> simp only [Option.some.injEq, Except.ok.injEq, reduceCtorEq] at h <;>
        rw [← h] <;> exact hfiled

/-- A guarded statement writes to nothing that is locked by others. -/
theorem Stmt.Guarded.respects (hs : s.Guarded) (h : s.sem avail session v = some (.ok o))
    (hH : H.Disjoint o.locks) (d : Db) : d.Respects H (o.effect d) := by
  have hfree {l : Lock} (hl : l ∈ o.locks) : l ∉ H := fun hmem => hH hmem hl
  cases s with
  | insertEvent => exact hs.elim
  | deleteThread => exact hs.elim
  | update f g hg =>
      simp only [sem] at h
      obtain rfl := Except.ok.inj (Option.some.inj h)
      exact .tables (hg d).1 (hg d).2 (hs d).1 (hs d).2
  | assignRun =>
      simp only [sem] at h
      (repeat' split at h) <;> simp only [Option.some.injEq, Except.ok.injEq, reduceCtorEq] at h <;>
        subst h
      · exact .refl H d
      · exact .refl H d
      · exact .updateRun (hfree (by simp))
  | updateRun =>
      simp only [sem] at h
      (repeat' split at h) <;> simp only [Option.some.injEq, Except.ok.injEq, reduceCtorEq] at h <;>
        subst h
      · exact .refl H d
      · exact .updateRun (hfree (by simp))
  | assignThread =>
      simp only [sem] at h
      (repeat' split at h) <;> simp only [Option.some.injEq, Except.ok.injEq, reduceCtorEq] at h <;>
        subst h
      · exact .refl H d
      · exact .refl H d
      · exact .updateThread (hfree (by simp))
  | updateThread =>
      simp only [sem] at h
      (repeat' split at h) <;> simp only [Option.some.injEq, Except.ok.injEq, reduceCtorEq] at h <;>
        subst h
      · exact .refl H d
      · exact .updateThread (hfree (by simp))
  | insertRun new =>
      simp only [sem] at h
      (repeat' split at h) <;> simp only [Option.some.injEq, Except.ok.injEq, reduceCtorEq] at h <;>
        subst h
      · exact .insertRun (hfree (by simp))
      · exact .refl H d
      · exact .insertRun (hfree (by simp))
  | insertThread new =>
      simp only [sem] at h
      (repeat' split at h) <;> simp only [Option.some.injEq, Except.ok.injEq, reduceCtorEq] at h <;>
        subst h
      · exact .refl H d
      · exact .insertThread (hfree (by simp))
  | deleteRun id =>
      simp only [sem] at h
      (repeat' split at h) <;> simp only [Option.some.injEq, Except.ok.injEq, reduceCtorEq] at h <;>
        subst h
      · exact .refl H d
      · exact .deleteRun (hfree (by simp))
  | _ =>
      simp only [sem] at h
      (repeat' split at h) <;> simp only [Option.some.injEq, Except.ok.injEq, reduceCtorEq] at h <;>
        subst h <;> exact .refl H d

/-! ## Transactions -/

/-- The transaction writes only to what its locks protect. -/
structure Confined (tx : Tx Db Lock Session) : Prop where
  filed : tx.session.Filed
  respects : ∀ H, H.Disjoint tx.held → ∀ v : Db, v.Respects H (tx.effect v)

/-- Every statement of the program is guarded. -/
def Txn.Guarded (p : Txn α) : Prop := Prog.All Stmt.Guarded p

/-- The same for a program. -/
theorem Txn.Within.guarded {p : Txn α} (hp : p.Within (Silent K)) (hprune : ¬K .prune)
    (hthread : ¬K .dropThread) : p.Guarded :=
  Prog.All.mono hp fun _ _ hs => hs.guarded hprune hthread

/-- A program that writes none of the kinds. -/
theorem Txn.Within.guarded_of_none {p : Txn α} (hp : p.Within fun _ => False) : p.Guarded :=
  (hp.mono fun _ hk => hk.elim : p.Within (Silent fun _ => False)).guarded id id

section Transactions

variable {Γ : Env engine} {tx tx' : Tx Db Lock Session} {r : RunRow} {e : RuntimeEventRow}
  {topic : String} {payload : Dict} {ns : List String} {terminal : Bool} {th : Option ThreadId}
  {a : α}

/-- A transaction that has just begun has written nothing. -/
theorem Confined.start : Confined (engine.start : Tx Db Lock Session) where
  filed x r hr := by cases (show none = some r from hr)
  respects H _ v := .refl H v

/-- The statement writes to what the locks protect that are held after it. -/
theorem Confined.exec {b : β} (h : Confined tx)
    (hexec : engine.exec s avail tx v = some (.ok (b, tx')))
    (heffect : ∀ o, s.sem avail tx.session (tx.effect v) = some (.ok o) →
      ∀ H, H.Disjoint (tx.held ++ o.locks) → ∀ d : Db, d.Respects H (o.effect d)) :
    Confined tx' := by
  obtain ⟨o, hsem, -, rfl⟩ := Engine.exec_ok hexec
  refine ⟨Stmt.sem_filed h.filed hsem, fun H hH d => ?_⟩
  have htx : d.Respects H (tx.effect d) :=
    h.respects H (fun l hl hl' => hH hl (List.mem_append_left _ hl')) d
  exact htx.trans (heffect o hsem H hH (tx.effect d))

/-- The run lemma: such a program writes only what it has locked. -/
theorem Txn.Guarded.confined {p : Txn α} (hp : p.Guarded) (h : Γ.Ends p tx v (.ok a) tx' v')
    (htx : Confined tx) : Confined tx' := by
  induction p generalizing tx v with
  | ret b => exact h.2.1 ▸ htx
  | throw e => cases h.1
  | stmt s k ih =>
      obtain ⟨u, avail, -, ⟨e, -, herror, -⟩ | ⟨b, tx₁, -, hexec, hk⟩⟩ := h
      · cases herror
      · refine ih b (hp.2 b) hk (htx.exec hexec fun o hsem H hH d => ?_)
        have hlocks : H.Disjoint o.locks := fun l hl hl' => hH hl (List.mem_append_right _ hl')
        exact Stmt.Guarded.respects hp.1 hsem hlocks d

/-- A run that was locked and found. -/
theorem lockRun_held (h : Γ.Ends (lockRun id) tx v (.ok (some r)) tx' v') (htx : Confined tx) :
    .run id ∈ tx'.held ∧ r.runId = id ∧ Confined tx' := by
  have hguarded : (lockRun id).Guarded := .perform trivial
  refine and_assoc.1 ⟨?_, hguarded.confined h htx⟩
  obtain ⟨u, avail, -, -, hexec, -⟩ := Env.ends_perform h
  obtain ⟨o, hsem, hr, rfl⟩ := Engine.exec_ok hexec
  simp only [engine, Stmt.sem] at hsem
  split at hsem
  · obtain rfl := Except.ok.inj (Option.some.inj hsem)
    cases hr
  · next stored hstored =>
      split at hsem
      · obtain rfl := Except.ok.inj (Option.some.inj hsem)
        obtain rfl := Option.some.inj hr
        have hid : stored.runId = id :=
          Table.key_of_find? (Option.filter_eq_some_iff.1 hstored).1
        exact ⟨by simp, by rw [htx.filed.loadRun, hid]⟩
      · simp at hsem

/-- A thread that was found is locked from then on. -/
theorem lockThread_held {thread : ThreadRow}
    (h : Γ.Ends (lockThread t) tx v (.ok (some thread)) tx' v') : .thread t ∈ tx'.held := by
  obtain ⟨u, avail, -, -, hexec, -⟩ := Env.ends_perform h
  obtain ⟨o, hsem, hthread, rfl⟩ := Engine.exec_ok hexec
  simp only [engine, Stmt.sem] at hsem
  split at hsem
  · obtain rfl := Except.ok.inj (Option.some.inj hsem)
    cases hthread
  · split at hsem
    · obtain rfl := Except.ok.inj (Option.some.inj hsem)
      simp
    · simp at hsem

/-- The thread of the run is locked when its last number is read. -/
theorem lastSequence_held {run : RunRow} {n : Nat}
    (h : Γ.Ends (lastSequence run) tx v (.ok n) tx' v') (t : ThreadId)
    (ht : run.threadId = some t) : .thread t ∈ tx'.held := by
  unfold lastSequence at h
  rw [ht] at h
  obtain ⟨thread, tx₁, v₁, hlock, hrest⟩ := Env.ends_bind_ok h
  split at hrest
  · cases hrest.1
  · obtain ⟨m, tx₂, v₂, hquery, hrest⟩ := Env.ends_bind_ok hrest
    exact hrest.2.1 ▸ hquery.held (lockThread_held hlock)

/-- A new event of a run whose lock is held. -/
theorem insertEvent_confined {u : Unit} (hlock : ∀ x, e.runId = some x → .run x ∈ tx.held)
    (h : Γ.Ends (insertEvent e) tx v (.ok u) tx' v') (htx : Confined tx) : Confined tx' := by
  obtain ⟨w, avail, -, -, hexec, -⟩ := Env.ends_perform h
  refine htx.exec hexec fun o hsem H hH d => ?_
  simp only [Stmt.sem] at hsem
  split at hsem
  · cases hsem
  · obtain rfl := Except.ok.inj (Option.some.inj hsem)
    exact .insertEvent fun x hx hmem => hH hmem (List.mem_append_left _ (hlock x hx))

/-- The rows of a batch belong to a run that is locked. -/
theorem insertEvents_confined {es : List RuntimeEventRow} {u : Unit}
    (hlock : ∀ e ∈ es, ∀ x, e.runId = some x → .run x ∈ tx.held)
    (h : Γ.Ends (insertEvents es) tx v (.ok u) tx' v') (htx : Confined tx) : Confined tx' := by
  induction es generalizing tx v with
  | nil => exact h.2.1 ▸ htx
  | cons e es ih =>
      obtain ⟨_, tx₁, v₁, hinsert, hrest⟩ := Env.ends_bind_ok h
      have htx₁ := insertEvent_confined (hlock e List.mem_cons_self) hinsert htx
      exact ih (fun e' he' x hx => hinsert.held (hlock e' (List.mem_cons_of_mem e he') x hx))
        hrest htx₁

/-! ### The recorders -/

/-- Drawing a number locks the thread it writes. -/
theorem nextThreadSequence_guarded : (nextThreadSequence t).Guarded := by
  refine Prog.All.bind (Prog.All.perform trivial) fun thread => ?_
  split
  · exact .throw
  · exact Prog.All.bind (Prog.All.perform trivial) fun _ =>
      Prog.All.bind (Prog.All.perform trivial) fun _ => .ret

theorem nextSequence_guarded {run : RunRow} : (nextSequence run).Guarded := by
  unfold nextSequence
  split
  · exact nextThreadSequence_guarded
  · exact Prog.All.bind (Prog.All.perform trivial) fun _ => .ret

/-- `record_event` locks the run before it inserts the event, which is what an insert alone would
not do. -/
theorem recordRunEvent_confined
    (h : Γ.Ends (recordRunEvent now id th topic payload ns terminal) tx v (.ok e) tx' v')
    (htx : Confined tx) : Confined tx' := by
  obtain ⟨run, tx₁, v₁, hlock, hrest⟩ := Env.ends_bind_ok h
  split at hrest
  · cases hrest.1
  · next run =>
      obtain ⟨hheld, rfl, htx₁⟩ := lockRun_held hlock htx
      split at hrest
      · cases hrest.1
      · obtain ⟨p, tx₂, v₂, hname, hrest⟩ := Env.ends_bind_ok hrest
        obtain ⟨ex, tx₃, v₃, hex, hrest⟩ := Env.ends_bind_ok hrest
        have htx₂ := withGraphName_within.guarded_of_none.confined hname htx₁
        have htx₃ := existingTerminal_within.guarded_of_none.confined hex htx₂
        split at hrest
        · exact hrest.2.1 ▸ htx₃
        · obtain ⟨n, tx₄, v₄, hn, hrest⟩ := Env.ends_bind_ok hrest
          obtain ⟨_, tx₅, v₅, hassign, hrest⟩ := Env.ends_bind_ok hrest
          obtain ⟨_, tx₆, v₆, hinsert, hrest⟩ := Env.ends_bind_ok hrest
          have htx₄ := nextSequence_guarded.confined hn htx₃
          have hguarded : (assignRun run.runId (.numbered n)).Guarded := .perform trivial
          have htx₅ := hguarded.confined hassign htx₄
          rw [hrest.2.1]
          -- the insert takes no lock itself: that of the run is held since the first statement
          refine insertEvent_confined (fun x hx => ?_) hinsert htx₅
          obtain rfl : run.runId = x := Option.some.inj hx
          exact hassign.held (hn.held (hex.held (hname.held hheld)))

/-- An event of a thread needs no lock of a run. -/
theorem recordThreadEvent_confined
    (h : Γ.Ends (recordThreadEvent now t topic payload ns terminal) tx v (.ok e) tx' v')
    (htx : Confined tx) : Confined tx' := by
  obtain ⟨n, tx₁, v₁, hn, hrest⟩ := Env.ends_bind_ok h
  obtain ⟨_, tx₂, v₂, hinsert, hrest⟩ := Env.ends_bind_ok hrest
  rw [hrest.2.1]
  -- the event is of no run, so no lock protects it
  exact insertEvent_confined (fun x hx => by cases hx) hinsert
    (nextThreadSequence_guarded.confined hn htx)

/-- The rows of a batch belong to the run of the request. -/
theorem runId_of_mem_deltaRows {n : Nat} {events : List (Dict × List String)}
    (he : e ∈ deltaRows now id th n events) : e.runId = some id := by
  induction events generalizing n with
  | nil => cases he
  | cons x xs ih =>
      rcases List.mem_cons.1 he with rfl | he
      · rfl
      · exact ih he

/-- The batch is inserted under the lock of its run. -/
theorem recordMessageDeltas_confined {events : List (Dict × List String)}
    {es : List RuntimeEventRow}
    (h : Γ.Ends (recordMessageDeltas now id th events) tx v (.ok es) tx' v')
    (htx : Confined tx) : Confined tx' := by
  unfold recordMessageDeltas at h
  split at h
  · exact h.2.1 ▸ htx
  · obtain ⟨run, tx₁, v₁, hlock, hrest⟩ := Env.ends_bind_ok h
    split at hrest
    · cases hrest.1
    · next run =>
        obtain ⟨hheld, -, htx₁⟩ := lockRun_held hlock htx
        split at hrest
        · cases hrest.1
        · obtain ⟨n, tx₂, v₂, hn, hrest⟩ := Env.ends_bind_ok hrest
          obtain ⟨_, tx₃, v₃, hassign, hrest⟩ := Env.ends_bind_ok hrest
          obtain ⟨_, tx₄, v₄, hthread, hrest⟩ := Env.ends_bind_ok hrest
          obtain ⟨_, tx₅, v₅, hinsert, hrest⟩ := Env.ends_bind_ok hrest
          have hrun : (assignRun id (.renumbered (n + events.length))).Guarded := .perform trivial
          have hof : (assignThreadOf run.threadId (.numbered (n + events.length))).Guarded := by
            cases run.threadId with
            | none => exact .ret
            | some t => exact .perform trivial
          have htx₂ := lastSequence_within.guarded_of_none.confined hn htx₁
          have htx₄ := hof.confined hthread (hrun.confined hassign htx₂)
          rw [hrest.2.1]
          refine insertEvents_confined (fun e he x hx => ?_) hinsert htx₄
          obtain rfl : id = x := Option.some.inj ((runId_of_mem_deltaRows he).symm.trans hx)
          exact hthread.held (hassign.held (hn.held hheld))

/-- Programs that record their events through the recorders. -/
theorem Txn.Logs.confined {p : Txn α} (hp : p.Logs K) (hprune : ¬K .prune)
    (hthread : ¬K .dropThread) (h : Γ.Ends p tx v (.ok a) tx' v') (htx : Confined tx) :
    Confined tx' := by
  induction hp generalizing tx tx' v v' with
  | within hp => exact (hp.guarded hprune hthread).confined h htx
  | bind _ _ ihp ihf =>
      obtain ⟨b, tx₁, v₁, hb, hrest⟩ := Env.ends_bind_ok h
      exact ihf b hrest (ihp hb htx)
  | run => exact recordRunEvent_confined h htx
  | thread => exact recordThreadEvent_confined h htx
  | deltas => exact recordMessageDeltas_confined h htx

/-! ### Pruning -/

/-- A prune deletes no terminal event. -/
theorem pruneExpiredEvents_confined {retentionSeconds batchSize n : Nat}
    (h : Γ.Ends (pruneExpiredEvents now retentionSeconds batchSize) tx v (.ok n) tx' v')
    (htx : Confined tx) : Confined tx' := by
  unfold pruneExpiredEvents at h
  split at h
  · exact h.2.1 ▸ htx
  · obtain ⟨picked, tx₁, v₁, hpick, hrest⟩ := Env.ends_bind_ok h
    have hguarded : Txn.Guarded (Prog.perform (Stmt.pickRun
        (isPrunable (now - retentionSeconds * second)) fun r => toLex (r.updatedAt, r.runId))) :=
      .perform trivial
    have htx₁ := hguarded.confined hpick htx
    split at hrest
    · exact hrest.2.1 ▸ htx₁
    · next run =>
        obtain ⟨batch, tx₂, v₂, hbatch, hrest⟩ := Env.ends_bind_ok hrest
        have hquery : (query (pruneBatch (now - retentionSeconds * second) run.runId
            batchSize)).Guarded := .perform trivial
        have htx₂ := hquery.confined hbatch htx₁
        have hopen : ∀ e ∈ batch, e.terminal = false := by
          obtain ⟨u, avail, -, -, hexec, -⟩ := Env.ends_perform hbatch
          obtain ⟨o, hsem, rfl, -⟩ := Engine.exec_ok hexec
          simp only [engine, Stmt.sem] at hsem
          obtain rfl := Except.ok.inj (Option.some.inj hsem)
          exact fun e he => (pruneBatch_spec.2 e he).2.2
        split at hrest
        · exact hrest.2.1 ▸ htx₂
        · obtain ⟨deleted, tx₃, v₃, hdelete, hrest⟩ := Env.ends_bind_ok hrest
          have htx₃ : Confined tx₃ := by
            obtain ⟨u, avail, -, -, hexec, -⟩ := Env.ends_perform hdelete
            refine htx₂.exec hexec fun o hsem H hH d => ?_
            simp only [Stmt.sem] at hsem
            obtain rfl := Except.ok.inj (Option.some.inj hsem)
            -- none of the deleted events is terminal, so no terminal event is missed
            refine .filterEvents fun e x hx hlock hterminal => ?_
            rw [decide_eq_true_eq]
            intro hmem
            rw [hopen e hmem] at hterminal
            cases hterminal
          split at hrest
          · exact hrest.2.1 ▸ htx₃
          · obtain ⟨_, tx₄, v₄, hmark, hrest⟩ := Env.ends_bind_ok hrest
            have hmarks : (markPruned run deleted).Guarded := by
              refine Prog.All.bind (Prog.All.perform trivial) fun _ => ?_
              split
              · exact .ret
              · exact .perform trivial
            exact hrest.2.1 ▸ hmarks.confined hmark htx₃

/-- However a request is interleaved with others, it writes only to what it has locked. -/
theorem Request.confined {q : Request} {a : Reply} (hq : Kind.dropThread ∉ q.kinds)
    (h : Γ.Ends (q.program now) engine.start v (.ok a) tx v') : Confined tx := by
  by_cases hprune : Kind.prune ∈ q.kinds
  · -- one request deletes events by a query of its own
    cases q with
    | pruneExpiredEvents retentionSeconds batchSize =>
        obtain ⟨n, tx₁, v₁, hn, hrest⟩ := Env.ends_bind_ok h
        exact hrest.2.1 ▸ pruneExpiredEvents_confined hn .start
    | finish _ _ target reason =>
        simp only [kinds] at hprune
        split at hprune <;> simp at hprune
    | runsCancel _ action => cases action <;> simp [kinds] at hprune
    | runsQueue _ operation => cases operation <;> simp [kinds] at hprune
    | _ => simp [kinds] at hprune
  · exact (q.logs now).confined hprune hq h .start

end Transactions

end GraphHarbor
