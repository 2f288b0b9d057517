import GraphHarbor.Session

/-!
# Transactions without interference

A transaction that runs whole behaves as a function on the database: its session never
disagrees with what it reads. `eval` is that function, without sessions, lock lists and
buffered writes, and `run_eq_eval` connects it to the session engine. `avail` are the
locks that no open transaction holds.
-/

namespace GraphHarbor

open Kit

namespace Db

/-- Assignments to the columns of a run, except its key. -/
def assignRun (v : Db) (id : RunId) (f : RunRow → RunRow) : Db :=
  v.updateRun id (fun r => r.assign f) fun _ => rfl

/-- Assignments to the columns of a thread, except its key. -/
def assignThread (v : Db) (id : ThreadId) (f : ThreadRow → ThreadRow) : Db :=
  v.updateThread id (fun t => t.assign f) fun _ => rfl

end Db

/-- A statement as a function on the database. -/
def Stmt.direct (avail : Lock → Bool) : {β : Type} → Stmt β → Db →
    Option (Except Err (β × Db))
  | _, .query f, v => some (.ok (f v, v))
  | _, .getRun id, v => some (.ok (v.runs.find? id, v))
  | _, .getThread id, v => some (.ok (v.threads.find? id, v))
  | _, .lockRun id p _ skip, v =>
      match (v.runs.find? id).filter p with
      | none => some (.ok (none, v))
      | some r =>
          if avail (.run id) then some (.ok (some r, v))
          else if skip then some (.ok (none, v)) else none
  | _, .lockThread id _ skip, v =>
      match v.threads.find? id with
      | none => some (.ok (none, v))
      | some t =>
          if avail (.thread id) then some (.ok (some t, v))
          else if skip then some (.ok (none, v)) else none
  | _, .pickRun p key, v =>
      some (.ok (least key (v.runs.rows.filter fun r => p v r && avail (.run r.runId)), v))
  | _, .lockRuns p le, v =>
      some (.ok ((v.runs.rows.filter fun r => p r && avail (.run r.runId)).insertionSort
        fun a b => le a b = true, v))
  | _, .assignRun id f, v =>
      match v.runs.find? id with
      | none => some (.ok ((), v))
      | some r =>
          if r.assign f = r || avail (.run id) then some (.ok ((), v.assignRun id f)) else none
  | _, .assignThread id f, v =>
      match v.threads.find? id with
      | none => some (.ok ((), v))
      | some t =>
          if t.assign f = t || avail (.thread id) then some (.ok ((), v.assignThread id f))
          else none
  | _, .insertRun new, v =>
      if v.drawn new.runId || !avail (.run new.runId) then none
      else
        match new.idempotencyKey with
        | none => some (.ok (true, v.insertRun new))
        | some key =>
            if v.runs.rows.any fun r => r.idempotencyKey = some key then some (.ok (false, v))
            else if avail (.idempotency key) then some (.ok (true, v.insertRun new))
            else none
  | _, .insertThread new, v =>
      if (v.threads.find? new.threadId).isSome then some (.ok (false, v))
      else if avail (.thread new.threadId) then
        some (.ok (true, { v with threads := v.threads.insert new }))
      else none
  | _, .insertEvent e, v =>
      if v.events.any e.clashes then some (.error .integrity)
      else some (.ok ((), v.insertEvent e))
  | _, .deleteRun id, v =>
      match v.runs.find? id with
      | none => some (.ok ((), v))
      | some _ => if avail (.run id) then some (.ok ((), v.deleteRun id)) else none
  | _, .deleteThread id, v =>
      match v.threads.find? id with
      | none => some (.ok ((), v))
      | some _ => if avail (.thread id) then some (.ok ((), v.deleteThread id)) else none
  | _, .updateRun id f hf, v =>
      match v.runs.find? id with
      | none => some (.ok ((), v))
      | some _ => if avail (.run id) then some (.ok ((), v.updateRun id f hf)) else none
  | _, .updateThread id f hf, v =>
      match v.threads.find? id with
      | none => some (.ok ((), v))
      | some _ => if avail (.thread id) then some (.ok ((), v.updateThread id f hf)) else none
  | _, .update f g _, v => some (.ok (f v, g v))

namespace Txn

variable {α β : Type}

/-- A transaction as a function on the database; `none` while it waits for a lock. -/
def eval (avail : Lock → Bool) : Txn α → Db → Option (Except Err (α × Db))
  | .ret a, v => some (.ok (a, v))
  | .throw e, _ => some (.error e)
  | .stmt s k, v =>
      match s.direct avail v with
      | none => none
      | some (.error e) => some (.error e)
      | some (.ok (b, v')) => eval avail (k b) v'

end Txn

/-! ## Sessions without interference -/

/-- Every loaded object is the stored row. -/
structure Session.Coherent (s : Session) (v : Db) : Prop where
  run : ∀ {id r}, s.run id = some r → v.runs.find? id = some r
  thread : ∀ {id t}, s.thread id = some t → v.threads.find? id = some t

namespace Session.Coherent

variable {s : Session} {v w : Db} {id : RunId} {t : ThreadId}

/-- A transaction starts coherent. -/
theorem empty (v : Db) : Session.empty.Coherent v :=
  ⟨by simp [Session.empty], by simp [Session.empty]⟩

/-- A reload changes nothing: the identity map holds what the query returned. -/
theorem loadRun (h : s.Coherent v) {r : RunRow} (hr : v.runs.find? id = some r)
    (populate : Bool) : s.loadRun populate r = r := by
  have hid : r.runId = id := Table.key_of_find? hr
  unfold Session.loadRun
  split
  · rfl
  · cases hs : s.run r.runId with
    | none => rfl
    -- the object in the identity map is the stored row
    | some c =>
        have := h.run hs
        rw [hid, hr] at this
        simpa using this.symm

/-- The same for a thread. -/
theorem loadThread (h : s.Coherent v) {r : ThreadRow} (hr : v.threads.find? t = some r)
    (populate : Bool) : s.loadThread populate r = r := by
  have hid : r.threadId = t := Table.key_of_find? hr
  unfold Session.loadThread
  split
  · rfl
  · cases hs : s.thread r.threadId with
    | none => rfl
    | some c =>
        have := h.thread hs
        rw [hid, hr] at this
        simpa using this.symm

/-- A cached run and a query answer alike, which is why `get` needs no case for the cache. -/
theorem or_run (h : s.Coherent v) : (s.run id).or (v.runs.find? id) = v.runs.find? id := by
  cases hs : s.run id with
  | none => rfl
  | some r => simp [h.run hs]

/-- The same for a thread. -/
theorem or_thread (h : s.Coherent v) :
    (s.thread t).or (v.threads.find? t) = v.threads.find? t := by
  cases hs : s.thread t with
  | none => rfl
  | some r => simp [h.thread hs]

/-- Loading what is stored keeps a session coherent. -/
theorem setRun (h : s.Coherent v) {r : Option RunRow} (hr : ∀ x, r = some x →
    v.runs.find? id = some x) : (s.setRun id r).Coherent v where
  run {x c} hc := by
    by_cases hx : x = id
    · subst hx
      simp only [setRun_run, if_true] at hc
      exact hr c hc
    · simp only [setRun_run, if_neg hx] at hc
      exact h.run hc
  thread hc := h.thread hc

theorem setThread (h : s.Coherent v) {r : Option ThreadRow} (hr : ∀ x, r = some x →
    v.threads.find? t = some x) : (s.setThread t r).Coherent v where
  run hc := h.run hc
  thread {x c} hc := by
    by_cases hx : x = t
    · subst hx
      simp only [setThread_thread, if_true] at hc
      exact hr c hc
    · simp only [setThread_thread, if_neg hx] at hc
      exact h.thread hc

theorem setRuns (h : s.Coherent v) {rows : List RunRow} (hrows : ∀ r ∈ rows, r ∈ v.runs) :
    (s.setRuns rows).Coherent v where
  run {x c} hc := by
    simp only [Session.setRuns] at hc
    split at hc
    · exact h.run hc
    · next r hr =>
        -- the row that the query loaded under this id
        have hmem : v.runs.find? r.runId = some r :=
          Table.mem_iff_find?.1 (hrows r (List.mem_of_find?_eq_some hr))
        have hx : r.runId = x := by simpa using List.find?_some hr
        rw [h.loadRun hmem] at hc
        rw [← hx, ← Option.some.inj hc, hmem]
  thread hc := h.thread hc

/-- An update the session knows about: the object gets the new row. -/
theorem updateRun (h : s.Coherent v) {g : RunRow → RunRow} {hg : ∀ r, (g r).runId = r.runId}
    {r new : RunRow} (hr : v.runs.find? id = some r) (hnew : g r = new) :
    (s.setRun id (some new)).Coherent (v.updateRun id g hg) where
  run {x c} hc := by
    simp only [setRun_run] at hc
    simp only [Db.updateRun, Table.find?_modify]
    by_cases hx : x = id
    · simp_all
    · simp only [hx, if_false] at hc ⊢
      exact h.run hc
  thread hc := h.thread hc

/-- The same for a thread. -/
theorem updateThread (h : s.Coherent v) {g : ThreadRow → ThreadRow}
    {hg : ∀ r, (g r).threadId = r.threadId} {r new : ThreadRow}
    (hr : v.threads.find? t = some r) (hnew : g r = new) :
    (s.setThread t (some new)).Coherent (v.updateThread t g hg) where
  run hc := h.run hc
  thread {x c} hc := by
    simp only [setThread_thread] at hc
    simp only [Db.updateThread, Table.find?_modify]
    by_cases hx : x = t
    · simp_all
    · simp only [hx, if_false] at hc ⊢
      exact h.thread hc

/-- The update of an object that may not be loaded. -/
theorem modifyRun (h : s.Coherent v) {g : RunRow → RunRow} {hg : ∀ r, (g r).runId = r.runId}
    {r : RunRow} (hr : v.runs.find? id = some r) :
    (s.setRun id ((s.run id).map g)).Coherent (v.updateRun id g hg) := by
  cases hs : s.run id with
  -- a loaded object is the stored row, so both get the same update
  | some c =>
      obtain rfl : r = c := Option.some.inj (hr.symm.trans (h.run hs))
      exact h.updateRun hr rfl
  | none =>
      refine ⟨fun {x c} hc => ?_, h.thread⟩
      simp only [setRun_run, Option.map_none] at hc
      by_cases hx : x = id
      · simp [hx] at hc
      · simp only [hx, if_false] at hc
        simp only [Db.updateRun, Table.find?_modify, hx, if_false]
        exact h.run hc

/-- The same for a thread. -/
theorem modifyThread (h : s.Coherent v) {g : ThreadRow → ThreadRow}
    {hg : ∀ r, (g r).threadId = r.threadId} {r : ThreadRow}
    (hr : v.threads.find? t = some r) :
    (s.setThread t ((s.thread t).map g)).Coherent (v.updateThread t g hg) := by
  cases hs : s.thread t with
  | some c =>
      obtain rfl : r = c := Option.some.inj (hr.symm.trans (h.thread hs))
      exact h.updateThread hr rfl
  | none =>
      refine ⟨h.run, fun {x c} hc => ?_⟩
      simp only [setThread_thread, Option.map_none] at hc
      by_cases hx : x = t
      · simp [hx] at hc
      · simp only [hx, if_false] at hc
        simp only [Db.updateThread, Table.find?_modify, hx, if_false]
        exact h.thread hc

/-- An inserted object is loaded as it was inserted. -/
theorem insertRun (h : s.Coherent v) {new : RunRow} (hnone : v.runs.find? new.runId = none) :
    (s.setRun new.runId (some new)).Coherent (v.insertRun new) where
  run {x c} hc := by
    simp only [setRun_run] at hc
    simp only [Db.insertRun,
      Table.find?_insert (show v.runs.find? (Keyed.key new) = none from hnone),
      key_run]
    -- the new object is the inserted row, every other object stays
    by_cases hx : x = new.runId
    · simpa [hx] using hc
    · simp only [hx, if_false] at hc ⊢
      exact h.run hc
  thread hc := h.thread hc

/-- An insert with ON CONFLICT DO NOTHING loads no object. -/
theorem insertThread (h : s.Coherent v) {new : ThreadRow}
    (hnone : v.threads.find? new.threadId = none) :
    s.Coherent { v with threads := v.threads.insert new } where
  run hc := h.run hc
  thread {x c} hc := by
    have hx := h.thread hc
    rw [Table.find?_insert (show v.threads.find? (Keyed.key new) = none from hnone)]
    by_cases hn : x = Keyed.key new
    · rw [hn, show v.threads.find? (Keyed.key new) = none from hnone] at hx
      cases hx
    · rw [if_neg hn, hx]

/-- A deleted object leaves the session. -/
theorem deleteRun (h : s.Coherent v) : (s.setRun id none).Coherent (v.deleteRun id) where
  run {x c} hc := by
    simp only [setRun_run] at hc
    by_cases hx : x = id
    · simp [hx] at hc
    · simp only [hx, if_false] at hc
      simp only [Db.deleteRun, Table.find?_erase, hx, if_false]
      exact h.run hc
  thread hc := h.thread hc

theorem deleteThread (h : s.Coherent v) :
    (s.setThread t none).Coherent (v.deleteThread t) where
  run hc := h.run hc
  thread {x c} hc := by
    simp only [setThread_thread] at hc
    by_cases hx : x = t
    · simp [hx] at hc
    · simp only [hx, if_false] at hc
      simp only [Db.deleteThread, Table.find?_erase, hx, if_false]
      exact h.thread hc

/-- A write that leaves the rows of the session as they were. -/
theorem of_eq (h : s.Coherent v) (hruns : w.runs = v.runs) (hthreads : w.threads = v.threads) :
    s.Coherent w where
  run hc := hruns ▸ h.run hc
  thread hc := hthreads ▸ h.thread hc

end Session.Coherent

/-- Only the stored row of the run matters to an update. -/
theorem Db.updateRun_congr {v : Db} {id : RunId} {f g : RunRow → RunRow} {hf hg}
    (h : ∀ r, v.runs.find? id = some r → f r = g r) :
    v.updateRun id f hf = v.updateRun id g hg := by
  have : v.runs.modify id f hf = v.runs.modify id g hg := by
    refine Table.ext_rows (List.map_congr_left fun r hr => ?_)
    by_cases hk : Keyed.key r = id
    · simp only [hk, if_true]
      exact h r (Table.find?_eq_some.2 ⟨hr, hk⟩)
    · simp only [hk, if_false]
  simp only [updateRun, this]

theorem Db.updateThread_congr {v : Db} {id : ThreadId} {f g : ThreadRow → ThreadRow} {hf hg}
    (h : ∀ r, v.threads.find? id = some r → f r = g r) :
    v.updateThread id f hf = v.updateThread id g hg := by
  have : v.threads.modify id f hf = v.threads.modify id g hg := by
    refine Table.ext_rows (List.map_congr_left fun r hr => ?_)
    by_cases hk : Keyed.key r = id
    · simp only [hk, if_true]
      exact h r (Table.find?_eq_some.2 ⟨hr, hk⟩)
    · simp only [hk, if_false]
  simp only [updateThread, this]

/-- An update that changes nothing on the stored row changes nothing. -/
theorem Db.updateRun_id {v : Db} {id : RunId} {f : RunRow → RunRow} {hf}
    (h : ∀ r, v.runs.find? id = some r → f r = r) : v.updateRun id f hf = v := by
  have heq : v.updateRun id f hf = v.updateRun id (fun r => r) fun _ => rfl := updateRun_congr h
  rw [heq]
  simp [updateRun, Table.modify]

theorem Db.updateThread_id {v : Db} {id : ThreadId} {f : ThreadRow → ThreadRow} {hf}
    (h : ∀ r, v.threads.find? id = some r → f r = r) : v.updateThread id f hf = v := by
  have heq : v.updateThread id f hf = v.updateThread id (fun r => r) fun _ => rfl :=
    updateThread_congr h
  rw [heq]
  simp [updateThread, Table.modify]

/-! ## The connection -/

namespace Stmt

variable {β : Type} {avail : Lock → Bool} {session : Session} {v : Db}

/-- With a coherent session a statement does what `direct` says, and leaves the session
coherent. -/
theorem sem_direct (s : Stmt β) (h : session.Coherent v) :
    match s.sem avail session v with
    | none => s.direct avail v = none
    | some (.error e) => s.direct avail v = some (.error e)
    | some (.ok o) =>
        s.direct avail v = some (.ok (o.value, o.effect v)) ∧ o.session.Coherent (o.effect v) := by
  cases s with
  | query f => exact ⟨rfl, h⟩
  | update f g hg => exact ⟨rfl, h.of_eq (hg v).1 (hg v).2⟩
  | getRun id =>
      simp only [sem, direct]
      cases hs : session.run id with
      | some r => exact ⟨by rw [h.run hs]; rfl, h⟩
      | none => exact ⟨rfl, h.setRun fun x hx => hx⟩
  | getThread id =>
      simp only [sem, direct]
      cases hs : session.thread id with
      | some r => exact ⟨by rw [h.thread hs]; rfl, h⟩
      | none => exact ⟨rfl, h.setThread fun x hx => hx⟩
  | lockRun id p populate skip =>
      simp only [sem, direct]
      cases hr : (v.runs.find? id).filter p with
      | none => exact ⟨rfl, h⟩
      | some r =>
          have hfind := (Option.filter_eq_some_iff.1 hr).1
          by_cases ha : avail (.run id) = true
          · simp only [ha, if_true, h.loadRun hfind]
            exact ⟨rfl, h.setRun fun x hx => Option.some.inj hx ▸ hfind⟩
          · cases skip <;> simp [ha, h]
  | lockThread id populate skip =>
      simp only [sem, direct]
      cases hr : v.threads.find? id with
      | none => exact ⟨rfl, h⟩
      | some r =>
          by_cases ha : avail (.thread id) = true
          · simp only [ha, if_true, h.loadThread hr]
            exact ⟨rfl, h.setThread fun x hx => Option.some.inj hx ▸ hr⟩
          · cases skip <;> simp [ha, h]
  | pickRun p key =>
      simp only [sem, direct]
      cases hl : least key (v.runs.rows.filter fun r => p v r && avail (.run r.runId)) with
      | none => exact ⟨rfl, h⟩
      | some r =>
          have hmem : r ∈ v.runs := (List.mem_filter.1 (least_mem hl)).1
          have hfind := Table.mem_iff_find?.1 hmem
          simp only [h.loadRun hfind]
          exact ⟨rfl, h.setRun fun x hx => Option.some.inj hx ▸ hfind⟩
  | lockRuns p le =>
      simp only [sem, direct]
      have hrows : ∀ r ∈ (v.runs.rows.filter fun r => p r && avail (.run r.runId)).insertionSort
          (fun a b => le a b = true), r ∈ v.runs := by
        intro r hr
        exact (List.mem_filter.1 ((List.mem_insertionSort _).1 hr)).1
      refine ⟨?_, h.setRuns hrows⟩
      rw [List.map_congr_left fun r hr => h.loadRun (Table.mem_iff_find?.1 (hrows r hr)) false]
      simp
  | assignRun id f =>
      simp only [sem, direct, h.or_run]
      cases hr : v.runs.find? id with
      | none => exact ⟨rfl, h⟩
      | some r =>
          have heq : v.updateRun id (RunRow.merge r (r.assign f)) (fun _ => rfl) =
              v.assignRun id f := Db.updateRun_congr fun x hx => by
            rw [hr] at hx
            rw [← Option.some.inj hx, RunRow.merge_self (by rfl)]
          by_cases hf : r.assign f = r
          · have hid : v.assignRun id f = v := Db.updateRun_id fun x hx => by
              rw [hr] at hx
              rw [← Option.some.inj hx, hf]
            simp [hf, h, hid]
          · by_cases ha : avail (.run id) = true
            · simp only [hf, ha, if_true, if_false, heq, decide_false, Bool.or_true]
              exact ⟨trivial, h.updateRun hr rfl⟩
            · simp [hf, ha]
  | assignThread id f =>
      simp only [sem, direct, h.or_thread]
      cases hr : v.threads.find? id with
      | none => exact ⟨rfl, h⟩
      | some r =>
          have heq : v.updateThread id (ThreadRow.merge r (r.assign f))
              (fun _ => rfl) = v.assignThread id f := Db.updateThread_congr fun x hx => by
            rw [hr] at hx
            rw [← Option.some.inj hx, ThreadRow.merge_self (by rfl)]
          by_cases hf : r.assign f = r
          · have hid : v.assignThread id f = v := Db.updateThread_id fun x hx => by
              rw [hr] at hx
              rw [← Option.some.inj hx, hf]
            simp [hf, h, hid]
          · by_cases ha : avail (.thread id) = true
            · simp only [hf, ha, if_true, if_false, heq, decide_false, Bool.or_true]
              exact ⟨trivial, h.updateThread hr rfl⟩
            · simp [hf, ha]
  | insertRun new =>
      simp only [sem, direct]
      by_cases hnew : (v.drawn new.runId || !avail (.run new.runId)) = true
      · simp only [hnew, if_true]
      · have hnone : v.runs.find? new.runId = none := by
          simp_all [Db.drawn]
        simp only [hnew, if_false, Bool.false_eq_true]
        cases new.idempotencyKey with
        | none => exact ⟨rfl, h.insertRun hnone⟩
        | some key =>
            dsimp only
            by_cases hkey : (v.runs.rows.any fun r => r.idempotencyKey = some key) = true
            · simp only [hkey, if_true]
              exact ⟨rfl, h⟩
            · by_cases ha : avail (.idempotency key) = true
              · simp only [hkey, ha, if_true, if_false, Bool.false_eq_true]
                exact ⟨trivial, h.insertRun hnone⟩
              · simp only [hkey, ha, if_false, Bool.false_eq_true]
  | insertThread new =>
      simp only [sem, direct]
      by_cases hnew : (v.threads.find? new.threadId).isSome = true
      · simp only [hnew, if_true]
        exact ⟨rfl, h⟩
      · by_cases ha : avail (.thread new.threadId) = true
        · simp only [hnew, ha, if_true, if_false, Bool.false_eq_true]
          exact ⟨trivial, h.insertThread (by simpa using hnew)⟩
        · simp only [hnew, ha, if_false, Bool.false_eq_true]
  | insertEvent e =>
      simp only [sem, direct]
      by_cases he : v.events.any e.clashes = true
      · simp only [he, if_true]
      · simp only [he, if_false, Bool.false_eq_true]
        exact ⟨trivial, h.of_eq rfl rfl⟩
  | deleteRun id =>
      simp only [sem, direct]
      cases hr : v.runs.find? id with
      | none => exact ⟨rfl, h.setRun (by simp)⟩
      | some r =>
          by_cases ha : avail (.run id) = true
          · simp only [ha, if_true]
            exact ⟨trivial, h.deleteRun⟩
          · simp only [ha, if_false, Bool.false_eq_true]
  | deleteThread id =>
      simp only [sem, direct]
      cases hr : v.threads.find? id with
      | none => exact ⟨rfl, h.setThread (by simp)⟩
      | some r =>
          by_cases ha : avail (.thread id) = true
          · simp only [ha, if_true]
            exact ⟨trivial, h.deleteThread⟩
          · simp only [ha, if_false, Bool.false_eq_true]
  | updateRun id f hf =>
      simp only [sem, direct]
      cases hr : v.runs.find? id with
      | none => exact ⟨rfl, h⟩
      | some r =>
          by_cases ha : avail (.run id) = true
          · simp only [ha, if_true]
            exact ⟨trivial, h.modifyRun hr⟩
          · simp only [ha, if_false, Bool.false_eq_true]
  | updateThread id f hf =>
      simp only [sem, direct]
      cases hr : v.threads.find? id with
      | none => exact ⟨rfl, h⟩
      | some r =>
          by_cases ha : avail (.thread id) = true
          · simp only [ha, if_true]
            exact ⟨trivial, h.modifyThread hr⟩
          · simp only [ha, if_false, Bool.false_eq_true]

end Stmt

/-- `Tx.view` of a whole run: nothing but the database matters. -/
theorem runFrom_eq_eval {α : Type} {avail : Lock → Bool} {p : Txn α} {tx : Tx Db Lock Session}
    {db : Db} (h : tx.session.Coherent (tx.effect db)) :
    match engine.runFrom avail p tx db with
    | none => p.eval avail (tx.effect db) = none
    | some (.error e) => p.eval avail (tx.effect db) = some (.error e)
    | some (.ok (a, tx')) => p.eval avail (tx.effect db) = some (.ok (a, tx'.effect db)) := by
  induction p generalizing tx with
  | ret a => rfl
  | throw e => rfl
  | stmt s k ih =>
      have hs := @Stmt.sem_direct _ avail _ _ s h
      simp only [Engine.runFrom, Engine.exec, Txn.eval]
      cases hsem : s.sem avail tx.session (tx.effect db) with
      | none => simp_all [engine]
      | some r =>
          cases r with
          | error e => simp_all [engine]
          | ok o =>
              simp only [hsem] at hs
              have hk := @ih o.value ⟨tx.held ++ o.locks, fun d => o.effect (tx.effect d),
                o.session⟩ hs.2
              simp only [engine, hsem, hs.1]
              exact hk

/-- A whole transaction is its `eval`. -/
theorem run_eq_eval {α : Type} (avail : Lock → Bool) (p : Txn α) (db : Db) :
    engine.run avail p db =
      (p.eval avail db).map fun
        | .ok (a, db') => (.ok a, db')
        | .error e => (.error e, db) := by
  have h := @runFrom_eq_eval _ avail p engine.start db (Session.Coherent.empty db)
  simp only [Engine.run]
  split at h <;> simp_all [Engine.start]

/-! ## Results -/

namespace Txn

variable {α β : Type} {avail : Lock → Bool} {v v' : Db}

/-- The transaction commits on `v` with result `a` and leaves `v'`. -/
def Returns (avail : Lock → Bool) (p : Txn α) (v : Db) (a : α) (v' : Db) : Prop :=
  p.eval avail v = some (.ok (a, v'))

/-- The transaction raises `e` on `v`. -/
def Raises (avail : Lock → Bool) (p : Txn α) (v : Db) (e : Err) : Prop :=
  p.eval avail v = some (.error e)

/-- The connection for a transaction that commits: the engine and `eval` agree. -/
theorem run_ok_iff {p : Txn α} {a : α} :
    engine.run avail p v = some (.ok a, v') ↔ p.Returns avail v a v' := by
  rw [run_eq_eval, Returns]
  cases p.eval avail v with
  | none => simp
  | some r => cases r <;> simp [Prod.ext_iff]

private theorem some_ok {x a : α} :
    (some (.ok (x, v)) : Option (Except Err (α × Db))) = some (.ok (a, v')) ↔
      a = x ∧ v' = v := by
  simp only [Option.some.injEq, Except.ok.injEq, Prod.mk.injEq]
  exact ⟨fun h => ⟨h.1.symm, h.2.symm⟩, fun h => ⟨h.1.symm, h.2.symm⟩⟩

/-- The rule for `bind`, in terms of what the first part does. -/
theorem eval_bind (p : Txn α) (f : α → Txn β) :
    eval avail (p >>= f) v =
      match p.eval avail v with
      | none => none
      | some (.error e) => some (.error e)
      | some (.ok (a, v₁)) => (f a).eval avail v₁ := by
  induction p generalizing v with
  | ret a => rfl
  | throw e => rfl
  | stmt s k ih =>
      simp only [Prog.stmt_bind, eval]
      cases s.direct avail v with
      | none => rfl
      | some r =>
          cases r with
          | error e => rfl
          | ok x => exact ih x.1

/-- A program returns in two parts, with a database between them. Proofs about a function take it
apart by this rule and never unfold `eval`. -/
@[simp] theorem returns_bind {p : Txn α} {f : α → Txn β} {b : β} :
    (p >>= f).Returns avail v b v' ↔
      ∃ a v₁, p.Returns avail v a v₁ ∧ (f a).Returns avail v₁ b v' := by
  simp only [Returns, eval_bind]
  cases p.eval avail v with
  | none => simp
  | some r =>
      cases r with
      | error e => simp
      | ok x =>
          simp only [Option.some.injEq, Except.ok.injEq]
          exact ⟨fun h => ⟨x.1, x.2, rfl, h⟩, fun ⟨a, v₁, h, hb⟩ => by rw [h]; exact hb⟩

@[simp] theorem returns_ret {a b : α} :
    Returns avail (.ret a) v b v' ↔ b = a ∧ v' = v := by
  simp only [Returns, eval, some_ok]

@[simp] theorem returns_throw {e : Err} {b : α} : ¬ Returns avail (.throw e) v b v' := by
  simp [Returns, eval]

/-- A single statement; the rules below read it for each of them. -/
theorem returns_perform {s : Stmt α} {a : α} :
    Returns avail (.perform s) v a v' ↔ s.direct avail v = some (.ok (a, v')) := by
  simp only [Returns, Prog.perform, eval]
  cases s.direct avail v with
  | none => simp
  | some r =>
      cases r with
      | error e => simp
      | ok x => simp [Prod.ext_iff]

@[simp] theorem returns_query {f : Db → α} {a : α} :
    (query f).Returns avail v a v' ↔ a = f v ∧ v' = v := by
  simp only [query, returns_perform, Stmt.direct, some_ok]

@[simp] theorem returns_getRun {id : RunId} {a : Option RunRow} :
    (getRun id).Returns avail v a v' ↔ a = v.runs.find? id ∧ v' = v := by
  simp only [getRun, returns_perform, Stmt.direct, some_ok]

@[simp] theorem returns_getThread {id : ThreadId} {a : Option ThreadRow} :
    (getThread id).Returns avail v a v' ↔ a = v.threads.find? id ∧ v' = v := by
  simp only [getThread, returns_perform, Stmt.direct, some_ok]

/-- The row is read and locked, unless it is locked elsewhere and `SKIP LOCKED` passes it over. -/
theorem returns_lockRunIf {id : RunId} {p : RunRow → Bool} {populate skip : Bool}
    {a : Option RunRow} :
    Returns avail (.perform (.lockRun id p populate skip)) v a v' ↔
      v' = v ∧ (a = (v.runs.find? id).filter p ∧ (a.isSome → avail (.run id) = true) ∨
        a = none ∧ skip = true ∧ avail (.run id) = false) := by
  simp only [returns_perform, Stmt.direct]
  cases (v.runs.find? id).filter p with
  | none => simp only [some_ok]; cases a <;> simp
  | some r =>
      cases h : avail (.run id) <;> cases skip <;>
        simp only [if_true, if_false, Bool.false_eq_true, some_ok, reduceCtorEq] <;>
        cases a <;> simp [and_comm]

@[simp] theorem returns_lockRun {id : RunId} {a : Option RunRow} :
    (lockRun id).Returns avail v a v' ↔
      a = v.runs.find? id ∧ v' = v ∧ (a.isSome → avail (.run id) = true) := by
  have hfilter : (v.runs.find? id).filter (fun _ => true) = v.runs.find? id := by
    cases v.runs.find? id <;> rfl
  simp only [lockRun, returns_lockRunIf, hfilter, Bool.false_eq_true, false_and, and_false,
    or_false]
  tauto

/-- The same for a thread. -/
theorem returns_lockThreadIf {id : ThreadId} {populate skip : Bool} {a : Option ThreadRow} :
    Returns avail (.perform (.lockThread id populate skip)) v a v' ↔
      v' = v ∧ (a = v.threads.find? id ∧ (a.isSome → avail (.thread id) = true) ∨
        a = none ∧ skip = true ∧ avail (.thread id) = false) := by
  simp only [returns_perform, Stmt.direct]
  cases v.threads.find? id with
  | none => simp only [some_ok]; cases a <;> simp
  | some r =>
      cases h : avail (.thread id) <;> cases skip <;>
        simp only [if_true, if_false, Bool.false_eq_true, some_ok, reduceCtorEq] <;>
        cases a <;> simp [and_comm]

@[simp] theorem returns_lockThread {id : ThreadId} {a : Option ThreadRow} :
    (lockThread id).Returns avail v a v' ↔
      a = v.threads.find? id ∧ v' = v ∧ (a.isSome → avail (.thread id) = true) := by
  simp only [lockThread, returns_lockThreadIf, Bool.false_eq_true, false_and, and_false, or_false]
  tauto

/-- The first of the matching runs that nobody has locked. -/
theorem returns_pickRun {p : Db → RunRow → Bool} {key : RunRow → Time ×ₗ RunId}
    {a : Option RunRow} :
    Returns avail (.perform (.pickRun p key)) v a v' ↔
      a = least key (v.runs.rows.filter fun r => p v r && avail (.run r.runId)) ∧ v' = v := by
  simp only [returns_perform, Stmt.direct, some_ok]

/-- All matching runs that nobody has locked, in order. -/
theorem returns_lockRuns {p : RunRow → Bool} {le : RunRow → RunRow → Bool} {a : List RunRow} :
    Returns avail (.perform (.lockRuns p le)) v a v' ↔
      a = (v.runs.rows.filter fun r => p r && avail (.run r.runId)).insertionSort
        (fun a b => le a b = true) ∧ v' = v := by
  simp only [returns_perform, Stmt.direct, some_ok]

/-- Assignments to a run that is gone are lost. -/
theorem assignRun_of_none {id : RunId} {f : RunRow → RunRow} (h : v.runs.find? id = none) :
    v.assignRun id f = v := Db.updateRun_id (by simp [h])

theorem assignThread_of_none {id : ThreadId} {f : ThreadRow → ThreadRow}
    (h : v.threads.find? id = none) : v.assignThread id f = v :=
  Db.updateThread_id (by simp [h])

/-- A flush waits for the row only when a column changed. -/
@[simp] theorem returns_assignRun {id : RunId} {f : RunRow → RunRow} {a : Unit} :
    (assignRun id f).Returns avail v a v' ↔ v' = v.assignRun id f ∧
      ∀ r, v.runs.find? id = some r → r.assign f = r ∨ avail (.run id) = true := by
  simp only [assignRun, returns_perform, Stmt.direct]
  cases h : v.runs.find? id with
  | none => simp only [assignRun_of_none h, some_ok]; simp
  | some r =>
      by_cases hf : r.assign f = r <;> cases ha : avail (.run id) <;>
        simp only [hf, decide_true, decide_false, Bool.or_true, Bool.or_false, if_true,
          if_false, Bool.false_eq_true, some_ok, reduceCtorEq] <;> simp [hf]

/-- The same for a thread. -/
@[simp] theorem returns_assignThread {id : ThreadId} {f : ThreadRow → ThreadRow} {a : Unit} :
    (assignThread id f).Returns avail v a v' ↔ v' = v.assignThread id f ∧
      ∀ r, v.threads.find? id = some r → r.assign f = r ∨ avail (.thread id) = true := by
  simp only [assignThread, returns_perform, Stmt.direct]
  cases h : v.threads.find? id with
  | none => simp only [assignThread_of_none h, some_ok]; simp
  | some r =>
      by_cases hf : r.assign f = r <;> cases ha : avail (.thread id) <;>
        simp only [hf, decide_true, decide_false, Bool.or_true, Bool.or_false, if_true,
          if_false, Bool.false_eq_true, some_ok, reduceCtorEq] <;> simp [hf]

/-- An event is stored unless its number or its terminal mark is taken. -/
@[simp] theorem returns_insertEvent {e : RuntimeEventRow} {a : Unit} :
    (insertEvent e).Returns avail v a v' ↔
      v' = v.insertEvent e ∧ v.events.any e.clashes = false := by
  simp only [insertEvent, returns_perform, Stmt.direct]
  cases h : v.events.any e.clashes <;>
    simp only [if_true, if_false, Bool.false_eq_true, some_ok, reduceCtorEq] <;> simp

/-- A statement on whole tables, with what it returns. -/
theorem returns_update {f : Db → α} {g : Db → Db} {hg} {a : α} :
    Returns avail (.perform (.update f g hg)) v a v' ↔ a = f v ∧ v' = g v := by
  simp only [returns_perform, Stmt.direct, some_ok]

@[simp] theorem returns_write {g : Db → Db} {hg} {a : Unit} :
    (write g hg).Returns avail v a v' ↔ v' = g v := by
  simp [write, returns_update]

/-- An insert adds the row under a key no other row carries, or finds that key taken. -/
theorem insertRun_returns {new : RunRow} {b : Bool}
    (h : Returns avail (.perform (.insertRun new)) v b v') :
    v.drawn new.runId = false ∧
      (b = true ∧ v' = v.insertRun new ∧
          (∀ key, new.idempotencyKey = some key → ∀ r ∈ v.runs, r.idempotencyKey ≠ some key) ∨
        b = false ∧ v' = v) := by
  simp only [returns_perform, Stmt.direct] at h
  split at h
  · simp at h
  · next hfree =>
      simp only [Bool.or_eq_true, not_or, Bool.not_eq_true] at hfree
      refine ⟨hfree.1, ?_⟩
      split at h
      · next hkey =>
          obtain ⟨rfl, rfl⟩ := some_ok.1 h
          exact .inl ⟨rfl, rfl, by simp [hkey]⟩
      · next key hkey =>
          split at h
          · obtain ⟨rfl, rfl⟩ := some_ok.1 h
            exact .inr ⟨rfl, rfl⟩
          · next hnone =>
              split at h
              · obtain ⟨rfl, rfl⟩ := some_ok.1 h
                refine .inl ⟨rfl, rfl, fun k hk r hr hrk => hnone ?_⟩
                rw [hkey] at hk
                exact List.any_eq_true.2 ⟨r, hr, by simp [hrk, hk]⟩
              · simp at h

/-- A deletion of a missing row does nothing, any other waits for the lock. -/
theorem returns_deleteRun {id : RunId} {a : Unit} :
    Returns avail (.perform (.deleteRun id)) v a v' ↔
      (v.runs.find? id = none ∧ v' = v) ∨
        (v.runs.find? id).isSome ∧ avail (.run id) = true ∧ v' = v.deleteRun id := by
  simp only [returns_perform, Stmt.direct]
  cases v.runs.find? id <;> cases avail (.run id) <;> simp [Prod.ext_iff, eq_comm]

theorem returns_deleteThread {id : ThreadId} {a : Unit} :
    Returns avail (.perform (.deleteThread id)) v a v' ↔
      (v.threads.find? id = none ∧ v' = v) ∨
        (v.threads.find? id).isSome ∧ avail (.thread id) = true ∧ v' = v.deleteThread id := by
  simp only [returns_perform, Stmt.direct]
  cases v.threads.find? id <;> cases avail (.thread id) <;> simp [Prod.ext_iff, eq_comm]

/-- The insert of a thread, with whether there was none. -/
theorem returns_insertThread {new : ThreadRow} {b : Bool} :
    Returns avail (.perform (.insertThread new)) v b v' ↔
      (b = false ∧ (v.threads.find? new.threadId).isSome ∧ v' = v) ∨
        (b = true ∧ v.threads.find? new.threadId = none ∧ avail (.thread new.threadId) = true ∧
          v' = { v with threads := v.threads.insert new }) := by
  simp only [returns_perform, Stmt.direct]
  cases v.threads.find? new.threadId <;> cases avail (.thread new.threadId) <;>
    simp [Prod.ext_iff, eq_comm]

/-- The UPDATE of one run by its key. -/
theorem returns_updateRun {id : RunId} {f : RunRow → RunRow} {hf} {a : Unit} :
    Returns avail (.perform (.updateRun id f hf)) v a v' ↔
      (v.runs.find? id = none ∧ v' = v) ∨
        (v.runs.find? id).isSome ∧ avail (.run id) = true ∧ v' = v.updateRun id f hf := by
  simp only [returns_perform, Stmt.direct]
  cases v.runs.find? id <;> cases avail (.run id) <;> simp [Prod.ext_iff, eq_comm]

theorem returns_updateThread {id : ThreadId} {f : ThreadRow → ThreadRow} {hf} {a : Unit} :
    Returns avail (.perform (.updateThread id f hf)) v a v' ↔
      (v.threads.find? id = none ∧ v' = v) ∨
        (v.threads.find? id).isSome ∧ avail (.thread id) = true ∧
          v' = v.updateThread id f hf := by
  simp only [returns_perform, Stmt.direct]
  cases v.threads.find? id <;> cases avail (.thread id) <;> simp [Prod.ext_iff, eq_comm]

/-! ## Errors -/

/-- The connection for a transaction that fails: the database is as before. -/
theorem run_error_iff {p : Txn α} {e : Err} :
    engine.run avail p v = some (.error e, v') ↔ p.Raises avail v e ∧ v' = v := by
  rw [run_eq_eval, Raises]
  cases p.eval avail v with
  | none => simp
  | some r => cases r <;> simp [Prod.ext_iff, eq_comm]

@[simp] theorem raises_ret {a : α} {e : Err} : ¬ Raises avail (.ret a) v e := by
  simp [Raises, eval]

@[simp] theorem raises_throw {e e' : Err} :
    Raises (α := α) avail (.throw e) v e' ↔ e' = e := by
  simp [Raises, eval, eq_comm]

/-- A program fails in its first part, or in its second after the first returned. -/
theorem raises_bind {p : Txn α} {f : α → Txn β} {e : Err} :
    (p >>= f).Raises avail v e ↔
      p.Raises avail v e ∨ ∃ a v₁, p.Returns avail v a v₁ ∧ (f a).Raises avail v₁ e := by
  simp only [Raises, Returns, eval_bind]
  cases p.eval avail v with
  | none => simp
  | some r =>
      cases r with
      | error e' => simp
      | ok x =>
          simp only [Option.some.injEq, Except.ok.injEq, reduceCtorEq, false_or]
          exact ⟨fun h => ⟨x.1, x.2, rfl, h⟩, fun ⟨a, v₁, h, hf⟩ => by rw [h]; exact hf⟩

/-- The only error of a statement is a violated unique index. -/
theorem direct_error {s : Stmt α} {e : Err} (h : s.direct avail v = some (.error e)) :
    e = .integrity := by
  cases s <;> simp only [Stmt.direct] at h <;> (repeat' split at h) <;>
    simp only [Option.some.injEq, Except.error.injEq, reduceCtorEq] at h
  exact h.symm

/-- A program raises what it throws, or fails in a statement. -/
theorem Throws.raises {E : Err → Prop} {p : Txn α} {e : Err} (hp : Prog.Throws E p)
    (hE : E .integrity) (h : p.Raises avail v e) : E e := by
  induction p generalizing v with
  | ret => exact absurd h raises_ret
  | throw e' =>
      obtain rfl := raises_throw.1 h
      exact hp
  | stmt s k ih =>
      simp only [Raises, eval] at h
      split at h
      · cases h
      · next e' he =>
          obtain rfl := Except.error.inj (Option.some.inj h)
          exact direct_error he ▸ hE
      · next b _ _ => exact ih b (hp b) h

end Txn

end GraphHarbor
