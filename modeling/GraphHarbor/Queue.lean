import GraphHarbor.Attribution
import GraphHarbor.Places

/-!
# The queue of a thread

Three places of the source order the pending runs of a thread: `runs_queue` reads them
`ORDER BY queue_position, created_at, run_id`, `claim_next` refuses a run while one of a
smaller rank is pending, and `create` numbers a new run behind the largest position of its
thread. They agree because the positions of a thread are positive and distinct in every
state, so that a queue edit, which compares the expected list with the stored one, is a
compare-and-swap on the order in which the runs will start.
-/

namespace GraphHarbor

open Kit Txn

variable {now : Time} {v v' w : Db} {avail : Lock → Bool} {x y : RunId} {t : ThreadId}
  {ids expected requested : List RunId}

/-! ## The order of the starts -/

/-- The `queue_position` of a stored run. -/
def Db.position (v : Db) (x : RunId) : Option Nat := (v.runs.find? x).bind (·.queuePosition)

/-- `ids` are the queued runs of `t` in the order in which `claim_next` starts them: it
refuses each of them while one before it is pending. -/
structure Db.StartOrder (v : Db) (t : ThreadId) (ids : List RunId) : Prop where
  nodup : ids.Nodup
  mem : ∀ x, x ∈ ids ↔ ∃ r, v.runs.find? x = some r ∧ isQueued t r = true
  order : ids.Pairwise fun x y => ∀ a b, v.runs.find? x = some a → v.runs.find? y = some b →
    precedes t b a = true

/-- The positions are positive, and distinct within a thread. -/
structure Db.Placed (v : Db) : Prop where
  positive : ∀ r ∈ v.runs, ∃ n, r.queuePosition = some (n + 1)
  distinct : ∀ r ∈ v.runs, ∀ s ∈ v.runs, r.threadId.isSome → s.threadId = r.threadId →
    s.queuePosition = r.queuePosition → s.runId = r.runId

theorem isQueued_iff {r : RunRow} : isQueued t r = true ↔
    r.threadId = some t ∧ r.status = .pending ∧ resumeKey r = false := by
  simp [isQueued, and_assoc]

/-- Of two queued runs the one with the smaller position precedes the other. -/
theorem precedes_of_lt {a b : RunRow} (ha : isQueued t a = true) (hb : isQueued t b = true)
    (hne : a.runId ≠ b.runId)
    (hlt : a.queuePosition.getD 0 < b.queuePosition.getD 0) : precedes t b a = true := by
  obtain ⟨hthread, hpending, hresume⟩ := isQueued_iff.1 ha
  obtain ⟨-, -, hresume'⟩ := isQueued_iff.1 hb
  have hkey : queueKey a < queueKey b := by
    simp only [queueKey, hresume, hresume', Prod.Lex.toLex_lt_toLex]
    exact .inr ⟨trivial, .inl hlt⟩
  simp only [precedes, Bool.and_eq_true, decide_eq_true_eq]
  exact ⟨⟨⟨hthread, hpending⟩, hne⟩, hkey⟩

theorem precedes_asymm {a b : RunRow} (h : precedes t b a = true) : precedes t a b = false := by
  simp only [precedes, Bool.and_eq_true, decide_eq_true_eq] at h
  have hkey : ¬ queueKey b < queueKey a := h.2.le.not_gt
  simp [precedes, hkey]

/-- There is one order of the starts. -/
theorem Db.StartOrder.unique {ids' : List RunId} (h : v.StartOrder t ids)
    (h' : v.StartOrder t ids') : ids = ids' := by
  have hperm : ids.Perm ids' :=
    (List.perm_ext_iff_of_nodup h.nodup h'.nodup).2 fun x => (h.mem x).trans (h'.mem x).symm
  refine hperm.eq_of_pairwise (fun x y hx hy hxy hyx => ?_) h.order h'.order
  obtain ⟨a, ha, -⟩ := (h.mem x).1 hx
  obtain ⟨b, hb, -⟩ := (h'.mem y).1 hy
  have hba := precedes_asymm (hxy a b ha hb)
  rw [hyx b a hb ha] at hba
  exact absurd hba (by simp)

/-! ## The rows that `runs_queue` reads -/

namespace Db.Placed

variable {a b : RunRow}

/-- The order of the endpoint is the order of the positions. -/
theorem lt_of_le (h : v.Placed) (ha : a ∈ v.runs) (hb : b ∈ v.runs)
    (hqa : isQueued t a = true) (hqb : isQueued t b = true) (hne : a.runId ≠ b.runId)
    (hle : positionKey a ≤ positionKey b) :
    a.queuePosition.getD 0 < b.queuePosition.getD 0 := by
  obtain ⟨p, hp⟩ := h.positive a ha
  obtain ⟨q, hq⟩ := h.positive b hb
  have hta := (isQueued_iff.1 hqa).1
  have htb := (isQueued_iff.1 hqb).1
  have hpq : p + 1 ≠ q + 1 := by
    intro heq
    refine hne (h.distinct b hb a ha (by simp [htb]) (hta.trans htb.symm) ?_)
    rw [hp, hq, heq]
  simp only [positionKey, hp, hq, Option.isNone_some, Option.getD_some,
    Prod.Lex.toLex_le_toLex] at hle ⊢
  omega

end Db.Placed

/-- The queued rows in the order of the endpoint. -/
def Db.queue (v : Db) (t : ThreadId) : List RunRow :=
  (v.runs.rows.filter (isQueued t)).insertionSort fun a b =>
    decide (positionKey a ≤ positionKey b) = true

theorem Db.mem_queue {r : RunRow} : r ∈ v.queue t ↔ r ∈ v.runs ∧ isQueued t r = true := by
  rw [queue, List.mem_insertionSort, List.mem_filter]
  rfl

theorem Db.queue_sorted : (v.queue t).Pairwise fun a b => positionKey a ≤ positionKey b := by
  have : Std.Total fun a b : RunRow => decide (positionKey a ≤ positionKey b) = true :=
    ⟨fun a b => by simpa using le_total (positionKey a) (positionKey b)⟩
  have : IsTrans RunRow fun a b => decide (positionKey a ≤ positionKey b) = true :=
    ⟨fun a b c hab hbc => by simp only [decide_eq_true_eq] at *; exact hab.trans hbc⟩
  exact (List.pairwise_insertionSort _ _).imp fun h => by simpa using h

theorem Db.queue_nodup : ((v.queue t).map (·.runId)).Nodup :=
  ((List.perm_insertionSort _ _).map _).nodup_iff.2
    ((List.filter_sublist.map _).nodup v.runs.nodup)

/-- The positions grow along the queue. -/
theorem Db.Placed.queue_increasing (h : v.Placed) :
    (v.queue t).Pairwise fun a b => a.queuePosition.getD 0 < b.queuePosition.getD 0 := by
  have hne : (v.queue t).Pairwise fun a b => a.runId ≠ b.runId :=
    List.pairwise_map.1 Db.queue_nodup
  refine (Db.queue_sorted.and hne).imp_of_mem ?_
  intro a b ha hb ⟨hle, hne⟩
  obtain ⟨ha, hqa⟩ := Db.mem_queue.1 ha
  obtain ⟨hb, hqb⟩ := Db.mem_queue.1 hb
  exact h.lt_of_le ha hb hqa hqb hne hle

/-- The endpoint reads the queue in the order of the starts. -/
theorem Db.Placed.queue_order (h : v.Placed) : v.StartOrder t ((v.queue t).map (·.runId)) where
  nodup := Db.queue_nodup
  mem x := by
    rw [List.mem_map]
    constructor
    -- both lists are of the stored queued runs, once by row and once by id
    · rintro ⟨r, hr, rfl⟩
      obtain ⟨hr, hq⟩ := Db.mem_queue.1 hr
      exact ⟨r, Db.mem_runs.1 hr, hq⟩
    · rintro ⟨r, hr, hq⟩
      exact ⟨r, Db.mem_queue.2 ⟨Table.mem_of_find? hr, hq⟩, Table.key_of_find? hr⟩
  order := by
    rw [List.pairwise_map]
    have hne : (v.queue t).Pairwise fun a b => a.runId ≠ b.runId :=
      List.pairwise_map.1 Db.queue_nodup
    refine (h.queue_increasing.and hne).imp_of_mem ?_
    intro a b ha hb ⟨hlt, hne⟩ a' b' ha' hb'
    obtain ⟨ha, hqa⟩ := Db.mem_queue.1 ha
    obtain ⟨hb, hqb⟩ := Db.mem_queue.1 hb
    obtain rfl := Option.some.inj ((Db.mem_runs.1 ha).symm.trans ha')
    obtain rfl := Option.some.inj ((Db.mem_runs.1 hb).symm.trans hb')
    exact precedes_of_lt hqa hqb hne hlt

/-- The positions that a reorder hands out are those of the queue, in its order. -/
theorem Db.Placed.queuePositions_eq (h : v.Placed) :
    queuePositions (v.queue t) = (v.queue t).map fun r => r.queuePosition.getD 0 := by
  have hsorted : ((v.queue t).map fun r => r.queuePosition.getD 0).Pairwise (· ≤ ·) :=
    List.pairwise_map.2 (h.queue_increasing.imp le_of_lt)
  refine Eq.trans (congrArg (List.insertionSort (· ≤ ·)) ?_) hsorted.insertionSort_eq
  -- every position is positive, so no index is used
  rw [← List.zipIdx_map_fst 0 (v.queue t), List.map_map, List.zipIdx_map_fst]
  refine List.map_congr_left fun ⟨r, i⟩ hr => ?_
  have hr : r ∈ v.queue t := List.fst_mem_of_mem_zipIdx hr
  obtain ⟨n, hn⟩ := h.positive r (Db.mem_queue.1 hr).1
  simp [hn]

/-! ## Acceptance -/

/-- What an accepted request does with the rows it compared. -/
def queueEdit (now : Time) (operation : QueueOperation) (requested : List RunId)
    (rows : List RunRow) : Txn Unit :=
  match operation with
  | .reorder => assignPositions (requested.zip (queuePositions rows))
  | .cancel => interruptAll now requested

/-- The expected list is the stored queue, and no row of it is locked. -/
def Db.Accepts (v : Db) (avail : Lock → Bool) (t : ThreadId) (expected : List RunId) : Prop :=
  (v.queue t).map (·.runId) = expected ∧ ∀ x ∈ expected, avail (.run x) = true

variable {operation : QueueOperation} {u : Unit}

/-- The rows of the queue that `SKIP LOCKED` returns. -/
def Db.unlockedQueue (v : Db) (avail : Lock → Bool) (t : ThreadId) : List RunRow :=
  (v.runs.rows.filter fun r => isQueued t r && avail (.run r.runId)).insertionSort fun a b =>
    decide (positionKey a ≤ positionKey b) = true

theorem Db.filter_unlocked :
    v.runs.rows.filter (fun r => isQueued t r && avail (.run r.runId)) =
      (v.runs.rows.filter (isQueued t)).filter fun r => avail (.run r.runId) := by
  rw [List.filter_filter]
  exact List.filter_congr fun _ _ => Bool.and_comm _ _

theorem Db.unlockedQueue_eq (h : ∀ r ∈ v.queue t, avail (.run r.runId) = true) :
    v.unlockedQueue avail t = v.queue t := by
  rw [unlockedQueue, Db.filter_unlocked, List.filter_eq_self.2, Db.queue]
  intro r hr
  exact h r (by rwa [Db.queue, List.mem_insertionSort])

theorem Db.length_unlockedQueue :
    (v.runs.rows.filter (isQueued t)).length = (v.unlockedQueue avail t).length ↔
      ∀ r ∈ v.queue t, avail (.run r.runId) = true := by
  rw [unlockedQueue, List.length_insertionSort, Db.filter_unlocked, eq_comm,
    List.length_filter_eq_length_iff]
  simp only [Db.queue, List.mem_insertionSort]

/-- The count and the list agree with the rows read exactly on the accepted states. -/
theorem Db.accepts_iff : v.Accepts avail t expected ↔
    (v.runs.rows.filter (isQueued t)).length = (v.unlockedQueue avail t).length ∧
      (v.unlockedQueue avail t).map (·.runId) = expected := by
  rw [Db.length_unlockedQueue]
  constructor
  · rintro ⟨rfl, havail⟩
    have hall (r : RunRow) (hr : r ∈ v.queue t) : avail (.run r.runId) = true :=
      havail _ (List.mem_map_of_mem hr)
    exact ⟨hall, by rw [Db.unlockedQueue_eq hall]⟩
  · rintro ⟨hall, rfl⟩
    rw [Db.unlockedQueue_eq hall]
    refine ⟨rfl, fun x hx => ?_⟩
    obtain ⟨r, hr, rfl⟩ := List.mem_map.1 hx
    exact hall r hr

theorem Txn.Returns.eval_bind {α β : Type} {p : Txn α} {f : α → Txn β} {a : α}
    (h : p.Returns avail v a v') : (p >>= f).eval avail v = (f a).eval avail v' := by
  rw [Txn.eval_bind, show p.eval avail v = _ from h]

/-- The comparison decides between the edit and the refusal. -/
theorem runsQueue_eval (now : Time) (operation : QueueOperation) (expected requested : List RunId)
    (hstored : (v.threads.find? t).isSome) (hlock : avail (.thread t) = true) :
    (v.Accepts avail t expected ∧ (runsQueue now t operation expected requested).eval avail v =
      (queueEdit now operation requested (v.queue t)).eval avail v) ∨
    (¬ v.Accepts avail t expected ∧
      (runsQueue now t operation expected requested).Raises avail v queueChanged) := by
  obtain ⟨thread, hthread⟩ := Option.isSome_iff_exists.1 hstored
  have hlocked : (lockThread t).Returns avail v (some thread) v :=
    returns_lockThread.2 ⟨hthread.symm, rfl, fun _ => hlock⟩
  have hread : Returns avail (.perform (.lockRuns (isQueued t)
      fun a b => positionKey a ≤ positionKey b)) v (v.unlockedQueue avail t) v :=
    returns_lockRuns.2 ⟨rfl, rfl⟩
  have hcount : (query fun db => (db.runs.rows.filter (isQueued t)).length).Returns avail v
      (v.runs.rows.filter (isQueued t)).length v := returns_query.2 ⟨rfl, rfl⟩
  unfold runsQueue
  rw [Txn.Raises, hlocked.eval_bind]
  simp only [hread.eval_bind, hcount.eval_bind]
  split
  -- the rows differ from the stored queue, or `expected` does
  · next hdiffer =>
      refine .inr ⟨fun haccepts => ?_, rfl⟩
      obtain ⟨hlength, hlist⟩ := Db.accepts_iff.1 haccepts
      simp [hlength, hlist] at hdiffer
  · next hsame =>
      simp only [Bool.or_eq_true, decide_eq_true_eq, not_or, not_not] at hsame
      have hall := Db.length_unlockedQueue.1 hsame.1
      exact .inl ⟨Db.accepts_iff.2 hsame, by rw [Db.unlockedQueue_eq hall]; rfl⟩

/-- A committed request was accepted, and is the edit. -/
theorem runsQueue_edit
    (h : (runsQueue now t operation expected requested).Returns avail v u v') :
    (v.threads.find? t).isSome ∧ v.Accepts avail t expected ∧
      (queueEdit now operation requested (v.queue t)).Returns avail v u v' := by
  -- the transaction committed, so the thread was there and free
  have hthread : ∃ thread, v.threads.find? t = some thread ∧ avail (.thread t) = true := by
    have hread := h
    simp only [runsQueue, returns_bind, returns_lockThread] at hread
    obtain ⟨found, _, ⟨hfound, -, hlock⟩, hread⟩ := hread
    cases hfind : v.threads.find? t with
    | none => simp [hfound, hfind] at hread
    | some thread => exact ⟨thread, rfl, hlock (by rw [hfound, hfind]; rfl)⟩
  obtain ⟨thread, hfind, hlock⟩ := hthread
  have hstored : (v.threads.find? t).isSome := by rw [hfind]; rfl
  rcases runsQueue_eval now operation expected requested hstored hlock with
    ⟨haccepts, heq⟩ | ⟨-, hraises⟩
  · exact ⟨hstored, haccepts, heq.symm.trans h⟩
  · rw [Txn.Raises, show _ = _ from h] at hraises
    cases hraises

/-! ## Reorders -/

/-- The runs of `pairs` got their positions, and nothing else changed. -/
structure Db.Positioned (pairs : List (RunId × Nat)) (v v' : Db) : Prop where
  rows : ∀ p ∈ pairs, v'.runs.find? p.1 = (v.runs.find? p.1).map (·.atPosition p.2)
  others : ∀ x ∉ pairs.map Prod.fst, v'.runs.find? x = v.runs.find? x
  rest : v' = { v with runs := v'.runs }

theorem assignPositions_returns {pairs : List (RunId × Nat)} (hnodup : (pairs.map Prod.fst).Nodup)
    (h : (assignPositions pairs).Returns avail v u v') : v.Positioned pairs v' := by
  induction pairs generalizing v with
  | nil =>
      obtain ⟨-, rfl⟩ := returns_ret.1 h
      exact ⟨by simp, fun _ _ => rfl, rfl⟩
  | cons pair pairs ih =>
      obtain ⟨id, position⟩ := pair
      simp only [assignPositions, returns_bind, returns_assignRun] at h
      obtain ⟨_, _, ⟨rfl, -⟩, h⟩ := h
      rw [List.map_cons, List.nodup_cons] at hnodup
      have hrest := ih hnodup.2 h
      have hassign (r : RunRow) : r.assign (.atPosition position) = r.atPosition position := rfl
      refine ⟨fun p hp => ?_, fun x hx => ?_, ?_⟩
      -- the first pair: later ones do not name its run again
      · rcases List.mem_cons.1 hp with rfl | hp
        · rw [hrest.others _ hnodup.1, Db.find?_assignRun, if_pos rfl]
          rfl
        · have hne : p.1 ≠ id := fun heq => hnodup.1 (heq ▸ List.mem_map.2 ⟨p, hp, rfl⟩)
          rw [hrest.rows p hp, Db.find?_assignRun, if_neg hne]
      · rw [List.map_cons, List.mem_cons, not_or] at hx
        rw [hrest.others x hx.2, Db.find?_assignRun, if_neg hx.1]
      · rw [hrest.rest]
        rfl

theorem assignPositions_commits {pairs : List (RunId × Nat)}
    (havail : ∀ p ∈ pairs, avail (.run p.1) = true) :
    ∃ v', (assignPositions pairs).Returns avail v () v' := by
  induction pairs generalizing v with
  | nil => exact ⟨v, returns_ret.2 ⟨rfl, rfl⟩⟩
  | cons pair pairs ih =>
      obtain ⟨v', h⟩ := ih (v := v.assignRun pair.1 (.atPosition pair.2))
        fun p hp => havail p (List.mem_cons_of_mem _ hp)
      refine ⟨v', ?_⟩
      simp only [assignPositions, returns_bind, returns_assignRun]
      exact ⟨(), _, ⟨rfl, fun _ _ => .inr (havail pair List.mem_cons_self)⟩, h⟩

/-- An accepted reorder: `requested` is the order of the starts, its runs exchanged their
positions, and nothing else changed. -/
structure Db.Reordered (t : ThreadId) (requested : List RunId) (v v' : Db) : Prop where
  order : v'.StartOrder t requested
  positions : (requested.map v'.position).Perm (requested.map v.position)
  rows : ∀ x ∈ requested, ∃ r p, v.runs.find? x = some r ∧
    v'.runs.find? x = some (r.atPosition p)
  others : ∀ x ∉ requested, v'.runs.find? x = v.runs.find? x
  rest : v' = { v with runs := v'.runs }

theorem isQueued_atPosition {r : RunRow} {p : Nat} :
    isQueued t (r.atPosition p) = isQueued t r := rfl

theorem Db.position_of_mem {r : RunRow} (hr : r ∈ v.runs) :
    v.position r.runId = r.queuePosition := by
  rw [Db.position, Db.mem_runs.1 hr]
  rfl

/-- The positions of the queue, written to a permutation of it, make that permutation the
order of the starts. -/
theorem Db.Placed.reordered (h : v.Placed) (hnodup : requested.Nodup)
    (hperm : requested.Perm ((v.queue t).map (·.runId)))
    (hwritten : v.Positioned (requested.zip (queuePositions (v.queue t))) v') :
    v.Reordered t requested v' := by
  rw [h.queuePositions_eq] at hwritten
  generalize hpositions : (v.queue t).map (fun r => r.queuePosition.getD 0) = positions at hwritten
  have hlength : requested.length = positions.length := by
    rw [← hpositions, hperm.length_eq, List.length_map, List.length_map]
  have hfst : (requested.zip positions).map Prod.fst = requested :=
    List.map_fst_zip hlength.le
  have hsnd : (requested.zip positions).map Prod.snd = positions :=
    List.map_snd_zip hlength.ge
  -- each requested run is stored, and got the position it is paired with
  have hrow (p : RunId × Nat) (hp : p ∈ requested.zip positions) :
      ∃ r, v.runs.find? p.1 = some r ∧ isQueued t r = true ∧
        v'.runs.find? p.1 = some (r.atPosition p.2) := by
    have hx : p.1 ∈ (v.queue t).map (·.runId) :=
      hperm.subset (hfst ▸ List.mem_map_of_mem hp)
    obtain ⟨r, hr, hq⟩ := (h.queue_order.mem p.1).1 hx
    exact ⟨r, hr, hq, by rw [hwritten.rows p hp, hr]; rfl⟩
  have hpaired (x : RunId) (hx : x ∈ requested) : ∃ p ∈ requested.zip positions, p.1 = x := by
    rw [← hfst] at hx
    exact List.mem_map.1 hx
  have hothers (x : RunId) (hx : x ∉ requested) : v'.runs.find? x = v.runs.find? x :=
    hwritten.others x (hfst.symm ▸ hx)
  have hincreasing : (requested.zip positions).Pairwise fun p q => p.2 < q.2 := by
    rw [← List.pairwise_map (f := Prod.snd) (R := (· < ·)), hsnd, ← hpositions, List.pairwise_map]
    exact h.queue_increasing
  refine ⟨⟨hnodup, fun x => ?_, ?_⟩, ?_, fun x hx => ?_, hothers, hwritten.rest⟩
  · -- the queued runs are those that were queued
    rw [hperm.mem_iff, h.queue_order.mem]
    by_cases hx : x ∈ requested
    · obtain ⟨p, hp, rfl⟩ := hpaired x hx
      obtain ⟨r, hr, hq, hr'⟩ := hrow p hp
      exact ⟨fun _ => ⟨_, hr', hq⟩, fun _ => ⟨r, hr, hq⟩⟩
    · rw [hothers x hx]
  · -- a run placed further back has a larger position
    have hne : (requested.zip positions).Pairwise fun p q => p.1 ≠ q.1 := by
      rw [← List.pairwise_map (f := Prod.fst) (R := (· ≠ ·)), hfst]
      exact hnodup
    rw [← hfst, List.pairwise_map]
    refine (hincreasing.and hne).imp_of_mem ?_
    intro p q hp hq ⟨hlt, hne⟩ a b ha hb
    obtain ⟨r, hr, hqr, hr'⟩ := hrow p hp
    obtain ⟨s, hs, hqs, hs'⟩ := hrow q hq
    obtain rfl := Option.some.inj (hr'.symm.trans ha)
    obtain rfl := Option.some.inj (hs'.symm.trans hb)
    have hids : r.runId ≠ s.runId := by
      rw [show r.runId = p.1 from Table.key_of_find? hr,
        show s.runId = q.1 from Table.key_of_find? hs]
      exact hne
    exact precedes_of_lt (isQueued_atPosition.trans hqr) (isQueued_atPosition.trans hqs) hids hlt
  · -- the new positions are those of the queue, and so were the old ones
    have hnew : requested.map v'.position = positions.map some := by
      suffices hpairs : (requested.zip positions).map (v'.position ∘ Prod.fst) =
          (requested.zip positions).map (some ∘ Prod.snd) by
        rwa [← List.map_map, ← List.map_map, hfst, hsnd] at hpairs
      refine List.map_congr_left fun p hp => ?_
      obtain ⟨r, -, -, hr'⟩ := hrow p hp
      simp only [Function.comp_apply, Db.position, hr']
      rfl
    have hold : ((v.queue t).map (·.runId)).map v.position = positions.map some := by
      rw [← hpositions, List.map_map, List.map_map]
      refine List.map_congr_left fun r hr => ?_
      obtain ⟨hr, -⟩ := Db.mem_queue.1 hr
      obtain ⟨n, hn⟩ := h.positive r hr
      simp only [Function.comp_apply, Db.position_of_mem hr, hn, Option.getD_some]
    rw [hnew, ← hold]
    exact (hperm.map _).symm
  -- a requested run is paired with its position
  · obtain ⟨p, hp, rfl⟩ := hpaired x hx
    obtain ⟨r, hr, -, hr'⟩ := hrow p hp
    exact ⟨r, p.2, hr, hr'⟩

/-! ## Positions over whole runs -/

/-- What `runs_queue` checks of a request before its transaction. -/
structure WellFormed (operation : QueueOperation) (expected requested : List RunId) : Prop where
  expected_nodup : expected.Nodup
  requested_nodup : requested.Nodup
  subset : requested ⊆ expected
  all : operation = .reorder → expected ⊆ requested

/-- Queue requests are well formed. -/
def Request.WellFormed : Request → Prop
  | .runsQueue _ operation expected requested =>
      GraphHarbor.WellFormed operation expected requested
  | _ => True

theorem WellFormed.perm (h : WellFormed .reorder expected requested) : requested.Perm expected :=
  (List.perm_ext_iff_of_nodup h.requested_nodup h.expected_nodup).2 fun _ =>
    ⟨fun hx => h.subset hx, fun hx => h.all rfl hx⟩

namespace Db.Placed

theorem of_places (h : v.Placed) (hplaces : v.SamePlaces v') : v'.Placed := by
  have hsource {r' : RunRow} (hr' : r' ∈ v'.runs) : ∃ r ∈ v.runs, r.runId = r'.runId ∧
      r'.queuePosition = r.queuePosition ∧ r'.threadId = r.threadId := by
    obtain ⟨r, hr, hplace⟩ := hplaces r'.runId r' (Db.mem_runs.1 hr')
    exact ⟨r, Table.mem_of_find? hr, Table.key_of_find? hr, hplace.queuePosition, hplace.threadId⟩
  refine ⟨fun r' hr' => ?_, fun r' hr' s' hs' hthread hsame hposition => ?_⟩
  -- rows that keep their places have the positions of rows before
  · obtain ⟨r, hr, -, hp, -⟩ := hsource hr'
    rw [hp]
    exact h.positive r hr
  · obtain ⟨r, hr, hid, hp, ht⟩ := hsource hr'
    obtain ⟨s, hs, hid', hp', ht'⟩ := hsource hs'
    rw [← hid, ← hid']
    refine h.distinct r hr s hs ?_ ?_ ?_
    · rwa [← ht]
    · rw [← ht, ← ht', hsame]
    · rw [← hp, ← hp', hposition]

/-- A new run stands behind every run of its thread. -/
theorem lt_nextPosition {r : RunRow} {p : Nat} (hr : r ∈ v.runs) (hp : r.queuePosition = some p) :
    p < nextPosition r.threadId v := by
  refine Nat.lt_succ_of_le (Db.le_foldr_max (List.mem_filterMap.2 ⟨r, ?_, hp⟩))
  exact List.mem_filter.2 ⟨hr, by simp⟩

theorem submit (h : v.Placed) {repo : RunRepository} {q : Submission}
    (hsubmit : Submit (q.row repo now (nextPosition q.threadId v)) v v') : v'.Placed := by
  have hbehind {r : RunRow} (hr : r ∈ v.runs) (hthread : r.threadId = q.threadId) :
      r.queuePosition ≠ some (nextPosition q.threadId v) := by
    intro hposition
    have hlt := lt_nextPosition hr hposition
    rw [hthread] at hlt
    exact lt_irrefl _ hlt
  refine ⟨fun r' hr' => ?_, fun r' hr' s' hs' hthread hsame hposition => ?_⟩
  · rcases hsubmit.origin hr' with rfl | ⟨hr, -⟩
    · exact ⟨_, rfl⟩
    · exact h.positive r' hr
  -- the new run stands behind every old one of its thread, two old ones are as before
  · rcases hsubmit.origin hr' with rfl | ⟨hr, -⟩ <;> rcases hsubmit.origin hs' with rfl | ⟨hs, -⟩
    · rfl
    · exact absurd hposition (hbehind hs hsame)
    · exact absurd hposition.symm (hbehind hr hsame.symm)
    · exact h.distinct r' hr s' hs hthread hsame hposition

/-- A reorder exchanges the positions of queued runs, and keeps those of the others. -/
theorem reorder (h : v.Placed) (hreordered : v.Reordered t requested v')
    (hqueued : ∀ x ∈ requested, ∃ r, v.runs.find? x = some r ∧ r.threadId = some t) :
    v'.Placed := by
  have hinside {r' : RunRow} (hr' : r' ∈ v'.runs) (hx : r'.runId ∈ requested) :
      r'.threadId = some t ∧ ∃ z ∈ v.runs, z.runId ∈ requested ∧ z.threadId = some t ∧
        z.queuePosition = r'.queuePosition := by
    -- a position after the reorder is one before it
    obtain ⟨z, hz, hposition⟩ := List.mem_map.1
      (hreordered.positions.subset (List.mem_map_of_mem hx))
    obtain ⟨b, hb, hthread⟩ := hqueued z hz
    obtain ⟨r, p, hr, hnew⟩ := hreordered.rows _ hx
    obtain ⟨r₀, hr₀, hthread'⟩ := hqueued _ hx
    obtain rfl := Option.some.inj (hr.symm.trans hr₀)
    obtain rfl := Option.some.inj (hnew.symm.trans (Db.mem_runs.1 hr'))
    have hid : b.runId = z := Table.key_of_find? hb
    refine ⟨hthread', b, Table.mem_of_find? hb, hid.symm ▸ hz, hthread, ?_⟩
    rw [Db.position_of_mem hr', ← hid, Db.position_of_mem (Table.mem_of_find? hb)] at hposition
    exact hposition
  have houtside {r' : RunRow} (hr' : r' ∈ v'.runs) (hx : r'.runId ∉ requested) : r' ∈ v.runs := by
    rw [Db.mem_runs, hreordered.others _ hx] at hr'
    exact Table.mem_of_find? hr'
  -- distinct positions before give distinct positions after
  have hnodup : (requested.map v'.position).Nodup := by
    refine hreordered.positions.nodup_iff.2 ?_
    refine hreordered.order.nodup.map_on fun x hx y hy hxy => ?_
    obtain ⟨a, ha, hta⟩ := hqueued x hx
    obtain ⟨b, hb, htb⟩ := hqueued y hy
    rw [Db.position, Db.position, ha, hb] at hxy
    have hid := h.distinct b (Table.mem_of_find? hb) a (Table.mem_of_find? ha) (by simp [htb])
      (hta.trans htb.symm) hxy
    rwa [show a.runId = x from Table.key_of_find? ha,
      show b.runId = y from Table.key_of_find? hb] at hid
  have hapart {r' s' : RunRow} (hr' : r' ∈ v'.runs) (hs' : s' ∈ v'.runs)
      (hx : r'.runId ∈ requested) (hy : s'.runId ∉ requested)
      (hsame : s'.threadId = r'.threadId) : s'.queuePosition ≠ r'.queuePosition := by
    intro hposition
    obtain ⟨hthread, z, hz, hmem, hzthread, hzposition⟩ := hinside hr' hx
    have hid := h.distinct z hz s' (houtside hs' hy) (by simp [hzthread])
      (by rw [hsame, hthread, hzthread]) (hposition.trans hzposition.symm)
    exact hy (hid ▸ hmem)
  refine ⟨fun r' hr' => ?_, fun r' hr' s' hs' hthread hsame hposition => ?_⟩
  · by_cases hx : r'.runId ∈ requested
    · obtain ⟨-, z, hz, -, -, hposition⟩ := hinside hr' hx
      exact hposition ▸ h.positive z hz
    · exact h.positive r' (houtside hr' hx)
  -- two requested runs, one requested and one not, two others
  · by_cases hx : r'.runId ∈ requested <;> by_cases hy : s'.runId ∈ requested
    · refine List.inj_on_of_nodup_map hnodup hy hx ?_
      rw [Db.position_of_mem hs', Db.position_of_mem hr', hposition]
    · exact absurd hposition (hapart hr' hs' hx hy hsame)
    · exact absurd hposition.symm (hapart hs' hr' hy hx hsame.symm)
    · exact h.distinct r' (houtside hr' hx) s' (houtside hs' hy) hthread hsame hposition

end Db.Placed

/-- What an accepted request for a reorder did. -/
theorem Db.Placed.reorder_returns (h : v.Placed)
    (hwf : GraphHarbor.WellFormed .reorder expected requested)
    (haccepts : v.Accepts avail t expected)
    (hedit : (queueEdit now .reorder requested (v.queue t)).Returns avail v u v') :
    v.Reordered t requested v' := by
  have hperm : requested.Perm ((v.queue t).map (·.runId)) := haccepts.1 ▸ hwf.perm
  have hlength : requested.length = (queuePositions (v.queue t)).length := by
    rw [h.queuePositions_eq, hperm.length_eq, List.length_map, List.length_map]
  refine h.reordered hwf.requested_nodup hperm (assignPositions_returns ?_ hedit)
  rw [List.map_fst_zip hlength.le]
  exact hwf.requested_nodup

theorem Request.placed {q : Request} {a : Reply} (hq : q.WellFormed) (h : v.Placed)
    (hret : (q.program now).Returns avail v a v') : v'.Placed := by
  -- only a submission and a reorder assign positions
  cases hkeeps : q.keepsPlaces with
  | true => exact h.of_places ((Request.places hkeeps).places hret)
  | false =>
      cases q with
      | runsCreate repo q =>
          obtain ⟨r, hret, -⟩ := replying_returns.1 hret
          rcases runsCreate_numbers hret with rfl | hsubmit
          · exact h
          · exact h.submit hsubmit
      | runsQueue t operation expected requested =>
          cases operation with
          | cancel => cases hkeeps
          | reorder =>
              obtain ⟨u, hret, -⟩ := replying_returns.1 hret
              obtain ⟨-, haccepts, hedit⟩ := runsQueue_edit hret
              refine h.reorder (h.reorder_returns hq haccepts hedit) fun x hx => ?_
              have hmem := (h.queue_order.mem x).1 (haccepts.1 ▸ hq.subset hx)
              obtain ⟨r, hr, hqueued⟩ := hmem
              exact ⟨r, hr, (isQueued_iff.1 hqueued).1⟩
      | _ => cases hkeeps

theorem placed_inductive : (service Request.WellFormed).Inductive fun w => w.db.Placed where
  init w h := ⟨by simp [Db.Fresh.runs h], by simp [Db.Fresh.runs h]⟩
  step w l w' hw h := by
    rcases service_step h with ⟨d, -, rfl⟩ | ⟨q, e, -, rfl⟩ | ⟨q, a, avail, db', -, hq, rfl, hret⟩
    · exact hw
    · exact hw
    · exact Request.placed hq hw hret

/-! ## Terminal events -/

/-- No two stored events clash. -/
def Db.Unique (v : Db) : Prop := v.events.Pairwise fun e e' => e'.clashes e = false

/-- The terminal events of a run. -/
def Db.terminalEvents (v : Db) (x : RunId) : List RuntimeEventRow :=
  v.events.filter fun e => inRun x e && e.terminal

theorem Db.Write.unique {K : Kind → Prop} (hw : v.Write K v') (h : v.Unique) : v'.Unique := by
  cases hw with
  | log e _ unique =>
      refine List.pairwise_append.2 ⟨h, List.pairwise_singleton _ _, ?_⟩
      intro e₀ he₀ e' he'
      obtain rfl := List.mem_singleton.1 he'
      exact Bool.eq_false_iff.2 (List.any_eq_false.1 unique e₀ he₀)
  | dropRun | dropThread => exact h.filter _
  | tables _ keeps =>
      rcases keeps.events with heq | ⟨-, hsub⟩
      · rwa [Db.Unique, heq]
      · exact h.sublist hsub
  | _ => exact h

theorem unique_inductive {allows : Request → Prop} :
    (service allows).Inductive fun w => w.db.Unique where
  init w h := by simp [Db.Unique, Db.Fresh.events h]
  step w l w' hw h := by
    rcases service_step h with ⟨d, -, rfl⟩ | ⟨q, e, -, rfl⟩ | ⟨q, a, avail, db', -, hq, rfl, hret⟩
    · exact hw
    · exact hw
    · exact (q.within w.clock).preserves (fun _ _ hwrite => hwrite.unique) hret hw

/-- A run has at most one terminal event. -/
theorem Db.Unique.terminalEvents_le (h : v.Unique) : (v.terminalEvents x).length ≤ 1 := by
  have hpair : (v.terminalEvents x).Pairwise fun _ _ => False := by
    refine (List.Pairwise.filter _ h).imp_of_mem ?_
    intro e e' he he' hclash
    simp only [List.mem_filter, inRun, Bool.and_eq_true, decide_eq_true_eq] at he he'
    simp [RuntimeEventRow.clashes, he.2.1, he'.2.1, he.2.2, he'.2.2] at hclash
  cases hterminal : v.terminalEvents x with
  | nil => simp
  | cons e rest =>
      rw [hterminal] at hpair
      cases rest with
      | nil => simp
      | cons e' _ => exact absurd List.mem_cons_self (List.rel_of_pairwise_cons hpair)

/-! ## Cancels -/

/-- The runs `ids` were interrupted with a terminal event, and no other run or event
changed. -/
structure Db.Interrupted (ids : List RunId) (v v' : Db) : Prop where
  rows : ∀ x ∈ ids, ∃ r, v'.runs.find? x = some r ∧ r.CancelRequested
  terminal : ∀ x ∈ ids, v'.terminalEvents x ≠ []
  others : ∀ y ∉ ids, v'.runs.find? y = v.runs.find? y
  events : ∀ y ∉ ids, v'.events.filter (inRun y) = v.events.filter (inRun y)
  threads : ∀ t, (v'.threads.find? t).isSome = (v.threads.find? t).isSome

theorem Db.terminalEvents_eq :
    v.terminalEvents x = (v.events.filter (inRun x)).filter (·.terminal) := by
  rw [Db.terminalEvents, List.filter_filter]
  exact List.filter_congr fun _ _ => Bool.and_comm _ _

theorem Db.Interrupted.cons {id : RunId} (h : v.Interrupted [id] v')
    (hrest : v'.Interrupted ids w) : v.Interrupted (id :: ids) w where
  rows x hx := by
    by_cases hmem : x ∈ ids
    · exact hrest.rows x hmem
    · rw [hrest.others x hmem]
      exact h.rows x (by simpa [hmem] using hx)
  terminal x hx := by
    by_cases hmem : x ∈ ids
    · exact hrest.terminal x hmem
    · rw [Db.terminalEvents_eq, hrest.events x hmem, ← Db.terminalEvents_eq]
      exact h.terminal x (by simpa [hmem] using hx)
  others y hy := by
    rw [List.mem_cons, not_or] at hy
    rw [hrest.others y hy.2, h.others y (by simpa using hy.1)]
  events y hy := by
    rw [List.mem_cons, not_or] at hy
    rw [hrest.events y hy.2, h.events y (by simpa using hy.1)]
  threads t := (hrest.threads t).trans (h.threads t)

/-- A terminal event of the run is recorded, and what else the log says stays. -/
theorem recordRunEvent_interrupted {th : Option ThreadId} {topic : String} {payload : Dict}
    {ns : List String} {e : RuntimeEventRow} {r : RunRow} (hr : v.runs.find? x = some r)
    (hcancelled : r.CancelRequested)
    (h : (recordRunEvent now x th topic payload ns true).Returns avail v e v') :
    v.Interrupted [x] v' := by
  have hquiet := recordRunEvent_quiet h
  obtain ⟨r', hr', hq⟩ := hquiet.find? hr
  have hrow : ∃ r', v'.runs.find? x = some r' ∧ r'.CancelRequested :=
    ⟨r', hr', hq.status.trans hcancelled.1, hq.reason.trans hcancelled.2⟩
  obtain ⟨run, -, ⟨-, hterminal, rfl⟩ | ⟨-, he, rfl, -, -⟩⟩ := recordRunEvent_returns h
  · obtain ⟨hmem, hid, hclosed⟩ := Db.terminalEvent_spec hterminal
    refine ⟨by simpa using hrow, fun y hy => ?_, fun _ _ => rfl, fun _ _ => rfl, fun _ => rfl⟩
    obtain rfl := List.mem_singleton.1 hy
    exact List.ne_nil_of_mem (List.mem_filter.2 ⟨hmem, by simp [inRun, hid, hclosed]⟩)
  · have hevents : (v.logged x e).events = v.events ++ [e] := by
      cases hth : e.threadId <;> simp [Db.logged, Db.insertEvent]
    have hrun : e.runId = some x := by rw [he]; rfl
    have hclosed : e.terminal = true := by rw [he]; rfl
    refine ⟨by simpa using hrow, fun y hy => ?_, fun y hy => ?_, fun y hy => ?_, hquiet.threads⟩
    · obtain rfl := List.mem_singleton.1 hy
      refine List.ne_nil_of_mem (a := e) (List.mem_filter.2 ⟨?_, by simp [inRun, hrun, hclosed]⟩)
      rw [hevents]
      exact List.mem_append_right _ List.mem_cons_self
    · have hne : y ≠ x := by simpa using hy
      show ((v.assignThreadOf e.threadId (.numbered e.sequence)).assignRun x
        (.numbered e.sequence)).runs.find? y = v.runs.find? y
      rw [Db.find?_assignRun, if_neg hne, Db.assignThreadOf_runs]
    · have hne : y ≠ x := by simpa using hy
      have hother : inRun y e = false := by simp [inRun, hrun, hne.symm]
      rw [hevents, List.filter_append, List.filter_cons_of_neg (by simp [hother]), List.filter_nil,
        List.append_nil]

theorem cancelRow_interrupted {r : RunRow} (hr : v.runs.find? x = some r)
    (hpending : r.status = .pending)
    (h : (cancelRow now x .interrupt).Returns avail v u v') : v.Interrupted [x] v' := by
  obtain rfl : r.runId = x := Table.key_of_find? hr
  simp only [cancelRow, returns_bind, returns_lockRunIf] at h
  obtain ⟨a, _, ⟨rfl, ⟨rfl, -⟩ | ⟨-, hskip, -⟩⟩, h⟩ := h
  · simp only [hr, Option.filter_some, if_true, interruptRow, hpending,
      RunStatus.isTerminal_pending, Bool.false_eq_true, if_false] at h
    split at h
    · simp at h
    · next change hchange =>
        obtain ⟨rfl, -, -⟩ := transition_eq_some hchange
        simp only [returns_bind, returns_assignRun, deleteLeaseUnless, reduceCtorEq, decide_false,
          Bool.false_eq_true, if_false, Prog.pure_eq, returns_ret] at h
        obtain ⟨_, v₁, ⟨hv₁, -⟩, _, v₂, hlease, e, _, he, -, rfl⟩ := h
        rw [deleteLease_returns hlease] at he
        have hrow : (v₁.deleteLease r.runId).runs.find? r.runId = some (r.assign (.interruptedBy now
            ⟨.interrupted, .cancelRequested, r.retryCount⟩ false)) := by
          show v₁.runs.find? r.runId = _
          rw [hv₁, Db.find?_assignRun, if_pos rfl, hr]
          rfl
        have hrecorded := recordRunEvent_interrupted hrow ⟨rfl, rfl⟩ he
        refine ⟨hrecorded.rows, hrecorded.terminal, fun y hy => ?_, fun y hy => ?_, fun t => ?_⟩
        · rw [hrecorded.others y hy]
          show v₁.runs.find? y = _
          rw [hv₁, Db.find?_assignRun, if_neg (by simpa using hy)]
        · rw [hrecorded.events y hy, hv₁]
          rfl
        · rw [hrecorded.threads t, hv₁]
          rfl
  · cases hskip

theorem interruptAll_interrupted (hnodup : ids.Nodup)
    (hpending : ∀ x ∈ ids, ∃ r, v.runs.find? x = some r ∧ r.status = .pending)
    (h : (interruptAll now ids).Returns avail v u v') : v.Interrupted ids v' := by
  induction ids generalizing v with
  | nil =>
      obtain ⟨-, rfl⟩ := returns_ret.1 h
      exact ⟨by simp, by simp, fun _ _ => rfl, fun _ _ => rfl, fun _ => rfl⟩
  | cons id ids ih =>
      rw [List.nodup_cons] at hnodup
      simp only [interruptAll, returns_bind] at h
      obtain ⟨_, v₁, hcancel, h⟩ := h
      obtain ⟨r, hr, hp⟩ := hpending id List.mem_cons_self
      have hfirst := cancelRow_interrupted hr hp hcancel
      refine hfirst.cons (ih hnodup.2 (fun x hx => ?_) h)
      -- the runs still to be cancelled are as they were
      have hne : x ≠ id := fun heq => hnodup.1 (heq ▸ hx)
      rw [hfirst.others x (by simpa using hne)]
      exact hpending x (List.mem_cons_of_mem _ hx)

/-- The cancel of a pending run waits for the run and its thread, and for nothing else. -/
theorem cancelRow_commits {r : RunRow} (hsound : v.Sound) (hr : v.runs.find? x = some r)
    (hpending : r.status = .pending) (hthread : r.threadId = some t)
    (hstored : (v.threads.find? t).isSome) (hrun : avail (.run x) = true)
    (hlock : avail (.thread t) = true) :
    ∃ v', (cancelRow now x .interrupt).Returns avail v () v' := by
  obtain rfl : r.runId = x := Table.key_of_find? hr
  have hchange : transition .pending .interrupted .cancelRequested r.retryCount =
      some ⟨.interrupted, .cancelRequested, r.retryCount⟩ :=
    transition_accepts (by simp [RunStatus.allowed])
      (hsound.attempts r (Table.mem_of_find? hr)).1 (fun _ => by simp [interruptReasons]) nofun
  let r' : RunRow := r.assign (.interruptedBy now ⟨.interrupted, .cancelRequested, r.retryCount⟩
    false)
  let v₁ : Db := (v.assignRun r.runId (.interruptedBy now
    ⟨.interrupted, .cancelRequested, r.retryCount⟩ false)).deleteLease r.runId
  have hrow : v₁.runs.find? r.runId = some r' := by
    show (v.assignRun r.runId _).runs.find? r.runId = _
    rw [Db.find?_assignRun, if_pos rfl, hr]
    rfl
  have hcancelled : RunMove now (fun _ => False) r r' :=
    .interrupted ⟨⟨rfl, rfl, rfl, rfl, rfl, fun _ _ => rfl⟩, rfl, rfl⟩ (by rw [hpending]; rfl)
      rfl rfl (.inr ⟨rfl, rfl⟩)
  have hmoves : Moves now (fun _ => False) v v₁ :=
    (Moves.assignRun hr hcancelled).trans
      (Moves.of_sameRuns ⟨rfl, rfl, List.Subset.refl _, fun _ h => h⟩)
  have hsound₁ : v₁.Sound := hmoves.sound hsound
  obtain ⟨e, v', he⟩ : ∃ e v', (recordRunEvent now r.runId r'.threadId "lifecycle"
      (lifecycle .interrupted .cancelRequested) [] true).Returns avail v₁ e v' := by
    refine recordRunEvent_possible hsound₁ hrow hrun fun t' ht' => ?_
    obtain rfl : t = t' := Option.some.inj (hthread.symm.trans ht')
    exact ⟨hstored, hlock⟩
  refine ⟨v', ?_⟩
  simp only [cancelRow, returns_bind, returns_lockRunIf]
  refine ⟨some r, v, ⟨rfl, .inl ⟨by rw [hr]; rfl, fun _ => hrun⟩⟩, ?_⟩
  simp only [interruptRow, hpending, RunStatus.isTerminal_pending, Bool.false_eq_true, if_false,
    hchange, returns_bind, returns_assignRun, deleteLeaseUnless, reduceCtorEq, decide_false,
    Prog.pure_eq, returns_ret]
  exact ⟨(), _, ⟨rfl, fun _ _ => .inr hrun⟩, (), v₁, returns_write.2 rfl, e, v', he, trivial, rfl⟩

theorem interruptAll_commits (hsound : v.Sound) (hstored : (v.threads.find? t).isSome)
    (hlock : avail (.thread t) = true) (hnodup : ids.Nodup)
    (hpending : ∀ x ∈ ids, avail (.run x) = true ∧
      ∃ r, v.runs.find? x = some r ∧ r.threadId = some t ∧ r.status = .pending) :
    ∃ v', (interruptAll now ids).Returns avail v () v' := by
  induction ids generalizing v with
  | nil => exact ⟨v, returns_ret.2 ⟨rfl, rfl⟩⟩
  | cons id ids ih =>
      rw [List.nodup_cons] at hnodup
      obtain ⟨hrun, r, hr, hthread, hp⟩ := hpending id List.mem_cons_self
      obtain ⟨v₁, hcancel⟩ : ∃ v₁, (cancelRow now id .interrupt).Returns avail v () v₁ :=
        cancelRow_commits hsound hr hp hthread hstored hrun hlock
      have hmoves : Moves now (fun _ => False) v v₁ := cancelRow_moves hcancel
      have hfirst := cancelRow_interrupted hr hp hcancel
      obtain ⟨v', hrest⟩ : ∃ v', (interruptAll now ids).Returns avail v₁ () v' := by
        refine ih (hmoves.sound hsound) (hfirst.threads t ▸ hstored) hnodup.2 fun x hx => ?_
        have hne : x ≠ id := fun heq => hnodup.1 (heq ▸ hx)
        rw [hfirst.others x (by simpa using hne)]
        exact hpending x (List.mem_cons_of_mem _ hx)
      refine ⟨v', ?_⟩
      simp only [interruptAll, returns_bind]
      exact ⟨(), v₁, hcancel, hrest⟩

/-- An accepted cancel: the runs of `requested` are interrupted with one terminal event
each, the rest of the queue keeps its order, and no other run or event changed. -/
structure Db.Cancelled (t : ThreadId) (expected requested : List RunId) (v v' : Db) : Prop where
  rows : ∀ x ∈ requested, ∃ r, v'.runs.find? x = some r ∧ r.CancelRequested
  terminal : ∀ x ∈ requested, (v'.terminalEvents x).length = 1
  order : v'.StartOrder t (expected.filter (· ∉ requested))
  others : ∀ y ∉ requested, v'.runs.find? y = v.runs.find? y
  events : ∀ y ∉ requested, v'.events.filter (inRun y) = v.events.filter (inRun y)

/-- Interrupted runs leave the queue, and the others keep their order. -/
theorem Db.StartOrder.interrupted (h : v.StartOrder t expected)
    (hcut : v.Interrupted requested v') : v'.StartOrder t (expected.filter (· ∉ requested)) where
  nodup := h.nodup.filter _
  mem x := by
    rw [List.mem_filter, decide_eq_true_eq, h.mem]
    by_cases hx : x ∈ requested
    · obtain ⟨r, hr, hcancelled⟩ := hcut.rows x hx
      constructor
      · exact fun hmem => absurd hx hmem.2
      · rintro ⟨r', hr', hq⟩
        obtain rfl := Option.some.inj (hr.symm.trans hr')
        have hpending := (isQueued_iff.1 hq).2.1
        rw [hcancelled.1] at hpending
        cases hpending
    · rw [hcut.others x hx]
      exact ⟨fun hmem => hmem.1, fun hmem => ⟨hmem, hx⟩⟩
  order := by
    refine (h.order.filter _).imp_of_mem ?_
    intro x y hx hy hprecedes
    have hx : x ∉ requested := by simpa using (List.mem_filter.1 hx).2
    have hy : y ∉ requested := by simpa using (List.mem_filter.1 hy).2
    rw [hcut.others x hx, hcut.others y hy]
    exact hprecedes

/-! ## Runs created later -/

/-- The step is an accepted reorder of the queue of `t`. -/
def Step.Reorders (t : ThreadId) (l : Step) : Prop :=
  ∃ expected requested a, l = .call (.runsQueue t .reorder expected requested) (.ok a)

/-- The run was stored in `v`. -/
def Db.stores (v : Db) (x : RunId) : Bool := (v.runs.find? x).isSome

/-- In the thread `t` the runs that `v` does not store stand behind those it stores. -/
structure Db.Behind (t : ThreadId) (v w : Db) : Prop where
  issued : v.issued ⊆ w.issued
  order : ∀ a ∈ w.runs, ∀ b ∈ w.runs, a.threadId = some t → b.threadId = some t →
    v.stores a.runId = true → v.stores b.runId = false →
    a.queuePosition.getD 0 < b.queuePosition.getD 0

namespace Db.Behind

theorem refl : v.Behind t v where
  issued := List.Subset.refl _
  order a _ b hb _ _ _ hnew := by
    rw [Db.stores, Db.mem_runs.1 hb] at hnew
    cases hnew

/-- Rows of the thread that kept their places keep the order. -/
theorem of_source (h : v.Behind t w) {w' : Db} (hissued : w.issued ⊆ w'.issued)
    (hsource : ∀ r' ∈ w'.runs, r'.threadId = some t → ∃ r ∈ w.runs, r.runId = r'.runId ∧
      r.threadId = some t ∧ r.queuePosition = r'.queuePosition) : v.Behind t w' where
  issued := List.Subset.trans h.issued hissued
  order a' ha' b' hb' hta htb hold hnew := by
    obtain ⟨a, ha, hid, hta, hpa⟩ := hsource a' ha' hta
    obtain ⟨b, hb, hid', htb, hpb⟩ := hsource b' hb' htb
    rw [← hpa, ← hpb]
    exact h.order a ha b hb hta htb (hid ▸ hold) (hid' ▸ hnew)

theorem submit (h : v.Behind t w) (hv : v.Enrolled) (hw : w.Placed) {w' : Db}
    {repo : RunRepository} {q : Submission}
    (hsubmit : Submit (q.row repo now (nextPosition q.threadId w)) w w') : v.Behind t w' where
  issued := List.Subset.trans h.issued (hsubmit.issued ▸ List.subset_append_left _ _)
  order a' ha' b' hb' hta htb hold hnew := by
    have hfresh : q.runId ∉ w.issued := by
      have hdrawn := hsubmit.fresh
      simp only [Db.drawn, Bool.or_eq_false_iff, decide_eq_false_iff_not] at hdrawn
      exact hdrawn.1
    have hunknown : v.stores q.runId = false := by
      refine Bool.eq_false_iff.2 fun hstores => hfresh (h.issued ?_)
      obtain ⟨r, hr⟩ := Option.isSome_iff_exists.1 hstores
      exact hv _ r hr
    rcases hsubmit.origin ha' with rfl | ⟨ha, -⟩
    · -- the new run is not an old one
      rw [show (q.row repo now (nextPosition q.threadId w)).runId = q.runId from rfl,
        hunknown] at hold
      cases hold
    · rcases hsubmit.origin hb' with rfl | ⟨hb, -⟩
      · obtain ⟨n, hn⟩ := hw.positive a' ha
        have hlt := Db.Placed.lt_nextPosition ha hn
        rw [hta] at hlt
        have hthread : q.threadId = some t := htb
        show a'.queuePosition.getD 0 < nextPosition q.threadId w
        rwa [hn, hthread]
      · exact h.order a' ha b' hb hta htb hold hnew

theorem request {q : Request} {a : Reply} (h : v.Behind t w) (hv : v.Enrolled) (hw : w.Placed)
    (hq : q.WellFormed)
    (hother : ∀ expected requested, q ≠ .runsQueue t .reorder expected requested) {w' : Db}
    (hret : (q.program now).Returns avail w a w') : v.Behind t w' := by
  have hissued : w.issued ⊆ w'.issued := (Request.continues hret).issued
  cases hkeeps : q.keepsPlaces with
  | true =>
      have hplaces := (Request.places hkeeps).places hret
      refine h.of_source hissued fun r' hr' hthread => ?_
      obtain ⟨r, hr, hplace⟩ := hplaces r'.runId r' (Db.mem_runs.1 hr')
      exact ⟨r, Table.mem_of_find? hr, Table.key_of_find? hr, hplace.threadId ▸ hthread,
        hplace.queuePosition.symm⟩
  | false =>
      cases q with
      | runsCreate repo q =>
          obtain ⟨r, hret, -⟩ := replying_returns.1 hret
          rcases runsCreate_numbers hret with rfl | hsubmit
          · exact h
          · exact h.submit hv hw hsubmit
      | runsQueue t' operation expected requested =>
          cases operation with
          | cancel => cases hkeeps
          | reorder =>
              -- a reorder of another thread
              have hne : t' ≠ t := fun heq => hother expected requested (heq ▸ rfl)
              obtain ⟨u, hret, -⟩ := replying_returns.1 hret
              obtain ⟨-, haccepts, hedit⟩ := runsQueue_edit hret
              have hreordered := hw.reorder_returns hq haccepts hedit
              refine h.of_source hissued fun r' hr' hthread => ?_
              by_cases hx : r'.runId ∈ requested
              · obtain ⟨r, p, hr, hnew⟩ := hreordered.rows _ hx
                obtain ⟨r₀, hr₀, hqueued⟩ :=
                  (hw.queue_order.mem r'.runId).1 (haccepts.1 ▸ hq.subset hx)
                obtain rfl := Option.some.inj (hr.symm.trans hr₀)
                obtain rfl := Option.some.inj (hnew.symm.trans (Db.mem_runs.1 hr'))
                have hthread' := (isQueued_iff.1 hqueued).1
                exact absurd (Option.some.inj (hthread'.symm.trans hthread)) hne
              · rw [Db.mem_runs, hreordered.others _ hx] at hr'
                exact ⟨r', Table.mem_of_find? hr', rfl, hthread, rfl⟩
      | _ => cases hkeeps

/-- The queue lists the runs that `v` stores before the others. -/
theorem split (h : v.Behind t w) (hids : w.StartOrder t ids) :
    ids = ids.filter v.stores ++ ids.filter fun x => !v.stores x := by
  refine hids.unique ⟨?_, fun x => ?_, ?_⟩
  · refine List.nodup_append.2 ⟨hids.nodup.filter _, hids.nodup.filter _, ?_⟩
    rintro x hx y hy rfl
    simp only [List.mem_filter, Bool.not_eq_true'] at hx hy
    rw [hx.2] at hy
    cases hy.2
  · rw [← hids.mem, List.mem_append, List.mem_filter, List.mem_filter]
    cases v.stores x <;> simp
  · refine List.pairwise_append.2 ⟨hids.order.filter _, hids.order.filter _, ?_⟩
    intro x hx y hy a b ha hb
    simp only [List.mem_filter, Bool.not_eq_true'] at hx hy
    obtain ⟨a₀, ha₀, hqa⟩ := (hids.mem x).1 hx.1
    obtain ⟨b₀, hb₀, hqb⟩ := (hids.mem y).1 hy.1
    obtain rfl := Option.some.inj (ha.symm.trans ha₀)
    obtain rfl := Option.some.inj (hb.symm.trans hb₀)
    have hida : a.runId = x := Table.key_of_find? ha
    have hidb : b.runId = y := Table.key_of_find? hb
    have hold : v.stores a.runId = true := hida ▸ hx.2
    have hnew : v.stores b.runId = false := hidb ▸ hy.2
    have hne : a.runId ≠ b.runId := fun heq => by
      rw [heq, hnew] at hold
      cases hold
    exact precedes_of_lt hqa hqb hne (h.order a (Table.mem_of_find? ha) b (Table.mem_of_find? hb)
      (isQueued_iff.1 hqa).1 (isQueued_iff.1 hqb).1 hold hnew)

end Db.Behind

/-- The runs created in an execution without a reorder of `t`. -/
theorem behind_of_steps {s s' : World} {tr : List Step}
    (hsteps : (service Request.WellFormed).Steps s tr s') (hplaced : s.db.Placed)
    (henrolled : s.db.Enrolled) (hreorders : ∀ l ∈ tr, ¬ l.Reorders t) :
    s'.db.Placed ∧ s.db.Behind t s'.db := by
  induction hsteps with
  | nil => exact ⟨hplaced, .refl⟩
  | snoc hsteps hstep ih =>
      obtain ⟨hplaced', hbehind⟩ := ih fun l hl => hreorders l (List.mem_append_left _ hl)
      have hlast := hreorders _ (List.mem_append_right _ List.mem_cons_self)
      refine ⟨placed_inductive.step _ _ _ hplaced' hstep, ?_⟩
      rcases service_step hstep with ⟨d, -, rfl⟩ | ⟨q, e, -, rfl⟩ |
        ⟨q, a, avail, db', hl, hq, rfl, hret⟩
      · exact hbehind
      · exact hbehind
      · refine hbehind.request henrolled hplaced' hq (fun expected requested heq => ?_) hret
        exact hlast ⟨expected, requested, a, by rw [hl, heq]⟩

/-- The run that a claim starts is the first of its queue. -/
theorem claim_first {repo : RunRepository} {owner : String} {valid : Bool} {r : RunRow}
    (hret : ((Request.claim repo owner valid).program now).Returns avail v (.run (some r)) v')
    (hids : v.StartOrder t ids) (hr : r.runId ∈ ids) : ids.head? = some r.runId := by
  cases Request.effect hret with
  | moves _ hclaim => cases hclaim repo owner valid rfl
  | submit request => cases request
  | @claim _ _ _ run v₁ request hstart hmoves b reply started =>
      rcases started with ⟨rfl, -⟩ | ⟨rfl, -⟩
      · cases reply
      · obtain rfl := Option.some.inj (Reply.run.inj reply)
        have hmem : run.runId ∈ ids := hr
        obtain ⟨run', hrun', hqueued⟩ := (hids.mem _).1 hmem
        obtain rfl := Option.some.inj (hstart.found.symm.trans hrun')
        have heligible := hstart.eligible
        simp only [eligible, (isQueued_iff.1 hqueued).1, Bool.and_eq_true, Bool.not_eq_true',
          List.any_eq_false] at heligible
        cases ids with
        | nil => cases hmem
        | cons x rest =>
            rcases List.mem_cons.1 hmem with heq | hlater
            · exact congrArg some heq.symm
            · -- the head precedes it, and the claim refuses that
              obtain ⟨a, ha, -⟩ := (hids.mem x).1 List.mem_cons_self
              have hprecedes := List.rel_of_pairwise_cons hids.order hlater a run ha hstart.found
              exact absurd hprecedes (heligible.2.2 a (Table.mem_of_find? ha))

/-! ## The law -/

/-- Queue edits are a compare-and-swap on the order of the starts. -/
structure QueueLaw (w : World) : Prop where
  /-- Accepted: the expected list is the order of the starts, and no row of it is locked. -/
  accepts : ∀ t operation expected requested avail, WellFormed operation expected requested →
    (w.db.threads.find? t).isSome → avail (.thread t) = true →
    ((∃ db', (Request.runsQueue t operation expected requested).run avail w.clock w.db =
      some (.ok .done, db')) ↔
        w.db.StartOrder t expected ∧ ∀ x ∈ expected, avail (.run x) = true)
  /-- Otherwise the request is refused. -/
  refuses : ∀ t operation expected requested avail, WellFormed operation expected requested →
    (w.db.threads.find? t).isSome → avail (.thread t) = true →
    ¬ (w.db.StartOrder t expected ∧ ∀ x ∈ expected, avail (.run x) = true) →
    (Request.runsQueue t operation expected requested).run avail w.clock w.db =
      some (.error queueChanged, w.db)
  reorders : ∀ t expected requested avail a db', WellFormed .reorder expected requested →
    (Request.runsQueue t .reorder expected requested).run avail w.clock w.db =
      some (.ok a, db') → w.db.Reordered t requested db'
  cancels : ∀ t expected requested avail a db', WellFormed .cancel expected requested →
    (Request.runsQueue t .cancel expected requested).run avail w.clock w.db =
      some (.ok a, db') → w.db.Cancelled t expected requested db'
  unchanged : ∀ t operation expected requested avail e db',
    (Request.runsQueue t operation expected requested).run avail w.clock w.db =
      some (.error e, db') → db' = w.db
  /-- Until the next reorder the runs created since then come after those stored now. -/
  later : ∀ t tr w' ids, (service Request.WellFormed).Steps w tr w' →
    (∀ l ∈ tr, ¬ l.Reorders t) → w'.db.StartOrder t ids →
    ids = ids.filter w.db.stores ++ ids.filter fun x => !w.db.stores x
  /-- A claim starts the first of them. -/
  starts : ∀ t ids repo owner valid r w', w.db.StartOrder t ids → r.runId ∈ ids →
    (service Request.WellFormed).step w (.call (.claim repo owner valid) (.ok (.run (some r)))) w' →
    ids.head? = some r.runId

/-- What an accepted cancel did. -/
theorem Db.Placed.cancel_returns (h : v.Placed) (hunique : v'.Unique)
    (hwf : GraphHarbor.WellFormed .cancel expected requested)
    (haccepts : v.Accepts avail t expected)
    (hedit : (queueEdit now .cancel requested (v.queue t)).Returns avail v u v') :
    v.Cancelled t expected requested v' := by
  have horder : v.StartOrder t expected := haccepts.1 ▸ h.queue_order
  have hcut : v.Interrupted requested v' := by
    refine interruptAll_interrupted hwf.requested_nodup (fun x hx => ?_) hedit
    obtain ⟨r, hr, hq⟩ := (horder.mem x).1 (hwf.subset hx)
    exact ⟨r, hr, (isQueued_iff.1 hq).2.1⟩
  refine ⟨hcut.rows, fun x hx => ?_, horder.interrupted hcut, hcut.others, hcut.events⟩
  have hpos := List.length_pos_iff.2 (hcut.terminal x hx)
  have hle := hunique.terminalEvents_le (x := x)
  omega

/-- An accepted request commits. -/
theorem queueEdit_commits (hplaced : v.Placed) (hsound : v.Sound)
    (hstored : (v.threads.find? t).isSome) (hlock : avail (.thread t) = true)
    (hwf : WellFormed operation expected requested) (haccepts : v.Accepts avail t expected) :
    ∃ v', (queueEdit now operation requested (v.queue t)).Returns avail v () v' := by
  have horder : v.StartOrder t expected := haccepts.1 ▸ hplaced.queue_order
  cases operation with
  | reorder =>
      refine assignPositions_commits fun p hp => ?_
      exact haccepts.2 _ (hwf.subset (List.of_mem_zip hp).1)
  | cancel =>
      refine interruptAll_commits hsound hstored hlock hwf.requested_nodup fun x hx => ?_
      obtain ⟨r, hr, hq⟩ := (horder.mem x).1 (hwf.subset hx)
      exact ⟨haccepts.2 x (hwf.subset hx), r, hr, (isQueued_iff.1 hq).1, (isQueued_iff.1 hq).2.1⟩

/-- The order of the endpoint is the order of the starts. -/
theorem Db.Placed.accepts_iff (h : v.Placed) : v.Accepts avail t expected ↔
    v.StartOrder t expected ∧ ∀ x ∈ expected, avail (.run x) = true := by
  refine and_congr_left fun _ => ?_
  constructor
  · rintro rfl
    exact h.queue_order
  · exact fun horder => h.queue_order.unique horder

/-- In every state the service reaches. -/
theorem queue_compare_and_swap : (service Request.WellFormed).Invariant QueueLaw := by
  intro w hreach
  have hplaced : w.db.Placed := placed_inductive.invariant w hreach
  have hsound : w.db.Sound := sound_inductive.invariant w hreach
  have hunique : w.db.Unique := unique_inductive.invariant w hreach
  have henrolled : w.db.Enrolled := enrolled_inductive.invariant w hreach
  refine ⟨?_, ?_, ?_, ?_, ?_, ?_, ?_⟩
  · intro t operation expected requested avail hwf hstored hlock
    rw [← hplaced.accepts_iff]
    constructor
    · rintro ⟨db', hrun⟩
      obtain ⟨u, hret, -⟩ := replying_returns.1 (run_ok_iff.1 hrun)
      exact (runsQueue_edit hret).2.1
    · intro haccepts
      obtain ⟨db', hedit⟩ : ∃ db', (queueEdit w.clock operation requested
          (w.db.queue t)).Returns avail w.db () db' :=
        queueEdit_commits hplaced hsound hstored hlock hwf haccepts
      refine ⟨db', run_ok_iff.2 (replying_returns.2 ⟨(), ?_, rfl⟩)⟩
      rcases runsQueue_eval w.clock operation expected requested hstored hlock with
        ⟨-, heq⟩ | ⟨hnot, -⟩
      · exact heq.trans hedit
      · exact absurd haccepts hnot
  · intro t operation expected requested avail hwf hstored hlock hnot
    rw [← hplaced.accepts_iff] at hnot
    rcases runsQueue_eval w.clock operation expected requested hstored hlock with
      ⟨haccepts, -⟩ | ⟨-, hraises⟩
    · exact absurd haccepts hnot
    · exact run_error_iff.2 ⟨raises_bind.2 (.inl hraises), rfl⟩
  · intro t expected requested avail a db' hwf hrun
    obtain ⟨u, hret, -⟩ := replying_returns.1 (run_ok_iff.1 hrun)
    obtain ⟨-, haccepts, hedit⟩ := runsQueue_edit hret
    exact hplaced.reorder_returns hwf haccepts hedit
  · intro t expected requested avail a db' hwf hrun
    have hreturns := run_ok_iff.1 hrun
    have hunique' : db'.Unique := (Request.within _ w.clock).preserves
      (fun _ _ hwrite => hwrite.unique) hreturns hunique
    obtain ⟨u, hret, -⟩ := replying_returns.1 hreturns
    obtain ⟨-, haccepts, hedit⟩ := runsQueue_edit hret
    exact hplaced.cancel_returns hunique' hwf haccepts hedit
  · intro t operation expected requested avail e db' hrun
    exact (run_error_iff.1 hrun).2
  · intro t tr w' ids hsteps hreorders hids
    exact (behind_of_steps hsteps hplaced henrolled hreorders).2.split hids
  · intro t ids repo owner valid r w' hids hr hstep
    obtain ⟨avail, db', -, hret⟩ := service_commit hstep
    exact claim_first hret hids hr

/-- Two runs of a thread exchange their places. -/
example : ((World.mk twoThreads 0).play
    [.call (.runsCreate .default (submission 1 1)), .tick 1,
      .call (.runsCreate .default (submission 2 1)),
      .call (.runsQueue 1 .reorder [1, 2] [2, 1])]).map
        (fun x => (x.2.db.queue 1).map (·.runId)) = some [2, 1] := by
  decide +kernel

end GraphHarbor
