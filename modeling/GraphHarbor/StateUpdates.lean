import Mathlib.Data.String.Basic
import Mathlib.Order.OrderDual
import GraphHarbor.Footprint
import GraphHarbor.Reaper

/-!
# State updates

`threads_update_state` hands the update to `graph.aupdate_state`, which reads the head of
the thread's root namespace and, in a transaction of its own, writes a checkpoint with
that head as parent. The writer of `checkpoint.py` refuses while a run is executing; it
does not look at what was committed since the read. So the parent of an update is the
head at its commit exactly when no checkpoint above the head it read was committed in
between.
-/

namespace GraphHarbor

open Kit Txn

variable {now : Time} {v v' : Db} {avail : Lock → Bool} {t : ThreadId} {K : Kind → Prop}
  {α : Type}

/-! ## The head of a thread -/

/-- A checkpoint of the root namespace of the thread. -/
def CheckpointRow.isRoot (t : ThreadId) (c : CheckpointRow) : Bool :=
  c.scope = .thread t && c.checkpointNs = ""

/-- `ORDER BY checkpoint_id DESC`. -/
def CheckpointRow.descending (c : CheckpointRow) : Stringᵒᵈ := OrderDual.toDual c.checkpointId

/-- The latest root checkpoint of the thread, which `aget_tuple` reads without a
`checkpoint_id`. -/
def Db.head (v : Db) (t : ThreadId) : Option String :=
  (least CheckpointRow.descending (v.checkpoints.rows.filter (·.isRoot t))).map (·.checkpointId)

/-- `id` is a root checkpoint of the thread. -/
def Db.HasRoot (v : Db) (t : ThreadId) (id : String) : Prop :=
  ∃ c ∈ v.checkpoints, c.isRoot t = true ∧ c.checkpointId = id

theorem Db.hasRoot_iff_mem {id : String} : v.HasRoot t id ↔
    ∃ c ∈ v.checkpoints.rows.filter (·.isRoot t), c.checkpointId = id := by
  simp only [HasRoot, List.mem_filter, Table.mem_rows, and_assoc]

theorem Db.head_eq_none : v.head t = none ↔ ∀ id, ¬v.HasRoot t id := by
  simp only [head, Option.map_eq_none_iff, least_eq_none, hasRoot_iff_mem]
  constructor
  · intro h id
    simp [h]
  · intro h
    refine List.eq_nil_iff_forall_not_mem.2 fun c hc => ?_
    exact h c.checkpointId ⟨c, hc, rfl⟩

theorem Db.head_eq_some {id : String} :
    v.head t = some id ↔ v.HasRoot t id ∧ ∀ x, v.HasRoot t x → x ≤ id := by
  have hleast {m : String} (h : v.head t = some m) :
      v.HasRoot t m ∧ ∀ x, v.HasRoot t x → x ≤ m := by
    obtain ⟨c, hc, rfl⟩ := Option.map_eq_some_iff.1 h
    refine ⟨Db.hasRoot_iff_mem.2 ⟨c, least_mem hc, rfl⟩, fun x hx => ?_⟩
    obtain ⟨c', hc', rfl⟩ := Db.hasRoot_iff_mem.1 hx
    have hle : c.descending ≤ c'.descending := least_le hc hc'
    exact OrderDual.toDual_le_toDual.1 hle
  refine ⟨hleast, fun ⟨hid, hmax⟩ => ?_⟩
  cases hm : v.head t with
  | none => exact absurd hid (Db.head_eq_none.1 hm id)
  | some m =>
      -- two ids that are both greatest are equal
      obtain ⟨hroot, hle⟩ := hleast hm
      rw [le_antisymm (hmax m hroot) (hle id hid)]

/-- A checkpoint that is written adds its id to the root checkpoints of its thread. -/
theorem Db.hasRoot_upsert {c : CheckpointRow} {id : String}
    (h : v'.checkpoints = v.checkpoints.upsert c) :
    v'.HasRoot t id ↔ v.HasRoot t id ∨ c.isRoot t = true ∧ c.checkpointId = id := by
  simp only [HasRoot, h, Table.mem_upsert]
  constructor
  · rintro ⟨x, rfl | ⟨hx, -⟩, hroot, rfl⟩
    · exact .inr ⟨hroot, rfl⟩
    · exact .inl ⟨x, hx, hroot, rfl⟩
  · rintro (⟨x, hx, hroot, rfl⟩ | ⟨hroot, rfl⟩)
    · by_cases hkey : Keyed.key x = Keyed.key c
      · -- the row is replaced by one with the same id
        obtain ⟨hscope, hns, hid⟩ : x.scope = c.scope ∧ x.checkpointNs = c.checkpointNs ∧
            x.checkpointId = c.checkpointId := by simpa [Keyed.key] using hkey
        refine ⟨c, .inl rfl, ?_, hid.symm⟩
        rwa [CheckpointRow.isRoot, ← hscope, ← hns]
      · exact ⟨x, .inr ⟨hx, hkey⟩, hroot, rfl⟩
    · exact ⟨c, .inl rfl, hroot, rfl⟩

/-- `aput` writes one checkpoint. -/
theorem aput_checkpoints {token : Option WriterToken} {requested : Option RunId}
    {row : CheckpointRow} {u : Unit} (h : (aput now token requested row).Returns avail v u v') :
    v'.checkpoints = v.checkpoints.upsert { row with metadata := stamped token row.metadata } := by
  simp only [aput, returns_bind, returns_write] at h
  obtain ⟨_, v₁, hwriter, rfl⟩ := h
  -- the writer's baseline is the only other thing that `aput` may write
  have hwithin : (writer now row.scope token requested).Within (· = .baseline) :=
    writer_within rfl
  rw [(hwithin.checkpoints (by simp) hwriter).1]

theorem aputWrites_checkpoints {scope : CheckpointScope} {token : Option WriterToken}
    {requested : Option RunId} {rows : List CheckpointWriteRow} {overwrite : Bool} {u : Unit}
    (h : (aputWrites now token requested scope rows overwrite).Returns avail v u v') :
    v'.checkpoints = v.checkpoints := by
  simp only [aputWrites, returns_bind, returns_write] at h
  obtain ⟨_, v₁, hwriter, rfl⟩ := h
  have hwithin : (writer now scope token requested).Within (· = .baseline) := writer_within rfl
  exact (hwithin.checkpoints (by simp) hwriter).1

/-! ## Updates in progress -/

/-- A call of `threads_update_state` between its read and its write: the head it read, and
how many root checkpoints had been committed by then. -/
structure Update where
  thread : ThreadId
  base : Option String
  since : Nat
  deriving DecidableEq, Repr

/-- The service and the updates in progress. `commits` is a ghost: the threads and ids of
all root checkpoints in the order of their commits. -/
structure Updates where
  world : World
  pending : List Update
  commits : List (ThreadId × String)

/-- The root checkpoint that a step commits. -/
def Step.commits : Step → List (ThreadId × String)
  | .call (.aput _ _ row) (.ok _) =>
      match row.scope with
      | .thread t => if row.checkpointNs = "" then [(t, row.checkpointId)] else []
      | .run _ => []
  | _ => []

/-- Claims, executions and finalisations of runs, and everything else that neither
deletes, prunes nor rolls back checkpoints. -/
def Request.executes : Request → Bool
  | .aput token _ _ => token.isSome
  | .aputWrites token _ _ _ _ => token.isSome
  | q => .checkpoint ∉ q.kinds

/-- The checkpoint of the update `p`, whose parent is the head it read. -/
structure CheckpointRow.Updates (c : CheckpointRow) (p : Update) : Prop where
  root : c.isRoot p.thread = true
  parent : c.parentCheckpointId = p.base

inductive UpdateStep
  | service (l : Step)
  | read (t : ThreadId)
  | put (i : Nat) (row : CheckpointRow) (r : Except Err Reply)

/-- Any number of updates between the transactions of the service. -/
def updates : TSys Updates UpdateStep where
  init u := u.world.db.Fresh ∧ u.pending = [] ∧ u.commits = []
  step u l u' :=
    match l with
    | .service l => (GraphHarbor.service fun q => q.executes = true).step u.world l u'.world ∧
        u'.pending = u.pending ∧ u'.commits = u.commits ++ l.commits
    | .read t =>
        u' = { u with pending := u.pending ++ [⟨t, u.world.db.head t, u.commits.length⟩] }
    | .put i row r => ∃ p, u.pending[i]? = some p ∧ row.Updates p ∧
        (GraphHarbor.service fun _ => True).step u.world (.call (.aput none none row) r) u'.world ∧
        u'.pending = u.pending.eraseIdx i ∧
        u'.commits = u.commits ++ (Step.call (.aput none none row) r).commits

/-- The root checkpoints of the update's thread committed since its read. -/
def Updates.Since (u : Updates) (p : Update) (id : String) : Prop :=
  (p.thread, id) ∈ u.commits.drop p.since

/-- What the update `p` knows: a head, and what was committed after it. -/
structure Updates.Follows (u : Updates) (p : Update) : Prop where
  since : p.since ≤ u.commits.length
  stored : ∀ id, p.base = some id ∨ u.Since p id → u.world.db.HasRoot p.thread id
  above : ∀ id, u.world.db.HasRoot p.thread id →
    (∃ b, p.base = some b ∧ id ≤ b) ∨ u.Since p id

theorem Updates.Follows.head_iff {u : Updates} {p : Update} (h : u.Follows p) :
    u.world.db.head p.thread = p.base ↔ ∀ id, u.Since p id → ∃ b, p.base = some b ∧ id ≤ b := by
  constructor
  · intro hhead id hid
    have hroot := h.stored id (.inr hid)
    cases hbase : p.base with
    | none => exact absurd hroot (Db.head_eq_none.1 (hhead.trans hbase) id)
    | some b => exact ⟨b, rfl, (Db.head_eq_some.1 (hhead.trans hbase)).2 id hroot⟩
  · intro hsince
    have hle (id : String) (hid : u.world.db.HasRoot p.thread id) :
        -- what is stored was below the head at the read or came later
        ∃ b, p.base = some b ∧ id ≤ b := (h.above id hid).elim (fun hb => hb) (hsince id)
    cases hbase : p.base with
    | none =>
        refine Db.head_eq_none.2 fun id hid => ?_
        obtain ⟨b, hb, -⟩ := hle id hid
        rw [hbase] at hb
        cases hb
    | some b =>
        refine Db.head_eq_some.2 ⟨h.stored b (.inl hbase), fun id hid => ?_⟩
        obtain ⟨b', hb', hlt⟩ := hle id hid
        obtain rfl := Option.some.inj (hbase.symm.trans hb')
        exact hlt

/-! ## The invariant -/

/-- The root checkpoints after a step are the old ones and those it commits. -/
def Db.Commits (v v' : Db) (new : List (ThreadId × String)) : Prop :=
  ∀ t id, v'.HasRoot t id ↔ v.HasRoot t id ∨ (t, id) ∈ new

theorem Db.Commits.of_eq (h : v'.checkpoints = v.checkpoints) : v.Commits v' [] := by
  intro t id
  simp [Db.HasRoot, h]

theorem aput_commits {token : Option WriterToken} {requested : Option RunId}
    {row : CheckpointRow} {a : Reply} {u : Unit}
    (h : (aput now token requested row).Returns avail v u v') :
    v.Commits v' (Step.call (.aput token requested row) (.ok a)).commits := by
  intro t id
  rw [Db.hasRoot_upsert (aput_checkpoints h)]
  refine or_congr_right ?_
  simp only [CheckpointRow.isRoot, Step.commits, Bool.and_eq_true, decide_eq_true_eq]
  cases row.scope with
  | run r => simp
  -- only root checkpoints of threads count, and a row names its own
  | thread t' =>
      by_cases hns : row.checkpointNs = ""
      · simp only [hns, if_true, List.mem_singleton, Prod.mk.injEq, CheckpointScope.thread.injEq]
        constructor
        · rintro ⟨⟨ht, -⟩, hid⟩
          exact ⟨ht.symm, hid.symm⟩
        · rintro ⟨ht, hid⟩
          exact ⟨⟨ht.symm, trivial⟩, hid.symm⟩
      · simp [hns]

theorem Request.commits {q : Request} {a : Reply} (hq : q.executes = true)
    (h : (q.program now).Returns avail v a v') :
    v.Commits v' (Step.call q (.ok a)).commits := by
  have hother (hkind : Kind.checkpoint ∉ q.kinds) : v.Commits v' [] :=
    .of_eq ((q.within now).checkpoints hkind h).1
  cases q with
  | aput token requested row =>
      obtain ⟨u, hu, -⟩ := replying_returns.1 h
      exact aput_commits hu
  | aputWrites =>
      obtain ⟨u, hu, -⟩ := replying_returns.1 h
      exact .of_eq (aputWrites_checkpoints hu)
  | _ => exact hother (by simpa [executes] using hq)

theorem service_commits {w w' : World} {l : Step}
    (h : (service fun q => q.executes = true).step w l w') : w.db.Commits w'.db l.commits := by
  rcases service_step h with ⟨d, rfl, rfl⟩ | ⟨q, e, rfl, rfl⟩ |
    ⟨q, a, avail, db', rfl, hq, rfl, hret⟩
  · exact .of_eq rfl
  · have hnone : (Step.call q (.error e)).commits = [] := by cases q <;> rfl
    rw [hnone]
    exact .of_eq rfl
  · exact Request.commits hq hret

theorem put_commits {w w' : World} {row : CheckpointRow} {r : Except Err Reply}
    (h : (service fun _ => True).step w (.call (.aput none none row) r) w') :
    w.db.Commits w'.db (Step.call (.aput none none row) r).commits := by
  rcases service_step h with ⟨d, hl, -⟩ | ⟨q, e, hl, rfl⟩ | ⟨q, a, avail, db', hl, -, rfl, hret⟩
  · cases hl
  · cases hl
    exact .of_eq rfl
  · cases hl
    obtain ⟨u, hu, -⟩ := replying_returns.1 hret
    exact aput_commits hu

variable {u u' : Updates} {p : Update}

/-- An update follows what others commit. -/
theorem Updates.Follows.next (h : u.Follows p) {new : List (ThreadId × String)}
    (hroot : u.world.db.Commits u'.world.db new) (hcommits : u'.commits = u.commits ++ new) :
    u'.Follows p := by
  have hsince (id : String) : u'.Since p id ↔ u.Since p id ∨ (p.thread, id) ∈ new := by
    rw [Since, hcommits, List.drop_append_of_le_length h.since, List.mem_append]
    rfl
  refine ⟨?_, fun id hid => ?_, fun id hid => ?_⟩
  · rw [hcommits, List.length_append]
    have hle := h.since
    omega
  · rw [hroot]
    rcases hid with hbase | hid
    · exact .inl (h.stored id (.inl hbase))
    · exact ((hsince id).1 hid).imp_left fun hold => h.stored id (.inr hold)
  · rcases (hroot _ id).1 hid with hold | hnew
    · exact (h.above id hold).imp_right fun hid => (hsince id).2 (.inl hid)
    · exact .inr ((hsince id).2 (.inr hnew))

/-- An update that has just read the head. -/
theorem Updates.follows_read {pending : List Update} :
    ({ u with pending := pending } : Updates).Follows
      ⟨t, u.world.db.head t, u.commits.length⟩ := by
  have hnone (id : String) : ¬(t, id) ∈ u.commits.drop u.commits.length := by simp
  refine ⟨le_rfl, fun id hid => ?_, fun id hid => ?_⟩
  · rcases hid with hbase | hid
    · exact (Db.head_eq_some.1 hbase).1
    · exact absurd hid (hnone id)
  · cases hhead : u.world.db.head t with
    | none => exact absurd hid (Db.head_eq_none.1 hhead id)
    | some b => exact .inl ⟨b, rfl, (Db.head_eq_some.1 hhead).2 id hid⟩

theorem follows_inductive : updates.Inductive fun u => ∀ p ∈ u.pending, u.Follows p where
  init u hu := by
    obtain ⟨-, hpending, -⟩ := hu
    -- an update that read before keeps what it knows, one that reads now knows the head
    simp [hpending]
  step u l u' h hstep := by
    cases l with
    | service l =>
        obtain ⟨hstep, hpending, hcommits⟩ := hstep
        intro p hp
        rw [hpending] at hp
        exact (h p hp).next (service_commits hstep) hcommits
    | read t =>
        obtain rfl := hstep
        intro p hp
        rcases List.mem_append.1 hp with hp | hp
        · have hold := h p hp
          exact ⟨hold.since, hold.stored, hold.above⟩
        · obtain rfl := List.mem_singleton.1 hp
          exact Updates.follows_read
    | put i row r =>
        obtain ⟨p, -, -, hstep, hpending, hcommits⟩ := hstep
        intro p' hp'
        rw [hpending] at hp'
        exact (h p' (List.mem_of_mem_eraseIdx hp')).next (put_commits hstep) hcommits

/-! ## The law -/

/-- A failing update adds no checkpoint. A successful one commits a checkpoint whose
parent is the head at that moment exactly when no root checkpoint of the thread that was
committed since its read has an id above the head it read. -/
theorem state_update_kept_iff (u : Updates) (hreach : updates.Reachable u) (i : Nat)
    (row : CheckpointRow) (r : Except Err Reply) (u' : Updates)
    (hstep : updates.step u (.put i row r) u') :
    (∀ e, r = .error e → u'.world = u.world) ∧
    ∀ a, r = .ok a → row ∈ u'.world.db.checkpoints ∧ ∃ p, u.pending[i]? = some p ∧
      (row.parentCheckpointId = u.world.db.head p.thread ↔
        ∀ id, u.Since p id → ∃ b, p.base = some b ∧ id ≤ b) := by
  obtain ⟨p, hp, hrow, hstep, -, -⟩ := hstep
  refine ⟨fun e he => ?_, fun a ha => ?_⟩
  -- a failed transaction leaves the database as it was
  · subst he
    rcases service_step hstep with ⟨d, hl, -⟩ | ⟨q, e, hl, hw⟩ | ⟨q, a, _, _, hl, -⟩
    · cases hl
    · exact hw
    · cases hl
  · subst ha
    obtain ⟨avail, db', hw, hret⟩ := service_commit hstep
    obtain ⟨x, hx, -⟩ := replying_returns.1 hret
    refine ⟨?_, p, hp, ?_⟩
    · rw [hw, aput_checkpoints hx, Table.mem_upsert]
      exact .inl rfl
    · have hfollows := follows_inductive.invariant u hreach p (List.mem_of_getElem? hp)
      -- the parent is the head that was read, by the shape of the row
      rw [← hfollows.head_iff, hrow.parent]
      exact eq_comm

/-! ## Two updates -/

/-- An input of a script of updates on thread 1: a read, or the write `id` of the first
update in progress. -/
inductive UpdateInput
  | read
  | put (id : String)

/-- The checkpoint that the update `p` writes as `id`. -/
def Update.row (p : Update) (id : String) : CheckpointRow where
  scope := .thread p.thread
  checkpointNs := ""
  checkpointId := id
  parentCheckpointId := p.base

theorem Update.row_updates (p : Update) (id : String) : (p.row id).Updates p :=
  ⟨by simp [CheckpointRow.isRoot, row], rfl⟩

def Updates.next (u : Updates) : UpdateInput → Option Updates
  | .read => some { u with pending := u.pending ++ [⟨1, u.world.db.head 1, u.commits.length⟩] }
  | .put id => do
      let p ← u.pending[0]?
      let (l, w) ← u.world.next (.call (.aput none none (p.row id)))
      some ⟨w, u.pending.eraseIdx 0, u.commits ++ l.commits⟩

theorem Updates.next_step {i : UpdateInput} (h : u.next i = some u') :
    ∃ l, updates.step u l u' := by
  cases i with
  | read =>
      obtain rfl := Option.some.inj h
      exact ⟨.read 1, rfl⟩
  | put id =>
      obtain ⟨p, hp, h⟩ := Option.bind_eq_some_iff.1 h
      obtain ⟨⟨l, w⟩, hnext, h⟩ := Option.bind_eq_some_iff.1 h
      obtain rfl := Option.some.inj h
      have hstep := World.next_step hnext
      obtain ⟨⟨r, db⟩, -, heq⟩ := Option.map_eq_some_iff.1 hnext
      obtain ⟨rfl, -⟩ := Prod.mk.inj heq
      exact ⟨.put 0 (p.row id) r, p, hp, p.row_updates id, hstep, rfl, rfl⟩

/-- The first update in progress read this head, the head is now this one, and writing
`id` will succeed. -/
def Updates.ready (base head : Option String) (id : String) (u : Updates) : Bool :=
  match u.pending with
  | p :: _ => p.thread = 1 && p.base = base && u.world.db.head 1 = head &&
      match (Request.aput none none (p.row id)).run unlocked u.world.clock u.world.db with
      | some (.ok _, _) => true
      | _ => false
  | [] => false

theorem Updates.put_of_ready {base head : Option String} {id : String}
    (h : u.ready base head id = true) : ∃ p a u', u.pending[0]? = some p ∧ p.base = base ∧
      u.world.db.head p.thread = head ∧ updates.step u (.put 0 (p.row id) (.ok a)) u' := by
  unfold ready at h
  split at h
  · next p rest hpending =>
      simp only [Bool.and_eq_true, decide_eq_true_eq] at h
      obtain ⟨⟨⟨hthread, hbase⟩, hhead⟩, hrun⟩ := h
      split at hrun
      · next a db hput =>
          have hp : u.pending[0]? = some p := by simp [hpending]
          refine ⟨p, a, ⟨{ u.world with db := db }, u.pending.eraseIdx 0, _⟩, hp, hbase,
            hthread ▸ hhead, p, hp, p.row_updates id, ⟨trivial, unlocked, db, hput, rfl⟩, rfl, rfl⟩
      · cases hrun
  · cases h

/-- No checkpoint was written yet. -/
def Updates.started : Updates := ⟨⟨twoThreads, 0⟩, [], []⟩

theorem Updates.play_reachable {inputs : List UpdateInput} {check : Updates → Bool}
    (h : (TSys.play Updates.next started inputs).any check = true) :
    ∃ u, updates.Reachable u ∧ check u = true :=
  TSys.play_reachable (fun _ _ _ h => Updates.next_step h) ⟨Db.fresh_fresh _ _, rfl, rfl⟩ h

/-- An update that reads the head after the other one was written is kept. -/
theorem state_update_kept_second : ∃ (u : Updates) (p : Update) (a : Reply) (u' : Updates),
    updates.Reachable u ∧ updates.step u (.put 0 (p.row "2") (.ok a)) u' ∧ p.base = some "1" ∧
    (p.row "2").parentCheckpointId = u.world.db.head p.thread ∧
    p.row "2" ∈ u'.world.db.checkpoints := by
  obtain ⟨u, hreach, hready⟩ : ∃ u, updates.Reachable u ∧
      u.ready (some "1") (some "1") "2" = true :=
    Updates.play_reachable
      (show (TSys.play Updates.next .started [.read, .put "1", .read]).any _ = true by
        decide +kernel)
  obtain ⟨p, a, u', -, hbase, hhead, hstep⟩ := Updates.put_of_ready hready
  obtain ⟨-, hput⟩ := state_update_kept_iff u hreach 0 (p.row "2") (.ok a) u' hstep
  exact ⟨u, p, a, u', hreach, hstep, hbase, hbase.trans hhead.symm, (hput a rfl).1⟩

/-- Two updates read the same head; both succeed, and the second is not based on the
first. -/
theorem state_update_lost : ∃ (u : Updates) (p : Update) (a : Reply) (u' : Updates),
    updates.Reachable u ∧ updates.step u (.put 0 (p.row "2") (.ok a)) u' ∧ u.pending[0]? = some p ∧
    (p.row "2").parentCheckpointId ≠ u.world.db.head p.thread := by
  obtain ⟨u, hreach, hready⟩ : ∃ u, updates.Reachable u ∧
      u.ready none (some "1") "2" = true :=
    Updates.play_reachable
      (show (TSys.play Updates.next .started [.read, .read, .put "1"]).any _ = true by
        decide +kernel)
  obtain ⟨p, a, u', hp, hbase, hhead, hstep⟩ := Updates.put_of_ready hready
  refine ⟨u, p, a, u', hreach, hstep, hp, ?_⟩
  rw [hhead]
  exact fun hparent => by cases hbase.symm.trans hparent

end GraphHarbor
