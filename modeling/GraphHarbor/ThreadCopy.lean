import Mathlib.Data.String.Basic
import Mathlib.Data.Int.Order.Basic
import GraphHarbor.Checkpoints
import GraphHarbor.Sequential

/-!
# The copy of a thread

`copy_thread_checkpoints` replays the history of a thread through the writer interface of
the saver, one call for each pending write. The index of a write is its position in the
list of its call, so that every regular write gets index 0, and the saver keeps the first
of them for each task. `taskWrites_copied` says what is left of a task.
-/

namespace GraphHarbor

open Kit

/-! ## The saver -/

/-- The channels whose writes have a fixed negative index: `WRITES_IDX_MAP`. -/
structure SpecialChannels where
  index : String → Option Int
  negative : ∀ {channel i}, index channel = some i → i < 0
  injective : ∀ {channel channel' i}, index channel = some i → index channel' = some i →
    channel = channel'

/-- A channel whose writes are numbered by their position in the call. -/
def SpecialChannels.regular (special : SpecialChannels) (channel : String) : Bool :=
  (special.index channel).isNone

/-- `task_id, channel, value` of a pending write. -/
structure PendingWrite where
  taskId : String
  channel : String
  value : Json
  deriving DecidableEq

/-- A `CheckpointTuple`: the config, the checkpoint, and what belongs to it. -/
structure CheckpointTuple where
  checkpointNs : String
  checkpointId : String
  parentId : Option String
  checkpoint : Json
  metadata : Dict
  pendingWrites : List PendingWrite

def CheckpointWriteRow.pending (w : CheckpointWriteRow) : PendingWrite :=
  ⟨w.taskId, w.channel, w.blob⟩

/-- `ORDER BY task_id, idx`. -/
def CheckpointWriteRow.position (w : CheckpointWriteRow) : String ×ₗ Int :=
  toLex (w.taskId, w.idx)

/-- The writes on a checkpoint, in order. -/
def CheckpointRow.writesIn (c : CheckpointRow) (writes : Table CheckpointWriteRow) :
    List CheckpointWriteRow :=
  (writes.rows.filter fun w => w.scope = c.scope && w.checkpointNs = c.checkpointNs &&
    w.checkpointId = c.checkpointId).insertionSort fun v w => v.position ≤ w.position

/-- `_load_checkpoint_tuple`: an empty parent is none. -/
def CheckpointRow.tuple (c : CheckpointRow) (writes : Table CheckpointWriteRow) :
    CheckpointTuple where
  checkpointNs := c.checkpointNs
  checkpointId := c.checkpointId
  parentId := c.parentCheckpointId.filter (· ≠ "")
  checkpoint := c.checkpoint
  metadata := c.metadata
  pendingWrites := (c.writesIn writes).map (·.pending)

/-- `alist` of a thread: its checkpoints of every namespace, newest first. -/
def alist (db : Db) (t : ThreadId) : List CheckpointTuple :=
  ((db.checkpoints.rows.filter fun c => c.scope = .thread t).insertionSort
    fun b c => c.checkpointId ≤ b.checkpointId).map fun c => c.tuple db.checkpointWrites

/-- The rows of one call of `aput_writes`. -/
def writeRows (special : SpecialChannels) (t : ThreadId) (ns id task : String)
    (writes : List (String × Json)) : List CheckpointWriteRow :=
  writes.zipIdx.map fun w =>
    { scope := .thread t, checkpointNs := ns, checkpointId := id, taskId := task
      idx := (special.index w.1.1).getD w.2, channel := w.1.1, blob := w.1.2 }

/-- `saver.aput_writes(config, writes, task_id)` of a caller without a token. Existing rows
are overwritten when every channel is special. -/
def saverPutWrites (special : SpecialChannels) (now : Time) (t : ThreadId) (ns id : String)
    (writes : List (String × Json)) (task : String) : Txn Unit :=
  aputWrites now none none (.thread t) (writeRows special t ns id task writes)
    (writes.all fun w => !special.regular w.1)

/-! ## The copy -/

/-- The row that `saver.aput(target_config, …)` stores. The parent of the config is set
when there is one. -/
def CheckpointTuple.copyTo (item : CheckpointTuple) (dst : ThreadId) : CheckpointRow where
  scope := .thread dst
  checkpointNs := item.checkpointNs
  checkpointId := item.checkpointId
  parentCheckpointId := item.parentId.filter (· ≠ "")
  checkpoint := item.checkpoint
  metadata := item.metadata

/-- One turn of the loop over the items: the checkpoint, then its writes one by one. -/
def copyItem (special : SpecialChannels) (now : Time) (dst : ThreadId) (item : CheckpointTuple) :
    List (Txn Unit) :=
  aput now none none (item.copyTo dst) ::
    item.pendingWrites.map fun w =>
      saverPutWrites special now dst item.checkpointNs item.checkpointId [(w.channel, w.value)]
        w.taskId

/-- Transactions one after another, up to the first that raises. -/
def runAll (avail : Lock → Bool) : List (Txn Unit) → Db → Option (Except Err Unit × Db)
  | [], db => some (.ok (), db)
  | p :: rest, db =>
      match engine.run avail p db with
      | none => none
      | some (.error e, db) => some (.error e, db)
      | some (.ok (), db) => runAll avail rest db

/-- `copy_thread_checkpoints`. -/
def copyThreadCheckpoints (special : SpecialChannels) (now : Time) (avail : Lock → Bool)
    (src dst : ThreadId) (db : Db) : Option (Except Err Unit × Db) :=
  let items := (alist db src).insertionSort fun a b => a.checkpointId ≤ b.checkpointId
  runAll avail (items.flatMap (copyItem special now dst)) db

/-! ## What a copy must agree on -/

/-- The writes of a task, in order. -/
def CheckpointTuple.taskWrites (c : CheckpointTuple) (task : String) : List (String × Json) :=
  (c.pendingWrites.filter fun w => w.taskId = task).map fun w => (w.channel, w.value)

structure CheckpointTuple.Agrees (a b : CheckpointTuple) : Prop where
  checkpointNs : b.checkpointNs = a.checkpointNs
  checkpointId : b.checkpointId = a.checkpointId
  parentId : b.parentId = a.parentId
  checkpoint : b.checkpoint = a.checkpoint
  metadata : b.metadata = a.metadata
  taskWrites : ∀ task, b.taskWrites task = a.taskWrites task

/-- Both histories have the same checkpoints, with the same writes for each task. -/
structure SameHistory (source target : List CheckpointTuple) : Prop where
  copied : ∀ a ∈ source, ∃ b ∈ target, a.Agrees b
  nothingElse : ∀ b ∈ target, ∃ a ∈ source, a.Agrees b

/-- A thread that was just created. -/
structure Db.Unused (db : Db) (t : ThreadId) : Prop where
  checkpoints : ∀ c ∈ db.checkpoints, c.scope ≠ .thread t
  writes : ∀ w ∈ db.checkpointWrites, w.scope ≠ .thread t
  runs : ∀ r ∈ db.runs, r.threadId ≠ some t

/-- The writes of a thread have the indices that the saver gives them. -/
def Db.Indexed (special : SpecialChannels) (db : Db) (t : ThreadId) : Prop :=
  ∀ w ∈ db.checkpointWrites, w.scope = .thread t →
    match special.index w.channel with
    | some i => w.idx = i
    | none => 0 ≤ w.idx

/-! ## The transactions of a copy -/

section Steps

variable {special : SpecialChannels} {now : Time} {avail : Lock → Bool} {dst : ThreadId}
  {db : Db}

/-- No run of the thread is in the way of a writer without a token. -/
def Db.Idle (db : Db) (t : ThreadId) : Prop := ∀ r ∈ db.runs, r.threadId ≠ some t

theorem writer_alone (hidle : db.Idle dst) (hfree : avail (.thread dst) = true) :
    (writer now (.thread dst) none none).Returns avail db () { db with
      baselines := db.baselines.filter fun b => b.threadId ≠ dst } := by
  have hactive : db.runs.rows.any (excludes dst none) = false := by
    rw [List.any_eq_false]
    intro r hr
    simp [excludes, hidle r hr]
  -- the writer has no token and names no run, so it drops the captured states of the thread
  simp only [writer, checkToken, enterScope, Prog.pure_eq, Prog.ret_bind, Option.isNone_none,
    if_true, unfencedWriter, Txn.returns_bind, Txn.returns_query]
  refine ⟨db.threads.find? dst, db, ?_, false, db, ⟨hactive.symm, rfl⟩, ?_⟩
  · exact Txn.returns_lockThread.mpr ⟨rfl, rfl, fun _ => hfree⟩
  · simp

/-- A row of a pending write in the copy: alone in its call, a regular write has index 0. -/
def CheckpointTuple.writeTo (special : SpecialChannels) (dst : ThreadId) (item : CheckpointTuple)
    (w : PendingWrite) : CheckpointWriteRow where
  scope := .thread dst
  checkpointNs := item.checkpointNs
  checkpointId := item.checkpointId
  taskId := w.taskId
  idx := (special.index w.channel).getD 0
  channel := w.channel
  blob := w.value

def CheckpointTuple.writesTo (special : SpecialChannels) (dst : ThreadId)
    (item : CheckpointTuple) : List CheckpointWriteRow :=
  item.pendingWrites.map (item.writeTo special dst)

/-- A row that was written alone. -/
def putAlone (special : SpecialChannels) (t : Table CheckpointWriteRow) (w : CheckpointWriteRow) :
    Table CheckpointWriteRow :=
  putWrite (!special.regular w.channel) t w

/-- The database differs in these tables only, and in the baselines. -/
structure Db.CopiedTo (db db' : Db) (checkpoints : Table CheckpointRow)
    (writes : Table CheckpointWriteRow) : Prop where
  runs : db'.runs = db.runs
  checkpoints : db'.checkpoints = checkpoints
  writes : db'.checkpointWrites = writes

theorem Db.Idle.of_runs {db' : Db} (h : db.Idle dst) (hruns : db'.runs = db.runs) :
    db'.Idle dst := by
  unfold Db.Idle
  rw [hruns]
  exact h

theorem aput_run (now : Time) (hidle : db.Idle dst) (hfree : avail (.thread dst) = true)
    (item : CheckpointTuple) : ∃ db',
    engine.run avail (aput now none none (item.copyTo dst)) db = some (.ok (), db') ∧
      db.CopiedTo db' (db.checkpoints.upsert (item.copyTo dst)) db.checkpointWrites := by
  have hreturns : (aput now none none (item.copyTo dst)).Returns avail db () { db with
      baselines := db.baselines.filter fun b => b.threadId ≠ dst
      checkpoints := db.checkpoints.upsert (item.copyTo dst) } := by
    rw [aput, Txn.returns_bind]
    exact ⟨(), _, writer_alone hidle hfree, Txn.returns_write.mpr rfl⟩
  exact ⟨_, Txn.run_ok_iff.mpr hreturns, rfl, rfl, rfl⟩

theorem putWrites_run (special : SpecialChannels) (now : Time) (hidle : db.Idle dst)
    (hfree : avail (.thread dst) = true)
    (item : CheckpointTuple) (w : PendingWrite) : ∃ db',
    engine.run avail (saverPutWrites special now dst item.checkpointNs item.checkpointId
        [(w.channel, w.value)] w.taskId) db = some (.ok (), db') ∧
      db.CopiedTo db' db.checkpoints
        (putAlone special db.checkpointWrites (item.writeTo special dst w)) := by
  have hrows : writeRows special dst item.checkpointNs item.checkpointId w.taskId
      [(w.channel, w.value)] = [item.writeTo special dst w] := rfl
  have hreturns : (saverPutWrites special now dst item.checkpointNs item.checkpointId
      [(w.channel, w.value)] w.taskId).Returns avail db () { db with
        baselines := db.baselines.filter fun b => b.threadId ≠ dst
        checkpointWrites :=
          putAlone special db.checkpointWrites (item.writeTo special dst w) } := by
    rw [saverPutWrites, hrows, aputWrites, Txn.returns_bind]
    refine ⟨(), _, writer_alone hidle hfree, Txn.returns_write.mpr ?_⟩
    simp [putAlone, CheckpointTuple.writeTo]
  exact ⟨_, Txn.run_ok_iff.mpr hreturns, rfl, rfl, rfl⟩

theorem runAll_append (ps qs : List (Txn Unit)) {db' : Db}
    (h : runAll avail ps db = some (.ok (), db')) :
    runAll avail (ps ++ qs) db = runAll avail qs db' := by
  induction ps generalizing db with
  | nil =>
      simp only [runAll, Option.some.injEq, Prod.mk.injEq, true_and] at h
      rw [List.nil_append, h]
  | cons p ps ih =>
      rw [runAll] at h
      rw [List.cons_append, runAll]
      split at h
      · cases h
      · cases h
      · exact ih h

theorem writes_run (special : SpecialChannels) (now : Time) (hidle : db.Idle dst)
    (hfree : avail (.thread dst) = true)
    (item : CheckpointTuple) (ws : List PendingWrite) : ∃ db',
    runAll avail (ws.map fun w => saverPutWrites special now dst item.checkpointNs
        item.checkpointId [(w.channel, w.value)] w.taskId) db = some (.ok (), db') ∧
      db.CopiedTo db' db.checkpoints
        ((ws.map (item.writeTo special dst)).foldl (putAlone special) db.checkpointWrites) := by
  induction ws generalizing db with
  | nil => exact ⟨db, rfl, rfl, rfl, rfl⟩
  -- each call leaves the runs alone, so the next writer is alone too
  | cons w ws ih =>
      obtain ⟨db₁, hrun, hruns, hcheckpoints, hwrites⟩ :=
        putWrites_run special now hidle hfree item w
      obtain ⟨db₂, hrun₂, hruns₂, hcheckpoints₂, hwrites₂⟩ := ih (hidle.of_runs hruns)
      refine ⟨db₂, ?_, hruns₂.trans hruns, hcheckpoints₂.trans hcheckpoints, ?_⟩
      · rw [List.map_cons, runAll, hrun]
        exact hrun₂
      · rw [hwrites₂, hwrites]
        rfl

/-- A copy returns, and this is what it leaves in the two tables. -/
theorem items_run (special : SpecialChannels) (now : Time) (hidle : db.Idle dst)
    (hfree : avail (.thread dst) = true)
    (items : List CheckpointTuple) : ∃ db',
    runAll avail (items.flatMap (copyItem special now dst)) db = some (.ok (), db') ∧
      db.CopiedTo db' ((items.map (·.copyTo dst)).foldl Table.upsert db.checkpoints)
        ((items.flatMap (·.writesTo special dst)).foldl (putAlone special)
          db.checkpointWrites) := by
  induction items generalizing db with
  | nil => exact ⟨db, rfl, rfl, rfl, rfl⟩
  -- first the checkpoint of the item, then its writes, then the other items
  | cons item items ih =>
      obtain ⟨db₁, hrun, hruns, hcheckpoints, hwrites⟩ := aput_run now hidle hfree item
      obtain ⟨db₂, hrun₂, hruns₂, hcheckpoints₂, hwrites₂⟩ := writes_run special now
        (hidle.of_runs hruns) hfree item item.pendingWrites
      have hruns' := hruns₂.trans hruns
      obtain ⟨db₃, hrun₃, hruns₃, hcheckpoints₃, hwrites₃⟩ := ih (hidle.of_runs hruns')
      have hitem : runAll avail (copyItem special now dst item) db = some (.ok (), db₂) := by
        rw [copyItem, runAll, hrun]
        exact hrun₂
      refine ⟨db₃, ?_, hruns₃.trans hruns', ?_, ?_⟩
      · rw [List.flatMap_cons, runAll_append _ _ hitem, hrun₃]
      · rw [hcheckpoints₃, hcheckpoints₂, hcheckpoints]
        rfl
      · rw [hwrites₃, hwrites₂, hwrites, List.flatMap_cons, List.foldl_append]
        rfl

end Steps

/-! ## The first of some -/

section FirstOnly

variable {α β : Type} {p : α → Bool} {l : List α} {seen : Bool}

/-- The list with only the first element of `p`, or with none if there was one before. -/
def firstOnly (p : α → Bool) : Bool → List α → List α
  | _, [] => []
  | seen, x :: l =>
      if p x then
        if seen then firstOnly p true l else x :: firstOnly p true l
      else x :: firstOnly p seen l

theorem firstOnly_sublist : (firstOnly p seen l).Sublist l := by
  induction l generalizing seen with
  | nil => exact .slnil
  | cons x l ih =>
      rw [firstOnly]
      split
      · split
        · exact ih.cons x
        · exact ih.cons_cons x
      · exact ih.cons_cons x

theorem firstOnly_map {f : β → α} {q : β → Bool} (hq : ∀ x, p (f x) = q x) (l : List β) :
    firstOnly p seen (l.map f) = (firstOnly q seen l).map f := by
  induction l generalizing seen with
  | nil => rfl
  | cons x l ih =>
      rw [List.map_cons, firstOnly, firstOnly, hq]
      by_cases hx : q x = true <;> cases seen <;> simp [hx, ih]

/-- Nothing is left out of a list with at most one such element. -/
theorem firstOnly_eq_self :
    firstOnly p seen l = l ↔ l.countP p + seen.toNat ≤ 1 := by
  induction l generalizing seen with
  | nil => cases seen <;> simp [firstOnly]
  | cons x l ih =>
      by_cases hx : p x = true
      · cases seen
        · simp only [firstOnly, hx, if_true, if_false, Bool.false_eq_true, List.cons.injEq,
            true_and, ih, List.countP_cons, Bool.toNat_true, Bool.toNat_false]
        -- two regular elements: the second is left out, so the list gets shorter
        · have hlonger : firstOnly p true l ≠ x :: l := by
            intro h
            have := (firstOnly_sublist : (firstOnly p true l).Sublist l).length_le
            rw [h, List.length_cons] at this
            omega
          simp only [firstOnly, hx, if_true, hlonger, List.countP_cons, Bool.toNat_true, false_iff]
          omega
      · simp [firstOnly, hx, ih]

end FirstOnly

/-! ## The rows of one task -/

section Task

variable {special : SpecialChannels} {ns id task : String} {dst : ThreadId}

/-- The key of a regular write that was written alone. -/
def firstKey (dst : ThreadId) (ns id task : String) :
    CheckpointScope × String × String × String × Int := (.thread dst, ns, id, task, 0)

/-- A row of the task that was written alone. -/
structure CheckpointWriteRow.Alone (special : SpecialChannels) (dst : ThreadId)
    (ns id task : String) (w : CheckpointWriteRow) : Prop where
  group : (w.scope, w.checkpointNs, w.checkpointId, w.taskId) = (.thread dst, ns, id, task)
  idx : w.idx = (special.index w.channel).getD 0

theorem CheckpointWriteRow.Alone.regular {w : CheckpointWriteRow}
    (h : w.Alone special dst ns id task) :
    special.regular w.channel = true ↔ Keyed.key w = firstKey dst ns id task := by
  have hgroup := h.group
  simp only [Prod.mk.injEq] at hgroup
  obtain ⟨h₁, h₂, h₃, h₄⟩ := hgroup
  change _ ↔ (w.scope, w.checkpointNs, w.checkpointId, w.taskId, w.idx) = _
  rw [h₁, h₂, h₃, h₄, h.idx, firstKey]
  unfold SpecialChannels.regular
  -- a special channel has a negative index, and a regular write alone has index 0
  cases hindex : special.index w.channel with
  | none => simp
  | some i =>
      have := special.negative hindex
      simp only [Option.isNone_some, Bool.false_eq_true, Option.getD_some, Prod.mk.injEq, true_and,
        false_iff]
      omega

/-- The rows of a task, each written alone, on a table without its special writes. -/
theorem rows_putAlone {L : List CheckpointWriteRow} {t : Table CheckpointWriteRow}
    (halone : ∀ w ∈ L, w.Alone special dst ns id task)
    (hfresh : ∀ w ∈ L, special.regular w.channel = false → t.find? (Keyed.key w) = none)
    (hdistinct : L.Pairwise fun v w => special.regular w.channel = false →
      Keyed.key v ≠ Keyed.key w) :
    (L.foldl (putAlone special) t).rows = t.rows ++
      firstOnly (fun w => special.regular w.channel)
        (t.find? (firstKey dst ns id task)).isSome L := by
  induction L generalizing t with
  | nil => simp [firstOnly]
  | cons w L ih =>
      have hw := (halone w (by simp)).regular
      have halone' : ∀ v ∈ L, v.Alone special dst ns id task := fun v hv => halone v (by simp [hv])
      have hlater := (List.pairwise_cons.mp hdistinct).1
      have hdistinct' := (List.pairwise_cons.mp hdistinct).2
      -- induction over the calls; what is seen is a regular row of the task in the table
      have hother : ∀ v ∈ L, special.regular v.channel = false →
          Keyed.key v ≠ Keyed.key w := fun v hv hspecial => (hlater v hv hspecial).symm
      rw [List.foldl_cons, firstOnly]
      by_cases hregular : special.regular w.channel = true
      · have hkey := hw.mp hregular
        have hput : putAlone special t w = t.insert w := by simp [putAlone, putWrite, hregular]
        rw [if_pos hregular, hput]
        -- a second regular write has the key of the first, and `DO NOTHING` drops it
        by_cases hseen : (t.find? (firstKey dst ns id task)).isSome = true
        · rw [Table.insert_of_mem (by rw [hkey]; exact hseen), if_pos hseen,
            ih halone' (fun v hv => hfresh v (by simp [hv])) hdistinct', hseen]
        · have hnone : t.find? (Keyed.key w) = none := by
            rw [hkey]
            simpa using hseen
          rw [if_neg hseen, ih halone' ?_ hdistinct', Table.rows_insert hnone,
            Table.find?_insert hnone, if_pos hkey.symm]
          · simp
          · intro v hv hspecial
            rw [Table.find?_insert hnone, if_neg (hother v hv hspecial)]
            exact hfresh v (by simp [hv]) hspecial
      -- a special write has a key of its own and is inserted
      · have hspecial : special.regular w.channel = false := by simpa using hregular
        have hnone := hfresh w (by simp) hspecial
        have hput : putAlone special t w = t.upsert w := by simp [putAlone, putWrite, hspecial]
        rw [if_neg hregular, hput, ih halone' ?_ hdistinct', Table.rows_upsert hnone,
          Table.find?_upsert, if_neg fun h => hregular (hw.mpr h.symm)]
        · simp
        · intro v hv hspecial'
          rw [Table.find?_upsert, if_neg (hother v hv hspecial')]
          exact hfresh v (by simp [hv]) hspecial'

/-- The rows of a task. -/
def ofTask (dst : ThreadId) (ns id task : String)
    (k : CheckpointScope × String × String × String × Int) : Bool :=
  k.1 = .thread dst && k.2.1 = ns && k.2.2.1 = id && k.2.2.2.1 = task

theorem filter_putAlone {t : Table CheckpointWriteRow} {w : CheckpointWriteRow}
    {q : CheckpointScope × String × String × String × Int → Bool} :
    (putAlone special t w).filter (fun w => q (Keyed.key w)) =
      if q (Keyed.key w) then putAlone special (t.filter fun w => q (Keyed.key w)) w
      else t.filter fun w => q (Keyed.key w) := by
  unfold putAlone putWrite
  split
  · exact Table.filter_upsert
  · exact Table.filter_insert

theorem filter_foldl_putAlone {L : List CheckpointWriteRow} {t : Table CheckpointWriteRow}
    {q : CheckpointScope × String × String × String × Int → Bool} :
    (L.foldl (putAlone special) t).filter (fun w => q (Keyed.key w)) =
      (L.filter fun w => q (Keyed.key w)).foldl (putAlone special)
        (t.filter fun w => q (Keyed.key w)) := by
  induction L generalizing t with
  | nil => rfl
  | cons w L ih =>
      rw [List.foldl_cons, ih, filter_putAlone, List.filter_cons]
      by_cases hq : q (Keyed.key w) = true
      · rw [if_pos hq, if_pos hq, List.foldl_cons]
      · rw [if_neg hq, if_neg hq]

/-- The order of the writes of one task is that of their indices. -/
theorem taskWrites_tuple {c : CheckpointRow} {t : Table CheckpointWriteRow}
    {R : List CheckpointWriteRow} (hscope : c.scope = .thread dst)
    (hrows : (t.filter fun w =>
      ofTask dst c.checkpointNs c.checkpointId task (Keyed.key w)).rows.Perm R)
    (hsorted : R.Pairwise fun v w => v.idx ≤ w.idx) :
    (c.tuple t).taskWrites task = R.map fun w => (w.channel, w.blob) := by
  have hR : ∀ w ∈ R, w ∈ t ∧ ofTask dst c.checkpointNs c.checkpointId task (Keyed.key w) = true :=
    fun w hw => Table.mem_filter.mp (hrows.mem_iff.mpr hw)
  have hgroup : ∀ w ∈ R, w.scope = .thread dst ∧ w.checkpointNs = c.checkpointNs ∧
      w.checkpointId = c.checkpointId ∧ w.taskId = task := by
    intro w hw
    have h : ofTask dst _ _ task
        (w.scope, w.checkpointNs, w.checkpointId, w.taskId, w.idx) = true :=
      (hR w hw).2
    simp only [ofTask, Bool.and_eq_true, decide_eq_true_eq] at h
    exact ⟨h.1.1.1, h.1.1.2, h.1.2, h.2⟩
  have hperm : ((c.writesIn t).filter fun w => w.taskId = task).Perm R := by
    refine List.Perm.trans ?_ hrows
    rw [Table.rows_filter]
    refine ((List.perm_insertionSort _ _).filter _).trans (List.Perm.of_eq ?_)
    rw [List.filter_filter]
    refine List.filter_congr fun w _ => ?_
    rw [hscope]
    change _ = (decide (w.scope = .thread dst) && decide (w.checkpointNs = c.checkpointNs) &&
      decide (w.checkpointId = c.checkpointId) && decide (w.taskId = task))
    rw [Bool.and_comm]
  have heq : (c.writesIn t).filter (fun w => w.taskId = task) = R := by
    have hleft : ((c.writesIn t).filter fun w => w.taskId = task).Pairwise
        fun v w => v.position ≤ w.position := (List.pairwise_insertionSort _ _).filter _
    have hright : R.Pairwise fun v w => v.position ≤ w.position := by
      refine hsorted.imp_of_mem fun hv hw hle => ?_
      rw [CheckpointWriteRow.position, CheckpointWriteRow.position, (hgroup _ hv).2.2.2,
        (hgroup _ hw).2.2.2, Prod.Lex.toLex_le_toLex]
      exact .inr ⟨rfl, hle⟩
    refine List.Perm.eq_of_pairwise ?_ hleft hright hperm
    -- two rows of the task with one index have one key
    intro v w hv hw hle hge
    have hv := hperm.mem_iff.mp hv
    have hidx : v.idx = w.idx := by
      have := le_antisymm hle hge
      simp only [CheckpointWriteRow.position, EmbeddingLike.apply_eq_iff_eq,
        Prod.mk.injEq] at this
      exact this.2
    obtain ⟨hs, hn, hi, ht⟩ := hgroup v hv
    obtain ⟨hs', hn', hi', ht'⟩ := hgroup w hw
    refine Table.eq_of_mem_of_key_eq (hR v hv).1 (hR w hw).1 ?_
    change (v.scope, v.checkpointNs, v.checkpointId, v.taskId, v.idx) =
      (w.scope, w.checkpointNs, w.checkpointId, w.taskId, w.idx)
    rw [hs, hn, hi, ht, hs', hn', hi', ht', hidx]
  simp only [CheckpointRow.tuple, CheckpointTuple.taskWrites, List.filter_map, List.map_map]
  rw [← heq]
  rfl

end Task

/-! ## What a copy leaves -/

section Copy

variable {special : SpecialChannels} {src dst : ThreadId} {db db' : Db} {item : CheckpointTuple}
  {items : List CheckpointTuple} {task : String}

theorem mem_alist : item ∈ alist db src ↔
    ∃ c ∈ db.checkpoints, c.scope = .thread src ∧ c.tuple db.checkpointWrites = item := by
  simp only [alist, List.mem_map, List.mem_insertionSort, List.mem_filter, decide_eq_true_eq,
    Table.mem_rows, and_assoc]

/-- A checkpoint is listed once. -/
theorem alist_unique {a b : CheckpointTuple} (ha : a ∈ alist db src) (hb : b ∈ alist db src)
    (hns : a.checkpointNs = b.checkpointNs) (hid : a.checkpointId = b.checkpointId) : a = b := by
  obtain ⟨c, hc, hscope, rfl⟩ := mem_alist.mp ha
  obtain ⟨d, hd, hscope', rfl⟩ := mem_alist.mp hb
  have hkey : Keyed.key c = Keyed.key d := by
    change (c.scope, c.checkpointNs, c.checkpointId) = (d.scope, d.checkpointNs, d.checkpointId)
    rw [hscope, hscope', show c.checkpointNs = d.checkpointNs from hns,
      show c.checkpointId = d.checkpointId from hid]
  rw [Table.eq_of_mem_of_key_eq hc hd hkey]

theorem mem_foldl_upsert {L : List CheckpointRow} {t : Table CheckpointRow} {x : CheckpointRow}
    (hL : (L.map Keyed.key).Nodup) :
    x ∈ L.foldl Table.upsert t ↔ x ∈ L ∨ x ∈ t ∧ ∀ y ∈ L, Keyed.key x ≠ Keyed.key y := by
  induction L generalizing t with
  | nil => simp
  | cons y L ih =>
      rw [List.map_cons, List.nodup_cons] at hL
      have hy : ∀ z ∈ L, Keyed.key y ≠ Keyed.key z := fun z hz h =>
        hL.1 (h ▸ List.mem_map_of_mem hz)
      rw [List.foldl_cons, ih hL.2, Table.mem_upsert, List.mem_cons, List.forall_mem_cons]
      constructor
      · rintro (hx | ⟨rfl | ⟨hx, hne⟩, hall⟩)
        · exact .inl (.inr hx)
        · exact .inl (.inl rfl)
        · exact .inr ⟨hx, hne, hall⟩
      · rintro ((rfl | hx) | ⟨hx, hne, hall⟩)
        · exact .inr ⟨.inl rfl, hy⟩
        · exact .inl hx
        · exact .inr ⟨.inr ⟨hx, hne⟩, hall⟩

/-- The name of a checkpoint in its thread. -/
def CheckpointTuple.name (c : CheckpointTuple) : String × String := (c.checkpointNs, c.checkpointId)

theorem alist_names : ((alist db src).map (·.name)).Nodup := by
  have hrows : db.checkpoints.rows.Nodup := db.checkpoints.nodup.of_map _
  have hsorted : ((db.checkpoints.rows.filter fun c => c.scope = .thread src).insertionSort
      fun b c => c.checkpointId ≤ b.checkpointId).Nodup :=
    (List.perm_insertionSort _ _).nodup_iff.mpr (hrows.filter _)
  rw [alist, List.map_map]
  refine hsorted.map_on fun c hc d hd h => ?_
  rw [List.mem_insertionSort, List.mem_filter, decide_eq_true_eq] at hc hd
  simp only [Function.comp, CheckpointTuple.name, CheckpointRow.tuple, Prod.mk.injEq] at h
  refine Table.eq_of_mem_of_key_eq (t := db.checkpoints) hc.1 hd.1 ?_
  change (c.scope, c.checkpointNs, c.checkpointId) = (d.scope, d.checkpointNs, d.checkpointId)
  rw [hc.2, hd.2, h.1, h.2]

theorem flatMap_of_name {β : Type} {g : CheckpointTuple → List β}
    (hnames : (items.map (·.name)).Nodup) (hitem : item ∈ items)
    (hg : ∀ a ∈ items, a.name ≠ item.name → g a = []) : items.flatMap g = g item := by
  induction items with
  | nil => simp at hitem
  | cons a items ih =>
      rw [List.map_cons, List.nodup_cons] at hnames
      rw [List.flatMap_cons]
      rcases List.mem_cons.mp hitem with rfl | hmem
      · have hrest : items.flatMap g = [] := by
          rw [List.flatMap_eq_nil_iff]
          refine fun b hb => hg b (by simp [hb]) fun h => hnames.1 ?_
          exact h ▸ List.mem_map_of_mem hb
        rw [hrest, List.append_nil]
      · have ha : g a = [] := hg a (by simp) fun h => hnames.1 (h ▸ List.mem_map_of_mem hmem)
        rw [ha, List.nil_append, ih hnames.2 hmem fun b hb => hg b (by simp [hb])]

/-- The rows that the copy writes for one task of one checkpoint. -/
theorem taskRows_copied (hnames : (items.map (·.name)).Nodup) (hitem : item ∈ items) :
    ((items.flatMap (·.writesTo special dst)).filter fun w =>
      ofTask dst item.checkpointNs item.checkpointId task (Keyed.key w)) =
    (item.pendingWrites.filter fun w => w.taskId = task).map (item.writeTo special dst) := by
  have hkey (a : CheckpointTuple) (w : PendingWrite) :
      ofTask dst item.checkpointNs item.checkpointId task
        (Keyed.key (a.writeTo special dst w)) = (decide (a.checkpointNs = item.checkpointNs) &&
          decide (a.checkpointId = item.checkpointId) && decide (w.taskId = task)) := by
    change (decide (CheckpointScope.thread dst = .thread dst) &&
      decide (a.checkpointNs = item.checkpointNs) && decide (a.checkpointId = item.checkpointId) &&
      decide (w.taskId = task)) = _
    simp
  rw [List.filter_flatMap, flatMap_of_name hnames hitem]
  · rw [CheckpointTuple.writesTo, List.filter_map]
    congr 1
    refine List.filter_congr fun w _ => ?_
    simp [hkey]
  · intro a _ hne
    rw [CheckpointTuple.writesTo, List.filter_map, List.map_eq_nil_iff, List.filter_eq_nil_iff]
    intro w _
    simp only [Function.comp, hkey, Bool.and_eq_true, decide_eq_true_eq]
    exact fun h => hne (Prod.ext h.1.1 h.1.2)

/-- The rows of one task of a checkpoint, in order. -/
def CheckpointRow.taskRows (c : CheckpointRow) (writes : Table CheckpointWriteRow)
    (task : String) : List CheckpointWriteRow :=
  (c.writesIn writes).filter fun w => w.taskId = task

theorem mem_taskRows {c : CheckpointRow} {w : CheckpointWriteRow} {t : Table CheckpointWriteRow}
    (h : w ∈ c.taskRows t task) : w ∈ t ∧ w.scope = c.scope ∧
      w.checkpointNs = c.checkpointNs ∧ w.checkpointId = c.checkpointId ∧ w.taskId = task := by
  simp only [CheckpointRow.taskRows, CheckpointRow.writesIn, List.mem_filter,
    List.mem_insertionSort, Bool.and_eq_true, decide_eq_true_eq] at h
  exact ⟨h.1.1, h.1.2.1.1, h.1.2.1.2, h.1.2.2, h.2⟩

theorem pairwise_taskRows {c : CheckpointRow} {t : Table CheckpointWriteRow} :
    (c.taskRows t task).Pairwise fun v w => v.idx < w.idx := by
  have hsorted : (c.taskRows t task).Pairwise fun v w => v.position ≤ w.position :=
    (List.pairwise_insertionSort _ _).filter _
  have hnodup : (c.taskRows t task).Nodup :=
    ((List.perm_insertionSort _ _).nodup_iff.mpr ((t.nodup.of_map _).filter _)).filter _
  refine (hsorted.and hnodup).imp_of_mem fun {v w} hv hw h => ?_
  obtain ⟨hv, hs, hn, hi, ht⟩ := mem_taskRows hv
  obtain ⟨hw, hs', hn', hi', ht'⟩ := mem_taskRows hw
  have hle : v.idx ≤ w.idx := by
    have hpos := h.1
    rw [CheckpointWriteRow.position, CheckpointWriteRow.position, ht, ht',
      Prod.Lex.toLex_le_toLex] at hpos
    rcases hpos with hlt | ⟨-, hle⟩
    · exact absurd hlt (lt_irrefl _)
    · exact hle
  refine lt_of_le_of_ne hle fun hidx => h.2 (Table.eq_of_mem_of_key_eq hv hw ?_)
  change (v.scope, v.checkpointNs, v.checkpointId, v.taskId, v.idx) =
    (w.scope, w.checkpointNs, w.checkpointId, w.taskId, w.idx)
  rw [hs, hn, hi, ht, hs', hn', hi', ht', hidx]

/-- The indices of two writes of a task, after the copy: a special write keeps its own. -/
theorem idx_writeTo {v w : CheckpointWriteRow} (hindexed : db.Indexed special src)
    (hv : v ∈ db.checkpointWrites) (hw : w ∈ db.checkpointWrites) (hvs : v.scope = .thread src)
    (hws : w.scope = .thread src) (hlt : v.idx < w.idx) :
    (item.writeTo special dst v.pending).idx ≤ (item.writeTo special dst w.pending).idx ∧
      (special.regular w.channel = false →
        (item.writeTo special dst v.pending).idx < (item.writeTo special dst w.pending).idx) := by
  have hvi := hindexed v hv hvs
  have hwi := hindexed w hw hws
  simp only [CheckpointTuple.writeTo, CheckpointWriteRow.pending, SpecialChannels.regular]
  cases hj : special.index w.channel with
  | none =>
      cases hi : special.index v.channel with
      | none => simp
      | some i =>
          have := special.negative hi
          simp only [Option.getD_some, Option.getD_none, Option.isNone_none, Bool.true_eq_false,
            false_imp_iff, and_true]
          omega
  | some j =>
      have := special.negative hj
      rw [hj] at hwi
      cases hi : special.index v.channel with
      | none =>
          rw [hi] at hvi
          simp only at hvi hwi
          omega
      | some i =>
          rw [hi] at hvi
          simp only [Option.getD_some] at hvi hwi ⊢
          omega

/-- A task keeps its special writes and the first of the others. -/
theorem taskWrites_copied (hunused : db.Unused dst) (hindexed : db.Indexed special src)
    (hnames : (items.map (·.name)).Nodup) (hitem : item ∈ items) (hsrc : item ∈ alist db src)
    (hwrites : db'.checkpointWrites =
      (items.flatMap (·.writesTo special dst)).foldl (putAlone special) db.checkpointWrites) :
    ((item.copyTo dst).tuple db'.checkpointWrites).taskWrites task =
      firstOnly (fun w => special.regular w.1) false (item.taskWrites task) := by
  obtain ⟨c, hc, hscope, rfl⟩ := mem_alist.mp hsrc
  set item := c.tuple db.checkpointWrites with hdef
  let W := c.taskRows db.checkpointWrites task
  let copy := fun w : CheckpointWriteRow => item.writeTo special dst w.pending
  have hpending : (item.pendingWrites.filter fun w => w.taskId = task) = W.map (·.pending) := by
    rw [hdef, CheckpointRow.tuple, List.filter_map]
    rfl
  have hrows : ((items.flatMap (·.writesTo special dst)).filter fun w =>
      ofTask dst item.checkpointNs item.checkpointId task (Keyed.key w)) = W.map copy := by
    rw [taskRows_copied hnames hitem, hpending, List.map_map]
    rfl
  have hW : W.Pairwise fun v w => (copy v).idx ≤ (copy w).idx ∧
      (special.regular w.channel = false → (copy v).idx < (copy w).idx) := by
    refine pairwise_taskRows.imp_of_mem fun hv hw hlt => ?_
    obtain ⟨hv, hs, -⟩ := mem_taskRows hv
    obtain ⟨hw, hs', -⟩ := mem_taskRows hw
    exact idx_writeTo hindexed hv hw (hs.trans hscope) (hs'.trans hscope) hlt
  have halone : ∀ w ∈ W.map copy,
      w.Alone special dst item.checkpointNs item.checkpointId task := by
    intro w hw
    obtain ⟨v, hv, rfl⟩ := List.mem_map.mp hw
    exact ⟨by rw [← (mem_taskRows hv).2.2.2.2]; rfl, rfl⟩
  have hempty : db.checkpointWrites.filter (fun w =>
      ofTask dst item.checkpointNs item.checkpointId task (Keyed.key w)) = .empty := by
    ext1
    rw [Table.rows_filter, Table.empty, List.filter_eq_nil_iff]
    intro w hw hof
    change ofTask dst _ _ task (w.scope, w.checkpointNs, w.checkpointId, w.taskId, w.idx) = true
      at hof
    simp only [ofTask, Bool.and_eq_true, decide_eq_true_eq] at hof
    exact hunused.writes w hw hof.1.1.1
  have hkept := rows_putAlone (t := .empty) halone (fun _ _ _ => rfl) (by
    rw [List.pairwise_map]
    refine hW.imp fun h hspecial hkey => ?_
    have hlt := h.2 hspecial
    have hidx := congrArg (fun k => k.2.2.2.2) hkey
    exact absurd hidx hlt.ne)
  have hfinal : (db'.checkpointWrites.filter fun w =>
      ofTask dst item.checkpointNs item.checkpointId task (Keyed.key w)).rows =
      firstOnly (fun w => special.regular w.channel) false (W.map copy) := by
    rw [hwrites, filter_foldl_putAlone, hrows, hempty, hkept]
    rfl
  have hsorted : (firstOnly (fun w => special.regular w.channel) false (W.map copy)).Pairwise
      fun v w => v.idx ≤ w.idx := by
    refine List.Pairwise.sublist firstOnly_sublist ?_
    rw [List.pairwise_map]
    exact hW.imp fun h => h.1
  have htarget := taskWrites_tuple (c := item.copyTo dst) rfl (List.Perm.of_eq hfinal) hsorted
  rw [htarget, CheckpointTuple.taskWrites, hpending,
    ← firstOnly_map (p := fun w : String × Json => special.regular w.1) (fun _ => rfl)]
  simp only [List.map_map]
  rfl

/-- The checkpoints of the copy. -/
theorem mem_alist_copied (hunused : db.Unused dst) (hnames : (items.map (·.name)).Nodup)
    (hcheckpoints : db'.checkpoints =
      (items.map (·.copyTo dst)).foldl Table.upsert db.checkpoints) {b : CheckpointTuple} :
    b ∈ alist db' dst ↔
      ∃ item ∈ items, (item.copyTo dst).tuple db'.checkpointWrites = b := by
  have hkeys : ((items.map (·.copyTo dst)).map Keyed.key).Nodup := by
    have hinj : (items.map (·.name)).map (fun n => (CheckpointScope.thread dst, n.1, n.2)) =
        (items.map (·.copyTo dst)).map Keyed.key := by
      rw [List.map_map, List.map_map]
      rfl
    rw [← hinj]
    refine hnames.map fun m n h => ?_
    simp only [Prod.mk.injEq, true_and] at h
    exact Prod.ext h.1 h.2
  rw [mem_alist, hcheckpoints]
  constructor
  · rintro ⟨c, hc, hscope, rfl⟩
    rcases (mem_foldl_upsert hkeys).mp hc with hmem | ⟨hold, -⟩
    · obtain ⟨item, hitem, rfl⟩ := List.mem_map.mp hmem
      exact ⟨item, hitem, rfl⟩
    · exact absurd hscope (hunused.checkpoints c hold)
  · rintro ⟨item, hitem, rfl⟩
    exact ⟨_, (mem_foldl_upsert hkeys).mpr (.inl (List.mem_map_of_mem hitem)), rfl, rfl⟩

theorem parent_copied (hsrc : item ∈ alist db src) :
    (item.parentId.filter (· ≠ "")).filter (· ≠ "") = item.parentId := by
  obtain ⟨c, -, -, rfl⟩ := mem_alist.mp hsrc
  simp only [CheckpointRow.tuple, Option.filter_filter, Bool.and_self]

/-- What a copy leaves: every checkpoint, and of each task what `firstOnly` keeps. -/
theorem copy_returns (now : Time) (avail : Lock → Bool) (hunused : db.Unused dst)
    (hindexed : db.Indexed special src) (hfree : avail (.thread dst) = true) :
    ∃ db', copyThreadCheckpoints special now avail src dst db = some (.ok (), db') ∧
      (∀ b, b ∈ alist db' dst ↔
        ∃ item ∈ alist db src, (item.copyTo dst).tuple db'.checkpointWrites = b) ∧
      ∀ item ∈ alist db src, ∀ task,
        ((item.copyTo dst).tuple db'.checkpointWrites).taskWrites task =
          firstOnly (fun w => special.regular w.1) false (item.taskWrites task) := by
  obtain ⟨db', hrun, -, hcheckpoints, hwrites⟩ := items_run special now
    hunused.runs hfree ((alist db src).insertionSort fun a b => a.checkpointId ≤ b.checkpointId)
  have hperm := List.perm_insertionSort (fun a b : CheckpointTuple =>
    a.checkpointId ≤ b.checkpointId) (alist db src)
  have hnames := (hperm.map (·.name)).nodup_iff.mpr alist_names
  refine ⟨db', hrun, fun b => ?_, fun item hitem task => ?_⟩
  · rw [mem_alist_copied hunused hnames hcheckpoints]
    simp only [hperm.mem_iff]
  · exact taskWrites_copied hunused hindexed hnames (hperm.mem_iff.mpr hitem) hitem hwrites

theorem firstOnly_regular {l : List (String × Json)} :
    firstOnly (fun w => special.regular w.1) false l = l ↔
      (l.countP fun w => special.regular w.1) ≤ 1 := firstOnly_eq_self

end Copy

/-- A copy returns. It has the history of its source exactly when no task of a checkpoint
has two writes to regular channels. -/
theorem copied_iff_one_regular_write (special : SpecialChannels) (now : Time)
    (avail : Lock → Bool) (src dst : ThreadId) (db : Db) (hunused : db.Unused dst)
    (hindexed : db.Indexed special src) (hfree : avail (.thread dst) = true) :
    ∃ db', copyThreadCheckpoints special now avail src dst db = some (.ok (), db') ∧
      (SameHistory (alist db src) (alist db' dst) ↔
        ∀ a ∈ alist db src, ∀ task,
          ((a.taskWrites task).countP fun w => special.regular w.1) ≤ 1) := by
  obtain ⟨db', hrun, htarget, htasks⟩ := copy_returns now avail hunused hindexed hfree
  refine ⟨db', hrun, ?_⟩
  constructor
  · intro hsame a ha task
    obtain ⟨b, hb, hagrees⟩ := hsame.copied a ha
    obtain ⟨item, hitem, rfl⟩ := (htarget b).mp hb
    obtain rfl := alist_unique hitem ha hagrees.checkpointNs hagrees.checkpointId
    rw [← firstOnly_regular, ← htasks item hitem task]
    exact hagrees.taskWrites task
  · intro hone
    have hagrees {item : CheckpointTuple} (hitem : item ∈ alist db src) :
        item.Agrees ((item.copyTo dst).tuple db'.checkpointWrites) :=
      ⟨rfl, rfl, parent_copied hitem, rfl, rfl, fun task =>
        (htasks item hitem task).trans (firstOnly_regular.mpr (hone item hitem task))⟩
    refine ⟨fun a ha => ⟨_, (htarget _).mpr ⟨a, ha, rfl⟩, hagrees ha⟩, fun b hb => ?_⟩
    obtain ⟨item, hitem, rfl⟩ := (htarget b).mp hb
    exact ⟨item, hitem, hagrees hitem⟩

/-- The map of the pinned saver. -/
def writesIdxMap : SpecialChannels where
  index channel :=
    if channel = "__error__" then some (-1)
    else if channel = "__scheduled__" then some (-2)
    else if channel = "__interrupt__" then some (-3)
    else if channel = "__resume__" then some (-4)
    else none
  negative := by
    intro channel i h
    split_ifs at h <;> simp only [Option.some.injEq] at h <;> omega
  injective := by
    intro channel channel' i h h'
    split_ifs at h h' <;> simp only [Option.some.injEq] at h h' <;> first | omega | simp_all

/-- A write of task `t` on the checkpoint `c` of thread 1. -/
def writeOf (channel : String) (idx : Int) : CheckpointWriteRow :=
  { scope := .thread 1, checkpointNs := "", checkpointId := "c", taskId := "t", idx, channel }

/-- Thread 1 has one checkpoint, with these writes. -/
def historyOf (writes : List CheckpointWriteRow) : Db :=
  { Db.fresh .empty .empty with
    checkpoints := Table.empty.insert
      { scope := .thread 1, checkpointNs := "", checkpointId := "c" }
    checkpointWrites := writes.foldl Table.insert .empty }

/-- Task `t` wrote to a channel and was interrupted, task `u` wrote to the same channel. -/
def someWrites : List CheckpointWriteRow :=
  [writeOf "a" 0, writeOf "__interrupt__" (-3), { writeOf "a" 0 with taskId := "u" }]

/-- The checkpoint `c` of these writes has the parent `b`. -/
def someHistory : Db :=
  { historyOf someWrites with
    checkpoints := (Table.empty.insert
        { scope := .thread 1, checkpointNs := "", checkpointId := "b" }).insert
      { scope := .thread 1, checkpointNs := "", checkpointId := "c"
        parentCheckpointId := some "b" } }

theorem someWrites_regular (task : String) :
    (someWrites.countP fun w => decide (w.taskId = task) && writesIdxMap.regular w.channel) ≤
      1 := by
  by_cases ht : task = "t"
  · subst ht
    decide
  · have hzero : ∀ channel i, (writeOf channel i).taskId ≠ task := fun _ _ h => ht h.symm
    rw [someWrites, List.countP_cons_of_neg (by simp [hzero]),
      List.countP_cons_of_neg (by simp [hzero])]
    exact List.countP_le_length

theorem copied_iff_one_regular_write_one : ∃ db',
    copyThreadCheckpoints writesIdxMap 0 (fun _ => true) 1 2 someHistory = some (.ok (), db') ∧
      SameHistory (alist someHistory 1) (alist db' 2) := by
  have hunused : someHistory.Unused 2 :=
    ⟨by change ∀ c ∈ someHistory.checkpoints.rows, _; decide,
      by change ∀ w ∈ someHistory.checkpointWrites.rows, _; decide,
      by change ∀ r ∈ someHistory.runs.rows, _; decide⟩
  have hindexed : someHistory.Indexed writesIdxMap 1 := by
    intro w hw _
    change w ∈ someWrites at hw
    simp only [someWrites, List.mem_cons, List.not_mem_nil, or_false] at hw
    rcases hw with rfl | rfl | rfl <;> simp [writesIdxMap, writeOf]
  obtain ⟨db', hrun, hiff⟩ := copied_iff_one_regular_write writesIdxMap 0 (fun _ => true) 1 2
    someHistory hunused hindexed rfl
  refine ⟨db', hrun, hiff.mpr fun a ha task => ?_⟩
  obtain ⟨c, -, -, rfl⟩ := mem_alist.mp ha
  refine le_trans ?_ (someWrites_regular task)
  rw [CheckpointTuple.taskWrites, List.countP_map, List.countP_filter, CheckpointRow.tuple,
    List.countP_map, CheckpointRow.writesIn, (List.perm_insertionSort _ _).countP_eq,
    List.countP_filter]
  refine List.countP_mono_left fun w _ hw => ?_
  obtain ⟨hwrite, -⟩ := Bool.and_eq_true_iff.mp hw
  exact (Bool.and_comm _ _).trans hwrite

/-- Of two writes of a task to regular channels the second is lost. -/
theorem second_write_not_copied :
    ¬ ∀ (special : SpecialChannels) (now : Time) (avail : Lock → Bool) (src dst : ThreadId)
      (db db' : Db), db.Unused dst → db.Indexed special src →
      copyThreadCheckpoints special now avail src dst db = some (.ok (), db') →
      SameHistory (alist db src) (alist db' dst) := by
  intro h
  have hunused : (historyOf [writeOf "a" 0, writeOf "b" 1]).Unused 2 :=
    ⟨by change ∀ c ∈ (historyOf [writeOf "a" 0, writeOf "b" 1]).checkpoints.rows, _; decide,
      by change ∀ w ∈ (historyOf [writeOf "a" 0, writeOf "b" 1]).checkpointWrites.rows, _; decide,
      by change ∀ r ∈ (historyOf [writeOf "a" 0, writeOf "b" 1]).runs.rows, _; decide⟩
  have hindexed : (historyOf [writeOf "a" 0, writeOf "b" 1]).Indexed writesIdxMap 1 := by
    intro w hw _
    change w ∈ [writeOf "a" 0, writeOf "b" 1] at hw
    rw [List.mem_cons, List.mem_singleton] at hw
    rcases hw with rfl | rfl <;> simp [writesIdxMap, writeOf]
  obtain ⟨db', hrun, htarget, htasks⟩ := copy_returns 0 (fun _ => true) hunused hindexed rfl
  have hsame := h _ _ _ _ _ _ db' hunused hindexed hrun
  let c : CheckpointRow := { scope := .thread 1, checkpointNs := "", checkpointId := "c" }
  have ha : c.tuple (historyOf [writeOf "a" 0, writeOf "b" 1]).checkpointWrites ∈
      alist (historyOf [writeOf "a" 0, writeOf "b" 1]) 1 :=
    mem_alist.mpr ⟨c, List.mem_singleton.mpr rfl, rfl, rfl⟩
  have htwo : (c.tuple (historyOf [writeOf "a" 0, writeOf "b" 1]).checkpointWrites).taskWrites "t" =
      [("a", .null), ("b", .null)] :=
    taskWrites_tuple (R := [writeOf "a" 0, writeOf "b" 1]) rfl (List.Perm.of_eq rfl) (by decide)
  obtain ⟨b, hb, hagrees⟩ := hsame.copied _ ha
  obtain ⟨item, hitem, rfl⟩ := (htarget b).mp hb
  obtain rfl := alist_unique hitem ha hagrees.checkpointNs hagrees.checkpointId
  have hlost := (htasks _ hitem "t").symm.trans (hagrees.taskWrites "t")
  rw [firstOnly_regular, htwo] at hlost
  revert hlost
  decide

end GraphHarbor
