import Mathlib.Data.String.Basic
import GraphHarbor.Checkpoints
import GraphHarbor.Sequential
import GraphHarbor.Kit.Chain

/-!
# What pruning keeps

The loop of `prune_checkpoints` narrows a list of channels along the parent links of a
head. `Needed` says which checkpoints are met before the list is empty. `mem_keepAncestors`
shows that the loop keeps these, on links that end, are broken or go round, and
`prune_spec` what that means for the database.
-/

namespace GraphHarbor

open Kit

/-! ## The parents of a head -/

/-- The parent of a checkpoint, if it is stored. -/
def CheckpointRow.parentIn (c : CheckpointRow) (t : Table CheckpointRow) : Option CheckpointRow :=
  c.parentCheckpointId.bind fun p => t.find? (c.scope, c.checkpointNs, p)

/-- The checkpoint reached from a head by `k` parent links. -/
def ancestor (t : Table CheckpointRow) (head : CheckpointRow) (k : Nat) : Option CheckpointRow :=
  walk (fun c => c.parentIn t) head k

theorem ancestor_succ {t : Table CheckpointRow} {head : CheckpointRow} {k : Nat} :
    ancestor t head (k + 1) = (ancestor t head k).bind fun c => c.parentIn t := rfl

/-- The full value of a channel is in the checkpoint or in a blob of its version. -/
def resolves (blobs : List BlobKey) (c : CheckpointRow) (channel : String) : Prop :=
  channel ∈ objectKeys c.checkpoint "channel_values" ∨
    (c.checkpointNs, channel, channelVersion c.checkpoint channel) ∈ blobs

/-- `counters_since_delta_snapshot` of a head. -/
def deltaChannels (head : CheckpointRow) : List String :=
  objectKeys (.obj head.metadata) "counters_since_delta_snapshot"

/-- None of the first `k` checkpoints resolves the channel. -/
def Unresolved (blobs : List BlobKey) (t : Table CheckpointRow) (head : CheckpointRow)
    (channel : String) (k : Nat) : Prop :=
  ∀ j < k, ∀ c, ancestor t head j = some c → ¬ resolves blobs c channel

/-- A checkpoint that is met from the head while some channel is unresolved. -/
def Needed (blobs : List BlobKey) (t : Table CheckpointRow) (head c : CheckpointRow) : Prop :=
  ∃ k, ancestor t head k = some c ∧
    ∀ j < k, ∃ channel ∈ deltaChannels head, Unresolved blobs t head channel (j + 1)

/-- The checkpoint of its namespace with the greatest id. -/
structure IsHead (t : Table CheckpointRow) (head : CheckpointRow) : Prop where
  stored : head ∈ t
  greatest : ∀ c ∈ t, c.scope = head.scope → c.checkpointNs = head.checkpointNs →
    c.checkpointId ≤ head.checkpointId

def Kept (blobs : List BlobKey) (t : Table CheckpointRow) (c : CheckpointRow) : Prop :=
  ∃ head, IsHead t head ∧ Needed blobs t head c

/-- The walk that rebuilds a channel: the checkpoints it reads, with their writes, in `n`
steps or up to the first that resolves the channel. -/
def rebuild (blobs : List BlobKey) (db : Db) (channel : String) :
    Nat → CheckpointRow → List (CheckpointRow × List CheckpointWriteRow)
  | 0, _ => []
  | n + 1, c =>
      let read := (c, db.checkpointWrites.rows.filter fun w =>
        w.scope = c.scope && w.checkpointNs = c.checkpointNs && w.checkpointId = c.checkpointId)
      if channel ∈ objectKeys c.checkpoint "channel_values" ||
          (c.checkpointNs, channel, channelVersion c.checkpoint channel) ∈ blobs then [read]
      else
        match c.parentIn db.checkpoints with
        | none => [read]
        | some p => read :: rebuild blobs db channel n p

section Walk

variable {blobs : List BlobKey} {t : Table CheckpointRow} {head c : CheckpointRow} {k : Nat}
  {channel : String}

theorem parentIn_spec {p : CheckpointRow} (h : c.parentIn t = some p) :
    p ∈ t ∧ p.scope = c.scope ∧ p.checkpointNs = c.checkpointNs := by
  obtain ⟨id, -, hfind⟩ := Option.bind_eq_some_iff.mp h
  obtain ⟨hp, hkey⟩ := Table.find?_eq_some.mp hfind
  change (p.scope, p.checkpointNs, p.checkpointId) = _ at hkey
  simp only [Prod.mk.injEq] at hkey
  exact ⟨hp, hkey.1, hkey.2.1⟩

theorem ancestor_spec (hhead : head ∈ t) (h : ancestor t head k = some c) :
    c ∈ t ∧ c.scope = head.scope ∧ c.checkpointNs = head.checkpointNs := by
  induction k generalizing c with
  | zero =>
      obtain rfl := Option.some.inj h
      exact ⟨hhead, rfl, rfl⟩
  -- induction along the walk: a parent is looked up in the scope of its child
  | succ k ih =>
      rw [ancestor, walk_succ] at h
      obtain ⟨b, hb, hparent⟩ := Option.bind_eq_some_iff.mp h
      obtain ⟨-, hscope, hns⟩ := ih hb
      obtain ⟨hc, hscope', hns'⟩ := parentIn_spec hparent
      exact ⟨hc, hscope'.trans hscope, hns'.trans hns⟩

/-- The channels that are unresolved when the loop comes to the `k`-th checkpoint. -/
def pendingAt (blobs : List BlobKey) (t : Table CheckpointRow) (head : CheckpointRow) :
    Nat → List String
  | 0 => deltaChannels head
  | k + 1 =>
      match ancestor t head k with
      | none => pendingAt blobs t head k
      | some c => stillUnresolved blobs c (pendingAt blobs t head k)

theorem mem_stillUnresolved {l : List String} :
    channel ∈ stillUnresolved blobs c l ↔ channel ∈ l ∧ ¬ resolves blobs c channel := by
  simp only [stillUnresolved, List.mem_filter, Bool.and_eq_true, decide_eq_true_eq, resolves,
    not_or]

theorem mem_pendingAt : channel ∈ pendingAt blobs t head k ↔
    channel ∈ deltaChannels head ∧ Unresolved blobs t head channel k := by
  induction k with
  | zero => simp [pendingAt, Unresolved]
  | succ k ih =>
      have hsplit : Unresolved blobs t head channel (k + 1) ↔ Unresolved blobs t head channel k ∧
          ∀ c, ancestor t head k = some c → ¬ resolves blobs c channel := by
        constructor
        -- before `k + 1` means before `k`, or at `k`
        · exact fun h => ⟨fun j hj => h j (by omega), h k (by omega)⟩
        · rintro ⟨h, hk⟩ j hj
          rcases Nat.lt_succ_iff_lt_or_eq.mp hj with hlt | rfl
          · exact h j hlt
          · exact hk
      rw [pendingAt]
      cases hc : ancestor t head k with
      | none =>
          rw [ih, hsplit]
          simp [hc]
      | some c =>
          rw [mem_stillUnresolved, ih, hsplit]
          simp [hc, and_assoc]

theorem pendingAt_ne_nil : pendingAt blobs t head k ≠ [] ↔
    ∃ channel ∈ deltaChannels head, Unresolved blobs t head channel k := by
  constructor
  · intro h
    obtain ⟨channel, hmem⟩ := List.exists_mem_of_ne_nil _ h
    exact ⟨channel, mem_pendingAt.mp hmem⟩
  · rintro ⟨channel, hmem⟩
    exact List.ne_nil_of_mem (mem_pendingAt.mpr hmem)

end Walk

/-! ## The loop -/

section Loop

variable {blobs : List BlobKey} {t : Table CheckpointRow} {head c : CheckpointRow}
  {rows : List CheckpointRow} {id : ThreadId} {kept : List (String × String)}
  {key : String × String}

def CheckpointRow.nameKey (c : CheckpointRow) : String × String :=
  (c.checkpointNs, c.checkpointId)

/-- The rows of the thread, in some order. -/
def RowsOf (t : Table CheckpointRow) (id : ThreadId) (rows : List CheckpointRow) : Prop :=
  ∀ c, c ∈ rows ↔ c ∈ t ∧ c.scope = .thread id

theorem RowsOf.eq_of_nameKey (h : RowsOf t id rows) {b c : CheckpointRow} (hb : b ∈ rows)
    (hc : c ∈ rows) (hkey : b.nameKey = c.nameKey) : b = c := by
  obtain ⟨hb, hbs⟩ := (h b).mp hb
  obtain ⟨hc, hcs⟩ := (h c).mp hc
  refine Table.eq_of_mem_of_key_eq hb hc ?_
  change (b.scope, b.nameKey) = (c.scope, c.nameKey)
  rw [hbs, hcs, hkey]

/-- `by_key.get((ns, row["parent_checkpoint_id"]))`. -/
theorem RowsOf.parentIn (h : RowsOf t id rows) (hc : c.scope = .thread id) :
    (c.parentCheckpointId.bind fun p => rows.find? fun b =>
      b.checkpointNs = c.checkpointNs && b.checkpointId = p) = c.parentIn t := by
  rw [CheckpointRow.parentIn]
  -- both look-ups find at most one row, so it is enough to compare what they find
  congr 1
  funext p
  refine Option.ext fun b => ?_
  rw [Table.find?_eq_some, hc]
  constructor
  · intro hb
    have hmem := (h b).mp (List.mem_of_find?_eq_some hb)
    have hp := List.find?_some hb
    simp only [Bool.and_eq_true, decide_eq_true_eq] at hp
    refine ⟨hmem.1, ?_⟩
    change (b.scope, b.checkpointNs, b.checkpointId) = _
    rw [hmem.2, hp.1, hp.2]
  · rintro ⟨hb, hkey⟩
    change (b.scope, b.checkpointNs, b.checkpointId) = _ at hkey
    simp only [Prod.mk.injEq] at hkey
    obtain ⟨hscope, hns, hid⟩ := hkey
    have hbrows : b ∈ rows := (h b).mpr ⟨hb, hscope⟩
    -- `by_key` could only miss the row for another one with the same namespace and id
    cases hfind : rows.find? fun b => b.checkpointNs = c.checkpointNs && b.checkpointId = p with
    | none =>
        have := List.find?_eq_none.mp hfind b hbrows
        simp [hns, hid] at this
    | some d =>
        have hd := List.find?_some hfind
        simp only [Bool.and_eq_true, decide_eq_true_eq] at hd
        have hkey : d.nameKey = b.nameKey := by
          rw [CheckpointRow.nameKey, CheckpointRow.nameKey, hd.1, hd.2, hns, hid]
        rw [h.eq_of_nameKey (List.mem_of_find?_eq_some hfind) hbrows hkey]

/-- The checkpoints that the loop still has to keep when it comes to the `k`-th. -/
def NeededFrom (blobs : List BlobKey) (t : Table CheckpointRow) (head : CheckpointRow) (k : Nat)
    (key : String × String) : Prop :=
  ∃ m c, k ≤ m ∧ ancestor t head m = some c ∧ c.nameKey = key ∧
    ∀ j < m, pendingAt blobs t head (j + 1) ≠ []

/-- What `kept` has when the loop comes to the `k`-th checkpoint: in the namespace of the
head, the checkpoints before it. -/
def Met (t : Table CheckpointRow) (rows : List CheckpointRow) (head : CheckpointRow) (k : Nat)
    (kept : List (String × String)) : Prop :=
  ∀ c ∈ rows, c.checkpointNs = head.checkpointNs →
    (c.nameKey ∈ kept ↔ ∃ j < k, ancestor t head j = some c)

theorem ancestor_mem (hrows : RowsOf t id rows) (hhead : head ∈ rows) {k : Nat}
    (h : ancestor t head k = some c) : c ∈ rows ∧ c.checkpointNs = head.checkpointNs := by
  obtain ⟨hstored, hscope⟩ := (hrows head).mp hhead
  obtain ⟨hc, hcs, hcns⟩ := ancestor_spec hstored h
  exact ⟨(hrows c).mpr ⟨hc, hcs.trans hscope⟩, hcns⟩

/-- The loop stops at the end of the links and at a checkpoint that it has kept, and then
nothing new would be met. -/
theorem mem_keepAncestors_stop (hrows : RowsOf t id rows) (hhead : head ∈ rows) {n k : Nat}
    {unresolved : List String} (hmet : Met t rows head k kept)
    (hstop : ∀ c, ancestor t head k = some c → c.nameKey ∈ kept) :
    key ∈ keepAncestors rows blobs n (ancestor t head k) unresolved kept ↔
      key ∈ kept ∨ NeededFrom blobs t head k key := by
  have hend : keepAncestors rows blobs n (ancestor t head k) unresolved kept = kept := by
    cases hc : ancestor t head k with
    | none => cases n <;> rfl
    | some c =>
        cases n with
        | zero => rfl
        | succ n => exact if_pos (hstop c hc)
  rw [hend]
  constructor
  · exact .inl
  · rintro (hkey | ⟨m, b, hm, hb, rfl, -⟩)
    · exact hkey
    -- nothing that is needed later would be new
    · obtain ⟨hbrows, hbns⟩ := ancestor_mem hrows hhead hb
      cases hc : ancestor t head k with
      | none =>
          rw [ancestor, walk_none hc hm] at hb
          cases hb
      | some c =>
          -- the links go round, so that the `m`-th checkpoint was met before
          obtain ⟨hcrows, hcns⟩ := ancestor_mem hrows hhead hc
          obtain ⟨i, hi, hci⟩ := (hmet c hcrows hcns).mp (hstop c hc)
          obtain ⟨j, hj, hmj⟩ := walk_met hci hc hi m
          exact (hmet b hbrows hbns).mpr ⟨j, hj, hmj.symm.trans hb⟩

theorem neededFrom_succ {k : Nat} (hc : ancestor t head k = some c)
    (hpending : ∀ j < k, pendingAt blobs t head (j + 1) ≠ []) :
    NeededFrom blobs t head k key ↔ key = c.nameKey ∨ NeededFrom blobs t head (k + 1) key := by
  constructor
  · rintro ⟨m, b, hm, hb, rfl, hall⟩
    rcases Nat.eq_or_lt_of_le hm with rfl | hlt
    · rw [hc] at hb
      obtain rfl := Option.some.inj hb
      exact .inl rfl
    · exact .inr ⟨m, b, hlt, hb, rfl, hall⟩
  · rintro (rfl | ⟨m, b, hm, hb, rfl, hall⟩)
    · exact ⟨k, c, le_rfl, hc, rfl, hpending⟩
    · exact ⟨m, b, by omega, hb, rfl, hall⟩

/-- The `while row` loop keeps what is needed. The fuel is enough for the rows that are not
kept yet. -/
theorem mem_keepAncestors (hrows : RowsOf t id rows) (hhead : head ∈ rows) {n k : Nat}
    (hfuel : (rows.filter fun c => c.nameKey ∉ kept).length ≤ n) (hmet : Met t rows head k kept)
    (hpending : ∀ j < k, pendingAt blobs t head (j + 1) ≠ []) :
    key ∈ keepAncestors rows blobs n (ancestor t head k) (pendingAt blobs t head k) kept ↔
      key ∈ kept ∨ NeededFrom blobs t head k key := by
  induction n generalizing k kept with
  | zero =>
      -- without fuel every row is kept, so that the loop has met all of them
      refine mem_keepAncestors_stop hrows hhead hmet fun c hc => ?_
      by_contra hkept
      have hnone := List.eq_nil_of_length_eq_zero (Nat.le_zero.mp hfuel)
      have hmem : c ∈ rows.filter fun c => c.nameKey ∉ kept :=
        List.mem_filter.mpr ⟨(ancestor_mem hrows hhead hc).1, by simpa using hkept⟩
      rw [hnone] at hmem
      cases hmem
  | succ n ih =>
      by_cases hstop : ∀ c, ancestor t head k = some c → c.nameKey ∈ kept
      · exact mem_keepAncestors_stop hrows hhead hmet hstop
      simp only [not_forall, exists_prop] at hstop
      obtain ⟨c, hc, hkept⟩ := hstop
      obtain ⟨hcrows, hcns⟩ := ancestor_mem hrows hhead hc
      have hnarrow : stillUnresolved blobs c (pendingAt blobs t head k) =
          pendingAt blobs t head (k + 1) := by rw [pendingAt, hc]
      -- the row that the loop takes next is the next ancestor
      have hparent : (c.parentCheckpointId.bind fun p => rows.find? fun b =>
          b.checkpointNs = c.checkpointNs && b.checkpointId = p) = ancestor t head (k + 1) := by
        rw [hrows.parentIn ((hrows c).mp hcrows).2, ancestor_succ, hc, Option.bind_some]
      have hturn : keepAncestors rows blobs (n + 1) (ancestor t head k)
          (pendingAt blobs t head k) kept =
          if (pendingAt blobs t head (k + 1)).isEmpty then kept ++ [c.nameKey]
          else keepAncestors rows blobs n (ancestor t head (k + 1))
            (pendingAt blobs t head (k + 1)) (kept ++ [c.nameKey]) := by
        rw [hc, ← hnarrow, ← hparent]
        exact if_neg hkept
      rw [hturn, neededFrom_succ hc hpending, ← or_assoc]
      have hkey : key ∈ kept ++ [c.nameKey] ↔ key ∈ kept ∨ key = c.nameKey := by simp
      by_cases hempty : (pendingAt blobs t head (k + 1)).isEmpty = true
      -- the last channel was resolved here: nothing further up is needed
      · rw [if_pos hempty, hkey]
        constructor
        · exact .inl
        · rintro (h | ⟨m, b, hm, -, -, hall⟩)
          · exact h
          · exact absurd (List.isEmpty_iff.mp hempty) (hall k (by omega))
      · rw [if_neg hempty, ih ?_ ?_ ?_, hkey]
        · -- one row less to keep
          have hsub : (rows.filter fun b => b.nameKey ∉ kept ++ [c.nameKey]).length <
              (rows.filter fun b => b.nameKey ∉ kept).length := by
            have hboth : (rows.filter fun b => b.nameKey ∉ kept ++ [c.nameKey]) =
                (rows.filter fun b => b.nameKey ∉ kept).filter fun b => b.nameKey ≠ c.nameKey := by
              rw [List.filter_filter]
              refine List.filter_congr fun b _ => ?_
              simp [and_comm]
            have hmem : c ∈ rows.filter fun b => b.nameKey ∉ kept :=
              List.mem_filter.mpr ⟨hcrows, by simpa using hkept⟩
            rw [hboth]
            exact List.length_filter_lt_length_iff_exists.mpr ⟨c, hmem, by simp⟩
          omega
        -- `kept` now has the checkpoints before the next one
        · intro b hb hns
          rw [List.mem_append, List.mem_singleton, hmet b hb hns]
          constructor
          · rintro (⟨j, hj, hbj⟩ | hbc)
            · exact ⟨j, by omega, hbj⟩
            · exact ⟨k, by omega, by rw [hrows.eq_of_nameKey hb hcrows hbc, hc]⟩
          · rintro ⟨j, hj, hbj⟩
            rcases Nat.lt_succ_iff_lt_or_eq.mp hj with hlt | rfl
            · exact .inl ⟨j, hlt, hbj⟩
            · rw [hc] at hbj
              exact .inr (congrArg _ (Option.some.inj hbj).symm)
        · intro j hj
          rcases Nat.lt_succ_iff_lt_or_eq.mp hj with hlt | rfl
          · exact hpending j hlt
          · simpa using hempty

/-- The first row of its namespace. -/
def FirstOf : List CheckpointRow → CheckpointRow → Prop
  | [], _ => False
  | c :: rows, head => head = c ∨ head.checkpointNs ≠ c.checkpointNs ∧ FirstOf rows head

/-- The loop over the heads. -/
theorem mem_keepHeads {all : List CheckpointRow} {namespaces : List String}
    (hall : RowsOf t id all) (hrows : ∀ c ∈ rows, c ∈ all)
    (hkept : ∀ c ∈ all, c.nameKey ∈ kept → c.checkpointNs ∈ namespaces) :
    key ∈ keepHeads all blobs rows namespaces kept ↔ key ∈ kept ∨
      ∃ head, FirstOf rows head ∧ head.checkpointNs ∉ namespaces ∧
        NeededFrom blobs t head 0 key := by
  induction rows generalizing namespaces kept with
  | nil => simp [keepHeads, FirstOf]
  | cons c rows ih =>
      have hrest : ∀ b ∈ rows, b ∈ all := fun b hb => hrows b (by simp [hb])
      rw [keepHeads]
      by_cases hseen : c.checkpointNs ∈ namespaces
      -- the head of this namespace was an earlier row
      · rw [if_pos hseen, ih hrest hkept]
        refine or_congr Iff.rfl (exists_congr fun head => ?_)
        constructor
        · rintro ⟨hfirst, hnew, hneeded⟩
          exact ⟨.inr ⟨fun h => hnew (h ▸ hseen), hfirst⟩, hnew, hneeded⟩
        · rintro ⟨rfl | ⟨-, hfirst⟩, hnew, hneeded⟩
          · exact absurd hseen hnew
          · exact ⟨hfirst, hnew, hneeded⟩
      -- no row of a new namespace is kept yet
      · have hmet : Met t all c 0 kept := by
          intro b hb hns
          constructor
          · exact fun h => absurd (hns ▸ hkept b hb h) hseen
          · rintro ⟨j, hj, -⟩
            omega
        have hloop (key : String × String) :
            key ∈ keepAncestors all blobs all.length (some c) (deltaChannels c) kept ↔
              key ∈ kept ∨ NeededFrom blobs t c 0 key :=
          mem_keepAncestors hall (hrows c (by simp)) (List.length_filter_le _ _) hmet
            (by intro j hj; omega)
        rw [if_neg hseen]
        change key ∈ keepHeads all blobs rows (c.checkpointNs :: namespaces)
          (keepAncestors all blobs all.length (some c) (deltaChannels c) kept) ↔ _
        rw [ih hrest ?_, hloop, or_assoc]
        · refine or_congr Iff.rfl ?_
          constructor
          · rintro (hneeded | ⟨head, hfirst, hnew, hneeded⟩)
            · exact ⟨c, .inl rfl, hseen, hneeded⟩
            · rw [List.mem_cons, not_or] at hnew
              exact ⟨head, .inr ⟨hnew.1, hfirst⟩, hnew.2, hneeded⟩
          · rintro ⟨head, rfl | ⟨hne, hfirst⟩, hnew, hneeded⟩
            · exact .inl hneeded
            · refine .inr ⟨head, hfirst, ?_, hneeded⟩
              rw [List.mem_cons, not_or]
              exact ⟨hne, hnew⟩
        -- what the loop keeps is in the namespace of its head
        · intro b hb hmem
          rw [List.mem_cons]
          rcases (hloop _).mp hmem with h | ⟨m, d, -, hd, hkey, -⟩
          · exact .inr (hkept b hb h)
          · have hns : d.checkpointNs = b.checkpointNs := congrArg Prod.fst hkey
            exact .inl (hns ▸ (ancestor_mem hall (hrows c (by simp)) hd).2)

/-- In rows that are sorted by id, newest first, the first of a namespace is its head. -/
theorem firstOf_iff (hunique : ∀ b ∈ rows, ∀ c ∈ rows, b.nameKey = c.nameKey → b = c)
    (hsorted : rows.Pairwise fun b c => c.checkpointId ≤ b.checkpointId) :
    FirstOf rows head ↔ head ∈ rows ∧ ∀ c ∈ rows, c.checkpointNs = head.checkpointNs →
      c.checkpointId ≤ head.checkpointId := by
  induction rows with
  | nil => simp [FirstOf]
  | cons b rows ih =>
      obtain ⟨hbelow, hrest⟩ := List.pairwise_cons.mp hsorted
      have ih := ih (fun c hc d hd => hunique c (by simp [hc]) d (by simp [hd])) hrest
      rw [FirstOf, ih]
      constructor
      · rintro (rfl | ⟨hne, hmem, hgreatest⟩)
        · refine ⟨by simp, fun c hc _ => ?_⟩
          rcases List.mem_cons.mp hc with rfl | hc
          · exact String.le_refl _
          · exact hbelow c hc
        · refine ⟨by simp [hmem], fun c hc hns => ?_⟩
          rcases List.mem_cons.mp hc with rfl | hc
          · exact absurd hns.symm hne
          · exact hgreatest c hc hns
      · rintro ⟨hmem, hgreatest⟩
        rcases List.mem_cons.mp hmem with rfl | hmem'
        · exact .inl rfl
        -- the greatest id of the namespace comes first, and ids are unique in it
        · by_cases hns : head.checkpointNs = b.checkpointNs
          · have hid := String.le_antisymm (hbelow head hmem') (hgreatest b (by simp) hns.symm)
            exact .inl (hunique head hmem b (by simp) (Prod.ext hns hid))
          · exact .inr ⟨hns, hmem', fun c hc => hgreatest c (by simp [hc])⟩

theorem neededFrom_zero (hc : c ∈ t) (hhead : head ∈ t) (hscope : c.scope = head.scope) :
    NeededFrom blobs t head 0 c.nameKey ↔ Needed blobs t head c := by
  simp only [NeededFrom, Needed, pendingAt_ne_nil]
  constructor
  · rintro ⟨m, b, -, hb, hkey, hall⟩
    obtain ⟨hbt, hbs, -⟩ := ancestor_spec hhead hb
    -- a stored checkpoint of the same scope with the same namespace and id is the same
    have hbc : b = c := by
      refine Table.eq_of_mem_of_key_eq hbt hc ?_
      change (b.scope, b.nameKey) = (c.scope, c.nameKey)
      rw [hbs, hscope, hkey]
    exact ⟨m, hbc ▸ hb, hall⟩
  · rintro ⟨m, hm, hall⟩
    exact ⟨m, c, Nat.zero_le m, hm, rfl, hall⟩

end Loop

/-- What `prune_checkpoints` keeps of a thread. -/
theorem mem_keptKeys {blobs : List BlobKey} {id : ThreadId} {db : Db} {c : CheckpointRow}
    (hc : c ∈ db.checkpoints) (hscope : c.scope = .thread id) :
    c.nameKey ∈ keptKeys blobs id db ↔ Kept blobs db.checkpoints c := by
  have hrows : RowsOf db.checkpoints id ((db.checkpoints.rows.filter fun c =>
      c.scope = .thread id).insertionSort fun a b => b.checkpointId ≤ a.checkpointId) := by
    intro b
    rw [List.mem_insertionSort, List.mem_filter, decide_eq_true_eq]
    exact Iff.rfl
  have hsorted := List.pairwise_insertionSort (fun a b : CheckpointRow =>
    b.checkpointId ≤ a.checkpointId) (db.checkpoints.rows.filter fun c => c.scope = .thread id)
  have hmem : c.nameKey ∈ keptKeys blobs id db ↔ _ :=
    mem_keepHeads hrows (fun _ h => h) (by simp)
  have hunique := fun b hb d hd hkey => hrows.eq_of_nameKey (b := b) (c := d) hb hd hkey
  rw [hmem, Kept]
  simp only [List.not_mem_nil, false_or, not_false_eq_true, true_and]
  refine exists_congr fun head => ?_
  rw [firstOf_iff hunique hsorted]
  constructor
  · rintro ⟨⟨hhead, hgreatest⟩, hneeded⟩
    obtain ⟨hstored, hhs⟩ := (hrows head).mp hhead
    refine ⟨⟨hstored, fun b hb hbs => hgreatest b ((hrows b).mpr ⟨hb, hbs.trans hhs⟩)⟩, ?_⟩
    exact (neededFrom_zero hc hstored (hscope.trans hhs.symm)).mp hneeded
  · rintro ⟨hhead, hneeded⟩
    have hcs : c.scope = head.scope := by
      obtain ⟨m, hm, -⟩ := hneeded
      exact (ancestor_spec hhead.stored hm).2.1
    have hhs : head.scope = .thread id := hcs.symm.trans hscope
    refine ⟨⟨(hrows head).mpr ⟨hhead.stored, hhs⟩, fun b hb hns => ?_⟩, ?_⟩
    · obtain ⟨hbt, hbs⟩ := (hrows b).mp hb
      exact hhead.greatest b hbt (hbs.trans hhs.symm) hns
    · exact (neededFrom_zero hc hhead.stored hcs).mpr hneeded

/-! ## The database after pruning -/

/-- The database that `prune_checkpoints` leaves. -/
def pruned (blobs : List BlobKey) (id : ThreadId) (db : Db) : Db :=
  { db with
    checkpointWrites := db.checkpointWrites.filter fun w =>
      !(w.scope = .thread id && (w.checkpointNs, w.checkpointId) ∈ droppedKeys blobs id db)
    checkpoints := db.checkpoints.filter fun c =>
      !(c.scope = .thread id && (c.checkpointNs, c.checkpointId) ∈ droppedKeys blobs id db)
    baselines := db.baselines.filter fun b => b.threadId ≠ id }

/-- A run of the thread executes or rolls back. -/
def Db.Busy (db : Db) (id : ThreadId) : Prop :=
  ∃ r ∈ db.runs, r.threadId = some id ∧ (r.status = .running ∨ r.reason = some .rollback)

section Prune

variable {blobs : List BlobKey} {id : ThreadId} {db : Db} {avail : Lock → Bool}
  {head c : CheckpointRow} {w : CheckpointWriteRow} {channel : String}

theorem busy_iff : db.Busy id ↔ (db.runs.rows.any fun r =>
    r.threadId = some id && (r.status = .running || r.reason = some .rollback)) = true := by
  simp only [Db.Busy, List.any_eq_true, Bool.and_eq_true, Bool.or_eq_true, decide_eq_true_eq]
  exact Iff.rfl

theorem prune_busy (h : db.Busy id) : engine.run avail (pruneCheckpoints blobs id) db =
    some (.error (.checkpointConflict "cannot prune a thread while a run is executing"), db) := by
  rw [busy_iff] at h
  refine Txn.run_error_iff.mpr ⟨?_, rfl⟩
  rw [pruneCheckpoints, Txn.raises_bind]
  refine .inr ⟨true, db, Txn.returns_query.mpr ⟨h.symm, rfl⟩, ?_⟩
  rw [if_pos rfl, Txn.raises_throw]

theorem prune_idle (h : ¬ db.Busy id) :
    engine.run avail (pruneCheckpoints blobs id) db = some (.ok (), pruned blobs id db) := by
  rw [busy_iff, Bool.not_eq_true] at h
  rw [Txn.run_ok_iff, pruneCheckpoints, Txn.returns_bind]
  refine ⟨false, db, Txn.returns_query.mpr ⟨h.symm, rfl⟩, ?_⟩
  rw [if_neg (by simp), Txn.returns_bind]
  refine ⟨_, db, Txn.returns_query.mpr ⟨rfl, rfl⟩, ?_⟩
  rw [Txn.returns_bind]
  exact ⟨(), _, Txn.returns_write.mpr rfl, Txn.returns_write.mpr rfl⟩

theorem mem_droppedKeys (hc : c ∈ db.checkpoints) (hscope : c.scope = .thread id) :
    c.nameKey ∈ droppedKeys blobs id db ↔ ¬ Kept blobs db.checkpoints c := by
  rw [← mem_keptKeys hc hscope, droppedKeys, List.mem_filter, decide_eq_true_eq]
  constructor
  · exact And.right
  · intro h
    exact ⟨List.mem_map.mpr ⟨c, List.mem_filter.mpr ⟨hc, by simpa using hscope⟩, rfl⟩, h⟩

theorem mem_pruned : c ∈ (pruned blobs id db).checkpoints ↔
    c ∈ db.checkpoints ∧ (c.scope = .thread id → Kept blobs db.checkpoints c) := by
  rw [pruned, Table.mem_filter]
  refine and_congr_right fun hc => ?_
  simp only [Bool.not_eq_true', Bool.and_eq_false_iff, decide_eq_false_iff_not]
  constructor
  · rintro (h | h) hscope
    · exact absurd hscope h
    · by_contra hkept
      exact h ((mem_droppedKeys hc hscope).mpr hkept)
  · intro h
    by_cases hscope : c.scope = .thread id
    · exact .inr fun hdropped => (mem_droppedKeys hc hscope).mp hdropped (h hscope)
    · exact .inl hscope

theorem mem_pruned_writes : w ∈ (pruned blobs id db).checkpointWrites ↔
    w ∈ db.checkpointWrites ∧ ∀ c ∈ db.checkpoints, c.scope = .thread id → w.scope = c.scope →
      (w.checkpointNs, w.checkpointId) = c.nameKey → Kept blobs db.checkpoints c := by
  rw [pruned, Table.mem_filter]
  refine and_congr_right fun _ => ?_
  simp only [Bool.not_eq_true', Bool.and_eq_false_iff, decide_eq_false_iff_not]
  constructor
  · rintro h c hc hscope hws hkey
    by_contra hkept
    have hdropped : c.nameKey ∈ droppedKeys blobs id db := (mem_droppedKeys hc hscope).mpr hkept
    rcases h with h | h
    · exact h (hws.trans hscope)
    · exact h (hkey ▸ hdropped)
  · intro h
    by_cases hws : w.scope = .thread id
    · refine .inr fun hdropped => ?_
      obtain ⟨c, hmem, hkey⟩ := List.mem_map.mp (List.mem_filter.mp hdropped).1
      obtain ⟨hc, hscope⟩ := List.mem_filter.mp hmem
      rw [decide_eq_true_eq] at hscope
      rw [← hkey] at hdropped
      exact (mem_droppedKeys hc hscope).mp hdropped
        (h c hc hscope (hws.trans hscope.symm) hkey.symm)
    · exact .inl hws

theorem find?_pruned {k : CheckpointScope × String × String}
    (h : db.checkpoints.find? k = none) : (pruned blobs id db).checkpoints.find? k = none := by
  rw [pruned, Table.find?_filter, h]
  rfl

/-- The link of a checkpoint whose parent is kept. -/
theorem parentIn_pruned
    (h : ∀ p, c.parentIn db.checkpoints = some p → p ∈ (pruned blobs id db).checkpoints) :
    c.parentIn (pruned blobs id db).checkpoints = c.parentIn db.checkpoints := by
  unfold CheckpointRow.parentIn at h ⊢
  cases hparent : c.parentCheckpointId with
  | none => rfl
  | some p =>
      rw [hparent] at h
      simp only [Option.bind_some] at h ⊢
      cases hfind : db.checkpoints.find? (c.scope, c.checkpointNs, p) with
      | none => exact find?_pruned hfind
      | some b => exact Table.find?_eq_some.mpr ⟨h b hfind, Table.key_of_find? hfind⟩

/-- The links of a head, as far as checkpoints are needed. -/
theorem ancestor_pruned (id : ThreadId) {k : Nat} (hhead : IsHead db.checkpoints head)
    (hall : ∀ j < k, ∃ channel ∈ deltaChannels head,
      Unresolved blobs db.checkpoints head channel (j + 1)) {i : Nat} (hi : i ≤ k) :
    ancestor (pruned blobs id db).checkpoints head i = ancestor db.checkpoints head i := by
  refine walk_congr fun j hj b hb => parentIn_pruned fun p hp => ?_
  have hnext : ancestor db.checkpoints head (j + 1) = some p := by
    rw [ancestor_succ]
    exact (congrArg (fun o => o.bind fun c => c.parentIn db.checkpoints) hb).trans hp
  refine mem_pruned.mpr ⟨(parentIn_spec hp).1, fun _ => ?_⟩
  exact ⟨head, hhead, j + 1, hnext, fun m hm => hall m (by omega)⟩

theorem isHead_pruned (hhead : IsHead db.checkpoints head) :
    IsHead (pruned blobs id db).checkpoints head := by
  refine ⟨mem_pruned.mpr ⟨hhead.stored, fun _ => ?_⟩, fun c hc => ?_⟩
  · exact ⟨head, hhead, 0, rfl, fun j hj => absurd hj (by omega)⟩
  · exact hhead.greatest c (mem_pruned.mp hc).1

/-- What is kept is still needed. -/
theorem kept_pruned (id : ThreadId) (h : Kept blobs db.checkpoints c) :
    Kept blobs (pruned blobs id db).checkpoints c := by
  obtain ⟨head, hhead, k, hk, hall⟩ := h
  have hsame {i : Nat} (hi : i ≤ k) := ancestor_pruned id hhead hall hi
  refine ⟨head, isHead_pruned hhead, k, (hsame le_rfl).trans hk, fun j hj => ?_⟩
  obtain ⟨channel, hmem, hunresolved⟩ := hall j hj
  refine ⟨channel, hmem, fun i hi b hb => hunresolved i hi b ?_⟩
  rw [← hsame (by omega)]
  exact hb

/-- Pruning twice is pruning once. -/
theorem pruned_pruned : pruned blobs id (pruned blobs id db) = pruned blobs id db := by
  have hnone : droppedKeys blobs id (pruned blobs id db) = [] := by
    rw [droppedKeys, List.filter_eq_nil_iff]
    intro key hkey
    obtain ⟨c, hmem, rfl⟩ := List.mem_map.mp hkey
    obtain ⟨hc, hscope⟩ := List.mem_filter.mp hmem
    rw [decide_eq_true_eq] at hscope
    have hkept := kept_pruned id ((mem_pruned.mp hc).2 hscope)
    have hmem : (c.checkpointNs, c.checkpointId) ∈ keptKeys blobs id (pruned blobs id db) :=
      (mem_keptKeys hc hscope).mpr hkept
    simpa using hmem
  have hbaselines : (pruned blobs id db).baselines.filter (fun b => b.threadId ≠ id) =
      (pruned blobs id db).baselines :=
    Table.filter_eq_self fun b hb => (Table.mem_filter.mp hb).2
  conv_lhs => rw [pruned, hnone, hbaselines]
  rw [Table.filter_eq_self (by simp), Table.filter_eq_self (by simp)]

theorem writes_pruned (hkept : c.scope = .thread id → Kept blobs db.checkpoints c)
    (hc : c ∈ db.checkpoints) :
    ((pruned blobs id db).checkpointWrites.rows.filter fun w => w.scope = c.scope &&
      w.checkpointNs = c.checkpointNs && w.checkpointId = c.checkpointId) =
    db.checkpointWrites.rows.filter fun w => w.scope = c.scope &&
      w.checkpointNs = c.checkpointNs && w.checkpointId = c.checkpointId := by
  rw [pruned, Table.rows_filter, List.filter_filter]
  refine List.filter_congr fun w _ => ?_
  by_cases hw : (w.scope = c.scope ∧ w.checkpointNs = c.checkpointNs) ∧
      w.checkpointId = c.checkpointId
  · obtain ⟨⟨hs, hn⟩, hi⟩ := hw
    have hstay : ¬ (c.scope = .thread id ∧ c.nameKey ∈ droppedKeys blobs id db) := by
      rintro ⟨hscope, hdropped⟩
      exact (mem_droppedKeys hc hscope).mp hdropped (hkept hscope)
    rw [hs, hn, hi]
    simp only [decide_true, Bool.true_and, Bool.not_eq_true', Bool.and_eq_false_iff,
      decide_eq_false_iff_not]
    exact not_and_or.mp hstay
  · have hfalse : (decide (w.scope = c.scope) && decide (w.checkpointNs = c.checkpointNs) &&
        decide (w.checkpointId = c.checkpointId)) = false := by
      simpa [Bool.and_eq_false_iff] using hw
    rw [hfalse, Bool.false_and]

/-- The walk that rebuilds a channel of a head reads what it read before. -/
theorem rebuild_pruned (hhead : IsHead db.checkpoints head)
    (hchannel : channel ∈ deltaChannels head) {n k : Nat}
    (hc : ancestor db.checkpoints head k = some c)
    (hunresolved : Unresolved blobs db.checkpoints head channel k) :
    rebuild blobs (pruned blobs id db) channel n c = rebuild blobs db channel n c := by
  induction n generalizing k c with
  | zero => rfl
  | succ n ih =>
      have hall : ∀ j < k, ∃ channel ∈ deltaChannels head,
          Unresolved blobs db.checkpoints head channel (j + 1) := fun j hj =>
        ⟨channel, hchannel, fun i hi => hunresolved i (by omega)⟩
      have hstored := (ancestor_spec hhead.stored hc).1
      rw [rebuild, rebuild, writes_pruned (fun _ => ⟨head, hhead, k, hc, hall⟩) hstored]
      split
      · rfl
      · next hresolves =>
          have hmore : Unresolved blobs db.checkpoints head channel (k + 1) := by
            intro j hj b hb
            rcases Nat.lt_succ_iff_lt_or_eq.mp hj with hlt | rfl
            · exact hunresolved j hlt b hb
            · rw [hc] at hb
              obtain rfl := Option.some.inj hb
              simpa [resolves] using hresolves
          have hnext (p : CheckpointRow) (hp : c.parentIn db.checkpoints = some p) :
              ancestor db.checkpoints head (k + 1) = some p := by
            rw [ancestor_succ, hc]
            exact hp
          have hparent : c.parentIn (pruned blobs id db).checkpoints =
              c.parentIn db.checkpoints := by
            refine parentIn_pruned fun p hp => mem_pruned.mpr ⟨(parentIn_spec hp).1, fun _ => ?_⟩
            refine ⟨head, hhead, k + 1, hnext p hp, fun j hj => ?_⟩
            exact ⟨channel, hchannel, fun i hi => hmore i (by omega)⟩
          rw [hparent]
          cases hp : c.parentIn db.checkpoints with
          | none => rfl
          | some p => exact congrArg _ (ih (hnext p hp) hmore)

end Prune

/-- `prune_checkpoints` on a busy thread raises and changes nothing. On any other it keeps
what the heads of the thread need, deletes the other checkpoints and their writes and the
baselines of the thread, and nothing else; the rebuilding walks and a second run find all
as it was. -/
theorem prune_spec (blobs : List BlobKey) (id : ThreadId) (db : Db) (avail : Lock → Bool) :
    (db.Busy id → ∃ message, engine.run avail (pruneCheckpoints blobs id) db =
      some (.error (.checkpointConflict message), db)) ∧
    (¬ db.Busy id → ∃ db', engine.run avail (pruneCheckpoints blobs id) db = some (.ok (), db') ∧
      (∀ c, c ∈ db'.checkpoints ↔
        c ∈ db.checkpoints ∧ (c.scope = .thread id → Kept blobs db.checkpoints c)) ∧
      (∀ w, w ∈ db'.checkpointWrites ↔ w ∈ db.checkpointWrites ∧
        ∀ c ∈ db.checkpoints, c.scope = .thread id → w.scope = c.scope →
          (w.checkpointNs, w.checkpointId) = c.nameKey → Kept blobs db.checkpoints c) ∧
      db' = { db with
        checkpoints := db'.checkpoints
        checkpointWrites := db'.checkpointWrites
        baselines := db.baselines.filter fun b => b.threadId ≠ id } ∧
      (∀ head channel n, IsHead db.checkpoints head → channel ∈ deltaChannels head →
        rebuild blobs db' channel n head = rebuild blobs db channel n head) ∧
      engine.run avail (pruneCheckpoints blobs id) db' = some (.ok (), db')) := by
  refine ⟨fun hbusy => ⟨_, prune_busy hbusy⟩, fun hidle => ?_⟩
  refine ⟨pruned blobs id db, prune_idle hidle, fun c => mem_pruned, fun w => mem_pruned_writes,
    rfl, ?_, ?_⟩
  · intro head channel n hhead hchannel
    exact rebuild_pruned (k := 0) hhead hchannel rfl fun j hj => absurd hj (by omega)
  · have hidle' : ¬ (pruned blobs id db).Busy id := hidle
    rw [prune_idle hidle', pruned_pruned]

end GraphHarbor
