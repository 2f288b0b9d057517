import GraphHarbor.Kit.TSys
import GraphHarbor.Models

/-!
# Versions of an assistant

`assistants_create`, `assistants_update` and `assistants_latest` on one assistant. A call
reads the assistant row without a lock; its flush writes the columns that changed since it
read them and takes the row lock, which it holds up to its commit. An update takes its
version number from the row that it read, which `assistants_latest` can move back and
another update can have used.
-/

namespace GraphHarbor

open Kit

/-! ## Rows -/

/-- The columns that a version row copies. -/
structure AssistantColumns where
  graphId : Json
  name : Json
  description : Json
  config : Json
  context : Json
  metadata : Dict
  deriving DecidableEq

/-- A row of `assistant_versions`. -/
structure AssistantVersionRow where
  version : Int
  columns : AssistantColumns
  deriving DecidableEq

instance : Keyed AssistantVersionRow Int := ⟨AssistantVersionRow.version⟩

@[simp] theorem key_version (r : AssistantVersionRow) : Keyed.key r = r.version := rfl

/-- The rows of one assistant. The row of `assistants` has the columns of a version too. -/
structure AssistantDb where
  row : Option AssistantVersionRow
  versions : Table AssistantVersionRow

/-- What PostgreSQL and the mapper decide: which values the columns accept (not null, the
lengths), and which new value of a column counts as unchanged (`==` of Python). -/
structure ColumnRules where
  accepts : AssistantColumns → Bool
  unchanged : Json → Json → Bool
  unchanged_refl : ∀ a, unchanged a a = true

namespace ColumnRules

variable (rules : ColumnRules)

/-- A flush writes a column that changed since it was loaded. -/
def pick (old new stored : Json) : Json := if rules.unchanged old new then stored else new

def pickDict (old new stored : Dict) : Dict :=
  if rules.unchanged (.obj old) (.obj new) then stored else new

/-- The stored columns after the flush of an object loaded as `old` and now `new`. -/
def merge (old new stored : AssistantColumns) : AssistantColumns where
  graphId := rules.pick old.graphId new.graphId stored.graphId
  name := rules.pick old.name new.name stored.name
  description := rules.pick old.description new.description stored.description
  config := rules.pick old.config new.config stored.config
  context := rules.pick old.context new.context stored.context
  metadata := rules.pickDict old.metadata new.metadata stored.metadata

/-- Every column that the flush leaves out has its new value already. -/
structure Unmoved (old new stored : AssistantColumns) : Prop where
  graphId : rules.unchanged old.graphId new.graphId = true → stored.graphId = new.graphId
  name : rules.unchanged old.name new.name = true → stored.name = new.name
  description : rules.unchanged old.description new.description = true →
    stored.description = new.description
  config : rules.unchanged old.config new.config = true → stored.config = new.config
  context : rules.unchanged old.context new.context = true → stored.context = new.context
  metadata : rules.unchanged (.obj old.metadata) (.obj new.metadata) = true →
    stored.metadata = new.metadata

variable {rules} {old new stored : AssistantColumns}

theorem pick_eq_new {a b c : Json} :
    rules.pick a b c = b ↔ (rules.unchanged a b = true → c = b) := by
  unfold pick
  split
  · next h => simp [h]
  · next h => simp [h]

theorem pickDict_eq_new {a b c : Dict} :
    rules.pickDict a b c = b ↔ (rules.unchanged (.obj a) (.obj b) = true → c = b) := by
  unfold pickDict
  split
  · next h => simp [h]
  · next h => simp [h]

theorem merge_eq_new : rules.merge old new stored = new ↔ rules.Unmoved old new stored := by
  constructor
  · intro h
    have h' := AssistantColumns.mk.inj h
    exact ⟨pick_eq_new.mp h'.1, pick_eq_new.mp h'.2.1, pick_eq_new.mp h'.2.2.1,
      pick_eq_new.mp h'.2.2.2.1, pick_eq_new.mp h'.2.2.2.2.1, pickDict_eq_new.mp h'.2.2.2.2.2⟩
  · rintro ⟨h₁, h₂, h₃, h₄, h₅, h₆⟩
    rw [merge, pick_eq_new.mpr h₁, pick_eq_new.mpr h₂, pick_eq_new.mpr h₃, pick_eq_new.mpr h₄,
      pick_eq_new.mpr h₅, pickDict_eq_new.mpr h₆]

theorem merge_same : rules.merge old old stored = stored := by
  simp [merge, pick, pickDict, rules.unchanged_refl]

end ColumnRules

/-! ## Calls -/

/-- The fields of the payload of `assistants_update` that are there; `metadata` when it is
an object. -/
structure AssistantPatch where
  graphId : Option Json := none
  name : Option Json := none
  description : Option Json := none
  config : Option Json := none
  context : Option Json := none
  metadata : Option Dict := none

/-- The row object after the assignments of `assistants_update`. -/
def AssistantPatch.apply (patch : AssistantPatch) (c : AssistantColumns) : AssistantColumns where
  graphId := patch.graphId.getD c.graphId
  name := patch.name.getD c.name
  description := patch.description.getD c.description
  config := patch.config.getD c.config
  context := patch.context.getD c.context
  metadata := (patch.metadata.getD []).foldl (fun d f => d.set f.1 f.2) c.metadata

/-- The calls on the assistant; `create` with the columns it builds from its payload. -/
inductive AssistantCall
  | create (columns : AssistantColumns)
  | update (patch : AssistantPatch)
  | latest (version : Int)

/-- A call between its reads and its commit. -/
inductive AssistantTask
  | creating (columns : AssistantColumns)
  | updating (patch : AssistantPatch) (loaded : AssistantVersionRow)
  | switching (version : Int) (loaded : AssistantVersionRow) (target : Option AssistantColumns)

inductive AssistantReply
  | pending
  | notFound
  | exists
  | created
  | updated (version : Int)
  | switched
  /-- An exception of the flush; the transaction is rolled back. -/
  | failed
  deriving DecidableEq

structure AssistantState where
  db : AssistantDb
  tasks : List (Nat × AssistantTask)

/-- The moves of the calls: the first query, the lookup of the version row by
`assistants_latest`, the flush and commit. -/
inductive AssistantMove
  | start (i : Nat) (call : AssistantCall)
  | lookup (i : Nat)
  | commit (i : Nat)

namespace AssistantState

variable (s : AssistantState)

def task (i : Nat) : Option AssistantTask := (s.tasks.find? (·.1 = i)).map (·.2)

def setTask (i : Nat) (t : AssistantTask) : AssistantState :=
  { s with tasks := s.tasks.filter (·.1 ≠ i) ++ [(i, t)] }

def endTask (i : Nat) (db : AssistantDb) : AssistantState :=
  { db, tasks := s.tasks.filter (·.1 ≠ i) }

end AssistantState

/-- The first query of a call. An authorised caller finds the row if it is there. -/
def startCall (s : AssistantState) (i : Nat) (call : AssistantCall) :
    AssistantState × AssistantReply :=
  match call, s.db.row with
  | .create columns, none => (s.setTask i (.creating columns), .pending)
  | .create _, some _ => (s, .exists)
  | .update _, none => (s, .notFound)
  | .update patch, some loaded => (s.setTask i (.updating patch loaded), .pending)
  | .latest _, none => (s, .notFound)
  | .latest version, some loaded => (s.setTask i (.switching version loaded none), .pending)

/-- `session.get(AssistantVersionRow, (assistant_id, version))`. -/
def lookupVersion (s : AssistantState) (i : Nat) : Option (AssistantState × AssistantReply) :=
  match s.task i with
  | some (.switching version loaded none) =>
      match s.db.versions.find? version with
      | none => some (s.endTask i s.db, .notFound)
      | some r => some (s.setTask i (.switching version loaded (some r.columns)), .pending)
  | _ => none

/-- The flush and the commit of `assistants_create`. -/
def commitCreate (rules : ColumnRules) (columns : AssistantColumns) (db : AssistantDb) :
    AssistantDb × AssistantReply :=
  if rules.accepts columns && db.row.isNone && (db.versions.find? 1).isNone then
    ({ row := some ⟨1, columns⟩, versions := db.versions.insert ⟨1, columns⟩ }, .created)
  else (db, .failed)

/-- The flush and the commit of `assistants_update`: `row.version += 1`, and a version row
of that number. -/
def commitUpdate (rules : ColumnRules) (patch : AssistantPatch) (loaded : AssistantVersionRow)
    (db : AssistantDb) : AssistantDb × AssistantReply :=
  let new := patch.apply loaded.columns
  let version := loaded.version + 1
  match db.row with
  | none => (db, .failed)
  | some row =>
      if rules.accepts new && (db.versions.find? version).isNone then
        ({ row := some ⟨version, rules.merge loaded.columns new row.columns⟩
           versions := db.versions.insert ⟨version, new⟩ }, .updated version)
      else (db, .failed)

/-- The flush and the commit of `assistants_latest`. -/
def commitLatest (rules : ColumnRules) (version : Int) (loaded : AssistantVersionRow)
    (target : AssistantColumns) (db : AssistantDb) : AssistantDb × AssistantReply :=
  match db.row with
  | none => (db, .failed)
  | some row =>
      ({ db with
         row := some ⟨pick loaded.version version row.version,
           rules.merge loaded.columns target row.columns⟩ }, .switched)

def commitTask (rules : ColumnRules) (s : AssistantState) (i : Nat) :
    Option (AssistantState × AssistantReply) :=
  match s.task i with
  | some (.creating columns) =>
      let r := commitCreate rules columns s.db
      some (s.endTask i r.1, r.2)
  | some (.updating patch loaded) =>
      let r := commitUpdate rules patch loaded s.db
      some (s.endTask i r.1, r.2)
  | some (.switching version loaded (some target)) =>
      let r := commitLatest rules version loaded target s.db
      some (s.endTask i r.1, r.2)
  | _ => none

def AssistantState.next (rules : ColumnRules) (s : AssistantState) :
    AssistantMove → Option (AssistantState × AssistantReply)
  | .start i call => if (s.task i).isSome then none else some (startCall s i call)
  | .lookup i => lookupVersion s i
  | .commit i => commitTask rules s i

/-- The calls on an assistant that does not exist yet, in any order of their moves. -/
def assistantCalls (rules : ColumnRules) :
    TSys AssistantState (AssistantMove × AssistantReply) where
  init s := s = ⟨⟨none, .empty⟩, []⟩
  step s l s' := s.next rules l.1 = some (s', l.2)

/-! ## What the history must be -/

/-- The assistant row is the version row of its number. -/
def AssistantDb.Consistent (db : AssistantDb) : Prop := ∀ row, db.row = some row → row ∈ db.versions

/-- A step of an append-only history. -/
structure KeepsHistory (s : AssistantState) (l : AssistantMove × AssistantReply)
    (s' : AssistantState) : Prop where
  appendOnly : ∀ r ∈ s.db.versions, r ∈ s'.db.versions
  succeeds : ∀ i patch loaded, l.1 = .commit i → s.task i = some (.updating patch loaded) →
    ∃ version, l.2 = .updated version ∧ (∀ r ∈ s.db.versions, r.version < version) ∧
      ∃ columns, ⟨version, columns⟩ ∈ s'.db.versions
  consistent : s'.db.Consistent

/-- The condition on a commit. An update read the greatest version, its columns are
accepted, and the columns it leaves out have not been moved since it read them. A switch to
another version finds the columns unmoved that it leaves out. -/
def Undisturbed (rules : ColumnRules) (s : AssistantState) : AssistantMove → Prop
  | .commit i =>
      match s.task i with
      | some (.updating patch loaded) =>
          rules.accepts (patch.apply loaded.columns) = true ∧
          (∀ r ∈ s.db.versions, r.version ≤ loaded.version) ∧
          ∀ row, s.db.row = some row →
            rules.Unmoved loaded.columns (patch.apply loaded.columns) row.columns
      | some (.switching version loaded (some target)) =>
          version = loaded.version ∨
          ∀ row, s.db.row = some row → rules.Unmoved loaded.columns target row.columns
      | _ => True
  | _ => True

/-- What a task has read is a version row. -/
def AssistantTask.Read (db : AssistantDb) : AssistantTask → Prop
  | .creating _ => True
  | .updating _ loaded => loaded ∈ db.versions
  | .switching version loaded target =>
      loaded ∈ db.versions ∧ ∀ columns, target = some columns → ⟨version, columns⟩ ∈ db.versions

structure AssistantState.Sound (s : AssistantState) : Prop where
  consistent : s.db.Consistent
  absent : s.db.row = none → ∀ r, r ∉ s.db.versions
  read : ∀ i t, s.task i = some t → t.Read s.db

section Steps

variable {rules : ColumnRules} {s s' : AssistantState} {i j : Nat} {db db' : AssistantDb}
  {t : AssistantTask} {reply : AssistantReply}

theorem find?_tasks (tasks : List (Nat × AssistantTask)) :
    (tasks.filter (·.1 ≠ i)).find? (·.1 = j) = if j = i then none else tasks.find? (·.1 = j) := by
  induction tasks with
  | nil => simp
  | cons a tasks ih =>
      rw [List.filter_cons, List.find?_cons]
      by_cases hi : a.1 = i <;> by_cases hj : a.1 = j <;> by_cases h : j = i <;>
        simp_all

theorem task_setTask : (s.setTask i t).task j = if j = i then some t else s.task j := by
  rw [AssistantState.task, AssistantState.setTask, List.find?_append, find?_tasks]
  by_cases h : j = i
  · simp [h]
  · simp [h, Ne.symm h, AssistantState.task]

theorem task_endTask : (s.endTask i db).task j = if j = i then none else s.task j := by
  rw [AssistantState.task, AssistantState.endTask, find?_tasks]
  by_cases h : j = i <;> simp [h, AssistantState.task]

theorem AssistantTask.Read.mono (h : t.Read db) (hsub : ∀ r ∈ db.versions, r ∈ db'.versions) :
    t.Read db' := by
  cases t with
  | creating columns => trivial
  | updating patch loaded => exact hsub _ h
  | switching version loaded target => exact ⟨hsub _ h.1, fun c hc => hsub _ (h.2 c hc)⟩

theorem AssistantState.Sound.setTask (h : s.Sound) (ht : t.Read s.db) : (s.setTask i t).Sound := by
  refine ⟨h.consistent, h.absent, fun j t' hj => ?_⟩
  rw [task_setTask] at hj
  split at hj
  · obtain rfl := Option.some.inj hj
    exact ht
  · exact h.read j t' hj

theorem AssistantState.Sound.endTask (h : s.Sound) (hdb : db.Consistent)
    (habsent : db.row = none → ∀ r, r ∉ db.versions)
    (hsub : ∀ r ∈ s.db.versions, r ∈ db.versions) : (s.endTask i db).Sound := by
  refine ⟨hdb, habsent, fun j t hj => ?_⟩
  rw [task_endTask] at hj
  split at hj
  · cases hj
  · exact (h.read j t hj).mono hsub

/-- A task that has read a row finds one. -/
theorem AssistantState.Sound.row {r : AssistantVersionRow} (h : s.Sound) (hr : r ∈ s.db.versions) :
    ∃ row, s.db.row = some row := by
  cases hrow : s.db.row with
  -- without a row there are no versions, and the task read one
  | none => exact absurd hr (h.absent hrow r)
  | some row => exact ⟨row, rfl⟩

/-- `assistants_create`. -/
theorem commitCreate_spec (rules : ColumnRules) (columns : AssistantColumns) (h : s.Sound) :
    (commitCreate rules columns s.db).1.Consistent ∧
      ((commitCreate rules columns s.db).1.row = none →
        ∀ r, r ∉ (commitCreate rules columns s.db).1.versions) ∧
      ∀ r ∈ s.db.versions, r ∈ (commitCreate rules columns s.db).1.versions := by
  unfold commitCreate
  split
  · next hok =>
      simp only [Bool.and_eq_true, Option.isNone_iff_eq_none] at hok
      have hmem {r : AssistantVersionRow} : r ∈ s.db.versions.insert ⟨1, columns⟩ ↔
          r ∈ s.db.versions ∨ r = ⟨1, columns⟩ := Table.mem_insert hok.2
      refine ⟨fun row hrow => ?_, by simp, fun r hr => hmem.mpr (.inl hr)⟩
      obtain rfl := Option.some.inj hrow
      exact hmem.mpr (.inr rfl)
  · exact ⟨h.consistent, h.absent, fun _ hr => hr⟩

/-- `assistants_update`: it succeeds with the next number exactly when no version is greater
than the one it read, and then the row has the columns of the new version exactly when they
were not moved. -/
theorem commitUpdate_spec (rules : ColumnRules) (patch : AssistantPatch)
    {loaded : AssistantVersionRow} (h : s.Sound)
    (hloaded : loaded ∈ s.db.versions) :
    (∀ r ∈ s.db.versions, r ∈ (commitUpdate rules patch loaded s.db).1.versions) ∧
    ((commitUpdate rules patch loaded s.db).1.row = none →
      ∀ r, r ∉ (commitUpdate rules patch loaded s.db).1.versions) ∧
    ((∃ version, (commitUpdate rules patch loaded s.db).2 = .updated version ∧
        (∀ r ∈ s.db.versions, r.version < version) ∧
        ∃ columns, ⟨version, columns⟩ ∈ (commitUpdate rules patch loaded s.db).1.versions) ∧
      (commitUpdate rules patch loaded s.db).1.Consistent ↔
    rules.accepts (patch.apply loaded.columns) = true ∧
      (∀ r ∈ s.db.versions, r.version ≤ loaded.version) ∧
      ∀ row, s.db.row = some row →
        rules.Unmoved loaded.columns (patch.apply loaded.columns) row.columns) := by
  obtain ⟨row, hrow⟩ := h.row hloaded
  unfold commitUpdate
  simp only [hrow]
  split
  · next hok =>
      simp only [Bool.and_eq_true, Option.isNone_iff_eq_none] at hok
      obtain ⟨haccepts, hfresh⟩ := hok
      have hmem {r : AssistantVersionRow} :
          r ∈ s.db.versions.insert ⟨loaded.version + 1, patch.apply loaded.columns⟩ ↔
            r ∈ s.db.versions ∨ r = ⟨loaded.version + 1, patch.apply loaded.columns⟩ :=
        Table.mem_insert hfresh
      -- the row is the new version row exactly when the flush moved every column to it
      have hconsistent : AssistantDb.Consistent
          ⟨some ⟨loaded.version + 1,
            rules.merge loaded.columns (patch.apply loaded.columns) row.columns⟩,
          s.db.versions.insert ⟨loaded.version + 1, patch.apply loaded.columns⟩⟩ ↔
          rules.Unmoved loaded.columns (patch.apply loaded.columns) row.columns := by
        rw [← ColumnRules.merge_eq_new]
        constructor
        · intro hcons
          -- the old versions have other numbers, so the row can only be the new one
          rcases hmem.mp (hcons _ rfl) with hold | hnew
          · exact absurd rfl (Table.find?_eq_none.mp hfresh _ hold)
          · exact (AssistantVersionRow.mk.inj hnew).2
        · intro hmerge row' hrow'
          obtain rfl := Option.some.inj hrow'
          exact hmem.mpr (.inr (by rw [hmerge]))
      refine ⟨fun r hr => hmem.mpr (.inl hr), by simp, ?_⟩
      constructor
      · rintro ⟨⟨version, hversion, hgreatest, -⟩, hcons⟩
        obtain rfl := AssistantReply.updated.inj hversion
        refine ⟨haccepts, fun r hr => by have := hgreatest r hr; omega, fun row' hrow' => ?_⟩
        obtain rfl := Option.some.inj hrow'
        exact hconsistent.mp hcons
      · rintro ⟨-, hgreatest, hunmoved⟩
        refine ⟨⟨_, rfl, fun r hr => by have := hgreatest r hr; omega, _, hmem.mpr (.inr rfl)⟩, ?_⟩
        exact hconsistent.mpr (hunmoved row rfl)
  -- the number is taken or a column refuses its value: nothing is written
  · next hbad =>
      refine ⟨fun _ hr => hr, fun hnone => h.absent hnone, ?_⟩
      constructor
      · rintro ⟨⟨version, hversion, -⟩, -⟩
        cases hversion
      · rintro ⟨haccepts, hgreatest, -⟩
        exfalso
        apply hbad
        rw [haccepts, Bool.true_and, Option.isNone_iff_eq_none, Table.find?_eq_none]
        intro r hr hkey
        have := hgreatest r hr
        rw [key_version] at hkey
        omega

/-- `assistants_latest`. -/
theorem commitLatest_spec (rules : ColumnRules) {version : Int} {loaded : AssistantVersionRow}
    {target : AssistantColumns} (h : s.Sound) (hloaded : loaded ∈ s.db.versions)
    (htarget : ⟨version, target⟩ ∈ s.db.versions) :
    (commitLatest rules version loaded target s.db).1.versions = s.db.versions ∧
    (commitLatest rules version loaded target s.db).1.row ≠ none ∧
    ((commitLatest rules version loaded target s.db).1.Consistent ↔
      version = loaded.version ∨
      ∀ row, s.db.row = some row → rules.Unmoved loaded.columns target row.columns) := by
  obtain ⟨row, hrow⟩ := h.row hloaded
  unfold commitLatest
  simp only [hrow]
  refine ⟨trivial, by simp, ?_⟩
  by_cases hsame : version = loaded.version
  · -- the version that was read: no column changes
    have heq : (⟨version, target⟩ : AssistantVersionRow) = loaded :=
      Table.eq_of_mem_of_key_eq htarget hloaded hsame
    obtain rfl : target = loaded.columns := congrArg AssistantVersionRow.columns heq
    subst hsame
    rw [pick_same, ColumnRules.merge_same]
    constructor
    · exact fun _ => .inl rfl
    · intro _ row' hrow'
      obtain rfl := Option.some.inj hrow'
      exact h.consistent row hrow
  -- another version: the row must be the target, which the merge decides
  · rw [pick_of_ne (Ne.symm hsame)]
    simp only [hsame, false_or, Option.some.injEq, forall_eq', ← ColumnRules.merge_eq_new]
    constructor
    · intro hcons
      have hmem := hcons _ rfl
      have heq := Table.eq_of_mem_of_key_eq (t := s.db.versions) hmem htarget rfl
      exact congrArg AssistantVersionRow.columns heq
    · intro hmerge row' hrow'
      obtain rfl := Option.some.inj hrow'
      rw [hmerge]
      exact htarget

theorem KeepsHistory.of_db {l : AssistantMove × AssistantReply} (h : s.db.Consistent)
    (hdb : s'.db = s.db) (hl : ∀ i, l.1 ≠ .commit i) : KeepsHistory s l s' where
  appendOnly _ hr := hdb ▸ hr
  succeeds i _ _ hi := absurd hi (hl i)
  consistent := hdb ▸ h

theorem startCall_spec (i : Nat) (call : AssistantCall) (h : s.Sound) :
    (startCall s i call).1.db = s.db ∧ (startCall s i call).1.Sound := by
  cases hrow : s.db.row with
  | none =>
      cases call with
      | create columns =>
          simp only [startCall, hrow]
          exact ⟨rfl, h.setTask trivial⟩
      | update patch =>
          simp only [startCall, hrow]
          exact ⟨trivial, h⟩
      | latest version =>
          simp only [startCall, hrow]
          exact ⟨trivial, h⟩
  | some loaded =>
      -- what is read is the row, and so a version row
      have hloaded := h.consistent loaded hrow
      cases call with
      | create columns =>
          simp only [startCall, hrow]
          exact ⟨trivial, h⟩
      | update patch =>
          simp only [startCall, hrow]
          exact ⟨rfl, h.setTask hloaded⟩
      | latest version =>
          simp only [startCall, hrow]
          exact ⟨rfl, h.setTask ⟨hloaded, nofun⟩⟩

theorem lookupVersion_spec (h : s.Sound) (hstep : lookupVersion s i = some (s', reply)) :
    s'.db = s.db ∧ s'.Sound := by
  unfold lookupVersion at hstep
  split at hstep
  · next version loaded htask =>
      have hread : loaded ∈ s.db.versions := (h.read i _ htask).1
      split at hstep
      · obtain ⟨rfl, -⟩ := Prod.mk.inj (Option.some.inj hstep)
        exact ⟨rfl, h.endTask h.consistent h.absent fun _ hr => hr⟩
      · next r hfind =>
          obtain ⟨rfl, -⟩ := Prod.mk.inj (Option.some.inj hstep)
          refine ⟨rfl, h.setTask ⟨hread, ?_⟩⟩
          rintro columns hcolumns
          obtain rfl := Option.some.inj hcolumns
          obtain ⟨hr, hkey⟩ := Table.find?_eq_some.mp hfind
          rw [← hkey]
          exact hr
  · cases hstep

/-- One move. -/
theorem next_spec {move : AssistantMove} (h : s.Sound)
    (hstep : s.next rules move = some (s', reply)) :
    (KeepsHistory s (move, reply) s' ↔ Undisturbed rules s move) ∧
      (Undisturbed rules s move → s'.Sound) := by
  cases move with
  | start i call =>
      simp only [AssistantState.next] at hstep
      split at hstep
      · cases hstep
      · obtain ⟨hdb, hsound⟩ := startCall_spec i call h
        rw [Option.some.inj hstep] at hdb hsound
        -- the first query and the lookup write nothing
        exact ⟨⟨fun _ => trivial, fun _ => .of_db h.consistent hdb nofun⟩, fun _ => hsound⟩
  | lookup i =>
      obtain ⟨hdb, hsound⟩ := lookupVersion_spec h hstep
      exact ⟨⟨fun _ => trivial, fun _ => .of_db h.consistent hdb nofun⟩, fun _ => hsound⟩
  | commit i =>
      simp only [AssistantState.next, commitTask] at hstep
      split at hstep
      · next columns htask =>
          obtain ⟨rfl, rfl⟩ := Prod.mk.inj (Option.some.inj hstep)
          obtain ⟨hcons, habsent, hsub⟩ := commitCreate_spec rules columns h
          -- a creation makes no promise on updates
          refine ⟨⟨fun _ => by simp [Undisturbed, htask], fun _ => ⟨hsub, ?_, hcons⟩⟩,
            fun _ => h.endTask hcons habsent hsub⟩
          intro j patch loaded hj htask'
          obtain rfl := AssistantMove.commit.inj hj
          rw [htask] at htask'
          cases htask'
      · next patch loaded htask =>
          obtain ⟨rfl, rfl⟩ := Prod.mk.inj (Option.some.inj hstep)
          have hloaded : loaded ∈ s.db.versions := h.read i _ htask
          obtain ⟨hsub, habsent, hiff⟩ := commitUpdate_spec rules patch h hloaded
          simp only [Undisturbed, htask]
          rw [← hiff]
          refine ⟨⟨fun hkeeps => ⟨hkeeps.succeeds i patch loaded rfl htask, hkeeps.consistent⟩, ?_⟩,
            fun hok => h.endTask hok.2 habsent hsub⟩
          rintro ⟨hsucceeds, hcons⟩
          refine ⟨hsub, fun j patch' loaded' hj htask' => ?_, hcons⟩
          obtain rfl := AssistantMove.commit.inj hj
          exact hsucceeds
      · next version loaded target htask =>
          obtain ⟨rfl, rfl⟩ := Prod.mk.inj (Option.some.inj hstep)
          obtain ⟨hloaded, htarget⟩ := h.read i _ htask
          obtain ⟨hversions, hrow, hiff⟩ := commitLatest_spec rules h hloaded
            (htarget target rfl)
          have hsub : ∀ r ∈ s.db.versions,
              r ∈ (commitLatest rules version loaded target s.db).1.versions := by
            rw [hversions]
            exact fun _ hr => hr
          simp only [Undisturbed, htask]
          rw [← hiff]
          refine ⟨⟨fun hkeeps => hkeeps.consistent, fun hcons => ⟨hsub, ?_, hcons⟩⟩,
            fun hcons => h.endTask hcons (fun hnone => absurd hnone hrow) hsub⟩
          intro j patch loaded' hj htask'
          obtain rfl := AssistantMove.commit.inj hj
          rw [htask] at htask'
          cases htask'
      · cases hstep

end Steps

/-- The calls whose commits are all undisturbed keep what the next call relies on. -/
theorem undisturbed_inductive (rules : ColumnRules) :
    ((assistantCalls rules).restrict fun s l => Undisturbed rules s l.1).Inductive
      AssistantState.Sound where
  init s hs := by
    obtain rfl : s = ⟨⟨none, .empty⟩, []⟩ := hs
    exact ⟨nofun, fun _ r => Table.not_mem_empty, nofun⟩
  step s l s' h hstep := (next_spec h hstep.1).2 hstep.2

/-- In every run whose commits are all undisturbed the row is a version, and at each step
the history stays append-only, updates succeed with the next number and the row is a
version, exactly when that step is undisturbed too. -/
theorem history_iff_undisturbed (rules : ColumnRules) (s : AssistantState)
    (h : ((assistantCalls rules).restrict fun s l => Undisturbed rules s l.1).Reachable s) :
    s.db.Consistent ∧ ∀ l s', (assistantCalls rules).step s l s' →
      (KeepsHistory s l s' ↔ Undisturbed rules s l.1) := by
  have hsound := (undisturbed_inductive rules).invariant s h
  exact ⟨hsound.consistent, fun l s' hstep => (next_spec hsound hstep).1⟩

/-- Columns that accept every value, and are compared as they are. -/
def plainRules : ColumnRules := ⟨fun _ => true, fun a b => a = b, by simp⟩

def someColumns : AssistantColumns := ⟨.str "agent", .str "Untitled", .null, .obj [], .obj [], []⟩

/-- An update that gives the assistant another name. -/
def renamed : AssistantPatch := { name := some (.str "Agent") }

/-- An assistant that was created, renamed and set back to its first version. -/
theorem history_iff_undisturbed_created : ∃ s : AssistantState,
    s.db.row = some ⟨1, someColumns⟩ ∧ ⟨2, renamed.apply someColumns⟩ ∈ s.db.versions.rows ∧
      s.db.Consistent ∧ ∀ l s', (assistantCalls plainRules).step s l s' →
        (KeepsHistory s l s' ↔ Undisturbed plainRules s l.1) := by
  let first : AssistantVersionRow := ⟨1, someColumns⟩
  let second : AssistantVersionRow := ⟨2, renamed.apply someColumns⟩
  let created : AssistantDb := ⟨some first, Table.empty.insert first⟩
  let updated : AssistantDb := ⟨some second, created.versions.insert second⟩
  let switched : AssistantDb := ⟨some first, updated.versions⟩
  let s₁ : AssistantState := ⟨⟨none, .empty⟩, [(0, .creating someColumns)]⟩
  let s₃ : AssistantState := ⟨created, [(1, .updating renamed first)]⟩
  let s₅ : AssistantState := ⟨updated, [(2, .switching 1 second none)]⟩
  let s₆ : AssistantState := ⟨updated, [(2, .switching 1 second (some someColumns))]⟩
  let T := (assistantCalls plainRules).restrict fun s l => Undisturbed plainRules s l.1
  have hcreate : T.step ⟨⟨none, .empty⟩, []⟩ (.start 0 (.create someColumns), .pending) s₁ :=
    ⟨rfl, trivial⟩
  have hcreated : T.step s₁ (.commit 0, .created) ⟨created, []⟩ := ⟨rfl, trivial⟩
  have hupdate : T.step ⟨created, []⟩ (.start 1 (.update renamed), .pending) s₃ := ⟨rfl, trivial⟩
  have hupdated : T.step s₃ (.commit 1, .updated 2) ⟨updated, []⟩ := by
    refine ⟨rfl, rfl, by change ∀ r ∈ created.versions.rows, _; decide, fun row hrow => ?_⟩
    obtain rfl := Option.some.inj hrow
    exact ColumnRules.merge_eq_new.mp (by decide)
  have hswitch : T.step ⟨updated, []⟩ (.start 2 (.latest 1), .pending) s₅ := ⟨rfl, trivial⟩
  have hlookup : T.step s₅ (.lookup 2, .pending) s₆ := ⟨rfl, trivial⟩
  have hswitched : T.step s₆ (.commit 2, .switched) ⟨switched, []⟩ := by
    refine ⟨rfl, .inr fun row hrow => ?_⟩
    obtain rfl := Option.some.inj hrow
    exact ColumnRules.merge_eq_new.mp (by decide)
  have hsteps := ((((((TSys.Steps.nil (T := T)).snoc hcreate).snoc hcreated).snoc
    hupdate).snoc hupdated).snoc hswitch).snoc hlookup
  exact ⟨⟨switched, []⟩, rfl, by decide,
    history_iff_undisturbed plainRules _ ⟨_, _, rfl, hsteps.snoc hswitched⟩⟩

/-- A created assistant is updated, and then set back to its first version. -/
def switchedBack : List AssistantMove :=
  [.start 0 (.create someColumns), .commit 0, .start 1 (.update {}), .commit 1,
    .start 2 (.latest 1), .lookup 2, .commit 2, .start 3 (.update {})]

/-- The commit of the update that was started last fails. -/
def updateFails (s : AssistantState) : Bool :=
  match s.task 3, s.next plainRules (.commit 3) with
  | some (.updating _ _), some (_, .failed) => true
  | _, _ => false

/-- After a switch to an earlier version the next update takes a number that exists. -/
theorem update_fails_after_switch :
    ¬ ∀ (rules : ColumnRules) (s : AssistantState), (assistantCalls rules).Reachable s →
      ∀ l s', (assistantCalls rules).step s l s' → KeepsHistory s l s' := by
  intro h
  have hnext : ∀ s m s', (AssistantState.next plainRules s m).map (·.1) = some s' →
      ∃ l, (assistantCalls plainRules).step s l s' := by
    intro s m s' hs'
    obtain ⟨r, hr, rfl⟩ := Option.map_eq_some_iff.mp hs'
    exact ⟨(m, r.2), hr⟩
  have hinit : (assistantCalls plainRules).init ⟨⟨none, .empty⟩, []⟩ := rfl
  have hplay : (TSys.play (fun s m => (AssistantState.next plainRules s m).map (·.1))
      ⟨⟨none, .empty⟩, []⟩ switchedBack).any updateFails = true := by decide
  obtain ⟨s, hs, hfails⟩ := TSys.play_reachable hnext hinit hplay
  unfold updateFails at hfails
  split at hfails
  · next patch loaded s' htask hstep =>
      obtain ⟨version, hversion, -⟩ := (h plainRules s hs (.commit 3, .failed) s' hstep).succeeds
        3 patch loaded rfl htask
      cases hversion
  · cases hfails

end GraphHarbor
