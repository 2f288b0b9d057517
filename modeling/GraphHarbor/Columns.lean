import GraphHarbor.Transitions
import GraphHarbor.Footprint

/-!
# Columns of a thread that a transaction leaves alone

`status` and `interrupts` are written by few statements. A program that issues none of
them keeps the column of every thread, whatever the database returns to it.
-/

namespace GraphHarbor

open Kit Txn

variable {γ : Type} {g : ThreadRow → γ} {now : Time} {α β : Type} {avail : Lock → Bool}
  {v v' : Db}

/-- The column `g` of the thread `t`, if it exists. -/
def Db.column (g : ThreadRow → γ) (v : Db) (t : ThreadId) : Option γ := (v.threads.find? t).map g

/-- The statement writes no other value to the column `g`. -/
def Stmt.KeepsColumn (g : ThreadRow → γ) : (β : Type) → Stmt β → Prop
  | _, .assignThread _ f => ∀ t : ThreadRow, g (t.assign f) = g t
  | _, .updateThread _ f _ => ∀ t : ThreadRow, g (f t) = g t
  | _, .insertThread _ | _, .deleteThread _ => False
  | _, _ => True

/-- The program writes no other value to the column `g`. -/
def Txn.KeepsColumn (g : ThreadRow → γ) (p : Txn α) : Prop := Prog.All (Stmt.KeepsColumn g) p

/-- The counter of the log is not part of the column. -/
def Uncounted (g : ThreadRow → γ) : Prop :=
  ∀ n (t : ThreadRow), g (t.assign (.numbered n)) = g t

/-- The counter does not touch the status. -/
theorem uncounted_status : Uncounted ThreadRow.status := fun _ _ => rfl

/-! ## What a kept column is -/

/-- Locked columns are written to one thread, and `g` is not among them. -/
theorem Db.column_updateThread {t y : ThreadId} {f : ThreadRow → ThreadRow} {hf}
    (hg : ∀ t : ThreadRow, g (f t) = g t) :
    (v.updateThread t f hf).column g y = v.column g y := by
  unfold Db.column Db.updateThread
  rw [Table.find?_modify]
  split
  · cases v.threads.find? y with
    | none => rfl
    | some thread => simp [hg]
  · rfl

/-- What an assignment leaves in the column of each thread. -/
theorem Db.column_assignThread {t y : ThreadId} {f : ThreadRow → ThreadRow} :
    (v.assignThread t f).column g y =
      if y = t then (v.threads.find? y).map fun thread => g (thread.assign f)
        else v.column g y := by
  unfold Db.column
  rw [Db.find?_assignThread]
  split
  · rw [Option.map_map]
    rfl
  · rfl

/-- The step lemma: one statement, whatever it finds. -/
theorem Stmt.direct_column {s : Stmt β} {b : β} (hs : s.KeepsColumn g)
    (h : s.direct avail v = some (.ok (b, v'))) (t : ThreadId) :
    v'.column g t = v.column g t := by
  cases s with
  | insertThread | deleteThread => exact hs.elim
  | assignThread y f =>
      simp only [direct] at h
      (repeat' split at h) <;> simp only [Option.some.injEq, Except.ok.injEq, Prod.mk.injEq,
        reduceCtorEq] at h <;> obtain ⟨-, rfl⟩ := h
      · rfl
      · exact Db.column_updateThread hs
  | updateThread y f hf =>
      simp only [direct] at h
      (repeat' split at h) <;> simp only [Option.some.injEq, Except.ok.injEq, Prod.mk.injEq,
        reduceCtorEq] at h <;> obtain ⟨-, rfl⟩ := h
      · rfl
      · exact Db.column_updateThread hs
  | update f w hw =>
      obtain ⟨-, rfl⟩ := by simpa [direct] using h
      unfold Db.column
      rw [(hw v).2]
  | _ =>
      simp only [direct] at h
      (repeat' split at h) <;> simp only [Option.some.injEq, Except.ok.injEq, Prod.mk.injEq,
        reduceCtorEq] at h <;> obtain ⟨-, rfl⟩ := h <;> rfl

/-- A program that keeps a column leaves it as it was, for every thread. -/
theorem Txn.KeepsColumn.column {p : Txn α} (hp : p.KeepsColumn g) {a : α}
    (h : p.Returns avail v a v') (t : ThreadId) : v'.column g t = v.column g t := by
  refine Txn.preserves_of_all (I := fun u => u.column g t = v.column g t)
    (fun _ _ _ u u' hs hdirect hu => ?_) hp h rfl
  rw [Stmt.direct_column hs hdirect t, hu]

/-! ## Single statements -/

namespace Txn.KeepsColumn

theorem ret {a : α} : KeepsColumn g (.ret a) := Prog.All.ret

theorem throw {e : Err} : KeepsColumn (α := α) g (.throw e) := Prog.All.throw

theorem perform {s : Stmt β} (hs : s.KeepsColumn g) : KeepsColumn g (Prog.perform s) :=
  Prog.All.perform hs

theorem bind {p : Txn α} {f : α → Txn β} (hp : p.KeepsColumn g)
    (hf : ∀ a, (f a).KeepsColumn g) : KeepsColumn g (p >>= f) := Prog.All.bind hp hf

theorem query {f : Db → β} : (query f).KeepsColumn g := .perform trivial

theorem lockRun {id : RunId} : (lockRun id).KeepsColumn g := .perform trivial

theorem lockThread {t : ThreadId} : (lockThread t).KeepsColumn g := .perform trivial

theorem assignRun {id : RunId} {f : RunRow → RunRow} : (assignRun id f).KeepsColumn g :=
  .perform trivial

theorem assignThread {t : ThreadId} {f : ThreadRow → ThreadRow}
    (hf : ∀ t : ThreadRow, g (t.assign f) = g t) : (assignThread t f).KeepsColumn g :=
  .perform hf

theorem insertEvent {e : RuntimeEventRow} : (insertEvent e).KeepsColumn g := .perform trivial

theorem write {w : Db → Db} {hw} : (write w hw).KeepsColumn g := .perform trivial

end Txn.KeepsColumn

/-! ## `run_store.py` -/

section RunStore

variable {repo : RunRepository} {id : RunId} {t : ThreadId} {th : Option ThreadId}
  {owner topic : String} {payload : Dict} {ns : List String} {terminal : Bool} {run : RunRow}

/-- The graph's name is read, nothing is written. -/
theorem withGraphName_column : (withGraphName run topic payload).KeepsColumn g := by
  unfold withGraphName
  split
  · exact .bind .query fun _ => .ret
  · exact .ret

/-- The one write of a thread while an event is recorded is its counter. -/
theorem nextSequence_column (hg : Uncounted g) : (nextSequence run).KeepsColumn g := by
  unfold nextSequence
  split
  · refine .bind .lockThread fun thread => ?_
    split
    · exact .throw
    · exact .bind .query fun _ => .bind (.assignThread (hg _)) fun _ => .ret
  · exact .bind .query fun _ => .ret

/-- Recording an event, also one that exists already. -/
theorem recordRunEvent_column (hg : Uncounted g) :
    (recordRunEvent now id th topic payload ns terminal).KeepsColumn g := by
  have hexisting : (existingTerminal id terminal).KeepsColumn g := by
    unfold existingTerminal
    split
    · exact .query
    · exact .ret
  refine .bind .lockRun fun run => ?_
  split
  · exact .throw
  · split
    · exact .throw
    · refine .bind withGraphName_column fun _ => .bind hexisting fun ex => ?_
      split
      · exact .ret
      · exact .bind (nextSequence_column hg) fun _ => .bind .assignRun fun _ =>
          .bind .insertEvent fun _ => .ret

theorem deleteLease_column : (deleteLease id).KeepsColumn g := .write

/-- The events that end with the attempt, by induction on their list. -/
theorem recordPreceding_column (hg : Uncounted g) {events : List (String × Dict × List String)} :
    (recordPreceding now id th events).KeepsColumn g := by
  induction events with
  | nil => exact .ret
  | cons e es ih => exact .bind (recordRunEvent_column hg) fun _ => .bind ih fun _ => .ret

/-- The end of an attempt writes the run; its thread is written by the worker, afterwards. -/
theorem finish_column (hg : Uncounted g) {target : RunStatus} {reason : RunReason}
    {payload : Option Dict} {preceding : List (String × Dict × List String)} :
    (finish now id owner target reason payload preceding).KeepsColumn g := by
  have hend (id : RunId) (th : Option ThreadId) (payload : Option Dict) :
      (recordEnd now id th payload).KeepsColumn g := by
    unfold recordEnd
    split
    · exact .ret
    · exact .bind (recordRunEvent_column hg) fun _ => .ret
  refine .bind .lockRun fun run => ?_
  split
  · exact .throw
  · split
    · exact .ret
    · split
      · exact .throw
      · split
        · exact .throw
        · refine .bind (.bind (recordPreceding_column hg) fun _ => ?_) fun _ => .ret
          split
          · exact .throw
          · exact .bind .assignRun fun _ => .bind deleteLease_column fun _ =>
              .bind (hend _ _ _) fun _ => .ret

/-- A failed attempt, tried again or not. -/
theorem fail_column (hg : Uncounted g) {infrastructure : Bool} {reason : RunReason}
    {payload : Option Dict} :
    (fail repo now id owner infrastructure reason payload).KeepsColumn g := by
  refine .bind .lockRun fun run => ?_
  split
  · exact .throw
  · split
    · exact .throw
    · split
      · exact .ret
      · split
        · exact .throw
        · exact .bind .assignRun fun _ => .bind deleteLease_column fun _ =>
            .bind (recordRunEvent_column hg) fun _ => .ret

end RunStore

end GraphHarbor
