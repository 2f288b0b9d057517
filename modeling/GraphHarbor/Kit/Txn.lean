import Mathlib.Data.List.Basic
import Mathlib.Data.List.Nodup
import GraphHarbor.Kit.TSys

/-!
# Transactions as statement programs, under READ COMMITTED

A transaction is a program over a statement language `S`. Each statement sees the
committed database with the transaction's own writes applied, may wait for row
locks, and may read and change a session (the identity map of an object mapper).
Writes are buffered as one function on the database and take effect at commit;
locks are held until the transaction ends.

`Engine.step` interleaves any number of transactions statement by statement, and
can also run one transaction whole. `Env.Ends` says how a program may end when other
transactions commit between its statements. A `Discipline` gives the invariant and the
rely condition of a set of programs; one obligation for each program's commit
(`commits`) yields the invariant of every interleaving (`Discipline.inductive_safe`). Where
every commit does what its program would do alone (`Discipline.Reruns`), the interleaved system
is simulated by the one that runs its transactions one after the other.
-/

namespace Kit

/-! ## Programs -/

/-- A transaction body over the statements `S`, raising errors in `ε`. -/
inductive Prog (S : Type → Type 1) (ε : Type) (α : Type) : Type 1
  | ret (a : α)
  | throw (e : ε)
  | stmt {β : Type} (s : S β) (k : β → Prog S ε α)

namespace Prog

variable {S : Type → Type 1} {ε α β γ : Type}

def bind : Prog S ε α → (α → Prog S ε β) → Prog S ε β
  | ret a, f => f a
  | throw e, _ => throw e
  | stmt s k, f => stmt s fun b => bind (k b) f

instance : Monad (Prog S ε) where
  pure := ret
  bind := bind

/-- Issue one statement. -/
def perform (s : S β) : Prog S ε β := stmt s ret

@[simp] theorem pure_eq (a : α) : (pure a : Prog S ε α) = ret a := rfl

@[simp] theorem ret_bind (a : α) (f : α → Prog S ε β) : (ret a >>= f) = f a := rfl

@[simp] theorem throw_bind (e : ε) (f : α → Prog S ε β) :
    ((throw e : Prog S ε α) >>= f) = throw e := rfl

@[simp] theorem stmt_bind (s : S γ) (k : γ → Prog S ε α) (f : α → Prog S ε β) :
    (stmt s k >>= f) = stmt s fun b => k b >>= f := rfl

@[simp] theorem perform_bind (s : S γ) (f : γ → Prog S ε β) :
    (perform s >>= f) = stmt s f := rfl

end Prog

namespace Prog

variable {S : Type → Type 1} {ε α β : Type} {P Q : (γ : Type) → S γ → Prop}

/-- Every statement the program may issue satisfies `P`. -/
def All (P : (γ : Type) → S γ → Prop) : Prog S ε α → Prop
  | ret _ => True
  | throw _ => True
  | stmt s k => P _ s ∧ ∀ b, All P (k b)

theorem All.ret {a : α} : All P (.ret a : Prog S ε α) := trivial

theorem All.throw {e : ε} : All P (.throw e : Prog S ε α) := trivial

theorem All.perform {s : S β} (hs : P β s) : All P (Prog.perform s : Prog S ε β) :=
  ⟨hs, fun _ => trivial⟩

theorem All.bind {p : Prog S ε α} {f : α → Prog S ε β} (hp : All P p)
    (hf : ∀ a, All P (f a)) : All P (p >>= f) := by
  induction p with
  | ret => exact hf _
  | throw => exact trivial
  | stmt s k ih => exact ⟨hp.1, fun b => ih b (hp.2 b)⟩

theorem All.mono {p : Prog S ε α} (hp : All P p) (h : ∀ γ (s : S γ), P γ s → Q γ s) :
    All Q p := by
  induction p with
  | ret => exact trivial
  | throw => exact trivial
  | stmt s k ih => exact ⟨h _ _ hp.1, fun b => ih b (hp.2 b)⟩

/-- Every error the program may raise by itself satisfies `E`. -/
def Throws (E : ε → Prop) : Prog S ε α → Prop
  | ret _ => True
  | throw e => E e
  | stmt _ k => ∀ b, Throws E (k b)

variable {E : ε → Prop}

theorem Throws.ret {a : α} : Throws E (.ret a : Prog S ε α) := trivial

theorem Throws.throw {e : ε} (he : E e) : Throws E (.throw e : Prog S ε α) := he

theorem Throws.perform {s : S β} : Throws E (Prog.perform s : Prog S ε β) := fun _ => trivial

theorem Throws.bind {p : Prog S ε α} {f : α → Prog S ε β} (hp : Throws E p)
    (hf : ∀ a, Throws E (f a)) : Throws E (p >>= f) := by
  induction p with
  | ret => exact hf _
  | throw => exact hp
  | stmt s k ih => exact fun b => ih b (hp b)

end Prog

/-! ## Statements and transactions -/

/-- What a statement returns: its value, the session after it, its write and the locks
it took. -/
structure Outcome (β σ ℓ κ : Type) where
  value : β
  session : κ
  effect : σ → σ := id
  locks : List ℓ := []

/-- The meaning of the statements `S` over databases `σ`, locks `ℓ` and sessions `κ`.
`sem s avail session view` is `none` while the statement waits for a lock that is not
`avail`able. -/
structure Engine (S : Type → Type 1) (σ ℓ κ ε : Type) where
  fresh : κ
  sem : {β : Type} → S β → (ℓ → Bool) → κ → σ → Option (Except ε (Outcome β σ ℓ κ))
  sem_locks : ∀ {β : Type} {s : S β} {avail session view o},
    sem s avail session view = some (.ok o) → ∀ l ∈ o.locks, avail l = true

/-- The private state of an open transaction. -/
structure Tx (σ ℓ κ : Type) where
  held : List ℓ
  effect : σ → σ
  session : κ

namespace Engine

variable {S : Type → Type 1} {σ ℓ κ ε α β ρ : Type} (E : Engine S σ ℓ κ ε)

/-- A transaction that has issued no statement. -/
def start : Tx σ ℓ κ := ⟨[], id, E.fresh⟩

/-- One statement of the transaction `tx` on the committed database `db`. -/
def exec (s : S β) (avail : ℓ → Bool) (tx : Tx σ ℓ κ) (db : σ) :
    Option (Except ε (β × Tx σ ℓ κ)) :=
  match E.sem s avail tx.session (tx.effect db) with
  | none => none
  | some (.error e) => some (.error e)
  | some (.ok o) =>
      some (.ok (o.value, ⟨tx.held ++ o.locks, fun d => o.effect (tx.effect d), o.session⟩))

variable {E} in
theorem exec_ok {s : S β} {avail : ℓ → Bool} {tx tx' : Tx σ ℓ κ} {db : σ} {v : β}
    (h : E.exec s avail tx db = some (.ok (v, tx'))) :
    ∃ o, E.sem s avail tx.session (tx.effect db) = some (.ok o) ∧ v = o.value ∧
      tx' = ⟨tx.held ++ o.locks, fun d => o.effect (tx.effect d), o.session⟩ := by
  unfold exec at h
  split at h
  · simp at h
  · simp at h
  · next o ho =>
      obtain ⟨rfl, rfl⟩ := by simpa using h
      exact ⟨o, ho, rfl, rfl⟩

variable {E} in
theorem exec_error {s : S β} {avail : ℓ → Bool} {tx : Tx σ ℓ κ} {db : σ} {e : ε}
    (h : E.exec s avail tx db = some (.error e)) :
    E.sem s avail tx.session (tx.effect db) = some (.error e) := by
  unfold exec at h
  split at h
  · simp at h
  · next e' he =>
      obtain rfl : e' = e := by simpa using h
      exact he
  · simp at h

/-- The rest of a transaction with no other transaction in between. -/
def runFrom (avail : ℓ → Bool) : Prog S ε α → Tx σ ℓ κ → σ →
    Option (Except ε (α × Tx σ ℓ κ))
  | .ret a, tx, _ => some (.ok (a, tx))
  | .throw e, _, _ => some (.error e)
  | .stmt s k, tx, db =>
      match E.exec s avail tx db with
      | none => none
      | some (.error e) => some (.error e)
      | some (.ok (b, tx')) => runFrom avail (k b) tx' db

/-- A whole transaction on `db`: its result, and the database after its commit or its
rollback. -/
def run (avail : ℓ → Bool) (p : Prog S ε α) (db : σ) : Option (Except ε α × σ) :=
  match E.runFrom avail p E.start db with
  | none => none
  | some (.error e) => some (.error e, db)
  | some (.ok (a, tx)) => some (.ok a, tx.effect db)

/-! ## Interleaved transactions -/

/-- An open transaction: what was asked for, the committed database when it began, and
what is left to do. -/
structure Live (S : Type → Type 1) (σ ℓ κ ε α ρ : Type) where
  request : ρ
  began : σ
  tx : Tx σ ℓ κ
  prog : Prog S ε α

structure Config (S : Type → Type 1) (σ ℓ κ ε α ρ : Type) where
  db : σ
  live : List (Nat × Live S σ ℓ κ ε α ρ)

/-- Choices of the scheduler. `whole q` runs the transaction `q` in one go. -/
inductive Move (ρ : Type)
  | start (i : Nat) (q : ρ)
  | exec (i : Nat)
  | finish (i : Nat)
  | drop (i : Nat)
  | whole (q : ρ)

/-- What a move did. The events that end a transaction carry the committed databases at
its beginning, before and after its end. -/
inductive Event (σ ε α ρ : Type)
  | began (i : Nat) (q : ρ)
  | ran (i : Nat)
  | committed (q : ρ) (a : α) (began before after : σ)
  | failed (q : ρ) (e : ε) (began before : σ)
  | dropped (i : Nat)

variable [DecidableEq ℓ]

/-- The locks transaction `i` need not wait for. -/
def available (live : List (Nat × Live S σ ℓ κ ε α ρ)) (i : Option Nat) (l : ℓ) : Bool :=
  live.all fun p => i = some p.1 ∨ l ∉ p.2.tx.held

def without (live : List (Nat × Live S σ ℓ κ ε α ρ)) (i : Nat) :
    List (Nat × Live S σ ℓ κ ε α ρ) := live.filter (·.1 ≠ i)

def lookup (live : List (Nat × Live S σ ℓ κ ε α ρ)) (i : Nat) :
    Option (Live S σ ℓ κ ε α ρ) := (live.find? (·.1 = i)).map (·.2)

/-- One move; `none` when it is not possible, in particular while a statement waits. -/
def step (program : ρ → Prog S ε α) (c : Config S σ ℓ κ ε α ρ) :
    Move ρ → Option (Event σ ε α ρ × Config S σ ℓ κ ε α ρ)
  | .start i q =>
      match lookup c.live i with
      | some _ => none
      | none => some (.began i q, { c with live := (i, ⟨q, c.db, E.start, program q⟩) :: c.live })
  | .exec i =>
      match lookup c.live i with
      | some ⟨q, b, tx, .stmt s k⟩ =>
          match E.exec s (available c.live (some i)) tx c.db with
          | none => none
          | some (.error e) => some (.failed q e b c.db, { c with live := without c.live i })
          | some (.ok (v, tx')) =>
              some (.ran i, { c with live := (i, ⟨q, b, tx', k v⟩) :: without c.live i })
      | _ => none
  | .finish i =>
      match lookup c.live i with
      | some ⟨q, b, tx, .ret a⟩ =>
          some (.committed q a b c.db (tx.effect c.db), ⟨tx.effect c.db, without c.live i⟩)
      | some ⟨q, b, _, .throw e⟩ =>
          some (.failed q e b c.db, { c with live := without c.live i })
      | _ => none
  | .drop i =>
      match lookup c.live i with
      | some _ => some (.dropped i, { c with live := without c.live i })
      | none => none
  | .whole q =>
      match E.run (available c.live none) (program q) c.db with
      | none => none
      | some (.ok a, db') => some (.committed q a c.db c.db db', { c with db := db' })
      | some (.error e, _) => some (.failed q e c.db c.db, c)

variable {E} in
/-- A commit leads from the committed database to the next. -/
theorem step_committed {program : ρ → Prog S ε α} {c c' : Config S σ ℓ κ ε α ρ} {m : Move ρ}
    {q : ρ} {a : α} {began before after : σ}
    (h : E.step program c m = some (.committed q a began before after, c')) :
    before = c.db ∧ after = c'.db := by
  cases m <;> simp only [step] at h <;> (repeat' split at h) <;>
    simp only [Option.some.injEq, Prod.mk.injEq, reduceCtorEq, false_and,
      Event.committed.injEq] at h
  all_goals
    obtain ⟨⟨-, -, -, rfl, rfl⟩, rfl⟩ := h
    exact ⟨rfl, rfl⟩

variable {E} in
theorem step_failed {program : ρ → Prog S ε α} {c c' : Config S σ ℓ κ ε α ρ} {m : Move ρ}
    {q : ρ} {e : ε} {began before : σ}
    (h : E.step program c m = some (.failed q e began before, c')) :
    before = c.db ∧ c'.db = c.db := by
  cases m <;> simp only [step] at h <;> (repeat' split at h) <;>
    simp only [Option.some.injEq, Prod.mk.injEq, reduceCtorEq, false_and, Event.failed.injEq] at h
  all_goals
    obtain ⟨⟨-, -, -, rfl⟩, rfl⟩ := h
    exact ⟨rfl, rfl⟩

variable {E} in
/-- Only a commit changes the database. -/
theorem step_db {program : ρ → Prog S ε α} {c c' : Config S σ ℓ κ ε α ρ} {m : Move ρ}
    {ev : Event σ ε α ρ} (h : E.step program c m = some (ev, c')) :
    c'.db = c.db ∨ ∃ q a began, ev = .committed q a began c.db c'.db := by
  cases m <;> simp only [step] at h <;> (repeat' split at h) <;>
    simp only [Option.some.injEq, Prod.mk.injEq, reduceCtorEq] at h
  all_goals
    obtain ⟨rfl, rfl⟩ := h
    first
      | exact .inl rfl
      | exact .inr ⟨_, _, _, rfl⟩

/-- The requests that may run statement by statement, and those that may run whole. -/
structure Requests (ρ : Type) where
  stepwise : ρ → Prop
  whole : ρ → Prop

def Requests.allows (Q : Requests ρ) : Move ρ → Prop
  | .start _ q => Q.stepwise q
  | .whole q => Q.whole q
  | _ => True

/-- The transition system of all interleavings of the allowed requests. -/
def system (program : ρ → Prog S ε α) (Q : Requests ρ) (init : σ → Prop) :
    TSys (Config S σ ℓ κ ε α ρ) (Event σ ε α ρ) where
  init c := init c.db ∧ c.live = []
  step c ev c' := ∃ m, Q.allows m ∧ E.step program c m = some (ev, c')

end Engine

/-! ## How a program may end -/

variable {S : Type → Type 1} {σ ℓ κ ε α β ρ : Type}

/-- What a transaction may assume of its environment. `rely H db db'`: the committed
database may change from `db` to `db'` while the transaction holds the locks `H`.
`admits`: what may be assumed of each statement it issues. -/
structure Env (E : Engine S σ ℓ κ ε) where
  rely : List ℓ → σ → σ → Prop
  admits : {β : Type} → S β → (ℓ → Bool) → Tx σ ℓ κ → σ → Prop
  refl : ∀ H db, rely H db db
  trans : ∀ {H a b c}, rely H a b → rely H b c → rely H a c
  mono : ∀ {H H' a b}, H ⊆ H' → rely H' a b → rely H a b

namespace Env

variable {E : Engine S σ ℓ κ ε} (Γ : Env E)

/-- `Γ.Ends p tx db r tx' db'`: begun with the transaction state `tx` when `db` is the
committed database, `p` may end with result `r` in state `tx'` when `db'` is. -/
def Ends : Prog S ε α → Tx σ ℓ κ → σ → Except ε α → Tx σ ℓ κ → σ → Prop
  | .ret a, tx, db, r, tx', db' => r = .ok a ∧ tx' = tx ∧ Γ.rely tx.held db db'
  | .throw e, tx, db, r, tx', db' => r = .error e ∧ tx' = tx ∧ Γ.rely tx.held db db'
  | .stmt s k, tx, db, r, tx', db' => ∃ db₁ avail, Γ.rely tx.held db db₁ ∧
      ((∃ e, E.exec s avail tx db₁ = some (.error e) ∧ r = .error e ∧ tx' = tx ∧ db' = db₁) ∨
        ∃ v tx₁, Γ.admits s avail tx db₁ ∧ E.exec s avail tx db₁ = some (.ok (v, tx₁)) ∧
          Ends (k v) tx₁ db₁ r tx' db')

variable {Γ} {p : Prog S ε α} {f : α → Prog S ε β} {tx tx' : Tx σ ℓ κ} {db db' db₁ : σ}
  {r : Except ε α}

theorem exec_held {s : S β} {avail : ℓ → Bool} {v : β}
    (h : E.exec s avail tx db = some (.ok (v, tx'))) : tx.held ⊆ tx'.held := by
  unfold Engine.exec at h
  split at h
  · simp at h
  · simp at h
  · obtain ⟨_, rfl⟩ := by simpa using h
    exact List.subset_append_left _ _

theorem Ends.held (h : Γ.Ends p tx db r tx' db') : tx.held ⊆ tx'.held := by
  induction p generalizing tx db with
  | ret a => exact h.2.1 ▸ fun _ => id
  | throw e => exact h.2.1 ▸ fun _ => id
  | stmt s k ih =>
      obtain ⟨db₁, avail, -, ⟨e, -, -, rfl, -⟩ | ⟨v, tx₁, -, hexec, hk⟩⟩ := h
      · exact fun _ => id
      · exact fun l hl => ih v hk (exec_held hexec hl)

/-- Up to its end the environment respects the locks the program started with. -/
theorem Ends.rely (h : Γ.Ends p tx db r tx' db') : Γ.rely tx.held db db' := by
  induction p generalizing tx db with
  | ret a => exact h.2.2
  | throw e => exact h.2.2
  | stmt s k ih =>
      obtain ⟨db₁, avail, hrely, ⟨e, -, -, -, rfl⟩ | ⟨v, tx₁, -, hexec, hk⟩⟩ := h
      · exact hrely
      · exact Γ.trans hrely (Γ.mono (exec_held hexec) (ih v hk))

theorem Ends.of_rely (hrely : Γ.rely tx.held db db₁) (h : Γ.Ends p tx db₁ r tx' db') :
    Γ.Ends p tx db r tx' db' := by
  cases p with
  | ret a => exact ⟨h.1, h.2.1, Γ.trans hrely h.2.2⟩
  | throw e => exact ⟨h.1, h.2.1, Γ.trans hrely h.2.2⟩
  | stmt s k =>
      obtain ⟨db₂, avail, hrely', hrest⟩ := h
      exact ⟨db₂, avail, Γ.trans hrely hrely', hrest⟩

/-- A finished program may wait. -/
theorem Ends.wait {a : α} (h : Γ.Ends p tx db (.ok a) tx' db₁) (hrely : Γ.rely tx'.held db₁ db') :
    Γ.Ends p tx db (.ok a) tx' db' := by
  induction p generalizing tx db with
  | ret b =>
      obtain ⟨hb, rfl, hrely'⟩ := h
      exact ⟨hb, rfl, Γ.trans hrely' hrely⟩
  | throw e => cases h.1
  | stmt s k ih =>
      obtain ⟨db₂, avail, hrely', ⟨e, -, hr, -⟩ | ⟨v, tx₁, hadm, hexec, hk⟩⟩ := h
      · cases hr
      · exact ⟨db₂, avail, hrely', .inr ⟨v, tx₁, hadm, hexec, ih v hk⟩⟩

/-- A sequence ends in its first part's error, or in its second part. -/
theorem ends_bind {r : Except ε β} (h : Γ.Ends (p >>= f) tx db r tx' db') :
    (∃ e, Γ.Ends p tx db (.error e) tx' db' ∧ r = .error e) ∨
      ∃ a tx₁ db₁, Γ.Ends p tx db (.ok a) tx₁ db₁ ∧ Γ.Ends (f a) tx₁ db₁ r tx' db' := by
  induction p generalizing tx db with
  | ret a => exact .inr ⟨a, tx, db, ⟨rfl, rfl, Γ.refl _ _⟩, h⟩
  | throw e => exact .inl ⟨e, ⟨rfl, h.2⟩, h.1⟩
  | stmt s k ih =>
      obtain ⟨db₁, avail, hrely, ⟨e, hexec, hr, htx, hdb⟩ | ⟨v, tx₁, hadm, hexec, hk⟩⟩ := h
      · exact .inl ⟨e, ⟨db₁, avail, hrely, .inl ⟨e, hexec, rfl, htx, hdb⟩⟩, hr⟩
      · rcases ih v hk with ⟨e, he, hr⟩ | ⟨a, tx₂, db₂, ha, hf⟩
        · exact .inl ⟨e, ⟨db₁, avail, hrely, .inr ⟨v, tx₁, hadm, hexec, he⟩⟩, hr⟩
        · exact .inr ⟨a, tx₂, db₂, ⟨db₁, avail, hrely, .inr ⟨v, tx₁, hadm, hexec, ha⟩⟩, hf⟩

theorem ends_bind_ok {b : β} (h : Γ.Ends (p >>= f) tx db (.ok b) tx' db') :
    ∃ a tx₁ db₁, Γ.Ends p tx db (.ok a) tx₁ db₁ ∧ Γ.Ends (f a) tx₁ db₁ (.ok b) tx' db' := by
  rcases ends_bind h with ⟨e, -, hr⟩ | h
  · cases hr
  · exact h

theorem Ends.bind {r : Except ε β} {a : α} {tx₁ : Tx σ ℓ κ} (hp : Γ.Ends p tx db (.ok a) tx₁ db₁)
    (hf : Γ.Ends (f a) tx₁ db₁ r tx' db') : Γ.Ends (p >>= f) tx db r tx' db' := by
  induction p generalizing tx db with
  | ret b =>
      obtain ⟨hb, rfl, hrely⟩ := hp
      cases hb
      exact hf.of_rely hrely
  | throw e => cases hp.1
  | stmt s k ih =>
      obtain ⟨db₂, avail, hrely, ⟨e, -, hr, -⟩ | ⟨v, tx₂, hadm, hexec, hk⟩⟩ := hp
      · cases hr
      · exact ⟨db₂, avail, hrely, .inr ⟨v, tx₂, hadm, hexec, ih v hk⟩⟩

/-- A single statement, and what the environment does before and after it. -/
theorem ends_perform {s : S β} {b : β} (h : Γ.Ends (Prog.perform s) tx db (.ok b) tx' db') :
    ∃ db₁ avail, Γ.rely tx.held db db₁ ∧ Γ.admits s avail tx db₁ ∧
      E.exec s avail tx db₁ = some (.ok (b, tx')) ∧ Γ.rely tx'.held db₁ db' := by
  obtain ⟨db₁, avail, hrely, ⟨e, -, hr, -⟩ | ⟨v, tx₁, hadm, hexec, hv, htx, hrely'⟩⟩ := h
  · cases hr
  · cases hv
    subst htx
    exact ⟨db₁, avail, hrely, hadm, hexec, hrely'⟩

theorem ends_perform_error {s : S β} {e : ε}
    (h : Γ.Ends (Prog.perform s) tx db (.error e) tx' db') :
    ∃ db₁ avail, Γ.rely tx.held db db₁ ∧ E.exec s avail tx db₁ = some (.error e) := by
  obtain ⟨db₁, avail, hrely, ⟨e', hexec, hr, -⟩ | ⟨v, tx₁, -, -, hr, -⟩⟩ := h
  · cases hr
    exact ⟨db₁, avail, hrely, hexec⟩
  · cases hr

end Env

/-- A transaction that runs whole: nothing changes between its statements. -/
def Env.alone (E : Engine S σ ℓ κ ε) (avail : ℓ → Bool) : Env E where
  rely _ db db' := db' = db
  admits _ avail' _ _ := avail' = avail
  refl _ _ := rfl
  trans h h' := h'.trans h
  mono _ h := h

theorem Engine.runFrom_ends {E : Engine S σ ℓ κ ε} {avail : ℓ → Bool} {p : Prog S ε α}
    {tx tx' : Tx σ ℓ κ} {db : σ} {a : α} (h : E.runFrom avail p tx db = some (.ok (a, tx'))) :
    (Env.alone E avail).Ends p tx db (.ok a) tx' db := by
  induction p generalizing tx with
  | ret a => simp_all [runFrom, Env.Ends, Env.alone]
  | throw e => simp [runFrom] at h
  | stmt s k ih =>
      refine ⟨db, avail, rfl, .inr ?_⟩
      simp only [runFrom] at h
      split at h
      · simp at h
      · simp at h
      · next v tx₁ hexec => exact ⟨v, tx₁, rfl, hexec, ih v h⟩

theorem Engine.runFrom_fails {E : Engine S σ ℓ κ ε} {avail : ℓ → Bool} {p : Prog S ε α}
    {tx : Tx σ ℓ κ} {db : σ} {e : ε} (h : E.runFrom avail p tx db = some (.error e)) :
    ∃ tx', (Env.alone E avail).Ends p tx db (.error e) tx' db := by
  induction p generalizing tx with
  | ret a => simp [runFrom] at h
  | throw e' => exact ⟨tx, by simp_all [runFrom, Env.Ends, Env.alone]⟩
  | stmt s k ih =>
      simp only [runFrom] at h
      split at h
      · simp at h
      · next e' hexec =>
          exact ⟨tx, db, avail, rfl, .inl ⟨e', hexec, by simp_all, rfl, rfl⟩⟩
      · next v tx₁ hexec =>
          obtain ⟨tx', hends⟩ := ih v h
          exact ⟨tx', db, avail, rfl, .inr ⟨v, tx₁, rfl, hexec, hends⟩⟩

theorem Engine.runFrom_of_ends {E : Engine S σ ℓ κ ε} {avail : ℓ → Bool} {p : Prog S ε α}
    {tx tx' : Tx σ ℓ κ} {db db' : σ} {a : α}
    (h : (Env.alone E avail).Ends p tx db (.ok a) tx' db') :
    E.runFrom avail p tx db = some (.ok (a, tx')) := by
  induction p generalizing tx with
  | ret a' =>
      obtain ⟨heq, rfl, -⟩ := h
      cases heq
      rfl
  | throw e => cases h.1
  | stmt s k ih =>
      obtain ⟨db₁, avail', hdb, ⟨e, -, heq, -⟩ | ⟨v, tx₁, havail, hexec, hk⟩⟩ := h
      · cases heq
      · obtain rfl : db₁ = db := hdb
        obtain rfl : avail' = avail := havail
        rw [runFrom, hexec]
        exact ih v hk

/-- The end of a program that runs alone is the end of its whole run. -/
theorem Engine.run_of_ends {E : Engine S σ ℓ κ ε} {avail : ℓ → Bool} {p : Prog S ε α}
    {tx : Tx σ ℓ κ} {db db' : σ} {a : α}
    (h : (Env.alone E avail).Ends p E.start db (.ok a) tx db') :
    E.run avail p db = some (.ok a, tx.effect db) := by
  rw [run, runFrom_of_ends h]

/-- The ways a whole run can go. -/
theorem Engine.run_cases {E : Engine S σ ℓ κ ε} {avail : ℓ → Bool} {p : Prog S ε α}
    {db db' : σ} {r : Except ε α} (h : E.run avail p db = some (r, db')) :
    ∃ tx, (Env.alone E avail).Ends p E.start db r tx db ∧
      ((∃ a, r = .ok a ∧ db' = tx.effect db) ∨ ∃ e, r = .error e ∧ db' = db) := by
  unfold run at h
  split at h
  · simp at h
  · next e he =>
      obtain ⟨tx, htx⟩ := runFrom_fails he
      obtain ⟨rfl, rfl⟩ := by simpa using h
      exact ⟨tx, htx, .inr ⟨e, rfl, rfl⟩⟩
  · next a tx ha =>
      obtain ⟨rfl, rfl⟩ := by simpa using h
      exact ⟨tx, runFrom_ends ha, .inl ⟨a, rfl, rfl⟩⟩

/-! ## Disciplines -/

/-- An invariant and a rely condition for the programs of the requests `Q`. `commits`
and `wholes` are the obligations: a commit keeps the invariant, and looks to every
transaction that holds none of its locks like a step of the environment. -/
structure Discipline (E : Engine S σ ℓ κ ε) (program : ρ → Prog S ε α)
    (Q : Engine.Requests ρ) where
  env : Env E
  inv : σ → Prop
  inv_rely : ∀ {H a b}, env.rely H a b → inv a → inv b
  commits : ∀ {q a tx b db}, Q.stepwise q → inv b →
    env.Ends (program q) E.start b (.ok a) tx db →
    inv (tx.effect db) ∧ ∀ H, H.Disjoint tx.held → env.rely H db (tx.effect db)
  wholes : ∀ {q a tx avail db}, Q.whole q → inv db →
    (Env.alone E avail).Ends (program q) E.start db (.ok a) tx db →
    inv (tx.effect db) ∧ ∀ H, H.Disjoint tx.held → env.rely H db (tx.effect db)

namespace Engine

variable {E : Engine S σ ℓ κ ε} {live : List (Nat × Live S σ ℓ κ ε α ρ)} {i : Nat}
  {L : Live S σ ℓ κ ε α ρ}
  {p : Nat × Live S σ ℓ κ ε α ρ}

theorem mem_of_lookup (h : lookup live i = some L) : (i, L) ∈ live := by
  obtain ⟨p, hp, rfl⟩ := Option.map_eq_some_iff.1 h
  have hi : p.1 = i := by simpa using List.find?_some hp
  exact hi ▸ List.mem_of_find?_eq_some hp

theorem mem_without : p ∈ without live i ↔ p ∈ live ∧ p.1 ≠ i := by
  simp [without]

/-- The locks a statement adds were available. -/
theorem exec_locks {s : S β} {avail : ℓ → Bool} {tx tx' : Tx σ ℓ κ} {db : σ} {v : β}
    (h : E.exec s avail tx db = some (.ok (v, tx'))) :
    ∃ locks, tx'.held = tx.held ++ locks ∧ ∀ l ∈ locks, avail l = true := by
  unfold exec at h
  split at h
  · simp at h
  · simp at h
  · next o ho =>
      obtain ⟨_, rfl⟩ := by simpa using h
      exact ⟨o.locks, rfl, E.sem_locks ho⟩

/-- A whole run holds only available locks. -/
theorem alone_held {avail : ℓ → Bool} {p : Prog S ε α} {tx tx' : Tx σ ℓ κ} {db db' : σ}
    {r : Except ε α} (h : (Env.alone E avail).Ends p tx db r tx' db')
    (hheld : ∀ l ∈ tx.held, avail l = true) : ∀ l ∈ tx'.held, avail l = true := by
  induction p generalizing tx db with
  | ret a => exact h.2.1 ▸ hheld
  | throw e => exact h.2.1 ▸ hheld
  | stmt s k ih =>
      obtain ⟨db₁, avail', -, ⟨e, -, -, rfl, -⟩ | ⟨v, tx₁, havail, hexec, hk⟩⟩ := h
      · exact hheld
      · obtain ⟨locks, heq, hlocks⟩ := exec_locks hexec
        refine ih v hk fun l hl => ?_
        rw [heq, List.mem_append] at hl
        exact hl.elim (hheld l) fun hl => (show avail' = avail from havail) ▸ hlocks l hl

variable [DecidableEq ℓ]

/-- Every statement issued is one the environment `Γ` admits. -/
def Admitted (Γ : Env E) (c : Config S σ ℓ κ ε α ρ) : Event σ ε α ρ → Prop
  | .ran i => ∀ L, lookup c.live i = some L → ∀ (β : Type) (s : S β) k, L.prog = .stmt s k →
      Γ.admits s (available c.live (some i)) L.tx c.db
  | _ => True

theorem held_not_available {o : Option Nat} {l : ℓ} (hp : p ∈ live) (hne : o ≠ some p.1)
    (hl : l ∈ p.2.tx.held) : available live o l = false := by
  by_contra h
  have hall := List.all_eq_true.1 (Bool.of_not_eq_false h) p hp
  simp_all

end Engine

namespace Discipline

open Engine

variable {E : Engine S σ ℓ κ ε} {program : ρ → Prog S ε α} {Q : Requests ρ}
  (D : Discipline E program Q)

/-- Locks are exclusive, and however an open transaction goes on, it will have run its
whole program in the environment `D.env`. -/
structure Safe (c : Config S σ ℓ κ ε α ρ) : Prop where
  inv : D.inv c.db
  disjoint : ∀ p ∈ c.live, ∀ q ∈ c.live, p.1 ≠ q.1 → p.2.tx.held.Disjoint q.2.tx.held
  stepwise : ∀ p ∈ c.live, Q.stepwise p.2.request ∧ D.inv p.2.began
  residual : ∀ p ∈ c.live, ∀ r tx db, D.env.Ends p.2.prog p.2.tx c.db r tx db →
    D.env.Ends (program p.2.request) E.start p.2.began r tx db

/-- What a finished transaction did, by the way it ended. -/
def Explained (D : Discipline E program Q) : Event σ ε α ρ → Prop
  | .committed q a began before after => D.inv began ∧ D.inv before ∧
      ((Q.stepwise q ∧ ∃ tx, D.env.Ends (program q) E.start began (.ok a) tx before ∧
          after = tx.effect before) ∨
        (Q.whole q ∧ began = before ∧ ∃ avail tx,
          (Env.alone E avail).Ends (program q) E.start before (.ok a) tx before ∧
          after = tx.effect before))
  | .failed q e began before => D.inv began ∧ D.inv before ∧
      ((Q.stepwise q ∧ ∃ tx, D.env.Ends (program q) E.start began (.error e) tx before) ∨
        (Q.whole q ∧ began = before ∧ ∃ avail tx,
          (Env.alone E avail).Ends (program q) E.start before (.error e) tx before))
  | _ => True

variable {D} {c c' : Config S σ ℓ κ ε α ρ} {i : Nat} {L : Live S σ ℓ κ ε α ρ}

theorem Safe.ends (h : D.Safe c) (hL : (i, L) ∈ c.live) {a : α} (hprog : L.prog = .ret a) :
    D.env.Ends (program L.request) E.start L.began (.ok a) L.tx c.db :=
  h.residual _ hL _ _ _ (by simp only [hprog]; exact ⟨rfl, rfl, D.env.refl _ _⟩)

theorem Safe.throws (h : D.Safe c) (hL : (i, L) ∈ c.live) {e : ε}
    (hprog : L.prog = .throw e) :
    D.env.Ends (program L.request) E.start L.began (.error e) L.tx c.db :=
  h.residual _ hL _ _ _ (by simp only [hprog]; exact ⟨rfl, rfl, D.env.refl _ _⟩)

/-- Closing a transaction without a commit. -/
theorem Safe.without (h : D.Safe c) : D.Safe { c with live := Engine.without c.live i } where
  inv := h.inv
  disjoint p hp q hq := h.disjoint p (mem_without.1 hp).1 q (mem_without.1 hq).1
  stepwise p hp := h.stepwise p (mem_without.1 hp).1
  residual p hp := h.residual p (mem_without.1 hp).1

/-- A change of the database that every remaining transaction tolerates. -/
theorem Safe.change (h : D.Safe c) {db' : σ} (hinv : D.inv db')
    (hrely : ∀ p ∈ c.live, D.env.rely p.2.tx.held c.db db') : D.Safe { c with db := db' } where
  inv := hinv
  disjoint := h.disjoint
  stepwise := h.stepwise
  residual p hp r tx db hends := h.residual p hp r tx db (hends.of_rely (hrely p hp))

theorem Safe.begin (h : D.Safe c) {q : ρ} (hq : Q.stepwise q) :
    D.Safe { c with live := (i, ⟨q, c.db, E.start, program q⟩) :: c.live } where
  inv := h.inv
  disjoint p hp p' hp' hne := by
    rcases List.mem_cons.1 hp with rfl | hp
    · simp [start]
    · rcases List.mem_cons.1 hp' with rfl | hp'
      · simp [start]
      · exact h.disjoint p hp p' hp' hne
  stepwise p hp := by
    rcases List.mem_cons.1 hp with rfl | hp
    · exact ⟨hq, h.inv⟩
    · exact h.stepwise p hp
  residual p hp := by
    rcases List.mem_cons.1 hp with rfl | hp
    · exact fun _ _ _ hends => hends
    · exact h.residual p hp

variable [DecidableEq ℓ]

theorem Safe.exec (h : D.Safe c) {q : ρ} {b : σ} {tx tx' : Tx σ ℓ κ} {s : S β}
    {k : β → Prog S ε α} {v : β} (hL : lookup c.live i = some ⟨q, b, tx, .stmt s k⟩)
    (hexec : E.exec s (available c.live (some i)) tx c.db = some (.ok (v, tx')))
    (hadm : D.env.admits s (available c.live (some i)) tx c.db) :
    D.Safe { c with live := (i, ⟨q, b, tx', k v⟩) :: Engine.without c.live i } := by
  have hmem := mem_of_lookup hL
  obtain ⟨locks, hheld, hlocks⟩ := exec_locks hexec
  -- the new locks are held by no other transaction
  have hdis : ∀ p ∈ c.live, p.1 ≠ i → tx'.held.Disjoint p.2.tx.held := by
    intro p hp hne l hl hlp
    rw [hheld, List.mem_append] at hl
    rcases hl with hl | hl
    · exact h.disjoint _ hmem p hp (Ne.symm hne) hl hlp
    · have hfree := held_not_available hp (o := some i) (by simpa using Ne.symm hne) hlp
      rw [hlocks l hl] at hfree
      cases hfree
  refine ⟨h.inv, ?_, ?_, ?_⟩
  · intro p hp p' hp' hne
    rcases List.mem_cons.1 hp with rfl | hp <;> rcases List.mem_cons.1 hp' with rfl | hp'
    · exact absurd rfl hne
    · obtain ⟨hp', hi⟩ := mem_without.1 hp'
      exact hdis p' hp' hi
    · obtain ⟨hp, hi⟩ := mem_without.1 hp
      exact fun l hl hl' => hdis p hp hi hl' hl
    · exact h.disjoint p (mem_without.1 hp).1 p' (mem_without.1 hp').1 hne
  · intro p hp
    rcases List.mem_cons.1 hp with rfl | hp
    · exact (h.stepwise _ hmem :)
    · exact h.stepwise p (mem_without.1 hp).1
  · intro p hp r tx₂ db₂ hends
    rcases List.mem_cons.1 hp with rfl | hp
    · exact h.residual _ hmem r tx₂ db₂
        ⟨c.db, _, D.env.refl _ _, .inr ⟨v, tx', hadm, hexec, hends⟩⟩
    · exact h.residual p (mem_without.1 hp).1 r tx₂ db₂ hends

theorem Safe.step {ev : Event σ ε α ρ} (h : D.Safe c) {m : Move ρ} (hm : Q.allows m)
    (hstep : E.step program c m = some (ev, c')) (hadm : Admitted D.env c ev) :
    D.Safe c' ∧ D.Explained ev := by
  cases m with
  | start i q =>
      simp only [Engine.step] at hstep
      split at hstep
      · simp at hstep
      · obtain ⟨rfl, rfl⟩ := by simpa using hstep
        exact ⟨h.begin hm, trivial⟩
  | exec i =>
      simp only [Engine.step] at hstep
      split at hstep
      · next q b tx γ s k hL =>
          have hmem := mem_of_lookup hL
          split at hstep
          · simp at hstep
          · next e he =>
              obtain ⟨rfl, rfl⟩ := by simpa using hstep
              refine ⟨h.without, (h.stepwise _ hmem).2, h.inv, .inl ⟨(h.stepwise _ hmem).1, tx, ?_⟩⟩
              exact h.residual _ hmem _ _ _
                ⟨c.db, _, D.env.refl _ _, .inl ⟨e, he, rfl, rfl, rfl⟩⟩
          · next v tx' hexec =>
              obtain ⟨rfl, rfl⟩ := by simpa using hstep
              exact ⟨h.exec hL hexec (hadm _ hL _ s k rfl), trivial⟩
      · simp at hstep
  | finish i =>
      simp only [Engine.step] at hstep
      split at hstep
      · next q b tx a hL =>
          have hmem := mem_of_lookup hL
          obtain ⟨rfl, rfl⟩ := by simpa using hstep
          have hends := h.ends hmem rfl
          obtain ⟨hq, hb⟩ := h.stepwise _ hmem
          obtain ⟨hinv, hrely⟩ := D.commits hq hb hends
          refine ⟨?_, hb, h.inv, .inl ⟨hq, tx, hends, rfl⟩⟩
          refine (h.without (i := i)).change hinv fun p hp => hrely _ ?_
          obtain ⟨hp, hne⟩ := mem_without.1 hp
          exact h.disjoint p hp _ hmem hne
      · next q b tx e hL =>
          have hmem := mem_of_lookup hL
          obtain ⟨rfl, rfl⟩ := by simpa using hstep
          obtain ⟨hq, hb⟩ := h.stepwise _ hmem
          exact ⟨h.without, hb, h.inv, .inl ⟨hq, tx, h.throws hmem rfl⟩⟩
      · simp at hstep
  | drop i =>
      simp only [Engine.step] at hstep
      split at hstep
      · obtain ⟨rfl, rfl⟩ := by simpa using hstep
        exact ⟨h.without, trivial⟩
      · simp at hstep
  | whole q =>
      simp only [Engine.step] at hstep
      split at hstep
      · simp at hstep
      · next a db' hrun =>
          obtain ⟨rfl, rfl⟩ := by simpa using hstep
          obtain ⟨tx, hends, ⟨a', ha, rfl⟩ | ⟨e, he, -⟩⟩ := run_cases hrun
          · obtain ⟨hinv, hrely⟩ := D.wholes hm h.inv hends
            refine ⟨h.change hinv fun p hp => hrely _ fun l hl hl' => ?_, h.inv, h.inv,
              .inr ⟨hm, rfl, _, tx, hends, rfl⟩⟩
            have hfree := alone_held hends (by simp [start]) l hl'
            rw [held_not_available hp (by simp) hl] at hfree
            cases hfree
          · simp at he
      · next e db' hrun =>
          obtain ⟨rfl, rfl⟩ := by simpa using hstep
          obtain ⟨tx, hends, -⟩ := run_cases hrun
          exact ⟨h, h.inv, h.inv, .inr ⟨hm, rfl, _, tx, hends⟩⟩

variable {init : σ → Prop}

/-- The rule of disciplines: every interleaving whose statements are admitted stays safe. -/
theorem inductive_safe (hinit : ∀ db, init db → D.inv db) :
    ((E.system program Q init).restrict (Admitted D.env)).Inductive D.Safe where
  init c h := ⟨hinit _ h.1, by simp [h.2], by simp [h.2], by simp [h.2]⟩
  step c ev c' hsafe h := by
    obtain ⟨⟨m, hm, hstep⟩, hadm⟩ := h
    exact (hsafe.step hm hstep hadm).1

/-- The rule when every statement is admitted. -/
theorem inductive_of_admits (D : Discipline E program Q)
    (hadm : ∀ (c : Config S σ ℓ κ ε α ρ) ev, Admitted D.env c ev)
    (hinit : ∀ db, init db → D.inv db) : (E.system program Q init).Inductive D.Safe where
  init c h := (D.inductive_safe hinit).init c h
  step c ev c' hsafe h := (D.inductive_safe hinit).step c ev c' hsafe ⟨h, hadm c ev⟩

/-! ### Serial runs -/

/-- The transactions one after the other, each of them whole: those that ran statement by
statement while nobody holds a lock, the others under any locks. -/
def serial (E : Engine S σ ℓ κ ε) (program : ρ → Prog S ε α) (Q : Requests ρ)
    (init : σ → Prop) : TSys σ (ρ × α) where
  init := init
  step db l db' :=
    Q.stepwise l.1 ∧ E.run (fun _ => true) (program l.1) db = some (.ok l.2, db') ∨
      Q.whole l.1 ∧ ∃ avail, E.run avail (program l.1) db = some (.ok l.2, db')

/-- The commits that `counts` keeps. -/
def committed (counts : ρ → α → Bool) : Event σ ε α ρ → Option (ρ × α)
  | .committed q a _ _ _ => if counts q a then some (q, a) else none
  | _ => none

/-- A commit reruns the request: run whole at that time, while nobody holds a lock, it would
do the same. A commit that does not count changes nothing. -/
def Reruns (D : Discipline E program Q) (counts : ρ → α → Bool) : Prop :=
  ∀ q a tx b db, Q.stepwise q → D.inv b → D.env.Ends (program q) E.start b (.ok a) tx db →
    if counts q a then E.run (fun _ => true) (program q) db = some (.ok a, tx.effect db)
    else tx.effect db = db

/-- When every commit reruns its request, an interleaved run is the serial run of its
commits, in their order. -/
theorem Reruns.simulation {init : σ → Prop} {counts : ρ → α → Bool} (h : D.Reruns counts)
    (hadm : ∀ (c : Config S σ ℓ κ ε α ρ) ev, Admitted D.env c ev)
    (hwhole : ∀ q a, Q.whole q → counts q a = true) :
    (E.system program Q init).Simulation (serial E program Q init) Config.db (committed counts)
      D.Safe where
  init c hc := hc.1
  silent c ev c' hsafe hstep hsilent := by
    obtain ⟨m, hm, hstep⟩ := hstep
    rcases step_db hstep with hdb | ⟨q, a, began, rfl⟩
    · exact hdb
    · have hcounts : counts q a = false := by simpa [committed] using hsilent
      obtain ⟨hbegan, -, ⟨hq, tx, hends, hafter⟩ | ⟨hq, -⟩⟩ := (hsafe.step hm hstep (hadm _ _)).2
      · have hrerun := h q a tx began c.db hq hbegan hends
        rw [hcounts] at hrerun
        exact hafter.trans hrerun
      · rw [hwhole q a hq] at hcounts
        cases hcounts
  step c ev c' l hsafe hstep hseen := by
    obtain ⟨m, hm, hstep⟩ := hstep
    cases ev with
    | committed q a began before after =>
        obtain ⟨rfl, rfl⟩ := step_committed hstep
        simp only [committed, Option.ite_none_right_eq_some, Option.some.injEq] at hseen
        obtain ⟨hcounts, rfl⟩ := hseen
        obtain ⟨hbegan, -, ⟨hq, tx, hends, hafter⟩ | ⟨hq, -, avail, tx, hends, hafter⟩⟩ :=
          (hsafe.step hm hstep (hadm _ _)).2
        · have hrerun := h q a tx began c.db hq hbegan hends
          rw [hcounts] at hrerun
          exact .inl ⟨hq, hafter ▸ hrerun⟩
        · exact .inr ⟨hq, avail, hafter ▸ run_of_ends hends⟩
    | _ => cases hseen

end Discipline

end Kit
