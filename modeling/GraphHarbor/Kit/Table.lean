import Mathlib.Data.List.Basic
import Mathlib.Data.List.Nodup
import Mathlib.Data.List.Lex
import Mathlib.Order.Lattice

/-!
# Tables with a primary key

A table is a list of rows, in insertion order, no two with the same key. The key
constraint is a field, so no update can break it. Proofs read a table through
`find?`: each update has one lemma that says what `find?` returns after it.

`least` is `ORDER BY … LIMIT 1`.
-/

namespace Kit

/-- Rows of `α` are identified by a primary key in `κ`. -/
class Keyed (α : Type) (κ : outParam Type) where
  key : α → κ

/-- The rows of a table; no two share a primary key. -/
structure Table (α : Type) {κ : Type} [Keyed α κ] where
  rows : List α
  nodup : (rows.map Keyed.key).Nodup

namespace Table

variable {α κ : Type} [Keyed α κ] {t : Table α} {k j : κ} {x y : α} {f : α → α}

instance : Membership α (Table α) := ⟨fun t x => x ∈ t.rows⟩

theorem mem_rows : x ∈ t.rows ↔ x ∈ t := Iff.rfl

theorem eq_of_mem_of_key_eq (hx : x ∈ t) (hy : y ∈ t) (h : Keyed.key x = Keyed.key y) :
    x = y :=
  List.inj_on_of_nodup_map t.nodup hx hy h

@[ext] theorem ext_rows {s t : Table α} (h : s.rows = t.rows) : s = t := by
  cases s; cases t; cases h; rfl

def empty : Table α := ⟨[], by simp⟩

@[simp] theorem not_mem_empty : ¬ x ∈ (empty : Table α) := by
  simp [← mem_rows, empty]

instance [DecidableEq α] : DecidableEq (Table α) := fun s t =>
  decidable_of_iff (s.rows = t.rows) ⟨ext_rows, fun h => h ▸ rfl⟩

/-- Keep the rows that satisfy `p`: `DELETE … WHERE NOT p`. -/
def filter (t : Table α) (p : α → Bool) : Table α :=
  ⟨t.rows.filter p, (List.filter_sublist.map _).nodup t.nodup⟩

@[simp] theorem mem_filter {p : α → Bool} : x ∈ t.filter p ↔ x ∈ t ∧ p x = true := by
  simp [← mem_rows, filter]

theorem rows_filter {p : α → Bool} : (t.filter p).rows = t.rows.filter p := rfl

theorem filter_eq_self {p : α → Bool} (h : ∀ x ∈ t, p x = true) : t.filter p = t :=
  ext_rows (List.filter_eq_self.mpr h)

variable [DecidableEq κ]

/-- The row with key `k`. -/
def find? (t : Table α) (k : κ) : Option α :=
  t.rows.find? (fun x => Keyed.key x = k)

theorem key_of_find? (h : t.find? k = some x) : Keyed.key x = k := by
  simpa using List.find?_some h

theorem mem_of_find? (h : t.find? k = some x) : x ∈ t :=
  List.mem_of_find?_eq_some h

theorem find?_eq_some : t.find? k = some x ↔ x ∈ t ∧ Keyed.key x = k := by
  constructor
  · exact fun h => ⟨mem_of_find? h, key_of_find? h⟩
  · rintro ⟨hx, rfl⟩
    cases h : t.find? (Keyed.key x) with
    | none => simpa using List.find?_eq_none.1 h x hx
    | some y => rw [eq_of_mem_of_key_eq (mem_of_find? h) hx (key_of_find? h)]

theorem mem_iff_find? : x ∈ t ↔ t.find? (Keyed.key x) = some x := by
  simp [find?_eq_some]

theorem find?_eq_none : t.find? k = none ↔ ∀ x ∈ t, Keyed.key x ≠ k := by
  simp [find?, ← mem_rows]

theorem find?_congr {s t : Table α} (h : ∀ x, Keyed.key x = k → (x ∈ s ↔ x ∈ t)) :
    s.find? k = t.find? k := by
  refine Option.ext fun x => ?_
  rw [find?_eq_some, find?_eq_some]
  exact ⟨fun ⟨hx, hk⟩ => ⟨(h x hk).1 hx, hk⟩, fun ⟨hx, hk⟩ => ⟨(h x hk).2 hx, hk⟩⟩

@[simp] theorem find?_empty : (empty : Table α).find? k = none := rfl

@[simp] theorem find?_filter {p : α → Bool} :
    (t.filter p).find? k = (t.find? k).filter p := by
  refine Option.ext fun x => ?_
  simp only [find?_eq_some, mem_filter, Option.filter_eq_some_iff]
  tauto

/-! ## Updates -/

/-- `UPDATE … SET f WHERE key = k`; `f` leaves the key alone. -/
def modify (t : Table α) (k : κ) (f : α → α) (hf : ∀ x, Keyed.key (f x) = Keyed.key x) :
    Table α where
  rows := t.rows.map fun x => if Keyed.key x = k then f x else x
  nodup := by
    have hkey : (Keyed.key ∘ fun x => if Keyed.key x = k then f x else x) =
        (Keyed.key : α → κ) := by
      funext x
      by_cases hx : Keyed.key x = k <;> simp [hx, hf]
    rw [List.map_map, hkey]
    exact t.nodup

@[simp] theorem find?_modify (hf : ∀ x, Keyed.key (f x) = Keyed.key x) :
    (t.modify k f hf).find? j = if j = k then (t.find? j).map f else t.find? j := by
  refine Option.ext fun y => ?_
  rw [find?_eq_some]
  constructor
  · rintro ⟨hy, rfl⟩
    obtain ⟨x, hx, rfl⟩ := List.mem_map.1 hy
    by_cases hk : Keyed.key x = k
    · simp only [hk, if_true, hf, Option.map_eq_some_iff]
      exact ⟨x, find?_eq_some.2 ⟨hx, hk⟩, rfl⟩
    · simp only [hk, if_false]
      exact mem_iff_find?.1 hx
  · intro h
    by_cases hj : j = k
    · rw [if_pos hj, Option.map_eq_some_iff] at h
      obtain ⟨x, hx, rfl⟩ := h
      refine ⟨List.mem_map.2 ⟨x, mem_of_find? hx, ?_⟩, by rw [hf, key_of_find? hx]⟩
      simp [key_of_find? hx, hj]
    · rw [if_neg hj] at h
      refine ⟨List.mem_map.2 ⟨y, mem_of_find? h, ?_⟩, key_of_find? h⟩
      simp [key_of_find? h, hj]

theorem isSome_find?_modify (hf : ∀ x, Keyed.key (f x) = Keyed.key x) :
    ((t.modify k f hf).find? j).isSome = (t.find? j).isSome := by
  rw [find?_modify hf]
  split
  · exact Option.isSome_map
  · rfl

theorem mem_modify (hf : ∀ x, Keyed.key (f x) = Keyed.key x) :
    y ∈ t.modify k f hf ↔ ∃ x ∈ t, y = if Keyed.key x = k then f x else x := by
  rw [← mem_rows, modify, List.mem_map]
  exact ⟨fun ⟨x, hx, heq⟩ => ⟨x, hx, heq.symm⟩, fun ⟨x, hx, heq⟩ => ⟨x, hx, heq.symm⟩⟩

theorem modify_modify {g h : α → α} (hf : ∀ x, Keyed.key (f x) = Keyed.key x)
    (hg : ∀ x, Keyed.key (g x) = Keyed.key x) (hh : ∀ x, Keyed.key (h x) = Keyed.key x)
    (heq : ∀ x, g (f x) = h x) : (t.modify k f hf).modify k g hg = t.modify k h hh := by
  refine ext_rows ?_
  show (t.rows.map _).map _ = t.rows.map _
  rw [List.map_map]
  refine List.map_congr_left fun x _ => ?_
  by_cases hk : Keyed.key x = k
  · have hkf : Keyed.key (f x) = k := (hf x).trans hk
    simp only [Function.comp_apply, hk, hkf, if_true, heq]
  · simp only [Function.comp_apply, hk, if_false]

theorem modify_congr {g : α → α} (hf : ∀ x, Keyed.key (f x) = Keyed.key x)
    (hg : ∀ x, Keyed.key (g x) = Keyed.key x) (heq : ∀ x, t.find? k = some x → f x = g x) :
    t.modify k f hf = t.modify k g hg := by
  refine ext_rows (List.map_congr_left fun x hx => ?_)
  by_cases hk : Keyed.key x = k
  · rw [if_pos hk, if_pos hk, heq x (find?_eq_some.2 ⟨hx, hk⟩)]
  · rw [if_neg hk, if_neg hk]

theorem modify_eq_self (hf : ∀ x, Keyed.key (f x) = Keyed.key x)
    (heq : ∀ x, t.find? k = some x → f x = x) : t.modify k f hf = t := by
  refine ext_rows ((List.map_congr_left fun x hx => ?_).trans (List.map_id _))
  by_cases hk : Keyed.key x = k
  · rw [if_pos hk, heq x (find?_eq_some.2 ⟨hx, hk⟩), id]
  · rw [if_neg hk, id]

/-- `INSERT`, of a row whose key is not in the table. -/
def insert (t : Table α) (x : α) : Table α where
  rows := if (t.find? (Keyed.key x)).isSome then t.rows else t.rows ++ [x]
  nodup := by
    split
    · exact t.nodup
    · next h =>
        have hnone : t.find? (Keyed.key x) = none := by simpa using h
        have hfresh : Keyed.key x ∉ t.rows.map Keyed.key := by
          intro hmem
          obtain ⟨y, hy, hyx⟩ := List.mem_map.1 hmem
          exact find?_eq_none.1 hnone y hy hyx
        rw [List.map_append, List.map_singleton, List.nodup_append]
        refine ⟨t.nodup, by simp, ?_⟩
        intro a ha b hb hab
        rw [List.mem_singleton] at hb
        exact hfresh (hb ▸ hab ▸ ha)

theorem mem_insert (h : t.find? (Keyed.key x) = none) :
    y ∈ t.insert x ↔ y ∈ t ∨ y = x := by
  simp [← mem_rows, insert, h]

theorem insert_of_mem (h : (t.find? (Keyed.key x)).isSome) : t.insert x = t := by
  ext1
  simp [insert, h]

theorem find?_insert (h : t.find? (Keyed.key x) = none) :
    (t.insert x).find? k = if k = Keyed.key x then some x else t.find? k := by
  refine Option.ext fun y => ?_
  rw [find?_eq_some, mem_insert h]
  by_cases hk : k = Keyed.key x
  · rw [if_pos hk]
    constructor
    · rintro ⟨hy | rfl, hyk⟩
      · exact absurd (hyk.trans hk) (find?_eq_none.1 h y hy)
      · rfl
    · rintro ⟨rfl⟩
      exact ⟨.inr rfl, hk.symm⟩
  · rw [if_neg hk, find?_eq_some]
    constructor
    · rintro ⟨hy | rfl, hyk⟩
      · exact ⟨hy, hyk⟩
      · exact absurd hyk.symm hk
    · exact fun ⟨hy, hyk⟩ => ⟨.inl hy, hyk⟩

theorem find?_insert_of_ne (h : k ≠ Keyed.key x) : (t.insert x).find? k = t.find? k := by
  cases hx : t.find? (Keyed.key x) with
  | none => rw [find?_insert hx, if_neg h]
  | some y => rw [insert_of_mem (by simp [hx])]

/-- `DELETE … WHERE key = k`. -/
def erase (t : Table α) (k : κ) : Table α := t.filter fun x => Keyed.key x ≠ k

theorem mem_erase : x ∈ t.erase k ↔ x ∈ t ∧ Keyed.key x ≠ k := by
  rw [erase, mem_filter]
  exact and_congr_right fun _ => decide_eq_true_iff

theorem find?_erase : (t.erase k).find? j = if j = k then none else t.find? j := by
  rw [erase, find?_filter]
  cases h : t.find? j with
  | none => simp
  | some x =>
      have hx := key_of_find? h
      by_cases hj : j = k <;> simp [Option.filter, hx, hj]

/-- `INSERT … ON CONFLICT (key) DO UPDATE`, all columns replaced. -/
def upsert (t : Table α) (x : α) : Table α := (t.erase (Keyed.key x)).insert x

theorem mem_upsert : y ∈ t.upsert x ↔ y = x ∨ y ∈ t ∧ Keyed.key y ≠ Keyed.key x := by
  rw [upsert, mem_insert (by simp [find?_erase]), erase, mem_filter, or_comm]
  simp

theorem find?_upsert :
    (t.upsert x).find? k = if k = Keyed.key x then some x else t.find? k := by
  rw [upsert, find?_insert (by simp [find?_erase]), find?_erase]
  by_cases hk : k = Keyed.key x <;> simp [hk]

theorem rows_insert (h : t.find? (Keyed.key x) = none) : (t.insert x).rows = t.rows ++ [x] := by
  simp [insert, h]

theorem erase_of_none (h : t.find? k = none) : t.erase k = t := by
  ext1
  rw [erase, filter, List.filter_eq_self]
  intro y hy
  simpa using find?_eq_none.1 h y hy

theorem rows_upsert (h : t.find? (Keyed.key x) = none) : (t.upsert x).rows = t.rows ++ [x] := by
  rw [upsert, erase_of_none h, rows_insert h]

/-! ## Rows of a kind -/

section Kinds

variable {q : κ → Bool}

theorem filter_insert : (t.insert x).filter (fun y => q (Keyed.key y)) =
    if q (Keyed.key x) then (t.filter fun y => q (Keyed.key y)).insert x
    else t.filter fun y => q (Keyed.key y) := by
  cases h : t.find? (Keyed.key x) with
  | some y =>
      have hy := key_of_find? h
      rw [insert_of_mem (by simp [h])]
      by_cases hq : q (Keyed.key x) = true
      · rw [if_pos hq, insert_of_mem (by simp [h, hy, hq])]
      · rw [if_neg hq]
  | none =>
      ext1
      rw [rows_filter, rows_insert h, List.filter_append]
      by_cases hq : q (Keyed.key x) = true
      · rw [if_pos hq, rows_insert (by simp [h]), rows_filter]
        simp [hq]
      · rw [if_neg hq, rows_filter]
        simp [hq]

theorem filter_erase : (t.erase k).filter (fun y => q (Keyed.key y)) =
    (t.filter fun y => q (Keyed.key y)).erase k := by
  ext1
  simp [erase, filter, List.filter_filter, Bool.and_comm]

theorem filter_upsert : (t.upsert x).filter (fun y => q (Keyed.key y)) =
    if q (Keyed.key x) then (t.filter fun y => q (Keyed.key y)).upsert x
    else t.filter fun y => q (Keyed.key y) := by
  rw [upsert, filter_insert, filter_erase]
  by_cases hq : q (Keyed.key x) = true
  · rw [if_pos hq, if_pos hq, upsert]
  · have hnone : (t.filter fun y => q (Keyed.key y)).find? (Keyed.key x) = none := by
      rw [find?_eq_none]
      intro y hy hk
      rw [mem_filter, hk] at hy
      exact hq hy.2
    rw [if_neg hq, if_neg hq, erase_of_none hnone]

end Kinds

end Table

/-! ## Ordered selection -/

variable {α β : Type} [LinearOrder β]

/-- `ORDER BY key LIMIT 1`: the first row in the order of `key`. -/
def least (key : α → β) : List α → Option α
  | [] => none
  | x :: xs =>
      match least key xs with
      | none => some x
      | some y => if key y < key x then some y else some x

theorem least_eq_none {key : α → β} {l : List α} : least key l = none ↔ l = [] := by
  cases l with
  | nil => simp [least]
  | cons x xs =>
      simp only [least]
      cases least key xs with
      | none => simp
      | some y => by_cases h : key y < key x <;> simp [h]

theorem least_mem {key : α → β} {l : List α} {x : α} (h : least key l = some x) : x ∈ l := by
  induction l generalizing x with
  | nil => simp [least] at h
  | cons y ys ih =>
      simp only [least] at h
      split at h
      · simp_all
      · next z hz =>
          split at h
          · exact List.mem_cons_of_mem _ (ih (by simp_all))
          · simp_all

theorem least_le {key : α → β} {l : List α} {x y : α} (h : least key l = some x)
    (hy : y ∈ l) : key x ≤ key y := by
  induction l generalizing x with
  | nil => simp at hy
  | cons z zs ih =>
      simp only [least] at h
      split at h
      · next hnone =>
          rw [least_eq_none] at hnone
          subst hnone
          simp_all
      · next w hw =>
          rcases List.mem_cons.1 hy with rfl | hy'
          · split at h
            · next hlt => exact (Option.some.inj h) ▸ hlt.le
            · exact (Option.some.inj h) ▸ le_rfl
          · have hle := ih hw hy'
            split at h
            · exact (Option.some.inj h) ▸ hle
            · next hlt => exact (Option.some.inj h) ▸ (not_lt.1 hlt).trans hle

end Kit
