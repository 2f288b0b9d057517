import GraphHarbor.Kit.Json
import Mathlib.Data.List.Nodup

/-!
# Merged dictionaries

What a key has after dictionaries were merged, one over the other, and after fields were
dropped.
-/

namespace Kit

/-- The value, if `isinstance(value, dict)`. -/
def Json.dict? : Json → Option Dict
  | .obj fields => some fields
  | _ => none

namespace Dict

/-- `d.update(e)`. -/
def update (d e : Dict) : Dict := e.foldl (fun d f => d.set f.1 f.2) d

/-- The value of a key; of a key that occurs twice the last one counts. -/
def last? (d : Dict) (key : String) : Option Json := get? d.reverse key

/-- All dictionaries, one over the other. -/
def merged (sources : List Dict) : Dict := sources.foldl update []

/-- The value that the last of the dictionaries with this key gives it. -/
def supplied (key : String) (sources : List Dict) : Option Json :=
  sources.foldl (fun value d => (last? d key).or value) none

/-- No key occurs twice. -/
def Keyed (d : Dict) : Prop := (d.map Prod.fst).Nodup

variable {d e : Dict} {key k : String} {value : Json}

theorem contains_iff : d.contains key = true ↔ key ∈ d.map Prod.fst := by
  unfold contains
  rw [List.any_eq_true, List.mem_map]
  constructor
  · rintro ⟨f, hf, hkey⟩
    exact ⟨f, hf, of_decide_eq_true hkey⟩
  · rintro ⟨f, hf, hkey⟩
    exact ⟨f, hf, decide_eq_true hkey⟩

theorem get?_cons (f : String × Json) (d : Dict) :
    get? (f :: d) k = if f.1 = k then some f.2 else d.get? k := by
  unfold get?
  split
  next h =>
    rw [List.find?_cons_of_pos (by simpa using h), Option.map_some]
  next h =>
    rw [List.find?_cons_of_neg (by simpa using h)]

theorem get?_append : get? (d ++ e) k = (d.get? k).or (e.get? k) := by
  unfold get?
  rw [List.find?_append, Option.map_or]

theorem isSome_get? : (d.get? key).isSome = d.contains key := by
  unfold get? contains
  rw [Option.isSome_map, List.isSome_find?]

theorem get?_eq_none (h : key ∉ d.map Prod.fst) : d.get? key = none := by
  unfold get?
  rw [Option.map_eq_none_iff, List.find?_eq_none]
  intro f hf hkey
  exact h (List.mem_map.2 ⟨f, hf, of_decide_eq_true hkey⟩)

theorem mem_of_get? (h : d.get? key = some value) : (key, value) ∈ d := by
  obtain ⟨f, hf, rfl⟩ := Option.map_eq_some_iff.1 h
  have hkey := List.find?_some hf
  obtain rfl : f.1 = key := of_decide_eq_true hkey
  exact List.mem_of_find?_eq_some hf

theorem Keyed.get?_of_mem (hd : d.Keyed) (h : (key, value) ∈ d) : d.get? key = some value := by
  induction d with
  | nil => exact nomatch h
  | cons f d ih =>
      unfold Keyed at hd
      rw [List.map_cons, List.nodup_cons] at hd
      rw [get?_cons]
      rcases List.mem_cons.1 h with rfl | h
      · exact if_pos rfl
      · have hne : f.1 ≠ key := by
          rintro rfl
          exact hd.1 (List.mem_map.2 ⟨(f.1, value), h, rfl⟩)
        rw [if_neg hne]
        exact ih hd.2 h

theorem Keyed.without (hd : d.Keyed) : (d.without key).Keyed :=
  hd.sublist (List.filter_sublist.map Prod.fst)

theorem mem_without {f : String × Json} : f ∈ d.without key ↔ f ∈ d ∧ f.1 ≠ key := by
  unfold Dict.without
  rw [List.mem_filter, decide_eq_true_eq]

/-- The entry of a key, and the rest. -/
theorem Keyed.all_eq (hd : d.Keyed) (h : d.get? key = some value) (p : String × Json → Bool) :
    d.all p = (p (key, value) && (d.without key).all p) := by
  rw [Bool.eq_iff_iff, Bool.and_eq_true, List.all_eq_true, List.all_eq_true]
  constructor
  · intro hall
    exact ⟨hall _ (mem_of_get? h), fun f hf => hall f (mem_without.1 hf).1⟩
  · rintro ⟨hkey, hrest⟩ f hf
    by_cases hname : f.1 = key
    · have hvalue : some f.2 = some value := (hd.get?_of_mem hf).symm.trans (hname ▸ h)
      obtain rfl := Option.some.inj hvalue
      subst hname
      exact hkey
    · exact hrest f (mem_without.2 ⟨hf, hname⟩)

theorem get?_set_self : (d.set key value).get? key = some value := by
  unfold set
  split
  next hcontains =>
    rw [contains_iff] at hcontains
    induction d with
    | nil => exact nomatch hcontains
    | cons f d ih =>
        rw [List.map_cons, get?_cons]
        by_cases hf : f.1 = key
        · rw [if_pos hf, if_pos rfl]
        · rw [if_neg hf, if_neg hf]
          exact ih ((List.mem_cons.1 hcontains).resolve_left (Ne.symm hf))
  next hcontains =>
    rw [contains_iff] at hcontains
    rw [get?_append, get?_eq_none hcontains, get?_cons, if_pos rfl]
    rfl

theorem get?_set : (d.set key value).get? k = if k = key then some value else d.get? k := by
  split
  next h =>
    rw [h]
    exact get?_set_self
  next h => exact get?_set_of_ne h

theorem last?_cons (f : String × Json) (e : Dict) :
    last? (f :: e) k = (last? e k).or (if f.1 = k then some f.2 else none) := by
  unfold last?
  rw [List.reverse_cons, get?_append, get?_cons]
  rfl

/-- After `d.update(e)` a key has its last value in `e`, else the one in `d`. -/
theorem get?_update : (d.update e).get? k = (e.last? k).or (d.get? k) := by
  induction e generalizing d with
  | nil => rfl
  | cons f e ih =>
      have hnext : (d.update (f :: e)).get? k = (last? e k).or ((d.set f.1 f.2).get? k) := ih
      rw [hnext, get?_set, last?_cons, Option.or_assoc]
      congr 1
      by_cases hk : k = f.1
      · rw [if_pos hk, if_pos hk.symm]
        rfl
      · rw [if_neg hk, if_neg (Ne.symm hk)]
        rfl

/-! ## Dictionaries without repeated keys -/

theorem Keyed.nil : Keyed [] := List.nodup_nil

theorem Keyed.set (h : d.Keyed) : (d.set key value).Keyed := by
  unfold Keyed Dict.set at *
  split
  next =>
    -- the keys stay as they are
    have hkeys : (d.map fun f => if f.1 = key then (key, value) else f).map Prod.fst =
        d.map Prod.fst := by
      rw [List.map_map]
      refine List.map_congr_left fun f _ => ?_
      by_cases hf : f.1 = key
      · rw [Function.comp_apply, if_pos hf, hf]
      · rw [Function.comp_apply, if_neg hf]
    rw [hkeys]
    exact h
  next hcontains =>
    rw [contains_iff] at hcontains
    rw [List.map_append, List.nodup_append]
    refine ⟨h, List.nodup_singleton _, fun k hk k' hk' => ?_⟩
    rw [List.mem_singleton.1 hk']
    rintro rfl
    exact hcontains hk

theorem Keyed.update (h : d.Keyed) : (d.update e).Keyed := by
  induction e generalizing d with
  | nil => exact h
  | cons f e ih => exact ih h.set

theorem keyed_merged (sources : List Dict) : (merged sources).Keyed := by
  have hfold (d : Dict) (h : d.Keyed) : (sources.foldl Dict.update d).Keyed := by
    induction sources generalizing d with
    | nil => exact h
    | cons e sources ih => exact ih (d.update e) h.update
  exact hfold [] .nil

/-- Merging gives a key its last value. -/
theorem get?_merged (sources : List Dict) : (merged sources).get? k = supplied k sources := by
  have hfold (d : Dict) (value : Option Json) (h : d.get? k = value) :
      (sources.foldl Dict.update d).get? k =
        sources.foldl (fun value d => (d.last? k).or value) value := by
    induction sources generalizing d value with
    | nil => exact h
    | cons e sources ih =>
        refine ih (d.update e) _ ?_
        rw [get?_update, h]
  exact hfold [] none rfl

/-! ## Dropped fields -/

/-- Fields are dropped by their key. -/
theorem get?_filter_key (p : String → Bool) :
    get? (d.filter fun f => p f.1) k = if p k then d.get? k else none := by
  induction d with
  | nil => exact (ite_self none).symm
  | cons f d ih =>
      rw [List.filter_cons]
      by_cases hf : p f.1 = true
      · rw [if_pos hf, get?_cons, get?_cons, ih]
        by_cases hk : f.1 = k
        · rw [if_pos hk, if_pos hk, if_pos (hk ▸ hf)]
        · rw [if_neg hk, if_neg hk]
      · rw [if_neg hf, get?_cons, ih]
        by_cases hk : f.1 = k
        · rw [if_neg (hk ▸ hf), if_neg (hk ▸ hf)]
        · rw [if_neg hk]

/-- Fields are dropped by their value. -/
theorem Keyed.get?_filter (h : d.Keyed) (p : Json → Bool) :
    get? (d.filter fun f => p f.2) k = (d.get? k).filter p := by
  induction d with
  | nil => rfl
  | cons f d ih =>
      obtain ⟨hf, hd⟩ := List.nodup_cons.1 h
      rw [List.filter_cons]
      by_cases hk : f.1 = k
      · have hrest : (get? d k).filter p = none := by
          rw [get?_eq_none (hk ▸ hf)]
          rfl
        by_cases hp : p f.2 = true
        · rw [if_pos hp, get?_cons, get?_cons, if_pos hk, if_pos hk, Option.filter_some_pos hp]
        · rw [if_neg hp, get?_cons, if_pos hk, ih hd, hrest, Option.filter_some_neg
            (Bool.not_eq_true _ ▸ hp)]
      · rw [get?_cons, if_neg hk, ← ih hd]
        by_cases hp : p f.2 = true
        · rw [if_pos hp, get?_cons, if_neg hk]
        · rw [if_neg hp]

end Dict

end Kit
