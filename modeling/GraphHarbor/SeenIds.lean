import GraphHarbor.RedisStream
import Mathlib.Data.Finset.Basic

/-!
# `_SeenIds`

The bounded window in which a manager looks for an id before it delivers a message. When
the window overflows, its older half goes at once, so what is certain to be held is a
little more than half of it.
-/

namespace GraphHarbor

open Kit

variable {α : Type*} [DecidableEq α]

/-- `_SeenIds`: the ids in the order of their arrival, and as a set. -/
structure SeenIds (α : Type*) where
  maxlen : Nat := 10000
  order : List α := []
  ids : Finset α := ∅
  deriving DecidableEq

/-- `self._ids.discard(self._order.popleft())`, a number of times; `popleft` of an empty
deque raises. -/
def SeenIds.popOldest : Nat → SeenIds α → Option (SeenIds α)
  | 0, s => some s
  | n + 1, s =>
      match s.order with
      | [] => none
      | mid :: order => popOldest n { s with order, ids := s.ids.erase mid }

/-- `_SeenIds.add`: whether the id is new, and the window after it. -/
def SeenIds.add (s : SeenIds α) (mid : α) : Option (Bool × SeenIds α) :=
  if mid ∈ s.ids then some (false, s)
  else
    let s := { s with ids := insert mid s.ids, order := s.order ++ [mid] }
    if s.order.length > s.maxlen then
      (s.popOldest (s.order.length / 2)).map fun s => (true, s)
    else some (true, s)

/-- Calls of `add` on a new window, next to the ids they accepted. -/
def seenIds (maxlen : Nat) : TSys (SeenIds α × List α) α where
  init s := s = ({ maxlen }, [])
  step s mid s' := ∃ fresh, s.1.add mid = some (fresh, s'.1) ∧
    s'.2 = if fresh then s.2 ++ [mid] else s.2

/-- How many of the ids accepted last are certain to be held: the half of `maxlen + 1`,
rounded up. -/
def heldWindow (maxlen : Nat) : Nat := (maxlen + 2) / 2

/-! ## One call -/

theorem SeenIds.popOldest_eq {s : SeenIds α} {n : Nat} (hids : s.ids = s.order.toFinset)
    (hnodup : s.order.Nodup) (hn : n ≤ s.order.length) :
    s.popOldest n =
      some { s with order := s.order.drop n, ids := (s.order.drop n).toFinset } := by
  induction n generalizing s with
  | zero =>
      rw [List.drop_zero, ← hids]
      rfl
  | succ n ih =>
      obtain ⟨maxlen, order, ids⟩ := s
      cases order with
      | nil => exact absurd hn (Nat.not_succ_le_zero n)
      | cons mid order =>
          have herase : ids.erase mid = order.toFinset := by
            rw [show ids = (mid :: order).toFinset from hids, List.toFinset_cons,
              Finset.erase_insert]
            exact fun h => (List.nodup_cons.1 hnodup).1 (List.mem_toFinset.1 h)
          exact ih herase (List.nodup_cons.1 hnodup).2 (Nat.le_of_succ_le_succ hn)

/-- What holds of a window and the ids accepted so far. The window is the end of the
accepted ids, at least as long as the held window. -/
structure SeenIds.Windowed (maxlen : Nat) (s : SeenIds α) (accepted : List α) : Prop where
  maxlen_eq : s.maxlen = maxlen
  ids_eq : s.ids = s.order.toFinset
  nodup : s.order.Nodup
  bounded : s.order.length ≤ maxlen
  suffix : s.order <:+ accepted
  held : min accepted.length (heldWindow maxlen) ≤ s.order.length

/-- The ids in the window after a new one: all, or the newer half. -/
def pushNewest (maxlen : Nat) (order : List α) (mid : α) : List α :=
  let order := order ++ [mid]
  if order.length > maxlen then order.drop (order.length / 2) else order

namespace SeenIds.Windowed

variable {maxlen : Nat} {s : SeenIds α} {accepted : List α} {mid : α}

theorem mem_ids (h : s.Windowed maxlen accepted) : mid ∈ s.ids ↔ mid ∈ s.order := by
  rw [h.ids_eq]
  exact List.mem_toFinset

theorem add_seen (hmid : mid ∈ s.ids) : s.add mid = some (false, s) := if_pos hmid

/-- A new id: the window is the end of the accepted ids again. -/
theorem add_fresh (h : s.Windowed maxlen accepted) (hmax : 1 ≤ maxlen) (hmid : mid ∉ s.ids) :
    ∃ s', s.add mid = some (true, s') ∧ s'.order = pushNewest maxlen s.order mid ∧
      s'.Windowed maxlen (accepted ++ [mid]) := by
  have hlength : (s.order ++ [mid]).length = s.order.length + 1 := by simp
  have hids : insert mid s.ids = (s.order ++ [mid]).toFinset := by
    ext x
    rw [Finset.mem_insert, h.ids_eq, List.mem_toFinset, List.mem_toFinset, List.mem_append,
      List.mem_singleton]
    exact or_comm
  have hnodup : (s.order ++ [mid]).Nodup := by
    rw [List.nodup_append]
    refine ⟨h.nodup, List.nodup_singleton mid, ?_⟩
    intro a ha b hb
    rw [List.mem_singleton.1 hb]
    rintro rfl
    exact hmid (h.mem_ids.2 ha)
  have hsuffix : s.order ++ [mid] <:+ accepted ++ [mid] := by
    obtain ⟨older, hold⟩ := h.suffix
    exact ⟨older, by rw [← List.append_assoc, hold]⟩
  have hheld := h.held
  have hbounded := h.bounded
  by_cases hfull : (s.order ++ [mid]).length > s.maxlen
  · -- the window was full: `maxlen + 1` ids, of which the newer half stays
    have hpop := SeenIds.popOldest_eq
      (s := ⟨s.maxlen, s.order ++ [mid], insert mid s.ids⟩) hids hnodup (Nat.div_le_self _ 2)
    let newer := (s.order ++ [mid]).drop ((s.order ++ [mid]).length / 2)
    refine ⟨⟨s.maxlen, newer, newer.toFinset⟩, ?_, ?_, ?_⟩
    · rw [SeenIds.add, if_neg hmid, if_pos hfull]
      exact congrArg (Option.map fun s => (true, s)) hpop
    · rw [h.maxlen_eq] at hfull
      exact (if_pos hfull).symm
    · rw [h.maxlen_eq, hlength] at hfull
      refine ⟨h.maxlen_eq, rfl, hnodup.sublist (List.drop_sublist _ _), ?_,
        (List.drop_suffix _ _).trans hsuffix, ?_⟩
      · show (List.drop _ _).length ≤ _
        rw [List.length_drop, hlength]
        omega
      · show _ ≤ (List.drop _ _).length
        rw [List.length_drop, hlength, heldWindow]
        omega
  · refine ⟨⟨s.maxlen, s.order ++ [mid], insert mid s.ids⟩, ?_, ?_, ?_⟩
    · rw [SeenIds.add, if_neg hmid, if_neg hfull]
    · rw [h.maxlen_eq] at hfull
      exact (if_neg hfull).symm
    · rw [h.maxlen_eq, hlength] at hfull
      refine ⟨h.maxlen_eq, hids, hnodup, ?_, hsuffix, ?_⟩
      · show (s.order ++ [mid]).length ≤ maxlen
        omega
      · show _ ≤ (s.order ++ [mid]).length
        rw [List.length_append, List.length_singleton, hlength]
        omega

/-- A call never raises, and tells whether the id was held. -/
theorem add (h : s.Windowed maxlen accepted) (hmax : 1 ≤ maxlen) (mid : α) :
    ∃ fresh s', s.add mid = some (fresh, s') ∧ (fresh = false ↔ mid ∈ s.ids) ∧
      (fresh = false → s' = s) := by
  by_cases hmid : mid ∈ s.ids
  · exact ⟨false, s, add_seen hmid, by simp [hmid], fun _ => rfl⟩
  · obtain ⟨s', hadd, -, -⟩ := h.add_fresh hmax hmid
    exact ⟨true, s', hadd, by simp [hmid], nofun⟩

/-- The ids accepted last are held. -/
theorem recent (h : s.Windowed maxlen accepted)
    (hmid : mid ∈ accepted.drop (accepted.length - heldWindow maxlen)) : mid ∈ s.ids := by
  obtain ⟨older, hold⟩ := h.suffix
  have hheld := h.held
  have hlength : older.length + s.order.length = accepted.length := by
    rw [← hold, List.length_append]
  have hle : older.length ≤ accepted.length - heldWindow maxlen := by omega
  have hdrop : accepted.drop older.length = s.order := by
    rw [← hold, List.drop_left]
  have hsub := (List.drop_suffix_drop_left accepted hle).subset hmid
  rw [hdrop] at hsub
  exact h.mem_ids.2 hsub

end SeenIds.Windowed

/-! ## Runs -/

theorem seenIds_inductive {maxlen : Nat} (hmax : 1 ≤ maxlen) :
    (seenIds (α := α) maxlen).Inductive fun s => s.1.Windowed maxlen s.2 where
  init s hs := by
    obtain rfl := hs
    exact ⟨rfl, rfl, List.nodup_nil, Nat.zero_le _, List.suffix_rfl, by simp⟩
  step s mid s' hs hstep := by
    obtain ⟨fresh, hadd, haccepted⟩ := hstep
    obtain ⟨s', accepted'⟩ := s'
    by_cases hmid : mid ∈ s.1.ids
    · rw [SeenIds.Windowed.add_seen hmid] at hadd
      obtain ⟨rfl, rfl⟩ := Prod.mk.inj (Option.some.inj hadd)
      subst haccepted
      exact hs
    · obtain ⟨s₁, hadd₁, -, hwindowed⟩ := hs.add_fresh hmax hmid
      rw [hadd₁] at hadd
      obtain ⟨rfl, rfl⟩ := Prod.mk.inj (Option.some.inj hadd)
      subst haccepted
      exact hwindowed

/-- What was accepted stays, and further ids come behind it. -/
theorem seenIds_accepted {maxlen : Nat} {s s' : SeenIds α × List α} {tr : List α}
    (h : (seenIds maxlen).Steps s tr s') : s.2 <+: s'.2 := by
  induction h with
  | nil => exact List.prefix_rfl
  | snoc _ hstep ih =>
      obtain ⟨fresh, -, haccepted⟩ := hstep
      rw [haccepted]
      cases fresh
      · exact ih
      · exact ih.trans (List.prefix_append _ _)

/-- An accepted id is held until `heldWindow` newer ids were accepted. -/
theorem SeenIds.Windowed.echo {maxlen : Nat} {s : SeenIds α} {accepted older : List α} {mid : α}
    (h : s.Windowed maxlen accepted) (hacc : older ++ [mid] <+: accepted)
    (hnewer : accepted.length - (older ++ [mid]).length < heldWindow maxlen) : mid ∈ s.ids := by
  obtain ⟨newer, rfl⟩ := hacc
  apply h.recent
  have hle : (older ++ [mid] ++ newer).length - heldWindow maxlen ≤ older.length := by
    simp only [List.length_append, List.length_singleton] at hnewer ⊢
    omega
  refine (List.drop_suffix_drop_left _ hle).subset ?_
  rw [List.append_assoc, List.drop_left]
  exact List.mem_cons_self

/-- The window is sound after any calls: the set is the deque, an id is refused exactly while
it is held, and the ids accepted last are held. So an id accepted by a call is refused again
by every later call before which fewer than `heldWindow` newer ids were accepted. -/
theorem seenIds_sound {maxlen : Nat} (hmax : 1 ≤ maxlen) (s : SeenIds α × List α)
    (hs : (seenIds maxlen).Reachable s) :
    ((∀ mid, mid ∈ s.1.ids ↔ mid ∈ s.1.order) ∧ s.1.order.Nodup ∧
      s.1.order.length ≤ maxlen) ∧
    (∀ mid, ∃ fresh s', s.1.add mid = some (fresh, s') ∧ (fresh = false ↔ mid ∈ s.1.ids) ∧
      (fresh = false → s' = s.1)) ∧
    (∀ mid ∈ s.2.drop (s.2.length - heldWindow maxlen), mid ∈ s.1.ids) ∧
    ∀ mid s₁, s.1.add mid = some (true, s₁) →
      ∀ tr s₂, (seenIds maxlen).Steps (s₁, s.2 ++ [mid]) tr s₂ →
        s₂.2.length - (s.2 ++ [mid]).length < heldWindow maxlen →
          s₂.1.add mid = some (false, s₂.1) := by
  have hwindowed := (seenIds_inductive hmax).invariant s hs
  refine ⟨⟨fun mid => hwindowed.mem_ids, hwindowed.nodup, hwindowed.bounded⟩,
    hwindowed.add hmax, fun mid => hwindowed.recent, ?_⟩
  intro mid s₁ hadd tr s₂ hsteps hnewer
  have hfirst : (seenIds maxlen).Steps s [mid] (s₁, s.2 ++ [mid]) :=
    .snoc .nil ⟨true, hadd, rfl⟩
  have hlater := (seenIds_inductive hmax).invariant s₂ (hs.append (hfirst.trans hsteps))
  exact SeenIds.Windowed.add_seen (hlater.echo (seenIds_accepted hsteps) hnewer)

/-- A window of three ids that has just dropped its older half, `0` and `1`. -/
theorem seenIds_sound_three :
    (∀ mid ∈ [2, 3], mid ∈ (⟨3, [2, 3], {3, 2}⟩ : SeenIds Nat).ids) ∧
      (⟨3, [2, 3], {3, 2}⟩ : SeenIds Nat).order.length ≤ 3 := by
  have hreach : (seenIds 3).Reachable (⟨3, [2, 3], {3, 2}⟩, [0, 1, 2, 3]) := by
    refine ⟨[0, 1, 2, 3], ({ maxlen := 3 }, []), rfl, ?_⟩
    have h₀ : (seenIds 3).Steps (({ maxlen := 3 } : SeenIds Nat), []) [0] (⟨3, [0], {0}⟩, [0]) :=
      .snoc .nil ⟨true, rfl, rfl⟩
    have h₁ : (seenIds 3).Steps (⟨3, [0], {0}⟩, [0]) [1] (⟨3, [0, 1], {1, 0}⟩, [0, 1]) :=
      .snoc .nil ⟨true, rfl, rfl⟩
    have h₂ : (seenIds 3).Steps (⟨3, [0, 1], {1, 0}⟩, [0, 1]) [2]
        (⟨3, [0, 1, 2], {2, 1, 0}⟩, [0, 1, 2]) := .snoc .nil ⟨true, rfl, rfl⟩
    have h₃ : (seenIds 3).Steps (⟨3, [0, 1, 2], {2, 1, 0}⟩, [0, 1, 2]) [3]
        (⟨3, [2, 3], {3, 2}⟩, [0, 1, 2, 3]) := .snoc .nil ⟨true, rfl, rfl⟩
    exact ((h₀.trans h₁).trans h₂).trans h₃
  have hsound := seenIds_sound (by decide) _ hreach
  exact ⟨hsound.2.2.1, hsound.1.2.2⟩

/-! ## The window of a manager -/

/-- The window that `StreamManager.deliver` looks into is `_SeenIds` with its default size. -/
theorem SeenIds.add_order {s : SeenIds SeenKey} {accepted : List SeenKey} {key : SeenKey}
    (h : s.Windowed seenMaxlen accepted) :
    ∃ fresh s', s.add key = some (fresh, s') ∧
      s'.order = if key ∈ s.order then s.order else addSeen s.order key := by
  by_cases hmid : key ∈ s.ids
  · exact ⟨false, s, Windowed.add_seen hmid, (if_pos (h.mem_ids.1 hmid)).symm⟩
  · obtain ⟨s', hadd, horder, -⟩ := h.add_fresh (by decide) hmid
    refine ⟨true, s', hadd, ?_⟩
    rw [if_neg (fun hmem => hmid (h.mem_ids.2 hmem)), horder]
    rfl

end GraphHarbor
