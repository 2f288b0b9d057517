import Mathlib.Data.List.Basic

/-!
# Chains of links

`walk next a` follows the link of every node from `a` on. The links may end, or lead back
to a node that was met before: from there on nothing new is met (`walk_met`).
-/

namespace Kit

variable {α : Type} {next other : α → Option α} {a b c : α} {i j k : Nat}

/-- The node after `k` links. -/
def walk (next : α → Option α) (a : α) : Nat → Option α
  | 0 => some a
  | k + 1 => (walk next a k).bind next

@[simp] theorem walk_zero : walk next a 0 = some a := rfl

theorem walk_succ : walk next a (k + 1) = (walk next a k).bind next := rfl

theorem walk_add : walk next a (i + k) = (walk next a i).bind fun b => walk next b k := by
  induction k with
  | zero => simp
  | succ k ih =>
      rw [← Nat.add_assoc, walk_succ, ih, Option.bind_assoc]
      rfl

theorem walk_none (h : walk next a i = none) (hle : i ≤ k) : walk next a k = none := by
  obtain ⟨n, rfl⟩ := Nat.exists_eq_add_of_le hle
  rw [walk_add, h, Option.bind_none]

/-- A walk that comes back to a node stays among the nodes it has met. -/
theorem walk_met (hi : walk next a i = some b) (hk : walk next a k = some b) (hlt : i < k) :
    ∀ m, ∃ j < k, walk next a m = walk next a j := by
  intro m
  induction m with
  | zero => exact ⟨0, by omega, rfl⟩
  | succ m ih =>
      obtain ⟨j, hj, hm⟩ := ih
      rcases Nat.lt_or_ge (j + 1) k with hnext | hback
      · exact ⟨j + 1, hnext, by rw [walk_succ, walk_succ, hm]⟩
      · -- the link leads to the node that was met at `i`
        have hjk : j + 1 = k := by omega
        refine ⟨i, hlt, ?_⟩
        rw [walk_succ, hm, ← walk_succ, hjk, hk, hi]

/-- Links that agree on the nodes of a walk give the same walk. -/
theorem walk_congr (h : ∀ i < k, ∀ b, walk next a i = some b → other b = next b) :
    walk other a k = walk next a k := by
  induction k with
  | zero => rfl
  | succ k ih =>
      rw [walk_succ, walk_succ, ih fun i hi => h i (by omega)]
      cases hb : walk next a k with
      | none => rfl
      | some b => exact h k (by omega) b hb

end Kit
