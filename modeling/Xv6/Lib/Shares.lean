import Mathlib.Algebra.BigOperators.Group.List.Basic
import Mathlib.Algebra.GroupWithZero.Nat
import Mathlib.Algebra.Order.Group.Nat
import Mathlib.Order.Interval.Finset.Nat

/-!
# Drawing among weights

The numbers from `1` to the total weight of a list are dealt out along it, to each member as many as
it weighs. A draw finds its member by walking along the list and counting down.
-/

namespace Shares

open List

variable {α : Type*} (w : α → ℕ)

/-- The member that the draw `r` falls on. -/
def pick : List α → ℕ → Option α
  | [], _ => none
  | x :: l, r => if r ≤ w x then some x else pick l (r - w x)

variable {w} {l : List α} {x y : α} {r : ℕ}

theorem pick_cons_of_le (h : r ≤ w x) : pick w (x :: l) r = some x := if_pos h

theorem pick_cons_of_lt (h : w x < r) : pick w (x :: l) r = pick w l (r - w x) :=
  if_neg (not_le.mpr h)

theorem mem_of_pick (h : pick w l r = some x) : x ∈ l := by
  induction l generalizing r with
  | nil => cases h
  | cons y l ih =>
    by_cases hr : r ≤ w y
    · rw [pick_cons_of_le hr] at h
      obtain rfl : y = x := Option.some.inj h
      exact mem_cons_self
    · rw [pick_cons_of_lt (not_le.mp hr)] at h
      exact mem_cons_of_mem y (ih h)

/-- Every draw within the total falls on a member. -/
theorem exists_pick (h : 1 ≤ r) (hr : r ≤ (l.map w).sum) : ∃ x ∈ l, pick w l r = some x := by
  induction l generalizing r with
  | nil =>
    rw [map_nil, sum_nil] at hr
    omega
  | cons y l ih =>
    rw [map_cons, sum_cons] at hr
    rcases lt_or_ge (w y) r with hy | hy
    · obtain ⟨x, hx, hpick⟩ := ih (r := r - w y) (by omega) (by omega)
      exact ⟨x, mem_cons_of_mem y hx, by rw [pick_cons_of_lt hy, hpick]⟩
    · exact ⟨y, mem_cons_self, pick_cons_of_le hy⟩

section Card

variable [DecidableEq α] (w) (l) (x)

/-- The draws that fall on `x`. -/
def draws : Finset ℕ := (Finset.Icc 1 (l.map w).sum).filter fun r => pick w l r = some x

variable {w l x}

theorem mem_draws : r ∈ draws w l x ↔ (1 ≤ r ∧ r ≤ (l.map w).sum) ∧ pick w l r = some x := by
  rw [draws, Finset.mem_filter, Finset.mem_Icc]

/-- The draws of the head are the first ones. -/
theorem draws_cons_self (h : x ∉ l) : draws w (x :: l) x = Finset.Icc 1 (w x) := by
  ext r
  rw [mem_draws, map_cons, sum_cons, Finset.mem_Icc]
  constructor
  · rintro ⟨⟨hone, -⟩, hpick⟩
    refine ⟨hone, ?_⟩
    -- beyond its own draws the head is not found again
    by_contra hr
    rw [pick_cons_of_lt (not_le.mp hr)] at hpick
    exact h (mem_of_pick hpick)
  · rintro ⟨hone, hr⟩
    exact ⟨⟨hone, by omega⟩, pick_cons_of_le hr⟩

/-- The draws of the others move up by the weight of the head. -/
theorem draws_cons_of_ne (h : x ≠ y) :
    draws w (y :: l) x = (draws w l x).map (addRightEmbedding (w y)) := by
  ext r
  rw [mem_draws, map_cons, sum_cons, Finset.mem_map]
  constructor
  · rintro ⟨⟨hone, hr⟩, hpick⟩
    have hy : w y < r := by
      by_contra hle
      rw [pick_cons_of_le (not_lt.mp hle)] at hpick
      exact h (Option.some.inj hpick).symm
    rw [pick_cons_of_lt hy] at hpick
    exact ⟨r - w y, mem_draws.mpr ⟨by omega, hpick⟩, Nat.sub_add_cancel hy.le⟩
  · rintro ⟨s, hs, rfl⟩
    obtain ⟨hrange, hpick⟩ := mem_draws.mp hs
    rw [addRightEmbedding_apply, pick_cons_of_lt (by omega), Nat.add_sub_cancel]
    exact ⟨by omega, hpick⟩

/-- As many draws fall on a member as it weighs. -/
theorem card_pick (hl : l.Nodup) (hx : x ∈ l) : (draws w l x).card = w x := by
  induction l with
  | nil => cases hx
  | cons y l ih =>
    obtain ⟨hy, hl⟩ := nodup_cons.mp hl
    rcases mem_cons.mp hx with rfl | hx
    · rw [draws_cons_self hy, Nat.card_Icc, Nat.add_sub_cancel]
    · have hne : x ≠ y := fun heq => hy (heq ▸ hx)
      rw [draws_cons_of_ne hne, Finset.card_map, ih hl hx]

end Card

end Shares
