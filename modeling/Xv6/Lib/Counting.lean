import Mathlib.Algebra.BigOperators.Pi
import Mathlib.Algebra.BigOperators.Group.Finset.Basic
import Mathlib.Algebra.Order.BigOperators.Group.Finset

/-!
# Sums over updated families

Totals over a family change by one summand when one member of the family changes. The laws are
stated additively on both sides, so that they also serve where no subtraction exists.
-/

namespace Counting

open Function Finset

variable {ι A M : Type*} [AddCommMonoid M]

/-- Replacing the member `a j` by `x` replaces its summand. -/
theorem sum_update_add [Fintype ι] [DecidableEq ι] (F : A → M) (a : ι → A) (j : ι) (x : A) :
    ∑ i, F (update a j x i) + F (a j) = ∑ i, F (a i) + F x := by
  have hrest : ∑ i ∈ univ.erase j, F (update a j x i) = ∑ i ∈ univ.erase j, F (a i) :=
    sum_congr rfl fun i hi => by
      rw [update_of_ne (ne_of_mem_erase hi)]
  rw [← sum_erase_add _ _ (mem_univ j), ← sum_erase_add Finset.univ
    (fun i => F (a i)) (mem_univ j), hrest, update_self]
  exact add_right_comm _ _ _

/-- The same over an initial segment of `ℕ` that contains the updated index. -/
theorem sum_range_update_add (F : A → M) (a : ℕ → A) {j n : ℕ} (hj : j < n) (x : A) :
    ∑ i ∈ Finset.range n, F (update a j x i) + F (a j) = ∑ i ∈ Finset.range n, F (a i) + F x := by
  have hmem : j ∈ Finset.range n := mem_range.mpr hj
  have hrest : ∑ i ∈ (Finset.range n).erase j, F (update a j x i) =
      ∑ i ∈ (Finset.range n).erase j, F (a i) :=
    sum_congr rfl fun i hi => by
      rw [update_of_ne (ne_of_mem_erase hi)]
  rw [← sum_erase_add _ _ hmem, ← sum_erase_add (Finset.range n)
    (fun i => F (a i)) hmem, hrest, update_self]
  exact add_right_comm _ _ _

/-- An update outside the segment is not seen. -/
theorem sum_range_update_of_le (F : A → M) (a : ℕ → A) {j n : ℕ} (hj : n ≤ j) (x : A) :
    ∑ i ∈ Finset.range n, F (update a j x i) = ∑ i ∈ Finset.range n, F (a i) :=
  sum_congr rfl fun i hi => by
    rw [update_of_ne]
    have := mem_range.mp hi
    omega

/-- A member of a family of counts is at most the total. -/
theorem le_sum_of_mem [Fintype ι] (c : ι → ℕ) (i : ι) : c i ≤ ∑ j, c j :=
  Finset.single_le_sum (fun _ _ => Nat.zero_le _) (Finset.mem_univ i)

end Counting
