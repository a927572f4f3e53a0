import Mathlib.Data.BitVec
import Mathlib.Data.Nat.Notation
import Mathlib.Logic.Function.Basic

/-!
# Rings under free-running counters

A buffer of `cap` cells used as a ring by counters of `w` bits that are only ever incremented and
wrap at `2 ^ w`. The cell of a counter is its value modulo `cap`; this is sound because `cap`
divides `2 ^ w`, so that a counter that wraps goes on with the next cell.
-/

namespace Ring

open List

variable {α : Type*} {w cap : ℕ} {start stop : BitVec w} {n : ℕ}

/-- The `n` cells from the counter `start` on. -/
def contents (cap : ℕ) (data : ℕ → α) (start : BitVec w) (n : ℕ) : List α :=
  (List.range n).map fun j => data ((start.toNat + j) % cap)

@[simp] theorem contents_zero (data : ℕ → α) (start : BitVec w) :
    contents cap data start 0 = [] := rfl

@[simp] theorem length_contents (data : ℕ → α) (start : BitVec w) (n : ℕ) :
    (contents cap data start n).length = n := by simp [contents]

/-- The cell of a counter that was advanced by `n`. -/
theorem cell_add (hcap : cap ∣ 2 ^ w) (start : BitVec w) (n : ℕ) :
    (start + BitVec.ofNat w n).toNat % cap = (start.toNat + n) % cap := by
  rw [BitVec.toNat_add, BitVec.toNat_ofNat, Nat.mod_mod_of_dvd _ hcap, Nat.add_mod,
    Nat.mod_mod_of_dvd _ hcap, ← Nat.add_mod]

/-- The counters `start` and `stop` are `n` apart. -/
theorem stop_eq (h : (stop - start).toNat = n) : stop = start + BitVec.ofNat w n := by
  rw [← h, BitVec.ofNat_toNat, BitVec.setWidth_eq]
  exact (by rw [BitVec.add_comm, BitVec.sub_add_cancel])

/-- A value is put into the cell after the last. -/
theorem contents_push (hcap : cap ∣ 2 ^ w) (data : ℕ → α) (hn : (stop - start).toNat = n)
    (hlt : n < cap) (x : α) :
    contents cap (Function.update data (stop.toNat % cap) x) start (n + 1) =
      contents cap data start n ++ [x] := by
  rw [stop_eq hn, cell_add hcap]
  unfold contents
  rw [range_succ, map_append]
  congr 1
  · refine map_congr_left fun j hj => Function.update_of_ne ?_ _ _
    -- fewer than `cap` cells apart, so not the same cell
    intro heq
    have hj' := mem_range.mp hj
    have hmod : (start.toNat + j) % cap = (start.toNat + n) % cap := heq
    have hsub : (start.toNat + n - (start.toNat + j)) % cap = 0 :=
      Nat.sub_mod_eq_zero_of_mod_eq hmod.symm
    have hdiff : start.toNat + n - (start.toNat + j) = n - j := by omega
    rw [hdiff, Nat.mod_eq_of_lt (by omega)] at hsub
    omega
  · simp

/-- The first cell is taken. -/
theorem contents_pop (hcap : cap ∣ 2 ^ w) (data : ℕ → α) (start : BitVec w) (n : ℕ) :
    contents cap data start (n + 1) =
      data (start.toNat % cap) :: contents cap data (start + 1) n := by
  unfold contents
  rw [range_succ_eq_map, map_cons, map_map, add_zero]
  refine congrArg _ (map_congr_left fun j _ => ?_)
  change data ((start.toNat + (j + 1)) % cap) = data (((start + 1#w).toNat + j) % cap)
  rw [Nat.add_mod (start + 1#w).toNat, cell_add hcap start 1, ← Nat.add_mod]
  congr 2
  omega

/-- The last cell by itself. -/
theorem contents_succ (data : ℕ → α) (start : BitVec w) (n : ℕ) :
    contents cap data start (n + 1) =
      contents cap data start n ++ [data ((start.toNat + n) % cap)] := by
  unfold contents
  rw [range_succ, map_append]
  rfl

/-- The cells after the first `k`. -/
theorem contents_drop (hcap : cap ∣ 2 ^ w) (data : ℕ → α) (start : BitVec w) (n k : ℕ) :
    (contents cap data start (k + n)).drop k = contents cap data (start + BitVec.ofNat w k) n := by
  unfold contents
  rw [range_add, map_append, drop_left' (by simp), map_map]
  refine map_congr_left fun j _ => ?_
  change data ((start.toNat + (k + j)) % cap) = _
  rw [Nat.add_mod (start + BitVec.ofNat w k).toNat, cell_add hcap start k, ← Nat.add_mod]
  congr 2
  omega

theorem toNat_add_one (x : BitVec w) : (x + 1).toNat = (x.toNat + 1) % 2 ^ w := by
  rw [BitVec.toNat_add]
  change (x.toNat + (1#w).toNat) % 2 ^ w = _
  rw [BitVec.toNat_ofNat, Nat.add_mod_mod]

/-- The distance grows by one at the end. -/
theorem length_push (h : (stop - start).toNat + 1 < 2 ^ w) :
    (stop + 1 - start).toNat = (stop - start).toNat + 1 := by
  have hswap : stop + 1 - start = (stop - start) + 1 := by
    rw [BitVec.sub_eq_add_neg, BitVec.sub_eq_add_neg, BitVec.add_assoc, BitVec.add_assoc,
      BitVec.add_comm 1]
  rw [hswap, toNat_add_one, Nat.mod_eq_of_lt h]

/-- The distance shrinks by one at the front. -/
theorem length_pop (h : 0 < (stop - start).toNat) :
    (stop - (start + 1)).toNat + 1 = (stop - start).toNat := by
  have hone : stop - start = (stop - (start + 1)) + 1 := by
    rw [BitVec.sub_eq_add_neg, BitVec.sub_eq_add_neg, BitVec.neg_add, BitVec.add_assoc,
      BitVec.sub_eq_add_neg, BitVec.add_assoc, BitVec.add_comm (-1), BitVec.add_right_neg,
      BitVec.add_zero]
  have hlt := (stop - (start + 1)).isLt
  rw [hone, toNat_add_one] at h ⊢
  rcases lt_or_ge ((stop - (start + 1)).toNat + 1) (2 ^ w) with hfit | hwrap
  · rw [Nat.mod_eq_of_lt hfit]
  · -- a wrap would make the distance zero
    rw [show (stop - (start + 1)).toNat + 1 = 2 ^ w by omega, Nat.mod_self] at h
    exact absurd h (lt_irrefl 0)

/-- The distance shrinks by one at the end. -/
theorem length_dec (h : 0 < (stop - start).toNat) :
    (stop - 1 - start).toNat + 1 = (stop - start).toNat := by
  have hswap : stop - 1 - start = stop - (start + 1) := by
    rw [BitVec.sub_eq_add_neg, BitVec.sub_eq_add_neg, BitVec.sub_eq_add_neg, BitVec.neg_add,
      BitVec.sub_eq_add_neg, BitVec.add_assoc, BitVec.add_comm (-1)]
  rw [hswap]
  exact length_pop h

/-- The test for a distance. -/
theorem length_eq_iff (hn : n < 2 ^ w) :
    (stop - start).toNat = n ↔ stop = start + BitVec.ofNat w n := by
  refine ⟨stop_eq, ?_⟩
  rintro rfl
  rw [BitVec.add_comm, BitVec.add_sub_cancel, BitVec.toNat_ofNat, Nat.mod_eq_of_lt hn]

/-- The counters are equal when they are at distance zero. -/
theorem length_eq_zero_iff : (stop - start).toNat = 0 ↔ start = stop := by
  constructor
  · intro h
    have hstop := stop_eq h
    rw [hstop]
    exact (BitVec.add_zero start).symm
  · rintro rfl
    rw [BitVec.sub_self]
    rfl

end Ring
