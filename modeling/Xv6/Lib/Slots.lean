import Mathlib.Data.Set.Finite.Basic
import Mathlib.Data.Set.Finite.Lattice
import Mathlib.Order.Interval.Finset.Nat

/-!
# A map kept in slots

A map is stored in numbered slots, each of which is free or holds a key with its value, in any
order. The slots represent a map if no key is in two of them. A binding is added in any free slot
and removed by freeing its slot.
-/

variable {κ ν : Type*}

/-- The slots `ent` hold the bindings of the map `M`, and each key once. -/
structure Represents (ent : ℕ → Option (κ × ν)) (M : κ → Option ν) : Prop where
  unique : ∀ i j k v w, ent i = some (k, v) → ent j = some (k, w) → i = j
  binds : ∀ k v, M k = some v ↔ ∃ j, ent j = some (k, v)

namespace Represents

open Function Option

variable {ent : ℕ → Option (κ × ν)} {M : κ → Option ν} {j : ℕ} {k : κ} {v : ν}

theorem empty : Represents (fun _ => none : ℕ → Option (κ × ν)) fun _ => none where
  unique i j k v w hi := by cases hi
  binds k v := by simp

variable (h : Represents ent M)

include h

theorem eq_some (hj : ent j = some (k, v)) : M k = some v := (h.binds k v).mpr ⟨j, hj⟩

/-- A key that is in no slot is not bound. -/
theorem eq_none (hk : ∀ j v, ent j ≠ some (k, v)) : M k = none := by
  cases hM : M k with
  | none => rfl
  | some v =>
    obtain ⟨j, hj⟩ := (h.binds k v).mp hM
    exact absurd hj (hk j v)

variable [DecidableEq κ]

/-- A new key is put into a free slot. -/
theorem insert (hj : ent j = none) (hk : M k = none) :
    Represents (update ent j (some (k, v))) (update M k (some v)) where
  unique a b k' w w' ha hb := by
    have hfree : ∀ l w, ent l ≠ some (k, w) := fun l w hl => by
      rw [h.eq_some hl] at hk
      cases hk
    by_cases haj : a = j
    · by_cases hbj : b = j
      · rw [haj, hbj]
      · rw [haj, update_self, some_inj] at ha
        rw [update_of_ne hbj, ← (Prod.mk.inj ha).1] at hb
        exact absurd hb (hfree b w')
    · rw [update_of_ne haj] at ha
      by_cases hbj : b = j
      · rw [hbj, update_self, some_inj] at hb
        rw [← (Prod.mk.inj hb).1] at ha
        exact absurd ha (hfree a w)
      · rw [update_of_ne hbj] at hb
        exact h.unique a b k' w w' ha hb
  binds k' w := by
    by_cases hkk : k' = k
    · subst hkk
      rw [update_self, some_inj]
      constructor
      · rintro rfl
        exact ⟨j, update_self ..⟩
      · rintro ⟨l, hl⟩
        by_cases hlj : l = j
        · rw [hlj, update_self, some_inj] at hl
          exact (Prod.mk.inj hl).2
        · rw [update_of_ne hlj] at hl
          rw [h.eq_some hl] at hk
          cases hk
    · rw [update_of_ne hkk, h.binds]
      refine exists_congr fun l => ?_
      by_cases hlj : l = j
      · subst hlj
        rw [update_self, hj, some_inj]
        refine ⟨fun hl => (by cases hl), fun hl => absurd (Prod.mk.inj hl).1.symm hkk⟩
      · rw [update_of_ne hlj]

/-- A slot is freed, and its key with it. -/
theorem erase (hj : ent j = some (k, v)) : Represents (update ent j none) (update M k none) where
  unique a b k' w w' ha hb := by
    have hold : ∀ {l w}, update ent j none l = some (k', w) → ent l = some (k', w) := by
      intro l w hl
      rw [update_apply] at hl
      split_ifs at hl
      exact hl
    exact h.unique a b k' w w' (hold ha) (hold hb)
  binds k' w := by
    by_cases hkk : k' = k
    · subst hkk
      rw [update_self]
      refine ⟨fun hn => (by cases hn), fun ⟨l, hl⟩ => ?_⟩
      rw [update_apply] at hl
      split_ifs at hl with hlj
      exact absurd (h.unique l j k' w v hl hj) hlj
    · rw [update_of_ne hkk, h.binds]
      refine exists_congr fun l => ?_
      by_cases hlj : l = j
      · subst hlj
        rw [update_self, hj, some_inj]
        exact ⟨fun hl => absurd (Prod.mk.inj hl).1.symm hkk, fun hl => (by cases hl)⟩
      · rw [update_of_ne hlj]

omit [DecidableEq κ] in
/-- The map of finitely many slots is finite. -/
theorem finite {n : ℕ} (hn : ∀ j, n ≤ j → ent j = none) : {k | M k ≠ none}.Finite := by
  have hsub : some '' {k | M k ≠ none} ⊆
      (fun j => (ent j).map Prod.fst) '' (Finset.range n : Set ℕ) := by
    rintro _ ⟨k, hk, rfl⟩
    obtain ⟨v, hv⟩ := ne_none_iff_exists'.mp hk
    obtain ⟨j, hj⟩ := (h.binds k v).mp hv
    refine ⟨j, ?_, congrArg (Option.map Prod.fst) hj⟩
    rw [Finset.mem_coe, Finset.mem_range]
    by_contra hle
    rw [hn j (Nat.not_lt.mp hle)] at hj
    cases hj
  have hfin : (some '' {k | M k ≠ none}).Finite := ((Finset.finite_toSet _).image _).subset hsub
  exact hfin.of_finite_image (some_injective κ).injOn

end Represents
