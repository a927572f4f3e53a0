import Mathlib.Data.Nat.Notation
import Mathlib.Logic.Function.Basic

/-!
# Ownership of numbered resources

An allocator marks numbered resources as used, one bit each. A family of places names resources,
`0` being no name. The bits and the names agree when a named resource is one that may be allocated
and is marked, no resource is named at two places, and no marked one is named at none.
-/

variable {κ : Type*}

/-- The places `own` name the resources of `A` that are marked in `bit`, each at one place. -/
structure Owned (A : ℕ → Prop) (bit : ℕ → Bool) (own : κ → ℕ) : Prop where
  area : ∀ k, own k ≠ 0 → A (own k) ∧ bit (own k) = true
  inj : ∀ k l, own k = own l → own k ≠ 0 → k = l
  cover : ∀ b, b ≠ 0 → A b → bit b = true → ∃ k, own k = b

namespace Owned

open Function

variable {A : ℕ → Prop} {bit : ℕ → Bool} {own : κ → ℕ} {b : ℕ} {k : κ}

/-- A resource that is not marked is named nowhere. -/
theorem ne_of_clear (h : Owned A bit own) (hb : bit b = false) (hb0 : b ≠ 0) (l : κ) :
    own l ≠ b := by
  rintro rfl
  rw [(h.area l hb0).2] at hb
  cases hb

variable [DecidableEq κ]

theorem alloc (h : Owned A bit own) (hA : A b) (hb : bit b = false) (hb0 : b ≠ 0)
    (hk : own k = 0) : Owned A (update bit b true) (update own k b) where
  area l hl := by
    by_cases hlk : l = k
    · subst hlk
      simp [hA]
    · rw [update_of_ne hlk] at hl ⊢
      rw [update_of_ne (h.ne_of_clear hb hb0 l)]
      exact h.area l hl
  inj l m heq hl := by
    by_cases hlk : l = k
    · by_cases hmk : m = k
      · rw [hlk, hmk]
      · rw [hlk, update_self, update_of_ne hmk] at heq
        exact absurd heq.symm (h.ne_of_clear hb hb0 m)
    · rw [update_of_ne hlk] at heq hl
      by_cases hmk : m = k
      · rw [hmk, update_self] at heq
        exact absurd heq (h.ne_of_clear hb hb0 l)
      · rw [update_of_ne hmk] at heq
        exact h.inj l m heq hl
  cover c hc0 hc hbit := by
    by_cases hcb : c = b
    · exact ⟨k, by rw [update_self, hcb]⟩
    · rw [update_of_ne hcb] at hbit
      obtain ⟨l, rfl⟩ := h.cover c hc0 hc hbit
      refine ⟨l, update_of_ne ?_ ..⟩
      rintro rfl
      exact hc0 hk

end Owned
