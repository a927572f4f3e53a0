import Mathlib.Logic.Function.Basic
import Mathlib.Data.List.Basic

/-!
# Lists of writes

A store is a function from addresses to values, and a list of writes changes it, one write after
the other. A system that can stop between any two writes leaves a store changed by a first part of
the list.
-/

namespace Writes

open Function

variable {α β : Type*} [DecidableEq α]

/-- The store after a list of writes, the first one first. -/
def apply : List (α × β) → (α → β) → α → β
  | [], d => d
  | w :: ws, d => apply ws (update d w.1 w.2)

@[simp] theorem apply_nil (d : α → β) : apply [] d = d := rfl

@[simp] theorem apply_cons (w : α × β) (ws : List (α × β)) (d : α → β) :
    apply (w :: ws) d = apply ws (update d w.1 w.2) := rfl

theorem apply_append (ws vs : List (α × β)) (d : α → β) :
    apply (ws ++ vs) d = apply vs (apply ws d) := by
  induction ws generalizing d with
  | nil => rfl
  | cons w ws ih => exact ih _

/-- An address that is not written keeps its value. -/
theorem apply_of_not_mem {ws : List (α × β)} {x : α} (h : ∀ w ∈ ws, w.1 ≠ x) (d : α → β) :
    apply ws d x = d x := by
  induction ws generalizing d with
  | nil => rfl
  | cons w ws ih =>
    rw [apply_cons, ih fun v hv => h v (List.mem_cons_of_mem w hv),
      update_of_ne (h w List.mem_cons_self).symm]

/-- An address to which only one value is written holds it afterwards. -/
theorem apply_of_mem {ws : List (α × β)} {x : α} {y : β} (hmem : (x, y) ∈ ws)
    (hval : ∀ z, (x, z) ∈ ws → z = y) (d : α → β) : apply ws d x = y := by
  induction ws generalizing d with
  | nil => cases hmem
  | cons w ws ih =>
    rw [apply_cons]
    by_cases hlater : ∃ v ∈ ws, v.1 = x
    · obtain ⟨⟨x', z⟩, hv, rfl⟩ := hlater
      obtain rfl := hval z (List.mem_cons_of_mem w hv)
      exact ih hv (fun z' hz' => hval z' (List.mem_cons_of_mem w hz')) _
    · -- this is the last write to the address
      rw [apply_of_not_mem fun v hv hx => hlater ⟨v, hv, hx⟩]
      rcases List.mem_cons.mp hmem with rfl | hin
      · exact update_self ..
      · exact absurd ⟨(x, y), hin, rfl⟩ hlater

/-- **The invariant rule** for lists of writes. -/
theorem apply_invariant {ws : List (α × β)} {P : (α → β) → Prop}
    (h : ∀ w ∈ ws, ∀ d, P d → P (update d w.1 w.2)) {d : α → β} (hd : P d) :
    P (apply ws d) := by
  induction ws generalizing d with
  | nil => exact hd
  | cons w ws ih =>
    exact ih (fun v hv => h v (List.mem_cons_of_mem w hv)) (h w List.mem_cons_self d hd)

end Writes
