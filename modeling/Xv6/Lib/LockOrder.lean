import Mathlib.Logic.Relation
import Mathlib.Order.Basic

/-!
# Deadlocks

A thread that wants a lock waits for the thread that owns it. Threads are deadlocked if they wait
for each other in a circle. A ranking of the threads that increases from each waiting thread to the
one it waits for rules this out; it is enough that it increases where the wait goes on for two more
threads.
-/

namespace LockOrder

variable {C L : Type*}

/-- The thread `c` wants a lock that `d` owns. -/
def WaitsFor (wants : C → Option L) (owner : L → Option C) (c d : C) : Prop :=
  ∃ l, wants c = some l ∧ owner l = some d

/-- **No circle**: the rank increases along each step of a path that goes on for two more. -/
theorem acyclic_of_rank {r : C → C → Prop} {β : Type*} [Preorder β] (rank : C → β)
    (h : ∀ a b c d, r a b → r b c → r c d → rank a < rank b) (a : C) :
    ¬Relation.TransGen r a a := by
  intro hcycle
  -- from every thread that leads to the circle the path goes on
  have hnext : ∀ x, Relation.TransGen r x a → ∃ y z, r x y ∧ r y z := by
    intro x hx
    obtain ⟨y, hxy, hya⟩ := Relation.TransGen.head'_iff.mp hx
    obtain rfl | hya := Relation.reflTransGen_iff_eq_or_transGen.mp hya
    · obtain ⟨z, hz, -⟩ := Relation.TransGen.head'_iff.mp hcycle
      exact ⟨_, z, hxy, hz⟩
    · obtain ⟨z, hz, -⟩ := Relation.TransGen.head'_iff.mp hya
      exact ⟨y, z, hxy, hz⟩
  have hlt : ∀ x, Relation.TransGen r x a → rank x < rank a := by
    intro x hx
    induction hx using Relation.TransGen.head_induction_on with
    | single hxa =>
      obtain ⟨y, z, hy, hz⟩ := hnext a hcycle
      exact h _ _ _ _ hxa hy hz
    | head hxy hya ih =>
      obtain ⟨z, w, hz, hw⟩ := hnext _ hya
      exact (h _ _ _ _ hxy hz hw).trans ih
  exact lt_irrefl _ (hlt a hcycle)

end LockOrder
