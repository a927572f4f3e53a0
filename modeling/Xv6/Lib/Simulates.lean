import Xv6.Lib.Ensures

/-!
# Simulation between failing programs

Two programs that can stop with an error, one on concrete and one on abstract data. `Simulates R x
y` says that they stop with the same error or return related values, so that neither has an outcome
that the other lacks.
-/

universe u v w

variable {ε : Type u} {α α' : Type v} {β β' : Type v}

/-- The two programs stop with the same error, or return values related by `R`. -/
def Simulates (R : α → β → Prop) (x : Except ε α) (y : Except ε β) : Prop :=
  match x, y with
  | .ok a, .ok b => R a b
  | .error e, .error e' => e = e'
  | _, _ => False

namespace Simulates

variable {x : Except ε α} {y : Except ε β} {R S : α → β → Prop}

/-- Sequential composition: related values are what the second programs may assume. -/
theorem bind {f : α → Except ε α'} {g : β → Except ε β'} {T : α' → β' → Prop}
    (h : Simulates R x y) (hfg : ∀ a b, R a b → Simulates T (f a) (g b)) :
    Simulates T (x >>= f) (y >>= g) := by
  rcases x with e | a <;> rcases y with e' | b
  · exact h
  · exact h.elim
  · exact h.elim
  · exact hfg a b h

/-- The abstract program may go on with a step of its own that cannot fail. -/
theorem pure_right {g : β → β'} {T : α → β' → Prop} (h : Simulates R x y)
    (hg : ∀ a b, R a b → T a (g b)) : Simulates T x (y >>= fun b => pure (g b)) := by
  rcases x with e | a <;> rcases y with e' | b
  · exact h
  · exact h.elim
  · exact h.elim
  · exact hg a b h

/-- What the abstract program ensures may be assumed of its value. -/
theorem and_right {E : ε → Prop} {Q : β → Prop} (h : Simulates R x y) (hy : Ensures y E Q) :
    Simulates (fun a b => R a b ∧ Q b) x y := by
  rcases x with e | a <;> rcases y with e' | b
  · exact h
  · exact h
  · exact h
  · exact ⟨h, hy⟩

/-- What the abstract program ensures holds of the abstract side of each concrete outcome. -/
theorem ensures {E : ε → Prop} {Q : β → Prop} (h : Simulates R x y) (hy : Ensures y E Q) :
    Ensures x E fun a => ∃ b, R a b ∧ Q b := by
  rcases x with e | a <;> rcases y with e' | b
  · cases h
    exact hy
  · exact h.elim
  · exact h.elim
  · exact ⟨b, h, hy⟩

end Simulates
