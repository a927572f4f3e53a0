import Mathlib.Init

/-!
# Pre- and postconditions of failing programs

A program that can stop with an error is a value of `Except ε α`. `Ensures x E Q` says that `x`
stops only with errors in `E`, and that the value it returns satisfies `Q`. The rules below are
the usual ones of a program logic: consequence, conjunction and sequencing.
-/

universe u v w

variable {ε : Type u} {α : Type v} {β : Type v}

/-- The program `x` stops only with errors in `E`, and returns only values in `Q`. -/
def Ensures (x : Except ε α) (E : ε → Prop) (Q : α → Prop) : Prop :=
  match x with
  | .ok a => Q a
  | .error e => E e

namespace Ensures

variable {x : Except ε α} {f : α → Except ε β} {E : ε → Prop} {P Q : α → Prop} {R : β → Prop}

instance [DecidablePred E] [DecidablePred Q] : Decidable (Ensures x E Q) :=
  match x with
  | .ok a => inferInstanceAs (Decidable (Q a))
  | .error e => inferInstanceAs (Decidable (E e))

@[simp] theorem ok_iff {a : α} : Ensures (.ok a : Except ε α) E Q ↔ Q a := Iff.rfl

@[simp] theorem pure_iff {a : α} : Ensures (pure a : Except ε α) E Q ↔ Q a := Iff.rfl

/-- Sequential composition: what the first program ensures is what the second may assume. -/
theorem bind (hx : Ensures x E P) (hf : ∀ a, P a → Ensures (f a) E R) : Ensures (x >>= f) E R := by
  cases x with
  | ok a => exact hf a hx
  | error e => exact hx

/-- Consequence. -/
theorem mono (hx : Ensures x E P) (h : ∀ a, P a → Q a) : Ensures x E Q := by
  cases x with
  | ok a => exact h a hx
  | error e => exact hx

/-- Consequence, for the errors. -/
theorem weaken {E' : ε → Prop} (hx : Ensures x E Q) (h : ∀ e, E e → E' e) : Ensures x E' Q := by
  cases x with
  | ok a => exact hx
  | error e => exact h e hx

/-- Conjunction. The errors are those of the first specification. -/
theorem and {E' : ε → Prop} (hP : Ensures x E P) (hQ : Ensures x E' Q) :
    Ensures x E fun a => P a ∧ Q a := by
  cases x with
  | ok a => exact ⟨hP, hQ⟩
  | error e => exact hP

/-- A program of which nothing is asked. -/
theorem any (x : Except ε α) : Ensures x (fun _ => True) fun _ => True := by
  cases x with
  | ok a | error e => exact trivial

/-- What every program ensures of its result. -/
theorem run (x : Except ε α) : Ensures x (fun _ => True) fun a => x = .ok a := by
  cases x with
  | ok a => exact rfl
  | error e => exact trivial

theorem of_ok (hx : Ensures x E Q) {a : α} (h : x = .ok a) : Q a := by
  subst h
  exact hx

theorem of_error (hx : Ensures x E Q) {e : ε} (h : x = .error e) : E e := by
  subst h
  exact hx

/-- A program that cannot fail returns. -/
theorem exists_ok (hx : Ensures x (fun _ => False) Q) : ∃ a, x = .ok a ∧ Q a := by
  cases x with
  | ok a => exact ⟨a, rfl, hx⟩
  | error e => exact hx.elim

end Ensures

/-- A sequence that returns ran both of its parts. -/
theorem Except.bind_eq_ok_iff {x : Except ε α} {f : α → Except ε β} {b : β} :
    (x >>= f) = .ok b ↔ ∃ a, x = .ok a ∧ f a = .ok b := by
  cases x with
  | ok a =>
    constructor
    · intro h
      exact ⟨a, rfl, h⟩
    · rintro ⟨a', h, hb⟩
      cases h
      exact hb
  | error e =>
    constructor
    · intro h
      cases h
    · rintro ⟨a, h, -⟩
      cases h
