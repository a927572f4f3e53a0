import Xv6.Lib.Runs

/-!
# Programs with more state

A program is often described first without a part of its state on which its results do not depend,
and a second time with it. The second program erases to the first if, with that part left out, the
two return the same. Then what the first returns the second returns too, and what is known about the
first need not be proved again.
-/

universe u

variable {σ γ ε α β : Type u} {E : ε → Prop} {t : σ × γ}

/-- The program `x`, which leaves the added part of the state alone. -/
def widen (x : StateT σ (Except ε) α) : StateT (σ × γ) (Except ε) α := fun t =>
  (x t.1).map fun r => (r.1, r.2, t.2)

def extra (f : γ → γ) : StateT (σ × γ) (Except ε) PUnit := modify fun t => (t.1, f t.2)

/-- Without the added part of the state the program `x` is the program `y`. -/
def Erases (x : StateT (σ × γ) (Except ε) α) (y : StateT σ (Except ε) α) : Prop :=
  ∀ t, (x t).map (fun r => (r.1, r.2.1)) = y t.1

/-- What a program does, it does in a larger state. -/
theorem Runs.of_widen {x : StateT σ (Except ε) α} {Q : α → σ → Prop} (h : Runs x t.1 E Q) :
    Runs (widen x : StateT (σ × γ) (Except ε) α) t E fun a t' => Q a t'.1 ∧ t'.2 = t.2 := by
  rw [Runs, widen]
  cases hx : x t.1 with
  | error e => exact h.of_error hx
  | ok r => exact ⟨h.of_ok hx, rfl⟩

@[simp] theorem Runs.widen_modify_bind {f : σ → σ} {g : PUnit → StateT (σ × γ) (Except ε) β}
    {R : β → σ × γ → Prop} :
    Runs (widen (modify f) >>= g) t E R ↔ Runs (g ⟨⟩) (f t.1, t.2) E R := Iff.rfl

@[simp] theorem Runs.widen_get_bind {g : σ → StateT (σ × γ) (Except ε) β} {R : β → σ × γ → Prop} :
    Runs (widen get >>= g) t E R ↔ Runs (g t.1) t E R := Iff.rfl

namespace Erases

variable {x : StateT (σ × γ) (Except ε) α} {y : StateT σ (Except ε) α}
  {f : α → StateT (σ × γ) (Except ε) β} {g : α → StateT σ (Except ε) β}

theorem of_widen (y : StateT σ (Except ε) α) :
    Erases (widen y : StateT (σ × γ) (Except ε) α) y := by
  intro t
  rw [widen]
  cases y t.1 <;> rfl

protected theorem pure (a : α) : Erases (pure a : StateT (σ × γ) (Except ε) α) (pure a) :=
  fun _ => rfl

protected theorem throw (e : ε) : Erases (throw e : StateT (σ × γ) (Except ε) α) (throw e) :=
  fun _ => rfl

protected theorem bind (hx : Erases x y) (hf : ∀ a, Erases (f a) (g a)) :
    Erases (x >>= f) (y >>= g) := by
  intro t
  have ht := hx t
  change (Except.bind (x t) fun r => f r.1 r.2).map _ = Except.bind (y t.1) fun r => g r.1 r.2
  rw [← ht]
  cases x t with
  | error e => rfl
  | ok r => exact hf r.1 r.2

protected theorem ite {c : Prop} [Decidable c] {x' : StateT (σ × γ) (Except ε) α}
    {y' : StateT σ (Except ε) α} (h : c → Erases x y) (h' : ¬ c → Erases x' y') :
    Erases (if c then x else x') (if c then y else y') := by
  by_cases hc : c
  · rw [if_pos hc, if_pos hc]
    exact h hc
  · rw [if_neg hc, if_neg hc]
    exact h' hc

/-- What the smaller program ensures, the larger ensures too. -/
theorem runs (h : Erases x y) {Q : α → σ → Prop} (hy : Runs y t.1 E Q) :
    Runs x t E fun a t' => Q a t'.1 := by
  have ht := h t
  rw [Runs]
  cases hx : x t with
  | error e =>
    rw [hx] at ht
    exact hy.of_error ht.symm
  | ok r =>
    rw [hx] at ht
    exact hy.of_ok ht.symm

end Erases
