import Xv6.Lib.Ensures

/-!
# Pre- and postconditions of stateful programs

A program that has a state and can stop with an error is a value of `StateT σ (Except ε) α`.
`Runs x s E Q` says that `x`, run from the state `s`, stops only with errors in `E`, and that the
value and the state it returns satisfy `Q`. Naming the initial state lets `Q` compare the two.

## Main results

* `Runs.bind`: the rule of sequential composition
* `Runs.mono`, `Runs.and`: the rules of consequence and of conjunction
* `Runs.exists_ok`: a program without errors returns
* `Runs.get_bind`, `Runs.set_bind`, `Runs.modify_bind`, `Runs.throw_iff`, `Runs.pure_iff`: the
  primitive programs
* `Runs.forM`: the rule of loops over a list
-/

universe u

variable {σ ε α β : Type u}

/-- From the state `s`, the program `x` stops only with errors in `E`, and returns only results in
`Q`. -/
def Runs (x : StateT σ (Except ε) α) (s : σ) (E : ε → Prop) (Q : α → σ → Prop) : Prop :=
  Ensures (x s) E fun r => Q r.1 r.2

namespace Runs

variable {x : StateT σ (Except ε) α} {f : α → StateT σ (Except ε) β} {s : σ} {E : ε → Prop}
  {P Q : α → σ → Prop} {R : β → σ → Prop}

/-- Sequential composition: what the first program ensures is what the second may assume. -/
theorem bind (hx : Runs x s E P) (hf : ∀ a s', P a s' → Runs (f a) s' E R) : Runs (x >>= f) s E R :=
  Ensures.bind hx fun r hr => hf r.1 r.2 hr

/-- Consequence. -/
theorem mono (hx : Runs x s E P) (h : ∀ a s', P a s' → Q a s') : Runs x s E Q :=
  Ensures.mono hx fun r hr => h r.1 r.2 hr

/-- Consequence, for the errors. -/
theorem weaken {E' : ε → Prop} (hx : Runs x s E Q) (h : ∀ e, E e → E' e) : Runs x s E' Q :=
  Ensures.weaken hx h

/-- Conjunction. The errors are those of the first specification. -/
theorem and {E' : ε → Prop} (hP : Runs x s E P) (hQ : Runs x s E' Q) :
    Runs x s E fun a s' => P a s' ∧ Q a s' :=
  Ensures.and hP hQ

/-- Every program, if nothing is said about its errors and results. -/
theorem any (x : StateT σ (Except ε) α) (s : σ) : Runs x s (fun _ => True) fun _ _ => True :=
  Ensures.any _

@[simp] theorem pure_iff {a : α} : Runs (pure a) s E Q ↔ Q a s := Iff.rfl

@[simp] theorem pure_bind {a : α} : Runs (pure a >>= f) s E R ↔ Runs (f a) s E R := Iff.rfl

@[simp] theorem get_bind {g : σ → StateT σ (Except ε) β} :
    Runs (get >>= g) s E R ↔ Runs (g s) s E R := Iff.rfl

@[simp] theorem modify_bind {h : σ → σ} {g : PUnit → StateT σ (Except ε) β} :
    Runs (modify h >>= g) s E R ↔ Runs (g ⟨⟩) (h s) E R := Iff.rfl

@[simp] theorem set_bind {s' : σ} {g : PUnit → StateT σ (Except ε) β} :
    Runs (set s' >>= g) s E R ↔ Runs (g ⟨⟩) s' E R := Iff.rfl

@[simp] theorem modify_iff {h : σ → σ} {T : PUnit → σ → Prop} :
    Runs (modify h : StateT σ (Except ε) PUnit) s E T ↔ T ⟨⟩ (h s) := Iff.rfl

theorem of_ok (hx : Runs x s E Q) {a : α} {s' : σ} (h : x s = .ok (a, s')) : Q a s' :=
  Ensures.of_ok hx h

theorem of_error (hx : Runs x s E Q) {e : ε} (h : x s = .error e) : E e := Ensures.of_error hx h

/-- The result is that of the run. -/
theorem with_run (hx : Runs x s E Q) : Runs x s E fun a s' => Q a s' ∧ x s = .ok (a, s') := by
  unfold Runs at hx ⊢
  cases h : x s with
  | error e =>
    rw [h] at hx
    exact hx
  | ok r =>
    rw [h] at hx
    exact ⟨hx, rfl⟩

/-- A program that cannot stop with an error returns. -/
theorem exists_ok (hx : Runs x s (fun _ => False) Q) : ∃ a s', x s = .ok (a, s') ∧ Q a s' := by
  obtain ⟨⟨a, s'⟩, h, hQ⟩ := Ensures.exists_ok hx
  exact ⟨a, s', h, hQ⟩

/-- A loop over a list keeps what its body keeps; the invariant may mention the elements left. -/
theorem forM {ι : Type u} {g : ι → StateT σ (Except ε) PUnit} {I : List ι → σ → Prop} {l : List ι}
    (hg : ∀ a l s, I (a :: l) s → Runs (g a) s E fun _ s' => I l s') (hs : I l s) :
    Runs (l.forM g) s E fun _ s' => I [] s' := by
  induction l generalizing s with
  | nil => exact hs
  | cons a l ih => exact bind (hg a l s hs) fun _ s' hs' => ih hs'

end Runs
