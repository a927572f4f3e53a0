import Mathlib.Init

/-!
# Transition systems

A system is given by its initial states and its labelled steps. A state is reachable if a finite
number of steps leads to it from an initial one; an invariant is a property that holds initially
and that every step preserves.
-/

universe u v w

structure LTS (σ : Type u) (α : Type v) where
  init : σ → Prop
  step : σ → α → σ → Prop

namespace LTS

variable {σ : Type u} {α : Type v} {τ β : Type w} {T : LTS σ α} {as : List α} {s s' : σ}

inductive Reachable (T : LTS σ α) : σ → Prop
  | init {s : σ} : T.init s → Reachable T s
  | step {s s' : σ} {a : α} : Reachable T s → T.step s a s' → Reachable T s'

/-- The runs from one state to another, with the labels of their steps. -/
inductive Run (T : LTS σ α) : σ → List α → σ → Prop
  | nil (s : σ) : Run T s [] s
  | cons {s s' s'' : σ} {a : α} {as : List α} :
    T.step s a s' → Run T s' as s'' → Run T s (a :: as) s''

/-- **The invariant rule.** -/
theorem Reachable.invariant {P : σ → Prop} (hinit : ∀ s, T.init s → P s)
    (hstep : ∀ s a s', P s → T.step s a s' → P s') (h : T.Reachable s) : P s := by
  induction h with
  | init hi => exact hinit _ hi
  | step _ hs ih => exact hstep _ _ _ ih hs

/-- The system that takes a step only where it meets the condition. -/
def restrict (T : LTS σ α) (C : σ → α → Prop) : LTS σ α where
  init := T.init
  step s a s' := T.step s a s' ∧ C s a

theorem Reachable.of_restrict {C : σ → α → Prop} (h : (T.restrict C).Reachable s) :
    T.Reachable s := by
  induction h with
  | init hi => exact .init hi
  | step _ hs ih => exact ih.step hs.1

/-- The state after the steps of a function along a list of labels, if it can take them. -/
def runAll (f : σ → α → Option σ) : σ → List α → Option σ
  | s, [] => some s
  | s, a :: as => (f s a).bind (runAll f · as)

/-- The steps of a function along labels that all meet a condition lead to a reachable state. -/
theorem Reachable.runAll_of_forall {f : σ → α → Option σ} {C : α → Prop}
    (hf : ∀ s a s', C a → f s a = some s' → T.step s a s') (hs : T.Reachable s) (hC : ∀ a ∈ as, C a)
    (h : LTS.runAll f s as = some s') :
    T.Reachable s' := by
  induction as generalizing s with
  | nil => exact Option.some.inj h ▸ hs
  | cons a as ih =>
    obtain ⟨s1, h1, h2⟩ := Option.bind_eq_some_iff.mp h
    exact ih (hs.step (hf s a s1 (hC a List.mem_cons_self) h1))
      (fun b hb => hC b (List.mem_cons_of_mem a hb)) h2

theorem Reachable.runAll {f : σ → α → Option σ} (hf : ∀ s a s', f s a = some s' → T.step s a s')
    (hs : T.Reachable s) (h : LTS.runAll f s as = some s') : T.Reachable s' :=
  hs.runAll_of_forall (C := fun _ => True) (fun s a s' _ => hf s a s') (fun _ _ => trivial) h

/-- The labels that a step function gives to a list of events, and the state after them. -/
def trace (f : σ → β → Option (α × σ)) : σ → List β → Option (List α × σ)
  | s, [] => some ([], s)
  | s, b :: bs => (f s b).bind fun r => (trace f r.2 bs).map fun q => (r.1 :: q.1, q.2)

theorem Run.of_trace {f : σ → β → Option (α × σ)}
    (hf : ∀ s b a s', f s b = some (a, s') → T.step s a s') {bs : List β}
    (h : trace f s bs = some (as, s')) : T.Run s as s' := by
  induction bs generalizing s as with
  | nil =>
    obtain ⟨rfl, rfl⟩ := Prod.mk.inj (Option.some.inj h)
    exact .nil s
  | cons b bs ih =>
    obtain ⟨⟨a, s1⟩, h1, hrest⟩ := Option.bind_eq_some_iff.mp h
    obtain ⟨q, hq, heq⟩ := Option.map_eq_some_iff.mp hrest
    obtain ⟨rfl, rfl⟩ := Prod.mk.inj heq
    exact .cons (hf s b a s1 h1) (ih hq)

theorem Run.snoc {s'' : σ} {a : α} (h : T.Run s as s') (hstep : T.step s' a s'') :
    T.Run s (as ++ [a]) s'' := by
  induction h with
  | nil s => exact .cons hstep (.nil _)
  | cons h1 _ ih => exact .cons h1 (ih hstep)

/-- **The history rule**: what every step preserves, of the labels so far and the state, a run
preserves. -/
theorem Run.history {P : List α → σ → Prop}
    (hstep : ∀ bs s a s', P bs s → T.step s a s' → P (bs ++ [a]) s') (h : T.Run s as s')
    (hs : P [] s) : P as s' := by
  -- the induction starts anywhere
  suffices hfrom : ∀ bs, P bs s → P (bs ++ as) s' from hfrom [] hs
  intro bs hbs
  clear hs
  induction h generalizing bs with
  | nil s => rwa [List.append_nil]
  | cons h1 _ ih =>
    rw [← List.singleton_append, ← List.append_assoc]
    exact ih _ (hstep _ _ _ _ hbs h1)

/-- **The simulation rule**: if the second system can match every step of the first, it can match
every run. -/
theorem Run.simulation {V : LTS τ α} {R : σ → τ → Prop}
    (hstep : ∀ s a s' t, R s t → T.step s a s' → ∃ t', V.step t a t' ∧ R s' t') (h : T.Run s as s')
    {t : τ} (hR : R s t) :
    ∃ t', V.Run t as t' ∧ R s' t' := by
  induction h generalizing t with
  | nil s => exact ⟨t, .nil t, hR⟩
  | cons h1 _ ih =>
    obtain ⟨t1, ht1, hR1⟩ := hstep _ _ _ _ hR h1
    obtain ⟨t', hrun, hR'⟩ := ih hR1
    exact ⟨t', .cons ht1 hrun, hR'⟩

end LTS

/-! The parties of the runs that are written out are numbered, in types of these sizes. -/

instance (priority := 1100) neZeroOne : @NeZero Nat Zero.ofOfNat0 1 := ⟨Nat.succ_ne_zero _⟩

instance (priority := 1100) neZeroTwo : @NeZero Nat Zero.ofOfNat0 2 := ⟨Nat.succ_ne_zero _⟩

instance (priority := 1100) neZeroSixtyFour : @NeZero Nat Zero.ofOfNat0 64 := ⟨Nat.succ_ne_zero _⟩
