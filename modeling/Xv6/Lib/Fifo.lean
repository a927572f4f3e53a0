import Mathlib.Data.Int.Notation
import Mathlib.Data.List.Basic
import Mathlib.Data.Nat.Notation
import Xv6.Lib.Transition

/-!
# First-in first-out queues in discrete time

A family of queues, indexed by `κ`, of members of `α`. A member is appended at the end of its queue
together with the tick at which that happens. Time has ticks only, so members that were appended at
one tick may leave in any order, but nobody may leave before a member of an earlier tick.

An implementation may keep no queues at all, only for each member the queue it is in and a stamp.
`Fifo.Encodes` says when such an encoding stands for the queues, and `Fifo.Encodes.next` what a
step has to observe to remain one.
-/

/-- The time, and the queues with their members and the ticks at which these entered. -/
@[ext] structure Fifo (κ α : Type*) where
  now : ℕ
  queue : κ → List (α × ℕ)

namespace Fifo

variable {κ α : Type*}

/-- A move: time advances, at most one member leaves its queue, and members enter at the end of a
queue, those of another queue leaving it. -/
structure Move (κ α : Type*) where
  ran : Option (α × κ)
  entered : List (α × κ)
  ticks : ℕ

def First (l : List (α × ℕ)) (p : α) : Prop := ∃ τ, (p, τ) ∈ l ∧ ∀ e ∈ l, τ ≤ e.2

def Move.Takes (m : Move κ α) (p : α) : Prop :=
  m.ran.map Prod.fst = some p ∨ ∃ e ∈ m.entered, e.1 = p

instance [DecidableEq α] (m : Move κ α) (p : α) : Decidable (m.Takes p) :=
  inferInstanceAs (Decidable (_ ∨ _))

def empty : Fifo κ α := ⟨0, fun _ => []⟩

variable [DecidableEq κ] [DecidableEq α]

def next (s : Fifo κ α) (m : Move κ α) : Fifo κ α where
  now := s.now + m.ticks
  queue k := (s.queue k).filter (fun e => ¬m.Takes e.1) ++
    (m.entered.filter fun e => e.2 = k).map fun e => (e.1, s.now + m.ticks)

/-- The discipline: whoever leaves is among the first of the queue. -/
def system (κ α : Type*) [DecidableEq κ] [DecidableEq α] : LTS (Fifo κ α) (Move κ α) where
  init s := s = empty
  step s m s' := (∀ p k, m.ran = some (p, k) → First (s.queue k) p) ∧ s' = s.next m

instance (l : List (α × ℕ)) (p : α) : Decidable (First l p) :=
  decidable_of_iff (∃ e ∈ l, e.1 = p ∧ ∀ e' ∈ l, e.2 ≤ e'.2) <| by
    constructor
    · rintro ⟨e, he, rfl, hle⟩
      exact ⟨e.2, he, hle⟩
    · rintro ⟨τ, hτ, hle⟩
      exact ⟨(p, τ), hτ, rfl, hle⟩

def step? (s : Fifo κ α) (m : Move κ α) : Option (Fifo κ α) :=
  if ∀ x ∈ m.ran, First (s.queue x.2) x.1 then some (s.next m) else none

/-- A run of the queues is found by the function. -/
theorem runAll_of_run {s s' : Fifo κ α} {ms : List (Move κ α)} (h : (system κ α).Run s ms s') :
    LTS.runAll step? s ms = some s' := by
  induction h with
  | nil s => rfl
  | @cons s _ _ m _ hs _ ih =>
    obtain ⟨hfirst, rfl⟩ := hs
    have hran : ∀ x ∈ m.ran, First (s.queue x.2) x.1 := fun x hx => hfirst x.1 x.2 hx
    rw [LTS.runAll, step?, if_pos hran]
    exact ih

theorem mem_next {s : Fifo κ α} {m : Move κ α} {k : κ} {p : α} {τ : ℕ} :
    (p, τ) ∈ (s.next m).queue k ↔
      ((p, τ) ∈ s.queue k ∧ ¬m.Takes p) ∨ ((p, k) ∈ m.entered ∧ τ = s.now + m.ticks) := by
  simp only [next, List.mem_append, List.mem_filter, List.mem_map, decide_eq_true_eq, Prod.mk.injEq]
  refine or_congr Iff.rfl ⟨?_, ?_⟩
  · rintro ⟨e, ⟨he, rfl⟩, rfl, rfl⟩
    exact ⟨he, rfl⟩
  · rintro ⟨he, rfl⟩
    exact ⟨(p, k), ⟨he, rfl⟩, rfl, rfl⟩

/-- The queue a member is in and its stamp stand for the queues: a member that entered at an
earlier tick has the smaller stamp, and no stamp is later than the entry. -/
structure Encodes (place : α → Option κ) (stamp : α → ℤ) (s : Fifo κ α) : Prop where
  mem : ∀ p k, (∃ τ, (p, τ) ∈ s.queue k) ↔ place p = some k
  le_now : ∀ {p k τ}, (p, τ) ∈ s.queue k → τ ≤ s.now
  stamp_le : ∀ {p k τ}, (p, τ) ∈ s.queue k → stamp p ≤ τ
  order : ∀ {p r k τ τ'}, (p, τ) ∈ s.queue k → (r, τ') ∈ s.queue k → τ < τ' → stamp p < stamp r

namespace Encodes

variable {place place' : α → Option κ} {stamp stamp' : α → ℤ} {s : Fifo κ α} {m : Move κ α}

omit [DecidableEq κ] [DecidableEq α] in
theorem empty (h : ∀ p, place p = none) : Encodes place stamp Fifo.empty where
  mem p k := by simp [Fifo.empty, h]
  le_now h := absurd h (by simp [Fifo.empty])
  stamp_le h := absurd h (by simp [Fifo.empty])
  order h := absurd h (by simp [Fifo.empty])

omit [DecidableEq κ] [DecidableEq α] in
/-- A member whose stamp is least in its queue is among the first. -/
theorem first (h : Encodes place stamp s) {p : α} {k : κ} (hp : place p = some k)
    (hmin : ∀ r, place r = some k → ¬stamp r < stamp p) : First (s.queue k) p := by
  obtain ⟨τ, hτ⟩ := (h.mem p k).mpr hp
  refine ⟨τ, hτ, fun e he => ?_⟩
  by_contra hlt
  exact hmin e.1 ((h.mem e.1 k).mp ⟨e.2, he⟩) (h.order he hτ (by omega))

omit [DecidableEq κ] [DecidableEq α] in
/-- A stamp is not later than the present. -/
theorem stamp_le_now (h : Encodes place stamp s) {p : α} {k : κ} (hp : place p = some k) :
    stamp p ≤ s.now := by
  obtain ⟨τ, hτ⟩ := (h.mem p k).mpr hp
  have hle := h.le_now hτ
  have hstamp := h.stamp_le hτ
  omega

/-- **A move of the encoding.** The move must report who changed places; who stays keeps its stamp;
who enters is not stamped later than the present, and later than everybody there from an earlier
tick. -/
theorem next (h : Encodes place stamp s)
    (hentered : ∀ p k, (p, k) ∈ m.entered ↔ place' p = some k ∧ place p ≠ some k)
    (hran : ∀ p k, m.ran = some (p, k) → place' p = none)
    (hleft : ∀ p k, place p = some k → place' p = none → ∃ k', m.ran = some (p, k'))
    (hkeep : ∀ p k, place p = some k → place' p = some k → stamp' p = stamp p)
    (hlate : ∀ p k, place' p = some k → place p ≠ some k → stamp' p ≤ (s.now + m.ticks : ℕ))
    (horder : ∀ p r k τ, place' p = some k → place p ≠ some k → place' r = some k →
      (r, τ) ∈ s.queue k → τ < s.now + m.ticks → stamp r < stamp' p) :
    Encodes place' stamp' (s.next m) := by
  -- who is not taken stays, and who stays is not taken
  have hstays : ∀ {p k τ}, (p, τ) ∈ s.queue k → ¬m.Takes p → place' p = some k := by
    intro p k τ hmem htakes
    have hplace := (h.mem p k).mp ⟨τ, hmem⟩
    cases hp' : place' p with
    | none =>
      obtain ⟨k', hk'⟩ := hleft p k hplace hp'
      exact absurd (.inl (by rw [hk']; rfl)) htakes
    | some k' =>
      by_contra hne
      refine htakes (.inr ⟨(p, k'), (hentered p k').mpr ⟨hp', ?_⟩, rfl⟩)
      rw [hplace]
      exact fun heq => hne heq.symm
  have htaken : ∀ {p k}, place p = some k → place' p = some k → ¬m.Takes p := by
    rintro p k hp hp' (hr | ⟨e, he, rfl⟩)
    · obtain ⟨x, hx, rfl⟩ := Option.map_eq_some_iff.mp hr
      rw [hran x.1 x.2 hx] at hp'
      cases hp'
    · obtain ⟨hpe, hne⟩ := (hentered e.1 e.2).mp he
      rw [hp'] at hpe
      exact hne (hp.trans hpe)
  refine ⟨fun p k => ?_, fun {p k τ} hmem => ?_, fun {p k τ} hmem => ?_,
    fun {p r k τ τ'} hp hr hlt => ?_⟩
  · constructor
    · rintro ⟨τ, hmem⟩
      rcases mem_next.mp hmem with ⟨hold, htakes⟩ | ⟨hnew, -⟩
      · exact hstays hold htakes
      · exact ((hentered p k).mp hnew).1
    · intro hp'
      by_cases hp : place p = some k
      · obtain ⟨τ, hτ⟩ := (h.mem p k).mpr hp
        exact ⟨τ, mem_next.mpr (.inl ⟨hτ, htaken hp hp'⟩)⟩
      · exact ⟨_, mem_next.mpr (.inr ⟨(hentered p k).mpr ⟨hp', hp⟩, rfl⟩)⟩
  · rcases mem_next.mp hmem with ⟨hold, -⟩ | ⟨-, rfl⟩
    · exact Nat.le_trans (h.le_now hold) (Nat.le_add_right _ _)
    · exact Nat.le_refl _
  · rcases mem_next.mp hmem with ⟨hold, htakes⟩ | ⟨hnew, rfl⟩
    · rw [hkeep p k ((h.mem p k).mp ⟨τ, hold⟩) (hstays hold htakes)]
      exact h.stamp_le hold
    · obtain ⟨hp', hne⟩ := (hentered p k).mp hnew
      exact hlate p k hp' hne
  · -- an earlier entry is an old one, so only a later old or new one is left to compare
    rcases mem_next.mp hp with ⟨hpold, hptakes⟩ | ⟨-, rfl⟩
    · rw [hkeep p k ((h.mem p k).mp ⟨τ, hpold⟩) (hstays hpold hptakes)]
      rcases mem_next.mp hr with ⟨hrold, hrtakes⟩ | ⟨hrnew, rfl⟩
      · rw [hkeep r k ((h.mem r k).mp ⟨τ', hrold⟩) (hstays hrold hrtakes)]
        exact h.order hpold hrold hlt
      · obtain ⟨hr', hne⟩ := (hentered r k).mp hrnew
        exact horder r p k τ hr' hne (hstays hpold hptakes) hpold hlt
    · rcases mem_next.mp hr with ⟨hrold, -⟩ | ⟨-, rfl⟩
      · have := h.le_now hrold
        omega
      · exact absurd hlt (Nat.lt_irrefl _)

end Encodes

end Fifo
