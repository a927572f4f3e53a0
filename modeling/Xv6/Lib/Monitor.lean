import Mathlib.Logic.Function.Basic
import Xv6.Lib.Transition

/-!
# Monitors

Processes share data under a lock. With the lock, a process takes steps of its own, wakes those that
sleep on a channel, and gives the lock up when it leaves or falls asleep on a channel. A sleeper
goes on when it is woken, or earlier for reasons of its own, and takes the lock again first.

No wakeup is lost if there is, for every channel, a state of the data in which it is right to sleep
there, and a process that ends this state *owes* a wakeup, which it pays before it gives up the
lock.
-/

open Function

inductive Next (S X Y C : Type)
  | go (d : S) (x : X)
  | wakeup (c : C) (x : X)
  | sleep (c : C) (x : X)
  | leave (y : Y)

/-- Processes `ι` on data `S`, with points `X` inside, `Y` outside, and channels `C`: where a call
begins, what it does, and what happens to the data without the lock. -/
structure Monitor (ι S X Y C : Type) where
  enter : Y → X → Prop
  next : ι → S → X → Next S X Y C
  env : S → S → Prop

namespace Monitor

variable {ι S X Y C : Type} [DecidableEq ι] [DecidableEq C]

/-- The data, who has the lock, the point that each process has come to, and on which channel it
sleeps. -/
structure State (ι S X Y C : Type) where
  data : S
  lock : Option ι
  point : ι → Y ⊕ X
  chan : ι → Option C

/-- The steps of a process, and those of the data. -/
inductive Step (M : Monitor ι S X Y C) (s : State ι S X Y C) : Option ι → State ι S X Y C → Prop
  | enter {p : ι} {y : Y} {x : X} : s.point p = .inl y → M.enter y x →
    Step M s (some p) { s with point := update s.point p (.inr x) }
  | acquire {p : ι} {x : X} : s.point p = .inr x → s.chan p = none → s.lock = none →
    Step M s (some p) { s with lock := some p }
  | go {p : ι} {x x' : X} {d : S} : s.lock = some p → s.point p = .inr x →
    M.next p s.data x = .go d x' →
    Step M s (some p) { s with data := d, point := update s.point p (.inr x') }
  | wakeup {p : ι} {x x' : X} {c : C} : s.lock = some p → s.point p = .inr x →
    M.next p s.data x = .wakeup c x' → Step M s (some p) { s with
      point := update s.point p (.inr x'), chan := fun q => (s.chan q).filter (· ≠ c) }
  | sleep {p : ι} {x x' : X} {c : C} : s.lock = some p → s.point p = .inr x →
    M.next p s.data x = .sleep c x' → Step M s (some p) { s with
      lock := none, point := update s.point p (.inr x'), chan := update s.chan p (some c) }
  | leave {p : ι} {x : X} {y : Y} : s.lock = some p → s.point p = .inr x →
    M.next p s.data x = .leave y →
    Step M s (some p) { s with lock := none, point := update s.point p (.inl y) }
  | rouse (p : ι) : Step M s (some p) { s with chan := update s.chan p none }
  | env {d : S} : M.env s.data d → Step M s none { s with data := d }

/-- At the start the lock is free, and every process is at `y`. -/
def system (M : Monitor ι S X Y C) (init : S → Prop) (y : Y) :
    LTS (State ι S X Y C) (Option ι) where
  init s := init s.data ∧ s.lock = none ∧ ∀ p, s.point p = .inl y ∧ s.chan p = none
  step := Step M

/-- `I` holds while the lock is free, and `A` of the process that has it. Sleep on a channel is
right while the data is `Idle`; otherwise a wakeup is owed. -/
structure Sound (M : Monitor ι S X Y C) (I : S → Prop) (A : S → X → Prop) (Idle : S → C → Prop)
    (Owes : X → C → Prop) : Prop where
  enter : ∀ {y x}, M.enter y x → ∀ d, I d → A d x
  go : ∀ {p d d' x x'}, M.next p d x = .go d' x' → A d x →
    A d' x' ∧ ∀ c, Idle d c ∨ Owes x c → Idle d' c ∨ Owes x' c
  wakeup : ∀ {p d x x' c}, M.next p d x = .wakeup c x' → A d x →
    A d x' ∧ ∀ c', Owes x c' → c' = c ∨ Owes x' c'
  sleep : ∀ {p d x x' c}, M.next p d x = .sleep c x' → A d x →
    I d ∧ (∀ d', I d' → A d' x') ∧ Idle d c ∧ ∀ c', ¬ Owes x c'
  leave : ∀ {p d x y}, M.next p d x = .leave y → A d x → I d ∧ ∀ c, ¬ Owes x c
  env : ∀ {d d'}, M.env d d' → (I d → I d') ∧ (∀ x, A d x → A d' x) ∧ ∀ c, Idle d c → Idle d' c

structure Inv (I : S → Prop) (A : S → X → Prop) (Idle : S → C → Prop) (Owes : X → C → Prop)
    (s : State ι S X Y C) : Prop where
  free : s.lock = none → I s.data
  holder : ∀ p, s.lock = some p → ∃ x, s.point p = .inr x ∧ A s.data x
  later : ∀ q x, s.lock ≠ some q → s.point q = .inr x → ∀ d, I d → A d x
  owed : ∀ q c, s.chan q = some c →
    Idle s.data c ∨ ∃ p x, s.lock = some p ∧ s.point p = .inr x ∧ Owes x c

variable {M : Monitor ι S X Y C} {I : S → Prop} {A : S → X → Prop} {Idle : S → C → Prop}
  {Owes : X → C → Prop} {s s' : State ι S X Y C} {a : Option ι}

/-- **One step** keeps the invariant, if the code does what `Sound` says. -/
theorem Inv.step (H : M.Sound I A Idle Owes) (h : Inv I A Idle Owes s) (hs : Step M s a s') :
    Inv I A Idle Owes s' := by
  obtain ⟨hfree, hholder, hlater, howed⟩ := h
  have hknows : ∀ p x, s.lock = some p → s.point p = .inr x → A s.data x := by grind
  cases hs with
  | enter hp he =>
    have hnew := H.enter he
    constructor <;> dsimp only <;> grind
  | acquire hp hc hl => constructor <;> dsimp only <;> grind
  | go hl hp hn =>
    have hnew := H.go hn (hknows _ _ hl hp)
    constructor <;> dsimp only <;> grind
  | wakeup hl hp hn =>
    -- nobody sleeps on the channel any more, so what was owed there is paid
    have hnew := H.wakeup hn (hknows _ _ hl hp)
    constructor <;> dsimp only <;> grind [Option.filter_eq_some_iff]
  | sleep hl hp hn =>
    have hnew := H.sleep hn (hknows _ _ hl hp)
    constructor <;> dsimp only <;> grind
  | leave hl hp hn =>
    have hnew := H.leave hn (hknows _ _ hl hp)
    constructor <;> dsimp only <;> grind
  | rouse p => constructor <;> dsimp only <;> grind
  | env he =>
    have hnew := H.env he
    constructor <;> dsimp only <;> grind

/-- **The monitor rule.** -/
theorem Sound.inv (H : M.Sound I A Idle Owes) {init : S → Prop} {y : Y} (hI : ∀ d, init d → I d)
    (hs : (M.system init y).Reachable s) : Inv I A Idle Owes s := by
  refine hs.invariant (fun s hinit => ?_) fun s a s' h hstep => h.step H hstep
  obtain ⟨hd, hlock, hpoint⟩ := hinit
  have hdata := hI _ hd
  constructor <;> grind

omit [DecidableEq ι] [DecidableEq C] in
/-- When the lock is free, every sleeper has a reason to sleep. -/
theorem Inv.idle (h : Inv I A Idle Owes s) (hlock : s.lock = none) {q : ι} {c : C}
    (hq : s.chan q = some c) : Idle s.data c := by
  rcases h.owed q c hq with hidle | ⟨p, x, hp, -⟩
  · exact hidle
  · cases hlock.symm.trans hp

end Monitor
