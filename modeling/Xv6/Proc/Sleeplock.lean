import Xv6.Lib.Monitor

/-!
# Sleep locks

`acquiresleep`, `releasesleep` and `holdingsleep` of `kernel/sleeplock.c`. The fields of a sleep
lock are guarded by a spin lock, and a process that finds the lock taken sleeps on it, in a loop,
since another process may take it first after the wakeup. The buffer cache and the inode table have
a sleep lock as one variable that names its holder; here is what such a variable stands for.
-/

namespace Xv6.Sleeplock

variable {ι : Type} [DecidableEq ι]

/-- `struct sleeplock`, without its spin lock. -/
structure Lock (ι : Type) where
  locked : Bool
  pid : Option ι

/-- The points of the functions at which the spin lock is held. -/
inductive Point
  /-- the test of the loop in `acquiresleep` -/
  | test
  | taken
  /-- the beginning of `releasesleep` -/
  | clear
  | wake
  | done
  /-- `holdingsleep`, by a process that has the lock or has not -/
  | ask (owns : Bool)

/-- A process outside: whether it has the lock, and the last answer of `holdingsleep`. -/
structure Outside where
  owns : Bool
  holding : Option Bool

/-- A process that has the lock may release it, one that has not may acquire it; both may ask. -/
def monitor : Monitor ι (Lock ι) Point Outside Unit where
  enter y x := x = (if y.owns then .clear else .test) ∨ x = .ask y.owns
  next p d
    | .test => if d.locked then .sleep () .test else .go ⟨true, some p⟩ .taken
    | .taken => .leave ⟨true, none⟩
    | .clear => .go ⟨false, none⟩ .wake
    | .wake => .wakeup () .done
    | .done => .leave ⟨false, none⟩
    | .ask owns => .leave ⟨owns, some (d.locked && d.pid = some p)⟩
  env _ _ := False

/-- `initsleeplock`. -/
def system (ι : Type) [DecidableEq ι] :
    LTS (Monitor.State ι (Lock ι) Point Outside Unit) (Option ι) :=
  monitor.system (· = ⟨false, none⟩) ⟨false, none⟩

/-- The process has the sleep lock at this point. -/
def owns : Outside ⊕ Point → Bool
  | .inl y => y.owns
  | .inr .taken | .inr .clear => true
  | .inr (.ask b) => b
  | _ => false

variable {s s' : Monitor.State ι (Lock ι) Point Outside Unit} {a : Option ι}

theorem sound : (monitor (ι := ι)).Sound (fun _ => True) (fun _ _ => True)
    (fun d _ => d.locked = true) fun x _ => x = .wake where
  enter _ _ _ := trivial
  go {p d d' x x'} h _ := by
    refine ⟨trivial, ?_⟩
    cases x <;> grind [monitor]
  wakeup _ _ := ⟨trivial, fun _ _ => .inl rfl⟩
  sleep {p d x x' c} h _ := by
    refine ⟨trivial, fun _ _ => trivial, ?_⟩
    cases x <;> grind [monitor]
  leave {p d x y} h _ := by
    refine ⟨trivial, ?_⟩
    cases x <;> grind [monitor]
  env := False.elim

/-- The field `pid` names the process that has the lock, and `holdingsleep` says so. -/
structure Owned (s : Monitor.State ι (Lock ι) Point Outside Unit) : Prop where
  owner : ∀ p, s.data.pid = some p ↔ owns (s.point p) = true
  locked : s.data.locked = s.data.pid.isSome
  answer : ∀ p y, s.point p = .inl y → ∀ r ∈ y.holding, r = y.owns

theorem Owned.step (h : Owned s) (hs : Monitor.Step monitor s a s') : Owned s' := by
  obtain ⟨howner, hlocked, hanswer⟩ := h
  cases hs with
  | @enter p y x hp he =>
    have howns : owns (.inr x) = y.owns := by
      rcases he with rfl | rfl
      · cases y.owns <;> rfl
      · rfl
    constructor <;> grind [owns]
  | acquire => exact ⟨howner, hlocked, hanswer⟩
  | @go p x x' d hl hp hn =>
    cases x <;> constructor <;> grind [monitor, owns]
  | @wakeup p x x' c hl hp hn =>
    cases x <;> constructor <;> grind [monitor, owns]
  | @sleep p x x' c hl hp hn =>
    cases x <;> constructor <;> grind [monitor, owns]
  | @leave p x y hl hp hn =>
    cases x <;> constructor <;> grind [monitor, owns]
  | rouse => exact ⟨howner, hlocked, hanswer⟩
  | env he => exact he.elim

/-- **A sleep lock is a lock.** In every interleaving at most one process has it, `holdingsleep`
tells a process whether it is that one, and no wakeup is lost: with the spin lock free, a process
sleeps only while the sleep lock is taken. -/
theorem sleeplock_exclusive (hs : (system ι).Reachable s) :
    (∀ p q, owns (s.point p) = true → owns (s.point q) = true → p = q) ∧
    (∀ p y, s.point p = .inl y → ∀ r ∈ y.holding, r = y.owns) ∧
    (s.lock = none → s.data.locked = false → ∀ p, s.chan p = none) := by
  have howned : Owned s := by
    refine hs.invariant (fun s hinit => ?_) fun s a s' h hstep => h.step hstep
    obtain ⟨hd, -, hpoint⟩ := hinit
    constructor <;> grind [owns]
  refine ⟨fun p q hp hq => ?_, howned.answer, fun hlock hfree p => ?_⟩
  · exact Option.some_inj.mp (((howned.owner p).mpr hp).symm.trans ((howned.owner q).mpr hq))
  · by_contra hne
    obtain ⟨c, hc⟩ := Option.ne_none_iff_exists'.mp hne
    have hidle := (sound.inv (fun _ _ => trivial) hs).idle hlock hc
    rw [hfree] at hidle
    cases hidle

theorem sleeplock_exclusive_two : ∃ s, (system (Fin 2)).Reachable s ∧ s.chan 1 = some () ∧
    ∀ q, owns (s.point q) = true → q = 0 := by
  let s0 : Monitor.State (Fin 2) (Lock (Fin 2)) Point Outside Unit :=
    ⟨⟨false, none⟩, none, fun _ => .inl ⟨false, none⟩, fun _ => none⟩
  have h0 : (system (Fin 2)).Reachable s0 := .init ⟨rfl, rfl, fun _ => ⟨rfl, rfl⟩⟩
  have h1 := (h0.step (.enter (p := 0) rfl (.inl rfl))).step (.acquire (p := 0) rfl rfl rfl)
  have h2 := (h1.step (.go (p := 0) (x := .test) rfl rfl rfl)).step
    (.leave (p := 0) (x := .taken) rfl rfl rfl)
  have h3 := (h2.step (.enter (p := 1) rfl (.inl rfl))).step (.acquire (p := 1) rfl rfl rfl)
  have h4 := h3.step (.sleep (p := 1) (x := .test) rfl rfl rfl)
  exact ⟨_, h4, rfl, fun q hq => (sleeplock_exclusive h4).1 q 0 hq rfl⟩

end Xv6.Sleeplock
