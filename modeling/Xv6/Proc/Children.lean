import Xv6.Proc.ExitWait

/-!
# Parents and children

What holds of the process table while processes fork, exit and wait. A child is given away, and a
child that exits is told, only by a process that holds `wait_lock`, and what the holder has found
out on the way through its call stays true while the others go on. So nobody sleeps in `wait` with a
child that has exited, except while the holder of the lock is still on its way to wake it.
-/

namespace Xv6.Life

open Sched (ProcState)

/-- The states of a process that has started and has not exited. -/
def Live (st : ProcState) : Prop := st = .sleeping ∨ st = .runnable ∨ st = .running

namespace Pc

variable {n : ℕ}

/-- The process holds `wait_lock`. -/
def Holds : Pc n → Prop
  | .exitReparent _ _ | .exitWakeInit _ _ _ | .exitWakeParent _ _ _ | .waitScan _ _ | .waitCheck
  | .waitSleep | .waitLeave => True
  | _ => False

/-- The process that `fork` is making. -/
def child : Pc n → Option (Fin n)
  | .forkMade np | .forkParented np => some np
  | _ => none

/-- The states a process can be in at a place. -/
def Fits (st : ProcState) : Pc n → Prop
  | .user | .forkMade _ | .forkParented _ | .waitAgain => st = .running ∨ st = .runnable
  | .asleep | .waitAsleep => st = .sleeping ∨ st = .runnable
  | .dead => st = .unused ∨ st = .used ∨ st = .zombie
  | _ => st = .running

/-- The process has still to wake the process `r`. -/
def Owes (init r : Fin n) : Pc n → Prop
  | .exitWakeInit _ _ j => r = init ∧ j ≤ r
  | _ => False

end Pc

namespace Family

variable {n : ℕ}

/-- The process sleeps in `wait`. -/
def Waits (s : Family n) (r : Fin n) : Prop := (s.proc r).state = .sleeping ∧ s.pc r = .waitAsleep

def NoZombie (s : Family n) (p : Fin n) : Prop :=
  ∀ q, (s.proc q).parent = some p → (s.proc q).state ≠ .zombie

/-- What the process `p`, which holds the lock, has found out or done on the way to a place. -/
def Fact (s : Family n) (init p : Fin n) : Pc n → Prop
  | .exitReparent _ k => p ≠ init ∧ ∀ q : Fin n, q < k → (s.proc q).parent ≠ some p
  | .exitWakeInit _ k _ => p ≠ init ∧ ∀ q : Fin n, q < k + 1 → (s.proc q).parent ≠ some p
  | .exitWakeParent _ parent j => p ≠ init ∧ (∀ q, (s.proc q).parent ≠ some p) ∧
    (∀ r, (s.proc p).parent = some r → parent = some r) ∧
    ∀ r : Fin n, r < j → parent = some r → ¬s.Waits r
  | .waitScan _ k =>
    ∀ q : Fin n, q < k → (s.proc q).parent = some p → (s.proc q).state ≠ .zombie
  | .waitCheck | .waitSleep => s.NoZombie p
  | _ => True

end Family

open Family

/-- Every process is where its state says, every child has a parent that has not exited, and a
process that `fork` is making belongs to that call. -/
structure Roles {n : ℕ} (init : Fin n) (s : Family n) : Prop where
  fits : ∀ p, (s.pc p).Fits (s.proc p).state
  chan : ∀ p, s.Waits p → (s.proc p).chan = some (.proc p)
  child : ∀ p np, (s.pc p).child = some np → (s.proc np).state = .used
  sole : ∀ p p' np, (s.pc p).child = some np → (s.pc p').child = some np → p = p'
  parented : ∀ p np, s.pc p = .forkParented np → (s.proc np).parent = some p
  unused : ∀ q, (s.proc q).state = .unused → (s.proc q).parent = none
  alive : ∀ q r, (s.proc q).parent = some r → Live (s.proc r).state
  parent : ∀ q, q ≠ init → Live (s.proc q).state ∨ (s.proc q).state = .zombie →
    (s.proc q).parent ≠ none
  first : Live (s.proc init).state

/-- **The invariant**: beside the roles, what the holder of the lock knows, and that a process that
sleeps in `wait` has no child that has exited or will be woken by the holder of the lock. -/
structure Kin {n : ℕ} (init : Fin n) (s : Family n) : Prop where
  roles : Roles init s
  holder : ∀ p, s.waitLock = some p ↔ (s.pc p).Holds
  fact : ∀ p, s.Fact init p (s.pc p)
  woken : ∀ r, s.Waits r → s.NoZombie r ∨ ∃ h, s.waitLock = some h ∧ (s.pc h).Owes init r

namespace Family

variable {n : ℕ} {init : Fin n} {s s' : Family n} {p : Fin n} {x : Pc n}

/-- Nobody has got a parent, become a zombie or gone to sleep in `wait`. -/
structure Calm (s s' : Family n) : Prop where
  parent : ∀ q r, (s'.proc q).parent = some r → (s.proc q).parent = some r
  zombie : ∀ q, (s'.proc q).state = .zombie → (s.proc q).state = .zombie
  waits : ∀ r, s'.Waits r → s.Waits r

theorem NoZombie.calm (h : s.NoZombie p) (hc : Calm s s') : s'.NoZombie p :=
  fun q hq hz => h q (hc.parent q p hq) (hc.zombie q hz)

theorem Fact.calm (h : s.Fact init p x) (hc : Calm s s') : s'.Fact init p x := by
  cases x with
  | exitReparent status k | exitWakeInit status k j =>
    exact ⟨h.1, fun q hq hp => h.2 q hq (hc.parent q p hp)⟩
  | exitWakeParent status parent j =>
    obtain ⟨hne, hnone, hparent, hwoken⟩ := h
    exact ⟨hne, fun q hq => hnone q (hc.parent q p hq), fun r hr => hparent r (hc.parent p r hr),
      fun r hr he hw => hwoken r hr he (hc.waits r hw)⟩
  | waitScan havekids k => exact fun q hq hp hz => h q hq (hc.parent q p hp) (hc.zombie q hz)
  | waitCheck | waitSleep => exact NoZombie.calm h hc
  | _ => trivial

theorem fact_of_not_holds (h : ¬x.Holds) : s.Fact init p x := by
  cases x <;> first | exact absurd trivial h | trivial

end Family

variable {n : ℕ} {r : Fin n} {x : Pc n}

theorem Pc.Fits.eq_dead {st : ProcState} (h : x.Fits st) (hst : ¬Live st) : x = .dead := by
  cases x <;> grind [Pc.Fits, Live]

theorem Pc.Holds.fits (h : x.Holds) : x.Fits .running := by
  cases x <;> first | rfl | exact h.elim

theorem Pc.Holds.child (h : x.Holds) : x.child = none := by
  cases x <;> first | rfl | exact h.elim

theorem Pc.Holds.ne_waitAsleep (h : x.Holds) : x ≠ .waitAsleep := by
  rintro rfl
  exact h

theorem Pc.Owes.holds {init : Fin n} (h : x.Owes init r) : x.Holds := by
  cases x <;> trivial

namespace Kin

variable {init : Fin n} {s s' : Family n} {p j k np : Fin n} {status : BitVec 32} {q : Proc n}

variable (h : Kin init s)

include h

theorem not_holds (hown : s.waitLock = none ∨ s.waitLock = some p) (hr : r ≠ p) :
    ¬(s.pc r).Holds := by
  intro hh
  have hlock := (h.holder r).mpr hh
  rcases hown with hown | hown
  · cases hlock.symm.trans hown
  · exact hr (Option.some.inj (hlock.symm.trans hown))

theorem fact_at (hpc : s.pc p = x) : s.Fact init p x := hpc ▸ h.fact p

theorem lock_at (hpc : s.pc p = x) (hx : x.Holds) :
    s.waitLock = some p := (h.holder p).mpr (hpc ▸ hx)

theorem running_at (hpc : s.pc p = x) (hx : x.Holds) : (s.proc p).state = .running := by
  have hfits : x.Fits (s.proc p).state := hpc ▸ h.roles.fits p
  cases x <;> first | exact hfits | exact hx.elim

theorem of_calm (hroles : Roles init s') (hcalm : s.Calm s') (hlock : s'.waitLock = s.waitLock)
    (hpc : ∀ r, (s.pc r).Holds → s'.pc r = s.pc r)
    (hnew : ∀ r, ¬(s.pc r).Holds → ¬(s'.pc r).Holds) : Kin init s' := by
  refine ⟨hroles, fun r => ?_, fun r => ?_, fun r hr => ?_⟩
  · rw [hlock, h.holder r]
    by_cases hr : (s.pc r).Holds
    · rw [hpc r hr]
    · exact iff_of_false hr (hnew r hr)
  · by_cases hr : (s.pc r).Holds
    · rw [hpc r hr]
      exact (h.fact r).calm hcalm
    · exact Family.fact_of_not_holds (hnew r hr)
  · refine (h.woken r (hcalm.waits r hr)).imp (·.calm hcalm) ?_
    rintro ⟨w, hw, howes⟩
    exact ⟨w, hlock.trans hw, by rwa [hpc w howes.holds]⟩

theorem of_owner (hroles : Roles init s') (hown : s.waitLock = none ∨ s.waitLock = some p)
    (hpc : ∀ r, r ≠ p → s'.pc r = s.pc r)
    (hlock : s'.waitLock = some p ∧ (s'.pc p).Holds ∨ s'.waitLock = none ∧ ¬(s'.pc p).Holds)
    (hfact : s'.Fact init p (s'.pc p))
    (hwoken : ∀ r, s'.Waits r → s'.NoZombie r ∨ s'.waitLock = some p ∧ (s'.pc p).Owes init r) :
    Kin init s' := by
  refine ⟨hroles, fun r => ?_, fun r => ?_, fun r hr => ?_⟩
  · by_cases hr : r = p
    · subst hr
      rcases hlock with ⟨hl, hx⟩ | ⟨hl, hx⟩
      · exact iff_of_true hl hx
      · exact iff_of_false (by simp [hl]) hx
    · rw [hpc r hr]
      refine iff_of_false (fun hc => hr ?_) (h.not_holds hown hr)
      rcases hlock with ⟨hl, -⟩ | ⟨hl, -⟩
      · exact Option.some.inj (hc.symm.trans hl)
      · cases hc.symm.trans hl
  · by_cases hr : r = p
    · exact hr ▸ hfact
    · rw [hpc r hr]
      exact Family.fact_of_not_holds (h.not_holds hown hr)
  · exact (hwoken r hr).imp_right fun ⟨hl, howes⟩ => ⟨p, hl, howes⟩

theorem noZombie_or_owes (hown : s.waitLock = none ∨ s.waitLock = some p) (hr : s.Waits r) :
    s.NoZombie r ∨ (s.pc p).Owes init r := by
  refine (h.woken r hr).imp_right ?_
  rintro ⟨w, hw, howes⟩
  by_cases hwp : w = p
  · exact hwp ▸ howes
  · exact absurd howes.holds (h.not_holds hown hwp)

/-! ## The steps -/

/-- A process that sleeps, runs or may run takes a step that nobody else can tell. -/
theorem quiet (hpar : q.parent = (s.proc j).parent) (hlive : Live (s.proc j).state)
    (hlive' : Live q.state) (hfits : x.Fits q.state)
    (hx : x = s.pc j ∨ ¬(s.pc j).Holds ∧ ¬x.Holds ∧ x.child = none ∧ (s.pc j).child = none)
    (hsleep : x = .waitAsleep → q.state = .sleeping → s.Waits j ∧ q.chan = (s.proc j).chan) :
    Kin init ((s.put j q).goto j x) := by
  have hroles : Roles init ((s.put j q).goto j x) := by
    have := h.roles
    constructor <;> grind [Roles, Family.Waits, Pc.child, Live]
  refine h.of_calm hroles ⟨?_, ?_, ?_⟩ rfl ?_ ?_
  · grind
  · grind [Live]
  · grind [Family.Waits]
  · grind
  · grind

theorem quiet_put (hpar : q.parent = (s.proc j).parent) (hlive : Live (s.proc j).state)
    (hlive' : Live q.state) (hfits : (s.pc j).Fits q.state) (hawake : q.state ≠ .sleeping) :
    Kin init (s.put j q) := by
  have hmove := h.quiet hpar hlive hlive' hfits (.inl rfl) fun _ hq => absurd hq hawake
  have hself : (s.put j q).goto j (s.pc j) = s.put j q := goto_self rfl
  rwa [hself] at hmove

/-- The process moves without changing the table, while no other holds the lock. -/
theorem move {o : Option (Fin n)} (hown : s.waitLock = none ∨ s.waitLock = some p)
    (hlock : o = some p ∧ x.Holds ∨ o = none ∧ ¬x.Holds) (hfits : x.Fits (s.proc p).state)
    (hasleep : x ≠ .waitAsleep) (hchild : (s.pc p).child = none ∧ x.child = none)
    (hfact : s.Fact init p x)
    (hwoken : ∀ r, s.Waits r → s.NoZombie r ∨ o = some p ∧ x.Owes init r) :
    Kin init ((s.setLock o).goto p x) := by
  have hroles : Roles init ((s.setLock o).goto p x) := by
    have := h.roles
    constructor <;> grind [Roles, Family.Waits, Pc.child]
  have hcalm : s.Calm ((s.setLock o).goto p x) := by
    constructor
    · grind
    · grind
    · grind [Family.Waits]
  have hpc : ((s.setLock o).goto p x).pc p = x := by simp
  refine h.of_owner hroles hown (fun r hr => by simp [hr]) (by rwa [hpc]) ?_ fun r hr => ?_
  · rw [hpc]
    exact hfact.calm hcalm
  · rw [hpc]
    exact (hwoken r (hcalm.waits r hr)).imp_left (·.calm hcalm)

theorem bury (hk : (s.proc k).state = .zombie ∨ (s.proc k).state = .unused) (hq : q.state = .unused)
    (hparent : q.parent = none) : Kin init (s.put k q) := by
  have hdead : s.pc k = .dead := (h.roles.fits k).eq_dead (by grind [Live])
  have hroles : Roles init (s.put k q) := by
    have := h.roles
    constructor <;> grind [Roles, Family.Waits, Pc.child, Pc.Fits, Live]
  refine h.of_calm hroles ⟨?_, ?_, ?_⟩ rfl (fun _ _ => rfl) fun _ => id
  · grind
  · grind
  · grind [Family.Waits]

theorem allocated : Kin init { s with nextpid := s.nextpid + 1, born := s.born + 1 } :=
  ⟨⟨h.roles.fits, h.roles.chan, h.roles.child, h.roles.sole, h.roles.parented, h.roles.unused,
    h.roles.alive, h.roles.parent, h.roles.first⟩, h.holder, h.fact, h.woken⟩

theorem forkMade (hp : (s.proc p).state = .running) (hpc : s.pc p = .user)
    (hnp : (s.proc np).state = .unused) (hq : q.state = .used) (hparent : q.parent = none) :
    Kin init ((s.put np q).goto p (.forkMade np)) := by
  have hdead : s.pc np = .dead := (h.roles.fits np).eq_dead (by grind [Live])
  have hroles : Roles init ((s.put np q).goto p (.forkMade np)) := by
    have := h.roles
    constructor <;> grind [Roles, Family.Waits, Pc.child, Pc.Fits, Live]
  refine h.of_calm hroles ⟨?_, ?_, ?_⟩ rfl ?_ ?_
  · grind
  · grind
  · grind [Family.Waits]
  · grind [Pc.Holds]
  · grind [Pc.Holds]

theorem forkParent (hp : (s.proc p).state = .running) (hpc : s.pc p = .forkMade np)
    (hfree : s.waitLock = none) :
    Kin init ((s.put np { s.proc np with parent := some p }).goto p (.forkParented np)) := by
  have hused : (s.proc np).state = .used := h.roles.child p np (by rw [hpc]; rfl)
  have hroles : Roles init
      ((s.put np { s.proc np with parent := some p }).goto p (.forkParented np)) := by
    have := h.roles
    constructor <;> grind [Roles, Family.Waits, Pc.child, Pc.Fits, Live]
  refine h.of_owner (p := p) hroles (.inl hfree) (fun r hr => by simp [hr])
    (.inr ⟨hfree, by simp [Pc.Holds]⟩) (Family.fact_of_not_holds (by simp [Pc.Holds]))
    fun r hr => .inl fun q hq => ?_
  -- the new process is not a zombie
  rcases h.noZombie_or_owes (p := p) (.inl hfree) (r := r)
    (by grind [Family.Waits]) with hno | howes
  · have := hno q
    grind
  · rw [hpc] at howes
    exact howes.elim

theorem forkRun (hp : (s.proc p).state = .running) (hpc : s.pc p = .forkParented np) :
    Kin init (((s.put np { s.proc np with state := .runnable }).goto np .user).goto p .user) := by
  have hused : (s.proc np).state = .used := h.roles.child p np (by rw [hpc]; rfl)
  have hparent := h.roles.parented p np hpc
  have hdead : s.pc np = .dead := (h.roles.fits np).eq_dead (by grind [Live])
  have hroles : Roles init
      (((s.put np { s.proc np with state := .runnable }).goto np .user).goto p .user) := by
    have := h.roles
    constructor <;> grind [Roles, Family.Waits, Pc.child, Pc.Fits, Live]
  refine h.of_calm hroles ⟨?_, ?_, ?_⟩ rfl ?_ ?_
  · grind
  · grind
  · grind [Family.Waits]
  · grind [Pc.Holds]
  · grind [Pc.Holds]

theorem reparent (hpc : s.pc p = .exitReparent status k) (hk : (s.proc k).parent = some p) :
    Kin init
      ((s.put k { s.proc k with parent := some init }).goto p (.exitWakeInit status k 0)) := by
  have hlock := h.lock_at hpc trivial
  obtain ⟨hne, hbefore⟩ := h.fact_at hpc
  have hroles : Roles init
      ((s.put k { s.proc k with parent := some init }).goto p (.exitWakeInit status k 0)) := by
    have := h.roles
    constructor <;> grind [Roles, Family.Waits, Pc.child, Pc.Fits, Live]
  refine h.of_owner hroles (.inr hlock) (fun r hr => by simp [hr])
    (.inl ⟨hlock, by simp [Pc.Holds]⟩) ?_ fun r hr => ?_
  · rw [goto_pc, if_pos rfl]
    refine ⟨hne, fun q hq => ?_⟩
    have := hbefore q
    grind
  · -- only `init` has got a child
    by_cases hinit : r = init
    · refine .inr ⟨hlock, ?_⟩
      rw [goto_pc, if_pos rfl]
      exact ⟨hinit, Nat.zero_le _⟩
    · rcases h.noZombie_or_owes (.inr hlock) (r := r) (by grind [Family.Waits]) with hno | howes
      · refine .inl fun q hq => ?_
        have := hno q
        grind
      · rw [hpc] at howes
        exact howes.elim

/-- The end of `exit`: nobody has the process as parent, and its own parent does not sleep. -/
theorem becomeZombie {parent : Option (Fin n)} {j : ℕ}
    (hpc : s.pc p = .exitWakeParent status parent j) (hj : n ≤ j) :
    Kin init (s.becomeZombie p status) := by
  have hlock := h.lock_at hpc trivial
  obtain ⟨hne, hnone, hparent, hwoken⟩ := h.fact_at hpc
  have hrunning := h.running_at hpc trivial
  unfold Family.becomeZombie
  refine h.of_owner ?_ (.inr hlock) (fun r hr => by simp [hr]) (.inr ⟨rfl, by simp [Pc.Holds]⟩)
    (Family.fact_of_not_holds (by simp [Pc.Holds])) fun r hr => .inl fun q hq => ?_
  · have := h.roles
    constructor <;> grind [Roles, Family.Waits, Pc.child, Pc.Fits, Live]
  · have hr' : s.Waits r := by grind [Family.Waits]
    by_cases hqp : q = p
    · subst hqp
      have := hwoken r (by omega)
      grind
    · rcases h.noZombie_or_owes (.inr hlock) hr' with hno | howes
      · have := hno q
        grind
      · rw [hpc] at howes
        exact howes.elim

theorem sleep (hpc : s.pc p = .waitSleep) :
    Kin init (((s.put p { s.proc p with state := .sleeping, chan := some (.proc p) }).setLock
      none).goto p .waitAsleep) := by
  have hlock := h.lock_at hpc trivial
  have hno : s.NoZombie p := h.fact_at hpc
  have hrunning := h.running_at hpc trivial
  refine h.of_owner ?_ (.inr hlock) (fun r hr => by simp [hr]) (.inr ⟨rfl, by simp [Pc.Holds]⟩)
    (Family.fact_of_not_holds (by simp [Pc.Holds])) fun r hr => .inl fun q hq => ?_
  · have := h.roles
    constructor <;> grind [Roles, Family.Waits, Pc.child, Pc.Fits, Live]
  · by_cases hrp : r = p
    · subst hrp
      have := hno q
      grind
    · rcases h.noZombie_or_owes (.inr hlock) (r := r) (by grind [Family.Waits]) with hno | howes
      · have := hno q
        grind
      · rw [hpc] at howes
        exact howes.elim

/-- A step that changes neither the state, the parent nor the channel of a process. -/
theorem same (hstate : q.state = (s.proc j).state) (hpar : q.parent = (s.proc j).parent)
    (hchan : q.chan = (s.proc j).chan) : Kin init (s.put j q) := by
  have hroles : Roles init (s.put j q) := by
    have := h.roles
    constructor <;> grind [Roles, Family.Waits]
  refine h.of_calm hroles ⟨?_, ?_, ?_⟩ rfl (fun _ _ => rfl) fun _ => id
  · grind
  · grind
  · grind [Family.Waits]

theorem rouse (hj : (s.proc j).state = .sleeping) (hq : q.state = .runnable)
    (hpar : q.parent = (s.proc j).parent) : Kin init (s.put j q) := by
  have hfits : (s.pc j).Fits q.state := by
    have := h.roles.fits j
    cases hx : s.pc j <;> grind [Pc.Fits]
  exact h.quiet_put hpar (.inl hj) (.inr (.inl hq)) hfits (by simp [hq])

theorem wakeOne (chan : Chan n) (j : Fin n) : Kin init (s.wakeOne chan j) := by
  unfold Family.wakeOne
  split_ifs with hj
  · exact h.rouse hj.1 rfl rfl
  · exact h

theorem killOne (pid : BitVec 32) (j : Fin n) : Kin init (s.killOne pid j) := by
  unfold Family.killOne
  split_ifs with hpid hj
  · exact h.rouse hj rfl rfl
  · exact h.same rfl rfl rfl
  · exact h

theorem dispatch (hp : (s.proc p).state = .runnable) (chan : Option (Chan n)) :
    Kin init ((s.put p { s.proc p with state := .running, chan := chan }).goto p
      (s.pc p).resume) := by
  have hfits := h.roles.fits p
  rw [hp] at hfits
  refine h.quiet rfl (.inr (.inl hp)) (.inr (.inr rfl)) ?_ ?_ ?_
  · cases hx : s.pc p <;> grind [Pc.Fits, Pc.resume]
  · cases hx : s.pc p <;> grind [Pc.Fits, Pc.resume, Pc.Holds, Pc.child]
  · grind

theorem yield (hp : (s.proc p).state = .running) (hlock : s.waitLock ≠ some p) :
    Kin init (s.put p { s.proc p with state := .runnable }) := by
  have hnot : ¬(s.pc p).Holds := fun hh => hlock ((h.holder p).mpr hh)
  have hfits : (s.pc p).Fits .runnable := by
    have := h.roles.fits p
    cases hx : s.pc p <;> grind [Pc.Fits, Pc.Holds]
  exact h.quiet_put rfl (.inr (.inr hp)) (.inr (.inl rfl)) hfits (by simp)

theorem acquire (hfree : s.waitLock = none) (hp : (s.proc p).state = .running)
    (hchild : (s.pc p).child = none) (hx : x.Holds) (hfact : s.Fact init p x) :
    Kin init ((s.setLock (some p)).goto p x) := by
  refine h.move (.inl hfree) (.inl ⟨rfl, hx⟩) (hp ▸ hx.fits) hx.ne_waitAsleep ⟨hchild, hx.child⟩
    hfact fun r hr => .inl ?_
  rcases h.woken r hr with hno | ⟨w, hw, -⟩
  · exact hno
  · cases hw.symm.trans hfree

theorem goto {y : Pc n} (hpc : s.pc p = y) (hy : y.Holds) (hx : x.Holds) (hfact : s.Fact init p x)
    (howes : ∀ r, s.Waits r → y.Owes init r → x.Owes init r) : Kin init (s.goto p x) := by
  have hlock := h.lock_at hpc hy
  have hfits : x.Fits (s.proc p).state := h.running_at hpc hy ▸ hx.fits
  have hmove := h.move (.inr hlock) (.inl ⟨rfl, hx⟩) hfits hx.ne_waitAsleep
    ⟨hpc ▸ hy.child, hx.child⟩ hfact fun r hr =>
      (h.noZombie_or_owes (.inr hlock) hr).imp_right fun ho => ⟨rfl, howes r hr (hpc ▸ ho)⟩
  have hself : s.setLock (some p) = s := by rw [setLock, ← hlock]
  rwa [hself] at hmove

theorem leave (hpc : s.pc p = .waitLeave) : Kin init ((s.setLock none).goto p .user) := by
  have hlock := h.lock_at hpc trivial
  refine h.move (.inr hlock) (.inr ⟨rfl, id⟩) (.inl (h.running_at hpc trivial)) (by simp)
    (by rw [hpc]; exact ⟨rfl, rfl⟩)
    trivial fun r hr => .inl ?_
  rcases h.noZombie_or_owes (.inr hlock) hr with hno | howes
  · exact hno
  · rw [hpc] at howes
    exact howes.elim

theorem not_waits_wakeOne (r : Fin n) : ¬(s.wakeOne (.proc r) r).Waits r := by
  intro hr
  have hchan := h.roles.chan r
  unfold Family.wakeOne at hr
  split_ifs at hr with hcond
  · simp [Family.Waits] at hr
  · exact hcond ⟨hr.1, hchan hr⟩

theorem skip (hpc : s.pc p = .exitReparent status k) (hk : (s.proc k).parent ≠ some p) :
    Kin init (s.goto p (.exitReparent status (k + 1))) := by
  obtain ⟨hne, hbefore⟩ := h.fact_at hpc
  refine h.goto hpc trivial trivial ⟨hne, fun q hq => ?_⟩ fun _ _ => id
  by_cases hqk : q = k
  · rwa [hqk]
  · exact hbefore q (by omega)

theorem wakeInit {k : ℕ} (hpc : s.pc p = .exitWakeInit status k j) :
    Kin init ((s.wakeOne (.proc init) j).goto p (.exitWakeInit status k (j + 1))) := by
  have h1 := h.wakeOne (.proc init) j
  have hpc1 : (s.wakeOne (.proc init) j).pc p = .exitWakeInit status k j := by simpa using hpc
  refine h1.goto hpc1 trivial trivial (h1.fact_at hpc1 :) fun r hr howes => ?_
  obtain ⟨rfl, hle⟩ := howes
  refine ⟨rfl, Nat.lt_of_le_of_ne hle fun hj => ?_⟩
  obtain rfl : j = r := Fin.ext hj
  exact h.not_waits_wakeOne j hr

theorem wakeParent (hpc : s.pc p = .exitWakeParent status (some r) j) :
    Kin init ((s.wakeOne (.proc r) j).goto p (.exitWakeParent status (some r) (j + 1))) := by
  have h1 := h.wakeOne (.proc r) j
  have hpc1 : (s.wakeOne (.proc r) j).pc p = .exitWakeParent status (some r) j := by
    simpa using hpc
  obtain ⟨hne, hnone, hparent, hwoken⟩ := h1.fact_at hpc1
  refine h1.goto hpc1 trivial trivial ⟨hne, hnone, hparent, fun r' hr' heq => ?_⟩ fun _ _ => id
  obtain rfl := Option.some.inj heq
  by_cases hj : r = j
  · exact hj ▸ h.not_waits_wakeOne r
  · exact hwoken r (by omega) rfl

/-- **The next step of a call.** -/
theorem next {ok : Bool} {e : Option (Event n)} (hp : (s.proc p).state = .running)
    (hs : s.Goes init p ok e s') : Kin init s' := by
  cases hs with
  | forkMade hpc hfree => exact h.forkParent hp hpc hfree
  | forkParented hpc => exact h.forkRun hp hpc
  | adopt hpc hchild => exact h.reparent hpc hchild
  | skip hpc hchild => exact h.skip hpc hchild
  | reparented hpc hpast =>
    obtain ⟨hne, hnone⟩ := h.fact_at hpc
    exact h.goto hpc trivial trivial ⟨hne, fun q => hnone q (by omega), fun _ => id,
      fun r hr => absurd hr (Nat.not_lt_zero _)⟩ fun _ _ => id
  | wakeInit hpc => exact h.wakeInit hpc
  | wokenInit hpc hpast =>
    refine h.goto hpc trivial trivial (h.fact_at hpc :) fun r _ howes => ?_
    have := howes.2
    omega
  | wakeParent hpc => exact h.wakeParent hpc
  | orphan hpc =>
    obtain ⟨hne, hnone, hparent, -⟩ := h.fact_at hpc
    exact h.goto hpc trivial trivial ⟨hne, hnone, hparent, fun r _ hr => by cases hr⟩ fun _ _ => id
  | zombie hpc hpast => exact h.becomeZombie hpc hpast
  | @reap _ k hpc _ hzombie =>
    have h1 := h.bury (.inl hzombie) (q := (s.proc k).free) rfl rfl
    exact h1.goto hpc trivial trivial trivial fun _ _ => id
  | giveUp hpc => exact h.goto hpc trivial trivial trivial fun _ _ => id
  | @pass havekids found k hpc halive =>
    refine h.goto hpc trivial trivial (fun q hq hparent => ?_) fun _ _ => id
    by_cases hqk : q = k
    · exact hqk ▸ halive (hqk ▸ hparent)
    · exact h.fact_at hpc q (by omega) hparent
  | scanned hpc hpast =>
    have hno : s.NoZombie p := fun q => h.fact_at hpc q (by omega)
    split_ifs
    · exact h.goto hpc trivial trivial hno fun _ _ => id
    · exact h.goto hpc trivial trivial trivial fun _ _ => id
  | check hpc =>
    split_ifs
    · exact h.goto hpc trivial trivial trivial fun _ _ => id
    · exact h.goto hpc trivial trivial (h.fact_at hpc :) fun _ _ => id
  | sleep hpc => exact h.sleep hpc
  | again hpc hfree =>
    exact h.acquire hfree hp (by rw [hpc]; rfl) trivial fun q hq => absurd hq (Nat.not_lt_zero _)
  | leave hpc => exact h.leave hpc

/-- **Every step** keeps the invariant. -/
theorem step {a : Act n} {e : Option (Event n)} (hs : s.step init a = some (e, s')) :
    Kin init s' := by
  cases step_does hs with
  | dispatch hp => exact h.dispatch hp _
  | yield hp hlock => exact h.yield hp hlock
  | sleep hp hpc =>
    exact h.quiet rfl (.inr (.inr hp)) (.inl rfl) (.inl rfl)
      (.inr (by rw [hpc]; exact ⟨id, id, rfl, rfl⟩)) (by simp)
  | wakeup chan j => exact h.wakeOne chan j
  | kill pid j => exact h.killOne pid j
  | setkilled => exact h.same rfl rfl rfl
  | fork hp hpc hnp => exact h.allocated.forkMade hp hpc hnp rfl (h.roles.unused _ hnp)
  | forkFails hnp => exact h.allocated.bury (.inr hnp) rfl rfl
  | exit hp hpc hne hfree =>
    exact h.acquire hfree hp (by rw [hpc]; rfl) trivial
      ⟨hne, fun q hq => absurd hq (Nat.not_lt_zero _)⟩
  | wait hp hpc hfree =>
    exact h.acquire hfree hp (by rw [hpc]; rfl) trivial fun q hq => absurd hq (Nat.not_lt_zero _)
  | next hp hgoes => exact h.next hp hgoes

omit h in
theorem userinit (init : Fin n) : Kin init (Family.first init) := by
  have hproc : ∀ p, p ≠ init → (Family.first init).proc p = .empty := fun p hp => by
    simp [Family.first, hp]
  have hpc : ∀ p, p ≠ init → (Family.first init).pc p = .dead := fun p hp => by
    simp [Family.first, hp]
  have hproc0 : (Family.first init).proc init = ⟨.runnable, none, 1, 0, none, false, 0⟩ := by
    simp [Family.first, Proc.empty]
  have hpc0 : (Family.first init).pc init = .user := by simp [Family.first]
  have hnot : ∀ p, ¬((Family.first init).pc p).Holds := by
    intro p
    by_cases hp : p = init
    · rw [hp, hpc0]
      exact id
    · rw [hpc p hp]
      exact id
  have hroles : Roles init (Family.first init) := by
    constructor <;> grind [Family.Waits, Pc.child, Pc.Fits, Live, Proc.empty]
  refine ⟨hroles, fun p => iff_of_false (fun hc => by cases hc) (hnot p),
    fun p => Family.fact_of_not_holds (hnot p), fun r hr => ?_⟩
  grind [Family.Waits]

end Kin

end Xv6.Life
