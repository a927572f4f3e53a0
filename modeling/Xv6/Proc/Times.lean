import Xv6.Proc.Children

/-!
# The times that `waitx` reports

`clockintr` advances `ticks` and then visits the slots one by one, each under its own lock, and
adds a tick to `rtime` of every process that it finds running. `allocproc` and `exit` read `ticks`
without its lock. Between two visits the other processors go on, with the steps of `Family`.

The times of a process are consistent if no clock interrupt that began before its creation finds it
running. One that does counts a tick that passed before: a child that is forked, dispatched and
visited within one interrupt and exits before the next has run for one tick in a life of none, and
its waiting time wraps. The ticks as natural numbers and the records are not in the source.
-/

namespace Xv6.Life

open Function

open Sched (ProcState)

inductive Move : ProcState → ProcState → Prop
  | same (st : ProcState) : Move st st
  | alloc : Move .unused .used
  | start : Move .used .runnable
  | run : Move .runnable .running
  | yield : Move .running .runnable
  | sleep : Move .running .sleeping
  | wake : Move .sleeping .runnable
  | exit : Move .running .zombie
  | reap : Move .zombie .unused

namespace Family

variable {n : ℕ} {init : Fin n} {s s' : Family n} {p : Fin n}

theorem put_move {j : Fin n} {q : Proc n} (h : Move (s.proc j).state q.state) (k : Fin n) :
    Move (s.proc k).state ((s.put j q).proc k).state := by
  rw [put_proc]
  split
  · rename_i hk
    rw [hk]
    exact h
  · exact .same _

theorem put_keep {j : Fin n} {q : Proc n} (h : q.state = (s.proc j).state) (k : Fin n) :
    Move (s.proc k).state ((s.put j q).proc k).state :=
  put_move (by rw [h]; exact .same _) k

theorem wakeOne_move (s : Family n) (chan : Chan n) (j k : Fin n) :
    Move (s.proc k).state ((s.wakeOne chan j).proc k).state := by
  unfold wakeOne
  split
  · rename_i hj
    exact put_move (by rw [hj.1]; exact .wake) k
  · exact .same _

theorem killOne_move (s : Family n) (pid : BitVec 32) (j k : Fin n) :
    Move (s.proc k).state ((s.killOne pid j).proc k).state := by
  unfold killOne
  split
  · refine put_move ?_ k
    dsimp only
    split
    · rename_i hj
      rw [hj]
      exact .wake
    · exact .same _
  · exact .same _

theorem next_move {ok : Bool} {e : Option (Event n)} (h : Kin init s)
    (hp : (s.proc p).state = .running) (hs : s.Goes init p ok e s') (k : Fin n) :
    Move (s.proc k).state (s'.proc k).state := by
  cases hs with
  | forkMade | adopt => exact put_keep (by rfl) k
  | forkParented hpc =>
    -- the process that `fork` is making is still its own
    have hused := h.roles.child p _ (by rw [hpc]; rfl)
    exact put_move (by rw [hused]; exact .start) k
  | wakeInit | wakeParent => exact wakeOne_move s _ _ k
  | zombie => exact put_move (by rw [hp]; exact .exit) k
  | reap _ _ hzombie => exact put_move (by rw [hzombie]; exact .reap) k
  | sleep => exact put_move (by rw [hp]; exact .sleep) k
  | _ => exact .same _

/-- **The states of a process** change as the diagram has it, in every step of the kernel. -/
theorem step_move {a : Act n} {e : Option (Event n)} (h : Kin init s)
    (hs : s.step init a = some (e, s')) (k : Fin n) :
    Move (s.proc k).state (s'.proc k).state := by
  cases step_does hs with
  | dispatch hp => exact put_move (by rw [hp]; exact .run) k
  | yield hp => exact put_move (by rw [hp]; exact .yield) k
  | sleep hp => exact put_move (by rw [hp]; exact .sleep) k
  | wakeup chan j => exact wakeOne_move s chan j k
  | kill pid j => exact killOne_move s pid j k
  | setkilled => exact put_keep (by rfl) k
  | fork _ _ hnp =>
    exact put_move (s := { s with nextpid := s.nextpid + 1, born := s.born + 1 })
      (by rw [hnp]; exact .alloc) k
  | forkFails hnp =>
    exact put_move (s := { s with nextpid := s.nextpid + 1, born := s.born + 1 })
      (by rw [hnp]; exact .same _) k
  | exit | wait => exact .same _
  | next hp hgoes => exact next_move h hp hgoes k

end Family

/-- The fields `rtime`, `ctime` and `etime` of a process. -/
structure Times where
  rtime : BitVec 32
  ctime : BitVec 32
  etime : BitVec 32

/-- The waiting time that `waitx` reports. -/
def Times.wtime (x : Times) : BitVec 32 := x.etime - x.ctime - x.rtime

/-- The times after a step of the kernel that takes the process from one state to another:
`allocproc` assigns them all, and `exit` assigns `etime`. -/
def Times.after (ticks : BitVec 32) (x : Times) : ProcState → ProcState → Times
  | .unused, .used => ⟨0, ticks, 0⟩
  | .running, .zombie => { x with etime := ticks }
  | _, _ => x

/-- The exact ticks of a process: when it was created, how many it has been found running in, and
when it exited. -/
structure Record where
  born : ℕ
  ran : ℕ
  ended : ℕ
  /-- A clock interrupt that began before the process was created has found it running. -/
  early : Bool

def Record.after (now : ℕ) (x : Record) : ProcState → ProcState → Record
  | .unused, .used => ⟨now, 0, 0, false⟩
  | .running, .zombie => { x with ended := now }
  | _, _ => x

structure Timed (n : ℕ) where
  family : Family n
  times : Fin n → Times
  ticks : BitVec 32
  /-- The slot that `clockintr` visits next, if it is in its loop. -/
  clock : Option ℕ
  now : ℕ
  record : Fin n → Record

/-- The steps: those of the kernel, and those of `clockintr`. -/
inductive TimedAct (n : ℕ)
  | kernel (a : Act n)
  /-- `ticks++`. -/
  | tick
  | visit
  | finish

namespace Timed

variable {n : ℕ}

/-- A step of the kernel after which the table is `f`. -/
def kernel (s : Timed n) (f : Family n) : Timed n :=
  { s with
    family := f
    times := fun k => (s.times k).after s.ticks (s.family.proc k).state (f.proc k).state
    record := fun k => (s.record k).after s.now (s.family.proc k).state (f.proc k).state }

/-- `ticks++`. -/
def tick (s : Timed n) : Timed n :=
  { s with ticks := s.ticks + 1, now := s.now + 1, clock := some 0 }

/-- The body of the loop of `clockintr`, at the slot `k`. -/
def visit (s : Timed n) (k : Fin n) : Timed n :=
  if (s.family.proc k).state = .running then
    { s with
      clock := some (k + 1)
      times := update s.times k { s.times k with rtime := (s.times k).rtime + 1 }
      record := update s.record k { s.record k with
        ran := (s.record k).ran + 1
        early := (s.record k).early || (s.record k).born = s.now } }
  else { s with clock := some (k + 1) }

/-- One step; the next interrupt comes after the end of the last one. -/
def step (init : Fin n) (s : Timed n) : TimedAct n → Option (Timed n)
  | .kernel a => (s.family.step init a).map fun r => s.kernel r.2
  | .tick => if s.clock = none then some s.tick else none
  | .visit =>
    match s.clock with
    | some k => if h : k < n then some (s.visit ⟨k, h⟩) else none
    | none => none
  | .finish => if s.clock = some n then some { s with clock := none } else none

/-- The state after `userinit`. -/
def first (init : Fin n) : Timed n := ⟨.first init, fun _ => ⟨0, 0, 0⟩, 0, none, 0,
  fun _ => ⟨0, 0, 0, false⟩⟩

end Timed

/-- The kernel with its clock, as a transition system. -/
def timed {n : ℕ} (init : Fin n) : LTS (Timed n) (TimedAct n) where
  init s := s = .first init
  step s a s' := s.step init a = some s'

/-- The interrupt in progress has still to visit the slot. -/
def Pending {n : ℕ} (clock : Option ℕ) (k : Fin n) : Prop := ∃ j, clock = some j ∧ j ≤ k

/-- The times of a slot that is in use are its record, and the ticks counted for it have passed
since its creation, but for one if it has been found running early. If the interrupt in progress has
still to visit the slot, there is room for one more tick, or the process is younger than the
interrupt. -/
structure Accurate (now : ℕ) (pending : Prop) (st : ProcState) (x : Times) (r : Record) : Prop where
  rtime : st ≠ .unused → x.rtime = .ofNat 32 r.ran
  ctime : st ≠ .unused → x.ctime = .ofNat 32 r.born
  born : st ≠ .unused → r.born ≤ now
  ran : st ≠ .unused → st ≠ .zombie → r.ran ≤ now - r.born + r.early.toNat
  room : st ≠ .unused → st ≠ .zombie → pending →
    r.ran + 1 ≤ now - r.born + r.early.toNat ∨ r.born = now ∧ r.ran = 0
  etime : st = .zombie → x.etime = .ofNat 32 r.ended
  ended : st = .zombie → r.born ≤ r.ended ∧ r.ended ≤ now
  total : st = .zombie → r.ran ≤ r.ended - r.born + r.early.toNat

namespace Accurate

variable {now : ℕ} {pending : Prop} {st st' : ProcState} {x : Times} {r : Record}

theorem kernel (h : Accurate now pending st x r) (hm : Move st st') :
    Accurate now pending st' (x.after (.ofNat 32 now) st st') (r.after now st st') := by
  cases hm with
  | same =>
    have htimes : x.after (.ofNat 32 now) st st = x := by cases st <;> rfl
    have hrecord : r.after now st st = r := by cases st <;> rfl
    rw [htimes, hrecord]
    exact h
  | alloc =>
    refine ⟨fun _ => rfl, fun _ => rfl, fun _ => le_rfl, fun _ _ => Nat.zero_le _,
      fun _ _ _ => .inr ⟨rfl, rfl⟩, ?_, ?_, ?_⟩
    all_goals
      intro hz
      cases hz
  | exit =>
    -- the ticks counted so far are within the life that ends
    have hlive : ProcState.running ≠ .unused ∧ ProcState.running ≠ .zombie := ⟨nofun, nofun⟩
    exact ⟨fun _ => h.rtime hlive.1, fun _ => h.ctime hlive.1, fun _ => h.born hlive.1,
      fun _ hz => absurd rfl hz, fun _ hz => absurd rfl hz, fun _ => rfl,
      fun _ => ⟨h.born hlive.1, le_rfl⟩, fun _ => h.ran hlive.1 hlive.2⟩
  | reap =>
    refine ⟨fun hu => absurd rfl hu, fun hu => absurd rfl hu, fun hu => absurd rfl hu,
      fun hu => absurd rfl hu, fun hu => absurd rfl hu, ?_, ?_, ?_⟩
    all_goals
      intro hz
      cases hz
  | _ =>
    -- the process stays in use, and its times stay
    refine ⟨fun _ => h.rtime nofun, fun _ => h.ctime nofun, fun _ => h.born nofun,
      fun _ _ => h.ran nofun nofun, fun _ _ => h.room nofun nofun, ?_, ?_, ?_⟩
    all_goals
      intro hz
      cases hz

theorem tick (h : Accurate now pending st x r) {pending' : Prop} :
    Accurate (now + 1) pending' st x r where
  rtime := h.rtime
  ctime := h.ctime
  born hu := (h.born hu).trans (Nat.le_succ now)
  ran hu hz := by
    have := h.ran hu hz
    omega
  room hu hz _ := by
    have hran := h.ran hu hz
    have hborn := h.born hu
    exact .inl (by omega)
  etime := h.etime
  ended hz := ⟨(h.ended hz).1, (h.ended hz).2.trans (Nat.le_succ now)⟩
  total := h.total

theorem weaken (h : Accurate now pending st x r) {pending' : Prop} (hp : pending' → pending) :
    Accurate now pending' st x r :=
  ⟨h.rtime, h.ctime, h.born, h.ran, fun hu hz hpend => h.room hu hz (hp hpend), h.etime, h.ended,
    h.total⟩

theorem visit (h : Accurate now pending .running x r) (hp : pending) :
    Accurate now False .running { x with rtime := x.rtime + 1 }
      { r with ran := r.ran + 1, early := r.early || r.born = now } := by
  have hran : r.ran + 1 ≤ now - r.born + (r.early || decide (r.born = now)).toNat := by
    rcases h.room nofun nofun hp with hroom | ⟨hborn, hzero⟩
    · cases hearly : r.early with
      | false =>
        rw [hearly] at hroom
        exact hroom.trans (Nat.add_le_add_left (Nat.zero_le _) _)
      | true =>
        rw [hearly] at hroom
        exact hroom
    · rw [hborn, hzero, decide_eq_true rfl, Bool.or_true]
      exact Nat.le_add_left _ _
  refine ⟨fun hu => ?_, h.ctime, h.born, fun _ _ => hran, fun _ _ => False.elim, ?_, ?_, ?_⟩
  · rw [h.rtime hu, BitVec.ofNat_add]
    rfl
  all_goals
    intro hz
    cases hz

end Accurate

structure TimesInv {n : ℕ} (init : Fin n) (s : Timed n) : Prop where
  kin : Kin init s.family
  ticks : s.ticks = .ofNat 32 s.now
  accurate : ∀ k, Accurate s.now (Pending s.clock k) (s.family.proc k).state (s.times k)
    (s.record k)

section Run

variable {n : ℕ} {init : Fin n} {s s' : Timed n}

/-- The clock has visited the slot `k`: it has still to visit those after it. -/
theorem pending_succ {k j : Fin n} (h : Pending (some (k + 1 : ℕ)) j) : k < j := by
  obtain ⟨m, hm, hle⟩ := h
  cases hm
  exact hle

theorem TimesInv.visit (h : TimesInv init s) {k : Fin n} (hclock : s.clock = some (k : ℕ)) :
    TimesInv init (s.visit k) := by
  have hpend : ∀ j : Fin n, Pending (some (k + 1 : ℕ)) j → Pending s.clock j := by
    intro j hj
    exact ⟨k, hclock, (pending_succ hj).le⟩
  unfold Timed.visit
  by_cases hrun : (s.family.proc k).state = .running
  · rw [if_pos hrun]
    refine ⟨h.kin, h.ticks, fun j => ?_⟩
    by_cases hj : j = k
    · subst hj
      have hacc := h.accurate j
      rw [hrun] at hacc
      dsimp only
      rw [update_self, update_self, hrun]
      exact (hacc.visit ⟨j, hclock, le_rfl⟩).weaken fun hp => absurd (pending_succ hp) (lt_irrefl j)
    · dsimp only
      rw [update_of_ne hj, update_of_ne hj]
      exact (h.accurate j).weaken (hpend j)
  · rw [if_neg hrun]
    exact ⟨h.kin, h.ticks, fun j => (h.accurate j).weaken (hpend j)⟩

theorem TimesInv.step {a : TimedAct n} (h : TimesInv init s) (hs : s.step init a = some s') :
    TimesInv init s' := by
  cases a with
  | kernel a =>
    obtain ⟨⟨e, f⟩, hf, hs⟩ := Option.map_eq_some_iff.mp hs
    cases hs
    refine ⟨h.kin.step hf, h.ticks, fun k => ?_⟩
    have hacc := (h.accurate k).kernel (Family.step_move h.kin hf k)
    rw [← h.ticks] at hacc
    exact hacc
  | tick =>
    rw [Timed.step, Option.ite_none_right_eq_some] at hs
    cases hs.2
    refine ⟨h.kin, ?_, fun k => (h.accurate k).tick⟩
    show s.ticks + 1 = .ofNat 32 (s.now + 1)
    rw [h.ticks, BitVec.ofNat_add]
    rfl
  | visit =>
    unfold Timed.step at hs
    cases hclock : s.clock with
    | none =>
      rw [hclock] at hs
      cases hs
    | some k =>
      rw [hclock] at hs
      by_cases hk : k < n
      · simp only [dif_pos hk, Option.some_inj] at hs
        cases hs
        exact h.visit (k := ⟨k, hk⟩) hclock
      · simp only [dif_neg hk] at hs
        cases hs
  | finish =>
    rw [Timed.step, Option.ite_none_right_eq_some] at hs
    cases hs.2
    refine ⟨h.kin, h.ticks, fun k => (h.accurate k).weaken ?_⟩
    rintro ⟨j, hj, -⟩
    cases hj

theorem timesInv_reachable (h : (timed init).Reachable s) : TimesInv init s := by
  refine h.invariant (P := TimesInv init) ?_ fun s a s' hs hstep => hs.step hstep
  rintro _ rfl
  refine ⟨.userinit init, rfl, fun k => ⟨fun _ => rfl, fun _ => rfl, fun _ => le_rfl,
    fun _ _ => Nat.zero_le _, fun _ _ => ?_, fun _ => rfl, fun _ => ⟨le_rfl, le_rfl⟩,
    fun _ => Nat.zero_le _⟩⟩
  rintro ⟨j, hj, -⟩
  cases hj

/-- **The reported times are consistent** for every child whose life in ticks fits an `uint` and
that no clock interrupt from before its creation has found running: its running time is at most the
time from its creation to its exit, and with the waiting time it makes up that time. -/
theorem times_consistent (h : (timed init).Reachable s) {k : Fin n}
    (hz : (s.family.proc k).state = .zombie) (hearly : (s.record k).early = false)
    (hfit : (s.record k).ended - (s.record k).born < 2 ^ 32) :
    (s.times k).rtime ≤ (s.times k).etime - (s.times k).ctime ∧
      (s.times k).rtime.toNat + (s.times k).wtime.toNat =
        (s.record k).ended - (s.record k).born := by
  have hacc := (timesInv_reachable h).accurate k
  have hlive : (s.family.proc k).state ≠ .unused := by simp [hz]
  obtain ⟨hborn, -⟩ := hacc.ended hz
  have htotal := hacc.total hz
  rw [hearly, Bool.toNat_false, Nat.add_zero] at htotal
  have hrtime : (s.times k).rtime.toNat = (s.record k).ran := by
    rw [hacc.rtime hlive, BitVec.toNat_ofNat, Nat.mod_eq_of_lt (by omega)]
  have hlife : ((s.times k).etime - (s.times k).ctime).toNat =
      (s.record k).ended - (s.record k).born := by
    rw [hacc.etime hz, hacc.ctime hlive, BitVec.toNat_sub, BitVec.toNat_ofNat, BitVec.toNat_ofNat]
    omega
  have hle : (s.times k).rtime ≤ (s.times k).etime - (s.times k).ctime := by
    rw [BitVec.le_def, hrtime, hlife]
    exact htotal
  refine ⟨hle, ?_⟩
  rw [Times.wtime, BitVec.toNat_sub_of_le hle, hrtime, hlife]
  omega

end Run

/-- The steps of `exit` by the process `p` of a table with `n` slots, of which none is its child. -/
def exitSteps (n : ℕ) (p : Fin n) : List (TimedAct n) :=
  .kernel (.exit p 0) :: List.replicate (2 * n + 2) (.kernel (.next p true))

/-- The first process forks a child, which is dispatched. -/
def forkSteps : List (TimedAct 64) :=
  [.kernel (.fork 0 1 true), .kernel (.next 0 true), .kernel (.next 0 true), .kernel (.dispatch 1)]

/-- The interrupt comes after the fork, and finds both processes running. -/
def lateRun : List (TimedAct 64) :=
  [.kernel (.dispatch 0)] ++ forkSteps ++ [.tick] ++ List.replicate 64 .visit ++ [.finish] ++
    exitSteps 64 1

theorem times_consistent_lateRun : ∃ s, LTS.runAll (Timed.step 0) (.first 0) lateRun = some s ∧
    (s.times 1).rtime ≤ (s.times 1).etime - (s.times 1).ctime ∧
    (s.times 1).rtime.toNat + (s.times 1).wtime.toNat = 1 := by
  have hrun : (LTS.runAll (Timed.step 0) (.first 0) lateRun).map (fun s => decide (
      (s.family.proc 1).state = .zombie ∧ (s.record 1).early = false ∧ (s.record 1).ended = 1 ∧
      (s.record 1).born = 0)) = some true := by
    decide +kernel
  obtain ⟨s, hs, hfacts⟩ := Option.map_eq_some_iff.mp hrun
  obtain ⟨hz, hearly, hended, hborn⟩ := of_decide_eq_true hfacts
  have hreach : (timed (0 : Fin 64)).Reachable s :=
    (LTS.Reachable.init (T := timed 0) rfl).runAll (fun _ _ _ h => h) hs
  obtain ⟨hle, hsum⟩ := times_consistent hreach hz hearly (by omega)
  rw [hended, hborn] at hsum
  exact ⟨s, hs, hle, hsum⟩

/-- The interrupt comes between the dispatch of the first process and the fork. -/
def earlyRun : List (TimedAct 64) :=
  [.kernel (.dispatch 0), .tick, .visit] ++ forkSteps ++ [.visit] ++ exitSteps 64 1 ++
    [.kernel (.wait 0), .kernel (.next 0 true)]

/-- **The reported times may be inconsistent.** A clock interrupt advances `ticks` and visits the
first slot; then a child is created in the second slot and dispatched, and the interrupt finds it
running. If it exits before the next tick, `waitx` reports that it has run for one tick and waited
for `2^32 - 1`. -/
theorem times_wrap : ∃ s s', (timed (0 : Fin 64)).Reachable s ∧
    s.step 0 (.kernel (.next 0 true)) = some s' ∧
    (s.family.proc 1).state = .zombie ∧ (s'.family.proc 1).state = .unused ∧
    (s.times 1).rtime = 1 ∧ (s.times 1).etime - (s.times 1).ctime = 0 ∧
    (s.times 1).wtime = 0xffffffff := by
  have hrun : ((LTS.runAll (Timed.step 0) (.first 0) earlyRun).bind fun s =>
      (s.step 0 (.kernel (.next 0 true))).map fun s' => decide (
        (s.family.proc 1).state = .zombie ∧ (s'.family.proc 1).state = .unused ∧
        (s.times 1).rtime = 1 ∧ (s.times 1).etime - (s.times 1).ctime = 0 ∧
        (s.times 1).wtime = 0xffffffff)) = some true := by
    decide +kernel
  obtain ⟨s, hs, hnext⟩ := Option.bind_eq_some_iff.mp hrun
  obtain ⟨s', hs', hfacts⟩ := Option.map_eq_some_iff.mp hnext
  have hreach : (timed (0 : Fin 64)).Reachable s :=
    (LTS.Reachable.init (T := timed 0) rfl).runAll (fun _ _ _ h => h) hs
  exact ⟨s, s', hreach, hs', of_decide_eq_true hfacts⟩

end Xv6.Life
