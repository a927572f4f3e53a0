import Xv6.Lib.Transition
import Xv6.Sched.Table

/-!
# Exit, wait and the parents of processes

`fork`, `exit`, `reparent`, `wait`, `waitx`, `sleep`, `wakeup` and `kill` of `kernel/proc.c`, by
any number of processes at once. A step is one critical section of a process lock, or one action of
the process that holds `wait_lock`; the sections of others come between any two steps. A process
takes steps while it is `RUNNING`, and may be preempted between them, unless it holds `wait_lock`
and so runs with interrupts off.

`wait` and `waitx` take the same steps; memory is left out, and the step says whether `copyout` of
the status succeeds and whether `fork` finds memory. `birth` and `born` are not in the source: they
number the processes in the order of their creation, to tell apart those that use one slot.
-/

namespace Xv6.Life

open Function Option

open Sched (ProcState)

/-- What a process sleeps on: a process, in `wait`, or something else. -/
inductive Chan (n : ℕ)
  | proc (p : Fin n)
  | other (addr : ℕ)
deriving DecidableEq

/-- `struct proc`, as far as the functions below use it. -/
structure Proc (n : ℕ) where
  state : ProcState
  parent : Option (Fin n)
  pid : BitVec 32
  xstate : BitVec 32
  chan : Option (Chan n)
  killed : Bool
  birth : ℕ

inductive Pc (n : ℕ)
  | user
  /-- In `sleep`, called from elsewhere. -/
  | asleep
  /-- In `fork`, with the new process `np` allocated. -/
  | forkMade (np : Fin n)
  /-- In `fork`, with the parent of the new process set. -/
  | forkParented (np : Fin n)
  /-- In the loop of `reparent`, at the process `k`. -/
  | exitReparent (status : BitVec 32) (k : ℕ)
  /-- In `reparent` at the process `k`, in the loop of `wakeup(initproc)` at the process `j`. -/
  | exitWakeInit (status : BitVec 32) (k j : ℕ)
  /-- In the loop of `wakeup(p->parent)`, at the process `j`. -/
  | exitWakeParent (status : BitVec 32) (parent : Option (Fin n)) (j : ℕ)
  /-- In the loop of `wait`, at the process `k`. -/
  | waitScan (havekids : Bool) (k : ℕ)
  /-- In `wait` after the loop, with children but none that has exited. -/
  | waitCheck
  /-- In `wait`, about to call `sleep`. -/
  | waitSleep
  /-- In `sleep`, called from `wait`. -/
  | waitAsleep
  /-- In `sleep`, called from `wait`, about to take the lock again. -/
  | waitAgain
  /-- In `wait`, about to release the lock and return. -/
  | waitLeave
  | dead
deriving DecidableEq

/-- The process table, where each process is, and the lock. -/
structure Family (n : ℕ) where
  proc : Fin n → Proc n
  pc : Fin n → Pc n
  waitLock : Option (Fin n)
  nextpid : BitVec 32
  born : ℕ

def Proc.empty {n : ℕ} : Proc n := ⟨.unused, none, 0, 0, none, false, 0⟩

/-- `freeproc`. -/
@[simps]
def Proc.free {n : ℕ} (q : Proc n) : Proc n :=
  { q with state := .unused, parent := none, pid := 0, xstate := 0, chan := none, killed := false }

/-- Where a process goes on that the scheduler has chosen. -/
def Pc.resume {n : ℕ} : Pc n → Pc n
  | .asleep => .user
  | .waitAsleep => .waitAgain
  | pc => pc

inductive Act (n : ℕ)
  | dispatch (p : Fin n)
  | yield (p : Fin n)
  | sleep (p : Fin n) (addr : ℕ)
  /-- The body of the loop of `wakeup(chan)` at the process `j`, in any process or interrupt. -/
  | wakeup (chan : Chan n) (j : Fin n)
  /-- The body of the loop of `kill(pid)` at the process `j`. -/
  | kill (pid : BitVec 32) (j : Fin n)
  | setkilled (p : Fin n)
  /-- `fork` up to the first release of the lock of the new process `np`. -/
  | fork (p np : Fin n) (ok : Bool)
  | exit (p : Fin n) (status : BitVec 32)
  | wait (p : Fin n)
  /-- The next step of the call that the process is in; `ok` is the result of `copyout`. -/
  | next (p : Fin n) (ok : Bool)
deriving DecidableEq

inductive Event (n : ℕ)
  /-- The process with this number calls `exit`. -/
  | exiting (birth : ℕ) (status : BitVec 32)
  | exited (birth : ℕ) (pid status : BitVec 32)
  /-- `wait` finds that process, for the process `p`. -/
  | returned (p : Fin n) (birth : ℕ) (pid status : BitVec 32)
deriving DecidableEq

namespace Family

variable {n : ℕ}

/-- The slot `p` is assigned. -/
def put (s : Family n) (p : Fin n) (q : Proc n) : Family n := { s with proc := update s.proc p q }

/-- The process `p` goes to `x`. -/
def goto (s : Family n) (p : Fin n) (x : Pc n) : Family n := { s with pc := update s.pc p x }

def setLock (s : Family n) (o : Option (Fin n)) : Family n := { s with waitLock := o }

section Fields

variable (s : Family n) (p : Fin n) (q : Proc n) (x : Pc n) (o : Option (Fin n))

@[simp, grind =] theorem put_proc (r : Fin n) :
    (s.put p q).proc r = if r = p then q else s.proc r :=
  update_apply ..

@[simp, grind =] theorem put_pc (r : Fin n) : (s.put p q).pc r = s.pc r := rfl

@[simp, grind =] theorem goto_proc (r : Fin n) : (s.goto p x).proc r = s.proc r := rfl

@[simp, grind =] theorem goto_pc (r : Fin n) : (s.goto p x).pc r = if r = p then x else s.pc r :=
  update_apply ..

@[simp, grind =] theorem setLock_proc (r : Fin n) : (s.setLock o).proc r = s.proc r := rfl

@[simp, grind =] theorem setLock_pc (r : Fin n) : (s.setLock o).pc r = s.pc r := rfl

theorem goto_self {s : Family n} {p : Fin n} {x : Pc n} (h : s.pc p = x) : s.goto p x = s := by
  rw [goto, ← h, update_eq_self]

end Fields

/-- The body of the loop of `wakeup`. -/
def wakeOne (s : Family n) (chan : Chan n) (j : Fin n) : Family n :=
  if (s.proc j).state = .sleeping ∧ (s.proc j).chan = some chan then
    s.put j { s.proc j with state := .runnable }
  else s

@[simp] theorem wakeOne_pc (s : Family n) (chan : Chan n) (j r : Fin n) :
    (s.wakeOne chan j).pc r = s.pc r := by
  unfold wakeOne
  split_ifs <;> rfl

/-- The body of the loop of `kill`. -/
def killOne (s : Family n) (pid : BitVec 32) (j : Fin n) : Family n :=
  if (s.proc j).pid = pid then
    s.put j { s.proc j with
      killed := true
      state := if (s.proc j).state = .sleeping then .runnable else (s.proc j).state }
  else s

/-- The scheduler chooses a process; one that has slept leaves `sleep`. -/
def dispatch (s : Family n) (p : Fin n) : Option (Family n) :=
  if (s.proc p).state = .runnable then
    let chan := if (s.pc p).resume = s.pc p then (s.proc p).chan else none
    some ((s.put p { s.proc p with state := .running, chan := chan }).goto p (s.pc p).resume)
  else none

/-- `yield`, from the timer interrupt; the holder of a lock runs with interrupts off. -/
def yield (s : Family n) (p : Fin n) : Option (Family n) :=
  if (s.proc p).state = .running ∧ s.waitLock ≠ some p then
    some (s.put p { s.proc p with state := .runnable })
  else none

/-- `sleep`, called from elsewhere. -/
def sleep (s : Family n) (p : Fin n) (addr : ℕ) : Option (Family n) :=
  if (s.proc p).state = .running ∧ s.pc p = .user then
    some ((s.put p { s.proc p with state := .sleeping, chan := some (.other addr) }).goto p .asleep)
  else none

/-- The process that `allocproc` makes of a free slot. -/
@[simps]
def newborn (s : Family n) (np : Fin n) : Proc n :=
  { s.proc np with state := .used, pid := s.nextpid, birth := s.born }

/-- The first part of `fork`: `allocproc` and the copies. If they fail the slot is freed again. -/
def fork (s : Family n) (p np : Fin n) (ok : Bool) : Option (Family n) :=
  if (s.proc p).state = .running ∧ s.pc p = .user ∧ (s.proc np).state = .unused then
    let s' := { s with nextpid := s.nextpid + 1, born := s.born + 1 }
    if ok then some ((s'.put np (s.newborn np)).goto p (.forkMade np))
    else some (s'.put np (s.newborn np).free)
  else none

/-- The process takes `wait_lock` and goes to `x`. -/
def acquire (s : Family n) (p : Fin n) (x : Pc n) : Option (Family n) :=
  if s.waitLock = none then some ((s.setLock (some p)).goto p x) else none

/-- The body of the loop of `reparent`. -/
def reparentOne (s : Family n) (init p : Fin n) (status : BitVec 32) (k : Fin n) : Family n :=
  if (s.proc k).parent = some p then
    (s.put k { s.proc k with parent := some init }).goto p (.exitWakeInit status k 0)
  else s.goto p (.exitReparent status (k + 1))

/-- The end of `exit`. -/
def becomeZombie (s : Family n) (p : Fin n) (status : BitVec 32) : Family n :=
  ((s.put p { s.proc p with state := .zombie, xstate := status }).setLock none).goto p .dead

/-- The body of the loop of `wait`. -/
def scanOne (s : Family n) (p : Fin n) (havekids : Bool) (k : Fin n) (ok : Bool) :
    Option (Event n) × Family n :=
  if (s.proc k).parent = some p then
    if (s.proc k).state = .zombie then
      if ok then
        (some (.returned p (s.proc k).birth (s.proc k).pid (s.proc k).xstate),
          (s.put k (s.proc k).free).goto p .waitLeave)
      else (none, s.goto p .waitLeave)
    else (none, s.goto p (.waitScan true (k + 1)))
  else (none, s.goto p (.waitScan havekids (k + 1)))

/-- The next step of the call that the process `p` is in. -/
def next (init : Fin n) (s : Family n) (p : Fin n) (ok : Bool) :
    Option (Option (Event n) × Family n) :=
  match s.pc p with
  | .user | .asleep | .waitAsleep | .dead => none
  | .forkMade np =>
    if s.waitLock = none then
      some (none, (s.put np { s.proc np with parent := some p }).goto p (.forkParented np))
    else none
  | .forkParented np =>
    some (none, ((s.put np { s.proc np with state := .runnable }).goto np .user).goto p .user)
  | .exitReparent status k =>
    if hk : k < n then some (none, s.reparentOne init p status ⟨k, hk⟩)
    else some (none, s.goto p (.exitWakeParent status (s.proc p).parent 0))
  | .exitWakeInit status k j =>
    if hj : j < n then
      some (none, (s.wakeOne (.proc init) ⟨j, hj⟩).goto p (.exitWakeInit status k (j + 1)))
    else some (none, s.goto p (.exitReparent status (k + 1)))
  | .exitWakeParent status parent j =>
    if hj : j < n then
      let s' := match parent with
        | some r => s.wakeOne (.proc r) ⟨j, hj⟩
        | none => s
      some (none, s'.goto p (.exitWakeParent status parent (j + 1)))
    else
      some (some (.exited (s.proc p).birth (s.proc p).pid status), s.becomeZombie p status)
  | .waitScan havekids k =>
    if hk : k < n then some (s.scanOne p havekids ⟨k, hk⟩ ok)
    else some (none, s.goto p (if havekids then .waitCheck else .waitLeave))
  | .waitCheck => some (none, s.goto p (if (s.proc p).killed then .waitLeave else .waitSleep))
  | .waitSleep =>
    some (none, ((s.put p { s.proc p with state := .sleeping, chan := some (.proc p) }).setLock
      none).goto p .waitAsleep)
  | .waitAgain => (s.acquire p (.waitScan false 0)).map (none, ·)
  | .waitLeave => some (none, (s.setLock none).goto p .user)

/-- One step; `init` is `initproc`, which does not exit. -/
def step (init : Fin n) (s : Family n) : Act n → Option (Option (Event n) × Family n)
  | .dispatch p => (s.dispatch p).map (none, ·)
  | .yield p => (s.yield p).map (none, ·)
  | .sleep p addr => (s.sleep p addr).map (none, ·)
  | .wakeup chan j => some (none, s.wakeOne chan j)
  | .kill pid j => some (none, s.killOne pid j)
  | .setkilled p =>
    if (s.proc p).state = .running then some (none, s.put p { s.proc p with killed := true })
    else none
  | .fork p np ok => (s.fork p np ok).map (none, ·)
  | .exit p status =>
    if (s.proc p).state = .running ∧ s.pc p = .user ∧ p ≠ init then
      (s.acquire p (.exitReparent status 0)).map (some (.exiting (s.proc p).birth status), ·)
    else none
  | .wait p =>
    if (s.proc p).state = .running ∧ s.pc p = .user then
      (s.acquire p (.waitScan false 0)).map (none, ·)
    else none
  | .next p ok => if (s.proc p).state = .running then s.next init p ok else none

/-- The branches of `Family.next`. -/
inductive Goes (init : Fin n) (s : Family n) (p : Fin n) (ok : Bool) :
    Option (Event n) → Family n → Prop
  | forkMade {np} (pc : s.pc p = .forkMade np) (free : s.waitLock = none) :
    Goes init s p ok none ((s.put np { s.proc np with parent := some p }).goto p (.forkParented np))
  | forkParented {np} (pc : s.pc p = .forkParented np) :
    Goes init s p ok none
      (((s.put np { s.proc np with state := .runnable }).goto np .user).goto p .user)
  | adopt {status} {k : Fin n} (pc : s.pc p = .exitReparent status k)
    (child : (s.proc k).parent = some p) :
    Goes init s p ok none
      ((s.put k { s.proc k with parent := some init }).goto p (.exitWakeInit status k 0))
  | skip {status} {k : Fin n} (pc : s.pc p = .exitReparent status k)
    (child : (s.proc k).parent ≠ some p) :
    Goes init s p ok none (s.goto p (.exitReparent status (k + 1)))
  | reparented {status k} (pc : s.pc p = .exitReparent status k) (past : n ≤ k) :
    Goes init s p ok none (s.goto p (.exitWakeParent status (s.proc p).parent 0))
  | wakeInit {status k} {j : Fin n} (pc : s.pc p = .exitWakeInit status k j) :
    Goes init s p ok none ((s.wakeOne (.proc init) j).goto p (.exitWakeInit status k (j + 1)))
  | wokenInit {status k j} (pc : s.pc p = .exitWakeInit status k j) (past : n ≤ j) :
    Goes init s p ok none (s.goto p (.exitReparent status (k + 1)))
  | wakeParent {status r} {j : Fin n} (pc : s.pc p = .exitWakeParent status (some r) j) :
    Goes init s p ok none ((s.wakeOne (.proc r) j).goto p (.exitWakeParent status (some r) (j + 1)))
  | orphan {status} {j : Fin n} (pc : s.pc p = .exitWakeParent status none j) :
    Goes init s p ok none (s.goto p (.exitWakeParent status none (j + 1)))
  | zombie {status parent j} (pc : s.pc p = .exitWakeParent status parent j) (past : n ≤ j) :
    Goes init s p ok (some (.exited (s.proc p).birth (s.proc p).pid status))
      (s.becomeZombie p status)
  | reap {havekids} {k : Fin n} (pc : s.pc p = .waitScan havekids k)
    (child : (s.proc k).parent = some p) (zombie : (s.proc k).state = .zombie) :
    Goes init s p ok (some (.returned p (s.proc k).birth (s.proc k).pid (s.proc k).xstate))
      ((s.put k (s.proc k).free).goto p .waitLeave)
  /-- `copyout` fails. -/
  | giveUp {havekids k} (pc : s.pc p = .waitScan havekids k) :
    Goes init s p ok none (s.goto p .waitLeave)
  | pass {havekids} (found : Bool) {k : Fin n} (pc : s.pc p = .waitScan havekids k)
    (alive : (s.proc k).parent = some p → (s.proc k).state ≠ .zombie) :
    Goes init s p ok none (s.goto p (.waitScan found (k + 1)))
  | scanned {havekids k} (pc : s.pc p = .waitScan havekids k) (past : n ≤ k) :
    Goes init s p ok none (s.goto p (if havekids then .waitCheck else .waitLeave))
  | check (pc : s.pc p = .waitCheck) :
    Goes init s p ok none (s.goto p (if (s.proc p).killed then .waitLeave else .waitSleep))
  | sleep (pc : s.pc p = .waitSleep) :
    Goes init s p ok none (((s.put p
      { s.proc p with state := .sleeping, chan := some (.proc p) }).setLock none).goto p
        .waitAsleep)
  | again (pc : s.pc p = .waitAgain) (free : s.waitLock = none) :
    Goes init s p ok none ((s.setLock (some p)).goto p (.waitScan false 0))
  | leave (pc : s.pc p = .waitLeave) : Goes init s p ok none ((s.setLock none).goto p .user)

/-- The branches of `Family.step`. -/
inductive Does (init : Fin n) (s : Family n) : Act n → Option (Event n) → Family n → Prop
  | dispatch {p} (runnable : (s.proc p).state = .runnable) :
    Does init s (.dispatch p) none ((s.put p
      { s.proc p with
        state := .running
        chan := if (s.pc p).resume = s.pc p then (s.proc p).chan else none }).goto p
          (s.pc p).resume)
  | yield {p} (running : (s.proc p).state = .running) (lock : s.waitLock ≠ some p) :
    Does init s (.yield p) none (s.put p { s.proc p with state := .runnable })
  | sleep {p addr} (running : (s.proc p).state = .running) (pc : s.pc p = .user) :
    Does init s (.sleep p addr) none ((s.put p
      { s.proc p with state := .sleeping, chan := some (.other addr) }).goto p .asleep)
  | wakeup (chan j) : Does init s (.wakeup chan j) none (s.wakeOne chan j)
  | kill (pid j) : Does init s (.kill pid j) none (s.killOne pid j)
  | setkilled {p} (running : (s.proc p).state = .running) :
    Does init s (.setkilled p) none (s.put p { s.proc p with killed := true })
  | fork {p np} (running : (s.proc p).state = .running) (pc : s.pc p = .user)
    (unused : (s.proc np).state = .unused) :
    Does init s (.fork p np true) none
      (({ s with nextpid := s.nextpid + 1, born := s.born + 1 }.put np (s.newborn np)).goto p
        (.forkMade np))
  | forkFails {p np} (unused : (s.proc np).state = .unused) :
    Does init s (.fork p np false) none
      ({ s with nextpid := s.nextpid + 1, born := s.born + 1 }.put np (s.newborn np).free)
  | exit {p status} (running : (s.proc p).state = .running) (pc : s.pc p = .user) (ne : p ≠ init)
    (free : s.waitLock = none) :
    Does init s (.exit p status) (some (.exiting (s.proc p).birth status))
      ((s.setLock (some p)).goto p (.exitReparent status 0))
  | wait {p} (running : (s.proc p).state = .running) (pc : s.pc p = .user)
    (free : s.waitLock = none) :
    Does init s (.wait p) none ((s.setLock (some p)).goto p (.waitScan false 0))
  | next {p ok e s'} (running : (s.proc p).state = .running) (goes : Goes init s p ok e s') :
    Does init s (.next p ok) e s'

theorem next_goes {init : Fin n} {s s' : Family n} {p : Fin n} {ok : Bool} {e : Option (Event n)}
    (hs : s.next init p ok = some (e, s')) : Goes init s p ok e s' := by
  unfold next at hs
  cases hpc : s.pc p with
  | user | asleep | waitAsleep | dead =>
    rw [hpc] at hs
    cases hs
  | forkMade np =>
    simp only [hpc, ite_none_right_eq_some, some_inj] at hs
    cases hs.2
    exact .forkMade hpc hs.1
  | forkParented np =>
    simp only [hpc, some_inj] at hs
    cases hs
    exact .forkParented hpc
  | exitReparent status k =>
    rw [hpc] at hs
    by_cases hk : k < n
    · simp only [dif_pos hk, some_inj, reparentOne] at hs
      split_ifs at hs with hchild
      · cases hs
        exact .adopt hpc hchild
      · cases hs
        exact .skip hpc hchild
    · simp only [dif_neg hk, some_inj] at hs
      cases hs
      exact .reparented hpc (by omega)
  | exitWakeInit status k j =>
    rw [hpc] at hs
    by_cases hj : j < n
    · simp only [dif_pos hj, some_inj] at hs
      cases hs
      exact .wakeInit hpc
    · simp only [dif_neg hj, some_inj] at hs
      cases hs
      exact .wokenInit hpc (by omega)
  | exitWakeParent status parent j =>
    rw [hpc] at hs
    by_cases hj : j < n
    · simp only [dif_pos hj, some_inj] at hs
      cases hs
      cases parent with
      | some r => exact .wakeParent hpc
      | none => exact .orphan (j := ⟨j, hj⟩) hpc
    · simp only [dif_neg hj, some_inj] at hs
      cases hs
      exact .zombie hpc (by omega)
  | waitScan havekids k =>
    rw [hpc] at hs
    by_cases hk : k < n
    · simp only [dif_pos hk, some_inj, scanOne] at hs
      split_ifs at hs with hchild hzombie hok
      · cases hs
        exact .reap hpc hchild hzombie
      · cases hs
        exact .giveUp hpc
      · cases hs
        exact .pass true hpc fun _ => hzombie
      · cases hs
        exact .pass havekids hpc fun h => absurd h hchild
    · simp only [dif_neg hk, some_inj] at hs
      cases hs
      exact .scanned hpc (by omega)
  | waitCheck =>
    simp only [hpc, some_inj] at hs
    cases hs
    exact .check hpc
  | waitSleep =>
    simp only [hpc, some_inj] at hs
    cases hs
    exact .sleep hpc
  | waitAgain =>
    simp only [hpc, acquire, map_eq_some_iff, ite_none_right_eq_some] at hs
    obtain ⟨s1, ⟨hfree, hs1⟩, hs⟩ := hs
    cases hs1
    cases hs
    exact .again hpc hfree
  | waitLeave =>
    simp only [hpc, some_inj] at hs
    cases hs
    exact .leave hpc

/-- **Every step** is one of the branches. -/
theorem step_does {init : Fin n} {s s' : Family n} {a : Act n} {e : Option (Event n)}
    (hs : s.step init a = some (e, s')) : Does init s a e s' := by
  cases a with
  | dispatch p =>
    simp only [step, dispatch, map_eq_some_iff, ite_none_right_eq_some] at hs
    obtain ⟨s1, ⟨hp, hs1⟩, hs⟩ := hs
    cases hs1
    cases hs
    exact .dispatch hp
  | yield p =>
    simp only [step, yield, map_eq_some_iff, ite_none_right_eq_some] at hs
    obtain ⟨s1, ⟨hp, hs1⟩, hs⟩ := hs
    cases hs1
    cases hs
    exact .yield hp.1 hp.2
  | sleep p addr =>
    simp only [step, sleep, map_eq_some_iff, ite_none_right_eq_some] at hs
    obtain ⟨s1, ⟨hp, hs1⟩, hs⟩ := hs
    cases hs1
    cases hs
    exact .sleep hp.1 hp.2
  | wakeup chan j =>
    cases hs
    exact .wakeup chan j
  | kill pid j =>
    cases hs
    exact .kill pid j
  | setkilled p =>
    rw [step, ite_none_right_eq_some] at hs
    cases hs.2
    exact .setkilled hs.1
  | fork p np ok =>
    simp only [step, fork, map_eq_some_iff, ite_none_right_eq_some] at hs
    obtain ⟨s1, ⟨⟨hp, hpc, hnp⟩, hs1⟩, hs⟩ := hs
    cases hs
    cases ok with
    | true =>
      cases hs1
      exact .fork hp hpc hnp
    | false =>
      cases hs1
      exact .forkFails hnp
  | exit p status =>
    simp only [step, acquire, map_eq_some_iff, ite_none_right_eq_some] at hs
    obtain ⟨⟨hp, hpc, hne⟩, s1, ⟨hfree, hs1⟩, hs⟩ := hs
    cases hs1
    cases hs
    exact .exit hp hpc hne hfree
  | wait p =>
    simp only [step, acquire, map_eq_some_iff, ite_none_right_eq_some] at hs
    obtain ⟨⟨hp, hpc⟩, s1, ⟨hfree, hs1⟩, hs⟩ := hs
    cases hs1
    cases hs
    exact .wait hp hpc hfree
  | next p ok =>
    rw [step, ite_none_right_eq_some] at hs
    exact .next hs.1 (next_goes hs.2)

/-- The table after `userinit`. -/
def first (init : Fin n) : Family n where
  proc := update (fun _ => .empty) init { Proc.empty with state := .runnable, pid := 1 }
  pc := update (fun _ => .dead) init .user
  waitLock := none
  nextpid := 2
  born := 1

end Family

/-- The system, with the events as labels beside the steps. -/
def family {n : ℕ} (init : Fin n) : LTS (Family n) (Act n × Option (Event n)) where
  init s := s = .first init
  step s a s' := s.step init a.1 = some (a.2, s')

def Family.labelled {n : ℕ} (init : Fin n) (s : Family n) (a : Act n) :
    Option ((Act n × Option (Event n)) × Family n) :=
  (s.step init a).map fun r => ((a, r.1), r.2)

theorem run_of_trace {n : ℕ} {init : Fin n} {s s' : Family n} {bs : List (Act n)}
    {as : List (Act n × Option (Event n))}
    (h : LTS.trace (Family.labelled init) s bs = some (as, s')) : (family init).Run s as s' := by
  refine LTS.Run.of_trace (fun s b a s' hb => ?_) h
  obtain ⟨r, hr, heq⟩ := map_eq_some_iff.mp hb
  cases heq
  exact hr

end Xv6.Life
