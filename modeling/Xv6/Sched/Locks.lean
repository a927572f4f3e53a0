import Xv6.Lib.LockOrder
import Xv6.Sched.Mlfq

/-!
# The locks of processes

The schedulers of the FCFS, PBS and MLFQ builds keep the lock of the best candidate while they take
the locks of the slots after it. All other code takes one process lock at a time, except that `wait`
and `waitx` hold the lock of a child that has exited while `copyout` may find no memory and call
`setkilled(myproc())`. No two processors wait for each other: a scheduler goes up the table, and the
lock that `wait` asks for last is that of a running process, which nobody keeps while waiting.

A step is the taking or the release of one lock, or what is done under it. Any processor that holds
none may take the lock of any slot for a while: these are `wakeup`, `kill`, `clockintr`,
`allocproc`, `fork`, `killed`, `setkilled` and the scan of `usertrap`. The fields that are compared
and the parents may change at any time; other locks are left out.
-/

namespace Xv6.Locking

open Function Option

open Sched (ProcState Level)

/-- The fields that PBS compares, and the one that it sets with them at a dispatch. -/
structure Priority where
  stick : BitVec 32
  priority : BitVec 32
  niceness : BitVec 32
  nscheduled : BitVec 32
  tickls : BitVec 32

def computePriority (p n : BitVec 32) : ℤ :=
  let r := (p - n + 5).toInt
  let r := if r > 100 then 100 else r
  if r < 0 then 0 else r

def comparePriority (best p : Priority) : Bool :=
  let p1 := computePriority best.priority best.niceness
  let p2 := computePriority p.priority p.niceness
  if p1 ≠ p2 then p2 < p1
  else if best.nscheduled ≠ p.nscheduled then p.nscheduled.slt best.nscheduled
  else best.stick.slt p.stick

/-- The builds whose schedulers look for the best process. -/
inductive Build
  | fcfs
  | pbs
  | mlfq

/-- The fields that a scheduler uses; for FCFS that is `stick`. -/
def Build.Fields : Build → Type
  | .fcfs => BitVec 32
  | .pbs => Priority
  | .mlfq => Level

/-- The second process replaces the first as the best candidate. -/
def Build.before : (b : Build) → b.Fields → b.Fields → Bool
  | .fcfs => fun (best p : BitVec 32) => p.slt best
  | .pbs => comparePriority
  | .mlfq => fun (best p : Level) => decide (p.Before best)

/-- What a processor does, apart from taking a lock for a while. -/
inductive Task (n : ℕ)
  /-- In the loop of the scheduler, about to take the lock of the slot `k`. -/
  | sched (best : Option (Fin n)) (k : ℕ)
  /-- In the loop of the scheduler, with the lock of the slot `k`. -/
  | look (best : Option (Fin n)) (k : Fin n)
  /-- The process `p` has just been chosen, and still has its lock. -/
  | enter (p : Fin n)
  /-- The process `p` runs. -/
  | run (p : Fin n)
  /-- In `yield`, `sleep` or `exit`, about to take its own lock. -/
  | stop (p : Fin n)
  /-- In `yield`, `sleep` or `exit`, with its own lock. -/
  | leave (p : Fin n)
  /-- Back in the scheduler, with the lock of the process that has stopped. -/
  | back (p : Fin n)
  /-- In `wait`, about to take the lock of the child `k`. -/
  | waitWant (p k : Fin n)
  /-- In `wait`, with the lock of the child `k`. -/
  | waitHold (p k : Fin n)
  /-- In `copyout` called from `wait`, about to call `setkilled`. -/
  | waitKill (p k : Fin n)
  /-- In `setkilled` called from there, with both locks. -/
  | waitKilled (p k : Fin n)

/-- The lock that a processor takes for a while. -/
inductive Job (n : ℕ)
  | none
  | want (q : Fin n)
  | hold (q : Fin n)

structure Cpu (n : ℕ) where
  task : Task n
  job : Job n

structure Machine (σ : Type) (n m : ℕ) where
  state : Fin n → ProcState
  parent : Fin n → Option (Fin n)
  fields : Fin n → σ
  lock : Fin n → Option (Fin m)
  cpu : Fin m → Cpu n

namespace Task

variable {n : ℕ}

def wants : Task n → Option (Fin n)
  | .sched _ k => if h : k < n then some ⟨k, h⟩ else none
  | .stop p | .waitKill p _ => some p
  | .waitWant _ k => some k
  | _ => none

def acquired (q : Fin n) : Task n → Task n
  | .sched best _ => .look best q
  | .stop p => .leave p
  | .waitWant p k => .waitHold p k
  | .waitKill p k => .waitKilled p k
  | t => t

/-- The task holds no lock, and interrupts are on. -/
def free : Task n → Bool
  | .sched none _ | .run _ => true
  | _ => false

end Task

def Cpu.wants {n : ℕ} (x : Cpu n) : Option (Fin n) :=
  match x.job with
  | .none => x.task.wants
  | .want q => some q
  | .hold _ => none

/-- Where the processor goes on with that lock. -/
def Cpu.acquired {n : ℕ} (x : Cpu n) (q : Fin n) : Cpu n :=
  match x.job with
  | .none => { x with task := x.task.acquired q }
  | _ => { x with job := .hold q }

/-- What is done to the slot whose lock is held for a while: `wakeup` and `kill`, `allocproc`, the
`freeproc` of a `fork` that fails, and the end of one that does not. -/
inductive Body
  | wake
  | alloc
  | free
  | ready
deriving DecidableEq

def Body.move : Body → ProcState × ProcState
  | .wake => (.sleeping, .runnable)
  | .alloc => (.unused, .used)
  | .free => (.used, .unused)
  | .ready => (.used, .runnable)

/-- How a process stops running: by `yield`, `sleep` or `exit`. -/
inductive Stop
  | yield
  | sleep
  | exit
deriving DecidableEq

def Stop.state : Stop → ProcState
  | .yield => .runnable
  | .sleep => .sleeping
  | .exit => .zombie

inductive Act (σ : Type) (n m : ℕ)
  | acquire (c : Fin m)
  | look (c : Fin m)
  /-- The scheduler has come to the end of the table. -/
  | choose (c : Fin m)
  | enter (c : Fin m)
  | start (c : Fin m) (q : Fin n)
  | body (c : Fin m) (b : Body)
  | finish (c : Fin m)
  | stop (c : Fin m)
  | leave (c : Fin m) (w : Stop)
  | back (c : Fin m)
  /-- `wait` comes to the slot `k`. -/
  | wait (c : Fin m) (k : Fin n)
  /-- `copyout`, called from `wait`, finds no memory. -/
  | copyout (c : Fin m)
  /-- `setkilled` returns. -/
  | killed (c : Fin m)
  /-- `wait` is done with a slot, which it frees or not. -/
  | reaped (c : Fin m) (freed : Bool)
  | compare (q : Fin n) (x : σ)
  | reparent (q : Fin n) (r : Option (Fin n))

namespace Machine

variable {σ : Type} {n m : ℕ}

/-- The processor `c` goes to `x`. -/
def goto (s : Machine σ n m) (c : Fin m) (x : Cpu n) : Machine σ n m :=
  { s with cpu := update s.cpu c x }

/-- The lock of `q` is taken or released. -/
def setLock (s : Machine σ n m) (q : Fin n) (o : Option (Fin m)) : Machine σ n m :=
  { s with lock := update s.lock q o }

/-- The state of `q` is assigned. -/
def setState (s : Machine σ n m) (q : Fin n) (st : ProcState) : Machine σ n m :=
  { s with state := update s.state q st }

section Fields

variable (s : Machine σ n m) (c d : Fin m) (x : Cpu n) (q r : Fin n) (o : Option (Fin m))
  (st : ProcState)

@[simp, grind =] theorem goto_cpu : (s.goto c x).cpu d = if d = c then x else s.cpu d :=
  update_apply ..

@[simp, grind =] theorem goto_lock : (s.goto c x).lock r = s.lock r := rfl

@[simp, grind =] theorem setLock_lock : (s.setLock q o).lock r = if r = q then o else s.lock r :=
  update_apply ..

@[simp, grind =] theorem setState_state :
    (s.setState q st).state r = if r = q then st else s.state r :=
  update_apply ..

end Fields

def acquire (s : Machine σ n m) (c : Fin m) : Option (Machine σ n m) :=
  match (s.cpu c).wants with
  | some q =>
    if s.lock q = none then some ((s.setLock q (some c)).goto c ((s.cpu c).acquired q)) else none
  | none => none

/-- The body of the loop of `scheduler` at the slot `k`. The new candidate keeps its lock, and the
old one loses it. -/
def lookAt (before : σ → σ → Bool) (s : Machine σ n m) (c : Fin m) (best : Option (Fin n))
    (k : Fin n) : Machine σ n m :=
  if s.state k = .runnable then
    match best with
    | none => s.goto c ⟨.sched (some k) (k + 1), .none⟩
    | some b =>
      if before (s.fields b) (s.fields k) then
        (s.setLock b none).goto c ⟨.sched (some k) (k + 1), .none⟩
      else (s.setLock k none).goto c ⟨.sched best (k + 1), .none⟩
  else (s.setLock k none).goto c ⟨.sched best (k + 1), .none⟩

def step (before : σ → σ → Bool) (s : Machine σ n m) : Act σ n m → Option (Machine σ n m)
  | .acquire c => s.acquire c
  | .look c =>
    match s.cpu c with
    | ⟨.look best k, .none⟩ => some (s.lookAt before c best k)
    | _ => none
  | .choose c =>
    match s.cpu c with
    | ⟨.sched best k, .none⟩ =>
      if k < n then none
      else
        match best with
        | some b => some ((s.setState b .running).goto c ⟨.enter b, .none⟩)
        | none => some (s.goto c ⟨.sched none 0, .none⟩)
    | _ => none
  | .enter c =>
    match s.cpu c with
    | ⟨.enter p, .none⟩ => some ((s.setLock p none).goto c ⟨.run p, .none⟩)
    | _ => none
  | .start c q =>
    match s.cpu c with
    | ⟨task, .none⟩ => if task.free then some (s.goto c ⟨task, .want q⟩) else none
    | _ => none
  | .body c b =>
    match s.cpu c with
    | ⟨_, .hold q⟩ => if s.state q = b.move.1 then some (s.setState q b.move.2) else none
    | _ => none
  | .finish c =>
    match s.cpu c with
    | ⟨task, .hold q⟩ => some ((s.setLock q none).goto c ⟨task, .none⟩)
    | _ => none
  | .stop c =>
    match s.cpu c with
    | ⟨.run p, .none⟩ => some (s.goto c ⟨.stop p, .none⟩)
    | _ => none
  | .leave c w =>
    match s.cpu c with
    | ⟨.leave p, .none⟩ => some ((s.setState p w.state).goto c ⟨.back p, .none⟩)
    | _ => none
  | .back c =>
    match s.cpu c with
    | ⟨.back p, .none⟩ => some ((s.setLock p none).goto c ⟨.sched none 0, .none⟩)
    | _ => none
  | .wait c k =>
    match s.cpu c with
    | ⟨.run p, .none⟩ =>
      if s.parent k = some p then some (s.goto c ⟨.waitWant p k, .none⟩) else none
    | _ => none
  | .copyout c =>
    match s.cpu c with
    | ⟨.waitHold p k, .none⟩ =>
      if s.state k = .zombie then some (s.goto c ⟨.waitKill p k, .none⟩) else none
    | _ => none
  | .killed c =>
    match s.cpu c with
    | ⟨.waitKilled p k, .none⟩ => some ((s.setLock p none).goto c ⟨.waitHold p k, .none⟩)
    | _ => none
  | .reaped c freed =>
    match s.cpu c with
    | ⟨.waitHold p k, .none⟩ =>
      let s' := if freed ∧ s.state k = .zombie then s.setState k .unused else s
      some ((s'.setLock k none).goto c ⟨.run p, .none⟩)
    | _ => none
  | .compare q x => some { s with fields := update s.fields q x }
  | .reparent q r => some { s with parent := update s.parent q r }

end Machine

/-- The system: at first nobody runs, and all processors enter the scheduler. -/
def machine {σ : Type} (before : σ → σ → Bool) (n m : ℕ) : LTS (Machine σ n m) (Act σ n m) where
  init s := (∀ p, s.state p ≠ .running) ∧ (∀ q, s.lock q = none) ∧
    ∀ c, s.cpu c = ⟨.sched none 0, .none⟩
  step s a s' := s.step before a = some s'

/-! ## The invariant -/

namespace Task

variable {n : ℕ}

def Holds (q : Fin n) : Task n → Prop
  | .sched best _ => best = some q
  | .look best k => best = some q ∨ q = k
  | .enter p | .leave p | .back p => q = p
  | .waitHold _ k | .waitKill _ k => q = k
  | .waitKilled p k => q = k ∨ q = p
  | _ => False

def runs : Task n → Option (Fin n)
  | .enter p | .run p | .stop p | .leave p | .waitWant p _ | .waitHold p _ | .waitKill p _
  | .waitKilled p _ => some p
  | _ => none

def best : Task n → Option (Fin n)
  | .sched best _ | .look best _ => best
  | _ => none

/-- The candidate is before the slot that the scheduler has come to. -/
def Ordered : Task n → Prop
  | .sched best k => ∀ b, best = some b → b.val < k
  | .look best k => ∀ b, best = some b → b < k
  | _ => True

/-- The child whose status `wait` copies out. -/
def reaps : Task n → Option (Fin n)
  | .waitKill _ k | .waitKilled _ k => some k
  | _ => none

variable {t : Task n}

theorem holds_of_best {b : Fin n} (h : t.best = some b) : t.Holds b := by
  cases t with
  | sched best k => exact h
  | look best k => exact .inl h
  | _ => cases h

theorem holds_of_reaps {k : Fin n} (h : t.reaps = some k) : t.Holds k := by
  cases t with
  | waitKill p k' => exact (some.inj h).symm
  | waitKilled p k' => exact .inl (some.inj h).symm
  | _ => cases h

theorem not_holds_of_free (h : t.free = true) (q : Fin n) : ¬t.Holds q := by
  cases t with
  | sched best k =>
    cases best with
    | none => exact nofun
    | some b => cases h
  | run p => exact id
  | _ => cases h

end Task

def Cpu.Holds {n : ℕ} (x : Cpu n) (q : Fin n) : Prop := x.task.Holds q ∨ x.job = .hold q

/-- What holds of each processor: a candidate is `RUNNABLE` and before the slot that comes next, a
process that runs is `RUNNING`, and what `wait` copies out is of a zombie. -/
structure Cpu.Fits {n : ℕ} (state : Fin n → ProcState) (x : Cpu n) : Prop where
  free : x.job ≠ .none → x.task.free = true
  ordered : x.task.Ordered
  best : ∀ b, x.task.best = some b → state b = .runnable
  runs : ∀ p, x.task.runs = some p → state p = .running
  reaps : ∀ k, x.task.reaps = some k → state k = .zombie

/-- The invariant: beside that, the locks belong to those who hold them, and a process runs on one
processor. -/
structure Sound {σ : Type} {n m : ℕ} (s : Machine σ n m) : Prop where
  owner : ∀ q c, s.lock q = some c ↔ (s.cpu c).Holds q
  fits : ∀ c, (s.cpu c).Fits s.state
  sole : ∀ c d p, (s.cpu c).task.runs = some p → (s.cpu d).task.runs = some p → c = d

namespace Cpu

variable {n : ℕ} {x : Cpu n} {q : Fin n} {state state' : Fin n → ProcState}

theorem fits_idle : (⟨.sched none 0, .none⟩ : Cpu n).Fits state :=
  ⟨fun hj => absurd rfl hj, nofun, nofun, nofun, nofun⟩

theorem fits_runs {t : Task n} {p : Fin n} (hbest : t.best = none) (hordered : t.Ordered)
    (hruns : t.runs = some p) (hp : state p = .running)
    (hreaps : ∀ k, t.reaps = some k → state k = .zombie) : (⟨t, .none⟩ : Cpu n).Fits state := by
  refine ⟨fun hj => absurd rfl hj, hordered, fun b hb => ?_, fun r hr => ?_, hreaps⟩
  · cases hbest.symm.trans hb
  · obtain rfl : p = r := some.inj (hruns.symm.trans hr)
    exact hp

theorem Fits.frame (h : x.Fits state)
    (hsame : ∀ q, x.Holds q ∨ x.task.runs = some q → state' q = state q) : x.Fits state' where
  free := h.free
  ordered := h.ordered
  best b hb := (hsame b (.inl (.inl (Task.holds_of_best hb)))).trans (h.best b hb)
  runs p hp := (hsame p (.inr hp)).trans (h.runs p hp)
  reaps k hk := (hsame k (.inl (.inl (Task.holds_of_reaps hk)))).trans (h.reaps k hk)

theorem acquired_spec (state : Fin n → ProcState) (h : x.wants = some q) :
    (∀ r, (x.acquired q).Holds r ↔ x.Holds r ∨ r = q) ∧
      (x.Fits state → (x.acquired q).Fits state) ∧
      (x.acquired q).task.runs = x.task.runs := by
  obtain ⟨task, job⟩ := x
  cases job with
  | none =>
    cases task with
    | sched best k =>
      have hk : k = q.val := by
        simp only [wants, Task.wants] at h
        split at h
        · cases h
          rfl
        · cases h
      subst hk
      refine ⟨fun r => ?_, fun hx => ⟨fun hj => absurd rfl hj, hx.ordered, hx.best, hx.runs,
        hx.reaps⟩, rfl⟩
      simp [acquired, Task.acquired, Holds, Task.Holds]
    | stop p | waitWant p k | waitKill p k =>
      cases h
      refine ⟨fun r => ?_, fun hx => ⟨fun hj => absurd rfl hj, trivial, hx.best, hx.runs,
        hx.reaps⟩, rfl⟩
      simp [acquired, Task.acquired, Holds, Task.Holds]
    | _ => cases h
  | want r =>
    cases h
    refine ⟨fun r => ?_, fun hx => ⟨fun _ => hx.free (by simp), hx.ordered, hx.best, hx.runs,
      hx.reaps⟩, rfl⟩
    simp [acquired, Holds, eq_comm]
  | hold r => cases h

end Cpu

/-- What a step from `y` to `x` of a processor may do to the states: it changes those of slots whose
locks it holds, and runs no process that somebody else runs. -/
structure Goes {n : ℕ} (state : Fin n → ProcState) (y x : Cpu n) (state' : Fin n → ProcState) :
    Prop where
  owns : ∀ q, state' q ≠ state q → y.Holds q ∧ (state q = .running → y.task.runs = some q)
  fits : x.Fits state'
  runs : ∀ p, x.task.runs = some p → y.task.runs = some p ∨ state p = .runnable

theorem Goes.same {n : ℕ} {state : Fin n → ProcState} {x y : Cpu n} (hfits : x.Fits state)
    (hruns : x.task.runs = y.task.runs) : Goes state y x state :=
  ⟨fun _ hq => absurd rfl hq, hfits, fun _ hp => .inl (hruns ▸ hp)⟩

namespace Sound

variable {σ : Type} {n m : ℕ} {before : σ → σ → Bool} {s s' : Machine σ n m} {c : Fin m}
  {x y : Cpu n} {st : Fin n → ProcState} (h : Sound s)

include h

theorem fitsAt (hc : s.cpu c = y) : y.Fits s.state := hc ▸ h.fits c

/-- **One processor takes a step** from `y` to `x`, and changes at most the locks that it holds
before or after. -/
theorem move (hc : s.cpu c = y) (hcpu : ∀ d, s'.cpu d = if d = c then x else s.cpu d)
    (hothers : ∀ q d, d ≠ c → (s'.lock q = some d ↔ s.lock q = some d))
    (hself : ∀ q, s'.lock q = some c ↔ x.Holds q) (hgoes : Goes s.state y x s'.state) :
    Sound s' := by
  subst hc
  refine ⟨fun q d => ?_, fun d => ?_, fun d e p hd he => ?_⟩
  · rw [hcpu d]
    split_ifs with hd
    · rw [hd, hself q]
    · rw [hothers q d hd, h.owner q d]
  · rw [hcpu d]
    split_ifs with hd
    · exact hgoes.fits
    · refine (h.fits d).frame fun q hq => ?_
      by_contra hchange
      obtain ⟨hheld, hrunning⟩ := hgoes.owns q hchange
      rcases hq with hq | hq
      · -- no two processors hold one lock
        have hlock := (h.owner q d).mpr hq
        rw [(h.owner q c).mpr hheld] at hlock
        exact hd (some.inj hlock).symm
      · exact hd (h.sole d c q hq (hrunning ((h.fits d).runs q hq)))
  · have hnew : ∀ f, f ≠ c → x.task.runs = some p → (s.cpu f).task.runs = some p → f = c := by
      intro f hf hx hfp
      rcases hgoes.runs p hx with hold | hrunnable
      · exact h.sole f c p hfp hold
      · cases hrunnable.symm.trans ((h.fits f).runs p hfp)
    rw [hcpu d] at hd
    rw [hcpu e] at he
    split_ifs at hd he with hdc hec hec
    · rw [hdc, hec]
    · rw [hdc, hnew e hec hd he]
    · rw [hec, hnew d hdc he hd]
    · exact h.sole d e p hd he

theorem keep (hc : s.cpu c = y) (hholds : ∀ q, x.Holds q ↔ y.Holds q)
    (hgoes : Goes s.state y x st) :
    Sound (Machine.goto { s with state := st } c x) :=
  h.move hc (fun d => Machine.goto_cpu ..) (fun q d _ => .rfl)
    (fun q => by rw [hholds, ← hc]; exact h.owner q c) hgoes

theorem release (hc : s.cpu c = y) {q : Fin n} (hq : y.Holds q)
    (hholds : ∀ r, x.Holds r ↔ y.Holds r ∧ r ≠ q) (hgoes : Goes s.state y x st) :
    Sound (Machine.goto (Machine.setLock { s with state := st } q none) c x) := by
  subst hc
  have howner := (h.owner q c).mpr hq
  refine h.move rfl (fun d => Machine.goto_cpu ..) (fun r d hd => ?_) (fun r => ?_) hgoes
  · rw [Machine.goto_lock, Machine.setLock_lock]
    split_ifs with hr
    · rw [hr, howner]
      refine iff_of_false (by simp) fun he => hd (some.inj he).symm
    · rfl
  · rw [Machine.goto_lock, Machine.setLock_lock, hholds r]
    split_ifs with hr
    · exact iff_of_false (by simp) fun he => he.2 hr
    · rw [← h.owner r c]
      exact (and_iff_left hr).symm

theorem acquire (hs : s.acquire c = some s') : Sound s' := by
  unfold Machine.acquire at hs
  split at hs
  · rename_i q hq
    rw [ite_none_right_eq_some] at hs
    obtain ⟨hfree, hs⟩ := hs
    cases hs
    obtain ⟨hholds, hfits, hruns⟩ := Cpu.acquired_spec s.state hq
    refine h.move (c := c) rfl (fun d => s.goto_cpu ..) (fun r d hd => ?_) (fun r => ?_)
      (.same (hfits (h.fits c)) hruns)
    · rw [Machine.goto_lock, Machine.setLock_lock]
      split_ifs with hr
      · rw [hr, hfree]
        exact iff_of_false (fun he => hd (some.inj he).symm) (by simp)
      · rfl
    · rw [Machine.goto_lock, Machine.setLock_lock, hholds r]
      split_ifs with hr
      · exact iff_of_true rfl (.inr hr)
      · rw [h.owner r c]
        exact (or_iff_left hr).symm
  · cases hs

theorem lookAt {best : Option (Fin n)} {k : Fin n} (hc : s.cpu c = ⟨.look best k, .none⟩) :
    Sound (s.lookAt before c best k) := by
  have hfits := h.fitsAt hc
  have hbefore : ∀ b, best = some b → b < k := hfits.ordered
  -- the candidate stays: the slot is released
  have hstay : Sound ((s.setLock k none).goto c ⟨.sched best (k + 1), .none⟩) := by
    refine h.release hc (.inl (.inr rfl)) (fun r => ?_) (.same ⟨fun hj => absurd rfl hj,
      fun b hb => Nat.lt_succ_of_lt (hbefore b hb), hfits.best, hfits.runs, hfits.reaps⟩ rfl)
    simp only [Cpu.Holds, Task.Holds, reduceCtorEq, or_false]
    constructor
    · intro hr
      exact ⟨.inl hr, (hbefore r hr).ne⟩
    · rintro ⟨hr | hr, hne⟩
      · exact hr
      · exact absurd hr hne
  -- the slot is the new candidate
  have hnew : s.state k = .runnable →
      Cpu.Fits s.state (⟨.sched (some k) (k + 1), .none⟩ : Cpu n) := fun hrun => by
    refine ⟨fun hj => absurd rfl hj, fun b hb => ?_, fun b hb => ?_, nofun, nofun⟩
    · cases hb
      exact Nat.lt_succ_self _
    · cases hb
      exact hrun
  unfold Machine.lookAt
  split_ifs with hrun
  · cases best with
    | none =>
      refine h.keep hc (fun q => ?_) (.same (hnew hrun) rfl)
      simp [Cpu.Holds, Task.Holds, eq_comm]
    | some b =>
      dsimp only
      split_ifs
      · refine h.release hc (.inl (.inl rfl)) (fun r => ?_) (.same (hnew hrun) rfl)
        have hne : b ≠ k := (hbefore b rfl).ne
        simp only [Cpu.Holds, Task.Holds, reduceCtorEq, or_false, some_inj]
        constructor
        · rintro rfl
          exact ⟨.inr rfl, hne.symm⟩
        · rintro ⟨hr | hr, hrb⟩
          · exact absurd hr.symm hrb
          · exact hr.symm
      · exact hstay
  · exact hstay

/-- **Every step** keeps the invariant. -/
theorem step {a : Act σ n m} (hs : s.step before a = some s') : Sound s' := by
  cases a with
  | acquire c => exact h.acquire hs
  | look c =>
    simp only [Machine.step] at hs
    split at hs
    · rename_i best k hc
      cases hs
      exact h.lookAt hc
    · cases hs
  | choose c =>
    simp only [Machine.step] at hs
    split at hs
    · rename_i best k hc
      split at hs
      · cases hs
      · cases best with
        | some b =>
          cases hs
          have hb : s.state b = .runnable := (h.fitsAt hc).best b rfl
          refine h.keep hc (fun q => ?_) ⟨fun q hq => ?_, ?_, fun p hp => ?_⟩
          · simp [Cpu.Holds, Task.Holds, eq_comm]
          · rw [update_apply] at hq
            split_ifs at hq with hqb
            · rw [hqb, hb]
              exact ⟨.inl rfl, fun hr => by cases hr⟩
            · exact absurd rfl hq
          · exact Cpu.fits_runs rfl trivial rfl (update_self ..) nofun
          · cases hp
            exact .inr hb
        | none =>
          cases hs
          refine h.keep hc (fun q => ?_) (.same Cpu.fits_idle rfl)
          simp [Cpu.Holds, Task.Holds]
    · cases hs
  | enter c =>
    simp only [Machine.step] at hs
    split at hs
    · rename_i p hc
      cases hs
      have hp := (h.fitsAt hc).runs p rfl
      refine h.release hc (.inl rfl) (fun r => ?_)
        (.same (Cpu.fits_runs rfl trivial rfl hp nofun) rfl)
      simp [Cpu.Holds, Task.Holds]
    · cases hs
  | start c q =>
    simp only [Machine.step] at hs
    split at hs
    · rename_i task hc
      have hfits := h.fitsAt hc
      rw [ite_none_right_eq_some] at hs
      obtain ⟨hfree, hs⟩ := hs
      cases hs
      refine h.keep hc (fun r => ?_)
        (.same ⟨fun _ => hfree, hfits.ordered, hfits.best, hfits.runs, hfits.reaps⟩ rfl)
      simp [Cpu.Holds]
    · cases hs
  | body c b =>
    simp only [Machine.step] at hs
    split at hs
    · rename_i task q hc
      rw [ite_none_right_eq_some] at hs
      obtain ⟨hq, hs⟩ := hs
      cases hs
      have hnot : s.state q ≠ .running := by
        rw [hq]
        cases b <;> simp [Body.move]
      refine h.move hc (x := ⟨task, .hold q⟩) (fun d => ?_) (fun r d _ => .rfl)
        (fun r => hc ▸ h.owner r c) ⟨fun r hr => ?_, ?_, fun r hr => .inl hr⟩
      · split_ifs with hd
        · rw [hd]
          exact hc
        · rfl
      · rw [Machine.setState_state] at hr
        split_ifs at hr with hrq
        · rw [hrq]
          exact ⟨.inr rfl, fun hrun => absurd hrun hnot⟩
        · exact absurd rfl hr
      · -- the task has no lock, and the process that it runs is not the slot
        have hfits := h.fitsAt hc
        have hnone := Task.not_holds_of_free (hfits.free (by simp))
        refine ⟨hfits.free, hfits.ordered, fun r hr => absurd (Task.holds_of_best hr) (hnone r),
          fun r hr => ?_, fun r hr => absurd (Task.holds_of_reaps hr) (hnone r)⟩
        have hne : r ≠ q := by
          rintro rfl
          exact hnot (hfits.runs r hr)
        simpa [hne] using hfits.runs r hr
    · cases hs
  | finish c =>
    simp only [Machine.step] at hs
    split at hs
    · rename_i task q hc
      have hfits := h.fitsAt hc
      cases hs
      refine h.release hc (.inr rfl) (fun r => ?_) (.same
        ⟨fun hj => absurd rfl hj, hfits.ordered, hfits.best, hfits.runs, hfits.reaps⟩ rfl)
      have hnone := Task.not_holds_of_free (hfits.free (by simp)) r
      simp [Cpu.Holds, hnone, eq_comm]
    · cases hs
  | stop c =>
    simp only [Machine.step] at hs
    split at hs
    · rename_i p hc
      cases hs
      have hp := (h.fitsAt hc).runs p rfl
      refine h.keep hc (fun r => ?_) (.same (Cpu.fits_runs rfl trivial rfl hp nofun) rfl)
      simp [Cpu.Holds, Task.Holds]
    · cases hs
  | leave c w =>
    simp only [Machine.step] at hs
    split at hs
    · rename_i p hc
      cases hs
      refine h.keep hc (fun r => ?_) ⟨fun r hr => ?_,
        ⟨fun hj => absurd rfl hj, trivial, nofun, nofun, nofun⟩, nofun⟩
      · simp [Cpu.Holds, Task.Holds]
      · rw [update_apply] at hr
        split_ifs at hr with hrp
        · rw [hrp]
          exact ⟨.inl rfl, fun _ => rfl⟩
        · exact absurd rfl hr
    · cases hs
  | back c =>
    simp only [Machine.step] at hs
    split at hs
    · rename_i p hc
      cases hs
      refine h.release hc (.inl rfl) (fun r => ?_) (.same Cpu.fits_idle rfl)
      simp [Cpu.Holds, Task.Holds]
    · cases hs
  | wait c k =>
    simp only [Machine.step] at hs
    split at hs
    · rename_i p hc
      rw [ite_none_right_eq_some] at hs
      cases hs.2
      have hp := (h.fitsAt hc).runs p rfl
      refine h.keep hc (fun r => ?_) (.same (Cpu.fits_runs rfl trivial rfl hp nofun) rfl)
      simp [Cpu.Holds, Task.Holds]
    · cases hs
  | copyout c =>
    simp only [Machine.step] at hs
    split at hs
    · rename_i p k hc
      rw [ite_none_right_eq_some] at hs
      obtain ⟨hk, hs⟩ := hs
      cases hs
      have hp := (h.fitsAt hc).runs p rfl
      refine h.keep hc (fun r => ?_) (.same (Cpu.fits_runs rfl trivial rfl hp fun r hr => ?_) rfl)
      · simp [Cpu.Holds, Task.Holds]
      · cases hr
        exact hk
    · cases hs
  | killed c =>
    simp only [Machine.step] at hs
    split at hs
    · rename_i p k hc
      cases hs
      have hp := (h.fitsAt hc).runs p rfl
      have hk := (h.fitsAt hc).reaps k rfl
      have hne : k ≠ p := by
        rintro rfl
        cases hp.symm.trans hk
      refine h.release hc (.inl (.inr rfl)) (fun r => ?_)
        (.same (Cpu.fits_runs rfl trivial rfl hp nofun) rfl)
      simp only [Cpu.Holds, Task.Holds, reduceCtorEq, or_false]
      constructor
      · rintro rfl
        exact ⟨.inl rfl, hne⟩
      · rintro ⟨hr | hr, hrp⟩
        · exact hr
        · exact absurd hr hrp
    · cases hs
  | reaped c freed =>
    simp only [Machine.step] at hs
    split at hs
    · rename_i p k hc
      cases hs
      have hp := (h.fitsAt hc).runs p rfl
      have hholds : ∀ r, Cpu.Holds ⟨.run p, .none⟩ r ↔
          Cpu.Holds ⟨.waitHold p k, .none⟩ r ∧ r ≠ k := by
        intro r
        simp [Cpu.Holds, Task.Holds]
      split_ifs with hz
      · have hne : p ≠ k := by
          rintro rfl
          cases hp.symm.trans hz.2
        refine h.release hc (.inl rfl) hholds ⟨fun r hr => ?_,
          Cpu.fits_runs rfl trivial rfl ((update_of_ne hne ..).trans hp) nofun,
          fun r hr => .inl hr⟩
        rw [update_apply] at hr
        split_ifs at hr with hrk
        · rw [hrk, hz.2]
          exact ⟨.inl rfl, nofun⟩
        · exact absurd rfl hr
      · exact h.release hc (.inl rfl) hholds (.same (Cpu.fits_runs rfl trivial rfl hp nofun) rfl)
    · cases hs
  | compare q x | reparent q r =>
    cases hs
    exact ⟨h.owner, h.fits, h.sole⟩

omit h in
theorem init (h : (machine before n m).init s) : Sound s := by
  obtain ⟨hstate, hlock, hcpu⟩ := h
  refine ⟨fun q c => ?_, fun c => ?_, fun c d p hc => ?_⟩
  · rw [hlock, hcpu]
    simp [Cpu.Holds, Task.Holds]
  · rw [hcpu]
    exact Cpu.fits_idle
  · rw [hcpu] at hc
    cases hc

omit h in
theorem reachable (h : (machine before n m).Reachable s) : Sound s :=
  h.invariant (fun _ => init) fun _ _ _ hs hstep => hs.step hstep

/-- A processor that holds a lock while it waits for another one is in a pass of the scheduler, with
the lock of the candidate, or in `wait`, with the lock of a zombie. -/
theorem holds_and_wants {q r : Fin n} (hq : (s.cpu c).Holds q) (hr : (s.cpu c).wants = some r) :
    (s.state q = .runnable ∧ q < r) ∨ (s.state q = .zombie ∧ s.state r = .running) := by
  have hfits := h.fits c
  unfold Cpu.wants at hr
  split at hr
  · rename_i hjob
    have hq : (s.cpu c).task.Holds q := hq.resolve_right (by simp [hjob])
    cases htask : (s.cpu c).task with
    | sched best k =>
      rw [htask] at hq hr
      have hlt : q.val < k := by
        have := hfits.ordered
        rw [htask] at this
        exact this q hq
      have hk : r.val = k := by
        simp only [Task.wants] at hr
        split at hr
        · cases hr
          rfl
        · cases hr
      exact .inl ⟨hfits.best q (by rw [htask]; exact hq), by omega⟩
    | waitKill p k =>
      rw [htask] at hq hr
      cases hr
      refine .inr ⟨hfits.reaps q ?_, hfits.runs r (by rw [htask]; rfl)⟩
      rw [htask]
      exact congrArg some hq.symm
    | stop p | waitWant p k =>
      rw [htask] at hq
      exact hq.elim
    | _ =>
      rw [htask] at hr
      cases hr
  · -- one that takes a lock for a while holds no other
    rename_i q' hjob
    have hnone := Task.not_holds_of_free (hfits.free (by simp [hjob])) q
    rcases hq with hq | hq
    · exact absurd hq hnone
    · rw [hjob] at hq
      cases hq
  · cases hr

end Sound

/-- The processor `c` waits for a process lock that `d` holds. -/
def Machine.WaitsFor {σ : Type} {n m : ℕ} (s : Machine σ n m) : Fin m → Fin m → Prop :=
  LockOrder.WaitsFor (fun c => (s.cpu c).wants) s.lock

/-- **No deadlock on process locks.** In the FCFS, PBS and MLFQ builds, with any number of slots and
processors and in every interleaving, no processors wait for each other's process locks in a
circle. -/
theorem no_deadlock (b : Build) {n m : ℕ} {s : Machine b.Fields n m}
    (h : (machine b.before n m).Reachable s) (c : Fin m) :
    ¬Relation.TransGen s.WaitsFor c c := by
  have hsound := Sound.reachable h
  refine LockOrder.acyclic_of_rank (fun c => ((s.cpu c).wants.map Fin.val).getD 0) ?_ c
  rintro c1 c2 c3 c4 ⟨q1, hw1, ho1⟩ ⟨q2, hw2, ho2⟩ ⟨q3, hw3, -⟩
  have h2 := hsound.holds_and_wants ((hsound.owner q1 c2).mp ho1) hw2
  have h3 := hsound.holds_and_wants ((hsound.owner q2 c3).mp ho2) hw3
  -- the lock that `wait` wants is of a process that runs, and nobody keeps that while waiting
  have hlt : q1 < q2 := by
    rcases h2 with ⟨-, hlt⟩ | ⟨-, hrunning⟩
    · exact hlt
    · rw [hrunning] at h3
      rcases h3 with ⟨hst, -⟩ | ⟨hst, -⟩
      · cases hst
      · cases hst
  simp only [hw1, hw2, map_some, getD_some]
  exact hlt

/-- Two processors at the start, with a `RUNNABLE` process in the first of two slots. -/
def twoProcessors : Machine (BitVec 32) 2 2 where
  state p := if p = 0 then .runnable else .unused
  parent _ := none
  fields _ := 0
  lock _ := none
  cpu _ := ⟨.sched none 0, .none⟩

theorem no_deadlock_twoProcessors :
    ∃ s, LTS.runAll (Machine.step Build.fcfs.before) twoProcessors [.acquire 0, .look 0] = some s ∧
      s.WaitsFor 1 0 ∧ ∀ c, ¬Relation.TransGen s.WaitsFor c c := by
  obtain ⟨s, hs, hvalues⟩ : ∃ s, LTS.runAll (Machine.step Build.fcfs.before) twoProcessors
      [.acquire 0, .look 0] = some s ∧ ((s.cpu 1).wants, s.lock 0) = (some 0, some 0) := by
    refine map_eq_some_iff.mp ?_
    decide +kernel
  obtain ⟨hwants, hlock⟩ := Prod.mk.inj hvalues
  have hreach : (machine Build.fcfs.before 2 2).Reachable s :=
    (LTS.Reachable.init (T := machine Build.fcfs.before 2 2)
      ⟨by decide, fun _ => rfl, fun _ => rfl⟩).runAll (fun _ _ _ h => h) hs
  exact ⟨s, hs, ⟨0, hwants, hlock⟩, no_deadlock .fcfs hreach⟩

end Xv6.Locking
