import Xv6.Sched.Table

/-!
# The multi-level feedback queue scheduler

With `-DMLFQ` a process has a level: the number of its queue, the ticks it has waited and used, and
the tick at which it was last queued. The queues exist only in these fields: the scheduler runs the
`RUNNABLE` process with the lowest queue, and in it the one with the earliest `intime`. A process
that uses up its slice of `2 ^ queue` ticks moves down one queue when it yields; one that waits
`MAX_WAIT_TIME` ticks moves up one. `fork` stamps the parent, where the child is meant, and so
returns it to queue 0.
-/

namespace Xv6.Sched

abbrev nqueue : ℤ := 5

abbrev maxWaitTime : ℕ := 32

/-- The fields `queue`, `waittime`, `ticksused` and `intime` of a process. -/
@[ext] structure Level where
  queue : ℤ
  waittime : ℤ
  ticksused : ℤ
  intime : BitVec 32
deriving DecidableEq

namespace Level

/-- What `allocproc` and `freeproc` assign. -/
def zero : Level := ⟨0, 0, 0, 0⟩

/-- The ticks a process may run for, `1 << queue`. -/
def slice (x : Level) : ℤ := 2 ^ x.queue.toNat

/-- `yield`: a slice that is used up moves the process down. -/
def yield (ticks : BitVec 32) (x : Level) : Level :=
  { x with
    queue := if x.queue ≠ nqueue - 1 ∧ x.slice ≤ x.ticksused then x.queue + 1 else x.queue
    intime := ticks
    ticksused := 0 }

/-- `clockintr` on a `RUNNABLE` process: one that has waited long enough moves up. -/
def clock (x : Level) : Level :=
  if (maxWaitTime : ℤ) ≤ x.waittime + 1 then
    { x with waittime := 0, queue := if x.queue - 1 < 0 then 0 else x.queue - 1 }
  else { x with waittime := x.waittime + 1 }

/-- The timer interrupt of the running process: it yields when its slice is used up, or when a
process of a higher queue is `RUNNABLE`. -/
def timer (proc : Slot → Proc Level) (x : Level) : Level × Bool :=
  let x := { x with ticksused := x.ticksused + 1 }
  if x.slice ≤ x.ticksused then (x, true)
  else (x, decide (∃ r, (proc r).state = .runnable ∧ (proc r).sched.queue < x.queue))

theorem timer_fst (proc : Slot → Proc Level) (x : Level) :
    (x.timer proc).1 = { x with ticksused := x.ticksused + 1 } := by
  unfold timer
  dsimp only
  split
  · rfl
  · rfl

theorem timer_queue (proc : Slot → Proc Level) (x : Level) :
    (x.timer proc).1.queue = x.queue := by rw [timer_fst]

theorem timer_waittime (proc : Slot → Proc Level) (x : Level) :
    (x.timer proc).1.waittime = x.waittime := by rw [timer_fst]

/-- `x` is run before `y`. -/
def Before (x y : Level) : Prop :=
  (y.queue = x.queue ∧ x.intime.toInt < y.intime.toInt) ∨ x.queue < y.queue

instance (x y : Level) : Decidable (x.Before y) := inferInstanceAs (Decidable (_ ∨ _))

/-- What precedes a process that does not come after another one does not come after it either. -/
theorem Before.of_not {x y z : Level} (h : x.Before y) (hz : ¬z.Before y) : ¬z.Before x := by
  unfold Before at *
  omega

end Level

/-- The loop of the scheduler over the slots that are left, with the best candidate so far. -/
def bestOf (proc : Slot → Proc Level) : List Slot → Option Slot → Option Slot
  | [], best => best
  | p :: l, best =>
    if (proc p).state = .runnable then
      match best with
      | none => bestOf proc l (some p)
      | some b =>
        if (proc p).sched.Before (proc b).sched then bestOf proc l (some p)
        else bestOf proc l (some b)
    else bestOf proc l best

section BestOf

variable {proc : Slot → Proc Level} {l : List Slot} {best : Option Slot} {b : Slot}

/-- The candidate is `RUNNABLE` and nothing in `seen` comes before it. -/
def Leads (proc : Slot → Proc Level) (seen : List Slot) (best : Option Slot) : Prop :=
  match best with
  | none => ∀ r ∈ seen, (proc r).state ≠ .runnable
  | some b => (proc b).state = .runnable ∧
      ∀ r ∈ seen, (proc r).state = .runnable → ¬(proc r).sched.Before (proc b).sched

theorem Leads.skip {seen : List Slot} {p : Slot} (h : Leads proc seen (some b))
    (hp : (proc p).state = .runnable → ¬(proc p).sched.Before (proc b).sched) :
    Leads proc (p :: seen) (some b) := by
  refine ⟨h.1, fun r hr => ?_⟩
  rcases List.mem_cons.mp hr with rfl | hr
  · exact hp
  · exact h.2 r hr

theorem bestOf_leads {seen : List Slot} (h : Leads proc seen best) :
    Leads proc (l.reverse ++ seen) (bestOf proc l best) := by
  induction l generalizing seen best with
  | nil => simpa [bestOf] using h
  | cons p l ih =>
    rw [List.reverse_cons, List.append_assoc, List.singleton_append]
    unfold bestOf
    split
    · rename_i hp
      have hself : ¬(proc p).sched.Before (proc p).sched := by
        unfold Level.Before
        omega
      split
      · refine ih ⟨hp, fun r hr hrun => ?_⟩
        rcases List.mem_cons.mp hr with rfl | hr
        · exact hself
        · exact absurd hrun (h r hr)
      · rename_i b
        split
        · rename_i hbefore
          refine ih ⟨hp, fun r hr hrun => ?_⟩
          rcases List.mem_cons.mp hr with rfl | hr
          · exact hself
          · exact hbefore.of_not (h.2 r hr hrun)
        · rename_i hbehind
          exact ih (h.skip fun _ => hbehind)
    · rename_i hp
      refine ih ?_
      cases best with
      | none =>
        intro r hr
        rcases List.mem_cons.mp hr with rfl | hr
        · exact hp
        · exact h r hr
      | some b => exact h.skip fun hrun => absurd hrun hp

/-- The scheduler runs a `RUNNABLE` process that no `RUNNABLE` process comes before. -/
theorem bestOf_spec (h : bestOf proc slots none = some b) :
    (proc b).state = .runnable ∧
      ∀ r, (proc r).state = .runnable → ¬(proc r).sched.Before (proc b).sched := by
  have hleads := bestOf_leads (l := slots) (show Leads proc [] none by simp [Leads])
  rw [h] at hleads
  exact ⟨hleads.1, fun r => hleads.2 r (by simp [mem_slots])⟩

end BestOf

def mlfq : Policy Level Unit Empty where
  alloc _ _ := .zero
  free _ := .zero
  userinit ticks x := { x with queue := 0, intime := ticks }
  -- the source says `p->queue` and `p->intime`, not `np->queue` and `np->intime`
  forkParent ticks x := { x with queue := 0, intime := ticks }
  forkChild _ child := child
  dispatch _ x := { x with ticksused := 0, waittime := 0 }
  yield := Level.yield
  sleep _ x := x
  wake ticks x := { x with ticksused := 0, intime := ticks }
  clock := Level.clock
  timer := Level.timer
  enter _ g := g
  leave _ g := g
  pick proc g := (bestOf proc slots none, g)
  call x := nomatch x
  pick_runnable _ _ _ h := (bestOf_spec h).1

/-- The kernel built with the multi-level feedback queue scheduler. -/
def mlfqSystem : LTS (Table Level Unit) (Event Empty) := system mlfq .zero ()

/-- The number of clock ticks that a process has waited since it last became `RUNNABLE`, after a
step. -/
def watch (t : Table Level Unit) (e : Event Empty) (t' : Table Level Unit) (w : Slot → ℕ) :
    Slot → ℕ :=
  fun p =>
    if (t.proc p).state = .runnable ∧ (t'.proc p).state = .runnable then w p + e.clocks else 0

/-- The build, with the ticks that each process has waited. -/
def mlfqWatched : LTS (Table Level Unit × (Slot → ℕ)) (Event Empty) where
  init s := s = (.boot .zero (), fun _ => 0)
  step s e s' := e.run mlfq s.1 = some s'.1 ∧ s'.2 = watch s.1 e s'.1 s.2

/-- The fields of a process that has waited `w` ticks are in their ranges. -/
structure Fit (w : ℕ) (q : Proc Level) : Prop where
  queue_nonneg : 0 ≤ q.sched.queue
  queue_lt : q.sched.queue < nqueue
  waittime : q.sched.waittime = (w % maxWaitTime : ℕ)
  /-- Only a `RUNNABLE` process waits. -/
  idle : q.state ≠ .runnable → w = 0

namespace Fit

variable {w : ℕ} {q q' : Proc Level}

theorem zero (hqueue : q.sched.queue = 0) (hwait : q.sched.waittime = 0) : Fit 0 q where
  queue_nonneg := by rw [hqueue]
  queue_lt := by rw [hqueue]; decide
  waittime := by rw [hwait]; rfl
  idle _ := rfl

theorem waittime_zero (h : Fit w q) (hq : q.state ≠ .runnable) : q.sched.waittime = 0 := by
  rw [h.waittime, h.idle hq]
  rfl

theorem start (h : Fit w q) (hq : q.state ≠ .runnable) (hqueue : q'.sched.queue = q.sched.queue)
    (hwait : q'.sched.waittime = q.sched.waittime) : Fit 0 q' where
  queue_nonneg := hqueue ▸ h.queue_nonneg
  queue_lt := hqueue ▸ h.queue_lt
  waittime := by rw [hwait, h.waittime_zero hq]; rfl
  idle _ := rfl

theorem run (h : Fit w q) (hqueue : q'.sched.queue = q.sched.queue)
    (hwait : q'.sched.waittime = 0) :
    Fit 0 q' where
  queue_nonneg := hqueue ▸ h.queue_nonneg
  queue_lt := hqueue ▸ h.queue_lt
  waittime := hwait
  idle _ := rfl

theorem yield (h : Fit w q) (hq : q.state ≠ .runnable) {x : Level} {ticks : BitVec 32}
    (hqueue : x.queue = q.sched.queue) (hwait : x.waittime = q.sched.waittime)
    (hsched : q'.sched = x.yield ticks) : Fit 0 q' := by
  have hnonneg := h.queue_nonneg
  have hlt := h.queue_lt
  refine ⟨?_, ?_, ?_, fun _ => rfl⟩
  · rw [hsched, Level.yield]
    split
    · exact hqueue ▸ Int.le_add_one hnonneg
    · exact hqueue ▸ hnonneg
  · rw [hsched, Level.yield]
    split
    · rename_i hdown
      have := hdown.1
      dsimp only
      omega
    · exact hqueue ▸ hlt
  · rw [hsched]
    exact hwait.trans (h.waittime_zero hq)

/-- Waiting one tick more completes a period exactly when the counter reaches its bound. -/
theorem complete_iff (h : Fit w q) :
    (maxWaitTime : ℤ) ≤ q.sched.waittime + 1 ↔ maxWaitTime ∣ w + 1 := by
  rw [h.waittime]
  simp only [maxWaitTime]
  omega

theorem clock (h : Fit w q) (hq' : q'.state = .runnable) (hsched : q'.sched = q.sched.clock) :
    Fit (w + 1) q' := by
  have hnonneg := h.queue_nonneg
  have hlt := h.queue_lt
  have hwait := h.waittime
  rw [Level.clock] at hsched
  refine ⟨?_, ?_, ?_, fun hne => absurd hq' hne⟩
  · rw [hsched]
    split
    · dsimp only
      omega
    · exact hnonneg
  · rw [hsched]
    split
    · dsimp only
      omega
    · exact hlt
  · rw [hsched]
    split
    · rename_i hfull
      obtain ⟨k, hk⟩ := h.complete_iff.mp hfull
      rw [hk, Nat.mul_mod_right]
      rfl
    · rename_i hpart
      have hnot := mt h.complete_iff.mpr hpart
      simp only [maxWaitTime] at hwait hnot ⊢
      omega

theorem step {t t' : Table Level Unit} {e : Event Empty} {w : Slot → ℕ} {p : Slot}
    (h : Fit (w p) (t.proc p)) (hs : e.run mlfq t = some t') :
    Fit (watch t e t' w p) (t'.proc p) := by
  -- a process that is not `RUNNABLE` both before and after starts to count again
  have hreset : ¬((t.proc p).state = .runnable ∧ (t'.proc p).state = .runnable) →
      watch t e t' w p = 0 := fun hne => if_neg hne
  cases Event.run_slot hs (fun _ x => nomatch x) p with
  | calm hspared hc =>
    cases hc with
    | keep hstate hsched =>
      by_cases hrun : (t.proc p).state = .runnable
      · have hsame : watch t e t' w p = w p := by
          have hne : e ≠ .clock := by
            rintro rfl
            exact hspared hrun
          rw [watch, if_pos ⟨hrun, hstate.trans hrun⟩, Event.clocks_of_ne hne, add_zero]
        rw [hsame]
        exact ⟨hsched ▸ h.queue_nonneg, hsched ▸ h.queue_lt, hsched ▸ h.waittime,
          fun hne => absurd (hstate.trans hrun) hne⟩
      · rw [hreset fun hb => hrun hb.1]
        exact h.start hrun (by rw [hsched]) (by rw [hsched])
    | wake hq hstate hsched =>
      rw [hreset (by simp [hq])]
      exact h.start (by simp [hq]) (by rw [hsched]; rfl) (by rw [hsched]; rfl)
    | leave hq hleft =>
      rw [hreset (by rcases hq with hq | hq <;> simp [hq])]
      have hne : (t.proc p).state ≠ .runnable := by rcases hq with hq | hq <;> simp [hq]
      rcases hleft with ⟨-, hsched⟩ | ⟨-, hsched⟩
      · exact h.start hne (by rw [hsched]) (by rw [hsched])
      · exact zero (by rw [hsched]; rfl) (by rw [hsched]; rfl)
  | sleep hspared hq hq' hsched =>
    rw [hreset (by simp [hq])]
    exact h.start (by simp [hq]) (by rw [hsched]; rfl) (by rw [hsched]; rfl)
  | spare hq hq' hsched | init he hq hq' hsched | child he hroom hq hq' hsched =>
    rw [hreset (by simp [hq])]
    exact zero (by rw [hsched]; rfl) (by rw [hsched]; rfl)
  | parent he hroom hq hq' hsched =>
    rw [hreset (by simp [hq])]
    exact zero (by rw [hsched]; rfl) (by rw [hsched]; exact h.waittime_zero (by simp [hq]))
  | run he hq hq' hsched =>
    rw [hreset (by simp [hq'])]
    exact h.run (by rw [hsched]; rfl) (by rw [hsched]; rfl)
  | yield he hq hq' hsched =>
    rw [hreset (by simp [hq])]
    exact h.yield (by simp [hq]) rfl rfl hsched
  | preempt he hyield hq hq' hsched =>
    rw [hreset (by simp [hq])]
    exact h.yield (by simp [hq]) (Level.timer_queue _ _) (Level.timer_waittime _ _) hsched
  | timer he hyield hq hq' hsched =>
    rw [hreset (by simp [hq])]
    refine h.start (by simp [hq]) ?_ ?_
    · rw [hsched]
      exact Level.timer_queue _ _
    · rw [hsched]
      exact Level.timer_waittime _ _
  | clock he hq hq' hsched =>
    subst he
    rw [show watch t .clock t' w p = w p + 1 from if_pos ⟨hq, hq'⟩]
    exact h.clock hq' hsched

end Fit

theorem fit_reachable {s : Table Level Unit × (Slot → ℕ)} (h : mlfqWatched.Reachable s) (p : Slot) :
    Fit (s.2 p) (s.1.proc p) := by
  refine h.invariant (P := fun s => ∀ p, Fit (s.2 p) (s.1.proc p)) ?_ ?_ p
  · rintro _ rfl p
    exact Fit.zero rfl rfl
  · intro s e s' hfit hs p
    rw [hs.2]
    exact (hfit p).step hs.1

/-- The queue of `p` after an event, as the feedback rule has it: one further down when it yields
with its slice used up, one up at the clock tick that completes a period of waiting. -/
def nextQueue (t : Table Level Unit) (w : Slot → ℕ) (e : Event Empty) (p : Slot) : ℤ :=
  let x := (t.proc p).sched
  match e with
  | .yield r =>
    if p = r ∧ x.slice ≤ x.ticksused ∧ x.queue < nqueue - 1 then x.queue + 1 else x.queue
  | .timer r =>
    if p = r ∧ x.slice ≤ x.ticksused + 1 ∧ x.queue < nqueue - 1 then x.queue + 1 else x.queue
  | .clock =>
    if (t.proc p).state = .runnable ∧ maxWaitTime ∣ w p + 1 then max 0 (x.queue - 1) else x.queue
  | _ => x.queue

def Event.IsSyscall : Event Empty → Prop
  | .fork .. | .sleep .. | .wakeup .. | .kill _ | .exit .. | .wait .. => True
  | _ => False

/-- **The law of the queues**: a process that exists before and after the step is in the queue that
the feedback rule gives it, and a system call changes neither the queue nor the place in it of a
process that runs, the caller among them. -/
def QueueLaw (t : Table Level Unit) (w : Slot → ℕ) (e : Event Empty) (t' : Table Level Unit) :
    Prop :=
  (∀ p, (t.proc p).state ≠ .unused → (t'.proc p).state ≠ .unused →
    (t'.proc p).sched.queue = nextQueue t w e p) ∧
  (e.IsSyscall → ∀ p, (t.proc p).state = .running → (t'.proc p).state ≠ .unused →
    (t'.proc p).sched.queue = (t.proc p).sched.queue ∧
    (t'.proc p).sched.intime = (t.proc p).sched.intime)

/-- The event is not a `fork` that succeeds and finds its caller elsewhere than at the end of queue
0, where `fork` puts it. -/
def LeavesCaller (t : Table Level Unit) : Event Empty → Prop
  | .fork p mem copy => HasRoom t.proc mem ∧ copy = true →
      (t.proc p).sched.queue = 0 ∧ (t.proc p).sched.intime = t.ticks
  | _ => True

section QueueLaw

variable {t t' : Table Level Unit} {w : Slot → ℕ} {e : Event Empty} {p : Slot}

/-- The feedback rule leaves alone a process on which the event has no work. -/
theorem nextQueue_of_spares (h : e.Spares p (t.proc p)) :
    nextQueue t w e p = (t.proc p).sched.queue := by
  cases e with
  | yield r | timer r | clock => exact if_neg fun hr => h hr.1
  | call r x => exact nomatch x
  | _ => rfl

theorem yield_queue {x : Level} (h : x.queue < nqueue) (ticks : BitVec 32) :
    (x.yield ticks).queue =
      if x.slice ≤ x.ticksused ∧ x.queue < nqueue - 1 then x.queue + 1 else x.queue := by
  have hlast : x.queue ≠ nqueue - 1 ↔ x.queue < nqueue - 1 := by omega
  simp only [Level.yield, hlast, and_comm]

/-- A process that does not yield at the interrupt has not used up its slice. -/
theorem timer_keeps {proc : Slot → Proc Level} {x : Level} (h : (x.timer proc).2 = false) :
    ¬x.slice ≤ x.ticksused + 1 := by
  intro hused
  unfold Level.timer at h
  rw [if_pos (by exact hused)] at h
  cases h

theorem clock_queue (h : Fit (w p) (t.proc p)) (hrun : (t.proc p).state = .runnable) :
    (t.proc p).sched.clock.queue = nextQueue t w .clock p := by
  have hnonneg := h.queue_nonneg
  simp only [Level.clock, nextQueue, hrun, true_and, ← h.complete_iff]
  split
  · dsimp only
    omega
  · rfl

theorem queue_eq (h : Fit (w p) (t.proc p)) (hs : e.run mlfq t = some t')
    (hcaller : LeavesCaller t e) (hp : (t.proc p).state ≠ .unused)
    (hp' : (t'.proc p).state ≠ .unused) : (t'.proc p).sched.queue = nextQueue t w e p := by
  cases Event.run_slot hs (fun _ x => nomatch x) p with
  | calm hspared hc =>
    rw [nextQueue_of_spares hspared]
    cases hc with
    | keep hstate hsched => rw [hsched]
    | wake hq hstate hsched =>
      rw [hsched]
      rfl
    | leave hq hleft =>
      rcases hleft with ⟨-, hsched⟩ | ⟨hunused, -⟩
      · rw [hsched]
      · exact absurd hunused hp'
  | sleep hspared hq hq' hsched =>
    rw [nextQueue_of_spares hspared, hsched]
    rfl
  | spare hq | init he hq | child he hroom hq => exact absurd hq hp
  | parent he hroom hq hq' hsched =>
    subst he
    rw [hsched]
    exact (hcaller hroom).1.symm
  | run he hq hq' hsched =>
    subst he
    rw [hsched]
    rfl
  | yield he hq hq' hsched =>
    subst he
    rw [hsched]
    refine (yield_queue h.queue_lt t'.ticks).trans ?_
    simp only [nextQueue, true_and]
  | preempt he hyield hq hq' hsched =>
    subst he
    -- the interrupt's own tick counts before the process yields
    have hlt : ((t.proc p).sched.timer t.proc).1.queue < nqueue :=
      (Level.timer_queue _ _).symm ▸ h.queue_lt
    rw [hsched]
    refine (yield_queue hlt t'.ticks).trans ?_
    simp only [Level.timer_fst, nextQueue, Level.slice, true_and]
  | timer he hyield hq hq' hsched =>
    subst he
    have hkeeps : nextQueue t w (.timer p) p = (t.proc p).sched.queue :=
      if_neg fun hdown => timer_keeps hyield hdown.2.1
    rw [hsched, hkeeps]
    exact Level.timer_queue _ _
  | clock he hq hq' hsched =>
    subst he
    rw [hsched]
    exact clock_queue h hq

/-- Without a harmful `fork` a system call leaves the running processes where they are. -/
theorem syscall_keeps (hs : e.run mlfq t = some t') (hcaller : LeavesCaller t e)
    (he : e.IsSyscall) (hp : (t.proc p).state = .running) (hp' : (t'.proc p).state ≠ .unused) :
    (t'.proc p).sched.queue = (t.proc p).sched.queue ∧
      (t'.proc p).sched.intime = (t.proc p).sched.intime := by
  cases Event.run_slot hs (fun _ x => nomatch x) p with
  | calm hspared hc =>
    cases hc with
    | keep hstate hsched => rw [hsched]; exact ⟨rfl, rfl⟩
    | wake hq => simp [hp] at hq
    | leave hq hleft =>
      rcases hleft with ⟨-, hsched⟩ | ⟨hunused, -⟩
      · rw [hsched]; exact ⟨rfl, rfl⟩
      · exact absurd hunused hp'
  | sleep hspared hq hq' hsched => rw [hsched]; exact ⟨rfl, rfl⟩
  | spare hq | init he' hq | child he' hroom hq => simp [hp] at hq
  | parent he' hroom hq hq' hsched =>
    subst he'
    have hends := hcaller hroom
    have hticks : t'.ticks = t.ticks := (Event.run_ticks hs (by simp)).trans (BitVec.add_zero _)
    rw [hsched]
    exact ⟨hends.1.symm, hticks.trans hends.2.symm⟩
  | run he' | yield he' | preempt he' | timer he' | clock he' => subst he'; exact absurd he id

theorem fork_moves_caller {mem copy : Bool} (hp : (t.proc p).state = .running)
    (hroom : HasRoom t.proc mem ∧ copy = true) :
    ((fork mlfq p mem copy t).proc p).state = .running ∧
      ((fork mlfq p mem copy t).proc p).sched.queue = 0 ∧
      ((fork mlfq p mem copy t).proc p).sched.intime = t.ticks := by
  rcases fork_cases (B := mlfq) mem copy hp with ⟨hfull, -⟩ | ⟨-, n, np, q, -, hne, -, -, heq⟩
  · exact absurd hroom hfull
  · rw [heq]
    simp only [Table.put_proc, Table.setGlob_proc, Function.update_of_ne hne.symm,
      Function.update_self]
    exact ⟨hp, rfl, rfl⟩

/-- **A process gains priority only by aging**, exactly as far as `fork` lets it: in every state
that the kernel reaches, a step obeys the law of the queues if and only if it is not a `fork` that
succeeds and finds its caller elsewhere than at the end of queue 0. -/
theorem queue_law_iff {s : Table Level Unit × (Slot → ℕ)} (h : mlfqWatched.Reachable s)
    (hs : e.run mlfq s.1 = some t') : QueueLaw s.1 s.2 e t' ↔ LeavesCaller s.1 e := by
  constructor
  · intro hlaw
    cases e with
    | fork p mem copy =>
      intro hroom
      obtain ⟨hp, rfl⟩ := ifRunning_some hs
      obtain ⟨hrunning, hqueue, hintime⟩ := fork_moves_caller hp hroom
      obtain ⟨hq, hi⟩ := hlaw.2 trivial p hp (by simp [hrunning])
      exact ⟨hq.symm.trans hqueue, hi.symm.trans hintime⟩
    | _ => trivial
  · intro hcaller
    exact ⟨fun p hp hp' => queue_eq (fit_reachable h p) hs hcaller hp hp',
      fun he p hp hp' => syscall_keeps hs hcaller he hp hp'⟩

def watchedStep (s : Table Level Unit × (Slot → ℕ)) (e : Event Empty) :
    Option (Table Level Unit × (Slot → ℕ)) :=
  (e.run mlfq s.1).map fun t' => (t', watch s.1 e t' s.2)

theorem reachable_watchedStep {s : Table Level Unit × (Slot → ℕ)} {es : List (Event Empty)}
    (h : LTS.runAll watchedStep (.boot .zero (), fun _ => 0) es = some s) :
    mlfqWatched.Reachable s := by
  refine (LTS.Reachable.init (T := mlfqWatched) rfl).runAll (fun s e s' hs => ?_) h
  obtain ⟨t', ht', rfl⟩ := Option.map_eq_some_iff.mp hs
  exact ⟨ht', rfl⟩

/-- The first process uses up its first slice and runs again. -/
def demotedRun : List (Event Empty) := [.userinit, .dispatch, .timer 0, .dispatch]

theorem queue_law_iff_demotedRun :
    ∃ s t', LTS.runAll watchedStep (.boot .zero (), fun _ => 0) demotedRun = some s ∧
      (Event.timer 0).run mlfq s.1 = some t' ∧ QueueLaw s.1 s.2 (.timer 0) t' := by
  obtain ⟨s, hs, hrun⟩ : ∃ s, LTS.runAll watchedStep (.boot .zero (), fun _ => 0) demotedRun =
      some s ∧ ((Event.timer 0).run mlfq s.1).isSome = true := by
    refine Option.map_eq_some_iff.mp ?_
    decide +kernel
  obtain ⟨t', ht'⟩ := Option.isSome_iff_exists.mp hrun
  exact ⟨s, t', hs, ht', (queue_law_iff (reachable_watchedStep hs) ht').mpr trivial⟩

/-- **A process resets its queue by `fork`.** After this run the first process is in queue 1; it
forks, and is in queue 0. -/
theorem fork_resets_queue :
    ∃ s t', LTS.runAll watchedStep (.boot .zero (), fun _ => 0) demotedRun = some s ∧
      mlfqWatched.Reachable s ∧ (Event.fork 0 true true).run mlfq s.1 = some t' ∧
      (s.1.proc 0).sched.queue = 1 ∧ (t'.proc 0).sched.queue = 0 ∧
      ¬QueueLaw s.1 s.2 (.fork 0 true true) t' := by
  have hrun : ((LTS.runAll watchedStep (.boot .zero (), fun _ => 0) demotedRun).bind fun s =>
      ((Event.fork 0 true true).run mlfq s.1).map fun t' =>
        ((s.1.proc 0).state, (s.1.proc 0).sched.queue, (t'.proc 0).state,
          (t'.proc 0).sched.queue)) = some (.running, 1, .running, 0) := by decide +kernel
  obtain ⟨s, hs, hfork⟩ := Option.bind_eq_some_iff.mp hrun
  obtain ⟨t', ht', hvalues⟩ := Option.map_eq_some_iff.mp hfork
  obtain ⟨hstate, hqueue, hstate', hqueue'⟩ : (s.1.proc 0).state = .running ∧
      (s.1.proc 0).sched.queue = 1 ∧ (t'.proc 0).state = .running ∧
      (t'.proc 0).sched.queue = 0 := by simpa using hvalues
  refine ⟨s, t', hs, reachable_watchedStep hs, ht', hqueue, hqueue', fun hlaw => ?_⟩
  have hkept := (hlaw.2 trivial 0 hstate (by simp [hstate'])).1
  rw [hqueue, hqueue'] at hkept
  cases hkept

end QueueLaw

end Xv6.Sched
