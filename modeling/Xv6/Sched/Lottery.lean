import Xv6.Lib.Counting
import Xv6.Sched.Table

/-!
# The lottery scheduler

With `-DLBS` a process has tickets, and the scheduler draws among the tickets of the `RUNNABLE`
processes. `totaltickets` is kept by hand: every place that makes a process `RUNNABLE` adds its
tickets, and the dispatch subtracts them. The children of `fork` inherit the tickets of their
parent, and `settickets` changes those of the caller. An `int` is 32 bits wide and wraps.
-/

namespace Xv6.Sched

open Function Proc

/-- The globals `totaltickets`, `rand_next` and the `static int ctickets` of `scheduler`. -/
@[ext] structure Lottery where
  totaltickets : BitVec 32
  randNext : BitVec 64
  ctickets : BitVec 32

/-- `do_rand`: the new context, and the result as an `int`. -/
def doRand (ctx : BitVec 64) : BitVec 64 × BitVec 32 :=
  let x : ℤ := (ctx.toNat % 0x7ffffffe : ℕ) + 1
  let hi := x / 127773
  let lo := x % 127773
  let x := 16807 * lo - 2836 * hi
  let x := (if x < 0 then x + 0x7fffffff else x) - 1
  (BitVec.ofInt 64 x, BitVec.ofInt 32 x)

/-- The loop of the scheduler over the slots that are left, after `i` `RUNNABLE` processes, with
the draw `rn` and the tickets `ctickets` counted so far. -/
def draw (proc : Slot → Proc (BitVec 32)) (rn : BitVec 32) :
    List Slot → ℕ → BitVec 32 → Option Slot × BitVec 32
  | [], _, ctickets => (none, ctickets)
  | p :: l, i, ctickets =>
    if (proc p).state = .runnable then
      let ctickets := if i = 0 then (proc p).sched else (proc p).sched + ctickets
      if rn.sle ctickets then (some p, ctickets) else draw proc rn l (i + 1) ctickets
    else draw proc rn l i ctickets

theorem draw_runnable {proc : Slot → Proc (BitVec 32)} {rn : BitVec 32} {l : List Slot} {i : ℕ}
    {c : BitVec 32} {p : Slot} (h : (draw proc rn l i c).1 = some p) :
    (proc p).state = .runnable := by
  induction l generalizing i c with
  | nil => cases h
  | cons q l ih =>
    unfold draw at h
    split at h
    · rename_i hq
      dsimp only at h
      generalize (if i = 0 then (proc q).sched else (proc q).sched + c) = c' at h
      cases hrn : rn.sle c' with
      | true =>
        rw [hrn] at h
        obtain rfl : q = p := Option.some.inj h
        exact hq
      | false =>
        rw [hrn] at h
        exact ih h
    · exact ih h

/-- `sys_settickets(n)` by `p`. -/
def settickets (n : BitVec 32) (p : Slot) (t : Table (BitVec 32) Lottery) :
    Table (BitVec 32) Lottery :=
  if n.slt 0 then t else t.put p { t.proc p with sched := n }

/-- The lottery scheduler; the field of a process is `tickets`. The remainder of a division by zero
is the dividend, as the hardware has it. -/
def lbs : Policy (BitVec 32) Lottery (BitVec 32) where
  alloc _ _ := 0
  free _ := 0
  userinit _ _ := 1
  forkParent _ x := x
  forkChild parent _ := parent
  dispatch _ x := x
  yield _ x := x
  sleep _ x := x
  wake _ x := x
  clock x := x
  timer _ x := (x, true)
  enter x g := { g with totaltickets := g.totaltickets + x }
  leave x g := { g with totaltickets := g.totaltickets - x }
  pick proc g :=
    let r := doRand g.randNext
    let d := draw proc (r.2.srem g.totaltickets + 1) slots 0 g.ctickets
    (d.1, { g with randNext := r.1, ctickets := d.2 })
  call := settickets
  pick_runnable _ _ _ h := draw_runnable h

def lbsSystem : LTS (Table (BitVec 32) Lottery) (Event (BitVec 32)) := system lbs 0 ⟨0, 1, 0⟩

def Proc.counted (q : Proc (BitVec 32)) : BitVec 32 := if q.state = .runnable then q.sched else 0

/-- The tickets of the `RUNNABLE` processes. -/
def runnableTickets (proc : Slot → Proc (BitVec 32)) : BitVec 32 :=
  ∑ p ∈ Finset.univ.filter fun p => (proc p).state = .runnable, (proc p).sched

theorem runnableTickets_eq (proc : Slot → Proc (BitVec 32)) :
    runnableTickets proc = ∑ p, (proc p).counted := by
  unfold runnableTickets counted
  rw [Finset.sum_filter]

@[simp] theorem Proc.counted_runnable {q : Proc (BitVec 32)} (h : q.state = .runnable) :
    q.counted = q.sched := if_pos h

@[simp] theorem Proc.counted_of_ne {q : Proc (BitVec 32)} (h : q.state ≠ .runnable) :
    q.counted = 0 := if_neg h

def Booked (t : Table (BitVec 32) Lottery) : Prop := t.glob.totaltickets = ∑ p, (t.proc p).counted

section Booked

variable {t t' : Table (BitVec 32) Lottery} {p : Slot} {q : Proc (BitVec 32)}

section

variable (h : Booked t)

include h

theorem Booked.put (hproc : t'.proc = update t.proc p q)
    (hg : t'.glob.totaltickets + (t.proc p).counted = t.glob.totaltickets + q.counted) :
    Booked t' := by
  have hsum := Counting.sum_update_add counted t.proc p q
  unfold Booked at h ⊢
  rw [hproc]
  have hsame : t'.glob.totaltickets + (t.proc p).counted =
      ∑ i, (update t.proc p q i).counted + (t.proc p).counted := by
    rw [hg, h, hsum]
  exact add_right_cancel hsame

theorem Booked.idle (hproc : t'.proc = update t.proc p q) (hg : t'.glob = t.glob)
    (hp : (t.proc p).state ≠ .runnable) (hq : q.state ≠ .runnable) : Booked t' :=
  h.put hproc (by rw [hg, counted_of_ne hp, counted_of_ne hq])

theorem Booked.enter (hproc : t'.proc = update t.proc p q) (hg : t'.glob = lbs.enter q.sched t.glob)
    (hp : (t.proc p).state ≠ .runnable) (hq : q.state = .runnable) : Booked t' := by
  refine h.put hproc ?_
  rw [hg, counted_of_ne hp, counted_runnable hq, add_zero]
  rfl

theorem Booked.ready (hp : (t.proc p).state ≠ .runnable) (x : BitVec 32) :
    Booked (t.ready lbs p x) :=
  h.enter rfl rfl hp rfl

theorem Booked.calm (hc : Calm lbs t t') : Booked t' := by
  induction hc with
  | refl t => exact h
  | touch p q hstate hsched =>
    refine h.put rfl ?_
    simp only [Table.put_glob, counted, hstate, hsched]
  | wake p hp => exact h.ready (by simp [hp]) _
  | zombie p status tick hp | free p hp => exact h.idle rfl rfl (by simp [hp]) (by simp)
  | trans _ _ ih1 ih2 => exact ih2 (ih1 h)

theorem Booked.spare (hs : Spare lbs t t') : Booked t' := by
  rcases hs with rfl | ⟨n, p, q, hp, hq, -, rfl⟩
  · exact h
  · exact h.idle rfl rfl (by simp [hp]) (by simp [hq])

/-- The parent of a fork keeps its tickets, and the child enters with as many. -/
theorem Booked.fork (mem copy : Bool) (hp : (t.proc p).state = .running) :
    Booked (fork lbs p mem copy t) := by
  rcases fork_cases (B := lbs) mem copy hp with ⟨-, hspare⟩ | ⟨-, n, np, q, hnp, hne, hq, -, heq⟩
  · exact h.spare hspare
  · rw [heq]
    have hparent : Booked ((t.setNextpid n).put p (t.proc p)) :=
      h.idle rfl rfl (by simp [hp]) (by simp [hp])
    exact hparent.enter rfl rfl (by simp [hne, hnp]) hq

theorem Booked.userinit (hu : userinit lbs t = some t') : Booked t' := by
  obtain ⟨n, p, q, hp, hq, -, rfl⟩ := userinit_cases hu
  exact h.enter rfl rfl (by simp [hp]) hq

/-- The winner's tickets leave the total; the draw itself changes only the random numbers. -/
theorem Booked.dispatch : Booked (dispatch lbs t) := by
  rcases dispatch_cases lbs t with ⟨-, heq⟩ | ⟨p, -, hp, heq⟩
  · rw [heq]
    exact h
  · rw [heq]
    refine h.put rfl ?_
    rw [counted_runnable hp, counted_of_ne (by simp), add_zero]
    exact sub_add_cancel _ _

theorem Booked.timer (hp : (t.proc p).state = .running) : Booked (timer lbs p t) := by
  have htick : Booked (t.put p { t.proc p with sched := (lbs.timer t.proc (t.proc p).sched).1 }) :=
    h.idle rfl rfl (by simp [hp]) (by simp [hp])
  exact htick.ready (by simp [hp]) _

omit h in
theorem Proc.tick_counted (q : Proc (BitVec 32)) : (q.tick lbs).counted = q.counted := by
  unfold Proc.tick
  split
  · rfl
  · rename_i hq
    rw [counted_of_ne (by simp [hq]), counted_of_ne (by simp [hq])]
  · rfl

theorem Booked.clockintr : Booked (clockintr lbs t) := by
  have htick : Booked (t.tick lbs) := by
    unfold Booked at h ⊢
    rw [show (t.tick lbs).glob = t.glob from rfl, h]
    exact Finset.sum_congr rfl fun p _ => (tick_counted (t.proc p)).symm
  exact htick.calm (wakeup_calm none .ticks _)

theorem Booked.settickets (n : BitVec 32) (hp : (t.proc p).state = .running) :
    Booked (settickets n p t) := by
  unfold Sched.settickets
  split
  · exact h
  · exact h.idle rfl rfl (by simp [hp]) (by simp [hp])

theorem Booked.step {e : Event (BitVec 32)} (hs : e.run lbs t = some t') : Booked t' := by
  rcases Event.run_cases hs with ⟨-, hc | ⟨p, c, hp, rfl⟩⟩ | ⟨-, hu⟩ |
    ⟨p, mem, copy, -, hp, rfl⟩ | ⟨-, rfl⟩ |
    ⟨p, -, hp, rfl⟩ | ⟨p, -, hp, rfl⟩ | ⟨-, rfl⟩ | ⟨p, n, -, hp, rfl⟩
  · exact h.calm hc
  · exact h.idle rfl rfl (by simp [hp]) (by simp)
  · exact h.userinit hu
  · exact h.fork mem copy hp
  · exact h.dispatch
  · exact h.ready (by simp [hp]) _
  · exact h.timer hp
  · exact h.clockintr
  · exact h.settickets n hp

end

theorem booked_reachable (h : lbsSystem.Reachable t) : Booked t := by
  refine h.invariant (P := Booked) ?_ fun t e t' ht hs => ht.step hs
  rintro _ rfl
  -- at boot nobody is `RUNNABLE` and the total is zero
  exact (Finset.sum_eq_zero fun p _ => rfl).symm

/-- **Lottery bookkeeping.** In every state reachable from boot, `totaltickets` is, in 32-bit
arithmetic, the sum of the tickets of exactly the `RUNNABLE` processes. -/
theorem totaltickets_eq (h : lbsSystem.Reachable t) :
    t.glob.totaltickets = runnableTickets t.proc := by
  rw [runnableTickets_eq]
  exact booked_reachable h

end Booked

/-- The first process takes seven tickets, forks twice, sleeps and is woken. -/
def lotteryRun : List (Event (BitVec 32)) :=
  [.userinit, .dispatch, .call 0 7, .fork 0 true true, .fork 0 true true, .dispatch, .call 2 5,
    .sleep 0 .ticks, .clock]

theorem totaltickets_eq_lotteryRun :
    ∃ t, LTS.runAll (fun t e => e.run lbs t) (.boot 0 ⟨0, 1, 0⟩) lotteryRun = some t ∧
      t.glob.totaltickets = 14 ∧ runnableTickets t.proc = 14 := by
  obtain ⟨t, ht, htotal⟩ : ∃ t, LTS.runAll (fun t e => e.run lbs t) (.boot 0 ⟨0, 1, 0⟩)
      lotteryRun = some t ∧ t.glob.totaltickets = 14 := by
    have hrun : (LTS.runAll (fun t e => e.run lbs t) (.boot 0 ⟨0, 1, 0⟩) lotteryRun).map
        (fun t => t.glob.totaltickets) = some 14 := by decide +kernel
    exact Option.map_eq_some_iff.mp hrun
  have hreach : lbsSystem.Reachable t :=
    (LTS.Reachable.init (T := lbsSystem) rfl).runAll (fun _ _ _ h => h) ht
  exact ⟨t, ht, htotal, (totaltickets_eq hreach).symm.trans htotal⟩

end Xv6.Sched
