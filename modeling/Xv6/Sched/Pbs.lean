import Xv6.Sched.Selection

/-!
# The priority scheduler

With `-DPBS` a process has a static priority and a niceness, computed when it goes to sleep and
when it is woken, from the ticks it has slept and run. Three fields carry these: `tickls`, the tick
of the last dispatch, or of the last sleep or wakeup, as the state has it; `tickslp`, the ticks of
the last sleep; `tickrng`, the ticks of the run before that sleep. The current tick that `yield`
stores into `tickrng` is overwritten by the next `sleep` before anybody reads it; to say so, the
value that `yield` stores is a parameter.

The account of a process says what its niceness is to be, from its states and the calls of
`set_priority` and not from the three fields.
-/

namespace Xv6.Sched

open Function BitVec Locking

open Locking (Priority Board better)

structure Pbs extends Priority where
  tickslp : BitVec 32
  tickrng : BitVec 32

/-- The niceness after `tickslp` ticks of sleep and `tickrng` ticks of running. -/
def niceOf (tickslp tickrng : BitVec 32) : BitVec 32 :=
  if tickslp + tickrng = 0 then 0 else (tickslp * 10).sdiv (tickslp + tickrng)

namespace Pbs

/-- What `freeproc` assigns. -/
def zero : Pbs := ⟨⟨0, 0, 0, 0, 0⟩, 0, 0⟩

/-- `allocproc`. -/
def alloc (ticks : BitVec 32) : Pbs := ⟨⟨ticks, 60, 5, 0, 0⟩, 0, 0⟩

def dispatch (ticks : BitVec 32) (x : Pbs) : Pbs :=
  { x with tickls := ticks, nscheduled := x.nscheduled + 1 }

def sleep (ticks : BitVec 32) (x : Pbs) : Pbs :=
  let x := { x with tickrng := ticks - x.tickls, tickls := ticks }
  { x with niceness := niceOf x.tickslp x.tickrng }

/-- `wakeup` and `kill`. -/
def wake (ticks : BitVec 32) (x : Pbs) : Pbs :=
  let x := { x with tickslp := ticks - x.tickls, tickls := ticks }
  { x with niceness := niceOf x.tickslp x.tickrng }

end Pbs

structure SetPriority where
  newPriority : BitVec 32
  pid : BitVec 32

def SetPriority.target (c : SetPriority) (t : Table Pbs Unit) : Option Slot :=
  slots.find? fun p => ((t.proc p).state = .sleeping ∨ (t.proc p).state = .running ∨
    (t.proc p).state = .runnable) ∧ (t.proc p).pid = c.pid

section Policy

variable (stored : BitVec 32 → BitVec 32)

/-- `yield`; the source stores the current tick. -/
def Pbs.yield (ticks : BitVec 32) (x : Pbs) : Pbs := { x with tickrng := stored ticks }

/-- `set_priority` by `r`, with its result. The caller yields if the value becomes lower, whoever's
it is. -/
def setPriority (c : SetPriority) (r : Slot) (t : Table Pbs Unit) : Table Pbs Unit × BitVec 32 :=
  match c.target t with
  | none => (t, -1)
  | some p =>
    let old := (t.proc p).sched.priority
    let t := t.put p { t.proc p with
      sched := { (t.proc p).sched with niceness := 5, priority := c.newPriority } }
    if c.newPriority.slt old then
      (t.put r { t.proc r with
        state := .runnable, sched := (t.proc r).sched.yield stored t.ticks }, old)
    else (t, old)

def pbsBoard (proc : Slot → Proc Pbs) : Board .pbs nproc :=
  ⟨fun p => (proc p).state, fun p => (proc p).sched.toPriority⟩

theorem foldl_better_runnable {b : Locking.Build} {t : Board b nproc} {p : Slot}
    (h : slots.foldl (better t) none = some p) : t.state p = .runnable := by
  rw [foldl_better] at h
  have hmem := List.argmin_mem h
  exact of_decide_eq_true (List.mem_filter.mp hmem).2

def pbsStoring : Policy Pbs Unit SetPriority where
  alloc ticks _ := .alloc ticks
  free _ := .zero
  userinit _ x := x
  forkParent _ x := x
  forkChild _ child := child
  dispatch := Pbs.dispatch
  yield := Pbs.yield stored
  sleep := Pbs.sleep
  wake := Pbs.wake
  clock x := x
  timer _ x := (x, false)
  enter _ g := g
  leave _ g := g
  pick proc g := (slots.foldl (better (pbsBoard proc)) none, g)
  call c r t := (setPriority stored c r t).1
  pick_runnable _ _ _ h := foldl_better_runnable h

end Policy

def pbs : Policy Pbs Unit SetPriority := pbsStoring id

/-- The parts of the table that a scheduler reads, before and after a dispatch. -/
theorem board_dispatch {σ ε : Type} {b : Locking.Build} {B : Policy σ Unit ε} {g : σ → b.Fields}
    (hB : ∀ ticks x, g (B.dispatch ticks x) = b.dispatched ticks (g x)) (t : Table σ Unit) :
    (⟨fun p => ((dispatch B t).proc p).state, fun p => g ((dispatch B t).proc p).sched⟩ :
      Board b nproc) =
    Board.run ⟨fun p => (t.proc p).state, fun p => g (t.proc p).sched⟩ t.ticks
      (B.pick t.proc t.glob).1 := by
  unfold dispatch
  rcases B.pick t.proc t.glob with ⟨_ | p, y⟩
  · rfl
  · refine congrArg₂ Board.mk (funext fun r => ?_) (funext fun r => ?_) <;>
      by_cases hr : r = p <;> simp [Table.put, Table.setGlob, hr, hB]

/-- **The pass with locks refines the dispatch of the runs.** Under MLFQ and PBS, over every table,
a pass of `scheduler` comes to its `swtch` and holds the lock of the process that it has chosen, and
the table is then the one that the runs of the kernel go on with. -/
theorem pass_refines_dispatch (intr intena : Bool) :
    (∀ t : Table Level Unit, ∃ best k,
      Locking.pass (Locking.mlfqBoard t.proc) t.ticks (.idle nproc intr intena) =
        .ok (Locking.mlfqBoard (dispatch mlfq t).proc, best, k) ∧ k.Holding best.toList) ∧
    ∀ t : Table Pbs Unit, ∃ best k,
      Locking.pass (pbsBoard t.proc) t.ticks (.idle nproc intr intena) =
        .ok (pbsBoard (dispatch pbs t).proc, best, k) ∧ k.Holding best.toList := by
  have hslots : slots = List.finRange nproc := by
    unfold slots
    rfl
  refine ⟨fun t => ?_, fun t => ?_⟩
  · have hboard : mlfqBoard (dispatch mlfq t).proc =
        (mlfqBoard t.proc).run t.ticks (bestOf t.proc slots none) :=
      board_dispatch (b := .mlfq) (g := fun x => x) (fun _ _ => rfl) t
    obtain ⟨k, hpass⟩ := pass_eq (mlfqBoard t.proc) t.ticks intr intena
      (bestOf_eq_foldl t.proc _ none).symm
    exact ⟨_, k, hboard ▸ hslots ▸ hpass⟩
  · have hboard : pbsBoard (dispatch pbs t).proc =
        (pbsBoard t.proc).run t.ticks (slots.foldl (better (pbsBoard t.proc)) none) :=
      board_dispatch (b := .pbs) (g := Pbs.toPriority) (fun _ _ => rfl) t
    obtain ⟨k, hpass⟩ := pass_eq (pbsBoard t.proc) t.ticks intr intena rfl
    exact ⟨_, k, hboard ▸ hslots ▸ hpass⟩

/-- The documented niceness after `s` ticks of sleep and `r` ticks of running. -/
def ratio (s r : ℕ) : ℕ := if s + r = 0 then 0 else 10 * s / (s + r)

theorem ratio_le (s r : ℕ) : ratio s r ≤ 10 := by
  unfold ratio
  split
  · exact Nat.zero_le 10
  · calc 10 * s / (s + r) ≤ 10 * (s + r) / (s + r) :=
          Nat.div_le_div_right (Nat.mul_le_mul_left 10 (Nat.le_add_right s r))
      _ = 10 := Nat.mul_div_cancel 10 (by omega)

theorem niceOf_toInt {x y : BitVec 32} {s r : ℕ} (hx : x.toInt = s) (hy : y.toInt = r)
    (hs : 10 * s < 2 ^ 31) (hsum : s + r < 2 ^ 31) : (niceOf x y).toInt = ratio s r := by
  have hadd : (x + y).toInt = (s + r : ℕ) := by
    rw [toInt_add, hx, hy]
    push_cast
    exact Int.bmod_eq_of_le (by omega) (by omega)
  have hmul : (x * 10).toInt = (10 * s : ℕ) := by
    rw [toInt_mul, hx, show (10 : BitVec 32).toInt = 10 from rfl]
    push_cast
    rw [mul_comm]
    exact Int.bmod_eq_of_le (by omega) (by omega)
  have hzero : x + y = 0 ↔ s + r = 0 := by
    rw [← toInt_inj, hadd, show (0 : BitVec 32).toInt = 0 from rfl]
    omega
  unfold niceOf ratio
  by_cases h : s + r = 0
  · rw [if_pos (hzero.mpr h), if_pos h]
    rfl
  · have hdiv : 10 * s / (s + r) ≤ 10 * s := Nat.div_le_self _ _
    rw [if_neg (mt hzero.mp h), if_neg h, toInt_sdiv, hadd, hmul,
      Int.tdiv_eq_ediv_of_nonneg (Int.natCast_nonneg _), ← Int.natCast_ediv]
    generalize 10 * s / (s + r) = d at hdiv ⊢
    exact Int.bmod_eq_of_le (by omega) (by omega)

theorem ticks_sub_toInt {x : BitVec 32} {now m : ℕ} (hx : x.toInt = m) (h : m ≤ now)
    (hnow : 10 * now < 2 ^ 31) : (BitVec.ofNat 32 now - x).toInt = (now - m : ℕ) := by
  rw [toInt_sub, hx, toInt_ofNat', Int.bmod_sub_bmod, ← Int.ofNat_sub h]
  exact Int.bmod_eq_of_le (by omega) (by omega)

theorem ofNat_tick_toInt {now : ℕ} (hnow : 10 * now < 2 ^ 31) :
    (BitVec.ofNat 32 now).toInt = now := by
  rw [toInt_ofNat']
  exact Int.bmod_eq_of_le (by omega) (by omega)

structure Account where
  /-- The tick of the last dispatch. -/
  dispatched : ℕ
  /-- The tick at which the last sleep began. -/
  slept : ℕ
  /-- The ticks of the last sleep that has ended. -/
  asleep : ℕ
  /-- The niceness. -/
  nice : ℕ
  /-- The process has not been to sleep since its creation, or since `set_priority`. -/
  fresh : Bool

/-- The account after a step that takes the process from one state to another, at the tick `now`;
`reset` says that `set_priority` has been called for it. -/
def Account.next (now : ℕ) (reset : Bool) (st st' : ProcState) (a : Account) : Account :=
  if reset then { a with nice := 5, fresh := true }
  else
    match st, st' with
    | .unused, .runnable => ⟨0, 0, 0, 5, true⟩
    | .runnable, .running => { a with dispatched := now }
    | .running, .sleeping =>
      { a with slept := now, nice := ratio a.asleep (now - a.dispatched), fresh := false }
    | .sleeping, .runnable =>
      { a with
        asleep := now - a.slept, nice := ratio (now - a.slept) (a.slept - a.dispatched)
        fresh := false }
    | _, _ => a

/-- The event calls `set_priority` for the process `p`. -/
def Resets (t : Table Pbs Unit) (p : Slot) : Event SetPriority → Bool
  | .call _ c => c.target t = some p
  | _ => false

/-- The table, the number of clock ticks since boot, and the accounts. -/
structure PbsState where
  table : Table Pbs Unit
  now : ℕ
  account : Slot → Account

def PbsState.boot : PbsState := ⟨.boot .zero (), 0, fun _ => ⟨0, 0, 0, 0, false⟩⟩

def PbsState.next (stored : BitVec 32 → BitVec 32) (s : PbsState) (e : Event SetPriority) :
    Option PbsState :=
  (e.run (pbsStoring stored) s.table).map fun t' =>
    { table := t'
      now := s.now + e.clocks
      account := fun p => (s.account p).next (s.now + e.clocks) (Resets s.table p e)
        (s.table.proc p).state (t'.proc p).state }

def pbsWatched (stored : BitVec 32 → BitVec 32) : LTS PbsState (Event SetPriority) where
  init s := s = .boot
  step s e s' := s.next stored e = some s'

variable {stored : BitVec 32 → BitVec 32} {e : Event SetPriority} {s : PbsState}

theorem PbsState.next_some {s' : PbsState} (h : s.next stored e = some s') :
    e.run (pbsStoring stored) s.table = some s'.table ∧ s'.now = s.now + e.clocks ∧
      ∀ p, s'.account p = (s.account p).next s'.now (Resets s.table p e) (s.table.proc p).state
        (s'.table.proc p).state := by
  obtain ⟨t', ht', rfl⟩ := Option.map_eq_some_iff.mp h
  exact ⟨ht', rfl, fun _ => rfl⟩

/-- How the fields of a process and its account agree at the tick `now`. What `tickls` and `tickrng`
hold depends on the state, and of a `RUNNABLE` process they hold nothing. -/
structure Kept (now : ℕ) (q : Proc Pbs) (a : Account) : Prop where
  nice : q.state ≠ .unused → q.sched.niceness.toInt = a.nice
  nice_le : a.nice ≤ 10
  fresh : a.fresh = true → a.nice = 5
  asleep : q.state ≠ .unused → q.sched.tickslp.toInt = a.asleep
  asleep_le : a.asleep ≤ now
  running : q.state = .running → q.sched.tickls.toInt = a.dispatched
  dispatched_le : a.dispatched ≤ now
  sleeping : q.state = .sleeping → q.sched.tickls.toInt = a.slept ∧
    q.sched.tickrng.toInt = (a.slept - a.dispatched : ℕ) ∧ a.dispatched ≤ a.slept
  slept_le : a.slept ≤ now

namespace Kept

variable {now now' : ℕ} {q q' : Proc Pbs} {a : Account} {stored : BitVec 32 → BitVec 32}
  (h : Kept now q a)

include h

/-- A step that leaves the account alone, of a process that does not start to run or to sleep. -/
theorem keep (hnow : now ≤ now') (hlive : q'.state ≠ .unused → q.state ≠ .unused)
    (hrun : q'.state = .running → q.state = .running)
    (hsleep : q'.state = .sleeping → q.state = .sleeping)
    (hsched : q'.state ≠ .unused → q'.sched = q.sched) : Kept now' q' a where
  nice hq := by rw [hsched hq, h.nice (hlive hq)]
  nice_le := h.nice_le
  fresh := h.fresh
  asleep hq := by rw [hsched hq, h.asleep (hlive hq)]
  asleep_le := h.asleep_le.trans hnow
  running hq := by rw [hsched (by simp [hq]), h.running (hrun hq)]
  dispatched_le := h.dispatched_le.trans hnow
  sleeping hq := by
    rw [hsched (by simp [hq])]
    exact h.sleeping (hsleep hq)
  slept_le := h.slept_le.trans hnow

omit h in
theorem born (hq : q'.state = .runnable) {ticks : BitVec 32} (hsched : q'.sched = .alloc ticks) :
    Kept now' q' ⟨0, 0, 0, 5, true⟩ where
  nice _ := by rw [hsched]; rfl
  nice_le := Nat.le_add_right 5 5
  fresh _ := rfl
  asleep _ := by rw [hsched]; rfl
  asleep_le := Nat.zero_le now'
  running h := by simp [hq] at h
  dispatched_le := Nat.zero_le now'
  sleeping h := by simp [hq] at h
  slept_le := Nat.zero_le now'

theorem run (hnow : now ≤ now') (hfit : 10 * now' < 2 ^ 31) (hq : q.state = .runnable)
    (hq' : q'.state = .running) (hsched : q'.sched = q.sched.dispatch (.ofNat 32 now')) :
    Kept now' q' { a with dispatched := now' } where
  nice _ := by
    rw [hsched]
    exact h.nice (by simp [hq])
  nice_le := h.nice_le
  fresh := h.fresh
  asleep _ := by
    rw [hsched]
    exact h.asleep (by simp [hq])
  asleep_le := h.asleep_le.trans hnow
  running _ := by
    rw [hsched]
    exact ofNat_tick_toInt hfit
  dispatched_le := le_rfl
  sleeping hsleep := by simp [hq'] at hsleep
  slept_le := h.slept_le.trans hnow

theorem sleep (hnow : now ≤ now') (hfit : 10 * now' < 2 ^ 31) (hq : q.state = .running)
    (hq' : q'.state = .sleeping) (hsched : q'.sched = q.sched.sleep (.ofNat 32 now')) :
    Kept now' q'
      { a with slept := now', nice := ratio a.asleep (now' - a.dispatched), fresh := false } := by
  have hdisp := h.dispatched_le.trans hnow
  have hasleep := h.asleep_le.trans hnow
  have hrng := ticks_sub_toInt (h.running hq) hdisp hfit
  have hslp := h.asleep (by simp [hq])
  refine ⟨fun _ => ?_, ratio_le _ _, Bool.noConfusion, fun _ => ?_, hasleep,
    fun hr => ?_, hdisp, fun _ => ⟨?_, ?_, hdisp⟩, le_rfl⟩
  · rw [hsched]
    exact niceOf_toInt hslp hrng (by omega) (by omega)
  · rw [hsched]
    exact hslp
  · simp [hq'] at hr
  · rw [hsched]
    exact ofNat_tick_toInt hfit
  · rw [hsched]
    exact hrng

theorem wake (hnow : now ≤ now') (hfit : 10 * now' < 2 ^ 31) (hq : q.state = .sleeping)
    (hq' : q'.state = .runnable) (hsched : q'.sched = q.sched.wake (.ofNat 32 now')) :
    Kept now' q'
      { a with
        asleep := now' - a.slept, nice := ratio (now' - a.slept) (a.slept - a.dispatched)
        fresh := false } := by
  obtain ⟨hls, hrng, hdisp⟩ := h.sleeping hq
  have hslept := h.slept_le.trans hnow
  have hslp := ticks_sub_toInt hls hslept hfit
  refine ⟨fun _ => ?_, ratio_le _ _, Bool.noConfusion, fun _ => ?_, Nat.sub_le _ _,
    fun hr => ?_, h.dispatched_le.trans hnow, fun hs => ?_, hslept⟩
  · rw [hsched]
    exact niceOf_toInt hslp hrng (by omega) (by omega)
  · rw [hsched]
    exact hslp
  · simp [hq'] at hr
  · simp [hq'] at hs

/-- A process yields: what it stores is not read before it is stored again. -/
theorem yield (hnow : now ≤ now') (hq : q.state = .running) (hq' : q'.state = .runnable)
    {ticks : BitVec 32} (hsched : q'.sched = q.sched.yield stored ticks) : Kept now' q' a where
  nice _ := by
    rw [hsched]
    exact h.nice (by simp [hq])
  nice_le := h.nice_le
  fresh := h.fresh
  asleep _ := by
    rw [hsched]
    exact h.asleep (by simp [hq])
  asleep_le := h.asleep_le.trans hnow
  running hr := by simp [hq'] at hr
  dispatched_le := h.dispatched_le.trans hnow
  sleeping hs := by simp [hq'] at hs
  slept_le := h.slept_le.trans hnow

theorem reset (hstate : q'.state = q.state) {c : BitVec 32}
    (hsched : q'.sched = { q.sched with niceness := 5, priority := c }) :
    Kept now q' { a with nice := 5, fresh := true } where
  nice _ := by rw [hsched]; rfl
  nice_le := Nat.le_add_right 5 5
  fresh _ := rfl
  asleep hq := by
    rw [hsched]
    exact h.asleep (hstate ▸ hq)
  asleep_le := h.asleep_le
  running hq := by
    rw [hsched]
    exact h.running (hstate ▸ hq)
  dispatched_le := h.dispatched_le
  sleeping hq := by
    rw [hsched]
    exact h.sleeping (hstate ▸ hq)
  slept_le := h.slept_le

end Kept

theorem Account.next_self (now : ℕ) (st : ProcState) (a : Account) :
    a.next now false st st = a := by
  cases st <;> rfl

section Step

variable {now now' : ℕ} {stored : BitVec 32 → BitVec 32}

theorem Kept.move {proc : Slot → Proc Pbs} {p : Slot} {q q' : Proc Pbs} {a : Account}
    (h : Kept now q a) (hm : SlotMove (pbsStoring stored) proc (.ofNat 32 now') e p q q')
    (hnow : now ≤ now') (hfit : 10 * now' < 2 ^ 31) :
    Kept now' q' (a.next now' false q.state q'.state) := by
  cases hm with
  | calm _ hc =>
    cases hc with
    | keep hstate hsched =>
      rw [hstate, Account.next_self]
      exact h.keep hnow (by simp [hstate]) (by simp [hstate]) (by simp [hstate]) fun _ => hsched
    | wake hq hq' hsched =>
      rw [hq, hq']
      exact h.wake hnow hfit hq hq' hsched
    | leave hq hleft =>
      -- an exit keeps the fields, and a slot that is free has no account
      have hnext : a.next now' false q.state q'.state = a := by
        rcases hq with hq | hq <;> rcases hleft with ⟨hq', -⟩ | ⟨hq', -⟩ <;> rw [hq, hq'] <;> rfl
      rw [hnext]
      rcases hleft with ⟨hq', hsched⟩ | ⟨hq', hsched⟩
      · exact h.keep hnow (by rcases hq with hq | hq <;> simp [hq]) (by simp [hq']) (by simp [hq'])
          fun _ => hsched
      · exact h.keep hnow (by simp [hq']) (by simp [hq']) (by simp [hq']) (by simp [hq'])
  | sleep _ hq hq' hsched =>
    rw [hq, hq']
    exact h.sleep hnow hfit hq hq' hsched
  | spare hq hq' hsched =>
    rw [hq, hq', Account.next_self]
    exact h.keep hnow (by simp [hq']) (by simp [hq']) (by simp [hq']) (by simp [hq'])
  | init _ hq hq' hsched | child _ _ hq hq' hsched =>
    rw [hq, hq']
    exact born hq' hsched
  | parent _ _ hq hq' hsched | timer _ _ hq hq' hsched =>
    rw [hq, hq', Account.next_self]
    exact h.keep hnow (by simp [hq]) (by simp [hq]) (by simp [hq']) fun _ => hsched
  | run _ hq hq' hsched =>
    rw [hq, hq']
    exact h.run hnow hfit hq hq' hsched
  | yield _ hq hq' hsched =>
    rw [hq, hq']
    exact h.yield hnow hq hq' hsched
  | preempt _ hyield => cases hyield
  | clock _ hq hq' hsched =>
    rw [hq, hq', Account.next_self]
    exact h.keep hnow (by simp [hq]) (by simp [hq']) (by simp [hq']) fun _ => hsched

/-- The account of the process that `set_priority` finds, and of the others. -/
theorem Kept.setPriority {t : Table Pbs Unit} {c : SetPriority} {r : Slot} {a : Slot → Account}
    (h : ∀ p, Kept now (t.proc p) (a p)) (hr : (t.proc r).state = .running) (p : Slot) :
    Kept now ((setPriority stored c r t).1.proc p)
      ((a p).next now (c.target t = some p) (t.proc p).state
        ((setPriority stored c r t).1.proc p).state) := by
  unfold Sched.setPriority
  cases htarget : c.target t with
  | none =>
    rw [decide_eq_false (by simp), Account.next_self]
    exact h p
  | some m =>
    dsimp only
    generalize hq : ({ t.proc m with sched := { (t.proc m).sched with
      niceness := 5, priority := c.newPriority } } : Proc Pbs) = q
    have hstate : q.state = (t.proc m).state := by rw [← hq]
    -- first the priority is set, then the caller may yield
    have hset (p : Slot) : Kept now ((t.put m q).proc p)
        (if p = m then { a p with nice := 5, fresh := true } else a p) := by
      by_cases hp : p = m
      · subst hp
        rw [if_pos rfl, Table.put_proc, update_self]
        exact (h p).reset hstate (by rw [← hq])
      · rw [if_neg hp, Table.put_proc, update_of_ne hp]
        exact h p
    have hsame (p : Slot) : ((t.put m q).proc p).state = (t.proc p).state := by
      by_cases hp : p = m
      · subst hp
        rw [Table.put_proc, update_self, hstate]
      · rw [Table.put_proc, update_of_ne hp]
    have hnext (st' : ProcState) (hst' : st' = (t.proc p).state ∨
        (t.proc p).state = .running ∧ st' = .runnable) :
        (a p).next now (some m = some p) (t.proc p).state st' =
          if p = m then { a p with nice := 5, fresh := true } else a p := by
      by_cases hp : p = m
      · subst hp
        rw [if_pos rfl]
        simp [Account.next]
      · rw [if_neg hp, decide_eq_false (by simpa using fun h => hp h.symm)]
        rcases hst' with rfl | ⟨hrun, rfl⟩
        · exact Account.next_self _ _ _
        · rw [hrun]
          rfl
    split
    · by_cases hp : p = r
      · subst hp
        rw [Table.put_proc, update_self, hnext _ (.inr ⟨hr, rfl⟩)]
        exact (hset p).yield le_rfl ((hsame p).trans hr) rfl rfl
      · rw [Table.put_proc, update_of_ne hp, hnext _ (.inl (hsame p))]
        exact hset p
    · rw [hnext _ (.inl (hsame p))]
      exact hset p

end Step

/-- The ticks are those of the clock, and the accounts are right as long as ten times the ticks fit
an `int`. -/
structure PbsInv (s : PbsState) : Prop where
  ticks : s.table.ticks = .ofNat 32 s.now
  kept : 10 * s.now < 2 ^ 31 → ∀ p, Kept s.now (s.table.proc p) (s.account p)

theorem setPriority_ticks (stored : BitVec 32 → BitVec 32) (c : SetPriority) (r : Slot)
    (t : Table Pbs Unit) : (setPriority stored c r t).1.ticks = t.ticks := by
  unfold setPriority
  split
  · rfl
  · dsimp only
    split
    · rfl
    · rfl

theorem setPriority_state (stored : BitVec 32 → BitVec 32) (c : SetPriority) (r : Slot)
    (t : Table Pbs Unit) (p : Slot) :
    ((setPriority stored c r t).1.proc p).state = (t.proc p).state ∨
      p = r ∧ ((setPriority stored c r t).1.proc p).state = .runnable := by
  unfold setPriority
  split
  · exact .inl rfl
  · rename_i m _
    have hset : ((t.put m { t.proc m with sched := { (t.proc m).sched with
        niceness := 5, priority := c.newPriority } }).proc p).state = (t.proc p).state := by
      by_cases hp : p = m
      · simp [hp]
      · simp [hp]
    dsimp only
    split
    · by_cases hp : p = r
      · refine .inr ⟨hp, ?_⟩
        simp [hp]
      · refine .inl (Eq.trans ?_ hset)
        rw [Table.put_proc, update_of_ne hp]
    · exact .inl hset

theorem PbsInv.step {s' : PbsState} (h : PbsInv s) (hs : (pbsWatched stored).step s e s') :
    PbsInv s' := by
  obtain ⟨hrun, hnow, haccount⟩ := PbsState.next_some hs
  by_cases hcall : ∃ r c, e = .call r c
  · obtain ⟨r, c, rfl⟩ := hcall
    obtain ⟨hr, htable⟩ := ifRunning_some hrun
    have hsame : s'.now = s.now := hnow
    refine ⟨?_, fun hfit p => ?_⟩
    · rw [htable, hsame, ← h.ticks]
      exact setPriority_ticks stored c r s.table
    · rw [haccount, htable, hsame]
      exact Kept.setPriority (h.kept (hsame ▸ hfit)) hr p
  · have hne : ∀ r c, e ≠ .call r c := fun r c he => hcall ⟨r, c, he⟩
    have hticks : s'.table.ticks = .ofNat 32 s'.now := by
      rw [Event.run_ticks hrun hne, h.ticks, hnow, ofNat_add]
    refine ⟨hticks, fun hfit p => ?_⟩
    have hreset : Resets s.table p e = false := by
      cases e with
      | call r c => exact absurd rfl (hne r c)
      | _ => rfl
    have hmove := Event.run_slot hrun hne p
    rw [hticks] at hmove
    rw [haccount, hreset]
    exact (h.kept (by omega) p).move hmove (by omega) hfit

theorem pbsInv_reachable (h : (pbsWatched stored).Reachable s) : PbsInv s := by
  refine h.invariant (P := PbsInv) ?_ fun s e s' hs hstep => hs.step hstep
  rintro _ rfl
  refine ⟨rfl, fun _ p => ⟨fun hp => absurd rfl hp, Nat.zero_le 10, Bool.noConfusion,
    fun hp => absurd rfl hp, le_rfl, ?_, le_rfl, ?_, le_rfl⟩⟩
  · intro hp
    cases hp
  · intro hp
    cases hp

/-- **The niceness is the documented ratio** as long as ten times the number of ticks fits an `int`,
whatever `yield` stores into `tickrng`: it is what the account says and between `0` and `10`; `5`
from the creation of the process, or from a `set_priority` for it, to its next sleep; and on a
wakeup ten times the ticks of the sleep that ends over those and the ticks from the last dispatch to
that sleep, rounded down. -/
theorem niceness_is_ratio (stored : BitVec 32 → BitVec 32) {s : PbsState}
    (h : (pbsWatched stored).Reachable s) (hfit : 10 * s.now < 2 ^ 31) (p : Slot) :
    ((s.table.proc p).state ≠ .unused →
      0 ≤ (s.table.proc p).sched.niceness.toInt ∧ (s.table.proc p).sched.niceness.toInt ≤ 10 ∧
      (s.table.proc p).sched.niceness.toInt = (s.account p).nice ∧
      ((s.account p).fresh = true → (s.table.proc p).sched.niceness = 5)) ∧
    ∀ e s', (pbsWatched stored).step s e s' → 10 * s'.now < 2 ^ 31 →
      (s.table.proc p).state = .sleeping → (s'.table.proc p).state = .runnable →
      (s'.table.proc p).sched.niceness.toInt =
        ratio (s'.now - (s.account p).slept) ((s.account p).slept - (s.account p).dispatched) := by
  have hkept := (pbsInv_reachable h).kept hfit p
  refine ⟨fun hlive => ?_, fun e s' hs hfit' hq hq' => ?_⟩
  · have hnice := hkept.nice hlive
    have hle := hkept.nice_le
    refine ⟨by omega, by omega, hnice, fun hfresh => ?_⟩
    rw [hkept.fresh hfresh] at hnice
    exact eq_of_toInt_eq hnice
  · obtain ⟨hrun, -, haccount⟩ := PbsState.next_some hs
    have hkept' := (pbsInv_reachable (h.step hs)).kept hfit' p
    have hnice := hkept'.nice (by simp [hq'])
    -- `set_priority` wakes nobody
    have hreset : Resets s.table p e = false := by
      cases e with
      | call r c =>
        obtain ⟨hr, htable⟩ := ifRunning_some hrun
        rcases setPriority_state stored c r s.table p with hstate | ⟨rfl, -⟩
        · rw [htable] at hq'
          cases hq.symm.trans (hstate.symm.trans hq')
        · cases hq.symm.trans hr
      | _ => rfl
    rw [hnice, haccount, hreset, hq, hq']
    rfl

/-- The first process runs for three ticks, sleeps for one and is woken. -/
def sleepRun : List (Event SetPriority) :=
  [.userinit, .dispatch, .clock, .clock, .clock, .sleep 0 (.other 7), .clock]

theorem niceness_is_ratio_sleepRun :
    ∃ s s', LTS.runAll (PbsState.next id) .boot sleepRun = some s ∧
      s.next id (.wakeup none (.other 7)) = some s' ∧
      (s'.table.proc 0).sched.niceness.toInt = 2 := by
  obtain ⟨s, s', hs, hs', hfacts⟩ : ∃ s s', LTS.runAll (PbsState.next id) .boot sleepRun = some s ∧
      s.next id (.wakeup none (.other 7)) = some s' ∧
      (s.now = 4 ∧ s'.now = 4 ∧ (s.table.proc 0).state = .sleeping ∧
        (s'.table.proc 0).state = .runnable ∧ (s.account 0).slept = 3 ∧
        (s.account 0).dispatched = 0) := by
    have hrun : ((LTS.runAll (PbsState.next id) .boot sleepRun).bind fun s =>
        (s.next id (.wakeup none (.other 7))).map fun s' => decide (s.now = 4 ∧ s'.now = 4 ∧
          (s.table.proc 0).state = .sleeping ∧ (s'.table.proc 0).state = .runnable ∧
          (s.account 0).slept = 3 ∧ (s.account 0).dispatched = 0)) = some true := by
      decide +kernel
    obtain ⟨s, hs, hnext⟩ := Option.bind_eq_some_iff.mp hrun
    obtain ⟨s', hs', hfacts⟩ := Option.map_eq_some_iff.mp hnext
    exact ⟨s, s', hs, hs', of_decide_eq_true hfacts⟩
  obtain ⟨hnow, hnow', hq, hq', hslept, hdisp⟩ := hfacts
  have hreach : (pbsWatched id).Reachable s :=
    (LTS.Reachable.init (T := pbsWatched id) rfl).runAll (fun _ _ _ h => h) hs
  have hratio := (niceness_is_ratio id hreach (by omega) 0).2 _ s' hs' (by omega) hq hq'
  rw [hnow', hslept, hdisp] at hratio
  exact ⟨s, s', hs, hs', hratio⟩

end Xv6.Sched
