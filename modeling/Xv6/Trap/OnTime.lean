import Xv6.Trap.Alarm

/-!
# Alarms are on time

The alarm of a process is five of its fields: `sigalarm` and `sigreturn` set them, a tick in user
mode moves them on, and no other trap touches them. Along a run of fewer than `2^31` ticks they
are a function of what the program has asked for: the alarm is delivered at the tick that completes
the interval since the latest `sigalarm` or `sigreturn`, and at no other.
-/

namespace Xv6.Alarm

open List

/-- The fields of `struct proc` that make up the alarm. -/
@[ext] structure Clock where
  ticksn : BitVec 32
  ticksp : BitVec 32
  tickspa : BitVec 32
  sigalarm : Bool
  handler : BitVec 64

@[simps] def Proc.clock (p : Proc) : Clock := ⟨p.ticksn, p.ticksp, p.tickspa, p.sigalarm, p.handler⟩

namespace Clock

/-- The alarm that `allocproc` leaves. -/
def zero : Clock := ⟨0, 0, 0, false, 0⟩

/-- `sigalarm(n, handler)`. -/
@[simps] def set (c : Clock) (n : BitVec 32) (handler : BitVec 64) : Clock :=
  ⟨n, c.ticksp, c.ticksp, decide (0 < n.toInt), handler⟩

/-- `sigreturn`. -/
@[simps] def rearm (c : Clock) : Clock :=
  { c with tickspa := c.ticksp, sigalarm := decide (0 < c.ticksn.toInt) }

def Rings (c : Clock) : Prop :=
  0 < c.ticksn.toInt ∧ c.ticksp + 1 - c.tickspa = c.ticksn ∧ c.sigalarm = true

instance (c : Clock) : Decidable c.Rings := inferInstanceAs (Decidable (_ ∧ _))

@[simps] def tick (c : Clock) : Clock :=
  { c with ticksp := c.ticksp + 1, sigalarm := c.sigalarm && !decide c.Rings }

end Clock

/-- The number of ticks that the argument of a `sigalarm` asks for. -/
def Trap.alarmArg (t : Trap) : BitVec 32 := (t.reg .a0).setWidth 32

section Trap

variable {t : Trap} {p : Proc}

theorem delivers_iff_rings : Delivers t p ↔ t.cause = .timer ∧ p.clock.Rings := Iff.rfl

/-- A system call other than `sigalarm` and `sigreturn` leaves the alarm alone. -/
theorem runCall_clock {ret : BitVec 64} {image : Option Image} {c : Call} (h : c ≠ .sigalarm)
    (h' : c ≠ .sigreturn) : (runCall ret image p c).1.clock = p.clock := by
  cases c with
  | sigalarm => exact absurd rfl h
  | sigreturn => exact absurd rfl h'
  | exec => cases image <;> rfl
  | other => rfl
  | unknown => rfl

theorem timerTick_clock : (timerTick p).clock = p.clock.tick := by
  by_cases hdue : Due p.countTick
  · have hrings : p.clock.Rings := hdue
    rw [timerTick, if_pos hdue]
    ext1 <;> simp [hrings]
  · have hrings : ¬p.clock.Rings := hdue
    rw [timerTick, if_neg hdue]
    ext1 <;> simp [hrings]

/-- **What a trap does to the alarm.** -/
theorem usertrap_clock :
    (usertrap t p).clock =
      if t.Calls .sigalarm then p.clock.set t.alarmArg (t.reg .a1)
      else if t.Calls .sigreturn then p.clock.rearm
      else if t.cause = .timer then p.clock.tick
      else p.clock := by
  cases hc : t.cause with
  | ecall ret image =>
    have hcall : ∀ c, t.Calls c ↔ decodeCall (t.reg .a7) = c := fun c => by
      simp [Trap.Calls, hc, Cause.isEcall]
    rw [usertrap_ecall hc, if_neg (by simp : ¬Cause.ecall ret image = .timer)]
    split_ifs with halarm hreturn
    · rw [(hcall _).mp halarm]
      rfl
    · rw [(hcall _).mp hreturn]
      rfl
    · exact runCall_clock (p := advance (save t p)) (mt (hcall _).mpr halarm)
        (mt (hcall _).mpr hreturn)
  | timer =>
    have hcall : ∀ c, ¬t.Calls c := not_calls (by rw [hc]; rfl)
    rw [usertrap_timer hc, if_neg (hcall _), if_neg (hcall _), if_pos rfl]
    exact timerTick_clock (p := save t p)
  | device =>
    have hcall : ∀ c, ¬t.Calls c := not_calls (by rw [hc]; rfl)
    rw [usertrap_device (.inl hc), if_neg (hcall _), if_neg (hcall _), if_neg (by simp)]
    rfl
  | fault =>
    have hcall : ∀ c, ¬t.Calls c := not_calls (by rw [hc]; rfl)
    rw [usertrap_device (.inr hc), if_neg (hcall _), if_neg (hcall _), if_neg (by simp)]
    rfl

/-- A tick sends the process to its handler if the alarm is due, and back otherwise. -/
theorem usertrap_epc_timer (h : t.cause = .timer) :
    (usertrap t p).trapframe.epc = if p.clock.Rings then p.handler else t.sepc := by
  rw [usertrap_timer h]
  by_cases hdue : Due (save t p).countTick
  · have hrings : p.clock.Rings := hdue
    rw [timerTick, if_pos hdue, if_pos hrings]
    rfl
  · have hrings : ¬p.clock.Rings := hdue
    rw [timerTick, if_neg hdue, if_neg hrings]
    rfl

end Trap

/-! ## What a run says about the alarm -/

def ticks (ts : List Trap) : ℕ := ts.countP (·.cause = .timer)

/-- The ticks since the latest `sigalarm` or `sigreturn`. -/
def sinceArmed (ts : List Trap) : ℕ :=
  ts.foldl (fun k t => if t.Calls .sigalarm ∨ t.Calls .sigreturn then 0
    else if t.cause = .timer then k + 1 else k) 0

/-- The interval that the latest `sigalarm` asks for. -/
def interval (ts : List Trap) : BitVec 32 :=
  ts.foldl (fun n t => if t.Calls .sigalarm then t.alarmArg else n) 0

/-- The handler of the latest `sigalarm`. -/
def handlerOf (ts : List Trap) : BitVec 64 :=
  ts.foldl (fun h t => if t.Calls .sigalarm then t.reg .a1 else h) 0

section Snoc

variable (ts : List Trap) (t : Trap)

theorem ticks_snoc : ticks (ts ++ [t]) = ticks ts + if t.cause = .timer then 1 else 0 := by
  simp [ticks, countP_append, countP_singleton]

theorem sinceArmed_snoc : sinceArmed (ts ++ [t]) =
    if t.Calls .sigalarm ∨ t.Calls .sigreturn then 0
    else if t.cause = .timer then sinceArmed ts + 1 else sinceArmed ts := by
  simp [sinceArmed, foldl_append]

theorem interval_snoc :
    interval (ts ++ [t]) = if t.Calls .sigalarm then t.alarmArg else interval ts := by
  simp [interval, foldl_append]

theorem handlerOf_snoc :
    handlerOf (ts ++ [t]) = if t.Calls .sigalarm then t.reg .a1 else handlerOf ts := by
  simp [handlerOf, foldl_append]

theorem usertraps_snoc (p : Proc) : usertraps (ts ++ [t]) p = usertrap t (usertraps ts p) := by
  simp [usertraps, foldl_append]

end Snoc

/-- After a `sigalarm` that asks for no alarm, and before one that does, the interval is not
positive. -/
theorem interval_nonpos (ts : List Trap) {t : Trap} {us : List Trap} (ht : t.Calls .sigalarm)
    (hn : t.alarmArg.toInt ≤ 0) (hus : ∀ u ∈ us, u.Calls .sigalarm → u.alarmArg.toInt ≤ 0) :
    (interval (ts ++ t :: us)).toInt ≤ 0 := by
  induction us using reverseRecOn with
  | nil => rwa [interval_snoc, if_pos ht]
  | append_singleton us u ih =>
    rw [← cons_append, ← append_assoc, interval_snoc]
    split_ifs with hu
    · exact hus u (by simp) hu
    · exact ih fun v hv => hus v (mem_append_left _ hv)

/-- The alarm is what the run says: it is on while the interval is not over. -/
structure OnTime (ts : List Trap) (c : Clock) : Prop where
  ticksn : c.ticksn = interval ts
  handler : c.handler = handlerOf ts
  ticksp : c.ticksp.toNat = ticks ts
  tickspa : c.tickspa.toNat + sinceArmed ts = ticks ts
  sigalarm : c.sigalarm = true ↔ 0 < c.ticksn.toInt ∧ sinceArmed ts < c.ticksn.toInt

namespace OnTime

variable {ts : List Trap} {t : Trap} {c : Clock}

/-- The counters of the source, which do not wrap, tell how many ticks there were. -/
theorem elapsed (h : OnTime ts c) (hts : ticks ts < 2 ^ 31) :
    (c.ticksp - c.tickspa).toInt = sinceArmed ts := by
  have hp := h.ticksp
  have ha := h.tickspa
  rw [BitVec.toInt_eq_toNat_cond, BitVec.toNat_sub]
  split_ifs <;> omega

theorem ticksp_succ (h : OnTime ts c) (hts : ticks ts + 1 < 2 ^ 31) :
    (c.ticksp + 1).toNat = ticks ts + 1 := by
  have hone : (1 : BitVec 32).toNat = 1 := rfl
  rw [BitVec.toNat_add, h.ticksp, hone]
  omega

theorem rings_iff (h : OnTime ts c) (hts : ticks ts + 1 < 2 ^ 31) :
    c.Rings ↔ (sinceArmed ts + 1 : ℤ) = c.ticksn.toInt := by
  have hp := h.ticksp_succ hts
  have ha := h.tickspa
  have hnext : (c.ticksp + 1 - c.tickspa).toInt = sinceArmed ts + 1 := by
    rw [BitVec.toInt_eq_toNat_cond, BitVec.toNat_sub]
    split_ifs <;> omega
  constructor
  · rintro ⟨-, heq, -⟩
    rw [← heq, hnext]
  · intro heq
    refine ⟨by omega, BitVec.eq_of_toInt_eq (hnext.trans heq), h.sigalarm.mpr ⟨?_, ?_⟩⟩
    · omega
    · omega

theorem tick (h : OnTime ts c) (hts : ticks ts + 1 < 2 ^ 31) (ht : t.cause = .timer)
    (hcalls : ∀ a, ¬t.Calls a) : OnTime (ts ++ [t]) c.tick := by
  have hrings := h.rings_iff hts
  refine ⟨?_, ?_, ?_, ?_, ?_⟩
  · rw [interval_snoc, if_neg (hcalls _)]
    exact h.ticksn
  · rw [handlerOf_snoc, if_neg (hcalls _)]
    exact h.handler
  · rw [ticks_snoc, if_pos ht]
    exact h.ticksp_succ hts
  · rw [ticks_snoc, sinceArmed_snoc, if_pos ht, if_neg (by simp [hcalls]), if_pos ht]
    have ha := h.tickspa
    simp only [Clock.tick_tickspa]
    omega
  · -- the alarm goes off exactly when it rings
    rw [sinceArmed_snoc, if_neg (by simp [hcalls]), if_pos ht]
    simp only [Clock.tick_sigalarm, Clock.tick_ticksn, Bool.and_eq_true, Bool.not_eq_true',
      decide_eq_false_iff_not, h.sigalarm, hrings]
    push_cast
    omega

/-- **A trap** keeps the agreement. -/
theorem usertrap {p : Proc} (h : OnTime ts p.clock) (hts : ticks (ts ++ [t]) < 2 ^ 31) :
    OnTime (ts ++ [t]) (usertrap t p).clock := by
  have hticks := ticks_snoc ts t
  rw [usertrap_clock]
  have hquiet : t.Calls .sigalarm ∨ t.Calls .sigreturn → t.cause ≠ .timer := by
    rintro (hc | hc) ht
    · exact not_calls (by rw [ht]; rfl) _ hc
    · exact not_calls (by rw [ht]; rfl) _ hc
  split_ifs with halarm hreturn ht
  · rw [if_neg (hquiet (.inl halarm)), Nat.add_zero] at hticks
    refine ⟨?_, ?_, hticks ▸ h.ticksp, ?_, ?_⟩
    · rw [interval_snoc, if_pos halarm, Clock.set_ticksn]
    · rw [handlerOf_snoc, if_pos halarm, Clock.set_handler]
    · rw [sinceArmed_snoc, if_pos (.inl halarm), hticks]
      exact h.ticksp
    · rw [sinceArmed_snoc, if_pos (.inl halarm)]
      simp
  · rw [if_neg (hquiet (.inr hreturn)), Nat.add_zero] at hticks
    refine ⟨?_, ?_, hticks ▸ h.ticksp, ?_, ?_⟩
    · rw [interval_snoc, if_neg halarm]
      exact h.ticksn
    · rw [handlerOf_snoc, if_neg halarm]
      exact h.handler
    · rw [sinceArmed_snoc, if_pos (.inr hreturn), hticks]
      exact h.ticksp
    · rw [sinceArmed_snoc, if_pos (.inr hreturn)]
      simp
  · rw [if_pos ht] at hticks
    exact h.tick (hticks ▸ hts) ht (not_calls (by rw [ht]; rfl))
  · have hsame : sinceArmed (ts ++ [t]) = sinceArmed ts := by
      rw [sinceArmed_snoc, if_neg (not_or.mpr ⟨halarm, hreturn⟩), if_neg ht]
    rw [if_neg ht, Nat.add_zero] at hticks
    refine ⟨?_, ?_, hticks ▸ h.ticksp, hticks ▸ hsame ▸ h.tickspa, hsame ▸ h.sigalarm⟩
    · rw [interval_snoc, if_neg halarm]
      exact h.ticksn
    · rw [handlerOf_snoc, if_neg halarm]
      exact h.handler

end OnTime

/-- **Every run** of fewer than `2^31` ticks leaves the alarm as the run says. -/
theorem onTime_usertraps {p : Proc} (hp : p.clock = .zero) (ts : List Trap)
    (hts : ticks ts < 2 ^ 31) : OnTime ts (usertraps ts p).clock := by
  induction ts using reverseRecOn with
  | nil =>
    rw [show usertraps [] p = p from rfl, hp]
    exact ⟨rfl, rfl, rfl, rfl, by decide⟩
  | append_singleton ts t ih =>
    rw [usertraps_snoc]
    have hticks := ticks_snoc ts t
    exact (ih (by omega)).usertrap hts

/-- **Alarms are on time.** In any run of a process that was allocated with no alarm, with fewer
than `2^31` ticks in user mode: while the alarm is on, its interval is positive and not over; a trap
delivers it if and only if it is the tick that completes the interval since the latest `sigalarm` or
`sigreturn`; and after a `sigalarm` with a first argument that is not positive, nothing is delivered
until one with a positive argument. -/
theorem alarm_on_time {p : Proc} (hp : p.clock = .zero) (ts : List Trap) (t : Trap)
    (hts : ticks (ts ++ [t]) < 2 ^ 31) :
    let q := usertraps ts p
    (q.sigalarm = true → 0 < q.ticksn.toInt ∧ 0 ≤ (q.ticksp - q.tickspa).toInt ∧
      (q.ticksp - q.tickspa).toInt < q.ticksn.toInt) ∧
    (Delivers t q ↔ t.cause = .timer ∧ (sinceArmed ts + 1 : ℤ) = q.ticksn.toInt) ∧
    (t.cause = .timer → (usertrap t q).trapframe.epc =
      if (sinceArmed ts + 1 : ℤ) = q.ticksn.toInt then handlerOf ts else t.sepc) ∧
    q.ticksn = interval ts ∧
    ∀ ts0 u us, ts = ts0 ++ u :: us → u.Calls .sigalarm → u.alarmArg.toInt ≤ 0 →
      (∀ v ∈ us, v.Calls .sigalarm → v.alarmArg.toInt ≤ 0) → ¬Delivers t q := by
  intro q
  have hticks := ticks_snoc ts t
  have h : OnTime ts q.clock := onTime_usertraps hp ts (by omega)
  have hrings : t.cause = .timer → (q.clock.Rings ↔ (sinceArmed ts + 1 : ℤ) = q.ticksn.toInt) :=
    fun ht => h.rings_iff (by rw [if_pos ht] at hticks; omega)
  have hdelivers : Delivers t q ↔ t.cause = .timer ∧ (sinceArmed ts + 1 : ℤ) = q.ticksn.toInt :=
    delivers_iff_rings.trans (and_congr_right hrings)
  refine ⟨fun hon => ?_, hdelivers, fun ht => ?_, h.ticksn, ?_⟩
  · obtain ⟨hpos, hlt⟩ := h.sigalarm.mp hon
    have helapsed : (q.ticksp - q.tickspa).toInt = sinceArmed ts := h.elapsed (by omega)
    rw [helapsed]
    exact ⟨hpos, Int.natCast_nonneg _, hlt⟩
  · rw [usertrap_epc_timer ht]
    simp only [hrings ht]
    rw [← h.handler]
    rfl
  · rintro ts0 u us rfl hu hn hus hd
    have hnonpos := interval_nonpos ts0 hu hn hus
    rw [← h.ticksn] at hnonpos
    have hpos : 0 < q.clock.ticksn.toInt := hd.2.1
    omega

theorem alarm_on_time_delivered : Delivers (tickAt 0x44) (usertraps [callAt 0x40 23 1 0x100]
    fresh.proc) :=
  (alarm_on_time (p := fresh.proc) rfl [callAt 0x40 23 1 0x100] (tickAt 0x44)
    (by decide +kernel)).2.1.mpr (by decide +kernel)

end Xv6.Alarm
