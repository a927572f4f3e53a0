import Xv6.Sched.Random

/-!
# The draw of the lottery

A pass of the lottery scheduler draws `rand() % totaltickets + 1`. The generator gives a number
from `0` to `0x7ffffffd`, so the draw is at least one whatever the divisor; it is at most the number
of tickets of the `RUNNABLE` processes if there are any and if their number fits an `int`. Neither
is so in every state: the divisor may be zero, and `settickets` takes any number that is not
negative, so that two processes are enough for the sum to wrap.
-/

namespace Xv6.Sched

theorem doRand_range (ctx : BitVec 64) :
    0 ≤ (doRand ctx).2.toInt ∧ (doRand ctx).2.toInt ≤ 0x7ffffffd := by
  obtain ⟨r, hr, -, hle⟩ := doRand_eq ctx
  rw [hr, BitVec.toInt_ofNat', Int.bmod_eq_of_le (by omega) (by omega)]
  omega

def Lottery.rn (g : Lottery) : BitVec 32 := (doRand g.randNext).2.srem g.totaltickets + 1

/-- The remainder lies between zero and the dividend, whatever the divisor. -/
theorem tmod_range {a : ℤ} (h : 0 ≤ a) (b : ℤ) : 0 ≤ a.tmod b ∧ a.tmod b ≤ a := by
  refine ⟨Int.tmod_nonneg b h, ?_⟩
  obtain ⟨m, rfl⟩ := Int.eq_ofNat_of_zero_le h
  rw [Int.tmod_eq_emod_of_nonneg h, ← Int.emod_abs, Int.abs_eq_natAbs]
  exact_mod_cast Nat.mod_le m b.natAbs

theorem Lottery.rn_toInt (g : Lottery) :
    g.rn.toInt = (doRand g.randNext).2.toInt.tmod g.totaltickets.toInt + 1 := by
  obtain ⟨hlow, hhigh⟩ := doRand_range g.randNext
  have hrange := tmod_range hlow g.totaltickets.toInt
  have hone : (1 : BitVec 32).toInt = 1 := rfl
  rw [Lottery.rn, BitVec.toInt_add, BitVec.toInt_srem, hone]
  exact Int.bmod_eq_of_le (by omega) (by omega)

theorem Lottery.one_le_rn (g : Lottery) : 1 ≤ g.rn.toInt := by
  have hrange := tmod_range (doRand_range g.randNext).1 g.totaltickets.toInt
  rw [g.rn_toInt]
  omega

theorem Lottery.rn_le (g : Lottery) (h : 0 < g.totaltickets.toInt) :
    g.rn.toInt ≤ g.totaltickets.toInt := by
  have hlt := Int.tmod_lt_of_pos (doRand g.randNext).2.toInt h
  rw [g.rn_toInt]
  omega

/-- The tickets of the `RUNNABLE` processes, as an integer. -/
def exactTickets (proc : Slot → Proc (BitVec 32)) : ℤ :=
  ∑ p ∈ Finset.univ.filter fun p => (proc p).state = .runnable, (proc p).sched.toInt

theorem toInt_sum {ι : Type*} (s : Finset ι) (f : ι → BitVec 32) :
    (∑ i ∈ s, f i).toInt = (∑ i ∈ s, (f i).toInt).bmod (2 ^ 32) := by
  classical
  induction s using Finset.induction_on with
  | empty => rfl
  | insert i s hi ih =>
    rw [Finset.sum_insert hi, Finset.sum_insert hi, BitVec.toInt_add, ih, Int.add_bmod_bmod]

variable {t : Table (BitVec 32) Lottery}

/-- **The draw is well defined** in a reachable state exactly if the `RUNNABLE` processes have at
least one ticket and fewer than `2^31`: then the divisor is the exact number of their tickets, and
the draw lies between one and that number. -/
theorem draw_defined (h : lbsSystem.Reachable t) :
    (0 < t.glob.totaltickets.toInt ∧ t.glob.totaltickets.toInt = exactTickets t.proc ∧
      1 ≤ t.glob.rn.toInt ∧ t.glob.rn.toInt ≤ exactTickets t.proc) ↔
    0 < exactTickets t.proc ∧ exactTickets t.proc < 2 ^ 31 := by
  constructor
  · rintro ⟨hpos, hexact, -⟩
    exact ⟨hexact ▸ hpos, hexact ▸ BitVec.toInt_lt⟩
  rintro ⟨hpos, hfit⟩
  have hexact : t.glob.totaltickets.toInt = exactTickets t.proc := by
    have hbooked := (booked_reachable h).trans (runnableTickets_eq t.proc).symm
    rw [hbooked, runnableTickets, toInt_sum]
    exact Int.bmod_eq_of_le (by unfold exactTickets at hpos; omega)
      (by unfold exactTickets at hfit; omega)
  refine ⟨hexact ▸ hpos, hexact, t.glob.one_le_rn, ?_⟩
  rw [← hexact]
  exact t.glob.rn_le (hexact ▸ hpos)

/-- The first process takes seven tickets, forks and yields. -/
def twoRunnable : List (Event (BitVec 32)) :=
  [.userinit, .dispatch, .call 0 7, .fork 0 true true, .yield 0]

/-- The state after a run of events from boot, if they are possible. -/
def lbsRun (es : List (Event (BitVec 32))) : Option (Table (BitVec 32) Lottery) :=
  LTS.runAll (fun t e => e.run lbs t) (.boot 0 ⟨0, 1, 0⟩) es

theorem lbsRun_reachable {es : List (Event (BitVec 32))} (h : lbsRun es = some t) :
    lbsSystem.Reachable t :=
  (LTS.Reachable.init (T := lbsSystem) rfl).runAll (fun _ _ _ h => h) h

theorem draw_defined_twoRunnable :
    ∃ t, lbsRun twoRunnable = some t ∧ t.glob.totaltickets.toInt = 14 ∧ t.glob.rn.toInt ≤ 14 := by
  obtain ⟨t, ht, hexact⟩ : ∃ t, lbsRun twoRunnable = some t ∧ exactTickets t.proc = 14 := by
    refine Option.map_eq_some_iff.mp ?_
    decide +kernel
  obtain ⟨-, htotal, -, hrn⟩ := (draw_defined (lbsRun_reachable ht)).mpr (by omega)
  exact ⟨t, ht, htotal.trans hexact, hexact ▸ hrn⟩

/-- **The divisor is not always a number of tickets.** Once the first process sleeps, before it has
forked, it is zero. If that process takes all the tickets that `settickets` allows and forks twice,
the divisor is negative. -/
theorem draw_not_defined :
    (∃ t, lbsSystem.Reachable t ∧ t.glob.totaltickets.toInt = 0) ∧
      ∃ t, lbsSystem.Reachable t ∧ t.glob.totaltickets.toInt = -2 ∧
        exactTickets t.proc = 2 ^ 32 - 2 := by
  obtain ⟨t, ht, hzero⟩ : ∃ t, lbsRun [.userinit, .dispatch, .sleep 0 .ticks] = some t ∧
      t.glob.totaltickets.toInt = 0 := by
    refine Option.map_eq_some_iff.mp ?_
    decide +kernel
  obtain ⟨u, hu, hwrap⟩ : ∃ t, lbsRun [.userinit, .dispatch, .call 0 0x7fffffff,
      .fork 0 true true, .fork 0 true true] = some t ∧
      (t.glob.totaltickets.toInt, exactTickets t.proc) = (-2, 2 ^ 32 - 2) := by
    refine Option.map_eq_some_iff.mp ?_
    decide +kernel
  obtain ⟨htotal, hexact⟩ := Prod.mk.inj hwrap
  exact ⟨⟨t, lbsRun_reachable ht, hzero⟩, u, lbsRun_reachable hu, htotal, hexact⟩

end Xv6.Sched
