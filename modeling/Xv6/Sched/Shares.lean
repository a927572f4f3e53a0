import Mathlib.Algebra.BigOperators.Ring.Finset
import Mathlib.Data.Int.Interval
import Mathlib.Data.Set.Card
import Xv6.Lib.Shares
import Xv6.Sched.Draw

/-!
# The shares of the lottery

How the draw of a pass decides who runs. The loop of `scheduler` counts the tickets of the
`RUNNABLE` processes up from the first slot and stops at the first total that reaches the draw; if
the tickets fit an `int`, that deals out the numbers from one to their sum along the table, to each
process as many as it has tickets.
-/

namespace Xv6.Sched

open Function List

/-- The lottery scheduler with `rn` in place of the draw. -/
def lbsDrawing (rn : BitVec 32) : Policy (BitVec 32) Lottery (BitVec 32) :=
  { lbs with
    pick := fun proc g =>
      let d := draw proc rn slots 0 g.ctickets
      (d.1, { g with ctickets := d.2 })
    pick_runnable := fun _ _ _ h => draw_runnable h }

/-- The `RUNNABLE` processes of a part of the table. -/
def candidates (proc : Slot → Proc (BitVec 32)) (l : List Slot) : List Slot :=
  l.filter fun p => (proc p).state = .runnable

def share (proc : Slot → Proc (BitVec 32)) (p : Slot) : ℕ := (proc p).sched.toInt.toNat

section Pick

variable {proc : Slot → Proc (BitVec 32)} {l : List Slot} {p q : Slot}

theorem mem_candidates : p ∈ candidates proc l ↔ p ∈ l ∧ (proc p).state = .runnable := by
  rw [candidates, mem_filter, decide_eq_true_iff]

theorem candidates_cons_pos (h : (proc q).state = .runnable) :
    candidates proc (q :: l) = q :: candidates proc l :=
  filter_cons_of_pos (decide_eq_true h)

theorem candidates_cons_neg (h : (proc q).state ≠ .runnable) :
    candidates proc (q :: l) = candidates proc l :=
  filter_cons_of_neg (by rwa [decide_eq_true_iff])

/-- **The loop deals out the numbers along the table.** `a` is the number of tickets counted so
far; the count starts afresh at the first `RUNNABLE` slot, whatever an earlier pass has left in
`ctickets`. -/
theorem draw_eq_pick {rn : BitVec 32} {i : ℕ} {c : BitVec 32} {a : ℕ}
    (hnonneg : ∀ p ∈ candidates proc l, 0 ≤ (proc p).sched.toInt)
    (hfit : a + ((candidates proc l).map (share proc)).sum < 2 ^ 31)
    (hcount : (if i = 0 then 0 else c).toInt = a) (hrn : a < rn.toInt) :
    (draw proc rn l i c).1 = Shares.pick (share proc) (candidates proc l) (rn.toInt.toNat - a) := by
  induction l generalizing i c a with
  | nil => rfl
  | cons q l ih =>
    unfold draw
    by_cases hq : (proc q).state = .runnable
    · rw [candidates_cons_pos hq] at hnonneg hfit ⊢
      rw [map_cons, sum_cons] at hfit
      rw [if_pos hq]
      dsimp only
      have hshare : (share proc q : ℤ) = (proc q).sched.toInt :=
        Int.toNat_of_nonneg (hnonneg q mem_cons_self)
      -- the new count is the exact number of tickets
      have hnext : (if i = 0 then (proc q).sched else (proc q).sched + c).toInt =
          (a + share proc q : ℕ) := by
        have hsum : (if i = 0 then (proc q).sched else (proc q).sched + c) =
            (proc q).sched + if i = 0 then 0 else c := by
          split
          · rw [add_zero]
          · rfl
        rw [hsum, BitVec.toInt_add, hcount, ← hshare]
        push_cast
        rw [Int.bmod_eq_of_le (by omega) (by omega)]
        exact add_comm _ _
      generalize (if i = 0 then (proc q).sched else (proc q).sched + c) = c' at hnext ⊢
      by_cases hstop : rn.sle c' = true
      · rw [if_pos hstop]
        rw [BitVec.sle_iff_toInt_le, hnext] at hstop
        exact (Shares.pick_cons_of_le (by omega)).symm
      · rw [if_neg hstop]
        rw [BitVec.sle_iff_toInt_le, hnext, not_le] at hstop
        rw [Shares.pick_cons_of_lt (by omega), Nat.sub_sub]
        refine ih (fun r hr => hnonneg r (mem_cons_of_mem q hr)) (by omega) ?_ hstop
        rw [if_neg (Nat.succ_ne_zero i), hnext]
    · rw [if_neg hq, candidates_cons_neg hq]
      rw [candidates_cons_neg hq] at hnonneg hfit
      exact ih hnonneg hfit hcount hrn

theorem slots_nodup : slots.Nodup := by
  unfold slots
  exact nodup_finRange nproc

theorem candidates_nodup : (candidates proc slots).Nodup := slots_nodup.filter _

theorem mem_candidates_slots : p ∈ candidates proc slots ↔ (proc p).state = .runnable := by
  rw [mem_candidates]
  exact and_iff_right (mem_slots p)

theorem sum_share (h : ∀ p, (proc p).state = .runnable → 0 ≤ (proc p).sched.toInt) :
    (((candidates proc slots).map (share proc)).sum : ℤ) = exactTickets proc := by
  have hset : (Finset.univ.filter fun p => (proc p).state = .runnable) =
      (candidates proc slots).toFinset := by
    ext p
    rw [Finset.mem_filter, mem_toFinset, mem_candidates_slots]
    exact and_iff_right (Finset.mem_univ p)
  rw [exactTickets, hset, sum_toFinset _ candidates_nodup, Nat.cast_list_sum, map_map]
  refine congrArg List.sum (map_congr_left fun p hp => ?_)
  exact Int.toNat_of_nonneg (h p (mem_candidates_slots.mp hp))

end Pick

/-- The pass with the draw `rn` dispatches `p`: it was `RUNNABLE` and runs, with its fields
otherwise as they were. -/
def Dispatches (t : Table (BitVec 32) Lottery) (rn : ℤ) (p : Slot) : Prop :=
  (t.proc p).state = .runnable ∧
    (dispatch (lbsDrawing (.ofInt 32 rn)) t).proc =
      update t.proc p { t.proc p with state := .running, chan := none }

section Proportional

variable {t : Table (BitVec 32) Lottery} {rn : ℤ} {p : Slot}

/-- What the pass does to the process that the loop finds, and to the total. -/
theorem dispatch_drawn {x : BitVec 32} (h : (draw t.proc x slots 0 t.glob.ctickets).1 = some p) :
    (dispatch (lbsDrawing x) t).proc =
        update t.proc p { t.proc p with state := .running, chan := none } ∧
      (dispatch (lbsDrawing x) t).glob.totaltickets = t.glob.totaltickets - (t.proc p).sched := by
  rcases dispatch_cases (lbsDrawing x) t with ⟨hnone, -⟩ | ⟨q, hpick, -, heq⟩
  · cases hnone.symm.trans h
  · obtain rfl : q = p := Option.some.inj (hpick.symm.trans h)
    rw [heq]
    exact ⟨rfl, rfl⟩

theorem dispatches_iff :
    Dispatches t rn p ↔ (draw t.proc (.ofInt 32 rn) slots 0 t.glob.ctickets).1 = some p := by
  refine ⟨?_, fun h => ⟨draw_runnable h, (dispatch_drawn h).1⟩⟩
  rintro ⟨hrun, hproc⟩
  have hp : ((dispatch (lbsDrawing (.ofInt 32 rn)) t).proc p).state = .running := by
    rw [hproc, update_self]
  rcases dispatch_cases (lbsDrawing (.ofInt 32 rn)) t with ⟨-, heq⟩ | ⟨q, hpick, -, heq⟩
  · -- nobody is dispatched, but `p` has changed
    rw [heq] at hp
    cases hrun.symm.trans hp
  · by_cases hq : p = q
    · subst hq
      exact hpick
    · rw [heq] at hp
      have hsame : (t.proc p).state = .running := by simpa [hq] using hp
      cases hrun.symm.trans hsame

theorem toInt_ofInt_draw (h : 1 ≤ rn) (hrn : rn < 2 ^ 31) : (BitVec.ofInt 32 rn).toInt = rn := by
  rw [BitVec.toInt_ofInt]
  exact Int.bmod_eq_of_le (by omega) (by omega)

theorem exactTickets_update (proc : Slot → Proc (BitVec 32)) (hp : (proc p).state = .runnable)
    {q : Proc (BitVec 32)} (hq : q.state ≠ .runnable) :
    exactTickets (update proc p q) + (proc p).sched.toInt = exactTickets proc := by
  have hsum := Counting.sum_update_add
    (fun q : Proc (BitVec 32) => if q.state = .runnable then q.sched.toInt else 0) proc p q
  rw [if_pos hp, if_neg hq, add_zero] at hsum
  rw [exactTickets, exactTickets, Finset.sum_filter, Finset.sum_filter]
  exact hsum

variable (hnonneg : ∀ p, (t.proc p).state = .runnable → 0 ≤ (t.proc p).sched.toInt)
  (hfit : exactTickets t.proc < 2 ^ 31)
include hnonneg hfit

theorem dispatches_iff_pick (h : 1 ≤ rn) (hrn : rn ≤ exactTickets t.proc) :
    Dispatches t rn p ↔ Shares.pick (share t.proc) (candidates t.proc slots) rn.toNat = some p := by
  have hsum := sum_share hnonneg
  have hdraw := toInt_ofInt_draw h (by omega)
  rw [dispatches_iff, draw_eq_pick (a := 0) (fun r hr => hnonneg r (mem_candidates_slots.mp hr))
    (by omega) rfl (by rw [hdraw]; exact_mod_cast h), hdraw, Nat.sub_zero]

theorem existsUnique_dispatches (h : 1 ≤ rn) (hrn : rn ≤ exactTickets t.proc) :
    ∃! p, Dispatches t rn p := by
  have hsum := sum_share hnonneg
  obtain ⟨p, -, hp⟩ := Shares.exists_pick (w := share t.proc) (l := candidates t.proc slots)
    (r := rn.toNat) (by omega) (by omega)
  refine ⟨p, (dispatches_iff_pick hnonneg hfit h hrn).mpr hp, fun q hq => ?_⟩
  have hpick := (dispatches_iff_pick hnonneg hfit h hrn).mp hq
  exact Option.some.inj (hpick.symm.trans hp)

theorem ncard_dispatches (hp : (t.proc p).state = .runnable) :
    ({rn | 1 ≤ rn ∧ rn ≤ exactTickets t.proc ∧ Dispatches t rn p}.ncard : ℤ) =
      (t.proc p).sched.toInt := by
  have hsum := sum_share hnonneg
  have hset : {rn | 1 ≤ rn ∧ rn ≤ exactTickets t.proc ∧ Dispatches t rn p} =
      Nat.cast '' (Shares.draws (share t.proc) (candidates t.proc slots) p : Set ℕ) := by
    ext rn
    simp only [Set.mem_image, Finset.mem_coe, Shares.mem_draws, Set.mem_ofPred_eq]
    constructor
    · rintro ⟨h, hrn, hdisp⟩
      rw [dispatches_iff_pick hnonneg hfit h hrn] at hdisp
      exact ⟨rn.toNat, ⟨by omega, hdisp⟩, Int.toNat_of_nonneg (by omega)⟩
    · rintro ⟨r, ⟨hr, hpick⟩, rfl⟩
      refine ⟨by omega, by omega, ?_⟩
      rw [dispatches_iff_pick hnonneg hfit (by omega) (by omega), Int.toNat_natCast]
      exact hpick
  rw [hset, Set.ncard_image_of_injective _ Nat.cast_injective, Set.ncard_coe_finset,
    Shares.card_pick candidates_nodup (mem_candidates_slots.mpr hp)]
  exact Int.toNat_of_nonneg (hnonneg p hp)

/-- The pass takes the tickets of the process that it dispatches off the total. -/
theorem totaltickets_dispatches (htotal : t.glob.totaltickets.toInt = exactTickets t.proc)
    (h : 1 ≤ rn) (hrn : rn ≤ exactTickets t.proc) :
    (dispatch (lbsDrawing (.ofInt 32 rn)) t).glob.totaltickets.toInt =
      exactTickets (dispatch (lbsDrawing (.ofInt 32 rn)) t).proc := by
  obtain ⟨p, hdisp, -⟩ := existsUnique_dispatches hnonneg hfit h hrn
  have hsum := exactTickets_update t.proc hdisp.1
    (q := { t.proc p with state := .running, chan := none }) (by simp)
  have hglob := (dispatch_drawn (dispatches_iff.mp hdisp)).2
  have hrest : 0 ≤ exactTickets (update t.proc p
      { t.proc p with state := .running, chan := none }) := by
    refine Finset.sum_nonneg fun r hr => ?_
    have hrun := (Finset.mem_filter.mp hr).2
    by_cases hrp : r = p
    · simp [hrp] at hrun
    · rw [update_of_ne hrp] at hrun ⊢
      exact hnonneg r hrun
  have hp := hnonneg p hdisp.1
  rw [hdisp.2, hglob, BitVec.toInt_sub, htotal, ← hsum, Int.add_sub_cancel]
  exact Int.bmod_eq_of_le (by omega) (by omega)

end Proportional

/-- **The lottery is proportional.** In a table whose `RUNNABLE` processes have tickets that fit an
`int` and are booked exactly, every draw from one to their sum dispatches one process, as many draws
dispatch a process as it has tickets, none if it has no ticket, and after the dispatch the books are
exact again. -/
theorem lottery_proportional (t : Table (BitVec 32) Lottery)
    (hnonneg : ∀ p, (t.proc p).state = .runnable → 0 ≤ (t.proc p).sched.toInt)
    (hfit : exactTickets t.proc < 2 ^ 31)
    (htotal : t.glob.totaltickets.toInt = exactTickets t.proc) :
    (∀ rn, 1 ≤ rn → rn ≤ exactTickets t.proc →
      (∃! p, Dispatches t rn p) ∧ (∀ p, Dispatches t rn p → 0 < (t.proc p).sched.toInt) ∧
        (dispatch (lbsDrawing (.ofInt 32 rn)) t).glob.totaltickets.toInt =
          exactTickets (dispatch (lbsDrawing (.ofInt 32 rn)) t).proc) ∧
    ∀ p, (t.proc p).state = .runnable →
      ({rn | 1 ≤ rn ∧ rn ≤ exactTickets t.proc ∧ Dispatches t rn p}.ncard : ℤ) =
        (t.proc p).sched.toInt := by
  refine ⟨fun rn h hrn => ⟨existsUnique_dispatches hnonneg hfit h hrn, fun p hp => ?_,
    totaltickets_dispatches hnonneg hfit htotal h hrn⟩, fun p => ncard_dispatches hnonneg hfit⟩
  have hcard := ncard_dispatches hnonneg hfit hp.1
  have hfinite : {rn | 1 ≤ rn ∧ rn ≤ exactTickets t.proc ∧ Dispatches t rn p}.Finite :=
    (Set.finite_Icc 1 (exactTickets t.proc)).subset fun r hr => ⟨hr.1, hr.2.1⟩
  have hpos := (Set.ncard_pos hfinite).mpr ⟨rn, h, hrn, hp⟩
  omega

/-- Two processes with seven tickets each: each is dispatched in seven draws of fourteen. -/
theorem lottery_proportional_twoRunnable :
    ∃ t, lbsRun twoRunnable = some t ∧ exactTickets t.proc = 14 ∧
      {rn | 1 ≤ rn ∧ rn ≤ exactTickets t.proc ∧ Dispatches t rn 0}.ncard = 7 ∧
      {rn | 1 ≤ rn ∧ rn ≤ exactTickets t.proc ∧ Dispatches t rn 1}.ncard = 7 := by
  obtain ⟨t, ht, htable⟩ : ∃ t, lbsRun twoRunnable = some t ∧
      (exactTickets t.proc = 14 ∧ t.glob.totaltickets.toInt = 14 ∧
        (∀ p, (t.proc p).state = .runnable → 0 ≤ (t.proc p).sched.toInt) ∧
        ((t.proc 0).state = .runnable ∧ (t.proc 0).sched.toInt = 7) ∧
        (t.proc 1).state = .runnable ∧ (t.proc 1).sched.toInt = 7) := by
    have hrun : (lbsRun twoRunnable).map (fun t => decide (exactTickets t.proc = 14 ∧
        t.glob.totaltickets.toInt = 14 ∧
        (∀ p, (t.proc p).state = .runnable → 0 ≤ (t.proc p).sched.toInt) ∧
        ((t.proc 0).state = .runnable ∧ (t.proc 0).sched.toInt = 7) ∧
        (t.proc 1).state = .runnable ∧ (t.proc 1).sched.toInt = 7)) = some true := by
      decide +kernel
    obtain ⟨t, ht, htable⟩ := Option.map_eq_some_iff.mp hrun
    exact ⟨t, ht, of_decide_eq_true htable⟩
  obtain ⟨hexact, htotal, hnonneg, ⟨hrun0, h0⟩, hrun1, h1⟩ := htable
  have hcard := (lottery_proportional t hnonneg (by omega) (htotal.trans hexact.symm)).2
  have hcard0 := hcard 0 hrun0
  have hcard1 := hcard 1 hrun1
  exact ⟨t, ht, hexact, by omega, by omega⟩

end Xv6.Sched
