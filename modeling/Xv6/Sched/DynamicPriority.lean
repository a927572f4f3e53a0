import Xv6.Sched.Pbs

/-!
# The dynamic priority

`compute_priority` adds and subtracts in `int`s before it clamps. `set_priority` takes any `int` as
the static priority, and the niceness changes later, when the process sleeps and is woken. Five
values at each end of the range do not fit with every niceness: the sum wraps, and the process with
the lowest priority becomes the one with the highest, or the other way round.
-/

namespace Xv6.Sched

open Locking (Priority computePriority comparePriority)

/-- The documented dynamic priority, of the static priority `sp` and the niceness `n`. -/
def dynamicPriority (sp n : ℤ) : ℤ := max 0 (min (sp - n + 5) 100)

theorem dynamicPriority_mono {sp sp' n : ℤ} (h : sp ≤ sp') :
    dynamicPriority sp n ≤ dynamicPriority sp' n := by
  unfold dynamicPriority
  omega

/-- The sum that `compute_priority` clamps fits an `int`. -/
def Fits (sp n : ℤ) : Prop := -2 ^ 31 ≤ sp - n + 5 ∧ sp - n + 5 < 2 ^ 31

/-- The computed value is the documented one if and only if the sum fits. -/
theorem computePriority_eq_iff {p n : BitVec 32} (hn : 0 ≤ n.toInt) (hn' : n.toInt ≤ 10) :
    computePriority p n = dynamicPriority p.toInt n.toInt ↔ Fits p.toInt n.toInt := by
  have hsum : (p - n + 5).toInt = (p.toInt - n.toInt + 5).bmod (2 ^ 32) := by
    rw [BitVec.toInt_add, BitVec.toInt_sub, Int.bmod_add_bmod]
    rfl
  have hlow := BitVec.le_toInt p
  have hhigh := BitVec.toInt_lt (x := p)
  unfold computePriority dynamicPriority Fits
  dsimp only
  rw [hsum, Int.bmod_def]
  split_ifs <;> omega

section Compare

variable {x other : Priority} {sp : BitVec 32}

/-- A process whose static priority value is raised is not preferred more: it replaces no candidate
that it did not replace before, and every process that replaced it still does. -/
theorem comparePriority_raise
    (h : computePriority x.priority x.niceness ≤ computePriority sp x.niceness) :
    (comparePriority other { x with priority := sp } = true → comparePriority other x = true) ∧
      (comparePriority x other = true →
        comparePriority { x with priority := sp } other = true) := by
  have hkey : Locking.Build.key .pbs x ≤ Locking.Build.key .pbs { x with priority := sp } := by
    rcases h.lt_or_eq with hlt | heq
    · exact (Prod.Lex.toLex_lt_toLex.mpr (.inl hlt)).le
    · exact Prod.Lex.toLex_le_toLex.mpr (.inr ⟨heq, le_rfl⟩)
  have hiff (best p : Priority) : comparePriority best p = true ↔ _ :=
    Locking.before_iff_key .pbs best p
  constructor
  · intro hbefore
    exact (hiff other x).mpr (hkey.trans_lt ((hiff other _).mp hbefore))
  · intro hbefore
    exact (hiff _ other).mpr (((hiff x other).mp hbefore).trans_le hkey)

end Compare

/-- **The dynamic priority is the documented one** along every run in which ten times the number of
ticks fits an `int`, exactly if the sum with the niceness fits too, which the five values at each
end of the range may not. Raising the value while it does never makes the scheduler prefer the
process. -/
theorem priority_exact {s : PbsState} (h : (pbsWatched id).Reachable s) (hfit : 10 * s.now < 2 ^ 31)
    {p : Slot} (hlive : (s.table.proc p).state ≠ .unused) :
    let x := (s.table.proc p).sched.toPriority
    0 ≤ x.niceness.toInt ∧ x.niceness.toInt ≤ 10 ∧
      (computePriority x.priority x.niceness =
          dynamicPriority x.priority.toInt x.niceness.toInt ↔
        Fits x.priority.toInt x.niceness.toInt) ∧
      ∀ (sp : BitVec 32) (other : Priority), x.priority.toInt ≤ sp.toInt →
        Fits x.priority.toInt x.niceness.toInt → Fits sp.toInt x.niceness.toInt →
        (comparePriority other { x with priority := sp } = true → comparePriority other x = true) ∧
        (comparePriority x other = true →
          comparePriority { x with priority := sp } other = true) := by
  intro x
  have hkept := (pbsInv_reachable h).kept hfit p
  have hnice : x.niceness.toInt = _ := hkept.nice hlive
  have hle := hkept.nice_le
  have hiff : ∀ sp : BitVec 32, computePriority sp x.niceness = _ ↔ Fits sp.toInt _ := fun _ =>
    computePriority_eq_iff (by omega) (by omega)
  refine ⟨by omega, by omega, hiff _, fun sp other hraise hsp hsp' => comparePriority_raise ?_⟩
  rw [(hiff _).mpr hsp, (hiff _).mpr hsp']
  exact dynamicPriority_mono hraise

/-- The first process sets its own priority and goes to sleep. -/
def priorityRun (sp : BitVec 32) : List (Event SetPriority) :=
  [.userinit, .dispatch, .call 0 ⟨sp, 1⟩, .clock, .sleep 0 (.other 7)]

theorem priority_exact_ninety : ∃ s, LTS.runAll (PbsState.next id) .boot (priorityRun 90) = some s ∧
    computePriority (s.table.proc 0).sched.priority (s.table.proc 0).sched.niceness = 95 := by
  have hrun : ((LTS.runAll (PbsState.next id) .boot (priorityRun 90)).map fun s =>
      decide (s.now = 1 ∧ (s.table.proc 0).state = .sleeping ∧
        (s.table.proc 0).sched.priority = 90 ∧ (s.table.proc 0).sched.niceness = 0)) =
      some true := by
    decide +kernel
  obtain ⟨s, hs, hfacts⟩ := Option.map_eq_some_iff.mp hrun
  obtain ⟨hnow, hstate, hsp, hnice⟩ := of_decide_eq_true hfacts
  have hreach : (pbsWatched id).Reachable s :=
    (LTS.Reachable.init (T := pbsWatched id) rfl).runAll (fun _ _ _ h => h) hs
  obtain ⟨-, -, hexact, -⟩ := priority_exact hreach (by omega) (p := 0) (by simp [hstate])
  refine ⟨s, hs, (hexact.mpr ?_).trans ?_⟩
  · rw [hsp, hnice]
    exact ⟨by decide, by decide⟩
  rw [hsp, hnice]
  rfl

/-- **The greatest static priority wraps.** After `set_priority(2147483647, 1)` and a sleep the
first process, whose dynamic priority should be the lowest, has the highest; with the value 60 it
would come after a new process, and with the greatest value it comes before it. -/
theorem priority_wraps : ∃ s, (pbsWatched id).Reachable s ∧
    (s.table.proc 0).sched.priority.toInt = 2 ^ 31 - 1 ∧
    (s.table.proc 0).sched.niceness.toInt = 0 ∧
    computePriority (s.table.proc 0).sched.priority (s.table.proc 0).sched.niceness = 0 ∧
    dynamicPriority (s.table.proc 0).sched.priority.toInt
      (s.table.proc 0).sched.niceness.toInt = 100 ∧
    comparePriority (Pbs.alloc 0).toPriority (s.table.proc 0).sched.toPriority = true ∧
    comparePriority (Pbs.alloc 0).toPriority
      { (s.table.proc 0).sched.toPriority with priority := 60 } = false := by
  have hrun : ((LTS.runAll (PbsState.next id) .boot (priorityRun 0x7fffffff)).map fun s =>
      decide ((s.table.proc 0).sched.priority = 0x7fffffff ∧
        (s.table.proc 0).sched.niceness = 0 ∧
        comparePriority (Pbs.alloc 0).toPriority (s.table.proc 0).sched.toPriority = true ∧
        comparePriority (Pbs.alloc 0).toPriority
          { (s.table.proc 0).sched.toPriority with priority := 60 } = false)) = some true := by
    decide +kernel
  obtain ⟨s, hs, hfields⟩ := Option.map_eq_some_iff.mp hrun
  obtain ⟨hsp, hnice, hbefore⟩ := of_decide_eq_true hfields
  have hreach : (pbsWatched id).Reachable s :=
    (LTS.Reachable.init (T := pbsWatched id) rfl).runAll (fun _ _ _ h => h) hs
  refine ⟨s, hreach, ?_, ?_, ?_, ?_, hbefore⟩
  · rw [hsp]
    rfl
  · rw [hnice]
    rfl
  · rw [hsp, hnice]
    rfl
  · rw [hsp, hnice]
    rfl

end Xv6.Sched
