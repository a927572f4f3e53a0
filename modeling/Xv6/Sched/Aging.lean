import Mathlib.Algebra.Order.Group.MinMax
import Xv6.Sched.Mlfq

/-!
# Aging in the feedback queues

A `RUNNABLE` process of the feedback queues that is not chosen moves up one queue every
`MAX_WAIT_TIME` clock ticks. Nothing else touches its fields while it waits, so what `k` ticks of
waiting do is the iteration of `clockintr` on them, and that has a closed form.
-/

namespace Xv6.Sched

open Function

/-- The process `p` is `RUNNABLE` from `t` to `t'`, along a run with `k` clock ticks. -/
inductive Waits (p : Slot) : Table Level Unit → ℕ → Table Level Unit → Prop
  | refl {t : Table Level Unit} (h : (t.proc p).state = .runnable) : Waits p t 0 t
  | step {t t' t'' : Table Level Unit} {k : ℕ} {e : Event Empty} (h : Waits p t k t')
    (hs : e.run mlfq t' = some t'') (hp : (t''.proc p).state = .runnable) :
    Waits p t (k + e.clocks) t''

section Waits

variable {t t' : Table Level Unit} {p : Slot} {k : ℕ} {e : Event Empty}

theorem Waits.runnable (h : Waits p t k t') : (t'.proc p).state = .runnable := by
  cases h with
  | refl h => exact h
  | step _ _ hp => exact hp

theorem level_of_step (hs : e.run mlfq t = some t') (hp : (t.proc p).state = .runnable)
    (hp' : (t'.proc p).state = .runnable) :
    (t'.proc p).sched = Level.clock^[e.clocks] (t.proc p).sched := by
  -- every other move begins or ends in another state
  cases Event.run_slot hs (fun _ x => nomatch x) p with
  | calm hspared hc =>
    have hne : e ≠ .clock := by
      rintro rfl
      exact hspared hp
    rw [Event.clocks_of_ne hne]
    cases hc with
    | keep _ hsched => exact hsched
    | wake h | leave h => simp [hp] at h
  | clock he _ _ hsched =>
    subst he
    exact hsched
  | run _ _ h' => simp [hp'] at h'
  | _ => simp_all

theorem level_of_waits (h : Waits p t k t') :
    (t'.proc p).sched = Level.clock^[k] (t.proc p).sched := by
  induction h with
  | refl => rfl
  | step h hs hp ih =>
    rw [level_of_step hs h.runnable hp, ih, add_comm, iterate_add_apply]

theorem Waits.clocks (h : (t.proc p).state = .runnable) (k : ℕ) :
    Waits p t k ((clockintr mlfq)^[k] t) := by
  induction k with
  | zero => exact .refl h
  | succ k ih =>
    rw [iterate_succ_apply']
    refine ih.step (e := .clock) rfl ?_
    cases (clockintr_slot (B := mlfq) ((clockintr mlfq)^[k] t)).2 p with
    | calm hspared => exact absurd ih.runnable hspared
    | clock _ _ h' => exact h'
    | _ => simp_all [ih.runnable]

end Waits

theorem Level.iterate_clock {x : Level} (hqueue : 0 ≤ x.queue) (hwait : 0 ≤ x.waittime)
    (hlt : x.waittime < maxWaitTime) (k : ℕ) :
    (Level.clock^[k] x).queue = max 0 (x.queue - (x.waittime + k) / maxWaitTime) ∧
      (Level.clock^[k] x).waittime = (x.waittime + k) % maxWaitTime := by
  induction k with
  | zero =>
    simp only [iterate_zero, id_eq, maxWaitTime] at hlt ⊢
    omega
  | succ k ih =>
    obtain ⟨ihqueue, ihwait⟩ := ih
    rw [iterate_succ_apply', Level.clock]
    split
    · rename_i hfull
      simp only [maxWaitTime] at *
      split <;> omega
    · rename_i hpart
      simp only [maxWaitTime] at *
      omega

theorem exists_watched {t : Table Level Unit} (h : mlfqSystem.Reachable t) :
    ∃ w, mlfqWatched.Reachable (t, w) := by
  induction h with
  | init hi => exact ⟨fun _ => 0, .init (by rw [hi]; rfl)⟩
  | @step t t' e _ hs ih =>
    obtain ⟨w, hw⟩ := ih
    exact ⟨watch t e t' w, hw.step ⟨hs, rfl⟩⟩

/-- **Aging bounds waiting.** In every reachable state queue and waiting time are in their ranges,
and only a `RUNNABLE` process has a waiting time. If it stays so through `k` clock ticks, it has
moved up one queue for every `MAX_WAIT_TIME` ticks that it has waited, counting those before, and so
it is in queue 0 after `MAX_WAIT_TIME` ticks for each queue. -/
theorem mlfq_aging {t : Table Level Unit} (h : mlfqSystem.Reachable t) (p : Slot) :
    (0 ≤ (t.proc p).sched.queue ∧ (t.proc p).sched.queue < nqueue ∧
      0 ≤ (t.proc p).sched.waittime ∧ (t.proc p).sched.waittime < maxWaitTime ∧
      ((t.proc p).state ≠ .runnable → (t.proc p).sched.waittime = 0)) ∧
    ∀ k t', Waits p t k t' →
      (t'.proc p).sched.queue =
        max 0 ((t.proc p).sched.queue - ((t.proc p).sched.waittime + k) / maxWaitTime) ∧
      (t'.proc p).sched.waittime = ((t.proc p).sched.waittime + k) % maxWaitTime ∧
      ((t.proc p).sched.queue * maxWaitTime ≤ k → (t'.proc p).sched.queue = 0) := by
  obtain ⟨w, hw⟩ := exists_watched h
  have hfit := fit_reachable hw p
  have hqueue := hfit.queue_nonneg
  have hwait : 0 ≤ (t.proc p).sched.waittime ∧ (t.proc p).sched.waittime < maxWaitTime := by
    rw [hfit.waittime]
    simp only [maxWaitTime]
    omega
  refine ⟨⟨hqueue, hfit.queue_lt, hwait.1, hwait.2, hfit.waittime_zero⟩, fun k t' hwaits => ?_⟩
  obtain ⟨hqueue', hwait'⟩ := Level.iterate_clock hqueue hwait.1 hwait.2 k
  rw [level_of_waits hwaits]
  refine ⟨hqueue', hwait', fun hk => ?_⟩
  simp only [maxWaitTime] at hk hwait hqueue'
  omega

/-- The state after a run of events from boot, if they are possible. -/
def mlfqRun (es : List (Event Empty)) : Option (Table Level Unit) :=
  LTS.runAll (fun t e => e.run mlfq t) (.boot .zero ()) es

/-- The first process uses up its slice and then waits for a whole period. -/
theorem mlfq_aging_slice : ∃ t t', mlfqRun [.userinit, .dispatch, .timer 0] = some t ∧
    (t.proc 0).sched.queue = 1 ∧ Waits 0 t maxWaitTime t' ∧ (t'.proc 0).sched.queue = 0 := by
  obtain ⟨t, ht, hstate, hqueue⟩ : ∃ t, mlfqRun [.userinit, .dispatch, .timer 0] = some t ∧
      (t.proc 0).state = .runnable ∧ (t.proc 0).sched.queue = 1 := by
    have hrun : (mlfqRun [.userinit, .dispatch, .timer 0]).map
        (fun t => decide ((t.proc 0).state = .runnable ∧ (t.proc 0).sched.queue = 1)) =
        some true := by decide +kernel
    obtain ⟨t, ht, hdecide⟩ := Option.map_eq_some_iff.mp hrun
    exact ⟨t, ht, of_decide_eq_true hdecide⟩
  have hreach : mlfqSystem.Reachable t :=
    (LTS.Reachable.init (T := mlfqSystem) rfl).runAll (fun _ _ _ h => h) ht
  have hwaits := Waits.clocks (p := 0) hstate maxWaitTime
  obtain ⟨-, -, hzero⟩ := (mlfq_aging hreach 0).2 _ _ hwaits
  exact ⟨t, _, ht, hqueue, hwaits, hzero (by rw [hqueue]; rfl)⟩

end Xv6.Sched
