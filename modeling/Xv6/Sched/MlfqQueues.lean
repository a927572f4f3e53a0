import Xv6.Lib.Fifo
import Xv6.Sched.Mlfq

/-!
# The queues of the feedback scheduler

The multi-level feedback scheduler is meant to have `NQUEUE` queues, at whose ends processes are
appended when they are created, woken, preempted, demoted or aged; the fields `queue` and `intime`
are to stand for them. This is a refinement of the timed queues of `Xv6.Lib.Fifo`, with two gaps:
the child of a `fork` is stamped 0 in place of the present tick, and a process that ages keeps the
stamp of the queue it comes from. Also the stamps are an `int`, which wraps at `2 ^ 31` ticks.
-/

namespace Xv6.Sched

open Option

variable {t t' : Table Level Unit} {e : Event Empty} {p r : Slot} {k : ℤ}

def place (t : Table Level Unit) (p : Slot) : Option ℤ :=
  if (t.proc p).state = .runnable then some (t.proc p).sched.queue else none

/-- The stamp of a process, as the scheduler compares it. -/
def stamp (t : Table Level Unit) (p : Slot) : ℤ := (t.proc p).sched.intime.toInt

/-- What a step does to the queues: whom the scheduler takes, who enters which queue, and whether
the clock ticks. -/
def moves (t : Table Level Unit) (e : Event Empty) (t' : Table Level Unit) : Fifo.Move ℤ Slot where
  ran :=
    match e with
    | .dispatch => (bestOf t.proc slots none).map fun p => (p, (t.proc p).sched.queue)
    | _ => none
  entered := slots.filterMap fun p =>
    if place t' p ≠ place t p then (place t' p).map fun k => (p, k) else none
  ticks := e.clocks

/-- The build, with what each step does to the queues, restricted to steps that meet a condition. -/
def mlfqMoves (C : Table Level Unit → Event Empty → Prop) :
    LTS (Table Level Unit) (Fifo.Move ℤ Slot) where
  init t := t = .boot .zero ()
  step t m t' := ∃ e : Event Empty, e.run mlfq t = some t' ∧ C t e ∧ m = moves t e t'

def Ages (q : Proc Level) : Prop :=
  q.state = .runnable ∧ (maxWaitTime : ℤ) ≤ q.sched.waittime + 1 ∧ 0 < q.sched.queue

/-- The steps that keep the order: a `fork` that succeeds finds nobody in queue 0 from an earlier
tick; a process that moves up was stamped after everybody who stays in the queue it moves to; and
the tick count stays below `2 ^ 31`. -/
def InOrder (t : Table Level Unit) : Event Empty → Prop
  | .fork _ mem copy => HasRoom t.proc mem ∧ copy = true →
      ∀ r, place t r = some 0 → (t.proc r).sched.intime = t.ticks
  | .clock => t.ticks.toNat + 1 < 2 ^ 31 ∧
      ∀ p r, Ages (t.proc p) → place t r = some ((t.proc p).sched.queue - 1) → ¬Ages (t.proc r) →
        stamp t r < stamp t p
  | _ => True

theorem place_eq_some : place t p = some k ↔
    (t.proc p).state = .runnable ∧ (t.proc p).sched.queue = k := by
  unfold place
  split
  · rename_i h
    simp [h]
  · rename_i h
    simp [h]

theorem place_eq_none : place t p = none ↔ (t.proc p).state ≠ .runnable := by
  unfold place
  split
  · rename_i h
    simp [h]
  · rename_i h
    simp [h]

theorem mem_entered :
    (p, k) ∈ (moves t e t').entered ↔ place t' p = some k ∧ place t p ≠ some k := by
  simp only [moves, List.mem_filterMap, mem_slots, true_and]
  constructor
  · rintro ⟨q, hq⟩
    split at hq
    · rename_i hne
      obtain ⟨k', hk', heq⟩ := map_eq_some_iff.mp hq
      obtain ⟨rfl, rfl⟩ := Prod.mk.inj heq
      exact ⟨hk', fun hp => hne (hk'.trans hp.symm)⟩
    · cases hq
  · rintro ⟨hk', hne⟩
    refine ⟨p, ?_⟩
    rw [if_pos (by rw [hk']; exact fun h => hne h.symm), hk']
    rfl

/-- Only the dispatch takes a process, and it takes the scheduler's choice. -/
theorem ran_eq_some (h : (moves t e t').ran = some (p, k)) :
    e = .dispatch ∧ bestOf t.proc slots none = some p ∧ (t.proc p).sched.queue = k := by
  cases e with
  | dispatch =>
    obtain ⟨q, hq, heq⟩ := map_eq_some_iff.mp h
    obtain ⟨rfl, rfl⟩ := Prod.mk.inj heq
    exact ⟨rfl, hq, rfl⟩
  | call _ x => exact nomatch x
  | _ => cases h

theorem Ages.clock_queue {q : Proc Level} (h : Ages q) :
    q.sched.clock.queue = q.sched.queue - 1 := by
  obtain ⟨-, hfull, hpos⟩ := h
  rw [Level.clock, if_pos hfull, if_neg (by omega)]

theorem Ages.place_clock (h : Ages (t.proc p)) :
    place (clockintr mlfq t) p = some ((t.proc p).sched.queue - 1) := by
  have hslot := (clockintr_slot (B := mlfq) t).2 p
  have hrun := h.1
  cases hslot with
  | calm hspared => exact absurd hrun hspared
  | clock _ _ h' hsched => exact place_eq_some.mpr ⟨h', by rw [hsched]; exact h.clock_queue⟩
  | sleep _ hq | spare hq => simp [hrun] at hq
  | init he | child he | parent he | run he | yield he | preempt he | timer he => cases he

/-- **How a process changes its place**: it stays as it is, it enters with a fresh stamp, it is a
child, it is dispatched, or it ages. -/
theorem place_cases (hs : e.run mlfq t = some t') (hqueue : 0 ≤ (t.proc p).sched.queue) :
    (place t' p = place t p ∧ (place t p ≠ none → stamp t' p = stamp t p)) ∨
    (place t p = none ∧ (t'.proc p).sched.intime = t'.ticks) ∨
    (∃ r mem copy, e = .fork r mem copy ∧ (HasRoom t.proc mem ∧ copy = true) ∧
      place t p = none ∧ place t' p = some 0 ∧ stamp t' p = 0) ∨
    (e = .dispatch ∧ place t' p = none) ∨
    (e = .clock ∧ Ages (t.proc p) ∧ place t' p = some ((t.proc p).sched.queue - 1) ∧
      stamp t' p = stamp t p) := by
  -- a process that waits neither before nor after stays where it is
  have hout : (t.proc p).state ≠ .runnable → (t'.proc p).state ≠ .runnable →
      place t' p = place t p ∧ (place t p ≠ none → stamp t' p = stamp t p) := by
    intro h h'
    rw [place_eq_none.mpr h, place_eq_none.mpr h']
    exact ⟨rfl, fun hne => absurd rfl hne⟩
  cases Event.run_slot hs (fun _ x => nomatch x) p with
  | calm hspared hc =>
    cases hc with
    | keep hstate hsched =>
      refine .inl ⟨?_, fun _ => ?_⟩
      · rw [place, place, hstate, hsched]
      · rw [stamp, stamp, hsched]
    | wake h hstate hsched =>
      refine .inr (.inl ⟨place_eq_none.mpr (by simp [h]), ?_⟩)
      rw [hsched]
      rfl
    | leave h hleft =>
      refine .inl (hout ?_ ?_)
      · rcases h with h | h <;> simp [h]
      · rcases hleft with ⟨h', -⟩ | ⟨h', -⟩ <;> simp [h']
  | sleep hspared h h' hsched | spare h h' hsched | parent he hroom h h' hsched =>
    exact .inl (hout (by simp [h]) (by simp [h']))
  | init he h h' hsched | yield he h h' hsched | preempt he hyield h h' hsched =>
    refine .inr (.inl ⟨place_eq_none.mpr (by simp [h]), ?_⟩)
    rw [hsched]
    rfl
  | child he hroom h h' hsched =>
    refine .inr (.inr (.inl ⟨_, _, _, he, hroom, place_eq_none.mpr (by simp [h]), ?_, ?_⟩))
    · exact place_eq_some.mpr ⟨h', by rw [hsched]; rfl⟩
    · rw [stamp, hsched]
      rfl
  | run he h h' hsched => exact .inr (.inr (.inr (.inl ⟨he, place_eq_none.mpr (by simp [h'])⟩)))
  | timer he hyield h h' hsched => exact .inl (hout (by simp [h]) (by simp [h']))
  | clock he h h' hsched =>
    have hstamp : stamp t' p = stamp t p := by
      rw [stamp, stamp, hsched]
      change (t.proc p).sched.clock.intime.toInt = _
      unfold Level.clock
      split <;> rfl
    have hplace : place t' p = some (t.proc p).sched.clock.queue :=
      place_eq_some.mpr ⟨h', by rw [hsched]; rfl⟩
    by_cases hages : Ages (t.proc p)
    · refine .inr (.inr (.inr (.inr ⟨he, hages, ?_, hstamp⟩)))
      rw [hplace, hages.clock_queue]
    · refine .inl ⟨?_, fun _ => hstamp⟩
      rw [hplace, place, if_pos h, Level.clock]
      split
      · rename_i hfull
        -- in queue 0 there is nowhere to go
        have hzero : (t.proc p).sched.queue = 0 := by
          by_contra hne
          exact hages ⟨h, hfull, by omega⟩
        simp [hzero]
      · rfl

structure Related (t : Table Level Unit) (s : Fifo ℤ Slot) : Prop where
  encodes : Fifo.Encodes (place t) (stamp t) s
  ticks : t.ticks.toNat = s.now
  early : s.now < 2 ^ 31
  fit : ∃ w : Slot → ℕ, ∀ p, Fit (w p) (t.proc p)

namespace Related

variable {s : Fifo ℤ Slot}

theorem queue_nonneg (h : Related t s) (p : Slot) : 0 ≤ (t.proc p).sched.queue := by
  obtain ⟨w, hw⟩ := h.fit
  exact (hw p).queue_nonneg

theorem ticks_step (h : Related t s) (hs : e.run mlfq t = some t') (hin : InOrder t e) :
    t'.ticks.toNat = s.now + e.clocks ∧ s.now + e.clocks < 2 ^ 31 := by
  have hticks := h.ticks
  have hsum : s.now + e.clocks < 2 ^ 31 := by
    by_cases he : e = .clock
    · subst he
      exact hticks ▸ hin.1
    · rw [Event.clocks_of_ne he]
      exact h.early
  have hstep := Event.run_ticks hs fun _ x => nomatch x
  refine ⟨?_, hsum⟩
  rw [hstep, BitVec.toNat_add, BitVec.toNat_ofNat]
  omega

theorem stamp_fresh {n : ℕ} (hn : t'.ticks.toNat = n) (hlt : n < 2 ^ 31)
    (hp : (t'.proc p).sched.intime = t'.ticks) : stamp t' p = n := by
  rw [stamp, hp, BitVec.toInt_eq_toNat_of_lt (by omega), hn]

theorem first (h : Related t s) (hran : (moves t e t').ran = some (p, k)) :
    Fifo.First (s.queue k) p := by
  obtain ⟨-, hbest, hk⟩ := ran_eq_some hran
  obtain ⟨hrun, hmin⟩ := bestOf_spec hbest
  refine h.encodes.first (place_eq_some.mpr ⟨hrun, hk⟩) fun r hr hlt => ?_
  obtain ⟨hrrun, hrk⟩ := place_eq_some.mp hr
  exact hmin r hrrun (.inl ⟨hk.trans hrk.symm, hlt⟩)

theorem dispatch_ran (hp : place t p ≠ none) (hp' : place (dispatch mlfq t) p = none) :
    ∃ k, (moves t .dispatch (dispatch mlfq t)).ran = some (p, k) := by
  rcases dispatch_cases mlfq t with ⟨-, heq⟩ | ⟨q, hq, -, heq⟩
  · rw [heq] at hp'
    exact absurd hp' hp
  · by_cases hpq : p = q
    · subst hpq
      exact ⟨_, map_eq_some_iff.mpr ⟨p, hq, rfl⟩⟩
    · have hsame : place (dispatch mlfq t) p = place t p := by
        rw [heq, place, place, Table.put_proc, Function.update_of_ne hpq]
        rfl
      exact absurd (hsame.symm.trans hp') hp

theorem encodes_step (h : Related t s) (hs : e.run mlfq t = some t') (hin : InOrder t e) :
    Fifo.Encodes (place t') (stamp t') (s.next (moves t e t')) := by
  obtain ⟨hticks, hearly⟩ := h.ticks_step hs hin
  have hcases := fun p => place_cases hs (h.queue_nonneg p)
  refine h.encodes.next (fun p k => mem_entered) (fun p k hran => ?_) (fun p k hp hp' => ?_)
    (fun p k hp hp' => ?_) (fun p k hp' hp => ?_) (fun p r k τ hp' hp hr' hmem hτ => ?_)
  · obtain ⟨rfl, hbest, -⟩ := ran_eq_some hran
    obtain rfl := some.inj hs
    rcases dispatch_cases mlfq t with ⟨hnone, -⟩ | ⟨q, hq, -, heq⟩
    · exact absurd (hnone.symm.trans hbest) (by simp)
    · obtain rfl : q = p := some.inj (hq.symm.trans hbest)
      rw [heq]
      exact place_eq_none.mpr (by simp)
  · rcases hcases p with ⟨hsame, -⟩ | ⟨hnone, -⟩ | ⟨-, -, -, -, -, hnone, -⟩ | ⟨rfl, -⟩ |
      ⟨-, -, hsome, -⟩
    · rw [← hsame, hp'] at hp
      cases hp
    · rw [hnone] at hp
      cases hp
    · rw [hnone] at hp
      cases hp
    · obtain rfl := some.inj hs
      exact dispatch_ran (by simp [hp]) hp'
    · rw [hp'] at hsome
      cases hsome
  · rcases hcases p with ⟨-, hstamp⟩ | ⟨hnone, -⟩ | ⟨-, -, -, -, -, hnone, -⟩ | ⟨-, hnone⟩ |
      ⟨-, -, -, hstamp⟩
    · exact hstamp (by simp [hp])
    · rw [hnone] at hp
      cases hp
    · rw [hnone] at hp
      cases hp
    · rw [hnone] at hp'
      cases hp'
    · exact hstamp
  · rcases hcases p with ⟨hsame, -⟩ | ⟨-, hfresh⟩ | ⟨-, -, -, -, -, -, -, hzero⟩ | ⟨-, hnone⟩ |
      ⟨-, hages, -, hstamp⟩
    · exact absurd (hsame.symm.trans hp') hp
    · exact (stamp_fresh hticks hearly hfresh).le
    · rw [hzero]
      exact Int.natCast_nonneg _
    · rw [hnone] at hp'
      cases hp'
    · have hle := h.encodes.stamp_le_now (place_eq_some.mpr ⟨hages.1, rfl⟩)
      rw [hstamp]
      push_cast
      exact hle.trans (Int.le_add_of_nonneg_right (Int.natCast_nonneg _))
  · -- everybody who stays from an earlier tick carries an earlier stamp
    have hr : place t r = some k := (h.encodes.mem r k).mp ⟨τ, hmem⟩
    have hstamp_le := h.encodes.stamp_le hmem
    rcases hcases p with ⟨hsame, -⟩ | ⟨-, hfresh⟩ | ⟨q, mem, copy, rfl, hroom, -, hzero, -⟩ |
      ⟨-, hnone⟩ | ⟨rfl, hages, hplace, hstamp⟩
    · exact absurd (hsame.symm.trans hp') hp
    · rw [stamp_fresh hticks hearly hfresh]
      exact hstamp_le.trans_lt (Int.ofNat_lt.mpr hτ)
    · -- at a `fork` that keeps the order there is nobody
      obtain rfl : (0 : ℤ) = k := some.inj (hzero.symm.trans hp')
      have hnow : stamp t r = s.now := stamp_fresh h.ticks h.early (hin hroom r hr)
      have hτ' : τ < s.now := hτ
      omega
    · rw [hnone] at hp'
      cases hp'
    · obtain rfl := some.inj (hplace.symm.trans hp')
      rw [hstamp]
      refine hin.2 p r hages hr fun hrages => ?_
      -- one that ages with it does not stay
      obtain rfl := some.inj hs
      have hmoved := hrages.place_clock.symm.trans hr'
      obtain ⟨-, hqueue⟩ := place_eq_some.mp hr
      have := some.inj hmoved
      omega

theorem step (h : Related t s) (hs : e.run mlfq t = some t') (hin : InOrder t e) :
    Related t' (s.next (moves t e t')) := by
  obtain ⟨hticks, hearly⟩ := h.ticks_step hs hin
  obtain ⟨w, hw⟩ := h.fit
  exact ⟨h.encodes_step hs hin, hticks, hearly, watch t e t' w, fun p => (hw p).step hs⟩

theorem boot : Related (.boot .zero ()) .empty where
  encodes := .empty fun _ => rfl
  ticks := rfl
  early := by decide
  fit := ⟨fun _ => 0, fun _ => Fit.zero rfl rfl⟩

end Related

/-- **The fields are the queues**: every run of the kernel from boot whose steps keep the order is,
as to who enters and who is run, a run of `NQUEUE` first-in first-out queues; in particular the
scheduler never takes a process while another is in the same queue from an earlier tick. At its end
the members of a queue are the `RUNNABLE` processes that have its number. -/
theorem mlfq_refines_fifo {ms : List (Fifo.Move ℤ Slot)}
    (h : (mlfqMoves InOrder).Run (.boot .zero ()) ms t) :
    ∃ s, (Fifo.system ℤ Slot).Run .empty ms s ∧
      (∀ p k, (∃ τ, (p, τ) ∈ s.queue k) ↔
        (t.proc p).state = .runnable ∧ (t.proc p).sched.queue = k) ∧
      ∀ p, 0 ≤ (t.proc p).sched.queue ∧ (t.proc p).sched.queue < nqueue := by
  have hsim : ∀ t m t' s, Related t s → (mlfqMoves InOrder).step t m t' →
      ∃ s', (Fifo.system ℤ Slot).step s m s' ∧ Related t' s' := by
    rintro t m t' s hrel ⟨e, hs, hin, rfl⟩
    exact ⟨_, ⟨fun p k hran => hrel.first hran, rfl⟩, hrel.step hs hin⟩
  obtain ⟨s, hrun, hrel⟩ := LTS.Run.simulation hsim h Related.boot
  obtain ⟨w, hw⟩ := hrel.fit
  exact ⟨s, hrun, fun p k => (hrel.encodes.mem p k).trans place_eq_some,
    fun p => ⟨(hw p).queue_nonneg, (hw p).queue_lt⟩⟩

instance (q : Proc Level) : Decidable (Ages q) := inferInstanceAs (Decidable (_ ∧ _))

instance (t : Table Level Unit) (e : Event Empty) : Decidable (InOrder t e) :=
  match e with
  | .fork .. => inferInstanceAs (Decidable ((_ ∧ _) ∧ _ → _))
  | .clock => inferInstanceAs (Decidable (_ ∧ _))
  | .userinit | .dispatch | .yield _ | .sleep .. | .wakeup .. | .kill _ | .exit .. | .wait ..
  | .timer _ => .isTrue trivial

/-- The moves of a run of events that meet the condition, and the state after it. -/
def trace (C : Table Level Unit → Event Empty → Prop) [∀ t e, Decidable (C t e)] :
    Table Level Unit → List (Event Empty) → Option (List (Fifo.Move ℤ Slot) × Table Level Unit)
  | t, [] => some ([], t)
  | t, e :: es =>
    if C t e then
      (e.run mlfq t).bind fun t' => (trace C t' es).map fun r => (moves t e t' :: r.1, r.2)
    else none

theorem trace_run {C : Table Level Unit → Event Empty → Prop} [∀ t e, Decidable (C t e)]
    {es : List (Event Empty)} {ms : List (Fifo.Move ℤ Slot)} (h : trace C t es = some (ms, t')) :
    (mlfqMoves C).Run t ms t' := by
  induction es generalizing t ms with
  | nil =>
    obtain ⟨rfl, rfl⟩ := Prod.mk.inj (some.inj h)
    exact .nil t
  | cons e es ih =>
    rw [trace] at h
    split at h
    · rename_i hc
      obtain ⟨t1, ht1, hrest⟩ := bind_eq_some_iff.mp h
      obtain ⟨r, hr, heq⟩ := map_eq_some_iff.mp hrest
      obtain ⟨rfl, rfl⟩ := Prod.mk.inj heq
      exact .cons ⟨e, ht1, hc, rfl⟩ (ih hr)
    · cases h

/-- The first process forks at tick 0; its child runs, sleeps and is woken at tick 1. -/
def childWaits : List (Event Empty) :=
  [.userinit, .dispatch, .fork 0 true true, .dispatch, .sleep 1 .ticks, .clock]

theorem mlfq_refines_fifo_childWaits :
    ∃ ms t s, trace InOrder (.boot .zero ()) (childWaits ++ [.dispatch]) = some (ms, t) ∧
      (Fifo.system ℤ Slot).Run .empty ms s ∧ (t.proc 1).state = .running := by
  obtain ⟨⟨ms, t⟩, ht, hstate⟩ : ∃ r, trace InOrder (.boot .zero ()) (childWaits ++ [.dispatch]) =
      some r ∧ (r.2.proc 1).state = .running := by
    refine map_eq_some_iff.mp ?_
    decide +kernel
  obtain ⟨s, hs, -⟩ := mlfq_refines_fifo (trace_run ht)
  exact ⟨ms, t, s, ht, hs, hstate⟩

/-- **A child overtakes.** A tick after the first child was woken the first process forks again;
the scheduler takes the second child, although the first has been in the same queue since the tick
before. No run of the queues does that. -/
theorem child_overtakes :
    ∃ ms t, (mlfqMoves fun _ _ => True).Run (.boot .zero ()) ms t ∧
      (t.proc 1).state = .runnable ∧ (t.proc 2).state = .running ∧
      ¬∃ s, (Fifo.system ℤ Slot).Run .empty ms s := by
  obtain ⟨⟨ms, t⟩, ht, hwaits, hruns, hnone⟩ : ∃ r, trace (fun _ _ => True) (.boot .zero ())
        (childWaits ++ [.clock, .fork 0 true true, .dispatch]) = some r ∧
      (r.2.proc 1).state = .runnable ∧ (r.2.proc 2).state = .running ∧
      (LTS.runAll Fifo.step? .empty r.1).isNone = true := by
    have hrun : ((trace (fun _ _ => True) (.boot .zero ())
        (childWaits ++ [.clock, .fork 0 true true, .dispatch])).map fun r =>
          ((r.2.proc 1).state, (r.2.proc 2).state, (LTS.runAll Fifo.step? .empty r.1).isNone)) =
        some (.runnable, .running, true) := by decide +kernel
    obtain ⟨r, hr, hvalues⟩ := map_eq_some_iff.mp hrun
    exact ⟨r, hr, by simpa using hvalues⟩
  refine ⟨ms, t, trace_run ht, hwaits, hruns, fun ⟨s, hs⟩ => ?_⟩
  rw [Fifo.runAll_of_run hs] at hnone
  cases hnone

end Xv6.Sched
