import Xv6.Sched.Draw

/-!
# Passes of the lottery on several processors

Every processor runs the loop of `scheduler` for itself, and the passes overlap: a step is the draw
at the start of a pass, the visit of one slot under its lock, or a step of the rest of the kernel.
The draw `rn` and the count `i` are variables of the pass; the running total `ctickets` is `static`,
one for all processors. A pass that no other disturbs between its first `RUNNABLE` slot and its
choice finds the winner; one that is disturbed may choose another process.

`seen` and `disturbed` are not in the source: they record the tickets that the pass has counted,
and whether another pass has written `ctickets` since.
-/

namespace Xv6.Sched

open Function

/-- The variables of a pass: the slot to visit, the number of `RUNNABLE` slots visited, and the
draw. -/
structure Pass where
  next : ℕ
  i : ℕ
  rn : BitVec 32
  seen : List (BitVec 32)
  disturbed : Bool
deriving DecidableEq

/-- A processor is between two passes, in a pass, or runs a process. -/
inductive Cpu
  | idle
  | pass (x : Pass)
  | busy (p : Slot)
deriving DecidableEq

/-- The kernel with `m` processors. -/
structure Harts (m : ℕ) where
  table : Table (BitVec 32) Lottery
  cpu : Fin m → Cpu

/-- Another pass writes `ctickets`. -/
def Cpu.disturb : Cpu → Cpu
  | .pass x => .pass { x with disturbed := x.disturbed || decide (0 < x.i) }
  | c => c

/-- A processor whose process has given it up goes back to the scheduler. -/
def Cpu.settle (t : Table (BitVec 32) Lottery) : Cpu → Cpu
  | .busy p => if (t.proc p).state = .running then .busy p else .idle
  | c => c

namespace Harts

variable {m : ℕ}

def begin (s : Harts m) (c : Fin m) : Option (Harts m) :=
  match s.cpu c with
  | .idle =>
    let g := s.table.glob
    some ⟨s.table.setGlob { g with randNext := (doRand g.randNext).1 },
      update s.cpu c (.pass ⟨0, 0, g.rn, [], false⟩)⟩
  | _ => none

/-- The new value of `ctickets` at a `RUNNABLE` slot. -/
def count (s : Harts m) (x : Pass) (p : Slot) : BitVec 32 :=
  if x.i = 0 then (s.table.proc p).sched else (s.table.proc p).sched + s.table.glob.ctickets

/-- The globals after a `RUNNABLE` slot has been counted. -/
def counted (s : Harts m) (x : Pass) (p : Slot) : Lottery :=
  { s.table.glob with ctickets := s.count x p }

/-- The pass dispatches the process that it has just counted. -/
def choose (s : Harts m) (c : Fin m) (x : Pass) (p : Slot) : Harts m where
  table := (s.table.setGlob (lbs.leave (s.table.proc p).sched (s.counted x p))).put p
    { s.table.proc p with
      state := .running, chan := none, sched := lbs.dispatch s.table.ticks (s.table.proc p).sched }
  cpu := update (fun d => (s.cpu d).disturb) c (.busy p)

/-- The pass goes on from a process that it has just counted. -/
def pass (s : Harts m) (c : Fin m) (x : Pass) (p : Slot) : Harts m where
  table := s.table.setGlob (s.counted x p)
  cpu := update (fun d => (s.cpu d).disturb) c
    (.pass { x with next := x.next + 1, i := x.i + 1, seen := (s.table.proc p).sched :: x.seen })

def visitSlot (s : Harts m) (c : Fin m) (x : Pass) (p : Slot) : Harts m :=
  if (s.table.proc p).state = .runnable then
    if x.rn.sle (s.count x p) then s.choose c x p else s.pass c x p
  else ⟨s.table, update s.cpu c (.pass { x with next := x.next + 1 })⟩

def visit (s : Harts m) (c : Fin m) : Option (Harts m) :=
  match s.cpu c with
  | .pass x =>
    if h : x.next < nproc then some (s.visitSlot c x ⟨x.next, h⟩)
    else some ⟨s.table, update s.cpu c .idle⟩
  | _ => none

def other (s : Harts m) : Event (BitVec 32) → Option (Harts m)
  | .dispatch => none
  | e => (e.run lbs s.table).map fun t => ⟨t, fun c => (s.cpu c).settle t⟩

inductive Act (m : ℕ)
  | begin (c : Fin m)
  | visit (c : Fin m)
  | other (e : Event (BitVec 32))

def step (s : Harts m) : Act m → Option (Harts m)
  | .begin c => s.begin c
  | .visit c => s.visit c
  | .other e => s.other e

def boot (m : ℕ) : Harts m := ⟨.boot 0 ⟨0, 1, 0⟩, fun _ => .idle⟩

end Harts

/-- The kernel built with the lottery scheduler, on `m` processors. -/
def passes (m : ℕ) : LTS (Harts m) (Harts.Act m) where
  init s := s = .boot m
  step s a s' := s.step a = some s'

/-! ## The rest of the kernel -/

section Rest

variable {t t' : Table (BitVec 32) Lottery} {e : Event (BitVec 32)}

theorem Calm.ctickets (h : Calm lbs t t') : t'.glob.ctickets = t.glob.ctickets := by
  induction h with
  | refl t => rfl
  | touch p q hstate hsched => rfl
  | wake p hp => rfl
  | zombie p status tick hp => rfl
  | free p hp => rfl
  | trans _ _ ih1 ih2 => exact ih2.trans ih1

theorem Spare.ctickets (h : Spare lbs t t') : t'.glob.ctickets = t.glob.ctickets := by
  rcases h with rfl | ⟨n, p, q, -, -, -, rfl⟩
  · rfl
  · rfl

theorem Event.run_ctickets (h : e.run lbs t = some t') (he : e ≠ .dispatch) :
    t'.glob.ctickets = t.glob.ctickets := by
  rcases Event.run_cases h with ⟨-, hc | ⟨p, c, -, rfl⟩⟩ | ⟨-, hu⟩ | ⟨p, mem, copy, -, hp, rfl⟩ |
    ⟨hd, -⟩ | ⟨p, -, -, rfl⟩ | ⟨p, -, -, rfl⟩ | ⟨-, rfl⟩ | ⟨p, n, -, -, rfl⟩
  · exact hc.ctickets
  · rfl
  · obtain ⟨n, p, q, -, -, -, rfl⟩ := userinit_cases hu
    rfl
  · rcases fork_cases (B := lbs) mem copy hp with ⟨-, hspare⟩ | ⟨-, n, np, q, -, -, -, -, heq⟩
    · exact hspare.ctickets
    · rw [heq]
      rfl
  · exact absurd hd he
  · rfl
  · rfl
  · exact (wakeup_calm none .ticks (t.tick lbs)).ctickets
  · change (settickets n p t).glob.ctickets = _
    unfold settickets
    split <;> rfl

def NonnegTickets (t : Table (BitVec 32) Lottery) : Prop := ∀ p, 0 ≤ (t.proc p).sched.toInt

theorem NonnegTickets.settickets (h : NonnegTickets t) (n : BitVec 32) (p : Slot) :
    NonnegTickets (settickets n p t) := by
  intro r
  unfold Sched.settickets
  split
  · exact h r
  · rename_i hn
    by_cases hr : r = p
    · subst hr
      simpa [BitVec.slt] using hn
    · simpa [hr] using h r

theorem NonnegTickets.run (h : NonnegTickets t) (hs : e.run lbs t = some t') :
    NonnegTickets t' := by
  intro r
  have hr := h r
  by_cases hcall : ∃ p n, e = .call p n
  · obtain ⟨p, n, rfl⟩ := hcall
    obtain ⟨-, rfl⟩ := ifRunning_some hs
    exact h.settickets n p r
  · cases Event.run_slot hs (fun p x he => hcall ⟨p, x, he⟩) r with
    | calm hspared hc =>
      cases hc with
      | keep hstate hsched | wake hst hstate hsched => rwa [hsched]
      | leave hst hleft =>
        rcases hleft with ⟨-, hsched⟩ | ⟨-, hsched⟩
        · rwa [hsched]
        · rw [hsched]
          exact le_refl (0 : ℤ)
    | spare hst hst' hsched =>
      rw [hsched]
      exact le_refl (0 : ℤ)
    | init he hst hst' hsched =>
      rw [hsched]
      exact zero_le_one' ℤ
    | @child r' mem copy he hroom hst hst' hsched =>
      rw [hsched]
      exact h r'
    | sleep hspared hst hst' hsched | parent he hroom hst hst' hsched => rwa [hsched]
    | run he hst hst' hsched | yield he hst hst' hsched => rwa [hsched]
    | preempt he hyield hst hst' hsched | timer he hyield hst hst' hsched => rwa [hsched]
    | clock he hst hst' hsched => rwa [hsched]

end Rest

/-! ## What a pass has counted -/

/-- What holds of a pass: it has counted the tickets in `seen`, and if nobody has disturbed it,
`ctickets` is their sum and below the draw. -/
structure Counts (ctickets : BitVec 32) (x : Pass) : Prop where
  draw : 1 ≤ x.rn.toInt
  length : x.i = x.seen.length
  nonneg : ∀ v ∈ x.seen, 0 ≤ v.toInt
  total : x.disturbed = false → 0 < x.i → ctickets = x.seen.sum
  short : x.disturbed = false → 0 < x.i → x.rn.sle ctickets = false

/-- The exact number of tickets that a pass has counted. -/
def Pass.exact (x : Pass) : ℤ := (x.seen.map BitVec.toInt).sum

theorem toInt_listSum (l : List (BitVec 32)) :
    l.sum.toInt = (l.map BitVec.toInt).sum.bmod (2 ^ 32) := by
  induction l with
  | nil => rfl
  | cons v l ih =>
    rw [List.sum_cons, List.map_cons, List.sum_cons, BitVec.toInt_add, ih, Int.add_bmod_bmod]

namespace Counts

variable {ctickets ctickets' v : BitVec 32} {x : Pass} (h : Counts ctickets x)

include h

theorem exact_nonneg : 0 ≤ x.exact :=
  List.sum_nonneg fun z hz => by
    obtain ⟨v, hv, rfl⟩ := List.mem_map.mp hz
    exact h.nonneg v hv

/-- A pass that has been disturbed, or has not begun to count, does not depend on `ctickets`. -/
theorem disturb : Counts ctickets' { x with disturbed := x.disturbed || decide (0 < x.i) } := by
  refine ⟨h.draw, h.length, h.nonneg, fun hd hi => ?_, fun hd hi => ?_⟩
  · simp only [Bool.or_eq_false_iff, decide_eq_false_iff_not] at hd
    exact absurd hi hd.2
  · simp only [Bool.or_eq_false_iff, decide_eq_false_iff_not] at hd
    exact absurd hi hd.2

theorem visit (hv : 0 ≤ v.toInt) (hc : ctickets' = if x.i = 0 then v else v + ctickets)
    (hshort : x.rn.sle ctickets' = false) :
    Counts ctickets' { x with next := x.next + 1, i := x.i + 1, seen := v :: x.seen } := by
  refine ⟨h.draw, ?_, ?_, fun hd _ => ?_, fun _ _ => hshort⟩
  · simp [h.length]
  · simpa [hv] using h.nonneg
  · rw [hc, List.sum_cons]
    split_ifs with hi
    · have hnil : x.seen = [] := List.eq_nil_of_length_eq_zero (h.length.symm.trans hi)
      simp [hnil]
    · rw [h.total hd (pos_of_ne_zero hi)]

/-- The pass chooses: the draw falls on the tickets of the slot, if they fit. -/
theorem chooses (hv : 0 ≤ v.toInt) (halone : x.disturbed = false)
    (hfit : x.exact + v.toInt < 2 ^ 31)
    (hsle : x.rn.sle (if x.i = 0 then v else v + ctickets) = true) :
    x.exact < x.rn.toInt ∧ x.rn.toInt ≤ x.exact + v.toInt := by
  have hnonneg := h.exact_nonneg
  have hdraw := h.draw
  split_ifs at hsle with hi
  · have hnil : x.seen = [] := List.eq_nil_of_length_eq_zero (h.length.symm.trans hi)
    have hzero : x.exact = 0 := by simp [Pass.exact, hnil]
    have hle : x.rn.toInt ≤ v.toInt := by simpa [BitVec.sle] using hsle
    omega
  · have hpos := pos_of_ne_zero hi
    -- the sum has not wrapped, before or after this slot
    have htotal : ctickets.toInt = x.exact := by
      rw [h.total halone hpos, toInt_listSum]
      exact Int.bmod_eq_of_le (by unfold Pass.exact at hnonneg; omega)
        (by unfold Pass.exact at hfit; omega)
    have hsum : (v + ctickets).toInt = v.toInt + x.exact := by
      rw [BitVec.toInt_add, htotal]
      exact Int.bmod_eq_of_le (by omega) (by omega)
    have hlt : x.rn.sle ctickets = false := h.short halone hpos
    have hlt' : ctickets.toInt < x.rn.toInt := by simpa [BitVec.sle] using hlt
    have hle : x.rn.toInt ≤ (v + ctickets).toInt := by simpa [BitVec.sle] using hsle
    omega

end Counts

structure Counted {m : ℕ} (s : Harts m) : Prop where
  tickets : NonnegTickets s.table
  counts : ∀ c x, s.cpu c = .pass x → Counts s.table.glob.ctickets x

namespace Counted

variable {m : ℕ} {s s' : Harts m} {c : Fin m} {x : Pass} {p : Slot}

theorem update {t : Table (BitVec 32) Lottery} {f : Fin m → Cpu} {y : Cpu} (ht : NonnegTickets t)
    (hself : ∀ x, y = .pass x → Counts t.glob.ctickets x)
    (hothers : ∀ d x, f d = .pass x → Counts t.glob.ctickets x) :
    Counted ⟨t, update f c y⟩ := by
  refine ⟨ht, fun d x hd => ?_⟩
  change Function.update f c y d = .pass x at hd
  by_cases hdc : d = c
  · subst hdc
    rw [update_self] at hd
    exact hself x hd
  · rw [update_of_ne hdc] at hd
    exact hothers d x hd

theorem begin (h : Counted s) (hs : s.begin c = some s') : Counted s' := by
  unfold Harts.begin at hs
  split at hs
  · cases hs
    refine update h.tickets (fun x hx => ?_) h.counts
    cases hx
    exact ⟨s.table.glob.one_le_rn, rfl, by simp, fun _ hi => absurd hi (lt_irrefl 0),
      fun _ hi => absurd hi (lt_irrefl 0)⟩
  · cases hs

theorem disturb (h : Counted s) {ctickets : BitVec 32} (d : Fin m) (y : Pass)
    (hd : (s.cpu d).disturb = .pass y) : Counts ctickets y := by
  cases hcpu : s.cpu d with
  | idle | busy q =>
    rw [hcpu] at hd
    cases hd
  | pass z =>
    rw [hcpu] at hd
    cases hd
    exact (h.counts d z hcpu).disturb

theorem visitSlot (h : Counted s) (hx : s.cpu c = .pass x) : Counted (s.visitSlot c x p) := by
  have hcounts := h.counts c x hx
  unfold Harts.visitSlot
  split_ifs with hrun hsle
  · refine update (fun r => ?_) (fun y hy => by cases hy) h.disturb
    by_cases hr : r = p
    · subst hr
      simpa [lbs] using h.tickets r
    · simpa [hr] using h.tickets r
  · refine update h.tickets (fun y hy => ?_) h.disturb
    cases hy
    exact hcounts.visit (h.tickets p) rfl (Bool.eq_false_iff.mpr hsle)
  · refine update h.tickets (fun y hy => ?_) h.counts
    cases hy
    exact ⟨hcounts.draw, hcounts.length, hcounts.nonneg, hcounts.total, hcounts.short⟩

theorem visit (h : Counted s) (hs : s.visit c = some s') : Counted s' := by
  unfold Harts.visit at hs
  split at hs
  · rename_i x hx
    split at hs
    · cases hs
      exact h.visitSlot hx
    · cases hs
      exact update h.tickets (fun y hy => by cases hy) h.counts
  · cases hs

theorem other (h : Counted s) {e : Event (BitVec 32)} (hs : s.other e = some s') : Counted s' := by
  have he : e ≠ .dispatch := by
    rintro rfl
    cases hs
  obtain ⟨t, ht, rfl⟩ : ∃ t, e.run lbs s.table = some t ∧
      (⟨t, fun c => (s.cpu c).settle t⟩ : Harts m) = s' := by
    cases e with
    | dispatch => exact absurd rfl he
    | _ => exact Option.map_eq_some_iff.mp hs
  refine ⟨h.tickets.run ht, fun d y hd => ?_⟩
  rw [Event.run_ctickets ht he]
  cases hcpu : s.cpu d with
  | idle => simp [hcpu, Cpu.settle] at hd
  | busy q =>
    simp only [hcpu, Cpu.settle] at hd
    split at hd <;> cases hd
  | pass z =>
    simp only [hcpu, Cpu.settle, Cpu.pass.injEq] at hd
    exact h.counts d y (hd ▸ hcpu)

/-- **Every run** keeps the invariant. -/
theorem reachable (h : (passes m).Reachable s) : Counted s := by
  refine h.invariant (P := Counted) ?_ fun s a s' hs hstep => ?_
  · rintro _ rfl
    exact ⟨fun p => le_refl (0 : ℤ), fun c x hx => by cases hx⟩
  · cases a with
    | begin c => exact hs.begin hstep
    | visit c => exact hs.visit hstep
    | other e => exact hs.other hstep

end Counted

variable {m : ℕ} {s s' : Harts m} {c : Fin m} {x : Pass} {p : Slot}

theorem Harts.visit_busy (hx : s.cpu c = .pass x) (hs : s.visit c = some s')
    (hp : s'.cpu c = .busy p) : x.rn.sle (s.count x p) = true := by
  unfold visit at hs
  rw [hx] at hs
  dsimp only at hs
  split at hs
  · cases hs
    unfold visitSlot at hp
    split_ifs at hp with hrun hsle
    · simp only [choose, update_self, Cpu.busy.injEq] at hp
      exact hp ▸ hsle
    · simp [pass] at hp
    · simp at hp
  · cases hs
    simp at hp

/-- **A pass that is not disturbed chooses by its draw.** On any number of processors, let a pass
dispatch `p`, let no other pass have visited a `RUNNABLE` slot since its own first one, and let the
tickets that it has counted, those of `p` included, be fewer than `2^31`. Then they are at least as
many as the draw, and without those of `p` they are fewer. -/
theorem pass_fair (h : (passes m).Reachable s) (hx : s.cpu c = .pass x)
    (hs : s.visit c = some s') (hp : s'.cpu c = .busy p) (halone : x.disturbed = false)
    (hfit : x.exact + (s.table.proc p).sched.toInt < 2 ^ 31) :
    x.exact < x.rn.toInt ∧ x.rn.toInt ≤ x.exact + (s.table.proc p).sched.toInt := by
  have hinv := Counted.reachable h
  exact (hinv.counts c x hx).chooses (hinv.tickets p) halone hfit (Harts.visit_busy hx hs hp)

theorem Harts.runAll_reachable {as : List (Harts.Act m)}
    (h : LTS.runAll Harts.step (.boot m) as = some s) : (passes m).Reachable s :=
  (LTS.Reachable.init (T := passes m) rfl).runAll (fun _ _ _ h => h) h

/-- The first process forks three children, while the second processor draws, and sleeps, so that
the first one draws too. -/
def twoDraws : List (Harts.Act 2) :=
  [.other .userinit, .begin 0, .visit 0, .other (.fork 0 true true), .other (.fork 0 true true),
    .other (.fork 0 true true), .begin 1, .other (.sleep 0 .ticks), .begin 0]

/-- The second processor counts the first child before the first one does; then the first one counts
two children and dispatches the third. -/
theorem pass_fair_third : ∃ s, LTS.runAll Harts.step (.boot 2)
      (twoDraws ++ [.visit 1, .visit 1, .visit 0, .visit 0, .visit 0]) = some s ∧
    s.cpu 0 = .pass ⟨3, 2, 3, [1, 1], false⟩ ∧
    (2 : ℤ) < 3 ∧ (3 : ℤ) ≤ 2 + (s.table.proc 3).sched.toInt := by
  obtain ⟨s, hs, hvalues⟩ : ∃ s, LTS.runAll Harts.step (.boot 2)
      (twoDraws ++ [.visit 1, .visit 1, .visit 0, .visit 0, .visit 0]) = some s ∧
      (s.cpu 0, (s.visit 0).map (·.cpu 0), (s.table.proc 3).sched) =
        (.pass ⟨3, 2, 3, [1, 1], false⟩, some (.busy 3), 1) := by
    refine Option.map_eq_some_iff.mp ?_
    decide +kernel
  simp only [Prod.mk.injEq, Option.map_eq_some_iff] at hvalues
  obtain ⟨hx, ⟨s', hs', hp⟩, htickets⟩ := hvalues
  exact ⟨s, hs, hx, pass_fair (Harts.runAll_reachable hs) hx hs' hp rfl (by rw [htickets]; decide)⟩

/-- Both processors have counted the first child when the second one goes on to the second child,
which it chooses. -/
def overlap : List (Harts.Act 2) :=
  twoDraws ++ [.visit 0, .visit 0, .visit 1, .visit 1, .visit 1, .visit 0]

/-- **Passes disturb each other.** The first processor now adds the ticket of the third child to the
total of the second one, and dispatches that child: it has counted two tickets, and its draw is
three. -/
theorem pass_unfair :
    ∃ s s' x, (passes 2).Reachable s ∧ s.cpu 0 = .pass x ∧ s.visit 0 = some s' ∧
      s'.cpu 0 = .busy 3 ∧ x.exact + (s.table.proc 3).sched.toInt = 2 ∧ x.rn.toInt = 3 := by
  obtain ⟨s, hs, hvalues⟩ : ∃ s, LTS.runAll Harts.step (.boot 2) overlap = some s ∧
      (s.cpu 0, (s.visit 0).map (·.cpu 0), (s.table.proc 3).sched) =
        (.pass ⟨3, 1, 3, [1], true⟩, some (.busy 3), 1) := by
    refine Option.map_eq_some_iff.mp ?_
    decide +kernel
  simp only [Prod.mk.injEq, Option.map_eq_some_iff] at hvalues
  obtain ⟨hx, ⟨s', hs', hp⟩, htickets⟩ := hvalues
  exact ⟨s, s', _, Harts.runAll_reachable hs, hx, hs', hp, by rw [htickets]; rfl, rfl⟩

end Xv6.Sched
