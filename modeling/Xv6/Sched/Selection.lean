import Mathlib.Data.Int.ConditionallyCompleteOrder
import Mathlib.Data.List.MinMax
import Mathlib.Data.Prod.Lex
import Mathlib.Order.ConditionallyCompleteLattice.Basic
import Xv6.Sched.Locks

/-!
# One pass of the schedulers that look for the best process

Under FCFS, PBS and MLFQ a pass of `scheduler` takes the lock of every slot in turn and keeps that
of the best candidate. The two loops differ: the first releases the lock of the slot after the
comparison, unless the slot is now the best; the second goes on with `continue` when it keeps the
lock. Here one processor makes a pass over a table that does not change. The locks are those of
`spinlock.c`, with their panics and the nesting of `push_off` and `pop_off`; the list `trace` of
what has been done to them is not in the source.
-/

namespace Xv6.Locking

open Function List

open Sched (ProcState Level)

/-- What `scheduler` can die of. -/
inductive Panic
  | acquire
  | release
  | popOffInterruptible
  | popOff
deriving DecidableEq

/-- A call of `acquire` or `release`. -/
inductive LockOp (n : ℕ)
  | acquire (p : Fin n)
  | release (p : Fin n)
deriving DecidableEq

/-- The locks of the process table that a processor holds, and its `noff`, its interrupt flag and
its `intena`. -/
structure Locks (n : ℕ) where
  held : Fin n → Bool
  noff : ℕ
  intr : Bool
  intena : Bool
  trace : List (LockOp n)

namespace Locks

variable {n : ℕ}

def intrOn (k : Locks n) : Locks n := { k with intr := true }

def pushOff (k : Locks n) : Locks n :=
  { k with intr := false, noff := k.noff + 1, intena := if k.noff = 0 then k.intr else k.intena }

def popOff (k : Locks n) : Except Panic (Locks n) :=
  if k.intr then .error .popOffInterruptible
  else if k.noff < 1 then .error .popOff
  else .ok { k with noff := k.noff - 1, intr := k.noff - 1 = 0 && k.intena }

/-- `acquire(&p->lock)`, of a lock that no other processor holds. -/
def acquire (k : Locks n) (p : Fin n) : Except Panic (Locks n) :=
  let k := k.pushOff
  if k.held p then .error .acquire
  else .ok { k with held := update k.held p true, trace := k.trace ++ [.acquire p] }

/-- `release(&p->lock)`. -/
def release (k : Locks n) (p : Fin n) : Except Panic (Locks n) :=
  if k.held p then
    popOff { k with held := update k.held p false, trace := k.trace ++ [.release p] }
  else .error .release

/-- The locks in `l` are held and no others, each is counted in `noff`, and interrupts come back
with the release of the last one. -/
structure Holding (l : List (Fin n)) (k : Locks n) : Prop where
  nodup : l.Nodup
  held : ∀ r, k.held r = true ↔ r ∈ l
  noff : k.noff = l.length
  intr : k.intr = l.isEmpty
  intena : l ≠ [] → k.intena = true

variable {l : List (Fin n)} {k : Locks n} {p : Fin n}

theorem Holding.acquire (h : Holding l k) (hp : p ∉ l) :
    ∃ k', k.acquire p = .ok k' ∧ Holding (p :: l) k' ∧ k'.trace = k.trace ++ [.acquire p] := by
  have hfree : ¬k.pushOff.held p = true := mt (h.held p).mp hp
  refine ⟨_, if_neg hfree, ⟨nodup_cons.mpr ⟨hp, h.nodup⟩, fun r => ?_, ?_, rfl, fun _ => ?_⟩, rfl⟩
  · by_cases hr : r = p
    · simp [hr]
    · simpa [hr, pushOff] using h.held r
  · exact congrArg (· + 1) h.noff
  · show (if k.noff = 0 then k.intr else k.intena) = true
    cases l with
    | nil => rw [if_pos (show k.noff = 0 from h.noff), h.intr, isEmpty_nil]
    | cons q l =>
      rw [if_neg (by rw [h.noff]; exact Nat.succ_ne_zero _)]
      exact h.intena (cons_ne_nil q l)

theorem Holding.release (h : Holding l k) (hp : p ∈ l) :
    ∃ k', k.release p = .ok k' ∧ Holding (l.erase p) k' ∧ k'.trace = k.trace ++ [.release p] := by
  have hne : l ≠ [] := ne_nil_of_mem hp
  have hintr : ¬k.intr = true := by
    rw [h.intr, List.isEmpty_iff]
    exact hne
  have hlen : (l.erase p).length = k.noff - 1 := by rw [length_erase_of_mem hp, h.noff]
  have hnoff : ¬k.noff < 1 := by
    rw [h.noff, not_lt]
    exact length_pos_of_ne_nil hne
  refine ⟨⟨update k.held p false, k.noff - 1, k.noff - 1 = 0 && k.intena, k.intena,
    k.trace ++ [.release p]⟩, ?_, ⟨h.nodup.erase p, fun r => ?_, hlen.symm, ?_,
    fun _ => h.intena hne⟩, rfl⟩
  · rw [Locks.release, if_pos ((h.held p).mpr hp), popOff, if_neg hintr, if_neg hnoff]
  · rw [h.nodup.mem_erase_iff]
    by_cases hr : r = p
    · simp [hr]
    · simpa [hr] using h.held r
  · rw [h.intena hne, Bool.and_true, ← hlen, Bool.eq_iff_iff, decide_eq_true_iff,
      List.length_eq_zero_iff, List.isEmpty_iff]

end Locks

/-- The part of the process table that the schedulers read and write. -/
structure Board (b : Build) (n : ℕ) where
  state : Fin n → ProcState
  fields : Fin n → b.Fields

/-- What the dispatch does to the fields: PBS counts it and keeps the tick, MLFQ starts a new
slice. -/
def Build.dispatched (ticks : BitVec 32) : (b : Build) → b.Fields → b.Fields
  | .fcfs => fun stick => stick
  | .pbs => fun (x : Priority) => { x with tickls := ticks, nscheduled := x.nscheduled + 1 }
  | .mlfq => fun (x : Level) => { x with ticksused := 0, waittime := 0 }

section Loop

variable {b : Build} {n : ℕ}

/-- The round of FCFS and PBS at the slot `p`: every slot but the best is released at the end. -/
def scanBest (t : Board b n) (best : Option (Fin n)) (k : Locks n) (p : Fin n) :
    Except Panic (Option (Fin n) × Locks n) := do
  let k ← k.acquire p
  let (best, k) ←
    if t.state p = .runnable then
      match best with
      | none => pure (some p, k)
      | some c =>
        if b.before (t.fields c) (t.fields p) then do
          let k ← k.release c
          pure (some p, k)
        else pure (some c, k)
    else pure (best, k)
  if best ≠ some p then do
    let k ← k.release p
    pure (best, k)
  else pure (best, k)

/-- The round of MLFQ at the slot `p`: a slot that becomes the best goes on with `continue`. -/
def scanMlfq (t : Board b n) (best : Option (Fin n)) (k : Locks n) (p : Fin n) :
    Except Panic (Option (Fin n) × Locks n) := do
  let k ← k.acquire p
  if t.state p = .runnable then
    match best with
    | none => return (some p, k)
    | some c =>
      if b.before (t.fields c) (t.fields p) then
        let k ← k.release c
        return (some p, k)
  let k ← k.release p
  return (best, k)

def visit (t : Board b n) (best : Option (Fin n)) (k : Locks n) (p : Fin n) :
    Except Panic (Option (Fin n) × Locks n) :=
  match b with
  | .mlfq => scanMlfq t best k p
  | _ => scanBest t best k p

def scan (t : Board b n) (l : List (Fin n)) (k : Locks n) :
    Except Panic (Option (Fin n) × Locks n) :=
  l.foldlM (fun x p => visit t x.1 x.2 p) (none, k)

/-- The process that has been chosen, if any, is made to run. -/
def Board.run (t : Board b n) (ticks : BitVec 32) : Option (Fin n) → Board b n
  | none => t
  | some p => ⟨update t.state p .running,
      update t.fields p (b.dispatched ticks (t.fields p))⟩

/-- One pass of `scheduler`, up to `swtch`: the table, the process in `c->proc` and the locks. -/
def pass (t : Board b n) (ticks : BitVec 32) (k : Locks n) :
    Except Panic (Board b n × Option (Fin n) × Locks n) := do
  let (best, k) ← scan t (List.finRange n) k.intrOn
  return (t.run ticks best, best, k)

end Loop

/-- What a build orders processes by, the least first: FCFS by `stick`; PBS by the dynamic priority,
then by the number of dispatches, then by the later `stick`; MLFQ by queue, then by `intime`. -/
def Build.key : (b : Build) → b.Fields → ℤ ×ₗ ℤ ×ₗ ℤ
  | .fcfs => fun (stick : BitVec 32) => toLex (stick.toInt, toLex (0, 0))
  | .pbs => fun (x : Priority) =>
    toLex (computePriority x.priority x.niceness, toLex (x.nscheduled.toInt, -x.stick.toInt))
  | .mlfq => fun (x : Level) => toLex (x.queue, toLex (x.intime.toInt, 0))

theorem before_iff_key (b : Build) (best p : b.Fields) :
    b.before best p = true ↔ b.key p < b.key best := by
  cases b with
  | fcfs =>
    change BitVec 32 at best p
    show p.slt best = true ↔ toLex (p.toInt, _) < toLex (best.toInt, _)
    simp only [Prod.Lex.toLex_lt_toLex, lt_self_iff_false, and_false, or_false,
      BitVec.slt_iff_toInt_lt]
  | pbs =>
    change Priority at best p
    show comparePriority best p = true ↔ toLex _ < toLex _
    rw [Prod.Lex.toLex_lt_toLex, Prod.Lex.toLex_lt_toLex]
    unfold comparePriority
    dsimp only
    generalize computePriority best.priority best.niceness = p1
    generalize computePriority p.priority p.niceness = p2
    by_cases hp : p1 = p2
    · rw [if_neg (not_not.mpr hp)]
      by_cases hn : best.nscheduled = p.nscheduled
      · rw [if_neg (not_not.mpr hn), BitVec.slt_iff_toInt_lt, hn]
        omega
      · have hne : best.nscheduled.toInt ≠ p.nscheduled.toInt := mt BitVec.eq_of_toInt_eq hn
        rw [if_pos hn, BitVec.slt_iff_toInt_lt]
        omega
    · rw [if_pos hp, decide_eq_true_iff]
      omega
  | mlfq =>
    change Level at best p
    show decide (p.Before best) = true ↔ toLex _ < toLex _
    rw [Prod.Lex.toLex_lt_toLex, Prod.Lex.toLex_lt_toLex, decide_eq_true_iff, Level.Before]
    omega

theorem comparePriority_strictWeakOrder :
    IsStrictWeakOrder Priority fun p best => comparePriority best p = true := by
  have hkey : (fun p best => comparePriority best p = true) =
      Order.Preimage (Build.key .pbs) (· < ·) := by
    funext p best
    exact propext (before_iff_key .pbs best p)
  have hlex : IsStrictWeakOrder (ℤ ×ₗ ℤ ×ₗ ℤ) (· < ·) := isStrictWeakOrder_of_isOrderConnected
  rw [hkey]
  exact Order.Preimage.instIsStrictWeakOrder

section Scan

variable {b : Build} {n : ℕ}

/-- The best candidate after the slot `p`. -/
def better (t : Board b n) (best : Option (Fin n)) (p : Fin n) : Option (Fin n) :=
  if t.state p = .runnable then
    match best with
    | none => some p
    | some c => if b.before (t.fields c) (t.fields p) then some p else some c
  else best

/-- What the round at `p` does to the locks: the new candidate keeps its lock and the old one loses
it, or the slot itself is released. -/
def roundOps (t : Board b n) (best : Option (Fin n)) (p : Fin n) : List (LockOp n) :=
  if better t best p = some p then .acquire p :: best.toList.map .release
  else [.acquire p, .release p]

variable {t : Board b n} {best : Option (Fin n)} {k : Locks n} {p c : Fin n}

/-- The outcome of a round at `p`. -/
def Rounded (t : Board b n) (best : Option (Fin n)) (k : Locks n) (p : Fin n)
    (x : Except Panic (Option (Fin n) × Locks n)) : Prop :=
  ∃ k', x = .ok (better t best p, k') ∧ k'.Holding (better t best p).toList ∧
    k'.trace = k.trace ++ roundOps t best p

theorem better_none (hrun : t.state p = .runnable) : better t none p = some p := if_pos hrun

theorem better_ahead (hrun : t.state p = .runnable)
    (hbefore : b.before (t.fields c) (t.fields p) = true) : better t (some c) p = some p := by
  rw [better, if_pos hrun]
  exact if_pos hbefore

theorem better_behind (hbefore : ¬b.before (t.fields c) (t.fields p) = true) :
    better t (some c) p = some c := by
  unfold better
  split
  · exact if_neg hbefore
  · rfl

theorem better_idle (hrun : t.state p ≠ .runnable) : better t best p = best := if_neg hrun

theorem Rounded.first (h : k.Holding []) (hrun : t.state p = .runnable) :
    Rounded t none k p (k.acquire p >>= fun k => pure (some p, k)) := by
  obtain ⟨k', hk', hhold, htrace⟩ := h.acquire (p := p) not_mem_nil
  have hbetter := better_none hrun
  refine ⟨k', ?_, ?_, ?_⟩
  · rw [hk', hbetter]
    rfl
  · rw [hbetter]
    exact hhold
  · rw [htrace, roundOps, if_pos hbetter]
    rfl

theorem Rounded.replace (h : k.Holding [c]) (hp : c ≠ p) (hrun : t.state p = .runnable)
    (hbefore : b.before (t.fields c) (t.fields p) = true) :
    Rounded t (some c) k p
      (k.acquire p >>= fun k => k.release c >>= fun k => pure (some p, k)) := by
  obtain ⟨k1, hk1, hhold1, htrace1⟩ := h.acquire (p := p) (by simpa using hp.symm)
  obtain ⟨k2, hk2, hhold2, htrace2⟩ := hhold1.release (p := c) (by simp)
  have hbetter := better_ahead hrun hbefore
  refine ⟨k2, ?_, ?_, ?_⟩
  · rw [hk1, hbetter]
    show (k1.release c >>= fun k => pure (some p, k)) = _
    rw [hk2]
    rfl
  · rw [hbetter]
    simpa [hp.symm] using hhold2
  · rw [htrace2, htrace1, roundOps, if_pos hbetter, append_assoc]
    rfl

theorem Rounded.skip (h : k.Holding best.toList) (hp : best ≠ some p)
    (hbetter : better t best p = best) :
    Rounded t best k p (k.acquire p >>= fun k => k.release p >>= fun k => pure (best, k)) := by
  have hmem : p ∉ best.toList := by simpa using hp
  obtain ⟨k1, hk1, hhold1, htrace1⟩ := h.acquire hmem
  obtain ⟨k2, hk2, hhold2, htrace2⟩ := hhold1.release mem_cons_self
  rw [erase_cons_head] at hhold2
  refine ⟨k2, ?_, ?_, ?_⟩
  · rw [hk1, hbetter]
    show (k1.release p >>= fun k => pure (best, k)) = _
    rw [hk2]
    rfl
  · rw [hbetter]
    exact hhold2
  · rw [htrace2, htrace1, roundOps, if_neg (by rw [hbetter]; exact hp), append_assoc]
    rfl

theorem scanBest_rounded (h : k.Holding best.toList) (hp : best ≠ some p) :
    Rounded t best k p (scanBest t best k p) := by
  unfold scanBest
  by_cases hrun : t.state p = .runnable
  · cases best with
    | none => simpa [hrun] using Rounded.first h hrun
    | some c =>
      have hne : c ≠ p := fun heq => hp (congrArg some heq)
      by_cases hbefore : b.before (t.fields c) (t.fields p) = true
      · simpa [hrun, hbefore] using Rounded.replace h hne hrun hbefore
      · simpa [hrun, hbefore, hne] using Rounded.skip h hp (better_behind hbefore)
  · simpa [hrun, hp] using Rounded.skip h hp (better_idle hrun)

theorem scanMlfq_rounded (h : k.Holding best.toList) (hp : best ≠ some p) :
    Rounded t best k p (scanMlfq t best k p) := by
  unfold scanMlfq
  by_cases hrun : t.state p = .runnable
  · cases best with
    | none => simpa [hrun] using Rounded.first h hrun
    | some c =>
      have hne : c ≠ p := fun heq => hp (congrArg some heq)
      by_cases hbefore : b.before (t.fields c) (t.fields p) = true
      · simpa [hrun, hbefore] using Rounded.replace h hne hrun hbefore
      · simpa [hrun, hbefore] using Rounded.skip h hp (better_behind hbefore)
  · simpa [hrun] using Rounded.skip h hp (better_idle hrun)

theorem better_cases (t : Board b n) (best : Option (Fin n)) (p : Fin n) :
    better t best p = some p ∨ better t best p = best := by
  by_cases hrun : t.state p = .runnable
  · cases best with
    | none => exact .inl (better_none hrun)
    | some c =>
      by_cases hbefore : b.before (t.fields c) (t.fields p) = true
      · exact .inl (better_ahead hrun hbefore)
      · exact .inr (better_behind hbefore)
  · exact .inr (better_idle hrun)

theorem count_acquire_roundOps (r : Fin n) :
    (roundOps t best p).count (.acquire r) = [p].count r := by
  have hinj : ((LockOp.acquire p == LockOp.acquire r) : Bool) = (p == r) := by
    rw [Bool.eq_iff_iff]
    simp
  unfold roundOps
  split
  · cases best <;> simp [count_cons, hinj]
  · simp [count_cons, hinj]

theorem count_release_roundOps (hp : best ≠ some p) (r : Fin n) :
    (roundOps t best p).count (.release r) + (better t best p).toList.count r =
      best.toList.count r + [p].count r := by
  have hinj (q : Fin n) : ((LockOp.release q == LockOp.release r) : Bool) = (q == r) := by
    rw [Bool.eq_iff_iff]
    simp
  unfold roundOps
  rcases better_cases t best p with hbetter | hbetter
  · rw [if_pos hbetter, hbetter]
    cases best <;> simp [count_cons, hinj]
  · rw [if_neg (by rwa [hbetter]), hbetter]
    simp [count_cons, hinj, add_comm]

variable {l : List (Fin n)}

theorem better_argmin (t : Board b n) (l : List (Fin n)) (p : Fin n) :
    better t ((l.filter fun p => t.state p = .runnable).argmin fun p => b.key (t.fields p)) p =
      ((l ++ [p]).filter fun p => t.state p = .runnable).argmin fun p => b.key (t.fields p) := by
  rw [filter_append]
  by_cases hrun : t.state p = .runnable
  · have hlast : [p].filter (fun p => t.state p = .runnable) = [p] := by simp [hrun]
    rw [hlast, argmin_concat]
    generalize (l.filter fun p => t.state p = .runnable).argmin (fun p => b.key (t.fields p)) = best
    cases best with
    | none => exact better_none hrun
    | some c =>
      rw [better, if_pos hrun]
      simp only [before_iff_key]
  · have hlast : [p].filter (fun p => t.state p = .runnable) = [] := by simp [hrun]
    rw [hlast, append_nil, better_idle hrun]

theorem foldl_better (t : Board b n) (l : List (Fin n)) :
    l.foldl (better t) none =
      (l.filter fun p => t.state p = .runnable).argmin fun p => b.key (t.fields p) := by
  induction l using reverseRecOn with
  | nil => rfl
  | append_singleton l p ih =>
    rw [foldl_append, ih]
    exact better_argmin t l p

/-- What holds after the slots in `l`: the candidate is the first least `RUNNABLE` process among
them, its lock is held, and every lock has been taken once and, but for the candidate's, released
once. -/
structure Scanned (t : Board b n) (l : List (Fin n)) (best : Option (Fin n)) (k : Locks n) :
    Prop where
  least : best = (l.filter fun p => t.state p = .runnable).argmin fun p => b.key (t.fields p)
  holding : k.Holding best.toList
  acquired : ∀ r, k.trace.count (.acquire r) = l.count r
  released : ∀ r, k.trace.count (.release r) + best.toList.count r = l.count r

theorem Scanned.mem (h : Scanned t l best k) (hp : best = some p) : p ∈ l :=
  mem_of_mem_filter (argmin_mem (h.least.symm.trans hp))

theorem Scanned.visit (h : Scanned t l best k) (hp : p ∉ l) :
    ∃ best' k', visit t best k p = .ok (best', k') ∧ Scanned t (l ++ [p]) best' k' := by
  have hne : best ≠ some p := fun heq => hp (h.mem heq)
  have hround : Rounded t best k p (Locking.visit t best k p) := by
    cases b with
    | mlfq => exact scanMlfq_rounded h.holding hne
    | fcfs | pbs => exact scanBest_rounded h.holding hne
  obtain ⟨k', hk', hhold, htrace⟩ := hround
  refine ⟨_, k', hk', ?_, hhold, fun r => ?_, fun r => ?_⟩
  · rw [h.least]
    exact better_argmin t l p
  · rw [htrace, count_append, count_append, h.acquired, count_acquire_roundOps]
  · have hops := count_release_roundOps (t := t) hne r
    have hreleased := h.released r
    rw [htrace, count_append, count_append]
    omega

theorem Scanned.foldlM (h : Scanned t l best k) {l' : List (Fin n)} (hl : (l ++ l').Nodup) :
    ∃ best' k', l'.foldlM (fun x p => Locking.visit t x.1 x.2 p) (best, k) = .ok (best', k') ∧
      Scanned t (l ++ l') best' k' := by
  induction l' generalizing l best k with
  | nil => exact ⟨best, k, rfl, by rwa [append_nil]⟩
  | cons p l' ih =>
    rw [append_cons] at hl ⊢
    have hp : p ∉ l := fun hmem =>
      (nodup_append.mp (nodup_append.mp hl).1).2.2 p hmem p mem_cons_self rfl
    obtain ⟨best1, k1, hk1, h1⟩ := h.visit hp
    obtain ⟨best2, k2, hk2, h2⟩ := ih h1 hl
    refine ⟨best2, k2, ?_, h2⟩
    rw [foldlM_cons, hk1]
    exact hk2

/-- A processor in its scheduler that holds no lock, before a pass. -/
def Locks.idle (n : ℕ) (intr intena : Bool) : Locks n := ⟨fun _ => false, 0, intr, intena, []⟩

theorem Locks.idle_holding (n : ℕ) (intr intena : Bool) :
    (Locks.idle n intr intena).intrOn.Holding [] :=
  ⟨nodup_nil, fun r => by simp [Locks.idle, Locks.intrOn], rfl, rfl, fun h => absurd rfl h⟩

theorem scan_spec (t : Board b n) (intr intena : Bool) :
    ∃ best k, scan t (List.finRange n) (Locks.idle n intr intena).intrOn = .ok (best, k) ∧
      Scanned t (List.finRange n) best k := by
  have hstart : Scanned t [] none (Locks.idle n intr intena).intrOn :=
    ⟨rfl, Locks.idle_holding n intr intena, fun _ => rfl, fun _ => rfl⟩
  exact hstart.foldlM (nodup_finRange n)

end Scan

/-- What a pass over the table `t` comes to: the process `best` that it dispatches, if any, the
table `t'` and the locks `k` at the `swtch`. -/
structure Selected {b : Build} {n : ℕ} (t : Board b n) (ticks : BitVec 32) (t' : Board b n)
    (best : Option (Fin n)) (k : Locks n) : Prop where
  /-- Nobody is dispatched exactly if nobody is `RUNNABLE`. -/
  none_iff : best = none ↔ ∀ p, t.state p ≠ .runnable
  runnable : ∀ p, best = some p → t.state p = .runnable
  /-- No `RUNNABLE` process comes before the one that is dispatched. -/
  minimal : ∀ p, best = some p → ∀ r, t.state r = .runnable →
    b.before (t.fields p) (t.fields r) = false
  /-- It is the first in the table among those that nothing comes before. -/
  first : ∀ p, best = some p → ∀ r, t.state r = .runnable →
    (∀ q, t.state q = .runnable → b.before (t.fields r) (t.fields q) = false) → p ≤ r
  /-- The table at the `swtch`. -/
  table : t' = t.run ticks best
  /-- The one lock that is held is that of the process that is dispatched. -/
  held : ∀ r, k.held r = true ↔ best = some r
  noff : k.noff = if best = none then 0 else 1
  intr : k.intr = decide (best = none)
  /-- Every lock has been taken once, and all the others have been released once. -/
  acquired : ∀ r, k.trace.count (.acquire r) = 1
  released : ∀ r, k.trace.count (.release r) = if best = some r then 0 else 1

section Pass

variable {b : Build} {n : ℕ} {t : Board b n} {ticks : BitVec 32} {best : Option (Fin n)}
  {k : Locks n}

theorem mem_runnable {r : Fin n} :
    (r ∈ (List.finRange n).filter fun p => t.state p = .runnable) ↔ t.state r = .runnable := by
  simp [mem_filter, mem_finRange]

theorem le_of_idxOf_le {f : Fin n → Bool} {p r : Fin n} (hp : p ∈ (List.finRange n).filter f)
    (hr : r ∈ (List.finRange n).filter f)
    (h : ((List.finRange n).filter f).idxOf p ≤ ((List.finRange n).filter f).idxOf r) : p ≤ r := by
  rcases h.lt_or_eq with hlt | heq
  · have hsorted := (pairwise_lt_finRange n).filter f
    have hget := pairwise_iff_getElem.mp hsorted _ _ (idxOf_lt_length_of_mem hp)
      (idxOf_lt_length_of_mem hr) hlt
    rw [getElem_idxOf, getElem_idxOf] at hget
    exact hget.le
  · exact ((idxOf_inj hp).mp heq).le

theorem Scanned.selected (h : Scanned t (List.finRange n) best k) :
    Selected t ticks (t.run ticks best) best k where
  none_iff := by
    rw [h.least, argmin_eq_none, filter_eq_nil_iff]
    simp [mem_finRange]
  runnable p hp := mem_runnable.mp (argmin_mem (h.least.symm.trans hp))
  minimal p hp r hr := by
    have hleast := not_lt_of_mem_argmin (mem_runnable.mpr hr) (h.least.symm.trans hp)
    rwa [← before_iff_key, Bool.not_eq_true] at hleast
  first p hp r hr hmin := by
    obtain ⟨hp', -, hfirst⟩ := argmin_eq_some_iff.mp (h.least.symm.trans hp)
    refine le_of_idxOf_le hp' (mem_runnable.mpr hr) (hfirst r (mem_runnable.mpr hr) ?_)
    have hbefore := hmin p (mem_runnable.mp hp')
    rwa [← Bool.not_eq_true, before_iff_key, not_lt] at hbefore
  table := rfl
  held r := by
    rw [h.holding.held r]
    cases best <;> simp [eq_comm]
  noff := by
    rw [h.holding.noff]
    cases best <;> simp
  intr := by
    rw [h.holding.intr]
    cases best <;> simp
  acquired r := by
    rw [h.acquired r]
    exact count_eq_one_of_mem (nodup_finRange n) (mem_finRange r)
  released r := by
    have hcount := h.released r
    rw [count_eq_one_of_mem (nodup_finRange n) (mem_finRange r)] at hcount
    by_cases hr : best = some r
    · rw [hr] at hcount
      rw [if_pos hr]
      simpa using hcount
    · have hnone : best.toList.count r = 0 := count_eq_zero_of_not_mem (by simpa using hr)
      rw [if_neg hr]
      omega

end Pass

/-- **A pass picks the best process and keeps its locks straight.** Over every table that does not
change meanwhile, a pass comes to the `swtch` without a panic, with the first `RUNNABLE` process
that no other comes before, or nobody, and with that process's lock only. The order is that of
`stick` under FCFS, of the dynamic priority, fewer dispatches and a later `stick` under PBS, and of
queue and `intime` under MLFQ; `compare_priority` is a strict weak order. -/
theorem pass_selects :
    (∀ (b : Build) (n : ℕ) (t : Board b n) (ticks : BitVec 32) (intr intena : Bool), ∃ t' best k,
      pass t ticks (Locks.idle n intr intena) = .ok (t', best, k) ∧ Selected t ticks t' best k) ∧
    (∀ (b : Build) (best p : b.Fields), b.before best p = true ↔ b.key p < b.key best) ∧
    IsStrictWeakOrder Priority fun p best => comparePriority best p = true := by
  refine ⟨fun b n t ticks intr intena => ?_, before_iff_key, comparePriority_strictWeakOrder⟩
  obtain ⟨best, k, hscan, h⟩ := scan_spec t intr intena
  refine ⟨t.run ticks best, best, k, ?_, h.selected⟩
  rw [pass, hscan]
  rfl

/-- A pass makes the candidate of the whole table run, and holds its lock. -/
theorem pass_eq {b : Build} {n : ℕ} (t : Board b n) (ticks : BitVec 32) (intr intena : Bool)
    {best : Option (Fin n)} (hbest : (List.finRange n).foldl (better t) none = best) :
    ∃ k, pass t ticks (Locks.idle n intr intena) = .ok (t.run ticks best, best, k) ∧
      k.Holding best.toList := by
  obtain ⟨best', k, hscan, h⟩ := scan_spec t intr intena
  obtain rfl : best = best' := by rw [← hbest, foldl_better, h.least]
  refine ⟨k, ?_, h.holding⟩
  rw [pass, hscan]
  rfl

/-- What the runs of `mlfq` have of the table. -/
def mlfqBoard (proc : Sched.Slot → Sched.Proc Level) : Board .mlfq Sched.nproc :=
  ⟨fun p => (proc p).state, fun p => (proc p).sched⟩

theorem bestOf_eq_foldl (proc : Sched.Slot → Sched.Proc Level) (l : List Sched.Slot)
    (best : Option Sched.Slot) :
    Sched.bestOf proc l best = l.foldl (better (mlfqBoard proc)) best := by
  induction l generalizing best with
  | nil => rfl
  | cons p l ih =>
    rw [foldl_cons]
    conv => lhs; unfold Sched.bestOf
    by_cases hrun : (proc p).state = .runnable
    · rw [if_pos hrun]
      cases best with
      | none =>
        rw [ih]
        exact congrArg (l.foldl _) (better_none hrun).symm
      | some c =>
        dsimp only
        by_cases hbefore : (proc p).sched.Before (proc c).sched
        · rw [if_pos hbefore, ih]
          refine congrArg (l.foldl _) (better_ahead hrun ?_).symm
          exact decide_eq_true (p := (proc p).sched.Before (proc c).sched) hbefore
        · rw [if_neg hbefore, ih]
          refine congrArg (l.foldl _) (better_behind ?_).symm
          exact mt (of_decide_eq_true (p := (proc p).sched.Before (proc c).sched)) hbefore
    · rw [if_neg hrun, better_idle hrun]
      exact ih best

end Xv6.Locking
