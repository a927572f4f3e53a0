import Mathlib.Data.Finset.Card
import Mathlib.Data.Fintype.Basic
import Xv6.Lib.Transition
import Xv6.Log.Commit

/-!
# Concurrent operations on the log

Any number of processes run `begin_op`, `log_write` and `end_op`. Each critical section on
`log.lock` is one step; `commit()` runs without the lock, so each of its disk writes is a step of
its own and the other processes may run in between. A process calls `log_write` and `end_op` only
in an operation, as the callers in the kernel do. What happens is recorded in a history, the newest
observation first.
-/

namespace Xv6.Log

open Function List Finset

abbrev maxOpBlocks : ℕ := 10

/-- The panics of `log.c` during operations. -/
inductive Panic
  | tooBig
  | outsideTrans
  | committing
deriving DecidableEq

/-- The argument of `panic`. -/
def Panic.message : Panic → String
  | .tooBig => "too big a transaction"
  | .outsideTrans => "log_write outside of trans"
  | .committing => "log.committing"

/-- The next step of a process in `commit()`. -/
inductive Phase
  | start
  | writeLog (tail : ℕ)
  | writeHead
  | install (tail : ℕ)
  | clear
  | eraseHead
  | finish
deriving DecidableEq

/-- Where a process stands: outside, about to take `log.lock` in `begin_op`, asleep in it, between
`begin_op` and `end_op`, or in `commit()`. -/
inductive Pc
  | idle
  | beginning
  | asleep
  | inOp
  | commit (ph : Phase)
deriving DecidableEq

/-- What is recorded: an operation is admitted, names a block, ends; a slot, the header with its
blocks, a home block is written; the header is erased. -/
inductive Obs (P : Type*)
  | admitted (p : P)
  | logged (p : P) (b : ℕ)
  | ended (p : P)
  | slot (addr : ℕ)
  | head (blocks : List ℕ)
  | home (b : ℕ)
  | erased
deriving DecidableEq

/-- The log in memory (`block` is `lh.block` up to `lh.n`), the number of times each buffer is
pinned, the processes, a panic if there was one, and the history. -/
structure GroupLog (P : Type*) where
  pc : P → Pc
  outstanding : ℤ
  committing : Bool
  block : List ℕ
  pins : ℕ → ℤ
  panicked : Option Panic
  history : List (Obs P)

variable {P : Type*} [DecidableEq P] {s s' : GroupLog P}

/-- `wakeup(&log)`: the sleepers in `begin_op` try again. -/
def GroupLog.wakeup (s : GroupLog P) : GroupLog P :=
  { s with pc := fun p => if s.pc p = .asleep then .beginning else s.pc p }

/-- `bpin` of a block's buffer. -/
def bpin (b : ℕ) (s : GroupLog P) : GroupLog P := { s with pins := update s.pins b (s.pins b + 1) }

/-- `bunpin` of a block's buffer. -/
def bunpin (b : ℕ) (s : GroupLog P) : GroupLog P :=
  { s with pins := update s.pins b (s.pins b - 1) }

/-- The process goes on at `pc`. -/
def GroupLog.goto (s : GroupLog P) (p : P) (pc : Pc) : GroupLog P :=
  { s with pc := update s.pc p pc }

def GroupLog.record (s : GroupLog P) (o : Obs P) : GroupLog P :=
  { s with history := o :: s.history }

/-- One round of the loop of `begin_op`. -/
def beginOp (p : P) (s : GroupLog P) : GroupLog P :=
  if s.committing then s.goto p .asleep
  else if (s.block.length : ℤ) + (s.outstanding + 1) * maxOpBlocks > logSize then s.goto p .asleep
  else { s with outstanding := s.outstanding + 1 }.goto p .inOp |>.record (.admitted p)

/-- `log_write` of the buffer of block `b`. -/
def logWrite (a : LogArea) (p : P) (b : ℕ) (s : GroupLog P) : GroupLog P :=
  if logSize ≤ s.block.length ∨ (a.size : ℤ) - 1 ≤ s.block.length then
    { s with panicked := some .tooBig }
  else if s.outstanding < 1 then { s with panicked := some .outsideTrans }
  else if b ∈ s.block then s.record (.logged p b)
  else bpin b { s with block := s.block ++ [b] } |>.record (.logged p b)

/-- `end_op` up to its first `release`. -/
def endOp (p : P) (s : GroupLog P) : GroupLog P :=
  let s := { s with outstanding := s.outstanding - 1 }.record (.ended p)
  if s.committing then { s with panicked := some .committing }
  else if s.outstanding = 0 then { s with committing := true }.goto p (.commit .start)
  else s.wakeup.goto p .idle

/-- One step of `commit()` and of the rest of `end_op` after it. -/
def commitStep (a : LogArea) (p : P) (s : GroupLog P) : Phase → GroupLog P
  | .start => s.goto p (.commit (if 0 < s.block.length then .writeLog 0 else .finish))
  | .writeLog tail =>
    if tail < s.block.length then
      s.record (.slot (a.start + tail + 1)) |>.goto p (.commit (.writeLog (tail + 1)))
    else s.goto p (.commit .writeHead)
  | .writeHead => s.record (.head s.block) |>.goto p (.commit (.install 0))
  | .install tail =>
    match s.block[tail]? with
    | some b => bunpin b (s.record (.home b)) |>.goto p (.commit (.install (tail + 1)))
    | none => s.goto p (.commit .clear)
  | .clear => { s with block := [] }.goto p (.commit .eraseHead)
  | .eraseHead => s.record .erased |>.goto p (.commit .finish)
  | .finish => { s with committing := false }.wakeup.goto p .idle

inductive Event (P : Type*)
  | enter (p : P)
  | beginOp (p : P)
  | logWrite (p : P) (b : ℕ)
  | endOp (p : P)
  | commit (p : P)

/-- The step of an event in a state that has not panicked, if the process is where it can take
it. -/
def Event.run (a : LogArea) (s : GroupLog P) : Event P → Option (GroupLog P)
  | .enter p => if s.pc p = .idle then some (s.goto p .beginning) else none
  | .beginOp p => if s.pc p = .beginning then some (Log.beginOp p s) else none
  | .logWrite p b => if s.pc p = .inOp then some (Log.logWrite a p b s) else none
  | .endOp p => if s.pc p = .inOp then some (Log.endOp p s) else none
  | .commit p =>
    match s.pc p with
    | .commit ph => some (commitStep a p s ph)
    | _ => none

/-- **What a step can be**: the process stands where the event is possible, and runs it. -/
theorem Event.run_cases {a : LogArea} {e : Event P} (h : e.run a s = some s') :
    (∃ p, e = .enter p ∧ s.pc p = .idle ∧ s' = s.goto p .beginning) ∨
    (∃ p, e = .beginOp p ∧ s.pc p = .beginning ∧ s' = Log.beginOp p s) ∨
    (∃ p b, e = .logWrite p b ∧ s.pc p = .inOp ∧ s' = Log.logWrite a p b s) ∨
    (∃ p, e = .endOp p ∧ s.pc p = .inOp ∧ s' = Log.endOp p s) ∨
    ∃ p ph, e = .commit p ∧ s.pc p = .commit ph ∧ s' = commitStep a p s ph := by
  cases e with
  | enter p =>
    obtain ⟨hp, rfl⟩ : s.pc p = .idle ∧ s.goto p .beginning = s' := by simpa [Event.run] using h
    exact .inl ⟨p, rfl, hp, rfl⟩
  | beginOp p =>
    obtain ⟨hp, rfl⟩ : s.pc p = .beginning ∧ Log.beginOp p s = s' := by simpa [Event.run] using h
    exact .inr (.inl ⟨p, rfl, hp, rfl⟩)
  | logWrite p b =>
    obtain ⟨hp, rfl⟩ : s.pc p = .inOp ∧ Log.logWrite a p b s = s' := by simpa [Event.run] using h
    exact .inr (.inr (.inl ⟨p, b, rfl, hp, rfl⟩))
  | endOp p =>
    obtain ⟨hp, rfl⟩ : s.pc p = .inOp ∧ Log.endOp p s = s' := by simpa [Event.run] using h
    exact .inr (.inr (.inr (.inl ⟨p, rfl, hp, rfl⟩)))
  | commit p =>
    simp only [Event.run] at h
    split at h
    · rename_i ph hp
      exact .inr (.inr (.inr (.inr ⟨p, ph, rfl, hp, (Option.some.inj h).symm⟩)))
    · cases h

def GroupLog.initial : GroupLog P := ⟨fun _ => .idle, 0, false, [], fun _ => 0, none, []⟩

/-- The log used by the processes `P`. -/
def groupLog (P : Type*) [DecidableEq P] (a : LogArea) : LTS (GroupLog P) (Event P) where
  init s := s = .initial
  step s e s' := s.panicked = none ∧ e.run a s = some s'

/-- The blocks named by `log_write` since the header was last written with blocks in it. -/
def named : List (Obs P) → Finset ℕ
  | [] => ∅
  | .head _ :: _ => ∅
  | .logged _ b :: t => insert b (named t)
  | _ :: t => named t

def NoHead (t : List (Obs P)) : Prop := ∀ bl, Obs.head bl ∉ t

/-- The history since the process was last admitted. -/
def since (p : P) (t : List (Obs P)) : List (Obs P) := t.takeWhile fun o => o ≠ .admitted p

/-- The mode of the log: open for operations, or one process in a phase of `commit()`. -/
inductive Mode (P : Type*)
  | opened
  | commit (p : P) (ph : Phase)
deriving DecidableEq

/-- How many of `n` logged blocks have been unpinned. -/
def Mode.unpinned (n : ℕ) : Mode P → ℕ
  | .commit _ (.install tail) => tail
  | .commit _ .clear => n
  | _ => 0

/-- Between the commit point and the end of the transaction. -/
def Mode.AfterHead : Mode P → Prop
  | .commit _ (.install _) | .commit _ .clear | .commit _ .eraseHead => True
  | _ => False

def Mode.Cleared : Mode P → Prop
  | .commit _ .eraseHead | .commit _ .finish => True
  | _ => False

omit [DecidableEq P] in
theorem Mode.unpinned_of_not_afterHead {m : Mode P} {n : ℕ} (h : ¬m.AfterHead) :
    m.unpinned n = 0 := by
  unfold Mode.unpinned
  split
  · exact absurd trivial h
  · exact absurd trivial h
  · rfl

def pinnedOnce (l : List ℕ) (b : ℕ) : ℤ := if b ∈ l then 1 else 0

def inProgress [Fintype P] (pc : P → Pc) : Finset P := univ.filter fun q => pc q = .inOp

/-- Where the processes may stand in mode `m`. -/
structure Control [Fintype P] (m : Mode P) (pc : P → Pc) (committing : Bool) (outstanding : ℤ) :
    Prop where
  /-- `log.committing` says which mode it is. -/
  closed : committing = true ↔ m ≠ .opened
  /-- Only the process of the mode is in `commit()`. -/
  commits : ∀ q ph, pc q = .commit ph ↔ m = .commit q ph
  /-- No operation is in progress during a commit. -/
  quiet : m ≠ .opened → ∀ q, pc q ≠ .inOp
  count : outstanding = (inProgress pc).card

/-- What the log holds in mode `m`. -/
structure Content (a : LogArea) (m : Mode P) (block : List ℕ) (pins : ℕ → ℤ)
    (history : List (Obs P)) : Prop where
  nodup : block.Nodup
  room : block.length ≤ a.size - 1
  pinned : pins = pinnedOnce (block.drop (m.unpinned block.length))
  cleared : m.Cleared → block = []
  /-- Up to the commit point the log lists the blocks named. -/
  listed : ¬m.AfterHead → block.toFinset = named history
  committed : m.AfterHead → named history = ∅
  slots : ∀ addr, .slot addr ∈ history → addr ∈ a.blocks

/-- The invariant, in mode `m`. -/
structure InvAt [Fintype P] (a : LogArea) (m : Mode P) (s : GroupLog P) : Prop where
  control : Control m s.pc s.committing s.outstanding
  content : Content a m s.block s.pins s.history
  /-- There was no commit since an operation in progress began. -/
  whole : ∀ q, s.pc q = .inOp → NoHead (since q s.history)
  fine : s.panicked ≠ some .outsideTrans ∧ s.panicked ≠ some .committing

section InProgress

variable [Fintype P] {pc : P → Pc} {p : P}

omit [DecidableEq P] in
theorem mem_inProgress {q : P} : q ∈ inProgress pc ↔ pc q = .inOp := by simp [inProgress]

theorem inProgress_enter : inProgress (update pc p .inOp) = insert p (inProgress pc) := by
  ext q
  by_cases hq : q = p
  · simp [inProgress, hq]
  · simp [inProgress, hq]

theorem inProgress_leave {x : Pc} (hx : x ≠ .inOp) :
    inProgress (update pc p x) = (inProgress pc).erase p := by
  ext q
  by_cases hq : q = p
  · simp [inProgress, hq, hx]
  · simp [inProgress, hq]

end InProgress

namespace Control

variable [Fintype P] {m : Mode P} {pc pc' : P → Pc} {c : Bool} {n : ℤ} {p : P} {ph : Phase}

section

variable (h : Control m pc c n)

include h

omit [DecidableEq P] in
theorem neutral (hop : ∀ q, pc' q = .inOp ↔ pc q = .inOp)
    (hcommit : ∀ q ph, pc' q = .commit ph ↔ pc q = .commit ph) : Control m pc' c n where
  closed := h.closed
  commits q ph := (hcommit q ph).trans (h.commits q ph)
  quiet hm q hq := h.quiet hm q ((hop q).mp hq)
  count := by
    rw [h.count]
    congr 2
    ext q
    rw [mem_inProgress, mem_inProgress, hop]

theorem move {x : Pc} (hp : pc p ≠ .inOp) (hp' : ∀ ph, pc p ≠ .commit ph) (hx : x ≠ .inOp)
    (hx' : ∀ ph, x ≠ .commit ph) : Control m (update pc p x) c n := by
  refine h.neutral (fun q => ?_) (fun q ph => ?_)
  · by_cases hq : q = p
    · subst hq
      simp [hx, hp]
    · simp [hq]
  · by_cases hq : q = p
    · subst hq
      simp [hx', hp']
    · simp [hq]

omit [DecidableEq P] in
theorem wakeup : Control m (fun q => if pc q = .asleep then .beginning else pc q) c n := by
  refine h.neutral (fun q => ?_) (fun q ph => ?_)
  · by_cases hq : pc q = .asleep
    · simp [hq]
    · simp [hq]
  · by_cases hq : pc q = .asleep
    · simp [hq]
    · simp [hq]

theorem opened_of_inOp (hp : pc p = .inOp) : m = .opened := by
  by_contra hm
  exact h.quiet hm p hp

theorem opened_of_not_committing (hc : ¬c = true) : m = .opened := by
  by_contra hm
  exact hc (h.closed.mpr hm)

end

omit [DecidableEq P] in
theorem not_committing (h : Control .opened pc c n) : ¬c = true := fun hc => h.closed.mp hc rfl

omit [DecidableEq P] in
theorem not_commit (h : Control .opened pc c n) (q : P) (ph : Phase) : pc q ≠ .commit ph := by
  intro hq
  cases (h.commits q ph).mp hq

theorem enter (h : Control .opened pc c n) (hp : pc p ≠ .inOp) :
    Control .opened (update pc p .inOp) c (n + 1) where
  closed := h.closed
  commits q ph := by
    by_cases hq : q = p
    · subst hq
      simp
    · simpa [hq] using h.not_commit q ph
  quiet hm := absurd rfl hm
  count := by
    rw [inProgress_enter, card_insert_of_notMem fun hmem => hp (mem_inProgress.mp hmem), h.count]
    push_cast
    rfl

theorem card_leave (h : Control m pc c n) (hp : pc p = .inOp) {x : Pc} (hx : x ≠ .inOp) :
    n - 1 = (inProgress (update pc p x)).card := by
  have hmem : p ∈ inProgress pc := mem_inProgress.mpr hp
  have hpos : 0 < (inProgress pc).card := card_pos.mpr ⟨p, hmem⟩
  rw [inProgress_leave hx, card_erase_of_mem hmem, h.count]
  omega

theorem leave (h : Control .opened pc c n) (hp : pc p = .inOp) :
    Control .opened (update pc p .idle) c (n - 1) where
  closed := h.closed
  commits q ph := by
    by_cases hq : q = p
    · subst hq
      simp
    · simpa [hq] using h.not_commit q ph
  quiet hm := absurd rfl hm
  count := h.card_leave hp (by simp)

theorem close (h : Control .opened pc c n) (hp : pc p = .inOp) (hlast : n - 1 = 0) :
    Control (.commit p .start) (update pc p (.commit .start)) true (n - 1) where
  closed := by simp
  commits q ph := by
    by_cases hq : q = p
    · subst hq
      simp [eq_comm]
    · simpa [hq, Ne.symm hq] using h.not_commit q ph
  quiet _ q hq := by
    -- the count says that nobody is left
    have hcard := h.card_leave hp (x := .commit .start) (by simp)
    rw [hlast] at hcard
    have hnone := card_eq_zero.mp (Int.natCast_eq_zero.mp hcard.symm)
    exact notMem_empty q (hnone ▸ mem_inProgress.mpr hq)
  count := h.card_leave hp (by simp)

theorem advance (h : Control (.commit p ph) pc c n) (ph' : Phase) :
    Control (.commit p ph') (update pc p (.commit ph')) c n where
  closed := by simpa using h.closed
  commits q ph'' := by
    by_cases hq : q = p
    · subst hq
      simp
    · have hnot := (h.commits q ph'').not.mpr (by simp [Ne.symm hq])
      simpa [hq, Ne.symm hq] using hnot
  quiet _ q := by
    by_cases hq : q = p
    · subst hq
      simp
    · simpa [hq] using h.quiet (by simp) q
  count := by
    have hp : p ∉ inProgress pc := fun hmem => h.quiet (by simp) p (mem_inProgress.mp hmem)
    rw [inProgress_leave (by simp), erase_eq_of_notMem hp, h.count]

theorem reopen (h : Control (.commit p ph) pc c n) :
    Control .opened (update pc p .idle) false n where
  closed := by simp
  commits q ph' := by
    by_cases hq : q = p
    · subst hq
      simp
    · have hnot := (h.commits q ph').not.mpr (by simp [Ne.symm hq])
      simpa [hq] using hnot
  quiet hm := absurd rfl hm
  count := by
    have hp : p ∉ inProgress pc := fun hmem => h.quiet (by simp) p (mem_inProgress.mp hmem)
    rw [inProgress_leave (by simp), erase_eq_of_notMem hp, h.count]

end Control

section Pins

variable {l : List ℕ} {b : ℕ}

theorem pinnedOnce_append (hb : b ∉ l) :
    update (pinnedOnce l) b (pinnedOnce l b + 1) = pinnedOnce (l ++ [b]) := by
  funext x
  by_cases hx : x = b
  · subst hx
    simp [pinnedOnce, hb]
  · simp [pinnedOnce, hx]

/-- Unpinning the first block of a list without duplicates leaves the rest pinned. -/
theorem pinnedOnce_drop {tail : ℕ} (hnd : l.Nodup) (hb : l[tail]? = some b) :
    update (pinnedOnce (l.drop tail)) b (pinnedOnce (l.drop tail) b - 1) =
      pinnedOnce (l.drop (tail + 1)) := by
  obtain ⟨hlt, hget⟩ := List.getElem?_eq_some_iff.mp hb
  have hcons : l.drop tail = b :: l.drop (tail + 1) := by
    rw [drop_eq_getElem_cons hlt, hget]
  have hnot : b ∉ l.drop (tail + 1) := by
    have := hnd.sublist (drop_sublist tail l)
    rw [hcons] at this
    exact (nodup_cons.mp this).1
  rw [hcons]
  funext x
  by_cases hx : x = b
  · subst hx
    simp [pinnedOnce, hnot]
  · simp [pinnedOnce, hx]

end Pins

namespace Content

variable {a : LogArea} {m m' : Mode P} {block : List ℕ} {pins : ℕ → ℤ} {t : List (Obs P)}
  {p : P} {b : ℕ}

omit [DecidableEq P]

theorem record (h : Content a m block pins t) {o : Obs P} (hnamed : named (o :: t) = named t)
    (hslot : ∀ addr, o = .slot addr → addr ∈ a.blocks) : Content a m block pins (o :: t) where
  nodup := h.nodup
  room := h.room
  pinned := h.pinned
  cleared := h.cleared
  listed hm := hnamed ▸ h.listed hm
  committed hm := hnamed ▸ h.committed hm
  slots addr hmem := by
    rcases List.mem_cons.mp hmem with heq | hold
    · exact hslot addr heq.symm
    · exact h.slots addr hold

theorem before (h : Content a m block pins t) (hm : ¬m.AfterHead) (hm' : ¬m'.AfterHead)
    (hc : m'.Cleared → block = []) : Content a m' block pins t where
  nodup := h.nodup
  room := h.room
  pinned := by rw [h.pinned, Mode.unpinned_of_not_afterHead hm, Mode.unpinned_of_not_afterHead hm']
  cleared := hc
  listed _ := h.listed hm
  committed hafter := absurd hafter hm'
  slots := h.slots

theorem absorb (h : Content a .opened block pins t) (hb : b ∈ block) :
    Content a .opened block pins (.logged p b :: t) where
  nodup := h.nodup
  room := h.room
  pinned := h.pinned
  cleared := h.cleared
  listed hm := by
    have hmem : b ∈ named t := h.listed hm ▸ mem_toFinset.mpr hb
    rw [h.listed hm, named, insert_eq_of_mem hmem]
  committed hm := hm.elim
  slots addr hmem := h.slots addr (by simpa using hmem)

theorem append (h : Content a .opened block pins t) (hb : b ∉ block)
    (hroom : block.length + 1 ≤ a.size - 1) :
    Content a .opened (block ++ [b]) (update pins b (pins b + 1)) (.logged p b :: t) where
  nodup := by
    rw [nodup_append]
    refine ⟨h.nodup, nodup_singleton b, ?_⟩
    rintro x hx y hy rfl
    exact hb (List.mem_singleton.mp hy ▸ hx)
  room := by simpa using hroom
  pinned := by
    rw [h.pinned]
    exact pinnedOnce_append hb
  cleared hm := hm.elim
  listed hm := by
    rw [named, ← h.listed hm]
    ext x
    simp
  committed hm := hm.elim
  slots addr hmem := h.slots addr (by simpa using hmem)

/-- **The commit point**: the header lists all the blocks named. -/
theorem head (h : Content a (.commit p .writeHead) block pins t) :
    Content a (.commit p (.install 0)) block pins (.head block :: t) where
  nodup := h.nodup
  room := h.room
  pinned := h.pinned
  cleared hm := hm.elim
  listed hm := absurd trivial hm
  committed _ := rfl
  slots addr hmem := h.slots addr (by simpa using hmem)

theorem install {tail : ℕ} (h : Content a (.commit p (.install tail)) block pins t)
    (hb : block[tail]? = some b) :
    Content a (.commit p (.install (tail + 1))) block (update pins b (pins b - 1))
      (.home b :: t) where
  nodup := h.nodup
  room := h.room
  pinned := by
    rw [h.pinned]
    exact pinnedOnce_drop h.nodup hb
  cleared hm := hm.elim
  listed hm := absurd trivial hm
  committed _ := h.committed trivial
  slots addr hmem := h.slots addr (by simpa using hmem)

theorem installed {tail : ℕ} (h : Content a (.commit p (.install tail)) block pins t)
    (hend : block[tail]? = none) : Content a (.commit p .clear) block pins t where
  nodup := h.nodup
  room := h.room
  pinned := by
    have hle : block.length ≤ tail := List.getElem?_eq_none_iff.mp hend
    rw [h.pinned]
    simp only [Mode.unpinned, drop_length, drop_eq_nil_of_le hle]
  cleared hm := hm.elim
  listed hm := absurd trivial hm
  committed _ := h.committed trivial
  slots := h.slots

theorem clear (h : Content a (.commit p .clear) block pins t) :
    Content a (.commit p .eraseHead) [] pins t where
  nodup := nodup_nil
  room := Nat.zero_le _
  pinned := by
    rw [h.pinned]
    simp only [Mode.unpinned, drop_length, drop_nil]
  cleared _ := rfl
  listed hm := absurd trivial hm
  committed _ := h.committed trivial
  slots := h.slots

/-- The header is erased: nothing is listed, and nothing has been named since the commit. -/
theorem erase (h : Content a (.commit p .eraseHead) block pins t) :
    Content a (.commit p .finish) block pins (.erased :: t) where
  nodup := h.nodup
  room := h.room
  pinned := h.pinned
  cleared _ := h.cleared trivial
  listed _ := by
    rw [h.cleared trivial, toFinset_nil]
    exact (h.committed trivial).symm
  committed hm := hm.elim
  slots addr hmem := h.slots addr (by simpa using hmem)

end Content

theorem since_cons (p : P) (o : Obs P) (t : List (Obs P)) :
    since p (o :: t) = if o = .admitted p then [] else o :: since p t := by
  by_cases ho : o = .admitted p
  · simp [since, ho]
  · simp [since, ho]

/-- An observation other than a commit keeps an operation's history free of commits. -/
theorem NoHead.since_cons {p : P} {o : Obs P} {t : List (Obs P)} (h : NoHead (since p t))
    (ho : ∀ bl, o ≠ .head bl) : NoHead (since p (o :: t)) := by
  intro bl hmem
  rw [Log.since_cons] at hmem
  split_ifs at hmem with hp
  · cases hmem
  · rcases List.mem_cons.mp hmem with heq | hold
    · exact ho bl heq.symm
    · exact h bl hold

theorem of_goto {p q : P} {x : Pc} (h : (s.goto p x).pc q = .inOp) (hx : x ≠ .inOp) :
    s.pc q = .inOp := by
  by_cases hq : q = p
  · subst hq
    exact absurd (by simpa [GroupLog.goto] using h) hx
  · simpa [GroupLog.goto, hq] using h

omit [DecidableEq P] in
theorem of_wakeup {q : P} (h : s.wakeup.pc q = .inOp) : s.pc q = .inOp := by
  by_cases hq : s.pc q = .asleep
  · simp [GroupLog.wakeup, hq] at h
  · simpa [GroupLog.wakeup, hq] using h

namespace InvAt

variable [Fintype P] {a : LogArea} {m : Mode P} {s : GroupLog P} {p : P}

theorem initial : InvAt a .opened (.initial : GroupLog P) where
  control := ⟨by simp [GroupLog.initial], by simp [GroupLog.initial],
    fun hm => absurd rfl hm, by simp [GroupLog.initial, inProgress]⟩
  content := ⟨List.nodup_nil, Nat.zero_le _, rfl, fun _ => rfl, fun _ => rfl, fun hm => hm.elim,
    fun _ hmem => by cases hmem⟩
  whole q hq := by cases hq
  fine := by simp [GroupLog.initial]

theorem move {x : Pc} (h : InvAt a m s) (hp : s.pc p ≠ .inOp) (hp' : ∀ ph, s.pc p ≠ .commit ph)
    (hx : x ≠ .inOp) (hx' : ∀ ph, x ≠ .commit ph) : InvAt a m (s.goto p x) where
  control := h.control.move hp hp' hx hx'
  content := h.content
  whole q hq := h.whole q (of_goto hq hx)
  fine := h.fine

theorem beginOp (h : InvAt a m s) (hp : s.pc p = .beginning) : InvAt a m (Log.beginOp p s) := by
  have hsleep : InvAt a m (s.goto p .asleep) :=
    h.move (by simp [hp]) (by simp [hp]) (by simp) (by simp)
  unfold Log.beginOp
  split_ifs with hc hfull
  · exact hsleep
  · exact hsleep
  · obtain rfl := h.control.opened_of_not_committing hc
    refine ⟨h.control.enter (by simp [hp]), h.content.record rfl (by simp), fun q hq => ?_, h.fine⟩
    by_cases hqp : q = p
    · subst hqp
      simp [GroupLog.record, GroupLog.goto, since_cons, NoHead]
    · exact (h.whole q (by simpa [GroupLog.record, GroupLog.goto, hqp] using hq)).since_cons
        (by simp)

theorem one_le_outstanding (h : InvAt a m s) (hp : s.pc p = .inOp) : 1 ≤ s.outstanding := by
  have hpos : 0 < (inProgress s.pc).card := card_pos.mpr ⟨p, mem_inProgress.mpr hp⟩
  rw [h.control.count]
  omega

theorem logWrite {b : ℕ} (h : InvAt a m s) (hp : s.pc p = .inOp) :
    InvAt a m (Log.logWrite a p b s) := by
  obtain rfl := h.control.opened_of_inOp hp
  have hwhole : ∀ q, s.pc q = .inOp → NoHead (since q (.logged p b :: s.history)) :=
    fun q hq => (h.whole q hq).since_cons (by simp)
  unfold Log.logWrite
  split_ifs with hbig hout hmem
  · exact ⟨h.control, h.content, h.whole, by simp⟩
  · exact absurd (h.one_le_outstanding hp) (by omega)
  · exact ⟨h.control, h.content.absorb hmem, hwhole, h.fine⟩
  · exact ⟨h.control, h.content.append hmem (by omega), hwhole, h.fine⟩

theorem endOp (h : InvAt a m s) (hp : s.pc p = .inOp) : ∃ m', InvAt a m' (Log.endOp p s) := by
  obtain rfl := h.control.opened_of_inOp hp
  have hrecord : Content a .opened s.block s.pins (.ended p :: s.history) :=
    h.content.record rfl (by simp)
  simp only [Log.endOp]
  split_ifs with hc hlast
  · exact absurd hc h.control.not_committing
  · refine ⟨.commit p .start, h.control.close hp hlast,
      hrecord.before not_false not_false False.elim, fun q hq => ?_, h.fine⟩
    exact absurd hq ((h.control.close hp hlast).quiet (by simp) q)
  · -- the processes that sleep in `begin_op` wake up
    have hcontrol := (h.control.wakeup).leave (p := p) (by simp [hp])
    refine ⟨.opened, hcontrol, hrecord, fun q hq => ?_, h.fine⟩
    exact (h.whole q (of_wakeup (of_goto hq (by simp)))).since_cons (by simp)

theorem advance {ph ph' : Phase} (h : InvAt a (.commit p ph) s)
    (hpc : s'.pc = update s.pc p (.commit ph')) (hc : s'.committing = s.committing)
    (hn : s'.outstanding = s.outstanding) (hpanic : s'.panicked = s.panicked)
    (hcontent : Content a (.commit p ph') s'.block s'.pins s'.history) :
    InvAt a (.commit p ph') s' := by
  have hcontrol : Control (.commit p ph') s'.pc s'.committing s'.outstanding := by
    rw [hpc, hc, hn]
    exact h.control.advance ph'
  exact ⟨hcontrol, hcontent, fun q hq => absurd hq (hcontrol.quiet (by simp) q), hpanic ▸ h.fine⟩

theorem commitStep {ph : Phase} (h : InvAt a (.commit p ph) s) :
    ∃ m', InvAt a m' (Log.commitStep a p s ph) := by
  cases ph with
  | start =>
    rw [Log.commitStep]
    split_ifs with hn
    · exact ⟨_, h.advance rfl rfl rfl rfl (h.content.before not_false not_false False.elim)⟩
    · have hnil : s.block = [] := List.length_eq_zero_iff.mp (by omega)
      exact ⟨_, h.advance rfl rfl rfl rfl (h.content.before not_false not_false fun _ => hnil)⟩
  | writeLog tail =>
    rw [Log.commitStep]
    split_ifs with htail
    · have hnext : Content a (.commit p (.writeLog (tail + 1))) s.block s.pins s.history :=
        h.content.before not_false not_false False.elim
      refine ⟨_, h.advance rfl rfl rfl rfl (hnext.record rfl ?_)⟩
      -- the slot lies in the log area since the log is not overfull
      rintro addr ⟨⟩
      have hroom := h.content.room
      exact LogArea.slot_mem (by omega)
    · exact ⟨_, h.advance rfl rfl rfl rfl (h.content.before not_false not_false False.elim)⟩
  | writeHead => exact ⟨_, h.advance rfl rfl rfl rfl h.content.head⟩
  | install tail =>
    rw [Log.commitStep]
    split
    · rename_i b hb
      exact ⟨_, h.advance rfl rfl rfl rfl (h.content.install hb)⟩
    · rename_i hend
      exact ⟨_, h.advance rfl rfl rfl rfl (h.content.installed hend)⟩
  | clear => exact ⟨_, h.advance rfl rfl rfl rfl h.content.clear⟩
  | eraseHead => exact ⟨_, h.advance rfl rfl rfl rfl h.content.erase⟩
  | finish =>
    have hcontrol := (h.control.wakeup).reopen
    refine ⟨.opened, hcontrol, h.content.before not_false not_false False.elim,
      fun q hq => ?_, h.fine⟩
    exact absurd (of_wakeup (of_goto hq (by simp))) (h.control.quiet (by simp) q)

/-- **Every step keeps the invariant**, in the same mode or another. -/
theorem step {e : Event P} (h : InvAt a m s) (hrun : e.run a s = some s') :
    ∃ m', InvAt a m' s' := by
  obtain ⟨p, rfl, hp, rfl⟩ | ⟨p, rfl, hp, rfl⟩ | ⟨p, b, rfl, hp, rfl⟩ | ⟨p, rfl, hp, rfl⟩ |
    ⟨p, ph, rfl, hp, rfl⟩ := Event.run_cases hrun
  · exact ⟨m, h.move (by simp [hp]) (by simp [hp]) (by simp) (by simp)⟩
  · exact ⟨m, h.beginOp hp⟩
  · exact ⟨m, h.logWrite hp⟩
  · exact h.endOp hp
  · obtain rfl := (h.control.commits p ph).mp hp
    exact h.commitStep

end InvAt

/-- **The invariant of the log** holds in every reachable state. -/
theorem invAt_reachable [Fintype P] {a : LogArea} (h : (groupLog P a).Reachable s) :
    ∃ m, InvAt a m s := by
  refine h.invariant (P := fun s => ∃ m, InvAt a m s) ?_ ?_
  · rintro s rfl
    exact ⟨.opened, .initial⟩
  · rintro s e s' ⟨m, hinv⟩ ⟨-, hrun⟩
    exact hinv.step hrun

end Xv6.Log
