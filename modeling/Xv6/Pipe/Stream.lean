import Mathlib.Data.BitVec
import Mathlib.Data.Fintype.Basic
import Mathlib.Logic.Function.Basic
import Mathlib.Tactic.Simps.Basic
import Xv6.Lib.Ring
import Xv6.Lib.Transition

/-!
# Pipes

Any number of processes call `pipewrite`, `piperead` and `pipeclose` on one pipe, and are killed at
any time. A step is what a process does between two points at which another can see or disturb it: a
round of a loop under `pi->lock`, the look of `wakeup` at one process, going to sleep. The lock is
held from `acquire` to `release` or `sleep`; `kill` comes in between. The event says whether a byte
can be copied in or out. The state also records the bytes accepted from writers, and the bytes taken
from the buffer with the success of their `copyout`.
-/

namespace Xv6.Pipe

open Function Option

abbrev pipeSize : ℕ := 512

/-- The channels `&pi->nread` and `&pi->nwrite`. -/
inductive Chan
  | nread
  | nwrite
deriving DecidableEq

/-- Where a process stands. In `pipewrite` and `piperead`, `n` is the argument and `i` the number of
bytes transferred; `i0` is that number when the lock was last acquired, and `k` is the process that
`wakeup` looks at next. -/
inductive Pc
  | idle
  | writeEnter (n : ℤ)
  | writeLoop (n i i0 : ℤ)
  | writeWake (n i : ℤ) (k : ℕ)
  | writeAsleep (n i : ℤ)
  | writeDone (i : ℤ) (k : ℕ)
  | readEnter (n : ℤ)
  | readLoop (n : ℤ)
  | readSleep (n : ℤ)
  | readAsleep (n : ℤ)
  | readCopy (n i : ℤ)
  | readDone (i : ℤ) (k : ℕ)
  | closeEnter (writable : Bool)
  | closeWake (writable : Bool) (k : ℕ)
deriving DecidableEq

/-- The pipe, its lock, and of every process where it stands, what it is `SLEEPING` on, and whether
it is killed; then the bytes accepted, and those taken with the success of their `copyout`. -/
structure PipeSys (N : ℕ) where
  data : ℕ → BitVec 8
  nread : BitVec 32
  nwrite : BitVec 32
  readopen : Bool
  writeopen : Bool
  lock : Option (Fin N)
  pc : Fin N → Pc
  chan : Fin N → Option Chan
  killed : Fin N → Bool
  accepted : List (BitVec 8)
  taken : List (BitVec 8 × Bool)

variable {N : ℕ}

namespace PipeSys

/-- The process goes on at `pc`. -/
@[simps] def goto (s : PipeSys N) (p : Fin N) (pc : Pc) : PipeSys N :=
  { s with pc := update s.pc p pc }

/-- `release(&pi->lock)`. -/
@[simps] def release (s : PipeSys N) : PipeSys N := { s with lock := none }

/-- A process falls asleep, or is made `RUNNABLE`. -/
@[simps] def setChan (s : PipeSys N) (p : Fin N) (c : Option Chan) : PipeSys N :=
  { s with chan := update s.chan p c }

@[simps] def store (s : PipeSys N) (ch : BitVec 8) : PipeSys N :=
  { s with
    data := update s.data (s.nwrite.toNat % pipeSize) ch
    nwrite := s.nwrite + 1
    accepted := s.accepted ++ [ch] }

@[simps] def take (s : PipeSys N) (ok : Bool) : PipeSys N :=
  { s with
    nread := s.nread + 1
    taken := s.taken ++ [(s.data (s.nread.toNat % pipeSize), ok)] }

def Full (s : PipeSys N) : Prop := s.nwrite = s.nread + BitVec.ofNat 32 pipeSize

instance (s : PipeSys N) : Decidable s.Full := inferInstanceAs (Decidable (_ = _))

/-- The look of `wakeup(c)`, called by `p`, at the process `k`. -/
def wakeOne (s : PipeSys N) (p : Fin N) (c : Chan) (k : Fin N) : PipeSys N :=
  if k ≠ p ∧ s.chan k = some c then s.setChan k none else s

/-- One step of `wakeup(c)` by `p`: a look at process `k`, or what comes after the loop. -/
def wakeup (s : PipeSys N) (p : Fin N) (c : Chan) (k : ℕ) (again : Pc)
    (after : PipeSys N → PipeSys N) : PipeSys N :=
  if h : k < N then (s.wakeOne p c ⟨k, h⟩).goto p again else after s

/-- A round of the loop of `pipewrite`; `byte` is what `copyin` finds. -/
def writeRound (s : PipeSys N) (p : Fin N) (n i i0 : ℤ) (byte : Option (BitVec 8)) : PipeSys N :=
  if i < n then
    if s.readopen = false ∨ s.killed p = true then s.release.goto p .idle
    else if s.Full then s.goto p (.writeWake n i 0)
    else
      match byte with
      | none => s.goto p (.writeDone i 0)
      | some ch => (s.store ch).goto p (.writeLoop n (i + 1) i0)
  else s.goto p (.writeDone i 0)

/-- The test of the first loop of `piperead`. -/
def readTest (s : PipeSys N) (p : Fin N) (n : ℤ) : PipeSys N :=
  if s.nread = s.nwrite ∧ s.writeopen = true then
    if s.killed p then s.release.goto p .idle else s.goto p (.readSleep n)
  else s.goto p (.readCopy n 0)

/-- A round of the second loop of `piperead`; `ok` says whether `copyout` succeeds. -/
def copyRound (s : PipeSys N) (p : Fin N) (n i : ℤ) (ok : Bool) : PipeSys N :=
  if i < n ∧ s.nread ≠ s.nwrite then
    if ok then (s.take true).goto p (.readCopy n (i + 1))
    else (s.take false).goto p (.readDone i 0)
  else s.goto p (.readDone i 0)

/-- `pipeclose` up to its `wakeup`. -/
def closeEnd (s : PipeSys N) (p : Fin N) (writable : Bool) : PipeSys N :=
  if writable then { s with writeopen := false }.goto p (.closeWake writable 0)
  else { s with readopen := false }.goto p (.closeWake writable 0)

/-- `acquire(&pi->lock)`, if it is free. -/
def acquire (s : PipeSys N) (p : Fin N) (pc : Pc) : Option (PipeSys N) :=
  if s.lock = none then some ({ s with lock := some p }.goto p pc) else none

/-- The channel on which the readers sleep is that of the write end, and the other way round. -/
def closeChan (writable : Bool) : Chan := if writable then .nread else .nwrite

/-- The next step of a process in a call, if it is not blocked. -/
def advance (s : PipeSys N) (p : Fin N) (byte : Option (BitVec 8)) (ok : Bool) :
    Pc → Option (PipeSys N)
  | .idle => none
  | .writeEnter n => s.acquire p (.writeLoop n 0 0)
  | .writeLoop n i i0 => some (s.writeRound p n i i0 byte)
  | .writeWake n i k => some (s.wakeup p .nread k (.writeWake n i (k + 1)) fun s =>
      (s.setChan p (some .nwrite)).release.goto p (.writeAsleep n i))
  | .writeAsleep n i => if s.chan p = none then s.acquire p (.writeLoop n i i) else none
  | .writeDone i k => some (s.wakeup p .nread k (.writeDone i (k + 1)) fun s =>
      s.release.goto p .idle)
  | .readEnter n => s.acquire p (.readLoop n)
  | .readLoop n => some (s.readTest p n)
  | .readSleep n => some ((s.setChan p (some .nread)).release.goto p (.readAsleep n))
  | .readAsleep n => if s.chan p = none then s.acquire p (.readLoop n) else none
  | .readCopy n i => some (s.copyRound p n i ok)
  | .readDone i k => some (s.wakeup p .nwrite k (.readDone i (k + 1)) fun s =>
      s.release.goto p .idle)
  | .closeEnter writable =>
    if s.lock = none then some ({ s with lock := some p }.closeEnd p writable) else none
  | .closeWake writable k => some (s.wakeup p (closeChan writable) k
      (.closeWake writable (k + 1)) fun s => s.release.goto p .idle)

end PipeSys

/-- The events: a process starts a call, takes its next step, is killed, or is replaced by a new
process. -/
inductive Event (N : ℕ)
  | pipewrite (p : Fin N) (n : ℤ)
  | piperead (p : Fin N) (n : ℤ)
  | pipeclose (p : Fin N) (writable : Bool)
  | step (p : Fin N) (byte : Option (BitVec 8)) (ok : Bool)
  | kill (p : Fin N)
  | renew (p : Fin N)

def PipeSys.call (s : PipeSys N) (p : Fin N) (pc : Pc) : Option (PipeSys N) :=
  if s.pc p = .idle then some (s.goto p pc) else none

/-- `kill`: the victim is marked, and made `RUNNABLE` if it sleeps. -/
def PipeSys.kill (s : PipeSys N) (p : Fin N) : PipeSys N :=
  { s with killed := update s.killed p true }.setChan p none

def Event.run (s : PipeSys N) : Event N → Option (PipeSys N)
  | .pipewrite p n => s.call p (.writeEnter n)
  | .piperead p n => s.call p (.readEnter n)
  | .pipeclose p writable => s.call p (.closeEnter writable)
  | .step p byte ok => s.advance p byte ok (s.pc p)
  | .kill p => some (s.kill p)
  | .renew p =>
    if s.pc p = .idle then some { s with killed := update s.killed p false } else none

/-- The state after `pipealloc`. -/
def PipeSys.initial (data : ℕ → BitVec 8) : PipeSys N :=
  ⟨data, 0, 0, true, true, none, fun _ => .idle, fun _ => none, fun _ => false, [], []⟩

def pipeSystem (N : ℕ) : LTS (PipeSys N) (Event N) where
  init s := ∃ data killed, s = { PipeSys.initial data with killed := killed }
  step s e s' := e.run s = some s'

namespace PipeSys

variable {s s' : PipeSys N} {p : Fin N} {byte : Option (BitVec 8)} {ok : Bool}

/-- The part of the state that is the byte stream. -/
def stream (s : PipeSys N) :
    (ℕ → BitVec 8) × BitVec 32 × BitVec 32 × List (BitVec 8) × List (BitVec 8 × Bool) :=
  (s.data, s.nread, s.nwrite, s.accepted, s.taken)

/-- What a step does to the stream: nothing, or it stores a byte where there is room, or takes one
where there is one. -/
def Moves (s s' : PipeSys N) : Prop :=
  s'.stream = s.stream ∨ (∃ ch, ¬s.Full ∧ s'.stream = (s.store ch).stream) ∨
    ∃ ok, s.nread ≠ s.nwrite ∧ s'.stream = (s.take ok).stream

theorem wakeup_stream {c : Chan} {k : ℕ} {again : Pc} {after : PipeSys N → PipeSys N}
    (h : (after s).stream = s.stream) : (s.wakeup p c k again after).stream = s.stream := by
  unfold wakeup wakeOne
  split
  · split
    · rfl
    · rfl
  · exact h

theorem acquire_stream {pc : Pc} (h : s.acquire p pc = some s') : s'.stream = s.stream := by
  unfold acquire at h
  split at h
  · obtain rfl := some.inj h
    rfl
  · cases h

theorem call_stream {pc : Pc} (h : s.call p pc = some s') : s'.stream = s.stream := by
  unfold call at h
  split at h
  · obtain rfl := some.inj h
    rfl
  · cases h

theorem writeRound_moves (s : PipeSys N) (p : Fin N) (n i i0 : ℤ) (byte : Option (BitVec 8)) :
    s.Moves (s.writeRound p n i i0 byte) := by
  unfold writeRound
  split
  · split
    · exact .inl rfl
    · split
      · exact .inl rfl
      · rename_i hroom
        cases byte with
        | none => exact .inl rfl
        | some ch => exact .inr (.inl ⟨ch, hroom, rfl⟩)
  · exact .inl rfl

theorem copyRound_moves (s : PipeSys N) (p : Fin N) (n i : ℤ) (ok : Bool) :
    s.Moves (s.copyRound p n i ok) := by
  unfold copyRound
  split
  · rename_i h
    cases ok with
    | true => exact .inr (.inr ⟨true, h.2, rfl⟩)
    | false => exact .inr (.inr ⟨false, h.2, rfl⟩)
  · exact .inl rfl

theorem readTest_stream (s : PipeSys N) (p : Fin N) (n : ℤ) :
    (s.readTest p n).stream = s.stream := by
  unfold readTest
  split
  · split
    · rfl
    · rfl
  · rfl

theorem closeEnd_stream (s : PipeSys N) (p : Fin N) (writable : Bool) :
    (s.closeEnd p writable).stream = s.stream := by
  unfold closeEnd
  split
  · rfl
  · rfl

theorem advance_moves {pc : Pc} (h : s.advance p byte ok pc = some s') : s.Moves s' := by
  cases pc with
  | idle => cases h
  | writeEnter n => exact .inl (acquire_stream h)
  | writeLoop n i i0 => exact some.inj h ▸ s.writeRound_moves p n i i0 byte
  | writeWake n i k | writeDone i k | readDone i k | closeWake writable k =>
    exact some.inj h ▸ .inl (wakeup_stream rfl)
  | writeAsleep n i | readAsleep n =>
    rw [advance] at h
    split at h
    · exact .inl (acquire_stream h)
    · cases h
  | readEnter n => exact .inl (acquire_stream h)
  | readLoop n => exact some.inj h ▸ .inl (s.readTest_stream p n)
  | readSleep n => exact some.inj h ▸ .inl rfl
  | readCopy n i => exact some.inj h ▸ s.copyRound_moves p n i ok
  | closeEnter writable =>
    rw [advance] at h
    split at h
    · exact some.inj h ▸ .inl (closeEnd_stream _ p writable)
    · cases h

theorem run_moves {e : Event N} (h : e.run s = some s') : s.Moves s' := by
  cases e with
  | pipewrite p n | piperead p n | pipeclose p writable => exact .inl (call_stream h)
  | step p byte ok => exact advance_moves h
  | kill p => exact some.inj h ▸ .inl rfl
  | renew p =>
    rw [Event.run] at h
    split at h
    · exact some.inj h ▸ .inl rfl
    · cases h

def count (s : PipeSys N) : ℕ := (s.nwrite - s.nread).toNat

def buffered (s : PipeSys N) : List (BitVec 8) := Ring.contents pipeSize s.data s.nread s.count

def delivered (s : PipeSys N) : List (BitVec 8) := (s.taken.filter Prod.snd).map Prod.fst

/-- The buffer is not overrun, and what was taken and what is buffered is what was accepted. -/
structure Stream (s : PipeSys N) : Prop where
  count_le : s.count ≤ pipeSize
  whole : s.taken.map Prod.fst ++ s.buffered = s.accepted

theorem full_iff (s : PipeSys N) : s.Full ↔ s.count = pipeSize :=
  (Ring.length_eq_iff (by decide)).symm

theorem pipeSize_dvd : pipeSize ∣ 2 ^ 32 := by decide

theorem Stream.store (h : s.Stream) (hroom : ¬s.Full) (ch : BitVec 8) : (s.store ch).Stream := by
  have hle := h.count_le
  have hlt : s.count < pipeSize := by
    rw [full_iff] at hroom
    omega
  have hcount : (s.store ch).count = s.count + 1 :=
    Ring.length_push (lt_trans (Nat.succ_lt_succ hlt) (by decide))
  refine ⟨by omega, ?_⟩
  have hpush := Ring.contents_push pipeSize_dvd s.data (show (s.nwrite - s.nread).toNat = s.count
    from rfl) hlt ch
  rw [buffered, hcount]
  change s.taken.map Prod.fst ++ Ring.contents pipeSize _ s.nread (s.count + 1) = s.accepted ++ [ch]
  rw [← h.whole, List.append_assoc]
  exact congrArg _ hpush

theorem Stream.take (h : s.Stream) (hne : s.nread ≠ s.nwrite) (ok : Bool) : (s.take ok).Stream := by
  have hle := h.count_le
  have hpos : 0 < s.count := Nat.pos_of_ne_zero fun h0 => hne (Ring.length_eq_zero_iff.mp h0)
  have hcount : (s.take ok).count + 1 = s.count := Ring.length_pop hpos
  refine ⟨by omega, ?_⟩
  have hpop := Ring.contents_pop pipeSize_dvd s.data s.nread (s.take ok).count
  have hwhole := h.whole
  rw [buffered, ← hcount, hpop] at hwhole
  change (s.taken ++ [_]).map Prod.fst ++ _ = s.accepted
  rw [List.map_append, List.append_assoc]
  exact hwhole

theorem Stream.congr (h : s.Stream) (heq : s'.stream = s.stream) : s'.Stream := by
  simp only [stream, Prod.mk.injEq] at heq
  obtain ⟨hdata, hread, hwrite, haccepted, htaken⟩ := heq
  have hcount : s'.count = s.count := by rw [count, count, hread, hwrite]
  refine ⟨hcount ▸ h.count_le, ?_⟩
  rw [buffered, hcount, hdata, hread, htaken, haccepted]
  exact h.whole

theorem Stream.step (h : s.Stream) {e : Event N} (hs : e.run s = some s') : s'.Stream := by
  rcases run_moves hs with heq | ⟨ch, hroom, heq⟩ | ⟨ok, hne, heq⟩
  · exact h.congr heq
  · exact (h.store hroom ch).congr heq
  · exact (h.take hne ok).congr heq

theorem stream_reachable (h : (pipeSystem N).Reachable s) : s.Stream := by
  refine h.invariant (P := Stream) ?_ fun s e s' hs hstep => hs.step hstep
  rintro s ⟨data, killed, rfl⟩
  have hcount : count ({ initial data with killed := killed } : PipeSys N) = 0 :=
    Ring.length_eq_zero_iff.mpr rfl
  refine ⟨hcount ▸ Nat.zero_le pipeSize, ?_⟩
  rw [buffered, hcount]
  rfl

end PipeSys

/-- **A pipe is a stream of bytes, and lossless as long as no `copyout` fails.** After any run,
`nwrite - nread` modulo `2 ^ 32` is at most `PIPESIZE`; and the bytes copied out, followed by those
in the buffer, are the bytes accepted from writers, if and only if every byte taken from the buffer
could be copied out. -/
theorem pipe_lossless_iff {s : PipeSys N} (h : (pipeSystem N).Reachable s) :
    (s.nwrite - s.nread).toNat ≤ pipeSize ∧
      (s.delivered ++ s.buffered = s.accepted ↔ ∀ e ∈ s.taken, e.2 = true) := by
  have hstream := PipeSys.stream_reachable h
  refine ⟨hstream.count_le, ?_⟩
  rw [← hstream.whole, List.append_left_inj, PipeSys.delivered]
  constructor
  · intro heq
    -- nothing was filtered out, as the lengths are equal
    have hlen := congrArg List.length heq
    rw [List.length_map, List.length_map] at hlen
    exact List.filter_eq_self.mp (List.filter_sublist.eq_of_length hlen)
  · intro hall
    rw [List.filter_eq_self.mpr hall]

/-- Process 1 writes the bytes 7 and 9; process 0 then reads one byte, and its `copyout` succeeds or
not. -/
def readOne (ok : Bool) : List (Event 2) :=
  [.pipewrite 1 2, .step 1 none true, .step 1 (some 7) true, .step 1 (some 9) true,
    .step 1 none true, .step 1 none true, .step 1 none true, .step 1 none true,
    .piperead 0 1, .step 0 none true, .step 0 none true, .step 0 none ok]

theorem pipe_lossless_iff_readOne :
    ∃ s, LTS.runAll Event.run (.initial fun _ => 0) (readOne true) = some s ∧
      s.delivered = [7] ∧ s.buffered = [9] ∧ s.delivered ++ s.buffered = s.accepted := by
  have hrun : (LTS.runAll Event.run (.initial fun _ => 0) (readOne true)).map
      (fun s => (s.delivered, s.buffered, s.taken)) = some ([7], [9], [(7, true)]) := by
    decide +kernel
  obtain ⟨s, hs, hvalues⟩ := map_eq_some_iff.mp hrun
  simp only [Prod.mk.injEq] at hvalues
  obtain ⟨hdelivered, hbuffered, htaken⟩ := hvalues
  have hreach : (pipeSystem 2).Reachable s :=
    (LTS.Reachable.init (T := pipeSystem 2) ⟨_, _, rfl⟩).runAll (fun _ _ _ h => h) hs
  have hall : ∀ e ∈ s.taken, e.2 = true := by
    simp [htaken]
  exact ⟨s, hs, hdelivered, hbuffered, (pipe_lossless_iff hreach).2.mpr hall⟩

theorem failed_copyout_loses_byte :
    ∃ s, (pipeSystem 2).Reachable s ∧ s.accepted = [7, 9] ∧ s.delivered ++ s.buffered = [9] := by
  have hrun : (LTS.runAll Event.run (.initial fun _ => 0) (readOne false)).map
      (fun s => (s.accepted, s.delivered ++ s.buffered)) = some ([7, 9], [9]) := by decide +kernel
  obtain ⟨s, hs, hvalues⟩ := map_eq_some_iff.mp hrun
  simp only [Prod.mk.injEq] at hvalues
  refine ⟨s, ?_, hvalues⟩
  exact (LTS.Reachable.init (T := pipeSystem 2) ⟨_, _, rfl⟩).runAll (fun _ _ _ h => h) hs

end Xv6.Pipe
