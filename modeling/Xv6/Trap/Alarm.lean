import Mathlib.Data.BitVec
import Mathlib.Logic.Function.Basic
import Mathlib.Tactic.Simps.Basic
import Xv6.Lib.Transition

/-!
# Alarms

`sigalarm(n, handler)` asks for a call of `handler` every `n` timer ticks that the process spends
in user mode. `usertrap` copies the trapframe to `trapcopy` and sends the process to the handler,
which ends with `sigreturn`, where the copy is put back. A step of the model is one trap of the
process, from `uservec` to `userret`: the registers that the program had, the cause, and the hart on
which the process returns.
-/

namespace Xv6.Alarm

inductive Reg
  | ra | sp | gp | tp | t0 | t1 | t2 | s0 | s1 | a0 | a1 | a2 | a3 | a4 | a5 | a6 | a7
  | s2 | s3 | s4 | s5 | s6 | s7 | s8 | s9 | s10 | s11 | t3 | t4 | t5 | t6
deriving DecidableEq

@[ext] structure Trapframe where
  kernelSatp : BitVec 64
  kernelSp : BitVec 64
  kernelTrap : BitVec 64
  epc : BitVec 64
  kernelHartid : BitVec 64
  reg : Reg → BitVec 64

/-- The fields of `struct proc` that traps read and write. -/
structure Proc where
  kstack : BitVec 64
  trapframe : Trapframe
  trapcopy : Trapframe
  ticksn : BitVec 32
  ticksp : BitVec 32
  tickspa : BitVec 32
  sigalarm : Bool
  handler : BitVec 64

/-- What `usertrapret` finds on the hart where it runs: the kernel's page table, the hart's number,
and the address of `usertrap`. -/
structure Hart where
  satp : BitVec 64
  tp : BitVec 64
  usertrap : BitVec 64

/-- What a successful `exec` puts into the trapframe. -/
structure Image where
  entry : BitVec 64
  sp : BitVec 64
  argc : BitVec 64
deriving DecidableEq

/-- Why the process traps. For a system call other than those modelled here, `ret` is what it
returns; `image` is what an `exec` finds. A fault is one that is resolved. -/
inductive Cause
  | ecall (ret : BitVec 64) (image : Option Image)
  | timer
  | device
  | fault
deriving DecidableEq

/-- A trap: the registers and the program counter of the user program, the cause, and the hart on
which the process returns. -/
structure Trap where
  reg : Reg → BitVec 64
  sepc : BitVec 64
  cause : Cause
  hart : Hart

/-- The system calls, as far as they matter here. -/
inductive Call
  | sigalarm
  | sigreturn
  | exec
  | other
  | unknown
deriving DecidableEq

/-- The entry of `syscalls` for the number in `a7`. The entry 26 exists only in some builds. -/
def decodeCall (a7 : BitVec 64) : Call :=
  let num := (a7.setWidth 32).toInt
  if num = 23 then .sigalarm
  else if num = 24 then .sigreturn
  else if num = 7 then .exec
  else if 0 < num ∧ num ≤ 26 then .other
  else .unknown

@[simps] def Trapframe.setReg (f : Trapframe) (r : Reg) (v : BitVec 64) : Trapframe :=
  { f with reg := Function.update f.reg r v }

@[simps] def Proc.setFrame (p : Proc) (f : Trapframe) : Proc := { p with trapframe := f }

def sysSigalarm (p : Proc) : Proc :=
  let n := (p.trapframe.reg .a0).setWidth 32
  { p with
    sigalarm := 0 < n.toInt, ticksn := n, tickspa := p.ticksp, handler := p.trapframe.reg .a1 }

/-- `sys_sigreturn`: the process, and the value returned. -/
def sysSigreturn (p : Proc) : Proc × BitVec 64 :=
  let copy : Trapframe :=
    { p.trapcopy with
      kernelHartid := p.trapframe.kernelHartid
      kernelSatp := p.trapframe.kernelSatp
      kernelSp := p.trapframe.kernelSp
      kernelTrap := p.trapframe.kernelTrap }
  ({ p with
      trapcopy := copy, trapframe := copy, sigalarm := 0 < p.ticksn.toInt, tickspa := p.ticksp },
    copy.reg .a0)

/-- `exec`, as far as the trapframe sees it. -/
def sysExec (image : Option Image) (p : Proc) : Proc × BitVec 64 :=
  match image with
  | none => (p, -1)
  | some i =>
    (p.setFrame { ((p.trapframe.setReg .a1 i.sp).setReg .sp i.sp) with epc := i.entry }, i.argc)

/-- The entry of `syscalls`: the process, and the value returned. -/
def runCall (ret : BitVec 64) (image : Option Image) (p : Proc) : Call → Proc × BitVec 64
  | .sigalarm => (sysSigalarm p, 0)
  | .sigreturn => sysSigreturn p
  | .exec => sysExec image p
  | .other => (p, ret)
  | .unknown => (p, -1)

/-- The value of a system call goes into `a0`. -/
@[simps!] def storeResult (r : Proc × BitVec 64) : Proc :=
  r.1.setFrame (r.1.trapframe.setReg .a0 r.2)

def syscall (ret : BitVec 64) (image : Option Image) (p : Proc) : Proc :=
  storeResult (runCall ret image p (decodeCall (p.trapframe.reg .a7)))

/-- The alarm is due, `ticksp` being counted already. -/
def Due (p : Proc) : Prop :=
  0 < p.ticksn.toInt ∧ p.ticksp - p.tickspa = p.ticksn ∧ p.sigalarm = true

instance (p : Proc) : Decidable (Due p) := inferInstanceAs (Decidable (_ ∧ _))

@[simps] def Proc.countTick (p : Proc) : Proc := { p with ticksp := p.ticksp + 1 }

/-- The timer interrupt in `usertrap`. -/
def timerTick (p : Proc) : Proc :=
  let p := p.countTick
  if Due p then
    { p with
      sigalarm := false
      trapcopy := p.trapframe
      trapframe := { p.trapframe with epc := p.handler } }
  else p

/-- `uservec` and the first lines of `usertrap`: the registers and the program counter are saved. -/
@[simps!] def save (t : Trap) (p : Proc) : Proc :=
  p.setFrame { p.trapframe with reg := t.reg, epc := t.sepc }

@[simps!] def usertrapret (h : Hart) (p : Proc) : Proc :=
  p.setFrame { p.trapframe with
    kernelSatp := h.satp, kernelSp := p.kstack + 4096, kernelTrap := h.usertrap,
    kernelHartid := h.tp }

/-- A system call returns to the instruction after it. -/
@[simps!] def advance (p : Proc) : Proc :=
  p.setFrame { p.trapframe with epc := p.trapframe.epc + 4 }

/-- `usertrap`, between saving and return. -/
def handle (t : Trap) (p : Proc) : Proc :=
  match t.cause with
  | .ecall ret image => syscall ret image (advance p)
  | .timer => timerTick p
  | .device | .fault => p

def usertrap (t : Trap) (p : Proc) : Proc := usertrapret t.hart (handle t (save t p))

def Delivers (t : Trap) (p : Proc) : Prop := t.cause = .timer ∧ Due p.countTick

instance (t : Trap) (p : Proc) : Decidable (Delivers t p) := inferInstanceAs (Decidable (_ ∧ _))

def Cause.isEcall : Cause → Bool
  | .ecall .. => true
  | _ => false

def Trap.Calls (t : Trap) (c : Call) : Prop := t.cause.isEcall = true ∧ decodeCall (t.reg .a7) = c

instance (t : Trap) (c : Call) : Decidable (t.Calls c) := inferInstanceAs (Decidable (_ ∧ _))

/-- A process, and whether an activation of its handler is in progress. -/
structure Watched where
  proc : Proc
  active : Bool

/-- A trap of a watched process. An activation lasts from the delivery to the next `sigreturn`. -/
def Watched.step (s : Watched) (t : Trap) : Watched where
  proc := usertrap t s.proc
  active := if t.Calls .sigreturn then false else if Delivers t s.proc then true else s.active

/-- The traps of a process, from `allocproc` on. -/
def alarms : LTS Watched Trap where
  init s := s.active = false ∧ s.proc.sigalarm = false ∧ s.proc.ticksn = 0 ∧ s.proc.ticksp = 0 ∧
    s.proc.tickspa = 0 ∧ s.proc.handler = 0
  step s t s' := s' = s.step t

/-- The trap does not arm the alarm while an activation of the handler is in progress. -/
def Unarmed (s : Watched) (t : Trap) : Prop :=
  s.active = true → t.Calls .sigalarm → ¬0 < ((t.reg .a0).setWidth 32).toInt

section Cases

variable {t : Trap} {p : Proc} {ret : BitVec 64} {image : Option Image}

theorem usertrap_ecall (h : t.cause = .ecall ret image) : usertrap t p = usertrapret t.hart
      (storeResult (runCall ret image (advance (save t p)) (decodeCall (t.reg .a7)))) := by
  unfold usertrap handle
  rw [h]
  rfl

theorem usertrap_timer (h : t.cause = .timer) :
    usertrap t p = usertrapret t.hart (timerTick (save t p)) := by
  unfold usertrap handle
  rw [h]

theorem usertrap_device (h : t.cause = .device ∨ t.cause = .fault) :
    usertrap t p = usertrapret t.hart (save t p) := by
  unfold usertrap handle
  rcases h with h | h
  · rw [h]
  · rw [h]

theorem due_save : Due (save t p).countTick ↔ Due p.countTick := Iff.rfl

theorem not_calls (h : t.cause.isEcall = false) (c : Call) : ¬t.Calls c := fun hc => by
  rw [hc.1] at h
  cases h

/-- A system call other than `sigalarm` and `sigreturn` leaves the alarm alone. -/
theorem runCall_keeps {c : Call} (h : c ≠ .sigalarm) (h' : c ≠ .sigreturn) :
    (runCall ret image p c).1.trapcopy = p.trapcopy ∧
      (runCall ret image p c).1.sigalarm = p.sigalarm ∧
      (runCall ret image p c).1.kstack = p.kstack := by
  cases c with
  | sigalarm => exact absurd rfl h
  | sigreturn => exact absurd rfl h'
  | exec =>
    cases image with
    | none | some i => exact ⟨rfl, rfl, rfl⟩
  | other | unknown => exact ⟨rfl, rfl, rfl⟩

/-- The trap neither sets the alarm nor delivers. -/
structure Quiet (t : Trap) (p : Proc) : Prop where
  not_sigalarm : ¬t.Calls .sigalarm
  not_sigreturn : ¬t.Calls .sigreturn
  not_delivers : ¬Delivers t p

theorem Quiet.keeps (h : Quiet t p) :
    (usertrap t p).trapcopy = p.trapcopy ∧ (usertrap t p).sigalarm = p.sigalarm ∧
      (usertrap t p).kstack = p.kstack := by
  cases hc : t.cause with
  | ecall ret image =>
    rw [usertrap_ecall hc]
    have hcall : ∀ c, decodeCall (t.reg .a7) = c → t.Calls c := fun c hd => by
      refine ⟨?_, hd⟩
      rw [hc]
      rfl
    exact runCall_keeps (p := advance (save t p)) (fun hd => h.not_sigalarm (hcall _ hd))
      fun hd => h.not_sigreturn (hcall _ hd)
  | timer =>
    have hnot : ¬Due (save t p).countTick := fun hdue => h.not_delivers ⟨hc, hdue⟩
    rw [usertrap_timer hc, timerTick, if_neg hnot]
    exact ⟨rfl, rfl, rfl⟩
  | device =>
    rw [usertrap_device (.inl hc)]
    exact ⟨rfl, rfl, rfl⟩
  | fault =>
    rw [usertrap_device (.inr hc)]
    exact ⟨rfl, rfl, rfl⟩

theorem Delivers.saves (h : Delivers t p) :
    (usertrap t p).trapcopy = (save t p).trapframe ∧ (usertrap t p).sigalarm = false ∧
      (usertrap t p).kstack = p.kstack := by
  rw [usertrap_timer h.1, timerTick, if_pos (due_save.mpr h.2)]
  exact ⟨rfl, rfl, rfl⟩

theorem Trap.Calls.exists_ecall {c : Call} (h : t.Calls c) :
    ∃ ret image, t.cause = .ecall ret image := by
  cases hc : t.cause with
  | ecall ret image => exact ⟨ret, image, rfl⟩
  | timer | device | fault => exact absurd h (not_calls (by rw [hc]; rfl) c)

/-- `sigalarm` arms the alarm if its first argument is positive, and disarms it otherwise. -/
theorem sigalarm_sets (h : t.Calls .sigalarm) :
    (usertrap t p).trapcopy = p.trapcopy ∧
      (usertrap t p).sigalarm = decide (0 < ((t.reg .a0).setWidth 32).toInt) := by
  obtain ⟨ret, image, hc⟩ := h.exists_ecall
  rw [usertrap_ecall hc, h.2]
  exact ⟨rfl, rfl⟩

end Cases

/-- In a run that does not arm the alarm in the handler, it is disarmed during an activation. -/
theorem disarmed {s : Watched} (h : (alarms.restrict Unarmed).Reachable s) (ha : s.active = true) :
    s.proc.sigalarm = false := by
  refine h.invariant (P := fun s => s.active = true → s.proc.sigalarm = false) ?_ ?_ ha
  · intro s hinit hactive
    rw [hinit.1] at hactive
    cases hactive
  · rintro s t _ hs ⟨rfl, hunarmed⟩ hactive
    have hreturn : ¬t.Calls .sigreturn := by
      intro hr
      simp [Watched.step, hr] at hactive
    change (usertrap t s.proc).sigalarm = false
    by_cases hd : Delivers t s.proc
    · exact hd.saves.2.1
    · -- without a delivery the activation was in progress already
      have hwas : s.active = true := by simpa [Watched.step, hreturn, hd] using hactive
      by_cases halarm : t.Calls .sigalarm
      · rw [(sigalarm_sets halarm).2]
        exact decide_eq_false (hunarmed hwas halarm)
      · rw [(Quiet.keeps ⟨halarm, hreturn, hd⟩).2.1]
        exact hs hwas

/-- **Handlers are not re-entered**, provided that no `sigalarm` with a positive argument is called
while an activation is in progress: then a trap never redirects the process before the activation
has called `sigreturn`, and until then `trapcopy` stays as it is. -/
theorem no_reentry {s : Watched} (h : (alarms.restrict Unarmed).Reachable s) (t : Trap) :
    (Delivers t s.proc → s.active = false) ∧
      (s.active = true → ¬t.Calls .sigreturn → (usertrap t s.proc).trapcopy = s.proc.trapcopy) := by
  have hnever : s.active = true → ¬Delivers t s.proc := fun ha hd => by
    have hon : s.proc.sigalarm = true := hd.2.2.2
    rw [disarmed h ha] at hon
    cases hon
  refine ⟨fun hd => ?_, fun ha hreturn => ?_⟩
  · by_contra ha
    exact hnever (by simpa using ha) hd
  · by_cases halarm : t.Calls .sigalarm
    · exact (sigalarm_sets halarm).1
    · exact (Quiet.keeps ⟨halarm, hreturn, hnever ha⟩).1

instance (s : Watched) (t : Trap) : Decidable (Unarmed s t) :=
  inferInstanceAs (Decidable (_ → _ → _))

def fresh : Watched :=
  ⟨⟨0, ⟨0, 0, 0, 0, 0, fun _ => 0⟩, ⟨0, 0, 0, 0, 0, fun _ => 0⟩, 0, 0, 0, false, 0⟩, false⟩

/-- The system call `num(a0, a1)` made at `pc`. -/
def callAt (pc num a0 a1 : BitVec 64) : Trap where
  reg r := match r with
    | .a7 => num
    | .a0 => a0
    | .a1 => a1
    | _ => 0
  sepc := pc
  cause := .ecall 0 none
  hart := ⟨0, 0, 0⟩

/-- A timer interrupt at `pc`. -/
def tickAt (pc : BitVec 64) : Trap := ⟨fun _ => 0, pc, .timer, ⟨0, 0, 0⟩⟩

/-- The program at `0x40` asks for an alarm every tick, and gets one. -/
def delivered : List Trap := [callAt 0x40 23 1 0x100, tickAt 0x44]

theorem no_reentry_delivered :
    ∃ s, LTS.runAll (fun s t => if Unarmed s t then some (s.step t) else none) fresh delivered =
      some s ∧ s.active = true ∧ ¬Delivers (tickAt 0x104) s.proc := by
  obtain ⟨s, hs, ha⟩ : ∃ s, LTS.runAll
      (fun s t => if Unarmed s t then some (s.step t) else none) fresh delivered = some s ∧
      s.active = true := by
    refine Option.map_eq_some_iff.mp ?_
    decide +kernel
  have hreach : (alarms.restrict Unarmed).Reachable s := by
    refine (LTS.Reachable.init (T := alarms.restrict Unarmed) ⟨rfl, rfl, rfl, rfl, rfl, rfl⟩).runAll
      (fun s t s' h => ?_) hs
    split at h
    · rename_i hunarmed
      exact ⟨(Option.some.inj h).symm, hunarmed⟩
    · cases h
  refine ⟨s, hs, ha, fun hd => ?_⟩
  have hidle := (no_reentry hreach (tickAt 0x104)).1 hd
  rw [ha] at hidle
  cases hidle

/-- **A handler that re-arms its alarm is re-entered.** In the activation at `0x100` the handler
calls `sigalarm` again; the next tick redirects it to its own start, and the saved program counter
of the interrupted program is lost. -/
theorem rearmed_handler_reentered : ∃ s, LTS.runAll (fun s t => some (s.step t)) fresh
        (delivered ++ [callAt 0x100 23 1 0x100]) = some s ∧ alarms.Reachable s ∧
      s.active = true ∧ Delivers (tickAt 0x104) s.proc ∧
      s.proc.trapcopy.epc = 0x44 ∧ (usertrap (tickAt 0x104) s.proc).trapcopy.epc = 0x104 := by
  obtain ⟨s, hs, hvalues⟩ : ∃ s, LTS.runAll (fun s t => some (s.step t)) fresh
      (delivered ++ [callAt 0x100 23 1 0x100]) = some s ∧
      (s.active, decide (Delivers (tickAt 0x104) s.proc), s.proc.trapcopy.epc,
        (usertrap (tickAt 0x104) s.proc).trapcopy.epc) = (true, true, 0x44, 0x104) := by
    refine Option.map_eq_some_iff.mp ?_
    decide +kernel
  have hreach : alarms.Reachable s :=
    (LTS.Reachable.init (T := alarms) ⟨rfl, rfl, rfl, rfl, rfl, rfl⟩).runAll
      (fun s t s' h => (Option.some.inj h).symm) hs
  exact ⟨s, hs, hreach, by simpa using hvalues⟩

/-- The traps of a handler after which `sigreturn` still finds what was saved: no `sigalarm`, no
`exec` and no `sigreturn`. -/
def InHandler (t : Trap) : Prop := ¬t.Calls .sigalarm ∧ ¬t.Calls .exec ∧ ¬t.Calls .sigreturn

instance (t : Trap) : Decidable (InHandler t) := inferInstanceAs (Decidable (_ ∧ _))

def usertraps (ts : List Trap) (p : Proc) : Proc := ts.foldl (fun p t => usertrap t p) p

/-- While the alarm is disarmed the traps of a handler leave it and what was saved alone. -/
theorem usertraps_keeps {ts : List Trap} {p : Proc} (h : ∀ t ∈ ts, InHandler t)
    (hoff : p.sigalarm = false) :
    (usertraps ts p).trapcopy = p.trapcopy ∧ (usertraps ts p).kstack = p.kstack := by
  induction ts generalizing p with
  | nil => exact ⟨rfl, rfl⟩
  | cons t ts ih =>
    obtain ⟨halarm, -, hreturn⟩ := h t List.mem_cons_self
    have hnot : ¬Delivers t p := fun hd => by
      have hon : p.sigalarm = true := hd.2.2.2
      rw [hoff] at hon
      cases hon
    obtain ⟨hcopy, hsig, hstack⟩ := Quiet.keeps ⟨halarm, hreturn, hnot⟩
    obtain ⟨hcopy', hstack'⟩ := ih (fun t ht => h t (List.mem_cons_of_mem _ ht)) (hsig.trans hoff)
    exact ⟨hcopy'.trans hcopy, hstack'.trans hstack⟩

/-- `sigreturn` returns to user space with the saved program counter and registers, and with the
kernel's fields of the hart on which it returns. -/
theorem sigreturn_restores {t : Trap} {p : Proc} (h : t.Calls .sigreturn) :
    (usertrap t p).trapframe = { p.trapcopy with
      kernelSatp := t.hart.satp, kernelSp := p.kstack + 4096, kernelTrap := t.hart.usertrap,
      kernelHartid := t.hart.tp } := by
  obtain ⟨ret, image, hc⟩ := h.exists_ecall
  rw [usertrap_ecall hc, h.2]
  -- `syscall` stores the `a0` that `sigreturn` has just put back
  ext1
  · rfl
  · rfl
  · rfl
  · rfl
  · rfl
  · exact Function.update_eq_self _ _

/-- **Delivery and `sigreturn` are transparent.** Let a trap deliver the alarm, let the handler take
any traps on any harts, none of them `sigalarm`, `exec` or `sigreturn`, and then call `sigreturn`:
the process returns to user space with the program counter and all registers that it had at the
delivery, and with the kernel's fields of the hart on which it returns. -/
theorem sigreturn_transparent {p : Proc} {t0 t : Trap} {ts : List Trap} (hd : Delivers t0 p)
    (hts : ∀ t ∈ ts, InHandler t) (ht : t.Calls .sigreturn) :
    (usertrap t (usertraps ts (usertrap t0 p))).trapframe = { (save t0 p).trapframe with
      kernelSatp := t.hart.satp, kernelSp := p.kstack + 4096, kernelTrap := t.hart.usertrap,
      kernelHartid := t.hart.tp } := by
  obtain ⟨hsaved, hoff, hstack⟩ := hd.saves
  obtain ⟨hcopy, hstack'⟩ := usertraps_keeps hts hoff
  rw [sigreturn_restores ht, hcopy, hsaved, hstack', hstack]

def armed : Proc := ((fresh.step (callAt 0x40 23 1 0x100)).proc)

/-- The handler takes a tick and calls `getpid` before it returns on another hart. -/
theorem sigreturn_transparent_getpid : (usertrap { callAt 0x108 24 0 0 with hart := ⟨9, 1, 7⟩ }
      (usertraps [tickAt 0x100, callAt 0x104 11 5 5] (usertrap (tickAt 0x44) armed))).trapframe =
      { (save (tickAt 0x44) armed).trapframe with
        kernelSatp := 9, kernelSp := 4096, kernelTrap := 7, kernelHartid := 1 } :=
  sigreturn_transparent (by decide +kernel) (by decide +kernel) (by decide +kernel)

end Xv6.Alarm
