import Mathlib.Data.BitVec
import Mathlib.Data.List.FinRange
import Mathlib.Logic.Function.Basic
import Mathlib.Tactic.Attr.Core
import Mathlib.Tactic.Simps.Basic
import Xv6.Lib.Transition

/-!
# The process table under a scheduling policy

The kernel is built with one of several schedulers, which differ in what is between
`#if defined(...)` and `#endif` in `proc.c`. A `Policy` is that difference: the fields it adds to a
process and to the kernel, and what it does to them at each place of the shared code, which is
modelled once, over an arbitrary policy. A step is one call: the scheduler's pass, a system call up
to its return or its `sleep`, or an interrupt.
-/

namespace Xv6.Sched

open Function Option

abbrev nproc : ℕ := 64

abbrev Slot := Fin nproc

/-- The table in the order of its loops. It is never unfolded in a proof. -/
@[irreducible] def slots : List Slot := List.finRange nproc

theorem mem_slots (p : Slot) : p ∈ slots := by
  unfold slots
  exact List.mem_finRange p

inductive ProcState
  | unused
  | used
  | sleeping
  | runnable
  | running
  | zombie
deriving DecidableEq

/-- What a process sleeps on: a process (in `wait`), `&ticks`, or another address. -/
inductive Chan
  | proc (p : Slot)
  | ticks
  | other (addr : ℕ)
deriving DecidableEq

/-- `struct proc`, with the fields of the policy in `sched`. -/
@[ext] structure Proc (σ : Type) where
  state : ProcState
  chan : Option Chan
  killed : Bool
  xstate : BitVec 32
  pid : BitVec 32
  parent : Option Slot
  rtime : BitVec 32
  ctime : BitVec 32
  etime : BitVec 32
  sched : σ

/-- The process table and the globals, those of the policy in `glob`. -/
structure Table (σ γ : Type) where
  proc : Slot → Proc σ
  nextpid : BitVec 32
  initproc : Option Slot
  ticks : BitVec 32
  glob : γ

variable {σ γ ε : Type}

namespace Table

/-- The slot `p` is assigned. -/
@[simps] def put (t : Table σ γ) (p : Slot) (q : Proc σ) : Table σ γ :=
  { t with proc := update t.proc p q }

@[simps] def setGlob (t : Table σ γ) (g : γ) : Table σ γ := { t with glob := g }

@[simps] def setNextpid (t : Table σ γ) (n : BitVec 32) : Table σ γ := { t with nextpid := n }

theorem put_put (t : Table σ γ) (p : Slot) (q q' : Proc σ) : (t.put p q).put p q' = t.put p q' := by
  simp [put]

end Table

open Sched.Table

/-- The code of one scheduler: what it does to the fields of a process when the shared code
allocates, frees, starts, stops and wakes it, and how it chooses. `enter` and `leave` are its
bookkeeping when a process becomes `RUNNABLE` and when it is dispatched; `timer` is the timer
interrupt of the running process, and says whether it yields; `call` is a system call of its own. -/
structure Policy (σ γ ε : Type) where
  alloc : BitVec 32 → σ → σ
  free : σ → σ
  userinit : BitVec 32 → σ → σ
  forkParent : BitVec 32 → σ → σ
  forkChild : σ → σ → σ
  dispatch : BitVec 32 → σ → σ
  yield : BitVec 32 → σ → σ
  sleep : BitVec 32 → σ → σ
  wake : BitVec 32 → σ → σ
  clock : σ → σ
  timer : (Slot → Proc σ) → σ → σ × Bool
  enter : σ → γ → γ
  leave : σ → γ → γ
  pick : (Slot → Proc σ) → γ → Option Slot × γ
  call : ε → Slot → Table σ γ → Table σ γ
  /-- Only a `RUNNABLE` process is chosen. -/
  pick_runnable : ∀ proc g p, (pick proc g).1 = some p → (proc p).state = .runnable

section Code

variable (B : Policy σ γ ε)

def freeproc (p : Slot) (t : Table σ γ) : Table σ γ :=
  t.put p { t.proc p with
    state := .unused, chan := none, killed := false, xstate := 0, pid := 0, parent := none,
    sched := B.free (t.proc p).sched }

def findUnused (proc : Slot → Proc σ) : Option Slot := slots.find? fun p => (proc p).state = .unused

/-- `allocproc`; `mem` says whether there is memory for the trapframe, its copy and the page
table. -/
def allocproc (mem : Bool) (t : Table σ γ) : Table σ γ × Option Slot :=
  match findUnused t.proc with
  | none => (t, none)
  | some p =>
    let t := (t.setNextpid (t.nextpid + 1)).put p { t.proc p with
      pid := t.nextpid, state := .used, sched := B.alloc t.ticks (t.proc p).sched }
    if mem then (t.put p { t.proc p with rtime := 0, etime := 0, ctime := t.ticks }, some p)
    else (freeproc B p t, none)

/-- The process `p` becomes `RUNNABLE` with the policy's fields `x`. -/
def Table.ready (p : Slot) (x : σ) (t : Table σ γ) : Table σ γ :=
  (t.setGlob (B.enter x t.glob)).put p { t.proc p with state := .runnable, sched := x }

/-- `userinit`. Without memory for the first process there is no kernel. -/
def userinit (t : Table σ γ) : Option (Table σ γ) :=
  match allocproc B true t with
  | (_, none) => none
  | (t, some p) =>
    some { (t.ready B p (B.userinit t.ticks (t.proc p).sched)) with initproc := some p }

/-- `fork` by `p`; `copy` says whether `uvmcopy` finds memory. -/
def fork (p : Slot) (mem copy : Bool) (t : Table σ γ) : Table σ γ :=
  match allocproc B mem t with
  | (t, none) => t
  | (t, some np) =>
    if copy then
      let t := t.put np { t.proc np with parent := some p }
      let t := t.put p { t.proc p with sched := B.forkParent t.ticks (t.proc p).sched }
      t.ready B np (B.forkChild (t.proc p).sched (t.proc np).sched)
    else freeproc B np t

/-- One pass of `scheduler`. A process that was asleep goes on in `sleep`, which clears `p->chan`
before it releases `p->lock`. -/
def dispatch (t : Table σ γ) : Table σ γ :=
  match B.pick t.proc t.glob with
  | (none, g) => t.setGlob g
  | (some p, g) =>
    (t.setGlob (B.leave (t.proc p).sched g)).put p { t.proc p with
      state := .running, chan := none, sched := B.dispatch t.ticks (t.proc p).sched }

def yield (p : Slot) (t : Table σ γ) : Table σ γ := t.ready B p (B.yield t.ticks (t.proc p).sched)

/-- `sleep` by `p`, up to `sched`. -/
def sleep (p : Slot) (c : Chan) (t : Table σ γ) : Table σ γ :=
  t.put p { t.proc p with
    chan := some c, state := .sleeping, sched := B.sleep t.ticks (t.proc p).sched }

def Table.wake (p : Slot) (t : Table σ γ) : Table σ γ :=
  t.ready B p (B.wake t.ticks (t.proc p).sched)

def wakeupSlot (me : Option Slot) (c : Chan) (t : Table σ γ) (p : Slot) : Table σ γ :=
  if some p ≠ me ∧ (t.proc p).state = .sleeping ∧ (t.proc p).chan = some c then t.wake B p else t

/-- `wakeup` called by `me`, or by an interrupt of an idle processor. -/
def wakeup (me : Option Slot) (c : Chan) (t : Table σ γ) : Table σ γ :=
  slots.foldl (wakeupSlot B me c) t

/-- `kill`. It takes the first slot with this `pid`. -/
def kill (pid : BitVec 32) (t : Table σ γ) : Table σ γ :=
  match slots.find? fun p => (t.proc p).pid = pid with
  | none => t
  | some p =>
    let t := t.put p { t.proc p with killed := true }
    if (t.proc p).state = .sleeping then t.wake B p else t

def reparentSlot (init p : Slot) (t : Table σ γ) (pp : Slot) : Table σ γ :=
  if (t.proc pp).parent = some p then
    wakeup B (some p) (.proc init) (t.put pp { t.proc pp with parent := some init })
  else t

def wakeupParent (p : Slot) (t : Table σ γ) : Table σ γ :=
  match (t.proc p).parent with
  | some q => wakeup B (some p) (.proc q) t
  | none => t

/-- `exit` by `p`; the first process must not exit. -/
def exit (p : Slot) (status : BitVec 32) (t : Table σ γ) : Option (Table σ γ) :=
  match t.initproc with
  | none => none
  | some init =>
    if p = init then none
    else
      let t := wakeupParent B p (slots.foldl (reparentSlot B init p) t)
      some (t.put p { t.proc p with xstate := status, state := .zombie, etime := t.ticks })

/-- One round of the loop of `wait` and `waitx` by `p`: a child that exited is freed, unless its
status cannot be copied out; without children, or killed, the call fails; otherwise it sleeps. -/
def wait (p : Slot) (copyout : Bool) (t : Table σ γ) : Table σ γ :=
  match slots.find? fun pp =>
      (t.proc pp).parent = some p ∧ (t.proc pp).state = .zombie with
  | some pp => if copyout then freeproc B pp t else t
  | none =>
    if (∀ pp, (t.proc pp).parent ≠ some p) ∨ (t.proc p).killed then t
    else sleep B p (.proc p) t

/-- The timer interrupt of the running process `p`. -/
def timer (p : Slot) (t : Table σ γ) : Table σ γ :=
  let r := B.timer t.proc (t.proc p).sched
  let t := t.put p { t.proc p with sched := r.1 }
  if r.2 then yield B p t else t

/-- `clockintr` on one process. -/
def Proc.tick (q : Proc σ) : Proc σ :=
  match q.state with
  | .runnable => { q with sched := B.clock q.sched }
  | .running => { q with rtime := q.rtime + 1 }
  | _ => q

/-- `clockintr` up to its `wakeup`. -/
def Table.tick (t : Table σ γ) : Table σ γ :=
  { t with ticks := t.ticks + 1, proc := fun p => (t.proc p).tick B }

def clockintr (t : Table σ γ) : Table σ γ := wakeup B none .ticks (t.tick B)

inductive Event (ε : Type)
  | userinit
  | fork (p : Slot) (mem copy : Bool)
  | dispatch
  | yield (p : Slot)
  | sleep (p : Slot) (c : Chan)
  | wakeup (me : Option Slot) (c : Chan)
  | kill (pid : BitVec 32)
  | exit (p : Slot) (status : BitVec 32)
  | wait (p : Slot) (copyout : Bool)
  | timer (p : Slot)
  | clock
  | call (p : Slot) (x : ε)

def Event.clocks : Event ε → ℕ
  | .clock => 1
  | _ => 0

theorem Event.clocks_of_ne {e : Event ε} (h : e ≠ .clock) : e.clocks = 0 := by
  cases e with
  | clock => exact absurd rfl h
  | _ => rfl

def ifRunning (p : Slot) (f : Table σ γ → Table σ γ) (t : Table σ γ) : Option (Table σ γ) :=
  if (t.proc p).state = .running then some (f t) else none

def Event.run (t : Table σ γ) : Event ε → Option (Table σ γ)
  | .userinit => if t.initproc = none then Sched.userinit B t else none
  | .fork p mem copy => ifRunning p (Sched.fork B p mem copy) t
  | .dispatch => some (Sched.dispatch B t)
  | .yield p => ifRunning p (Sched.yield B p) t
  | .sleep p c => ifRunning p (Sched.sleep B p c) t
  | .wakeup me c => some (Sched.wakeup B me c t)
  | .kill pid => some (Sched.kill B pid t)
  | .exit p status => (ifRunning p id t).bind (Sched.exit B p status)
  | .wait p copyout => ifRunning p (Sched.wait B p copyout) t
  | .timer p => ifRunning p (Sched.timer B p) t
  | .clock => some (clockintr B t)
  | .call p x => ifRunning p (B.call x p) t

/-- The table before `userinit`, all fields zero; `x` and `g` are the zeros of the policy. -/
def Table.boot (x : σ) (g : γ) : Table σ γ where
  proc _ := ⟨.unused, none, false, 0, 0, none, 0, 0, 0, x⟩
  nextpid := 1
  initproc := none
  ticks := 0
  glob := g

def system (x : σ) (g : γ) : LTS (Table σ γ) (Event ε) where
  init t := t = .boot x g
  step t e t' := e.run B t = some t'

/-- The changes of `wakeup`, `kill`, `exit` and of a `wait` that does not sleep: nobody new, nobody
starts to run, and the policy's fields change only where a process is woken or freed. -/
inductive Calm : Table σ γ → Table σ γ → Prop
  | refl (t : Table σ γ) : Calm t t
  | touch {t : Table σ γ} (p : Slot) (q : Proc σ) (hstate : q.state = (t.proc p).state)
    (hsched : q.sched = (t.proc p).sched) : Calm t (t.put p q)
  | wake {t : Table σ γ} (p : Slot) (h : (t.proc p).state = .sleeping) : Calm t (t.wake B p)
  | zombie {t : Table σ γ} (p : Slot) (status tick : BitVec 32) (h : (t.proc p).state = .running) :
    Calm t (t.put p { t.proc p with xstate := status, state := .zombie, etime := tick })
  | free {t : Table σ γ} (p : Slot) (h : (t.proc p).state = .zombie) : Calm t (freeproc B p t)
  | trans {t1 t2 t3 : Table σ γ} (h1 : Calm t1 t2) (h2 : Calm t2 t3) : Calm t1 t3

end Code

section Cases

variable {B : Policy σ γ ε} {t t' : Table σ γ} {p : Slot}

theorem Calm.foldl {f : Table σ γ → Slot → Table σ γ} (hf : ∀ t p, Calm B t (f t p))
    (l : List Slot) (t : Table σ γ) : Calm B t (l.foldl f t) := by
  induction l generalizing t with
  | nil => exact .refl t
  | cons p l ih => exact (hf t p).trans (ih (f t p))

theorem wakeupSlot_calm (me : Option Slot) (c : Chan) (t : Table σ γ) (p : Slot) :
    Calm B t (wakeupSlot B me c t p) := by
  unfold wakeupSlot
  split
  · rename_i h
    exact .wake p h.2.1
  · exact .refl t

theorem wakeup_calm (me : Option Slot) (c : Chan) (t : Table σ γ) : Calm B t (wakeup B me c t) :=
  Calm.foldl (wakeupSlot_calm me c) slots t

theorem kill_calm (pid : BitVec 32) (t : Table σ γ) : Calm B t (kill B pid t) := by
  unfold kill
  split
  · exact .refl t
  · rename_i p _
    have hmark : Calm B t (t.put p { t.proc p with killed := true }) := .touch p _ rfl rfl
    dsimp only
    split
    · rename_i hsleep
      exact hmark.trans (.wake p hsleep)
    · exact hmark

theorem reparentSlot_calm (init p : Slot) (t : Table σ γ) (pp : Slot) :
    Calm B t (reparentSlot B init p t pp) := by
  unfold reparentSlot
  split
  · have htouch : Calm B t (t.put pp { t.proc pp with parent := some init }) := .touch pp _ rfl rfl
    exact htouch.trans (wakeup_calm _ _ _)
  · exact .refl t

theorem wakeupParent_calm (p : Slot) (t : Table σ γ) : Calm B t (wakeupParent B p t) := by
  unfold wakeupParent
  split
  · exact wakeup_calm _ _ t
  · exact .refl t

theorem foldl_keeps {P : Table σ γ → Prop} {f : Table σ γ → Slot → Table σ γ}
    (hf : ∀ t p, P t → P (f t p)) (l : List Slot) (h : P t) : P (l.foldl f t) := by
  induction l generalizing t with
  | nil => exact h
  | cons p l ih => exact ih (hf t p h)

theorem wakeup_running (me : Option Slot) (c : Chan) (h : (t.proc p).state = .running) :
    ((wakeup B me c t).proc p).state = .running := by
  refine foldl_keeps (P := fun t => (t.proc p).state = .running) (fun t q ht => ?_) _ h
  unfold wakeupSlot
  split
  · rename_i hq
    have hne : p ≠ q := by
      rintro rfl
      rw [ht] at hq
      cases hq.2.1
    simpa [Table.wake, Table.ready, hne] using ht
  · exact ht

theorem reparent_running (init q : Slot) (h : (t.proc p).state = .running) :
    ((slots.foldl (reparentSlot B init q) t).proc p).state = .running := by
  refine foldl_keeps (P := fun t => (t.proc p).state = .running) (fun t pp ht => ?_) _ h
  unfold reparentSlot
  split
  · apply wakeup_running
    by_cases hp : p = pp
    · subst hp
      simpa using ht
    · simpa [hp] using ht
  · exact ht

theorem wakeupParent_running (q : Slot) (h : (t.proc p).state = .running) :
    ((wakeupParent B q t).proc p).state = .running := by
  unfold wakeupParent
  split
  · exact wakeup_running _ _ h
  · exact h

theorem exit_calm {status : BitVec 32} (hp : (t.proc p).state = .running)
    (h : exit B p status t = some t') : Calm B t t' := by
  unfold exit at h
  split at h
  · cases h
  · rename_i init _
    split at h
    · cases h
    · obtain rfl := some.inj h
      have hchildren := Calm.foldl (reparentSlot_calm (B := B) init p) slots t
      have hparent := wakeupParent_calm (B := B) p (slots.foldl (reparentSlot B init p) t)
      exact (hchildren.trans hparent).trans
        (.zombie p status _ (wakeupParent_running p (reparent_running init p hp)))

theorem wait_cases (p : Slot) (copyout : Bool) (t : Table σ γ) :
    Calm B t (wait B p copyout t) ∨ wait B p copyout t = sleep B p (.proc p) t := by
  unfold wait
  split
  · rename_i pp hfound
    split
    · have hz := List.find?_some hfound
      exact .inl (.free pp (of_decide_eq_true hz).2)
    · exact .inl (.refl t)
  · split
    · exact .inl (.refl t)
    · exact .inr rfl

/-- What a calm change does to one process: nothing that concerns the scheduler, or it is woken, or
it exits or is freed. -/
inductive CalmSlot (B : Policy σ γ ε) (ticks : BitVec 32) (q q' : Proc σ) : Prop
  | keep (hstate : q'.state = q.state) (hsched : q'.sched = q.sched)
  | wake (h : q.state = .sleeping) (hstate : q'.state = .runnable)
    (hsched : q'.sched = B.wake ticks q.sched)
  | leave (h : q.state = .running ∨ q.state = .zombie)
    (h' : (q'.state = .zombie ∧ q'.sched = q.sched) ∨
      (q'.state = .unused ∧ q'.sched = B.free q.sched))

theorem CalmSlot.trans {ticks : BitVec 32} {q1 q2 q3 : Proc σ} (h1 : CalmSlot B ticks q1 q2)
    (h2 : CalmSlot B ticks q2 q3) : CalmSlot B ticks q1 q3 := by
  cases h1 with
  | keep hstate hsched =>
    cases h2 with
    | keep hstate' hsched' => exact .keep (hstate'.trans hstate) (hsched'.trans hsched)
    | wake h hstate' hsched' => exact .wake (hstate ▸ h) hstate' (hsched ▸ hsched')
    | leave h h' => exact .leave (hstate ▸ h) (hsched ▸ h')
  | wake h hstate hsched =>
    cases h2 with
    | keep hstate' hsched' => exact .wake h (hstate'.trans hstate) (hsched'.trans hsched)
    | wake h' | leave h' => simp [hstate] at h'
  | leave h hleft =>
    cases h2 with
    | keep hstate' hsched' => exact .leave h (by rw [hstate', hsched']; exact hleft)
    | wake h' =>
      rcases hleft with ⟨hz, -⟩ | ⟨hu, -⟩
      · simp [hz] at h'
      · simp [hu] at h'
    | leave h' hleft' =>
      rcases hleft with ⟨hz, hs⟩ | ⟨hu, -⟩
      · exact .leave h (hs ▸ hleft')
      · simp [hu] at h'

theorem CalmSlot.put {ticks : BitVec 32} {q : Proc σ} (h : CalmSlot B ticks (t.proc p) q)
    (r : Slot) : CalmSlot B ticks (t.proc r) (update t.proc p q r) := by
  by_cases hr : r = p
  · subst hr
    simpa using h
  · rw [update_of_ne hr]
    exact .keep rfl rfl

theorem Calm.slot (h : Calm B t t') :
    t'.ticks = t.ticks ∧ ∀ p, CalmSlot B t.ticks (t.proc p) (t'.proc p) := by
  induction h with
  | refl t => exact ⟨rfl, fun p => .keep rfl rfl⟩
  | touch p q hstate hsched => exact ⟨rfl, CalmSlot.put (.keep hstate hsched)⟩
  | wake p hp => exact ⟨rfl, CalmSlot.put (.wake hp rfl rfl)⟩
  | zombie p status tick hp => exact ⟨rfl, CalmSlot.put (.leave (.inl hp) (.inl ⟨rfl, rfl⟩))⟩
  | free p hp => exact ⟨rfl, CalmSlot.put (.leave (.inr hp) (.inr ⟨rfl, rfl⟩))⟩
  | trans _ _ ih1 ih2 =>
    refine ⟨ih2.1.trans ih1.1, fun p => (ih1.2 p).trans ?_⟩
    exact ih1.1 ▸ ih2.2 p

theorem findUnused_some (h : findUnused t.proc = some p) : (t.proc p).state = .unused := by
  have hp := List.find?_some (show slots.find? _ = some p from h)
  exact of_decide_eq_true hp

/-- A failed call that at most used up a `pid`. -/
def Spare (B : Policy σ γ ε) (t t' : Table σ γ) : Prop :=
  t' = t ∨ ∃ n p q, (t.proc p).state = .unused ∧ q.state = .unused ∧
    q.sched = B.free (B.alloc t.ticks (t.proc p).sched) ∧ t' = (t.setNextpid n).put p q

/-- There is a slot and there is memory for a new process. -/
def HasRoom (proc : Slot → Proc σ) (mem : Bool) : Prop :=
  mem = true ∧ (findUnused proc).isSome = true

theorem allocproc_cases (mem : Bool) (t : Table σ γ) :
    (¬HasRoom t.proc mem ∧ (allocproc B mem t).2 = none ∧ Spare B t (allocproc B mem t).1) ∨
    (HasRoom t.proc mem ∧
      ∃ p q, (allocproc B mem t).2 = some p ∧ (t.proc p).state = .unused ∧ q.state = .used ∧
        q.sched = B.alloc t.ticks (t.proc p).sched ∧
        (allocproc B mem t).1 = (t.setNextpid (t.nextpid + 1)).put p q) := by
  unfold allocproc HasRoom
  split
  · rename_i hnone
    exact .inl ⟨by simp [hnone], rfl, .inl rfl⟩
  · rename_i p hp
    have hunused := findUnused_some hp
    cases mem with
    | true =>
      refine .inr ⟨by simp [hp], p, _, rfl, hunused, ?_, ?_, put_put _ p _ _⟩
      · simp
      · simp
    | false =>
      refine .inl ⟨by simp, rfl, .inr ⟨_, p, _, hunused, rfl, ?_, put_put _ p _ _⟩⟩
      simp

/-- What `fork` can do: fail, or fill an unused slot and make it `RUNNABLE`. -/
theorem fork_cases (mem copy : Bool) (hp : (t.proc p).state = .running) :
    (¬(HasRoom t.proc mem ∧ copy = true) ∧ Spare B t (fork B p mem copy t)) ∨
    ((HasRoom t.proc mem ∧ copy = true) ∧
      ∃ n np q, (t.proc np).state = .unused ∧ np ≠ p ∧ q.state = .runnable ∧
        q.sched = B.forkChild (B.forkParent t.ticks (t.proc p).sched)
          (B.alloc t.ticks (t.proc np).sched) ∧
        fork B p mem copy t = (((t.setNextpid n).put p
            { t.proc p with sched := B.forkParent t.ticks (t.proc p).sched }).setGlob
              (B.enter q.sched t.glob)).put np q) := by
  unfold fork
  rcases allocproc_cases (B := B) mem t with
    ⟨hfull, hnone, hspare⟩ | ⟨hroom, np, q, hnp, hunused, hq, hs, heq⟩
  · split
    · rename_i t1 heq
      rw [heq] at hspare
      exact .inl ⟨fun h => hfull h.1, hspare⟩
    · rename_i t1 np heq
      rw [heq] at hnone
      cases hnone
  · have hne : np ≠ p := by
      rintro rfl
      rw [hunused] at hp
      cases hp
    split
    · rename_i t1 h
      rw [h] at hnp
      cases hnp
    · rename_i t1 np' h
      rw [h] at hnp heq
      obtain rfl : np' = np := some.inj hnp
      obtain rfl : t1 = _ := heq
      cases copy with
      | false =>
        refine .inl ⟨by simp, .inr ⟨_, np', _, hunused, rfl, ?_, put_put _ np' _ _⟩⟩
        simp [hs]
      | true =>
        -- the two assignments to the child's slot are merged across the one to the parent's
        refine .inr ⟨⟨hroom, rfl⟩, t.nextpid + 1, np', { q with
          parent := some p, state := .runnable,
          sched := B.forkChild (B.forkParent t.ticks (t.proc p).sched) q.sched },
          hunused, hne, rfl, by rw [hs], ?_⟩
        simp only [if_true, Table.ready, Table.put, setGlob, setNextpid,
          update_self, update_of_ne hne, update_of_ne hne.symm,
          Table.mk.injEq, and_true]
        funext r
        by_cases hr : r = np'
        · subst hr
          simp
        · by_cases hrp : r = p
          · subst hrp
            simp [hr]
          · simp [hr, hrp]

theorem userinit_cases (h : userinit B t = some t') :
    ∃ n p q, (t.proc p).state = .unused ∧ q.state = .runnable ∧
      q.sched = B.userinit t.ticks (B.alloc t.ticks (t.proc p).sched) ∧
      t' = { ((t.setNextpid n).setGlob (B.enter q.sched t.glob)).put p q with
        initproc := some p } := by
  unfold userinit at h
  rcases allocproc_cases (B := B) true t with ⟨-, hnone, -⟩ | ⟨-, p, q, hp, hunused, hq, hs, heq⟩
  · split at h
    · cases h
    · rename_i heq
      rw [heq] at hnone
      cases hnone
  · split at h
    · cases h
    · rename_i t1 p' heq'
      rw [heq'] at hp heq
      obtain rfl : p' = p := some.inj hp
      obtain rfl : t1 = _ := heq
      obtain rfl := some.inj h
      refine ⟨t.nextpid + 1, p', { q with
        state := .runnable, sched := B.userinit t.ticks q.sched }, hunused, rfl, by rw [hs], ?_⟩
      simp [Table.ready, Table.put, setGlob, setNextpid]

theorem dispatch_cases (B : Policy σ γ ε) (t : Table σ γ) :
    ((B.pick t.proc t.glob).1 = none ∧ dispatch B t = t.setGlob (B.pick t.proc t.glob).2) ∨
    ∃ p, (B.pick t.proc t.glob).1 = some p ∧ (t.proc p).state = .runnable ∧
      dispatch B t = (t.setGlob (B.leave (t.proc p).sched (B.pick t.proc t.glob).2)).put p
        { t.proc p with
          state := .running, chan := none, sched := B.dispatch t.ticks (t.proc p).sched } := by
  unfold dispatch
  split
  · rename_i g h
    rw [h]
    exact .inl ⟨rfl, rfl⟩
  · rename_i p g h
    have hrun := B.pick_runnable t.proc t.glob p (by rw [h])
    rw [h]
    exact .inr ⟨p, rfl, hrun, rfl⟩

theorem ifRunning_some {f : Table σ γ → Table σ γ} (h : ifRunning p f t = some t') :
    (t.proc p).state = .running ∧ t' = f t := by
  unfold ifRunning at h
  split at h
  · exact ⟨by assumption, (some.inj h).symm⟩
  · cases h

def Event.Stops : Event ε → Prop
  | .sleep .. | .wakeup .. | .kill _ | .exit .. | .wait .. => True
  | _ => False

/-- **What a step can be.** -/
theorem Event.run_cases {e : Event ε} (h : e.run B t = some t') :
    (e.Stops ∧ (Calm B t t' ∨
      ∃ p c, (t.proc p).state = .running ∧ t' = Sched.sleep B p c t)) ∨
    (e = .userinit ∧ Sched.userinit B t = some t') ∨
    (∃ p mem copy, e = .fork p mem copy ∧ (t.proc p).state = .running ∧
      t' = Sched.fork B p mem copy t) ∨
    (e = .dispatch ∧ t' = Sched.dispatch B t) ∨
    (∃ p, e = .yield p ∧ (t.proc p).state = .running ∧ t' = Sched.yield B p t) ∨
    (∃ p, e = .timer p ∧ (t.proc p).state = .running ∧ t' = Sched.timer B p t) ∨
    (e = .clock ∧ t' = clockintr B t) ∨
    ∃ p x, e = .call p x ∧ (t.proc p).state = .running ∧ t' = B.call x p t := by
  cases e with
  | userinit =>
    simp only [Event.run] at h
    split at h
    · exact .inr (.inl ⟨rfl, h⟩)
    · cases h
  | fork p mem copy =>
    obtain ⟨hp, rfl⟩ := ifRunning_some h
    exact .inr (.inr (.inl ⟨p, mem, copy, rfl, hp, rfl⟩))
  | dispatch => exact .inr (.inr (.inr (.inl ⟨rfl, (some.inj h).symm⟩)))
  | yield p =>
    obtain ⟨hp, rfl⟩ := ifRunning_some h
    exact .inr (.inr (.inr (.inr (.inl ⟨p, rfl, hp, rfl⟩))))
  | sleep p c =>
    obtain ⟨hp, rfl⟩ := ifRunning_some h
    exact .inl ⟨trivial, .inr ⟨p, c, hp, rfl⟩⟩
  | wakeup me c =>
    obtain rfl := some.inj h
    exact .inl ⟨trivial, .inl (wakeup_calm me c t)⟩
  | kill pid =>
    obtain rfl := some.inj h
    exact .inl ⟨trivial, .inl (kill_calm pid t)⟩
  | exit p status =>
    obtain ⟨t1, h1, h2⟩ := bind_eq_some_iff.mp h
    obtain ⟨hp, rfl⟩ := ifRunning_some h1
    exact .inl ⟨trivial, .inl (exit_calm hp h2)⟩
  | wait p copyout =>
    obtain ⟨hp, rfl⟩ := ifRunning_some h
    rcases wait_cases (B := B) p copyout t with hcalm | hsleep
    · exact .inl ⟨trivial, .inl hcalm⟩
    · exact .inl ⟨trivial, .inr ⟨p, _, hp, hsleep⟩⟩
  | timer p =>
    obtain ⟨hp, rfl⟩ := ifRunning_some h
    exact .inr (.inr (.inr (.inr (.inr (.inl ⟨p, rfl, hp, rfl⟩)))))
  | clock => exact .inr (.inr (.inr (.inr (.inr (.inr (.inl ⟨rfl, (some.inj h).symm⟩))))))
  | call p x =>
    obtain ⟨hp, rfl⟩ := ifRunning_some h
    exact .inr (.inr (.inr (.inr (.inr (.inr (.inr ⟨p, x, rfl, hp, rfl⟩))))))

/-- The event has no work of its own on the process `q` in slot `p`: the clock has some on the
`RUNNABLE` ones, `yield` and the timer on the one that runs. -/
def Event.Spares (p : Slot) (q : Proc σ) : Event ε → Prop
  | .clock => q.state ≠ .runnable
  | .yield r | .timer r => p ≠ r
  | _ => True

/-- **What a step does to one process.** The state and the policy's fields before and after, with
the event; `ticks` is the tick after the step. A policy's own system call is not covered. -/
inductive SlotMove (B : Policy σ γ ε) (proc : Slot → Proc σ) (ticks : BitVec 32) (e : Event ε)
    (p : Slot) (q q' : Proc σ) : Prop
  | calm (hspared : e.Spares p q) (h : CalmSlot B ticks q q')
  | sleep (hspared : e.Spares p q) (h : q.state = .running) (h' : q'.state = .sleeping)
    (hsched : q'.sched = B.sleep ticks q.sched)
  | spare (h : q.state = .unused) (h' : q'.state = .unused)
    (hsched : q'.sched = B.free (B.alloc ticks q.sched))
  | init (he : e = .userinit) (h : q.state = .unused) (h' : q'.state = .runnable)
    (hsched : q'.sched = B.userinit ticks (B.alloc ticks q.sched))
  | child {r : Slot} {mem copy : Bool} (he : e = .fork r mem copy)
    (hroom : HasRoom proc mem ∧ copy = true) (h : q.state = .unused) (h' : q'.state = .runnable)
    (hsched : q'.sched = B.forkChild (B.forkParent ticks (proc r).sched) (B.alloc ticks q.sched))
  | parent {mem copy : Bool} (he : e = .fork p mem copy) (hroom : HasRoom proc mem ∧ copy = true)
    (h : q.state = .running) (h' : q'.state = .running)
    (hsched : q'.sched = B.forkParent ticks q.sched)
  | run (he : e = .dispatch) (h : q.state = .runnable) (h' : q'.state = .running)
    (hsched : q'.sched = B.dispatch ticks q.sched)
  | yield (he : e = .yield p) (h : q.state = .running) (h' : q'.state = .runnable)
    (hsched : q'.sched = B.yield ticks q.sched)
  | preempt (he : e = .timer p) (hyield : (B.timer proc q.sched).2 = true)
    (h : q.state = .running) (h' : q'.state = .runnable)
    (hsched : q'.sched = B.yield ticks (B.timer proc q.sched).1)
  | timer (he : e = .timer p) (hyield : (B.timer proc q.sched).2 = false)
    (h : q.state = .running) (h' : q'.state = .running)
    (hsched : q'.sched = (B.timer proc q.sched).1)
  | clock (he : e = .clock) (h : q.state = .runnable) (h' : q'.state = .runnable)
    (hsched : q'.sched = B.clock q.sched)

section SlotMove

variable {proc : Slot → Proc σ} {ticks : BitVec 32} {e : Event ε}

theorem SlotMove.refl {q : Proc σ} (he : e.Spares p q) : SlotMove B proc ticks e p q q :=
  .calm he (.keep rfl rfl)

theorem SlotMove.put (he : ∀ r, r ≠ p → e.Spares r (t.proc r)) {q : Proc σ}
    (h : SlotMove B proc ticks e p (t.proc p) q) (r : Slot) :
    SlotMove B proc ticks e r (t.proc r) (update t.proc p q r) := by
  by_cases hr : r = p
  · subst hr
    simpa using h
  · rw [update_of_ne hr]
    exact .refl (he r hr)

theorem Spare.slot (he : ∀ r, e.Spares r (t.proc r)) (h : Spare B t t') :
    t'.ticks = t.ticks ∧ ∀ r, SlotMove B proc t.ticks e r (t.proc r) (t'.proc r) := by
  rcases h with rfl | ⟨n, p, q, hp, hq, hs, rfl⟩
  · exact ⟨rfl, fun r => .refl (he r)⟩
  · exact ⟨rfl, SlotMove.put (fun r _ => he r) (.spare hp hq hs)⟩

theorem fork_slot (mem copy : Bool) (hp : (t.proc p).state = .running) :
    (fork B p mem copy t).ticks = t.ticks ∧
      ∀ r, SlotMove B t.proc t.ticks (.fork p mem copy) r (t.proc r)
        ((fork B p mem copy t).proc r) := by
  rcases fork_cases (B := B) mem copy hp with
    ⟨-, hspare⟩ | ⟨hroom, n, np, q, hnp, hne, hq, hs, heq⟩
  · exact hspare.slot fun _ => trivial
  · rw [heq]
    refine ⟨rfl, fun r => ?_⟩
    by_cases hr : r = np
    · subst hr
      simpa using SlotMove.child rfl hroom hnp hq hs
    · by_cases hrp : r = p
      · subst hrp
        simp only [put_proc, setGlob_proc, update_of_ne hr, update_self]
        exact .parent rfl hroom hp hp rfl
      · simp only [put_proc, setGlob_proc, setNextpid_proc,
          update_of_ne hr, update_of_ne hrp]
        exact .refl trivial

theorem timer_slot (hp : (t.proc p).state = .running) :
    (timer B p t).ticks = t.ticks ∧
      ∀ r, SlotMove B t.proc t.ticks (.timer p) r (t.proc r) ((timer B p t).proc r) := by
  unfold timer
  dsimp only
  split
  · rename_i hyield
    refine ⟨rfl, fun r => ?_⟩
    simp only [yield, Table.ready, Table.put, setGlob, update_idem, update_self]
    exact SlotMove.put (by intro _ h; exact h) (.preempt rfl hyield hp rfl rfl) r
  · rename_i hyield
    exact ⟨rfl, SlotMove.put (by intro _ h; exact h) (.timer rfl (by simpa using hyield) hp hp rfl)⟩

theorem clockintr_slot (t : Table σ γ) :
    (clockintr B t).ticks = t.ticks + 1 ∧
      ∀ r, SlotMove B t.proc (t.ticks + 1) .clock r (t.proc r) ((clockintr B t).proc r) := by
  have hcalm := (wakeup_calm (B := B) none .ticks (t.tick B)).slot
  refine ⟨hcalm.1, fun r => ?_⟩
  have hr := hcalm.2 r
  change CalmSlot B (t.ticks + 1) ((t.proc r).tick B) _ at hr
  by_cases hrun : (t.proc r).state = .runnable
  · -- a `RUNNABLE` process is not asleep, so the wakeup keeps it
    simp only [Proc.tick, hrun] at hr
    cases hr with
    | keep hstate hsched => exact .clock rfl hrun hstate hsched
    | wake h | leave h => simp at h
  · have htick : ((t.proc r).tick B).state = (t.proc r).state ∧
        ((t.proc r).tick B).sched = (t.proc r).sched := by
      unfold Proc.tick
      split
      · contradiction
      · exact ⟨by simp, rfl⟩
      · exact ⟨rfl, rfl⟩
    exact .calm hrun (.trans (.keep htick.1 htick.2) hr)

theorem Event.run_ticks (h : e.run B t = some t') (hcall : ∀ p x, e ≠ .call p x) :
    t'.ticks = t.ticks + BitVec.ofNat 32 e.clocks := by
  have hsame : ∀ x : BitVec 32, x = x + BitVec.ofNat 32 0 := fun x => (BitVec.add_zero x).symm
  rcases Event.run_cases h with ⟨hstops, hc⟩ | ⟨rfl, hu⟩ |
    ⟨p, mem, copy, rfl, hp, rfl⟩ | ⟨rfl, rfl⟩ | ⟨p, rfl, hp, rfl⟩ | ⟨p, rfl, hp, rfl⟩ |
    ⟨rfl, rfl⟩ | ⟨p, x, rfl, -⟩
  · rw [Event.clocks_of_ne (by rintro rfl; exact hstops)]
    rcases hc with hc | ⟨p, c, hp, rfl⟩
    · exact hc.slot.1.trans (hsame _)
    · exact hsame _
  · obtain ⟨n, p, q, -, -, -, rfl⟩ := userinit_cases hu
    exact hsame _
  · exact (fork_slot mem copy hp).1.trans (hsame _)
  · rcases dispatch_cases B t with ⟨-, heq⟩ | ⟨p, -, -, heq⟩
    · rw [heq]
      exact hsame _
    · rw [heq]
      exact hsame _
  · exact hsame _
  · exact (timer_slot hp).1.trans (hsame _)
  · exact (clockintr_slot t).1
  · exact absurd rfl (hcall p x)

theorem Event.run_slot (h : e.run B t = some t') (hcall : ∀ p x, e ≠ .call p x) (r : Slot) :
    SlotMove B t.proc t'.ticks e r (t.proc r) (t'.proc r) := by
  rcases Event.run_cases h with ⟨hstops, hc⟩ | ⟨rfl, hu⟩ |
    ⟨p, mem, copy, rfl, hp, rfl⟩ | ⟨rfl, rfl⟩ | ⟨p, rfl, hp, rfl⟩ | ⟨p, rfl, hp, rfl⟩ |
    ⟨rfl, rfl⟩ | ⟨p, x, rfl, -⟩
  · have he : ∀ r, e.Spares r (t.proc r) := by
      intro r
      cases e <;> trivial
    rcases hc with hc | ⟨p, c, hp, rfl⟩
    · exact .calm (he r) (hc.slot.1 ▸ hc.slot.2 r)
    · exact SlotMove.put (fun r _ => he r) (.sleep (he p) hp rfl rfl) r
  · obtain ⟨n, p, q, hp, hq, hs, rfl⟩ := userinit_cases hu
    exact SlotMove.put (by intros; trivial) (.init rfl hp hq hs) r
  · exact (fork_slot mem copy hp).1 ▸ (fork_slot mem copy hp).2 r
  · rcases dispatch_cases B t with ⟨-, heq⟩ | ⟨p, -, hp, heq⟩
    · rw [heq]
      exact .refl trivial
    · rw [heq]
      exact SlotMove.put (by intros; trivial) (.run rfl hp rfl rfl) r
  · exact SlotMove.put (by intro _ h; exact h) (.yield rfl hp rfl rfl) r
  · exact (timer_slot hp).1 ▸ (timer_slot hp).2 r
  · exact (clockintr_slot t).1 ▸ (clockintr_slot t).2 r
  · exact absurd rfl (hcall p x)

end SlotMove

end Cases

end Xv6.Sched
