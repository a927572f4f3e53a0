import Xv6.Proc.Children

/-!
# Every exit is told once

Every process that has exited is told to its parent, with the pid and the status of its `exit`, and
to nobody else and not again. `Change` says all that a step can do to the process table, as far as
this is concerned; the rest is bookkeeping over the events of a run.
-/

namespace Xv6.Life

open Sched (ProcState)

variable {n : ℕ}

/-- The status of the call of `exit` that the process is in. -/
def Pc.status : Pc n → Option (BitVec 32)
  | .exitReparent status _ | .exitWakeInit status _ _ | .exitWakeParent status _ _ => some status
  | _ => none

/-- The slot holds the same process, exited or not as before. -/
structure Proc.Same (q q' : Proc n) : Prop where
  birth : q'.birth = q.birth
  pid : q'.pid = q.pid
  unused : q'.state = .unused ↔ q.state = .unused
  zombie : q'.state = .zombie ↔ q.state = .zombie
  xstate : q.state = .zombie → q'.xstate = q.xstate

theorem Proc.Same.refl (q : Proc n) : Proc.Same q q := ⟨rfl, rfl, .rfl, .rfl, fun _ => rfl⟩

/-- What a step can do to the lives of processes, and the event it gives. -/
inductive Family.Change (s : Family n) : Option (Event n) → Family n → Prop
  /-- Nobody is born, exits or is told about. -/
  | quiet {s' : Family n} (proc : ∀ r, (s.proc r).Same (s'.proc r)) (born : s'.born = s.born)
    (status : ∀ r st, (s'.pc r).status = some st → (s.pc r).status = some st) : Change s none s'
  /-- A slot is given to a new process, which may be freed again. -/
  | fork {s' : Family n} (np : Fin n) (q : Proc n) (unused : (s.proc np).state = .unused)
    (proc : ∀ r, s'.proc r = if r = np then q else s.proc r) (born : s'.born = s.born + 1)
    (new : q.state = .unused ∨ q.state = .used ∧ q.birth = s.born)
    (status : ∀ r st, (s'.pc r).status = some st → (s.pc r).status = some st) : Change s none s'
  /-- A process calls `exit`. -/
  | exiting {s' : Family n} (p : Fin n) (status : BitVec 32) (running : (s.proc p).state = .running)
    (proc : ∀ r, s'.proc r = s.proc r) (born : s'.born = s.born)
    (pc : ∀ r, s'.pc r = if r = p then .exitReparent status 0 else s.pc r) :
    Change s (some (.exiting (s.proc p).birth status)) s'
  | exited {s' : Family n} (p : Fin n) (status : BitVec 32) (running : (s.proc p).state = .running)
    (called : (s.pc p).status = some status)
    (proc : ∀ r, s'.proc r =
      if r = p then { s.proc p with state := .zombie, xstate := status } else s.proc r)
    (born : s'.born = s.born) (pc : ∀ r, s'.pc r = if r = p then .dead else s.pc r) :
    Change s (some (.exited (s.proc p).birth (s.proc p).pid status)) s'
  /-- Its parent is told, and the slot is freed. -/
  | returned {s' : Family n} (p k : Fin n) (zombie : (s.proc k).state = .zombie)
    (parent : (s.proc k).parent = some p)
    (proc : ∀ r, s'.proc r = if r = k then (s.proc k).free else s.proc r)
    (born : s'.born = s.born)
    (status : ∀ r st, (s'.pc r).status = some st → (s.pc r).status = some st) :
    Change s (some (.returned p (s.proc k).birth (s.proc k).pid (s.proc k).xstate)) s'

namespace Family

variable {init : Fin n} {s s' : Family n} {p : Fin n}

theorem wakeOne_same (s : Family n) (chan : Chan n) (j r : Fin n) :
    (s.proc r).Same ((s.wakeOne chan j).proc r) := by
  unfold wakeOne
  split_ifs
  · constructor <;> grind
  · exact .refl _

theorem wakeOne_born (s : Family n) (chan : Chan n) (j : Fin n) :
    (s.wakeOne chan j).born = s.born := by
  unfold wakeOne
  split_ifs <;> rfl

theorem killOne_same (s : Family n) (pid : BitVec 32) (j r : Fin n) :
    (s.proc r).Same ((s.killOne pid j).proc r) := by
  unfold killOne
  split_ifs
  · constructor <;> grind
  · constructor <;> grind
  · exact .refl _

namespace Change

theorem move {q : Proc n} {x : Pc n} (hq : (s.proc p).Same q)
    (hx : ∀ st, x.status = some st → (s.pc p).status = some st) :
    s.Change none ((s.put p q).goto p x) := by
  refine .quiet (fun r => ?_) rfl fun r st hr => ?_
  · rw [goto_proc, put_proc]
    split_ifs with hrp
    · exact hrp ▸ hq
    · exact .refl _
  · rw [goto_pc] at hr
    split_ifs at hr with hrp
    · exact hrp ▸ hx st hr
    · exact hr

theorem goto {x : Pc n} {o : Option (Fin n)}
    (hx : ∀ st, x.status = some st → (s.pc p).status = some st) :
    s.Change none ((s.setLock o).goto p x) := by
  refine .quiet (fun r => .refl _) rfl fun r st hr => ?_
  rw [goto_pc] at hr
  split_ifs at hr with hrp
  · exact hrp ▸ hx st hr
  · exact hr

theorem wake {chan : Chan n} {j : Fin n} {x : Pc n}
    (hx : ∀ st, x.status = some st → (s.pc p).status = some st) :
    s.Change none ((s.wakeOne chan j).goto p x) := by
  refine .quiet (fun r => wakeOne_same s chan j r) (wakeOne_born s chan j) fun r st hr => ?_
  rw [goto_pc, wakeOne_pc] at hr
  split_ifs at hr with hrp
  · exact hrp ▸ hx st hr
  · exact hr

theorem next (h : Kin init s) {ok : Bool} {e : Option (Event n)} (hp : (s.proc p).state = .running)
    (hs : s.Goes init p ok e s') : s.Change e s' := by
  cases hs with
  | forkMade | adopt =>
    refine .quiet (fun r => ?_) rfl ?_
    · rw [goto_proc, put_proc]
      constructor <;> grind
    · grind [Pc.status]
  | forkParented hpc =>
    have hused := h.roles.child p _ (by rw [hpc]; rfl)
    refine .quiet (fun r => ?_) rfl ?_
    · rw [goto_proc, goto_proc, put_proc]
      constructor <;> grind
    · grind [Pc.status]
  | skip hpc | reparented hpc | wokenInit hpc | orphan hpc =>
    exact goto (o := s.waitLock) (by rw [hpc]; exact fun _ => id)
  | wakeInit hpc | wakeParent hpc => exact wake (by rw [hpc]; exact fun _ => id)
  | zombie hpc =>
    exact .exited p _ hp (by rw [hpc]; rfl) (fun r => by simp [becomeZombie]) rfl
      fun r => by simp [becomeZombie]
  | reap hpc hchild hzombie =>
    refine .returned p _ hzombie hchild (fun r => by simp) rfl fun r st hr => ?_
    rw [goto_pc] at hr
    split_ifs at hr with hrp
    · cases hr
    · exact hr
  | giveUp | pass => exact goto (o := s.waitLock) (by simp [Pc.status])
  | scanned | check => exact goto (o := s.waitLock) (by split_ifs <;> simp [Pc.status])
  | sleep =>
    refine .quiet (fun r => ?_) rfl ?_
    · rw [goto_proc, setLock_proc, put_proc]
      constructor <;> grind
    · grind [Pc.status]
  | again | leave => exact goto (by simp [Pc.status])

end Change

/-- **Every step** is one of the changes. -/
theorem step_change (h : Kin init s) {a : Act n} {e : Option (Event n)}
    (hs : s.step init a = some (e, s')) : s.Change e s' := by
  cases step_does hs with
  | @dispatch p hp =>
    refine .move ?_ ?_
    · constructor <;> grind
    · cases s.pc p <;> exact fun _ => id
  | yield | setkilled =>
    refine .quiet (fun r => ?_) rfl fun _ _ => id
    rw [put_proc]
    constructor <;> grind
  | sleep =>
    refine .move ?_ (by simp [Pc.status])
    constructor <;> grind
  | wakeup chan j => exact .quiet (wakeOne_same s chan j) (wakeOne_born s chan j) (by simp)
  | kill pid j =>
    refine .quiet (killOne_same s pid j) ?_ ?_
    · unfold killOne
      split_ifs <;> rfl
    · unfold killOne
      split_ifs <;> exact fun _ _ => id
  | @fork p np _ _ hnp =>
    refine .fork np (s.newborn np) hnp (fun r => by simp) rfl (.inr ⟨rfl, rfl⟩) ?_
    grind [Pc.status]
  | @forkFails p np hnp =>
    exact .fork np (s.newborn np).free hnp (fun r => by simp) rfl (.inl rfl) fun _ _ => id
  | exit hp => exact .exiting _ _ hp (fun r => rfl) rfl fun r => by simp
  | wait => exact .goto (by simp [Pc.status])
  | next hp hgoes => exact .next h hp hgoes

end Family

/-! ## The events of a run -/

/-- The number of the process that its parent is told about. -/
def Event.told : Event n → Option ℕ
  | .returned _ birth _ _ => some birth
  | _ => none

def events (as : List (Act n × Option (Event n))) : List (Event n) := as.filterMap (·.2)

theorem events_snoc (as : List (Act n × Option (Event n))) (a : Act n × Option (Event n)) :
    events (as ++ [a]) = events as ++ a.2.toList := by
  cases ha : a.2 <;> simp [events, List.filterMap_append, ha]

/-- The state agrees with the events so far: the processes in the table have numbers of their own,
the zombies among them have exited and their parents have not been told, and every process that has
exited is a zombie or its parent has been told. -/
structure History (es : List (Event n)) (s : Family n) : Prop where
  born : ∀ q, (s.proc q).state ≠ .unused → (s.proc q).birth < s.born
  distinct : ∀ q q', (s.proc q).state ≠ .unused → (s.proc q').state ≠ .unused →
    (s.proc q).birth = (s.proc q').birth → q = q'
  exiting : ∀ p st, (s.pc p).status = some st → .exiting (s.proc p).birth st ∈ es
  zombie : ∀ q, (s.proc q).state = .zombie →
    .exited (s.proc q).birth (s.proc q).pid (s.proc q).xstate ∈ es ∧
      ∀ p pid st, .returned p (s.proc q).birth pid st ∉ es
  alive : ∀ q, (s.proc q).state ≠ .unused → (s.proc q).state ≠ .zombie →
    ∀ pid st, .exited (s.proc q).birth pid st ∉ es
  exited : ∀ b pid st, .exited b pid st ∈ es → b < s.born ∧ .exiting b st ∈ es ∧
    ((∃ q, (s.proc q).state = .zombie ∧ (s.proc q).birth = b ∧ (s.proc q).pid = pid ∧
      (s.proc q).xstate = st) ∨ ∃ p, .returned p b pid st ∈ es)
  returned : ∀ p b pid st, .returned p b pid st ∈ es → .exited b pid st ∈ es
  once : (es.filterMap Event.told).Nodup

namespace History

variable {init : Fin n} {s s' : Family n} {es : List (Event n)} {e : Option (Event n)}

theorem mem_told {b : ℕ} : b ∈ es.filterMap Event.told ↔ ∃ p pid st, .returned p b pid st ∈ es := by
  rw [List.mem_filterMap]
  constructor
  · rintro ⟨e, he, hb⟩
    cases e with
    | exiting birth status | exited birth pid status => cases hb
    | returned p birth pid status => exact ⟨p, pid, status, Option.some.inj hb ▸ he⟩
  · rintro ⟨p, pid, st, he⟩
    exact ⟨_, he, rfl⟩

/-- **Every change** keeps the agreement. -/
theorem change (h : History es s) (hk : Kin init s) (hs : s.Change e s') :
    History (es ++ e.toList) s' := by
  cases hs with
  | quiet proc born status =>
    simp only [Option.toList_none, List.append_nil]
    have hbirth := fun r => (proc r).birth
    have hpid := fun r => (proc r).pid
    have hunused := fun r => (proc r).unused
    have hzombie := fun r => (proc r).zombie
    have hxstate := fun r => (proc r).xstate
    constructor <;> grind [History]
  | fork np q unused proc born new status =>
    -- the number of the new process has not been used
    simp only [Option.toList_none, List.append_nil]
    have hdead : s.pc np = .dead := (hk.roles.fits np).eq_dead (by grind [Live])
    constructor <;> grind [History, Pc.status]
  | exiting p st running proc born pc =>
    simp only [Option.toList_some]
    constructor <;> grind [History, Pc.status, Event.told]
  | exited p st running called proc born pc =>
    -- it had not exited before, so nobody has been told
    simp only [Option.toList_some]
    constructor <;> grind [History, Pc.status, Event.told]
  | returned p k zombie parent proc born status =>
    simp only [Option.toList_some]
    have hdead : s.pc k = .dead := (hk.roles.fits k).eq_dead (by grind [Live])
    have hnew : (s.proc k).birth ∉ es.filterMap Event.told := by
      rw [mem_told]
      rintro ⟨p', pid, st, hr⟩
      exact (h.zombie k zombie).2 p' pid st hr
    constructor
    case once =>
      rw [List.filterMap_append]
      exact h.once.append (List.nodup_singleton _) (List.disjoint_singleton.mpr hnew)
    all_goals grind [History, Pc.status, Proc.free]

theorem userinit (init : Fin n) : History [] (Family.first init) := by
  have hproc : ∀ q, ((Family.first init).proc q).state ≠ .unused → q = init := fun q hq => by
    by_contra hne
    exact hq (by simp [Family.first, hne, Proc.empty])
  have hproc0 : (Family.first init).proc init = ⟨.runnable, none, 1, 0, none, false, 0⟩ := by
    simp [Family.first, Proc.empty]
  have hpc : ∀ p, ((Family.first init).pc p).status = none := fun p => by
    by_cases hp : p = init <;> simp [Family.first, hp, Pc.status]
  have hborn : (Family.first init).born = 1 := rfl
  constructor <;> grind

end History

theorem kin_history {init : Fin n} {as : List (Act n × Option (Event n))} {s : Family n}
    (h : (family init).Run (.first init) as s) : Kin init s ∧ History (events as) s := by
  refine h.history (P := fun as s => Kin init s ∧ History (events as) s)
    (fun bs s a s' hs hstep => ?_) ⟨.userinit init, .userinit init⟩
  refine ⟨hs.1.step hstep, ?_⟩
  rw [events_snoc]
  exact hs.2.change hs.1 (Family.step_change hs.1 hstep)

/-- **No child is lost.** After every run from `userinit`: the parent of every process that has
started, other than `init`, has neither exited nor been freed; a process that has exited is a
zombie, with its pid and status, until a parent has been told, only a parent is told, and nobody
twice; and while `wait_lock` is free no process sleeps in `wait` that has a zombie for a child. -/
theorem children_kept {init : Fin n} {as : List (Act n × Option (Event n))} {s : Family n}
    (h : (family init).Run (.first init) as s) :
    (∀ q, q ≠ init → Live (s.proc q).state ∨ (s.proc q).state = .zombie →
      ∃ r, (s.proc q).parent = some r ∧ (s.proc r).state ≠ .unused ∧ (s.proc r).state ≠ .zombie) ∧
    (∀ b pid st, .exited b pid st ∈ events as → .exiting b st ∈ events as ∧
      ((∃ q r, (s.proc q).state = .zombie ∧ (s.proc q).birth = b ∧ (s.proc q).pid = pid ∧
        (s.proc q).xstate = st ∧ (s.proc q).parent = some r) ∨
        ∃ p, .returned p b pid st ∈ events as)) ∧
    (∀ a p b pid st s', (family init).step s (a, some (.returned p b pid st)) s' →
      (∃ q, (s.proc q).state = .zombie ∧ (s.proc q).parent = some p ∧ (s.proc q).birth = b) ∧
      .exited b pid st ∈ events as ∧ b ∉ (events as).filterMap Event.told) ∧
    ((events as).filterMap Event.told).Nodup ∧
    (s.waitLock = none → ∀ p, s.Waits p → s.NoZombie p) := by
  obtain ⟨hkin, hist⟩ := kin_history h
  have hparent : ∀ q, q ≠ init → Live (s.proc q).state ∨ (s.proc q).state = .zombie →
      ∃ r, (s.proc q).parent = some r ∧ Live (s.proc r).state := fun q hq hst => by
    obtain ⟨r, hr⟩ := Option.ne_none_iff_exists'.mp (hkin.roles.parent q hq hst)
    exact ⟨r, hr, hkin.roles.alive q r hr⟩
  refine ⟨fun q hq hst => ?_, fun b pid st he => ?_, fun a p b pid st s' hstep => ?_, hist.once,
    fun hfree p hp => ?_⟩
  · obtain ⟨r, hr, hlive⟩ := hparent q hq hst
    exact ⟨r, hr, by grind [Live], by grind [Live]⟩
  · obtain ⟨-, hcall, hz | hr⟩ := hist.exited b pid st he
    · obtain ⟨q, hz, hb, hpid, hx⟩ := hz
      have hinit : q ≠ init := by
        rintro rfl
        have := hkin.roles.first
        grind [Live]
      obtain ⟨r, hr, -⟩ := hparent q hinit (.inr hz)
      exact ⟨hcall, .inl ⟨q, r, hz, hb, hpid, hx, hr⟩⟩
    · exact ⟨hcall, .inr hr⟩
  · have hchange : s.Change (some (.returned p b pid st)) s' := Family.step_change hkin hstep
    cases hchange with
    | returned _ k zombie parent =>
      obtain ⟨hexited, hnot⟩ := hist.zombie k zombie
      refine ⟨⟨k, zombie, parent, rfl⟩, hexited, fun htold => ?_⟩
      obtain ⟨p', pid, st, hr⟩ := History.mem_told.mp htold
      exact hnot p' pid st hr
  · rcases hkin.woken p hp with hno | ⟨w, hw, -⟩
    · exact hno
    · cases hw.symm.trans hfree

/-- `init` forks a child, which exits with status 7 while `init` goes on. -/
def childExits : List (Act 2) :=
  [.dispatch 0, .fork 0 1 true, .next 0 true, .next 0 true, .dispatch 1, .exit 1 7] ++
    List.replicate 6 (.next 1 true)

theorem children_kept_childExits :
    ∃ as s, LTS.trace (Family.labelled 0) (.first 0) childExits = some (as, s) ∧
      ∃ q r, (s.proc q).state = .zombie ∧ (s.proc q).birth = 1 ∧
        (s.proc q).pid = 2 ∧ (s.proc q).xstate = 7 ∧ (s.proc q).parent = some r := by
  obtain ⟨⟨as, s⟩, hrun, hevents⟩ : ∃ r,
      LTS.trace (Family.labelled 0) (.first 0) childExits = some r ∧
        events r.1 = [.exiting 1 7, .exited 1 2 7] := by
    refine Option.map_eq_some_iff.mp ?_
    decide +kernel
  have h : (family 0).Run (.first 0) as s := run_of_trace hrun
  refine ⟨as, s, hrun, ?_⟩
  obtain ⟨-, hzombie | ⟨p, hp⟩⟩ := (children_kept h).2.1 1 2 7 (by simp [hevents])
  · exact hzombie
  · simp [hevents] at hp

end Xv6.Life
