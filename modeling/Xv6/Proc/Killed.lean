import Xv6.Proc.Children

/-!
# Who is killed

`killed` is set by `kill`, which looks for a slot with the given pid, and by `setkilled`, which a
process calls on itself when it faults. `freeproc` clears it together with the pid, and `allocproc`
clears neither. So `kill(0)` finds a slot that is not in use, and the mark that it leaves there is
for the next process in that slot. As long as no `kill(0)` meets such a slot, a process is marked
only by its own fault or by a `kill` of its pid while it lives.
-/

namespace Xv6.Life

open Sched (ProcState)

variable {n : ℕ}

/-- `kill(pid)`: the first slot with this pid is marked. -/
def Family.kill (s : Family n) (pid : BitVec 32) : Family n × BitVec 32 :=
  match (List.finRange n).find? fun j => (s.proc j).pid = pid with
  | some j => (s.killOne pid j, 0)
  | none => (s, -1)

/-- What a step does to the slot `q`, which holds `x` before it and `x'` after it. -/
inductive Fate (s : Family n) (a : Act n) (q : Fin n) (x x' : Proc n) : Prop
  | keep (pid : x'.pid = x.pid) (killed : x'.killed = x.killed) (birth : x'.birth = x.birth)
    (unused : x'.state = .unused ↔ x.state = .unused)
  | free (unused : x'.state = .unused) (pid : x'.pid = 0) (killed : x'.killed = false)
  | born (p : Fin n) (he : a = .fork p q true) (unused : x.state = .unused)
    (used : x'.state = .used) (killed : x'.killed = x.killed) (birth : x'.birth = s.born)
  | mark (he : a = .kill x.pid q ∨ a = .setkilled q ∧ x.state = .running) (pid : x'.pid = x.pid)
    (killed : x'.killed = true) (birth : x'.birth = x.birth)
    (unused : x'.state = .unused ↔ x.state = .unused)

namespace Kin

variable {init : Fin n} {s s' : Family n} {p : Fin n} {a : Act n} {e : Option (Event n)}

theorem fate_refl (q : Fin n) : Fate s a q (s.proc q) (s.proc q) := .keep rfl rfl rfl .rfl

theorem fate_put {j : Fin n} {x : Proc n} (q : Fin n) (hx : Fate s a j (s.proc j) x) :
    Fate s a q (s.proc q) ((s.put j x).proc q) := by
  rw [Family.put_proc]
  split_ifs with hq
  · exact hq ▸ hx
  · exact fate_refl q

theorem wakeOne_fate (chan : Chan n) (j q : Fin n) :
    Fate s a q (s.proc q) ((s.wakeOne chan j).proc q) := by
  unfold Family.wakeOne
  split_ifs with hj
  · exact fate_put q (.keep rfl rfl rfl (by simp [hj.1]))
  · exact fate_refl q

theorem next_fate (h : Kin init s) {ok : Bool} (hp : (s.proc p).state = .running)
    (hs : s.Goes init p ok e s') (q : Fin n) : Fate s a q (s.proc q) (s'.proc q) := by
  cases hs with
  | forkMade | adopt => exact fate_put q (.keep rfl rfl rfl .rfl)
  | forkParented hpc =>
    have hused := h.roles.child p _ (by rw [hpc]; rfl)
    exact fate_put q (.keep rfl rfl rfl (by simp [hused]))
  | wakeInit | wakeParent => exact wakeOne_fate _ _ q
  | zombie | sleep => exact fate_put q (.keep rfl rfl rfl (by simp [hp]))
  | reap => exact fate_put q (.free rfl rfl rfl)
  | _ => exact fate_refl q

/-- **What a step does to a slot.** -/
theorem fate (h : Kin init s) (hs : s.step init a = some (e, s')) (q : Fin n) :
    Fate s a q (s.proc q) (s'.proc q) := by
  cases Family.step_does hs with
  | dispatch hp | yield hp | sleep hp => exact fate_put q (.keep rfl rfl rfl (by simp [hp]))
  | wakeup chan j => exact wakeOne_fate chan j q
  | kill pid j =>
    unfold Family.killOne
    split_ifs with hpid hsleep
    · exact fate_put q (.mark (.inl (by rw [hpid])) rfl rfl rfl (by simp [hsleep]))
    · exact fate_put q (.mark (.inl (by rw [hpid])) rfl rfl rfl .rfl)
    · exact fate_refl q
  | setkilled hp => exact fate_put q (.mark (.inr ⟨rfl, hp⟩) rfl rfl rfl .rfl)
  | fork _ _ hnp => exact fate_put q (.born _ rfl hnp rfl rfl rfl)
  | forkFails => exact fate_put q (.free rfl rfl rfl)
  | exit | wait => exact fate_refl q
  | next hp hgoes => exact h.next_fate hp hgoes q

end Kin

/-- The slots that are not in use have no pid and no mark. -/
def Clean (s : Family n) : Prop :=
  ∀ q, (s.proc q).state = .unused → (s.proc q).pid = 0 ∧ (s.proc q).killed = false

/-- The step is no `kill(0)` that meets a slot that is not in use. -/
def Act.Spares (s : Family n) (a : Act n) : Prop := ∀ j, a = .kill 0 j → (s.proc j).state ≠ .unused

def Spared (init : Fin n) (as : List (Act n × Option (Event n))) : Prop :=
  ∀ as1 a as2 s1, as = as1 ++ a :: as2 → (family init).Run (.first init) as1 s1 → a.1.Spares s1

/-- At some step of the run the process in slot `q`, the one that is there now, was marked by a
`kill` of its pid or by its own fault. -/
def Marked (init : Fin n) (as : List (Act n × Option (Event n))) (s : Family n) (q : Fin n) :
    Prop :=
  ∃ as1 a as2 s1 s2, as = as1 ++ a :: as2 ∧ (family init).Run (.first init) as1 s1 ∧
    (family init).step s1 a s2 ∧ (family init).Run s2 as2 s ∧ (s1.proc q).state ≠ .unused ∧
    (s1.proc q).birth = (s.proc q).birth ∧
    (a.1 = .kill (s1.proc q).pid q ∨ a.1 = .setkilled q ∧ (s1.proc q).state = .running)

section Clean

variable {init : Fin n} {s s' : Family n} {a : Act n × Option (Event n)}
  {as : List (Act n × Option (Event n))} {q : Fin n}

theorem Clean.allocated (h : Clean s) (ha : a.1.Spares s)
    (hmark : a.1 = .kill (s.proc q).pid q ∨ a.1 = .setkilled q ∧ (s.proc q).state = .running) :
    (s.proc q).state ≠ .unused := by
  intro hunused
  rcases hmark with he | ⟨-, hrunning⟩
  · exact ha q (by rw [he, (h q hunused).1]) hunused
  · cases hunused.symm.trans hrunning

theorem Clean.step (h : Clean s) (hk : Kin init s) (ha : a.1.Spares s)
    (hs : (family init).step s a s') : Clean s' := by
  intro q hunused'
  cases hk.fate hs q with
  | keep pid killed birth unused =>
    rw [pid, killed]
    exact h q (unused.mp hunused')
  | free unused pid killed => exact ⟨pid, killed⟩
  | born p he unused used => cases hunused'.symm.trans used
  | mark he pid killed birth unused => exact absurd (unused.mp hunused') (h.allocated ha he)

theorem Marked.step (h : Marked init as s q) (hs : (family init).step s a s')
    (hbirth : (s'.proc q).birth = (s.proc q).birth) : Marked init (as ++ [a]) s' q := by
  obtain ⟨as1, b, as2, s1, s2, rfl, hrun1, hstep, hrun2, hused, hb, hnamed⟩ := h
  exact ⟨as1, b, as2 ++ [a], s1, s2, by simp, hrun1, hstep, hrun2.snoc hs, hused,
    hb.trans hbirth.symm, hnamed⟩

structure Accounted (init : Fin n) (as : List (Act n × Option (Event n))) (s : Family n) :
    Prop where
  run : (family init).Run (.first init) as s
  kin : Kin init s
  clean : Clean s
  marked : ∀ q, (s.proc q).state ≠ .unused → (s.proc q).killed = true → Marked init as s q

theorem Accounted.step (h : Accounted init as s) (ha : a.1.Spares s)
    (hs : (family init).step s a s') : Accounted init (as ++ [a]) s' := by
  refine ⟨h.run.snoc hs, h.kin.step hs, h.clean.step h.kin ha hs, fun q hused hkilled => ?_⟩
  cases h.kin.fate hs q with
  | keep pid killed birth unused =>
    exact (h.marked q (mt unused.mpr hused) (killed ▸ hkilled)).step hs birth
  | free unused => exact absurd unused hused
  | born p he unused used killed =>
    -- a new process finds the slot clean
    rw [killed, (h.clean q unused).2] at hkilled
    cases hkilled
  | mark he pid killed birth unused =>
    exact ⟨as, a, [], s, s', rfl, h.run, hs, .nil s', h.clean.allocated ha he, birth.symm, he⟩

theorem accounted (h : (family init).Run (.first init) as s) (ha : Spared init as) :
    Accounted init as s := by
  refine h.history (P := fun as s => Spared init as → Accounted init as s)
    (fun bs s a s' ih hstep hall => ?_) (fun _ => ?_) ha
  · have hacc := ih fun as1 b as2 s1 heq => hall as1 b (as2 ++ [a]) s1 (by simp [heq])
    exact hacc.step (hall bs a [] s rfl hacc.run) hstep
  · have hclean : Clean (Family.first init) := by
      intro q hunused
      by_cases hq : q = init
      · simp [Family.first, hq] at hunused
      · simp [Family.first, hq, Proc.empty]
    refine ⟨.nil _, .userinit init, hclean, fun q _ hkilled => ?_⟩
    by_cases hq : q = init
    · simp [Family.first, hq, Proc.empty] at hkilled
    · simp [Family.first, hq, Proc.empty] at hkilled

theorem Clean.kill (h : Clean s) {pid : BitVec 32}
    (hpid : pid = 0 → ∀ q, (s.proc q).state ≠ .unused) :
    (∃ q, (s.proc q).state ≠ .unused ∧ (s.proc q).pid = pid ∧
      s.kill pid = (s.killOne pid q, 0)) ∨
    ((∀ q, (s.proc q).pid ≠ pid) ∧ s.kill pid = (s, -1)) := by
  unfold Family.kill
  split
  · rename_i q hq
    have hfound : (s.proc q).pid = pid := by simpa using List.find?_some hq
    refine .inl ⟨q, fun hunused => hpid ?_ q hunused, hfound, rfl⟩
    rw [← hfound, (h q hunused).1]
  · rename_i hnone
    refine .inr ⟨fun q hq => ?_, rfl⟩
    simpa [hq] using List.find?_eq_none.mp hnone q (List.mem_finRange q)

end Clean

/-- **Processes are killed on their own account only**, as long as no `kill(0)` meets a slot that is
not in use: a step that marks a slot finds a process there, and is a `kill` of its pid or its own
fault; such a `kill` marks a process with that pid, or there is none and it fails; a process that
`fork` creates is not marked; and one that is marked has been killed, or has faulted, since its
creation. -/
theorem killed_own_account {init : Fin n} {as : List (Act n × Option (Event n))} {s : Family n}
    (h : (family init).Run (.first init) as s) (ha : Spared init as) :
    (∀ a s' q, (family init).step s a s' → a.1.Spares s → (s.proc q).killed = false →
      (s'.proc q).killed = true → (s.proc q).state ≠ .unused ∧
        (a.1 = .kill (s.proc q).pid q ∨ a.1 = .setkilled q ∧ (s.proc q).state = .running)) ∧
    (∀ pid, (pid = 0 → ∀ q, (s.proc q).state ≠ .unused) →
      (∃ q, (s.proc q).state ≠ .unused ∧ (s.proc q).pid = pid ∧
        s.kill pid = (s.killOne pid q, 0)) ∨
      ((∀ q, (s.proc q).pid ≠ pid) ∧ s.kill pid = (s, -1))) ∧
    (∀ p np e s', (family init).step s (.fork p np true, e) s' → (s'.proc np).killed = false) ∧
    ∀ q, (s.proc q).state ≠ .unused → (s.proc q).killed = true → Marked init as s q := by
  have hacc := accounted h ha
  refine ⟨fun a s' q hs hna hk hk' => ?_, fun pid hpid => hacc.clean.kill hpid,
    fun p np e s' hs => ?_, hacc.marked⟩
  · cases hacc.kin.fate hs q with
    | keep pid killed => simp [killed, hk] at hk'
    | free unused pid killed => simp [killed] at hk'
    | born p he unused used killed => simp [killed, hk] at hk'
    | mark he => exact ⟨hacc.clean.allocated hna he, he⟩
  · obtain ⟨s1, hs1, heq⟩ := Option.map_eq_some_iff.mp hs
    cases heq
    rw [Family.fork, Option.ite_none_right_eq_some] at hs1
    obtain ⟨⟨-, -, hnp⟩, hs1⟩ := hs1
    cases hs1
    simpa using (hacc.clean np hnp).2

/-- `init` forks a child and kills it. -/
def childKilled : List (Act 2) :=
  [.dispatch 0, .fork 0 1 true, .next 0 true, .next 0 true, .kill 2 1]

theorem killed_own_account_childKilled :
    ∃ as s, LTS.trace (Family.labelled 0) (.first 0) childKilled = some (as, s) ∧
      (s.proc 1).killed = true ∧ Marked 0 as s 1 := by
  obtain ⟨⟨as, s⟩, hrun, hvalues⟩ : ∃ r,
      LTS.trace (Family.labelled 0) (.first 0) childKilled = some r ∧
        (r.1, (r.2.proc 1).state, (r.2.proc 1).killed) =
          (childKilled.map (·, none), .runnable, true) := by
    refine Option.map_eq_some_iff.mp ?_
    decide +kernel
  simp only [Prod.mk.injEq] at hvalues
  obtain ⟨hlabels, hstate, hkilled⟩ := hvalues
  have hnonzero : ∀ a ∈ as, ∀ j, a.1 ≠ .kill 0 j := by
    rw [hlabels]
    decide
  refine ⟨as, s, hrun, hkilled, (killed_own_account (run_of_trace hrun) ?_).2.2.2 1
    (by simp [hstate]) hkilled⟩
  exact fun as1 a as2 _ heq _ j hj => absurd hj (hnonzero a (by simp [heq]) j)

/-- **`kill(0)` kills a process that does not exist yet.** It finds the free slot 1, marks it and
reports success; the next `fork` creates a process there that is marked from the beginning. -/
theorem kill_zero :
    ((Family.first (0 : Fin 2)).proc 1).state = .unused ∧
      (Family.first (0 : Fin 2)).kill 0 = ((Family.first (0 : Fin 2)).killOne 0 1, 0) ∧
      ∃ as s s', (family (0 : Fin 2)).Run (.first 0) as s ∧
        (family (0 : Fin 2)).step s (.fork 0 1 true, none) s' ∧ (s'.proc 1).killed = true := by
  obtain ⟨⟨as, s⟩, hrun, hvalues⟩ : ∃ r,
      LTS.trace (Family.labelled 0) (.first (0 : Fin 2)) [.kill 0 1, .dispatch 0] = some r ∧
        (r.2.step 0 (.fork 0 1 true)).map (fun x => (x.1, (x.2.proc 1).killed)) =
          some (none, true) := by
    refine Option.map_eq_some_iff.mp ?_
    decide +kernel
  obtain ⟨⟨e, s'⟩, hs', hx⟩ := Option.map_eq_some_iff.mp hvalues
  obtain ⟨rfl, hkilled⟩ := Prod.mk.inj hx
  exact ⟨by decide, rfl, as, s, s', run_of_trace hrun, hs', hkilled⟩

end Xv6.Life
