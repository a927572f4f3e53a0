import Mathlib.Algebra.Order.BigOperators.Group.Finset
import Xv6.Log.Group

/-!
# Group commit

What the invariant of the log says about whole runs. A commit starts only when the last operation
in progress ends, and none is admitted until it is over, so each operation lies between two commits
and its blocks go to the disk in one of them. `begin_op` reserves `LOGSIZE` blocks
for a group of operations, while `log_write` refuses any block once `log.size - 1` are listed: with
`log.size = LOGSIZE` a full group does not fit.
-/

namespace Xv6.Log

open GroupLog

variable {P : Type*} [DecidableEq P]

/-- In the history (newest first), an operation of `p` with the observations `body` during it and
`later` after it. -/
def IsOp (t : List (Obs P)) (p : P) (later body : List (Obs P)) : Prop :=
  (∃ earlier, t = later ++ .ended p :: (body ++ .admitted p :: earlier)) ∧
    .ended p ∉ body ∧ .admitted p ∉ body

/-- The first commit in this part of the history is of the blocks `bl`. -/
def FirstHead (t : List (Obs P)) (bl : List ℕ) : Prop :=
  ∃ newer older, t = newer ++ .head bl :: older ∧ NoHead older

/-- The phases in which buffers are being unpinned, or all have been. -/
def Phase.Installing : Phase → Prop
  | .install _ | .clear => True
  | _ => False

structure KeepsWhole (a : LogArea) (s : GroupLog P) : Prop where
  /-- A commit runs only while no operation is outstanding. -/
  commit_alone : ∀ p ph, s.pc p = .commit ph → s.outstanding = 0
  /-- No operation is admitted while `log.committing` is set. -/
  admission : ∀ p s', (Event.beginOp p).run a s = some s' → s.committing = true →
    s'.pc p = .asleep ∧ s'.outstanding = s.outstanding
  /-- During an operation there is no commit; the first one after it commits all its blocks; until
  then they are listed. -/
  one_transaction : ∀ p later body, IsOp s.history p later body → NoHead body ∧
    (∀ bl, FirstHead later bl → ∀ b, .logged p b ∈ body → b ∈ bl) ∧
    (NoHead later → ∀ b, .logged p b ∈ body → b ∈ s.block)
  nodup : s.block.Nodup
  /-- A listed buffer is pinned once, and no other is, until `install_trans` unpins it. -/
  pinned : (∀ p ph, s.pc p = .commit ph → ¬ph.Installing) →
    ∀ b, s.pins b = if b ∈ s.block then 1 else 0
  pinned_install : ∀ p tail, s.pc p = .commit (.install tail) →
    ∀ b, s.pins b = if b ∈ s.block.drop tail then 1 else 0
  unpinned : ∀ p, s.pc p = .commit .clear → ∀ b, s.pins b = 0
  no_panic : s.panicked ≠ some .committing ∧ s.panicked ≠ some .outsideTrans

section History

variable {p : P} {b : ℕ} {t u : List (Obs P)}

omit [DecidableEq P]

theorem NoHead.of_cons {o : Obs P} (h : NoHead (o :: t)) : NoHead t :=
  fun bl hmem => h bl (List.mem_cons_of_mem o hmem)

theorem mem_named_cons {o : Obs P} (ho : ∀ bl, o ≠ .head bl) (hb : b ∈ named t) :
    b ∈ named (o :: t) := by
  cases o with
  | head bl => exact absurd rfl (ho bl)
  | logged q b' => exact Finset.mem_insert_of_mem hb
  | _ => exact hb

theorem mem_named_append (hu : NoHead u) (hb : b ∈ named t) : b ∈ named (u ++ t) := by
  induction u with
  | nil => exact hb
  | cons o u ih =>
    refine mem_named_cons ?_ (ih hu.of_cons)
    rintro bl rfl
    exact hu bl List.mem_cons_self

theorem mem_named_of_logged (hu : NoHead u) (hb : .logged p b ∈ u) : b ∈ named (u ++ t) := by
  induction u with
  | nil => cases hb
  | cons o u ih =>
    rcases List.mem_cons.mp hb with rfl | hin
    · exact Finset.mem_insert_self ..
    · refine mem_named_cons ?_ (ih hu.of_cons hin)
      rintro bl rfl
      exact hu bl List.mem_cons_self

theorem IsOp.mem_named {later body : List (Obs P)} (h : IsOp t p later body)
    (hlater : NoHead later) (hbody : NoHead body) (hb : .logged p b ∈ body) : b ∈ named t := by
  obtain ⟨⟨earlier, rfl⟩, -, -⟩ := h
  apply mem_named_append hlater
  exact mem_named_of_logged (p := p) (u := .ended p :: body) (by
    intro bl hmem
    exact hbody bl (by simpa using hmem)) (List.mem_cons_of_mem _ hb)

end History

theorem since_append {p : P} {body t : List (Obs P)} (h : .admitted p ∉ body) :
    since p (body ++ .admitted p :: t) = body := by
  rw [since, List.takeWhile_append_of_pos]
  · simp
  · intro o ho
    simp only [decide_eq_true_eq]
    rintro rfl
    exact h ho

section Invariant

variable [Fintype P] {a : LogArea} {m : Mode P} {s s' : GroupLog P} {e : Event P}

/-- **What a step records**: the end of an operation in progress, or a commit of all the blocks
named, or something else. -/
theorem InvAt.step_history (h : InvAt a m s) (hrun : e.run a s = some s') :
    s'.history = s.history ∨ ∃ o, s'.history = o :: s.history ∧
      (∀ p, o = .ended p → s.pc p = .inOp) ∧
        ∀ bl, o = .head bl → bl.toFinset = named s.history := by
  obtain ⟨p, rfl, -, rfl⟩ | ⟨p, rfl, -, rfl⟩ | ⟨p, b, rfl, -, rfl⟩ | ⟨p, rfl, hp, rfl⟩ |
    ⟨p, ph, rfl, hp, rfl⟩ := Event.run_cases hrun
  · exact .inl rfl
  · unfold Log.beginOp
    split_ifs
    · exact .inl rfl
    · exact .inl rfl
    · exact .inr ⟨_, rfl, by simp, by simp⟩
  · unfold Log.logWrite
    split_ifs
    · exact .inl rfl
    · exact .inl rfl
    · exact .inr ⟨_, rfl, by simp, by simp⟩
    · exact .inr ⟨_, rfl, by simp, by simp⟩
  · refine .inr ⟨.ended p, ?_, ?_, by simp⟩
    · simp only [Log.endOp]
      split_ifs <;> rfl
    · rintro q ⟨⟩
      exact hp
  · obtain rfl := (h.control.commits p ph).mp hp
    cases ph with
    | start => exact .inl rfl
    | writeLog tail =>
      rw [Log.commitStep]
      split_ifs
      · exact .inr ⟨_, rfl, by simp, by simp⟩
      · exact .inl rfl
    | writeHead =>
      refine .inr ⟨_, rfl, by simp, ?_⟩
      rintro bl ⟨⟩
      exact h.content.listed not_false
    | install tail =>
      rw [Log.commitStep]
      split
      · exact .inr ⟨_, rfl, by simp, by simp⟩
      · exact .inl rfl
    | clear => exact .inl rfl
    | eraseHead => exact .inr ⟨_, rfl, by simp, by simp⟩
    | finish => exact .inl rfl

/-- Every operation in the history lies between two commits, and the second is of its blocks. -/
def OpsWhole (t : List (Obs P)) : Prop :=
  ∀ p later body, IsOp t p later body → NoHead body ∧
    ∀ bl, FirstHead later bl → ∀ b, .logged p b ∈ body → b ∈ bl

theorem OpsWhole.step (h : InvAt a m s) (hops : OpsWhole s.history) (hrun : e.run a s = some s') :
    OpsWhole s'.history := by
  rcases h.step_history hrun with hsame | ⟨o, hcons, hended, hhead⟩
  · exact hsame ▸ hops
  rw [hcons]
  rintro p later body ⟨⟨earlier, hsplit⟩, hne, hna⟩
  cases later with
  | nil =>
    -- the operation ends now: it was in progress
    obtain ⟨rfl, htail⟩ := List.cons.inj hsplit
    have hwhole := h.whole p (hended p rfl)
    rw [htail, since_append hna] at hwhole
    refine ⟨hwhole, ?_⟩
    rintro bl ⟨newer, older, hnil, -⟩
    simp at hnil
  | cons o' later =>
    obtain ⟨rfl, htail⟩ := List.cons.inj hsplit
    have hop : IsOp s.history p later body := ⟨⟨earlier, htail⟩, hne, hna⟩
    obtain ⟨hbody, hfirst⟩ := hops p later body hop
    refine ⟨hbody, ?_⟩
    rintro bl ⟨newer, older, hlater, holder⟩ b hb
    cases newer with
    | nil =>
      -- the commit happens now, of all the blocks named
      obtain ⟨rfl, rfl⟩ := List.cons.inj hlater
      have hmem := hop.mem_named holder hbody hb
      rw [← hhead bl rfl] at hmem
      exact List.mem_toFinset.mp hmem
    | cons o'' newer =>
      obtain ⟨-, rfl⟩ := List.cons.inj hlater
      exact hfirst bl ⟨newer, older, rfl, holder⟩ b hb

theorem opsWhole_reachable (h : (groupLog P a).Reachable s) :
    ∃ m, InvAt a m s ∧ OpsWhole s.history := by
  refine h.invariant (P := fun s => ∃ m, InvAt a m s ∧ OpsWhole s.history) ?_ ?_
  · rintro s rfl
    refine ⟨.opened, .initial, ?_⟩
    rintro p later body ⟨⟨earlier, hnil⟩, -, -⟩
    simp [initial] at hnil
  · rintro s e s' ⟨m, hinv, hops⟩ ⟨-, hrun⟩
    obtain ⟨m', hinv'⟩ := hinv.step hrun
    exact ⟨m', hinv', hops.step hinv hrun⟩

theorem InvAt.pins_eq (h : InvAt a m s) (b : ℕ) :
    s.pins b = if b ∈ s.block.drop (m.unpinned s.block.length) then 1 else 0 := by
  rw [h.content.pinned, pinnedOnce]

/-- **Group commit keeps operations whole**, for any number of processes and any interleaving. -/
theorem group_commit (a : LogArea) (hs : (groupLog P a).Reachable s) : KeepsWhole a s := by
  obtain ⟨m, h, hops⟩ := opsWhole_reachable hs
  constructor
  case commit_alone =>
    intro p ph hp
    have hm := (h.control.commits p ph).mp hp
    have hnone : inProgress s.pc = ∅ := by
      refine Finset.eq_empty_of_forall_notMem fun q hq => ?_
      exact h.control.quiet (by simp [hm]) q (mem_inProgress.mp hq)
    rw [h.control.count, hnone]
    rfl
  case admission =>
    intro p s' hrun hc
    simp only [Event.run, Option.ite_none_right_eq_some, Option.some.injEq] at hrun
    obtain ⟨-, rfl⟩ := hrun
    rw [Log.beginOp, if_pos hc]
    exact ⟨by simp [GroupLog.goto], rfl⟩
  case one_transaction =>
    intro p later body hop
    obtain ⟨hbody, hfirst⟩ := hops p later body hop
    refine ⟨hbody, hfirst, fun hlater b hb => ?_⟩
    have hmem := hop.mem_named hlater hbody hb
    -- a block is named, so the commit point has not been passed
    have hafter : ¬m.AfterHead := by
      intro hafter
      rw [h.content.committed hafter] at hmem
      exact Finset.notMem_empty b hmem
    exact List.mem_toFinset.mp (h.content.listed hafter ▸ hmem)
  case nodup => exact h.content.nodup
  case pinned =>
    intro hnot b
    rw [h.pins_eq b]
    have hzero : s.block.drop (m.unpinned s.block.length) = s.block := by
      unfold Mode.unpinned
      split
      · exact absurd trivial (hnot _ _ ((h.control.commits _ _).mpr rfl))
      · exact absurd trivial (hnot _ _ ((h.control.commits _ _).mpr rfl))
      · rfl
    rw [hzero]
  case pinned_install =>
    intro p tail hp b
    obtain rfl := (h.control.commits p _).mp hp
    exact h.pins_eq b
  case unpinned =>
    intro p hp b
    obtain rfl := (h.control.commits p _).mp hp
    rw [h.pins_eq b]
    simp [Mode.unpinned]
  case no_panic => exact ⟨h.fine.2, h.fine.1⟩

end Invariant

def advance (a : LogArea) (s : GroupLog P) (e : Event P) : Option (GroupLog P) :=
  if s.panicked = none then e.run a s else none

theorem reachable_advance {a : LogArea} {es : List (Event P)} {s : GroupLog P}
    (h : LTS.runAll (advance a) .initial es = some s) : (groupLog P a).Reachable s := by
  refine LTS.Reachable.runAll ?_ (.init rfl) h
  intro s e s' hstep
  unfold advance at hstep
  split_ifs at hstep with hpanic
  exact ⟨hpanic, hstep⟩

/-- Two operations that overlap and log a block in common. -/
def twoOps : List (Event (Fin 2)) :=
  [.enter 0, .beginOp 0, .enter 1, .beginOp 1, .logWrite 0 50, .logWrite 1 51, .endOp 1,
    .logWrite 0 51, .endOp 0, .commit 0, .commit 0, .commit 0, .commit 0, .commit 0]

theorem group_commit_twoOps : ∃ s, LTS.runAll (advance ⟨2, 30⟩) .initial twoOps = some s ∧
    s.history.head? = some (.head [50, 51]) ∧ KeepsWhole ⟨2, 30⟩ s := by
  have hrun : ((LTS.runAll (advance ⟨2, 30⟩) .initial twoOps).bind fun s => s.history.head?) =
      some (.head [50, 51]) := by decide +kernel
  obtain ⟨s, hs, hhead⟩ := Option.bind_eq_some_iff.mp hrun
  exact ⟨s, hs, hhead, group_commit ⟨2, 30⟩ (reachable_advance hs)⟩

/-- The step is not a `log_write` once `log.size - 1` blocks have been named since the last
commit. -/
def Roomy (a : LogArea) (s : GroupLog P) : Event P → Prop
  | .logWrite _ _ => (named s.history).card < a.size - 1
  | _ => True

/-- The blocks named by the process since it was last admitted. -/
def opBlocks (p : P) : List (Obs P) → Finset ℕ
  | [] => ∅
  | .admitted q :: t => if q = p then ∅ else opBlocks p t
  | .logged q b :: t => if q = p then insert b (opBlocks p t) else opBlocks p t
  | _ :: t => opBlocks p t

/-- The step names no block beyond the `MAXOPBLOCKS` of its operation. -/
def WithinQuota (s : GroupLog P) : Event P → Prop
  | .logWrite p b => (insert b (opBlocks p s.history)).card ≤ maxOpBlocks
  | _ => True

section Reservation

variable [Fintype P] {a : LogArea} {m : Mode P} {s s' : GroupLog P}

/-- While an operation is in progress, the log lists as many blocks as have been named. -/
theorem InvAt.length_eq (h : InvAt a .opened s) : s.block.length = (named s.history).card := by
  rw [← h.content.listed not_false, List.toFinset_card_of_nodup h.content.nodup]

theorem InvAt.logWrite_tooBig (ha : a.size ≤ logSize) (h : InvAt a m s) {p : P} {b : ℕ}
    (hp : s.pc p = .inOp) (hpanic : s.panicked = none) :
    (Log.logWrite a p b s).panicked = some .tooBig ↔ ¬Roomy a s (.logWrite p b) := by
  obtain rfl := h.control.opened_of_inOp hp
  have hlen := h.length_eq
  simp only [logSize] at ha
  have hbig : (logSize ≤ s.block.length ∨ (a.size : ℤ) - 1 ≤ s.block.length) ↔
      ¬Roomy a s (.logWrite p b) := by
    simp only [logSize, Roomy, ← hlen]
    omega
  unfold Log.logWrite
  split_ifs with h1 h2 h3
  · simp [hbig.mp h1]
  · exact absurd (h.one_le_outstanding hp) (by omega)
  · simp [record, hpanic, (not_iff_not.mpr hbig).mp h1]
  · simp [record, bpin, hpanic, (not_iff_not.mpr hbig).mp h1]

omit [Fintype P] in
theorem Event.tooBig_logWrite {e : Event P} (hrun : e.run a s = some s')
    (hpanic : s.panicked = none) (hbig : s'.panicked = some .tooBig) :
    ∃ p b, e = .logWrite p b ∧ s.pc p = .inOp ∧ s' = Log.logWrite a p b s := by
  obtain ⟨p, rfl, -, rfl⟩ | ⟨p, rfl, -, rfl⟩ | hlog | ⟨p, rfl, -, rfl⟩ |
    ⟨p, ph, rfl, -, rfl⟩ := Event.run_cases hrun
  · simp [GroupLog.goto, hpanic] at hbig
  · unfold Log.beginOp at hbig
    split_ifs at hbig <;> simp [GroupLog.goto, record, hpanic] at hbig
  · exact hlog
  · simp only [Log.endOp] at hbig
    split_ifs at hbig <;>
      simp [GroupLog.goto, record, wakeup, hpanic] at hbig
  · have hsame : (commitStep a p s ph).panicked = s.panicked := by
      cases ph with
      | writeLog tail =>
        rw [commitStep]
        split_ifs <;> rfl
      | install tail =>
        rw [commitStep]
        split <;> rfl
      | _ => rfl
    rw [hsame, hpanic] at hbig
    cases hbig

/-- **When `log_write` panics** with "too big a transaction", for the log that `mkfs` makes. A run
in which every `log_write` finds fewer than `log.size - 1` blocks named since the last commit never
does; any other `log_write` does. The blocks written by `write_log` lie in the log in any case. -/
theorem log_write_panics_iff (start : ℕ) :
    (∀ s : GroupLog P, ((groupLog P ⟨start, logSize⟩).restrict
      (Roomy ⟨start, logSize⟩)).Reachable s →
      s.panicked ≠ some .tooBig) ∧
    (∀ (s : GroupLog P) p b s', (groupLog P ⟨start, logSize⟩).Reachable s →
      (groupLog P ⟨start, logSize⟩).step s (.logWrite p b) s' →
      (s'.panicked = some .tooBig ↔ ¬Roomy ⟨start, logSize⟩ s (.logWrite p b))) ∧
    ∀ (s : GroupLog P) addr, (groupLog P ⟨start, logSize⟩).Reachable s → .slot addr ∈ s.history →
      start ≤ addr ∧ addr < start + logSize := by
  refine ⟨fun s hs => ?_, fun s p b s' hs hstep => ?_, fun s addr hs hmem => ?_⟩
  · cases hs with
    | init hi =>
      obtain rfl := hi
      simp [initial]
    | step hs hstep =>
      obtain ⟨⟨hpanic, hrun⟩, hroomy⟩ := hstep
      obtain ⟨m, h⟩ := invAt_reachable hs.of_restrict
      intro hbig
      obtain ⟨p, b, rfl, hp, rfl⟩ := Event.tooBig_logWrite hrun hpanic hbig
      exact (h.logWrite_tooBig le_rfl hp hpanic).mp hbig hroomy
  · obtain ⟨hpanic, hrun⟩ := hstep
    obtain ⟨m, h⟩ := invAt_reachable hs
    obtain ⟨hp, rfl⟩ : s.pc p = .inOp ∧ Log.logWrite _ p b s = s' := by
      simpa [Event.run] using hrun
    exact h.logWrite_tooBig le_rfl hp hpanic
  · obtain ⟨m, h⟩ := invAt_reachable hs
    exact h.content.slots addr hmem

end Reservation

instance (a : LogArea) (s : GroupLog P) : ∀ e, Decidable (Roomy a s e)
  | .logWrite _ _ => inferInstanceAs (Decidable ((named s.history).card < a.size - 1))
  | .enter _ | .beginOp _ | .endOp _ | .commit _ => .isTrue trivial

theorem log_write_panics_iff_twoOps : ∃ s,
    ((groupLog (Fin 2) ⟨2, logSize⟩).restrict (Roomy ⟨2, logSize⟩)).Reachable s ∧
      s.history.length = 10 ∧ s.panicked ≠ some .tooBig := by
  let f (s : GroupLog (Fin 2)) (e : Event (Fin 2)) : Option (GroupLog (Fin 2)) :=
    if Roomy ⟨2, logSize⟩ s e then advance ⟨2, logSize⟩ s e else none
  have hrun : ((LTS.runAll f .initial twoOps).map fun s => s.history.length) = some 10 := by
    decide +kernel
  obtain ⟨s, hs, hlen⟩ := Option.map_eq_some_iff.mp hrun
  have hreach : ((groupLog (Fin 2) ⟨2, logSize⟩).restrict (Roomy ⟨2, logSize⟩)).Reachable s := by
    refine LTS.Reachable.runAll (f := f) ?_ (.init rfl) hs
    intro s e s' hstep
    simp only [f, advance, Option.ite_none_right_eq_some] at hstep
    exact ⟨hstep.2, hstep.1⟩
  exact ⟨s, hreach, hlen, (log_write_panics_iff 2).1 s hreach⟩

instance (s : GroupLog P) : ∀ e, Decidable (WithinQuota s e)
  | .logWrite p b => inferInstanceAs (Decidable ((insert b (opBlocks p s.history)).card ≤ _))
  | .enter _ | .beginOp _ | .endOp _ | .commit _ => .isTrue trivial

/-- Three operations of ten blocks each, all admitted together. -/
def threeOps : List (Event (Fin 3)) :=
  [.enter 0, .beginOp 0, .enter 1, .beginOp 1, .enter 2, .beginOp 2] ++
    (List.range 30).map fun i => .logWrite (.ofNat 3 (i / 10)) (100 + i)

/-- Three operations within their quota make `log_write` panic at the thirtieth block. -/
theorem threeOps_too_big : ∃ s,
    ((groupLog (Fin 3) ⟨2, logSize⟩).restrict WithinQuota).Reachable s ∧
      s.panicked = some .tooBig ∧ Panic.tooBig.message = "too big a transaction" := by
  let f (s : GroupLog (Fin 3)) (e : Event (Fin 3)) : Option (GroupLog (Fin 3)) :=
    if WithinQuota s e then advance ⟨2, logSize⟩ s e else none
  have hrun : ((LTS.runAll f .initial threeOps).bind fun s => s.panicked) = some .tooBig := by
    decide +kernel
  obtain ⟨s, hs, hbig⟩ := Option.bind_eq_some_iff.mp hrun
  refine ⟨s, LTS.Reachable.runAll (f := f) ?_ (.init rfl) hs, hbig, rfl⟩
  intro s e s' hstep
  simp only [f, advance, Option.ite_none_right_eq_some] at hstep
  exact ⟨hstep.2, hstep.1⟩

end Xv6.Log
