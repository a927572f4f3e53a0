import Xv6.Mem.Shortage
import Xv6.Sched.Mlfq

/-!
# `sys_waitx` and its copies to user memory

`waitx` finds a child that has exited, copies its status out, frees it and returns its times
through two pointers; `sys_waitx` then copies the times to user memory, when the child is gone. It
does so whether `waitx` has found a child or not, from local variables that nobody has assigned if
it has not.

A call here is its last round: one that ends in `sleep` leaves the table and the memory alone.
-/

namespace Xv6.Waitx

open Finset

open Sched (Slot Policy)

variable {σ γ ε : Type}

/-- The process table, the page table of the caller, and the memory. -/
structure Caller (σ γ : Type) where
  table : Sched.Table σ γ
  pt : PageTable
  phys : Phys

/-- The local variables `wtime` and `rtime` of `sys_waitx`. -/
structure Locals where
  wtime : BitVec 32
  rtime : BitVec 32

/-- The times of a process, as `waitx` returns them. -/
def times (q : Sched.Proc σ) : Locals := ⟨q.etime - q.ctime - q.rtime, q.rtime⟩

/-- The bytes of an `int` or `uint` in memory. -/
def intBytes (x : BitVec 32) (i : ℕ) : UInt8 := .ofBitVec ((x >>> (8 * i)).setWidth 8)

/-- The first child of `p` that has exited. -/
def exited (p : Slot) (t : Sched.Table σ γ) : Option Slot :=
  Sched.slots.find? fun np => (t.proc np).parent = some p ∧ (t.proc np).state = .zombie

section Code

variable (B : Policy σ γ ε) (kend : ℕ)

/-- `waitx` by `p`: the result, or `none` for `sleep`, and what is left in the locals of the caller.
`l` is what is in them before. -/
def waitx (p : Slot) (addr : ℕ) (l : Locals) (s : Caller σ γ) :
    Except Panic (Option (BitVec 32) × Locals × Caller σ γ) :=
  match exited p s.table with
  | some np => do
    let q := s.table.proc np
    let l := times q
    if addr ≠ 0 then
      let (ok, pt, phys) ← copyout kend s.pt addr (intBytes q.xstate) 4 s.phys
      if ok then return (some q.pid, l, ⟨Sched.freeproc B np s.table, pt, phys⟩)
      else return (some (-1), l, { s with pt, phys })
    else return (some q.pid, l, { s with table := Sched.freeproc B np s.table })
  | none =>
    if (∀ np, (s.table.proc np).parent ≠ some p) ∨ (s.table.proc p).killed then
      return (some (-1), l, s)
    else return (none, l, s)

/-- `sys_waitx` by `p`: the result, or `none` for `sleep`. -/
def sysWaitx (p : Slot) (addr addr1 addr2 : ℕ) (l : Locals) (s : Caller σ γ) :
    Except Panic (Option (BitVec 32) × Caller σ γ) := do
  let (ret, l, s) ← waitx B kend p addr l s
  match ret with
  | none => return (none, s)
  | some ret =>
    let (ok, pt, phys) ← copyout kend s.pt addr1 (intBytes l.wtime) 4 s.phys
    if ok = false then return (some (-1), { s with pt, phys })
    else
      let (ok, pt, phys) ← copyout kend pt addr2 (intBytes l.rtime) 4 phys
      if ok = false then return (some (-1), { s with pt, phys })
      else return (some ret, { s with pt, phys })

end Code

/-! ## A table and a memory -/

/-- The process in slot 0 runs; in slot 1 is a child of it that has exited with the status 7, if
`child` says so. -/
def smallTable (child : Bool) : Sched.Table Sched.Level Unit :=
  let t := (Sched.Table.boot .zero ()).put 0
    ⟨.running, none, false, 0, 1, none, 0, 0, 0, .zero⟩
  if child then t.put 1 ⟨.zombie, none, false, 7, 2, some 0, 3, 10, 20, .zero⟩ else t

/-- A page table with the page-table pages for the first virtual pages, and none of them mapped. -/
def emptySpace : PageTable :=
  ⟨1, (Table.zero 2).setEntry 0 (some (2, (Table.zero 1).setEntry 0 (some (3, Table.zero 0))))⟩

/-- The first virtual page is mapped to the frame 8, for the user to read and write. -/
def onePage : PageTable :=
  emptySpace.setPte 0 (pa2pte (8 * pgSize) ||| pteU ||| pteR ||| pteW ||| pteV)

def zeroPhys : Phys := ⟨[], fun _ => 1, fun _ _ => 0⟩

section Results

variable {B : Policy σ γ ε} {kend n : ℕ} {K U : ℕ → ℕ} {p : Slot} {addr addr1 addr2 : ℕ}
  {l l' : Locals} {s s1 s' : Caller σ γ} {ret r : Option (BitVec 32)} {pt pt' : PageTable}
  {m m' : Phys} {c : UInt8}

/-- The byte that the user finds at an address. -/
def byteAt (pt : PageTable) (m : Phys) (x : ℕ) : Option UInt8 :=
  (userView m.mem pt.leaf (x / pgSize)).map fun page => page.bytes ⟨x % pgSize, mod_pgSize_lt x⟩

/-- An `int` can be copied out to an address: the user can access the page of its first byte and the
page of its last. -/
def FitsInt (pt : PageTable) (a : ℕ) : Prop :=
  UserPage (pt.leaf (a / pgSize)) ∧ UserPage (pt.leaf ((a + 3) / pgSize))

instance (pt : PageTable) (a : ℕ) : Decidable (FitsInt pt a) := inferInstanceAs (Decidable (_ ∧ _))

/-- The caller has children, none of which has exited, and waits for them. -/
def Waits (p : Slot) (t : Sched.Table σ γ) : Prop :=
  ¬((∀ np, (t.proc np).parent ≠ some p) ∨ (t.proc p).killed = true)

/-- A call that does not fail with an effect. If a child is freed, then all is copied out and the
result is its process number; if its status cannot be copied out, or if there is no child to wait
for, then nothing is written at all. -/
def Harmless (p : Slot) (addr addr1 addr2 : ℕ) (s : Caller σ γ) : Prop :=
  match exited p s.table with
  | some np =>
    if addr = 0 ∨ FitsInt s.pt addr then
      (FitsInt s.pt addr1 ∧ FitsInt s.pt addr2) ∧ (s.table.proc np).pid ≠ -1
    else ¬UserPage (s.pt.leaf (addr / pgSize)) ∧ ¬UserPage (s.pt.leaf (addr1 / pgSize))
  | none => Waits p s.table ∨ ¬UserPage (s.pt.leaf (addr1 / pgSize))

def Caller.filled (s : Caller σ γ) (mem : ℕ → Page) : Caller σ γ :=
  { s with phys := { s.phys with mem } }

structure Good (kend : ℕ) (K U : ℕ → ℕ) (n : ℕ) (pt : PageTable) (m : Phys) : Prop where
  ok : SpaceOk kend K U pt m
  top : KernelTop pt
  shaped : pt.Shaped n

/-- None of the bytes of the word is `c`. -/
abbrev Avoids (c : UInt8) (x : BitVec 32) : Prop := ∀ i < 4, intBytes x i ≠ c

/-- Some byte of the user is not `c`. -/
def Differs (c : UInt8) (pt : PageTable) (m : Phys) : Prop := ∃ x b, byteAt pt m x = some b ∧ b ≠ c

theorem not_differs_const : ¬Differs c pt { m with mem := fun _ _ => c } := by
  rintro ⟨x, b, hb, hne⟩
  obtain ⟨page, hpage, rfl⟩ := Option.map_eq_some_iff.mp hb
  rw [userView] at hpage
  split_ifs at hpage
  rw [Pte.view] at hpage
  split_ifs at hpage
  cases hpage
  exact hne rfl

/-- There are more bytes than those of three words. -/
theorem exists_byte_ne (x y z : BitVec 32) :
    ∃ c, Avoids c x ∧ Avoids c y ∧ Avoids c z := by
  have hcard : ((Finset.range 4).biUnion fun i =>
      {(intBytes x i).toNat, (intBytes y i).toNat, (intBytes z i).toNat}).card <
        (Finset.range 256).card :=
    (card_biUnion_le_card_mul _ _ 3 fun i _ => card_le_three).trans_lt (by simp)
  obtain ⟨e, he, hne⟩ := exists_mem_notMem_of_card_lt_card hcard
  have hmod : (UInt8.ofNat e).toNat = e := Nat.mod_eq_of_lt (mem_range.mp he)
  simp only [mem_biUnion, mem_range, mem_insert, mem_singleton, not_exists, not_and, not_or] at hne
  exact ⟨UInt8.ofNat e, fun i hi h => (hne i hi).1 (h ▸ hmod.symm),
    fun i hi h => (hne i hi).2.1 (h ▸ hmod.symm), fun i hi h => (hne i hi).2.2 (h ▸ hmod.symm)⟩

/-- `copyout` of an `int` to a page that the user cannot access fails at once. -/
theorem copyout_int_of_not (pt : PageTable) (m : Phys) (x : BitVec 32) {a : ℕ}
    (h : ¬UserPage (pt.leaf (a / pgSize))) :
    copyout kend pt a (intBytes x) 4 m = .ok (false, pt, m) := by
  rw [copyout, copyoutLoop, if_neg (by omega), walkaddr_eq, if_neg h, if_pos rfl]

/-- **`copyout` of an `int`** that returns: it succeeds if the `int` fits, it leaves the pages of
the user where they are, and it writes the first byte if the user can access its page. -/
theorem copyout_int {a : ℕ} {x : BitVec 32} {ok : Bool} (hk : 0 < kend) (hg : Good kend K U n pt m)
    (hrun : copyout kend pt a (intBytes x) 4 m = .ok (ok, pt', m')) :
    (ok = true ↔ FitsInt pt a) ∧ Good kend K U n pt' m' ∧
      (∀ v, UserPage (pt'.leaf v) ↔ UserPage (pt.leaf v)) ∧
      ∀ c, Avoids c x → Differs c pt m ∨ UserPage (pt.leaf (a / pgSize)) → Differs c pt' m' := by
  obtain ⟨-, k, hc⟩ := (copyoutLoop_exact hk 4 le_rfl hg.ok hg.top).of_ok hrun
  have hle := hc.le
  have hview := hc.view (.inl ⟨n, hg.shaped⟩)
  refine ⟨⟨fun h => ?_, fun hf => ?_⟩, ⟨hc.move.ok, hg.top.move hc.move, hc.shape n hg.shaped⟩,
    hc.users, fun c hx hd => ?_⟩
  · have h4 := hc.done h
    exact ⟨hc.user _ (mem_rangePages le_rfl (by omega)),
      hc.user _ (mem_rangePages (Nat.le_add_right a 3) (by omega))⟩
  · by_contra hfail
    obtain ⟨hlt, hnot, -⟩ := hc.stop (Bool.not_eq_true _ ▸ hfail)
    have hpage : (a + k) / pgSize = a / pgSize ∨ (a + k) / pgSize = (a + 3) / pgSize := by
      simp only [pgSize]
      omega
    rcases hpage with he | he
    · exact hnot (he ▸ hf.1)
    · exact hnot (he ▸ hf.2)
  · -- a byte that is overwritten is not `c` afterwards either
    have hkept : ∀ y b, byteAt pt m y = some b → (¬(a ≤ y ∧ y < a + k) → b ≠ c) →
        Differs c pt' m' := by
      intro y b hb hne
      by_cases hin : a ≤ y ∧ y < a + k
      · obtain ⟨page, hpage, -⟩ := Option.map_eq_some_iff.mp hb
        refine ⟨y, intBytes x (y - a), ?_, hx _ (by omega)⟩
        rw [byteAt, hview, writeView_byte_of_mem hin, hpage]
        rfl
      · refine ⟨y, b, ?_, hne hin⟩
        rw [byteAt, hview, writeView_byte_of_not_mem hin]
        exact hb
    rcases hd with ⟨y, b, hb, hne⟩ | hu
    · exact hkept y b hb fun _ => hne
    · have hk0 : 0 < k := by
        by_contra h0
        obtain rfl : k = 0 := by omega
        cases ok with
        | true => exact absurd (hc.done rfl) (by decide)
        | false => exact (hc.stop rfl).2.1 hu
      have hb : byteAt pt m a =
          some (m.mem (pt.leaf (a / pgSize)).frame ⟨a % pgSize, mod_pgSize_lt a⟩) := by
        rw [byteAt, userView_of_lt (hu.lt hg.top), Pte.view, if_pos hu.1]
        rfl
      exact hkept a _ hb fun hout => absurd ⟨le_rfl, by omega⟩ hout

theorem fitsInt_congr {a : ℕ} (h : ∀ v, UserPage (pt'.leaf v) ↔ UserPage (pt.leaf v)) :
    FitsInt pt' a ↔ FitsInt pt a :=
  and_congr (h _) (h _)

section Return

variable (hk : 0 < kend) (h : sysWaitx B kend p addr addr1 addr2 l s = .ok (r, s'))

include hk h

/-- The two copies that follow `waitx`. -/
theorem sysWaitx_tail {ret : BitVec 32} (hw : waitx B kend p addr l s = .ok (some ret, l', s1))
    (hg : Good kend K U n s1.pt s1.phys) :
    r = some (if FitsInt s1.pt addr1 ∧ FitsInt s1.pt addr2 then ret else -1) ∧
      s'.table = s1.table ∧ (¬UserPage (s1.pt.leaf (addr1 / pgSize)) → s' = s1) ∧
      ∀ c, Avoids c l'.wtime → Avoids c l'.rtime →
        Differs c s1.pt s1.phys ∨ UserPage (s1.pt.leaf (addr1 / pgSize)) →
          Differs c s'.pt s'.phys := by
  obtain ⟨_, hw', h⟩ := Except.bind_eq_ok_iff.mp h
  cases hw.symm.trans hw'
  obtain ⟨⟨ok, pt, m⟩, h1, h⟩ := Except.bind_eq_ok_iff.mp h
  obtain ⟨hok1, hg1, husers, hd1⟩ := copyout_int hk hg h1
  dsimp only at h
  cases ok with
  | false =>
    cases h
    refine ⟨?_, rfl, fun hnot => ?_, fun c hw _ hd => hd1 c hw hd⟩
    · rw [if_neg fun hf => by simpa using hok1.mpr hf.1]
    · rw [copyout_int_of_not _ _ _ hnot] at h1
      cases h1
      rfl
  | true =>
    obtain ⟨⟨ok, pt2, m2⟩, h2, h⟩ := Except.bind_eq_ok_iff.mp h
    obtain ⟨hok2, -, -, hd2⟩ := copyout_int hk hg1 h2
    have hres : r = some (if ok = true then ret else -1) ∧
        s' = { s1 with pt := pt2, phys := m2 } := by
      cases ok <;> cases h <;> exact ⟨rfl, rfl⟩
    obtain ⟨rfl, rfl⟩ := hres
    refine ⟨?_, rfl, fun hnot => absurd (hok1.mp rfl).1 hnot,
      fun c hw hr hd => hd2 c hr (.inl (hd1 c hw hd))⟩
    simp only [hok2, fitsInt_congr husers, hok1.mp rfl, true_and]

/-- A call that finds a child that has exited frees it if the status can be copied out. -/
theorem sysWaitx_exited {np : Slot} (hg : Good kend K U n s.pt s.phys)
    (hex : exited p s.table = some np) :
    (addr = 0 ∨ FitsInt s.pt addr →
      r = some (if FitsInt s.pt addr1 ∧ FitsInt s.pt addr2 then (s.table.proc np).pid else -1) ∧
        s'.table = Sched.freeproc B np s.table) ∧
    (¬(addr = 0 ∨ FitsInt s.pt addr) → r = some (-1) ∧
      (¬UserPage (s.pt.leaf (addr / pgSize)) → ¬UserPage (s.pt.leaf (addr1 / pgSize)) → s' = s) ∧
      ∀ c, Avoids c (s.table.proc np).xstate → Avoids c (times (s.table.proc np)).wtime →
        Avoids c (times (s.table.proc np)).rtime →
        UserPage (s.pt.leaf (addr / pgSize)) ∨ UserPage (s.pt.leaf (addr1 / pgSize)) →
          Differs c s'.pt s'.phys) := by
  obtain ⟨⟨ret, l', s1⟩, hw, -⟩ := Except.bind_eq_ok_iff.mp h
  have hw' := hw
  rw [waitx, hex] at hw'
  dsimp only at hw'
  by_cases h0 : addr = 0
  · rw [if_neg (not_not.mpr h0)] at hw'
    cases hw'
    obtain ⟨hr, htable, -⟩ := sysWaitx_tail hk h hw hg
    exact ⟨fun _ => ⟨hr, htable⟩, fun hno => absurd (.inl h0) hno⟩
  · rw [if_pos h0] at hw'
    obtain ⟨⟨ok, pt, m⟩, hc, hw'⟩ := Except.bind_eq_ok_iff.mp hw'
    obtain ⟨hok, hg', husers, hd⟩ := copyout_int hk hg hc
    cases ok with
    | true =>
      cases hw'
      obtain ⟨hr, htable, -⟩ := sysWaitx_tail hk h hw hg'
      refine ⟨fun _ => ⟨?_, htable⟩, fun hno => absurd (.inr (hok.mp rfl)) hno⟩
      rw [hr]
      simp only [fitsInt_congr husers]
    | false =>
      cases hw'
      obtain ⟨hr, -, heq, hd'⟩ := sysWaitx_tail hk h hw hg'
      rw [ite_self] at hr
      refine ⟨fun hor => by simpa using hok.mpr (hor.resolve_left h0), fun _ => ⟨hr, ?_, ?_⟩⟩
      · intro hu hu1
        rw [copyout_int_of_not _ _ _ hu] at hc
        cases hc
        exact heq hu1
      · rintro c hx hwt hrt (hu | hu)
        · exact hd' c hwt hrt (.inl (hd c hx (.inr hu)))
        · exact hd' c hwt hrt (.inr ((husers _).mpr hu))

/-- A call that finds none waits, or copies out what the variables hold. -/
theorem sysWaitx_none (hg : Good kend K U n s.pt s.phys) (hex : exited p s.table = none) :
    (Waits p s.table → r = none) ∧
    (¬Waits p s.table → r = some (-1) ∧ (¬UserPage (s.pt.leaf (addr1 / pgSize)) → s' = s) ∧
      ∀ c, Avoids c l.wtime → Avoids c l.rtime →
        UserPage (s.pt.leaf (addr1 / pgSize)) → Differs c s'.pt s'.phys) := by
  constructor
  · intro hwaits
    have hw : waitx B kend p addr l s = .ok (none, l, s) := by
      rw [waitx, hex]
      exact if_neg hwaits
    obtain ⟨_, hw', h⟩ := Except.bind_eq_ok_iff.mp h
    cases hw.symm.trans hw'
    cases h
    rfl
  · intro hno
    have hw : waitx B kend p addr l s = .ok (some (-1), l, s) := by
      rw [waitx, hex]
      exact if_pos (not_not.mp hno)
    obtain ⟨hr, -, heq, hd⟩ := sysWaitx_tail hk h hw hg
    rw [ite_self] at hr
    exact ⟨hr, heq, fun c hwt hrt hu => hd c hwt hrt (.inr hu)⟩

end Return

theorem exited_state {np : Slot} {t : Sched.Table σ γ} (h : exited p t = some np) :
    (t.proc np).state = .zombie := by
  have := List.find?_some h
  simp only [decide_eq_true_eq] at this
  exact this.2

/-- **A failing `waitx` has no effect exactly if it is harmless.** For every call that returns:
whatever the bytes in memory and the uninitialised local variables are, a result of `-1` leaves the
process table and every byte of the user as they were, if and only if a call that frees a child
copies all out, and a call that does not writes nothing. -/
theorem sysWaitx_unchanged (hk : 0 < kend) (hg : Good kend K U n s.pt s.phys)
    (hret : ∀ mem l, ∃ r s', sysWaitx B kend p addr addr1 addr2 l (s.filled mem) = .ok (r, s')) :
    (∀ mem l s', sysWaitx B kend p addr addr1 addr2 l (s.filled mem) = .ok (some (-1), s') →
      s'.table = s.table ∧
        ∀ x, byteAt s'.pt s'.phys x = byteAt s.pt (s.filled mem).phys x) ↔
      Harmless p addr addr1 addr2 s := by
  have hgood : ∀ mem, Good kend K U n (s.filled mem).pt (s.filled mem).phys := fun mem =>
    ⟨hg.ok.congr rfl rfl, hg.top, hg.shaped⟩
  have hsame : ∀ {c : UInt8} {s' : Caller σ γ}, Differs c s'.pt s'.phys →
      (∀ x, byteAt s'.pt s'.phys x = byteAt s.pt (s.filled fun _ _ => c).phys x) → False :=
    fun ⟨x, b, hb, hne⟩ hx => not_differs_const ⟨x, b, (hx x).symm.trans hb, hne⟩
  unfold Harmless
  cases hex : exited p s.table with
  | none =>
    dsimp only
    constructor
    · -- the bytes of the two variables are written
      intro h
      by_contra hno
      obtain ⟨hw, hu⟩ := not_or.mp hno
      obtain ⟨r, s', hrun⟩ := hret (fun _ _ => 1) ⟨0, 0⟩
      obtain ⟨rfl, -, hd⟩ := (sysWaitx_none hk hrun (hgood fun _ _ => 1) hex).2 hw
      exact hsame (hd 1 (by decide) (by decide) (not_not.mp hu)) (h _ _ _ hrun).2
    · intro hor mem l s' hrun
      obtain ⟨hwaits, hno⟩ := sysWaitx_none hk hrun (hgood mem) hex
      by_cases hw : Waits p s.table
      · cases hwaits hw
      · rw [(hno hw).2.1 (hor.resolve_left hw)]
        exact ⟨rfl, fun _ => rfl⟩
  | some np =>
    dsimp only
    by_cases hf : addr = 0 ∨ FitsInt s.pt addr
    · rw [if_pos hf]
      constructor
      · -- the child is gone, so the call must not fail
        intro h
        by_contra hno
        obtain ⟨r, s', hrun⟩ := hret s.phys.mem ⟨0, 0⟩
        obtain ⟨hr, htable⟩ := (sysWaitx_exited hk hrun (hgood _) hex).1 hf
        have hneg : r = some (-1) := by
          rw [hr]
          split_ifs with hfits
          · exact congrArg some (not_not.mp (not_and.mp hno hfits))
          · rfl
        subst hneg
        have hstate := exited_state hex
        rw [← (h _ _ _ hrun).1, htable] at hstate
        simp [Sched.freeproc, Sched.Table.put] at hstate
      · rintro ⟨hfits, hpid⟩ mem l s' hrun
        have hr := ((sysWaitx_exited hk hrun (hgood mem) hex).1 hf).1
        exact absurd ((Option.some.inj hr).trans (if_pos hfits)).symm hpid
    · rw [if_neg hf]
      constructor
      · -- bytes of the status or of the first time are written
        intro h
        by_contra hno
        obtain ⟨c, hx, hw, hr⟩ := exists_byte_ne (s.table.proc np).xstate
          (times (s.table.proc np)).wtime (times (s.table.proc np)).rtime
        obtain ⟨r, s', hrun⟩ := hret (fun _ _ => c) ⟨0, 0⟩
        obtain ⟨rfl, -, hd⟩ := (sysWaitx_exited hk hrun (hgood fun _ _ => c) hex).2 hf
        refine hsame (hd c hx hw hr ?_) (h _ _ _ hrun).2
        rwa [not_and_or, not_not, not_not] at hno
      · rintro ⟨hu, hu1⟩ mem l s' hrun
        rw [((sysWaitx_exited hk hrun (hgood mem) hex).2 hf).2.1 hu hu1]
        exact ⟨rfl, fun _ => rfl⟩

end Results

/-- The status of the child cannot be copied out, nor its waiting time: the child stays. -/
theorem sysWaitx_unchanged_child : ∃ (t : Machine (Fin 2)) (sp : Space),
    booted [] = .ok t ∧ t.sys.spaces 0 = some sp ∧ UserPage (sp.pt.leaf 0) ∧
    exited 0 (smallTable true) = some 1 ∧
    ∀ mem l, ∃ s', sysWaitx Sched.mlfq smallLayout.kend 0 8192 8192 16 l
      (Caller.filled ⟨smallTable true, sp.pt, t.sys.phys⟩ mem) = .ok (some (-1), s') ∧
        s'.table = smallTable true ∧
        ∀ x, byteAt s'.pt s'.phys x = byteAt sp.pt { t.sys.phys with mem } x := by
  obtain ⟨t, ht, sp, hsp, hu, hnot⟩ : ∃ t, booted [] = .ok t ∧
      ∃ sp ∈ t.sys.spaces 0, UserPage (sp.pt.leaf 0) ∧ ¬UserPage (sp.pt.leaf (8192 / pgSize)) :=
    Ensures.exists_ok (by decide +kernel)
  have hsound := sound_reachable (booted_reachable ht)
  have hex : exited 0 (smallTable true) = some 1 := by decide +kernel
  have hrun : ∀ mem l, sysWaitx Sched.mlfq smallLayout.kend 0 8192 8192 16 l
      (Caller.filled ⟨smallTable true, sp.pt, t.sys.phys⟩ mem) =
        .ok (some (-1), Caller.filled ⟨smallTable true, sp.pt, t.sys.phys⟩ mem) := by
    intro mem l
    rw [sysWaitx, waitx,
      show exited 0 (Caller.filled ⟨smallTable true, _, _⟩ mem).table = _ from hex]
    dsimp only [Caller.filled]
    rw [if_pos (by decide), copyout_int_of_not _ _ _ hnot]
    simp only [bind, Except.bind, pure, Except.pure, Bool.false_eq_true, if_false, if_true,
      copyout_int_of_not _ _ _ hnot]
  have hno : ¬(8192 = 0 ∨ FitsInt sp.pt 8192) := fun h => hnot (h.resolve_left (by decide)).1
  have hunchanged := (sysWaitx_unchanged (s := ⟨smallTable true, sp.pt, t.sys.phys⟩) (by decide)
    ⟨hsound.inv.spaceOk hsp, (hsound.inv.spaces 0 sp hsp).top, (hsound.shaped 0 sp hsp).user⟩
    fun mem l => ⟨_, _, hrun mem l⟩).mpr (by
      rw [Harmless, hex]
      dsimp only
      rw [if_neg hno]
      exact ⟨hnot, hnot⟩)
  exact ⟨t, sp, ht, hsp, hu, hex, fun mem l => ⟨_, hrun mem l, hunchanged mem l _ (hrun mem l)⟩⟩

/-- **Failing calls with an effect.** A call with a child that has exited and nowhere to write its
times fails, and the child is gone: no later call finds it. And a call without children fails, and
has written what the stack held into the memory of the caller. -/
theorem sysWaitx_failed_effects :
    (∃ s', sysWaitx Sched.mlfq 0 0 0 0 0 ⟨0, 0⟩ ⟨smallTable true, emptySpace, zeroPhys⟩ =
        .ok (some (-1), s') ∧
      exited 0 (smallTable true) = some 1 ∧ (s'.table.proc 1).state = .unused ∧
      exited 0 s'.table = none) ∧
    ∃ s', sysWaitx Sched.mlfq 0 0 0 16 32 ⟨0xdeadbeef, 0⟩ ⟨smallTable false, onePage, zeroPhys⟩ =
        .ok (some (-1), s') ∧
      zeroPhys.bytes 8 16 4 = [0, 0, 0, 0] ∧ s'.phys.bytes 8 16 4 = [0xef, 0xbe, 0xad, 0xde] := by
  constructor
  · have hrun : Ensures (sysWaitx Sched.mlfq 0 0 0 0 0 ⟨0, 0⟩
        ⟨smallTable true, emptySpace, zeroPhys⟩) (fun _ => False) fun r =>
        r.1 = some (-1) ∧ exited 0 (smallTable true) = some 1 ∧
          (r.2.table.proc 1).state = .unused ∧ exited 0 r.2.table = none := by
      decide +kernel
    obtain ⟨⟨_, s'⟩, hs', rfl, hfacts⟩ := hrun.exists_ok
    exact ⟨s', hs', hfacts⟩
  · have hrun : Ensures (sysWaitx Sched.mlfq 0 0 0 16 32 ⟨0xdeadbeef, 0⟩
        ⟨smallTable false, onePage, zeroPhys⟩) (fun _ => False) fun r =>
        r.1 = some (-1) ∧ zeroPhys.bytes 8 16 4 = [0, 0, 0, 0] ∧
          r.2.phys.bytes 8 16 4 = [0xef, 0xbe, 0xad, 0xde] := by
      decide +kernel
    obtain ⟨⟨_, s'⟩, hs', rfl, hfacts⟩ := hrun.exists_ok
    exact ⟨s', hs', hfacts⟩

end Xv6.Waitx
