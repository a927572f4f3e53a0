import Xv6.Exec.Call
import Xv6.Mem.Procs

/-!
# `exec` by a process of the system

What `exec` means for the process that calls it and for all others. A failed `exec` leaves no trace:
every page of every process has its contents, every page has its count, and the same pages are free.
A successful one gives up exactly the references of the old image, and starts the program on a stack
from which `main` can read its arguments.
-/

namespace Xv6

open List Option

/-! ### All or nothing -/

section Process

variable {ι : Type} [DecidableEq ι]

/-- The system, when the process `i` has come back from a call. -/
def Sys.after (s : Sys ι) (i : ι) (k : Caller) : Sys ι := s.put i (some k.space) k.phys

variable [Fintype ι]

/-- Nothing has happened: the process is as before, and so are the contents of all pages in use, the
counts of all pages and the free pages. -/
structure ExecUndone (L : Layout) (s : Sys ι) (i : ι) (k k' : Caller) : Prop where
  space : k'.space = k.space
  tf : k'.tf = k.tf
  name : k'.name = k.name
  view : (s.after i k').view = s.view
  kernel : ∀ f, s.kernelRefs f ≠ 0 → k'.phys.mem f = s.phys.mem f
  counts : ∀ f, InRam L.kend f → k'.phys.pgrc f = s.phys.pgrc f
  free : k'.phys.freelist.Perm s.phys.freelist

/-- The process has a new image instead of the old one: the system is in good order, nobody else
notices, and every page has lost the references of the old image and got those of the new one. -/
structure ExecReplaced (L : Layout) (s : Sys ι) (i : ι) (k k' : Caller) : Prop where
  inv : Inv L (s.after i k')
  shaped : (s.after i k').Shaped
  view : ∀ j ≠ i, (s.after i k').view j = s.view j
  kernel : ∀ f, (s.without i).kernelRefs f ≠ 0 → k'.phys.mem f = s.phys.mem f
  counts : ∀ f, InRam L.kend f →
    k'.phys.pgrc f + (k.space.pt.tables f + leafRefs k.space.pt.leaf f : ℕ) =
      s.phys.pgrc f + (k'.space.pt.tables f + leafRefs k'.space.pt.leaf f : ℕ)
  own : ∀ f, (s.without i).userRefs f ≠ 0 → leafRefs k'.space.pt.leaf f = 0

variable {L : Layout} {s : Sys ι} {i : ι} {k k' : Caller}

theorem Caller.Unchanged.undone (h : Inv L s) (hi : s.spaces i = some k.space)
    (hm : k.phys = s.phys)
    (hu : Unchanged L.kend (s.without i).kernelRefs (s.without i).userRefs k k') :
    ExecUndone L s i k k' := by
  have hK := Sys.kernelRefs_eq hi
  have hU := Sys.userRefs_eq hi
  have hkeep : ∀ f, s.kernelRefs f + s.userRefs f ≠ 0 → k'.phys.mem f = s.phys.mem f := by
    rw [hK, hU, ← hm]
    exact hu.keep
  have hcounted : Counted L.kend k'.phys (s.kernelRefs + s.userRefs) := by
    rw [hK, hU]
    exact hu.ok.acct.counted
  have hview : userView k'.phys.mem k.space.pt.leaf = userView s.phys.mem k.space.pt.leaf := by
    refine userView_congr fun v hv hV => hkeep _ ?_
    have hmine := leafRefs_ne_zero hv hV
    rw [hU, Pi.add_apply]
    omega
  refine ⟨hu.space, hu.tf, hu.name, ?_, fun f hf => hkeep f (by omega), fun f hf => ?_, ?_⟩
  · have hothers : ∀ f, (s.without i).kernelRefs f + (s.without i).userRefs f ≠ 0 →
        k'.phys.mem f = s.phys.mem f := by
      intro f hf
      refine hkeep f ?_
      rw [hK, hU, Pi.add_apply, Pi.add_apply]
      omega
    rw [Sys.after, Inv.view_put hothers, hu.space, map_some, hview]
    refine Function.update_eq_self_iff.mpr ?_
    rw [Sys.view, hi]
    rfl
  · rw [hcounted.rc f hf, h.acct.counted.rc f hf]
  · refine (perm_ext_iff_of_nodup hcounted.nodup h.acct.counted.nodup).mpr fun f => ?_
    rw [hcounted.mem_freelist, h.acct.counted.mem_freelist]

theorem Caller.Started.replaced {argv : List (List UInt8)} (h : Inv L s) (hs : s.Shaped)
    (hi : s.spaces i = some k.space) (hm : k.phys = s.phys)
    (hst : Started L.kend (s.without i).kernelRefs (s.without i).userRefs argv k k') :
    ExecReplaced L s i k k' := by
  have himage : Building L.kend (s.without i).kernelRefs (s.without i).userRefs s.phys k'.space
      k'.phys := hm ▸ hst.image
  have hinv : Inv L (s.after i k') := h.replace himage.toImage
  refine ⟨hinv, hs.put himage.shape _, fun j hj => Inv.view_other hj himage.keep _,
    fun f hf => himage.keep f (by omega), fun f hf => ?_, himage.fresh⟩
  have hnew := himage.ok.acct.counted.rc f hf
  have hold := h.acct.counted.rc f hf
  rw [Sys.kernelRefs_eq hi, Sys.userRefs_eq hi] at hold
  simp only [Pi.add_apply] at hnew hold
  omega

/-- **All or nothing.** For every file and whatever the memory of the process holds, `sys_exec`
returns, and what it held of the file system is given up. If it fails nothing has happened; if it
succeeds the process has a new image, and the references of the old one are gone. -/
theorem sysExec_allOrNothing (h : Inv L s) (hs : s.Shaped) (hi : s.spaces i = some k.space)
    (hm : k.phys = s.phys) (hlocks : ∀ ip, k.use.locks ip = false)
    (lookup : List UInt8 → Option ℕ) (file : ℕ → Fs.File) (tf : ℕ) :
    ∃ r k', Caller.sysExec L lookup file tf k = .ok (r, k') ∧ k'.use = k.use ∧
      (r = -1 ∧ ExecUndone L s i k k' ∨ 0 ≤ r ∧ ExecReplaced L s i k k') := by
  have hk := L.kend_pos
  have hok := h.spaceOk hi
  rw [← hm] at hok
  obtain ⟨r, k', hrun, huse, hr⟩ := (Caller.sysExec_spec lookup file tf hk hok (hs i _ hi)
    (h.spaces i _ hi).sz_le hlocks).exists_ok
  refine ⟨r, k', hrun, huse, ?_⟩
  obtain ⟨rfl, hun⟩ | ⟨argv, -, rfl, hst⟩ := hr
  · exact Or.inl ⟨rfl, hun.undone h hi hm⟩
  · exact Or.inr ⟨Int.natCast_nonneg _, hst.replaced h hs hi hm⟩

end Process

section Demo

/-- A file with a program of one segment: the file itself, read-only, at address 0. -/
def smallElf : Fs.File :=
  let bytes : List UInt8 :=
    [0x7f, 0x45, 0x4c, 0x46, 0, 0, 0, 0, 0, 0, 0, 0, 0, 0, 0, 0,
     0, 0, 0, 0, 0, 0, 0, 0, 0, 0, 0, 0, 0, 0, 0, 0,
     0x40, 0, 0, 0, 0, 0, 0, 0, 0, 0, 0, 0, 0, 0, 0, 0,
     0, 0, 0, 0, 0x40, 0, 0x38, 0, 1, 0, 0, 0, 0, 0, 0, 0,
     1, 0, 0, 0, 5, 0, 0, 0, 0, 0, 0, 0, 0, 0, 0, 0,
     0, 0, 0, 0, 0, 0, 0, 0, 0, 0, 0, 0, 0, 0, 0, 0,
     0x78, 0, 0, 0, 0, 0, 0, 0, 0x78, 0, 0, 0, 0, 0, 0, 0,
     0, 0x10, 0, 0, 0, 0, 0, 0]
  ⟨.file, 0, 0, 1, bytes.length, fun j => bytes.getD j 0⟩

/-- The first process when it makes its first system call, `exec("/init", argv)`. -/
def initCaller (sp : Space) (m : Phys) : Caller :=
  ⟨sp, ⟨24, 0, 0x24, 0x2b⟩, [], ⟨0, fun _ => 0, fun _ => false⟩, m⟩

theorem sysExec_allOrNothing_init : ∃ (t : Machine (Fin 2)) (sp : Space) (k' : Caller),
    booted [] = .ok t ∧ t.sys.spaces 0 = some sp ∧
    Caller.sysExec smallLayout (fun _ => some 1) (fun _ => smallElf) 0x80000
      (initCaller sp t.sys.phys) = .ok (-1, k') ∧
    ExecUndone smallLayout t.sys 0 (initCaller sp t.sys.phys) k' := by
  obtain ⟨t, ht, sp, hsp, hrun⟩ : ∃ t, booted [] = .ok t ∧ ∃ sp ∈ t.sys.spaces 0,
      Ensures (Caller.sysExec smallLayout (fun _ => some 1) (fun _ => smallElf) 0x80000
        (initCaller sp t.sys.phys)) (fun _ => False) fun r => r.1 = -1 :=
    Ensures.exists_ok (by decide +kernel)
  have hsound := sound_reachable (booted_reachable ht)
  obtain ⟨r, k', hr, -, hdone⟩ := sysExec_allOrNothing (k := initCaller sp t.sys.phys) hsound.inv
    hsound.shaped hsp rfl (fun _ => rfl) (fun _ => some 1) (fun _ => smallElf) 0x80000
  obtain rfl : r = -1 := hrun.of_ok hr
  obtain ⟨-, hundone⟩ | ⟨hneg, -⟩ := hdone
  · exact ⟨t, sp, k', ht, hsp, hr, hundone⟩
  · exact absurd hneg (by decide)

end Demo

/-! ### The arguments of `main` -/

/-- The number in `k` bytes from the address `a` on, the lowest byte first. -/
def readBytes (byte : ℕ → Option UInt8) : (a k : ℕ) → Option ℕ
  | _, 0 => some 0
  | a, k + 1 => do
    let b ← byte a
    let n ← readBytes byte (a + 1) k
    return b.toNat + 256 * n

/-- The 64-bit number at the address `a`. -/
def readNumber (byte : ℕ → Option UInt8) (a : ℕ) : Option ℕ := readBytes byte a 8

/-- The string at the address `a`, if its end comes within `fuel` bytes. -/
def readString (byte : ℕ → Option UInt8) : (a fuel : ℕ) → Option (List UInt8)
  | _, 0 => none
  | a, fuel + 1 => do
    let b ← byte a
    if b = 0 then return []
    else
      let l ← readString byte (a + 1) fuel
      return b :: l

/-- **The arguments that `main` finds** at `sp`, in the page from `bot` to `top`: the array of the
addresses, with a zero at its end, and the strings at these addresses. Neither the array nor any of
the strings overlaps another of them. -/
structure MainArgs (byte : ℕ → Option UInt8) (bot top : ℕ) (argv : List (List UInt8)) (sp : ℕ) :
    Prop where
  bot_le : bot ≤ sp
  aligned : sp % 16 = 0
  arg : ∀ (i : ℕ) (arg : List UInt8), argv[i]? = some arg → ∃ a,
    readNumber byte (sp + 8 * i) = some a ∧ a % 16 = 0 ∧ sp + 8 * (argv.length + 1) ≤ a ∧
      a + (arg.length + 1) ≤ top ∧ readString byte a pgSize = some arg
  null : readNumber byte (sp + 8 * argv.length) = some 0
  apart : ∀ (i j : ℕ) (arg : List UInt8) (a b : ℕ), i < j → argv[j]? = some arg →
    readNumber byte (sp + 8 * i) = some a → readNumber byte (sp + 8 * j) = some b →
      b + (arg.length + 1) ≤ a
  array_le : sp + 8 * (argv.length + 1) ≤ top

section Read

variable {byte : ℕ → Option UInt8} {a n : ℕ}

theorem readBytes_of_bytes (k : ℕ) : ∀ {a n : ℕ},
    (∀ j < k, byte (a + j) = some (UInt8.ofNat (n / 2 ^ (8 * j)))) → n < 2 ^ (8 * k) →
    readBytes byte a k = some n := by
  induction k with
  | zero =>
    intro a n _ hn
    rw [readBytes, Nat.lt_one_iff.mp hn]
  | succ k ih =>
    intro a n hbyte hn
    have hfirst : byte a = some (UInt8.ofNat n) := by
      have := hbyte 0 (Nat.succ_pos k)
      rwa [Nat.add_zero, Nat.mul_zero, Nat.pow_zero, Nat.div_one] at this
    have hrest : ∀ j < k, byte (a + 1 + j) = some (UInt8.ofNat (n / 256 / 2 ^ (8 * j))) := by
      intro j hj
      rw [Nat.add_assoc, Nat.add_comm 1, hbyte (j + 1) (Nat.succ_lt_succ hj),
        Nat.div_div_eq_div_mul,
        Nat.mul_succ, Nat.add_comm, Nat.pow_add]
    have hlt : n / 256 < 2 ^ (8 * k) := by
      rw [Nat.mul_succ, pow_add] at hn
      rwa [Nat.div_lt_iff_lt_mul (by decide)]
    rw [readBytes, hfirst, ih hrest hlt, bind_eq_bind, bind_some, bind_eq_bind,
      bind_some, UInt8.toNat_ofNat', Nat.mod_add_div]
    rfl

theorem readNumber_of_holds (h : Holds byte a (le64 n)) (hn : n < 2 ^ 64) :
    readNumber byte a = some n := by
  refine readBytes_of_bytes 8 (fun j hj => h j _ ?_) hn
  rw [le64, List.getElem?_map, List.getElem?_range hj]
  rfl

theorem readString_of_holds {arg : List UInt8} : ∀ {a fuel : ℕ}, Holds byte a (arg ++ [0]) →
    0 ∉ arg → arg.length < fuel → readString byte a fuel = some arg := by
  induction arg with
  | nil =>
    intro a fuel h _ hfuel
    obtain ⟨fuel, rfl⟩ := Nat.exists_eq_succ_of_ne_zero (ne_of_gt hfuel)
    have h0 : byte a = some 0 := h 0 0 rfl
    rw [readString, h0]
    rfl
  | cons b arg ih =>
    intro a fuel h hnul hfuel
    obtain ⟨fuel, rfl⟩ := Nat.exists_eq_succ_of_ne_zero (ne_of_gt (Nat.zero_lt_of_lt hfuel))
    have h0 : byte a = some b := h 0 b rfl
    have hb : b ≠ 0 := fun hb => hnul (hb ▸ mem_cons_self)
    have hrest : Holds byte (a + 1) (arg ++ [0]) := fun k c hc => by
      rw [add_assoc, add_comm 1]
      exact h (k + 1) c hc
    rw [readString, h0, bind_eq_bind, bind_some, if_neg hb,
      ih hrest (fun hmem => hnul (mem_cons_of_mem _ hmem)) (Nat.lt_of_succ_lt_succ hfuel)]
    rfl

theorem ArgStack.mainArgs {bot top sp : ℕ} {argv : List (List UInt8)} {addrs : List ℕ}
    (h : ArgStack byte bot top argv addrs sp) (hpage : top ≤ bot + pgSize) (htop : top < 2 ^ 64)
    (hnul : ∀ arg ∈ argv, 0 ∉ arg) :
    MainArgs byte bot top argv sp := by
  -- the address of every argument
  have haddr : ∀ (i : ℕ) (arg : List UInt8), argv[i]? = some arg → ∃ a, addrs[i]? = some a := by
    intro i arg hi
    have hlt := (List.getElem?_eq_some_iff.mp hi).1
    rw [← h.strings.length] at hlt
    exact ⟨_, List.getElem?_eq_getElem hlt⟩
  have hread : ∀ (i : ℕ) (arg : List UInt8) (a : ℕ), argv[i]? = some arg → addrs[i]? = some a →
      readNumber byte (sp + 8 * i) = some a := by
    intro i arg a hi ha
    have hin := h.strings.within i arg a hi ha
    exact readNumber_of_holds (h.pointer i a ha) (by omega)
  refine ⟨h.bot_le, h.aligned, fun i arg hi => ?_, readNumber_of_holds h.null (by decide),
    fun i j arg a b hij hj ha hb => ?_, h.array_le⟩
  · obtain ⟨a, ha⟩ := haddr i arg hi
    have hin := h.strings.within i arg a hi ha
    have hlow := h.bot_le
    exact ⟨a, hread i arg a hi ha, h.strings.aligned a (mem_of_getElem? ha), hin.1, hin.2,
      readString_of_holds (h.strings.string i arg a hi ha) (hnul arg (mem_of_getElem? hi))
        (by omega)⟩
  · obtain ⟨b', hb'⟩ := haddr j arg hj
    obtain ⟨arg', hi⟩ : ∃ arg', argv[i]? = some arg' :=
      ⟨_, List.getElem?_eq_getElem (hij.trans (List.getElem?_eq_some_iff.mp hj).1)⟩
    obtain ⟨a', ha'⟩ := haddr i arg' hi
    rw [hread i arg' a' hi ha'] at ha
    rw [hread j arg b' hj hb'] at hb
    cases ha
    cases hb
    exact h.strings.apart i j arg a b hij hj ha' hb'

end Read

section Process

variable {ι : Type} [Fintype ι] [DecidableEq ι] {L : Layout} {s : Sys ι} {i : ι} {k : Caller}

/-- **The arguments of a program.** For every list of at most `MAXARG - 1` strings, `exec` returns,
and it fails if the strings and the array of their addresses do not fit in a page. If it succeeds,
`main` starts with the number of arguments in `a0` and their array in `a1`, which is where its stack
begins, in the page above the guard page. -/
theorem exec_mainArgs {argv : List (List UInt8)} (h : Inv L s) (hs : s.Shaped)
    (hi : s.spaces i = some k.space) (hm : k.phys = s.phys)
    (hlocks : ∀ ip, k.use.locks ip = false) (hcount : argv.length ≤ maxArg - 1)
    (hargs : ∀ arg ∈ argv, 0 ∉ arg ∧ arg.length < 2 ^ 63) (lookup : List UInt8 → Option ℕ)
    (file : ℕ → Fs.File) (tf : ℕ) (path : List UInt8) :
    ∃ r k', Caller.exec L lookup file tf path argv k = .ok (r, k') ∧
      (pgSize < argsSize argv → r = -1) ∧
      (r ≠ -1 → ∃ u, Caller.syscall (Caller.exec L lookup file tf path argv) k = .ok ((), u) ∧
        u.tf.a0 = argv.length ∧ u.tf.a1 = u.tf.sp ∧
        ∃ g, u.space.sz = (g + 2) * pgSize ∧ ¬ UserPage (u.space.pt.leaf g) ∧
          UserPage (u.space.pt.leaf (g + 1)) ∧
          MainArgs (viewByte (userView u.phys.mem u.space.pt.leaf)) ((g + 1) * pgSize)
            ((g + 2) * pgSize) argv u.tf.sp) := by
  have hk := L.kend_pos
  have hok := h.spaceOk hi
  rw [← hm] at hok
  have hle : argv.length ≤ maxArg := hcount.trans (Nat.sub_le _ _)
  obtain ⟨r, k', hrun, -, hr⟩ := (Caller.exec_spec lookup file tf path hk hok (hs i _ hi)
    (h.spaces i _ hi).sz_le hlocks hle
    fun arg harg => (hargs arg harg).2).exists_ok
  refine ⟨r, k', hrun, fun hbig => ?_, fun hne => ?_⟩
  · obtain ⟨rfl, -⟩ | ⟨-, hst⟩ := hr
    · rfl
    · exact absurd hst.fits (not_le.mpr hbig)
  obtain ⟨rfl, -⟩ | ⟨rfl, hst⟩ := hr
  · exact absurd rfl hne
  have hcall : Caller.syscall (Caller.exec L lookup file tf path argv) k =
      .ok ((), { k' with tf := { k'.tf with a0 := ((argv.length : ℤ) % 2 ^ 64).toNat } }) :=
    Except.bind_eq_ok_iff.mpr ⟨_, hrun, rfl⟩
  have ha0 : ((argv.length : ℤ) % 2 ^ 64).toNat = argv.length := by
    simp only [maxArg] at hle
    omega
  -- the pages below the end of the image
  obtain ⟨n, hn⟩ := Nat.dvd_of_mod_eq_zero hst.whole
  obtain ⟨g, rfl⟩ : ∃ g, n = g + 2 := by
    refine ⟨n - 2, ?_⟩
    have := hst.room
    rw [hn, Nat.mul_comm 2] at this
    have := Nat.le_of_mul_le_mul_left this (by decide)
    omega
  rw [Nat.mul_comm] at hn
  have hbase : stackBase k'.space.sz = (g + 1) * pgSize := by
    unfold stackBase
    rw [hn]
    simp only [pgSize]
    omega
  have hguard : guardPage k'.space.sz = g * pgSize := by
    unfold guardPage
    rw [hn]
    simp only [pgSize]
    omega
  have hgp := hst.guard
  have hsp := hst.stack
  rw [hguard, Nat.mul_div_cancel _ (by decide)] at hgp
  rw [hbase, Nat.mul_div_cancel _ (by decide)] at hsp
  obtain ⟨addrs, haddrs⟩ := hst.args
  rw [hbase, hn] at haddrs
  refine ⟨_, hcall, ha0, hst.a1, g, hn, hgp, hsp, haddrs.mainArgs ?_ ?_ fun arg harg =>
    (hargs arg harg).1⟩
  · simp only [pgSize]
    omega
  · have hsz := hst.image.sz_le
    rw [hn] at hsz
    simp only [trapframeVa, trampolineVa, pgSize, maxVa] at hsz ⊢
    omega

end Process

/-- The first process runs the program `init` with its name as the argument: there are enough pages,
and the argument is found on its stack. -/
theorem exec_mainArgs_init : ∃ (t : Machine (Fin 2)) (sp : Space) (u : Caller),
    booted [] = .ok t ∧ t.sys.spaces 0 = some sp ∧
    Caller.syscall (Caller.exec smallLayout (fun _ => some 1) (fun _ => smallElf) 0x80000
      [0x2f, 0x69, 0x6e, 0x69, 0x74] [[0x69, 0x6e, 0x69, 0x74]]) (initCaller sp t.sys.phys) =
        .ok ((), u) ∧ u.tf.a0 = 1 ∧
    ∃ g, MainArgs (viewByte (userView u.phys.mem u.space.pt.leaf)) ((g + 1) * pgSize)
      ((g + 2) * pgSize) [[0x69, 0x6e, 0x69, 0x74]] u.tf.sp := by
  obtain ⟨t, ht, sp, hsp, hret⟩ : ∃ t, booted [] = .ok t ∧ ∃ sp ∈ t.sys.spaces 0,
      (Caller.exec smallLayout (fun _ => some 1) (fun _ => smallElf) 0x80000
        [0x2f, 0x69, 0x6e, 0x69, 0x74] [[0x69, 0x6e, 0x69, 0x74]]
        (initCaller sp t.sys.phys)).toOption.map Prod.fst ≠ some (-1) :=
    Ensures.exists_ok (by decide +kernel)
  have hsound := sound_reachable (booted_reachable ht)
  have hcount : [[(0x69 : UInt8), 0x6e, 0x69, 0x74]].length ≤ maxArg - 1 := by decide
  obtain ⟨r, k', hr, -, hdone⟩ := exec_mainArgs (k := initCaller sp t.sys.phys) hsound.inv
    hsound.shaped hsp rfl (fun _ => rfl) hcount (by decide) (fun _ => some 1)
    (fun _ => smallElf) 0x80000 [0x2f, 0x69, 0x6e, 0x69, 0x74]
  rw [hr] at hret
  obtain ⟨u, hcall, ha0, -, g, -, -, -, hargs⟩ := hdone fun h => hret (congrArg some h)
  exact ⟨t, sp, u, ht, hsp, hcall, ha0, g, hargs⟩

section Refinement

variable {ι : Type} [Fintype ι] [DecidableEq ι] {L : Layout} {s : Sys ι} {i : ι} {k : Caller}

/-- **The call refines the memory model.** For every process of the kernel, every program file and
at most `MAXARG - 1` arguments, `exec` with its locks and references returns, holds nothing more of
the file system, and leaves the memory as the memory model has it for the bytes of the file. -/
theorem exec_refines {argv : List (List UInt8)} {ip : ℕ} (h : Inv L s) (hs : s.Shaped)
    (hi : s.spaces i = some k.space) (hm : k.phys = s.phys) (hlocks : ∀ ip, k.use.locks ip = false)
    (hcount : argv.length ≤ maxArg - 1) (hlens : ∀ arg ∈ argv, arg.length < 2 ^ 63)
    (lookup : List UInt8 → Option ℕ) (path : List UInt8) (hip : lookup path = some ip)
    (file : ℕ → Fs.File) (tf : ℕ) :
    ∃ r k', Caller.exec L lookup file tf path argv k = .ok (r, k') ∧ k'.use = k.use ∧
      exec L.kend L.tramp (Program.ofFile (file ip)) tf argv k.space s.phys =
        .ok (decide (r ≠ -1), k'.space, k'.phys) := by
  have hk := L.kend_pos
  have hok := h.spaceOk hi
  rw [← hm] at hok ⊢
  obtain ⟨r, k', hrun, huse, -⟩ := (Caller.exec_spec lookup file tf path hk hok (hs i _ hi)
    (h.spaces i _ hi).sz_le hlocks (hcount.trans (Nat.sub_le ..)) hlens).exists_ok
  exact ⟨r, k', hrun, huse, (Caller.exec_memory hip).of_ok hrun⟩

end Refinement

theorem exec_refines_init : ∃ (t : Machine (Fin 2)) (sp : Space) (r : ℤ) (k' : Caller),
    booted [] = .ok t ∧ t.sys.spaces 0 = some sp ∧
    exec smallLayout.kend smallLayout.tramp (Program.ofFile smallElf) 0x80000 [[0x69]] sp
      t.sys.phys = .ok (decide (r ≠ -1), k'.space, k'.phys) := by
  obtain ⟨t, ht, hsome⟩ : ∃ t, booted [] = .ok t ∧ (t.sys.spaces 0).isSome :=
    Ensures.exists_ok (by decide +kernel)
  obtain ⟨sp, hsp⟩ := isSome_iff_exists.mp hsome
  have hsound := sound_reachable (booted_reachable ht)
  have hcount : [[(0x69 : UInt8)]].length ≤ maxArg - 1 := by decide
  obtain ⟨r, k', -, -, hexec⟩ := exec_refines (k := initCaller sp t.sys.phys) hsound.inv
    hsound.shaped hsp rfl (fun _ => rfl) hcount (by decide) (fun _ => some 1) [] rfl
    (fun _ => smallElf) 0x80000
  exact ⟨t, sp, r, k', ht, hsp, hexec⟩

end Xv6
