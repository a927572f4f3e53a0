import Mathlib.Data.BitVec
import Mathlib.Tactic.SplitIfs

/-!
# Pages, addresses and page-table entries

The address arithmetic of `kernel/riscv.h` and `kernel/memlayout.h`. Addresses and sizes are
`uint64` values, modelled as natural numbers; where the C expression can wrap, the wrap is
written out. A page-aligned physical address is named by its page number, its frame. A
page-table entry is the 64-bit word of the hardware.
-/

namespace Xv6

open BitVec

/-- `PGSIZE`: bytes per page. -/
abbrev pgSize : ℕ := 4096

theorem mod_pgSize_lt (a : ℕ) : a % pgSize < pgSize := Nat.mod_lt a (by decide)

/-- `MAXVA`: one beyond the highest user virtual address. -/
abbrev maxVa : ℕ := 2 ^ (9 + 9 + 9 + 12 - 1)

/-- `PHYSTOP`: the end of the RAM the kernel uses. -/
abbrev physStop : ℕ := 0x80000000 + 128 * 1024 * 1024

/-- `TRAMPOLINE`: the highest page of every address space. -/
abbrev trampolineVa : ℕ := maxVa - pgSize

/-- `TRAPFRAME`: the page below the trampoline. -/
abbrev trapframeVa : ℕ := trampolineVa - pgSize

/-- `PGROUNDUP`, on 64-bit values. -/
def pgRoundUp (sz : ℕ) : ℕ := (sz + pgSize - 1) % 2 ^ 64 / pgSize * pgSize

def pgRoundDown (a : ℕ) : ℕ := a / pgSize * pgSize

/-- `PX(level, va)`: the 9-bit index into the page-table page of this level. -/
def px (level va : ℕ) : Fin 512 := ⟨va / 2 ^ (12 + 9 * level) % 512, Nat.mod_lt _ (by decide)⟩

abbrev Page := Fin pgSize → UInt8

abbrev Pte := BitVec 64

/-- `PTE_V`: valid. -/
def pteV : Pte := 1#64 <<< 0

/-- `PTE_R`: readable. -/
def pteR : Pte := 1#64 <<< 1

/-- `PTE_W`: writable. -/
def pteW : Pte := 1#64 <<< 2

/-- `PTE_X`: executable. -/
def pteX : Pte := 1#64 <<< 3

/-- `PTE_U`: user can access. -/
def pteU : Pte := 1#64 <<< 4

/-- `PTE_C`: copy on write, a bit the hardware leaves to software. -/
def pteC : Pte := 1#64 <<< 5

def pa2pte (pa : ℕ) : Pte := (BitVec.ofNat 64 pa >>> 12) <<< 10

def pte2pa (p : Pte) : ℕ := ((p >>> 10) <<< 12).toNat

def pteFlags (p : Pte) : Pte := p &&& 0x3FF#64

/-- The C test `p & mask`. -/
def Pte.has (p mask : Pte) : Bool := p &&& mask != 0#64

/-- The page number of the physical page an entry refers to. -/
@[irreducible] def Pte.frame (p : Pte) : ℕ := pte2pa p / pgSize

/-- The flags of a page that `uvmcopy` shares: no longer writable, but copied on a write. -/
def Pte.share (p : Pte) : Pte := p &&& ~~~pteW ||| pteC

/-- The flags of a private copy of a copy-on-write page: writable again. -/
def Pte.unshare (p : Pte) : Pte := p &&& ~~~pteC ||| pteW

/-! ## Flags as bits

Each C test of a flag reads one bit of the entry, and only the bits from 10 on name the frame. -/

theorem has_shiftLeft (p : Pte) {i : ℕ} (hi : i < 64) : p.has (1#64 <<< i) = p.getLsbD i := by
  rw [Pte.has, ← twoPow_eq, and_twoPow]
  split_ifs with hb
  · have hne : twoPow 64 i ≠ 0#64 := fun h0 => by
      simpa [hi] using congrArg (fun x : BitVec 64 => x.getLsbD i) h0
    simpa [hb] using hne
  · simpa using hb

@[simp] theorem has_pteV (p : Pte) : p.has pteV = p.getLsbD 0 := has_shiftLeft p (by decide)

@[simp] theorem has_pteR (p : Pte) : p.has pteR = p.getLsbD 1 := has_shiftLeft p (by decide)

@[simp] theorem has_pteW (p : Pte) : p.has pteW = p.getLsbD 2 := has_shiftLeft p (by decide)

@[simp] theorem has_pteX (p : Pte) : p.has pteX = p.getLsbD 3 := has_shiftLeft p (by decide)

@[simp] theorem has_pteU (p : Pte) : p.has pteU = p.getLsbD 4 := has_shiftLeft p (by decide)

@[simp] theorem has_pteC (p : Pte) : p.has pteC = p.getLsbD 5 := has_shiftLeft p (by decide)

theorem getLsbD_one_shiftLeft {k : ℕ} (hk : k < 64) (i : ℕ) :
    (1#64 <<< k : BitVec 64).getLsbD i = decide (k = i) := by
  rw [← twoPow_eq, getLsbD_twoPow]
  simp [hk]

@[simp] theorem getLsbD_pteV (i : ℕ) : pteV.getLsbD i = decide (0 = i) :=
  getLsbD_one_shiftLeft (by decide) i

@[simp] theorem getLsbD_pteR (i : ℕ) : pteR.getLsbD i = decide (1 = i) :=
  getLsbD_one_shiftLeft (by decide) i

@[simp] theorem getLsbD_pteW (i : ℕ) : pteW.getLsbD i = decide (2 = i) :=
  getLsbD_one_shiftLeft (by decide) i

@[simp] theorem getLsbD_pteX (i : ℕ) : pteX.getLsbD i = decide (3 = i) :=
  getLsbD_one_shiftLeft (by decide) i

@[simp] theorem getLsbD_pteU (i : ℕ) : pteU.getLsbD i = decide (4 = i) :=
  getLsbD_one_shiftLeft (by decide) i

@[simp] theorem getLsbD_pteC (i : ℕ) : pteC.getLsbD i = decide (5 = i) :=
  getLsbD_one_shiftLeft (by decide) i

@[simp] theorem getLsbD_pteFlags (p : Pte) (i : ℕ) :
    (pteFlags p).getLsbD i = (p.getLsbD i && decide (i < 10)) := by
  have h : (0x3FF#64 : BitVec 64).getLsbD i = decide (i < 10) := by
    rw [getLsbD_ofNat, show (0x3FF : ℕ) = 2 ^ 10 - 1 from rfl, Nat.testBit_two_pow_sub_one]
    by_cases hi : i < 10
    · simp [hi, show i < 64 by omega]
    · simp [hi]
  rw [pteFlags, getLsbD_and, h]

theorem getLsbD_share (p : Pte) (i : ℕ) :
    p.share.getLsbD i = (p.getLsbD i && !decide (2 = i) || decide (5 = i)) := by
  rw [Pte.share, getLsbD_or, getLsbD_and, getLsbD_not, getLsbD_pteW, getLsbD_pteC]
  by_cases hi : i < 64
  · simp [hi]
  · simp [getLsbD_of_ge p i (by omega)]

theorem getLsbD_unshare (p : Pte) (i : ℕ) :
    p.unshare.getLsbD i = (p.getLsbD i && !decide (5 = i) || decide (2 = i)) := by
  rw [Pte.unshare, getLsbD_or, getLsbD_and, getLsbD_not, getLsbD_pteW, getLsbD_pteC]
  by_cases hi : i < 64
  · simp [hi]
  · simp [getLsbD_of_ge p i (by omega)]

def IsFlags (fl : Pte) : Prop := ∀ i, 10 ≤ i → fl.getLsbD i = false

theorem isFlags_pteFlags (p : Pte) : IsFlags (pteFlags p) := fun i hi => by
  simp [show ¬ i < 10 by omega]

theorem IsFlags.or {a b : Pte} (ha : IsFlags a) (hb : IsFlags b) : IsFlags (a ||| b) :=
  fun i hi => by simp [ha i hi, hb i hi]

theorem IsFlags.share {p : Pte} (hp : IsFlags p) : IsFlags p.share := fun i hi => by
  simp [getLsbD_share, hp i hi, show ¬ 5 = i by omega]

theorem IsFlags.unshare {p : Pte} (hp : IsFlags p) : IsFlags p.unshare := fun i hi => by
  simp [getLsbD_unshare, hp i hi, show ¬ 2 = i by omega]

theorem isFlags_pteV : IsFlags pteV := fun i hi => by simp [show ¬ 0 = i by omega]

theorem isFlags_pteR : IsFlags pteR := fun i hi => by simp [show ¬ 1 = i by omega]

theorem isFlags_pteW : IsFlags pteW := fun i hi => by simp [show ¬ 2 = i by omega]

theorem isFlags_pteX : IsFlags pteX := fun i hi => by simp [show ¬ 3 = i by omega]

theorem isFlags_pteU : IsFlags pteU := fun i hi => by simp [show ¬ 4 = i by omega]

/-! ## Frames -/

theorem frame_eq (p : Pte) : p.frame = p.toNat / 2 ^ 10 % 2 ^ 52 := by
  simp only [Pte.frame, pte2pa, toNat_shiftLeft, toNat_ushiftRight,
    Nat.shiftLeft_eq, Nat.shiftRight_eq_div_pow, pgSize]
  omega

theorem pte2pa_eq (p : Pte) : pte2pa p = p.frame * pgSize := by
  rw [frame_eq]
  simp only [pte2pa, toNat_shiftLeft, toNat_ushiftRight, Nat.shiftLeft_eq,
    Nat.shiftRight_eq_div_pow, pgSize]
  omega

theorem frame_congr {p q : Pte} (h : ∀ i, 10 ≤ i → p.getLsbD i = q.getLsbD i) :
    p.frame = q.frame := by
  have hs : p >>> 10 = q >>> 10 := eq_of_getLsbD_eq fun i _ => by
    simpa using h (10 + i) (by omega)
  have hn := congrArg BitVec.toNat hs
  simp only [toNat_ushiftRight, Nat.shiftRight_eq_div_pow] at hn
  rw [frame_eq, frame_eq, hn]

theorem getLsbD_pa2pte_or (pa : ℕ) (fl : Pte) {i : ℕ} (hi : i < 10) :
    (pa2pte pa ||| fl).getLsbD i = fl.getLsbD i := by
  simp [pa2pte, hi]

/-- **Decoding**: an entry built from a page address and flags refers to that page. -/
theorem frame_pa2pte_or {f : ℕ} (hf : f < 2 ^ 52) {fl : Pte} (hfl : IsFlags fl) :
    (pa2pte (f * pgSize) ||| fl).frame = f := by
  have h : (pa2pte (f * pgSize) ||| fl).frame = (pa2pte (f * pgSize)).frame :=
    frame_congr fun i hi => by simp [hfl i hi]
  rw [h, frame_eq]
  simp only [pa2pte, toNat_shiftLeft, toNat_ushiftRight, toNat_ofNat,
    Nat.shiftLeft_eq, Nat.shiftRight_eq_div_pow, pgSize]
  omega

theorem frame_lt (p : Pte) : p.frame < 2 ^ 52 := by
  rw [frame_eq]
  exact Nat.mod_lt _ (by decide)

end Xv6
