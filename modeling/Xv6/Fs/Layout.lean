import Mathlib.Data.List.GetD
import Xv6.Fs.Blocks

/-!
# The format on disk

`kernel/fs.h`, which the kernel and `mkfs` share: where the parts of an image are, and how an inode,
a directory entry and the free map are bytes of its blocks. All numbers are little-endian. A
`struct dinode` has sixteen 32-bit words: two with a pair of 16-bit numbers each, the size, and
thirteen addresses.
-/

namespace Xv6.Fs

open Function

/-- `IPB`, the number of inodes in a block. -/
abbrev ipb : ℕ := 16

/-- `BPB`, the number of bits of the free map in a block. -/
abbrev bpb : ℕ := 8192

abbrev dirsiz : ℕ := 14

abbrev direntSize : ℕ := 16

abbrev rootino : ℕ := 1

abbrev fsmagic : ℕ := 0x10203040

/-! ### Inodes -/

/-- `T_DIR`, `T_FILE`, `T_DEVICE`, and `0` for a free inode. -/
def FileType.code : FileType → ℕ
  | .free => 0
  | .dir => 1
  | .file => 2
  | .device => 3

/-- The type with a number; there is no other number on a disk. -/
def FileType.ofCode : ℕ → FileType
  | 1 => .dir
  | 2 => .file
  | 3 => .device
  | _ => .free

@[simp] theorem FileType.ofCode_code (t : FileType) : ofCode t.code = t := by cases t <;> rfl

theorem FileType.code_lt (t : FileType) : t.code < 2 ^ 16 := by cases t <;> decide

/-- The 32-bit words of a `struct dinode`. -/
def Dinode.word (ip : Dinode) : ℕ → ℕ
  | 0 => ip.type.code + 2 ^ 16 * ip.major.toUInt16.toNat
  | 1 => ip.minor.toUInt16.toNat + 2 ^ 16 * ip.nlink.toUInt16.toNat
  | 2 => ip.size
  | j + 3 => ip.addrs j

/-- The block after the inode `ip` has been stored as its `k`th. -/
def putDinode (x : Block) (k : ℕ) (ip : Dinode) : Block := fun o =>
  if o / 64 = k then UInt8.ofNat (ip.word (o % 64 / 4) / 256 ^ (o % 4)) else x o

/-- The `k`th inode of a block. -/
def dinodeAt (x : Block) (k : ℕ) : Dinode where
  type := .ofCode (uintAt x (16 * k) % 2 ^ 16)
  major := (UInt16.ofNat (uintAt x (16 * k) / 2 ^ 16)).toInt16
  minor := (UInt16.ofNat (uintAt x (16 * k + 1))).toInt16
  nlink := (UInt16.ofNat (uintAt x (16 * k + 1) / 2 ^ 16)).toInt16
  size := uintAt x (16 * k + 2)
  addrs j := if j ≤ ndirect then uintAt x (16 * k + 3 + j) else 0

/-- The numbers of the inode are 32-bit numbers, and it has no more of them than there are on
disk. -/
structure Dinode.Fits (ip : Dinode) : Prop where
  size_lt : ip.size < 2 ^ 32
  addrs_lt : ∀ j, ip.addrs j < 2 ^ 32
  addrs_eq : ∀ j, ndirect < j → ip.addrs j = 0

theorem uintAt_lt (x : Block) (j : ℕ) : uintAt x j < 2 ^ 32 := by
  have h0 := (x (4 * j)).toNat_lt
  have h1 := (x (4 * j + 1)).toNat_lt
  have h2 := (x (4 * j + 2)).toNat_lt
  have h3 := (x (4 * j + 3)).toNat_lt
  unfold uintAt
  omega

theorem dinodeAt_fits (x : Block) (k : ℕ) : (dinodeAt x k).Fits where
  size_lt := uintAt_lt x _
  addrs_lt j := by
    simp only [dinodeAt]
    split_ifs
    · exact uintAt_lt x _
    · decide
  addrs_eq j hj := if_neg (not_le.mpr hj)

theorem Dinode.Fits.word_lt {ip : Dinode} (h : ip.Fits) (w : ℕ) : ip.word w < 2 ^ 32 := by
  have hshort : ∀ a : Int16, a.toUInt16.toNat < 2 ^ 16 := fun a => a.toUInt16.toNat_lt
  match w with
  | 0 =>
    have h0 := ip.type.code_lt
    have h1 := hshort ip.major
    simp only [word]
    omega
  | 1 =>
    have h0 := hshort ip.minor
    have h1 := hshort ip.nlink
    simp only [word]
    omega
  | 2 => exact h.size_lt
  | j + 3 => exact h.addrs_lt j

theorem uintAt_putDinode_self (x : Block) (k : ℕ) {ip : Dinode} (h : ip.Fits) {w : ℕ}
    (hw : w < 16) : uintAt (putDinode x k ip) (16 * k + w) = ip.word w := by
  have hbyte : ∀ r < 4, putDinode x k ip (4 * (16 * k + w) + r) =
      UInt8.ofNat (ip.word w / 256 ^ r) := by
    intro r hr
    have h0 : (4 * (16 * k + w) + r) / 64 = k := by omega
    have h1 : (4 * (16 * k + w) + r) % 64 / 4 = w := by omega
    have h2 : (4 * (16 * k + w) + r) % 4 = r := by omega
    rw [putDinode, if_pos h0, h1, h2]
  have h0 := hbyte 0 (by decide)
  have h1 := hbyte 1 (by decide)
  have h2 := hbyte 2 (by decide)
  have h3 := hbyte 3 (by decide)
  have hlt := h.word_lt w
  rw [add_zero] at h0
  simp only [uintAt, h0, h1, h2, h3, UInt8.toNat_ofNat']
  omega

theorem uintAt_putDinode_of_ne (x : Block) {k j : ℕ} (ip : Dinode) (h : j / 16 ≠ k) :
    uintAt (putDinode x k ip) j = uintAt x j := by
  have hbyte : ∀ r < 4, putDinode x k ip (4 * j + r) = x (4 * j + r) := fun r hr =>
    if_neg (by omega)
  have h0 := hbyte 0 (by decide)
  rw [add_zero] at h0
  simp only [uintAt, h0, hbyte 1 (by decide), hbyte 2 (by decide), hbyte 3 (by decide)]

/-- **An inode that was stored is read back.** -/
theorem dinodeAt_putDinode_self (x : Block) (k : ℕ) {ip : Dinode} (h : ip.Fits) :
    dinodeAt (putDinode x k ip) k = ip := by
  have h0 := uintAt_putDinode_self x k h (w := 0) (by decide)
  rw [add_zero] at h0
  have h1 := uintAt_putDinode_self x k h (w := 1) (by decide)
  have h2 := uintAt_putDinode_self x k h (w := 2) (by decide)
  have haddrs : (dinodeAt (putDinode x k ip) k).addrs = ip.addrs := by
    funext j
    simp only [dinodeAt]
    split_ifs with hj
    · have hw : 3 + j < 16 := by change j ≤ 12 at hj; omega
      rw [add_assoc, uintAt_putDinode_self x k h hw, add_comm]
      rfl
    · exact (h.addrs_eq j (not_le.mp hj)).symm
  -- each word of two 16-bit numbers is taken apart again
  have htype := ip.type.code_lt
  have hminor : ip.minor.toUInt16.toNat < 2 ^ 16 := ip.minor.toUInt16.toNat_lt
  have hlow : ip.word 0 % 2 ^ 16 = ip.type.code := by simp only [Dinode.word]; omega
  have hhigh : ip.word 0 / 2 ^ 16 = ip.major.toUInt16.toNat := by simp only [Dinode.word]; omega
  have hhigh' : ip.word 1 / 2 ^ 16 = ip.nlink.toUInt16.toNat := by simp only [Dinode.word]; omega
  have hlow' : UInt16.ofNat (ip.word 1) = ip.minor.toUInt16 := by
    apply UInt16.toNat.inj
    rw [UInt16.toNat_ofNat']
    simp only [Dinode.word]
    omega
  refine Dinode.ext ?_ ?_ ?_ ?_ h2 haddrs
  · simp only [dinodeAt, h0, hlow, FileType.ofCode_code]
  · simp only [dinodeAt, h0, hhigh, UInt16.ofNat_toNat, Int16.toInt16_toUInt16]
  · simp only [dinodeAt, h1, hlow', Int16.toInt16_toUInt16]
  · simp only [dinodeAt, h1, hhigh', UInt16.ofNat_toNat, Int16.toInt16_toUInt16]

theorem dinodeAt_putDinode_of_ne (x : Block) {k l : ℕ} (ip : Dinode) (h : l ≠ k) :
    dinodeAt (putDinode x k ip) l = dinodeAt x l := by
  have hword : ∀ w < 16, uintAt (putDinode x k ip) (16 * l + w) = uintAt x (16 * l + w) :=
    fun w hw => uintAt_putDinode_of_ne x ip (by omega)
  have haddrs : (dinodeAt (putDinode x k ip) l).addrs = (dinodeAt x l).addrs := by
    funext j
    simp only [dinodeAt]
    split_ifs with hj
    · have hw : 3 + j < 16 := by change j ≤ 12 at hj; omega
      rw [add_assoc, hword (3 + j) hw]
    · rfl
  have h0 := hword 0 (by decide)
  rw [add_zero] at h0
  have h1 := hword 1 (by decide)
  refine Dinode.ext ?_ ?_ ?_ ?_ (hword 2 (by decide)) haddrs
  · simp only [dinodeAt, h0]
  · simp only [dinodeAt, h0]
  · simp only [dinodeAt, h1]
  · simp only [dinodeAt, h1]

/-! ### The free map -/

/-- The mask `1 << (b % 8)`. -/
def bitMask (b : ℕ) : UInt8 := 1 <<< UInt8.ofNat (b % 8)

/-- The test of `balloc` and `bfree` of the kernel: bit `b` of the block is set. -/
def bitAt (x : Block) (b : ℕ) : Bool := x (b / 8) &&& bitMask b ≠ 0

/-- The block after bit `b` has been set. -/
def orBit (x : Block) (b : ℕ) : Block := update x (b / 8) (x (b / 8) ||| bitMask b)

theorem bitMask_and {b c : ℕ} : bitMask b &&& bitMask c ≠ 0 ↔ b % 8 = c % 8 := by
  have hb : b % 8 < 8 := Nat.mod_lt _ (by decide)
  have hc : c % 8 < 8 := Nat.mod_lt _ (by decide)
  unfold bitMask
  generalize b % 8 = j at hb ⊢
  generalize c % 8 = k at hc ⊢
  decide +revert

theorem or_and_ne_zero (a m n : UInt8) : (a ||| m) &&& n ≠ 0 ↔ a &&& n ≠ 0 ∨ m &&& n ≠ 0 := by
  have hdistrib : (a ||| m) &&& n = (a &&& n) ||| (m &&& n) := by
    apply UInt8.toBitVec_inj.mp
    simp only [UInt8.toBitVec_and, UInt8.toBitVec_or, BitVec.and_or_distrib_right]
  rw [hdistrib, ne_eq, UInt8.or_eq_zero_iff, not_and_or]

/-- **One bit is set and no other.** -/
theorem bitAt_orBit (x : Block) (b c : ℕ) :
    bitAt (orBit x b) c = (decide (c = b) || bitAt x c) := by
  unfold bitAt orBit
  by_cases hbyte : c / 8 = b / 8
  · rw [hbyte, update_self]
    have hcb : b % 8 = c % 8 ↔ c = b := by omega
    simp only [or_and_ne_zero, bitMask_and, hcb, Bool.decide_or, Bool.or_comm]
  · have hcb : c ≠ b := by
      rintro rfl
      exact hbyte rfl
    rw [update_of_ne hbyte, decide_eq_false hcb, Bool.false_or]

/-! ### Directories -/

/-- The bytes of a string and the zeroes after it. -/
def cstr (s : List UInt8) : ℕ → UInt8 := fun k => s.getD k 0

/-- `struct dirent`; the name by index below `DIRSIZ`. -/
@[ext]
structure Dirent where
  inum : ℕ
  name : ℕ → UInt8

def Dirent.bytes (de : Dirent) : List UInt8 :=
  UInt8.ofNat de.inum :: UInt8.ofNat (de.inum / 256) :: (List.range dirsiz).map de.name

def Dirent.ofBytes (l : List UInt8) : Dirent where
  inum := (l.getD 0 0).toNat + 256 * (l.getD 1 0).toNat
  name k := l.getD (k + 2) 0

@[simp] theorem Dirent.length_bytes (de : Dirent) : de.bytes.length = direntSize := by
  simp [Dirent.bytes]

/-- **An entry that was stored is read back.** -/
theorem Dirent.ofBytes_bytes {de : Dirent} (hinum : de.inum < 2 ^ 16)
    (hname : ∀ k, dirsiz ≤ k → de.name k = 0) : ofBytes de.bytes = de := by
  refine Dirent.ext ?_ ?_
  · simp only [ofBytes, bytes, List.getD_cons_zero, List.getD_cons_succ, UInt8.toNat_ofNat']
    omega
  · funext k
    simp only [ofBytes, bytes, List.getD_cons_succ]
    by_cases hk : k < dirsiz
    · simp [hk]
    · rw [List.getD_eq_default _ _ (by simpa using hk), hname k (not_lt.mp hk)]

/-! ### The image -/

/-- The block holds the super block `sb`, which `fsinit` accepts. -/
structure Superblock.IsAt (sb : Superblock) (x : Block) : Prop where
  magic : uintAt x 0 = fsmagic
  size : uintAt x 1 = sb.size
  nblocks : uintAt x 2 = sb.nblocks
  ninodes : uintAt x 3 = sb.ninodes

/-- The file system of an image when the kernel has started: `BBLOCK` and `IBLOCK` find the free map
and the inodes, and no inode is in memory. -/
def load (img : ℕ → Block) : FsState where
  bitmap b := bitAt (img (b / bpb + uintAt (img 1) 7)) (b % bpb)
  dinode i := dinodeAt (img (i / ipb + uintAt (img 1) 6)) (i % ipb)
  data := img
  itable _ := none
  used := 0

end Xv6.Fs
