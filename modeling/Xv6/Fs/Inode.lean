import Mathlib.Algebra.Group.Nat.Defs
import Mathlib.Data.List.Range
import Mathlib.Logic.Function.Basic
import Mathlib.Tactic.Simps.Basic
import Xv6.Lib.Runs

/-!
# Blocks and inodes

`kernel/fs.c` up to the contents of inodes: the block allocator, the table of inodes in memory, the
block map of an inode, and reading and writing its contents. The parts of the disk are kept apart: a
bit of the free map for each block, a record for each inode, and the bytes of each block. A pointer
to an inode in memory is the inode's number, since the table has one entry for a number; free
entries are not represented, and `used` counts the others. One system call runs at a time.
-/

namespace Xv6.Fs

open Function

abbrev bsize : ℕ := 1024

abbrev ndirect : ℕ := 12

abbrev nindirect : ℕ := 256

abbrev maxfile : ℕ := ndirect + nindirect

/-- `NINODE`, the number of entries of the inode table. -/
abbrev ninode : ℕ := 50

/-- The panics of `fs.c` and `sysfile.c`, and the use of a pointer to an inode that is not in the
table. -/
inductive Panic
  | freeingFree
  | igetNoInodes
  | ilock
  | ilockNoType
  | bmapRange
  | dirlookupNotDir
  | dirlookupRead
  | dirlinkRead
  | unlinkWritei
  | dangling
deriving DecidableEq

/-- The type of an inode: `0`, `T_DIR`, `T_FILE`, `T_DEVICE`. -/
inductive FileType
  | free
  | dir
  | file
  | device
deriving DecidableEq

/-- The contents of a block, by offset below `BSIZE`. -/
abbrev Block := ℕ → UInt8

/-- `struct dinode`, and the part of `struct inode` that is a copy of it; `addrs` by index up to
`NDIRECT`. -/
@[ext]
structure Dinode where
  type : FileType
  major : Int16
  minor : Int16
  nlink : Int16
  size : ℕ
  addrs : ℕ → ℕ

def Dinode.zero : Dinode := ⟨.free, 0, 0, 0, 0, fun _ => 0⟩

structure Entry where
  ref : ℕ
  valid : Bool
  ino : Dinode

@[simps]
def Dinode.setAddrs (ip : Dinode) (addrs : ℕ → ℕ) : Dinode := { ip with addrs := addrs }

@[simps]
def Entry.setIno (e : Entry) (ip : Dinode) : Entry := { e with ino := ip }

/-- The file system: the free map, the inodes and the data blocks on disk, and the inode table. -/
structure FsState where
  bitmap : ℕ → Bool
  dinode : ℕ → Dinode
  data : ℕ → Block
  itable : ℕ → Option Entry
  used : ℕ

namespace FsState

/-- The state with the bit of block `b` set to `v`. -/
@[simps]
def setBit (s : FsState) (b : ℕ) (v : Bool) : FsState := { s with bitmap := update s.bitmap b v }

/-- The state with the contents `x` in block `b`. -/
@[simps]
def setData (s : FsState) (b : ℕ) (x : Block) : FsState := { s with data := update s.data b x }

/-- The state with the inode `ip` on disk. -/
@[simps]
def setDinode (s : FsState) (i : ℕ) (ip : Dinode) : FsState :=
  { s with dinode := update s.dinode i ip }

/-- The state with the table entry of inode `i` replaced. -/
@[simps]
def setEntry (s : FsState) (i : ℕ) (e : Option Entry) : FsState :=
  { s with itable := update s.itable i e }

end FsState

/-- The fields of the super block that the functions below read, and the number of data blocks; they
are 32-bit numbers, and the image begins with the boot block. -/
structure Superblock where
  size : ℕ
  nblocks : ℕ
  ninodes : ℕ
  size_lt : size < 2 ^ 32
  nblocks_lt : nblocks < size

abbrev FsM (α : Type) := StateT FsState (Except Panic) α

/-- The 32-bit number at index `j` of a block. -/
def uintAt (x : Block) (j : ℕ) : ℕ :=
  (x (4 * j)).toNat + 256 * (x (4 * j + 1)).toNat + 256 ^ 2 * (x (4 * j + 2)).toNat +
    256 ^ 3 * (x (4 * j + 3)).toNat

/-- The block after the 32-bit number `v` has been stored at index `j`. -/
def setUint (x : Block) (j v : ℕ) : Block := fun o =>
  if o / 4 = j then UInt8.ofNat (v / 256 ^ (o % 4)) else x o

/-! ### Blocks -/

def bzero (b : ℕ) : FsM Unit := modify fun s => s.setData b fun _ => 0

/-- `balloc`: the first block whose bit is clear, zeroed; `0` if there is none. -/
def balloc (sb : Superblock) : FsM ℕ := do
  let s ← get
  match (List.range sb.size).find? fun b => !s.bitmap b with
  | some b => do
    modify fun s => s.setBit b true
    bzero b
    pure b
  | none => pure 0

def bfree (b : ℕ) : FsM Unit := do
  let s ← get
  if s.bitmap b = false then throw .freeingFree
  else modify fun s => s.setBit b false

/-! ### The inode table -/

def fields (i : ℕ) : FsM Dinode := do
  let s ← get
  match s.itable i with
  | some e => pure e.ino
  | none => throw .dangling

def assign (i : ℕ) (f : Dinode → Dinode) : FsM Unit :=
  modify fun s => s.setEntry i ((s.itable i).map fun e => e.setIno (f e.ino))

/-- `iupdate`: copy a modified in-memory inode to disk. -/
def iupdate (i : ℕ) : FsM Unit := do
  let ip ← fields i
  modify fun s => s.setDinode i ip

/-- Change fields of the inode and write it back, as the callers of `iupdate` do. -/
def store (i : ℕ) (f : Dinode → Dinode) : FsM Unit := do
  assign i f
  iupdate i

def iget (i : ℕ) : FsM Unit := do
  let s ← get
  match s.itable i with
  | some e => modify fun s => s.setEntry i (some { e with ref := e.ref + 1 })
  | none =>
    if ninode ≤ s.used then throw .igetNoInodes
    else modify fun s => { s.setEntry i (some ⟨1, false, .zero⟩) with used := s.used + 1 }

def idup (i : ℕ) : FsM Unit := do
  let s ← get
  match s.itable i with
  | some e => modify fun s => s.setEntry i (some { e with ref := e.ref + 1 })
  | none => throw .dangling

/-- `ilock`, which reads the inode from disk if necessary. -/
def ilock (i : ℕ) : FsM Unit := do
  let s ← get
  match s.itable i with
  | none => throw .ilock
  | some e =>
    if e.valid then pure ()
    else do
      modify fun s => s.setEntry i (some { e with valid := true, ino := s.dinode i })
      if (s.dinode i).type = .free then throw .ilockNoType else pure ()

/-- The address `ip->addrs[k]`, with a block allocated for it if there is none; `0` if the disk is
full. `bmap` does this for a direct block and for the indirect block. -/
def loadAddr (sb : Superblock) (i k : ℕ) : FsM ℕ := do
  let ip ← fields i
  if ip.addrs k ≠ 0 then pure (ip.addrs k)
  else do
    let addr ← balloc sb
    if addr = 0 then pure 0
    else do
      assign i fun ip => ip.setAddrs (update ip.addrs k addr)
      pure addr

/-- `bmap`: the disk block of the `bn`th block of the inode, allocated if there is none; `0` if
the disk is full. -/
def bmap (sb : Superblock) (i bn : ℕ) : FsM ℕ :=
  if bn < ndirect then loadAddr sb i bn
  else if bn - ndirect < nindirect then do
    let ind ← loadAddr sb i ndirect
    if ind = 0 then pure 0
    else do
      let s ← get
      if uintAt (s.data ind) (bn - ndirect) ≠ 0 then pure (uintAt (s.data ind) (bn - ndirect))
      else do
        let addr ← balloc sb
        if addr = 0 then pure 0
        else do
          modify fun s => s.setData ind (setUint (s.data ind) (bn - ndirect) addr)
          pure addr
  else throw .bmapRange

/-- The body of the first loop of `itrunc`. -/
def freeDirect (i k : ℕ) : FsM Unit := do
  let ip ← fields i
  if ip.addrs k ≠ 0 then do
    bfree (ip.addrs k)
    assign i fun ip => ip.setAddrs (update ip.addrs k 0)
  else pure ()

/-- The body of the second loop of `itrunc`, over the indirect block `a`. -/
def freeIndirect (a : Block) (j : ℕ) : FsM Unit :=
  if uintAt a j ≠ 0 then bfree (uintAt a j) else pure ()

/-- The second part of `itrunc`: free the blocks of the indirect block, and the block itself. -/
def truncIndirect (i : ℕ) : FsM Unit := do
  let ip ← fields i
  if ip.addrs ndirect ≠ 0 then do
    let s ← get
    (List.range nindirect).forM (freeIndirect (s.data (ip.addrs ndirect)))
    bfree (ip.addrs ndirect)
    assign i fun ip => ip.setAddrs (update ip.addrs ndirect 0)
  else pure ()

/-- `itrunc`: discard the contents of the inode. -/
def itrunc (i : ℕ) : FsM Unit := do
  (List.range ndirect).forM (freeDirect i)
  truncIndirect i
  store i fun ip => { ip with size := 0 }

/-- The first part of `iput`: free an inode without links if this is the last reference to it. -/
def freeUnlinked (i : ℕ) (e : Entry) : FsM Unit :=
  if e.ref = 1 ∧ e.valid ∧ e.ino.nlink = 0 then do
    itrunc i
    store i fun ip => { ip with type := .free }
  else pure ()

/-- `iput`: drop a reference. An entry with no reference left is free. -/
def iput (i : ℕ) : FsM Unit := do
  let s ← get
  match s.itable i with
  | none => throw .dangling
  | some e => do
    freeUnlinked i e
    if e.ref = 1 then modify fun s => { s.setEntry i none with used := s.used - 1 }
    else modify fun s => s.setEntry i (some { e with ref := e.ref - 1 })

/-! ### The contents of an inode -/

def uadd (a b : ℕ) : ℕ := (a + b) % 2 ^ 32

/-- The loop of `readi`. The destination accepts `m` bytes at offset `tot` if `dst tot m`; what was
read is collected. -/
def readiLoop (sb : Superblock) (i : ℕ) (dst : ℕ → ℕ → Bool) (n : ℕ) :
    ℕ → ℕ → ℕ → List UInt8 → FsM (ℤ × List UInt8)
  | 0, tot, _, acc => pure (tot, acc)
  | fuel + 1, tot, off, acc =>
    if tot < n then do
      let addr ← bmap sb i (off / bsize)
      if addr = 0 then pure (tot, acc)
      else do
        let s ← get
        let m := min (n - tot) (bsize - off % bsize)
        if dst tot m then
          readiLoop sb i dst n fuel (tot + m) (off + m)
            (acc ++ (List.range m).map fun x => s.data addr (off % bsize + x))
        else pure (-1, acc)
    else pure (tot, acc)

/-- `readi`. Each round of the loop reads at least one byte. -/
def readi (sb : Superblock) (i : ℕ) (dst : ℕ → ℕ → Bool) (off n : ℕ) : FsM (ℤ × List UInt8) := do
  let ip ← fields i
  if ip.size < off ∨ uadd off n < off then pure (0, [])
  else
    let n := if ip.size < uadd off n then ip.size - off else n
    readiLoop sb i dst n n 0 off []

/-- A source of bytes: kernel memory, or user memory that is readable up to the index `fault`. -/
structure Source where
  byte : ℕ → UInt8
  fault : Option ℕ

/-- How many of `m` bytes at offset `tot` are copied from the source. -/
def Source.copied (src : Source) (tot m : ℕ) : ℕ :=
  match src.fault with
  | none => m
  | some f => min m (f - tot)

/-- The block `x` after the first `c` bytes at offset `tot` of the source have been copied to
offset `o`. -/
def patch (src : Source) (tot : ℕ) (x : Block) (o c : ℕ) : Block := fun k =>
  if o ≤ k ∧ k < o + c then src.byte (tot + (k - o)) else x k

/-- The loop of `writei`: the number of bytes written and the offset reached. -/
def writeiLoop (sb : Superblock) (i : ℕ) (src : Source) (n : ℕ) : ℕ → ℕ → ℕ → FsM (ℕ × ℕ)
  | 0, tot, off => pure (tot, off)
  | fuel + 1, tot, off =>
    if tot < n then do
      let addr ← bmap sb i (off / bsize)
      if addr = 0 then pure (tot, off)
      else do
        let m := min (n - tot) (bsize - off % bsize)
        -- a source that ends early leaves a part of the block changed
        modify fun s => s.setData addr
          (patch src tot (s.data addr) (off % bsize) (src.copied tot m))
        if src.copied tot m < m then pure (tot, off)
        else writeiLoop sb i src n fuel (tot + m) (off + m)
    else pure (tot, off)

/-- The end of `writei`: the file grows to `off` if it is shorter. -/
def growTo (i off : ℕ) : FsM Unit := do
  let ip ← fields i
  if ip.size < off then assign i fun ip => { ip with size := off } else pure ()

/-- `writei`. Each round of the loop writes at least one byte. -/
def writei (sb : Superblock) (i : ℕ) (src : Source) (off n : ℕ) : FsM ℤ := do
  let ip ← fields i
  if ip.size < off ∨ uadd off n < off then pure (-1)
  else if maxfile * bsize < uadd off n then pure (-1)
  else do
    let (tot, off) ← writeiLoop sb i src n n 0 off
    growTo i off
    iupdate i
    pure tot

end Xv6.Fs
