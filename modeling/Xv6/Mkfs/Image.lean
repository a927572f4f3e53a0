import Xv6.Fs.Layout

/-!
# Making an image

`mkfs/mkfs.c`: the program that writes an image with a root directory and the files it is given. The
image starts as `FSSIZE` blocks of zeroes; inodes and blocks are then taken in order, by two
counters, and the free map is written last. The host is little-endian, as the disk is, so that
`xshort` and `xint` are the identity. An argument is the name of a file that can be opened, with the
pieces in which the host's `read` returns its bytes.
-/

namespace Xv6.Mkfs

open Fs

abbrev ninodes : ℕ := 200

abbrev fssize : ℕ := 2000

abbrev nlog : ℕ := 30

abbrev ninodeblocks : ℕ := ninodes / ipb + 1

abbrev nbitmap : ℕ := fssize / bpb + 1

/-- `nmeta`, the number of blocks before the data. -/
abbrev nmeta : ℕ := 2 + nlog + ninodeblocks + nbitmap

/-- `sb.inodestart`. -/
abbrev inodestart : ℕ := 2 + nlog

/-- `sb.bmapstart`. -/
abbrev bmapstart : ℕ := 2 + nlog + ninodeblocks

def superblock : Superblock where
  size := fssize
  nblocks := fssize - nmeta
  ninodes := ninodes
  size_lt := by decide
  nblocks_lt := by decide

/-- The block with `sb`: its eight numbers, and zeroes. -/
def superblockBytes : Block :=
  [fsmagic, fssize, fssize - nmeta, ninodes, nlog, 2, inodestart, bmapstart].zipIdx.foldl
    (fun x v => setUint x v.2 v.1) fun _ => 0

/-- The image, `freeinode` and `freeblock`. -/
structure Image where
  img : ℕ → Block
  freeinode : ℕ
  freeblock : ℕ

/-- How `mkfs` fails: an assertion, or `die("read")`. -/
inductive Abort
  | rootino
  | slash
  | maxfile
  | used
  | read
deriving DecidableEq

abbrev MkfsM (α : Type) := StateT Image (Except Abort) α

namespace Image

/-- The state with the contents `buf` in block `sec`. -/
@[simps -fullyApplied]
def setSect (st : Image) (sec : ℕ) (buf : Block) : Image :=
  { st with img := Function.update st.img sec buf }

@[simps -fullyApplied]
def takeBlock (st : Image) : Image := { st with freeblock := st.freeblock + 1 }

@[simps -fullyApplied]
def takeInode (st : Image) : Image := { st with freeinode := st.freeinode + 1 }

end Image

/-! ### Access to the image -/

def wsect (sec : ℕ) (buf : Block) : MkfsM Unit := modify fun st => st.setSect sec buf

/-- `rsect`. The image has `FSSIZE` blocks, since no block is written that was not read before. -/
def rsect (sec : ℕ) : MkfsM Block := do
  let st ← get
  if sec < fssize then pure (st.img sec) else throw .read

def iblock (inum : ℕ) : ℕ := inum / ipb + inodestart

def winode (inum : ℕ) (ip : Dinode) : MkfsM Unit := do
  let buf ← rsect (iblock inum)
  wsect (iblock inum) (putDinode buf (inum % ipb) ip)

def rinode (inum : ℕ) : MkfsM Dinode := do
  let buf ← rsect (iblock inum)
  pure (dinodeAt buf (inum % ipb))

/-- `freeblock++`. -/
def nextBlock : MkfsM ℕ := do
  let st ← get
  modify Image.takeBlock
  pure st.freeblock

/-! ### Inodes and their contents -/

def ialloc (type : FileType) : MkfsM ℕ := do
  let st ← get
  modify Image.takeInode
  winode st.freeinode { Dinode.zero with type := type, nlink := 1 }
  pure st.freeinode

/-- The inode with a block at index `k` of its addresses, taken if there is none. -/
def withAddr (din : Dinode) (k : ℕ) : MkfsM Dinode :=
  if din.addrs k = 0 then do
    let b ← nextBlock
    pure (din.setAddrs (Function.update din.addrs k b))
  else pure din

/-- The number at index `m` of the indirect block `ind`, of a block taken if there is none. -/
def withEntry (ind m : ℕ) : MkfsM ℕ := do
  let indirect ← rsect ind
  if uintAt indirect m = 0 then do
    let b ← nextBlock
    let indirect := setUint indirect m b
    wsect ind indirect
    pure (uintAt indirect m)
  else pure (uintAt indirect m)

/-- The first part of the loop of `iappend`: the block of the file's block `fbn`, taken if there is
none, and the inode with it. -/
def blockFor (din : Dinode) (fbn : ℕ) : MkfsM (Dinode × ℕ) :=
  if fbn < ndirect then do
    let din ← withAddr din fbn
    pure (din, din.addrs fbn)
  else do
    let din ← withAddr din ndirect
    let x ← withEntry (din.addrs ndirect) (fbn - ndirect)
    pure (din, x)

/-- `bcopy(p, buf + o, n)`. -/
def bcopy (p : List UInt8) (buf : Block) (o n : ℕ) : Block := fun k =>
  if o ≤ k ∧ k < o + n then p.getD (k - o) 0 else buf k

/-- The loop of `iappend`, over the bytes left to append. -/
def iappendLoop : ℕ → Dinode → ℕ → List UInt8 → MkfsM (Dinode × ℕ)
  | 0, din, off, _ => pure (din, off)
  | fuel + 1, din, off, p =>
    if p.length = 0 then pure (din, off)
    else if maxfile ≤ off / bsize then throw .maxfile
    else do
      let (din, x) ← blockFor din (off / bsize)
      let n1 := min p.length ((off / bsize + 1) * bsize - off)
      let buf ← rsect x
      wsect x (bcopy p buf (off - off / bsize * bsize) n1)
      iappendLoop fuel din (off + n1) (p.drop n1)

/-- `iappend`. Each round of the loop appends at least one byte. -/
def iappend (inum : ℕ) (p : List UInt8) : MkfsM Unit := do
  let din ← rinode inum
  let (din, off) ← iappendLoop p.length din din.size p
  winode inum { din with size := off }

/-- `balloc`: the free map in which the first `used` blocks are marked. -/
def balloc (used : ℕ) : MkfsM Unit :=
  if bsize * 8 ≤ used then throw .used
  else wsect bmapstart ((List.range used).foldl orBit fun _ => 0)

/-! ### The program -/

/-- A file to put on the image: the argument, and what the calls of `read` return, which are at most
`BSIZE` bytes each, until one returns nothing. -/
structure Input where
  arg : List UInt8
  reads : List (List UInt8)
  zero_not_mem : 0 ∉ arg
  reads_le : ∀ p ∈ reads, 0 < p.length ∧ p.length ≤ bsize

namespace Input

def bytes (f : Input) : List UInt8 := f.reads.flatten

def base (f : Input) : List UInt8 :=
  if f.arg.take 5 = ['u', 's', 'e', 'r', '/'].map Char.toUInt8 then f.arg.drop 5 else f.arg

/-- `shortname`, without a leading underscore. -/
def shortname (f : Input) : List UInt8 :=
  if f.base.head? = some '_'.toUInt8 then f.base.tail else f.base

def stored (f : Input) : List UInt8 := f.shortname.take dirsiz

end Input

def dirent (inum : ℕ) (name : List UInt8) : Dirent := ⟨inum, cstr (name.take dirsiz)⟩

def addFile (f : Input) : MkfsM Unit :=
  if '/'.toUInt8 ∈ f.base then throw .slash
  else do
    let inum ← ialloc .file
    iappend rootino (dirent inum f.shortname).bytes
    f.reads.forM (iappend inum)

/-- The size of the root directory is rounded up to whole blocks. -/
def fixRoot : MkfsM Unit := do
  let din ← rinode rootino
  winode rootino { din with size := (din.size / bsize + 1) * bsize }

def makeRoot : MkfsM Unit := do
  let root ← ialloc .dir
  if root ≠ rootino then throw .rootino
  else do
    iappend root (dirent root ['.'.toUInt8]).bytes
    iappend root (dirent root ['.'.toUInt8, '.'.toUInt8]).bytes

/-- `main`. -/
def mkfs (files : List Input) : MkfsM Unit := do
  wsect 1 superblockBytes
  makeRoot
  files.forM addFile
  fixRoot
  let st ← get
  balloc st.freeblock

/-- `mkfs` starts with blocks of zeroes and the counters at their first values. -/
def start : Image := ⟨fun _ _ => 0, 1, nmeta⟩

/-- With the arguments `files`, `mkfs` ends with the image and the counters `st`. -/
def Makes (files : List Input) (st : Image) : Prop := (mkfs files).run start = .ok ((), st)

end Xv6.Mkfs
