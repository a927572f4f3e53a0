import Xv6.Fs.Contents
import Xv6.Lib.Extended

/-!
# Writes and the log

`writei` once more, now with the calls of `log_write` that tell the log which blocks of the buffer
cache have changed. The contents of the cache are those of the file system of `Xv6.Fs.Inode`; what
is added is the list of the blocks that the transaction has logged. The limits of the log are left
out.
-/

namespace Xv6.Fs

open Function Erases

/-- Where the free map and the inodes begin on disk. -/
structure Areas where
  bmapstart : ℕ
  inodestart : ℕ

def Areas.bblock (A : Areas) (b : ℕ) : ℕ := b / bpb + A.bmapstart

def Areas.iblock (A : Areas) (i : ℕ) : ℕ := i / ipb + A.inodestart

namespace Tx

/-- The file system, and the blocks that the transaction has logged. -/
abbrev State := FsState × List ℕ

abbrev M (α : Type) := StateT State (Except Panic) α

def logWrite (b : ℕ) : M Unit := extra fun l => b :: l

def bzero (b : ℕ) : M Unit := do
  widen (Fs.bzero b)
  logWrite b

def balloc (A : Areas) (sb : Superblock) : M ℕ := do
  let s ← widen get
  match (List.range sb.size).find? fun b => !s.bitmap b with
  | some b => do
    widen (modify fun s => s.setBit b true)
    logWrite (A.bblock b)
    bzero b
    pure b
  | none => pure 0

/-- `ip->addrs[k]`, with a block allocated for it if there is none. -/
def loadAddr (A : Areas) (sb : Superblock) (i k : ℕ) : M ℕ := do
  let ip ← widen (fields i)
  if ip.addrs k ≠ 0 then pure (ip.addrs k)
  else do
    let addr ← balloc A sb
    if addr = 0 then pure 0
    else do
      widen (assign i fun ip => ip.setAddrs (update ip.addrs k addr))
      pure addr

def bmap (A : Areas) (sb : Superblock) (i bn : ℕ) : M ℕ :=
  if bn < ndirect then loadAddr A sb i bn
  else if bn - ndirect < nindirect then do
    let ind ← loadAddr A sb i ndirect
    if ind = 0 then pure 0
    else do
      let s ← widen get
      if uintAt (s.data ind) (bn - ndirect) ≠ 0 then pure (uintAt (s.data ind) (bn - ndirect))
      else do
        let addr ← balloc A sb
        if addr = 0 then pure 0
        else do
          widen (modify fun s => s.setData ind (setUint (s.data ind) (bn - ndirect) addr))
          logWrite ind
          pure addr
  else throw .bmapRange

def iupdate (A : Areas) (i : ℕ) : M Unit := do
  widen (Fs.iupdate i)
  logWrite (A.iblock i)

def writeiLoop (A : Areas) (sb : Superblock) (i : ℕ) (src : Source) (n : ℕ) : ℕ → ℕ → ℕ → M (ℕ × ℕ)
  | 0, tot, off => pure (tot, off)
  | fuel + 1, tot, off =>
    if tot < n then do
      let addr ← bmap A sb i (off / bsize)
      if addr = 0 then pure (tot, off)
      else do
        let m := min (n - tot) (bsize - off % bsize)
        widen (modify fun s => s.setData addr
          (patch src tot (s.data addr) (off % bsize) (src.copied tot m)))
        if src.copied tot m < m then pure (tot, off)
        else do
          logWrite addr
          writeiLoop A sb i src n fuel (tot + m) (off + m)
    else pure (tot, off)

def writei (A : Areas) (sb : Superblock) (i : ℕ) (src : Source) (off n : ℕ) : M ℤ := do
  let ip ← widen (fields i)
  if ip.size < off ∨ uadd off n < off then pure (-1)
  else if maxfile * bsize < uadd off n then pure (-1)
  else do
    let (tot, off) ← writeiLoop A sb i src n n 0 off
    widen (growTo i off)
    iupdate A i
    pure tot

variable {A : Areas} {sb : Superblock} {i : ℕ} {src : Source}

/-! ### Without the log -/

end Tx

end Xv6.Fs
