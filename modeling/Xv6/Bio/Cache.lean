import Mathlib.Data.BitVec
import Mathlib.Data.Fintype.Basic
import Mathlib.Tactic.Simps.Basic
import Xv6.Lib.LinkedRing
import Xv6.Lib.Transition

/-!
# The buffer cache

Any number of processes read, modify, write, pin and release blocks through the cache. A step is
what a process does under `bcache.lock`, or between two points at which another can see it: taking
the sleep lock of a buffer, the transfer from or to the disk, setting `valid`. A process that holds
several buffers counts as several. The driver is given by the place `addr` of every block.

The state also counts the pins of a buffer and records whether its data is newer than the disk.
`Allowed` is what callers keep to: only blocks of a given set are read, changed data is written or
pinned before the release, and pinned data is unpinned after it was written.
-/

namespace Xv6.Bio

open Function

/-! ### An array of blocks -/

/-- What a process does to a block: it gets access and sees the contents, changes them, or gives the
access up. -/
inductive Act (ι κ D : Type*)
  | take (h : ι) (k : κ) (d : D)
  | put (h : ι) (k : κ) (d : D)
  | drop (h : ι) (k : κ)
deriving DecidableEq

/-- The contents of the blocks, and who has access to them. -/
structure BlockArray (ι κ D : Type*) where
  content : κ → D
  holder : κ → Option ι

/-- At most one process has access to a block, and it sees what was last put there. -/
def BlockArray.Step {ι κ D : Type*} [DecidableEq κ] (a : BlockArray ι κ D) :
    Act ι κ D → BlockArray ι κ D → Prop
  | .take h k d, a' => a.holder k = none ∧ d = a.content k ∧
      a' = { a with holder := update a.holder k (some h) }
  | .put h k d, a' => a.holder k = some h ∧ a' = { a with content := update a.content k d }
  | .drop h k, a' => a.holder k = some h ∧
      a' = { a with holder := update a.holder k none }

/-- The array as a transition system; a step without a label does nothing. -/
def blockArray {ι κ D : Type*} [DecidableEq κ] (content : κ → D) :
    LTS (BlockArray ι κ D) (Option (Act ι κ D)) where
  init a := a = ⟨content, fun _ => none⟩
  step a o a' := o.elim (a' = a) (a.Step · a')

/-! ### The cache -/

abbrev nbuf : ℕ := 30

structure BlockId where
  dev : BitVec 32
  blockno : BitVec 32
deriving DecidableEq

/-- The nodes of the list of buffers; `none` is `bcache.head`. -/
abbrev Node := Option (Fin nbuf)

/-- `struct buf`, with the owner of its sleep lock. -/
structure Buf (ι D : Type*) where
  valid : Bool
  block : BlockId
  lock : Option ι
  refcnt : ℕ
  data : D

/-- Where a process stands, with its buffer and the block it asked for. -/
inductive Pc
  | idle
  | locking (b : Fin nbuf) (k : BlockId)
  | locked (b : Fin nbuf) (k : BlockId)
  | filled (b : Fin nbuf) (k : BlockId)
  | holding (b : Fin nbuf) (k : BlockId)
  | releasing (b : Fin nbuf) (k : BlockId)
deriving DecidableEq

/-- `bcache`, the disk, and where the processes stand; then the number of pins of every buffer, and
whether its data was changed since it was last written. -/
structure Bcache (ι D S : Type*) where
  buf : Fin nbuf → Buf ι D
  links : Links Node
  disk : S → D
  pc : ι → Pc
  pins : Fin nbuf → ℕ
  dirty : Fin nbuf → Bool

variable {ι D S : Type*} [DecidableEq ι] [DecidableEq S]

namespace Bcache

/-- The process goes on at `pc`. -/
@[simps] def goto (s : Bcache ι D S) (h : ι) (pc : Pc) : Bcache ι D S :=
  { s with pc := update s.pc h pc }

@[simps] def setBuf (s : Bcache ι D S) (b : Fin nbuf) (x : Buf ι D) : Bcache ι D S :=
  { s with buf := update s.buf b x }

end Bcache

/-- The list that `binit` builds. -/
def binit : Links Node :=
  (List.finRange nbuf).foldl (fun L b => L.pushFront none (some b)) ⟨fun _ => none, fun _ => none⟩

/-- The walk of `bget` along `next` or `prev`, until a buffer meets the condition. -/
def findBuf (step : Node → Node) (P : Fin nbuf → Bool) : Option (Fin nbuf) :=
  (Links.scan step none (Option.any P) (nbuf + 1) (step none)).join

namespace Bcache

/-- `bget` up to `acquiresleep`; it panics if all buffers are in use. -/
def bget (s : Bcache ι D S) (h : ι) (k : BlockId) : Option (Bcache ι D S) :=
  match findBuf s.links.next fun b => (s.buf b).block == k with
  | some b =>
    let x := s.buf b
    some ((s.setBuf b { x with refcnt := x.refcnt + 1 }).goto h (.locking b k))
  | none =>
    match findBuf s.links.prev fun b => (s.buf b).refcnt == 0 with
    | some b =>
      let x := s.buf b
      some ((s.setBuf b { x with block := k, valid := false, refcnt := 1 }).goto h (.locking b k))
    | none => none

/-- `acquiresleep(&b->lock)`, if it is free. -/
def lockBuf (s : Bcache ι D S) (h : ι) (b : Fin nbuf) (k : BlockId) : Option (Bcache ι D S) :=
  let x := s.buf b
  if x.lock = none then some ((s.setBuf b { x with lock := some h }).goto h (.locked b k)) else none

/-- The end of `bread`: the transfer from the disk, if it is needed. -/
def readBuf (addr : BlockId → S) (s : Bcache ι D S) (h : ι) (b : Fin nbuf) (k : BlockId) :
    Option (Act ι BlockId D) × Bcache ι D S :=
  let x := s.buf b
  if x.valid then (some (.take h k x.data), s.goto h (.holding b k))
  else (none, (s.setBuf b { x with data := s.disk (addr x.block) }).goto h (.filled b k))

/-- The critical section of `brelse`. -/
def putBack (s : Bcache ι D S) (h : ι) (b : Fin nbuf) : Bcache ι D S :=
  let x := s.buf b
  let s := s.setBuf b { x with refcnt := x.refcnt - 1 }
  let s := if (s.buf b).refcnt = 0 then
      { s with links := (s.links.unlink (some b)).pushFront none (some b) }
    else s
  s.goto h .idle

/-- The next step of a process inside `bread` or `brelse`, if it is not blocked. -/
def advance (addr : BlockId → S) (s : Bcache ι D S) (h : ι) :
    Pc → Option (Option (Act ι BlockId D) × Bcache ι D S)
  | .locking b k => (s.lockBuf h b k).map (none, ·)
  | .locked b k => some (s.readBuf addr h b k)
  | .filled b k =>
    let x := s.buf b
    some (some (.take h k x.data), (s.setBuf b { x with valid := true }).goto h (.holding b k))
  | .releasing b _ => some (none, s.putBack h b)
  | .idle | .holding _ _ => none

def modify (s : Bcache ι D S) (b : Fin nbuf) (d : D) : Bcache ι D S :=
  { s.setBuf b { s.buf b with data := d } with dirty := update s.dirty b true }

/-- `bwrite`; it panics if the buffer is not locked by the caller. -/
def bwrite (addr : BlockId → S) (s : Bcache ι D S) (h : ι) (b : Fin nbuf) : Option (Bcache ι D S) :=
  let x := s.buf b
  if x.lock = some h then
    some { s with
      disk := update s.disk (addr x.block) x.data
      dirty := update s.dirty b false }
  else none

def bpin (s : Bcache ι D S) (b : Fin nbuf) : Bcache ι D S :=
  { s.setBuf b { s.buf b with refcnt := (s.buf b).refcnt + 1 } with
    pins := update s.pins b (s.pins b + 1) }

def bunpin (s : Bcache ι D S) (b : Fin nbuf) : Bcache ι D S :=
  { s.setBuf b { s.buf b with refcnt := (s.buf b).refcnt - 1 } with
    pins := update s.pins b (s.pins b - 1) }

/-- `brelse` up to `releasesleep`; it panics if the buffer is not locked by the caller. -/
def brelse (s : Bcache ι D S) (h : ι) (b : Fin nbuf) (k : BlockId) : Option (Bcache ι D S) :=
  let x := s.buf b
  if x.lock = some h then some ((s.setBuf b { x with lock := none }).goto h (.releasing b k))
  else none

end Bcache

/-- The events: a process calls `bread`, takes its next step inside a call, or does something with
the buffer it holds. -/
inductive Event (ι D : Type*)
  | bread (h : ι) (k : BlockId)
  | step (h : ι)
  | modify (h : ι) (d : D)
  | bwrite (h : ι)
  | bpin (h : ι)
  | bunpin (h : ι)
  | brelse (h : ι)

/-- A process does something with the buffer it holds. -/
def ifHolding (s : Bcache ι D S) (h : ι)
    (f : Fin nbuf → BlockId → Option (Option (Act ι BlockId D) × Bcache ι D S)) :
    Option (Option (Act ι BlockId D) × Bcache ι D S) :=
  match s.pc h with
  | .holding b k => f b k
  | _ => none

/-- The step of an event, if it is possible, and what it does to a block. -/
def Event.run (addr : BlockId → S) (s : Bcache ι D S) :
    Event ι D → Option (Option (Act ι BlockId D) × Bcache ι D S)
  | .bread h k => if s.pc h = .idle then (s.bget h k).map (none, ·) else none
  | .step h => s.advance addr h (s.pc h)
  | .modify h d => ifHolding s h fun b k => some (some (.put h k d), s.modify b d)
  | .bwrite h => ifHolding s h fun b _ => (s.bwrite addr h b).map (none, ·)
  | .bpin h => ifHolding s h fun b _ => some (none, s.bpin b)
  | .bunpin h => ifHolding s h fun b _ => some (none, s.bunpin b)
  | .brelse h => ifHolding s h fun b k => (s.brelse h b k).map (some (.drop h k), ·)

def Pc.held : Pc → Option (Fin nbuf)
  | .holding b _ => some b
  | _ => none

def Allowed (K : Set BlockId) (s : Bcache ι D S) : Event ι D → Prop
  | .bread _ k => k ∈ K
  | .bunpin h => ∀ b ∈ (s.pc h).held, s.dirty b = false ∧ 0 < s.pins b
  | .brelse h => ∀ b ∈ (s.pc h).held, s.dirty b = false ∨ 0 < s.pins b
  | _ => True

instance (K : Set BlockId) [DecidablePred (· ∈ K)] (s : Bcache ι D S) :
    (e : Event ι D) → Decidable (Allowed K s e)
  | .bread _ k => inferInstanceAs (Decidable (k ∈ K))
  | .bunpin h => inferInstanceAs
      (Decidable (∀ b ∈ (s.pc h).held, s.dirty b = false ∧ 0 < s.pins b))
  | .brelse h => inferInstanceAs
      (Decidable (∀ b ∈ (s.pc h).held, s.dirty b = false ∨ 0 < s.pins b))
  | .step _ | .modify _ _ | .bwrite _ | .bpin _ => inferInstanceAs (Decidable True)

/-- The state after `binit`, over a disk. -/
def Bcache.initial (zero : D) (disk : S → D) : Bcache ι D S :=
  ⟨fun _ => ⟨false, ⟨0, 0⟩, none, 0, zero⟩, binit, disk, fun _ => .idle, fun _ => 0, fun _ => false⟩

/-- The cache over a disk, used for the blocks of `K`. -/
def bcacheSystem (addr : BlockId → S) (K : Set BlockId) (zero : D) (disk : S → D) :
    LTS (Bcache ι D S) (Option (Act ι BlockId D)) where
  init s := s = .initial zero disk
  step s o s' := ∃ e : Event ι D, Allowed K s e ∧ e.run addr s = some (o, s')

end Xv6.Bio
