import Mathlib.Data.BitVec
import Mathlib.Data.Nat.Notation
import Mathlib.Logic.Function.Basic
import Xv6.Lib.Transition

/-!
# The disk driver

`virtio_disk_rw` describes a transfer in three descriptors, puts the first of them on the `avail`
ring, and sleeps until `virtio_disk_intr` finds it on the `used` ring. Any number of threads make
calls and take interrupts. `disk.vdisk_lock` does not hold up the device, so the steps are cut where
it could tell the difference: formatting the descriptors, writing the ring, moving its index.

The callers hold the sleep lock of the buffer, which has steps of its own. A sleeping thread may
wake up at any time.

The device takes the heads from the `avail` ring in order, and performs and completes them in any
order, with status 0, as the descriptors say at that moment. The n-th head that it takes is here
called request n, and a call has the number of heads that were put on the ring before its own.
-/

namespace Xv6.Virtio

open Function

abbrev num : ℕ := 8

/-- `VRING_DESC_F_NEXT`. -/
abbrev fNext : BitVec 16 := 1

/-- `VRING_DESC_F_WRITE`. -/
abbrev fWrite : BitVec 16 := 2

abbrev bsize : ℕ := 1024

/-- `panic`, and a completion of a request without a buffer. -/
inductive Panic
  | freeDesc1
  | freeDesc2
  | intrStatus
  | nullBuf
deriving DecidableEq

/-- What the address in a descriptor points to. -/
inductive Addr (β : Type*)
  | null
  /-- `&disk.ops[i]`. -/
  | ops (i : ℕ)
  /-- `b->data`. -/
  | data (b : β)
  /-- `&disk.info[i].status`. -/
  | status (i : ℕ)
deriving DecidableEq

/-- `struct virtq_desc`. -/
structure Desc (β : Type*) where
  addr : Addr β
  len : ℕ
  flags : BitVec 16
  next : ℕ
deriving DecidableEq

/-- `VIRTIO_BLK_T_IN` and `VIRTIO_BLK_T_OUT`. -/
inductive BlkType
  | read
  | write
deriving DecidableEq

/-- `struct virtio_blk_req`, of 16 bytes. -/
structure BlkReq where
  type : BlkType
  reserved : ℕ
  sector : BitVec 64
deriving DecidableEq

/-- An entry of `disk.info`. -/
structure Info (β : Type*) where
  b : Option β
  status : BitVec 8

/-- `disk`, without its lock, and the pages of the two rings. -/
structure Disk (β : Type*) where
  desc : ℕ → Desc β
  availRing : ℕ → ℕ
  availIdx : BitVec 16
  usedRing : ℕ → ℕ
  /-- `disk.used->idx`, which the device moves. -/
  usedRingIdx : BitVec 16
  free : ℕ → Bool
  /-- `disk.used_idx`: up to here the driver has looked. -/
  usedIdx : BitVec 16
  info : ℕ → Info β
  ops : ℕ → BlkReq

/-- What a call of `virtio_disk_rw` is for; `blockno` is that of the buffer. -/
structure Call (β : Type*) where
  b : β
  blockno : BitVec 32
  write : Bool
deriving DecidableEq

/-- `b->blockno * (BSIZE / 512)`, which is computed in 32 bits. -/
def Call.sector {β : Type*} (c : Call β) : BitVec 64 := (c.blockno * 2).setWidth 64

structure Transfer (β : Type*) where
  write : Bool
  sector : BitVec 64
  b : β
deriving DecidableEq

def Call.transfer {β : Type*} (c : Call β) : Transfer β := ⟨c.write, c.sector, c.b⟩

/-- `int idx[3]`. -/
structure Idx where
  i0 : ℕ
  i1 : ℕ
  i2 : ℕ
deriving DecidableEq

def Idx.list (x : Idx) : List ℕ := [x.i0, x.i1, x.i2]

@[simp] theorem Idx.mem_list {x : Idx} {j : ℕ} :
    j ∈ x.list ↔ j = x.i0 ∨ j = x.i1 ∨ j = x.i2 := by simp [Idx.list]

theorem Idx.nodup_list {x : Idx} : x.list.Nodup ↔ x.i0 ≠ x.i1 ∧ x.i0 ≠ x.i2 ∧ x.i1 ≠ x.i2 := by
  simp [Idx.list, and_assoc]

variable {β : Type*}

/-! ## The descriptors -/

def Disk.mark (d : Disk β) (i : ℕ) : Disk β := { d with free := update d.free i false }

def Disk.unmark (d : Disk β) (i : ℕ) : Disk β :=
  { d with
    desc := update d.desc i ⟨.null, 0, 0, 0⟩
    free := update d.free i true }

section Marks

variable (d : Disk β) (i j : ℕ)

@[simp, grind =] theorem Disk.mark_desc : (d.mark i).desc j = d.desc j := rfl

@[simp, grind =] theorem Disk.mark_free :
    (d.mark i).free j = if j = i then false else d.free j := update_apply ..

@[simp, grind =] theorem Disk.unmark_desc :
    (d.unmark i).desc j = if j = i then ⟨.null, 0, 0, 0⟩ else d.desc j := update_apply ..

@[simp, grind =] theorem Disk.unmark_free :
    (d.unmark i).free j = if j = i then true else d.free j := update_apply ..

end Marks

def allocDesc (d : Disk β) : Option (ℕ × Disk β) :=
  ((List.range num).find? d.free).map fun i => (i, d.mark i)

/-- `free_desc`. Those who wait for a descriptor may wake up at any time. -/
def freeDesc (i : ℕ) (d : Disk β) : Except Panic (Disk β) :=
  if num ≤ i then .error .freeDesc1
  else if d.free i then .error .freeDesc2
  else .ok (d.unmark i)

/-- `free_chain`. A round that goes on has freed a descriptor that was not free, so that there can
be no more than `num` of them before a panic. -/
def freeChain : ℕ → ℕ → Disk β → Except Panic (Disk β)
  | 0, _, d => .ok d
  | rounds + 1, i, d =>
    let flag := (d.desc i).flags
    let nxt := (d.desc i).next
    do
      let d ← freeDesc i d
      if flag &&& fNext ≠ 0 then freeChain rounds nxt d else .ok d

/-- `alloc3_desc`, with its three rounds written out. -/
def alloc3Desc (d : Disk β) : Except Panic (Option Idx × Disk β) :=
  match allocDesc d with
  | none => .ok (none, d)
  | some (i0, d1) =>
    match allocDesc d1 with
    | none => do
      let d ← freeDesc i0 d1
      .ok (none, d)
    | some (i1, d2) =>
      match allocDesc d2 with
      | none => do
        let d ← freeDesc i0 d2
        let d ← freeDesc i1 d
        .ok (none, d)
      | some (i2, d3) => .ok (some ⟨i0, i1, i2⟩, d3)

theorem allocDesc_eq_some {d d' : Disk β} {i : ℕ} (h : allocDesc d = some (i, d')) :
    i < num ∧ d.free i = true ∧ d' = d.mark i := by
  obtain ⟨j, hj, heq⟩ := Option.map_eq_some_iff.mp h
  cases heq
  exact ⟨List.mem_range.mp (List.mem_of_find?_eq_some hj), List.find?_some hj, rfl⟩

theorem freeDesc_eq {d : Disk β} {i : ℕ} (hi : i < num) (hfree : d.free i = false) :
    freeDesc i d = .ok (d.unmark i) := by
  rw [freeDesc, if_neg (Nat.not_le.mpr hi), if_neg (by simp [hfree])]

/-- What `alloc3_desc` leaves: if it fails, the same descriptors are free, and those that are not
are untouched; otherwise three that were free are not. -/
inductive Alloc3 (d : Disk β) : Option Idx × Disk β → Prop
  | fail (desc : ℕ → Desc β) : (∀ j, d.free j = false → desc j = d.desc j) →
    Alloc3 d (none, { d with desc := desc })
  | ok (x : Idx) : x.list.Nodup → (∀ j ∈ x.list, j < num ∧ d.free j = true) →
    Alloc3 d (some x, { d with free := fun j => d.free j && !decide (j ∈ x.list) })

theorem alloc3Desc_spec (d : Disk β) : ∃ r, alloc3Desc d = .ok r ∧ Alloc3 d r := by
  unfold alloc3Desc
  cases h0 : allocDesc d with
  | none => exact ⟨_, rfl, .fail d.desc fun j _ => rfl⟩
  | some r0 =>
    obtain ⟨i0, d1⟩ := r0
    obtain ⟨hi0, hf0, rfl⟩ := allocDesc_eq_some h0
    cases h1 : allocDesc (d.mark i0) with
    | none =>
      have hfree : ((d.mark i0).unmark i0).free = d.free := by
        funext j
        grind
      refine ⟨(none, (d.mark i0).unmark i0), ?_, ?_⟩
      · simp only [h1]
        rw [freeDesc_eq hi0 (by simp)]
        rfl
      · have heq : (d.mark i0).unmark i0 = { d with desc := ((d.mark i0).unmark i0).desc } := by
          rw [← hfree]
          rfl
        rw [heq]
        exact .fail _ fun j hj => by grind
    | some r1 =>
      obtain ⟨i1, d2⟩ := r1
      obtain ⟨hi1, hf1, rfl⟩ := allocDesc_eq_some h1
      have h01 : i1 ≠ i0 := by
        rintro rfl
        simp at hf1
      rw [Disk.mark_free, if_neg h01] at hf1
      cases h2 : allocDesc ((d.mark i0).mark i1) with
      | none =>
        have hfree : ((((d.mark i0).mark i1).unmark i0).unmark i1).free = d.free := by
          funext j
          grind
        refine ⟨(none, (((d.mark i0).mark i1).unmark i0).unmark i1), ?_, ?_⟩
        · simp only [h1, h2]
          rw [freeDesc_eq hi0 (by simp)]
          simp only [bind, Except.bind]
          rw [freeDesc_eq hi1 (by simp [h01])]
        · have heq : (((d.mark i0).mark i1).unmark i0).unmark i1 =
              { d with desc := ((((d.mark i0).mark i1).unmark i0).unmark i1).desc } := by
            rw [← hfree]
            rfl
          rw [heq]
          exact .fail _ fun j hj => by grind
      | some r2 =>
        obtain ⟨i2, d3⟩ := r2
        obtain ⟨hi2, hf2, rfl⟩ := allocDesc_eq_some h2
        have h12 : i2 ≠ i1 := by
          rintro rfl
          simp at hf2
        have h02 : i2 ≠ i0 := by
          rintro rfl
          simp at hf2
        rw [Disk.mark_free, if_neg h12, Disk.mark_free, if_neg h02] at hf2
        have hfree : (((d.mark i0).mark i1).mark i2).free =
            fun j => d.free j && !decide (j ∈ (Idx.mk i0 i1 i2).list) := by
          funext j
          grind [Idx.mem_list]
        refine ⟨(some ⟨i0, i1, i2⟩, ((d.mark i0).mark i1).mark i2), by simp only [h1, h2], ?_⟩
        have heq : ((d.mark i0).mark i1).mark i2 =
            { d with free := fun j => d.free j && !decide (j ∈ (Idx.mk i0 i1 i2).list) } := by
          rw [← hfree]
          rfl
        rw [heq]
        refine .ok _ (Idx.nodup_list.mpr ⟨h01.symm, h02.symm, h12.symm⟩) fun j hj => ?_
        rcases Idx.mem_list.mp hj with rfl | rfl | rfl
        · exact ⟨hi0, hf0⟩
        · exact ⟨hi1, hf1⟩
        · exact ⟨hi2, hf2⟩

/-! ## A request in memory -/

/-- The driver writes the header, the three descriptors, and the entry of `info`. -/
def Disk.format (d : Disk β) (c : Call β) (x : Idx) : Disk β :=
  { d with
    ops := update d.ops x.i0 ⟨if c.write then .write else .read, 0, c.sector⟩
    desc := update (update (update d.desc x.i0 ⟨.ops x.i0, 16, fNext, x.i1⟩)
        x.i1 ⟨.data c.b, bsize, (if c.write then 0 else fWrite) ||| fNext, x.i2⟩)
        x.i2 ⟨.status x.i0, 1, fWrite, 0⟩
    info := update d.info x.i0 ⟨some c.b, 0xff⟩ }

/-- The memory of a request holds what the call has written there. -/
structure Disk.Holds (d : Disk β) (c : Call β) (x : Idx) : Prop where
  ops : d.ops x.i0 = ⟨if c.write then .write else .read, 0, c.sector⟩
  header : d.desc x.i0 = ⟨.ops x.i0, 16, fNext, x.i1⟩
  data : d.desc x.i1 = ⟨.data c.b, bsize, (if c.write then 0 else fWrite) ||| fNext, x.i2⟩
  status : d.desc x.i2 = ⟨.status x.i0, 1, fWrite, 0⟩
  b : (d.info x.i0).b = some c.b

/-- The transfer that the chain from a head says, if it is the chain of a request: a header, a block
of data for the device to read or to write as the header says, and a byte for the status. -/
def Disk.transfer (d : Disk β) (head : ℕ) : Option (Transfer β) :=
  let d0 := d.desc head
  let d1 := d.desc d0.next
  let d2 := d.desc d1.next
  match d0.addr, d1.addr, d2.addr with
  | .ops i, .data b, .status _ =>
    if d0.len = 16 ∧ d1.len = bsize ∧ d2.len = 1 ∧ d0.flags = fNext ∧ d2.flags = fWrite then
      match (d.ops i).type with
      | .write => if d1.flags = fNext then some ⟨true, (d.ops i).sector, b⟩ else none
      | .read => if d1.flags = fWrite ||| fNext then some ⟨false, (d.ops i).sector, b⟩ else none
    else none
  | _, _, _ => none

/-- The device writes 0 where the last descriptor of the chain says. -/
def Disk.succeed (d : Disk β) (head : ℕ) : Disk β :=
  match (d.desc (d.desc (d.desc head).next).next).addr with
  | .status i => { d with info := update d.info i { d.info i with status := 0 } }
  | _ => d

namespace Disk.Holds

variable {d d' : Disk β} {c : Call β} {x : Idx}

theorem format (hx : x.list.Nodup) : (d.format c x).Holds c x := by
  obtain ⟨h01, h02, h12⟩ := Idx.nodup_list.mp hx
  constructor <;> simp [Disk.format, update_of_ne, h01, h02, h12]

theorem transfer (h : d.Holds c x) : d.transfer x.i0 = some c.transfer := by
  unfold Disk.transfer
  rw [h.header]
  dsimp only
  rw [h.data]
  dsimp only
  rw [h.status]
  dsimp only
  rw [if_pos ⟨rfl, rfl, rfl, rfl, rfl⟩, h.ops]
  cases hw : c.write <;> simp [Call.transfer, hw]

theorem succeed (h : d.Holds c x) : d.succeed x.i0 =
    { d with info := update d.info x.i0 { d.info x.i0 with status := 0 } } := by
  unfold Disk.succeed
  rw [h.header]
  dsimp only
  rw [h.data]
  dsimp only
  rw [h.status]

theorem same (h : d.Holds c x) (hdesc : ∀ j ∈ x.list, d'.desc j = d.desc j)
    (hops : d'.ops x.i0 = d.ops x.i0) (hb : (d'.info x.i0).b = (d.info x.i0).b) :
    d'.Holds c x where
  ops := hops.trans h.ops
  header := (hdesc _ (by simp)).trans h.header
  data := (hdesc _ (by simp)).trans h.data
  status := (hdesc _ (by simp)).trans h.status
  b := hb.trans h.b

end Disk.Holds

/-- `disk.info[idx[0]].b = 0`. -/
@[simps] def Disk.forget (d : Disk β) (x : Idx) : Disk β :=
  { d with info := update d.info x.i0 { d.info x.i0 with b := none } }

theorem freeChain_spec {d : Disk β} {c : Call β} {x : Idx} (h : d.Holds c x) (hx : x.list.Nodup)
    (hused : ∀ j ∈ x.list, j < num ∧ d.free j = false) :
    freeChain (num + 1) x.i0 (d.forget x) = .ok { d.forget x with
      desc := fun j => if j ∈ x.list then ⟨.null, 0, 0, 0⟩ else d.desc j
      free := fun j => d.free j || decide (j ∈ x.list) } := by
  obtain ⟨h01, h02, h12⟩ := Idx.nodup_list.mp hx
  have hf0 := hused x.i0 (by simp)
  have hf1 := hused x.i1 (by simp)
  have hf2 := hused x.i2 (by simp)
  have hn1 : fNext &&& fNext ≠ 0 := by decide
  have hn2 : ((if c.write then 0 else fWrite) ||| fNext) &&& fNext ≠ 0 := by
    cases c.write <;> decide
  have hn3 : ¬ fWrite &&& fNext ≠ 0 := by decide
  -- one round for each of the three
  have h1 : ((d.forget x).unmark x.i0).desc x.i1 = d.desc x.i1 := by
    simp [h01.symm]
  have h2 : (((d.forget x).unmark x.i0).unmark x.i1).desc x.i2 = d.desc x.i2 := by
    simp [h02.symm, h12.symm]
  have hround1 := freeDesc_eq (d := d.forget x) hf0.1 hf0.2
  have hround2 := freeDesc_eq (d := (d.forget x).unmark x.i0) hf1.1
    (by simpa [h01.symm] using hf1.2)
  have hround3 := freeDesc_eq (d := ((d.forget x).unmark x.i0).unmark x.i1) hf2.1
    (by simpa [h02.symm, h12.symm] using hf2.2)
  have hend : freeChain (num + 1) x.i0 (d.forget x) =
      .ok ((((d.forget x).unmark x.i0).unmark x.i1).unmark x.i2) := by
    rw [freeChain, Disk.forget_desc, h.header, hround1]
    simp only [bind, Except.bind]
    rw [if_pos hn1, freeChain, h1, h.data, hround2]
    simp only [bind, Except.bind]
    rw [if_pos hn2, freeChain, h2, h.status, hround3]
    simp only [bind, Except.bind]
    rw [if_neg hn3]
  rw [hend]
  have hdesc : ((((d.forget x).unmark x.i0).unmark x.i1).unmark x.i2).desc =
      fun j => if j ∈ x.list then ⟨.null, 0, 0, 0⟩ else d.desc j := by
    funext j
    simp only [Disk.unmark_desc, Disk.forget_desc]
    grind [Idx.mem_list]
  have hfree : ((((d.forget x).unmark x.i0).unmark x.i1).unmark x.i2).free =
      fun j => d.free j || decide (j ∈ x.list) := by
    funext j
    simp only [Disk.unmark_free, Disk.forget_free]
    grind [Idx.mem_list]
  rw [← hdesc, ← hfree]
  rfl

/-! ## The system -/

/-- The device: up to where it has taken heads from the `avail` ring, how many they were, those that
are to be performed and those to be completed, with their numbers, and what it has performed. -/
structure Device (β : Type*) where
  next : BitVec 16
  fetched : ℕ
  todo : List (ℕ × ℕ)
  finished : List (ℕ × ℕ)
  log : List (ℕ × Option (Transfer β))

namespace Device

/-- A head is taken from the `avail` ring. -/
@[simps] def fetch (dev : Device β) (head : ℕ) : Device β :=
  { dev with
    next := dev.next + 1
    fetched := dev.fetched + 1
    todo := dev.todo ++ [(dev.fetched, head)] }

@[simps] def perform (dev : Device β) (e : ℕ × ℕ) (t : Option (Transfer β)) : Device β :=
  { dev with
    todo := dev.todo.erase e
    finished := dev.finished ++ [e]
    log := dev.log ++ [(e.1, t)] }

/-- A head is put on the `used` ring. -/
@[simps] def complete (dev : Device β) (e : ℕ × ℕ) : Device β :=
  { dev with finished := dev.finished.erase e }

end Device

inductive Pc (β : Type*)
  | idle
  /-- At the start of `virtio_disk_rw`. -/
  | start (c : Call β)
  /-- At `alloc3_desc`. -/
  | alloc (c : Call β)
  /-- Asleep on `disk.free[0]`. -/
  | noDesc (c : Call β)
  | format (c : Call β) (x : Idx)
  /-- At the store to `disk.avail->ring`. -/
  | offer (c : Call β) (x : Idx)
  /-- At `disk.avail->idx += 1`. -/
  | publish (c : Call β) (x : Idx)
  /-- At `while(b->disk == 1)`, as request `k`. -/
  | wait (c : Call β) (x : Idx) (k : ℕ)
  /-- Asleep on `b`. -/
  | asleep (c : Call β) (x : Idx) (k : ℕ)
  | finish (c : Call β) (x : Idx) (k : ℕ)
  /-- At the end of `virtio_disk_rw`. -/
  | ret (c : Call β) (k : ℕ)
  /-- At the start of `virtio_disk_intr`. -/
  | intr
  /-- At `while(disk.used_idx != disk.used->idx)`. -/
  | check
  | take
  /-- At the end of `virtio_disk_intr`. -/
  | intrRet
deriving DecidableEq

/-- Where a thread goes on when it has taken the lock. -/
def Pc.locked : Pc β → Option (Pc β)
  | .start c | .noDesc c => some (.alloc c)
  | .asleep c x k => some (.wait c x k)
  | .intr => some .check
  | _ => none

structure Sys (ι β : Type*) where
  disk : Disk β
  dev : Device β
  /-- `b->disk`. -/
  busy : β → Bool
  /-- The holder of `b->lock`. -/
  bufLock : β → Option ι
  /-- The holder of `disk.vdisk_lock`. -/
  vdiskLock : Option ι
  pc : ι → Pc β
  /-- The number of heads put on the `avail` ring. -/
  made : ℕ
  panic : Option Panic

inductive Act (ι β : Type*)
  | acquireBuf (i : ι) (b : β)
  | releaseBuf (i : ι) (b : β)
  /-- The holder of the buffer's lock calls `virtio_disk_rw`. -/
  | call (i : ι) (c : Call β)
  /-- An interrupt: `virtio_disk_intr` is called. -/
  | intr (i : ι)
  /-- A thread takes `disk.vdisk_lock`, at the start or when it has woken up. -/
  | acquire (i : ι)
  /-- The next step of the holder of `disk.vdisk_lock`. -/
  | next (i : ι)
  /-- The device takes a head from the `avail` ring. -/
  | fetch
  | perform (e : ℕ × ℕ)
  /-- The device puts a head on the `used` ring. -/
  | complete (e : ℕ × ℕ)

namespace Sys

variable {ι : Type*} [DecidableEq ι] [DecidableEq β]

/-- The thread goes on at `pc`. -/
@[simps] def goto (s : Sys ι β) (i : ι) (pc : Pc β) : Sys ι β := { s with pc := update s.pc i pc }

/-- The thread goes on at `pc` without the lock. -/
@[simps] def yield (s : Sys ι β) (i : ι) (pc : Pc β) : Sys ι β :=
  { s with pc := update s.pc i pc, vdiskLock := none }

/-- `alloc3_desc` in its loop. -/
def alloc (s : Sys ι β) (i : ι) (c : Call β) : Sys ι β :=
  match alloc3Desc s.disk with
  | .error p => { s with panic := some p }
  | .ok (none, d) => { s with disk := d }.yield i (.noDesc c)
  | .ok (some x, d) => { s with disk := d }.goto i (.format c x)

/-- The end of `virtio_disk_rw`: `disk.info[idx[0]].b = 0; free_chain(idx[0])`. -/
def finish (s : Sys ι β) (i : ι) (c : Call β) (x : Idx) (k : ℕ) : Sys ι β :=
  match freeChain (num + 1) x.i0 (s.disk.forget x) with
  | .error p => { s with panic := some p }
  | .ok d => { s with disk := d }.goto i (.ret c k)

/-- The body of the loop of `virtio_disk_intr`. -/
def take (s : Sys ι β) (i : ι) : Sys ι β :=
  let id := s.disk.usedRing (s.disk.usedIdx.toNat % num)
  if (s.disk.info id).status ≠ 0 then { s with panic := some .intrStatus }
  else
    match (s.disk.info id).b with
    | none => { s with panic := some .nullBuf }
    | some b =>
      { s with
        busy := update s.busy b false
        disk := { s.disk with usedIdx := s.disk.usedIdx + 1 } }.goto i .check

/-- The next step of a thread that has the lock. -/
def advance (s : Sys ι β) (i : ι) : Pc β → Option (Sys ι β)
  | .alloc c => some (s.alloc i c)
  | .format c x =>
    some ({ s with
      disk := s.disk.format c x
      busy := update s.busy c.b true }.goto i (.offer c x))
  | .offer c x =>
    some ({ s with
      disk := { s.disk with
        availRing := update s.disk.availRing (s.disk.availIdx.toNat % num) x.i0 } }.goto i
        (.publish c x))
  | .publish c x =>
    some ({ s with
      disk := { s.disk with availIdx := s.disk.availIdx + 1 }
      made := s.made + 1 }.goto i (.wait c x s.made))
  | .wait c x k =>
    some (if s.busy c.b then s.yield i (.asleep c x k) else s.goto i (.finish c x k))
  | .finish c x k => some (s.finish i c x k)
  | .ret _ _ => some (s.yield i .idle)
  | .check =>
    some (s.goto i (if s.disk.usedIdx ≠ s.disk.usedRingIdx then .take else .intrRet))
  | .take => some (s.take i)
  | .intrRet => some (s.yield i .idle)
  | _ => none

def step (s : Sys ι β) : Act ι β → Option (Sys ι β)
  | .acquireBuf i b =>
    if s.pc i = .idle ∧ s.bufLock b = none then
      some { s with bufLock := update s.bufLock b (some i) }
    else none
  | .releaseBuf i b =>
    if s.pc i = .idle ∧ s.bufLock b = some i then
      some { s with bufLock := update s.bufLock b none }
    else none
  | .call i c =>
    if s.pc i = .idle ∧ s.bufLock c.b = some i then some (s.goto i (.start c)) else none
  | .intr i => if s.pc i = .idle then some (s.goto i .intr) else none
  | .acquire i =>
    if s.vdiskLock = none then
      (s.pc i).locked.map fun pc => { s with vdiskLock := some i }.goto i pc
    else none
  | .next i => s.advance i (s.pc i)
  | .fetch =>
    if s.dev.next ≠ s.disk.availIdx then
      some { s with dev := s.dev.fetch (s.disk.availRing (s.dev.next.toNat % num)) }
    else none
  | .perform e =>
    if e ∈ s.dev.todo then
      some { s with
        dev := s.dev.perform e (s.disk.transfer e.2)
        disk := s.disk.succeed e.2 }
    else none
  | .complete e =>
    if e ∈ s.dev.finished then
      some { s with
        dev := s.dev.complete e
        disk := { s.disk with
          usedRing := update s.disk.usedRing (s.disk.usedRingIdx.toNat % num) e.2
          usedRingIdx := s.disk.usedRingIdx + 1 } }
    else none

/-- After `virtio_disk_init`, with no thread in the driver. -/
def boot : Sys ι β where
  disk :=
    { desc := fun _ => ⟨.null, 0, 0, 0⟩
      availRing := fun _ => 0
      availIdx := 0
      usedRing := fun _ => 0
      usedRingIdx := 0
      free := fun i => decide (i < num)
      usedIdx := 0
      info := fun _ => ⟨none, 0⟩
      ops := fun _ => ⟨.read, 0, 0⟩ }
  dev := ⟨0, 0, [], [], []⟩
  busy := fun _ => false
  bufLock := fun _ => none
  vdiskLock := none
  pc := fun _ => .idle
  made := 0
  panic := none

end Sys

def virtio (ι β : Type*) [DecidableEq ι] [DecidableEq β] : LTS (Sys ι β) (Act ι β) where
  init s := s = .boot
  step s a s' := s.step a = some s'

end Xv6.Virtio
