import Mathlib.Data.Fintype.Basic
import Mathlib.Tactic.Simps.Basic
import Xv6.Fs.Inode
import Xv6.Lib.Handles
import Xv6.Lib.Transition

/-!
# The inode table under concurrency

Any number of processes get, duplicate, lock, unlock and put references to inodes, and allocate
inodes. A critical section on `itable.lock` is one step. `iput` gives up that lock when it frees an
inode, and goes on in three steps: it clears the inode on disk, marks the entry invalid and releases
its sleep lock, and drops the reference. `ialloc` looks at one inode at a time, and gets its
reference to the one it has claimed in a step of its own. The holder of a sleep lock changes the
inode in memory and, with `iupdate`, on disk. `ι` numbers the references of processes.
-/

namespace Xv6.Fs

open Function Option

namespace Inodes

structure Key where
  dev : ℕ
  inum : ℕ
deriving DecidableEq

/-- `struct inode`, with the owner of its sleep lock. -/
structure Slot (ι : Type*) where
  key : Key
  ref : ℕ
  lock : Option ι
  valid : Bool
  ino : Dinode

/-- Where a reference stands: not in use; in the loop of `ialloc`, or between its claim and its
`iget`; got from `ialloc` and not yet locked; got; locked; or in `iput` before the inode is cleared,
after that, and before the reference is dropped. -/
inductive Pc
  | idle
  | scanning (k : Key) (t : FileType)
  | claimed (k : Key) (t : FileType)
  | fresh (e : Fin ninode) (t : FileType)
  | ref (e : Fin ninode)
  | locked (e : Fin ninode)
  | freeing (e : Fin ninode)
  | cleared (e : Fin ninode)
  | dropping (e : Fin ninode)
deriving DecidableEq

def Pc.target : Pc → Option (Fin ninode)
  | .idle | .scanning _ _ | .claimed _ _ => none
  | .fresh e _ | .ref e | .locked e | .freeing e | .cleared e | .dropping e => some e

def Pc.locks : Pc → Option (Fin ninode)
  | .locked e | .freeing e | .cleared e => some e
  | _ => none

variable {e : Fin ninode} {pc : Pc}

theorem Pc.locks_eq_none (h : pc.target = none) : pc.locks = none := by
  cases pc <;> first | rfl | cases h

theorem Pc.target_of_locks (h : pc.locks = some e) : pc.target = some e := by
  cases pc <;> first | exact h | cases h

theorem Pc.not_ialloc (h : pc.target = some e) (k : Key) (t : FileType) :
    ¬(pc = .scanning k t ∨ pc = .claimed k t) := by
  rintro (rfl | rfl) <;> cases h

theorem Pc.not_held (h : pc.locks = none) (e : Fin ninode) :
    pc ≠ .freeing e ∧ pc ≠ .locked e ∧ pc ≠ .cleared e := by
  refine ⟨?_, ?_, ?_⟩ <;> rintro rfl <;> cases h

/-- The table, the inodes on disk, and where the references stand. -/
structure Itable (ι : Type*) where
  slot : Fin ninode → Slot ι
  disk : Key → Dinode
  pc : ι → Pc

/-- An inode that `ialloc` has claimed. -/
def allocated (t : FileType) : Dinode := { Dinode.zero with type := t }

/-- What `iput` leaves of an inode: `itrunc`, and `ip->type = 0`. -/
def freed (d : Dinode) : Dinode := { d with type := .free, size := 0, addrs := fun _ => 0 }

variable {ι : Type*} [DecidableEq ι] {s : Itable ι} {ninodes : ℕ}

/-- What the loop of `iget` comes to: the inode is in the table, or there is a free entry, or
none. -/
inductive Found
  | hit (e : Fin ninode)
  | empty (e : Fin ninode)
  | full

/-- The loop of `iget` over the entries, with the first free one so far. -/
def igetScan (slot : Fin ninode → Slot ι) (k : Key) :
    List (Fin ninode) → Option (Fin ninode) → Found
  | [], some e => .empty e
  | [], none => .full
  | e :: es, empty =>
    if 0 < (slot e).ref ∧ (slot e).key = k then .hit e
    else igetScan slot k es (if empty = none ∧ (slot e).ref = 0 then some e else empty)

namespace Itable

/-- The reference goes on at `pc`. -/
@[simps] def goto (s : Itable ι) (h : ι) (pc : Pc) : Itable ι :=
  { s with pc := Function.update s.pc h pc }

@[simps] def setSlot (s : Itable ι) (e : Fin ninode) (x : Slot ι) : Itable ι :=
  { s with slot := Function.update s.slot e x }

@[simps] def setDisk (s : Itable ι) (k : Key) (d : Dinode) : Itable ι :=
  { s with disk := Function.update s.disk k d }

/-- `iget`; it panics if the table is full. -/
def iget (s : Itable ι) (h : ι) (k : Key) (q : Fin ninode → Pc) : Option (Itable ι) :=
  match igetScan s.slot k (List.finRange ninode) none with
  | .hit e => some ((s.setSlot e { s.slot e with ref := (s.slot e).ref + 1 }).goto h (q e))
  | .empty e =>
    some ((s.setSlot e { s.slot e with key := k, ref := 1, valid := false }).goto h (q e))
  | .full => none

/-- `idup`, into a reference that is not in use. -/
def idup (s : Itable ι) (e : Fin ninode) (h' : ι) : Itable ι :=
  (s.setSlot e { s.slot e with ref := (s.slot e).ref + 1 }).goto h' (.ref e)

/-- A round of the loop of `ialloc`, over `ninodes` inodes. -/
def iallocRound (ninodes : ℕ) (s : Itable ι) (h : ι) (k : Key) (t : FileType) : Itable ι :=
  if k.inum < ninodes then
    if (s.disk k).type = .free then (s.setDisk k (allocated t)).goto h (.claimed k t)
    else s.goto h (.scanning { k with inum := k.inum + 1 } t)
  else s.goto h .idle

/-- `ilock`, if the sleep lock is free; it panics if the inode has no type. -/
def ilock (s : Itable ι) (h : ι) (e : Fin ninode) : Option (Itable ι) :=
  let x := s.slot e
  if x.lock = none then
    if x.valid then some ((s.setSlot e { x with lock := some h }).goto h (.locked e))
    else if (s.disk x.key).type = .free then none
    else
      some ((s.setSlot e { x with lock := some h, valid := true, ino := s.disk x.key }).goto h
        (.locked e))
  else none

/-- The holder changes the fields of the inode, and writes them with `iupdate`. The type of an inode
is not changed. -/
def update (s : Itable ι) (e : Fin ninode) (d : Dinode) : Itable ι :=
  let x := s.slot e
  let d := { d with type := x.ino.type }
  (s.setSlot e { x with ino := d }).setDisk x.key d

def iunlock (s : Itable ι) (h : ι) (e : Fin ninode) : Itable ι :=
  (s.setSlot e { s.slot e with lock := none }).goto h (.ref e)

/-- The end of `iput`: `ip->ref--`. -/
def drop (s : Itable ι) (h : ι) (e : Fin ninode) : Itable ι :=
  (s.setSlot e { s.slot e with ref := (s.slot e).ref - 1 }).goto h .idle

/-- `iput` until it gives up `itable.lock`. If it has to free the inode it takes the sleep lock, for
which it would wait with `itable.lock` held. -/
def iput (s : Itable ι) (h : ι) (e : Fin ninode) : Option (Itable ι) :=
  let x := s.slot e
  if x.ref = 1 ∧ x.valid = true ∧ x.ino.nlink = 0 then
    if x.lock = none then some ((s.setSlot e { x with lock := some h }).goto h (.freeing e))
    else none
  else some (s.drop h e)

/-- `itrunc(ip); ip->type = 0; iupdate(ip)`. -/
def clear (s : Itable ι) (h : ι) (e : Fin ninode) : Itable ι :=
  let x := s.slot e
  ((s.setSlot e { x with ino := freed x.ino }).setDisk x.key (freed x.ino)).goto h (.cleared e)

/-- `ip->valid = 0; releasesleep(&ip->lock)`. -/
def invalidate (s : Itable ι) (h : ι) (e : Fin ninode) : Itable ι :=
  (s.setSlot e { s.slot e with valid := false, lock := none }).goto h (.dropping e)

/-- The next step inside `ialloc` or `iput`. -/
def advance (ninodes : ℕ) (s : Itable ι) (h : ι) : Pc → Option (Itable ι)
  | .scanning k t => some (s.iallocRound ninodes h k t)
  | .claimed k t => s.iget h k (.fresh · t)
  | .freeing e => some (s.clear h e)
  | .cleared e => some (s.invalidate h e)
  | .dropping e => some (s.drop h e)
  | _ => none

end Itable

/-- The events: the calls, and the next step inside of one. `ialloc` is called with one of the types
of a file, and its caller first locks the inode that it returns. -/
inductive Event (ι : Type*)
  | iget (h : ι) (k : Key)
  | idup (h h' : ι)
  | ialloc (h : ι) (dev : ℕ) (t : FileType)
  | step (h : ι)
  | ilock (h : ι)
  | update (h : ι) (d : Dinode)
  | iunlock (h : ι)
  | iput (h : ι)

def Event.run (ninodes : ℕ) (s : Itable ι) : Event ι → Option (Itable ι)
  | .iget h k => if s.pc h = .idle then s.iget h k .ref else none
  | .idup h h' =>
    match s.pc h with
    | .ref e | .locked e => if s.pc h' = .idle then some (s.idup e h') else none
    | _ => none
  | .ialloc h dev t =>
    if s.pc h = .idle ∧ t ≠ .free then some (s.goto h (.scanning ⟨dev, 1⟩ t)) else none
  | .step h => s.advance ninodes h (s.pc h)
  | .ilock h =>
    match s.pc h with
    | .ref e | .fresh e _ => s.ilock h e
    | _ => none
  | .update h d =>
    match s.pc h with
    | .locked e => some (s.update e d)
    | _ => none
  | .iunlock h =>
    match s.pc h with
    | .locked e => some (s.iunlock h e)
    | _ => none
  | .iput h =>
    match s.pc h with
    | .ref e => s.iput h e
    | _ => none

def Itable.initial (disk : Key → Dinode) : Itable ι :=
  ⟨fun _ => ⟨⟨0, 0⟩, 0, none, false, Dinode.zero⟩, disk, fun _ => .idle⟩

/-- The inode table over a disk on which free inodes have no links. -/
def itableSystem (ninodes : ℕ) : LTS (Itable ι) (Event ι) where
  init s := ∃ disk : Key → Dinode, (∀ k, (disk k).type = .free → (disk k).nlink = 0) ∧
    s = .initial disk
  step s e s' := e.run ninodes s = some s'

inductive Event.Does (ninodes : ℕ) (s : Itable ι) : Event ι → Itable ι → Prop
  | iget {h k s'} (pc : s.pc h = .idle) (run : s.iget h k .ref = some s') :
    Does ninodes s (.iget h k) s'
  | idup {h h' e} (pc : s.pc h = .ref e ∨ s.pc h = .locked e) (idle : s.pc h' = .idle) :
    Does ninodes s (.idup h h') (s.idup e h')
  | ialloc {h dev t} (pc : s.pc h = .idle) (typed : t ≠ .free) :
    Does ninodes s (.ialloc h dev t) (s.goto h (.scanning ⟨dev, 1⟩ t))
  | round {h k t} (pc : s.pc h = .scanning k t) :
    Does ninodes s (.step h) (s.iallocRound ninodes h k t)
  | claimed {h k t s'} (pc : s.pc h = .claimed k t) (run : s.iget h k (.fresh · t) = some s') :
    Does ninodes s (.step h) s'
  | clear {h e} (pc : s.pc h = .freeing e) : Does ninodes s (.step h) (s.clear h e)
  | invalidate {h e} (pc : s.pc h = .cleared e) : Does ninodes s (.step h) (s.invalidate h e)
  | drop {h e} (pc : s.pc h = .dropping e) : Does ninodes s (.step h) (s.drop h e)
  | ilock {h e s'} (pc : s.pc h = .ref e ∨ ∃ t, s.pc h = .fresh e t)
    (run : s.ilock h e = some s') : Does ninodes s (.ilock h) s'
  | update {h e d} (pc : s.pc h = .locked e) : Does ninodes s (.update h d) (s.update e d)
  | iunlock {h e} (pc : s.pc h = .locked e) : Does ninodes s (.iunlock h) (s.iunlock h e)
  | iput {h e s'} (pc : s.pc h = .ref e) (run : s.iput h e = some s') :
    Does ninodes s (.iput h) s'

theorem Event.run_does {s' : Itable ι} {ev : Event ι} (hs : ev.run ninodes s = some s') :
    Event.Does ninodes s ev s' := by
  cases ev with
  | iget h k =>
    rw [run, ite_none_right_eq_some] at hs
    exact .iget hs.1 hs.2
  | idup h h' =>
    cases hp : s.pc h with
    | ref e =>
      simp only [run, hp, ite_none_right_eq_some, some.injEq] at hs
      exact hs.2 ▸ .idup (.inl hp) hs.1
    | locked e =>
      simp only [run, hp, ite_none_right_eq_some, some.injEq] at hs
      exact hs.2 ▸ .idup (.inr hp) hs.1
    | _ => simp [run, hp] at hs
  | ialloc h dev t =>
    rw [run, ite_none_right_eq_some] at hs
    exact some.inj hs.2 ▸ .ialloc hs.1.1 hs.1.2
  | step h =>
    rw [run] at hs
    cases hp : s.pc h with
    | scanning k t => exact some.inj (hp ▸ hs) ▸ .round hp
    | claimed k t =>
      rw [hp] at hs
      exact .claimed hp hs
    | freeing e => exact some.inj (hp ▸ hs) ▸ .clear hp
    | cleared e => exact some.inj (hp ▸ hs) ▸ .invalidate hp
    | dropping e => exact some.inj (hp ▸ hs) ▸ .drop hp
    | idle | fresh | ref | locked =>
      rw [hp] at hs
      cases hs
  | ilock h =>
    rw [run] at hs
    split at hs
    · exact .ilock (.inl ‹_›) hs
    · exact .ilock (.inr ⟨_, ‹_›⟩) hs
    · cases hs
  | update h d =>
    rw [run] at hs
    split at hs
    · exact some.inj hs ▸ .update ‹_›
    · cases hs
  | iunlock h =>
    rw [run] at hs
    split at hs
    · exact some.inj hs ▸ .iunlock ‹_›
    · cases hs
  | iput h =>
    rw [run] at hs
    split at hs
    · exact .iput ‹_› hs
    · cases hs

/-! ### References, locks and fields -/

omit [DecidableEq ι] in
theorem igetScan_hit {slot : Fin ninode → Slot ι} {k : Key} {es : List (Fin ninode)}
    {empty : Option (Fin ninode)} (h : igetScan slot k es empty = .hit e) :
    0 < (slot e).ref ∧ (slot e).key = k := by
  induction es generalizing empty with
  | nil => cases empty <;> cases h
  | cons e' es ih =>
    rw [igetScan] at h
    split at h
    · rename_i hcond
      cases h
      exact hcond
    · exact ih h

omit [DecidableEq ι] in
/-- What the loop of `iget` finds free is free, and then no entry is in use for the inode. -/
theorem igetScan_empty {slot : Fin ninode → Slot ι} {k : Key} {es : List (Fin ninode)}
    {empty : Option (Fin ninode)} (hempty : ∀ e ∈ empty, (slot e).ref = 0)
    (h : igetScan slot k es empty = .empty e) :
    (slot e).ref = 0 ∧ ∀ e' ∈ es, 0 < (slot e').ref → (slot e').key ≠ k := by
  induction es generalizing empty with
  | nil =>
    cases empty with
    | none => cases h
    | some e' =>
      cases h
      exact ⟨hempty e rfl, by simp⟩
  | cons e' es ih =>
    rw [igetScan] at h
    split at h
    · cases h
    · rename_i hcond
      have hnext : ∀ x ∈ (if empty = none ∧ (slot e').ref = 0 then some e' else empty),
          (slot x).ref = 0 := by
        intro x hx
        split at hx
        · rename_i hfree
          exact some.inj hx ▸ hfree.2
        · exact hempty x hx
      obtain ⟨hfree, hrest⟩ := ih hnext h
      refine ⟨hfree, fun x hx hpos hkey => ?_⟩
      rcases List.mem_cons.mp hx with rfl | hx
      · exact hcond ⟨hpos, hkey⟩
      · exact hrest x hx hpos hkey

namespace Itable

variable [Fintype ι] {s s' : Itable ι} {h : ι} {e : Fin ninode} {k : Key}

/-- Every entry counts the references to it, and its sleep lock has its holder; an inode has one
entry in use; the fields of a valid entry are those on disk, except in the middle of `iput`; an
inode that `iput` is about to clear has no links, and the entry of a locked inode is valid. -/
structure Base (s : Itable ι) : Prop where
  count : ∀ e, (s.slot e).ref = Handles.count (Pc.target ∘ s.pc) e
  lock : Handles.Locked (Slot.lock ∘ s.slot) (Pc.locks ∘ s.pc)
  unique : ∀ e e', 0 < (s.slot e).ref → 0 < (s.slot e').ref → (s.slot e).key = (s.slot e').key →
    e = e'
  fields : ∀ e, 0 < (s.slot e).ref → (s.slot e).valid = true → (∀ h, s.pc h ≠ .cleared e) →
    (s.slot e).ino = s.disk (s.slot e).key ∧ (s.slot e).ino.type ≠ .free
  freeing : ∀ h e, s.pc h = .freeing e → (s.slot e).valid = true ∧ (s.slot e).ino.nlink = 0
  held : ∀ h e, s.pc h = .locked e → (s.slot e).valid = true
  typed : ∀ h k t, s.pc h = .scanning k t ∨ s.pc h = .claimed k t → t ≠ .free

namespace Base

variable (b : s.Base)

include b

omit [DecidableEq ι] in
theorem ref_pos (ht : (s.pc h).target = some e) : 0 < (s.slot e).ref := by
  rw [b.count]
  exact Handles.count_pos (f := Pc.target ∘ s.pc) ht

omit [DecidableEq ι] in
theorem not_cleared_of_lock (hl : (s.slot e).lock = none) (h : ι) : s.pc h ≠ .cleared e := by
  intro hp
  have hlock := (b.lock h e).mpr (congrArg Pc.locks hp)
  exact some_ne_none h (hlock.symm.trans hl)

omit [DecidableEq ι] in
/-- The fields of an inode whose sleep lock is held by a reference that has not cleared it. -/
theorem fields_of_locks (hl : (s.pc h).locks = some e) (hne : s.pc h ≠ .cleared e)
    (hv : (s.slot e).valid = true) :
    (s.slot e).ino = s.disk (s.slot e).key ∧ (s.slot e).ino.type ≠ .free := by
  refine b.fields e (b.ref_pos (Pc.target_of_locks hl)) hv fun h' hp => ?_
  obtain rfl := b.lock.eq_of_eq (h := h) (i := h') hl (congrArg Pc.locks hp)
  exact hne hp

variable {q : Pc}

theorem change {x : Slot ι} (hslot : s'.slot = Function.update s.slot e x)
    (hpc : s'.pc = Function.update s.pc h q) (hfrom : ∀ e', (s.pc h).target = some e' → e' = e)
    (hto : ∀ e', q.target = some e' → e' = e)
    (href : x.ref + (if (s.pc h).target = some e then 1 else 0) =
      (s.slot e).ref + if q.target = some e then 1 else 0)
    (hlock : Handles.Locked (Function.update (Slot.lock ∘ s.slot) e x.lock)
      (Function.update (Pc.locks ∘ s.pc) h q.locks))
    (hunique : 0 < (s.slot e).ref ∧ x.key = (s.slot e).key ∨
      ∀ e', 0 < (s.slot e').ref → (s.slot e').key ≠ x.key)
    (hdisk : ∀ e', e' ≠ e → 0 < (s.slot e').ref → s'.disk (s.slot e').key = s.disk (s.slot e').key)
    (hfields : x.valid = true → (∀ h', s'.pc h' ≠ .cleared e) →
      x.ino = s'.disk x.key ∧ x.ino.type ≠ .free)
    (hfreeing : ∀ h', s'.pc h' = .freeing e → x.valid = true ∧ x.ino.nlink = 0)
    (hheld : ∀ h', s'.pc h' = .locked e → x.valid = true)
    (htyped : ∀ k t, q = .scanning k t ∨ q = .claimed k t → t ≠ .free) : s'.Base := by
  obtain ⟨hself, hrest⟩ := eq_update_iff.mp hslot
  obtain ⟨hpself, hprest⟩ := eq_update_iff.mp hpc
  have hback : ∀ {h' r e'}, s'.pc h' = r → r.target = some e' → e' ≠ e → s.pc h' = r := by
    intro h' r e' hp hr he'
    by_cases hh' : h' = h
    · subst hh'
      exact absurd (hto e' (hpself.symm.trans hp ▸ hr)) he'
    · exact hprest h' hh' ▸ hp
  refine ⟨fun e' => ?_, ?_, fun e1 e2 h1 h2 heq => ?_, fun e' hpos hv hnot => ?_,
    fun h' e' hp => ?_, fun h' e' hp => ?_, fun h' k t hp => ?_⟩
  · have hcount := Handles.count_update (Pc.target ∘ s.pc) h q.target e'
    rw [← comp_update, ← hpc, Function.comp_apply] at hcount
    have hold := b.count e'
    by_cases he' : e' = e
    · subst he'
      rw [hself]
      omega
    · rw [if_neg fun ht => he' (hfrom e' ht), if_neg fun ht => he' (hto e' ht)] at hcount
      rw [hrest e' he']
      omega
  · rw [hslot, hpc, comp_update, comp_update]
    exact hlock
  · -- an entry in use is the changed one or was in use before
    by_cases he1 : e1 = e
    · by_cases he2 : e2 = e
      · rw [he1, he2]
      · rw [he1, hself, hrest e2 he2] at heq
        rw [hrest e2 he2] at h2
        rcases hunique with ⟨hpos, hkey⟩ | hnone
        · rw [he1]
          exact b.unique e e2 hpos h2 (hkey.symm.trans heq)
        · exact absurd heq.symm (hnone e2 h2)
    · rw [hrest e1 he1] at h1 heq
      by_cases he2 : e2 = e
      · rw [he2, hself] at heq
        rcases hunique with ⟨hpos, hkey⟩ | hnone
        · rw [he2]
          exact b.unique e1 e h1 hpos (heq.trans hkey)
        · exact absurd heq (hnone e1 h1)
      · rw [hrest e2 he2] at h2 heq
        exact b.unique e1 e2 h1 h2 heq
  · by_cases he' : e' = e
    · subst he'
      rw [hself] at hv ⊢
      exact hfields hv hnot
    · rw [hrest e' he'] at hpos hv ⊢
      rw [hdisk e' he' hpos]
      refine b.fields e' hpos hv fun h' hp => ?_
      by_cases hh' : h' = h
      · subst hh'
        exact he' (hfrom e' (congrArg Pc.target hp))
      · exact hnot h' ((hprest h' hh').trans hp)
  · by_cases he' : e' = e
    · subst he'
      rw [hself]
      exact hfreeing h' hp
    · rw [hrest e' he']
      exact b.freeing h' e' (hback hp rfl he')
  · by_cases he' : e' = e
    · subst he'
      rw [hself]
      exact hheld h' hp
    · rw [hrest e' he']
      exact b.held h' e' (hback hp rfl he')
  · by_cases hh' : h' = h
    · subst hh'
      rw [hpself] at hp
      exact htyped k t hp
    · rw [hprest h' hh'] at hp
      exact b.typed h' k t hp

omit b in
omit [Fintype ι] in
theorem pc_of_update {r : Pc} (hpc : s'.pc = Function.update s.pc h q) (hq : q ≠ r) {h' : ι}
    (hp : s'.pc h' = r) : s.pc h' = r := by
  by_cases hh' : h' = h
  · rw [hpc, hh', update_self] at hp
    exact absurd hp hq
  · rwa [hpc, update_of_ne hh'] at hp

omit b in
omit [Fintype ι] in
theorem not_cleared_of_update (hpc : s'.pc = Function.update s.pc h q) (hp : s.pc h ≠ .cleared e)
    (hnot : ∀ h', s'.pc h' ≠ .cleared e) (h' : ι) :
    s.pc h' ≠ .cleared e := by
  by_cases hh' : h' = h
  · exact hh' ▸ hp
  · exact fun hc => hnot h' (by rw [hpc, update_of_ne hh', hc])

theorem addRef (hp : (s.pc h).target = none) (hq : q.target = some e) (hql : q.locks = none)
    (hpos : 0 < (s.slot e).ref) :
    ((s.setSlot e { s.slot e with ref := (s.slot e).ref + 1 }).goto h q).Base := by
  have hnone : (s.pc h).locks = none := Pc.locks_eq_none hp
  have hnot := Pc.not_held hql e
  refine b.change rfl rfl (fun e' ht => ?_) (fun e' ht => ?_) ?_ ?_ (.inl ⟨hpos, rfl⟩)
    (fun _ _ _ => rfl) (fun hv hc => ?_) (fun h' hf => b.freeing h' e (pc_of_update rfl hnot.1 hf))
    (fun h' hf => b.held h' e (pc_of_update rfl hnot.2.1 hf))
    fun k t hor => absurd hor (Pc.not_ialloc hq k t)
  · rw [hp] at ht
    cases ht
  · rw [hq] at ht
    exact (some.inj ht).symm
  · rw [hp, hq, if_neg (by simp), if_pos rfl]
  · exact b.lock.pass rfl (hql.trans hnone.symm)
  · exact b.fields e hpos hv (not_cleared_of_update rfl (Pc.not_held hnone e).2.2 hc)

omit b in
omit [Fintype ι] in
theorem iget_cases {q : Fin ninode → Pc} (hs : s.iget h k q = some s') :
    (∃ e, 0 < (s.slot e).ref ∧ (s.slot e).key = k ∧
      s' = (s.setSlot e { s.slot e with ref := (s.slot e).ref + 1 }).goto h (q e)) ∨
    ∃ e, (s.slot e).ref = 0 ∧ (∀ e', 0 < (s.slot e').ref → (s.slot e').key ≠ k) ∧
      s' = (s.setSlot e { s.slot e with key := k, ref := 1, valid := false }).goto h (q e) := by
  unfold Itable.iget at hs
  split at hs
  · rename_i e hfound
    obtain ⟨hpos, hkey⟩ := igetScan_hit hfound
    exact .inl ⟨e, hpos, hkey, (some.inj hs).symm⟩
  · rename_i e hfound
    obtain ⟨hfree, hnone⟩ := igetScan_empty (by simp) hfound
    exact .inr ⟨e, hfree, fun e' => hnone e' (List.mem_finRange e'), (some.inj hs).symm⟩
  · cases hs

theorem iget {q : Fin ninode → Pc} (hp : (s.pc h).target = none) (hq : ∀ e, (q e).target = some e)
    (hql : ∀ e, (q e).locks = none) (hs : s.iget h k q = some s') : s'.Base := by
  rcases iget_cases hs with ⟨e, hpos, -, rfl⟩ | ⟨e, hfree, hnone, rfl⟩
  · exact b.addRef hp (hq e) (hql e) hpos
  · have hnolock : (s.pc h).locks = none := Pc.locks_eq_none hp
    have hempty : ∀ h', (s.pc h').target ≠ some e := fun h' ht =>
      (b.ref_pos ht).ne' hfree
    have hnot := Pc.not_held (hql e) e
    refine b.change rfl rfl (fun e' ht => ?_) (fun e' ht => ?_) ?_ ?_ (.inr hnone)
      (fun _ _ _ => rfl) (fun hv => by cases hv)
      (fun h' hf => absurd (congrArg Pc.target (pc_of_update rfl hnot.1 hf)) (hempty h'))
      (fun h' hf => absurd (congrArg Pc.target (pc_of_update rfl hnot.2.1 hf)) (hempty h'))
      fun k' t hor => absurd hor (Pc.not_ialloc (hq e) k' t)
    · rw [hp] at ht
      cases ht
    · rw [hq] at ht
      exact (some.inj ht).symm
    · rw [hp, hq, hfree, if_neg (by simp), if_pos rfl]
    · exact b.lock.pass rfl ((hql e).trans hnolock.symm)

theorem outside (hp : (s.pc h).target = none) (hq : q.target = none) (hslot : s'.slot = s.slot)
    (hpc : s'.pc = Function.update s.pc h q)
    (hdisk : ∀ e, 0 < (s.slot e).ref → (s.slot e).valid = true → (∀ h, s.pc h ≠ .cleared e) →
      s'.disk (s.slot e).key = s.disk (s.slot e).key)
    (htyped : ∀ k t, q = .scanning k t ∨ q = .claimed k t → t ≠ .free) : s'.Base := by
  have hlocks : q.locks = (s.pc h).locks := (Pc.locks_eq_none hq).trans (Pc.locks_eq_none hp).symm
  have hnot : ∀ r : Pc, r.target ≠ none → ∀ h', s'.pc h' = r ↔ s.pc h' = r := by
    intro r hr h'
    by_cases hh' : h' = h
    · subst hh'
      rw [hpc, update_self]
      refine iff_of_false (fun heq => hr (heq ▸ hq)) fun heq => hr (heq ▸ hp)
    · rw [hpc, update_of_ne hh']
  refine ⟨fun e => ?_, ?_, ?_, fun e hpos hv hc => ?_, fun h' e hf => ?_, fun h' e hf => ?_,
    fun h' k t hor => ?_⟩
  · rw [hslot, hpc, comp_update, hq]
    have hupdate : Function.update (Pc.target ∘ s.pc) h none = Pc.target ∘ s.pc :=
      update_eq_self_iff.mpr hp.symm
    rw [hupdate]
    exact b.count e
  · rw [hslot, hpc, comp_update, hlocks]
    have hupdate := update_eq_self h (Pc.locks ∘ s.pc)
    exact hupdate.symm ▸ b.lock
  · rw [hslot]
    exact b.unique
  · rw [hslot] at hpos hv ⊢
    have hc' : ∀ h, s.pc h ≠ .cleared e := fun h' heq =>
      hc h' ((hnot _ (by simp [Pc.target]) h').mpr heq)
    rw [hdisk e hpos hv hc']
    exact b.fields e hpos hv hc'
  · rw [hslot]
    exact b.freeing h' e ((hnot _ (by simp [Pc.target]) h').mp hf)
  · rw [hslot]
    exact b.held h' e ((hnot _ (by simp [Pc.target]) h').mp hf)
  · by_cases hh' : h' = h
    · rw [hpc, hh', update_self] at hor
      exact htyped k t hor
    · rw [hpc, update_of_ne hh'] at hor
      exact b.typed h' k t hor

theorem iallocRound {t : FileType} (hp : s.pc h = .scanning k t) :
    (s.iallocRound ninodes h k t).Base := by
  have hidle : (s.pc h).target = none := congrArg Pc.target hp
  have ht : t ≠ .free := b.typed h k t (.inl hp)
  have htyped : ∀ k' k'' t', Pc.scanning k' t = .scanning k'' t' ∨
      Pc.scanning k' t = .claimed k'' t' →
      t' ≠ .free := by
    rintro k' k'' t' (heq | heq) <;> cases heq
    exact ht
  unfold Itable.iallocRound
  split
  · split
    · rename_i hfree
      refine b.outside hidle (q := .claimed k t) rfl rfl rfl (fun e hpos hv hc => ?_) ?_
      · -- the inode of a valid entry has a type on disk
        obtain ⟨heq, htype⟩ := b.fields e hpos hv hc
        refine update_of_ne ?_ _ _
        rintro rfl
        rw [heq] at htype
        exact htype hfree
      · rintro k' t' (heq | heq) <;> cases heq
        exact ht
    · exact b.outside hidle rfl rfl rfl (fun _ _ _ _ => rfl) (fun k'' t' => htyped _ k'' t')
  · refine b.outside hidle (q := .idle) rfl rfl rfl (fun _ _ _ _ => rfl) ?_
    rintro k' t' (heq | heq) <;> cases heq

theorem stay {x : Slot ι} (ht : (s.pc h).target = some e) (hq : q.target = some e)
    (hslot : s'.slot = Function.update s.slot e x) (hpc : s'.pc = Function.update s.pc h q)
    (hkey : x.key = (s.slot e).key) (href : x.ref = (s.slot e).ref)
    (hlock : Handles.Locked (Function.update (Slot.lock ∘ s.slot) e x.lock)
      (Function.update (Pc.locks ∘ s.pc) h q.locks))
    (hdisk : ∀ e', e' ≠ e → 0 < (s.slot e').ref → s'.disk (s.slot e').key = s.disk (s.slot e').key)
    (hfields : x.valid = true → (∀ h', s'.pc h' ≠ .cleared e) →
      x.ino = s'.disk x.key ∧ x.ino.type ≠ .free)
    (hfreeing : ∀ h', s'.pc h' = .freeing e → x.valid = true ∧ x.ino.nlink = 0)
    (hheld : ∀ h', s'.pc h' = .locked e → x.valid = true) : s'.Base := by
  refine b.change hslot hpc (fun e' ht' => ?_) (fun e' ht' => ?_) (by rw [href, ht, hq]) hlock
    (.inl ⟨b.ref_pos ht, hkey⟩) hdisk hfields hfreeing hheld
    fun k t hor => absurd hor (Pc.not_ialloc hq k t)
  · exact some.inj (ht'.symm.trans ht)
  · exact some.inj (ht'.symm.trans hq)

theorem freeing_of_locks (hpc : s'.pc = Function.update s.pc h q) (hl : (s.pc h).locks = some e)
    (hq : ∀ e, q ≠ .freeing e) (h' : ι) : s'.pc h' ≠ .freeing e := by
  intro hf
  have hf' := pc_of_update hpc (hq e) hf
  obtain rfl := b.lock.eq_of_eq (h := h) (i := h') hl (congrArg Pc.locks hf')
  rw [hpc, update_self] at hf
  exact hq e hf

omit [DecidableEq ι] in
theorem freeing_of_free (hl : (s.slot e).lock = none) (h' : ι) : s.pc h' ≠ .freeing e := by
  intro hf
  have hlock := (b.lock h' e).mpr (congrArg Pc.locks hf)
  exact some_ne_none h' (hlock.symm.trans hl)

omit b in
omit [Fintype ι] in
/-- `ilock` takes a free sleep lock, and reads the inode into an entry that is not valid. -/
theorem ilock_cases (hs : s.ilock h e = some s') : (s.slot e).lock = none ∧
    ((s.slot e).valid = true ∧
        s' = (s.setSlot e { s.slot e with lock := some h }).goto h (.locked e) ∨
      (s.disk (s.slot e).key).type ≠ .free ∧
        s' = (s.setSlot e { s.slot e with
          lock := some h, valid := true, ino := s.disk (s.slot e).key }).goto h (.locked e)) := by
  rw [Itable.ilock, ite_none_right_eq_some] at hs
  obtain ⟨hfree, hs⟩ := hs
  refine ⟨hfree, ?_⟩
  split_ifs at hs with hv htype
  · exact .inl ⟨hv, (some.inj hs).symm⟩
  · exact .inr ⟨htype, (some.inj hs).symm⟩

theorem ilock (ht : (s.pc h).target = some e) (hl : (s.pc h).locks = none)
    (hs : s.ilock h e = some s') : s'.Base := by
  obtain ⟨hfree, ⟨hv, rfl⟩ | ⟨htype, rfl⟩⟩ := ilock_cases hs
  · refine b.stay ht rfl rfl rfl rfl rfl (b.lock.acquire (h := h) (e := e) hfree hl)
      (fun _ _ _ => rfl) (fun _ _ => ?_) (fun h' hf => ?_) fun _ _ => hv
    · exact b.fields e (b.ref_pos ht) hv (b.not_cleared_of_lock hfree)
    · exact b.freeing h' e (pc_of_update rfl (by simp) hf)
  · refine b.stay ht rfl rfl rfl rfl rfl (b.lock.acquire (h := h) (e := e) hfree hl)
      (fun _ _ _ => rfl) (fun _ _ => ⟨rfl, htype⟩) (fun h' hf => ?_) fun _ _ => rfl
    exact absurd (pc_of_update rfl (by simp) hf) (b.freeing_of_free hfree h')

theorem update (hp : s.pc h = .locked e) (d : Dinode) : (s.update e d).Base := by
  have ht : (s.pc h).target = some e := congrArg Pc.target hp
  have hl : (s.pc h).locks = some e := congrArg Pc.locks hp
  have hpc : (s.update e d).pc = Function.update s.pc h (.locked e) := by
    rw [← hp, update_eq_self]
    rfl
  refine b.stay (x := { s.slot e with ino := { d with type := (s.slot e).ino.type } }) ht rfl rfl
    hpc
    rfl rfl ?_ (fun e' he' hpos => ?_) (fun hv _ => ⟨?_, ?_⟩) (fun h' hf => ?_)
    fun _ _ => b.held h e hp
  · exact b.lock.pass rfl hl.symm
  · refine update_of_ne ?_ _ _
    exact fun heq => he' (b.unique e' e hpos (b.ref_pos ht) heq)
  · exact (update_self (s.slot e).key _ s.disk).symm
  · exact (b.fields_of_locks hl (by simp [hp]) hv).2
  · exact absurd hf (b.freeing_of_locks hpc hl (by simp) h')

theorem iunlock (hp : s.pc h = .locked e) : (s.iunlock h e).Base := by
  have ht : (s.pc h).target = some e := congrArg Pc.target hp
  have hl : (s.pc h).locks = some e := congrArg Pc.locks hp
  refine b.stay ht rfl rfl rfl rfl rfl (b.lock.release (h := h) (e := e) hl) (fun _ _ _ => rfl)
    (fun hv _ => b.fields_of_locks hl (by simp [hp]) hv) (fun h' hf => ?_) fun _ _ => b.held h e hp
  exact absurd hf (b.freeing_of_locks rfl hl (by simp) h')

theorem drop (ht : (s.pc h).target = some e) (hl : (s.pc h).locks = none) : (s.drop h e).Base := by
  have hpos := b.ref_pos ht
  refine b.change (q := .idle) rfl rfl (fun e' ht' => ?_) (fun e' ht' => by cases ht') ?_ ?_
    (.inl ⟨hpos, rfl⟩) (fun _ _ _ => rfl) (fun hv hc => ?_) (fun h' hf => ?_) (fun h' hf => ?_)
    fun k t hor => by rcases hor with heq | heq <;> cases heq
  · exact some.inj (ht'.symm.trans ht)
  · rw [ht, if_pos rfl, if_neg (by simp [Pc.target])]
    dsimp only
    omega
  · exact b.lock.pass rfl hl.symm
  · exact b.fields e hpos hv (not_cleared_of_update rfl (Pc.not_held hl e).2.2 hc)
  · exact b.freeing h' e (pc_of_update rfl (by simp) hf)
  · exact b.held h' e (pc_of_update rfl (by simp) hf)

theorem iput (hp : s.pc h = .ref e) (hs : s.iput h e = some s') : s'.Base := by
  have ht : (s.pc h).target = some e := congrArg Pc.target hp
  have hl : (s.pc h).locks = none := congrArg Pc.locks hp
  unfold Itable.iput at hs
  dsimp only at hs
  split at hs
  · rename_i hcond
    split at hs
    · rename_i hfree
      obtain rfl := some.inj hs
      exact b.stay ht rfl rfl rfl rfl rfl (b.lock.acquire (h := h) (e := e) hfree hl)
        (fun _ _ _ => rfl) (fun hv _ => b.fields e (b.ref_pos ht) hv (b.not_cleared_of_lock hfree))
        (fun _ _ => hcond.2) fun _ _ => hcond.2.1
    · cases hs
  · exact some.inj hs ▸ b.drop ht hl

theorem clear (hp : s.pc h = .freeing e) : (s.clear h e).Base := by
  have ht : (s.pc h).target = some e := congrArg Pc.target hp
  have hl : (s.pc h).locks = some e := congrArg Pc.locks hp
  refine b.stay (x := { s.slot e with ino := freed (s.slot e).ino }) (q := .cleared e) ht
    rfl rfl rfl
    rfl rfl ?_ (fun e' he' hpos => ?_) (fun _ hc => ?_) (fun h' hf => ?_)
    fun _ _ => (b.freeing h e hp).1
  · exact b.lock.pass rfl hl.symm
  · refine update_of_ne ?_ _ _
    exact fun heq => he' (b.unique e' e hpos (b.ref_pos ht) heq)
  · have hself : (s.clear h e).pc h = .cleared e := by simp [Itable.clear]
    exact absurd hself (hc h)
  · exact absurd hf (b.freeing_of_locks rfl hl (by simp) h')

theorem invalidate (hp : s.pc h = .cleared e) : (s.invalidate h e).Base := by
  have hl : (s.pc h).locks = some e := congrArg Pc.locks hp
  refine b.stay (q := .dropping e) (congrArg Pc.target hp) rfl rfl rfl rfl rfl
    (b.lock.release (h := h) (e := e) hl) (fun _ _ _ => rfl) (fun hv => by cases hv)
    (fun h' hf => ?_) fun h' hf => ?_
  · exact absurd hf (b.freeing_of_locks rfl hl (by simp) h')
  · have hf' := pc_of_update rfl (by simp) hf
    obtain rfl := b.lock.eq_of_eq (h := h) (i := h') hl (congrArg Pc.locks hf')
    cases hp.symm.trans hf'

end Base

end Itable

/-- **Every event keeps the references, the locks and the fields.** -/
theorem Itable.Base.step [Fintype ι] {s' : Itable ι} {ev : Event ι} (b : s.Base)
    (hs : ev.run ninodes s = some s') : s'.Base := by
  cases Event.run_does hs with
  | iget hp hs | claimed hp hs =>
    exact b.iget (congrArg Pc.target hp) (fun _ => rfl) (fun _ => rfl) hs
  | idup hp hp' =>
    refine b.addRef (congrArg Pc.target hp') rfl rfl ?_
    rcases hp with hp | hp
    · exact b.ref_pos (congrArg Pc.target hp)
    · exact b.ref_pos (congrArg Pc.target hp)
  | @ialloc _ dev t hp ht =>
    refine b.outside (q := .scanning ⟨dev, 1⟩ t) (congrArg Pc.target hp) rfl rfl rfl
      (fun _ _ _ _ => rfl) ?_
    rintro k t' (heq | heq) <;> cases heq
    exact ht
  | round hp => exact b.iallocRound hp
  | clear hp => exact b.clear hp
  | invalidate hp => exact b.invalidate hp
  | drop hp => exact b.drop (congrArg Pc.target hp) (congrArg Pc.locks hp)
  | ilock hp hs =>
    rcases hp with hp | ⟨t, hp⟩
    · exact b.ilock (congrArg Pc.target hp) (congrArg Pc.locks hp) hs
    · exact b.ilock (congrArg Pc.target hp) (congrArg Pc.locks hp) hs
  | update hp => exact b.update hp _
  | iunlock hp => exact b.iunlock hp
  | iput hp hs => exact b.iput hp hs

omit [DecidableEq ι] in
theorem Itable.Base.initial [Fintype ι] (disk : Key → Dinode) :
    (Itable.initial disk : Itable ι).Base := by
  refine ⟨fun e => (Handles.count_const_none e).symm, fun h e => ?_, fun e e' hpos => ?_,
    fun e hpos => ?_, fun h e hp => ?_, fun h e hp => ?_, fun h k t hor => ?_⟩
  · exact iff_of_false (by simp [Itable.initial]) (by simp [Itable.initial, Pc.locks])
  · cases hpos
  · cases hpos
  · cases hp
  · cases hp
  · rcases hor with hp | hp
    · cases hp
    · cases hp

theorem Itable.base_reachable [Fintype ι] (h : (itableSystem ninodes).Reachable s) : s.Base := by
  refine h.invariant (P := Itable.Base) ?_ fun s ev s' hs hstep => hs.step hstep
  rintro s ⟨disk, -, rfl⟩
  exact .initial disk

end Inodes

end Xv6.Fs
