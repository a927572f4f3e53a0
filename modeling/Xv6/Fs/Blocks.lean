import Xv6.Fs.Inode
import Xv6.Lib.Ownership

/-!
# Which block belongs where

Every block of the data area that is marked in the free map has one place in one allocated inode:
an entry of `addrs`, or one of the indirect block. `bmap` adds places, and keeps this so at every
return, whether the disk is full or not.
-/

namespace Xv6.Fs

open Function Dinode FsState

/-- A place for a block number in an inode: an index of `addrs`, or of the indirect block. -/
inductive Place
  | direct (k : ℕ)
  | indirect (j : ℕ)
deriving DecidableEq

def Dinode.addrAt (ip : Dinode) (data : ℕ → Block) : Place → ℕ
  | .direct k => if k ≤ ndirect then ip.addrs k else 0
  | .indirect j =>
    if j < nindirect ∧ ip.addrs ndirect ≠ 0 then uintAt (data (ip.addrs ndirect)) j else 0

/-- The place of the `bn`th block of a file. -/
def placeOf (bn : ℕ) : Place := if bn < ndirect then .direct bn else .indirect (bn - ndirect)

theorem placeOf_ne_ndirect (bn : ℕ) : placeOf bn ≠ .direct ndirect := by
  unfold placeOf
  split_ifs with h
  · simpa using Nat.ne_of_lt h
  · simp

variable {bn j : ℕ}

theorem placeOf_inj {bn' : ℕ} : placeOf bn = placeOf bn' ↔ bn = bn' := by
  unfold placeOf
  split_ifs <;> simp only [Place.direct.injEq, Place.indirect.injEq, false_iff] <;> omega

/-- The inode as the kernel sees it: the copy in memory if it is valid, else the one on disk. -/
def FsState.inode (s : FsState) (i : ℕ) : Dinode :=
  match s.itable i with
  | some e => if e.valid then e.ino else s.dinode i
  | none => s.dinode i

/-- The number at a place of an allocated inode; there is none in a free one. -/
def FsState.own (s : FsState) (k : ℕ × Place) : ℕ :=
  if (s.inode k.1).type = .free then 0 else (s.inode k.1).addrAt s.data k.2

def InData (sb : Superblock) (b : ℕ) : Prop := sb.size - sb.nblocks ≤ b ∧ b < sb.size

/-- The blocks in use are the metadata and, each at one place, the blocks of the inodes. -/
structure Sep (sb : Superblock) (s : FsState) : Prop where
  owned : Owned (InData sb) s.bitmap s.own
  reserved : ∀ b < sb.size - sb.nblocks, s.bitmap b = true

/-- The inode is in memory, with the fields `ip`, and allocated. -/
structure Held (s : FsState) (i : ℕ) (e : Entry) : Prop where
  entry : s.itable i = some e
  valid : e.valid = true
  live : e.ino.type ≠ .free

/-! ### Numbers in blocks -/

theorem uintAt_zero (j : ℕ) : uintAt (fun _ => 0) j = 0 := rfl

theorem uintAt_setUint_self (x : Block) (j : ℕ) {v : ℕ} (hv : v < 2 ^ 32) :
    uintAt (setUint x j v) j = v := by
  have h0 : 4 * j / 4 = j := by omega
  have h1 : (4 * j + 1) / 4 = j := by omega
  have h2 : (4 * j + 2) / 4 = j := by omega
  have h3 : (4 * j + 3) / 4 = j := by omega
  have m0 : 4 * j % 4 = 0 := by omega
  have m1 : (4 * j + 1) % 4 = 1 := by omega
  have m2 : (4 * j + 2) % 4 = 2 := by omega
  have m3 : (4 * j + 3) % 4 = 3 := by omega
  simp only [uintAt, setUint, h0, h1, h2, h3, m0, m1, m2, m3, if_true, UInt8.toNat_ofNat']
  omega

theorem uintAt_setUint_of_ne (x : Block) {j' : ℕ} (h : j' ≠ j) (v : ℕ) :
    uintAt (setUint x j v) j' = uintAt x j' := by
  have h0 : 4 * j' / 4 ≠ j := by omega
  have h1 : (4 * j' + 1) / 4 ≠ j := by omega
  have h2 : (4 * j' + 2) / 4 ≠ j := by omega
  have h3 : (4 * j' + 3) / 4 ≠ j := by omega
  simp only [uintAt, setUint, h0, h1, h2, h3, if_false]

/-! ### The allocator -/

variable {sb : Superblock} {s : FsState} {E : Panic → Prop} {s' : FsState} {p : Place} {i : ℕ}

def FsState.Full (sb : Superblock) (s : FsState) : Prop := ∀ b < sb.size, s.bitmap b = true

/-- `balloc` finds nothing and changes nothing, or it marks and zeroes a free data block. -/
theorem balloc_spec (hres : ∀ b < sb.size - sb.nblocks, s.bitmap b = true) :
    Runs (balloc sb) s E fun b s' => (b = 0 ∧ s' = s ∧ s.Full sb) ∨
      (b ≠ 0 ∧ InData sb b ∧ s.bitmap b = false ∧ s' = (s.setBit b true).setData b fun _ => 0) := by
  unfold balloc
  rw [Runs.get_bind]
  split
  · rename_i b hfind
    have hclear : s.bitmap b = false := by simpa using List.find?_some hfind
    have hlt : b < sb.size := List.mem_range.mp (List.mem_of_find?_eq_some hfind)
    have hle : sb.size - sb.nblocks ≤ b := by
      by_contra hlow
      rw [hres b (by omega)] at hclear
      cases hclear
    have hpos := sb.nblocks_lt
    exact .inr ⟨by omega, ⟨hle, hlt⟩, hclear, rfl⟩
  · rename_i hfind
    refine .inl ⟨rfl, rfl, fun b hb => ?_⟩
    have hbit := List.find?_eq_none.mp hfind b (List.mem_range.mpr hb)
    simpa using hbit

/-! ### Inodes in memory -/

namespace Held

variable {i : ℕ} {e : Entry}

theorem inode_eq (h : Held s i e) : s.inode i = e.ino := by
  simp [FsState.inode, h.entry, h.valid]

theorem inode_live (h : Held s i e) : (s.inode i).type ≠ .free := h.inode_eq ▸ h.live

theorem fields (h : Held s i e) : Runs (fields i) s E fun ip s' => ip = e.ino ∧ s' = s := by
  unfold Fs.fields
  rw [Runs.get_bind, h.entry]
  exact ⟨rfl, rfl⟩

theorem assign (h : Held s i e) (f : Dinode → Dinode) :
    Runs (assign i f) s E fun _ s' => s' = s.setEntry i (some (e.setIno (f e.ino))) := by
  unfold Fs.assign
  rw [Runs.modify_iff, h.entry]
  rfl

end Held

theorem own_free {k : ℕ × Place} (h : (s.inode k.1).type = .free) : s.own k = 0 := if_pos h

theorem own_of_live (h : (s.inode i).type ≠ .free) :
    s.own (i, p) = (s.inode i).addrAt s.data p := if_neg h

theorem own_ndirect_ne (h : (s.inode i).type ≠ .free) :
    s.own (i, .direct ndirect) = (s.inode i).addrs ndirect := by
  rw [own_of_live h, addrAt, if_pos le_rfl]

/-- An inode with an address in its indirect block has an indirect block. -/
theorem own_ndirect_of_indirect {m : ℕ} (h : s.own (i, .indirect m) ≠ 0) :
    s.own (i, .direct ndirect) ≠ 0 := by
  by_cases hlive : (s.inode i).type = .free
  · exact absurd (own_free hlive) h
  · rw [own_of_live hlive, addrAt] at h
    rw [own_ndirect_ne hlive]
    intro h0
    rw [if_neg fun hc => hc.2 h0] at h
    exact h rfl

/-- Inodes whose fields and whose indirect block are as before have the same blocks. -/
theorem own_congr (hino : s'.inode i = s.inode i)
    (hdata : (s.inode i).type ≠ .free → (s.inode i).addrs ndirect ≠ 0 →
      s'.data ((s.inode i).addrs ndirect) = s.data ((s.inode i).addrs ndirect)) (p : Place) :
    s'.own (i, p) = s.own (i, p) := by
  unfold FsState.own
  rw [hino]
  by_cases hfree : (s.inode i).type = .free
  · rw [if_pos hfree, if_pos hfree]
  · rw [if_neg hfree, if_neg hfree]
    cases p with
    | direct k => rfl
    | indirect j =>
      by_cases h0 : (s.inode i).addrs ndirect = 0
      · simp [addrAt, h0]
      · simp only [addrAt, hdata hfree h0]

/-- What may change when blocks are added to the inode `i`: its addresses in memory, and no address
that was there before. -/
structure Frame (sb : Superblock) (i : ℕ) (s s' : FsState) : Prop where
  sep : Sep sb s'
  dinode : s'.dinode = s.dinode
  used : s'.used = s.used
  other : ∀ j ≠ i, s'.itable j = s.itable j
  entry : ∀ e, Held s i e → ∃ addrs, Held s' i (e.setIno (e.ino.setAddrs addrs))
  kept : ∀ k, s.own k ≠ 0 → s'.own k = s.own k

/-- The data blocks of the inode `j` hold what they held. -/
def SameBlocks (s s' : FsState) (j : ℕ) : Prop :=
  ∀ bn, s.own (j, placeOf bn) ≠ 0 → s'.data (s.own (j, placeOf bn)) = s.data (s.own (j, placeOf bn))

namespace Frame

variable {i : ℕ} {s1 s2 : FsState}

theorem refl (h : Sep sb s) : Frame sb i s s :=
  ⟨h, rfl, rfl, fun _ _ => rfl, fun e he => ⟨e.ino.addrs, he⟩, fun _ _ => rfl⟩

theorem trans (h : Frame sb i s s1) (h1 : Frame sb i s1 s2) : Frame sb i s s2 where
  sep := h1.sep
  dinode := h1.dinode.trans h.dinode
  used := h1.used.trans h.used
  other j hj := (h1.other j hj).trans (h.other j hj)
  entry e he := by
    obtain ⟨addrs, he1⟩ := h.entry e he
    obtain ⟨addrs', he2⟩ := h1.entry _ he1
    exact ⟨addrs', he2⟩
  kept k hk := by rw [h1.kept k (by rwa [h.kept k hk]), h.kept k hk]

end Frame

theorem SameBlocks.refl (s : FsState) (j : ℕ) : SameBlocks s s j := fun _ _ => rfl

theorem SameBlocks.trans {s1 s2 : FsState} (h : SameBlocks s s1 j) (hf : Frame sb i s s1)
    (h1 : SameBlocks s1 s2 j) : SameBlocks s s2 j := by
  intro bn hbn
  have hsame := hf.kept _ hbn
  rw [← h bn hbn, ← hsame]
  exact h1 bn (hsame ▸ hbn)

/-! ### Adding a block -/

section Adding

variable {i k b : ℕ} {e : Entry}

theorem inode_of_itable (ht : s'.itable j = s.itable j) (hd : s'.dinode = s.dinode) :
    s'.inode j = s.inode j := by
  simp only [FsState.inode, ht, hd]

theorem own_setAddr (hsep : Sep sb s) (h : Held s i e) (hk : k ≤ ndirect)
    (h0 : e.ino.addrs k = 0) (hb0 : b ≠ 0) (hclear : s.bitmap b = false) :
    (((s.setBit b true).setData b fun _ => 0).setEntry i
      (some (e.setIno (e.ino.setAddrs (update e.ino.addrs k b))))).own =
      update s.own (i, .direct k) b := by
  have hne : ∀ l, s.own l ≠ b := hsep.owned.ne_of_clear hclear hb0
  have hind : ∀ j, (s.inode j).type ≠ .free → (s.inode j).addrs ndirect ≠ b :=
    fun j hj => own_ndirect_ne hj ▸ hne (j, .direct ndirect)
  funext ⟨j, p⟩
  by_cases hj : j = i
  · subst hj
    have hino := h.inode_eq
    have hlive := h.live
    rw [← hino] at hlive
    set s' := ((s.setBit b true).setData b fun _ => 0).setEntry j
      (some (e.setIno (e.ino.setAddrs (update e.ino.addrs k b)))) with hs'
    have hino' : s'.inode j = e.ino.setAddrs (update e.ino.addrs k b) := by
      simp [hs', FsState.inode, setEntry, Entry.setIno, h.valid]
    have hdata : s'.data = update s.data b fun _ => 0 := rfl
    rw [own_of_live (by rw [hino']; exact h.live), hino', hdata]
    cases p with
    | direct k' =>
      by_cases hkk : k' = k
      · subst hkk
        simp [addrAt, hk]
      · rw [update_of_ne (by simp [hkk]), own_of_live hlive, hino]
        simp [addrAt, hkk]
    | indirect m =>
      rw [update_of_ne (by simp), own_of_live hlive, hino]
      by_cases hkn : k = ndirect
      · -- the new indirect block is empty, as the missing one was
        subst hkn
        simp [addrAt, h0, uintAt_zero]
      · have hnb := hind j hlive
        rw [hino] at hnb
        simp [addrAt, Ne.symm hkn, hnb]
  · rw [update_of_ne (by simp [hj])]
    refine own_congr ?_ (fun hlive _ => ?_) p
    · exact inode_of_itable (by simp [setEntry, setData, setBit, hj]) rfl
    · exact update_of_ne (hind j hlive) ..

theorem own_setIndirect {ind m : ℕ} (hsep : Sep sb s) (h : Held s i e)
    (hind : e.ino.addrs ndirect = ind) (hind0 : ind ≠ 0) (hm : m < nindirect) (hb0 : b ≠ 0)
    (hb : b < 2 ^ 32) (hclear : s.bitmap b = false) :
    (((s.setBit b true).setData b fun _ => 0).setData ind
      (setUint (((s.setBit b true).setData b fun _ => 0).data ind) m b)).own =
      update s.own (i, .indirect m) b := by
  have hne : ∀ l, s.own l ≠ b := hsep.owned.ne_of_clear hclear hb0
  have hlive := h.inode_live
  have hown : s.own (i, .direct ndirect) = ind := by rw [own_ndirect_ne hlive, h.inode_eq, hind]
  have hindb : ind ≠ b := hown ▸ hne (i, .direct ndirect)
  set s' := ((s.setBit b true).setData b fun _ => 0).setData ind
    (setUint (((s.setBit b true).setData b fun _ => 0).data ind) m b) with hs'
  have hino' : ∀ j, s'.inode j = s.inode j := fun j => inode_of_itable rfl rfl
  have hdata : s'.data ind = setUint (s.data ind) m b := by
    simp [hs', setData, setBit, hindb]
  funext ⟨j, p⟩
  by_cases hj : j = i
  · subst hj
    rw [own_of_live (by rwa [hino']), hino', h.inode_eq]
    cases p with
    | direct k' =>
      rw [update_of_ne (by simp), own_of_live hlive, h.inode_eq]
      rfl
    | indirect m' =>
      by_cases hmm : m' = m
      · subst hmm
        rw [update_self, addrAt, hind, if_pos ⟨hm, hind0⟩, hdata, uintAt_setUint_self _ _ hb]
      · rw [update_of_ne (by simp [hmm]), own_of_live hlive, h.inode_eq]
        simp only [addrAt, hind, hdata, uintAt_setUint_of_ne _ hmm]
  · rw [update_of_ne (by simp [hj])]
    refine own_congr (hino' j) (fun hlj hj0 => ?_) p
    have hnb : (s.inode j).addrs ndirect ≠ b := own_ndirect_ne hlj ▸ hne (j, .direct ndirect)
    -- no other inode has the same indirect block
    have hni : (s.inode j).addrs ndirect ≠ ind := by
      intro heq
      have := hsep.owned.inj (j, .direct ndirect) (i, .direct ndirect)
        (by rw [hown, own_ndirect_ne hlj, heq]) (by rw [own_ndirect_ne hlj]; exact hj0)
      exact hj (Prod.mk.inj this).1
    simp [hs', setData, setBit, hnb, hni]

theorem Sep.add (hsep : Sep sb s) (hA : InData sb b) (hb0 : b ≠ 0) (hclear : s.bitmap b = false)
    (hp : s.own (i, p) = 0) (hbit : s'.bitmap = update s.bitmap b true)
    (hown : s'.own = update s.own (i, p) b) : Sep sb s' where
  owned := by
    rw [hbit, hown]
    exact hsep.owned.alloc hA hclear hb0 hp
  reserved c hc := by
    rw [hbit]
    by_cases hcb : c = b
    · rw [hcb, update_self]
    · rw [update_of_ne hcb, hsep.reserved c hc]

theorem Sep.congr (hsep : Sep sb s) (hbit : s'.bitmap = s.bitmap) (hown : s'.own = s.own) :
    Sep sb s' where
  owned := by
    rw [hbit, hown]
    exact hsep.owned
  reserved := hbit ▸ hsep.reserved

theorem kept_of_update (hp : s.own (i, p) = 0) (hown : s'.own = update s.own (i, p) b)
    (l : ℕ × Place) (hl : s.own l ≠ 0) :
    s'.own l = s.own l := by
  rw [hown, update_of_ne]
  rintro rfl
  exact hl hp

theorem SameBlocks.of_fresh (hsep : Sep sb s) (hb0 : b ≠ 0) (hclear : s.bitmap b = false)
    (hdata : ∀ c ≠ b, s'.data c = s.data c) (j : ℕ) :
    SameBlocks s s' j :=
  fun _ _ => hdata _ (hsep.owned.ne_of_clear hclear hb0 _)

/-- **`ip->addrs[k]`, allocated if necessary**: the disk is full and nothing changes, or the
address is there afterwards and no other has changed. -/
theorem loadAddr_spec (hsep : Sep sb s) (h : Held s i e) (hk : k ≤ ndirect) :
    Runs (loadAddr sb i k) s E fun a s' => Frame sb i s s' ∧ (∀ j, SameBlocks s s' j) ∧
      (a = 0 → s' = s ∧ s.Full sb) ∧ (a ≠ 0 → s'.own (i, .direct k) = a) := by
  have hlive := h.inode_live
  have hown : s.own (i, .direct k) = e.ino.addrs k := by
    rw [own_of_live hlive, h.inode_eq, addrAt, if_pos hk]
  unfold loadAddr
  refine h.fields.bind ?_
  rintro _ s ⟨rfl, rfl⟩
  split_ifs with h0
  · exact ⟨.refl hsep, fun j => .refl _ j, fun hz => absurd hz h0, fun _ => hown⟩
  rw [not_not] at h0
  refine (balloc_spec hsep.reserved).bind ?_
  rintro b s1 (⟨rfl, rfl, hfull⟩ | ⟨hb0, hA, hclear, rfl⟩)
  · rw [if_pos rfl]
    exact ⟨.refl hsep, fun j => .refl _ j, fun _ => ⟨rfl, hfull⟩, fun hz => absurd rfl hz⟩
  rw [if_neg hb0]
  -- the entry is unchanged by the allocation, and gets the new address
  have h1 : Held ((s.setBit b true).setData b fun _ => 0) i e := ⟨h.entry, h.valid, h.live⟩
  refine (h1.assign _).bind ?_
  rintro _ _ rfl
  have hown' := own_setAddr hsep h hk h0 hb0 hclear
  have hp : s.own (i, .direct k) = 0 := hown.trans h0
  refine ⟨⟨hsep.add hA hb0 hclear hp rfl hown', rfl, rfl, fun j hj => ?_, fun e' he' => ?_,
    kept_of_update hp hown'⟩, .of_fresh hsep hb0 hclear fun c hc => ?_, fun hz => absurd hz hb0,
    fun _ => ?_⟩
  · exact update_of_ne hj ..
  · obtain rfl : e' = e := Option.some.inj (he'.entry.symm.trans h.entry)
    exact ⟨_, update_self .., h.valid, h.live⟩
  · exact update_of_ne hc ..
  · rw [hown', update_self]

theorem bmap_hit (h : Held s i e) (hbn : s.own (i, placeOf bn) ≠ 0) :
    Runs (bmap sb i bn) s E fun a s' => a = s.own (i, placeOf bn) ∧ s' = s := by
  have hlive := h.inode_live
  have hload : ∀ k, e.ino.addrs k ≠ 0 →
      Runs (loadAddr sb i k) s E fun a s' => a = e.ino.addrs k ∧ s' = s := by
    intro k hk
    unfold loadAddr
    refine h.fields.bind ?_
    rintro _ s ⟨rfl, rfl⟩
    rw [if_pos hk]
    exact ⟨rfl, rfl⟩
  rw [own_of_live hlive, h.inode_eq] at hbn ⊢
  unfold placeOf at hbn ⊢
  unfold bmap
  split_ifs at hbn ⊢ with hdir hindirect
  · have hle : bn ≤ ndirect := Nat.le_of_lt hdir
    simp only [addrAt, if_pos hle] at hbn ⊢
    exact hload bn hbn
  · have hcond : bn - ndirect < nindirect ∧ e.ino.addrs ndirect ≠ 0 := by
      by_contra hno
      simp [addrAt, hno] at hbn
    simp only [addrAt, if_pos hcond] at hbn ⊢
    refine (hload ndirect hcond.2).bind ?_
    rintro _ s ⟨rfl, rfl⟩
    rw [if_neg hcond.2, Runs.get_bind, if_pos hbn]
    exact ⟨rfl, rfl⟩
  · simp [addrAt, hindirect] at hbn

/-- **`bmap`**: the block is there afterwards, unless it was missing and the disk is full; and no
other address has changed. -/
theorem bmap_spec (hsep : Sep sb s) (h : Held s i e) (hE : maxfile ≤ bn → E .bmapRange) :
    Runs (bmap sb i bn) s E fun a s' => Frame sb i s s' ∧ (∀ j, SameBlocks s s' j) ∧
      (a ≠ 0 → s'.own (i, placeOf bn) = a) ∧
      (a = 0 → s'.Full sb ∧ s.own (i, placeOf bn) = 0) := by
  have hmiss : Runs (bmap sb i bn) s (fun _ => True) fun a _ =>
      a = 0 → s.own (i, placeOf bn) = 0 := by
    by_cases h0 : s.own (i, placeOf bn) = 0
    · exact (Runs.any _ s).mono fun _ _ _ _ => h0
    · refine (bmap_hit h h0).mono ?_
      rintro a _ ⟨rfl, -⟩ hz
      exact hz
  refine Runs.mono (Runs.and (P := fun a s' => Frame sb i s s' ∧ (∀ j, SameBlocks s s' j) ∧
    (a ≠ 0 → s'.own (i, placeOf bn) = a) ∧ (a = 0 → s'.Full sb)) ?_ hmiss)
    fun a s' ⟨⟨hf, hsame, hown, hfull⟩, hz⟩ => ⟨hf, hsame, hown, fun ha => ⟨hfull ha, hz ha⟩⟩
  unfold bmap
  split_ifs with hdir hindirect
  · refine (loadAddr_spec hsep h (Nat.le_of_lt hdir)).mono ?_
    rintro a s' ⟨hf, hsame, hz, ha⟩
    exact ⟨hf, hsame, by rwa [placeOf, if_pos hdir], fun h0 => (hz h0).1 ▸ (hz h0).2⟩
  · rw [placeOf, if_neg hdir]
    set m := bn - ndirect
    refine (loadAddr_spec hsep h le_rfl).bind ?_
    rintro ind s1 ⟨hf, hsame, hz, hind⟩
    split_ifs with hind0
    · exact ⟨hf, hsame, fun hne => absurd rfl hne, fun _ => (hz hind0).1 ▸ (hz hind0).2⟩
    rw [Runs.get_bind]
    obtain ⟨addrs, h1⟩ := hf.entry e h
    have hlive := h1.inode_live
    have hptr : addrs ndirect = ind := by
      rw [← hind hind0, own_ndirect_ne hlive, h1.inode_eq]
      rfl
    have hown : s1.own (i, .indirect m) = uintAt (s1.data ind) m := by
      rw [own_of_live hlive, h1.inode_eq]
      simp only [addrAt, Entry.setIno_ino, setAddrs_addrs, hptr,
        if_pos (And.intro hindirect hind0)]
    split_ifs with ha
    · exact ⟨hf, hsame, fun _ => hown, fun h0 => absurd h0 ha⟩
    rw [not_not] at ha
    refine (balloc_spec hf.sep.reserved).bind ?_
    rintro b s2 (⟨rfl, rfl, hfull⟩ | ⟨hb0, hA, hclear, rfl⟩)
    · rw [if_pos rfl]
      exact ⟨hf, hsame, fun hne => absurd rfl hne, fun _ => hfull⟩
    rw [if_neg hb0, Runs.modify_bind, Runs.pure_iff]
    have hown' := own_setIndirect hf.sep h1 hptr hind0 hindirect hb0 (hA.2.trans sb.size_lt) hclear
    have hp : s1.own (i, .indirect m) = 0 := hown.trans ha
    have hstep : Frame sb i s1 _ := ⟨hf.sep.add hA hb0 hclear hp rfl hown', rfl, rfl,
      fun _ _ => rfl, fun e' he' => ⟨e'.ino.addrs, he'.entry, he'.valid, he'.live⟩,
      kept_of_update hp hown'⟩
    refine ⟨hf.trans hstep, fun j => (hsame j).trans hf fun c hc => ?_, fun _ => ?_,
      fun h0 => absurd h0 hb0⟩
    · -- the indirect block is no data block
      have hcb := hf.sep.owned.ne_of_clear hclear hb0 (j, placeOf c)
      have hci : s1.own (j, placeOf c) ≠ ind := by
        rw [← hind hind0]
        intro heq
        exact placeOf_ne_ndirect c (Prod.mk.inj (hf.sep.owned.inj _ _ heq hc)).2
      simp [setData, setBit, hcb, hci]
    · rw [hown', update_self]
  · exact hE (by simp only [maxfile, ndirect, nindirect] at *; omega)

end Adding

end Xv6.Fs
