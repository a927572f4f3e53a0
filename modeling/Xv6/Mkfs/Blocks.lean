import Xv6.Fs.Dir
import Xv6.Mkfs.Image

/-!
# Taking blocks of an image

An image that `mkfs` works on is a file system of the kernel: its inodes and data blocks are those
the kernel would find, and the blocks before `freeblock` are the marked ones. While `iappend` runs,
the inode it appends to is the one in its memory. Taking a block then is what `balloc` of the kernel
does, since the first free block is `freeblock` and all later ones are zero.
-/

namespace Xv6.Mkfs

open Function List

open Fs

def inodes (img : ℕ → Block) (i : ℕ) : Dinode :=
  if i < ninodes then dinodeAt (img (iblock i)) (i % ipb) else .zero

namespace Image

/-- The image as a file system with the blocks before `freeblock` marked. -/
def disk (st : Image) : FsState where
  bitmap b := decide (b < st.freeblock)
  dinode := inodes st.img
  data := st.img
  itable _ := none
  used := 0

/-- The same with the inode `i` in memory, as `iappend` has it. -/
def held (st : Image) (i : ℕ) (din : Dinode) : FsState := st.disk.setEntry i (some ⟨1, true, din⟩)

end Image

/-- The blocks in use are the metadata and, each at one place, the blocks of the inodes; the others
are zero. -/
structure Sound (st : Image) (s : FsState) : Prop where
  sep : Sep superblock s
  bits : s.bitmap = st.disk.bitmap
  fresh : ∀ b, st.freeblock ≤ b → st.img b = fun _ => 0
  le : st.freeblock ≤ fssize

variable {st st' : Image} {s s' : FsState} {i : ℕ} {din din' : Dinode} {E : Abort → Prop}
  {fbn k m sec : ℕ}

/-! ### The image as a file system -/

theorem disk_inode (j : ℕ) : st.disk.inode j = inodes st.img j := rfl

theorem held_inode_self : (st.held i din).inode i = din := by
  simp [FsState.inode, Image.held]

theorem held_inode_of_ne {j : ℕ} (h : j ≠ i) : (st.held i din).inode j = inodes st.img j := by
  simp [FsState.inode, Image.held, Image.disk, h]

/-- The inode in memory stands for the one on the image. -/
theorem held_inode (j : ℕ) : (st.held i din).inode j = update (inodes st.img) i din j := by
  by_cases h : j = i
  · subst h
    rw [held_inode_self, update_self]
  · rw [held_inode_of_ne h, update_of_ne h]

theorem held_held (hlive : din.type ≠ .free) : Held (st.held i din) i ⟨1, true, din⟩ :=
  ⟨update_self .., rfl, hlive⟩

@[simp] theorem wsect_bind {α : Type} {buf : Block} {g : Unit → MkfsM α} {Q : α → Image → Prop} :
    Runs (wsect sec buf >>= g) st E Q ↔ Runs (g ()) (st.setSect sec buf) E Q := Iff.rfl

theorem held_own_direct (hlive : din.type ≠ .free) (hk : k ≤ ndirect) :
    (st.held i din).own (i, .direct k) = din.addrs k := by
  rw [own_of_live (by rwa [held_inode_self]), held_inode_self, Dinode.addrAt, if_pos hk]

theorem held_own_indirect (hlive : din.type ≠ .free) (hind : din.addrs ndirect ≠ 0)
    (hm : m < nindirect) :
    (st.held i din).own (i, .indirect m) = uintAt (st.img (din.addrs ndirect)) m := by
  rw [own_of_live (by rwa [held_inode_self]), held_inode_self, Dinode.addrAt, if_pos ⟨hm, hind⟩]
  rfl

/-- The inodes are metadata. -/
theorem iblock_lt (hi : i < ninodes) : iblock i < nmeta := by
  unfold iblock
  change i < 200 at hi
  change i / 16 + 32 < 46
  omega

theorem one_lt_iblock (i : ℕ) : 1 < iblock i := by
  unfold iblock
  change 1 < i / 16 + 32
  omega

/-- A write behind the metadata changes no inode. -/
theorem inodes_update {b : ℕ} (hb : nmeta ≤ b) (img : ℕ → Block) (x : Block) :
    inodes (update img b x) = inodes img := by
  funext j
  unfold inodes
  split_ifs with hj
  · rw [update_of_ne (ne_of_lt (lt_of_lt_of_le (iblock_lt hj) hb))]
  · rfl

/-- Writing an inode back changes no other. -/
theorem inodes_putDinode (hi : i < ninodes) (hfits : din.Fits) (img : ℕ → Block) :
    inodes (update img (iblock i) (putDinode (img (iblock i)) (i % ipb) din)) =
      update (inodes img) i din := by
  funext j
  by_cases hji : j = i
  · subst hji
    rw [inodes, if_pos hi, update_self, update_self, dinodeAt_putDinode_self _ _ hfits]
  · rw [update_of_ne hji, inodes, inodes]
    split_ifs with hj
    · by_cases hblock : iblock j = iblock i
      · -- two inodes of one block are at different indices
        have hslot : j % ipb ≠ i % ipb := by
          unfold iblock at hblock
          change j / 16 + 32 = i / 16 + 32 at hblock
          change j % 16 ≠ i % 16
          omega
        rw [hblock, update_self, dinodeAt_putDinode_of_ne _ _ hslot]
      · rw [update_of_ne hblock]
    · rfl

/-- File systems with the same types, addresses and data blocks have the same places. -/
theorem own_congr_data (htype : ∀ j, (s'.inode j).type = (s.inode j).type)
    (haddrs : ∀ j, (s'.inode j).addrs = (s.inode j).addrs)
    (hdata : ∀ k, s.own (k, .direct ndirect) ≠ 0 →
      s'.data (s.own (k, .direct ndirect)) = s.data (s.own (k, .direct ndirect))) :
    s'.own = s.own := by
  funext ⟨j, p⟩
  by_cases hfree : (s.inode j).type = .free
  · rw [own_free (k := (j, p)) ((htype j).trans hfree), own_free (k := (j, p)) hfree]
  · rw [own_of_live hfree, own_of_live (by rwa [htype j])]
    have hind := hdata j
    rw [own_ndirect_ne hfree] at hind
    cases p with
    | direct k => simp only [Dinode.addrAt, haddrs]
    | indirect m =>
      by_cases h0 : (s.inode j).addrs ndirect = 0
      · simp [Dinode.addrAt, haddrs, h0]
      · simp only [Dinode.addrAt, haddrs, hind h0]

/-! ### Taking blocks -/

/-- What taking blocks for the places `ps` of the inode `i` does: these places get blocks and no
address that was there before changes. -/
structure Adds (i : ℕ) (ps : List Place) (st : Image) (din : Dinode) (st' : Image)
    (din' : Dinode) : Prop where
  sound : Sound st' (st'.held i din')
  fields : ∃ addrs, din' = din.setAddrs addrs ∧ ∀ k, ndirect < k → addrs k = din.addrs k
  kept : ∀ k, (st.held i din).own k ≠ 0 → (st'.held i din').own k = (st.held i din).own k
  only : ∀ k, (st'.held i din').own k ≠ 0 → (st.held i din).own k ≠ 0 ∨ k.1 = i ∧ k.2 ∈ ps
  data : ∀ j, SameBlocks (st.held i din) (st'.held i din') j
  low : ∀ b < nmeta, st'.img b = st.img b
  freeinode : st'.freeinode = st.freeinode
  freeblock : st'.freeblock = st.freeblock + ps.length

namespace Adds

variable {ps qs : List Place} {st1 : Image} {din1 : Dinode}

theorem refl (h : Sound st (st.held i din)) : Adds i [] st din st din where
  sound := h
  fields := ⟨din.addrs, rfl, fun _ _ => rfl⟩
  kept _ _ := rfl
  only _ hk := .inl hk
  data j := .refl _ j
  low _ _ := rfl
  freeinode := rfl
  freeblock := rfl

theorem trans (h : Adds i ps st din st1 din1) (h1 : Adds i qs st1 din1 st' din') :
    Adds i (ps ++ qs) st din st' din' where
  sound := h1.sound
  fields := by
    obtain ⟨addrs, rfl, haddrs⟩ := h.fields
    obtain ⟨addrs', rfl, haddrs'⟩ := h1.fields
    exact ⟨addrs', rfl, fun k hk => (haddrs' k hk).trans (haddrs k hk)⟩
  kept k hk := by rw [h1.kept k (by rwa [h.kept k hk]), h.kept k hk]
  only k hk := by
    rcases h1.only k hk with hk1 | ⟨hi, hq⟩
    · rcases h.only k hk1 with hk0 | ⟨hi, hp⟩
      · exact .inl hk0
      · exact .inr ⟨hi, mem_append_left qs hp⟩
    · exact .inr ⟨hi, mem_append_right ps hq⟩
  data j bn hbn := by
    have hsame := h.kept _ hbn
    rw [← h.data j bn hbn, ← hsame]
    exact h1.data j bn (hsame ▸ hbn)
  low b hb := (h1.low b hb).trans (h.low b hb)
  freeinode := h1.freeinode.trans h.freeinode
  freeblock := by rw [h1.freeblock, h.freeblock, length_append, add_assoc]

/-- The other places are as they were. -/
theorem own_eq_zero_iff (h : Adds i ps st din st' din') {p : Place} (hp : p ∉ ps) :
    (st'.held i din').own (i, p) = 0 ↔ (st.held i din).own (i, p) = 0 := by
  constructor
  · intro h0
    by_contra hne
    rw [h.kept _ hne] at h0
    exact hne h0
  · intro h0
    by_contra hne
    rcases h.only _ hne with hold | ⟨-, hmem⟩
    · exact hold h0
    · exact hp hmem

end Adds

/-- The next block is marked when it is taken. -/
theorem disk_bitmap_succ (h : st'.freeblock = st.freeblock + 1) :
    st'.disk.bitmap = update st.disk.bitmap st.freeblock true := by
  funext b
  by_cases hb : b = st.freeblock
  · subst hb
    simp [Image.disk, h]
  · rw [update_of_ne hb]
    exact decide_eq_decide.mpr (by omega)

namespace Sound

/-- The blocks of inodes lie between the metadata and `freeblock`. -/
theorem place (h : Sound st s) {k : ℕ × Place} (hk : s.own k ≠ 0) :
    nmeta ≤ s.own k ∧ s.own k < st.freeblock := by
  obtain ⟨hA, hbit⟩ := h.sep.owned.area k hk
  rw [h.bits] at hbit
  exact ⟨hA.1, of_decide_eq_true hbit⟩

theorem nmeta_le (h : Sound st s) : nmeta ≤ st.freeblock := by
  have hbit := h.sep.reserved (nmeta - 1) (by decide)
  rw [h.bits] at hbit
  have hlt : nmeta - 1 < st.freeblock := of_decide_eq_true hbit
  change 46 - 1 < st.freeblock at hlt
  change 46 ≤ st.freeblock
  omega

/-- The next block is a data block that nobody has. -/
theorem next (h : Sound st s) (hroom : st.freeblock < fssize) :
    InData superblock st.freeblock ∧ s.bitmap st.freeblock = false ∧ st.freeblock ≠ 0 := by
  have hle := h.nmeta_le
  refine ⟨⟨hle, hroom⟩, ?_, ?_⟩
  · rw [h.bits]
    exact decide_eq_false (lt_irrefl _)
  · intro h0
    rw [h0] at hle
    exact absurd hle (by decide)

end Sound

/-- One block is taken, for a place that had none. -/
theorem Adds.one {p : Place} (h : Sound st (st.held i din)) (hroom : st.freeblock < fssize)
    (hp : (st.held i din).own (i, p) = 0)
    (hown : (st'.held i din').own = update (st.held i din).own (i, p) st.freeblock)
    (hfields : ∃ addrs, din' = din.setAddrs addrs ∧ ∀ k, ndirect < k → addrs k = din.addrs k)
    (hdata : ∀ j, SameBlocks (st.held i din) (st'.held i din') j)
    (hlow : ∀ b < nmeta, st'.img b = st.img b) (hinode : st'.freeinode = st.freeinode)
    (hblock : st'.freeblock = st.freeblock + 1)
    (hfresh : ∀ b, st.freeblock < b → st'.img b = st.img b) : Adds i [p] st din st' din' := by
  obtain ⟨hA, hclear, h0⟩ := h.next hroom
  refine ⟨⟨h.sep.add hA h0 hclear hp (disk_bitmap_succ hblock) hown, rfl, fun b hb => ?_,
    by omega⟩, hfields,
    kept_of_update hp hown, fun k hk => ?_, hdata, hlow, hinode, hblock⟩
  · rw [hfresh b (by omega)]
    exact h.fresh b (by omega)
  · by_cases hkp : k = (i, p)
    · subst hkp
      exact .inr ⟨rfl, mem_singleton_self p⟩
    · rw [hown, update_of_ne hkp] at hk
      exact .inl hk

/-! ### The blocks of a file -/

theorem withAddr_run : Runs (withAddr din k) st E fun din' st' =>
    if din.addrs k = 0 then
      din' = din.setAddrs (update din.addrs k st.freeblock) ∧ st' = st.takeBlock
    else din' = din ∧ st' = st := by
  unfold withAddr
  split_ifs <;> exact ⟨rfl, rfl⟩

/-- An address of the inode that is 0 gets the next block. -/
theorem withAddr_spec (h : Sound st (st.held i din)) (hlive : din.type ≠ .free) (hk : k ≤ ndirect)
    (hroom : din.addrs k = 0 → st.freeblock < fssize) :
    Runs (withAddr din k) st E fun din' st' =>
      Adds i (if din.addrs k = 0 then [.direct k] else []) st din st' din' ∧ din'.addrs k ≠ 0 := by
  refine withAddr_run.mono ?_
  intro din' st' hrun
  split_ifs at hrun ⊢ with h0
  · obtain ⟨rfl, rfl⟩ := hrun
    obtain ⟨hA, hclear, hb0⟩ := h.next (hroom h0)
    have hheld : Held (st.held i din) i ⟨1, true, din⟩ := held_held hlive
    have hown : (st.held i din).own (i, .direct k) = 0 := (held_own_direct hlive hk).trans h0
    set din' := din.setAddrs (update din.addrs k st.freeblock) with hdin'
    have hown' : (st.takeBlock.held i din').own =
        update (st.held i din).own (i, .direct k) st.freeblock := by
      rw [← own_setAddr h.sep hheld hk h0 hb0 hclear]
      refine own_eq_of_inode (fun j => ?_) ?_
      · rw [held_inode]
        by_cases hj : j = i
        · subst hj
          simp [FsState.inode, Entry.setIno, hdin']
        · simp [FsState.inode, Image.held, Image.disk, Image.takeBlock, hj]
      · exact (update_eq_self_iff.mpr (h.fresh _ le_rfl).symm).symm
    refine ⟨.one h (hroom h0) hown hown' ⟨_, rfl, fun l hl => ?_⟩ (fun j _ _ => rfl)
      (fun _ _ => rfl) rfl rfl fun _ _ => rfl, ?_⟩
    · exact update_of_ne (by omega) ..
    · simpa [hdin'] using hb0
  · obtain ⟨rfl, rfl⟩ := hrun
    exact ⟨.refl h, h0⟩

/-- A block is taken for an entry of the indirect block. -/
theorem Adds.indirect (h : Sound st (st.held i din)) (hlive : din.type ≠ .free)
    (hind : din.addrs ndirect ≠ 0) (hm : m < nindirect)
    (h0 : uintAt (st.img (din.addrs ndirect)) m = 0) (hroom : st.freeblock < fssize) :
    Adds i [.indirect m] st din (st.takeBlock.setSect (din.addrs ndirect)
        (setUint (st.img (din.addrs ndirect)) m st.freeblock)) din := by
  obtain ⟨hA, hclear, hb0⟩ := h.next hroom
  have hheld : Held (st.held i din) i ⟨1, true, din⟩ := held_held hlive
  have hptr : (st.held i din).own (i, .direct ndirect) = din.addrs ndirect :=
    held_own_direct hlive le_rfl
  have hown : (st.held i din).own (i, .indirect m) = 0 := (held_own_indirect hlive hind hm).trans h0
  have hplace := h.place (hptr ▸ hind)
  rw [hptr] at hplace
  have hne : din.addrs ndirect ≠ st.freeblock :=
    hptr ▸ h.sep.owned.ne_of_clear hclear hb0 (i, .direct ndirect)
  set ind := din.addrs ndirect with hindEq
  set st' := st.takeBlock.setSect ind (setUint (st.img ind) m st.freeblock) with hst'
  have hfresh0 : update st.img st.freeblock (fun _ => 0) = st.img :=
    update_eq_self_iff.mpr (h.fresh _ le_rfl).symm
  have hown' : (st'.held i din).own = update (st.held i din).own (i, .indirect m) st.freeblock := by
    rw [← own_setIndirect h.sep hheld rfl hind hm hb0 (hroom.trans (by decide)) hclear]
    refine own_eq_of_inode (fun j => ?_) ?_
    · rw [held_inode, hst', Image.setSect_img, inodes_update hplace.1]
      exact (held_inode j).symm
    · change update st.img ind (setUint (st.img ind) m st.freeblock) =
        update (update st.img st.freeblock fun _ => 0) ind
          (setUint (update st.img st.freeblock (fun _ => 0) ind) m st.freeblock)
      rw [hfresh0]
  refine .one h hroom hown hown' ⟨din.addrs, rfl, fun _ _ => rfl⟩ (fun j bn hbn => ?_)
    (fun b hb => ?_) rfl rfl fun b hb => ?_
  · -- the indirect block is no data block
    refine update_of_ne (fun heq => ?_) ..
    have hpl := (Prod.mk.inj (h.sep.owned.inj _ _ (heq.trans hptr.symm) hbn)).2
    exact placeOf_ne_ndirect bn hpl
  · exact update_of_ne (ne_of_lt (lt_of_lt_of_le hb hplace.1)) ..
  · exact update_of_ne (by omega) ..

/-- The places that get a block for the block `fbn` of a file. -/
def missing (s : FsState) (i fbn : ℕ) : List Place :=
  (if ndirect ≤ fbn ∧ s.own (i, .direct ndirect) = 0 then [.direct ndirect] else []) ++
    if s.own (i, placeOf fbn) = 0 then [placeOf fbn] else []

theorem missing_direct (h : fbn < ndirect) :
    missing s i fbn = if s.own (i, .direct fbn) = 0 then [.direct fbn] else [] := by
  rw [missing, if_neg fun hle => absurd h hle.1.not_gt, nil_append, placeOf, if_pos h]

theorem missing_indirect (h : ndirect ≤ fbn) :
    missing s i fbn = (if s.own (i, .direct ndirect) = 0 then [.direct ndirect] else []) ++
      if s.own (i, .indirect (fbn - ndirect)) = 0 then [.indirect (fbn - ndirect)] else [] := by
  simp only [missing, h, true_and, placeOf, if_neg h.not_gt]

theorem mem_missing {p : Place} (h : p ∈ missing s i fbn) :
    p = .direct ndirect ∧ ndirect ≤ fbn ∨ p = placeOf fbn := by
  rcases mem_append.mp h with h | h
  · split_ifs at h with hle
    · exact .inl ⟨mem_singleton.mp h, hle.1⟩
    · cases h
  · split_ifs at h
    · exact .inr (mem_singleton.mp h)
    · cases h

theorem rsect_spec (h : sec < fssize) :
    Runs (rsect sec) st E fun buf st' => buf = st.img sec ∧ st' = st := by
  unfold rsect
  rw [Runs.get_bind, if_pos h]
  exact ⟨rfl, rfl⟩

/-- Behind the end of the image there is nothing to read. -/
theorem rsect_full (h : ¬sec < fssize) (hE : E .read) : Runs (rsect sec) st E fun _ _ => False := by
  unfold rsect
  rw [Runs.get_bind, if_neg h]
  exact hE

/-- An entry of the indirect block that is 0 gets the next block. -/
theorem withEntry_spec (h : Sound st (st.held i din)) (hlive : din.type ≠ .free)
    (hind : din.addrs ndirect ≠ 0) (hm : m < nindirect)
    (hroom : uintAt (st.img (din.addrs ndirect)) m = 0 → st.freeblock < fssize) :
    Runs (withEntry (din.addrs ndirect) m) st E fun x st' =>
      Adds i (if (st.held i din).own (i, .indirect m) = 0 then [.indirect m] else [])
        st din st' din ∧ (st'.held i din).own (i, .indirect m) = x ∧ x ≠ 0 := by
  have hptr : (st.held i din).own (i, .direct ndirect) = din.addrs ndirect :=
    held_own_direct hlive le_rfl
  have hplace := h.place (hptr ▸ hind)
  rw [hptr] at hplace
  unfold withEntry
  refine (rsect_spec (hplace.2.trans_le h.le)).bind ?_
  rintro _ st ⟨rfl, rfl⟩
  have hown : (st.held i din).own (i, .indirect m) = uintAt (st.img (din.addrs ndirect)) m :=
    held_own_indirect hlive hind hm
  rw [hown]
  split_ifs with h0
  · obtain ⟨-, -, hb0⟩ := h.next (hroom h0)
    have hval : uintAt (setUint (st.img (din.addrs ndirect)) m st.freeblock) m = st.freeblock :=
      uintAt_setUint_self _ _ ((hroom h0).trans (by decide))
    refine ⟨.indirect h hlive hind hm h0 (hroom h0), ?_, ?_⟩
    · rw [held_own_indirect hlive hind hm, Image.setSect_img, update_self]
    · exact fun hz => hb0 (hval.symm.trans hz)
  · exact ⟨.refl h, hown, h0⟩

/-- **The block for the block `fbn` of a file** is there afterwards, and only the blocks that were
missing are taken. -/
theorem blockFor_spec (h : Sound st (st.held i din)) (hlive : din.type ≠ .free)
    (hfbn : fbn < maxfile)
    (hroom : st.freeblock + (missing (st.held i din) i fbn).length ≤ fssize) :
    Runs (blockFor din fbn) st E fun r st' =>
      Adds i (missing (st.held i din) i fbn) st din st' r.1 ∧
        (st'.held i r.1).own (i, placeOf fbn) = r.2 ∧ r.2 ≠ 0 := by
  unfold blockFor
  by_cases hdir : fbn < ndirect
  · rw [missing_direct hdir, held_own_direct hlive hdir.le] at hroom
    rw [if_pos hdir, missing_direct hdir, held_own_direct hlive hdir.le, placeOf, if_pos hdir]
    refine (withAddr_spec h hlive hdir.le fun h0 => ?_).bind ?_
    · rw [if_pos h0] at hroom
      exact hroom
    · rintro din' st' ⟨hadds, hne⟩
      obtain ⟨addrs, rfl, -⟩ := hadds.fields
      exact ⟨hadds, held_own_direct hlive hdir.le, hne⟩
  · have hle : ndirect ≤ fbn := Nat.le_of_not_lt hdir
    rw [missing_indirect hle, held_own_direct hlive le_rfl, length_append] at hroom
    rw [if_neg hdir, missing_indirect hle, held_own_direct hlive le_rfl, placeOf, if_neg hdir]
    refine (withAddr_spec h hlive le_rfl fun h0 => ?_).bind ?_
    · rw [if_pos h0, length_singleton] at hroom
      omega
    rintro din1 st1 ⟨hadds, hind⟩
    obtain ⟨addrs, rfl, -⟩ := hadds.fields
    have hlive1 : (din.setAddrs addrs).type ≠ .free := hlive
    have hm : fbn - ndirect < nindirect := by
      change fbn < 12 + 256 at hfbn
      change 12 ≤ fbn at hle
      change fbn - 12 < 256
      omega
    -- a new indirect block is empty, as the missing one was
    have hiff := hadds.own_eq_zero_iff (p := .indirect (fbn - ndirect)) (by split_ifs <;> simp)
    refine (withEntry_spec hadds.sound hlive1 hind hm fun h0 => ?_).bind ?_
    · rw [← held_own_indirect (i := i) hlive1 hind hm, hiff] at h0
      rw [if_pos h0, length_singleton] at hroom
      have hcount := hadds.freeblock
      omega
    · rintro x st' ⟨hadds', hx⟩
      simp only [hiff] at hadds'
      exact ⟨hadds.trans hadds', hx⟩

/-- The entry is of a block beyond the end of a full image, or the indirect block is. -/
theorem withEntry_full {ind : ℕ} (hE : E .read)
    (hfull : ind < fssize → uintAt (st.img ind) m = 0 ∧ st.freeblock = fssize) :
    Runs (withEntry ind m) st E fun x _ => fssize ≤ x := by
  unfold withEntry
  by_cases hind : ind < fssize
  · refine (rsect_spec hind).bind ?_
    rintro _ st ⟨rfl, rfl⟩
    obtain ⟨h0, hblock⟩ := hfull hind
    have hval : uintAt (setUint (st.img ind) m st.freeblock) m = st.freeblock :=
      uintAt_setUint_self _ _ (by rw [hblock]; decide)
    rw [if_pos h0]
    change fssize ≤ uintAt (setUint (st.img ind) m st.freeblock) m
    rw [hval, hblock]
  · exact (rsect_full hind hE).bind fun _ _ hno => hno.elim

/-- **If the image is full**, the block found is not on it. -/
theorem blockFor_full (h : Sound st (st.held i din)) (hlive : din.type ≠ .free)
    (hfbn : fbn < maxfile) (hE : E .read)
    (hfull : fssize < st.freeblock + (missing (st.held i din) i fbn).length) :
    Runs (blockFor din fbn) st E fun r _ => fssize ≤ r.2 := by
  have hle := h.le
  unfold blockFor
  by_cases hdir : fbn < ndirect
  · rw [missing_direct hdir, held_own_direct hlive hdir.le] at hfull
    rw [if_pos hdir]
    refine withAddr_run.bind ?_
    intro din' st' hrun
    split_ifs at hfull hrun with h0
    · obtain ⟨rfl, -⟩ := hrun
      rw [length_singleton] at hfull
      change fssize ≤ update din.addrs fbn st.freeblock fbn
      rw [update_self]
      omega
    · rw [length_nil] at hfull
      omega
  · have hge : ndirect ≤ fbn := Nat.le_of_not_lt hdir
    have hm : fbn - ndirect < nindirect := by
      change fbn < 12 + 256 at hfbn
      change 12 ≤ fbn at hge
      change fbn - 12 < 256
      omega
    rw [missing_indirect hge, held_own_direct hlive le_rfl, length_append] at hfull
    rw [if_neg hdir]
    refine withAddr_run.bind ?_
    intro din' st' hrun
    by_cases h0 : din.addrs ndirect = 0
    · rw [if_pos h0] at hrun
      obtain ⟨rfl, rfl⟩ := hrun
      have hlen : (if (st.held i din).own (i, .indirect (fbn - ndirect)) = 0
          then [Place.indirect (fbn - ndirect)] else []).length ≤ 1 := by
        split_ifs <;> simp
      rw [if_pos h0, length_singleton] at hfull
      rw [Dinode.setAddrs_addrs, update_self]
      refine (withEntry_full hE fun hlt => ⟨?_, ?_⟩).bind fun _ _ hx => hx
      · rw [Image.takeBlock_img, h.fresh _ le_rfl, uintAt_zero]
      · rw [Image.takeBlock_freeblock]
        omega
    · rw [if_neg h0] at hrun
      obtain ⟨rfl, rfl⟩ := hrun
      rw [if_neg h0, length_nil, held_own_indirect hlive h0 hm] at hfull
      refine Runs.bind (withEntry_full hE fun _ => ?_) fun _ _ hx => hx
      split_ifs at hfull with hz
      · rw [length_singleton] at hfull
        exact ⟨hz, by omega⟩
      · rw [length_nil] at hfull
        omega

end Xv6.Mkfs
