import Xv6.Mkfs.Blocks

/-!
# Appending to files of an image

`iappend` puts bytes after those that a file has, in the file's last block and in new ones. Whatever
the pieces are in which the bytes come, the contents of the file are their concatenation, and the
file has the blocks that its size needs, with an indirect block if that is more than `NDIRECT`.
-/

namespace Xv6.Mkfs

open Function List Mkfs.Image

open Fs

variable {st st' : Image} {s s' : FsState} {i : ℕ} {din din' : Dinode} {E : Abort → Prop} {j n : ℕ}
  {F : ℕ → List UInt8}

/-! ### The contents of files -/

/-- The number of blocks of a file of `n` bytes, the indirect block included. -/
def blocks (n : ℕ) : ℕ := (n + (bsize - 1)) / bsize + if ndirect * bsize < n then 1 else 0

/-- The inodes have the contents `F`, and the blocks that these need. -/
structure Stores (s : FsState) (F : ℕ → List UInt8) : Prop where
  room : ∀ i, (F i).length ≤ maxfile * bsize
  block : ∀ i, ∀ bn < maxfile, s.own (i, placeOf bn) ≠ 0 ↔ bn * bsize < (F i).length
  indirect : ∀ i, s.own (i, .direct ndirect) ≠ 0 ↔ ndirect * bsize < (F i).length
  bytes : ∀ i, s.bytes i 0 (F i).length = F i

theorem bytes_congr {off : ℕ} (h : ∀ x < n, s'.raw i (off + x) = s.raw i (off + x)) :
    s'.bytes i off n = s.bytes i off n :=
  map_congr_left fun x hx => h x (mem_range.mp hx)

theorem Stores.own_ne {y : ℕ} (h : Stores s F) (hy : y < (F j).length) :
    s.own (j, placeOf (y / bsize)) ≠ 0 := by
  refine (h.block j (y / bsize) ?_).mpr ?_
  · exact (Nat.div_lt_iff_lt_mul (by decide)).mpr (hy.trans_le (h.room j))
  · exact (Nat.div_mul_le_self y bsize).trans_lt hy

theorem Stores.congr (h : Stores s F) (hown : s'.own = s.own)
    (hdata : ∀ k, s.own k ≠ 0 → s'.data (s.own k) = s.data (s.own k)) : Stores s' F where
  room := h.room
  block := hown ▸ h.block
  indirect := hown ▸ h.indirect
  bytes j := by
    refine (bytes_congr fun y hy => ?_).trans (h.bytes j)
    rw [zero_add, FsState.raw, FsState.raw, hown, hdata _ (h.own_ne hy)]

theorem Stores.missing_length {off : ℕ} (h : Stores s F) (hoff : (F i).length = off)
    (hlt : off / bsize < maxfile) (hn : 0 < n) (hend : off + n ≤ (off / bsize + 1) * bsize) :
    (missing s i (off / bsize)).length + blocks off = blocks (off + n) := by
  have hblock := h.block i (off / bsize) hlt
  have hind := h.indirect i
  rw [hoff] at hblock hind
  have hb : s.own (i, placeOf (off / bsize)) = 0 ↔ off % bsize = 0 := by
    rw [← not_iff_not, ← ne_eq, hblock]
    change off / 1024 * 1024 < off ↔ ¬off % 1024 = 0
    omega
  have hi : s.own (i, .direct ndirect) = 0 ↔ off ≤ ndirect * bsize := by
    rw [← not_iff_not, ← ne_eq, hind, not_le]
  simp only [missing, blocks, hb, hi, length_append]
  change off + n ≤ (off / 1024 + 1) * 1024 at hend
  change (if 12 ≤ off / 1024 ∧ off ≤ 12 * 1024 then [Place.direct ndirect] else []).length +
    (if off % 1024 = 0 then [placeOf (off / bsize)] else []).length +
    ((off + 1023) / 1024 + if 12 * 1024 < off then 1 else 0) =
    (off + n + 1023) / 1024 + if 12 * 1024 < off + n then 1 else 0
  split_ifs <;> simp only [length_singleton, length_nil] <;> omega

section Write

variable {x j bn : ℕ} {buf : Block}

theorem held_own_setSect (h : Sound st (st.held i din))
    (hx : (st.held i din).own (j, placeOf bn) = x)
    (hx0 : x ≠ 0) : ((st.setSect x buf).held i din).own = (st.held i din).own := by
  have hplace := h.place (hx ▸ hx0)
  rw [hx] at hplace
  have hino : ∀ l, ((st.setSect x buf).held i din).inode l = (st.held i din).inode l := by
    intro l
    rw [held_inode, held_inode, setSect_img, inodes_update hplace.1]
  refine own_congr_data (fun l => by rw [hino]) (fun l => by rw [hino]) fun l hl => ?_
  refine update_of_ne (fun heq => ?_) ..
  have hpl := (Prod.mk.inj (h.sep.owned.inj _ _ (heq.trans hx.symm) hl)).2
  exact placeOf_ne_ndirect bn hpl.symm

theorem Sound.setSect (h : Sound st (st.held i din)) (hx : (st.held i din).own (j, placeOf bn) = x)
    (hx0 : x ≠ 0) : Sound (st.setSect x buf) ((st.setSect x buf).held i din) where
  sep := h.sep.congr rfl (held_own_setSect h hx hx0)
  bits := rfl
  fresh b hb := by
    have hplace := h.place (hx ▸ hx0)
    rw [hx] at hplace
    rw [setSect_freeblock] at hb
    rw [setSect_img, update_of_ne (by omega), h.fresh b hb]
  le := h.le

end Write

section Append

variable {F : ℕ → List UInt8} {off n x : ℕ} {p : List UInt8}

/-- The block of the end of the file after `n` bytes of `p` have been copied to it. -/
theorem map_bcopy (hn : n ≤ p.length) (buf : Block) (o : ℕ) :
    ((List.range n).map fun k => bcopy p buf o n (o + k)) = p.take n := by
  refine ext_getElem (by simp [hn]) fun k hk hk' => ?_
  have hlt : k < n := by simpa using hk
  simp [bcopy, hlt, lt_of_lt_of_le hlt hn]

/-- Which blocks of files are there after those for the block `fbn` have been added. -/
theorem Adds.block_iff {fbn bn : ℕ} (h : Adds i (missing (st.held i din) i fbn) st din st' din')
    (hx : (st'.held i din').own (i, placeOf fbn) ≠ 0) :
    (st'.held i din').own (j, placeOf bn) ≠ 0 ↔
      (st.held i din).own (j, placeOf bn) ≠ 0 ∨ j = i ∧ bn = fbn := by
  constructor
  · intro hne
    refine (h.only _ hne).imp_right fun ⟨hj, hmem⟩ => ⟨hj, ?_⟩
    rcases mem_missing hmem with ⟨heq, -⟩ | heq
    · exact absurd heq (placeOf_ne_ndirect bn)
    · exact placeOf_inj.mp heq
  · rintro (hne | ⟨rfl, rfl⟩)
    · rwa [h.kept _ hne]
    · exact hx

theorem Adds.indirect_iff {fbn : ℕ} (h : Adds i (missing (st.held i din) i fbn) st din st' din')
    (hx : (st'.held i din').own (i, placeOf fbn) ≠ 0) :
    (st'.held i din').own (j, .direct ndirect) ≠ 0 ↔
      (st.held i din).own (j, .direct ndirect) ≠ 0 ∨ j = i ∧ ndirect ≤ fbn := by
  constructor
  · intro hne
    refine (h.only _ hne).imp_right fun ⟨hj, hmem⟩ => ⟨hj, ?_⟩
    rcases mem_missing hmem with ⟨-, hle⟩ | heq
    · exact hle
    · exact absurd heq.symm (placeOf_ne_ndirect fbn)
  · rintro (hne | ⟨rfl, hle⟩)
    · rwa [h.kept _ hne]
    · rw [placeOf, if_neg hle.not_gt] at hx
      exact own_ndirect_of_indirect hx

/-- **A round of `iappend`**: the block that was missing is there and has the new bytes. -/
theorem Stores.round (h : Stores (st.held i din) F) (hoff : (F i).length = off)
    (hadds : Adds i (missing (st.held i din) i (off / bsize)) st din st' din')
    (hx : (st'.held i din').own (i, placeOf (off / bsize)) = x) (hx0 : x ≠ 0)
    (hlt : off / bsize < maxfile) (hn0 : 0 < n) (hn : n ≤ p.length)
    (hend : off + n ≤ (off / bsize + 1) * bsize) :
    Stores ((st'.setSect x (bcopy p (st'.img x) (off % bsize) n)).held i din')
      (update F i (F i ++ p.take n)) := by
  set s := st.held i din
  set st2 := st'.setSect x (bcopy p (st'.img x) (off % bsize) n) with hst2
  have hown : (st2.held i din').own = (st'.held i din').own := held_own_setSect hadds.sound hx hx0
  have hlen : (F i ++ p.take n).length = off + n := by simp [hoff, hn]
  have hx' : (st'.held i din').own (i, placeOf (off / bsize)) ≠ 0 := hx ▸ hx0
  -- the bytes that were there before are where they were
  have hraw : ∀ j, ∀ y < (F j).length, (st2.held i din').raw j y = s.raw j y := by
    intro j y hy
    have hne := h.own_ne hy
    have hkept := hadds.kept _ hne
    have hdata : st'.img (s.own (j, placeOf (y / bsize))) =
        st.img (s.own (j, placeOf (y / bsize))) :=
      hadds.data j _ hne
    rw [FsState.raw, FsState.raw, hown, hkept]
    change update st'.img x _ (s.own (j, placeOf (y / bsize))) (y % bsize) = st.img _ _
    by_cases hblock : s.own (j, placeOf (y / bsize)) = x
    · have hplace := hadds.sound.sep.owned.inj (j, placeOf (y / bsize)) (i, placeOf (off / bsize))
        (by rw [hkept, hblock, hx]) (by rwa [hkept])
      obtain ⟨rfl, hpl⟩ := Prod.mk.inj hplace
      have hdiv := placeOf_inj.mp hpl
      have hmod : y % bsize < off % bsize := by
        change y / 1024 = off / 1024 at hdiv
        change y % 1024 < off % 1024
        omega
      rw [hblock] at hdata ⊢
      rw [update_self, bcopy, if_neg fun hle => absurd hmod hle.1.not_gt, hdata]
    · rw [update_of_ne hblock, hdata]
  have hother : ∀ j, j ≠ i → update F i (F i ++ p.take n) j = F j := fun j hj =>
    update_of_ne hj ..
  refine ⟨fun j => ?_, fun j bn hbn => ?_, fun j => ?_, fun j => ?_⟩
  · by_cases hj : j = i
    · subst hj
      rw [update_self, hlen]
      exact hend.trans (Nat.mul_le_mul_right bsize hlt)
    · rw [hother j hj]
      exact h.room j
  · rw [hown, hadds.block_iff hx', h.block j bn hbn]
    by_cases hj : j = i
    · subst hj
      rw [update_self, hlen, hoff]
      change off + n ≤ (off / 1024 + 1) * 1024 at hend
      change bn * 1024 < off ∨ j = j ∧ bn = off / 1024 ↔ bn * 1024 < off + n
      omega
    · rw [hother j hj]
      simp [hj]
  · rw [hown, hadds.indirect_iff hx', h.indirect j]
    by_cases hj : j = i
    · subst hj
      rw [update_self, hlen, hoff]
      change off + n ≤ (off / 1024 + 1) * 1024 at hend
      change 12 * 1024 < off ∨ j = j ∧ 12 ≤ off / 1024 ↔ 12 * 1024 < off + n
      omega
    · rw [hother j hj]
      simp [hj]
  · have hsame : ∀ l, (st2.held i din').bytes l 0 (F l).length = F l := by
      intro l
      refine (bytes_congr (s := s) fun y hy => ?_).trans (h.bytes l)
      rw [zero_add]
      exact hraw l y hy
    by_cases hj : j = i
    · subst hj
      have hfit : n ≤ bsize - (0 + off) % bsize := by
        change off + n ≤ (off / 1024 + 1) * 1024 at hend
        change n ≤ 1024 - (0 + off) % 1024
        omega
      rw [update_self, hlen, bytes_add hfit, ← hoff, hsame, hoff, zero_add, hown, hx]
      change F j ++ ((List.range n).map fun k =>
        update st'.img x _ x (off % bsize + k)) = _
      rw [update_self, map_bcopy hn]
    · rw [hother j hj]
      exact hsame j

theorem blocks_mono {m : ℕ} (h : m ≤ n) : blocks m ≤ blocks n := by
  unfold blocks
  change (m + 1023) / 1024 + (if 12 * 1024 < m then 1 else 0) ≤
    (n + 1023) / 1024 + if 12 * 1024 < n then 1 else 0
  split_ifs <;> omega

/-- What the loop of `iappend` does with the bytes `p`. -/
structure Appended (i : ℕ) (F : ℕ → List UInt8) (p : List UInt8) (st : Image) (din : Dinode)
    (st' : Image) (din' : Dinode) : Prop where
  sound : Sound st' (st'.held i din')
  stores : Stores (st'.held i din') (update F i (F i ++ p))
  fields : ∃ addrs, din' = din.setAddrs addrs ∧ ∀ k, ndirect < k → addrs k = din.addrs k
  low : ∀ b < nmeta, st'.img b = st.img b
  freeinode : st'.freeinode = st.freeinode
  freeblock : st'.freeblock + blocks (F i).length = st.freeblock + blocks ((F i).length + p.length)

/-- **The loop of `iappend`** appends the bytes; it fails only if there is no room for them in the
file or on the image. -/
theorem iappendLoop_spec (fuel : ℕ) (h : Sound st (st.held i din)) (hlive : din.type ≠ .free)
    (hst : Stores (st.held i din) F) (hoff : (F i).length = off) (hfuel : p.length ≤ fuel)
    (hmax : maxfile * bsize < off + p.length → E .maxfile)
    (hroom : fssize + blocks off < st.freeblock + blocks (off + p.length) → E .read) :
    Runs (iappendLoop fuel din off p) st E fun r st' =>
      Appended i F p st din st' r.1 ∧ r.2 = off + p.length := by
  have hdone : ∀ {st : Image} {din : Dinode} {F : ℕ → List UInt8}, Sound st (st.held i din) →
      Stores (st.held i din) F → Appended i F [] st din st din := by
    intro st din F h hst
    refine ⟨h, ?_, ⟨din.addrs, rfl, fun _ _ => rfl⟩, fun _ _ => rfl, rfl, rfl⟩
    rwa [append_nil, update_eq_self]
  induction fuel generalizing st din F off p with
  | zero =>
    obtain rfl : p = [] := List.length_eq_zero_iff.mp (Nat.le_zero.mp hfuel)
    exact ⟨hdone h hst, rfl⟩
  | succ fuel ih =>
    rw [iappendLoop]
    by_cases hp : p.length = 0
    · obtain rfl : p = [] := List.length_eq_zero_iff.mp hp
      rw [if_pos hp]
      exact ⟨hdone h hst, rfl⟩
    rw [if_neg hp]
    by_cases hbig : maxfile ≤ off / bsize
    · rw [if_pos hbig]
      have hle : maxfile * bsize ≤ off :=
        (Nat.mul_le_mul_right bsize hbig).trans (Nat.div_mul_le_self off bsize)
      exact hmax (by omega)
    have hlt : off / bsize < maxfile := Nat.lt_of_not_le hbig
    rw [if_neg hbig]
    set n := min p.length ((off / bsize + 1) * bsize - off) with hn
    have hblock : off < (off / bsize + 1) * bsize := by
      change off < (off / 1024 + 1) * 1024
      omega
    have hn0 : 0 < n := by omega
    have hnp : n ≤ p.length := min_le_left _ _
    have hend : off + n ≤ (off / bsize + 1) * bsize := by omega
    have hcount := hst.missing_length hoff hlt hn0 hend
    have hmono : blocks (off + n) ≤ blocks (off + p.length) := blocks_mono (by omega)
    by_cases hfull : fssize < st.freeblock + (missing (st.held i din) i (off / bsize)).length
    · -- the block found cannot be read
      have hread : E .read := hroom (by omega)
      refine (blockFor_full h hlive hlt hread hfull).bind ?_
      rintro ⟨din1, x⟩ st1 hx
      exact (rsect_full (not_lt.mpr hx) hread).bind fun _ _ hno => hno.elim
    refine (blockFor_spec h hlive hlt (by omega)).bind ?_
    rintro ⟨din1, x⟩ st1 ⟨hadds, hx, hx0⟩
    dsimp only at hadds hx hx0
    have hplace := hadds.sound.place (hx ▸ hx0)
    rw [hx] at hplace
    refine (rsect_spec (hplace.2.trans_le hadds.sound.le)).bind ?_
    rintro _ st2 ⟨rfl, rfl⟩
    have hmod : off - off / bsize * bsize = off % bsize := by
      change off - off / 1024 * 1024 = off % 1024
      omega
    rw [wsect_bind, hmod]
    have hst3 := hst.round hoff hadds hx hx0 hlt hn0 hnp hend
    have hlen : (F i ++ p.take n).length = off + n := by simp [hoff, hnp]
    have hlen' : (update F i (F i ++ p.take n) i).length = off + n := by
      rw [update_self, hlen]
    have hblock1 := hadds.freeblock
    have hdrop : (p.drop n).length = p.length - n := length_drop
    have htotal : off + n + (p.length - n) = off + p.length := by omega
    obtain ⟨addrs, hdin1, haddrs⟩ := hadds.fields
    have hlive1 : din1.type ≠ .free := by rwa [hdin1]
    refine (ih (hadds.sound.setSect hx hx0) hlive1 hst3 hlen' (by omega) ?_ ?_).mono ?_
    · rw [hdrop, htotal]
      exact hmax
    · rw [hdrop, htotal, setSect_freeblock]
      intro hlack
      exact hroom (by omega)
    rintro ⟨din', off'⟩ st' ⟨happ, hoff'⟩
    rw [hdrop, htotal] at hoff'
    refine ⟨⟨happ.sound, ?_, ?_, fun b hb => ?_, happ.freeinode.trans hadds.freeinode, ?_⟩, hoff'⟩
    · have hstores := happ.stores
      rwa [update_idem, update_self, append_assoc, take_append_drop] at hstores
    · obtain ⟨addrs', rfl, haddrs'⟩ := happ.fields
      refine ⟨addrs', by rw [hdin1]; rfl, fun k hk => ?_⟩
      rw [haddrs' k hk, hdin1]
      exact haddrs k hk
    · rw [happ.low b hb, ← hadds.low b hb]
      exact update_of_ne (by omega) ..
    · have hfinal := happ.freeblock
      rw [hlen', hdrop, htotal, setSect_freeblock] at hfinal
      rw [hoff]
      omega

end Append

/-! ### Inodes at rest -/

namespace Image

/-- The state with the inode `i` stored. -/
def setInode (st : Image) (i : ℕ) (din : Dinode) : Image :=
  st.setSect (iblock i) (putDinode (st.img (iblock i)) (i % ipb) din)

theorem setInode_img_of_ne {b : ℕ} (h : b ≠ iblock i) : (st.setInode i din).img b = st.img b :=
  update_of_ne h ..

theorem setInode_inodes (hi : i < ninodes) (hfits : din.Fits) :
    inodes (st.setInode i din).img = update (inodes st.img) i din :=
  inodes_putDinode hi hfits st.img

end Image

theorem rinode_spec (hi : i < ninodes) :
    Runs (rinode i) st E fun d st' => d = inodes st.img i ∧ st' = st := by
  unfold rinode
  refine (rsect_spec ((iblock_lt hi).trans (by decide))).bind ?_
  rintro _ st ⟨rfl, rfl⟩
  exact ⟨(if_pos hi).symm, rfl⟩

theorem winode_spec (hi : i < ninodes) :
    Runs (winode i din) st E fun _ st' => st' = st.setInode i din := by
  unfold winode
  refine (rsect_spec ((iblock_lt hi).trans (by decide))).bind ?_
  rintro _ st ⟨rfl, rfl⟩
  exact rfl

theorem inodes_fits (img : ℕ → Block) (i : ℕ) : (inodes img i).Fits := by
  unfold inodes
  split_ifs
  · exact dinodeAt_fits _ _
  · exact ⟨by decide, fun _ => Nat.two_pow_pos 32, fun _ _ => rfl⟩

theorem inodes_congr {img img' : ℕ → Block} (h : ∀ b < nmeta, img' b = img b) :
    inodes img' = inodes img := by
  funext j
  unfold inodes
  split_ifs with hj
  · rw [h _ (iblock_lt hj)]
  · rfl

/-- The image has inodes of the types `T` with the contents `F`. -/
structure Has (st : Image) (T : ℕ → FileType) (F : ℕ → List UInt8) : Prop where
  sound : Sound st st.disk
  stores : Stores st.disk F
  type : ∀ i, (inodes st.img i).type = T i
  size : ∀ i, (inodes st.img i).size = (F i).length
  fresh : ∀ i, st.freeinode ≤ i → inodes st.img i = .zero
  super : st.img 1 = superblockBytes

namespace Has

variable {T : ℕ → FileType} {F : ℕ → List UInt8}

theorem held_own (st : Image) (i : ℕ) : (st.held i (inodes st.img i)).own = st.disk.own := by
  refine own_eq_of_inode (fun j => ?_) rfl
  rw [held_inode, update_eq_self]
  rfl

theorem held (h : Has st T F) :
    Sound st (st.held i (inodes st.img i)) ∧ Stores (st.held i (inodes st.img i)) F :=
  ⟨⟨h.sound.sep.congr rfl (held_own st i), rfl, h.sound.fresh, h.sound.le⟩,
    h.stores.congr (held_own st i) fun _ _ => rfl⟩

theorem setInode (hi : i < ninodes) (h : Sound st (st.held i din)) (hst : Stores (st.held i din) F)
    (hfits : Dinode.Fits { din with size := n }) :
    Sound (st.setInode i { din with size := n }) (st.setInode i { din with size := n }).disk ∧
      Stores (st.setInode i { din with size := n }).disk F := by
  set din' : Dinode := { din with size := n } with hdin'
  have hino : ∀ j, (st.setInode i din').disk.inode j = update (inodes st.img) i din' j :=
    fun j => congrFun (setInode_inodes hi hfits) j
  have hdata : ∀ b, nmeta ≤ b → (st.setInode i din').img b = st.img b := fun b hb =>
    setInode_img_of_ne (ne_of_gt ((iblock_lt hi).trans_le hb))
  have hown : (st.setInode i din').disk.own = (st.held i din).own := by
    refine own_congr_data (fun j => ?_) (fun j => ?_) fun j hj => hdata _ (h.place hj).1
    all_goals
      rw [hino, held_inode]
      by_cases hji : j = i
      · subst hji
        rw [update_self, update_self]
      · rw [update_of_ne hji, update_of_ne hji]
  refine ⟨⟨h.sep.congr rfl hown, rfl, fun b hb => ?_, h.le⟩,
    hst.congr hown fun k hk => hdata _ (h.place hk).1⟩
  exact (hdata b (h.nmeta_le.trans hb)).trans (h.fresh b hb)

theorem lt_freeinode (h : Has st T F) (hlive : T i ≠ .free) : i < st.freeinode := by
  by_contra hle
  refine hlive ?_
  rw [← h.type i, h.fresh i (Nat.le_of_not_lt hle)]
  rfl

end Has

section Spec

variable {T : ℕ → FileType} {F : ℕ → List UInt8} {p : List UInt8}

/-- **`iappend`** appends the bytes to the contents of the inode; it fails only if there is no room
for them in the file or on the image. -/
theorem iappend_spec (h : Has st T F) (hi : i < ninodes) (hlive : T i ≠ .free)
    (hmax : maxfile * bsize < (F i).length + p.length → E .maxfile)
    (hroom : fssize + blocks (F i).length < st.freeblock + blocks ((F i).length + p.length) →
      E .read) :
    Runs (iappend i p) st E fun _ st' => Has st' T (update F i (F i ++ p)) ∧
      st'.freeinode = st.freeinode ∧
      st'.freeblock + blocks (F i).length = st.freeblock + blocks ((F i).length + p.length) := by
  unfold iappend
  refine (rinode_spec hi).bind ?_
  rintro _ st ⟨rfl, rfl⟩
  obtain ⟨hsound, hstores⟩ := h.held (i := i)
  have hlive' : (inodes st.img i).type ≠ .free := by rwa [h.type i]
  rw [h.size i]
  refine (iappendLoop_spec p.length hsound hlive' hstores rfl le_rfl hmax hroom).bind ?_
  rintro ⟨din, off⟩ st1 ⟨happ, hoff⟩
  dsimp only at happ hoff
  obtain ⟨addrs, rfl, haddrs⟩ := happ.fields
  set din := (inodes st.img i).setAddrs addrs with hdin
  have hfits : Dinode.Fits { din with size := off } := by
    refine ⟨?_, fun k => ?_, fun k hk => ?_⟩
    · have hle := happ.stores.room i
      rw [update_self, length_append, ← hoff] at hle
      exact hle.trans_lt (by decide)
    · by_cases hk : k ≤ ndirect
      · have hown : (st1.held i din).own (i, .direct k) = addrs k := held_own_direct hlive' hk
        by_cases h0 : addrs k = 0
        · change addrs k < _
          rw [h0]
          decide
        · have hlt := (happ.sound.place (hown ▸ h0)).2.trans_le happ.sound.le
          rw [hown] at hlt
          exact hlt.trans (by decide)
      · have heq := haddrs k (Nat.lt_of_not_le hk)
        change addrs k < _
        rw [heq]
        exact (inodes_fits st.img i).addrs_lt k
    · exact (haddrs k hk).trans ((inodes_fits st.img i).addrs_eq k hk)
  refine (winode_spec hi).mono ?_
  rintro _ _ rfl
  obtain ⟨hsound', hstores'⟩ := Has.setInode hi happ.sound happ.stores hfits
  have hino : inodes (st1.setInode i { din with size := off }).img =
      update (inodes st.img) i { din with size := off } := by
    rw [setInode_inodes hi hfits, inodes_congr happ.low]
  refine ⟨⟨hsound', hstores', fun j => ?_, fun j => ?_, fun j hj => ?_, ?_⟩, happ.freeinode,
    happ.freeblock⟩
  · rw [hino]
    by_cases hj : j = i
    · subst hj
      rw [update_self]
      exact h.type j
    · rw [update_of_ne hj]
      exact h.type j
  · rw [hino]
    by_cases hj : j = i
    · subst hj
      rw [update_self, update_self, length_append]
      exact hoff
    · rw [update_of_ne hj, update_of_ne hj]
      exact h.size j
  · have hlt := h.lt_freeinode hlive
    have hj' : st.freeinode ≤ j := happ.freeinode ▸ hj
    rw [hino, update_of_ne (by omega)]
    exact h.fresh j hj'
  · rw [setInode_img_of_ne (ne_of_lt (one_lt_iblock i)), happ.low 1 (by decide)]
    exact h.super

/-- **`ialloc`** allocates the next inode, which is empty. -/
theorem ialloc_spec {t : FileType} (h : Has st T F) (hi : st.freeinode < ninodes) :
    Runs (ialloc t) st E fun inum st' => inum = st.freeinode ∧
      Has st' (update T st.freeinode t) F ∧ st'.freeinode = st.freeinode + 1 ∧
      st'.freeblock = st.freeblock := by
  unfold ialloc
  rw [Runs.get_bind, Runs.modify_bind]
  refine (winode_spec hi).bind ?_
  rintro _ _ rfl
  set i := st.freeinode with hieq
  set din : Dinode := { Dinode.zero with type := t, nlink := 1 } with hdin
  -- neither the free inode nor the new one has blocks
  have hown : (st.takeInode.held i din).own = st.disk.own := by
    funext ⟨j, q⟩
    by_cases hj : j = i
    · subst hj
      have hfree : (st.disk.inode i).type = .free := by rw [disk_inode, h.fresh i le_rfl]; rfl
      rw [own_free (k := (i, q)) hfree, FsState.own, held_inode_self]
      cases q <;> simp [Dinode.addrAt, hdin, Dinode.zero]
    · have hsame : (st.takeInode.held i din).inode j = st.disk.inode j := held_inode_of_ne hj
      exact own_congr hsame (fun _ _ => rfl) q
  have hsound : Sound st.takeInode (st.takeInode.held i din) :=
    ⟨h.sound.sep.congr rfl hown, rfl, h.sound.fresh, h.sound.le⟩
  have hfits : Dinode.Fits { din with size := 0 } :=
    ⟨Nat.two_pow_pos 32, fun _ => Nat.two_pow_pos 32, fun _ _ => rfl⟩
  obtain ⟨hsound', hstores'⟩ := Has.setInode hi hsound (h.stores.congr hown fun _ _ => rfl) hfits
  have hino : inodes (st.takeInode.setInode i din).img = update (inodes st.img) i din :=
    setInode_inodes hi hfits
  refine ⟨rfl, ⟨hsound', hstores', fun j => ?_, fun j => ?_, fun j hj => ?_, ?_⟩, rfl, rfl⟩
  · rw [hino]
    by_cases hj : j = i
    · subst hj
      rw [update_self, update_self]
    · rw [update_of_ne hj, update_of_ne hj]
      exact h.type j
  · rw [hino]
    by_cases hj : j = i
    · subst hj
      rw [update_self, ← h.size i, h.fresh i le_rfl]
    · rw [update_of_ne hj]
      exact h.size j
  · have hj' : i + 1 ≤ j := hj
    rw [hino, update_of_ne (by omega)]
    exact h.fresh j (by omega)
  · rw [setInode_img_of_ne (ne_of_lt (one_lt_iblock i))]
    exact h.super

end Spec

end Xv6.Mkfs
