import Mathlib.Algebra.GroupWithZero.Nat
import Xv6.Mkfs.Append

/-!
# The files of an image

The inodes that `mkfs` allocates are the root directory and then one for each argument, in order.
The root directory has the two entries for itself and one for each file, and each file has the bytes
that were read. At the end the size of the root directory is rounded up, to a whole block more than
it fills, and the blocks taken are marked in the free map.
-/

namespace Xv6.Mkfs

open Function List

open Fs

def entries (files : List Input) : List Dirent :=
  dirent rootino ['.'.toUInt8] :: dirent rootino ['.'.toUInt8, '.'.toUInt8] ::
    files.mapIdx fun k f => dirent (k + 2) f.shortname

def types (files : List Input) : ℕ → FileType
  | 0 => .free
  | 1 => .dir
  | k + 2 => if k < files.length then .file else .free

def contents (files : List Input) : ℕ → List UInt8
  | 0 => []
  | 1 => (entries files).flatMap Dirent.bytes
  | k + 2 => (files[k]?.map Input.bytes).getD []

def needed (files : List Input) : ℕ :=
  nmeta + blocks (direntSize * (files.length + 2)) + (files.map fun f => blocks f.bytes.length).sum

/-- The image when the root directory has its final size. -/
structure Fixed (files : List Input) (st : Image) : Prop where
  sound : Sound st st.disk
  stores : Stores st.disk (contents files)
  type : ∀ i, (inodes st.img i).type = types files i
  size : ∀ i, i ≠ rootino → (inodes st.img i).size = (contents files i).length
  root : (inodes st.img rootino).size = ((contents files rootino).length / bsize + 1) * bsize
  super : st.img 1 = superblockBytes

/-- **The image at the end**, when the free map is there too. -/
structure Made (files : List Input) (st : Image) : Prop extends Fixed files st where
  bitmap : ∀ b < bpb, bitAt (st.img bmapstart) b = decide (b < st.freeblock)

variable {st : Image} {E : Abort → Prop} {files : List Input} {f : Input}

/-! ### What is on the image -/

theorem length_entries (files : List Input) : (entries files).length = files.length + 2 := by
  simp [entries]

theorem length_flatMap_bytes (l : List Dirent) :
    (l.flatMap Dirent.bytes).length = direntSize * l.length := by
  induction l with
  | nil => rfl
  | cons de l ih =>
    rw [flatMap_cons, length_append, ih, Dirent.length_bytes, length_cons, Nat.mul_succ, add_comm]

theorem length_contents_root (files : List Input) :
    (contents files rootino).length = direntSize * (files.length + 2) := by
  rw [← length_entries]
  exact length_flatMap_bytes (entries files)

theorem types_append (files : List Input) (f : Input) :
    types (files ++ [f]) = update (types files) (files.length + 2) .file := by
  funext i
  match i with
  | 0 => rfl
  | 1 => rfl
  | k + 2 =>
    by_cases hk : k = files.length
    · subst hk
      simp [types]
    · rw [update_of_ne (by omega)]
      simp only [types, length_append, length_singleton]
      congr 1
      exact propext (by omega)

theorem contents_append (files : List Input) (f : Input) :
    contents (files ++ [f]) = update (update (contents files) rootino
        (contents files rootino ++ (dirent (files.length + 2) f.shortname).bytes))
      (files.length + 2) f.bytes := by
  funext i
  match i with
  | 0 => rfl
  | 1 =>
    rw [update_of_ne (by omega), update_self]
    simp [contents, entries, mapIdx_append]
  | k + 2 =>
    by_cases hk : k = files.length
    · subst hk
      simp [contents]
    · rw [update_of_ne (by omega), update_of_ne (Nat.succ_succ_ne_one k)]
      simp only [contents]
      rw [getElem?_append]
      split_ifs with hlt
      · rfl
      · rw [getElem?_eq_none (by simp; omega), getElem?_eq_none (by omega)]

theorem contents_free (files : List Input) : contents files (files.length + 2) = [] := by
  simp [contents]

/-! ### The root directory -/

theorem dinodeAt_zero (k : ℕ) : dinodeAt (fun _ => 0) k = .zero := by
  have haddrs : (dinodeAt (fun _ => 0) k).addrs = Dinode.zero.addrs := by
    funext j
    exact ite_self 0
  refine Dinode.ext ?_ ?_ ?_ ?_ rfl haddrs <;> simp only [dinodeAt, uintAt_zero] <;> decide

theorem start_has : Has (start.setSect 1 superblockBytes) (fun _ => .free) fun _ => [] := by
  have hino : ∀ i, inodes (start.setSect 1 superblockBytes).img i = .zero := by
    intro i
    unfold inodes
    split_ifs
    · rw [Image.setSect_img, update_of_ne (ne_of_gt (one_lt_iblock i))]
      exact dinodeAt_zero _
    · rfl
  have hown : ∀ k, (start.setSect 1 superblockBytes).disk.own k = 0 := by
    intro k
    refine own_free ?_
    rw [disk_inode, hino]
    rfl
  refine ⟨⟨⟨⟨fun k hk => absurd (hown k) hk, fun k _ _ hk => absurd (hown k) hk, ?_⟩, ?_⟩, rfl,
    fun b hb => ?_, by decide⟩, ⟨fun _ => Nat.zero_le _, fun i bn _ => ?_, fun i => ?_,
    fun _ => rfl⟩, fun i => ?_, fun i => ?_, fun i _ => hino i, ?_⟩
  · intro b _ hA hbit
    have hlt : b < nmeta := of_decide_eq_true hbit
    exact absurd hlt hA.1.not_gt
  · intro b hb
    exact decide_eq_true (p := b < nmeta) hb
  · refine update_of_ne ?_ ..
    rintro rfl
    exact absurd hb (by decide)
  · simp [hown]
  · simp [hown]
  · rw [hino]
    rfl
  · rw [hino]
    rfl
  · rw [Image.setSect_img, update_self]

theorem makeRoot_spec : Runs makeRoot (start.setSect 1 superblockBytes) E fun _ st =>
    Has st (types []) (contents []) ∧ st.freeinode = 2 ∧ st.freeblock = needed [] := by
  have htypes : update (fun _ => .free) rootino .dir = types [] := by
    funext i
    match i with
    | 0 => rfl
    | 1 => rfl
    | k + 2 => exact update_of_ne (Nat.succ_succ_ne_one k) ..
  unfold makeRoot
  refine (ialloc_spec start_has (by decide)).bind ?_
  rintro inum st ⟨hinum, hhas, hinode, hblock⟩
  obtain rfl : inum = rootino := hinum
  change Has st (update _ rootino .dir) _ at hhas
  change st.freeinode = 2 at hinode
  change st.freeblock = nmeta at hblock
  rw [htypes] at hhas
  rw [if_neg (not_not.mpr rfl)]
  refine (iappend_spec hhas (by decide) (by decide) ?_ ?_).bind ?_
  · rw [Dirent.length_bytes]
    exact fun hlt => absurd hlt (by decide)
  · rw [Dirent.length_bytes, hblock]
    exact fun hlt => absurd hlt (by decide)
  rintro _ st1 ⟨hhas1, hinode1, hblock1⟩
  have hlen : (update (fun _ => []) rootino
      ([] ++ (dirent rootino ['.'.toUInt8]).bytes) rootino).length = direntSize := by
    rw [update_self, nil_append, Dirent.length_bytes]
  rw [Dirent.length_bytes, hblock] at hblock1
  replace hblock1 : st1.freeblock = nmeta + 1 := hblock1
  refine (iappend_spec hhas1 (by decide) (by decide) ?_ ?_).mono ?_
  · rw [Dirent.length_bytes, hlen]
    exact fun hlt => absurd hlt (by decide)
  · rw [Dirent.length_bytes, hlen, hblock1]
    exact fun hlt => absurd hlt (by decide)
  rintro _ st2 ⟨hhas2, hinode2, hblock2⟩
  rw [Dirent.length_bytes, hlen, hblock1] at hblock2
  have hcontents : update (update (fun _ => []) rootino
      ([] ++ (dirent rootino ['.'.toUInt8]).bytes)) rootino
      (update (fun _ => []) rootino ([] ++ (dirent rootino ['.'.toUInt8]).bytes) rootino ++
          (dirent rootino ['.'.toUInt8, '.'.toUInt8]).bytes) = contents [] := by
    rw [update_idem, update_self]
    funext i
    match i with
    | 0 => rfl
    | 1 => rw [update_self]; simp [contents, entries]
    | k + 2 => exact update_of_ne (Nat.succ_succ_ne_one k) ..
  rw [hcontents] at hhas2
  refine ⟨hhas2, by omega, ?_⟩
  change st2.freeblock + 1 = 46 + 1 + 1 at hblock2
  change st2.freeblock = 47
  omega

/-! ### The files -/

theorem appendReads_spec {T : ℕ → FileType} {F : ℕ → List UInt8} {i : ℕ} (h : Has st T F)
    (hi : i < ninodes) (hlive : T i ≠ .free) (hempty : F i = [])
    (hmax : maxfile * bsize < f.bytes.length → E .maxfile)
    (hroom : fssize < st.freeblock + blocks f.bytes.length → E .read) :
    Runs (f.reads.forM (iappend i)) st E fun _ st' => Has st' T (update F i f.bytes) ∧
      st'.freeinode = st.freeinode ∧ st'.freeblock = st.freeblock + blocks f.bytes.length := by
  -- the invariant is about the pieces that have been appended
  refine (Runs.forM (I := fun l st' => ∃ done, f.reads = done ++ l ∧
    Has st' T (update F i done.flatten) ∧ st'.freeinode = st.freeinode ∧
    st'.freeblock = st.freeblock + blocks done.flatten.length) ?_ ?_).mono ?_
  · rintro p l st' ⟨done, hreads, hhas, hinode, hblock⟩
    have hle : done.flatten.length + p.length ≤ f.bytes.length := by
      rw [Input.bytes, hreads]
      simp
    have hself : update F i done.flatten i = done.flatten := update_self ..
    refine (iappend_spec hhas hi hlive ?_ ?_).mono ?_
    · rw [hself]
      exact fun hlt => hmax (by omega)
    · rw [hself]
      have hmono := blocks_mono hle
      exact fun hlt => hroom (by omega)
    · rintro _ st'' ⟨hhas', hinode', hblock'⟩
      rw [hself, update_idem] at hhas'
      rw [hself] at hblock'
      have hflat : (done ++ [p]).flatten = done.flatten ++ p := by simp
      refine ⟨done ++ [p], by simp [hreads], ?_, hinode'.trans hinode, ?_⟩
      · rwa [hflat]
      · rw [hflat, length_append]
        omega
  · refine ⟨[], rfl, ?_, rfl, rfl⟩
    rwa [flatten_nil, ← hempty, update_eq_self]
  · rintro _ st' ⟨done, hreads, hhas, hinode, hblock⟩
    rw [append_nil] at hreads
    subst hreads
    exact ⟨hhas, hinode, hblock⟩

theorem needed_append (files : List Input) (f : Input) :
    needed (files ++ [f]) + blocks (direntSize * (files.length + 2)) =
      needed files + blocks (direntSize * (files.length + 2) + direntSize) +
        blocks f.bytes.length := by
  have hlen : direntSize * ((files ++ [f]).length + 2) =
      direntSize * (files.length + 2) + direntSize := by
    rw [List.length_append, List.length_singleton, Nat.add_right_comm, Nat.mul_succ]
  simp only [needed, hlen, map_append, map_singleton, sum_append, sum_singleton]
  omega

structure Added (files : List Input) (st : Image) : Prop where
  has : Has st (types files) (contents files)
  freeinode : st.freeinode = files.length + 2
  freeblock : st.freeblock = needed files

/-- **A file is added**, unless there is no room for it or its name has a slash. -/
theorem addFile_spec (h : Added files st) (hi : files.length + 2 < ninodes)
    (hslash : '/'.toUInt8 ∈ f.base → E .slash)
    (hmax : maxfile * bsize < f.bytes.length → E .maxfile)
    (hroom : fssize < needed (files ++ [f]) → E .read) :
    Runs (addFile f) st E fun _ st' => Added (files ++ [f]) st' := by
  have hcount := needed_append files f
  have hroot := length_contents_root files
  have hblock := h.freeblock
  have hinode := h.freeinode
  unfold addFile
  split_ifs with hbase
  · exact hslash hbase
  refine (ialloc_spec h.has (by omega)).bind ?_
  rintro inum st1 ⟨rfl, hhas1, hinode1, hblock1⟩
  rw [hinode, ← types_append files f] at hhas1
  rw [hinode]
  refine (iappend_spec hhas1 (by decide) (by simp [types]) ?_ ?_).bind ?_
  · rw [hroot, Dirent.length_bytes]
    intro hlt
    change files.length + 2 < 200 at hi
    change 268 * 1024 < 16 * (files.length + 2) + 16 at hlt
    omega
  · rw [hroot, Dirent.length_bytes]
    exact fun hlt => hroom (by omega)
  rintro _ st2 ⟨hhas2, hinode2, hblock2⟩
  rw [hroot, Dirent.length_bytes] at hblock2
  refine (appendReads_spec hhas2 hi (by simp [types]) ?_ hmax fun hlt => hroom (by omega)).mono ?_
  · rw [update_of_ne (Nat.succ_succ_ne_one _), contents_free]
  rintro _ st3 ⟨hhas3, hinode3, hblock3⟩
  rw [← contents_append] at hhas3
  refine ⟨hhas3, ?_, by omega⟩
  rw [length_append, length_singleton]
  omega

/-- **All files are added**, unless they do not fit or a name has a slash. -/
theorem addFiles_spec (h : Added [] st) (hi : files.length + 2 ≤ ninodes)
    (hslash : ∀ f ∈ files, '/'.toUInt8 ∈ f.base → E .slash)
    (hmax : ∀ f ∈ files, maxfile * bsize < f.bytes.length → E .maxfile)
    (hroom : fssize < needed files → E .read) :
    Runs (files.forM addFile) st E fun _ st' => Added files st' := by
  refine (Runs.forM (I := fun l st' => ∃ done, files = done ++ l ∧ Added done st') ?_ ?_).mono ?_
  · rintro f l st' ⟨done, rfl, hadded⟩
    have hmem : f ∈ done ++ f :: l := by simp
    have hmono : needed (done ++ [f]) ≤ needed (done ++ f :: l) := by
      have hlen : direntSize * ((done ++ [f]).length + 2) ≤
          direntSize * ((done ++ f :: l).length + 2) := by
        refine Nat.mul_le_mul_left _ ?_
        simp only [List.length_append, List.length_cons, List.length_nil]
        omega
      have hblocks := blocks_mono hlen
      simp only [needed, map_append, map_cons, map_nil, sum_append, sum_cons, sum_nil]
      omega
    refine (addFile_spec hadded ?_ (hslash f hmem) (hmax f hmem)
      fun hlt => hroom (by omega)).mono ?_
    · simp only [length_append, length_cons] at hi
      omega
    · intro _ st'' hadded'
      exact ⟨done ++ [f], by simp, hadded'⟩
  · exact ⟨[], rfl, h⟩
  · rintro _ st' ⟨done, heq, hadded⟩
    rw [append_nil] at heq
    rwa [heq]

/-! ### The end -/

theorem bitAt_foldl_orBit (used b : ℕ) :
    bitAt ((List.range used).foldl orBit fun _ => 0) b = decide (b < used) := by
  induction used with
  | zero => simp [bitAt]
  | succ n ih =>
    rw [range_succ, foldl_append, foldl_cons, foldl_nil, bitAt_orBit, ih, ← Bool.decide_or]
    exact decide_eq_decide.mpr (by omega)

theorem fixRoot_spec (h : Added files st) : Runs fixRoot st E fun _ st' => Fixed files st' := by
  have hi : rootino < ninodes := by decide
  unfold fixRoot
  refine (rinode_spec hi).bind ?_
  rintro _ st ⟨rfl, rfl⟩
  obtain ⟨hsound, hstores⟩ := h.has.held (i := rootino)
  set n := ((inodes st.img rootino).size / bsize + 1) * bsize with hn
  have hsize := h.has.size rootino
  have hfits : Dinode.Fits { inodes st.img rootino with size := n } := by
    refine ⟨?_, (inodes_fits st.img rootino).addrs_lt, (inodes_fits st.img rootino).addrs_eq⟩
    have hmax := h.has.stores.room rootino
    rw [← hsize] at hmax
    change (inodes st.img rootino).size ≤ 268 * 1024 at hmax
    change ((inodes st.img rootino).size / 1024 + 1) * 1024 < 2 ^ 32
    omega
  refine (winode_spec hi).mono ?_
  rintro _ _ rfl
  obtain ⟨hsound', hstores'⟩ := Has.setInode hi hsound hstores hfits
  have hino : inodes (st.setInode rootino { inodes st.img rootino with size := n }).img =
      update (inodes st.img) rootino { inodes st.img rootino with size := n } :=
    Image.setInode_inodes hi hfits
  refine ⟨hsound', hstores', fun j => ?_, fun j hj => ?_, ?_, ?_⟩
  · rw [hino]
    by_cases hj : j = rootino
    · subst hj
      rw [update_self]
      exact h.has.type rootino
    · rw [update_of_ne hj]
      exact h.has.type j
  · rw [hino, update_of_ne hj]
    exact h.has.size j
  · rw [hino, update_self, ← hsize]
  · rw [Image.setInode_img_of_ne (ne_of_lt (one_lt_iblock rootino))]
    exact h.has.super

theorem balloc_spec (h : Fixed files st) :
    Runs (balloc st.freeblock) st E fun _ st' => Made files st' := by
  have hlt : ¬bsize * 8 ≤ st.freeblock := by
    have hle := h.sound.le
    change st.freeblock ≤ 2000 at hle
    change ¬1024 * 8 ≤ st.freeblock
    omega
  unfold balloc
  rw [if_neg hlt]
  set st' := st.setSect bmapstart ((List.range st.freeblock).foldl orBit fun _ => 0) with hst'
  change Made files st'
  -- the free map is neither in the inode blocks nor in the data area
  have hino : inodes st'.img = inodes st.img := by
    funext j
    unfold inodes
    split_ifs with hj
    · rw [hst', Image.setSect_img, update_of_ne]
      unfold iblock
      change j < 200 at hj
      change j / 16 + 32 ≠ 45
      omega
    · rfl
  have hdata : ∀ b, nmeta ≤ b → st'.img b = st.img b := fun b hb =>
    update_of_ne (ne_of_gt (lt_of_lt_of_le (by decide) hb)) ..
  have hown : st'.disk.own = st.disk.own := by
    refine own_congr_data (fun j => ?_) (fun j => ?_) fun j hj => hdata _ (h.sound.place hj).1 <;>
      rw [disk_inode, disk_inode, hino]
  refine ⟨⟨⟨h.sound.sep.congr rfl hown, rfl, fun b hb => ?_, h.sound.le⟩,
    h.stores.congr hown fun k hk => hdata _ (h.sound.place hk).1, ?_, ?_, ?_, ?_⟩, fun b _ => ?_⟩
  · exact (hdata b (h.sound.nmeta_le.trans hb)).trans (h.sound.fresh b hb)
  · rw [hino]
    exact h.type
  · rw [hino]
    exact h.size
  · rw [hino]
    exact h.root
  · rw [hst', Image.setSect_img, update_of_ne (by decide)]
    exact h.super
  · rw [hst', Image.setSect_img, update_self, bitAt_foldl_orBit]
    rfl

/-- **`mkfs` makes the image** of the files, unless they do not fit or a name has a slash. -/
theorem mkfs_spec (hi : files.length + 2 ≤ ninodes)
    (hslash : ∀ f ∈ files, '/'.toUInt8 ∈ f.base → E .slash)
    (hmax : ∀ f ∈ files, maxfile * bsize < f.bytes.length → E .maxfile)
    (hroom : fssize < needed files → E .read) :
    Runs (mkfs files) start E fun _ st => Made files st := by
  unfold mkfs
  rw [wsect_bind]
  refine makeRoot_spec.bind ?_
  rintro _ st1 ⟨hhas, hinode, hblock⟩
  refine (addFiles_spec ⟨hhas, hinode, hblock⟩ hi hslash hmax hroom).bind ?_
  intro _ st2 hadded
  refine (fixRoot_spec hadded).bind ?_
  intro _ st3 hfixed
  exact balloc_spec hfixed

end Xv6.Mkfs
