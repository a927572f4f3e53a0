import Mathlib.Data.List.Nodup
import Xv6.Mkfs.Main

/-!
# The kernel on an image

What the kernel finds on an image that `mkfs` has made: each file under its name in the root
directory, with its bytes. The blocks of the inodes and the free map agree, and every file has the
blocks that its size tells, except that the size of a root directory that fills its blocks is one
block more than it has.
-/

namespace Xv6.Mkfs

open Function List

open Fs

/-- The files fit: there is an inode for each, none is too large, and the image has the blocks. -/
structure Fits (files : List Input) : Prop where
  inodes : files.length + 2 ≤ ninodes
  size : ∀ f ∈ files, f.bytes.length ≤ maxfile * bsize
  blocks : needed files ≤ fssize

/-- What the kernel relies on: every inode has the blocks that its size tells, no block is at two
places, and the blocks marked are those before `freeblock`, which are the metadata and the blocks of
the inodes. -/
structure Consistent (st : Image) : Prop where
  addressed : ∀ i < ninodes, ∀ bn < (((load st.img).inode i).size + (bsize - 1)) / bsize,
    (load st.img).own (i, placeOf bn) ≠ 0
  separate : ∀ k l : ℕ × Place, k.1 < ninodes → l.1 < ninodes →
    (load st.img).own k = (load st.img).own l → (load st.img).own k ≠ 0 → k = l
  bitmap : ∀ b < bpb, (load st.img).bitmap b = true ↔ b < st.freeblock
  used : ∀ b, b < st.freeblock ↔
    b < nmeta ∨ ∃ k : ℕ × Place, k.1 < ninodes ∧ (load st.img).own k = b

/-- Look up a name in the root directory and read the file with that name from its beginning to its
end. -/
def readByName (sb : Superblock) (name : ℕ → UInt8) : FsM (Option (ℤ × List UInt8)) := do
  iget rootino
  ilock rootino
  match ← dirlookup sb rootino name with
  | none => pure none
  | some (inum, _) => do
    ilock inum
    let ip ← fields inum
    let r ← readi sb inum (fun _ _ => true) 0 ip.size
    pure (some r)

variable {st : Image} {files : List Input} {i : ℕ}

/-! ### Making the image -/

/-- **The image of files that fit is made**, if no name has a slash. -/
theorem exists_makes (h : Fits files) (hslash : ∀ f ∈ files, '/'.toUInt8 ∉ f.base) :
    ∃ st, Makes files st := by
  have hspec : Runs (mkfs files) start (fun _ => False) fun _ st => Made files st :=
    mkfs_spec h.inodes hslash (fun f hf => (h.size f hf).not_gt) h.blocks.not_gt
  obtain ⟨_, st, hrun, -⟩ := hspec.exists_ok
  exact ⟨st, hrun⟩

theorem Makes.made (hi : files.length + 2 ≤ ninodes) (h : Makes files st) : Made files st := by
  have hspec : Runs (mkfs files) start (fun _ => True) fun _ st => Made files st :=
    mkfs_spec hi (fun _ _ _ => trivial) (fun _ _ _ => trivial) fun _ => trivial
  exact hspec.of_ok h

/-! ### What the kernel finds -/

theorem superblock_isAt : superblock.IsAt superblockBytes :=
  ⟨by decide, by decide, by decide, by decide⟩

namespace Made

variable (h : Made files st)

include h

theorem load_inode (hi : i < ninodes) : (load st.img).inode i = Mkfs.inodes st.img i := by
  have hstart : uintAt (st.img 1) 6 = inodestart := by
    rw [h.super]
    decide
  rw [Mkfs.inodes, if_pos hi]
  change dinodeAt (st.img (i / ipb + uintAt (st.img 1) 6)) (i % ipb) = _
  rw [hstart]
  rfl

theorem load_bitmap {b : ℕ} (hb : b < bpb) :
    (load st.img).bitmap b = decide (b < st.freeblock) := by
  have hstart : uintAt (st.img 1) 7 = bmapstart := by
    rw [h.super]
    decide
  change bitAt (st.img (b / bpb + uintAt (st.img 1) 7)) (b % bpb) = _
  rw [hstart, Nat.div_eq_of_lt hb, Nat.mod_eq_of_lt hb, zero_add, h.bitmap b hb]

theorem load_own {k : ℕ × Place} (hk : k.1 < ninodes) : (load st.img).own k = st.disk.own k := by
  rw [FsState.own, FsState.own, h.load_inode hk]
  rfl

theorem load_bytes (hi : i < ninodes) :
    (load st.img).bytes i 0 (contents files i).length = contents files i := by
  refine (bytes_congr fun x _ => ?_).trans (h.stores.bytes i)
  rw [FsState.raw, FsState.raw, h.load_own hi]
  rfl

omit h in
theorem lt_of_own (k : ℕ × Place) (hk : st.disk.own k ≠ 0) : k.1 < ninodes := by
  by_contra hlt
  refine hk (own_free ?_)
  rw [disk_inode, Mkfs.inodes, if_neg hlt]
  rfl

theorem root_block {bn : ℕ} (hbn : bn < maxfile) :
    (load st.img).own (rootino, placeOf bn) ≠ 0 ↔ bn * bsize < direntSize * (files.length + 2) := by
  rw [h.load_own (by decide : rootino < ninodes), h.stores.block rootino bn hbn,
    length_contents_root]

theorem root_size : ((load st.img).inode rootino).size =
    (direntSize * (files.length + 2) / bsize + 1) * bsize := by
  rw [h.load_inode (by decide), h.root, length_contents_root]

/-- Every inode has the blocks that its size tells, the root directory if it does not fill them. -/
theorem addressed (hn : direntSize * (files.length + 2) % bsize ≠ 0) (hi : i < ninodes) {bn : ℕ}
    (hbn : bn < (((load st.img).inode i).size + (bsize - 1)) / bsize) :
    (load st.img).own (i, placeOf bn) ≠ 0 := by
  have hroom := h.stores.room i
  have hlt : bn * bsize < (contents files i).length := by
    by_cases hroot : i = rootino
    · subst hroot
      rw [h.root_size] at hbn
      rw [length_contents_root]
      generalize direntSize * (files.length + 2) = n at hn hbn
      change n % 1024 ≠ 0 at hn
      change bn < ((n / 1024 + 1) * 1024 + 1023) / 1024 at hbn
      change bn * 1024 < n
      omega
    · rw [h.load_inode hi, h.size i hroot] at hbn
      generalize (contents files i).length = n at hbn
      change bn < (n + 1023) / 1024 at hbn
      change bn * 1024 < n
      omega
  have hmax : bn < maxfile := by
    change _ ≤ 268 * 1024 at hroom
    change bn * 1024 < _ at hlt
    change bn < 268
    omega
  rw [h.load_own hi]
  exact (h.stores.block i bn hmax).mpr hlt

/-- A root directory that fills its blocks lacks the one that its size tells beyond them. -/
theorem root_missing (hi : files.length + 2 ≤ ninodes)
    (hn : direntSize * (files.length + 2) % bsize = 0) : ¬Consistent st := by
  intro hc
  have hlt : direntSize * (files.length + 2) / bsize < maxfile := by
    change files.length + 2 ≤ 200 at hi
    change 16 * (files.length + 2) / 1024 < 268
    omega
  have hblock := (h.root_block hlt).mp (hc.addressed rootino (by decide) _ ?_)
  · rw [Nat.div_mul_cancel (Nat.dvd_of_mod_eq_zero hn)] at hblock
    exact lt_irrefl _ hblock
  · rw [h.root_size]
    generalize direntSize * (files.length + 2) = n
    change n / 1024 < ((n / 1024 + 1) * 1024 + 1023) / 1024
    omega

theorem used_iff (b : ℕ) : b < st.freeblock ↔
    b < nmeta ∨ ∃ k : ℕ × Place, k.1 < ninodes ∧ (load st.img).own k = b := by
  have hmeta := h.sound.nmeta_le
  constructor
  · intro hb
    by_cases hlow : b < nmeta
    · exact .inl hlow
    · have hge : nmeta ≤ b := Nat.le_of_not_lt hlow
      have hb0 : b ≠ 0 := (lt_of_lt_of_le (by decide) hge).ne'
      obtain ⟨k, hk⟩ := h.sound.sep.owned.cover b hb0 ⟨hge, hb.trans_le h.sound.le⟩
        (decide_eq_true hb)
      have hlt : k.1 < ninodes := lt_of_own k (hk ▸ hb0)
      exact .inr ⟨k, hlt, (h.load_own hlt).trans hk⟩
  · rintro (hlow | ⟨k, hlt, rfl⟩)
    · exact hlow.trans_le hmeta
    · rw [h.load_own hlt]
      by_cases h0 : st.disk.own k = 0
      · rw [h0]
        exact lt_of_lt_of_le (by decide) hmeta
      · exact (h.sound.place h0).2

end Made

/-- **`mkfs` makes a consistent image** of files that fit, if and only if the entries of the root
directory do not fill its blocks. -/
theorem mkfs_consistent (files : List Input) (hi : files.length + 2 ≤ ninodes) :
    (Fits files → (∀ f ∈ files, '/'.toUInt8 ∉ f.base) → ∃ st, Makes files st) ∧
      ∀ st, Makes files st → (Consistent st ↔ direntSize * (files.length + 2) % bsize ≠ 0) := by
  refine ⟨exists_makes, fun st hmakes => ?_⟩
  have h := hmakes.made hi
  refine ⟨fun hc hn => h.root_missing hi hn hc, fun hn => ?_⟩
  refine ⟨fun i hi bn hbn => h.addressed hn hi hbn, fun k l hk hl heq hne => ?_, fun b hb => ?_,
    h.used_iff⟩
  · rw [h.load_own hk, h.load_own hl] at heq
    rw [h.load_own hk] at hne
    exact h.sound.sep.owned.inj k l heq hne
  · rw [h.load_bitmap hb, decide_eq_true_iff]

/-- A file as it is built, with the pieces of its bytes. -/
def cat : Input where
  arg := ['u', 's', 'e', 'r', '/', '_', 'c', 'a', 't'].map Char.toUInt8
  reads := [[1, 2], [3]]
  zero_not_mem := by decide
  reads_le := by decide

theorem cat_fits : Fits [cat] := ⟨by decide, by decide, by decide⟩

theorem mkfs_consistent_cat : ∃ st, Makes [cat] st ∧ Consistent st := by
  obtain ⟨hmakes, hconsistent⟩ := mkfs_consistent [cat] (by decide)
  obtain ⟨st, hst⟩ := hmakes cat_fits (by decide)
  exact ⟨st, hst, (hconsistent st hst).mpr (by decide)⟩

/-- Sixty-two empty files, whose entries and the first two fill a block. -/
def emptyFiles : List Input := (List.finRange 62).map fun k : Fin 62 =>
  { arg := ['f'.toUInt8, UInt8.ofNat (48 + k)]
    reads := []
    zero_not_mem := by decide +revert
    reads_le := by simp }

theorem emptyFiles_fits : Fits emptyFiles := ⟨by decide, by decide, by decide⟩

theorem mkfs_root_without_block : ∃ st, Makes emptyFiles st ∧
    ((load st.img).inode rootino).size = 2 * bsize ∧
    (load st.img).own (rootino, placeOf 1) = 0 ∧ ¬Consistent st := by
  obtain ⟨st, hst⟩ := exists_makes emptyFiles_fits (by decide)
  have h := hst.made emptyFiles_fits.inodes
  have hlen : emptyFiles.length = 62 := by decide
  have hsize : ((load st.img).inode rootino).size = 2 * bsize := by
    rw [h.root_size, hlen]
    decide
  have hblock : (load st.img).own (rootino, placeOf 1) = 0 := by
    by_contra hne
    have hlt := (h.root_block (by decide)).mp hne
    rw [hlen] at hlt
    exact absurd hlt (by decide)
  exact ⟨st, hst, hsize, hblock, h.root_missing emptyFiles_fits.inodes (by rw [hlen]; decide)⟩

/-! ### The entries of the root directory -/

theorem bytes_slice {s : FsState} {off n len : ℕ} (h : off + n ≤ len) :
    s.bytes i off n = ((s.bytes i 0 len).drop off).take n := by
  refine ext_getElem ?_ fun x hx hx' => ?_
  · simp [FsState.bytes]
    omega
  · simp [FsState.bytes]

theorem take_drop_flatMap_bytes (l : List Dirent) (j : ℕ) (hj : j < l.length) :
    ((l.flatMap Dirent.bytes).drop (direntSize * j)).take direntSize = l[j].bytes := by
  induction l generalizing j with
  | nil => exact absurd hj (Nat.not_lt_zero j)
  | cons de l ih =>
    rw [flatMap_cons]
    cases j with
    | zero =>
      rw [Nat.mul_zero, drop_zero, take_left' de.length_bytes]
      rfl
    | succ j =>
      have hlt : j < l.length := Nat.lt_of_succ_lt_succ hj
      rw [Nat.mul_succ, add_comm, ← drop_drop, drop_left' de.length_bytes, ih j hlt]
      rfl

/-- The entries are of inodes of the table, with names of at most `DIRSIZ` bytes. -/
theorem entries_cases {de : Dirent} (h : de ∈ entries files) :
    ∃ inum name, de = dirent inum name ∧ inum < files.length + 2 := by
  simp only [entries, mem_cons, mem_mapIdx] at h
  obtain rfl | rfl | ⟨k, hk, rfl⟩ := h
  · exact ⟨_, _, rfl, Nat.succ_lt_succ (Nat.succ_pos _)⟩
  · exact ⟨_, _, rfl, Nat.succ_lt_succ (Nat.succ_pos _)⟩
  · exact ⟨_, _, rfl, by omega⟩

/-- **The entries of the root directory are those written.** -/
theorem Made.direntAt (h : Made files st) (hi : files.length + 2 ≤ ninodes) {j : ℕ} {de : Dirent}
    (hde : (entries files)[j]? = some de) : (load st.img).direntAt rootino j = de := by
  obtain ⟨hj, rfl⟩ := List.getElem?_eq_some_iff.mp hde
  have hend : direntSize * j + direntSize ≤ (contents files rootino).length := by
    rw [length_contents_root, ← length_entries, ← Nat.mul_succ]
    exact Nat.mul_le_mul_left _ hj
  have hslice : (load st.img).bytes rootino (direntSize * j) direntSize =
      (entries files)[j].bytes := by
    rw [bytes_slice hend, h.load_bytes (by decide)]
    exact take_drop_flatMap_bytes (entries files) j hj
  rw [FsState.direntAt, hslice]
  obtain ⟨inum, name, hde, hlt⟩ := entries_cases (getElem_mem hj)
  rw [hde]
  refine Dirent.ofBytes_bytes ?_ fun k hk => ?_
  · change inum < 2 ^ 16
    change files.length + 2 ≤ 200 at hi
    omega
  · exact getD_eq_default _ _ (by simp; omega)

/-! ### Names -/

theorem Input.zero_not_mem_stored (f : Input) : 0 ∉ f.stored := by
  have hbase : 0 ∉ f.base := by
    unfold Input.base
    split_ifs
    · exact fun hc => f.zero_not_mem (mem_of_mem_drop hc)
    · exact f.zero_not_mem
  have hshort : 0 ∉ f.shortname := by
    unfold Input.shortname
    split_ifs
    · exact fun hc => hbase (mem_of_mem_tail hc)
    · exact hbase
  exact fun hc => hshort (mem_of_mem_take hc)

theorem namecmp_dirent (f : Input) {inum : ℕ} {name : List UInt8} (hname : 0 ∉ name.take dirsiz) :
    namecmp (cstr f.stored) (dirent inum name).name = 0 ↔ f.stored = name.take dirsiz := by
  have htake : f.stored.take dirsiz = f.stored := by
    rw [Input.stored, take_take, min_self]
  rw [dirent, namecmp_cstr f.zero_not_mem_stored hname, htake, take_take, min_self]

theorem entries_getElem {k : ℕ} (hk : k < files.length) :
    (entries files)[k + 2]? = some (dirent (k + 2) files[k].shortname) := by
  simp [entries, hk]

theorem namecmp_ne_of_lt {j k : ℕ} (hk : k < files.length) (hj : j < k + 2)
    (hnodup : (files.map Input.stored).Nodup)
    (hdot : ∀ f ∈ files, f.stored ≠ ['.'.toUInt8] ∧ f.stored ≠ ['.'.toUInt8, '.'.toUInt8])
    {de : Dirent} (hde : (entries files)[j]? = some de) :
    namecmp (cstr files[k].stored) de.name ≠ 0 := by
  have hdots := hdot files[k] (getElem_mem hk)
  match j, hj with
  | 0, _ =>
    obtain rfl : dirent rootino ['.'.toUInt8] = de := Option.some.inj hde
    rw [ne_eq, namecmp_dirent _ (by decide)]
    exact hdots.1
  | 1, _ =>
    obtain rfl : dirent rootino ['.'.toUInt8, '.'.toUInt8] = de := Option.some.inj hde
    rw [ne_eq, namecmp_dirent _ (by decide)]
    exact hdots.2
  | m + 2, hj =>
    have hmk : m < k := by omega
    have hm : m < files.length := hmk.trans hk
    rw [entries_getElem hm] at hde
    obtain rfl := Option.some.inj hde
    rw [ne_eq, namecmp_dirent _ files[m].zero_not_mem_stored]
    intro heq
    change files[k].stored = files[m].stored at heq
    have hk' : k < (files.map Input.stored).length := by simpa using hk
    have hm' : m < (files.map Input.stored).length := by simpa using hm
    have heq' : (files.map Input.stored)[k] = (files.map Input.stored)[m] := by simpa using heq
    exact hmk.ne' (hnodup.getElem_inj_iff.mp heq')

/-! ### Opening and reading -/

section Open

variable {s s' : FsState} {E : Fs.Panic → Prop} {e : Entry}

/-- Only the inode table has changed, and it shows the same inodes. -/
structure SameDisk (s s' : FsState) : Prop where
  data : s'.data = s.data
  dinode : s'.dinode = s.dinode
  inode : ∀ j, s'.inode j = s.inode j

theorem SameDisk.trans {s'' : FsState} (h : SameDisk s s') (h' : SameDisk s' s'') :
    SameDisk s s'' :=
  ⟨h'.data.trans h.data, h'.dinode.trans h.dinode, fun j => (h'.inode j).trans (h.inode j)⟩

theorem SameDisk.own (h : SameDisk s s') : s'.own = s.own := own_eq_of_inode h.inode h.data

theorem SameDisk.bytes (h : SameDisk s s') (j off n : ℕ) : s'.bytes j off n = s.bytes j off n := by
  refine bytes_congr fun x _ => ?_
  rw [FsState.raw, FsState.raw, h.own, h.data]

theorem iget_first (hnone : s.itable i = none) (hused : s.used < ninode) :
    Runs (iget i) s E fun _ s' => SameDisk s s' ∧
      s'.itable = update s.itable i (some ⟨1, false, .zero⟩) ∧ s'.used = s.used + 1 := by
  unfold iget
  rw [Runs.get_bind, hnone]
  simp only
  rw [if_neg hused.not_ge]
  refine ⟨⟨rfl, rfl, fun j => ?_⟩, rfl, rfl⟩
  by_cases hj : j = i
  · subst hj
    simp [FsState.inode, hnone]
  · simp [FsState.inode, hj]

theorem ilock_first (he : s.itable i = some e) (hv : e.valid = false)
    (hlive : (s.dinode i).type ≠ .free) :
    Runs (ilock i) s E fun _ s' => SameDisk s s' ∧
      Held s' i { e with valid := true, ino := s.dinode i } ∧ s'.used = s.used ∧
      ∀ j, j ≠ i → s'.itable j = s.itable j := by
  unfold ilock
  rw [Runs.get_bind, he]
  simp only [hv, Bool.false_eq_true, if_false, if_neg hlive]
  refine ⟨⟨rfl, rfl, fun j => ?_⟩, ⟨update_self .., rfl, hlive⟩, rfl, fun j hj => ?_⟩
  · by_cases hj : j = i
    · subst hj
      simp [FsState.inode, he, hv]
    · simp [FsState.inode, hj]
  · exact update_of_ne hj ..

/-- A file other than the root directory is read from its beginning to its end. -/
theorem Made.read_file (h : Made files st) (hsame : SameDisk (load st.img) s) (hheld : Held s i e)
    (hi : i < ninodes) (hroot : i ≠ rootino) (he : e.ino = Mkfs.inodes st.img i) :
    Runs (readi superblock i (fun _ _ => true) 0 e.ino.size) s E fun r _ =>
      r = (((contents files i).length : ℤ), contents files i) := by
  have hsize : e.ino.size = (contents files i).length := by rw [he, h.size i hroot]
  refine (readi_hit hheld (zero_add _).le (he ▸ (inodes_fits st.img i).size_lt) ?_).mono ?_
  · intro x hx
    rw [zero_add, hsame.own, h.load_own hi]
    exact h.stores.own_ne (hsize ▸ hx)
  · rintro r s' ⟨rfl, -⟩
    rw [hsame.bytes, hsize, h.load_bytes hi]

theorem Made.lookup (h : Made files st) (hi : files.length + 2 ≤ ninodes)
    (hnodup : (files.map Input.stored).Nodup)
    (hdot : ∀ f ∈ files, f.stored ≠ ['.'.toUInt8] ∧ f.stored ≠ ['.'.toUInt8, '.'.toUInt8])
    (hsame : SameDisk (load st.img) s) (hheld : Held s rootino e)
    (he : e.ino = Mkfs.inodes st.img rootino) {k : ℕ} (hk : k < files.length)
    (hnone : s.itable (k + 2) = none) (hused : s.used < ninode) :
    Runs (dirlookup superblock rootino (cstr files[k].stored)) s E fun r s' =>
      r = some (k + 2, direntSize * (k + 2)) ∧ SameDisk s s' ∧
      s'.itable = update s.itable (k + 2) (some ⟨1, false, .zero⟩) := by
  have hentry : ∀ {j de}, (entries files)[j]? = some de → s.direntAt rootino j = de := by
    intro j de hde
    rw [FsState.direntAt, hsame.bytes]
    exact h.direntAt hi hde
  have hfile := hentry (entries_getElem hk)
  have hlen := length_contents_root files
  have hroot := h.root
  rw [hlen] at hroot
  refine dirlookup_found (m := k + 2) hheld ?_ ?_ ?_ (fun j hj => ?_) (fun j hj => ?_) ?_ ?_ ?_
  · rw [he, h.type]
    rfl
  · rw [he, hroot]
    change 16 * (k + 2 + 1) ≤ (16 * (files.length + 2) / 1024 + 1) * 1024
    omega
  · exact he ▸ (inodes_fits st.img rootino).size_lt
  · rw [hsame.own, h.load_own (by decide : rootino < ninodes)]
    refine h.stores.own_ne ?_
    rw [hlen]
    change 16 * j < 16 * (files.length + 2)
    omega
  · have hlt : j < (entries files).length := by
      rw [length_entries]
      omega
    have hde := getElem?_eq_getElem hlt
    rw [hentry hde]
    exact .inr (namecmp_ne_of_lt hk hj hnodup hdot hde)
  · rw [hfile]
    exact Nat.succ_ne_zero _
  · rw [hfile, namecmp_dirent _ files[k].zero_not_mem_stored]
    rfl
  · rw [hfile]
    refine (iget_first hnone hused).mono ?_
    rintro _ s' ⟨hdisk, htable, -⟩
    exact ⟨rfl, hdisk, htable⟩

end Open

/-- **The kernel and `mkfs` agree on the format**: on the image of files with different names, the
kernel finds each name in the root directory and reads the bytes of the file. -/
theorem mkfs_agrees (files : List Input) (hi : files.length + 2 ≤ ninodes)
    (hnodup : (files.map Input.stored).Nodup)
    (hdot : ∀ f ∈ files, f.stored ≠ ['.'.toUInt8] ∧ f.stored ≠ ['.'.toUInt8, '.'.toUInt8]) :
    (Fits files → (∀ f ∈ files, '/'.toUInt8 ∉ f.base) → ∃ st, Makes files st) ∧
      ∀ st, Makes files st → superblock.IsAt (st.img 1) ∧
        ∀ f ∈ files, ∃ s', (readByName superblock (cstr f.stored)).run (load st.img) =
          .ok (some ((f.bytes.length : ℤ), f.bytes), s') := by
  refine ⟨exists_makes, fun st hmakes => ?_⟩
  have h := hmakes.made hi
  refine ⟨h.super ▸ superblock_isAt, fun f hf => ?_⟩
  obtain ⟨k, hk, rfl⟩ := getElem_of_mem hf
  suffices hruns : Runs (readByName superblock (cstr files[k].stored)) (load st.img)
      (fun _ => False) fun r _ => r = some ((files[k].bytes.length : ℤ), files[k].bytes) by
    obtain ⟨_, s', hrun, rfl⟩ := hruns.exists_ok
    exact ⟨s', hrun⟩
  have hroot : rootino < ninodes := by decide
  have hfile : k + 2 < ninodes := by omega
  have hdin : ∀ i < ninodes, (load st.img).dinode i = inodes st.img i := fun i hi => h.load_inode hi
  have hlive : ∀ i < ninodes, types files i ≠ .free → ((load st.img).dinode i).type ≠ .free := by
    intro i hi htype
    rwa [hdin i hi, h.type]
  unfold readByName
  -- the root directory is read
  refine (iget_first rfl (Nat.zero_lt_succ 49)).bind ?_
  rintro _ s1 ⟨hdisk1, htable1, hused1⟩
  refine (ilock_first (e := ⟨1, false, .zero⟩) (by rw [htable1, update_self])
    rfl ?_).bind ?_
  · rw [hdisk1.dinode]
    exact hlive rootino hroot (by change FileType.dir ≠ .free; decide)
  rintro _ s2 ⟨hdisk2, hheld2, hused2, hother2⟩
  have hsame2 := hdisk1.trans hdisk2
  -- the name is found in it
  have hnone : s2.itable (k + 2) = none := by
    rw [hother2 _ (Nat.succ_succ_ne_one k), htable1, update_of_ne (Nat.succ_succ_ne_one k)]
    rfl
  refine (h.lookup hi hnodup hdot hsame2 hheld2 ?_ hk hnone ?_).bind ?_
  · rw [hdisk1.dinode]
    exact hdin rootino hroot
  · rw [hused2, hused1]
    exact Nat.succ_lt_succ (Nat.zero_lt_succ 48)
  rintro _ s3 ⟨rfl, hdisk3, htable3⟩
  have hsame3 := hsame2.trans hdisk3
  -- and the file is read
  refine (ilock_first (e := ⟨1, false, .zero⟩) (by rw [htable3, update_self])
    rfl ?_).bind ?_
  · rw [hsame3.dinode]
    exact hlive _ hfile (by simp [types, hk])
  rintro _ s4 ⟨hdisk4, hheld4, -, -⟩
  refine hheld4.fields.bind ?_
  rintro _ s4 ⟨rfl, rfl⟩
  refine (h.read_file (hsame3.trans hdisk4) hheld4 hfile (Nat.succ_succ_ne_one k) ?_).bind ?_
  · rw [hsame3.dinode]
    exact hdin _ hfile
  · rintro r s' rfl
    simp [contents, hk]

theorem mkfs_agrees_cat : ∃ st, Makes [cat] st ∧ superblock.IsAt (st.img 1) ∧
    ∃ s', (readByName superblock (cstr (['c', 'a', 't'].map Char.toUInt8))).run (load st.img) =
      .ok (some (3, [1, 2, 3]), s') := by
  obtain ⟨hmakes, hagrees⟩ := mkfs_agrees [cat] (by decide) (by decide) (by decide)
  obtain ⟨st, hst⟩ := hmakes cat_fits (by decide)
  obtain ⟨hsb, hread⟩ := hagrees st hst
  exact ⟨st, hst, hsb, hread cat mem_cons_self⟩

end Xv6.Mkfs
