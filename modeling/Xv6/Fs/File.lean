import Mathlib.Order.Nat
import Xv6.Fs.Blocks

/-!
# Inodes as files

Seen from above, an inode is a file: its type, its link count, its size and that many bytes, whether
the inode is in memory or on disk and wherever its blocks are. Between the functions of `fs.c` the
copies in memory agree with the disk, and no file has a hole. Each function is described by what it
does to the files and to the references.
-/

namespace Xv6.Fs

open Function Runs

/-- An inode without its addresses, and the bytes of its contents. -/
@[ext]
structure File where
  type : FileType
  major : Int16
  minor : Int16
  nlink : Int16
  size : ℕ
  byte : ℕ → UInt8

@[simps]
def Dinode.toFile (ip : Dinode) (byte : ℕ → UInt8) : File :=
  ⟨ip.type, ip.major, ip.minor, ip.nlink, ip.size, byte⟩

namespace FsState

/-- The byte at offset `x` of the inode's blocks. -/
def raw (s : FsState) (i x : ℕ) : UInt8 := s.data (s.own (i, placeOf (x / bsize))) (x % bsize)

/-- The file of an inode; where it has no block there are zeroes. -/
def file (s : FsState) (i : ℕ) : File :=
  (s.inode i).toFile fun x =>
    if x < (s.inode i).size ∧ s.own (i, placeOf (x / bsize)) ≠ 0 then s.raw i x else 0

def refs (s : FsState) (i : ℕ) : ℕ := (s.itable i).elim 0 Entry.ref

/-- The inode is in the table and has been read from disk. -/
def Valid (s : FsState) (i : ℕ) : Prop := ∃ e, s.itable i = some e ∧ e.valid = true

end FsState

/-- What holds between the functions of `fs.c`. -/
structure Ok (sb : Superblock) (s : FsState) : Prop where
  sep : Sep sb s
  /-- A valid copy agrees with the disk, and is of an allocated inode. -/
  table : ∀ i e, s.itable i = some e → e.valid = true → e.ino = s.dinode i ∧ e.ino.type ≠ .free
  ref_ne : ∀ i e, s.itable i = some e → e.ref ≠ 0
  /-- There are no holes. -/
  solid : ∀ i, (s.inode i).type ≠ .free → ∀ x < (s.inode i).size, s.own (i, placeOf (x / bsize)) ≠ 0

/-- The state `s'` after `s`, with files `F` and references `R`. -/
structure Post (sb : Superblock) (s s' : FsState) (F : ℕ → File) (R : ℕ → ℕ) : Prop where
  ok : Ok sb s'
  file : s'.file = F
  refs : s'.refs = R
  /-- An inode that stays referenced stays valid. -/
  keep : ∀ j, s.Valid j → s'.refs j ≠ 0 → s'.Valid j

variable {sb : Superblock} {s s' : FsState} {E : Panic → Prop} {i : ℕ} {e : Entry}

/-! ### Basic facts -/

theorem inode_of_none (h : s.itable i = none) : s.inode i = s.dinode i := by
  simp [FsState.inode, h]

theorem inode_of_some (h : s.itable i = some e) :
    s.inode i = if e.valid then e.ino else s.dinode i := by
  simp [FsState.inode, h]

theorem refs_of_some (h : s.itable i = some e) : s.refs i = e.ref := by simp [FsState.refs, h]

theorem refs_of_none (h : s.itable i = none) : s.refs i = 0 := by simp [FsState.refs, h]

namespace Ok

theorem inode_eq (h : Ok sb s) (j : ℕ) : s.inode j = s.dinode j := by
  cases hj : s.itable j with
  | none => exact inode_of_none hj
  | some e =>
    rw [inode_of_some hj]
    split_ifs with hv
    · exact (h.table j e hj hv).1
    · rfl

theorem held (h : Ok sb s) (hv : s.Valid i) : ∃ e, Held s i e := by
  obtain ⟨e, he, hval⟩ := hv
  exact ⟨e, he, hval, (h.table i e he hval).2⟩

theorem entry_of_refs (hr : s.refs i ≠ 0) : ∃ e, s.itable i = some e := by
  cases h : s.itable i with
  | none => exact absurd (refs_of_none h) hr
  | some e => exact ⟨e, rfl⟩

end Ok

theorem Held.size_eq (h : Held s i e) : (s.file i).size = e.ino.size :=
  congrArg Dinode.size h.inode_eq

theorem file_byte_of_lt {x : ℕ} (hx : x < (s.inode i).size)
    (h0 : s.own (i, placeOf (x / bsize)) ≠ 0) : (s.file i).byte x = s.raw i x :=
  if_pos ⟨hx, h0⟩

theorem file_byte_of_le {x : ℕ} (hx : (s.inode i).size ≤ x) : (s.file i).byte x = 0 :=
  if_neg fun h => Nat.not_lt.mpr hx h.1

theorem file_byte_of_free (h : (s.inode i).type = .free) (x : ℕ) : (s.file i).byte x = 0 :=
  if_neg fun hx => hx.2 (if_pos h)

/-- Inodes with the same fields and blocks with the same contents are the same places. -/
theorem own_eq_of_inode (hino : ∀ j, s'.inode j = s.inode j) (hdata : s'.data = s.data) :
    s'.own = s.own := by
  funext k
  rw [FsState.own, FsState.own, hino, hdata]

theorem file_eq_of_inode (hino : ∀ j, s'.inode j = s.inode j) (hdata : s'.data = s.data) :
    s'.file = s.file := by
  funext j
  rw [FsState.file, FsState.file, hino]
  congr 1
  funext x
  rw [FsState.raw, FsState.raw, own_eq_of_inode hino hdata, hdata]

theorem Ok.of_table (h : Ok sb s) (hbit : s'.bitmap = s.bitmap) (hdin : s'.dinode = s.dinode)
    (hdata : s'.data = s.data) (hino : ∀ j, s'.inode j = s.inode j)
    (htable : ∀ j e, s'.itable j = some e → e.valid = true →
      e.ino = s.dinode j ∧ e.ino.type ≠ .free)
    (href : ∀ j e, s'.itable j = some e → e.ref ≠ 0) : Ok sb s' where
  sep := ⟨by rw [hbit, own_eq_of_inode hino hdata]; exact h.sep.owned, hbit ▸ h.sep.reserved⟩
  table j e he hv := hdin ▸ htable j e he hv
  ref_ne := href
  solid j hj x hx := by
    rw [hino] at hj hx
    rw [own_eq_of_inode hino hdata]
    exact h.solid j hj x hx

theorem Ok.setEntry (h : Ok sb s) (e' : Entry) (href : e'.ref ≠ 0)
    (hval : e'.valid = true → e'.ino = s.dinode i ∧ e'.ino.type ≠ .free)
    (used : ℕ) (hkeep : s.Valid i → e'.valid = true) :
    Post sb s { s.setEntry i (some e') with used := used } s.file (update s.refs i e'.ref) := by
  set s' : FsState := { s.setEntry i (some e') with used := used } with hs'
  have hself : s'.itable i = some e' := by simp [hs']
  have hother : ∀ j, j ≠ i → s'.itable j = s.itable j := fun j hj => by simp [hs', hj]
  have hino : ∀ j, s'.inode j = s.inode j := by
    intro j
    by_cases hj : j = i
    · subst hj
      rw [inode_of_some hself, h.inode_eq]
      split_ifs with hv
      · exact (hval hv).1
      · rfl
    · exact inode_of_itable (hother j hj) rfl
  refine ⟨h.of_table rfl rfl rfl hino (fun j e he hv => ?_) (fun j e he => ?_),
    file_eq_of_inode hino rfl, ?_, fun j hj hr => ?_⟩
  · by_cases hj : j = i
    · subst hj
      obtain rfl := Option.some.inj (hself.symm.trans he)
      exact hval hv
    · exact h.table j e ((hother j hj).symm.trans he) hv
  · by_cases hj : j = i
    · subst hj
      obtain rfl := Option.some.inj (hself.symm.trans he)
      exact href
    · exact h.ref_ne j e ((hother j hj).symm.trans he)
  · funext j
    by_cases hj : j = i
    · subst hj
      rw [refs_of_some hself, update_self]
    · rw [update_of_ne hj, FsState.refs, FsState.refs, hother j hj]
  · by_cases hji : j = i
    · subst hji
      exact ⟨e', hself, hkeep hj⟩
    · obtain ⟨e, he, hv⟩ := hj
      exact ⟨e, (hother j hji).trans he, hv⟩

theorem Ok.clearEntry (h : Ok sb s) (used : ℕ) :
    Post sb s { s.setEntry i none with used := used } s.file (update s.refs i 0) := by
  set s' : FsState := { s.setEntry i none with used := used } with hs'
  have hself : s'.itable i = none := by simp [hs']
  have hother : ∀ j, j ≠ i → s'.itable j = s.itable j := fun j hj => by simp [hs', hj]
  have hino : ∀ j, s'.inode j = s.inode j := by
    intro j
    by_cases hj : j = i
    · subst hj
      rw [inode_of_none hself, h.inode_eq]
      rfl
    · exact inode_of_itable (hother j hj) rfl
  have hkept : ∀ j e, s'.itable j = some e → s.itable j = some e := by
    intro j e he
    by_cases hj : j = i
    · subst hj
      rw [hself] at he
      cases he
    · rwa [hother j hj] at he
  refine ⟨h.of_table rfl rfl rfl hino (fun j e he hv => h.table j e (hkept j e he) hv)
    (fun j e he => h.ref_ne j e (hkept j e he)), file_eq_of_inode hino rfl, ?_, fun j hj hr => ?_⟩
  · funext j
    by_cases hj : j = i
    · subst hj
      rw [refs_of_none hself, update_self]
    · rw [update_of_ne hj, FsState.refs, FsState.refs, hother j hj]
  · obtain ⟨e, he, hv⟩ := hj
    obtain ⟨e', he'⟩ := Ok.entry_of_refs hr
    obtain rfl := Option.some.inj ((hkept j e' he').symm.trans he)
    exact ⟨e', he', hv⟩

/-! ### References and locking -/

theorem idup_spec (h : Ok sb s) (hr : s.refs i ≠ 0) :
    Runs (idup i) s E fun _ s' =>
      Post sb s s' s.file (update s.refs i (s.refs i + 1)) := by
  obtain ⟨e, he⟩ := Ok.entry_of_refs hr
  unfold idup
  rw [get_bind, he, modify_iff, refs_of_some he]
  refine h.setEntry { e with ref := e.ref + 1 } (Nat.succ_ne_zero _) (h.table i e he) s.used ?_
  rintro ⟨e', he', hv⟩
  obtain rfl := Option.some.inj (he.symm.trans he')
  exact hv

theorem iget_spec (hE : E .igetNoInodes) (h : Ok sb s) :
    Runs (iget i) s E fun _ s' =>
      Post sb s s' s.file (update s.refs i (s.refs i + 1)) := by
  unfold iget
  rw [get_bind]
  cases he : s.itable i with
  | some e =>
    simp only [modify_iff]
    rw [refs_of_some he]
    refine h.setEntry { e with ref := e.ref + 1 } (Nat.succ_ne_zero _) (h.table i e he) s.used ?_
    rintro ⟨e', he', hv⟩
    obtain rfl := Option.some.inj (he.symm.trans he')
    exact hv
  | none =>
    simp only
    split_ifs with hfull
    · exact hE
    · rw [modify_iff, refs_of_none he]
      refine h.setEntry ⟨1, false, .zero⟩ (by simp) (by simp) (s.used + 1) ?_
      rintro ⟨e', he', -⟩
      rw [he] at he'
      cases he'

theorem ilock_spec (h : Ok sb s) (hr : s.refs i ≠ 0)
    (hE : (s.file i).type = .free → E .ilockNoType) :
    Runs (ilock i) s E fun _ s' => Post sb s s' s.file s.refs ∧ s'.Valid i ∧
      (s.file i).type ≠ .free := by
  obtain ⟨e, he⟩ := Ok.entry_of_refs hr
  have hsame : update s.refs i e.ref = s.refs := update_eq_self_iff.mpr (refs_of_some he).symm
  have hino : (s.file i).type = (s.dinode i).type := by
    rw [← h.inode_eq]
    rfl
  unfold ilock
  rw [get_bind, he]
  simp only
  split_ifs with hv hfree
  · refine ⟨⟨h, rfl, rfl, fun j hj _ => hj⟩, ⟨e, he, hv⟩, ?_⟩
    obtain ⟨heq, hlive⟩ := h.table i e he hv
    rwa [hino, ← heq]
  · exact hE (hino.trans hfree)
  · rw [modify_bind, pure_iff]
    have hpost := h.setEntry (i := i) { e with valid := true, ino := s.dinode i }
      (h.ref_ne i e he) (fun _ => ⟨rfl, hfree⟩) s.used (fun _ => rfl)
    rw [hsame] at hpost
    exact ⟨hpost, ⟨_, update_self .., rfl⟩, hino ▸ hfree⟩

/-- A valid copy shows the link count, so that `iput` frees no inode with links. -/
theorem not_freed (he : s.itable i = some e) (hlast : e.ref = 1 → (s.file i).nlink ≠ 0) :
    ¬ (e.ref = 1 ∧ e.valid = true ∧ e.ino.nlink = 0) := by
  rintro ⟨href, hv, hnlink⟩
  apply hlast href
  have hino : s.inode i = e.ino := by rw [inode_of_some he, if_pos hv]
  rw [FsState.file, hino]
  exact hnlink

/-- `iput`, unless it drops the last reference to an inode without links. -/
theorem iput_spec (h : Ok sb s) (hr : s.refs i ≠ 0) (hlast : s.refs i = 1 → (s.file i).nlink ≠ 0) :
    Runs (iput i) s E fun _ s' =>
      Post sb s s' s.file (update s.refs i (s.refs i - 1)) ∧
        s'.used = s.used - if s.refs i = 1 then 1 else 0 := by
  obtain ⟨e, he⟩ := Ok.entry_of_refs hr
  rw [refs_of_some he] at hlast hr ⊢
  unfold iput
  rw [get_bind, he]
  simp only [freeUnlinked, if_neg (not_freed he hlast), pure_bind]
  split_ifs with href
  · rw [modify_iff, href]
    exact ⟨h.clearEntry (s.used - 1), rfl⟩
  · rw [modify_iff]
    refine ⟨h.setEntry { e with ref := e.ref - 1 } (by simp only; omega) (h.table i e he) s.used ?_,
      rfl⟩
    rintro ⟨e', he', hv⟩
    obtain rfl := Option.some.inj (he.symm.trans he')
    exact hv

end Xv6.Fs
