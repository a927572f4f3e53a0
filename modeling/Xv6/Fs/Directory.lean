import Xv6.Fs.Contents
import Xv6.Lib.Slots
import Xv6.Lib.Transition

/-!
# Directories as maps

`dirlink`, and the part of `sys_unlink` that removes an entry. The entries of a directory are slots
of sixteen bytes, free if their inode number is zero. A new entry goes into the first free slot, or
behind the last one, where the directory may need a block. Of a name the first `DIRSIZ` bytes count,
up to a zero.

Between these calls the rest of the kernel may do anything that leaves the contents of the directory
alone.
-/

namespace Xv6.Fs

open Function List File Dirent

/-! ### Names -/

def nameKey (name : ℕ → UInt8) : List UInt8 := stringOf dirsiz name

theorem namecmp_eq_zero_iff (p q : ℕ → UInt8) : namecmp p q = 0 ↔ nameKey p = nameKey q :=
  strncmp_eq_zero_iff dirsiz p q

/-- `strncpy`: the `n` bytes it writes. -/
def strncpy : ℕ → (ℕ → UInt8) → List UInt8
  | 0, _ => []
  | n + 1, t =>
    if t 0 ≠ 0 then t 0 :: strncpy n fun k => t (k + 1) else List.replicate (n + 1) 0

theorem length_strncpy (n : ℕ) (t : ℕ → UInt8) : (strncpy n t).length = n := by
  induction n generalizing t with
  | zero => rfl
  | succ n ih =>
    rw [strncpy]
    split_ifs
    · rw [length_cons, ih]
    · exact length_replicate

theorem takeWhile_strncpy (n : ℕ) (t : ℕ → UInt8) :
    (strncpy n t).takeWhile (· ≠ 0) = stringOf n t := by
  induction n generalizing t with
  | zero => rfl
  | succ n ih =>
    rw [strncpy, stringOf_succ]
    by_cases h : t 0 = 0
    · simp [h, replicate_succ]
    · rw [if_pos h, if_neg h, takeWhile_cons, if_pos (by simpa using h), ih]

/-! ### The source -/

/-- The search of `dirlink` for a free entry, from `off` on: its offset, or the end. -/
def dirlinkLoop (sb : Superblock) (dp : ℕ) : ℕ → ℕ → FsM ℕ
  | 0, off => pure off
  | fuel + 1, off => do
    let ip ← fields dp
    if off < ip.size then do
      let r ← readi sb dp (fun _ _ => true) off direntSize
      if r.1 ≠ direntSize then throw .dirlinkRead
      else if (Dirent.ofBytes r.2).inum = 0 then pure off
      else dirlinkLoop sb dp fuel (off + direntSize)
    else pure off

/-- The entry that `dirlink` writes. -/
def newDirent (name : ℕ → UInt8) (inum : ℕ) : Dirent :=
  ⟨inum, fun k => (strncpy dirsiz name).getD k 0⟩

def Source.ofList (l : List UInt8) : Source := ⟨fun k => l.getD k 0, none⟩

/-- `dirlink`; `false` is `-1`. -/
def dirlink (sb : Superblock) (dp : ℕ) (name : ℕ → UInt8) (inum : ℕ) : FsM Bool := do
  match ← dirlookup sb dp name with
  | some (ip, _) => do
    iput ip
    pure false
  | none => do
    let d ← fields dp
    let off ← dirlinkLoop sb dp d.size 0
    let r ← writei sb dp (.ofList (newDirent name inum).bytes) off direntSize
    pure (r = direntSize)

/-- The part of `sys_unlink` that removes the entry with the name, and the inode it named. The
checks that come before may keep `sys_unlink` from getting there. -/
def unlinkEntry (sb : Superblock) (dp : ℕ) (name : ℕ → UInt8) : FsM (Option ℕ) := do
  match ← dirlookup sb dp name with
  | none => pure none
  | some (ip, off) => do
    let r ← writei sb dp (.ofList (List.replicate direntSize 0)) off direntSize
    if r ≠ direntSize then throw .unlinkWritei
    else pure (some ip)

/-! ### Slots -/

/-- The `j`th entry of a directory. -/
def File.direntAt (f : File) (j : ℕ) : Dirent :=
  .ofBytes ((List.range direntSize).map fun x => f.byte (direntSize * j + x))

/-- What an entry says: nothing, or a name and an inode number. -/
def Dirent.binding (de : Dirent) : Option (List UInt8 × ℕ) :=
  if de.inum = 0 then none else some (nameKey de.name, de.inum)

def File.slot (f : File) (j : ℕ) : Option (List UInt8 × ℕ) := (f.direntAt j).binding

variable {inum j m : ℕ}

theorem Dirent.binding_newDirent (name : ℕ → UInt8) (h : 0 < inum) :
    (newDirent name inum).binding = some (nameKey name, inum) := by
  have hname : (List.range dirsiz).map (newDirent name inum).name = strncpy dirsiz name := by
    refine List.ext_getElem (by simp [length_strncpy]) fun k hk hk' => ?_
    rw [getElem_map, getElem_range]
    exact getD_eq_getElem _ _ hk'
  have hkey : nameKey (newDirent name inum).name = nameKey name := by
    rw [nameKey, stringOf, hname, takeWhile_strncpy]
    rfl
  have h0 : (newDirent name inum).inum ≠ 0 := Nat.pos_iff_ne_zero.mp h
  rw [binding, if_neg h0, hkey]
  rfl

theorem slot_eq_none {s : FsState} {dp : ℕ} (h : (s.file dp).size ≤ direntSize * j) :
    (s.file dp).slot j = none := by
  have hzero : ((List.range direntSize).map fun x => (s.file dp).byte (direntSize * j + x)) =
      List.replicate direntSize 0 := by
    rw [eq_replicate_iff]
    refine ⟨by simp, fun b hb => ?_⟩
    obtain ⟨x, -, rfl⟩ := mem_map.mp hb
    exact file_byte_of_le (h.trans (Nat.le_add_right _ _))
  rw [File.slot, direntAt, hzero]
  decide

variable {f : File}

theorem slot_patched {l : List UInt8} (hl : l.length = direntSize)
    (hzero : ∀ x, f.size ≤ x → f.byte x = 0) :
    (f.patched (direntSize * m) direntSize direntSize fun k => l.getD k 0).slot =
      update f.slot m (Dirent.ofBytes l).binding := by
  funext j
  by_cases hj : j = m
  · subst hj
    rw [update_self, File.slot, direntAt]
    congr 2
    refine ext_getElem (by simp [hl]) fun k hk hk' => ?_
    have hk'' : k < direntSize := by rwa [hl] at hk'
    rw [getElem_map, getElem_range, patched]
    dsimp only
    rw [if_pos (by omega), if_pos (by omega), Nat.add_sub_cancel_left, getD_eq_getElem _ _ hk']
  · rw [update_of_ne hj, File.slot, File.slot, direntAt, direntAt]
    congr 2
    refine map_congr_left fun x hx => ?_
    have hx' := mem_range.mp hx
    have hout : ¬ (direntSize * m ≤ direntSize * j + x ∧
        direntSize * j + x < direntSize * m + direntSize) := by
      simp only [direntSize] at hx' ⊢
      omega
    rw [patched]
    dsimp only
    rw [if_neg hout]
    split_ifs with hlt
    · rfl
    · exact (hzero _ (by omega)).symm

theorem File.patched_zero {off : ℕ} {byte : ℕ → UInt8} (hoff : off ≤ f.size)
    (hzero : ∀ x, f.size ≤ x → f.byte x = 0) : f.patched off 0 0 byte = f := by
  refine File.ext rfl rfl rfl rfl (max_eq_left hoff) (funext fun x => ?_)
  rw [patched]
  dsimp only
  rw [max_eq_left (show off + 0 ≤ f.size from hoff), if_neg (by omega : ¬ (off ≤ x ∧ x < off + 0))]
  split_ifs with hlt
  · rfl
  · exact (hzero x (by omega)).symm

/-! ### The calls -/

/-- The inode `dp` is in memory, and is a directory of whole entries. -/
structure IsDir (sb : Superblock) (s : FsState) (dp : ℕ) : Prop where
  ok : Ok sb s
  valid : s.Valid dp
  dir : (s.file dp).type = .dir
  whole : direntSize ∣ (s.file dp).size

section Calls

variable {sb : Superblock} {s s' : FsState} {E : Panic → Prop} {dp : ℕ} {e : Entry}
  {name : ℕ → UInt8} {c : List UInt8}

/-- The inode number of the first entry with a name. -/
def File.lookup (f : File) (c : List UInt8) : Option ℕ :=
  ((List.range (f.size / direntSize)).find? fun j => (f.slot j).any fun b => b.1 = c).bind
    fun j => (f.slot j).map Prod.snd

theorem any_slot {o : Option (List UInt8 × ℕ)} :
    (o.any fun b => b.1 = c) = true ↔ ∃ i, o = some (c, i) := by
  cases o with
  | none => simp
  | some b =>
    obtain ⟨c', i⟩ := b
    simp

theorem File.lookup_eq_some (hm : m < f.size / direntSize) (hslot : f.slot m = some (c, inum))
    (hfirst : ∀ j < m, ∀ i, f.slot j ≠ some (c, i)) :
    f.lookup c = some inum := by
  have hfind : ((List.range (f.size / direntSize)).find? fun j =>
      (f.slot j).any fun b => b.1 = c) = some m := by
    rw [find?_range_eq_some]
    refine ⟨any_slot.mpr ⟨inum, hslot⟩, mem_range.mpr hm, fun j hj => ?_⟩
    rw [Bool.not_eq_true', Bool.eq_false_iff]
    intro hany
    obtain ⟨i, hi⟩ := any_slot.mp hany
    exact hfirst j hj i hi
  rw [lookup, hfind, Option.bind_some, hslot]
  rfl

theorem File.lookup_eq_none (h : ∀ m i, f.slot m ≠ some (c, i)) : f.lookup c = none := by
  have hfind : ((List.range (f.size / direntSize)).find? fun j =>
      (f.slot j).any fun b => b.1 = c) = none := by
    rw [find?_eq_none]
    intro j _ hany
    obtain ⟨i, hi⟩ := any_slot.mp hany
    exact h j i hi
  rw [lookup, hfind, Option.bind_none]

theorem slot_eq_some_iff : f.slot j = some (nameKey name, inum) ↔
    inum ≠ 0 ∧ (f.direntAt j).inum = inum ∧ namecmp name (f.direntAt j).name = 0 := by
  rw [File.slot, binding, namecmp_eq_zero_iff]
  by_cases h0 : (f.direntAt j).inum = 0
  · rw [if_pos h0, h0]
    refine ⟨fun h => (by cases h), fun h => absurd h.2.1.symm h.1⟩
  · rw [if_neg h0, Option.some_inj, Prod.mk.injEq]
    refine ⟨fun h => ⟨h.2 ▸ h0, h.2, h.1.symm⟩, fun h => ⟨h.2.2.symm, h.2.1⟩⟩

theorem iget_cases {i : ℕ} : Runs (iget i) s (fun _ => True) fun _ s' =>
    (∃ e, s.itable i = some e ∧ s' = s.setEntry i (some { e with ref := e.ref + 1 })) ∨
      s.itable i = none ∧
        s' = { s.setEntry i (some ⟨1, false, .zero⟩) with used := s.used + 1 } := by
  unfold iget
  rw [Runs.get_bind]
  cases he : s.itable i with
  | some e => exact Or.inl ⟨e, rfl, rfl⟩
  | none =>
    dsimp only
    split_ifs
    · trivial
    · exact Or.inr ⟨rfl, rfl⟩

/-- A reference that `iget` has just made can be dropped again, and nothing has happened: even if
the inode has no links, it has not been read. -/
theorem iput_of_iget {i : ℕ} (hok : Ok sb s) (hget : iget i s = .ok ((), s')) :
    Runs (iput i) s' E fun _ s'' => s'' = s := by
  unfold iput
  rw [Runs.get_bind]
  rcases iget_cases.of_ok hget with ⟨e, he, rfl⟩ | ⟨hnone, rfl⟩
  · have href := hok.ref_ne i e he
    have hentry : (s.setEntry i (some { e with ref := e.ref + 1 })).itable i =
        some { e with ref := e.ref + 1 } := update_self ..
    rw [hentry]
    dsimp only [freeUnlinked]
    rw [if_neg (by omega), Runs.pure_bind, if_neg (by omega), Runs.modify_iff, FsState.setEntry,
      FsState.setEntry, Nat.add_sub_cancel]
    dsimp only
    rw [update_idem]
    exact congrArg (fun t => { s with itable := t }) (update_eq_self_iff.mpr he.symm)
  · have hentry : ({ s.setEntry i (some ⟨1, false, .zero⟩) with used := s.used + 1 } :
        FsState).itable i = some ⟨1, false, .zero⟩ := update_self ..
    rw [hentry]
    dsimp only [freeUnlinked]
    rw [if_neg (by simp), Runs.pure_bind, if_pos rfl, Runs.modify_iff, FsState.setEntry,
      FsState.setEntry, Nat.add_sub_cancel]
    dsimp only
    rw [update_idem]
    exact congrArg (fun t => { s with itable := t }) (update_eq_self_iff.mpr hnone.symm)

variable (hd : IsDir sb s dp)

include hd

theorem IsDir.refs_ne : s.refs dp ≠ 0 := by
  obtain ⟨e, he, -⟩ := hd.valid
  exact refs_of_some he ▸ hd.ok.ref_ne dp e he

theorem IsDir.post {F : ℕ → File} {R : ℕ → ℕ} (hp : Post sb s s' F R) (hdir : (F dp).type = .dir)
    (hwhole : direntSize ∣ (F dp).size) (hR : R dp ≠ 0) : IsDir sb s' dp :=
  ⟨hp.ok, hp.keep dp hd.valid (by rwa [hp.refs]), by rwa [hp.file], by rwa [hp.file]⟩

theorem IsDir.entry_le (h : Held s dp e) (hj : direntSize * j < e.ino.size) :
    direntSize * (j + 1) ≤ e.ino.size := by
  obtain ⟨n, hn⟩ := hd.whole
  rw [h.size_eq] at hn
  rw [hn] at hj ⊢
  exact Nat.mul_le_mul_left _ (Nat.lt_of_mul_lt_mul_left hj)

theorem IsDir.readi (h : Held s dp e) (hj : direntSize * j < e.ino.size) :
    Runs (readi sb dp (fun _ _ => true) (direntSize * j) direntSize) s E fun r s' =>
      r.1 = direntSize ∧ Dirent.ofBytes r.2 = (s.file dp).direntAt j ∧ s' = s := by
  have hend := hd.entry_le h hj
  have hlt : e.ino.size < 2 ^ 32 := lt_of_le_of_lt (hd.ok.size_le h) (by decide)
  have hblock := hd.ok.solid dp h.inode_live _ (h.inode_eq ▸ hj)
  refine (readi_dirent h hend hlt hblock).mono ?_
  rintro r s1 ⟨hr, hde, rfl⟩
  refine ⟨hr, hde.trans ?_, rfl⟩
  rw [FsState.direntAt, direntAt, bytes_eq_file hd.ok h (by rwa [Nat.mul_succ] at hend)]

/-- What `dirlookup` returns: an entry with the name and a new reference to its inode, or that there
is none. -/
def LookedUp (s : FsState) (dp : ℕ) (name : ℕ → UInt8) (r : Option (ℕ × ℕ)) (s' : FsState) : Prop :=
  match r with
  | some (inum, off) =>
    (∃ m, off = direntSize * m ∧ (s.file dp).slot m = some (nameKey name, inum)) ∧
      iget inum s = .ok ((), s')
  | none => (∀ m inum, (s.file dp).slot m ≠ some (nameKey name, inum)) ∧ s' = s

/-- The loop of `dirlookup`, wherever `iget` stops only with errors in `E`. -/
theorem dirlookupLoop_spec (hget : ∀ i, Runs (iget i) s E fun _ _ => True) (h : Held s dp e)
    (fuel : ℕ) : ∀ j, e.ino.size ≤ direntSize * (j + fuel) →
      (∀ m < j, ∀ inum, (s.file dp).slot m ≠ some (nameKey name, inum)) →
      Runs (dirlookupLoop sb dp name fuel (direntSize * j)) s E fun r s' =>
        LookedUp s dp name r s' ∧ r.map Prod.fst = (s.file dp).lookup (nameKey name) := by
  have hsize := h.size_eq
  -- the entries before `j` do not match, and there is none from `j` on
  have hnone : ∀ j, e.ino.size ≤ direntSize * j →
      (∀ m < j, ∀ inum, (s.file dp).slot m ≠ some (nameKey name, inum)) →
      LookedUp s dp name none s ∧
        (none : Option (ℕ × ℕ)).map Prod.fst = (s.file dp).lookup (nameKey name) := by
    intro j hj hskip
    have hall : ∀ m inum, (s.file dp).slot m ≠ some (nameKey name, inum) := by
      intro m inum hm
      by_cases hmj : m < j
      · exact hskip m hmj inum hm
      · have hle : (s.file dp).size ≤ direntSize * m :=
          (hsize ▸ hj).trans (Nat.mul_le_mul_left _ (Nat.not_lt.mp hmj))
        rw [slot_eq_none hle] at hm
        cases hm
    exact ⟨⟨hall, rfl⟩, (lookup_eq_none hall).symm⟩
  induction fuel with
  | zero => exact fun j hj hskip => hnone j hj hskip
  | succ fuel ih =>
    intro j hj hskip
    rw [dirlookupLoop]
    refine h.fields.bind ?_
    rintro _ s1 ⟨rfl, rfl⟩
    split_ifs with hlt
    · refine (hd.readi h hlt).bind ?_
      rintro ⟨r, l⟩ s1 ⟨rfl, hde, rfl⟩
      rw [if_neg (not_not.mpr rfl), hde]
      dsimp only
      have hnext : (∀ inum, (s1.file dp).slot j ≠ some (nameKey name, inum)) →
          Runs (dirlookupLoop sb dp name fuel (direntSize * j + direntSize)) s1 E fun r s' =>
            LookedUp s1 dp name r s' ∧ r.map Prod.fst = (s1.file dp).lookup (nameKey name) := by
        intro hno
        rw [← Nat.mul_succ]
        refine ih (j + 1) (by rwa [add_assoc, add_comm 1]) fun m hm inum => ?_
        rcases Nat.lt_succ_iff_lt_or_eq.mp hm with hlt' | rfl
        · exact hskip m hlt' inum
        · exact hno inum
      split_ifs with h0 hname
      · exact hnext fun inum hs => (slot_eq_some_iff.mp hs).1 ((slot_eq_some_iff.mp hs).2.1 ▸ h0)
      · refine (hget _).with_run.bind fun _ s' hs' => ?_
        have hslot := slot_eq_some_iff.mpr ⟨h0, rfl, hname⟩
        have hj : j < (s1.file dp).size / direntSize := by
          rw [Nat.lt_div_iff_mul_lt' hd.whole, hsize]
          exact hlt
        exact ⟨⟨⟨j, rfl, hslot⟩, hs'.2⟩, (lookup_eq_some hj hslot hskip).symm⟩
      · exact hnext fun inum hs => hname (slot_eq_some_iff.mp hs).2.2
    · exact hnone j (not_lt.mp hlt) hskip

/-- **`dirlookup`** finds the first entry with the name if there is one, wherever `iget` stops only
with errors in `E`. -/
theorem dirlookup_first (hget : ∀ i, Runs (iget i) s E fun _ _ => True) :
    Runs (dirlookup sb dp name) s E fun r s' =>
      LookedUp s dp name r s' ∧ r.map Prod.fst = (s.file dp).lookup (nameKey name) := by
  obtain ⟨e, h⟩ := hd.ok.held hd.valid
  have hdir : e.ino.type = .dir := by
    rw [← hd.dir, ← h.inode_eq]
    rfl
  unfold dirlookup
  refine h.fields.bind ?_
  rintro _ _ ⟨rfl, rfl⟩
  rw [if_neg (not_not.mpr hdir)]
  refine dirlookupLoop_spec hd hget h e.ino.size 0 ?_ fun m hm => absurd hm (Nat.not_lt_zero m)
  simp only [direntSize]
  omega

theorem dirlookup_spec (hE : E .igetNoInodes) :
    Runs (dirlookup sb dp name) s E (LookedUp s dp name) :=
  (dirlookup_first hd fun _ => (iget_spec hE hd.ok).mono fun _ _ _ => trivial).mono
    fun _ _ h => h.1

def File.NoFreeSlot (f : File) : Prop := ∀ m, direntSize * m < f.size → f.slot m ≠ none

/-- The search of `dirlink` ends at a free slot, the first or the one behind the end. -/
theorem dirlinkLoop_spec (h : Held s dp e) (fuel : ℕ) :
    ∀ j, direntSize * j ≤ e.ino.size → e.ino.size ≤ direntSize * (j + fuel) →
      (∀ m < j, (s.file dp).slot m ≠ none) →
      Runs (dirlinkLoop sb dp fuel (direntSize * j)) s E fun off s' => s' = s ∧
        ∃ m, off = direntSize * m ∧ direntSize * m ≤ e.ino.size ∧ (s.file dp).slot m = none ∧
          (direntSize * m = e.ino.size → (s.file dp).NoFreeSlot) := by
  have hsize := h.size_eq
  have hend : ∀ j, direntSize * j ≤ e.ino.size → e.ino.size ≤ direntSize * j →
      (∀ m < j, (s.file dp).slot m ≠ none) →
      ∃ m, direntSize * j = direntSize * m ∧ direntSize * m ≤ e.ino.size ∧
        (s.file dp).slot m = none ∧ (direntSize * m = e.ino.size → (s.file dp).NoFreeSlot) := by
    refine fun j hle hge hskip => ⟨j, rfl, hle, slot_eq_none (hsize ▸ hge), fun _ m hm => ?_⟩
    rw [hsize] at hm
    exact hskip m (Nat.lt_of_mul_lt_mul_left (hm.trans_le hge))
  induction fuel with
  | zero => exact fun j hle hge hskip => ⟨rfl, hend j hle hge hskip⟩
  | succ fuel ih =>
    intro j hle hge hskip
    rw [dirlinkLoop]
    refine h.fields.bind ?_
    rintro _ s1 ⟨rfl, rfl⟩
    split_ifs with hlt
    · refine (hd.readi h hlt).bind ?_
      rintro ⟨r, l⟩ s1 ⟨rfl, hde, rfl⟩
      rw [if_neg (not_not.mpr rfl), hde]
      split_ifs with h0
      · refine ⟨rfl, j, rfl, hle, ?_, fun heq => absurd heq (ne_of_lt hlt)⟩
        rw [File.slot, binding, if_pos h0]
      · rw [← Nat.mul_succ]
        refine ih (j + 1) (hd.entry_le h hlt) (by rwa [add_assoc, add_comm 1]) fun m hm => ?_
        rcases Nat.lt_succ_iff_lt_or_eq.mp hm with hlt' | rfl
        · exact hskip m hlt'
        · rw [File.slot, binding, if_neg h0]
          exact Option.some_ne_none _
    · exact ⟨rfl, hend j hle (not_lt.mp hlt) hskip⟩

/-- **Writing an entry**, in a free slot or over an old entry: all of it, or none because the disk
is full. -/
theorem writei_dirent {l : List UInt8} (h : Held s dp e) (hl : l.length = direntSize)
    (hm : direntSize * m ≤ e.ino.size) (hmax : direntSize * m + direntSize ≤ maxfile * bsize) :
    Runs (writei sb dp (.ofList l) (direntSize * m) direntSize) s E fun r s' =>
      IsDir sb s' dp ∧ (∀ j ≠ dp, s'.file j = s.file j) ∧
      (∀ k, s.own k ≠ 0 → s'.own k = s.own k) ∧
      (r = direntSize ∧ direntSize * m < (s'.file dp).size ∧
          (s'.file dp).slot = update (s.file dp).slot m (Dirent.ofBytes l).binding ∨
        r = 0 ∧ s'.file dp = s.file dp ∧ s'.Full sb ∧
          s.own (dp, placeOf (direntSize * m / bsize)) = 0) := by
  have hsize := h.size_eq
  have hzero : ∀ x, (s.file dp).size ≤ x → (s.file dp).byte x = 0 := fun x hx => file_byte_of_le hx
  refine (writei_spec hd.ok h hm hmax).mono ?_
  rintro r s' ⟨tot, c, rfl, hstop, hpost, hkept, hfull⟩
  -- the source is kernel memory, and an entry lies in one block
  obtain rfl : c = 0 := by
    by_contra hc
    have hnone := (hstop.part hc).1
    cases hnone
  have hfile := congrFun hpost.file dp
  rw [update_self, add_zero] at hfile
  have hother : ∀ j ≠ dp, s'.file j = s.file j := fun j hj => by
    rw [hpost.file, update_of_ne hj]
  have hdir' : direntSize ∣ ((s.file dp).patched (direntSize * m) tot tot _).size →
      IsDir sb s' dp := fun hdvd =>
    hd.post hpost (by rw [update_self]; exact hd.dir) (by rw [update_self]; exact hdvd) hd.refs_ne
  have hcases : tot = 0 ∨ tot = direntSize := by
    have hle := hstop.le
    rcases hstop.block with h0 | h0 | h0
    · exact Or.inl h0
    · simp only [direntSize, bsize] at h0 hle ⊢
      omega
    · exact Or.inr h0
  rcases hcases with rfl | rfl
  · have hsame : (s.file dp).patched (direntSize * m) 0 0 (Source.ofList l).byte = s.file dp :=
      patched_zero (hsize.symm ▸ hm) hzero
    rw [hsame] at hfile hdir'
    have hreason := (hfull (by decide)).resolve_right (by simp [Source.ofList])
    rw [add_zero] at hreason
    exact ⟨hdir' hd.whole, hother, hkept, Or.inr ⟨rfl, hfile, hreason⟩⟩
  · have hgrown : (s'.file dp).size = max (s.file dp).size (direntSize * m + direntSize) := by
      rw [hfile]
      rfl
    refine ⟨hdir' ?_, hother, hkept, Or.inl ⟨rfl, ?_, ?_⟩⟩
    · change direntSize ∣ max _ _
      rcases max_choice (s.file dp).size (direntSize * m + direntSize) with heq | heq
      · rw [heq]
        exact hd.whole
      · rw [heq]
        exact Nat.dvd_add (Nat.dvd_mul_right _ _) (Nat.dvd_refl _)
    · rw [hgrown]
      simp only [direntSize]
      omega
    · rw [hfile]
      exact slot_patched hl hzero

/-- There is no block for another entry: the file is as long as it can be, or the next block is
missing and none is free. -/
def NoBlock (sb : Superblock) (s : FsState) (dp : ℕ) : Prop :=
  (s.file dp).size = maxfile * bsize ∨
    s.Full sb ∧ s.own (dp, placeOf ((s.file dp).size / bsize)) = 0

/-- What `dirlink` does: a new entry in a free slot; or nothing, because there is an entry with the
name or no room. -/
def Linked (sb : Superblock) (s : FsState) (dp : ℕ) (name : ℕ → UInt8) (inum : ℕ) (ok : Bool)
    (s' : FsState) : Prop :=
  if ok then
    (∀ m n, (s.file dp).slot m ≠ some (nameKey name, n)) ∧
      ¬ ((s.file dp).NoFreeSlot ∧ NoBlock sb s dp) ∧
      ∃ m, (s.file dp).slot m = none ∧
        (s'.file dp).slot = update (s.file dp).slot m (some (nameKey name, inum))
  else
    s'.file dp = s.file dp ∧
      ((∃ m n, (s.file dp).slot m = some (nameKey name, n)) ∨
        (s.file dp).NoFreeSlot ∧ ((s.file dp).size = maxfile * bsize ∨ s'.Full sb))

/-- **`dirlink`** on a directory. -/
theorem dirlink_spec (hE : E .igetNoInodes) (hpos : 0 < inum) (hlt : inum < 2 ^ 16) :
    Runs (dirlink sb dp name inum) s E fun ok s' => IsDir sb s' dp ∧
      (∀ j ≠ dp, s'.file j = s.file j) ∧ Linked sb s dp name inum ok s' := by
  unfold dirlink
  refine (dirlookup_spec hd hE).bind ?_
  rintro (_ | ⟨ip, off⟩) s1 hlook
  · -- the name is new
    obtain ⟨hnew, rfl⟩ := hlook
    obtain ⟨e, h⟩ := hd.ok.held hd.valid
    have hsize := h.size_eq
    refine h.fields.bind ?_
    rintro _ s2 ⟨rfl, rfl⟩
    refine (dirlinkLoop_spec hd h e.ino.size 0 (Nat.zero_le _)
      (by simp only [direntSize]; omega) fun m hm => absurd hm (Nat.not_lt_zero m)).bind ?_
    rintro _ s2 ⟨rfl, m, rfl, hm, hfree, hend⟩
    have hle := hd.ok.size_le h
    by_cases hmax : direntSize * m + direntSize ≤ maxfile * bsize
    · refine (writei_dirent hd h (length_bytes _) hm hmax).bind ?_
      rintro r s3 ⟨hd3, hother, hkept, ⟨rfl, hgrown, hslot⟩ | ⟨rfl, hsame, hfull, hmiss⟩⟩
      · refine ⟨hd3, hother, ?_⟩
        have hde : ofBytes (newDirent name inum).bytes = newDirent name inum := by
          refine ofBytes_bytes hlt fun k hk => getD_eq_default _ _ ?_
          rwa [length_strncpy]
        rw [hde, binding_newDirent name hpos] at hslot
        rw [Linked, if_pos (by simp)]
        refine ⟨hnew, fun ⟨hno, hblock⟩ => ?_, m, hfree, hslot⟩
        -- the entry has been written behind the end, in a block that was there or has been added
        have hat : direntSize * m = e.ino.size := by
          by_contra hne
          exact hno m (by omega) hfree
        rcases hblock with hlong | ⟨hfull, hmiss⟩
        · rw [hsize, ← hat] at hlong
          simp only [direntSize, maxfile, ndirect, nindirect, bsize] at hlong hmax
          omega
        · obtain ⟨e3, h3⟩ := hd3.ok.held hd3.valid
          have h0 := hd3.ok.solid dp h3.inode_live _ hgrown
          rw [hsize, ← hat] at hmiss
          have hlt := (hd3.ok.sep.owned.area _ h0).1.2
          exact hd.ok.sep.own_of_used hd3.ok.sep hkept h0 (hfull _ hlt) hmiss
      · refine ⟨hd3, hother, ?_⟩
        rw [Linked, if_neg (by simp)]
        refine ⟨hsame, ?_⟩
        by_cases hat : direntSize * m = e.ino.size
        · exact Or.inr ⟨hend hat, Or.inr hfull⟩
        · -- a slot below the end has its block
          exact absurd hmiss (hd.ok.solid dp h.inode_live _ (h.inode_eq.symm ▸ by omega))
    · -- the directory is as long as it can be
      have hlong : direntSize * m = e.ino.size ∧ e.ino.size = maxfile * bsize := by
        simp only [direntSize, maxfile, ndirect, nindirect, bsize] at hmax hle hm ⊢
        omega
      refine (writei_refuses h ?_ (by decide) fun hgood => hmax hgood.2).bind ?_
      · exact lt_of_le_of_lt (hm.trans hle) (by decide)
      rintro r s3 ⟨rfl, rfl⟩
      refine ⟨hd, fun _ _ => rfl, ?_⟩
      rw [Linked, if_neg (by simp)]
      exact ⟨rfl, Or.inr ⟨hend hlong.1, Or.inl (hsize.trans hlong.2)⟩⟩
  · obtain ⟨⟨m, rfl, hslot⟩, hget⟩ := hlook
    refine (iput_of_iget hd.ok hget).bind ?_
    rintro _ _ rfl
    refine ⟨hd, fun _ _ => rfl, ?_⟩
    rw [Linked, if_neg (by simp)]
    exact ⟨rfl, Or.inl ⟨m, ip, hslot⟩⟩

/-- **Removing an entry** from a directory: the slot with the name is free afterwards. -/
theorem unlinkEntry_spec (hE : E .igetNoInodes) :
    Runs (unlinkEntry sb dp name) s E fun r s' => IsDir sb s' dp ∧
      (∀ j ≠ dp, s'.file j = s.file j) ∧
      match r with
      | none => (∀ m n, (s.file dp).slot m ≠ some (nameKey name, n)) ∧ s'.file dp = s.file dp
      | some inum => ∃ m, (s.file dp).slot m = some (nameKey name, inum) ∧
          (s'.file dp).slot = update (s.file dp).slot m none := by
  unfold unlinkEntry
  refine (dirlookup_spec hd hE).bind ?_
  rintro (_ | ⟨ip, off⟩) s1 hlook
  · obtain ⟨hnone, rfl⟩ := hlook
    exact ⟨hd, fun _ _ => rfl, hnone, rfl⟩
  · obtain ⟨⟨m, rfl, hslot⟩, hget⟩ := hlook
    -- the new reference leaves the files alone
    have hpost := (iget_spec (E := fun _ => True) (i := ip) trivial hd.ok).of_ok hget
    have hd1 : IsDir sb s1 dp := by
      refine hd.post hpost hd.dir hd.whole ?_
      rw [update_apply]
      split_ifs
      · exact Nat.succ_ne_zero _
      · exact hd.refs_ne
    obtain ⟨e, h⟩ := hd1.ok.held hd1.valid
    have hsize : (s.file dp).size = e.ino.size := by
      rw [← hpost.file, ← h.inode_eq]
      rfl
    have hlt : direntSize * m < e.ino.size := by
      by_contra hle
      rw [slot_eq_none (hsize.trans_le (not_lt.mp hle))] at hslot
      cases hslot
    have hle := hd1.ok.size_le h
    have hmax : direntSize * m + direntSize ≤ maxfile * bsize := by
      simp only [direntSize, maxfile, ndirect, nindirect, bsize] at hle hlt ⊢
      omega
    refine (writei_dirent hd1 h (by simp) hlt.le hmax).bind ?_
    rintro r s2 ⟨hd2, hother, -, ⟨rfl, -, hfreed⟩ | ⟨rfl, -, -, hmiss⟩⟩
    · rw [if_neg (not_not.mpr rfl)]
      refine ⟨hd2, fun j hj => (hother j hj).trans (congrFun hpost.file j), m, hslot, ?_⟩
      rw [hfreed, hpost.file]
      rfl
    · exact absurd hmiss (hd1.ok.solid dp h.inode_live _ (h.inode_eq.symm ▸ hlt))

end Calls

/-! ### Any sequence of calls -/

inductive DirOp
  | link (name : ℕ → UInt8) (inum : ℕ)
  | unlink (name : ℕ → UInt8)
  | other

/-- Nothing has happened to the contents of the directory. -/
structure SameDir (sb : Superblock) (s s' : FsState) (dp : ℕ) : Prop where
  ok : Ok sb s'
  valid : s'.Valid dp
  type : (s'.file dp).type = (s.file dp).type
  size : (s'.file dp).size = (s.file dp).size
  byte : (s'.file dp).byte = (s.file dp).byte

/-- A directory, empty at first: entries for inode numbers are added, entries are removed, and the
rest of the kernel leaves it alone. -/
def directory (sb : Superblock) (dp : ℕ) : LTS FsState DirOp where
  init s := IsDir sb s dp ∧ (s.file dp).size = 0
  step s op s' :=
    match op with
    | .link name inum =>
      (0 < inum ∧ inum < 2 ^ 16) ∧ ∃ ok, dirlink sb dp name inum s = .ok (ok, s')
    | .unlink name => ∃ r, unlinkEntry sb dp name s = .ok (r, s')
    | .other => SameDir sb s s' dp

section Map

variable {sb : Superblock} {s s' : FsState} {E : Panic → Prop} {dp : ℕ} {name : ℕ → UInt8}
  {M : List UInt8 → Option ℕ}

/-- The directory holds the map `M`. -/
structure DirMap (sb : Superblock) (s : FsState) (dp : ℕ) (M : List UInt8 → Option ℕ) : Prop where
  isDir : IsDir sb s dp
  slots : Represents (s.file dp).slot M

namespace DirMap

variable (h : DirMap sb s dp M)

include h

theorem finite : {k | M k ≠ none}.Finite :=
  h.slots.finite (n := (s.file dp).size) fun j hj => slot_eq_none
    (hj.trans (Nat.le_mul_of_pos_left j (by decide)))

theorem lookup (hE : E .igetNoInodes) :
    Runs (dirlookup sb dp name) s E fun r s' => s'.file = s.file ∧
      r.map Prod.fst = M (nameKey name) ∧
      ∀ inum off, r = some (inum, off) → ∃ m, off = direntSize * m ∧
        (s.file dp).slot m = some (nameKey name, inum) := by
  refine (dirlookup_spec h.isDir hE).mono ?_
  rintro (_ | ⟨inum, off⟩) s' hlook
  · obtain ⟨hnone, rfl⟩ := hlook
    exact ⟨rfl, (h.slots.eq_none hnone).symm, fun _ _ hr => (by cases hr)⟩
  · obtain ⟨⟨m, rfl, hslot⟩, hget⟩ := hlook
    have hpost := (iget_spec (E := fun _ => True) trivial h.isDir.ok).of_ok hget
    refine ⟨hpost.file, (h.slots.eq_some hslot).symm, fun _ _ hr => ?_⟩
    cases hr
    exact ⟨m, rfl, hslot⟩

theorem link (hE : E .igetNoInodes) (hpos : 0 < inum) (hlt : inum < 2 ^ 16) :
    Runs (dirlink sb dp name inum) s E fun ok s' =>
      DirMap sb s' dp (if ok then update M (nameKey name) (some inum) else M) ∧
      (∀ j ≠ dp, s'.file j = s.file j) ∧
      (ok = true → M (nameKey name) = none ∧
        ¬ ((s.file dp).NoFreeSlot ∧ NoBlock sb s dp)) ∧
      (ok = false → M (nameKey name) ≠ none ∨
        (s.file dp).NoFreeSlot ∧ ((s.file dp).size = maxfile * bsize ∨ s'.Full sb)) := by
  refine (dirlink_spec h.isDir hE hpos hlt).mono ?_
  rintro ok s' ⟨hd', hother, hlinked⟩
  cases ok with
  | true =>
    obtain ⟨hnew, hroom, m, hfree, hslot⟩ := hlinked
    have hnone := h.slots.eq_none hnew
    refine ⟨⟨hd', ?_⟩, hother, fun _ => ⟨hnone, hroom⟩, fun h0 => (by cases h0)⟩
    rw [hslot]
    exact h.slots.insert hfree hnone
  | false =>
    obtain ⟨hsame, hreason⟩ := hlinked
    refine ⟨⟨hd', ?_⟩, hother, fun h0 => (by cases h0), fun _ => hreason.imp_left ?_⟩
    · rw [hsame]
      exact h.slots
    · rintro ⟨m, n, hslot⟩
      rw [h.slots.eq_some hslot]
      exact Option.some_ne_none n

theorem unlink (hE : E .igetNoInodes) :
    Runs (unlinkEntry sb dp name) s E fun r s' =>
      DirMap sb s' dp (update M (nameKey name) none) ∧
      (∀ j ≠ dp, s'.file j = s.file j) ∧ r = M (nameKey name) := by
  refine (unlinkEntry_spec h.isDir hE).mono ?_
  rintro (_ | inum) s' ⟨hd', hother, hr⟩
  · obtain ⟨hnone, hsame⟩ := hr
    have hfree := h.slots.eq_none hnone
    refine ⟨⟨hd', ?_⟩, hother, hfree.symm⟩
    rw [hsame, update_eq_self_iff.mpr hfree.symm]
    exact h.slots
  · obtain ⟨m, hslot, hfreed⟩ := hr
    refine ⟨⟨hd', ?_⟩, hother, (h.slots.eq_some hslot).symm⟩
    rw [hfreed]
    exact h.slots.erase hslot

theorem same (hs : SameDir sb s s' dp) : DirMap sb s' dp M := by
  have hslot : (s'.file dp).slot = (s.file dp).slot := by
    funext j
    rw [File.slot, File.slot, direntAt, direntAt, hs.byte]
  exact ⟨⟨hs.ok, hs.valid, hs.type.trans h.isDir.dir, hs.size.symm ▸ h.isDir.whole⟩,
    hslot.symm ▸ h.slots⟩

end DirMap

theorem dirMap_reachable (hs : (directory sb dp).Reachable s) : ∃ M, DirMap sb s dp M := by
  refine LTS.Reachable.invariant (P := fun s => ∃ M, DirMap sb s dp M) (fun s h => ?_)
    (fun s op s' hM hstep => ?_) hs
  · refine ⟨fun _ => none, h.1, ?_⟩
    have hempty : (s.file dp).slot = fun _ => none :=
      funext fun j => slot_eq_none (h.2.trans_le (Nat.zero_le _))
    rw [hempty]
    exact .empty
  · obtain ⟨M, hM⟩ := hM
    cases op with
    | link name inum =>
      obtain ⟨⟨hpos, hlt⟩, ok, hrun⟩ := hstep
      exact ⟨_, ((hM.link (E := fun _ => True) trivial hpos hlt).of_ok hrun).1⟩
    | unlink name =>
      obtain ⟨r, hrun⟩ := hstep
      exact ⟨_, ((hM.unlink (E := fun _ => True) trivial).of_ok hrun).1⟩
    | other => exact ⟨M, hM.same hstep⟩

/-- **A directory is a finite map from names to inode numbers.** After any sequence of calls the
slots hold a finite map, each name once. Looking up a name gives its inode number, if it is bound,
and the offset of its entry. Adding a name changes no other binding; it fails, with the map
unchanged, if the name is bound, and otherwise only if no slot is free and no block can be added.
Removing one changes no other. The only panic is that of `iget`. -/
theorem directory_is_map (hs : (directory sb dp).Reachable s) :
    ∃ M : List UInt8 → Option ℕ, DirMap sb s dp M ∧ {k | M k ≠ none}.Finite ∧
      (∀ name, Runs (dirlookup sb dp name) s (· = .igetNoInodes) fun r s' => s'.file = s.file ∧
        r.map Prod.fst = M (nameKey name) ∧
        ∀ inum off, r = some (inum, off) → ∃ m, off = direntSize * m ∧
          (s.file dp).slot m = some (nameKey name, inum)) ∧
      (∀ name inum, 0 < inum → inum < 2 ^ 16 →
        Runs (dirlink sb dp name inum) s (· = .igetNoInodes) fun ok s' =>
          DirMap sb s' dp (if ok then update M (nameKey name) (some inum) else M) ∧
          (∀ j ≠ dp, s'.file j = s.file j) ∧
          (ok = true → M (nameKey name) = none ∧
            ¬ ((s.file dp).NoFreeSlot ∧ NoBlock sb s dp)) ∧
          (ok = false → M (nameKey name) ≠ none ∨
            (s.file dp).NoFreeSlot ∧ ((s.file dp).size = maxfile * bsize ∨ s'.Full sb))) ∧
      ∀ name, Runs (unlinkEntry sb dp name) s (· = .igetNoInodes) fun r s' =>
        DirMap sb s' dp (update M (nameKey name) none) ∧
        (∀ j ≠ dp, s'.file j = s.file j) ∧ r = M (nameKey name) := by
  obtain ⟨M, hM⟩ := dirMap_reachable hs
  exact ⟨M, hM, hM.finite, fun _ => hM.lookup rfl, fun _ _ hpos hlt => hM.link rfl hpos hlt,
    fun _ => hM.unlink rfl⟩

/-- A directory with a name for the inode 2 and one for itself. -/
def twoNames : Except Panic (Bool × FsState) := do
  let r ← dirlink smallDisk 1 (fun _ => 97) 2 (fresh smallDisk .dir)
  dirlink smallDisk 1 (fun _ => 98) 1 r.2

theorem Linked.slot {m i : ℕ} {c : List UInt8} {ok : Bool} (h : Linked sb s dp name inum ok s')
    (hm : (s'.file dp).slot m = some (c, i)) : i = inum ∨ (s.file dp).slot m = some (c, i) := by
  unfold Linked at h
  split_ifs at h
  · obtain ⟨-, -, m', -, hslot⟩ := h
    rw [hslot, update_apply] at hm
    split_ifs at hm
    · cases hm
      exact .inl rfl
    · exact .inr hm
  · exact .inr (h.1 ▸ hm)

theorem twoNames_dir {ok : Bool} (h : twoNames = .ok (ok, s)) :
    (directory smallDisk 1).Reachable s ∧ IsDir smallDisk s 1 ∧
      (∀ j ≠ 1, s.file j = (fresh smallDisk .dir).file j) ∧
      ∀ m c i, (s.file 1).slot m = some (c, i) → i = 1 ∨ i = 2 := by
  have hd : IsDir smallDisk (fresh smallDisk .dir) 1 :=
    ⟨fresh_ok smallDisk (by decide), ⟨_, rfl, rfl⟩, rfl, Dvd.intro 0 rfl⟩
  obtain ⟨⟨ok1, s1⟩, h1, h2⟩ := Except.bind_eq_ok_iff.mp h
  obtain ⟨hd1, ho1, hl1⟩ := (dirlink_spec (E := fun _ => True) hd trivial (by decide)
    (by decide)).of_ok h1
  obtain ⟨hd2, ho2, hl2⟩ := (dirlink_spec (E := fun _ => True) hd1 trivial (by decide)
    (by decide)).of_ok h2
  have hfirst : (directory smallDisk 1).Reachable s1 :=
    .step (a := .link _ 2) (.init ⟨hd, rfl⟩) ⟨by decide, ok1, h1⟩
  refine ⟨.step (a := .link _ 1) hfirst ⟨by decide, ok, h2⟩, hd2,
    fun j hj => (ho2 j hj).trans (ho1 j hj), fun m c i hm => ?_⟩
  rcases hl2.slot hm with rfl | hm
  · exact .inl rfl
  · rcases hl1.slot hm with rfl | hm
    · exact .inr rfl
    · rw [slot_eq_none (Nat.zero_le _)] at hm
      cases hm

/-- The first name is removed, and a third one takes its slot. -/
theorem directory_is_map_twoNames : ∃ (s t t' : FsState) (M : List UInt8 → Option ℕ),
    twoNames = .ok (true, s) ∧ unlinkEntry smallDisk 1 (fun _ => 97) s = .ok (some 2, t) ∧
    DirMap smallDisk t 1 M ∧ dirlink smallDisk 1 (fun _ => 99) 2 t = .ok (true, t') ∧
    DirMap smallDisk t' 1 (update M (List.replicate 14 99) (some 2)) ∧
    (t'.file 1).slot 0 = some (List.replicate 14 99, 2) := by
  obtain ⟨⟨_, s⟩, hs, rfl, hrun⟩ : ∃ r, twoNames = .ok r ∧ r.1 = true ∧
      Ensures (unlinkEntry smallDisk 1 (fun _ => 97) r.2) (fun _ => False) fun q => q.1 = some 2 ∧
        Ensures (dirlink smallDisk 1 (fun _ => 99) 2 q.2) (fun _ => False) fun p => p.1 = true ∧
          (p.2.file 1).slot 0 = some (List.replicate 14 99, 2) :=
    Ensures.exists_ok (by decide +kernel)
  obtain ⟨⟨_, t⟩, ht, rfl, hrun⟩ := hrun.exists_ok
  obtain ⟨⟨_, t'⟩, ht', rfl, h0⟩ := hrun.exists_ok
  have hreach : (directory smallDisk 1).Reachable t :=
    .step (a := .unlink _) (twoNames_dir hs).1 ⟨_, ht⟩
  obtain ⟨M, hM, -, -, hlink, -⟩ := directory_is_map hreach
  exact ⟨s, t, t', M, hs, ht, hM, ht',
    ((hlink (fun _ => 99) 2 (by decide) (by decide)).of_ok ht').1, h0⟩

end Map

end Xv6.Fs
