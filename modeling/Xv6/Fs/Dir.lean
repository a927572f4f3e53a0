import Xv6.Fs.File
import Xv6.Fs.Layout

/-!
# Looking up a name

`namecmp` and `dirlookup` of `kernel/fs.c`. A directory is a file of entries of sixteen bytes, and
`dirlookup` reads them one by one until a name matches. The blocks that a read needs are there in a
directory without holes, and then `readi` changes nothing.
-/

namespace Xv6.Fs

open List

def strncmp : ℕ → (ℕ → UInt8) → (ℕ → UInt8) → ℤ
  | 0, _, _ => 0
  | n + 1, p, q =>
    if p 0 ≠ 0 ∧ p 0 = q 0 then strncmp n (fun k => p (k + 1)) fun k => q (k + 1)
    else (p 0).toNat - (q 0).toNat

def namecmp (s t : ℕ → UInt8) : ℤ := strncmp dirsiz s t

/-- The loop of `dirlookup`, from the entry at `off`. -/
def dirlookupLoop (sb : Superblock) (dp : ℕ) (name : ℕ → UInt8) : ℕ → ℕ → FsM (Option (ℕ × ℕ))
  | 0, _ => pure none
  | fuel + 1, off => do
    let ip ← fields dp
    if off < ip.size then do
      let r ← readi sb dp (fun _ _ => true) off direntSize
      if r.1 ≠ direntSize then throw .dirlookupRead
      else
        let de := Dirent.ofBytes r.2
        if de.inum = 0 then dirlookupLoop sb dp name fuel (off + direntSize)
        else if namecmp name de.name = 0 then do
          iget de.inum
          pure (some (de.inum, off))
        else dirlookupLoop sb dp name fuel (off + direntSize)
    else pure none

/-- `dirlookup`: the inode with the name, of which there is now one more reference, and the offset
of its entry. Each round of the loop advances in the directory, whose size does not change. -/
def dirlookup (sb : Superblock) (dp : ℕ) (name : ℕ → UInt8) : FsM (Option (ℕ × ℕ)) := do
  let ip ← fields dp
  if ip.type ≠ .dir then throw .dirlookupNotDir
  else dirlookupLoop sb dp name ip.size 0

/-- The bytes of an inode from `off`. -/
def FsState.bytes (s : FsState) (i off n : ℕ) : List UInt8 :=
  (List.range n).map fun x => s.raw i (off + x)

/-- The `j`th entry of a directory. -/
def FsState.direntAt (s : FsState) (dp j : ℕ) : Dirent :=
  .ofBytes (s.bytes dp (direntSize * j) direntSize)

/-! ### Names -/

theorem cstr_succ (c : UInt8) (s : List UInt8) : (fun k => cstr (c :: s) (k + 1)) = cstr s := rfl

/-- The bytes of a string of at most `n` bytes. -/
def stringOf (n : ℕ) (p : ℕ → UInt8) : List UInt8 := ((List.range n).map p).takeWhile (· ≠ 0)

theorem stringOf_succ (n : ℕ) (p : ℕ → UInt8) :
    stringOf (n + 1) p = if p 0 = 0 then [] else p 0 :: stringOf n fun k => p (k + 1) := by
  rw [stringOf, range_succ_eq_map, map_cons, map_map, takeWhile_cons]
  by_cases h : p 0 = 0
  · simp [h]
  · simp [h, stringOf, Function.comp_def]

theorem strncmp_eq_zero_iff (n : ℕ) (p q : ℕ → UInt8) :
    strncmp n p q = 0 ↔ stringOf n p = stringOf n q := by
  induction n generalizing p q with
  | zero => simp [strncmp, stringOf]
  | succ n ih =>
    have hbyte : ∀ a b : UInt8, (a.toNat : ℤ) - b.toNat = 0 ↔ a = b := by
      intro a b
      rw [← UInt8.toNat_inj]
      omega
    rw [strncmp, stringOf_succ, stringOf_succ]
    by_cases hp : p 0 = 0
    · rw [if_neg fun h => h.1 hp, hbyte, hp, if_pos rfl]
      by_cases hq : q 0 = 0
      · simp [hq]
      · simp [hq, Ne.symm hq]
    · by_cases hpq : p 0 = q 0
      · rw [if_pos ⟨hp, hpq⟩, ih, if_neg hp, if_neg (hpq ▸ hp), hpq, List.cons.injEq]
        simp
      · rw [if_neg fun h => hpq h.2, hbyte, if_neg hp]
        by_cases hq : q 0 = 0
        · simp [hq, hp]
        · simp [hq, hpq]

theorem stringOf_cstr {s : List UInt8} (hs : 0 ∉ s) (n : ℕ) : stringOf n (cstr s) = s.take n := by
  induction n generalizing s with
  | zero => rfl
  | succ n ih =>
    rw [stringOf_succ]
    cases s with
    | nil => rfl
    | cons c s =>
      have hc : cstr (c :: s) 0 ≠ 0 := (ne_of_not_mem_cons hs).symm
      rw [if_neg hc, take_succ_cons, cstr_succ, ih (not_mem_of_not_mem_cons hs)]
      rfl

theorem namecmp_cstr {s t : List UInt8} (hs : 0 ∉ s) (ht : 0 ∉ t) :
    namecmp (cstr s) (cstr t) = 0 ↔ s.take dirsiz = t.take dirsiz := by
  rw [namecmp, strncmp_eq_zero_iff, stringOf_cstr hs, stringOf_cstr ht]

/-! ### Reading -/

variable {sb : Superblock} {s : FsState} {E : Panic → Prop} {i : ℕ} {e : Entry}

theorem bytes_add {off tot m : ℕ} (hm : m ≤ bsize - (off + tot) % bsize) :
    s.bytes i off (tot + m) = s.bytes i off tot ++ (List.range m).map fun x =>
      s.data (s.own (i, placeOf ((off + tot) / bsize))) ((off + tot) % bsize + x) := by
  rw [FsState.bytes, FsState.bytes, range_add, map_append, map_map]
  congr 1
  refine map_congr_left fun x hx => ?_
  have hlt := mem_range.mp hx
  have hdiv : (off + (tot + x)) / bsize = (off + tot) / bsize := by
    change m ≤ 1024 - (off + tot) % 1024 at hm
    change (off + (tot + x)) / 1024 = (off + tot) / 1024
    omega
  have hmod : (off + (tot + x)) % bsize = (off + tot) % bsize + x := by
    change m ≤ 1024 - (off + tot) % 1024 at hm
    change (off + (tot + x)) % 1024 = (off + tot) % 1024 + x
    omega
  simp only [Function.comp_apply, FsState.raw, hdiv, hmod]

/-- The loop of `readi` over blocks that are there: it reads all the bytes, unless the destination
refuses some. -/
theorem readiLoop_hit {dst : ℕ → ℕ → Bool} {off n : ℕ} (h : Held s i e)
    (hblock : ∀ x < n, s.own (i, placeOf ((off + x) / bsize)) ≠ 0) (fuel tot : ℕ)
    (hfuel : n ≤ tot + fuel) (htot : tot ≤ n) :
    Runs (readiLoop sb i dst n fuel tot (off + tot) (s.bytes i off tot)) s E fun r s' =>
      (r = ((n : ℤ), s.bytes i off n) ∨ r.1 = -1 ∧ ∃ t m, dst t m = false) ∧ s' = s := by
  induction fuel generalizing tot with
  | zero =>
    obtain rfl : tot = n := by omega
    exact ⟨Or.inl rfl, rfl⟩
  | succ fuel ih =>
    rw [readiLoop]
    by_cases hlt : tot < n
    · have haddr := hblock tot hlt
      rw [if_pos hlt]
      refine (bmap_hit h haddr).bind ?_
      rintro _ s ⟨rfl, rfl⟩
      rw [if_neg haddr, Runs.get_bind]
      dsimp only
      cases hdst : dst tot (min (n - tot) (bsize - (off + tot) % bsize)) with
      | false => exact ⟨Or.inr ⟨rfl, _, _, hdst⟩, rfl⟩
      | true =>
        rw [if_pos rfl, Nat.add_assoc, ← bytes_add (min_le_right _ _)]
        have hround : 0 < bsize - (off + tot) % bsize :=
          Nat.sub_pos_of_lt (Nat.mod_lt _ (by decide))
        exact ih _ (by omega) (by omega)
    · obtain rfl : tot = n := by omega
      rw [if_neg hlt]
      exact ⟨Or.inl rfl, rfl⟩

/-- **What `readi` reads from a file without holes**: the bytes asked for, and nothing changes. -/
theorem readi_hit {off n : ℕ} (h : Held s i e) (hsize : off + n ≤ e.ino.size)
    (hlt : e.ino.size < 2 ^ 32) (hblock : ∀ x < n, s.own (i, placeOf ((off + x) / bsize)) ≠ 0) :
    Runs (readi sb i (fun _ _ => true) off n) s E fun r s' =>
      r = ((n : ℤ), s.bytes i off n) ∧ s' = s := by
  unfold readi
  refine h.fields.bind ?_
  rintro _ s ⟨rfl, rfl⟩
  have hsum : uadd off n = off + n := Nat.mod_eq_of_lt (by omega)
  rw [hsum, if_neg (by omega), if_neg (by omega)]
  refine (readiLoop_hit h hblock n 0 (by omega) (by omega)).mono ?_
  rintro r s' ⟨hr | ⟨-, t, m, hdst⟩, rfl⟩
  · exact ⟨hr, rfl⟩
  · cases hdst

/-! ### Looking up -/

section Lookup

variable {dp m : ℕ} {name : ℕ → UInt8} {Q : Option (ℕ × ℕ) → FsState → Prop}

theorem readi_dirent {j : ℕ} (h : Held s dp e) (hsize : direntSize * (j + 1) ≤ e.ino.size)
    (hlt : e.ino.size < 2 ^ 32) (hblock : s.own (dp, placeOf (direntSize * j / bsize)) ≠ 0) :
    Runs (readi sb dp (fun _ _ => true) (direntSize * j) direntSize) s E fun r s' =>
      r.1 = direntSize ∧ Dirent.ofBytes r.2 = s.direntAt dp j ∧ s' = s := by
  refine (readi_hit h ?_ hlt fun x hx => ?_).mono ?_
  · rwa [Nat.mul_succ] at hsize
  · -- an entry does not cross the end of a block
    have hdiv : (direntSize * j + x) / bsize = direntSize * j / bsize := by
      change x < 16 at hx
      change (16 * j + x) / 1024 = 16 * j / 1024
      omega
    rwa [hdiv]
  · rintro _ s' ⟨rfl, rfl⟩
    exact ⟨rfl, rfl, rfl⟩

theorem dirlookupLoop_found (h : Held s dp e) (hsize : direntSize * (m + 1) ≤ e.ino.size)
    (hlt : e.ino.size < 2 ^ 32)
    (hblock : ∀ j ≤ m, s.own (dp, placeOf (direntSize * j / bsize)) ≠ 0)
    (hskip : ∀ j < m, (s.direntAt dp j).inum = 0 ∨ namecmp name (s.direntAt dp j).name ≠ 0)
    (hinum : (s.direntAt dp m).inum ≠ 0) (hname : namecmp name (s.direntAt dp m).name = 0)
    (hget : Runs (iget (s.direntAt dp m).inum) s E fun _ s' =>
      Q (some ((s.direntAt dp m).inum, direntSize * m)) s') (fuel j : ℕ) (hj : j ≤ m)
    (hfuel : m < j + fuel) :
    Runs (dirlookupLoop sb dp name fuel (direntSize * j)) s E Q := by
  induction fuel generalizing j with
  | zero => omega
  | succ fuel ih =>
    have hend : direntSize * (j + 1) ≤ e.ino.size :=
      (Nat.mul_le_mul_left _ (Nat.succ_le_succ hj)).trans hsize
    rw [dirlookupLoop]
    refine h.fields.bind ?_
    rintro _ s1 ⟨rfl, rfl⟩
    rw [if_pos (lt_of_lt_of_le (Nat.mul_lt_mul_of_pos_left j.lt_succ_self (by decide)) hend)]
    refine (readi_dirent h hend hlt (hblock j hj)).bind ?_
    rintro ⟨r, l⟩ s1 ⟨rfl, hde, rfl⟩
    rw [if_neg (not_not.mpr rfl), hde]
    dsimp only
    rcases Nat.lt_or_eq_of_le hj with hjm | rfl
    · have hnext := ih (j + 1) hjm (by omega)
      rw [Nat.mul_succ] at hnext
      rcases hskip j hjm with h0 | hne
      · rwa [if_pos h0]
      · rw [if_neg hne]
        split_ifs <;> exact hnext
    · rw [if_neg hinum, if_pos hname]
      exact hget.bind fun _ _ hQ => hQ

/-- **`dirlookup` finds the first entry with the name**, if the directory has its blocks up to
there. -/
theorem dirlookup_found (h : Held s dp e) (hdir : e.ino.type = .dir)
    (hsize : direntSize * (m + 1) ≤ e.ino.size) (hlt : e.ino.size < 2 ^ 32)
    (hblock : ∀ j ≤ m, s.own (dp, placeOf (direntSize * j / bsize)) ≠ 0)
    (hskip : ∀ j < m, (s.direntAt dp j).inum = 0 ∨ namecmp name (s.direntAt dp j).name ≠ 0)
    (hinum : (s.direntAt dp m).inum ≠ 0) (hname : namecmp name (s.direntAt dp m).name = 0)
    (hget : Runs (iget (s.direntAt dp m).inum) s E fun _ s' =>
      Q (some ((s.direntAt dp m).inum, direntSize * m)) s') :
    Runs (dirlookup sb dp name) s E Q := by
  unfold dirlookup
  refine h.fields.bind ?_
  rintro _ s1 ⟨rfl, rfl⟩
  rw [if_neg (not_not.mpr hdir)]
  refine dirlookupLoop_found h hsize hlt hblock hskip hinum hname hget _ 0 (Nat.zero_le m) ?_
  change 16 * (m + 1) ≤ e.ino.size at hsize
  omega

end Lookup

end Xv6.Fs
