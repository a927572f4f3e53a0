import Xv6.Fs.Directory
import Xv6.Fs.Quota

/-!
# Writing to an open file

`filewrite` of `kernel/file.c` for a file that is an inode. It cuts a write into pieces of `chunk`
bytes, one operation of the log for each, and moves the offset of the file after every piece. Here
the pieces are put together again: what `filewrite` does to the file is one write of all the bytes
that it has written, whatever the number of pieces.
-/

namespace Xv6.Fs

open Function

/-- `struct file`, for an inode. -/
structure OpenFile where
  ip : ℕ
  off : ℕ
  writable : Bool

/-- The source from its byte `k` on. -/
def Source.from (src : Source) (k : ℕ) : Source :=
  ⟨fun x => src.byte (k + x), src.fault.map (· - k)⟩

/-- The loop of `filewrite`: `k` bytes are written, and `off` is the offset of the file. A piece
that is not written whole moves the offset, but does not count. -/
def filewriteLoop (sb : Superblock) (ip : ℕ) (src : Source) (n : ℕ) : (fuel k off : ℕ) → FsM (ℕ × ℕ)
  | 0, k, off => pure (k, off)
  | fuel + 1, k, off =>
    if k < n then do
      let n1 := min (n - k) Tx.chunk
      let r ← writei sb ip (src.from k) off n1
      let off := if 0 < r then uadd off r.toNat else off
      if r = n1 then filewriteLoop sb ip src n fuel (k + n1) off else pure (k, off)
    else pure (k, off)

/-- `filewrite`, with the file afterwards. -/
def filewrite (sb : Superblock) (f : OpenFile) (src : Source) (n : ℕ) : FsM (ℤ × OpenFile) := do
  if f.writable = false then pure (-1, f)
  else
    let (k, off) ← filewriteLoop sb f.ip src n n 0 f.off
    pure (if k = n then (n : ℤ) else -1, { f with off })

variable {sb : Superblock} {s s' s1 : FsState} {E : Panic → Prop} {ip : ℕ} {e : Entry}
  {src : Source} {off n k t : ℕ}

theorem File.patched_patched (f : File) (hoff : off ≤ f.size) (byte : ℕ → UInt8) :
    (f.patched off k k byte).patched (off + k) t t (fun x => byte (k + x)) =
      f.patched off (k + t) (k + t) byte := by
  unfold File.patched
  congr 1
  · dsimp only
    omega
  · funext x
    dsimp only
    grind

theorem Post.patch {s2 : FsState} {byte : ℕ → UInt8} (hoff : off ≤ (s.file ip).size)
    (h1 : Post sb s s1 (update s.file ip ((s.file ip).patched off k k byte)) s.refs)
    (h2 : Post sb s1 s2 (update s1.file ip ((s1.file ip).patched (off + k) t t
      fun x => byte (k + x))) s1.refs) :
    Post sb s s2 (update s.file ip ((s.file ip).patched off (k + t) (k + t) byte)) s.refs := by
  have hrefs : s2.refs = s1.refs := h2.refs
  refine ⟨h2.ok, ?_, hrefs.trans h1.refs, fun j hj href => ?_⟩
  · rw [h2.file, h1.file, update_self, update_idem, File.patched_patched _ hoff]
  · exact h2.keep j (h1.keep j hj (hrefs ▸ href)) href

/-- **The loop of `filewrite`.** -/
theorem filewriteLoop_spec (hok : Ok sb s) (h : Held s ip e) (hoff : off ≤ e.ino.size)
    (hn : n < 2 ^ 31) (hsrc : src.fault = none) (fuel : ℕ) : ∀ {k : ℕ} {s1 : FsState},
    n ≤ k + fuel → k ≤ n →
    Post sb s s1 (update s.file ip ((s.file ip).patched off k k src.byte)) s.refs →
    Runs (filewriteLoop sb ip src n fuel k (off + k)) s1 E fun r s' => ∃ t ≤ n,
      r.2 = off + t ∧ (r.1 = n ↔ t = n) ∧
      Post sb s s' (update s.file ip ((s.file ip).patched off t t src.byte)) s.refs ∧
      (t < n → s'.Full sb ∨ maxfile * bsize < off + n) := by
  have hsize := h.size_eq
  have hle := hok.size_le h
  have hmax : maxfile * bsize < 2 ^ 31 := by decide
  induction fuel with
  | zero =>
    intro k s1 hfuel hk hpost
    obtain rfl : k = n := by omega
    exact ⟨k, le_rfl, rfl, Iff.rfl, hpost, fun hlt => absurd hlt (lt_irrefl k)⟩
  | succ fuel ih =>
    intro k s1 hfuel hk hpost
    unfold filewriteLoop
    split_ifs with hlt
    · obtain ⟨e1, h1⟩ := hpost.held hok h
      have hsize1 : e1.ino.size = max e.ino.size (off + k) := by
        have hfile := h1.size_eq
        rw [← hfile, hpost.file, update_self, ← hsize]
        rfl
      dsimp only
      generalize hn1 : min (n - k) Tx.chunk = n1
      have hpos : 0 < n1 := by
        rw [← hn1, lt_min_iff]
        exact ⟨by omega, by decide⟩
      by_cases hfit : off + k + n1 ≤ maxfile * bsize
      · refine (writei_spec hpost.ok h1 (by omega) hfit).bind ?_
        rintro _ s2 ⟨t, c, rfl, hstop, hpost2, -, hfull⟩
        have hfault : (src.from k).fault = none := by rw [Source.from, hsrc, Option.map_none]
        obtain rfl : c = 0 := by
          by_contra hc
          cases hfault.symm.trans (hstop.part hc).1
        have hpost' := hpost.patch (hsize ▸ hoff) hpost2
        have hle1 := hstop.le
        have hnext : (if 0 < (t : ℤ) then uadd (off + k) (t : ℤ).toNat else off + k) =
            off + (k + t) := by
          rw [Int.toNat_natCast, uadd]
          split_ifs <;> omega
        rw [hnext]
        split_ifs with hall
        · obtain rfl : t = n1 := by exact_mod_cast hall
          exact ih (by omega) (by omega) hpost'
        · have hshort : t < n1 := lt_of_le_of_ne hle1 fun heq => hall (congrArg _ heq)
          refine ⟨k + t, by omega, rfl, by dsimp only; omega, hpost', fun _ => .inl ?_⟩
          exact ((hfull hshort).resolve_right (by simp [hfault])).1
      · refine (writei_refuses h1 (by omega) (by omega) fun hgood => hfit hgood.2).bind ?_
        rintro _ _ ⟨rfl, rfl⟩
        rw [if_neg (by omega), if_neg (by omega)]
        exact ⟨k, hk, rfl, Iff.rfl, hpost, fun _ => .inr (by omega)⟩
    · obtain rfl : k = n := by omega
      exact ⟨k, le_rfl, rfl, Iff.rfl, hpost, fun hlt => absurd hlt (lt_irrefl k)⟩

/-- **A write to an open file is one write.** For every file in a state in good order, every offset
in it and every length, `filewrite` returns; the bytes that it has written are those from the offset
on, no other file has changed, and the offset is behind the last of them. It returns -1 if these are
not all, and then the disk is full, or the file would become too large. -/
theorem filewrite_whole (f : OpenFile) (src : Source) (n : ℕ) (hok : Ok sb s) (h : Held s f.ip e)
    (hw : f.writable = true) (hoff : f.off ≤ e.ino.size) (hn : n < 2 ^ 31)
    (hsrc : src.fault = none) :
    ∃ t ≤ n, ∃ s', filewrite sb f src n s =
        .ok ((if t = n then (n : ℤ) else -1, { f with off := f.off + t }), s') ∧
      WrittenTo sb s f.ip e.ino.size f.off t src.byte s' ∧
      (t < n → s'.Full sb ∨ maxfile * bsize < f.off + n) := by
  have hsize := h.size_eq
  have hstart : Post sb s s
      (update s.file f.ip ((s.file f.ip).patched f.off 0 0 src.byte)) s.refs := by
    rw [File.patched_zero (hsize ▸ hoff) fun _ => file_byte_of_le, update_eq_self]
    exact ⟨hok, rfl, rfl, fun _ hj _ => hj⟩
  obtain ⟨⟨k, _⟩, s', hrun, t, ht, rfl, hiff, hpost, hshort⟩ :=
    (filewriteLoop_spec hok h hoff hn hsrc n (Nat.le_add_left ..) n.zero_le hstart).exists_ok
  refine ⟨t, ht, s', ?_, hpost.writtenTo hok h, hshort⟩
  rw [filewrite, if_neg (by rw [hw]; decide)]
  refine Except.bind_eq_ok_iff.mpr ⟨_, hrun, ?_⟩
  simp only [hiff]
  rfl

theorem filewrite_whole_full : ∃ t ≤ 5000, ∃ s', filewrite smallDisk ⟨1, 0, true⟩ ⟨fun _ => 7, none⟩
      5000 (fresh smallDisk .file) = .ok ((if t = 5000 then 5000 else -1, ⟨1, t, true⟩), s') ∧
    (s'.file 1).size = t := by
  have hlive : FileType.file ≠ .free := by decide
  obtain ⟨t, ht, s', hrun, hwritten, -⟩ := filewrite_whole ⟨1, 0, true⟩ ⟨fun _ => 7, none⟩ 5000
    (fresh_ok smallDisk hlive) (fresh_held smallDisk hlive) rfl le_rfl (by decide) rfl
  refine ⟨t, ht, s', by simpa using hrun, hwritten.size_eq.trans ?_⟩
  simp [Dinode.zero]

end Xv6.Fs
