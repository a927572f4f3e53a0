import Xv6.Fs.Dir

/-!
# Reading and writing files

`readi` and `writei`, which go through a file block by block, as operations on its bytes. A write
may stop early, because the disk is full or because the source cannot be read; if the source ends in
the middle of a block, the bytes that it had are in the block all the same, beyond what `writei`
reports.
-/

namespace Xv6.Fs

open Function

/-- The file with `k` bytes from `off` on replaced, of which the first `tot` count for its size. -/
def File.patched (f : File) (off tot k : ℕ) (byte : ℕ → UInt8) : File :=
  { f with
    size := max f.size (off + tot)
    byte := fun x =>
      if x < max f.size (off + tot) then
        if off ≤ x ∧ x < off + k then byte (x - off) else f.byte x
      else 0 }

variable {sb : Superblock} {s s' s1 s2 : FsState} {E : Panic → Prop} {i : ℕ} {e : Entry}
  {src : Source} {b j k n off : ℕ} {byte : ℕ → UInt8}

/-! ### The loop of `writei` -/

/-- The blocks of the file are no indirect blocks, so that what they hold says nothing about where
blocks are. -/
theorem own_setData {bn : ℕ} (hsep : Sep sb s) (hb : s.own (i, placeOf bn) = b) (hb0 : b ≠ 0)
    (x : Block) : (s.setData b x).own = s.own := by
  funext ⟨j, p⟩
  have hino : (s.setData b x).inode j = s.inode j := inode_of_itable rfl rfl
  refine own_congr hino (fun hlive hind => ?_) p
  refine update_of_ne (fun heq => ?_) ..
  rw [← own_ndirect_ne hlive, ← hb] at heq
  have hplace := hsep.owned.inj _ _ heq (by rwa [heq, hb])
  exact placeOf_ne_ndirect bn (Prod.mk.inj hplace).2.symm

theorem Frame.setData {bn : ℕ} (h : Frame sb i s s') (hb : s'.own (i, placeOf bn) = b) (hb0 : b ≠ 0)
    (x : Block) : Frame sb i s (s'.setData b x) where
  sep := h.sep.congr rfl (own_setData h.sep hb hb0 x)
  dinode := h.dinode
  used := h.used
  other := h.other
  entry e he := by
    obtain ⟨addrs, he'⟩ := h.entry e he
    exact ⟨addrs, he'.entry, he'.valid, he'.live⟩
  kept k hk := by
    rw [own_setData h.sep hb hb0]
    exact h.kept k hk

/-- If blocks have only been added, a block that was in use is where it was. -/
theorem Sep.own_of_used (hsep : Sep sb s) (hsep' : Sep sb s')
    (hkept : ∀ k, s.own k ≠ 0 → s'.own k = s.own k) {k : ℕ × Place} (hk : s'.own k ≠ 0)
    (hused : s.bitmap (s'.own k) = true) : s.own k ≠ 0 := by
  obtain ⟨l, hl⟩ := hsep.owned.cover _ hk (hsep'.owned.area k hk).1 hused
  have hl0 : s.own l ≠ 0 := by rwa [hl]
  obtain rfl := hsep'.owned.inj l k ((hkept l hl0).trans hl) ((hkept l hl0).symm ▸ hl0)
  exact hl0

/-- The first `k` bytes have been written to the inode `i` from the offset `off` on. -/
structure Wrote (sb : Superblock) (i : ℕ) (byte : ℕ → UInt8) (off : ℕ) (s : FsState) (k : ℕ)
    (s' : FsState) : Prop where
  frame : Frame sb i s s'
  others : ∀ j ≠ i, SameBlocks s s' j
  solid : ∀ x, off ≤ x → x < off + k → s'.own (i, placeOf (x / bsize)) ≠ 0
  new : ∀ x, off ≤ x → x < off + k → s'.raw i x = byte (x - off)
  old : ∀ x, s.own (i, placeOf (x / bsize)) ≠ 0 → ¬ (off ≤ x ∧ x < off + k) → s'.raw i x = s.raw i x

theorem Frame.raw_eq (hf : Frame sb i s s') {x : ℕ} (hsame : SameBlocks s s' j)
    (h0 : s.own (j, placeOf (x / bsize)) ≠ 0) : s'.raw j x = s.raw j x := by
  rw [FsState.raw, FsState.raw, hf.kept _ h0, hsame _ h0]

namespace Wrote

variable {byte : ℕ → UInt8} {off tot : ℕ}

theorem refl (hsep : Sep sb s) : Wrote sb i byte off s 0 s :=
  ⟨.refl hsep, fun j _ => .refl s j, fun x h1 h2 => by omega, fun x h1 h2 => by omega,
    fun _ _ _ => rfl⟩

theorem frame_step (h : Wrote sb i byte off s tot s1) (hf : Frame sb i s1 s2)
    (hsame : ∀ j, SameBlocks s1 s2 j) : Wrote sb i byte off s tot s2 where
  frame := h.frame.trans hf
  others j hj := (h.others j hj).trans h.frame (hsame j)
  solid x h1 h2 := by
    rw [hf.kept _ (h.solid x h1 h2)]
    exact h.solid x h1 h2
  new x h1 h2 := (hf.raw_eq (hsame i) (h.solid x h1 h2)).trans (h.new x h1 h2)
  old x h0 hx := by
    have h0' : s1.own (i, placeOf (x / bsize)) ≠ 0 := by rwa [h.frame.kept _ h0]
    exact (hf.raw_eq (hsame i) h0').trans (h.old x h0 hx)

theorem raw_patch (src : Source) {c : ℕ} (hsep : Sep sb s1)
    (hb : s1.own (i, placeOf ((off + tot) / bsize)) = b) (hb0 : b ≠ 0)
    (hc : c ≤ bsize - (off + tot) % bsize) (x : ℕ) :
    (s1.setData b (patch src tot (s1.data b) ((off + tot) % bsize) c)).raw i x =
      if off + tot ≤ x ∧ x < off + tot + c then src.byte (x - off) else s1.raw i x := by
  rw [FsState.raw, FsState.raw, own_setData hsep hb hb0]
  change update s1.data b _ _ _ = _
  by_cases hbn : x / bsize = (off + tot) / bsize
  · rw [hbn, hb, update_self, patch]
    have hin : (off + tot) % bsize ≤ x % bsize ∧ x % bsize < (off + tot) % bsize + c ↔
        off + tot ≤ x ∧ x < off + tot + c := by
      simp only [bsize] at hbn hc ⊢
      omega
    rw [if_congr hin rfl rfl]
    split_ifs with hx
    · refine congrArg src.byte ?_
      simp only [bsize] at hbn ⊢
      omega
    · rfl
  · have hne : s1.own (i, placeOf (x / bsize)) ≠ b := by
      intro heq
      have hplace := hsep.owned.inj _ _ (heq.trans hb.symm) (heq ▸ hb0)
      exact hbn (placeOf_inj.mp (Prod.mk.inj hplace).2)
    rw [update_of_ne hne, if_neg]
    simp only [bsize] at hbn hc ⊢
    omega

theorem patch_step {src : Source} {c : ℕ} (h : Wrote sb i src.byte off s tot s1)
    (hb : s1.own (i, placeOf ((off + tot) / bsize)) = b) (hb0 : b ≠ 0)
    (hc : c ≤ bsize - (off + tot) % bsize) :
    Wrote sb i src.byte off s (tot + c)
      (s1.setData b (patch src tot (s1.data b) ((off + tot) % bsize) c)) := by
  have hown := own_setData h.frame.sep hb hb0 (patch src tot (s1.data b) ((off + tot) % bsize) c)
  have hraw := raw_patch src (i := i) h.frame.sep hb hb0 hc
  refine ⟨h.frame.setData hb hb0 _, fun j hj bn h0 => ?_, fun x h1 h2 => ?_, fun x h1 h2 => ?_,
    fun x h0 hx => ?_⟩
  · -- the block belongs to this inode
    refine Eq.trans (update_of_ne (fun heq => hj ?_) ..) (h.others j hj bn h0)
    have hplace := h.frame.sep.owned.inj (j, placeOf bn) (i, placeOf ((off + tot) / bsize))
    rw [h.frame.kept _ h0, hb] at hplace
    exact (Prod.mk.inj (hplace heq h0)).1
  · rw [hown]
    by_cases hx : x < off + tot
    · exact h.solid x h1 hx
    · have hbn : x / bsize = (off + tot) / bsize := by
        simp only [bsize] at hc ⊢
        omega
      rwa [hbn, hb]
  · rw [hraw]
    split_ifs with hx
    · rfl
    · exact h.new x h1 (by omega)
  · rw [hraw, if_neg (by omega)]
    exact h.old x h0 (by omega)

end Wrote

/-- `bmap` in one round of the loop. -/
theorem Wrote.bmap {tot : ℕ} (hmax : off + n ≤ maxfile * bsize) (h : Held s i e)
    (hw : Wrote sb i byte off s tot s1) (hlt : tot < n) :
    Runs (bmap sb i ((off + tot) / bsize)) s1 E fun b s2 => Wrote sb i byte off s tot s2 ∧
      (b ≠ 0 → s2.own (i, placeOf ((off + tot) / bsize)) = b) ∧
      (b = 0 → s2.Full sb ∧ s.own (i, placeOf ((off + tot) / bsize)) = 0) := by
  obtain ⟨addrs, h1⟩ := hw.frame.entry e h
  have hbn : ¬ maxfile ≤ (off + tot) / bsize := by
    simp only [maxfile, ndirect, nindirect, bsize] at hmax ⊢
    omega
  refine (bmap_spec hw.frame.sep h1 fun hle => absurd hle hbn).mono ?_
  rintro b s2 ⟨hf, hsame, hb, hfull⟩
  refine ⟨hw.frame_step hf hsame, hb, fun hb0 => ⟨(hfull hb0).1, ?_⟩⟩
  by_contra h0
  exact h0 ((hw.frame.kept _ h0).symm.trans (hfull hb0).2)

theorem Source.copied_le (src : Source) (tot m : ℕ) : src.copied tot m ≤ m := by
  unfold Source.copied
  split
  · exact le_rfl
  · exact min_le_left _ _

/-- A copy falls short only where the source ends. -/
theorem Source.copied_lt {tot m : ℕ} (h : src.copied tot m < m) :
    ∃ f, src.fault = some f ∧ src.copied tot m = f - tot := by
  rw [Source.copied] at h ⊢
  cases hf : src.fault with
  | none =>
    rw [hf] at h
    exact absurd h (lt_irrefl m)
  | some f =>
    rw [hf] at h
    exact ⟨f, rfl, by dsimp only at h ⊢; omega⟩

/-- Where `writei` may stop, when it reports `tot` of `n` bytes and has copied `c` more: at a block
boundary, unless it has written all or nothing; and in the middle of a block only because of the
source. -/
structure Stops (src : Source) (off n tot c : ℕ) : Prop where
  le : tot ≤ n
  block : tot = 0 ∨ (off + tot) % bsize = 0 ∨ tot = n
  part : c ≠ 0 → src.fault = some (tot + c) ∧ tot + c < n ∧ (off + (tot + c)) % bsize ≠ 0

/-- **The loop of `writei`.** -/
theorem writeiLoop_spec (hmax : off + n ≤ maxfile * bsize) (h : Held s i e) (fuel : ℕ) :
    ∀ {tot : ℕ} {s1 : FsState}, n ≤ tot + fuel → Stops src off n tot 0 →
      Wrote sb i src.byte off s tot s1 →
      Runs (writeiLoop sb i src n fuel tot (off + tot)) s1 E fun r s' =>
        ∃ tot' c, r = (tot', off + tot') ∧ Stops src off n tot' c ∧
          Wrote sb i src.byte off s (tot' + c) s' ∧
          (tot' < n → s'.Full sb ∧ s.own (i, placeOf ((off + tot') / bsize)) = 0 ∨
            ∃ f ≤ tot' + c, src.fault = some f) := by
  induction fuel with
  | zero =>
    intro tot s1 hfuel hstop hw
    exact ⟨tot, 0, rfl, hstop, hw, fun hlt => by omega⟩
  | succ fuel ih =>
    intro tot s1 hfuel hstop hw
    rw [writeiLoop]
    split_ifs with hlt
    · refine (hw.bmap hmax h hlt).bind ?_
      rintro b s2 ⟨hw2, hb, hfull⟩
      split_ifs with hb0
      · exact ⟨tot, 0, rfl, hstop, hw2, fun _ => .inl (hfull hb0)⟩
      rw [Runs.modify_bind]
      have hm : 0 < bsize - (off + tot) % bsize := Nat.sub_pos_of_lt (Nat.mod_lt _ (by decide))
      set m := min (n - tot) (bsize - (off + tot) % bsize) with hmdef
      have hmod : m = n - tot ∨ (off + tot + m) % bsize = 0 := by
        simp only [bsize] at hmdef ⊢
        omega
      have hle := src.copied_le tot m
      have hw3 := hw2.patch_step (hb hb0) hb0 (hle.trans (min_le_right _ _))
      split_ifs with hshort
      · -- the source has ended
        obtain ⟨f, hf, hc⟩ := Source.copied_lt hshort
        refine ⟨tot, src.copied tot m, rfl, ⟨hstop.le, hstop.block, fun h0 => ⟨?_, by omega, ?_⟩⟩,
          hw3, fun _ => .inr ⟨f, by omega, hf⟩⟩
        · rw [hf, hc]
          exact congrArg some (by omega)
        · generalize src.copied tot m = c at *
          simp only [bsize] at hmdef ⊢
          omega
      · have hall : src.copied tot m = m := by omega
        rw [hall] at hw3 ⊢
        rw [add_assoc]
        refine ih (by omega) ⟨by omega, ?_, fun h0 => absurd rfl h0⟩ hw3
        rcases hmod with heq | heq
        · exact Or.inr (Or.inr (by omega))
        · exact Or.inr (Or.inl (by rwa [← add_assoc]))
    · exact ⟨tot, 0, rfl, hstop, hw, fun h0 => absurd h0 hlt⟩

/-! ### The end of `writei` -/

theorem Held.iupdate (h : Held s i e) :
    Runs (iupdate i) s E fun _ s' => s' = s.setDinode i e.ino := by
  unfold Fs.iupdate
  refine h.fields.bind ?_
  rintro _ s1 ⟨rfl, rfl⟩
  rw [Runs.modify_iff]

/-- The inode with at least the size `off`. -/
def Dinode.growTo (ip : Dinode) (off : ℕ) : Dinode := { ip with size := max ip.size off }

theorem growTo_spec (h : Held s i e) :
    Runs (growTo i off) s E fun _ s' => s' = s.setEntry i (some (e.setIno (e.ino.growTo off))) := by
  unfold growTo
  refine h.fields.bind ?_
  rintro _ s1 ⟨rfl, rfl⟩
  split_ifs with hlt
  · refine (h.assign _).mono ?_
    rintro _ s' rfl
    rw [Dinode.growTo, max_eq_right hlt.le]
  · rw [Runs.pure_iff, Dinode.growTo, max_eq_left (by omega)]
    have hsame : update s1.itable i (some (e.setIno e.ino)) = s1.itable :=
      update_eq_self_iff.mpr h.entry.symm
    rw [FsState.setEntry]
    exact congrArg (fun t => { s1 with itable := t }) hsame.symm

theorem own_of_inode (hino : ∀ j ≠ i, s'.inode j = s.inode j) (hdata : s'.data = s.data)
    (htype : (s'.inode i).type = (s.inode i).type)
    (haddrs : (s'.inode i).addrs = (s.inode i).addrs) :
    s'.own = s.own := by
  funext ⟨j, p⟩
  by_cases hj : j = i
  · subst hj
    rw [FsState.own, FsState.own, hdata]
    dsimp only
    rw [htype]
    refine if_congr Iff.rfl rfl ?_
    cases p <;> rw [Dinode.addrAt, Dinode.addrAt, haddrs]
  · exact own_congr (hino j hj) (fun _ _ => by rw [hdata]) p

theorem own_grow (h : Held s i e) (off : ℕ) :
    ((s.setEntry i (some (e.setIno (e.ino.growTo off)))).setDinode i (e.ino.growTo off)).own =
      s.own := by
  set s' := (s.setEntry i (some (e.setIno (e.ino.growTo off)))).setDinode i (e.ino.growTo off)
  have hino : ∀ j ≠ i, s'.inode j = s.inode j := fun j hj => by
    have htable : s'.itable j = s.itable j := update_of_ne hj ..
    have hdin : s'.dinode j = s.dinode j := update_of_ne hj ..
    rw [FsState.inode, FsState.inode, htable, hdin]
  have hinoi : s'.inode i = e.ino.growTo off := by
    rw [inode_of_some (s := s') (update_self ..)]
    exact if_pos h.valid
  refine own_of_inode hino rfl ?_ ?_
  · rw [hinoi, h.inode_eq]
    rfl
  · rw [hinoi, h.inode_eq]
    rfl

theorem file_ext (hino : s'.inode j = s.inode j)
    (hbyte : ∀ x, (s'.file j).byte x = (s.file j).byte x) : s'.file j = s.file j := by
  have hfield : ∀ {α : Type} (f : Dinode → α), f (s'.inode j) = f (s.inode j) := fun f =>
    congrArg f hino
  exact File.ext (hfield Dinode.type) (hfield Dinode.major) (hfield Dinode.minor)
    (hfield Dinode.nlink) (hfield Dinode.size) (funext hbyte)

theorem Wrote.file_other (hok : Ok sb s) (hw : Wrote sb i byte off s k s1) (hj : j ≠ i)
    (hino : s'.inode j = s.inode j) (hown : s'.own = s1.own) (hdata : s'.data = s1.data) :
    s'.file j = s.file j := by
  refine file_ext hino fun x => ?_
  by_cases hfree : (s.inode j).type = .free
  · rw [file_byte_of_free hfree, file_byte_of_free (hino ▸ hfree)]
  · by_cases hx : x < (s.inode j).size
    · have h0 := hok.solid j hfree x hx
      have h0' : s'.own (j, placeOf (x / bsize)) ≠ 0 := by rwa [hown, hw.frame.kept _ h0]
      rw [file_byte_of_lt hx h0, file_byte_of_lt (hino ▸ hx) h0',
        ← hw.frame.raw_eq (hw.others j hj) h0, FsState.raw, FsState.raw, hown, hdata]
    · rw [file_byte_of_le (not_lt.mp hx), file_byte_of_le (hino ▸ not_lt.mp hx)]

/-- The state in which `writei` ends, when the loop has left `s1` with the addresses `addrs`. -/
theorem Wrote.finish {tot : ℕ} {addrs : ℕ → ℕ} (hok : Ok sb s) (h : Held s i e)
    (hw : Wrote sb i byte off s k s1) (hk : tot ≤ k)
    (h1 : Held s1 i (e.setIno (e.ino.setAddrs addrs))) (hoff : off ≤ e.ino.size) :
    Post sb s ((s1.setEntry i (some (e.setIno
      ((e.ino.setAddrs addrs).growTo (off + tot))))).setDinode
        i ((e.ino.setAddrs addrs).growTo (off + tot)))
      (update s.file i ((s.file i).patched off tot k byte)) s.refs := by
  set ip := (e.ino.setAddrs addrs).growTo (off + tot) with hip
  set s2 := (s1.setEntry i (some (e.setIno ip))).setDinode i ip with hs2
  have hself : s2.itable i = some (e.setIno ip) := update_self ..
  have hother : ∀ j ≠ i, s2.itable j = s.itable j := fun j hj =>
    (update_of_ne hj ..).trans (hw.frame.other j hj)
  have hdin : ∀ j ≠ i, s2.dinode j = s.dinode j := fun j hj =>
    (update_of_ne hj ..).trans (congrFun hw.frame.dinode j)
  have hdini : s2.dinode i = ip := update_self ..
  have hinoi : s2.inode i = ip := by
    rw [inode_of_some hself]
    exact if_pos h.valid
  have hino : ∀ j ≠ i, s2.inode j = s.inode j := fun j hj => by
    rw [FsState.inode, FsState.inode, hother j hj, hdin j hj]
  have hown : s2.own = s1.own := own_grow h1 (off + tot)
  -- there is no hole: what was there is kept, and what is new has been written
  have hsolid : ∀ x < max e.ino.size (off + tot), s1.own (i, placeOf (x / bsize)) ≠ 0 := by
    intro x hx
    by_cases hxs : x < e.ino.size
    · have h0 := hok.solid i h.inode_live x (h.inode_eq ▸ hxs)
      rwa [hw.frame.kept _ h0]
    · exact hw.solid x (by omega) (by omega)
  have hraw : ∀ x, s2.raw i x = s1.raw i x := fun x => by
    rw [FsState.raw, FsState.raw, hown]
    rfl
  refine ⟨⟨hw.frame.sep.congr rfl hown, fun j e' he' hv => ?_, fun j e' he' => ?_,
    fun j hlive x hx => ?_⟩, funext fun j => ?_, funext fun j => ?_, fun j hj _ => ?_⟩
  · by_cases hj : j = i
    · subst hj
      obtain rfl := Option.some.inj (hself.symm.trans he')
      exact ⟨hdini.symm, h.live⟩
    · rw [hdin j hj]
      exact hok.table j e' ((hother j hj).symm.trans he') hv
  · by_cases hj : j = i
    · subst hj
      obtain rfl := Option.some.inj (hself.symm.trans he')
      exact hok.ref_ne j e h.entry
    · exact hok.ref_ne j e' ((hother j hj).symm.trans he')
  · rw [hown]
    by_cases hj : j = i
    · subst hj
      rw [hinoi] at hx
      exact hsolid x hx
    · rw [hino j hj] at hlive hx
      rw [hw.frame.kept _ (hok.solid j hlive x hx)]
      exact hok.solid j hlive x hx
  · by_cases hj : j = i
    · subst hj
      have hfield : ∀ {α : Type} (f : Dinode → α), f ip = f e.ino →
          f (s2.inode j) = f (s.inode j) := fun f hf => by rw [hinoi, h.inode_eq, hf]
      have hsize := h.size_eq
      rw [update_self]
      refine File.ext (hfield Dinode.type rfl) (hfield Dinode.major rfl) (hfield Dinode.minor rfl)
        (hfield Dinode.nlink rfl) ?_ (funext fun x => ?_)
      · change (s2.inode j).size = max (s.file j).size (off + tot)
        rw [hinoi, hsize]
        rfl
      · simp only [File.patched, hsize]
        by_cases hx : x < max e.ino.size (off + tot)
        · rw [if_pos hx, file_byte_of_lt (hinoi ▸ hx) (hown ▸ hsolid x hx), hraw]
          split_ifs with hin
          · exact hw.new x hin.1 hin.2
          · have hxs : x < (s.inode j).size := by
              rw [h.inode_eq]
              omega
            have h0 := hok.solid j h.inode_live x hxs
            rw [hw.old x h0 hin, file_byte_of_lt hxs h0]
        · rw [if_neg hx, file_byte_of_le (hinoi ▸ not_lt.mp hx)]
    · rw [update_of_ne hj]
      exact hw.file_other hok hj (hino j hj) hown rfl
  · by_cases hj : j = i
    · subst hj
      rw [refs_of_some hself, refs_of_some h.entry]
      rfl
    · rw [FsState.refs, FsState.refs, hother j hj]
  · by_cases hji : j = i
    · subst hji
      exact ⟨_, hself, h.valid⟩
    · obtain ⟨e', he', hv⟩ := hj
      exact ⟨e', (hother j hji).trans he', hv⟩

/-- **`writei`**, for an offset in the file and a length that fits: it does not panic; the file is
replaced by what it reports and, where the source ends in the middle of a block, a little more; and
nothing else changes. -/
theorem writei_spec (hok : Ok sb s) (h : Held s i e) (hoff : off ≤ e.ino.size)
    (hmax : off + n ≤ maxfile * bsize) :
    Runs (writei sb i src off n) s E fun r s' => ∃ tot c : ℕ, r = tot ∧ Stops src off n tot c ∧
      Post sb s s' (update s.file i ((s.file i).patched off tot (tot + c) src.byte))
        s.refs ∧ (∀ k, s.own k ≠ 0 → s'.own k = s.own k) ∧
      (tot < n → s'.Full sb ∧ s.own (i, placeOf ((off + tot) / bsize)) = 0 ∨
        ∃ f ≤ tot + c, src.fault = some f) := by
  have hsum : uadd off n = off + n := Nat.mod_eq_of_lt (lt_of_le_of_lt hmax (by decide))
  unfold writei
  refine h.fields.bind ?_
  rintro _ s0 ⟨rfl, rfl⟩
  rw [hsum, if_neg (by omega), if_neg (by omega)]
  have hstart : Stops src off n 0 0 := ⟨Nat.zero_le n, Or.inl rfl, fun h0 => absurd rfl h0⟩
  refine (writeiLoop_spec hmax h n (by omega) hstart (.refl hok.sep)).bind ?_
  rintro _ s1 ⟨tot, c, rfl, hstop, hw, hfull⟩
  obtain ⟨addrs, h1⟩ := hw.frame.entry e h
  dsimp only
  refine (growTo_spec h1).bind ?_
  rintro _ _ rfl
  have h2 : Held (s1.setEntry i (some (e.setIno ((e.ino.setAddrs addrs).growTo (off + tot))))) i
      (e.setIno ((e.ino.setAddrs addrs).growTo (off + tot))) :=
    ⟨update_self .., h.valid, h.live⟩
  refine h2.iupdate.bind ?_
  rintro _ _ rfl
  refine ⟨tot, c, rfl, hstop, hw.finish hok h (Nat.le_add_right _ _) h1 hoff, fun k hk => ?_, hfull⟩
  exact (congrFun (own_grow h1 (off + tot)) k).trans (hw.frame.kept k hk)

/-- `writei` refuses what an inode cannot hold, and changes nothing then. -/
theorem writei_refuses (h : Held s i e) (hoff : off < 2 ^ 32) (hn : n < 2 ^ 32)
    (hbad : ¬ (off ≤ e.ino.size ∧ off + n ≤ maxfile * bsize)) :
    Runs (writei sb i src off n) s E fun r s' => r = -1 ∧ s' = s := by
  unfold writei
  refine h.fields.bind ?_
  rintro _ s0 ⟨rfl, rfl⟩
  by_cases hfirst : e.ino.size < off ∨ uadd off n < off
  · rw [if_pos hfirst]
    exact ⟨rfl, rfl⟩
  · have hsum : uadd off n = off + n := by
      rw [uadd] at hfirst ⊢
      omega
    rw [if_neg hfirst, hsum, if_pos (by omega)]
    exact ⟨rfl, rfl⟩

/-! ### Reading -/

theorem Ok.size_le (hok : Ok sb s) (h : Held s i e) : e.ino.size ≤ maxfile * bsize := by
  by_contra hlt
  have h0 := hok.solid i h.inode_live (maxfile * bsize) (by rw [h.inode_eq]; omega)
  refine h0 ?_
  have hplace : placeOf (maxfile * bsize / bsize) = .indirect nindirect := rfl
  rw [own_of_live h.inode_live, hplace, Dinode.addrAt, if_neg]
  exact fun hc => lt_irrefl _ hc.1

/-- How many bytes `readi` returns for the 32-bit numbers `off` and `n`: those of the range that are
in the file, and none if the end of the range is no 32-bit number. -/
def readLen (size off n : ℕ) : ℕ := if off + n < 2 ^ 32 then min (off + n) size - off else 0

/-- `readi` shows the inode `i` as a file of `size` bytes. -/
def ReadsAs (sb : Superblock) (i : ℕ) (s : FsState) (size : ℕ) (byte : ℕ → UInt8) : Prop :=
  ∀ (dst : ℕ → ℕ → Bool) (off n : ℕ), off < 2 ^ 32 → n < 2 ^ 32 →
    ∃ r, readi sb i dst off n s = .ok (r, s) ∧
      (r = (((readLen size off n : ℕ) : ℤ), (List.range (readLen size off n)).map fun x =>
          byte (off + x)) ∨
        r.1 = -1 ∧ ∃ t m, dst t m = false)

/-- What `readi` shows is determined. -/
theorem ReadsAs.byte_eq {size x : ℕ} {byte' : ℕ → UInt8} (h : ReadsAs sb i s size byte)
    (h' : ReadsAs sb i s size byte') (hx : x < size) (hlt : x + 1 < 2 ^ 32) :
    byte x = byte' x := by
  obtain ⟨r, hr, hcase⟩ := h (fun _ _ => true) x 1 (by omega) (by decide)
  obtain ⟨r', hr', hcase'⟩ := h' (fun _ _ => true) x 1 (by omega) (by decide)
  cases hr.symm.trans hr'
  have hlen : readLen size x 1 = 1 := by
    rw [readLen, if_pos hlt]
    omega
  have heq := (hcase.resolve_right (by simp)).symm.trans (hcase'.resolve_right (by simp))
  simpa [hlen] using heq

theorem bytes_eq_file (hok : Ok sb s) (h : Held s i e) (hk : off + k ≤ e.ino.size) :
    s.bytes i off k = (List.range k).map fun x => (s.file i).byte (off + x) := by
  refine List.map_congr_left fun x hx => ?_
  have hlt : off + x < (s.inode i).size := by
    rw [h.inode_eq]
    have := List.mem_range.mp hx
    omega
  rw [file_byte_of_lt hlt (hok.solid i h.inode_live _ hlt)]

/-- **`readi`** shows the file, for all offsets and lengths. -/
theorem readi_spec (hok : Ok sb s) (h : Held s i e) :
    ReadsAs sb i s e.ino.size (s.file i).byte := by
  intro dst off n hoff hn
  have hsize := hok.size_le h
  have hlt : maxfile * bsize < 2 ^ 32 := by decide
  have hruns : Runs (readi sb i dst off n) s (fun _ => False) fun r s' =>
      (r = (((readLen e.ino.size off n : ℕ) : ℤ), s.bytes i off (readLen e.ino.size off n)) ∨
        r.1 = -1 ∧ ∃ t m, dst t m = false) ∧ s' = s := by
    unfold readi
    refine h.fields.bind ?_
    rintro _ s0 ⟨rfl, rfl⟩
    -- the sum wraps around if and only if it is smaller than `off`
    by_cases hsum : off + n < 2 ^ 32
    · have huadd : uadd off n = off + n := Nat.mod_eq_of_lt hsum
      rw [huadd]
      by_cases hend : e.ino.size < off
      · have hlen : readLen e.ino.size off n = 0 := by
          rw [readLen, if_pos hsum]
          omega
        rw [if_pos (Or.inl hend), hlen]
        exact ⟨Or.inl rfl, rfl⟩
      · have hlen : (if e.ino.size < off + n then e.ino.size - off else n) =
            readLen e.ino.size off n := by
          rw [readLen, if_pos hsum]
          split_ifs <;> omega
        rw [if_neg (by omega), hlen]
        refine readiLoop_hit h (fun x hx => ?_) _ 0 (by omega) (by omega)
        refine hok.solid i h.inode_live (off + x) ?_
        rw [h.inode_eq]
        rw [readLen, if_pos hsum] at hx
        omega
    · have huadd : uadd off n < off := by
        rw [uadd]
        omega
      rw [if_pos (Or.inr huadd), readLen, if_neg hsum]
      exact ⟨Or.inl rfl, rfl⟩
  obtain ⟨r, s', hrun, hr, rfl⟩ := hruns.exists_ok
  refine ⟨r, hrun, hr.imp_left fun heq => ?_⟩
  rw [heq]
  by_cases hend : off ≤ e.ino.size
  · have hk : off + readLen e.ino.size off n ≤ e.ino.size := by
      rw [readLen]
      split_ifs <;> omega
    rw [bytes_eq_file hok h hk]
  · have hlen : readLen e.ino.size off n = 0 := by
      rw [readLen]
      split_ifs <;> omega
    rw [hlen]
    rfl

theorem Post.held {F : ℕ → File} (hpost : Post sb s s' F s.refs) (hok : Ok sb s) (h : Held s i e) :
    ∃ e', Held s' i e' := by
  refine hpost.ok.held (hpost.keep i ⟨e, h.entry, h.valid⟩ ?_)
  rw [hpost.refs, refs_of_some h.entry]
  exact hok.ref_ne i e h.entry

theorem Post.reads {F : ℕ → File} (hpost : Post sb s s' F s.refs) (hok : Ok sb s)
    (h : Held s i e) : ReadsAs sb i s' (s'.file i).size (s'.file i).byte := by
  obtain ⟨e', h'⟩ := hpost.held hok h
  have hsize := h'.size_eq
  rw [hsize]
  exact readi_spec hpost.ok h'

/-- The file `i` of `size` bytes has had `tot` bytes from `off` on replaced: `readi` shows the old
bytes with those of the range replaced, and no other file has changed. -/
structure WrittenTo (sb : Superblock) (s : FsState) (i size off tot : ℕ) (byte : ℕ → UInt8)
    (s' : FsState) : Prop where
  ok : Ok sb s'
  size_eq : (s'.file i).size = max size (off + tot)
  reads : ReadsAs sb i s' (max size (off + tot)) fun x =>
    if off ≤ x ∧ x < off + tot then byte (x - off) else (s.file i).byte x
  others : ∀ j ≠ i, s'.file j = s.file j

theorem Post.writtenTo {tot : ℕ} (hok : Ok sb s) (h : Held s i e)
    (hpost : Post sb s s' (update s.file i ((s.file i).patched off tot tot byte)) s.refs) :
    WrittenTo sb s i e.ino.size off tot byte s' := by
  have hsize := h.size_eq
  have hfile : s'.file i = (s.file i).patched off tot tot byte := by
    rw [hpost.file, update_self]
  have hsize' : (s'.file i).size = max e.ino.size (off + tot) := by
    rw [hfile, ← hsize]
    rfl
  refine ⟨hpost.ok, hsize', ?_, fun j hj => ?_⟩
  · have hread := hpost.reads hok h
    rw [hsize', hfile] at hread
    intro dst off' n' hoff' hn'
    obtain ⟨r', hr', hcase⟩ := hread dst off' n' hoff' hn'
    refine ⟨r', hr', hcase.imp_left fun heq => heq.trans ?_⟩
    refine congrArg (Prod.mk _) (List.map_congr_left fun x hx => ?_)
    have hlt : off' + x < max (s.file i).size (off + tot) := by
      have hx' := List.mem_range.mp hx
      rw [readLen] at hx'
      rw [hsize]
      split_ifs at hx' <;> omega
    simp only [File.patched, if_pos hlt]
  · rw [hpost.file, update_of_ne hj]

/-- A disk on which inode 1 is in memory and has no blocks yet, and inode 2 is an empty file. -/
def fresh (sb : Superblock) (type : FileType) : FsState where
  bitmap b := b < sb.size - sb.nblocks
  dinode := update (update (fun _ => .zero) 2 { Dinode.zero with type := .file, nlink := 1 }) 1
    { Dinode.zero with type, nlink := 1 }
  data _ _ := 0
  itable := update (fun _ => none) 1 (some ⟨1, true, { Dinode.zero with type, nlink := 1 }⟩)
  used := 1

theorem fresh_held (sb : Superblock) {type : FileType} (h : type ≠ .free) :
    Held (fresh sb type) 1 ⟨1, true, { Dinode.zero with type, nlink := 1 }⟩ := ⟨rfl, rfl, h⟩

theorem fresh_inode (sb : Superblock) (type : FileType) (j : ℕ) :
    (fresh sb type).inode j = (fresh sb type).dinode j := by
  by_cases hj : j = 1
  · subst hj
    rfl
  · rw [FsState.inode, fresh]
    simp only [update_of_ne hj]

theorem fresh_ok (sb : Superblock) {type : FileType} (h : type ≠ .free) :
    Ok sb (fresh sb type) := by
  have hino : ∀ j, ((fresh sb type).inode j).size = 0 ∧
      ((fresh sb type).inode j).addrs = fun _ => 0 := by
    intro j
    rw [fresh_inode, fresh]
    by_cases hj : j = 1
    · subst hj
      exact ⟨rfl, rfl⟩
    · simp only [update_of_ne hj, update_apply]
      split_ifs
      · exact ⟨rfl, rfl⟩
      · exact ⟨rfl, rfl⟩
  have hown : ∀ k, (fresh sb type).own k = 0 := by
    rintro ⟨j, p⟩
    rw [FsState.own]
    cases p <;> simp [Dinode.addrAt, (hino j).2]
  have hentry : ∀ j e, (fresh sb type).itable j = some e → j = 1 ∧
      e = ⟨1, true, { Dinode.zero with type, nlink := 1 }⟩ := by
    intro j e he
    by_cases hj : j = 1
    · subst hj
      exact ⟨rfl, (Option.some.inj he).symm⟩
    · rw [fresh] at he
      simp only [update_of_ne hj] at he
      cases he
  refine ⟨⟨⟨fun k hk => ?_, fun k l _ hk => ?_, fun b hb0 hb hbit => ?_⟩, fun b hb => ?_⟩,
    fun j e he _ => ?_, fun j e he => ?_, fun j _ x hx => ?_⟩
  · exact absurd (hown k) hk
  · exact absurd (hown k) hk
  · have hlt : b < sb.size - sb.nblocks := of_decide_eq_true hbit
    exact absurd hb.1 (not_le.mpr hlt)
  · exact decide_eq_true hb
  · obtain ⟨rfl, rfl⟩ := hentry j e he
    exact ⟨rfl, h⟩
  · obtain ⟨rfl, rfl⟩ := hentry j e he
    exact Nat.one_ne_zero
  · rw [(hino j).1] at hx
    exact absurd hx (Nat.not_lt_zero x)

/-- Eight blocks, of which the last four are data. -/
def smallDisk : Superblock := ⟨8, 4, 2, by decide, by decide⟩

/-- **Files are arrays of bytes.** For every file without holes: `readi` returns exactly the bytes
of the range that are in the file, and nothing where offset and length have no 32-bit sum. A write
at an offset in the file whose end an inode can hold does not panic; and when it reports all its
bytes, the size is the larger of the two ends, `readi` shows the range replaced, and no other file
has changed. -/
theorem writei_readi (hok : Ok sb s) (h : Held s i e) :
    ReadsAs sb i s e.ino.size (s.file i).byte ∧
    ∀ (src : Source) (off n : ℕ), off ≤ e.ino.size → off + n ≤ maxfile * bsize →
      ∃ r s', writei sb i src off n s = .ok (r, s') ∧
        (r = n → WrittenTo sb s i e.ino.size off n src.byte s') := by
  refine ⟨readi_spec hok h, fun src off n hoff hmax => ?_⟩
  have hruns : Runs (writei sb i src off n) s (fun _ => False) _ := writei_spec hok h hoff hmax
  obtain ⟨r, s', hrun, tot, c, hr, hstop, hpost, -, -⟩ := hruns.exists_ok
  refine ⟨r, s', hrun, fun hn => ?_⟩
  obtain rfl : tot = n := by
    rw [hr] at hn
    exact_mod_cast hn
  -- a full write has no bytes beyond what it reports
  obtain rfl : c = 0 := by
    by_contra hc
    have := (hstop.part hc).2.1
    omega
  exact hpost.writtenTo hok h

theorem writei_readi_fresh : ∃ s',
    writei smallDisk 1 ⟨fun _ => 7, none⟩ 0 3 (fresh smallDisk .file) = .ok (3, s') ∧
    WrittenTo smallDisk (fresh smallDisk .file) 1 0 0 3 (fun _ => 7) s' := by
  have hlive : FileType.file ≠ .free := by decide
  obtain ⟨r, s', hrun, h⟩ := (writei_readi (fresh_ok smallDisk hlive)
    (fresh_held smallDisk hlive)).2 ⟨fun _ => 7, none⟩ 0 3 (by decide) (by decide)
  obtain ⟨⟨_, _⟩, hrun', rfl⟩ : ∃ q, writei smallDisk 1 ⟨fun _ => 7, none⟩ 0 3
      (fresh smallDisk .file) = .ok q ∧ q.1 = 3 := Ensures.exists_ok (by decide +kernel)
  cases hrun.symm.trans hrun'
  exact ⟨s', hrun, h rfl⟩

def eightBytes : Except Panic (ℤ × FsState) :=
  writei smallDisk 1 ⟨fun k => .ofNat (7 + k), none⟩ 0 8 (fresh smallDisk .file)

theorem eightBytes_ok {r : ℤ} (hr : eightBytes = .ok (r, s)) :
    Ok smallDisk s ∧ ∃ e, Held s 1 e := by
  have hok : Ok smallDisk (fresh smallDisk .file) := fresh_ok smallDisk (by decide)
  have h := fresh_held smallDisk (by decide : FileType.file ≠ .free)
  obtain ⟨tot, c, -, -, hpost, -⟩ :=
    (writei_spec (E := fun _ => True) hok h (by decide) (by decide)).of_ok hr
  exact ⟨hpost.ok, hpost.held hok h⟩

end Xv6.Fs
