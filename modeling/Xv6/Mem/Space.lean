import Xv6.Mem.Shape
import Xv6.Mem.Vm

/-!
# Address spaces under the reference counts

One address space against everything else: `K` and `U` are the references that others hold, the
kernel's pages and the user mappings of other spaces. An operation on a space keeps the counts
exact, touches no page of anybody else, and changes what the user sees as its specification says.

A specification is stated for any set `E` of panics that the operation may end with, under the
alternative `hE`: the table has the shape the operation expects, or `E` admits all panics other than
those of the counts. Where the shape is known, that of the result is part of the conclusion.
-/

namespace Xv6

open Function PageTable

/-- A user page as its process sees it: the permissions, a copy-on-write page counting as
writable, and the bytes. -/
structure UPage where
  r : Bool
  w : Bool
  x : Bool
  u : Bool
  bytes : Page

/-- The user page behind a leaf entry. -/
def Pte.view (mem : ℕ → Page) (p : Pte) : Option UPage :=
  if p.has pteV then
    some ⟨p.has pteR, p.has pteW || p.has pteC, p.has pteX, p.has pteU, mem p.frame⟩
  else none

/-- The user part of an address space, by virtual page. -/
def userView (mem : ℕ → Page) (h : ℕ → Pte) : ℕ → Option UPage :=
  fun v => if v < userPages then (h v).view mem else none

variable {p : Pte} {v : ℕ} {mem : ℕ → Page} {h : ℕ → Pte}

theorem userView_of_lt (hv : v < userPages) : userView mem h v = (h v).view mem := if_pos hv

theorem Pte.view_of_not_valid (hp : p.has pteV = false) : p.view mem = none := if_neg (by simp [hp])

theorem Pte.view_congr {mem' : ℕ → Page} (h : p.has pteV = true → mem' p.frame = mem p.frame) :
    p.view mem' = p.view mem := by
  rw [Pte.view, Pte.view]
  split_ifs with hV
  · rw [h hV]
  · rfl

theorem userView_congr {mem' : ℕ → Page}
    (hm : ∀ v < userPages, (h v).has pteV = true → mem' (h v).frame = mem (h v).frame) :
    userView mem' h = userView mem h := by
  funext v
  rw [userView, userView]
  split_ifs with hv
  · exact Pte.view_congr (hm v hv)
  · rfl

theorem userView_update (hv : v < userPages) (q : Pte) :
    userView mem (update h v q) = update (userView mem h) v (q.view mem) := by
  funext w
  rw [update_apply, userView, userView, update_apply]
  split_ifs with h1 h2 h2
  · rfl
  · rfl
  · omega
  · rfl

/-- A space in good order beside references `K` and `U` of others: the counts are exact, a
writable user page has no other mapping, and no entry is writable and copy on write at once. -/
structure SpaceOk (kend : ℕ) (K U : ℕ → ℕ) (pt : PageTable) (m : Phys) : Prop where
  acct : Acct kend m (K + pt.tables) (U + leafRefs pt.leaf)
  excl : ∀ v < userPages, (pt.leaf v).has pteV = true → (pt.leaf v).has pteW = true →
    (U + leafRefs pt.leaf) (pt.leaf v).frame = 1
  nowc : ∀ v, (pt.leaf v).has pteW = true → (pt.leaf v).has pteC = false

/-- What every operation on a space keeps: good order, that a page of others is not shared anew
with this space, and the kernel's two leaves at the top. -/
structure SpaceMove (kend : ℕ) (K U : ℕ → ℕ) (pt pt' : PageTable) (m' : Phys) : Prop where
  ok : SpaceOk kend K U pt' m'
  fresh : ∀ f, U f ≠ 0 → leafRefs pt.leaf f = 0 → leafRefs pt'.leaf f = 0
  upper : ∀ v, userPages ≤ v → pt'.leaf v = pt.leaf v

/-- An operation that also leaves the contents of the pages of others alone. -/
structure SpaceStep (kend : ℕ) (K U : ℕ → ℕ) (pt : PageTable) (m : Phys) (pt' : PageTable)
    (m' : Phys) : Prop extends SpaceMove kend K U pt pt' m' where
  keep : ∀ f, K f + U f ≠ 0 → m'.mem f = m.mem f

section Step

variable {kend : ℕ} {K U : ℕ → ℕ} {pt pt1 pt2 : PageTable} {m m1 m2 : Phys}

theorem SpaceMove.refl (h : SpaceOk kend K U pt m) : SpaceMove kend K U pt pt m :=
  ⟨h, fun _ _ h0 => h0, fun _ _ => rfl⟩

theorem SpaceMove.trans (h1 : SpaceMove kend K U pt pt1 m1)
    (h2 : SpaceMove kend K U pt1 pt2 m2) : SpaceMove kend K U pt pt2 m2 :=
  ⟨h2.ok, fun f hf h0 => h2.fresh f hf (h1.fresh f hf h0),
    fun v hv => (h2.upper v hv).trans (h1.upper v hv)⟩

theorem SpaceStep.refl (h : SpaceOk kend K U pt m) : SpaceStep kend K U pt m pt m :=
  ⟨.refl h, fun _ _ => rfl⟩

theorem SpaceStep.trans (h1 : SpaceStep kend K U pt m pt1 m1)
    (h2 : SpaceStep kend K U pt1 m1 pt2 m2) : SpaceStep kend K U pt m pt2 m2 :=
  ⟨h1.toSpaceMove.trans h2.toSpaceMove, fun f hf => (h2.keep f hf).trans (h1.keep f hf)⟩

end Step

section Unmap

variable {kend : ℕ} {E : Panic → Prop} {K U : ℕ → ℕ} {pt : PageTable} {m : Phys}

/-- The user part of a space with the pages `[v, v + n)` removed. -/
def dropView (s : ℕ → Option UPage) (v n : ℕ) : ℕ → Option UPage :=
  fun w => if v ≤ w ∧ w < v + n then none else s w

/-- **`uvmunmap` with freeing**, on a space in good order. -/
theorem uvmunmap_free_spec {n : ℕ} (hvn : v + n ≤ userPages)
    (hE : pt.Shaped (v + n) ∨ Panic.RefSafe ≤ E) (h : SpaceOk kend K U pt m) :
    Ensures (uvmunmap kend pt (v * pgSize) n true m) E fun r =>
      SpaceStep kend K U pt m r.1 r.2 ∧ (pt.Shaped (v + n) → r.1.Shaped v) ∧
      userView r.2.mem r.1.leaf = dropView (userView m.mem pt.leaf) v n := by
  rw [uvmunmap, if_neg (by simp [Nat.mul_mod_left])]
  refine (uvmunmapLoop_free_spec n hvn (hE.imp_left fun hs w _ hw => hs.user w hw) h.acct).mono ?_
  rintro ⟨pt', m'⟩ ⟨ht, hl, hA, hlow, hmem⟩
  dsimp only at ht hl hA hmem ⊢
  have hle : ∀ f, leafRefs pt'.leaf f ≤ leafRefs pt.leaf f := fun f => by
    rw [hl]
    exact leafRefs_clearRange_le pt.leaf v n f
  -- a leaf that is left is a leaf of before
  have hleft : ∀ w, (pt'.leaf w).has pteV = true → pt'.leaf w = pt.leaf w := by
    intro w hw
    rw [hl, clearRange] at hw ⊢
    split_ifs at hw ⊢
    · simp at hw
    · rfl
  refine ⟨⟨⟨⟨hA, fun w hw hV hW => ?_, fun w hW => ?_⟩, fun f _ h0 => ?_, fun w hw => ?_⟩,
    fun f hf => hmem f ?_⟩, fun hs => hs.clear hl hlow, funext fun w => ?_⟩
  · have h1 := h.excl w hw (hleft w hV ▸ hV) (hleft w hV ▸ hW)
    have h2 := leafRefs_ne_zero hw hV
    rw [hleft w hV] at h2 ⊢
    have h3 := hle (pt.leaf w).frame
    simp only [Pi.add_apply] at h1 ⊢
    omega
  · rw [hl, clearRange] at hW ⊢
    split_ifs at hW ⊢
    · exact has_zero _
    · exact h.nowc w hW
  · exact Nat.eq_zero_of_le_zero ((hle f).trans h0.le)
  · rw [hl, clearRange, if_neg (by omega)]
  · simp only [Pi.add_apply]
    omega
  · rw [dropView]
    by_cases hw : w < userPages
    · rw [userView_of_lt hw, userView_of_lt hw]
      split_ifs with hr
      · rw [hl, clearRange, if_pos hr]
        exact Pte.view_of_not_valid (has_zero _)
      · have heq : pt'.leaf w = pt.leaf w := by rw [hl, clearRange, if_neg hr]
        rw [heq]
        refine Pte.view_congr fun hV => hmem _ ?_
        have := leafRefs_ne_zero hw (heq ▸ hV : (pt'.leaf w).has pteV = true)
        rw [heq] at this
        simp only [Pi.add_apply]
        omega
    · simp [userView, hw]

theorem dropView_zero (s : ℕ → Option UPage) (v : ℕ) : dropView s v 0 = s :=
  funext fun w => if_neg (by omega)

/-- The pages of an address space of `sz` bytes. -/
def npages (sz : ℕ) : ℕ := (sz + (pgSize - 1)) / pgSize

theorem pgRoundUp_eq {sz : ℕ} (h : sz ≤ trapframeVa) : pgRoundUp sz = npages sz * pgSize := by
  simp only [trapframeVa, trampolineVa, maxVa, pgSize] at h
  simp only [pgRoundUp, npages, pgSize]
  omega

theorem npages_le {sz : ℕ} (h : sz ≤ trapframeVa) : npages sz ≤ userPages := by
  simp only [trapframeVa, trampolineVa, maxVa, pgSize] at h
  simp only [npages, userPages, trapframeVa, trampolineVa, maxVa, pgSize]
  omega

theorem npages_mono {a b : ℕ} (h : a ≤ b) : npages a ≤ npages b :=
  Nat.div_le_div_right (Nat.add_le_add_right h _)

theorem npages_zero : npages 0 = 0 := rfl

theorem npages_mul (v : ℕ) : npages (v * pgSize) = v := by
  simp only [npages, pgSize]
  omega

/-- **`uvmdealloc`** removes the pages between the two sizes. -/
theorem uvmdealloc_spec {oldsz newsz : ℕ} (hsz : oldsz ≤ trapframeVa)
    (hE : pt.Shaped (npages oldsz) ∨ Panic.RefSafe ≤ E) (h : SpaceOk kend K U pt m) :
    Ensures (uvmdealloc kend pt oldsz newsz m) E fun r =>
      SpaceStep kend K U pt m r.2.1 r.2.2 ∧ r.1 = min oldsz newsz ∧
      (pt.Shaped (npages oldsz) → r.2.1.Shaped (npages r.1)) ∧
      userView r.2.2.mem r.2.1.leaf =
        dropView (userView m.mem pt.leaf) (npages newsz) (npages oldsz - npages newsz) := by
  rw [uvmdealloc]
  by_cases hle : oldsz ≤ newsz
  · rw [if_pos hle]
    refine ⟨SpaceStep.refl h, (min_eq_left hle).symm, id, ?_⟩
    rw [Nat.sub_eq_zero_of_le (npages_mono hle), dropView_zero]
  · have hlt : newsz ≤ oldsz := by omega
    rw [if_neg hle, pgRoundUp_eq hsz, pgRoundUp_eq (hlt.trans hsz)]
    by_cases hpg : npages newsz < npages oldsz
    · have hn : (npages oldsz * pgSize - npages newsz * pgSize) / pgSize =
          npages oldsz - npages newsz := by
        rw [← Nat.sub_mul, Nat.mul_div_cancel _ (by decide)]
      rw [if_pos (Nat.mul_lt_mul_of_pos_right hpg (by decide)), hn]
      have hsum : npages newsz + (npages oldsz - npages newsz) = npages oldsz :=
        Nat.add_sub_cancel' hpg.le
      refine (uvmunmap_free_spec (hsum.symm ▸ npages_le hsz) (hsum.symm ▸ hE) h).bind ?_
      rintro ⟨pt', m'⟩ ⟨hstep, hshape, hview⟩
      exact ⟨hstep, (min_eq_right hlt).symm, fun hs => hshape (hsum.symm ▸ hs), hview⟩
    · have hno : ¬ npages newsz * pgSize < npages oldsz * pgSize := fun hc =>
        hpg (Nat.lt_of_mul_lt_mul_right hc)
      have heq : npages newsz = npages oldsz := le_antisymm (npages_mono hlt) (by omega)
      rw [if_neg hno]
      refine ⟨SpaceStep.refl h, (min_eq_right hlt).symm, fun hs => heq.symm ▸ hs, ?_⟩
      rw [heq, Nat.sub_self, dropView_zero]

end Unmap

section Map

variable {kend : ℕ} {E : Panic → Prop} {K U : ℕ → ℕ} {pt pt' : PageTable} {m m' : Phys}

theorem SpaceOk.same_leaf (h : SpaceOk kend K U pt m) (hleaf : pt'.leaf = pt.leaf)
    (hA : Acct kend m' (K + pt'.tables) (U + leafRefs pt.leaf))
    (hmem : ∀ f, K f + (U + leafRefs pt.leaf) f ≠ 0 → m'.mem f = m.mem f) :
    SpaceStep kend K U pt m pt' m' ∧ userView m'.mem pt'.leaf = userView m.mem pt.leaf := by
  refine ⟨⟨⟨⟨hleaf ▸ hA, hleaf ▸ h.excl, hleaf ▸ h.nowc⟩, fun f _ h0 => hleaf ▸ h0,
    fun w _ => by rw [hleaf]⟩, fun f hf => hmem f (by simp only [Pi.add_apply]; omega)⟩, ?_⟩
  rw [hleaf]
  refine userView_congr fun w hw hwV => hmem _ ?_
  have := leafRefs_ne_zero hw hwV
  simp only [Pi.add_apply]
  omega

theorem SpaceOk.map_fresh {g : ℕ} (h : SpaceOk kend K U pt m) (hv : v < userPages)
    (hU : (U + leafRefs pt.leaf) g = 0) (hinv : (pt.leaf v).has pteV = false)
    (hV : p.has pteV = true) (hf : p.frame = g) (hwc : p.has pteW = true → p.has pteC = false)
    (hleaf : pt'.leaf = update pt.leaf v p)
    (hA : Acct kend m' (K + pt'.tables) (U + leafRefs pt.leaf + ref g))
    (hmem : ∀ f, K f + (U + leafRefs pt.leaf) f ≠ 0 → m'.mem f = m.mem f) :
    SpaceStep kend K U pt m pt' m' ∧
      userView m'.mem pt'.leaf = update (userView m.mem pt.leaf) v (p.view m'.mem) := by
  have hrefs : leafRefs pt'.leaf = leafRefs pt.leaf + ref g := by
    have := leafRefs_update_add pt.leaf hv p
    rwa [leafRef_of_not_valid hinv, add_zero, leafRef_of_valid hV, hf, ← hleaf] at this
  -- the frames mapped before are not `g`
  have hne : ∀ w < userPages, (pt.leaf w).has pteV = true → (pt.leaf w).frame ≠ g := by
    rintro w hw hw' rfl
    have := leafRefs_ne_zero hw hw'
    simp only [Pi.add_apply] at hU
    omega
  refine ⟨⟨⟨⟨?_, fun w hw hwV hwW => ?_, fun w hW => ?_⟩, fun f hf0 h0 => ?_, fun w hw => ?_⟩,
    fun f hf0 => ?_⟩, ?_⟩
  · rwa [hrefs, ← add_assoc]
  · rw [hrefs]
    rw [hleaf, update_apply] at hwV hwW ⊢
    split_ifs at hwV hwW ⊢ with hwv
    · rw [hf]
      simp only [Pi.add_apply, ref_self] at hU ⊢
      omega
    · have := h.excl w hw hwV hwW
      rwa [Pi.add_apply, Pi.add_apply, ref_of_ne (hne w hw hwV), add_zero, ← Pi.add_apply]
  · rw [hleaf, update_apply] at hW ⊢
    split_ifs at hW ⊢
    · exact hwc hW
    · exact h.nowc w hW
  · have hfg : f ≠ g := by
      rintro rfl
      simp only [Pi.add_apply] at hU
      omega
    rw [hrefs, Pi.add_apply, h0, ref_of_ne hfg]
  · rw [hleaf, update_of_ne (by omega)]
  · exact hmem f (by simp only [Pi.add_apply]; omega)
  · rw [hleaf, userView_update hv]
    refine congrArg (update · v _) (userView_congr fun w hw hwV => hmem _ ?_)
    have := leafRefs_ne_zero hw hwV
    simp only [Pi.add_apply]
    omega

/-- The permissions `uvmalloc` is called with: flag bits, and not `PTE_C`. -/
def AllocPerm (xperm : Pte) : Prop := IsFlags xperm ∧ xperm.has pteC = false

/-- A fresh page of zeros with the permissions of `uvmalloc`. -/
def zeroPage (xperm : Pte) : UPage := ⟨true, xperm.has pteW, xperm.has pteX, true, fun _ => 0⟩

/-- The user part of a space with `n` fresh pages added from `v` on. -/
def growView (s : ℕ → Option UPage) (xperm : Pte) (v n : ℕ) : ℕ → Option UPage :=
  fun w => if v ≤ w ∧ w < v + n then some (zeroPage xperm) else s w

theorem growView_zero (s : ℕ → Option UPage) (xperm : Pte) (v : ℕ) : growView s xperm v 0 = s :=
  funext fun w => if_neg (by omega)

theorem growView_succ (s : ℕ → Option UPage) (xperm : Pte) (v n : ℕ) :
    growView (update s v (some (zeroPage xperm))) xperm (v + 1) n = growView s xperm v (n + 1) := by
  funext w
  simp only [growView, update_apply]
  split_ifs <;> first | rfl | omega

theorem dropView_update {s : ℕ → Option UPage} {o : ℕ} (hov : o ≤ v) (hs : s v = none)
    (x : Option UPage) : dropView (update s v x) o (v + 1 - o) = dropView s o (v - o) := by
  funext w
  simp only [dropView, update_apply]
  by_cases hw : w = v
  · rw [hw, if_pos (by omega), if_neg (by omega), hs]
  · simp only [hw, if_false]
    exact if_congr (by omega) rfl rfl

theorem userView_eq_none (hv : (h v).has pteV = false) : userView mem h v = none := by
  rw [userView]
  split_ifs
  · exact Pte.view_of_not_valid hv
  · rfl

theorem Acct.frame_lt {f : ℕ} (h : Acct kend m K U) (hf : U f ≠ 0) : f < 2 ^ 52 := by
  have := (h.counted.ram f (by simp [hf])).2
  simp only [pgSize, physStop] at this
  omega

theorem getLsbD_mapEntry (pa : ℕ) (perm : Pte) {i : ℕ} (hi : i < 10) :
    (pa2pte pa ||| perm ||| pteV).getLsbD i = (perm.getLsbD i || decide (0 = i)) := by
  rw [BitVec.getLsbD_or, getLsbD_pa2pte_or _ _ hi, getLsbD_pteV]

theorem frame_mapEntry {f : ℕ} (hf : f < 2 ^ 52) {perm : Pte} (hperm : IsFlags perm) :
    (pa2pte (f * pgSize) ||| perm ||| pteV).frame = f := by
  rw [BitVec.or_assoc]
  exact frame_pa2pte_or hf (hperm.or isFlags_pteV)

/-- What the loop of `uvmalloc` leaves, at `n` pages before its end: the pages from `v` on are
there, or those from `o` on are gone. -/
def AllocDone (kend : ℕ) (K U : ℕ → ℕ) (o newsz : ℕ) (xperm : Pte) (v n : ℕ) (pt : PageTable)
    (m : Phys) (r : ℕ × PageTable × Phys) : Prop :=
  SpaceStep kend K U pt m r.2.1 r.2.2 ∧
    ((r.1 = newsz ∧ v + n ≤ userPages ∧ (pt.Shaped v → r.2.1.Shaped (v + n)) ∧
      userView r.2.2.mem r.2.1.leaf = growView (userView m.mem pt.leaf) xperm v n) ∨
    (r.1 = 0 ∧ (pt.Shaped v → r.2.1.Shaped o) ∧
      userView r.2.2.mem r.2.1.leaf = dropView (userView m.mem pt.leaf) o (v - o)))

/-- The loop of `uvmalloc`: fresh pages on success, and on failure every page from `o` on that it
found or made is gone. The valid leaf above the user part stops it there. -/
theorem uvmallocLoop_spec {o newsz : ℕ} {xperm : Pte} (hx : AllocPerm xperm) (n : ℕ) :
    ∀ {v : ℕ} {pt : PageTable} {m : Phys}, o ≤ v → v ≤ userPages →
      (pt.leaf userPages).has pteV = true → pt.Shaped v ∨ Panic.RefSafe ≤ E →
      SpaceOk kend K U pt m →
      Ensures (uvmallocLoop kend (o * pgSize) newsz xperm n (v * pgSize) pt m) E
        (AllocDone kend K U o newsz xperm v n pt m) := by
  induction n with
  | zero =>
    intro v pt m _ hv _ _ h
    exact ⟨SpaceStep.refl h, Or.inl ⟨rfl, hv, id, (growView_zero _ _ _).symm⟩⟩
  | succ n ih =>
    intro v pt m hov hv htop hE h
    -- giving up: the pages from `o` to `v` are freed
    have hundo : ∀ {pt' : PageTable} {m' : Phys}, SpaceStep kend K U pt m pt' m' →
        (pt.Shaped v → pt'.Shaped v) → userView m'.mem pt'.leaf = userView m.mem pt.leaf →
        Ensures (uvmdealloc kend pt' (v * pgSize) (o * pgSize) m' >>= fun r => pure (0, r.2)) E
          (AllocDone kend K U o newsz xperm v (n + 1) pt m) := by
      intro pt' m' hst hshape hview
      refine (uvmdealloc_spec (mul_le_trapframeVa hv)
        (by rw [npages_mul]; exact hE.imp_left hshape) hst.ok).bind ?_
      rintro ⟨sz, pt2, m2⟩ ⟨hst2, hsz2, hshape2, hview2⟩
      dsimp only at hsz2 hshape2
      rw [npages_mul, hsz2, min_eq_right (Nat.mul_le_mul_right _ hov), npages_mul] at hshape2
      refine ⟨hst.trans hst2, Or.inr ⟨rfl, hshape2 ∘ hshape, ?_⟩⟩
      rw [hview2, npages_mul, npages_mul, hview]
    rw [uvmallocLoop]
    refine (h.acct.kalloc_spec).bind ?_
    rintro ⟨page, m1⟩ (⟨hr, -⟩ | ⟨g, rfl, hK, hU, -, hA, hmem1⟩)
    · cases hr
      exact hundo (SpaceStep.refl h) id rfl
    · have hE' : (v < maxVa / pgSize ∧ (pt.leaf v).has pteV = false) ∨ Panic.RefSafe ≤ E :=
        hE.imp_left fun hs => by
          have hlt := hs.lt_userPages hv h.acct
          exact ⟨hlt.trans (by decide), hs.unused v le_rfl hlt⟩
      have hg : g < 2 ^ 52 := hA.frame_lt (by simp)
      have hA' : Acct kend (m1.memset g 0) (K + pt.tables) (U + leafRefs pt.leaf + ref g) :=
        hA.congr rfl rfl
      refine (mappages_spec hE' hA').bind ?_
      rintro ⟨r, pt2, m2⟩ ⟨hA2, hmem2, hlow2, hleaf2⟩
      -- the pages in use before are as they were
      have hkeep : ∀ f, (K + pt.tables) f + (U + leafRefs pt.leaf) f ≠ 0 → m2.mem f = m.mem f := by
        intro f hf
        have hne : f ≠ g := by
          rintro rfl
          exact hf (by rw [hK, hU])
        rw [hmem2 f (by simp only [Pi.add_apply] at hf ⊢; omega), Phys.memset_mem, hmem1,
          update_of_ne hne, update_of_ne hne]
      cases r with
      | false =>
        replace hleaf2 : pt2.leaf = pt.leaf := hleaf2
        refine hA2.kfree_user.bind ?_
        rintro m3 ⟨hA3, hmem3⟩
        obtain ⟨hst, hview⟩ := h.same_leaf hleaf2 hA3 fun f hf => by
          have hne : f = g → (U + leafRefs pt.leaf) g ≠ 0 := by
            rintro rfl h0
            simp only [Pi.add_apply] at hf hK h0
            omega
          rw [hmem3 f hne, hkeep f (by simp only [Pi.add_apply] at hf ⊢; omega)]
        exact hundo hst (fun hs => hs.congr hleaf2 hlow2) hview
      | true =>
        obtain ⟨hinv, hleaf2⟩ : (pt.leaf v).has pteV = false ∧ _ := hleaf2
        have hv' : v < userPages := lt_of_le_of_ne hv fun he => by
          rw [he, htop] at hinv
          cases hinv
        have hperm : IsFlags (pteR ||| pteU ||| xperm) := (isFlags_pteR.or isFlags_pteU).or hx.1
        have hfr := frame_mapEntry hg hperm
        have hbit : ∀ i < 10, (pa2pte (g * pgSize) ||| (pteR ||| pteU ||| xperm) |||
            pteV).getLsbD i =
              (decide (1 = i) || decide (4 = i) || xperm.getLsbD i || decide (0 = i)) := by
          intro i hi
          rw [getLsbD_mapEntry _ _ hi, BitVec.getLsbD_or, BitVec.getLsbD_or, getLsbD_pteR,
            getLsbD_pteU]
        have hC : xperm.getLsbD 5 = false := by simpa using hx.2
        have hqV : (pa2pte (g * pgSize) ||| (pteR ||| pteU ||| xperm) ||| pteV).has pteV
            = true := by
          rw [has_pteV, hbit 0 (by omega)]
          simp
        have hqR : (pa2pte (g * pgSize) ||| (pteR ||| pteU ||| xperm) ||| pteV).has pteR
            = true := by
          rw [has_pteR, hbit 1 (by omega)]
          simp
        have hshape : pt.Shaped v → pt2.Shaped (v + 1) := fun hs =>
          hs.map hv' ⟨hqV, hqR⟩ (by rw [hfr]; exact (Nat.add_eq_zero_iff.mp hU).2) hleaf2 hlow2
        obtain ⟨hst, hview⟩ := h.map_fresh hv' hU hinv hqV hfr
          (fun _ => by rw [has_pteC, hbit 5 (by omega)]; simpa using hC) hleaf2 hA2
          fun f hf => hkeep f (by simp only [Pi.add_apply] at hf ⊢; omega)
        -- the new page reads as zeros
        have hzero : (pa2pte (g * pgSize) ||| (pteR ||| pteU ||| xperm) ||| pteV).view m2.mem =
            some (zeroPage xperm) := by
          rw [Pte.view, hfr, hmem2 g (by simp), Phys.memset_mem, update_self]
          simp only [has_pteV, has_pteR, has_pteW, has_pteC, has_pteX, has_pteU]
          rw [hbit 0 (by omega), hbit 1 (by omega), hbit 2 (by omega), hbit 3 (by omega),
            hbit 4 (by omega), hbit 5 (by omega)]
          rw [hC, zeroPage, has_pteW, has_pteX]
          simp
        rw [hzero] at hview
        have hnone : userView m.mem pt.leaf v = none := userView_eq_none hinv
        have hnext : v * pgSize + pgSize = (v + 1) * pgSize := (Nat.succ_mul v pgSize).symm
        simp only [Bool.true_eq_false, if_false, hnext]
        refine (ih (by omega) hv' (by rw [hst.upper _ le_rfl, htop]) (hE.imp_left hshape)
          hst.ok).mono ?_
        rintro ⟨sz, pt3, m3⟩ ⟨hst3, ⟨hsz, hle, hshape3, hview3⟩ | ⟨hsz, hshape3, hview3⟩⟩
        · refine ⟨hst.trans hst3, Or.inl ⟨hsz, by omega, fun hs => ?_, ?_⟩⟩
          · rw [← Nat.succ_add_eq_add_succ]
            exact hshape3 (hshape hs)
          · rw [hview3, hview, growView_succ]
        · refine ⟨hst.trans hst3, Or.inr ⟨hsz, hshape3 ∘ hshape, ?_⟩⟩
          rw [hview3, hview, dropView_update hov hnone]

/-- **`uvmalloc`** adds zeroed pages up to the new size, or leaves what the user sees as it was. -/
theorem uvmalloc_spec {oldsz newsz : ℕ} {xperm : Pte} (hx : AllocPerm xperm)
    (hsz : oldsz ≤ trapframeVa) (htop : (pt.leaf userPages).has pteV = true)
    (hE : pt.Shaped (npages oldsz) ∨ Panic.RefSafe ≤ E) (h : SpaceOk kend K U pt m) :
    Ensures (uvmalloc kend pt oldsz newsz xperm m) E fun r =>
      SpaceStep kend K U pt m r.2.1 r.2.2 ∧
        (pt.Shaped (npages oldsz) → r.2.1.Shaped (npages (if r.1 = 0 then oldsz else r.1))) ∧
        ((r.1 = max oldsz newsz ∧ r.1 ≤ trapframeVa ∧ userView r.2.2.mem r.2.1.leaf =
          growView (userView m.mem pt.leaf) xperm (npages oldsz)
            (npages newsz - npages oldsz)) ∨
        (r.1 = 0 ∧ userView r.2.2.mem r.2.1.leaf = userView m.mem pt.leaf)) := by
  rw [uvmalloc]
  by_cases hlt : newsz < oldsz
  · rw [if_pos hlt]
    refine ⟨SpaceStep.refl h, fun hs => ?_, Or.inl ⟨(max_eq_left hlt.le).symm, hsz, ?_⟩⟩
    · rwa [ite_self]
    · rw [Nat.sub_eq_zero_of_le (npages_mono hlt.le), growView_zero]
  · rw [if_neg hlt]
    have hn : (newsz - npages oldsz * pgSize + (pgSize - 1)) / pgSize =
        npages newsz - npages oldsz := by
      simp only [npages, pgSize]
      omega
    simp only [pgRoundUp_eq hsz, hn]
    refine (uvmallocLoop_spec hx _ le_rfl (npages_le hsz) htop hE h).mono ?_
    rintro ⟨sz, pt', m'⟩ ⟨hst, ⟨rfl, hle, hshape, hview⟩ | ⟨hsz', hshape, hview⟩⟩
    · refine ⟨hst, fun hs => ?_, Or.inl ⟨(max_eq_right (by omega)).symm, ?_, hview⟩⟩
      · have hmono := npages_mono (Nat.not_lt.mp hlt)
        have hs' := hshape hs
        rw [Nat.add_sub_cancel' hmono] at hs'
        dsimp only
        split_ifs with h0
        · rwa [le_antisymm hmono (npages_mono (h0.trans_le (Nat.zero_le _)))]
        · exact hs'
      · simp only [npages, userPages, trapframeVa, trampolineVa, maxVa, pgSize] at hle hsz ⊢
        omega
    · rw [Nat.sub_self, dropView_zero] at hview
      refine ⟨hst, fun hs => ?_, Or.inr ⟨hsz', hview⟩⟩
      rw [if_pos hsz']
      exact hshape hs

theorem allocPerm_pteW : AllocPerm pteW := ⟨isFlags_pteW, by rw [has_pteC, getLsbD_pteW]; rfl⟩

theorem allocPerm_flags2perm (flags : ℕ) : AllocPerm (flags2perm flags) := by
  have h0 : AllocPerm 0#64 := ⟨fun i _ => by simp, has_zero _⟩
  have hX : AllocPerm pteX := ⟨isFlags_pteX, by rw [has_pteC, getLsbD_pteX]; rfl⟩
  have hW : ∀ p, AllocPerm p → AllocPerm (p ||| pteW) := fun p hp => by
    refine ⟨hp.1.or isFlags_pteW, ?_⟩
    rw [has_pteC, BitVec.getLsbD_or, getLsbD_pteW, ← has_pteC, hp.2]
    rfl
  simp only [flags2perm]
  split_ifs
  · exact hW _ hX
  · exact hW _ h0
  · exact hX
  · exact h0

/-- **`growproc`**: grown with writable zeros, shrunk, or left alone on failure. -/
theorem growproc_spec {sz : ℕ} {n : ℤ} (hsz : sz ≤ trapframeVa)
    (htop : (pt.leaf userPages).has pteV = true) (hE : pt.Shaped (npages sz) ∨ Panic.RefSafe ≤ E)
    (h : SpaceOk kend K U pt m) :
    Ensures (growproc kend pt sz n m) E fun r =>
      SpaceStep kend K U pt m r.2.1 r.2.2 ∧
        (pt.Shaped (npages sz) → r.2.1.Shaped (npages (r.1.getD sz))) ∧
        match r.1 with
        | none => 0 < n ∧ userView r.2.2.mem r.2.1.leaf = userView m.mem pt.leaf
        | some sz' => sz' ≤ trapframeVa ∧
          if 0 < n then sz' = sz + n.toNat ∧ userView r.2.2.mem r.2.1.leaf =
            growView (userView m.mem pt.leaf) pteW (npages sz) (npages sz' - npages sz)
          else sz' = min sz ((sz + n) % 2 ^ 64).toNat ∧ userView r.2.2.mem r.2.1.leaf =
            dropView (userView m.mem pt.leaf) (npages sz') (npages sz - npages sz') := by
  rw [growproc]
  by_cases hpos : 0 < n
  · rw [if_pos hpos]
    refine (uvmalloc_spec allocPerm_pteW hsz htop hE h).bind ?_
    rintro ⟨sz', pt', m'⟩ ⟨hst, hshape, ⟨hr, hle, hview⟩ | ⟨rfl, hview⟩⟩
    · dsimp only at hr hle hview hshape
      have hmax : sz' = sz + n.toNat := by omega
      have hne : ¬ sz' = 0 := by omega
      rw [if_neg hne] at hshape
      simp only [hne, if_false, if_pos hpos]
      exact ⟨hst, hshape, hle, hmax, hmax ▸ hview⟩
    · exact ⟨hst, hshape, hpos, hview⟩
  · rw [if_neg hpos]
    by_cases hneg : n < 0
    · rw [if_pos hneg]
      refine (uvmdealloc_spec hsz hE h).bind ?_
      rintro ⟨sz', pt', m'⟩ ⟨hst, hr, hshape, hview⟩
      dsimp only at hr hview
      refine ⟨hst, hshape, hr ▸ (min_le_left _ _).trans hsz, ?_⟩
      rw [if_neg hpos]
      refine ⟨hr, ?_⟩
      rw [hview, hr]
      -- a size that wraps below zero shrinks nothing
      rcases le_total sz ((sz + n) % 2 ^ 64).toNat with hle | hle
      · rw [min_eq_left hle, Nat.sub_eq_zero_of_le (npages_mono hle), Nat.sub_self, dropView_zero,
          dropView_zero]
      · rw [min_eq_right hle]
    · rw [if_neg hneg]
      refine ⟨SpaceStep.refl h, id, hsz, ?_⟩
      rw [if_neg hpos, Nat.sub_self, dropView_zero]
      simp only [trapframeVa, trampolineVa, maxVa, pgSize] at hsz
      exact ⟨by omega, rfl⟩

end Map

section Relabel

variable {kend : ℕ} {E : Panic → Prop} {K U : ℕ → ℕ} {pt pt' : PageTable} {m : Phys}

/-- Changing the permissions of one user leaf, but not making it writable. -/
theorem SpaceOk.relabel {q : Pte} (h : SpaceOk kend K U pt m) (hv : v < userPages)
    (hV : q.has pteV = (pt.leaf v).has pteV) (hf : q.frame = (pt.leaf v).frame)
    (hW : q.has pteW = true → (pt.leaf v).has pteW = true ∧ q.has pteC = false)
    (hleaf : pt'.leaf = update pt.leaf v q) (htab : pt'.tables = pt.tables) :
    SpaceStep kend K U pt m pt' m := by
  have hrefs : leafRefs pt'.leaf = leafRefs pt.leaf := by rw [hleaf, leafRefs_relabel hV hf]
  refine ⟨⟨⟨?_, fun w hw hwV hwW => ?_, fun w hwW => ?_⟩, fun f _ h0 => hrefs ▸ h0, fun w hw => ?_⟩,
    fun _ _ => rfl⟩
  · rw [htab, hrefs]
    exact h.acct
  · rw [hrefs]
    rw [hleaf, update_apply] at hwV hwW ⊢
    split_ifs at hwV hwW ⊢ with hwv
    · subst hwv
      rw [hf]
      exact h.excl w hw (hV ▸ hwV) (hW hwW).1
    · exact h.excl w hw hwV hwW
  · rw [hleaf, update_apply] at hwW ⊢
    split_ifs at hwW ⊢
    · exact (hW hwW).2
    · exact h.nowc w hwW
  · rw [hleaf, update_of_ne (by omega)]

/-- **`uvmclear`** takes a page from the user, and nothing else changes. -/
theorem uvmclear_spec {va : ℕ} (hva : va < trapframeVa)
    (hE : (pt.leaf (va / pgSize)).IsLeaf ∨ Panic.RefSafe ≤ E) (h : SpaceOk kend K U pt m) :
    Ensures (uvmclear pt va m) E fun pt' =>
      SpaceStep kend K U pt m pt' m ∧ ∀ n, pt.Shaped n → pt'.Shaped n := by
  have hmax := lt_maxVa hva
  have hv := div_lt_userPages.mpr hva
  simp only [uvmclear, walk_false pt hmax, bind, Except.bind]
  split_ifs with hm
  · rcases hE with hl | hE
    · rw [leaf_page pt hmax] at hl
      rw [mapped_of_has hl.1] at hm
      cases hm
    · exact hE _ (by simp [Panic.RefSafe])
  · have hbit : ∀ i, i ≠ 4 →
        (pt.pte va &&& ~~~pteU).getLsbD i = (pt.leaf (va / pgSize)).getLsbD i := by
      intro i hi
      rw [leaf_page pt hmax, BitVec.getLsbD_and, BitVec.getLsbD_not, getLsbD_pteU]
      by_cases hlt : i < 64
      · simp [hlt, hi.symm]
      · simp [BitVec.getLsbD_of_ge _ i (by omega : 64 ≤ i)]
    have hV : (pt.pte va &&& ~~~pteU).has pteV = (pt.leaf (va / pgSize)).has pteV := by
      rw [has_pteV, has_pteV, hbit 0 (by omega)]
    have hR : (pt.pte va &&& ~~~pteU).has pteR = (pt.leaf (va / pgSize)).has pteR := by
      rw [has_pteR, has_pteR, hbit 1 (by omega)]
    have hf : (pt.pte va &&& ~~~pteU).frame = (pt.leaf (va / pgSize)).frame :=
      frame_congr fun i hi => hbit i (by omega)
    have hleaf := leaf_setPte hmax (by simpa using hm) (pt.pte va &&& ~~~pteU)
    refine ⟨h.relabel hv hV hf (fun hW => ?_) hleaf (tables_setPte _ _ _), fun n hs =>
      hs.relabel hV hR hf hleaf fun hl => hl.setPte hmax _⟩
    · rw [has_pteW, hbit 2 (by omega), ← has_pteW] at hW
      exact ⟨hW, by rw [has_pteC, hbit 5 (by omega), ← has_pteC, h.nowc _ hW]⟩

end Relabel

section Free

variable {kend tramp : ℕ} {E : Panic → Prop} {K U : ℕ → ℕ} {pt : PageTable} {m : Phys}

/-- **`uvmfree`** gives up every reference of a space; it gets through if its pages are those below
the size. -/
theorem uvmfree_spec {sz : ℕ} (hsz : sz ≤ trapframeVa)
    (hE : (pt.Shaped (npages sz) ∧ ∀ v, userPages ≤ v → (pt.leaf v).has pteV = false) ∨
      Panic.RefSafe ≤ E) (h : SpaceOk kend K U pt m) :
    Ensures (uvmfree kend pt sz m) E fun m' =>
      Acct kend m' K U ∧ ∀ f, K f + U f ≠ 0 → m'.mem f = m.mem f := by
  have hwalk : ∀ {pt1 : PageTable} {m1 : Phys}, SpaceStep kend K U pt m pt1 m1 →
      (pt.Shaped (npages sz) → pt1.Shaped 0) →
      Ensures (freewalk kend 2 pt1.root pt1.tab m1) E fun m' =>
        Acct kend m' K U ∧ ∀ f, K f + U f ≠ 0 → m'.mem f = m.mem f := by
    intro pt1 m1 hst hshape
    have hempty : (∀ va, (pt1.pte va).has pteV = false) ∨ Panic.RefSafe ≤ E := by
      refine hE.imp_left fun ⟨hs, hup⟩ => pte_eq_false (hshape hs).low fun v => ?_
      rcases Nat.lt_or_ge v userPages with hv | hv
      · exact (hshape hs).unused v (Nat.zero_le v) hv
      · rw [hst.upper v hv]
        exact hup v hv
    refine (freewalk_spec 2 hempty hst.ok.acct).mono ?_
    rintro m' ⟨hA, hpte, hmem⟩
    have h0 : leafRefs pt1.leaf = 0 := leafRefs_eq_zero fun v _ => by
      rw [PageTable.leaf]
      split_ifs
      · exact hpte _
      · exact has_zero _
    rw [h0, add_zero] at hA
    refine ⟨hA, fun f hf => ?_⟩
    rw [hmem f ?_, hst.keep f hf]
    -- a page of others is no page of the table
    have hle := hst.ok.acct.kernel_le f
    have hsep := hst.ok.acct.sep f
    rw [h0] at hsep
    change pt1.tables f = 0
    simp only [Pi.add_apply, Pi.zero_apply] at hle hsep
    omega
  rw [uvmfree]
  split_ifs with hpos
  · rw [pgRoundUp_eq hsz, Nat.mul_div_cancel _ (by decide)]
    have hun := uvmunmap_free_spec (v := 0) (n := npages sz) (E := E)
      (by simpa using npages_le hsz) (hE.imp_left fun hs => by simpa using hs.1) h
    rw [Nat.zero_mul, Nat.zero_add] at hun
    exact hun.bind fun _ hr => hwalk hr.1 hr.2.1
  · have hzero : npages sz = 0 := by rw [Nat.eq_zero_of_not_pos hpos, npages_zero]
    exact hwalk (SpaceStep.refl h) fun hs => hzero ▸ hs

theorem uvmcreate_spec (h : Acct kend m K U) :
    Ensures (uvmcreate m) E fun r =>
      (∀ f, K f + U f ≠ 0 → r.2.mem f = m.mem f) ∧
      match r.1 with
      | none => Acct kend r.2 K U
      | some pt => SpaceOk kend K U pt r.2 ∧ (∀ v, pt.leaf v = 0#64) ∧ pt.Shaped 0 := by
  rw [uvmcreate]
  refine h.kalloc_spec.bind ?_
  rintro ⟨page, m1⟩ (⟨hr, -⟩ | ⟨g, rfl, hK, hU, hA, -, hmem⟩)
  · cases hr
    exact ⟨fun _ _ => rfl, h⟩
  · have hleaf : ∀ v, (⟨g, Table.zero 2⟩ : PageTable).leaf v = 0#64 := fun v => by
      rw [PageTable.leaf]
      split_ifs
      · exact Table.pte_zero _ 2
      · rfl
    have h0 : leafRefs (⟨g, Table.zero 2⟩ : PageTable).leaf = 0 :=
      leafRefs_eq_zero fun v _ => by rw [hleaf]; exact has_zero _
    have hshape : (⟨g, Table.zero 2⟩ : PageTable).Shaped 0 := by
      refine ⟨fun v hv => absurd hv (Nat.not_lt_zero v), fun v _ _ => ?_, fun f => ?_,
        fun i _ => rfl⟩
      · rw [hleaf]
        exact has_zero _
      · rw [h0]
        exact Nat.zero_le _
    refine ⟨fun f hf => ?_, ⟨?_, fun v _ hV _ => ?_, fun v hW => ?_⟩, hleaf, hshape⟩
    · have hne : f ≠ g := by
        rintro rfl
        omega
      rw [Phys.memset_mem, update_of_ne hne, hmem, update_of_ne hne]
    · rw [h0, add_zero, tables, Table.pages_zero, add_zero]
      exact hA.congr rfl rfl
    · rw [hleaf, has_zero] at hV
      cases hV
    · rw [hleaf, has_zero] at hW
      cases hW

theorem SpaceOk.set_upper {pt' : PageTable} {m' : Phys} {q : Pte} (h : SpaceOk kend K U pt m)
    (hv : userPages ≤ v) (hW : q.has pteW = true → q.has pteC = false)
    (hleaf : pt'.leaf = update pt.leaf v q)
    (hA : Acct kend m' (K + pt'.tables) (U + leafRefs pt.leaf)) : SpaceOk kend K U pt' m' := by
  have hrefs : leafRefs pt'.leaf = leafRefs pt.leaf := by rw [hleaf, leafRefs_update_of_le _ hv]
  refine ⟨hrefs ▸ hA, fun w hw hwV hwW => ?_, fun w hwW => ?_⟩
  · rw [hrefs]
    rw [hleaf, update_of_ne (by omega)] at hwV hwW ⊢
    exact h.excl w hw hwV hwW
  · rw [hleaf, update_apply] at hwW ⊢
    split_ifs at hwW ⊢
    · exact hW hwW
    · exact h.nowc w hwW

/-- The kernel's two leaves above the user part: the trapframe page is mapped, and the user can
access neither. -/
structure KernelTop (pt : PageTable) : Prop where
  trapframe : (pt.leaf userPages).has pteV = true
  noUser : ∀ v, userPages ≤ v → (pt.leaf v).has pteU = false

theorem KernelTop.congr {pt' : PageTable} (h : KernelTop pt)
    (hup : ∀ v, userPages ≤ v → pt'.leaf v = pt.leaf v) : KernelTop pt' :=
  ⟨by rw [hup _ le_rfl]; exact h.trapframe, fun v hv => by rw [hup v hv]; exact h.noUser v hv⟩

theorem KernelTop.move {pt' : PageTable} {m' : Phys} (h : KernelTop pt)
    (hst : SpaceMove kend K U pt pt' m') : KernelTop pt' := h.congr hst.upper

theorem trampolineVa_eq : trampolineVa = (userPages + 1) * pgSize := rfl

theorem trapframeVa_eq : trapframeVa = userPages * pgSize := rfl

/-- **`proc_freepagetable`** gives up every reference of a space. -/
theorem procFreepagetable_spec {sz : ℕ} (hsz : sz ≤ trapframeVa)
    (hE : (pt.Shaped (npages sz) ∧ pt.Topped) ∨ Panic.RefSafe ≤ E) (h : SpaceOk kend K U pt m) :
    Ensures (procFreepagetable kend pt sz m) E fun m' =>
      Acct kend m' K U ∧ ∀ f, K f + U f ≠ 0 → m'.mem f = m.mem f := by
  have hz : Pte.has 0#64 pteW = true → Pte.has 0#64 pteC = false := fun _ => has_zero _
  rw [procFreepagetable, trampolineVa_eq, trapframeVa_eq]
  have htop : userPages + 1 < maxVa / pgSize := by decide
  refine (uvmunmap_keep_spec htop (hE.imp_left fun hs => hs.2.trampoline)).bind ?_
  rintro ⟨pt1, m1⟩ ⟨ht1, hl1, hm1, hlow1⟩
  dsimp only at ht1 hl1 hm1 hlow1 ⊢
  subst hm1
  have h1 := h.set_upper (Nat.le_succ userPages) hz hl1 (by rw [ht1]; exact h.acct)
  have hframe : (pt1.leaf userPages).IsLeaf ∨ Panic.RefSafe ≤ E := hE.imp_left fun hs => by
    rw [hl1, update_of_ne (Nat.lt_succ_self _).ne]
    exact hs.2.trapframe
  refine (uvmunmap_keep_spec (Nat.lt_of_succ_lt htop) hframe).bind ?_
  rintro ⟨pt2, m2⟩ ⟨ht2, hl2, hm2, hlow2⟩
  dsimp only at ht2 hl2 hm2 hlow2 ⊢
  subst hm2
  -- only the user pages are left
  refine uvmfree_spec hsz (hE.imp_left fun ⟨hs, _⟩ => ⟨?_, fun v hv => ?_⟩)
    (h1.set_upper le_rfl hz hl2 (by rw [ht2]; exact h1.acct))
  · have hn := npages_le hsz
    exact (hs.set_upper hn (Nat.le_succ _) hl1 hlow1).set_upper hn le_rfl hl2 hlow2
  · rw [hl2, update_apply, hl1, update_apply]
    split_ifs with hu ht
    · exact has_zero _
    · exact has_zero _
    · have hge : maxVa / pgSize ≤ v := by
        simp only [userPages, trapframeVa, trampolineVa, maxVa, pgSize] at hv hu ht ⊢
        omega
      rw [leaf_eq_zero pt hge]
      exact has_zero _

/-- What `proc_pagetable` leaves: a space without user pages, or everything as it was. -/
def PagetableDone (kend : ℕ) (K U : ℕ → ℕ) (m : Phys) (r : Option PageTable × Phys) : Prop :=
  (∀ f, K f + U f ≠ 0 → r.2.mem f = m.mem f) ∧
    match r.1 with
    | none => Acct kend r.2 K U
    | some pt => SpaceOk kend K U pt r.2 ∧ KernelTop pt ∧ pt.Shaped 0 ∧ pt.Topped

theorem topEntry (f : ℕ) {x : Pte} (hx : x = pteW ∨ x = pteX) :
    (pa2pte (f * pgSize) ||| (pteR ||| x) ||| pteV).IsLeaf ∧
      (pa2pte (f * pgSize) ||| (pteR ||| x) ||| pteV).has pteC = false ∧
      (pa2pte (f * pgSize) ||| (pteR ||| x) ||| pteV).has pteU = false := by
  simp only [Pte.IsLeaf, has_pteV, has_pteR, has_pteC, has_pteU]
  rw [getLsbD_mapEntry _ _ (by omega), getLsbD_mapEntry _ _ (by omega),
    getLsbD_mapEntry _ _ (by omega), getLsbD_mapEntry _ _ (by omega)]
  simp only [BitVec.getLsbD_or, getLsbD_pteR]
  rcases hx with rfl | rfl
  · simp only [getLsbD_pteW]
    decide
  · simp only [getLsbD_pteX]
    decide

/-- **`proc_pagetable`** makes a space without user pages, or leaves everything as it was. It never
panics: the table it builds is its own. -/
theorem procPagetable_spec {tf : ℕ} (h : Acct kend m K U) :
    Ensures (procPagetable kend tramp tf m) E (PagetableDone kend K U m) := by
  have htop : userPages + 1 < maxVa / pgSize := by decide
  rw [procPagetable, trampolineVa_eq, trapframeVa_eq]
  refine (uvmcreate_spec h).bind ?_
  rintro ⟨_ | pt, m1⟩ ⟨hk1, hm1⟩
  · exact ⟨hk1, hm1⟩
  obtain ⟨hok, hleaf, hshape⟩ := hm1
  dsimp only at hk1 hok hleaf hshape ⊢
  -- a failure frees the table again
  have hfail : ∀ {pt' : PageTable} {m' : Phys}, SpaceOk kend K U pt' m' → pt'.Shaped 0 →
      (∀ v, userPages ≤ v → (pt'.leaf v).has pteV = false) →
      (∀ f, K f + U f ≠ 0 → m'.mem f = m.mem f) →
      Ensures (do
        let m ← uvmfree kend pt' 0 m'
        return ((none : Option PageTable), m)) E (PagetableDone kend K U m) := by
    intro pt' m' hok' hs hup hk'
    refine (uvmfree_spec (Nat.zero_le _) (Or.inl ⟨hs, hup⟩) hok').bind ?_
    rintro m'' ⟨hA, hk''⟩
    exact ⟨fun f hf => (hk'' f hf).trans (hk' f hf), hA⟩
  have hempty : ∀ v, (pt.leaf v).has pteV = false := fun v => by
    rw [hleaf]
    exact has_zero _
  refine (mappages_spec (Or.inl ⟨htop, hempty _⟩) hok.acct).bind ?_
  rintro ⟨r2, pt2, m2⟩ ⟨hA2, hmem2, hlow2, hl2⟩
  have hk2 : ∀ f, K f + U f ≠ 0 → m2.mem f = m.mem f := fun f hf => by
    rw [← hk1 f hf]
    exact hmem2 f (by simp only [Pi.add_apply]; omega)
  cases r2 with
  | false =>
    obtain ⟨hst, -⟩ := hok.same_leaf hl2 hA2 fun f hf =>
      hmem2 f (by simp only [Pi.add_apply] at hf ⊢; omega)
    refine hfail hst.ok (hshape.congr hl2 hlow2) (fun v _ => ?_) hk2
    rw [show pt2.leaf = pt.leaf from hl2]
    exact hempty v
  | true =>
    replace hl2 := hl2.2
    dsimp only at hl2 hlow2
    obtain ⟨hleaf2, hC2, hU2⟩ := topEntry tramp (Or.inr rfl)
    have hok2 := hok.set_upper (Nat.le_succ userPages) (fun _ => hC2) hl2 hA2
    have hshape2 := hshape.set_upper (Nat.zero_le _) (Nat.le_succ userPages) hl2 hlow2
    have hfree2 : (pt2.leaf userPages).has pteV = false := by
      rw [hl2, update_of_ne (Nat.lt_succ_self _).ne]
      exact hempty _
    simp only [Bool.true_eq_false, if_false]
    refine (mappages_spec (Or.inl ⟨Nat.lt_of_succ_lt htop, hfree2⟩) hok2.acct).bind ?_
    rintro ⟨r3, pt3, m3⟩ ⟨hA3, hmem3, hlow3, hl3⟩
    have hk3 : ∀ f, K f + U f ≠ 0 → m3.mem f = m.mem f := fun f hf => by
      rw [← hk2 f hf]
      exact hmem3 f (by simp only [Pi.add_apply]; omega)
    cases r3 with
    | false =>
      obtain ⟨hst, -⟩ := hok2.same_leaf hl3 hA3 fun f hf =>
        hmem3 f (by simp only [Pi.add_apply] at hf ⊢; omega)
      replace hl3 : pt3.leaf = pt2.leaf := hl3
      have htramp : (pt3.leaf (userPages + 1)).IsLeaf := by
        rw [hl3, hl2, update_self]
        exact hleaf2
      simp only [if_true]
      refine (uvmunmap_keep_spec htop (Or.inl htramp)).bind ?_
      rintro ⟨pt4, m4⟩ ⟨ht4, hl4, hm4, hlow4⟩
      dsimp only at ht4 hl4 hm4 hlow4 ⊢
      subst hm4
      refine hfail (hst.ok.set_upper (Nat.le_succ userPages) (fun _ => has_zero _) hl4
        (by rw [ht4]; exact hst.ok.acct))
        ((hshape2.congr hl3 hlow3).set_upper (Nat.zero_le _) (Nat.le_succ userPages) hl4 hlow4)
        (fun v _ => ?_) hk3
      rw [hl4, hl3, hl2, update_idem, update_apply]
      split_ifs
      · exact has_zero _
      · exact hempty v
    | true =>
      replace hl3 := hl3.2
      dsimp only at hl3 hlow3
      obtain ⟨hleaf3, hC3, hU3⟩ := topEntry tf (Or.inl rfl)
      refine ⟨hk3, hok2.set_upper le_rfl (fun _ => hC3) hl3 hA3, ⟨?_, fun v hv => ?_⟩,
        hshape2.set_upper (Nat.zero_le _) le_rfl hl3 hlow3, ⟨?_, ?_⟩⟩
      · rw [hl3, update_self]
        exact hleaf3.1
      · rw [hl3, hl2, update_apply, update_apply]
        split_ifs
        · exact hU3
        · exact hU2
        · rw [hleaf, has_zero]
      · rw [hl3, update_self]
        exact hleaf3
      · rw [hl3, update_of_ne (Nat.lt_succ_self _).ne', hl2, update_self]
        exact hleaf2

end Free

end Xv6
