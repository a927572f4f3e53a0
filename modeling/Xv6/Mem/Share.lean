import Xv6.Mem.Space

/-!
# Sharing pages copy on write

`uvmcopy` maps the parent's pages into the child, and turns the writable ones into copy-on-write
pages of both. The first write to such a page replaces it, for the writer alone, by a private
copy. Neither changes what any user sees.
-/

namespace Xv6

open Function PageTable

section Pair

variable {kend : ℕ} {E : Panic → Prop} {K U : ℕ → ℕ} {old new old' new' : PageTable} {m m' : Phys}
  {q : Pte} {k v : ℕ}

/-- Two spaces in good order, each counting the other among the others. -/
structure PairOk (kend : ℕ) (K U : ℕ → ℕ) (old new : PageTable) (m : Phys) : Prop where
  parent : SpaceOk kend (K + new.tables) (U + leafRefs new.leaf) old m
  child : SpaceOk kend (K + old.tables) (U + leafRefs old.leaf) new m

theorem PairOk.symm (h : PairOk kend K U old new m) : PairOk kend K U new old m :=
  ⟨h.child, h.parent⟩

theorem PairOk.move (h : PairOk kend K U old new m)
    (hst : SpaceMove kend (K + old.tables) (U + leafRefs old.leaf) new new' m') :
    PairOk kend K U old new' m' := by
  refine ⟨⟨?_, fun v hv hV hW => ?_, h.parent.nowc⟩, hst.ok⟩
  · have := hst.ok.acct
    rwa [add_right_comm K, add_right_comm U] at this
  · -- a writable page of the one is not mapped by the other, before and so after
    have h1 := h.parent.excl v hv hV hW
    have h2 := leafRefs_ne_zero hv hV
    simp only [Pi.add_apply] at h1 ⊢
    have h3 := hst.fresh (old.leaf v).frame (by simp only [Pi.add_apply]; omega) (by omega)
    omega

/-- The user part of the child: the parent's pages from `v` to `v + n` added. -/
def copyView (parent child : ℕ → Option UPage) (v n : ℕ) : ℕ → Option UPage :=
  fun w => if v ≤ w ∧ w < v + n then parent w else child w

theorem copyView_zero (s t : ℕ → Option UPage) (v : ℕ) : copyView s t v 0 = t :=
  funext fun w => if_neg (by omega)

theorem copyView_succ (s t : ℕ → Option UPage) (v n : ℕ) :
    copyView s (update t v (s v)) (v + 1) n = copyView s t v (n + 1) := by
  funext w
  simp only [copyView, update_apply]
  by_cases hw : w = v
  · rw [if_neg (by omega), if_pos hw, if_pos (by omega), hw]
  · rw [if_neg hw]
    exact if_congr (by omega) rfl rfl

/-- What a fork keeps, beside the good order of both spaces: the pages of others and their being
unshared with either space, the kernel's leaves, and what the parent sees. -/
structure ForkStep (kend : ℕ) (K U : ℕ → ℕ) (old new : PageTable) (m : Phys)
    (old' new' : PageTable) (m' : Phys) : Prop where
  ok : PairOk kend K U old' new' m'
  fresh : ∀ f, U f ≠ 0 → leafRefs old.leaf f = 0 → leafRefs new.leaf f = 0 →
    leafRefs old'.leaf f = 0 ∧ leafRefs new'.leaf f = 0
  keep : ∀ f, K f + U f ≠ 0 → m'.mem f = m.mem f
  upperOld : ∀ v, userPages ≤ v → old'.leaf v = old.leaf v
  upperNew : ∀ v, userPages ≤ v → new'.leaf v = new.leaf v
  view : userView m'.mem old'.leaf = userView m.mem old.leaf

theorem ForkStep.refl (h : PairOk kend K U old new m) : ForkStep kend K U old new m old new m :=
  ⟨h, fun _ _ h0 h1 => ⟨h0, h1⟩, fun _ _ => rfl, fun _ _ => rfl, fun _ _ => rfl, rfl⟩

theorem ForkStep.trans {old1 new1 : PageTable} {m1 : Phys}
    (h₁ : ForkStep kend K U old new m old1 new1 m1)
    (h2 : ForkStep kend K U old1 new1 m1 old' new' m') :
    ForkStep kend K U old new m old' new' m' :=
  ⟨h2.ok, fun f hf h0 h1 => (h₁.fresh f hf h0 h1).elim (h2.fresh f hf),
    fun f hf => (h2.keep f hf).trans (h₁.keep f hf),
    fun v hv => (h2.upperOld v hv).trans (h₁.upperOld v hv),
    fun v hv => (h2.upperNew v hv).trans (h₁.upperNew v hv), h2.view.trans h₁.view⟩

theorem ForkStep.of_child (h : PairOk kend K U old new m)
    (hst : SpaceStep kend (K + old.tables) (U + leafRefs old.leaf) new m new' m') :
    ForkStep kend K U old new m old new' m' := by
  refine ⟨h.move hst.toSpaceMove, fun f hf h0 h1 => ⟨h0, hst.fresh f ?_ h1⟩, fun f hf => ?_,
    fun _ _ => rfl, hst.upper, userView_congr fun v hv hV => hst.keep _ ?_⟩
  · simp only [Pi.add_apply]
    omega
  · exact hst.keep f (by simp only [Pi.add_apply]; omega)
  · have := leafRefs_ne_zero hv hV
    simp only [Pi.add_apply]
    omega

theorem ForkStep.of_parent (h : PairOk kend K U old new m)
    (hst : SpaceStep kend (K + new.tables) (U + leafRefs new.leaf) old m old' m')
    (hview : userView m'.mem old'.leaf = userView m.mem old.leaf) :
    ForkStep kend K U old new m old' new m' := by
  refine ⟨(h.symm.move hst.toSpaceMove).symm, fun f hf h0 h1 => ⟨hst.fresh f ?_ h0, h1⟩,
    fun f hf => ?_, hst.upper, fun _ _ => rfl, hview⟩
  · simp only [Pi.add_apply]
    omega
  · exact hst.keep f (by simp only [Pi.add_apply]; omega)

/-- The entry `uvmcopy` leaves in the parent, and the flags it gives the child. -/
def shared (p : Pte) : Pte := if p.has pteW then p.share else p

theorem getLsbD_shared (p : Pte) {i : ℕ} (h2 : i ≠ 2) (h5 : i ≠ 5) :
    (shared p).getLsbD i = p.getLsbD i := by
  rw [shared]
  split_ifs
  · rw [getLsbD_share]
    simp [h2.symm, h5.symm]
  · rfl

theorem shared_has_pteW (p : Pte) : (shared p).has pteW = false := by
  rw [shared]
  split_ifs with hW
  · rw [has_pteW, getLsbD_share]
    simp
  · simpa using hW

theorem shared_writable (p : Pte) :
    ((shared p).has pteW || (shared p).has pteC) = (p.has pteW || p.has pteC) := by
  rw [shared_has_pteW, shared]
  split_ifs with hW
  · rw [hW, has_pteC, getLsbD_share]
    simp
  · rw [Bool.not_eq_true] at hW
    rw [hW]

theorem view_shared (mem : ℕ → Page) (p : Pte) : (shared p).view mem = p.view mem := by
  have hf : (shared p).frame = p.frame :=
    frame_congr fun i hi => getLsbD_shared p (by omega) (by omega)
  rw [Pte.view, Pte.view, shared_writable, hf, has_pteV, has_pteR, has_pteX, has_pteU,
    getLsbD_shared p (by omega) (by omega), getLsbD_shared p (by omega) (by omega),
    getLsbD_shared p (by omega) (by omega), getLsbD_shared p (by omega) (by omega)]
  simp only [has_pteV, has_pteR, has_pteX, has_pteU]

theorem leaf_share {p : Pte} (hva : v * pgSize < maxVa) (hmap : old.mapped (v * pgSize) = true)
    (hp : old.leaf v = p) :
    (if p.has pteW then old.setPte (v * pgSize) p.share else old).leaf =
      update old.leaf v (shared p) := by
  rw [shared]
  split_ifs
  · exact leaf_setPte_mul hva hmap _
  · rw [← hp, update_eq_self]

theorem tables_share (old : PageTable) (v : ℕ) (p : Pte) :
    (if p.has pteW then old.setPte (v * pgSize) p.share else old).tables = old.tables := by
  split_ifs
  · exact tables_setPte _ _ _
  · rfl

section Mapping

variable (h : PairOk kend K U old new m) (hv : v < userPages)
  (hV : (old.leaf v).has pteV = true) (hW : (old.leaf v).has pteW = false)
  (hinv : (new.leaf v).has pteV = false) (hqV : q.has pteV = true) (hqW : q.has pteW = false)
  (hf : q.frame = (old.leaf v).frame) (hleaf : new'.leaf = update new.leaf v q)
  (hA : Acct kend m' (K + old.tables + new'.tables)
    (U + leafRefs old.leaf + leafRefs new.leaf + ref (old.leaf v).frame))

include hv hinv hqV hf hleaf

theorem leafRefs_map_shared : leafRefs new'.leaf = leafRefs new.leaf + ref (old.leaf v).frame := by
  have := leafRefs_update_add new.leaf hv q
  rwa [leafRef_of_not_valid hinv, add_zero, leafRef_of_valid hqV, hf, ← hleaf] at this

include h hV hW hqW hA

/-- Mapping into the child, without write permission, a page the parent maps without it. -/
theorem PairOk.map_shared : PairOk kend K U old new' m' := by
  have hrefs := leafRefs_map_shared hv hinv hqV hf hleaf
  have hold := leafRefs_ne_zero hv hV
  -- no writable leaf of either maps that page
  have hne : ∀ f, f = (old.leaf v).frame → (∃ w < userPages, (old.leaf w).has pteV = true ∧
      (old.leaf w).has pteW = true ∧ (old.leaf w).frame = f) → False := by
    rintro f rfl ⟨w, hw, hwV, hwW, hwf⟩
    have hwv : w ≠ v := by
      rintro rfl
      rw [hW] at hwW
      cases hwW
    have h1 := h.parent.excl w hw hwV hwW
    have h2 := two_le_leafRefs hv hw hwv hV hwV hwf
    rw [hwf] at h1
    simp only [Pi.add_apply] at h1
    omega
  have hne' : ∀ w < userPages, (new.leaf w).has pteV = true → (new.leaf w).has pteW = true →
      (new.leaf w).frame ≠ (old.leaf v).frame := by
    intro w hw hwV hwW hwf
    have h1 := h.child.excl w hw hwV hwW
    have h2 := leafRefs_ne_zero hw hwV
    rw [hwf] at h1 h2
    simp only [Pi.add_apply] at h1
    omega
  refine ⟨⟨?_, fun w hw hwV hwW => ?_, h.parent.nowc⟩,
    ⟨?_, fun w hw hwV hwW => ?_, fun w hwW => ?_⟩⟩
  · rw [hrefs, add_right_comm K, add_right_comm U, ← add_assoc]
    exact hA
  · have hfw : (old.leaf w).frame ≠ (old.leaf v).frame := fun he =>
      hne _ he ⟨w, hw, hwV, hwW, rfl⟩
    have h1 := h.parent.excl w hw hwV hwW
    rw [hrefs]
    simp only [Pi.add_apply, ref_of_ne hfw, add_zero] at h1 ⊢
    omega
  · rw [hrefs, ← add_assoc]
    exact hA
  · rw [hrefs]
    rw [hleaf, update_apply] at hwV hwW ⊢
    split_ifs at hwV hwW ⊢ with hwv
    · rw [hqW] at hwW
      cases hwW
    · have h1 := h.child.excl w hw hwV hwW
      have hfw := hne' w hw hwV hwW
      simp only [Pi.add_apply, ref_of_ne hfw, add_zero] at h1 ⊢
      omega
  · rw [hleaf, update_apply] at hwW ⊢
    split_ifs at hwW ⊢
    · rw [hqW] at hwW
      cases hwW
    · exact h.child.nowc w hwW

theorem ForkStep.map_shared
    (hmem : ∀ f, K f + U f + leafRefs old.leaf f + leafRefs new.leaf f ≠ 0 → m'.mem f = m.mem f) :
    ForkStep kend K U old new m old new' m' ∧
      userView m'.mem new'.leaf = update (userView m.mem new.leaf) v (q.view m'.mem) := by
  have hrefs := leafRefs_map_shared hv hinv hqV hf hleaf
  refine ⟨⟨h.map_shared hv hV hW hinv hqV hqW hf hleaf hA, fun f hU h0 h1 => ⟨h0, ?_⟩,
    fun f hU => hmem f (by omega), fun _ _ => rfl, fun w hw => ?_,
    userView_congr fun w hw hwV => ?_⟩,
    ?_⟩
  · have hne : f ≠ (old.leaf v).frame := by
      rintro rfl
      exact leafRefs_ne_zero hv hV h0
    rw [hrefs, Pi.add_apply, h1, ref_of_ne hne]
  · rw [hleaf, update_of_ne (by omega)]
  · have := leafRefs_ne_zero hw hwV
    exact hmem _ (by omega)
  · rw [hleaf, userView_update hv]
    refine congrArg (update · v _) (userView_congr fun w hw hwV => hmem _ ?_)
    have := leafRefs_ne_zero hw hwV
    omega

end Mapping

theorem getLsbD_childFlags (p : Pte) {i : ℕ} (hi : i < 10) :
    (if p.has pteW then (pteFlags p).share else pteFlags p).getLsbD i = (shared p).getLsbD i := by
  rw [shared]
  split_ifs
  · rw [getLsbD_share, getLsbD_share, getLsbD_pteFlags]
    simp [hi]
  · rw [getLsbD_pteFlags]
    simp [hi]

theorem Pte.view_eq_of_bits {mem : ℕ → Page} {p : Pte} (h : ∀ i < 10, p.getLsbD i = q.getLsbD i)
    (hf : p.frame = q.frame) :
    p.view mem = q.view mem := by
  rw [Pte.view, Pte.view, hf]
  simp only [has_pteV, has_pteR, has_pteW, has_pteX, has_pteU, has_pteC]
  rw [h 0 (by omega), h 1 (by omega), h 2 (by omega), h 3 (by omega), h 4 (by omega),
    h 5 (by omega)]

/-- How far a fork has come at the page `v`: the parent has its `k` pages, and the child the first
`v` of them, in the parent's frames. -/
structure Copied (old new : PageTable) (v k : ℕ) : Prop where
  parent : old.Shaped k
  child : new.Shaped v
  same : ∀ w < v, (new.leaf w).frame = (old.leaf w).frame

theorem Copied.leafRefs_eq_zero (h : Copied old new v k) (hv : v < k) (hk : k ≤ userPages) :
    leafRefs new.leaf (old.leaf v).frame = 0 := by
  by_contra hne
  obtain ⟨w, hw, hV, hf⟩ := exists_of_leafRefs_ne_zero hne
  have hwv : w < v := by
    by_contra hge
    rw [h.child.unused w (by omega) hw] at hV
    cases hV
  rw [h.same w hwv] at hf
  have := h.parent.eq_of_frame_eq hk hv (hwv.trans hv) hf
  omega

/-- The parent's entry loses its write permission, and the fork is where it was. -/
theorem Copied.relabel (h : Copied old new v k) (hV : q.has pteV = (old.leaf v).has pteV)
    (hR : q.has pteR = (old.leaf v).has pteR) (hf : q.frame = (old.leaf v).frame)
    (hleaf : old'.leaf = update old.leaf v q) (hlow : old.LowerHalf → old'.LowerHalf) :
    Copied old' new v k := by
  refine ⟨h.parent.relabel hV hR hf hleaf hlow, h.child, fun w hw => ?_⟩
  rw [hleaf, update_of_ne hw.ne]
  exact h.same w hw

theorem Copied.map (h : Copied old new v k) (hv : v < k) (hk : k ≤ userPages) (hq : q.IsLeaf)
    (hf : q.frame = (old.leaf v).frame) (hleaf : new'.leaf = update new.leaf v q)
    (hlow : new.LowerHalf → new'.LowerHalf) :
    Copied old new' (v + 1) k := by
  have hfree : leafRefs new.leaf q.frame = 0 := hf ▸ h.leafRefs_eq_zero hv hk
  refine ⟨h.parent, h.child.map (hv.trans_le hk) hq hfree hleaf hlow, fun w hw => ?_⟩
  rw [hleaf, update_apply]
  split_ifs with hwv
  · rw [hwv, hf]
  · exact h.same w (by omega)

/-- The loop of `uvmcopy`: the pages it reached are shared, with nobody seeing a change; on
failure it stops at a page of the range. -/
theorem uvmcopyLoop_spec (hk : k ≤ userPages) (n : ℕ) :
    ∀ {v : ℕ} {old new : PageTable} {m : Phys}, v + n = k →
      Copied old new v k ∨ Panic.RefSafe ≤ E → PairOk kend K U old new m →
      Ensures (uvmcopyLoop n (v * pgSize) old new m) E fun r =>
        ForkStep kend K U old new m r.2.1 r.2.2.1 r.2.2.2 ∧
        match r.1 with
        | none => (Copied old new v k → Copied r.2.1 r.2.2.1 k k) ∧
          userView r.2.2.2.mem r.2.2.1.leaf =
            copyView (userView m.mem old.leaf) (userView m.mem new.leaf) v n
        | some i => ∃ w < userPages, i = w * pgSize ∧
          (Copied old new v k → Copied r.2.1 r.2.2.1 w k) := by
  induction n with
  | zero =>
    rintro v old new m rfl _ h
    exact ⟨ForkStep.refl h, id, (copyView_zero _ _ _).symm⟩
  | succ n ih =>
    intro v old new m hvn hE h
    have hv : v < userPages := by omega
    have hva := mul_lt_maxVa hv
    rw [uvmcopyLoop, walk_false old hva]
    simp only [bind, Except.bind, old.pte_mul hva]
    by_cases hmap : old.mapped (v * pgSize) = false
    · rw [if_pos hmap]
      rcases hE with hc | hE
      · rw [mapped_of_isLeaf hva (hc.parent.user v (by omega))] at hmap
        cases hmap
      · exact hE _ (by simp [Panic.RefSafe])
    by_cases hV : (old.leaf v).has pteV = false
    · rw [if_neg hmap, if_pos hV]
      rcases hE with hc | hE
      · rw [(hc.parent.user v (by omega)).1] at hV
        cases hV
      · exact hE _ (by simp [Panic.RefSafe])
    rw [if_neg hmap, if_neg hV]
    rw [Bool.not_eq_false] at hmap hV
    -- the parent's entry becomes read only
    generalize hp : old.leaf v = p at hV ⊢
    generalize hfl : (if p.has pteW then (pteFlags p).share else pteFlags p) = fl
    generalize hold : (if p.has pteW then old.setPte (v * pgSize) p.share else old) = old1
    have hleaf1 : old1.leaf = update old.leaf v (shared p) := hold ▸ leaf_share hva hmap hp
    have htab1 : old1.tables = old.tables := hold ▸ tables_share old v p
    have hlow1 : old.LowerHalf → old1.LowerHalf := by
      rw [← hold]
      split_ifs
      · exact fun hl => hl.setPte hva _
      · exact id
    have hflags : IsFlags fl := by
      rw [← hfl]
      split_ifs
      · exact (isFlags_pteFlags p).share
      · exact isFlags_pteFlags p
    have hpV : (shared p).has pteV = p.has pteV := by
      rw [has_pteV, has_pteV, getLsbD_shared p (by omega) (by omega)]
    have hpR : (shared p).has pteR = p.has pteR := by
      rw [has_pteR, has_pteR, getLsbD_shared p (by omega) (by omega)]
    have hpf : (shared p).frame = p.frame :=
      frame_congr fun i hi => getLsbD_shared p (by omega) (by omega)
    have hcopied1 : Copied old new v k → Copied old1 new v k := fun hc =>
      hc.relabel (hp ▸ hpV) (hp ▸ hpR) (hp ▸ hpf) hleaf1 hlow1
    have hst1 : ForkStep kend K U old new m old1 new m := by
      refine ForkStep.of_parent h (h.parent.relabel hv (hp ▸ hpV) (hp ▸ hpf) (fun hW => ?_) hleaf1
        htab1) ?_
      · rw [shared_has_pteW] at hW
        cases hW
      · rw [hleaf1, userView_update hv, view_shared, ← hp, ← userView_of_lt hv, update_eq_self]
    have hat : old1.leaf v = shared p := by rw [hleaf1, update_self]
    have hV1 : (old1.leaf v).has pteV = true := by rw [hat, hpV, hV]
    rw [pte2pa_eq]
    have hE' : (v < maxVa / pgSize ∧ (new.leaf v).has pteV = false) ∨ Panic.RefSafe ≤ E :=
      hE.imp_left fun hc => ⟨hv.trans (by decide), hc.child.unused v le_rfl hv⟩
    refine (mappages_spec hE' hst1.ok.child.acct).bind ?_
    rintro ⟨r, new2, m2⟩ ⟨hA2, hmem2, hlow2, hl2⟩
    cases r with
    | false =>
      obtain ⟨hst2, -⟩ := hst1.ok.child.same_leaf hl2 hA2 fun f hf =>
        hmem2 f (by simp only [Pi.add_apply] at hf ⊢; omega)
      refine ⟨hst1.trans (ForkStep.of_child hst1.ok hst2), v, hv, rfl, fun hc => ?_⟩
      have hc1 := hcopied1 hc
      refine ⟨hc1.parent, hc1.child.congr hl2 hlow2, fun w hw => ?_⟩
      rw [show new2.leaf = new.leaf from hl2]
      exact hc1.same w hw
    | true =>
      obtain ⟨hinv, hl2⟩ : (new.leaf v).has pteV = false ∧ _ := hl2
      simp only [Bool.true_eq_false, if_false]
      have hused : (U + leafRefs old1.leaf + leafRefs new.leaf) p.frame ≠ 0 := by
        have := leafRefs_ne_zero hv hV1
        rw [hat, hpf] at this
        simp only [Pi.add_apply]
        omega
      refine (hA2.incpgrc_spec hused).bind ?_
      rintro m3 ⟨hA3, hmem3⟩
      have hbit : ∀ i < 10, (pa2pte (p.frame * pgSize) ||| fl ||| pteV).getLsbD i =
          (shared p).getLsbD i := by
        intro i hi
        rw [getLsbD_mapEntry _ _ hi, ← hfl, getLsbD_childFlags p hi]
        rcases Nat.eq_zero_or_pos i with rfl | hpos
        · rw [← has_pteV, hpV, hV]
          rfl
        · simp [show ¬ 0 = i by omega]
      have hqf := frame_mapEntry (frame_lt p) hflags
      have hkeep : ∀ f, K f + U f + leafRefs old1.leaf f + leafRefs new.leaf f ≠ 0 →
          m3.mem f = m.mem f := fun f hf => by
        rw [hmem3]
        exact hmem2 f (by simp only [Pi.add_apply]; omega)
      have hqV : (pa2pte (p.frame * pgSize) ||| fl ||| pteV).has pteV = true := by
        rw [has_pteV, hbit 0 (by omega), ← has_pteV, hpV, hV]
      have hcopied2 : Copied old new v k → Copied old1 new2 (v + 1) k := fun hc => by
        have hR := (hc.parent.user v (by omega)).2
        rw [hp, ← hpR] at hR
        refine (hcopied1 hc).map (by omega) hk ⟨hqV, ?_⟩ (by rw [hqf, hat, hpf]) hl2 hlow2
        rw [has_pteR, hbit 1 (by omega), ← has_pteR, hR]
      obtain ⟨hst3, hview3⟩ := ForkStep.map_shared (q := pa2pte (p.frame * pgSize) ||| fl ||| pteV)
        hst1.ok hv hV1 (by rw [hat, shared_has_pteW]) hinv hqV
        (by rw [has_pteW, hbit 2 (by omega), ← has_pteW, shared_has_pteW])
        (by rw [hqf, hat, hpf]) hl2 (by rw [hat, hpf]; exact hA3) hkeep
      -- the child sees the parent's page
      have hpage : (pa2pte (p.frame * pgSize) ||| fl ||| pteV).view m3.mem =
          userView m.mem old.leaf v := by
        rw [Pte.view_eq_of_bits hbit (hqf.trans hpf.symm), view_shared, userView_of_lt hv, hp]
        refine Pte.view_congr fun _ => hkeep _ ?_
        simp only [Pi.add_apply] at hused
        omega
      have hst := hst1.trans hst3
      have hnext : v * pgSize + pgSize = (v + 1) * pgSize := (Nat.succ_mul v pgSize).symm
      rw [hnext]
      refine (ih (by omega) (hE.imp_left hcopied2) hst.ok).mono ?_
      rintro ⟨err, old4, new4, m4⟩ ⟨hst4, herr⟩
      refine ⟨hst.trans hst4, ?_⟩
      cases err with
      | some i =>
        obtain ⟨w, hw, hi, hc⟩ := herr
        exact ⟨w, hw, hi, hc ∘ hcopied2⟩
      | none =>
        dsimp only at herr ⊢
        refine ⟨herr.1 ∘ hcopied2, ?_⟩
        rw [herr.2, hst.view, hview3, hpage, copyView_succ]

/-- **`uvmcopy`**: after a fork the child sees, below the parent's size, what the parent sees, and
the parent and everybody else what they saw. A failure leaves the child without the pages. -/
theorem uvmcopy_spec {sz : ℕ} (hsz : sz ≤ trapframeVa)
    (hE : (old.Shaped (npages sz) ∧ new.Shaped 0) ∨ Panic.RefSafe ≤ E)
    (h : PairOk kend K U old new m) :
    Ensures (uvmcopy kend old new sz m) E fun r =>
      ForkStep kend K U old new m r.2.1 r.2.2.1 r.2.2.2 ∧
      (old.Shaped (npages sz) → new.Shaped 0 →
        r.2.1.Shaped (npages sz) ∧ r.2.2.1.Shaped (if r.1 then npages sz else 0)) ∧
      (r.1 = true → userView r.2.2.2.mem r.2.2.1.leaf =
        copyView (userView m.mem old.leaf) (userView m.mem new.leaf) 0 (npages sz)) := by
  have hstart : old.Shaped (npages sz) → new.Shaped 0 → Copied old new 0 (npages sz) :=
    fun hp hc => ⟨hp, hc, fun w hw => absurd hw (Nat.not_lt_zero w)⟩
  have hloop := uvmcopyLoop_spec (v := 0) (npages_le hsz) (npages sz) (Nat.zero_add _)
    (hE.imp_left fun hs => hstart hs.1 hs.2) h
  rw [Nat.zero_mul] at hloop
  rw [uvmcopy]
  refine hloop.bind ?_
  rintro ⟨_ | i, old1, new1, m1⟩ ⟨hst, hr⟩
  · refine ⟨hst, fun hp hc => ?_, fun _ => hr.2⟩
    exact ⟨(hr.1 (hstart hp hc)).parent, (hr.1 (hstart hp hc)).child⟩
  · obtain ⟨w, hw, rfl, hc⟩ := hr
    dsimp only at hst hc ⊢
    rw [Nat.mul_div_cancel _ (by decide)]
    have hun := uvmunmap_free_spec (v := 0) (n := w) (E := E) (by omega)
      (hE.imp_left fun hs => by simpa using (hc (hstart hs.1 hs.2)).child) hst.ok.child
    rw [Nat.zero_mul, Nat.zero_add] at hun
    refine hun.bind ?_
    rintro ⟨new2, m2⟩ ⟨hst2, hshape2, -⟩
    refine ⟨hst.trans (ForkStep.of_child hst.ok hst2), fun hp hc' => ?_, fun hc => by cases hc⟩
    exact ⟨(hc (hstart hp hc')).parent, hshape2 (hc (hstart hp hc')).child⟩

end Pair

section Cow

variable {kend : ℕ} {E : Panic → Prop} {K U : ℕ → ℕ} {pt pt' : PageTable} {m m' : Phys}

theorem SpaceOk.remap_fresh {v g : ℕ} {q : Pte} (h : SpaceOk kend K U pt m) (hv : v < userPages)
    (hV : (pt.leaf v).has pteV = true) (hg : (K + pt.tables) g = 0 ∧ (U + leafRefs pt.leaf) g = 0)
    (hqV : q.has pteV = true) (hqC : q.has pteC = false) (hf : q.frame = g)
    (hleaf : pt'.leaf = update pt.leaf v q)
    (hA : Acct kend m' (K + pt'.tables) (U + leafRefs pt'.leaf))
    (hmem : ∀ f, f ≠ g → K f + (U + leafRefs pt'.leaf) f ≠ 0 → m'.mem f = m.mem f)
    (hview : q.view m'.mem = (pt.leaf v).view m.mem) :
    SpaceStep kend K U pt m pt' m' ∧ userView m'.mem pt'.leaf = userView m.mem pt.leaf := by
  have hrefs : ∀ f, leafRefs pt'.leaf f + ref (pt.leaf v).frame f =
      leafRefs pt.leaf f + ref g f := by
    intro f
    have := congrFun (leafRefs_update_add pt.leaf hv q) f
    rwa [leafRef_of_valid hV, leafRef_of_valid hqV, hf, ← hleaf] at this
  have hne : ∀ w < userPages, (pt.leaf w).has pteV = true → (pt.leaf w).frame ≠ g := by
    rintro w hw hwV rfl
    have := leafRefs_ne_zero hw hwV
    have := hg.2
    simp only [Pi.add_apply] at this
    omega
  refine ⟨⟨⟨⟨hA, fun w hw hwV hwW => ?_, fun w hwW => ?_⟩, fun f hU h0 => ?_, fun w hw => ?_⟩,
    fun f hf0 => ?_⟩, ?_⟩
  · rw [hleaf, update_apply] at hwV hwW ⊢
    split_ifs at hwV hwW ⊢ with hwv
    · have h1 := hrefs g
      have h2 := hg.2
      rw [ref_self, ref_of_ne (hne v hv hV).symm, add_zero] at h1
      rw [hf, ← hleaf]
      simp only [Pi.add_apply] at h2 ⊢
      omega
    · -- another writable page is neither the old one nor the new
      have h1 := h.excl w hw hwV hwW
      have hfv : (pt.leaf w).frame ≠ (pt.leaf v).frame := fun he => by
        have h2 := two_le_leafRefs hv hw hwv hV hwV he
        rw [he] at h1
        simp only [Pi.add_apply] at h1
        omega
      have h2 := hrefs (pt.leaf w).frame
      rw [ref_of_ne (hne w hw hwV), ref_of_ne hfv, add_zero, add_zero] at h2
      rwa [← hleaf, Pi.add_apply, h2, ← Pi.add_apply]
  · rw [hleaf, update_apply] at hwW ⊢
    split_ifs at hwW ⊢
    · exact hqC
    · exact h.nowc w hwW
  · have hfg : f ≠ g := by
      rintro rfl
      have := hg.2
      simp only [Pi.add_apply] at this
      omega
    have := hrefs f
    rw [ref_of_ne hfg, h0] at this
    omega
  · rw [hleaf, update_of_ne (by omega)]
  · refine hmem f ?_ (by simp only [Pi.add_apply]; omega)
    rintro rfl
    obtain ⟨h1, h2⟩ := hg
    simp only [Pi.add_apply] at h1 h2
    omega
  · rw [hleaf, userView_update hv]
    funext w
    rw [update_apply]
    split_ifs with hwv
    · rw [hwv, hview, userView_of_lt hv]
    · rw [userView, userView]
      split_ifs with hw
      · refine Pte.view_congr fun hwV => hmem _ (hne w hw hwV) ?_
        have hw' : pt'.leaf w = pt.leaf w := by rw [hleaf, update_of_ne hwv]
        have := leafRefs_ne_zero hw (hw' ▸ hwV : (pt'.leaf w).has pteV = true)
        rw [hw'] at this
        simp only [Pi.add_apply]
        omega
      · rfl

/-- **The copy-on-write branch**: the process gets a writable page of its own, with the bytes and
the other permissions of the shared one, and nobody sees a change. -/
theorem cowCopy_spec {va : ℕ} (hva : va < trapframeVa) (h : SpaceOk kend K U pt m)
    (hV : (pt.pte va).has pteV = true) (hC : (pt.pte va).has pteC = true) :
    Ensures (cowCopy kend pt va m) E fun r =>
      match r with
      | none => m.freelist = []
      | some (pt', m') => SpaceStep kend K U pt m pt' m' ∧ (∀ n, pt.Shaped n → pt'.Shaped n) ∧
        userView m'.mem pt'.leaf = userView m.mem pt.leaf ∧
        ∃ q, pt'.leaf = update pt.leaf (va / pgSize) q ∧
          ∀ i < 10, q.getLsbD i = (pt.pte va).unshare.getLsbD i := by
  have hmax := lt_maxVa hva
  have hv := div_lt_userPages.mpr hva
  have hp := leaf_page pt hmax
  rw [cowCopy]
  refine h.acct.kalloc_spec.bind ?_
  rintro ⟨page, m1⟩ (⟨hr, hfl⟩ | ⟨g, rfl, hK, hU, -, hA, hmem1⟩)
  · cases hr
    exact hfl
  generalize hq : pa2pte (g * pgSize) ||| (pteFlags (pt.pte va)).unshare = q
  have hbit : ∀ i < 10, q.getLsbD i = (pt.pte va).unshare.getLsbD i := by
    intro i hi
    rw [← hq, getLsbD_pa2pte_or _ _ hi, getLsbD_unshare, getLsbD_unshare, getLsbD_pteFlags]
    simp [hi]
  have hqf : q.frame = g := by
    rw [← hq]
    exact frame_pa2pte_or (hA.frame_lt (by simp)) (isFlags_pteFlags _).unshare
  have hleaf : (pt.setPte va q).leaf = update pt.leaf (va / pgSize) q :=
    leaf_setPte hmax (mapped_of_has hV) q
  have hqV : q.has pteV = true := by
    rw [has_pteV, hbit 0 (by omega), getLsbD_unshare, ← has_pteV, hV]
    rfl
  have hqC : q.has pteC = false := by
    rw [has_pteC, hbit 5 (by omega), getLsbD_unshare]
    simp
  -- the references: one to the new page for one to the old
  have hrefs : leafRefs pt.leaf + ref g =
      leafRefs (pt.setPte va q).leaf + ref (pt.pte va).frame := by
    have := leafRefs_update_add pt.leaf hv q
    rwa [hp, leafRef_of_valid hV, leafRef_of_valid hqV, hqf, ← hleaf, eq_comm] at this
  have hfg : (pt.pte va).frame ≠ g := by
    rintro rfl
    have := leafRefs_ne_zero hv (hp ▸ hV : (pt.leaf (va / pgSize)).has pteV = true)
    rw [hp] at this
    simp only [Pi.add_apply] at hU
    omega
  have hA' : Acct kend (m1.copyPage g (pt.pte va).frame) (K + (pt.setPte va q).tables)
      (U + leafRefs (pt.setPte va q).leaf + ref (pt.pte va).frame) := by
    rw [tables_setPte, add_assoc U, ← hrefs, ← add_assoc]
    exact hA.congr rfl rfl
  simp only [pte2pa_eq, Nat.mul_div_cancel _ (show 0 < pgSize by decide), hq]
  refine hA'.kfree_user.bind ?_
  rintro m3 ⟨hA3, hmem3⟩
  have hmem : ∀ f, f ≠ g → K f + (U + leafRefs (pt.setPte va q).leaf) f ≠ 0 →
      m3.mem f = m.mem f := by
    intro f hne hf
    rw [hmem3 f fun he h0 => ?_]
    · change update m1.mem g (m1.mem (pt.pte va).frame) f = _
      rw [update_of_ne hne, hmem1, update_of_ne hne]
    · -- the old page was a user page, not one of the kernel's
      have hsep := hA'.sep f (by rw [he]; simp)
      rw [← he] at h0
      simp only [Pi.add_apply] at hf hsep h0
      omega
  have hview : q.view m3.mem = (pt.leaf (va / pgSize)).view m.mem := by
    have hbytes : m3.mem g = m.mem (pt.pte va).frame := by
      rw [hmem3 g fun he => absurd he.symm hfg]
      change update m1.mem g (m1.mem (pt.pte va).frame) g = _
      rw [update_self, hmem1, update_of_ne hfg]
    rw [Pte.view, Pte.view, hp, hqf, hbytes, hqV, hqC, hC, hV]
    simp only [has_pteR, has_pteW, has_pteX, has_pteU]
    rw [hbit 1 (by omega), hbit 2 (by omega), hbit 3 (by omega), hbit 4 (by omega),
      getLsbD_unshare, getLsbD_unshare, getLsbD_unshare, getLsbD_unshare]
    simp
  obtain ⟨hst, hsame⟩ := h.remap_fresh hv (hp ▸ hV) ⟨hK, hU⟩ hqV hqC hqf hleaf hA3 hmem hview
  refine ⟨hst, fun n hs => ?_, hsame, q, hleaf, hbit⟩
  have hqR : q.has pteR = (pt.leaf (va / pgSize)).has pteR := by
    rw [has_pteR, hbit 1 (by omega), getLsbD_unshare, has_pteR, hp]
    simp
  exact hs.remap hv (hp ▸ hV) hqV hqR (hqf.symm ▸ (Nat.add_eq_zero_iff.mp hU).2) hleaf
    fun hl => hl.setPte hmax _

/-- **The fault handler** changes nothing anybody sees; unless it kills the process, the page is
writable afterwards. -/
theorem usertrapFault_spec {sp va : ℕ} (h : SpaceOk kend K U pt m) (htop : KernelTop pt) :
    Ensures (usertrapFault kend sp va pt m) E fun r =>
      SpaceStep kend K U pt m r.2.1 r.2.2 ∧ (∀ n, pt.Shaped n → r.2.1.Shaped n) ∧
      userView r.2.2.mem r.2.1.leaf = userView m.mem pt.leaf ∧
      (r.1 = false → va < trapframeVa ∧ (r.2.1.leaf (va / pgSize)).has pteV = true ∧
        (r.2.1.leaf (va / pgSize)).has pteU = true ∧
        (r.2.1.leaf (va / pgSize)).has pteW = true) := by
  -- every way to kill leaves the space alone
  have hkill : ∀ b : Bool, b = true → SpaceStep kend K U pt m pt m ∧
      (∀ n, pt.Shaped n → pt.Shaped n) ∧ userView m.mem pt.leaf = userView m.mem pt.leaf ∧
      (b = false → va < trapframeVa ∧ (pt.leaf (va / pgSize)).has pteV = true ∧
        (pt.leaf (va / pgSize)).has pteU = true ∧ (pt.leaf (va / pgSize)).has pteW = true) :=
    fun b hb => ⟨SpaceStep.refl h, fun _ => id, rfl, fun hc => by rw [hb] at hc; cases hc⟩
  rw [usertrapFault]
  split_ifs with hbad
  · exact hkill true rfl
  have hmax : pgRoundDown va < maxVa := by
    simp only [pgRoundDown, pgSize, maxVa] at hbad ⊢
    omega
  have hdiv := pgRoundDown_div va
  simp only [walk_false pt hmax, bind, Except.bind]
  split_ifs with hm hV hU hC
  · exact hkill true rfl
  · exact hkill true rfl
  · exact hkill true rfl
  · rw [Bool.not_eq_false] at hV hU
    have hlt : va / pgSize < userPages := by
      by_contra hge
      have := htop.noUser (va / pgSize) (by omega)
      rw [← hdiv, leaf_page pt hmax, hU] at this
      cases this
    refine (cowCopy_spec (pgRoundDown_lt hlt) h hV hC).bind ?_
    rintro (_ | ⟨pt', m'⟩) hr
    · exact hkill true rfl
    · obtain ⟨hst, hshape, hview, q, hleaf, hbit⟩ := hr
      refine ⟨hst, hshape, hview, fun _ => ?_⟩
      rw [hleaf, hdiv, update_self, has_pteV, has_pteU, has_pteW, hbit 0 (by omega),
        hbit 2 (by omega), hbit 4 (by omega), getLsbD_unshare, getLsbD_unshare, getLsbD_unshare,
        ← has_pteV, ← has_pteU, hV, hU]
      exact ⟨div_lt_userPages.mp hlt, rfl, rfl, by simp⟩
  · exact hkill true rfl

end Cow

end Xv6
