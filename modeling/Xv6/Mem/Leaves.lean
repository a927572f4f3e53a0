import Xv6.Mem.Share

/-!
# Which entries change

The reference counts say how often a frame is mapped, and the view of a space what its user sees;
neither says which entry maps which frame. The results here do. They hold whatever the counts are,
since a leaf entry is changed only by a store through a walked pointer: `mappages` stores a new
entry, `uvmunmap` a zero, `uvmcopy` takes the write permission, and `walk` stores none at all.
-/

namespace Xv6

open Function PageTable

variable {pt : PageTable} {m : Phys} {xperm : Pte} {kend newsz o va : ℕ} {h h' : ℕ → Pte}

theorem PageTable.walk_leaves {alloc : Bool} :
    Ensures (pt.walk va alloc m) (fun _ => True) fun r =>
      r.2.1.leaf = pt.leaf ∧ va < maxVa ∧ (r.1 = true → r.2.1.mapped va = true) ∧
        ∀ f, pt.tables f ≤ r.2.1.tables f := by
  rw [walk]
  split_ifs with hva
  · trivial
  · refine (Table.walk_leaves 2).bind ?_
    rintro ⟨r, tab, m'⟩ ⟨hpte, hmap, hpages⟩
    refine ⟨?_, Nat.not_le.mp hva, hmap, fun f => Nat.add_le_add_left (hpages f) _⟩
    funext v
    simp only [leaf, pte]
    rw [hpte]

theorem mappages_leaves {v pa : ℕ} {perm : Pte} :
    Ensures (mappages pt (v * pgSize) pgSize pa perm m) (fun _ => True) fun r =>
      (∀ f, pt.tables f ≤ r.2.1.tables f) ∧ if r.1 = true then (pt.leaf v).has pteV = false ∧
        r.2.1.leaf = update pt.leaf v (pa2pte pa ||| perm ||| pteV)
      else r.2.1.leaf = pt.leaf := by
  rw [mappages_page, mappagesLoop]
  refine walk_leaves.bind ?_
  rintro ⟨r, pt', m'⟩ ⟨hleaf, hva, hmap, htab⟩
  cases r with
  | false => exact ⟨htab, hleaf⟩
  | true =>
    dsimp only
    rw [if_pos rfl, pt'.pte_mul hva, hleaf, if_pos rfl]
    split_ifs with hV
    · trivial
    · rw [Ensures.pure_iff, if_pos rfl, tables_setPte]
      exact ⟨htab, by simpa using hV, by rw [leaf_setPte_mul hva (hmap rfl), hleaf]⟩

/-- `uvmunmap` stores zeros over valid entries, and leaves the page-table pages where they are. -/
theorem uvmunmapLoop_leaves {doFree : Bool} (n : ℕ) :
    ∀ {v : ℕ} {pt : PageTable} {m : Phys},
      Ensures (uvmunmapLoop kend doFree n (v * pgSize) pt m) (fun _ => True) fun r =>
        r.1.leaf = clearRange pt.leaf v n ∧ (∀ f, pt.tables f ≤ r.1.tables f) ∧
          ∀ i < n, (pt.leaf (v + i)).has pteV = true := by
  induction n with
  | zero =>
    intro v pt m
    exact ⟨(clearRange_zero _ _).symm, fun _ => le_rfl, fun i hi => by omega⟩
  | succ n ih =>
    intro v pt m
    by_cases hva : v * pgSize < maxVa
    swap
    · rw [uvmunmapLoop, walk_of_maxVa_le pt (Nat.not_lt.mp hva)]
      trivial
    refine uvmunmapLoop_step hva (.inr fun _ _ => trivial) fun hV hset => ?_
    refine (Ensures.any _).bind fun m2 _ => ih.mono ?_
    rintro r ⟨hr, htab, hvalid⟩
    rw [tables_setPte] at htab
    refine ⟨by rw [hr, hset, clearRange_succ], htab, fun i hi => ?_⟩
    cases i with
    | zero => exact hV
    | succ i =>
      have := hvalid i (by omega)
      rwa [hset, update_of_ne (by omega), Nat.add_right_comm] at this

theorem uvmdealloc_leaves {v : ℕ} (hov : o ≤ v) (hv : v ≤ userPages) :
    Ensures (uvmdealloc kend pt (v * pgSize) (o * pgSize) m) (fun _ => True) fun r =>
      r.2.1.leaf = clearRange pt.leaf o (v - o) := by
  have hunmap : Ensures (uvmunmap kend pt (o * pgSize) (v - o) true m) (fun _ => True) fun r =>
      r.1.leaf = clearRange pt.leaf o (v - o) := by
    rw [uvmunmap, Nat.mul_mod_left, if_neg (by simp)]
    exact (uvmunmapLoop_leaves _).mono fun _ hr => hr.1
  rw [uvmdealloc, pgRoundUp_eq (mul_le_trapframeVa hv),
    pgRoundUp_eq (mul_le_trapframeVa (hov.trans hv)), npages_mul,
    npages_mul, ← Nat.mul_sub_right_distrib, Nat.mul_div_cancel _ (by decide)]
  split_ifs with hle hlt
  · have : v - o = 0 := by
      have := Nat.le_of_mul_le_mul_right hle (by decide)
      omega
    rw [this, clearRange_zero]
    exact rfl
  · exact hunmap.bind fun r hr => hr
  · exact absurd (Nat.mul_lt_mul_of_pos_right
      (lt_of_not_ge fun h => hle (Nat.mul_le_mul_right _ h)) (by decide)) hlt

theorem uvmclear_leaves :
    Ensures (uvmclear pt va m) (fun _ => True) fun pt' =>
      pt'.leaf = update pt.leaf (va / pgSize) (pt.leaf (va / pgSize) &&& ~~~pteU) := by
  rw [uvmclear]
  refine walk_leaves.bind ?_
  rintro ⟨r, pt1, m1⟩ ⟨hleaf, hva, hmap, -⟩
  dsimp only at hleaf hmap ⊢
  split_ifs with h0
  · trivial
  · rw [Ensures.pure_iff, leaf_setPte hva (hmap (by simpa using h0)),
      ← leaf_page pt1 hva, hleaf]

/-! ## Growing -/

def NoCow (h : ℕ → Pte) : Prop := ∀ v < userPages, (h v).has pteV = true → (h v).has pteC = false

theorem NoCow.clearRange (hn : NoCow h) (o n : ℕ) : NoCow (clearRange h o n) := by
  intro v hv hV
  rw [Xv6.clearRange] at hV ⊢
  split_ifs at hV ⊢
  · exact has_zero _
  · exact hn v hv hV

theorem NoCow.update (hn : NoCow h) (v : ℕ) {q : Pte} (hq : q.has pteC = false) :
    NoCow (update h v q) := by
  intro w hw hV
  by_cases hwv : w = v
  · rw [hwv, update_self]
    exact hq
  · rw [update_of_ne hwv] at hV ⊢
    exact hn w hw hV

theorem mapEntry_nocow (pa : ℕ) (hx : AllocPerm xperm) :
    (pa2pte pa ||| (pteR ||| pteU ||| xperm) ||| pteV).has pteC = false := by
  have hC : xperm.getLsbD 5 = false := by
    rw [← has_pteC]
    exact hx.2
  rw [has_pteC, getLsbD_mapEntry _ _ (by omega), BitVec.getLsbD_or, BitVec.getLsbD_or, getLsbD_pteR,
    getLsbD_pteU, hC]
  rfl

/-- The loop of `uvmalloc` at the page `v`, having made the pages from `o` on: what holds of the
entries, and a new one keeps, holds at the end, or of those that are removed at a failure. The page
of the trapframe is mapped. -/
theorem uvmallocLoop_leaves {I : ℕ → (ℕ → Pte) → Prop}
    (htop : ∀ v h, I v h → (h userPages).has pteV = true)
    (hstep : ∀ v h pa, o ≤ v → v < userPages → I v h → (h v).has pteV = false →
      I (v + 1) (update h v (pa2pte pa ||| (pteR ||| pteU ||| xperm) ||| pteV))) (n : ℕ) :
    ∀ {v : ℕ} {pt : PageTable} {m : Phys}, o ≤ v → v ≤ userPages → I v pt.leaf →
      Ensures (uvmallocLoop kend (o * pgSize) newsz xperm n (v * pgSize) pt m) (fun _ => True)
        fun r => ∃ v h, I v h ∧ (r.1 = newsz ∧ r.2.1.leaf = h ∨
          r.1 = 0 ∧ r.2.1.leaf = clearRange h o (v - o)) := by
  induction n with
  | zero =>
    intro v pt m _ _ hI
    exact ⟨v, pt.leaf, hI, .inl ⟨rfl, rfl⟩⟩
  | succ n ih =>
    intro v pt m hov hv hI
    have hundo : ∀ {pt' : PageTable} {m' : Phys}, pt'.leaf = pt.leaf → Ensures
        (uvmdealloc kend pt' (v * pgSize) (o * pgSize) m' >>= fun r => pure (0, r.2))
        (fun _ => True) fun r : ℕ × PageTable × Phys => ∃ v h, I v h ∧
          (r.1 = newsz ∧ r.2.1.leaf = h ∨ r.1 = 0 ∧ r.2.1.leaf = clearRange h o (v - o)) := by
      intro pt' m' hleaf
      refine (uvmdealloc_leaves hov hv).bind ?_
      rintro ⟨sz, pt2, m2⟩ hr
      exact ⟨v, pt.leaf, hI, .inr ⟨rfl, hleaf ▸ hr⟩⟩
    rw [uvmallocLoop]
    refine (Ensures.any _).bind ?_
    rintro ⟨_ | g, m1⟩ -
    · exact hundo rfl
    refine mappages_leaves.bind ?_
    rintro ⟨r, pt2, m2⟩ ⟨-, hleaf⟩
    cases r with
    | false => exact (Ensures.any _).bind fun m3 _ => hundo hleaf
    | true =>
      obtain ⟨hV, hleaf⟩ : (pt.leaf v).has pteV = false ∧ pt2.leaf = _ := hleaf
      have hlt : v < userPages := lt_of_le_of_ne hv fun heq => by
        rw [heq, htop v _ hI] at hV
        cases hV
      have hnext : v * pgSize + pgSize = (v + 1) * pgSize := (Nat.succ_mul v pgSize).symm
      simp only [Bool.true_eq_false, if_false, hnext]
      exact ih (by omega) hlt (hleaf ▸ hstep v pt.leaf _ hov hlt hI hV)

/-- **`uvmalloc`** marks no page copy on write. -/
theorem uvmalloc_nocow {oldsz : ℕ} (hx : AllocPerm xperm) (hsz : oldsz ≤ trapframeVa)
    (htop : (pt.leaf userPages).has pteV = true) (hn : NoCow pt.leaf) :
    Ensures (uvmalloc kend pt oldsz newsz xperm m) (fun _ => True) fun r => NoCow r.2.1.leaf := by
  rw [uvmalloc]
  split_ifs
  · exact hn
  · simp only [pgRoundUp_eq hsz]
    refine (uvmallocLoop_leaves (I := fun _ h => (h userPages).has pteV = true ∧ NoCow h)
      (fun _ _ hI => hI.1) (fun v h pa _ hv hI _ => ?_) _ le_rfl (npages_le hsz)
      ⟨htop, hn⟩).mono ?_
    · rw [update_of_ne hv.ne']
      exact ⟨hI.1, hI.2.update v (mapEntry_nocow pa hx)⟩
    · rintro r ⟨v, h, ⟨-, hn⟩, ⟨-, hr⟩ | ⟨-, hr⟩⟩
      · rwa [hr]
      · rw [hr]
        exact hn.clearRange _ _

/-- The same pages are mapped, each by the same entry. -/
def SameMappings (h h' : ℕ → Pte) : Prop :=
  ∀ v, h' v = h v ∨ (h v).has pteV = false ∧ (h' v).has pteV = false

theorem SameMappings.leafRefs_eq (hs : SameMappings h h') : leafRefs h' = leafRefs h := by
  funext f
  rw [leafRefs_apply, leafRefs_apply]
  refine Finset.sum_congr rfl fun v _ => ?_
  rcases hs v with heq | ⟨hV, hV'⟩
  · rw [heq]
  · rw [leafRef_of_not_valid hV, leafRef_of_not_valid hV']

theorem SameMappings.clearRange {n : ℕ} (hout : ∀ w, (w < o ∨ o + n ≤ w) → h' w = h w)
    (hin : ∀ w, o ≤ w → w < o + n → (h w).has pteV = false) :
    SameMappings h (clearRange h' o n) := by
  intro w
  rw [Xv6.clearRange]
  split_ifs with hw
  · exact Or.inr ⟨hin w hw.1 hw.2, has_zero _⟩
  · exact Or.inl (hout w (by omega))

/-- **A failing `growproc`** was to grow, and leaves the entries of the table as they were. -/
theorem growproc_leaves {sz : ℕ} {n : ℤ} (hsz : sz ≤ trapframeVa)
    (htop : (pt.leaf userPages).has pteV = true) :
    Ensures (growproc kend pt sz n m) (fun _ => True) fun r =>
      r.1 = none → 0 < n ∧ SameMappings pt.leaf r.2.1.leaf := by
  rw [growproc]
  split_ifs with hpos hneg
  · have hloop : Ensures (uvmalloc kend pt sz (sz + n.toNat) pteW m) (fun _ => True) fun r =>
        r.1 = sz + n.toNat ∨ r.1 = 0 ∧ SameMappings pt.leaf r.2.1.leaf := by
      rw [uvmalloc, if_neg (by omega)]
      simp only [pgRoundUp_eq hsz]
      refine (uvmallocLoop_leaves (I := fun v h => (h userPages).has pteV = true ∧
        (∀ w, (w < npages sz ∨ v ≤ w) → h w = pt.leaf w) ∧
          ∀ w, npages sz ≤ w → w < v → (pt.leaf w).has pteV = false) (fun _ _ hI => hI.1)
        ?_ _ le_rfl (npages_le hsz) ⟨htop, fun _ _ => rfl, fun w hw hw' => by omega⟩).mono ?_
      · rintro v h pa hov hv ⟨htop, hout, hin⟩ hV
        rw [hout v (.inr le_rfl)] at hV
        refine ⟨by rwa [update_of_ne hv.ne'], fun w hw => ?_, fun w hw hw' => ?_⟩
        · rw [update_of_ne (by omega)]
          exact hout w (by omega)
        · rcases Nat.lt_succ_iff_lt_or_eq.mp hw' with hlt | rfl
          · exact hin w hw hlt
          · exact hV
      · rintro r ⟨v, h, ⟨-, hout, hin⟩, ⟨hr, -⟩ | ⟨hr, hleaf⟩⟩
        · exact .inl hr
        · refine .inr ⟨hr, ?_⟩
          rw [hleaf]
          exact .clearRange (fun w hw => hout w (by omega)) fun w hw hw' => hin w hw (by omega)
    refine hloop.bind ?_
    rintro ⟨sz', pt', m'⟩ (h | ⟨-, h⟩) hnone
    · change (if sz' = 0 then none else some sz') = none at hnone
      change sz' = _ at h
      rw [if_neg (by omega)] at hnone
      cases hnone
    · exact ⟨hpos, h⟩
  · exact (Ensures.any _).bind fun r _ hnone => by cases hnone
  · intro hnone
    cases hnone

/-! ## Sharing -/

theorem shared_shared (p : Pte) : shared (shared p) = shared p := by
  conv_lhs => rw [shared, if_neg (by rw [shared_has_pteW]; simp)]

theorem shared_frame (p : Pte) : (shared p).frame = p.frame :=
  frame_congr fun i hi => getLsbD_shared p (by omega) (by omega)

theorem shared_has_pteV (p : Pte) : (shared p).has pteV = p.has pteV := by
  rw [has_pteV, has_pteV, getLsbD_shared p (by omega) (by omega)]

theorem leafRefs_of_shared (hs : ∀ w, h' w = h w ∨ h' w = shared (h w)) :
    leafRefs h' = leafRefs h := by
  funext f
  rw [leafRefs_apply, leafRefs_apply]
  refine Finset.sum_congr rfl fun v _ => ?_
  rcases hs v with heq | heq
  · rw [heq]
  · rw [heq, leafRef, leafRef, shared_has_pteV, shared_frame]

/-- What `uvmcopy` may do to the two tables: it takes write permissions in the parent, and adds
page-table pages to the child. -/
structure Shares (old new old' new' : PageTable) : Prop where
  tables : old'.tables = old.tables
  leaves : ∀ w, old'.leaf w = old.leaf w ∨ old'.leaf w = shared (old.leaf w)
  child : ∀ f, new.tables f ≤ new'.tables f

theorem uvmcopyLoop_leaves (n : ℕ) : ∀ {v : ℕ} {old new : PageTable} {m : Phys},
    Ensures (uvmcopyLoop n (v * pgSize) old new m) (fun _ => True) fun r =>
      Shares old new r.2.1 r.2.2.1 := by
  induction n with
  | zero =>
    intro v old new m
    exact ⟨rfl, fun w => Or.inl rfl, fun _ => le_rfl⟩
  | succ n ih =>
    intro v old new m
    rw [uvmcopyLoop]
    by_cases hva : v * pgSize < maxVa
    swap
    · rw [walk_of_maxVa_le old (Nat.not_lt.mp hva)]
      trivial
    rw [walk_false old hva]
    simp only [bind, Except.bind, old.pte_mul hva]
    by_cases hmap : old.mapped (v * pgSize) = false
    · rw [if_pos hmap]
      trivial
    rw [if_neg hmap]
    by_cases hV : (old.leaf v).has pteV = false
    · rw [if_pos hV]
      trivial
    rw [if_neg hV]
    rw [Bool.not_eq_false] at hmap
    -- the parent's entry loses its write permission
    have hleaf := leaf_share hva hmap rfl
    have htab := tables_share old v (old.leaf v)
    generalize (if (old.leaf v).has pteW then old.setPte (v * pgSize) (old.leaf v).share else old) =
      old1 at hleaf htab ⊢
    have hstep : ∀ w, old1.leaf w = old.leaf w ∨ old1.leaf w = shared (old.leaf w) := by
      intro w
      rw [hleaf, update_apply]
      split_ifs with hw
      · exact Or.inr (by rw [hw])
      · exact Or.inl rfl
    refine mappages_leaves.bind ?_
    rintro ⟨r, new2, m2⟩ ⟨hnew, -⟩
    dsimp only at hnew ⊢
    by_cases hr : r = false
    · rw [if_pos hr]
      exact ⟨htab, hstep, hnew⟩
    rw [if_neg hr]
    refine (Ensures.any _).bind ?_
    rintro m3 -
    have hnext : v * pgSize + pgSize = (v + 1) * pgSize := (Nat.succ_mul v pgSize).symm
    rw [hnext]
    refine ih.mono ?_
    rintro r' ⟨htab', hr', hnew'⟩
    refine ⟨htab'.trans htab, fun w => ?_, fun f => (hnew f).trans (hnew' f)⟩
    rcases hr' w with h | h
    · rw [h]
      exact hstep w
    · rw [h]
      rcases hstep w with h1 | h1
      · exact Or.inr (by rw [h1])
      · exact Or.inr (by rw [h1, shared_shared])

/-- **`uvmcopy`** changes nothing else in the parent, whether it succeeds or fails. -/
theorem uvmcopy_leaves {sz : ℕ} {old new : PageTable} :
    Ensures (uvmcopy kend old new sz m) (fun _ => True) fun r => Shares old new r.2.1 r.2.2.1 := by
  have hloop : Ensures (uvmcopyLoop ((sz + (pgSize - 1)) / pgSize) (0 * pgSize) old new m)
      (fun _ => True) fun r => Shares old new r.2.1 r.2.2.1 := uvmcopyLoop_leaves _
  rw [Nat.zero_mul] at hloop
  rw [uvmcopy]
  refine hloop.bind ?_
  rintro ⟨_ | i, old', new', m'⟩ h
  · exact h
  · refine Ensures.bind (P := fun r => ∀ f, new'.tables f ≤ r.1.tables f) ?_ fun r hr =>
      ⟨h.tables, h.leaves, fun f => (h.child f).trans (hr f)⟩
    rw [uvmunmap]
    split_ifs
    · trivial
    · rw [← Nat.zero_mul pgSize]
      exact (uvmunmapLoop_leaves _).mono fun _ hr => hr.2.1

end Xv6
