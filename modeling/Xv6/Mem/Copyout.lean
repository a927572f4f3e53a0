import Mathlib.Algebra.Order.BigOperators.Group.LocallyFinite
import Xv6.Mem.Share

/-!
# Copying out to user memory

`copyout` writes kernel bytes to user addresses. It checks, page by page, that the page is mapped
and that the user can access it, makes a private copy of a copy-on-write page, and writes. It does
not check that the user may write the page.
-/

namespace Xv6

open Function Finset

/-- A page `copyout` accepts: mapped, and accessible to the user. -/
def UserPage (p : Pte) : Prop := p.has pteV = true ∧ p.has pteU = true

/-- A page the user may write, now or after a copy. -/
def MayWrite (p : Pte) : Prop := UserPage p ∧ (p.has pteW = true ∨ p.has pteC = true)

instance (p : Pte) : Decidable (UserPage p) := inferInstanceAs (Decidable (_ ∧ _))

instance (p : Pte) : Decidable (MayWrite p) := inferInstanceAs (Decidable (_ ∧ _))

section Round

variable {kend : ℕ} {E : Panic → Prop} {K U : ℕ → ℕ} {pt pt' : PageTable} {m m' : Phys}
  {a dstva len n v : ℕ}

theorem walkaddr_eq (pt : PageTable) (a : ℕ) :
    walkaddr pt (pgRoundDown a) =
      if UserPage (pt.leaf (a / pgSize)) then (pt.leaf (a / pgSize)).frame * pgSize else 0 := by
  rw [walkaddr]
  by_cases hmax : maxVa ≤ pgRoundDown a
  · have hle : maxVa / pgSize ≤ a / pgSize := by
      simp only [pgRoundDown, maxVa, pgSize] at hmax ⊢
      omega
    rw [if_pos hmax, PageTable.leaf_eq_zero pt hle, if_neg]
    rintro ⟨h, -⟩
    rw [has_zero] at h
    cases h
  · have hleaf := PageTable.leaf_page pt (Nat.not_le.mp hmax)
    rw [pgRoundDown_div] at hleaf
    rw [if_neg hmax, ← hleaf, ← pte2pa_eq]
    by_cases hu : UserPage (pt.leaf (a / pgSize))
    · have hm : pt.mapped (pgRoundDown a) = true := PageTable.mapped_of_has (hleaf ▸ hu.1)
      simp [hm, hu.1, hu.2, hu]
    · rw [if_neg hu]
      split_ifs with h1 h2 h3
      · rfl
      · rfl
      · rfl
      · exact absurd ⟨by simpa using h2, by simpa using h3⟩ hu

theorem UserPage.lt (h : UserPage (pt.leaf v)) (htop : KernelTop pt) : v < userPages := by
  by_contra hge
  have := htop.noUser v (by omega)
  rw [h.2] at this
  cases this

theorem UserPage.frame_pos (h : UserPage (pt.leaf v)) (htop : KernelTop pt)
    (hok : SpaceOk kend K U pt m) (hk : 0 < kend) : (pt.leaf v).frame ≠ 0 := by
  intro h0
  have hne := leafRefs_ne_zero (h.lt htop) h.1
  have hram := (hok.acct.counted.ram (pt.leaf v).frame (by simp only [Pi.add_apply]; omega)).1
  rw [h0] at hram
  omega

/-- A mapped page is not free, and its count is the number of its mappings. -/
theorem SpaceOk.pgrc_leaf (h : SpaceOk kend K U pt m) (hv : v < userPages)
    (hV : (pt.leaf v).has pteV = true) : (pt.leaf v).frame ∉ m.freelist ∧
      m.pgrc (pt.leaf v).frame = ((U + leafRefs pt.leaf) (pt.leaf v).frame : ℕ) := by
  have hne := leafRefs_ne_zero hv hV
  have hU : (U + leafRefs pt.leaf) (pt.leaf v).frame ≠ 0 := by
    rw [Pi.add_apply]
    omega
  have hT : ((K + pt.tables) + (U + leafRefs pt.leaf)) (pt.leaf v).frame =
      (U + leafRefs pt.leaf) (pt.leaf v).frame := by
    rw [Pi.add_apply, h.acct.sep _ hU, zero_add]
  refine ⟨fun hmem => hU (hT ▸ ((h.acct.counted.mem_freelist _).mp hmem).2), ?_⟩
  rw [h.acct.counted.rc _ (h.acct.counted.ram _ (hT.symm ▸ hU)), hT]

/-- A copy takes a page off the free list, and gives the old one back if nobody else maps it. -/
theorem cowCopy_freelist {va : ℕ} (hfree : (pt.pte va).frame ∉ m.freelist) :
    Ensures (cowCopy kend pt va m) (fun _ => True) fun r => ∀ pt' m', r = some (pt', m') →
      0 < m.freelist.length ∧ m'.freelist.length + 1 =
        m.freelist.length + if m.pgrc (pt.pte va).frame = 1 then 1 else 0 := by
  rw [cowCopy]
  refine Ensures.bind (P := fun r => ∀ g, r.1 = some g →
    r.2.freelist.length + 1 = m.freelist.length ∧
      r.2.pgrc (pt.pte va).frame = m.pgrc (pt.pte va).frame) ?_ ?_
  · rw [kalloc]
    cases hfl : m.freelist with
    | nil => exact fun g hg => by cases hg
    | cons g next =>
      rw [hfl, List.mem_cons, not_or] at hfree
      dsimp only
      rw [incpgrc, pgRoundDown_div, Nat.mul_div_cancel _ (by decide)]
      split_ifs
      · trivial
      · exact fun _ _ => ⟨rfl, update_of_ne hfree.1 ..⟩
  rintro ⟨_ | g, m1⟩ h₁
  · intro pt' m' hr
    cases hr
  obtain ⟨hlen, hrc⟩ := h₁ g rfl
  dsimp only at hlen hrc ⊢
  refine Ensures.bind (P := fun m2 => m2.freelist.length = m1.freelist.length +
    if m.pgrc (pt.pte va).frame = 1 then 1 else 0) ?_ ?_
  · rw [pte2pa_eq, kfree, pgRoundDown_div, Nat.mul_div_cancel _ (by decide)]
    simp only [decpgrc]
    by_cases hbad : (pt.pte va).frame * pgSize % pgSize ≠ 0 ∨
        (pt.pte va).frame * pgSize < kend ∨ physStop ≤ (pt.pte va).frame * pgSize
    · rw [if_pos hbad]
      trivial
    rw [if_neg hbad, show (m1.copyPage _ _).pgrc _ = _ from hrc]
    by_cases hle : m.pgrc (pt.pte va).frame ≤ 0
    · rw [if_pos hle]
      trivial
    simp only [if_neg hle, bind, Except.bind, update_self]
    by_cases h1 : m.pgrc (pt.pte va).frame = 1
    · rw [if_pos h1, if_pos (by omega)]
      rfl
    · rw [if_neg h1, if_neg (by omega)]
      rfl
  · intro m2 h2 pt' m' hr
    cases hr
    omega

/-- What the copy-on-write branch of `copyout` leaves at the page `v`: an entry `q` for a user page
as before, writable if the user may write the page, and the old entry otherwise. -/
structure CowRound (kend : ℕ) (K U : ℕ → ℕ) (pt : PageTable) (m : Phys) (v : ℕ) (pt1 : PageTable)
    (m1 : Phys) (q : Pte) : Prop where
  step : SpaceStep kend K U pt m pt1 m1
  shape : ∀ n, pt.Shaped n → pt1.Shaped n
  view : userView m1.mem pt1.leaf = userView m.mem pt.leaf
  leaf : pt1.leaf = update pt.leaf v q
  user : UserPage q
  writable : MayWrite (pt.leaf v) → q.has pteW = true
  same : ¬ MayWrite (pt.leaf v) → q = pt.leaf v

/-- A page marked copy on write that somebody else maps too. -/
def SharedCow (pt : PageTable) (m : Phys) (v : ℕ) : Prop :=
  (pt.leaf v).has pteC = true ∧ 1 < m.pgrc (pt.leaf v).frame

instance (pt : PageTable) (m : Phys) (v : ℕ) : Decidable (SharedCow pt m v) :=
  inferInstanceAs (Decidable (_ ∧ _))

/-- The copy-on-write branch. For a page marked copy on write it takes a page off the free list,
which the old page replaces if nobody else maps it; if there is none, it writes to address 0. -/
theorem copyoutCow_enough
    (hE : (pt.leaf (a / pgSize)).has pteC = true → m.freelist = [] → E .kerneltrap)
    (h : SpaceOk kend K U pt m) (htop : KernelTop pt) (hu : UserPage (pt.leaf (a / pgSize))) :
    Ensures (copyoutCow kend pt (pgRoundDown a) m) E fun r =>
      (∃ q, CowRound kend K U pt m (a / pgSize) r.1 r.2 q) ∧
      ((pt.leaf (a / pgSize)).has pteC = true → m.freelist ≠ []) ∧
      m.freelist.length = r.2.freelist.length + if SharedCow pt m (a / pgSize) then 1 else 0 := by
  have hlt := hu.lt htop
  have hva := pgRoundDown_lt hlt
  have hp := PageTable.leaf_page pt (lt_maxVa hva)
  rw [pgRoundDown_div] at hp
  have hC : (pteFlags (pt.pte (pgRoundDown a))).has pteC = (pt.leaf (a / pgSize)).has pteC := by
    rw [hp, has_pteC, has_pteC, getLsbD_pteFlags]
    simp
  rw [copyoutCow, hC]
  by_cases hc : (pt.leaf (a / pgSize)).has pteC = true
  · obtain ⟨hnot, hrc⟩ := h.pgrc_leaf hlt hu.1
    have hone := leafRefs_ne_zero hlt hu.1
    rw [Pi.add_apply] at hrc
    rw [if_pos hc]
    refine ((cowCopy_spec hva h (hp ▸ hu.1) (hp ▸ hc)).and (cowCopy_freelist (hp ▸ hnot))).bind ?_
    rintro (_ | ⟨pt', m'⟩) ⟨hr, hfl⟩
    · exact hE hc hr
    · obtain ⟨hst, hshape, hview, q, hleaf, hbit⟩ := hr
      obtain ⟨hpos, hlen⟩ := hfl _ _ rfl
      rw [pgRoundDown_div] at hleaf
      rw [← hp] at hlen
      refine ⟨⟨q, hst, hshape, hview, hleaf, ⟨?_, ?_⟩, fun _ => ?_,
        fun hn => absurd ⟨hu, Or.inr hc⟩ hn⟩, fun _ => List.ne_nil_of_length_pos hpos, ?_⟩
      · rw [has_pteV, hbit 0 (by omega), getLsbD_unshare, ← hp, ← has_pteV, hu.1]
        rfl
      · rw [has_pteU, hbit 4 (by omega), getLsbD_unshare, ← hp, ← has_pteU, hu.2]
        rfl
      · rw [has_pteW, hbit 2 (by omega), getLsbD_unshare]
        simp
      · simp only [SharedCow, hc, true_and]
        split_ifs at hlen ⊢ <;> omega
  · rw [if_neg hc]
    refine ⟨⟨_, SpaceStep.refl h, fun _ => id, rfl, (update_eq_self _ _).symm, hu,
      fun hw => ?_, fun _ => rfl⟩, fun hC => absurd hC hc, ?_⟩
    · exact hw.2.resolve_right hc
    · rw [if_neg fun hsh => hc hsh.1, add_zero]

theorem SpaceOk.congr (h : SpaceOk kend K U pt m) (hfl : m'.freelist = m.freelist)
    (hrc : m'.pgrc = m.pgrc) : SpaceOk kend K U pt m' :=
  ⟨h.acct.congr hfl hrc, h.excl, h.nowc⟩

/-- **One round** of `copyout`: it stops at a page that is not the user's; otherwise it writes into
the page that the copy-on-write branch leaves, and goes on with the next. -/
theorem copyoutLoop_round {fuel : ℕ} {src : ℕ → UInt8} {Q : Bool × PageTable × Phys → Prop}
    (hE : UserPage (pt.leaf (dstva / pgSize)) → (pt.leaf (dstva / pgSize)).has pteC = true →
      m.freelist = [] → E .kerneltrap)
    (hk : 0 < kend) (h : SpaceOk kend K U pt m) (htop : KernelTop pt) (hlen : len ≠ 0)
    (hstop : ¬ UserPage (pt.leaf (dstva / pgSize)) → Q (false, pt, m))
    (hround : ∀ pt1 m1 q n, UserPage (pt.leaf (dstva / pgSize)) →
      CowRound kend K U pt m (dstva / pgSize) pt1 m1 q →
      ((pt.leaf (dstva / pgSize)).has pteC = true → m.freelist ≠ []) ∧
        m.freelist.length =
          m1.freelist.length + (if SharedCow pt m (dstva / pgSize) then 1 else 0) →
      n = min (pgSize - dstva % pgSize) len →
      Ensures (copyoutLoop kend fuel pt1 ((dstva / pgSize + 1) * pgSize) (fun i => src (i + n))
        (len - n) (m1.memmove q.frame (dstva % pgSize) n src)) E Q) :
    Ensures (copyoutLoop kend (fuel + 1) pt dstva src len m) E Q := by
  rw [copyoutLoop, if_neg hlen, walkaddr_eq]
  by_cases hu : UserPage (pt.leaf (dstva / pgSize))
  · have hpos := hu.frame_pos htop h hk
    have hmod : dstva - pgRoundDown dstva = dstva % pgSize := by
      simp only [pgRoundDown, pgSize]
      omega
    have hnext : pgRoundDown dstva + pgSize = (dstva / pgSize + 1) * pgSize :=
      (Nat.succ_mul _ _).symm
    rw [if_pos hu, if_neg (Nat.mul_ne_zero hpos (by decide))]
    refine (copyoutCow_enough (hE hu) h htop hu).bind ?_
    rintro ⟨pt1, m1⟩ ⟨⟨q, hr⟩, hfl⟩
    dsimp only at hr hfl ⊢
    have hq : pt1.leaf (dstva / pgSize) = q := by rw [hr.leaf, update_self]
    rw [walkaddr_eq, hq, if_pos hr.user, Nat.mul_div_cancel _ (by decide), hmod, hnext]
    exact hround pt1 m1 q _ hu hr hfl rfl
  · rw [if_neg hu, if_pos rfl]
    exact hstop hu

theorem copyoutLoop_succ {fuel : ℕ} {src : ℕ → UInt8} {Q : Bool × PageTable × Phys → Prop}
    (hE : E .kerneltrap) (hk : 0 < kend) (h : SpaceOk kend K U pt m) (htop : KernelTop pt)
    (hlen : len ≠ 0) (hstop : ¬ UserPage (pt.leaf (dstva / pgSize)) → Q (false, pt, m))
    (hround : ∀ pt1 m1 q n, UserPage (pt.leaf (dstva / pgSize)) →
      CowRound kend K U pt m (dstva / pgSize) pt1 m1 q →
      n = min (pgSize - dstva % pgSize) len →
      Ensures (copyoutLoop kend fuel pt1 ((dstva / pgSize + 1) * pgSize) (fun i => src (i + n))
        (len - n) (m1.memmove q.frame (dstva % pgSize) n src)) E Q) :
    Ensures (copyoutLoop kend (fuel + 1) pt dstva src len m) E Q :=
  copyoutLoop_round (fun _ _ _ => hE) hk h htop hlen hstop fun pt1 m1 q n hu hr _ =>
    hround pt1 m1 q n hu hr

/-- The user part of a space with `k` bytes of `src` written from the address `a` on. -/
def writeView (s : ℕ → Option UPage) (a k : ℕ) (src : ℕ → UInt8) : ℕ → Option UPage :=
  fun v => (s v).map fun page => { page with
    bytes := fun o =>
      if a ≤ v * pgSize + o.val ∧ v * pgSize + o.val < a + k then src (v * pgSize + o.val - a)
      else page.bytes o }

theorem writeView_zero (s : ℕ → Option UPage) (a : ℕ) (src : ℕ → UInt8) :
    writeView s a 0 src = s := by
  funext v
  have : ∀ x, ¬ (a ≤ x ∧ x < a + 0) := fun x => by omega
  simp only [writeView, this, if_false, Option.map_id']

theorem writeView_append (s : ℕ → Option UPage) (a n k : ℕ) (src : ℕ → UInt8) :
    writeView (writeView s a n src) (a + n) k (fun i => src (i + n)) =
      writeView s a (n + k) src := by
  funext v
  simp only [writeView, Option.map_map]
  refine congrArg (Option.map · (s v)) (funext fun page => ?_)
  simp only [comp_apply, UPage.mk.injEq, true_and]
  funext o
  by_cases h : a + n ≤ v * pgSize + o.val ∧ v * pgSize + o.val < a + n + k
  · rw [if_pos h, if_pos (by omega)]
    exact congrArg src (by omega)
  · rw [if_neg h]
    exact if_congr (by omega) rfl rfl

theorem memmove_writeView {off : ℕ} (src : ℕ → UInt8) (hV : (pt.leaf v).has pteV = true)
    (hn : off + n ≤ pgSize) (hother : ∀ w < userPages, w ≠ v → (pt.leaf w).has pteV = true →
      (pt.leaf w).frame ≠ (pt.leaf v).frame) :
    userView (m.memmove (pt.leaf v).frame off n src).mem pt.leaf =
      writeView (userView m.mem pt.leaf) (v * pgSize + off) n src := by
  funext w
  rw [writeView, userView, userView]
  split_ifs with hw
  · rcases eq_or_ne w v with rfl | hne
    · -- the page itself
      rw [Pte.view, Pte.view, if_pos hV, if_pos hV, Option.map_some]
      refine congrArg some (congrArg _ (funext fun o => ?_))
      change update m.mem _ _ _ o = _
      rw [update_self]
      by_cases ho : off ≤ o.val ∧ o.val < off + n
      · rw [if_pos ho, if_pos (by omega)]
        exact congrArg src (by omega)
      · rw [if_neg ho, if_neg (by omega)]
    · -- no other page has its frame, and no other page lies in the range
      have hout : ∀ o : Fin pgSize, ¬ (v * pgSize + off ≤ w * pgSize + o.val ∧
          w * pgSize + o.val < v * pgSize + off + n) := by
        intro o
        have ho := o.isLt
        generalize o.val = x at ho
        simp only [pgSize] at hn ho ⊢
        omega
      simp only [hout, if_false, Option.map_id']
      exact Pte.view_congr fun hwV => update_of_ne (hother w hw hne hwV) ..
  · rfl

/-- **A write into a writable page** is seen by its process, and by nobody else. -/
theorem memmove_view {off : ℕ} (src : ℕ → UInt8) (h : SpaceOk kend K U pt m) (hv : v < userPages)
    (hV : (pt.leaf v).has pteV = true) (hW : (pt.leaf v).has pteW = true) (hn : off + n ≤ pgSize) :
    SpaceStep kend K U pt m pt (m.memmove (pt.leaf v).frame off n src) ∧
      userView (m.memmove (pt.leaf v).frame off n src).mem pt.leaf =
        writeView (userView m.mem pt.leaf) (v * pgSize + off) n src := by
  have h1 := h.excl v hv hV hW
  have h2 := leafRefs_ne_zero hv hV
  have hsep := h.acct.sep (pt.leaf v).frame (by rw [h1]; decide)
  simp only [Pi.add_apply] at h1 hsep
  refine ⟨⟨⟨h.congr rfl rfl, fun _ _ h0 => h0, fun _ _ => rfl⟩, fun f hf =>
    update_of_ne ?_ ..⟩, memmove_writeView src hV hn fun w hw hne hwV he => ?_⟩
  · rintro rfl
    omega
  · have := two_le_leafRefs hv hw hne hV hwV he
    omega

/-- How much a round copies: something, at most what is asked for and what the page has room for,
and everything or up to the end of the page. -/
theorem round_len (hlen : len ≠ 0) (hn : n = min (pgSize - dstva % pgSize) len) :
    0 < n ∧ n ≤ len ∧ dstva % pgSize + n ≤ pgSize ∧ dstva + n ≤ (dstva / pgSize + 1) * pgSize ∧
      (len - n = 0 ∨ dstva + n = (dstva / pgSize + 1) * pgSize) := by
  simp only [pgSize] at hn ⊢
  omega

theorem div_ne_of_next_le {x : ℕ} (hx : (a / pgSize + 1) * pgSize ≤ x) :
    x / pgSize ≠ a / pgSize := by
  simp only [pgSize] at hx ⊢
  omega

theorem div_eq_of_lt_next {x : ℕ} (hx : a ≤ x) (hx' : ¬ (a / pgSize + 1) * pgSize ≤ x) :
    x / pgSize = a / pgSize := by
  simp only [pgSize] at hx' ⊢
  omega

/-- The pages `copyout` checks are writable: a page of the range that it reaches over user pages
only, and that is itself a user page, may be written. -/
def ChecksWritable (pt : PageTable) (dstva len : ℕ) : Prop :=
  ∀ x, dstva ≤ x → x < dstva + len →
    (∀ y, dstva ≤ y → y ≤ x → UserPage (pt.leaf (y / pgSize))) → MayWrite (pt.leaf (x / pgSize))

theorem ChecksWritable.first (h : ChecksWritable pt dstva len) (hlen : len ≠ 0)
    (hu : UserPage (pt.leaf (dstva / pgSize))) : MayWrite (pt.leaf (dstva / pgSize)) :=
  h dstva le_rfl (by omega) fun y h1 h2 => by rwa [le_antisymm h2 h1]

theorem ChecksWritable.next (h : ChecksWritable pt dstva len) (hlen : len ≠ 0)
    (hn : n = min (pgSize - dstva % pgSize) len) (hu : UserPage (pt.leaf (dstva / pgSize)))
    (hother : ∀ w, w ≠ dstva / pgSize → pt'.leaf w = pt.leaf w) :
    ChecksWritable pt' ((dstva / pgSize + 1) * pgSize) (len - n) := by
  obtain ⟨-, -, -, -, hrest⟩ := round_len hlen hn
  intro x h1 h2 h3
  rw [hother _ (div_ne_of_next_le h1)]
  refine h x (by simp only [pgSize] at h1; omega) (by omega) fun y hy1 hy2 => ?_
  by_cases hy : (dstva / pgSize + 1) * pgSize ≤ y
  · rw [← hother _ (div_ne_of_next_le hy)]
    exact h3 y hy hy2
  · rwa [div_eq_of_lt_next hy1 hy]

/-- The pages on which the `len` bytes from `a` on lie. -/
def rangePages (a len : ℕ) : Finset ℕ := (Finset.range len).image fun k => (a + k) / pgSize

theorem mem_rangePages {x : ℕ} (h1 : a ≤ x) (h2 : x < a + len) : x / pgSize ∈ rangePages a len :=
  mem_image.mpr ⟨x - a, mem_range.mpr (by omega), congrArg (· / pgSize) (by omega)⟩

/-- A round of `copyout` deals with the first page of the range and leaves the others. -/
theorem rangePages_round (hlen : len ≠ 0) (hn : n = min (pgSize - a % pgSize) len) :
    rangePages a len = insert (a / pgSize) (rangePages ((a / pgSize + 1) * pgSize) (len - n)) := by
  obtain ⟨hn0, hnlen, -, hend, hrest⟩ := round_len hlen hn
  ext v
  simp only [rangePages, mem_insert, mem_image, mem_range]
  constructor
  · rintro ⟨k, hk, rfl⟩
    by_cases hkn : (a / pgSize + 1) * pgSize ≤ a + k
    · exact Or.inr ⟨k - n, by omega, congrArg (· / pgSize) (by omega)⟩
    · exact Or.inl (div_eq_of_lt_next (Nat.le_add_right a k) hkn)
  · rintro (rfl | ⟨k, hk, rfl⟩)
    · exact ⟨0, by omega, rfl⟩
    · exact ⟨n + k, by omega, congrArg (· / pgSize) (by omega)⟩

/-- How many pages of the range from the page `lo` up to the page `v` are shared copy on write. -/
def sharedBefore (pt : PageTable) (m : Phys) (lo v : ℕ) : ℕ :=
  ∑ w ∈ Finset.Ico lo v, if SharedCow pt m w then 1 else 0

/-- There is memory for every private copy that `copyout` has to make: at each page marked copy on
write that it reaches over user pages only, there are more free pages than the shared pages before
it have used up. A page that nobody else maps gives back what its copy takes. -/
def EnoughPages (pt : PageTable) (m : Phys) (a len : ℕ) : Prop :=
  ∀ v, a / pgSize ≤ v → v * pgSize < a + len → 0 < len →
    (∀ w, a / pgSize ≤ w → w ≤ v → UserPage (pt.leaf w)) → (pt.leaf v).has pteC = true →
      sharedBefore pt m (a / pgSize) v < m.freelist.length

/-- After a round that has made its copy, the rest of the range decides. -/
theorem enoughPages_round {pt1 : PageTable} {m1 : Phys} (hlen : len ≠ 0)
    (hn : n = min (pgSize - a % pgSize) len) (hu : UserPage (pt.leaf (a / pgSize)))
    (hother : ∀ w, w ≠ a / pgSize → pt1.leaf w = pt.leaf w)
    (hcount : ∀ w, w ≠ a / pgSize → UserPage (pt.leaf w) →
      m1.pgrc (pt.leaf w).frame = m.pgrc (pt.leaf w).frame)
    (hfirst : (pt.leaf (a / pgSize)).has pteC = true → m.freelist ≠ [])
    (hfl : m.freelist.length = m1.freelist.length + if SharedCow pt m (a / pgSize) then 1 else 0) :
    EnoughPages pt m a len ↔ EnoughPages pt1 m1 ((a / pgSize + 1) * pgSize) (len - n) := by
  obtain ⟨hn0, hnlen, -, hend, hrest⟩ := round_len hlen hn
  have hdiv : (a / pgSize + 1) * pgSize / pgSize = a / pgSize + 1 :=
    Nat.mul_div_cancel _ (by decide)
  have hbefore : ∀ v, a / pgSize < v → (∀ w, a / pgSize ≤ w → w ≤ v → UserPage (pt.leaf w)) →
      sharedBefore pt m (a / pgSize) v = (if SharedCow pt m (a / pgSize) then 1 else 0) +
        sharedBefore pt1 m1 (a / pgSize + 1) v := by
    intro v hv hall
    rw [sharedBefore, sum_eq_sum_Ico_succ_bot hv, sharedBefore]
    refine congrArg _ (sum_congr rfl fun w hw => if_congr ?_ rfl rfl)
    rw [mem_Ico] at hw
    rw [SharedCow, SharedCow, hother w (by omega),
      hcount w (by omega) (hall w (by omega) (by omega))]
  constructor
  · intro h v hle hlt hpos hall hC
    rw [hdiv] at hle hall ⊢
    have hall' : ∀ w, a / pgSize ≤ w → w ≤ v → UserPage (pt.leaf w) := by
      intro w hw hwv
      rcases eq_or_lt_of_le hw with rfl | hw
      · exact hu
      · rw [← hother w (by omega)]
        exact hall w hw hwv
    rw [hother v (by omega)] at hC
    have := h v (by omega) (by omega) (by omega) hall' hC
    rw [hbefore v (by omega) hall'] at this
    omega
  · intro h v hle hlt _ hall hC
    rcases eq_or_lt_of_le hle with rfl | hlt'
    · rw [sharedBefore, Finset.Ico_self, sum_empty]
      exact List.length_pos_of_ne_nil (hfirst hC)
    · have hnext : (a / pgSize + 1) * pgSize ≤ v * pgSize := Nat.mul_le_mul_right _ hlt'
      have := h v (by rwa [hdiv]) (by omega) (by omega)
        (fun w hw hwv => by
          rw [hdiv] at hw
          rw [hother w (by omega)]
          exact hall w (by omega) hwv) (by rwa [hother v (by omega)])
      rw [hdiv] at this
      rw [hbefore v hlt' hall]
      omega

theorem PageTable.Shaped.leafRefs_leaf (hs : pt.Shaped n)
    (hv : v < userPages) (hV : (pt.leaf v).has pteV = true) :
    leafRefs pt.leaf (pt.leaf v).frame = 1 := by
  have h0 := leafRefs_ne_zero hv hV
  have h1 := hs.once (pt.leaf v).frame
  omega

/-- What `copyout` has done when it returns: the first `k` bytes are written, and the entries of
the other pages are what they were; the rest is missing because of a page that is not the user's.
The bytes go to nobody else if the table has its shape, or if the user may write the pages. -/
structure CopiedOut (kend : ℕ) (K U : ℕ → ℕ) (pt : PageTable) (m : Phys) (dstva len : ℕ)
    (src : ℕ → UInt8) (k : ℕ) (r : Bool × PageTable × Phys) : Prop where
  move : SpaceMove kend K U pt r.2.1 r.2.2
  shape : ∀ n, pt.Shaped n → r.2.1.Shaped n
  le : k ≤ len
  view : (∃ n, pt.Shaped n) ∨ ChecksWritable pt dstva len →
    userView r.2.2.mem r.2.1.leaf = writeView (userView m.mem pt.leaf) dstva k src
  keep : ChecksWritable pt dstva len → ∀ f, K f + U f ≠ 0 → r.2.2.mem f = m.mem f
  leaves : ∀ v ∉ rangePages dstva k, r.2.1.leaf v = pt.leaf v
  users : ∀ v, UserPage (r.2.1.leaf v) ↔ UserPage (pt.leaf v)
  user : ∀ v ∈ rangePages dstva k, UserPage (pt.leaf v)
  done : r.1 = true → k = len
  stop : r.1 = false → k < len ∧ ¬ UserPage (pt.leaf ((dstva + k) / pgSize)) ∧
    (dstva + k) / pgSize ∉ rangePages dstva k

theorem copiedOut_zero {src : ℕ → UInt8} {ok : Bool} (h : SpaceOk kend K U pt m)
    (hdone : ok = true → len = 0)
    (hstop : ok = false → len ≠ 0 ∧ ¬ UserPage (pt.leaf (dstva / pgSize))) :
    CopiedOut kend K U pt m dstva len src 0 (ok, pt, m) :=
  ⟨SpaceMove.refl h, fun _ => id, Nat.zero_le _, fun _ => (writeView_zero _ _ _).symm,
    fun _ _ _ => rfl, fun _ _ => rfl, fun _ => Iff.rfl, fun v hv => (by simp [rangePages] at hv),
    fun h0 => (hdone h0).symm, fun h0 => ⟨Nat.pos_of_ne_zero (hstop h0).1, (hstop h0).2,
      by simp [rangePages]⟩⟩

/-- **`copyout`** fails, by a store to address 0, only if there is not enough memory for its copies.
It returns exactly if there is, in a table that has its shape, and then it has done its work. -/
theorem copyoutLoop_exact (hk : 0 < kend) (fuel : ℕ) :
    ∀ {pt : PageTable} {dstva len : ℕ} {src : ℕ → UInt8} {m : Phys}, len ≤ fuel →
      SpaceOk kend K U pt m → KernelTop pt →
      Ensures (copyoutLoop kend fuel pt dstva src len m)
        (fun e => e = .kerneltrap ∧ ∀ n, pt.Shaped n → ¬ EnoughPages pt m dstva len) fun r =>
          (∀ n, pt.Shaped n → EnoughPages pt m dstva len) ∧
            ∃ k, CopiedOut kend K U pt m dstva len src k r := by
  have hnone : ∀ {pt : PageTable} {dstva : ℕ} {m : Phys}, EnoughPages pt m dstva 0 :=
    fun _ _ _ h0 => absurd h0 (lt_irrefl 0)
  induction fuel with
  | zero =>
    intro pt dstva len src m hlen h _
    obtain rfl : len = 0 := by omega
    exact ⟨fun _ _ => hnone, 0, copiedOut_zero h (fun _ => rfl) fun h0 => by cases h0⟩
  | succ fuel ih =>
    intro pt dstva len src m hfuel h htop
    by_cases hlen : len = 0
    · subst hlen
      rw [copyoutLoop, if_pos rfl]
      exact ⟨fun _ _ => hnone, 0, copiedOut_zero h (fun _ => rfl) fun h0 => by cases h0⟩
    · refine copyoutLoop_round (fun hu hC hnil => ⟨rfl, fun n _ hen => ?_⟩) hk h htop hlen
        (fun hu => ?_) ?_
      · -- the first page needs a copy, and no page is free
        have := hen (dstva / pgSize) le_rfl (by simp only [pgSize]; omega) (by omega)
          (fun w h1 h2 => by rwa [le_antisymm h2 h1]) hC
        rw [hnil] at this
        exact absurd this (Nat.not_lt_zero _)
      · exact ⟨fun _ _ v hv _ _ hall => absurd (hall _ le_rfl hv) hu, 0,
          copiedOut_zero h (fun h0 => by cases h0) fun _ => ⟨hlen, hu⟩⟩
      · rintro pt1 m1 q c hu hr ⟨hfirst, hfl⟩ hc
        have hq : pt1.leaf (dstva / pgSize) = q := by rw [hr.leaf, update_self]
        have hother : ∀ w, w ≠ dstva / pgSize → pt1.leaf w = pt.leaf w := fun w hw => by
          rw [hr.leaf, update_of_ne hw]
        obtain ⟨hc0, hclen, hfit, hcend, hrest⟩ := round_len hlen hc
        have hV1 : (pt1.leaf (dstva / pgSize)).has pteV = true := hq ▸ hr.user.1
        have h₁ : SpaceOk kend K U pt1 (m1.memmove q.frame (dstva % pgSize) c src) :=
          hr.step.ok.congr rfl rfl
        -- the write of this round; the rest starts at the next page, unless this was the last
        have hwrite : ChecksWritable pt dstva len →
            SpaceStep kend K U pt1 m1 pt1 (m1.memmove q.frame (dstva % pgSize) c src) ∧ _ :=
          fun hH => hq ▸ memmove_view src hr.step.ok (hu.lt htop) hV1
            (hq ▸ hr.writable (hH.first hlen hu)) hfit
        have hview1 : (∃ n, pt.Shaped n) ∨ ChecksWritable pt dstva len →
            userView (m1.memmove q.frame (dstva % pgSize) c src).mem pt1.leaf =
              writeView (userView m.mem pt.leaf) dstva c src := by
          intro hor
          rw [← hr.view]
          rcases hor with ⟨n, hs⟩ | hH
          · have hmoved := memmove_writeView (m := m1) src hV1 hfit fun w hw hne hwV he => by
              have h2 := two_le_leafRefs (hu.lt htop) hw hne hV1 hwV he
              have h1 := (hr.shape n hs).once (pt1.leaf (dstva / pgSize)).frame
              omega
            rwa [hq, Nat.div_add_mod'] at hmoved
          · have hmoved := (hwrite hH).2
            rwa [Nat.div_add_mod'] at hmoved
        -- a page mapped once here has the same count after the copy of another
        have hen : ∀ n, pt.Shaped n → (EnoughPages pt m dstva len ↔
            EnoughPages pt1 m1 ((dstva / pgSize + 1) * pgSize) (len - c)) := by
          intro n hs
          refine enoughPages_round hlen hc hu hother (fun w hne hw => ?_) hfirst hfl
          have hlt := hw.lt htop
          have hleaf := hother w hne
          have hw1 : (pt1.leaf w).has pteV = true := hleaf ▸ hw.1
          rw [(h.pgrc_leaf hlt hw.1).2, Pi.add_apply, hs.leafRefs_leaf hlt hw.1, ← hleaf,
            (hr.step.ok.pgrc_leaf hlt hw1).2, Pi.add_apply,
            (hr.shape n hs).leafRefs_leaf hlt hw1]
        refine ((ih (by omega) h₁ (htop.move hr.step.toSpaceMove)).weaken fun e he =>
          ⟨he.1, fun n hs => mt (hen n hs).mp (he.2 n (hr.shape n hs))⟩).mono ?_
        rintro ⟨ok, pt3, m3⟩ ⟨hen', k, hk'⟩
        -- what is done after this round: `c` bytes, and the `k` bytes of the rest
        have hle := hk'.le
        have hpages : rangePages dstva (c + k) =
            insert (dstva / pgSize) (rangePages ((dstva / pgSize + 1) * pgSize) k) := by
          rw [rangePages_round (n := c) (by omega) (by omega), Nat.add_sub_cancel_left]
        have husers1 : ∀ v, UserPage (pt1.leaf v) ↔ UserPage (pt.leaf v) := by
          intro v
          rcases eq_or_ne v (dstva / pgSize) with rfl | hne
          · exact iff_of_true (hq.symm ▸ hr.user) hu
          · rw [hother v hne]
        have hH' : ChecksWritable pt dstva len → ChecksWritable pt1 _ (len - c) := fun hH =>
          hH.next hlen hc hu hother
        refine ⟨fun n hs => (hen n hs).mpr (hen' n (hr.shape n hs)), c + k,
          SpaceMove.trans ⟨h₁, hr.step.fresh, hr.step.upper⟩ hk'.move,
          fun j hj => hk'.shape j (hr.shape j hj), by omega, fun hor => ?_, fun hH f hf => ?_,
          fun v hv => ?_, fun v => (hk'.users v).trans (husers1 v), fun v hv => ?_,
          fun h0 => by have := hk'.done h0; omega, fun h0 => ?_⟩
        · rw [hk'.view (hor.imp (Exists.imp hr.shape) hH'), hview1 hor]
          rcases hrest with h0 | h0
          · obtain rfl : k = 0 := by omega
            rw [writeView_zero, add_zero]
          · rw [← h0, writeView_append]
        · rw [hk'.keep (hH' hH) f hf, (hwrite hH).1.keep f hf, hr.step.keep f hf]
        · rw [hpages, mem_insert, not_or] at hv
          rw [hk'.leaves v hv.2, hother v hv.1]
        · rw [hpages, mem_insert] at hv
          rcases hv with rfl | hv
          · exact hu
          · exact (husers1 v).mp (hk'.user v hv)
        · obtain ⟨hlt, hnot, hout⟩ := hk'.stop h0
          have hat : (dstva / pgSize + 1) * pgSize + k = dstva + (c + k) := by omega
          rw [hat] at hnot hout
          have hne : (dstva + (c + k)) / pgSize ≠ dstva / pgSize := div_ne_of_next_le (by omega)
          rw [hother _ hne] at hnot
          refine ⟨by omega, hnot, ?_⟩
          rw [hpages, mem_insert, not_or]
          exact ⟨hne, hout⟩

theorem CowRound.keep {w : ℕ} {pt1 : PageTable} {m1 : Phys} {q : Pte}
    (hr : CowRound kend K U pt m v pt1 m1 q) (hw : w < userPages) (hne : w ≠ v)
    (hV : (pt.leaf w).has pteV = true) :
    pt1.leaf w = pt.leaf w ∧ m1.mem (pt.leaf w).frame = m.mem (pt.leaf w).frame := by
  have hleaf : pt1.leaf w = pt.leaf w := by rw [hr.leaf, update_of_ne hne]
  have hview := congrFun hr.view w
  rw [userView_of_lt hw, userView_of_lt hw, hleaf, Pte.view, Pte.view, if_pos hV, if_pos hV,
    Option.some_inj, UPage.mk.injEq] at hview
  exact ⟨hleaf, hview.2.2.2.2⟩

/-- Copying out one byte value only: where it stands on a page already passed, it stays. -/
theorem copyoutLoop_const_keep (hk : 0 < kend) (c : UInt8) (fuel : ℕ) :
    ∀ {pt : PageTable} {dstva len : ℕ} {m : Phys} {v : ℕ} {o : Fin pgSize},
      SpaceOk kend K U pt m → KernelTop pt → v < userPages → v < dstva / pgSize →
      (pt.leaf v).has pteV = true → m.mem (pt.leaf v).frame o = c →
      Ensures (copyoutLoop kend fuel pt dstva (fun _ => c) len m) Panic.RefSafe fun r =>
        r.2.1.leaf v = pt.leaf v ∧ r.2.2.mem (pt.leaf v).frame o = c := by
  induction fuel with
  | zero =>
    intro pt dstva len m v o _ _ _ _ _ hc
    exact ⟨rfl, hc⟩
  | succ fuel ih =>
    intro pt dstva len m v o h htop hv hlt hV hc
    by_cases hlen : len = 0
    · rw [copyoutLoop, if_pos hlen]
      exact ⟨rfl, hc⟩
    · refine copyoutLoop_succ (by simp [Panic.RefSafe]) hk h htop hlen (fun _ => ⟨rfl, hc⟩) ?_
      intro pt1 m1 q n _ hr _
      obtain ⟨hleaf, hmem⟩ := hr.keep hv (by omega) hV
      have hc' : (m1.memmove q.frame (dstva % pgSize) n fun _ => c).mem
          (pt1.leaf v).frame o = c := by
        rw [hleaf]
        change update m1.mem _ _ _ o = c
        rw [update_apply]
        split_ifs with he
        · dsimp only
          split_ifs
          · rfl
          · rw [← he, hmem, hc]
        · rw [hmem, hc]
      rw [← hleaf]
      refine ih (hr.step.ok.congr rfl rfl) (htop.move hr.step.toSpaceMove) hv ?_ (hleaf ▸ hV) hc'
      rw [Nat.mul_div_cancel _ (by decide)]
      omega

/-- **`copyout` writes where the user may not**: a page that it reaches over user pages, and that
is one itself, receives the bytes, also when the user may not write it. -/
theorem copyoutLoop_const (hk : 0 < kend) (c : UInt8) (fuel : ℕ) :
    ∀ {pt : PageTable} {dstva len : ℕ} {m : Phys} {v : ℕ} {o : Fin pgSize}, len ≤ fuel →
      SpaceOk kend K U pt m → KernelTop pt → dstva / pgSize ≤ v → v * pgSize < dstva + len →
      0 < len → (∀ w, dstva / pgSize ≤ w → w ≤ v → UserPage (pt.leaf w)) →
      ¬ MayWrite (pt.leaf v) → o.val = dstva - v * pgSize →
      Ensures (copyoutLoop kend fuel pt dstva (fun _ => c) len m) Panic.RefSafe fun r =>
        r.2.1.leaf v = pt.leaf v ∧ r.2.2.mem (pt.leaf v).frame o = c := by
  induction fuel with
  | zero =>
    intro pt dstva len m v o hlen _ _ _ _ hpos
    omega
  | succ fuel ih =>
    intro pt dstva len m v o hfuel h htop hle hend hpos hu hnot ho
    refine copyoutLoop_succ (by simp [Panic.RefSafe]) hk h htop (by omega)
      (fun hn => absurd (hu _ le_rfl hle) hn) ?_
    intro pt1 m1 q n _ hr hn
    have hn1 : 0 < n ∧ n ≤ len := by
      simp only [pgSize] at hn
      omega
    have hv : v < userPages := (hu v hle le_rfl).lt htop
    have hok : SpaceOk kend K U pt1 (m1.memmove q.frame (dstva % pgSize) n fun _ => c) :=
      hr.step.ok.congr rfl rfl
    have htop1 := htop.move hr.step.toSpaceMove
    have hdiv : (dstva / pgSize + 1) * pgSize / pgSize = dstva / pgSize + 1 :=
      Nat.mul_div_cancel _ (by decide)
    rcases Nat.eq_or_lt_of_le hle with heq | hlt
    · -- this round writes the page
      have hq : q = pt.leaf v := by
        rw [hr.same (heq ▸ hnot), heq]
      have hleaf : pt1.leaf v = pt.leaf v := by rw [hr.leaf, heq, update_self, hq]
      rw [← hleaf]
      refine copyoutLoop_const_keep hk c fuel hok htop1 hv (by omega)
        (hleaf ▸ (hu v hle le_rfl).1) ?_
      change update m1.mem _ _ _ o = c
      rw [hleaf, hq, update_self]
      have hin : dstva % pgSize ≤ o.val ∧ o.val < dstva % pgSize + n := by
        rw [ho, ← heq]
        simp only [pgSize]
        omega
      rw [if_pos hin]
    · have hleaf : pt1.leaf v = pt.leaf v := by rw [hr.leaf, update_of_ne (by omega)]
      rw [← hleaf]
      refine ih (by omega) hok htop1 (by omega) ?_ ?_ (fun w h1 h2 => ?_) (hleaf ▸ hnot) ?_
      · simp only [pgSize] at hn hend hlt ⊢
        omega
      · simp only [pgSize] at hn hend hlt ⊢
        omega
      · rw [hr.leaf, update_of_ne (by omega)]
        exact hu w (by omega) h2
      · rw [ho]
        simp only [pgSize] at hlt ⊢
        omega

end Round

end Xv6
