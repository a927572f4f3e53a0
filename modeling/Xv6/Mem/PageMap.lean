import Xv6.Mem.Pointer

/-!
# A page table is a finite map

What a page table is for: a partial map from the virtual pages below `MAXVA` to a frame and flags.
A memory whose table pages are distinct and in use determines such a map, and the functions of
`kernel/vm.c`, run on the words of that memory, are operations on it: `walk` looks up, and changes
no binding even where it adds pages to the table; `mappages` adds bindings in the order of their
pages; `uvmunmap` removes them.
-/

namespace Xv6

open Function Pointer PageTable Table

/-! ## Decoding -/

variable {fl : Pte} {v va : ℕ}

theorem isFlags_of_lt (h : fl.toNat < 1024) : IsFlags fl := by
  intro i hi
  have hpow : 2 ^ 10 ≤ 2 ^ i := Nat.pow_le_pow_right (by decide) hi
  rw [← BitVec.testBit_toNat]
  exact Nat.testBit_lt_two_pow (by omega)

theorem pa2pte_page (pa : ℕ) : pa2pte pa = pa2pte (pa % 2 ^ 64 / pgSize * pgSize) := by
  apply BitVec.eq_of_toNat_eq
  simp only [pa2pte, BitVec.toNat_shiftLeft, BitVec.toNat_ushiftRight, BitVec.toNat_ofNat,
    Nat.shiftLeft_eq, Nat.shiftRight_eq_div_pow, pgSize]
  omega

theorem frame_pa2pte (pa : ℕ) (hfl : IsFlags fl) :
    (pa2pte pa ||| fl).frame = pa % 2 ^ 64 / pgSize := by
  have hlt : pa % 2 ^ 64 / pgSize < 2 ^ 52 := by
    have := Nat.mod_lt pa (show 0 < 2 ^ 64 by decide)
    simp only [pgSize]
    omega
  rw [pa2pte_page, frame_pa2pte_or hlt hfl]

/-- **Decoding the address** of an entry. -/
theorem pte2pa_pa2pte_or {pa : ℕ} (hpa : pa % pgSize = 0) (hlt : pa < 2 ^ 56) (hfl : IsFlags fl) :
    pte2pa (pa2pte pa ||| fl) = pa := by
  rw [pte2pa_eq, frame_pa2pte pa hfl]
  simp only [pgSize] at hpa ⊢
  omega

/-- **Decoding the flags** of an entry. -/
theorem pteFlags_pa2pte_or (pa : ℕ) (hfl : IsFlags fl) : pteFlags (pa2pte pa ||| fl) = fl := by
  apply BitVec.eq_of_getLsbD_eq
  intro i _
  rw [getLsbD_pteFlags]
  by_cases hi : i < 10
  · rw [getLsbD_pa2pte_or pa fl hi]
    simp [hi]
  · rw [hfl i (by omega)]
    simp [hi]

/-! ## The map of a table -/

/-- A partial map from virtual page numbers to frames and flags. -/
abbrev PageMap := ℕ → Option (ℕ × Pte)

namespace PageMap

/-- The map with the pages `v`, `v + 1`, … bound to the first `k` values of `e`. -/
def add (M : PageMap) (v k : ℕ) (e : ℕ → ℕ × Pte) : PageMap := fun w =>
  if v ≤ w ∧ w < v + k then some (e (w - v)) else M w

/-- The map without the `k` pages from `v` on. -/
def remove (M : PageMap) (v k : ℕ) : PageMap := fun w => if v ≤ w ∧ w < v + k then none else M w

end PageMap

/-- The frame and the flags that a valid entry binds. -/
def Pte.binding (p : Pte) : Option (ℕ × Pte) :=
  if p.has pteV then some (p.frame, pteFlags p) else none

def PageTable.map (pt : PageTable) : PageMap := fun v => (pt.leaf v).binding

/-- The map of the page table that the words of a memory spell from a root page on. -/
def Phys.pageMap (m : Phys) (root : ℕ) : PageMap := (m.pageTable root).map

variable {p : Pte}

theorem Pte.binding_eq_none_iff : p.binding = none ↔ p.has pteV = false := by
  rw [Pte.binding]
  split_ifs with h <;> simp [h]

theorem Pte.binding_eq_some_iff {e : ℕ × Pte} :
    p.binding = some e ↔ p.has pteV = true ∧ (p.frame, pteFlags p) = e := by
  rw [Pte.binding]
  split_ifs with h <;> simp [h]

theorem Pte.binding_isSome_iff : p.binding.isSome = true ↔ p.has pteV = true := by
  rw [Pte.binding]
  split_ifs with h <;> simp [h]

theorem Pte.binding_zero : Pte.binding 0#64 = none := Pte.binding_eq_none_iff.mpr (has_zero _)

variable {pt : PageTable}

theorem PageTable.map_eq_none (hv : maxVa / pgSize ≤ v) : pt.map v = none := by
  rw [PageTable.map, leaf_eq_zero pt hv, Pte.binding_zero]

variable {pt' : PageTable}

theorem PageTable.map_congr (h : pt'.leaf = pt.leaf) : pt'.map = pt.map := by
  funext v
  rw [PageTable.map, PageTable.map, h]

variable {perm : Pte}

theorem binding_mapped (pa : ℕ) (hperm : IsFlags perm) :
    (pa2pte pa ||| perm ||| pteV).binding = some (pa % 2 ^ 64 / pgSize, perm ||| pteV) := by
  have hfl : IsFlags (perm ||| pteV) := hperm.or isFlags_pteV
  have hV : (pa2pte pa ||| (perm ||| pteV)).has pteV = true := by
    rw [has_pteV, getLsbD_pa2pte_or _ _ (by decide), BitVec.getLsbD_or, getLsbD_pteV]
    simp
  rw [BitVec.or_assoc, Pte.binding, if_pos hV, frame_pa2pte pa hfl, pteFlags_pa2pte_or pa hfl]

/-! ## The stores of `mappages` -/

/-- The leaves after `k` entries from the page `v` on have been stored. -/
def mapRange (h : ℕ → Pte) (v k pa : ℕ) (perm : Pte) : ℕ → Pte := fun w =>
  if v ≤ w ∧ w < v + k then pa2pte (pa + (w - v) * pgSize) ||| perm ||| pteV else h w

theorem mapRange_zero (h : ℕ → Pte) (v pa : ℕ) (perm : Pte) : mapRange h v 0 pa perm = h :=
  funext fun w => if_neg (by omega)

theorem mapRange_succ (h : ℕ → Pte) (v k pa : ℕ) (perm : Pte) :
    mapRange (update h v (pa2pte pa ||| perm ||| pteV)) (v + 1) k (pa + pgSize) perm =
      mapRange h v (k + 1) pa perm := by
  funext w
  rcases eq_or_ne w v with rfl | hne
  · simp [mapRange]
  · by_cases hw : v + 1 ≤ w ∧ w < v + 1 + k
    · have hpa : pa + pgSize + (w - (v + 1)) * pgSize = pa + (w - v) * pgSize := by
        have : w - v = w - (v + 1) + 1 := by omega
        rw [this, Nat.succ_mul]
        omega
      rw [mapRange, mapRange, if_pos hw, if_pos (by omega), hpa]
    · rw [mapRange, mapRange, if_neg hw, if_neg (by omega), update_of_ne hne]

/-- **The loop of `mappages`**, from the page `v` to the page `l`: it stores entries in the order
of their pages, none of which was mapped; all of them if it completes. -/
theorem mappagesLoop_leaves {l : ℕ} (fuel : ℕ) :
    ∀ {v pa : ℕ} {pt : PageTable} {m : Phys},
      Ensures (mappagesLoop (l * pgSize) perm fuel (v * pgSize) pa pt m) (fun _ => True) fun r =>
        ∃ k, r.2.1.leaf = mapRange pt.leaf v k pa perm ∧
          (∀ i < k, (pt.leaf (v + i)).has pteV = false) ∧
          if r.1 = true then v + k = l + 1 else v ≤ l → v + k ≤ l := by
  induction fuel with
  | zero =>
    intro v pa pt m
    exact trivial
  | succ fuel ih =>
    intro v pa pt m
    rw [mappagesLoop]
    refine walk_leaves.bind ?_
    rintro ⟨r, pt1, m1⟩ ⟨hleaf, hva, hmap, -⟩
    cases r with
    | false => exact ⟨0, by rw [mapRange_zero]; exact hleaf, fun i hi => by omega, fun h => h⟩
    | true =>
      have hset := leaf_setPte_mul hva (hmap rfl) (pa2pte pa ||| perm ||| pteV)
      rw [show pt1.leaf = pt.leaf from hleaf] at hset
      dsimp only
      rw [if_pos rfl, pt1.pte_mul hva, hleaf]
      split_ifs with hV hlast
      · trivial
      · have hvl : v = l := Nat.eq_of_mul_eq_mul_right (by decide) hlast
        refine ⟨1, ?_, fun i hi => ?_, ?_⟩
        · rw [hset, ← mapRange_succ, mapRange_zero]
        · obtain rfl : i = 0 := by omega
          simpa using hV
        · rw [if_pos rfl, hvl]
      · rw [← add_one_mul]
        refine ih.mono ?_
        rintro ⟨r, pt2, m2⟩ ⟨k, hk, hfree, hend⟩
        refine ⟨k + 1, ?_, fun i hi => ?_, ?_⟩
        · rw [hk, hset]
          exact mapRange_succ ..
        · cases i with
          | zero => simpa using hV
          | succ i =>
            have := hfree i (by omega)
            rwa [hset, update_of_ne (by omega), add_right_comm] at this
        · have hne : v ≠ l := fun h => hlast (by rw [h])
          dsimp only at hend ⊢
          split_ifs at hend ⊢
          · omega
          · omega

theorem map_mapRange {k pa : ℕ} (hperm : IsFlags perm)
    (h : pt'.leaf = mapRange pt.leaf v k pa perm) :
    pt'.map = pt.map.add v k fun i => ((pa + i * pgSize) % 2 ^ 64 / pgSize, perm ||| pteV) := by
  funext w
  rw [PageTable.map, h, mapRange, PageMap.add]
  split_ifs
  · exact binding_mapped _ hperm
  · rfl

theorem map_clearRange {k : ℕ} (h : pt'.leaf = clearRange pt.leaf v k) :
    pt'.map = pt.map.remove v k := by
  funext w
  rw [PageTable.map, h, clearRange, PageMap.remove]
  split_ifs
  · exact Pte.binding_zero
  · rfl

/-! ## What `uvmunmap` asks for -/

/-- Where the pages are mapped by leaf entries, `uvmunmap` does not panic. -/
theorem uvmunmapLoop_returns {kend : ℕ} (n : ℕ) : ∀ {v : ℕ} {pt : PageTable} {m : Phys},
    (∀ i < n, (pt.leaf (v + i)).has pteV = true ∧ pteFlags (pt.leaf (v + i)) ≠ pteV) →
      Ensures (uvmunmapLoop kend false n (v * pgSize) pt m) (fun _ => False) fun _ => True := by
  induction n with
  | zero =>
    intro v pt m _
    exact trivial
  | succ n ih =>
    intro v pt m h
    obtain ⟨hV, hF⟩ := h 0 (by omega)
    rw [add_zero] at hV hF
    have hva : v * pgSize < maxVa := by
      by_contra hge
      have hle : maxVa / pgSize ≤ v := by
        simp only [maxVa, pgSize] at hge ⊢
        omega
      rw [leaf_eq_zero pt hle, has_zero] at hV
      cases hV
    have hleaf := pt.pte_mul hva
    have hm : pt.mapped (v * pgSize) = true := mapped_of_has (hleaf ▸ hV)
    have hnext : Ensures (uvmunmapLoop kend false n (v * pgSize + pgSize)
        (pt.setPte (v * pgSize) 0#64) m) (fun _ => False) fun _ => True := by
      rw [← add_one_mul]
      refine ih fun i hi => ?_
      rw [leaf_setPte_mul hva hm, update_of_ne (by omega), add_right_comm, add_assoc]
      exact h (i + 1) (by omega)
    simp only [uvmunmapLoop, walk_false pt hva, bind, Except.bind, hm, hleaf, hV, hF,
      Bool.true_eq_false, Bool.false_eq_true, if_false]
    exact hnext

/-- `walk` does not panic below `MAXVA`, if the free pages have no references. -/
theorem Table.walk_returns {alloc : Bool} (n : ℕ) : ∀ {t : Table n} {m : Phys},
    m.freelist.Nodup → (∀ g ∈ m.freelist, m.pgrc g = 0) →
      Ensures (Table.walk alloc va n t m) (fun _ => False) fun _ => True := by
  induction n with
  | zero =>
    intro t m _ _
    exact trivial
  | succ n ih =>
    intro t m hnd hrc
    cases he : t.entry (px (n + 1) va) with
    | some e =>
      simp only [Table.walk, he]
      exact (ih hnd hrc).bind fun _ _ => trivial
    | none =>
      cases alloc with
      | false =>
        simp only [Table.walk, he]
        exact trivial
      | true =>
        cases hfl : m.freelist with
        | nil =>
          simp only [Table.walk, he, kalloc, hfl]
          exact trivial
        | cons g next =>
          rw [hfl, List.nodup_cons] at hnd
          have hbelow : Ensures (Table.walk true va n (Table.zero n) ((m.taken g).memset g 0))
              (fun _ => False) fun _ => True := by
            refine ih ?_ fun x hx => ?_
            · simpa [Phys.taken, hfl] using hnd.2
            · have hx' : x ∈ next := by simpa [Phys.taken, hfl] using hx
              have hxg : x ≠ g := by
                rintro rfl
                exact hnd.1 hx'
              exact (update_of_ne hxg ..).trans (hrc x (by simp [hfl, hx']))
          simp only [Table.walk, he, if_true, kalloc_of_cons hfl (hrc g (by simp [hfl]))]
          exact hbelow.bind fun _ _ => trivial

/-! ## The functions on words -/

/-- A well-formed page table: a tree of distinct pages in use. -/
def WellFormed (m : Phys) (root : ℕ) : Prop := Apart m (m.pageTable root).tables

theorem Acct.wellFormed {kend : ℕ} {m : Phys} {K U : ℕ → ℕ} {root : ℕ}
    (h : Acct kend m (K + (m.pageTable root).tables) U) : WellFormed m root := by
  have hle : ∀ g, (m.pageTable root).tables g ≤ (K + (m.pageTable root).tables) g := fun g => by
    rw [Pi.add_apply]
    omega
  exact ⟨fun g => (hle g).trans (h.apart.single g),
    fun g hg => Nat.le_zero.mp ((hle g).trans (h.apart.used g hg).le), h.apart.nodup,
    h.apart.unreferenced, h.apart.ram⟩

theorem Stands.wellFormed {m ms : Phys} (h : Stands m pt ms) {root : ℕ} (hroot : pt.root = root) :
    WellFormed m root ∧ m.pageMap root = pt.map := by
  subst hroot
  rw [WellFormed, Phys.pageMap, h.pageTable]
  exact ⟨h.apart, rfl⟩

/-- While its bound does not wrap, the loop of `uvmunmap` takes a round for each page. -/
theorem Pointer.rounds_eq {npages : ℕ} (h : va + npages * pgSize < 2 ^ 64) :
    rounds va npages = npages := by
  rw [rounds, Nat.mod_eq_of_lt h, Nat.add_sub_cancel_left, Nat.mul_div_cancel _ (by decide)]

theorem Pointer.rounds_le (va npages : ℕ) : rounds va npages ≤ npages := by
  rw [rounds]
  refine Nat.div_le_of_le_mul ?_
  have := Nat.mod_le (va + npages * pgSize) (2 ^ 64)
  rw [mul_comm pgSize]
  omega

namespace WellFormed

variable {m : Phys} {root : ℕ} (h : WellFormed m root)

include h

theorem walk_false (hva : va < maxVa) :
    ∃ p, Pointer.walk root va false m = .ok (p, m) ∧
      (∀ q, p = some q → (m.load q).binding = m.pageMap root (va / pgSize)) ∧
      (p = none → m.pageMap root (va / pgSize) = none) := by
  have hmap : m.pageMap root (va / pgSize) = ((m.pageTable root).pte va).binding := by
    rw [Phys.pageMap, PageTable.map, leaf_page _ hva]
  refine ⟨pointer va 2 root (m.table 2 root), ?_, fun q hq => ?_, fun hnone => ?_⟩
  · rw [Pointer.walk, if_neg (not_le.mpr hva)]
    exact walkLoop_false va m 2 root
  · rw [hmap, (Stands.of_apart h).load hq]
  · have hm := pointer_isSome va 2 root (m.table 2 root)
    rw [hnone] at hm
    rw [hmap, PageTable.pte, Phys.pageTable, pte_of_not_mapped va 2 _ hm.symm,
      Pte.binding_zero]

theorem walk_true (hva : va < maxVa) :
    ∃ p m', Pointer.walk root va true m = .ok (p, m') ∧ WellFormed m' root ∧
      m'.pageMap root = m.pageMap root := by
  have hreturns : Ensures ((m.pageTable root).walk va true m) (fun _ => False) fun _ => True := by
    rw [PageTable.walk, if_neg (not_le.mpr hva)]
    exact (walk_returns 2 h.nodup h.unreferenced).bind fun _ _ => trivial
  have hsim := (walk_simulates (Stands.of_apart h) va true).ensures
    (hreturns.and walk_leaves)
  obtain ⟨⟨p, m'⟩, hrun, s, ⟨hst, hroot, -⟩, -, hleaf, -⟩ := hsim.exists_ok
  obtain ⟨hwf, hmap⟩ := hst.wellFormed hroot
  exact ⟨p, m', hrun, hwf, hmap.trans (map_congr hleaf)⟩

theorem mappages (va size pa : ℕ) (hperm : IsFlags perm) :
    Ensures (Pointer.mappages root va size pa perm m) (fun _ => True) fun r =>
      WellFormed r.2 root ∧ ∃ k, r.2.pageMap root = (m.pageMap root).add (va / pgSize) k
          (fun i => ((pa + i * pgSize) % 2 ^ 64 / pgSize, perm ||| pteV)) ∧
        (∀ i < k, m.pageMap root (va / pgSize + i) = none) ∧
        if r.1 = true then va / pgSize + k = (va + size - 1) % 2 ^ 64 / pgSize + 1
        else va / pgSize ≤ (va + size - 1) % 2 ^ 64 / pgSize →
          va / pgSize + k ≤ (va + size - 1) % 2 ^ 64 / pgSize := by
  rw [Pointer.mappages]
  split_ifs
  · trivial
  · have hsim := mappagesLoop_simulates (pgRoundDown ((va + size - 1) % 2 ^ 64)) perm
      (maxVa / pgSize + 1) (pgRoundDown va) pa (Stands.of_apart h)
    refine (hsim.ensures (mappagesLoop_leaves _)).mono ?_
    rintro ⟨b, m'⟩ ⟨s, ⟨hb, hst, hroot⟩, k, hleaf, hfree, hend⟩
    obtain ⟨hwf, hmap⟩ := hst.wellFormed hroot
    refine ⟨hwf, k, hmap.trans (map_mapRange hperm hleaf), fun i hi => ?_, ?_⟩
    · exact Pte.binding_eq_none_iff.mpr (hfree i hi)
    · rwa [← hb] at hend

theorem uvmunmap (kend va npages : ℕ) {doFree : Bool}
    (hfree : doFree = true → ∀ i < Pointer.rounds va npages, ∀ e,
      m.pageMap root (va / pgSize + i) = some e → (m.pageTable root).tables e.1 = 0) :
    Ensures (Pointer.uvmunmap kend root va npages doFree m) (fun _ => True) fun m' =>
      WellFormed m' root ∧
        m'.pageMap root = (m.pageMap root).remove (va / pgSize) (Pointer.rounds va npages) ∧
        ∀ i < Pointer.rounds va npages, (m.pageMap root (va / pgSize + i)).isSome = true := by
  rw [Pointer.uvmunmap]
  split_ifs with halign
  · trivial
  · have hva : va / pgSize * pgSize = va := by
      simp only [pgSize] at halign ⊢
      omega
    have htables : doFree = true → ∀ w, va / pgSize ≤ w →
        w < va / pgSize + Pointer.rounds va npages →
        ((m.pageTable root).leaf w).has pteV = true →
        (m.pageTable root).tables ((m.pageTable root).leaf w).frame = 0 := by
      intro hdo w hw hw' hV
      have hbound : m.pageMap root (va / pgSize + (w - va / pgSize)) =
          some (((m.pageTable root).leaf w).frame, pteFlags ((m.pageTable root).leaf w)) := by
        rw [Nat.add_sub_of_le hw]
        exact if_pos hV
      have hi : w - va / pgSize < Pointer.rounds va npages := by omega
      exact (hfree hdo _ hi _ hbound :)
    have hsim := Pointer.uvmunmapLoop_simulates kend doFree (Pointer.rounds va npages)
      (va / pgSize) (Stands.of_apart h) htables
    have hloop := @uvmunmapLoop_leaves kend doFree (Pointer.rounds va npages) (va / pgSize)
      (m.pageTable root) m
    rw [hva] at hsim hloop
    refine (hsim.ensures hloop).mono ?_
    rintro m' ⟨s, ⟨hst, hroot⟩, hleaf, -, hvalid⟩
    obtain ⟨hwf, hmap⟩ := hst.wellFormed hroot
    refine ⟨hwf, hmap.trans (map_clearRange hleaf), fun i hi => ?_⟩
    exact Pte.binding_isSome_iff.mpr (hvalid i hi)

theorem uvmunmap_returns (kend : ℕ) {npages : ℕ} (halign : va % pgSize = 0)
    (hbound : ∀ i < npages, ∃ e, m.pageMap root (va / pgSize + i) = some e ∧ e.2 ≠ pteV) :
    ∃ m', Pointer.uvmunmap kend root va npages false m = .ok m' ∧
      m'.pageMap root = (m.pageMap root).remove (va / pgSize) npages := by
  have hva : va / pgSize * pgSize = va := by
    simp only [pgSize] at halign ⊢
    omega
  -- bound pages lie below `MAXVA`, so that the bound of the loop does not wrap
  have hrounds : Pointer.rounds va npages = npages := by
    cases npages with
    | zero => exact Nat.le_zero.mp (Pointer.rounds_le va 0)
    | succ k =>
      obtain ⟨e, he, -⟩ := hbound k (by omega)
      have hlt : va / pgSize + k < maxVa / pgSize := by
        by_contra hge
        rw [Phys.pageMap, PageTable.map_eq_none (by omega)] at he
        cases he
      apply Pointer.rounds_eq
      simp only [maxVa, pgSize] at hlt halign ⊢
      omega
  have hleaf : ∀ i < npages, ((m.pageTable root).leaf (va / pgSize + i)).has pteV = true ∧
      pteFlags ((m.pageTable root).leaf (va / pgSize + i)) ≠ pteV := by
    intro i hi
    obtain ⟨e, he, hne⟩ := hbound i hi
    obtain ⟨hV, rfl⟩ := Pte.binding_eq_some_iff.mp he
    exact ⟨hV, hne⟩
  have hloop := @uvmunmapLoop_returns kend npages _ _ m hleaf
  have hsim := Pointer.uvmunmapLoop_simulates kend false npages (va / pgSize) (Stands.of_apart h)
    fun hdo => Bool.noConfusion hdo
  obtain ⟨m', hrun, -⟩ := (hsim.ensures hloop).exists_ok
  have hcall : Pointer.uvmunmap kend root va npages false m = .ok m' := by
    rw [Pointer.uvmunmap, if_neg (not_not.mpr halign), hrounds]
    rwa [hva] at hrun
  have hmap := ((h.uvmunmap kend va npages fun hdo => Bool.noConfusion hdo).of_ok hcall).2.1
  rw [hrounds] at hmap
  exact ⟨m', hcall, hmap⟩

end WellFormed

/-- **A page table is a finite map** from the virtual pages below `MAXVA` to frames and flags.
`walk` finds a binding and changes none; `mappages` binds unbound pages in order, all of them when
it returns 0; `uvmunmap` unbinds as many bound pages as it has rounds, which are `npages` unless the
64-bit sum `va + npages*PGSIZE` wraps, and returns where the mappings exist; and entries decode to
what they were built from. The pages that `uvmunmap` frees must not be those of the table. -/
theorem pageTable_finite_map {m : Phys} {root : ℕ} (h : WellFormed m root) :
    (∀ v, maxVa / pgSize ≤ v → m.pageMap root v = none) ∧
    (∀ va < maxVa, ∃ p, Pointer.walk root va false m = .ok (p, m) ∧
      (∀ q, p = some q → (m.load q).binding = m.pageMap root (va / pgSize)) ∧
      (p = none → m.pageMap root (va / pgSize) = none)) ∧
    (∀ va < maxVa, ∃ p m', Pointer.walk root va true m = .ok (p, m') ∧ WellFormed m' root ∧
      m'.pageMap root = m.pageMap root) ∧
    (∀ va size pa (perm : Pte), perm.toNat < 1024 →
      Ensures (Pointer.mappages root va size pa perm m) (fun _ => True) fun r =>
        WellFormed r.2 root ∧ ∃ k, r.2.pageMap root = (m.pageMap root).add (va / pgSize) k
            (fun i => ((pa + i * pgSize) % 2 ^ 64 / pgSize, perm ||| pteV)) ∧
          (∀ i < k, m.pageMap root (va / pgSize + i) = none) ∧
          if r.1 = true then va / pgSize + k = (va + size - 1) % 2 ^ 64 / pgSize + 1
          else va / pgSize ≤ (va + size - 1) % 2 ^ 64 / pgSize →
            va / pgSize + k ≤ (va + size - 1) % 2 ^ 64 / pgSize) ∧
    (∀ kend va npages doFree,
      (doFree = true → ∀ i < Pointer.rounds va npages, ∀ e,
        m.pageMap root (va / pgSize + i) = some e → (m.pageTable root).tables e.1 = 0) →
      Ensures (Pointer.uvmunmap kend root va npages doFree m) (fun _ => True) fun m' =>
        WellFormed m' root ∧
        m'.pageMap root = (m.pageMap root).remove (va / pgSize) (Pointer.rounds va npages) ∧
        (∀ i < Pointer.rounds va npages, (m.pageMap root (va / pgSize + i)).isSome = true) ∧
        (va + npages * pgSize < 2 ^ 64 → Pointer.rounds va npages = npages)) ∧
    (∀ kend va npages, va % pgSize = 0 →
      (∀ i < npages, ∃ e, m.pageMap root (va / pgSize + i) = some e ∧ e.2 ≠ pteV) →
      ∃ m', Pointer.uvmunmap kend root va npages false m = .ok m' ∧
        m'.pageMap root = (m.pageMap root).remove (va / pgSize) npages) ∧
    ∀ pa (fl : Pte), pa % pgSize = 0 → pa < 2 ^ 56 → fl.toNat < 1024 →
      pte2pa (pa2pte pa ||| fl) = pa ∧ pteFlags (pa2pte pa ||| fl) = fl := by
  refine ⟨fun v hv => PageTable.map_eq_none hv, fun va hva => h.walk_false hva,
    fun va hva => h.walk_true hva, fun va size pa perm hperm => ?_,
    fun kend va npages doFree hfree => ?_,
    fun kend va npages halign hbound => h.uvmunmap_returns kend halign hbound,
    fun pa fl hpa hlt hfl => ?_⟩
  · exact h.mappages va size pa (isFlags_of_lt hperm)
  · refine (h.uvmunmap kend va npages hfree).mono ?_
    rintro m' ⟨hwf, hmap, hbound⟩
    exact ⟨hwf, hmap, hbound, Pointer.rounds_eq⟩
  · have hflags := isFlags_of_lt hfl
    exact ⟨pte2pa_pa2pte_or hpa hlt hflags, pteFlags_pa2pte_or pa hflags⟩

/-- A zeroed memory with three free pages, in which the page 4 is the root of an empty table. -/
def blank : Phys := ⟨[5, 6, 7], fun _ => 0, fun _ _ => 0⟩

theorem blank_wellFormed : WellFormed blank 4 := by
  have htable : blank.table 2 4 = Table.zero 2 := Phys.table_of_load_eq_zero fun i => wordAt_zero i
  have htables : (blank.pageTable 4).tables = ref 4 := by
    rw [tables, Phys.pageTable, htable, pages_zero, add_zero]
  rw [WellFormed, htables]
  refine ⟨fun g => ?_, ?_, by decide, fun _ _ => rfl, by decide⟩
  · rw [ref]
    split_ifs <;> omega
  · decide

/-- Mapping the pages 1 and 2 of the empty table takes two pages for its lower levels. -/
theorem pageTable_finite_map_blank :
    ∃ m', Pointer.mappages 4 4096 8192 36864 (pteR ||| pteW) blank = .ok (true, m') ∧
      m'.pageMap 4 = (blank.pageMap 4).add 1 2
        (fun i => ((36864 + i * pgSize) % 2 ^ 64 / pgSize, pteR ||| pteW ||| pteV)) := by
  have hrun : ((Pointer.mappages 4 4096 8192 36864 (pteR ||| pteW) blank).toOption.map Prod.fst) =
      some true := by decide +kernel
  have hmap := (pageTable_finite_map blank_wellFormed).2.2.2.1 4096 8192 36864
  -- the run is known to return, and is not to be evaluated again
  generalize Pointer.mappages 4 4096 8192 36864 = run at hrun hmap ⊢
  cases hr : run (pteR ||| pteW) blank with
  | error e =>
    rw [hr] at hrun
    cases hrun
  | ok r =>
    obtain ⟨b, m'⟩ := r
    rw [hr] at hrun
    cases hrun
    obtain ⟨-, k, hadd, -, hk⟩ := (hmap (pteR ||| pteW) (by decide)).of_ok hr
    have hk2 : k = 2 := by
      rw [if_pos rfl] at hk
      simp only [pgSize] at hk
      omega
    rw [hk2] at hadd
    exact ⟨m', rfl, hadd⟩

end Xv6
