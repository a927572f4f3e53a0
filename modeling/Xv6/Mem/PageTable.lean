import Mathlib.Algebra.BigOperators.Fin
import Xv6.Lib.Counting
import Xv6.Mem.Kalloc

/-!
# Three-level page tables

The page-table half of `kernel/vm.c`. A page table is a tree of page-table pages: an entry above
the lowest level is invalid, or it holds the frame of the next page; an entry of the lowest level
is a leaf. `walk` descends the tree and may grow it; every page of it is a page the kernel holds.
What a table means is its leaf function, from virtual page numbers to entries.
-/

namespace Xv6

open Function Finset

/-- A page-table page of level `n`. An entry above level 0 is invalid, or it is
`PA2PTE(g) | PTE_V` for the frame `g` of a page of the level below. -/
def Table : ℕ → Type
  | 0 => Fin 512 → Pte
  | n + 1 => Fin 512 → Option (ℕ × Table n)

/-- The 512 entries of a page-table page, in the order of `freewalk`'s loop. -/
@[irreducible] def slots : List (Fin 512) := List.finRange 512

theorem mem_slots (i : Fin 512) : i ∈ slots := by
  unfold slots
  exact List.mem_finRange i

theorem sum_slots (F : Fin 512 → ℕ → ℕ) : ∑ i, F i = (slots.map F).sum := by
  unfold slots
  exact Fin.sum_univ_def F

namespace Table

def zero : (n : ℕ) → Table n
  | 0 => fun _ => 0#64
  | _ + 1 => fun _ => none

def entry {n : ℕ} (t : Table (n + 1)) (i : Fin 512) : Option (ℕ × Table n) := t i

/-- The page with the entry at an index above level 0 replaced. -/
def setEntry {n : ℕ} (t : Table (n + 1)) (i : Fin 512) (e : Option (ℕ × Table n)) : Table (n + 1) :=
  update (β := fun _ => Option (ℕ × Table n)) t i e

/-- The loop of `walk` from a page of level `n` down: whether a pointer to the leaf entry of `va`
results, and the tree and the memory it leaves. -/
def walk (alloc : Bool) (va : ℕ) : (n : ℕ) → Table n → Phys → Except Panic (Bool × Table n × Phys)
  | 0, t, m => .ok (true, t, m)
  | n + 1, t, m =>
    match t.entry (px (n + 1) va) with
    | some (g, below) => do
      let (r, below, m) ← walk alloc va n below m
      return (r, t.setEntry (px (n + 1) va) (some (g, below)), m)
    | none =>
      if alloc then do
        let (page, m) ← kalloc m
        match page with
        | none => return (false, t, m)
        | some g =>
          let (r, below, m) ← walk alloc va n (zero n) (m.memset g 0)
          return (r, t.setEntry (px (n + 1) va) (some (g, below)), m)
      else
        return (false, t, m)

/-- Whether the pages on the way to the leaf entry of `va` exist. -/
def mapped (va : ℕ) : (n : ℕ) → Table n → Bool
  | 0, _ => true
  | n + 1, t =>
    match t.entry (px (n + 1) va) with
    | some (_, below) => mapped va n below
    | none => false

/-- The leaf entry of `va`, zero where no page holds it. -/
def pte (va : ℕ) : (n : ℕ) → Table n → Pte
  | 0, t => (t : Fin 512 → Pte) (px 0 va)
  | n + 1, t =>
    match t.entry (px (n + 1) va) with
    | some (_, below) => pte va n below
    | none => 0#64

/-- The store `*pte = x` through the pointer to the leaf entry of `va`. -/
def setPte (va : ℕ) (x : Pte) : (n : ℕ) → Table n → Table n
  | 0, t => update (β := fun _ => Pte) t (px 0 va) x
  | n + 1, t =>
    match t.entry (px (n + 1) va) with
    | some (g, below) => t.setEntry (px (n + 1) va) (some (g, setPte va x n below))
    | none => t

end Table

open Table

/-- A page table: the frame of its root page and the tree below. -/
structure PageTable where
  root : ℕ
  tab : Table 2

namespace PageTable

/-- `walk`: whether a pointer to the entry of `va` results; with `alloc`, missing page-table pages
are created. -/
def walk (pt : PageTable) (va : ℕ) (alloc : Bool) (m : Phys) :
    Except Panic (Bool × PageTable × Phys) :=
  if maxVa ≤ va then .error .walk
  else do
    let (r, tab, m) ← Table.walk alloc va 2 pt.tab m
    return (r, { pt with tab }, m)

/-- Whether `walk` finds the entry of `va`. -/
def mapped (pt : PageTable) (va : ℕ) : Bool := Table.mapped va 2 pt.tab

/-- The entry a walked pointer to `va` reads. -/
def pte (pt : PageTable) (va : ℕ) : Pte := Table.pte va 2 pt.tab

/-- The table after a store through a walked pointer to `va`. -/
def setPte (pt : PageTable) (va : ℕ) (x : Pte) : PageTable :=
  { pt with tab := Table.setPte va x 2 pt.tab }

/-- The leaf entry of the virtual page `v`. -/
@[irreducible] def leaf (pt : PageTable) (v : ℕ) : Pte :=
  if v < maxVa / pgSize then pt.pte (v * pgSize) else 0#64

end PageTable

/-- The loop of `mappages`. A page past `MAXVA` makes `walk` panic, so `fuel` above the number of
pages never runs out before. -/
def mappagesLoop (last : ℕ) (perm : Pte) :
    (fuel : ℕ) → (a pa : ℕ) → PageTable → Phys → Except Panic (Bool × PageTable × Phys)
  | 0, _, _, _, _ => .error .walk
  | fuel + 1, a, pa, pt, m => do
    let (r, pt, m) ← pt.walk a true m
    if r then
      if (pt.pte a).has pteV then .error .mappagesRemap
      else
        let pt := pt.setPte a (pa2pte pa ||| perm ||| pteV)
        if a = last then return (true, pt, m)
        else mappagesLoop last perm fuel (a + pgSize) (pa + pgSize) pt m
    else
      return (false, pt, m)

/-- `mappages`: map `[va, va + size)` to the physical pages from `pa` on. `false` is the source's
`-1`: `walk` could not allocate a page-table page. -/
def mappages (pt : PageTable) (va size pa : ℕ) (perm : Pte) (m : Phys) :
    Except Panic (Bool × PageTable × Phys) :=
  if size = 0 then .error .mappagesSize
  else mappagesLoop (pgRoundDown (va + size - 1)) perm (maxVa / pgSize + 1) (pgRoundDown va) pa pt m

/-- The loop of `uvmunmap`, over `n` pages from `a`. -/
def uvmunmapLoop (kend : ℕ) (doFree : Bool) :
    (n a : ℕ) → PageTable → Phys → Except Panic (PageTable × Phys)
  | 0, _, pt, m => .ok (pt, m)
  | n + 1, a, pt, m => do
    let (r, pt, m) ← pt.walk a false m
    if r = false then .error .uvmunmapWalk
    else if (pt.pte a).has pteV = false then .error .uvmunmapMapped
    else if pteFlags (pt.pte a) = pteV then .error .uvmunmapLeaf
    else
      let m ← if doFree then kfree kend (pte2pa (pt.pte a)) m else .ok m
      uvmunmapLoop kend doFree n (a + pgSize) (pt.setPte a 0#64) m

/-- `uvmunmap`: remove `npages` mappings from `va` on, optionally freeing the pages. -/
def uvmunmap (kend : ℕ) (pt : PageTable) (va npages : ℕ) (doFree : Bool) (m : Phys) :
    Except Panic (PageTable × Phys) :=
  if va % pgSize ≠ 0 then .error .uvmunmapAligned
  else uvmunmapLoop kend doFree npages va pt m

/-- The body of `freewalk`'s loop: free the page-table page below an entry, if there is one. -/
def freeEntry {n : ℕ} (free : ℕ → Table n → Phys → Except Panic Phys)
    (e : Option (ℕ × Table n)) (m : Phys) : Except Panic Phys :=
  match e with
  | some (g, below) => free g below m
  | none => .ok m

/-- `freewalk`, on the page-table page `f` of level `n`. At the lowest level every valid entry is a
leaf: each has a permission bit. -/
def freewalk (kend : ℕ) : (n f : ℕ) → Table n → Phys → Except Panic Phys
  | 0, f, t, m =>
    if slots.any fun i => Pte.has ((t : Fin 512 → Pte) i) pteV then
      .error .freewalkLeaf
    else kfree kend (f * pgSize) m
  | n + 1, f, t, m => do
    let m ← slots.foldlM (fun m i => freeEntry (freewalk kend n) (t.entry i) m) m
    kfree kend (f * pgSize) m

/-! ## Leaves and pages of a tree -/

namespace Table

variable {n : ℕ} {i : Fin 512} {t : Table (n + 1)} {g va : ℕ}

@[simp] theorem entry_setEntry_self (t : Table (n + 1)) (i : Fin 512) (e : Option (ℕ × Table n)) :
    (t.setEntry i e).entry i = e := update_self ..

theorem entry_setEntry_of_ne (t : Table (n + 1)) {j : Fin 512} (h : j ≠ i)
    (e : Option (ℕ × Table n)) : (t.setEntry i e).entry j = t.entry j :=
  update_of_ne h ..

theorem setEntry_entry (t : Table (n + 1)) (i : Fin 512) : t.setEntry i (t.entry i) = t :=
  update_eq_self ..

@[simp] theorem entry_zero (i : Fin 512) : (zero (n + 1)).entry i = none := rfl

theorem pte_of_entry_none (h : t.entry (px (n + 1) va) = none) : pte va (n + 1) t = 0#64 := by
  simp [pte, h]

theorem pte_of_entry_some {below : Table n} (h : t.entry (px (n + 1) va) = some (g, below)) :
    pte va (n + 1) t = pte va n below := by
  simp [pte, h]

theorem pte_zero (va n : ℕ) : pte va n (zero n) = 0#64 := by
  cases n <;> simp [pte, zero, entry]

/-- The references to page-table pages that a page of level `n` holds. -/
def pages : (n : ℕ) → Table n → ℕ → ℕ
  | 0, _ => 0
  | n + 1, t => ∑ i, match t.entry i with
    | some (g, below) => ref g + pages n below
    | none => 0

def entryPages (e : Option (ℕ × Table n)) : ℕ → ℕ :=
  match e with
  | some (g, below) => ref g + pages n below
  | none => 0

theorem pages_succ (t : Table (n + 1)) : pages (n + 1) t = ∑ i, entryPages (t.entry i) := rfl

theorem pages_zero (n : ℕ) : pages n (zero n) = 0 := by
  cases n with
  | zero => rfl
  | succ n => simp [pages_succ, entryPages]

theorem pages_setEntry_add (t : Table (n + 1)) (i : Fin 512) (e : Option (ℕ × Table n)) :
    pages (n + 1) (t.setEntry i e) + entryPages (t.entry i) = pages (n + 1) t + entryPages e :=
  Counting.sum_update_add (entryPages (n := n)) t i e

theorem pages_setEntry (t : Table (n + 1)) (i : Fin 512) (e : Option (ℕ × Table n)) :
    pages (n + 1) (t.setEntry i e) = pages (n + 1) (t.setEntry i none) + entryPages e := by
  have h : (t.setEntry i none).setEntry i e = t.setEntry i e := update_idem ..
  have hsum := pages_setEntry_add (t.setEntry i none) i e
  rwa [h, entry_setEntry_self, entryPages, add_zero] at hsum

theorem pages_eq (t : Table (n + 1)) (i : Fin 512) :
    pages (n + 1) t = pages (n + 1) (t.setEntry i none) + entryPages (t.entry i) := by
  rw [← pages_setEntry, setEntry_entry]

theorem pte_setEntry_of_ne (h : px (n + 1) va ≠ i) (e : Option (ℕ × Table n)) :
    pte va (n + 1) (t.setEntry i e) = pte va (n + 1) t := by
  simp only [pte, entry_setEntry_of_ne t h]

theorem pte_setEntry_self (h : px (n + 1) va = i) (below : Table n) :
    pte va (n + 1) (t.setEntry i (some (g, below))) = pte va n below := by
  subst h
  simp [pte]

theorem mapped_setEntry_self (t : Table (n + 1)) (below : Table n) :
    mapped va (n + 1) (t.setEntry (px (n + 1) va) (some (g, below))) = mapped va n below := by
  simp [mapped]

theorem walk_leaves {alloc : Bool} (n : ℕ) : ∀ {t : Table n} {m : Phys},
    Ensures (walk alloc va n t m) (fun _ => True) fun r =>
      (∀ va', pte va' n r.2.1 = pte va' n t) ∧ (r.1 = true → mapped va n r.2.1 = true) ∧
        ∀ f, pages n t f ≤ pages n r.2.1 f := by
  induction n with
  | zero =>
    intro t m
    exact ⟨fun _ => rfl, fun _ => rfl, fun _ => le_rfl⟩
  | succ n ih =>
    intro t m
    cases he : t.entry (px (n + 1) va) with
    | some e =>
      obtain ⟨g, below⟩ := e
      simp only [walk, he]
      refine ih.bind ?_
      rintro ⟨r, below', m'⟩ ⟨hpte, hmap, hpages⟩
      refine ⟨fun va' => ?_, fun hr => ?_, fun f => ?_⟩
      · by_cases hv : px (n + 1) va' = px (n + 1) va
        · rw [pte_setEntry_self hv, hpte, pte_of_entry_some (hv ▸ he)]
        · exact pte_setEntry_of_ne hv _
      · rw [mapped_setEntry_self]
        exact hmap hr
      · have hle : pages n below f ≤ pages n below' f := hpages f
        have hold := congrFun (pages_eq t (px (n + 1) va)) f
        have hnew := congrFun (pages_setEntry t (px (n + 1) va) (some (g, below'))) f
        rw [he] at hold
        simp only [entryPages, Pi.add_apply] at hold hnew ⊢
        omega
    | none =>
      simp only [walk, he]
      cases alloc with
      | false => exact ⟨fun _ => rfl, fun hr => by simp at hr, fun _ => le_rfl⟩
      | true =>
        refine (Ensures.any _).bind ?_
        rintro ⟨_ | g, m1⟩ -
        · exact ⟨fun _ => rfl, fun hr => by simp at hr, fun _ => le_rfl⟩
        · refine ih.bind ?_
          rintro ⟨r, below', m'⟩ ⟨hpte, hmap, -⟩
          refine ⟨fun va' => ?_, fun hr => ?_, fun f => ?_⟩
          · by_cases hv : px (n + 1) va' = px (n + 1) va
            · rw [pte_setEntry_self hv, hpte, pte_of_entry_none (hv ▸ he), pte_zero]
            · exact pte_setEntry_of_ne hv _
          · rw [mapped_setEntry_self]
            exact hmap hr
          · have hold := congrFun (pages_eq t (px (n + 1) va)) f
            have hnew := congrFun (pages_setEntry t (px (n + 1) va) (some (g, below'))) f
            rw [he] at hold
            simp only [entryPages, Pi.add_apply, Pi.zero_apply] at hold hnew ⊢
            omega

/-- Every page that the loop of `walk` adds to the tree is one the kernel holds from then on. -/
theorem walk_spec {kend : ℕ} {E : Panic → Prop} {alloc : Bool} {U : ℕ → ℕ} (n : ℕ) :
    ∀ {t : Table n} {m : Phys} {K : ℕ → ℕ}, Acct kend m (K + pages n t) U →
      Ensures (walk alloc va n t m) E fun r => Acct kend r.2.2 (K + pages n r.2.1) U ∧
        ∀ g, (K + pages n t) g + U g ≠ 0 → r.2.2.mem g = m.mem g := by
  induction n with
  | zero =>
    intro t m K h
    exact ⟨h, fun _ _ => rfl⟩
  | succ n ih =>
    intro t m K h
    have hpages := pages_eq t (px (n + 1) va)
    cases he : t.entry (px (n + 1) va) with
    | some e =>
      obtain ⟨g, below⟩ := e
      rw [he] at hpages
      have hacct : Acct kend m
          ((K + pages (n + 1) (t.setEntry (px (n + 1) va) none) + ref g) + pages n below) U := by
        rw [hpages, entryPages] at h
        rwa [add_assoc, add_assoc]
      simp only [walk, he]
      refine (ih hacct).bind ?_
      rintro ⟨r, below', m'⟩ ⟨hA, hmem⟩
      refine ⟨?_, fun f hf => hmem f ?_⟩
      · rw [pages_setEntry, entryPages]
        rwa [add_assoc, add_assoc] at hA
      · rwa [hpages, entryPages, ← add_assoc, ← add_assoc] at hf
    | none =>
      rw [he, entryPages, add_zero] at hpages
      simp only [walk, he]
      cases alloc with
      | false => exact ⟨h, fun _ _ => rfl⟩
      | true =>
        refine (Acct.kalloc_spec h).bind ?_
        rintro ⟨page, m1⟩ (⟨hr, -⟩ | ⟨g, rfl, hK, hU, hA, -, hmem1⟩)
        · cases hr
          exact ⟨h, fun _ _ => rfl⟩
        · have hacct : Acct kend (m1.memset g 0)
              ((K + pages (n + 1) (t.setEntry (px (n + 1) va) none) + ref g) +
                pages n (zero n)) U := by
            rw [pages_zero, add_zero, ← hpages]
            exact hA.congr rfl rfl
          refine (ih hacct).bind ?_
          rintro ⟨r, below', m'⟩ ⟨hA', hmem⟩
          refine ⟨?_, fun f hf => ?_⟩
          · rw [pages_setEntry, entryPages]
            rwa [add_assoc, add_assoc] at hA'
          · have hne : f ≠ g := by
              rintro rfl
              exact hf (by rw [hK, hU])
            rw [hmem f (by simp [hpages] at hf ⊢; omega), Phys.memset_mem,
              update_of_ne hne, hmem1, update_of_ne hne]

theorem walk_entry {alloc : Bool} {t' : Table (n + 1)} {m m' : Phys} {r : Bool}
    (h : walk alloc va (n + 1) t m = .ok (r, t', m')) (hi : i ≠ px (n + 1) va) :
    t'.entry i = t.entry i := by
  rw [walk] at h
  split at h
  · obtain ⟨⟨r1, below, m1⟩, -, h⟩ := Except.bind_eq_ok_iff.mp h
    cases h
    exact entry_setEntry_of_ne t hi _
  · split_ifs at h
    · obtain ⟨⟨page, m1⟩, -, h⟩ := Except.bind_eq_ok_iff.mp h
      cases page with
      | none =>
        cases h
        rfl
      | some g =>
        obtain ⟨⟨r1, below, m2⟩, -, h⟩ := Except.bind_eq_ok_iff.mp h
        cases h
        exact entry_setEntry_of_ne t hi _
    · cases h
      rfl

theorem setPte_entry {x : Pte} (hi : i ≠ px (n + 1) va) :
    (setPte va x (n + 1) t).entry i = t.entry i := by
  rw [setPte]
  split
  · exact entry_setEntry_of_ne t hi _
  · rfl

theorem walk_false (va n : ℕ) (t : Table n) (m : Phys) :
    walk false va n t m = .ok (mapped va n t, t, m) := by
  induction n with
  | zero => rfl
  | succ n ih =>
    cases he : t.entry (px (n + 1) va) with
    | some e =>
      obtain ⟨g, below⟩ := e
      simp only [walk, mapped, he, ih, bind, Except.bind, pure, Except.pure]
      rw [← he, setEntry_entry]
    | none => simp [walk, mapped, he, pure, Except.pure]

theorem pte_setPte {x : Pte} (va' : ℕ) (n : ℕ) :
    ∀ {t : Table n}, mapped va n t = true →
      pte va' n (setPte va x n t) =
        if ∀ i ≤ n, px i va' = px i va then x else pte va' n t := by
  induction n with
  | zero =>
    intro t _
    by_cases hp : px 0 va' = px 0 va
    · rw [if_pos fun i hi => by rwa [Nat.le_zero.mp hi], pte, hp]
      exact update_self ..
    · rw [if_neg fun h => hp (h 0 (le_refl 0))]
      exact update_of_ne hp ..
  | succ n ih =>
    intro t hm
    cases he : t.entry (px (n + 1) va) with
    | none => simp [mapped, he] at hm
    | some e =>
      obtain ⟨g, below⟩ := e
      have hb : mapped va n below = true := by simpa [mapped, he] using hm
      have hset : setPte va x (n + 1) t =
          t.setEntry (px (n + 1) va) (some (g, setPte va x n below)) := by simp [setPte, he]
      rw [hset]
      by_cases hp : px (n + 1) va' = px (n + 1) va
      · rw [pte_setEntry_self hp, ih hb, pte_of_entry_some (hp ▸ he)]
        refine if_congr ⟨fun h i hi => ?_, fun h i hi => h i (by omega)⟩ rfl rfl
        rcases Nat.lt_or_eq_of_le hi with hlt | rfl
        · exact h i (by omega)
        · exact hp
      · rw [pte_setEntry_of_ne hp, if_neg fun h => hp (h (n + 1) (le_refl _))]

theorem pte_of_not_mapped (va n : ℕ) (t : Table n) (h : mapped va n t = false) :
    pte va n t = 0#64 := by
  induction n with
  | zero => cases h
  | succ n ih =>
    cases he : t.entry (px (n + 1) va) with
    | none => exact pte_of_entry_none he
    | some e =>
      obtain ⟨g, below⟩ := e
      rw [pte_of_entry_some he]
      exact ih below (by simpa [mapped, he] using h)

theorem pte_congr {va' : ℕ} (n : ℕ) (h : ∀ i ≤ n, px i va' = px i va) (t : Table n) :
    pte va' n t = pte va n t := by
  induction n with
  | zero => rw [pte, pte, h 0 le_rfl]
  | succ n ih =>
    have hbelow := ih fun i hi => h i (by omega)
    simp only [pte, h (n + 1) le_rfl, hbelow]

/-- Every address has, below any entry of a page, an address with its lower indices. -/
theorem exists_px (n : ℕ) (i : Fin 512) (va : ℕ) :
    ∃ va', px (n + 1) va' = i ∧ ∀ j ≤ n, px j va' = px j va := by
  refine ⟨i * 2 ^ (12 + 9 * (n + 1)) + va % 2 ^ (12 + 9 * (n + 1)), Fin.ext ?_, fun j hj =>
    Fin.ext ?_⟩
  · have hlt := Nat.mod_lt va (Nat.two_pow_pos (12 + 9 * (n + 1)))
    simp only [px]
    rw [mul_comm, Nat.mul_add_div (Nat.two_pow_pos _), Nat.div_eq_of_lt hlt, add_zero,
      Nat.mod_eq_of_lt i.isLt]
  · -- the index of level `j` lies in the lower part
    have hpow : 2 ^ (12 + 9 * (n + 1)) = 2 ^ (12 + 9 * j) * (512 * 2 ^ (9 * (n - j))) := by
      rw [show 512 = 2 ^ 9 by rfl, ← pow_add, ← pow_add]
      congr 1
      omega
    simp only [px, hpow]
    rw [mul_comm (i : ℕ), mul_assoc, Nat.mul_add_div (Nat.two_pow_pos _),
      Nat.mod_mul_right_div_self,
      Nat.add_mod, mul_assoc, Nat.mul_mod_right, zero_add, Nat.mod_mod,
      Nat.mod_mul_right_mod]

theorem pages_setPte (va : ℕ) (x : Pte) (n : ℕ) (t : Table n) :
    pages n (setPte va x n t) = pages n t := by
  induction n with
  | zero => rfl
  | succ n ih =>
    cases he : t.entry (px (n + 1) va) with
    | none => simp [setPte, he]
    | some e =>
      obtain ⟨g, below⟩ := e
      simp only [setPte, he]
      rw [pages_setEntry, pages_eq t (px (n + 1) va), he, entryPages, entryPages, ih]

end Table

/-! ## Whole tables -/

namespace PageTable

/-- The references to page-table pages a table holds, its root included. -/
def tables (pt : PageTable) : ℕ → ℕ := ref pt.root + Table.pages 2 pt.tab

/-- The upper half of the root page, which stands for the addresses from `MAXVA` on, is empty. -/
def LowerHalf (pt : PageTable) : Prop := ∀ i : Fin 512, 256 ≤ i.val → pt.tab.entry i = none

theorem px_lt {va : ℕ} (hva : va < maxVa) : (px 2 va).val < 256 := by
  simp only [px, maxVa] at hva ⊢
  omega

theorem LowerHalf.setPte {pt : PageTable} (h : pt.LowerHalf) {va : ℕ} (hva : va < maxVa) (x : Pte) :
    (pt.setPte va x).LowerHalf := fun i hi => by
  have hne : i ≠ px 2 va := by
    rintro rfl
    exact absurd (px_lt hva) (by omega)
  exact (setPte_entry hne).trans (h i hi)

theorem LowerHalf.pte_eq_zero {pt : PageTable} (h : pt.LowerHalf) {va : ℕ} (hva : maxVa ≤ va)
    (hlt : va < 2 * maxVa) : pt.pte va = 0#64 := by
  refine pte_of_entry_none (h _ ?_)
  simp only [px, maxVa] at hva hlt ⊢
  omega

theorem walk_false (pt : PageTable) {va : ℕ} (hva : va < maxVa) (m : Phys) :
    pt.walk va false m = .ok (pt.mapped va, pt, m) := by
  rw [walk, if_neg (Nat.not_le.mpr hva), Table.walk_false]
  rfl

theorem walk_of_maxVa_le (pt : PageTable) {va : ℕ} (hva : maxVa ≤ va) (alloc : Bool) (m : Phys) :
    pt.walk va alloc m = .error .walk := if_pos hva

/-- **Walking** changes no leaf; the pages it adds belong to the table, and no page in use
changes. It panics only from `MAXVA` on. -/
theorem walk_spec {kend : ℕ} {E : Panic → Prop} {pt : PageTable} {m : Phys} {K U : ℕ → ℕ} {va : ℕ}
    {alloc : Bool} (hE : va < maxVa ∨ Panic.RefSafe ≤ E) (h : Acct kend m (K + pt.tables) U) :
    Ensures (pt.walk va alloc m) E fun r =>
      Acct kend r.2.2 (K + r.2.1.tables) U ∧ r.2.1.leaf = pt.leaf ∧ va < maxVa ∧
      (r.1 = true → r.2.1.mapped va = true) ∧
      (∀ g, (K + pt.tables) g + U g ≠ 0 → r.2.2.mem g = m.mem g) ∧
      (pt.LowerHalf → r.2.1.LowerHalf) := by
  rw [walk]
  split_ifs with hva
  · rcases hE with hlt | hE
    · exact absurd hlt (Nat.not_lt.mpr hva)
    · exact hE _ (by simp [Panic.RefSafe])
  · have h' : Acct kend m ((K + ref pt.root) + Table.pages 2 pt.tab) U := by
      rwa [add_assoc]
    cases hw : Table.walk alloc va 2 pt.tab m with
    | error e => exact ((Table.walk_spec (E := fun _ => False) 2 h').of_error hw).elim
    | ok r =>
      obtain ⟨r, tab, m'⟩ := r
      obtain ⟨hA, hmem⟩ := (Table.walk_spec (E := fun _ => False) 2 h').of_ok hw
      obtain ⟨hpte, hmap, -⟩ := (Table.walk_leaves 2).of_ok hw
      refine ⟨?_, funext fun v => ?_, Nat.not_le.mp hva, hmap, fun g hg => hmem g ?_,
        fun hlow i hi => ?_⟩
      · rwa [add_assoc] at hA
      · simp only [leaf, pte, hpte]
      · rwa [tables, ← add_assoc] at hg
      · have hne : i ≠ px 2 va := by
          rintro rfl
          exact absurd (px_lt (Nat.not_le.mp hva)) (by omega)
        exact (walk_entry hw hne).trans (hlow i hi)

@[simp] theorem tables_setPte (pt : PageTable) (va : ℕ) (x : Pte) :
    (pt.setPte va x).tables = pt.tables := by
  simp only [tables, setPte, pages_setPte]

theorem px_page (level va : ℕ) : px level (va / pgSize * pgSize) = px level va := by
  have h : 2 ^ (12 + 9 * level) = 4096 * 2 ^ (9 * level) := by rw [pow_add]; rfl
  simp only [px, h, ← Nat.div_div_eq_div_mul, pgSize, Nat.mul_div_cancel _ (by decide : 0 < 4096)]

theorem pte_page (pt : PageTable) (va : ℕ) : pt.pte (va / pgSize * pgSize) = pt.pte va := by
  have h : ∀ n (t : Table n), Table.pte (va / pgSize * pgSize) n t = Table.pte va n t := by
    intro n
    induction n with
    | zero => intro t; simp only [Table.pte, px_page]
    | succ n ih => intro t; simp only [Table.pte, px_page, ih]
  exact h 2 pt.tab

theorem leaf_page (pt : PageTable) {va : ℕ} (hva : va < maxVa) :
    pt.leaf (va / pgSize) = pt.pte va := by
  rw [leaf, if_pos (by simp only [maxVa, pgSize] at hva ⊢; omega), pte_page]

theorem pte_mul (pt : PageTable) {v : ℕ} (hva : v * pgSize < maxVa) :
    pt.pte (v * pgSize) = pt.leaf v := by
  rw [← leaf_page pt hva, Nat.mul_div_cancel _ (by decide)]

theorem leaf_eq_zero (pt : PageTable) {v : ℕ} (hv : maxVa / pgSize ≤ v) : pt.leaf v = 0#64 := by
  rw [leaf, if_neg (by omega)]

theorem eq_of_px_eq {v w : ℕ} (hv : v < maxVa / pgSize) (hw : w < maxVa / pgSize)
    (h : ∀ i ≤ 2, px i (v * pgSize) = px i (w * pgSize)) : v = w := by
  have h0 := congrArg Fin.val (h 0 (by omega))
  have h1 := congrArg Fin.val (h 1 (by omega))
  have h2 := congrArg Fin.val (h 2 (by omega))
  simp only [px, pgSize, maxVa] at *
  omega

/-- **A store through a walked pointer** changes exactly the leaf of its page. -/
theorem leaf_setPte {pt : PageTable} {va : ℕ} (hva : va < maxVa) (hm : pt.mapped va = true)
    (x : Pte) : (pt.setPte va x).leaf = update pt.leaf (va / pgSize) x := by
  have hv : va / pgSize < maxVa / pgSize := by
    simp only [maxVa, pgSize] at hva ⊢
    omega
  funext w
  by_cases hw : w < maxVa / pgSize
  · rw [leaf, if_pos hw, pte, setPte, pte_setPte _ 2 hm, update_apply]
    refine if_congr ⟨fun h => eq_of_px_eq hw hv fun i hi => ?_, ?_⟩ rfl ?_
    · rw [h i hi, px_page]
    · rintro rfl i -
      exact px_page i va
    · rw [leaf, if_pos hw]
      rfl
  · rw [update_of_ne (by omega), leaf, leaf, if_neg hw, if_neg hw]

theorem leaf_setPte_mul {pt : PageTable} {v : ℕ} (hva : v * pgSize < maxVa)
    (hm : pt.mapped (v * pgSize) = true) (x : Pte) :
    (pt.setPte (v * pgSize) x).leaf = update pt.leaf v x := by
  rw [leaf_setPte hva hm, Nat.mul_div_cancel _ (by decide)]

end PageTable

/-! ## User mappings

The user part of an address space is what lies below the trapframe page. -/

/-- The number of user pages an address space can have: those below `TRAPFRAME`. -/
abbrev userPages : ℕ := trapframeVa / pgSize

theorem div_lt_userPages {a : ℕ} : a / pgSize < userPages ↔ a < trapframeVa := by
  simp only [userPages, trapframeVa, trampolineVa, maxVa, pgSize]
  omega

theorem mul_le_trapframeVa {v : ℕ} (h : v ≤ userPages) : v * pgSize ≤ trapframeVa :=
  (Nat.mul_le_mul_right _ h).trans (Nat.div_mul_le_self ..)

theorem lt_maxVa {a : ℕ} (h : a < trapframeVa) : a < maxVa := h.trans (by decide)

theorem mul_lt_maxVa {v : ℕ} (h : v < userPages) : v * pgSize < maxVa :=
  lt_of_le_of_lt (mul_le_trapframeVa h.le) (by decide)

theorem pgRoundDown_div (a : ℕ) : pgRoundDown a / pgSize = a / pgSize :=
  Nat.mul_div_cancel _ (by decide)

theorem pgRoundDown_lt {a : ℕ} (h : a / pgSize < userPages) : pgRoundDown a < trapframeVa :=
  (Nat.div_mul_le_self ..).trans_lt (div_lt_userPages.mp h)

theorem has_zero (mask : Pte) : Pte.has 0#64 mask = false := by simp [Pte.has]

def leafRef (p : Pte) : ℕ → ℕ := if p.has pteV then ref p.frame else 0

/-- The references the user leaves of a table hold. -/
@[irreducible] def leafRefs (h : ℕ → Pte) : ℕ → ℕ := ∑ v ∈ Finset.range userPages, leafRef (h v)

theorem leafRefs_apply (h : ℕ → Pte) (f : ℕ) :
    leafRefs h f = ∑ v ∈ Finset.range userPages, leafRef (h v) f := by
  unfold leafRefs
  exact Finset.sum_apply ..

variable {pt : PageTable} {E : Panic → Prop} {p : Pte} {kend v : ℕ} {U : ℕ → ℕ}

theorem leafRef_of_valid (hp : p.has pteV = true) : leafRef p = ref p.frame := if_pos hp

theorem leafRef_of_not_valid (hp : p.has pteV = false) : leafRef p = 0 := if_neg (by simp [hp])

theorem leafRef_zero : leafRef 0#64 = 0 := leafRef_of_not_valid (has_zero _)

theorem leafRefs_update_add (h : ℕ → Pte) (hv : v < userPages) (x : Pte) :
    leafRefs (update h v x) + leafRef (h v) = leafRefs h + leafRef x := by
  unfold leafRefs
  exact Counting.sum_range_update_add leafRef h hv x

theorem leafRefs_update_of_le (h : ℕ → Pte) (hv : userPages ≤ v) (x : Pte) :
    leafRefs (update h v x) = leafRefs h := by
  unfold leafRefs
  exact Counting.sum_range_update_of_le leafRef h hv x

variable {h : ℕ → Pte}

theorem leafRefs_relabel {q : Pte} (hV : q.has pteV = (h v).has pteV) (hf : q.frame = (h v).frame) :
    leafRefs (update h v q) = leafRefs h := by
  by_cases hv : v < userPages
  · have href : leafRef q = leafRef (h v) := by rw [leafRef, leafRef, hV, hf]
    have := leafRefs_update_add h hv q
    rw [href] at this
    exact add_right_cancel this
  · exact leafRefs_update_of_le h (by omega) q

theorem leafRefs_ne_zero (hv : v < userPages) (hp : (h v).has pteV = true) :
    leafRefs h (h v).frame ≠ 0 := by
  have hle : leafRef (h v) (h v).frame ≤ leafRefs h (h v).frame := by
    rw [leafRefs_apply]
    exact single_le_sum (f := fun w => leafRef (h w) (h v).frame)
      (fun _ _ => Nat.zero_le _) (mem_range.mpr hv)
  rw [leafRef_of_valid hp, ref_self] at hle
  omega

theorem exists_of_leafRefs_ne_zero {f : ℕ} (hf : leafRefs h f ≠ 0) :
    ∃ v < userPages, (h v).has pteV = true ∧ (h v).frame = f := by
  rw [leafRefs_apply] at hf
  obtain ⟨v, hv, hne⟩ := exists_ne_zero_of_sum_ne_zero hf
  refine ⟨v, mem_range.mp hv, ?_⟩
  rw [leafRef] at hne
  split_ifs at hne with hV
  · refine ⟨hV, ?_⟩
    by_contra hfr
    exact hne (ref_of_ne (Ne.symm hfr))
  · exact absurd rfl hne

theorem two_le_leafRefs {w : ℕ} (hv : v < userPages) (hw : w < userPages) (hne : w ≠ v)
    (hV : (h v).has pteV = true) (hW : (h w).has pteV = true) (hf : (h w).frame = (h v).frame) :
    2 ≤ leafRefs h (h v).frame := by
  have hsum := congrFun (leafRefs_update_add h hv 0#64) (h v).frame
  rw [leafRef_zero, add_zero, Pi.add_apply, leafRef_of_valid hV, ref_self] at hsum
  have h1 : leafRefs (update h v 0#64) (update h v 0#64 w).frame ≠ 0 :=
    leafRefs_ne_zero hw (by rwa [update_of_ne hne])
  rw [update_of_ne hne, hf] at h1
  omega

theorem leafRefs_eq_zero (hh : ∀ v < userPages, (h v).has pteV = false) : leafRefs h = 0 := by
  unfold leafRefs
  exact sum_eq_zero fun v hv => leafRef_of_not_valid (hh v (mem_range.mp hv))

theorem mappages_page (pt : PageTable) (v pa : ℕ) (perm : Pte) (m : Phys) :
    mappages pt (v * pgSize) pgSize pa perm m =
      mappagesLoop (v * pgSize) perm (maxVa / pgSize + 1) (v * pgSize) pa pt m := by
  have hlast : pgRoundDown (v * pgSize + pgSize - 1) = v * pgSize := by
    simp only [pgRoundDown, pgSize]
    omega
  have hfirst : pgRoundDown (v * pgSize) = v * pgSize := by
    simp only [pgRoundDown, pgSize]
    omega
  rw [mappages, if_neg (by decide), hlast, hfirst]

/-- `mappages` of one page `v`, to the frame `f`. It panics only if the page is mapped already or
lies from `MAXVA` on. -/
theorem mappages_spec {m : Phys} {K : ℕ → ℕ} {f : ℕ} {perm : Pte}
    (hE : (v < maxVa / pgSize ∧ (pt.leaf v).has pteV = false) ∨ Panic.RefSafe ≤ E)
    (h : Acct kend m (K + pt.tables) U) :
    Ensures (mappages pt (v * pgSize) pgSize (f * pgSize) perm m) E fun r =>
      Acct kend r.2.2 (K + r.2.1.tables) U ∧
      (∀ g, (K + pt.tables) g + U g ≠ 0 → r.2.2.mem g = m.mem g) ∧
      (pt.LowerHalf → r.2.1.LowerHalf) ∧
      if r.1 = true then (pt.leaf v).has pteV = false ∧
        r.2.1.leaf = update pt.leaf v (pa2pte (f * pgSize) ||| perm ||| pteV)
      else r.2.1.leaf = pt.leaf := by
  have hE' : v * pgSize < maxVa ∨ Panic.RefSafe ≤ E := hE.imp_left fun hv => by
    simp only [maxVa, pgSize] at hv ⊢
    omega
  rw [mappages_page, mappagesLoop]
  refine (PageTable.walk_spec hE' h).bind ?_
  rintro ⟨r, pt', m'⟩ ⟨hA, hleaf, hva, hmap, hmem, hlow⟩
  cases r with
  | false => exact ⟨hA, hmem, hlow, hleaf⟩
  | true =>
    dsimp only
    rw [if_pos rfl, pt'.pte_mul hva, hleaf, if_pos rfl]
    split_ifs with hV
    · rcases hE with ⟨-, hfree⟩ | hE
      · rw [hfree] at hV
        cases hV
      · exact hE _ (by simp [Panic.RefSafe])
    · refine ⟨by simpa using hA, hmem, fun hl => (hlow hl).setPte hva _, ?_⟩
      rw [if_pos rfl]
      exact ⟨by simpa using hV, by rw [PageTable.leaf_setPte_mul hva (hmap rfl), hleaf]⟩

theorem PageTable.mapped_of_has {va : ℕ} {mask : Pte} (h : (pt.pte va).has mask = true) :
    pt.mapped va = true := by
  by_contra hm
  rw [Bool.not_eq_true] at hm
  rw [PageTable.pte, pte_of_not_mapped va 2 pt.tab hm, has_zero] at h
  cases h

/-- An entry that maps a page: valid, and readable as all mappings of the kernel are. -/
def Pte.IsLeaf (p : Pte) : Prop := p.has pteV = true ∧ p.has pteR = true

theorem Pte.IsLeaf.flags_ne (h : p.IsLeaf) : pteFlags p ≠ pteV := by
  intro hf
  have h1 := h.2
  have h2 : (pteFlags p).getLsbD 1 = p.getLsbD 1 := by
    rw [getLsbD_pteFlags]
    simp
  rw [has_pteR, ← h2, hf, getLsbD_pteV] at h1
  cases h1

theorem PageTable.mapped_of_isLeaf (hva : v * pgSize < maxVa) (h : (pt.leaf v).IsLeaf) :
    pt.mapped (v * pgSize) = true := by
  rw [← pt.pte_mul hva] at h
  exact PageTable.mapped_of_has h.1

/-- The leaves with `n` pages from `v` on removed. -/
def clearRange (h : ℕ → Pte) (v n : ℕ) : ℕ → Pte := fun w => if v ≤ w ∧ w < v + n then 0#64 else h w

theorem clearRange_zero (h : ℕ → Pte) (v : ℕ) : clearRange h v 0 = h :=
  funext fun w => if_neg (by omega)

theorem clearRange_succ (h : ℕ → Pte) (v n : ℕ) :
    clearRange (update h v 0#64) (v + 1) n = clearRange h v (n + 1) := by
  funext w
  simp only [clearRange, update_apply]
  split_ifs <;> first | rfl | omega

theorem leafRefs_clearRange_le (h : ℕ → Pte) (v n g : ℕ) :
    leafRefs (clearRange h v n) g ≤ leafRefs h g := by
  rw [leafRefs_apply, leafRefs_apply]
  refine sum_le_sum fun w _ => ?_
  rw [clearRange]
  split_ifs
  · simp [leafRef_zero]
  · exact le_refl _

theorem uvmunmapLoop_step {doFree : Bool} {n : ℕ} {m : Phys} {Q : PageTable × Phys → Prop}
    (hva : v * pgSize < maxVa) (hE : (pt.leaf v).IsLeaf ∨ Panic.RefSafe ≤ E)
    (hrest : (pt.leaf v).has pteV = true →
      (pt.setPte (v * pgSize) 0#64).leaf = update pt.leaf v 0#64 →
      Ensures ((if doFree then kfree kend ((pt.leaf v).frame * pgSize) m else .ok m) >>=
        uvmunmapLoop kend doFree n ((v + 1) * pgSize) (pt.setPte (v * pgSize) 0#64)) E Q) :
    Ensures (uvmunmapLoop kend doFree (n + 1) (v * pgSize) pt m) E Q := by
  simp only [uvmunmapLoop, PageTable.walk_false pt hva, bind, Except.bind, pt.pte_mul hva]
  split_ifs with hmap hV hL hfree
  · rcases hE with hl | hE
    · rw [PageTable.mapped_of_isLeaf hva hl] at hmap
      cases hmap
    · exact hE _ (by simp [Panic.RefSafe])
  · rcases hE with hl | hE
    · rw [hl.1] at hV
      cases hV
    · exact hE _ (by simp [Panic.RefSafe])
  · rcases hE with hl | hE
    · exact absurd hL hl.flags_ne
    · exact hE _ (by simp [Panic.RefSafe])
  all_goals
    have hnext := hrest (by simpa using hV) (PageTable.leaf_setPte_mul hva (by simpa using hmap) _)
    rw [Nat.succ_mul, ← pte2pa_eq] at hnext
  · rwa [if_pos hfree] at hnext
  · rwa [if_neg hfree] at hnext

/-- **`uvmunmap` with freeing**: each removed user leaf gives up its reference, and no page that is
still referenced changes. It panics only if some page of the range is not mapped. -/
theorem uvmunmapLoop_free_spec {K : ℕ → ℕ} (n : ℕ) :
    ∀ {v : ℕ} {pt : PageTable} {m : Phys}, v + n ≤ userPages →
      (∀ w, v ≤ w → w < v + n → (pt.leaf w).IsLeaf) ∨ Panic.RefSafe ≤ E →
      Acct kend m (K + pt.tables) (U + leafRefs pt.leaf) →
      Ensures (uvmunmapLoop kend true n (v * pgSize) pt m) E fun r =>
        r.1.tables = pt.tables ∧ r.1.leaf = clearRange pt.leaf v n ∧
        Acct kend r.2 (K + r.1.tables) (U + leafRefs r.1.leaf) ∧
        (pt.LowerHalf → r.1.LowerHalf) ∧
        ∀ g, (K + pt.tables) g + (U + leafRefs r.1.leaf) g ≠ 0 → r.2.mem g = m.mem g := by
  induction n with
  | zero =>
    intro v pt m _ _ h
    exact ⟨rfl, (clearRange_zero _ _).symm, h, id, fun _ _ => rfl⟩
  | succ n ih =>
    intro v pt m hvn hE h
    have hva : v * pgSize < maxVa := mul_lt_maxVa (by omega)
    refine uvmunmapLoop_step hva (hE.imp_left fun h => h v le_rfl (by omega)) fun hV hset => ?_
    -- the cleared leaf held one reference to its frame
    have hrefs : leafRefs pt.leaf = leafRefs (update pt.leaf v 0#64) + ref (pt.leaf v).frame := by
      have := leafRefs_update_add pt.leaf (show v < userPages by omega) 0#64
      rwa [leafRef_zero, add_zero, leafRef_of_valid hV, eq_comm] at this
    rw [hrefs, ← add_assoc] at h
    refine h.kfree_user.bind ?_
    rintro m1 ⟨hA1, hmem1⟩
    have hE' : (∀ w, v + 1 ≤ w → w < v + 1 + n →
        ((pt.setPte (v * pgSize) 0#64).leaf w).IsLeaf) ∨ Panic.RefSafe ≤ E :=
      hE.imp_left fun h w h1 h2 => by
        rw [hset, update_of_ne (by omega)]
        exact h w (by omega) (by omega)
    have ih' := @ih (v + 1) (pt.setPte (v * pgSize) 0#64) m1 (by omega) hE'
      (by rwa [PageTable.tables_setPte, hset])
    rw [PageTable.tables_setPte, hset, clearRange_succ] at ih'
    refine ih'.mono ?_
    rintro ⟨pt', m'⟩ ⟨ht, hl, hA, hlow, hmem⟩
    refine ⟨ht, hl, hA, fun h => hlow (h.setPte hva _), fun g hg => ?_⟩
    rw [hmem g hg]
    refine hmem1 g ?_
    rintro rfl h0
    have hK : (K + pt.tables) (pt.leaf v).frame = 0 := h.sep _ (by simp)
    have hle := leafRefs_clearRange_le (update pt.leaf v 0#64) (v + 1) n (pt.leaf v).frame
    simp only [hl, ← clearRange_succ, Pi.add_apply] at hg h0 hK
    omega

theorem uvmunmap_keep_spec {m : Phys} (hv : v < maxVa / pgSize)
    (hE : (pt.leaf v).IsLeaf ∨ Panic.RefSafe ≤ E) :
    Ensures (uvmunmap kend pt (v * pgSize) 1 false m) E fun r =>
      r.1.tables = pt.tables ∧ r.1.leaf = update pt.leaf v 0#64 ∧ r.2 = m ∧
      (pt.LowerHalf → r.1.LowerHalf) := by
  have hva : v * pgSize < maxVa := by
    simp only [pgSize, maxVa] at hv ⊢
    omega
  rw [uvmunmap, if_neg (by simp [Nat.mul_mod_left])]
  exact uvmunmapLoop_step hva hE fun _ hset =>
    ⟨PageTable.tables_setPte _ _ _, hset, rfl, fun h => h.setPte hva _⟩

/-- **Freeing a table** gives up the reference to each of its pages; it gets through if and only if
no leaf is left. -/
theorem freewalk_spec (n : ℕ) :
    ∀ {f : ℕ} {t : Table n} {m : Phys} {K : ℕ → ℕ},
      (∀ va, (Table.pte va n t).has pteV = false) ∨ Panic.RefSafe ≤ E →
      Acct kend m (K + (ref f + Table.pages n t)) U →
      Ensures (freewalk kend n f t m) E fun m' =>
        Acct kend m' K U ∧ (∀ va, (Table.pte va n t).has pteV = false) ∧
        ∀ g, (ref f + Table.pages n t) g = 0 → m'.mem g = m.mem g := by
  induction n with
  | zero =>
    intro f t m K hE h
    rw [freewalk]
    split_ifs with hV
    · rcases hE with hno | hE
      · obtain ⟨i, -, hi⟩ := List.any_eq_true.mp hV
        have hp := hno (i * pgSize)
        have hpx : px 0 (i * pgSize) = i := by
          refine Fin.ext ?_
          have := i.isLt
          simp only [px, pgSize]
          omega
        rw [Table.pte, hpx, hi] at hp
        cases hp
      · exact hE _ (by simp [Panic.RefSafe])
    · refine (Acct.kfree_kernel (f := f) (by simpa [Table.pages] using h)).mono ?_
      rintro m' ⟨hA, hmem⟩
      refine ⟨hA, fun va => ?_, fun g hg => hmem g ?_⟩
      · rw [Bool.not_eq_true, List.any_eq_false] at hV
        exact Bool.not_eq_true _ ▸ hV (px 0 va) (mem_slots _)
      · rintro rfl
        simp at hg
  | succ n ih =>
    intro f t m K hE h
    -- no leaf below any entry
    have hbelow : ∀ i g below, t.entry i = some (g, below) →
        (∀ va, (Table.pte va n below).has pteV = false) ∨ Panic.RefSafe ≤ E := by
      intro i g below he
      refine hE.imp_left fun hno va => ?_
      obtain ⟨va', hi, hlower⟩ := exists_px n i va
      rw [← pte_congr n hlower, ← pte_of_entry_some (hi ▸ he)]
      exact hno va'
    -- the loop over a list of entries frees the pages below them
    have hloop : ∀ (l : List (Fin 512)) {m : Phys} {K : ℕ → ℕ},
        Acct kend m (K + (l.map fun i => entryPages (t.entry i)).sum) U →
        Ensures (l.foldlM (fun m i => freeEntry (freewalk kend n) (t.entry i) m) m)
          E fun m' =>
          Acct kend m' K U ∧
          (∀ i ∈ l, ∀ g below, t.entry i = some (g, below) →
            ∀ va, (Table.pte va n below).has pteV = false) ∧
          ∀ g, (l.map fun i => entryPages (t.entry i)).sum g = 0 → m'.mem g = m.mem g := by
      intro l
      induction l with
      | nil =>
        intro m K h
        exact ⟨by simpa using h, fun i hi => by simp at hi, fun _ _ => rfl⟩
      | cons i l ihl =>
        intro m K h
        rw [List.map_cons, List.sum_cons] at h
        simp only [List.foldlM_cons, List.map_cons, List.sum_cons]
        cases he : t.entry i with
        | none =>
          rw [he, entryPages, zero_add] at h
          refine (ihl h).mono ?_
          rintro m' ⟨hA, hl, hmem⟩
          refine ⟨hA, fun j hj g below hj' => ?_, fun g hg => hmem g ?_⟩
          · rcases List.mem_cons.mp hj with rfl | hj
            · simp [he] at hj'
            · exact hl j hj g below hj'
          · simpa [entryPages] using hg
        | some e =>
          obtain ⟨g0, below0⟩ := e
          rw [he, entryPages, add_comm (ref g0 + _), ← add_assoc] at h
          refine (ih (hbelow i g0 below0 he) h).bind ?_
          rintro m1 ⟨hA1, hpte1, hmem1⟩
          refine (ihl hA1).mono ?_
          rintro m' ⟨hA, hl, hmem⟩
          refine ⟨hA, fun j hj g below hj' => ?_, fun g hg => ?_⟩
          · rcases List.mem_cons.mp hj with rfl | hj
            · rw [he] at hj'
              cases hj'
              exact hpte1
            · exact hl j hj g below hj'
          · have hg' : entryPages (some (g0, below0)) g = 0 ∧
                (l.map fun i => entryPages (t.entry i)).sum g = 0 := by
              simpa using hg
            rw [hmem g hg'.2, hmem1 g hg'.1]
    have hsum : Table.pages (n + 1) t = (slots.map fun i => entryPages (t.entry i)).sum := by
      rw [pages_succ, sum_slots]
    rw [freewalk]
    rw [hsum, ← add_assoc] at h
    refine (hloop slots h).bind ?_
    rintro m1 ⟨hA1, hl, hmem1⟩
    refine hA1.kfree_kernel.mono ?_
    rintro m' ⟨hA, hmem⟩
    refine ⟨hA, fun va => ?_, fun g hg => ?_⟩
    · cases he : t.entry (px (n + 1) va) with
      | none => rw [pte_of_entry_none he, has_zero]
      | some e =>
        obtain ⟨g, below⟩ := e
        rw [pte_of_entry_some he]
        exact hl _ (mem_slots _) g below he va
    · rw [hsum] at hg
      have hg' : ref f g = 0 ∧ (slots.map fun i =>
          entryPages (t.entry i)).sum g = 0 := by simpa using hg
      have hne : g ≠ f := by
        rintro rfl
        simp at hg'
      rw [hmem g hne, hmem1 g hg'.2]

end Xv6
