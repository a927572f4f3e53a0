import Mathlib.Algebra.BigOperators.Fin
import Xv6.Lib.Simulates
import Xv6.Mem.Leaves

/-!
# Page tables in memory

`kernel/vm.c` knows a page table as a pointer to its root page: 512 words of 64 bits in physical
memory, an entry above the lowest level being the packed address of the next page. `walk`,
`mappages` and `uvmunmap` are written here on that memory, word by word; `Mem/PageTable` has the
same functions on a tree. As long as the pages of the table are distinct and not on the free list,
an operation on the words has the outcome of that on the tree, and leaves the words of its result.
-/

namespace Xv6

open Function Table Phys

/-! ## Words -/

/-- The 64-bit word at an index of a page, in the byte order of the machine. -/
def wordAt (x : Page) (i : Fin 512) : Pte :=
  BitVec.ofNat 64 (∑ j : Fin 8, (x ⟨8 * i + j, by simp only [pgSize]; omega⟩).toNat * 256 ^ j.val)

/-- The page after the word at an index has been stored. -/
def setWord (x : Page) (i : Fin 512) (p : Pte) : Page := fun o =>
  if o.val / 8 = i then UInt8.ofNat (p.toNat / 256 ^ (o.val % 8)) else x o

theorem wordAt_setWord_self (x : Page) (i : Fin 512) (p : Pte) : wordAt (setWord x i p) i = p := by
  have hbyte : ∀ j : Fin 8, (setWord x i p ⟨8 * i + j, by simp only [pgSize]; omega⟩).toNat =
      p.toNat / 256 ^ j.val % 256 := by
    intro j
    have hdiv : (8 * i.val + j) / 8 = i := by omega
    have hmod : (8 * i.val + j) % 8 = j := by omega
    simp only [setWord, hdiv, hmod, if_true, UInt8.toNat_ofNat']
  have hp := p.isLt
  apply BitVec.eq_of_toNat_eq
  simp only [wordAt, hbyte, BitVec.toNat_ofNat, Fin.sum_univ_eight]
  simp
  omega

variable {i : Fin 512} {f g n va : ℕ} {p : ℕ × Fin 512}

theorem wordAt_setWord_of_ne (x : Page) {k : Fin 512} (h : k ≠ i) (p : Pte) :
    wordAt (setWord x i p) k = wordAt x k := by
  have hbyte : ∀ j : Fin 8, setWord x i p ⟨8 * k + j, by simp only [pgSize]; omega⟩ =
      x ⟨8 * k + j, by simp only [pgSize]; omega⟩ := by
    intro j
    have hk : (8 * k.val + j) / 8 ≠ i := by
      have := Fin.val_ne_of_ne h
      omega
    simp only [setWord, hk, if_false]
  simp only [wordAt, hbyte]

theorem wordAt_zero (i : Fin 512) : wordAt (fun _ => 0) i = 0#64 := by
  simp [wordAt]

/-- `*p`, for a pointer to a word of a page. -/
def Phys.load (m : Phys) (p : ℕ × Fin 512) : Pte := wordAt (m.mem p.1) p.2

/-- `*p = x`. -/
def Phys.store (m : Phys) (p : ℕ × Fin 512) (x : Pte) : Phys :=
  { m with mem := update m.mem p.1 (setWord (m.mem p.1) p.2 x) }

@[simp] theorem Phys.store_freelist (m : Phys) (p : ℕ × Fin 512) (x : Pte) :
    (m.store p x).freelist = m.freelist := rfl

@[simp] theorem Phys.store_pgrc (m : Phys) (p : ℕ × Fin 512) (x : Pte) :
    (m.store p x).pgrc = m.pgrc := rfl

theorem Phys.store_mem_of_ne (m : Phys) (h : g ≠ p.1) (x : Pte) :
    (m.store p x).mem g = m.mem g := update_of_ne h ..

theorem Phys.load_store_self (m : Phys) (p : ℕ × Fin 512) (x : Pte) : (m.store p x).load p = x := by
  simp only [load, store, update_self, wordAt_setWord_self]

theorem Phys.load_store_of_ne (m : Phys) {q : ℕ × Fin 512} (h : q ≠ p) (x : Pte) :
    (m.store p x).load q = m.load q := by
  rcases eq_or_ne q.1 p.1 with hf | hf
  · have hi : q.2 ≠ p.2 := fun hi => h (Prod.ext hf hi)
    simp only [load, store, hf, update_self, wordAt_setWord_of_ne _ hi]
  · simp only [load, store_mem_of_ne m hf]

variable {m m' : Phys}

theorem Phys.load_congr (h : m'.mem f = m.mem f) (i : Fin 512) :
    m'.load (f, i) = m.load (f, i) := by
  simp only [load, h]

/-! ## The code -/

namespace Pointer

/-- The loop of `walk`, from the page `f` of a level down to the lowest. -/
def walkLoop (alloc : Bool) (va : ℕ) :
    (level f : ℕ) → Phys → Except Panic (Option (ℕ × Fin 512) × Phys)
  | 0, f, m => .ok (some (f, px 0 va), m)
  | level + 1, f, m =>
    let pte := m.load (f, px (level + 1) va)
    if pte.has pteV then walkLoop alloc va level pte.frame m
    else if alloc then do
      let (page, m) ← kalloc m
      match page with
      | none => return (none, m)
      | some g =>
        let m := m.memset g 0
        let m := m.store (f, px (level + 1) va) (pa2pte (g * pgSize) ||| pteV)
        walkLoop alloc va level g m
    else
      return (none, m)

/-- `walk`: the pointer to the entry of `va` in the table with the root page `root`, or a null
pointer. -/
def walk (root va : ℕ) (alloc : Bool) (m : Phys) : Except Panic (Option (ℕ × Fin 512) × Phys) :=
  if maxVa ≤ va then .error .walk else walkLoop alloc va 2 root m

/-- The loop of `mappages`. As on trees, the fuel is above the number of pages, and `walk` panics at
the first page from `MAXVA` on. -/
def mappagesLoop (root last : ℕ) (perm : Pte) : (fuel a pa : ℕ) → Phys → Except Panic (Bool × Phys)
  | 0, _, _, _ => .error .walk
  | fuel + 1, a, pa, m => do
    let (pte, m) ← walk root a true m
    match pte with
    | none => return (false, m)
    | some pte =>
      if (m.load pte).has pteV then .error .mappagesRemap
      else
        let m := m.store pte (pa2pte pa ||| perm ||| pteV)
        if a = last then return (true, m)
        else mappagesLoop root last perm fuel (a + pgSize) (pa + pgSize) m

/-- `mappages`, with the 64-bit sum `va + size - 1`; `false` is the source's `-1`. -/
def mappages (root va size pa : ℕ) (perm : Pte) (m : Phys) : Except Panic (Bool × Phys) :=
  if size = 0 then .error .mappagesSize
  else mappagesLoop root (pgRoundDown ((va + size - 1) % 2 ^ 64)) perm (maxVa / pgSize + 1)
    (pgRoundDown va) pa m

/-- The body of `uvmunmap`'s loop, `n` times. -/
def uvmunmapLoop (kend root : ℕ) (doFree : Bool) : (n a : ℕ) → Phys → Except Panic Phys
  | 0, _, m => .ok m
  | n + 1, a, m => do
    let (pte, m) ← walk root a false m
    match pte with
    | none => .error .uvmunmapWalk
    | some pte =>
      if (m.load pte).has pteV = false then .error .uvmunmapMapped
      else if pteFlags (m.load pte) = pteV then .error .uvmunmapLeaf
      else
        let m ← if doFree then kfree kend (pte2pa (m.load pte)) m else .ok m
        uvmunmapLoop kend root doFree n (a + pgSize) (m.store pte 0#64)

/-- How often the loop of `uvmunmap` runs from an aligned `va`: its bound `va + npages*PGSIZE` is a
64-bit sum. -/
def rounds (va npages : ℕ) : ℕ := ((va + npages * pgSize) % 2 ^ 64 - va) / pgSize

def uvmunmap (kend root va npages : ℕ) (doFree : Bool) (m : Phys) : Except Panic Phys :=
  if va % pgSize ≠ 0 then .error .uvmunmapAligned
  else uvmunmapLoop kend root doFree (rounds va npages) va m

end Pointer

/-! ## The tree in the words -/

/-- The tree of page-table pages that the words of the page `f` spell, `n` levels down. -/
def Phys.table (m : Phys) : (n f : ℕ) → Table n
  | 0, f => fun i => m.load (f, i)
  | n + 1, f => fun i =>
    let pte := m.load (f, i)
    if pte.has pteV then some (pte.frame, m.table n pte.frame) else none

/-- The page table with the root page `root`. -/
def Phys.pageTable (m : Phys) (root : ℕ) : PageTable := ⟨root, m.table 2 root⟩

variable {t : Table (n + 1)}

theorem Table.ext_entry {t' : Table (n + 1)} (h : ∀ i, t.entry i = t'.entry i) : t = t' := funext h

theorem Table.setEntry_setEntry (t : Table (n + 1)) (i : Fin 512) (e e' : Option (ℕ × Table n)) :
    (t.setEntry i e).setEntry i e' = t.setEntry i e' :=
  update_idem ..

namespace Phys

theorem entry_of_has (h : (m.load (f, i)).has pteV = true) :
    (m.table (n + 1) f).entry i =
      some ((m.load (f, i)).frame, m.table n (m.load (f, i)).frame) := if_pos h

theorem entry_of_not_has (h : (m.load (f, i)).has pteV = false) :
    (m.table (n + 1) f).entry i = none := if_neg (by simp [h])

theorem table_of_load_eq_zero (h : ∀ i, m.load (f, i) = 0#64) : m.table n f = Table.zero n := by
  cases n with
  | zero => exact funext h
  | succ n =>
    refine ext_entry fun i => entry_of_not_has ?_
    rw [h i, has_zero]

theorem table_congr (n : ℕ) : ∀ {f : ℕ},
    (∀ g, (ref f + Table.pages n (m.table n f)) g ≠ 0 → m'.mem g = m.mem g) →
      m'.table n f = m.table n f := by
  induction n with
  | zero =>
    intro f h
    funext i
    exact load_congr (h f (by simp)) i
  | succ n ih =>
    intro f h
    refine ext_entry fun i => ?_
    have hload : m'.load (f, i) = m.load (f, i) := load_congr (h f (by simp)) i
    cases hV : (m.load (f, i)).has pteV with
    | false => rw [entry_of_not_has hV, entry_of_not_has (hload ▸ hV)]
    | true =>
      rw [entry_of_has hV, entry_of_has (hload ▸ hV), hload]
      refine congrArg (fun t => some (_, t)) (ih fun g hg => h g ?_)
      rw [pages_eq _ i, entry_of_has hV, entryPages]
      simp only [Pi.add_apply] at hg ⊢
      omega

end Phys

/-! ## Distinct pages -/

/-- The pages of the count `T` are distinct and in use: none is counted twice, and none is on the
free list, whose pages are distinct pages of RAM without references. -/
structure Apart (m : Phys) (T : ℕ → ℕ) : Prop where
  single : ∀ g, T g ≤ 1
  used : ∀ g ∈ m.freelist, T g = 0
  nodup : m.freelist.Nodup
  unreferenced : ∀ g ∈ m.freelist, m.pgrc g = 0
  ram : ∀ g ∈ m.freelist, g * pgSize < physStop

theorem Apart.congr {T : ℕ → ℕ} (h : Apart m T) (hfl : m'.freelist = m.freelist)
    (hrc : m'.pgrc = m.pgrc) : Apart m' T :=
  ⟨h.single, hfl ▸ h.used, hfl ▸ h.nodup, hfl ▸ hrc ▸ h.unreferenced, hfl ▸ h.ram⟩

/-- The exact counts of the allocator keep the pages that the kernel holds apart. -/
theorem Acct.apart {kend : ℕ} {K U : ℕ → ℕ} (h : Acct kend m K U) : Apart m K where
  single := h.kernel_le
  used := fun g hg => by
    have := ((h.counted.mem_freelist g).mp hg).2
    simp only [Pi.add_apply] at this
    omega
  nodup := h.counted.nodup
  unreferenced := fun g hg => by
    have hfree := (h.counted.mem_freelist g).mp hg
    rw [h.counted.rc g hfree.1, hfree.2]
    rfl
  ram := fun g hg => ((h.counted.mem_freelist g).mp hg).1.2

/-- The memory after `kalloc` has handed out the free page `g`. -/
def Phys.taken (m : Phys) (g : ℕ) : Phys :=
  ⟨m.freelist.tail, update m.pgrc g 1, update m.mem g fun _ => 5⟩

theorem kalloc_of_cons {next : List ℕ} (hfl : m.freelist = g :: next) (hrc : m.pgrc g = 0) :
    kalloc m = .ok (some g, m.taken g) := by
  simp [kalloc, hfl, incpgrc, pgRoundDown_page, hrc, Phys.taken, bind, Except.bind, pure,
    Except.pure, memset]

theorem Phys.grown_mem {x : ℕ} {p : Pte} (hf : x ≠ f) (hg : x ≠ g) :
    (((m.taken g).memset g 0).store (f, i) p).mem x = m.mem x := by
  rw [store_mem_of_ne _ hf, memset_mem, update_of_ne hg]
  exact update_of_ne hg ..

/-- The tree `t` and the rest of memory `ms` stand for the memory `m`, in which the words of the
page `f` spell the tree. `K` counts other pages in use, which the tree does not meet. -/
structure Models (K : ℕ → ℕ) (n f : ℕ) (m : Phys) (t : Table n) (ms : Phys) : Prop where
  table : m.table n f = t
  freelist : ms.freelist = m.freelist
  pgrc : ms.pgrc = m.pgrc
  mem : ∀ g, (K + (ref f + Table.pages n t)) g = 0 → ms.mem g = m.mem g
  apart : Apart m (K + (ref f + Table.pages n t))

namespace Models

variable {K : ℕ → ℕ} {ms ms' : Phys} {below : Table n}

theorem pages_split (he : t.entry i = some (g, below)) :
    K + (ref f + Table.pages (n + 1) t) =
      (K + (ref f + Table.pages (n + 1) (t.setEntry i none))) + (ref g + Table.pages n below) := by
  rw [pages_eq t i, he, entryPages]
  simp only [add_assoc]

variable (h : Models K (n + 1) f m t ms)

include h

theorem descend (he : t.entry i = some (g, below)) :
    Models (K + (ref f + Table.pages (n + 1) (t.setEntry i none))) n g m below ms where
  table := by
    have ht := h.table
    subst ht
    cases hV : (m.load (f, i)).has pteV with
    | false =>
      rw [entry_of_not_has hV] at he
      cases he
    | true =>
      rw [entry_of_has hV] at he
      cases he
      rfl
  freelist := h.freelist
  pgrc := h.pgrc
  mem := fun x hx => h.mem x (by rwa [pages_split he])
  apart := by
    have := h.apart
    rwa [pages_split he] at this

/-- An operation on a subtree that touches no other page is an operation on the tree. -/
theorem ascend {below' : Table n} (he : t.entry i = some (g, below))
    (hsub : Models (K + (ref f + Table.pages (n + 1) (t.setEntry i none))) n g m' below' ms')
    (hkeep : ∀ x, (K + (ref f + Table.pages (n + 1) (t.setEntry i none))) x ≠ 0 →
      m'.mem x = m.mem x) : Models K (n + 1) f m' (t.setEntry i (some (g, below'))) ms' := by
  have hpages : K + (ref f + Table.pages (n + 1) (t.setEntry i (some (g, below')))) =
      (K + (ref f + Table.pages (n + 1) (t.setEntry i none))) + (ref g + Table.pages n below') := by
    rw [pages_setEntry, entryPages]
    simp only [add_assoc]
  have hroot : m'.mem f = m.mem f := hkeep f (by simp)
  refine ⟨?_, hsub.freelist, hsub.pgrc, ?_, ?_⟩
  · have ht := h.table
    subst ht
    refine ext_entry fun j => ?_
    have hload : m'.load (f, j) = m.load (f, j) := load_congr hroot j
    rcases eq_or_ne j i with rfl | hne
    · -- the word still points to the subtree, which is now another
      rw [entry_setEntry_self]
      cases hV : (m.load (f, j)).has pteV with
      | false =>
        rw [entry_of_not_has hV] at he
        cases he
      | true =>
        rw [entry_of_has hV] at he
        cases he
        rw [entry_of_has (hload ▸ hV), hload, hsub.table]
    · -- another subtree is among the pages that are kept
      rw [entry_setEntry_of_ne _ hne]
      cases hV : (m.load (f, j)).has pteV with
      | false => rw [entry_of_not_has hV, entry_of_not_has (hload ▸ hV)]
      | true =>
        rw [entry_of_has hV, entry_of_has (hload ▸ hV), hload]
        refine congrArg (fun t => some (_, t)) (table_congr n fun x hx => hkeep x ?_)
        have hj : ((m.table (n + 1) f).setEntry i none).entry j =
            some ((m.load (f, j)).frame, m.table n (m.load (f, j)).frame) := by
          rw [entry_setEntry_of_ne _ hne, entry_of_has hV]
        rw [pages_eq _ j, hj, entryPages]
        simp only [Pi.add_apply] at hx ⊢
        omega
  · intro x hx
    rw [hpages] at hx
    exact hsub.mem x hx
  · rw [hpages]
    exact hsub.apart

omit h in
theorem not_root {t : Table n} (h : Models K n f m t ms) (hg : g ∈ m.freelist) : g ≠ f := by
  rintro rfl
  have := h.apart.used g hg
  simp at this

theorem grow {next : List ℕ} (he : t.entry i = none) (hfl : m.freelist = g :: next) :
    Models K (n + 1) f (((m.taken g).memset g 0).store (f, i) (pa2pte (g * pgSize) ||| pteV))
      (t.setEntry i (some (g, Table.zero n))) ((ms.taken g).memset g 0) := by
  have hg : g ∈ m.freelist := by simp [hfl]
  have hgf : g ≠ f := h.not_root hg
  have hnd := h.apart.nodup
  rw [hfl, List.nodup_cons] at hnd
  have hfree : (K + (ref f + Table.pages (n + 1) t)) g = 0 := h.apart.used g hg
  have hpages : K + (ref f + Table.pages (n + 1) (t.setEntry i (some (g, Table.zero n)))) =
      (K + (ref f + Table.pages (n + 1) t)) + ref g := by
    have ht : t.setEntry i none = t := by rw [← he, setEntry_entry]
    rw [pages_setEntry, ht, entryPages, pages_zero, add_zero]
    simp only [add_assoc]
  refine ⟨?_, ?_, ?_, fun x hx => ?_, ⟨fun x => ?_, fun x hx => ?_, ?_, fun x hx => ?_,
    fun x hx => ?_⟩⟩
  · have ht := h.table
    subst ht
    refine ext_entry fun j => ?_
    rcases eq_or_ne j i with rfl | hne
    · -- the new word: it decodes to the new page, which is all zeros
      rw [entry_setEntry_self]
      have hlt : g < 2 ^ 52 := by
        have := h.apart.ram g hg
        simp only [pgSize, physStop] at this
        omega
      have hV : (pa2pte (g * pgSize) ||| pteV).has pteV = true := by
        rw [has_pteV, getLsbD_pa2pte_or _ _ (by decide), getLsbD_pteV]
        rfl
      have hload := load_store_self ((m.taken g).memset g 0) (f, j)
        (pa2pte (g * pgSize) ||| pteV)
      rw [entry_of_has (by rw [hload, hV]), hload, frame_pa2pte_or hlt isFlags_pteV]
      refine congrArg (fun t => some (g, t)) (table_of_load_eq_zero fun k => ?_)
      rw [load_store_of_ne _ (by simp [hgf]), Phys.load, memset_mem,
        update_self, wordAt_zero]
    · -- another word of the page, and the subtree below it
      have hload : (((m.taken g).memset g 0).store (f, i) (pa2pte (g * pgSize) ||| pteV)).load
          (f, j) = m.load (f, j) := by
        rw [load_store_of_ne _ (by simp [hne])]
        refine load_congr ?_ j
        rw [memset_mem, update_of_ne hgf.symm]
        exact update_of_ne hgf.symm ..
      rw [entry_setEntry_of_ne _ hne]
      cases hV : (m.load (f, j)).has pteV with
      | false => rw [entry_of_not_has hV, entry_of_not_has (hload ▸ hV)]
      | true =>
        have hsplit := pages_split (K := K) (f := f) (entry_of_has (n := n) hV)
        rw [entry_of_has hV, entry_of_has (hload ▸ hV), hload]
        refine congrArg (fun t => some (_, t)) (table_congr n fun x hx => grown_mem ?_ ?_)
        · rintro rfl
          have := h.apart.single x
          rw [hsplit] at this
          simp only [Pi.add_apply, ref_self] at this hx
          omega
        · rintro rfl
          rw [hsplit, Pi.add_apply] at hfree
          omega
  · simp [Phys.taken, h.freelist]
  · simp [Phys.taken, h.pgrc]
  · rw [hpages] at hx
    have hxf : x ≠ f := by
      rintro rfl
      simp at hx
    have hxg : x ≠ g := by
      rintro rfl
      simp at hx
    rw [grown_mem hxf hxg, memset_mem, update_of_ne hxg]
    refine (update_of_ne hxg ..).trans (h.mem x ?_)
    rw [Pi.add_apply] at hx
    omega
  · rw [hpages, Pi.add_apply]
    rcases eq_or_ne x g with rfl | hxg
    · rw [hfree, ref_self]
    · rw [ref_of_ne hxg, add_zero]
      exact h.apart.single x
  · have hx' : x ∈ next := by simpa [Phys.taken, hfl] using hx
    have hxg : x ≠ g := by
      rintro rfl
      exact hnd.1 hx'
    rw [hpages, Pi.add_apply, ref_of_ne hxg, h.apart.used x (by simp [hfl, hx'])]
  · simpa [Phys.taken, hfl] using hnd.2
  · have hx' : x ∈ next := by simpa [Phys.taken, hfl] using hx
    have hxg : x ≠ g := by
      rintro rfl
      exact hnd.1 hx'
    refine (update_of_ne hxg ..).trans ?_
    exact h.apart.unreferenced x (by simp [hfl, hx'])
  · have hx' : x ∈ next := by simpa [Phys.taken, hfl] using hx
    exact h.apart.ram x (by simp [hfl, hx'])

/-- Growing the tree writes to the page of the entry and to the new page only. -/
theorem grow_mem (hg : g ∈ m.freelist) {p : Pte} {x : ℕ} (hx : K x ≠ 0) :
    (((m.taken g).memset g 0).store (f, i) p).mem x = m.mem x := by
  have hxf : x ≠ f := by
    rintro rfl
    have := h.apart.single x
    simp only [Pi.add_apply, ref_self] at this
    omega
  have hxg : x ≠ g := by
    rintro rfl
    have := h.apart.used x hg
    simp only [Pi.add_apply] at this
    omega
  exact grown_mem hxf hxg

end Models

/-- The pointer to the leaf entry of `va`, where the pages on the way exist. -/
def Table.pointer (va : ℕ) : (n f : ℕ) → Table n → Option (ℕ × Fin 512)
  | 0, f, _ => some (f, px 0 va)
  | n + 1, _, t =>
    match t.entry (px (n + 1) va) with
    | some (g, below) => pointer va n g below
    | none => none

theorem Table.pointer_of_entry_some {below : Table n}
    (he : t.entry (px (n + 1) va) = some (g, below)) :
    pointer va (n + 1) f t = pointer va n g below := by
  simp [pointer, he]

theorem Table.pointer_of_entry_none (he : t.entry (px (n + 1) va) = none) :
    pointer va (n + 1) f t = none := by
  simp [pointer, he]

theorem Table.pointer_isSome (va n : ℕ) : ∀ (f : ℕ) (t : Table n),
    (pointer va n f t).isSome = mapped va n t := by
  induction n with
  | zero =>
    intro f t
    rfl
  | succ n ih =>
    intro f t
    cases he : t.entry (px (n + 1) va) with
    | none => simp [pointer, mapped, he]
    | some e => simp [pointer, mapped, he, ih]

namespace Pointer

/-- The outcome `r` of descending by words matches the outcome `s` of descending the tree: the
memory holds the new tree, the pointer is the one to the leaf entry, and pages of other owners are
as they were in `m`. -/
structure Walked (K : ℕ → ℕ) (n f va : ℕ) (m : Phys) (r : Option (ℕ × Fin 512) × Phys)
    (s : Bool × Table n × Phys) : Prop where
  models : Models K n f r.2 s.2.1 s.2.2
  pointer : r.1 = if s.1 = true then Table.pointer va n f s.2.1 else none
  mapped : s.1 = true → Table.mapped va n s.2.1 = true
  keep : ∀ x, K x ≠ 0 → r.2.mem x = m.mem x

theorem Walked.ascend {K : ℕ → ℕ} {ms : Phys} {below : Table n} (h : Models K (n + 1) f m t ms)
    (he : t.entry (px (n + 1) va) = some (g, below)) {r : Option (ℕ × Fin 512) × Phys}
    {s : Bool × Table n × Phys}
    (hw : Walked (K + (ref f + Table.pages (n + 1) (t.setEntry (px (n + 1) va) none))) n g va m
      r s) :
    Walked K (n + 1) f va m r (s.1, t.setEntry (px (n + 1) va) (some (g, s.2.1)), s.2.2) where
  models := h.ascend he hw.models hw.keep
  pointer := by
    rw [hw.pointer, pointer_of_entry_some (entry_setEntry_self ..)]
  mapped := fun hs => by
    rw [mapped_setEntry_self]
    exact hw.mapped hs
  keep := fun x hx => hw.keep x (by rw [Pi.add_apply]; omega)

/-- Without `alloc`, the descent finds the pointer in the tree that the words spell, and writes
nothing. -/
theorem walkLoop_false (va : ℕ) (m : Phys) (n : ℕ) : ∀ f,
    walkLoop false va n f m = .ok (Table.pointer va n f (m.table n f), m) := by
  induction n with
  | zero =>
    intro f
    rw [walkLoop, pointer]
  | succ n ih =>
    intro f
    cases hV : (m.load (f, px (n + 1) va)).has pteV with
    | true =>
      rw [pointer_of_entry_some (entry_of_has hV), ← ih]
      simp only [walkLoop, hV, if_true]
    | false =>
      rw [pointer_of_entry_none (entry_of_not_has hV)]
      simp only [walkLoop, hV, Bool.false_eq_true, if_false, pure, Except.pure]

/-- **Descending by words** simulates descending the tree. -/
theorem walkLoop_simulates {alloc : Bool} (n : ℕ) :
    ∀ {K : ℕ → ℕ} {f : ℕ} {m ms : Phys} {t : Table n}, Models K n f m t ms →
      Simulates (Walked K n f va m) (walkLoop alloc va n f m) (Table.walk alloc va n t ms) := by
  induction n with
  | zero =>
    intro K f m ms t h
    exact ⟨h, rfl, fun _ => rfl, fun _ _ => rfl⟩
  | succ n ih =>
    intro K f m ms t h
    have ht := h.table
    cases hV : (m.load (f, px (n + 1) va)).has pteV with
    | true =>
      have he := entry_of_has (n := n) hV
      rw [ht] at he
      simp only [walkLoop, hV, if_true, Table.walk, he]
      exact (ih (h.descend he)).pure_right fun r s hw => hw.ascend h he
    | false =>
      have he := entry_of_not_has (n := n) hV
      rw [ht] at he
      have hnone : Walked K (n + 1) f va m (none, m) (false, t, ms) :=
        ⟨h, rfl, fun hb => Bool.noConfusion hb, fun _ _ => rfl⟩
      cases alloc with
      | false =>
        simp only [walkLoop, hV, Table.walk, he]
        exact hnone
      | true =>
        cases hfl : m.freelist with
        | nil =>
          have hfl' : ms.freelist = [] := by rw [h.freelist, hfl]
          simp only [walkLoop, hV, Table.walk, he, kalloc, hfl, hfl']
          exact hnone
        | cons g next =>
          have hg : g ∈ m.freelist := by simp [hfl]
          have hrc := h.apart.unreferenced g hg
          have hgrow := h.grow he hfl
          have hentry := entry_setEntry_self t (px (n + 1) va) (some (g, Table.zero n))
          simp only [walkLoop, hV, Table.walk, he, if_true, kalloc_of_cons hfl hrc,
            kalloc_of_cons (h.freelist.trans hfl) (h.pgrc ▸ hrc)]
          -- the new page is walked as a subtree of the grown tree
          refine (ih (hgrow.descend hentry)).pure_right fun r s hw => ?_
          obtain ⟨hm, hp, hmap, hkeep⟩ := hw.ascend hgrow hentry
          rw [setEntry_setEntry] at hm hp hmap
          exact ⟨hm, hp, hmap, fun x hx => (hkeep x hx).trans (h.grow_mem hg hx)⟩

end Pointer

/-- **A store through the pointer** to a leaf entry is the store in the tree. -/
theorem Models.store (x : Pte) (n : ℕ) :
    ∀ {K : ℕ → ℕ} {f : ℕ} {m ms : Phys} {t : Table n} {p : ℕ × Fin 512},
      Models K n f m t ms → Table.pointer va n f t = some p →
      m.load p = Table.pte va n t ∧ Models K n f (m.store p x) (Table.setPte va x n t) ms ∧
        ∀ y, K y ≠ 0 → (m.store p x).mem y = m.mem y := by
  induction n with
  | zero =>
    intro K f m ms t p h hp
    cases hp
    have ht := h.table
    subst ht
    have hpages : ref f + Table.pages 0 (setPte va x 0 (m.table 0 f)) =
        ref f + Table.pages 0 (m.table 0 f) := by rw [pages_setPte]
    refine ⟨?_, ⟨?_, h.freelist, h.pgrc, fun y hy => ?_, ?_⟩, fun y hy => ?_⟩
    · rw [Table.pte, Phys.table]
    · rw [setPte, Phys.table, Phys.table]
      funext i
      rcases eq_or_ne i (px 0 va) with rfl | hne
      · rw [load_store_self, update_self]
      · rw [load_store_of_ne _ (by simp [hne]), update_of_ne hne]
    · have hyf : y ≠ f := by
        rintro rfl
        simp at hy
      rw [store_mem_of_ne _ hyf]
      exact h.mem y (by rwa [hpages] at hy)
    · rw [hpages]
      exact h.apart.congr rfl rfl
    · have hyf : y ≠ f := by
        rintro rfl
        have := h.apart.single y
        simp only [Pi.add_apply, ref_self] at this
        omega
      exact store_mem_of_ne _ hyf x
  | succ n ih =>
    intro K f m ms t p h hp
    cases he : t.entry (px (n + 1) va) with
    | none => simp [pointer, he] at hp
    | some e =>
      obtain ⟨g, below⟩ := e
      rw [pointer_of_entry_some he] at hp
      obtain ⟨hload, hsub, hkeep⟩ := ih (h.descend he) hp
      have hset : setPte va x (n + 1) t =
          t.setEntry (px (n + 1) va) (some (g, setPte va x n below)) := by
        simp [setPte, he]
      refine ⟨by rw [hload, pte_of_entry_some he], ?_, fun y hy => hkeep y ?_⟩
      · rw [hset]
        exact h.ascend he hsub hkeep
      · rw [Pi.add_apply]
        omega

/-! ## Whole tables -/

/-- The table `pt` and the rest of memory `ms` stand for the memory `m`. -/
def Stands (m : Phys) (pt : PageTable) (ms : Phys) : Prop := Models 0 2 pt.root m pt.tab ms

namespace Stands

variable {m ms : Phys} {pt : PageTable}

theorem pageTable (h : Stands m pt ms) : m.pageTable pt.root = pt := by
  rw [Phys.pageTable, Models.table h]

theorem apart (h : Stands m pt ms) : Apart m pt.tables := by
  have := Models.apart h
  rwa [zero_add] at this

theorem of_apart {root : ℕ} (h : Apart m (m.pageTable root).tables) :
    Stands m (m.pageTable root) m :=
  ⟨rfl, rfl, rfl, fun _ _ => rfl, by rw [zero_add]; exact h⟩

theorem congr (h : Stands m pt ms) {ms' : Phys} (hkeep : ∀ x, pt.tables x ≠ 0 → m'.mem x = m.mem x)
    (hfl : ms'.freelist = m'.freelist) (hrc : ms'.pgrc = m'.pgrc)
    (hmem : ∀ x, pt.tables x = 0 → ms'.mem x = m'.mem x) (hapart : Apart m' pt.tables) :
    Stands m' pt ms' := by
  have htable : m'.table 2 pt.root = m.table 2 pt.root := by
    apply table_congr
    rw [Models.table h]
    exact hkeep
  refine ⟨htable.trans (Models.table h), hfl, hrc, fun x hx => hmem x ?_, ?_⟩
  · rwa [zero_add] at hx
  · rwa [zero_add]

theorem setPte (h : Stands m pt ms) (hp : Table.pointer va 2 pt.root pt.tab = some p) (x : Pte) :
    Stands (m.store p x) (pt.setPte va x) ms := (Models.store x 2 h hp).2.1

theorem load (h : Stands m pt ms) (hp : Table.pointer va 2 pt.root pt.tab = some p) :
    m.load p = pt.pte va :=
  (Models.store 0#64 2 h hp).1

end Stands

namespace Pointer

variable {m ms : Phys} {pt : PageTable}

/-- The pointer that `walk` returns beside the outcome of `walk` on the tree. -/
def Found (va : ℕ) (p : Option (ℕ × Fin 512)) (s : Bool × PageTable × Phys) : Prop :=
  s.1 = false ∧ p = none ∨
    s.1 = true ∧ ∃ q, p = some q ∧ Table.pointer va 2 s.2.1.root s.2.1.tab = some q

/-- **`walk`** on words simulates `walk` on the tree. -/
theorem walk_simulates (h : Stands m pt ms) (va : ℕ) (alloc : Bool) :
    Simulates (fun r s => Stands r.2 s.2.1 s.2.2 ∧ s.2.1.root = pt.root ∧ Found va r.1 s)
      (walk pt.root va alloc m) (pt.walk va alloc ms) := by
  rw [walk, PageTable.walk]
  split_ifs
  · rfl
  · refine (walkLoop_simulates 2 h).pure_right ?_
    rintro ⟨p, m'⟩ ⟨b, t, ms'⟩ hw
    refine ⟨hw.models, rfl, ?_⟩
    cases b with
    | false => exact Or.inl ⟨rfl, hw.pointer⟩
    | true =>
      have hsome := pointer_isSome va 2 pt.root t
      rw [hw.mapped rfl, Option.isSome_iff_exists] at hsome
      obtain ⟨q, hq⟩ := hsome
      exact Or.inr ⟨rfl, q, hw.pointer.trans ((if_pos rfl).trans hq), hq⟩

/-- **`mappages`** on words simulates `mappages` on the tree. -/
theorem mappagesLoop_simulates (last : ℕ) (perm : Pte) (fuel : ℕ) :
    ∀ (a pa : ℕ) {m ms : Phys} {pt : PageTable}, Stands m pt ms →
      Simulates (fun r s => r.1 = s.1 ∧ Stands r.2 s.2.1 s.2.2 ∧ s.2.1.root = pt.root)
        (mappagesLoop pt.root last perm fuel a pa m)
        (Xv6.mappagesLoop last perm fuel a pa pt ms) := by
  induction fuel with
  | zero =>
    intro a pa m ms pt _
    rfl
  | succ fuel ih =>
    intro a pa m ms pt h
    rw [mappagesLoop, Xv6.mappagesLoop]
    refine (walk_simulates h a true).bind ?_
    rintro ⟨p, m1⟩ ⟨b, pt1, ms1⟩ ⟨h1, hroot, ⟨rfl, rfl⟩ | ⟨rfl, q, rfl, hq⟩⟩
    · exact ⟨rfl, h1, hroot⟩
    · have hload : m1.load q = pt1.pte a := h1.load hq
      have hset : Stands (m1.store q (pa2pte pa ||| perm ||| pteV))
          (pt1.setPte a (pa2pte pa ||| perm ||| pteV)) ms1 := h1.setPte hq _
      have hroot' : (pt1.setPte a (pa2pte pa ||| perm ||| pteV)).root = pt.root := hroot
      dsimp only
      rw [if_pos rfl, hload]
      split_ifs
      · rfl
      · exact ⟨rfl, hset, hroot⟩
      · have hnext := ih (a + pgSize) (pa + pgSize) hset
        rwa [hroot'] at hnext

theorem kfree_simulates {kend pa : ℕ} (h : Stands m pt ms) (hpa : pt.tables (pa / pgSize) = 0) :
    Simulates (fun m' ms' => Stands m' pt ms') (kfree kend pa m) (kfree kend pa ms) := by
  have hindex : pgRoundDown pa / pgSize = pa / pgSize := by
    simp only [pgRoundDown, pgSize]
    omega
  simp only [kfree, decpgrc, hindex, Models.pgrc h]
  split_ifs with hguard hrc
  · rfl
  · rfl
  · -- the page had a reference, so it is not on the free list
    have hnot : pa / pgSize ∉ m.freelist := by
      intro hmem
      have := h.apart.unreferenced _ hmem
      omega
    have hram : pa / pgSize * pgSize < physStop := by
      simp only [pgSize, physStop] at hguard ⊢
      omega
    have hmem : ∀ x, pt.tables x = 0 → ms.mem x = m.mem x := fun x hx =>
      Models.mem h x (by rwa [zero_add])
    have hfl : ms.freelist = m.freelist := Models.freelist h
    have hunref : ∀ x ∈ m.freelist,
        update m.pgrc (pa / pgSize) (m.pgrc (pa / pgSize) - 1) x = 0 := by
      intro x hx
      have hne : x ≠ pa / pgSize := by
        rintro rfl
        exact hnot hx
      rw [update_of_ne hne]
      exact h.apart.unreferenced x hx
    simp only [bind, Except.bind, update_self]
    split_ifs with hlast
    · -- the last reference: the page is overwritten and goes to the free list
      refine h.congr (fun x hx => ?_) (by simp [hfl]) rfl (fun x hx => ?_) ⟨h.apart.single, ?_, ?_,
        ?_, ?_⟩
      · have hne : x ≠ pa / pgSize := by
          rintro rfl
          exact hx hpa
        exact update_of_ne hne ..
      · simp only [memset_mem, update_apply, hmem x hx]
      · rw [List.forall_mem_cons]
        exact ⟨hpa, h.apart.used⟩
      · exact List.nodup_cons.mpr ⟨hnot, h.apart.nodup⟩
      · rw [List.forall_mem_cons]
        exact ⟨by simpa using hlast, hunref⟩
      · rw [List.forall_mem_cons]
        exact ⟨hram, h.apart.ram⟩
    · exact h.congr (fun _ _ => rfl) hfl rfl hmem
        ⟨h.apart.single, h.apart.used, h.apart.nodup, hunref, h.apart.ram⟩

/-- **`uvmunmap`** on words simulates `uvmunmap` on the tree, where it frees no page of the table
itself. -/
theorem uvmunmapLoop_simulates (kend : ℕ) (doFree : Bool) (n : ℕ) :
    ∀ (v : ℕ) {m ms : Phys} {pt : PageTable}, Stands m pt ms →
      (doFree = true → ∀ w, v ≤ w → w < v + n → (pt.leaf w).has pteV = true →
        pt.tables (pt.leaf w).frame = 0) →
      Simulates (fun m' s => Stands m' s.1 s.2 ∧ s.1.root = pt.root)
        (uvmunmapLoop kend pt.root doFree n (v * pgSize) m)
        (Xv6.uvmunmapLoop kend doFree n (v * pgSize) pt ms) := by
  induction n with
  | zero =>
    intro v m ms pt h _
    exact ⟨h, rfl⟩
  | succ n ih =>
    intro v m ms pt h hfree
    by_cases hva : v * pgSize < maxVa
    swap
    · rw [uvmunmapLoop, Xv6.uvmunmapLoop, walk, if_pos (by omega),
        PageTable.walk_of_maxVa_le pt (by omega)]
      rfl
    have hleaf := (pt.pte_mul hva).symm
    have hwalk := (walk_simulates h (v * pgSize) false).and_right (E := fun _ => False)
      (Q := fun s => s = (pt.mapped (v * pgSize), pt, ms))
      (by rw [PageTable.walk_false pt hva]; rfl)
    rw [uvmunmapLoop, Xv6.uvmunmapLoop]
    refine hwalk.bind ?_
    rintro ⟨p, m1⟩ ⟨b, pt1, ms1⟩ ⟨⟨h1, -, hfound⟩, heq⟩
    obtain ⟨-, rfl, rfl⟩ : b = pt.mapped (v * pgSize) ∧ pt1 = pt ∧ ms1 = ms := by
      simpa using heq
    rcases hfound with ⟨rfl, rfl⟩ | ⟨rfl, q, rfl, hq⟩
    · rfl
    · have hload : m1.load q = pt1.pte (v * pgSize) := h1.load hq
      have hnext : ∀ m2 ms2, Stands m2 pt1 ms2 →
          Simulates (fun m' s => Stands m' s.1 s.2 ∧ s.1.root = pt1.root)
            (uvmunmapLoop kend pt1.root doFree n (v * pgSize + pgSize) (m2.store q 0#64))
            (Xv6.uvmunmapLoop kend doFree n (v * pgSize + pgSize) (pt1.setPte (v * pgSize) 0#64)
              ms2) := by
        intro m2 ms2 h2
        have hmapped : pt1.mapped (v * pgSize) = true := by
          simpa using heq.symm
        have hset := PageTable.leaf_setPte_mul hva hmapped 0#64
        rw [← Nat.succ_mul]
        refine ih (v + 1) (h2.setPte hq 0#64) fun hdo w hw hw' => ?_
        rw [PageTable.tables_setPte, hset, update_of_ne (by omega)]
        exact hfree hdo w (by omega) (by omega)
      dsimp only
      rw [hload, if_neg (Bool.noConfusion : ¬ true = false)]
      split_ifs with hV hF hdo
      · rfl
      · rfl
      · have hpa : pt1.tables (pte2pa (pt1.pte (v * pgSize)) / pgSize) = 0 := by
          have := hfree hdo v le_rfl (by omega) (by rw [hleaf]; simpa using hV)
          rwa [hleaf, Pte.frame] at this
        exact (kfree_simulates h1 hpa).bind hnext
      · exact hnext m1 ms1 h1

end Pointer

end Xv6
