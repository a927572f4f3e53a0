import Mathlib.Algebra.Group.Pi.Basic
import Mathlib.Data.List.Nodup
import Mathlib.Logic.Function.Basic
import Xv6.Lib.Ensures
import Xv6.Mem.Pte

/-!
# The physical page allocator

`kernel/kalloc.c`: a free list of pages, and a reference count `pgrc` for every page. `kalloc`
takes a page off the list and counts its first reference, `incpgrc` counts one more, and `kfree`
drops one and returns the page to the list with the last. The list threaded through the free
pages is a `List` of frames; the locks are left out, every call being one critical section. The
counts are `int`s whose bound is the number of page-table entries, far below `2 ^ 31`.
-/

namespace Xv6

open Function List

/-- The panics of the memory code, and the fault that a kernel access to address 0 takes. -/
inductive Panic
  /-- `incpgrc`: negative ref count in incpgrc -/
  | incpgrc
  /-- `decpgrc`: negative ref count in decpgrc -/
  | decpgrc
  /-- `kfree` -/
  | kfree
  /-- `walk` -/
  | walk
  /-- `mappages`: size -/
  | mappagesSize
  /-- `mappages`: remap -/
  | mappagesRemap
  /-- `uvmunmap`: not aligned -/
  | uvmunmapAligned
  /-- `uvmunmap`: walk -/
  | uvmunmapWalk
  /-- `uvmunmap`: not mapped -/
  | uvmunmapMapped
  /-- `uvmunmap`: not a leaf -/
  | uvmunmapLeaf
  /-- `freewalk`: leaf -/
  | freewalkLeaf
  /-- `uvmcopy`: pte should exist -/
  | uvmcopyPte
  /-- `uvmcopy`: page not present -/
  | uvmcopyPresent
  /-- `uvmclear` -/
  | uvmclear
  /-- `uvmfirst`: more than a page -/
  | uvmfirst
  /-- `loadseg`: address should exist -/
  | loadseg
  /-- `kerneltrap`: the kernel itself faulted -/
  | kerneltrap
  deriving DecidableEq, Repr

/-- Panics other than those of the reference counts. -/
def Panic.RefSafe (e : Panic) : Prop := e ≠ .incpgrc ∧ e ≠ .decpgrc ∧ e ≠ .kfree

/-- Physical memory and the allocator's state: `kmem.freelist`, `pgrc`, and the contents of
every page. -/
structure Phys where
  freelist : List ℕ
  pgrc : ℕ → ℤ
  mem : ℕ → Page

/-- `memset(pa, c, PGSIZE)` on the page `f`. -/
def Phys.memset (m : Phys) (f : ℕ) (c : UInt8) : Phys := { m with mem := update m.mem f fun _ => c }

@[simp] theorem Phys.memset_freelist (m : Phys) (f : ℕ) (c : UInt8) :
    (m.memset f c).freelist = m.freelist := rfl

@[simp] theorem Phys.memset_pgrc (m : Phys) (f : ℕ) (c : UInt8) :
    (m.memset f c).pgrc = m.pgrc := rfl

@[simp] theorem Phys.memset_mem (m : Phys) (f : ℕ) (c : UInt8) :
    (m.memset f c).mem = update m.mem f fun _ => c := rfl

/-- `incpgrc`: one more reference to the page of `pa`. -/
def incpgrc (pa : ℕ) (m : Phys) : Except Panic Phys :=
  let index := pgRoundDown pa / pgSize
  if m.pgrc index < 0 then .error .incpgrc
  else .ok { m with pgrc := update m.pgrc index (m.pgrc index + 1) }

def decpgrc (index : ℕ) (m : Phys) : Except Panic Phys :=
  if m.pgrc index ≤ 0 then .error .decpgrc
  else .ok { m with pgrc := update m.pgrc index (m.pgrc index - 1) }

/-- `kfree`: drop one reference to the page at `pa`, and free the page with the last; `kend` is
the linker's `end`, the first address after the kernel. -/
def kfree (kend pa : ℕ) (m : Phys) : Except Panic Phys :=
  if pa % pgSize ≠ 0 ∨ pa < kend ∨ physStop ≤ pa then .error .kfree
  else do
    let index := pgRoundDown pa / pgSize
    let m ← decpgrc index m
    if m.pgrc index = 0 then
      let m := m.memset index 1
      return { m with freelist := index :: m.freelist }
    else
      return m

/-- `kalloc`: a page with one reference, or `none` when the free list is empty. -/
def kalloc (m : Phys) : Except Panic (Option ℕ × Phys) :=
  match m.freelist with
  | [] => .ok (none, m)
  | r :: next => do
    let m := { m with freelist := next }
    let m ← incpgrc (r * pgSize) (m.memset r 5)
    return (some r, m)

/-- The loop of `freerange`, over `n` pages from the page `f`. -/
def freerangeLoop (kend : ℕ) : ℕ → ℕ → Phys → Except Panic Phys
  | 0, _, m => .ok m
  | n + 1, f, m => do
    let m ← incpgrc (f * pgSize) m
    let m ← kfree kend (f * pgSize) m
    freerangeLoop kend n (f + 1) m

/-- `freerange`: free the whole pages between two addresses. -/
def freerange (kend paStart paEnd : ℕ) (m : Phys) : Except Panic Phys :=
  freerangeLoop kend ((paEnd - pgRoundUp paStart) / pgSize) (pgRoundUp paStart / pgSize) m

/-- `kinit`, on a memory with the given contents: every page above the kernel becomes free. -/
def kinit (kend : ℕ) (mem : ℕ → Page) : Except Panic Phys :=
  freerange kend kend physStop ⟨[], fun _ => 0, mem⟩

/-- A frame of the memory the allocator manages, `[end, PHYSTOP)`. -/
def InRam (kend f : ℕ) : Prop := kend ≤ f * pgSize ∧ f * pgSize < physStop

instance (kend f : ℕ) : Decidable (InRam kend f) := inferInstanceAs (Decidable (_ ∧ _))

/-- One reference to the frame `f`. -/
def ref (f : ℕ) : ℕ → ℕ := fun g => if g = f then 1 else 0

@[simp] theorem ref_self (f : ℕ) : ref f f = 1 := if_pos rfl

theorem ref_of_ne {f g : ℕ} (h : g ≠ f) : ref f g = 0 := if_neg h

/-- **Exact counts**: every managed frame counts its references `T`, and the free list holds each
unreferenced frame exactly once. -/
structure Counted (kend : ℕ) (m : Phys) (T : ℕ → ℕ) : Prop where
  nodup : m.freelist.Nodup
  mem_freelist : ∀ f, f ∈ m.freelist ↔ InRam kend f ∧ T f = 0
  rc : ∀ f, InRam kend f → m.pgrc f = T f
  ram : ∀ f, T f ≠ 0 → InRam kend f

section Counted

variable {kend : ℕ} {m : Phys} {T : ℕ → ℕ} {E : Panic → Prop}

theorem pgRoundDown_page (f : ℕ) : pgRoundDown (f * pgSize) / pgSize = f := by
  simp [pgRoundDown]

/-- The page a successful `kalloc` returns had no reference, and now has one. -/
theorem kalloc_spec (h : Counted kend m T) :
    Ensures (kalloc m) E fun r =>
      (r = (none, m) ∧ m.freelist = []) ∨
      ∃ g, r.1 = some g ∧ T g = 0 ∧ InRam kend g ∧ Counted kend r.2 (T + ref g) ∧
        r.2.mem = update m.mem g fun _ => 5 := by
  cases hfl : m.freelist with
  | nil => simp [kalloc, hfl]
  | cons g next =>
    have hg := (h.mem_freelist g).mp (by simp [hfl])
    have hnd := h.nodup
    rw [hfl, nodup_cons] at hnd
    have hrc : m.pgrc g = 0 := by rw [h.rc g hg.1, hg.2]; rfl
    simp only [kalloc, hfl, incpgrc, Phys.memset, pgRoundDown_page, hrc]
    refine Or.inr ⟨g, rfl, hg.2, hg.1, ⟨hnd.2, fun f => ?_, fun f hf => ?_, fun f hf => ?_⟩, rfl⟩
    · have hm := h.mem_freelist f
      rw [hfl, mem_cons] at hm
      rcases eq_or_ne f g with rfl | hne
      · simp [hnd.1]
      · simp only [hne, false_or] at hm
        simpa [ref_of_ne hne] using hm
    · rcases eq_or_ne f g with rfl | hne
      · simp [hg.2]
      · simpa [hne, ref_of_ne hne] using h.rc f hf
    · rcases eq_or_ne f g with rfl | hne
      · exact hg.1
      · exact h.ram f (by simpa [ref_of_ne hne] using hf)

/-- Freeing a referenced page drops one reference, and changes the page only with the last. -/
theorem kfree_spec {f : ℕ} (h : Counted kend m (T + ref f)) :
    Ensures (kfree kend (f * pgSize) m) E fun m' =>
      Counted kend m' T ∧ m'.mem = if T f = 0 then update m.mem f (fun _ => 1) else m.mem := by
  have hram : InRam kend f := h.ram f (by simp)
  have hrc : m.pgrc f = T f + 1 := by simpa using h.rc f hram
  have hnot : f ∉ m.freelist := fun hf => by simpa using ((h.mem_freelist f).mp hf).2
  have hguard : ¬ (f * pgSize % pgSize ≠ 0 ∨ f * pgSize < kend ∨ physStop ≤ f * pgSize) := by
    have := hram.1
    have := hram.2
    simp only [Nat.mul_mod_left]
    omega
  have hpos : ¬ m.pgrc f ≤ 0 := by omega
  -- away from `f` neither the count nor the references change
  have hrc' : ∀ g, InRam kend g → update m.pgrc f (m.pgrc f - 1) g = T g := by
    intro g hg
    rcases eq_or_ne g f with rfl | hne
    · simp [hrc]
    · simpa [hne, ref_of_ne hne] using h.rc g hg
  have hram' : ∀ g, T g ≠ 0 → InRam kend g := fun g hg => h.ram g (by simp [hg])
  rw [kfree, if_neg hguard]
  simp only [decpgrc, pgRoundDown_page, if_neg hpos]
  by_cases h0 : T f = 0
  · simp only [bind, Except.bind, update_self, hrc, h0]
    refine ⟨⟨nodup_cons.mpr ⟨hnot, h.nodup⟩, fun g => ?_, ?_, hram'⟩, ?_⟩
    · rw [mem_cons]
      rcases eq_or_ne g f with rfl | hne
      · simp [hram, h0]
      · simpa [hne, ref_of_ne hne] using h.mem_freelist g
    · simpa [hrc, h0] using hrc'
    · simp
  · have hne0 : ¬ (m.pgrc f - 1 = 0) := by omega
    simp only [bind, Except.bind, update_self, hne0, if_false]
    refine ⟨⟨h.nodup, fun g => ?_, hrc', hram'⟩, by simp [h0]⟩
    rcases eq_or_ne g f with rfl | hne
    · simp [hnot, h0]
    · simpa [ref_of_ne hne] using h.mem_freelist g

theorem incpgrc_spec {f : ℕ} (h : Counted kend m T) (hf : T f ≠ 0) :
    Ensures (incpgrc (f * pgSize) m) E fun m' =>
      Counted kend m' (T + ref f) ∧ m'.mem = m.mem := by
  have hram := h.ram f hf
  have hrc := h.rc f hram
  have hnot : f ∉ m.freelist := fun hm => hf ((h.mem_freelist f).mp hm).2
  simp only [incpgrc, pgRoundDown_page, show ¬ m.pgrc f < 0 by omega, if_false]
  refine ⟨⟨h.nodup, fun g => ?_, fun g hg => ?_, fun g hg => ?_⟩, rfl⟩
  · rcases eq_or_ne g f with rfl | hne
    · simp [hnot]
    · simpa [ref_of_ne hne] using h.mem_freelist g
  · rcases eq_or_ne g f with rfl | hne
    · simp [hrc]
    · simpa [hne, ref_of_ne hne] using h.rc g hg
  · rcases eq_or_ne g f with rfl | hne
    · exact hram
    · exact h.ram g (by simpa [ref_of_ne hne] using hg)

theorem Counted.congr (h : Counted kend m T) {m' : Phys} (hfl : m'.freelist = m.freelist)
    (hrc : m'.pgrc = m.pgrc) : Counted kend m' T :=
  ⟨hfl ▸ h.nodup, fun f => hfl ▸ h.mem_freelist f, fun f hf => hrc ▸ h.rc f hf, h.ram⟩

/-- The loop of `freerange` puts its pages on the list, each counted once and freed at once. -/
theorem freerangeLoop_spec (n f : ℕ) (hk : kend ≤ f * pgSize)
    (hs : (f + n) * pgSize ≤ physStop) (hrc : m.pgrc = fun _ => 0) :
    Ensures (freerangeLoop kend n f m) E fun m' =>
      m'.freelist = (range' f n).reverse ++ m.freelist ∧ m'.pgrc = fun _ => 0 := by
  induction n generalizing f m with
  | zero => simp [freerangeLoop, hrc]
  | succ n ih =>
    have hguard : ¬ (f * pgSize % pgSize ≠ 0 ∨ f * pgSize < kend ∨ physStop ≤ f * pgSize) := by
      simp only [Nat.mul_mod_left, pgSize, physStop] at hk hs ⊢
      omega
    simp only [freerangeLoop, incpgrc, kfree, decpgrc, pgRoundDown_page, hrc, if_neg hguard,
      bind, Except.bind, update_self, lt_irrefl, if_false, zero_add,
      show ¬ (1 : ℤ) ≤ 0 by decide, sub_self, if_true, pure, Except.pure, update_idem]
    refine (ih (f + 1) (hk.trans (Nat.mul_le_mul_right _ (Nat.le_succ f)))
      (by rwa [add_assoc, add_comm 1 n]) ?_).mono ?_
    · simp
    · rintro m' ⟨hfl, hrc'⟩
      refine ⟨?_, hrc'⟩
      rw [hfl, range'_succ, reverse_cons, append_assoc]
      rfl

end Counted

theorem kinit_counted {kend : ℕ} {E : Panic → Prop} (mem : ℕ → Page) (hk : kend ≤ physStop) :
    Ensures (kinit kend mem) E fun m => Counted kend m 0 := by
  simp only [physStop] at hk
  have hup : kend ≤ pgRoundUp kend ∧ pgRoundUp kend % 4096 = 0 ∧ pgRoundUp kend < kend + 4096 := by
    simp only [pgRoundUp, pgSize]
    omega
  refine (freerangeLoop_spec _ _ ?_ ?_ rfl).mono ?_
  · simp only [pgSize]
    omega
  · simp only [pgSize, physStop]
    omega
  · rintro m ⟨hfl, hrc⟩
    rw [append_nil] at hfl
    refine ⟨hfl ▸ nodup_reverse.mpr nodup_range', fun f => ?_, fun f _ => ?_, ?_⟩
    · simp only [hfl, mem_reverse, mem_range'_1, InRam, Pi.zero_apply, and_true, pgSize, physStop]
      omega
    · simp [hrc]
    · simp

/-! ## References by class of owner

A frame is held either by the kernel, by exactly one holder (`K`), or by any number of user
mappings (`U`). -/

/-- Exact counts for the kernel's references `K` and the user mappings `U`, with no frame in both
classes. -/
structure Acct (kend : ℕ) (m : Phys) (K U : ℕ → ℕ) : Prop where
  counted : Counted kend m (K + U)
  kernel_le : ∀ f, K f ≤ 1
  sep : ∀ f, U f ≠ 0 → K f = 0

namespace Acct

variable {kend : ℕ} {m : Phys} {K U : ℕ → ℕ} {E : Panic → Prop}

theorem congr (h : Acct kend m K U) {m' : Phys} (hfl : m'.freelist = m.freelist)
    (hrc : m'.pgrc = m.pgrc) : Acct kend m' K U :=
  ⟨h.counted.congr hfl hrc, h.kernel_le, h.sep⟩

theorem kalloc_spec (h : Acct kend m K U) :
    Ensures (kalloc m) E fun r =>
      (r = (none, m) ∧ m.freelist = []) ∨
      ∃ g, r.1 = some g ∧ K g = 0 ∧ U g = 0 ∧ Acct kend r.2 (K + ref g) U ∧
        Acct kend r.2 K (U + ref g) ∧ r.2.mem = update m.mem g fun _ => 5 := by
  refine (Xv6.kalloc_spec h.counted).mono ?_
  rintro ⟨r, m'⟩ (h0 | ⟨g, hr, hT, -, hc, hmem⟩)
  · exact Or.inl h0
  · have hK : K g = 0 ∧ U g = 0 := by simpa using hT
    refine Or.inr ⟨g, hr, hK.1, hK.2, ⟨?_, fun f => ?_, fun f hf => ?_⟩,
      ⟨?_, h.kernel_le, fun f hf => ?_⟩, hmem⟩
    · rwa [add_right_comm]
    · rcases eq_or_ne f g with rfl | hne
      · simp [hK.1]
      · simpa [ref_of_ne hne] using h.kernel_le f
    · have hne : f ≠ g := fun he => hf (he ▸ hK.2)
      simpa [ref_of_ne hne] using h.sep f hf
    · rwa [← add_assoc]
    · rcases eq_or_ne f g with rfl | hne
      · exact hK.1
      · exact h.sep f (by simpa [ref_of_ne hne] using hf)

/-- Dropping a user mapping. The page keeps its contents while another mapping exists. -/
theorem kfree_user {f : ℕ} (h : Acct kend m K (U + ref f)) :
    Ensures (kfree kend (f * pgSize) m) E fun m' =>
      Acct kend m' K U ∧ ∀ g, (g = f → U f ≠ 0) → m'.mem g = m.mem g := by
  have hK : K f = 0 := h.sep f (by simp)
  refine (kfree_spec (T := K + U) (by rw [add_assoc]; exact h.counted)).mono ?_
  rintro m' ⟨hc, hmem⟩
  refine ⟨⟨hc, h.kernel_le, fun g hg => h.sep g (by simp [hg])⟩, fun g hg => ?_⟩
  rw [hmem]
  split_ifs with h0
  · have h0' : U f = 0 := by simpa [hK] using h0
    rw [update_of_ne fun he => hg he h0']
  · rfl

theorem kfree_kernel {f : ℕ} (h : Acct kend m (K + ref f) U) :
    Ensures (kfree kend (f * pgSize) m) E fun m' =>
      Acct kend m' K U ∧ ∀ g, g ≠ f → m'.mem g = m.mem g := by
  have hle : ∀ g, K g ≤ (K + ref f) g := fun g => Nat.le_add_right _ _
  refine (kfree_spec (T := K + U) (by rw [add_right_comm]; exact h.counted)).mono ?_
  rintro m' ⟨hc, hmem⟩
  refine ⟨⟨hc, fun g => (hle g).trans (h.kernel_le g), fun g hg => ?_⟩, fun g hg => ?_⟩
  · exact Nat.eq_zero_of_le_zero ((hle g).trans (h.sep g hg).le)
  · rw [hmem]
    split_ifs
    · rw [update_of_ne hg]
    · rfl

theorem incpgrc_spec {f : ℕ} (h : Acct kend m K U) (hf : U f ≠ 0) :
    Ensures (incpgrc (f * pgSize) m) E fun m' => Acct kend m' K (U + ref f) ∧ m'.mem = m.mem := by
  refine (Xv6.incpgrc_spec h.counted (f := f) (by simp [hf])).mono ?_
  rintro m' ⟨hc, hmem⟩
  refine ⟨⟨by rwa [← add_assoc], h.kernel_le, fun g hg => ?_⟩, hmem⟩
  rcases eq_or_ne g f with rfl | hne
  · exact h.sep g hf
  · exact h.sep g (by simpa [ref_of_ne hne] using hg)

end Acct

end Xv6
