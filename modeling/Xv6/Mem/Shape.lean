import Mathlib.Data.Finset.Card
import Xv6.Mem.PageTable

/-!
# The shape of a user page table

`uvmunmap`, `uvmcopy` and `freewalk` panic when the table is not the one they expect: a hole below
the size, a page left above it, a leaf left in the tree. The reference counts, which are exact for
any tree, do not rule this out. The shape does: the first `n` user pages are mapped and no other
user page is.

The shape also bounds `n`: there are far fewer frames of RAM than user pages, so that a growing
process runs out of memory long before it runs into its trapframe.
-/

namespace Xv6

open Function

namespace PageTable

/-- The shape of a table with `n` user pages: these are mapped, each to a frame of its own; no
other user page is; and nothing lies from `MAXVA` on. -/
structure Shaped (pt : PageTable) (n : ℕ) : Prop where
  user : ∀ v < n, (pt.leaf v).IsLeaf
  unused : ∀ v, n ≤ v → v < userPages → (pt.leaf v).has pteV = false
  once : ∀ f, leafRefs pt.leaf f ≤ 1
  low : pt.LowerHalf

/-- The two pages at the top of a table, the trapframe and the trampoline, are mapped. -/
structure Topped (pt : PageTable) : Prop where
  trapframe : (pt.leaf userPages).IsLeaf
  trampoline : (pt.leaf (userPages + 1)).IsLeaf

theorem Topped.congr {pt pt' : PageTable} (h : pt.Topped)
    (hupper : ∀ v, userPages ≤ v → pt'.leaf v = pt.leaf v) : pt'.Topped := by
  constructor
  · rw [hupper _ le_rfl]
    exact h.trapframe
  · rw [hupper _ (Nat.le_succ _)]
    exact h.trampoline

namespace Shaped

variable {pt pt' : PageTable} {n v : ℕ}

/-! ## Leaves changing -/

variable (h : pt.Shaped n)

include h

theorem congr (hleaf : pt'.leaf = pt.leaf) (hlow : pt.LowerHalf → pt'.LowerHalf) : pt'.Shaped n :=
  ⟨hleaf ▸ h.user, hleaf ▸ h.unused, hleaf ▸ h.once, hlow h.low⟩

theorem set_upper (hn : n ≤ userPages) (hv : userPages ≤ v) {q : Pte}
    (hleaf : pt'.leaf = update pt.leaf v q) (hlow : pt.LowerHalf → pt'.LowerHalf) :
    pt'.Shaped n := by
  refine ⟨fun w hw => ?_, fun w hnw hw => ?_, ?_, hlow h.low⟩
  · rw [hleaf, update_of_ne (by omega)]
    exact h.user w hw
  · rw [hleaf, update_of_ne (by omega)]
    exact h.unused w hnw hw
  · rw [hleaf, leafRefs_update_of_le _ hv]
    exact h.once

theorem map (hn : n < userPages) {q : Pte} (hq : q.IsLeaf) (hf : leafRefs pt.leaf q.frame = 0)
    (hleaf : pt'.leaf = update pt.leaf n q) (hlow : pt.LowerHalf → pt'.LowerHalf) :
    pt'.Shaped (n + 1) := by
  refine ⟨fun w hw => ?_, fun w hnw hw => ?_, fun f => ?_, hlow h.low⟩
  · rw [hleaf, update_apply]
    split_ifs with hwn
    · exact hq
    · exact h.user w (by omega)
  · rw [hleaf, update_of_ne (by omega)]
    exact h.unused w (by omega) hw
  · -- the page was not mapped, so its leaf held no reference before
    have hrefs := congrFun (leafRefs_update_add pt.leaf hn q) f
    rw [leafRef_of_not_valid (h.unused n le_rfl hn), add_zero, leafRef_of_valid hq.1, ← hleaf,
      Pi.add_apply] at hrefs
    rw [hrefs]
    rcases eq_or_ne f q.frame with rfl | hne
    · rw [hf, ref_self]
    · rw [ref_of_ne hne, add_zero]
      exact h.once f

omit h in
theorem clear {k : ℕ} (h : pt.Shaped (v + k)) (hleaf : pt'.leaf = clearRange pt.leaf v k)
    (hlow : pt.LowerHalf → pt'.LowerHalf) : pt'.Shaped v := by
  refine ⟨fun w hw => ?_, fun w hvw hw => ?_, fun f => ?_, hlow h.low⟩
  · rw [hleaf, clearRange, if_neg (by omega)]
    exact h.user w (by omega)
  · rw [hleaf, clearRange]
    split_ifs with hr
    · exact has_zero _
    · exact h.unused w (by omega) hw
  · rw [hleaf]
    exact (leafRefs_clearRange_le pt.leaf v k f).trans (h.once f)

theorem relabel {q : Pte} (hV : q.has pteV = (pt.leaf v).has pteV)
    (hR : q.has pteR = (pt.leaf v).has pteR) (hf : q.frame = (pt.leaf v).frame)
    (hleaf : pt'.leaf = update pt.leaf v q) (hlow : pt.LowerHalf → pt'.LowerHalf) :
    pt'.Shaped n := by
  refine ⟨fun w hw => ?_, fun w hnw hw => ?_, ?_, hlow h.low⟩
  · rw [hleaf, update_apply]
    split_ifs with hwv
    · subst hwv
      exact ⟨hV.trans (h.user w hw).1, hR.trans (h.user w hw).2⟩
    · exact h.user w hw
  · rw [hleaf, update_apply]
    split_ifs with hwv
    · subst hwv
      exact hV.trans (h.unused w hnw hw)
    · exact h.unused w hnw hw
  · rw [hleaf, leafRefs_relabel hV hf]
    exact h.once

theorem remap (hv : v < userPages) (hV : (pt.leaf v).has pteV = true) {q : Pte}
    (hq : q.has pteV = true) (hR : q.has pteR = (pt.leaf v).has pteR)
    (hf : leafRefs pt.leaf q.frame = 0) (hleaf : pt'.leaf = update pt.leaf v q)
    (hlow : pt.LowerHalf → pt'.LowerHalf) : pt'.Shaped n := by
  refine ⟨fun w hw => ?_, fun w hnw hw => ?_, fun f => ?_, hlow h.low⟩
  · rw [hleaf, update_apply]
    split_ifs with hwv
    · subst hwv
      exact ⟨hq, hR.trans (h.user w hw).2⟩
    · exact h.user w hw
  · rw [hleaf, update_apply]
    split_ifs with hwv
    · -- a page from `n` on is not mapped, so it is not the one that moves
      subst hwv
      rw [h.unused w hnw hw] at hV
      cases hV
    · exact h.unused w hnw hw
  · have hrefs := congrFun (leafRefs_update_add pt.leaf hv q) f
    rw [leafRef_of_valid hV, leafRef_of_valid hq, ← hleaf, Pi.add_apply, Pi.add_apply] at hrefs
    rcases eq_or_ne f q.frame with rfl | hne
    · rw [hf, ref_self] at hrefs
      omega
    · rw [ref_of_ne hne] at hrefs
      have := h.once f
      omega

/-! ## How many pages there can be -/

theorem eq_of_frame_eq (hn : n ≤ userPages) {w : ℕ} (hv : v < n) (hw : w < n)
    (hf : (pt.leaf w).frame = (pt.leaf v).frame) : w = v := by
  by_contra hne
  have h1 := two_le_leafRefs (hv.trans_le hn) (hw.trans_le hn) hne
    (h.user v hv).1 (h.user w hw).1 hf
  have h2 := h.once (pt.leaf v).frame
  omega

/-- **The pages end below the trapframe**: they have different frames, all in RAM, and there are
fewer frames in RAM than user pages. -/
theorem lt_userPages {kend : ℕ} {m : Phys} {K U : ℕ → ℕ} (hn : n ≤ userPages)
    (hA : Acct kend m K (U + leafRefs pt.leaf)) : n < userPages := by
  have hmaps : ∀ v ∈ Finset.range n, (pt.leaf v).frame ∈ Finset.range (physStop / pgSize) := by
    intro v hv
    rw [Finset.mem_range] at hv ⊢
    have hne := leafRefs_ne_zero (hv.trans_le hn) (h.user v hv).1
    have hram := (hA.counted.ram (pt.leaf v).frame (by simp only [Pi.add_apply]; omega)).2
    simp only [physStop, pgSize] at hram ⊢
    omega
  have hcard := Finset.card_le_card_of_injOn (fun v => (pt.leaf v).frame) hmaps fun w hw v hv hf =>
    h.eq_of_frame_eq hn (Finset.mem_range.mp hv) (Finset.mem_range.mp hw) hf
  rw [Finset.card_range, Finset.card_range] at hcard
  simp only [physStop, pgSize, userPages, trapframeVa, trampolineVa, maxVa] at hcard ⊢
  omega

end Shaped

/-! ## Reading the whole tree -/

/-- Every address reads the entry of one below `2 * MAXVA`, which is as far as the root reaches. -/
theorem pte_mod (pt : PageTable) (va : ℕ) : pt.pte (va % (2 * maxVa)) = pt.pte va := by
  refine Table.pte_congr 2 (fun i hi => Fin.ext ?_) pt.tab
  obtain rfl | rfl | rfl : i = 0 ∨ i = 1 ∨ i = 2 := by omega
  all_goals
    simp only [px, maxVa]
    omega

theorem pte_eq_false {pt : PageTable} (hlow : pt.LowerHalf) (h : ∀ v, (pt.leaf v).has pteV = false)
    (va : ℕ) : (pt.pte va).has pteV = false := by
  rw [← pte_mod]
  rcases Nat.lt_or_ge (va % (2 * maxVa)) maxVa with hlt | hge
  · rw [← leaf_page pt hlt]
    exact h _
  · rw [hlow.pte_eq_zero hge (Nat.mod_lt _ (by decide)), has_zero]

end PageTable

end Xv6
