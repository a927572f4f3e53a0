import Mathlib.Data.List.Chain
import Mathlib.Data.List.Nodup
import Mathlib.Logic.Function.Basic

/-!
# Circular doubly linked lists

Nodes are linked to their successors and predecessors by two pointer maps. From a head node the
links form a ring if following them visits the nodes of a list without repetition and comes back to
the head; the pointers of nodes outside the ring are arbitrary. Nodes are taken out and put in by
pointer assignments, and found by a walk along the links.
-/

structure Links (ν : Type*) where
  next : ν → ν
  prev : ν → ν

namespace Links

open Function List

variable {ν : Type*} {L L' : Links ν} {head a b : ν} {l m : List ν}

def Joined (L : Links ν) (a b : ν) : Prop := L.next a = b ∧ L.prev b = a

/-- From the head on, the links lead through the list and back. -/
structure Ring (L : Links ν) (head : ν) (l : List ν) : Prop where
  chain : (head :: (l ++ [head])).IsChain L.Joined
  nodup : (head :: l).Nodup

/-- Only the successors of all but the last, and the predecessors of all but the first, matter. -/
theorem isChain_congr (h : l.IsChain L.Joined) (hnext : ∀ x ∈ l.dropLast, L'.next x = L.next x)
    (hprev : ∀ x ∈ l.tail, L'.prev x = L.prev x) : l.IsChain L'.Joined := by
  induction l with
  | nil => exact isChain_nil
  | cons a l ih =>
    cases l with
    | nil => exact isChain_singleton a
    | cons b l =>
      rw [isChain_cons_cons] at h ⊢
      refine ⟨⟨(hnext a (by simp)).trans h.1.1, (hprev b (by simp)).trans h.1.2⟩, ih h.2 ?_ ?_⟩
      · exact fun x hx => hnext x (by simp [hx])
      · exact fun x hx => hprev x (mem_cons_of_mem b hx)

section Assignments

variable [DecidableEq ν]

/-- The assignment `a->next = b`. -/
def setNext (L : Links ν) (a b : ν) : Links ν := { L with next := update L.next a b }

/-- The assignment `a->prev = b`. -/
def setPrev (L : Links ν) (a b : ν) : Links ν := { L with prev := update L.prev a b }

/-- A node is taken out: `b->next->prev = b->prev; b->prev->next = b->next`. -/
def unlink (L : Links ν) (b : ν) : Links ν :=
  let L := L.setPrev (L.next b) (L.prev b)
  L.setNext (L.prev b) (L.next b)

/-- A node is put in right after the head: `b->next = head->next; b->prev = head;
head->next->prev = b; head->next = b`. -/
def pushFront (L : Links ν) (head b : ν) : Links ν :=
  let L := L.setNext b (L.next head)
  let L := L.setPrev b head
  let L := L.setPrev (L.next head) b
  L.setNext head b

/-- A node that is taken out is skipped. -/
theorem Ring.unlink (h : L.Ring head (l ++ b :: m)) : (L.unlink b).Ring head (l ++ m) := by
  have hnodup := h.nodup
  obtain ⟨xs, p, hxs⟩ : ∃ xs p, head :: l = xs ++ [p] :=
    ⟨_, _, (dropLast_append_getLast (cons_ne_nil head l)).symm⟩
  obtain ⟨q, ys, hys⟩ : ∃ q ys, m ++ [head] = q :: ys := exists_cons_of_ne_nil (by simp)
  have hp : p ∈ head :: l := hxs ▸ by simp
  have hq : q ∈ m ++ [head] := hys ▸ by simp
  have hsplit : head :: (l ++ b :: m ++ [head]) = xs ++ p :: b :: q :: ys := by
    rw [append_assoc, cons_append, hys, ← cons_append, hxs]
    simp
  have hchain := h.chain
  rw [hsplit, isChain_append_cons_cons, isChain_cons_cons] at hchain
  obtain ⟨hfront, ⟨hpb, hbp⟩, ⟨hbq, hqb⟩, hback⟩ := hchain
  rw [nodup_cons, mem_append, mem_cons, nodup_append, nodup_cons] at hnodup
  obtain ⟨hhead, hl, ⟨hbm, hm⟩, hlm⟩ := hnodup
  have hne : q ≠ b := by
    rintro rfl
    rcases mem_append.mp hq with hmem | hmem
    · exact hbm hmem
    · rw [mem_singleton] at hmem
      exact hhead (.inr (.inl hmem.symm))
  have hlinks : L.unlink b = ⟨update L.next p q, update L.prev q p⟩ := by
    simp only [Links.unlink, setPrev, setNext, hbp, hbq, update_of_ne hne.symm]
  constructor
  · have hjoin : head :: (l ++ m ++ [head]) = xs ++ p :: q :: ys := by
      rw [append_assoc, hys, ← cons_append, hxs]
      simp
    rw [hjoin, isChain_append_cons_cons, hlinks]
    refine ⟨isChain_congr hfront ?_ ?_, ⟨update_self .., update_self ..⟩, isChain_congr hback ?_ ?_⟩
    · intro x hx
      refine update_of_ne ?_ _ _
      rintro rfl
      have hdup : (head :: l).Nodup := nodup_cons.mpr ⟨fun hmem => hhead (.inl hmem), hl⟩
      rw [hxs, nodup_append] at hdup
      rw [dropLast_concat] at hx
      exact hdup.2.2 x hx x (by simp) rfl
    · intro x hx
      refine update_of_ne ?_ _ _
      rintro rfl
      rw [← hxs, tail_cons] at hx
      rcases mem_append.mp hq with hmem | hmem
      · exact hlm x hx x (mem_cons_of_mem b hmem) rfl
      · exact hhead (.inl (mem_singleton.mp hmem ▸ hx))
    · intro x hx
      refine update_of_ne ?_ _ _
      rintro rfl
      rw [← hys, dropLast_concat] at hx
      rcases mem_cons.mp hp with hmem | hmem
      · exact hhead (.inr (.inr (hmem ▸ hx)))
      · exact hlm x hmem x (mem_cons_of_mem b hx) rfl
    · intro x hx
      refine update_of_ne ?_ _ _
      rintro rfl
      have hdup : (m ++ [head]).Nodup := (perm_append_singleton head m).nodup_iff.mpr
        (nodup_cons.mpr ⟨fun hmem => hhead (.inr (.inr hmem)), hm⟩)
      rw [hys, nodup_cons] at hdup
      exact hdup.1 hx
  · refine h.nodup.sublist ?_
    exact List.Sublist.cons_cons head (List.Sublist.append_left (sublist_cons_self b m) l)

/-- A node that is put in comes first. -/
theorem Ring.pushFront (h : L.Ring head l) (hb : b ∉ head :: l) :
    (L.pushFront head b).Ring head (b :: l) := by
  obtain ⟨q, ys, hys⟩ : ∃ q ys, l ++ [head] = q :: ys := exists_cons_of_ne_nil (by simp)
  have hchain := h.chain
  rw [hys, isChain_cons_cons] at hchain
  obtain ⟨⟨hnext, hprev⟩, hrest⟩ := hchain
  have hnodup := h.nodup
  rw [nodup_cons] at hnodup
  have hbhead : b ≠ head := fun heq => hb (heq ▸ mem_cons_self)
  have hbmem : ∀ x ∈ l ++ [head], x ≠ b := by
    rintro x hx rfl
    refine hb ?_
    rw [mem_append, mem_singleton] at hx
    exact mem_cons.mpr hx.symm
  have hqb : q ≠ b := hbmem q (hys ▸ mem_cons_self)
  have hlinks : L.pushFront head b = ⟨update (update L.next b q) head b,
      update (update L.prev b head) q b⟩ := by
    simp only [Links.pushFront, setPrev, setNext, hnext, update_of_ne hbhead.symm]
  constructor
  · rw [cons_append, hys, isChain_cons_cons, isChain_cons_cons, hlinks]
    refine ⟨⟨by simp, ?_⟩, ⟨?_, by simp⟩, isChain_congr hrest ?_ ?_⟩
    · simp [update_of_ne hqb.symm]
    · simp [update_of_ne hbhead]
    · intro x hx
      rw [← hys, dropLast_concat] at hx
      have hxhead : x ≠ head := fun heq => hnodup.1 (heq ▸ hx)
      have hxb : x ≠ b := hbmem x (mem_append_left [head] hx)
      simp [update_of_ne hxhead, update_of_ne hxb]
    · intro x hx
      have hxq : x ≠ q := by
        rintro rfl
        have hdup : (l ++ [head]).Nodup := (perm_append_singleton head l).nodup_iff.mpr h.nodup
        rw [hys, nodup_cons] at hdup
        exact hdup.1 hx
      have hxb : x ≠ b := hbmem x (hys ▸ mem_cons_of_mem q hx)
      simp [update_of_ne hxq, update_of_ne hxb]
  · rw [nodup_cons, nodup_cons, mem_cons]
    refine ⟨?_, fun hmem => hb (mem_cons_of_mem head hmem), hnodup.2⟩
    rintro (heq | hmem)
    · exact hbhead heq.symm
    · exact hnodup.1 hmem

/-- Nodes that are put in one after the other come in the opposite order. -/
theorem Ring.foldl_pushFront (h : L.Ring head l) {bs : List ν}
    (hbs : (head :: (bs.reverse ++ l)).Nodup) :
    (bs.foldl (fun L b => L.pushFront head b) L).Ring head (bs.reverse ++ l) := by
  induction bs generalizing L l with
  | nil => exact h
  | cons b bs ih =>
    rw [reverse_cons, append_assoc, singleton_append] at hbs ⊢
    refine ih (h.pushFront ?_) hbs
    have hsub : (head :: b :: l).Nodup :=
      hbs.sublist (List.Sublist.cons_cons head (sublist_append_right _ _))
    intro hmem
    have hdup := (List.Perm.swap b head l).nodup_iff.mp hsub
    exact (nodup_cons.mp hdup).1 hmem

/-- The walk `for(b = ...; b != head; b = step(b)) if(P(b)) return b;`, for a number of rounds. -/
def scan (step : ν → ν) (head : ν) (P : ν → Bool) : ℕ → ν → Option ν
  | 0, _ => none
  | n + 1, b => if b = head then none else if P b then some b else scan step head P n (step b)

theorem scan_of_isChain {P : ν → Bool} {n : ℕ} (h : (a :: (l ++ [head])).IsChain L.Joined)
    (hhead : head ∉ l) (hn : l.length < n) : scan L.next head P n (L.next a) = l.find? P := by
  induction l generalizing a n with
  | nil =>
    obtain ⟨n, rfl⟩ : ∃ k, n = k + 1 := ⟨n - 1, by simp at hn; omega⟩
    rw [nil_append, isChain_cons_cons] at h
    rw [h.1.1, scan, if_pos rfl, find?_nil]
  | cons b l ih =>
    obtain ⟨n, rfl⟩ : ∃ k, n = k + 1 := ⟨n - 1, by simp at hn; omega⟩
    rw [cons_append, isChain_cons_cons] at h
    rw [mem_cons, not_or] at hhead
    rw [h.1.1, scan, if_neg (Ne.symm hhead.1), find?_cons]
    cases P b with
    | true => rfl
    | false => exact ih h.2 hhead.2 (by simpa using hn)

/-- Following `next` from the head is a search from the front. -/
theorem Ring.scan_next (h : L.Ring head l) (P : ν → Bool) {n : ℕ} (hn : l.length < n) :
    scan L.next head P n (L.next head) = l.find? P :=
  scan_of_isChain h.chain (nodup_cons.mp h.nodup).1 hn

/-- Following `prev` from the head is a search from the back. -/
theorem Ring.scan_prev (h : L.Ring head l) (P : ν → Bool) {n : ℕ} (hn : l.length < n) :
    scan L.prev head P n (L.prev head) = l.reverse.find? P := by
  refine scan_of_isChain (L := ⟨L.prev, L.next⟩) ?_ ?_ (by simpa using hn)
  · have hrev := isChain_reverse.mpr h.chain
    rw [reverse_cons, reverse_append, reverse_singleton, singleton_append, cons_append] at hrev
    exact hrev.imp fun _ _ hab => ⟨hab.2, hab.1⟩
  · rw [mem_reverse]
    exact (nodup_cons.mp h.nodup).1

end Assignments

end Links
