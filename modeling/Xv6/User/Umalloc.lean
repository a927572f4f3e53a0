import Mathlib.Data.List.Chain
import Mathlib.Data.List.Cycle
import Mathlib.Logic.Function.Basic
import Xv6.Lib.Transition

/-!
# The user heap

`malloc` and `free` of `user/umalloc.c`. The free blocks form a ring in the order of their
addresses, with `base` as its lowest member; `free` looks for the place of a block from `freep` on,
and joins the block to its neighbours; `malloc` takes the first block that is large enough, or its
tail, and asks `sbrk` for more if it comes round to `freep`. Addresses are those of headers, of 16
bytes each.
-/

namespace Xv6.Umalloc

open Function List

/-- Where `base` is, and where the heap begins. -/
structure Arena where
  base : ℕ
  start : ℕ
  below : base + 16 ≤ start

/-- The headers, by their addresses; `freep`, which may be 0; the end of the heap; and which of the
next calls of `sbrk` succeed. -/
structure Heap where
  ptr : ℕ → ℕ
  size : ℕ → ℕ
  freep : Option ℕ
  brk : ℕ
  grants : ℕ → Bool

namespace Heap

variable (h : Heap)

/-- The assignment `p->s.ptr = q`. -/
def setPtr (p q : ℕ) : Heap := { h with ptr := update h.ptr p q }

/-- The assignment `p->s.size = n`. -/
def setSize (p n : ℕ) : Heap := { h with size := update h.size p n }

/-- The loop of `free`, which looks for the free block before `bp`. -/
def freeLoop (bp : ℕ) : ℕ → ℕ → Option ℕ
  | 0, _ => none
  | fuel + 1, p =>
    if p < bp ∧ bp < h.ptr p then some p
    else if h.ptr p ≤ p ∧ (p < bp ∨ bp < h.ptr p) then some p
    else freeLoop bp fuel (h.ptr p)

/-- The rest of `free`: `bp` is joined to the free blocks around it, or linked to them. -/
def insert (p bp : ℕ) : Heap :=
  let q := h.ptr p
  let h := if bp + 16 * h.size bp = q then
      (h.setSize bp ((h.size bp + h.size q) % 2 ^ 32)).setPtr bp (h.ptr q)
    else h.setPtr bp q
  let h := if p + 16 * h.size p = bp then
      (h.setSize p ((h.size p + h.size bp) % 2 ^ 32)).setPtr p (h.ptr bp)
    else h.setPtr p bp
  { h with freep := some p }

/-- `free`; there is no result if the loop does not end within `fuel` rounds. -/
def free (fuel ap : ℕ) : Option Heap := do
  let p ← h.freeLoop (ap - 16) fuel (← h.freep)
  return h.insert p (ap - 16)

/-- `sbrk`: it fails, or returns the end of the heap and moves it by `k` bytes. -/
def sbrk (k : ℤ) : Option ℕ × Heap :=
  let h' := { h with grants := fun i => h.grants (i + 1) }
  if h.grants 0 then (some h.brk, { h' with brk := (h.brk + k).toNat }) else (none, h')

/-- `morecore`; the argument of `sbrk` is an `int`. -/
def morecore (fuel nu : ℕ) : Option (Option ℕ × Heap) :=
  let nu := if nu < 4096 then 4096 else nu
  match h.sbrk (Int.bmod (nu * 16) (2 ^ 32)) with
  | (none, h) => some (none, h)
  | (some p, h) => do
    let h ← (h.setSize p nu).free fuel (p + 16)
    return (h.freep, h)

/-- `malloc` takes the block `p`, which comes after `prevp`, or its tail. -/
def take (nunits prevp p : ℕ) : ℕ × Heap :=
  if h.size p = nunits then (p + 16, { h.setPtr prevp (h.ptr p) with freep := some prevp })
  else
    let h := h.setSize p (h.size p - nunits)
    let p := p + 16 * h.size p
    (p + 16, { h.setSize p nunits with freep := some prevp })

def mallocLoop (nunits : ℕ) : ℕ → ℕ → ℕ → Heap → Option (Option ℕ × Heap)
  | 0, _, _, _ => none
  | fuel + 1, prevp, p, h =>
    if nunits ≤ h.size p then
      some (some (h.take nunits prevp p).1, (h.take nunits prevp p).2)
    else if h.freep = some p then
      match h.morecore fuel nunits with
      | none => none
      | some (none, h) => some (none, h)
      | some (some p, h) => mallocLoop nunits fuel p (h.ptr p) h
    else mallocLoop nunits fuel p (h.ptr p) h

/-- The list is made at the first call. -/
def prepare (base : ℕ) : Heap :=
  if h.freep = none then { (h.setPtr base base).setSize base 0 with freep := some base } else h

def malloc (base fuel nbytes : ℕ) : Option (Option ℕ × Heap) := do
  let nunits := ((nbytes + 16 - 1) / 16 + 1) % 2 ^ 32
  let h := h.prepare base
  let prevp ← h.freep
  mallocLoop nunits fuel prevp (h.ptr prevp) h

end Heap

open Heap

/-! ## The ring of free blocks -/

/-- From `b` on, the pointers lead through the list `N` and back, in the order of the addresses. -/
structure Ring (b : ℕ) (ptr : ℕ → ℕ) (N : List ℕ) : Prop where
  chain : (N ++ [b]).IsChain fun x y => ptr x = y
  order : N.Pairwise (· < ·)
  head : N.head? = some b

theorem isChain_congr {R S : ℕ → ℕ → Prop} {l : List ℕ} {z : ℕ}
    (hRS : ∀ x ∈ l, ∀ y, R x y → S x y) (h : (l ++ [z]).IsChain R) : (l ++ [z]).IsChain S := by
  induction l with
  | nil => exact isChain_singleton z
  | cons x l ih =>
    rw [cons_append, isChain_cons] at h ⊢
    exact ⟨fun y hy => hRS x mem_cons_self y (h.1 y hy),
      ih (fun a ha => hRS a (mem_cons_of_mem x ha)) h.2⟩

namespace Ring

variable {b p q x : ℕ} {ptr ptr' : ℕ → ℕ} {N c d : List ℕ}

theorem base_mem (r : Ring b ptr N) : b ∈ N := mem_of_mem_head? r.head

theorem base_le (r : Ring b ptr N) (hx : x ∈ N) : b ≤ x := by
  obtain ⟨t, rfl⟩ := head?_eq_some_iff.mp r.head
  rcases mem_cons.mp hx with rfl | hx
  · exact le_rfl
  · exact ((pairwise_cons.mp r.order).1 x hx).le

theorem congr (r : Ring b ptr N) (hptr : ∀ a ∈ N, ptr' a = ptr a) : Ring b ptr' N :=
  ⟨isChain_congr (fun a ha _ hab => (hptr a ha).trans hab) r.chain, r.order, r.head⟩

variable (r : Ring b ptr (c ++ p :: d))

include r

theorem chain_split :
    (c ++ [p]).IsChain (fun x y => ptr x = y) ∧ (p :: (d ++ [b])).IsChain fun x y => ptr x = y := by
  have hchain := r.chain
  rwa [append_assoc, cons_append, isChain_split] at hchain

theorem lt_of_mem : (∀ a ∈ c, a < p) ∧ ∀ a ∈ d, p < a := by
  have horder := pairwise_append.mp r.order
  exact ⟨fun a ha => horder.2.2 a ha p mem_cons_self, (pairwise_cons.mp horder.2.1).1⟩

theorem of_split {e : List ℕ} (hptr : ∀ a ∈ c, ptr' a = ptr a)
    (hchain : (p :: (e ++ [b])).IsChain fun x y => ptr' x = y)
    (horder : (c ++ p :: e).Pairwise (· < ·)) : Ring b ptr' (c ++ p :: e) := by
  refine ⟨?_, horder, ?_⟩
  · rw [append_assoc, cons_append, isChain_split]
    exact ⟨isChain_congr (fun a ha _ hab => (hptr a ha).trans hab) r.chain_split.1, hchain⟩
  · have hhead := r.head
    cases c <;> exact hhead

omit r in
theorem unlink (r : Ring b ptr (c ++ p :: x :: d)) :
    Ring b (update ptr p (ptr x)) (c ++ p :: d) := by
  obtain ⟨hc, hd⟩ := r.lt_of_mem
  obtain ⟨hx, htail⟩ := isChain_cons.mp (isChain_cons_cons.mp r.chain_split.2).2
  refine r.of_split (fun a ha => update_of_ne (hc a ha).ne ..) (isChain_cons.mpr
    ⟨fun y hy => by rw [update_self, hx y hy], isChain_congr (fun a ha y hay => ?_) htail⟩)
    (r.order.sublist (((sublist_cons_self x d).cons_cons p).append_left c))
  rwa [update_of_ne (hd a (mem_cons_of_mem x ha)).ne']

theorem link (hp : p < x) (hx : ∀ a ∈ d, x < a) :
    Ring b (update (update ptr x (ptr p)) p x) (c ++ p :: x :: d) := by
  obtain ⟨hc, hd⟩ := r.lt_of_mem
  obtain ⟨hnext, htail⟩ := isChain_cons.mp r.chain_split.2
  refine r.of_split (fun a ha => ?_) (isChain_cons_cons.mpr ⟨update_self ..,
    isChain_cons.mpr ⟨fun y hy => ?_, isChain_congr (fun a ha y hay => ?_) htail⟩⟩) ?_
  · rw [update_of_ne (hc a ha).ne, update_of_ne ((hc a ha).trans hp).ne]
  · rw [update_of_ne hp.ne', update_self, hnext y hy]
  · rwa [update_of_ne (hd a ha).ne', update_of_ne (hx a ha).ne']
  · obtain ⟨hcp, hpd, hcross⟩ := pairwise_append.mp r.order
    refine pairwise_append.mpr ⟨hcp, ?_, fun a ha y hy => ?_⟩
    · simp only [pairwise_cons, mem_cons, forall_eq_or_imp]
      exact ⟨⟨hp, hd⟩, hx, (pairwise_cons.mp hpd).2⟩
    · rcases mem_cons.mp hy with rfl | hy
      · exact hc a ha
      · rcases mem_cons.mp hy with rfl | hy
        · exact (hc a ha).trans hp
        · exact hcross a ha y (mem_cons_of_mem p hy)

theorem ptr_eq : ptr p = d.headD b := by
  have hnext := (isChain_cons.mp r.chain_split.2).1
  cases d <;> exact hnext _ rfl

omit r in
theorem exists_place (r : Ring b ptr N) (hb : b < x) (hx : ∀ a ∈ N, a ≠ x) :
    ∃ c p d, N = c ++ p :: d ∧ p < x ∧ ∀ a ∈ d, x < a := by
  obtain ⟨l, rfl⟩ := head?_eq_some_iff.mp r.head
  have horder := r.order
  clear r
  induction l generalizing b with
  | nil => exact ⟨[], b, [], rfl, hb, by simp⟩
  | cons y l ih =>
    have horder' := (pairwise_cons.mp horder).2
    rcases lt_or_ge y x with hyx | hyx
    · obtain ⟨c, p, d, hcd, hpx, hd⟩ := ih hyx (fun a ha => hx a (mem_cons_of_mem b ha)) horder'
      exact ⟨b :: c, p, d, congrArg (b :: ·) hcd, hpx, hd⟩
    · have hxy : x < y := lt_of_le_of_ne hyx (hx y (by simp)).symm
      exact ⟨[], b, y :: l, rfl, hb, forall_mem_cons.mpr
        ⟨hxy, fun a ha => hxy.trans ((pairwise_cons.mp horder').1 a ha)⟩⟩

/-- The condition at which the loop of `free` ends. -/
def Fits (ptr : ℕ → ℕ) (x p : ℕ) : Prop := p < x ∧ x < ptr p ∨ ptr p ≤ p ∧ (p < x ∨ x < ptr p)

theorem fits_iff (hb : b < x) : Fits ptr x p ↔ p < x ∧ ∀ a ∈ d, x < a := by
  have hbase := r.base_le (x := p) (by simp)
  have hlt := r.lt_of_mem.2
  have horder := (pairwise_cons.mp (pairwise_append.mp r.order).2.1).2
  rw [Fits, r.ptr_eq]
  cases d with
  | nil =>
    simp only [headD_nil, not_mem_nil, false_imp_iff, implies_true, and_true]
    omega
  | cons z d =>
    have hz := hlt z mem_cons_self
    rw [headD_cons, forall_mem_cons]
    constructor
    · intro hfits
      have hxz : p < x ∧ x < z := by omega
      exact ⟨hxz.1, hxz.2, fun a ha => hxz.2.trans ((pairwise_cons.mp horder).1 a ha)⟩
    · rintro ⟨hp, hxz, -⟩
      exact .inl ⟨hp, hxz⟩

omit r in
theorem rotate (r : Ring b ptr N) (hx : x ∈ N) :
    ∃ c, (x :: (c ++ [x])).IsChain (fun a y => ptr a = y) ∧ N.Perm (x :: c) := by
  obtain ⟨t, rfl⟩ := head?_eq_some_iff.mp r.head
  obtain ⟨c, d, hcd⟩ := append_of_mem hx
  refine ⟨d ++ c, ?_, ?_⟩
  · have heq : ((b :: t : List ℕ) : Cycle ℕ) = (x :: (d ++ c) : List ℕ) := by
      rw [hcd, Cycle.coe_eq_coe]
      exact isRotated_append
    rw [← Cycle.chain_coe_cons, ← heq]
    exact r.chain
  · rw [hcd]
    exact perm_append_comm

end Ring

/-! ## The blocks -/

namespace Heap

variable (h : Heap)

/-- The end of a block, whose header is there even if its size is 0. -/
def stop (a : ℕ) : ℕ := a + 16 * max (h.size a) 1

def Apart (a b : ℕ) : Prop := h.stop a ≤ b ∨ h.stop b ≤ a

/-- No block ends where the next begins. -/
def Gaps (N : List ℕ) : Prop := N.IsChain fun a b => a + 16 * h.size a ≠ b

/-- A block is put into the list after `p`. -/
def link (p bp : ℕ) : Heap := (h.setPtr bp (h.ptr p)).setPtr p bp

/-- A block takes in the next one, if it ends there. -/
def join (x y : ℕ) : Heap :=
  if x + 16 * h.size x = y then
    (h.setSize x ((h.size x + h.size y) % 2 ^ 32)).setPtr x (h.ptr y)
  else h

theorem insert_eq {p bp : ℕ} (hp : p < bp) (hq : h.ptr p ≠ bp) : h.insert p bp =
    { ((h.link p bp).join bp (h.ptr p)).join p bp with freep := some p } := by
  have hne : bp ≠ p := hp.ne'
  by_cases hadj : bp + 16 * h.size bp = h.ptr p
  · have hqp : h.ptr p ≠ p := by omega
    have hback : update (update h.ptr p bp) bp (h.ptr p) (h.ptr p) = h.ptr (h.ptr p) := by
      rw [update_of_ne hq, update_of_ne hqp]
    by_cases hb : p + 16 * h.size p = bp <;>
      simp [insert, join, link, setPtr, setSize, hadj, hb, hne.symm, hback, update_comm hne]
  · by_cases hb : p + 16 * h.size p = bp <;>
      simp [insert, join, link, setPtr, setSize, hadj, hb, hne]

theorem insert_brk (p bp : ℕ) : (h.insert p bp).brk = h.brk := by
  unfold insert
  dsimp only
  split_ifs <;> rfl

theorem insert_size {p bp : ℕ} (hq : bp + 16 * h.size bp ≠ h.ptr p) : (h.insert p bp).size =
    if p + 16 * h.size p = bp then update h.size p ((h.size p + h.size bp) % 2 ^ 32)
    else h.size := by
  by_cases hb : p + 16 * h.size p = bp <;> simp [insert, setPtr, setSize, hq, hb]

theorem insert_size_of_ne {p bp a : ℕ} (hp : a ≠ p) (hbp : a ≠ bp) :
    (h.insert p bp).size a = h.size a := by
  unfold insert
  dsimp only
  split_ifs <;> simp [setPtr, setSize, hp, hbp]

theorem lt_stop (a : ℕ) : a < h.stop a := by
  unfold stop
  omega

theorem Apart.symm {h : Heap} {a b : ℕ} (hab : h.Apart a b) : h.Apart b a := Or.symm hab

namespace Gaps

variable {h h' : Heap} {c d N : List ℕ} {p : ℕ}

theorem congr (g : h.Gaps N) (hsize : ∀ a ∈ N, h'.size a = h.size a) : h'.Gaps N :=
  g.imp_of_mem_imp fun a _ ha _ hne => by rwa [hsize a ha]

theorem split (g : h.Gaps (c ++ p :: d)) : h.Gaps (c ++ [p]) ∧ h.Gaps (p :: d) := isChain_split.mp g

theorem glue (g : h.Gaps (c ++ [p])) (hsize : ∀ a ∈ c, h'.size a = h.size a)
    (hp : ∀ a ∈ d.head?, p + 16 * h'.size p ≠ a) (hd : h'.Gaps d) : h'.Gaps (c ++ p :: d) :=
  isChain_split.mpr ⟨isChain_congr (fun a ha _ hne => by rwa [hsize a ha]) g,
    isChain_cons.mpr ⟨hp, hd⟩⟩

end Gaps

end Heap

/-- Blocks that do not overlap, inside the heap; `base` counts as one. -/
structure Blocks (A : Arena) (h : Heap) (B : List ℕ) : Prop where
  apart : B.Pairwise h.Apart
  inside : ∀ a ∈ B, h.stop a ≤ h.brk
  low : ∀ a ∈ B, a ≠ A.base → A.start ≤ a
  zero : h.size A.base = 0
  start_le : A.start ≤ h.brk

namespace Blocks

variable {A : Arena} {h h' : Heap} {B B' : List ℕ} {x y n : ℕ}

theorem perm (s : Blocks A h B) (hB : B.Perm B') : Blocks A h B' :=
  ⟨hB.pairwise s.apart Heap.Apart.symm, fun a ha => s.inside a (hB.mem_iff.mpr ha),
    fun a ha => s.low a (hB.mem_iff.mpr ha), s.zero, s.start_le⟩

theorem nodup (s : Blocks A h B) : B.Nodup := s.apart.imp fun {a b} hab heq => by
  have hlt := h.lt_stop a
  subst heq
  unfold Heap.Apart at hab
  omega

theorem congr (s : Blocks A h B) (hsize : ∀ a ∈ B, h'.size a = h.size a)
    (hbrk : h.brk ≤ h'.brk) (hzero : h'.size A.base = 0) : Blocks A h' B := by
  have hstop : ∀ a ∈ B, h'.stop a = h.stop a := fun a ha => by
    rw [Heap.stop, hsize a ha, Heap.stop]
  refine ⟨s.apart.imp_of_mem fun {a b} ha hb hab => ?_, fun a ha => ?_, s.low, hzero,
    s.start_le.trans hbrk⟩
  · rwa [Heap.Apart, hstop a ha, hstop b hb]
  · exact (hstop a ha).trans_le ((s.inside a ha).trans hbrk)

theorem place (s : Blocks A h B) (hlow : A.start ≤ x) (hin : x + 16 * max n 1 ≤ h.brk)
    (hx : ∀ a ∈ B, x + 16 * max n 1 ≤ a ∨ h.stop a ≤ x) :
    Blocks A (h.setSize x n) (x :: B) := by
  have hself : (h.setSize x n).stop x = x + 16 * max n 1 := by
    simp [Heap.stop, setSize]
  have hne : ∀ a ∈ B, a ≠ x := by
    rintro a ha rfl
    have hlt := h.lt_stop a
    have hor := hx a ha
    omega
  have hsize : ∀ a ∈ B, (h.setSize x n).size a = h.size a := fun a ha => update_of_ne (hne a ha) ..
  have hbase : A.base ≠ x := by
    have := A.below
    omega
  have s' : Blocks A (h.setSize x n) B :=
    s.congr hsize le_rfl ((update_of_ne hbase ..).trans s.zero)
  refine ⟨pairwise_cons.mpr ⟨fun a ha => ?_, s'.apart⟩, ?_, ?_, s'.zero, s.start_le⟩
  · rw [Heap.Apart, hself, Heap.stop, hsize a ha]
    exact hx a ha
  · exact forall_mem_cons.mpr ⟨hself.trans_le hin, s'.inside⟩
  · exact forall_mem_cons.mpr ⟨fun _ => hlow, s.low⟩

theorem of_cons (s : Blocks A h (x :: B)) :
    Blocks A h B ∧ (∀ a ∈ B, h.Apart x a) ∧ (0 < h.size x → A.start ≤ x) := by
  obtain ⟨hx, hB⟩ := pairwise_cons.mp s.apart
  refine ⟨⟨hB, (forall_mem_cons.mp s.inside).2, (forall_mem_cons.mp s.low).2, s.zero,
    s.start_le⟩, hx, fun hpos => s.low x mem_cons_self ?_⟩
  rintro rfl
  rw [s.zero] at hpos
  exact lt_irrefl 0 hpos

theorem merge (s : Blocks A h (x :: y :: B)) (hadj : x + 16 * h.size x = y) :
    Blocks A (h.setSize x ((h.size x + h.size y) % 2 ^ 32)) (x :: B) := by
  obtain ⟨s1, hx, hlow⟩ := s.of_cons
  obtain ⟨s2, hy, -⟩ := s1.of_cons
  have hxy := hx y mem_cons_self
  have hin := s1.inside y mem_cons_self
  unfold Heap.Apart Heap.stop at *
  refine s2.place (hlow (by omega)) (by omega) fun a ha => ?_
  have h1 := hx a (mem_cons_of_mem y ha)
  have h2 := hy a ha
  unfold Heap.stop
  omega

theorem split (s : Blocks A h (x :: B)) (hn : 0 < n) (hlt : n < h.size x)
    (hy : y = x + 16 * (h.size x - n)) :
    Blocks A ((h.setSize x (h.size x - n)).setSize y n) (y :: x :: B) := by
  obtain ⟨s1, hx, hlow⟩ := s.of_cons
  have hin := s.inside x mem_cons_self
  unfold Heap.Apart Heap.stop at *
  have s2 := s1.place (n := h.size x - n) (hlow (by omega)) (by omega) fun a ha => by
    have h1 := hx a ha
    unfold Heap.stop
    omega
  refine s2.place ((hlow (by omega)).trans (by omega)) ?_ fun a ha => ?_
  · change _ ≤ h.brk
    omega
  · unfold Heap.stop setSize
    dsimp only
    rcases mem_cons.mp ha with rfl | ha
    · rw [update_self]
      omega
    · have h1 := hx a ha
      rw [update_of_ne (by rintro rfl; omega)]
      omega

end Blocks

/-! ## `free` -/

namespace Heap

variable {h : Heap} {bp p fuel : ℕ}

theorem freeLoop_of_fits (hp : Ring.Fits h.ptr bp p) : h.freeLoop bp (fuel + 1) p = some p := by
  unfold Ring.Fits at hp
  rw [freeLoop]
  split_ifs <;> tauto

theorem freeLoop_of_not_fits (hp : ¬ Ring.Fits h.ptr bp p) :
    h.freeLoop bp (fuel + 1) p = h.freeLoop bp fuel (h.ptr p) := by
  unfold Ring.Fits at hp
  rw [freeLoop, if_neg fun hc => hp (.inl hc), if_neg fun hc => hp (.inr hc)]

end Heap

/-- The list `N` of the free blocks, with `base`, and the blocks `live` that the program has. -/
structure Shape (A : Arena) (h : Heap) (N live : List ℕ) : Prop where
  ring : Ring A.base h.ptr N
  blocks : Blocks A h (N ++ live)

theorem perm_mid (c d live : List ℕ) (x : ℕ) :
    (c ++ x :: d ++ live).Perm (x :: (c ++ d ++ live)) := by
  rw [append_assoc, append_assoc, cons_append]
  exact perm_middle

namespace Shape

variable {A : Arena} {h : Heap} {N c d live : List ℕ} {p x y bp : ℕ}

theorem stop_le (s : Shape A h (c ++ x :: d) live) (hy : y ∈ d) : h.stop x ≤ y := by
  have hlt := (s.ring.lt_of_mem).2 y hy
  have hapart := ((s.blocks.perm (perm_mid c d live x)).of_cons).2.1 y (by simp [hy])
  have hstop := h.lt_stop y
  unfold Heap.Apart at hapart
  omega

theorem join (s : Shape A h (c ++ x :: y :: d) live) (hd : h.Gaps (y :: d)) :
    ∃ e, Shape A (h.join x y) (c ++ x :: e) live ∧ (h.join x y).Gaps e ∧
      (∀ a ∈ e.head?, x + 16 * (h.join x y).size x ≠ a) ∧
      (∀ a, a ≠ x → (h.join x y).size a = h.size a) ∧
      if x + 16 * h.size x = y then e = d else e = y :: d := by
  have hxd := s.ring.lt_of_mem.2
  unfold Heap.join
  split_ifs with hadj
  · have hb := ((s.blocks.perm (perm_mid c (y :: d) live x)).perm
      ((perm_mid c d live y).cons x)).merge hadj
    refine ⟨d, ⟨s.ring.unlink, (hb.perm (perm_mid c d live x).symm).congr (fun _ _ => rfl) le_rfl
      hb.zero⟩, Heap.Gaps.congr (h := h) hd.tail fun a ha => ?_, fun z hz => ?_,
      fun a ha => update_of_ne ha .., rfl⟩
    · exact update_of_ne (hxd a (mem_cons_of_mem y ha)).ne' ..
    · change x + 16 * update h.size x _ x ≠ z
      have hle := Shape.stop_le (c := c ++ [x]) (by simpa using s) (mem_of_mem_head? hz)
      have hgap := (isChain_cons.mp hd).1 z hz
      rw [update_self]
      unfold Heap.stop at hle
      omega
  · exact ⟨y :: d, s, hd, by simpa using hadj, fun _ _ => rfl, rfl⟩

theorem insert (s : Shape A h (c ++ p :: d) (bp :: live)) (hg : h.Gaps (c ++ p :: d)) (hp : p < bp)
    (hd : ∀ a ∈ d, bp < a) :
    ∃ N, Shape A (h.insert p bp) N live ∧ (h.insert p bp).Gaps N ∧ p ∈ N ∧
      if p + 16 * h.size p = bp then N ⊆ c ++ p :: d else bp ∈ N := by
  have hbase := s.ring.base_le (x := p) (by simp)
  have hcp := s.ring.lt_of_mem.1
  obtain ⟨hgc, hgd⟩ := hg.split
  have hlink : Shape A (h.link p bp) (c ++ [p] ++ bp :: d) live := by
    rw [append_assoc]
    refine ⟨s.ring.link hp hd, (s.blocks.perm ?_).congr (fun _ _ => rfl) le_rfl s.blocks.zero⟩
    simpa using ((@perm_middle _ bp d live).cons p).append_left c
  have hnext : h.ptr p = d.headD A.base := s.ring.ptr_eq
  have hq : h.ptr p ≠ bp := by
    rw [hnext]
    cases d with
    | nil => exact (hbase.trans_lt hp).ne
    | cons q d => exact (hd q mem_cons_self).ne'
  rw [insert_eq h hp hq]
  -- first what comes behind the block, then what comes before it
  obtain ⟨e, he, hge, hsize, hed⟩ : ∃ e,
      Shape A ((h.link p bp).join bp (h.ptr p)) (c ++ p :: bp :: e) live ∧
      ((h.link p bp).join bp (h.ptr p)).Gaps (bp :: e) ∧
      (∀ a, a ≠ bp → ((h.link p bp).join bp (h.ptr p)).size a = h.size a) ∧ e ⊆ d := by
    cases d with
    | nil =>
      have hne : bp + 16 * (h.link p bp).size bp ≠ h.ptr p := by
        rw [hnext, headD_nil]
        omega
      rw [Heap.join, if_neg hne]
      exact ⟨[], by simpa using hlink, isChain_singleton bp, fun _ _ => rfl, List.Subset.refl _⟩
    | cons q d =>
      rw [hnext, headD_cons]
      obtain ⟨e, he, hge, hend, hsize, hed⟩ := hlink.join hgd.tail
      refine ⟨e, by simpa using he, isChain_cons.mpr ⟨hend, hge⟩, hsize, ?_⟩
      split_ifs at hed <;> subst hed <;> simp
  obtain ⟨f, hf, hgf, hend, hsize', hfe⟩ := he.join hge
  generalize hh : ((h.link p bp).join bp (h.ptr p)).join p bp = h2 at *
  refine ⟨c ++ p :: f, ⟨hf.ring, hf.blocks.congr (fun _ _ => rfl) le_rfl hf.blocks.zero⟩,
    hgc.glue (fun a ha => ?_) hend hgf, by simp, ?_⟩
  · have hap := hcp a ha
    exact (hsize' a hap.ne).trans (hsize a (hap.trans hp).ne)
  · rw [hsize p hp.ne] at hfe
    split_ifs at hfe ⊢ with hadj
    · subst hfe
      intro a ha
      simp only [mem_append, mem_cons] at ha ⊢
      exact ha.imp_right (Or.imp_right (@hed a))
    · subst hfe
      simp

end Shape

/-- The loop of `free` ends at a block after which `bp` belongs, if there is one ahead. -/
theorem freeLoop_eq {h : Heap} {b x : ℕ} {c : List ℕ}
    (hc : (x :: c).IsChain fun a y => h.ptr a = y) (hfits : ∃ y ∈ x :: c, Ring.Fits h.ptr b y) :
    ∃ y ∈ x :: c, Ring.Fits h.ptr b y ∧ ∃ k, ∀ fuel, h.freeLoop b (fuel + k) x = some y := by
  induction c generalizing x with
  | nil =>
    obtain ⟨y, hy, hfits⟩ := hfits
    obtain rfl := mem_singleton.mp hy
    exact ⟨y, hy, hfits, 1, fun fuel => freeLoop_of_fits hfits⟩
  | cons z c ih =>
    obtain ⟨rfl, hc⟩ := isChain_cons_cons.mp hc
    by_cases hx : Ring.Fits h.ptr b x
    · exact ⟨x, mem_cons_self, hx, 1, fun fuel => freeLoop_of_fits hx⟩
    · obtain ⟨y, hy, hfits, k, hk⟩ := ih hc <| by
        obtain ⟨y, hy, hfits⟩ := hfits
        exact ⟨y, (mem_cons.mp hy).resolve_left (by rintro rfl; exact hx hfits), hfits⟩
      refine ⟨y, mem_cons_of_mem x hy, hfits, k + 1, fun fuel => ?_⟩
      rw [← add_assoc, freeLoop_of_not_fits hx, hk]

/-- The free list in good order: no two of its blocks are adjacent, and `freep` is in it. The blocks
of the program have the sizes that they had when it got them. -/
structure Sound (A : Arena) (h : Heap) (N : List ℕ) (live : List (ℕ × ℕ)) : Prop
    extends Shape A h N (live.map Prod.fst) where
  sizes : ∀ b ∈ live, h.size b.1 = b.2
  gaps : h.Gaps N
  freep : ∃ p ∈ N, h.freep = some p

namespace Sound

variable {A : Arena} {h : Heap} {N : List ℕ} {live : List (ℕ × ℕ)} {bp n : ℕ}

/-- **`free`.** -/
theorem free (s : Sound A h N ((bp, n) :: live)) (hbp : A.base < bp) :
    ∃ c p d N', N = c ++ p :: d ∧ (∀ a ∈ d, bp < a) ∧ Sound A (h.insert p bp) N' live ∧
      (if p + 16 * h.size p = bp then N' ⊆ N else bp ∈ N') ∧
      ∃ k, ∀ fuel, h.free (fuel + k) (bp + 16) = some (h.insert p bp) := by
  obtain ⟨p0, hp0, hfreep⟩ := s.freep
  obtain ⟨-, hnodup, hne⟩ := nodup_append.mp s.blocks.nodup
  obtain ⟨l, hl, hperm⟩ := s.ring.rotate hp0
  obtain ⟨p, hp, hfits, k, hk⟩ := freeLoop_eq (x := p0) (c := l) (b := bp)
    (List.IsChain.left_of_append (by simpa using hl)) <| by
      obtain ⟨c, p, d, hN, hp, hd⟩ := s.ring.exists_place hbp fun a ha => hne a ha bp mem_cons_self
      refine ⟨p, hperm.mem_iff.mp (by simp [hN]), (Ring.fits_iff (hN ▸ s.ring) hbp).mpr ⟨hp, hd⟩⟩
  obtain ⟨c, d, rfl⟩ := append_of_mem (hperm.mem_iff.mpr hp)
  obtain ⟨hp, hd⟩ := (s.ring.fits_iff hbp).mp hfits
  obtain ⟨N', hs, hg, hpN, hif⟩ := s.toShape.insert s.gaps hp hd
  refine ⟨c, p, d, N', rfl, hd, ⟨hs, fun b hb => ?_, hg, p, hpN, rfl⟩, hif, k, fun fuel => ?_⟩
  · have hmem : b.1 ∈ live.map Prod.fst := mem_map_of_mem hb
    have hbp : b.1 ≠ bp := fun heq => (nodup_cons.mp hnodup).1 (heq ▸ hmem)
    have hp := hne p (by simp) b.1 (mem_cons_of_mem bp hmem)
    rw [h.insert_size_of_ne hp.symm hbp, s.sizes b (mem_cons_of_mem _ hb)]
  · rw [Heap.free, hfreep, Nat.add_sub_cancel]
    change (h.freeLoop bp (fuel + k) p0 >>= fun p => some (h.insert p bp)) = _
    rw [hk]
    rfl

end Sound

/-! ## `malloc` -/

namespace Sound

variable {A : Arena} {h : Heap} {N : List ℕ} {live : List (ℕ × ℕ)} {p n : ℕ}

/-- **A block is taken**, or its tail. -/
theorem take (s : Sound A h N live) (hp : p ∈ N) (hn : 0 < n) (hle : n ≤ h.size (h.ptr p)) :
    ∃ x N', (h.take n p (h.ptr p)).1 = x + 16 ∧
      Sound A (h.take n p (h.ptr p)).2 N' ((x, n) :: live) := by
  obtain ⟨c, d, rfl⟩ := append_of_mem hp
  have hnext : h.ptr p = d.headD A.base := s.ring.ptr_eq
  cases d with
  | nil =>
    rw [hnext, headD_nil, s.blocks.zero] at hle
    omega
  | cons y d =>
    rw [headD_cons] at hnext
    rw [hnext] at hle ⊢
    have hmid : c ++ p :: y :: d = c ++ [p] ++ y :: d := by simp
    have s' : Shape A h (c ++ [p] ++ y :: d) (live.map Prod.fst) := hmid ▸ s.toShape
    obtain ⟨hgc, hgd⟩ := Heap.Gaps.split (hmid ▸ s.gaps)
    have hcy := s'.ring.lt_of_mem.1
    have hyd : ∀ z ∈ d, h.stop y ≤ z := fun z hz => s'.stop_le hz
    unfold Heap.take
    split_ifs with heq
    · refine ⟨y, c ++ p :: d, rfl, ⟨s.ring.unlink, ?_⟩, forall_mem_cons.mpr ⟨heq, s.sizes⟩, ?_,
        p, by simp, rfl⟩
      · refine (s.blocks.perm ?_).congr (fun _ _ => rfl) le_rfl s.blocks.zero
        simpa using ((@perm_middle _ y d (live.map Prod.fst)).symm.cons p).append_left c
      · refine Heap.Gaps.glue (h := h) hgc.left_of_append (fun _ _ => rfl) (fun z hz => ?_) hgd.tail
        have hpy := s.stop_le (c := c) (x := p) mem_cons_self
        have hyz := hyd z (mem_of_mem_head? hz)
        change p + 16 * h.size p ≠ z
        unfold Heap.stop at *
        omega
    · have hlt : n < h.size y := lt_of_le_of_ne hle (Ne.symm heq)
      have hself : (h.setSize y (h.size y - n)).size y = h.size y - n := update_self ..
      dsimp only
      rw [hself]
      generalize hx : y + 16 * (h.size y - n) = x
      have hxy : y < x ∧ x < h.stop y := by
        unfold Heap.stop
        omega
      have hsize : ∀ a, a ≠ y → a ≠ x →
          ((h.setSize y (h.size y - n)).setSize x n).size a = h.size a := fun a hay hax =>
        (update_of_ne hax ..).trans (update_of_ne hay ..)
      have hb' := (s'.blocks.perm (perm_mid _ d _ y)).split hn hlt hx.symm
      refine ⟨x, c ++ p :: y :: d, rfl, ⟨s.ring, ?_⟩, forall_mem_cons.mpr
        ⟨update_self .., fun b hb => ?_⟩, ?_, p, by simp, rfl⟩
      · refine (hb'.perm ?_).congr (fun _ _ => rfl) le_rfl hb'.zero
        rw [hmid]
        exact ((perm_mid _ d _ y).symm.cons x).trans perm_middle.symm
      · have hmem : b.1 ∈ c ++ [p] ++ d ++ live.map Prod.fst :=
          mem_append_right _ (mem_map_of_mem hb)
        have hnodup := hb'.nodup
        simp only [nodup_cons, mem_cons, not_or] at hnodup
        refine (hsize b.1 ?_ ?_).trans (s.sizes b hb)
        · exact fun heq => hnodup.2.1 (heq ▸ hmem)
        · exact fun heq => hnodup.1.2 (heq ▸ hmem)
      · rw [hmid]
        refine hgc.glue (fun a ha => ?_) (fun z hz => ?_)
          (Heap.Gaps.congr (h := h) hgd.tail fun a ha => ?_)
        · have hay := hcy a ha
          exact hsize a hay.ne (hay.trans hxy.1).ne
        · have hyz := hyd z (mem_of_mem_head? hz)
          change y + 16 * ((h.setSize y (h.size y - n)).setSize x n).size y ≠ z
          rw [show ((h.setSize y (h.size y - n)).setSize x n).size y = h.size y - n from
            (update_of_ne hxy.1.ne ..).trans hself]
          omega
        · have hya := hyd a ha
          exact hsize a (by omega) (by omega)

end Sound

/-- A call returns, with this result, if there is fuel enough. -/
def Returns {α : Type*} (f : ℕ → Option α) (r : α) : Prop := ∃ k, ∀ fuel, f (fuel + k) = some r

theorem Returns.of_add {α : Type*} {f : ℕ → Option α} {r : α} {k : ℕ}
    (h : Returns (fun fuel => f (fuel + k)) r) : Returns f r := by
  obtain ⟨m, hm⟩ := h
  exact ⟨m + k, fun fuel => Nat.add_assoc .. ▸ hm fuel⟩

theorem Returns.unique {α : Type*} {f : ℕ → Option α} {r r' : α} (h : Returns f r)
    (h' : Returns f r') : r = r' := by
  obtain ⟨k, hk⟩ := h
  obtain ⟨m, hm⟩ := h'
  exact Option.some_inj.mp ((hk m).symm.trans (add_comm k m ▸ hm k))

/-- The loop of `malloc` comes to a block that is large enough, or round to the end `e`. -/
theorem mallocLoop_search {h : Heap} {n p e : ℕ} {c : List ℕ} (hfreep : h.freep = some e)
    (hc : (p :: (c ++ [e])).IsChain fun a b => h.ptr a = b) (he : e ∉ c) :
    ∃ y ∈ p :: c, (n ≤ h.size (h.ptr y) ∨ h.ptr y = e ∧ ∀ z ∈ c ++ [e], h.size z < n) ∧
      ∃ k, ∀ fuel, Heap.mallocLoop n (fuel + k) p (h.ptr p) h =
        Heap.mallocLoop n fuel y (h.ptr y) h := by
  induction c generalizing p with
  | nil =>
    obtain rfl : h.ptr p = e := (isChain_cons_cons.mp hc).1
    refine ⟨p, by simp, ?_, 0, fun _ => rfl⟩
    simpa using le_or_gt n (h.size (h.ptr p))
  | cons q c ih =>
    obtain ⟨rfl, hc⟩ := isChain_cons_cons.mp hc
    by_cases hq : n ≤ h.size (h.ptr p)
    · exact ⟨p, by simp, .inl hq, 0, fun _ => rfl⟩
    · obtain ⟨y, hy, hor, k, hk⟩ := ih hc fun hmem => he (mem_cons_of_mem _ hmem)
      refine ⟨y, mem_cons_of_mem p hy, hor.imp_right fun hend => ⟨hend.1, ?_⟩, k + 1,
        fun fuel => ?_⟩
      · exact forall_mem_cons.mpr ⟨not_le.mp hq, hend.2⟩
      · have hne : h.freep ≠ some (h.ptr p) := fun heq => he (by
          rw [Option.some_inj.mp (hfreep.symm.trans heq)]
          exact mem_cons_self)
        rw [← add_assoc, mallocLoop, if_neg hq, if_neg hne, hk]

namespace Sound

variable {A : Arena} {h : Heap} {N : List ℕ} {live : List (ℕ × ℕ)} {p n : ℕ}

variable (s : Sound A h N live)

include s

theorem grow {nu : ℕ} {g : ℕ → Bool} (hnu : 0 < nu) :
    Sound A (Heap.setSize { h with brk := h.brk + nu * 16, grants := g } h.brk nu) N
      ((h.brk, nu) :: live) := by
  have hb : Blocks A { h with brk := h.brk + nu * 16, grants := g } (N ++ live.map Prod.fst) :=
    s.blocks.congr (fun _ _ => rfl) (Nat.le_add_right ..) s.blocks.zero
  have hne : ∀ a ∈ N ++ live.map Prod.fst, update h.size h.brk nu a = h.size a := fun a ha =>
    update_of_ne ((h.lt_stop a).trans_le (s.blocks.inside a ha)).ne ..
  refine ⟨⟨s.ring, (hb.place s.blocks.start_le ?_ fun a ha => .inr (s.blocks.inside a ha)).perm
    perm_middle.symm⟩, forall_mem_cons.mpr ⟨update_self .., fun b hb => ?_⟩,
    s.gaps.congr fun a ha => hne a (mem_append_left _ ha), s.freep⟩
  · change _ ≤ h.brk + nu * 16
    omega
  · exact (hne _ (mem_append_right _ (mem_map_of_mem hb))).trans (s.sizes b hb)

/-- **`morecore`**, for a request that fits an `int`. A second call finds no block that the new one
could be joined to, even if a size has wrapped. -/
theorem morecore (hn : n < 2 ^ 27) :
    (∃ g, Returns (h.morecore · n) (none, { h with grants := g })) ∨
    ∃ p h' N', Returns (h.morecore · n) (some p, h') ∧ Sound A h' N' live ∧ h'.freep = some p ∧
      ((∃ a ∈ N', n ≤ h'.size a) ∨ (∃ a ∈ N, h.stop a = h.brk) ∧ ∀ a ∈ N', h'.stop a < h'.brk) := by
  obtain ⟨nu, hnu, hle, hpos, hlt⟩ :
      ∃ nu, (if n < 4096 then 4096 else n) = nu ∧ n ≤ nu ∧ 0 < nu ∧ nu < 2 ^ 27 := by
    refine ⟨_, rfl, ?_⟩
    split_ifs <;> omega
  by_cases hok : h.grants 0 = true
  · have hint : ((h.brk : ℤ) + Int.bmod ((nu : ℤ) * 16) (2 ^ 32)).toNat = h.brk + nu * 16 := by
      rw [Int.bmod_eq_of_le] <;> omega
    obtain ⟨h1, hh1⟩ : ∃ h1, setSize { h with
        brk := h.brk + nu * 16, grants := fun i => h.grants (i + 1) } h.brk nu = h1 := ⟨_, rfl⟩
    have s' : Sound A h1 N ((h.brk, nu) :: live) := hh1 ▸ s.grow hpos
    have hself : h1.size h.brk = nu := by rw [← hh1]; exact update_self ..
    have hbrk : h1.brk = h.brk + nu * 16 := by rw [← hh1]; rfl
    have hN : ∀ a ∈ N, h.stop a ≤ h.brk ∧ h1.size a = h.size a := fun a ha => by
      have hin := s.blocks.inside a (mem_append_left _ ha)
      refine ⟨hin, ?_⟩
      rw [← hh1]
      exact update_of_ne ((h.lt_stop a).trans_le hin).ne ..
    have hbase : A.base < h.brk := by
      have := A.below
      have := s.blocks.start_le
      omega
    obtain ⟨c, p, d, N', rfl, hd, hs, hif, k, hk⟩ := s'.free hbase
    obtain rfl : d = [] := eq_nil_iff_forall_not_mem.mpr fun a ha => by
      have := hd a ha
      have := (hN a (by simp [ha])).1
      have := h.lt_stop a
      omega
    obtain ⟨hp, hsize⟩ := hN p (by simp)
    have hbp : h.brk + 16 * h1.size h.brk ≠ h1.ptr p := by
      rw [s'.ring.ptr_eq, headD_nil]
      omega
    have hnew := h1.insert_size hbp
    rw [hself, hsize] at hnew
    refine .inr ⟨p, h1.insert p h.brk, N', ⟨k, fun fuel => ?_⟩, hs, rfl, ?_⟩
    · simp only [Heap.morecore, Heap.sbrk, if_pos hok, hnu, hint, hh1, hk]
      rfl
    · rw [hsize] at hif
      split_ifs at hif hnew with hadj
      · have hlt' := h.lt_stop p
        unfold Heap.stop at hp hlt'
        by_cases hwrap : h.size p + nu < 2 ^ 32
        · obtain ⟨q, hq, hfreep⟩ := hs.freep
          obtain rfl : p = q := Option.some_inj.mp hfreep
          refine .inl ⟨p, hq, ?_⟩
          rw [hnew, update_self]
          omega
        · refine .inr ⟨⟨p, by simp, ?_⟩, fun a ha => ?_⟩
          · unfold Heap.stop
            omega
          · rw [insert_brk, hbrk, Heap.stop, hnew]
            by_cases hap : a = p
            · rw [hap, update_self]
              omega
            · have hin := hN a (hif ha)
              rw [update_of_ne hap, hin.2, ← Heap.stop]
              omega
      · exact .inl ⟨h.brk, hif, by rw [hnew, hself]; exact hle⟩
  · refine .inl ⟨fun i => h.grants (i + 1), 0, fun fuel => ?_⟩
    simp only [Heap.morecore, Heap.sbrk, if_neg hok]

/-- The loop of `malloc` has returned a block, or nothing. -/
def Done (A : Arena) (live : List (ℕ × ℕ)) (n p : ℕ) (h : Heap) : Prop :=
  ∃ (r : Option ℕ) (h' : Heap) (N : List ℕ),
    Returns (fun fuel => Heap.mallocLoop n fuel p (h.ptr p) h) (r.map (· + 16), h') ∧
      Sound A h' N ((r.map (·, n)).toList ++ live)

theorem search (hp : h.freep = some p) (hn : 0 < n) :
    Done A live n p h ∨ (∀ a ∈ N, h.size a < n) ∧ ∃ y k, h.ptr y = p ∧
      ∀ fuel, Heap.mallocLoop n (fuel + k) p (h.ptr p) h = Heap.mallocLoop n fuel y p h := by
  obtain ⟨q, hq, heq⟩ := s.freep
  obtain rfl : p = q := Option.some_inj.mp (hp.symm.trans heq)
  obtain ⟨c, hc, hperm⟩ := s.ring.rotate hq
  have hnodup : (p :: c).Nodup := hperm.nodup_iff.mp (s.ring.order.imp ne_of_lt)
  obtain ⟨y, hy, hor, k, hk⟩ := mallocLoop_search (n := n) hp hc (nodup_cons.mp hnodup).1
  rcases hor with hle | ⟨rfl, hall⟩
  · obtain ⟨x, N', hx, s'⟩ := s.take (hperm.mem_iff.mpr hy) hn hle
    refine .inl ⟨some x, _, N', .of_add (k := k) ⟨1, fun fuel => ?_⟩, s'⟩
    simp only [hk, mallocLoop, if_pos hle, hx]
    rfl
  · refine .inr ⟨fun a ha => hall a ?_, y, k, rfl, hk⟩
    have := hperm.mem_iff.mp ha
    simp only [mem_cons, mem_append] at this ⊢
    tauto

theorem found (hp : h.freep = some p) (hn : 0 < n) (hbig : ∃ a ∈ N, n ≤ h.size a) :
    Done A live n p h := by
  obtain ⟨a, ha, hle⟩ := hbig
  exact (s.search hp hn).resolve_right fun hall => (hall.1 a ha).not_ge hle

theorem again (hp : h.freep = some p) (hn : 0 < n) (hlt : n < 2 ^ 27)
    (hmore : ∀ p' h' N', Sound A h' N' live → h'.freep = some p' →
      ((∃ a ∈ N', n ≤ h'.size a) ∨
        (∃ a ∈ N, h.stop a = h.brk) ∧ ∀ a ∈ N', h'.stop a < h'.brk) → Done A live n p' h') :
    Done A live n p h := by
  rcases s.search hp hn with hdone | ⟨hall, y, k, rfl, hk⟩
  · exact hdone
  obtain ⟨q, hq, heq⟩ := s.freep
  obtain rfl : h.ptr y = q := Option.some_inj.mp (hp.symm.trans heq)
  have hround : ∀ fuel r, h.morecore fuel n = some r →
      mallocLoop n (fuel + 1 + k) (h.ptr y) (h.ptr (h.ptr y)) h =
        r.1.elim (some (none, r.2)) fun q => mallocLoop n fuel q (r.2.ptr q) r.2 := by
    rintro fuel ⟨_ | _, _⟩ hr <;>
      rw [hk, mallocLoop, if_neg (hall _ hq).not_ge, if_pos hp, hr] <;> rfl
  rcases s.morecore hlt with ⟨g, m, hm⟩ | ⟨p, h', N', ⟨m, hm⟩, s', hp', hor⟩
  · refine ⟨none, _, N, .of_add (.of_add ⟨m, fun _ => hround _ _ (hm _)⟩),
      ⟨s.ring, ?_⟩, s.sizes, s.gaps, s.freep⟩
    exact s.blocks.congr (fun _ _ => rfl) le_rfl s.blocks.zero
  · obtain ⟨r, h'', N'', ⟨m', hm'⟩, s''⟩ := hmore p h' N' s' hp' hor
    refine ⟨r, h'', N'', .of_add (k := k) (.of_add (k := 1) ⟨m' + m, fun fuel => ?_⟩), s''⟩
    refine (hround (fuel + (m' + m)) (some p, h') ?_).trans ?_
    · rw [← add_assoc]
      exact hm _
    · rw [add_comm m', ← add_assoc]
      exact hm' _

theorem loop (hp : h.freep = some p) (hn : 0 < n) (hlt : n < 2 ^ 27) : Done A live n p h := by
  refine s.again hp hn hlt fun p1 h1 N1 s1 hp1 hor => ?_
  rcases hor with hbig | ⟨-, hbelow⟩
  · exact s1.found hp1 hn hbig
  refine s1.again hp1 hn hlt fun p2 h2 N₂ s2 hp2 hor => ?_
  rcases hor with hbig | ⟨⟨a, ha, htop⟩, -⟩
  · exact s2.found hp2 hn hbig
  · exact absurd htop (hbelow a ha).ne

end Sound

/-! ## Programs -/

/-- What a program does with the heap. A block is given by its header and its size. -/
inductive Act
  | malloc (nbytes : ℕ)
  | free (b : ℕ × ℕ)
  | write (b : ℕ × ℕ)

structure State where
  heap : Heap
  live : List (ℕ × ℕ)

/-- A program may put anything into its blocks, behind their headers. -/
inductive Step (A : Arena) : State → Act → State → Prop
  | malloc {s : State} {nbytes : ℕ} {r : Option ℕ} {h : Heap} : nbytes < 2 ^ 32 →
    Returns (s.heap.malloc A.base · nbytes) (r.map (· + 16), h) →
    Step A s (.malloc nbytes) ⟨h, (r.map fun a => (a, h.size a)).toList ++ s.live⟩
  | free {s : State} {b : ℕ × ℕ} {h : Heap} : b ∈ s.live →
    Returns (s.heap.free · (b.1 + 16)) h → Step A s (.free b) ⟨h, s.live.erase b⟩
  | write {s : State} {b : ℕ × ℕ} {ptr size : ℕ → ℕ} : b ∈ s.live →
    (∀ a, a ≤ b.1 ∨ b.1 + 16 * b.2 ≤ a → ptr a = s.heap.ptr a ∧ size a = s.heap.size a) →
    Step A s (.write b) ⟨{ s.heap with ptr := ptr, size := size }, s.live⟩

/-- At the start of a program there is no list. -/
def heapSystem (A : Arena) : LTS State Act where
  init s := s.heap.freep = none ∧ s.heap.brk = A.start ∧ s.live = []
  step := Step A

/-- The number of bytes that a request makes of `sbrk` is a positive `int`. -/
def Moderate (_ : State) (act : Act) : Prop := ∀ nbytes, act = .malloc nbytes → nbytes ≤ 2 ^ 31 - 32

def Disjoint (b b' : ℕ × ℕ) : Prop := b.1 + 16 * b.2 ≤ b'.1 ∨ b'.1 + 16 * b'.2 ≤ b.1

/-- From `base` the pointers lead through the blocks `l` and back. The blocks are in the order of
their addresses, none touches another, they lie inside the heap, and `freep` is one of them or
`base`. -/
structure FreeList (A : Arena) (h : Heap) (l : List ℕ) : Prop where
  circular : (A.base :: (l ++ [A.base])).IsChain fun a b => h.ptr a = b
  order : (A.base :: l).Pairwise fun a b => a + 16 * h.size a < b
  inside : ∀ a ∈ l, A.start ≤ a ∧ a + 16 * h.size a ≤ h.brk
  freep : ∃ p ∈ A.base :: l, h.freep = some p

variable {A : Arena} {h : Heap} {N : List ℕ} {live live' : List (ℕ × ℕ)} {b : ℕ × ℕ} {s s' : State}

namespace Sound

theorem freeList (s : Sound A h N live) : ∃ l, N = A.base :: l ∧ FreeList A h l := by
  obtain ⟨l, rfl⟩ := head?_eq_some_iff.mp s.ring.head
  refine ⟨l, rfl, s.ring.chain, ?_, fun a ha => ?_, s.freep⟩
  · have : IsTrans ℕ fun a b => a + 16 * h.size a < b := ⟨fun a b c hab hbc => by omega⟩
    refine isChain_iff_pairwise.mp
      (isChain_iff_forall_rel_of_append_cons_cons.mpr fun a b c d heq => ?_)
    have hgap := isChain_iff_forall_rel_of_append_cons_cons.mp s.gaps heq
    have hle := Shape.stop_le (heq ▸ s.toShape) mem_cons_self
    unfold Heap.stop at hle
    omega
  · have hb := (pairwise_cons.mp s.ring.order).1 a ha
    have hin := s.blocks.inside a (by simp [ha])
    unfold Heap.stop at hin
    exact ⟨s.blocks.low a (by simp [ha]) hb.ne', by omega⟩

theorem perm (s : Sound A h N live) (hl : live.Perm live') : Sound A h N live' :=
  ⟨⟨s.ring, s.blocks.perm ((hl.map _).append_left N)⟩, fun b hb => s.sizes b (hl.mem_iff.mpr hb),
    s.gaps, s.freep⟩

theorem start_le (s : Sound A h N live) (hb : b ∈ live) : A.start ≤ b.1 := by
  have hmem : b.1 ∈ live.map Prod.fst := mem_map_of_mem hb
  have hne := (nodup_append.mp s.blocks.nodup).2.2 _ s.ring.base_mem _ hmem
  exact s.blocks.low b.1 (mem_append_right N hmem) hne.symm

theorem disjoint (s : Sound A h N (b :: live)) :
    (∀ b' ∈ live, Disjoint b b') ∧ ∀ a ∈ N, Disjoint b (a, h.size a) := by
  have happ : ∀ a ∈ N ++ live.map Prod.fst, h.Apart b.1 a := (s.blocks.perm perm_middle).of_cons.2.1
  obtain ⟨hb, hsizes⟩ := forall_mem_cons.mp s.sizes
  unfold Heap.Apart Heap.stop at happ
  rw [hb] at happ
  refine ⟨fun b' hb' => ?_, fun a ha => ?_⟩
  · have := happ b'.1 (mem_append_right _ (mem_map_of_mem hb'))
    rw [hsizes b' hb'] at this
    unfold Disjoint
    omega
  · have := happ a (mem_append_left _ ha)
    unfold Disjoint
    omega

theorem write (s : Sound A h N live) (hb : b ∈ live) {ptr size : ℕ → ℕ}
    (hw : ∀ a, a ≤ b.1 ∨ b.1 + 16 * b.2 ≤ a → ptr a = h.ptr a ∧ size a = h.size a) :
    Sound A { h with ptr := ptr, size := size } N live := by
  have hsame : ∀ a ∈ N ++ live.map Prod.fst, ptr a = h.ptr a ∧ size a = h.size a := by
    intro a ha
    refine hw a ((eq_or_ne a b.1).elim (fun heq => .inl heq.le) fun hne => ?_)
    have : Std.Symm h.Apart := ⟨fun _ _ => Heap.Apart.symm⟩
    have happ := s.blocks.apart.forall ha (mem_append_right N (mem_map_of_mem hb)) hne
    have hlt := h.lt_stop a
    unfold Heap.Apart Heap.stop at *
    rw [s.sizes b hb] at happ
    omega
  have hN : ∀ a ∈ N, ptr a = h.ptr a ∧ size a = h.size a := fun a ha =>
    hsame a (mem_append_left _ ha)
  refine ⟨⟨s.ring.congr fun a ha => (hN a ha).1, s.blocks.congr (fun a ha => (hsame a ha).2) le_rfl
    ((hN _ s.ring.base_mem).2.trans s.blocks.zero)⟩, fun b' hb' => ?_,
    s.gaps.congr fun a ha => (hN a ha).2, s.freep⟩
  exact (hsame _ (mem_append_right N (mem_map_of_mem hb'))).2.trans (s.sizes b' hb')

end Sound

/-- The list is there, or `malloc` has not been called. -/
def Good (A : Arena) (s : State) : Prop :=
  (s.heap.freep = none ∧ s.heap.brk = A.start ∧ s.live = []) ∨ ∃ N, Sound A s.heap N s.live

namespace Good

theorem prepare (g : Good A s) : ∃ N, Sound A (s.heap.prepare A.base) N s.live := by
  unfold Heap.prepare
  rcases g with ⟨hfreep, hbrk, hlive⟩ | ⟨N, hs⟩
  · rw [if_pos hfreep, hlive]
    have hstop : A.base + 16 ≤ s.heap.brk := hbrk ▸ A.below
    refine ⟨[A.base], ⟨⟨?_, by simp, rfl⟩, ⟨by simp, ?_, by simp, update_self .., hbrk.ge⟩⟩,
      by simp, isChain_singleton _, A.base, by simp, rfl⟩
    · exact isChain_pair.mpr (update_self ..)
    · simpa [Heap.stop, setSize, setPtr] using hstop
  · obtain ⟨p, -, hp⟩ := hs.freep
    rw [if_neg (by simp [hp])]
    exact ⟨N, hs⟩

theorem malloc (g : Good A s) {nbytes : ℕ} (hle : nbytes ≤ 2 ^ 31 - 32) :
    ∃ (r : Option ℕ) (h : Heap) (N : List ℕ),
      Returns (s.heap.malloc A.base · nbytes) (r.map (· + 16), h) ∧
      Sound A h N ((r.map fun a => (a, h.size a)).toList ++ s.live) ∧
      ∀ a ∈ r, nbytes + 16 ≤ 16 * h.size a := by
  obtain ⟨N, hs⟩ := g.prepare
  obtain ⟨p, -, hp⟩ := hs.freep
  obtain ⟨n, hn⟩ : ∃ n, ((nbytes + 16 - 1) / 16 + 1) % 2 ^ 32 = n := ⟨_, rfl⟩
  obtain ⟨r, h', N', ⟨k, hk⟩, hs'⟩ := hs.loop hp (n := n) (by omega) (by omega)
  have hsize : ∀ a ∈ r, h'.size a = n := by
    rintro a rfl
    exact hs'.sizes (a, n) mem_cons_self
  refine ⟨r, h', N', ⟨k, fun fuel => ?_⟩, ?_, fun a ha => ?_⟩
  · simp only [Heap.malloc, hp, hn]
    exact hk fuel
  · rwa [Option.map_congr fun a ha => by rw [hsize a ha]]
  · have := hsize a ha
    omega

theorem free (g : Good A s) (hb : b ∈ s.live) :
    ∃ h N, Returns (s.heap.free · (b.1 + 16)) h ∧ Sound A h N (s.live.erase b) := by
  rcases g with ⟨-, -, hlive⟩ | ⟨N, hs⟩
  · simp [hlive] at hb
  have hbase := A.below.trans (hs.start_le hb)
  obtain ⟨_, p, _, N', -, -, hs', -, hk⟩ := (hs.perm (perm_cons_erase hb)).free (by omega)
  exact ⟨_, N', hk, hs'⟩

/-- **One step of a program.** -/
theorem step {act : Act} (g : Good A s) (hstep : Step A s act s') (hact : Moderate s act) :
    Good A s' := by
  cases hstep with
  | malloc _ hr =>
    obtain ⟨r, h, N, hr', hs, -⟩ := g.malloc (hact _ rfl)
    obtain ⟨hmap, rfl⟩ := Prod.mk.inj (hr.unique hr')
    obtain rfl := Option.map_injective (add_left_injective 16) hmap
    exact .inr ⟨N, hs⟩
  | free hb hr =>
    obtain ⟨h, N, hr', hs⟩ := g.free hb
    obtain rfl := hr.unique hr'
    exact .inr ⟨N, hs⟩
  | write hb hw =>
    rcases g with ⟨-, -, hlive⟩ | ⟨N, hs⟩
    · simp [hlive] at hb
    · exact .inr ⟨N, hs.write hb hw⟩

end Good

/-- **The heap of a program.** As long as no request is above `2 ^ 31 - 32`, the free list is in
order, `malloc` returns 0 or a block that is large enough, inside the heap and apart from all
others, and `free` returns. -/
theorem heap_sound (hs : ((heapSystem A).restrict Moderate).Reachable s) :
    (s.heap.freep = none ∨ ∃ l, FreeList A s.heap l) ∧
    (∀ nbytes ≤ 2 ^ 31 - 32, ∃ (r : Option ℕ) (h : Heap) (l : List ℕ),
      Returns (s.heap.malloc A.base · nbytes) (r.map (· + 16), h) ∧ FreeList A h l ∧
      ∀ a ∈ r, nbytes + 16 ≤ 16 * h.size a ∧ A.start ≤ a ∧ a + 16 * h.size a ≤ h.brk ∧
        (∀ b ∈ s.live, Disjoint (a, h.size a) b) ∧
        ∀ x ∈ l, Disjoint (a, h.size a) (x, h.size x)) ∧
    ∀ b ∈ s.live, ∃ h l, Returns (s.heap.free · (b.1 + 16)) h ∧ FreeList A h l := by
  have g : Good A s := by
    refine hs.invariant (fun _ => .inl) ?_
    rintro _ _ _ g ⟨hstep, hact⟩
    exact g.step hstep hact
  refine ⟨?_, fun nbytes hle => ?_, fun b hb => ?_⟩
  · rcases g with ⟨hfreep, -⟩ | ⟨N, hN⟩
    · exact .inl hfreep
    · obtain ⟨l, -, hl⟩ := hN.freeList
      exact .inr ⟨l, hl⟩
  · obtain ⟨r, h, N, hr, hN, hsize⟩ := g.malloc hle
    obtain ⟨l, rfl, hl⟩ := hN.freeList
    refine ⟨r, h, l, hr, hl, ?_⟩
    rintro a rfl
    have hin := hN.blocks.inside a (by simp)
    unfold Heap.stop at hin
    exact ⟨hsize a rfl, hN.start_le mem_cons_self, by omega, hN.disjoint.1,
      fun x hx => hN.disjoint.2 x (mem_cons_of_mem _ hx)⟩
  · obtain ⟨h, N, hr, hN⟩ := g.free hb
    obtain ⟨l, -, hl⟩ := hN.freeList
    exact ⟨h, l, hr, hl⟩

/-- A heap of which nothing is known but where it begins. -/
def fresh : Heap := ⟨fun _ => 0, fun _ => 0, none, 32, fun _ => true⟩

theorem heap_sound_first : ∃ h h' l, Returns (fresh.malloc 16 · 100) (some 65456, h) ∧
    Returns (h.free · 65456) h' ∧ FreeList ⟨16, 32, le_rfl⟩ h' l := by
  obtain ⟨h, hr, hsize⟩ : ∃ h, Returns (fresh.malloc 16 · 100) (some 65456, h) ∧
    h.size 65440 = 8 := ⟨_, ⟨3, fun _ => rfl⟩, rfl⟩
  have hstep : Step ⟨16, 32, le_rfl⟩ ⟨fresh, []⟩ (.malloc 100) ⟨h, [(65440, 8)]⟩ :=
    hsize ▸ .malloc (r := some 65440) (by decide) hr
  obtain ⟨h', l, hl⟩ := (heap_sound (.step (.init ⟨rfl, rfl, rfl⟩)
    ⟨hstep, by rintro _ ⟨⟩; decide⟩)).2.2 (65440, 8) mem_cons_self
  exact ⟨h, h', l, hr, hl⟩

theorem malloc_unowned : ∃ h, (heapSystem ⟨16, 32, le_rfl⟩).init ⟨fresh, []⟩ ∧
    Returns (fresh.malloc 16 · (2 ^ 32 - 1)) (some 48, h) ∧ h.brk = 48 := by
  refine ⟨_, ⟨rfl, rfl, rfl⟩, ⟨3, fun fuel => rfl⟩, ?_⟩
  rfl

end Xv6.Umalloc
