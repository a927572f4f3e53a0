import Xv6.Lib.Transition
import Xv6.Mem.Copyout

/-!
# All address spaces together

The memory system: physical memory, the pages the kernel holds for itself (trapframes and their
copies, kernel stacks, pipe buffers, the argument pages of `exec`), and any number of user address
spaces, indexed by `ι`. A step is one call of the kernel's memory code. A call that does not apply
(freeing a page the kernel does not hold, an absent space) leaves the state alone. `exec` builds its
new image as one more space and then frees the old one.
-/

namespace Xv6

open Function Option

/-- Where the linker put the kernel: its end, and the page of the trampoline code. -/
structure Layout where
  kend : ℕ
  tramp : ℕ
  base_le : 0x80000000 ≤ kend
  le_stop : kend ≤ physStop

theorem Layout.kend_pos (L : Layout) : 0 < L.kend := lt_of_lt_of_le (by decide) L.base_le

structure Space where
  pt : PageTable
  sz : ℕ

structure Sys (ι : Type) where
  phys : Phys
  kheld : List ℕ
  spaces : ι → Option Space

/-- The user memory of a process: its pages and its size. -/
structure UserMem where
  pages : ℕ → Option UPage
  sz : ℕ

namespace UserMem

def empty : UserMem := ⟨fun _ => none, 0⟩

/-- The memory after `sbrk` by `n` bytes: grown by zeroed writable pages, or shrunk. -/
def grow (um : UserMem) (n : ℤ) : UserMem :=
  if 0 < n then
    ⟨growView um.pages pteW (npages um.sz) (npages (um.sz + n.toNat) - npages um.sz),
      um.sz + n.toNat⟩
  else
    let sz' := min um.sz ((um.sz + n) % 2 ^ 64).toNat
    ⟨dropView um.pages (npages sz') (npages um.sz - npages sz'), sz'⟩

def fork (um : UserMem) : UserMem := ⟨copyView um.pages (fun _ => none) 0 (npages um.sz), um.sz⟩

end UserMem

namespace Sys

variable {ι : Type} [DecidableEq ι] (L : Layout)

/-- The state with one space replaced, and the given physical memory. -/
def put (s : Sys ι) (i : ι) (o : Option Space) (m : Phys) : Sys ι :=
  { s with phys := m, spaces := update s.spaces i o }

/-- `kalloc`, for the kernel itself. -/
def kalloc (s : Sys ι) : Except Panic (Option ℕ × Sys ι) := do
  let (page, phys) ← Xv6.kalloc s.phys
  match page with
  | none => return (none, { s with phys })
  | some f => return (some f, { s with phys, kheld := f :: s.kheld })

/-- `kfree` of a page the kernel holds. -/
def kfree (f : ℕ) (s : Sys ι) : Except Panic (Sys ι) :=
  if f ∈ s.kheld then do
    let phys ← Xv6.kfree L.kend (f * pgSize) s.phys
    return { s with phys, kheld := s.kheld.erase f }
  else .ok s

/-- `proc_pagetable`, for the trapframe page `tf`. -/
def procPagetable (i : ι) (tf : ℕ) (s : Sys ι) : Except Panic (Bool × Sys ι) :=
  match s.spaces i with
  | some _ => .ok (false, s)
  | none => do
    let (pt, phys) ← Xv6.procPagetable L.kend L.tramp tf s.phys
    match pt with
    | none => return (false, { s with phys })
    | some pt => return (true, s.put i (some ⟨pt, 0⟩) phys)

def procFreepagetable (i : ι) (s : Sys ι) : Except Panic (Sys ι) :=
  match s.spaces i with
  | none => .ok s
  | some sp => do
    let phys ← Xv6.procFreepagetable L.kend sp.pt sp.sz s.phys
    return s.put i none phys

def onSpace {α : Type} (i : ι) (f : Space → Phys → Except Panic (α × Space × Phys)) (s : Sys ι) :
    Except Panic (Option α × Sys ι) :=
  match s.spaces i with
  | none => .ok (none, s)
  | some sp => do
    let (r, sp, phys) ← f sp s.phys
    return (some r, s.put i (some sp) phys)

/-- `uvmalloc`, as `exec` calls it: the size changes only on success. -/
def uvmalloc (i : ι) (newsz flags : ℕ) : Sys ι → Except Panic (Option ℕ × Sys ι) :=
  onSpace i fun sp m => do
    let (r, pt, m) ← Xv6.uvmalloc L.kend sp.pt sp.sz newsz (flags2perm flags) m
    return (r, ⟨pt, if r = 0 then sp.sz else r⟩, m)

def uvmdealloc (i : ι) (newsz : ℕ) : Sys ι → Except Panic (Option ℕ × Sys ι) :=
  onSpace i fun sp m => do
    let (r, pt, m) ← Xv6.uvmdealloc L.kend sp.pt sp.sz newsz m
    return (r, ⟨pt, r⟩, m)

/-- `growproc`; the result says whether it succeeded. -/
def growproc (i : ι) (n : ℤ) : Sys ι → Except Panic (Option Bool × Sys ι) :=
  onSpace i fun sp m => do
    let (r, pt, m) ← Xv6.growproc L.kend sp.pt sp.sz n m
    return (r.isSome, ⟨pt, r.getD sp.sz⟩, m)

/-- `uvmclear` of a page below the size, the guard page of `exec`. -/
def uvmclear (i : ι) (va : ℕ) : Sys ι → Except Panic (Option Unit × Sys ι) :=
  onSpace i fun sp m =>
    if va < sp.sz then do
      let pt ← Xv6.uvmclear sp.pt va m
      return ((), ⟨pt, sp.sz⟩, m)
    else .ok ((), sp, m)

/-- A page fault; the result says whether the process is killed. -/
def usertrapFault (i : ι) (sp va : ℕ) : Sys ι → Except Panic (Option Bool × Sys ι) :=
  onSpace i fun space m => do
    let (r, pt, m) ← Xv6.usertrapFault L.kend sp va space.pt m
    return (r, ⟨pt, space.sz⟩, m)

/-- `copyout`; the result says whether it succeeded. -/
def copyout (i : ι) (dstva : ℕ) (src : ℕ → UInt8) (len : ℕ) :
    Sys ι → Except Panic (Option Bool × Sys ι) :=
  onSpace i fun sp m => do
    let (r, pt, m) ← Xv6.copyout L.kend sp.pt dstva src len m
    return (r, ⟨pt, sp.sz⟩, m)

/-- `uvmcopy` from the space `i` to the space `j`, which gets the size on success, as in `fork`. -/
def uvmcopy (i j : ι) (s : Sys ι) : Except Panic (Bool × Sys ι) :=
  match s.spaces i, s.spaces j with
  | some p, some c =>
    if i = j then .ok (false, s)
    else do
      let (r, old, new, phys) ← Xv6.uvmcopy L.kend p.pt c.pt p.sz s.phys
      return (r, (s.put i (some ⟨old, p.sz⟩) phys).put j
        (some ⟨new, if r then p.sz else c.sz⟩) phys)
  | _, _ => .ok (false, s)

def kwrite (f : ℕ) (bytes : Page) (s : Sys ι) : Sys ι :=
  if f ∈ s.kheld then { s with phys := { s.phys with mem := update s.phys.mem f bytes } }
  else s

end Sys

open Sys

inductive Op (ι : Type)
  | kalloc
  | kfree (f : ℕ)
  | kwrite (f : ℕ) (bytes : Page)
  | procPagetable (i : ι) (tf : ℕ)
  | procFreepagetable (i : ι)
  | uvmalloc (i : ι) (newsz flags : ℕ)
  | uvmdealloc (i : ι) (newsz : ℕ)
  | growproc (i : ι) (n : ℤ)
  | uvmclear (i : ι) (va : ℕ)
  | uvmcopy (i j : ι)
  | usertrapFault (i : ι) (sp va : ℕ)
  | copyout (i : ι) (dstva : ℕ) (src : ℕ → UInt8) (len : ℕ)

section System

variable {ι : Type} [DecidableEq ι] (L : Layout)

def Op.run : Op ι → Sys ι → Except Panic (Sys ι)
  | kalloc, s => do return (← s.kalloc).2
  | kfree f, s => s.kfree L f
  | kwrite f bytes, s => .ok (s.kwrite f bytes)
  | procPagetable i tf, s => do return (← s.procPagetable L i tf).2
  | procFreepagetable i, s => s.procFreepagetable L i
  | uvmalloc i newsz flags, s => do return (← s.uvmalloc L i newsz flags).2
  | uvmdealloc i newsz, s => do return (← s.uvmdealloc L i newsz).2
  | growproc i n, s => do return (← s.growproc L i n).2
  | uvmclear i va, s => do return (← s.uvmclear i va).2
  | uvmcopy i j, s => do return (← s.uvmcopy L i j).2
  | usertrapFault i sp va, s => do return (← s.usertrapFault L i sp va).2
  | copyout i dstva src len, s => do return (← s.copyout L i dstva src len).2

/-- The memory system: it starts with what `kinit` leaves, and takes any calls in any order. -/
def memory : LTS (Sys ι) (Op ι) where
  init s := ∃ mem m, kinit L.kend mem = .ok m ∧ s = ⟨m, [], fun _ => none⟩
  step s op s' := op.run L s = .ok s'

end System

/-! ## References -/

namespace Sys

section Put

variable {ι : Type}

def view (s : Sys ι) (i : ι) : Option UserMem :=
  (s.spaces i).map fun sp => ⟨userView s.phys.mem sp.pt.leaf, sp.sz⟩

variable [DecidableEq ι] {i : ι}

def without (s : Sys ι) (i : ι) : Sys ι := { s with spaces := update s.spaces i none }

@[simp] theorem put_spaces_self (s : Sys ι) (i : ι) (o : Option Space) (m : Phys) :
    (s.put i o m).spaces i = o := update_self ..

theorem put_spaces_of_ne (s : Sys ι) {j : ι} (h : j ≠ i) (o : Option Space) (m : Phys) :
    (s.put i o m).spaces j = s.spaces j := update_of_ne h ..

theorem put_self {s : Sys ι} {o : Option Space} (h : s.spaces i = o) : s.put i o s.phys = s := by
  rw [put, ← h, update_eq_self]

theorem without_eq {s : Sys ι} (h : s.spaces i = none) : s.without i = s := by
  rw [without, ← h, update_eq_self]

theorem put_without (s : Sys ι) {j : ι} (h : i ≠ j) (o : Option Space) (m : Phys) :
    (s.put i o m).without j = (s.without j).put i o m := by
  simp only [put, without, update_comm h]

theorem without_comm (s : Sys ι) (i j : ι) : (s.without i).without j = (s.without j).without i := by
  by_cases h : i = j
  · rw [h]
  · simp only [without, update_comm h]

@[simp] theorem without_spaces_self (s : Sys ι) (i : ι) : (s.without i).spaces i = none :=
  update_self ..

theorem without_spaces_of_ne (s : Sys ι) {j : ι} (h : j ≠ i) :
    (s.without i).spaces j = s.spaces j := update_of_ne h ..

end Put

variable {ι : Type} [Fintype ι]

/-- The sum of `F` over the spaces. -/
def total (F : Space → ℕ → ℕ) (spaces : ι → Option Space) : ℕ → ℕ := ∑ i, (spaces i).elim 0 F

/-- The references of the kernel: the pages it holds, and the page-table pages. -/
def kernelRefs (s : Sys ι) : ℕ → ℕ :=
  (fun f => s.kheld.count f) + total (fun sp => sp.pt.tables) s.spaces

/-- The references of the users: the valid user leaves of all spaces. -/
def userRefs (s : Sys ι) : ℕ → ℕ := total (fun sp => leafRefs sp.pt.leaf) s.spaces

variable [DecidableEq ι] {sp : Space} {j : ι}

theorem total_update (F : Space → ℕ → ℕ) (spaces : ι → Option Space) (i : ι) (o : Option Space) :
    total F (update spaces i o) = total F (update spaces i none) + o.elim 0 F := by
  have h := Counting.sum_update_add (fun o : Option Space => o.elim 0 F) (update spaces i none) i o
  rwa [update_idem, update_self, elim_none, add_zero] at h

theorem kernelRefs_put_some (s : Sys ι) (i : ι) (sp : Space) (m : Phys) :
    (s.put i (some sp) m).kernelRefs = (s.without i).kernelRefs + sp.pt.tables := by
  simp only [kernelRefs, put, without]
  rw [total_update, elim_some, add_assoc]

theorem userRefs_put_some (s : Sys ι) (i : ι) (sp : Space) (m : Phys) :
    (s.put i (some sp) m).userRefs = (s.without i).userRefs + leafRefs sp.pt.leaf := by
  simp only [userRefs, put, without]
  rw [total_update, elim_some]

theorem kernelRefs_put_put (s : Sys ι) {i : ι} (h : i ≠ j) (sp sp' : Space) (m : Phys) :
    ((s.put i (some sp) m).put j (some sp') m).kernelRefs =
      ((s.without i).without j).kernelRefs + sp.pt.tables + sp'.pt.tables := by
  rw [kernelRefs_put_some, put_without s h, kernelRefs_put_some, without_comm]

theorem userRefs_put_put (s : Sys ι) {i : ι} (h : i ≠ j) (sp sp' : Space) (m : Phys) :
    ((s.put i (some sp) m).put j (some sp') m).userRefs =
      ((s.without i).without j).userRefs + leafRefs sp.pt.leaf + leafRefs sp'.pt.leaf := by
  rw [userRefs_put_some, put_without s h, userRefs_put_some, without_comm]

theorem kernelRefs_eq {s : Sys ι} {i : ι} (h : s.spaces i = some sp) :
    s.kernelRefs = (s.without i).kernelRefs + sp.pt.tables := by
  conv_lhs => rw [← put_self h]
  rw [kernelRefs_put_some]

theorem userRefs_eq {s : Sys ι} {i : ι} (h : s.spaces i = some sp) :
    s.userRefs = (s.without i).userRefs + leafRefs sp.pt.leaf := by
  conv_lhs => rw [← put_self h]
  rw [userRefs_put_some]

theorem leafRefs_le_userRefs {s : Sys ι} (h : s.spaces j = some sp) (f : ℕ) :
    leafRefs sp.pt.leaf f ≤ s.userRefs f := by
  rw [userRefs_eq h, Pi.add_apply]
  exact Nat.le_add_left _ _

/-- A space whose frames keep their contents looks as before. -/
theorem userView_keep {s : Sys ι} {mem : ℕ → Page} (h : s.spaces j = some sp)
    (hkeep : ∀ f, s.userRefs f ≠ 0 → mem f = s.phys.mem f) :
    userView mem sp.pt.leaf = userView s.phys.mem sp.pt.leaf := by
  refine userView_congr fun v hv hV => hkeep _ ?_
  have h1 := leafRefs_ne_zero hv hV
  have h2 := leafRefs_le_userRefs h (sp.pt.leaf v).frame
  omega

/-- The page-table pages of one space are among the references of the kernel. -/
theorem tables_le_kernelRefs {s : Sys ι} (h : s.spaces j = some sp) (f : ℕ) :
    sp.pt.tables f ≤ s.kernelRefs f := by
  rw [kernelRefs_eq h, Pi.add_apply]
  exact Nat.le_add_left _ _

end Sys

/-- The pages of a space are those below its size, the trapframe and the trampoline. -/
structure Space.Shaped (sp : Space) : Prop where
  user : sp.pt.Shaped (npages sp.sz)
  top : sp.pt.Topped

/-- Every space has the shape its size asks for. -/
def Sys.Shaped {ι : Type} (s : Sys ι) : Prop := ∀ i sp, s.spaces i = some sp → sp.Shaped

variable {ι : Type} {s s' : Sys ι}

theorem Sys.Shaped.congr (h : s.Shaped) (hs : s'.spaces = s.spaces) :
    s'.Shaped := fun i sp hi => h i sp (hs ▸ hi)

theorem Sys.Shaped.remove [DecidableEq ι] (h : s.Shaped) {i : ι}
    (hs : s'.spaces = update s.spaces i none) : s'.Shaped := by
  intro j spj hj
  rw [hs, update_apply] at hj
  split_ifs at hj
  exact h j spj hj

theorem Sys.Shaped.put [DecidableEq ι] (h : s.Shaped) {i : ι} {sp : Space} (hsp : sp.Shaped)
    (m : Phys) : (s.put i (some sp) m).Shaped := by
  intro j spj hj
  by_cases hij : j = i
  · subst hij
    rw [put_spaces_self] at hj
    cases hj
    exact hsp
  · rw [put_spaces_of_ne s hij] at hj
    exact h j spj hj

/-- The kernel holds the same pages, and the same spaces are there. -/
structure Sys.Kept {ι : Type} (s s' : Sys ι) : Prop where
  kheld : s'.kheld = s.kheld
  slots : ∀ k, (s'.spaces k).isSome = (s.spaces k).isSome

theorem Sys.Kept.refl (s : Sys ι) : s.Kept s := ⟨rfl, fun _ => rfl⟩

theorem Sys.Kept.trans {s1 s2 : Sys ι} (h1 : s.Kept s1) (h2 : s1.Kept s2) :
    s.Kept s2 := ⟨h2.kheld.trans h1.kheld, fun k => (h2.slots k).trans (h1.slots k)⟩

theorem Sys.Kept.put [DecidableEq ι] {i : ι} (hi : (s.spaces i).isSome = true) (sp : Space)
    (m : Phys) : s.Kept (s.put i (some sp) m) := by
  refine ⟨rfl, fun k => ?_⟩
  by_cases hk : k = i
  · subst hk
    rw [put_spaces_self, hi]
    rfl
  · rw [put_spaces_of_ne s hk]

structure SpaceInv (T : ℕ → ℕ) (sp : Space) : Prop where
  sz_le : sp.sz ≤ trapframeVa
  top : KernelTop sp.pt
  excl : ∀ v < userPages, (sp.pt.leaf v).has pteV = true → (sp.pt.leaf v).has pteW = true →
    T (sp.pt.leaf v).frame = 1
  nowc : ∀ v, (sp.pt.leaf v).has pteW = true → (sp.pt.leaf v).has pteC = false

/-- **The invariant**: the counts are exact, and every space is in good order. -/
structure Inv {ι : Type} [Fintype ι] (L : Layout) (s : Sys ι) : Prop where
  acct : Acct L.kend s.phys s.kernelRefs s.userRefs
  spaces : ∀ i sp, s.spaces i = some sp → SpaceInv s.userRefs sp

namespace Inv

variable {ι : Type} [Fintype ι] [DecidableEq ι] {L : Layout} {s : Sys ι} {i j : ι} {sp : Space}
  {m' : Phys}

theorem spaceOk (h : Inv L s) (hi : s.spaces i = some sp) :
    SpaceOk L.kend (s.without i).kernelRefs (s.without i).userRefs sp.pt s.phys := by
  have hsp := h.spaces i sp hi
  refine ⟨?_, fun v hv hV hW => ?_, hsp.nowc⟩
  · rw [← kernelRefs_eq hi, ← userRefs_eq hi]
    exact h.acct
  · rw [← userRefs_eq hi]
    exact hsp.excl v hv hV hW

/-- The other spaces keep their good order while references appear and vanish elsewhere. -/
theorem excl_other (h : Inv L s) (hij : j ≠ i) {spj : Space}
    (hj : s.spaces j = some spj) {R : ℕ → ℕ}
    (hR : ∀ f, (s.without i).userRefs f ≠ 0 → s.userRefs f = (s.without i).userRefs f → R f = 0) :
    SpaceInv ((s.without i).userRefs + R) spj := by
  have hsp := h.spaces j spj hj
  refine ⟨hsp.sz_le, hsp.top, fun v hv hV hW => ?_, hsp.nowc⟩
  have h1 := hsp.excl v hv hV hW
  have h2 := leafRefs_ne_zero hv hV
  have h3 : leafRefs spj.pt.leaf (spj.pt.leaf v).frame ≤
      (s.without i).userRefs (spj.pt.leaf v).frame :=
    leafRefs_le_userRefs (by rwa [without_spaces_of_ne s hij]) _
  have h4 : (s.without i).userRefs (spj.pt.leaf v).frame ≤ s.userRefs (spj.pt.leaf v).frame := by
    cases hi : s.spaces i with
    | none => rw [without_eq hi]
    | some sp =>
      rw [userRefs_eq hi, Pi.add_apply]
      exact Nat.le_add_right _ _
  rw [Pi.add_apply, hR _ (by omega) (by omega), add_zero]
  omega

theorem move (h : Inv L s) (hi : s.spaces i = some sp) {pt' : PageTable} {sz' : ℕ}
    (hm : SpaceMove L.kend (s.without i).kernelRefs (s.without i).userRefs sp.pt pt' m')
    (hsz : sz' ≤ trapframeVa) : Inv L (s.put i (some ⟨pt', sz'⟩) m') := by
  refine ⟨?_, fun j spj hj => ?_⟩
  · rw [kernelRefs_put_some, userRefs_put_some]
    exact hm.ok.acct
  · rw [userRefs_put_some]
    by_cases hij : j = i
    · subst hij
      obtain rfl : ⟨pt', sz'⟩ = spj := by simpa using hj
      exact ⟨hsz, (h.spaces j sp hi).top.move hm, hm.ok.excl, hm.ok.nowc⟩
    · rw [put_spaces_of_ne s hij] at hj
      refine h.excl_other hij hj fun f hf hu => hm.fresh f hf ?_
      rw [userRefs_eq hi, Pi.add_apply] at hu
      omega

/-- The pages of the other spaces are among the references that a step of one space respects. -/
theorem view_other (hij : j ≠ i) (hkeep : ∀ f, (s.without i).kernelRefs f +
    (s.without i).userRefs f ≠ 0 → m'.mem f = s.phys.mem f) (o : Option Space) :
    (s.put i o m').view j = s.view j := by
  rw [Sys.view, Sys.view, put_spaces_of_ne s hij]
  cases hj : s.spaces j with
  | none => rfl
  | some spj =>
    have hview := userView_keep (s := s.without i) ((without_spaces_of_ne s hij).trans hj)
      fun f hf => hkeep f (by omega)
    simp only [map_some, Sys.put, hview]
    rfl

theorem view_put (hkeep : ∀ f, (s.without i).kernelRefs f + (s.without i).userRefs f ≠ 0 →
    m'.mem f = s.phys.mem f) (o : Option Space) :
    (s.put i o m').view =
      update s.view i (o.map fun sp => ⟨userView m'.mem sp.pt.leaf, sp.sz⟩) := by
  funext j
  rw [update_apply]
  split_ifs with hij
  · rw [hij, Sys.view, put_spaces_self]
    rfl
  · exact view_other hij hkeep o

omit [DecidableEq ι] in
theorem pgrc_eq (h : Inv L s) {f : ℕ} (hf : InRam L.kend f) :
    s.phys.pgrc f = s.kernelRefs f + s.userRefs f := by
  rw [h.acct.counted.rc f hf, Pi.add_apply, Nat.cast_add]

omit [DecidableEq ι] in
theorem kernel (h : Inv L s) {kheld' : List ℕ} (hA : Acct L.kend m' ((fun f => kheld'.count f) +
      Sys.total (fun sp => sp.pt.tables) s.spaces) s.userRefs) :
    Inv L { s with phys := m', kheld := kheld' } := ⟨hA, h.spaces⟩

omit [DecidableEq ι] in
theorem view_kernel {kheld' : List ℕ} (hkeep : ∀ f, s.userRefs f ≠ 0 → m'.mem f = s.phys.mem f) :
    Sys.view { s with phys := m', kheld := kheld' } = s.view := by
  classical
  funext j
  rw [Sys.view, Sys.view]
  dsimp only
  cases hj : s.spaces j with
  | none => rfl
  | some spj =>
    simp only [map_some, userView_keep hj hkeep]

end Inv

/-! ## The calls one by one -/

section Calls

variable {ι : Type} [Fintype ι] [DecidableEq ι] {L : Layout} {s : Sys ι} {i j : ι}
  {E : Panic → Prop} {f : ℕ}

theorem count_cons_eq (f : ℕ) (l : List ℕ) :
    (fun g => (f :: l).count g) = (fun g => l.count g) + ref f := by
  funext g
  rw [List.count_cons, Pi.add_apply, ref]
  simp only [beq_iff_eq, @eq_comm ℕ f g]

theorem count_erase_eq {l : List ℕ} (h : f ∈ l) :
    (fun g => l.count g) = (fun g => (l.erase f).count g) + ref f := by
  rw [← count_cons_eq]
  funext g
  exact (List.perm_cons_erase h).count_eq g

theorem count_le_erase (l : List ℕ) (f g : ℕ) : l.count g ≤ (l.erase f).count g + ref f g := by
  by_cases hf : f ∈ l
  · exact (congrFun (count_erase_eq hf) g).le
  · rw [List.erase_of_not_mem hf]
    exact Nat.le_add_right _ _

omit [DecidableEq ι] in
theorem Sys.kalloc_spec (h : Inv L s) :
    Ensures s.kalloc E fun r =>
      Inv L r.2 ∧ r.2.view = s.view ∧ r.2.spaces = s.spaces ∧
        r.2.kheld = r.1.toList ++ s.kheld := by
  rw [Sys.kalloc]
  refine h.acct.kalloc_spec.bind ?_
  rintro ⟨page, m'⟩ (⟨hr, -⟩ | ⟨g, rfl, -, hU, hA, -, hmem⟩)
  · cases hr
    exact ⟨h, rfl, rfl, rfl⟩
  · refine ⟨h.kernel ?_, Inv.view_kernel fun f hf => ?_, rfl, rfl⟩
    · rw [count_cons_eq, add_right_comm]
      exact hA
    · rw [hmem, update_of_ne]
      rintro rfl
      exact hf hU

omit [DecidableEq ι] in
theorem Sys.kfree_spec (h : Inv L s) :
    Ensures (s.kfree L f) E fun s' =>
      Inv L s' ∧ s'.view = s.view ∧ s'.spaces = s.spaces ∧ s'.kheld = s.kheld.erase f := by
  rw [Sys.kfree]
  split_ifs with hf
  · have hrefs : s.kernelRefs = ((fun g => (s.kheld.erase f).count g) +
        Sys.total (fun sp => sp.pt.tables) s.spaces) + ref f := by
      rw [kernelRefs, count_erase_eq hf, add_right_comm]
    have hA := h.acct
    rw [hrefs] at hA
    refine hA.kfree_kernel.bind ?_
    rintro m' ⟨hA', hmem⟩
    refine ⟨h.kernel hA', Inv.view_kernel fun g hg => hmem g ?_, rfl, rfl⟩
    rintro rfl
    have := hA.sep g hg
    rw [Pi.add_apply, ref_self] at this
    omega
  · exact ⟨h, rfl, rfl, (List.erase_of_not_mem hf).symm⟩

omit [DecidableEq ι] in
theorem Sys.kwrite_spec {bytes : Page} (h : Inv L s) : Inv L (s.kwrite f bytes) := by
  rw [Sys.kwrite]
  split_ifs
  · exact ⟨h.acct.congr rfl rfl, h.spaces⟩
  · exact h

variable (h : Inv L s)

include h

theorem Sys.onSpace_spec {α : Type} {f : Space → Phys → Except Panic (α × Space × Phys)}
    {Q : Space → α → Space → Phys → Prop}
    (hf : ∀ sp, s.spaces i = some sp → Ensures (f sp s.phys) E fun r =>
      SpaceMove L.kend (s.without i).kernelRefs (s.without i).userRefs sp.pt r.2.1.pt r.2.2 ∧
      r.2.1.sz ≤ trapframeVa ∧
      (sp.pt.Shaped (npages sp.sz) → r.2.1.pt.Shaped (npages r.2.1.sz)) ∧
      Q sp r.1 r.2.1 r.2.2) :
    Ensures (s.onSpace i f) E fun r => Inv L r.2 ∧ (s.Shaped → r.2.Shaped) ∧ s.Kept r.2 ∧
      (s.spaces i = none → r = (none, s)) ∧
      ∀ sp, s.spaces i = some sp →
        ∃ a sp' m', r = (some a, s.put i (some sp') m') ∧ Q sp a sp' m' := by
  rw [onSpace]
  cases hi : s.spaces i with
  | none => exact ⟨h, id, .refl s, fun _ => rfl, fun sp hsp => by cases hsp⟩
  | some sp =>
    refine (hf sp hi).bind ?_
    rintro ⟨a, sp', m'⟩ ⟨hmove, hsz, hshape, hQ⟩
    refine ⟨h.move hi hmove hsz, fun hs => ?_, .put (by rw [hi]; rfl) sp' m',
      (fun hn => by cases hn), fun sp0 hsp => ?_⟩
    · exact hs.put ⟨hshape (hs i sp hi).user, (hs i sp hi).top.congr hmove.upper⟩ m'
    cases hsp
    exact ⟨a, sp', m', rfl, hQ⟩

theorem Sys.uvmalloc_spec {newsz flags : ℕ} (hE : s.Shaped ∨ Panic.RefSafe ≤ E) :
    Ensures (s.uvmalloc L i newsz flags) E fun r => Inv L r.2 ∧ (s.Shaped → r.2.Shaped) := by
  refine (onSpace_spec (Q := fun _ _ _ _ => True) h fun sp hi => ?_).mono fun r hr =>
    ⟨hr.1, hr.2.1⟩
  have hsp := h.spaces i sp hi
  refine (Xv6.uvmalloc_spec (allocPerm_flags2perm flags) hsp.sz_le hsp.top.trapframe
    (hE.imp_left fun hs => (hs i sp hi).user) (h.spaceOk hi)).bind ?_
  rintro ⟨r, pt, m⟩ ⟨hst, hshape, hr⟩
  refine ⟨hst.toSpaceMove, ?_, hshape, trivial⟩
  dsimp only at hr ⊢
  split_ifs with h0
  · exact hsp.sz_le
  · rcases hr with ⟨-, hle, -⟩ | ⟨hz, -⟩
    · exact hle
    · exact absurd hz h0

theorem Sys.uvmdealloc_spec {newsz : ℕ} (hE : s.Shaped ∨ Panic.RefSafe ≤ E) :
    Ensures (s.uvmdealloc L i newsz) E fun r => Inv L r.2 ∧ (s.Shaped → r.2.Shaped) := by
  refine (onSpace_spec (Q := fun _ _ _ _ => True) h fun sp hi => ?_).mono fun r hr =>
    ⟨hr.1, hr.2.1⟩
  have hsp := h.spaces i sp hi
  refine (Xv6.uvmdealloc_spec hsp.sz_le (hE.imp_left fun hs => (hs i sp hi).user)
    (h.spaceOk hi)).bind ?_
  rintro ⟨r, pt, m⟩ ⟨hst, hr, hshape, -⟩
  refine ⟨hst.toSpaceMove, ?_, hshape, trivial⟩
  dsimp only at hr ⊢
  rw [hr]
  exact (min_le_left _ _).trans hsp.sz_le

theorem Sys.uvmclear_spec {va : ℕ} (hE : s.Shaped ∨ Panic.RefSafe ≤ E) :
    Ensures (s.uvmclear i va) E fun r => Inv L r.2 ∧ (s.Shaped → r.2.Shaped) := by
  refine (onSpace_spec (Q := fun _ _ _ _ => True) h fun sp hi => ?_).mono fun r hr =>
    ⟨hr.1, hr.2.1⟩
  have hsp := h.spaces i sp hi
  split_ifs with hva
  · have hlt : va / pgSize < npages sp.sz := by
      simp only [npages, pgSize]
      omega
    refine (Xv6.uvmclear_spec (hva.trans_le hsp.sz_le)
      (hE.imp_left fun hs => (hs i sp hi).user.user _ hlt) (h.spaceOk hi)).bind ?_
    rintro pt ⟨hst, hshape⟩
    exact ⟨hst.toSpaceMove, hsp.sz_le, hshape _, trivial⟩
  · exact ⟨SpaceMove.refl (h.spaceOk hi), hsp.sz_le, id, trivial⟩

theorem Sys.copyout_spec {dstva len : ℕ} {src : ℕ → UInt8} (hE : E .kerneltrap) :
    Ensures (s.copyout L i dstva src len) E fun r => Inv L r.2 ∧ (s.Shaped → r.2.Shaped) ∧
      s.Kept r.2 := by
  refine (onSpace_spec (Q := fun _ _ _ _ => True) h fun sp hi => ?_).mono fun r hr =>
    ⟨hr.1, hr.2.1, hr.2.2.1⟩
  have hsp := h.spaces i sp hi
  refine ((copyoutLoop_exact L.kend_pos _ le_rfl (h.spaceOk hi) hsp.top).weaken fun e he =>
    he.1 ▸ hE).bind ?_
  rintro ⟨r, pt, m⟩ ⟨-, k, hc⟩
  exact ⟨hc.move, hsp.sz_le, hc.shape _, trivial⟩

/-- **Growing and shrinking**, as the process sees it: a failure changes nothing, and nobody else
sees anything. -/
theorem Sys.growproc_spec {n : ℤ} (hE : s.Shaped ∨ Panic.RefSafe ≤ E) :
    Ensures (s.growproc L i n) E fun r => Inv L r.2 ∧ (s.Shaped → r.2.Shaped) ∧ s.Kept r.2 ∧
      (s.spaces i = none → r = (none, s)) ∧
      ∀ um, s.view i = some um → ∃ ok : Bool, r.1 = some ok ∧
        r.2.view = update s.view i (some (if ok then um.grow n else um)) := by
  refine (onSpace_spec (Q := fun sp ok sp' m' =>
    SpaceStep L.kend (s.without i).kernelRefs (s.without i).userRefs sp.pt s.phys sp'.pt m' ∧
    (⟨userView m'.mem sp'.pt.leaf, sp'.sz⟩ : UserMem) =
      if ok then UserMem.grow ⟨userView s.phys.mem sp.pt.leaf, sp.sz⟩ n
      else ⟨userView s.phys.mem sp.pt.leaf, sp.sz⟩) h fun sp hi => ?_).mono ?_
  · have hsp := h.spaces i sp hi
    refine (Xv6.growproc_spec hsp.sz_le hsp.top.trapframe
      (hE.imp_left fun hs => (hs i sp hi).user) (h.spaceOk hi)).bind ?_
    rintro ⟨_ | sz', pt, m⟩ ⟨hst, hshape, hr⟩
    · refine ⟨hst.toSpaceMove, hsp.sz_le, hshape, hst, ?_⟩
      dsimp only at hr ⊢
      rw [hr.2]
      rfl
    · refine ⟨hst.toSpaceMove, hr.1, hshape, hst, ?_⟩
      dsimp only at hr ⊢
      rw [isSome_some, if_pos rfl, getD_some, UserMem.grow]
      split_ifs at hr ⊢
      · rw [hr.2.2, hr.2.1]
      · rw [hr.2.2, hr.2.1]
  · rintro r ⟨hinv, hshape, hkept, hnone, hsome⟩
    refine ⟨hinv, hshape, hkept, hnone, fun um hum => ?_⟩
    obtain ⟨sp, hi, rfl⟩ := map_eq_some_iff.mp hum
    obtain ⟨ok, sp', m', rfl, hst, hview⟩ := hsome sp hi
    refine ⟨ok, rfl, ?_⟩
    rw [Inv.view_put hst.keep, map_some, hview]

/-- **The fault handler** changes no user memory; unless it kills the process, the page it was
called for is writable afterwards. -/
theorem Sys.usertrapFault_spec {sp va : ℕ} :
    Ensures (s.usertrapFault L i sp va) E fun r => Inv L r.2 ∧ (s.Shaped → r.2.Shaped) ∧
      s.Kept r.2 ∧ r.2.view = s.view ∧
      (s.spaces i = none → r = (none, s)) ∧
      (r.1 = some false → ∃ space, r.2.spaces i = some space ∧ va / pgSize < userPages ∧
        UserPage (space.pt.leaf (va / pgSize)) ∧
        (space.pt.leaf (va / pgSize)).has pteW = true) := by
  refine (onSpace_spec (Q := fun space killed space' m' =>
    SpaceStep L.kend (s.without i).kernelRefs (s.without i).userRefs space.pt s.phys space'.pt m' ∧
    (⟨userView m'.mem space'.pt.leaf, space'.sz⟩ : UserMem) =
      ⟨userView s.phys.mem space.pt.leaf, space.sz⟩ ∧
    (killed = false → va / pgSize < userPages ∧ UserPage (space'.pt.leaf (va / pgSize)) ∧
      (space'.pt.leaf (va / pgSize)).has pteW = true)) h fun space hi => ?_).mono ?_
  · have hsp := h.spaces i space hi
    refine (Xv6.usertrapFault_spec (h.spaceOk hi) hsp.top).bind ?_
    rintro ⟨killed, pt, m⟩ ⟨hst, hshape, hview, hok⟩
    refine ⟨hst.toSpaceMove, hsp.sz_le, hshape _, hst, ?_, fun hk => ?_⟩
    · dsimp only at hview ⊢
      rw [hview]
    · obtain ⟨hva, hV, hU, hW⟩ := hok hk
      exact ⟨div_lt_userPages.mpr hva, ⟨hV, hU⟩, hW⟩
  · rintro r ⟨hinv, hshape, hkept, hnone, hsome⟩
    cases hi : s.spaces i with
    | none =>
      obtain rfl := hnone hi
      exact ⟨hinv, hshape, hkept, rfl, fun _ => rfl, (fun hc => by cases hc)⟩
    | some space =>
      obtain ⟨killed, space', m', rfl, hst, hview, hok⟩ := hsome space hi
      refine ⟨hinv, hshape, hkept, ?_, (fun hn => by cases hn), fun hk => ?_⟩
      · rw [Inv.view_put hst.keep, map_some, hview]
        exact update_eq_self_iff.mpr (by rw [Sys.view, hi]; rfl)
      · obtain ⟨h1, h2, h3⟩ := hok (by simpa using hk)
        exact ⟨space', put_spaces_self .., h1, h2, h3⟩

omit h in
theorem userView_eq_empty {mem : ℕ → Page} {h : ℕ → Pte}
    (hh : ∀ v < userPages, (h v).has pteV = false) : userView mem h = fun _ => none := by
  funext v
  rw [userView]
  split_ifs with hv
  · exact Pte.view_of_not_valid (hh v hv)
  · rfl

theorem Sys.procPagetable_spec {tf : ℕ} :
    Ensures (s.procPagetable L i tf) E fun r => Inv L r.2 ∧ r.2.kheld = s.kheld ∧
      (s.Shaped → r.2.Shaped) ∧
      if r.1 = true then
        s.spaces i = none ∧ r.2.view = update s.view i (some UserMem.empty)
      else r.2.view = s.view ∧ r.2.spaces = s.spaces := by
  rw [Sys.procPagetable]
  cases hi : s.spaces i with
  | some sp => exact ⟨h, rfl, id, rfl, rfl⟩
  | none =>
    refine (Xv6.procPagetable_spec h.acct).bind ?_
    rintro ⟨_ | pt, m⟩ ⟨hkeep, hr⟩
    · exact ⟨h.kernel hr, rfl, id, Inv.view_kernel fun f hf => hkeep f (by omega), rfl⟩
    · obtain ⟨hok, htop, hshape, htopped⟩ := hr
      have hinvalid : ∀ v < userPages, (pt.leaf v).has pteV = false := fun v =>
        hshape.unused v (Nat.zero_le v)
      have hwo := without_eq hi
      have h0 : leafRefs pt.leaf = 0 := leafRefs_eq_zero hinvalid
      rw [← npages_zero] at hshape
      refine ⟨⟨?_, fun j spj hj => ?_⟩, rfl, fun hs => hs.put ⟨hshape, htopped⟩ m, rfl, ?_⟩
      · rw [kernelRefs_put_some, userRefs_put_some, hwo]
        exact hok.acct
      · rw [userRefs_put_some, h0, add_zero, hwo]
        by_cases hij : j = i
        · subst hij
          obtain rfl : ⟨pt, 0⟩ = spj := by simpa using hj
          refine ⟨Nat.zero_le _, htop, fun v hv hV _ => ?_, hok.nowc⟩
          rw [hinvalid v hv] at hV
          cases hV
        · rw [put_spaces_of_ne s hij] at hj
          exact h.spaces j spj hj
      · rw [Inv.view_put (by rw [hwo]; exact hkeep), map_some, userView_eq_empty hinvalid]
        rfl

theorem Sys.procFreepagetable_spec (hE : s.Shaped ∨ Panic.RefSafe ≤ E) :
    Ensures (s.procFreepagetable L i) E fun s' => Inv L s' ∧ s'.kheld = s.kheld ∧
      s'.spaces = update s.spaces i none ∧
      s'.view = update s.view i none := by
  rw [Sys.procFreepagetable]
  cases hi : s.spaces i with
  | none =>
    refine ⟨h, rfl, (update_eq_self_iff.mpr hi.symm).symm, (update_eq_self_iff.mpr ?_).symm⟩
    rw [Sys.view, hi]
    rfl
  | some sp =>
    refine (Xv6.procFreepagetable_spec (h.spaces i sp hi).sz_le
      (hE.imp_left fun hs => ⟨(hs i sp hi).user, (hs i sp hi).top⟩) (h.spaceOk hi)).bind ?_
    rintro m ⟨hA, hkeep⟩
    refine ⟨⟨hA, fun j spj hj => ?_⟩, rfl, rfl, Inv.view_put hkeep none⟩
    have hij : j ≠ i := by
      rintro rfl
      simp at hj
    rw [put_spaces_of_ne s hij] at hj
    have := h.excl_other hij hj (R := 0) fun _ _ _ => rfl
    rwa [add_zero] at this

theorem Inv.pairOk (hij : i ≠ j) {p c : Space} (hi : s.spaces i = some p)
    (hj : s.spaces j = some c) :
    PairOk L.kend ((s.without i).without j).kernelRefs ((s.without i).without j).userRefs p.pt c.pt
      s.phys := by
  have hi' : (s.without j).spaces i = some p := by rwa [without_spaces_of_ne s hij]
  have hj' : (s.without i).spaces j = some c := by rwa [without_spaces_of_ne s hij.symm]
  refine ⟨?_, ?_⟩
  · rw [← kernelRefs_eq hj', ← userRefs_eq hj']
    exact h.spaceOk hi
  · rw [without_comm, ← kernelRefs_eq hi', ← userRefs_eq hi']
    exact h.spaceOk hj

/-- **Fork**, as the processes see it: the child gets a copy of the parent's pages, and nobody else
sees anything; after a failure only the child's own space may have changed. -/
theorem Sys.uvmcopy_spec
    (hE : (s.Shaped ∧ ∀ c, s.spaces j = some c → c.sz = 0) ∨ Panic.RefSafe ≤ E) :
    Ensures (s.uvmcopy L i j) E fun r => Inv L r.2 ∧ r.2.kheld = s.kheld ∧
      (s.Shaped → (∀ c, s.spaces j = some c → c.sz = 0) → r.2.Shaped) ∧
      (∀ k, k ≠ j → r.2.view k = s.view k) ∧
      (r.1 = true → ∀ p c, s.view i = some p → s.view j = some c →
        r.2.view j = some ⟨copyView p.pages c.pages 0 (npages p.sz), p.sz⟩) := by
  rw [Sys.uvmcopy]
  cases hi : s.spaces i with
  | none => exact ⟨h, rfl, fun hs _ => hs, fun _ _ => rfl, (fun hc => by cases hc)⟩
  | some p =>
    cases hj : s.spaces j with
    | none => exact ⟨h, rfl, fun hs _ => hs, fun _ _ => rfl, (fun hc => by cases hc)⟩
    | some c =>
      dsimp only
      split_ifs with hij
      · exact ⟨h, rfl, fun hs _ => hs, fun _ _ => rfl, (fun hc => by cases hc)⟩
      have hp := h.spaces i p hi
      have hc := h.spaces j c hj
      -- a child of size 0 has no user page
      have hempty : s.Shaped → c.sz = 0 → c.pt.Shaped 0 := fun hs h0 => by
        have := (hs j c hj).user
        rwa [h0] at this
      refine (Xv6.uvmcopy_spec hp.sz_le (hE.imp_left fun hs =>
        ⟨(hs.1 i p hi).user, hempty hs.1 (hs.2 c hj)⟩) (h.pairOk hij hi hj)).bind ?_
      rintro ⟨r, old, new, m⟩ ⟨hst, hshape, hr⟩
      dsimp only at hst hr hshape ⊢
      generalize hsz : (if r = true then p.sz else c.sz) = sz'
      have hsz' : sz' ≤ trapframeVa := by
        rw [← hsz]
        split_ifs
        · exact hp.sz_le
        · exact hc.sz_le
      -- all references afterwards
      have hK := s.kernelRefs_put_put hij ⟨old, p.sz⟩ ⟨new, sz'⟩ m
      have hU := s.userRefs_put_put hij ⟨old, p.sz⟩ ⟨new, sz'⟩ m
      have hU0 : s.userRefs =
          ((s.without i).without j).userRefs + leafRefs c.pt.leaf + leafRefs p.pt.leaf := by
        have hj' : (s.without i).spaces j = some c := by
          rwa [without_spaces_of_ne s (Ne.symm hij)]
        rw [userRefs_eq hi, userRefs_eq hj']
      have hrest : ∀ k spk, k ≠ j → k ≠ i → s.spaces k = some spk →
          ((s.without i).without j).spaces k = some spk := fun k spk hkj hki hk => by
        rwa [without_spaces_of_ne _ hkj, without_spaces_of_ne _ hki]
      refine ⟨⟨?_, fun k spk hk => ?_⟩, rfl, fun hs h0 => ?_, fun k hkj => ?_,
        fun hrt um cm hum hcm => ?_⟩
      · rw [hK, hU]
        exact hst.ok.child.acct
      · rw [hU]
        by_cases hkj : k = j
        · subst hkj
          obtain rfl : ⟨new, sz'⟩ = spk := by simpa using hk
          exact ⟨hsz', hc.top.congr hst.upperNew, hst.ok.child.excl, hst.ok.child.nowc⟩
        · rw [put_spaces_of_ne _ hkj] at hk
          by_cases hki : k = i
          · subst hki
            obtain rfl : ⟨old, p.sz⟩ = spk := by simpa using hk
            refine ⟨hp.sz_le, hp.top.congr hst.upperOld, ?_, hst.ok.parent.nowc⟩
            rw [add_right_comm]
            exact hst.ok.parent.excl
          · rw [put_spaces_of_ne _ hki] at hk
            have hsp := h.spaces k spk hk
            refine ⟨hsp.sz_le, hsp.top, fun v hv hV hW => ?_, hsp.nowc⟩
            have h1 := hsp.excl v hv hV hW
            have h2 := leafRefs_ne_zero hv hV
            have h3 := leafRefs_le_userRefs (hrest k spk hkj hki hk) (spk.pt.leaf v).frame
            rw [hU0] at h1
            simp only [Pi.add_apply] at h1 ⊢
            obtain ⟨h4, h5⟩ := hst.fresh (spk.pt.leaf v).frame (by omega) (by omega) (by omega)
            omega
      · have hc0 := h0 c rfl
        obtain ⟨hold, hnew⟩ := hshape (hs i p hi).user (hempty hs hc0)
        refine (hs.put ⟨hold, (hs i p hi).top.congr hst.upperOld⟩ m).put
          ⟨?_, (hs j c hj).top.congr hst.upperNew⟩ m
        rw [← hsz, hc0]
        cases r with
        | true => exact hnew
        | false => rwa [← npages_zero] at hnew
      · by_cases hki : k = i
        · subst hki
          rw [Sys.view, Sys.view, put_spaces_of_ne _ hkj, put_spaces_self, hi,
            map_some, map_some]
          simp only [Sys.put, hst.view]
        · rw [Sys.view, Sys.view, put_spaces_of_ne _ hkj, put_spaces_of_ne _ hki]
          cases hk : s.spaces k with
          | none => rfl
          | some spk =>
            have hview := userView_keep (hrest k spk hkj hki hk) fun f hf =>
              hst.keep f (by omega)
            simp only [map_some, Sys.put, hview]
            rfl
      · rw [Sys.view, hi, map_some, some_inj] at hum
        rw [Sys.view, hj, map_some, some_inj] at hcm
        rw [Sys.view, put_spaces_self, map_some, ← hsz, if_pos hrt, ← hum, ← hcm]
        simp only [Sys.put, hr hrt]

/-- **Every call** keeps the invariant, and none stops with a panic of the reference counts. -/
theorem Op.run_spec (op : Op ι) : Ensures (op.run L s) Panic.RefSafe (Inv L) := by
  cases op with
  | kalloc => exact (Sys.kalloc_spec h).bind fun _ hr => hr.1
  | kfree f => exact (Sys.kfree_spec h).mono fun _ hr => hr.1
  | kwrite f bytes => exact Sys.kwrite_spec h
  | procPagetable i tf => exact (Sys.procPagetable_spec h).bind fun _ hr => hr.1
  | procFreepagetable i =>
    exact (Sys.procFreepagetable_spec h (Or.inr le_rfl)).mono fun _ hr => hr.1
  | uvmalloc i newsz flags => exact (Sys.uvmalloc_spec h (Or.inr le_rfl)).bind fun _ hr => hr.1
  | uvmdealloc i newsz => exact (Sys.uvmdealloc_spec h (Or.inr le_rfl)).bind fun _ hr => hr.1
  | growproc i n => exact (Sys.growproc_spec h (Or.inr le_rfl)).bind fun _ hr => hr.1
  | uvmclear i va => exact (Sys.uvmclear_spec h (Or.inr le_rfl)).bind fun _ hr => hr.1
  | uvmcopy i j => exact (Sys.uvmcopy_spec h (Or.inr le_rfl)).bind fun _ hr => hr.1
  | usertrapFault i sp va => exact (Sys.usertrapFault_spec h).bind fun _ hr => hr.1
  | copyout i dstva src len =>
    exact (Sys.copyout_spec h (by simp [Panic.RefSafe])).bind fun _ hr => hr.1

omit h in
theorem inv_reachable (h : (memory L).Reachable s) : Inv L s := by
  refine h.invariant ?_ fun s op s' hinv hs => (op.run_spec hinv).of_ok hs
  rintro _ ⟨mem, m, hm, rfl⟩
  have hc := (kinit_counted (E := fun _ => False) mem L.le_stop).of_ok hm
  have hK : kernelRefs (⟨m, [], fun _ => none⟩ : Sys ι) = 0 := by
    simp only [kernelRefs, Sys.total, List.count_nil, elim_none, Finset.sum_const_zero,
      add_zero]
    rfl
  have hU : userRefs (⟨m, [], fun _ => none⟩ : Sys ι) = 0 := by
    simp only [userRefs, Sys.total, elim_none, Finset.sum_const_zero]
  refine ⟨?_, fun i sp hi => by cases hi⟩
  rw [hK, hU]
  exact ⟨by rwa [add_zero], fun _ => Nat.zero_le _, fun _ _ => rfl⟩

end Calls

/-- **Reference counts are exact.** After booting, and after any calls in any order, by any number
of address spaces: every managed frame counts exactly its references, the user leaves that map it
and its owners in the kernel; it is on the free list, once, if and only if the count is zero; a
writable user page has no second reference; no entry is writable and copy on write at once; and no
call stops with a panic of the counts. -/
theorem refcounts_exact {ι : Type} [Fintype ι] [DecidableEq ι] (L : Layout) :
    (∀ mem, ∃ m, kinit L.kend mem = .ok m) ∧
    ∀ s : Sys ι, (memory L).Reachable s →
      (∀ f, InRam L.kend f →
        s.phys.pgrc f = s.kernelRefs f + s.userRefs f ∧
        s.phys.freelist.count f = if s.phys.pgrc f = 0 then 1 else 0) ∧
      (∀ f ∈ s.phys.freelist, InRam L.kend f) ∧
      (∀ i sp v, s.spaces i = some sp → v < userPages → (sp.pt.leaf v).has pteV = true →
        (sp.pt.leaf v).has pteW = true → s.phys.pgrc (sp.pt.leaf v).frame = 1) ∧
      (∀ i sp v, s.spaces i = some sp →
        ¬ ((sp.pt.leaf v).has pteW = true ∧ (sp.pt.leaf v).has pteC = true)) ∧
      ∀ (op : Op ι) e, op.run L s = .error e → e ≠ .incpgrc ∧ e ≠ .decpgrc ∧ e ≠ .kfree := by
  refine ⟨fun mem => ?_, fun s hs => ?_⟩
  · obtain ⟨m, hm, -⟩ := (kinit_counted mem L.le_stop).exists_ok
    exact ⟨m, hm⟩
  · have h := inv_reachable hs
    have hc := h.acct.counted
    refine ⟨fun f hf => ⟨h.pgrc_eq hf, ?_⟩, fun f hf => ((hc.mem_freelist f).mp hf).1,
      fun i sp v hi hv hV hW => ?_, fun i sp v hi hWC => ?_, fun op e he =>
        (op.run_spec h).of_error he⟩
    · have hmem := hc.mem_freelist f
      rw [hc.rc f hf]
      split_ifs with h0
      · exact List.count_eq_one_of_mem hc.nodup (hmem.mpr ⟨hf, by exact_mod_cast h0⟩)
      · exact List.count_eq_zero.mpr fun hm => h0 (by exact_mod_cast (hmem.mp hm).2)
    · have h1 := (h.spaces i sp hi).excl v hv hV hW
      have hK := h.acct.sep _ (by rw [h1]; decide)
      rw [h.pgrc_eq (hc.ram _ (by rw [Pi.add_apply, h1]; omega)), hK, h1]
      rfl
    · have := (h.spaces i sp hi).nowc v hWC.1
      rw [hWC.2] at this
      cases this

section Demo

variable {ι : Type} [DecidableEq ι]

def Op.runAll (L : Layout) : List (Op ι) → Sys ι → Except Panic (Sys ι)
  | [], s => .ok s
  | op :: ops, s => do runAll L ops (← op.run L s)

theorem reachable_runAll {L : Layout} {ops : List (Op ι)} {s s' : Sys ι}
    (hs : (memory L).Reachable s) (h : Op.runAll L ops s = .ok s') :
    (memory L).Reachable s' := by
  induction ops generalizing s with
  | nil =>
    cases h
    exact hs
  | cons op ops ih =>
    obtain ⟨s1, h1, h2⟩ := Except.bind_eq_ok_iff.mp h
    exact ih (hs.step h1) h2

/-- A machine with sixteen pages above the kernel. -/
def smallLayout : Layout := ⟨physStop - 16 * pgSize, 0x80007, by decide, by decide⟩

/-- A process with one page of text, read only as `exec` maps it, and its fork. -/
def forkedText : Except Panic (Sys (Fin 2)) := do
  let m ← kinit smallLayout.kend fun _ _ => 0
  Op.runAll smallLayout [.kalloc, .procPagetable 0 0x87fff, .uvmalloc 0 4096 1, .kalloc,
    .procPagetable 1 0x87ff8, .uvmcopy 0 1] ⟨m, [], fun _ => none⟩

theorem forkedText_reachable {s : Sys (Fin 2)} (h : forkedText = .ok s) :
    (memory smallLayout).Reachable s := by
  obtain ⟨m, hm, hs⟩ := Except.bind_eq_ok_iff.mp h
  exact reachable_runAll (.init ⟨_, m, hm, rfl⟩) hs

/-- After the fork the page of text has two references, and all are accounted for. -/
theorem refcounts_exact_forkedText : ∃ s : Sys (Fin 2), forkedText = .ok s ∧
    s.phys.pgrc 0x87ffb = 2 ∧ s.kernelRefs 0x87ffb + s.userRefs 0x87ffb = 2 := by
  obtain ⟨s, hs, hrc⟩ : ∃ s, forkedText = .ok s ∧ s.phys.pgrc 0x87ffb = 2 :=
    Ensures.exists_ok (by decide +kernel)
  have h := ((refcounts_exact smallLayout).2 s (forkedText_reachable hs)).1 0x87ffb (by decide)
  exact ⟨s, hs, hrc, by exact_mod_cast h.1.symm.trans hrc⟩

end Demo

end Xv6
