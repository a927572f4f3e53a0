import Xv6.Mem.Fork

/-!
# Stores to copy-on-write pages

A store to a copy-on-write page faults, and `usertrap` answers by giving the process a writable
copy of the page. Before that, however, it looks at the address: a fault from one page below the
page of the user stack pointer up to the first byte of that page is taken for an overflow of the
stack, and the process is killed, whether the page is mapped or not. A stack pointer on a page
boundary points to such an address.
-/

namespace Xv6

open Function

/-- The addresses at which `usertrap` takes a fault for an overflow of the stack: from
`PGROUNDDOWN(sp) - PGSIZE`, on 64-bit values, to `PGROUNDDOWN(sp)`. -/
def NearStack (sp va : ℕ) : Prop :=
  (pgRoundDown sp + 2 ^ 64 - pgSize) % 2 ^ 64 ≤ va ∧ va ≤ pgRoundDown sp

instance (sp va : ℕ) : Decidable (NearStack sp va) := inferInstanceAs (Decidable (_ ∧ _))

section Space

variable {kend : ℕ} {E : Panic → Prop} {K U : ℕ → ℕ} {pt : PageTable} {m : Phys}

/-- The entry `q` of a page after its copy: the user may write it, it is not copy on write, nobody
else maps its frame, and it shows the bytes of the entry `p` before. -/
structure PrivateCopy (p : Pte) (m : Phys) (q : Pte) (m' : Phys) : Prop where
  user : UserPage q
  writable : q.has pteW = true
  notCow : q.has pteC = false
  count : m'.pgrc q.frame = 1
  bytes : m'.mem q.frame = m.mem p.frame

/-- The references to a writable page of a space are counted: there is one. -/
theorem SpaceOk.pgrc_writable {v : ℕ} (h : SpaceOk kend K U pt m) (hv : v < userPages)
    (hV : (pt.leaf v).has pteV = true) (hW : (pt.leaf v).has pteW = true) :
    m.pgrc (pt.leaf v).frame = 1 := by
  rw [(h.pgrc_leaf hv hV).2, h.excl v hv hV hW]
  rfl

/-- **The fault handler on a copy-on-write page**, away from the stack and with a free page: the
process goes on with a copy of its own. -/
theorem usertrapFault_copies {sp va : ℕ} (h : SpaceOk kend K U pt m) (htop : KernelTop pt)
    (hu : UserPage (pt.leaf (va / pgSize))) (hC : (pt.leaf (va / pgSize)).has pteC = true)
    (hfree : m.freelist ≠ []) (hnear : ¬ NearStack sp va) :
    Ensures (usertrapFault kend sp va pt m) E fun r => r.1 = false ∧
      SpaceStep kend K U pt m r.2.1 r.2.2 ∧
      userView r.2.2.mem r.2.1.leaf = userView m.mem pt.leaf ∧
      ∃ q, r.2.1.leaf = update pt.leaf (va / pgSize) q ∧
        PrivateCopy (pt.leaf (va / pgSize)) m q r.2.2 := by
  have hlt := hu.lt htop
  have hva := pgRoundDown_lt hlt
  have hmax := lt_maxVa hva
  have hbad : ¬ (maxVa ≤ va ∨
      (pgRoundDown sp + 2 ^ 64 - pgSize) % 2 ^ 64 ≤ va ∧ va ≤ pgRoundDown sp) := by
    rintro (hge | hn)
    · exact not_le.mpr (lt_maxVa (div_lt_userPages.mp hlt)) hge
    · exact hnear hn
  have hp : pt.pte (pgRoundDown va) = pt.leaf (va / pgSize) := by
    rw [← PageTable.leaf_page pt hmax, pgRoundDown_div]
  have hm : pt.mapped (pgRoundDown va) = true := PageTable.mapped_of_has (hp ▸ hu.1)
  rw [usertrapFault, if_neg hbad]
  simp only [PageTable.walk_false pt hmax, bind, Except.bind, hm, hp, hu.1, hu.2, hC,
    Bool.true_eq_false, if_false, if_true]
  refine (cowCopy_spec hva h (hp ▸ hu.1) (hp ▸ hC)).bind ?_
  rintro (_ | ⟨pt', m'⟩) hr
  · exact absurd hr hfree
  obtain ⟨hst, -, hview, q, hleaf, hbit⟩ := hr
  rw [pgRoundDown_div] at hleaf
  rw [hp] at hbit
  have hat : pt'.leaf (va / pgSize) = q := by rw [hleaf, update_self]
  have hqV : q.has pteV = true := by
    rw [has_pteV, hbit 0 (by omega), getLsbD_unshare, ← has_pteV, hu.1]
    rfl
  have hqU : q.has pteU = true := by
    rw [has_pteU, hbit 4 (by omega), getLsbD_unshare, ← has_pteU, hu.2]
    rfl
  have hqW : q.has pteW = true := by
    rw [has_pteW, hbit 2 (by omega), getLsbD_unshare]
    simp
  have hqC : q.has pteC = false := by
    rw [has_pteC, hbit 5 (by omega), getLsbD_unshare]
    simp
  refine ⟨rfl, hst, hview, q, hleaf, ⟨hqV, hqU⟩, hqW, hqC, ?_, ?_⟩
  · have := hst.ok.pgrc_writable hlt (hat.symm ▸ hqV) (hat.symm ▸ hqW)
    rwa [hat] at this
  · -- the process sees the same page as before
    have hsame := congrFun hview (va / pgSize)
    rw [userView_of_lt hlt, userView_of_lt hlt, hat, Pte.view, Pte.view, if_pos hqV,
      if_pos hu.1] at hsame
    exact congrArg UPage.bytes (Option.some.inj hsame)

end Space

section System

variable {ι : Type} [Fintype ι] [DecidableEq ι] {L : Layout} {s : Sys ι} {i : ι} {space : Space}

/-- What a fault on the page `v` leaves when it has been answered with a copy: the page is private
and can be written, every other entry of the table is as before, and no process sees a change. -/
structure PageCopied (s : Sys ι) (i : ι) (space : Space) (v : ℕ) (s' : Sys ι) (pt : PageTable) :
    Prop where
  spaces : s'.spaces = update s.spaces i (some ⟨pt, space.sz⟩)
  copy : PrivateCopy (space.pt.leaf v) s.phys (pt.leaf v) s'.phys
  others : ∀ w, w ≠ v → pt.leaf w = space.pt.leaf w
  view : s'.view = s.view

omit [Fintype ι] in
theorem PageCopied.store {va : ℕ} {s' : Sys ι} {pt : PageTable}
    (h : PageCopied s i space (va / pgSize) s' pt) (b : UInt8) : (s'.store i va b).isSome = true :=
  Sys.store_isSome (by rw [h.spaces, update_self]) h.copy.user h.copy.writable

theorem Sys.usertrapFault_copies {sp va : ℕ} (h : Inv L s) (hi : s.spaces i = some space)
    (hu : UserPage (space.pt.leaf (va / pgSize)))
    (hC : (space.pt.leaf (va / pgSize)).has pteC = true) (hfree : s.phys.freelist ≠ [])
    (hnear : ¬ NearStack sp va) :
    ∃ s' pt, s.usertrapFault L i sp va = .ok (some false, s') ∧ Inv L s' ∧
      PageCopied s i space (va / pgSize) s' pt := by
  obtain ⟨⟨r, pt, m⟩, hrun, hr, hst, hview, q, hleaf, hq⟩ :=
    (Xv6.usertrapFault_copies (E := fun _ => False) (h.spaceOk hi) (h.spaces i space hi).top hu hC
      hfree hnear).exists_ok
  obtain rfl : r = false := hr
  dsimp only at hst hview hleaf hq
  have hat : pt.leaf (va / pgSize) = q := by rw [hleaf, update_self]
  refine ⟨s.put i (some ⟨pt, space.sz⟩) m, pt, ?_,
    h.move hi hst.toSpaceMove (h.spaces i space hi).sz_le, rfl, hat.symm ▸ hq, fun w hw => ?_, ?_⟩
  · rw [Sys.usertrapFault, Sys.onSpace, hi]
    simp only [hrun]
    rfl
  · rw [hleaf, update_of_ne hw]
  · rw [Inv.view_put hst.keep]
    refine update_eq_self_iff.mpr ?_
    rw [Option.map_some, hview, Sys.view, hi]
    rfl

omit [Fintype ι] in
/-- A fault near the stack pointer kills the process, whatever its page is. -/
theorem Sys.usertrapFault_near {sp va : ℕ} (hi : s.spaces i = some space) (h : NearStack sp va) :
    s.usertrapFault L i sp va = .ok (some true, s) := by
  rw [NearStack] at h
  rw [Sys.usertrapFault, Sys.onSpace, hi]
  simp only [Xv6.usertrapFault, if_pos (Or.inr h)]
  exact congrArg (fun s => Except.ok (some true, s)) (Sys.put_self hi)

/-- **A store to a copy-on-write page succeeds exactly away from the stack pointer.** For every page
of the user marked copy on write, if there is a free page: the process gets a private, writable copy
with the same bytes, its other entries and everybody's memory are as before, and the store that is
tried again succeeds, if and only if `usertrap` does not take the address for an overflow of the
stack. -/
theorem storeFault_copies {sp va : ℕ} (h : Inv L s) (hi : s.spaces i = some space)
    (hu : UserPage (space.pt.leaf (va / pgSize)))
    (hC : (space.pt.leaf (va / pgSize)).has pteC = true) (hfree : s.phys.freelist ≠ []) :
    (∃ s' pt, s.usertrapFault L i sp va = .ok (some false, s') ∧
      PageCopied s i space (va / pgSize) s' pt ∧ ∀ b, (s'.store i va b).isSome = true) ↔
        ¬ NearStack sp va := by
  constructor
  · rintro ⟨s', pt, hrun, -⟩ hnear
    rw [Sys.usertrapFault_near hi hnear] at hrun
    cases hrun
  · intro hnear
    obtain ⟨s', pt, hrun, -, hpage⟩ := Sys.usertrapFault_copies h hi hu hC hfree hnear
    exact ⟨s', pt, hrun, hpage, fun b => hpage.store b⟩

end System

section Demo

/-- A process with two writable pages, and its fork: both pages are copy on write. -/
def forkedPages : Except Panic (Sys (Fin 2)) := do
  let m ← kinit smallLayout.kend fun _ _ => 0
  Op.runAll smallLayout [.kalloc, .procPagetable 0 0x87fff, .uvmalloc 0 8192 2, .kalloc,
    .procPagetable 1 0x87ff7, .uvmcopy 0 1] ⟨m, [], fun _ => none⟩

theorem forkedPages_reachable {s : Sys (Fin 2)} (h : forkedPages = .ok s) :
    (memory smallLayout).Reachable s := by
  obtain ⟨m, hm, hs⟩ := Except.bind_eq_ok_iff.mp h
  exact reachable_runAll (.init ⟨_, m, hm, rfl⟩) hs

/-- The page at an address of the first process is a user page marked copy on write, and there is a
free page. -/
def Sys.cowAt (s : Sys (Fin 2)) (va : ℕ) : Prop :=
  ∃ space, s.spaces 0 = some space ∧ UserPage (space.pt.leaf (va / pgSize)) ∧
    (space.pt.leaf (va / pgSize)).has pteC = true ∧ s.phys.freelist ≠ []

theorem forkedPages_cow : ∃ s, forkedPages = .ok s ∧ s.cowAt 4096 := by
  obtain ⟨s, hs, space, hsp, h⟩ : ∃ s, forkedPages = .ok s ∧ ∃ space ∈ s.spaces 0,
      UserPage (space.pt.pte 4096) ∧ (space.pt.pte 4096).has pteC = true ∧
        s.phys.freelist ≠ [] := Ensures.exists_ok (by decide +kernel)
  rw [← PageTable.leaf_page space.pt (by decide)] at h
  exact ⟨s, hs, space, hsp, h⟩

theorem storeFault_copies_forkedPages : ∃ s s' : Sys (Fin 2), forkedPages = .ok s ∧
    s.usertrapFault smallLayout 0 0 4096 = .ok (some false, s') ∧
    (s'.store 0 4096 7).isSome = true := by
  obtain ⟨s, hs, space, hsp, hu, hC, hfree⟩ := forkedPages_cow
  obtain ⟨s', pt, hrun, -, hstore⟩ := (storeFault_copies
    (inv_reachable (forkedPages_reachable hs)) hsp hu hC hfree).mpr
      (show ¬ NearStack 0 4096 by decide)
  exact ⟨s, s', hs, hrun, hstore 7⟩

/-- **A store through a stack pointer on a page boundary kills the process**: the page at the
address is copy on write and there is a free page, but the address is that of the stack pointer. -/
theorem storeFault_kills : ∃ s : Sys (Fin 2), (memory smallLayout).Reachable s ∧ s.cowAt 4096 ∧
    s.usertrapFault smallLayout 0 4096 4096 = .ok (some true, s) := by
  obtain ⟨s, hs, hcow⟩ := forkedPages_cow
  refine ⟨s, forkedPages_reachable hs, hcow, ?_⟩
  obtain ⟨space, hsp, -⟩ := hcow
  exact Sys.usertrapFault_near hsp (by decide)

end Demo

end Xv6
