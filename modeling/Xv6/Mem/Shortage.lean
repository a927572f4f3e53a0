import Xv6.Mem.Isolation
import Xv6.Mem.Leaves
import Xv6.Mem.Procs
import Xv6.Mem.StoreFault

/-!
# When memory runs out

Three calls that need pages and may find none: `uvmcopy`, for the page-table pages of the child;
`copyout`, for the private copy of a copy-on-write page; `growproc`, for the pages and their
page-table pages. A failing `uvmcopy` takes back the pages it has shared; the page-table pages of
the child are freed at the child's end. A failing `growproc` takes back what it has added. `copyout`
has no way to fail at this point: it goes on with address 0.
-/

namespace Xv6

open Function Finset Sys

section Fork

variable {ι : Type} [Fintype ι] [DecidableEq ι] {L : Layout} {s : Sys ι} {i j : ι} {p c : Space}

/-- What a failing `uvmcopy` from the space `p` to the space `c` leaves, with the tables `old` and
`new` in the two. -/
structure ForkUndone (L : Layout) (s : Sys ι) (i j : ι) (p c : Space) (s' : Sys ι)
    (old new : PageTable) : Prop where
  spaces : s'.spaces = update (update s.spaces i (some ⟨old, p.sz⟩)) j (some ⟨new, c.sz⟩)
  /-- The child maps no user page. -/
  child : ∀ v < userPages, (new.leaf v).has pteV = false
  /-- A frame counts what it counted, or it was free and is now a page-table page of the child. -/
  counts : ∀ f, InRam L.kend f → s'.phys.pgrc f = s.phys.pgrc f ∨
    s.phys.pgrc f = 0 ∧ s'.phys.pgrc f = 1 ∧ c.pt.tables f = 0 ∧ new.tables f = 1
  /-- The parent reads the same bytes. -/
  reads : ∀ x, s'.byte i x = s.byte i x
  /-- A page that was writable still is, or is marked copy on write. -/
  writes : ∀ v, (p.pt.leaf v).has pteW = true →
    (old.leaf v).has pteW = true ∨ (old.leaf v).has pteC = true
  /-- In every later state in which the parent has this table, a store to a page that was writable
  succeeds, at once or, with a free page, after a fault. -/
  stores : ∀ t : Sys ι, Inv L t → t.spaces i = some ⟨old, p.sz⟩ → ∀ sp va b,
    UserPage (p.pt.leaf (va / pgSize)) → (p.pt.leaf (va / pgSize)).has pteW = true →
      (t.store i va b).isSome = true ∨ (t.phys.freelist ≠ [] → ¬ NearStack sp va →
        ∃ t', t.usertrapFault L i sp va = .ok (some false, t') ∧ (t'.store i va b).isSome = true)
  /-- The `freeproc` of the child, with which `fork` goes on, leads to such a state, and there is a
  free page in it. -/
  freed : ∀ tf tc, ∃ t, Machine.freeproc L j tf tc s' = .ok t ∧ Inv L t ∧
    t.spaces i = some ⟨old, p.sz⟩ ∧ t.phys.freelist ≠ []

omit [Fintype ι] [DecidableEq ι] in
theorem Sys.byte_congr {s s' : Sys ι} (h : s'.view i = s.view i) (x : ℕ) :
    s'.byte i x = s.byte i x := by
  rw [Sys.byte, Sys.byte, h]

omit [DecidableEq ι] in
theorem Inv.pgrc_table (h : Inv L s) {space : Space} (hi : s.spaces i = some space) {f : ℕ}
    (hf : space.pt.tables f ≠ 0) : s.phys.pgrc f = 1 ∧ space.pt.tables f = 1 := by
  classical
  have hle := tables_le_kernelRefs hi f
  have hK := h.acct.kernel_le f
  have hU : s.userRefs f = 0 := by
    by_contra hne
    have := h.acct.sep f hne
    omega
  have hram := h.acct.counted.ram f (by rw [Pi.add_apply]; omega)
  rw [h.pgrc_eq hram, hU]
  exact ⟨by omega, by omega⟩

/-- The pages of a process that has ended are free, its root page among them. -/
theorem Machine.freeproc_free {tf tc : ℕ} (hs : s.Shaped) (h : Inv L s)
    (hj : s.spaces j = some c) : ∃ t, Machine.freeproc L j tf tc s = .ok t ∧ Inv L t ∧
      t.spaces = update s.spaces j none ∧ t.phys.freelist ≠ [] := by
  have hspec : Ensures (Machine.freeproc L j tf tc s) (fun _ => False) _ :=
    Machine.freeproc_spec (Or.inl hs) h
  obtain ⟨t, ht, hinv, -, hkheld, hspaces, -⟩ := hspec.exists_ok
  have hroot : c.pt.tables c.pt.root ≠ 0 := by
    rw [PageTable.tables, Pi.add_apply, ref_self]
    omega
  obtain ⟨hrc, hone⟩ := h.pgrc_table hj hroot
  have hram := h.acct.counted.ram c.pt.root (by
    have := tables_le_kernelRefs hj c.pt.root
    rw [Pi.add_apply]
    omega)
  have hrefs := h.pgrc_eq hram
  rw [kernelRefs_eq hj, Sys.userRefs_eq hj, Pi.add_apply, Pi.add_apply, hone, hrc] at hrefs
  -- what refers to the root page now did so before, beside the table itself
  have hcount : t.kheld.count c.pt.root ≤ s.kheld.count c.pt.root := by
    rw [hkheld]
    exact ((List.erase_sublist ..).trans (List.erase_sublist ..)).count_le _
  have hkernel : t.kernelRefs c.pt.root ≤ (s.without j).kernelRefs c.pt.root := by
    rw [kernelRefs, hspaces]
    exact Nat.add_le_add_right hcount _
  have huser : t.userRefs = (s.without j).userRefs := by
    rw [userRefs, hspaces]
    rfl
  refine ⟨t, ht, hinv, hspaces, List.ne_nil_of_mem
    ((hinv.acct.counted.mem_freelist c.pt.root).mpr ⟨hram, ?_⟩)⟩
  rw [Pi.add_apply, huser]
  omega

/-- **A failing `uvmcopy` is undone.** For every state in good order, `uvmcopy` into a child without
user pages returns; and if it fails, the child maps no user page, the counts are as before, except
that free frames may have become page-table pages of the child, the parent reads what it read, and
what it could write it still can, at once or by way of the fault handler in any later state with a
free page. After the `freeproc` of the child there is one. -/
theorem uvmcopy_undone (h : Inv L s) (hs : s.Shaped) (hij : i ≠ j) (hi : s.spaces i = some p)
    (hj : s.spaces j = some c) (hc : c.sz = 0) :
    ∃ ok s', s.uvmcopy L i j = .ok (ok, s') ∧
      (ok = false → ∃ old new, ForkUndone L s i j p c s' old new) := by
  have hspec := Sys.uvmcopy_spec (i := i) (j := j) (E := fun _ => False) h
    (Or.inl ⟨hs, fun c' hc' => by rw [hj] at hc'; cases hc'; exact hc⟩)
  have htables : Ensures (s.uvmcopy L i j) (fun _ => True) fun r => r.1 = false →
      ∃ old new m, Shares p.pt c.pt old new ∧
        r.2 = (s.put i (some ⟨old, p.sz⟩) m).put j (some ⟨new, c.sz⟩) m := by
    rw [Sys.uvmcopy, hi, hj]
    dsimp only
    rw [if_neg hij]
    refine uvmcopy_leaves.bind ?_
    rintro ⟨r, old, new, m⟩ hsh hr
    obtain rfl : r = false := hr
    exact ⟨old, new, m, hsh, rfl⟩
  obtain ⟨⟨ok, s'⟩, hrun, ⟨hinv, -, hshaped, hview, -⟩, htab⟩ := (hspec.and htables).exists_ok
  refine ⟨ok, s', hrun, fun hok => ?_⟩
  obtain ⟨old, new, m, hsh, hs'⟩ := htab hok
  dsimp only at hinv hshaped hview hs'
  subst hs'
  have hspi : ((s.put i (some ⟨old, p.sz⟩) m).put j (some ⟨new, c.sz⟩) m).spaces i =
      some ⟨old, p.sz⟩ := by
    rw [put_spaces_of_ne _ hij, Sys.put_spaces_self]
  have hspj := Sys.put_spaces_self (s.put i (some ⟨old, p.sz⟩) m) j (some ⟨new, c.sz⟩) m
  -- neither the old child nor the new one has user pages
  have hempty : ∀ sp : Space, sp.sz = 0 → sp.Shaped → ∀ v < userPages,
      (sp.pt.leaf v).has pteV = false := by
    intro sp h0 hsp v hv
    have hu := hsp.user
    rw [h0, npages_zero] at hu
    exact hu.unused v (Nat.zero_le v) hv
  have hshaped' := hshaped hs fun c' hc' => by rw [hj] at hc'; cases hc'; exact hc
  have hchild := hempty ⟨new, c.sz⟩ hc (hshaped' j _ hspj)
  have hwritable : ∀ v, (p.pt.leaf v).has pteW = true →
      (old.leaf v).has pteW = true ∨ (old.leaf v).has pteC = true := by
    intro v hW
    rcases hsh.leaves v with heq | heq
    · exact Or.inl (heq ▸ hW)
    · have hwc := shared_writable (p.pt.leaf v)
      rw [hW, Bool.true_or, ← heq, Bool.or_eq_true] at hwc
      exact hwc
  refine ⟨old, new, rfl, hchild, fun f hf => ?_, fun x => byte_congr (hview i hij) x,
    hwritable, fun t hinvt ht sp va b hu hW => ?_, fun tf tc => ?_⟩
  · -- the references before and after differ in the page-table pages of the child
    have hbefore := h.pgrc_eq hf
    have hafter := hinv.pgrc_eq hf
    have hj' : (s.without i).spaces j = some c := by rwa [without_spaces_of_ne s hij.symm]
    rw [kernelRefs_eq hi, kernelRefs_eq hj', Sys.userRefs_eq hi, Sys.userRefs_eq hj',
      leafRefs_eq_zero (hempty c hc (hs j c hj))] at hbefore
    rw [kernelRefs_put_put s hij, userRefs_put_put s hij, leafRefs_eq_zero hchild,
      leafRefs_of_shared hsh.leaves, hsh.tables] at hafter
    simp only [Pi.add_apply, Pi.zero_apply] at hbefore hafter
    have hle := hsh.child f
    by_cases hnew : new.tables f = 0
    · left
      omega
    · obtain ⟨h1, h2⟩ := hinv.pgrc_table hspj hnew
      dsimp only at h2
      by_cases hold : c.pt.tables f = 0
      · right
        omega
      · left
        omega
  · have hu' : UserPage (old.leaf (va / pgSize)) := by
      rcases hsh.leaves (va / pgSize) with heq | heq
      · exact heq ▸ hu
      · rw [heq, UserPage, shared_has_pteV, has_pteU, getLsbD_shared _ (by omega) (by omega),
          ← has_pteU]
        exact hu
    rcases hwritable _ hW with hW' | hC
    · exact Or.inl (store_isSome ht hu' hW')
    · refine Or.inr fun hfree hnear => ?_
      obtain ⟨t', pt, hfault, -, hpage⟩ := Sys.usertrapFault_copies hinvt ht hu' hC hfree hnear
      exact ⟨t', hfault, hpage.store b⟩
  · obtain ⟨t, hrun, hinvt, hspaces, hfree⟩ := Machine.freeproc_free hshaped' hinv hspj
    refine ⟨t, hrun, hinvt, ?_, hfree⟩
    rw [hspaces, update_of_ne hij, hspi]

end Fork

/-- The first process, with a child that has an empty space, and one free page. -/
def oneFreePage : Except Panic (Option (ℕ × ℕ) × Sys (Fin 2)) := do
  let t ← booted [.kalloc, .kalloc]
  Machine.allocproc smallLayout 1 t.sys

theorem oneFreePage_ok {r : Option (ℕ × ℕ) × Sys (Fin 2)} (h : oneFreePage = .ok r) :
    Inv smallLayout r.2 ∧ r.2.Shaped := by
  obtain ⟨t, ht, h⟩ := Except.bind_eq_ok_iff.mp h
  have hsound := sound_reachable (booted_reachable ht)
  obtain ⟨_, ht', hfree⟩ : ∃ t, booted [.kalloc, .kalloc] = .ok t ∧ (t.sys.spaces 1).isNone :=
    Ensures.exists_ok (by decide +kernel)
  cases ht.symm.trans ht'
  have hnone : t.sys.view 1 = none := by
    rw [Sys.view, Option.isNone_iff_eq_none.mp hfree]
    rfl
  obtain ⟨hinv, hshaped, -⟩ := (Machine.allocproc_spec (E := fun _ => True)
    (Or.inl hsound.shaped) hsound.inv hnone).of_ok h
  exact ⟨hinv, hshaped hsound.shaped⟩

theorem oneFreePage_fails : ∃ (s s' : Sys (Fin 2)) (p c : Space),
    (Inv smallLayout s ∧ s.Shaped) ∧ s.spaces 0 = some p ∧ s.spaces 1 = some c ∧ c.sz = 0 ∧
    s.uvmcopy smallLayout 0 1 = .ok (false, s') ∧
    s.phys.pgrc 0x87ff0 = 0 ∧ s'.phys.pgrc 0x87ff0 = 1 := by
  obtain ⟨⟨_, s⟩, hs, p, hp, c, hc, hrun⟩ : ∃ r, oneFreePage = .ok r ∧
      ∃ p ∈ r.2.spaces 0, ∃ c ∈ r.2.spaces 1,
        Ensures (r.2.uvmcopy smallLayout 0 1) (fun _ => False) fun q => q.1 = false ∧ c.sz = 0 ∧
          r.2.phys.pgrc 0x87ff0 = 0 ∧ q.2.phys.pgrc 0x87ff0 = 1 :=
    Ensures.exists_ok (by decide +kernel)
  obtain ⟨⟨_, s'⟩, hu, rfl, h1, h2, h3⟩ := hrun.exists_ok
  exact ⟨s, s', p, c, oneFreePage_ok hs, hp, hc, h1, hu, h2, h3⟩

theorem uvmcopy_undone_oneFreePage : ∃ (s s' : Sys (Fin 2)) (p c : Space) (old new : PageTable),
    s.uvmcopy smallLayout 0 1 = .ok (false, s') ∧ ForkUndone smallLayout s 0 1 p c s' old new := by
  obtain ⟨s, s', p, c, ⟨hinv, hshaped⟩, hp, hc, h0, hu, -⟩ := oneFreePage_fails
  obtain ⟨ok, s'', hrun, hundone⟩ :=
    uvmcopy_undone (i := 0) (j := 1) hinv hshaped (by decide) hp hc h0
  rw [hu] at hrun
  cases hrun
  obtain ⟨old, new, h⟩ := hundone rfl
  exact ⟨s, s', p, c, old, new, hu, h⟩

/-- **A failing `uvmcopy` keeps a page**: the page-table page that it got for the child was free
before, and is counted now. -/
theorem uvmcopy_keeps_table : ∃ s s' : Sys (Fin 2), (Inv smallLayout s ∧ s.Shaped) ∧
    (∃ c, s.spaces 1 = some c ∧ c.sz = 0) ∧ s.uvmcopy smallLayout 0 1 = .ok (false, s') ∧
    s.phys.pgrc 0x87ff0 = 0 ∧ s'.phys.pgrc 0x87ff0 = 1 := by
  obtain ⟨s, s', p, c, hok, -, hc, h0, hu, h1, h2⟩ := oneFreePage_fails
  exact ⟨s, s', hok, ⟨c, hc, h0⟩, hu, h1, h2⟩

section System

variable {ι : Type} [Fintype ι] [DecidableEq ι] {L : Layout} {s : Sys ι} {i : ι} {sp : Space}

/-- What a call of `copyout` for the process `i` with the space `sp` has done when it returns `ok`,
with `k` bytes written and the table `pt` in the space. -/
structure CopyoutDone (s : Sys ι) (i : ι) (sp : Space) (dstva len : ℕ) (src : ℕ → UInt8)
    (ok : Bool) (s' : Sys ι) (k : ℕ) (pt : PageTable) : Prop where
  space : s'.spaces i = some ⟨pt, sp.sz⟩
  le : k ≤ len
  bytes : ∀ x, s'.byte i x =
    if dstva ≤ x ∧ x < dstva + k then (s.byte i x).map fun _ => src (x - dstva) else s.byte i x
  leaves : ∀ v ∉ rangePages dstva k, pt.leaf v = sp.pt.leaf v
  done : ok = true → k = len
  /-- It fails at a page that is not the user's, and has left its entry and its count alone. -/
  stop : ok = false → k < len ∧ ¬ UserPage (sp.pt.leaf ((dstva + k) / pgSize)) ∧
    (dstva + k) / pgSize ∉ rangePages dstva k
  counts : ∀ v < userPages, v ∉ rangePages dstva k → (sp.pt.leaf v).has pteV = true →
    s'.phys.pgrc (sp.pt.leaf v).frame = s.phys.pgrc (sp.pt.leaf v).frame
  /-- No page that is mapped is free. -/
  mapped : ∀ j spj v, s'.spaces j = some spj → v < userPages → (spj.pt.leaf v).has pteV = true →
    (spj.pt.leaf v).frame ∉ s'.phys.freelist

omit [DecidableEq ι] in
theorem Inv.pgrc_user (h : Inv L s) {f : ℕ} (hf : s.userRefs f ≠ 0) :
    s.phys.pgrc f = s.userRefs f := by
  have hram := h.acct.counted.ram f (by rw [Pi.add_apply]; omega)
  rw [h.pgrc_eq hram, h.acct.sep f hf, Nat.cast_zero, zero_add]

/-- **`copyout` does its work exactly if it does not run out of memory**: if at each copy-on-write
page that it reaches there are more free pages than shared pages of this kind before it. Then it
returns; it fails only at a page that is not the user's; the bytes up to there and no others are
written, and the entry and the count of no other page have changed. -/
theorem copyout_enough (dstva len : ℕ) (src : ℕ → UInt8) (h : Inv L s) (hs : s.Shaped)
    (hi : s.spaces i = some sp) :
    (∃ ok s' k pt, s.copyout L i dstva src len = .ok (some ok, s') ∧
      CopyoutDone s i sp dstva len src ok s' k pt) ↔ EnoughPages sp.pt s.phys dstva len := by
  have hsp := h.spaces i sp hi
  have hloop : Ensures (copyoutLoop L.kend len sp.pt dstva src len s.phys) _ _ :=
    copyoutLoop_exact L.kend_pos len le_rfl (h.spaceOk hi) hsp.top
  constructor
  · rintro ⟨ok, s', k, pt, hrun, -⟩
    obtain ⟨_, _, _, hrun, -⟩ := (copyout_eq_ok_iff hi).mp hrun
    exact (hloop.of_ok hrun).1 _ (hs i sp hi).user
  intro hen
  obtain ⟨⟨ok, pt, m⟩, hrun, -, k, hc⟩ := (hloop.weaken fun _ hn =>
    hn.2 _ (hs i sp hi).user hen).exists_ok
  have hinv : Inv L (s.put i (some ⟨pt, sp.sz⟩) m) := h.move hi hc.move hsp.sz_le
  have hspace := Sys.put_spaces_self s i (some ⟨pt, sp.sz⟩) m
  refine ⟨ok, _, k, pt, (copyout_eq_ok_iff hi).mpr ⟨ok, pt, m, hrun, rfl, rfl⟩, hspace, hc.le,
    fun x => ?_, hc.leaves, hc.done, hc.stop, fun v hv hout hV => ?_,
    fun j spj v hj hv hV hmem => ?_⟩
  · rw [Sys.byte_eq hspace, Sys.byte_eq hi]
    change (userView m.mem pt.leaf _).map _ = _
    rw [hc.view (.inl ⟨_, (hs i sp hi).user⟩)]
    split_ifs with hx
    · rw [writeView_byte_of_mem hx, Option.map_map]
      rfl
    · exact writeView_byte_of_not_mem hx
  · -- the page has one reference in this space, before and after
    have hleaf := hc.leaves v hout
    dsimp only at hleaf
    have hone : leafRefs pt.leaf (sp.pt.leaf v).frame =
        leafRefs sp.pt.leaf (sp.pt.leaf v).frame := by
      rw [(hs i sp hi).user.leafRefs_leaf hv hV, ← hleaf]
      exact (hc.shape _ (hs i sp hi).user).leafRefs_leaf hv (hleaf.symm ▸ hV)
    have hpos := leafRefs_ne_zero hv hV
    have hle := leafRefs_le_userRefs hi (sp.pt.leaf v).frame
    have hrefs : (s.put i (some ⟨pt, sp.sz⟩) m).userRefs (sp.pt.leaf v).frame =
        s.userRefs (sp.pt.leaf v).frame := by
      rw [Sys.userRefs_put_some, Sys.userRefs_eq hi, Pi.add_apply, Pi.add_apply, hone]
    rw [hinv.pgrc_user (by omega), h.pgrc_user (by omega), hrefs]
  · have hle := leafRefs_le_userRefs hj (spj.pt.leaf v).frame
    have hpos := leafRefs_ne_zero hv hV
    have hzero := ((hinv.acct.counted.mem_freelist _).mp hmem).2
    rw [Pi.add_apply] at hzero
    omega

end System

/-- After a fork there is a free page for the one page of the first process. -/
theorem copyout_enough_forked : ∃ (t : Machine (Fin 2)) (sp : Space) (ok : Bool) (s' : Sys (Fin 2))
    (k : ℕ) (pt : PageTable), booted [.act (.fork 0 1)] = .ok t ∧ t.sys.spaces 0 = some sp ∧
    t.sys.copyout smallLayout 0 0 (fun _ => 7) 5000 = .ok (some ok, s') ∧
    CopyoutDone t.sys 0 sp 0 5000 (fun _ => 7) ok s' k pt := by
  obtain ⟨t, ht, sp, hsp, hpos, hnot⟩ : ∃ t, booted [.act (.fork 0 1)] = .ok t ∧
      ∃ sp ∈ t.sys.spaces 0, 0 < t.sys.phys.freelist.length ∧ ¬ UserPage (sp.pt.leaf 1) :=
    Ensures.exists_ok (by decide +kernel)
  have hsound := sound_reachable (booted_reachable ht)
  obtain ⟨ok, s', k, pt, h⟩ := (copyout_enough 0 5000 (fun _ => 7) hsound.inv
    hsound.shaped hsp).mpr fun v hv _ _ hall _ => by
      obtain rfl : v = 0 := by
        by_contra hne
        exact hnot (hall 1 (by decide) (by omega))
      exact hpos
  exact ⟨t, sp, ok, s', k, pt, ht, hsp, h⟩

/-- **`copyout` without a free page** for a copy-on-write page writes to address 0. -/
theorem copyout_traps : ∃ (t : Machine (Fin 2)) (sp : Space), (procs smallLayout 0).Reachable t ∧
    t.sys.spaces 0 = some sp ∧ UserPage (sp.pt.leaf 0) ∧ (sp.pt.leaf 0).has pteC = true ∧
    t.sys.phys.freelist = [] ∧
    t.sys.copyout smallLayout 0 0 (fun _ => 7) 1 = .error .kerneltrap := by
  obtain ⟨t, ht, sp, hsp, hc, h1, h2, h3⟩ : ∃ t, booted [.act (.fork 0 1), .kalloc] = .ok t ∧
      ∃ sp ∈ t.sys.spaces 0,
        Ensures (t.sys.copyout smallLayout 0 0 (fun _ => 7) 1) (· = .kerneltrap) (fun _ => False) ∧
        UserPage (sp.pt.leaf 0) ∧ (sp.pt.leaf 0).has pteC = true ∧ t.sys.phys.freelist = [] :=
    Ensures.exists_ok (by decide +kernel)
  cases hrun : t.sys.copyout smallLayout 0 0 (fun _ => 7) 1 with
  | ok r => exact (hc.of_ok hrun).elim
  | error e =>
    cases hc.of_error hrun
    exact ⟨t, sp, booted_reachable ht, hsp, h1, h2, h3, hrun⟩

/-! ## Growing and shrinking -/

section Sbrk

variable {ι : Type} [Fintype ι] [DecidableEq ι] {L : Layout} {s : Sys ι} {i : ι} {sp : Space}

/-- `sys_sbrk`: the old size, or `-1`. -/
def Sys.sbrk (L : Layout) (i : ι) (n : BitVec 32) (s : Sys ι) : Except Panic (Option ℤ × Sys ι) :=
  match s.spaces i with
  | none => .ok (none, s)
  | some sp => do
    let (ok, s) ← s.growproc L i n.toInt
    return (some (if ok = some true then sp.sz else -1), s)

theorem UserMem.grow_sz (um : UserMem) {n : ℤ} (hsz : um.sz < 2 ^ 64) (hn : 0 ≤ um.sz + n) :
    ((um.grow n).sz : ℤ) = um.sz + n := by
  rw [UserMem.grow]
  split_ifs with hpos
  · dsimp only
    omega
  · dsimp only
    omega

theorem UserMem.grow_pages_of_lt (um : UserMem) {n : ℤ} {x : ℕ} (h : x < um.sz)
    (h' : x < (um.grow n).sz) : (um.grow n).pages (x / pgSize) = um.pages (x / pgSize) := by
  have hpage : ∀ {sz : ℕ}, x < sz → ¬ npages sz ≤ x / pgSize := by
    intro sz hsz
    simp only [npages, pgSize]
    omega
  rw [UserMem.grow] at h' ⊢
  split_ifs at h' ⊢
  · exact if_neg fun hin => hpage h hin.1
  · exact if_neg fun hin => hpage h' hin.1

theorem UserMem.grow_pages_cases (um : UserMem) {n : ℤ} {v : ℕ} {page : UPage}
    (h : (um.grow n).pages v = some page) : um.pages v = some page ∨ page = zeroPage pteW := by
  rw [UserMem.grow] at h
  split_ifs at h
  · change (if _ then some (zeroPage pteW) else um.pages v) = _ at h
    split_ifs at h
    · exact Or.inr (Option.some_inj.mp h).symm
    · exact Or.inl h
  · change (if _ then none else um.pages v) = _ at h
    split_ifs at h
    exact Or.inl h

/-- `growproc` replaces the space; when it fails to grow, by one with the same mappings. -/
theorem Sys.growproc_mappings {n : ℤ} (h : Inv L s) (hi : s.spaces i = some sp) :
    Ensures (s.growproc L i n) (fun _ => True) fun r => ∃ ok sp' m,
      r = (some ok, s.put i (some sp') m) ∧
      (ok = false → 0 < n ∧ sp'.sz = sp.sz ∧ SameMappings sp.pt.leaf sp'.pt.leaf) := by
  have hsp := h.spaces i sp hi
  simp only [Sys.growproc, Sys.onSpace, hi, bind_assoc]
  refine (growproc_leaves hsp.sz_le hsp.top.trapframe).bind ?_
  rintro ⟨_ | sz', pt, m⟩ hsame
  · exact ⟨false, ⟨pt, sp.sz⟩, m, rfl, fun _ => ⟨(hsame rfl).1, rfl, (hsame rfl).2⟩⟩
  · exact ⟨true, ⟨pt, sz'⟩, m, rfl, fun h0 => (by cases h0)⟩

/-- What `sbrk` does to the process `i` with the space `sp`, when it returns `r` and leaves the
space `sp'`: nothing, or what it was asked for. -/
def SbrkDone (s : Sys ι) (i : ι) (sp : Space) (n : ℤ) (r : ℤ) (s' : Sys ι) (sp' : Space) : Prop :=
  (r = -1 ∧ sp'.sz = sp.sz ∧ SameMappings sp.pt.leaf sp'.pt.leaf ∧
    ∀ f, s.userRefs f ≠ 0 ∨ s'.userRefs f ≠ 0 → s'.phys.pgrc f = s.phys.pgrc f) ∨
  (r = sp.sz ∧ (sp'.sz : ℤ) = sp.sz + n ∧
    (∀ x, x < sp.sz → x < sp'.sz → s'.byte i x = s.byte i x) ∧
    ∀ x b, s.byte i x = none → s'.byte i x = some b → b = 0)

/-- **`sbrk` changes the size by what it was asked for, or not at all**, if and only if the new size
would not be negative. -/
theorem sbrk_exact {n : BitVec 32} (h : Inv L s) (hs : s.Shaped) (hi : s.spaces i = some sp) :
    (∃ r s' sp', s.sbrk L i n = .ok (some r, s') ∧ s'.spaces i = some sp' ∧
      SbrkDone s i sp n.toInt r s' sp') ↔ 0 ≤ (sp.sz : ℤ) + n.toInt := by
  have hsz : sp.sz < 2 ^ 64 := by
    have := (h.spaces i sp hi).sz_le
    simp only [trapframeVa, trampolineVa, maxVa, pgSize] at this
    omega
  obtain ⟨⟨o, s'⟩, hrun, ⟨hinv, -, -, -, hgrow⟩, ok, sp', m, hr, hfail⟩ :=
    ((Sys.growproc_spec (i := i) (n := n.toInt) (E := fun _ => False) h (Or.inl hs)).and
      (Sys.growproc_mappings h hi)).exists_ok
  obtain ⟨rfl, rfl⟩ : o = some ok ∧ s' = s.put i (some sp') m := Prod.mk.inj hr
  have hcall : s.sbrk L i n = .ok (some (if ok = true then (sp.sz : ℤ) else -1),
      s.put i (some sp') m) := by
    simp only [Sys.sbrk, hi, hrun, bind, Except.bind, pure, Except.pure, Option.some_inj]
  refine ⟨?_, fun hn => ?_⟩
  · -- a call that shrinks does not fail, and leaves a size that is not negative
    rintro ⟨r, s'', sp'', hcall', -, ⟨hneg, -⟩ | ⟨-, hsz', -⟩⟩
    · rw [hcall, Except.ok.injEq, Prod.mk.injEq, Option.some_inj, hneg] at hcall'
      cases ok with
      | false =>
        have := (hfail rfl).1
        omega
      | true =>
        have := hcall'.1
        rw [if_pos rfl] at this
        omega
    · omega
  have hspace := Sys.put_spaces_self s i (some sp') m
  have hview : s.view i = some ⟨userView s.phys.mem sp.pt.leaf, sp.sz⟩ := by
    rw [Sys.view, hi]
    rfl
  have hview' : (s.put i (some sp') m).view i = some ⟨userView m.mem sp'.pt.leaf, sp'.sz⟩ := by
    rw [Sys.view, hspace]
    rfl
  obtain ⟨ok', hok, hv⟩ := hgrow _ hview
  obtain rfl : ok' = ok := (Option.some_inj.mp hok).symm
  have hum := congrFun hv i
  rw [update_self, hview', Option.some_inj] at hum
  refine ⟨_, _, sp', hcall, hspace, ?_⟩
  · cases ok' with
    | false =>
      obtain ⟨-, hsame, hmap⟩ := hfail rfl
      have hrefs : (s.put i (some sp') m).userRefs = s.userRefs := by
        rw [Sys.userRefs_put_some, hmap.leafRefs_eq, ← Sys.userRefs_eq hi]
      refine Or.inl ⟨rfl, hsame, hmap, fun f hf => ?_⟩
      rw [hrefs, or_self] at hf
      rw [hinv.pgrc_user (hrefs ▸ hf), h.pgrc_user hf, hrefs]
    | true =>
      rw [if_pos rfl] at hum
      have hpages := congrArg UserMem.pages hum
      have hsize := congrArg UserMem.sz hum
      dsimp only at hpages hsize
      refine Or.inr ⟨rfl, ?_, fun x hx hx' => ?_, fun x b hx hb => ?_⟩
      · rw [hsize, UserMem.grow_sz _ hsz hn]
      · rw [Sys.byte_eq hspace, Sys.byte_eq hi]
        change (userView m.mem sp'.pt.leaf _).map _ = _
        rw [hpages, UserMem.grow_pages_of_lt ⟨_, sp.sz⟩ hx (hsize ▸ hx')]
      · rw [Sys.byte_eq hspace] at hb
        change (userView m.mem sp'.pt.leaf _).map _ = _ at hb
        rw [hpages] at hb
        obtain ⟨page, hpage, rfl⟩ := Option.map_eq_some_iff.mp hb
        rcases UserMem.grow_pages_cases _ hpage with hold | rfl
        · rw [Sys.byte_eq hi] at hx
          dsimp only at hold
          rw [hold] at hx
          cases hx
        · rfl

end Sbrk

theorem sbrk_exact_one : ∃ (t : Machine (Fin 2)) (sp : Space) (r : ℤ) (s' : Sys (Fin 2))
    (sp' : Space), booted [] = .ok t ∧ t.sys.spaces 0 = some sp ∧
    t.sys.sbrk smallLayout 0 1 = .ok (some r, s') ∧ SbrkDone t.sys 0 sp 1 r s' sp' := by
  obtain ⟨t, ht, sp, hsp, hsz⟩ : ∃ t, booted [] = .ok t ∧
      ∃ sp ∈ t.sys.spaces 0, 0 ≤ (sp.sz : ℤ) + (1 : BitVec 32).toInt :=
    Ensures.exists_ok (by decide +kernel)
  have hsound := sound_reachable (booted_reachable ht)
  obtain ⟨r, s', sp', hr, -, hdone⟩ := (sbrk_exact (n := 1) hsound.inv hsound.shaped hsp).mpr hsz
  exact ⟨t, sp, r, s', sp', ht, hsp, hr, hdone⟩

/-- **`sbrk` by more than there is**: the first process has 4096 bytes and gives back 4097; the sum
wraps around, `uvmdealloc` does nothing, and `sbrk` returns the old size as if it had worked. -/
theorem sbrk_wraps : ∃ (t : Machine (Fin 2)) (sp sp' : Space) (s' : Sys (Fin 2)),
    (procs smallLayout 0).Reachable t ∧ t.sys.spaces 0 = some sp ∧
    t.sys.sbrk smallLayout 0 (-4097) = .ok (some 4096, s') ∧ s'.spaces 0 = some sp' ∧
    sp.sz = 4096 ∧ sp'.sz = 4096 ∧ ¬ SbrkDone t.sys 0 sp (-4097) 4096 s' sp' := by
  obtain ⟨t, ht, sp, hsp, hrun⟩ : ∃ t, booted [] = .ok t ∧ ∃ sp ∈ t.sys.spaces 0,
      Ensures (t.sys.sbrk smallLayout 0 (-4097)) (fun _ => False) fun r => r.1 = some 4096 ∧
        sp.sz = 4096 ∧ ∃ sp' ∈ r.2.spaces 0, sp'.sz = 4096 :=
    Ensures.exists_ok (by decide +kernel)
  obtain ⟨⟨_, s'⟩, hc, rfl, h1, sp', hsp', h2⟩ := hrun.exists_ok
  refine ⟨t, sp, sp', s', booted_reachable ht, hsp, hc, hsp', h1, h2, ?_⟩
  rintro (⟨h, -⟩ | ⟨-, h, -⟩)
  · omega
  · rw [h1, h2] at h
    omega

end Xv6
