import Xv6.Mem.Exec

/-!
# Every address space has its shape

The processes of the kernel from `userinit` on: they fork, exec, grow and shrink, take faults, exit
and are waited for, in any order, and the kernel allocates and frees pages of its own meanwhile.
Parents are left out, so that any process may wait for any other that has exited; a process that
faults for good is as one that has exited; and the first process may exit, where the source stops.

The source ignores the result of `mappages` in `uvmfirst`; the runs start from a `userinit` in
which it succeeded.
-/

namespace Xv6

open Function Option Sys Machine

/-- `initcode`: the program of the first process. -/
def initcode : List UInt8 :=
  [0x17, 0x05, 0x00, 0x00, 0x13, 0x05, 0x45, 0x02,
   0x97, 0x05, 0x00, 0x00, 0x93, 0x85, 0x35, 0x02,
   0x93, 0x08, 0x70, 0x00, 0x73, 0x00, 0x00, 0x00,
   0x93, 0x08, 0x20, 0x00, 0x73, 0x00, 0x00, 0x00,
   0xef, 0xf0, 0x9f, 0xff, 0x2f, 0x69, 0x6e, 0x69,
   0x74, 0x00, 0x00, 0x24, 0x00, 0x00, 0x00, 0x00,
   0x00, 0x00, 0x00, 0x00]

/-- `uvmfirst`: map the bytes `src` at address 0. The result is that of `mappages`, which the
source drops. -/
def uvmfirst (pt : PageTable) (src : List UInt8) (m : Phys) :
    Except Panic (Bool × PageTable × Phys) :=
  if pgSize ≤ src.length then .error .uvmfirst
  else do
    let (mem, m) ← kalloc m
    match mem with
    -- `memset` writes to address 0
    | none => .error .kerneltrap
    | some f =>
      let m := m.memset f 0
      let (r, pt, m) ← mappages pt 0 pgSize (f * pgSize) (pteW ||| pteR ||| pteX ||| pteU) m
      return (r, pt, m.memmove f 0 src.length fun i => src.getD i 0)

namespace Machine

variable {ι : Type} [DecidableEq ι] (L : Layout)

/-- `userinit`: the first process, in the slot `i`. -/
def userinit (i : ι) (sys : Sys ι) : Except Panic (Bool × Machine ι) := do
  let (frames, sys) ← allocproc L i sys
  match frames with
  -- `p->pagetable` reads from address 0
  | none => .error .kerneltrap
  | some p =>
    let (ok, sys) ← sys.onSpace i fun sp m => do
      let (r, pt, m) ← uvmfirst sp.pt initcode m
      return (r, ⟨pt, pgSize⟩, m)
    return (ok = some true, ⟨sys, update (fun _ => none) i (some p), fun _ => false⟩)

/-- `exec` by a process that runs. -/
def exec (i : ι) (p : Program) (argv : List (List UInt8)) (t : Machine ι) :
    Except Panic (Machine ι) :=
  if t.idle i then .ok t
  else
    match t.frames i with
    | none => .ok t
    | some (tf, _) => do
      let (_, sys) ← t.sys.exec L i tf p argv
      return { t with sys }

/-- `exit`: the process runs no more, and keeps its memory. -/
def exit (i : ι) (t : Machine ι) : Machine ι :=
  if t.idle i then t else { t with killed := update t.killed i true }

/-- The status goes to the address `addr` of the process `j`, unless that is 0. -/
def storeStatus (j : ι) (addr : ℕ) (xstate : ℕ → UInt8) (sys : Sys ι) :
    Except Panic (Option Bool × Sys ι) :=
  if addr = 0 then .ok (some true, sys) else sys.copyout L j addr xstate 4

/-- `wait`, by the process `j`, which finds that the process `i` has exited with the status whose
bytes are `xstate`. If the status cannot be stored the process `i` stays as it is. -/
def wait (j i : ι) (addr : ℕ) (xstate : ℕ → UInt8) (t : Machine ι) : Except Panic (Machine ι) :=
  if t.idle j ∨ t.killed i = false then .ok t
  else
    match t.frames i with
    | none => .ok t
    | some (tf, tc) => do
      let (ok, sys) ← storeStatus L j addr xstate t.sys
      if ok = some true then
        let sys ← freeproc L i tf tc sys
        return ⟨sys, update t.frames i none, update t.killed i false⟩
      else return { t with sys }

/-- The kernel frees a page that it holds for itself, not one of a process. -/
def kfree [Fintype ι] (f : ℕ) (t : Machine ι) : Except Panic (Machine ι) :=
  if ∑ i, frameRefs (t.frames i) f = 0 then do
    let sys ← t.sys.kfree L f
    return { t with sys }
  else .ok t

end Machine

/-- What processes do, and the kernel for them. -/
inductive Call (ι : Type)
  | act (e : Event ι)
  | exec (i : ι) (p : Program) (argv : List (List UInt8))
  | exit (i : ι)
  | wait (j i : ι) (addr : ℕ) (xstate : ℕ → UInt8)
  | copyout (i : ι) (dstva : ℕ) (src : ℕ → UInt8) (len : ℕ)
  | kalloc
  | kfree (f : ℕ)

section System

variable {ι : Type} [Fintype ι] [DecidableEq ι] (L : Layout)

def Call.run : Call ι → Machine ι → Except Panic (Machine ι)
  | act e, t => do return (← t.step L e).2
  | exec i p argv, t => t.exec L i p argv
  | exit i, t => .ok (t.exit i)
  | wait j i addr xstate, t => t.wait L j i addr xstate
  | copyout i dstva src len, t => do return { t with sys := (← t.sys.copyout L i dstva src len).2 }
  | kalloc, t => do return { t with sys := (← t.sys.kalloc).2 }
  | kfree f, t => t.kfree L f

/-- The processes: they start with what `userinit` leaves in the slot `i`, after the kernel has
set up its own memory, and take any calls in any order. -/
def procs (i : ι) : LTS (Machine ι) (Call ι) where
  init t := ∃ boot, (memory L).Reachable boot ∧ (∀ k, boot.spaces k = none) ∧
    Machine.userinit L i boot = .ok (true, t)
  step t c t' := c.run L t = .ok t'

end System

/-! ## The invariant -/

section Invariant

variable {ι : Type} [Fintype ι] [DecidableEq ι] {L : Layout} {t : Machine ι} {i j : ι}
  {E : Panic → Prop}

/-- **The invariant**: the counts are exact, every space has its shape, and the kernel holds the
trapframe pages of every process. -/
structure Machine.Sound (L : Layout) (t : Machine ι) : Prop where
  inv : Inv L t.sys
  shaped : t.sys.Shaped
  owns : t.Owns

theorem uvmfirst_spec {kend : ℕ} {K U : ℕ → ℕ} {pt : PageTable} {m : Phys} {src : List UInt8}
    (hE : E .kerneltrap) (hsrc : src.length < pgSize) (hs : pt.Shaped 0)
    (h : SpaceOk kend K U pt m) :
    Ensures (uvmfirst pt src m) E fun r => r.1 = true →
      SpaceStep kend K U pt m r.2.1 r.2.2 ∧ r.2.1.Shaped 1 := by
  rw [uvmfirst, if_neg (by omega)]
  refine h.acct.kalloc_spec.bind ?_
  rintro ⟨page, m1⟩ (⟨hr, -⟩ | ⟨g, rfl, hK, hU, -, hA, hmem1⟩)
  · cases hr
    exact hE
  have hA' : Acct kend (m1.memset g 0) (K + pt.tables) (U + leafRefs pt.leaf + ref g) :=
    hA.congr rfl rfl
  have hpos : 0 < userPages := by decide
  have hfree : (pt.leaf 0).has pteV = false := hs.unused 0 le_rfl hpos
  refine (mappages_spec (v := 0) (Or.inl ⟨by decide, hfree⟩) hA').bind ?_
  rintro ⟨r, pt2, m2⟩ ⟨hA2, hmem2, hlow2, hleaf2⟩ hr
  obtain rfl : r = true := hr
  obtain ⟨-, hleaf2⟩ : (pt.leaf 0).has pteV = false ∧ _ := hleaf2
  have hperm : IsFlags (pteW ||| pteR ||| pteX ||| pteU) :=
    ((isFlags_pteW.or isFlags_pteR).or isFlags_pteX).or isFlags_pteU
  have hfr := frame_mapEntry (hA.frame_lt (f := g) (by simp)) hperm
  have hbit : ∀ i < 10, (pa2pte (g * pgSize) ||| (pteW ||| pteR ||| pteX ||| pteU) |||
      pteV).getLsbD i = (decide (2 = i) || decide (1 = i) || decide (3 = i) || decide (4 = i) ||
        decide (0 = i)) := by
    intro i hi
    rw [getLsbD_mapEntry _ _ hi, BitVec.getLsbD_or, BitVec.getLsbD_or, BitVec.getLsbD_or,
      getLsbD_pteW, getLsbD_pteR, getLsbD_pteX, getLsbD_pteU]
  have hV : (pa2pte (g * pgSize) ||| (pteW ||| pteR ||| pteX ||| pteU) ||| pteV).has pteV =
      true := by
    rw [has_pteV, hbit 0 (by omega)]
    rfl
  have hR : (pa2pte (g * pgSize) ||| (pteW ||| pteR ||| pteX ||| pteU) ||| pteV).has pteR =
      true := by
    rw [has_pteR, hbit 1 (by omega)]
    rfl
  have hC : (pa2pte (g * pgSize) ||| (pteW ||| pteR ||| pteX ||| pteU) ||| pteV).has pteC =
      false := by
    rw [has_pteC, hbit 5 (by omega)]
    rfl
  -- the bytes go into the new page, which is none of those in use
  have hA3 : Acct kend (m2.memmove g 0 src.length fun i => src.getD i 0) (K + pt2.tables)
      (U + leafRefs pt.leaf + ref g) := hA2.congr rfl rfl
  have hkeep : ∀ f, K f + (U + leafRefs pt.leaf) f ≠ 0 →
      (m2.memmove g 0 src.length fun i => src.getD i 0).mem f = m.mem f := by
    intro f hf
    have hne : f ≠ g := by
      rintro rfl
      simp only [Pi.add_apply] at hf hK hU
      omega
    rw [Phys.memmove]
    dsimp only
    rw [update_of_ne hne, hmem2 f (by simp only [Pi.add_apply] at hf ⊢; omega),
      Phys.memset_mem, hmem1, update_of_ne hne, update_of_ne hne]
  exact ⟨(h.map_fresh hpos hU hfree hV hfr (fun _ => hC) hleaf2 hA3 hkeep).1,
    hs.map hpos ⟨hV, hR⟩ (by rw [hfr]; exact (Nat.add_eq_zero_iff.mp hU).2) hleaf2 hlow2⟩

theorem Machine.userinit_spec {s : Sys ι} (hE : E .kerneltrap) (hs : ∀ k, s.spaces k = none)
    (h : Inv L s) :
    Ensures (Machine.userinit L i s) E fun r => r.1 = true → r.2.Sound L := by
  have hshaped : s.Shaped := fun k sp hk => by
    rw [hs k] at hk
    cases hk
  have hnone : s.view i = none := by
    rw [Sys.view, hs i]
    rfl
  rw [userinit]
  refine (allocproc_spec (Or.inl hshaped) h hnone).bind ?_
  rintro ⟨_ | ⟨tf, tc⟩, s1⟩ ⟨h1, hshape1, hk1, hv1⟩
  · exact hE
  replace hv1 : s1.view = update s.view i (some UserMem.empty) := hv1
  replace hk1 : s1.kheld = tc :: tf :: s.kheld := hk1
  have hempty : s1.view i = some UserMem.empty := by rw [hv1, update_self]
  obtain ⟨sp, hsp, -⟩ := map_eq_some_iff.mp hempty
  have hsz := sz_of_view_empty hempty hsp
  have hshaped1 := hshape1 hshaped i sp hsp
  have hzero : sp.pt.Shaped 0 := by
    rw [← npages_zero, ← hsz]
    exact hshaped1.user
  dsimp only
  rw [onSpace, hsp]
  dsimp only
  refine Ensures.bind (P := fun r => r.1 = some true → ∃ pt m,
    SpaceStep L.kend (s1.without i).kernelRefs (s1.without i).userRefs sp.pt s1.phys pt m ∧
      pt.Shaped 1 ∧ r.2 = s1.put i (some ⟨pt, pgSize⟩) m) ?_ ?_
  · refine Ensures.bind (P := fun r => r.1 = true → ∃ pt m,
      SpaceStep L.kend (s1.without i).kernelRefs (s1.without i).userRefs sp.pt s1.phys pt m ∧
        pt.Shaped 1 ∧ r.2 = (⟨pt, pgSize⟩, m)) ?_ ?_
    · refine (uvmfirst_spec hE (by decide) hzero (h1.spaceOk hsp)).bind ?_
      rintro ⟨r, pt, m⟩ hr hrt
      exact ⟨pt, m, (hr hrt).1, (hr hrt).2, rfl⟩
    · rintro ⟨r, sp', m'⟩ hr hrt
      obtain ⟨pt, m, hst, hpt, he⟩ := hr (by simpa using hrt)
      cases he
      exact ⟨_, _, hst, hpt, rfl⟩
  · rintro ⟨ok, s2⟩ hr hok
    obtain ⟨pt, m, hst, hpt, he⟩ := hr (by simpa using hok)
    dsimp only at he
    subst he
    have hview := Inv.view_put hst.keep (some ⟨pt, pgSize⟩)
    have hone : npages pgSize = 1 := npages_mul 1
    refine ⟨h1.move hsp hst.toSpaceMove (by decide),
      (hshape1 hshaped).put ⟨hone.symm ▸ hpt, hshaped1.top.congr hst.upper⟩ m, ?_⟩
    have howns : Machine.Owns ⟨s, fun _ => none, fun _ => false⟩ :=
      ⟨fun k => by rw [hs k]; rfl, fun f => by simp [frameRefs]⟩
    rw [hv1, update_idem, map_some] at hview
    have hk2 : (s1.put i (some ⟨pt, pgSize⟩) m).kheld = tc :: tf :: s.kheld := hk1
    exact howns.add hnone hk2 hview _

omit [DecidableEq ι] in
theorem Machine.Sound.keep (h : t.Sound L) {sys : Sys ι} (hinv : Inv L sys) (hs : sys.Shaped)
    (hk : t.sys.Kept sys) (killed : ι → Bool) : Machine.Sound L ⟨sys, t.frames, killed⟩ :=
  ⟨hinv, hs, h.owns.keep hk killed⟩

theorem Machine.exec_spec {p : Program} {argv : List (List UInt8)} (h : t.Sound L) :
    Ensures (t.exec L i p argv) E fun t' => t'.Sound L := by
  rw [Machine.exec]
  split_ifs
  · exact h
  · split
    · exact h
    · refine (Sys.exec_spec h.shaped h.inv).bind ?_
      rintro ⟨r, sys⟩ ⟨hinv, hs, hk⟩
      exact h.keep hinv hs hk _

omit [Fintype ι] in
theorem Machine.exit_eq (t : Machine ι) (i : ι) : ∃ killed, t.exit i = { t with killed } := by
  rw [Machine.exit]
  split_ifs
  · exact ⟨t.killed, rfl⟩
  · exact ⟨_, rfl⟩

theorem Machine.storeStatus_spec {addr : ℕ} {xstate : ℕ → UInt8} (hE : E .kerneltrap)
    (h : t.Sound L) :
    Ensures (Machine.storeStatus L j addr xstate t.sys) E fun r =>
      Machine.Sound L { t with sys := r.2 } := by
  rw [storeStatus]
  split_ifs
  · exact h
  · refine (copyout_spec h.inv hE).mono ?_
    rintro ⟨r, sys⟩ ⟨hinv, hs, hk⟩
    exact h.keep hinv (hs h.shaped) hk _

theorem Machine.wait_spec {addr : ℕ} {xstate : ℕ → UInt8} (hE : E .kerneltrap) (h : t.Sound L) :
    Ensures (t.wait L j i addr xstate) E fun t' => t'.Sound L := by
  rw [Machine.wait]
  split_ifs with hidle
  · exact h
  split
  · exact h
  rename_i tf tc hi
  refine (storeStatus_spec hE h).bind ?_
  rintro ⟨ok, s1⟩ h1
  dsimp only at h1 ⊢
  split_ifs
  · refine (freeproc_spec (Or.inl h1.shaped) h1.inv).bind ?_
    rintro s2 ⟨hinv2, hs2, hk2, hsp2, -⟩
    exact ⟨hinv2, hs2 h1.shaped, h1.owns.remove hi hk2 hsp2 _⟩
  · exact h1

omit [DecidableEq ι] in
theorem Machine.kfree_spec {f : ℕ} (h : t.Sound L) :
    Ensures (t.kfree L f) E fun t' => t'.Sound L := by
  rw [Machine.kfree]
  split_ifs with hf
  · refine (Sys.kfree_spec h.inv).bind ?_
    rintro s ⟨hinv, -, hsp, hk⟩
    refine ⟨hinv, h.shaped.congr hsp, ⟨fun k => ?_, fun g => ?_⟩⟩
    · dsimp only
      rw [hsp]
      exact h.owns.slots k
    · -- the freed page is no trapframe page, and the others are held as before
      have hle := count_le_erase t.sys.kheld f g
      have hold := h.owns.held g
      dsimp only
      rw [hk]
      by_cases hg : g = f
      · subst hg
        rw [hf]
        exact Nat.zero_le _
      · rw [ref_of_ne hg] at hle
        omega
  · exact h

/-- **One call** keeps the invariant, and the only panic is a fault of the kernel itself, when it
copies to a process and finds no page. -/
theorem Call.run_spec (c : Call ι) (hE : E .kerneltrap) (h : t.Sound L) :
    Ensures (c.run L t) E fun t' => t'.Sound L := by
  cases c with
  | act e =>
    refine (step_spec e (Or.inl h.shaped) h.inv).bind ?_
    rintro ⟨o, t'⟩ ⟨hinv, hs, ho, -⟩
    exact ⟨hinv, hs h.shaped, ho h.owns⟩
  | exec i p argv => exact Machine.exec_spec h
  | exit i =>
    obtain ⟨killed, he⟩ := t.exit_eq i
    rw [Call.run, he]
    exact h.keep h.inv h.shaped (.refl _) killed
  | wait j i addr xstate => exact wait_spec hE h
  | copyout i dstva src len =>
    refine (copyout_spec h.inv hE).bind ?_
    rintro ⟨r, sys⟩ ⟨hinv, hs, hk⟩
    exact h.keep hinv (hs h.shaped) hk _
  | kalloc =>
    refine (Sys.kalloc_spec h.inv).bind ?_
    rintro ⟨r, sys⟩ ⟨hinv, -, hsp, hk⟩
    refine ⟨hinv, h.shaped.congr hsp, ⟨fun k => ?_, fun g => ?_⟩⟩
    · dsimp only at hsp ⊢
      rw [hsp]
      exact h.owns.slots k
    · dsimp only at hk ⊢
      rw [hk, List.count_append]
      exact (h.owns.held g).trans (Nat.le_add_left _ _)
  | kfree f => exact Machine.kfree_spec h

/-- **The invariant holds in every run.** -/
theorem sound_reachable (ht : (procs L i).Reachable t) : t.Sound L := by
  refine ht.invariant (fun t h => ?_) fun t c t' h hstep => ?_
  · obtain ⟨boot, hboot, hnone, hinit⟩ := h
    exact (userinit_spec (E := fun _ => True) trivial hnone (inv_reachable hboot)).of_ok
      hinit rfl
  · exact (c.run_spec (E := fun _ => True) trivial h).of_ok hstep

/-! ## What the invariant says -/

theorem Space.Shaped.valid_iff {sp : Space} (h : sp.Shaped) (hsz : sp.sz ≤ trapframeVa) {va : ℕ}
    (hva : va < 2 * maxVa) : (sp.pt.pte va).has pteV = true ↔
      va < pgRoundUp sp.sz ∨ trapframeVa ≤ va ∧ va < maxVa := by
  have hn := npages_le hsz
  rw [pgRoundUp_eq hsz]
  rcases lt_or_ge va maxVa with hlt | hge
  · -- below `MAXVA` by page: of the user, unused, trapframe or trampoline
    rw [← PageTable.leaf_page sp.pt hlt]
    rcases lt_or_ge (va / pgSize) (npages sp.sz) with hu | hu
    · exact iff_of_true (h.user.user _ hu).1 (Or.inl ((Nat.div_lt_iff_lt_mul (by decide)).mp hu))
    rcases lt_or_ge (va / pgSize) userPages with hv | hv
    · refine iff_of_false (by rw [h.user.unused _ hu hv]; decide) ?_
      simp only [userPages, trapframeVa, trampolineVa, maxVa, pgSize] at hu hv ⊢
      omega
    have htop : (sp.pt.leaf (va / pgSize)).has pteV = true := by
      obtain he | he : va / pgSize = userPages ∨ va / pgSize = userPages + 1 := by
        simp only [userPages, trapframeVa, trampolineVa, maxVa, pgSize] at hlt hv ⊢
        omega
      · rw [he]
        exact h.top.trapframe.1
      · rw [he]
        exact h.top.trampoline.1
    refine iff_of_true htop (Or.inr ⟨?_, hlt⟩)
    simp only [userPages, trapframeVa, trampolineVa, maxVa, pgSize] at hv ⊢
    omega
  · rw [h.user.low.pte_eq_zero hge hva, has_zero]
    refine iff_of_false (by decide) ?_
    simp only [userPages, trapframeVa, trampolineVa, maxVa, pgSize] at hn hge ⊢
    omega

/-- Whether the page `f` is a page-table page of the space, and of no other space, and is neither
a page of a user nor held by the kernel for another purpose. -/
def Sys.OwnTable (s : Sys ι) (i : ι) (sp : Space) (f : ℕ) : Prop :=
  sp.pt.tables f = 1 ∧ (∀ j spj, j ≠ i → s.spaces j = some spj → spj.pt.tables f = 0) ∧
    s.userRefs f = 0 ∧ f ∉ s.kheld

/-- The pages of the process `i`: page-table pages, user pages, and the two of the trapframe. -/
def Machine.Page (t : Machine ι) (i : ι) (f : ℕ) : Prop :=
  (∃ sp, t.sys.spaces i = some sp ∧ (sp.pt.tables f ≠ 0 ∨ leafRefs sp.pt.leaf f ≠ 0)) ∨
    ∃ p, t.frames i = some p ∧ (f = p.1 ∨ f = p.2)

theorem Inv.ownTable {s : Sys ι} (h : Inv L s) {sp : Space} (hi : s.spaces i = some sp) {f : ℕ}
    (hf : sp.pt.tables f ≠ 0) : s.OwnTable i sp f := by
  have hle := h.acct.kernel_le f
  rw [kernelRefs_eq hi, Pi.add_apply] at hle
  refine ⟨by omega, fun j spj hij hj => ?_, ?_, fun hmem => ?_⟩
  · have := tables_le_kernelRefs ((without_spaces_of_ne s hij).trans hj) f
    omega
  · by_contra hU
    have hK := h.acct.sep f hU
    rw [kernelRefs_eq hi, Pi.add_apply] at hK
    omega
  · have hcount := List.count_pos_iff.mpr hmem
    have hrest : s.kheld.count f ≤ (s.without i).kernelRefs f := Nat.le_add_right _ _
    omega

theorem Sys.userRefs_without {s : Sys ι} {f : ℕ}
    (h : ∀ j spj, j ≠ i → s.spaces j = some spj → leafRefs spj.pt.leaf f = 0) :
    (s.without i).userRefs f = 0 := by
  rw [userRefs, Sys.total, Finset.sum_apply]
  refine Finset.sum_eq_zero fun j _ => ?_
  by_cases hij : j = i
  · rw [hij, without_spaces_self, elim_none, Pi.zero_apply]
  · rw [without_spaces_of_ne s hij]
    cases hj : s.spaces j with
    | none => rw [elim_none, Pi.zero_apply]
    | some spj =>
      rw [elim_some]
      exact h j spj hij hj

/-- **Freeing a process** does not panic, and returns every page that no other process maps. -/
theorem Machine.Sound.freeproc (h : t.Sound L) {tf tc : ℕ} (hi : t.frames i = some (tf, tc)) :
    ∃ sys, Machine.freeproc L i tf tc t.sys = .ok sys ∧
      ∀ f, t.Page i f → (∀ j spj, j ≠ i → t.sys.spaces j = some spj → leafRefs spj.pt.leaf f = 0) →
        f ∈ sys.phys.freelist := by
  obtain ⟨sp, hsp⟩ : ∃ sp, t.sys.spaces i = some sp := by
    refine isSome_iff_exists.mp ?_
    rw [← h.owns.slots i, hi]
    rfl
  obtain ⟨sys, hrun, hinv, -, hk, hs, -⟩ :=
    (freeproc_spec (Or.inl h.shaped) h.inv).exists_ok
  refine ⟨sys, hrun, fun f hf hother => ?_⟩
  have hle := h.inv.acct.kernel_le f
  have hsep := h.inv.acct.sep f
  have hheld := (Counting.le_sum_of_mem (fun k => frameRefs (t.frames k) f) i).trans (h.owns.held f)
  -- all references before and after
  have hrefs : t.sys.kernelRefs f = t.sys.kheld.count f +
      Sys.total (fun sp => sp.pt.tables) (update t.sys.spaces i none) f +
      sp.pt.tables f := by
    rw [kernelRefs_eq hsp]
    rfl
  have hrefs' : sys.kernelRefs f = ((t.sys.kheld.erase tf).erase tc).count f +
      Sys.total (fun sp => sp.pt.tables) (update t.sys.spaces i none) f := by
    rw [kernelRefs, hk, hs]
    rfl
  have husers : sys.userRefs f = 0 := by
    rw [userRefs, hs]
    exact userRefs_without hother
  have herase : ((t.sys.kheld.erase tf).erase tc).count f ≤ t.sys.kheld.count f :=
    (List.erase_sublist.trans List.erase_sublist).count_le f
  have hleaf := leafRefs_le_userRefs hsp f
  -- the page had an owner, and has none any more
  have hgone : t.sys.kernelRefs f + t.sys.userRefs f ≠ 0 ∧ sys.kernelRefs f = 0 := by
    obtain ⟨sp', hsp', hf⟩ | ⟨p, hp, hf⟩ := hf
    · obtain rfl : sp = sp' := some_inj.mp (hsp.symm.trans hsp')
      omega
    · obtain rfl : p = (tf, tc) := some_inj.mp (hp.symm.trans hi)
      rw [hi, frameRefs, elim_some, Pi.add_apply] at hheld
      have hone : ((t.sys.kheld.erase tf).erase tc).count f ≤ t.sys.kheld.count f - 1 := by
        rcases hf with rfl | rfl
        · rw [← List.count_erase_self]
          exact List.erase_sublist.count_le _
        · rw [List.count_erase_self]
          exact Nat.sub_le_sub_right (List.erase_sublist.count_le _) 1
      have hpos : 0 < t.sys.kheld.count f := by
        rcases hf with rfl | rfl
        · rw [ref_self] at hheld
          omega
        · rw [ref_self] at hheld
          omega
      omega
  refine (hinv.acct.counted.mem_freelist f).mpr ⟨h.inv.acct.counted.ram f hgone.1, ?_⟩
  rw [Pi.add_apply, hgone.2, husers]

end Invariant

/-- **The shape of every address space.** In every run from `userinit` on, the valid leaves of a
process are those of the pages below its size, rounded up, and the two pages at the top; its
page-table pages are its own; freeing it succeeds and returns every page that no other process maps.
No call panics, except that copying to a process may find no free page for a shared one. -/
theorem space_shape {ι : Type} [Fintype ι] [DecidableEq ι] {L : Layout} {first : ι} {t : Machine ι}
    (ht : (procs L first).Reachable t) :
    (∀ i sp, t.sys.spaces i = some sp →
      (∀ va < 2 * maxVa, (sp.pt.pte va).has pteV = true ↔
        va < pgRoundUp sp.sz ∨ trapframeVa ≤ va ∧ va < maxVa) ∧
      (∀ f, sp.pt.tables f ≠ 0 → t.sys.OwnTable i sp f) ∧
      ∃ tf tc sys, t.frames i = some (tf, tc) ∧ Machine.freeproc L i tf tc t.sys = .ok sys ∧
        ∀ f, t.Page i f →
          (∀ j spj, j ≠ i → t.sys.spaces j = some spj → leafRefs spj.pt.leaf f = 0) →
          f ∈ sys.phys.freelist) ∧
    ∀ (c : Call ι) p, c.run L t = .error p → p = .kerneltrap := by
  have h := sound_reachable ht
  refine ⟨fun i sp hi => ⟨fun va hva => ?_, fun f hf => h.inv.ownTable hi hf, ?_⟩, fun c p hp => ?_⟩
  · exact (h.shaped i sp hi).valid_iff (h.inv.spaces i sp hi).sz_le hva
  · obtain ⟨⟨tf, tc⟩, hfr⟩ : ∃ p, t.frames i = some p := by
      refine isSome_iff_exists.mp ?_
      rw [h.owns.slots i, hi]
      rfl
    obtain ⟨sys, hrun, hfree⟩ := h.freeproc hfr
    exact ⟨tf, tc, sys, hfr, hrun, hfree⟩
  · exact (c.run_spec (E := (· = .kerneltrap)) rfl h).of_error hp

section Demo

def firstProcess : Except Panic (Bool × Machine (Fin 2)) := do
  let m ← kinit smallLayout.kend fun _ _ => 0
  Machine.userinit smallLayout 0 ⟨m, [], fun _ => none⟩

def Call.runAll {ι : Type} [Fintype ι] [DecidableEq ι] (L : Layout) :
    List (Call ι) → Machine ι → Except Panic (Machine ι)
  | [], t => .ok t
  | c :: calls, t => do runAll L calls (← c.run L t)

theorem reachable_callRunAll {ι : Type} [Fintype ι] [DecidableEq ι] {L : Layout} {first : ι}
    {calls : List (Call ι)} {t t' : Machine ι} (ht : (procs L first).Reachable t)
    (h : Call.runAll L calls t = .ok t') : (procs L first).Reachable t' := by
  induction calls generalizing t with
  | nil =>
    cases h
    exact ht
  | cons c calls ih =>
    obtain ⟨t1, h1, h⟩ := Except.bind_eq_ok_iff.mp h
    exact ih (ht.step h1) h

/-- The first process on the small machine, and then some calls. -/
def booted (calls : List (Call (Fin 2))) : Except Panic (Machine (Fin 2)) := do
  match ← firstProcess with
  | (true, t) => Call.runAll smallLayout calls t
  | (false, _) => .error .uvmfirst

theorem booted_reachable {calls : List (Call (Fin 2))} {t : Machine (Fin 2)}
    (h : booted calls = .ok t) : (procs smallLayout 0).Reachable t := by
  obtain ⟨⟨ok, t0⟩, h0, h⟩ := Except.bind_eq_ok_iff.mp h
  cases ok with
  | false => cases h
  | true =>
    obtain ⟨m, hm, hinit⟩ := Except.bind_eq_ok_iff.mp h0
    exact reachable_callRunAll (.init ⟨_, .init ⟨_, m, hm, rfl⟩, fun _ => rfl, hinit⟩) h

def smallProgram : Program :=
  ⟨true, [some ⟨1, 5, 4096, 0, 100, 200⟩], fun _ n => (n, fun _ => 0x13), fun _ _ => le_rfl⟩

/-- The first process runs a program, and then forks, for which there is not enough memory: it has
three pages afterwards, and no fourth. -/
theorem space_shape_execFork : ∃ (t : Machine (Fin 2)) (sp : Space),
    (procs smallLayout 0).Reachable t ∧ t.sys.spaces 0 = some sp ∧ t.sys.spaces 1 = none ∧
    (sp.pt.pte (2 * pgSize)).has pteV = true ∧ (sp.pt.pte (3 * pgSize)).has pteV = false := by
  obtain ⟨⟨_, t⟩, ht, rfl, hrun⟩ : ∃ r, firstProcess = .ok r ∧ r.1 = true ∧
      Ensures ((Call.exec 0 smallProgram [[0x69]]).run smallLayout r.2) (fun _ => False) fun t1 =>
        Ensures ((Call.act (.fork 0 1)).run smallLayout t1) (fun _ => False) fun t2 =>
          (t2.sys.spaces 1).isNone ∧ (t2.sys.spaces 0).map Space.sz = some (3 * pgSize) :=
    Ensures.exists_ok (by decide +kernel)
  obtain ⟨t1, h1, hrun⟩ := hrun.exists_ok
  obtain ⟨t2, h2, hnone, hsome⟩ := hrun.exists_ok
  have hinit : (procs smallLayout 0).init t := by
    obtain ⟨m, hm, h⟩ := Except.bind_eq_ok_iff.mp ht
    exact ⟨_, .init ⟨_, m, hm, rfl⟩, fun _ => rfl, h⟩
  have hreach : (procs smallLayout 0).Reachable t2 := ((LTS.Reachable.init hinit).step h1).step h2
  obtain ⟨sp, hsp, hsz⟩ := map_eq_some_iff.mp hsome
  have hshape := ((space_shape hreach).1 0 sp hsp).1
  rw [hsz] at hshape
  refine ⟨t2, sp, hreach, hsp, isNone_iff_eq_none.mp hnone, ?_, ?_⟩
  · exact (hshape _ (by decide)).mpr (by decide)
  · exact Bool.eq_false_iff.mpr fun hV => absurd ((hshape _ (by decide)).mp hV) (by decide)

end Demo

end Xv6
