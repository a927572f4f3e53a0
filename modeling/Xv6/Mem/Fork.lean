import Xv6.Mem.System

/-!
# Copy-on-write fork against an eager copy

Two systems run the same events: forks, user loads and stores, `sbrk`, and exits followed by the
parent's `wait`. In the first a fork shares the pages copy on write; the hardware checks every load
and store, and a fault goes to `usertrap`, after which the access is tried again. In the second, the
reference, a fork copies every page at once; it has no page tables, frames or faults, and is told
how each event of the first ended: a fork or an `sbrk` may fail and a process may be killed for want
of memory.
-/

namespace Xv6

open Function Option Sys

inductive Event (ι : Type)
  /-- The process `i` forks, and the new process gets the slot `j`. -/
  | fork (i j : ι)
  | load (i : ι) (sp va : ℕ)
  | store (i : ι) (sp va : ℕ) (b : UInt8)
  | sbrk (i : ι) (n : ℤ)
  /-- The process `i` exits, and its parent waits for it. -/
  | exitWait (i : ι)

/-- How an event ends: done, not done and with nothing changed, or with the process killed. -/
inductive Outcome
  | done
  | failed
  | killed
  deriving DecidableEq

/-! ## Copy-on-write memory -/

/-- Processes on copy-on-write memory: the memory, the trapframe pages of each process (the
trapframe and its copy), and who has been killed. -/
structure Machine (ι : Type) where
  sys : Sys ι
  frames : ι → Option (ℕ × ℕ)
  killed : ι → Bool

def hwLoad (pt : PageTable) (m : Phys) (va : ℕ) : Option UInt8 :=
  let p := pt.leaf (va / pgSize)
  if p.has pteV ∧ p.has pteU ∧ p.has pteR then
    some (m.mem p.frame ⟨va % pgSize, mod_pgSize_lt va⟩)
  else none

def hwStore (pt : PageTable) (m : Phys) (va : ℕ) (b : UInt8) : Option Phys :=
  let p := pt.leaf (va / pgSize)
  if p.has pteV ∧ p.has pteU ∧ p.has pteW then
    some (m.memmove p.frame (va % pgSize) 1 fun _ => b)
  else none

namespace Sys

variable {ι : Type} [DecidableEq ι]

/-- A load by the process `i`; `none` is a fault. -/
def load (s : Sys ι) (i : ι) (va : ℕ) : Option UInt8 :=
  (s.spaces i).bind fun sp => hwLoad sp.pt s.phys va

/-- A store by the process `i`; `none` is a fault. -/
def store (s : Sys ι) (i : ι) (va : ℕ) (b : UInt8) : Option (Sys ι) :=
  (s.spaces i).bind fun sp => (hwStore sp.pt s.phys va b).map fun m => s.put i (some sp) m

end Sys

namespace Machine

variable {ι : Type} [DecidableEq ι] (L : Layout)

/-- The byte the process `i` reads at `va`. -/
def read (s : Machine ι) (i : ι) (va : ℕ) : Option UInt8 := s.sys.load i va

/-- The size of the process `i`. -/
def sz (s : Machine ι) (i : ι) : ℕ := ((s.sys.spaces i).map Space.sz).getD 0

/-- `freeproc`, for the memory of the slot `j`. -/
def freeproc (j : ι) (tf tc : ℕ) (sys : Sys ι) : Except Panic (Sys ι) := do
  let sys ← sys.kfree L tf
  let sys ← sys.kfree L tc
  sys.procFreepagetable L j

/-- `allocproc`, for the memory of the free slot `j`: the trapframe, its copy and an empty space,
or nothing at all. -/
def allocproc (j : ι) (sys : Sys ι) : Except Panic (Option (ℕ × ℕ) × Sys ι) := do
  let (tf, sys) ← sys.kalloc
  match tf with
  | none => return (none, sys)
  | some tf =>
    let (tc, sys) ← sys.kalloc
    match tc with
    | none =>
      let sys ← sys.kfree L tf
      return (none, sys)
    | some tc =>
      let (ok, sys) ← sys.procPagetable L j tf
      if ok then return (some (tf, tc), sys)
      else
        let sys ← freeproc L j tf tc sys
        return (none, sys)

/-- `fork` of the process `i` into the slot `j`. -/
def fork (i j : ι) (s : Machine ι) : Except Panic (Outcome × Machine ι) :=
  if (s.sys.spaces j).isSome then .ok (.failed, s)
  else do
    let (frames, sys) ← allocproc L j s.sys
    match frames with
    | none => return (.failed, { s with sys })
    | some (tf, tc) =>
      let (ok, sys) ← sys.uvmcopy L i j
      if ok then
        return (.done, ⟨sys, update s.frames j (some (tf, tc)), update s.killed j false⟩)
      else
        let sys ← freeproc L j tf tc sys
        return (.failed, { s with sys })

/-- A user access that faults: `usertrap`, and unless the process is killed, once more. -/
def fault (i : ι) (sp va : ℕ) (retry : Sys ι → Option (Sys ι)) (s : Machine ι) :
    Except Panic (Outcome × Machine ι) := do
  let (killed, sys) ← s.sys.usertrapFault L i sp va
  if killed = some false then
    match retry sys with
    | some sys => return (.done, { s with sys })
    | none => return (.failed, { s with sys })
  else return (.killed, { s with sys, killed := update s.killed i true })

/-- Whether the process `i` runs no user code: there is none, or it has been killed. -/
def idle (s : Machine ι) (i : ι) : Bool := s.killed i || (s.sys.spaces i).isNone

def step : Event ι → Machine ι → Except Panic (Outcome × Machine ι)
  | .fork i j, s => if s.idle i then .ok (.failed, s) else s.fork L i j
  | .load i sp va, s =>
    if s.idle i then .ok (.failed, s)
    else if (s.sys.load i va).isSome then .ok (.done, s)
    else s.fault L i sp va fun sys => (sys.load i va).map fun _ => sys
  | .store i sp va b, s =>
    if s.idle i then .ok (.failed, s)
    else
      match s.sys.store i va b with
      | some sys => .ok (.done, { s with sys })
      | none => s.fault L i sp va fun sys => sys.store i va b
  | .sbrk i n, s =>
    if s.idle i then .ok (.failed, s)
    else do
      let (ok, sys) ← s.sys.growproc L i n
      return (if ok = some true then .done else .failed, { s with sys })
  | .exitWait i, s =>
    match s.frames i with
    | none => .ok (.failed, s)
    | some (tf, tc) => do
      let sys ← freeproc L i tf tc s.sys
      return (.done, ⟨sys, update s.frames i none, update s.killed i false⟩)

end Machine

open Machine

/-! ## Private pages -/

namespace UserMem

/-- The byte a process reads at `va`. -/
def load (um : UserMem) (va : ℕ) : Option UInt8 :=
  (um.pages (va / pgSize)).bind fun page =>
    if page.u ∧ page.r then some (page.bytes ⟨va % pgSize, mod_pgSize_lt va⟩) else none

def store (um : UserMem) (va : ℕ) (b : UInt8) : Option UserMem :=
  match um.pages (va / pgSize) with
  | some page =>
    if page.u ∧ page.w then some { um with pages := writeView um.pages va 1 fun _ => b } else none
  | none => none

end UserMem

structure Eager (ι : Type) where
  procs : ι → Option UserMem
  killed : ι → Bool

namespace Eager

variable {ι : Type} [DecidableEq ι]

/-- The byte the process `i` reads at `va`. -/
def read (r : Eager ι) (i : ι) (va : ℕ) : Option UInt8 := (r.procs i).bind fun um => um.load va

/-- Whether the process `i` runs no user code. -/
def idle (r : Eager ι) (i : ι) : Bool := r.killed i || (r.procs i).isNone

/-- One event with a given end; `none` if it cannot end so. For want of memory a fork or an `sbrk`
may fail, and a process may be killed at any access; but an access that the page allows is never
left undone. -/
def step (r : Eager ι) : Event ι → Outcome → Option (Eager ι)
  | .fork _ _, .failed | .sbrk _ _, .failed | .exitWait _, .failed => some r
  | .load i _ va, .failed => if r.idle i ∨ (r.read i va).isNone then some r else none
  | .store i _ _ _, .failed => if r.idle i then some r else none
  | .fork i j, .done =>
    (r.procs i).map fun um =>
      ⟨update r.procs j (some um.fork), update r.killed j false⟩
  | .load i _ va, .done => (r.read i va).map fun _ => r
  | .store i _ va b, .done =>
    (r.procs i).bind fun um => (um.store va b).map fun um' =>
      { r with procs := update r.procs i (some um') }
  | .sbrk i n, .done =>
    (r.procs i).map fun um => { r with procs := update r.procs i (some (um.grow n)) }
  | .exitWait i, .done =>
    some ⟨update r.procs i none, update r.killed i false⟩
  | .load i _ _, .killed | .store i _ _ _, .killed =>
    some { r with killed := update r.killed i true }
  | .fork _ _, .killed | .sbrk _ _, .killed | .exitWait _, .killed => none

end Eager

variable {b : UInt8} {va : ℕ}

theorem Eager.read_of_store {ι : Type} [DecidableEq ι] {r r' : Eager ι} {i j : ι} {sp : ℕ}
    {o : Outcome} (h : r.step (.store i sp va b) o = some r') (hj : j ≠ i) (x : ℕ) :
    r'.read j x = r.read j x := by
  cases o with
  | done =>
    simp only [Eager.step, bind_eq_some_iff, map_eq_some_iff] at h
    obtain ⟨um, -, um', -, rfl⟩ := h
    simp only [Eager.read, update_of_ne hj]
  | failed =>
    simp only [Eager.step] at h
    split_ifs at h
    cases h
    rfl
  | killed =>
    simp only [Eager.step, some_inj] at h
    subst h
    rfl

section Systems

variable {ι : Type} [DecidableEq ι] (L : Layout)

/-- Copy-on-write memory, from any state the memory code can reach. -/
def cow : LTS (Machine ι) (Event ι × Outcome) where
  init s := (memory L).Reachable s.sys
  step s e s' := Machine.step L e.1 s = .ok (e.2, s')

def eager : LTS (Eager ι) (Event ι × Outcome) where
  init _ := True
  step r e r' := r.step e.1 e.2 = some r'

/-- The reference system in the same situation. -/
def Machine.eager (s : Machine ι) : Eager ι := ⟨s.sys.view, s.killed⟩

end Systems

/-! ## The simulation -/

section Simulation

variable {ι : Type} [Fintype ι] [DecidableEq ι] {L : Layout} {s : Sys ι} {i j : ι}
  {E : Panic → Prop} {tc tf : ℕ}

omit [DecidableEq ι] in
theorem Sys.load_eq (h : Inv L s) (i : ι) (va : ℕ) :
    s.load i va = (s.view i).bind fun um => um.load va := by
  rw [Sys.load, Sys.view]
  cases hi : s.spaces i with
  | none => rfl
  | some sp =>
    simp only [bind_some, map_some, hwLoad, UserMem.load]
    by_cases hv : va / pgSize < userPages
    · rw [userView_of_lt hv, Pte.view]
      by_cases hV : (sp.pt.leaf (va / pgSize)).has pteV = true
      · simp [hV]
      · simp [hV]
    · have hU := (h.spaces i sp hi).top.noUser (va / pgSize) (by omega)
      simp [hU, userView, hv]

omit [Fintype ι] [DecidableEq ι] in
theorem Sys.isSome_view (s : Sys ι) (i : ι) : (s.view i).isSome = (s.spaces i).isSome := isSome_map

theorem Sys.store_spec {s' : Sys ι} (h : Inv L s) (hst : s.store i va b = some s') :
    Inv L s' ∧ (s.Shaped → s'.Shaped) ∧ s.Kept s' ∧
      ∃ um um', s.view i = some um ∧ um.store va b = some um' ∧
      s'.view = update s.view i (some um') := by
  rw [Sys.store] at hst
  cases hi : s.spaces i with
  | none =>
    rw [hi] at hst
    cases hst
  | some sp =>
    rw [hi, bind_some, hwStore] at hst
    by_cases hp : (sp.pt.leaf (va / pgSize)).has pteV = true ∧
        (sp.pt.leaf (va / pgSize)).has pteU = true ∧ (sp.pt.leaf (va / pgSize)).has pteW = true
    · rw [if_pos hp, map_some, some_inj] at hst
      have hsp := h.spaces i sp hi
      have hv : va / pgSize < userPages := UserPage.lt ⟨hp.1, hp.2.1⟩ hsp.top
      have hfit : va % pgSize + 1 ≤ pgSize := Nat.mod_lt _ (by decide)
      obtain ⟨hstep, hview⟩ := memmove_view (fun _ => b) (h.spaceOk hi) hv hp.1 hp.2.2 hfit
      rw [Nat.div_add_mod'] at hview
      subst hst
      refine ⟨h.move hi hstep.toSpaceMove hsp.sz_le, fun hs => hs.put (hs i sp hi) _,
        .put (by rw [hi]; rfl) sp _, ⟨userView s.phys.mem sp.pt.leaf, sp.sz⟩,
        ⟨writeView (userView s.phys.mem sp.pt.leaf) va 1 fun _ => b, sp.sz⟩, ?_, ?_, ?_⟩
      · rw [Sys.view, hi]
        rfl
      · rw [UserMem.store]
        simp only [userView_of_lt hv, Pte.view, if_pos hp.1]
        rw [if_pos (by simp [hp.2.1, hp.2.2])]
      · rw [Inv.view_put hstep.keep, map_some, hview]
    · rw [if_neg hp] at hst
      cases hst

omit [Fintype ι] in
theorem Sys.store_isSome {space : Space} (hi : s.spaces i = some space)
    (hu : UserPage (space.pt.leaf (va / pgSize)))
    (hW : (space.pt.leaf (va / pgSize)).has pteW = true) : (s.store i va b).isSome := by
  rw [Sys.store, hi, bind_some, hwStore, if_pos ⟨hu.1, hu.2, hW⟩]
  rfl

theorem Machine.freeproc_spec (hE : s.Shaped ∨ Panic.RefSafe ≤ E) (h : Inv L s) :
    Ensures (Machine.freeproc L j tf tc s) E fun s' =>
      Inv L s' ∧ (s.Shaped → s'.Shaped) ∧ s'.kheld = (s.kheld.erase tf).erase tc ∧
      s'.spaces = update s.spaces j none ∧ s'.view = update s.view j none := by
  rw [freeproc]
  refine (Sys.kfree_spec h).bind ?_
  rintro s1 ⟨h1, hv1, hs1, hk1⟩
  refine (Sys.kfree_spec h1).bind ?_
  rintro s2 ⟨h2, hv2, hs2, hk2⟩
  have hshape : s.Shaped → s2.Shaped := fun hs => hs.congr (hs2.trans hs1)
  refine (Sys.procFreepagetable_spec h2 (hE.imp_left hshape)).mono ?_
  rintro s3 ⟨h3, hk3, hs3, hv3⟩
  exact ⟨h3, fun hs => (hshape hs).remove hs3, by rw [hk3, hk2, hk1], by rw [hs3, hs2, hs1],
    by rw [hv3, hv2, hv1]⟩

/-- Freeing the two pages of a process just made leaves the pages of before. -/
theorem erase_pair (tf tc : ℕ) (l : List ℕ) : ((tc :: tf :: l).erase tf).erase tc = l := by
  rw [List.erase_cons]
  split_ifs with htt
  · rw [eq_of_beq htt, List.erase_cons_head]
  · rw [List.erase_cons_head, List.erase_cons_head]

theorem Machine.allocproc_spec (hE : s.Shaped ∨ Panic.RefSafe ≤ E) (h : Inv L s)
    (hj : s.view j = none) :
    Ensures (Machine.allocproc L j s) E fun r => Inv L r.2 ∧ (s.Shaped → r.2.Shaped) ∧
      r.2.kheld = (match r.1 with
        | none => s.kheld
        | some (tf, tc) => tc :: tf :: s.kheld) ∧
      r.2.view = if r.1.isSome then update s.view j (some UserMem.empty) else s.view := by
  rw [allocproc]
  refine (Sys.kalloc_spec h).bind ?_
  rintro ⟨_ | tf, s1⟩ ⟨h1, hv1, hs1, hk1⟩
  · exact ⟨h1, fun hs => hs.congr hs1, hk1, hv1⟩
  replace hk1 : s1.kheld = tf :: s.kheld := hk1
  refine (Sys.kalloc_spec h1).bind ?_
  rintro ⟨_ | tc, s2⟩ ⟨h2, hv2, hs2, hk2⟩
  · replace hk2 : s2.kheld = s1.kheld := hk2
    refine (Sys.kfree_spec h2).bind ?_
    rintro s3 ⟨h3, hv3, hs3, hk3⟩
    refine ⟨h3, fun hs => hs.congr (hs3.trans (hs2.trans hs1)), ?_, ?_⟩
    · rw [hk3, hk2, hk1, List.erase_cons_head]
    · rw [hv3, hv2, hv1]
      rfl
  replace hk2 : s2.kheld = tc :: s1.kheld := hk2
  have hshape : s.Shaped → s2.Shaped := fun hs => hs.congr (hs2.trans hs1)
  refine (Sys.procPagetable_spec h2).bind ?_
  rintro ⟨_ | _, s3⟩ ⟨h3, hk3, hshape3, hr⟩
  · refine (freeproc_spec (hE.imp_left (hshape3 ∘ hshape)) h3).bind ?_
    rintro s4 ⟨h4, hshape4, hk4, -, hv4⟩
    refine ⟨h4, hshape4 ∘ hshape3 ∘ hshape, ?_, ?_⟩
    · rw [hk4, hk3, hk2, hk1, erase_pair]
    · have hv3 : s3.view = s.view := by rw [hr.1, hv2, hv1]
      rw [hv4, hv3]
      exact update_eq_self_iff.mpr hj.symm
  · refine ⟨h3, hshape3 ∘ hshape, by rw [hk3, hk2, hk1], ?_⟩
    have hv3 : s3.view = update s2.view j (some UserMem.empty) := hr.2
    rw [hv3, hv2, hv1]
    rfl

omit [Fintype ι] [DecidableEq ι] in
theorem Sys.sz_of_view_empty {c : Space} (hv : s.view j = some UserMem.empty)
    (hc : s.spaces j = some c) : c.sz = 0 := by
  rw [Sys.view, hc, map_some, some_inj] at hv
  exact congrArg UserMem.sz hv

variable {t : Machine ι} {sys : Sys ι}

/-- The references of the kernel's pages of a process: its trapframe and the copy. -/
def frameRefs (o : Option (ℕ × ℕ)) : ℕ → ℕ := o.elim 0 fun p => ref p.1 + ref p.2

/-- Every process with a space has its trapframe pages, and the kernel holds them all. -/
structure Machine.Owns (t : Machine ι) : Prop where
  slots : ∀ i, (t.frames i).isSome = (t.sys.spaces i).isSome
  held : ∀ f, ∑ i, frameRefs (t.frames i) f ≤ t.sys.kheld.count f

omit [DecidableEq ι] in
theorem Machine.Owns.keep (h : t.Owns) (hk : t.sys.Kept sys) (killed : ι → Bool) :
    Machine.Owns ⟨sys, t.frames, killed⟩ :=
  ⟨fun i => (h.slots i).trans (hk.slots i).symm, fun f => by rw [hk.kheld]; exact h.held f⟩

theorem Machine.Owns.add (h : t.Owns) (hj : t.sys.view j = none)
    (hk : sys.kheld = tc :: tf :: t.sys.kheld) {um : UserMem}
    (hv : sys.view = update t.sys.view j (some um)) (killed : ι → Bool) :
    Machine.Owns ⟨sys, update t.frames j (some (tf, tc)), killed⟩ := by
  have hslot : ∀ i, (t.frames i).isSome = (t.sys.view i).isSome := fun i =>
    (h.slots i).trans (isSome_view t.sys i).symm
  have hnone : t.frames j = none := by
    have := hslot j
    rw [hj] at this
    simpa using this
  refine ⟨fun i => ?_, fun f => ?_⟩
  · dsimp only
    rw [← isSome_view, hv, update_apply, update_apply]
    split_ifs
    · rfl
    · exact hslot i
  · have hsum := congrFun (Counting.sum_update_add frameRefs t.frames j (some (tf, tc))) f
    have hold := h.held f
    have hcount : sys.kheld.count f = t.sys.kheld.count f + ref tf f + ref tc f := by
      rw [hk]
      have h1 := congrFun (count_cons_eq tc (tf :: t.sys.kheld)) f
      have h2 := congrFun (count_cons_eq tf t.sys.kheld) f
      simp only [Pi.add_apply] at h1 h2
      rw [h1, h2]
    rw [hnone] at hsum
    simp only [frameRefs, elim_none, elim_some, Finset.sum_apply, Pi.add_apply,
      Pi.zero_apply] at hsum hold ⊢
    omega

theorem Machine.Owns.remove (h : t.Owns) (hi : t.frames i = some (tf, tc))
    (hk : sys.kheld = (t.sys.kheld.erase tf).erase tc)
    (hs : sys.spaces = update t.sys.spaces i none) (killed : ι → Bool) :
    Machine.Owns ⟨sys, update t.frames i none, killed⟩ := by
  refine ⟨fun k => ?_, fun f => ?_⟩
  · dsimp only
    rw [hs, update_apply, update_apply]
    split_ifs
    · rfl
    · exact h.slots k
  · have hsum := congrFun (Counting.sum_update_add frameRefs t.frames i none) f
    have hold := h.held f
    have hcount : t.sys.kheld.count f ≤ sys.kheld.count f + ref tc f + ref tf f := by
      rw [hk]
      exact (count_le_erase _ tf f).trans (Nat.add_le_add_right (count_le_erase _ tc f) _)
    rw [hi] at hsum
    simp only [frameRefs, elim_none, elim_some, Finset.sum_apply, Pi.add_apply,
      Pi.zero_apply] at hsum hold ⊢
    omega

omit [Fintype ι] [DecidableEq ι] in
theorem Machine.idle_eager (t : Machine ι) (i : ι) : t.eager.idle i = t.idle i := by
  simp only [Eager.idle, Machine.idle, Machine.eager, Sys.view, isNone_map]

theorem Machine.fork_spec (hE : t.sys.Shaped ∨ Panic.RefSafe ≤ E) (h : Inv L t.sys)
    (hi : t.idle i = false) :
    Ensures (t.fork L i j) E fun r => Inv L r.2.sys ∧ (t.sys.Shaped → r.2.sys.Shaped) ∧
      (t.Owns → r.2.Owns) ∧ t.eager.step (.fork i j) r.1 = some r.2.eager := by
  rw [Machine.fork]
  split_ifs with hj
  · exact ⟨h, id, id, rfl⟩
  have hj' : t.sys.view j = none := by
    rw [Sys.view, map_eq_none_iff]
    simpa using hj
  obtain ⟨p, hp⟩ : ∃ p, t.sys.spaces i = some p := by
    rw [Machine.idle, Bool.or_eq_false_iff] at hi
    exact isSome_iff_exists.mp (by simpa using hi.2)
  have hum : t.sys.view i = some ⟨userView t.sys.phys.mem p.pt.leaf, p.sz⟩ := by
    rw [Sys.view, hp]
    rfl
  have hij : i ≠ j := by
    rintro rfl
    rw [hj'] at hum
    cases hum
  refine (allocproc_spec hE h hj').bind ?_
  have hkept : ∀ sys : Sys ι, sys.kheld = t.sys.kheld → sys.view = t.sys.view →
      t.sys.Kept sys := fun sys hk hv => ⟨hk, fun k => by
    rw [← isSome_view, ← isSome_view, hv]⟩
  rintro ⟨_ | ⟨tf, tc⟩, s1⟩ ⟨h1, hshape1, hk1, hv1⟩
  · have hv : s1.view = t.sys.view := hv1
    refine ⟨h1, hshape1, fun ho => ho.keep (hkept s1 hk1 hv) _, ?_⟩
    simp only [Eager.step, Machine.eager, hv]
  · have hv : s1.view = update t.sys.view j (some UserMem.empty) := hv1
    have hempty : ∀ c, s1.spaces j = some c → c.sz = 0 := fun c =>
      Sys.sz_of_view_empty (by rw [hv, update_self])
    refine (Sys.uvmcopy_spec h1 (hE.imp_left fun hs => ⟨hshape1 hs, hempty⟩)).bind ?_
    rintro ⟨_ | _, s2⟩ ⟨h2, hk2, hshape2, hother, hcopy⟩
    · have hshape : t.sys.Shaped → s2.Shaped := fun hs => hshape2 (hshape1 hs) hempty
      refine (freeproc_spec (hE.imp_left hshape) h2).bind ?_
      rintro s3 ⟨h3, hshape3, hk3, -, hv3⟩
      have hv' : s3.view = t.sys.view := by
        funext k
        rw [hv3, update_apply]
        split_ifs with hk
        · rw [hk, hj']
        · rw [hother k hk, hv, update_of_ne hk]
      have hk' : s3.kheld = t.sys.kheld := by
        rw [hk3, hk2, hk1, erase_pair]
      refine ⟨h3, hshape3 ∘ hshape, fun ho => ho.keep (hkept s3 hk' hv') _, ?_⟩
      simp only [Eager.step, Machine.eager, hv']
    · have hchild := hcopy rfl _ _ (by rw [hv, update_of_ne hij, hum]) (by rw [hv, update_self])
      have hv' : s2.view = update t.sys.view j
          (some (UserMem.fork ⟨userView t.sys.phys.mem p.pt.leaf, p.sz⟩)) := by
        funext k
        rw [update_apply]
        split_ifs with hk
        · rw [hk, hchild]
          rfl
        · rw [hother k hk, hv, update_of_ne hk]
      refine ⟨h2, fun hs => hshape2 (hshape1 hs) hempty, fun ho =>
        ho.add hj' (hk2.trans hk1) hv' _, ?_⟩
      simp only [Eager.step, Machine.eager, hum, map_some, hv']

theorem Machine.fault_spec {sp : ℕ} {retry : Sys ι → Option (Sys ι)}
    {Q : Outcome × Machine ι → Prop} (h : Inv L t.sys)
    (hkill : ∀ s', Inv L s' → (t.sys.Shaped → s'.Shaped) → t.sys.Kept s' → s'.view = t.sys.view →
      Q (.killed, { t with sys := s', killed := update t.killed i true }))
    (hretry : ∀ s', Inv L s' → (t.sys.Shaped → s'.Shaped) → t.sys.Kept s' → s'.view = t.sys.view →
      (∃ space, s'.spaces i = some space ∧ UserPage (space.pt.leaf (va / pgSize)) ∧
        (space.pt.leaf (va / pgSize)).has pteW = true) →
      match retry s' with
      | some s'' => Q (.done, { t with sys := s'' })
      | none => Q (.failed, { t with sys := s' })) :
    Ensures (t.fault L i sp va retry) E Q := by
  rw [Machine.fault]
  refine (Sys.usertrapFault_spec h).bind ?_
  rintro ⟨killed, s'⟩ ⟨h', hshape, hkept, hv, -, hok⟩
  dsimp only at h' hshape hkept hv hok ⊢
  split_ifs with hk
  · obtain ⟨space, hsp, -, hu, hW⟩ := hok hk
    have := hretry s' h' hshape hkept hv ⟨space, hsp, hu, hW⟩
    split at this
    · exact this
    · exact this
  · exact hkill s' h' hshape hkept hv

/-- **One event**: the reference system ends it the same way, and shows the same memory; and if
every space has its shape, nothing panics and every space keeps it. -/
theorem Machine.step_spec (e : Event ι) (hE : t.sys.Shaped ∨ Panic.RefSafe ≤ E) (h : Inv L t.sys) :
    Ensures (Machine.step L e t) E fun r => Inv L r.2.sys ∧ (t.sys.Shaped → r.2.sys.Shaped) ∧
      (t.Owns → r.2.Owns) ∧ t.eager.step e r.1 = some r.2.eager := by
  cases e with
  | fork i j =>
    rw [Machine.step]
    split_ifs with hi
    · exact ⟨h, id, id, rfl⟩
    · exact fork_spec hE h (by simpa using hi)
  | load i sp va =>
    have hread : ∀ s' : Sys ι, Inv L s' → s'.view = t.sys.view →
        s'.load i va = t.eager.read i va := fun s' h' hv => by
      rw [load_eq h', hv]
      rfl
    rw [Machine.step]
    split_ifs with hi hl
    · exact ⟨h, id, id, if_pos (Or.inl (by rw [idle_eager, hi]))⟩
    · refine ⟨h, id, id, ?_⟩
      obtain ⟨b, hb⟩ := isSome_iff_exists.mp hl
      rw [hread _ h rfl] at hb
      simp only [Eager.step, hb, map_some]
    · refine fault_spec h (fun s' h' hs hk hv => ⟨h', hs, fun ho => ho.keep hk _, ?_⟩)
        fun s' h' hs hk hv _ => ?_
      · simp only [Eager.step, Machine.eager, hv]
      · have hr := hread s' h' hv
        cases hb : t.eager.read i va with
        | none =>
          rw [hr, hb, map_none]
          refine ⟨h', hs, fun ho => ho.keep hk _, ?_⟩
          simp only [Eager.step, hb, isNone_none, or_true, if_true]
          simp only [Machine.eager, hv]
        | some b =>
          rw [hr, hb, map_some]
          refine ⟨h', hs, fun ho => ho.keep hk _, ?_⟩
          simp only [Eager.step, hb, map_some]
          simp only [Machine.eager, hv]
  | store i sp va b =>
    -- a store that goes through, on memory that shows what it showed
    have hdone : ∀ s' s'' : Sys ι, Inv L s' → (t.sys.Shaped → s'.Shaped) → t.sys.Kept s' →
        s'.view = t.sys.view → s'.store i va b = some s'' →
        Inv L s'' ∧ (t.sys.Shaped → s''.Shaped) ∧
        (t.Owns → Machine.Owns { t with sys := s'' }) ∧ t.eager.step (.store i sp va b) .done =
          some (Machine.eager { t with sys := s'' }) := fun s' s'' h' hshape hk hv hs => by
      obtain ⟨h'', hshape'', hk'', um, um', hum, hst, hv''⟩ := store_spec h' hs
      refine ⟨h'', hshape'' ∘ hshape, fun ho => ho.keep (hk.trans hk'') _, ?_⟩
      rw [hv] at hum hv''
      simp only [Eager.step, Machine.eager, hum, bind_some, hst, map_some, hv'']
    rw [Machine.step]
    split_ifs with hi
    · exact ⟨h, id, id, if_pos (by rw [idle_eager, hi])⟩
    · cases hs : t.sys.store i va b with
      | some s' => exact hdone _ _ h id (.refl _) rfl hs
      | none =>
        refine fault_spec h
          (fun s' h' hshape hk hv => ⟨h', hshape, fun ho => ho.keep hk _, ?_⟩) ?_
        · simp only [Eager.step, Machine.eager, hv]
        · rintro s' h' hshape hk hv ⟨space, hsp, hu, hW⟩
          obtain ⟨s'', hs''⟩ := isSome_iff_exists.mp (store_isSome (b := b) hsp hu hW)
          rw [hs'']
          exact hdone _ _ h' hshape hk hv hs''
  | sbrk i n =>
    rw [Machine.step]
    split_ifs with hi
    · exact ⟨h, id, id, rfl⟩
    · rw [Machine.idle, Bool.not_eq_true, Bool.or_eq_false_iff] at hi
      obtain ⟨p, hp⟩ : ∃ p, t.sys.spaces i = some p := isSome_iff_exists.mp (by simpa using hi.2)
      have hum : t.sys.view i = some ⟨userView t.sys.phys.mem p.pt.leaf, p.sz⟩ := by
        rw [Sys.view, hp]
        rfl
      refine (Sys.growproc_spec h hE).bind ?_
      rintro ⟨ok, s'⟩ ⟨h', hshape, hk, -, hr⟩
      obtain ⟨ok', hok, hv⟩ := hr _ hum
      dsimp only at h' hok hv ⊢
      subst hok
      refine ⟨h', hshape, fun ho => ho.keep hk _, ?_⟩
      cases ok' with
      | true => simp only [if_true, Eager.step, Machine.eager, hum, map_some, hv]
      | false =>
        have hv' : s'.view = t.sys.view := by
          rw [hv]
          exact update_eq_self_iff.mpr hum.symm
        simp [Eager.step, Machine.eager, hv']
  | exitWait i =>
    rw [Machine.step]
    split
    · exact ⟨h, id, id, rfl⟩
    · rename_i hi
      refine (freeproc_spec hE h).bind ?_
      rintro s' ⟨h', hshape, hk, hs, hv⟩
      exact ⟨h', hshape, fun ho => ho.remove hi hk hs _,
        by simp only [Eager.step, Machine.eager, hv]⟩

end Simulation

/-- **Copy-on-write fork is indistinguishable from an eager copy.** From any state the memory code
can reach, and over any interleaving of events, the reference system can end every event in the same
way, and then every process that has not been killed reads the same bytes in both. In particular a
store by one process changes no byte that another reads. -/
theorem cow_refines_eager {ι : Type} [Fintype ι] [DecidableEq ι] {L : Layout} {t t' : Machine ι}
    {events : List (Event ι × Outcome)} (ht : (cow L).init t)
    (hrun : (cow L).Run t events t') :
    (∃ r, eager.Run t.eager events r ∧ r.killed = t'.killed ∧
      ∀ i, t'.killed i = false → ∀ va < t'.sz i, t'.read i va = r.read i va) ∧
    ∀ i sp va b o t'', (cow L).step t' (.store i sp va b, o) t'' →
      ∀ j, j ≠ i → ∀ x, t''.read j x = t'.read j x := by
  have hread : ∀ u : Machine ι, Inv L u.sys → ∀ i va, u.read i va = u.eager.read i va :=
    fun u hu i va => by
      rw [Machine.read, load_eq hu]
      rfl
  have hstep : ∀ (u : Machine ι) e u' r, (Inv L u.sys ∧ r = u.eager) → (cow L).step u e u' →
      ∃ r', eager.step r e r' ∧ (Inv L u'.sys ∧ r' = u'.eager) := by
    rintro u ⟨e, o⟩ u' _ ⟨hu, rfl⟩ hs
    obtain ⟨hu', -, -, hr⟩ := (step_spec e (Or.inr le_rfl) hu).of_ok hs
    exact ⟨_, hr, hu', rfl⟩
  obtain ⟨r, hrun', hinv, rfl⟩ := hrun.simulation hstep ⟨inv_reachable ht, rfl⟩
  refine ⟨⟨_, hrun', rfl, fun i _ va _ => hread t' hinv i va⟩, ?_⟩
  intro i sp va b o t'' hs j hj x
  obtain ⟨r', hr', hinv'', rfl⟩ := hstep _ _ _ _ ⟨hinv, rfl⟩ hs
  rw [hread t'' hinv'', hread t' hinv]
  exact Eager.read_of_store hr' hj x

def oneProcess : Except Panic (Machine (Fin 2)) := do
  let m ← kinit smallLayout.kend fun _ _ => 0
  let sys ← Op.runAll smallLayout [.kalloc, .kalloc, .procPagetable 0 0x87fff, .growproc 0 4096]
    ⟨m, [], fun _ => none⟩
  return ⟨sys, fun i => if i = 0 then some (0x87fff, 0x87ffe) else none, fun _ => false⟩

/-- A fork, and a store by the child: the child reads it, here and in the reference system. -/
theorem cow_refines_eager_childStore : ∃ (t t' : Machine (Fin 2)) (r : Eager (Fin 2)),
    oneProcess = .ok t ∧
    (cow smallLayout).Run t [(.fork 0 1, .done), (.store 1 0 5 42, .done)] t' ∧
    eager.Run t.eager [(.fork 0 1, .done), (.store 1 0 5 42, .done)] r ∧
    t'.read 0 5 = some 0 ∧ r.read 1 5 = some 42 := by
  obtain ⟨t, ht, hrun⟩ : ∃ t, oneProcess = .ok t ∧
      Ensures (Machine.step smallLayout (.fork 0 1) t) (fun _ => False) fun r => r.1 = .done ∧
        Ensures (Machine.step smallLayout (.store 1 0 5 42) r.2) (fun _ => False) fun r' =>
          r'.1 = .done ∧ r'.2.killed 1 = false ∧ 5 < r'.2.sz 1 ∧
            r'.2.read 0 5 = some 0 ∧ r'.2.read 1 5 = some 42 :=
    Ensures.exists_ok (by decide +kernel)
  obtain ⟨⟨_, t1⟩, h1, rfl, hrun⟩ := hrun.exists_ok
  obtain ⟨⟨_, t'⟩, h2, rfl, hk, hsz, hp, hc⟩ := hrun.exists_ok
  have hr : (cow smallLayout).Run t [(.fork 0 1, .done), (.store 1 0 5 42, .done)] t' :=
    .cons h1 (.cons h2 (.nil t'))
  have hinit : (cow smallLayout).init t := by
    obtain ⟨m, hm, h⟩ := Except.bind_eq_ok_iff.mp ht
    obtain ⟨sys, hs, h⟩ := Except.bind_eq_ok_iff.mp h
    cases h
    exact reachable_runAll (.init ⟨_, m, hm, rfl⟩) hs
  obtain ⟨⟨r, hrun', -, hread⟩, -⟩ := cow_refines_eager hinit hr
  exact ⟨t, t', r, ht, hr, hrun', hp, (hread 1 hk 5 hsz).symm.trans hc⟩

end Xv6
