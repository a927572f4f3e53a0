import Xv6.Mem.Fork
import Xv6.Mem.Leaves

/-!
# Replacing the memory of a process

`exec` of `kernel/exec.c`. It builds the new image in a page table of its own: the segments of the
program file, then two pages for the stack, of which the lower one is taken from the user, then the
arguments. Only then is the old table freed; any failure on the way frees the new one instead, at
whatever size it has reached.

The file is what `readi` makes of it. The trapframe, the name and the file-system side are left
out, and the program headers come as a list, with `none` for one that cannot be read.
-/

namespace Xv6

open Function

/-- `MAXARG`: the number of arguments of `exec`. -/
abbrev maxArg : ℕ := 32

/-- `struct proghdr`, with the fields `exec` reads. -/
structure Proghdr where
  type : UInt32
  flags : UInt32
  off : UInt64
  vaddr : UInt64
  filesz : UInt64
  memsz : UInt64

/-- The program file: whether it is found and starts with a whole ELF header with the right magic
number, its program headers, and how many and which bytes `readi` returns at an offset. -/
structure Program where
  elf : Bool
  proghdrs : List (Option Proghdr)
  readi : (off n : ℕ) → ℕ × (ℕ → UInt8)
  readi_le : ∀ off n, (readi off n).1 ≤ n

section Exec

variable (kend tramp : ℕ) (p : Program)

/-- The loop of `loadseg`, over `n` pages from `i` on. -/
def loadsegLoop (pt : PageTable) (va offset sz : ℕ) : (n i : ℕ) → Phys → Except Panic (Bool × Phys)
  | 0, _, m => .ok (true, m)
  | n + 1, i, m =>
    let pa := walkaddr pt (va + i)
    if pa = 0 then .error .loadseg
    else
      let len := min (sz - i) pgSize
      let (got, bytes) := p.readi ((offset + i) % 2 ^ 32) len
      let m := m.memmove (pa / pgSize) 0 got bytes
      if got = len then loadsegLoop pt va offset sz n (i + pgSize) m else .ok (false, m)

/-- `loadseg`: read `sz` bytes of the file into the mapped pages from `va` on. Its `offset` and `sz`
are of type `uint`. -/
def loadseg (pt : PageTable) (va offset sz : ℕ) (m : Phys) : Except Panic (Bool × Phys) :=
  loadsegLoop p pt va (offset % 2 ^ 32) (sz % 2 ^ 32) ((sz % 2 ^ 32 + (pgSize - 1)) / pgSize) 0 m

/-- The body of `exec`'s loop over the program headers; `false` is `goto bad`. -/
def execSegment (ph : Proghdr) (sp : Space) (m : Phys) : Except Panic (Bool × Space × Phys) :=
  if ph.type ≠ 1 then .ok (true, sp, m)
  else if ph.memsz < ph.filesz then .ok (false, sp, m)
  else if ph.vaddr + ph.memsz < ph.vaddr then .ok (false, sp, m)
  else if ph.vaddr.toNat % pgSize ≠ 0 then .ok (false, sp, m)
  else do
    let (sz1, pt, m) ←
      uvmalloc kend sp.pt sp.sz (ph.vaddr + ph.memsz).toNat (flags2perm ph.flags.toNat) m
    if sz1 = 0 then return (false, ⟨pt, sp.sz⟩, m)
    else
      let (r, m) ← loadseg p pt ph.vaddr.toNat ph.off.toNat ph.filesz.toNat m
      return (r, ⟨pt, sz1⟩, m)

def execLoad : List (Option Proghdr) → Space → Phys → Except Panic (Bool × Space × Phys)
  | [], sp, m => .ok (true, sp, m)
  | none :: _, sp, m => .ok (false, sp, m)
  | some ph :: phs, sp, m => do
    let (r, sp, m) ← execSegment kend p ph sp m
    if r then execLoad phs sp m else return (false, sp, m)

/-- `sp -= n; sp -= sp % 16`, on 64-bit values. -/
def pushDown (sp n : ℕ) : ℕ :=
  let sp := (sp + 2 ^ 64 - n % 2 ^ 64) % 2 ^ 64
  sp - sp % 16

/-- The loop that pushes the argument strings, with the addresses pushed so far; `none` is
`goto bad`. -/
def pushStrings (stackbase : ℕ) : List (List UInt8) → (sp : ℕ) → (ustack : List ℕ) → PageTable →
    Phys → Except Panic (Option (ℕ × List ℕ) × PageTable × Phys)
  | [], sp, ustack, pt, m => .ok (some (sp, ustack), pt, m)
  | arg :: argv, sp, ustack, pt, m =>
    let sp := pushDown sp (arg.length + 1)
    if maxArg ≤ ustack.length then .ok (none, pt, m)
    else if sp < stackbase then .ok (none, pt, m)
    else do
      let (r, pt, m) ← copyout kend pt sp (fun i => arg.getD i 0) (arg.length + 1) m
      if r then pushStrings stackbase argv sp (ustack ++ [sp]) pt m else return (none, pt, m)

/-- The bytes of the array `ustack`, with its final zero. -/
def ustackBytes (ustack : List ℕ) (i : ℕ) : UInt8 :=
  UInt8.ofNat (ustack.getD (i / 8) 0 / 2 ^ (8 * (i % 8)))

/-- Pushing the argument strings and then the array of their addresses. -/
def pushArgs (stackbase : ℕ) (argv : List (List UInt8)) (sp : ℕ) (pt : PageTable) (m : Phys) :
    Except Panic (Bool × PageTable × Phys) := do
  let (r, pt, m) ← pushStrings kend stackbase argv sp [] pt m
  match r with
  | none => return (false, pt, m)
  | some (sp, ustack) =>
    let len := (ustack.length + 1) * 8
    let sp := pushDown sp len
    if sp < stackbase then return (false, pt, m)
    else copyout kend pt sp (ustackBytes ustack) len m

/-- The guard page below the stack of an image of `sz` bytes. -/
@[irreducible] def guardPage (sz : ℕ) : ℕ := sz - 2 * pgSize

/-- `stackbase`, for an image of `sz` bytes. -/
@[irreducible] def stackBase (sz : ℕ) : ℕ := sz - pgSize

/-- The second half of `exec`'s construction: the guard page, the stack and the arguments. -/
def execStack (argv : List (List UInt8)) (sp : Space) (m : Phys) :
    Except Panic (Bool × Space × Phys) := do
  let sz := pgRoundUp sp.sz
  let (sz1, pt, m) ← uvmalloc kend sp.pt sz (sz + 2 * pgSize) pteW m
  if sz1 = 0 then return (false, ⟨pt, sz⟩, m)
  else
    let pt ← uvmclear pt (guardPage sz1) m
    let (r, pt, m) ← pushArgs kend (stackBase sz1) argv sz1 pt m
    return (r, ⟨pt, sz1⟩, m)

def execBuild (argv : List (List UInt8)) (sp : Space) (m : Phys) :
    Except Panic (Bool × Space × Phys) := do
  let (r, sp, m) ← execLoad kend p p.proghdrs sp m
  if r then execStack kend argv sp m else return (false, sp, m)

/-- `exec`, for a process with the trapframe page `tf`: whether it succeeded, and the memory the
process goes on with. -/
def exec (tf : ℕ) (argv : List (List UInt8)) (old : Space) (m : Phys) :
    Except Panic (Bool × Space × Phys) :=
  if p.elf = false then .ok (false, old, m)
  else do
    let (pt, m) ← procPagetable kend tramp tf m
    match pt with
    | none => return (false, old, m)
    | some pt =>
      let (r, new, m) ← execBuild kend p argv ⟨pt, 0⟩ m
      if r then
        let m ← procFreepagetable kend old.pt old.sz m
        return (true, new, m)
      else
        let m ← procFreepagetable kend new.pt new.sz m
        return (false, old, m)

end Exec

/-- `exec` by the process `i`; the result says whether it succeeded. -/
def Sys.exec {ι : Type} [DecidableEq ι] (L : Layout) (i : ι) (tf : ℕ) (p : Program)
    (argv : List (List UInt8)) : Sys ι → Except Panic (Option Bool × Sys ι) :=
  Sys.onSpace i fun sp m => Xv6.exec L.kend L.tramp p tf argv sp m

/-! ## The image -/

/-- An image under construction: in good order beside the references `K` and `U` of others, none
of whose pages it shares, and with the pages its size asks for. -/
structure Image (kend : ℕ) (K U : ℕ → ℕ) (sp : Space) (m : Phys) : Prop where
  ok : SpaceOk kend K U sp.pt m
  top : KernelTop sp.pt
  shape : sp.Shaped
  sz_le : sp.sz ≤ trapframeVa
  fresh : ∀ f, U f ≠ 0 → leafRefs sp.pt.leaf f = 0

section Image

variable {kend : ℕ} {E : Panic → Prop} {K U : ℕ → ℕ} {sp : Space} {m m' : Phys} {p : Program}
  {argv : List (List UInt8)} {pt : PageTable} {m0 : Phys} {old : Space} {dstva fuel : ℕ}
  {src : ℕ → UInt8}

theorem Image.move (h : Image kend K U sp m) {pt' : PageTable} {sz' : ℕ}
    (hm : SpaceMove kend K U sp.pt pt' m') (hsz : sz' ≤ trapframeVa)
    (hs : pt'.Shaped (npages sz')) : Image kend K U ⟨pt', sz'⟩ m' :=
  ⟨hm.ok, h.top.move hm, ⟨hs, h.shape.top.congr hm.upper⟩, hsz, fun f hf =>
    hm.fresh f hf (h.fresh f hf)⟩

theorem Image.congr (h : Image kend K U sp m) (hfl : m'.freelist = m.freelist)
    (hrc : m'.pgrc = m.pgrc) : Image kend K U sp m' :=
  ⟨h.ok.congr hfl hrc, h.top, h.shape, h.sz_le, h.fresh⟩

/-- An image under construction since the memory was `m0`: the pages of others have their contents
still, and no page of the image is marked copy on write. -/
structure Building (kend : ℕ) (K U : ℕ → ℕ) (m0 : Phys) (sp : Space) (m : Phys) : Prop
    extends Image kend K U sp m where
  keep : ∀ f, K f + U f ≠ 0 → m.mem f = m0.mem f
  nocow : NoCow sp.pt.leaf

theorem Building.step (h : Building kend K U m0 sp m) {pt' : PageTable} {sz' : ℕ}
    (hst : SpaceStep kend K U sp.pt m pt' m') (hsz : sz' ≤ trapframeVa)
    (hs : pt'.Shaped (npages sz')) (hn : NoCow pt'.leaf) : Building kend K U m0 ⟨pt', sz'⟩ m' :=
  ⟨h.toImage.move hst.toSpaceMove hsz hs, fun f hf => (hst.keep f hf).trans (h.keep f hf), hn⟩

theorem Image.frame_ne (h : Image kend K U sp m) {f v : ℕ} (hf : K f + U f ≠ 0)
    (hu : UserPage (sp.pt.leaf v)) : (sp.pt.leaf v).frame ≠ f := by
  rintro rfl
  have hmine := leafRefs_ne_zero (hu.lt h.top) hu.1
  have hU : U (sp.pt.leaf v).frame = 0 := by
    by_contra hU
    exact hmine (h.fresh _ hU)
  have hsep := h.ok.acct.sep (sp.pt.leaf v).frame (by simp only [Pi.add_apply]; omega)
  simp only [Pi.add_apply] at hsep
  omega

theorem Building.congr (h : Building kend K U m0 sp m) (hfl : m'.freelist = m.freelist)
    (hrc : m'.pgrc = m.pgrc)
    (hmem : ∀ f, (∀ v, UserPage (sp.pt.leaf v) → (sp.pt.leaf v).frame ≠ f) → m'.mem f = m.mem f) :
    Building kend K U m0 sp m' :=
  ⟨h.toImage.congr hfl hrc, fun f hf =>
    (hmem f fun _ hu => h.frame_ne hf hu).trans (h.keep f hf), h.nocow⟩

theorem userPage_of_view {mem : ℕ → Page} {h : ℕ → Pte} {v : ℕ} {page : UPage}
    (hv : userView mem h v = some page) (hu : page.u = true) : UserPage (h v) := by
  rw [userView] at hv
  split_ifs at hv
  rw [Pte.view] at hv
  split_ifs at hv with hV
  cases hv
  exact ⟨hV, hu⟩

theorem loadsegLoop_spec {va offset sz : ℕ} (hva : va % pgSize = 0)
    (hpages : ∀ v, va ≤ v * pgSize → v * pgSize < va + sz →
      UserPage (pt.leaf v) ∧ (pt.leaf v).frame ≠ 0) (n : ℕ) :
    ∀ {i : ℕ} {m : Phys}, i % pgSize = 0 → n = (sz - i + (pgSize - 1)) / pgSize →
      Ensures (loadsegLoop p pt va offset sz n i m) E fun r =>
        r.2.freelist = m.freelist ∧ r.2.pgrc = m.pgrc ∧
        ∀ f, (∀ v, UserPage (pt.leaf v) → (pt.leaf v).frame ≠ f) → r.2.mem f = m.mem f := by
  induction n with
  | zero =>
    intro i m _ _
    exact ⟨rfl, rfl, fun _ _ => rfl⟩
  | succ n ih =>
    intro i m hi hn
    simp only [pgSize] at hva hi hn
    have hround : pgRoundDown (va + i) = va + i := by
      simp only [pgRoundDown, pgSize]
      omega
    obtain ⟨hu, hf⟩ := hpages ((va + i) / pgSize) (by simp only [pgSize]; omega)
      (by simp only [pgSize]; omega)
    have hpa : walkaddr pt (va + i) = (pt.leaf ((va + i) / pgSize)).frame * pgSize := by
      conv_lhs => rw [← hround]
      rw [walkaddr_eq, if_pos hu]
    rw [loadsegLoop, hpa, if_neg (mul_ne_zero hf (by decide)), Nat.mul_div_cancel _ (by decide)]
    dsimp only
    have hmem : ∀ (k : ℕ) (bytes : ℕ → UInt8) (f : ℕ),
        (∀ v, UserPage (pt.leaf v) → (pt.leaf v).frame ≠ f) →
        (m.memmove (pt.leaf ((va + i) / pgSize)).frame 0 k bytes).mem f = m.mem f :=
      fun _ _ f hne => update_of_ne (hne _ hu).symm ..
    split_ifs
    · refine (ih ?_ ?_).mono fun r hr => ?_
      · simp only [pgSize]
        omega
      · simp only [pgSize]
        omega
      · exact ⟨hr.1, hr.2.1, fun f hne => (hr.2.2 f hne).trans (hmem _ _ f hne)⟩
    · exact ⟨rfl, rfl, hmem _ _⟩

/-- The pages of an image are accessible to the user. -/
def Image.Open (sp : Space) : Prop := ∀ v < npages sp.sz, UserPage (sp.pt.leaf v)

theorem execSegment_spec {ph : Proghdr} (hk : 0 < kend) (h : Building kend K U m0 sp m)
    (hopen : Image.Open sp) :
    Ensures (execSegment kend p ph sp m) E fun r =>
      Building kend K U m0 r.2.1 r.2.2 ∧ (r.1 = true → Image.Open r.2.1) := by
  rw [execSegment]
  split_ifs with htype hmem hwrap halign
  · exact ⟨h, fun _ => hopen⟩
  · exact ⟨h, fun hc => by cases hc⟩
  · exact ⟨h, fun hc => by cases hc⟩
  · exact ⟨h, fun hc => by cases hc⟩
  refine ((uvmalloc_spec (allocPerm_flags2perm _) h.sz_le h.top.trapframe (Or.inl h.shape.user)
    h.ok).and (uvmalloc_nocow (allocPerm_flags2perm _) h.sz_le h.top.trapframe h.nocow)).bind ?_
  rintro ⟨sz1, pt, m1⟩ ⟨⟨hst, hshape, hr⟩, hnocow⟩
  replace hshape := hshape h.shape.user
  dsimp only at hst hshape hr hnocow ⊢
  split_ifs at hshape ⊢ with h0
  · exact ⟨h.step hst h.sz_le hshape hnocow, fun hc => by cases hc⟩
  obtain ⟨hmax, hle, hview⟩ := hr.resolve_right fun hz => h0 hz.1
  have himage := h.step hst hle hshape hnocow
  -- the old pages were accessible, and the new ones are
  have hopen1 : Image.Open ⟨pt, sz1⟩ := by
    intro v hv
    by_cases hlt : v < npages sp.sz
    · have hold : userView m1.mem pt.leaf v = userView m.mem sp.pt.leaf v := by
        rw [hview, growView, if_neg (by omega)]
      have hvu : v < userPages := hlt.trans_le (npages_le h.sz_le)
      have hu := hopen v hlt
      have hseen : userView m.mem sp.pt.leaf v = (sp.pt.leaf v).view m.mem := userView_of_lt hvu
      rw [hseen, Pte.view, if_pos hu.1] at hold
      exact userPage_of_view hold hu.2
    · have hnew : userView m1.mem pt.leaf v = some (zeroPage (flags2perm ph.flags.toNat)) := by
        rw [hview, growView, if_pos]
        refine ⟨by omega, ?_⟩
        have hmono : npages sz1 ≤ max (npages sp.sz) (npages (ph.vaddr + ph.memsz).toNat) := by
          rw [hmax]
          rcases le_total sp.sz (ph.vaddr + ph.memsz).toNat with hc | hc
          · rw [max_eq_right hc]
            exact le_max_right _ _
          · rw [max_eq_left hc]
            exact le_max_left _ _
        dsimp only at hv
        omega
      exact userPage_of_view hnew rfl
  -- the segment lies below the new size
  have hpages : ∀ v, ph.vaddr.toNat ≤ v * pgSize →
      v * pgSize < ph.vaddr.toNat + ph.filesz.toNat % 2 ^ 32 →
      UserPage (pt.leaf v) ∧ (pt.leaf v).frame ≠ 0 := by
    intro v _ hv
    have hsum : (ph.vaddr + ph.memsz).toNat = ph.vaddr.toNat + ph.memsz.toNat := by
      have hnot : ph.vaddr.toNat ≤ (ph.vaddr + ph.memsz).toNat :=
        UInt64.le_iff_toNat_le.mp (UInt64.not_lt.mp hwrap)
      have h1 := ph.vaddr.toNat_lt
      have h2 := ph.memsz.toNat_lt
      rw [UInt64.toNat_add] at hnot ⊢
      omega
    have hfile : ph.filesz.toNat ≤ ph.memsz.toNat :=
      UInt64.le_iff_toNat_le.mp (UInt64.not_lt.mp hmem)
    have hlt : v < npages sz1 := by
      have hmod := Nat.mod_le ph.filesz.toNat (2 ^ 32)
      simp only [npages, pgSize] at hv ⊢
      omega
    exact ⟨hopen1 v hlt, (hopen1 v hlt).frame_pos himage.top himage.ok hk⟩
  rw [loadseg]
  refine (loadsegLoop_spec (by simpa using halign) hpages _ rfl (by rw [Nat.sub_zero])).bind ?_
  rintro ⟨r, m2⟩ ⟨hfl, hrc, hmem⟩
  exact ⟨himage.congr hfl hrc hmem, fun _ => hopen1⟩

theorem execLoad_spec (hk : 0 < kend) (phs : List (Option Proghdr)) :
    ∀ {sp : Space} {m : Phys}, Building kend K U m0 sp m → Image.Open sp →
      Ensures (execLoad kend p phs sp m) E fun r => Building kend K U m0 r.2.1 r.2.2 := by
  induction phs with
  | nil =>
    intro sp m h _
    exact h
  | cons o phs ih =>
    intro sp m h hopen
    cases o with
    | none => exact h
    | some ph =>
      rw [execLoad]
      refine (execSegment_spec hk h hopen).bind ?_
      rintro ⟨r, sp1, m1⟩ ⟨h1, hopen1⟩
      cases r with
      | false => exact h1
      | true => exact ih h1 (hopen1 rfl)

theorem copyoutLoop_user {len : ℕ} (hlt : dstva / pgSize < userPages)
    (hu : UserPage (pt.leaf (dstva / pgSize))) (hC : (pt.leaf (dstva / pgSize)).has pteC = false)
    (hf : (pt.leaf (dstva / pgSize)).frame ≠ 0) (hlen : len ≠ 0) :
    copyoutLoop kend (fuel + 1) pt dstva src len m =
      copyoutLoop kend fuel pt ((dstva / pgSize + 1) * pgSize)
        (fun i => src (i + min (pgSize - dstva % pgSize) len))
        (len - min (pgSize - dstva % pgSize) len)
        (m.memmove (pt.leaf (dstva / pgSize)).frame (dstva % pgSize)
          (min (pgSize - dstva % pgSize) len) src) := by
  have hp := PageTable.leaf_page pt (lt_maxVa (pgRoundDown_lt hlt))
  rw [pgRoundDown_div] at hp
  have hcow : copyoutCow kend pt (pgRoundDown dstva) m = .ok (pt, m) := by
    rw [copyoutCow, if_neg]
    rw [has_pteC, getLsbD_pteFlags, ← hp, ← has_pteC, hC]
    simp
  have hmod : dstva - pgRoundDown dstva = dstva % pgSize := by
    simp only [pgRoundDown, pgSize]
    omega
  have hnext : pgRoundDown dstva + pgSize = (dstva / pgSize + 1) * pgSize := (Nat.succ_mul _ _).symm
  have hwalk : walkaddr pt (pgRoundDown dstva) = (pt.leaf (dstva / pgSize)).frame * pgSize := by
    rw [walkaddr_eq, if_pos hu]
  rw [copyoutLoop, if_neg hlen, hwalk, if_neg (mul_ne_zero hf (by decide))]
  simp only [hcow, bind, Except.bind, hwalk, hmod, hnext]
  rw [Nat.mul_div_cancel _ (by decide)]

theorem copyoutLoop_not_user {len : ℕ} (hu : ¬ UserPage (pt.leaf (dstva / pgSize)))
    (hlen : len ≠ 0) :
    copyoutLoop kend (fuel + 1) pt dstva src len m = .ok (false, pt, m) := by
  rw [copyoutLoop, if_neg hlen, walkaddr_eq, if_neg hu, if_pos rfl]

theorem copyoutLoop_zero : copyoutLoop kend fuel pt dstva src 0 m = .ok (true, pt, m) := by
  cases fuel with
  | zero => rfl
  | succ fuel => rw [copyoutLoop, if_pos rfl]

/-- **Copying bytes into the image** takes no memory. -/
theorem Building.copyoutLoop (hk : 0 < kend) (fuel : ℕ) :
    ∀ {m : Phys} {dstva len : ℕ} {src : ℕ → UInt8}, Building kend K U m0 sp m →
      Ensures (copyoutLoop kend fuel sp.pt dstva src len m) E fun r =>
        r.2.1 = sp.pt ∧ Building kend K U m0 sp r.2.2 := by
  induction fuel with
  | zero =>
    intro m dstva len src h
    exact ⟨rfl, h⟩
  | succ fuel ih =>
    intro m dstva len src h
    by_cases hlen : len = 0
    · rw [hlen, copyoutLoop_zero]
      exact ⟨rfl, h⟩
    by_cases hu : UserPage (sp.pt.leaf (dstva / pgSize))
    · have hlt := hu.lt h.top
      rw [copyoutLoop_user hlt hu (h.nocow _ hlt hu.1) (hu.frame_pos h.top h.ok hk) hlen]
      exact ih (h.congr rfl rfl fun f hne => update_of_ne (hne _ hu).symm ..)
    · rw [copyoutLoop_not_user hu hlen]
      exact ⟨rfl, h⟩

theorem pushStrings_spec (hk : 0 < kend) {stackbase : ℕ} (argv : List (List UInt8)) :
    ∀ {m : Phys} {usp : ℕ} {ustack : List ℕ}, Building kend K U m0 sp m →
      Ensures (pushStrings kend stackbase argv usp ustack sp.pt m) E fun r =>
        r.2.1 = sp.pt ∧ Building kend K U m0 sp r.2.2 := by
  induction argv with
  | nil =>
    intro m usp ustack h
    exact ⟨rfl, h⟩
  | cons arg argv ih =>
    intro m usp ustack h
    rw [pushStrings]
    dsimp only
    split_ifs
    · exact ⟨rfl, h⟩
    · exact ⟨rfl, h⟩
    · refine (h.copyoutLoop hk _).bind ?_
      rintro ⟨r, pt1, m1⟩ ⟨rfl, h1⟩
      cases r with
      | false => exact ⟨rfl, h1⟩
      | true => exact ih h1

theorem pushArgs_spec (hk : 0 < kend) {stackbase usp : ℕ} (h : Building kend K U m0 sp m) :
    Ensures (pushArgs kend stackbase argv usp sp.pt m) E fun r =>
      r.2.1 = sp.pt ∧ Building kend K U m0 sp r.2.2 := by
  rw [pushArgs]
  refine (pushStrings_spec hk argv h).bind ?_
  rintro ⟨_ | ⟨usp, ustack⟩, pt1, m1⟩ ⟨rfl, h1⟩
  · exact ⟨rfl, h1⟩
  · dsimp only
    split_ifs
    · exact ⟨rfl, h1⟩
    · exact h1.copyoutLoop hk _

/-- The guard page and the stack page above an image of `sz` bytes: the user can access the second
only, and it is empty. -/
structure Stacked (sz : ℕ) (sp : Space) (m : Phys) : Prop where
  size_eq : sp.sz = npages sz * pgSize + 2 * pgSize
  guard : ¬ UserPage (sp.pt.leaf (npages sz))
  stack : userView m.mem sp.pt.leaf (npages sz + 1) = some (zeroPage pteW)

/-- The first part of `execStack`: the two pages. -/
def execPages (kend : ℕ) (sp : Space) (m : Phys) : Except Panic (Bool × Space × Phys) := do
  let sz := pgRoundUp sp.sz
  let (sz1, pt, m) ← uvmalloc kend sp.pt sz (sz + 2 * pgSize) pteW m
  if sz1 = 0 then return (false, ⟨pt, sz⟩, m)
  else
    let pt ← uvmclear pt (guardPage sz1) m
    return (true, ⟨pt, sz1⟩, m)

theorem execStack_eq (argv : List (List UInt8)) (sp : Space) (m : Phys) :
    execStack kend argv sp m = do
      let (r, sp, m) ← execPages kend sp m
      if r then
        let (r, pt, m) ← pushArgs kend (stackBase sp.sz) argv sp.sz sp.pt m
        return (r, ⟨pt, sp.sz⟩, m)
      else return (false, sp, m) := by
  rw [execStack, execPages, bind_assoc]
  refine congrArg _ (funext fun ⟨sz1, pt, m⟩ => ?_)
  dsimp only
  split_ifs
  · rfl
  · rw [bind_assoc]
    rfl

theorem execPages_spec (h : Building kend K U m0 sp m) :
    Ensures (execPages kend sp m) E fun r => Building kend K U m0 r.2.1 r.2.2 ∧
      (r.1 = true → Stacked sp.sz r.2.1 r.2.2) := by
  rw [execPages, pgRoundUp_eq h.sz_le]
  have hsz := mul_le_trapframeVa (npages_le h.sz_le)
  have hshape : sp.pt.Shaped (npages (npages sp.sz * pgSize)) := by
    rw [npages_mul]
    exact h.shape.user
  refine ((uvmalloc_spec allocPerm_pteW hsz h.top.trapframe (Or.inl hshape) h.ok).and
    (uvmalloc_nocow allocPerm_pteW hsz h.top.trapframe h.nocow)).bind ?_
  rintro ⟨sz1, pt, m1⟩ ⟨⟨hst, hshape1, hr⟩, hnocow⟩
  replace hshape1 := hshape1 hshape
  dsimp only at hst hshape1 hr hnocow ⊢
  split_ifs at hshape1 ⊢ with h0
  · exact ⟨h.step hst hsz hshape1 hnocow, fun hc => by cases hc⟩
  obtain ⟨hmax, hle, hview⟩ := hr.resolve_right fun hz => h0 hz.1
  have hsz1 : sz1 = npages sp.sz * pgSize + 2 * pgSize := by
    rw [hmax]
    exact max_eq_right (Nat.le_add_right _ _)
  have hpage : guardPage sz1 = npages sp.sz * pgSize := by
    unfold guardPage
    omega
  have hdiv : guardPage sz1 / pgSize = npages sp.sz := by
    rw [hpage, Nat.mul_div_cancel _ (by decide)]
  have h1 := h.step hst hle hshape1 hnocow
  -- the guard page is the first of the two new ones
  have hnpages : npages sz1 = npages sp.sz + 2 := by
    rw [hsz1, ← add_mul, npages_mul]
  have hlow : guardPage sz1 < trapframeVa := by
    rw [hpage]
    exact lt_of_lt_of_le (Nat.lt_add_of_pos_right (by decide)) (hsz1.symm.trans_le hle)
  have hguard : (pt.leaf (guardPage sz1 / pgSize)).IsLeaf := hshape1.user _ (by rw [hdiv]; omega)
  refine ((uvmclear_spec hlow (Or.inl hguard) h1.ok).and uvmclear_leaves).bind ?_
  rintro pt2 ⟨⟨hst2, hshape2⟩, hleaf2⟩
  rw [hdiv] at hleaf2
  refine ⟨h1.step hst2 hle (hshape2 _ hshape1) ?_, fun _ => ⟨hsz1, ?_, ?_⟩⟩
  · rw [hleaf2]
    intro v hv hV
    by_cases hvg : v = npages sp.sz
    · subst hvg
      rw [update_self, has_pteV, BitVec.getLsbD_and] at hV
      rw [update_self, has_pteC, BitVec.getLsbD_and, ← has_pteC,
        hnocow _ hv (by rw [has_pteV]; exact (Bool.and_eq_true_iff.mp hV).1), Bool.false_and]
    · rw [update_of_ne hvg] at hV ⊢
      exact hnocow v hv hV
  · rintro ⟨-, hU⟩
    dsimp only at hU
    rw [hleaf2, update_self, has_pteU, BitVec.getLsbD_and, BitVec.getLsbD_not, getLsbD_pteU] at hU
    simp at hU
  · have hlt : npages sp.sz + 1 < userPages := by
      have := npages_le hle
      omega
    dsimp only
    rw [userView_of_lt hlt, hleaf2, update_of_ne (Nat.succ_ne_self _),
      ← userView_of_lt hlt, hview, growView, npages_mul, if_pos]
    rw [← add_mul, npages_mul]
    omega

theorem execStack_spec (hk : 0 < kend) (h : Building kend K U m0 sp m) :
    Ensures (execStack kend argv sp m) E fun r => Building kend K U m0 r.2.1 r.2.2 := by
  rw [execStack_eq]
  refine (execPages_spec h).bind ?_
  rintro ⟨r, sp1, m1⟩ ⟨h1, -⟩
  cases r with
  | false => exact h1
  | true =>
    refine (pushArgs_spec hk h1).bind ?_
    rintro ⟨r, pt2, m2⟩ ⟨rfl, h2⟩
    exact h2

theorem execBuild_spec (hk : 0 < kend) (h : Building kend K U m0 sp m) (hopen : Image.Open sp) :
    Ensures (execBuild kend p argv sp m) E fun r => Building kend K U m0 r.2.1 r.2.2 := by
  rw [execBuild]
  refine (execLoad_spec hk p.proghdrs h hopen).bind ?_
  rintro ⟨r, sp1, m1⟩ h1
  cases r with
  | false => exact h1
  | true => exact execStack_spec hk h1

/-! ## The old image and the new -/

theorem Image.ofOld (h : SpaceOk kend K U old.pt m)
    (hi : Image kend (K + old.pt.tables) (U + leafRefs old.pt.leaf) sp m') :
    SpaceOk kend (K + sp.pt.tables) (U + leafRefs sp.pt.leaf) old.pt m' := by
  refine ⟨?_, fun v hv hV hW => ?_, h.nowc⟩
  · rw [add_right_comm K, add_right_comm U]
    exact hi.ok.acct
  · -- the image shares no page with the old space
    have h1 := h.excl v hv hV hW
    have h2 := hi.fresh (old.pt.leaf v).frame (by rw [h1]; decide)
    simp only [Pi.add_apply] at h1 ⊢
    omega

theorem Image.alone (hi : Image kend (K + old.pt.tables) (U + leafRefs old.pt.leaf) sp m)
    (hA : Acct kend m' (K + sp.pt.tables) (U + leafRefs sp.pt.leaf)) : Image kend K U sp m' := by
  refine ⟨⟨hA, fun v hv hV hW => ?_, hi.ok.nowc⟩, hi.top, hi.shape, hi.sz_le, fun f hf =>
    hi.fresh f ?_⟩
  · have h1 := hi.ok.excl v hv hV hW
    have h2 := leafRefs_ne_zero hv hV
    simp only [Pi.add_apply] at h1 ⊢
    omega
  · simp only [Pi.add_apply]
    omega

theorem Building.start {tramp tf : ℕ} (h : Acct kend m K U) :
    Ensures (procPagetable kend tramp tf m) E fun r =>
      match r.1 with
      | none => Acct kend r.2 K U ∧ ∀ f, K f + U f ≠ 0 → r.2.mem f = m.mem f
      | some pt => Building kend K U m ⟨pt, 0⟩ r.2 ∧ Image.Open ⟨pt, 0⟩ := by
  refine (procPagetable_spec h).mono ?_
  rintro ⟨_ | pt, m1⟩ ⟨hkeep, hr⟩
  · exact ⟨hr, hkeep⟩
  obtain ⟨hok, htop, hs, htopped⟩ := hr
  have hzero : leafRefs pt.leaf = 0 := leafRefs_eq_zero fun v hv => hs.unused v (Nat.zero_le v) hv
  refine ⟨⟨⟨hok, htop, ⟨npages_zero.symm ▸ hs, htopped⟩, Nat.zero_le _, fun f _ => ?_⟩, hkeep,
    fun v hv hV => ?_⟩, fun v hv => absurd (npages_zero ▸ hv : v < 0) (Nat.not_lt_zero v)⟩
  · rw [hzero]
    rfl
  · rw [hs.unused v (Nat.zero_le v) hv] at hV
    cases hV

theorem Building.freeOld (hok : SpaceOk kend K U old.pt m0) (hshape : old.Shaped)
    (hsz : old.sz ≤ trapframeVa)
    (h : Building kend (K + old.pt.tables) (U + leafRefs old.pt.leaf) m0 sp m) :
    Ensures (procFreepagetable kend old.pt old.sz m) E fun m' =>
      Building kend K U m0 sp m' ∧ userView m'.mem sp.pt.leaf = userView m.mem sp.pt.leaf := by
  have hold := Image.ofOld hok h.toImage
  refine (procFreepagetable_spec hsz (Or.inl ⟨hshape.user, hshape.top⟩) hold).mono ?_
  rintro m' ⟨hA, hkeep⟩
  refine ⟨⟨h.toImage.alone hA, fun f hf => ?_, h.nocow⟩, userView_congr fun v hv hV => ?_⟩
  · rw [hkeep f (by simp only [Pi.add_apply]; omega), h.keep f (by simp only [Pi.add_apply]; omega)]
  · have hmine := leafRefs_ne_zero hv hV
    exact hkeep _ (by simp only [Pi.add_apply]; omega)

theorem Building.freeNew (hok : SpaceOk kend K U old.pt m0)
    (h : Building kend (K + old.pt.tables) (U + leafRefs old.pt.leaf) m0 sp m) :
    Ensures (procFreepagetable kend sp.pt sp.sz m) E fun m' => SpaceOk kend K U old.pt m' ∧
      ∀ f, (K + old.pt.tables) f + (U + leafRefs old.pt.leaf) f ≠ 0 → m'.mem f = m0.mem f := by
  refine (procFreepagetable_spec h.sz_le (Or.inl ⟨h.shape.user, h.shape.top⟩) h.ok).mono ?_
  rintro m' ⟨hA, hkeep⟩
  exact ⟨⟨hA, hok.excl, hok.nowc⟩, fun f hf => (hkeep f hf).trans (h.keep f hf)⟩

/-- What `exec` leaves in the memory: the new image, or everything as it was. -/
def ExecDone (kend : ℕ) (K U : ℕ → ℕ) (old : Space) (m : Phys) (r : Bool × Space × Phys) : Prop :=
  if r.1 = true then Building kend K U m r.2.1 r.2.2
  else r.2.1 = old ∧ SpaceOk kend K U old.pt r.2.2 ∧
    ∀ f, (K + old.pt.tables) f + (U + leafRefs old.pt.leaf) f ≠ 0 → r.2.2.mem f = m.mem f

/-- **`exec`**: on success the process has the new image and the old one is freed; on failure it is
the other way round. It never panics. -/
theorem exec_spec {tramp tf : ℕ} (hk : 0 < kend) (h : SpaceOk kend K U old.pt m)
    (hshape : old.Shaped) (hsz : old.sz ≤ trapframeVa) :
    Ensures (exec kend tramp p tf argv old m) E (ExecDone kend K U old m) := by
  rw [exec]
  split_ifs
  · exact ⟨rfl, h, fun _ _ => rfl⟩
  refine (Building.start h.acct).bind ?_
  rintro ⟨_ | pt, m1⟩ hr
  · exact ⟨rfl, ⟨hr.1, h.excl, h.nowc⟩, hr.2⟩
  refine (execBuild_spec hk hr.1 hr.2).bind ?_
  rintro ⟨r, new, m2⟩ h2
  cases r with
  | true =>
    refine (h2.freeOld h hshape hsz).bind ?_
    rintro m3 ⟨h3, -⟩
    exact h3
  | false =>
    refine (h2.freeNew h).bind ?_
    rintro m3 ⟨hok, hkeep⟩
    exact ⟨rfl, hok, hkeep⟩

end Image

theorem Inv.replace {ι : Type} [Fintype ι] [DecidableEq ι] {L : Layout} {s : Sys ι} {i : ι}
    {new : Space} {m : Phys} (h : Inv L s)
    (hnew : Image L.kend (s.without i).kernelRefs (s.without i).userRefs new m) :
    Inv L (s.put i (some new) m) := by
  refine ⟨?_, fun j spj hj => ?_⟩
  · rw [Sys.kernelRefs_put_some, Sys.userRefs_put_some]
    exact hnew.ok.acct
  · rw [Sys.userRefs_put_some]
    by_cases hij : j = i
    · subst hij
      obtain rfl : new = spj := by simpa using hj
      exact ⟨hnew.sz_le, hnew.top, hnew.ok.excl, hnew.ok.nowc⟩
    · rw [Sys.put_spaces_of_ne s hij] at hj
      exact h.excl_other hij hj fun f hf _ => hnew.fresh f hf

/-- **`exec`** keeps every invariant of the memory. -/
theorem Sys.exec_spec {ι : Type} [Fintype ι] [DecidableEq ι] {L : Layout} {s : Sys ι} {i : ι}
    {E : Panic → Prop} {tf : ℕ} {p : Program} {argv : List (List UInt8)} (hs : s.Shaped)
    (h : Inv L s) :
    Ensures (s.exec L i tf p argv) E fun r => Inv L r.2 ∧ r.2.Shaped ∧ s.Kept r.2 := by
  have hk := L.kend_pos
  rw [Sys.exec, Sys.onSpace]
  cases hi : s.spaces i with
  | none => exact ⟨h, hs, .refl s⟩
  | some old =>
    have hok := h.spaceOk hi
    have hsp := h.spaces i old hi
    refine (Xv6.exec_spec hk hok (hs i old hi) hsp.sz_le).bind ?_
    rintro ⟨r, new, m'⟩ hr
    dsimp only at hr ⊢
    have hkept := Sys.Kept.put (s := s) (i := i) (by rw [hi]; rfl) new m'
    cases r with
    | false =>
      obtain ⟨rfl, hok', -⟩ := hr
      exact ⟨h.move hi ⟨hok', fun _ _ h0 => h0, fun _ _ => rfl⟩ hsp.sz_le,
        hs.put (hs i new hi) m', hkept⟩
    | true =>
      replace hr : Building L.kend (s.without i).kernelRefs (s.without i).userRefs s.phys new m' :=
        hr
      exact ⟨h.replace hr.toImage, hs.put hr.shape m', hkept⟩

end Xv6
