import Xv6.Mem.PageTable

/-!
# User address spaces

The user half of `kernel/vm.c`, with `proc_pagetable`, `proc_freepagetable` and `growproc` of
`kernel/proc.c`, `flags2perm` of `kernel/exec.c`, and the page-fault branch of `usertrap` in
`kernel/trap.c`. `kend` is the linker's `end`, and `tramp` the frame of the trampoline code.
Results `-1` and `0` are `false` and `none`; a size is returned as in the source.
-/

namespace Xv6

section Tables

variable (kend tramp : ℕ)

/-- `uvmcreate`: an empty user page table. -/
def uvmcreate (m : Phys) : Except Panic (Option PageTable × Phys) := do
  let (page, m) ← kalloc m
  match page with
  | none => return (none, m)
  | some root => return (some ⟨root, Table.zero 2⟩, m.memset root 0)

/-- `uvmfree`: free the user pages below `sz`, then the page-table pages. -/
def uvmfree (pt : PageTable) (sz : ℕ) (m : Phys) : Except Panic Phys := do
  let (pt, m) ←
    if 0 < sz then uvmunmap kend pt 0 (pgRoundUp sz / pgSize) true m else .ok (pt, m)
  freewalk kend 2 pt.root pt.tab m

/-- `proc_pagetable`: an address space with only the trampoline and the trapframe page `tf`. -/
def procPagetable (tf : ℕ) (m : Phys) : Except Panic (Option PageTable × Phys) := do
  let (pt, m) ← uvmcreate m
  match pt with
  | none => return (none, m)
  | some pt =>
    let (r, pt, m) ← mappages pt trampolineVa pgSize (tramp * pgSize) (pteR ||| pteX) m
    if r = false then
      let m ← uvmfree kend pt 0 m
      return (none, m)
    else
      let (r, pt, m) ← mappages pt trapframeVa pgSize (tf * pgSize) (pteR ||| pteW) m
      if r = false then
        let (pt, m) ← uvmunmap kend pt trampolineVa 1 false m
        let m ← uvmfree kend pt 0 m
        return (none, m)
      else
        return (some pt, m)

/-- `proc_freepagetable`: free an address space of `sz` bytes. -/
def procFreepagetable (pt : PageTable) (sz : ℕ) (m : Phys) : Except Panic Phys := do
  let (pt, m) ← uvmunmap kend pt trampolineVa 1 false m
  let (pt, m) ← uvmunmap kend pt trapframeVa 1 false m
  uvmfree kend pt sz m

/-- `uvmdealloc`: shrink from `oldsz` to `newsz` bytes; the number of pages fits an `int`. -/
def uvmdealloc (pt : PageTable) (oldsz newsz : ℕ) (m : Phys) :
    Except Panic (ℕ × PageTable × Phys) :=
  if oldsz ≤ newsz then .ok (oldsz, pt, m)
  else if pgRoundUp newsz < pgRoundUp oldsz then do
    let npages := (pgRoundUp oldsz - pgRoundUp newsz) / pgSize
    let (pt, m) ← uvmunmap kend pt (pgRoundUp newsz) npages true m
    return (newsz, pt, m)
  else .ok (newsz, pt, m)

/-- The loop of `uvmalloc`, over the `n` pages from `a` on. -/
def uvmallocLoop (oldsz newsz : ℕ) (xperm : Pte) :
    (n a : ℕ) → PageTable → Phys → Except Panic (ℕ × PageTable × Phys)
  | 0, _, pt, m => .ok (newsz, pt, m)
  | n + 1, a, pt, m => do
    let (page, m) ← kalloc m
    match page with
    | none =>
      let (_, pt, m) ← uvmdealloc kend pt a oldsz m
      return (0, pt, m)
    | some mem =>
      let (r, pt, m) ←
        mappages pt a pgSize (mem * pgSize) (pteR ||| pteU ||| xperm) (m.memset mem 0)
      if r = false then
        let m ← kfree kend (mem * pgSize) m
        let (_, pt, m) ← uvmdealloc kend pt a oldsz m
        return (0, pt, m)
      else
        uvmallocLoop oldsz newsz xperm n (a + pgSize) pt m

/-- `uvmalloc`: grow from `oldsz` to `newsz` bytes with zeroed pages; `0` on failure. -/
def uvmalloc (pt : PageTable) (oldsz newsz : ℕ) (xperm : Pte) (m : Phys) :
    Except Panic (ℕ × PageTable × Phys) :=
  if newsz < oldsz then .ok (oldsz, pt, m)
  else
    let oldsz := pgRoundUp oldsz
    uvmallocLoop kend oldsz newsz xperm ((newsz - oldsz + (pgSize - 1)) / pgSize) oldsz pt m

/-- `flags2perm` of `exec`: the permissions of an ELF segment with these flags. -/
def flags2perm (flags : ℕ) : Pte :=
  let perm := if flags.testBit 0 then pteX else 0#64
  if flags.testBit 1 then perm ||| pteW else perm

/-- `growproc`, on the size `sz` of the current process: the new size, or `none` for `-1`. -/
def growproc (pt : PageTable) (sz : ℕ) (n : ℤ) (m : Phys) :
    Except Panic (Option ℕ × PageTable × Phys) :=
  if 0 < n then do
    let (sz', pt, m) ← uvmalloc kend pt sz (sz + n.toNat) pteW m
    return (if sz' = 0 then none else some sz', pt, m)
  else if n < 0 then do
    let (sz', pt, m) ← uvmdealloc kend pt sz ((sz + n) % 2 ^ 64).toNat m
    return (some sz', pt, m)
  else .ok (some sz, pt, m)

/-- `uvmclear`: make a page inaccessible to the user. -/
def uvmclear (pt : PageTable) (va : ℕ) (m : Phys) : Except Panic PageTable := do
  let (r, pt, _) ← pt.walk va false m
  if r = false then .error .uvmclear
  else return pt.setPte va (pt.pte va &&& ~~~pteU)

/-- The loop of `uvmcopy`, over `n` pages from `i` on; on failure also the address it stopped
at. -/
def uvmcopyLoop : (n i : ℕ) → (old new : PageTable) → Phys →
    Except Panic (Option ℕ × PageTable × PageTable × Phys)
  | 0, _, old, new, m => .ok (none, old, new, m)
  | n + 1, i, old, new, m => do
    let (r, old, m) ← old.walk i false m
    if r = false then .error .uvmcopyPte
    else if (old.pte i).has pteV = false then .error .uvmcopyPresent
    else
      let pa := pte2pa (old.pte i)
      let writable := (old.pte i).has pteW
      let flags := if writable then (pteFlags (old.pte i)).share else pteFlags (old.pte i)
      let old := if writable then old.setPte i (old.pte i).share else old
      let (r, new, m) ← mappages new i pgSize pa flags m
      if r = false then return (some i, old, new, m)
      else
        let m ← incpgrc pa m
        uvmcopyLoop n (i + pgSize) old new m

/-- `uvmcopy`: share the pages of `old` below `sz` with `new`, copy on write. -/
def uvmcopy (old new : PageTable) (sz : ℕ) (m : Phys) :
    Except Panic (Bool × PageTable × PageTable × Phys) := do
  let (err, old, new, m) ← uvmcopyLoop ((sz + (pgSize - 1)) / pgSize) 0 old new m
  match err with
  | none => return (true, old, new, m)
  | some i =>
    let (new, m) ← uvmunmap kend new 0 (i / pgSize) true m
    return (false, old, new, m)

end Tables

/-- `memmove` of `n` bytes from `src` to offset `off` of the page `f`. -/
def Phys.memmove (m : Phys) (f off n : ℕ) (src : ℕ → UInt8) : Phys :=
  { m with mem := Function.update m.mem f fun i =>
      if off ≤ i.val ∧ i.val < off + n then src (i.val - off) else m.mem f i }

/-- `memmove(mem, pa, PGSIZE)`: copy a whole page. -/
def Phys.copyPage (m : Phys) (dst src : ℕ) : Phys :=
  { m with mem := Function.update m.mem dst (m.mem src) }

/-- The copy-on-write branch that `usertrap` and `copyout` share: replace the page of `va` by a
private writable copy. `none` when `kalloc` fails. -/
def cowCopy (kend : ℕ) (pt : PageTable) (va : ℕ) (m : Phys) :
    Except Panic (Option (PageTable × Phys)) := do
  let pa := pte2pa (pt.pte va)
  let flags := (pteFlags (pt.pte va)).unshare
  let (page, m) ← kalloc m
  match page with
  | none => return none
  | some mem =>
    let m := m.copyPage mem (pa / pgSize)
    let pt := pt.setPte va (pa2pte (mem * pgSize) ||| flags)
    let m ← kfree kend pa m
    return some (pt, m)

/-- `usertrap` on a load or store page fault (`scause` 13 or 15) at `va`, with user stack pointer
`sp`. `true`: the process is killed. -/
def usertrapFault (kend sp va : ℕ) (pt : PageTable) (m : Phys) :
    Except Panic (Bool × PageTable × Phys) :=
  if maxVa ≤ va ∨ ((pgRoundDown sp + 2 ^ 64 - pgSize) % 2 ^ 64 ≤ va ∧ va ≤ pgRoundDown sp) then
    .ok (true, pt, m)
  else do
    let va := pgRoundDown va
    let (r, pt, m) ← pt.walk va false m
    if r = false then return (true, pt, m)
    else if (pt.pte va).has pteV = false then return (true, pt, m)
    else if (pt.pte va).has pteU = false then return (true, pt, m)
    else if (pt.pte va).has pteC then
      match ← cowCopy kend pt va m with
      | none => return (true, pt, m)
      | some (pt, m) => return (false, pt, m)
    else return (true, pt, m)

/-- `walkaddr`: the physical address of a user page, `0` if the user cannot access it. -/
def walkaddr (pt : PageTable) (va : ℕ) : ℕ :=
  if maxVa ≤ va then 0
  else if pt.mapped va = false then 0
  else if (pt.pte va).has pteV = false then 0
  else if (pt.pte va).has pteU = false then 0
  else pte2pa (pt.pte va)

/-- The copy-on-write branch of `copyout`, on the page at `va0`. When `kalloc` fails the source
goes on to copy to address 0, where the kernel faults. -/
def copyoutCow (kend : ℕ) (pt : PageTable) (va0 : ℕ) (m : Phys) : Except Panic (PageTable × Phys) :=
  if (pteFlags (pt.pte va0)).has pteC then do
    match ← cowCopy kend pt va0 m with
    | none => .error .kerneltrap
    | some r => return r
  else .ok (pt, m)

/-- The loop of `copyout`; each round copies at least one byte, so `fuel` at least `len` is
enough. -/
def copyoutLoop (kend : ℕ) : (fuel : ℕ) → PageTable → (dstva : ℕ) → (src : ℕ → UInt8) →
    (len : ℕ) → Phys → Except Panic (Bool × PageTable × Phys)
  | 0, pt, _, _, _, m => .ok (true, pt, m)
  | fuel + 1, pt, dstva, src, len, m =>
    if len = 0 then .ok (true, pt, m)
    else if walkaddr pt (pgRoundDown dstva) = 0 then .ok (false, pt, m)
    else do
      let va0 := pgRoundDown dstva
      let (pt, m) ← copyoutCow kend pt va0 m
      let pa0 := walkaddr pt va0
      let n := min (pgSize - (dstva - va0)) len
      let m := m.memmove (pa0 / pgSize) (dstva - va0) n src
      copyoutLoop kend fuel pt (va0 + pgSize) (fun i => src (i + n)) (len - n) m

/-- `copyout`: copy `len` bytes from `src` to the user address `dstva`; `false` is `-1`. -/
def copyout (kend : ℕ) (pt : PageTable) (dstva : ℕ) (src : ℕ → UInt8) (len : ℕ) (m : Phys) :
    Except Panic (Bool × PageTable × Phys) :=
  copyoutLoop kend len pt dstva src len m

/-- The `n` bytes from offset `off` of the page `f`. -/
def Phys.bytes (m : Phys) (f off n : ℕ) : List UInt8 :=
  (List.range n).map fun k => m.mem f ⟨(off + k) % pgSize, Nat.mod_lt _ (by decide)⟩

/-- The loop of `copyin`, with what it has written to `dst` so far. -/
def copyinLoop (pt : PageTable) (m : Phys) : (fuel srcva len : ℕ) → List UInt8 → Bool × List UInt8
  | 0, _, _, dst => (true, dst)
  | fuel + 1, srcva, len, dst =>
    if len = 0 then (true, dst)
    else
      let va0 := pgRoundDown srcva
      let pa0 := walkaddr pt va0
      if pa0 = 0 then (false, dst)
      else
        let n := min (pgSize - (srcva - va0)) len
        copyinLoop pt m fuel (va0 + pgSize) (len - n)
          (dst ++ m.bytes (pa0 / pgSize) (srcva - va0) n)

/-- `copyin`: copy `len` bytes from the user address `srcva`; `false` is `-1`. -/
def copyin (pt : PageTable) (srcva len : ℕ) (m : Phys) : Bool × List UInt8 :=
  copyinLoop pt m len srcva len []

/-- The inner loop of `copyinstr`, over the bytes of one page: what it copies, and whether it has
found the end of the string. -/
def copyUntilNul : List UInt8 → List UInt8 × Bool
  | [] => ([], false)
  | b :: bs =>
    if b = 0 then ([0], true)
    else
      let (dst, gotNull) := copyUntilNul bs
      (b :: dst, gotNull)

def copyinstrLoop (pt : PageTable) (m : Phys) :
    (fuel srcva max : ℕ) → List UInt8 → Bool × List UInt8
  | 0, _, _, dst => (false, dst)
  | fuel + 1, srcva, max, dst =>
    if max = 0 then (false, dst)
    else
      let va0 := pgRoundDown srcva
      let pa0 := walkaddr pt va0
      if pa0 = 0 then (false, dst)
      else
        let n := min (pgSize - (srcva - va0)) max
        let (part, gotNull) := copyUntilNul (m.bytes (pa0 / pgSize) (srcva - va0) n)
        if gotNull then (true, dst ++ part)
        else copyinstrLoop pt m fuel (va0 + pgSize) (max - n) (dst ++ part)

/-- `copyinstr`: copy a string of at most `max` bytes, with its end, from the user address `srcva`;
`false` is `-1`. -/
def copyinstr (pt : PageTable) (srcva max : ℕ) (m : Phys) : Bool × List UInt8 :=
  copyinstrLoop pt m max srcva max []

end Xv6
