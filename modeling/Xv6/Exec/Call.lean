import Xv6.Exec.Elf
import Xv6.Exec.Stack
import Xv6.Lib.Runs
import Xv6.Mem.Copyin

/-!
# The system call `exec`

`exec` of `kernel/exec.c` and `sys_exec` of `kernel/sysfile.c`, with what they hold while they run:
an operation of the log, a reference to the inode of the program file and its lock, the pages of the
new image, and a page for each argument. At a successful end all of these are given up but the new
image; at a failure that too. Path lookup is a parameter: the inode that `namei` finds, unless it
panics.
-/

namespace Xv6

open Function List

abbrev maxPath : ℕ := 128

/-- `struct trapframe`, with the fields that `exec` and `syscall` use. -/
structure Trapframe where
  epc : ℕ
  sp : ℕ
  a0 : ℕ
  a1 : ℕ

/-- What a process holds of the file system: operations of the log, references to inodes, and
locks of inodes. -/
structure FileUse where
  ops : ℕ
  refs : ℕ → ℕ
  locks : ℕ → Bool

/-- The calling process: its memory, its trapframe, its name and what it holds of the file system;
and the physical memory. -/
structure Caller where
  space : Space
  tf : Trapframe
  name : List UInt8
  use : FileUse
  phys : Phys

/-- The panics on the way of `exec`: those of the memory code, those of `ilock` and `iunlock`, and
three misuses that the source does not notice: to wait for a lock that one holds, to drop a
reference or to end an operation that one does not have. -/
inductive ExecPanic
  | mem (e : Panic)
  | ilock
  | iunlock
  | deadlock
  | iput
  | endOp

abbrev ExecM (α : Type) := StateT Caller (Except ExecPanic) α

namespace Caller

/-! ### The file system -/

/-- A change of what the process holds of the file system. -/
def modifyUse (f : FileUse → FileUse) : ExecM Unit := modify fun k => { k with use := f k.use }

def beginOp : ExecM Unit := modifyUse fun u => { u with ops := u.ops + 1 }

def endOp : ExecM Unit := do
  let k ← get
  if k.use.ops = 0 then throw .endOp
  else modifyUse fun u => { u with ops := u.ops - 1 }

/-- `namei`: a reference to the inode that the lookup finds. -/
def namei (lookup : List UInt8 → Option ℕ) (path : List UInt8) : ExecM (Option ℕ) :=
  match lookup path with
  | none => pure none
  | some ip => do
    modifyUse fun u => { u with refs := update u.refs ip (u.refs ip + 1) }
    pure (some ip)

def ilock (ip : ℕ) : ExecM Unit := do
  let k ← get
  if k.use.refs ip = 0 then throw .ilock
  else if k.use.locks ip then throw .deadlock
  else modifyUse fun u => { u with locks := update u.locks ip true }

def iunlock (ip : ℕ) : ExecM Unit := do
  let k ← get
  if k.use.locks ip = false ∨ k.use.refs ip = 0 then throw .iunlock
  else modifyUse fun u => { u with locks := update u.locks ip false }

def iput (ip : ℕ) : ExecM Unit := do
  let k ← get
  if k.use.refs ip = 0 then throw .iput
  else modifyUse fun u => { u with refs := update u.refs ip (u.refs ip - 1) }

/-- `iunlockput`, and `end_op` after it. -/
def release (ip : ℕ) : ExecM Unit := do
  iunlock ip
  iput ip
  endOp

/-! ### `exec` -/

def runPhys {α : Type} (f : Phys → Except Panic (α × Phys)) : ExecM α := fun k =>
  match f k.phys with
  | .error e => .error (.mem e)
  | .ok (a, m) => .ok (a, { k with phys := m })

/-- A part of the construction of the image `sp`. -/
def build {α : Type} (f : Space → Phys → Except Panic (α × Space × Phys)) (sp : Space) :
    ExecM (α × Space) :=
  runPhys fun m => do
    let (a, sp, m) ← f sp m
    return ((a, sp), m)

/-- `proc_freepagetable`. -/
def free (L : Layout) (sp : Space) : ExecM Unit :=
  runPhys fun m => do
    let m ← procFreepagetable L.kend sp.pt sp.sz m
    return ((), m)

/-- The label `bad` of `exec`, with the image that has been made and the inode that is held. -/
def bad (L : Layout) (new : Option Space) (ip : Option ℕ) : ExecM ℤ := do
  match new with
  | none => pure ()
  | some sp => free L sp
  match ip with
  | none => pure ()
  | some ip => release ip
  pure (-1)

/-- The part of a path behind its last slash, cut to the size of `p->name`. -/
def lastName (path : List UInt8) : List UInt8 :=
  ((path.reverse.takeWhile (· ≠ '/'.toUInt8)).reverse).take 15

/-- The end of `exec`: the process goes over to the new image. -/
def commit (L : Layout) (path : List UInt8) (entry argc sp : ℕ) (new : Space) : ExecM ℤ := do
  let p ← get
  modify fun k => { k with
    space := new
    tf := { k.tf with a1 := sp, epc := entry, sp := sp }
    name := lastName path }
  free L p.space
  pure argc

/-- `exec`, for a process with the trapframe page `tf`. -/
def exec (L : Layout) (lookup : List UInt8 → Option ℕ) (file : ℕ → Fs.File) (tf : ℕ)
    (path : List UInt8) (argv : List (List UInt8)) : ExecM ℤ := do
  beginOp
  match ← namei lookup path with
  | none => do
    endOp
    pure (-1)
  | some ip => do
    ilock ip
    let p := Program.ofFile (file ip)
    if p.elf = false then bad L none (some ip)
    else
      match ← runPhys (procPagetable L.kend L.tramp tf) with
      | none => bad L none (some ip)
      | some pt => do
        let (r, new) ← build (execLoad L.kend p p.proghdrs) ⟨pt, 0⟩
        if r = false then bad L (some new) (some ip)
        else do
          release ip
          let (r, new) ← build (execStackTo L.kend argv) new
          match r with
          | none => bad L (some new) none
          | some (argc, sp) => commit L path (elfhdr (file ip)).entry argc sp new

/-! ### `sys_exec` -/

/-- `fetchaddr`: the 64-bit number at a user address. -/
def fetchaddr (addr : ℕ) : ExecM (Option ℕ) := do
  let k ← get
  if k.space.sz ≤ addr ∨ k.space.sz < (addr + 8) % 2 ^ 64 then pure none
  else
    let (ok, bytes) := copyin k.space.pt addr 8 k.phys
    pure (if ok then some (leAt (fun j => bytes.getD j 0) 0 8) else none)

/-- `fetchstr`: whether it succeeds, and what it copies, with the end of the string. -/
def fetchstr (addr max : ℕ) : ExecM (Bool × List UInt8) := do
  let k ← get
  pure (copyinstr k.space.pt addr max k.phys)

/-- The loop of `sys_exec` that fetches the arguments, with the pages and the strings it has;
`false` is `goto bad`. -/
def fetchArgs (uargv : ℕ) : (fuel : ℕ) → (argv : List (ℕ × List UInt8)) →
    ExecM (Bool × List (ℕ × List UInt8))
  | 0, argv => pure (false, argv)
  | fuel + 1, argv => do
    match ← fetchaddr ((uargv + 8 * argv.length) % 2 ^ 64) with
    | none => pure (false, argv)
    | some 0 => pure (true, argv)
    | some (uarg + 1) =>
      match ← runPhys kalloc with
      | none => pure (false, argv)
      | some page => do
        let (ok, bytes) ← fetchstr (uarg + 1) pgSize
        modify fun k =>
          { k with phys := k.phys.memmove page 0 bytes.length fun j => bytes.getD j 0 }
        if ok then fetchArgs uargv fuel (argv ++ [(page, bytes.dropLast)])
        else pure (false, argv ++ [(page, [])])

/-- The loop of `sys_exec` that frees the arguments. -/
def freeArgs (L : Layout) : List (ℕ × List UInt8) → ExecM Unit
  | [] => pure ()
  | (page, _) :: argv => do
    runPhys fun m => do
      let m ← kfree L.kend (page * pgSize) m
      return ((), m)
    freeArgs L argv

def sysExec (L : Layout) (lookup : List UInt8 → Option ℕ) (file : ℕ → Fs.File) (tf : ℕ) :
    ExecM ℤ := do
  let k ← get
  match ← fetchstr k.tf.a0 maxPath with
  | (false, _) => pure (-1)
  | (true, path) => do
    let (ok, argv) ← fetchArgs k.tf.a1 maxArg []
    if ok then do
      let ret ← exec L lookup file tf path.dropLast (argv.map Prod.snd)
      freeArgs L argv
      pure ret
    else do
      freeArgs L argv
      pure (-1)

/-- The end of `syscall`: the result goes to `a0`. -/
def syscall (call : ExecM ℤ) : ExecM Unit := do
  let r ← call
  modify fun k => { k with tf := { k.tf with a0 := (r % 2 ^ 64).toNat } }

/-! ### What is held -/

section Rules

variable {α β : Type} {k : Caller} {E : ExecPanic → Prop} {ip : ℕ}

/-- What is held while the file is open: one more operation, one more reference, and the lock. -/
def opened (u : FileUse) (ip : ℕ) : FileUse :=
  ⟨u.ops + 1, update u.refs ip (u.refs ip + 1), update u.locks ip true⟩

theorem runPhys_spec {f : Phys → Except Panic (α × Phys)} {Q : α × Phys → Prop}
    (h : Ensures (f k.phys) (fun e => E (.mem e)) Q) :
    Runs (runPhys f) k E fun a k' => ∃ m, k' = { k with phys := m } ∧ Q (a, m) := by
  rw [Runs, runPhys]
  cases hf : f k.phys with
  | error e => exact h.of_error hf
  | ok r => exact ⟨r.2, rfl, h.of_ok hf⟩

theorem build_spec {f : Space → Phys → Except Panic (α × Space × Phys)} {sp : Space}
    {Q : α × Space × Phys → Prop} (h : Ensures (f sp k.phys) (fun e => E (.mem e)) Q) :
    Runs (build f sp) k E fun r k' => ∃ m, k' = { k with phys := m } ∧ Q (r.1, r.2, m) := by
  refine (runPhys_spec (Q := fun r => Q (r.1.1, r.1.2, r.2)) ?_).mono fun _ _ hr => hr
  exact h.bind fun _ hr => hr

theorem free_spec {L : Layout} {sp : Space} {Q : Phys → Prop}
    (h : Ensures (procFreepagetable L.kend sp.pt sp.sz k.phys) (fun e => E (.mem e)) Q) :
    Runs (free L sp) k E fun _ k' => ∃ m, k' = { k with phys := m } ∧ Q m := by
  refine (runPhys_spec (Q := fun r => Q r.2) ?_).mono fun _ _ hr => hr
  exact h.bind fun _ hr => hr

theorem release_spec {u : FileUse} (hu : k.use = opened u ip) (hlock : u.locks ip = false) :
    Runs (release ip) k E fun _ k' => k' = { k with use := u } := by
  obtain ⟨space, tf, name, use, phys⟩ := k
  obtain rfl : use = opened u ip := hu
  rw [release, iunlock, opened]
  simp only [bind_assoc, Runs.get_bind, update_self]
  rw [if_neg (by simp), modifyUse, Runs.modify_bind, iput]
  simp only [bind_assoc, Runs.get_bind, update_self]
  rw [if_neg (Nat.succ_ne_zero _), modifyUse, Runs.modify_bind, endOp, Runs.get_bind,
    if_neg (Nat.succ_ne_zero _), modifyUse, Runs.modify_iff]
  dsimp only
  rw [update_idem, update_idem, update_self, Nat.add_sub_cancel,
    Nat.add_sub_cancel, update_eq_self, ← hlock, update_eq_self]

theorem bad_spec {L : Layout} {new : Option Space} {o : Option ℕ} {u : FileUse} {Q : Phys → Prop}
    (huse : ∀ ip, o = some ip → k.use = opened u ip ∧ u.locks ip = false)
    (hnone : o = none → k.use = u) (hQ : new = none → Q k.phys)
    (hfree : ∀ sp, new = some sp →
      Ensures (procFreepagetable L.kend sp.pt sp.sz k.phys) (fun e => E (.mem e)) Q) :
    Runs (bad L new o) k E fun r k' => r = -1 ∧ ∃ m, k' = { k with use := u, phys := m } ∧ Q m := by
  have hrest : ∀ m, Q m → Runs (do
      match o with
      | none => pure ()
      | some ip => release ip
      pure (-1)) { k with phys := m } E
        fun r k' => r = -1 ∧ ∃ m, k' = { k with use := u, phys := m } ∧ Q m := by
    intro m hm
    cases o with
    | none => exact ⟨rfl, m, by rw [← hnone rfl], hm⟩
    | some ip =>
      obtain ⟨hu, hlock⟩ := huse ip rfl
      refine (release_spec (k := { k with phys := m }) hu hlock).bind ?_
      rintro _ _ rfl
      exact ⟨rfl, m, rfl, hm⟩
  unfold bad
  cases new with
  | none => exact hrest k.phys (hQ rfl)
  | some sp =>
    refine (free_spec (hfree sp rfl)).bind ?_
    rintro _ _ ⟨m, rfl, hm⟩
    exact hrest m hm

end Rules

/-! ### What `exec` leaves -/

section Spec

variable {L : Layout} {lookup : List UInt8 → Option ℕ} {file : ℕ → Fs.File} {tf : ℕ}
  {path : List UInt8} {argv : List (List UInt8)} {K U : ℕ → ℕ} {k k' : Caller}
  {E : ExecPanic → Prop}

/-- Nothing has happened to the process; every page that was in use has its contents still, and no
other page is in use. -/
structure Unchanged (kend : ℕ) (K U : ℕ → ℕ) (k k' : Caller) : Prop where
  space : k'.space = k.space
  tf : k'.tf = k.tf
  name : k'.name = k.name
  ok : SpaceOk kend K U k.space.pt k'.phys
  keep : ∀ f, (K + k.space.pt.tables) f + (U + leafRefs k.space.pt.leaf) f ≠ 0 →
    k'.phys.mem f = k.phys.mem f

/-- The process has a new image, with the arguments on its stack, and the old one is not in use any
more. -/
structure Started (kend : ℕ) (K U : ℕ → ℕ) (argv : List (List UInt8)) (k k' : Caller) : Prop where
  image : Building kend K U k.phys k'.space k'.phys
  a0 : k'.tf.a0 = k.tf.a0
  a1 : k'.tf.a1 = k'.tf.sp
  fits : argsSize argv ≤ pgSize
  room : 2 * pgSize ≤ k'.space.sz
  whole : k'.space.sz % pgSize = 0
  guard : ¬ UserPage (k'.space.pt.leaf (guardPage k'.space.sz / pgSize))
  stack : UserPage (k'.space.pt.leaf (stackBase k'.space.sz / pgSize))
  args : ∃ addrs, ArgStack (viewByte (userView k'.phys.mem k'.space.pt.leaf))
    (stackBase k'.space.sz) k'.space.sz argv addrs k'.tf.sp

/-- The ends of `exec`. -/
def Outcome (kend : ℕ) (K U : ℕ → ℕ) (argv : List (List UInt8)) (k : Caller) (r : ℤ) (k' : Caller) :
    Prop :=
  k'.use = k.use ∧ (r = -1 ∧ Unchanged kend K U k k' ∨ r = argv.length ∧ Started kend K U argv k k')

theorem ilock_spec {u : FileUse} {ip : ℕ} (hu : k.use = { opened u ip with locks := u.locks })
    (hlock : u.locks ip = false) :
    Runs (ilock ip) k E fun _ k' => k' = { k with use := opened u ip } := by
  have href : k.use.refs ip ≠ 0 := by
    rw [hu]
    change update u.refs ip (u.refs ip + 1) ip ≠ 0
    rw [update_self]
    exact Nat.succ_ne_zero _
  have hfree : ¬ k.use.locks ip = true := by
    rw [hu]
    exact Bool.eq_false_iff.mp hlock
  rw [ilock, Runs.get_bind, if_neg href, if_neg hfree, modifyUse, Runs.modify_iff, hu]
  rfl

/-- **`exec`**, for all files and arguments: it never panics, and it has one of the two ends. -/
theorem exec_spec (lookup : List UInt8 → Option ℕ) (file : ℕ → Fs.File) (tf : ℕ)
    (path : List UInt8) (hk : 0 < L.kend) (h : SpaceOk L.kend K U k.space.pt k.phys)
    (hshape : k.space.Shaped) (hsz : k.space.sz ≤ trapframeVa)
    (hlocks : ∀ ip, k.use.locks ip = false) (hcount : argv.length ≤ maxArg)
    (hlens : ∀ arg ∈ argv, arg.length < 2 ^ 63) :
    Runs (exec L lookup file tf path argv) k E (Outcome L.kend K U argv k) := by
  -- what is left of the memory by a failure
  let Same (m : Phys) : Prop := SpaceOk L.kend K U k.space.pt m ∧
    ∀ f, (K + k.space.pt.tables) f + (U + leafRefs k.space.pt.leaf) f ≠ 0 → m.mem f = k.phys.mem f
  have hfail : ∀ {new : Option Space} {o : Option ℕ} {k1 : Caller},
      (∃ use m, k1 = { k with use := use, phys := m }) →
      (∀ ip, o = some ip → k1.use = opened k.use ip) → (o = none → k1.use = k.use) →
      (new = none → Same k1.phys) →
      (∀ sp, new = some sp →
        Ensures (procFreepagetable L.kend sp.pt sp.sz k1.phys) (fun e => E (.mem e)) Same) →
      Runs (bad L new o) k1 E (Outcome L.kend K U argv k) := by
    rintro new o _ ⟨use, m, rfl⟩ hsome hnone hm hfree
    refine (bad_spec (fun ip ho => ⟨hsome ip ho, hlocks ip⟩) hnone hm hfree).mono ?_
    rintro r _ ⟨rfl, m, rfl, hok, hkeep⟩
    exact ⟨rfl, Or.inl ⟨rfl, rfl, rfl, rfl, hok, hkeep⟩⟩
  unfold exec
  rw [beginOp, modifyUse, Runs.modify_bind, namei]
  cases hip : lookup path with
  | none =>
    rw [Runs.pure_bind, endOp, bind_assoc, Runs.get_bind, if_neg (Nat.succ_ne_zero _), modifyUse,
      Runs.modify_bind]
    exact ⟨rfl, Or.inl ⟨rfl, rfl, rfl, rfl, h, fun _ _ => rfl⟩⟩
  | some ip =>
    dsimp only
    rw [bind_assoc, modifyUse, Runs.modify_bind, Runs.pure_bind]
    refine (ilock_spec (u := k.use) rfl (hlocks ip)).bind ?_
    rintro _ _ rfl
    dsimp only
    by_cases helf : (Program.ofFile (file ip)).elf = false
    · rw [if_pos helf]
      exact hfail ⟨_, _, rfl⟩ (fun _ ho => by cases ho; rfl) (fun ho => by cases ho)
        (fun _ => ⟨h, fun _ _ => rfl⟩) fun _ hn => by cases hn
    rw [if_neg helf]
    refine (runPhys_spec (k := { k with use := opened k.use ip }) (Building.start h.acct)).bind ?_
    rintro (_ | pt) _ ⟨m1, rfl, hr⟩
    · exact hfail ⟨_, _, rfl⟩ (fun _ ho => by cases ho; rfl) (fun ho => by cases ho)
        (fun _ => ⟨⟨hr.1, h.excl, h.nowc⟩, hr.2⟩) fun _ hn => by cases hn
    -- the image is built in the memory that is left by the old one
    refine (build_spec (execLoad_spec hk _ hr.1 hr.2)).bind ?_
    rintro ⟨r, new⟩ _ ⟨m2, rfl, hb2⟩
    dsimp only at hb2 ⊢
    cases r with
    | false =>
      rw [if_pos rfl]
      refine hfail ⟨_, _, rfl⟩ (fun _ ho => by cases ho; rfl) (fun ho => by cases ho)
        (fun hn => by cases hn) fun _ hn => ?_
      cases hn
      exact hb2.freeNew h
    | true =>
      rw [if_neg (by simp)]
      refine (release_spec (u := k.use) rfl (hlocks ip)).bind ?_
      rintro _ _ rfl
      refine (build_spec (execStackTo_spec hk hb2 hcount hlens)).bind ?_
      rintro ⟨r, new⟩ _ ⟨m3, rfl, hb3, hargs⟩
      dsimp only at hb3 hargs ⊢
      cases r with
      | none =>
        refine hfail ⟨_, _, rfl⟩ (fun _ ho => by cases ho) (fun _ => rfl)
          (fun hn => by cases hn) fun _ hn => ?_
        cases hn
        exact hb3.freeNew h
      | some r =>
        obtain ⟨argc, sp⟩ := r
        obtain ⟨rfl, hfit, hroom, hwhole, hguard, hstack, addrs, haddrs⟩ := hargs argc sp rfl
        unfold commit
        rw [Runs.get_bind, Runs.modify_bind]
        refine (free_spec (hb3.freeOld h hshape hsz)).bind ?_
        rintro _ _ ⟨m4, rfl, hb4, hview⟩
        exact ⟨rfl, Or.inr ⟨rfl, hb4, rfl, rfl, hfit, hroom, hwhole, hguard, hstack, addrs,
          hview.symm ▸ haddrs⟩⟩

/-! ### The memory of `exec` -/

theorem runPhys_run {α : Type} (f : Phys → Except Panic (α × Phys)) :
    Runs (runPhys f) k (fun _ => True) fun a k' =>
      ∃ m, k' = { k with phys := m } ∧ f k.phys = .ok (a, m) :=
  runPhys_spec (Q := fun r => f k.phys = .ok r) (.run _)

theorem build_run {α : Type} (f : Space → Phys → Except Panic (α × Space × Phys)) (sp : Space) :
    Runs (build f sp) k (fun _ => True) fun r k' =>
      ∃ m, k' = { k with phys := m } ∧ f sp k.phys = .ok (r.1, r.2, m) :=
  build_spec (Q := fun r => f sp k.phys = .ok r) (.run _)

theorem free_run (sp : Space) :
    Runs (free L sp) k (fun _ => True) fun _ k' =>
      ∃ m, k' = { k with phys := m } ∧ procFreepagetable L.kend sp.pt sp.sz k.phys = .ok m :=
  free_spec (.run _)

theorem modifyUse_run (f : FileUse → FileUse) :
    Runs (modifyUse f) k E fun _ k' => ∃ u, k' = { k with use := u } := ⟨_, rfl⟩

theorem ilock_run (ip : ℕ) :
    Runs (ilock ip) k (fun _ => True) fun _ k' => ∃ u, k' = { k with use := u } := by
  rw [ilock, Runs.get_bind]
  split_ifs
  · exact trivial
  · exact trivial
  · exact modifyUse_run _

theorem release_run (ip : ℕ) :
    Runs (release ip) k (fun _ => True) fun _ k' => ∃ u, k' = { k with use := u } := by
  have hunlock : Runs (iunlock ip) k (fun _ => True) fun _ k' => ∃ u, k' = { k with use := u } := by
    rw [iunlock, Runs.get_bind]
    split_ifs
    · exact trivial
    · exact modifyUse_run _
  have hput : ∀ k : Caller,
      Runs (iput ip) k (fun _ => True) fun _ k' => ∃ u, k' = { k with use := u } := by
    intro k
    rw [iput, Runs.get_bind]
    split_ifs
    · exact trivial
    · exact modifyUse_run _
  rw [release]
  refine hunlock.bind ?_
  rintro _ _ ⟨u1, rfl⟩
  refine (hput _).bind ?_
  rintro _ _ ⟨u2, rfl⟩
  rw [endOp, Runs.get_bind]
  split_ifs
  · exact trivial
  · exact modifyUse_run _

theorem bad_run (new : Option Space) (o : Option ℕ) :
    Runs (bad L new o) k (fun _ => True) fun r k' => r = -1 ∧ ∃ u m,
      k' = { k with use := u, phys := m } ∧
        match new with
        | none => m = k.phys
        | some sp => procFreepagetable L.kend sp.pt sp.sz k.phys = .ok m := by
  have hrest : ∀ m, Runs (do
      match o with
      | none => pure ()
      | some ip => release ip
      pure (-1)) { k with phys := m } (fun _ => True)
        fun r k' => r = -1 ∧ ∃ u, k' = { k with use := u, phys := m } := by
    intro m
    cases o with
    | none => exact ⟨rfl, k.use, rfl⟩
    | some ip =>
      refine (release_run ip).bind ?_
      rintro _ _ ⟨u, rfl⟩
      exact ⟨rfl, u, rfl⟩
  unfold bad
  cases new with
  | none =>
    refine (hrest k.phys).mono ?_
    rintro _ _ ⟨rfl, u, rfl⟩
    exact ⟨rfl, u, k.phys, rfl, rfl⟩
  | some sp =>
    refine (free_run sp).bind ?_
    rintro _ _ ⟨m, rfl, hm⟩
    refine (hrest m).mono ?_
    rintro _ _ ⟨rfl, u, rfl⟩
    exact ⟨rfl, u, m, rfl, hm⟩

/-- **In the memory `exec` does what the memory model says**, with the program in the file. -/
theorem exec_memory {ip : ℕ} (hip : lookup path = some ip) :
    Runs (exec L lookup file tf path argv) k (fun _ => True) fun r k' =>
      Xv6.exec L.kend L.tramp (Program.ofFile (file ip)) tf argv k.space k.phys =
        .ok (decide (r ≠ -1), k'.space, k'.phys) := by
  unfold exec
  rw [beginOp, modifyUse, Runs.modify_bind, namei, hip]
  dsimp only
  rw [bind_assoc, modifyUse, Runs.modify_bind, Runs.pure_bind]
  refine (ilock_run ip).bind ?_
  rintro _ _ ⟨u1, rfl⟩
  rw [Xv6.exec]
  dsimp only
  split_ifs with helf
  · refine (bad_run none _).mono ?_
    rintro _ _ ⟨rfl, u, m, rfl, rfl⟩
    rfl
  refine (runPhys_run _).bind ?_
  rintro (_ | pt) _ ⟨m1, rfl, hpt⟩
  · refine (bad_run none _).mono ?_
    rintro _ _ ⟨rfl, u, m, rfl, rfl⟩
    rw [hpt]
    rfl
  rw [hpt, ok_bind_except]
  dsimp only
  refine (build_run _ _).bind ?_
  rintro ⟨r, new⟩ _ ⟨m2, rfl, hload⟩
  dsimp only at hload ⊢
  rw [execBuild, hload, ok_bind_except]
  dsimp only
  cases r with
  | false =>
    rw [if_pos rfl]
    refine (bad_run (some new) _).mono ?_
    rintro _ _ ⟨rfl, u, m, rfl, hm⟩
    rw [if_neg Bool.false_ne_true, pure_bind, if_neg Bool.false_ne_true, hm]
    rfl
  | true =>
    rw [if_neg Bool.noConfusion, if_pos rfl, execStack_eq_map]
    refine (release_run ip).bind ?_
    rintro _ _ ⟨u2, rfl⟩
    refine (build_run _ _).bind ?_
    rintro ⟨_ | ⟨argc, usp⟩, new⟩ _ ⟨m3, rfl, hstack⟩
    all_goals
      dsimp only at hstack ⊢
      rw [hstack, Except.map, ok_bind_except]
      dsimp only
    · refine (bad_run (some new) _).mono ?_
      rintro _ _ ⟨rfl, u, m, rfl, hm⟩
      rw [Option.isSome_none, if_neg Bool.false_ne_true, hm]
      rfl
    · unfold commit
      rw [Runs.get_bind, Runs.modify_bind]
      refine (free_run _).bind ?_
      rintro _ _ ⟨m4, rfl, hfree⟩
      have hargc : decide ((argc : ℤ) ≠ -1) = true := decide_eq_true (by omega)
      rw [Option.isSome_some, if_pos rfl, hfree, ok_bind_except, Runs.pure_iff, hargc]
      rfl

/-! ### What `sys_exec` leaves -/

def pageRefs (argv : List (ℕ × List UInt8)) : ℕ → ℕ := fun f => (argv.map Prod.fst).count f

theorem pageRefs_nil : pageRefs [] = 0 := rfl

theorem count_singleton_eq_ref (page f : ℕ) : [page].count f = ref page f := by
  rw [List.count_singleton, ref]
  exact if_congr (by rw [beq_iff_eq, eq_comm]) rfl rfl

theorem pageRefs_cons (page : ℕ) (arg : List UInt8) (argv : List (ℕ × List UInt8)) :
    pageRefs ((page, arg) :: argv) = pageRefs argv + ref page := by
  funext f
  rw [pageRefs, map_cons, ← singleton_append, count_append, count_singleton_eq_ref, add_comm]
  rfl

theorem pageRefs_concat (page : ℕ) (arg : List UInt8) (argv : List (ℕ × List UInt8)) :
    pageRefs (argv ++ [(page, arg)]) = pageRefs argv + ref page := by
  funext f
  rw [pageRefs, map_append, map_cons, map_nil, count_append, count_singleton_eq_ref]
  rfl

/-- The arguments that have been fetched, with their pages; nothing else has changed since the
memory was `m0`. -/
structure Fetched (kend : ℕ) (K U : ℕ → ℕ) (m0 : Phys) (k : Caller) (argv : List (ℕ × List UInt8))
    (m : Phys) : Prop where
  ok : SpaceOk kend (K + pageRefs argv) U k.space.pt m
  keep : ∀ f, (K + k.space.pt.tables) f + (U + leafRefs k.space.pt.leaf) f ≠ 0 → m.mem f = m0.mem f
  short : ∀ p ∈ argv, p.2.length < 2 ^ 63

theorem Fetched.add {kend : ℕ} {m0 m : Phys} {argv : List (ℕ × List UInt8)} {page : ℕ}
    {arg : List UInt8} (h : Fetched kend K U m0 k argv m) {m' : Phys}
    (hfree : (K + pageRefs argv + k.space.pt.tables) page = 0 ∧
      (U + leafRefs k.space.pt.leaf) page = 0)
    (hA : Acct kend m' (K + pageRefs argv + k.space.pt.tables + ref page)
      (U + leafRefs k.space.pt.leaf))
    (hmem : ∀ f ≠ page, m'.mem f = m.mem f) (harg : arg.length < 2 ^ 63) :
    Fetched kend K U m0 k (argv ++ [(page, arg)]) m' := by
  refine ⟨⟨?_, h.ok.excl, h.ok.nowc⟩, fun f hf => ?_, fun p hp => ?_⟩
  · rw [pageRefs_concat, ← add_assoc, add_right_comm (K + pageRefs argv)]
    exact hA
  · have hne : f ≠ page := by
      rintro rfl
      simp only [Pi.add_apply] at hf hfree
      omega
    rw [hmem f hne, h.keep f hf]
  · rcases mem_append.mp hp with hp | hp
    · exact h.short p hp
    · rw [mem_singleton.mp hp]
      exact harg

theorem fetchaddr_spec (addr : ℕ) : Runs (fetchaddr addr) k E fun _ k' => k' = k := by
  rw [fetchaddr, Runs.get_bind]
  split_ifs
  · exact rfl
  · exact rfl

theorem fetchstr_spec (addr max : ℕ) :
    Runs (fetchstr addr max) k E fun r k' => k' = k ∧ r.2.length ≤ max := by
  rw [fetchstr, Runs.get_bind]
  refine ⟨rfl, (length_copyinstrLoop _ _ _ _ _ _).trans ?_⟩
  rw [length_nil, zero_add]

theorem fetchArgs_spec {kend uargv : ℕ} {m0 : Phys} (fuel : ℕ) :
    ∀ {argv : List (ℕ × List UInt8)} {m : Phys}, argv.length + fuel = maxArg →
      Fetched kend K U m0 k argv m →
      Runs (fetchArgs uargv fuel argv) { k with phys := m } E fun r k' =>
        (r.1 = true → r.2.length < maxArg) ∧
        ∃ m', k' = { k with phys := m' } ∧ Fetched kend K U m0 k r.2 m' := by
  induction fuel with
  | zero =>
    intro argv m _ h
    exact ⟨fun hr => (by cases hr), m, rfl, h⟩
  | succ fuel ih =>
    intro argv m hfuel h
    rw [fetchArgs]
    refine (fetchaddr_spec _).bind ?_
    rintro (_ | _ | uarg) _ rfl
    · exact ⟨fun hr => (by cases hr), m, rfl, h⟩
    · exact ⟨fun _ => by change argv.length < _; omega, m, rfl, h⟩
    refine (runPhys_spec (k := { k with phys := m }) h.ok.acct.kalloc_spec).bind ?_
    rintro o _ ⟨m1, rfl, ⟨heq, -⟩ | ⟨page, rfl, hK, hU, hA, -, hmem⟩⟩
    · cases heq
      exact ⟨fun hr => (by cases hr), m, rfl, h⟩
    refine (fetchstr_spec _ _).bind ?_
    rintro ⟨ok, bytes⟩ _ ⟨rfl, hlen⟩
    rw [Runs.modify_bind]
    -- the string goes to the new page, and nothing else is written
    have hA' : Acct kend (m1.memmove page 0 bytes.length fun j => bytes.getD j 0)
        (K + pageRefs argv + k.space.pt.tables + ref page) (U + leafRefs k.space.pt.leaf) :=
      hA.congr rfl rfl
    have hmem' : ∀ f ≠ page, (m1.memmove page 0 bytes.length fun j => bytes.getD j 0).mem f =
        m.mem f := by
      intro f hf
      refine (update_of_ne hf ..).trans ?_
      rw [hmem, update_of_ne hf]
    dsimp only at hlen ⊢
    split_ifs
    · refine ih ?_ (h.add ⟨hK, hU⟩ hA' hmem' ?_)
      · rw [length_append, length_singleton]
        omega
      · rw [length_dropLast]
        simp only [pgSize] at hlen
        omega
    · exact ⟨fun hr => (by cases hr), _, rfl, h.add ⟨hK, hU⟩ hA' hmem' (by decide)⟩

theorem freeArgs_spec (argv : List (ℕ × List UInt8)) : ∀ {K U : ℕ → ℕ} {k : Caller},
    Acct L.kend k.phys (K + pageRefs argv) U →
    Runs (freeArgs L argv) k E fun _ k' => ∃ m, k' = { k with phys := m } ∧ Acct L.kend m K U ∧
      ∀ f, K f + U f ≠ 0 → m.mem f = k.phys.mem f := by
  induction argv with
  | nil =>
    intro K U k h
    rw [pageRefs_nil, add_zero] at h
    exact ⟨k.phys, rfl, h, fun _ _ => rfl⟩
  | cons arg argv ih =>
    intro K U k h
    rw [pageRefs_cons, ← add_assoc] at h
    rw [freeArgs]
    have hfree : Ensures (do
        let m ← kfree L.kend (arg.1 * pgSize) k.phys
        return ((), m)) (fun e => E (.mem e)) fun r : Unit × Phys =>
          Acct L.kend r.2 (K + pageRefs argv) U ∧ ∀ g, g ≠ arg.1 → r.2.mem g = k.phys.mem g :=
      h.kfree_kernel.bind fun _ hr => hr
    refine (runPhys_spec hfree).bind ?_
    rintro _ _ ⟨m, rfl, hA, hmem⟩
    refine (ih (k := { k with phys := m }) hA).mono ?_
    rintro _ _ ⟨m', rfl, hA', hmem'⟩
    refine ⟨m', rfl, hA', fun f hf => (hmem' f hf).trans (hmem f ?_)⟩
    -- the page of an argument is nobody else's
    rintro rfl
    have hle := h.kernel_le arg.1
    have hsep := h.sep arg.1
    simp only [Pi.add_apply, ref_self] at hle hsep hf
    omega

theorem dropPages {kend : ℕ} {R : ℕ → ℕ} {sp : Space} {m0 m1 m m' : Phys}
    (h : Building kend (K + R) U m1 sp m)
    (hA : Acct kend m' (K + sp.pt.tables) (U + leafRefs sp.pt.leaf))
    (hmem : ∀ f, (K + sp.pt.tables) f + (U + leafRefs sp.pt.leaf) f ≠ 0 → m'.mem f = m.mem f)
    (hkeep : ∀ f, K f + U f ≠ 0 → m1.mem f = m0.mem f) :
    Building kend K U m0 sp m' ∧ userView m'.mem sp.pt.leaf = userView m.mem sp.pt.leaf := by
  have hin : ∀ {f}, K f + U f ≠ 0 → (K + sp.pt.tables) f + (U + leafRefs sp.pt.leaf) f ≠ 0 := by
    intro f hf
    simp only [Pi.add_apply]
    omega
  have hin' : ∀ {f}, K f + U f ≠ 0 → (K + R) f + U f ≠ 0 := by
    intro f hf
    simp only [Pi.add_apply]
    omega
  refine ⟨⟨⟨⟨hA, h.ok.excl, h.ok.nowc⟩, h.top, h.shape, h.sz_le, h.fresh⟩, fun f hf => ?_,
    h.nocow⟩, userView_congr fun v hv hV => hmem _ ?_⟩
  · rw [hmem f (hin hf), h.keep f (hin' hf), hkeep f hf]
  · have hmine := leafRefs_ne_zero hv hV
    simp only [Pi.add_apply]
    omega

/-- **`sys_exec`**, for all files and whatever the user's memory holds: it never panics, and it has
one of the two ends, with the pages of the arguments freed. -/
theorem sysExec_spec (lookup : List UInt8 → Option ℕ) (file : ℕ → Fs.File) (tf : ℕ)
    (hk : 0 < L.kend) (h : SpaceOk L.kend K U k.space.pt k.phys)
    (hshape : k.space.Shaped) (hsz : k.space.sz ≤ trapframeVa)
    (hlocks : ∀ ip, k.use.locks ip = false) :
    Runs (sysExec L lookup file tf) k E fun r k' => k'.use = k.use ∧
      (r = -1 ∧ Unchanged L.kend K U k k' ∨
        ∃ argv : List (List UInt8), argv.length < maxArg ∧ r = argv.length ∧
          Started L.kend K U argv k k') := by
  have hstart : Fetched L.kend K U k.phys k [] k.phys := by
    refine ⟨?_, fun _ _ => rfl, fun _ hp => by cases hp⟩
    rw [pageRefs_nil, add_zero]
    exact h
  rw [sysExec, Runs.get_bind]
  refine (fetchstr_spec _ _).bind ?_
  rintro ⟨_ | _, path⟩ k1 ⟨hk1, -⟩
  all_goals subst k1
  · exact ⟨rfl, Or.inl ⟨rfl, rfl, rfl, rfl, h, fun _ _ => rfl⟩⟩
  dsimp only
  refine (fetchArgs_spec maxArg (zero_add _) hstart).bind ?_
  rintro ⟨ok, argv⟩ _ ⟨hcount, m1, rfl, hf⟩
  dsimp only at hcount hf ⊢
  have hA : Acct L.kend m1 (K + k.space.pt.tables + pageRefs argv)
      (U + leafRefs k.space.pt.leaf) := by
    rw [add_right_comm]
    exact hf.ok.acct
  split_ifs with hok
  · have hlens : ∀ arg ∈ argv.map Prod.snd, arg.length < 2 ^ 63 := by
      intro arg harg
      obtain ⟨p, hp, rfl⟩ := mem_map.mp harg
      exact hf.short p hp
    have hlen := hcount hok
    refine (exec_spec (k := { k with phys := m1 }) lookup file tf _ hk hf.ok hshape hsz hlocks
      (by rw [length_map]; exact hlen.le) hlens).bind ?_
    rintro r k2 ⟨huse, ⟨rfl, hun⟩ | ⟨rfl, hst⟩⟩
    · have hA2 : Acct L.kend k2.phys (K + k.space.pt.tables + pageRefs argv)
          (U + leafRefs k.space.pt.leaf) := by
        rw [add_right_comm]
        exact hun.ok.acct
      refine (freeArgs_spec argv hA2).bind ?_
      rintro _ _ ⟨m3, rfl, hA3, hmem3⟩
      refine ⟨huse, Or.inl ⟨rfl, hun.space, hun.tf, hun.name, ⟨hA3, h.excl, h.nowc⟩,
        fun f hf' => ?_⟩⟩
      have hin :
          (K + pageRefs argv + k.space.pt.tables) f + (U + leafRefs k.space.pt.leaf) f ≠ 0 := by
        simp only [Pi.add_apply] at hf' ⊢
        omega
      exact (hmem3 f hf').trans ((hun.keep f hin).trans (hf.keep f hf'))
    · have hA2 : Acct L.kend k2.phys (K + k2.space.pt.tables + pageRefs argv)
          (U + leafRefs k2.space.pt.leaf) := by
        rw [add_right_comm]
        exact hst.image.ok.acct
      refine (freeArgs_spec argv hA2).bind ?_
      rintro _ _ ⟨m3, rfl, hA3, hmem3⟩
      obtain ⟨himage, hview⟩ := dropPages hst.image hA3 hmem3 fun f hf' =>
        hf.keep f (by simp only [Pi.add_apply]; omega)
      refine ⟨huse, Or.inr ⟨argv.map Prod.snd, by rw [length_map]; exact hlen, rfl, himage,
        hst.a0, hst.a1, hst.fits, hst.room, hst.whole, hst.guard, hst.stack, ?_⟩⟩
      obtain ⟨addrs, haddrs⟩ := hst.args
      exact ⟨addrs, hview.symm ▸ haddrs⟩
  · refine (freeArgs_spec argv hA).bind ?_
    rintro _ _ ⟨m3, rfl, hA3, hmem3⟩
    exact ⟨rfl, Or.inl ⟨rfl, rfl, rfl, rfl, ⟨hA3, h.excl, h.nowc⟩, fun f hf' =>
      (hmem3 f hf').trans (hf.keep f hf')⟩⟩

end Spec

end Caller

end Xv6
