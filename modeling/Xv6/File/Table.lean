import Mathlib.Data.Fintype.Basic
import Mathlib.Data.List.FinRange
import Mathlib.Data.Nat.Notation
import Mathlib.Logic.Function.Basic
import Xv6.Lib.Transition

/-!
# Open files

The table of open files, the descriptors of the processes, and the pipes. A process goes through
`open`, `dup`, `pipe`, `close`, `fork`, `exec` and `exit` in steps, and others take theirs in
between; a step is what is done under `ftable.lock` or the lock of a pipe, together with what only
the process itself can see. A call may fail wherever the code lets it: for want of a file, a
descriptor, memory, a path, a process, or user memory where `pipe` is to store the descriptors.

Inodes are left out, except that a file keeps its own. A pipe is known by the address of its page.
Recorded besides are the descriptors a process had when its call began, and by how much the call has
changed each count.
-/

namespace Xv6.Files

open Function

abbrev nfile : ℕ := 100

abbrev nofile : ℕ := 16

inductive FileType
  | none
  | pipe
  | inode
  | device
deriving DecidableEq

/-- `struct file`; `π` is the type of addresses of pages. -/
structure File (π : Type*) where
  type : FileType
  ref : ℕ
  readable : Bool
  writable : Bool
  pipe : π
  ip : ℕ
  off : ℕ
  major : ℤ
deriving DecidableEq

structure Pipe where
  readopen : Bool
  writeopen : Bool
deriving DecidableEq

/-- What remains to be done for a file that has been closed. -/
inductive Release (π : Type*)
  /-- `pipeclose(ff.pipe, ff.writable)`. -/
  | pipe (pg : π) (writable : Bool)
  /-- `iput(ff.ip)`. -/
  | inode (ip : ℕ)
deriving DecidableEq

/-- What `open` has found out when it allocates a file: the inode, and how it is to be opened. -/
structure Open where
  ip : ℕ
  device : Bool
  major : ℤ
  readable : Bool
  writable : Bool
deriving DecidableEq

/-- What a process goes on with when it has closed some files. -/
inductive After
  | ret (ok : Bool)
  /-- `p->ofile[fd] = 0` in the loop of `exit`. -/
  | exitClear (fd : Fin nofile)
deriving DecidableEq

inductive Pc (P π : Type*)
  | unused
  /-- It is being made by `fork`. -/
  | embryo (parent : P)
  | zombie
  | idle
  | ret (ok : Bool)
  | openStart (o : Open)
  /-- In `open`, at `fdalloc`. -/
  | openFd (o : Open) (f : Fin nfile)
  /-- In `open`, with a descriptor. -/
  | openSet (o : Open) (f : Fin nfile) (fd : Fin nofile)
  /-- In `dup`, at `filedup`. -/
  | dupRef (f : Fin nfile) (fd : Fin nofile)
  /-- In `pipealloc`, at the first `filealloc`. -/
  | pipeAlloc0
  /-- In `pipealloc`, at the second `filealloc`. -/
  | pipeAlloc1 (f0 : Fin nfile)
  /-- In `pipealloc`, at `kalloc`. -/
  | pipePage (f0 f1 : Fin nfile)
  /-- In `pipe`, at the first `fdalloc`. -/
  | pipeFd0 (f0 f1 : Fin nfile)
  /-- In `pipe`, at the second `fdalloc`. -/
  | pipeFd1 (f0 f1 : Fin nfile) (fd0 : Fin nofile)
  /-- In `pipe`, at `copyout`. -/
  | pipeCopy (f0 f1 : Fin nfile) (fd0 fd1 : Fin nofile)
  /-- In `fork`, at `allocproc`. -/
  | forkStart
  /-- In `fork`, at `uvmcopy`. -/
  | forkMem (np : P)
  /-- In the loop of `fork` over the descriptors. -/
  | forkCopy (np : P) (i : ℕ)
  | exec
  /-- In the loop of `exit` over the descriptors. -/
  | exitAt (fd : ℕ)
  /-- In `fileclose`: what remains of the file that was closed last, and the files that are still to
  be closed. -/
  | clean (now : Option (Release π)) (fs : List (Fin nfile)) (k : After)
deriving DecidableEq

/-- A process: its descriptors, those at the start of its call, and by how much the call has changed
the reference counts. -/
structure Proc (P π : Type*) where
  ofile : Fin nofile → Option (Fin nfile)
  pc : Pc P π
  old : Fin nofile → Option (Fin nfile)
  net : Fin nfile → ℤ

/-- The panics of `filedup` and `fileclose`, and a `pipeclose` of a page that is not a pipe. -/
inductive Fault
  | filedup
  | fileclose
  | badPipe
deriving DecidableEq

structure Sys (P π : Type*) where
  file : Fin nfile → File π
  proc : P → Proc P π
  pipe : π → Option Pipe
  fault : Option Fault

variable {P π : Type*}

/-! ## The functions that the calls use -/

def filealloc (file : Fin nfile → File π) : Option (Fin nfile) :=
  (List.finRange nfile).find? fun f => (file f).ref = 0

def fdalloc (ofile : Fin nofile → Option (Fin nfile)) : Option (Fin nofile) :=
  (List.finRange nofile).find? fun fd => ofile fd = none

def argfd (ofile : Fin nofile → Option (Fin nfile)) (fd : ℤ) : Option (Fin nofile × Fin nfile) :=
  if h : 0 ≤ fd ∧ fd < nofile then
    let fd : Fin nofile := ⟨fd.toNat, by omega⟩
    (ofile fd).map fun f => (fd, f)
  else none

namespace File

/-- What closing the file for good leaves to be done. -/
def release (y : File π) : Option (Release π) :=
  match y.type with
  | .pipe => some (.pipe y.pipe y.writable)
  | .inode | .device => some (.inode y.ip)
  | .none => none

/-- `fileclose` as far as it holds `ftable.lock`. -/
def close (y : File π) : File π × Option (Release π) :=
  if 0 < y.ref - 1 then ({ y with ref := y.ref - 1 }, none)
  else ({ y with ref := 0, type := .none }, y.release)

/-- `open` sets the fields. -/
def opened (y : File π) (o : Open) : File π :=
  let y := if o.device then { y with type := .device, major := o.major }
    else { y with type := .inode, off := 0 }
  { y with ip := o.ip, readable := o.readable, writable := o.writable }

/-- `pipealloc` sets the fields of one end. -/
def piped (y : File π) (pg : π) (writable : Bool) : File π :=
  { y with type := .pipe, readable := !writable, writable := writable, pipe := pg }

end File

def Pipe.close (st : Pipe) (writable : Bool) : Pipe :=
  if writable then { st with writeopen := false } else { st with readopen := false }

/-! ## The steps -/

/-- The calls; a descriptor is what the user gives. -/
inductive Call
  | open (o : Open)
  | dup (fd : ℤ)
  | pipe
  | close (fd : ℤ)
  | fork
  | exec
  | exit

namespace Proc

/-- The process goes on at `pc`. -/
def goto (x : Proc P π) (pc : Pc P π) : Proc P π := { x with pc := pc }

def setFd (x : Proc P π) (fd : Fin nofile) (f : Option (Fin nfile)) : Proc P π :=
  { x with ofile := update x.ofile fd f }

def count (x : Proc P π) (f : Fin nfile) (n : ℤ) : Proc P π :=
  { x with net := update x.net f (x.net f + n) }

/-- The process in the kernel, at the start of a call. -/
def enter (x : Proc P π) : Proc P π := { x with old := x.ofile, net := fun _ => 0 }

def call (x : Proc P π) : Call → Proc P π
  | .open o => x.goto (.openStart o)
  | .dup fd =>
    match argfd x.ofile fd with
    | none => x.goto (.ret false)
    | some (_, f) =>
      match fdalloc x.ofile with
      | none => x.goto (.ret false)
      | some fd' => (x.setFd fd' (some f)).goto (.dupRef f fd')
  | .pipe => x.goto .pipeAlloc0
  | .close fd =>
    match argfd x.ofile fd with
    | none => x.goto (.ret false)
    | some (fd', f) => (x.setFd fd' none).goto (.clean none [f] (.ret true))
  | .fork => x.goto .forkStart
  | .exec => x.goto .exec
  | .exit => x.goto (.exitAt 0)

end Proc

namespace Sys

variable [DecidableEq P] [DecidableEq π]

@[simps] def put (s : Sys P π) (p : P) (x : Proc P π) : Sys P π :=
  { s with proc := update s.proc p x }

@[simps] def setFile (s : Sys P π) (f : Fin nfile) (y : File π) : Sys P π :=
  { s with file := update s.file f y }

@[simps] def setPipe (s : Sys P π) (pg : π) (st : Option Pipe) : Sys P π :=
  { s with pipe := update s.pipe pg st }

@[simps] def fail (s : Sys P π) (e : Fault) : Sys P π := { s with fault := some e }

/-- `filealloc`: the process goes on at `k` with the file, or at `bad` without one. -/
def alloc (s : Sys P π) (p : P) (k : Fin nfile → Pc P π) (bad : Pc P π) : Sys P π :=
  match filealloc s.file with
  | none => s.put p ((s.proc p).goto bad)
  | some f =>
    (s.setFile f { s.file f with ref := 1 }).put p (((s.proc p).count f 1).goto (k f))

/-- `filedup`; the process goes on as `x`. -/
def dup (s : Sys P π) (p : P) (f : Fin nfile) (x : Proc P π) : Sys P π :=
  if (s.file f).ref < 1 then s.fail .filedup
  else (s.setFile f { s.file f with ref := (s.file f).ref + 1 }).put p (x.count f 1)

def pipeclose (s : Sys P π) (pg : π) (writable : Bool) : Sys P π :=
  match s.pipe pg with
  | none => s.fail .badPipe
  | some st =>
    let st := st.close writable
    s.setPipe pg (if st.readopen = false ∧ st.writeopen = false then none else some st)

/-- The next step of a process that closes files. -/
def clean (s : Sys P π) (p : P) (x : Proc P π) (fs : List (Fin nfile)) (k : After) :
    Option (Release π) → Sys P π
  | some (.pipe pg writable) => (s.pipeclose pg writable).put p (x.goto (.clean none fs k))
  | some (.inode _) => s.put p (x.goto (.clean none fs k))
  | none =>
    match fs with
    | f :: fs =>
      if (s.file f).ref < 1 then s.fail .fileclose
      else
        (s.setFile f (s.file f).close.1).put p
          ((x.count f (-1)).goto (.clean (s.file f).close.2 fs k))
    | [] =>
      match k with
      | .ret ok => s.put p (x.goto (.ret ok))
      | .exitClear fd => s.put p ((x.setFd fd none).goto (.exitAt (fd + 1)))

/-- A step in the loop of `fork`. -/
def copy (s : Sys P π) (p : P) (x : Proc P π) (np : P) (i : ℕ) : Sys P π :=
  if h : i < nofile then
    match x.ofile ⟨i, h⟩ with
    | none => s.put p (x.goto (.forkCopy np (i + 1)))
    | some f =>
      (s.dup p f (x.goto (.forkCopy np (i + 1)))).put np ((s.proc np).setFd ⟨i, h⟩ (some f))
  else (s.put p (x.goto (.ret true))).put np ((s.proc np).goto .idle)

def exitLoop (s : Sys P π) (p : P) (x : Proc P π) (i : ℕ) : Sys P π :=
  if h : i < nofile then
    match x.ofile ⟨i, h⟩ with
    | none => s.put p (x.goto (.exitAt (i + 1)))
    | some f => s.put p (x.goto (.clean none [f] (.exitClear ⟨i, h⟩)))
  else s.put p (x.goto .zombie)

/-- The next step of a process in a call. What is not modelled may succeed or not: `ok`. It may be
the search for a process or for a page, which then finds `np` or `pg`. -/
def next (s : Sys P π) (p : P) (ok : Bool) (np : P) (pg : π) : Option (Sys P π) :=
  let x := s.proc p
  match x.pc with
  | .ret _ => some (s.put p (x.goto .idle))
  | .openStart o =>
    some (if ok then s.alloc p (.openFd o) (.ret false) else s.put p (x.goto (.ret false)))
  | .openFd o f =>
    match fdalloc x.ofile with
    | none => some (s.put p (x.goto (.clean none [f] (.ret false))))
    | some fd => some (s.put p ((x.setFd fd (some f)).goto (.openSet o f fd)))
  | .openSet o f _ =>
    some ((s.setFile f ((s.file f).opened o)).put p (x.goto (.ret true)))
  | .dupRef f _ => some (s.dup p f (x.goto (.ret true)))
  | .pipeAlloc0 => some (s.alloc p .pipeAlloc1 (.ret false))
  | .pipeAlloc1 f0 => some (s.alloc p (.pipePage f0) (.clean none [f0] (.ret false)))
  | .pipePage f0 f1 =>
    if ok then
      if s.pipe pg = none then
        some ((((s.setPipe pg (some ⟨true, true⟩)).setFile f0 ((s.file f0).piped pg false)).setFile
          f1 ((s.file f1).piped pg true)).put p (x.goto (.pipeFd0 f0 f1)))
      else none
    else some (s.put p (x.goto (.clean none [f0, f1] (.ret false))))
  | .pipeFd0 f0 f1 =>
    match fdalloc x.ofile with
    | none => some (s.put p (x.goto (.clean none [f0, f1] (.ret false))))
    | some fd0 => some (s.put p ((x.setFd fd0 (some f0)).goto (.pipeFd1 f0 f1 fd0)))
  | .pipeFd1 f0 f1 fd0 =>
    match fdalloc x.ofile with
    | none => some (s.put p ((x.setFd fd0 none).goto (.clean none [f0, f1] (.ret false))))
    | some fd1 => some (s.put p ((x.setFd fd1 (some f1)).goto (.pipeCopy f0 f1 fd0 fd1)))
  | .pipeCopy f0 f1 fd0 fd1 =>
    if ok then some (s.put p (x.goto (.ret true)))
    else
      some (s.put p (((x.setFd fd0 none).setFd fd1 none).goto (.clean none [f0, f1] (.ret false))))
  | .forkStart =>
    if ok then
      if np ≠ p ∧ (s.proc np).pc = .unused then
        some ((s.put np ((s.proc np).goto (.embryo p))).put p (x.goto (.forkMem np)))
      else none
    else some (s.put p (x.goto (.ret false)))
  | .forkMem np =>
    if ok then some (s.put p (x.goto (.forkCopy np 0)))
    else some ((s.put p (x.goto (.ret false))).put np ((s.proc np).goto .unused))
  | .forkCopy np i => some (s.copy p x np i)
  | .exec => some (s.put p (x.goto (.ret ok)))
  | .exitAt i => some (s.exitLoop p x i)
  | .clean now fs k => some (s.clean p x fs k now)
  | .unused | .embryo _ | .zombie | .idle => none

end Sys

inductive Act (P π : Type*)
  | call (p : P) (c : Call)
  | next (p : P) (ok : Bool) (np : P) (pg : π)
  /-- `wait` finds a zombie. -/
  | reap (p : P)

namespace Sys

variable [DecidableEq P] [DecidableEq π]

def step (s : Sys P π) : Act P π → Option (Sys P π)
  | .call p c => if (s.proc p).pc = .idle then some (s.put p ((s.proc p).enter.call c)) else none
  | .next p ok np pg => s.next p ok np pg
  | .reap p => if (s.proc p).pc = .zombie then some (s.put p ((s.proc p).goto .unused)) else none

/-- At boot no file is open, and there is one process. -/
def boot (null : π) (init : P) : Sys P π where
  file := fun _ => ⟨.none, 0, false, false, null, 0, 0, 0⟩
  proc := fun p =>
    { ofile := fun _ => none
      pc := if p = init then .idle else .unused
      old := fun _ => none
      net := fun _ => 0 }
  pipe := fun _ => none
  fault := none

end Sys

def files [DecidableEq P] [DecidableEq π] (null : π) (init : P) : LTS (Sys P π) (Act P π) where
  init s := s = .boot null init
  step s a s' := s.step a = some s'

end Xv6.Files
