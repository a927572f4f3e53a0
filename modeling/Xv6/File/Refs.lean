import Xv6.File.Table
import Xv6.Lib.Handles

/-!
# References to open files

A process refers to a file by its descriptors and, within a call, by a variable; and a descriptor
may not count for a while, because the code sets it before it takes the reference (`dup`), or clears
it after it has given the reference up (`exit`). What a process refers to can be read off from where
it is (`Proc.refs`), and the count of a file is always the number of references of all processes.

The ends of a pipe are counted alike: an end is a file of that type, or the rest of a `fileclose`
that has yet to call `pipeclose`.
-/

namespace Xv6.Files

open Function

variable {P π : Type*}

/-! ## What a process refers to -/

namespace Pc

def held : Pc P π → List (Fin nfile)
  | .openFd _ f | .pipeAlloc1 f => [f]
  | .pipePage f0 f1 | .pipeFd0 f0 f1 => [f0, f1]
  | .pipeFd1 _ f1 _ => [f1]
  | .clean _ fs _ => fs
  | _ => []

def hidden : Pc P π → Option (Fin nofile)
  | .dupRef _ fd | .clean _ _ (.exitClear fd) => some fd
  | _ => none

def fresh : Pc P π → List (Fin nfile)
  | .openFd _ f | .openSet _ f _ | .pipeAlloc1 f => [f]
  | .pipePage f0 f1 => [f0, f1]
  | _ => []

/-- The end of a pipe that is still to be closed. -/
def closing : Pc P π → Option (π × Bool)
  | .clean (some (.pipe pg writable)) _ _ => some (pg, writable)
  | _ => none

/-- The process that is being made, and how many of its descriptors are. -/
def child : Pc P π → Option (P × ℕ)
  | .forkMem np => some (np, 0)
  | .forkCopy np i => some (np, i)
  | _ => none

def maker : Pc P π → Option P
  | .embryo p => some p
  | _ => none

def mayFail : Pc P π → Bool
  | .openStart _ | .openFd _ _ | .pipeAlloc0 | .pipeAlloc1 _ | .pipePage _ _ | .pipeFd0 _ _ => true
  | .pipeFd1 _ _ _ | .pipeCopy _ _ _ _ | .forkStart | .forkMem _ | .exec | .ret false => true
  | .clean _ _ (.ret false) => true
  | _ => false

end Pc

namespace Proc

def live (x : Proc P π) : Fin nofile → Option (Fin nfile) := fun fd =>
  if x.pc.hidden = some fd then none else x.ofile fd

def refs (x : Proc P π) (f : Fin nfile) : ℕ := Handles.count x.live f + x.pc.held.count f

def Tidy (x : Proc P π) : Prop :=
  match x.pc with
  | .unused | .zombie => ∀ fd, x.ofile fd = none
  | .openSet _ f fd => x.ofile fd = some f
  | .dupRef f fd => x.ofile fd = some f ∧ ∃ fd', fd' ≠ fd ∧ x.ofile fd' = some f
  | .pipeFd1 f0 _ fd0 => x.ofile = update x.old fd0 (some f0) ∧ x.old fd0 = none
  | .pipeCopy f0 f1 fd0 fd1 =>
    x.ofile = update (update x.old fd0 (some f0)) fd1 (some f1) ∧
      x.old fd0 = none ∧ x.old fd1 = none ∧ fd0 ≠ fd1
  | .exitAt i => ∀ fd : Fin nofile, fd.val < i → x.ofile fd = none
  | .clean _ _ (.exitClear fd) => ∀ fd' : Fin nofile, fd'.val < fd.val → x.ofile fd' = none
  | .idle | .embryo _ | .forkCopy _ _ | .ret true | .clean _ _ (.ret true) => True
  | _ => x.ofile = x.old

/-- What a call that may still fail has changed is what it still refers to. -/
def Balanced (x : Proc P π) : Prop :=
  x.pc.mayFail = true → ∀ f, x.net f + Handles.count x.old f = x.refs f

variable {x y : Proc P π} {pc q : Pc P π} {f : Fin nfile}

theorem live_of_hidden_none (hpc : x.pc = q) (h : q.hidden = none) : x.live = x.ofile := by
  funext fd
  simp [live, hpc, h]

theorem live_of_hidden (fd : Fin nofile) (hpc : x.pc = q) (h : q.hidden = some fd) :
    x.live = update x.ofile fd none := by
  funext fd'
  by_cases hfd : fd' = fd
  · subst hfd
    simp [live, hpc, h]
  · simp [live, hpc, h, update_of_ne hfd, Ne.symm hfd]

theorem refs_of_hidden_none (hpc : x.pc = q) (h : q.hidden = none) (f : Fin nfile) :
    x.refs f = Handles.count x.ofile f + q.held.count f := by
  rw [refs, live_of_hidden_none hpc h, hpc]

theorem refs_of_held_nil (hpc : x.pc = q) (h : q.hidden = none) (hheld : q.held = [])
    (f : Fin nfile) : x.refs f = Handles.count x.ofile f := by
  rw [refs_of_hidden_none hpc h, hheld, List.count_nil, Nat.add_zero]

theorem refs_of_hidden (fd : Fin nofile) (hpc : x.pc = q) (h : q.hidden = some fd)
    (f : Fin nfile) : x.refs f = Handles.count (update x.ofile fd none) f + q.held.count f := by
  rw [refs, live_of_hidden fd hpc h, hpc]

theorem refs_pos_of_held (hpc : x.pc = q) (h : f ∈ q.held) : 0 < x.refs f :=
  Nat.add_pos_right _ (List.count_pos_iff.mpr (hpc ▸ h))

theorem refs_pos_of_live (fd : Fin nofile) (h : x.live fd = some f) : 0 < x.refs f :=
  Nat.add_pos_left (Handles.count_pos h) _

theorem Tidy.refs_fresh (h : x.Tidy) (hf : f ∈ x.pc.fresh) : 0 < x.refs f := by
  cases hpc : x.pc with
  | openFd _ _ | pipeAlloc1 _ | pipePage _ _ =>
    rw [hpc] at hf
    exact refs_pos_of_held hpc hf
  | openSet o g fd =>
    rw [hpc] at hf
    cases List.mem_singleton.mp hf
    rw [Tidy, hpc] at h
    refine refs_pos_of_live fd ?_
    rw [live_of_hidden_none hpc rfl]
    exact h
  | _ =>
    rw [hpc] at hf
    cases hf

end Proc

/-! ## The invariant -/

def File.endOf (y : File π) : Option (π × Bool) :=
  match y.type with
  | .pipe => some (y.pipe, y.writable)
  | _ => none

def isOpen (pipe : π → Option Pipe) (e : π × Bool) : ℕ :=
  match pipe e.1 with
  | none => 0
  | some st => if (if e.2 then st.writeopen else st.readopen) then 1 else 0

variable [Fintype P] [DecidableEq P] [DecidableEq π]

/-- The invariant: every file counts the references to it, and has no type if there are none; new
files have one reference and no type; every open end of a pipe is one file, or one that is about to
be closed; a pipe has an open end; and what is known of each process. -/
structure Exact (s : Sys P π) : Prop where
  refs : ∀ f, (s.file f).ref = ∑ p, (s.proc p).refs f
  untyped : ∀ f, (s.file f).ref = 0 → (s.file f).type = .none
  fresh : ∀ p, ∀ f ∈ (s.proc p).pc.fresh, (s.file f).ref = 1 ∧ (s.file f).type = .none
  ends : ∀ e, Handles.count (fun f => (s.file f).endOf) e +
    Handles.count (fun p => (s.proc p).pc.closing) e = isOpen s.pipe e
  pipes : ∀ pg st, s.pipe pg = some st → st.readopen = true ∨ st.writeopen = true
  tidy : ∀ p, (s.proc p).Tidy
  balanced : ∀ p, (s.proc p).Balanced
  child : ∀ p np i, (s.proc p).pc.child = some (np, i) →
    (s.proc np).pc = .embryo p ∧ ∀ fd : Fin nofile, i ≤ fd.val → (s.proc np).ofile fd = none
  fault : s.fault = none

omit [Fintype P] [DecidableEq P] [DecidableEq π] in
/-- The process `p` may become `x`: it is as is known of each process, and so are the process that
it makes and the one that makes it. -/
structure Sys.Becomes (s : Sys P π) (p : P) (x : Proc P π) : Prop where
  tidy : x.Tidy
  balanced : x.Balanced
  child : ∀ np i, x.pc.child = some (np, i) → np ≠ p ∧ (s.proc np).pc = .embryo p ∧
    ∀ fd : Fin nofile, i ≤ fd.val → (s.proc np).ofile fd = none
  parent : ∀ q i, q ≠ p → (s.proc q).pc.child = some (p, i) → x.pc = .embryo q ∧
    ∀ fd : Fin nofile, i ≤ fd.val → x.ofile fd = none

namespace Exact

variable {s : Sys P π} {p q : P} {f : Fin nfile} {x : Proc P π} {pc : Pc P π} (h : Exact s)

include h

omit [DecidableEq P] in
theorem refs_le (p : P) (f : Fin nfile) : (s.proc p).refs f ≤ (s.file f).ref := by
  rw [h.refs f]
  exact Counting.le_sum_of_mem (fun p => (s.proc p).refs f) p

theorem refs_add_le (hpq : p ≠ q) (f : Fin nfile) :
    (s.proc p).refs f + (s.proc q).refs f ≤ (s.file f).ref := by
  rw [h.refs f, ← Finset.sum_pair (f := fun p => (s.proc p).refs f) hpq]
  exact Finset.sum_le_sum_of_subset (Finset.subset_univ _)

theorem not_fresh (hf : 0 < (s.proc p).refs f) (hpq : q ≠ p) :
    f ∉ (s.proc q).pc.fresh := fun hq => by
  have hone := (h.fresh q f hq).1
  have hpos := (h.tidy q).refs_fresh hq
  have hle := h.refs_add_le hpq f
  omega

omit [DecidableEq P] in
theorem not_fresh_of_ref_eq_zero (hf : (s.file f).ref = 0) (q : P) :
    f ∉ (s.proc q).pc.fresh := fun hq => by
  have hone := (h.fresh q f hq).1
  omega

/-- **A step of a process**, which leaves it as `x`, and the tables as they are given. -/
theorem put {file : Fin nfile → File π} {pipe : π → Option Pipe}
    (hrefs : ∀ f, (file f).ref + (s.proc p).refs f = (s.file f).ref + x.refs f)
    (hnone : ∀ f, (file f).ref = 0 → (file f).type = .none)
    (hkeep : ∀ q, q ≠ p → ∀ f ∈ (s.proc q).pc.fresh, file f = s.file f)
    (hfresh : ∀ f ∈ x.pc.fresh, (file f).ref = 1 ∧ (file f).type = .none)
    (hends : ∀ e, Handles.count (fun f => (file f).endOf) e +
        (if x.pc.closing = some e then 1 else 0) + isOpen s.pipe e =
      Handles.count (fun f => (s.file f).endOf) e +
        (if (s.proc p).pc.closing = some e then 1 else 0) + isOpen pipe e)
    (hpipes : ∀ pg st, pipe pg = some st → st.readopen = true ∨ st.writeopen = true)
    (hx : s.Becomes p x) :
    Exact { s with file := file, proc := update s.proc p x, pipe := pipe } where
  refs f := by
    have hsum := Counting.sum_update_add (fun y : Proc P π => y.refs f) s.proc p x
    have hold := h.refs f
    have hnew := hrefs f
    dsimp only
    omega
  untyped := hnone
  fresh := (forall_update_iff s.proc fun _ y => ∀ f ∈ y.pc.fresh, (file f).ref = 1 ∧
    (file f).type = .none).mpr ⟨hfresh, fun q hq f hf => hkeep q hq f hf ▸ h.fresh q f hf⟩
  ends e := by
    have hsum := Counting.sum_update_add
      (fun y : Proc P π => if y.pc.closing = some e then 1 else 0) s.proc p x
    have hold := h.ends e
    have hnew := hends e
    dsimp only [Handles.count] at hold hnew ⊢
    omega
  pipes := hpipes
  tidy := (forall_update_iff s.proc fun _ y => y.Tidy).mpr ⟨hx.tidy, fun q _ => h.tidy q⟩
  balanced := (forall_update_iff s.proc fun _ y => y.Balanced).mpr
    ⟨hx.balanced, fun q _ => h.balanced q⟩
  child q np i hq := by
    dsimp only at hq ⊢
    by_cases hqp : q = p
    · subst hqp
      rw [update_self] at hq
      obtain ⟨hne, hrest⟩ := hx.child np i hq
      rwa [update_of_ne hne]
    · rw [update_of_ne hqp] at hq
      by_cases hnp : np = p
      · subst hnp
        rw [update_self]
        exact hx.parent q i hqp hq
      · rw [update_of_ne hnp]
        exact h.child q np i hq
  fault := h.fault

omit [DecidableEq P] in
theorem no_parent (hpc : (s.proc p).pc = pc) (hmaker : pc.maker = none) (q : P) (i : ℕ) (_ : q ≠ p)
    (hq : (s.proc q).pc.child = some (p, i)) :
    x.pc = .embryo q ∧ ∀ fd : Fin nofile, i ≤ fd.val → x.ofile fd = none := by
  rw [← hpc, (h.child q p i hq).1] at hmaker
  cases hmaker

omit [DecidableEq P] in
/-- What a process may become that is not being made, and then makes none. -/
theorem becomes (hpc : (s.proc p).pc = pc) (hmaker : pc.maker = none) (htidy : x.Tidy)
    (hbalanced : x.Balanced) (hchild : x.pc.child = none) : s.Becomes p x where
  tidy := htidy
  balanced := hbalanced
  child np i hi := by
    rw [hchild] at hi
    cases hi
  parent := h.no_parent hpc hmaker

theorem own (hrefs : ∀ f, x.refs f = (s.proc p).refs f) (hfresh : x.pc.fresh ⊆ (s.proc p).pc.fresh)
    (hclosing : x.pc.closing = (s.proc p).pc.closing) (hx : s.Becomes p x) : Exact (s.put p x) :=
  h.put (fun f => by rw [hrefs f]) h.untyped (fun _ _ _ _ => rfl)
    (fun f hf => h.fresh p f (hfresh hf)) (fun e => by rw [hclosing]) h.pipes hx

theorem alone (hpc : (s.proc p).pc = pc) (hmaker : pc.maker = none)
    (hrefs : ∀ f, x.refs f = (s.proc p).refs f) (hfresh : x.pc.fresh ⊆ pc.fresh)
    (hclosing : x.pc.closing = pc.closing) (htidy : x.Tidy) (hbalanced : x.Balanced)
    (hchild : x.pc.child = none) : Exact (s.put p x) := by
  subst hpc
  exact h.own hrefs hfresh hclosing (h.becomes rfl hmaker htidy hbalanced hchild)

omit [DecidableEq P] in
/-- What is known of the descriptors, where it is known where the process is. -/
theorem tidyAt (hpc : (s.proc p).pc = pc) : ((s.proc p).goto pc).Tidy := by
  subst hpc
  exact h.tidy p

end Exact

/-! ## Descriptors and counts -/

section Counts

variable {ofile : Fin nofile → Option (Fin nfile)} {fd : Fin nofile} {f : Fin nfile}

omit [Fintype P] [DecidableEq P] [DecidableEq π]

theorem fdalloc_eq_some (h : fdalloc ofile = some fd) : ofile fd = none := by
  simpa using List.find?_some h

theorem Pc.mayFail_clean {now now' : Option (Release π)} {fs fs' : List (Fin nfile)} {k : After}
    (h : (Pc.clean now fs k : Pc P π).mayFail = true) :
    (Pc.clean now' fs' k : Pc P π).mayFail = true := by
  cases k with
  | ret ok => cases ok <;> exact h
  | exitClear fd => exact h

theorem filealloc_eq_some {file : Fin nfile → File π} (h : filealloc file = some f) :
    (file f).ref = 0 := by
  simpa using List.find?_some h

theorem argfd_eq_some {i : ℤ} (h : argfd ofile i = some (fd, f)) : ofile fd = some f := by
  unfold argfd at h
  split_ifs at h with hi
  obtain ⟨g, hg, heq⟩ := Option.map_eq_some_iff.mp h
  cases heq
  exact hg

theorem count_singleton (f g : Fin nfile) : [f].count g = if some f = some g then 1 else 0 := by
  simp [List.count_singleton]

theorem count_singleton_of_ne {f g : Fin nfile} {n : ℕ} (h : g ≠ f) : n + [f].count g = n := by
  rw [List.count_singleton, if_neg (by simpa using h.symm), Nat.add_zero]

theorem count_pair (f0 f1 g : Fin nfile) : [f0, f1].count g = [f0].count g + [f1].count g := by
  rw [List.count_cons, List.count_singleton, List.count_singleton, Nat.add_comm]

theorem count_set (h : ofile fd = none) (g : Fin nfile) :
    Handles.count (update ofile fd (some f)) g = Handles.count ofile g + [f].count g := by
  have hupdate := Handles.count_update ofile fd (some f) g
  rw [h, if_neg (by simp)] at hupdate
  rw [count_singleton]
  omega

theorem count_clear (h : ofile fd = some f) (g : Fin nfile) :
    Handles.count (update ofile fd none) g + [f].count g = Handles.count ofile g := by
  have hupdate := Handles.count_update ofile fd none g
  rw [h, if_neg (by simp : ¬(none : Option (Fin nfile)) = some g)] at hupdate
  rw [count_singleton]
  omega

end Counts

namespace Proc

variable {x y : Proc P π} {pc q : Pc P π}

omit [Fintype P] [DecidableEq P] [DecidableEq π]

theorem balanced_of_not_mayFail (h : x.pc.mayFail = false) : x.Balanced := fun hx => by
  rw [h] at hx
  cases hx

theorem Balanced.keep (h : x.Balanced) (hpc : x.pc = q)
    (hfail : y.pc.mayFail = true → q.mayFail = true) (hnet : y.net = x.net) (hold : y.old = x.old)
    (hrefs : ∀ f, y.refs f = x.refs f) : y.Balanced := fun hy f => by
  subst hpc
  rw [hnet, hold, hrefs f]
  exact h (hfail hy) f

theorem Balanced.count {f : Fin nfile} {n : ℤ} (h : x.Balanced) (hpc : x.pc = q)
    (hfail : pc.mayFail = true → q.mayFail = true)
    (hrefs : ∀ g, (((x.count f n).goto pc).refs g : ℤ) = x.refs g + n * [f].count g) :
    ((x.count f n).goto pc).Balanced := fun hy g => by
  subst hpc
  rw [hrefs g, ← h (hfail hy) g, count_singleton]
  change update x.net f (x.net f + n) g + (Handles.count x.old g : ℤ) = _
  by_cases hgf : g = f
  · subst hgf
    rw [update_self, if_pos rfl]
    omega
  · rw [update_of_ne hgf, if_neg (by simpa using Ne.symm hgf)]
    omega

/-- What is known while files are closed does not depend on which. -/
theorem tidy_clean {now now' : Option (Release π)} {fs fs' : List (Fin nfile)} {k : After}
    (h : (x.goto (.clean now fs k)).Tidy) : (x.goto (.clean now' fs' k)).Tidy := by
  cases k with
  | ret ok => cases ok <;> exact h
  | exitClear fd => exact h

theorem refs_goto (hpc : x.pc = q) (hhidden : pc.hidden = q.hidden) (hheld : pc.held = q.held)
    (f : Fin nfile) : (x.goto pc).refs f = x.refs f := by
  subst hpc
  unfold refs live
  rw [goto, hhidden, hheld]

end Proc

end Xv6.Files
