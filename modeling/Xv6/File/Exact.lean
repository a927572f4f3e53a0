import Mathlib.Data.Fintype.BigOperators
import Xv6.File.Refs

/-!
# References are exact

Every step of a process keeps the counts exact, wherever the call may fail. Most steps are seen by
the process alone (`Exact.pass`, and those that move a reference between a variable and a
descriptor); the others change one file (`Exact.touch`), make or close a pipe, or make a process.
-/

namespace Xv6.Files

open Function List Proc Handles Sys Pc

variable {P π : Type*} [Fintype P] [DecidableEq P] [DecidableEq π]

namespace Exact

/-! ## The end of a file -/

section Ends

omit [Fintype P] [DecidableEq P] [DecidableEq π]

theorem endOf_update (file : Fin nfile → File π) (f : Fin nfile) (y : File π) :
    (fun g => (update file f y g).endOf) = update (fun g => (file g).endOf) f y.endOf := by
  funext g
  by_cases hg : g = f
  · subst hg
    simp
  · simp [update_of_ne hg]

variable {y : File π}

theorem endOf_of_untyped (h : y.type = .none) : y.endOf = none := by
  rw [File.endOf, h]

/-- `fileclose` gives up one reference. -/
theorem close_ref (h : 0 < y.ref) : y.close.1.ref + 1 = y.ref := by
  unfold File.close
  split_ifs <;> dsimp only <;> omega

theorem close_untyped (h : y.close.1.ref = 0) : y.close.1.type = .none := by
  unfold File.close at h ⊢
  split_ifs at h ⊢ with hmore
  · exact absurd h (ne_of_gt hmore)
  · rfl

/-- An end is not lost: when the last reference to it goes, it remains to close it. -/
theorem close_ends [DecidableEq π] (y : File π) (fs : List (Fin nfile)) (k : After) (e : π × Bool) :
    (if y.close.1.endOf = some e then 1 else 0) +
        (if (Pc.clean y.close.2 fs k : Pc P π).closing = some e then 1 else 0) =
      if y.endOf = some e then 1 else 0 := by
  unfold File.close
  by_cases hmore : 0 < y.ref - 1
  · rw [if_pos hmore]
    rfl
  · rw [if_neg hmore]
    unfold File.release File.endOf
    cases y.type <;> simp [closing]

end Ends

/-! ## The steps that only the process can see -/

variable {s : Sys P π} {p np : P} {f f0 f1 : Fin nfile} {fd fd0 fd1 : Fin nofile} {o : Open}
  {k : After} {fs : List (Fin nfile)} {pg : π} {i : ℕ} (h : Exact s)

include h

/-- A step within a call that moves no reference. -/
theorem pass {q pc : Pc P π} (hpc : (s.proc p).pc = q) (hmaker : q.maker = none)
    (hhidden : pc.hidden = q.hidden) (hheld : pc.held = q.held) (hfresh : pc.fresh = [])
    (hclosing : pc.closing = q.closing) (htidy : ((s.proc p).goto pc).Tidy)
    (hfail : pc.mayFail = true → q.mayFail = true) (hchild : pc.child = none) :
    Exact (s.put p ((s.proc p).goto pc)) := by
  have hrefs := Proc.refs_goto hpc hhidden hheld
  refine h.alone hpc hmaker hrefs ?_ hclosing htidy ((h.balanced p).keep hpc hfail rfl rfl hrefs)
    hchild
  change pc.fresh ⊆ q.fresh
  rw [hfresh]
  exact nil_subset _

/-- The reference that `open` has held is now that of a descriptor. -/
theorem openFd (hpc : (s.proc p).pc = .openFd o f)
    (hfd : fdalloc (s.proc p).ofile = some fd) :
    Exact (s.put p (((s.proc p).setFd fd (some f)).goto (.openSet o f fd))) := by
  refine h.alone hpc rfl (fun g => ?_) (List.Subset.refl _) rfl (update_self ..)
    (balanced_of_not_mayFail rfl) rfl
  rw [refs_of_hidden_none rfl rfl, refs_of_hidden_none hpc rfl]
  change Handles.count (update _ fd (some f)) g + 0 = _ + [f].count g
  rw [count_set (fdalloc_eq_some hfd), add_zero]

/-- `pipe` sets the descriptor of its first file. -/
theorem pipeFd0 (hpc : (s.proc p).pc = .pipeFd0 f0 f1)
    (hfd : fdalloc (s.proc p).ofile = some fd) :
    Exact (s.put p (((s.proc p).setFd fd (some f0)).goto (.pipeFd1 f0 f1 fd))) := by
  have hnone := fdalloc_eq_some hfd
  have htidy : (s.proc p).ofile = (s.proc p).old := h.tidyAt hpc
  have hrefs : ∀ g, (((s.proc p).setFd fd (some f0)).goto (.pipeFd1 f0 f1 fd)).refs g =
      (s.proc p).refs g := fun g => by
    rw [refs_of_hidden_none rfl rfl, refs_of_hidden_none hpc rfl]
    change Handles.count (update _ fd (some f0)) g + [f1].count g = _ + [f0, f1].count g
    rw [count_set hnone, count_pair]
    omega
  refine h.alone hpc rfl hrefs (nil_subset _) rfl ⟨?_, ?_⟩
    ((h.balanced p).keep hpc (fun _ => rfl) rfl rfl hrefs) rfl
  · exact congrArg (update · fd (some f0)) htidy
  · exact htidy ▸ hnone

theorem pipeFd1 (hpc : (s.proc p).pc = .pipeFd1 f0 f1 fd0)
    (hfd : fdalloc (s.proc p).ofile = some fd) :
    Exact (s.put p (((s.proc p).setFd fd (some f1)).goto (.pipeCopy f0 f1 fd0 fd))) := by
  have hnone := fdalloc_eq_some hfd
  obtain ⟨hofile, hold⟩ : (s.proc p).ofile = update (s.proc p).old fd0 (some f0) ∧
      (s.proc p).old fd0 = none := h.tidyAt hpc
  have hne : fd ≠ fd0 := by
    rintro rfl
    rw [hofile, update_self] at hnone
    cases hnone
  have hrefs : ∀ g, (((s.proc p).setFd fd (some f1)).goto (.pipeCopy f0 f1 fd0 fd)).refs g =
      (s.proc p).refs g := fun g => by
    rw [refs_of_hidden_none rfl rfl, refs_of_hidden_none hpc rfl]
    change Handles.count (update _ fd (some f1)) g + 0 = _ + [f1].count g
    rw [count_set hnone, add_zero]
  refine h.alone hpc rfl hrefs (nil_subset _) rfl ⟨?_, hold, ?_, hne.symm⟩
    ((h.balanced p).keep hpc (fun _ => rfl) rfl rfl hrefs) rfl
  · exact congrArg (update · fd (some f1)) hofile
  · rw [hofile, update_of_ne hne] at hnone
    exact hnone

/-- There is no second descriptor: `pipe` clears the first and closes both files. -/
theorem pipeFd1_fail (hpc : (s.proc p).pc = .pipeFd1 f0 f1 fd0) :
    Exact (s.put p (((s.proc p).setFd fd0 none).goto (.clean none [f0, f1] (.ret false)))) := by
  obtain ⟨hofile, hold⟩ : (s.proc p).ofile = update (s.proc p).old fd0 (some f0) ∧
      (s.proc p).old fd0 = none := h.tidyAt hpc
  have hset : (s.proc p).ofile fd0 = some f0 := by rw [hofile, update_self]
  have hrefs : ∀ g, (((s.proc p).setFd fd0 none).goto
      (.clean none [f0, f1] (.ret false))).refs g = (s.proc p).refs g := fun g => by
    rw [refs_of_hidden_none rfl rfl, refs_of_hidden_none hpc rfl]
    change Handles.count (update _ fd0 none) g + [f0, f1].count g = _ + [f1].count g
    rw [← count_clear hset, count_pair]
    omega
  refine h.alone hpc rfl hrefs (nil_subset _) rfl ?_
    ((h.balanced p).keep hpc (fun _ => rfl) rfl rfl hrefs) rfl
  change update (s.proc p).ofile fd0 none = (s.proc p).old
  rw [hofile, update_idem, ← hold, update_eq_self]

/-- The descriptors cannot be stored: `pipe` clears both and closes the files. -/
theorem pipeCopy_fail (hpc : (s.proc p).pc = .pipeCopy f0 f1 fd0 fd1) :
    Exact (s.put p ((((s.proc p).setFd fd0 none).setFd fd1 none).goto
      (.clean none [f0, f1] (.ret false)))) := by
  obtain ⟨hofile, hold0, hold1, hne⟩ : (s.proc p).ofile =
      update (update (s.proc p).old fd0 (some f0)) fd1 (some f1) ∧ (s.proc p).old fd0 = none ∧
      (s.proc p).old fd1 = none ∧ fd0 ≠ fd1 := h.tidyAt hpc
  have hset0 : (s.proc p).ofile fd0 = some f0 := by
    rw [hofile, update_of_ne hne, update_self]
  have hset1 : update (s.proc p).ofile fd0 none fd1 = some f1 := by
    rw [update_of_ne hne.symm, hofile, update_self]
  have hrefs : ∀ g, ((((s.proc p).setFd fd0 none).setFd fd1 none).goto
      (.clean none [f0, f1] (.ret false))).refs g = (s.proc p).refs g := fun g => by
    rw [refs_of_hidden_none rfl rfl, refs_of_hidden_none hpc rfl]
    change Handles.count (update (update _ fd0 none) fd1 none) g + [f0, f1].count g = _ + 0
    rw [← count_clear hset0, ← count_clear hset1, count_pair]
    omega
  refine h.alone hpc rfl hrefs (nil_subset _) rfl ?_
    ((h.balanced p).keep hpc (fun _ => rfl) rfl rfl hrefs) rfl
  change update (update (s.proc p).ofile fd0 none) fd1 none = (s.proc p).old
  rw [hofile]
  funext fd
  grind [update_apply]

/-- `exit` closes the file while its descriptor, which no longer counts, is still set. -/
theorem exitAt (fd : Fin nofile) (hpc : (s.proc p).pc = .exitAt fd)
    (hset : (s.proc p).ofile fd = some f) :
    Exact (s.put p ((s.proc p).goto (.clean none [f] (.exitClear fd)))) := by
  have htidy := h.tidyAt hpc
  refine h.alone hpc rfl (fun g => ?_) (nil_subset _) rfl htidy
    (balanced_of_not_mayFail rfl) rfl
  rw [refs_of_hidden fd rfl rfl, refs_of_hidden_none hpc rfl]
  change Handles.count (update (s.proc p).ofile fd none) g + [f].count g = _ + 0
  rw [count_clear hset, add_zero]

theorem exitClear (hpc : (s.proc p).pc = .clean none [] (.exitClear fd)) :
    Exact (s.put p (((s.proc p).setFd fd none).goto (.exitAt (fd + 1)))) := by
  have htidy := h.tidyAt hpc
  refine h.alone hpc rfl (fun g => ?_) (nil_subset _) rfl (fun fd' hfd' => ?_)
    (balanced_of_not_mayFail rfl) rfl
  · rw [refs_of_hidden_none rfl rfl, refs_of_hidden fd hpc rfl]
    rfl
  · change update (s.proc p).ofile fd none fd' = none
    by_cases heq : fd' = fd
    · rw [heq, update_self]
    · rw [update_of_ne heq]
      have hlt : fd'.val ≠ fd.val := fun hval => heq (Fin.ext hval)
      exact htidy fd' (by omega)

/-- A call begins; `dup` and `close` change the descriptors at once. -/
theorem call (hpc : (s.proc p).pc = .idle) (c : Call) :
    Exact (s.put p ((s.proc p).enter.call c)) := by
  have hrefs : ∀ g, (s.proc p).refs g = Handles.count (s.proc p).ofile g :=
    refs_of_held_nil hpc rfl rfl
  -- where the call has only begun
  have hstart : ∀ pc : Pc P π, pc.hidden = none → pc.held = [] → pc.fresh = [] →
      pc.closing = none → pc.child = none → ((s.proc p).enter.goto pc).Tidy →
        Exact (s.put p ((s.proc p).enter.goto pc)) := by
    intro pc hhidden hheld hfresh hclosing hchild htidy
    have hsame : ∀ g, ((s.proc p).enter.goto pc).refs g = Handles.count (s.proc p).ofile g :=
      refs_of_held_nil rfl hhidden hheld
    refine h.alone hpc rfl (fun g => (hsame g).trans (hrefs g).symm) ?_ hclosing htidy
      (fun _ g => ?_) hchild
    · change pc.fresh ⊆ _
      rw [hfresh]
      exact nil_subset _
    · rw [hsame g]
      exact Int.zero_add _
  cases c with
  | «open» o => exact hstart _ rfl rfl rfl rfl rfl rfl
  | dup i =>
    rw [Proc.call]
    split
    · exact hstart _ rfl rfl rfl rfl rfl rfl
    · rename_i fd f hargfd
      have hset := argfd_eq_some hargfd
      split
      · exact hstart _ rfl rfl rfl rfl rfl rfl
      · rename_i fd' hfd
        have hnone := fdalloc_eq_some hfd
        have hset' : (s.proc p).ofile fd = some f := hset
        have hnone' : (s.proc p).ofile fd' = none := hnone
        have hne : fd ≠ fd' := by
          rintro rfl
          rw [hset'] at hnone'
          cases hnone'
        refine h.alone hpc rfl (fun g => ?_) (nil_subset _) rfl
          ⟨update_self .., fd, hne, ?_⟩ (balanced_of_not_mayFail rfl) rfl
        · rw [hrefs g, refs_of_hidden fd' rfl rfl]
          change Handles.count (update (update (s.proc p).ofile fd' (some f)) fd' none) g + 0 = _
          rw [update_idem, ← hnone', update_eq_self, add_zero]
        · exact (update_of_ne hne ..).trans hset'
  | pipe => exact hstart _ rfl rfl rfl rfl rfl rfl
  | close i =>
    rw [Proc.call]
    split
    · exact hstart _ rfl rfl rfl rfl rfl rfl
    · rename_i fd f hargfd
      have hset : (s.proc p).ofile fd = some f := argfd_eq_some hargfd
      refine h.alone hpc rfl (fun g => ?_) (nil_subset _) rfl trivial
        (balanced_of_not_mayFail rfl) rfl
      rw [hrefs g, refs_of_hidden_none rfl rfl]
      change Handles.count (update (s.proc p).ofile fd none) g + [f].count g = _
      rw [count_clear hset]
  | fork | exec => exact hstart _ rfl rfl rfl rfl rfl rfl
  | exit => exact hstart _ rfl rfl rfl rfl rfl fun fd hfd => absurd hfd (Nat.not_lt_zero _)

/-! ## The steps on the tables -/

/-- One file changes, and with it what the process refers to. -/
theorem touch {y : File π} {x : Proc P π}
    (href : y.ref + (s.proc p).refs f = (s.file f).ref + x.refs f)
    (hrefs : ∀ g, g ≠ f → x.refs g = (s.proc p).refs g) (huntyped : y.ref = 0 → y.type = .none)
    (hkeep : ∀ q, q ≠ p → f ∉ (s.proc q).pc.fresh)
    (hfresh : ∀ g ∈ x.pc.fresh, g = f ∧ y.ref = 1 ∧ y.type = .none ∨
      g ≠ f ∧ g ∈ (s.proc p).pc.fresh)
    (hends : ∀ e, (if y.endOf = some e then 1 else 0) + (if x.pc.closing = some e then 1 else 0) =
      (if (s.file f).endOf = some e then 1 else 0) +
        if (s.proc p).pc.closing = some e then 1 else 0)
    (hx : s.Becomes p x) : Exact ((s.setFile f y).put p x) := by
  refine @put _ _ _ _ _ _ _ _ h (update s.file f y) s.pipe (fun g => ?_) (fun g hg => ?_)
    (fun q hq g hg => update_of_ne ?_ ..) (fun g hg => ?_) (fun e => ?_) h.pipes hx
  · by_cases hgf : g = f
    · subst hgf
      rw [update_self]
      exact href
    · rw [update_of_ne hgf, hrefs g hgf]
  · by_cases hgf : g = f
    · subst hgf
      rw [update_self] at hg ⊢
      exact huntyped hg
    · rw [update_of_ne hgf] at hg ⊢
      exact h.untyped g hg
  · rintro rfl
    exact hkeep q hq hg
  · rcases hfresh g hg with ⟨rfl, hy⟩ | ⟨hgf, hg⟩
    · rw [update_self]
      exact hy
    · rw [update_of_ne hgf]
      exact h.fresh p g hg
  · have hcount := count_update (fun g => (s.file g).endOf) f y.endOf e
    have he := hends e
    rw [endOf_update]
    omega

/-- The process takes one reference more. -/
theorem take {y : File π} {x : Proc P π} (hy : y.ref = (s.file f).ref + 1)
    (hrefs : ∀ g, x.refs g = (s.proc p).refs g + [f].count g)
    (hkeep : ∀ q, q ≠ p → f ∉ (s.proc q).pc.fresh)
    (hfresh : ∀ g ∈ x.pc.fresh, g = f ∧ y.ref = 1 ∧ y.type = .none ∨
      g ≠ f ∧ g ∈ (s.proc p).pc.fresh)
    (hends : ∀ e, (if y.endOf = some e then 1 else 0) + (if x.pc.closing = some e then 1 else 0) =
      (if (s.file f).endOf = some e then 1 else 0) +
        if (s.proc p).pc.closing = some e then 1 else 0)
    (hx : s.Becomes p x) : Exact ((s.setFile f y).put p x) := by
  refine h.touch ?_ (fun g hg => ?_) (fun hzero => by omega) hkeep hfresh hends hx
  · rw [hrefs f, hy, count_singleton_self]
    omega
  · rw [hrefs g, count_singleton_of_ne hg]

/-- `filealloc` makes a file with one reference, or the call fails. -/
theorem alloc {q bad : Pc P π} {k : Fin nfile → Pc P π} (hpc : (s.proc p).pc = q)
    (hmaker : q.maker = none) (hhidden : q.hidden = none) (hclosing : q.closing = none)
    (hfail : q.mayFail = true)
    (hk : ∀ f, (k f).hidden = none ∧ (k f).closing = none ∧ (k f).child = none)
    (hheld : ∀ f g, (k f).held.count g = q.held.count g + [f].count g)
    (hfresh : ∀ f, ∀ g ∈ (k f).fresh, g = f ∨ g ∈ q.fresh)
    (htidy : ∀ f, (((s.proc p).count f 1).goto (k f)).Tidy)
    (hbad : Exact (s.put p ((s.proc p).goto bad))) : Exact (s.alloc p k bad) := by
  subst hpc
  unfold Sys.alloc
  split
  · exact hbad
  · rename_i f hf
    have hzero := filealloc_eq_some hf
    have huntyped := h.untyped f hzero
    have hnew : ∀ g, (((s.proc p).count f 1).goto (k f)).refs g =
        (s.proc p).refs g + [f].count g := fun g => by
      rw [refs_of_hidden_none rfl hhidden, refs_of_hidden_none rfl (hk f).1]
      change Handles.count (s.proc p).ofile g + (k f).held.count g = _
      rw [hheld f g, ← add_assoc]
    refine h.take (by rw [hzero]) hnew (fun q _ => h.not_fresh_of_ref_eq_zero hzero q)
      (fun g hg => ?_) (fun e => ?_)
      (h.becomes rfl hmaker (htidy f) ?_ (hk f).2.2)
    · by_cases hgf : g = f
      · exact .inl ⟨hgf, rfl, huntyped⟩
      · exact .inr ⟨hgf, (hfresh f g hg).resolve_left hgf⟩
    · change _ + (if (k f).closing = some e then 1 else 0) = _
      rw [(hk f).2.1, hclosing]
      rfl
    · refine (h.balanced p).count rfl (fun _ => hfail) fun g => ?_
      rw [hnew g]
      omega

theorem openSet (hpc : (s.proc p).pc = .openSet o f fd) :
    Exact ((s.setFile f ((s.file f).opened o)).put p ((s.proc p).goto (.ret true))) := by
  have hmem : f ∈ (s.proc p).pc.fresh := by rw [hpc]; exact mem_singleton_self f
  obtain ⟨hone, htype⟩ := h.fresh p f hmem
  have hpos := (h.tidy p).refs_fresh hmem
  have href : ((s.file f).opened o).ref = (s.file f).ref := by
    unfold File.opened
    cases o.device <;> rfl
  have hend : ((s.file f).opened o).endOf = none := by
    unfold File.opened File.endOf
    cases o.device <;> rfl
  have hrefs : ∀ g, ((s.proc p).goto (.ret true)).refs g = (s.proc p).refs g :=
    Proc.refs_goto hpc rfl rfl
  refine h.touch (by rw [hrefs f, href]) (fun g _ => hrefs g) (fun hzero => ?_)
    (fun q hq => h.not_fresh hpos hq) (fun g hg => absurd hg not_mem_nil) (fun e => ?_)
    (h.becomes hpc rfl trivial (balanced_of_not_mayFail rfl) rfl)
  · rw [href, hone] at hzero
    cases hzero
  · rw [hend, endOf_of_untyped htype, hpc]
    rfl

/-- `dup` takes the reference for the descriptor that it has set. -/
theorem dupRef (hpc : (s.proc p).pc = .dupRef f fd) :
    Exact (s.dup p f ((s.proc p).goto (.ret true))) := by
  obtain ⟨hset, fd', hne, hset'⟩ : (s.proc p).ofile fd = some f ∧
      ∃ fd', fd' ≠ fd ∧ (s.proc p).ofile fd' = some f := h.tidyAt hpc
  have hpos : 0 < (s.proc p).refs f := by
    refine refs_pos_of_live fd' ?_
    rw [live_of_hidden fd hpc rfl, update_of_ne hne, hset']
  have hle := h.refs_le p f
  have hrefs : ∀ g, (((s.proc p).goto (.ret true)).count f 1).refs g =
      (s.proc p).refs g + [f].count g := fun g => by
    rw [refs_of_held_nil rfl rfl rfl, refs_of_hidden fd hpc rfl]
    change Handles.count (s.proc p).ofile g = _ + 0 + _
    rw [add_zero, count_clear hset]
  unfold Sys.dup
  rw [if_neg (by omega)]
  refine h.take rfl hrefs (fun q hq => h.not_fresh hpos hq) (fun g hg => absurd hg not_mem_nil)
    (fun e => ?_) (h.becomes hpc rfl trivial (balanced_of_not_mayFail rfl) rfl)
  rw [hpc]
  rfl

/-- `fileclose` finds a count that is not 0 and gives up the reference of the process. -/
theorem fileclose (hpc : (s.proc p).pc = .clean none (f :: fs) k) :
    0 < (s.file f).ref ∧ Exact ((s.setFile f (s.file f).close.1).put p
      (((s.proc p).count f (-1)).goto (.clean (s.file f).close.2 fs k))) := by
  have hpos : 0 < (s.proc p).refs f := refs_pos_of_held hpc mem_cons_self
  have hle := h.refs_le p f
  have hrefs : ∀ g, (s.proc p).refs g = (((s.proc p).count f (-1)).goto
      (.clean (s.file f).close.2 fs k)).refs g + [f].count g := fun g => by
    have hlive : (((s.proc p).count f (-1)).goto (.clean (s.file f).close.2 fs k)).live =
        (s.proc p).live := by
      funext fd
      unfold Proc.live
      rw [hpc]
      cases k <;> rfl
    unfold Proc.refs
    rw [hlive, hpc]
    change _ + (f :: fs).count g = _ + fs.count g + _
    rw [← singleton_append, count_append]
    omega
  refine ⟨by omega, h.touch ?_ (fun g hg => ?_) (fun hzero => ?_) (fun q hq => h.not_fresh hpos hq)
    (by cases k <;> exact fun g hg => absurd hg not_mem_nil) (fun e => ?_)
    (h.becomes hpc rfl ?_ ?_ (by cases k <;> rfl))⟩
  · have href := hrefs f
    have hclose := close_ref (hpos.trans_le hle)
    rw [count_singleton_self] at href
    omega
  · rw [hrefs g, count_singleton_of_ne hg]
  · exact close_untyped hzero
  · have hends := close_ends (P := P) (s.file f) fs k e
    rw [hpc]
    exact hends
  · exact tidy_clean (h.tidyAt hpc)
  · refine (h.balanced p).count hpc mayFail_clean (fun g => ?_)
    rw [hrefs g]
    omega

/-- `pipe` makes both ends of a pipe at once. -/
theorem pipePage (hpc : (s.proc p).pc = .pipePage f0 f1) (hpg : s.pipe pg = none) :
    Exact ((((s.setPipe pg (some ⟨true, true⟩)).setFile f0 ((s.file f0).piped pg false)).setFile
      f1 ((s.file f1).piped pg true)).put p ((s.proc p).goto (.pipeFd0 f0 f1))) := by
  have hmem0 : f0 ∈ (s.proc p).pc.fresh := by rw [hpc]; exact mem_cons_self
  have hmem1 : f1 ∈ (s.proc p).pc.fresh := by
    rw [hpc]
    exact mem_cons_of_mem _ (mem_singleton_self f1)
  obtain ⟨hone0, htype0⟩ := h.fresh p f0 hmem0
  obtain ⟨hone1, htype1⟩ := h.fresh p f1 hmem1
  -- a file that is new has one reference
  have hne : f1 ≠ f0 := by
    rintro rfl
    have hle := h.refs_le p f1
    have htwo : (s.proc p).refs f1 = Handles.count (s.proc p).ofile f1 + 2 := by
      rw [refs_of_hidden_none hpc rfl]
      change _ + [f1, f1].count f1 = _
      rw [count_pair, count_singleton_self]
    omega
  have hrefs : ∀ g, ((s.proc p).goto (.pipeFd0 f0 f1)).refs g = (s.proc p).refs g :=
    Proc.refs_goto hpc rfl rfl
  have hfile : ∀ g, ((update (update s.file f0 ((s.file f0).piped pg false)) f1
      ((s.file f1).piped pg true)) g).ref = (s.file g).ref := by
    intro g
    by_cases hg1 : g = f1
    · subst hg1
      rw [update_self]
      rfl
    · rw [update_of_ne hg1]
      by_cases hg0 : g = f0
      · subst hg0
        rw [update_self]
        rfl
      · rw [update_of_ne hg0]
  have hother : ∀ g, g ≠ f0 → g ≠ f1 → update (update s.file f0
      ((s.file f0).piped pg false)) f1 ((s.file f1).piped pg true) g = s.file g := by
    intro g hg0 hg1
    rw [update_of_ne hg1, update_of_ne hg0]
  have htidy : (s.proc p).ofile = (s.proc p).old := h.tidyAt hpc
  refine h.put (fun g => ?_) (fun g hg => ?_) (fun q hq g hg => ?_)
    (fun g hg => absurd hg not_mem_nil) (fun e => ?_) (fun pg' st hst => ?_)
    (h.becomes hpc rfl htidy ((h.balanced p).keep hpc (fun _ => rfl) rfl rfl hrefs) rfl)
  · rw [hrefs g]
    exact congrArg (· + _) (hfile g)
  · have hzero : (s.file g).ref = 0 := (hfile g).symm.trans hg
    refine (congrArg File.type (hother g ?_ ?_)).trans (h.untyped g hzero)
    · rintro rfl
      omega
    · rintro rfl
      omega
  · refine hother g ?_ ?_
    · rintro rfl
      exact h.not_fresh ((h.tidy p).refs_fresh hmem0) hq hg
    · rintro rfl
      exact h.not_fresh ((h.tidy p).refs_fresh hmem1) hq hg
  · -- two ends more, and both are open
    have hcount0 := count_update (fun g => (s.file g).endOf) f0 (some (pg, false)) e
    have hcount1 := count_update (update (fun g => (s.file g).endOf) f0
      (some (pg, false))) f1 (some (pg, true)) e
    rw [endOf_of_untyped htype0] at hcount0
    rw [update_of_ne hne, endOf_of_untyped htype1] at hcount1
    have hends : (fun g => (update (update s.file f0
        ((s.file f0).piped pg false)) f1 ((s.file f1).piped pg true) g).endOf) =
          update (update (fun g => (s.file g).endOf) f0 (some (pg, false))) f1
            (some (pg, true)) := by
      rw [endOf_update, endOf_update]
      rfl
    have hopen : isOpen (update s.pipe pg (some ⟨true, true⟩)) e = isOpen s.pipe e +
        (if some (pg, false) = some e then 1 else 0) +
          if some (pg, true) = some e then 1 else 0 := by
      obtain ⟨pg', writable⟩ := e
      by_cases hpg' : pg' = pg
      · subst hpg'
        cases writable <;> simp [isOpen, hpg]
      · simp [isOpen, update_of_ne hpg', Ne.symm hpg']
    rw [hpc]
    change Handles.count (fun g => (update (update s.file f0
      ((s.file f0).piped pg false)) f1 ((s.file f1).piped pg true) g).endOf) e + 0 + _ =
        _ + 0 + isOpen (update s.pipe pg (some ⟨true, true⟩)) e
    rw [hends, hopen]
    simp only [reduceCtorEq, if_false] at hcount0 hcount1
    omega
  · change update s.pipe pg (some ⟨true, true⟩) pg' = some st at hst
    by_cases hpg' : pg' = pg
    · subst hpg'
      rw [update_self] at hst
      cases hst
      exact .inl rfl
    · rw [update_of_ne hpg'] at hst
      exact h.pipes pg' st hst

/-- An end that is closed was open; the page goes with the second. -/
theorem pipeclose {writable : Bool}
    (hpc : (s.proc p).pc = .clean (some (.pipe pg writable)) fs k) :
    Exact ((s.pipeclose pg writable).put p ((s.proc p).goto (.clean none fs k))) := by
  have hclosing : (s.proc p).pc.closing = some (pg, writable) := by rw [hpc]; rfl
  have hopen : 0 < isOpen s.pipe (pg, writable) := by
    rw [← h.ends]
    exact Nat.add_pos_right _ (count_pos (h := p) hclosing)
  have hrefs : ∀ g, ((s.proc p).goto (.clean none fs k)).refs g = (s.proc p).refs g :=
    Proc.refs_goto hpc (by cases k <;> rfl) rfl
  unfold Sys.pipeclose
  cases hpg : s.pipe pg with
  | none =>
    rw [isOpen, hpg] at hopen
    exact absurd hopen (lt_irrefl _)
  | some st =>
    have hst : (if writable then st.writeopen else st.readopen) = true := by
      rw [isOpen, hpg] at hopen
      by_contra hclosed
      dsimp only at hopen
      rw [if_neg hclosed] at hopen
      exact lt_irrefl _ hopen
    refine h.put (fun g => by rw [hrefs g]; rfl) h.untyped (fun _ _ _ _ => rfl)
      (by cases k <;> exact fun g hg => absurd hg not_mem_nil) (fun e => ?_)
      (fun pg' st' hst' => ?_) (h.becomes hpc rfl ?_
        ((h.balanced p).keep hpc mayFail_clean rfl rfl hrefs) (by cases k <;> rfl))
    · rw [hclosing]
      obtain ⟨pg', writable'⟩ := e
      by_cases hpg' : pg' = pg
      · subst hpg'
        obtain ⟨r, w⟩ := st
        cases writable <;> cases writable' <;> cases r <;> cases w <;>
          simp_all [isOpen, Pipe.close, closing, Proc.goto]
      · simp [isOpen, update_of_ne hpg', Ne.symm hpg', closing, Proc.goto]
    · change update s.pipe pg _ pg' = some st' at hst'
      by_cases hpg' : pg' = pg
      · subst hpg'
        rw [update_self] at hst'
        split_ifs at hst' with hboth
        cases hst'
        obtain ⟨r, w⟩ := st
        cases writable <;> cases r <;> cases w <;> simp_all [Pipe.close]
      · rw [update_of_ne hpg'] at hst'
        exact h.pipes pg' st' hst'
    · exact tidy_clean (h.tidyAt hpc)

/-! ## `fork` -/

omit [DecidableEq P] in
theorem child_ne (hchild : (s.proc p).pc.child = some (np, i)) : np ≠ p := by
  rintro rfl
  have hembryo := (h.child np np i hchild).1
  rw [hembryo] at hchild
  cases hchild

omit [DecidableEq P] in
theorem maker_eq {q : P} (hpc : (s.proc np).pc = .embryo p)
    (hq : (s.proc q).pc.child = some (np, i)) : q = p := by
  cases hpc.symm.trans (h.child q np i hq).1
  rfl

theorem forkStart (hpc : (s.proc p).pc = .forkStart) (hne : np ≠ p)
    (hnp : (s.proc np).pc = .unused) :
    Exact ((s.put np ((s.proc np).goto (.embryo p))).put p ((s.proc p).goto (.forkMem np))) := by
  have hempty := h.tidyAt hnp
  have htidy : (s.proc p).ofile = (s.proc p).old := h.tidyAt hpc
  have h1 : Exact (s.put np ((s.proc np).goto (.embryo p))) :=
    h.alone hnp rfl (Proc.refs_goto hnp rfl rfl) (nil_subset _) rfl trivial
      (balanced_of_not_mayFail rfl) rfl
  have hsame : (s.put np ((s.proc np).goto (.embryo p))).proc p = s.proc p :=
    update_of_ne hne.symm ..
  have hpc1 : ((s.put np ((s.proc np).goto (.embryo p))).proc p).pc = .forkStart := by
    rw [hsame, hpc]
  have hrefs : ∀ f, ((s.proc p).goto (.forkMem np)).refs f = (s.proc p).refs f :=
    Proc.refs_goto hpc rfl rfl
  refine h1.own (fun f => by rw [hsame]; exact hrefs f) (nil_subset _) (by rw [hpc1]; rfl)
    ⟨htidy, (h.balanced p).keep hpc (fun _ => rfl) rfl rfl hrefs, fun np' i hi => ?_,
      h1.no_parent hpc1 rfl⟩
  cases hi
  refine ⟨hne, ?_, fun fd _ => ?_⟩
  · rw [put_proc, update_self]
    rfl
  · rw [put_proc, update_self]
    exact hempty fd

theorem forkMem (hpc : (s.proc p).pc = .forkMem np) :
    Exact (s.put p ((s.proc p).goto (.forkCopy np 0))) := by
  have hchild : (s.proc p).pc.child = some (np, 0) := by rw [hpc]; rfl
  refine h.own (Proc.refs_goto hpc rfl rfl) (nil_subset _) (by rw [hpc]; rfl)
    ⟨trivial, balanced_of_not_mayFail rfl, fun np' i hi => ?_, h.no_parent hpc rfl⟩
  cases hi
  exact ⟨h.child_ne hchild, h.child p np 0 hchild⟩

theorem leave {x : Proc P π} (hchild : (s.proc p).pc.child = some (np, i))
    (hx : Exact (s.put p x)) (hnone : x.pc.child = none) {pc : Pc P π} (hhidden : pc.hidden = none)
    (hheld : pc.held = []) (hfresh : pc.fresh = []) (hclosing : pc.closing = none)
    (hfail : pc.mayFail = false) (hmakes : pc.child = none) (htidy : ((s.proc np).goto pc).Tidy) :
    Exact ((s.put p x).put np ((s.proc np).goto pc)) := by
  have hne := h.child_ne hchild
  obtain ⟨hembryo, -⟩ := h.child p np i hchild
  have hsame : (s.put p x).proc np = s.proc np := update_of_ne hne ..
  refine hx.own (fun f => ?_) ?_ ?_ ⟨htidy, balanced_of_not_mayFail hfail, fun np' j hj => ?_,
    fun q j _ hq => ?_⟩
  · rw [hsame]
    exact Proc.refs_goto hembryo hhidden hheld f
  · change pc.fresh ⊆ _
    rw [hfresh]
    exact nil_subset _
  · rw [hsame, hembryo]
    exact hclosing
  · change pc.child = _ at hj
    rw [hmakes] at hj
    cases hj
  · by_cases hqp : q = p
    · subst hqp
      rw [put_proc, update_self, hnone] at hq
      cases hq
    · rw [put_proc, update_of_ne hqp] at hq
      exact absurd (h.maker_eq hembryo hq) hqp

/-- `fork` takes a reference for every descriptor that it copies. -/
theorem forkCopy (hpc : (s.proc p).pc = .forkCopy np i) :
    Exact (s.copy p (s.proc p) np i) := by
  have hchild : (s.proc p).pc.child = some (np, i) := by rw [hpc]; rfl
  have hne := h.child_ne hchild
  obtain ⟨hembryo, hempty⟩ := h.child p np i hchild
  -- the parent goes on
  have hparent : ∀ x : Proc P π, x.pc = .forkCopy np (i + 1) → x.ofile = (s.proc p).ofile →
      Exact (s.put p x) := by
    intro x hx hofile
    refine h.own (fun f => ?_) (by rw [hx]; exact nil_subset _) (by rw [hx, hpc]; rfl)
      ⟨by rw [Proc.Tidy, hx]; trivial, balanced_of_not_mayFail (by rw [hx]; rfl),
        fun np' j hj => ?_, h.no_parent hpc rfl⟩
    · rw [refs_of_held_nil hx rfl rfl, refs_of_held_nil hpc rfl rfl, hofile]
    · rw [hx] at hj
      cases hj
      exact ⟨hne, hembryo, fun fd hfd => hempty fd (by omega)⟩
  unfold Sys.copy
  split_ifs with hi
  · split
    · exact hparent _ rfl rfl
    · rename_i f hset
      have hpos : 0 < (s.proc p).refs f := by
        refine refs_pos_of_live ⟨i, hi⟩ ?_
        rw [live_of_hidden_none hpc rfl, hset]
      have hle := h.refs_le p f
      have h1 := hparent (((s.proc p).goto (.forkCopy np (i + 1))).count f 1) rfl rfl
      have hsame : (s.put p (((s.proc p).goto (.forkCopy np (i + 1))).count f 1)).proc np =
          s.proc np := update_of_ne hne ..
      have hrefs : ∀ g, ((s.proc np).setFd ⟨i, hi⟩ (some f)).refs g =
          (s.proc np).refs g + [f].count g := fun g => by
        rw [refs_of_held_nil (x := (s.proc np).setFd ⟨i, hi⟩ (some f)) hembryo rfl rfl,
          refs_of_held_nil hembryo rfl rfl]
        exact count_set (hempty ⟨i, hi⟩ (le_refl _)) g
      have h2 := h1.take (p := np) (f := f) (y := { s.file f with ref := (s.file f).ref + 1 }) rfl
        (fun g => by rw [hrefs g, hsame]) (fun q hq => ?_) (fun g hg => ?_) (fun e => ?_)
        ⟨?_, ?_, fun np' j hj => ?_, fun q j hq hqchild => ?_⟩
      · unfold Sys.dup
        rw [if_neg (by omega)]
        exact h2
      · by_cases hqp : q = p
        · subst hqp
          rw [put_proc, update_self]
          exact not_mem_nil
        · rw [put_proc, update_of_ne hqp]
          exact h.not_fresh hpos hqp
      · have hnil : ((s.proc np).setFd ⟨i, hi⟩ (some f)).pc.fresh = [] := congrArg Pc.fresh hembryo
        rw [hnil] at hg
        cases hg
      · rw [hsame]
        rfl
      · rw [Proc.Tidy, show ((s.proc np).setFd ⟨i, hi⟩ (some f)).pc = .embryo p from hembryo]
        trivial
      · exact balanced_of_not_mayFail (congrArg mayFail hembryo)
      · cases (congrArg Pc.child hembryo).symm.trans hj
      · by_cases hqp : q = p
        · subst hqp
          rw [put_proc, update_self] at hqchild
          cases hqchild
          refine ⟨hembryo, fun fd hfd => ?_⟩
          have hfd' : fd ≠ ⟨i, hi⟩ := by
            rintro rfl
            exact absurd hfd (Nat.not_succ_le_self i)
          exact (update_of_ne hfd' ..).trans (hempty fd (by omega))
        · rw [put_proc, update_of_ne hqp] at hqchild
          exact absurd (h.maker_eq hembryo hqchild) hqp
  · refine h.leave hchild ?_ rfl rfl rfl rfl rfl rfl rfl trivial
    exact h.pass hpc rfl rfl rfl rfl rfl trivial (fun hfail => absurd hfail Bool.false_ne_true) rfl

/-! ## Every step -/

theorem clean {now : Option (Release π)} (hpc : (s.proc p).pc = .clean now fs k) :
    Exact (s.clean p (s.proc p) fs k now) := by
  have htidy := h.tidyAt hpc
  unfold Sys.clean
  split
  · exact h.pipeclose hpc
  · exact h.pass hpc rfl (by cases k <;> rfl) rfl (by cases k <;> rfl) rfl
      (tidy_clean htidy) mayFail_clean (by cases k <;> rfl)
  · split
    · rename_i f fs
      obtain ⟨hpos, hnext⟩ := h.fileclose hpc
      rw [if_neg (by omega)]
      exact hnext
    · split
      · rename_i ok
        refine h.pass hpc rfl rfl rfl rfl rfl ?_ (fun hfail => ?_) rfl
        · cases ok <;> exact htidy
        · cases ok <;> exact hfail
      · exact h.exitClear hpc

theorem exitLoop (hpc : (s.proc p).pc = .exitAt i) :
    Exact (s.exitLoop p (s.proc p) i) := by
  have htidy := h.tidyAt hpc
  unfold Sys.exitLoop
  split_ifs with hi
  · split
    · rename_i hnone
      refine h.pass hpc rfl rfl rfl rfl rfl (fun fd hfd => ?_) id rfl
      by_cases heq : fd.val = i
      · cases heq
        exact hnone
      · exact htidy fd (by omega)
    · rename_i f hset
      exact h.exitAt ⟨i, hi⟩ hpc hset
  · exact h.pass hpc rfl rfl rfl rfl rfl (fun fd => htidy fd (by omega)) id rfl

theorem next {s' : Sys P π} {ok : Bool} (hs : s.next p ok np pg = some s') :
    Exact s' := by
  unfold Sys.next at hs
  dsimp only at hs
  cases hpc : (s.proc p).pc with
  | ret r =>
    rw [hpc] at hs
    cases hs
    exact h.pass hpc rfl rfl rfl rfl rfl trivial (fun hfail => absurd hfail Bool.false_ne_true) rfl
  | openStart o =>
    have htidy := h.tidyAt hpc
    rw [hpc] at hs
    cases hs
    have hbad : Exact (s.put p ((s.proc p).goto (.ret false))) :=
      h.pass hpc rfl rfl rfl rfl rfl htidy (fun _ => rfl) rfl
    split_ifs
    · exact h.alloc hpc rfl rfl rfl rfl (fun _ => ⟨rfl, rfl, rfl⟩)
        (fun f g => (zero_add _).symm) (fun f g hg => .inl (mem_singleton.mp hg))
        (fun _ => htidy) hbad
    · exact hbad
  | openFd o f =>
    have htidy := h.tidyAt hpc
    simp only [hpc] at hs
    split at hs
    · cases hs
      exact h.pass hpc rfl rfl rfl rfl rfl htidy (fun _ => rfl) rfl
    · rename_i fd hfd
      cases hs
      exact h.openFd hpc hfd
  | openSet o f fd =>
    rw [hpc] at hs
    cases hs
    exact h.openSet hpc
  | dupRef f fd =>
    rw [hpc] at hs
    cases hs
    exact h.dupRef hpc
  | pipeAlloc0 =>
    have htidy := h.tidyAt hpc
    rw [hpc] at hs
    cases hs
    exact h.alloc hpc rfl rfl rfl rfl (fun _ => ⟨rfl, rfl, rfl⟩) (fun f g => (zero_add _).symm)
      (fun f g hg => .inl (mem_singleton.mp hg)) (fun _ => htidy)
      (h.pass hpc rfl rfl rfl rfl rfl htidy (fun _ => rfl) rfl)
  | pipeAlloc1 f0 =>
    have htidy := h.tidyAt hpc
    rw [hpc] at hs
    cases hs
    refine h.alloc hpc rfl rfl rfl rfl (fun _ => ⟨rfl, rfl, rfl⟩) (fun f g => count_pair f0 f g)
      (fun f g hg => ?_) (fun _ => htidy)
      (h.pass hpc rfl rfl rfl rfl rfl htidy (fun _ => rfl) rfl)
    rcases mem_cons.mp hg with rfl | hg
    · exact .inr (mem_singleton_self g)
    · exact .inl (mem_singleton.mp hg)
  | pipePage f0 f1 =>
    have htidy := h.tidyAt hpc
    simp only [hpc] at hs
    split_ifs at hs with hok hpg
    · cases hs
      exact h.pipePage hpc hpg
    · cases hs
      exact h.pass hpc rfl rfl rfl rfl rfl htidy (fun _ => rfl) rfl
  | pipeFd0 f0 f1 =>
    have htidy := h.tidyAt hpc
    simp only [hpc] at hs
    split at hs
    · cases hs
      exact h.pass hpc rfl rfl rfl rfl rfl htidy (fun _ => rfl) rfl
    · rename_i fd hfd
      cases hs
      exact h.pipeFd0 hpc hfd
  | pipeFd1 f0 f1 fd0 =>
    simp only [hpc] at hs
    split at hs
    · cases hs
      exact h.pipeFd1_fail hpc
    · rename_i fd hfd
      cases hs
      exact h.pipeFd1 hpc hfd
  | pipeCopy f0 f1 fd0 fd1 =>
    simp only [hpc] at hs
    split_ifs at hs
    · cases hs
      exact h.pass hpc rfl rfl rfl rfl rfl trivial (fun hf => absurd hf Bool.false_ne_true) rfl
    · cases hs
      exact h.pipeCopy_fail hpc
  | forkStart =>
    have htidy := h.tidyAt hpc
    simp only [hpc] at hs
    split_ifs at hs with hok hnp
    · cases hs
      exact h.forkStart hpc hnp.1 hnp.2
    · cases hs
      exact h.pass hpc rfl rfl rfl rfl rfl htidy (fun _ => rfl) rfl
  | forkMem np =>
    have htidy := h.tidyAt hpc
    simp only [hpc] at hs
    split_ifs at hs
    · cases hs
      exact h.forkMem hpc
    · cases hs
      have hchild : (s.proc p).pc.child = some (np, 0) := by rw [hpc]; rfl
      have hret : Exact (s.put p ((s.proc p).goto (.ret false))) :=
        h.pass hpc rfl rfl rfl rfl rfl htidy (fun _ => rfl) rfl
      exact h.leave hchild hret rfl rfl rfl rfl rfl rfl rfl fun fd =>
        (h.child p np 0 hchild).2 fd (Nat.zero_le _)
  | forkCopy np i =>
    rw [hpc] at hs
    cases hs
    exact h.forkCopy hpc
  | exec =>
    have htidy := h.tidyAt hpc
    rw [hpc] at hs
    cases hs
    refine h.pass hpc rfl (by cases ok <;> rfl) rfl rfl rfl ?_ (fun _ => rfl) rfl
    cases ok
    · exact htidy
    · trivial
  | exitAt i =>
    rw [hpc] at hs
    cases hs
    exact h.exitLoop hpc
  | clean now fs k =>
    rw [hpc] at hs
    cases hs
    exact h.clean hpc
  | unused | embryo _ | zombie | idle =>
    rw [hpc] at hs
    cases hs

/-- **Every step** keeps the invariant. -/
theorem step {s' : Sys P π} {a : Act P π} (hs : s.step a = some s') : Exact s' := by
  cases a with
  | call p c =>
    rw [Sys.step, Option.ite_none_right_eq_some] at hs
    cases hs.2
    exact h.call hs.1 c
  | next p ok np pg => exact h.next hs
  | reap p =>
    rw [Sys.step, Option.ite_none_right_eq_some] at hs
    obtain ⟨hpc, hs⟩ := hs
    cases hs
    have htidy := h.tidyAt hpc
    exact h.pass hpc rfl rfl rfl rfl rfl htidy id rfl

end Exact

/-! ## Every run -/

theorem Exact.boot (null : π) (init : P) : Exact (.boot null init : Sys P π) := by
  have hpc : ∀ p, ((Sys.boot null init : Sys P π).proc p).pc = .idle ∨
      ((Sys.boot null init : Sys P π).proc p).pc = .unused := fun p => by
    by_cases hp : p = init
    · exact .inl (if_pos hp)
    · exact .inr (if_neg hp)
  have hheld : ∀ p, ((Sys.boot null init : Sys P π).proc p).pc.held = [] := fun p => by
    rcases hpc p with hp | hp <;> rw [hp] <;> rfl
  have hhidden : ∀ p, ((Sys.boot null init : Sys P π).proc p).pc.hidden = none := fun p => by
    rcases hpc p with hp | hp <;> rw [hp] <;> rfl
  refine ⟨fun f => ?_, fun _ _ => rfl, fun p f hf => ?_, fun e => ?_, nofun, fun p => ?_,
    fun p => ?_,
    fun p np i hi => ?_, rfl⟩
  · refine (Finset.sum_eq_zero fun p _ => ?_).symm
    have hofile : ((Sys.boot null init : Sys P π).proc p).ofile = fun _ => none := rfl
    rw [refs_of_held_nil rfl (hhidden p) (hheld p), hofile, count_const_none]
  · rcases hpc p with hp | hp <;> rw [hp] at hf <;> cases hf
  · have hclosing : (fun p => ((Sys.boot null init : Sys P π).proc p).pc.closing) =
        fun _ => none := by
      funext p
      rcases hpc p with hp | hp <;> rw [hp] <;> rfl
    have hends : (fun f => ((Sys.boot null init : Sys P π).file f).endOf) = fun _ => none := rfl
    rw [hclosing, hends, count_const_none, count_const_none]
    rfl
  · rw [Proc.Tidy]
    rcases hpc p with hp | hp <;> rw [hp]
    · trivial
    · exact fun _ => rfl
  · refine balanced_of_not_mayFail ?_
    rcases hpc p with hp | hp <;> rw [hp] <;> rfl
  · rcases hpc p with hp | hp <;> rw [hp] at hi <;> cases hi

/-- **Every reachable state** has exact counts. -/
theorem exact {null : π} {init : P} {s : Sys P π} (h : (files null init).Reachable s) : Exact s :=
  h.invariant (fun s hs => by cases hs; exact .boot null init) fun _ _ _ hs hstep => hs.step hstep

/-- No process is in a call. -/
def Sys.Between (s : Sys P π) : Prop :=
  ∀ p, (s.proc p).pc = .idle ∨ (s.proc p).pc = .unused ∨ (s.proc p).pc = .zombie

namespace Exact

variable {s : Sys P π}

omit [Fintype P] [DecidableEq P] [DecidableEq π] in
theorem refs_between (h : s.Between) (p : P) (f : Fin nfile) :
    (s.proc p).refs f = Handles.count (s.proc p).ofile f := by
  refine refs_of_held_nil rfl ?_ ?_ f
  · rcases h p with hp | hp | hp <;> rw [hp] <;> rfl
  · rcases h p with hp | hp | hp <;> rw [hp] <;> rfl

omit [DecidableEq P] in
/-- Between calls the count of a file is the number of its descriptors. -/
theorem ref_between (h : Exact s) (hb : s.Between) (f : Fin nfile) :
    (s.file f).ref = (Finset.univ.filter fun x : P × Fin nofile =>
      (s.proc x.1).ofile x.2 = some f).card := by
  rw [h.refs f, Finset.card_filter, Fintype.sum_prod_type]
  exact Finset.sum_congr rfl fun p _ => refs_between hb p f

omit [DecidableEq P] in
/-- Between calls an end of a pipe is open as long as there is a descriptor for it. -/
theorem end_between (h : Exact s) (hb : s.Between) (e : π × Bool) :
    0 < isOpen s.pipe e ↔ ∃ p fd f, (s.proc p).ofile fd = some f ∧ (s.file f).endOf = some e := by
  have hclosing : (fun p => (s.proc p).pc.closing) = fun _ => none := by
    funext p
    rcases hb p with hp | hp | hp <;> rw [hp] <;> rfl
  rw [← h.ends, hclosing, count_const_none, add_zero]
  constructor
  · intro hpos
    obtain ⟨f, -, hf⟩ := Finset.exists_ne_zero_of_sum_ne_zero (ne_of_gt hpos)
    have hend : (s.file f).endOf = some e := by
      by_contra hne
      exact hf (if_neg hne)
    -- the file has a type, so it has a reference
    have href : (s.file f).ref ≠ 0 := fun hzero => by
      rw [endOf_of_untyped (h.untyped f hzero)] at hend
      cases hend
    rw [h.ref_between hb f] at href
    obtain ⟨x, hx⟩ := Finset.card_ne_zero.mp href
    exact ⟨x.1, x.2, f, (Finset.mem_filter.mp hx).2, hend⟩
  · rintro ⟨p, fd, f, -, hend⟩
    exact count_pos (f := fun f => (s.file f).endOf) (h := f) hend

omit [DecidableEq P] in
theorem page_of_end (h : Exact s) {f : Fin nfile} {e : π × Bool}
    (hend : (s.file f).endOf = some e) : s.pipe e.1 ≠ none := fun hnone => by
  have hpos : 0 < isOpen s.pipe e := by
    rw [← h.ends]
    exact Nat.add_pos_left (count_pos (f := fun f => (s.file f).endOf) (h := f) hend) _
  rw [isOpen, hnone] at hpos
  exact lt_irrefl _ hpos

end Exact

omit [Fintype P] [DecidableEq P] [DecidableEq π] in
theorem endOf_eq_some {y : File π} {pg : π} {writable : Bool} :
    y.endOf = some (pg, writable) ↔ y.type = .pipe ∧ y.pipe = pg ∧ y.writable = writable := by
  unfold File.endOf
  cases y.type <;> simp

/-! ### Tables of others -/

def Act.proc : Act P π → P
  | .call p _ | .next p _ _ _ | .reap p => p

section Others

variable {s s' : Sys P π} {p q np : P} {x y : Proc P π} {f : Fin nfile}

/-- The descriptors of others stay as they are. -/
def Others (p : P) (s s' : Sys P π) : Prop :=
  ∀ q, q ≠ p → (s.proc q).pc ≠ .embryo p → (s'.proc q).ofile = (s.proc q).ofile

omit [Fintype P] [DecidableEq π]

theorem others_put (hproc : s'.proc = s.proc) : Others p s (s'.put p x) := fun q hq _ => by
  rw [put_proc, update_of_ne hq, hproc]

omit [DecidableEq P] in
theorem others_fail {e : Fault} : Others p s (s.fail e) := fun _ _ _ => rfl

/-- The descriptors of a process that is being made, or will be, may change. -/
theorem others_put_put (hproc : s'.proc = s.proc)
    (hy : (s.proc np).pc = .embryo p ∨ y.ofile = (s.proc np).ofile) :
    Others p s ((s'.put p x).put np y) := fun q hq hembryo => by
  by_cases hnp : q = np
  · subst hnp
    rw [put_proc, update_self]
    exact hy.resolve_left hembryo
  · rw [put_proc, update_of_ne hnp]
    exact others_put hproc q hq hembryo

theorem others_alloc {k : Fin nfile → Pc P π} {bad : Pc P π} : Others p s (s.alloc p k bad) := by
  unfold Sys.alloc
  split <;> exact others_put rfl

theorem others_dup : Others p s (s.dup p f x) := by
  unfold Sys.dup
  split_ifs
  · exact others_fail
  · exact others_put rfl

variable [DecidableEq π]

theorem others_clean {now : Option (Release π)} {fs : List (Fin nfile)} {k : After} :
    Others p s (s.clean p x fs k now) := by
  unfold Sys.clean
  split
  · unfold Sys.pipeclose
    split <;> exact others_put rfl
  · exact others_put rfl
  · split
    · split_ifs
      · exact others_fail
      · exact others_put rfl
    · split <;> exact others_put rfl

variable [Fintype P]

theorem others_copy (h : Exact s) {i : ℕ} (hpc : (s.proc p).pc = .forkCopy np i) :
    Others p s (s.copy p x np i) := by
  have hembryo := (h.child p np i (by rw [hpc]; rfl)).1
  unfold Sys.copy
  split_ifs with hi
  · split
    · exact others_put rfl
    · unfold Sys.dup
      split_ifs
      · intro q hq hne
        rw [put_proc, update_of_ne]
        · rfl
        · rintro rfl
          exact hne hembryo
      · exact others_put_put rfl (.inl hembryo)
  · exact others_put_put rfl (.inr rfl)

/-- **Only its own**: a step changes the descriptors of the process that takes it, and of one that
this process is making. -/
theorem Exact.others (h : Exact s) {a : Act P π} (hs : s.step a = some s') :
    Others a.proc s s' := by
  cases a with
  | call p c | reap p =>
    rw [Sys.step, Option.ite_none_right_eq_some] at hs
    cases hs.2
    exact others_put rfl
  | next p ok np pg =>
    change s.next p ok np pg = some s' at hs
    change Others p s s'
    unfold Sys.next at hs
    dsimp only at hs
    cases hpc : (s.proc p).pc with
    | openStart o =>
      simp only [hpc] at hs
      cases hs
      split_ifs
      · exact others_alloc
      · exact others_put rfl
    | pipeAlloc0 | pipeAlloc1 _ =>
      simp only [hpc] at hs
      cases hs
      exact others_alloc
    | dupRef f fd =>
      simp only [hpc] at hs
      cases hs
      exact others_dup
    | clean now fs k =>
      simp only [hpc] at hs
      cases hs
      exact others_clean
    | forkStart =>
      simp only [hpc] at hs
      split_ifs at hs with hok hnp
      · cases hs
        intro q hq _
        rw [put_proc, update_of_ne hq, put_proc]
        by_cases hqnp : q = np
        · rw [hqnp, update_self]
          rfl
        · rw [update_of_ne hqnp]
      · cases hs
        exact others_put rfl
    | forkMem np =>
      simp only [hpc] at hs
      split_ifs at hs <;> cases hs
      · exact others_put rfl
      · exact others_put_put rfl (.inr rfl)
    | forkCopy np i =>
      simp only [hpc] at hs
      cases hs
      exact others_copy h hpc
    | exitAt i =>
      simp only [hpc] at hs
      cases hs
      unfold Sys.exitLoop
      split_ifs
      · split <;> exact others_put rfl
      · exact others_put rfl
    | pipePage _ _ | pipeCopy _ _ _ _ =>
      simp only [hpc] at hs
      split_ifs at hs <;> cases hs <;> exact others_put rfl
    | openFd _ _ | pipeFd0 _ _ | pipeFd1 _ _ _ =>
      simp only [hpc] at hs
      split at hs <;> cases hs <;> exact others_put rfl
    | ret _ | openSet _ _ _ | exec =>
      simp only [hpc] at hs
      cases hs
      exact others_put rfl
    | _ =>
      simp only [hpc] at hs
      cases hs

end Others

/-- **References to open files are exact.** In every reachable state, whichever calls fail: between
calls the count of a file is the number of descriptors that refer to it, and a page is a pipe, and
an end of it open, as long as a descriptor refers to it; a file with count 0 has no type; a call
that has failed has changed no descriptor and no count, and a slot that is not in use has no
descriptors; a step changes only the descriptors of its process, or of the one that this is making;
no file is an end of a page that is no pipe, and nothing has panicked. -/
theorem references_exact {null : π} {init : P} {s : Sys P π} (h : (files null init).Reachable s) :
    (s.Between → ∀ f, (s.file f).ref =
      (Finset.univ.filter fun x : P × Fin nofile => (s.proc x.1).ofile x.2 = some f).card) ∧
    (∀ f, (s.file f).ref = 0 → (s.file f).type = .none) ∧
    (∀ p, (s.proc p).pc = .ret false →
      (s.proc p).ofile = (s.proc p).old ∧ ∀ f, (s.proc p).net f = 0) ∧
    (∀ p, (s.proc p).pc = .unused → ∀ fd, (s.proc p).ofile fd = none) ∧
    (∀ a s', s.step a = some s' → ∀ q, q ≠ a.proc → (s.proc q).pc ≠ .embryo a.proc →
      (s'.proc q).ofile = (s.proc q).ofile) ∧
    (∀ f, (s.file f).type = .pipe → s.pipe (s.file f).pipe ≠ none) ∧
    (s.Between → ∀ pg, (s.pipe pg ≠ none ↔ ∃ p fd f, (s.proc p).ofile fd = some f ∧
      (s.file f).type = .pipe ∧ (s.file f).pipe = pg) ∧
      ∀ writable, (∃ st, s.pipe pg = some st ∧
        (if writable then st.writeopen else st.readopen) = true) ↔
          ∃ p fd f, (s.proc p).ofile fd = some f ∧ (s.file f).type = .pipe ∧
            (s.file f).pipe = pg ∧ (s.file f).writable = writable) ∧
    s.fault = none := by
  have he := exact h
  have hend : s.Between → ∀ pg writable, (∃ st, s.pipe pg = some st ∧
      (if writable then st.writeopen else st.readopen) = true) ↔
        ∃ p fd f, (s.proc p).ofile fd = some f ∧ (s.file f).type = .pipe ∧
          (s.file f).pipe = pg ∧ (s.file f).writable = writable := by
    intro hb pg writable
    have hopen : (∃ st, s.pipe pg = some st ∧
        (if writable then st.writeopen else st.readopen) = true) ↔
          0 < isOpen s.pipe (pg, writable) := by
      unfold isOpen
      cases hpg : s.pipe pg with
      | none => simp
      | some st => simp [pos_iff_ne_zero]
    rw [hopen, he.end_between hb]
    simp only [endOf_eq_some]
  refine ⟨he.ref_between, he.untyped, fun p hp => ?_, fun p hp => he.tidyAt hp,
    fun a s' hs => he.others hs, fun f hf => ?_,
    fun hb pg => ⟨⟨fun hpg => ?_, ?_⟩, hend hb pg⟩, he.fault⟩
  · have hofile : (s.proc p).ofile = (s.proc p).old := he.tidyAt hp
    refine ⟨hofile, fun f => ?_⟩
    have hbalanced := he.balanced p (by rw [hp]; rfl) f
    rw [refs_of_held_nil hp rfl rfl, hofile] at hbalanced
    omega
  · exact he.page_of_end (endOf_eq_some.mpr ⟨hf, rfl, rfl⟩)
  · obtain ⟨st, hst⟩ := Option.ne_none_iff_exists'.mp hpg
    rcases he.pipes pg st hst with hr | hw
    · obtain ⟨p, fd, f, hofile, htype, hpipe, -⟩ := (hend hb pg false).mp ⟨st, hst, hr⟩
      exact ⟨p, fd, f, hofile, htype, hpipe⟩
    · obtain ⟨p, fd, f, hofile, htype, hpipe, -⟩ := (hend hb pg true).mp ⟨st, hst, hw⟩
      exact ⟨p, fd, f, hofile, htype, hpipe⟩
  · rintro ⟨p, fd, f, -, htype, hpipe⟩
    exact he.page_of_end (endOf_eq_some.mpr ⟨htype, hpipe, rfl⟩)

/-- `pipe` where the descriptors cannot be stored: two files, a page and two descriptors are taken,
and given back. -/
def pipeNowhere : List (Act (Fin 2) (Fin 2)) :=
  .call 0 .pipe :: List.replicate 5 (.next 0 true 1 1) ++ .next 0 false 1 1 ::
    List.replicate 5 (.next 0 true 1 1)

theorem references_exact_pipeNowhere :
    ∃ s, LTS.runAll Sys.step (.boot 0 0) pipeNowhere = some s ∧ (s.proc 0).pc = .ret false ∧
      (s.proc 0).ofile = (s.proc 0).old ∧ ∀ f, (s.proc 0).net f = 0 := by
  obtain ⟨s, hrun, hpc⟩ : ∃ s, LTS.runAll Sys.step (.boot 0 0) pipeNowhere = some s ∧
      (s.proc 0).pc = .ret false := by
    refine Option.map_eq_some_iff.mp ?_
    decide +kernel
  have hreach : (files (0 : Fin 2) (0 : Fin 2)).Reachable s :=
    LTS.Reachable.runAll (f := Sys.step) (fun _ _ _ h => h) (.init rfl) hrun
  obtain ⟨-, -, hfailed, -⟩ := references_exact hreach
  exact ⟨s, hrun, hpc, hfailed 0 hpc⟩

end Xv6.Files
