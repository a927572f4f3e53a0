import Xv6.Fs.Path

/-!
# Path resolution

`namex` of `kernel/fs.c`, and `namei` and `nameiparent`, which call it. The walk starts at the root
or at the current directory and goes from inode to inode, each locked while it is looked at and put
back before the next one; it ends at five places. A process that locked an inode twice would wait
for itself.

What is resolved is a tree: every entry of a directory names an inode that is allocated, and that
has a link or a reference, so that putting it back does not free it.
-/

namespace Xv6.Fs

open Function

/-- The file system, and the inodes whose sleep locks the process holds. -/
structure PathState where
  fs : FsState
  locks : ℕ → Bool

/-- How a walk may end other than by returning: a panic of `fs.c`, the panic of `iunlock`, waiting
for a lock that the process holds itself, and a loop that was not given enough rounds. -/
inductive Stop
  | panic (e : Panic)
  | iunlock
  | deadlock
  | rounds
deriving DecidableEq

abbrev PathM (α : Type) := StateT PathState (Except Stop) α

/-- A function that takes and gives back no lock. -/
def lift {α : Type} (x : FsM α) : PathM α := fun s =>
  match x s.fs with
  | .ok (a, t) => .ok (a, { s with fs := t })
  | .error e => .error (.panic e)

namespace PathM

def ilock (ip : ℕ) : PathM Unit := do
  let s ← get
  if s.fs.refs ip = 0 then throw (.panic .ilock)
  else if s.locks ip then throw .deadlock
  else do
    set { s with locks := update s.locks ip true }
    lift (Fs.ilock ip)

def iunlock (ip : ℕ) : PathM Unit := do
  let s ← get
  if s.locks ip = false ∨ s.fs.refs ip = 0 then throw .iunlock
  else set { s with locks := update s.locks ip false }

/-- `iput`, which takes the lock to free an inode. -/
def iput (ip : ℕ) : PathM Unit := do
  let s ← get
  match s.fs.itable ip with
  | none => lift (Fs.iput ip)
  | some e =>
    if (e.ref = 1 ∧ e.valid ∧ e.ino.nlink = 0) ∧ s.locks ip then throw .deadlock
    else lift (Fs.iput ip)

def iunlockput (ip : ℕ) : PathM Unit := do
  iunlock ip
  iput ip

end PathM

open PathM

/-- The loop of `namex` at the inode `ip`. Each round shortens the path. -/
def namexLoop (sb : Superblock) (parent : Bool) :
    ℕ → ℕ → List UInt8 → (ℕ → UInt8) → PathM (Option ℕ × (ℕ → UInt8))
  | 0, _, _, _ => throw .rounds
  | fuel + 1, ip, path, name =>
    match skipelem path name with
    | some (path, name) => do
      PathM.ilock ip
      let d ← lift (fields ip)
      if d.type ≠ .dir then do
        PathM.iunlockput ip
        pure (none, name)
      else if parent ∧ head path = 0 then do
        -- stop one level early
        PathM.iunlock ip
        pure (some ip, name)
      else do
        match ← lift (dirlookup sb ip name) with
        | none => do
          PathM.iunlockput ip
          pure (none, name)
        | some (next, _) => do
          PathM.iunlockput ip
          namexLoop sb parent fuel next path name
    | none =>
      if parent then do
        PathM.iput ip
        pure (none, name)
      else pure (some ip, name)

/-- `namex`, of a process with the current directory `cwd`. -/
def namex (sb : Superblock) (cwd : ℕ) (path : List UInt8) (parent : Bool) (name : ℕ → UInt8) :
    PathM (Option ℕ × (ℕ → UInt8)) := do
  if head path = slash then do
    lift (iget rootino)
    namexLoop sb parent (path.length + 1) rootino path name
  else do
    lift (idup cwd)
    namexLoop sb parent (path.length + 1) cwd path name

/-- `namei`. The buffer on its stack has any contents. -/
def namei (sb : Superblock) (cwd : ℕ) (path : List UInt8) (stack : ℕ → UInt8) :
    PathM (Option ℕ) := do
  let r ← namex sb cwd path false stack
  pure r.1

def nameiparent (sb : Superblock) (cwd : ℕ) (path : List UInt8) (name : ℕ → UInt8) :
    PathM (Option ℕ × (ℕ → UInt8)) :=
  namex sb cwd path true name

/-! ### What is resolved -/

/-- The inode is allocated, and has a link or a reference. -/
def InUse (s : FsState) (i : ℕ) : Prop :=
  (s.file i).type ≠ .free ∧ ((s.file i).nlink ≠ 0 ∨ s.refs i ≠ 0)

/-- A tree: the root and all that the entries of directories name are in use, and directories are
made of whole entries. -/
structure Tree (sb : Superblock) (s : FsState) : Prop where
  ok : Ok sb s
  whole : ∀ d, (s.file d).type = .dir → direntSize ∣ (s.file d).size
  root : InUse s rootino
  named : ∀ d m c i, (s.file d).type = .dir → (s.file d).slot m = some (c, i) → InUse s i

namespace FsState

/-- A step of a path: the inode with a name in a directory. -/
def step (s : FsState) (i : ℕ) (c : List UInt8) : Option ℕ :=
  if (s.file i).type = .dir then (s.file i).lookup (c.take dirsiz) else none

/-- The left fold over the components of a path. -/
def resolve (s : FsState) (i : ℕ) (cs : List (List UInt8)) : Option ℕ := cs.foldlM s.step i

/-- The fold over all but the last component, if it ends at a directory, and the last component. -/
def resolveParent (s : FsState) (i : ℕ) (cs : List (List UInt8)) : Option (ℕ × List UInt8) :=
  match cs.getLast? with
  | none => none
  | some c => (s.resolve i cs.dropLast).bind fun d =>
    if (s.file d).type = .dir then some (d, c.take dirsiz) else none

def start (cwd : ℕ) (path : List UInt8) : ℕ := if head path = slash then rootino else cwd

end FsState

/-! ### The folds -/

section Folds

variable {s : FsState} {i : ℕ}

theorem resolve_cons (c : List UInt8) (cs : List (List UInt8)) :
    s.resolve i (c :: cs) = (s.step i c).bind fun j => s.resolve j cs := rfl

theorem resolveParent_singleton (c : List UInt8) :
    s.resolveParent i [c] = if (s.file i).type = .dir then some (i, c.take dirsiz) else none := rfl

theorem resolveParent_cons (c : List UInt8) {cs : List (List UInt8)} (h : cs ≠ []) :
    s.resolveParent i (c :: cs) = (s.step i c).bind fun j => s.resolveParent j cs := by
  obtain ⟨c', cs, rfl⟩ := List.exists_cons_of_ne_nil h
  rw [FsState.resolveParent, List.getLast?_cons_cons, List.dropLast_cons_cons, resolve_cons]
  cases s.step i c with
  | none =>
    cases (c' :: cs).getLast? <;> rfl
  | some j => rfl

end Folds

/-! ### Locks -/

section Locks

variable {sb : Superblock} {t : PathState} {E : Stop → Prop} {i : ℕ}

theorem lift_runs {α : Type} {x : FsM α} {Q : α → FsState → Prop}
    (h : Runs x t.fs (fun e => E (.panic e)) Q) :
    Runs (lift x) t E fun a t' => Q a t'.fs ∧ t'.locks = t.locks := by
  unfold Runs at h ⊢
  rw [lift]
  cases hx : x t.fs with
  | error e =>
    rw [hx] at h
    exact h
  | ok r =>
    rw [hx] at h
    exact ⟨h, rfl⟩

theorem ilock_used (s : FsState) (i : ℕ) :
    Runs (ilock i) s (fun _ => True) fun _ s' => s'.used = s.used := by
  unfold ilock
  rw [Runs.get_bind]
  cases s.itable i with
  | none => trivial
  | some e =>
    dsimp only
    split_ifs
    · exact rfl
    · trivial
    · exact rfl

/-- `iget` panics only if the table is full, and else takes an entry of it if the inode has none. -/
theorem iget_used {E : Panic → Prop} {s : FsState} (h : Ok sb s) (i : ℕ)
    (hE : ninode ≤ s.used → E .igetNoInodes) :
    Runs (iget i) s E fun _ s' => s'.used = s.used + if s.refs i = 0 then 1 else 0 := by
  unfold iget
  rw [Runs.get_bind]
  cases he : s.itable i with
  | some e =>
    rw [refs_of_some he, if_neg (h.ref_ne i e he)]
    exact rfl
  | none =>
    rw [refs_of_none he, if_pos rfl]
    dsimp only
    split_ifs with hfull
    · exact hE hfull
    · exact rfl

def noLocks : ℕ → Bool := fun _ => false

theorem PathM.ilock_spec (h : Ok sb t.fs) (hr : t.fs.refs i ≠ 0)
    (hlive : (t.fs.file i).type ≠ .free)
    (hlocks : t.locks = noLocks) :
    Runs (PathM.ilock i) t E fun _ t' =>
      (Post sb t.fs t'.fs t.fs.file t.fs.refs ∧ t'.fs.Valid i) ∧ t'.fs.used = t.fs.used ∧
        t'.locks = update noLocks i true := by
  unfold PathM.ilock
  rw [Runs.get_bind, if_neg hr, if_neg (by simp [hlocks, noLocks]), Runs.set_bind]
  have hfs := (Fs.ilock_spec (E := fun e => E (.panic e)) h hr fun hfree => absurd hfree hlive).and
    (ilock_used t.fs i)
  refine (lift_runs (t := { t with locks := update t.locks i true }) hfs).mono ?_
  rintro _ t' ⟨⟨⟨hpost, hvalid, -⟩, hused⟩, hl⟩
  exact ⟨⟨hpost, hvalid⟩, hused, by rw [hl, hlocks]⟩

theorem PathM.iunlock_spec (hr : t.fs.refs i ≠ 0) (hlocks : t.locks = update noLocks i true) :
    Runs (PathM.iunlock i) t E fun _ t' => t'.fs = t.fs ∧ t'.locks = noLocks := by
  have hheld : t.locks i = true := by rw [hlocks, update_self]
  unfold iunlock
  rw [Runs.get_bind, if_neg (by simp [hheld, hr])]
  refine ⟨rfl, ?_⟩
  rw [hlocks]
  funext j
  rcases eq_or_ne j i with rfl | hne
  · exact update_self ..
  · exact (update_of_ne hne ..).trans (update_of_ne hne ..)

theorem PathM.iput_spec (h : Ok sb t.fs) (hr : t.fs.refs i ≠ 0)
    (hlast : t.fs.refs i = 1 → (t.fs.file i).nlink ≠ 0) :
    Runs (PathM.iput i) t E fun _ t' =>
      (Post sb t.fs t'.fs t.fs.file (update t.fs.refs i (t.fs.refs i - 1)) ∧
        t'.fs.used = t.fs.used - if t.fs.refs i = 1 then 1 else 0) ∧ t'.locks = t.locks := by
  obtain ⟨e, he⟩ := Ok.entry_of_refs hr
  have hkeep := not_freed he (refs_of_some he ▸ hlast)
  unfold PathM.iput
  rw [Runs.get_bind, he]
  dsimp only
  rw [if_neg fun hfree => hkeep hfree.1]
  exact lift_runs (Fs.iput_spec h hr hlast)

theorem PathM.iunlockput_spec (h : Ok sb t.fs) (hr : t.fs.refs i ≠ 0)
    (hlast : t.fs.refs i = 1 → (t.fs.file i).nlink ≠ 0)
    (hlocks : t.locks = update noLocks i true) :
    Runs (PathM.iunlockput i) t E fun _ t' =>
      (Post sb t.fs t'.fs t.fs.file (update t.fs.refs i (t.fs.refs i - 1)) ∧
        t'.fs.used = t.fs.used - if t.fs.refs i = 1 then 1 else 0) ∧ t'.locks = noLocks := by
  unfold iunlockput
  refine (iunlock_spec hr hlocks).bind ?_
  rintro _ ⟨fs, locks⟩ ⟨rfl, rfl⟩
  exact PathM.iput_spec h hr hlast

end Locks

/-! ### The walk -/

section Walk

variable {sb : Superblock} {s : FsState} {E : Stop → Prop} {ip : ℕ}

/-- The file system as it was in `s`, but for one more reference to `ip`. -/
structure At (sb : Superblock) (s : FsState) (ip : ℕ) (t : FsState) : Prop where
  ok : Ok sb t
  file : t.file = s.file
  refs : t.refs = update s.refs ip (s.refs ip + 1)
  used : t.used = s.used + if s.refs ip = 0 then 1 else 0

namespace At

theorem refs_self {t : FsState} (h : At sb s ip t) : t.refs ip = s.refs ip + 1 := by
  rw [h.refs, update_self]

theorem refs_ne {t : FsState} (h : At sb s ip t) : t.refs ip ≠ 0 := by
  rw [h.refs_self]
  omega

theorem post {t t' : FsState} (h : At sb s ip t) (hp : Post sb t t' t.file t.refs)
    (hused : t'.used = t.used) : At sb s ip t' :=
  ⟨hp.ok, hp.file.trans h.file, hp.refs.trans h.refs, hused.trans h.used⟩

/-- Going on to an inode: a reference to it is made, and the one to `ip` dropped. -/
theorem next {t t1 t2 : FsState} {j : ℕ} (h : At sb s ip t)
    (hget : Post sb t t1 t.file (update t.refs j (t.refs j + 1)))
    (hused1 : t1.used = t.used + if t.refs j = 0 then 1 else 0)
    (hput : Post sb t1 t2 t1.file (update t1.refs ip (t1.refs ip - 1)))
    (hused2 : t2.used = t1.used - if t1.refs ip = 1 then 1 else 0) : At sb s j t2 := by
  have hrefs1 : t1.refs = update (update s.refs ip (s.refs ip + 1)) j
        (update s.refs ip (s.refs ip + 1) j + 1) := by
    rw [hget.refs, h.refs]
  refine ⟨hput.ok, hput.file.trans (hget.file.trans h.file), ?_, ?_⟩
  · rw [hput.refs, hrefs1]
    funext k
    rcases eq_or_ne j ip with rfl | hji
    · rcases eq_or_ne k j with rfl | hkj
      · simp
      · simp [hkj]
    · rcases eq_or_ne k ip with rfl | hki
      · simp [hji.symm]
      · rcases eq_or_ne k j with rfl | hkj
        · simp [hki]
        · simp [hki, hkj]
  · rw [hused2, hused1, h.used, hrefs1, h.refs]
    rcases eq_or_ne j ip with rfl | hji
    · simp
    · simp only [update_of_ne hji, update_of_ne hji.symm, update_self]
      split_ifs <;> omega

theorem last {t : FsState} (h : At sb s ip t) (huse : InUse s ip) :
    t.refs ip = 1 → (t.file ip).nlink ≠ 0 := by
  intro hone
  rw [h.refs_self] at hone
  rw [h.file]
  rcases huse.2 with hn | hr
  · exact hn
  · omega

end At

/-- The file system after the walk: as in `s`, with one more reference to the result. -/
structure Ended (sb : Superblock) (s : FsState) (r : Option ℕ) (t : PathState) : Prop where
  ok : Ok sb t.fs
  file : t.fs.file = s.file
  refs : t.fs.refs = r.elim s.refs fun i => update s.refs i (s.refs i + 1)
  locks : t.locks = noLocks

theorem At.ended {t : PathState} (h : At sb s ip t.fs) (hlocks : t.locks = noLocks) :
    Ended sb s (some ip) t := ⟨h.ok, h.file, h.refs, hlocks⟩

theorem At.dropped {t t' : PathState} (h : At sb s ip t.fs)
    (hput : Post sb t.fs t'.fs t.fs.file (update t.fs.refs ip (t.fs.refs ip - 1)))
    (hlocks : t'.locks = noLocks) : Ended sb s none t' := by
  refine ⟨hput.ok, hput.file.trans h.file, ?_, hlocks⟩
  rw [hput.refs, h.refs_self, h.refs, Nat.add_sub_cancel, update_idem, update_eq_self]
  rfl

/-- The value that `namex` returns for the components `cs` from `ip` on, and the name in the
buffer. -/
def Resolved (s : FsState) (parent : Bool) (ip : ℕ) (cs : List (List UInt8))
    (r : Option ℕ × (ℕ → UInt8)) : Prop :=
  if parent = true then s.resolveParent ip cs = r.1.map fun d => (d, nameKey r.2)
  else s.resolve ip cs = r.1

theorem Resolved.none_of_step {parent : Bool} {c : List UInt8} {cs : List (List UInt8)}
    {name : ℕ → UInt8} (hstep : s.step ip c = none)
    (hdir : parent = true → cs = [] → (s.file ip).type ≠ .dir) :
    Resolved s parent ip (c :: cs) (none, name) := by
  rw [Resolved]
  split_ifs with hp
  · cases cs with
    | nil => rw [resolveParent_singleton, if_neg (hdir hp rfl)]; rfl
    | cons c' cs => rw [resolveParent_cons c (List.cons_ne_nil c' cs), hstep]; rfl
  · rw [resolve_cons, hstep]
    rfl

theorem Resolved.of_step {parent : Bool} {c : List UInt8} {cs : List (List UInt8)} {j : ℕ}
    {r : Option ℕ × (ℕ → UInt8)} (hstep : s.step ip c = some j)
    (hcs : parent = true → cs ≠ []) (h : Resolved s parent j cs r) :
    Resolved s parent ip (c :: cs) r := by
  rw [Resolved] at h ⊢
  split_ifs at h ⊢ with hp
  · rwa [resolveParent_cons c (hcs hp), hstep]
  · rwa [resolve_cons, hstep]

/-- **The loop of `namex`**, at an inode in use to which it has a reference. -/
theorem namexLoop_spec (htree : Tree sb s) (hE : ninode ≤ s.used + 1 → E (.panic .igetNoInodes))
    (parent : Bool) (fuel : ℕ) : ∀ {ip : ℕ} {path : List UInt8} {name : ℕ → UInt8} {t : PathState},
      path.length < fuel → InUse s ip → At sb s ip t.fs → t.locks = noLocks →
      Runs (namexLoop sb parent fuel ip path name) t E fun r t' =>
        Ended sb s r.1 t' ∧ Resolved s parent ip (components path) r := by
  induction fuel with
  | zero =>
    intro ip path name t hlen
    omega
  | succ fuel ih =>
    intro ip path name t hlen huse hat hlocks
    rw [namexLoop]
    cases hskip : skipelem path name with
    | none =>
      rw [skipelem_eq_none hskip]
      cases parent with
      | true =>
        refine (PathM.iput_spec hat.ok hat.refs_ne (hat.last huse)).bind ?_
        rintro _ t' ⟨⟨hput, -⟩, hl⟩
        exact ⟨hat.dropped hput (hl.trans hlocks), rfl⟩
      | false => exact ⟨hat.ended hlocks, rfl⟩
    | some e =>
      obtain ⟨rest, name'⟩ := e
      obtain ⟨c, hcs, hkey, hend, hshort⟩ := skipelem_eq_some hskip
      rw [hcs]
      dsimp only
      have hlive : (t.fs.file ip).type ≠ .free := by
        rw [hat.file]
        exact huse.1
      refine (PathM.ilock_spec hat.ok hat.refs_ne hlive hlocks).bind ?_
      rintro _ t1 ⟨⟨hpost, hvalid⟩, hused, hlocks1⟩
      have hat1 := hat.post hpost hused
      obtain ⟨e, hheld⟩ := hat1.ok.held hvalid
      have htype : e.ino.type = (s.file ip).type := by
        rw [← hat1.file, ← hheld.inode_eq]
        rfl
      refine (lift_runs hheld.fields).bind ?_
      rintro ino ⟨fs1, locks1⟩ ⟨⟨rfl, rfl⟩, rfl⟩
      rw [htype]
      -- the exits that put `ip` back and return nothing
      have hfail : s.step ip c = none →
          (parent = true → components rest = [] → (s.file ip).type ≠ .dir) →
          Runs (do iunlockput ip; pure (none, name')) t1 E fun r t' =>
            Ended sb s r.1 t' ∧ Resolved s parent ip (c :: components rest) r := by
        intro hstep hdir
        refine (iunlockput_spec hat1.ok hat1.refs_ne (hat1.last huse) hlocks1).bind ?_
        rintro _ t' ⟨⟨hput, -⟩, hl⟩
        exact ⟨hat1.dropped hput hl, .none_of_step hstep hdir⟩
      by_cases hdir : (s.file ip).type = .dir
      swap
      · rw [if_pos hdir]
        exact hfail (if_neg hdir) fun _ _ => hdir
      rw [if_neg (not_not.mpr hdir)]
      by_cases hstop : parent = true ∧ head rest = 0
      · rw [if_pos hstop]
        refine (iunlock_spec hat1.refs_ne hlocks1).bind ?_
        rintro _ t' ⟨hfs, hl⟩
        refine ⟨At.ended (hfs ▸ hat1) hl, ?_⟩
        rw [hend.mp hstop.2, Resolved, if_pos hstop.1, resolveParent_singleton, if_pos hdir, hkey]
        rfl
      rw [if_neg hstop]
      have hmore : parent = true → components rest ≠ [] := fun hp hnil =>
        hstop ⟨hp, hend.mpr hnil⟩
      have hfull : ninode ≤ t1.fs.used → E (.panic .igetNoInodes) := by
        intro hge
        apply hE
        have := hat1.used
        split_ifs at this <;> omega
      have hisdir : IsDir sb t1.fs ip :=
        ⟨hat1.ok, hvalid, hat1.file ▸ hdir, hat1.file ▸ htree.whole ip hdir⟩
      have hstep : s.step ip c = (t1.fs.file ip).lookup (nameKey name') := by
        rw [FsState.step, if_pos hdir, hat1.file, hkey]
      have hget : ∀ i, Runs (iget i) t1.fs (fun e => E (.panic e)) fun _ _ => True := fun i =>
        (iget_used hat1.ok i hfull).mono fun _ _ _ => trivial
      refine (lift_runs (dirlookup_first hisdir hget)).bind ?_
      rintro r ⟨fs2, locks2⟩ ⟨⟨hlook, hfound⟩, rfl⟩
      rw [← hfound] at hstep
      rcases r with _ | ⟨next, off⟩
      · obtain ⟨-, rfl⟩ := hlook
        exact hfail hstep fun hp hnil => absurd hnil (hmore hp)
      · obtain ⟨⟨m, -, hslot⟩, hrun⟩ := hlook
        have hnext : InUse s next := by
          rw [hat1.file] at hslot
          exact htree.named ip m _ next hdir hslot
        have hpost2 := (iget_spec (E := fun _ => True) trivial hat1.ok).of_ok hrun
        have hused2 := (iget_used hat1.ok next (E := fun _ => True) fun _ => trivial).of_ok hrun
        have hle : t1.fs.refs ip ≤ fs2.refs ip := by
          rw [hpost2.refs, update_apply]
          split_ifs with h
          · rw [h]
            omega
          · exact le_rfl
        have hrefs : fs2.refs ip ≠ 0 := by
          have := hat1.refs_ne
          omega
        have hlast : fs2.refs ip = 1 → (fs2.file ip).nlink ≠ 0 := by
          intro hone
          rw [hpost2.file]
          have := hat1.refs_self
          exact hat1.last huse (by omega)
        refine (iunlockput_spec (t := ⟨fs2, t1.locks⟩) hpost2.ok hrefs hlast hlocks1).bind ?_
        rintro _ t3 ⟨⟨hput, hused3⟩, hl⟩
        have hat3 := hat1.next hpost2 hused2 hput hused3
        refine (ih (by omega) hnext hat3 hl).mono ?_
        rintro r t' ⟨hended, hres⟩
        exact ⟨hended, hres.of_step hstep hmore⟩

theorem idup_used (s : FsState) (i : ℕ) :
    Runs (idup i) s (fun _ => True) fun _ s' => s'.used = s.used := by
  unfold idup
  rw [Runs.get_bind]
  cases s.itable i with
  | none => trivial
  | some e => exact rfl

/-- **`namex`**, from the root or from the current directory. -/
theorem namex_spec {cwd : ℕ} (htree : Tree sb s) (hcwd : s.refs cwd ≠ 0)
    (hdir : (s.file cwd).type = .dir) (hE : ninode ≤ s.used + 1 → E (.panic .igetNoInodes))
    (path : List UInt8) (parent : Bool) (name : ℕ → UInt8) :
    Runs (namex sb cwd path parent name) ⟨s, noLocks⟩ E fun r t =>
      Ended sb s r.1 t ∧ Resolved s parent (FsState.start cwd path) (components path) r := by
  rw [namex, FsState.start]
  split_ifs with hslash
  · have hget := (iget_used (E := fun e => E (.panic e)) htree.ok rootino
      fun hge => hE (by omega)).and
      (iget_spec (E := fun _ => True) trivial htree.ok)
    refine (lift_runs hget).bind ?_
    rintro _ t ⟨⟨hused, hpost⟩, hl⟩
    exact namexLoop_spec htree hE parent _ (Nat.lt_succ_self _) htree.root
      ⟨hpost.ok, hpost.file, hpost.refs, hused⟩ hl
  · have hdup := (idup_spec (E := fun e => E (.panic e)) htree.ok hcwd).and (idup_used s cwd)
    refine (lift_runs hdup).bind ?_
    rintro _ t ⟨⟨hpost, hused⟩, hl⟩
    refine namexLoop_spec htree hE parent _ (Nat.lt_succ_self _) ⟨by simp [hdir], Or.inr hcwd⟩
      ⟨hpost.ok, hpost.file, hpost.refs, ?_⟩ hl
    rw [hused, if_neg hcwd]
    rfl

end Walk

/-- **Path resolution.** For every path, in every tree: `namei` returns the left fold over the
components, which fails at the first missing name or non-directory; `nameiparent` returns the fold
over all but the last, with that one in the buffer, and fails where there is none or what precedes
it is no directory. Both leave the files as they are, add one reference to the inode they return and
hold no lock. They do not return only if the inode table has less than two free entries. -/
theorem path_resolution {sb : Superblock} {s : FsState} {cwd : ℕ} (htree : Tree sb s)
    (hcwd : s.refs cwd ≠ 0) (hdir : (s.file cwd).type = .dir) (path : List UInt8)
    (buf : ℕ → UInt8) :
    Runs (namei sb cwd path buf) ⟨s, noLocks⟩
      (fun e => e = .panic .igetNoInodes ∧ ninode ≤ s.used + 1)
      (fun r t => r = s.resolve (FsState.start cwd path) (components path) ∧ Ended sb s r t) ∧
    Runs (nameiparent sb cwd path buf) ⟨s, noLocks⟩
      (fun e => e = .panic .igetNoInodes ∧ ninode ≤ s.used + 1)
      (fun r t => (r.1.map fun d => (d, nameKey r.2)) =
          s.resolveParent (FsState.start cwd path) (components path) ∧ Ended sb s r.1 t) := by
  constructor
  · rw [namei]
    refine (namex_spec htree hcwd hdir (fun hge => ⟨rfl, hge⟩) path false buf).bind ?_
    rintro r t ⟨hended, hres⟩
    exact ⟨hres.symm, hended⟩
  · rw [nameiparent]
    refine (namex_spec htree hcwd hdir (fun hge => ⟨rfl, hge⟩) path true buf).mono ?_
    rintro r t ⟨hended, hres⟩
    exact ⟨hres.symm, hended⟩

theorem twoNames_tree {s : FsState} {ok : Bool} (h : twoNames = .ok (ok, s)) :
    Tree smallDisk s := by
  obtain ⟨-, hd, hother, hslot⟩ := twoNames_dir h
  have hone : ∀ d, (s.file d).type = .dir → d = 1 := by
    intro d hdir
    by_contra hne
    rw [hother d hne, FsState.file, Dinode.toFile_type, fresh_inode] at hdir
    simp only [fresh, update_of_ne hne, update_apply] at hdir
    split_ifs at hdir
    cases hdir
  have hroot : InUse s 1 := ⟨by rw [hd.dir]; decide, .inr hd.refs_ne⟩
  refine ⟨hd.ok, fun d hdir => hone d hdir ▸ hd.whole, hroot, fun d m c i hdir hm => ?_⟩
  rcases hslot m c i (hone d hdir ▸ hm) with rfl | rfl
  · exact hroot
  · rw [InUse, hother 2 (by decide)]
    exact ⟨by decide, .inl (by decide)⟩

/-- The root, by a name of which fourteen bytes count, and from there the inode 2. -/
theorem path_resolution_twoNames : ∃ (s : FsState) (t : PathState), twoNames = .ok (true, s) ∧
    namei smallDisk rootino (slash :: List.replicate 16 98 ++ slash :: List.replicate 14 97)
      (fun _ => 0) ⟨s, noLocks⟩ = .ok (some 2, t) ∧ Ended smallDisk s (some 2) t := by
  obtain ⟨⟨_, s⟩, hs, rfl, hrefs, hdir, hused, hres⟩ : ∃ r, twoNames = .ok r ∧ r.1 = true ∧
      r.2.refs rootino ≠ 0 ∧ (r.2.file rootino).type = .dir ∧ ¬ ninode ≤ r.2.used + 1 ∧
      r.2.resolve rootino [List.replicate 16 98, List.replicate 14 97] = some 2 :=
    Ensures.exists_ok (by decide +kernel)
  have hnamei := (path_resolution (twoNames_tree hs) hrefs hdir
    (slash :: List.replicate 16 98 ++ slash :: List.replicate 14 97) fun _ => 0).1
  obtain ⟨r, t, hrun, hr, hended⟩ := (hnamei.weaken fun _ h => hused h.2).exists_ok
  obtain rfl := hr.trans hres
  exact ⟨s, t, hs, hrun, hended⟩

end Xv6.Fs
