import Xv6.Fs.Itable

/-!
# Freeing and reusing inodes

`iput` decides to free an inode when it has the last reference, but clears it only after it has
given up `itable.lock`. In between, nobody may get a new reference. This holds as long as references
are taken only to inodes that have a link, or to which somebody has a reference that is not being
put. Under this condition, `Live`, whoever claims, has just allocated or is about to clear an inode
is the only one that has to do with it, except for an `iput` that has cleared it and still has to
drop its reference.

Path lookup breaks the condition: the entry `..` of a removed directory may name a directory
without links. Then an inode is cleared under another reference.
-/

namespace Xv6.Fs.Inodes

open Function Itable

variable {ι : Type*} {s s' : Itable ι} {h : ι} {e : Fin ninode} {k : Key}

/-- The inode of a reference that `iput` has not cleared, and whether the reference must be the only
one. -/
def Itable.role (s : Itable ι) (h : ι) : Option (Key × Bool) :=
  match s.pc h with
  | .claimed k _ => some (k, true)
  | .fresh e _ | .freeing e => some ((s.slot e).key, true)
  | .ref e | .locked e => some ((s.slot e).key, false)
  | .idle | .scanning _ _ | .cleared _ | .dropping _ => none

/-- A reference is taken only to an inode that has a link, or to which somebody has a reference that
is not being put. -/
def Live (s : Itable ι) (ev : Event ι) : Prop :=
  ∀ h k, ev = .iget h k → (s.disk k).nlink ≠ 0 ∨ ∃ h', s.role h' = some (k, false)

/-- `h` has the inode as `ialloc` has left it, and no valid entry. -/
structure Itable.Untouched (s : Itable ι) (k : Key) (t : FileType) : Prop where
  disk : s.disk k = allocated t
  invalid : ∀ e, 0 < (s.slot e).ref → (s.slot e).key = k → (s.slot e).valid = true →
    ∃ h, s.pc h = .cleared e

/-- Free inodes have no links. A reference that must be the only one is; the inodes of references
have a type; what `ialloc` has allocated is untouched; and an inode is about to be cleared only with
the last reference. -/
structure Itable.Sole (s : Itable ι) : Prop where
  orphan : ∀ k, (s.disk k).type = .free → (s.disk k).nlink = 0
  roles : ∀ h h' k o, h ≠ h' → s.role h = some (k, true) → s.role h' ≠ some (k, o)
  typed : ∀ h k o, s.role h = some (k, o) → (s.disk k).type ≠ .free
  claimed : ∀ h k t, s.pc h = .claimed k t → s.Untouched k t
  fresh : ∀ h e t, s.pc h = .fresh e t → s.Untouched (s.slot e).key t
  last : ∀ h e, s.pc h = .freeing e → (s.slot e).ref = 1

namespace Itable

theorem role_eq_of_slot (hpc : s'.pc h = s.pc h)
    (hkey : ∀ e, (s.pc h).target = some e → (s'.slot e).key = (s.slot e).key) :
    s'.role h = s.role h := by
  unfold role
  rw [hpc]
  cases hp : s.pc h with
  | fresh e | ref e | locked e | freeing e => simp only [hkey e (congrArg Pc.target hp)]
  | idle | scanning | claimed | cleared | dropping => rfl

variable {o : Bool} {t : FileType}

/-- A role is for the inode of the entry, or for the one that `ialloc` has claimed. -/
theorem role_cases (hr : s.role h = some (k, o)) :
    (∃ t, s.pc h = .claimed k t ∧ o = true) ∨
      ∃ e, (s.pc h).target = some e ∧ (s.slot e).key = k ∧ s.pc h ≠ .cleared e ∧
        s.pc h ≠ .dropping e := by
  unfold role at hr
  cases hp : s.pc h with
  | claimed k' t =>
    rw [hp] at hr
    cases hr
    exact .inl ⟨t, rfl, rfl⟩
  | fresh e | ref e | locked e | freeing e =>
    rw [hp] at hr
    cases hr
    exact .inr ⟨e, rfl, rfl, by simp, by simp⟩
  | idle | scanning | cleared | dropping =>
    rw [hp] at hr
    cases hr

/-- An untouched inode stays so where the disk and the entries of other inodes change only, or an
entry of its own becomes invalid. -/
theorem Untouched.of (u : s.Untouched k t) (hdisk : s'.disk k = s.disk k)
    (hslot : ∀ e, 0 < (s'.slot e).ref → (s'.slot e).key = k → (s'.slot e).valid = true →
      0 < (s.slot e).ref ∧ (s.slot e).key = k ∧ (s.slot e).valid = true)
    (hcleared : ∀ h e, s.pc h = .cleared e → (s'.slot e).valid = true → s'.pc h = .cleared e) :
    s'.Untouched k t := by
  refine ⟨hdisk.trans u.disk, fun e hpos hkey hv => ?_⟩
  obtain ⟨hpos', hkey', hv'⟩ := hslot e hpos hkey hv
  obtain ⟨h, hp⟩ := u.invalid e hpos' hkey' hv'
  exact ⟨h, hcleared h e hp hv⟩

/-- What the moving reference `h` must see to in the new state `s'`, when the others have their
roles in `s`. -/
structure Takes (s s' : Itable ι) (h : ι) : Prop where
  roles : ∀ k o, s'.role h = some (k, o) → ∀ h' o', h' ≠ h → s.role h' = some (k, o') →
    o = false ∧ o' = false
  typed : ∀ k o, s'.role h = some (k, o) → (s'.disk k).type ≠ .free
  claimed : ∀ k t, s'.pc h = .claimed k t → s'.Untouched k t
  fresh : ∀ e t, s'.pc h = .fresh e t → s'.Untouched (s'.slot e).key t
  last : ∀ e, s'.pc h = .freeing e → (s'.slot e).ref = 1

/-- A reference with a role, if it is neither in `ialloc` nor about to clear the inode. -/
theorem Takes.shared (hr : s'.role h = some (k, false)) (htype : (s'.disk k).type ≠ .free)
    (hothers : ∀ h', h' ≠ h → s.role h' ≠ some (k, true)) : Takes s s' h := by
  refine ⟨fun k' o hr' h' o' hne hr2 => ?_, fun k' o hr' => ?_, fun k' t hp => ?_, fun e t hp => ?_,
    fun e hp => ?_⟩
  · cases hr.symm.trans hr'
    cases o' with
    | false => exact ⟨rfl, rfl⟩
    | true => exact absurd hr2 (hothers h' hne)
  · cases hr.symm.trans hr'
    exact htype
  · simp [role, hp] at hr
  · simp [role, hp] at hr
  · simp [role, hp] at hr

theorem Takes.none (hr : s'.role h = none) : Takes s s' h := by
  refine ⟨fun k o hr' => ?_, fun k o hr' => ?_, fun k t hp => ?_, fun e t hp => ?_, fun e hp => ?_⟩
  · cases hr.symm.trans hr'
  · cases hr.symm.trans hr'
  · simp [role, hp] at hr
  · simp [role, hp] at hr
  · simp [role, hp] at hr

namespace Sole

variable [DecidableEq ι] {q : Pc} {x : Slot ι} (r : s.Sole)

include r

/-- One reference moves. The others keep their roles, and the disk changes at most where the moving
reference has a role. -/
theorem move (hpc : s'.pc = Function.update s.pc h q)
    (hkey : ∀ h' e, (s.pc h').target = some e → (s'.slot e).key = (s.slot e).key)
    (horphan : ∀ k, (s'.disk k).type = .free → (s'.disk k).nlink = 0) (htakes : Takes s s' h)
    (hothers : ∀ h' k o, h' ≠ h → s.role h' = some (k, o) → (s'.disk k).type ≠ .free)
    (huntouched : ∀ h' k t, h' ≠ h → s.role h' = some (k, true) → s.Untouched k t →
      s'.Untouched k t)
    (hlast : ∀ h' e, h' ≠ h → s.pc h' = .freeing e → (s'.slot e).ref = (s.slot e).ref) :
    s'.Sole := by
  have hprest := (eq_update_iff.mp hpc).2
  have hrole : ∀ h', h' ≠ h → s'.role h' = s.role h' := fun h' hh' =>
    role_eq_of_slot (hprest h' hh') (hkey h')
  refine ⟨horphan, fun h1 h2 k o hne h1r h2r => ?_, fun h1 k o hr => ?_, fun h1 k t hp => ?_,
    fun h1 e t hp => ?_, fun h1 e hp => ?_⟩
  · by_cases hh1 : h1 = h
    · subst hh1
      rw [hrole h2 (Ne.symm hne)] at h2r
      cases (htakes.roles k true h1r h2 o (Ne.symm hne) h2r).1
    · rw [hrole h1 hh1] at h1r
      by_cases hh2 : h2 = h
      · subst hh2
        cases (htakes.roles k o h2r h1 true hh1 h1r).2
      · rw [hrole h2 hh2] at h2r
        exact r.roles h1 h2 k o hne h1r h2r
  · by_cases hh1 : h1 = h
    · subst hh1
      exact htakes.typed k o hr
    · rw [hrole h1 hh1] at hr
      exact hothers h1 k o hh1 hr
  · by_cases hh1 : h1 = h
    · subst hh1
      exact htakes.claimed k t hp
    · rw [hprest h1 hh1] at hp
      exact huntouched h1 k t hh1 (by simp [role, hp]) (r.claimed h1 k t hp)
  · by_cases hh1 : h1 = h
    · subst hh1
      exact htakes.fresh e t hp
    · rw [hprest h1 hh1] at hp
      rw [hkey h1 e (congrArg Pc.target hp)]
      exact huntouched h1 _ t hh1 (by simp [role, hp]) (r.fresh h1 e t hp)
  · by_cases hh1 : h1 = h
    · subst hh1
      exact htakes.last e hp
    · rw [hprest h1 hh1] at hp
      rw [hlast h1 e hh1 hp]
      exact r.last h1 e hp

/-- One reference moves while the disk stays as it is and one entry in use changes. -/
theorem atSlot (hslot : s'.slot = Function.update s.slot e x)
    (hpc : s'.pc = Function.update s.pc h q) (hdisk : s'.disk = s.disk)
    (hkey : x.key = (s.slot e).key) (hpos : 0 < (s.slot e).ref) (htakes : Takes s s' h)
    (hvalid : ∀ h', h' ≠ h → s.role h' = some ((s.slot e).key, true) → x.valid = true →
      (s.slot e).valid = true) (hcleared : ∀ e', s.pc h = .cleared e' → e' = e ∧ x.valid = false)
    (hlast : ∀ h', h' ≠ h → s.pc h' = .freeing e → x.ref = (s.slot e).ref) : s'.Sole := by
  obtain ⟨hslf, hrest⟩ := eq_update_iff.mp hslot
  have hkeys : ∀ e', (s'.slot e').key = (s.slot e').key := by
    intro e'
    by_cases he' : e' = e
    · rw [he', hslf, hkey]
    · rw [hrest e' he']
  refine r.move hpc (fun _ e' _ => hkeys e') (hdisk ▸ r.orphan) htakes
    (fun h' k o _ hr => hdisk ▸ r.typed h' k o hr) (fun h' k t hne hr u => ?_)
    fun h' e' hne hp => ?_
  · refine u.of (by rw [hdisk]) (fun e' hpos' hk hv => ?_) fun h1 e' hp hv => ?_
    · by_cases he' : e' = e
      · subst he'
        rw [hkeys e'] at hk
        rw [hslf] at hv
        exact ⟨hpos, hk, hvalid h' hne (hk ▸ hr) hv⟩
      · rw [hrest e' he'] at hpos' hk hv
        exact ⟨hpos', hk, hv⟩
    · by_cases hh1 : h1 = h
      · subst hh1
        obtain ⟨rfl, hx⟩ := hcleared e' hp
        rw [hslf, hx] at hv
        cases hv
      · rw [hpc, update_of_ne hh1, hp]
  · by_cases he' : e' = e
    · subst he'
      rw [hslf, hlast h' hne hp]
    · rw [hrest e' he']

/-- A reference to an entry in use is added; nobody has the inode as the only one. -/
theorem addRef (hp : (s.pc h).target = none) (hpos : 0 < (s.slot e).ref)
    (htakes : Takes s ((s.setSlot e { s.slot e with ref := (s.slot e).ref + 1 }).goto h q) h)
    (hfree : ∀ h', h' ≠ h → s.role h' ≠ some ((s.slot e).key, true)) :
    ((s.setSlot e { s.slot e with ref := (s.slot e).ref + 1 }).goto h q).Sole := by
  refine r.atSlot rfl rfl rfl rfl hpos htakes (fun _ _ _ hv => hv) (fun e' hc => ?_)
    fun h' hne hf => absurd (by simp [role, hf]) (hfree h' hne)
  rw [hc] at hp
  cases hp

omit r in
theorem untouched_iget {q : Fin ninode → Pc} {k' : Key} (hp : (s.pc h).target = none)
    (hs : s.iget h k q = some s') (u : s.Untouched k' t) :
    s'.Untouched k' t := by
  have hcleared : ∀ h1 e', s.pc h1 = .cleared e' → h1 ≠ h := by
    rintro h1 e' hc rfl
    rw [hc] at hp
    cases hp
  rcases Base.iget_cases hs with ⟨e, hpos, -, rfl⟩ | ⟨e, -, -, rfl⟩
  · refine u.of rfl (fun e' hpos' hk hv => ?_) fun h1 e' hc _ => ?_
    · by_cases he : e' = e
      · subst he
        simp only [goto_slot, setSlot_slot, update_self] at hk hv
        exact ⟨hpos, hk, hv⟩
      · simp only [goto_slot, setSlot_slot, update_of_ne he] at hpos' hk hv
        exact ⟨hpos', hk, hv⟩
    · simpa [update_of_ne (hcleared h1 e' hc)] using hc
  · refine u.of rfl (fun e' hpos' hk hv => ?_) fun h1 e' hc _ => ?_
    · by_cases he : e' = e
      · subst he
        simp at hv
      · simp only [goto_slot, setSlot_slot, update_of_ne he] at hpos' hk hv
        exact ⟨hpos', hk, hv⟩
    · simpa [update_of_ne (hcleared h1 e' hc)] using hc

variable [Fintype ι] (b : s.Base)

include b

theorem iget {q : Fin ninode → Pc} (hp : (s.pc h).target = none)
    (htakes : ∀ s' e, s'.pc h = q e → (s'.slot e).key = k → s'.disk = s.disk →
      (∀ t, s.Untouched k t → s'.Untouched k t) → Takes s s' h)
    (hfree : ∀ h', h' ≠ h → s.role h' ≠ some (k, true)) (hs : s.iget h k q = some s') :
    s'.Sole := by
  have hu : ∀ k' t, s.Untouched k' t → s'.Untouched k' t := fun _ _ => untouched_iget hp hs
  rcases Base.iget_cases hs with ⟨e, hpos, rfl, rfl⟩ | ⟨e, hzero, hnone, hs'⟩
  · exact r.addRef hp hpos (htakes _ e (by simp) (by simp) rfl (hu _)) hfree
  · have hslot : ∀ h' e', (s.pc h').target = some e' → s'.slot e' = s.slot e' := by
      intro h' e' ht
      have hne : e' ≠ e := by
        rintro rfl
        exact (b.ref_pos ht).ne' hzero
      simp [hs', update_of_ne hne]
    have hdisk : s'.disk = s.disk := by rw [hs']; rfl
    refine r.move (h := h) (q := q e) (by rw [hs']; rfl) (fun h' e' ht => by rw [hslot h' e' ht])
      (hdisk ▸ r.orphan) (htakes s' e (by simp [hs']) (by simp [hs']) hdisk (hu k))
      (fun h' k' o' _ hr => hdisk ▸ r.typed h' k' o' hr) (fun _ k' t _ _ u => hu k' t u)
      fun h' e' _ hf => by rw [hslot h' e' (congrArg Pc.target hf)]

omit [Fintype ι] b in
theorem outside (hp : ∀ e, s.pc h ≠ .cleared e) (hq : (s.goto h q).role h = none) :
    (s.goto h q).Sole := by
  refine r.move rfl (fun _ _ _ => rfl) r.orphan (.none hq) (fun h' k o _ hr => r.typed h' k o hr)
    (fun h' k t _ _ u => ?_) fun _ _ _ _ => rfl
  refine u.of rfl (fun e hpos hk hv => ⟨hpos, hk, hv⟩) fun h1 e hc _ => ?_
  have hne : h1 ≠ h := fun heq => hp e (heq ▸ hc)
  simpa [update_of_ne hne] using hc

theorem claim (hp : s.pc h = .scanning k t) (hfree : (s.disk k).type = .free) :
    ((s.setDisk k (allocated t)).goto h (.claimed k t)).Sole := by
  have ht : t ≠ .free := b.typed h k t (.inl hp)
  have hne : ∀ h' k' o, s.role h' = some (k', o) → k' ≠ k := by
    rintro h' k' o hr rfl
    exact r.typed h' k' o hr hfree
  have hdisk : ∀ k', k' ≠ k → ((s.setDisk k (allocated t)).goto h (.claimed k t)).disk k' =
      s.disk k' := fun k' hk' => by simp [update_of_ne hk']
  have hself : ((s.setDisk k (allocated t)).goto h (.claimed k t)).disk k = allocated t := by simp
  have hpself : ((s.setDisk k (allocated t)).goto h (.claimed k t)).pc h = .claimed k t := by simp
  have hrole : ((s.setDisk k (allocated t)).goto h (.claimed k t)).role h = some (k, true) := by
    simp [role]
  have hcleared : ∀ h1 e, s.pc h1 = .cleared e →
      ((s.setDisk k (allocated t)).goto h (.claimed k t)).pc h1 = .cleared e := by
    intro h1 e hc
    have hh : h1 ≠ h := by
      rintro rfl
      cases hp.symm.trans hc
    simpa [update_of_ne hh] using hc
  refine r.move rfl (fun _ _ _ => rfl) (fun k' hk' => ?_) ⟨fun k' o hr h' o' _ hr' => ?_,
    fun k' o hr => ?_, fun k' t' hp' => ?_, fun e t' hp' => ?_, fun e hp' => ?_⟩
    (fun h' k' o _ hr => ?_) (fun h' k' t' _ hr u => ?_) fun _ _ _ _ => rfl
  · by_cases hkk : k' = k
    · rw [hkk, hself] at hk'
      exact absurd hk' ht
    · rw [hdisk k' hkk] at hk' ⊢
      exact r.orphan k' hk'
  · cases hrole.symm.trans hr
    exact absurd rfl (hne h' k o' hr')
  · cases hrole.symm.trans hr
    rw [hself]
    exact ht
  · cases hpself.symm.trans hp'
    refine ⟨hself, fun e hpos hk hv => ?_⟩
    -- the inode of a valid entry would have a type
    by_contra hnone
    obtain ⟨heq, htype⟩ := b.fields e hpos hv fun h1 hc => hnone ⟨h1, hcleared h1 e hc⟩
    rw [heq, show (s.slot e).key = k from hk] at htype
    exact htype hfree
  · cases hpself.symm.trans hp'
  · cases hpself.symm.trans hp'
  · rw [hdisk k' (hne h' k' o hr)]
    exact r.typed h' k' o hr
  · exact u.of (hdisk k' (hne h' k' true hr)) (fun e hpos hk hv => ⟨hpos, hk, hv⟩)
      fun h1 e hc _ => hcleared h1 e hc

theorem iallocRound {ninodes : ℕ} (hp : s.pc h = .scanning k t) :
    (s.iallocRound ninodes h k t).Sole := by
  have hnot : ∀ e, s.pc h ≠ .cleared e := fun e hc => by cases hp.symm.trans hc
  unfold Itable.iallocRound
  split
  · split
    · rename_i hfree
      exact r.claim b hp hfree
    · exact r.outside hnot (by simp [role])
  · exact r.outside hnot (by simp [role])

/-- The move of a reference that keeps its role, or gives up being the only one. -/
theorem keepRole {p : Bool} (hslot : s'.slot = Function.update s.slot e x)
    (hpc : s'.pc = Function.update s.pc h q) (hdisk : s'.disk = s.disk)
    (hkey : x.key = (s.slot e).key) (href : x.ref = (s.slot e).ref) (ht : (s.pc h).target = some e)
    (hrole : s.role h = some ((s.slot e).key, p))
    (hrole' : s'.role h = some ((s.slot e).key, false)) : s'.Sole := by
  have hothers : ∀ h', h' ≠ h → s.role h' ≠ some ((s.slot e).key, true) := fun h' hne hr' =>
    r.roles h' h _ p hne hr' hrole
  refine r.atSlot hslot hpc hdisk hkey (b.ref_pos ht)
    (.shared hrole' (hdisk ▸ r.typed h _ p hrole) hothers)
    (fun h' hne hr' _ => absurd hr' (hothers h' hne)) (fun e' hc => ?_) fun _ _ _ => href
  simp [role, hc] at hrole

theorem ilock (ht : (s.pc h).target = some e) (hrole : s.role h = some ((s.slot e).key, o))
    (hs : s.ilock h e = some s') : s'.Sole := by
  obtain ⟨-, ⟨-, rfl⟩ | ⟨-, rfl⟩⟩ := Base.ilock_cases hs
  · exact r.keepRole b rfl rfl rfl rfl rfl ht hrole (by simp [role])
  · exact r.keepRole b rfl rfl rfl rfl rfl ht hrole (by simp [role])

theorem iunlock (hp : s.pc h = .locked e) : (s.iunlock h e).Sole :=
  r.keepRole b rfl rfl rfl rfl rfl (congrArg Pc.target hp) (p := false) (by simp [role, hp])
    (by simp [role, Itable.iunlock])

omit [Fintype ι] b in
/-- One reference moves while the inode that it has a role for changes, in memory and on disk. -/
theorem atInode {d : Dinode} (hslot : s'.slot = Function.update s.slot e x)
    (hpc : s'.pc = Function.update s.pc h q)
    (hdisk : s'.disk = Function.update s.disk (s.slot e).key d) (hkey : x.key = (s.slot e).key)
    (href : x.ref = (s.slot e).ref) (hrole : s.role h = some ((s.slot e).key, o))
    (horphan : d.type = .free → d.nlink = 0) (hsame : o = true ∨ d.type ≠ .free)
    (htakes : Takes s s' h) : s'.Sole := by
  obtain ⟨hslf, hrest⟩ := eq_update_iff.mp hslot
  have hdself : s'.disk (s.slot e).key = d := by rw [hdisk, update_self]
  have hdrest : ∀ k, k ≠ (s.slot e).key → s'.disk k = s.disk k := fun k hk => by
    rw [hdisk, update_of_ne hk]
  have hkeys : ∀ e', (s'.slot e').key = (s.slot e').key := by
    intro e'
    by_cases he' : e' = e
    · rw [he', hslf, hkey]
    · rw [hrest e' he']
  refine r.move hpc (fun _ e' _ => hkeys e') (fun k hfree => ?_) htakes
    (fun h' k o1 hne hr => ?_) (fun h' k t hne hr u => ?_) fun h' e' hne hp => ?_
  · by_cases hk : k = (s.slot e).key
    · rw [hk, hdself] at hfree ⊢
      exact horphan hfree
    · rw [hdrest k hk] at hfree ⊢
      exact r.orphan k hfree
  · by_cases hk : k = (s.slot e).key
    · subst hk
      rw [hdself]
      rcases hsame with rfl | htype
      · exact absurd hr (r.roles h h' _ o1 (Ne.symm hne) hrole)
      · exact htype
    · rw [hdrest k hk]
      exact r.typed h' k o1 hr
  · have hk : k ≠ (s.slot e).key := by
      rintro rfl
      exact r.roles h' h _ o hne hr hrole
    refine u.of (hdrest k hk) (fun e' hpos' hk' hv => ?_) fun h1 e' hc _ => ?_
    · have he' : e' ≠ e := fun heq => hk (hk'.symm.trans (heq ▸ hkeys e'))
      rw [hrest e' he'] at hpos' hk' hv
      exact ⟨hpos', hk', hv⟩
    · have hne1 : h1 ≠ h := by
        rintro rfl
        simp [role, hc] at hrole
      rw [hpc, update_of_ne hne1, hc]
  · by_cases he' : e' = e
    · subst he'
      rw [hslf, href]
    · rw [hrest e' he']

theorem update (hp : s.pc h = .locked e) (d : Dinode) : (s.update e d).Sole := by
  have htype := (b.fields_of_locks (congrArg Pc.locks hp) (by simp [hp]) (b.held h e hp)).2
  have hrole : s.role h = some ((s.slot e).key, false) := by simp [role, hp]
  refine r.atInode (h := h) (x := { s.slot e with ino := { d with type := (s.slot e).ino.type } })
    (q := .locked e) (d := { d with type := (s.slot e).ino.type }) rfl ?_ rfl rfl rfl
    hrole (fun hfree => absurd hfree htype) (.inr htype)
    (.shared (k := (s.slot e).key) (by simp [role, Itable.update, hp])
      (by simpa [Itable.update] using htype) fun h' hne hr' => r.roles h' h _ false hne hr' hrole)
  rw [← hp, update_eq_self]
  rfl

theorem clear (hp : s.pc h = .freeing e) : (s.clear h e).Sole :=
  r.atInode (x := { s.slot e with ino := freed (s.slot e).ino }) (q := .cleared e)
    (d := freed (s.slot e).ino) rfl rfl rfl rfl rfl (o := true) (by simp [role, hp])
    (fun _ => (b.freeing h e hp).2) (.inl rfl) (.none (by simp [role, Itable.clear]))

theorem drop (ht : (s.pc h).target = some e) (hl : (s.pc h).locks = none) : (s.drop h e).Sole := by
  refine r.atSlot (q := .idle) rfl rfl rfl rfl (b.ref_pos ht) (.none (by simp [role, Itable.drop]))
    (fun _ _ _ hv => hv) (fun e' hc => ?_) fun h' hne hf => ?_
  · rw [hc] at hl
    cases hl
  · -- an inode that is about to be cleared has no other reference
    have hone := (b.count e).symm.trans (r.last h' e hf)
    exact absurd (Handles.eq_of_count_eq_one (f := Pc.target ∘ s.pc) hone
      (congrArg Pc.target hf) ht) hne

/-- `iput` decides to free the inode: it has the last reference, and `ialloc` has not claimed the
inode. -/
theorem decide (hp : s.pc h = .ref e) (hone : (s.slot e).ref = 1) :
    ((s.setSlot e { s.slot e with lock := some h }).goto h (.freeing e)).Sole := by
  have ht : (s.pc h).target = some e := congrArg Pc.target hp
  have hrole : s.role h = some ((s.slot e).key, false) := by simp [role, hp]
  have hrole' : ((s.setSlot e { s.slot e with lock := some h }).goto h (.freeing e)).role h =
      some ((s.slot e).key, true) := by simp [role]
  refine r.atSlot rfl rfl rfl rfl (b.ref_pos ht) ⟨fun k o hr h' o' hne hr' => ?_, fun k o hr => ?_,
    by simp, by simp, by simpa using hone⟩ (fun _ _ _ hv => hv)
    (fun e' hc => by cases hp.symm.trans hc) fun _ _ _ => rfl
  · cases hrole'.symm.trans hr
    rcases role_cases hr' with ⟨t, -, rfl⟩ | ⟨e', ht', hkey, -, -⟩
    · exact absurd hrole (r.roles h' h _ false hne hr')
    · obtain rfl := b.unique e' e (b.ref_pos ht') (b.ref_pos ht) hkey
      have hcount := (b.count e').symm.trans hone
      exact absurd (Handles.eq_of_count_eq_one (f := Pc.target ∘ s.pc) hcount ht' ht) hne
  · cases hrole'.symm.trans hr
    exact r.typed h _ false hrole

theorem iput (hp : s.pc h = .ref e) (hs : s.iput h e = some s') : s'.Sole := by
  unfold Itable.iput at hs
  dsimp only at hs
  split at hs
  · rename_i hcond
    split at hs
    · exact Option.some.inj hs ▸ r.decide b hp hcond.1
    · cases hs
  · exact Option.some.inj hs ▸ r.drop b (congrArg Pc.target hp) (congrArg Pc.locks hp)

theorem invalidate (hp : s.pc h = .cleared e) : (s.invalidate h e).Sole := by
  refine r.atSlot (q := .dropping e) rfl rfl rfl rfl (b.ref_pos (congrArg Pc.target hp))
    (.none (by simp [role, Itable.invalidate])) (fun _ _ _ hv => by cases hv) (fun e' hc => ?_)
    fun _ _ _ => rfl
  cases hp.symm.trans hc
  exact ⟨rfl, rfl⟩

theorem getClaimed (hp : s.pc h = .claimed k t) (hs : s.iget h k (.fresh · t) = some s') :
    s'.Sole := by
  have hrole : s.role h = some (k, true) := by simp [role, hp]
  have hothers : ∀ h' o', h' ≠ h → s.role h' ≠ some (k, o') := fun h' o' hne =>
    r.roles h h' k o' (Ne.symm hne) hrole
  refine r.iget b (congrArg Pc.target hp) (fun s' e hp' hkey hdisk hu => ?_)
    (fun h' => hothers h' true) hs
  have hrole' : s'.role h = some (k, true) := by simp [role, hp', hkey]
  refine ⟨fun k' o hr h' o' hne hr' => ?_, fun k' o hr => ?_, fun k' t' hq => ?_,
    fun e' t' hq => ?_, fun e' hq => ?_⟩
  · cases hrole'.symm.trans hr
    exact absurd hr' (hothers h' o' hne)
  · cases hrole'.symm.trans hr
    exact hdisk ▸ r.typed h k true hrole
  · cases hp'.symm.trans hq
  · cases hp'.symm.trans hq
    exact hkey.symm ▸ hu t (r.claimed h k t hp)
  · cases hp'.symm.trans hq

/-- Nobody has an inode as the only one to which a reference may be taken. -/
theorem not_sole_of_live (hlive : (s.disk k).nlink ≠ 0 ∨ ∃ h', s.role h' = some (k, false))
    (h : ι) : s.role h ≠ some (k, true) := by
  intro hr
  rcases hlive with hlink | ⟨h', hr'⟩
  · unfold role at hr
    cases hp : s.pc h with
    | claimed k' t =>
      rw [hp] at hr
      cases hr
      rw [(r.claimed h k t hp).disk] at hlink
      exact hlink rfl
    | fresh e t =>
      rw [hp] at hr
      cases hr
      rw [(r.fresh h e t hp).disk] at hlink
      exact hlink rfl
    | freeing e =>
      rw [hp] at hr
      cases hr
      obtain ⟨hv, hzero⟩ := b.freeing h e hp
      rw [← (b.fields_of_locks (congrArg Pc.locks hp) (by simp [hp]) hv).1] at hlink
      exact hlink hzero
    | idle | scanning | ref | locked | cleared | dropping =>
      rw [hp] at hr
      cases hr
  · by_cases hne : h = h'
    · subst hne
      cases hr.symm.trans hr'
    · exact r.roles h h' k false hne hr hr'

omit [Fintype ι] b in
omit [DecidableEq ι] in
theorem type_of_live (hlive : (s.disk k).nlink ≠ 0 ∨ ∃ h', s.role h' = some (k, false)) :
    (s.disk k).type ≠ .free := by
  rcases hlive with hlink | ⟨h', hr'⟩
  · exact fun hfree => hlink (r.orphan k hfree)
  · exact r.typed h' k false hr'

/-- **Every event that meets the condition keeps the invariant.** -/
theorem step {ninodes : ℕ} {ev : Event ι} (hlive : Live s ev) (hs : ev.run ninodes s = some s') :
    s'.Sole := by
  cases Event.run_does hs with
  | @iget h _ _ hp hs =>
    have hl := hlive _ _ rfl
    have hothers := fun h' (_ : h' ≠ h) => r.not_sole_of_live b hl h'
    exact r.iget b (congrArg Pc.target hp) (fun s' e hp' hkey hdisk _ =>
      .shared (by simp [role, hp', hkey]) (hdisk ▸ r.type_of_live hl) hothers) hothers hs
  | @idup h h' e hp hp' =>
    obtain ⟨hr, ht⟩ : s.role h = some ((s.slot e).key, false) ∧ (s.pc h).target = some e := by
      rcases hp with hp | hp
      · exact ⟨by simp [role, hp], congrArg Pc.target hp⟩
      · exact ⟨by simp [role, hp], congrArg Pc.target hp⟩
    have hothers := fun h1 (_ : h1 ≠ h') => r.not_sole_of_live b (.inr ⟨h, hr⟩) h1
    exact r.addRef (congrArg Pc.target hp') (b.ref_pos ht)
      (.shared (by simp [role]) (r.type_of_live (.inr ⟨h, hr⟩)) hothers) hothers
  | ialloc hp ht => exact r.outside (fun e hc => by cases hp.symm.trans hc) (by simp [role])
  | round hp => exact r.iallocRound b hp
  | claimed hp hs => exact r.getClaimed b hp hs
  | clear hp => exact r.clear b hp
  | invalidate hp => exact r.invalidate b hp
  | drop hp => exact r.drop b (congrArg Pc.target hp) (congrArg Pc.locks hp)
  | ilock hp hs =>
    rcases hp with hp | ⟨t, hp⟩
    · exact r.ilock b (o := false) (congrArg Pc.target hp) (by simp [role, hp]) hs
    · exact r.ilock b (o := true) (congrArg Pc.target hp) (by simp [role, hp]) hs
  | update hp => exact r.update b hp _
  | iunlock hp => exact r.iunlock b hp
  | iput hp hs => exact r.iput b hp hs

end Sole

end Itable

theorem Itable.Sole.initial {disk : Key → Dinode}
    (horphan : ∀ k, (disk k).type = .free → (disk k).nlink = 0) :
    (Itable.initial disk : Itable ι).Sole := by
  refine ⟨horphan, fun h h' k o _ hr => ?_, fun h k o hr => ?_, fun h k t hp => ?_,
    fun h e t hp => ?_, fun h e hp => ?_⟩
  · cases hr
  · cases hr
  · cases hp
  · cases hp
  · cases hp

variable [DecidableEq ι] [Fintype ι]

theorem Itable.Base.clears {ninodes : ℕ} {ev : Event ι} (b : s.Base)
    (hs : ev.run ninodes s = some s') (htype : (s.disk k).type ≠ .free)
    (hfree : (s'.disk k).type = .free) :
    ∃ h e, ev = .step h ∧ s.pc h = .freeing e ∧ (s.slot e).key = k := by
  -- all other events leave the disk or the type as it is
  have hsame : s'.disk = s.disk → False := fun heq => htype (heq ▸ hfree)
  have higet : ∀ {h k} {q : Fin ninode → Pc}, s.iget h k q = some s' → s'.disk = s.disk := by
    intro h k q hg
    rcases Itable.Base.iget_cases hg with ⟨e, -, -, rfl⟩ | ⟨e, -, -, rfl⟩
    · rfl
    · rfl
  cases Event.run_does hs with
  | iget _ hs | claimed _ hs => exact (hsame (higet hs)).elim
  | idup | ialloc | invalidate | drop | iunlock => exact (hsame rfl).elim
  | @round h k' t hp =>
    unfold Itable.iallocRound at hfree hsame
    split_ifs at hfree hsame
    · by_cases hk : k = k'
      · subst hk
        refine absurd hfree ?_
        simpa [allocated] using b.typed h k t (.inl hp)
      · rw [goto_disk, Itable.setDisk_disk, update_of_ne hk] at hfree
        exact absurd hfree htype
    · exact (hsame rfl).elim
    · exact (hsame rfl).elim
  | @clear h e hp =>
    refine ⟨h, e, rfl, hp, ?_⟩
    by_contra hk
    simp only [Itable.clear, goto_disk, Itable.setDisk_disk, update_of_ne
      (Ne.symm hk), Itable.setSlot_disk] at hfree
    exact htype hfree
  | ilock _ hs =>
    obtain ⟨-, ⟨-, rfl⟩ | ⟨-, rfl⟩⟩ := Itable.Base.ilock_cases hs
    · exact (hsame rfl).elim
    · exact (hsame rfl).elim
  | @update h e d hp =>
    by_cases hk : k = (s.slot e).key
    · have hfields := b.fields_of_locks (congrArg Pc.locks hp) (by simp [hp]) (b.held h e hp)
      rw [hk] at hfree
      simp only [Itable.update, Itable.setDisk_disk, update_self] at hfree
      exact absurd hfree hfields.2
    · simp only [Itable.update, Itable.setDisk_disk, update_of_ne hk, Itable.setSlot_disk] at hfree
      exact absurd hfree htype
  | iput _ hs =>
    unfold Itable.iput at hs
    dsimp only at hs
    split_ifs at hs
    · exact (hsame (Option.some.inj hs ▸ rfl)).elim
    · exact (hsame (Option.some.inj hs ▸ rfl)).elim

/-- **The inode table is consistent, as long as no reference is taken to an inode that is being
freed**, but only to one that has a link, or to which somebody has a reference that is not being
put. Then an inode has at most one entry in use; `ref` is the number of references; whoever puts the
last one does not wait for the sleep lock; only `iput`, with the only reference and no links, clears
a type; and the caller of `ialloc` finds the inode as it was allocated. -/
theorem itable_consistent {ninodes : ℕ} (h : ((itableSystem ninodes).restrict Live).Reachable s) :
    (∀ e e', 0 < (s.slot e).ref → 0 < (s.slot e').ref → (s.slot e).key = (s.slot e').key → e = e') ∧
      (∀ e, (s.slot e).ref = (Finset.univ.filter fun h => (s.pc h).target = some e).card) ∧
      (∀ h e, s.pc h = .ref e → (s.slot e).ref = 1 → (s.slot e).lock = none) ∧
      (∀ ev s' k, (itableSystem ninodes).step s ev s' → (s.disk k).type ≠ .free →
        (s'.disk k).type = .free → ∃ h e, ev = .step h ∧ s.pc h = .freeing e ∧ (s.slot e).key = k ∧
          (s.slot e).ino.nlink = 0 ∧ ∀ h', (s.pc h').target = some e → h' = h) ∧
      ∀ h e t, s.pc h = .fresh e t → (s.slot e).lock = none →
        ∃ s', (Event.ilock h).run ninodes s = some s' ∧ (s'.slot e).ino = allocated t := by
  have b := base_reachable h.of_restrict
  have r : s.Sole := by
    have hboth : s.Base ∧ s.Sole := by
      refine h.invariant (P := fun s => s.Base ∧ s.Sole) ?_ ?_
      · rintro s ⟨disk, horphan, rfl⟩
        exact ⟨.initial disk, .initial horphan⟩
      · rintro s ev s' ⟨b, r⟩ ⟨hs, hlive⟩
        exact ⟨b.step hs, r.step b hlive hs⟩
    exact hboth.2
  refine ⟨b.unique, fun e => ?_, fun h e hp hone => ?_, fun ev s' k hs htype hfree => ?_,
    fun h e t hp hlock => ?_⟩
  · rw [b.count, Finset.card_filter]
    rfl
  · -- the holder of the lock would be another reference
    cases hlock : (s.slot e).lock with
    | none => rfl
    | some h' =>
      have hlocks := (b.lock h' e).mp hlock
      have hcount := (b.count e).symm.trans hone
      obtain rfl := Handles.eq_of_count_eq_one (f := Pc.target ∘ s.pc) hcount
        (congrArg Pc.target hp) (Pc.target_of_locks hlocks)
      rw [Function.comp_apply, hp] at hlocks
      cases hlocks
  · obtain ⟨h, e, rfl, hp, hkey⟩ := b.clears hs htype hfree
    refine ⟨h, e, rfl, hp, hkey, (b.freeing h e hp).2, fun h' ht' => ?_⟩
    have hcount := (b.count e).symm.trans (r.last h e hp)
    exact Handles.eq_of_count_eq_one (f := Pc.target ∘ s.pc) hcount ht' (congrArg Pc.target hp)
  · obtain ⟨hdisk, hinvalid⟩ := r.fresh h e t hp
    have hpos := b.ref_pos (congrArg Pc.target hp)
    have hv : (s.slot e).valid = false := by
      by_contra hv
      rw [Bool.not_eq_false] at hv
      obtain ⟨h', hc⟩ := hinvalid e hpos rfl hv
      exact b.not_cleared_of_lock hlock h' hc
    have htype := r.typed h (s.slot e).key true (by simp [Itable.role, hp])
    refine ⟨(s.setSlot e { s.slot e with
      lock := some h, valid := true, ino := s.disk (s.slot e).key }).goto h (.locked e), ?_, ?_⟩
    · simp [Event.run, hp, Itable.ilock, hlock, hv, htype]
    · simp [hdisk]

/-- A disk with one inode, a file with one link. -/
def oneFile (k : Key) : Dinode :=
  if k = ⟨1, 1⟩ then { Dinode.zero with type := .file, nlink := 1 } else Dinode.zero

/-- Reference 0 removes the last link of the file and puts the file, up to the decision to free
it. -/
def unlinked : List (Event (Fin 2)) :=
  [.iget 0 ⟨1, 1⟩, .ilock 0, .update 0 Dinode.zero, .iunlock 0, .iput 0]

/-- The step of an event that takes a reference only to an inode with a link. -/
def liveRun (s : Itable (Fin 2)) (ev : Event (Fin 2)) : Option (Itable (Fin 2)) :=
  match ev with
  | .iget _ k => if (s.disk k).nlink ≠ 0 then ev.run 2 s else none
  | _ => ev.run 2 s

theorem oneFile_orphan (k : Key) (h : (oneFile k).type = .free) : (oneFile k).nlink = 0 := by
  unfold oneFile at h ⊢
  split at h
  · cases h
  · rename_i hk
    rw [if_neg hk]
    rfl

theorem liveRun_step {s s' : Itable (Fin 2)} {ev : Event (Fin 2)} (hs : liveRun s ev = some s') :
    ((itableSystem 2).restrict Live).step s ev s' := by
  unfold liveRun at hs
  split at hs
  · rename_i h k
    split at hs
    · rename_i hlink
      refine ⟨hs, fun h' k' heq => .inl ?_⟩
      cases heq
      exact hlink
    · cases hs
  · rename_i hnot
    exact ⟨hs, fun h' k' heq => absurd heq (hnot h' k')⟩

/-- The inode is cleared, and reused by `ialloc` before `iput` has dropped its reference: both are
to the same entry, and `ilock` finds a new directory in it. -/
theorem itable_consistent_reused : ∃ s s', LTS.runAll liveRun (.initial oneFile)
        (unlinked ++ [.step 0, .ialloc 1 1 .dir, .step 1, .step 1, .step 0]) = some s ∧
      s.pc 0 = .dropping 0 ∧ s.pc 1 = .fresh 0 .dir ∧ (Event.ilock 1).run 2 s = some s' ∧
      (s'.slot 0).ino = allocated .dir := by
  have hrun : (LTS.runAll liveRun (.initial oneFile)
      (unlinked ++ [.step 0, .ialloc 1 1 .dir, .step 1, .step 1, .step 0])).map
      (fun s => (s.pc 0, s.pc 1, (s.slot 0).lock)) = some (.dropping 0, .fresh 0 .dir, none) := by
    decide +kernel
  obtain ⟨s, hs, hvalues⟩ := Option.map_eq_some_iff.mp hrun
  simp only [Prod.mk.injEq] at hvalues
  obtain ⟨h0, h1, hlock⟩ := hvalues
  have hreach : ((itableSystem 2).restrict Live).Reachable s :=
    (LTS.Reachable.init (T := (itableSystem 2).restrict Live) ⟨oneFile, oneFile_orphan, rfl⟩).runAll
      (fun _ _ _ => liveRun_step) hs
  obtain ⟨s', hs', hino⟩ := (itable_consistent hreach).2.2.2.2 1 0 .dir h1 hlock
  exact ⟨s, s', hs, h0, h1, hs', hino⟩

/-- **An inode is cleared under another reference.** After `iput` has decided to free the inode,
with the last reference to it, another reference is taken; the next step of `iput` clears the
inode. -/
theorem cleared_under_reference :
    ∃ s s' : Itable (Fin 2), (itableSystem 2).Reachable s ∧ (itableSystem 2).step s (.step 0) s' ∧
      (s.disk ⟨1, 1⟩).type = .file ∧ (s'.disk ⟨1, 1⟩).type = .free ∧
      s'.pc 1 = .ref 0 ∧ (s'.slot 0).key = ⟨1, 1⟩ ∧ (s'.slot 0).ref = 2 := by
  have hrun : ((LTS.runAll (Event.run 2) (.initial oneFile) (unlinked ++ [.iget 1 ⟨1, 1⟩])).bind
      fun s => ((Event.step 0).run 2 s).map fun s' => ((s.disk ⟨1, 1⟩).type, (s'.disk ⟨1, 1⟩).type,
        s'.pc 1, (s'.slot 0).key, (s'.slot 0).ref)) =
      some (.file, .free, .ref 0, ⟨1, 1⟩, 2) := by decide +kernel
  obtain ⟨s, hs, hnext⟩ := Option.bind_eq_some_iff.mp hrun
  obtain ⟨s', hs', hvalues⟩ := Option.map_eq_some_iff.mp hnext
  simp only [Prod.mk.injEq] at hvalues
  refine ⟨s, s', ?_, hs', hvalues⟩
  exact (LTS.Reachable.init (T := itableSystem 2) ⟨oneFile, oneFile_orphan, rfl⟩).runAll
    (fun _ _ _ h => h) hs

end Xv6.Fs.Inodes
