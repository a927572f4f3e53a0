import Xv6.Bio.Control

/-!
# The cache is transparent

The cache shows its callers one array of blocks: a process that returns from `bread` has exclusive
access to the block until it calls `brelse`, and sees what was last put there. The buffer in use for
a block has the contents of the array; the disk has them too unless that buffer was changed since it
was written, and such a buffer is held or pinned, so that it is not recycled.

The driver must put the blocks in use at different places. That of the virtio disk knows one device
and multiplies in 32 bits, so this holds for the blocks below `2 ^ 31` of one device.
-/

namespace Xv6.Bio

open Function List Bcache

variable {ι D S : Type*} {s s' : Bcache ι D S} {a a' : BlockArray ι BlockId D}
  {addr : BlockId → S} {K : Set BlockId} {h : ι} {b : Fin nbuf} {k : BlockId}

/-- What the array has to do with the cache. -/
structure Shows (addr : BlockId → S) (K : Set BlockId) (s : Bcache ι D S)
    (a : BlockArray ι BlockId D) : Prop where
  holder : ∀ h k, a.holder k = some h ↔ ∃ b, s.pc h = .holding b k
  blocks : ∀ b, ¬s.Unused b → (s.buf b).block ∈ K
  valid : ∀ b, (s.buf b).valid = true → (s.buf b).data = a.content (s.buf b).block
  filled : ∀ h b k, s.pc h = .filled b k → (s.buf b).data = a.content k
  disk : ∀ k ∈ K, (∀ b, (s.buf b).block = k → s.dirty b = false) → s.disk (addr k) = a.content k
  dirty : ∀ b, s.dirty b = true → (s.buf b).valid = true ∧
    (0 < s.pins b ∨ ∃ h k, s.pc h = .holding b k)

theorem Bcache.not_unused_of_valid (hv : (s.buf b).valid = true) : ¬s.Unused b := by
  intro hu
  rw [hu.2] at hv
  cases hv

namespace Shows

section Quiet

variable [DecidableEq ι] {q : Pc}

theorem quiet (r : Shows addr K s a) {x : Buf ι D} (hbuf : s'.buf = update s.buf b x)
    (hpc : s'.pc = update s.pc h q) (hdisk : s'.disk = s.disk) (hdirty : s'.dirty = s.dirty)
    (hcontent : a'.content = a.content) (hpins : ∀ b', b' ≠ b → s'.pins b' = s.pins b')
    (hholder : ∀ h k, a'.holder k = some h ↔ ∃ b, s'.pc h = .holding b k)
    (hfrom : ∀ b' k', s.pc h = .holding b' k' → b' = b) (hblocks : x.block ∈ K)
    (hvalid : x.valid = true → x.data = a.content x.block)
    (hfilled : ∀ b' k', q = .filled b' k' → b' = b ∧ x.data = a.content k')
    (hdata : ∀ h' k', h' ≠ h → s.pc h' = .filled b k' → x.data = (s.buf b).data)
    (hclean : s.dirty b = true → x.block = (s.buf b).block ∧ x.valid = true ∧
      (0 < s'.pins b ∨ ∃ h k, s'.pc h = .holding b k)) : Shows addr K s' a' := by
  obtain ⟨hself, hrest⟩ := eq_update_iff.mp hbuf
  obtain ⟨hpself, hprest⟩ := eq_update_iff.mp hpc
  refine ⟨hholder, fun b' hu => ?_, fun b' hv => ?_, fun h' b' k' hp => ?_, fun k' hk' hall => ?_,
    fun b' hd => ?_⟩
  · by_cases hb' : b' = b
    · rw [hb', hself]
      exact hblocks
    · rw [hrest b' hb']
      unfold Bcache.Unused at hu
      rw [hrest b' hb'] at hu
      exact r.blocks b' hu
  · rw [hcontent]
    by_cases hb' : b' = b
    · rw [hb', hself] at hv ⊢
      exact hvalid hv
    · rw [hrest b' hb'] at hv ⊢
      exact r.valid b' hv
  · rw [hcontent]
    by_cases hh' : h' = h
    · rw [hh', hpself] at hp
      obtain ⟨rfl, hx⟩ := hfilled b' k' hp
      rw [hself, hx]
    · rw [hprest h' hh'] at hp
      by_cases hb' : b' = b
      · subst hb'
        rw [hself, hdata h' k' hh' hp, r.filled h' b' k' hp]
      · rw [hrest b' hb', r.filled h' b' k' hp]
  · rw [hcontent, hdisk]
    refine r.disk k' hk' fun b' hb' => ?_
    by_contra hd
    rw [Bool.not_eq_false] at hd
    have hsame : (s'.buf b').block = k' := by
      by_cases heq : b' = b
      · subst heq
        rw [hself, (hclean hd).1, hb']
      · rw [hrest b' heq, hb']
    have := hall b' hsame
    rw [hdirty, hd] at this
    cases this
  · rw [hdirty] at hd
    by_cases hb' : b' = b
    · subst hb'
      rw [hself]
      exact (hclean hd).2
    · rw [hrest b' hb', hpins b' hb']
      refine (r.dirty b' hd).imp_right fun hor => hor.imp_right ?_
      rintro ⟨h', k', hp⟩
      have hh' : h' ≠ h := fun heq => hb' (hfrom b' k' (heq ▸ hp))
      exact ⟨h', k', (hprest h' hh').trans hp⟩

theorem holder_of_not_holding (r : Shows addr K s a) (hp : ∀ b k, s.pc h ≠ .holding b k)
    (hq : ∀ b k, q ≠ .holding b k) (hpc : s'.pc = update s.pc h q) :
    ∀ h k, a.holder k = some h ↔ ∃ b, s'.pc h = .holding b k := by
  intro h' k'
  rw [r.holder h' k', hpc]
  by_cases hh' : h' = h
  · subst hh'
    rw [update_self]
    exact iff_of_false (fun ⟨b', heq⟩ => hp b' k' heq) fun ⟨b', heq⟩ => hq b' k' heq
  · rw [update_of_ne hh']

theorem holder_take (r : Shows addr K s a) (hfree : a.holder k = none)
    (hp : ∀ b k, s.pc h ≠ .holding b k) (hpc : s'.pc = update s.pc h (.holding b k)) :
    ∀ h' k', update a.holder k (some h) k' = some h' ↔ ∃ b', s'.pc h' = .holding b' k' := by
  intro h' k'
  rw [hpc]
  by_cases hh' : h' = h
  · subst hh'
    rw [update_self]
    by_cases hk' : k' = k
    · subst hk'
      rw [update_self]
      exact iff_of_true rfl ⟨b, rfl⟩
    · rw [update_of_ne hk', r.holder]
      refine iff_of_false (fun ⟨b', heq⟩ => hp b' k' heq) fun ⟨b', heq⟩ => ?_
      cases heq
      exact hk' rfl
  · rw [update_of_ne hh', ← r.holder]
    by_cases hk' : k' = k
    · subst hk'
      rw [update_self, hfree]
      exact iff_of_false (fun heq => hh' (Option.some.inj heq).symm) fun heq => by cases heq
    · rw [update_of_ne hk']

theorem holder_drop (r : Shows addr K s a) (hp : s.pc h = .holding b k)
    (hq : ∀ b k, q ≠ .holding b k) (hpc : s'.pc = update s.pc h q) :
    ∀ h' k', update a.holder k none k' = some h' ↔ ∃ b', s'.pc h' = .holding b' k' := by
  intro h' k'
  have hheld := (r.holder h k).mpr ⟨b, hp⟩
  rw [hpc]
  by_cases hh' : h' = h
  · subst hh'
    rw [update_self]
    refine iff_of_false (fun heq => ?_) fun ⟨b', heq⟩ => hq b' k' heq
    by_cases hk' : k' = k
    · rw [hk', update_self] at heq
      cases heq
    · rw [update_of_ne hk', r.holder] at heq
      obtain ⟨b', hp'⟩ := heq
      cases hp.symm.trans hp'
      exact hk' rfl
  · rw [update_of_ne hh', ← r.holder]
    by_cases hk' : k' = k
    · subst hk'
      rw [update_self, hheld]
      exact iff_of_false (fun heq => by cases heq) fun heq => hh' (Option.some.inj heq).symm
    · rw [update_of_ne hk']

end Quiet

variable [Fintype ι] (r : Shows addr K s a)

include r

variable (c : s.Control)

include c

theorem refcnt_pos (hd : s.dirty b = true) : 0 < (s.buf b).refcnt := by
  rcases (r.dirty b hd).2 with hpins | ⟨h, k, hp⟩
  · have hcount := c.count b
    omega
  · exact c.refcnt_pos (congrArg Pc.target hp)

/-- Nobody else has access to a block while a process has the lock of its buffer. -/
theorem free (hlocks : (s.pc h).Locks b) (ht : (s.pc h).target = some (b, k))
    (hnot : ∀ b k, s.pc h ≠ .holding b k) : a.holder k = none := by
  cases hholder : a.holder k with
  | none => rfl
  | some h' =>
    obtain ⟨b', hp'⟩ := (r.holder h' k).mp hholder
    have ht' : (s.pc h').target = some (b', k) := congrArg Pc.target hp'
    have hblock := (c.request h b k ht).trans (c.request h' b' k ht').symm
    obtain rfl := c.unique hblock (c.not_unused ht) (c.not_unused ht')
    have hlock := (c.lock h b).mpr hlocks
    have hlock' := (c.lock h' b).mpr (by rw [hp']; rfl)
    obtain rfl := Option.some.inj (hlock.symm.trans hlock')
    exact absurd hp' (hnot b k)

/-! ### The steps -/

theorem modify (hp : s.pc h = .holding b k) (d : D) :
    ∃ a', a.Step (.put h k d) a' ∧ Shows addr K (s.modify b d) a' := by
  have ht : (s.pc h).target = some (b, k) := congrArg Pc.target hp
  have hblock := c.request h b k ht
  -- the block of any other buffer in use is another one
  have hother : ∀ b', ¬s.Unused b' → b' ≠ b → (s.buf b').block ≠ k := fun b' hu hne heq =>
    hne (c.unique (heq.trans hblock.symm) hu (c.not_unused ht))
  have hself : (s.modify b d).buf b = { s.buf b with data := d } := by simp [Bcache.modify]
  have hrest : ∀ b', b' ≠ b → (s.modify b d).buf b' = s.buf b' ∧
      (s.modify b d).dirty b' = s.dirty b' := fun b' hb' => by
    simp [Bcache.modify, update_of_ne hb']
  have hdirty : (s.modify b d).dirty b = true := by simp [Bcache.modify]
  have hcontent : ∀ k', k' ≠ k → update a.content k d k' = a.content k' :=
    fun k' hne => update_of_ne hne d a.content
  refine ⟨_, ⟨(r.holder h k).mpr ⟨b, hp⟩, rfl⟩, r.holder, fun b' hu => ?_, fun b' hv => ?_,
    fun h' b' k' hp' => ?_, fun k' hk' hall => ?_, fun b' hd => ?_⟩
  · by_cases hb' : b' = b
    · subst hb'
      rw [hself]
      exact r.blocks b' (c.not_unused ht)
    · unfold Bcache.Unused at hu
      rw [(hrest b' hb').1] at hu ⊢
      exact r.blocks b' hu
  · by_cases hb' : b' = b
    · subst hb'
      rw [hself]
      simp [hblock]
    · rw [(hrest b' hb').1] at hv ⊢
      have hne := hother b' (not_unused_of_valid hv) hb'
      exact (r.valid b' hv).trans (hcontent _ hne).symm
  · have hp'' : s.pc h' = .filled b' k' := hp'
    have ht' : (s.pc h').target = some (b', k') := congrArg Pc.target hp''
    have hb' : b' ≠ b := by
      rintro rfl
      have hlock := (c.lock h b').mpr (by rw [hp]; rfl)
      have hlock' := (c.lock h' b').mpr (by rw [hp'']; rfl)
      obtain rfl := Option.some.inj (hlock'.symm.trans hlock)
      cases hp.symm.trans hp''
    have hne := hother b' (c.not_unused ht') hb'
    rw [c.request h' b' k' ht'] at hne
    rw [(hrest b' hb').1]
    exact (r.filled h' b' k' hp'').trans (hcontent k' hne).symm
  · have hne : k' ≠ k := by
      rintro rfl
      have := hall b (by rw [hself]; exact hblock)
      rw [hdirty] at this
      cases this
    refine (r.disk k' hk' fun b' hb' => ?_).trans (hcontent k' hne).symm
    have hbb : b' ≠ b := fun heq => hne (hb'.symm.trans (heq ▸ hblock))
    rw [← (hrest b' hbb).2]
    exact hall b' (by rw [(hrest b' hbb).1]; exact hb')
  · by_cases hb' : b' = b
    · subst hb'
      rw [hself]
      exact ⟨c.valid h b' k hp, .inr ⟨h, k, hp⟩⟩
    · rw [(hrest b' hb').2] at hd
      rw [(hrest b' hb').1]
      exact r.dirty b' hd

variable [DecidableEq ι] {x : Buf ι D}

theorem take (hlocks : (s.pc h).Locks b) (ht : (s.pc h).target = some (b, k))
    (hnot : ∀ b k, s.pc h ≠ .holding b k) (hbuf : s'.buf = update s.buf b x)
    (hpc : s'.pc = update s.pc h (.holding b k)) (hdisk : s'.disk = s.disk)
    (hdirty : s'.dirty = s.dirty) (hpins : s'.pins = s.pins) (hx : x.block = (s.buf b).block)
    (hdata : x.data = (s.buf b).data) (hcontent : (s.buf b).data = a.content k)
    (hvalid : x.valid = true) :
    ∃ a', a.Step (.take h k (s.buf b).data) a' ∧ Shows addr K s' a' := by
  have hfree := r.free c hlocks ht hnot
  have hblock := c.request h b k ht
  refine ⟨_, ⟨hfree, hcontent, rfl⟩, r.quiet hbuf hpc hdisk hdirty rfl (fun b' _ => by rw [hpins])
    (r.holder_take hfree hnot hpc) (fun b' k' hp => absurd hp (hnot b' k'))
    (hx ▸ r.blocks b (c.not_unused ht)) (fun _ => ?_) (fun b' k' heq => by cases heq)
    (fun _ _ _ _ => hdata) fun hd => ?_⟩
  · rw [hdata, hcontent, hx, hblock]
  · exact ⟨hx, hvalid, .inr ⟨h, k, by rw [hpc, update_self]⟩⟩

theorem bget (hp : s.pc h = .idle) (hk : k ∈ K) (hs : s.bget h k = some s') :
    Shows addr K s' a := by
  have hnot : ∀ b k, s.pc h ≠ .holding b k := fun b k heq => by cases hp.symm.trans heq
  rcases c.bget_cases hs with ⟨l, b, hl, hfind, rfl⟩ | ⟨b, hnone, hfree, rfl⟩
  · have hblock : (s.buf b).block = k := by simpa using find?_some hfind
    refine r.quiet rfl rfl rfl rfl rfl (fun _ _ => rfl)
      (r.holder_of_not_holding (q := .locking b k) hnot (fun _ _ heq => by cases heq) rfl)
      (fun b' k' heq => absurd heq (hnot b' k')) (hblock ▸ hk) (r.valid b)
      (fun _ _ heq => by cases heq) (fun _ _ _ _ => rfl) fun hd => ⟨rfl, (r.dirty b hd).1, ?_⟩
    refine (r.dirty b hd).2.imp_right fun ⟨h', k', hp'⟩ => ⟨h', k', ?_⟩
    have hne : h' ≠ h := fun heq => hnot b k' (heq ▸ hp')
    simpa [update_of_ne hne] using hp'
  · refine r.quiet rfl rfl rfl rfl rfl (fun _ _ => rfl)
      (r.holder_of_not_holding (q := .locking b k) hnot (fun _ _ heq => by cases heq) rfl)
      (fun b' k' heq => absurd heq (hnot b' k')) hk (fun hv => by cases hv)
      (fun _ _ heq => by cases heq) (fun h' k' _ hp' => ?_) fun hd => ?_
    · exact absurd hfree (c.refcnt_pos (congrArg Pc.target hp')).ne'
    · exact absurd hfree (r.refcnt_pos c hd).ne'

/-- The process keeps its buffer, its data and its access or the lack of it. -/
theorem keep {q : Pc} (ht : (s.pc h).target = some (b, k)) (hnot : ∀ b k, s.pc h ≠ .holding b k)
    (hq : ∀ b k, q ≠ .holding b k) (hqf : ∀ b k, q ≠ .filled b k) (hbuf : s'.buf = update s.buf b x)
    (hpc : s'.pc = update s.pc h q) (hdisk : s'.disk = s.disk) (hdirty : s'.dirty = s.dirty)
    (hpins : s'.pins = s.pins) (hblock : x.block = (s.buf b).block)
    (hvalid : x.valid = (s.buf b).valid) (hdata : x.data = (s.buf b).data) : Shows addr K s' a := by
  refine r.quiet hbuf hpc hdisk hdirty rfl (fun _ _ => by rw [hpins])
    (r.holder_of_not_holding hnot hq hpc) (fun b' k' heq => absurd heq (hnot b' k'))
    (hblock ▸ r.blocks b (c.not_unused ht)) (fun hv => ?_) (fun b' k' heq => absurd heq (hqf b' k'))
    (fun _ _ _ _ => hdata) fun hd => ⟨hblock, hvalid.trans (r.dirty b hd).1, ?_⟩
  · rw [hdata, hblock]
    exact r.valid b (hvalid ▸ hv)
  · rw [hpins]
    refine (r.dirty b hd).2.imp_right fun ⟨h', k', hp'⟩ => ⟨h', k', ?_⟩
    have hne : h' ≠ h := fun heq => hnot b k' (heq ▸ hp')
    rw [hpc, update_of_ne hne, hp']

theorem fill (hp : s.pc h = .locked b k) (hinvalid : (s.buf b).valid ≠ true) :
    Shows addr K ((s.setBuf b { s.buf b with data := s.disk (addr (s.buf b).block) }).goto h
      (.filled b k)) a := by
  have ht : (s.pc h).target = some (b, k) := congrArg Pc.target hp
  have hnot : ∀ b k, s.pc h ≠ .holding b k := fun b k heq => by cases hp.symm.trans heq
  have hblock := c.request h b k ht
  have hK := r.blocks b (c.not_unused ht)
  have hcontent : s.disk (addr (s.buf b).block) = a.content k := by
    rw [← hblock]
    refine r.disk _ hK fun b' hb' => ?_
    by_contra hd
    rw [Bool.not_eq_false] at hd
    have hv := (r.dirty b' hd).1
    obtain rfl := c.unique hb' (not_unused_of_valid hv) (c.not_unused ht)
    exact hinvalid hv
  refine r.quiet rfl rfl rfl rfl rfl (fun _ _ => rfl)
    (r.holder_of_not_holding (q := .filled b k) hnot (fun _ _ heq => by cases heq) rfl)
    (fun b' k' heq => absurd heq (hnot b' k')) hK (fun hv => absurd hv hinvalid)
    (fun b' k' heq => ?_) (fun h' k' hne hp' => ?_) fun hd => absurd (r.dirty b hd).1 hinvalid
  · cases heq
    exact ⟨rfl, hcontent⟩
  · have hlock := (c.lock h b).mpr (by rw [hp]; rfl)
    have hlock' := (c.lock h' b).mpr (by rw [hp']; rfl)
    exact absurd (Option.some.inj (hlock'.symm.trans hlock)) hne

omit [DecidableEq ι] in
/-- The disk gets the contents of the block, and no other block is at the same place. -/
theorem bwrite [DecidableEq S] (hinj : Set.InjOn addr K) (hp : s.pc h = .holding b k) :
    Shows addr K { s with
      disk := update s.disk (addr (s.buf b).block) (s.buf b).data
      dirty := update s.dirty b false } a := by
  have hK := r.blocks b (c.not_unused (congrArg Pc.target hp))
  refine ⟨r.holder, r.blocks, r.valid, r.filled, fun k' hk' hall => ?_, fun b' hd => ?_⟩
  · dsimp only at hall ⊢
    by_cases heq : k' = (s.buf b).block
    · rw [heq, update_self]
      exact r.valid b (c.valid h b k hp)
    · rw [update_of_ne fun haddr => heq (hinj hk' hK haddr)]
      refine r.disk k' hk' fun b' hb' => ?_
      have hne : b' ≠ b := fun h' => heq (hb'.symm.trans (h' ▸ rfl))
      have hclean := hall b' hb'
      rwa [update_of_ne hne] at hclean
  · dsimp only at hd
    by_cases hb' : b' = b
    · rw [hb', update_self] at hd
      cases hd
    · rw [update_of_ne hb'] at hd
      exact r.dirty b' hd

/-- The number of pins changes; it does not fall to zero under a changed buffer. -/
theorem pin (hp : s.pc h = .holding b k) (hbuf : s'.buf = update s.buf b x) (hpc : s'.pc = s.pc)
    (hdisk : s'.disk = s.disk) (hdirty : s'.dirty = s.dirty)
    (hpins : ∀ b', b' ≠ b → s'.pins b' = s.pins b') (hblock : x.block = (s.buf b).block)
    (hvalid : x.valid = (s.buf b).valid) (hdata : x.data = (s.buf b).data) : Shows addr K s' a := by
  have ht : (s.pc h).target = some (b, k) := congrArg Pc.target hp
  have hpc' : s'.pc = update s.pc h (.holding b k) := by
    rw [hpc, ← hp, update_eq_self]
  refine r.quiet hbuf hpc' hdisk hdirty rfl hpins (fun h k => by rw [hpc, r.holder])
    (fun b' k' heq => ?_) (hblock ▸ r.blocks b (c.not_unused ht)) (fun hv => ?_)
    (fun b' k' heq => by cases heq) (fun _ _ _ _ => hdata)
    fun hd => ⟨hblock, hvalid.trans (r.dirty b hd).1, .inr ⟨h, k, hpc ▸ hp⟩⟩
  · cases hp.symm.trans heq
    rfl
  · rw [hdata, hblock]
    exact r.valid b (hvalid ▸ hv)

theorem brelse (hp : s.pc h = .holding b k) (hclean : s.dirty b = false ∨ 0 < s.pins b) :
    ∃ a', a.Step (.drop h k) a' ∧
      Shows addr K ((s.setBuf b { s.buf b with lock := none }).goto h (.releasing b k)) a' := by
  refine ⟨_, ⟨(r.holder h k).mpr ⟨b, hp⟩, rfl⟩, r.quiet rfl rfl rfl rfl rfl (fun _ _ => rfl)
    (r.holder_drop (q := .releasing b k) hp (fun _ _ heq => by cases heq) rfl)
    (fun b' k' heq => ?_) (r.blocks b (c.not_unused (congrArg Pc.target hp))) (r.valid b)
    (fun _ _ heq => by cases heq) (fun _ _ _ _ => rfl) fun hd => ⟨rfl, (r.dirty b hd).1, .inl ?_⟩⟩
  · cases hp.symm.trans heq
    rfl
  · exact hclean.resolve_left fun hf => by rw [hf] at hd; cases hd

theorem putBack (hp : s.pc h = .releasing b k) : Shows addr K (s.putBack h b) a := by
  unfold Bcache.putBack
  dsimp only
  split <;>
    exact r.keep c (q := .idle) (x := { s.buf b with refcnt := (s.buf b).refcnt - 1 })
      (congrArg Pc.target hp) (fun _ _ heq => by cases hp.symm.trans heq)
      (fun _ _ heq => by cases heq) (fun _ _ heq => by cases heq) rfl rfl rfl rfl rfl rfl rfl rfl

/-- **Every step of the cache is one of the array, or does nothing to it.** -/
theorem step [DecidableEq S] (hinj : Set.InjOn addr K) {e : Event ι D}
    {o : Option (Act ι BlockId D)} (hallowed : Allowed K s e) (hs : e.run addr s = some (o, s')) :
    ∃ a', (blockArray a.content).step a o a' ∧ Shows addr K s' a' := by
  cases Event.run_does hs with
  | bget hp hs => exact ⟨a, rfl, r.bget c hp hallowed hs⟩
  | @lock _ b k hp =>
    exact ⟨a, rfl, r.keep c (q := .locked b k) (congrArg Pc.target hp)
      (fun _ _ heq => by cases hp.symm.trans heq) (fun _ _ heq => by cases heq)
      (fun _ _ heq => by cases heq) rfl rfl rfl rfl rfl rfl rfl rfl⟩
  | @hit h b k hp hvalid =>
    have ht : (s.pc h).target = some (b, k) := congrArg Pc.target hp
    have hcontent := r.valid b hvalid
    rw [c.request h b k ht] at hcontent
    exact r.take c (x := s.buf b) (by rw [hp]; rfl) ht (fun _ _ heq => by cases hp.symm.trans heq)
      (update_eq_self b s.buf).symm rfl rfl rfl rfl rfl rfl hcontent hvalid
  | fill hp hinvalid => exact ⟨a, rfl, r.fill c hp hinvalid⟩
  | @filled h b k hp =>
    exact r.take c (by rw [hp]; rfl) (congrArg Pc.target hp)
      (fun _ _ heq => by cases hp.symm.trans heq) rfl rfl rfl rfl rfl rfl rfl
      (r.filled h b k hp) rfl
  | putBack hp => exact ⟨a, rfl, r.putBack c hp⟩
  | modify hp => exact r.modify c hp _
  | bwrite hp => exact ⟨a, rfl, r.bwrite c hinj hp⟩
  | bpin hp =>
    refine ⟨a, rfl, r.pin c hp rfl rfl rfl rfl (fun b' hb' => ?_) rfl rfl rfl⟩
    simp [Bcache.bpin, update_of_ne hb']
  | bunpin hp =>
    refine ⟨a, rfl, r.pin c hp rfl rfl rfl rfl (fun b' hb' => ?_) rfl rfl rfl⟩
    simp [bunpin, update_of_ne hb']
  | @brelse _ b _ hp => exact r.brelse c hp (hallowed b (by rw [hp]; rfl))

end Shows

/-! ### The whole -/

theorem binit_ring : binit.Ring none ((List.finRange nbuf).reverse.map some) := by
  have hempty : (⟨fun _ => none, fun _ => none⟩ : Links Node).Ring none [] :=
    ⟨by simp [Links.Joined], nodup_singleton none⟩
  have hnodup : (none :: (((List.finRange nbuf).map some).reverse ++ [])).Nodup := by
    rw [append_nil, nodup_cons, mem_reverse, nodup_reverse]
    refine ⟨by simp, (nodup_finRange nbuf).map (Option.some_injective _)⟩
  have hring := hempty.foldl_pushFront hnodup
  rw [foldl_map, append_nil, ← map_reverse] at hring
  exact hring

theorem Bcache.Control.initial [Fintype ι] (zero : D) (disk : S → D) :
    (Bcache.initial zero disk : Bcache ι D S).Control := by
  refine ⟨⟨(List.finRange nbuf).reverse, reverse_perm _, binit_ring, ?_⟩, fun b => ?_, ?_, ?_, ?_⟩
  · exact pairwise_of_forall fun _ _ _ => ⟨rfl, rfl⟩
  · exact (Finset.sum_eq_zero fun _ _ => rfl).symm
  · intro h b k ht
    cases ht
  · intro h b
    exact iff_of_false (fun heq => by cases heq) id
  · intro h b k hp
    cases hp

theorem Shows.initial (addr : BlockId → S) (K : Set BlockId) (zero : D) (disk : S → D) :
    Shows addr K (Bcache.initial zero disk : Bcache ι D S)
      ⟨fun k => disk (addr k), fun _ => none⟩ := by
  refine ⟨fun h k => iff_of_false (fun heq => ?_) ?_, fun b hu => absurd ⟨rfl, rfl⟩ hu,
    fun b hv => ?_, fun h b k hp => ?_, fun _ _ _ => rfl, fun b hd => ?_⟩
  · cases heq
  · rintro ⟨b, hp⟩
    cases hp
  · cases hv
  · cases hp
  · cases hd

theorem Bcache.setBuf_block {x : Buf ι D} (hx : x.block = (s.buf b).block) (b' : Fin nbuf) :
    ((s.setBuf b x).buf b').block = (s.buf b').block := by
  by_cases hb' : b' = b
  · rw [hb', setBuf_buf, update_self, hx]
  · rw [setBuf_buf, update_of_ne hb']

/-- **A referenced buffer is not recycled.** -/
theorem Bcache.Control.block_eq [Fintype ι] [DecidableEq ι] [DecidableEq S] (c : s.Control)
    {e : Event ι D} {o : Option (Act ι BlockId D)} (hs : e.run addr s = some (o, s'))
    (b : Fin nbuf) (hpos : 0 < (s.buf b).refcnt) : (s'.buf b).block = (s.buf b).block := by
  cases Event.run_does hs with
  | bget _ hs =>
    rcases c.bget_cases hs with ⟨l, b', hl, hfind, rfl⟩ | ⟨b', hnone, hfree, rfl⟩
    · exact s.setBuf_block (by rfl) b
    · have hne : b ≠ b' := fun heq => hpos.ne' (heq ▸ hfree)
      rw [goto_buf, setBuf_buf, update_of_ne hne]
  | hit | bwrite => rfl
  | lock | fill | filled | modify | bpin | bunpin | brelse => exact s.setBuf_block (by rfl) b
  | putBack =>
    unfold Bcache.putBack
    dsimp only
    split
    · exact s.setBuf_block (by rfl) b
    · exact s.setBuf_block (by rfl) b

/-- **The buffer cache is transparent.** If the driver puts the blocks in use at different places of
the disk, and callers write or pin what they change before they release it, and unpin it after it
was written: a block has at most one buffer with references or valid data; no referenced buffer is
recycled; the list from `bcache.head` is a ring through all buffers; and what the callers do and see
is a run of one array of blocks, which whoever holds a buffer finds in it. -/
theorem bcache_transparent [Fintype ι] [DecidableEq ι] [DecidableEq S] {zero : D} {disk : S → D}
    (hinj : Set.InjOn addr K) {os : List (Option (Act ι BlockId D))}
    (hrun : (bcacheSystem addr K zero disk).Run (.initial zero disk) os s) :
    (∀ b b', (s.buf b).block = (s.buf b').block →
        0 < (s.buf b).refcnt ∨ (s.buf b).valid = true →
        0 < (s.buf b').refcnt ∨ (s.buf b').valid = true → b = b') ∧
      (∀ o s', (bcacheSystem addr K zero disk).step s o s' → ∀ b, 0 < (s.buf b).refcnt →
        (s'.buf b).block = (s.buf b).block) ∧
      (∃ l : List (Fin nbuf), l.Perm (List.finRange nbuf) ∧ s.links.Ring none (l.map some)) ∧
      ∃ a, (blockArray fun k => disk (addr k)).Run ⟨fun k => disk (addr k), fun _ => none⟩ os a ∧
        ∀ h b k, s.pc h = .holding b k → a.holder k = some h ∧ (s.buf b).lock = some h ∧
          (s.buf b).data = a.content k := by
  obtain ⟨a, ha, c, r⟩ := hrun.simulation (V := blockArray fun k => disk (addr k))
    (R := fun s a => s.Control ∧ Shows addr K s a)
    (fun s o s' a ⟨c, r⟩ ⟨e, hallowed, hs⟩ =>
      (r.step c hinj hallowed hs).imp fun a' ⟨hstep, r'⟩ => ⟨hstep, c.step hallowed hs, r'⟩)
    ⟨.initial zero disk, .initial addr K zero disk⟩
  have hused : ∀ b, 0 < (s.buf b).refcnt ∨ (s.buf b).valid = true → ¬s.Unused b := by
    rintro b (hpos | hv) hu
    · exact hpos.ne' hu.1
    · exact not_unused_of_valid hv hu
  refine ⟨fun b b' heq hb hb' => c.unique heq (hused b hb) (hused b' hb'), ?_, ?_, a, ha, ?_⟩
  · rintro o s' ⟨e, -, hs⟩ b hpos
    exact c.block_eq hs b hpos
  · obtain ⟨l, hl⟩ := c.list
    exact ⟨l, hl.perm, hl.ring⟩
  · intro h b k hp
    refine ⟨(r.holder h k).mpr ⟨b, hp⟩, (c.lock h b).mpr (by rw [hp]; rfl), ?_⟩
    rw [r.valid b (c.valid h b k hp), c.request h b k (congrArg Pc.target hp)]

/-- The place of a block in `virtio_disk_rw`: `b->blockno * (BSIZE / 512)`. -/
def sector (k : BlockId) : BitVec 32 := k.blockno * 2

/-- The blocks of one device that its driver can tell apart. -/
def deviceBlocks (dev : BitVec 32) : Set BlockId := {k | k.dev = dev ∧ k.blockno.toNat < 2 ^ 31}

instance (dev : BitVec 32) : DecidablePred (· ∈ deviceBlocks dev) := fun k =>
  inferInstanceAs (Decidable (k.dev = dev ∧ k.blockno.toNat < 2 ^ 31))

theorem sector_injOn (dev : BitVec 32) : Set.InjOn sector (deviceBlocks dev) := by
  rintro ⟨d1, n1⟩ ⟨h1, hn1⟩ ⟨d2, n2⟩ ⟨h2, hn2⟩ heq
  have hn : n1 = n2 := by
    unfold sector at heq
    dsimp only at heq hn1 hn2
    bv_omega
  rw [hn, show d1 = d2 from h1.trans h2.symm]

/-- The step of an event that callers keep to. -/
def allowedRun (dev : BitVec 32) (s : Bcache (Fin 2) ℕ (BitVec 32)) (e : Event (Fin 2) ℕ) :
    Option (Option (Act (Fin 2) BlockId ℕ) × Bcache (Fin 2) ℕ (BitVec 32)) :=
  if Allowed (deviceBlocks dev) s e then e.run sector s else none

/-- Process 0 reads block 5, changes it, pins it and releases it; process 1 reads it. -/
def pinnedRun : List (Event (Fin 2) ℕ) :=
  [.bread 0 ⟨1, 5⟩, .step 0, .step 0, .step 0, .modify 0 7, .bpin 0, .brelse 0, .step 0,
    .bread 1 ⟨1, 5⟩, .step 1, .step 1]

/-- Process 1 sees what process 0 has put there, and not the zero that is still on the disk. -/
theorem bcache_transparent_pinnedRun :
    ∃ os s a, LTS.trace (allowedRun 1) (.initial 0 fun _ => 0) pinnedRun = some (os, s) ∧
      (blockArray fun _ => 0).Run ⟨fun _ => 0, fun _ => none⟩ os a ∧
      os.getLast? = some (some (.take 1 ⟨1, 5⟩ 7)) ∧ s.disk (sector ⟨1, 5⟩) = 0 := by
  have htrace : (LTS.trace (allowedRun 1) (.initial 0 fun _ => 0) pinnedRun).map
      (fun r => (r.1.getLast?, r.2.disk (sector ⟨1, 5⟩))) =
        some (some (some (.take 1 ⟨1, 5⟩ 7)), 0) := by decide +kernel
  obtain ⟨⟨os, s⟩, hs, hvalues⟩ := Option.map_eq_some_iff.mp htrace
  simp only [Prod.mk.injEq] at hvalues
  have hrun : (bcacheSystem sector (deviceBlocks 1) 0 fun _ => 0).Run
      (.initial 0 fun _ => 0) os s := by
    refine LTS.Run.of_trace (fun s e o s' hstep => ?_) hs
    unfold allowedRun at hstep
    split at hstep
    · rename_i hallowed
      exact ⟨e, hallowed, hstep⟩
    · cases hstep
  obtain ⟨-, -, -, a, ha, -⟩ := bcache_transparent (sector_injOn 1) hrun
  exact ⟨os, s, a, hs, ha, hvalues⟩

end Xv6.Bio
