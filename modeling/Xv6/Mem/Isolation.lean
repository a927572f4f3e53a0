import Xv6.Mem.System

/-!
# `copyout` and the permissions of the user

What the kernel owes the processes when it copies out to one of them: to write only where that
process may write, to stop where it may not, and to leave the others alone. `copyout` checks only
that the page is mapped and accessible to the user. A page of text, which `exec` maps read only and
`uvmcopy` shares as it is, passes the check, and the write reaches every process that shares it.
-/

namespace Xv6

/-- The byte that the process `i` sees at the address `x`. -/
def Sys.byte {ι : Type} (s : Sys ι) (i : ι) (x : ℕ) : Option UInt8 :=
  (s.view i).bind fun um => (um.pages (x / pgSize)).map fun page =>
    page.bytes ⟨x % pgSize, mod_pgSize_lt x⟩

/-- What a call of `copyout` for the process `i`, with result `ok`, owes to the processes: it
writes in its range and where the process may write, it leaves every other process and the
kernel's own pages alone, and it fails, writing nothing more, at a page the process may not
write. -/
structure RespectsPermissions {ι : Type} (s s' : Sys ι) (i : ι) (pt : PageTable) (dstva len : ℕ)
    (ok : Bool) : Prop where
  own : ∀ x, s'.byte i x ≠ s.byte i x →
    dstva ≤ x ∧ x < dstva + len ∧ MayWrite (pt.leaf (x / pgSize))
  others : ∀ j, j ≠ i → s'.view j = s.view j
  kernel : ∀ f ∈ s.kheld, s'.phys.mem f = s.phys.mem f
  stops : ∀ x, dstva ≤ x → x < dstva + len → ¬ MayWrite (pt.leaf (x / pgSize)) →
    ok = false ∧ ∀ y, x ≤ y → s'.byte i y = s.byte i y

section Respects

variable {ι : Type} [Fintype ι] [DecidableEq ι] {L : Layout} {s : Sys ι} {i : ι} {sp : Space}
  {dstva len x : ℕ} {src : ℕ → UInt8}

omit [Fintype ι] in
theorem Sys.copyout_eq_ok_iff (hi : s.spaces i = some sp) {o : Option Bool} {s' : Sys ι} :
    s.copyout L i dstva src len = .ok (o, s') ↔
      ∃ r pt m, Xv6.copyout L.kend sp.pt dstva src len s.phys = .ok (r, pt, m) ∧ o = some r ∧
        s' = s.put i (some ⟨pt, sp.sz⟩) m := by
  simp only [Sys.copyout, Sys.onSpace, hi]
  constructor
  · intro h
    obtain ⟨_, h1, h2⟩ := Except.bind_eq_ok_iff.mp h
    obtain ⟨⟨r, pt, m⟩, h3, h4⟩ := Except.bind_eq_ok_iff.mp h1
    cases h4
    cases h2
    exact ⟨r, pt, m, h3, rfl, rfl⟩
  · rintro ⟨r, pt, m, h, rfl, rfl⟩
    rw [h]
    rfl

omit [Fintype ι] [DecidableEq ι] in
theorem Sys.byte_eq (hi : s.spaces i = some sp) :
    s.byte i x = (userView s.phys.mem sp.pt.leaf (x / pgSize)).map fun page =>
      page.bytes ⟨x % pgSize, mod_pgSize_lt x⟩ := by
  rw [Sys.byte, Sys.view, hi]
  rfl

theorem writeView_byte_of_not_mem {u : ℕ → Option UPage} {a k : ℕ} (hx : ¬ (a ≤ x ∧ x < a + k)) :
    (writeView u a k src (x / pgSize)).map (fun page =>
      page.bytes ⟨x % pgSize, mod_pgSize_lt x⟩) =
    (u (x / pgSize)).map fun page => page.bytes ⟨x % pgSize, mod_pgSize_lt x⟩ := by
  rw [writeView, Option.map_map]
  refine congrArg (Option.map · _) (funext fun page => ?_)
  simp only [Function.comp_apply, Nat.div_add_mod', hx, if_false]

theorem writeView_byte_of_mem {u : ℕ → Option UPage} {a k : ℕ} (hx : a ≤ x ∧ x < a + k) :
    (writeView u a k src (x / pgSize)).map (fun page =>
      page.bytes ⟨x % pgSize, mod_pgSize_lt x⟩) =
    (u (x / pgSize)).map fun _ => src (x - a) := by
  rw [writeView, Option.map_map]
  refine congrArg (Option.map · _) (funext fun page => ?_)
  simp only [Function.comp_apply, Nat.div_add_mod', hx, and_self, if_true]

/-- **`copyout` on pages it may write**: the permissions are respected. -/
theorem respects_of_checksWritable {r : Bool} {s' : Sys ι} (hinv : Inv L s)
    (hi : s.spaces i = some sp) (hH : ChecksWritable sp.pt dstva len)
    (hrun : s.copyout L i dstva src len = .ok (some r, s')) :
    RespectsPermissions s s' i sp.pt dstva len r := by
  obtain ⟨r', pt, m, hc, hr, rfl⟩ := (Sys.copyout_eq_ok_iff hi).mp hrun
  cases hr
  obtain ⟨-, k, hc⟩ := (copyoutLoop_exact L.kend_pos _ le_rfl (hinv.spaceOk hi)
    (hinv.spaces i sp hi).top).of_ok hc
  have hle := hc.le
  have hall : ∀ x, dstva ≤ x → x < dstva + k → MayWrite (sp.pt.leaf (x / pgSize)) :=
    fun x h1 h2 => hH x h1 (by omega) fun y hy1 hy2 => hc.user _ (mem_rangePages hy1 (by omega))
  -- only the first `k` bytes of the range change
  have hbyte : ∀ x, ¬ (dstva ≤ x ∧ x < dstva + k) →
      (s.put i (some ⟨pt, sp.sz⟩) m).byte i x = s.byte i x := by
    intro x hx
    rw [Sys.byte_eq hi, Sys.byte_eq (Sys.put_spaces_self ..)]
    change Option.map _ (userView m.mem pt.leaf _) = _
    rw [hc.view (.inr hH)]
    exact writeView_byte_of_not_mem hx
  refine ⟨fun x hx => ?_, fun j hj => Inv.view_other hj (hc.keep hH) _,
    fun f hf => hc.keep hH f ?_,
    fun x h1 h2 hnot => ?_⟩
  · have hin : dstva ≤ x ∧ x < dstva + k := by
      by_contra hout
      exact hx (hbyte x hout)
    exact ⟨hin.1, by omega, hall x hin.1 hin.2⟩
  · have hpos : 0 < (s.without i).kheld.count f := List.count_pos_iff.mpr hf
    rw [Sys.kernelRefs, Pi.add_apply]
    omega
  · have hx : dstva + k ≤ x := by
      by_contra hlt
      exact hnot (hall x h1 (by omega))
    refine ⟨?_, fun y hy => hbyte y (by omega)⟩
    cases r with
    | false => rfl
    | true =>
      have := hc.done rfl
      omega

/-- **`copyout` on a page it may not write**: some bytes arrive where they must not. -/
theorem checksWritable_of_respects (hinv : Inv L s) (hi : s.spaces i = some sp)
    (hk : ∀ src, ∃ r s', s.copyout L i dstva src len = .ok (some r, s'))
    (h : ∀ src r s', s.copyout L i dstva src len = .ok (some r, s') →
      RespectsPermissions s s' i sp.pt dstva len r) : ChecksWritable sp.pt dstva len := by
  intro x h1 h2 hu
  by_contra hnot
  have htop := (hinv.spaces i sp hi).top
  -- the first address of the range on the page, and its offset there
  have hoff : dstva - x / pgSize * pgSize < pgSize := by
    simp only [pgSize]
    omega
  have haddr : max dstva (x / pgSize * pgSize) / pgSize = x / pgSize ∧
      max dstva (x / pgSize * pgSize) % pgSize = dstva - x / pgSize * pgSize ∧
      dstva / pgSize ≤ x / pgSize ∧ x / pgSize * pgSize < dstva + len := by
    simp only [pgSize]
    omega
  have hpages : ∀ w, dstva / pgSize ≤ w → w ≤ x / pgSize → UserPage (sp.pt.leaf w) := by
    intro w hw1 hw2
    have hw : max dstva (w * pgSize) / pgSize = w := by
      simp only [pgSize] at hw1 ⊢
      omega
    rw [← hw]
    refine hu _ (le_max_left _ _) (max_le h1 ?_)
    simp only [pgSize] at hw2 ⊢
    omega
  obtain ⟨hdiv, hmod, hle, hlt⟩ := haddr
  have hux := hpages _ hle le_rfl
  -- copy out a byte that differs from the one there
  generalize ho : (⟨dstva - x / pgSize * pgSize, hoff⟩ : Fin pgSize) = o
  obtain ⟨r, s', hrun⟩ := hk fun _ => s.phys.mem (sp.pt.leaf (x / pgSize)).frame o + 1
  have hresp := h _ r s' hrun
  obtain ⟨r', pt, m, hc, -, rfl⟩ := (Sys.copyout_eq_ok_iff hi).mp hrun
  obtain ⟨hleaf, hmem⟩ := (copyoutLoop_const (o := o) L.kend_pos _ _ le_rfl (hinv.spaceOk hi) htop
    hle hlt (by omega) hpages hnot (by rw [← ho])).of_ok hc
  dsimp only at hleaf hmem
  have hown := hresp.own (max dstva (x / pgSize * pgSize)) ?_
  · rw [hdiv] at hown
    exact hnot hown.2.2
  · have hv := hux.lt htop
    rw [Sys.byte_eq hi, Sys.byte_eq (Sys.put_spaces_self ..), hdiv]
    simp only [hmod, ho]
    rw [userView_of_lt hv, userView_of_lt hv, Pte.view, Pte.view, if_pos hux.1]
    change Option.map _ (if (pt.leaf (x / pgSize)).has pteV = true then _ else none) ≠ _
    rw [hleaf, if_pos hux.1, Option.map_some, Option.map_some]
    intro heq
    have hb : m.mem (sp.pt.leaf (x / pgSize)).frame o =
        s.phys.mem (sp.pt.leaf (x / pgSize)).frame o := Option.some_inj.mp heq
    rw [hmem] at hb
    simp at hb

/-- **The calls of `copyout` that respect the permissions.** In every reachable state, a call that
does not run out of memory respects the permissions, whatever bytes it copies, if and only if
every user page that it reaches over user pages only may be written. -/
theorem copyout_respects_iff {dstva len : ℕ} (hs : (memory L).Reachable s)
    (hi : s.spaces i = some sp)
    (hk : ∀ src, ∃ r s', s.copyout L i dstva src len = .ok (some r, s')) :
    (∀ src r s', s.copyout L i dstva src len = .ok (some r, s') →
      RespectsPermissions s s' i sp.pt dstva len r) ↔ ChecksWritable sp.pt dstva len :=
  ⟨checksWritable_of_respects (inv_reachable hs) hi hk,
    fun hH _ _ _ hrun => respects_of_checksWritable (inv_reachable hs) hi hH hrun⟩

/-- Without a copy-on-write page in its range, `copyout` allocates nothing and returns. -/
theorem copyoutLoop_returns {kend fuel : ℕ} {pt : PageTable} {m : Phys}
    (hC : ∀ x, dstva ≤ x → x < dstva + len → (pteFlags (pt.pte (pgRoundDown x))).has pteC = false) :
    ∃ r m', copyoutLoop kend fuel pt dstva src len m = .ok (r, pt, m') := by
  induction fuel generalizing dstva len src m with
  | zero => exact ⟨true, m, rfl⟩
  | succ fuel ih =>
    rw [copyoutLoop]
    split_ifs with hlen hwalk
    · exact ⟨true, m, rfl⟩
    · exact ⟨false, m, rfl⟩
    · have hcow : copyoutCow kend pt (pgRoundDown dstva) m = .ok (pt, m) :=
        if_neg (by rw [hC dstva le_rfl (by omega)]; simp)
      simp only [hcow, bind, Except.bind]
      refine ih fun x h1 h2 => hC x ?_ ?_
      · simp only [pgRoundDown, pgSize] at h1
        omega
      · simp only [pgRoundDown, pgSize] at h1 h2
        omega

end Respects

/-- **A write to shared text.** After a fork the parent's page of text is read only and shared;
copying out one byte to it succeeds, and the child sees the byte. -/
theorem copyout_writes_shared_text : ∃ (s s' : Sys (Fin 2)) (sp : Space),
    (memory smallLayout).Reachable s ∧ s.spaces 0 = some sp ∧
    s.copyout smallLayout 0 0 (fun _ => 7) 1 = .ok (some true, s') ∧
    ¬ MayWrite (sp.pt.leaf 0) ∧ s.byte 1 0 = some 0 ∧ s'.byte 1 0 = some 7 ∧
    ¬ RespectsPermissions s s' 0 sp.pt 0 1 true := by
  obtain ⟨s, hs, sp, hsp, hrun⟩ : ∃ s, forkedText = .ok s ∧ ∃ sp ∈ s.spaces 0,
      Ensures (s.copyout smallLayout 0 0 (fun _ => 7) 1) (fun _ => False) fun r =>
        r.1 = some true ∧ ¬ MayWrite (sp.pt.leaf 0) ∧ s.byte 1 0 = some 0 ∧
          r.2.byte 1 0 = some 7 := Ensures.exists_ok (by decide +kernel)
  obtain ⟨⟨_, s'⟩, hc, rfl, h1, h2, h3⟩ := hrun.exists_ok
  refine ⟨s, s', sp, forkedText_reachable hs, hsp, hc, h1, h2, h3, fun hr => ?_⟩
  have := congrArg (fun o : Option UserMem => o.bind fun um => (um.pages (0 / pgSize)).map
    fun page => page.bytes ⟨0 % pgSize, mod_pgSize_lt 0⟩) (hr.others 1 (by decide))
  change s'.byte 1 0 = s.byte 1 0 at this
  rw [h2, h3] at this
  simp at this

/-- Whether copying one byte to the shared text respects the permissions is settled by its entry. -/
theorem copyout_respects_iff_forkedText : ∃ (s : Sys (Fin 2)) (sp : Space), forkedText = .ok s ∧
    s.spaces 0 = some sp ∧
    ((∀ src r s', s.copyout smallLayout 0 0 src 1 = .ok (some r, s') →
      RespectsPermissions s s' 0 sp.pt 0 1 r) ↔ ChecksWritable sp.pt 0 1) := by
  obtain ⟨s, hs, sp, hsp, hC⟩ : ∃ s, forkedText = .ok s ∧ ∃ sp ∈ s.spaces 0,
      (pteFlags (sp.pt.pte (pgRoundDown 0))).has pteC = false :=
    Ensures.exists_ok (by decide +kernel)
  refine ⟨s, sp, hs, hsp, copyout_respects_iff (forkedText_reachable hs) hsp fun src => ?_⟩
  obtain ⟨r, m, hc⟩ : ∃ r m, Xv6.copyout smallLayout.kend sp.pt 0 src 1 s.phys =
      .ok (r, sp.pt, m) := copyoutLoop_returns fun x h1 h2 => by
    obtain rfl : x = 0 := by omega
    exact hC
  exact ⟨r, _, (Sys.copyout_eq_ok_iff hsp).mpr ⟨r, sp.pt, m, hc, rfl, rfl⟩⟩

end Xv6
