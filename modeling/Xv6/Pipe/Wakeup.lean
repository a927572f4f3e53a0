import Xv6.Pipe.Stream

/-!
# Wakeups on a pipe

A process sleeps on `&pi->nread` while the pipe is empty and may still be written to, and on
`&pi->nwrite` while it is full and may still be read from. Whoever ends this state *owes* a wakeup
to every process that its loop has not yet come to, and must pay before it releases the lock.

`pipewrite` does not keep to this. If it is killed after it has stored bytes, it returns without
the `wakeup` that it owes to the readers. In all other runs no wakeup is lost.
-/

namespace Xv6.Pipe

open Function Option

def Pc.Holds : Pc → Prop
  | .idle | .writeEnter _ | .writeAsleep _ _ | .readEnter _ | .readAsleep _ | .closeEnter _ => False
  | _ => True

/-- The channel on which a process sleeps, if it sleeps. -/
def Pc.sleepsOn : Pc → Option Chan
  | .writeAsleep _ _ => some .nwrite
  | .readAsleep _ => some .nread
  | _ => none

/-- The process has still to wake process `r` if that sleeps on the channel. -/
def Pc.Owes : Pc → Chan → ℕ → Prop
  | .writeLoop _ i i0, .nread, _ => i ≠ i0
  | .writeWake _ _ k, .nread, r => k ≤ r
  | .writeDone _ k, .nread, r => k ≤ r
  | .readCopy _ i, .nwrite, _ => 0 < i
  | .readDone _ k, .nwrite, r => k ≤ r
  | .closeWake writable k, c, r => c = PipeSys.closeChan writable ∧ k ≤ r
  | _, _, _ => False

/-- No writer is killed between a byte that it has stored and one that it still has to store. -/
def SparesWriters {N : ℕ} (s : PipeSys N) (e : Event N) : Prop :=
  ∀ q n i i0, e = .kill q → s.pc q = .writeLoop n i i0 → i = i0 ∨ n ≤ i

namespace PipeSys

variable {N : ℕ} {s s' : PipeSys N} {p : Fin N} {byte : Option (BitVec 8)} {ok : Bool}

/-- The processes on this channel have a reason to sleep. -/
def Idle (s : PipeSys N) : Chan → Prop
  | .nread => s.nread = s.nwrite ∧ s.writeopen = true
  | .nwrite => s.Full ∧ s.readopen = true

/-- What `p` has found out on the way to `pc`. -/
def Fact (s : PipeSys N) (p : Fin N) : Pc → Prop
  | .writeLoop n i i0 => i0 ≤ i ∧ (i ≠ i0 → i < n → s.readopen = true ∧ s.killed p = false)
  | .writeWake _ _ _ => s.Idle .nwrite
  | .readSleep _ => s.Idle .nread
  | .readCopy _ i => 0 ≤ i
  | _ => True

/-- The lock is held by the process that stands inside; every process on a channel sleeps there, and
has a reason to or will be woken by the holder of the lock. -/
structure Settled (s : PipeSys N) : Prop where
  holder : ∀ p, s.lock = some p ↔ (s.pc p).Holds
  fact : ∀ p, s.Fact p (s.pc p)
  asleep : ∀ r c, s.chan r = some c → (s.pc r).sleepsOn = some c
  woken : ∀ r c, s.chan r = some c → s.Idle c ∨ ∃ h, s.lock = some h ∧ (s.pc h).Owes c r

theorem fact_of_not_holds {pc : Pc} (h : ¬pc.Holds) : s.Fact p pc := by
  cases pc <;> first | exact absurd True.intro h | exact True.intro

theorem sleepsOn_of_holds {pc : Pc} (h : pc.Holds) : pc.sleepsOn = none := by
  cases pc <;> first | rfl | exact absurd h id

namespace Settled

variable {c : Chan} {r : Fin N} {x : Pc} {n : ℤ} (h : s.Settled)

include h

theorem idle_of_free (hfree : s.lock = none) (hr : s.chan r = some c) : s.Idle c := by
  rcases h.woken r c hr with hidle | ⟨q, hq, -⟩
  · exact hidle
  · rw [hfree] at hq
    cases hq

theorem idle_or_owes (hp : (s.pc p).Holds) (hr : s.chan r = some c) :
    s.Idle c ∨ (s.pc p).Owes c r := by
  refine (h.woken r c hr).imp_right ?_
  rintro ⟨q, hq, howes⟩
  rw [(h.holder p).mpr hp] at hq
  exact some.inj hq ▸ howes

theorem ne_of_holds (hp : (s.pc p).Holds) (hr : s.chan r = some c) : r ≠ p := by
  rintro rfl
  have hsleeps := h.asleep r c hr
  rw [sleepsOn_of_holds hp] at hsleeps
  cases hsleeps

theorem move (hown : s.lock = some p ∨ s.lock = none) (hpc : s'.pc = update s.pc p x)
    (hlock : s'.lock = some p ∧ x.Holds ∨ s'.lock = none ∧ ¬x.Holds) (hfact : s'.Fact p x)
    (hchan : ∀ r c, s'.chan r = some c → r ≠ p ∧ s.chan r = some c ∨ r = p ∧ x.sleepsOn = some c)
    (hwoken : ∀ r c, s'.chan r = some c → s'.Idle c ∨ s'.lock = some p ∧ x.Owes c r) :
    s'.Settled := by
  have hp : s'.pc p = x := by rw [hpc, update_self]
  have hothers : ∀ q, q ≠ p → s'.pc q = s.pc q ∧ ¬(s.pc q).Holds := by
    intro q hq
    refine ⟨by rw [hpc, update_of_ne hq], fun hholds => ?_⟩
    have hlocked := (h.holder q).mpr hholds
    rcases hown with hown | hown
    · exact hq (some.inj (hlocked.symm.trans hown))
    · cases hlocked.symm.trans hown
  refine ⟨fun q => ?_, fun q => ?_, fun r c hr => ?_, fun r c hr => ?_⟩
  · by_cases hq : q = p
    · subst hq
      rw [hp]
      rcases hlock with ⟨hl, hx⟩ | ⟨hl, hx⟩
      · simp [hl, hx]
      · simp [hl, hx]
    · have hne : s'.lock ≠ some q := by
        rcases hlock with ⟨hl, -⟩ | ⟨hl, -⟩
        · rw [hl]
          exact fun heq => hq (some.inj heq).symm
        · simp [hl]
      rw [(hothers q hq).1]
      exact iff_of_false hne (hothers q hq).2
  · by_cases hq : q = p
    · subst hq
      exact hp.symm ▸ hfact
    · rw [(hothers q hq).1]
      exact fact_of_not_holds (hothers q hq).2
  · rcases hchan r c hr with ⟨hne, hr'⟩ | ⟨rfl, hx⟩
    · exact (hothers r hne).1 ▸ h.asleep r c hr'
    · exact hp.symm ▸ hx
  · refine (hwoken r c hr).imp_right fun ⟨hl, howes⟩ => ⟨p, hl, hp.symm ▸ howes⟩

theorem goto (x : Pc) (hp : (s.pc p).Holds) (hx : x.Holds) (hpc : s'.pc = update s.pc p x)
    (hlock : s'.lock = s.lock) (hchan : s'.chan = s.chan) (hfact : s'.Fact p x)
    (hwoken : ∀ r c, s.chan r = some c → s'.Idle c ∨ x.Owes c r) : s'.Settled := by
  have hown := (h.holder p).mpr hp
  refine h.move (.inl hown) hpc (.inl ⟨hlock.trans hown, hx⟩) hfact ?_ ?_
  · intro r c hr
    rw [hchan] at hr
    exact .inl ⟨h.ne_of_holds hp hr, hr⟩
  · intro r c hr
    rw [hchan] at hr
    exact (hwoken r c hr).imp_right fun howes => ⟨hlock.trans hown, howes⟩

theorem leave (hp : (s.pc p).Holds) (hdebt : ∀ (r : Fin N) c, ¬(s.pc p).Owes c r) :
    (s.release.goto p .idle).Settled := by
  refine h.move (.inl ((h.holder p).mpr hp)) rfl (.inr ⟨rfl, id⟩) True.intro ?_ ?_
  · intro r c hr
    exact .inl ⟨h.ne_of_holds hp hr, hr⟩
  · intro r c hr
    have hidle := (h.idle_or_owes hp hr).resolve_right (hdebt r c)
    exact .inl (by cases c <;> exact hidle)

theorem sleep (hp : (s.pc p).Holds) (hdebt : ∀ (r : Fin N) c, ¬(s.pc p).Owes c r) (x : Pc)
    (hx : ¬x.Holds) (hc : x.sleepsOn = some c) (hidle : s.Idle c) :
    ((s.setChan p (some c)).release.goto p x).Settled := by
  refine h.move (.inl ((h.holder p).mpr hp)) rfl (.inr ⟨rfl, hx⟩) (fact_of_not_holds hx) ?_ ?_
  · intro r c' hr
    by_cases hrp : r = p
    · subst hrp
      simp only [goto_chan, release_chan, setChan_chan, update_self] at hr
      exact .inr ⟨rfl, hc.trans hr⟩
    · simp only [goto_chan, release_chan, setChan_chan, update_of_ne hrp] at hr
      exact .inl ⟨hrp, hr⟩
  · intro r c' hr
    refine .inl (?_ : s.Idle c')
    by_cases hrp : r = p
    · subst hrp
      simp only [goto_chan, release_chan, setChan_chan, update_self] at hr
      exact some.inj hr ▸ hidle
    · simp only [goto_chan, release_chan, setChan_chan, update_of_ne hrp] at hr
      exact (h.idle_or_owes hp hr).resolve_right (hdebt r c')

theorem acquire (hx : x.Holds) (hfact : s.Fact p x) (hchan : s.chan p = none)
    (hs : s.acquire p x = some s') : s'.Settled := by
  unfold PipeSys.acquire at hs
  split at hs
  · rename_i hfree
    obtain rfl := some.inj hs
    refine h.move (.inr hfree) rfl (.inl ⟨rfl, hx⟩) ?_ ?_ ?_
    · cases x <;> exact hfact
    · intro r c hr
      refine .inl ⟨?_, hr⟩
      rintro rfl
      cases hchan.symm.trans hr
    · intro r c hr
      have hidle := h.idle_of_free hfree hr
      exact .inl (by cases c <;> exact hidle)
  · cases hs

theorem chan_eq_none (hp : (s.pc p).sleepsOn = none) : s.chan p = none := by
  cases hc : s.chan p with
  | none => rfl
  | some c => cases hp.symm.trans (h.asleep p c hc)

/-- After the look at process `k`, those that still sleep slept before, and on this channel `k` is
not one of them. -/
theorem wakeOne (hp : (s.pc p).Holds) (c : Chan) (k : Fin N) :
    ∃ chan, s.wakeOne p c k = { s with chan := chan } ∧
      ∀ r c', chan r = some c' → s.chan r = some c' ∧ (c' = c → r ≠ k) := by
  unfold PipeSys.wakeOne
  split
  · refine ⟨_, rfl, fun r c' hr => ?_⟩
    by_cases hrk : r = k
    · rw [hrk, update_self] at hr
      cases hr
    · rw [update_of_ne hrk] at hr
      exact ⟨hr, fun _ => hrk⟩
  · rename_i hnot
    refine ⟨s.chan, rfl, fun r c' hr => ⟨hr, ?_⟩⟩
    rintro rfl rfl
    exact hnot ⟨h.ne_of_holds hp hr, hr⟩

/-- A step of `wakeup(c)`: one process less is owed, or, at the end of the loop, none. -/
theorem wakeup {k : ℕ} {again : Pc} {after : PipeSys N → PipeSys N} (hp : (s.pc p).Holds)
    (howes : ∀ (r : Fin N) c', (s.pc p).Owes c' r → c' = c ∧ k ≤ r) (hagain : again.Holds)
    (hfact : s.Fact p again) (hrest : ∀ r : Fin N, k + 1 ≤ r → again.Owes c r)
    (hafter : (∀ (r : Fin N) c', ¬(s.pc p).Owes c' r) → (after s).Settled) :
    (s.wakeup p c k again after).Settled := by
  unfold PipeSys.wakeup
  split
  · rename_i hk
    obtain ⟨chan, hs, hwas⟩ := h.wakeOne hp c ⟨k, hk⟩
    rw [hs]
    have hown := (h.holder p).mpr hp
    refine h.move (x := again) (.inl hown) rfl (.inl ⟨hown, hagain⟩) ?_ ?_ ?_
    · cases again <;> exact hfact
    · intro r c' hr
      exact .inl ⟨h.ne_of_holds hp (hwas r c' hr).1, (hwas r c' hr).1⟩
    · intro r c' hr
      obtain ⟨hr', hne⟩ := hwas r c' hr
      rcases h.idle_or_owes hp hr' with hidle | hdebt
      · exact .inl (by cases c' <;> exact hidle)
      · obtain ⟨rfl, hle⟩ := howes r c' hdebt
        have hlt : k + 1 ≤ r.val := lt_of_le_of_ne hle fun heq => hne rfl (Fin.ext heq.symm)
        exact .inr ⟨hown, hrest r hlt⟩
  · rename_i hk
    refine hafter fun r c' hdebt => ?_
    have := (howes r c' hdebt).2
    omega

/-- Nobody who could be disturbed by a new byte sleeps where there is room for one. -/
theorem not_chan_nwrite (hp : (s.pc p).Holds) (hroom : ¬s.Full)
    (hdebt : ∀ r : Fin N, ¬(s.pc p).Owes .nwrite r) (r : Fin N) : s.chan r ≠ some .nwrite :=
  fun hr => (h.idle_or_owes hp hr).elim (fun hidle => hroom hidle.1) (hdebt r)

theorem not_chan_nread (hp : (s.pc p).Holds) (hne : s.nread ≠ s.nwrite)
    (hdebt : ∀ r : Fin N, ¬(s.pc p).Owes .nread r) (r : Fin N) : s.chan r ≠ some .nread :=
  fun hr => (h.idle_or_owes hp hr).elim (fun hidle => hne hidle.1) (hdebt r)

theorem writeRound {i i0 : ℤ} (hpc : s.pc p = .writeLoop n i i0) (byte : Option (BitVec 8)) :
    (s.writeRound p n i i0 byte).Settled := by
  have hp : (s.pc p).Holds := hpc ▸ True.intro
  obtain ⟨hle, hopen⟩ : i0 ≤ i ∧ (i ≠ i0 → i < n → s.readopen = true ∧ s.killed p = false) := by
    have hfact := h.fact p
    rwa [hpc] at hfact
  -- the wakeup that is owed is that of the loop which comes next
  have hnext : ∀ x : Pc, (∀ r : Fin N, x.Owes .nread r) → ∀ r c, s.chan r = some c →
      s.Idle c ∨ x.Owes c r := by
    intro x hx r c hr
    refine (h.idle_or_owes hp hr).imp_right fun howes => ?_
    rw [hpc] at howes
    cases c with
    | nread => exact hx r
    | nwrite => exact absurd howes id
  have hdone : (s.goto p (.writeDone i 0)).Settled :=
    h.goto (.writeDone i 0) hp True.intro rfl rfl rfl True.intro (hnext _ fun r => Nat.zero_le r)
  unfold PipeSys.writeRound
  split
  · rename_i hlt
    split
    · rename_i hout
      -- a call that returns here has stored nothing since it has the lock
      have heq : i = i0 := by
        by_contra hne
        obtain ⟨hread, hkilled⟩ := hopen hne hlt
        rw [hread, hkilled] at hout
        simp at hout
      refine h.leave hp fun r c howes => ?_
      rw [hpc] at howes
      cases c with
      | nread => exact howes heq
      | nwrite => exact howes
    · rename_i hin
      split
      · rename_i hfull
        refine h.goto (.writeWake n i 0) hp True.intro rfl rfl rfl ?_
          (hnext _ fun r => Nat.zero_le r)
        exact ⟨hfull, by simpa using fun hr => hin (.inl hr)⟩
      · rename_i hroom
        cases byte with
        | none => exact hdone
        | some ch =>
          refine h.goto (.writeLoop n (i + 1) i0) hp True.intro rfl rfl rfl ?_ ?_
          · refine ⟨by omega, fun _ _ => ?_⟩
            simpa [not_or] using hin
          · intro r c hr
            cases c with
            | nread => exact .inr (show i + 1 ≠ i0 by omega)
            | nwrite =>
              exact absurd hr (h.not_chan_nwrite hp hroom (fun r => by rw [hpc]; exact id) r)
  · exact hdone

theorem readTest (hpc : s.pc p = .readLoop n) : (s.readTest p n).Settled := by
  have hp : (s.pc p).Holds := hpc ▸ True.intro
  have hdebt : ∀ (r : Fin N) c, ¬(s.pc p).Owes c r := fun r c => by rw [hpc]; exact id
  have hidle : ∀ r c, s.chan r = some c → s.Idle c := fun r c hr =>
    (h.idle_or_owes hp hr).resolve_right (hdebt r c)
  unfold PipeSys.readTest
  split
  · rename_i hempty
    split
    · exact h.leave hp hdebt
    · exact h.goto (.readSleep n) hp True.intro rfl rfl rfl hempty
        fun r c hr => .inl (by cases c <;> exact hidle r _ hr)
  · exact h.goto (.readCopy n 0) hp True.intro rfl rfl rfl (Int.le_refl 0)
      fun r c hr => .inl (by cases c <;> exact hidle r _ hr)

theorem copyRound {i : ℤ} (hpc : s.pc p = .readCopy n i) (ok : Bool) :
    (s.copyRound p n i ok).Settled := by
  have hp : (s.pc p).Holds := hpc ▸ True.intro
  have hnonneg : 0 ≤ i := by
    have hfact := h.fact p
    rwa [hpc] at hfact
  unfold PipeSys.copyRound
  split
  · rename_i htake
    -- after a byte is taken there is no reader asleep, and every writer is owed a wakeup
    have hwoken : ∀ x : Pc, (∀ r : Fin N, x.Owes .nwrite r) → ∀ (s' : PipeSys N) r c,
        s.chan r = some c → s'.Idle c ∨ x.Owes c r := by
      intro x hx s' r c hr
      cases c with
      | nread =>
        exact absurd hr (h.not_chan_nread hp htake.2 (fun r => by rw [hpc]; exact id) r)
      | nwrite => exact .inr (hx r)
    split
    · exact h.goto (.readCopy n (i + 1)) hp True.intro rfl rfl rfl (show 0 ≤ i + 1 by omega)
        (hwoken (.readCopy n (i + 1)) (fun _ => show 0 < i + 1 by omega) _)
    · exact h.goto (.readDone i 0) hp True.intro rfl rfl rfl True.intro
        (hwoken (.readDone i 0) (fun r => Nat.zero_le r) _)
  · refine h.goto (.readDone i 0) hp True.intro rfl rfl rfl True.intro fun r c hr => ?_
    cases c with
    | nread =>
      refine .inl ((h.idle_or_owes hp hr).resolve_right ?_)
      rw [hpc]
      exact id
    | nwrite => exact .inr (Nat.zero_le r)

/-- An end is closed: those who slept because it was open are owed a wakeup. -/
theorem closeEnd {writable : Bool} (hpc : s.pc p = .closeEnter writable) (hfree : s.lock = none) :
    ({ s with lock := some p }.closeEnd p writable).Settled := by
  have hchan := h.chan_eq_none (p := p) (by rw [hpc]; rfl)
  have hne : ∀ r c, s.chan r = some c → r ≠ p := by
    rintro r c hr rfl
    cases hchan.symm.trans hr
  unfold PipeSys.closeEnd
  split
  · rename_i hw
    refine h.move (x := .closeWake writable 0) (.inr hfree) rfl (.inl ⟨rfl, True.intro⟩) True.intro
      (fun r c hr => .inl ⟨hne r c hr, hr⟩) fun r c hr => ?_
    have hidle := h.idle_of_free hfree hr
    cases c with
    | nread => exact .inr ⟨rfl, hw ▸ rfl, Nat.zero_le r⟩
    | nwrite => exact .inl hidle
  · rename_i hw
    refine h.move (x := .closeWake writable 0) (.inr hfree) rfl (.inl ⟨rfl, True.intro⟩) True.intro
      (fun r c hr => .inl ⟨hne r c hr, hr⟩) fun r c hr => ?_
    have hidle := h.idle_of_free hfree hr
    cases c with
    | nread => exact .inl hidle
    | nwrite => exact .inr ⟨rfl, (Bool.eq_false_iff.mpr hw) ▸ rfl, Nat.zero_le r⟩

theorem advance (hs : s.advance p byte ok (s.pc p) = some s') : s'.Settled := by
  have hfact := h.fact p
  cases hpc : s.pc p with
  | idle =>
    rw [hpc] at hs
    cases hs
  | writeEnter n =>
    rw [hpc] at hs
    have hchan := h.chan_eq_none (p := p) (by rw [hpc]; rfl)
    refine h.acquire (x := .writeLoop n 0 0) True.intro ?_ hchan hs
    exact ⟨Int.le_refl 0, fun hne => absurd rfl hne⟩
  | writeLoop n i i0 =>
    rw [hpc] at hs
    exact some.inj hs ▸ h.writeRound hpc byte
  | writeWake n i k =>
    rw [hpc] at hs hfact
    have hp : (s.pc p).Holds := hpc ▸ True.intro
    refine some.inj hs ▸ h.wakeup hp ?_ True.intro hfact (fun r hle => hle) fun hdebt => ?_
    · intro r c howes
      rw [hpc] at howes
      cases c with
      | nread => exact ⟨rfl, howes⟩
      | nwrite => exact absurd howes id
    · exact h.sleep hp hdebt (.writeAsleep n i) id rfl hfact
  | writeAsleep n i =>
    rw [hpc, PipeSys.advance] at hs
    split at hs
    · rename_i hchan
      refine h.acquire (x := .writeLoop n i i) True.intro ?_ hchan hs
      exact ⟨Int.le_refl i, fun hne => absurd rfl hne⟩
    · cases hs
  | writeDone i k =>
    rw [hpc] at hs
    have hp : (s.pc p).Holds := hpc ▸ True.intro
    refine some.inj hs ▸ h.wakeup hp ?_ True.intro True.intro (fun r hle => hle) (h.leave hp)
    intro r c howes
    rw [hpc] at howes
    cases c with
    | nread => exact ⟨rfl, howes⟩
    | nwrite => exact absurd howes id
  | readEnter n =>
    rw [hpc] at hs
    have hchan := h.chan_eq_none (p := p) (by rw [hpc]; rfl)
    exact h.acquire (x := .readLoop n) True.intro True.intro hchan hs
  | readLoop n =>
    rw [hpc] at hs
    exact some.inj hs ▸ h.readTest hpc
  | readSleep n =>
    rw [hpc] at hs hfact
    refine some.inj hs ▸ h.sleep (hpc ▸ True.intro) ?_ (.readAsleep n) id rfl hfact
    intro r c
    rw [hpc]
    exact id
  | readAsleep n =>
    rw [hpc, PipeSys.advance] at hs
    split at hs
    · rename_i hchan
      exact h.acquire (x := .readLoop n) True.intro True.intro hchan hs
    · cases hs
  | readCopy n i =>
    rw [hpc] at hs
    exact some.inj hs ▸ h.copyRound hpc ok
  | readDone i k =>
    rw [hpc] at hs
    have hp : (s.pc p).Holds := hpc ▸ True.intro
    refine some.inj hs ▸ h.wakeup hp ?_ True.intro True.intro (fun r hle => hle) (h.leave hp)
    intro r c howes
    rw [hpc] at howes
    cases c with
    | nread => exact absurd howes id
    | nwrite => exact ⟨rfl, howes⟩
  | closeEnter writable =>
    rw [hpc, PipeSys.advance] at hs
    split at hs
    · rename_i hfree
      exact some.inj hs ▸ h.closeEnd hpc hfree
    · cases hs
  | closeWake writable k =>
    rw [hpc] at hs
    have hp : (s.pc p).Holds := hpc ▸ True.intro
    refine some.inj hs ▸ h.wakeup hp ?_ True.intro True.intro (fun r hle => ⟨rfl, hle⟩) (h.leave hp)
    intro r c howes
    rwa [hpc] at howes

theorem call (hx : ¬x.Holds) (hs : s.call p x = some s') : s'.Settled := by
  unfold PipeSys.call at hs
  split at hs
  · rename_i hidle
    obtain rfl := some.inj hs
    have hp : ¬(s.pc p).Holds := by rw [hidle]; exact id
    refine ⟨fun q => ?_, fun q => ?_, fun r c hr => ?_, fun r c hr => ?_⟩
    · by_cases hq : q = p
      · subst hq
        rw [goto_pc, update_self, iff_false_right hx]
        exact fun hlock => hp ((h.holder q).mp hlock)
      · rw [goto_pc, update_of_ne hq]
        exact h.holder q
    · by_cases hq : q = p
      · subst hq
        rw [goto_pc, update_self]
        exact fact_of_not_holds hx
      · rw [goto_pc, update_of_ne hq]
        have hfact := h.fact q
        cases hpc : s.pc q <;> rw [hpc] at hfact <;> exact hfact
    · have hsleeps := h.asleep r c hr
      have hne : r ≠ p := by
        rintro rfl
        rw [hidle] at hsleeps
        cases hsleeps
      rw [goto_pc, update_of_ne hne]
      exact hsleeps
    · refine (h.woken r c hr).imp (fun hi => by cases c <;> exact hi) ?_
      rintro ⟨q, hq, howes⟩
      have hne : q ≠ p := fun heq => hp (heq ▸ (h.holder q).mp hq)
      refine ⟨q, hq, ?_⟩
      rw [goto_pc, update_of_ne hne]
      exact howes
  · cases hs

theorem mark {killed : Fin N → Bool} {chan : Fin N → Option Chan}
    (hchan : ∀ r c, chan r = some c → s.chan r = some c)
    (hkilled : ∀ q n i i0, s.pc q = .writeLoop n i i0 → i ≠ i0 → i < n → s.killed q = false →
      killed q = false) : ({ s with killed := killed, chan := chan } : PipeSys N).Settled := by
  refine ⟨h.holder, fun q => ?_, fun r c hr => h.asleep r c (hchan r c hr), fun r c hr => ?_⟩
  · have hfact := h.fact q
    cases hpc : s.pc q <;> rw [hpc] at hfact
    case writeLoop n i i0 =>
      exact ⟨hfact.1, fun hne hlt => ⟨(hfact.2 hne hlt).1,
        hkilled q n i i0 hpc hne hlt (hfact.2 hne hlt).2⟩⟩
    all_goals exact hfact
  · exact (h.woken r c (hchan r c hr)).imp_left fun hidle => by cases c <;> exact hidle

/-- **Every step in which no writer is killed in a transfer keeps the invariant.** -/
theorem step {e : Event N} (hspare : SparesWriters s e) (hs : e.run s = some s') : s'.Settled := by
  cases e with
  | pipewrite p n | piperead p n | pipeclose p writable => exact h.call id hs
  | step p byte ok => exact h.advance hs
  | kill p =>
    refine some.inj hs ▸ h.mark ?_ ?_
    · intro r c hr
      by_cases hrp : r = p
      · rw [hrp, update_self] at hr
        cases hr
      · rwa [update_of_ne hrp] at hr
    · intro q n i i0 hpc hne hlt hkilled
      have hqp : q ≠ p := by
        rintro rfl
        have := hspare q n i i0 rfl hpc
        omega
      exact (update_of_ne hqp _ _).trans hkilled
  | renew p =>
    rw [Event.run] at hs
    split at hs
    · rename_i hidle
      refine some.inj hs ▸ h.mark (fun r c hr => hr) fun q n i i0 hpc _ _ hkilled => ?_
      have hqp : q ≠ p := by
        rintro rfl
        cases hpc.symm.trans hidle
      exact (update_of_ne hqp _ _).trans hkilled
    · cases hs

end Settled

end PipeSys

/-- **No wakeup is lost, unless a writer is killed in a transfer.** In every run in which no writer
is killed between a byte that it has stored and one that it still has to store: when the lock is
free, whoever sleeps on `&pi->nread` does so on an empty pipe with its write end open, and whoever
sleeps on `&pi->nwrite` on a full pipe with its read end open. -/
theorem no_lost_wakeup {N : ℕ} {s : PipeSys N}
    (h : ((pipeSystem N).restrict SparesWriters).Reachable s) (hfree : s.lock = none) (r : Fin N) :
    (s.chan r = some .nread → s.count = 0 ∧ s.writeopen = true) ∧
      (s.chan r = some .nwrite → s.count = pipeSize ∧ s.readopen = true) := by
  have hsettled : s.Settled := by
    refine h.invariant (P := PipeSys.Settled) ?_ ?_
    · rintro s ⟨data, killed, rfl⟩
      refine ⟨fun p => iff_of_false (fun hlock => by cases hlock) id, fun p => True.intro, ?_, ?_⟩
      · intro r c hr
        cases hr
      · intro r c hr
        cases hr
    · intro s e s' hs hstep
      exact hs.step hstep.2 hstep.1
  constructor
  · intro hr
    have hidle := hsettled.idle_of_free hfree hr
    exact ⟨Ring.length_eq_zero_iff.mpr hidle.1, hidle.2⟩
  · intro hr
    have hidle := hsettled.idle_of_free hfree hr
    exact ⟨s.full_iff.mp hidle.1, hidle.2⟩

def readerAsleep : List (Event 2) :=
  [.piperead 0 1, .step 0 none true, .step 0 none true, .step 0 none true]

theorem no_lost_wakeup_readerAsleep :
    ∃ s, LTS.runAll Event.run (.initial fun _ => 0) readerAsleep = some s ∧
      s.chan 0 = some .nread ∧ s.count = 0 ∧ s.writeopen = true := by
  have hrun : (LTS.runAll Event.run (.initial fun _ => 0) readerAsleep).map
      (fun s => (s.lock, s.chan 0)) = some (none, some .nread) := by decide +kernel
  obtain ⟨s, hs, hvalues⟩ := map_eq_some_iff.mp hrun
  simp only [Prod.mk.injEq] at hvalues
  have hreach : ((pipeSystem 2).restrict SparesWriters).Reachable s := by
    -- none of the events is a `kill`
    refine (LTS.Reachable.init (T := (pipeSystem 2).restrict SparesWriters)
      ⟨_, _, rfl⟩).runAll_of_forall (C := fun e => ∀ q, e ≠ .kill q) ?_ ?_ hs
    · exact fun s e s' he h => ⟨h, fun q _ _ _ heq => absurd heq (he q)⟩
    · simp [readerAsleep]
  exact ⟨s, hs, hvalues.2, (no_lost_wakeup hreach hvalues.1 0).1 hvalues.2⟩

/-- A writer with two bytes is killed after it has stored the first, and returns without a `wakeup`:
the reader sleeps on, with a byte in the pipe and the lock free. -/
theorem killed_writer_strands_reader :
    ∃ s, (pipeSystem 2).Reachable s ∧ s.lock = none ∧ s.chan 0 = some .nread ∧ s.count = 1 ∧
      s.pc 1 = .idle := by
  have hrun : (LTS.runAll Event.run (.initial fun _ => 0) (readerAsleep ++
      [.pipewrite 1 2, .step 1 none true, .step 1 (some 7) true, .kill 1, .step 1 none true])).map
      (fun s => (s.lock, s.chan 0, s.count, s.pc 1)) = some (none, some .nread, 1, .idle) := by
    decide +kernel
  obtain ⟨s, hs, hvalues⟩ := map_eq_some_iff.mp hrun
  simp only [Prod.mk.injEq] at hvalues
  refine ⟨s, ?_, hvalues⟩
  exact (LTS.Reachable.init (T := pipeSystem 2) ⟨_, _, rfl⟩).runAll (fun _ _ _ h => h) hs

end Xv6.Pipe
