import Mathlib.Logic.Relation
import Xv6.Log.Commit

/-!
# Crash atomicity of the log

A crash between two disk writes leaves the disk with a first part of the writes issued and an empty
cache. Up to the write of the header the disk outside the log area is the old one; from then on
the header and the slots determine the new one, whatever part of it has been installed. Both facts
are invariants of single writes, so they hold at every crash point of `commit()` and of any number
of interrupted recoveries after it.
-/

namespace Xv6.Log

open Function List LogArea

/-- The header lists no block, and outside the log area the disk is `base`. -/
structure Clean (a : LogArea) (base d : ℕ → Block) : Prop where
  head : d a.start 0 = 0
  rest : Set.EqOn d base a.blocksᶜ

/-- The header lists the blocks of `lh`, their slots hold `data`, and the blocks neither logged nor
in the log area are those of `base`. -/
structure Committed (a : LogArea) (lh : LogHeader) (data base d : ℕ → Block) : Prop where
  head : decodeHead (d a.start) = some lh
  slots : ∀ i b, lh.block[i]? = some b → d (a.start + i + 1) = data b.toNat
  rest : ∀ x ∉ a.blocks, x ∉ lh.block.map UInt32.toNat → d x = base x

/-- The disk `base` with the blocks of `lh` replaced by their contents in `data`. -/
def installed (lh : LogHeader) (data base : ℕ → Block) : ℕ → Block := fun x =>
  if x ∈ lh.block.map UInt32.toNat then data x else base x

/-- A run of `recover_from_log` after power-up on disk `d`, cut off after some of its writes, leaves
the disk `d'`. -/
def CrashedRecovery (a : LogArea) (d d' : ℕ → Block) : Prop :=
  ∃ lh s j, recoverFromLog a (boot d) = some (lh, s) ∧ d' = Writes.apply (s.writes.take j) d

variable {a : LogArea} {lh : LogHeader} {data base d : ℕ → Block}

namespace Clean

theorem slots (hfit : a.Fits lh) (h : Clean a base d) (data : ℕ → Block) (k : ℕ) :
    Clean a base (Writes.apply ((slotWrites a data 0 lh.block).take k) d) := by
  refine Writes.apply_invariant ?_ h
  intro w hw d' h'
  obtain ⟨i, b, hb, rfl⟩ := mem_slotWrites.mp (mem_of_mem_take hw)
  have hi : i < lh.block.length := (List.getElem?_eq_some_iff.mp hb).1
  have hroom := hfit.room
  constructor
  · rw [update_of_ne (by simp; omega), h'.head]
  · intro x hx
    rw [update_of_ne, h'.rest hx]
    rintro rfl
    exact hx (slot_mem (by omega))

theorem clear (hsize : 0 < a.size) (hrest : Set.EqOn d base a.blocksᶜ) (hb : Block) :
    Clean a base (update d a.start (encodeHead .empty hb)) where
  head := by rw [update_self, encodeHead_empty_zero]
  rest := by
    intro x hx
    rw [update_of_ne, hrest hx]
    rintro rfl
    exact hx (start_mem hsize)

end Clean

namespace Committed

/-- **The commit point**: with all slots written, the write of the header commits. -/
theorem of_clean (hfit : a.Fits lh) (h : Clean a base d) (hb : Block) :
    Committed a lh data base (update (Writes.apply (slotWrites a data 0 lh.block) d) a.start
        (encodeHead lh hb)) where
  head := by rw [update_self, decodeHead_encodeHead]
  slots i b hib := by rw [update_of_ne (by omega), apply_slotWrites hib]
  rest x hx _ := by
    have hclean := h.slots hfit data (slotWrites a data 0 lh.block).length
    rw [take_length] at hclean
    rw [update_of_ne, hclean.rest hx]
    rintro rfl
    exact hx (start_mem (by have := hfit.room; omega))

/-- Installing home blocks changes nothing that the header and the slots say. -/
theorem home (hfit : a.Fits lh) (h : Committed a lh data base d) (k : ℕ) :
    Committed a lh data base (Writes.apply ((homeWrites data lh.block).take k) d) := by
  refine Writes.apply_invariant ?_ h
  intro w hw d' h'
  obtain ⟨b, hb, rfl⟩ := mem_map.mp (mem_of_mem_take hw)
  have hhome := hfit.home b hb
  have hroom := hfit.room
  constructor
  · rw [update_of_ne, h'.head]
    rintro (heq : a.start = b.toNat)
    exact hhome (heq ▸ start_mem (by omega))
  · intro i b' hb'
    have hi : i < lh.block.length := (List.getElem?_eq_some_iff.mp hb').1
    rw [update_of_ne, h'.slots i b' hb']
    rintro (heq : a.start + i + 1 = b.toNat)
    exact hhome (heq ▸ slot_mem (by omega))
  · intro x hx hnot
    rw [update_of_ne, h'.rest x hx hnot]
    rintro rfl
    exact hnot (mem_map_of_mem hb)

/-- Installing all home blocks and clearing the header ends the transaction. -/
theorem finish (hfit : a.Fits lh) (h : Committed a lh data base d) (hb : Block) :
    Clean a (installed lh data base)
      (Writes.apply (homeWrites data lh.block ++ [(a.start, encodeHead .empty hb)]) d) := by
  rw [Writes.apply_append]
  refine Clean.clear (by have := hfit.room; omega) ?_ hb
  intro x hx
  by_cases hmem : x ∈ lh.block.map UInt32.toNat
  · obtain ⟨b, hb, rfl⟩ := mem_map.mp hmem
    rw [apply_homeWrites hb, installed, if_pos hmem]
  · rw [apply_homeWrites_of_not_mem hmem, installed, if_neg hmem, h.rest x hx hmem]

/-- At every point of installing and clearing, the disk holds the transaction in the log or in
place. -/
theorem finish_crash (hfit : a.Fits lh) (h : Committed a lh data base d) (hb : Block) (k : ℕ) :
    let d' := Writes.apply
      ((homeWrites data lh.block ++ [(a.start, encodeHead .empty hb)]).take k) d
    Committed a lh data base d' ∨ Clean a (installed lh data base) d' := by
  rcases lt_or_ge (homeWrites data lh.block).length k with hk | hk
  · right
    rw [take_of_length_le (by simpa using Nat.succ_le_of_lt hk)]
    exact h.finish hfit hb
  · left
    rw [take_append_of_le_length hk]
    exact h.home hfit k

end Committed

/-- **Crash points of a commit.** Before the header write the disk is the clean old one; after it,
it is committed, or the clean new one. -/
theorem commit_crash (hfit : a.Fits lh) (s : Bio) (hs : s.writes = []) (h : Clean a base s.disk)
    (k : ℕ) :
    let ws := (commit a lh s).2.writes.take k
    let d' := Writes.apply ws s.disk
    (Clean a base d' ∧ (a.start ∈ ws.map Prod.fst → lh.block = [])) ∨
      Committed a lh s.data base d' ∨ Clean a (installed lh s.data base) d' := by
  rcases Nat.eq_zero_or_pos lh.block.length with hn | hn
  · -- nothing was logged, and `commit()` does nothing
    left
    have hws : (commit a lh s).2.writes = [] := by rw [commit, if_neg (by omega), hs]
    rw [hws, take_nil]
    exact ⟨h, fun _ => List.length_eq_zero_iff.mp hn⟩
  obtain ⟨hb, hb0, hissued⟩ := commit_issues hfit hn s
  rw [hissued.writes, hs, nil_append]
  rcases lt_or_ge (slotWrites a s.data 0 lh.block).length k with hk | hk
  · -- the header has been written
    right
    obtain ⟨j, rfl⟩ := Nat.exists_eq_add_of_lt hk
    rw [Nat.add_assoc, List.take_length_add_append, List.take_succ_cons, Writes.apply_append,
      Writes.apply_cons]
    exact (Committed.of_clean hfit h hb).finish_crash hfit hb0 j
  · left
    rw [take_append_of_le_length hk]
    refine ⟨h.slots hfit s.data k, fun hmem => ?_⟩
    obtain ⟨w, hw, hstart⟩ := mem_map.mp hmem
    obtain ⟨i, b, _, rfl⟩ := mem_slotWrites.mp (mem_of_mem_take hw)
    simp only at hstart
    omega

/-- A recovery from a clean disk runs to its end and leaves it so at every point. -/
theorem Clean.recover (hsize : 0 < a.size) (h : Clean a base d) :
    ∃ s, recoverFromLog a (boot d) = some (.empty, s) ∧ Clean a base s.disk ∧
      ∀ k, Clean a base (Writes.apply (s.writes.take k) d) := by
  have hfit : a.Fits .empty := ⟨by simp [LogHeader.empty], hsize⟩
  have hslots : ∀ i b, LogHeader.empty.block[i]? = some b →
      (boot d).data (a.start + i + 1) = d b.toNat := by simp [LogHeader.empty]
  obtain ⟨hb, s, hs, hissued⟩ := recoverFromLog_issues (s := boot d) hfit
    (decodeHead_of_zero h.head) hslots
  have hend := Clean.clear hsize h.rest hb
  refine ⟨s, hs, hissued.disk ▸ hend, fun k => ?_⟩
  rw [hissued.writes]
  cases k with
  | zero => exact h
  | succ k =>
    rw [take_of_length_le (by simp [boot, homeWrites, LogHeader.empty])]
    exact hend

/-- A recovery from a committed disk runs to its end and installs the transaction; cut off, it
leaves the transaction in the log or in place. -/
theorem Committed.recover (hfit : a.Fits lh) (h : Committed a lh data base d) :
    ∃ s, recoverFromLog a (boot d) = some (.empty, s) ∧
      Clean a (installed lh data base) s.disk ∧
      ∀ k, Committed a lh data base (Writes.apply (s.writes.take k) d) ∨
        Clean a (installed lh data base) (Writes.apply (s.writes.take k) d) := by
  obtain ⟨hb, s, hs, hissued⟩ := recoverFromLog_issues (s := boot d) hfit h.head h.slots
  refine ⟨s, hs, hissued.disk ▸ h.finish hfit hb, fun k => ?_⟩
  rw [hissued.writes]
  exact h.finish_crash hfit hb k

theorem Clean.crashes (hsize : 0 < a.size) (h : Clean a base d) {d' : ℕ → Block}
    (hcrash : Relation.ReflTransGen (CrashedRecovery a) d d') : Clean a base d' := by
  induction hcrash with
  | refl => exact h
  | tail _ hstep ih =>
    obtain ⟨lh, s, j, hs, rfl⟩ := hstep
    obtain ⟨s', hs', _, hcut⟩ := ih.recover hsize
    obtain ⟨-, rfl⟩ := Prod.mk.inj (Option.some.inj (hs.symm.trans hs'))
    exact hcut j

theorem Committed.crashes (hfit : a.Fits lh) (h : Committed a lh data base d) {d' : ℕ → Block}
    (hcrash : Relation.ReflTransGen (CrashedRecovery a) d d') :
    Committed a lh data base d' ∨ Clean a (installed lh data base) d' := by
  have hsize : 0 < a.size := by have := hfit.room; omega
  induction hcrash with
  | refl => exact .inl h
  | tail _ hstep ih =>
    obtain ⟨lh', s, j, hs, rfl⟩ := hstep
    rcases ih with hcom | hclean
    · obtain ⟨s', hs', _, hcut⟩ := hcom.recover hfit
      obtain ⟨-, rfl⟩ := Prod.mk.inj (Option.some.inj (hs.symm.trans hs'))
      exact hcut j
    · exact .inr (hclean.crashes hsize (.single ⟨lh', s, j, hs, rfl⟩))

/-- **Crash atomicity.** A commit is cut off after any number of its writes, and so is any number of
recoveries after it. Then the last recovery ends with an empty header, and with the disk outside the
log area either as before the commit or with all logged blocks replaced by their cached contents;
the latter when the header had been written. -/
theorem crash_atomic (a : LogArea) (lh : LogHeader) (hfit : a.Fits lh) (disk : ℕ → Block)
    (cache : ℕ → Option Block) (hhead : disk a.start 0 = 0) (k : ℕ) (d : ℕ → Block) :
    let s : Bio := ⟨disk, cache, []⟩
    let ws := (commit a lh s).2.writes.take k
    Relation.ReflTransGen (CrashedRecovery a) (Writes.apply ws disk) d →
    ∃ s', recoverFromLog a (boot d) = some (.empty, s') ∧ s'.disk a.start 0 = 0 ∧
      (Set.EqOn s'.disk disk a.blocksᶜ ∨
        Set.EqOn s'.disk (installed lh s.data disk) a.blocksᶜ) ∧
      (a.start ∈ ws.map Prod.fst → Set.EqOn s'.disk (installed lh s.data disk) a.blocksᶜ) := by
  intro s ws hcrash
  have hsize : 0 < a.size := by have := hfit.room; omega
  rcases commit_crash hfit s rfl ⟨hhead, fun _ _ => rfl⟩ k with ⟨hold, hnot⟩ | hnew
  · obtain ⟨s', hs', hclean, _⟩ := (hold.crashes hsize hcrash).recover hsize
    refine ⟨s', hs', hclean.head, .inl hclean.rest, fun hmem => ?_⟩
    have hsame : installed lh s.data disk = disk := by
      funext x
      simp [installed, hnot hmem]
    rw [hsame]
    exact hclean.rest
  · have hboth : Committed a lh s.data disk d ∨ Clean a (installed lh s.data disk) d := by
      rcases hnew with hcom | hclean
      · exact hcom.crashes hfit hcrash
      · exact .inr (hclean.crashes hsize hcrash)
    obtain ⟨s', hs', hclean⟩ : ∃ s', recoverFromLog a (boot d) = some (.empty, s') ∧
        Clean a (installed lh s.data disk) s'.disk := by
      rcases hboth with hcom | hclean
      · obtain ⟨s', hs', hend, _⟩ := hcom.recover hfit
        exact ⟨s', hs', hend⟩
      · obtain ⟨s', hs', hend, _⟩ := hclean.recover hsize
        exact ⟨s', hs', hend⟩
    exact ⟨s', hs', hclean.head, .inr hclean.rest, fun _ => hclean.rest⟩

/-- Two logged blocks, cut off between their installs: recovery installs both. -/
theorem crash_atomic_two_blocks :
    let s : Bio := ⟨fun _ _ => 0, fun b => if b = 50 ∨ b = 51 then some fun _ => .ofNat b else none,
      []⟩
    let ws := (commit ⟨2, 30⟩ ⟨[50, 51], by decide⟩ s).2.writes.take 4
    ws.map Prod.fst = [3, 4, 2, 50] ∧
      ∃ s', recoverFromLog ⟨2, 30⟩ (boot (Writes.apply ws s.disk)) = some (.empty, s') ∧
        s'.disk 50 = (fun _ => 50) ∧ s'.disk 51 = fun _ => 51 := by
  have hfit : LogArea.Fits ⟨2, 30⟩ ⟨[50, 51], by decide⟩ := by
    constructor <;> simp [blocks]
  obtain ⟨s', hs', -, -, hnew⟩ := crash_atomic ⟨2, 30⟩ ⟨[50, 51], by decide⟩ hfit (fun _ _ => 0)
    (fun b => if b = 50 ∨ b = 51 then some fun _ => .ofNat b else none) rfl 4 _ .refl
  refine ⟨rfl, s', hs', ?_, ?_⟩
  · rw [hnew (by decide) (by simp [blocks])]
    rfl
  · rw [hnew (by decide) (by simp [blocks])]
    rfl

end Xv6.Log
