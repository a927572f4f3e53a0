import Xv6.Log.Disk

/-!
# Commit and recovery

`commit()` and `recover_from_log()` with the loops they are made of, and the writes they issue.
-/

namespace Xv6.Log

open Function List

/-- `log.start` and `log.size`: the header block and the log blocks after it. -/
structure LogArea where
  start : ℕ
  size : ℕ

def LogArea.blocks (a : LogArea) : Set ℕ := Set.Ico a.start (a.start + a.size)

/-- The loop of `write_log`, from round `tail` on. -/
def writeLogLoop (a : LogArea) : ℕ → List UInt32 → Bio → Bio
  | _, [], s => s
  | tail, b :: bs, s =>
    let (_, s) := bread (a.start + tail + 1) s
    let (src, s) := bread b.toNat s
    writeLogLoop a (tail + 1) bs (bwrite (a.start + tail + 1) src s)

/-- `write_log`: copy the modified blocks from the cache to the log. -/
def writeLog (a : LogArea) (lh : LogHeader) (s : Bio) : Bio := writeLogLoop a 0 lh.block s

/-- `write_head`: write the in-memory header to the header block. -/
def writeHead (a : LogArea) (lh : LogHeader) (s : Bio) : Bio :=
  let (hb, s) := bread a.start s
  bwrite a.start (encodeHead lh hb) s

def readHead (a : LogArea) (s : Bio) : Option LogHeader × Bio :=
  let (hb, s) := bread a.start s
  (decodeHead hb, s)

/-- The loop of `install_trans`, from round `tail` on. -/
def installTransLoop (a : LogArea) : ℕ → List UInt32 → Bio → Bio
  | _, [], s => s
  | tail, b :: bs, s =>
    let (lbuf, s) := bread (a.start + tail + 1) s
    let (_, s) := bread b.toNat s
    installTransLoop a (tail + 1) bs (bwrite b.toNat lbuf s)

/-- `install_trans`: copy the blocks from the log to their home locations. -/
def installTrans (a : LogArea) (lh : LogHeader) (s : Bio) : Bio := installTransLoop a 0 lh.block s

def commit (a : LogArea) (lh : LogHeader) (s : Bio) : LogHeader × Bio :=
  if 0 < lh.block.length then
    let s := writeLog a lh s
    let s := writeHead a lh s
    let s := installTrans a lh s
    (.empty, writeHead a .empty s)
  else (lh, s)

def recoverFromLog (a : LogArea) (s : Bio) : Option (LogHeader × Bio) :=
  match readHead a s with
  | (none, _) => none
  | (some lh, s) =>
    let s := installTrans a lh s
    some (.empty, writeHead a .empty s)

/-- The logged blocks lie outside the log area and have room in it. -/
structure LogArea.Fits (a : LogArea) (lh : LogHeader) : Prop where
  home : ∀ b ∈ lh.block, b.toNat ∉ a.blocks
  room : lh.block.length + 1 ≤ a.size

/-- The writes of `write_log` from round `tail` on, when the cache shows `data`. -/
def slotWrites (a : LogArea) (data : ℕ → Block) : ℕ → List UInt32 → List (ℕ × Block)
  | _, [] => []
  | tail, b :: bs => (a.start + tail + 1, data b.toNat) :: slotWrites a data (tail + 1) bs

/-- The writes of `install_trans` of blocks with contents `data`. -/
def homeWrites (data : ℕ → Block) (bs : List UInt32) : List (ℕ × Block) :=
  bs.map fun b => (b.toNat, data b.toNat)

variable {a : LogArea} {data : ℕ → Block} {bs : List UInt32} {tail : ℕ}

theorem LogArea.start_mem (h : 0 < a.size) : a.start ∈ a.blocks := ⟨le_rfl, by omega⟩

theorem LogArea.slot_mem {i : ℕ} (h : i + 1 < a.size) : a.start + i + 1 ∈ a.blocks :=
  ⟨by omega, by omega⟩

theorem mem_slotWrites {w : ℕ × Block} :
    w ∈ slotWrites a data tail bs ↔
      ∃ i b, bs[i]? = some b ∧ w = (a.start + (tail + i) + 1, data b.toNat) := by
  induction bs generalizing tail with
  | nil => simp [slotWrites]
  | cons b bs ih =>
    rw [slotWrites, mem_cons, ih]
    constructor
    · rintro (rfl | ⟨i, b', hb', rfl⟩)
      · exact ⟨0, b, rfl, rfl⟩
      · exact ⟨i + 1, b', hb', by rw [Nat.add_right_comm tail, Nat.add_assoc tail i 1]⟩
    · rintro ⟨i, b', hb', rfl⟩
      cases i with
      | zero =>
        obtain rfl : b = b' := by simpa using hb'
        exact .inl rfl
      | succ i =>
        exact .inr ⟨i, b', by simpa using hb', by
          rw [Nat.add_right_comm tail 1, Nat.add_assoc tail i 1]⟩

theorem slotWrites_congr {data' : ℕ → Block} (h : ∀ b ∈ bs, data b.toNat = data' b.toNat) :
    slotWrites a data tail bs = slotWrites a data' tail bs := by
  induction bs generalizing tail with
  | nil => rfl
  | cons b bs ih =>
    rw [slotWrites, slotWrites, h b List.mem_cons_self,
      ih fun b' hb' => h b' (List.mem_cons_of_mem b hb')]

theorem apply_slotWrites {i : ℕ} {b : UInt32} (hb : bs[i]? = some b) (d : ℕ → Block) :
    Writes.apply (slotWrites a data 0 bs) d (a.start + i + 1) = data b.toNat := by
  apply Writes.apply_of_mem
  · exact mem_slotWrites.mpr ⟨i, b, hb, by rw [Nat.zero_add]⟩
  · intro z hz
    obtain ⟨j, b', hb', hw⟩ := mem_slotWrites.mp hz
    obtain ⟨hij, rfl⟩ := Prod.mk.inj hw
    obtain rfl : i = j := by omega
    rw [hb] at hb'
    rw [Option.some.inj hb']

theorem apply_homeWrites {b : UInt32} (hb : b ∈ bs) (d : ℕ → Block) :
    Writes.apply (homeWrites data bs) d b.toNat = data b.toNat := by
  apply Writes.apply_of_mem
  · exact mem_map_of_mem hb
  · intro z hz
    obtain ⟨b', _, hw⟩ := mem_map.mp hz
    obtain ⟨hbb, rfl⟩ := Prod.mk.inj hw
    rw [hbb]

theorem apply_homeWrites_of_not_mem {x : ℕ} (hx : x ∉ bs.map UInt32.toNat) (d : ℕ → Block) :
    Writes.apply (homeWrites data bs) d x = d x := by
  apply Writes.apply_of_not_mem
  intro w hw
  obtain ⟨b, hb, rfl⟩ := mem_map.mp hw
  rintro rfl
  exact hx (mem_map_of_mem hb)

section Loops

variable {bs : List UInt32}

theorem writeLogLoop_issues {s : Bio} (hhome : ∀ b ∈ bs, b.toNat ∉ a.blocks)
    (hroom : tail + bs.length + 1 ≤ a.size) :
    Issues s (slotWrites a s.data tail bs) (writeLogLoop a tail bs s) := by
  induction bs generalizing tail s with
  | nil => exact .refl s
  | cons b bs ih =>
    rw [length_cons] at hroom
    simp only [writeLogLoop, slotWrites, bread_fst, bread_data]
    apply Issues.of_bread
    apply Issues.of_bread
    apply Issues.of_bwrite
    -- writing the slot has not touched the home blocks still to be read
    rw [← slotWrites_congr]
    · exact ih (fun b' hb' => hhome b' (mem_cons_of_mem b hb')) (by omega)
    · intro b' hb'
      rw [bwrite_data, bread_data, bread_data, update_of_ne]
      intro heq
      exact hhome b' (mem_cons_of_mem b hb') (heq ▸ LogArea.slot_mem (by omega))

theorem installTransLoop_issues {s : Bio} (hhome : ∀ b ∈ bs, b.toNat ∉ a.blocks)
    (hroom : tail + bs.length + 1 ≤ a.size)
    (hslots : ∀ i b, bs[i]? = some b → s.data (a.start + (tail + i) + 1) = data b.toNat) :
    Issues s (homeWrites data bs) (installTransLoop a tail bs s) := by
  induction bs generalizing tail s with
  | nil => exact .refl s
  | cons b bs ih =>
    rw [length_cons] at hroom
    have hslot : s.data (a.start + tail + 1) = data b.toNat := hslots 0 b rfl
    simp only [installTransLoop, homeWrites, map_cons, bread_fst, hslot]
    apply Issues.of_bread
    apply Issues.of_bread
    apply Issues.of_bwrite
    refine ih (fun b' hb' => hhome b' (mem_cons_of_mem b hb')) (by omega) ?_
    -- installing a home block has not touched the slots still to be read
    intro i b' hb'
    have hi : i < bs.length := (List.getElem?_eq_some_iff.mp hb').1
    rw [bwrite_data, bread_data, bread_data, update_of_ne, Nat.add_right_comm tail 1,
      Nat.add_assoc tail i 1]
    · exact hslots (i + 1) b' (by simpa using hb')
    · intro heq
      exact hhome b mem_cons_self (heq ▸ LogArea.slot_mem (by omega))

end Loops

theorem writeHead_issues (lh : LogHeader) (s : Bio) :
    ∃ hb, Issues s [(a.start, encodeHead lh hb)] (writeHead a lh s) :=
  ⟨_, .of_bread _ (.of_bwrite _ _ (.refl _))⟩

/-- **The writes of a commit**: the log slots, the header with the block numbers, the home blocks,
the header with `n = 0`. -/
theorem commit_issues {lh : LogHeader} (hfit : a.Fits lh) (hn : 0 < lh.block.length) (s : Bio) :
    ∃ hb hb0, Issues s (slotWrites a s.data 0 lh.block ++ ((a.start, encodeHead lh hb) ::
        (homeWrites s.data lh.block ++ [(a.start, encodeHead .empty hb0)]))) (commit a lh s).2 := by
  have hlog : Issues s (slotWrites a s.data 0 lh.block) (writeLog a lh s) :=
    writeLogLoop_issues hfit.home (by have := hfit.room; omega)
  obtain ⟨hb, hhead⟩ := writeHead_issues (a := a) lh (writeLog a lh s)
  have hinstall : Issues (writeHead a lh (writeLog a lh s)) (homeWrites s.data lh.block)
      (installTrans a lh (writeHead a lh (writeLog a lh s))) := by
    refine installTransLoop_issues hfit.home (by have := hfit.room; omega) ?_
    intro i b hb
    -- the cache shows what `write_log` put into the slot
    rw [hhead.data, Writes.apply_cons, Writes.apply_nil, update_of_ne (by simp; omega),
      hlog.data, Nat.zero_add, apply_slotWrites hb]
  obtain ⟨hb0, hclear⟩ := writeHead_issues (a := a) .empty
    (installTrans a lh (writeHead a lh (writeLog a lh s)))
  refine ⟨hb, hb0, ?_⟩
  rw [commit, if_pos hn]
  exact hlog.trans (hhead.trans (hinstall.trans hclear))

/-- **The writes of a recovery** from a header that lists blocks with the contents `data` in their
slots: the home blocks, and the header with `n = 0`. -/
theorem recoverFromLog_issues {lh : LogHeader} (hfit : a.Fits lh) {s : Bio}
    (hhead : decodeHead (s.data a.start) = some lh)
    (hslots : ∀ i b, lh.block[i]? = some b → s.data (a.start + i + 1) = data b.toNat) :
    ∃ hb s', recoverFromLog a s = some (.empty, s') ∧
      Issues s (homeWrites data lh.block ++ [(a.start, encodeHead .empty hb)]) s' := by
  have hread : readHead a s = (some lh, (bread a.start s).2) := by
    simp only [readHead, bread_fst, hhead]
  have hinstall : Issues s (homeWrites data lh.block) (installTrans a lh (bread a.start s).2) := by
    apply Issues.of_bread a.start
    refine installTransLoop_issues hfit.home (by have := hfit.room; omega) ?_
    intro i b hb
    rw [bread_data, Nat.zero_add, hslots i b hb]
  obtain ⟨hb, hclear⟩ := writeHead_issues (a := a) .empty (installTrans a lh (bread a.start s).2)
  exact ⟨hb, _, by rw [recoverFromLog, hread], hinstall.trans hclear⟩

end Xv6.Log
