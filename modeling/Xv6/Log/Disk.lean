import Mathlib.Order.Interval.Set.Basic
import Mathlib.Order.Nat
import Xv6.Lib.Writes

/-!
# The disk under the log

The disk as `bio.c` shows it to `log.c`: `bread` returns a block from the buffer cache, or reads it
from the disk when no buffer holds it, and `bwrite` writes a buffer through to the disk. The writes
issued are kept in order, since a crash leaves the disk with a first part of them. A buffer's
reference count decides only which clean buffer may be recycled; it is part of the model of
concurrent operations, not of this one.
-/

namespace Xv6.Log

open Function

/-- A disk block of `BSIZE` bytes, as its 32-bit words. -/
abbrev Block := Fin 256 → UInt32

/-- `LOGSIZE`, the number of block numbers in a log header. -/
abbrev logSize : ℕ := 30

/-- The disk, the buffers in front of it and the writes issued so far. -/
structure Bio where
  disk : ℕ → Block
  cache : ℕ → Option Block
  writes : List (ℕ × Block)

/-- `bread`: the buffer of the block, filled from the disk when there is none. -/
def bread (b : ℕ) (s : Bio) : Block × Bio :=
  match s.cache b with
  | some x => (x, s)
  | none => (s.disk b, { s with cache := update s.cache b (some (s.disk b)) })

/-- `bwrite` of the block's buffer, which the caller has given the contents `x`. -/
def bwrite (b : ℕ) (x : Block) (s : Bio) : Bio where
  disk := update s.disk b x
  cache := update s.cache b (some x)
  writes := s.writes ++ [(b, x)]

/-- The machine after power-up: the disk as it was left, and no buffer in use. -/
def boot (disk : ℕ → Block) : Bio := ⟨disk, fun _ => none, []⟩

/-- What `bread` returns for a block. -/
def Bio.data (s : Bio) (b : ℕ) : Block := (s.cache b).getD (s.disk b)

@[simp] theorem bread_fst (b : ℕ) (s : Bio) : (bread b s).1 = s.data b := by
  unfold bread Bio.data
  cases s.cache b <;> rfl

@[simp] theorem bread_disk (b : ℕ) (s : Bio) : (bread b s).2.disk = s.disk := by
  unfold bread
  cases s.cache b <;> rfl

@[simp] theorem bread_writes (b : ℕ) (s : Bio) : (bread b s).2.writes = s.writes := by
  unfold bread
  cases s.cache b <;> rfl

@[simp] theorem bread_data (b : ℕ) (s : Bio) : (bread b s).2.data = s.data := by
  funext x
  cases hc : s.cache b with
  | some y => simp [bread, hc]
  | none =>
    -- the new buffer holds what the disk holds
    by_cases hx : x = b
    · subst hx
      simp [bread, Bio.data, hc]
    · simp [bread, Bio.data, hc, hx]

theorem bwrite_data (b : ℕ) (x : Block) (s : Bio) : (bwrite b x s).data = update s.data b x := by
  funext y
  by_cases hy : y = b
  · subst hy
    simp [bwrite, Bio.data]
  · simp [bwrite, Bio.data, hy]

/-- From `s` to `s'` the writes `ws` were issued, and nothing else was changed. -/
structure Issues (s : Bio) (ws : List (ℕ × Block)) (s' : Bio) : Prop where
  writes : s'.writes = s.writes ++ ws
  disk : s'.disk = Writes.apply ws s.disk
  data : s'.data = Writes.apply ws s.data

namespace Issues

variable {s s1 s2 : Bio} {ws vs : List (ℕ × Block)}

theorem refl (s : Bio) : Issues s [] s := ⟨by simp, rfl, rfl⟩

theorem trans (h : Issues s ws s1) (h1 : Issues s1 vs s2) : Issues s (ws ++ vs) s2 where
  writes := by rw [h1.writes, h.writes, List.append_assoc]
  disk := by rw [h1.disk, h.disk, Writes.apply_append]
  data := by rw [h1.data, h.data, Writes.apply_append]

theorem of_bread (b : ℕ) (h : Issues (bread b s).2 ws s1) : Issues s ws s1 where
  writes := by rw [h.writes, bread_writes]
  disk := by rw [h.disk, bread_disk]
  data := by rw [h.data, bread_data]

theorem of_bwrite (b : ℕ) (x : Block) (h : Issues (bwrite b x s) ws s1) :
    Issues s ((b, x) :: ws) s1 where
  writes := by simp [h.writes, bwrite]
  disk := by rw [h.disk, Writes.apply_cons]; rfl
  data := by rw [h.data, Writes.apply_cons, bwrite_data]

end Issues

/-- `struct logheader` in memory: `n` is the length of the list, and the array `block` has room
for `LOGSIZE` numbers. -/
structure LogHeader where
  block : List UInt32
  le : block.length ≤ logSize
deriving DecidableEq

def LogHeader.empty : LogHeader := ⟨[], Nat.zero_le _⟩

/-- The header block after `write_head` has stored `n` and the first `n` numbers in it. -/
def encodeHead (lh : LogHeader) (hb : Block) : Block := fun i =>
  if i.val = 0 then UInt32.ofNat lh.block.length else (lh.block[i.val - 1]?).getD (hb i)

/-- The field `n` of a header block, as the number of rounds of a loop up to it. -/
def headCount (hb : Block) : ℕ := (hb 0).toInt32.toInt.toNat

/-- What `read_head` copies out of the header block; a count beyond the array `block` makes it
write outside of it. -/
def decodeHead (hb : Block) : Option LogHeader :=
  if h : headCount hb ≤ logSize then
    some ⟨List.ofFn fun i : Fin (headCount hb) => hb ⟨i + 1, by simp only [logSize] at h; omega⟩,
      by simpa using h⟩
  else none

theorem headCount_encodeHead (lh : LogHeader) (hb : Block) :
    headCount (encodeHead lh hb) = lh.block.length := by
  -- a count of at most `LOGSIZE` is the same number as a signed 32-bit integer
  have hsigned : ∀ n ≤ logSize, (UInt32.ofNat n).toInt32.toInt.toNat = n := by decide
  have hword : encodeHead lh hb 0 = UInt32.ofNat lh.block.length := by simp [encodeHead]
  rw [headCount, hword, hsigned _ lh.le]

theorem decodeHead_encodeHead (lh : LogHeader) (hb : Block) :
    decodeHead (encodeHead lh hb) = some lh := by
  have hcount := headCount_encodeHead lh hb
  obtain ⟨block, hle⟩ := lh
  rw [decodeHead, dif_pos (hcount ▸ hle)]
  congr 2
  apply List.ext_getElem
  · simpa using hcount
  · intro i hi hi'
    simp [encodeHead, hi']

theorem decodeHead_of_zero {hb : Block} (h : hb 0 = 0) : decodeHead hb = some .empty := by
  have hcount : headCount hb = 0 := by
    rw [headCount, h]
    rfl
  rw [decodeHead, dif_pos (by omega)]
  congr 2
  exact List.length_eq_zero_iff.mp (by simpa using hcount)

theorem encodeHead_empty_zero (hb : Block) : encodeHead .empty hb 0 = 0 := rfl

end Xv6.Log
