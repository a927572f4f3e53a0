import Mathlib.Data.List.TakeWhile
import Xv6.Grep.Match

/-!
# The lines that `grep` writes

`grep` reads into a buffer of 1024 bytes, of which the last is for the terminating zero, writes the
complete lines in it that match, and moves what is left to the front. How the input arrives makes no
difference. A line that does not fit into the buffer with its newline ends it: the next `read` is
asked for no bytes, and its result 0 is taken for the end of the file. So `grep` writes the matching
lines before the first such line, and no others.
-/

namespace Xv6.Grep

open List

abbrev newline : UInt8 := 0x0a

/-! ## The code -/

/-- `strchr(p, '\n')`, in the buffer from `p` on: what comes before the newline, and after it. -/
def strchr (p : List UInt8) : Option (List UInt8 × List UInt8) :=
  match p.dropWhile fun c => c != newline && c != 0 with
  | [] => none
  | c :: rest =>
    if c = newline then some (p.takeWhile fun c => c != newline && c != 0, rest) else none

/-- The inner loop of `grep`, for at most `n` lines from `p` on: what it writes, and what is left in
the buffer. -/
def lineLoop (re : List UInt8) : ℕ → List UInt8 → List UInt8 × List UInt8
  | 0, p => ([], p)
  | n + 1, p =>
    match strchr p with
    | none => ([], p)
    | some (line, rest) =>
      ((if matchText re line then line ++ [newline] else []) ++ (lineLoop re n rest).1,
        (lineLoop re n rest).2)

/-- The number of bytes that a `read` of `n` bytes returns, if `left` bytes are left in the file: as
many as `give`, if it can, and at least one. -/
def readSize (give n left : ℕ) : ℕ := min (max give 1) (min n left)

/-- The outer loop of `grep`, with `buf` the first `m` bytes of the buffer and `rest` what is still
to be read, from the read number `k` on. -/
def grepLoop (re : List UInt8) (give : ℕ → ℕ) : (fuel k : ℕ) → (buf rest : List UInt8) → List UInt8
  | 0, _, _, _ => []
  | fuel + 1, k, buf, rest =>
    let n := readSize (give k) (1024 - buf.length - 1) rest.length
    if n = 0 then []
    else
      let p := buf ++ rest.take n
      (lineLoop re p.length p).1 ++
        grepLoop re give fuel (k + 1) (lineLoop re p.length p).2 (rest.drop n)

/-- `grep`, on a file that the reads split as `give` has it: what it writes. Every read takes a
byte, except for the last. -/
def grep (re : List UInt8) (give : ℕ → ℕ) (file : List UInt8) : List UInt8 :=
  grepLoop re give (file.length + 1) 0 [] file

/-! ## The lines of a file -/

/-- The lines of a file, those that end in a newline. -/
def lines (file : List UInt8) : List (List UInt8) := (file.splitOn newline).dropLast

def output (re : List UInt8) (ls : List (List UInt8)) : List UInt8 :=
  (ls.filter fun line => matchText re line).flatMap fun line => line ++ [newline]

variable {file line rest : List UInt8}

theorem lines_of_not_mem (h : newline ∉ file) : lines file = [] := by
  have hsingle : file.splitOn newline = [file] := by
    rw [splitOn_eq_splitOnP]
    refine splitOnP_eq_singleton fun c hc => ?_
    simp only [beq_eq_false_iff_ne]
    rintro rfl
    exact h hc
  rw [lines, hsingle]
  rfl

theorem lines_cons (h : newline ∉ line) : lines (line ++ newline :: rest) = line :: lines rest := by
  rw [lines, splitOn_append_cons_self_of_not_mem h, dropLast_cons_of_ne_nil (splitOn_ne_nil _ _)]
  rfl

theorem output_cons (re line : List UInt8) (ls : List (List UInt8)) : output re (line :: ls) =
    (if matchText re line then line ++ [newline] else []) ++ output re ls := by
  unfold output
  rw [filter_cons]
  split_ifs
  · rw [flatMap_cons]
  · rfl

/-- Lines that fit the buffer, together with the newline. -/
def shortLines (file : List UInt8) : List (List UInt8) :=
  (lines file).takeWhile fun line => line.length ≤ 1022

theorem shortLines_of_not_mem (h : newline ∉ file) : shortLines file = [] := by
  rw [shortLines, lines_of_not_mem h]
  rfl

theorem shortLines_cons (h : newline ∉ line) (hlen : line.length ≤ 1022) :
    shortLines (line ++ newline :: rest) = line :: shortLines rest := by
  rw [shortLines, lines_cons h, takeWhile_cons_of_pos (by simpa using hlen)]
  rfl

/-- A buffer that is full without a newline in it is the beginning of a line that is too long. -/
theorem shortLines_of_full {buf : List UInt8} (h : newline ∉ buf) (hlen : 1022 < buf.length) :
    shortLines (buf ++ rest) = [] := by
  by_cases hrest : newline ∈ rest
  · obtain ⟨more, rest, rfl, hmore⟩ := eq_append_cons_of_mem hrest
    rw [← append_assoc, shortLines, lines_cons fun hmem => (mem_append.mp hmem).elim h hmore]
    refine takeWhile_cons_of_neg ?_
    simp only [length_append, decide_eq_true_eq]
    omega
  · exact shortLines_of_not_mem fun hmem => (mem_append.mp hmem).elim h hrest

/-! ## What is written -/

theorem strchr_of_not_mem {p : List UInt8} (h : newline ∉ p) : strchr p = none := by
  unfold strchr
  split
  · rfl
  · rename_i c rest heq
    refine if_neg ?_
    rintro rfl
    exact h ((dropWhile_suffix _).subset (heq ▸ mem_cons_self))

theorem strchr_append (h : newline ∉ line) (h0 : 0 ∉ line) :
    strchr (line ++ newline :: rest) = some (line, rest) := by
  have hline : ∀ c ∈ line, (c != newline && c != 0) = true := by
    intro c hc
    simp only [Bool.and_eq_true, bne_iff_ne]
    exact ⟨fun heq => h (heq ▸ hc), fun heq => h0 (heq ▸ hc)⟩
  rw [strchr, dropWhile_append_of_pos hline, takeWhile_append_of_pos hline]
  simp

variable {re : List UInt8}

/-- One round: the lines in the buffer are written, if they match, and what is left has none. -/
theorem lineLoop_spec (rest : List UInt8) (n : ℕ) :
    ∀ {p : List UInt8}, p.length ≤ n → p.length ≤ 1023 → 0 ∉ p →
      (lineLoop re n p).2 <:+ p ∧ newline ∉ (lineLoop re n p).2 ∧
        (lineLoop re n p).1 ++ output re (shortLines ((lineLoop re n p).2 ++ rest)) =
          output re (shortLines (p ++ rest)) := by
  induction n with
  | zero =>
    intro p hn _ _
    obtain rfl := List.length_eq_zero_iff.mp (Nat.le_zero.mp hn)
    exact ⟨suffix_rfl, not_mem_nil, rfl⟩
  | succ n ih =>
    intro p hn hlen h0
    by_cases hmem : newline ∈ p
    · obtain ⟨line, p, rfl, hline⟩ := eq_append_cons_of_mem hmem
      have h0line : 0 ∉ line := fun h => h0 (mem_append_left _ h)
      have h0p : 0 ∉ p := fun h => h0 (mem_append_right _ (mem_cons_of_mem _ h))
      rw [length_append, length_cons] at hn hlen
      obtain ⟨hsuffix, hleft, hout⟩ := ih (p := p) (by omega) (by omega) h0p
      rw [lineLoop, strchr_append hline h0line]
      refine ⟨hsuffix.trans ?_, hleft, ?_⟩
      · exact (suffix_cons _ p).trans (suffix_append line _)
      · dsimp only
        rw [append_assoc, hout, append_assoc, cons_append,
          shortLines_cons hline (by omega), output_cons]
    · rw [lineLoop, strchr_of_not_mem hmem]
      exact ⟨suffix_rfl, hmem, rfl⟩

theorem grepLoop_spec (give : ℕ → ℕ) (fuel : ℕ) :
    ∀ {k : ℕ} {buf rest : List UInt8}, rest.length < fuel → buf.length ≤ 1023 →
      newline ∉ buf → 0 ∉ buf → 0 ∉ rest →
      grepLoop re give fuel k buf rest = output re (shortLines (buf ++ rest)) := by
  induction fuel with
  | zero =>
    intro k buf rest hfuel
    exact absurd hfuel (Nat.not_lt_zero _)
  | succ fuel ih =>
    intro k buf rest hfuel hbuf hnewline h0 h0rest
    rw [grepLoop]
    generalize hn : readSize (give k) (1024 - buf.length - 1) rest.length = n
    unfold readSize at hn
    split_ifs with hzero
    · -- the file is used up, or the buffer is full
      rcases lt_or_ge 1022 buf.length with hfull | hroom
      · rw [shortLines_of_full hnewline hfull]
        rfl
      · obtain rfl : rest = [] := List.length_eq_zero_iff.mp (by omega)
        rw [append_nil, shortLines_of_not_mem hnewline]
        rfl
    · have htake : (rest.take n).length = n := length_take_of_le (by omega)
      have hlen : (buf ++ rest.take n).length ≤ 1023 := by
        rw [length_append, htake]
        omega
      have h0p : 0 ∉ buf ++ rest.take n := fun h =>
        (mem_append.mp h).elim h0 fun h => h0rest (mem_of_mem_take h)
      obtain ⟨hsuffix, hleft, hout⟩ := @lineLoop_spec re (rest.drop n) _ _ le_rfl hlen h0p
      have hdrop : (rest.drop n).length < fuel := by
        rw [length_drop]
        omega
      dsimp only
      rw [ih hdrop (hsuffix.length_le.trans hlen) hleft (fun h => h0p (hsuffix.subset h))
        fun h => h0rest (mem_of_mem_drop h), hout, append_assoc, take_append_drop]

/-- **What `grep` writes**, however the input arrives: the matching lines before the first that does
not fit the buffer. -/
theorem grep_eq (h0 : 0 ∉ file) (re : List UInt8) (give : ℕ → ℕ) :
    grep re give file = output re (shortLines file) :=
  grepLoop_spec give _ (Nat.lt_succ_self _) (Nat.zero_le _) List.not_mem_nil List.not_mem_nil h0

theorem output_append (re : List UInt8) (ls ls' : List (List UInt8)) :
    output re (ls ++ ls') = output re ls ++ output re ls' := by
  rw [output, filter_append, flatMap_append]
  rfl

/-- **The lines that match**, in order, and nothing else: `grep` writes them for every pattern and
however the input arrives, if and only if no line that ends in a newline has more than 1022 bytes
before it. -/
theorem grep_chunks {file : List UInt8} (h0 : 0 ∉ file) :
    (∀ re give, grep re give file = output re (lines file)) ↔
      ∀ line ∈ lines file, line.length ≤ 1022 := by
  constructor
  · intro h
    -- the empty pattern matches every line, so a line that is not written would be missed
    have hempty : ∀ line, matchText [] line = true := fun line =>
      any_eq_true.mpr ⟨line, (mem_tails _ _).mpr suffix_rfl, rfl⟩
    have hall := h [] fun _ => 1
    conv_rhs at hall => rw [← takeWhile_append_dropWhile
      (p := fun line : List UInt8 => decide (line.length ≤ 1022)) (l := lines file), output_append]
    rw [grep_eq h0] at hall
    have hnil := self_eq_append_right.mp hall
    cases hrest : (lines file).dropWhile fun line => decide (line.length ≤ 1022) with
    | nil => simpa using hrest
    | cons line rest =>
      rw [hrest, output_cons, hempty, if_pos rfl] at hnil
      simp at hnil
  · intro hshort re give
    rw [grep_eq h0, shortLines, takeWhile_eq_self_iff.mpr]
    intro line hline
    simpa using hshort line hline

theorem grep_chunks_twoLines : grep [0x61] (fun _ => 1) [0x61, newline, 0x62, newline] =
    output [0x61] (lines [0x61, newline, 0x62, newline]) :=
  (grep_chunks (by decide)).mpr (by decide) _ _

/-- **A line of 1023 bytes** ends `grep`: the line after it matches, and is not written. -/
theorem grep_stops : ∃ file : List UInt8, 0 ∉ file ∧ ∀ give,
    grep [0x62] give file = [] ∧ output [0x62] (lines file) = [0x62, newline] := by
  obtain ⟨line, hlen, hline⟩ : ∃ line : List UInt8, line.length = 1023 ∧ ∀ c ∈ line, c = 0x61 :=
    ⟨List.replicate 1023 0x61, length_replicate, fun c => eq_of_mem_replicate⟩
  have hnewline : newline ∉ line := fun h => absurd (hline _ h) (by decide)
  have h0 : 0 ∉ line ++ newline :: [0x62, newline] := by
    rw [mem_append]
    rintro (h | h)
    · exact absurd (hline _ h) (by decide)
    · exact absurd h (by decide)
  refine ⟨line ++ newline :: [0x62, newline], h0, fun give => ⟨?_, ?_⟩⟩
  · rw [grep_eq h0, shortLines_of_full hnewline (by omega)]
    rfl
  · have hmatch : matchText [0x62] line = false := by
      refine any_eq_false.mpr fun x hx => ?_
      cases x with
      | nil => decide
      | cons c x =>
        cases hline c (((mem_tails _ _).mp hx).subset mem_cons_self)
        exact Bool.false_ne_true
    rw [lines_cons hnewline, output_cons, hmatch]
    exact (by decide : output [0x62] (lines [0x62, newline]) = [0x62, newline])

end Xv6.Grep
