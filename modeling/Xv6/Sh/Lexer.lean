import Mathlib.Data.List.TakeWhile
import Xv6.Lib.Runs

/-!
# The tokens of a command line

`gettoken` and `peek` of `user/sh.c`. They work on the bytes of the line with a position that they
move; a word is the pair of the positions where it begins and where it ends. Beside them stands what
they are for: the line as a list of words and symbols.
-/

namespace Xv6.Sh

open List

/-! ### The source -/

/-- `whitespace`: blank, tab, carriage return, newline, vertical tab. -/
def whitespace : List UInt8 := [0x20, 0x09, 0x0d, 0x0a, 0x0b]

def symbols : List UInt8 :=
  ['<'.toUInt8, '|'.toUInt8, '>'.toUInt8, '&'.toUInt8, ';'.toUInt8, '('.toUInt8, ')'.toUInt8]

def isSpace (c : UInt8) : Bool := whitespace.contains c

def isWord (c : UInt8) : Bool := !isSpace c && !symbols.contains c

inductive Sym
  | less
  | greater
  | append
  | pipe
  | amp
  | semi
  | lparen
  | rparen
deriving DecidableEq

/-- The tokens: the source has 0 for the end, `'a'` for a word, `'+'` for `>>`, and the symbol
itself for all others. -/
inductive Tok
  | eof
  | word
  | sym (s : Sym)
deriving DecidableEq

/-- The place of a word: where it begins and where it ends. -/
structure Span where
  start : ℕ
  stop : ℕ
deriving DecidableEq

def text (buf : List UInt8) (w : Span) : List UInt8 := (buf.drop w.start).take (w.stop - w.start)

/-- Functions of a position, which they may move; those that can fail do so with an `ε`. -/
abbrev ScanM (ε α : Type) := StateT ℕ (Except ε) α

/-- The loop that moves `i` over bytes in `p`, at most to the end. -/
def skip (p : UInt8 → Bool) (buf : List UInt8) (i : ℕ) : ℕ := i + ((buf.drop i).takeWhile p).length

/-- The symbols of one byte that nothing else begins with. -/
def single (c : UInt8) : Option Sym :=
  if c = '|'.toUInt8 then some .pipe
  else if c = '('.toUInt8 then some .lparen
  else if c = ')'.toUInt8 then some .rparen
  else if c = ';'.toUInt8 then some .semi
  else if c = '&'.toUInt8 then some .amp
  else if c = '<'.toUInt8 then some .less
  else none

/-- The token at `s`, and where it ends. The byte behind the last one is 0. -/
def scan (buf : List UInt8) (s : ℕ) : Tok × ℕ :=
  let c := buf.getD s 0
  if c = 0 then (.eof, s)
  else
    match single c with
    | some sym => (.sym sym, s + 1)
    | none =>
      if c = '>'.toUInt8 then
        if buf.getD (s + 1) 0 = '>'.toUInt8 then (.sym .append, s + 2) else (.sym .greater, s + 1)
      else (.word, skip isWord buf s)

section Source

variable {ε : Type} (buf : List UInt8)

/-- `gettoken`: the token and its place. -/
def gettoken : ScanM ε (Tok × Span) := do
  let s := skip isSpace buf (← get)
  let (tok, e) := scan buf s
  set (skip isSpace buf e)
  return (tok, ⟨s, e⟩)

/-- `peek`: whether the next byte is one of `toks`. -/
def peek (toks : List UInt8) : ScanM ε Bool := do
  let s := skip isSpace buf (← get)
  set s
  return buf.getD s 0 ≠ 0 && toks.contains (buf.getD s 0)

end Source

/-! ### The words and symbols of a line -/

inductive Lexeme
  | word (w : List UInt8)
  | sym (s : Sym)
deriving DecidableEq

/-- The words and symbols of a line: blanks are skipped, and the rest is split at the symbols. -/
def tokenize : List UInt8 → List Lexeme
  | [] => []
  | c :: l =>
    if isSpace c then tokenize l
    else
      match single c with
      | some sym => .sym sym :: tokenize l
      | none =>
        if c = '>'.toUInt8 then
          if l.head? = some '>'.toUInt8 then .sym .append :: tokenize l.tail
          else .sym .greater :: tokenize l
        else .word (c :: l.takeWhile isWord) :: tokenize (l.dropWhile isWord)
termination_by l => l.length
decreasing_by
  · exact Nat.lt_succ_self _
  · exact Nat.lt_succ_self _
  · exact Nat.lt_succ_of_le (length_tail ▸ Nat.sub_le _ _)
  · exact Nat.lt_succ_self _
  · exact Nat.lt_succ_of_le (dropWhile_suffix _).length_le

def Lexeme.tok : Lexeme → Tok
  | word _ => .word
  | sym s => .sym s

def Sym.first : Sym → UInt8
  | less => '<'.toUInt8
  | greater => '>'.toUInt8
  | append => '>'.toUInt8
  | pipe => '|'.toUInt8
  | amp => '&'.toUInt8
  | semi => ';'.toUInt8
  | lparen => '('.toUInt8
  | rparen => ')'.toUInt8

/-- Whether a list begins with a symbol whose first byte is in `toks`. -/
def starts (toks : List UInt8) : List Lexeme → Bool
  | .sym s :: _ => toks.contains s.first
  | _ => false

/-- At the position `i` of the line `buf` the words and symbols `ls` follow. -/
structure At (buf : List UInt8) (i : ℕ) (ls : List Lexeme) : Prop where
  le : i ≤ buf.length
  rest : tokenize (buf.drop i) = ls

/-- The token `r` is the first word or symbol of the list, and `j` is the position behind it. -/
def Taken (buf : List UInt8) (r : Tok × Span) (j : ℕ) : List Lexeme → Prop
  | [] => r.1 = .eof ∧ At buf j []
  | x :: ls => r.1 = x.tok ∧ (∀ w, x = .word w → text buf r.2 = w) ∧ At buf j ls

section Tokenize

variable {c : UInt8} {sym : Sym} {l : List UInt8}

theorem not_isSpace_of_single (h : single c = some sym) : isSpace c = false := by
  rw [single] at h
  split_ifs at h <;> next hc => rw [hc]; decide

theorem byte_cases (c : UInt8) : isSpace c = true ∨ (∃ sym, single c = some sym) ∨
    c = '>'.toUInt8 ∨ isWord c = true := by
  by_cases hspace : isSpace c = true
  · exact Or.inl hspace
  by_cases hmem : c ∈ symbols
  · simp only [symbols, mem_cons, not_mem_nil, or_false] at hmem
    rcases hmem with rfl | rfl | rfl | rfl | rfl | rfl | rfl
    · exact Or.inr (Or.inl ⟨.less, by decide⟩)
    · exact Or.inr (Or.inl ⟨.pipe, by decide⟩)
    · exact Or.inr (Or.inr (Or.inl rfl))
    · exact Or.inr (Or.inl ⟨.amp, by decide⟩)
    · exact Or.inr (Or.inl ⟨.semi, by decide⟩)
    · exact Or.inr (Or.inl ⟨.lparen, by decide⟩)
    · exact Or.inr (Or.inl ⟨.rparen, by decide⟩)
  · exact Or.inr (Or.inr (Or.inr (by simp [isWord, hspace, hmem])))

theorem isWord_iff : isWord c = true ↔ isSpace c = false ∧ c ∉ symbols := by simp [isWord]

theorem single_of_isWord (hc : isWord c = true) : single c = none := by
  have hmem := (isWord_iff.mp hc).2
  simp only [symbols, mem_cons, not_mem_nil, or_false, not_or] at hmem
  obtain ⟨h1, h2, -, h3, h4, h5, h6⟩ := hmem
  rw [single, if_neg h2, if_neg h5, if_neg h6, if_neg h4, if_neg h3, if_neg h1]

theorem tokenize_nil : tokenize [] = [] := by rw [tokenize]

theorem tokenize_space (hc : isSpace c = true) : tokenize (c :: l) = tokenize l := by
  rw [tokenize, if_pos hc]

theorem tokenize_single (hc : single c = some sym) :
    tokenize (c :: l) = .sym sym :: tokenize l := by
  rw [tokenize, not_isSpace_of_single hc, hc]
  rfl

theorem tokenize_append :
    tokenize ('>'.toUInt8 :: '>'.toUInt8 :: l) = .sym .append :: tokenize l := by
  rw [tokenize]
  rfl

theorem tokenize_greater (hl : l.head? ≠ some '>'.toUInt8) :
    tokenize ('>'.toUInt8 :: l) = .sym .greater :: tokenize l := by
  rw [tokenize, if_neg (by decide)]
  change (if _ then _ else _) = _
  rw [if_pos rfl, if_neg hl]

theorem tokenize_word (hc : isWord c = true) :
    tokenize (c :: l) = .word (c :: l.takeWhile isWord) :: tokenize (l.dropWhile isWord) := by
  have hspace := (isWord_iff.mp hc).1
  have hgt : c ≠ '>'.toUInt8 := by
    rintro rfl
    exact absurd hc (by decide)
  rw [tokenize, hspace, single_of_isWord hc]
  exact if_neg hgt

theorem tokenize_dropWhile (l : List UInt8) : tokenize (l.dropWhile isSpace) = tokenize l := by
  induction l with
  | nil => rfl
  | cons c l ih =>
    rw [dropWhile_cons]
    split_ifs with hc
    · rw [ih, tokenize_space hc]
    · rfl

theorem length_tokenize_le (n : ℕ) : ∀ l : List UInt8, l.length ≤ n → (tokenize l).length ≤ n := by
  induction n with
  | zero =>
    intro l hl
    rw [List.length_eq_zero_iff.mp (Nat.le_zero.mp hl), tokenize_nil]
    exact le_rfl
  | succ n ih =>
    rintro (_ | ⟨c, l⟩) hl
    · rw [tokenize_nil]
      exact Nat.zero_le _
    have hl' : l.length ≤ n := Nat.le_of_succ_le_succ hl
    rcases byte_cases c with hc | ⟨sym, hc⟩ | rfl | hc
    · rw [tokenize_space hc]
      exact (ih l hl').trans (Nat.le_succ n)
    · rw [tokenize_single hc]
      exact Nat.succ_le_succ (ih l hl')
    · by_cases hgt : l.head? = some '>'.toUInt8
      · obtain ⟨l', rfl⟩ := head?_eq_some_iff.mp hgt
        rw [tokenize_append]
        exact Nat.succ_le_succ (ih l' (Nat.le_of_succ_le hl'))
      · rw [tokenize_greater hgt]
        exact Nat.succ_le_succ (ih l hl')
    · rw [tokenize_word hc]
      exact Nat.succ_le_succ (ih _ ((length_dropWhile_le _ l).trans hl'))

end Tokenize

/-! ### `gettoken` and `peek` -/

section Scan

variable {ε : Type} {E : ε → Prop} {buf : List UInt8} {i : ℕ} {ls : List Lexeme} {l : List UInt8}
  {c : UInt8}

theorem drop_skip (p : UInt8 → Bool) (buf : List UInt8) (i : ℕ) :
    buf.drop (skip p buf i) = (buf.drop i).dropWhile p := by
  rw [skip, ← drop_drop]
  have happ := takeWhile_append_dropWhile (p := p) (l := buf.drop i)
  calc (buf.drop i).drop ((buf.drop i).takeWhile p).length
      = ((buf.drop i).takeWhile p ++ (buf.drop i).dropWhile p).drop
          ((buf.drop i).takeWhile p).length := by rw [happ]
    _ = (buf.drop i).dropWhile p := drop_left

theorem skip_le (p : UInt8 → Bool) (h : i ≤ buf.length) : skip p buf i ≤ buf.length := by
  have := ( takeWhile_prefix p (l := buf.drop i)).length_le
  rw [length_drop] at this
  rw [skip]
  omega

theorem At.skip (h : At buf i ls) : At buf (Sh.skip isSpace buf i) ls :=
  ⟨skip_le isSpace h.le, by rw [drop_skip, tokenize_dropWhile, h.rest]⟩

theorem At.length_le (h : At buf i ls) : ls.length ≤ buf.length := by
  rw [← h.rest]
  exact length_tokenize_le _ _ (length_drop ▸ Nat.sub_le _ _)

theorem getD_of_drop (h : buf.drop i = c :: l) : buf.getD i 0 = c := by
  have hget : buf[i]? = some c := by
    rw [← Nat.add_zero i, ← List.getElem?_drop, h]
    rfl
  rw [getD_eq_getElem?_getD, hget]
  rfl

theorem drop_succ_of_drop (h : buf.drop i = c :: l) :
    i + 1 ≤ buf.length ∧ buf.drop (i + 1) = l := by
  refine ⟨?_, by rw [← tail_drop, h]; rfl⟩
  by_contra hle
  rw [drop_eq_nil_of_le (by omega)] at h
  cases h

theorem starts_word (toks : List UInt8) (w : List UInt8) (ls : List Lexeme) :
    starts toks (.word w :: ls) = false := rfl

theorem starts_sym (toks : List UInt8) (sym : Sym) (ls : List Lexeme) :
    starts toks (.sym sym :: ls) = toks.contains sym.first := rfl

theorem first_of_single {sym : Sym} (h : single c = some sym) : sym.first = c := by
  rw [single] at h
  split_ifs at h with h1 h2 h3 h4 h5 h6
  all_goals cases h
  · exact h1.symm
  · exact h2.symm
  · exact h3.symm
  · exact h4.symm
  · exact h5.symm
  · exact h6.symm

/-- What stands at a byte that is not blank: the token of `scan`, and `scan` ends behind it. -/
theorem scan_spec (h : buf.drop i = c :: l) (hspace : isSpace c = false) (h0 : c ≠ 0) :
    ∃ x ls, tokenize (c :: l) = x :: ls ∧ (scan buf i).1 = x.tok ∧
      At buf (scan buf i).2 ls ∧ (∀ w, x = .word w → text buf ⟨i, (scan buf i).2⟩ = w) ∧
      ∀ toks, (∀ t ∈ toks, t ∈ symbols) → starts toks (x :: ls) = toks.contains c := by
  obtain ⟨hle, hdrop⟩ := drop_succ_of_drop h
  have hget := getD_of_drop h
  rw [scan, hget, if_neg h0]
  rcases byte_cases c with hc | ⟨sym, hc⟩ | rfl | hc
  · rw [hc] at hspace
    cases hspace
  · rw [hc]
    refine ⟨.sym sym, tokenize l, tokenize_single hc, rfl, ⟨hle, by rw [hdrop]⟩,
      fun w hw => (by cases hw), fun toks _ => ?_⟩
    rw [starts_sym, first_of_single hc]
  · have hnone : single '>'.toUInt8 = none := by decide
    rw [hnone]
    dsimp only
    rw [if_pos rfl]
    by_cases hgt : l.head? = some '>'.toUInt8
    · obtain ⟨l', rfl⟩ := head?_eq_some_iff.mp hgt
      obtain ⟨hle', hdrop'⟩ := drop_succ_of_drop hdrop
      rw [if_pos (getD_of_drop hdrop)]
      exact ⟨.sym .append, tokenize l', tokenize_append, rfl, ⟨hle', by rw [← hdrop']⟩,
        fun w hw => (by cases hw), fun toks _ => rfl⟩
    · have hne : buf.getD (i + 1) 0 ≠ '>'.toUInt8 := by
        intro heq
        cases l with
        | nil =>
          rw [getD_eq_getElem?_getD, getElem?_eq_none (drop_eq_nil_iff.mp hdrop)] at heq
          exact absurd heq (by decide)
        | cons c l =>
          rw [getD_of_drop hdrop] at heq
          exact hgt (by rw [heq]; rfl)
      rw [if_neg hne]
      exact ⟨.sym .greater, tokenize l, tokenize_greater hgt, rfl, ⟨hle, by rw [hdrop]⟩,
        fun w hw => (by cases hw), fun toks _ => rfl⟩
  · have hgt : c ≠ '>'.toUInt8 := by
      rintro rfl
      exact absurd hc (by decide)
    rw [single_of_isWord hc]
    dsimp only
    rw [if_neg hgt]
    refine ⟨_, _, tokenize_word hc, rfl, ⟨skip_le isWord (by omega), ?_⟩, fun w hw => ?_,
      fun toks htoks => ?_⟩
    · rw [drop_skip, h, dropWhile_cons_of_pos hc]
    · cases hw
      have hlen : Sh.skip isWord buf i - i = ((buf.drop i).takeWhile isWord).length :=
        Nat.add_sub_cancel_left _ _
      rw [text, hlen, ← prefix_iff_eq_take.mp ( takeWhile_prefix isWord), h,
        takeWhile_cons_of_pos hc]
    · rw [starts_word]
      refine (Bool.eq_false_iff.mpr fun hin => ?_).symm
      exact (isWord_iff.mp hc).2 (htoks c (contains_iff_mem.mp hin))

theorem not_isSpace_of_drop_skip (h : buf.drop (Sh.skip isSpace buf i) = c :: l) :
    isSpace c = false := by
  rw [drop_skip] at h
  have hhead := head?_dropWhile_not isSpace (buf.drop i)
  rw [h] at hhead
  exact hhead

theorem ne_zero_of_drop (hbuf : 0 ∉ buf) (h : buf.drop i = c :: l) : c ≠ 0 := by
  rintro rfl
  exact hbuf (mem_of_mem_drop (h ▸ mem_cons_self))

/-- **`gettoken`** takes the first word or symbol. -/
theorem gettoken_spec (hbuf : 0 ∉ buf) (h : At buf i ls) :
    Runs (gettoken buf) i E fun r j => Taken buf r j ls := by
  have hskip := h.skip
  rw [gettoken, Runs.get_bind]
  cases hdrop : buf.drop (Sh.skip isSpace buf i) with
  | nil =>
    obtain rfl : ls = [] := by rw [← hskip.rest, hdrop, tokenize_nil]
    have hend := drop_eq_nil_iff.mp hdrop
    have hscan : scan buf (Sh.skip isSpace buf i) = (.eof, Sh.skip isSpace buf i) := by
      rw [scan, getD_eq_getElem?_getD, getElem?_eq_none hend]
      rfl
    dsimp only
    rw [hscan]
    exact ⟨rfl, hskip.skip⟩
  | cons c l =>
    obtain ⟨x, ls', htok, hx, hat, hword, -⟩ :=
      scan_spec hdrop (not_isSpace_of_drop_skip hdrop) (ne_zero_of_drop hbuf hdrop)
    obtain rfl : ls = x :: ls' := by rw [← hskip.rest, hdrop, htok]
    exact ⟨hx, hword, hat.skip⟩

/-- **`peek`** looks at the first word or symbol; the position is then behind the blanks. -/
theorem peek_spec (hbuf : 0 ∉ buf) {toks : List UInt8} (htoks : toks.all symbols.contains = true)
    (h : At buf i ls) :
    Runs (peek buf toks) i E fun b j =>
      b = starts toks ls ∧ At buf j ls ∧ (ls = [] ↔ j = buf.length) := by
  have hskip := h.skip
  rw [peek, Runs.get_bind]
  cases hdrop : buf.drop (Sh.skip isSpace buf i) with
  | nil =>
    obtain rfl : ls = [] := by rw [← hskip.rest, hdrop, tokenize_nil]
    have hend := drop_eq_nil_iff.mp hdrop
    refine ⟨?_, hskip, fun _ => le_antisymm hskip.le hend, fun _ => rfl⟩
    rw [getD_eq_getElem?_getD, getElem?_eq_none hend]
    rfl
  | cons c l =>
    have h0 := ne_zero_of_drop hbuf hdrop
    obtain ⟨x, ls', htok, -, -, -, hstarts⟩ := scan_spec hdrop (not_isSpace_of_drop_skip hdrop) h0
    obtain rfl : ls = x :: ls' := by rw [← hskip.rest, hdrop, htok]
    refine ⟨?_, hskip, fun hnil => (by cases hnil), fun hend => ?_⟩
    · have hsym : ∀ t ∈ toks, t ∈ symbols := fun t ht =>
        contains_iff_mem.mp (all_eq_true.mp htoks t ht)
      rw [getD_of_drop hdrop, hstarts toks hsym, decide_eq_true h0, Bool.true_and]
    · change Sh.skip isSpace buf i = buf.length at hend
      rw [hend, drop_length] at hdrop
      cases hdrop

theorem peek_bind {α : Type} (hbuf : 0 ∉ buf) {toks : List UInt8}
    (htoks : toks.all symbols.contains = true) (h : At buf i ls) {f : Bool → ScanM ε α}
    {Q : α → ℕ → Prop} (hf : ∀ j, At buf j ls → Runs (f (starts toks ls)) j E Q) :
    Runs (peek buf toks >>= f) i E Q := by
  refine (peek_spec hbuf htoks h).bind ?_
  rintro b j ⟨rfl, hj, -⟩
  exact hf j hj

end Scan

end Xv6.Sh
