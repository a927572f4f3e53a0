import Mathlib.Computability.Language

/-!
# The matcher of `grep`

A pattern is an optional `^` and a sequence of items: a character with a star, a `$` at the end, or
one character. The items denote languages, and `match` searches the text for a string of the product
of these languages. It tries the items from left to right and goes back when it fails; what is
shown here is that it misses nothing.

Strings are lists of bytes without the terminating zero byte, so `*text == '\0'` is `text = []`.
-/

namespace Xv6.Grep

open List

abbrev caret : UInt8 := 0x5e

abbrev dollar : UInt8 := 0x24

abbrev dot : UInt8 := 0x2e

abbrev star : UInt8 := 0x2a

/-! ## The code -/

/-- `matchstar`: search for `c*re` at the beginning of the text, where `here` is `matchhere` of
`re`. -/
def matchstar (here : List UInt8 → Bool) (c : UInt8) : List UInt8 → Bool
  | [] => here []
  | t :: text => here (t :: text) || ((t == c || c == dot) && matchstar here c text)

/-- The last test of `matchhere`: one character, and the rest of the pattern, as `here`. -/
def matchchar (here : List UInt8 → Bool) (c : UInt8) : List UInt8 → Bool
  | [] => false
  | t :: text => (c == dot || c == t) && here text

/-- `matchhere`: search for the pattern at the beginning of the text. -/
def matchhere : List UInt8 → List UInt8 → Bool
  | [], _ => true
  | [c], text => if c = dollar then text.isEmpty else matchchar (matchhere []) c text
  | c :: d :: re, text =>
    if d = star then matchstar (matchhere re) c text else matchchar (matchhere (d :: re)) c text

/-- `match`: its loop goes through the text, and looks at the empty string at its end too. -/
def matchText (re text : List UInt8) : Bool :=
  if re.head? = some caret then matchhere re.tail text else text.tails.any (matchhere re)

/-! ## What a pattern denotes -/

/-- A character of a pattern stands for a character of the text. -/
def Fits (c t : UInt8) : Prop := c = dot ∨ c = t

inductive Item
  | char (c : UInt8)
  | star (c : UInt8)

def Item.language : Item → Language UInt8
  | .char c => {s | ∃ t, s = [t] ∧ Fits c t}
  | .star c => {s | ∀ t ∈ s, Fits c t}

/-- The items of a pattern, from left to right, and whether a `$` is its end. -/
def readItems : List UInt8 → List Item × Bool
  | [] => ([], false)
  | [c] => if c = dollar then ([], true) else ([.char c], false)
  | c :: d :: re =>
    if d = star then (.star c :: (readItems re).1, (readItems re).2)
    else (.char c :: (readItems (d :: re)).1, (readItems (d :: re)).2)

/-- The concatenations of strings that the items denote. -/
def language (items : List Item) : Language UInt8 := (items.map Item.language).prod

/-- The pattern without the `^` at its beginning. -/
def body (re : List UInt8) : List UInt8 := if re.head? = some caret then re.tail else re

/-- The text begins with a string of the language, or is one if `whole` is set. -/
def Begins (L : Language UInt8) (whole : Bool) (text : List UInt8) : Prop :=
  ∃ mid post, text = mid ++ post ∧ mid ∈ L ∧ (whole = true → post = [])

section Begins

variable {K L : Language UInt8} {whole : Bool} {text : List UInt8}

theorem begins_one : Begins 1 whole text ↔ (whole = true → text = []) := by
  constructor
  · rintro ⟨mid, post, rfl, hmid, hpost⟩
    rw [Language.mem_one] at hmid
    rwa [hmid, nil_append]
  · intro h
    exact ⟨[], text, rfl, (Language.mem_one _).mpr rfl, h⟩

theorem begins_mul : Begins (K * L) whole text ↔
    ∃ s rest, text = s ++ rest ∧ s ∈ K ∧ Begins L whole rest := by
  constructor
  · rintro ⟨mid, post, rfl, hmid, hpost⟩
    obtain ⟨s, hs, mid', hmid', rfl⟩ := Language.mem_mul.mp hmid
    exact ⟨s, mid' ++ post, append_assoc .., hs, mid', post, rfl, hmid', hpost⟩
  · rintro ⟨s, rest, rfl, hs, mid, post, rfl, hmid, hpost⟩
    refine ⟨s ++ mid, post, (append_assoc ..).symm, ?_, hpost⟩
    exact Language.mem_mul.mpr ⟨s, hs, mid, hmid, rfl⟩

end Begins

/-! ## The matcher decides it -/

section Match

variable {here : List UInt8 → Bool} {c : UInt8}

/-- `matchstar` tries all strings that `c*` denotes, from the shortest on. -/
theorem matchstar_iff (text : List UInt8) : matchstar here c text = true ↔
    ∃ s rest, text = s ++ rest ∧ s ∈ (Item.star c).language ∧ here rest = true := by
  induction text with
  | nil =>
    constructor
    · intro h
      exact ⟨[], [], rfl, fun t ht => absurd ht not_mem_nil, h⟩
    · rintro ⟨s, rest, heq, -, h⟩
      obtain ⟨-, rfl⟩ := append_eq_nil_iff.mp heq.symm
      exact h
  | cons t text ih =>
    have hfits : (t == c || c == dot) = true ↔ Fits c t := by
      simp only [Bool.or_eq_true, beq_iff_eq, Fits]
      exact ⟨fun h => h.symm.imp_right Eq.symm, fun h => h.symm.imp_left Eq.symm⟩
    rw [matchstar, Bool.or_eq_true, Bool.and_eq_true, hfits, ih]
    constructor
    · rintro (h | ⟨ht, s, rest, rfl, hs, h⟩)
      · exact ⟨[], t :: text, rfl, fun t ht => absurd ht not_mem_nil, h⟩
      · exact ⟨t :: s, rest, rfl, forall_mem_cons.mpr ⟨ht, hs⟩, h⟩
    · rintro ⟨s, rest, heq, hs, h⟩
      cases s with
      | nil =>
        obtain rfl : t :: text = rest := heq
        exact .inl h
      | cons t' s =>
        obtain ⟨rfl, rfl⟩ := List.cons.inj heq
        obtain ⟨ht, hs⟩ := forall_mem_cons.mp hs
        exact .inr ⟨ht, s, rest, rfl, hs, h⟩

theorem matchchar_iff (text : List UInt8) : matchchar here c text = true ↔
    ∃ s rest, text = s ++ rest ∧ s ∈ (Item.char c).language ∧ here rest = true := by
  constructor
  · intro h
    cases text with
    | nil => cases h
    | cons t rest =>
      simp only [matchchar, Bool.and_eq_true, Bool.or_eq_true, beq_iff_eq] at h
      exact ⟨[t], rest, rfl, ⟨t, rfl, h.1⟩, h.2⟩
  · rintro ⟨s, rest, rfl, ⟨t, rfl, ht⟩, h⟩
    simp only [singleton_append, matchchar, Bool.and_eq_true, Bool.or_eq_true, beq_iff_eq]
    exact ⟨ht, h⟩

end Match

/-- **`matchhere` decides** whether the text begins with a string of the pattern. -/
theorem matchhere_iff (re text : List UInt8) : matchhere re text = true ↔
    Begins (language (readItems re).1) (readItems re).2 text := by
  have hnil : ∀ text, matchhere [] text = true ↔ Begins (language []) false text := fun text =>
    iff_of_true rfl (begins_one.mpr fun h => absurd h Bool.false_ne_true)
  induction re using readItems.induct generalizing text with
  | case1 => exact hnil text
  | case2 =>
    rw [matchhere, readItems, if_pos rfl, if_pos rfl, List.isEmpty_iff]
    exact (begins_one.trans (by simp)).symm
  | case3 c hc =>
    rw [matchhere, readItems, if_neg hc, if_neg hc, matchchar_iff]
    simp only [hnil]
    exact begins_mul.symm
  | case4 c re ih =>
    rw [matchhere, readItems, if_pos rfl, if_pos rfl, matchstar_iff]
    simp only [ih]
    exact begins_mul.symm
  | case5 c d re hd ih =>
    rw [matchhere, readItems, if_neg hd, if_neg hd, matchchar_iff]
    simp only [ih]
    exact begins_mul.symm

/-- **`match` decides its pattern language**: some substring of the text is a concatenation of
strings that the items denote, at position 0 if the pattern begins with `^`, and up to the end of
the text if it ends with `$`. -/
theorem match_iff (re text : List UInt8) : matchText re text = true ↔
    ∃ pre mid post, text = pre ++ mid ++ post ∧ mid ∈ language (readItems (body re)).1 ∧
      (re.head? = some caret → pre = []) ∧ ((readItems (body re)).2 = true → post = []) := by
  unfold matchText body
  split_ifs with hcaret
  · rw [matchhere_iff]
    constructor
    · rintro ⟨mid, post, rfl, hmid, hpost⟩
      exact ⟨[], mid, post, rfl, hmid, fun _ => rfl, hpost⟩
    · rintro ⟨pre, mid, post, rfl, hmid, hpre, hpost⟩
      rw [hpre hcaret]
      exact ⟨mid, post, rfl, hmid, hpost⟩
  · simp only [any_eq_true, mem_tails, matchhere_iff]
    constructor
    · rintro ⟨_, ⟨pre, rfl⟩, mid, post, rfl, hmid, hpost⟩
      exact ⟨pre, mid, post, (append_assoc ..).symm, hmid, fun h => absurd h hcaret, hpost⟩
    · rintro ⟨pre, mid, post, rfl, hmid, -, hpost⟩
      exact ⟨mid ++ post, ⟨pre, (append_assoc ..).symm⟩, mid, post, rfl, hmid, hpost⟩

/-- `^a*b$` and the text `aab`. -/
example : matchText [caret, 0x61, star, 0x62, dollar] [0x61, 0x61, 0x62] = true := by decide

end Xv6.Grep
