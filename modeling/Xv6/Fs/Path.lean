import Mathlib.Data.List.TakeWhile
import Xv6.Fs.Directory

/-!
# The components of a path

`skipelem` of `kernel/fs.c` takes the next component off a path and copies it to a buffer of
`DIRSIZ` bytes: all of it with a zero behind, or its first `DIRSIZ` bytes without one. A path is the
bytes of memory from a pointer on, and ends with the first zero, or with the list.
-/

namespace Xv6.Fs

open Function List

/-- The character `/`. -/
def slash : UInt8 := '/'.toUInt8

def head (path : List UInt8) : UInt8 := path.headD 0

/-- The loop `while(*path == '/') path++`. -/
def skipSlashes (path : List UInt8) : List UInt8 := path.dropWhile (· = slash)

/-- What the loop `while(*path != '/' && *path != 0) path++` passes over. -/
def element (path : List UInt8) : List UInt8 := path.takeWhile fun c => c ≠ slash ∧ c ≠ 0

def skipElement (path : List UInt8) : List UInt8 := path.dropWhile fun c => c ≠ slash ∧ c ≠ 0

/-- `memmove` of the first `n` bytes of a string to a buffer. -/
def memmove (name : ℕ → UInt8) (s : List UInt8) (n : ℕ) : ℕ → UInt8 := fun k =>
  if k < n then s.getD k 0 else name k

/-- The buffer after a component has been copied to it. -/
def copyElement (name : ℕ → UInt8) (s : List UInt8) : ℕ → UInt8 :=
  if dirsiz ≤ s.length then memmove name s dirsiz
  else update (memmove name s s.length) s.length 0

/-- `skipelem`: the rest of the path and the buffer with its next component; `none` if there is no
component. -/
def skipelem (path : List UInt8) (name : ℕ → UInt8) : Option (List UInt8 × (ℕ → UInt8)) :=
  let path := skipSlashes path
  if head path = 0 then none
  else some (skipSlashes (skipElement path), copyElement name (element path))

def components (path : List UInt8) : List (List UInt8) :=
  ((path.takeWhile (· ≠ 0)).splitOn slash).filter (· ≠ [])

/-! ### Pieces -/

section

variable (path : List UInt8)

include path

theorem components_slash : components (slash :: path) = components path := by
  have hsplit := splitOn_append_cons_self_of_not_mem (a := slash) not_mem_nil
    (path.takeWhile (· ≠ 0))
  rw [components, takeWhile_cons_of_pos (by decide), ← nil_append (slash :: _), hsplit,
    filter_cons_of_neg (by simp), components]

theorem skipSlashes_cons : skipSlashes (slash :: path) = skipSlashes path :=
  dropWhile_cons_of_pos (by simp)

omit path in
theorem skipSlashes_of_ne {c : UInt8} (hc : c ≠ slash) (path : List UInt8) :
    skipSlashes (c :: path) = c :: path :=
  dropWhile_cons_of_neg (by simpa using hc)

theorem components_skipSlashes : components (skipSlashes path) = components path := by
  induction path with
  | nil => rfl
  | cons c path ih =>
    rcases eq_or_ne c slash with rfl | hc
    · rw [skipSlashes_cons, ih, components_slash]
    · rw [skipSlashes_of_ne hc]

theorem components_of_head (h : head path = 0) : components path = [] := by
  cases path with
  | nil => rfl
  | cons c path =>
    obtain rfl : c = 0 := h
    rfl

omit path in
theorem components_append {s rest : List UInt8} (hs : s ≠ []) (hslash : slash ∉ s) (h0 : 0 ∉ s)
    (hrest : head rest = 0 ∨ head rest = slash) :
    components (s ++ rest) = s :: components rest := by
  have htake : (s ++ rest).takeWhile (· ≠ 0) = s ++ rest.takeWhile (· ≠ 0) := by
    refine takeWhile_append_of_pos fun c hc => ?_
    have : c ≠ 0 := fun h => h0 (h ▸ hc)
    simpa using this
  rcases hrest with hend | hnext
  · have hnil : rest.takeWhile (· ≠ 0) = [] := by
      cases rest with
      | nil => rfl
      | cons c rest =>
        obtain rfl : c = 0 := hend
        rfl
    have hsingle : s.splitOn slash = [s] := by
      rw [splitOn_eq_splitOnP]
      refine splitOnP_eq_singleton fun c hc => ?_
      have : c ≠ slash := fun h => hslash (h ▸ hc)
      simpa using this
    rw [components_of_head rest hend, components, htake, hnil, append_nil, hsingle,
      filter_cons_of_pos (by simpa using hs), filter_nil]
  · cases rest with
    | nil =>
      exact absurd hnext (by decide)
    | cons c rest =>
      obtain rfl : c = slash := hnext
      rw [components_slash, components, htake, takeWhile_cons_of_pos (by decide),
        splitOn_append_cons_self_of_not_mem hslash,
        filter_cons_of_pos (by simpa using hs),
        components]

theorem head_skipSlashes_ne : head (skipSlashes path) ≠ slash := by
  induction path with
  | nil => decide
  | cons c path ih =>
    rcases eq_or_ne c slash with rfl | hc
    · rwa [skipSlashes_cons]
    · rw [skipSlashes_of_ne hc]
      exact hc

theorem head_skipElement : head (skipElement path) = 0 ∨ head (skipElement path) = slash := by
  induction path with
  | nil => exact Or.inl rfl
  | cons c path ih =>
    by_cases hc : c ≠ slash ∧ c ≠ 0
    · rw [skipElement, dropWhile_cons_of_pos (by simpa using hc)]
      exact ih
    · rw [skipElement, dropWhile_cons_of_neg (by simpa using hc)]
      have hend : c = slash ∨ c = 0 := by
        by_contra hne
        exact hc (not_or.mp hne)
      exact hend.symm

theorem element_append : element path ++ skipElement path = path := takeWhile_append_dropWhile

theorem zero_notMem_element : 0 ∉ element path := by
  intro h
  simpa using mem_takeWhile_imp h

theorem slash_notMem_element : slash ∉ element path := by
  intro h
  simpa using mem_takeWhile_imp h

end

theorem element_ne_nil {path : List UInt8} (h0 : head path ≠ 0) (hslash : head path ≠ slash) :
    element path ≠ [] := by
  cases path with
  | nil => exact absurd rfl h0
  | cons c path =>
    have hc : c ≠ slash ∧ c ≠ 0 := ⟨hslash, h0⟩
    rw [element, takeWhile_cons_of_pos (by simpa using hc)]
    exact cons_ne_nil _ _

theorem components_of_element {path : List UInt8} (h0 : head path ≠ 0)
    (hslash : head path ≠ slash) :
    components path = element path :: components (skipElement path) := by
  rw [← components_append (element_ne_nil h0 hslash) (slash_notMem_element path)
    (zero_notMem_element path) (head_skipElement path), element_append]

/-! ### The buffer -/

/-- A buffer that holds a string, with a zero behind it if there is room. -/
theorem stringOf_eq (l : List UInt8) : ∀ {n : ℕ} {p : ℕ → UInt8}, 0 ∉ l → l.length ≤ n →
    (∀ k < l.length, p k = l.getD k 0) → (l.length < n → p l.length = 0) → stringOf n p = l := by
  induction l with
  | nil =>
    intro n p _ _ _ hend
    cases n with
    | zero => rfl
    | succ n =>
      have hp : p 0 = 0 := hend (Nat.succ_pos n)
      rw [stringOf_succ, if_pos hp]
  | cons c l ih =>
    intro n p h0 hle hcopy hend
    cases n with
    | zero => cases hle
    | succ n =>
      have hc : p 0 = c := hcopy 0 (Nat.succ_pos _)
      have hne : c ≠ 0 := fun h => h0 (h ▸ mem_cons_self)
      rw [stringOf_succ, hc, if_neg hne]
      congr 1
      refine ih (fun h => h0 (mem_cons_of_mem c h)) (Nat.le_of_succ_le_succ hle)
        (fun k hk => ?_) fun hlt => hend (Nat.succ_lt_succ hlt)
      exact hcopy (k + 1) (Nat.succ_lt_succ hk)

/-- The buffer that `skipelem` fills holds the component, cut to `DIRSIZ` bytes. -/
theorem nameKey_copyElement {s : List UInt8} (h0 : 0 ∉ s) (name : ℕ → UInt8) :
    nameKey (copyElement name s) = s.take dirsiz := by
  have h0' : 0 ∉ s.take dirsiz := fun h => h0 (mem_of_mem_take h)
  refine stringOf_eq _ h0' (length_take_le ..) (fun k hk => ?_) fun hlt => ?_
  · rw [length_take] at hk
    have htake : (s.take dirsiz).getD k 0 = s.getD k 0 := by
      rw [getD_eq_getElem?_getD, getElem?_take_of_lt (by omega), getD_eq_getElem?_getD]
    rw [htake, copyElement]
    split_ifs with hlong
    · exact if_pos (by omega)
    · rw [update_of_ne (by omega)]
      exact if_pos (by omega)
  · have hshort : s.length < dirsiz := by
      rw [length_take] at hlt
      omega
    rw [take_of_length_le hshort.le, copyElement, if_neg (by omega), update_self]

/-! ### `skipelem` -/

theorem skipelem_eq_none {path : List UInt8} {name : ℕ → UInt8} (h : skipelem path name = none) :
    components path = [] := by
  rw [skipelem] at h
  split_ifs at h with h0
  rw [← components_skipSlashes, components_of_head _ h0]

/-- **`skipelem` takes the next component**, and leaves a path that does not begin with a slash. -/
theorem skipelem_eq_some {path rest : List UInt8} {name name' : ℕ → UInt8}
    (h : skipelem path name = some (rest, name')) :
    ∃ s, components path = s :: components rest ∧ nameKey name' = s.take dirsiz ∧
      (head rest = 0 ↔ components rest = []) ∧ rest.length < path.length := by
  rw [skipelem] at h
  split_ifs at h with h0
  obtain ⟨rfl, rfl⟩ := Prod.mk.inj (Option.some.inj h)
  have hslash := head_skipSlashes_ne path
  refine ⟨element (skipSlashes path), ?_, nameKey_copyElement (zero_notMem_element _) name,
    ⟨components_of_head _, fun hnil => ?_⟩, ?_⟩
  · rw [components_skipSlashes, ← components_of_element h0 hslash, components_skipSlashes]
  · by_contra hne
    rw [components_of_element hne (head_skipSlashes_ne _)] at hnil
    cases hnil
  · have hpos := length_pos_iff.mpr (element_ne_nil h0 hslash)
    have hsum := congrArg List.length (element_append (skipSlashes path))
    have h1 : (skipSlashes (skipElement (skipSlashes path))).length ≤
        (skipElement (skipSlashes path)).length := (dropWhile_suffix _).length_le
    have h2 : (skipSlashes path).length ≤ path.length := (dropWhile_suffix _).length_le
    rw [length_append] at hsum
    omega

end Xv6.Fs
