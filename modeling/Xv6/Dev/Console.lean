import Xv6.Lib.Ring
import Xv6.Lib.Transition

/-!
# The console

`consoleintr` puts what is typed into a ring of bytes, and lets the line be edited until it is
committed; `consoleread` takes the bytes of committed lines. Three counters of 32 bits run through
the ring: up to `r` bytes were read, up to `w` committed, and up to `e` typed.

What this is for is said by an editor without ring and counters: it has the committed bytes, the
line being typed, and the number of bytes taken. The code refines it, for any number of readers. A
step is one call of `consoleintr`, or one round of a reader's loop under `cons.lock`; readers may be
killed, and may wake up at any time. Copying to the reader succeeds.
-/

namespace Xv6.Cons

open Function List Option Ring

abbrev inputBufSize : ℕ := 128

abbrev Byte := BitVec 8

/-- The characters that `consoleintr` and `consoleread` look for. -/
abbrev ctrlD : Byte := 0x04
abbrev ctrlH : Byte := 0x08
abbrev newline : Byte := 0x0a
abbrev carriageReturn : Byte := 0x0d
abbrev ctrlP : Byte := 0x10
abbrev ctrlU : Byte := 0x15
abbrev delete : Byte := 0x7f

/-! ## The ring -/

/-- `cons` without its lock. -/
structure Input where
  buf : ℕ → Byte
  r : BitVec 32
  w : BitVec 32
  e : BitVec 32

namespace Input

/-- The loop of control-U, for at most the given number of rounds. -/
def killLine : ℕ → Input → Input
  | 0, x => x
  | k + 1, x =>
    if x.e ≠ x.w ∧ x.buf ((x.e - 1).toNat % inputBufSize) ≠ newline then
      killLine k { x with e := x.e - 1 }
    else x

/-- A byte is stored, and the line may be committed. -/
def store (c : Byte) (x : Input) : Input :=
  let x := { x with buf := update x.buf (x.e.toNat % inputBufSize) c, e := x.e + 1 }
  if c = newline ∨ c = ctrlD ∨ (x.e - x.r).toNat = inputBufSize then { x with w := x.e } else x

/-- `consoleintr`. The loop of control-U ends at `cons.w` at the latest. -/
def consoleintr (c : Byte) (x : Input) : Input :=
  if c = ctrlP then x
  else if c = ctrlU then killLine (x.e - x.w).toNat x
  else if c = ctrlH ∨ c = delete then if x.e ≠ x.w then { x with e := x.e - 1 } else x
  else if c ≠ 0 ∧ (x.e - x.r).toNat < inputBufSize then
    x.store (if c = carriageReturn then newline else c)
  else x

end Input

/-! ## The editor -/

/-- The bytes committed, the line being typed, and the number of bytes taken. -/
structure Editor where
  out : List Byte
  line : List Byte
  taken : ℕ

namespace Editor

/-- The bytes that are committed or typed and not taken. -/
def unread (ed : Editor) : ℕ := ed.out.length - ed.taken + ed.line.length

def commit (ed : Editor) : Editor := { ed with out := ed.out ++ ed.line, line := [] }

def insert (c : Byte) (ed : Editor) : Editor :=
  let ed := { ed with line := ed.line ++ [c] }
  if c = newline ∨ c = ctrlD ∨ ed.unread = inputBufSize then ed.commit else ed

/-- A key is pressed. Control-P is for something else, and zero is ignored. -/
def key (c : Byte) (ed : Editor) : Editor :=
  if c = ctrlP ∨ c = 0 then ed
  else if c = ctrlU then { ed with line := [] }
  else if c = ctrlH ∨ c = delete then { ed with line := ed.line.dropLast }
  else if ed.unread < inputBufSize then
    ed.insert (if c = carriageReturn then newline else c)
  else ed

def take (ed : Editor) : Editor := { ed with taken := ed.taken + 1 }

@[simp]
theorem key_taken (c : Byte) (ed : Editor) : (ed.key c).taken = ed.taken := by
  unfold key insert
  dsimp only
  split_ifs <;> rfl

theorem out_key (c : Byte) (ed : Editor) : ed.out <+: (ed.key c).out := by
  unfold key insert
  dsimp only
  split_ifs <;> first | exact prefix_refl _ | exact prefix_append _ _

end Editor

open Editor

/-! ## The ring follows the editor -/

structure Shows (x : Input) (ed : Editor) : Prop where
  taken_le : ed.taken ≤ ed.out.length
  committed : (x.w - x.r).toNat = ed.out.length - ed.taken
  typed : (x.e - x.r).toNat = ed.unread
  fits : ed.unread ≤ inputBufSize
  cells : Ring.contents inputBufSize x.buf x.r ed.unread = ed.out.drop ed.taken ++ ed.line
  plain : ∀ c ∈ ed.line, c ≠ newline ∧ c ≠ ctrlD

theorem inputBufSize_dvd : inputBufSize ∣ 2 ^ 32 := ⟨2 ^ 25, by decide⟩

namespace Shows

variable {x : Input} {ed : Editor} {c : Byte} (h : Shows x ed)

include h

theorem line_length : (x.e - x.w).toNat = ed.line.length := by
  have hw := stop_eq h.committed
  have he := stop_eq h.typed
  have hle : ed.line.length ≤ inputBufSize := (Nat.le_add_left _ _).trans h.fits
  refine (length_eq_iff (hle.trans_lt (by decide))).mpr ?_
  rw [hw, he, BitVec.add_assoc, unread, BitVec.ofNat_add]

theorem e_ne_w : x.e ≠ x.w ↔ ed.line ≠ [] := by
  rw [not_iff_not, ← List.length_eq_zero_iff, ← h.line_length, Ring.length_eq_zero_iff]
  exact eq_comm

theorem concat (hline : ed.line ≠ []) :
    ∃ n, ed.unread = n + 1 ∧ (x.e - 1 - x.r).toNat = n ∧
      Ring.contents inputBufSize x.buf x.r n ++ [x.buf ((x.e - 1).toNat % inputBufSize)] =
        ed.out.drop ed.taken ++ ed.line := by
  have hpos := length_pos_of_ne_nil hline
  have htyped := h.typed
  obtain ⟨n, hn⟩ : ∃ n, ed.unread = n + 1 := ⟨ed.unread - 1, by unfold unread; omega⟩
  have hdec : (x.e - 1 - x.r).toNat + 1 = (x.e - x.r).toNat := length_dec (by omega)
  have hlast : (x.e - 1 - x.r).toNat = n := by omega
  refine ⟨n, hn, hlast, ?_⟩
  rw [← h.cells, hn, contents_succ, stop_eq hlast, cell_add inputBufSize_dvd]

theorem backspace (hline : ed.line ≠ []) :
    Shows { x with e := x.e - 1 } { ed with line := ed.line.dropLast } := by
  obtain ⟨n, hn, hlast, hcells⟩ := h.concat hline
  have hpos := length_pos_of_ne_nil hline
  have hunread : ({ ed with line := ed.line.dropLast } : Editor).unread = n := by
    simp only [unread, length_dropLast] at hn ⊢
    omega
  have hfits := h.fits
  refine ⟨h.taken_le, h.committed, hlast.trans hunread.symm, by omega, ?_, fun c hc => ?_⟩
  · rw [hunread, ← dropLast_append_of_ne_nil hline, ← hcells, dropLast_concat]
  · exact h.plain c (mem_of_mem_dropLast hc)

theorem last_ne_newline (hline : ed.line ≠ []) :
    x.buf ((x.e - 1).toNat % inputBufSize) ≠ newline := by
  obtain ⟨n, -, -, hcells⟩ := h.concat hline
  have hlast : (ed.out.drop ed.taken ++ ed.line).getLast (by simp [hline]) =
      ed.line.getLast hline := getLast_append_of_ne_nil _ hline
  have hcell : x.buf ((x.e - 1).toNat % inputBufSize) = ed.line.getLast hline := by
    rw [← hlast]
    simp [← hcells]
  rw [hcell]
  exact (h.plain _ (getLast_mem hline)).1

theorem killLine (k : ℕ) (hk : ed.line.length = k) :
    Shows (Input.killLine k x) { ed with line := [] } := by
  induction k generalizing x ed with
  | zero =>
    have hnil : ed.line = [] := List.length_eq_zero_iff.mp hk
    rwa [Input.killLine, ← hnil]
  | succ k ih =>
    have hline : ed.line ≠ [] := ne_nil_of_length_eq_add_one hk
    rw [Input.killLine, if_pos ⟨h.e_ne_w.mpr hline, h.last_ne_newline hline⟩]
    have hrest := ih (h.backspace hline) (by simp [hk])
    exact hrest

theorem store (hroom : ed.unread < inputBufSize) (c : Byte) : Shows (x.store c) (ed.insert c) := by
  have hunread : ({ ed with line := ed.line ++ [c] } : Editor).unread = ed.unread + 1 := by
    simp only [unread, length_append, length_singleton]
    omega
  have htyped : (x.e + 1 - x.r).toNat = ed.unread + 1 := by
    have hsmall : (x.e - x.r).toNat + 1 < 2 ^ 32 := by
      rw [h.typed]
      exact (Nat.succ_le_of_lt hroom).trans_lt (by decide)
    rw [length_push hsmall, h.typed]
  have hcells : contents inputBufSize
      (update x.buf (x.e.toNat % inputBufSize) c) x.r (ed.unread + 1) =
        ed.out.drop ed.taken ++ (ed.line ++ [c]) := by
    rw [contents_push inputBufSize_dvd x.buf h.typed hroom c, h.cells, append_assoc]
  unfold Input.store Editor.insert
  simp only [htyped, hunread]
  split_ifs with hend
  · -- committed: the line may end in a newline or in control-D
    have hle := h.taken_le
    have hlong : ({ ed with line := ed.line ++ [c] } : Editor).commit.unread = ed.unread + 1 := by
      simp only [commit, unread, length_append, length_singleton, length_nil]
      omega
    refine ⟨hle.trans (by simp [commit]), ?_, ?_, by rw [hlong]; exact hroom, ?_,
      fun d hd => by cases hd⟩
    · exact htyped.trans hlong.symm
    · exact htyped.trans hlong.symm
    · rw [hlong]
      refine hcells.trans ?_
      rw [← drop_append_of_le_length hle]
      exact (append_nil _).symm
  · refine ⟨h.taken_le, h.committed, htyped.trans hunread.symm, hunread ▸ hroom, ?_, fun d hd => ?_⟩
    · rw [hunread]
      exact hcells
    · rcases mem_append.mp hd with hd | hd
      · exact h.plain d hd
      · rw [mem_singleton.mp hd]
        exact ⟨fun hc => hend (.inl hc), fun hc => hend (.inr (.inl hc))⟩

/-- **The ring follows the editor** when a key is pressed. -/
theorem key (c : Byte) : Shows (x.consoleintr c) (ed.key c) := by
  unfold Input.consoleintr Editor.key
  by_cases hp : c = ctrlP
  · rwa [if_pos hp, if_pos (.inl hp)]
  by_cases hzero : c = 0
  · subst hzero
    simpa using h
  rw [if_neg hp, if_neg (not_or.mpr ⟨hp, hzero⟩)]
  by_cases hu : c = ctrlU
  · rw [if_pos hu, if_pos hu]
    exact h.killLine _ h.line_length.symm
  rw [if_neg hu, if_neg hu]
  by_cases hback : c = ctrlH ∨ c = delete
  · rw [if_pos hback, if_pos hback]
    by_cases hline : ed.line = []
    · rw [if_neg (by simpa [hline] using h.e_ne_w)]
      have hsame : ed.line.dropLast = ed.line := by simp [hline]
      rwa [hsame]
    · rw [if_pos (h.e_ne_w.mpr hline)]
      exact h.backspace hline
  rw [if_neg hback, if_neg hback, h.typed]
  by_cases hroom : ed.unread < inputBufSize
  · rw [if_pos ⟨hzero, hroom⟩, if_pos hroom]
    exact h.store hroom _
  · rwa [if_neg fun hc => hroom hc.2, if_neg hroom]

/-- **The ring follows the editor** when a byte is taken, which is the next one committed. -/
theorem take (hsome : x.r ≠ x.w) :
    ed.out[ed.taken]? = some (x.buf (x.r.toNat % inputBufSize)) ∧
      Shows { x with r := x.r + 1 } ed.take := by
  have hpos : 0 < (x.w - x.r).toNat := by
    refine Nat.pos_of_ne_zero fun hzero => hsome ?_
    exact Ring.length_eq_zero_iff.mp hzero
  have hcommitted := h.committed
  have htyped := h.typed
  have hfits := h.fits
  have hlt : ed.taken < ed.out.length := by omega
  have hunread : ed.take.unread + 1 = ed.unread := by
    simp only [Editor.take, unread]
    omega
  have hcells := h.cells
  rw [← hunread, contents_pop inputBufSize_dvd, List.drop_eq_getElem_cons hlt,
    List.cons_append, List.cons.injEq] at hcells
  refine ⟨by rw [List.getElem?_eq_getElem hlt, hcells.1], hlt, ?_, ?_, by omega, hcells.2, h.plain⟩
  · have hpop := length_pop hpos
    change (x.w - (x.r + 1)).toNat = ed.out.length - (ed.taken + 1)
    omega
  · have hpop : (x.e - (x.r + 1)).toNat + 1 = (x.e - x.r).toNat := length_pop (by omega)
    change (x.e - (x.r + 1)).toNat = _
    omega

theorem line_cells : Ring.contents inputBufSize x.buf x.w (x.e - x.w).toNat = ed.line := by
  have hw := stop_eq h.committed
  rw [h.line_length, hw, ← contents_drop inputBufSize_dvd]
  have hlen : ed.out.length - ed.taken + ed.line.length = ed.unread := rfl
  rw [hlen, h.cells]
  exact drop_left' (by simp)

end Shows

/-! ## The readers -/

/-- Where a reader is in `consoleread`, with its `target` and what `n` is by now. -/
inductive Pc
  | idle
  | start (n : ℤ)
  | loop (target n : ℤ)
  | asleep (target n : ℤ)
  | done (result : ℤ)
deriving DecidableEq

structure Console (N : ℕ) where
  input : Input
  lock : Option (Fin N)
  pc : Fin N → Pc

inductive Act (N : ℕ)
  /-- `consoleintr(c)`. -/
  | key (c : Byte)
  /-- A reader calls `consoleread` for `n` bytes. -/
  | call (i : Fin N) (n : ℤ)
  /-- A reader takes the lock, at the start or when it has been woken. -/
  | acquire (i : Fin N)
  | round (i : Fin N) (killed : Bool)
  | ret (i : Fin N)

inductive Obs (N : ℕ)
  | key (c : Byte)
  | took (i : Fin N) (c : Byte)
  | eof (i : Fin N)
deriving DecidableEq

namespace Console

variable {N : ℕ}

/-- The reader goes on at `pc`. -/
def goto (s : Console N) (i : Fin N) (pc : Pc) : Console N := { s with pc := update s.pc i pc }

def advance (s : Console N) : Console N := { s with input := { s.input with r := s.input.r + 1 } }

def putBack (s : Console N) : Console N := { s with input := { s.input with r := s.input.r - 1 } }

/-- One round of the loop of `consoleread`, with the lock. -/
def round (s : Console N) (i : Fin N) (killed : Bool) (target n : ℤ) : Option (Obs N) × Console N :=
  if n ≤ 0 then (none, s.goto i (.done (target - n)))
  else if s.input.r = s.input.w then
    if killed then (none, s.goto i (.done (-1)))
    else (none, { s.goto i (.asleep target n) with lock := none })
  else
    let c := s.input.buf (s.input.r.toNat % inputBufSize)
    if c = ctrlD then
      if n < target then (none, s.advance.putBack.goto i (.done (target - n)))
      else (some (.eof i), s.advance.goto i (.done (target - n)))
    else
      (some (.took i c), s.advance.goto i
        (if c = newline then .done (target - (n - 1)) else .loop target (n - 1)))

def step (s : Console N) : Act N → Option (Option (Obs N) × Console N)
  | .key c =>
    if s.lock = none then some (some (.key c), { s with input := s.input.consoleintr c }) else none
  | .call i n =>
    match s.pc i with
    | .idle => some (none, s.goto i (.start n))
    | _ => none
  | .acquire i =>
    if s.lock = none then
      match s.pc i with
      | .start n => some (none, { s.goto i (.loop n n) with lock := some i })
      | .asleep target n => some (none, { s.goto i (.loop target n) with lock := some i })
      | _ => none
    else none
  | .round i killed =>
    match s.pc i with
    | .loop target n => some (s.round i killed target n)
    | _ => none
  | .ret i =>
    match s.pc i with
    | .done _ => some (none, { s.goto i .idle with lock := none })
    | _ => none

def boot : Console N := ⟨⟨fun _ => 0, 0, 0, 0⟩, none, fun _ => .idle⟩

end Console

/-- The system, with what can be seen as labels beside the steps. -/
def console (N : ℕ) : LTS (Console N) (Act N × Option (Obs N)) where
  init s := s = .boot
  step s a s' := s.step a.1 = some (a.2, s')

def observed {N : ℕ} (as : List (Act N × Option (Obs N))) : List (Obs N) := as.filterMap (·.2)

def Editor.see {N : ℕ} (ed : Editor) : Obs N → Editor
  | .key c => ed.key c
  | .took _ _ | .eof _ => ed.take

def Editor.after {N : ℕ} (os : List (Obs N)) : Editor := os.foldl Editor.see ⟨[], [], 0⟩

def Obs.byte {N : ℕ} : Obs N → Option Byte
  | .key _ => none
  | .took _ c => some c
  | .eof _ => some ctrlD

/-- What the readers take during a run, in order. -/
def received {N : ℕ} (os : List (Obs N)) : List Byte := os.filterMap Obs.byte

section Snoc

variable {N : ℕ} (as : List (Act N × Option (Obs N))) (a : Act N) (os : List (Obs N)) (o : Obs N)

theorem observed_quiet : observed (as ++ [(a, none)]) = observed as := by
  simp [observed, filterMap_append]

theorem observed_snoc : observed (as ++ [(a, some o)]) = observed as ++ [o] := by
  simp [observed, filterMap_append]

theorem after_snoc : Editor.after (os ++ [o]) = (Editor.after os).see o := by
  simp [Editor.after, foldl_append]

end Snoc

/-- What holds after every run: the ring shows the editor, the readers have taken the first of the
bytes committed, and a reader's `n` is at most its `target`. -/
structure Follows {N : ℕ} (os : List (Obs N)) (s : Console N) : Prop where
  ring : Shows s.input (.after os)
  taken : received os = (Editor.after os).out.take (Editor.after os).taken
  target : ∀ i t n, s.pc i = .loop t n ∨ s.pc i = .asleep t n → n ≤ t

namespace Follows

variable {N : ℕ} {os : List (Obs N)} {s s' : Console N} {i : Fin N}

theorem boot : Follows (N := N) [] .boot where
  ring :=
    { taken_le := le_refl _
      committed := by simp [Console.boot, Editor.after]
      typed := by simp [Console.boot, Editor.after, unread]
      fits := Nat.zero_le _
      cells := rfl
      plain := by simp [Editor.after] }
  taken := rfl
  target := by simp [Console.boot]

theorem goto (h : Follows os s) {pc : Pc} (hinput : s'.input = s.input)
    (hpc : ∀ j, s'.pc j = if j = i then pc else s.pc j)
    (htarget : ∀ t n, pc = .loop t n ∨ pc = .asleep t n → n ≤ t) : Follows os s' := by
  refine ⟨hinput ▸ h.ring, h.taken, fun j t n hj => ?_⟩
  rw [hpc j] at hj
  split_ifs at hj with hji
  · exact htarget t n hj
  · exact h.target j t n hj

theorem key (h : Follows os s) (c : Byte) :
    Follows (os ++ [.key c]) { s with input := s.input.consoleintr c } := by
  refine ⟨?_, ?_, h.target⟩
  · rw [after_snoc]
    exact h.ring.key c
  · obtain ⟨l, hl⟩ := out_key c (Editor.after os)
    rw [after_snoc]
    simp only [Editor.see, ← hl, key_taken]
    rw [take_append_of_le_length h.ring.taken_le, ← h.taken]
    simp [received, Obs.byte]

theorem advance (h : Follows os s) {o : Obs N} {pc : Pc} (hsome : s.input.r ≠ s.input.w)
    (ho : o.byte = some (s.input.buf (s.input.r.toNat % inputBufSize)))
    (htarget : ∀ t n, pc = .loop t n ∨ pc = .asleep t n → n ≤ t) :
    Follows (os ++ [o]) (s.advance.goto i pc) := by
  obtain ⟨hbyte, hring⟩ := h.ring.take hsome
  have hsee : (Editor.after os).see o = (Editor.after os).take := by
    cases o with
    | key c => cases ho
    | took j c => rfl
    | eof j => rfl
  refine ⟨?_, ?_, fun j t n hj => ?_⟩
  · rw [after_snoc, hsee]
    exact hring
  · rw [after_snoc, hsee, received, filterMap_append, ← received, h.taken]
    simp only [Editor.take, take_add_one, hbyte, ho, filterMap_cons, filterMap_nil, toList_some]
  · change update s.pc i pc j = _ ∨ update s.pc i pc j = _ at hj
    by_cases hji : j = i
    · subst hji
      rw [update_self] at hj
      exact htarget t n hj
    · rw [update_of_ne hji] at hj
      exact h.target j t n hj

theorem round (h : Follows os s) (killed : Bool) {t n : ℤ} (hpc : s.pc i = .loop t n) :
    Follows (os ++ (s.round i killed t n).1.toList) (s.round i killed t n).2 := by
  have hle : n ≤ t := h.target i t n (.inl hpc)
  unfold Console.round
  dsimp only
  split_ifs with hn hempty hkilled hd
  · rw [toList_none, append_nil]
    exact h.goto rfl (fun j => update_apply ..) (by simp)
  · rw [toList_none, append_nil]
    exact h.goto rfl (fun j => update_apply ..) (by simp)
  · rw [toList_none, append_nil]
    refine h.goto rfl (fun j => update_apply ..) fun t' n' hj => ?_
    rcases hj with hj | hj
    · cases hj
    · cases hj
      exact hle
  · -- the control-D is put back
    rw [toList_none, append_nil]
    refine h.goto ?_ (fun j => update_apply ..) (by simp)
    simp [Console.advance, Console.putBack, Console.goto]
  · exact h.advance hempty (by rw [Obs.byte, hd]) (by simp)
  · exact h.advance hempty rfl (by simp)
  · refine h.advance hempty rfl fun t' n' hj => ?_
    rcases hj with hj | hj
    · cases hj
      omega
    · cases hj

/-- **Every step** keeps that. -/
theorem step (h : Follows os s) {a : Act N} {o : Option (Obs N)} (hs : s.step a = some (o, s')) :
    Follows (os ++ o.toList) s' := by
  cases a with
  | key c =>
    rw [Console.step, ite_none_right_eq_some] at hs
    cases hs.2
    exact h.key c
  | call i n | ret i =>
    simp only [Console.step] at hs
    split at hs
    · cases hs
      rw [toList_none, append_nil]
      exact h.goto rfl (fun j => update_apply ..) (by simp)
    · cases hs
  | acquire i =>
    rw [Console.step, ite_none_right_eq_some] at hs
    obtain ⟨-, hs⟩ := hs
    split at hs
    · cases hs
      rw [toList_none, append_nil]
      refine h.goto rfl (fun j => update_apply ..) fun t' n' hj => ?_
      rcases hj with hj | hj
      · cases hj
        exact le_refl _
      · cases hj
    · rename_i target n hpc
      cases hs
      rw [toList_none, append_nil]
      refine h.goto rfl (fun j => update_apply ..) fun t' n' hj => ?_
      rcases hj with hj | hj
      · cases hj
        exact h.target i target n (.inr hpc)
      · cases hj
    · cases hs
  | round i killed =>
    simp only [Console.step] at hs
    split at hs
    · rename_i target n hpc
      have hround : s.round i killed target n = (o, s') := some.inj hs
      have hnext := h.round killed hpc
      rw [hround] at hnext
      exact hnext
    · cases hs

end Follows

/-- **Every run** follows the editor. -/
theorem follows {N : ℕ} {as : List (Act N × Option (Obs N))} {s : Console N}
    (h : (console N).Run .boot as s) : Follows (observed as) s := by
  refine h.history (P := fun as s => Follows (observed as) s) (fun bs s a s' ih hstep => ?_) ?_
  · obtain ⟨a, o⟩ := a
    have hs := ih.step (show s.step a = some (o, s') from hstep)
    cases o with
    | none =>
      rw [observed_quiet]
      simpa using hs
    | some o =>
      rw [observed_snoc]
      exact hs
  · exact .boot

/-! ## How a read ends -/

section Ends

variable {N : ℕ} {s s' : Console N} {i : Fin N} {t n : ℤ}

theorem step_loop {a : Act N} {o : Option (Obs N)} (hs : s.step a = some (o, s'))
    (hpc : s.pc i = .loop t n) : (∃ killed, a = .round i killed) ∨ s'.pc i = .loop t n := by
  have hgoto : ∀ j pc, j ≠ i → (s.goto j pc).pc i = .loop t n := fun j pc hj =>
    (update_of_ne (Ne.symm hj) ..).trans hpc
  cases a with
  | key c =>
    rw [Console.step, ite_none_right_eq_some] at hs
    cases hs.2
    exact .inr hpc
  | call j m | ret j =>
    simp only [Console.step] at hs
    split at hs
    · rename_i hj
      cases hs
      exact .inr (hgoto j _ fun h => by rw [h, hpc] at hj; cases hj)
    · cases hs
  | acquire j =>
    rw [Console.step, ite_none_right_eq_some] at hs
    obtain ⟨-, hs⟩ := hs
    split at hs
    · rename_i hj
      cases hs
      exact .inr (hgoto j _ fun h => by rw [h, hpc] at hj; cases hj)
    · rename_i hj
      cases hs
      exact .inr (hgoto j _ fun h => by rw [h, hpc] at hj; cases hj)
    · cases hs
  | round j killed =>
    by_cases hj : j = i
    · exact .inl ⟨killed, by rw [hj]⟩
    · simp only [Console.step] at hs
      split at hs
      · have hround := some.inj hs
        refine .inr ?_
        unfold Console.round at hround
        dsimp only at hround
        split_ifs at hround <;> cases hround <;> exact hgoto j _ hj
      · cases hs

/-- How a read goes on: it ends with no bytes when it takes a control-D, and only then; and it
takes one only when it has received nothing. -/
theorem round_ends {killed : Bool} {o : Option (Obs N)} (hle : n ≤ t)
    (hs : s.round i killed t n = (o, s')) :
    (∀ j c, o = some (.took j c) → c ≠ ctrlD) ∧
      (∀ j, o = some (.eof j) → j = i ∧ t = n ∧ s'.pc i = .done 0) ∧
        (0 < t → s'.pc i = .done 0 → o = some (.eof i)) := by
  have hgoto : ∀ (s : Console N) pc, (s.goto i pc).pc i = pc := fun s pc =>
    update_self ..
  unfold Console.round at hs
  dsimp only at hs
  split_ifs at hs with hn hempty hkilled hd hpart hline
  · cases hs
    refine ⟨by simp, by simp, fun ht hdone => ?_⟩
    have := Pc.done.inj ((hgoto s _).symm.trans hdone)
    omega
  · cases hs
    refine ⟨by simp, by simp, fun ht hdone => ?_⟩
    have := Pc.done.inj ((hgoto s _).symm.trans hdone)
    omega
  · cases hs
    exact ⟨by simp, by simp, fun ht hdone => by cases (hgoto s _).symm.trans hdone⟩
  · cases hs
    refine ⟨by simp, by simp, fun ht hdone => ?_⟩
    have := Pc.done.inj ((hgoto _ _).symm.trans hdone)
    omega
  · cases hs
    have htn : t = n := by omega
    refine ⟨by simp, fun j hj => ⟨?_, htn, ?_⟩, fun _ _ => rfl⟩
    · cases hj
      rfl
    · rw [hgoto, htn, sub_self]
  · cases hs
    refine ⟨fun j c hc => ?_, by simp, fun ht hdone => ?_⟩
    · cases hc
      exact hd
    · have := Pc.done.inj ((hgoto _ _).symm.trans hdone)
      omega
  · cases hs
    refine ⟨fun j c hc => ?_, by simp, fun ht hdone => ?_⟩
    · cases hc
      exact hd
    · cases (hgoto _ _).symm.trans hdone

end Ends

theorem step_takes {N : ℕ} {s s' : Console N} {a : Act N} {o : Obs N}
    (hs : s.step a = some (some o, s')) (ho : o.byte.isSome) :
    ∃ i killed t n, a = .round i killed ∧ s.pc i = .loop t n ∧
      s.round i killed t n = (some o, s') := by
  cases a with
  | key c =>
    rw [Console.step, ite_none_right_eq_some] at hs
    cases hs.2
    cases ho
  | call i m | ret i =>
    simp only [Console.step] at hs
    split at hs <;> cases hs
  | acquire i =>
    rw [Console.step, ite_none_right_eq_some] at hs
    obtain ⟨-, hs⟩ := hs
    split at hs <;> cases hs
  | round i killed =>
    simp only [Console.step] at hs
    split at hs
    · rename_i t n hpc
      exact ⟨i, killed, t, n, rfl, hpc, some.inj hs⟩
    · cases hs

/-- **The line discipline.** After every run, `w` and `e` are in order and at most the ring's size
after `r`; the bytes from `w` to `e` have neither a newline nor a control-D; what the readers have
taken is a first part of what the editor has committed; and a control-D is taken exactly by the
reads that end with no bytes. (One that comes after other bytes stays for the next read.) -/
theorem line_discipline {N : ℕ} {as : List (Act N × Option (Obs N))} {s : Console N}
    (h : (console N).Run .boot as s) :
    ((s.input.w - s.input.r).toNat ≤ (s.input.e - s.input.r).toNat ∧
        (s.input.e - s.input.r).toNat ≤ inputBufSize) ∧
      (∀ c ∈ Ring.contents inputBufSize s.input.buf s.input.w (s.input.e - s.input.w).toNat,
        c ≠ newline ∧ c ≠ ctrlD) ∧
      received (observed as) <+: (Editor.after (observed as)).out ∧
      ∀ a o s', (console N).step s (a, o) s' →
        (∀ i c, o = some (.took i c) → c ≠ ctrlD) ∧
        (∀ i, o = some (.eof i) → (∃ n, s.pc i = .loop n n) ∧ s'.pc i = .done 0) ∧
        (∀ i t n, s.pc i = .loop t n → 0 < t → s'.pc i = .done 0 → o = some (.eof i)) := by
  have hf := follows h
  refine ⟨⟨?_, ?_⟩, ?_, ?_, fun a o s' hs => ⟨fun i c ho => ?_, fun i ho => ?_,
    fun i t n hpc ht hdone => ?_⟩⟩
  · rw [hf.ring.committed, hf.ring.typed]
    exact Nat.le_add_right ..
  · rw [hf.ring.typed]
    exact hf.ring.fits
  · rw [hf.ring.line_cells]
    exact hf.ring.plain
  · rw [hf.taken]
    exact take_prefix ..
  · subst ho
    obtain ⟨j, killed, t, n, -, hpc, hround⟩ := step_takes hs rfl
    exact (round_ends (hf.target j t n (.inl hpc)) hround).1 i c rfl
  · subst ho
    obtain ⟨j, killed, t, n, -, hpc, hround⟩ := step_takes hs rfl
    obtain ⟨rfl, rfl, hdone⟩ := (round_ends (hf.target j t n (.inl hpc)) hround).2.1 i rfl
    exact ⟨⟨t, hpc⟩, hdone⟩
  · rcases step_loop hs hpc with ⟨killed, rfl⟩ | hsame
    · have hround : s.round i killed t n = (o, s') := by
        have hs' : s.step (.round i killed) = some (o, s') := hs
        simp only [Console.step, hpc] at hs'
        exact some.inj hs'
      exact (round_ends (hf.target i t n (.inl hpc)) hround).2.2 ht hdone
    · rw [hsame] at hdone
      cases hdone

def Console.labelled {N : ℕ} (s : Console N) (a : Act N) :
    Option ((Act N × Option (Obs N)) × Console N) :=
  (s.step a).map fun r => ((a, r.1), r.2)

theorem run_of_trace {N : ℕ} {s s' : Console N} {bs : List (Act N)}
    {as : List (Act N × Option (Obs N))} (h : LTS.trace Console.labelled s bs = some (as, s')) :
    (console N).Run s as s' := by
  refine LTS.Run.of_trace (fun s b a s' hb => ?_) h
  obtain ⟨r, hr, heq⟩ := map_eq_some_iff.mp hb
  cases heq
  exact hr

/-- Two letters are typed, one is erased, and a control-D follows. The first read takes the letter
and leaves the control-D; the second has the lock. -/
def letterThenEof : List (Act 1) :=
  [.key 97, .key 98, .key delete, .key ctrlD, .call 0 5, .acquire 0, .round 0 false,
    .round 0 false, .ret 0, .call 0 5, .acquire 0]

theorem line_discipline_letterThenEof :
    ∃ as s, LTS.trace Console.labelled .boot letterThenEof = some (as, s) ∧
      received (observed as) = [97] ∧ received (observed as) <+: [97, ctrlD] ∧
        ∃ s', s.step (.round 0 false) = some (some (.eof 0), s') ∧ s'.pc 0 = .done 0 := by
  obtain ⟨⟨as, s⟩, hrun, hvalues⟩ : ∃ r,
      LTS.trace Console.labelled .boot letterThenEof = some r ∧
        (received (observed r.1), (Editor.after (observed r.1)).out,
          (r.2.step (.round 0 false)).map (·.1)) = ([97], [97, ctrlD], some (some (.eof 0))) := by
    refine map_eq_some_iff.mp ?_
    decide +kernel
  simp only [Prod.mk.injEq, map_eq_some_iff] at hvalues
  obtain ⟨hreceived, hout, ⟨o, s'⟩, hstep, rfl⟩ := hvalues
  obtain ⟨-, -, hprefix, hends⟩ := line_discipline (run_of_trace hrun)
  exact ⟨as, s, hrun, hreceived, hout ▸ hprefix, s', hstep, ((hends _ _ _ hstep).2.1 0 rfl).2⟩

end Xv6.Cons
