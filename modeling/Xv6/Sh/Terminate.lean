import Xv6.Sh.Grammar

/-!
# The strings of a parsed line

`nulterminate` of `user/sh.c`. The words of a tree are places in the line; the function writes a 0
behind each of them, over a blank or a symbol that the parser has passed, so that `exec` and `open`
find strings there. It goes through the tree and not through the line. The order does not matter:
a word is a longest run of the bytes of words, so that the byte behind one is in no other.
-/

namespace Xv6.Sh

open List

/-- `nulterminate`, on the bytes of the line with the 0 at its end. -/
def nulterminate : Cmd Span → List UInt8 → List UInt8
  | .exec argv, buf => argv.foldl (fun buf w => buf.set w.stop 0) buf
  | .redir cmd file _ _, buf => (nulterminate cmd buf).set file.stop 0
  | .pipe left right, buf => nulterminate right (nulterminate left buf)
  | .list left right, buf => nulterminate right (nulterminate left buf)
  | .back cmd, buf => nulterminate cmd buf

namespace Cmd

variable {α β : Type}

/-- The words of a tree, files of redirections among them. -/
def words : Cmd α → List α
  | exec argv => argv
  | redir cmd file _ _ => cmd.words ++ [file]
  | pipe left right => left.words ++ right.words
  | list left right => left.words ++ right.words
  | back cmd => cmd.words

theorem map_congr {f g : α → β} : ∀ {c : Cmd α}, (∀ w ∈ c.words, f w = g w) → c.map f = c.map g
  | exec _, h => congrArg exec (map_congr_left h)
  | redir _ file mode fd, h => by
    rw [map, map, map_congr fun w hw => h w (mem_append_left _ hw),
      h file (mem_append_right _ mem_cons_self)]
  | pipe _ _, h => congrArg₂ pipe (map_congr fun w hw => h w (mem_append_left _ hw))
      (map_congr fun w hw => h w (mem_append_right _ hw))
  | list _ _, h => congrArg₂ list (map_congr fun w hw => h w (mem_append_left _ hw))
      (map_congr fun w hw => h w (mem_append_right _ hw))
  | back _, h => congrArg back (map_congr h)

theorem mem_words_addArg {w w' : α} {c : Cmd α} (h : w' ∈ (c.addArg w).words) :
    w' ∈ c.words ∨ w' = w := by
  induction c with
  | exec argv => exact (mem_append.mp h).imp id mem_singleton.mp
  | redir c file mode fd ih =>
    rcases mem_append.mp h with h | h
    · exact (ih h).imp (mem_append_left _) id
    · exact Or.inl (mem_append_right _ h)
  | _ => exact Or.inl h

end Cmd

/-- The place is that of a longest run of the bytes of words. -/
def IsRun (buf : List UInt8) (w : Span) : Prop := w.stop = skip isWord buf w.start

/-! ### The words of the parser -/

section Runs

variable {buf : List UInt8} {i : ℕ} {cmd : Cmd Span}

def AllRuns (buf : List UInt8) (c : Cmd Span) : Prop := ∀ w ∈ c.words, IsRun buf w

theorem AllRuns.append {c d e : Cmd Span} (hc : AllRuns buf c) (hd : AllRuns buf d)
    (h : e.words = c.words ++ d.words) : AllRuns buf e := fun w hw =>
  (mem_append.mp (h ▸ hw)).elim (hc w) (hd w)

theorem AllRuns.redircmd {tok : Tok} {file : Span} (hc : AllRuns buf cmd) (hf : IsRun buf file) :
    AllRuns buf (Sh.redircmd tok cmd file) := by
  have hd : AllRuns buf (.exec [file]) := fun w hw => mem_singleton.mp hw ▸ hf
  unfold Sh.redircmd
  split
  · exact hc.append hd rfl
  · exact hc.append hd rfl
  · exact hc.append hd rfl
  · exact hc

theorem AllRuns.addArg {w : Span} (hc : AllRuns buf cmd) (hw : IsRun buf w) :
    AllRuns buf (cmd.addArg w) := fun w' hw' =>
  (Cmd.mem_words_addArg hw').elim (hc w') (fun h => h ▸ hw)

theorem gettoken_isRun : Runs (gettoken buf) i (fun _ : Err => True) fun r _ =>
    r.1 = .word → IsRun buf r.2 := by
  intro h
  change (scan buf (skip isSpace buf i)).1 = .word at h
  change (scan buf (skip isSpace buf i)).2 = skip isWord buf (skip isSpace buf i)
  rw [scan] at h ⊢
  cases hsym : single (buf.getD (skip isSpace buf i) 0) with
  | some sym =>
    rw [hsym] at h
    split_ifs at h
  | none =>
    rw [hsym] at h
    split_ifs at h ⊢
    rfl

/-- The words of the trees that the program returns are runs. -/
def Makes (buf : List UInt8) (parse : ParseM (Cmd Span)) : Prop :=
  ∀ i, Runs parse i (fun _ => True) fun c _ => AllRuns buf c

namespace Makes

variable {parse : ParseM (Cmd Span)} {α : Type}

theorem bind (h : Makes buf parse) {f : Cmd Span → ParseM (Cmd Span)}
    (hf : ∀ c, AllRuns buf c → Makes buf (f c)) : Makes buf (parse >>= f) := fun i =>
  (h i).bind fun c j hc => hf c hc j

theorem after {x : ParseM α} {f : α → ParseM (Cmd Span)} (h : ∀ a, Makes buf (f a)) :
    Makes buf (x >>= f) := fun i => (Runs.any x i).bind fun a j _ => h a j

theorem word {f : Tok × Span → ParseM (Cmd Span)}
    (h : ∀ tok w, (tok = .word → IsRun buf w) → Makes buf (f (tok, w))) :
    Makes buf (gettoken buf >>= f) := fun _ => gettoken_isRun.bind fun r j hr => h r.1 r.2 hr j

theorem ret (h : AllRuns buf cmd) : Makes buf (pure cmd) := fun _ => h

theorem throw (e : Err) : Makes buf (throw e) := fun _ => trivial

end Makes

theorem parseredirs_runs (fuel : ℕ) : ∀ {cmd : Cmd Span}, AllRuns buf cmd →
    Makes buf (parseredirs buf fuel cmd) := by
  induction fuel with
  | zero => exact fun _ => .throw _
  | succ fuel ih =>
    intro cmd hcmd
    rw [parseredirs]
    refine .after fun b => ?_
    split
    · refine .after fun r => .word fun tok file h => ?_
      dsimp only
      split_ifs with hword
      · exact .throw _
      · exact ih (hcmd.redircmd (h (not_not.mp hword)))
    · exact .ret hcmd

theorem parseargs_runs (fuel : ℕ) : ∀ {argc : ℕ} {cmd : Cmd Span}, AllRuns buf cmd →
    Makes buf (parseargs buf fuel argc cmd) := by
  induction fuel with
  | zero => exact fun _ => .throw _
  | succ fuel ih =>
    intro argc cmd hcmd
    rw [parseargs]
    refine .after fun b => ?_
    split
    · exact .ret hcmd
    · refine .word fun tok w h => ?_
      dsimp only
      split_ifs with heof hword hmax
      · exact .ret hcmd
      · exact .throw _
      · exact .throw _
      · exact (parseredirs_runs _ (hcmd.addArg (h (not_not.mp hword)))).bind fun _ hc => ih hc

theorem parsebacks_runs (fuel : ℕ) : ∀ {cmd : Cmd Span}, AllRuns buf cmd →
    Makes buf (parsebacks buf fuel cmd) := by
  induction fuel with
  | zero => exact fun _ => .throw _
  | succ fuel ih =>
    intro cmd hcmd
    rw [parsebacks]
    refine .after fun b => ?_
    split
    · exact .after fun _ => ih hcmd
    · exact .ret hcmd

/-- **The words of the parser's trees** are longest runs of the bytes of words. -/
theorem parse_runs (fuel : ℕ) : Makes buf (parseline buf fuel) ∧ Makes buf (parsepipe buf fuel) ∧
    Makes buf (parseexec buf fuel) ∧ Makes buf (parseblock buf fuel) := by
  induction fuel with
  | zero => exact ⟨.throw _, .throw _, .throw _, .throw _⟩
  | succ fuel ih =>
    obtain ⟨ihline, ihpipe, ihexec, ihblock⟩ := ih
    refine ⟨?_, ?_, ?_, ?_⟩
    · rw [parseline]
      refine ihpipe.bind fun c hc => (parsebacks_runs _ hc).bind fun c hc => .after fun b => ?_
      split
      · exact .after fun _ => ihline.bind fun d hd => .ret (hc.append hd rfl)
      · exact .ret hc
    · rw [parsepipe]
      refine ihexec.bind fun c hc => .after fun b => ?_
      split
      · exact .after fun _ => ihpipe.bind fun d hd => .ret (hc.append hd rfl)
      · exact .ret hc
    · rw [parseexec]
      refine .after fun b => ?_
      split
      · exact ihblock
      · have hnil : AllRuns buf (.exec []) := fun w hw => absurd hw not_mem_nil
        exact (parseredirs_runs _ hnil).bind fun _ hc => parseargs_runs _ hc
    · rw [parseblock]
      refine .after fun b => ?_
      split
      · refine .after fun _ => ihline.bind fun c hc => .after fun b => ?_
        split
        · exact .after fun _ => parseredirs_runs _ hc
        · exact .throw _
      · exact .throw _

theorem parseall_runs : Makes buf (parseall buf) := by
  rw [parseall]
  refine (parse_runs _).1.bind fun c hc => .after fun _ => .after fun _ => ?_
  split
  · exact .throw _
  · exact .ret hc

end Runs

/-! ### The zeros -/

section Zeros

variable {buf : List UInt8} {c : Cmd Span} {w w' : Span}

theorem nulterminate_eq (c : Cmd Span) : ∀ buf,
    nulterminate c buf = c.words.foldl (fun buf w => buf.set w.stop 0) buf := by
  induction c with
  | exec argv => exact fun _ => rfl
  | redir c file mode fd ih =>
    intro buf
    rw [nulterminate, Cmd.words, foldl_append, ih]
    rfl
  | pipe c d ihc ihd | list c d ihc ihd =>
    intro buf
    rw [nulterminate, Cmd.words, foldl_append, ihc, ihd]
  | back c ih => exact ih

theorem getElem?_foldl_set (ws : List Span) : ∀ (buf : List UInt8) (k : ℕ),
    (ws.foldl (fun buf w => buf.set w.stop 0) buf)[k]? =
      if k ∈ ws.map Span.stop then buf[k]?.map fun _ => 0 else buf[k]? := by
  induction ws with
  | nil => exact fun _ _ => rfl
  | cons w ws ih =>
    intro buf k
    rw [foldl_cons, ih, map_cons, getElem?_set']
    by_cases hk : w.stop = k
    · cases buf[k]? <;> simp [hk]
    · simp [hk, Ne.symm hk]

theorem IsRun.stop_not_isWord (h : IsRun buf w) {x : UInt8} (hx : buf[w.stop]? = some x) :
    isWord x = false := by
  have hhead := head?_dropWhile_not isWord (buf.drop w.start)
  rw [← drop_skip, ← h, head?_drop, hx] at hhead
  exact hhead

theorem IsRun.isWord (h : IsRun buf w) {k : ℕ} (hle : w.start ≤ k) (hlt : k < w.stop) :
    ∃ x, buf[k]? = some x ∧ Sh.isWord x = true := by
  have hk : k - w.start < ((buf.drop w.start).takeWhile Sh.isWord).length := by
    rw [h, skip] at hlt
    omega
  have hget := @getElem?_append_left _ _ ((buf.drop w.start).dropWhile Sh.isWord) _ hk
  rw [takeWhile_append_dropWhile, getElem?_drop, Nat.add_sub_cancel' hle,
    getElem?_eq_getElem hk] at hget
  exact ⟨_, hget, mem_takeWhile_imp (getElem_mem hk)⟩

theorem IsRun.disjoint (hw : IsRun buf w) (hw' : IsRun buf w') :
    ¬(w.start ≤ w'.stop ∧ w'.stop < w.stop) := by
  rintro ⟨hle, hlt⟩
  obtain ⟨x, hx, hword⟩ := hw.isWord hle hlt
  rw [hw'.stop_not_isWord hx] at hword
  cases hword

theorem cstring_eq {t : List UInt8} (h0 : 0 ∉ t) : ∀ {l : List UInt8},
    (∀ j < t.length, l[j]? = t[j]?) → (∀ x, l[t.length]? = some x → x = 0) → cstring l = t := by
  induction t with
  | nil =>
    rintro (_ | ⟨x, l⟩) - hend
    · rfl
    · exact takeWhile_cons_of_neg (by simpa using hend x rfl)
  | cons b t ih =>
    intro l hget hend
    obtain ⟨l, rfl⟩ : ∃ l', l = b :: l' := by
      have hb := hget 0 (Nat.succ_pos _)
      rw [← head?_eq_getElem?] at hb
      exact head?_eq_some_iff.mp hb
    rw [cstring, takeWhile_cons_of_pos (by simpa using (ne_of_mem_of_not_mem mem_cons_self h0))]
    exact congrArg (b :: ·) (ih (fun h => h0 (mem_cons_of_mem _ h))
      (fun j hj => hget (j + 1) (Nat.succ_lt_succ hj)) hend)

theorem cstring_nulterminate (hbuf : 0 ∉ buf) (hc : AllRuns buf c) (hw : w ∈ c.words) :
    cstring ((nulterminate c (buf ++ [0])).drop w.start) = text buf w := by
  have hrun := hc w hw
  have hle : w.start ≤ w.stop := by
    rw [hrun, skip]
    exact Nat.le_add_right _ _
  have hlen : ((buf.drop w.start).take (w.stop - w.start)).length = w.stop - w.start := by
    rw [length_take, length_drop, hrun, skip]
    have := ( takeWhile_prefix isWord (l := buf.drop w.start)).length_le
    rw [length_drop] at this
    omega
  refine cstring_eq (fun h => hbuf (mem_of_mem_drop (mem_of_mem_take h)))
    (fun j hj => ?_) fun x hx => ?_
  · rw [hlen] at hj
    obtain ⟨y, hy, -⟩ := hrun.isWord (Nat.le_add_right _ j) (by omega)
    have hnot : w.start + j ∉ c.words.map Span.stop := by
      intro hmem
      obtain ⟨w', hw', heq⟩ := mem_map.mp hmem
      exact hrun.disjoint (hc w' hw') ⟨by omega, by omega⟩
    rw [getElem?_drop, nulterminate_eq, getElem?_foldl_set, if_neg hnot,
      getElem?_take_of_lt hj, getElem?_drop,
      getElem?_append_left (List.getElem?_eq_some_iff.mp hy).1]
  · rw [hlen, getElem?_drop, Nat.add_sub_cancel' hle, nulterminate_eq, getElem?_foldl_set,
      if_pos (mem_map_of_mem hw)] at hx
    obtain ⟨_, -, h⟩ := Option.map_eq_some_iff.mp hx
    exact h.symm

end Zeros

/-- **The strings of the shell are its words**: in the tree of an accepted line, the string at each
word of a command and at each file of a redirection is, after `nulterminate`, the text of that word
of the phrase, and no 0 is written inside a word. -/
theorem nulterminate_exact {s : List UInt8} {c : Cmd Span} (h : parsecmd s = .ok c) :
    Derives .line (tokenize (cstring s)) (c.map fun w =>
        cstring ((nulterminate c (cstring s ++ [0])).drop w.start)) ∧
      (∀ w ∈ c.words, cstring ((nulterminate c (cstring s ++ [0])).drop w.start) =
        text (cstring s) w) ∧
      ∀ w ∈ c.words, ∀ w' ∈ c.words, ¬(w.start ≤ w'.stop ∧ w'.stop < w.stop) := by
  have hbuf := zero_not_mem_cstring s
  cases hrun : parseall (cstring s) 0 with
  | error e =>
    rw [parsecmd, StateT.run', hrun] at h
    cases h
  | ok r =>
    rw [parsecmd, StateT.run', hrun] at h
    cases h
    have hc := (parseall_runs 0).of_ok hrun
    have htext := fun w hw => cstring_nulterminate (w := w) hbuf hc hw
    refine ⟨?_, htext, fun w hw w' hw' => (hc w hw).disjoint (hc w' hw')⟩
    rw [Cmd.map_congr htext]
    exact (parseall_sound hbuf).of_ok hrun

/-- `echo hi;(cat<f|wc)>>g&`: words are behind each other only with symbols between. -/
theorem nulterminate_exact_nested : ∃ c,
    parsecmd "echo hi;(cat<f|wc)>>g&".toUTF8.toList = .ok c ∧ c.words.length = 6 ∧
      ∀ w ∈ c.words, cstring ((nulterminate c
        (cstring "echo hi;(cat<f|wc)>>g&".toUTF8.toList ++ [0])).drop w.start) =
        text (cstring "echo hi;(cat<f|wc)>>g&".toUTF8.toList) w := by
  obtain ⟨c, h, hlen⟩ : ∃ c, parsecmd "echo hi;(cat<f|wc)>>g&".toUTF8.toList = .ok c ∧
      c.words.length = 6 := Ensures.exists_ok (by decide +kernel)
  exact ⟨c, h, hlen, (nulterminate_exact h).2.1⟩

end Xv6.Sh
