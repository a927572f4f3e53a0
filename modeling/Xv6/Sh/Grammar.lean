import Mathlib.Logic.Function.Iterate
import Xv6.Sh.Parser

/-!
# The grammar of the shell

The command lines of the shell, as phrases over words and symbols:

    line  := pipe '&'* [';' line]
    pipe  := cmd ['|' pipe]
    cmd   := '(' line ')' redir* | redir* (word redir*)*
    redir := ('<' | '>' | '>>') word

with fewer than `MAXARGS` words in a command. The parser returns the tree of the phrase if the line
is one, and an error if it is not; so a line has at most one tree.
-/

namespace Xv6.Sh

open List

/-! ### Phrases -/

/-- A redirection: the file, the mode in which it is opened, and the descriptor it is opened as. -/
structure Redirection where
  file : List UInt8
  mode : ℕ
  fd : ℕ

abbrev Tree := Cmd (List UInt8)

/-- A command with redirections; the first is the innermost. -/
def Cmd.redirect (c : Tree) (l : List Redirection) : Tree :=
  l.foldl (fun c r => .redir c r.file r.mode r.fd) c

/-- The mode and the descriptor of a redirection. -/
def Sym.mode : Sym → Option (ℕ × ℕ)
  | less => some (oRdonly, 0)
  | greater => some (oRewrite, 1)
  | append => some (oWrite, 1)
  | _ => none

/-- `redir*`. -/
inductive Redirs : List Lexeme → List Redirection → Prop
  | nil : Redirs [] []
  | cons {sym : Sym} {mode fd : ℕ} {w : List UInt8} {ts : List Lexeme} {l : List Redirection} :
      sym.mode = some (mode, fd) → Redirs ts l →
      Redirs (.sym sym :: .word w :: ts) (⟨w, mode, fd⟩ :: l)

/-- `(word redir*)*`, with the words and the redirections. -/
inductive Words : List Lexeme → List (List UInt8) → List Redirection → Prop
  | nil : Words [] [] []
  | cons {w : List UInt8} {rs ts : List Lexeme} {l l' : List Redirection} {ws : List (List UInt8)} :
      Redirs rs l → Words ts ws l' → Words (.word w :: (rs ++ ts)) (w :: ws) (l ++ l')

inductive Nonterminal
  | line
  | pipe
  | cmd

/-- **The grammar**: the list of words and symbols is a phrase, and has the tree. -/
inductive Derives : Nonterminal → List Lexeme → Tree → Prop
  | line {ts : List Lexeme} {c : Tree} (n : ℕ) : Derives .pipe ts c →
      Derives .line (ts ++ List.replicate n (.sym .amp)) (Cmd.back^[n] c)
  | seq {ts us : List Lexeme} {c d : Tree} (n : ℕ) : Derives .pipe ts c → Derives .line us d →
      Derives .line (ts ++ List.replicate n (.sym .amp) ++ .sym .semi :: us)
        (.list (Cmd.back^[n] c) d)
  | single {ts : List Lexeme} {c : Tree} : Derives .cmd ts c → Derives .pipe ts c
  | pipe {ts us : List Lexeme} {c d : Tree} : Derives .cmd ts c → Derives .pipe us d →
      Derives .pipe (ts ++ .sym .pipe :: us) (.pipe c d)
  | block {ts rs : List Lexeme} {c : Tree} {l : List Redirection} : Derives .line ts c →
      Redirs rs l → Derives .cmd (.sym .lparen :: (ts ++ .sym .rparen :: rs)) (c.redirect l)
  | simple {rs ts : List Lexeme} {ws : List (List UInt8)} {l l' : List Redirection} :
      Redirs rs l → Words ts ws l' → ws.length ≤ maxArgs - 1 →
      Derives .cmd (rs ++ ts) ((Cmd.exec ws).redirect (l ++ l'))

theorem Cmd.redirect_append (c : Tree) (l l' : List Redirection) :
    c.redirect (l ++ l') = (c.redirect l).redirect l' := foldl_append

theorem Cmd.addArg_redirect (w : List UInt8) (l : List Redirection) :
    ∀ c : Tree, (c.redirect l).addArg w = (c.addArg w).redirect l := by
  induction l with
  | nil => exact fun _ => rfl
  | cons r l ih => exact fun c => ih (.redir c r.file r.mode r.fd)

theorem Cmd.map_addArg {α β : Type} (f : α → β) (w : α) (c : Cmd α) :
    (c.addArg w).map f = (c.map f).addArg (f w) := by
  induction c with
  | exec argv => exact congrArg Cmd.exec (by rw [map_append]; rfl)
  | redir c file mode fd ih => exact congrArg (Cmd.redir · (f file) mode fd) ih
  | _ => rfl

/-! ### Soundness -/

section Sound

variable {buf : List UInt8} {i : ℕ} {ls : List Lexeme} {fuel : ℕ}

theorem starts_redir (sym : Sym) (ls : List Lexeme) :
    starts ['<'.toUInt8, '>'.toUInt8] (.sym sym :: ls) = sym.mode.isSome := by
  cases sym <;> rfl

theorem first_eq_iff {sym sym' : Sym} (hsym : sym ≠ .greater ∧ sym ≠ .append) :
    sym'.first = sym.first ↔ sym' = sym := by
  revert hsym
  cases sym <;> cases sym' <;> decide

theorem starts_first (sym : Sym) (hsym : sym ≠ .greater ∧ sym ≠ .append) {ls : List Lexeme} :
    starts [sym.first] ls = true ↔ ∃ ls', ls = .sym sym :: ls' := by
  rcases ls with _ | ⟨w | sym', ls⟩
  · simp [starts]
  · simp [starts]
  · rw [starts_sym, contains_iff_mem, mem_singleton, first_eq_iff hsym]
    simp

theorem symbols_first (sym : Sym) : [sym.first].all symbols.contains = true := by
  cases sym <;> decide

variable (hbuf : 0 ∉ buf)

include hbuf

theorem peek_sym {E : Err → Prop} {α : Type} {Q : α → ℕ → Prop} {p q : ParseM α} (sym : Sym)
    (hsym : sym ≠ .greater ∧ sym ≠ .append) (hat : At buf i ls)
    (hyes : ∀ ls' j, ls = .sym sym :: ls' → At buf j ls' → Runs p j E Q)
    (hno : ∀ j, At buf j ls → starts [sym.first] ls = false → Runs q j E Q) :
    Runs (do if ← peek buf [sym.first] then let _ ← gettoken buf; p else q) i E Q := by
  refine peek_bind hbuf (symbols_first sym) hat fun j hj => ?_
  by_cases hb : starts [sym.first] ls = true
  · obtain ⟨ls, rfl⟩ := (starts_first sym hsym).mp hb
    rw [if_pos hb]
    refine (gettoken_spec hbuf hj).bind ?_
    rintro r j1 ⟨-, -, hj1⟩
    exact hyes ls j1 rfl hj1
  · rw [if_neg hb]
    exact hno j hj (Bool.eq_false_iff.mpr hb)

omit hbuf in
theorem redircmd_eq {sym : Sym} {mode fd : ℕ} (h : sym.mode = some (mode, fd)) (cmd : Cmd Span)
    (file : Span) : redircmd (.sym sym) cmd file = .redir cmd file mode fd := by
  cases sym <;> cases h <;> rfl

theorem parseredirs_sound (fuel : ℕ) : ∀ {i : ℕ} {ls : List Lexeme}
    {cmd : Cmd Span},
    At buf i ls → ls.length < fuel →
    Runs (parseredirs buf fuel cmd) i (· ≠ .fuel) fun c j => ∃ rs l ls', ls = rs ++ ls' ∧
      Redirs rs l ∧ At buf j ls' ∧ c.map (text buf) = (cmd.map (text buf)).redirect l := by
  induction fuel with
  | zero => exact fun _ hlt => absurd hlt (Nat.not_lt_zero _)
  | succ fuel ih =>
    intro i ls cmd hat hlt
    have hdone : ∀ {j}, At buf j ls → ∃ rs l ls', ls = rs ++ ls' ∧ Redirs rs l ∧ At buf j ls' ∧
        cmd.map (text buf) = (cmd.map (text buf)).redirect l :=
      fun hj => ⟨[], [], ls, rfl, .nil, hj, rfl⟩
    rw [parseredirs]
    refine peek_bind hbuf rfl hat fun j hj => ?_
    rcases ls with _ | ⟨w | sym, ls⟩
    · exact hdone hj
    · exact hdone hj
    rw [starts_redir]
    cases hmode : sym.mode with
    | none => exact hdone hj
    | some r =>
      obtain ⟨mode, fd⟩ := r
      rw [Option.isSome_some, if_pos rfl]
      refine (gettoken_spec hbuf hj).bind ?_
      rintro ⟨tok, w1⟩ j1 ⟨htok, -, hj1⟩
      obtain rfl : tok = .sym sym := htok
      refine (gettoken_spec hbuf hj1).bind ?_
      rintro ⟨tok, file⟩ j2 ht
      rcases ls with _ | ⟨w | sym', ls⟩
      · obtain ⟨htok, -⟩ := ht
        obtain rfl : tok = .eof := htok
        exact (by decide : Err.missingFile ≠ .fuel)
      · obtain ⟨htok, hw, hj2⟩ := ht
        obtain rfl : tok = .word := htok
        refine (ih hj2 ?_).mono ?_
        · rw [length_cons, length_cons] at hlt
          omega
        rintro c j' ⟨rs, l, ls', rfl, hrs, hj', hc⟩
        refine ⟨.sym sym :: .word w :: rs, ⟨w, mode, fd⟩ :: l, ls', rfl, .cons hmode hrs, hj', ?_⟩
        rw [hc, redircmd_eq hmode, Cmd.map, hw w rfl]
        rfl
      · obtain ⟨htok, -⟩ := ht
        obtain rfl : tok = .sym sym' := htok
        exact (by decide : Err.missingFile ≠ .fuel)

/-- What the loop of `parseexec` takes are words with redirections, and not too many. -/
theorem parseargs_sound (fuel : ℕ) : ∀ {i : ℕ} {ls : List Lexeme} {ret : Cmd Span}
    {ws : List (List UInt8)} {l : List Redirection}, At buf i ls → ls.length < fuel →
    ret.map (text buf) = (Cmd.exec ws).redirect l → ws.length ≤ maxArgs - 1 →
    Runs (parseargs buf fuel ws.length ret) i (· ≠ .fuel) fun c j => ∃ ts ws' l' ls',
      ls = ts ++ ls' ∧ Words ts ws' l' ∧ (ws ++ ws').length ≤ maxArgs - 1 ∧ At buf j ls' ∧
        c.map (text buf) = (Cmd.exec (ws ++ ws')).redirect (l ++ l') := by
  induction fuel with
  | zero => exact fun _ hlt => absurd hlt (Nat.not_lt_zero _)
  | succ fuel ih =>
    intro i ls ret ws l hat hlt hret hws
    have hdone : ∀ {j}, At buf j ls → ∃ ts ws' l' ls', ls = ts ++ ls' ∧ Words ts ws' l' ∧
        (ws ++ ws').length ≤ maxArgs - 1 ∧ At buf j ls' ∧
          ret.map (text buf) = (Cmd.exec (ws ++ ws')).redirect (l ++ l') :=
      fun hj => ⟨[], [], [], ls, rfl, .nil, by rwa [append_nil], hj,
        by rwa [append_nil, append_nil]⟩
    rw [parseargs]
    refine peek_bind hbuf rfl hat fun j hj => ?_
    split
    · exact hdone hj
    refine (gettoken_spec hbuf hj).bind ?_
    rintro ⟨tok, w1⟩ j1 ht
    rcases ls with _ | ⟨w | sym, ls⟩
    · obtain ⟨htok, hj1⟩ := ht
      obtain rfl : tok = .eof := htok
      exact hdone hj1
    · obtain ⟨htok, hw, hj1⟩ := ht
      obtain rfl : tok = .word := htok
      dsimp only
      rw [if_neg (by decide), if_neg (by decide)]
      by_cases hmany : maxArgs ≤ ws.length + 1
      · rw [if_pos hmany]
        exact (by decide : Err.tooManyArgs ≠ .fuel)
      rw [if_neg hmany]
      refine (parseredirs_sound hbuf _ hj1 (Nat.lt_succ_of_le hj1.length_le)).bind ?_
      rintro c2 j2 ⟨rs, l2, ls2, rfl, hrs, hj2, hc2⟩
      have hret2 : c2.map (text buf) = (Cmd.exec (ws ++ [w])).redirect (l ++ l2) := by
        rw [hc2, Cmd.map_addArg, hret, hw w rfl, Cmd.addArg_redirect, Cmd.redirect_append]
        rfl
      have hlen : (ws ++ [w]).length = ws.length + 1 := by
        rw [length_append, length_singleton]
      rw [← hlen]
      refine (ih hj2 ?_ hret2 ?_).mono ?_
      · rw [length_cons, length_append] at hlt
        omega
      · rw [hlen]
        omega
      rintro c j' ⟨ts, ws', l', ls', rfl, hts, hcount, hj', hc⟩
      refine ⟨.word w :: (rs ++ ts), w :: ws', l2 ++ l', ls', ?_, .cons hrs hts, ?_, hj', ?_⟩
      · rw [cons_append, append_assoc]
      · rwa [append_cons]
      · rw [hc, ← append_cons, append_assoc l]
    · obtain ⟨htok, -⟩ := ht
      obtain rfl : tok = .sym sym := htok
      exact (by decide : Err.unexpected ≠ .fuel)

theorem parsebacks_sound (fuel : ℕ) : ∀ {i : ℕ} {ls : List Lexeme}
    {cmd : Cmd Span},
    At buf i ls → ls.length < fuel →
    Runs (parsebacks buf fuel cmd) i (· ≠ .fuel) fun c j => ∃ n ls',
      ls = List.replicate n (.sym .amp) ++ ls' ∧ At buf j ls' ∧
        c.map (text buf) = Cmd.back^[n] (cmd.map (text buf)) := by
  induction fuel with
  | zero => exact fun _ hlt => absurd hlt (Nat.not_lt_zero _)
  | succ fuel ih =>
    intro i ls cmd hat hlt
    rw [parsebacks]
    refine peek_sym hbuf .amp (by decide) hat ?_ fun j hj _ => ⟨0, ls, rfl, hj, rfl⟩
    rintro ls j rfl hj
    refine (ih hj (Nat.lt_of_succ_lt_succ hlt)).mono ?_
    rintro c j' ⟨n, ls', rfl, hj', hc⟩
    exact ⟨n + 1, ls', rfl, hj', by rw [hc, Function.iterate_succ_apply]; rfl⟩

/-- The parser has taken a phrase of the list and stands behind it. -/
def Parsed (buf : List UInt8) (nt : Nonterminal) (ls : List Lexeme) (c : Cmd Span) (j : ℕ) : Prop :=
  ∃ us ls', ls = us ++ ls' ∧ Derives nt us (c.map (text buf)) ∧ At buf j ls'

/-- With `fuel`, what `parse` takes is a phrase; and the fuel is enough if there are four units for
every word or symbol and `k` more. -/
def Sound (buf : List UInt8) (parse : ℕ → ParseM (Cmd Span)) (nt : Nonterminal) (k fuel : ℕ) :
    Prop :=
  ∀ {i : ℕ} {ls : List Lexeme}, At buf i ls →
    Runs (parse fuel) i (fun e => e = .fuel → fuel < 4 * ls.length + k) (Parsed buf nt ls)

theorem parseline_sound (hpipe : Sound buf (parsepipe buf) .pipe 3 fuel)
    (hline : Sound buf (parseline buf) .line 4 fuel) :
    Sound buf (parseline buf) .line 4 (fuel + 1) := by
  intro i ls hat
  rw [parseline]
  refine ((hpipe hat).weaken fun e he hfuel => Nat.succ_lt_succ (he hfuel)).bind ?_
  rintro c j ⟨us, ls1, rfl, hus, hj⟩
  refine ((parsebacks_sound hbuf _ hj (Nat.lt_succ_of_le hj.length_le)).weaken
    fun e he hfuel => absurd hfuel he).bind ?_
  rintro c1 j1 ⟨n, ls2, rfl, hj1, hc1⟩
  refine peek_sym hbuf .semi (by decide) hj1 ?_ fun j2 hj2 _ => ?_
  · rintro ls2 j3 rfl hj3
    refine ((hline hj3).weaken fun e he hfuel => ?_).bind ?_
    · have := he hfuel
      simp only [length_append, length_cons] at this ⊢
      omega
    rintro d j4 ⟨vs, ls3, rfl, hvs, hj4⟩
    refine ⟨us ++ List.replicate n (.sym .amp) ++ .sym .semi :: vs, ls3, ?_, ?_, hj4⟩
    · simp only [append_assoc, cons_append]
    · rw [Cmd.map, hc1]
      exact .seq n hus hvs
  · refine ⟨us ++ List.replicate n (.sym .amp), ls2, ?_, ?_, hj2⟩
    · rw [append_assoc]
    · rw [hc1]
      exact .line n hus

theorem parsepipe_sound (hexec : Sound buf (parseexec buf) .cmd 2 fuel)
    (hpipe : Sound buf (parsepipe buf) .pipe 3 fuel) :
    Sound buf (parsepipe buf) .pipe 3 (fuel + 1) := by
  intro i ls hat
  rw [parsepipe]
  refine ((hexec hat).weaken fun e he hfuel => Nat.succ_lt_succ (he hfuel)).bind ?_
  rintro c j ⟨us, ls1, rfl, hus, hj⟩
  refine peek_sym hbuf .pipe (by decide) hj ?_ fun j1 hj1 _ => ⟨us, ls1, rfl, .single hus, hj1⟩
  rintro ls1 j2 rfl hj2
  refine ((hpipe hj2).weaken fun e he hfuel => ?_).bind ?_
  · have := he hfuel
    simp only [length_append, length_cons] at this ⊢
    omega
  rintro d j3 ⟨vs, ls2, rfl, hvs, hj3⟩
  refine ⟨us ++ .sym .pipe :: vs, ls2, ?_, .pipe hus hvs, hj3⟩
  simp only [append_assoc, cons_append]

theorem parseexec_sound (hblock : Sound buf (parseblock buf) .cmd 1 fuel) :
    Sound buf (parseexec buf) .cmd 2 (fuel + 1) := by
  intro i ls hat
  rw [parseexec]
  refine peek_bind hbuf rfl hat fun j hj => ?_
  split_ifs
  · exact (hblock hj).weaken fun e he hfuel => Nat.succ_lt_succ (he hfuel)
  refine ((parseredirs_sound hbuf _ hj (Nat.lt_succ_of_le hj.length_le)).weaken
    fun e he hfuel => absurd hfuel he).bind ?_
  rintro c j1 ⟨rs, l, ls1, rfl, hrs, hj1, hc⟩
  replace hc : c.map (text buf) = (Cmd.exec []).redirect l := hc
  refine ((parseargs_sound hbuf _ hj1 (Nat.lt_succ_of_le hj1.length_le) hc
    (Nat.zero_le _)).weaken fun e he hfuel => absurd hfuel he).mono ?_
  rintro d j2 ⟨ts, ws, l', ls2, rfl, hts, hcount, hj2, hd⟩
  refine ⟨rs ++ ts, ls2, ?_, ?_, hj2⟩
  · rw [append_assoc]
  · rw [hd]
    exact .simple hrs hts hcount

theorem parseblock_sound (hline : Sound buf (parseline buf) .line 4 fuel) :
    Sound buf (parseblock buf) .cmd 1 (fuel + 1) := by
  intro i ls hat
  rw [parseblock]
  refine peek_sym hbuf .lparen (by decide) hat ?_ fun _ _ _ hfuel => absurd hfuel (by decide)
  rintro ls j1 rfl hj1
  refine ((hline hj1).weaken fun e he hfuel => ?_).bind ?_
  · have := he hfuel
    rw [length_cons]
    omega
  rintro c j2 ⟨us, ls1, rfl, hus, hj2⟩
  refine peek_sym hbuf .rparen (by decide) hj2 ?_ fun _ _ _ hfuel => absurd hfuel (by decide)
  rintro ls1 j4 rfl hj4
  refine ((parseredirs_sound hbuf _ hj4 (Nat.lt_succ_of_le hj4.length_le)).weaken
    fun e he hfuel => absurd hfuel he).mono ?_
  rintro d j5 ⟨rs, l, ls2, rfl, hrs, hj5, hd⟩
  refine ⟨.sym .lparen :: (us ++ .sym .rparen :: rs), ls2, ?_, ?_, hj5⟩
  · simp only [append_assoc, cons_append]
  · rw [hd]
    exact .block hus hrs

/-- **What the parser takes is a phrase.** At most four calls are made before a word or a symbol is
taken. -/
theorem parse_sound (fuel : ℕ) :
    Sound buf (parseline buf) .line 4 fuel ∧ Sound buf (parsepipe buf) .pipe 3 fuel ∧
      Sound buf (parseexec buf) .cmd 2 fuel ∧ Sound buf (parseblock buf) .cmd 1 fuel := by
  induction fuel with
  | zero =>
    exact ⟨fun _ _ => Nat.succ_pos _, fun _ _ => Nat.succ_pos _, fun _ _ => Nat.succ_pos _,
      fun _ _ => Nat.succ_pos _⟩
  | succ fuel ih =>
    obtain ⟨hline, hpipe, hexec, hblock⟩ := ih
    exact ⟨parseline_sound hbuf hpipe hline, parsepipe_sound hbuf hexec hpipe,
      parseexec_sound hbuf hblock, parseblock_sound hbuf hline⟩

end Sound

/-! ### Completeness -/

/-- The symbols that may come after a phrase. -/
def Nonterminal.follow : Nonterminal → List Sym
  | line => [.rparen]
  | pipe => [.rparen, .semi, .amp]
  | cmd => [.rparen, .semi, .amp, .pipe]

def Follow (nt : Nonterminal) (ls : List Lexeme) : Prop :=
  ls = [] ∨ ∃ sym ∈ nt.follow, ∃ ls', ls = .sym sym :: ls'

variable {rest ts : List Lexeme} {l : List Redirection} {nt : Nonterminal}

theorem Follow.nil : Follow nt [] := Or.inl rfl

theorem Follow.cons {sym : Sym} (h : sym ∈ nt.follow) (ls : List Lexeme) :
    Follow nt (.sym sym :: ls) := Or.inr ⟨sym, h, ls, rfl⟩

theorem Follow.starts {ls : List Lexeme} (h : Follow nt ls) {toks : List UInt8}
    (htoks : ∀ sym ∈ nt.follow, toks.contains sym.first = false) : starts toks ls = false := by
  obtain rfl | ⟨sym, hsym, ls, rfl⟩ := h
  · rfl
  · rw [starts_sym]
    exact htoks sym hsym

theorem Words.starts {ws : List (List UInt8)} (h : Words ts ws l) {toks : List UInt8}
    (hrest : starts toks rest = false) :
    Sh.starts toks (ts ++ rest) = false := by
  cases h with
  | nil => exact hrest
  | cons => rfl

section Complete

variable {buf : List UInt8} {i : ℕ} {rs : List Lexeme} {c : Tree}

variable (hbuf : 0 ∉ buf)

include hbuf

theorem parseredirs_complete (h : Redirs rs l)
    (hrest : starts ['<'.toUInt8, '>'.toUInt8] rest = false) :
    ∀ {i fuel : ℕ} {cmd : Cmd Span}, At buf i (rs ++ rest) → rs.length < fuel →
      Runs (parseredirs buf fuel cmd) i (fun _ => False) fun c j =>
        c.map (text buf) = (cmd.map (text buf)).redirect l ∧ At buf j rest := by
  induction h with
  | nil =>
    intro i fuel cmd hat hfuel
    obtain _ | fuel := fuel
    · omega
    rw [parseredirs]
    refine peek_bind hbuf rfl hat fun j hj => ?_
    rw [nil_append, hrest]
    exact ⟨rfl, hj⟩
  | cons hmode hts ih =>
    intro i fuel cmd hat hfuel
    obtain _ | fuel := fuel
    · omega
    rw [parseredirs]
    refine peek_bind hbuf rfl hat fun j hj => ?_
    rw [cons_append, starts_redir, hmode, Option.isSome_some, if_pos rfl]
    refine (gettoken_spec hbuf hj).bind ?_
    rintro ⟨tok, w1⟩ j1 ⟨htok, -, hj1⟩
    cases htok
    refine (gettoken_spec hbuf hj1).bind ?_
    rintro ⟨tok, file⟩ j2 ⟨htok, hw, hj2⟩
    cases htok
    refine (ih hj2 ?_).mono ?_
    · rw [length_cons, length_cons] at hfuel
      omega
    rintro c j' ⟨hc, hj'⟩
    refine ⟨?_, hj'⟩
    rw [hc, redircmd_eq hmode, Cmd.map, hw _ rfl]
    rfl

theorem parseargs_complete {ws' : List (List UInt8)} {l' : List Redirection} (h : Words ts ws' l')
    (hrest : Follow .cmd rest) :
    ∀ {i fuel : ℕ} {ret : Cmd Span} {ws : List (List UInt8)} {l : List Redirection},
      At buf i (ts ++ rest) → ts.length < fuel → ret.map (text buf) = (Cmd.exec ws).redirect l →
      (ws ++ ws').length ≤ maxArgs - 1 →
      Runs (parseargs buf fuel ws.length ret) i (fun _ => False) fun c j =>
        c.map (text buf) = (Cmd.exec (ws ++ ws')).redirect (l ++ l') ∧ At buf j rest := by
  induction h with
  | nil =>
    intro i fuel ret ws l hat hfuel hret _
    obtain _ | fuel := fuel
    · omega
    rw [append_nil, append_nil, parseargs]
    refine peek_bind hbuf rfl hat fun j hj => ?_
    obtain rfl | ⟨sym, hsym, ls, rfl⟩ := hrest
    · refine (gettoken_spec hbuf hj).bind ?_
      rintro ⟨tok, w⟩ j1 ⟨htok, hj1⟩
      cases htok
      exact ⟨hret, hj1⟩
    · have hstop : ∀ sym ∈ Nonterminal.cmd.follow,
          ['|'.toUInt8, ')'.toUInt8, '&'.toUInt8, ';'.toUInt8].contains sym.first = true := by
            decide
      rw [nil_append, starts_sym, if_pos (hstop sym hsym)]
      exact ⟨hret, hj⟩
  | cons hrs hts ih =>
    rename_i w rs ts l2 l' ws'
    intro i fuel ret ws l hat hfuel hret hcount
    obtain _ | fuel := fuel
    · omega
    rw [parseargs]
    refine peek_bind hbuf rfl hat fun j hj => ?_
    rw [cons_append, starts_word, if_neg Bool.false_ne_true]
    refine (gettoken_spec hbuf hj).bind ?_
    rintro ⟨tok, w1⟩ j1 ⟨htok, hw, hj1⟩
    cases htok
    have hlen : (ws ++ [w]).length = ws.length + 1 := by
      rw [length_append, length_singleton]
    have hroom : ¬ maxArgs ≤ ws.length + 1 := by
      rw [length_append, length_cons] at hcount
      omega
    dsimp only [Lexeme.tok]
    rw [if_neg (by decide), if_neg (by decide), if_neg hroom]
    replace hj1 : At buf j1 (rs ++ (ts ++ rest)) := by
      rw [← append_assoc]
      exact hj1
    refine (parseredirs_complete hbuf hrs (hts.starts (hrest.starts (by decide))) hj1 ?_).bind ?_
    · have := hj1.length_le
      rw [length_append] at this
      omega
    rintro c2 j2 ⟨hc2, hj2⟩
    have hret2 : c2.map (text buf) = (Cmd.exec (ws ++ [w])).redirect (l ++ l2) := by
      rw [hc2, Cmd.map_addArg, hret, hw w rfl, Cmd.addArg_redirect, Cmd.redirect_append]
      rfl
    rw [← hlen]
    refine (ih hj2 ?_ hret2 ?_).mono ?_
    · rw [length_cons, length_append] at hfuel
      omega
    · rwa [← append_cons]
    rintro c j' ⟨hc, hj'⟩
    refine ⟨?_, hj'⟩
    rw [hc, ← append_cons, append_assoc l]

theorem parsebacks_complete (hrest : starts ['&'.toUInt8] rest = false) (n : ℕ) :
    ∀ {i fuel : ℕ} {cmd : Cmd Span}, At buf i (List.replicate n (.sym .amp) ++ rest) → n < fuel →
      Runs (parsebacks buf fuel cmd) i (fun _ => False) fun c j =>
        c.map (text buf) = Cmd.back^[n] (cmd.map (text buf)) ∧ At buf j rest := by
  induction n with
  | zero =>
    intro i fuel cmd hat hfuel
    obtain _ | fuel := fuel
    · omega
    rw [parsebacks]
    refine peek_bind hbuf rfl hat fun j hj => ?_
    rw [replicate_zero, nil_append, hrest]
    exact ⟨rfl, hj⟩
  | succ n ih =>
    intro i fuel cmd hat hfuel
    obtain _ | fuel := fuel
    · omega
    rw [parsebacks]
    refine peek_sym hbuf .amp (by decide) hat ?_ fun _ _ hno => by cases hno
    rintro _ j1 ⟨⟩ hj1
    refine (ih hj1 (Nat.lt_of_succ_lt_succ hfuel)).mono ?_
    rintro c j' ⟨hc, hj'⟩
    exact ⟨by rw [hc, Function.iterate_succ_apply]; rfl, hj'⟩

/-- The function for a kind of phrase. -/
def parse (buf : List UInt8) : Nonterminal → (fuel : ℕ) → ParseM (Cmd Span)
  | .line => parseline buf
  | .pipe => parsepipe buf
  | .cmd => parseexec buf

/-- How deep the calls go before a word or a symbol is taken. -/
def Nonterminal.level : Nonterminal → ℕ
  | line => 3
  | pipe => 2
  | cmd => 1

/-- With `fuel` the phrase is taken, whatever comes after it that may. -/
def Complete (buf : List UInt8) (nt : Nonterminal) (ts : List Lexeme) (t : Tree) : Prop :=
  ∀ {i fuel : ℕ} {rest : List Lexeme}, Follow nt rest → At buf i (ts ++ rest) →
    4 * ts.length + nt.level ≤ fuel →
    Runs (parse buf nt fuel) i (fun _ => False) fun c j => c.map (text buf) = t ∧ At buf j rest

theorem parseline_start {fuel : ℕ} (n : ℕ) (h : Complete buf .pipe ts c) (hrest : Follow .pipe rest)
    (hamp : starts ['&'.toUInt8] rest = false)
    (hat : At buf i (ts ++ (List.replicate n (.sym .amp) ++ rest)))
    (hfuel : 4 * ts.length + 2 ≤ fuel) :
    Runs (do
      let cmd ← parsepipe buf fuel
      parsebacks buf (buf.length + 1) cmd) i (fun _ => False) fun c' j =>
        c'.map (text buf) = Cmd.back^[n] c ∧ At buf j rest := by
  have hfollow : Follow .pipe (List.replicate n (.sym .amp) ++ rest) := by
    cases n with
    | zero => exact hrest
    | succ n => exact .cons (by decide) _
  refine (h hfollow hat hfuel).bind ?_
  rintro c1 j ⟨rfl, hj⟩
  refine parsebacks_complete hbuf hamp n hj ?_
  have := hj.length_le
  rw [length_append, length_replicate] at this
  omega

theorem parseline_complete (n : ℕ) (h : Complete buf .pipe ts c) :
    Complete buf .line (ts ++ List.replicate n (.sym .amp)) (Cmd.back^[n] c) := by
  intro i fuel rest hrest hat hfuel
  rw [append_assoc] at hat
  rw [length_append, Nonterminal.level] at hfuel
  obtain _ | fuel := fuel
  · omega
  have hpipe : Follow .pipe rest := by
    obtain rfl | ⟨sym, hsym, ls, rfl⟩ := hrest
    · exact .nil
    · exact .cons (mem_of_mem_take (i := 1) hsym) ls
  rw [parse, parseline, ← bind_assoc]
  refine (parseline_start hbuf n h hpipe (hrest.starts (by decide)) hat (by omega)).bind ?_
  rintro c1 j ⟨hc1, hj⟩
  refine peek_bind hbuf rfl hj fun j1 hj1 => ?_
  rw [hrest.starts (by decide), if_neg Bool.false_ne_true]
  exact ⟨hc1, hj1⟩

theorem parseline_seq_complete {us : List Lexeme} {d : Tree} (n : ℕ) (h : Complete buf .pipe ts c)
    (h' : Complete buf .line us d) :
    Complete buf .line (ts ++ List.replicate n (.sym .amp) ++ .sym .semi :: us)
      (.list (Cmd.back^[n] c) d) := by
  intro i fuel rest hrest hat hfuel
  rw [append_assoc, append_assoc, cons_append] at hat
  rw [length_append, length_append, length_cons, Nonterminal.level] at hfuel
  obtain _ | fuel := fuel
  · omega
  rw [parse, parseline, ← bind_assoc]
  refine (parseline_start hbuf n h (.cons (by decide) _) rfl hat (by omega)).bind ?_
  rintro c1 j ⟨hc1, hj⟩
  refine peek_sym hbuf .semi (by decide) hj ?_ fun _ _ hno => by cases hno
  rintro _ j2 ⟨⟩ hj2
  refine (h' hrest hj2 (by rw [Nonterminal.level]; omega)).bind ?_
  rintro d1 j3 ⟨hd1, hj3⟩
  exact ⟨by rw [Cmd.map, hc1, hd1], hj3⟩

theorem parsepipe_complete (h : Complete buf .cmd ts c) : Complete buf .pipe ts c := by
  intro i fuel rest hrest hat hfuel
  rw [Nonterminal.level] at hfuel
  obtain _ | fuel := fuel
  · omega
  have hcmd : Follow .cmd rest := by
    obtain rfl | ⟨sym, hsym, ls, rfl⟩ := hrest
    · exact .nil
    · exact .cons (mem_of_mem_take (i := 3) hsym) ls
  rw [parse, parsepipe]
  refine (h hcmd hat (by rw [Nonterminal.level]; omega)).bind ?_
  rintro c1 j ⟨hc1, hj⟩
  refine peek_bind hbuf rfl hj fun j1 hj1 => ?_
  rw [hrest.starts (by decide), if_neg Bool.false_ne_true]
  exact ⟨hc1, hj1⟩

theorem parsepipe_pipe_complete {us : List Lexeme} {d : Tree} (h : Complete buf .cmd ts c)
    (h' : Complete buf .pipe us d) : Complete buf .pipe (ts ++ .sym .pipe :: us) (.pipe c d) := by
  intro i fuel rest hrest hat hfuel
  rw [append_assoc, cons_append] at hat
  rw [length_append, length_cons, Nonterminal.level] at hfuel
  obtain _ | fuel := fuel
  · omega
  rw [parse, parsepipe]
  refine (h (.cons (by decide) _) hat (by rw [Nonterminal.level]; omega)).bind ?_
  rintro c1 j ⟨hc1, hj⟩
  refine peek_sym hbuf .pipe (by decide) hj ?_ fun _ _ hno => by cases hno
  rintro _ j2 ⟨⟩ hj2
  refine (h' hrest hj2 (by rw [Nonterminal.level]; omega)).bind ?_
  rintro d1 j3 ⟨hd1, hj3⟩
  exact ⟨by rw [Cmd.map, hc1, hd1], hj3⟩

theorem parseblock_complete (h : Complete buf .line ts c) (hrs : Redirs rs l) :
    Complete buf .cmd (.sym .lparen :: (ts ++ .sym .rparen :: rs)) (c.redirect l) := by
  intro i fuel rest hrest hat hfuel
  rw [length_cons, length_append, length_cons, Nonterminal.level] at hfuel
  obtain ⟨fuel, rfl⟩ : ∃ n, fuel = n + 2 := ⟨fuel - 2, by omega⟩
  have hopen : starts ['('.toUInt8] (.sym .lparen :: (ts ++ .sym .rparen :: rs) ++ rest) = true :=
    rfl
  rw [parse, parseexec]
  refine peek_bind hbuf rfl hat fun j hj => ?_
  rw [if_pos hopen, parseblock]
  refine peek_sym hbuf .lparen (by decide) hj ?_ fun _ _ hno => by cases hno
  rintro _ j2 ⟨⟩ hj2
  replace hj2 : At buf j2 (ts ++ .sym .rparen :: (rs ++ rest)) := by
    rw [← cons_append, ← append_assoc]
    exact hj2
  refine (h (.cons (by decide) _) hj2 (by rw [Nonterminal.level]; omega)).bind ?_
  rintro c1 j3 ⟨rfl, hj3⟩
  refine peek_sym hbuf .rparen (by decide) hj3 ?_ fun _ _ hno => by cases hno
  rintro _ j5 ⟨⟩ hj5
  refine parseredirs_complete hbuf hrs (hrest.starts (by decide)) hj5 ?_
  have := hj5.length_le
  rw [length_append] at this
  omega

theorem parseexec_complete {ws : List (List UInt8)} {l' : List Redirection} (hrs : Redirs rs l)
    (hts : Words ts ws l') (hcount : ws.length ≤ maxArgs - 1) :
    Complete buf .cmd (rs ++ ts) ((Cmd.exec ws).redirect (l ++ l')) := by
  intro i fuel rest hrest hat hfuel
  rw [append_assoc] at hat
  rw [Nonterminal.level] at hfuel
  obtain _ | fuel := fuel
  · omega
  have hstart : ∀ toks, starts toks rest = false → (∀ sym : Sym, sym.mode.isSome →
      toks.contains sym.first = false) → starts toks (rs ++ (ts ++ rest)) = false := by
    intro toks hrest hmode
    cases hrs with
    | nil => exact hts.starts hrest
    | cons h _ =>
      rw [cons_append, starts_sym]
      exact hmode _ (by rw [h]; rfl)
  rw [parse, parseexec]
  refine peek_bind hbuf rfl hat fun j hj => ?_
  rw [hstart _ (hrest.starts (by decide)) (by rintro (_ | _) <;> decide), if_neg Bool.false_ne_true]
  have hlen := hj.length_le
  rw [length_append, length_append] at hlen
  refine (parseredirs_complete hbuf hrs (hts.starts (hrest.starts (by decide))) hj
    (by omega)).bind ?_
  rintro c1 j1 ⟨hc1, hj1⟩
  replace hc1 : c1.map (text buf) = (Cmd.exec []).redirect l := hc1
  exact parseargs_complete hbuf hts hrest hj1 (by omega) hc1 hcount

/-- **The parser takes every phrase.** -/
theorem parse_complete {t : Tree} (h : Derives nt ts t) : Complete buf nt ts t := by
  induction h with
  | line n _ ih => exact parseline_complete hbuf n ih
  | seq n _ _ ih ih' => exact parseline_seq_complete hbuf n ih ih'
  | single _ ih => exact parsepipe_complete hbuf ih
  | pipe _ _ ih ih' => exact parsepipe_pipe_complete hbuf ih ih'
  | block _ hrs ih => exact parseblock_complete hbuf ih hrs
  | simple hrs hts hcount => exact parseexec_complete hbuf hrs hts hcount

end Complete

/-! ### The parser -/

section Parsecmd

variable {buf : List UInt8}

theorem parseall_sound (hbuf : 0 ∉ buf) : Runs (parseall buf) 0 (· ≠ .fuel) fun c _ =>
    Derives .line (tokenize buf) (c.map (text buf)) := by
  have hat : At buf 0 (tokenize buf) := ⟨Nat.zero_le _, rfl⟩
  rw [parseall]
  refine (((parse_sound hbuf _).1 hat).weaken fun e he hfuel => ?_).bind ?_
  · have hlt := he hfuel
    have hle := hat.length_le
    rw [depth] at hlt
    omega
  rintro c j ⟨us, ls, hls, hus, hj⟩
  refine (peek_spec hbuf rfl hj).bind ?_
  rintro b j1 ⟨-, -, hend⟩
  rw [Runs.get_bind]
  split_ifs with hne
  · exact fun hfuel => by cases hfuel
  · rw [hend.mpr (not_not.mp hne), append_nil] at hls
    rw [hls]
    exact hus

theorem parseall_complete (hbuf : 0 ∉ buf) {t : Tree} (h : Derives .line (tokenize buf) t) :
    Runs (parseall buf) 0 (fun _ => False) fun c _ => c.map (text buf) = t := by
  have hat : At buf 0 (tokenize buf ++ []) := ⟨Nat.zero_le _, (List.append_nil _).symm⟩
  have hfuel : 4 * (tokenize buf).length + Nonterminal.line.level ≤ depth buf := by
    have := length_tokenize_le _ buf le_rfl
    rw [depth, Nonterminal.level]
    omega
  rw [parseall]
  refine (parse_complete hbuf h .nil hat hfuel).bind ?_
  rintro c j ⟨hc, hj⟩
  refine (peek_spec hbuf rfl hj).bind ?_
  rintro b j1 ⟨-, -, hend⟩
  rw [Runs.get_bind, if_neg (not_not.mpr (hend.mp rfl))]
  exact hc

end Parsecmd

/-- **The parser decides the grammar.** For every line, `parsecmd` returns its tree if it is a
phrase of the grammar, and the line has no other; and it reports an error if the line is no phrase.
-/
theorem parsecmd_exact (s : List UInt8) :
    (∃ c, parsecmd s = .ok c ∧
      ∀ t, Derives .line (tokenize (cstring s)) t ↔ t = c.map (text (cstring s))) ∨
    ∃ e, parsecmd s = .error e ∧ e ≠ .fuel ∧ ∀ t, ¬ Derives .line (tokenize (cstring s)) t := by
  have hbuf := zero_not_mem_cstring s
  cases hrun : parseall (cstring s) 0 with
  | ok r =>
    obtain ⟨c, j⟩ := r
    refine Or.inl ⟨c, by rw [parsecmd, StateT.run', hrun]; rfl, fun t => ⟨fun ht => ?_, ?_⟩⟩
    · exact ((parseall_complete hbuf ht).of_ok hrun).symm
    · rintro rfl
      exact (parseall_sound hbuf).of_ok hrun
  | error e =>
    refine Or.inr ⟨e, by rw [parsecmd, StateT.run', hrun]; rfl, ?_, fun t ht => ?_⟩
    · exact (parseall_sound hbuf).of_error hrun
    · exact (parseall_complete hbuf ht).of_error hrun

end Xv6.Sh
