import Mathlib.Algebra.BigOperators.Group.List.Basic
import Xv6.Mem.Exec
import Xv6.Mem.Isolation

/-!
# The argument stack

The end of the construction of `exec`: the strings of the arguments are pushed on the stack page,
one below the other, each at a multiple of sixteen, and then the array of their addresses with a
zero at its end. The stack pointer is an unsigned number; it is compared with the bottom of the page
only after the subtraction, which may have wrapped around.
-/

namespace Xv6

open List

/-! ### The source -/

/-- Pushing the argument strings and then the array of their addresses: `argc` and `sp`, or `none`
for `goto bad`. -/
def pushArgv (kend stackbase : ℕ) (argv : List (List UInt8)) (sp : ℕ) (pt : PageTable) (m : Phys) :
    Except Panic (Option (ℕ × ℕ) × PageTable × Phys) := do
  let (r, pt, m) ← pushStrings kend stackbase argv sp [] pt m
  match r with
  | none => return (none, pt, m)
  | some (sp, ustack) =>
    let len := (ustack.length + 1) * 8
    let sp := pushDown sp len
    if sp < stackbase then return (none, pt, m)
    else
      let (r, pt, m) ← copyout kend pt sp (ustackBytes ustack) len m
      return (if r then some (ustack.length, sp) else none, pt, m)

/-- The guard page, the stack and the arguments. -/
def execStackTo (kend : ℕ) (argv : List (List UInt8)) (sp : Space) (m : Phys) :
    Except Panic (Option (ℕ × ℕ) × Space × Phys) := do
  let (r, sp, m) ← execPages kend sp m
  if r then
    let (r, pt, m) ← pushArgv kend (stackBase sp.sz) argv sp.sz sp.pt m
    return (r, ⟨pt, sp.sz⟩, m)
  else return (none, sp, m)

section Erase

variable {kend : ℕ}

theorem ok_bind_except {ε α β : Type} (a : α) (f : α → Except ε β) : (.ok a >>= f) = f a := rfl

theorem map_bind_except {ε α β γ : Type} (x : Except ε α) (f : α → Except ε β) (g : β → γ) :
    Except.map g (x >>= f) = x >>= fun a => Except.map g (f a) := by
  cases x <;> rfl

theorem pushArgv_eq {stackbase sp usp usp' : ℕ} {argv : List (List UInt8)} {ustack : List ℕ}
    {pt pt' : PageTable} {m m' : Phys}
    (h : pushStrings kend stackbase argv sp [] pt m = .ok (some (usp, ustack), pt', m'))
    (husp : pushDown usp ((ustack.length + 1) * 8) = usp') :
    pushArgv kend stackbase argv sp pt m =
      if usp' < stackbase then .ok (none, pt', m')
      else do
        let (r, pt, m) ← copyout kend pt' usp' (ustackBytes ustack) ((ustack.length + 1) * 8) m'
        return (if r then some (ustack.length, usp') else none, pt, m) := by
  rw [pushArgv, h, ok_bind_except]
  -- the arithmetic of `pushDown` must not be unfolded
  generalize pushDown = push at husp ⊢
  dsimp only
  rw [husp]
  rfl

theorem pushArgs_eq_map (stackbase : ℕ) (argv : List (List UInt8)) (sp : ℕ) (pt : PageTable)
    (m : Phys) : pushArgs kend stackbase argv sp pt m =
      (pushArgv kend stackbase argv sp pt m).map fun r => (r.1.isSome, r.2) := by
  have hlast : ∀ (x : Except Panic (Bool × PageTable × Phys)) (a : ℕ × ℕ), x =
      Except.map (fun r : Option (ℕ × ℕ) × PageTable × Phys => (r.1.isSome, r.2))
        (x >>= fun r => pure (if r.1 then some a else none, r.2.1, r.2.2)) := by
    rintro (_ | ⟨_ | _, pt, m⟩) a <;> rfl
  rw [pushArgs, pushArgv, map_bind_except]
  refine congrArg _ (funext ?_)
  rintro ⟨_ | ⟨sp, ustack⟩, pt, m⟩
  · rfl
  · dsimp only
    by_cases hlow : pushDown sp ((ustack.length + 1) * 8) < stackbase
    · rw [if_pos hlow, if_pos hlow]
      rfl
    · rw [if_neg hlow, if_neg hlow]
      exact hlast _ _

theorem execStack_eq_map (argv : List (List UInt8)) (sp : Space) (m : Phys) :
    execStack kend argv sp m = (execStackTo kend argv sp m).map fun r => (r.1.isSome, r.2) := by
  rw [execStack_eq, execStackTo, map_bind_except]
  refine congrArg _ (funext ?_)
  rintro ⟨_ | _, sp, m⟩
  · rfl
  · dsimp only
    rw [if_pos rfl, if_pos rfl, pushArgs_eq_map, map_bind_except]
    generalize pushArgv kend (stackBase sp.sz) argv sp.sz sp.pt m = pushed
    cases pushed <;> rfl

end Erase

/-! ### Sizes -/

def align16 (n : ℕ) : ℕ := (n + 15) / 16 * 16

def stringsSize (argv : List (List UInt8)) : ℕ := (argv.map fun arg => align16 (arg.length + 1)).sum

theorem stringsSize_nil : stringsSize [] = 0 := rfl

theorem stringsSize_cons (arg : List UInt8) (argv : List (List UInt8)) :
    stringsSize (arg :: argv) = align16 (arg.length + 1) + stringsSize argv := by
  rw [stringsSize, map_cons, sum_cons, stringsSize]

theorem stringsSize_mod (argv : List (List UInt8)) : stringsSize argv % 16 = 0 := by
  induction argv with
  | nil => rfl
  | cons arg argv ih =>
    rw [stringsSize_cons, align16]
    omega

/-- What the strings and the array of their addresses take of the stack. -/
def argsSize (argv : List (List UInt8)) : ℕ := stringsSize argv + align16 ((argv.length + 1) * 8)

theorem pushDown_eq {sp n : ℕ} (hsp : sp < 2 ^ 64) (h16 : sp % 16 = 0) (hn : n ≤ sp) :
    pushDown sp n = sp - align16 n := by
  have hsub : (sp + 2 ^ 64 - n % 2 ^ 64) % 2 ^ 64 = sp - n := by omega
  rw [pushDown, hsub, align16]
  omega

theorem le_pushDown {sp n : ℕ} (hn : n ≤ 2 ^ 63) (hlt : sp < n) : maxVa ≤ pushDown sp n := by
  have hsub : (sp + 2 ^ 64 - n % 2 ^ 64) % 2 ^ 64 = sp + 2 ^ 64 - n := by omega
  rw [pushDown, hsub]
  simp only [maxVa]
  omega

/-! ### What is on the stack -/

/-- The byte at the address `x`. -/
def viewByte (u : ℕ → Option UPage) (x : ℕ) : Option UInt8 :=
  (u (x / pgSize)).map fun page => page.bytes ⟨x % pgSize, mod_pgSize_lt x⟩

/-- The bytes from the address `a` on are `l`. -/
def Holds (byte : ℕ → Option UInt8) (a : ℕ) (l : List UInt8) : Prop :=
  ∀ k b, l[k]? = some b → byte (a + k) = some b

/-- The strings `argv`, each with its end, lie at the addresses `addrs` between `bot` and `top`,
each below the one before. -/
structure Pushed (byte : ℕ → Option UInt8) (bot top : ℕ) (argv : List (List UInt8))
    (addrs : List ℕ) : Prop where
  length : addrs.length = argv.length
  aligned : ∀ a ∈ addrs, a % 16 = 0
  within : ∀ (i : ℕ) (arg : List UInt8) (a : ℕ), argv[i]? = some arg → addrs[i]? = some a →
    bot ≤ a ∧ a + (arg.length + 1) ≤ top
  string : ∀ (i : ℕ) (arg : List UInt8) (a : ℕ), argv[i]? = some arg → addrs[i]? = some a →
    Holds byte a (arg ++ [0])
  apart : ∀ (i j : ℕ) (arg : List UInt8) (a b : ℕ), i < j → argv[j]? = some arg →
    addrs[i]? = some a → addrs[j]? = some b → b + (arg.length + 1) ≤ a

namespace Pushed

variable {byte byte' : ℕ → Option UInt8} {bot top : ℕ} {argv : List (List UInt8)} {addrs : List ℕ}

theorem nil : Pushed byte bot top [] [] where
  length := rfl
  aligned a ha := absurd ha not_mem_nil
  within i arg a h := by simp at h
  string i arg a h := by simp at h
  apart i j arg a b _ h := by simp at h

theorem cons {arg : List UInt8} {addr : ℕ} (h : Pushed byte bot addr argv addrs)
    (h16 : addr % 16 = 0) (hbot : bot ≤ addr) (htop : addr + (arg.length + 1) ≤ top)
    (hstr : Holds byte addr (arg ++ [0])) :
    Pushed byte bot top (arg :: argv) (addr :: addrs) where
  length := by rw [length_cons, length_cons, h.length]
  aligned a ha := by
    rcases mem_cons.mp ha with rfl | ha
    · exact h16
    · exact h.aligned a ha
  within i arg' a hi ha := by
    cases i with
    | zero =>
      cases hi
      cases ha
      exact ⟨hbot, htop⟩
    | succ i =>
      have := h.within i arg' a hi ha
      omega
  string i arg' a hi ha := by
    cases i with
    | zero =>
      cases hi
      cases ha
      exact hstr
    | succ i => exact h.string i arg' a hi ha
  apart i j arg' a b hij hj ha hb := by
    cases j with
    | zero => exact absurd hij (Nat.not_lt_zero i)
    | succ j =>
      cases i with
      | zero =>
        cases ha
        exact (h.within j arg' b hj hb).2
      | succ i => exact h.apart i j arg' a b (Nat.lt_of_succ_lt_succ hij) hj ha hb

theorem mono (h : Pushed byte bot top argv addrs) {bot' : ℕ} (hle : bot' ≤ bot) :
    Pushed byte bot' top argv addrs :=
  { h with within := fun i arg a hi ha =>
      ⟨hle.trans (h.within i arg a hi ha).1, (h.within i arg a hi ha).2⟩ }

theorem congr (h : Pushed byte bot top argv addrs)
    (hbyte : ∀ x, bot ≤ x → x < top → byte' x = byte x) : Pushed byte' bot top argv addrs where
  length := h.length
  aligned := h.aligned
  within := h.within
  string i arg a hi ha k b hb := by
    have hin := h.within i arg a hi ha
    have hk : k < (arg ++ [0]).length := (List.getElem?_eq_some_iff.mp hb).1
    rw [length_append, length_singleton] at hk
    rw [hbyte _ (by omega) (by omega)]
    exact h.string i arg a hi ha k b hb
  apart := h.apart

end Pushed

def le64 (n : ℕ) : List UInt8 := (List.range 8).map fun j => UInt8.ofNat (n / 2 ^ (8 * j))

/-- **A stack of arguments** between `bot` and `top`: at `sp` the array of the addresses of the
strings, with a zero at its end, and above it the strings. -/
structure ArgStack (byte : ℕ → Option UInt8) (bot top : ℕ) (argv : List (List UInt8))
    (addrs : List ℕ) (sp : ℕ) : Prop where
  bot_le : bot ≤ sp
  aligned : sp % 16 = 0
  pointer : ∀ (i a : ℕ), addrs[i]? = some a → Holds byte (sp + 8 * i) (le64 a)
  null : Holds byte (sp + 8 * argv.length) (le64 0)
  array_le : sp + 8 * (argv.length + 1) ≤ top
  strings : Pushed byte (sp + 8 * (argv.length + 1)) top argv addrs

theorem holds_ustack {byte : ℕ → Option UInt8} {a : ℕ} {ustack : List ℕ}
    (hbyte : ∀ x, a ≤ x → x < a + (ustack.length + 1) * 8 →
      byte x = some (ustackBytes ustack (x - a))) {i : ℕ} (hi : i ≤ ustack.length) :
    Holds byte (a + 8 * i) (le64 (ustack.getD i 0)) := by
  intro k b hb
  have hk : k < 8 := by
    have := (List.getElem?_eq_some_iff.mp hb).1
    rwa [le64, length_map, length_range] at this
  rw [le64, getElem?_map, getElem?_range hk] at hb
  cases hb
  have hdiv : (a + 8 * i + k - a) / 8 = i := by omega
  have hmod : (a + 8 * i + k - a) % 8 = k := by omega
  rw [hbyte _ (by omega) (by omega), ustackBytes, hdiv, hmod]

/-! ### Pushing -/

section Push

variable {kend v : ℕ} {K U : ℕ → ℕ} {m0 m : Phys} {sp : Space}

theorem Building.copyout_page (a len : ℕ) (src : ℕ → UInt8) (hk : 0 < kend)
    (hu : UserPage (sp.pt.leaf v)) (hW : (sp.pt.leaf v).has pteW = true)
    (h : Building kend K U m0 sp m) (ha : v * pgSize ≤ a) (hin : a + len ≤ (v + 1) * pgSize)
    (hlen : len ≠ 0) :
    ∃ m', copyout kend sp.pt a src len m = .ok (true, sp.pt, m') ∧ Building kend K U m0 sp m' ∧
      ∀ x, viewByte (userView m'.mem sp.pt.leaf) x =
        if a ≤ x ∧ x < a + len then some (src (x - a))
        else viewByte (userView m.mem sp.pt.leaf) x := by
  have hv := hu.lt h.top
  have hdiv : a / pgSize = v := by
    simp only [pgSize] at ha hin ⊢
    omega
  have hmod : v * pgSize + a % pgSize = a := by
    simp only [pgSize] at ha hin hdiv ⊢
    omega
  have hroom : a % pgSize + len ≤ pgSize := by
    simp only [pgSize] at hmod hin ⊢
    omega
  obtain ⟨fuel, rfl⟩ := Nat.exists_eq_succ_of_ne_zero hlen
  refine ⟨m.memmove (sp.pt.leaf v).frame (a % pgSize) (fuel + 1) src, ?_, ?_, fun x => ?_⟩
  · rw [copyout, copyoutLoop_user (by rwa [hdiv]) (by rwa [hdiv])
      (by rw [hdiv]; exact h.nocow v hv hu.1) (by rw [hdiv]; exact hu.frame_pos h.top h.ok hk) hlen,
      hdiv, min_eq_right (by omega), Nat.sub_self, copyoutLoop_zero]
  · exact h.congr rfl rfl fun f hne => Function.update_of_ne (hne v hu).symm ..
  · have hview := (memmove_view src h.ok hv hu.1 hW hroom).2
    rw [hmod] at hview
    rw [hview, viewByte, viewByte]
    split_ifs with hx
    · rw [writeView_byte_of_mem hx]
      have hxv : x / pgSize = v := by
        simp only [pgSize] at ha hin hx ⊢
        omega
      rw [hxv, userView_of_lt hv, Pte.view, if_pos hu.1]
      rfl
    · exact writeView_byte_of_not_mem hx

/-- **Pushing the strings** on the stack page `v`, from `usp` down: they are pushed if they fit. -/
theorem pushStrings_exact (hk : 0 < kend) (hu : UserPage (sp.pt.leaf v))
    (hW : (sp.pt.leaf v).has pteW = true) (argv : List (List UInt8)) :
    ∀ {m : Phys} {usp : ℕ} {ustack : List ℕ}, Building kend K U m0 sp m → v * pgSize ≤ usp →
      usp ≤ (v + 1) * pgSize → usp % 16 = 0 → ustack.length + argv.length ≤ maxArg →
      (∀ arg ∈ argv, arg.length < 2 ^ 63) →
      ∃ m', Building kend K U m0 sp m' ∧
        if v * pgSize + stringsSize argv ≤ usp then
          ∃ addrs, pushStrings kend (v * pgSize) argv usp ustack sp.pt m =
              .ok (some (usp - stringsSize argv, ustack ++ addrs), sp.pt, m') ∧
            Pushed (viewByte (userView m'.mem sp.pt.leaf)) (usp - stringsSize argv) usp argv addrs ∧
            ∀ x, usp ≤ x → viewByte (userView m'.mem sp.pt.leaf) x =
              viewByte (userView m.mem sp.pt.leaf) x
        else pushStrings kend (v * pgSize) argv usp ustack sp.pt m = .ok (none, sp.pt, m') := by
  induction argv with
  | nil =>
    intro m usp ustack h hlow _ _ _ _
    refine ⟨m, h, ?_⟩
    rw [stringsSize_nil, Nat.add_zero, if_pos hlow, Nat.sub_zero]
    exact ⟨[], by rw [append_nil]; rfl, .nil, fun _ _ => rfl⟩
  | cons arg argv ih =>
    intro m usp ustack h hlow hhigh h16 hcount hlens
    have hv := hu.lt h.top
    have husp : usp < 2 ^ 64 := by
      simp only [userPages, trapframeVa, trampolineVa, pgSize, maxVa] at hv hhigh
      omega
    have hlen : arg.length + 1 ≤ 2 ^ 63 := hlens arg mem_cons_self
    have hsize := stringsSize_cons arg argv
    have halign : arg.length + 1 ≤ align16 (arg.length + 1) := by
      rw [align16]
      omega
    have hnot : ¬ maxArg ≤ ustack.length := by
      rw [length_cons] at hcount
      omega
    rw [pushStrings]
    by_cases hwrap : usp < arg.length + 1
    · -- the subtraction wraps around, and `copyout` fails
      have hfar := le_pushDown hlen hwrap
      have hpage : userPages ≤ pushDown usp (arg.length + 1) / pgSize := by
        simp only [userPages, trapframeVa, trampolineVa, pgSize, maxVa] at hfar ⊢
        omega
      have hno : ¬ UserPage (sp.pt.leaf (pushDown usp (arg.length + 1) / pgSize)) := by
        rintro ⟨-, hU⟩
        rw [h.top.noUser _ hpage] at hU
        cases hU
      have hbase : ¬ pushDown usp (arg.length + 1) < v * pgSize := by
        simp only [userPages, trapframeVa, trampolineVa, pgSize, maxVa] at hfar hv ⊢
        omega
      refine ⟨m, h, ?_⟩
      rw [if_neg (by omega), if_neg hnot, if_neg hbase, copyout,
        copyoutLoop_not_user hno (by omega)]
      rfl
    have h16' : align16 (arg.length + 1) % 16 = 0 := Nat.mul_mod_left _ _
    rw [pushDown_eq husp h16 (not_lt.mp hwrap)]
    dsimp only
    rw [if_neg hnot]
    by_cases hbase : usp - align16 (arg.length + 1) < v * pgSize
    · refine ⟨m, h, ?_⟩
      rw [if_neg (by omega), if_pos hbase]
    · have hle : align16 (arg.length + 1) ≤ usp := by
        rw [align16] at hbase ⊢
        omega
      obtain ⟨m1, hcopy, h1, hbyte1⟩ := h.copyout_page (usp - align16 (arg.length + 1))
        (arg.length + 1) (fun i => arg.getD i 0) hk hu hW (not_lt.mp hbase) (by omega)
        (by omega)
      have hcount' :
          (ustack ++ [usp - align16 (arg.length + 1)]).length + argv.length ≤ maxArg := by
        rw [length_append, length_singleton]
        rw [length_cons] at hcount
        omega
      obtain ⟨m', h', hr⟩ := ih h1 (not_lt.mp hbase) (by omega) (by omega) hcount'
        fun a ha => hlens a (mem_cons_of_mem _ ha)
      refine ⟨m', h', ?_⟩
      rw [if_neg hbase, hcopy]
      by_cases hfit : v * pgSize + stringsSize argv ≤ usp - align16 (arg.length + 1)
      · rw [if_pos hfit] at hr
        obtain ⟨addrs, hrun, hpushed, hsame⟩ := hr
        have hend : usp - align16 (arg.length + 1) - stringsSize argv =
            usp - stringsSize (arg :: argv) := by omega
        rw [hend] at hrun hpushed
        have hfit' : v * pgSize + stringsSize (arg :: argv) ≤ usp := by
          rw [hsize, ← add_assoc, add_right_comm]
          exact Nat.add_le_of_le_sub hle hfit
        rw [if_pos hfit']
        refine ⟨(usp - align16 (arg.length + 1)) :: addrs, ?_, ?_, fun x hx => ?_⟩
        · have happ : ustack ++ (usp - align16 (arg.length + 1)) :: addrs =
              ustack ++ [usp - align16 (arg.length + 1)] ++ addrs := append_cons ..
          rw [happ]
          exact hrun
        · refine hpushed.cons (by omega) (by omega) (by omega) fun k b hb => ?_
          -- the strings below have left this one alone
          have hk' := (List.getElem?_eq_some_iff.mp hb).1
          rw [length_append, length_singleton] at hk'
          rw [hsame _ (by omega), hbyte1, if_pos (by omega), Nat.add_sub_cancel_left]
          rw [getElem?_append] at hb
          split_ifs at hb with hlt
          · rw [getD_eq_getElem?_getD, hb]
            rfl
          · obtain rfl : k = arg.length := by omega
            rw [Nat.sub_self] at hb
            cases hb
            rw [getD_eq_getElem?_getD, getElem?_eq_none le_rfl]
            rfl
        · rw [hsame x (by omega), hbyte1, if_neg (by omega)]
      · rw [if_neg hfit] at hr
        rw [if_neg (by omega)]
        exact hr

/-- **Pushing the arguments** on the stack page `v`: they are pushed if they fit in the page. -/
theorem pushArgv_exact (hk : 0 < kend) (hu : UserPage (sp.pt.leaf v))
    (hW : (sp.pt.leaf v).has pteW = true) (hv : 0 < v) {argv : List (List UInt8)}
    (h : Building kend K U m0 sp m) (hcount : argv.length ≤ maxArg)
    (hlens : ∀ arg ∈ argv, arg.length < 2 ^ 63) :
    ∃ m', Building kend K U m0 sp m' ∧
      if argsSize argv ≤ pgSize then
        ∃ addrs, pushArgv kend (v * pgSize) argv ((v + 1) * pgSize) sp.pt m =
            .ok (some (argv.length, (v + 1) * pgSize - argsSize argv), sp.pt, m') ∧
          ArgStack (viewByte (userView m'.mem sp.pt.leaf)) (v * pgSize) ((v + 1) * pgSize) argv
            addrs
            ((v + 1) * pgSize - argsSize argv)
      else pushArgv kend (v * pgSize) argv ((v + 1) * pgSize) sp.pt m = .ok (none, sp.pt, m') := by
  have htop : (v + 1) * pgSize = v * pgSize + pgSize := Nat.succ_mul v pgSize
  obtain ⟨m1, h1, hr⟩ := pushStrings_exact hk hu hW argv h (by omega) le_rfl
    (by simp only [pgSize]; omega) (by rwa [length_nil, zero_add]) hlens
  have hS16 := stringsSize_mod argv
  by_cases hfit : v * pgSize + stringsSize argv ≤ (v + 1) * pgSize
  · rw [if_pos hfit] at hr
    obtain ⟨addrs, hrun, hpushed, hsame⟩ := hr
    rw [nil_append] at hrun
    have hlen : (argv.length + 1) * 8 ≤ 264 := by
      simp only [maxArg] at hcount
      omega
    have hbase : 4096 ≤ v * pgSize := Nat.le_mul_of_pos_left pgSize hv
    have hlt : (v + 1) * pgSize - stringsSize argv < 2 ^ 64 := by
      have := hu.lt h.top
      simp only [userPages, trapframeVa, trampolineVa, pgSize, maxVa] at this ⊢
      omega
    have hmod : ((v + 1) * pgSize - stringsSize argv) % 16 = 0 := by
      simp only [pgSize] at hfit ⊢
      omega
    have hsp : pushDown ((v + 1) * pgSize - stringsSize argv) ((addrs.length + 1) * 8) =
        (v + 1) * pgSize - argsSize argv := by
      rw [hpushed.length, pushDown_eq hlt hmod (by omega), argsSize, Nat.sub_sub]
    have halign : (argv.length + 1) * 8 ≤ align16 ((argv.length + 1) * 8) ∧
        align16 ((argv.length + 1) * 8) % 16 = 0 ∧ align16 ((argv.length + 1) * 8) ≤ 4096 := by
      rw [align16]
      omega
    have hsize : argsSize argv = stringsSize argv + align16 ((argv.length + 1) * 8) := rfl
    rw [pushArgv_eq hrun hsp, hpushed.length]
    by_cases hlow : (v + 1) * pgSize - argsSize argv < v * pgSize
    · refine ⟨m1, h1, ?_⟩
      rw [if_neg (by omega), if_pos hlow]
    · have hargs : argsSize argv ≤ pgSize := by omega
      obtain ⟨m', hcopy, h', hbyte⟩ := h1.copyout_page ((v + 1) * pgSize - argsSize argv)
        ((argv.length + 1) * 8) (ustackBytes addrs) hk hu hW (not_lt.mp hlow) (by omega)
        (by omega)
      have harray : ∀ i ≤ argv.length, Holds (viewByte (userView m'.mem sp.pt.leaf))
          ((v + 1) * pgSize - argsSize argv + 8 * i) (le64 (addrs.getD i 0)) := by
        intro i hi
        refine holds_ustack (fun x hx hx' => ?_) (hpushed.length.symm ▸ hi)
        rw [hpushed.length] at hx'
        rw [hbyte, if_pos ⟨hx, hx'⟩]
      refine ⟨m', h', ?_⟩
      rw [if_pos hargs, if_neg hlow, hcopy]
      refine ⟨addrs, rfl, not_lt.mp hlow, by omega, fun i a ha => ?_, ?_, by omega, ?_⟩
      · have hi := (List.getElem?_eq_some_iff.mp ha).1
        have := harray i (hpushed.length ▸ hi.le)
        rwa [getD_eq_getElem?_getD, ha] at this
      · have := harray argv.length le_rfl
        rwa [getD_eq_getElem?_getD, getElem?_eq_none hpushed.length.le] at this
      · refine (hpushed.mono (by omega)).congr fun x hx hx' => ?_
        rw [hbyte, if_neg (by omega)]
  · rw [if_neg hfit] at hr
    refine ⟨m1, h1, ?_⟩
    have hnot : ¬ argsSize argv ≤ pgSize := by
      rw [argsSize]
      omega
    rw [if_neg hnot, pushArgv, hr]
    rfl

/-- **The stack of the new image**: a guard page that the user cannot access, and above it a page
with the arguments. Arguments that do not fit in the page are refused. -/
theorem execStackTo_spec {E : Panic → Prop} (hk : 0 < kend) {argv : List (List UInt8)}
    (h : Building kend K U m0 sp m) (hcount : argv.length ≤ maxArg)
    (hlens : ∀ arg ∈ argv, arg.length < 2 ^ 63) :
    Ensures (execStackTo kend argv sp m) E fun r => Building kend K U m0 r.2.1 r.2.2 ∧
      ∀ argc usp, r.1 = some (argc, usp) → argc = argv.length ∧ argsSize argv ≤ pgSize ∧
        2 * pgSize ≤ r.2.1.sz ∧ r.2.1.sz % pgSize = 0 ∧
        ¬ UserPage (r.2.1.pt.leaf (guardPage r.2.1.sz / pgSize)) ∧
        UserPage (r.2.1.pt.leaf (stackBase r.2.1.sz / pgSize)) ∧
        ∃ addrs, ArgStack (viewByte (userView r.2.2.mem r.2.1.pt.leaf)) (stackBase r.2.1.sz)
          r.2.1.sz argv addrs usp := by
  rw [execStackTo]
  refine (execPages_spec h).bind ?_
  rintro ⟨r, sp1, m1⟩ ⟨h1, hst⟩
  cases r with
  | false => exact ⟨h1, fun _ _ hr => by cases hr⟩
  | true =>
    obtain ⟨hsz, hguard, hstack⟩ := hst rfl
    dsimp only at hsz hguard hstack h1 ⊢
    have hu : UserPage (sp1.pt.leaf (npages sp.sz + 1)) := userPage_of_view hstack rfl
    have hv := hu.lt h1.top
    -- a page that is seen as writable and is not marked copy on write is writable
    have hW : (sp1.pt.leaf (npages sp.sz + 1)).has pteW = true := by
      have hw := hstack
      rw [userView_of_lt hv, Pte.view, if_pos hu.1, h1.nocow _ hv hu.1, Bool.or_false] at hw
      exact congrArg UPage.w (Option.some_inj.mp hw)
    have hbase : stackBase sp1.sz = (npages sp.sz + 1) * pgSize := by
      unfold stackBase
      rw [hsz]
      simp only [pgSize]
      omega
    have htop : sp1.sz = (npages sp.sz + 1 + 1) * pgSize := by
      rw [hsz, ← add_mul]
    have hgpage : guardPage sp1.sz / pgSize = npages sp.sz := by
      unfold guardPage
      rw [hsz, Nat.add_sub_cancel, Nat.mul_div_cancel _ (by decide)]
    have hspage : stackBase sp1.sz / pgSize = npages sp.sz + 1 := by
      rw [hbase, Nat.mul_div_cancel _ (by decide)]
    have hroom : 2 * pgSize ≤ sp1.sz := hsz ▸ Nat.le_add_left _ _
    have hwhole : sp1.sz % pgSize = 0 := htop ▸ Nat.mul_mod_left _ _
    obtain ⟨m', h', hr⟩ := pushArgv_exact hk hu hW (Nat.succ_pos _) h1 hcount hlens
    rw [← htop, ← hbase] at hr
    rw [if_pos rfl]
    by_cases hfit : argsSize argv ≤ pgSize
    · rw [if_pos hfit] at hr
      obtain ⟨addrs, hrun, hargs⟩ := hr
      rw [hrun]
      refine ⟨h', ?_⟩
      rintro argc usp ⟨⟩
      rw [hgpage, hspage]
      exact ⟨rfl, hfit, hroom, hwhole, hguard, hu, addrs, hargs⟩
    · rw [if_neg hfit] at hr
      rw [hr]
      exact ⟨h', fun _ _ hr => by cases hr⟩

end Push

end Xv6
