import Xv6.Mem.Procs

/-!
# Copying in from user memory

`copyin` and `copyinstr` translate once for every page that they read from. They do what a reader
would do that fetches one byte at a time, looks up the page of each and stops at the first that the
user cannot access. A page at the physical address 0 counts as one of those: `walkaddr` has no other
way to say that there is no page. No process has such a page, since `kalloc` gives out none.
-/

namespace Xv6

open List

/-- The address is below `MAXVA`, on a valid page of the user that is not at the physical
address 0. -/
def Accessible (pt : PageTable) (a : ℕ) : Prop :=
  a < maxVa ∧ UserPage (pt.leaf (a / pgSize)) ∧ (pt.leaf (a / pgSize)).frame ≠ 0

instance (pt : PageTable) (a : ℕ) : Decidable (Accessible pt a) :=
  inferInstanceAs (Decidable (_ ∧ _))

def userByte (pt : PageTable) (m : Phys) (a : ℕ) : UInt8 :=
  m.mem (pt.leaf (a / pgSize)).frame ⟨a % pgSize, mod_pgSize_lt a⟩

/-- The `n` bytes from a user address on. -/
def userBytes (pt : PageTable) (m : Phys) (a n : ℕ) : List UInt8 :=
  (List.range n).map fun i => userByte pt m (a + i)

/-- Reading byte by byte up to a 0, which must be among the first `max` bytes. -/
def stringAt (pt : PageTable) (m : Phys) : (max a : ℕ) → Option (List UInt8)
  | 0, _ => none
  | max + 1, a =>
    if Accessible pt a then
      if userByte pt m a = 0 then some [0]
      else (stringAt pt m max (a + 1)).map (userByte pt m a :: ·)
    else none

/-- The byte at the offset `k` is 0, none before it is, and they can all be read. -/
def IsString (pt : PageTable) (m : Phys) (a k : ℕ) : Prop :=
  (∀ i ≤ k, Accessible pt (a + i)) ∧ (∀ i < k, userByte pt m (a + i) ≠ 0) ∧
    userByte pt m (a + k) = 0

/-- `walkaddr` with its call of `walk`, which panics at `MAXVA`. -/
def walkaddrWalk (pt : PageTable) (va : ℕ) (m : Phys) : Except Panic (ℕ × PageTable × Phys) :=
  if maxVa ≤ va then .ok (0, pt, m)
  else (pt.walk va false m).map fun r =>
    (if r.1 = false then 0
      else if (r.2.1.pte va).has pteV = false then 0
      else if (r.2.1.pte va).has pteU = false then 0
      else pte2pa (r.2.1.pte va), r.2)

section

variable {pt : PageTable} {m : Phys} {a n : ℕ}

theorem walkaddrWalk_eq (pt : PageTable) (va : ℕ) (m : Phys) :
    walkaddrWalk pt va m = .ok (walkaddr pt va, pt, m) := by
  rw [walkaddrWalk, walkaddr]
  by_cases hmax : maxVa ≤ va
  · rw [if_pos hmax, if_pos hmax]
  · rw [if_neg hmax, if_neg hmax, PageTable.walk_false pt (Nat.lt_of_not_le hmax)]
    rfl

/-! ### Reading byte by byte -/

theorem userBytes_add (n k : ℕ) :
    userBytes pt m a (n + k) = userBytes pt m a n ++ userBytes pt m (a + n) k := by
  rw [userBytes, range_add, map_append, map_map]
  refine congrArg _ (map_congr_left fun i _ => ?_)
  rw [Function.comp_apply, add_assoc]

theorem userBytes_succ :
    userBytes pt m a (n + 1) = userByte pt m a :: userBytes pt m (a + 1) n := by
  rw [add_comm, userBytes_add]
  rfl

theorem isString_zero : IsString pt m a 0 ↔ Accessible pt a ∧ userByte pt m a = 0 := by
  simp [IsString]

theorem isString_succ {k : ℕ} : IsString pt m a (k + 1) ↔
    Accessible pt a ∧ userByte pt m a ≠ 0 ∧ IsString pt m (a + 1) k := by
  unfold IsString
  rw [Nat.forall_lt_succ_left]
  simp only [← Nat.lt_succ_iff, Nat.forall_lt_succ_left, add_zero, add_assoc, add_comm 1]
  tauto

theorem stringAt_eq_some_iff (max : ℕ) : ∀ {a : ℕ} {s : List UInt8}, stringAt pt m max a = some s ↔
    ∃ k < max, IsString pt m a k ∧ s = userBytes pt m a (k + 1) := by
  induction max with
  | zero => simp [stringAt]
  | succ max ih =>
    intro a s
    rw [stringAt]
    by_cases ha : Accessible pt a
    · rw [if_pos ha]
      by_cases h0 : userByte pt m a = 0
      · rw [if_pos h0]
        constructor
        · rintro ⟨⟩
          exact ⟨0, Nat.succ_pos _, isString_zero.mpr ⟨ha, h0⟩, by simp [userBytes, h0]⟩
        · rintro ⟨_ | k, -, hk, rfl⟩
          · simp [userBytes, h0]
          · exact absurd h0 (isString_succ.mp hk).2.1
      · rw [if_neg h0, Option.map_eq_some_iff]
        constructor
        · rintro ⟨s, hs, rfl⟩
          obtain ⟨k, hk, hstr, rfl⟩ := ih.mp hs
          exact ⟨k + 1, Nat.succ_lt_succ hk, isString_succ.mpr ⟨ha, h0, hstr⟩, userBytes_succ.symm⟩
        · rintro ⟨_ | k, hk, hstr, rfl⟩
          · exact absurd (isString_zero.mp hstr).2 h0
          · exact ⟨_, ih.mpr ⟨k, Nat.lt_of_succ_lt_succ hk, (isString_succ.mp hstr).2.2, rfl⟩,
              userBytes_succ.symm⟩
    · rw [if_neg ha]
      refine iff_of_false (by simp) ?_
      rintro ⟨k, -, hk, -⟩
      exact ha (hk.1 0 (Nat.zero_le k))

/-! ### Page by page -/

theorem walkaddr_eq_zero_iff : walkaddr pt (pgRoundDown a) = 0 ↔ ¬Accessible pt a := by
  have hmax : UserPage (pt.leaf (a / pgSize)) → a < maxVa := by
    intro hu
    by_contra hle
    have hzero : pt.leaf (a / pgSize) = 0#64 :=
      PageTable.leaf_eq_zero pt (Nat.div_le_div_right (Nat.le_of_not_lt hle))
    rw [hzero] at hu
    exact absurd hu.1 (by decide)
  rw [walkaddr_eq, Accessible]
  split_ifs with hu
  · simp [hu, hmax hu]
  · simp [hu]

theorem bytes_eq (ha : Accessible pt a) (hn : n ≤ pgSize - a % pgSize) :
    m.bytes (walkaddr pt (pgRoundDown a) / pgSize) (a - pgRoundDown a) n = userBytes pt m a n := by
  rw [walkaddr_eq, if_pos ha.2.1, Nat.mul_div_cancel _ (by decide)]
  refine map_congr_left fun i hi => ?_
  have hi' := mem_range.mp hi
  have hdiv : (a + i) / pgSize = a / pgSize := by
    simp only [pgSize] at hn ⊢
    omega
  have hmod : (a - pgRoundDown a + i) % pgSize = (a + i) % pgSize := by
    simp only [pgRoundDown, pgSize]
    omega
  rw [userByte, hdiv]
  exact congrArg _ (Fin.ext hmod)

theorem accessible_of_page (ha : Accessible pt a) {i : ℕ} (hi : i < pgSize - a % pgSize) :
    Accessible pt (a + i) := by
  have hdiv : (a + i) / pgSize = a / pgSize := by
    simp only [pgSize] at hi ⊢
    omega
  have hlt := ha.1
  refine ⟨?_, hdiv ▸ ha.2⟩
  simp only [maxVa, pgSize] at hlt hi ⊢
  omega

theorem stringAt_round (hn : ∀ i < n, Accessible pt (a + i)) (max : ℕ) :
    stringAt pt m (n + max) a = if (copyUntilNul (userBytes pt m a n)).2 = true then
        some (copyUntilNul (userBytes pt m a n)).1
      else (stringAt pt m max (a + n)).map ((copyUntilNul (userBytes pt m a n)).1 ++ ·) := by
  induction n generalizing a with
  | zero => simp [userBytes, copyUntilNul]
  | succ n ih =>
    have ha : Accessible pt a := hn 0 (Nat.succ_pos n)
    have hrest : ∀ i < n, Accessible pt (a + 1 + i) := fun i hi => by
      have := hn (i + 1) (Nat.succ_lt_succ hi)
      rwa [add_assoc, add_comm 1]
    rw [Nat.succ_add, stringAt, if_pos ha, ih hrest, userBytes_succ, copyUntilNul,
      add_right_comm a 1 n, ← add_assoc]
    split_ifs <;> simp_all [Function.comp_def]

/-- A round goes to the end of the page, or to the end of what is asked for. -/
theorem round_cases (a len : ℕ) (hlen : len ≠ 0) :
    ∃ n, min (pgSize - (a - pgRoundDown a)) len = n ∧ n ≤ pgSize - a % pgSize ∧ 0 < n ∧
      (n < len ∧ pgRoundDown a + pgSize = a + n ∨ n = len) := by
  refine ⟨_, rfl, ?_⟩
  simp only [pgRoundDown, pgSize]
  omega

theorem copyinLoop_zero (fuel : ℕ) (dst : List UInt8) :
    copyinLoop pt m fuel a 0 dst = (true, dst) := by
  cases fuel <;> rfl

/-- **The loop of `copyin`.** -/
theorem copyinLoop_spec (fuel : ℕ) : ∀ {a len : ℕ} (dst : List UInt8), len ≤ fuel →
    ((∀ i < len, Accessible pt (a + i)) →
      copyinLoop pt m fuel a len dst = (true, dst ++ userBytes pt m a len)) ∧
    ((copyinLoop pt m fuel a len dst).1 = true → ∀ i < len, Accessible pt (a + i)) := by
  induction fuel with
  | zero =>
    intro a len dst hlen
    obtain rfl := Nat.le_zero.mp hlen
    simp [copyinLoop, userBytes]
  | succ fuel ih =>
    intro a len dst hfuel
    by_cases hlen : len = 0
    · subst hlen
      simp [copyinLoop, userBytes]
    obtain ⟨n, hmin, hpage, hpos, hor⟩ := round_cases a len hlen
    rw [copyinLoop, if_neg hlen]
    dsimp only
    by_cases ha : Accessible pt a
    swap
    · rw [if_pos (walkaddr_eq_zero_iff.mpr ha)]
      exact ⟨fun hall => absurd (hall 0 (by omega)) ha, fun h => by cases h⟩
    rw [if_neg fun h => walkaddr_eq_zero_iff.mp h ha, hmin, bytes_eq ha hpage]
    rcases hor with ⟨hlt, hnext⟩ | rfl
    · obtain ⟨k, rfl⟩ := Nat.exists_eq_add_of_le hlt.le
      rw [hnext, Nat.add_sub_cancel_left]
      obtain ⟨hyes, honly⟩ := ih (a := a + n) (dst ++ userBytes pt m a n) (show k ≤ fuel by omega)
      refine ⟨fun hall => ?_, fun h i hi => ?_⟩
      · rw [hyes fun i hi => add_assoc a n i ▸ hall (n + i) (by omega), append_assoc, userBytes_add]
      · rcases lt_or_ge i n with hin | hin
        · exact accessible_of_page ha (hin.trans_le hpage)
        · have := honly h (i - n) (by omega)
          rwa [add_assoc, Nat.add_sub_cancel' hin] at this
    · rw [Nat.sub_self, copyinLoop_zero]
      exact ⟨fun _ => rfl, fun _ i hi => accessible_of_page ha (hi.trans_le hpage)⟩

theorem length_copyUntilNul (l : List UInt8) : (copyUntilNul l).1.length ≤ l.length := by
  induction l with
  | nil => exact le_rfl
  | cons b l ih =>
    rw [copyUntilNul]
    split_ifs
    · exact Nat.succ_le_succ (Nat.zero_le _)
    · exact Nat.succ_le_succ ih

theorem length_copyinstrLoop (pt : PageTable) (m : Phys) (fuel : ℕ) :
    ∀ (srcva max : ℕ) (dst : List UInt8),
      (copyinstrLoop pt m fuel srcva max dst).2.length ≤ dst.length + max := by
  induction fuel with
  | zero =>
    intro srcva max dst
    exact Nat.le_add_right _ _
  | succ fuel ih =>
    intro srcva max dst
    rw [copyinstrLoop]
    split_ifs with hmax
    · exact Nat.le_add_right _ _
    dsimp only
    split_ifs with hpa hgot
    · exact Nat.le_add_right _ _
    all_goals
      have hpart := length_copyUntilNul (m.bytes (walkaddr pt (pgRoundDown srcva) / pgSize)
        (srcva - pgRoundDown srcva) (min (pgSize - (srcva - pgRoundDown srcva)) max))
      rw [Phys.bytes, length_map, length_range, ← Phys.bytes] at hpart
    · rw [length_append]
      omega
    · refine (ih _ _ _).trans ?_
      rw [length_append]
      omega

/-- **The loop of `copyinstr`.** -/
theorem copyinstrLoop_spec (fuel : ℕ) : ∀ {a max : ℕ} (dst : List UInt8), max ≤ fuel →
    (copyinstrLoop pt m fuel a max dst).1 = (stringAt pt m max a).isSome ∧
    ∀ s ∈ stringAt pt m max a, (copyinstrLoop pt m fuel a max dst).2 = dst ++ s := by
  induction fuel with
  | zero =>
    intro a max dst hmax
    obtain rfl := Nat.le_zero.mp hmax
    simp [copyinstrLoop, stringAt]
  | succ fuel ih =>
    intro a max dst hfuel
    by_cases hmax : max = 0
    · subst hmax
      simp [copyinstrLoop, stringAt]
    obtain ⟨n, hmin, hpage, hpos, hor⟩ := round_cases a max hmax
    rw [copyinstrLoop, if_neg hmax]
    dsimp only
    by_cases ha : Accessible pt a
    swap
    · obtain ⟨max, rfl⟩ := Nat.exists_eq_succ_of_ne_zero hmax
      rw [if_pos (walkaddr_eq_zero_iff.mpr ha), stringAt, if_neg ha]
      simp
    have hround := stringAt_round (m := m) (a := a) (n := n)
      fun i hi => accessible_of_page ha (hi.trans_le hpage)
    obtain ⟨k, rfl⟩ : ∃ k, max = n + k := ⟨max - n, by omega⟩
    rw [if_neg fun h => walkaddr_eq_zero_iff.mp h ha, hmin, bytes_eq ha hpage, hround,
      Nat.add_sub_cancel_left]
    by_cases hgot : (copyUntilNul (userBytes pt m a n)).2 = true
    · simp [hgot]
    rw [if_neg hgot, if_neg hgot]
    rcases hor with ⟨hlt, hnext⟩ | hend
    · rw [hnext]
      obtain ⟨hsome, heq⟩ := ih (a := a + n) (dst ++ (copyUntilNul (userBytes pt m a n)).1)
        (show k ≤ fuel by omega)
      refine ⟨by rw [hsome, Option.isSome_map], fun s hs => ?_⟩
      obtain ⟨t, ht, rfl⟩ := Option.map_eq_some_iff.mp hs
      rw [heq t ht, append_assoc]
    · obtain rfl : k = 0 := by omega
      have hzero : ∀ a dst, copyinstrLoop pt m fuel a 0 dst = (false, dst) := by
        cases fuel <;> exact fun _ _ => rfl
      simp [hzero, stringAt]

end

/-- A page of a user is one that the kernel has allocated, and so not at the physical address 0. -/
theorem Inv.accessible_iff {ι : Type} [Fintype ι] [DecidableEq ι] {L : Layout} {s : Sys ι} {i : ι}
    {sp : Space} (h : Inv L s) (hi : s.spaces i = some sp) (a : ℕ) :
    Accessible sp.pt a ↔ a < maxVa ∧ UserPage (sp.pt.leaf (a / pgSize)) :=
  ⟨fun ha => ⟨ha.1, ha.2.1⟩, fun ⟨hlt, hu⟩ => ⟨hlt, hu, hu.frame_pos (h.spaces i sp hi).top
    (h.spaceOk hi) L.kend_pos⟩⟩

/-- **`copyin` and `copyinstr` agree with access byte by byte.** `copyin` succeeds if and only if
all its bytes can be read, `copyinstr` if and only if a string ends among the first `max` bytes;
they have then read them, or the string with its end. Their calls of `walk` do not panic and change
nothing. In every reachable state a byte can be read if and only if it is below `MAXVA` on a page
that is valid and accessible to the user. -/
theorem copyin_bytewise (pt : PageTable) (m : Phys) :
    (∀ srcva len,
      ((copyin pt srcva len m).1 = true ↔ ∀ i < len, Accessible pt (srcva + i)) ∧
      ((copyin pt srcva len m).1 = true →
        (copyin pt srcva len m).2 = userBytes pt m srcva len)) ∧
    (∀ srcva max,
      ((copyinstr pt srcva max m).1 = true ↔ ∃ k < max, IsString pt m srcva k) ∧
      (∀ k < max, IsString pt m srcva k →
        (copyinstr pt srcva max m).2 = userBytes pt m srcva (k + 1)) ∧
      (copyinstr pt srcva max m).2.length ≤ max) ∧
    (∀ va, walkaddrWalk pt va m = .ok (walkaddr pt va, pt, m)) ∧
    ∀ {ι : Type} [Fintype ι] [DecidableEq ι] (L : Layout) (i j : ι) (t : Machine ι) (sz : ℕ),
      (procs L i).Reachable t → t.sys.spaces j = some ⟨pt, sz⟩ →
        ∀ a, Accessible pt a ↔ a < maxVa ∧ UserPage (pt.leaf (a / pgSize)) := by
  refine ⟨fun srcva len => ?_, fun srcva max => ⟨?_, fun k hk hstr => ?_, ?_⟩,
    fun va => walkaddrWalk_eq pt va m,
    fun L i j t sz ht hj => (sound_reachable ht).inv.accessible_iff hj⟩
  · obtain ⟨hyes, honly⟩ := @copyinLoop_spec pt m len srcva len [] le_rfl
    refine ⟨⟨honly, fun hall => ?_⟩, fun h => ?_⟩
    · exact congrArg Prod.fst (hyes hall)
    · exact congrArg Prod.snd (hyes (honly h))
  · rw [copyinstr, (copyinstrLoop_spec max [] le_rfl).1, Option.isSome_iff_exists]
    constructor
    · rintro ⟨s, hs⟩
      obtain ⟨k, hk, hstr, -⟩ := (stringAt_eq_some_iff max).mp hs
      exact ⟨k, hk, hstr⟩
    · rintro ⟨k, hk, hstr⟩
      exact ⟨_, (stringAt_eq_some_iff max).mpr ⟨k, hk, hstr, rfl⟩⟩
  · have hs := (stringAt_eq_some_iff max).mpr ⟨k, hk, hstr, rfl⟩
    exact (copyinstrLoop_spec max [] le_rfl).2 _ hs
  · exact (length_copyinstrLoop pt m max srcva max []).trans_eq (zero_add max)

end Xv6
