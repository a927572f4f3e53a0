import Mathlib.Dynamics.PeriodicPts.Lemmas
import Xv6.Sched.Lottery

/-!
# The random numbers of the lottery

`do_rand` multiplies by `16807` modulo `2 ^ 31 - 1`, on the numbers from `1` on, and stores one
less. It does so with a quotient and a remainder by `127773`, since
`2 ^ 31 - 1 = 127773 * 16807 + 2836`: the product is then a difference of two numbers of 31 bits,
which is negative at times and is never zero. The multiplier is coprime to the modulus, so the map
is injective on the numbers it stores, and every one of them comes back.
-/

namespace Xv6.Sched

/-- A `long`; signed overflow is undefined. -/
def long (v : ℤ) : Option ℤ := if -2 ^ 63 ≤ v ∧ v < 2 ^ 63 then some v else none

theorem long_eq {v : ℤ} (hlow : -2 ^ 63 ≤ v) (hhigh : v < 2 ^ 63) : long v = some v :=
  if_pos ⟨hlow, hhigh⟩

/-- `do_rand`, with every operation on a `long` checked. -/
def doRandLong (ctx : BitVec 64) : Option (BitVec 64 × BitVec 32) := do
  let x := (ctx % 0x7ffffffe + 1).toInt
  let hi ← long (x.tdiv 127773)
  let lo ← long (x.tmod 127773)
  let x ← long ((← long (16807 * lo)) - (← long (2836 * hi)))
  let x ← if x < 0 then long (x + 0x7fffffff) else some x
  let x ← long (x - 1)
  return (BitVec.ofInt 64 x, BitVec.ofInt 32 x)

/-- The number that `do_rand` computes with first is from `1` to `2 ^ 31 - 2`. -/
theorem toInt_start (ctx : BitVec 64) :
    (ctx % 0x7ffffffe + 1).toInt = (ctx.toNat % 0x7ffffffe : ℕ) + 1 := by
  have hlt : ctx.toNat % 0x7ffffffe < 0x7ffffffe := Nat.mod_lt _ (by decide)
  have hnat : (ctx % 0x7ffffffe + 1).toNat = ctx.toNat % 0x7ffffffe + 1 := by
    rw [BitVec.toNat_add, BitVec.toNat_umod]
    exact Nat.mod_eq_of_lt (Nat.lt_of_le_of_lt (Nat.succ_le_of_lt hlt) (by decide))
  rw [BitVec.toInt_eq_toNat_of_lt (by omega), hnat]
  rfl

/-- **Nothing overflows** a `long`. -/
theorem doRandLong_eq (ctx : BitVec 64) : doRandLong ctx = some (doRand ctx) := by
  obtain ⟨x, hx, hlow, hhigh⟩ : ∃ x : ℤ, (ctx.toNat % 0x7ffffffe : ℕ) + 1 = x ∧ 1 ≤ x ∧
      x ≤ 0x7ffffffe := ⟨_, rfl, by omega, by omega⟩
  have hlo := Int.emod_nonneg x (by decide : (127773 : ℤ) ≠ 0)
  have hlo' := Int.emod_lt_of_pos x (by decide : (0 : ℤ) < 127773)
  have hhi : 0 ≤ x / 127773 := Int.ediv_nonneg (by omega) (by decide)
  have hhi' : x / 127773 ≤ x := Int.ediv_le_self _ (by omega)
  unfold doRandLong doRand
  simp only [toInt_start, hx]
  rw [Int.tdiv_eq_ediv_of_nonneg (by omega), Int.tmod_eq_emod_of_nonneg (by omega)]
  generalize x / 127773 = hi at *
  generalize x % 127773 = lo at *
  simp only [long_eq (v := hi) (by omega) (by omega), long_eq (v := lo) (by omega) (by omega),
    long_eq (v := 16807 * lo) (by omega) (by omega),
    long_eq (v := 2836 * hi) (by omega) (by omega), Option.bind_eq_bind, Option.bind_some]
  rw [long_eq (by omega) (by omega), Option.bind_some]
  split_ifs
  · rw [long_eq (by omega) (by omega), Option.bind_some, long_eq (by omega) (by omega)]
    rfl
  · rw [long_eq (by omega) (by omega)]
    rfl

/-- The number that `do_rand` stores and returns is one less than the product, which is not a
multiple of the modulus. -/
theorem doRand_eq (ctx : BitVec 64) : ∃ r : ℕ, doRand ctx = (.ofNat 64 r, .ofNat 32 r) ∧
    r + 1 = 16807 * (ctx.toNat % (2 ^ 31 - 2) + 1) % (2 ^ 31 - 1) ∧ r ≤ 2 ^ 31 - 3 := by
  obtain ⟨x, hx, hlow, hhigh⟩ : ∃ x : ℤ, (ctx.toNat % 0x7ffffffe : ℕ) + 1 = x ∧ 1 ≤ x ∧
      x ≤ 0x7ffffffe := ⟨_, rfl, by omega, by omega⟩
  have hsplit : 127773 * (x / 127773) + x % 127773 = x := Int.mul_ediv_add_emod x 127773
  have hlo := Int.emod_nonneg x (by decide : (127773 : ℤ) ≠ 0)
  have hlo' := Int.emod_lt_of_pos x (by decide : (0 : ℤ) < 127773)
  unfold doRand
  simp only [hx]
  generalize x / 127773 = hi at *
  generalize x % 127773 = lo at *
  have hne : 16807 * lo - 2836 * hi ≠ 0 := by omega
  -- the difference, made positive, is the remainder of the product
  obtain ⟨r, hr, hprod⟩ : ∃ r : ℕ, (if 16807 * lo - 2836 * hi < 0 then
      16807 * lo - 2836 * hi + 0x7fffffff else 16807 * lo - 2836 * hi) - 1 = (r : ℤ) ∧
      (r : ℤ) + 1 = 16807 * x % 0x7fffffff := by
    split_ifs
    · exact ⟨(16807 * lo - 2836 * hi + 0x7fffffff - 1).toNat, by omega, by omega⟩
    · exact ⟨(16807 * lo - 2836 * hi - 1).toNat, by omega, by omega⟩
  rw [hr]
  exact ⟨r, rfl, by omega, by omega⟩

/-- The contexts that `do_rand` stores. -/
def seeds : Set (BitVec 64) := {ctx | ctx.toNat ≤ 2 ^ 31 - 3}

/-- The context after a call of `do_rand`. -/
def nextRand (ctx : BitVec 64) : BitVec 64 := (doRand ctx).1

theorem nextRand_toNat (ctx : BitVec 64) :
    (nextRand ctx).toNat + 1 = 16807 * (ctx.toNat % (2 ^ 31 - 2) + 1) % (2 ^ 31 - 1) := by
  obtain ⟨r, hr, hprod, hle⟩ := doRand_eq ctx
  rw [← hprod, nextRand, hr, BitVec.toNat_ofNat, Nat.mod_eq_of_lt (by omega)]

theorem nextRand_mapsTo : Set.MapsTo nextRand seeds seeds := fun ctx _ => by
  have hnext := nextRand_toNat ctx
  change (nextRand ctx).toNat ≤ 2 ^ 31 - 3
  omega

theorem nextRand_injOn : Set.InjOn nextRand seeds := fun ctx hctx ctx' hctx' heq => by
  have hlt : ctx.toNat < 2 ^ 31 - 2 := Nat.lt_succ_of_le hctx
  have hlt' : ctx'.toNat < 2 ^ 31 - 2 := Nat.lt_succ_of_le hctx'
  have hprod := (nextRand_toNat ctx).symm.trans (heq ▸ nextRand_toNat ctx')
  rw [Nat.mod_eq_of_lt hlt, Nat.mod_eq_of_lt hlt'] at hprod
  exact BitVec.eq_of_toNat_eq (by omega)

/-- **The generator.** For every context:

* `do_rand` overflows nothing, and stores and returns one less than the product of `16807` with
  `ctx mod (2 ^ 31 - 2) + 1` modulo `2 ^ 31 - 1`, a number from `0` to `2 ^ 31 - 3`;
* on these numbers the map from a context to the next is injective, and so is every iterate of it;
* the sequence that starts at one of them returns to it. -/
theorem doRand_cycles :
    (∀ ctx, ∃ r : ℕ, doRandLong ctx = some (doRand ctx) ∧
      doRand ctx = (.ofNat 64 r, .ofNat 32 r) ∧
      r + 1 = 16807 * (ctx.toNat % (2 ^ 31 - 2) + 1) % (2 ^ 31 - 1) ∧ r ≤ 2 ^ 31 - 3) ∧
    (∀ n, Set.InjOn nextRand^[n] seeds) ∧
    ∀ ctx ∈ seeds, ∃ n > 0, nextRand^[n] ctx = ctx := by
  refine ⟨fun ctx => ?_, nextRand_injOn.iterate nextRand_mapsTo, fun ctx hctx => ?_⟩
  · obtain ⟨r, hr⟩ := doRand_eq ctx
    exact ⟨r, doRandLong_eq ctx, hr⟩
  · have : Finite seeds := Finite.of_injective (fun c : seeds => c.1.toFin) fun c c' h =>
      Subtype.ext (BitVec.eq_of_toFin_eq h)
    have hinj := nextRand_mapsTo.restrict_inj.mpr nextRand_injOn
    obtain ⟨n, hn, hreturn⟩ := hinj.mem_periodicPts ⟨ctx, hctx⟩
    refine ⟨n, hn, ?_⟩
    rw [← nextRand_mapsTo.coe_iterate_restrict ⟨ctx, hctx⟩ n]
    exact congrArg Subtype.val hreturn

end Xv6.Sched
