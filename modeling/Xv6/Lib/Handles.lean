import Xv6.Lib.Counting

/-!
# Handles on shared objects

Each of finitely many handles is on at most one object, and an object may count the handles on it or
be locked by one of them. Handles move one at a time; the laws say what a move does to the count and
to the lock.
-/

namespace Handles

open Function

variable {ι E : Type*} [DecidableEq ι] [DecidableEq E]

section Count

variable [Fintype ι]

def count (f : ι → Option E) (e : E) : ℕ := ∑ h, if f h = some e then 1 else 0

theorem count_update (f : ι → Option E) (h : ι) (x : Option E) (e : E) :
    count (update f h x) e + (if f h = some e then 1 else 0) =
      count f e + if x = some e then 1 else 0 :=
  Counting.sum_update_add (fun o : Option E => if o = some e then 1 else 0) f h x

omit [DecidableEq ι] in
theorem count_pos {f : ι → Option E} {h : ι} {e : E} (hf : f h = some e) : 0 < count f e := by
  have hle := Counting.le_sum_of_mem (fun h => if f h = some e then 1 else 0) h
  rw [if_pos hf] at hle
  exact hle

/-- A handle that is counted alone is alone. -/
theorem eq_of_count_eq_one {f : ι → Option E} {e : E} (h : count f e = 1) {i j : ι}
    (hi : f i = some e) (hj : f j = some e) : i = j := by
  by_contra hne
  -- without the first handle, the second is still counted
  have hupdate := count_update f i none e
  have hpos : 0 < count (update f i none) e :=
    count_pos (h := j) (by rw [update_of_ne (Ne.symm hne), hj])
  rw [if_pos hi, if_neg (by simp)] at hupdate
  omega

omit [DecidableEq ι] in
theorem count_const_none (e : E) : count (fun _ : ι => (none : Option E)) e = 0 :=
  Finset.sum_eq_zero fun _ _ => if_neg (by simp)

end Count

/-- The lock of every object names the handle that has it. -/
def Locked (lock : E → Option ι) (g : ι → Option E) : Prop := ∀ h e, lock e = some h ↔ g h = some e

namespace Locked

variable {lock : E → Option ι} {g : ι → Option E} {h : ι} {e : E}

/-- A handle without a lock takes a free one. -/
theorem acquire (hl : Locked lock g) (hfree : lock e = none) (hg : g h = none) :
    Locked (update lock e (some h)) (update g h (some e)) := by
  intro h' e'
  by_cases hh : h' = h
  · subst hh
    rw [update_self]
    by_cases he : e' = e
    · rw [he, update_self]
      simp
    · rw [update_of_ne he, hl, hg]
      exact iff_of_false (by simp) fun heq => he (Option.some.inj heq).symm
  · rw [update_of_ne hh, ← hl]
    by_cases he : e' = e
    · rw [he, update_self, hfree]
      exact iff_of_false (fun heq => hh (Option.some.inj heq).symm) (by simp)
    · rw [update_of_ne he]

/-- The handle that has a lock releases it. -/
theorem release (hl : Locked lock g) (hg : g h = some e) :
    Locked (update lock e none) (update g h none) := by
  intro h' e'
  by_cases hh : h' = h
  · subst hh
    rw [update_self]
    refine iff_of_false ?_ (by simp)
    by_cases he : e' = e
    · rw [he, update_self]
      simp
    · rw [update_of_ne he, hl, hg]
      exact fun heq => he (Option.some.inj heq).symm
  · rw [update_of_ne hh, ← hl]
    by_cases he : e' = e
    · rw [he, update_self, (hl h e).mpr hg]
      exact iff_of_false (by simp) fun heq => hh (Option.some.inj heq).symm
    · rw [update_of_ne he]

/-- A move that has nothing to do with the locks. -/
theorem pass (hl : Locked lock g) {l : Option ι} {x : Option E} (hlock : l = lock e)
    (hx : x = g h) : Locked (update lock e l) (update g h x) := by
  rw [hlock, hx, update_eq_self, update_eq_self]
  exact hl

omit [DecidableEq ι] [DecidableEq E] in
/-- Two handles do not have the same lock. -/
theorem eq_of_eq (hl : Locked lock g) {i : ι} (hh : g h = some e) (hi : g i = some e) : h = i :=
  Option.some.inj (((hl h e).mpr hh).symm.trans ((hl i e).mpr hi))

end Locked

end Handles
