import Mathlib.Data.List.Nodup
import Mathlib.Data.List.Perm.Basic
import Xv6.Dev.Virtio
import Xv6.Lib.Ring

/-!
# Requests on their way

The driver tells the device no more of a request than its first descriptor, and gets nothing else
back. This is enough because the descriptors are handed out to one call at a time, and a call keeps
its own until it has seen the completion. So a head names one request at every moment, from the
`avail` ring through the device to the `used` ring.

The descriptors and the requests are kept track of separately; a thread is looked at through what
it has.
-/

namespace Xv6.Virtio

open Function List Device

variable {ι β : Type*}

/-! ## What a thread has -/

namespace Pc

/-- The thread has `disk.vdisk_lock`. -/
def holds : Pc β → Bool
  | .idle | .start _ | .noDesc _ | .asleep _ _ _ | .intr => false
  | _ => true

def buf : Pc β → Option β
  | .idle | .intr | .check | .take | .intrRet => none
  | .start c | .alloc c | .noDesc c | .ret c _ => some c.b
  | .format c _ | .offer c _ | .publish c _ => some c.b
  | .wait c _ _ | .asleep c _ _ | .finish c _ _ => some c.b

def chain : Pc β → List ℕ
  | .format _ x | .offer _ x | .publish _ x => x.list
  | .wait _ x _ | .asleep _ x _ | .finish _ x _ => x.list
  | _ => []

/-- The request that is in memory. -/
def written : Pc β → Option (Call β × Idx)
  | .offer c x | .publish c x | .wait c x _ | .asleep c x _ | .finish c x _ => some (c, x)
  | _ => none

/-- The request that was put on the `avail` ring, with its number. -/
def ticket : Pc β → Option (Call β × Idx × ℕ)
  | .wait c x k | .asleep c x k | .finish c x k => some (c, x, k)
  | _ => none

variable {c : Call β} {x : Idx} {pc : Pc β}

theorem chain_of_written (h : pc.written = some (c, x)) : pc.chain = x.list := by
  cases pc <;> cases h <;> rfl

theorem buf_of_written (h : pc.written = some (c, x)) : pc.buf = some c.b := by
  cases pc <;> cases h <;> rfl

theorem written_of_ticket {k : ℕ} (h : pc.ticket = some (c, x, k)) : pc.written = some (c, x) := by
  cases pc <;> cases h <;> rfl

end Pc

theorem view_update [DecidableEq ι] {γ : Type*} (f : Pc β → γ) (pc : ι → Pc β) (i : ι) (p : Pc β) :
    (fun j => f (update pc i p j)) = update (fun j => f (pc j)) i (f p) := by
  funext j
  by_cases hj : j = i
  · subst hj
    simp
  · simp [update_of_ne hj]

/-! ## The parts of the invariant -/

structure Locks (pc : ι → Pc β) (vdiskLock : Option ι) (bufLock : β → Option ι) : Prop where
  vdisk : ∀ i, (pc i).holds = true → vdiskLock = some i
  buf : ∀ i b, (pc i).buf = some b → bufLock b = some i

/-- The descriptors that are not free belong to one thread each. -/
structure Pool (free : ℕ → Bool) (chain : ι → List ℕ) : Prop where
  nodup : ∀ i, (chain i).Nodup
  used : ∀ i, ∀ j ∈ chain i, j < num ∧ free j = false
  one : ∀ i i' j, j ∈ chain i → j ∈ chain i' → i = i'
  owned : ∀ j < num, free j = false → ∃ i, j ∈ chain i

/-- The memory of each request holds it. -/
def Memory (d : Disk β) (written : ι → Option (Call β × Idx)) : Prop :=
  ∀ i c x, written i = some (c, x) → d.Holds c x

/-- The requests that are somewhere between the driver and its interrupt handler, with those of the
`avail` ring and those of the `used` ring given. -/
def Device.pending (dev : Device β) (q u : List (ℕ × ℕ)) : List (ℕ × ℕ) :=
  q ++ dev.todo ++ dev.finished ++ u

/-- Where each request is. -/
structure Books (d : Disk β) (dev : Device β) (busy : β → Bool) (made : ℕ)
    (ticket : ι → Option (Call β × Idx × ℕ)) (q u : List (ℕ × ℕ)) : Prop where
  avail : Ring.contents num d.availRing dev.next (d.availIdx - dev.next).toNat = q.map Prod.snd
  used : Ring.contents num d.usedRing d.usedIdx (d.usedRingIdx - d.usedIdx).toNat = u.map Prod.snd
  numbers : q.map Prod.fst = range' dev.fetched q.length
  total : made = dev.fetched + q.length
  fetched : ∀ e ∈ dev.todo ++ dev.finished ++ u, e.1 < dev.fetched
  nodup : (dev.pending q u).Nodup
  mine : ∀ e ∈ dev.pending q u, ∃ i c x, ticket i = some (c, x, e.1) ∧ x.i0 = e.2
  one : ∀ i i' c c' x x' k, ticket i = some (c, x, k) → ticket i' = some (c', x', k) → i = i'
  lt : ∀ i c x k, ticket i = some (c, x, k) → k < made
  awaits : ∀ i c x k, ticket i = some (c, x, k) → (busy c.b = true ↔ (k, x.i0) ∈ dev.pending q u)
  todo : ∀ i c x k, ticket i = some (c, x, k) → (k, x.i0) ∈ q ++ dev.todo →
    (d.info x.i0).status = 0xff
  performed : ∀ i c x k, ticket i = some (c, x, k) → (k, x.i0) ∉ q ++ dev.todo →
    (d.info x.i0).status = 0 ∧ (k, some c.transfer) ∈ dev.log
  once : (dev.log.map Prod.fst).Nodup
  logged : ∀ e ∈ dev.log, e.1 < dev.fetched ∧ ∀ h, (e.1, h) ∉ dev.todo

theorem num_dvd : num ∣ 2 ^ 16 := ⟨2 ^ 13, by decide⟩

/-! ## The descriptors -/

namespace Pool

variable [DecidableEq ι] {free : ℕ → Bool} {chain : ι → List ℕ} {i : ι}

theorem alloc (h : Pool free chain) (hi : chain i = []) {l : List ℕ} (hl : l.Nodup)
    (hfree : ∀ j ∈ l, j < num ∧ free j = true) :
    Pool (fun j => free j && !decide (j ∈ l)) (update chain i l) where
  nodup i' := by
    by_cases hi' : i' = i
    · subst hi'
      simpa using hl
    · simpa [update_of_ne hi'] using h.nodup i'
  used i' j hj := by
    by_cases hi' : i' = i
    · subst hi'
      rw [update_self] at hj
      exact ⟨(hfree j hj).1, by simp [hj]⟩
    · rw [update_of_ne hi'] at hj
      exact ⟨(h.used i' j hj).1, by simp [(h.used i' j hj).2]⟩
  one i1 i2 j h1 h2 := by
    -- one of the other threads' is not free, and so not one of these
    have hother : ∀ i', i' ≠ i → j ∈ chain i' → j ∉ l := fun i' _ hj hjl => by
      have hused := (h.used i' j hj).2
      rw [(hfree j hjl).2] at hused
      cases hused
    rw [update_apply] at h1 h2
    split_ifs at h1 h2 with e1 e2 e2
    · rw [e1, e2]
    · exact absurd h1 (hother i2 e2 h2)
    · exact absurd h2 (hother i1 e1 h1)
    · exact h.one i1 i2 j h1 h2
  owned j hj hused := by
    by_cases hjl : j ∈ l
    · exact ⟨i, by simpa using hjl⟩
    · obtain ⟨i', hi'⟩ := h.owned j hj (by simpa [hjl] using hused)
      refine ⟨i', ?_⟩
      rw [update_of_ne]
      · exact hi'
      · rintro rfl
        simp [hi] at hi'

theorem release (h : Pool free chain) {l : List ℕ} (hi : chain i = l) :
    Pool (fun j => free j || decide (j ∈ l)) (update chain i []) where
  nodup i' := by
    by_cases hi' : i' = i
    · subst hi'
      simp
    · simpa [update_of_ne hi'] using h.nodup i'
  used i' j hj := by
    by_cases hi' : i' = i
    · subst hi'
      simp at hj
    · rw [update_of_ne hi'] at hj
      refine ⟨(h.used i' j hj).1, ?_⟩
      have hjl : j ∉ l := fun hjl => hi' (h.one i' i j hj (hi ▸ hjl))
      simp [(h.used i' j hj).2, hjl]
  one i1 i2 j h1 h2 := by
    rw [update_apply] at h1 h2
    split_ifs at h1 h2 with e1 e2 e2
    · simp at h1
    · simp at h1
    · simp at h2
    · exact h.one i1 i2 j h1 h2
  owned j hj hused := by
    simp only [Bool.or_eq_false_iff, decide_eq_false_iff_not] at hused
    obtain ⟨i', hi'⟩ := h.owned j hj hused.1
    refine ⟨i', ?_⟩
    rw [update_of_ne]
    · exact hi'
    · rintro rfl
      exact hused.2 (hi ▸ hi')

end Pool

/-! ## The requests -/

namespace Books

variable {d d' : Disk β} {dev : Device β} {busy busy' : β → Bool} {made : ℕ}
  {ticket : ι → Option (Call β × Idx × ℕ)} {q u : List (ℕ × ℕ)} {j k : ℕ}

section

variable (h : Books d dev busy made ticket q u)

include h

theorem frame (havail : Ring.contents num d'.availRing dev.next (d'.availIdx - dev.next).toNat =
      Ring.contents num d.availRing dev.next (d.availIdx - dev.next).toNat)
    (hused : Ring.contents num d'.usedRing d'.usedIdx (d'.usedRingIdx - d'.usedIdx).toNat =
      Ring.contents num d.usedRing d.usedIdx (d.usedRingIdx - d.usedIdx).toNat)
    (hticket : ∀ i c x k, ticket i = some (c, x, k) →
      (d'.info x.i0).status = (d.info x.i0).status ∧ busy' c.b = busy c.b) :
    Books d' dev busy' made ticket q u :=
  { h with
    avail := havail.trans h.avail
    used := hused.trans h.used
    awaits := fun i c x k hi => by
      rw [(hticket i c x k hi).2]
      exact h.awaits i c x k hi
    todo := fun i c x k hi hk => (hticket i c x k hi).1.trans (h.todo i c x k hi hk)
    performed := fun i c x k hi hk => by
      rw [(hticket i c x k hi).1]
      exact h.performed i c x k hi hk }

theorem head_unique {j' : ℕ} (hj : (k, j) ∈ dev.pending q u) (hj' : (k, j') ∈ dev.pending q u) :
    j = j' := by
  obtain ⟨i, c, x, hi, hx⟩ := h.mine _ hj
  obtain ⟨i', c', x', hi', hx'⟩ := h.mine _ hj'
  cases h.one i i' c c' x x' k hi hi'
  rw [hi] at hi'
  cases hi'
  exact hx.symm.trans hx'

theorem heads_nodup
    (hhead : ∀ i i' c c' x x' k k', ticket i = some (c, x, k) → ticket i' = some (c', x', k') →
      x.i0 = x'.i0 → i = i') : ((dev.pending q u).map Prod.snd).Nodup := by
  refine List.Nodup.map_on (fun e he e' he' heq => ?_) h.nodup
  obtain ⟨i, c, x, hi, hx⟩ := h.mine e he
  obtain ⟨i', c', x', hi', hx'⟩ := h.mine e' he'
  cases hhead i i' c c' x x' _ _ hi hi' (hx.trans (heq.trans hx'.symm))
  rw [hi] at hi'
  simp only [Option.some.injEq, Prod.mk.injEq] at hi'
  exact Prod.ext hi'.2.2 heq

omit h in
theorem length_le_num {l : List ℕ} (hl : l.Nodup) (hlt : ∀ j ∈ l, j < num) : l.length ≤ num := by
  have hsub : l ⊆ List.range num := fun j hj => mem_range.mpr (hlt j hj)
  simpa using (subperm_of_subset hl hsub).length_le

theorem avail_length : (d.availIdx - dev.next).toNat = q.length := by
  simpa using congrArg List.length h.avail

theorem used_length : (d.usedRingIdx - d.usedIdx).toNat = u.length := by
  simpa using congrArg List.length h.used

end

theorem length_le_pending (dev : Device β) (q u : List (ℕ × ℕ)) :
    q.length + dev.finished.length + u.length ≤ ((dev.pending q u).map Prod.snd).length := by
  simp only [Device.pending, length_map, length_append]
  omega

section Threads

variable [DecidableEq ι]

theorem publish (h : Books d dev busy made ticket q u) {i : ι} {c : Call β} {x : Idx}
    (hi : ticket i = none) (hbusy : busy c.b = true) (hstatus : (d.info x.i0).status = 0xff)
    (hslot : d.availRing (d.availIdx.toNat % num) = x.i0) (hlen : q.length < num) :
    Books { d with availIdx := d.availIdx + 1 } dev busy (made + 1)
      (update ticket i (some (c, x, made))) (q ++ [(made, x.i0)]) u := by
  have hother : ∀ {i' c' x' k'},
      update ticket i (some (c, x, made)) i' = some (c', x', k') →
        (i' = i ∧ c' = c ∧ x' = x ∧ k' = made) ∨ (i' ≠ i ∧ ticket i' = some (c', x', k')) := by
    intro i' c' x' k' hi'
    by_cases he : i' = i
    · subst he
      rw [update_self] at hi'
      cases hi'
      exact .inl ⟨rfl, rfl, rfl, rfl⟩
    · rw [update_of_ne he] at hi'
      exact .inr ⟨he, hi'⟩
  have hperm : (dev.pending (q ++ [(made, x.i0)]) u).Perm ((made, x.i0) :: dev.pending q u) := by
    refine perm_iff_count.mpr fun e => ?_
    simp only [Device.pending, count_append, count_cons, count_nil]
    omega
  have hold : ∀ {j}, (made, j) ∉ dev.pending q u := fun {j} hj => by
    obtain ⟨i', c', x', hi', -⟩ := h.mine _ hj
    exact absurd (h.lt i' c' x' _ hi') (lt_irrefl _)
  have hqlen := h.avail_length
  have hnext : (d.availIdx + 1 - dev.next).toNat = (d.availIdx - dev.next).toNat + 1 :=
    Ring.length_push (by
      rw [hqlen]
      exact (Nat.succ_le_of_lt hlen).trans_lt (by decide))
  exact {
    avail := by
      rw [hnext, Ring.contents_succ, h.avail, map_append, map_singleton,
        ← Ring.cell_add num_dvd, ← Ring.stop_eq rfl, hslot]
    used := h.used
    numbers := by
      rw [map_append, h.numbers, length_append, length_singleton, range'_concat, h.total]
      simp
    total := by rw [h.total, length_append, length_singleton, add_assoc]
    fetched := h.fetched
    nodup := (List.Perm.nodup_iff hperm).mpr (nodup_cons.mpr ⟨hold, h.nodup⟩)
    mine := fun e he => by
      rcases mem_cons.mp (hperm.mem_iff.mp he) with rfl | he
      · exact ⟨i, c, x, update_self .., rfl⟩
      · obtain ⟨i', c', x', hi', hx'⟩ := h.mine e he
        refine ⟨i', c', x', ?_, hx'⟩
        rw [update_of_ne]
        · exact hi'
        · rintro rfl
          rw [hi] at hi'
          cases hi'
    one := fun i1 i2 c1 c2 x1 x2 k h1 h2 => by
      rcases hother h1 with ⟨he1, -, -, hk1⟩ | ⟨-, h1'⟩ <;>
        rcases hother h2 with ⟨he2, -, -, hk2⟩ | ⟨-, h2'⟩
      · rw [he1, he2]
      · exact absurd (h.lt _ _ _ _ h2') (by rw [hk1]; exact lt_irrefl _)
      · exact absurd (h.lt _ _ _ _ h1') (by rw [hk2]; exact lt_irrefl _)
      · exact h.one i1 i2 c1 c2 x1 x2 k h1' h2'
    lt := fun i' c' x' k' hi' => by
      rcases hother hi' with ⟨rfl, -, -, rfl⟩ | ⟨-, hi'⟩
      · exact Nat.lt_succ_self _
      · exact Nat.lt_succ_of_lt (h.lt i' c' x' k' hi')
    awaits := fun i' c' x' k' hi' => by
      rw [hperm.mem_iff, mem_cons]
      rcases hother hi' with ⟨rfl, rfl, rfl, rfl⟩ | ⟨-, hi'⟩
      · simp [hbusy]
      · rw [h.awaits i' c' x' k' hi']
        have hne : k' ≠ made := ne_of_lt (h.lt i' c' x' k' hi')
        simp [hne]
    todo := fun i' c' x' k' hi' hk' => by
      rcases hother hi' with ⟨rfl, rfl, rfl, rfl⟩ | ⟨-, hi'⟩
      · exact hstatus
      · refine h.todo i' c' x' k' hi' ?_
        have hne : k' ≠ made := ne_of_lt (h.lt i' c' x' k' hi')
        simpa [hne] using hk'
    performed := fun i' c' x' k' hi' hk' => by
      rcases hother hi' with ⟨rfl, rfl, rfl, rfl⟩ | ⟨-, hi'⟩
      · simp at hk'
      · exact h.performed i' c' x' k' hi' fun hmem => hk' (by
          rcases mem_append.mp hmem with hmem | hmem <;> simp [hmem])
    once := h.once
    logged := h.logged }

theorem drop (h : Books d dev busy made ticket q u) {i : ι} {c : Call β} {x : Idx}
    (hi : ticket i = some (c, x, k)) (hbusy : busy c.b = false) :
    Books d dev busy made (update ticket i none) q u := by
  have hother : ∀ {i' r}, update ticket i none i' = some r → ticket i' = some r := by
    intro i' r hi'
    by_cases he : i' = i
    · subst he
      simp at hi'
    · rwa [update_of_ne he] at hi'
  exact { h with
    mine := fun e he => by
      obtain ⟨i', c', x', hi', hx'⟩ := h.mine e he
      refine ⟨i', c', x', ?_, hx'⟩
      rw [update_of_ne]
      · exact hi'
      · -- this request is no longer anywhere
        rintro rfl
        rw [hi] at hi'
        cases hi'
        have hmem := (h.awaits i' c x e.1 hi).mpr (hx' ▸ he)
        rw [hbusy] at hmem
        cases hmem
    one := fun i1 i2 c1 c2 x1 x2 k h1 h2 => h.one i1 i2 c1 c2 x1 x2 k (hother h1) (hother h2)
    lt := fun i' c' x' k' hi' => h.lt i' c' x' k' (hother hi')
    awaits := fun i' c' x' k' hi' => h.awaits i' c' x' k' (hother hi')
    todo := fun i' c' x' k' hi' => h.todo i' c' x' k' (hother hi')
    performed := fun i' c' x' k' hi' => h.performed i' c' x' k' (hother hi') }

end Threads

theorem take [DecidableEq β] (h : Books d dev busy made ticket q ((k, j) :: u)) {i : ι} {c : Call β}
    {x : Idx} (hi : ticket i = some (c, x, k)) (hx : x.i0 = j)
    (hbuf : ∀ i' c' x' k', ticket i' = some (c', x', k') → c'.b = c.b → i' = i) :
    Books { d with usedIdx := d.usedIdx + 1 } dev (update busy c.b false) made ticket q u := by
  have hperm : (dev.pending q ((k, j) :: u)).Perm ((k, j) :: dev.pending q u) := by
    refine perm_iff_count.mpr fun e => ?_
    simp only [Device.pending, count_append, count_cons]
    omega
  obtain ⟨hnot, hnodup⟩ := nodup_cons.mp ((List.Perm.nodup_iff hperm).mp h.nodup)
  have hlen := h.used_length
  have hnext : (d.usedRingIdx - (d.usedIdx + 1)).toNat + 1 = (d.usedRingIdx - d.usedIdx).toNat :=
    Ring.length_pop (by rw [hlen]; simp)
  exact { h with
    used := by
      have hused := h.used
      rw [← hnext, Ring.contents_pop num_dvd, map_cons] at hused
      exact (List.cons.inj hused).2
    fetched := fun e he => h.fetched e (by
      rw [mem_append] at he ⊢
      exact he.imp_right (mem_cons_of_mem _))
    nodup := hnodup
    mine := fun e he => h.mine e (hperm.mem_iff.mpr (mem_cons_of_mem _ he))
    awaits := fun i' c' x' k' hi' => by
      by_cases hb : c'.b = c.b
      · cases hbuf i' c' x' k' hi' hb
        rw [hi] at hi'
        cases hi'
        subst hx
        simp [hnot]
      · rw [update_of_ne hb, h.awaits i' c' x' k' hi', hperm.mem_iff, mem_cons]
        have hne : (k', x'.i0) ≠ (k, j) := fun heq => hb (by
          cases heq
          cases h.one i' i c' c x' x _ hi' hi
          rw [hi] at hi'
          cases hi'
          rfl)
        simp [hne] }

/-! ### The device -/

theorem fetch (h : Books d dev busy made ticket ((k, j) :: q) u) :
    Books d (dev.fetch (d.availRing (dev.next.toNat % num))) busy made ticket q u := by
  have hlen := h.avail_length
  have hnext : (d.availIdx - (dev.next + 1)).toNat + 1 = (d.availIdx - dev.next).toNat :=
    Ring.length_pop (by rw [hlen]; simp)
  have havail := h.avail
  rw [← hnext, Ring.contents_pop num_dvd, map_cons] at havail
  obtain ⟨hj, hrest⟩ := List.cons.inj havail
  have hnumbers := h.numbers
  rw [map_cons, length_cons, range'_succ] at hnumbers
  obtain ⟨hk, hnumbers'⟩ := List.cons.inj hnumbers
  dsimp only at hj hk
  subst hk
  rw [hj]
  have hperm : ((dev.fetch j).pending q u).Perm (dev.pending ((dev.fetched, j) :: q) u) := by
    refine perm_iff_count.mpr fun e => ?_
    simp only [Device.pending, Device.fetch, count_append, count_cons, count_nil]
    omega
  have hmem : ∀ e, e ∈ q ++ (dev.fetch j).todo ↔ e ∈ (dev.fetched, j) :: q ++ dev.todo := by
    intro e
    simp only [Device.fetch, mem_append, mem_cons, not_mem_nil]
    tauto
  exact { h with
    avail := hrest
    numbers := hnumbers'
    total := by
      rw [h.total, length_cons, fetch_fetched]
      omega
    fetched := fun e he => by
      rw [fetch_fetched]
      simp only [Device.fetch, mem_append, mem_singleton] at he
      rcases he with ((he | rfl) | he) | he
      · exact Nat.lt_succ_of_lt (h.fetched e (by simp [he]))
      · exact Nat.lt_succ_self _
      · exact Nat.lt_succ_of_lt (h.fetched e (by simp [he]))
      · exact Nat.lt_succ_of_lt (h.fetched e (by simp [he]))
    nodup := (List.Perm.nodup_iff hperm).mpr h.nodup
    mine := fun e he => h.mine e (hperm.mem_iff.mp he)
    awaits := fun i c x k hi => (h.awaits i c x k hi).trans hperm.mem_iff.symm
    todo := fun i c x k hi hk => h.todo i c x k hi ((hmem _).mp hk)
    performed := fun i c x k hi hk =>
      h.performed i c x k hi fun hmem' => hk ((hmem _).mpr hmem')
    logged := fun e he => by
      obtain ⟨hlt, hnot⟩ := h.logged e he
      refine ⟨Nat.lt_succ_of_lt hlt, fun j' hj' => ?_⟩
      rcases mem_append.mp hj' with hj' | hj'
      · exact hnot j' hj'
      · simp only [mem_singleton, Prod.mk.injEq] at hj'
        omega }

theorem perform (h : Books d dev busy made ticket q u) {i : ι} {c : Call β} {x : Idx}
    (hi : ticket i = some (c, x, k)) (htodo : (k, x.i0) ∈ dev.todo)
    (hhead : ∀ i' c' x' k', ticket i' = some (c', x', k') → x'.i0 = x.i0 → i' = i) :
    Books { d with info := update d.info x.i0 { d.info x.i0 with status := 0 } }
      (dev.perform (k, x.i0) (some c.transfer)) busy made ticket q u := by
  have hpos : 0 < dev.todo.count (k, x.i0) := count_pos_iff.mpr htodo
  have hperm : ((dev.perform (k, x.i0) (some c.transfer)).pending q u).Perm (dev.pending q u) := by
    refine perm_iff_count.mpr fun e => ?_
    by_cases he : e = (k, x.i0)
    · subst he
      simp only [Device.pending, Device.perform, count_append, count_erase_self,
        count_singleton_self]
      omega
    · simp [Device.pending, count_append, count_erase_of_ne he, Ne.symm he]
  have hsub : ∀ e ∈ dev.todo, e ∈ dev.pending q u := fun e he => by simp [Device.pending, he]
  -- the request is in one place
  have hgone : ∀ j, (k, j) ∉ q ++ dev.todo.erase (k, x.i0) := by
    intro j hj
    have hcount := nodup_iff_count_le_one.mp h.nodup (k, x.i0)
    have hjx : j = x.i0 := by
      refine h.head_unique (k := k) ?_ (hsub _ htodo)
      rcases mem_append.mp hj with hj | hj
      · simp [Device.pending, hj]
      · exact hsub _ (mem_of_mem_erase hj)
    rw [hjx] at hj
    have hpos' := count_pos_iff.mpr hj
    simp only [Device.pending, count_append, count_erase_self] at hcount hpos'
    omega
  have hmem : ∀ {k' j'}, (k', j') ≠ (k, x.i0) →
      ((k', j') ∈ q ++ dev.todo.erase (k, x.i0) ↔ (k', j') ∈ q ++ dev.todo) := by
    intro k' j' hne
    rw [mem_append, mem_append, mem_erase_of_ne hne]
  have hfetched : k < dev.fetched := h.fetched (k, x.i0) (by simp [htodo])
  -- the other requests have other heads and numbers
  have hother : ∀ {i' c' x' k'}, ticket i' = some (c', x', k') → i' ≠ i →
      x'.i0 ≠ x.i0 ∧ k' ≠ k := by
    intro i' c' x' k' hi' hne
    refine ⟨fun heq => hne (hhead i' c' x' k' hi' heq), fun heq => hne ?_⟩
    subst heq
    exact h.one i' i c' c x' x k' hi' hi
  exact { h with
    fetched := fun e he => by
      simp only [Device.perform, mem_append, mem_singleton] at he
      rcases he with (he | he | rfl) | he
      · exact h.fetched e (by simp [mem_of_mem_erase he])
      · exact h.fetched e (by simp [he])
      · exact hfetched
      · exact h.fetched e (by simp [he])
    nodup := (List.Perm.nodup_iff hperm).mpr h.nodup
    mine := fun e he => h.mine e (hperm.mem_iff.mp he)
    awaits := fun i c x k hi => (h.awaits i c x k hi).trans hperm.mem_iff.symm
    todo := fun i' c' x' k' hi' hk' => by
      by_cases he : i' = i
      · subst he
        rw [hi] at hi'
        cases hi'
        exact absurd hk' (hgone _)
      · obtain ⟨hx, hk⟩ := hother hi' he
        dsimp only
        rw [update_of_ne hx]
        exact h.todo i' c' x' k' hi' ((hmem (by simp [hk])).mp hk')
    performed := fun i' c' x' k' hi' hk' => by
      by_cases he : i' = i
      · subst he
        rw [hi] at hi'
        cases hi'
        exact ⟨by simp, by simp⟩
      · obtain ⟨hx, hk⟩ := hother hi' he
        dsimp only
        rw [update_of_ne hx]
        obtain ⟨hstatus, hlog⟩ := h.performed i' c' x' k' hi' fun hmem' =>
          hk' ((hmem (by simp [hk])).mpr hmem')
        exact ⟨hstatus, mem_append_left _ hlog⟩
    once := by
      rw [perform_log, map_append, map_singleton]
      refine nodup_append.mpr ⟨h.once, nodup_singleton _, fun a ha b hb hab => ?_⟩
      obtain ⟨e, he, rfl⟩ := mem_map.mp ha
      rw [mem_singleton] at hb
      exact (h.logged e he).2 x.i0 (by rw [hab, hb]; exact htodo)
    logged := fun e he => by
      rcases mem_append.mp he with he | he
      · obtain ⟨hlt, hnot⟩ := h.logged e he
        exact ⟨hlt, fun j hj => hnot j (mem_of_mem_erase hj)⟩
      · rw [mem_singleton] at he
        subst he
        exact ⟨hfetched, fun j hj => hgone j (mem_append_right _ hj)⟩ }

theorem complete (h : Books d dev busy made ticket q u) {e : ℕ × ℕ} (he : e ∈ dev.finished)
    (hlen : u.length < num) :
    Books { d with
        usedRing := update d.usedRing (d.usedRingIdx.toNat % num) e.2
        usedRingIdx := d.usedRingIdx + 1 }
      (dev.complete e) busy made ticket q (u ++ [e]) := by
  have hpos : 0 < dev.finished.count e := count_pos_iff.mpr he
  have hperm : ((dev.complete e).pending q (u ++ [e])).Perm (dev.pending q u) := by
    refine perm_iff_count.mpr fun a => ?_
    by_cases ha : a = e
    · subst ha
      simp only [Device.pending, Device.complete, count_append, count_erase_self,
        count_singleton_self]
      omega
    · simp [Device.pending, count_append, count_erase_of_ne ha, Ne.symm ha]
  have hulen := h.used_length
  have hnext : (d.usedRingIdx + 1 - d.usedIdx).toNat = (d.usedRingIdx - d.usedIdx).toNat + 1 :=
    Ring.length_push (by
      rw [hulen]
      exact (Nat.succ_le_of_lt hlen).trans_lt (by decide))
  exact { h with
    used := by
      rw [hnext, Ring.contents_push num_dvd _ rfl (hulen ▸ hlen), h.used, map_append, map_singleton]
    fetched := fun a ha => by
      simp only [Device.complete, mem_append, mem_singleton] at ha
      rcases ha with (ha | ha) | ha | rfl
      · exact h.fetched a (by simp [ha])
      · exact h.fetched a (by simp [mem_of_mem_erase ha])
      · exact h.fetched a (by simp [ha])
      · exact h.fetched a (by simp [he])
    nodup := (List.Perm.nodup_iff hperm).mpr h.nodup
    mine := fun a ha => h.mine a (hperm.mem_iff.mp ha)
    awaits := fun i c x k hi => (h.awaits i c x k hi).trans hperm.mem_iff.symm }

end Books

end Xv6.Virtio
