import Xv6.Bio.Cache
import Xv6.Lib.Counting

/-!
# Identity and references of buffers

The list from `bcache.head` is a ring through all buffers, and of two buffers with the same device
and block number the later one in the list is unused, from the start, when all numbers are zero.
`bget` finds the first buffer of a block, and a buffer in use comes before the unused ones of the
same block wherever it moves. A buffer counts its pins and the processes that have it, wait for it
or are about to give it back; so it is not recycled under any of them.
-/

namespace Xv6.Bio

open Function List Option Pc Bcache

inductive Event.Does {ι D S : Type*} [DecidableEq ι] [DecidableEq S] (addr : BlockId → S)
    (s : Bcache ι D S) : Event ι D → Option (Act ι BlockId D) → Bcache ι D S → Prop
  | bget {h k s'} (pc : s.pc h = .idle) (run : s.bget h k = some s') :
    Does addr s (.bread h k) none s'
  | lock {h b k} (pc : s.pc h = .locking b k) (free : (s.buf b).lock = none) :
    Does addr s (.step h) none ((s.setBuf b { s.buf b with lock := some h }).goto h (.locked b k))
  | hit {h b k} (pc : s.pc h = .locked b k) (valid : (s.buf b).valid = true) :
    Does addr s (.step h) (some (.take h k (s.buf b).data)) (s.goto h (.holding b k))
  | fill {h b k} (pc : s.pc h = .locked b k) (invalid : (s.buf b).valid ≠ true) :
    Does addr s (.step h) none
      ((s.setBuf b { s.buf b with data := s.disk (addr (s.buf b).block) }).goto h (.filled b k))
  | filled {h b k} (pc : s.pc h = .filled b k) :
    Does addr s (.step h) (some (.take h k (s.buf b).data))
      ((s.setBuf b { s.buf b with valid := true }).goto h (.holding b k))
  | putBack {h b k} (pc : s.pc h = .releasing b k) : Does addr s (.step h) none (s.putBack h b)
  | modify {h b k d} (pc : s.pc h = .holding b k) :
    Does addr s (.modify h d) (some (.put h k d)) (s.modify b d)
  | bwrite {h b k} (pc : s.pc h = .holding b k) :
    Does addr s (.bwrite h) none { s with
      disk := update s.disk (addr (s.buf b).block) (s.buf b).data
      dirty := update s.dirty b false }
  | bpin {h b k} (pc : s.pc h = .holding b k) : Does addr s (.bpin h) none (s.bpin b)
  | bunpin {h b k} (pc : s.pc h = .holding b k) : Does addr s (.bunpin h) none (s.bunpin b)
  | brelse {h b k} (pc : s.pc h = .holding b k) (lock : (s.buf b).lock = some h) :
    Does addr s (.brelse h) (some (.drop h k))
      ((s.setBuf b { s.buf b with lock := none }).goto h (.releasing b k))

variable {k : BlockId} {b : Fin nbuf} {D S ι : Type*} {s : Bcache ι D S}

theorem ifHolding_cases {h : ι}
    {f : Fin nbuf → BlockId → Option (Option (Act ι BlockId D) × Bcache ι D S)}
    {r : Option (Act ι BlockId D) × Bcache ι D S} (hs : ifHolding s h f = some r) :
    ∃ b k, s.pc h = .holding b k ∧ f b k = some r := by
  unfold ifHolding at hs
  split at hs
  · rename_i b k hp
    exact ⟨b, k, hp, hs⟩
  · cases hs

theorem Event.run_does [DecidableEq ι] [DecidableEq S] {addr : BlockId → S} {s' : Bcache ι D S}
    {e : Event ι D} {o : Option (Act ι BlockId D)} (hs : e.run addr s = some (o, s')) :
    Event.Does addr s e o s' := by
  cases e with
  | bread h k =>
    rw [run, ite_none_right_eq_some] at hs
    obtain ⟨s1, hs1, heq⟩ := map_eq_some_iff.mp hs.2
    cases heq
    exact .bget hs.1 hs1
  | step h =>
    rw [run] at hs
    cases hp : s.pc h with
    | idle | holding =>
      rw [hp] at hs
      cases hs
    | locking b k =>
      rw [hp] at hs
      obtain ⟨s1, hs1, heq⟩ := map_eq_some_iff.mp hs
      cases heq
      rw [lockBuf, ite_none_right_eq_some] at hs1
      exact some.inj hs1.2 ▸ .lock hp hs1.1
    | locked b k =>
      rw [hp, advance, readBuf] at hs
      split at hs
      · cases hs
        exact .hit hp ‹_›
      · cases hs
        exact .fill hp ‹_›
    | filled b k =>
      rw [hp] at hs
      cases hs
      exact .filled hp
    | releasing b k =>
      rw [hp] at hs
      cases hs
      exact .putBack hp
  | modify h d =>
    obtain ⟨b, k, hp, heq⟩ := ifHolding_cases hs
    cases heq
    exact .modify hp
  | bwrite h =>
    obtain ⟨b, k, hp, heq⟩ := ifHolding_cases hs
    obtain ⟨s1, hs1, heq⟩ := map_eq_some_iff.mp heq
    cases heq
    rw [Bcache.bwrite, ite_none_right_eq_some] at hs1
    exact some.inj hs1.2 ▸ .bwrite hp
  | bpin h =>
    obtain ⟨b, k, hp, heq⟩ := ifHolding_cases hs
    cases heq
    exact .bpin hp
  | bunpin h =>
    obtain ⟨b, k, hp, heq⟩ := ifHolding_cases hs
    cases heq
    exact .bunpin hp
  | brelse h =>
    obtain ⟨b, k, hp, heq⟩ := ifHolding_cases hs
    obtain ⟨s1, hs1, heq⟩ := map_eq_some_iff.mp heq
    cases heq
    rw [Bcache.brelse, ite_none_right_eq_some] at hs1
    exact some.inj hs1.2 ▸ .brelse hp hs1.1

/-- The buffer that a process has to do with, and the block it asked for. -/
def Pc.target : Pc → Option (Fin nbuf × BlockId)
  | .idle => none
  | .locking b k | .locked b k | .filled b k | .holding b k | .releasing b k => some (b, k)

def Pc.Locks (b : Fin nbuf) : Pc → Prop
  | .locked b' _ | .filled b' _ | .holding b' _ => b' = b
  | _ => False

def Pc.refs (b : Fin nbuf) (pc : Pc) : ℕ := if pc.target.map Prod.fst = some b then 1 else 0

variable {pc : Pc}

theorem Pc.refs_of_target (h : pc.target = some (b, k)) : pc.refs b = 1 := by
  rw [refs, h]
  exact if_pos rfl

theorem Pc.refs_eq_zero (h : ∀ k, pc.target ≠ some (b, k)) : pc.refs b = 0 := by
  refine if_neg fun heq => ?_
  obtain ⟨⟨b', k⟩, ht, hb⟩ := map_eq_some_iff.mp heq
  exact h k (hb ▸ ht)

theorem Pc.Locks.target (h : pc.Locks b) : ∃ k, pc.target = some (b, k) := by
  cases pc with
  | locked b' k | filled b' k | holding b' k => exact ⟨k, h ▸ rfl⟩
  | idle | locking b' k | releasing b' k => exact absurd h id

/-! ### The list -/

theorem find?_join (l : List (Fin nbuf)) (P : Fin nbuf → Bool) :
    ((l.map some).find? (Option.any P)).join = l.find? P := by
  rw [find?_map]
  change ((l.find? P).map some).join = l.find? P
  cases l.find? P <;> rfl

theorem findBuf_next {L : Links Node} {l : List (Fin nbuf)} (h : L.Ring none (l.map some))
    (hl : l.length = nbuf) (P : Fin nbuf → Bool) : findBuf L.next P = l.find? P := by
  rw [findBuf, h.scan_next _ (by simp [hl]), find?_join]

theorem findBuf_prev {L : Links Node} {l : List (Fin nbuf)} (h : L.Ring none (l.map some))
    (hl : l.length = nbuf) (P : Fin nbuf → Bool) : findBuf L.prev P = l.reverse.find? P := by
  rw [findBuf, h.scan_prev _ (by simp [hl]), ← map_reverse, find?_join]

namespace Bcache

variable {ι D S : Type*} {s s' : Bcache ι D S} {b : Fin nbuf} {l : List (Fin nbuf)} {x : Buf ι D}

/-- The buffer has no reference and no valid data. -/
def Unused (s : Bcache ι D S) (b : Fin nbuf) : Prop :=
  (s.buf b).refcnt = 0 ∧ (s.buf b).valid = false

/-- The order of the buffers in the list from `bcache.head`. -/
structure Listed (s : Bcache ι D S) (l : List (Fin nbuf)) : Prop where
  perm : l.Perm (List.finRange nbuf)
  ring : s.links.Ring none (l.map some)
  later : l.Pairwise fun x y => (s.buf x).block = (s.buf y).block → s.Unused y

namespace Listed

variable (h : s.Listed l)

include h

theorem length_eq : l.length = nbuf := h.perm.length_eq.trans (length_finRange)

theorem mem (b : Fin nbuf) : b ∈ l := h.perm.mem_iff.mpr (mem_finRange b)

theorem unique {b' : Fin nbuf} (heq : (s.buf b).block = (s.buf b').block) (hb : ¬s.Unused b)
    (hb' : ¬s.Unused b') : b = b' := by
  by_contra hne
  have hsymm : Std.Symm fun x y => (s.buf x).block = (s.buf y).block → s.Unused x ∨ s.Unused y :=
    ⟨fun x y hxy hblock => (hxy hblock.symm).symm⟩
  have hor : l.Pairwise fun x y => (s.buf x).block = (s.buf y).block → s.Unused x ∨ s.Unused y :=
    h.later.imp fun hxy hblock => .inr (hxy hblock)
  exact (hor.forall (h.mem b) (h.mem b') hne heq).elim hb hb'

/-- A change that makes no buffer used and keeps the blocks keeps the order. -/
theorem mono (hlinks : s'.links = s.links) (hblock : ∀ b, (s'.buf b).block = (s.buf b).block)
    (hunused : ∀ b, s.Unused b → s'.Unused b) : s'.Listed l := by
  refine ⟨h.perm, hlinks ▸ h.ring, h.later.imp fun {x y} hxy heq => ?_⟩
  rw [hblock, hblock] at heq
  exact hunused y (hxy heq)

theorem toFront (hb : ¬s.Unused b)
    (hlinks : s'.links = (s.links.unlink (some b)).pushFront none (some b))
    (hblock : ∀ b, (s'.buf b).block = (s.buf b).block) (hunused : ∀ b, s.Unused b → s'.Unused b) :
    ∃ l', s'.Listed l' := by
  obtain ⟨xs, ys, rfl⟩ := append_of_mem (h.mem b)
  have hperm : (b :: (xs ++ ys)).Perm (xs ++ b :: ys) := perm_middle.symm
  refine ⟨b :: (xs ++ ys), hperm.trans h.perm, ?_, ?_⟩
  · have hring := h.ring
    rw [map_append, map_cons] at hring
    rw [hlinks, map_cons, map_append]
    refine hring.unlink.pushFront ?_
    have hnodup := (hperm.trans h.perm).nodup_iff.mpr (nodup_finRange nbuf)
    rw [← map_append, mem_cons, not_or]
    refine ⟨some_ne_none b, fun hmem => (nodup_cons.mp hnodup).1 ?_⟩
    obtain ⟨x, hx, heq⟩ := List.mem_map.mp hmem
    exact some.inj heq ▸ hx
  · -- no buffer of the same block came before it, as it is used
    have hlater := pairwise_append.mp h.later
    suffices hfront : (b :: (xs ++ ys)).Pairwise fun x y =>
        (s.buf x).block = (s.buf y).block → s.Unused y by
      refine hfront.imp fun {x y} hxy heq => ?_
      rw [hblock, hblock] at heq
      exact hunused y (hxy heq)
    rw [pairwise_cons, pairwise_append]
    obtain ⟨hys, hyss⟩ := pairwise_cons.mp hlater.2.1
    refine ⟨fun y hy heq => ?_, hlater.1, hyss, fun x hx y hy => ?_⟩
    · rcases mem_append.mp hy with hy | hy
      · exact absurd (hlater.2.2 y hy b mem_cons_self heq.symm) hb
      · exact hys y hy heq
    · exact hlater.2.2 x hx y (mem_cons_of_mem b hy)

theorem hit (hlinks : s'.links = s.links) (hfind : l.find? (fun b => (s.buf b).block == k) = some b)
    (hblock : ∀ b, (s'.buf b).block = (s.buf b).block)
    (hunused : ∀ b', b' ≠ b → s.Unused b' → s'.Unused b') : s'.Listed l := by
  refine ⟨h.perm, hlinks ▸ h.ring, ?_⟩
  obtain ⟨hk, xs, ys, rfl, hxs⟩ := find?_eq_some_iff_append.mp hfind
  rw [beq_iff_eq] at hk
  have hnodup := h.perm.nodup_iff.mpr (nodup_finRange nbuf)
  have hfirst : (xs ++ b :: ys).Pairwise fun x y => y = b → (s.buf x).block ≠ k := by
    have hxs' : ∀ x ∈ xs, (s.buf x).block ≠ k := by simpa using hxs
    rw [pairwise_append, pairwise_cons]
    have hys : ∀ y ∈ ys, y ≠ b := by
      rintro y hy rfl
      exact (nodup_cons.mp (nodup_append.mp hnodup).2.1).1 hy
    exact ⟨pairwise_of_forall_mem_list fun x hx _ _ _ => hxs' x hx,
      ⟨fun y hy heq => absurd heq (hys y hy),
        pairwise_of_forall_mem_list fun _ _ y hy heq => absurd heq (hys y hy)⟩,
      fun x hx _ _ _ => hxs' x hx⟩
  refine (h.later.and hfirst).imp fun {x y} hxy heq => ?_
  rw [hblock, hblock] at heq
  by_cases hy : y = b
  · exact absurd (heq.trans (hy ▸ hk)) (hxy.2 hy)
  · exact hunused y hy (hxy.1 heq)

theorem recycle (hlinks : s'.links = s.links) (hnone : ∀ b, (s.buf b).block ≠ k)
    (hb : (s'.buf b).block = k) (hblock : ∀ b', b' ≠ b → (s'.buf b').block = (s.buf b').block)
    (hunused : ∀ b', b' ≠ b → s.Unused b' → s'.Unused b') : s'.Listed l := by
  refine ⟨h.perm, hlinks ▸ h.ring, ?_⟩
  have hnodup := h.perm.nodup_iff.mpr (nodup_finRange nbuf)
  refine (h.later.and hnodup).imp fun {x y} hxy heq => ?_
  by_cases hx : x = b
  · subst hx
    rw [hb, hblock y (Ne.symm hxy.2)] at heq
    exact absurd heq.symm (hnone y)
  · rw [hblock x hx] at heq
    by_cases hy : y = b
    · subst hy
      exact absurd (heq.trans hb) (hnone x)
    · rw [hblock y hy] at heq
      exact hunused y hy (hxy.1 heq)

end Listed

/-- The blocks and the unused buffers stay as they are if only a buffer in use changes. -/
theorem blocks_of_used (hb : ¬s.Unused b) (hbuf : s'.buf = update s.buf b x)
    (hblock : x.block = (s.buf b).block) :
    (∀ b, (s'.buf b).block = (s.buf b).block) ∧ ∀ b, s.Unused b → s'.Unused b := by
  constructor
  · intro b'
    by_cases hb' : b' = b
    · rw [hb', hbuf, update_self, hblock]
    · rw [hbuf, update_of_ne hb']
  · intro b' hu
    have hb' : b' ≠ b := fun heq => hb (heq ▸ hu)
    unfold Unused
    rw [hbuf, update_of_ne hb']
    exact hu

/-! ### References and locks -/

variable [Fintype ι] {h : ι} {k : BlockId}

/-- The list, the references, the blocks of the buffers that processes have to do with, their sleep
locks, and their data. -/
structure Control (s : Bcache ι D S) : Prop where
  list : ∃ l, s.Listed l
  count : ∀ b, (s.buf b).refcnt = ∑ h, (s.pc h).refs b + s.pins b
  request : ∀ h b k, (s.pc h).target = some (b, k) → (s.buf b).block = k
  lock : ∀ h b, (s.buf b).lock = some h ↔ (s.pc h).Locks b
  valid : ∀ h b k, s.pc h = .holding b k → (s.buf b).valid = true

namespace Control

theorem refcnt_pos (c : s.Control) (ht : (s.pc h).target = some (b, k)) : 0 < (s.buf b).refcnt := by
  have hone : 1 ≤ ∑ h, (s.pc h).refs b :=
    (refs_of_target ht).symm.trans_le (Counting.le_sum_of_mem (fun h => (s.pc h).refs b) h)
  have hcount := c.count b
  omega

theorem not_unused (c : s.Control) (ht : (s.pc h).target = some (b, k)) : ¬s.Unused b :=
  fun hu => (c.refcnt_pos ht).ne' hu.1

theorem unique (c : s.Control) {b' : Fin nbuf} (heq : (s.buf b).block = (s.buf b').block)
    (hb : ¬s.Unused b) (hb' : ¬s.Unused b') : b = b' := by
  obtain ⟨l, hl⟩ := c.list
  exact hl.unique heq hb hb'

section Steps

variable [DecidableEq ι] {q : Pc} (c : s.Control)

include c

theorem change (hbuf : s'.buf = update s.buf b x) (hpc : s'.pc = update s.pc h q)
    (hlist : ∃ l, s'.Listed l) (hpins : ∀ b', b' ≠ b → s'.pins b' = s.pins b')
    (hcount : x.refcnt + (s.pc h).refs b + s.pins b = (s.buf b).refcnt + q.refs b + s'.pins b)
    (hfrom : ∀ b' k', (s.pc h).target = some (b', k') → b' = b)
    (hto : ∀ b' k', q.target = some (b', k') → b' = b ∧ x.block = k')
    (hblock : 0 < (s.buf b).refcnt → x.block = (s.buf b).block)
    (hothers : ∀ h', h' ≠ h → (x.lock = some h' ↔ (s.buf b).lock = some h'))
    (hlock : x.lock = some h ↔ q.Locks b) (hvalid : ∀ k', q = .holding b k' → x.valid = true)
    (hkeeps : 0 < (s.buf b).refcnt → (s.buf b).valid = true → x.valid = true) : s'.Control := by
  obtain ⟨hself, hrest⟩ := eq_update_iff.mp hbuf
  obtain ⟨hpself, hprest⟩ := eq_update_iff.mp hpc
  refine ⟨hlist, fun b' => ?_, fun h' b' k' ht => ?_, fun h' b' => ?_, fun h' b' k' hp => ?_⟩
  · have hsum := Counting.sum_update_add (Pc.refs b') s.pc h q
    rw [← hpc] at hsum
    have hold := c.count b'
    by_cases hb' : b' = b
    · subst hb'
      rw [hself]
      omega
    · have hzero : (s.pc h).refs b' = 0 := refs_eq_zero fun k' ht => hb' (hfrom b' k' ht)
      have hzero' : q.refs b' = 0 := refs_eq_zero fun k' ht => hb' (hto b' k' ht).1
      rw [hrest b' hb', hpins b' hb']
      omega
  · by_cases hh' : h' = h
    · subst hh'
      obtain ⟨rfl, hk⟩ := hto b' k' (hpself ▸ ht)
      rw [hself, hk]
    · rw [hprest h' hh'] at ht
      have hreq := c.request h' b' k' ht
      by_cases hb' : b' = b
      · subst hb'
        rw [hself, hblock (c.refcnt_pos ht), hreq]
      · rw [hrest b' hb', hreq]
  · by_cases hh' : h' = h
    · subst hh'
      rw [hpself]
      by_cases hb' : b' = b
      · subst hb'
        rw [hself, hlock]
      · rw [hrest b' hb', c.lock]
        refine iff_of_false (fun hl => ?_) fun hl => ?_
        · exact hl.target.elim fun k' ht => hb' (hfrom b' k' ht)
        · exact hl.target.elim fun k' ht => hb' (hto b' k' ht).1
    · rw [hprest h' hh', ← c.lock]
      by_cases hb' : b' = b
      · subst hb'
        rw [hself, hothers h' hh']
      · rw [hrest b' hb']
  · by_cases hh' : h' = h
    · subst hh'
      rw [hpself] at hp
      obtain ⟨rfl, -⟩ := hto b' k' (hp ▸ rfl)
      rw [hself, hvalid k' hp]
    · rw [hprest h' hh'] at hp
      have hval := c.valid h' b' k' hp
      by_cases hb' : b' = b
      · subst hb'
        rw [hself, hkeeps (c.refcnt_pos (congrArg target hp)) hval]
      · rw [hrest b' hb', hval]

theorem stay (ht : (s.pc h).target = some (b, k)) (hq : q.target = some (b, k))
    (hbuf : s'.buf = update s.buf b x) (hpc : s'.pc = update s.pc h q) (hlinks : s'.links = s.links)
    (hblock : x.block = (s.buf b).block) (hpins : ∀ b', b' ≠ b → s'.pins b' = s.pins b')
    (hcount : x.refcnt + s.pins b = (s.buf b).refcnt + s'.pins b)
    (hothers : ∀ h', h' ≠ h → (x.lock = some h' ↔ (s.buf b).lock = some h'))
    (hlock : x.lock = some h ↔ q.Locks b) (hvalid : ∀ k', q = .holding b k' → x.valid = true)
    (hkeeps : (s.buf b).valid = true → x.valid = true) : s'.Control := by
  obtain ⟨l, hl⟩ := c.list
  obtain ⟨hblocks, hunused⟩ := blocks_of_used (c.not_unused ht) hbuf hblock
  have hsame : ∀ {pc : Pc}, pc.target = some (b, k) → ∀ b' k', pc.target = some (b', k') →
      b' = b ∧ k = k' := by
    intro pc hpc b' k' heq
    cases hpc.symm.trans heq
    exact ⟨rfl, rfl⟩
  refine c.change hbuf hpc ⟨l, hl.mono hlinks hblocks hunused⟩ hpins ?_
    (fun b' k' heq => (hsame ht b' k' heq).1) (fun b' k' heq => ?_) (fun _ => hblock) hothers hlock
    hvalid fun _ => hkeeps
  · rw [refs_of_target ht, refs_of_target hq]
    omega
  · obtain ⟨rfl, rfl⟩ := hsame hq b' k' heq
    exact ⟨rfl, hblock.trans (c.request h b' k ht)⟩

/-- `bget` finds the first buffer of the block, or recycles one that nobody uses for a block that no
buffer has. -/
theorem bget_cases (hs : s.bget h k = some s') :
    (∃ l b, s.Listed l ∧ l.find? (fun b => (s.buf b).block == k) = some b ∧
      s' = (s.setBuf b { s.buf b with refcnt := (s.buf b).refcnt + 1 }).goto h (.locking b k)) ∨
    ∃ b, (∀ b', (s.buf b').block ≠ k) ∧ (s.buf b).refcnt = 0 ∧
      s' = (s.setBuf b { s.buf b with block := k, valid := false, refcnt := 1 }).goto h
        (.locking b k) := by
  obtain ⟨l, hl⟩ := c.list
  unfold bget at hs
  rw [findBuf_next hl.ring hl.length_eq, findBuf_prev hl.ring hl.length_eq] at hs
  split at hs
  · rename_i b hfind
    exact .inl ⟨l, b, hl, hfind, (some.inj hs).symm⟩
  · rename_i hmiss
    split at hs
    · rename_i b hfind
      refine .inr ⟨b, fun b' heq => ?_, ?_, (some.inj hs).symm⟩
      · exact find?_eq_none.mp hmiss b' (hl.mem b') (beq_iff_eq.mpr heq)
      · simpa using find?_some hfind
    · cases hs

theorem bget (hp : s.pc h = .idle) (hs : s.bget h k = some s') : s'.Control := by
  have hidle : (s.pc h).target = none := congrArg target hp
  have hfrom : ∀ (b : Fin nbuf) b' k', (s.pc h).target = some (b', k') → b' = b := by
    intro b b' k' ht
    cases hidle.symm.trans ht
  have hzero : ∀ b, (s.pc h).refs b = 0 := fun b => refs_eq_zero fun k' ht => by
    cases hidle.symm.trans ht
  have hunlocked : ∀ b, (s.buf b).lock ≠ some h := fun b hl => by
    have hlocks := (c.lock h b).mp hl
    rw [hp] at hlocks
    exact hlocks
  have hto : ∀ b b' k', (locking b k).target = some (b', k') → b' = b ∧ k = k' := by
    intro b b' k' ht
    cases ht
    exact ⟨rfl, rfl⟩
  rcases c.bget_cases hs with ⟨l, b, hl, hfind, rfl⟩ | ⟨b, hnone, hfree, rfl⟩
  · have hk : (s.buf b).block = k := by simpa using find?_some hfind
    refine c.change rfl rfl ⟨l, hl.hit rfl hfind ?_ ?_⟩ (fun _ _ => rfl) ?_ (hfrom b)
      (fun b' k' ht => ⟨(hto b b' k' ht).1, hk.trans (hto b b' k' ht).2⟩) (fun _ => rfl)
      (fun _ _ => Iff.rfl) (iff_of_false (hunlocked b) id) (fun k' heq => by cases heq)
      fun _ hv => hv
    · intro b'
      by_cases hb' : b' = b
      · subst hb'
        simp
      · simp [update_of_ne hb']
    · intro b' hb' hu
      simpa [Unused, update_of_ne hb'] using hu
    · have hone : (locking b k).refs b = 1 := refs_of_target rfl
      have hz := hzero b
      simp only [goto_pins, setBuf_pins]
      omega
  · obtain ⟨l, hl⟩ := c.list
    refine c.change rfl rfl ⟨l, hl.recycle rfl hnone (b := b) ?_ ?_ ?_⟩ (fun _ _ => rfl) ?_
      (hfrom b)
      (fun b' k' ht => hto b b' k' ht) (fun hpos => absurd hfree hpos.ne')
      (fun _ _ => Iff.rfl) (iff_of_false (hunlocked b) id) (fun k' heq => by cases heq)
      fun hpos => absurd hfree hpos.ne'
    · simp
    · intro b' hb'
      simp [update_of_ne hb']
    · intro b' hb' hu
      simpa [Unused, update_of_ne hb'] using hu
    · have hone : (locking b k).refs b = 1 := refs_of_target rfl
      have hz := hzero b
      simp only [goto_pins, setBuf_pins]
      omega

theorem lockBuf (hp : s.pc h = .locking b k) (hfree : (s.buf b).lock = none) :
    ((s.setBuf b { s.buf b with lock := some h }).goto h (.locked b k)).Control := by
  refine c.stay (congrArg target hp) rfl rfl rfl rfl rfl (fun _ _ => rfl) rfl (fun h' hne => ?_)
    (iff_of_true rfl rfl) (fun k' heq => by cases heq) id
  rw [hfree]
  exact iff_of_false (fun heq => hne (some.inj heq).symm) (fun heq => by cases heq)

theorem keepLock (ht : (s.pc h).target = some (b, k)) (hlocks : (s.pc h).Locks b)
    (hq : q.target = some (b, k)) (hqlocks : q.Locks b) (hbuf : s'.buf = update s.buf b x)
    (hpc : s'.pc = update s.pc h q) (hlinks : s'.links = s.links)
    (hblock : x.block = (s.buf b).block) (hxlock : x.lock = (s.buf b).lock)
    (hpins : ∀ b', b' ≠ b → s'.pins b' = s.pins b')
    (hcount : x.refcnt + s.pins b = (s.buf b).refcnt + s'.pins b)
    (hvalid : ∀ k', q = .holding b k' → x.valid = true)
    (hkeeps : (s.buf b).valid = true → x.valid = true) : s'.Control :=
  c.stay ht hq hbuf hpc hlinks hblock hpins hcount (fun h' _ => by rw [hxlock])
    (iff_of_true (hxlock.trans ((c.lock h b).mpr hlocks)) hqlocks) hvalid hkeeps

theorem putBack (hp : s.pc h = .releasing b k) : (s.putBack h b).Control := by
  have ht : (s.pc h).target = some (b, k) := congrArg target hp
  have hunlocked : (s.buf b).lock ≠ some h := fun hl => by
    have hlocks := (c.lock h b).mp hl
    rw [hp] at hlocks
    exact hlocks
  obtain ⟨l, hl⟩ := c.list
  have hcount : (s.buf b).refcnt - 1 + (s.pc h).refs b = (s.buf b).refcnt + Pc.idle.refs b := by
    have hpos := c.refcnt_pos ht
    have hone := refs_of_target ht
    have hzero : Pc.idle.refs b = 0 := rfl
    omega
  have hfrom : ∀ b' k', (s.pc h).target = some (b', k') → b' = b := by
    intro b' k' ht'
    cases ht.symm.trans ht'
    rfl
  have hto : ∀ b' k', Pc.idle.target = some (b', k') →
      b' = b ∧ (s.buf b).block = k' := fun b' k' heq => by cases heq
  obtain ⟨hblocks, hunused⟩ := blocks_of_used (c.not_unused ht)
    (show (s.setBuf b { s.buf b with refcnt := (s.buf b).refcnt - 1 }).buf = _ from rfl) rfl
  have hchange : ∀ s' : Bcache ι D S,
      s'.buf = update s.buf b { s.buf b with refcnt := (s.buf b).refcnt - 1 } →
      s'.pc = update s.pc h .idle → s'.pins = s.pins → (∃ l, s'.Listed l) → s'.Control :=
    fun s' hbuf hpc hpins hlist => c.change hbuf hpc hlist (fun _ _ => by rw [hpins])
      (hpins ▸ congrArg (· + s.pins b) hcount) hfrom hto (fun _ => rfl) (fun _ _ => Iff.rfl)
      (iff_of_false hunlocked id) (fun k' heq => by cases heq) fun _ hv => hv
  unfold Bcache.putBack
  dsimp only
  split
  · exact hchange _ rfl rfl rfl (hl.toFront (c.not_unused ht) rfl hblocks hunused)
  · exact hchange _ rfl rfl rfl ⟨l, hl.mono rfl hblocks hunused⟩

theorem brelse (hp : s.pc h = .holding b k) (hlock : (s.buf b).lock = some h) :
    ((s.setBuf b { s.buf b with lock := none }).goto h (.releasing b k)).Control := by
  refine c.stay (congrArg target hp) rfl rfl rfl rfl rfl (fun _ _ => rfl) rfl (fun h' hne => ?_)
    (iff_of_false (fun heq => by cases heq) id) (fun k' heq => by cases heq) id
  rw [hlock]
  exact iff_of_false (fun heq => by cases heq) (fun heq => hne (some.inj heq).symm)

end Steps

theorem holding [DecidableEq ι] (c : s.Control) (hp : s.pc h = .holding b k)
    (hbuf : s'.buf = update s.buf b x) (hpc : s'.pc = s.pc) (hlinks : s'.links = s.links)
    (hblock : x.block = (s.buf b).block) (hlock : x.lock = (s.buf b).lock)
    (hvalid : x.valid = (s.buf b).valid) (hpins : ∀ b', b' ≠ b → s'.pins b' = s.pins b')
    (hcount : x.refcnt + s.pins b = (s.buf b).refcnt + s'.pins b) : s'.Control := by
  have hval := c.valid h b k hp
  refine c.keepLock (congrArg target hp) (by rw [hp]; rfl) (q := .holding b k) rfl rfl hbuf ?_
    hlinks hblock hlock hpins hcount (fun _ _ => hvalid.trans hval) fun _ => hvalid.trans hval
  rw [hpc, ← hp, update_eq_self]

end Control

end Bcache

/-- **Every event keeps the invariant.** -/
theorem Bcache.Control.step [Fintype ι] [DecidableEq ι] [DecidableEq S] {s' : Bcache ι D S}
    {addr : BlockId → S} {K : Set BlockId} {e : Event ι D} {o : Option (Act ι BlockId D)}
    (c : s.Control) (hallowed : Allowed K s e) (hs : e.run addr s = some (o, s')) : s'.Control := by
  cases Event.run_does hs with
  | bget hp hs => exact c.bget hp hs
  | lock hp hfree => exact c.lockBuf hp hfree
  | @hit _ b k hp hvalid =>
    exact c.keepLock (x := s.buf b) (q := .holding b k) (congrArg target hp) (by rw [hp]; rfl)
      rfl rfl (update_eq_self b s.buf).symm rfl rfl rfl rfl (fun _ _ => rfl) rfl (fun _ _ => hvalid)
      id
  | @fill _ b k hp hinvalid =>
    exact c.keepLock (q := .filled b k) (congrArg target hp) (by rw [hp]; rfl) rfl rfl rfl rfl
      rfl rfl rfl (fun _ _ => rfl) rfl (fun _ heq => by cases heq) id
  | @filled _ b k hp =>
    exact c.keepLock (q := .holding b k) (congrArg target hp) (by rw [hp]; rfl) rfl rfl rfl rfl
      rfl rfl rfl (fun _ _ => rfl) rfl (fun _ _ => rfl) fun _ => rfl
  | putBack hp => exact c.putBack hp
  | modify hp => exact c.holding hp rfl rfl rfl rfl rfl rfl (fun _ _ => rfl) rfl
  | @bwrite _ b _ hp =>
    exact c.holding hp (update_eq_self b s.buf).symm rfl rfl rfl rfl rfl (fun _ _ => rfl) rfl
  | bpin hp =>
    refine c.holding hp rfl rfl rfl rfl rfl rfl (fun b' hb' => ?_) ?_
    · simp [Bcache.bpin, update_of_ne hb']
    · simp only [Bcache.bpin, update_self]
      omega
  | @bunpin _ b _ hp =>
    refine c.holding hp rfl rfl rfl rfl rfl rfl (fun b' hb' => ?_) ?_
    · simp [bunpin, update_of_ne hb']
    · have hpins := (hallowed b (by rw [hp]; rfl)).2
      have hcount := c.count b
      simp only [bunpin, update_self]
      omega
  | brelse hp hlock => exact c.brelse hp hlock

end Xv6.Bio
