import Xv6.Dev.Requests

/-!
# Completions and requests

The invariant of the disk driver: locks, descriptors, memory and requests are as they should be, and
a thread that has `disk.vdisk_lock` can rely on what it has established under it. The steps of
threads with the lock go through one lemma (`Sound.move`), as no other thread relies on anything
meanwhile; the device is not held up by the lock, but what it changes matters to nobody
(`Sound.relies_device`).
-/

namespace Xv6.Virtio

open Function List Option Pc

variable {ι β : Type*}

/-- What a thread with the lock relies on. -/
def Relies (s : Sys ι β) : Pc β → Prop
  | .offer c x => s.busy c.b = true ∧ (s.disk.info x.i0).status = 0xff
  | .publish c x => s.busy c.b = true ∧ (s.disk.info x.i0).status = 0xff ∧
      s.disk.availRing (s.disk.availIdx.toNat % num) = x.i0
  | .finish c _ _ => s.busy c.b = false
  | .ret c k => (k, some c.transfer) ∈ s.dev.log
  | .take => s.disk.usedIdx ≠ s.disk.usedRingIdx
  | _ => True

structure Sound (s : Sys ι β) : Prop where
  locks : Locks s.pc s.vdiskLock s.bufLock
  pool : Pool s.disk.free fun i => (s.pc i).chain
  memory : Memory s.disk fun i => (s.pc i).written
  books : ∃ q u, Books s.disk s.dev s.busy s.made (fun i => (s.pc i).ticket) q u
  relies : ∀ i, Relies s (s.pc i)
  panic : s.panic = none

/-! ## The steps -/

namespace Sound

variable {s s' : Sys ι β} {i i' : ι} {c c' : Call β} {x x' : Idx} {k k' : ℕ}

theorem relies_of_not_holds {p : Pc β} (hp : p.holds = false) : Relies s p := by
  cases p <;> trivial

variable (h : Sound s)

include h

/-- No descriptor belongs to two calls. -/
theorem disjoint (hi : (s.pc i).chain = x.list) (hi' : (s.pc i').chain = x'.list)
    (hne : i' ≠ i) {j : ℕ} (hj : j ∈ x'.list) : j ∉ x.list := fun hj' =>
  hne (h.pool.one i' i j (hi' ▸ hj) (hi ▸ hj'))

/-- Two calls have different buffers, since each holds the sleep lock of its own. -/
theorem buf_ne (hi : (s.pc i).buf = some c.b) (hi' : (s.pc i').buf = some c'.b) (hne : i' ≠ i) :
    c'.b ≠ c.b := fun heq => hne (by
  have hlock := h.locks.buf i' _ hi'
  rw [heq, h.locks.buf i _ hi] at hlock
  exact (some.inj hlock).symm)

/-- A head names one call. -/
theorem head_inj (hi : (s.pc i).ticket = some (c, x, k))
    (hi' : (s.pc i').ticket = some (c', x', k')) (heq : x.i0 = x'.i0) : i = i' := by
  have hchain := chain_of_written (written_of_ticket hi)
  have hchain' := chain_of_written (written_of_ticket hi')
  exact h.pool.one i i' x.i0 (by simp [hchain]) (by simp [hchain', heq])

section Room

variable {q u : List (ℕ × ℕ)}
  (hbooks : Books s.disk s.dev s.busy s.made (fun j => (s.pc j).ticket) q u)

include hbooks

theorem heads_lt : ∀ j ∈ (s.dev.pending q u).map Prod.snd, j < num := by
  intro j hj
  obtain ⟨e, he, rfl⟩ := List.mem_map.mp hj
  obtain ⟨i', c', x', hi', hx'⟩ := hbooks.mine e he
  have hchain' := chain_of_written (written_of_ticket hi')
  exact (h.pool.used i' e.2 (by simp [hchain', hx'])).1

/-- While a thread has a request that it has not yet put on the ring, there is room for it. -/
theorem room (hchain : (s.pc i).chain = x.list) (hticket : (s.pc i).ticket = none) :
    q.length < num := by
  have hnodup := hbooks.heads_nodup fun _ _ _ _ _ _ _ _ => h.head_inj
  have hlt : ∀ j ∈ x.i0 :: (s.dev.pending q u).map Prod.snd, j < num := by
    intro j hj
    rcases mem_cons.mp hj with rfl | hj
    · exact (h.pool.used i x.i0 (by simp [hchain])).1
    · exact h.heads_lt hbooks j hj
  have hnew : x.i0 ∉ (s.dev.pending q u).map Prod.snd := by
    intro hj
    obtain ⟨e, he, hex⟩ := List.mem_map.mp hj
    obtain ⟨i', c', x', hi', hx'⟩ := hbooks.mine e he
    have hchain' := chain_of_written (written_of_ticket hi')
    cases h.pool.one i' i x.i0 (by simp [hchain', hx', hex]) (by simp [hchain])
    rw [hticket] at hi'
    cases hi'
  have hlen := Books.length_le_num (nodup_cons.mpr ⟨hnew, hnodup⟩) hlt
  have hle := Books.length_le_pending s.dev q u
  rw [length_cons] at hlen
  omega

/-- A request that is not yet on the `used` ring has room there. -/
theorem room_used {e : ℕ × ℕ} (he : e ∈ s.dev.finished) : u.length < num := by
  have hnodup := hbooks.heads_nodup fun _ _ _ _ _ _ _ _ => h.head_inj
  have hlen := Books.length_le_num hnodup (h.heads_lt hbooks)
  have hle := Books.length_le_pending s.dev q u
  have hpos : 0 < s.dev.finished.length := length_pos_of_mem he
  omega

end Room

/-- A call whose buffer is no longer busy has been performed. -/
theorem log_of_not_busy (hi : (s.pc i).ticket = some (c, x, k)) (hbusy : s.busy c.b = false) :
    (k, some c.transfer) ∈ s.dev.log := by
  obtain ⟨q, u, hbooks⟩ := h.books
  refine (hbooks.performed i c x k hi fun hmem => ?_).2
  have hpending := (hbooks.awaits i c x k hi).mpr (by
    rw [Device.pending, append_assoc]
    exact mem_append_left _ hmem)
  rw [hbusy] at hpending
  cases hpending

omit h in
theorem boot : Sound (.boot : Sys ι β) where
  locks := ⟨by simp [Sys.boot, Pc.holds], by simp [Sys.boot, Pc.buf]⟩
  pool := ⟨by simp [Sys.boot, Pc.chain], by simp [Sys.boot, Pc.chain], by simp [Sys.boot, Pc.chain],
    fun j hj hused => by simp [Sys.boot, hj] at hused⟩
  memory := fun i c x hi => by simp [Sys.boot, written] at hi
  books := ⟨[], [], by
    constructor <;> simp [Sys.boot, ticket, Device.pending]⟩
  relies := fun _ => trivial
  panic := rfl

/-- Taking and releasing locks leaves the requests as they are. -/
theorem around {pc : ι → Pc β} {v : Option ι} {bl : β → Option ι} (hlocks : Locks pc v bl)
    (hchain : ∀ j, (pc j).chain = (s.pc j).chain)
    (hwritten : ∀ j, (pc j).written = (s.pc j).written)
    (hticket : ∀ j, (pc j).ticket = (s.pc j).ticket) (hrelies : ∀ j, Relies s (pc j)) :
    Sound { s with pc := pc, vdiskLock := v, bufLock := bl } where
  locks := hlocks
  pool := by
    rw [funext hchain]
    exact h.pool
  memory := by
    rw [funext hwritten]
    exact h.memory
  books := by
    rw [funext hticket]
    exact h.books
  relies := hrelies
  panic := h.panic

/-! ### The device -/

omit h in
/-- The device leaves alone what a thread with the lock relies on. -/
theorem relies_device {p : Pc β} (h : Relies s p) (hbusy : s'.busy = s.busy)
    (hring : s'.disk.availRing = s.disk.availRing) (hidx : s'.disk.availIdx = s.disk.availIdx)
    (hlog : ∀ e ∈ s.dev.log, e ∈ s'.dev.log)
    (hused : s.disk.usedIdx ≠ s.disk.usedRingIdx → s'.disk.usedIdx ≠ s'.disk.usedRingIdx)
    (hstatus : ∀ c x, p.written = some (c, x) → p.ticket = none →
      (s'.disk.info x.i0).status = (s.disk.info x.i0).status) : Relies s' p := by
  cases p with
  | offer c x =>
    obtain ⟨h1, h2⟩ : _ ∧ _ := h
    exact ⟨hbusy ▸ h1, (hstatus c x rfl rfl).trans h2⟩
  | publish c x =>
    obtain ⟨h1, h2, h3⟩ : _ ∧ _ ∧ _ := h
    exact ⟨hbusy ▸ h1, (hstatus c x rfl rfl).trans h2, by rw [hring, hidx]; exact h3⟩
  | finish c x k =>
    change s'.busy c.b = false
    rw [hbusy]
    exact h
  | ret c k => exact hlog _ h
  | take => exact hused h
  | _ => trivial

theorem fetch (hne : s.dev.next ≠ s.disk.availIdx) :
    Sound { s with dev := s.dev.fetch (s.disk.availRing (s.dev.next.toNat % num)) } := by
  obtain ⟨q, u, hbooks⟩ := h.books
  cases q with
  | nil => exact absurd (Ring.length_eq_zero_iff.mp hbooks.avail_length) hne
  | cons e q =>
    exact ⟨h.locks, h.pool, h.memory, ⟨q, u, hbooks.fetch⟩, fun j =>
      relies_device (h.relies j) rfl rfl rfl (fun _ he => he) id fun _ _ _ _ => rfl, h.panic⟩

/-- The device finds in memory the request of the call that the head names. -/
theorem perform {e : ℕ × ℕ} (he : e ∈ s.dev.todo) :
    Sound { s with
      dev := s.dev.perform e (s.disk.transfer e.2)
      disk := s.disk.succeed e.2 } := by
  obtain ⟨k, j⟩ := e
  obtain ⟨q, u, hbooks⟩ := h.books
  obtain ⟨i, c, x, hi, hx⟩ := hbooks.mine (k, j) (by simp [Device.pending, he])
  subst hx
  have hi' : (s.pc i).ticket = some (c, x, k) := hi
  have hholds := h.memory i c x (written_of_ticket hi')
  rw [hholds.transfer, hholds.succeed]
  refine ⟨h.locks, h.pool, fun i' c' x' hwritten => ?_, ⟨q, u, hbooks.perform hi he
    fun i' c' x' k' hticket heq => h.head_inj hticket hi' heq⟩, fun i' => ?_, h.panic⟩
  · refine (h.memory i' c' x' hwritten).same (fun _ _ => rfl) rfl ?_
    by_cases hx : x'.i0 = x.i0
    · simp [hx]
    · simp [update_of_ne hx]
  · refine relies_device (h.relies i') rfl rfl rfl (fun _ he => mem_append_left _ he) id
      fun c' x' hwritten hticket => ?_
    have hne : i' ≠ i := by
      rintro rfl
      rw [hi'] at hticket
      cases hticket
    have hother := h.disjoint (chain_of_written (written_of_ticket hi'))
      (chain_of_written hwritten) hne (j := x'.i0) (by simp)
    simp only [Idx.mem_list, not_or] at hother
    simp [update_of_ne hother.1]

theorem complete {e : ℕ × ℕ} (he : e ∈ s.dev.finished) :
    Sound { s with
      dev := s.dev.complete e
      disk := { s.disk with
        usedRing := update s.disk.usedRing (s.disk.usedRingIdx.toNat % num) e.2
        usedRingIdx := s.disk.usedRingIdx + 1 } } := by
  obtain ⟨q, u, hbooks⟩ := h.books
  have hnew := hbooks.complete he (h.room_used hbooks he)
  refine ⟨h.locks, h.pool, fun i c x hi => (h.memory i c x hi).same (fun _ _ => rfl) rfl rfl,
    ⟨q, u ++ [e], hnew⟩, fun j => relies_device (h.relies j) rfl rfl rfl (fun _ he => he)
      (fun _ heq => ?_) fun _ _ _ _ => rfl, h.panic⟩
  have hlen := hnew.used_length
  rw [Ring.length_eq_zero_iff.mpr heq, length_append, length_singleton] at hlen
  omega

/-! ### Steps with the lock -/

variable [DecidableEq ι] {o p : Pc β}

/-- A step of the thread that has the lock: nobody else relies on anything. -/
theorem move (hi : s.pc i = o) (hholds : o.holds = true) (hpc : s'.pc = update s.pc i p)
    (hbuf : p.buf = none ∨ p.buf = o.buf)
    (hlock : s'.vdiskLock = s.vdiskLock ∨ s'.vdiskLock = none ∧ p.holds = false)
    (hbufLock : s'.bufLock = s.bufLock) (hpanic : s'.panic = s.panic)
    (hpool : Pool s'.disk.free (update (fun j => (s.pc j).chain) i p.chain))
    (hmemory : Memory s'.disk (update (fun j => (s.pc j).written) i p.written))
    (hbooks : ∃ q u, Books s'.disk s'.dev s'.busy s'.made
      (update (fun j => (s.pc j).ticket) i p.ticket) q u) (hrelies : Relies s' p) : Sound s' := by
  have hmine := h.locks.vdisk i (hi ▸ hholds)
  -- the others do not have the lock
  have halone : ∀ j, j ≠ i → (s.pc j).holds = false := fun j hj => by
    by_contra hjh
    have hother := h.locks.vdisk j (Bool.not_eq_false _ ▸ hjh)
    rw [hmine] at hother
    exact hj (some.inj hother).symm
  refine ⟨⟨fun j hj => ?_, fun j b hj => ?_⟩, ?_, ?_, ?_, fun j => ?_, hpanic.trans h.panic⟩
  · rw [hpc] at hj
    by_cases he : j = i
    · subst he
      rw [update_self] at hj
      rcases hlock with hlock | ⟨-, hp⟩
      · rw [hlock, hmine]
      · rw [hp] at hj
        cases hj
    · rw [update_of_ne he, halone j he] at hj
      cases hj
  · rw [hbufLock]
    rw [hpc] at hj
    by_cases he : j = i
    · subst he
      rw [update_self] at hj
      rcases hbuf with hbuf | hbuf
      · cases hbuf.symm.trans hj
      · exact h.locks.buf j b (by rw [hi, ← hbuf, hj])
    · rw [update_of_ne he] at hj
      exact h.locks.buf j b hj
  · rwa [hpc, view_update Pc.chain]
  · rwa [hpc, view_update written]
  · rwa [hpc, view_update ticket]
  · rw [hpc]
    by_cases he : j = i
    · subst he
      rwa [update_self]
    · rw [update_of_ne he]
      exact relies_of_not_holds (halone j he)

omit h in
theorem view_same {γ : Type*} (f : Pc β → γ) {pc : ι → Pc β} (hi : pc i = o) (hp : f p = f o) :
    update (fun j => f (pc j)) i (f p) = fun j => f (pc j) := by
  rw [hp, ← hi]
  exact update_eq_self i _

/-- A step that leaves the request of the thread where it is. -/
theorem pass (hi : s.pc i = o) (hholds : o.holds = true) (hpc : s'.pc = update s.pc i p)
    (hbuf : p.buf = none ∨ p.buf = o.buf)
    (hlock : s'.vdiskLock = s.vdiskLock ∨ s'.vdiskLock = none ∧ p.holds = false)
    (hbufLock : s'.bufLock = s.bufLock) (hpanic : s'.panic = s.panic) (hchain : p.chain = o.chain)
    (hwritten : p.written = o.written) (hticket : p.ticket = o.ticket)
    (hfree : s'.disk.free = s.disk.free) (hmemory : Memory s'.disk fun j => (s.pc j).written)
    (hbooks : ∃ q u, Books s'.disk s'.dev s'.busy s'.made (fun j => (s.pc j).ticket) q u)
    (hrelies : Relies s' p) : Sound s' := by
  refine h.move hi hholds hpc hbuf hlock hbufLock hpanic ?_ ?_ ?_ hrelies
  · rw [view_same Pc.chain hi hchain, hfree]
    exact h.pool
  · rwa [view_same written hi hwritten]
  · rwa [view_same ticket hi hticket]

theorem alloc (hi : s.pc i = .alloc c) : Sound (s.alloc i c) := by
  obtain ⟨q, u, hbooks⟩ := h.books
  obtain ⟨r, hr, hspec⟩ := alloc3Desc_spec s.disk
  unfold Sys.alloc
  rw [hr]
  cases hspec with
  | fail desc hdesc =>
    refine h.pass hi rfl rfl (.inr rfl) (.inr ⟨rfl, rfl⟩) rfl rfl rfl rfl rfl rfl
      (fun j c' x' hj => ?_) ⟨q, u, hbooks.frame rfl rfl fun _ _ _ _ _ => ⟨rfl, rfl⟩⟩ trivial
    refine (h.memory j c' x' hj).same (fun n hn => hdesc n ?_) rfl rfl
    exact (h.pool.used j n (by rwa [chain_of_written hj])).2
  | ok x hx hfree =>
    refine h.move hi rfl rfl (.inr rfl) (.inl rfl) rfl rfl ?_ ?_ ?_ trivial
    · exact h.pool.alloc (by rw [hi]; rfl) hx hfree
    · rw [view_same written (p := .format c x) hi rfl]
      exact fun j c' x' hj => (h.memory j c' x' hj).same (fun _ _ => rfl) rfl rfl
    · rw [view_same ticket (p := .format c x) hi rfl]
      exact ⟨q, u, hbooks.frame rfl rfl fun _ _ _ _ _ => ⟨rfl, rfl⟩⟩

theorem format [DecidableEq β] (hi : s.pc i = .format c x) :
    Sound ({ s with
      disk := s.disk.format c x
      busy := update s.busy c.b true }.goto i (.offer c x)) := by
  have hchain : (s.pc i).chain = x.list := by rw [hi]; rfl
  have hbuf : (s.pc i).buf = some c.b := by rw [hi]; rfl
  obtain ⟨q, u, hbooks⟩ := h.books
  refine h.move hi rfl rfl (.inr rfl) (.inl rfl) rfl rfl ?_ ?_ ?_ ?_
  · rw [view_same Pc.chain (p := .offer c x) hi rfl]
    exact h.pool
  · intro j c' x' hj
    by_cases he : j = i
    · subst he
      rw [update_self] at hj
      cases hj
      exact .format (hchain ▸ h.pool.nodup j)
    · -- the others' memory is elsewhere
      rw [update_of_ne he] at hj
      have hother : ∀ n ∈ x'.list, n ∉ x.list := fun n hn =>
        h.disjoint hchain (chain_of_written hj) he hn
      refine (h.memory j c' x' hj).same (fun n hn => ?_) ?_ ?_
      · have hn' := hother n hn
        simp only [Idx.mem_list, not_or] at hn'
        simp [Disk.format, update_of_ne, hn']
      · have hn' := hother x'.i0 (by simp)
        simp only [Idx.mem_list, not_or] at hn'
        simp [Disk.format, update_of_ne, hn']
      · have hn' := hother x'.i0 (by simp)
        simp only [Idx.mem_list, not_or] at hn'
        simp [Disk.format, update_of_ne, hn']
  · rw [view_same ticket (p := .offer c x) hi rfl]
    refine ⟨q, u, hbooks.frame rfl rfl fun j c' x' k' hj => ?_⟩
    have he : j ≠ i := by
      rintro rfl
      rw [hi] at hj
      cases hj
    have hwritten := written_of_ticket hj
    have hn' := h.disjoint hchain (chain_of_written hwritten) he (j := x'.i0) (by simp)
    simp only [Idx.mem_list, not_or] at hn'
    have hb := h.buf_ne hbuf (buf_of_written hwritten) he
    exact ⟨by simp [Disk.format, update_of_ne, hn'], by simp [update_of_ne hb]⟩
  · exact ⟨by simp, by simp [Disk.format]⟩

/-- The head goes to a cell that the device does not look at yet. -/
theorem offer (hi : s.pc i = .offer c x) :
    Sound ({ s with
      disk := { s.disk with
        availRing := update s.disk.availRing (s.disk.availIdx.toNat % num) x.i0 } }.goto i
        (.publish c x)) := by
  obtain ⟨q, u, hbooks⟩ := h.books
  obtain ⟨hbusy, hstatus⟩ : Relies s (.offer c x) := hi ▸ h.relies i
  refine h.pass hi rfl rfl (.inr rfl) (.inl rfl) rfl rfl rfl rfl rfl rfl
    (fun j c' x' hj => (h.memory j c' x' hj).same (fun _ _ => rfl) rfl rfl) ?_
    ⟨hbusy, hstatus, by simp⟩
  refine ⟨q, u, hbooks.frame ?_ rfl fun _ _ _ _ _ => ⟨rfl, rfl⟩⟩
  -- the cell is not one of those that the device has yet to take
  have hroom := h.room (x := x) hbooks (by rw [hi]; rfl) (by rw [hi]; rfl)
  have hlen : (s.disk.availIdx - s.dev.next).toNat < num := hbooks.avail_length ▸ hroom
  have hpush := Ring.contents_push num_dvd s.disk.availRing rfl hlen x.i0
  rw [Ring.contents_succ] at hpush
  exact (append_inj hpush (by simp)).1

/-- The request gets its number, and the device may take it. -/
theorem publish (hi : s.pc i = .publish c x) :
    Sound ({ s with
      disk := { s.disk with availIdx := s.disk.availIdx + 1 }
      made := s.made + 1 }.goto i (.wait c x s.made)) := by
  obtain ⟨q, u, hbooks⟩ := h.books
  obtain ⟨hbusy, hstatus, hslot⟩ : Relies s (.publish c x) := hi ▸ h.relies i
  have hticket : (s.pc i).ticket = none := by rw [hi]; rfl
  have hroom := h.room (x := x) hbooks (by rw [hi]; rfl) hticket
  refine h.move hi rfl rfl (.inr rfl) (.inl rfl) rfl rfl ?_ ?_
    ⟨_, _, hbooks.publish hticket hbusy hstatus hslot hroom⟩ trivial
  · rw [view_same Pc.chain (p := .wait c x s.made) hi rfl]
    exact h.pool
  · rw [view_same written (p := .wait c x s.made) hi rfl]
    exact fun j c' x' hj => (h.memory j c' x' hj).same (fun _ _ => rfl) rfl rfl

theorem wait (hi : s.pc i = .wait c x k) :
    Sound (if s.busy c.b then s.yield i (.asleep c x k) else s.goto i (.finish c x k)) := by
  split_ifs with hbusy
  · exact h.pass hi rfl rfl (.inr rfl) (.inr ⟨rfl, rfl⟩) rfl rfl rfl rfl rfl rfl h.memory h.books
      trivial
  · exact h.pass hi rfl rfl (.inr rfl) (.inl rfl) rfl rfl rfl rfl rfl rfl h.memory h.books
      (by simpa [Relies] using hbusy)

/-- The descriptors are given back when the device is done with them. -/
theorem finish (hi : s.pc i = .finish c x k) : Sound (s.finish i c x k) := by
  have hbusy : Relies s (.finish c x k) := hi ▸ h.relies i
  have hticket : (s.pc i).ticket = some (c, x, k) := by rw [hi]; rfl
  have hchain : (s.pc i).chain = x.list := by rw [hi]; rfl
  obtain ⟨q, u, hbooks⟩ := h.books
  have hholds := h.memory i c x (written_of_ticket hticket)
  have hused : ∀ j ∈ x.list, j < num ∧ s.disk.free j = false := fun j hj =>
    h.pool.used i j (by rwa [hchain])
  unfold Sys.finish
  rw [freeChain_spec hholds (hchain ▸ h.pool.nodup i) hused]
  refine h.move hi rfl rfl (.inr rfl) (.inl rfl) rfl rfl
    (h.pool.release hchain) (fun j c' x' hj => ?_) ⟨q, u, (hbooks.drop hticket hbusy).frame rfl rfl
      fun j c' x' k' _ => ⟨?_, rfl⟩⟩ (h.log_of_not_busy hticket hbusy)
  · have he : j ≠ i := by
      rintro rfl
      rw [update_self] at hj
      cases hj
    rw [update_of_ne he] at hj
    have hother : ∀ n ∈ x'.list, n ∉ x.list := fun n hn =>
      h.disjoint hchain (chain_of_written hj) he hn
    refine (h.memory j c' x' hj).same (fun n hn => if_neg (hother n hn)) rfl ?_
    have hn' := hother x'.i0 (by simp)
    simp only [Idx.mem_list, not_or] at hn'
    simp [Disk.forget, update_of_ne hn'.1]
  · by_cases hx : x'.i0 = x.i0
    · simp [Disk.forget, hx]
    · simp [Disk.forget, update_of_ne hx]

/-- The interrupt handler finds the head of a call that waits, and wakes it. -/
theorem take [DecidableEq β] (hi : s.pc i = .take) : Sound (s.take i) := by
  have hne : Relies s .take := hi ▸ h.relies i
  obtain ⟨q, u, hbooks⟩ := h.books
  have hlen := hbooks.used_length
  cases u with
  | nil => exact absurd (Ring.length_eq_zero_iff.mp hlen) hne
  | cons e u =>
    obtain ⟨k, j⟩ := e
    -- the completion is that of a call that waits
    obtain ⟨i', c, x, hi', hx⟩ := hbooks.mine (k, j) (by simp [Device.pending])
    have hid : s.disk.usedRing (s.disk.usedIdx.toNat % num) = x.i0 := by
      have hused := hbooks.used
      rw [hlen, length_cons, Ring.contents_pop num_dvd, map_cons] at hused
      exact (List.cons.inj hused).1.trans hx.symm
    have hstatus : (s.disk.info x.i0).status = 0 := by
      refine (hbooks.performed i' c x k hi' fun hmem => ?_).1
      have hcount := nodup_iff_count_le_one.mp hbooks.nodup (k, x.i0)
      have hpos := count_pos_iff.mpr hmem
      subst hx
      simp only [Device.pending, count_append, count_cons_self] at hcount hpos
      omega
    have hb := (h.memory i' c x (written_of_ticket hi')).b
    have htake : s.take i = { s with
        busy := update s.busy c.b false
        disk := { s.disk with usedIdx := s.disk.usedIdx + 1 } }.goto i .check := by
      simp [Sys.take, hid, hstatus, hb]
    rw [htake]
    refine h.pass hi rfl rfl (.inl rfl) (.inl rfl) rfl rfl rfl rfl rfl rfl
      (fun j c' x' hj => (h.memory j c' x' hj).same (fun _ _ => rfl) rfl rfl)
      ⟨q, u, hbooks.take hi' hx fun j c' x' k' hj heq => ?_⟩ trivial
    by_contra hji
    exact h.buf_ne (buf_of_written (written_of_ticket hi'))
      (buf_of_written (written_of_ticket hj)) hji heq

/-! ### Steps without the lock -/

omit h in
theorem view_apply {γ : Type*} (f : Pc β → γ) {pc : ι → Pc β} (hi : pc i = o) (hp : f p = f o)
    (j : ι) : f (update pc i p j) = f (pc j) :=
  congrFun ((view_update f pc i p).trans (view_same f hi hp)) j

/-- A step of a thread without the lock, or its taking of the lock. -/
theorem enter (hi : s.pc i = o) {v : Option ι}
    (hv : v = s.vdiskLock ∧ p.holds = false ∨ s.vdiskLock = none ∧ v = some i)
    (hbuf : ∀ b, p.buf = some b → s.bufLock b = some i) (hchain : p.chain = o.chain)
    (hwritten : p.written = o.written) (hticket : p.ticket = o.ticket) (hrelies : Relies s p) :
    Sound { s with pc := update s.pc i p, vdiskLock := v } := by
  refine h.around ⟨fun j hj => ?_, fun j b hj => ?_⟩ (view_apply Pc.chain hi hchain)
    (view_apply written hi hwritten) (view_apply ticket hi hticket) fun j => ?_
  · by_cases he : j = i
    · subst he
      rw [update_self] at hj
      rcases hv with ⟨-, hp⟩ | ⟨-, hv⟩
      · rw [hp] at hj
        cases hj
      · exact hv
    · rw [update_of_ne he] at hj
      have hlock := h.locks.vdisk j hj
      rcases hv with ⟨hv, -⟩ | ⟨hnone, -⟩
      · exact hv.trans hlock
      · rw [hnone] at hlock
        cases hlock
  · by_cases he : j = i
    · subst he
      rw [update_self] at hj
      exact hbuf b hj
    · rw [update_of_ne he] at hj
      exact h.locks.buf j b hj
  · by_cases he : j = i
    · subst he
      rwa [update_self]
    · rw [update_of_ne he]
      exact h.relies j

theorem acquire (hnone : s.vdiskLock = none) (hp : (s.pc i).locked = some p) :
    Sound ({ s with vdiskLock := some i }.goto i p) := by
  have hbuf := h.locks.buf i
  refine h.enter rfl (.inr ⟨hnone, rfl⟩) (fun b hb => hbuf b ?_) ?_ ?_ ?_ ?_ <;>
    revert hp <;> cases s.pc i <;> intro hp <;> cases hp <;>
      first | exact hb | rfl | trivial

variable [DecidableEq β]

theorem advance (hi : s.pc i = p) (hs : s.advance i p = some s') : Sound s' := by
  cases p with
  | alloc c =>
    cases hs
    exact h.alloc hi
  | format c x =>
    cases hs
    exact h.format hi
  | offer c x =>
    cases hs
    exact h.offer hi
  | publish c x =>
    cases hs
    exact h.publish hi
  | wait c x k =>
    cases hs
    exact h.wait hi
  | finish c x k =>
    cases hs
    exact h.finish hi
  | ret c k | intrRet =>
    cases hs
    exact h.pass hi rfl rfl (.inl rfl) (.inr ⟨rfl, rfl⟩) rfl rfl rfl rfl rfl rfl h.memory h.books
      trivial
  | check =>
    cases hs
    split_ifs with hne
    · exact h.pass hi rfl rfl (.inl rfl) (.inl rfl) rfl rfl rfl rfl rfl rfl h.memory h.books hne
    · exact h.pass hi rfl rfl (.inl rfl) (.inl rfl) rfl rfl rfl rfl rfl rfl h.memory h.books trivial
  | take =>
    cases hs
    exact h.take hi
  | idle | start c | noDesc c | asleep c x k | intr => cases hs

/-- **Every step** keeps the invariant. -/
theorem step {a : Act ι β} (hs : s.step a = some s') : Sound s' := by
  cases a with
  | acquireBuf i b =>
    rw [Sys.step, ite_none_right_eq_some] at hs
    obtain ⟨⟨hi, hnone⟩, hs⟩ := hs
    cases hs
    refine h.around ⟨h.locks.vdisk, fun j b' hj => ?_⟩ (fun _ => rfl) (fun _ => rfl)
      (fun _ => rfl) h.relies
    have hlock := h.locks.buf j b' hj
    rw [update_of_ne]
    · exact hlock
    · rintro rfl
      rw [hnone] at hlock
      cases hlock
  | releaseBuf i b =>
    rw [Sys.step, ite_none_right_eq_some] at hs
    obtain ⟨⟨hi, hmine⟩, hs⟩ := hs
    cases hs
    refine h.around ⟨h.locks.vdisk, fun j b' hj => ?_⟩ (fun _ => rfl) (fun _ => rfl)
      (fun _ => rfl) h.relies
    have hlock := h.locks.buf j b' hj
    rw [update_of_ne]
    · exact hlock
    · -- its holder is not in the driver
      rintro rfl
      rw [hmine] at hlock
      cases hlock
      rw [hi] at hj
      cases hj
  | call i c =>
    rw [Sys.step, ite_none_right_eq_some] at hs
    obtain ⟨⟨hi, hmine⟩, hs⟩ := hs
    cases hs
    refine h.enter hi (.inl ⟨rfl, rfl⟩) (fun b hb => ?_) rfl rfl rfl trivial
    cases hb
    exact hmine
  | intr i =>
    rw [Sys.step, ite_none_right_eq_some] at hs
    obtain ⟨hi, hs⟩ := hs
    cases hs
    exact h.enter hi (.inl ⟨rfl, rfl⟩) (by simp [Pc.buf]) rfl rfl rfl trivial
  | acquire i =>
    rw [Sys.step, ite_none_right_eq_some] at hs
    obtain ⟨hnone, hs⟩ := hs
    obtain ⟨p, hp, rfl⟩ := map_eq_some_iff.mp hs
    exact h.acquire hnone hp
  | next i => exact h.advance rfl hs
  | fetch =>
    rw [Sys.step, ite_none_right_eq_some] at hs
    cases hs.2
    exact h.fetch hs.1
  | perform e =>
    rw [Sys.step, ite_none_right_eq_some] at hs
    cases hs.2
    exact h.perform hs.1
  | complete e =>
    rw [Sys.step, ite_none_right_eq_some] at hs
    cases hs.2
    exact h.complete hs.1

end Sound

variable [DecidableEq ι] [DecidableEq β]

/-- **Every reachable state** is sound. -/
theorem sound {s : Sys ι β} (h : (virtio ι β).Reachable s) : Sound s :=
  h.invariant (fun s hs => by cases hs; exact .boot) fun _ _ _ hs hstep => hs.step hstep

/-- **Completions match requests.** In every reachable state: a descriptor is free, or belongs to
exactly one call; the descriptors, the header and the buffer of a call that has written its request
are as it wrote them, and its status byte says whether the device has performed it; `alloc3_desc`
leaves the free descriptors as they were if it fails; nothing has panicked; no two requests have the
same number; and a call that is about to return has had its own transfer performed, exactly once. -/
theorem completions_match {s : Sys ι β} (h : (virtio ι β).Reachable s) :
    (∀ j < num, (s.disk.free j = true ∧ ∀ i, j ∉ (s.pc i).chain) ∨
      (s.disk.free j = false ∧ ∃! i, j ∈ (s.pc i).chain)) ∧
    (∀ i c x, (s.pc i).written = some (c, x) → x.list.Nodup ∧ s.disk.Holds c x) ∧
    (∀ i c x k, (s.pc i).ticket = some (c, x, k) →
      (s.disk.info x.i0).status = if k ∈ s.dev.log.map Prod.fst then 0 else 0xff) ∧
    (∃ r d, alloc3Desc s.disk = .ok (r, d) ∧ (r = none → d.free = s.disk.free)) ∧
    s.panic = none ∧
    (∀ i c x k, (s.pc i).ticket = some (c, x, k) → k < s.made ∧
      ∀ i' c' x', (s.pc i').ticket = some (c', x', k) → i' = i) ∧
    (∀ i c k, s.pc i = .ret c k → (k, some c.transfer) ∈ s.dev.log ∧
      (s.dev.log.map Prod.fst).count k = 1) := by
  have hs := sound h
  obtain ⟨q, u, hbooks⟩ := hs.books
  refine ⟨fun j hj => ?_, fun i c x hi => ⟨?_, hs.memory i c x hi⟩, fun i c x k hi => ?_, ?_,
    hs.panic, fun i c x k hi => ⟨hbooks.lt i c x k hi, fun i' c' x' hi' => ?_⟩,
    fun i c k hi => ?_⟩
  · cases hfree : s.disk.free j with
    | true =>
      refine .inl ⟨rfl, fun i hi => ?_⟩
      have hused := (hs.pool.used i j hi).2
      rw [hfree] at hused
      cases hused
    | false =>
      obtain ⟨i, hi⟩ := hs.pool.owned j hj hfree
      exact .inr ⟨rfl, i, hi, fun i' hi' => hs.pool.one i' i j hi' hi⟩
  · rw [← chain_of_written hi]
    exact hs.pool.nodup i
  · by_cases hmem : (k, x.i0) ∈ q ++ s.dev.todo
    · rw [hbooks.todo i c x k hi hmem, if_neg]
      intro hlog
      obtain ⟨e, he, rfl⟩ := List.mem_map.mp hlog
      obtain ⟨hlt, hnot⟩ := hbooks.logged e he
      rcases mem_append.mp hmem with hq | htodo
      · -- what is still on the ring has not been taken
        have hnumber : e.1 ∈ q.map Prod.fst := List.mem_map.mpr ⟨_, hq, rfl⟩
        rw [hbooks.numbers, mem_range'_1] at hnumber
        omega
      · exact hnot _ htodo
    · obtain ⟨hstatus, hlog⟩ := hbooks.performed i c x k hi hmem
      rw [hstatus, if_pos (List.mem_map.mpr ⟨_, hlog, rfl⟩)]
  · obtain ⟨r, hr, hspec⟩ := alloc3Desc_spec s.disk
    cases hspec with
    | fail desc hdesc => exact ⟨_, _, hr, fun _ => rfl⟩
    | ok x hx hfree => exact ⟨_, _, hr, nofun⟩
  · exact hbooks.one i' i c' c x' x k hi' hi
  · have hlog : Relies s (.ret c k) := hi ▸ hs.relies i
    exact ⟨hlog, count_eq_one_of_mem hbooks.once (List.mem_map.mpr ⟨_, hlog, rfl⟩)⟩

/-- A thread writes a block: its call up to the request, the device's work, the interrupt, and the
rest of the call. -/
def oneWrite : List (Act (Fin 2) (Fin 1)) :=
  [.acquireBuf 0 0, .call 0 ⟨0, 7, true⟩, .acquire 0, .next 0, .next 0, .next 0, .next 0, .next 0,
    .fetch, .perform (0, 0), .complete (0, 0), .intr 1, .acquire 1, .next 1, .next 1, .next 1,
    .next 1, .acquire 0, .next 0, .next 0]

theorem completions_match_oneWrite :
    ∃ s, LTS.runAll Sys.step .boot oneWrite = some s ∧ s.pc 0 = .ret ⟨0, 7, true⟩ 0 ∧
      (0, some ⟨true, 14, 0⟩) ∈ s.dev.log ∧ (s.dev.log.map Prod.fst).count 0 = 1 := by
  obtain ⟨s, hrun, hpc⟩ : ∃ s, LTS.runAll Sys.step (.boot : Sys (Fin 2) (Fin 1)) oneWrite = some s ∧
      s.pc 0 = .ret ⟨0, 7, true⟩ 0 := by
    refine map_eq_some_iff.mp ?_
    decide +kernel
  have hreach : (virtio (Fin 2) (Fin 1)).Reachable s :=
    LTS.Reachable.runAll (f := Sys.step) (fun _ _ _ h => h) (.init rfl) hrun
  obtain ⟨-, -, -, -, -, -, hret⟩ := completions_match hreach
  exact ⟨s, hrun, hpc, hret 0 _ 0 hpc⟩

end Xv6.Virtio
