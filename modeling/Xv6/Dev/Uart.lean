import Xv6.Lib.Monitor
import Xv6.Lib.Ring

/-!
# Output on the serial line

`uartputc`, `uartstart` and `uartintr` of `kernel/uart.c`. Processes put bytes into a ring of 32
cells under `uart_tx_lock` and sleep while it is full; whoever holds the lock moves bytes from the
ring to the transmit register while the device is ready, and the device interrupts when it is ready
again. `uartputc_sync` writes to the register without the lock, and may come between the test of
`uartstart` and its write. A panicked kernel is left out.
-/

namespace Xv6.Uart

abbrev bufSize : ℕ := 32

/-- The ring, the device, and what is not in the source: the bytes that `uartputc` has taken, those
that `uartstart` has written, whether one of them came when the register was not ready, and whether
`uartputc_sync` has written. -/
structure Tx where
  buf : ℕ → UInt8
  w : BitVec 64
  r : BitVec 64
  ready : Bool
  taken : List UInt8
  sent : List UInt8
  early : Bool
  sync : Bool

/-- The points of the functions, with the lock. -/
inductive Point
  /-- the test of the loop in `uartputc` -/
  | put (c : UInt8)
  /-- a round of `uartstart` -/
  | start
  | wake (c : UInt8)
  | write (c : UInt8)

/-- `uartputc` of any byte; and `uartstart`, as `uartintr` calls it. -/
def monitor (ι : Type) : Monitor ι Tx Point Unit Unit where
  enter _ x := (∃ c, x = .put c) ∨ x = .start
  next _ d
    | .put c =>
      if d.w = d.r + .ofNat 64 bufSize then .sleep () (.put c)
      else .go { d with
        buf := Function.update d.buf (d.w.toNat % bufSize) c, w := d.w + 1,
        taken := d.taken ++ [c] } .start
    | .start =>
      if d.w = d.r then .leave ()
      else if d.ready = false then .leave ()
      else .go { d with r := d.r + 1 } (.wake (d.buf (d.r.toNat % bufSize)))
    | .wake c => .wakeup () (.write c)
    | .write c => .go { d with
        ready := false, sent := d.sent ++ [c], early := d.early || !d.ready } .start
  env d d' := d' = { d with ready := true } ∨ d' = { d with ready := false, sync := true }

/-- The bytes `out` are in order between the ring and the register. -/
structure Kept (d : Tx) (out : List UInt8) : Prop where
  le : (d.w - d.r).toNat ≤ bufSize
  order : d.taken = d.sent ++ out ++ Ring.contents bufSize d.buf d.r (d.w - d.r).toNat
  early : d.early = true → d.sync = true

def Known (d : Tx) : Point → Prop
  | .put _ | .start => Kept d []
  | .wake c | .write c =>
    Kept d [c] ∧ (d.ready = false → d.sync = true) ∧ (d.w - d.r).toNat < bufSize

variable {ι : Type} {d : Tx} {c : UInt8}

theorem Kept.put (h : Kept d []) (hroom : d.w ≠ d.r + .ofNat 64 bufSize) :
    Kept { d with
      buf := Function.update d.buf (d.w.toNat % bufSize) c, w := d.w + 1,
      taken := d.taken ++ [c] } [] := by
  have hlt : (d.w - d.r).toNat < bufSize :=
    lt_of_le_of_ne h.le (mt (Ring.length_eq_iff (by decide)).mp hroom)
  have hlen : (d.w + 1 - d.r).toNat = (d.w - d.r).toNat + 1 :=
    Ring.length_push (Nat.lt_trans (Nat.succ_lt_succ hlt) (by decide))
  refine ⟨hlen.trans_le hlt, ?_, h.early⟩
  dsimp only
  rw [hlen, Ring.contents_push (by decide) d.buf rfl hlt, h.order, List.append_assoc]

theorem Kept.start (h : Kept d []) (hne : d.w ≠ d.r) :
    Kept { d with r := d.r + 1 } [d.buf (d.r.toNat % bufSize)] ∧
      (d.w - (d.r + 1)).toNat < bufSize := by
  have hpos : 0 < (d.w - d.r).toNat :=
    Nat.pos_of_ne_zero fun h0 => hne (Ring.length_eq_zero_iff.mp h0).symm
  have hlen := Ring.length_pop hpos
  have hle := h.le
  refine ⟨⟨by dsimp only; omega, ?_, h.early⟩, by omega⟩
  rw [h.order, ← hlen, Ring.contents_pop (by decide)]
  simp

theorem sound : (monitor ι).Sound (Kept · []) Known (fun d _ => d.w = d.r + .ofNat 64 bufSize)
    fun x _ => ∃ c, x = .wake c where
  enter h d hd := by
    rcases h with ⟨c, rfl⟩ | rfl <;> exact hd
  go {p d d' x x'} h hk := by
    cases x with
    | put c =>
      simp only [monitor] at h
      split_ifs at h with hfull
      cases h
      exact ⟨Kept.put hk hfull, by grind⟩
    | start =>
      simp only [monitor] at h
      split_ifs at h with hempty hready
      cases h
      -- the ring has room again, and the wakeup for it is still owed
      obtain ⟨hkept, hlt⟩ := Kept.start hk hempty
      exact ⟨⟨hkept, fun h => absurd h hready, hlt⟩, fun _ _ => .inr ⟨_, rfl⟩⟩
    | wake c => cases h
    | write c =>
      cases h
      obtain ⟨hkept, hready, -⟩ := hk
      refine ⟨⟨hkept.le, ?_, ?_⟩, by grind⟩
      · rw [hkept.order, List.append_nil]
      · have hearly := hkept.early
        grind
  wakeup {p d x x' c} h hk := by
    cases x <;> grind [monitor, Known]
  sleep {p d x x' c} h hk := by
    cases x <;> grind [monitor, Known]
  leave {p d x y} h hk := by
    cases x <;> grind [monitor, Known]
  env h := by
    rcases h with rfl | rfl <;>
      exact ⟨fun h => ⟨h.le, h.order, by grind [Kept]⟩,
        fun x hx => by cases x <;> grind [Known, Kept], fun _ => id⟩

def system (ι : Type) [DecidableEq ι] : LTS (Monitor.State ι Tx Point Unit Unit) (Option ι) :=
  (monitor ι).system (fun d => d.w = 0 ∧ d.r = 0 ∧ d.taken = [] ∧ d.sent = [] ∧ d.early = false) ()

/-- **The serial line.** In every interleaving of writers and interrupts, the bytes go out in the
order in which they were taken, none of them early unless `uartputc_sync` has written, and what has
been taken and not sent is in the ring while the lock is free. Then a writer sleeps only while the
ring is full. -/
theorem uart_output [DecidableEq ι] {s : Monitor.State ι Tx Point Unit Unit}
    (hs : (system ι).Reachable s) :
    (s.data.sync = false → s.data.early = false) ∧ s.data.sent <+: s.data.taken ∧ (s.lock = none →
      s.data.taken = s.data.sent ++
        Ring.contents bufSize s.data.buf s.data.r (s.data.w - s.data.r).toNat ∧
      ∀ p, s.chan p ≠ none → (s.data.w - s.data.r).toNat = bufSize) := by
  have hinv := sound.inv (fun d hd => ?_) hs
  · obtain ⟨out, hkept⟩ : ∃ out, Kept s.data out := by
      cases hlock : s.lock with
      | none => exact ⟨[], hinv.free hlock⟩
      | some p =>
        obtain ⟨x, -, hx⟩ := hinv.holder p hlock
        cases x with
        | put | start => exact ⟨[], hx⟩
        | wake c | write c => exact ⟨[c], hx.1⟩
    refine ⟨by grind [hkept.early], ?_, fun hlock => ⟨?_, fun p hp => ?_⟩⟩
    · rw [hkept.order, List.append_assoc]
      exact List.prefix_append ..
    · simpa using (hinv.free hlock).order
    · obtain ⟨c, hc⟩ := Option.ne_none_iff_exists'.mp hp
      exact (Ring.length_eq_iff (by decide)).mpr (hinv.idle hlock hc)
  · obtain ⟨hw, hr, htaken, hsent, hearly⟩ := hd
    refine ⟨?_, ?_, ?_⟩ <;> simp [hw, hr, htaken, hsent, hearly]

/-- Two processes write; the first byte has been sent, the device is not ready for the second. -/
theorem uart_output_twoBytes : ∃ s, (system Bool).Reachable s ∧ s.lock = none ∧
    s.data.taken = [65, 66] ∧ s.data.sent = [65] ∧ s.data.early = false ∧
    [65, 66] = [65] ++ Ring.contents bufSize s.data.buf s.data.r (s.data.w - s.data.r).toNat := by
  let s0 : Monitor.State Bool Tx Point Unit Unit :=
    ⟨⟨fun _ => 0, 0, 0, true, [], [], false, false⟩, none, fun _ => .inl (), fun _ => none⟩
  have h0 : (system Bool).Reachable s0 :=
    .init ⟨⟨rfl, rfl, rfl, rfl, rfl⟩, rfl, fun _ => ⟨rfl, rfl⟩⟩
  have h1 := (h0.step (.enter (p := true) rfl (.inl ⟨65, rfl⟩))).step
    (.acquire (p := true) rfl rfl rfl)
  have h2 := (h1.step (.go (p := true) rfl rfl rfl)).step (.go (p := true) rfl rfl rfl)
  have h3 := (h2.step (.wakeup (p := true) rfl rfl rfl)).step (.go (p := true) rfl rfl rfl)
  have h4 := (h3.step (.leave (p := true) rfl rfl rfl)).step
    (.enter (p := false) rfl (.inl ⟨66, rfl⟩))
  have h5 := (h4.step (.acquire (p := false) rfl rfl rfl)).step (.go (p := false) rfl rfl rfl)
  have h6 := h5.step (.leave (p := false) rfl rfl rfl)
  obtain ⟨hearly, -, hring⟩ := uart_output h6
  exact ⟨_, h6, rfl, rfl, rfl, hearly rfl, (hring rfl).1⟩

end Xv6.Uart
