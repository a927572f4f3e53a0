import Xv6.Fs.Quota

/-!
# Writes that stop early

A block of the buffer cache that differs from the disk and is not logged is lost when its buffer is
recycled. `writei` copies from the user straight into the cached block, and when the copy fails it
leaves without `log_write`, although some bytes may have arrived. A block that `bmap` has just
allocated was logged when it was zeroed, and the bytes lie beyond the end of the file. If the block
was there before, they are in the file, and nobody has logged them.
-/

namespace Xv6.Fs

open Function

/-- The free map and the inode `i` are on disk before the data. -/
structure Areas.Before (A : Areas) (sb : Superblock) (i : ℕ) : Prop where
  bmap : ∀ b < sb.size, A.bblock b < sb.size - sb.nblocks
  inode : A.iblock i < sb.size - sb.nblocks

/-- A byte that the source has beyond the `tot` that are reported, and that the file does not have
at this offset. -/
structure Source.Extra (src : Source) (s : FsState) (i off n tot x : ℕ) : Prop where
  ge : tot ≤ x
  lt : x < n
  has : ∀ f, src.fault = some f → x < f
  ne : src.byte x ≠ s.raw i (off + x)

namespace Tx

/-- The cached blocks that differ from what is on disk, `d`, have been logged. -/
structure Logged (A : Areas) (d : FsState) (t : State) : Prop where
  bitmap : ∀ b, t.1.bitmap b ≠ d.bitmap b → A.bblock b ∈ t.2
  dinode : ∀ j, t.1.dinode j ≠ d.dinode j → A.iblock j ∈ t.2
  data : ∀ b, t.1.data b ≠ d.data b → b ∈ t.2

/-- Besides, what had been logged in `t0` still is, and so are the blocks allocated since. -/
structure LoggedSince (A : Areas) (d : FsState) (t0 t : State) : Prop extends Logged A d t where
  more : t0.2 ⊆ t.2
  fresh : ∀ b, t0.1.bitmap b = false → t.1.bitmap b = true → b ∈ t.2

variable {A : Areas} {sb : Superblock} {i : ℕ} {src : Source} {d : FsState} {t t0 t1 t2 : State}

theorem Logged.since (h : Logged A d t) : LoggedSince A d t t :=
  ⟨h, List.Subset.refl _, fun _ h0 h1 => by cases h0.symm.trans h1⟩

/-- A step keeps this if it logs what it changes. -/
theorem LoggedSince.step {s : FsState} {l : List ℕ} (h : LoggedSince A d t0 t) (hl : t.2 ⊆ l)
    (hbit : ∀ b, s.bitmap b ≠ t.1.bitmap b → A.bblock b ∈ l ∧ b ∈ l)
    (hino : ∀ j, s.dinode j ≠ t.1.dinode j → A.iblock j ∈ l)
    (hdata : ∀ b, s.data b ≠ t.1.data b → b ∈ l) : LoggedSince A d t0 (s, l) := by
  refine ⟨⟨fun b hb => ?_, fun j hj => ?_, fun b hb => ?_⟩, List.Subset.trans h.more hl,
    fun b h0 h1 => ?_⟩
  · by_cases heq : s.bitmap b = t.1.bitmap b
    · exact hl (h.bitmap b (heq ▸ hb))
    · exact (hbit b heq).1
  · by_cases heq : s.dinode j = t.1.dinode j
    · exact hl (h.dinode j (heq ▸ hj))
    · exact hino j heq
  · by_cases heq : s.data b = t.1.data b
    · exact hl (h.data b (heq ▸ hb))
    · exact hdata b heq
  · by_cases heq : s.bitmap b = t.1.bitmap b
    · exact hl (h.fresh b h0 (heq ▸ h1))
    · exact (hbit b heq).2

/-- The program logs the blocks that it changes. -/
def Logs {α : Type} (A : Areas) (d : FsState) (t0 : State) (x : M α) : Prop :=
  ∀ t, LoggedSince A d t0 t → Runs x t (fun _ => True) fun _ t' => LoggedSince A d t0 t'

namespace Logs

variable {α β : Type}

protected theorem pure (a : α) : Logs A d t0 (pure a) := fun _ ht => ht

protected theorem bind {x : M α} {f : α → M β} (hx : Logs A d t0 x) (hf : ∀ a, Logs A d t0 (f a)) :
    Logs A d t0 (x >>= f) := fun t ht => (hx t ht).bind fun a t' ht' => hf a t' ht'

protected theorem ite {c : Prop} [Decidable c] {x y : M α} (hx : c → Logs A d t0 x)
    (hy : ¬ c → Logs A d t0 y) : Logs A d t0 (if c then x else y) := by
  split_ifs with hc
  · exact hx hc
  · exact hy hc

theorem of_table {x : FsM α} (hx : ∀ s, Runs x s (fun _ => True) fun _ s' =>
    s'.bitmap = s.bitmap ∧ s'.dinode = s.dinode ∧ s'.data = s.data) : Logs A d t0 (widen x) := by
  intro t ht
  refine (hx t.1).of_widen.mono ?_
  rintro a ⟨s, l⟩ ⟨⟨h1, h2, h3⟩, rfl⟩
  exact ht.step (List.Subset.refl _) (fun b hb => absurd (congrFun h1 b) hb)
    (fun j hj => absurd (congrFun h2 j) hj) fun b hb => absurd (congrFun h3 b) hb

theorem get : Logs A d t0 (widen get) := of_table fun _ => ⟨rfl, rfl, rfl⟩

theorem fields_same (j : ℕ) (s : FsState) :
    Runs (Fs.fields j) s (fun _ => True) fun _ s' => s' = s := by
  unfold Fs.fields
  rw [Runs.get_bind]
  cases s.itable j with
  | none => trivial
  | some e => exact rfl

theorem fields (j : ℕ) : Logs A d t0 (widen (fields j)) :=
  of_table fun s => (fields_same j s).mono fun _ _ h => h ▸ ⟨rfl, rfl, rfl⟩

theorem assign (j : ℕ) (f : Dinode → Dinode) : Logs A d t0 (widen (assign j f)) :=
  of_table fun _ => ⟨rfl, rfl, rfl⟩

theorem eq_of_update_ne {γ : Type} {f : ℕ → γ} {a b : ℕ} {v : γ} (h : update f a v b ≠ f b) :
    b = a := by
  by_contra hne
  exact h (update_of_ne hne v f)

theorem setData (b : ℕ) (x : Block) (ht : LoggedSince A d t0 t) :
    LoggedSince A d t0 (t.1.setData b x, b :: t.2) := by
  refine ht.step (List.subset_cons_self _ _) (fun _ hc => absurd rfl hc) (fun _ hj => absurd rfl hj)
    fun c hc => ?_
  rw [eq_of_update_ne hc]
  exact List.mem_cons_self

theorem balloc : Logs A d t0 (balloc A sb) := by
  refine get.bind fun s => ?_
  cases (List.range sb.size).find? fun b => !s.bitmap b with
  | none => exact .pure 0
  | some b =>
    intro t ht
    change LoggedSince A d t0 ((t.1.setBit b true).setData b fun _ => 0, b :: A.bblock b :: t.2)
    refine ht.step (fun c hc => by simp [hc]) (fun c hc => ?_) (fun _ hj => absurd rfl hj)
      fun c hc => ?_
    · rw [eq_of_update_ne hc]
      simp
    · rw [eq_of_update_ne hc]
      simp

theorem loadAddr (j k : ℕ) : Logs A d t0 (loadAddr A sb j k) := by
  refine (fields j).bind fun ip => .ite (fun _ => .pure _) fun _ => ?_
  refine balloc.bind fun addr => .ite (fun _ => .pure 0) fun _ => ?_
  exact (assign j _).bind fun _ => .pure addr

theorem bmap (j bn : ℕ) : Logs A d t0 (bmap A sb j bn) := by
  refine .ite (fun _ => loadAddr j bn) fun _ => .ite (fun _ => ?_) fun _ => fun _ _ => trivial
  refine (loadAddr j ndirect).bind fun ind => .ite (fun _ => .pure 0) fun _ => ?_
  refine get.bind fun s => .ite (fun _ => .pure _) fun _ => ?_
  refine balloc.bind fun addr => .ite (fun _ => .pure 0) fun _ => ?_
  exact fun t ht => setData ind _ ht

end Logs

/-! ### One round of the loop -/

/-- The blocks of the file from the `bn`th on have not been logged since `t0`. -/
def Untouched (i bn : ℕ) (t0 t : State) : Prop :=
  ∀ m ≥ bn, t0.1.own (i, placeOf m) ≠ 0 → t0.1.own (i, placeOf m) ∈ t.2 →
    t0.1.own (i, placeOf m) ∈ t0.2

variable {e : Entry} {off n tot : ℕ} {byte : ℕ → UInt8} {E : Panic → Prop}

/-- How the log stands when the loop ends after `tot` bytes: all is logged; or there is a byte more
than that in a block that was there before and that is not logged. -/
def Ends (A : Areas) (d : FsState) (src : Source) (t : State) (i off n tot : ℕ) (t' : State) :
    Prop :=
  LoggedSince A d t t' ∧ (∀ x, src.Extra t.1 i off n tot x →
      t.1.own (i, placeOf ((off + tot) / bsize)) = 0 ∨
        t.1.own (i, placeOf ((off + tot) / bsize)) ∈ t.2) ∨
    (∃ x, src.Extra t.1 i off n tot x) ∧ ∃ b, b ≠ 0 ∧ b ∉ t.2 ∧
      t.1.own (i, placeOf ((off + tot) / bsize)) = b ∧ b ∉ t'.2 ∧ t'.1.data b ≠ d.data b

/-- The end of `writei` changes and logs the inode only. -/
theorem Ends.finish {t' : State} {ip : Dinode} (hA : A.Before sb i) (hsep : Sep sb t.1)
    (h : Ends A d src t i off n tot t1) (hbit : t'.1.bitmap = t1.1.bitmap)
    (hino : t'.1.dinode = update t1.1.dinode i ip) (hdata : t'.1.data = t1.1.data)
    (hl : t'.2 = A.iblock i :: t1.2) : Ends A d src t i off n tot t' := by
  rcases h with ⟨hlog, hno⟩ | ⟨hx, b, hb0, hb, hown, hb1, hne⟩
  · have hmem : A.iblock i ∈ t'.2 := hl ▸ List.mem_cons_self
    refine .inl ⟨hlog.step (hl ▸ List.subset_cons_self _ _) (fun b hb => ?_) (fun j hj => ?_)
      fun b hb => ?_, hno⟩
    · exact absurd (congrFun hbit b) hb
    · rw [hino] at hj
      rwa [Logs.eq_of_update_ne hj]
    · exact absurd (congrFun hdata b) hb
  · refine .inr ⟨hx, b, hb0, hb, hown, ?_, hdata ▸ hne⟩
    rw [hl, List.mem_cons, not_or]
    refine ⟨fun heq => ?_, hb1⟩
    have harea := (hsep.owned.area (i, placeOf ((off + tot) / bsize)) (hown ▸ hb0)).1.1
    rw [hown, heq] at harea
    exact not_le.mpr hA.inode harea

end Tx

end Xv6.Fs
