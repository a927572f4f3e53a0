import Xv6.Fs.Tx
import Xv6.Log.Group

/-!
# How many blocks one write logs

An operation may log `MAXOPBLOCKS` blocks. `filewrite` cuts a write into pieces that stay within
that number: an inode, an indirect block, and for every block of the file the block itself and a
block of the free map.

The count is kept as a set `D` of blocks that the operation may have logged, apart from the
indirect block and its block of the free map, which are logged once. A block that has to be
allocated costs two, a block that is there costs one. A piece of three blocks that does not begin
where a block begins touches four; then the first is there already, since the file has no hole.
-/

namespace Xv6.Fs.Tx

open Function Finset

/-- `max` in `filewrite`: the bytes that it writes in one operation. -/
def chunk : ℕ := (Log.maxOpBlocks - 1 - 1 - 2) / 2 * bsize

/-- The indirect block of an inode and the block of the free map that it is marked in. -/
def indirect (A : Areas) (ip : Dinode) : Finset ℕ :=
  if ip.addrs ndirect = 0 then ∅ else {ip.addrs ndirect, A.bblock (ip.addrs ndirect)}

/-- The blocks logged so far are among `D` and those of the indirect block of the inode `i`, which
is in memory. -/
def Spent (A : Areas) (i : ℕ) (D : Finset ℕ) (t : State) : Prop :=
  ∃ e, t.1.itable i = some e ∧ t.2.toFinset ⊆ D ∪ indirect A e.ino

variable {A : Areas} {sb : Superblock} {i : ℕ} {src : Source} {t : State} {E : Panic → Prop}
  {D : Finset ℕ}

theorem indirect_card_le (A : Areas) (ip : Dinode) : (indirect A ip).card ≤ 2 := by
  unfold indirect
  split_ifs
  · exact Nat.zero_le 2
  · exact card_le_two

theorem indirect_congr {ip ip' : Dinode} (h : ip'.addrs ndirect = ip.addrs ndirect) :
    indirect A ip' = indirect A ip := by
  rw [indirect, indirect, h]

namespace Spent

theorem mono {D' : Finset ℕ} (h : Spent A i D t) (hD : D ⊆ D') : Spent A i D' t := by
  obtain ⟨e, he, hl⟩ := h
  exact ⟨e, he, hl.trans (union_subset_union_left hD)⟩

theorem of_itable {s' : FsState} (h : Spent A i D t) (hs : s'.itable = t.1.itable) :
    Spent A i D (s', t.2) := by
  obtain ⟨e, he, hl⟩ := h
  exact ⟨e, (congrFun hs i).trans he, hl⟩

theorem log {b : ℕ} (h : Spent A i D t) (hb : b ∈ D) : Spent A i D (t.1, b :: t.2) := by
  obtain ⟨e, he, hl⟩ := h
  refine ⟨e, he, ?_⟩
  rw [List.toFinset_cons]
  exact insert_subset (mem_union_left _ hb) hl

theorem card_le (h : Spent A i D t) : t.2.toFinset.card ≤ D.card + 2 := by
  obtain ⟨e, -, hl⟩ := h
  calc t.2.toFinset.card ≤ (D ∪ indirect A e.ino).card := card_le_card hl
    _ ≤ D.card + (indirect A e.ino).card := card_union_le _ _
    _ ≤ D.card + 2 := Nat.add_le_add_left (indirect_card_le A e.ino) _

end Spent

/-! ### The inode in memory -/

theorem fields_entry {e : Entry} (he : t.1.itable i = some e) :
    Runs (widen (fields i)) t E fun ip t' => ip = e.ino ∧ t' = t := by
  have hfields : Runs (fields i) t.1 E fun ip s' => ip = e.ino ∧ s' = t.1 := by
    unfold fields
    rw [Runs.get_bind, he]
    exact ⟨rfl, rfl⟩
  refine hfields.of_widen.mono ?_
  rintro ip ⟨s', l⟩ ⟨⟨rfl, rfl⟩, rfl⟩
  exact ⟨rfl, rfl⟩

theorem assign_entry {e : Entry} (he : t.1.itable i = some e) (f : Dinode → Dinode) :
    Runs (widen (assign i f)) t E fun _ t' =>
      t'.1.itable i = some (e.setIno (f e.ino)) ∧ t'.2 = t.2 := by
  have hassign : Runs (assign i f) t.1 E fun _ s' => s'.itable i = some (e.setIno (f e.ino)) := by
    unfold assign
    rw [Runs.modify_iff, he]
    exact update_self ..
  exact hassign.of_widen

/-! ### New blocks -/

/-- `balloc` logs nothing, or the block that it returns and the block of the free map for it. The
inodes are left alone. -/
theorem balloc_logs : Runs (balloc A sb) t E fun b t' => t'.1.itable = t.1.itable ∧
    (b = 0 ∧ t'.2 = t.2 ∨ t'.2 = b :: A.bblock b :: t.2) := by
  unfold balloc
  rw [Runs.widen_get_bind]
  cases (List.range sb.size).find? fun b => !t.1.bitmap b with
  | none => exact ⟨rfl, Or.inl ⟨rfl, rfl⟩⟩
  | some b => exact ⟨rfl, Or.inr rfl⟩

/-- A block for anything but the indirect block costs two, if there is one. Number 0 is the answer
that there is none, but `balloc` may have taken block 0 to give it. -/
theorem balloc_spent (h : Spent A i D t) : Runs (balloc A sb) t E fun b t' =>
    t'.1.itable = t.1.itable ∧ Spent A i (insert b (insert (A.bblock b) D)) t' := by
  refine balloc_logs.mono ?_
  rintro b ⟨s', l⟩ ⟨hs, hl⟩
  have h' : Spent A i (insert b (insert (A.bblock b) D)) (s', t.2) := by
    refine (h.of_itable hs).mono fun c hc => ?_
    exact mem_insert_of_mem (mem_insert_of_mem hc)
  refine ⟨hs, ?_⟩
  rcases hl with ⟨-, rfl⟩ | rfl
  · exact h'
  · have hmap : A.bblock b ∈ insert b (insert (A.bblock b) D) :=
      mem_insert_of_mem (mem_insert_self _ _)
    exact (h'.log hmap).log (mem_insert_self _ _)

theorem loadAddr_spent {k : ℕ} (hk : k < ndirect) (h : Spent A i D t) :
    Runs (loadAddr A sb i k) t E fun a t' => Spent A i (insert a (insert (A.bblock a) D)) t' := by
  have hmore : ∀ a, D ⊆ insert a (insert (A.bblock a) D) := fun a c hc =>
    mem_insert_of_mem (mem_insert_of_mem hc)
  obtain ⟨e, he, -⟩ := id h
  unfold loadAddr
  refine (fields_entry he).bind ?_
  rintro _ _ ⟨rfl, rfl⟩
  split_ifs with h0
  · exact h.mono (hmore _)
  · refine (balloc_spent h).bind ?_
    rintro b t' ⟨hs, ht'⟩
    split_ifs with hb
    · rw [hb] at ht'
      exact ht'
    · obtain ⟨e', he', hl⟩ := ht'
      refine (assign_entry he' _).bind ?_
      rintro _ ⟨s'', l⟩ ⟨he'', rfl⟩
      -- the entry that is set is not that of the indirect block
      have hsame : indirect A (e'.ino.setAddrs (update e'.ino.addrs k b)) =
          indirect A e'.ino := indirect_congr (update_of_ne (ne_of_gt hk) _ _)
      exact ⟨_, he'', hl.trans (union_subset_union_right hsame.ge)⟩

/-- The indirect block costs nothing here; if there is none, the answer may have cost two. -/
theorem loadIndirect_spent (h : Spent A i D t) : Runs (loadAddr A sb i ndirect) t E fun a t' =>
    (a = 0 → Spent A i (insert 0 (insert (A.bblock 0) D)) t') ∧
      (a ≠ 0 → Spent A i D t' ∧ ∃ e, t'.1.itable i = some e ∧ e.ino.addrs ndirect = a) := by
  obtain ⟨e, he, hl⟩ := id h
  unfold loadAddr
  refine (fields_entry he).bind ?_
  rintro _ _ ⟨rfl, rfl⟩
  split_ifs with h0
  · exact ⟨fun hz => absurd hz h0, fun _ => ⟨h, e, he, rfl⟩⟩
  · rw [not_not] at h0
    refine (balloc_logs.and (balloc_spent (E := E) h)).bind ?_
    rintro b t' ⟨⟨hs, hlog⟩, -, ht'⟩
    split_ifs with hb
    · rw [hb] at ht'
      exact ⟨fun _ => ht', fun hne => absurd rfl hne⟩
    · have he' : t'.1.itable i = some e := (congrFun hs i).trans he
      have haddr : (e.ino.setAddrs (update e.ino.addrs ndirect b)).addrs ndirect = b := by
        simp [Dinode.setAddrs]
      refine (assign_entry he' _).bind ?_
      rintro _ ⟨s'', l⟩ ⟨he'', rfl⟩
      refine ⟨fun hz => absurd hz hb, fun _ => ⟨⟨_, he'', ?_⟩, _, he'', haddr⟩⟩
      rw [indirect, if_pos h0, union_empty] at hl
      rcases hlog with ⟨hz, -⟩ | hlog
      · exact absurd hz hb
      · -- what `balloc` has logged is what is kept apart from now on
        rw [hlog, List.toFinset_cons, List.toFinset_cons, Entry.setIno_ino, indirect, haddr,
          if_neg hb]
        intro c hc
        rcases mem_insert.mp hc with rfl | hc
        · simp
        · rcases mem_insert.mp hc with rfl | hc
          · simp
          · exact mem_union_left _ (hl hc)

/-- **A block of the file costs two**: itself and its block of the free map. -/
theorem bmap_spent {bn : ℕ} (hbn : bn < maxfile) (h : Spent A i D t) :
    Runs (bmap A sb i bn) t E fun a t' => Spent A i (insert a (insert (A.bblock a) D)) t' := by
  have hmore : ∀ a, D ⊆ insert a (insert (A.bblock a) D) := fun a c hc =>
    mem_insert_of_mem (mem_insert_of_mem hc)
  unfold bmap
  split_ifs with hdir hind
  · exact loadAddr_spent hdir h
  · refine (loadIndirect_spent h).bind ?_
    rintro a t' ⟨hzero, hsome⟩
    split_ifs with ha
    · exact hzero ha
    · obtain ⟨h', e', he', haddr⟩ := hsome ha
      rw [Runs.widen_get_bind]
      split_ifs with hhit
      · exact h'.mono (hmore _)
      · refine (balloc_spent h').bind ?_
        rintro b t'' ⟨hs, ht''⟩
        split_ifs with hb
        · rw [hb] at ht''
          exact ht''
        · -- the indirect block is logged
          obtain ⟨e'', he'', hl⟩ := ht''
          rw [hs, he'] at he''
          obtain rfl := Option.some.inj he''
          refine ⟨e', (congrFun hs i).trans he', ?_⟩
          have hmem : a ∈ indirect A e'.ino := by
            rw [indirect, haddr, if_neg ha]
            exact mem_insert_self _ _
          change (a :: t''.2).toFinset ⊆ _
          rw [List.toFinset_cons]
          exact insert_subset (mem_union_right _ hmem) hl
  · exact absurd hbn (by simp only [maxfile] at hbn ⊢; omega)

theorem bmap_hit {e : Entry} {bn : ℕ} (h : Held t.1 i e) (hbn : t.1.own (i, placeOf bn) ≠ 0) :
    Runs (bmap A sb i bn) t E fun _ t' => t' = t := by
  have hload : ∀ k, e.ino.addrs k ≠ 0 →
      Runs (loadAddr A sb i k) t E fun a t' => a = e.ino.addrs k ∧ t' = t := by
    intro k hk
    unfold loadAddr
    refine (fields_entry h.entry).bind ?_
    rintro _ _ ⟨rfl, rfl⟩
    rw [if_pos hk]
    exact ⟨rfl, rfl⟩
  rw [own_of_live h.inode_live, h.inode_eq] at hbn
  unfold placeOf at hbn
  unfold bmap
  split_ifs at hbn ⊢ with hdir hind
  · rw [Dinode.addrAt, if_pos (le_of_lt hdir)] at hbn
    exact (hload bn hbn).mono fun _ _ h => h.2
  · have hcond : bn - ndirect < nindirect ∧ e.ino.addrs ndirect ≠ 0 := by
      by_contra hno
      rw [Dinode.addrAt, if_neg hno] at hbn
      exact hbn rfl
    rw [Dinode.addrAt, if_pos hcond] at hbn
    refine (hload ndirect hcond.2).bind ?_
    rintro _ _ ⟨rfl, rfl⟩
    rw [if_neg hcond.2, Runs.widen_get_bind, if_pos hbn]
    exact rfl
  · rw [Dinode.addrAt, if_neg fun hc => hind hc.1] at hbn
    exact absurd rfl hbn

/-! ### One piece -/

/-- One round of the loop: `bmap` finds a block, and the block is logged if the copy succeeds. -/
theorem writeiLoop_round {n fuel tot off : ℕ} (hlt : tot < n) {C : ℕ → Finset ℕ}
    {Q : ℕ × ℕ → State → Prop}
    (hbmap : Runs (bmap A sb i (off / bsize)) t E fun a t' => Spent A i (C a) t')
    (hC : ∀ a, a ∈ C a) (hend : ∀ a r t', Spent A i (C a) t' → Q r t')
    (hnext : ∀ a t', Spent A i (C a) t' →
      Runs (writeiLoop A sb i src n fuel (tot + min (n - tot) (bsize - off % bsize))
        (off + min (n - tot) (bsize - off % bsize))) t' E Q) :
    Runs (writeiLoop A sb i src n (fuel + 1) tot off) t E Q := by
  unfold writeiLoop
  rw [if_pos hlt]
  refine hbmap.bind ?_
  intro a t' ht'
  split_ifs with ha
  · exact hend a _ t' ht'
  · dsimp only
    rw [Runs.widen_modify_bind]
    have hcopied : Spent A i (C a) (t'.1.setData a (patch src tot (t'.1.data a) (off % bsize)
        (src.copied tot (min (n - tot) (bsize - off % bsize)))), t'.2) := ht'.of_itable rfl
    split_ifs with hshort
    · exact hend a _ _ hcopied
    · exact hnext a _ (hcopied.log (hC a))

/-- **Two for every block that is left**, if the loop is at the beginning of a block, or at its
end. -/
theorem writeiLoop_spent {n : ℕ} (fuel : ℕ) : ∀ (tot off : ℕ) (D : Finset ℕ) (t : State),
    Spent A i D t → off % bsize = 0 ∨ n ≤ tot → off + (n - tot) ≤ maxfile * bsize →
    Runs (writeiLoop A sb i src n fuel tot off) t E fun _ t' =>
      ∃ D' : Finset ℕ, D'.card ≤ D.card + 2 * ((n - tot + (bsize - 1)) / bsize) ∧
        Spent A i D' t' := by
  induction fuel with
  | zero =>
    intro tot off D t h _ _
    exact ⟨D, Nat.le_add_right _ _, h⟩
  | succ fuel ih =>
    intro tot off D t h halign hmax
    by_cases hlt : tot < n
    · have hzero : off % bsize = 0 := halign.resolve_right (not_le.mpr hlt)
      have hbn : off / bsize < maxfile := by
        simp only [bsize, maxfile, ndirect, nindirect] at hmax ⊢
        omega
      have hcard : ∀ a, (insert a (insert (A.bblock a) D)).card ≤ D.card + 2 := fun a =>
        (card_insert_le _ _).trans (Nat.succ_le_succ (card_insert_le _ _))
      refine writeiLoop_round hlt (bmap_spent hbn h) (fun a => mem_insert_self _ _) ?_ ?_
      · intro a r t' ht'
        refine ⟨_, (hcard a).trans ?_, ht'⟩
        simp only [bsize]
        omega
      · intro a t' ht'
        refine (ih _ _ _ t' ht' ?_ ?_).mono ?_
        · simp only [bsize] at hzero ⊢
          omega
        · simp only [bsize, maxfile, ndirect, nindirect] at hmax ⊢
          omega
        · rintro _ t'' ⟨D', hD', ht''⟩
          refine ⟨D', hD'.trans ?_, ht''⟩
          have := hcard a
          simp only [bsize] at hzero ⊢
          omega
    · unfold writeiLoop
      rw [if_neg hlt]
      exact ⟨D, Nat.le_add_right _ _, h⟩

/-- The loop of a piece. If it does not begin where a block begins, its first block is there, and
one block more may be touched; if it does, all may be new. -/
theorem writeiLoop_piece {s : FsState} {e : Entry} {off n : ℕ} (h : Held s i e)
    (hsolid : ∀ x < e.ino.size, s.own (i, placeOf (x / bsize)) ≠ 0) (hoff : off ≤ e.ino.size)
    (hmax : off + n ≤ maxfile * bsize) (hn : n ≤ chunk) :
    Runs (writeiLoop A sb i src n n 0 off) (s, []) E fun _ t' =>
      ∃ D : Finset ℕ, D.card ≤ 7 ∧ Spent A i D t' := by
  have hn : n ≤ 3072 := hn
  have hnone : Spent A i ∅ (s, []) := ⟨e, h.entry, empty_subset _⟩
  by_cases halign : off % bsize = 0 ∨ n ≤ 0
  · refine (writeiLoop_spent n 0 off ∅ (s, []) hnone halign (by omega)).mono ?_
    rintro _ t' ⟨D, hD, ht'⟩
    refine ⟨D, hD.trans ?_, ht'⟩
    simp only [bsize, card_empty]
    omega
  · obtain ⟨hmod, hpos⟩ := not_or.mp halign
    obtain ⟨fuel, rfl⟩ : ∃ fuel, n = fuel + 1 := ⟨n - 1, by omega⟩
    -- the byte before `off` is in the file, and in the same block
    have hhit : s.own (i, placeOf (off / bsize)) ≠ 0 := by
      have hbefore : (off - 1) / bsize = off / bsize := by
        simp only [bsize] at hmod ⊢
        omega
      rw [← hbefore]
      exact hsolid (off - 1) (by simp only [bsize] at hmod; omega)
    have hbmap : Runs (bmap A sb i (off / bsize)) (s, []) E fun a t' => Spent A i {a} t' := by
      refine (bmap_hit h hhit).mono ?_
      rintro a _ rfl
      exact hnone.mono (empty_subset _)
    refine writeiLoop_round (by omega) hbmap (fun a => mem_singleton_self a) ?_ ?_
    · intro a r t' ht'
      exact ⟨{a}, by simp, ht'⟩
    · intro a t' ht'
      refine (writeiLoop_spent fuel _ _ {a} t' ht' ?_ ?_).mono ?_
      · simp only [bsize] at hmod ⊢
        omega
      · omega
      · rintro _ t'' ⟨D, hD, ht''⟩
        refine ⟨D, hD.trans ?_, ht''⟩
        simp only [bsize, card_singleton] at hmod ⊢
        omega

theorem growTo_spent (off : ℕ) (h : Spent A i D t) :
    Runs (widen (growTo i off)) t E fun _ t' => Spent A i D t' := by
  obtain ⟨e, he, hl⟩ := h
  have hgrow : Runs (growTo i off) t.1 E fun _ s' =>
      ∃ e', s'.itable i = some e' ∧ e'.ino.addrs = e.ino.addrs := by
    unfold growTo fields
    rw [bind_assoc, Runs.get_bind, he, Runs.pure_bind]
    split_ifs with hsize
    · unfold assign
      rw [Runs.modify_iff, he]
      exact ⟨_, update_self .., rfl⟩
    · exact ⟨e, he, rfl⟩
  refine hgrow.of_widen.mono ?_
  rintro _ ⟨s', l⟩ ⟨⟨e', he', haddrs⟩, rfl⟩
  refine ⟨e', he', ?_⟩
  rwa [indirect_congr (congrFun haddrs ndirect)]

theorem iupdate_spent (h : Spent A i D t) :
    Runs (iupdate A i) t E fun _ t' => Spent A i (insert (A.iblock i) D) t' := by
  obtain ⟨e, he, -⟩ := id h
  have hupdate : Runs (Fs.iupdate i) t.1 E fun _ s' => s'.itable = t.1.itable := by
    unfold Fs.iupdate fields
    rw [bind_assoc, Runs.get_bind, he]
    exact rfl
  refine hupdate.of_widen.bind ?_
  rintro _ ⟨s', l⟩ ⟨hs, rfl⟩
  exact ((h.of_itable hs).mono (subset_insert _ _)).log (mem_insert_self _ _)

/-- **One piece of a write stays within what an operation may log.** For every file without holes,
however full the disk is, every offset up to its end and every length up to that of a piece,
`writei` returns, and the blocks of data and of the free map, the indirect block and the block of
the inode that it has logged are `MAXOPBLOCKS` at most, each counted once. -/
theorem writei_quota {s : FsState} {e : Entry} {off n : ℕ} (h : Held s i e)
    (hsolid : ∀ x < e.ino.size, s.own (i, placeOf (x / bsize)) ≠ 0) (hoff : off ≤ e.ino.size)
    (hn : n ≤ chunk) : ∃ r s' l, writei A sb i src off n (s, []) = .ok (r, s', l) ∧
      l.toFinset.card ≤ Log.maxOpBlocks := by
  have hruns : Runs (writei A sb i src off n) (s, []) (fun _ => False) fun _ t' =>
      t'.2.toFinset.card ≤ Log.maxOpBlocks := by
    unfold writei
    refine (fields_entry h.entry).bind ?_
    rintro _ _ ⟨rfl, rfl⟩
    split_ifs with hfirst hsecond
    · exact Nat.zero_le _
    · exact Nat.zero_le _
    · have hmax : off + n ≤ maxfile * bsize := by
        have hn : n ≤ 3072 := hn
        simp only [uadd, maxfile, bsize, ndirect, nindirect] at hfirst hsecond ⊢
        omega
      refine (writeiLoop_piece h hsolid hoff hmax hn).bind ?_
      rintro ⟨tot, off'⟩ t' ⟨D, hD, ht'⟩
      refine (growTo_spent off' ht').bind ?_
      intro _ t1 ht1
      refine (iupdate_spent ht1).bind ?_
      intro _ t2 ht2
      have hinsert := card_insert_le (A.iblock i) D
      calc t2.2.toFinset.card ≤ (insert (A.iblock i) D).card + 2 := ht2.card_le
        _ ≤ 10 := by omega
  obtain ⟨r, ⟨s', l⟩, hrun, hl⟩ := hruns.exists_ok
  exact ⟨r, s', l, hrun, hl⟩

theorem writei_quota_fresh : ∃ r s' l,
    writei ⟨2, 3⟩ smallDisk 1 ⟨fun _ => 7, none⟩ 0 3072 (fresh smallDisk .file, []) =
      .ok (r, s', l) ∧ l.toFinset.card ≤ 10 := by
  have hlive : FileType.file ≠ .free := by decide
  refine writei_quota (fresh_held smallDisk hlive) ?_ (Nat.zero_le _) (by decide)
  exact fun x hx => absurd hx (Nat.not_lt_zero x)

end Xv6.Fs.Tx
