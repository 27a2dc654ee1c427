import Xv6.Fs.Arrays

/-!
# What a write costs in the log

`filewrite` cuts a write into chunks, one transaction each.
-/

open Function Xv6.Bytes Xv6.Log Xv6.Code

namespace Xv6.Fs

/-! ## The cost of a chunk -/

namespace Volume

def Grows (v : Volume) (i off n lo : Nat) : Prop := ∃ m ∈ touched off n, lo ≤ m ∧ v.addr i m = 0

instance (v : Volume) (i off n lo : Nat) : Decidable (v.Grows i off n lo) :=
  inferInstanceAs (Decidable (∃ m ∈ touched off n, _))

/-- The blocks of the file, and the free map, the indirect block and the inode as needed. -/
def writeCost (v : Volume) (i off n : Nat) : Nat :=
  (touched off n).card + (if v.Grows i off n 0 then 1 else 0) + (if v.Grows i off n ndirect then 1 else 0) +
    if (v.inode i).size.toNat < off + n then 1 else 0

def Fits (v : Volume) (i off n : Nat) : Prop :=
  n = 0 ∨ maxfile * bsize < off + min n writeMax ∨ (n < writeMax ∧ v.writeCost i off n ≤ maxopblocks)

variable {sb : Superblock} {v v' : Volume} {i off n : Nat} {bs : List Byte}

theorem mem_touched_of_le (hmax : off + n ≤ maxfile * bsize) {m : Nat} : m ∈ touched off n ↔ Covers off n m := by
  simp only [mem_touched, and_iff_right_iff_imp, Covers, maxfile, nindirect, ndirect, bsize] at hmax ⊢
  omega

theorem lt_writeCost (hmax : off + writeMax ≤ maxfile * bsize) : maxopblocks < v.writeCost i off writeMax := by
  have hsub : Finset.Ico (off / bsize) (off / bsize + 13) ⊆ touched off writeMax := by
    intro m hm
    rw [Finset.mem_Ico] at hm
    rw [mem_touched_of_le hmax]
    have hw : writeMax = 6656 := rfl
    simp only [Covers, bsize, hw] at hm ⊢
    omega
  have hcard := Finset.card_le_card hsub
  rw [Nat.card_Ico, Nat.add_sub_cancel_left] at hcard
  have hops : maxopblocks = 10 := rfl
  unfold writeCost
  omega

theorem Updated.addr_ne_zero (h : v.Updated sb v' i off bs) {m : Nat} (hm : Covers off bs.length m) :
    v'.addr i m ≠ 0 := by
  obtain ⟨u, d, hw, -, rfl, hd, -⟩ := h
  rw [addr_setInode (by rw [hd])]
  exact hw.here m hm

end Volume

/-! ## Counting the blocks -/

theorem mem_union_ite {S : Finset Nat} {p : Prop} [Decidable p] {a c : Nat} :
    c ∈ S ∪ (if p then {a} else ∅) ↔ c ∈ S ∨ p ∧ c = a := by
  split <;> simp [*, or_comm]

theorem card_union_ite {S : Finset Nat} {p : Prop} [Decidable p] {a : Nat} (h : p → a ∉ S) :
    (S ∪ if p then {a} else ∅).card = S.card + if p then 1 else 0 := by
  by_cases hp : p
  · rw [if_pos hp, if_pos hp, Finset.card_union_of_disjoint (Finset.disjoint_singleton_right.mpr (h hp)),
      Finset.card_singleton]
  · rw [if_neg hp, if_neg hp, Finset.union_empty, Nat.add_zero]

section Cost

variable {sb : Superblock} {v v' : Volume} {i off n : Nat} {bs : List Byte} {lg : List Nat}

open Volume in
theorem card_logged (hv : sb.Valid) (hone : sb.size ≤ bpb) (hi : v'.Live sb i) (ho : v'.Owned sb)
    (hup : v.Updated sb v' i off bs) (hlen : bs.length = n) (hmax : off + n ≤ maxfile * bsize)
    (hlog : GrowLog sb v v' i off n lg) : lg.toFinset.card = v.writeCost i off n := by
  subst hlen
  have hlt : ∀ m ∈ touched off bs.length, m < maxfile := fun m hm => (mem_touched.mp hm).1
  have hne : ∀ m ∈ touched off bs.length, v'.addr i m ≠ 0 := fun m hm =>
    hup.addr_ne_zero (mem_touched.mp hm).2
  have hind : v.Grows i off bs.length ndirect → v'.indirectOf i ≠ 0 := by
    rintro ⟨m, hm, hlo, -⟩ h0
    exact hne m hm (addr_of_indirectOf_zero h0 hlo)
  -- data and indirect blocks lie above the free map, and the free map above the inodes
  have hdata : ∀ m ∈ touched off bs.length, sb.datastart ≤ v'.addr i m := fun m hm =>
    (ho.addr_inData hi (hlt m hm) (hne m hm)).1
  have hbits := hv.bmapstart_lt
  have hblock := (hv.iblock_bounds hi.1).2
  have hset : lg.toFinset = (touched off bs.length).image (v'.addr i) ∪
      (if v.Grows i off bs.length 0 then {sb.bmapstart} else ∅) ∪
      (if v.Grows i off bs.length ndirect then {v'.indirectOf i} else ∅) ∪
      (if (v.inode i).size.toNat < off + bs.length then {iblock sb i} else ∅) := by
    ext c
    rw [List.mem_toFinset, hlog hone c, mem_union_ite, mem_union_ite, mem_union_ite, Finset.mem_image]
    simp only [Grows, mem_touched_of_le hmax, Nat.zero_le, true_and, or_assoc, eq_comm (a := c)]
  have hinj : Set.InjOn (v'.addr i) (touched off bs.length) := fun m hm k hk he =>
    (ho.addr_inj hi (hlt m hm) hi (hlt k hk) (hne m hm) he).2
  rw [hset, card_union_ite, card_union_ite, card_union_ite, Finset.card_image_of_injOn hinj, writeCost]
  · intro _ hc
    obtain ⟨m, hm, he⟩ := Finset.mem_image.mp hc
    have := hdata m hm
    omega
  · intro hgrow hc
    have hx := ho.indirect_inData hi (hind hgrow)
    rcases mem_union_ite.mp hc with hc | ⟨-, hc⟩
    · obtain ⟨m, hm, he⟩ := Finset.mem_image.mp hc
      exact ho.addr_ne_indirect hi (hlt m hm) hi (hne m hm) he
    · have := hx.1
      omega
  · intro _ hc
    rcases mem_union_ite.mp hc with hc | ⟨hgrow, hc⟩
    · rcases mem_union_ite.mp hc with hc | ⟨-, hc⟩
      · obtain ⟨m, hm, he⟩ := Finset.mem_image.mp hc
        have := hdata m hm
        omega
      · omega
    · have := (ho.indirect_inData hi (hind hgrow)).1
      omega

end Cost

/-! ## One transaction -/

variable {P : Type}

structure OpenFile (sb : Superblock) (v : Volume) (f : Fin nfile) (i : Nat) (s : State P) : Prop where
  sbEq : s.sb = sb
  tracks : Tracks sb v v.inode s.disk
  solid : v.Solid sb
  live : v.Live sb i
  regular : (v.inode i).type = tFile
  type : (s.ftable f).type = .inode
  inum : (s.icache (s.ftable f).ip).inum = i
  ref : 1 ≤ (s.icache (s.ftable f).ip).ref
  copy : (s.icache (s.ftable f).ip).valid = true → (s.icache (s.ftable f).ip).copy = v.inode i
  off : (s.ftable f).off.toNat ≤ (v.inode i).size.toNat

/-- No other process is in the file system. -/
structure Alone (f : Fin nfile) (s : State P) : Prop extends Resting s where
  free : (s.icache (s.ftable f).ip).locked = false

theorem blocksOf_chunk (off : Nat) {n : Nat} (hn : n ≤ writeMax) : blocksOf off n + 4 ≤ 28 := by
  have hmax : writeMax = 6656 := rfl
  unfold blocksOf
  split
  · omega
  · simp only [bsize]
    omega

def State.ended (s : State P) (ip : Iptr) (d : Dinode) (disk : Disk) (log : LogState) (lg : List Nat) : State P :=
  { s with
    icache := update s.icache ip { s.icache ip with valid := true, copy := d }
    disk := disk, log := log, logged := lg, txns := s.txns ++ [lg] }

def State.held (s : State P) (ip : Iptr) (d : Dinode) : State P :=
  s.setSlot ip { s.icache ip with valid := true, copy := d }

def State.seek (s : State P) (f : Fin nfile) (n : Nat) : State P :=
  { s with ftable := update s.ftable f { s.ftable f with off := (s.ftable f).off + .ofNat 32 n } }

section Chunk

variable {sb : Superblock} {v v' : Volume} {f : Fin nfile} {i : Nat} {s : State P}

theorem word_toNat {n : Nat} (hn : n < 2 ^ 31) : (BitVec.ofNat 32 n).toNat = n := by
  rw [BitVec.toNat_ofNat, Nat.mod_eq_of_lt (hn.trans (by decide))]

theorem chunk_lt (n : Nat) : min n writeMax < 2 ^ 31 := lt_of_le_of_lt (Nat.min_le_right ..) (by decide)

namespace OpenFile

variable (h : OpenFile sb v f i s)
include h

theorem not_dev : (v.inode i).type ≠ tDev := by
  rw [h.regular]
  decide

theorem off_le : (s.ftable f).off.toNat ≤ maxfile * bsize :=
  h.off.trans (h.solid.size_le h.live h.not_dev)

theorem refused_iff {n : Nat} (hn : n < 2 ^ 31) :
    v.Refused i (s.ftable f).off (.ofNat 32 n) ↔ maxfile * bsize < (s.ftable f).off.toNat + n := by
  have hword := word_toNat hn
  have hoff := h.off_le
  have hmax : maxfile * bsize + 2 ^ 31 < 2 ^ 32 := by decide
  rw [Volume.refused_iff, hword, Volume.content_length]
  have := h.off
  omega

theorem chunk {disk : Disk} (log : LogState) (lg : List Nat) {n : Nat}
    (ht : Tracks sb v' v'.inode disk) (hs : v'.Solid sb) (htype : (v'.inode i).type = (v.inode i).type)
    (hn : n < 2 ^ 31) (hsize : (s.ftable f).off.toNat + n ≤ (v'.inode i).size.toNat) :
    OpenFile sb v' f i ((s.ended (s.ftable f).ip (v'.inode i) disk log lg).seek f n) where
  sbEq := h.sbEq
  tracks := ht
  solid := hs
  live := (Volume.live_congr htype).mpr h.live
  regular := htype.trans h.regular
  type := by simpa [State.ended, State.seek] using h.type
  inum := by simpa [State.ended, State.seek] using h.inum
  ref := by simpa [State.ended, State.seek] using h.ref
  copy := by simp [State.ended, State.seek]
  off := by
    have hword := word_toNat hn
    have hoff := h.off_le
    have hmax : maxfile * bsize + 2 ^ 31 < 2 ^ 32 := by decide
    simp only [State.ended, State.seek, update_self, BitVec.toNat_add, hword]
    omega

end OpenFile

variable {E : Fail → Prop} (hv : sb.Valid)
include hv

theorem locked_ends (h : OpenFile sb v f i s) {src : List Byte} {n : Nat} (hn : n < 2 ^ 31) (hsrc : n ≤ src.length)
    (hlock : (s.icache (s.ftable f).ip).locked = true → E .stuck)
    (hE : Lacks E sb v s.log i (s.ftable f).off.toNat n) {α : Type} {g : Int → Prog P α} {Q : α → State P → Prop}
    (hbad : maxfile * bsize < (s.ftable f).off.toNat + n → Ends E (g (-1)) Q (s.held (s.ftable f).ip (v.inode i)))
    (hgood : (s.ftable f).off.toNat + n ≤ maxfile * bsize → ∀ v' disk log lg,
      v.Updated sb v' i (s.ftable f).off.toNat (src.take n) → Tracks sb v' v'.inode disk →
      GrowLog sb v v' i (s.ftable f).off.toNat n lg →
      (Takes sb s.log (blocksOf (s.ftable f).off.toNat n + 4) →
        Took s.log log (blocksOf (s.ftable f).off.toNat n + 4)) →
      Ends E (g n) Q (((s.wrote disk log lg).held (s.ftable f).ip (v'.inode i)).seek f n)) :
    Ends E (do
      ilock (s.ftable f).ip
      let r ← writei (s.ftable f).ip src (s.ftable f).off (.ofNat 32 n)
      if r > 0 then onFile f fun f => { f with off := f.off + .ofInt 32 r } else pure ()
      iunlock (s.ftable f).ip
      g r) Q s := by
  have hword := word_toNat hn
  refine ends_bind.mpr (ilock_ends hlock (d := v.inode i) h.ref h.copy (fun _ => ?_) fun hfree => ?_)
  · exact ⟨(h.tracks.inode i h.live.1).symm ▸ h.sbEq ▸ h.inum ▸ rfl, h.live.2⟩
  refine ends_bind.mpr (writei_settles ?_ hv h.solid h.live ?_ ?_ ?_ h.not_dev ?_ ?_ (fun hbad' => ?_)
    fun hgood' v' disk log lg hup ht hlog htook => ?_)
  · exact h.sbEq
  · simp
  · simpa using h.inum
  · exact h.tracks
  · rw [hword]
    exact hsrc
  · rw [hword]
    exact hE
  · rw [if_neg (by decide)]
    refine ends_bind.mpr (iunlock_ends (by simp) (by simpa using h.ref) ?_)
    have hq := hbad ((h.refused_iff hn).mp hbad')
    simpa [State.held, State.setSlot, hfree] using hq
  · rw [hword] at hup hlog htook ⊢
    have hq := hgood (Nat.not_lt.mp fun hlt => hgood' ((h.refused_iff hn).mpr hlt)) v' disk log lg hup ht hlog htook
    refine ends_ite (fun _ => ends_modify_bind ?_) fun hzero => ?_
    · refine ends_bind.mpr (iunlock_ends (by simp [setCopy_eq]) (by simpa [setCopy_eq] using h.ref) ?_)
      simpa [State.held, State.seek, State.setSlot, State.setCopy, State.wrote, hfree] using hq
    · obtain rfl : n = 0 := by omega
      refine ends_bind.mpr (iunlock_ends (by simp [setCopy_eq]) (by simpa [setCopy_eq] using h.ref) ?_)
      simpa [State.held, State.seek, State.setSlot, State.setCopy, State.wrote, hfree] using hq

theorem writeChunk_ends (h : OpenFile sb v f i s) {src : List Byte} {n : Nat} (hn : n < 2 ^ 31) (hsrc : n ≤ src.length)
    (hE : ¬(Alone f s ∧ n ≤ writeMax) → ∀ e, OfLog e → E e)
    (hblocks : v.free sb < v.missing i (s.ftable f).off.toNat n → E (.panic .outOfBlocks)) {Q : Int → State P → Prop}
    (hbad : maxfile * bsize < (s.ftable f).off.toNat + n → ∀ log,
      Q (-1) (s.ended (s.ftable f).ip (v.inode i) s.disk log []))
    (hgood : (s.ftable f).off.toNat + n ≤ maxfile * bsize → ∀ v' disk log lg,
      v.Updated sb v' i (s.ftable f).off.toNat (src.take n) → Tracks sb v' v'.inode disk →
      GrowLog sb v v' i (s.ftable f).off.toNat n lg → (Alone f s → n ≤ writeMax → log = ⟨0, false, []⟩) →
      Q n ((s.ended (s.ftable f).ip (v'.inode i) disk log lg).seek f n)) : Ends E (writeChunk f src n) Q s := by
  have hwaits : ¬(Alone f s ∧ n ≤ writeMax) → E .stuck := fun hno => hE hno _ (.inl rfl)
  have hpanics : ¬(Alone f s ∧ n ≤ writeMax) → ∀ l, E (.panic (.log l)) := fun hno l => hE hno _ (.inr ⟨l, rfl⟩)
  refine ends_get_bind (ends_bind.mpr (beginOp_ends (fun hnone => hwaits fun hc => ?_) fun log hlog => ?_))
  · rw [hc.1.log] at hnone
    cases hnone
  have hbegun : OpenFile sb v f i { s with log := log, logged := [] } := { h with }
  have htakes : Alone f s → n ≤ writeMax → Takes sb log (blocksOf (s.ftable f).off.toNat n + 4) := fun ha hn =>
    h.sbEq ▸ ha.takes (ha.begun hlog) (blocksOf_chunk _ hn)
  refine locked_ends hv hbegun hn hsrc (fun hlocked => hwaits fun hc => ?_)
    ⟨hblocks, fun hno => hpanics fun hc => hno (htakes hc.1 hc.2)⟩ (fun hlong => ?_)
    fun hfits v' disk log' lg hup ht hlg htook => ?_
  · rw [hc.1.free] at hlocked
    cases hlocked
  · refine ends_bind.mpr (endOp_ends (fun hcommitting => hpanics fun hc => ?_) fun _ => ends_pure (hbad hlong _))
    rw [State.held, State.setSlot, hc.1.begun hlog] at hcommitting
    cases hcommitting
  · refine ends_bind.mpr (endOp_ends (fun hcommitting => hpanics fun hc => ?_) fun _ =>
      ends_pure (hgood hfits v' disk _ lg hup ht hlg fun ha hn => ((htook (htakes ha hn)).ended (ha.begun hlog)).2))
    exact Bool.noConfusion (hcommitting.symm.trans ((htook (htakes hc.1 hc.2)).ended (hc.1.begun hlog)).1)

omit hv in
theorem writeChunks_zero (fuel : Nat) (src : List Byte) : writeChunks (P := P) f fuel src 0 = pure 0 := by
  cases fuel <;> rfl

variable (hE : ∀ e, Full e ∨ e = .stuck → E e)
include hE

omit hv in
theorem ofLog_ends (e : Fail) (h : OfLog e) : E e := hE e (h.symm.imp_left .inr)

theorem writeChunks_ends (h : OpenFile sb v f i s) {fuel : Nat} {src : List Byte} {n : Nat} (hn : n ≤ src.length) :
    Ends E (writeChunks f fuel src n) (fun _ t => ∃ new, t.txns = s.txns ++ new) s := by
  induction fuel generalizing s v src n with
  | zero => exact ends_pure ⟨[], by simp⟩
  | succ fuel ih =>
    refine ends_ite (fun _ => ends_pure ⟨[], by simp⟩) fun hpos => ?_
    have hchunk : min n writeMax ≤ n := Nat.min_le_left ..
    have hw : 0 < writeMax := by decide
    refine ends_bind.mpr (writeChunk_ends hv h (chunk_lt _) (by omega) (fun _ => ofLog_ends hE)
      (fun _ => hE _ (.inl (.inl rfl))) (fun _ log => ends_pure ⟨[[]], rfl⟩) fun hmax v' disk log lg hup ht _ _ => ?_)
    have hlen : (src.take (min n writeMax)).length = min n writeMax := by
      rw [List.length_take]
      omega
    have hopen := h.chunk log lg ht (hup.solid h.solid h.not_dev h.off (by omega)) (hup.type i)
      (chunk_lt n) (by rw [hup.size]; omega)
    refine ends_ite (fun hneg => absurd hneg (by omega)) fun _ => ?_
    refine ends_ite (fun hne => absurd rfl hne) fun _ => ?_
    refine (ih hopen (by rw [List.length_drop]; omega)).mono ?_
    rintro _ t ⟨new, hnew⟩
    exact ⟨lg :: new, by rw [hnew]; simp [State.ended, State.seek]⟩

theorem firstChunk_ends (hone : sb.size ≤ bpb) (h : OpenFile sb v f i s) {src : List Byte} {n : Nat}
    (hn : n ≤ src.length) :
    Ends E (writeChunks f n src n) (fun _ t => ∃ new, t.txns = s.txns ++ new ∧
      ((∀ tx ∈ new, tx.toFinset.card ≤ maxopblocks) ↔ v.Fits i (s.ftable f).off.toNat n)) s := by
  cases n with
  | zero => exact ends_pure ⟨[], by simp, by simp [Volume.Fits]⟩
  | succ k =>
    have hchunk : min (k + 1) writeMax ≤ k + 1 := Nat.min_le_left ..
    have hw : 0 < writeMax := by decide
    have hlen : (src.take (min (k + 1) writeMax)).length = min (k + 1) writeMax := by
      rw [List.length_take]
      omega
    refine ends_ite (fun h0 => absurd h0 (by omega)) fun _ => ?_
    refine ends_bind.mpr (writeChunk_ends hv h (chunk_lt _) (by omega) (fun _ => ofLog_ends hE)
      (fun _ => hE _ (.inl (.inl rfl))) (fun hbad log => ends_pure ⟨[[]], rfl, ?_⟩)
      fun hmax v' disk log lg hup ht hlog _ => ?_)
    · simp [Volume.Fits, hbad]
    have hsolid := hup.solid h.solid h.not_dev h.off (by omega)
    have hcard := card_logged hv hone ((hup.live i).mpr h.live) hsolid.toOwned hup hlen hmax hlog
    have hopen := h.chunk log lg ht hsolid (hup.type i) (chunk_lt (k + 1))
      (by rw [hup.size]; omega)
    refine ends_ite (fun hneg => absurd hneg (by omega)) fun _ => ?_
    refine ends_ite (fun hne => absurd rfl hne) fun _ => ?_
    by_cases hlast : k + 1 < writeMax
    · rw [Nat.min_eq_left hlast.le] at hcard hmax ⊢
      rw [Nat.sub_self, writeChunks_zero]
      refine ends_pure ⟨[lg], rfl, ?_⟩
      simp only [List.mem_singleton, forall_eq, hcard, Volume.Fits, Nat.min_eq_left hlast.le, hlast, true_and]
      omega
    · rw [Nat.min_eq_right (Nat.not_lt.mp hlast)] at hcard hmax hopen ⊢
      refine (writeChunks_ends hv hE hopen (by rw [List.length_drop]; omega)).mono ?_
      rintro _ t ⟨new, hnew⟩
      refine ⟨lg :: new, by rw [hnew]; simp [State.ended, State.seek], fun hall => ?_, fun hfits => ?_⟩
      · have hlt := v.lt_writeCost (i := i) hmax
        have hle := hall lg List.mem_cons_self
        omega
      · rcases hfits with h0 | hlong | ⟨hlt, -⟩
        · omega
        · rw [Nat.min_eq_right (Nat.not_lt.mp hlast)] at hlong
          omega
        · exact absurd hlt hlast

end Chunk

/-- Each transaction of a `filewrite` that comes back logs at most `MAXOPBLOCKS` blocks, exactly when the write
is short enough. -/
theorem filewrite_within_maxopblocks_iff {s : State P} {f : Fin nfile} {i : Nat} (hv : s.sb.Valid)
    (hone : s.sb.size ≤ bpb) (h : OpenFile s.sb (stored s.sb s.disk) f i s) (src : List Byte) (n : Int)
    (hn : n.toNat ≤ src.length) :
    Ends (fun e => Full e ∨ e = .stuck) (filewrite f src n) (fun _ t => ∃ new, t.txns = s.txns ++ new ∧
      ((∀ tx ∈ new, tx.toFinset.card ≤ maxopblocks) ↔
        (s.ftable f).writable = false ∨ (stored s.sb s.disk).Fits i (s.ftable f).off.toNat n.toNat)) s := by
  refine ends_get_bind ?_
  refine ends_ite (fun hw => ends_pure ⟨[], by simp, by simp [hw]⟩) fun hw => ?_
  simp only [Bool.not_eq_true, Bool.not_eq_false] at hw
  rw [h.type]
  refine ends_bind.mpr ((firstChunk_ends hv (fun _ => id) hone h hn).mono ?_)
  rintro _ t ⟨new, hnew, hiff⟩
  exact ends_pure ⟨new, hnew, hiff.trans (by simp [hw])⟩

def openState : State (Fin 1) where
  sb := mkfsSuper
  disk := fileImage
  icache := fun _ => ⟨2, 1, false, true, emptyFile⟩
  ftable := fun _ => ⟨.inode, 1, true, true, 0, 0⟩
  proc := fun _ => ⟨fun _ => none, some 0⟩
  log := ⟨0, false, []⟩
  logged := []
  txns := []

theorem openState_open : OpenFile mkfsSuper (stored mkfsSuper fileImage) 0 2 openState where
  sbEq := rfl
  tracks := tracks_stored (by decide +kernel)
  solid := fileImage_rooted.solid
  live := ⟨by decide, by simp only [stored, fileImage_file]; decide⟩
  regular := by simp only [stored, fileImage_file]; rfl
  type := rfl
  inum := rfl
  ref := by decide
  copy := fun _ => by simp only [stored, fileImage_file]; rfl
  off := Nat.zero_le _

theorem shortWrite_within_maxopblocks :
    ∃ r t, filewrite 0 [7, 8, 9] 3 openState = .ok (r, t) ∧ ∀ tx ∈ t.txns, tx.toFinset.card ≤ maxopblocks := by
  have hfits : (stored mkfsSuper fileImage).Fits 2 0 3 := .inr (.inr ⟨by decide, by decide +kernel⟩)
  obtain ⟨r, t, hrun, -⟩ := exists_of_returned (m := filewrite 0 [7, 8, 9] 3) (s := openState)
    (g := fun r _ => r) (c := 3)
    (by decide +kernel)
  obtain ⟨new, hnew, hiff⟩ :=
    (filewrite_within_maxopblocks_iff (s := openState) mkfsSuper_valid (by decide) openState_open
    [7, 8, 9] 3 (by decide)).of_ok hrun
  exact ⟨r, t, hrun, hnew ▸ hiff.mpr (.inr hfits)⟩

/-- 13 blocks, an indirect block, the free map and the inode. -/
theorem fullChunk_exceeds_maxopblocks :
    OpenFile mkfsSuper (stored mkfsSuper fileImage) 0 2 openState ∧ mkfsSuper.size ≤ bpb ∧
      ∃ r t, filewrite 0 (List.replicate 6656 0) 6656 openState = .ok (r, t) ∧
        t.txns.map (fun tx => tx.toFinset.card) = [16] ∧ maxopblocks < 16 := by
  obtain ⟨r, t, hrun, htx⟩ := exists_of_returned (m := filewrite 0 (List.replicate 6656 0) 6656) (s := openState)
    (g := fun _ t => t.txns.map fun tx => tx.toFinset.card) (c := [16]) (by decide +kernel)
  exact ⟨openState_open, by decide, r, t, hrun, htx, by decide⟩

end Xv6.Fs
