import Xv6.Mkfs.Spec
import Xv6.Fs.Arrays

/-!
# Appending to a file

While `mkfs` runs, the image holds a volume whose bitmap has not been written yet.
-/

open Function Xv6.Bytes Xv6.Log Xv6.Fs Xv6.Code

namespace Xv6.Mkfs

theorem sb_valid : sb.Valid := sb_eq ▸ mkfsSuper_valid

def blocks (len : Nat) : Nat := (len + (bsize - 1)) / bsize + if ndirect * bsize < len then 1 else 0

theorem blocks_mono {m n : Nat} (h : m ≤ n) : blocks m ≤ blocks n := by
  have hind : (if ndirect * bsize < m then 1 else 0) ≤ if ndirect * bsize < n then 1 else 0 := by
    by_cases hm : ndirect * bsize < m
    · rw [if_pos hm, if_pos (Nat.lt_of_lt_of_le hm h)]
    · rw [if_neg hm]
      exact Nat.zero_le _
  exact Nat.add_le_add (Nat.div_le_div_right (Nat.add_le_add_right h _)) hind

/-! ## The volume on the image -/

/-- The image holds the volume, with `f` on the place of its inodes and no bitmap. -/
structure Builds (v : Volume) (f : Nat → Dinode) (s : State) : Prop where
  tracks : Tracks sb { v with used := fun _ => false } f s.disk
  sectors : s.sectors = fssize
  used : ∀ b, v.used b = decide (b < s.freeblock)
  fresh : ∀ b, s.freeblock ≤ b → b < fssize → v.data b = fun _ => 0
  low : nmeta ≤ s.freeblock
  high : s.freeblock ≤ fssize

namespace Builds

variable {v : Volume} {f : Nat → Dinode} {s : State} (h : Builds v f s)
include h

theorem data {b : Nat} (hb : sb.InData b) : v.data b = s.disk b := h.tracks.data b hb

theorem free : v.used s.freeblock = false := by
  rw [h.used]
  exact decide_eq_false (Nat.lt_irrefl _)

theorem inData (hroom : s.freeblock < fssize) : sb.InData s.freeblock := ⟨h.low, hroom⟩

theorem alloc (hroom : s.freeblock < fssize) :
    Builds (v.alloc s.freeblock) f { s with freeblock := s.freeblock + 1 } := by
  have hzero := h.fresh _ (Nat.le_refl _) hroom
  have hsame : (v.alloc s.freeblock).data = v.data := by
    rw [Volume.alloc, ← hzero]
    exact update_eq_self ..
  refine ⟨⟨h.tracks.super, h.tracks.used, fun b hb => ?_, h.tracks.inode⟩, h.sectors, fun b => ?_, fun b hb => ?_,
    Nat.le_succ_of_le h.low, hroom⟩
  · rw [← h.data hb]
    exact congrFun hsame b
  · by_cases he : b = s.freeblock
    · subst he
      simp [Volume.alloc]
    · refine (update_of_ne he ..).trans ((h.used b).trans (decide_eq_decide.mpr ?_))
      change b < s.freeblock ↔ b < s.freeblock + 1
      omega
  · rw [hsame]
    exact h.fresh b (Nat.le_of_succ_le hb)

theorem setInode (i : Nat) (d : Dinode) : Builds (v.setInode i d) f s :=
  ⟨h.tracks.setInode i d, h.sectors, h.used, h.fresh, h.low, h.high⟩

theorem wsect_ends {E : Exit → Prop} {b : Nat} {blk : Block} {Q : Unit → State → Prop} (hb : sb.InData b)
    (hused : b < s.freeblock)
    (hQ : ∀ t, Builds (v.setData b blk) f t → t.freeinode = s.freeinode → t.freeblock = s.freeblock → Q () t) :
    Ends E (wsect b blk) Q s := by
  refine ends_modify (hQ _ ⟨h.tracks.setData sb_valid hb blk, ?_, h.used, fun c hc hlt => ?_, h.low, h.high⟩ rfl rfl)
  · rw [h.sectors]
    exact Nat.max_eq_left hb.2
  · exact (update_of_ne (Nat.ne_of_gt (Nat.lt_of_lt_of_le hused hc)) ..).trans (h.fresh c hc hlt)

theorem rsect_ends {E : Exit → Prop} {b : Nat} {Q : Block → State → Prop} (hb : b < fssize) (hQ : Q (s.disk b) s) :
    Ends E (rsect b) Q s := by
  refine ends_get_bind (ends_ite (fun _ => ends_pure hQ) fun hno => absurd ?_ hno)
  rwa [h.sectors]

end Builds

theorem rsect_behind {s : State} {E : Exit → Prop} {b : Nat} {Q : Block → State → Prop} (hs : s.sectors = fssize)
    (hb : fssize ≤ b) (hE : ∀ e, E e) : Ends E (rsect b) Q s := by
  refine ends_get_bind (ends_ite (fun hlt => absurd hlt ?_) fun _ => ends_stop (hE _))
  rw [hs]
  exact Nat.not_lt.mpr hb

/-! ## Inodes -/

section Inodes

variable {v : Volume} {f : Nat → Dinode} {s : State} {E : Exit → Prop} {i : Nat} (h : Builds v f s)
  (hi : i < ninodes)
include h hi

theorem rinode_ends {Q : Dinode → State → Prop} (hQ : Q (f i) s) : Ends E (rinode i) Q s := by
  have hb : iblock sb i < fssize := by
    have := (sb_valid.iblock_bounds hi).2
    exact Nat.lt_trans this (by decide)
  refine ends_bind.mpr (h.rsect_ends hb (ends_pure ?_))
  rw [← h.tracks.inode i hi] at hQ
  exact hQ

theorem winode_ends {d : Dinode} {Q : Unit → State → Prop}
    (hQ : ∀ t, Builds v (update f i d) t → t.freeinode = s.freeinode → t.freeblock = s.freeblock → Q () t) :
    Ends E (winode i d) Q s := by
  have hb : iblock sb i < fssize := by
    have := (sb_valid.iblock_bounds hi).2
    exact Nat.lt_trans this (by decide)
  refine ends_bind.mpr (h.rsect_ends hb (ends_modify (hQ _ ⟨h.tracks.putInode sb_valid hi d, ?_, h.used, h.fresh, h.low,
    h.high⟩ rfl rfl)))
  rw [h.sectors]
  exact Nat.max_eq_left hb

end Inodes

/-! ## The address of a block -/

theorem nextBlock_ends {s : State} {E : Exit → Prop} {Q : Nat → State → Prop}
    (hQ : Q s.freeblock { s with freeblock := s.freeblock + 1 }) : Ends E nextBlock Q s :=
  ends_get_bind (ends_modify_bind (ends_pure hQ))

def taken (v : Volume) (i k : Nat) : Nat :=
  (if v.addr i k = 0 then 1 else 0) + if ndirect ≤ k ∧ v.indirectOf i = 0 then 1 else 0

section BlockOf

variable {v : Volume} {f : Nat → Dinode} {s : State} {E : Exit → Prop} {i k : Nat} (h : Builds v f s)
  (ho : v.Owned sb) (hi : v.Live sb i)
include h

theorem toNat_full (hroom : ¬s.freeblock < fssize) : (BitVec.ofNat 32 s.freeblock).toNat = fssize := by
  have := h.high
  rw [show s.freeblock = fssize by omega]
  rfl

omit h in
theorem toNat_next (hroom : s.freeblock < fssize) : (BitVec.ofNat 32 s.freeblock).toNat = s.freeblock :=
  Volume.toNat_ofNat_block (Nat.lt_trans hroom (by decide))

theorem freeblock_ne_zero : s.freeblock ≠ 0 :=
  Nat.ne_of_gt (Nat.lt_of_lt_of_le (by decide) h.low)

theorem addrOrNext_ends {k : Fin (ndirect + 1)} {Q : Dinode × Nat → State → Prop}
    (hold : (v.inode i).addrs k ≠ 0 → Q (v.inode i, ((v.inode i).addrs k).toNat) s)
    (hnew : (v.inode i).addrs k = 0 → s.freeblock < fssize →
      Q (((v.alloc s.freeblock).setAddr i k (.ofNat 32 s.freeblock)).inode i, s.freeblock)
        { s with freeblock := s.freeblock + 1 })
    (hfull : (v.inode i).addrs k = 0 → ¬s.freeblock < fssize → ∀ r t, t.sectors = fssize → r.2 = fssize → Q r t) :
    Ends E (addrOrNext (v.inode i) k) Q s := by
  refine ends_ite (fun h0 => ends_bind.mpr (nextBlock_ends (ends_pure ?_))) fun hne => ends_pure (hold hne)
  by_cases hroom : s.freeblock < fssize
  · rw [toNat_next hroom]
    have hq := hnew h0 hroom
    rwa [Volume.setAddr, Volume.setInode_self] at hq
  · exact hfull h0 hroom _ _ h.sectors (toNat_full h hroom)

include ho hi

theorem entryOrNext_ends (hx : v.indirectOf i ≠ 0) (hlow : ndirect ≤ k) (hk : k < maxfile) {Q : Nat → State → Prop}
    (hold : v.addr i k ≠ 0 → Q (v.addr i k) s)
    (hnew : v.addr i k = 0 → s.freeblock < fssize → ∀ v' t, v.Mapped sb v' i k s.freeblock → v'.Owned sb →
      Builds v' f t → v'.inode = v.inode → t.freeinode = s.freeinode → t.freeblock = s.freeblock + 1 →
      Q s.freeblock t)
    (hfull : v.addr i k = 0 → ¬s.freeblock < fssize → ∀ t, t.sectors = fssize → Q fssize t) :
    Ends E (entryOrNext (v.indirectOf i) (k - ndirect)) Q s := by
  have hin := ho.indirect_inData hi hx
  have haddr := Volume.addr_of_le hlow hx
  have hbelow : v.indirectOf i < s.freeblock := by
    have := ho.indirect_used hi hx
    rwa [h.used, decide_eq_true_eq] at this
  refine ends_bind.mpr (h.rsect_ends hin.2 ?_)
  rw [← h.data hin]
  refine ends_ite (fun h0 => ?_) fun hne => ends_pure ?_
  · have hzero : v.addr i k = 0 := by rw [haddr, h0]; rfl
    refine ends_bind.mpr (nextBlock_ends ?_)
    by_cases hroom : s.freeblock < fssize
    · have hword : s.freeblock < 2 ^ 32 := Nat.lt_trans hroom (by decide)
      have hpos := freeblock_ne_zero h
      refine ends_bind.mpr ((h.alloc hroom).wsect_ends hin (Nat.lt_succ_of_lt hbelow) fun t ht hti htb => ends_pure ?_)
      have hdata : (v.alloc s.freeblock).data (v.indirectOf i) = v.data (v.indirectOf i) :=
        update_of_ne (Nat.ne_of_lt hbelow) ..
      rw [toNat_next hroom]
      rw [← hdata] at ht
      exact hnew hzero hroom _ t (Volume.mapped_content ho (h.inData hroom) hpos hword h.free hi hx hlow hzero)
        (Volume.owned_content ho (h.inData hroom) hpos hword h.free hi hx hlow hk hzero) ht rfl hti htb
    · refine ends_modify_bind (ends_pure ?_)
      rw [toNat_full h hroom]
      refine hfull hzero hroom _ ?_
      rw [h.sectors]
      exact Nat.max_eq_left hin.2
  · rw [← haddr]
    refine hold fun h0 => hne ?_
    rw [haddr] at h0
    exact BitVec.eq_of_toNat_eq h0

theorem blockOf_ends (hk : k < maxfile) {Q : Dinode × Nat → State → Prop}
    (hQ : ∀ a v' t, v.Mapped sb v' i k a → v'.Owned sb → Builds v' f t →
      (v'.indirectOf i ≠ 0 ↔ v.indirectOf i ≠ 0 ∨ ndirect ≤ k) → t.freeinode = s.freeinode →
      t.freeblock = s.freeblock + taken v i k → Q (v'.inode i, a) t)
    (hfull : fssize < s.freeblock + taken v i k → ∀ r t, t.sectors = fssize → r.2 = fssize → Q r t)
    (hE : fssize < s.freeblock + taken v i k → ∀ e, E e) :
    Ends E (blockOf (v.inode i) k) Q s := by
  unfold blockOf
  split
  case isTrue hlow =>
    have haddr := Volume.addr_of_lt (v := v) (i := i) hlow
    have hnot : ¬ndirect ≤ k := Nat.not_le.mpr hlow
    have htaken : taken v i k = if v.addr i k = 0 then 1 else 0 := by simp [taken, hnot]
    by_cases hzero : v.addr i k = 0
    · have h0 : (v.inode i).addrs ⟨k, Nat.lt_succ_of_lt hlow⟩ = 0 := by
        rw [haddr] at hzero
        exact BitVec.eq_of_toNat_eq hzero
      rw [htaken, if_pos hzero] at hQ hfull
      refine addrOrNext_ends h (fun hne => absurd h0 hne) (fun _ hroom => ?_) fun _ hroom => hfull (by omega)
      have hword : s.freeblock < 2 ^ 32 := Nat.lt_trans hroom (by decide)
      have hpos := freeblock_ne_zero h
      have hm := Volume.mapped_direct ho (h.inData hroom) hpos hword h.free hlow hzero
      refine hQ _ _ _ hm (Volume.owned_direct ho (h.inData hroom) hpos hword h.free hi hlow hzero)
        ((h.alloc hroom).setInode _ _) ?_ rfl rfl
      rw [Volume.setAddr_indirectOf, if_neg (fun he => Volume.direct_ne_indirect hlow he.2), Volume.alloc_indirectOf]
      simp [hnot]
    · have hne : (v.inode i).addrs ⟨k, Nat.lt_succ_of_lt hlow⟩ ≠ 0 := by
        intro h0
        rw [haddr, h0] at hzero
        exact hzero rfl
      refine addrOrNext_ends h (fun _ => ?_) (fun h0 => absurd h0 hne) fun h0 => absurd h0 hne
      rw [← haddr]
      refine hQ _ _ _ (.refl hzero) ho h ?_ rfl ?_
      · simp [hnot]
      · rw [htaken, if_neg hzero, Nat.add_zero]
  case isFalse hlow =>
    have hge : ndirect ≤ k := Nat.not_lt.mp hlow
    refine ends_bind.mpr (addrOrNext_ends h (fun hne => ?_) (fun h0 hroom => ?_) fun h0 hroom r t ht hr => ?_)
    · have hx : v.indirectOf i ≠ 0 := fun h0 => hne (BitVec.eq_of_toNat_eq h0)
      have htaken : taken v i k = if v.addr i k = 0 then 1 else 0 := by simp [taken, hx]
      rw [htaken] at hQ hfull
      refine ends_bind.mpr (entryOrNext_ends h ho hi hx hge hk (fun hold => ends_pure ?_)
        (fun hzero hroom v' t hm hov hb hinode hti htb => ends_pure ?_) fun hzero hroom t ht => ends_pure ?_)
      · rw [if_neg hold] at hQ
        exact hQ _ v s (.refl hold) ho h (by simp [hge, hx]) rfl rfl
      · rw [if_pos hzero] at hQ
        rw [← hinode]
        refine hQ _ v' t hm hov hb ?_ hti htb
        rw [Volume.indirectOf_congr hinode]
        simp [hge, hx]
      · rw [if_pos hzero] at hfull
        exact hfull (by omega) _ t ht rfl
    · -- The file gets its indirect block, and then its first block there.
      have hzero : v.indirectOf i = 0 := by rw [Volume.indirectOf, h0]; rfl
      have haddr := Volume.addr_of_indirectOf_zero hzero hge
      have htaken : taken v i k = 2 := by simp [taken, haddr, hge, hzero]
      rw [htaken] at hQ hfull
      have hword : s.freeblock < 2 ^ 32 := Nat.lt_trans hroom (by decide)
      have hpos := freeblock_ne_zero h
      have hindexed := Volume.indexed_indirect ho (h.inData hroom) hpos hword h.free hzero
      have howned := Volume.owned_indirect ho (h.inData hroom) hpos hword h.free hi hzero
      have hind : ((v.alloc s.freeblock).setAddr i indirect (.ofNat 32 s.freeblock)).indirectOf i = s.freeblock := by
        rw [Volume.setAddr_indirectOf, if_pos ⟨rfl, rfl⟩, Volume.toNat_ofNat_block hword]
      have hsame := hindexed.addr i k hi
      have hbuilds : Builds ((v.alloc s.freeblock).setAddr i indirect (.ofNat 32 s.freeblock)) f _ :=
        (h.alloc hroom).setInode i _
      have hentry := entryOrNext_ends (E := E) (k := k) hbuilds howned
        ((hindexed.live i).mpr hi) hindexed.here hge hk
        (Q := fun x t =>
          Ends E (pure (((v.alloc s.freeblock).setAddr i indirect (.ofNat 32 s.freeblock)).inode i, x)) Q t)
        (fun hold => absurd (hsame.trans haddr) hold)
        (fun _ _ v' t hm hov hb hinode hti htb => ends_pure ?_) fun _ hroom' t ht => ends_pure ?_
      · rw [hind] at hentry
        exact ends_bind.mpr hentry
      · rw [← hinode]
        refine hQ _ v' t (hindexed.mapped hm hi hge) hov hb ?_ hti htb
        rw [Volume.indirectOf_congr hinode, hind]
        simp [hge, hpos]
      · refine hfull ?_ _ t ht rfl
        change ¬s.freeblock + 1 < fssize at hroom'
        omega
    · have hzero : v.indirectOf i = 0 := by rw [Volume.indirectOf, h0]; rfl
      have htaken : taken v i k = 2 := by
        simp [taken, Volume.addr_of_indirectOf_zero hzero hge, hge, hzero]
      refine ends_bind.mpr (ends_bind.mpr (rsect_behind ht (Nat.le_of_eq hr.symm) (hE ?_)))
      have := h.high
      omega

end BlockOf

/-! ## Appending -/

structure Exact (v : Volume) (i len : Nat) : Prop where
  addr : ∀ k < maxfile, v.addr i k ≠ 0 ↔ k * bsize < len
  ind : v.indirectOf i ≠ 0 ↔ ndirect * bsize < len

theorem Exact.congr {v v' : Volume} {i len : Nat} (h : Exact v i len) (haddr : ∀ k < maxfile, v'.addr i k = v.addr i k)
    (hind : v'.indirectOf i = v.indirectOf i) : Exact v' i len :=
  ⟨fun k hk => by rw [haddr k hk, h.addr k hk], by rw [hind, h.ind]⟩

theorem blocks_add {off n : Nat} (hn : 0 < n) (hfit : off % bsize + n ≤ bsize) :
    blocks (off + n) = blocks off +
      ((if off % bsize = 0 then 1 else 0) + if off = ndirect * bsize then 1 else 0) := by
  have hdata : (off + n + (bsize - 1)) / bsize = (off + (bsize - 1)) / bsize + if off % bsize = 0 then 1 else 0 := by
    by_cases h0 : off % bsize = 0
    · rw [if_pos h0]
      simp only [bsize] at h0 hfit ⊢
      omega
    · rw [if_neg h0]
      simp only [bsize] at h0 hfit ⊢
      omega
  have hind : (if ndirect * bsize < off + n then 1 else 0) =
      (if ndirect * bsize < off then 1 else 0) + if off = ndirect * bsize then 1 else 0 := by
    have hconst : ndirect * bsize = 6144 := rfl
    have hsize : bsize = 512 := rfl
    rw [hsize] at hfit
    rw [hconst]
    rcases Nat.lt_trichotomy off 6144 with hlt | heq | hgt
    · rw [if_neg (by omega), if_neg (by omega), if_neg (by omega)]
    · rw [if_pos (by omega), if_neg (by omega), if_pos heq]
    · rw [if_pos (by omega), if_pos hgt, if_neg (by omega)]
  unfold blocks
  rw [hdata, hind]
  omega

section Exact

variable {v : Volume} {i off : Nat} (h : Exact v i off)
include h

theorem Exact.addr_eq_zero (hk : off / bsize < maxfile) : v.addr i (off / bsize) = 0 ↔ off % bsize = 0 := by
  have haddr : ¬v.addr i (off / bsize) = 0 ↔ off / bsize * bsize < off := h.addr _ hk
  rw [← not_iff_not, haddr]
  simp only [bsize]
  omega

theorem Exact.indirect_next : ndirect ≤ off / bsize ∧ v.indirectOf i = 0 ↔ off = ndirect * bsize := by
  have hind : v.indirectOf i = 0 ↔ ¬ndirect * bsize < off := by
    rw [← h.ind, not_ne_iff]
  rw [hind]
  simp only [ndirect, bsize]
  omega

theorem Exact.taken (hk : off / bsize < maxfile) {n : Nat} (hn : 0 < n) (hfit : off % bsize + n ≤ bsize) :
    blocks (off + n) = blocks off + taken v i (off / bsize) := by
  rw [blocks_add hn hfit, Mkfs.taken]
  simp only [h.addr_eq_zero hk, h.indirect_next]

end Exact

section Wrote

variable {v v' : Volume} {i off : Nat} {bs : List Byte}

theorem Exact.wrote (h : Exact v i off) (hw : v.Wrote sb v' i off bs) (hi : v.Live sb i) (hpos : 0 < bs.length)
    (hind : v'.indirectOf i ≠ 0 ↔ ndirect * bsize < off + bs.length) : Exact v' i (off + bs.length) := by
  refine ⟨fun k hk => ?_, hind⟩
  by_cases hc : Volume.Covers off bs.length k
  · exact iff_of_true (hw.here k hc) hc.2.1
  · rw [hw.addr i k hi hk (.inr (.inr hc)), h.addr k hk]
    simp only [Volume.Covers, bsize] at hc ⊢
    omega

theorem Exact.wrote_other {j len : Nat} (h : Exact v j len) (hw : v.Wrote sb v' i off bs) (hj : v.Live sb j)
    (hne : j ≠ i) : Exact v' j len :=
  h.congr (fun k hk => hw.addr j k hj hk (.inl hne)) (by rw [Volume.indirectOf, hw.other j hne, Volume.indirectOf])

end Wrote

theorem piece_eq (off n : Nat) : min n ((off / bsize + 1) * bsize - off) = piece off n := by
  simp only [piece, bsize]
  omega

theorem rest_eq (off : Nat) : off - off / bsize * bsize = off % bsize := by
  simp only [bsize]
  omega

theorem assert_ends {E : Exit → Prop} {c : Prop} [Decidable c] {Q : Unit → State → Prop} {s : State} (h : c → Q () s)
    (hE : ¬c → E .assertion) : Ends E (assert c) Q s :=
  ends_ite (fun hc => ends_pure (h hc)) fun hc => ends_stop (hE hc)

def Short (s : State) (off len : Nat) : Prop := maxfile * bsize < len ∨ fssize < s.freeblock + (blocks len - blocks off)

theorem appendBlocks_ends {E : Exit → Prop} {f : Nat → Dinode} {i : Nat} {Q : Dinode × Nat → State → Prop} :
    ∀ (fuel : Nat) (s : State) (v : Volume) (off : Nat) (p : List Byte), p.length ≤ fuel → Builds v f s → v.Owned sb →
    v.Live sb i → Exact v i off → off ≤ maxfile * bsize → (Short s off (off + p.length) → ∀ e, E e) →
    (∀ v' t, v.Wrote sb v' i off p → Exact v' i (off + p.length) → v'.Owned sb → Builds v' f t →
      off + p.length ≤ maxfile * bsize → t.freeinode = s.freeinode →
      t.freeblock = s.freeblock + (blocks (off + p.length) - blocks off) → Q (v'.inode i, off + p.length) t) →
    Ends E (appendBlocks fuel (v.inode i) off p) Q s := by
  intro fuel
  induction fuel with
  | zero =>
    intro s v off p hfuel h ho hi hx hmax _ hQ
    obtain rfl : p = [] := List.length_eq_zero_iff.mp (by omega)
    exact ends_pure (hQ v s .refl hx ho h hmax rfl (by simp))
  | succ fuel ih =>
    intro s v off p hfuel h ho hi hx hmax hE hQ
    by_cases h0 : p.length = 0
    · obtain rfl : p = [] := List.length_eq_zero_iff.mp h0
      exact ends_pure (hQ v s .refl hx ho h hmax rfl (by simp))
    · rw [appendBlocks, if_neg h0]
      dsimp only
      rw [piece_eq, rest_eq]
      have hle := piece_le off p.length
      have hpos := piece_pos off h0
      have hlen : (p.take (piece off p.length)).length = piece off p.length := by
        rw [List.length_take]
        omega
      have hrest : (p.drop (piece off p.length)).length = p.length - piece off p.length := List.length_drop
      have hfit := piece_fits off p.length
      refine ends_bind.mpr (assert_ends (fun hk => ?_) fun hno => hE (.inl ?_) _)
      · have htaken := hx.taken hk hpos hfit
        have hmono : blocks (off + piece off p.length) ≤ blocks (off + p.length) := blocks_mono (by omega)
        have hshort : fssize < s.freeblock + taken v i (off / bsize) → Short s off (off + p.length) :=
          fun hfull => .inr (by omega)
        refine ends_bind.mpr (blockOf_ends h ho hi hk (fun a v₁ t hm ho₁ h₁ hind hti htb => ?_)
          (fun hfull r t ht hr => ?_) fun hfull => hE (hshort hfull))
        · have hi₁ : v₁.Live sb i := (hm.live i).mpr hi
          have hne : v₁.addr i (off / bsize) ≠ 0 := hm.here ▸ hm.pos
          have hin : sb.InData a := hm.here ▸ ho₁.addr_inData hi₁ hk hne
          have hused : a < t.freeblock := by
            have := ho₁.addr_used hi₁ hk hne
            rwa [hm.here, h₁.used, decide_eq_true_eq] at this
          refine ends_bind.mpr (h₁.rsect_ends hin.2 (ends_bind.mpr ?_))
          rw [← h₁.data hin]
          refine h₁.wsect_ends hin hused fun u hu hui hub => ?_
          have hw := hm.wrote ho₁ hi hk rfl (by rw [hlen]; exact hpos) (by rw [hlen]; exact hfit)
          have hsplit : off + piece off p.length + (p.drop (piece off p.length)).length = off + p.length := by
            rw [hrest]
            omega
          have hx' := hx.wrote hw hi (by rw [hlen]; exact hpos) (by
            have hstart := hx.ind
            rw [hlen]
            refine hind.trans ?_
            rw [hstart]
            simp only [ndirect, bsize] at hfit ⊢
            omega)
          rw [hlen] at hx'
          refine ih u (v₁.setData a (writeBytes (v₁.data a) (off % bsize) (p.take (piece off p.length))))
            (off + piece off p.length) _ (by rw [hrest]; omega) hu (hm.owned_setData ho₁ hi hk _)
            ((hw.live i).mpr hi) hx' ?_ (fun hbad => hE ?_) fun v' t' hw' hx'' ho' h' hmax' hti' htb' => ?_
          · simp only [bsize] at hk hfit ⊢
            omega
          · unfold Short at hbad ⊢
            rw [hsplit] at hbad
            omega
          · rw [hsplit] at hx'' hmax' htb' ⊢
            have htrans := hw.trans (by rw [hlen]; exact hw') hi (by rw [hlen, hsplit]; exact hmax')
            rw [List.take_append_drop] at htrans
            exact hQ v' t' htrans hx'' ho' h' hmax' (by rw [hti', hui, hti]) (by omega)
        · obtain ⟨din, x⟩ := r
          exact ends_bind.mpr (rsect_behind ht (Nat.le_of_eq hr.symm) (hE (hshort hfull)))
      · have : maxfile * bsize ≤ off := Nat.not_lt.mp fun hlt => hno ((Nat.div_lt_iff_lt_mul (by decide)).mpr hlt)
        omega

/-! ## `iappend` -/

section Iappend

variable {v : Volume} {s : State} {E : Exit → Prop} {i : Nat} {p : List Byte} (h : Builds v v.inode s) (ho : v.Owned sb)
  (hi : v.Live sb i) (hx : Exact v i (v.inode i).size.toNat) (hmax : (v.inode i).size.toNat ≤ maxfile * bsize)
include h ho hi hx hmax

theorem iappend_ends {Q : Unit → State → Prop}
    (hE : Short s (v.inode i).size.toNat ((v.inode i).size.toNat + p.length) → ∀ e, E e)
    (hQ : ∀ v' t, v.Updated sb v' i (v.inode i).size.toNat p → Exact v' i (v'.inode i).size.toNat →
      (∀ j len, j ≠ i → v.Live sb j → Exact v j len → Exact v' j len) → v'.Owned sb → Builds v' v'.inode t →
      (v'.inode i).size.toNat = (v.inode i).size.toNat + p.length →
      (v'.inode i).size.toNat ≤ maxfile * bsize → t.freeinode = s.freeinode →
      t.freeblock = s.freeblock + (blocks (v'.inode i).size.toNat - blocks (v.inode i).size.toNat) → Q () t) :
    Ends E (iappend i p) Q s := by
  refine ends_bind.mpr (rinode_ends h hi.1 ?_)
  refine ends_bind.mpr (appendBlocks_ends p.length s v _ p (Nat.le_refl _) h ho hi hx hmax hE
    fun u t hw hxu hou hu hmax' hti htb => ?_)
  refine winode_ends hu hi.1 fun t' ht' hti' htb' => ?_
  have hsize : (BitVec.ofNat 32 ((v.inode i).size.toNat + p.length)).toNat = (v.inode i).size.toNat + p.length :=
    Volume.toNat_ofNat_block (Nat.lt_of_le_of_lt hmax' (by decide))
  have hself :
      ((u.setInode i { u.inode i with size := .ofNat 32 ((v.inode i).size.toNat + p.length) }).inode i).size.toNat =
        (v.inode i).size.toNat + p.length := by rw [Volume.setInode_self, hsize]
  have haddr := Volume.addr_setInode (v := u) (i := i)
    (d := { u.inode i with size := .ofNat 32 ((v.inode i).size.toNat + p.length) }) rfl
  have hind := Volume.indirectOf_setInode (v := u) (i := i)
    (d := { u.inode i with size := .ofNat 32 ((v.inode i).size.toNat + p.length) }) rfl
  refine hQ (u.setInode i { u.inode i with size := .ofNat 32 ((v.inode i).size.toNat + p.length) }) t'
    ⟨u, _, hw, hou, rfl, rfl, ?_⟩ ?_ (fun j len hne hj hxj => ?_) (hou.setInode rfl rfl) ?_ hself ?_ (hti'.trans hti) ?_
  · rw [hsize]
    omega
  · rw [hself]
    exact hxu.congr (fun k _ => haddr i k) (hind i)
  · exact (hxj.wrote_other hw hj hne).congr (fun k _ => haddr j k) (hind j)
  · refine ⟨(ht'.tracks.setInode i _).congr_inode fun j _ => ?_, ht'.sectors, ht'.used, ht'.fresh, ht'.low, ht'.high⟩
    by_cases hj : j = i
    · rw [hj, update_self]
      exact (Volume.setInode_self ..).symm
    · rw [update_of_ne hj]
      exact ((Volume.setInode_of_ne hj _).trans (hw.other j hj)).symm
  · rw [hself]
    exact hmax'
  · rw [hself, htb', htb]

end Iappend

end Xv6.Mkfs
