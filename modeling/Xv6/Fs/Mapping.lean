import Xv6.Fs.Volume

/-!
# Blocks of files

How addresses change when a block is put in a place, and what `bmap` may do to a volume.
-/

open Function Xv6.Bytes Xv6.Log Xv6.Ownership

namespace Xv6.Fs.Volume

variable {sb : Superblock} {v v' : Volume} {i j k m b : Nat}

/-! ## A free block is put in a place -/

theorem used_alloc (c : Nat) : update v.used b true c = true ↔ c = b ∨ v.used c = true := by
  by_cases hc : c = b
  · simp [hc]
  · simp [hc]

theorem Owned.kept_alloc (h : Owned sb v) (hused : v'.used = update v.used b true) (c : Nat)
    (hc : c < sb.datastart) : v'.used c = true := by
  rw [hused, used_alloc]
  exact .inr (h.kept c hc)

theorem data_eq_iff {hk : k < maxfile} {hm : m < maxfile} : Place.data i ⟨k, hk⟩ = .data j ⟨m, hm⟩ ↔ j = i ∧ m = k := by
  simp [eq_comm]

theorem Owned.take {l : Place} (h : Owned sb v) (hb : sb.InData b) (hpos : b ≠ 0) (hfree : v.used b = false)
    (hi : v.Live sb l.inum) (hl : v.holds sb l = none) (hused : v'.used = update v.used b true)
    (hlive : ∀ j, v'.Live sb j ↔ v.Live sb j)
    (haddr : ∀ j m, v.Live sb j → ∀ hm, v'.addr j m = if l = .data j ⟨m, hm⟩ then b else v.addr j m)
    (hind : ∀ j, v.Live sb j → v'.indirectOf j = if l = .indirect j then b else v.indirectOf j) : Owned sb v' := by
  refine ⟨h.owns.take (l := l) hb hfree (fun c _ => by rw [hused]; exact used_alloc c) hl fun p => ?_,
    h.kept_alloc hused⟩
  by_cases hp : v.Live sb p.inum
  · by_cases he : l = p
    · cases p with
      | data j m => simp [holds, hlive, haddr j m hp m.isLt, he, hpos, show v.Live sb j from hp]
      | indirect j => simp [holds, hlive, hind j hp, he, hpos, show v.Live sb j from hp]
    · cases p with
      | data j m => simp [holds, hlive, haddr j m hp m.isLt, he, Ne.symm he]
      | indirect j => simp [holds, hlive, hind j hp, he, Ne.symm he]
  · have hne : p ≠ l := fun he => hp (he ▸ hi)
    cases p with
    | data j m => simp [holds, hlive, hne, show ¬v.Live sb j from hp]
    | indirect j => simp [holds, hlive, hne, show ¬v.Live sb j from hp]

/-! ## Addresses after a change -/

@[simp] theorem alloc_indirectOf : (v.alloc b).indirectOf j = v.indirectOf j := rfl

@[simp] theorem setData_indirectOf (blk : Block) : (v.setData b blk).indirectOf j = v.indirectOf j := rfl

@[simp] theorem setData_self (blk : Block) : (v.setData b blk).data b = blk := update_self ..

theorem Owned.addr_alloc (h : Owned sb v) (hfree : v.used b = false) (hj : v.Live sb j) :
    (v.alloc b).addr j m = v.addr j m :=
  addr_congr v (v.alloc b) rfl (fun hx => update_of_ne (h.indirect_ne_free hfree hj hx) ..) m

theorem Owned.data_alloc (h : Owned sb v) (hfree : v.used b = false) (hj : v.Live sb j) (hm : m < maxfile)
    (ha : v.addr j m ≠ 0) : (v.alloc b).data (v.addr j m) = v.data (v.addr j m) :=
  update_of_ne (h.addr_ne_free hfree hj hm ha) ..

theorem setAddr_of_ne (hj : j ≠ i) (k : Fin (ndirect + 1)) (a : Word) : (v.setAddr i k a).inode j = v.inode j :=
  setInode_of_ne hj _

theorem setAddr_live (k : Fin (ndirect + 1)) (a : Word) : (v.setAddr i k a).Live sb j ↔ v.Live sb j := by
  by_cases hj : j = i
  · subst hj
    exact live_congr (by simp [setAddr])
  · exact live_congr (by rw [setAddr_of_ne hj])

theorem setAddr_indirectOf (k : Fin (ndirect + 1)) (a : Word) :
    (v.setAddr i k a).indirectOf j = if j = i ∧ k = indirect then a.toNat else v.indirectOf j := by
  by_cases hj : j = i
  · subst hj
    by_cases hk : k = indirect
    · simp [indirectOf, setAddr, hk]
    · simp [indirectOf, setAddr, hk, update_of_ne (Ne.symm hk)]
  · simp [indirectOf, setAddr_of_ne hj, hj]

theorem direct_ne_indirect (hk : k < ndirect) :
    (⟨k, Nat.lt_succ_of_lt hk⟩ : Fin (ndirect + 1)) ≠ indirect := by
  intro he
  exact absurd (congrArg Fin.val he) (Nat.ne_of_lt hk)

theorem addr_setAddr_direct (hk : k < ndirect) (a : Word) :
    (v.setAddr i ⟨k, Nat.lt_succ_of_lt hk⟩ a).addr j m = if j = i ∧ m = k then a.toNat else v.addr j m := by
  by_cases hj : j = i
  · subst hj
    have hne := direct_ne_indirect hk
    simp only [addr, setAddr_indirectOf, hne, and_false, if_false, setAddr_data, true_and]
    by_cases hm : m < ndirect
    · by_cases hmk : m = k
      · subst hmk
        simp [hm, setAddr]
      · simp [hm, hmk, setAddr, update, Fin.ext_iff]
    · have hmk : m ≠ k := by omega
      simp [hm, hmk]
  · simp only [hj, false_and, if_false]
    exact addr_congr v _ (congrArg Dinode.addrs (setAddr_of_ne hj _ a)) (fun _ => rfl) m

theorem addr_setAddr_indirect (h0 : v.indirectOf i = 0) (a : Word) (hzero : v.data a.toNat = fun _ => 0) :
    (v.setAddr i indirect a).addr j m = v.addr j m := by
  by_cases hj : j = i
  · subst hj
    by_cases hm : m < ndirect
    · simp [addr, hm, setAddr, update_of_ne (direct_ne_indirect hm)]
    · have hind : (v.setAddr j indirect a).indirectOf j = a.toNat := by simp [setAddr_indirectOf]
      rw [addr, dif_neg hm, hind, setAddr_data, hzero, addr, dif_neg hm, if_pos h0]
      split
      · rfl
      · rfl
  · exact addr_congr v _ (congrArg Dinode.addrs (setAddr_of_ne hj _ a)) (fun _ => rfl) m

theorem addr_putAddr (hi : v.indirectOf i ≠ 0) (hk : ndirect ≤ k) (a : Word)
    (hj : v.indirectOf j = v.indirectOf i → j = i) :
    (v.setData (v.indirectOf i) (putAddr (v.data (v.indirectOf i)) (k - ndirect) a)).addr j m =
      if j = i ∧ m = k then a.toNat else v.addr j m := by
  by_cases hji : j = i
  · subst hji
    by_cases hm : m < ndirect
    · have hmk : m ≠ k := by omega
      simp [addr, hm, hmk]
    · have hmk : m - ndirect = k - ndirect ↔ m = k := by omega
      rw [addr, dif_neg hm, setData_indirectOf, if_neg hi, setData_self, getAddr_putAddr, addr, dif_neg hm, if_neg hi]
      by_cases he : m = k
      · simp [he]
      · simp [he, hmk]
  · simp only [hji, false_and, if_false]
    exact addr_congr v (v.setData (v.indirectOf i) _) rfl
      (fun _ => update_of_ne (fun he => hji (hj he)) ..) m

/-! ## What `bmap` does -/

theorem addr_of_lt (hk : k < ndirect) :
    v.addr i k = ((v.inode i).addrs ⟨k, Nat.lt_succ_of_lt hk⟩).toNat := by
  rw [addr, dif_pos hk]

theorem addr_of_le (hk : ndirect ≤ k) (hx : v.indirectOf i ≠ 0) :
    v.addr i k = (getAddr (v.data (v.indirectOf i)) (k - ndirect)).toNat := by
  rw [addr, dif_neg (Nat.not_lt.mpr hk), if_neg hx]

theorem addr_of_indirectOf_zero (h0 : v.indirectOf i = 0) (hk : ndirect ≤ k) : v.addr i k = 0 := by
  rw [addr, dif_neg (Nat.not_lt.mpr hk), if_pos h0]

/-- The blocks that `bmap` takes. -/
def cost (v : Volume) (i k : Nat) : Nat :=
  (if v.addr i k = 0 then 1 else 0) + if v.indirectOf i = 0 ∧ ndirect ≤ k then 1 else 0

theorem cost_of_ne_zero (h : v.addr i k ≠ 0) : v.cost i k = 0 := by
  rw [cost, if_neg h, if_neg fun hc => h (addr_of_indirectOf_zero hc.1 hc.2)]

structure Mapped (sb : Superblock) (v v' : Volume) (i k a : Nat) : Prop where
  other : ∀ j, j ≠ i → v'.inode j = v.inode j
  same : v'.inode i = { v.inode i with addrs := (v'.inode i).addrs }
  here : v'.addr i k = a
  pos : a ≠ 0
  ind : v.indirectOf i ≠ 0 ∨ k < ndirect → v'.indirectOf i = v.indirectOf i
  addr : ∀ j m, v.Live sb j → m < maxfile → (j ≠ i ∨ m ≠ k) → v'.addr j m = v.addr j m
  data : ∀ j m, v.Live sb j → m < maxfile → v.addr j m ≠ 0 → v'.data (v.addr j m) = v.data (v.addr j m)
  still : v.addr i k ≠ 0 → v' = v
  free : v.free sb = v'.free sb + v.cost i k

theorem Mapped.refl (h : v.addr i k ≠ 0) : Mapped sb v v i k (v.addr i k) :=
  ⟨fun _ _ => rfl, rfl, rfl, h, fun _ => rfl, fun _ _ _ _ _ => rfl, fun _ _ _ _ _ => rfl, fun _ => rfl,
    by rw [cost_of_ne_zero h, Nat.add_zero]⟩

theorem one_le_cost (h : v.addr i k = 0) : 1 ≤ v.cost i k := by
  rw [cost, if_pos h]
  omega

/-- The indirect block of inode `i` is there now. -/
structure Indexed (sb : Superblock) (v v' : Volume) (i : Nat) : Prop where
  other : ∀ j, j ≠ i → v'.inode j = v.inode j
  same : v'.inode i = { v.inode i with addrs := (v'.inode i).addrs }
  here : v'.indirectOf i ≠ 0
  addr : ∀ j m, v.Live sb j → v'.addr j m = v.addr j m
  data : ∀ j m, v.Live sb j → m < maxfile → v.addr j m ≠ 0 → v'.data (v.addr j m) = v.data (v.addr j m)
  still : v.indirectOf i ≠ 0 → v' = v
  free : v.free sb = v'.free sb + if v.indirectOf i = 0 then 1 else 0

theorem live_of_same (hother : ∀ j, j ≠ i → v'.inode j = v.inode j)
    (hsame : v'.inode i = { v.inode i with addrs := (v'.inode i).addrs }) (j : Nat) :
    v'.Live sb j ↔ v.Live sb j := by
  apply live_congr
  by_cases hj : j = i
  · rw [hj, hsame]
  · rw [hother j hj]

theorem Indexed.live (h : Indexed sb v v' i) (j : Nat) : v'.Live sb j ↔ v.Live sb j :=
  live_of_same h.other h.same j

theorem Mapped.live {a : Nat} (h : Mapped sb v v' i k a) (j : Nat) : v'.Live sb j ↔ v.Live sb j :=
  live_of_same h.other h.same j

theorem Mapped.indirectOf_ne_zero {a : Nat} (h : Mapped sb v v' i k a) (hk : ndirect ≤ k) : v'.indirectOf i ≠ 0 := by
  intro h0
  have haddr := addr_of_indirectOf_zero h0 hk
  rw [h.here] at haddr
  exact h.pos haddr

theorem Indexed.cost (h : Indexed sb v v' i) (hi : v.Live sb i) (hk : ndirect ≤ k) :
    v.cost i k = (if v.indirectOf i = 0 then 1 else 0) + v'.cost i k := by
  rw [Volume.cost, Volume.cost, h.addr i k hi, if_neg (c := v'.indirectOf i = 0 ∧ _) fun hc => h.here hc.1]
  simp only [hk, and_true, Nat.add_zero]
  exact Nat.add_comm ..

theorem Indexed.mapped {v'' : Volume} {a : Nat} (h : Indexed sb v v' i) (h' : Mapped sb v' v'' i k a)
    (hi : v.Live sb i) (hk : ndirect ≤ k) : Mapped sb v v'' i k a := by
  refine ⟨fun j hj => ?_, ?_, h'.here, h'.pos, fun hx => ?_, fun j m hj hm hne => ?_, fun j m hj hm ha => ?_,
    fun hne => ?_, ?_⟩
  · rw [h'.other j hj, h.other j hj]
  · rw [h'.same, h.same]
  · rw [h'.ind (.inl h.here), h.still (hx.resolve_right (Nat.not_lt.mpr hk))]
  · rw [h'.addr j m ((h.live j).mpr hj) hm hne, h.addr j m hj]
  · have he := h.addr j m hj
    rw [← h.data j m hj hm ha, ← he]
    exact h'.data j m ((h.live j).mpr hj) hm (he ▸ ha)
  · have hx : v.indirectOf i ≠ 0 := fun h0 => hne (addr_of_indirectOf_zero h0 hk)
    rw [h'.still (by rwa [h.addr i k hi]), h.still hx]
  · rw [h.free, h'.free, h.cost hi hk]
    omega

theorem setAddr_same (k : Fin (ndirect + 1)) (a : Word) :
    (v.setAddr i k a).inode i = { v.inode i with addrs := ((v.setAddr i k a).inode i).addrs } := by
  simp [setAddr]

section Take

variable (h : Owned sb v) (hb : sb.InData b) (hpos : b ≠ 0) (hword : b < 2 ^ 32) (hfree : v.used b = false)
  (hi : v.Live sb i)
include h hpos hword hfree hi

omit hfree hi h hpos in
theorem toNat_ofNat_block : (BitVec.ofNat 32 b).toNat = b := by
  rw [BitVec.toNat_ofNat, Nat.mod_eq_of_lt hword]

include hb in
omit hi in
theorem mapped_direct (hk : k < ndirect) (h0 : v.addr i k = 0) :
    Mapped sb v ((v.alloc b).setAddr i ⟨k, Nat.lt_succ_of_lt hk⟩ (.ofNat 32 b)) i k b := by
  refine ⟨fun j hj => setAddr_of_ne hj _ _, setAddr_same _ _, ?_, hpos, fun _ => ?_, fun j m hj hm hne => ?_,
    fun j m hj hm ha => h.data_alloc hfree hj hm ha, fun hne => absurd h0 hne, ?_⟩
  · rw [addr_setAddr_direct hk, if_pos ⟨rfl, rfl⟩, toNat_ofNat_block hword]
  · rw [setAddr_indirectOf, if_neg (fun he => direct_ne_indirect hk he.2), alloc_indirectOf]
  · rw [addr_setAddr_direct hk, if_neg (by omega), h.addr_alloc hfree hj]
  · rw [free_alloc hb.2 hfree, cost, if_pos h0, if_neg fun hc => absurd hk (Nat.not_lt.mpr hc.2)]
    rfl

include hb in
theorem owned_direct (hk : k < ndirect) (h0 : v.addr i k = 0) :
    Owned sb ((v.alloc b).setAddr i ⟨k, Nat.lt_succ_of_lt hk⟩ (.ofNat 32 b)) := by
  have hmax : k < maxfile := Nat.lt_of_lt_of_le hk (Nat.le_add_right _ _)
  refine h.take (l := .data i ⟨k, hmax⟩) hb hpos hfree hi (by simp [holds, h0]) rfl (fun j => setAddr_live _ _)
    (fun j m hj hm => ?_) fun j hj => ?_
  · rw [addr_setAddr_direct hk, toNat_ofNat_block hword, h.addr_alloc hfree hj, if_congr data_eq_iff rfl rfl]
  · rw [setAddr_indirectOf, if_neg (fun he => direct_ne_indirect hk he.2), alloc_indirectOf, if_neg (by simp)]

omit hpos hi in
theorem addr_indirect (h0 : v.indirectOf i = 0) (hj : v.Live sb j) :
    ((v.alloc b).setAddr i indirect (.ofNat 32 b)).addr j m = v.addr j m := by
  rw [addr_setAddr_indirect (v := v.alloc b) h0, h.addr_alloc hfree hj]
  rw [toNat_ofNat_block hword]
  exact update_self ..

include hb in
omit hi in
theorem indexed_indirect (h0 : v.indirectOf i = 0) :
    Indexed sb v ((v.alloc b).setAddr i indirect (.ofNat 32 b)) i := by
  refine ⟨fun j hj => setAddr_of_ne hj _ _, setAddr_same _ _, ?_, fun j m hj => addr_indirect h hword hfree h0 hj,
    fun j m hj hm ha => h.data_alloc hfree hj hm ha, fun hne => absurd h0 hne, ?_⟩
  · rw [setAddr_indirectOf, if_pos ⟨rfl, rfl⟩, toNat_ofNat_block hword]
    exact hpos
  · rw [free_alloc hb.2 hfree, if_pos h0]
    rfl

include hb in
theorem owned_indirect (h0 : v.indirectOf i = 0) :
    Owned sb ((v.alloc b).setAddr i indirect (.ofNat 32 b)) := by
  refine h.take (l := .indirect i) hb hpos hfree hi (by simp [holds, h0]) rfl (fun j => setAddr_live _ _)
    (fun j m hj _ => ?_) fun j hj => ?_
  · rw [addr_indirect h hword hfree h0 hj, if_neg (by simp)]
  · rw [setAddr_indirectOf, toNat_ofNat_block hword]
    simp [eq_comm]

variable (hx : v.indirectOf i ≠ 0) (hk : ndirect ≤ k) (hmax : k < maxfile) (h0 : v.addr i k = 0)
include hx hk

omit hpos in
theorem addr_content (hj : v.Live sb j) :
    ((v.alloc b).setData (v.indirectOf i)
      (putAddr ((v.alloc b).data (v.indirectOf i)) (k - ndirect) (.ofNat 32 b))).addr j m =
      if j = i ∧ m = k then b else v.addr j m := by
  have hinj : (v.alloc b).indirectOf j = (v.alloc b).indirectOf i → j = i :=
    fun he => (h.indirect_inj hi hj hx he.symm).symm
  have haddr := addr_putAddr (v := v.alloc b) (m := m) hx hk (.ofNat 32 b) hinj
  rwa [toNat_ofNat_block hword, h.addr_alloc hfree hj] at haddr

include hb h0 in
theorem mapped_content :
    Mapped sb v ((v.alloc b).setData (v.indirectOf i)
      (putAddr ((v.alloc b).data (v.indirectOf i)) (k - ndirect) (.ofNat 32 b))) i k b := by
  refine ⟨fun _ _ => rfl, rfl, ?_, hpos, fun _ => rfl, fun j m hj hm hne => ?_, fun j m hj hm ha => ?_,
    fun hne => absurd h0 hne, ?_⟩
  · rw [addr_content h hword hfree hi hx hk hi, if_pos ⟨rfl, rfl⟩]
  · rw [addr_content h hword hfree hi hx hk hj, if_neg (by omega)]
  · rw [← h.data_alloc hfree hj hm ha]
    exact update_of_ne (h.addr_ne_indirect hj hm hi ha) ..
  · rw [free_alloc hb.2 hfree, cost, if_pos h0, if_neg fun hc => hx hc.1]
    rfl

include hb h0 hmax in
theorem owned_content :
    Owned sb ((v.alloc b).setData (v.indirectOf i)
      (putAddr ((v.alloc b).data (v.indirectOf i)) (k - ndirect) (.ofNat 32 b))) :=
  h.take (l := .data i ⟨k, hmax⟩) hb hpos hfree hi (by simp [holds, h0]) rfl (fun _ => Iff.rfl)
    (fun _ _ hj _ => (addr_content h hword hfree hi hx hk hj).trans (if_congr data_eq_iff.symm rfl rfl)) fun _ _ => rfl

end Take

end Xv6.Fs.Volume
