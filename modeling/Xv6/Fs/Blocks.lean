import Xv6.Fs.Content

/-!
# Code that works on blocks

Code that changes blocks takes the volume on disk to the next one, or stops because the disk or the log is full.
-/

open Function Xv6.Bytes Xv6.Log Xv6.Code

namespace Xv6.Fs

def Full (e : Fail) : Prop := e = .panic .outOfBlocks ∨ ∃ l, e = .panic (.log l)

/-- `E` has the panics of the log, and that of `balloc` unless there are enough free blocks. -/
structure Allows (E : Fail → Prop) (sb : Superblock) (v : Volume) (need : Nat) : Prop where
  log : ∀ l, E (.panic (.log l))
  blocks : v.free sb < need → E (.panic .outOfBlocks)

section Allows

variable {E : Fail → Prop} {sb : Superblock} {v v' : Volume} {a need rest : Nat}

theorem Allows.later (h : Allows E sb v need) (hfree : v.free sb = v'.free sb + a) (hneed : a + rest ≤ need) :
    Allows E sb v' rest :=
  ⟨h.log, fun hlt => h.blocks (by omega)⟩

theorem Allows.less (h : Allows E sb v need) (hneed : rest ≤ need) : Allows E sb v rest :=
  h.later (Nat.add_zero _).symm (by omega)

end Allows

/-! ## A disk holds a volume -/

/-- The disk holds the volume, with `f` on the place of its inodes. -/
structure Tracks (sb : Superblock) (v : Volume) (f : Nat → Dinode) (disk : Disk) : Prop where
  super : getSuperblock (disk 1) = sb
  used : ∀ b < sb.size, v.used b = marked sb disk b
  data : ∀ b, sb.InData b → v.data b = disk b
  inode : ∀ i < sb.ninodes, getInode sb disk i = f i

namespace Tracks

variable {sb : Superblock} {v : Volume} {f : Nat → Dinode} {disk : Disk} (h : Tracks sb v f disk) (hv : sb.Valid)
include h hv

theorem setData {b : Nat} (hb : sb.InData b) (blk : Block) :
    Tracks sb (v.setData b blk) f (update disk b blk) := by
  have hlow : sb.bmapstart < b := lt_of_lt_of_le hv.bmapstart_lt hb.1
  refine ⟨?_, fun c hc => ?_, fun c hc => ?_, fun i hi => ?_⟩
  · rw [update_of_ne]
    · exact h.super
    · have := hv.lt_bmapstart
      omega
  · have hne : bblock sb c ≠ b := by
      have := (hv.bblock_bounds hc).2
      have := hb.1
      omega
    rw [marked_congr (update_of_ne hne ..)]
    exact h.used c hc
  · by_cases he : c = b
    · rw [he, Volume.setData_self, update_self]
    · rw [update_of_ne he, ← h.data c hc]
      exact update_of_ne he ..
  · have hne : iblock sb i ≠ b := by
      have := (hv.iblock_bounds hi).2
      omega
    rw [getInode_congr (update_of_ne hne ..)]
    exact h.inode i hi

theorem setUsed {b : Nat} (hb : b < sb.size) (blk : Block) (used : Nat → Bool)
    (hused : ∀ c < sb.size, used c = marked sb (update disk (bblock sb b) blk) c) :
    Tracks sb { v with used := used } f (update disk (bblock sb b) blk) := by
  obtain ⟨hlo, hhi⟩ := hv.bblock_bounds hb
  refine ⟨?_, hused, fun c hc => ?_, fun i hi => ?_⟩
  · rw [update_of_ne]
    · exact h.super
    · have := hv.lt_bmapstart
      omega
  · rw [update_of_ne]
    · exact h.data c hc
    · have := hc.1
      omega
  · have hne : iblock sb i ≠ bblock sb b := by
      have := (hv.iblock_bounds hi).2
      omega
    rw [getInode_congr (update_of_ne hne ..)]
    exact h.inode i hi

theorem alloc {b : Nat} (hb : sb.InData b) :
    Tracks sb (v.alloc b) f
      (update (update disk (bblock sb b) (setBit (disk (bblock sb b)) (b % bpb))) b fun _ => 0) := by
  refine (h.setUsed hv hb.2 _ (update v.used b true) fun c hc => ?_).setData hv hb _
  rw [marked_setBit, ← h.used c hc]
  by_cases he : c = b
  · simp [he]
  · simp [he]

theorem putInode {i : Nat} (hi : i < sb.ninodes) (d : Dinode) :
    Tracks sb v (update f i d) (update disk (iblock sb i) (putInode sb disk i d)) := by
  obtain ⟨hlo, hhi⟩ := hv.iblock_bounds hi
  have hdata := hv.bmapstart_lt
  refine ⟨?_, fun c hc => ?_, fun c hc => ?_, fun j hj => ?_⟩
  · rw [update_of_ne]
    · exact h.super
    · omega
  · have hne : bblock sb c ≠ iblock sb i := by
      have := (hv.bblock_bounds hc).1
      omega
    rw [marked_congr (update_of_ne hne ..)]
    exact h.used c hc
  · rw [update_of_ne]
    · exact h.data c hc
    · have := hc.1
      omega
  · rw [getInode_putInode]
    by_cases he : j = i
    · simp [he]
    · simp [he, h.inode j hj]

omit hv in
theorem setInode (i : Nat) (d : Dinode) : Tracks sb (v.setInode i d) f disk := ⟨h.super, h.used, h.data, h.inode⟩

omit hv in
theorem congr_inode {g : Nat → Dinode} (hg : ∀ i < sb.ninodes, f i = g i) : Tracks sb v g disk :=
  ⟨h.super, h.used, h.data, fun i hi => by rw [h.inode i hi, hg i hi]⟩

end Tracks

/-! ## The volume on a disk -/

def stored (sb : Superblock) (disk : Disk) : Volume := ⟨getInode sb disk, marked sb disk, disk⟩

theorem tracks_stored {sb : Superblock} {disk : Disk} (h : getSuperblock (disk 1) = sb) :
    Tracks sb (stored sb disk) (stored sb disk).inode disk :=
  ⟨h, fun _ _ => rfl, fun _ _ => rfl, fun _ _ => rfl⟩

section Stored

variable {sb : Superblock} {v : Volume} {disk : Disk} (h : Tracks sb v v.inode disk)
include h

theorem Tracks.live_stored (i : Nat) : (stored sb disk).Live sb i ↔ v.Live sb i := by
  refine and_congr_right fun hi => ?_
  rw [← h.inode i hi]
  rfl

theorem Tracks.indirectOf_stored {i : Nat} (hi : v.Live sb i) : (stored sb disk).indirectOf i = v.indirectOf i := by
  have hinode : (stored sb disk).inode i = v.inode i := h.inode i hi.1
  rw [Volume.indirectOf, hinode, Volume.indirectOf]

theorem Tracks.addr_stored (ho : v.Owned sb) {i : Nat} (hi : v.Live sb i) (k : Nat) :
    (stored sb disk).addr i k = v.addr i k := by
  refine Volume.addr_congr v (stored sb disk) (congrArg Dinode.addrs (h.inode i hi.1)) (fun hx => ?_) k
  exact (h.data _ (ho.indirect_inData hi hx)).symm

theorem Tracks.free_stored : (stored sb disk).free sb = v.free sb := by
  rw [Volume.free, Volume.free]
  congr 1
  refine Finset.filter_congr fun b hb => ?_
  rw [h.used b (Finset.mem_range.mp hb)]
  rfl

theorem Tracks.missing_stored (ho : v.Owned sb) {i : Nat} (hi : v.Live sb i) (off n : Nat) :
    (stored sb disk).missing i off n = v.missing i off n := by
  rw [Volume.missing, Volume.missing, h.indirectOf_stored hi]
  simp only [h.addr_stored ho hi]

theorem Tracks.byte_stored (ho : v.Owned sb) {i x : Nat} (hi : v.Live sb i) (hx : x / bsize < maxfile)
    (hne : v.addr i (x / bsize) ≠ 0) : (stored sb disk).byte i x = v.byte i x := by
  rw [Volume.byte, h.addr_stored ho hi, Volume.byte, h.data _ (ho.addr_inData hi hx hne)]
  rfl

theorem Tracks.owned_stored (hv : sb.Valid) (ho : v.Owned sb) : (stored sb disk).Owned sb := by
  refine ⟨ho.owns.congr (fun b hb => (h.used b hb.2).symm) (Volume.holds_congr h.live_stored
    (fun i k hi _ => h.addr_stored ho hi k) fun i hi => h.indirectOf_stored hi), fun b hb => ?_⟩
  rw [← ho.kept b hb]
  exact (h.used b (lt_of_lt_of_le hb hv.size)).symm

theorem Tracks.solid_stored (hv : sb.Valid) (hs : v.Solid sb) : (stored sb disk).Solid sb := by
  refine ⟨h.owned_stored hv hs.toOwned, fun i hi hd k hk => ?_⟩
  have hinode : (stored sb disk).inode i = v.inode i := h.inode i hi.1
  rw [h.live_stored] at hi
  rw [h.addr_stored hs.toOwned hi]
  rw [hinode] at hd hk
  exact hs.noHoles i hi hd k hk

end Stored

/-! ## States after a change -/

variable {P : Type}

def State.wrote (s : State P) (disk : Disk) (log : LogState) (lg : List Nat) : State P :=
  { s with disk := disk, log := log, logged := s.logged ++ lg }

def State.setCopy (s : State P) (ip : Iptr) (d : Dinode) : State P :=
  { s with icache := update s.icache ip { s.icache ip with copy := d } }

section State

variable (s : State P) (ip : Iptr) (d d' : Dinode) (disk disk' : Disk) (log log' : LogState) (lg lg' : List Nat)

theorem wrote_wrote : (s.wrote disk log lg).wrote disk' log' lg' = s.wrote disk' log' (lg ++ lg') := by
  simp [State.wrote]

theorem wrote_self : s.wrote s.disk s.log [] = s := by
  simp [State.wrote]

theorem setCopy_setCopy : (s.setCopy ip d).setCopy ip d' = s.setCopy ip d' := by
  simp [State.setCopy]

theorem setCopy_self (h : (s.icache ip).copy = d) : s.setCopy ip d = s := by
  subst h
  simp [State.setCopy]

@[simp] theorem setCopy_copy : ((s.setCopy ip d).icache ip).copy = d := by
  simp [State.setCopy]

theorem setCopy_of_ne {jp : Iptr} (h : jp ≠ ip) : (s.setCopy ip d).icache jp = s.icache jp := update_of_ne h ..

@[simp] theorem setCopy_inum (jp : Iptr) : ((s.setCopy ip d).icache jp).inum = (s.icache jp).inum := by
  by_cases h : jp = ip
  · simp [h, State.setCopy]
  · rw [setCopy_of_ne s ip d h]

@[simp] theorem setCopy_wrote : (s.setCopy ip d).wrote disk log lg = (s.wrote disk log lg).setCopy ip d := rfl

end State

/-! ## The primitives -/

variable {E : Fail → Prop} {s : State P} {sb : Superblock} {v : Volume} {f : Nat → Dinode}

section Primitives

variable (hE : ∀ l, E (.panic (.log l)))
include hE

theorem logWrite_ends {b : Nat} {Q : Unit → State P → Prop}
    (hQ : ∀ log, Q () (s.wrote s.disk log [b])) : Ends E (logWrite b) Q s := by
  refine ends_get_bind ?_
  cases logCheck s.sb.nlog s.log with
  | some e => exact ends_stop (hE e)
  | none => exact ends_modify (hQ _)

theorem setBuf_logWrite_ends {b : Nat} {blk : Block} {Q : Unit → State P → Prop}
    (hQ : ∀ log, Q () (s.wrote (update s.disk b blk) log [b])) :
    Ends E (do setBuf b blk; logWrite b) Q s :=
  ends_modify_bind (logWrite_ends hE hQ)

end Primitives

theorem balloc_ends (hE : Allows E sb v 1) (hsb : s.sb = sb) (hv : sb.Valid) (ht : Tracks sb v f s.disk)
    (ho : v.Owned sb) {Q : Nat → State P → Prop}
    (hQ : ∀ b disk log, v.used b = false → sb.InData b → Tracks sb (v.alloc b) f disk →
      Q b (s.wrote disk log [bblock sb b, b])) : Ends E balloc Q s := by
  subst hsb
  refine ends_get_bind ?_
  cases hfind : (List.range s.sb.size).find? fun b => !marked s.sb s.disk b with
  | none =>
    refine ends_stop (hE.blocks (Nat.lt_one_iff.mpr (Volume.free_eq_zero fun b hb => ?_)))
    rw [ht.used b hb]
    simpa using List.find?_eq_none.mp hfind b (List.mem_range.mpr hb)
  | some b =>
    have hb : b < s.sb.size := List.mem_range.mp (List.mem_of_find?_eq_some hfind)
    have hfree : v.used b = false := by
      rw [ht.used b hb]
      simpa using List.find?_some hfind
    have hin := ho.inData_of_free hb hfree
    refine ends_modify_bind (ends_bind.mpr (logWrite_ends hE.log fun log => ?_))
    refine ends_bind.mpr (setBuf_logWrite_ends hE.log fun log' => ends_pure ?_)
    rw [wrote_wrote]
    exact hQ b _ log' hfree hin (ht.alloc hv hin)

theorem inodeAt_ends {α : Type} {ip : Iptr} {g : Inode → Prog P α} {Q : α → State P → Prop}
    (h : Ends E (g (s.icache ip)) Q s) : Ends E (inodeAt ip >>= g) Q s :=
  ends_bind.mpr (ends_get_bind (ends_pure h))

theorem onCopy_ends {ip : Iptr} {g : Dinode → Dinode} {Q : Unit → State P → Prop}
    (h : Q () (s.setCopy ip (g (s.icache ip).copy))) : Ends E (onCopy ip g) Q s :=
  ends_modify h

theorem iupdate_ends (hE : ∀ l, E (.panic (.log l))) {ip : Iptr} (hsb : s.sb = sb) (hv : sb.Valid)
    (ht : Tracks sb v f s.disk) (hin : (s.icache ip).inum < sb.ninodes) {Q : Unit → State P → Prop}
    (hQ : ∀ disk log, Tracks sb v (update f (s.icache ip).inum (s.icache ip).copy) disk →
      Q () (s.wrote disk log [iblock sb (s.icache ip).inum])) : Ends E (iupdate ip) Q s := by
  subst hsb
  exact ends_get_bind (setBuf_logWrite_ends hE fun log => hQ _ log (ht.putInode hv hin _))

theorem block_bounds (hv : sb.Valid) {b : Nat} (hb : sb.InData b) : b ≠ 0 ∧ b < 2 ^ 32 := by
  have hlow := hb.1
  have hhigh := hb.2
  have hstart := hv.bmapstart_lt
  have hint := hv.int.1
  omega

/-! ## `bmap` -/

def MapLog (sb : Superblock) (v v' : Volume) (i k a : Nat) (lg : List Nat) : Prop :=
  ∀ c, c ∈ lg ↔ v.addr i k = 0 ∧ (c = a ∨ c = bblock sb a ∨
    ndirect ≤ k ∧ (c = v'.indirectOf i ∨ v.indirectOf i = 0 ∧ c = bblock sb (v'.indirectOf i)))

section Bmap

variable {ip : Iptr} {i k : Nat} (hsb : s.sb = sb) (hv : sb.Valid) (ht : Tracks sb v f s.disk) (ho : v.Owned sb)
  (hi : v.Live sb i) (hcopy : (s.icache ip).copy = v.inode i)
include hsb hv ht ho hcopy

theorem addrOrAlloc_ends {k : Fin (ndirect + 1)} (hE : (v.inode i).addrs k = 0 → Allows E sb v 1)
    {Q : Nat → State P → Prop}
    (hold : (v.inode i).addrs k ≠ 0 → Q ((v.inode i).addrs k).toNat s)
    (hnew : (v.inode i).addrs k = 0 → ∀ b disk log, v.used b = false → sb.InData b → b ≠ 0 → b < 2 ^ 32 →
      Tracks sb (v.alloc b) f disk →
      Q b ((s.wrote disk log [bblock sb b, b]).setCopy ip (((v.alloc b).setAddr i k (.ofNat 32 b)).inode i))) :
    Ends E (addrOrAlloc ip k) Q s := by
  refine inodeAt_ends ?_
  rw [hcopy]
  refine ends_ite (fun h0 => ?_) fun hne => ends_pure (hold hne)
  refine ends_bind.mpr (balloc_ends (hE h0) hsb hv ht ho fun b disk log hfree hin htr => ?_)
  obtain ⟨hpos, hword⟩ := block_bounds hv hin
  have hq := hnew h0 b disk log hfree hin hpos hword htr
  simp only [Volume.setAddr, Volume.setInode_self, Volume.alloc_inode, ← hcopy] at hq
  exact ends_modify_bind (ends_pure hq)

include hi

omit hcopy in
theorem content_ends (hE : Allows E sb v (v.cost i k)) (hx : v.indirectOf i ≠ 0) (hlow : ndirect ≤ k) (hk : k < maxfile)
    {Q : Nat → State P → Prop} (hold : v.addr i k ≠ 0 → Q (v.addr i k) s)
    (hnew : v.addr i k = 0 → ∀ b v' disk log, v.Mapped sb v' i k b → v'.Owned sb → Tracks sb v' f disk →
      v'.inode = v.inode → Q b (s.wrote disk log [bblock sb b, b, v.indirectOf i])) :
    Ends E (do
      let s ← get
      let a := getAddr (s.disk (v.indirectOf i)) (k - ndirect)
      if a = 0 then do
        let b ← balloc
        let s ← get
        setBuf (v.indirectOf i) (putAddr (s.disk (v.indirectOf i)) (k - ndirect) (.ofNat 32 b))
        logWrite (v.indirectOf i)
        pure b
      else pure a.toNat) Q s := by
  have hin := ho.indirect_inData hi hx
  have haddr := Volume.addr_of_le hlow hx
  rw [ht.data _ hin] at haddr
  refine ends_get_bind (ends_ite (fun h0 => ?_) fun hne => ends_pure ?_)
  · have hzero : v.addr i k = 0 := by rw [haddr, h0]; rfl
    refine ends_bind.mpr (balloc_ends (hE.less (Volume.one_le_cost hzero)) hsb hv ht ho
      fun b disk log hfree hb htr => ?_)
    obtain ⟨hpos, hword⟩ := block_bounds hv hb
    refine ends_get_bind (ends_modify_bind (ends_bind.mpr (logWrite_ends hE.log fun log' => ends_pure ?_)))
    have hdata := htr.data _ hin
    have hq := hnew hzero b _ _ log' (Volume.mapped_content ho hb hpos hword hfree hi hx hlow hzero)
      (Volume.owned_content ho hb hpos hword hfree hi hx hlow hk hzero) (htr.setData hv hin _) rfl
    rw [hdata] at hq
    exact (wrote_wrote s disk _ log log' _ _).symm ▸ hq
  · rw [← haddr]
    refine hold fun h0 => hne ?_
    rw [haddr] at h0
    exact BitVec.eq_of_toNat_eq h0

omit hsb hv in
theorem bmap_found (hk : k < maxfile) (hne : v.addr i k ≠ 0) {Q : Nat → State P → Prop} (hQ : Q (v.addr i k) s) :
    Ends E (bmap ip k) Q s := by
  unfold bmap
  split
  case isTrue hlow =>
    have haddr := Volume.addr_of_lt (v := v) (i := i) hlow
    have hset : (v.inode i).addrs ⟨k, Nat.lt_succ_of_lt hlow⟩ ≠ 0 := by
      intro h0
      rw [haddr, h0] at hne
      exact hne rfl
    refine inodeAt_ends ?_
    rw [hcopy, if_neg hset, ← haddr]
    exact ends_pure hQ
  case isFalse hlow =>
    have hge : ndirect ≤ k := Nat.not_lt.mp hlow
    have hx : v.indirectOf i ≠ 0 := fun h0 => hne (Volume.addr_of_indirectOf_zero h0 hge)
    have hset : (v.inode i).addrs indirect ≠ 0 := by
      intro h0
      rw [Volume.indirectOf, h0] at hx
      exact hx rfl
    have haddr := Volume.addr_of_le hge hx
    rw [ht.data _ (ho.indirect_inData hi hx)] at haddr
    have hentry : getAddr (s.disk (v.indirectOf i)) (k - ndirect) ≠ 0 := by
      intro h0
      rw [haddr, h0] at hne
      exact hne rfl
    rw [if_pos (by unfold maxfile at hk; omega)]
    refine ends_bind.mpr (inodeAt_ends ?_)
    rw [hcopy, if_neg hset]
    refine ends_pure (ends_get_bind (ends_ite (fun h0 => absurd h0 hentry) fun _ => ends_pure ?_))
    rw [haddr] at hQ
    exact hQ

theorem bmap_cases (hE : Allows E sb v (v.cost i k)) (hk : k < maxfile) {Q : Nat → State P → Prop}
    (hold : v.addr i k ≠ 0 → Q (v.addr i k) s)
    (hnew : v.addr i k = 0 → ∀ a v' disk log lg, v.Mapped sb v' i k a → v'.Owned sb → Tracks sb v' f disk →
      MapLog sb v v' i k a lg → Q a ((s.wrote disk log lg).setCopy ip (v'.inode i))) :
    Ends E (bmap ip k) Q s := by
  unfold bmap
  split
  case isTrue hlow =>
    have haddr := Volume.addr_of_lt (v := v) (i := i) hlow
    refine addrOrAlloc_ends hsb hv ht ho hcopy (fun h0 => hE.less (Volume.one_le_cost (by rw [haddr, h0]; rfl)))
      (fun hne => ?_) fun h0 b disk log hfree hb hpos hword htr => ?_
    · rw [← haddr]
      refine hold fun h0 => hne ?_
      rw [haddr] at h0
      exact BitVec.eq_of_toNat_eq h0
    · have hzero : v.addr i k = 0 := by rw [haddr, h0]; rfl
      refine hnew hzero b _ disk log _ (Volume.mapped_direct ho hb hpos hword hfree hlow hzero)
        (Volume.owned_direct ho hb hpos hword hfree hi hlow hzero) (htr.setInode i _) fun c => ?_
      have hnot : ¬ndirect ≤ k := Nat.not_le.mpr hlow
      simp only [List.mem_cons, List.not_mem_nil, or_false, hzero, true_and, hnot, false_and]
      exact or_comm
  case isFalse hlow =>
    have hge : ndirect ≤ k := Nat.not_lt.mp hlow
    have hcontent : k - ndirect < nindirect := by
      unfold maxfile at hk
      omega
    rw [if_pos hcontent]
    have hnone : (v.inode i).addrs indirect = 0 → v.indirectOf i = 0 := fun h0 => by rw [Volume.indirectOf, h0]; rfl
    have hneed := fun h0 => hE.less (Volume.one_le_cost (Volume.addr_of_indirectOf_zero (hnone h0) hge))
    refine ends_bind.mpr (addrOrAlloc_ends hsb hv ht ho hcopy hneed (fun hne => ?_)
      fun h0 b disk log hfree hb hpos hword htr => ?_)
    · have hx : v.indirectOf i ≠ 0 := fun h0 => hne (BitVec.eq_of_toNat_eq h0)
      refine content_ends hsb hv ht ho hi hE hx hge hk hold fun hzero b v' disk log hm hov htr hinode => ?_
      have hq := hnew hzero b v' disk log [bblock sb b, b, v.indirectOf i] hm hov htr fun c => by
        have hsameind := Volume.indirectOf_congr hinode i
        simp only [List.mem_cons, List.not_mem_nil, or_false, hzero, hge, hx, hsameind, true_and, false_and]
        exact or_left_comm
      rw [hinode] at hq
      exact setCopy_self (s.wrote disk log [bblock sb b, b, v.indirectOf i]) ip (v.inode i) hcopy ▸ hq
    · have hzero := hnone h0
      have hindexed := Volume.indexed_indirect ho hb hpos hword hfree hzero
      have howned := Volume.owned_indirect ho hb hpos hword hfree hi hzero
      have hind : ((v.alloc b).setAddr i indirect (.ofNat 32 b)).indirectOf i = b := by
        rw [Volume.setAddr_indirectOf, if_pos ⟨rfl, rfl⟩, Volume.toNat_ofNat_block hword]
      have hcont := content_ends (v := (v.alloc b).setAddr i indirect (.ofNat 32 b)) (Q := Q) (k := k)
        (s := (s.wrote disk log [bblock sb b, b]).setCopy ip (((v.alloc b).setAddr i indirect (.ofNat 32 b)).inode i))
        hsb hv (htr.setInode i _) howned ((hindexed.live i).mpr hi)
          (hE.later hindexed.free (hindexed.cost hi hge).ge) hindexed.here hge hk (fun hne => absurd ?_ hne)
        fun h1 c v' disk' log' hm hov htr' hinode => ?_
      · rw [hind] at hcont
        exact hcont
      · rw [hindexed.addr i k hi]
        exact Volume.addr_of_indirectOf_zero hzero hge
      · have hind' : v'.indirectOf i = b := by
          rw [Volume.indirectOf_congr hinode, hind]
        have hq := hnew (Volume.addr_of_indirectOf_zero hzero hge) c v' disk' log'
          ([bblock sb b, b] ++ [bblock sb c, c, b])
          (hindexed.mapped hm hi hge) hov htr' fun e => by
            rw [hind', Volume.addr_of_indirectOf_zero hzero hge]
            simp only [List.cons_append, List.nil_append, List.mem_cons, List.not_mem_nil, or_false, hge, hzero,
              true_and]
            clear hold hnew
            grind
        rw [hind, setCopy_wrote, wrote_wrote, ← hinode]
        exact hq

theorem bmap_ends (hE : Allows E sb v (v.cost i k)) (hk : k < maxfile) {Q : Nat → State P → Prop}
    (hQ : ∀ a v' disk log lg, v.Mapped sb v' i k a → v'.Owned sb → Tracks sb v' f disk →
      MapLog sb v v' i k a lg → Q a ((s.wrote disk log lg).setCopy ip (v'.inode i))) :
    Ends E (bmap ip k) Q s := by
  refine bmap_cases hsb hv ht ho hi hcopy hE hk (fun hne => ?_) fun _ => hQ
  have hq := hQ _ v s.disk s.log [] (.refl hne) ho ht fun c => by simp [hne]
  rwa [wrote_self, setCopy_self s ip _ hcopy] at hq

end Bmap

end Xv6.Fs
