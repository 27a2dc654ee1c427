import Xv6.Fs.Mapping

/-!
# Content of files

The bytes that `writei` writes can be read, and all other bytes are as before.
-/

open Xv6.Bytes Xv6.Log Xv6.Ownership

namespace Xv6.Fs.Volume

variable {sb : Superblock} {v v' v'' : Volume} {i off : Nat} {bs : List Byte}

/-! ## Writing -/

def Covers (off n m : Nat) : Prop := 0 < n ∧ m * bsize < off + n ∧ off < (m + 1) * bsize

instance (off n m : Nat) : Decidable (Covers off n m) := inferInstanceAs (Decidable (_ ∧ _))

theorem covers_div {off n x : Nat} (hlo : off ≤ x) (hhi : x < off + n) : Covers off n (x / bsize) := by
  simp only [Covers, bsize]
  omega

theorem covers_append {off a b m : Nat} : Covers off (a + b) m ↔ Covers off a m ∨ Covers (off + a) b m := by
  simp only [Covers, bsize]
  omega

def touched (off n : Nat) : Finset Nat := {m ∈ Finset.range maxfile | Covers off n m}

theorem mem_touched {off n m : Nat} : m ∈ touched off n ↔ m < maxfile ∧ Covers off n m := by
  rw [touched, Finset.mem_filter, Finset.mem_range]

theorem mem_touched_append {off a b m : Nat} :
    m ∈ touched off (a + b) ↔ m ∈ touched off a ∨ m ∈ touched (off + a) b := by
  rw [mem_touched, mem_touched, mem_touched, covers_append, and_or_left]

/-- The blocks that a write takes. -/
def missing (v : Volume) (i off n : Nat) : Nat :=
  {m ∈ touched off n | v.addr i m = 0}.card +
    if v.indirectOf i = 0 ∧ ∃ m ∈ touched off n, ndirect ≤ m then 1 else 0

theorem missing_mono (v : Volume) {m n : Nat} (h : m ≤ n) : v.missing i off m ≤ v.missing i off n := by
  have hsub : touched off m ⊆ touched off n := fun x hx => by
    simp only [mem_touched, Covers] at hx ⊢
    omega
  refine Nat.add_le_add (Finset.card_le_card (Finset.filter_subset_filter _ hsub)) ?_
  split
  case isTrue hx =>
    obtain ⟨h0, k, hk, hlow⟩ := hx
    rw [if_pos ⟨h0, k, hsub hk, hlow⟩]
  case isFalse => exact Nat.zero_le _

theorem cost_le_missing {n k : Nat} (h : k ∈ touched off n) : v.cost i k ≤ v.missing i off n := by
  refine Nat.add_le_add ?_ ?_
  · split
    case isTrue h0 => exact Finset.card_pos.mpr ⟨k, Finset.mem_filter.mpr ⟨h, h0⟩⟩
    case isFalse => exact Nat.zero_le _
  · split
    case isTrue hx => rw [if_pos ⟨hx.1, k, h, hx.2⟩]
    case isFalse => exact Nat.zero_le _

theorem missing_one {n k : Nat} (hk : k < maxfile) (h : ∀ m, Covers off n m ↔ m = k) :
    v.missing i off n = v.cost i k := by
  have hset : touched off n = {k} := by
    ext m
    rw [mem_touched, h, Finset.mem_singleton]
    exact and_iff_right_of_imp fun hm => hm ▸ hk
  rw [missing, hset, Finset.filter_singleton, cost]
  simp only [Finset.mem_singleton, exists_eq_left]
  congr 1
  split <;> rfl

structure Wrote (sb : Superblock) (v v' : Volume) (i off : Nat) (bs : List Byte) : Prop where
  other : ∀ j, j ≠ i → v'.inode j = v.inode j
  same : v'.inode i = { v.inode i with addrs := (v'.inode i).addrs }
  addr : ∀ j m, v.Live sb j → m < maxfile → (j ≠ i ∨ v.addr j m ≠ 0 ∨ ¬Covers off bs.length m) →
    v'.addr j m = v.addr j m
  here : ∀ m, Covers off bs.length m → v'.addr i m ≠ 0
  ind : v.indirectOf i ≠ 0 ∨ (∀ m ∈ touched off bs.length, m < ndirect) → v'.indirectOf i = v.indirectOf i
  new : ∀ n (hn : n < bs.length), v'.byte i (off + n) = bs[n]
  old : ∀ j x, v.Live sb j → x / bsize < maxfile → v.addr j (x / bsize) ≠ 0 →
    (j ≠ i ∨ x < off ∨ off + bs.length ≤ x) → v'.byte j x = v.byte j x
  still : (∀ m, Covers off bs.length m → v.addr i m ≠ 0) → v'.inode i = v.inode i
  free : v.free sb = v'.free sb + v.missing i off bs.length

theorem Wrote.live (h : Wrote sb v v' i off bs) (j : Nat) : v'.Live sb j ↔ v.Live sb j :=
  live_of_same h.other h.same j

theorem Wrote.refl : Wrote sb v v i off [] :=
  ⟨fun _ _ => rfl, rfl, fun _ _ _ _ _ => rfl, fun _ hm => absurd hm.1 (Nat.lt_irrefl 0), fun _ => rfl,
    fun n hn => absurd hn (Nat.not_lt_zero n), fun _ _ _ _ _ _ => rfl, fun _ => rfl, by simp [missing, touched, Covers]⟩

/-- What the first write has taken, the second finds. -/
theorem Wrote.missing {n : Nat} (h : Wrote sb v v' i off bs) (hi : v.Live sb i) :
    v.missing i off (bs.length + n) = v.missing i off bs.length + v'.missing i (off + bs.length) n := by
  have hhere : ∀ m ∈ touched off bs.length, v'.addr i m ≠ 0 := fun m hm => h.here m (mem_touched.mp hm).2
  have hkeep : ∀ m, m < maxfile → m ∉ touched off bs.length → v'.addr i m = v.addr i m := fun m hm hnot =>
    h.addr i m hi hm (.inr (.inr fun hc => hnot (mem_touched.mpr ⟨hm, hc⟩)))
  have hset : {m ∈ touched off (bs.length + n) | v.addr i m = 0} =
      {m ∈ touched off bs.length | v.addr i m = 0} ∪ {m ∈ touched (off + bs.length) n | v'.addr i m = 0} := by
    ext m
    simp only [Finset.mem_union, Finset.mem_filter, mem_touched_append]
    by_cases hm : m ∈ touched off bs.length
    · simp [hm, hhere m hm]
    · simp only [hm, false_or, false_and]
      exact and_congr_right fun hm' => by rw [hkeep m (mem_touched.mp hm').1 hm]
  have hdisjoint : Disjoint {m ∈ touched off bs.length | v.addr i m = 0}
      {m ∈ touched (off + bs.length) n | v'.addr i m = 0} :=
    Finset.disjoint_left.mpr fun m hm hm' => hhere m (Finset.mem_filter.mp hm).1 (Finset.mem_filter.mp hm').2
  have hind : (if v.indirectOf i = 0 ∧ ∃ m ∈ touched off (bs.length + n), ndirect ≤ m then 1 else 0) =
      (if v.indirectOf i = 0 ∧ ∃ m ∈ touched off bs.length, ndirect ≤ m then 1 else 0) +
        if v'.indirectOf i = 0 ∧ ∃ m ∈ touched (off + bs.length) n, ndirect ≤ m then 1 else 0 := by
    simp only [mem_touched_append, or_and_right, exists_or]
    by_cases hhigh : ∃ m ∈ touched off bs.length, ndirect ≤ m
    · obtain ⟨m, hm, hlo⟩ := hhigh
      have hx : v'.indirectOf i ≠ 0 := fun h0 => hhere m hm (addr_of_indirectOf_zero h0 hlo)
      simp [hx, show ∃ m ∈ touched off bs.length, ndirect ≤ m from ⟨m, hm, hlo⟩]
    · have hlow : ∀ m ∈ touched off bs.length, m < ndirect := fun m hm => Nat.not_le.mp fun hlo => hhigh ⟨m, hm, hlo⟩
      simp [hhigh, h.ind (.inr hlow)]
  rw [Volume.missing, hset, Finset.card_union_of_disjoint hdisjoint, hind, Volume.missing, Volume.missing]
  omega

theorem Wrote.trans {cs : List Byte} (h : Wrote sb v v' i off bs) (h' : Wrote sb v' v'' i (off + bs.length) cs)
    (hi : v.Live sb i) (hmax : off + bs.length + cs.length ≤ maxfile * bsize) : Wrote sb v v'' i off (bs ++ cs) := by
  have hlen : (bs ++ cs).length = bs.length + cs.length := List.length_append
  have hkeep : ∀ j m, v.Live sb j → m < maxfile →
      (j ≠ i ∨ v.addr j m ≠ 0 ∨ ¬Covers off (bs ++ cs).length m) → v'.addr j m = v.addr j m := by
    intro j m hj hm hc
    refine h.addr j m hj hm ?_
    rw [hlen, covers_append] at hc
    tauto
  refine ⟨fun j hj => ?_, ?_, fun j m hj hm hc => ?_, fun m hm => ?_, fun hx => ?_, fun n hn => ?_,
    fun j x hj hx ha hc => ?_, fun hall => ?_, ?_⟩
  · rw [h'.other j hj, h.other j hj]
  · rw [h'.same, h.same]
  · have he := hkeep j m hj hm hc
    rw [h'.addr j m ((h.live j).mpr hj) hm, he]
    rw [hlen, covers_append] at hc
    rw [he]
    tauto
  · by_cases hcs : Covers (off + bs.length) cs.length m
    · exact h'.here m hcs
    · have hbs : Covers off bs.length m := by
        rw [hlen, covers_append] at hm
        tauto
      have hm : m < maxfile := by
        simp only [Covers, bsize] at hbs hmax
        omega
      rw [h'.addr i m ((h.live i).mpr hi) hm (.inr (.inl (h.here m hbs)))]
      exact h.here m hbs
  · rw [hlen] at hx
    have hlow := hx.imp_right fun hall m hm => hall m (mem_touched_append.mpr (.inl hm))
    rw [h'.ind ?_, h.ind hlow]
    refine hx.imp (fun hx => ?_) fun hall m hm => hall m (mem_touched_append.mpr (.inr hm))
    rwa [h.ind (.inl hx)]
  · by_cases hlt : n < bs.length
    · have hx : (off + n) / bsize < maxfile := by
        simp only [bsize] at hmax ⊢
        omega
      have hne := h.here _ (covers_div (Nat.le_add_right off n) (Nat.add_lt_add_left hlt off))
      rw [h'.old i _ ((h.live i).mpr hi) hx hne (by omega), h.new n hlt, List.getElem_append_left hlt]
    · have hn' : n - bs.length < cs.length := by omega
      have hnew := h'.new (n - bs.length) hn'
      rw [show off + bs.length + (n - bs.length) = off + n by omega] at hnew
      rw [hnew, List.getElem_append_right (by omega)]
  · have hne : v'.addr j (x / bsize) ≠ 0 := by rwa [hkeep j _ hj hx (.inr (.inl ha))]
    rw [h'.old j x ((h.live j).mpr hj) hx hne (by omega), h.old j x hj hx ha (by omega)]
  · have hbs : ∀ m, Covers off bs.length m → v.addr i m ≠ 0 := fun m hm => hall m (by
      rw [hlen, covers_append]
      exact .inl hm)
    rw [h'.still, h.still hbs]
    intro m hm
    have hlt : m < maxfile := by
      simp only [Covers, bsize] at hm hmax
      omega
    have hv := hall m (by rw [hlen, covers_append]; exact .inr hm)
    rwa [h.addr i m hi hlt (.inr (.inl hv))]
  · rw [h.free, h'.free, hlen, h.missing hi]
    omega

section Turn

variable {k a : Nat} (h : Mapped sb v v' i k a) (ho : Owned sb v') (hi : v.Live sb i) (hk : k < maxfile)
include h ho hi hk

theorem Mapped.addr_setData (blk : Block) (j m : Nat) (hj : v.Live sb j) :
    (v'.setData a blk).addr j m = v'.addr j m := by
  refine addr_congr v' (v'.setData a blk) rfl (fun _ => Function.update_of_ne ?_ ..) m
  rw [← h.here]
  exact Ne.symm (ho.addr_ne_indirect ((h.live i).mpr hi) hk ((h.live j).mpr hj) (h.here ▸ h.pos))

theorem Mapped.owned_setData (blk : Block) : Owned sb (v'.setData a blk) :=
  ho.congr rfl (fun _ => Iff.rfl) (fun j m hj _ => h.addr_setData ho hi hk blk j m ((h.live j).mp hj)) fun _ _ => rfl

omit ho hi hk in
theorem Mapped.addr_of_ne_zero (j m : Nat) (hj : v.Live sb j) (hm : m < maxfile) (ha : v.addr j m ≠ 0) :
    v'.addr j m = v.addr j m := by
  by_cases he : j ≠ i ∨ m ≠ k
  · exact h.addr j m hj hm he
  · obtain ⟨rfl, rfl⟩ : j = i ∧ m = k := by omega
    rw [h.still ha]

theorem Mapped.wrote (hoff : off / bsize = k) (hpos : 0 < bs.length) (hfit : off % bsize + bs.length ≤ bsize) :
    Wrote sb v (v'.setData a (writeBytes (v'.data a) (off % bsize) bs)) i off bs := by
  have hcover : ∀ m, Covers off bs.length m ↔ m = k := by
    intro m
    simp only [Covers, bsize] at hoff hfit ⊢
    omega
  refine ⟨h.other, h.same, fun j m hj hm hc => ?_, fun m hm => ?_,
    fun hx => h.ind (hx.imp_right fun hall => hall k (mem_touched.mpr ⟨hk, (hcover k).mpr rfl⟩)), fun n hn => ?_,
    fun j x hj hx ha hc => ?_, fun hall => ?_, by rw [missing_one hk hcover, h.free]; rfl⟩
  · rw [h.addr_setData ho hi hk _ j m hj]
    rw [hcover] at hc
    by_cases he : j ≠ i ∨ m ≠ k
    · exact h.addr j m hj hm he
    · exact h.addr_of_ne_zero j m hj hm (by tauto)
  · rw [hcover] at hm
    rw [hm, h.addr_setData ho hi hk _ i k hi, h.here]
    exact h.pos
  · have hdiv : (off + n) / bsize = k := by
      simp only [bsize] at hoff hfit ⊢
      omega
    have hmod : (off + n) % bsize = off % bsize + n := by
      simp only [bsize] at hoff hfit ⊢
      omega
    rw [byte, hdiv, hmod, h.addr_setData ho hi hk _ i k hi, h.here, setData_self]
    simpa using writeBytes_inside (v'.data a) (off % bsize) bs (spread_nat _) n hn
  · have haddr := h.addr_of_ne_zero j _ hj hx ha
    rw [byte, h.addr_setData ho hi hk _ j _ hj, haddr, byte]
    by_cases he : v.addr j (x / bsize) = a
    · obtain ⟨rfl, hdiv⟩ : j = i ∧ x / bsize = k := by
        refine ho.addr_inj ((h.live j).mpr hj) hx ((h.live i).mpr hi) hk (haddr ▸ ha) ?_
        rw [haddr, he, h.here]
      have hv : v' = v := h.still (hdiv ▸ ha)
      rw [he, setData_self, hv]
      apply writeBytes_outside
      intro n hn
      simp only [bsize, Nat.cast_id] at hoff hdiv hn hc ⊢
      omega
    · rw [← h.data j _ hj hx ha]
      exact congrFun (Function.update_of_ne he ..) _
  · rw [setData_inode, h.still (hall k ((hcover k).mpr rfl))]

end Turn

/-! ## Solid volumes -/

structure Solid (sb : Superblock) (v : Volume) : Prop extends Owned sb v where
  noHoles : ∀ i, v.Live sb i → (v.inode i).type ≠ tDev → ∀ k, k * bsize < (v.inode i).size.toNat →
    k < maxfile ∧ v.addr i k ≠ 0

section SetInode

variable {d : Dinode} (haddrs : d.addrs = (v.inode i).addrs) (htype : d.type = (v.inode i).type)

include haddrs in
theorem addr_setInode (j k : Nat) : (v.setInode i d).addr j k = v.addr j k := by
  refine addr_congr v (v.setInode i d) ?_ (fun _ => rfl) k
  by_cases hj : j = i
  · rw [hj, setInode_self, haddrs]
  · rw [setInode_of_ne hj]

include haddrs in
theorem indirectOf_setInode (j : Nat) : (v.setInode i d).indirectOf j = v.indirectOf j := by
  by_cases hj : j = i
  · rw [hj, indirectOf, setInode_self, indirectOf, haddrs]
  · rw [indirectOf, setInode_of_ne hj, indirectOf]

include haddrs in
theorem byte_setInode (j x : Nat) : (v.setInode i d).byte j x = v.byte j x := by
  rw [byte, addr_setInode haddrs, byte]
  rfl

include htype in
theorem type_setInode (j : Nat) : ((v.setInode i d).inode j).type = (v.inode j).type := by
  by_cases hj : j = i
  · rw [hj, setInode_self, htype]
  · rw [setInode_of_ne hj]

include haddrs htype in
theorem Owned.setInode (h : Owned sb v) : Owned sb (v.setInode i d) :=
  h.congr rfl (fun j => live_congr (type_setInode htype j)) (fun j k _ _ => addr_setInode haddrs j k)
    fun j _ => indirectOf_setInode haddrs j

end SetInode

/-! ## Solid volumes stay solid -/

section Wrote

variable (hw : Wrote sb v v' i off bs) (ho : Owned sb v') (hi : v.Live sb i) (hdev : (v.inode i).type ≠ tDev)
  (hoff : off ≤ (v.inode i).size.toNat) (hmax : off + bs.length ≤ maxfile * bsize) {d : Dinode}
  (haddrs : d.addrs = (v'.inode i).addrs) (htype : d.type = (v'.inode i).type)
  (hz : d.size.toNat = max (v.inode i).size.toNat (off + bs.length))

include hw htype in
theorem Wrote.live_setInode (j : Nat) : (v'.setInode i d).Live sb j ↔ v.Live sb j :=
  (live_congr (type_setInode htype j)).trans (hw.live j)

include hw ho hdev hoff hmax haddrs htype hz in
theorem Solid.wrote (h : Solid sb v) : Solid sb (v'.setInode i d) := by
  have hkeep : ∀ j k, v.Live sb j → (v.inode j).type ≠ tDev → k * bsize < (v.inode j).size.toNat →
      k < maxfile ∧ v'.addr j k ≠ 0 := by
    intro j k hj hd hk
    obtain ⟨hlt, hne⟩ := h.noHoles j hj hd k hk
    exact ⟨hlt, by rwa [hw.addr j k hj hlt (.inr (.inl hne))]⟩
  refine ⟨ho.setInode haddrs htype, fun j hj hd k hk => ?_⟩
  rw [hw.live_setInode htype] at hj
  rw [addr_setInode haddrs]
  rw [type_setInode htype] at hd
  by_cases hji : j = i
  · subst hji
    rw [setInode_self] at hk
    by_cases hlt : k * bsize < (v.inode j).size.toNat
    · exact hkeep j k hj hdev hlt
    · have hcover : Covers off bs.length k := by
        simp only [Covers, bsize] at hk hlt hoff ⊢
        omega
      refine ⟨?_, hw.here k hcover⟩
      simp only [Covers, bsize] at hcover hmax
      omega
  · rw [setInode_of_ne hji, hw.other j hji] at hk
    rw [hw.other j hji] at hd
    exact hkeep j k hj hd hk

end Wrote

/-! ## Inodes without blocks -/

variable {j k : Nat} {d : Dinode}

theorem addr_of_addrs_zero (h : ∀ k, (v.inode i).addrs k = 0) (k : Nat) : v.addr i k = 0 := by
  by_cases hk : k < ndirect
  · rw [addr_of_lt hk, h]
    rfl
  · refine addr_of_indirectOf_zero ?_ (Nat.not_lt.mp hk)
    rw [indirectOf, h]
    rfl

theorem indirectOf_of_addrs_zero (h : ∀ k, (v.inode i).addrs k = 0) : v.indirectOf i = 0 := by
  rw [indirectOf, h]
  rfl

theorem addr_setInode_of_ne (hj : j ≠ i) : (v.setInode i d).addr j k = v.addr j k :=
  addr_congr v (v.setInode i d) (by rw [setInode_of_ne hj]) (fun _ => rfl) k

theorem indirectOf_setInode_of_ne (hj : j ≠ i) : (v.setInode i d).indirectOf j = v.indirectOf j := by
  rw [indirectOf, setInode_of_ne hj, indirectOf]

theorem byte_setInode_of_ne (hj : j ≠ i) (x : Nat) : (v.setInode i d).byte j x = v.byte j x := by
  rw [byte, addr_setInode_of_ne hj, byte]
  rfl

theorem live_setInode_of_ne (hj : j ≠ i) : (v.setInode i d).Live sb j ↔ v.Live sb j :=
  live_congr (by rw [setInode_of_ne hj])

theorem holds_of_addrs_zero (h : ∀ k, (v.inode i).addrs k = 0) {l : Place} (hl : l.inum = i) : v.holds sb l = none := by
  cases l with
  | data j k =>
    obtain rfl : j = i := hl
    simp [holds, addr_of_addrs_zero h]
  | indirect j =>
    obtain rfl : j = i := hl
    simp [holds, indirectOf_of_addrs_zero h]

theorem holds_setInode_of_ne {l : Place} (hl : l.inum ≠ i) : (v.setInode i d).holds sb l = v.holds sb l := by
  cases l with
  | data j k => simp only [holds, live_setInode_of_ne (show j ≠ i from hl), addr_setInode_of_ne (show j ≠ i from hl)]
  | indirect j =>
    simp only [holds, live_setInode_of_ne (show j ≠ i from hl), indirectOf_setInode_of_ne (show j ≠ i from hl)]

theorem Owned.setEmpty (hd : ∀ k, d.addrs k = 0) (h : Owned sb v) (hold : v.Live sb i → ∀ k, (v.inode i).addrs k = 0) :
    Owned sb (v.setInode i d) := by
  refine ⟨h.owns.congr (fun _ _ => rfl) fun l => ?_, h.kept⟩
  by_cases hl : l.inum = i
  · rw [holds_of_addrs_zero (by rw [setInode_self]; exact hd) hl]
    by_cases hi : v.Live sb i
    · rw [holds_of_addrs_zero (hold hi) hl]
    · cases l with
      | data j k =>
        obtain rfl : j = i := hl
        simp [holds, hi]
      | indirect j =>
        obtain rfl : j = i := hl
        simp [holds, hi]
  · exact holds_setInode_of_ne hl

end Xv6.Fs.Volume
