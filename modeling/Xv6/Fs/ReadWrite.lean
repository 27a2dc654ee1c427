import Xv6.Fs.Blocks

/-!
# Reading and writing files

`readi` gives the bytes of a file, and `writei` changes them, whatever blocks they are in.
-/

open Function Xv6.Bytes Xv6.Log Xv6.Code

namespace Xv6.Fs

namespace Volume

def bytes (v : Volume) (i off n : Nat) : List Byte := (List.range n).map fun x => v.byte i (off + x)

@[simp] theorem bytes_length (v : Volume) (i off n : Nat) : (v.bytes i off n).length = n := by simp [bytes]

theorem bytes_add (v : Volume) (i off m n : Nat) :
    v.bytes i off (m + n) = v.bytes i off m ++ v.bytes i (off + m) n := by
  simp [bytes, List.range_add, Nat.add_assoc]

theorem bytes_block (v : Volume) (i off m : Nat) (h : off % bsize + m ≤ bsize) :
    v.bytes i off m = readBytes (v.data (v.addr i (off / bsize))) (off % bsize) m := by
  apply List.ext_getElem
  · simp
  · intro x hx _
    rw [bytes_length] at hx
    have hdiv : (off + x) / bsize = off / bsize := by
      simp only [bsize] at h ⊢
      omega
    have hmod : (off + x) % bsize = off % bsize + x := by
      simp only [bsize] at h ⊢
      omega
    simp [bytes, readBytes_getElem, byte, hdiv, hmod]

end Volume

def piece (off n : Nat) : Nat := min n (bsize - off % bsize)

theorem piece_pos (off : Nat) {n : Nat} (hn : n ≠ 0) : 0 < piece off n := by
  simp only [piece, bsize]
  omega

theorem piece_le (off n : Nat) : piece off n ≤ n := Nat.min_le_left _ _

theorem piece_fits (off n : Nat) : off % bsize + piece off n ≤ bsize := by
  simp only [piece, bsize]
  omega

theorem covers_piece {off n m : Nat} (hn : n ≠ 0) :
    Volume.Covers off n m ↔ m = off / bsize ∨ Volume.Covers (off + piece off n) (n - piece off n) m := by
  simp only [Volume.Covers, piece, bsize]
  omega

theorem exists_covers {off n : Nat} (hn : n ≠ 0) {R : Nat → Prop} :
    (∃ m, Volume.Covers off n m ∧ R m) ↔
      R (off / bsize) ∨ ∃ m, Volume.Covers (off + piece off n) (n - piece off n) m ∧ R m := by
  simp only [covers_piece hn, or_and_right, exists_or, exists_eq_left]

variable {P : Type} {E : Fail → Prop} {s : State P} {sb : Superblock} {v : Volume} {f : Nat → Dinode}
    {ip : Iptr} {i : Nat}

/-! ## The loop of `readi` -/

theorem readBlocks_ends (ht : Tracks sb v f s.disk) (ho : v.Owned sb)
    (hi : v.Live sb i) (hcopy : (s.icache ip).copy = v.inode i) :
    ∀ (fuel off n : Nat), n ≤ fuel → (∀ m, Volume.Covers off n m → m < maxfile ∧ v.addr i m ≠ 0) →
    Ends E (readBlocks ip fuel off n) (fun bs t => bs = v.bytes i off n ∧ t = s) s := by
  intro fuel
  induction fuel with
  | zero =>
    intro off n hn _
    obtain rfl : n = 0 := by omega
    exact ends_pure ⟨rfl, rfl⟩
  | succ fuel ih =>
    intro off n hn hall
    by_cases h0 : n = 0
    · subst h0
      exact ends_pure ⟨rfl, rfl⟩
    · rw [readBlocks, if_neg h0]
      obtain ⟨hk, hne⟩ := hall _ ((covers_piece h0).mpr (.inl rfl))
      have hle := piece_le off n
      have hpos := piece_pos off h0
      refine ends_bind.mpr (bmap_found ht ho hi hcopy hk hne ?_)
      refine ends_get_bind (Ends.bind (ih (off + piece off n) (n - piece off n) (by omega) ?_) ?_)
      · exact fun m hm => hall m ((covers_piece h0).mpr (.inr hm))
      · rintro rest t ⟨rfl, rfl⟩
        refine ends_pure ⟨?_, rfl⟩
        have hsplit := v.bytes_add i off (piece off n) (n - piece off n)
        rw [Nat.add_sub_cancel' hle] at hsplit
        rw [hsplit, v.bytes_block i off _ (piece_fits off n), ht.data _ (ho.addr_inData hi hk hne)]
        rfl

/-! ## The loop of `writei` -/

def WriteLog (sb : Superblock) (v v' : Volume) (i off n : Nat) (lg : List Nat) : Prop :=
  sb.size ≤ bpb → ∀ c, c ∈ lg ↔
    (∃ m, Volume.Covers off n m ∧ c = v'.addr i m) ∨
    ((∃ m, Volume.Covers off n m ∧ v.addr i m = 0) ∧ c = sb.bmapstart) ∨
    ((∃ m, Volume.Covers off n m ∧ ndirect ≤ m ∧ v.addr i m = 0) ∧ c = v'.indirectOf i)

theorem bblock_one (hone : sb.size ≤ bpb) {b : Nat} (hb : b < sb.size) : bblock sb b = sb.bmapstart := by
  rw [bblock, Nat.div_eq_of_lt (by omega), Nat.zero_add]

theorem WriteLog.turn {v₁ v₂ v' : Volume} {off n a : Nat} {bs : List Byte} {lg lg' : List Nat} (hn : n ≠ 0)
    (hi : v.Live sb i) (hmax : off + n ≤ maxfile * bsize) (ho₁ : v₁.Owned sb)
    (hm : v.Mapped sb v₁ i (off / bsize) a) (hw : v.Wrote sb v₂ i off bs) (hbs : bs.length = piece off n)
    (hind : v₂.indirectOf i = v₁.indirectOf i) (hhere : v₂.addr i (off / bsize) = a)
    {cs : List Byte} (hw' : v₂.Wrote sb v' i (off + piece off n) cs)
    (hlog : MapLog sb v v₁ i (off / bsize) a lg)
    (hlog' : WriteLog sb v₂ v' i (off + piece off n) (n - piece off n) lg') :
    WriteLog sb v v' i off n (lg ++ [a] ++ lg') := by
  intro hone c
  have hk : off / bsize < maxfile := by
    simp only [bsize] at hmax ⊢
    omega
  have hi₁ : v₁.Live sb i := (hm.live i).mpr hi
  have ha : a < sb.size := by
    have := (ho₁.addr_inData hi₁ hk (hm.here ▸ hm.pos)).2
    rwa [hm.here] at this
  -- The other blocks are as fresh as they were.
  have hfresh : ∀ m, Volume.Covers (off + piece off n) (n - piece off n) m → v₂.addr i m = v.addr i m := by
    intro m hc
    have hm : m < maxfile := by
      simp only [Volume.Covers, piece, bsize] at hc hmax
      omega
    refine hw.addr i m hi hm (.inr (.inr fun hc' => ?_))
    rw [hbs] at hc'
    simp only [Volume.Covers, piece, bsize] at hc hc'
    omega
  have hlast : v'.addr i (off / bsize) = a := by
    rw [hw'.addr i _ ((hw.live i).mpr hi) hk (.inr (.inl (hhere ▸ hm.pos))), hhere]
  have hindirect : ndirect ≤ off / bsize → v'.indirectOf i = v₁.indirectOf i := by
    intro hlow
    rw [hw'.ind (.inl (hind ▸ hm.indirectOf_ne_zero hlow)), hind]
  have hsame : ∀ R : Nat → Prop, (∃ m, Volume.Covers (off + piece off n) (n - piece off n) m ∧ R m ∧ v₂.addr i m = 0) ↔
      ∃ m, Volume.Covers (off + piece off n) (n - piece off n) m ∧ R m ∧ v.addr i m = 0 :=
    fun R => exists_congr fun m => and_congr_right fun hc => by rw [hfresh m hc]
  have hsame' := hsame fun _ => True
  simp only [true_and] at hsame'
  rw [List.mem_append, List.mem_append, List.mem_singleton, hlog c, hlog' hone c, bblock_one hone ha, hsame, hsame',
    exists_covers hn, exists_covers hn, exists_covers hn, hlast]
  clear hsame hsame' hlog hlog' hfresh
  by_cases hlow : ndirect ≤ off / bsize
  · have hx := ho₁.indirect_inData hi₁ (hm.indirectOf_ne_zero hlow)
    rw [hindirect hlow, bblock_one hone hx.2]
    grind
  · grind

theorem writeBlocks_ends (hv : sb.Valid) {Q : Unit → State P → Prop} :
    ∀ (fuel : Nat) (s : State P) (v : Volume) (src : List Byte) (off n : Nat), n ≤ fuel → n ≤ src.length →
    off + n ≤ maxfile * bsize → s.sb = sb → Tracks sb v f s.disk → v.Owned sb → v.Live sb i →
    (s.icache ip).copy = v.inode i → Allows E sb v (v.missing i off n) →
    (∀ v' disk log lg, v.Wrote sb v' i off (src.take n) → v'.Owned sb → Tracks sb v' f disk →
      WriteLog sb v v' i off n lg → Q () ((s.wrote disk log lg).setCopy ip (v'.inode i))) →
    Ends E (writeBlocks ip fuel src off n) Q s := by
  intro fuel
  induction fuel with
  | zero =>
    intro s v src off n hn hsrc _ hsb ht ho hi hcopy _ hQ
    obtain rfl : n = 0 := by omega
    have hq := hQ v s.disk s.log [] .refl ho ht fun _ c => by simp [Volume.Covers]
    rw [wrote_self, setCopy_self s ip _ hcopy] at hq
    exact ends_pure hq
  | succ fuel ih =>
    intro s v src off n hn hsrc hmax hsb ht ho hi hcopy hE hQ
    by_cases h0 : n = 0
    · subst h0
      have hq := hQ v s.disk s.log [] .refl ho ht fun _ c => by simp [Volume.Covers]
      rw [wrote_self, setCopy_self s ip _ hcopy] at hq
      exact ends_pure hq
    · rw [writeBlocks, if_neg h0]
      have hk : off / bsize < maxfile := by
        simp only [bsize] at hmax ⊢
        omega
      have hfirst := Volume.mem_touched.mpr ⟨hk, (covers_piece h0).mpr (.inl rfl)⟩
      have hle := piece_le off n
      have hpos := piece_pos off h0
      have hlen : (src.take (piece off n)).length = piece off n := by
        rw [List.length_take]
        omega
      have hneed : ∀ {v₂ : Volume}, v.Wrote sb v₂ i off (src.take (piece off n)) →
          v.missing i off (src.take (piece off n)).length + v₂.missing i (off + piece off n) (n - piece off n) ≤
            v.missing i off n := by
        intro v₂ hw
        have hsum := hw.missing (n := n - piece off n) hi
        rw [hlen, Nat.add_sub_cancel' hle] at hsum
        rw [hlen]
        exact hsum.ge
      refine ends_bind.mpr (bmap_ends hsb hv ht ho hi hcopy (hE.less (Volume.cost_le_missing hfirst)) hk
        fun a v₁ disk log lg hm ho₁ ht₁ hlog => ?_)
      refine ends_get_bind (ends_modify_bind (ends_bind.mpr (logWrite_ends hE.log fun log' => ?_)))
      have hi₁ : v₁.Live sb i := (hm.live i).mpr hi
      have hin : sb.InData a := by
        have := ho₁.addr_inData hi₁ hk (hm.here ▸ hm.pos)
        rwa [hm.here] at this
      have hfit : off % bsize + (src.take (piece off n)).length ≤ bsize := by
        rw [hlen]
        exact piece_fits off n
      have hw := hm.wrote ho₁ hi hk rfl (by rw [hlen]; exact hpos) hfit
      have hdata := ht₁.data a hin
      refine ih _ (v₁.setData a (writeBytes (v₁.data a) (off % bsize) (src.take (piece off n))))
        (src.drop (piece off n))
        (off + piece off n) (n - piece off n) (by omega) (by rw [List.length_drop]; omega) (by omega) hsb ?_
        (hm.owned_setData ho₁ hi hk _) ((hw.live i).mpr hi) (setCopy_copy _ _ _)
        (hE.later hw.free (hneed hw)) ?_
      · rw [hdata]
        exact ht₁.setData hv hin _
      · intro v' disk' log₂ lg' hw' ho' ht' hlog'
        have hrest : (List.take (n - piece off n) (src.drop (piece off n))).length = n - piece off n := by
          rw [List.length_take, List.length_drop]
          omega
        have htrans := hw.trans (by rw [hlen]; exact hw') hi (by rw [hlen, hrest]; omega)
        rw [← List.take_add, Nat.add_sub_cancel' hle] at htrans
        have hq := hQ v' disk' log₂ (lg ++ [a] ++ lg') htrans ho' ht'
          (WriteLog.turn h0 hi hmax ho₁ hm hw hlen rfl ?_ hw' hlog hlog')
        · simpa [State.wrote, State.setCopy] using hq
        · rw [hm.addr_setData ho₁ hi hk _ i _ hi, hm.here]

/-! ## `readi` and `writei` -/

theorem toNat_add_of_not_lt {off n : Word} (h : ¬off + n < off) : (off + n).toNat = off.toNat + n.toNat := by
  bv_omega

theorem Volume.Solid.size_le (hs : v.Solid sb) (hi : v.Live sb i) (hdev : (v.inode i).type ≠ tDev) :
    (v.inode i).size.toNat ≤ maxfile * bsize := by
  by_contra hlt
  have := (hs.noHoles i hi hdev maxfile (by omega)).1
  omega

def Volume.readi (v : Volume) (i : Nat) (off n : Word) : Option (List Byte) :=
  if off > (v.inode i).size ∨ off + n < off then none
  else some (v.bytes i off.toNat (min n.toNat ((v.inode i).size.toNat - off.toNat)))

theorem readi_within (ht : Tracks sb v f s.disk) (ho : v.Owned sb) (hi : v.Live sb i)
    (hcopy : (s.icache ip).copy = v.inode i) (hdev : (v.inode i).type ≠ tDev) (off n : Word)
    (hall : ∀ m, Volume.Covers off.toNat (min n.toNat ((v.inode i).size.toNat - off.toNat)) m →
      m < maxfile ∧ v.addr i m ≠ 0) :
    Ends E (readi ip off n) (fun r t => r = v.readi i off n ∧ t = s) s := by
  refine inodeAt_ends ?_
  rw [hcopy, if_neg hdev, Volume.readi]
  refine ends_ite (fun hbad => ?_) fun hgood => ?_
  · rw [if_pos hbad]
    exact ends_pure ⟨rfl, rfl⟩
  · rw [if_neg hgood]
    obtain ⟨hoff, hwrap⟩ := not_or.mp hgood
    have hle : off.toNat ≤ (v.inode i).size.toNat := by simpa [BitVec.lt_def] using hoff
    have hadd := toNat_add_of_not_lt hwrap
    have hn : (if off + n > (v.inode i).size then (v.inode i).size - off else n).toNat =
        min n.toNat ((v.inode i).size.toNat - off.toNat) := by
      split
      case isTrue h =>
        have h' : (v.inode i).size.toNat < (off + n).toNat := h
        rw [BitVec.toNat_sub_of_le hle]
        omega
      case isFalse h =>
        have h' : ¬(v.inode i).size.toNat < (off + n).toNat := h
        omega
    dsimp only
    rw [hn]
    generalize min n.toNat ((v.inode i).size.toNat - off.toNat) = k at hall ⊢
    refine Ends.bind (readBlocks_ends ht ho hi hcopy k off.toNat k (Nat.le_refl _) hall) ?_
    rintro bs t ⟨rfl, rfl⟩
    exact ends_pure ⟨rfl, rfl⟩

section Solid

variable (hsb : s.sb = sb) (hv : sb.Valid) (hs : v.Solid sb) (hi : v.Live sb i) (hcopy : (s.icache ip).copy = v.inode i)
include hs hi hcopy

theorem readi_ends (ht : Tracks sb v f s.disk) (hdev : (v.inode i).type ≠ tDev) (off n : Word) :
    Ends E (readi ip off n) (fun r t => r = v.readi i off n ∧ t = s) s := by
  refine readi_within ht hs.toOwned hi hcopy hdev off n fun m hm => hs.noHoles i hi hdev m ?_
  simp only [Volume.Covers, bsize] at hm ⊢
  omega

include hsb hv

def Volume.Refused (v : Volume) (i : Nat) (off n : Word) : Prop :=
  off > (v.inode i).size ∨ off + n < off ∨ (off + n).toNat > maxfile * bsize

omit hsb hv hs hi hcopy in
instance (off n : Word) : Decidable (v.Refused i off n) := inferInstanceAs (Decidable (_ ∨ _ ∨ _))

def GrowLog (sb : Superblock) (v v' : Volume) (i off n : Nat) (lg : List Nat) : Prop :=
  sb.size ≤ bpb → ∀ c, c ∈ lg ↔
    (∃ m, Volume.Covers off n m ∧ c = v'.addr i m) ∨
    ((∃ m, Volume.Covers off n m ∧ v.addr i m = 0) ∧ c = sb.bmapstart) ∨
    ((∃ m, Volume.Covers off n m ∧ ndirect ≤ m ∧ v.addr i m = 0) ∧ c = v'.indirectOf i) ∨
    ((v.inode i).size.toNat < off + n ∧ c = iblock sb i)

def Volume.Updated (sb : Superblock) (v v' : Volume) (i off : Nat) (bs : List Byte) : Prop :=
  ∃ u d, v.Wrote sb u i off bs ∧ u.Owned sb ∧ v' = u.setInode i d ∧ d = { u.inode i with size := d.size } ∧
    d.size.toNat = max (v.inode i).size.toNat (off + bs.length)

theorem writei_ends (hinum : (s.icache ip).inum = i) (ht : Tracks sb v v.inode s.disk) (hdev : (v.inode i).type ≠ tDev)
    {src : List Byte} {off n : Word} (hsrc : n.toNat ≤ src.length)
    (hE : Allows E sb v (v.missing i off.toNat n.toNat)) {Q : Int → State P → Prop}
    (hbad : v.Refused i off n → Q (-1) s)
    (hgood : ¬v.Refused i off n → ∀ v' disk log lg, v.Updated sb v' i off.toNat (src.take n.toNat) →
      Tracks sb v' v'.inode disk → GrowLog sb v v' i off.toNat n.toNat lg →
      Q n.toNat ((s.wrote disk log lg).setCopy ip (v'.inode i))) : Ends E (writei ip src off n) Q s := by
  refine inodeAt_ends ?_
  rw [hcopy, if_neg hdev]
  refine ends_ite (fun h => ends_pure (hbad (by unfold Volume.Refused; tauto))) fun h => ?_
  refine ends_ite (fun h' => ends_pure (hbad (by unfold Volume.Refused; tauto))) fun h' => ?_
  have hok : ¬v.Refused i off n := by unfold Volume.Refused; tauto
  obtain ⟨hoff, hwrap⟩ := not_or.mp h
  have hle : off.toNat ≤ (v.inode i).size.toNat := by simpa [BitVec.lt_def] using hoff
  have hadd := toNat_add_of_not_lt hwrap
  have hint : n.toInt = n.toNat := by
    apply BitVec.toInt_eq_toNat_of_lt
    simp only [maxfile, ndirect, nindirect, bsize] at h'
    omega
  have hlen : (src.take n.toNat).length = n.toNat := by
    rw [List.length_take]
    omega
  refine ends_bind.mpr (writeBlocks_ends hv _ s v src off.toNat n.toNat (Nat.le_refl _) hsrc (by omega) hsb ht
    hs.toOwned hi hcopy hE fun u disk log lg hw hou htu hlog => ?_)
  refine inodeAt_ends ?_
  have hsize : (u.inode i).size = (v.inode i).size := by rw [hw.same]
  rw [setCopy_copy, hsize, hint]
  by_cases hgrow : (v.inode i).size.toNat < off.toNat + n.toNat
  · have hcond : n > 0 ∧ off + n > (v.inode i).size := by
      rw [gt_iff_lt, gt_iff_lt, BitVec.lt_def, BitVec.lt_def, hadd]
      simp only [BitVec.ofNat_eq_ofNat, BitVec.toNat_ofNat, Nat.zero_mod]
      omega
    rw [if_pos hcond]
    refine ends_bind.mpr (onCopy_ends ?_)
    rw [setCopy_setCopy, setCopy_copy]
    have hat : ((s.wrote disk log lg).setCopy ip { u.inode i with size := off + n }).icache ip =
        { s.icache ip with copy := { u.inode i with size := off + n } } := update_self ..
    refine ends_bind.mpr (iupdate_ends hE.log ?_ hv htu ?_ fun disk' log' htr => ends_pure ?_)
    · exact hsb
    · rw [hat, hinum]
      exact hi.1
    · rw [hat, hinum] at htr ⊢
      have hq := hgood hok (u.setInode i { u.inode i with size := off + n }) disk' log' (lg ++ [iblock sb i])
        ⟨u, _, hw, hou, rfl, rfl, by rw [hlen]; exact hadd.trans (by omega)⟩ ?_ fun hone c => ?_
      · simpa [State.wrote, State.setCopy, hinum] using hq
      · refine (htr.setInode i _).congr_inode fun j _ => ?_
        by_cases hj : j = i
        · rw [hj, update_self, Volume.setInode_self]
        · rw [update_of_ne hj, Volume.setInode_of_ne hj, hw.other j hj]
      · have haddr := Volume.addr_setInode (v := u) (i := i) (d := { u.inode i with size := off + n }) rfl i
        have hind := Volume.indirectOf_setInode (v := u) (i := i) (d := { u.inode i with size := off + n }) rfl i
        rw [List.mem_append, hlog hone c, List.mem_singleton, hind]
        simp only [haddr, hgrow, true_and, or_assoc]
  · have hcond : ¬(n > 0 ∧ off + n > (v.inode i).size) := by
      rw [gt_iff_lt, gt_iff_lt, BitVec.lt_def, BitVec.lt_def, hadd]
      omega
    rw [if_neg hcond]
    have hstill : u.inode i = v.inode i := by
      refine hw.still fun m hm => (hs.noHoles i hi hdev m ?_).2
      rw [hlen] at hm
      simp only [Volume.Covers, bsize] at hm ⊢
      omega
    have hself : u = u.setInode i (u.inode i) := by simp [Volume.setInode]
    refine ends_pure (hgood hok u disk log lg ⟨u, u.inode i, hw, hou, hself, rfl, ?_⟩ (htu.congr_inode fun j _ => ?_)
      fun hone c => ?_)
    · rw [hstill, hlen]
      omega
    · by_cases hj : j = i
      · rw [hj, hstill]
      · rw [hw.other j hj]
    · rw [hlog hone c]
      simp only [hgrow, false_and, or_false]

end Solid

/-! ## Volumes after `writei` -/

def Volume.Stores (sb : Superblock) (v : Volume) (i : Nat) : Prop := v.Live sb i ∧ (v.inode i).type ≠ tDev

namespace Volume

variable {v' : Volume} {off : Nat} {bs : List Byte}

theorem Solid.addr_of_lt_size (h : v.Solid sb) (hi : v.Stores sb i) {x : Nat} (hx : x < (v.inode i).size.toNat) :
    x / bsize < maxfile ∧ v.addr i (x / bsize) ≠ 0 := by
  refine h.noHoles i hi.1 hi.2 _ ?_
  simp only [bsize]
  omega

variable (h : v.Updated sb v' i off bs)
include h

theorem Updated.byte_old (hs : v.Solid sb) {j x : Nat} (hj : v.Stores sb j)
    (hx : x < (v.inode j).size.toNat) (hc : j ≠ i ∨ x < off ∨ off + bs.length ≤ x) : v'.byte j x = v.byte j x := by
  obtain ⟨u, d, hw, -, rfl, hd, -⟩ := h
  obtain ⟨hlt, hne⟩ := hs.addr_of_lt_size hj hx
  rw [byte_setInode (by rw [hd]), hw.old j x hj.1 hlt hne hc]

theorem Updated.byte_new {n : Nat} (hn : n < bs.length) :
    v'.byte i (off + n) = bs[n] := by
  obtain ⟨u, d, hw, -, rfl, hd, -⟩ := h
  rw [byte_setInode (by rw [hd]), hw.new n hn]

theorem Updated.other {j : Nat} (hj : j ≠ i) : v'.inode j = v.inode j := by
  obtain ⟨u, d, hw, -, rfl, -, -⟩ := h
  rw [setInode_of_ne hj, hw.other j hj]

theorem Updated.size :
    (v'.inode i).size.toNat = max (v.inode i).size.toNat (off + bs.length) := by
  obtain ⟨u, d, -, -, rfl, -, hz⟩ := h
  rwa [setInode_self]

theorem Updated.type (j : Nat) : (v'.inode j).type = (v.inode j).type := by
  obtain ⟨u, d, hw, -, rfl, hd, -⟩ := h
  rw [type_setInode (by rw [hd])]
  by_cases hj : j = i
  · rw [hj, hw.same]
  · rw [hw.other j hj]

theorem Updated.live (j : Nat) : v'.Live sb j ↔ v.Live sb j := live_congr (h.type j)

theorem Updated.solid (hs : v.Solid sb) (hdev : (v.inode i).type ≠ tDev)
    (hoff : off ≤ (v.inode i).size.toNat) (hmax : off + bs.length ≤ maxfile * bsize) : v'.Solid sb := by
  obtain ⟨u, d, hw, ho, rfl, hd, hz⟩ := h
  exact hs.wrote hw ho hdev hoff hmax (by rw [hd]) (by rw [hd]) hz

theorem Updated.free : v.free sb = v'.free sb + v.missing i off bs.length := by
  obtain ⟨u, d, hw, -, rfl, -, -⟩ := h
  rw [hw.free]
  rfl

theorem Updated.missing (hi : v.Live sb i) (n : Nat) :
    v.missing i off (bs.length + n) = v.missing i off bs.length + v'.missing i (off + bs.length) n := by
  obtain ⟨u, d, hw, -, rfl, hd, -⟩ := h
  have haddrs : d.addrs = (u.inode i).addrs := by rw [hd]
  rw [hw.missing hi, Volume.missing, Volume.missing, Volume.missing, indirectOf_setInode haddrs]
  simp only [addr_setInode haddrs]

omit h in
theorem Solid.missing_eq_zero {n : Nat} (hs : v.Solid sb) (hi : v.Stores sb i)
    (hin : off + n ≤ (v.inode i).size.toNat) : v.missing i off n = 0 := by
  have hhere : ∀ m ∈ touched off n, v.addr i m ≠ 0 := by
    intro m hm
    have hcover := (mem_touched.mp hm).2
    refine (hs.noHoles i hi.1 hi.2 m ?_).2
    simp only [Covers, bsize] at hcover ⊢
    omega
  rw [Volume.missing, if_neg, Finset.filter_false_of_mem hhere]
  · rfl
  · rintro ⟨h0, m, hm, hlow⟩
    exact hhere m hm (addr_of_indirectOf_zero h0 hlow)

end Volume

end Xv6.Fs
