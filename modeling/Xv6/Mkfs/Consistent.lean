import Xv6.Mkfs.Build

/-!
# When the image is consistent

`mkfs` does not count its inodes, and it makes the root directory a block too long when its last block is full.
-/

open Xv6.Bytes Xv6.Log Xv6.Fs Xv6.Code

namespace Xv6.Mkfs

/-- The blocks in use are data blocks, all different, and those that the bitmap marks. None is missing below a size. -/
structure Consistent (t : State) : Prop where
  inums : ∀ i, 1 ≤ i → i < t.freeinode → i < sb.ninodes
  inside : ∀ l b, (stored sb t.disk).holds sb l = some b → nmeta ≤ b ∧ b < sb.size
  once : ∀ l m b, (stored sb t.disk).holds sb l = some b → (stored sb t.disk).holds sb m = some b → l = m
  bitmap : ∀ b < bpb, marked sb t.disk b = true ↔ b < nmeta ∨ ∃ l, (stored sb t.disk).holds sb l = some b
  filled : ∀ i, (stored sb t.disk).Live sb i → ∀ k, k * bsize < ((stored sb t.disk).inode i).size.toNat →
    k < maxfile ∧ (stored sb t.disk).addr i k ≠ 0

/-! ## The inodes are counted -/

abbrev Steady {α : Type} (m : Prog α) : Prop := Keeps State.freeinode m

theorem rsect_steady (sec : Nat) : Steady (rsect sec) :=
  keeps_get.bind fun _ => keeps_ite (keeps_pure _) (keeps_stop _)

theorem wsect_steady (sec : Nat) (buf : Block) : Steady (wsect sec buf) := keeps_modify fun _ => rfl

theorem nextBlock_steady : Steady nextBlock :=
  keeps_get.bind fun _ => Keeps.bind (keeps_modify fun _ => rfl) fun _ => keeps_pure _

theorem assert_steady (c : Prop) [Decidable c] : Steady (assert c) := keeps_ite (keeps_pure _) (keeps_stop _)

theorem rinode_steady (i : Nat) : Steady (rinode i) := (rsect_steady _).bind fun _ => keeps_pure _

theorem winode_steady (i : Nat) (d : Dinode) : Steady (winode i d) := (rsect_steady _).bind fun _ => wsect_steady _ _

theorem addrOrNext_steady (din : Dinode) (k : Fin (ndirect + 1)) : Steady (addrOrNext din k) :=
  keeps_ite (nextBlock_steady.bind fun _ => keeps_pure _) (keeps_pure _)

theorem entryOrNext_steady (a j : Nat) : Steady (entryOrNext a j) :=
  (rsect_steady a).bind fun _ => keeps_ite
    (nextBlock_steady.bind fun _ => (wsect_steady _ _).bind fun _ => keeps_pure _) (keeps_pure _)

theorem blockOf_steady (din : Dinode) (fbn : Nat) : Steady (blockOf din fbn) := by
  unfold blockOf
  split
  · exact addrOrNext_steady _ _
  · exact (addrOrNext_steady _ _).bind fun _ => (entryOrNext_steady _ _).bind fun _ => keeps_pure _

theorem appendBlocks_steady (fuel : Nat) (din : Dinode) (off : Nat) (p : List Byte) :
    Steady (appendBlocks fuel din off p) := by
  induction fuel generalizing din off p with
  | zero => exact keeps_pure _
  | succ fuel ih =>
    refine keeps_ite (keeps_pure _) ((assert_steady _).bind fun _ => (blockOf_steady _ _).bind fun _ => ?_)
    exact (rsect_steady _).bind fun _ => (wsect_steady _ _).bind fun _ => ih _ _ _

theorem iappend_steady (i : Nat) (p : List Byte) : Steady (iappend i p) :=
  (rinode_steady i).bind fun _ => (appendBlocks_steady _ _ _ _).bind fun _ => winode_steady _ _

theorem ialloc_counts {type : Half} {s : State} {Q : Nat → State → Prop}
    (hQ : ∀ t, t.freeinode = s.freeinode + 1 → Q s.freeinode t) : Ends (fun _ => True) (ialloc type) Q s :=
  ends_get_bind (ends_modify_bind (Ends.bind (winode_steady _ _ _) fun _ t ht => ends_pure (hQ t ht)))

theorem addFile_counts (root : Nat) (f : File) (s : State) :
    Ends (fun _ => True) (addFile root f) (fun _ t => t.freeinode = s.freeinode + 1) s := by
  refine Ends.bind (assert_steady _ s) fun _ t ht => ?_
  rw [← ht]
  split
  · exact ends_stop trivial
  · refine ends_bind.mpr (ialloc_counts fun u hu => ?_)
    rw [← hu]
    exact ((iappend_steady _ _).bind fun _ => keeps_forM _ fun c : Chunk => iappend_steady _ c.bytes) u

theorem main_counts (files : List File) :
    Ends (fun _ => True) (main files) (fun _ t => t.freeinode = files.length + 2) start := by
  refine ends_bind.mpr (format_ends (ends_bind.mpr (makeRoot_ends fun v s h => ?_)))
  refine Ends.bind (ends_forM (I := fun rest t => t.freeinode + rest.length = files.length + 2) ?_
    fun f rest t ht => ?_)
    fun _ t ht => ?_
  · rw [h.inums]
    exact Nat.add_comm ..
  · refine (addFile_counts rootino f t).mono fun _ u hu => ?_
    rw [List.length_cons] at ht
    omega
  · refine Ends.bind (((rinode_steady _).bind fun _ => winode_steady _ _) t) fun _ u hu => ends_get_bind ?_
    refine (((assert_steady _).bind fun _ => wsect_steady _ _) u).mono fun _ w hw => ?_
    rw [hw, hu]
    exact ht

/-! ## The end of the run -/

def rootSize (n : Nat) : Nat := (direntSize * (n + 2) / bsize + 1) * bsize

def rounded (n : Nat) (v : Volume) : Volume :=
  v.setInode rootino { v.inode rootino with size := .ofNat 32 (rootSize n) }

theorem rounded_type (n : Nat) (v : Volume) (i : Nat) : ((rounded n v).inode i).type = (v.inode i).type :=
  Volume.type_setInode (d := { v.inode rootino with size := .ofNat 32 (rootSize n) }) rfl i

theorem rounded_addr (n : Nat) (v : Volume) (i k : Nat) : (rounded n v).addr i k = v.addr i k :=
  Volume.addr_setInode (d := { v.inode rootino with size := .ofNat 32 (rootSize n) }) rfl i k

theorem rounded_byte (n : Nat) (v : Volume) (i x : Nat) : (rounded n v).byte i x = v.byte i x :=
  Volume.byte_setInode (d := { v.inode rootino with size := .ofNat 32 (rootSize n) }) rfl i x

theorem testBit_foldl (blk : Block) (n c : Nat) :
    testBit ((List.range n).foldl setBit blk) c = (decide (c < n) || testBit blk c) := by
  induction n with
  | zero => simp
  | succ n ih =>
    rw [List.range_succ, List.foldl_append, List.foldl_cons, List.foldl_nil, testBit_setBit, ih]
    rcases Nat.lt_trichotomy c n with hlt | rfl | hgt
    · simp [hlt, Nat.lt_succ_of_lt hlt]
    · simp
    · simp [Nat.not_lt_of_gt hgt, Nat.ne_of_gt hgt, show ¬c < n + 1 by omega]

structure Finished (files : List File) (v : Volume) (s t : State) : Prop where
  built : Built (made files) v s
  tracks : Tracks sb (rounded files.length v) (rounded files.length v).inode t.disk
  bits : ∀ b < bpb, marked sb t.disk b = decide (b < s.freeblock)
  inums : t.freeinode = s.freeinode

theorem Built.rootSize {files : List File} {v : Volume} {s : State} (h : Built (made files) v s) :
    (v.inode rootino).size.toNat = direntSize * (files.length + 2) := by
  rw [← rootBytes_length]
  exact h.size_of_lt (Nat.succ_pos _)

section End

variable {files : List File} {E : Exit → Prop} (hE : ¬Room files → ∀ e, E e) (hfew : files.length + 1 < ninodes)

theorem fixRoot_ends {v : Volume} {s : State} (h : Built (made files) v s) {Q : Unit → State → Prop}
    (hQ : ∀ t, Builds (rounded files.length v) (rounded files.length v).inode t → t.freeinode = s.freeinode →
      t.freeblock = s.freeblock → Q () t) : Ends E (fixRoot rootino) Q s := by
  refine ends_bind.mpr (rinode_ends h.builds (by decide) (winode_ends h.builds (by decide) fun t ht hti htb => ?_))
  rw [h.rootSize] at ht
  exact hQ t (ht.setInode _ _) hti htb

theorem balloc_ends {v : Volume} {s : State} (h : Builds v v.inode s) {Q : Unit → State → Prop}
    (hQ : ∀ t, Tracks sb v v.inode t.disk → (∀ b < bpb, marked sb t.disk b = decide (b < s.freeblock)) →
      t.freeinode = s.freeinode → Q () t) : Ends E (balloc s.freeblock) Q s := by
  have hlt : s.freeblock < bsize * 8 := Nat.lt_of_le_of_lt h.high (by decide)
  refine ends_bind.mpr (assert_ends (fun _ => ends_modify ?_) fun hno => absurd hlt hno)
  have hbits : ∀ b < bpb, marked sb (Function.update s.disk (bblock sb 0)
      ((List.range s.freeblock).foldl setBit fun _ => 0)) b = decide (b < s.freeblock) := by
    intro b hb
    have hblock : bblock sb b = bblock sb 0 := by
      rw [bblock, bblock, Nat.div_eq_of_lt hb, Nat.zero_div]
    rw [marked, hblock, Function.update_self, testBit_foldl, testBit_zero, Bool.or_false, Nat.mod_eq_of_lt hb]
  have htracks :=
    h.tracks.setUsed sb_valid (b := 0) (by decide) ((List.range s.freeblock).foldl setBit fun _ => 0) v.used
    fun c hc => by rw [hbits c (Nat.lt_trans hc (by decide)), h.used]
  exact hQ _ htracks hbits rfl

include hE hfew in
theorem main_ends : Ends E (main files) (fun _ t => ∃ v s, Finished files v s t) start := by
  refine ends_bind.mpr (format_ends (ends_bind.mpr (makeRoot_ends fun v₀ s₀ h₀ => ?_)))
  refine ends_bind.mpr (files_ends hE hfew h₀ fun v s h => ?_)
  refine ends_bind.mpr (fixRoot_ends h fun t ht hti htb => ends_get_bind (balloc_ends ht fun u hu hbits hui => ?_))
  rw [htb] at hbits
  exact ⟨v, s, h, hu, hbits, hui.trans hti⟩

theorem main_returns (hroom : Room files) : ∃ t v s, main files start = .ok ((), t) ∧ Finished files v s t := by
  obtain ⟨⟨⟩, t, ht, v, s, hf⟩ := (main_ends (E := fun _ => False) (fun hno => absurd hroom hno) hroom.inums).exists_ok
    fun _ => id
  exact ⟨t, v, s, ht, hf⟩

end End

/-! ## The image -/

namespace Finished

variable {files : List File} {v : Volume} {s t : State} (h : Finished files v s t)
include h

theorem rootSize_toNat : ((rounded files.length v).inode rootino).size.toNat = rootSize files.length := by
  have hfew := h.built.few
  rw [made_length] at hfew
  rw [rounded, Volume.setInode_self]
  apply Volume.toNat_ofNat_block
  simp only [rootSize, direntSize, dirsiz, bsize, ninodes] at hfew ⊢
  omega

theorem owned : (stored sb t.disk).Owned sb :=
  h.tracks.owned_stored sb_valid (h.built.owned.setInode rfl rfl)

theorem live_stored (i : Nat) : (stored sb t.disk).Live sb i ↔ v.Live sb i :=
  (h.tracks.live_stored i).trans (Volume.live_congr (rounded_type _ v i))

theorem addr_stored {i : Nat} (hi : v.Live sb i) (k : Nat) : (stored sb t.disk).addr i k = v.addr i k := by
  have hl : (rounded files.length v).Live sb i := (Volume.live_congr (rounded_type _ v i)).mpr hi
  rw [h.tracks.addr_stored (h.built.owned.setInode rfl rfl) hl]
  exact rounded_addr _ v i k

theorem inode_stored {i : Nat} (hi : v.Live sb i) : (stored sb t.disk).inode i = (rounded files.length v).inode i :=
  h.tracks.inode i hi.1

theorem filled_iff : (∀ i, (stored sb t.disk).Live sb i → ∀ k, k * bsize < ((stored sb t.disk).inode i).size.toNat →
    k < maxfile ∧ (stored sb t.disk).addr i k ≠ 0) ↔ (files.length + 2) % (bsize / direntSize) ≠ 0 := by
  have hroot : v.Live sb rootino := h.built.live_iff.mpr ⟨Nat.le_refl _, by rw [made_length]; exact Nat.succ_pos _⟩
  have hexact := h.built.exact rootino hroot
  rw [h.built.rootSize] at hexact
  have hsize := h.rootSize_toNat
  have hfew := h.built.few
  rw [made_length] at hfew
  constructor
  · intro hall hfull
    -- The block behind the last entry.
    have hlast := hall rootino ((h.live_stored _).mpr hroot) (direntSize * (files.length + 2) / bsize) (by
      rw [h.inode_stored hroot, hsize, rootSize]
      exact Nat.mul_lt_mul_of_pos_right (Nat.lt_succ_self _) (by decide))
    rw [h.addr_stored hroot, hexact.addr _ hlast.1] at hlast
    have hlt := hlast.2
    simp only [direntSize, dirsiz, bsize] at hfull hlt
    omega
  · intro hne i hi k hk
    rw [h.live_stored] at hi
    rw [h.inode_stored hi] at hk
    rw [h.addr_stored hi]
    by_cases he : i = rootino
    · subst he
      rw [hsize] at hk
      have hlt : k * bsize < direntSize * (files.length + 2) ∧ k < maxfile := by
        simp only [rootSize, direntSize, dirsiz, bsize, ninodes, maxfile, ndirect, nindirect] at hk hne hfew ⊢
        omega
      exact ⟨hlt.2, (hexact.addr k hlt.2).mpr hlt.1⟩
    · rw [rounded, Volume.setInode_of_ne he] at hk
      exact h.built.solid.noHoles i hi (h.built.not_dev hi) k hk

theorem bitmap {b : Nat} (hb : b < bpb) :
    marked sb t.disk b = true ↔ b < nmeta ∨ ∃ l, (stored sb t.disk).holds sb l = some b := by
  have ho := h.owned
  have hhigh := h.built.builds.high
  rcases Nat.lt_or_ge b nmeta with hlow | hlow
  · exact iff_of_true (ho.kept b hlow) (.inl hlow)
  · rcases Nat.lt_or_ge b fssize with hin | hout
    · exact (ho.owns.used_iff b ⟨hlow, hin⟩).trans ⟨.inr, fun hl => hl.resolve_left (Nat.not_lt.mpr hlow)⟩
    · refine iff_of_false ?_ ?_
      · rw [h.bits b hb, decide_eq_true_eq]
        omega
      · rintro (hlt | ⟨l, hl⟩)
        · exact Nat.not_lt.mpr hlow hlt
        · exact Nat.not_lt.mpr hout (ho.owns.inside l b hl).2

theorem consistent_iff : Consistent t ↔ (files.length + 2) % (bsize / direntSize) ≠ 0 := by
  refine ⟨fun hc => h.filled_iff.mp hc.filled, fun hne => ⟨fun i _ hi => ?_, h.owned.owns.inside, h.owned.owns.once,
    fun b => h.bitmap, h.filled_iff.mpr hne⟩⟩
  have hfew := h.built.few
  rw [h.inums, h.built.inums] at hi
  exact Nat.lt_of_lt_of_le hi hfew

end Finished

/-- If `mkfs` comes back, the image is consistent exactly if there are inodes for the files and the last block of the
root directory is not full. -/
theorem mkfs_consistent_iff (files : List File) (t : State) (h : main files start = .ok ((), t)) :
    Consistent t ↔ files.length + 1 < ninodes ∧ (files.length + 2) % (bsize / direntSize) ≠ 0 := by
  by_cases hfew : files.length + 1 < ninodes
  · obtain ⟨v, s, hf⟩ := (main_ends (E := fun _ => True) (fun _ _ => trivial) hfew).of_ok h
    rw [hf.consistent_iff]
    exact ⟨fun hne => ⟨hfew, hne⟩, And.right⟩
  · refine iff_of_false (fun hc => hfew ?_) fun hboth => hfew hboth.1
    have hcount : t.freeinode = files.length + 2 := (main_counts files).of_ok h
    exact hc.inums (files.length + 1) (Nat.succ_pos _) (by omega)

/-- One file comes in two reads and has an underscore in front of its name, and one is empty. -/
def threeFiles : List File :=
  [⟨[97], some [⟨[1, 2, 3], by decide, by decide⟩], by decide⟩,
    ⟨[95, 98], some [⟨[4, 5], by decide, by decide⟩, ⟨[6, 7, 8], by decide, by decide⟩], by decide⟩,
    ⟨[99, 100], some [], by decide⟩]

theorem threeFiles_room : Room threeFiles where
  names := by decide
  opens := by decide
  sizes := by decide
  blocks := by decide
  inums := by decide

theorem threeFiles_consistent : ∃ t, main threeFiles start = .ok ((), t) ∧ Consistent t := by
  obtain ⟨t, -, -, ht, -⟩ := main_returns threeFiles_room
  exact ⟨t, ht, (mkfs_consistent_iff threeFiles t ht).mpr (by decide)⟩

def thirtyFiles : List File := (List.finRange 30).map fun (i : Fin 30) =>
    ⟨[.ofNat 8 (97 + i.val)], some [], by revert i; decide⟩

theorem thirtyFiles_room : Room thirtyFiles where
  names := by decide
  opens := by decide
  sizes := by decide
  blocks := by decide +kernel
  inums := by decide

theorem thirtyFiles_inconsistent : ∃ t, main thirtyFiles start = .ok ((), t) ∧ ¬Consistent t := by
  obtain ⟨t, v, s, ht, hf⟩ := main_returns thirtyFiles_room
  refine ⟨t, ht, fun hc => hf.consistent_iff.mp hc ?_⟩
  decide

end Xv6.Mkfs
