import Xv6.Fs.Lookup
import Xv6.Mkfs.Consistent

/-!
# The kernel reads the files back

`dirlookup` finds each file in the root directory by its name, and `readi` gives its bytes.
-/

open Xv6.Bytes Xv6.Log Xv6.Fs Xv6.Code

namespace Xv6.Mkfs

/-! ## Names -/

/-- The names differ where the file system looks at them, and are not the root directory's own. -/
structure Named (files : List File) : Prop where
  distinct : (files.map fun f => f.target.take dirsiz).Nodup
  dots : ∀ f ∈ files, f.target ≠ dot ∧ f.target ≠ dotdot

theorem File.target_noNul (f : File) : 0 ∉ f.target := by
  unfold File.target
  split
  · exact fun h => f.noNul (List.mem_of_mem_tail h)
  · exact f.noNul

theorem strncpy_noNul (n : Nat) {p : List Byte} (hp : 0 ∉ p) :
    strncpy n p = p.take n ++ List.replicate (n - p.length) 0 := by
  induction n generalizing p with
  | zero => simp [strncpy]
  | succ n ih =>
    cases p with
    | nil => simp [strncpy]
    | cons b p =>
      rw [List.mem_cons, not_or] at hp
      rw [strncpy, List.headD_cons, if_neg (Ne.symm hp.1), List.tail_cons, ih hp.2]
      simp

theorem takeWhile_strncpy (n : Nat) {p : List Byte} (hp : 0 ∉ p) : (strncpy n p).takeWhile (· ≠ 0) = p.take n := by
  have hall : ∀ b ∈ p.take n, decide (b ≠ 0) = true := by
    intro b hb
    refine decide_eq_true fun h0 => hp ?_
    rw [← h0]
    exact List.mem_of_mem_take hb
  rw [strncpy_noNul n hp, List.takeWhile_append_of_pos hall]
  cases n - p.length with
  | zero => simp
  | succ k => simp [List.replicate_succ]

theorem namecmp_noNul {p q : List Byte} (hp : 0 ∉ p) (hq : 0 ∉ q) :
    namecmp p q = 0 ↔ p.take dirsiz = q.take dirsiz := by
  rw [namecmp_eq_zero]
  constructor
  · intro he
    rw [← takeWhile_strncpy dirsiz hp, he, takeWhile_strncpy dirsiz hq]
  · intro he
    have hlen := congrArg List.length he
    rw [List.length_take, List.length_take] at hlen
    rw [strncpy_noNul _ hp, strncpy_noNul _ hq, he]
    congr 2
    omega

theorem take_eq_short {p q : List Byte} {n : Nat} (hq : q.length < n) (h : p.take n = q.take n) : p = q := by
  have hlen := congrArg List.length h
  rw [List.length_take, List.length_take] at hlen
  rwa [List.take_of_length_le (by omega), List.take_of_length_le (by omega)] at h

/-! ## Entries -/

theorem entries_width {files : List File} {de : Dirent} (h : de ∈ entries files) : de.bytes.length = direntSize := by
  obtain ⟨i, name, rfl⟩ : ∃ i name, de = newDirent i name := by
    simp only [entries, List.mem_append, List.mem_cons, List.not_mem_nil, or_false, List.mem_map] at h
    rcases h with (rfl | rfl) | ⟨x, -, rfl⟩
    · exact ⟨_, _, rfl⟩
    · exact ⟨_, _, rfl⟩
    · exact ⟨_, _, rfl⟩
  exact newDirent_length i name

theorem entries_file (files : List File) {j : Nat} (hj : j < files.length) (hlt : j + 2 < (entries files).length) :
    (entries files)[j + 2] = newDirent (j + 2) files[j].target := by
  simp [entries, Nat.add_comm]

theorem entries_before {files : List File} (h : Named files) {j : Nat} (hj : j < files.length) {e : Nat}
    (he : e < j + 2) (hlt : e < (entries files).length) :
    ∃ i name, (entries files)[e] = newDirent i name ∧ namecmp files[j].target name ≠ 0 := by
  have hnul := (files[j]).target_noNul
  have hdots := h.dots _ (List.getElem_mem hj)
  match e, he with
  | 0, _ =>
    refine ⟨rootino, dot, rfl, fun hname => hdots.1 ?_⟩
    exact take_eq_short (by decide) ((namecmp_noNul hnul (by decide)).mp hname)
  | 1, _ =>
    refine ⟨rootino, dotdot, rfl, fun hname => hdots.2 ?_⟩
    exact take_eq_short (by decide) ((namecmp_noNul hnul (by decide)).mp hname)
  | k + 2, he =>
    have hk : k < files.length := by omega
    refine ⟨k + 2, files[k].target, entries_file files hk hlt, fun hname => ?_⟩
    have hsame := (namecmp_noNul hnul (files[k]).target_noNul).mp hname
    have hinj := List.nodup_iff_injective_get.mp h.distinct
    have hindex := @hinj ⟨j, by simpa⟩ ⟨k, by simpa⟩ (by simpa using hsame)
    obtain rfl : j = k := by simpa using hindex
    omega

/-! ## The kernel on the image -/

variable {P : Type}

/-- The kernel has the image as its disk, the root directory in `dp`, and room for another inode. -/
structure Mounted (image : Disk) (dp : Iptr) (s : Fs.State P) : Prop where
  super : s.sb = getSuperblock (image 1)
  disk : s.disk = image
  root : (s.icache dp).inum = rootino
  used : 0 < (s.icache dp).ref
  valid : (s.icache dp).valid = true
  cached : ∀ ip, 0 < (s.icache ip).ref → (s.icache ip).valid = true →
    (s.icache ip).copy = getInode s.sb s.disk (s.icache ip).inum
  idle : ∀ ip, ip ≠ dp → (s.icache ip).locked = false
  room : ∃ ip, (s.icache ip).ref = 0

def lookupRead (dp : Iptr) (name : List Byte) (off n : Word) : Fs.Prog P (Option (Word × Option (List Byte))) := do
  match ← dirlookup dp name with
  | none => pure none
  | some (ip, _) => do
    ilock ip
    let i ← inodeAt ip
    let bs ← readi ip off n
    pure (some (i.copy.size, bs))

section Kernel

variable {image : Disk} {dp : Iptr} {s : Fs.State P} {E : Fail → Prop} (h : Mounted image dp s)
include h

theorem Mounted.iget_ends {i : Nat} (hi : i ≠ rootino) {Q : Iptr → Fs.State P → Prop}
    (hQ : ∀ ip x, x.inum = i → 0 < x.ref → x.locked = false →
      (x.valid = true → x.copy = getInode s.sb s.disk i) → Q ip (s.setSlot ip x)) : Ends E (iget i) Q s := by
  refine Fs.iget_ends (fun hfull => ?_) fun ip x hgot => ?_
  · obtain ⟨ip, hzero⟩ := h.room
    exact absurd hzero (hfull ip)
  · cases hgot with
    | shared hpos hinum =>
      have hne : ip ≠ dp := fun he => hi (hinum.symm.trans (he ▸ h.root))
      exact hQ ip _ hinum (Int.add_pos hpos one_pos) (h.idle ip hne) (hinum ▸ h.cached ip hpos)
    | fresh hzero =>
      have hne : ip ≠ dp := fun he => ne_of_gt h.used (he ▸ hzero)
      exact hQ ip _ rfl one_pos (h.idle ip hne) nofun

end Kernel

theorem bytes_eq_slice (v : Volume) (i : Nat) {off n : Nat} (h : off + n ≤ (v.content i).length) :
    v.bytes i off n = ((v.content i).drop off).take n := by
  apply List.ext_getElem
  · rw [Volume.bytes_length, List.length_take, List.length_drop]
    omega
  · intro x hx hx'
    rw [List.getElem_take, List.getElem_drop, Volume.content_getElem]
    simp [Volume.bytes]

section Read

variable {files : List File} {v : Volume} {b t : State} {dp : Iptr} {s : Fs.State P} {E : Fail → Prop}
  (hf : Finished files v b t) (h : Mounted t.disk dp s)
include hf h

theorem Mounted.sb_eq : s.sb = sb := h.super.trans hf.tracks.super

theorem Mounted.tracks : Tracks sb (rounded files.length v) (rounded files.length v).inode s.disk := by
  rw [h.disk]
  exact hf.tracks

theorem Mounted.getInode_eq {i : Nat} (hi : i < ninodes) :
    getInode s.sb s.disk i = (rounded files.length v).inode i := by
  rw [h.sb_eq hf, h.disk]
  exact hf.tracks.inode i hi

theorem Mounted.root_copy : (s.icache dp).copy = (rounded files.length v).inode rootino := by
  rw [h.cached dp h.used h.valid, h.root, h.getInode_eq hf (by decide)]

omit h in
theorem Finished.bytes_entry {e : Nat} (he : e < (entries files).length) :
    (rounded files.length v).bytes rootino (direntSize * e) direntSize = (entries files)[e].bytes := by
  have hcontent : v.content rootino = rootBytes files := hf.built.content 0 (Nat.succ_pos _)
  have hsame : (rounded files.length v).bytes rootino (direntSize * e) direntSize =
      v.bytes rootino (direntSize * e) direntSize := by
    simp only [Volume.bytes, rounded_byte]
  have hfits : direntSize * e + direntSize ≤ (v.content rootino).length := by
    rw [hcontent, rootBytes_length, ← Nat.mul_succ]
    rw [entries_length] at he
    exact Nat.mul_le_mul_left _ he
  rw [hsame, bytes_eq_slice v rootino hfits, hcontent, rootBytes, take_drop_flatMap (fun _ => entries_width) he]

theorem Mounted.readDirent_ends {e : Nat} (hlt : e < (entries files).length) (err : Fs.Panic) :
    Ends E (readDirent dp e err) (fun de u => u = s ∧ de = Dirent.ofBytes (entries files)[e].bytes) s := by
  have hroot : v.Live sb rootino := hf.built.live_iff.mpr ⟨Nat.le_refl _, by rw [made_length]; exact Nat.succ_pos _⟩
  have hlive : (rounded files.length v).Live sb rootino := (Volume.live_congr (rounded_type _ v _)).mpr hroot
  have hexact := hf.built.exact rootino hroot
  rw [hf.built.rootSize] at hexact
  have hsize := hf.rootSize_toNat
  have hfew := hf.built.few
  rw [made_length] at hfew
  have he := hlt
  rw [entries_length] at he
  have hoff : (BitVec.ofNat 32 (direntSize * e)).toNat = direntSize * e := by
    apply Volume.toNat_ofNat_block
    simp only [direntSize, dirsiz, ninodes] at hfew ⊢
    omega
  have hsixteen : (BitVec.ofNat 32 direntSize).toNat = direntSize := rfl
  have hwhole : min direntSize (rootSize files.length - direntSize * e) = direntSize := by
    simp only [rootSize, direntSize, dirsiz, bsize]
    omega
  refine Ends.bind (readi_within (h.tracks hf) (hf.built.owned.setInode rfl rfl) hlive (h.root_copy hf) ?_ _ _
    fun m hm => ?_) ?_
  · rw [rounded_type]
    exact hf.built.not_dev hroot
  · rw [hoff, hsixteen, hsize, hwhole] at hm
    have hbound : m < maxfile ∧ m * bsize < direntSize * (files.length + 2) := by
      simp only [Volume.Covers, direntSize, dirsiz, bsize, ninodes, maxfile, ndirect, nindirect] at hm hfew ⊢
      omega
    rw [rounded_addr]
    exact ⟨hbound.1, (hexact.addr m hbound.1).mpr hbound.2⟩
  · rintro bs u ⟨hbs, hu⟩
    have hlen : ((rounded files.length v).content rootino).length = rootSize files.length := by
      rw [Volume.content_length, hsize]
    have hfits : direntSize * e + direntSize ≤ rootSize files.length := by
      simp only [rootSize, direntSize, dirsiz, bsize]
      omega
    have hgood : ¬(direntSize * e > rootSize files.length ∨ direntSize * e + direntSize ≥ 2 ^ 32) := by
      simp only [direntSize, dirsiz, ninodes] at hfits hfew ⊢
      omega
    rw [Volume.readi_content, hoff, hsixteen, arrayRead, hlen, if_neg hgood,
      ← bytes_eq_slice _ _ (by rw [hlen]; exact hfits),
      hf.bytes_entry hlt] at hbs
    subst hbs
    exact ends_ite (fun _ => ends_pure ⟨hu, rfl⟩) fun hno => absurd (entries_width (List.getElem_mem hlt)) hno

variable (hn : Named files) {j : Nat} (hj : j < files.length)
include hn

theorem Mounted.dirlookup_ends {Q : Option (Iptr × Nat) → Fs.State P → Prop}
    (hQ : ∀ ip x, x.inum = j + 2 → 0 < x.ref → x.locked = false →
      (x.valid = true → x.copy = getInode s.sb s.disk (j + 2)) → Q (some (ip, direntSize * (j + 2))) (s.setSlot ip x)) :
    Ends E (dirlookup dp files[j].target) Q s := by
  have hfew := hf.built.few
  rw [made_length] at hfew
  have hsize := hf.rootSize_toNat
  have htype : ((rounded files.length v).inode rootino).type = tDir := by
    rw [rounded_type]
    exact hf.built.type_of_lt (i := 0) (Nat.succ_pos _)
  have hall : j + 2 < dirents ((rounded files.length v).inode rootino).size := by
    rw [dirents, hsize]
    simp only [rootSize, direntSize, dirsiz, bsize]
    omega
  refine inodeAt_ends ?_
  rw [h.root_copy hf, if_neg (not_not.mpr htype), List.range_eq_range']
  generalize dirents ((rounded files.length v).inode rootino).size = k at hall ⊢
  refine ends_findSomeM (I := fun rest u => u = s ∧ ∃ e, e ≤ j + 2 ∧ rest = List.range' e (k - e))
    ⟨rfl, 0, Nat.zero_le _, rfl⟩ (fun e rest u hu => ?_) fun u hu => ?_
  · obtain ⟨rfl, e', he', hrest⟩ := hu
    have hlt : e' < k := by omega
    rw [show k - e' = k - (e' + 1) + 1 by omega, List.range'_succ] at hrest
    obtain ⟨rfl, rfl⟩ := List.cons.inj hrest
    have hentry : e < (entries files).length := by
      rw [entries_length]
      omega
    refine Ends.bind (h.readDirent_ends hf hentry _) ?_
    rintro de w ⟨rfl, rfl⟩
    rcases Nat.lt_or_eq_of_le he' with hbefore | rfl
    · obtain ⟨i, name, hde, hne⟩ := entries_before hn hj hbefore hentry
      rw [hde, ofBytes_newDirent]
      refine ends_ite (fun hm => absurd ?_ hne) fun _ => ends_pure ⟨rfl, e + 1, hbefore, rfl⟩
      exact (namecmp_strncpy _ _).mp hm.2
    · rw [entries_file files hj hentry, ofBytes_newDirent, Nat.mod_eq_of_lt (by simp only [ninodes] at hfew; omega)]
      refine ends_ite (fun _ => ?_) fun hno => absurd ⟨?_, ?_⟩ hno
      · refine ends_bind.mpr (h.iget_ends (by simp [newDirent, rootino]) fun ip x hx href hlock hcopy => ends_pure ?_)
        exact hQ ip x hx href hlock hcopy
      · exact Nat.succ_ne_zero _
      · exact (namecmp_strncpy _ _).mpr ((namecmp_eq_zero _ _).mpr rfl)
  · obtain ⟨-, e, he, hrest⟩ := hu
    have := congrArg List.length hrest
    rw [List.length_range', List.length_nil] at this
    omega

theorem Mounted.lookupRead_ends (off n : Word) :
    Ends E (lookupRead dp files[j].target off n) (fun r _ =>
      r = some (.ofNat 32 files[j].bytes.length, arrayRead files[j].bytes off.toNat n.toNat)) s := by
  have hmade : j + 1 < (made files).length := by
    rw [made_length]
    omega
  have hlive := hf.built.live_succ.mpr hmade
  have hnode : (made files)[j + 1] = ⟨tFile, files[j].bytes⟩ := by simp [made]
  have hinode : (rounded files.length v).inode (j + 2) = v.inode (j + 2) :=
    Volume.setInode_of_ne (by simp [rootino]) _
  refine ends_bind.mpr (h.dirlookup_ends hf hn hj fun ip x hx href hlock hcopy => ?_)
  have hget := h.getInode_eq hf (i := j + 2) hlive.1
  rw [hinode] at hget
  refine ends_bind.mpr (ilock_ends (d := v.inode (j + 2)) ?_ ?_ ?_ ?_ fun _ => ?_)
  · simp [hlock]
  · rw [setSlot_self]
    exact href
  · rw [setSlot_self]
    intro hval
    rw [hcopy hval, hget]
  · rw [setSlot_self, hx]
    exact fun _ => ⟨hget, hlive.2⟩
  · rw [setSlot_setSlot, setSlot_self]
    refine inodeAt_ends ?_
    rw [setSlot_self]
    have hrounded : (rounded files.length v).Live sb (j + 2) := (Volume.live_congr (rounded_type _ v _)).mpr hlive
    have hdev : ((rounded files.length v).inode (j + 2)).type ≠ tDev := by
      rw [rounded_type]
      exact hf.built.not_dev hlive
    have hcontent : (rounded files.length v).content (j + 2) = files[j].bytes := by
      have hv : v.content (j + 2) = files[j].bytes := (hf.built.content (j + 1) hmade).trans (congrArg Node.bytes hnode)
      rw [← hv, Volume.content, Volume.content, hinode]
      simp only [Volume.bytes, rounded_byte]
    have hlen : (v.inode (j + 2)).size.toNat = files[j].bytes.length := by
      rw [← hinode, ← Volume.content_length, hcontent]
    have htracks := h.tracks hf
    refine Ends.bind (readi_within (s := s.setSlot ip { x with locked := true, valid := true, copy := v.inode (j + 2) })
      htracks (hf.built.owned.setInode rfl rfl) hrounded ?_ hdev off n fun m hm => ?_) ?_
    · rw [setSlot_self, hinode]
    · rw [rounded_addr]
      refine hf.built.solid.noHoles (j + 2) hlive (hf.built.not_dev hlive) m ?_
      rw [hinode] at hm
      simp only [Volume.Covers, bsize] at hm ⊢
      omega
    · rintro r u ⟨rfl, rfl⟩
      refine ends_pure ?_
      rw [Volume.readi_content, hcontent, ← hlen]
      simp

end Read

/-- Files that fit are made, and the kernel finds each by its name and reads its bytes. -/
theorem mkfs_read_back (files : List File) (hroom : Room files) (hnames : Named files) :
    ∃ t, main files start = .ok ((), t) ∧ ∀ (dp : Iptr) (s : Fs.State P), Mounted t.disk dp s →
      ∀ (j : Nat) (hj : j < files.length) (off n : Word), ∃ u, lookupRead dp files[j].target off n s =
        .ok (some (.ofNat 32 files[j].bytes.length, arrayRead files[j].bytes off.toNat n.toNat), u) := by
  obtain ⟨t, v, b, ht, hf⟩ := main_returns hroom
  refine ⟨t, ht, fun dp s h j hj off n => ?_⟩
  obtain ⟨r, u, hu, rfl⟩ := (h.lookupRead_ends (E := fun _ => False) hf hnames hj off n).exists_ok fun _ => id
  exact ⟨u, hu⟩

def mountedRoot (image : Disk) : Fs.State (Fin 1) where
  sb := getSuperblock (image 1)
  disk := image
  icache := fun ip => if ip = 0 then ⟨rootino, 1, true, true, getInode (getSuperblock (image 1)) image rootino⟩
    else ⟨0, 0, false, false, .zero⟩
  ftable := fun _ => ⟨.none, 0, false, false, 0, 0⟩
  proc := fun _ => ⟨fun _ => none, none⟩
  log := ⟨0, false, []⟩
  logged := []
  txns := []

theorem mountedRoot_mounted (image : Disk) : Mounted image 0 (mountedRoot image) where
  super := rfl
  disk := rfl
  root := rfl
  used := Int.one_pos
  valid := rfl
  cached := fun ip href _ => by
    by_cases h : ip = 0
    · subst h
      rfl
    · simp [mountedRoot, h] at href
  idle := fun ip h => by simp [mountedRoot, h]
  room := ⟨1, rfl⟩

theorem threeFiles_named : Named threeFiles := ⟨by decide, by decide⟩

theorem threeFiles_read_back : ∃ t u v w, main threeFiles start = .ok ((), t) ∧
    lookupRead 0 [97] 1 5 (mountedRoot t.disk) = .ok (some (3, some [2, 3]), u) ∧
    lookupRead 0 [98] 1 3 (mountedRoot t.disk) = .ok (some (5, some [5, 6, 7]), v) ∧
    lookupRead 0 [99, 100] 0 8 (mountedRoot t.disk) = .ok (some (0, some []), w) := by
  obtain ⟨t, ht, hread⟩ := mkfs_read_back (P := Fin 1) threeFiles threeFiles_room threeFiles_named
  have hread := hread 0 (mountedRoot t.disk) (mountedRoot_mounted t.disk)
  obtain ⟨u, hu⟩ := hread 0 (by decide) 1 5
  obtain ⟨v, hv⟩ := hread 1 (by decide) 1 3
  obtain ⟨w, hw⟩ := hread 2 (by decide) 0 8
  exact ⟨t, u, v, w, ht, hu, hv, hw⟩

end Xv6.Mkfs
