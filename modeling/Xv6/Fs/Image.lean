import Mathlib.Data.List.GetD
import Xv6.Fs.Blocks

/-!
# Small disks

Disks with the layout of `mkfs` and a root directory in the first data block.
-/

open Xv6.Bytes Xv6.Log Xv6.Ownership

namespace Xv6.Fs

def mkfsSuper : Superblock := ⟨1000, 941, 200, 30, 2, 32, 58⟩

def Superblock.bytes (sb : Superblock) : List Byte :=
  packFields [(4, sb.size), (4, sb.nblocks), (4, sb.ninodes), (4, sb.nlog), (4, sb.logstart), (4, sb.inodestart),
    (4, sb.bmapstart)]

def listBlock (bs : List Byte) : Block := fun o => bs.getD o 0

def name (bs : List Byte) : List Byte := strncpy dirsiz bs

def rootDinode : Dinode := ⟨tDir, 0, 0, 1, 512, fun k => if k = 0 then 59 else 0⟩

def emptyFile : Dinode := ⟨tFile, 0, 0, 1, 0, fun _ => 0⟩

def rootBits : List Byte := List.replicate 7 255 ++ [15]

def image (inodes : List Dinode) (entries : List Dirent) : Disk := fun b =>
  if b = 1 then listBlock mkfsSuper.bytes
  else if b = 32 then listBlock (inodes.flatMap Dinode.bytes)
  else if b = 58 then listBlock rootBits
  else if b = 59 then listBlock (entries.flatMap Dirent.bytes)
  else fun _ => 0

def dots : List Dirent := [⟨1, name dot⟩, ⟨1, name dotdot⟩]

/-- What `mkfs` makes of one empty file, `f`. -/
def fileImage : Disk := image [.zero, rootDinode, emptyFile] (dots ++ [⟨2, name [102]⟩])

theorem mkfsSuper_valid : mkfsSuper.Valid := by decide

structure Rooted (v : Volume) : Prop where
  bits : ∀ b < mkfsSuper.size, v.used b = decide (b < 60)
  rootType : (v.inode 1).type = tDir
  rootSize : (v.inode 1).size = 512
  rootAddrs : ∀ k, (v.inode 1).addrs k = if k = 0 then 59 else 0
  addrs : ∀ i < mkfsSuper.ninodes, i ≠ 1 → ∀ k, (v.inode i).addrs k = 0
  size : ∀ i < mkfsSuper.ninodes, i ≠ 1 → (v.inode i).size = 0

namespace Rooted

variable {v : Volume} (h : Rooted v)
include h

theorem indirectOf_root : v.indirectOf 1 = 0 := by
  rw [Volume.indirectOf, h.rootAddrs]
  rfl

theorem indirectOf_rest {i : Nat} (hi : i < mkfsSuper.ninodes) (h1 : i ≠ 1) : v.indirectOf i = 0 := by
  rw [Volume.indirectOf, h.addrs i hi h1]
  rfl

theorem addr_root (k : Nat) : v.addr 1 k = if k = 0 then 59 else 0 := by
  by_cases hk : k < ndirect
  · rw [Volume.addr_of_lt hk, h.rootAddrs]
    simp only [Fin.ext_iff, Fin.val_zero]
    split <;> rfl
  · rw [Volume.addr_of_indirectOf_zero h.indirectOf_root (Nat.not_lt.mp hk), if_neg]
    rintro rfl
    exact hk (by decide)

theorem addr_rest {i : Nat} (hi : i < mkfsSuper.ninodes) (h1 : i ≠ 1) (k : Nat) : v.addr i k = 0 := by
  by_cases hk : k < ndirect
  · rw [Volume.addr_of_lt hk, h.addrs i hi h1]
    rfl
  · exact Volume.addr_of_indirectOf_zero (h.indirectOf_rest hi h1) (Nat.not_lt.mp hk)

theorem holds_iff (l : Place) (b : Nat) :
    v.holds mkfsSuper l = some b ↔ l = .data 1 ⟨0, by decide⟩ ∧ b = 59 := by
  have hlive : v.Live mkfsSuper 1 := ⟨by decide, by rw [h.rootType]; decide⟩
  cases l with
  | data i k =>
    rw [Volume.holds_data k.isLt]
    by_cases hi : i = 1
    · subst hi
      rw [h.addr_root]
      by_cases hk : k.val = 0
      · simp [hlive, hk, Fin.ext_iff, eq_comm]
      · simp [hk, Fin.ext_iff]
    · simp only [Place.data.injEq, hi, false_and, iff_false, not_and]
      intro hl hne
      exact absurd (h.addr_rest hl.1 hi k) hne
  | indirect i =>
    rw [Volume.holds_indirect]
    simp only [reduceCtorEq, false_and, iff_false, not_and]
    intro hl hne
    by_cases hi : i = 1
    · subst hi
      exact absurd h.indirectOf_root hne
    · exact absurd (h.indirectOf_rest hl.1 hi) hne

theorem owned : v.Owned mkfsSuper := by
  refine ⟨⟨fun l b hl => ?_, fun l m b hl hm => ?_, fun b hb => ?_⟩, fun b hb => ?_⟩
  · rw [((h.holds_iff l b).mp hl).2]
    decide
  · rw [((h.holds_iff l b).mp hl).1, ((h.holds_iff m b).mp hm).1]
  · have hlow : 59 ≤ b := hb.1
    rw [h.bits b hb.2, decide_eq_true_eq]
    constructor
    · intro hlt
      exact ⟨_, (h.holds_iff _ b).mpr ⟨rfl, by omega⟩⟩
    · rintro ⟨l, hl⟩
      have := ((h.holds_iff l b).mp hl).2
      omega
  · have hlow : b < 59 := hb
    rw [h.bits b (by simp only [mkfsSuper]; omega), decide_eq_true_eq]
    omega

theorem rootSize_toNat : (v.inode 1).size.toNat = 512 := by
  rw [h.rootSize]
  rfl

theorem solid : v.Solid mkfsSuper := by
  refine ⟨h.owned, fun i hl _ k hk => ?_⟩
  by_cases hi : i = 1
  · subst hi
    rw [h.rootSize_toNat] at hk
    obtain rfl : k = 0 := by
      simp only [bsize] at hk
      omega
    rw [h.addr_root]
    decide
  · rw [h.size i hl.1 hi] at hk
    exact absurd hk (Nat.not_lt_zero _)

end Rooted

theorem readBytes_listBlock_append (xs ys : List Byte) (a n : Nat) :
    readBytes (listBlock (xs ++ ys)) (xs.length + a) n = readBytes (listBlock ys) a n := by
  induction n generalizing a with
  | zero => rfl
  | succ n ih =>
    rw [readBytes, readBytes, Nat.add_assoc, ih, listBlock, listBlock, List.getD_append_right _ _ _ _ (by omega),
      Nat.add_sub_cancel_left]

theorem readBytes_listBlock (xs ys : List Byte) : readBytes (listBlock (xs ++ ys)) 0 xs.length = xs := by
  refine List.ext_getElem (by simp) fun k hk hk' => ?_
  rw [readBytes_getElem, listBlock]
  simp [List.getElem?_append_left hk', hk']

theorem readBytes_zero (a n : Nat) : readBytes (fun _ => (0 : Byte)) a n = List.replicate n 0 := by
  induction n generalizing a with
  | zero => rfl
  | succ n ih => rw [readBytes, ih, List.replicate_succ]

theorem zero_bytes : Dinode.zero.bytes = List.replicate 64 0 := by decide

theorem readBytes_inodes (inodes : List Dinode) (i : Nat) :
    readBytes (listBlock (inodes.flatMap Dinode.bytes)) (64 * i) 64 = (inodes.getD i .zero).bytes := by
  induction inodes generalizing i with
  | nil => exact (readBytes_zero _ _).trans zero_bytes.symm
  | cons d rest ih =>
    rw [List.flatMap_cons]
    cases i with
    | zero => exact readBytes_listBlock d.bytes _
    | succ i =>
      have hoff : 64 * (i + 1) = d.bytes.length + 64 * i := by
        rw [bytes_length]
        omega
      rw [hoff, readBytes_listBlock_append, ih]
      rfl

theorem getInode_image {inodes : List Dinode} {entries : List Dirent} {i : Nat} (hn : inodes.length ≤ ipb)
    (hi : i < mkfsSuper.ninodes) : getInode mkfsSuper (image inodes entries) i = inodes.getD i .zero := by
  have hread : readBytes (image inodes entries (iblock mkfsSuper i)) (64 * (i % ipb)) 64 =
      (inodes.getD i .zero).bytes := by
    by_cases hlow : i < 8
    · have hb : iblock mkfsSuper i = 32 := by
        change i / 8 + 32 = 32
        omega
      have hmod : i % ipb = i := Nat.mod_eq_of_lt hlow
      rw [hb, hmod]
      exact readBytes_inodes inodes i
    · have hi' : i < 200 := hi
      have hb : iblock mkfsSuper i = i / 8 + 32 := rfl
      rw [List.getD_eq_default _ _ (Nat.le_trans hn (Nat.not_lt.mp hlow)), hb, image, if_neg (by omega),
        if_neg (by omega), if_neg (by omega), if_neg (by omega), readBytes_zero, zero_bytes]
  rw [getInode, hread, unpack_bytes, ofFields_fields]

theorem image_rooted {d : Dinode} (hsize : d.size = 0) (haddrs : ∀ k, d.addrs k = 0) (entries : List Dirent) :
    Rooted (stored mkfsSuper (image [.zero, rootDinode, d] entries)) := by
  have hinode : ∀ i < mkfsSuper.ninodes, (stored mkfsSuper (image [.zero, rootDinode, d] entries)).inode i =
      [.zero, rootDinode, d].getD i .zero := fun i hi => getInode_image (show 3 ≤ ipb by decide) hi
  have hroot := hinode 1 (by decide)
  have hplain : ∀ i < mkfsSuper.ninodes, i ≠ 1 → ([.zero, rootDinode, d].getD i .zero).size = 0 ∧
      ∀ k, ([.zero, rootDinode, d].getD i .zero).addrs k = 0 := by
    intro i _ h1
    match i, h1 with
    | 0, _ => exact ⟨rfl, fun _ => rfl⟩
    | 2, _ => exact ⟨hsize, haddrs⟩
    | i + 3, _ => exact ⟨rfl, fun _ => rfl⟩
  refine ⟨fun b hb => ?_, by rw [hroot]; rfl, by rw [hroot]; rfl, fun k => by rw [hroot]; rfl,
    fun i hi h1 => by rw [hinode i hi]; exact (hplain i hi h1).2,
    fun i hi h1 => by rw [hinode i hi]; exact (hplain i hi h1).1⟩
  have hbits : ∀ b < 1000, testBit (listBlock rootBits) (b % bpb) = decide (b < 60) := by decide +kernel
  have hblock : bblock mkfsSuper b = 58 := by
    have hb : b < 1000 := hb
    simp only [bblock, bpb, bsize, mkfsSuper]
    omega
  change testBit (image _ entries (bblock mkfsSuper b)) (b % bpb) = _
  rw [hblock]
  exact hbits b hb

theorem fileImage_file : getInode mkfsSuper fileImage 2 = emptyFile :=
  getInode_image (by decide) (by decide)

theorem fileImage_rooted : Rooted (stored mkfsSuper fileImage) := image_rooted rfl (fun _ => rfl) _

end Xv6.Fs
