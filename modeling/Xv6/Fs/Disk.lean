import Xv6.Log.Spec

/-!
# The file system on disk

The formats of `fs.h`.
-/

open Function Xv6.Bytes Xv6.Log

namespace Xv6.Fs

abbrev Half := BitVec 16
abbrev Word := BitVec 32

def bsize : Nat := 512
def ndirect : Nat := 12
def nindirect : Nat := bsize / 4
def maxfile : Nat := ndirect + nindirect
def ipb : Nat := bsize / 64
def bpb : Nat := bsize * 8
def dirsiz : Nat := 14
def rootino : Nat := 1

def tDir : Half := 1
def tFile : Half := 2
def tDev : Half := 3

/-! ## The super block -/

structure Superblock where
  size : Nat
  nblocks : Nat
  ninodes : Nat
  nlog : Nat
  logstart : Nat
  inodestart : Nat
  bmapstart : Nat
deriving DecidableEq

def getSuperblock (blk : Block) : Superblock :=
  ⟨getLe blk 0 4, getLe blk 4 4, getLe blk 8 4, getLe blk 12 4, getLe blk 16 4, getLe blk 20 4, getLe blk 24 4⟩

def iblock (sb : Superblock) (i : Nat) : Nat := i / ipb + sb.inodestart

def bblock (sb : Superblock) (b : Nat) : Nat := b / bpb + sb.bmapstart

def Superblock.datastart (sb : Superblock) : Nat := sb.size - sb.nblocks

/-- The areas come one after the other, and each is large enough. -/
structure Superblock.Valid (sb : Superblock) : Prop where
  inodes : 2 ≤ sb.inodestart
  bitmap : (sb.ninodes - 1) / ipb + sb.inodestart < sb.bmapstart
  data : (sb.size - 1) / bpb + sb.bmapstart < sb.datastart
  size : sb.datastart ≤ sb.size
  root : rootino < sb.ninodes
  /-- Block and inode numbers are `int`s in the loops of `balloc` and `ialloc`. -/
  int : sb.size < 2 ^ 31 ∧ sb.ninodes < 2 ^ 31

instance (sb : Superblock) : Decidable sb.Valid :=
  decidable_of_iff (2 ≤ sb.inodestart ∧ (sb.ninodes - 1) / ipb + sb.inodestart < sb.bmapstart ∧
    (sb.size - 1) / bpb + sb.bmapstart < sb.datastart ∧ sb.datastart ≤ sb.size ∧ rootino < sb.ninodes ∧
    sb.size < 2 ^ 31 ∧ sb.ninodes < 2 ^ 31)
    ⟨fun ⟨a, b, c, d, e, f⟩ => ⟨a, b, c, d, e, f⟩, fun ⟨a, b, c, d, e, f⟩ => ⟨a, b, c, d, e, f⟩⟩

def Superblock.InData (sb : Superblock) (b : Nat) : Prop := sb.datastart ≤ b ∧ b < sb.size

instance (sb : Superblock) (b : Nat) : Decidable (sb.InData b) := inferInstanceAs (Decidable (_ ∧ _))

section Areas

variable {sb : Superblock} (h : sb.Valid)
include h

theorem Superblock.Valid.iblock_bounds {i : Nat} (hi : i < sb.ninodes) :
    2 ≤ iblock sb i ∧ iblock sb i < sb.bmapstart := by
  have hdiv : i / ipb ≤ (sb.ninodes - 1) / ipb := Nat.div_le_div_right (by omega)
  exact ⟨le_trans h.inodes (Nat.le_add_left _ _), lt_of_le_of_lt (Nat.add_le_add_right hdiv _) h.bitmap⟩

theorem Superblock.Valid.bblock_bounds {b : Nat} (hb : b < sb.size) :
    sb.bmapstart ≤ bblock sb b ∧ bblock sb b < sb.datastart := by
  have hdiv : b / bpb ≤ (sb.size - 1) / bpb := Nat.div_le_div_right (by omega)
  exact ⟨Nat.le_add_left _ _, lt_of_le_of_lt (Nat.add_le_add_right hdiv _) h.data⟩

theorem Superblock.Valid.lt_bmapstart : 2 < sb.bmapstart :=
  lt_of_le_of_lt (h.iblock_bounds h.root).1 (h.iblock_bounds h.root).2

theorem Superblock.Valid.bmapstart_lt : sb.bmapstart < sb.datastart :=
  lt_of_le_of_lt (Nat.le_add_left _ _) h.data

end Areas

/-! ## Inodes -/

structure Dinode where
  type : Half
  major : Half
  minor : Half
  nlink : Half
  size : Word
  addrs : Fin (ndirect + 1) → Word
deriving DecidableEq

def Dinode.zero : Dinode := ⟨0, 0, 0, 0, 0, fun _ => 0⟩

def Dinode.widths : List Nat := [2, 2, 2, 2, 4] ++ List.replicate (ndirect + 1) 4

def Dinode.fields (d : Dinode) : List Nat :=
  [d.type.toNat, d.major.toNat, d.minor.toNat, d.nlink.toNat, d.size.toNat] ++
    (List.finRange (ndirect + 1)).map fun k => (d.addrs k).toNat

def Dinode.ofFields (fs : List Nat) : Dinode :=
  ⟨.ofNat 16 (fs.getD 0 0), .ofNat 16 (fs.getD 1 0), .ofNat 16 (fs.getD 2 0), .ofNat 16 (fs.getD 3 0),
    .ofNat 32 (fs.getD 4 0), fun k => .ofNat 32 (fs.getD (5 + k) 0)⟩

def Dinode.bytes (d : Dinode) : List Byte := packFields (Dinode.widths.zip d.fields)

def getInode (sb : Superblock) (disk : Disk) (i : Nat) : Dinode :=
  .ofFields (unpackFields Dinode.widths (readBytes (disk (iblock sb i)) (64 * (i % ipb)) 64))

def putInode (sb : Superblock) (disk : Disk) (i : Nat) (d : Dinode) : Block :=
  writeBytes (disk (iblock sb i)) (64 * (i % ipb)) d.bytes

/-! ## The free map -/

def mask (bi : Nat) : Byte := 1#8 <<< (bi % 8)

def testBit (blk : Block) (bi : Nat) : Bool := blk (bi / 8) &&& mask bi != 0

def setBit (blk : Block) (bi : Nat) : Block := update blk (bi / 8) (blk (bi / 8) ||| mask bi)

def clearBit (blk : Block) (bi : Nat) : Block := update blk (bi / 8) (blk (bi / 8) &&& ~~~mask bi)

def marked (sb : Superblock) (disk : Disk) (b : Nat) : Bool := testBit (disk (bblock sb b)) (b % bpb)

/-! ## Indirect blocks and directory entries -/

def getAddr (blk : Block) (j : Nat) : Word := .ofNat 32 (getLe blk (4 * j) 4)

def putAddr (blk : Block) (j : Nat) (a : Word) : Block := putLe blk (4 * j) 4 a.toNat

structure Dirent where
  inum : Nat
  name : List Byte
deriving DecidableEq

def Dirent.ofBytes (bs : List Byte) : Dirent := ⟨ofLe (bs.take 2), (bs.drop 2).take dirsiz⟩

/-- The inode number is cut to a `ushort`. -/
def Dirent.bytes (de : Dirent) : List Byte := toLe 2 de.inum ++ de.name

/-! ## What is read after a change -/

theorem bytes_length (d : Dinode) : d.bytes.length = 64 := rfl

theorem ofFields_fields (d : Dinode) : Dinode.ofFields d.fields = d := by
  have haddrs : ∀ k : Fin (ndirect + 1), d.fields.getD (5 + k) 0 = (d.addrs k).toNat := by
    intro k
    have hk : (List.finRange (ndirect + 1))[k.val]? = some k := by
      rw [List.getElem?_eq_getElem (by rw [List.length_finRange]; exact k.isLt), List.getElem_finRange]
      rfl
    rw [Nat.add_comm]
    simp only [Dinode.fields, List.getD, List.cons_append, List.nil_append, List.getElem?_cons_succ, List.getElem?_map,
      hk, Option.map_some, Option.getD_some]
  obtain ⟨type, major, minor, nlink, size, addrs⟩ := d
  simp only [Dinode.ofFields, haddrs, BitVec.ofNat_toNat, BitVec.setWidth_eq]
  simp [Dinode.fields]

theorem unpack_bytes (d : Dinode) : unpackFields Dinode.widths d.bytes = d.fields := by
  have hlen : Dinode.widths.length = d.fields.length := rfl
  have h := unpackFields_packFields (Dinode.widths.zip d.fields) ?_
  · rwa [List.map_fst_zip (by rw [hlen]), List.map_snd_zip (by rw [hlen])] at h
  · intro f hf
    have hshort : ∀ x : Half, x.toNat < 256 ^ 2 := fun x => x.isLt
    have hword : ∀ x : Word, x.toNat < 256 ^ 4 := fun x => x.isLt
    simp only [Dinode.widths, Dinode.fields, List.cons_append, List.nil_append, List.zip_cons_cons,
      List.mem_cons] at hf
    rcases hf with rfl | rfl | rfl | rfl | rfl | hf
    iterate 4 exact hshort _
    · exact hword _
    · obtain ⟨hw, hv⟩ := List.of_mem_zip (a := f.1) (b := f.2) hf
      obtain ⟨k, -, hk⟩ := List.mem_map.mp hv
      rw [List.eq_of_mem_replicate hw, ← hk]
      exact hword _

theorem getInode_congr {sb : Superblock} {disk disk' : Disk} {i : Nat}
    (h : disk' (iblock sb i) = disk (iblock sb i)) : getInode sb disk' i = getInode sb disk i := by
  simp only [getInode, h]

theorem getInode_putInode (sb : Superblock) (disk : Disk) (i j : Nat) (d : Dinode) :
    getInode sb (update disk (iblock sb i) (putInode sb disk i d)) j =
      if j = i then d else getInode sb disk j := by
  split
  case isTrue he =>
    subst he
    have hread := readBytes_writeBytes (disk (iblock sb j)) (64 * (j % ipb)) d.bytes (spread_nat _)
    rw [bytes_length] at hread
    rw [getInode, update_self, putInode, hread, unpack_bytes, ofFields_fields]
  case isFalse he =>
    by_cases hb : iblock sb j = iblock sb i
    · have hread : readBytes (putInode sb disk i d) (64 * (j % ipb)) 64 =
          readBytes (disk (iblock sb i)) (64 * (j % ipb)) 64 := by
        apply readBytes_writeBytes_apart
        rw [bytes_length]
        intro a ha c hc
        have hdiv : i / ipb = j / ipb := by
          unfold iblock at hb
          omega
        have hi := Nat.div_add_mod i ipb
        have hj := Nat.div_add_mod j ipb
        have hne : i % ipb ≠ j % ipb := by
          intro hmod
          rw [hdiv, hmod, hj] at hi
          exact he hi
        simp only [Nat.cast_id]
        omega
      rw [getInode, hb, update_self, hread, getInode, hb]
    · exact getInode_congr (update_of_ne hb _ _)

/-! ### Bits -/

theorem mask_getLsbD (bi k : Nat) (hk : k < 8) : (mask bi).getLsbD k = decide (k = bi % 8) := by
  rw [mask, BitVec.getLsbD_shiftLeft, BitVec.getLsbD_one, decide_eq_true hk, Bool.true_and, Bool.eq_iff_iff]
  simp only [Bool.and_eq_true, Bool.not_eq_true', decide_eq_false_iff_not, decide_eq_true_eq]
  omega

theorem testBit_eq (blk : Block) (bi : Nat) : testBit blk bi = (blk (bi / 8)).getLsbD (bi % 8) := by
  have hlt : bi % 8 < 8 := Nat.mod_lt _ (by decide)
  unfold testBit
  rw [Bool.eq_iff_iff, bne_iff_ne, ne_eq, not_iff_comm, Bool.not_eq_true]
  constructor
  · intro h
    ext k hk
    rw [BitVec.getElem_and, ← BitVec.getLsbD_eq_getElem, ← BitVec.getLsbD_eq_getElem, mask_getLsbD bi k hk]
    by_cases he : k = bi % 8
    · simp [he, h]
    · simp [he]
  · intro h
    have := congrArg (BitVec.getLsbD · (bi % 8)) h
    simpa [mask_getLsbD bi _ hlt] using this

theorem bit_eq_iff {a c : Nat} (hbyte : c / 8 = a / 8) : c % 8 = a % 8 ↔ c = a := by omega

theorem testBit_setBit (blk : Block) (a c : Nat) : testBit (setBit blk a) c = (decide (c = a) || testBit blk c) := by
  rw [testBit_eq, testBit_eq, setBit]
  by_cases hbyte : c / 8 = a / 8
  · rw [hbyte, update_self, BitVec.getLsbD_or, mask_getLsbD _ _ (Nat.mod_lt _ (by decide)),
      decide_eq_decide.mpr (bit_eq_iff hbyte), Bool.or_comm]
  · have hne : c ≠ a := fun h => hbyte (by rw [h])
    rw [update_of_ne hbyte, decide_eq_false hne, Bool.false_or]

theorem eq_of_bblock {sb : Superblock} {b c : Nat} (hblock : bblock sb c = bblock sb b) (hbit : c % bpb = b % bpb) :
    c = b := by
  have hdiv : c / bpb = b / bpb := by
    unfold bblock at hblock
    omega
  rw [← Nat.div_add_mod c bpb, ← Nat.div_add_mod b bpb, hdiv, hbit]

theorem marked_congr {sb : Superblock} {disk disk' : Disk} {b : Nat} (h : disk' (bblock sb b) = disk (bblock sb b)) :
    marked sb disk' b = marked sb disk b := by
  simp only [marked, h]

theorem marked_setBit (sb : Superblock) (disk : Disk) (b c : Nat) :
    marked sb (update disk (bblock sb b) (setBit (disk (bblock sb b)) (b % bpb))) c =
      (decide (c = b) || marked sb disk c) := by
  by_cases hblock : bblock sb c = bblock sb b
  · rw [marked, hblock, update_self, testBit_setBit, marked, hblock]
    congr 2
    exact propext ⟨eq_of_bblock hblock, fun h => by rw [h]⟩
  · have hne : c ≠ b := fun h => hblock (by rw [h])
    rw [marked_congr (update_of_ne hblock _ _), decide_eq_false hne, Bool.false_or]

/-! ### Addresses -/

theorem getAddr_putAddr (blk : Block) (j k : Nat) (a : Word) :
    getAddr (putAddr blk j a) k = if k = j then a else getAddr blk k := by
  split
  case isTrue he =>
    subst he
    rw [getAddr, putAddr, getLe_putLe _ _ _ _ (spread_nat _) a.isLt]
    simp
  case isFalse he =>
    rw [getAddr, putAddr, getLe_putLe_apart]
    · rfl
    · intro x hx y hy
      simp only [Nat.cast_id]
      omega

end Xv6.Fs
