import Mathlib.Data.Finset.Card
import Xv6.Fs.Spec
import Xv6.Lib.Ownership

/-!
# Volumes

What the file system stores, without the formats: the inodes, the blocks in use and the blocks. A place is where the
number of a block stands.
-/

open Function Xv6.Bytes Xv6.Log Xv6.Ownership

namespace Xv6.Fs

structure Volume where
  inode : Nat → Dinode
  used : Nat → Bool
  data : Nat → Block

inductive Place where
  | data (i : Nat) (k : Fin maxfile)
  | indirect (i : Nat)
deriving DecidableEq

def Place.inum : Place → Nat
  | .data i _ => i
  | .indirect i => i

namespace Volume

variable (v : Volume)

def indirectOf (i : Nat) : Nat := ((v.inode i).addrs indirect).toNat

def addr (i k : Nat) : Nat :=
  if h : k < ndirect then ((v.inode i).addrs ⟨k, Nat.lt_succ_of_lt h⟩).toNat
  else if v.indirectOf i = 0 then 0
  else (getAddr (v.data (v.indirectOf i)) (k - ndirect)).toNat

def byte (i x : Nat) : Byte := v.data (v.addr i (x / bsize)) (x % bsize)

def Live (sb : Superblock) (i : Nat) : Prop := i < sb.ninodes ∧ (v.inode i).type ≠ 0

instance (sb : Superblock) (i : Nat) : Decidable (v.Live sb i) := inferInstanceAs (Decidable (_ ∧ _))

def holds (sb : Superblock) : Place → Option Nat
  | .data i k => if v.Live sb i ∧ v.addr i k ≠ 0 then some (v.addr i k) else none
  | .indirect i => if v.Live sb i ∧ v.indirectOf i ≠ 0 then some (v.indirectOf i) else none

/-! ## Changes -/

def alloc (b : Nat) : Volume :=
  { v with used := update v.used b true, data := update v.data b fun _ => 0 }

def setInode (i : Nat) (d : Dinode) : Volume := { v with inode := update v.inode i d }

def setData (b : Nat) (blk : Block) : Volume := { v with data := update v.data b blk }

def setAddr (i : Nat) (k : Fin (ndirect + 1)) (a : Word) : Volume :=
  v.setInode i { v.inode i with addrs := update (v.inode i).addrs k a }

@[simp] theorem alloc_inode (b : Nat) : (v.alloc b).inode = v.inode := rfl
@[simp] theorem setData_inode (b : Nat) (blk : Block) : (v.setData b blk).inode = v.inode := rfl
@[simp] theorem setAddr_data (i : Nat) (k : Fin (ndirect + 1)) (a : Word) : (v.setAddr i k a).data = v.data := rfl

variable {v} {v' : Volume} {sb : Superblock}

@[simp] theorem setInode_self (i : Nat) (d : Dinode) : (v.setInode i d).inode i = d := update_self ..

theorem setInode_of_ne {i j : Nat} (h : j ≠ i) (d : Dinode) : (v.setInode i d).inode j = v.inode j :=
  update_of_ne h ..

/-! ## Free blocks -/

def free (sb : Superblock) (v : Volume) : Nat := {b ∈ Finset.range sb.size | v.used b = false}.card

theorem free_alloc {b : Nat} (hb : b < sb.size) (hfree : v.used b = false) : v.free sb = (v.alloc b).free sb + 1 := by
  have hset : {c ∈ Finset.range sb.size | (v.alloc b).used c = false} =
      {c ∈ Finset.range sb.size | v.used c = false}.erase b := by
    ext c
    rw [Finset.mem_filter, Finset.mem_erase, Finset.mem_filter]
    by_cases hc : c = b
    · simp [hc, alloc]
    · simp [hc, alloc]
  rw [free, free, hset, Finset.card_erase_add_one (by simp [hb, hfree])]

theorem free_eq_zero (h : ∀ b < sb.size, v.used b = true) : v.free sb = 0 := by
  simp only [free, Finset.card_eq_zero, Finset.filter_eq_empty_iff, Finset.mem_range]
  exact fun b hb => by simp [h b hb]

/-! ## Addresses -/

variable (v v') in
theorem addr_congr {i : Nat} (haddrs : (v'.inode i).addrs = (v.inode i).addrs)
    (hdata : v.indirectOf i ≠ 0 → v'.data (v.indirectOf i) = v.data (v.indirectOf i)) (k : Nat) :
    v'.addr i k = v.addr i k := by
  have hind : v'.indirectOf i = v.indirectOf i := by simp only [indirectOf, haddrs]
  unfold addr
  split
  · rw [haddrs]
  · rw [hind]
    split
    · rfl
    · rw [hdata (by assumption)]

theorem indirectOf_congr (h : v'.inode = v.inode) (i : Nat) : v'.indirectOf i = v.indirectOf i := by
  rw [indirectOf, h, indirectOf]

theorem live_congr {i : Nat} (h : (v'.inode i).type = (v.inode i).type) : v'.Live sb i ↔ v.Live sb i := by
  simp only [Live, h]

theorem holds_data {i k : Nat} (hk : k < maxfile) {b : Nat} :
    v.holds sb (.data i ⟨k, hk⟩) = some b ↔ v.Live sb i ∧ v.addr i k ≠ 0 ∧ v.addr i k = b := by
  simp only [holds]
  split
  case isTrue h => simp [h]
  case isFalse h =>
    simp only [reduceCtorEq, false_iff]
    exact fun h' => h ⟨h'.1, h'.2.1⟩

theorem holds_indirect {i b : Nat} :
    v.holds sb (.indirect i) = some b ↔ v.Live sb i ∧ v.indirectOf i ≠ 0 ∧ v.indirectOf i = b := by
  simp only [holds]
  split
  case isTrue h => simp [h]
  case isFalse h =>
    simp only [reduceCtorEq, false_iff]
    exact fun h' => h ⟨h'.1, h'.2.1⟩

theorem holds_congr (hlive : ∀ i, v'.Live sb i ↔ v.Live sb i)
    (haddr : ∀ i k, v.Live sb i → k < maxfile → v'.addr i k = v.addr i k)
    (hind : ∀ i, v.Live sb i → v'.indirectOf i = v.indirectOf i) (l : Place) :
    v'.holds sb l = v.holds sb l := by
  cases l with
  | data i k =>
    by_cases h : v.Live sb i
    · simp only [holds, hlive, haddr i k h k.isLt]
    · simp only [holds, hlive, h, false_and, ↓reduceIte]
  | indirect i =>
    by_cases h : v.Live sb i
    · simp only [holds, hlive, hind i h]
    · simp only [holds, hlive, h, false_and, ↓reduceIte]

/-! ## Ownership -/

/-- The blocks in use are those before the data area and those in some place, none of them in two. -/
structure Owned (sb : Superblock) (v : Volume) : Prop where
  owns : Owns v.used sb.InData (v.holds sb)
  kept : ∀ b < sb.datastart, v.used b = true

namespace Owned

variable (h : Owned sb v) {i j k m b : Nat}
include h

section

variable (hi : v.Live sb i)
include hi

theorem addr_inData (hk : k < maxfile) (ha : v.addr i k ≠ 0) : sb.InData (v.addr i k) :=
  h.owns.inside _ _ ((holds_data hk).mpr ⟨hi, ha, rfl⟩)

theorem addr_used (hk : k < maxfile) (ha : v.addr i k ≠ 0) : v.used (v.addr i k) = true :=
  h.owns.used_of_holds ((holds_data hk).mpr ⟨hi, ha, rfl⟩)

theorem indirect_inData (hx : v.indirectOf i ≠ 0) : sb.InData (v.indirectOf i) :=
  h.owns.inside _ _ (holds_indirect.mpr ⟨hi, hx, rfl⟩)

theorem indirect_used (hx : v.indirectOf i ≠ 0) : v.used (v.indirectOf i) = true :=
  h.owns.used_of_holds (holds_indirect.mpr ⟨hi, hx, rfl⟩)

theorem addr_inj (hk : k < maxfile) (hj : v.Live sb j) (hm : m < maxfile) (ha : v.addr i k ≠ 0)
    (he : v.addr i k = v.addr j m) : i = j ∧ k = m := by
  have hl := h.owns.once _ _ _ ((holds_data hk).mpr ⟨hi, ha, rfl⟩) ((holds_data hm).mpr ⟨hj, he ▸ ha, he.symm⟩)
  simpa using hl

theorem indirect_inj (hj : v.Live sb j) (hx : v.indirectOf i ≠ 0)
    (he : v.indirectOf i = v.indirectOf j) : i = j := by
  have hl := h.owns.once _ _ _ (holds_indirect.mpr ⟨hi, hx, rfl⟩) (holds_indirect.mpr ⟨hj, he ▸ hx, he.symm⟩)
  simpa using hl

theorem addr_ne_indirect (hk : k < maxfile) (hj : v.Live sb j) (ha : v.addr i k ≠ 0) :
    v.addr i k ≠ v.indirectOf j := by
  intro he
  have hl := h.owns.once _ _ _ ((holds_data hk).mpr ⟨hi, ha, rfl⟩) (holds_indirect.mpr ⟨hj, he ▸ ha, he.symm⟩)
  simp at hl

end

theorem addr_ne_free (hb : v.used b = false) (hi : v.Live sb i) (hk : k < maxfile) (ha : v.addr i k ≠ 0) :
    v.addr i k ≠ b := by
  rintro rfl
  rw [h.addr_used hi hk ha] at hb
  cases hb

theorem indirect_ne_free (hb : v.used b = false) (hi : v.Live sb i) (hx : v.indirectOf i ≠ 0) :
    v.indirectOf i ≠ b := by
  rintro rfl
  rw [h.indirect_used hi hx] at hb
  cases hb

theorem inData_of_free (hb : b < sb.size) (hfree : v.used b = false) : sb.InData b := by
  refine ⟨?_, hb⟩
  by_contra hlt
  rw [h.kept b (by omega)] at hfree
  cases hfree

omit h in
theorem congr (h : Owned sb v) (hused : v'.used = v.used) (hlive : ∀ i, v'.Live sb i ↔ v.Live sb i)
    (haddr : ∀ i k, v.Live sb i → k < maxfile → v'.addr i k = v.addr i k)
    (hind : ∀ i, v.Live sb i → v'.indirectOf i = v.indirectOf i) : Owned sb v' :=
  ⟨h.owns.congr (fun b _ => by rw [hused]) (holds_congr hlive haddr hind), fun b hb => by rw [hused]; exact h.kept b hb⟩

end Owned

end Volume

end Xv6.Fs
