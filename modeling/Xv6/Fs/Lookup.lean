import Xv6.Fs.Directory
import Xv6.Fs.Inodes
import Xv6.Fs.ReadWrite
import Xv6.Lib.Slots

/-!
# Looking up names

`dirlookup` finds the first entry that is in use and has the name.
-/

open Xv6.Bytes Xv6.Log Xv6.Code

namespace Xv6.Fs

def Dirent.key (de : Dirent) : Option (List Byte) := if de.inum = 0 then none else some (strncpy dirsiz de.name)

theorem key_eq_some {de : Dirent} {name : List Byte} :
    de.key = some (strncpy dirsiz name) ↔ de.inum ≠ 0 ∧ namecmp name de.name = 0 := by
  rw [Dirent.key, namecmp_eq_zero]
  split
  case isTrue h => exact iff_of_false nofun fun hc => hc.1 h
  case isFalse h => rw [Option.some.injEq, and_iff_right h, eq_comm]

theorem key_eq_none {de : Dirent} : de.key = none ↔ de.inum = 0 := by
  rw [Dirent.key]
  split
  case isTrue h => exact iff_of_true rfl h
  case isFalse h => exact iff_of_false nofun h

theorem key_newDirent (inum : Nat) (name : List Byte) :
    (newDirent inum name).key = if inum = 0 then none else some (strncpy dirsiz name) := by
  rw [Dirent.key, newDirent, strncpy_strncpy]

/-! ## The entries of a directory -/

namespace Volume

variable {sb : Superblock} {v v' : Volume} {i e : Nat}

def slots (v : Volume) (i : Nat) : List Dirent :=
  (List.range ((v.inode i).size.toNat / direntSize)).map fun e => .ofBytes (v.bytes i (direntSize * e) direntSize)

@[simp] theorem slots_length (v : Volume) (i : Nat) : (v.slots i).length = (v.inode i).size.toNat / direntSize := by
  simp [slots]

theorem slots_getElem? (v : Volume) (i e : Nat) : (v.slots i)[e]? =
    if e < (v.inode i).size.toNat / direntSize then some (.ofBytes (v.bytes i (direntSize * e) direntSize))
    else none := by
  rw [slots, List.getElem?_map]
  split
  case isTrue h =>
    rw [List.getElem?_range h]
    rfl
  case isFalse h =>
    rw [List.getElem?_eq_none (by simpa using h)]
    rfl

def find (v : Volume) (i : Nat) (name : List Byte) : Option Nat :=
  Slots.find Dirent.key (v.slots i) (strncpy dirsiz name)

/-- The inode number for the name, and the offset of the entry. -/
def lookup (v : Volume) (i : Nat) (name : List Byte) : Option (Nat × Nat) :=
  (Slots.get Dirent.key (v.slots i) (strncpy dirsiz name)).map fun x => (x.2.inum, direntSize * x.1)

theorem lookup_eq_none {name : List Byte} : v.lookup i name = none ↔ v.find i name = none := by
  rw [lookup, Option.map_eq_none_iff, Slots.get_eq_none, find]

theorem lookup_of_find {name : List Byte} (he : e < (v.slots i).length) (h : v.find i name = some e) :
    v.lookup i name = some ((v.slots i)[e].inum, direntSize * e) := by
  rw [find] at h
  rw [lookup, Slots.get, h, Option.bind_some, List.getElem?_eq_getElem he]
  rfl

theorem bytes_congr {off off' n : Nat} (h : ∀ x < n, v'.byte i (off + x) = v.byte i (off' + x)) :
    v'.bytes i off n = v.bytes i off' n := by
  simp only [bytes]
  exact List.map_congr_left fun x hx => h x (List.mem_range.mp hx)

theorem Updated.slots {bs : List Byte} (h : v.Updated sb v' i (direntSize * e) bs) (hs : v.Solid sb)
    (hi : v.Stores sb i) (hwhole : direntSize ∣ (v.inode i).size.toNat) (hlen : bs.length = direntSize)
    (he : e ≤ (v.slots i).length) : v'.slots i = Slots.put (v.slots i) e (.ofBytes bs) := by
  obtain ⟨n, hn⟩ := hwhole
  have hpos : 0 < direntSize := by decide
  have hold : (v.inode i).size.toNat / direntSize = n := by rw [hn, Nat.mul_div_cancel_left _ hpos]
  have hnew : (v'.inode i).size.toNat / direntSize = max n (e + 1) := by
    rw [h.size, hn, hlen]
    simp only [direntSize, dirsiz]
    omega
  refine List.ext_getElem? fun k => ?_
  rw [Slots.put_getElem? he, slots_getElem?, slots_getElem?, hold, hnew]
  rw [slots_length, hold] at he
  by_cases hke : k = e
  · subst hke
    have hbytes : v'.bytes i (direntSize * k) direntSize = bs := by
      refine List.ext_getElem (by rw [bytes_length, hlen]) fun x _ hx => ?_
      rw [← h.byte_new hx]
      simp [bytes]
    rw [if_pos rfl, if_pos (by omega), hbytes]
  · rw [if_neg hke]
    refine ite_congr (by rw [eq_iff_iff]; omega) (fun hk => ?_) fun _ => rfl
    rw [bytes_congr fun x hx => h.byte_old hs hi ?_ (.inr ?_)]
    · simp only [hn, direntSize, dirsiz] at hx ⊢
      omega
    · simp only [hlen, direntSize, dirsiz] at hx ⊢
      omega

end Volume

/-! ## References -/

variable {P : Type} {sb : Superblock} {v v' : Volume} {dp ip : Iptr} {i e : Nat} {s t : State P} {E : Fail → Prop}

inductive Got (s : State P) (i : Nat) (ip : Iptr) : Inode → Prop where
  | shared (hpos : 0 < (s.icache ip).ref) (hinum : (s.icache ip).inum = i) :
      Got s i ip { s.icache ip with ref := (s.icache ip).ref + 1 }
  | fresh (hzero : (s.icache ip).ref = 0) (hnew : ∀ q, 0 < (s.icache q).ref → (s.icache q).inum ≠ i) :
      Got s i ip { s.icache ip with inum := i, ref := 1, valid := false }

theorem Got.inum {x : Inode} (h : Got s i ip x) : x.inum = i := by
  cases h with
  | shared _ hinum => exact hinum
  | fresh => rfl

theorem Got.ref {x : Inode} (h : Got s i ip x) : x.ref = (s.icache ip).ref + 1 := by
  cases h with
  | shared => rfl
  | fresh hzero => rw [hzero]; rfl

theorem iget_ends (hfull : (∀ q, (s.icache q).ref ≠ 0) → E (.panic .igetNoInodes)) {Q : Iptr → State P → Prop}
    (hQ : ∀ ip x, Got s i ip x → Q ip (s.setSlot ip x)) : Ends E (iget i) Q s := by
  refine ends_get_bind ?_
  cases hfind : (List.finRange ninode).find? fun ip => 0 < (s.icache ip).ref ∧ (s.icache ip).inum = i with
  | some ip =>
    obtain ⟨hpos, hinum⟩ : 0 < (s.icache ip).ref ∧ (s.icache ip).inum = i := by simpa using List.find?_some hfind
    exact ends_modify_bind (ends_pure (hQ ip _ (.shared hpos hinum)))
  | none =>
    have hnew : ∀ q, 0 < (s.icache q).ref → (s.icache q).inum ≠ i := fun q hpos hinum => by
      simpa [hpos, hinum] using List.find?_eq_none.mp hfind q (List.mem_finRange q)
    cases hempty : (List.finRange ninode).find? fun ip => (s.icache ip).ref = 0 with
    | none => exact ends_stop (hfull fun q hzero => by
        simpa [hzero] using List.find?_eq_none.mp hempty q (List.mem_finRange q))
    | some ip =>
      have hzero : (s.icache ip).ref = 0 := by simpa using List.find?_some hempty
      exact ends_modify_bind (ends_pure (hQ ip _ (.fresh hzero hnew)))

theorem iput_ends (hkeep : ¬((s.icache ip).ref = 1 ∧ (s.icache ip).valid = true ∧ (s.icache ip).copy.nlink = 0))
    {Q : Unit → State P → Prop} (hQ : Q () (s.setSlot ip { s.icache ip with ref := (s.icache ip).ref - 1 })) :
    Ends E (iput ip) Q s := by
  refine inodeAt_ends ?_
  rw [if_neg hkeep]
  exact ends_modify hQ

/-! ## `dirlookup` -/

structure OpenDir (sb : Superblock) (v : Volume) (dp : Iptr) (i : Nat) (s : State P) : Prop where
  sbEq : s.sb = sb
  tracks : Tracks sb v v.inode s.disk
  solid : v.Solid sb
  live : v.Live sb i
  dir : (v.inode i).type = tDir
  whole : direntSize ∣ (v.inode i).size.toNat
  inum : (s.icache dp).inum = i
  ref : 1 ≤ (s.icache dp).ref
  copy : (s.icache dp).copy = v.inode i

namespace OpenDir

variable (h : OpenDir sb v dp i s)
include h

theorem not_dev : (v.inode i).type ≠ tDev := by
  rw [h.dir]
  decide

theorem size_eq : (v.inode i).size.toNat = direntSize * (v.slots i).length := by
  rw [Volume.slots_length, Nat.mul_div_cancel' h.whole]

theorem dirents_eq : dirents (v.inode i).size = (v.slots i).length := by
  rw [dirents, h.size_eq]
  simp only [direntSize, dirsiz]
  omega

theorem slot_fits (he : e < (v.slots i).length) : direntSize * e + direntSize ≤ (v.inode i).size.toNat := by
  rw [h.size_eq]
  exact Nat.mul_le_mul_left _ he

theorem toNat_off (he : e ≤ (v.slots i).length) : (BitVec.ofNat 32 (direntSize * e)).toNat = direntSize * e := by
  have hsize := h.solid.size_le h.live h.not_dev
  apply Volume.toNat_ofNat_block
  rw [Volume.slots_length] at he
  simp only [maxfile, ndirect, nindirect, bsize, direntSize, dirsiz] at hsize he ⊢
  omega

theorem readDirent_ends (he : e < (v.slots i).length) (err : Panic) :
    Ends E (readDirent dp e err) (fun de t => de = (v.slots i)[e] ∧ t = s) s := by
  have hfits := h.slot_fits he
  have hoff := h.toNat_off he.le
  have hsixteen : (BitVec.ofNat 32 direntSize).toNat = direntSize := rfl
  have hgood : ¬(BitVec.ofNat 32 (direntSize * e) > (v.inode i).size ∨
      BitVec.ofNat 32 (direntSize * e) + BitVec.ofNat 32 direntSize < BitVec.ofNat 32 (direntSize * e)) := by
    have hsize := h.solid.size_le h.live h.not_dev
    rw [not_or, gt_iff_lt, BitVec.lt_def, BitVec.lt_def, BitVec.toNat_add, hoff, hsixteen]
    simp only [maxfile, ndirect, nindirect, bsize, direntSize, dirsiz] at hsize hfits ⊢
    omega
  have hslot : (v.slots i)[e] = .ofBytes (v.bytes i (direntSize * e) direntSize) := by simp [Volume.slots]
  refine Ends.bind (readi_ends h.solid h.live h.copy h.tracks h.not_dev _ _) ?_
  rintro bs t ⟨rfl, rfl⟩
  rw [Volume.readi, if_neg hgood, hoff, hsixteen, Nat.min_eq_left (by omega)]
  exact ends_ite (fun _ => ends_pure ⟨hslot.symm, rfl⟩) fun hlen => absurd (Volume.bytes_length ..) hlen

theorem search_ends {α : Type} (p : Dirent → Bool) (err : Panic) {g : Nat → Dirent → Prog P (Option α)}
    {Q : Option α → State P → Prop} (hno : ∀ e de, p de = false → g e de = pure none)
    (hyes : ∀ e, ∀ he : e < (v.slots i).length, (v.slots i).findIdx? p = some e →
      Ends E (g e (v.slots i)[e]) (fun x u => x ≠ none ∧ Q x u) s)
    (hnone : (v.slots i).findIdx? p = none → Q none s) :
    Ends E ((List.range (dirents (v.inode i).size)).findSomeM? fun e => do
      let de ← readDirent dp e err
      g e de) Q s := by
  rw [h.dirents_eq, List.range_eq_range']
  refine ends_findSomeM (I := fun rest t => t = s ∧ ∃ e, rest = List.range' e ((v.slots i).length - e) ∧
    ∀ j, ∀ hj : j < (v.slots i).length, j < e → p (v.slots i)[j] = false) ⟨rfl, 0, rfl, nofun⟩ ?_ ?_
  · rintro e rest t ⟨rfl, e', hrest, hbefore⟩
    have hlt : e' < (v.slots i).length := by
      by_contra hle
      rw [Nat.sub_eq_zero_of_le (Nat.not_lt.mp hle)] at hrest
      cases hrest
    rw [show (v.slots i).length - e' = (v.slots i).length - (e' + 1) + 1 by omega, List.range'_succ] at hrest
    obtain ⟨rfl, rfl⟩ := List.cons.inj hrest
    refine Ends.bind (h.readDirent_ends hlt err) ?_
    rintro de u ⟨rfl, rfl⟩
    cases hp : p (v.slots i)[e] with
    | true =>
      refine (hyes e hlt ?_).mono fun x u hx => ?_
      · exact List.findIdx?_eq_some_iff_getElem.mpr ⟨hlt, hp, fun j hj => by simpa using hbefore j (hj.trans hlt) hj⟩
      · cases x with
        | none => exact absurd rfl hx.1
        | some a => exact hx.2
    | false =>
      rw [hno e _ hp]
      refine ends_pure ⟨rfl, e + 1, rfl, fun j hj hje => ?_⟩
      rcases Nat.lt_succ_iff_lt_or_eq.mp hje with hlt | rfl
      · exact hbefore j hj hlt
      · exact hp
  · rintro t ⟨rfl, e, hrest, hbefore⟩
    have hlen := congrArg List.length hrest
    rw [List.length_nil, List.length_range'] at hlen
    refine hnone (List.findIdx?_eq_none_iff.mpr fun de hde => ?_)
    obtain ⟨j, hj, rfl⟩ := List.getElem_of_mem hde
    exact hbefore j hj (by omega)

theorem dirlookup_ends (hfull : (∀ q, (s.icache q).ref ≠ 0) → E (.panic .igetNoInodes)) (name : List Byte)
    {Q : Option (Iptr × Nat) → State P → Prop} (hnone : v.find i name = none → Q none s)
    (hsome : ∀ e, ∀ he : e < (v.slots i).length, v.find i name = some e → ∀ ip x, Got s (v.slots i)[e].inum ip x →
      Q (some (ip, direntSize * e)) (s.setSlot ip x)) : Ends E (dirlookup dp name) Q s := by
  refine inodeAt_ends ?_
  rw [h.copy, if_neg (not_not.mpr h.dir)]
  refine h.search_ends (fun de => de.key = some (strncpy dirsiz name)) _ (fun e de hp => ?_)
    (fun e he hfind => ?_) hnone
  · exact if_neg fun hm => of_decide_eq_false hp (key_eq_some.mpr hm)
  · have hm := key_eq_some.mp (of_decide_eq_true (List.findIdx?_eq_some_iff_getElem.mp hfind).2.1)
    refine ends_ite (fun _ => ends_bind.mpr (iget_ends hfull fun ip x hgot => ends_pure ⟨nofun, ?_⟩)) fun hno =>
      absurd hm hno
    exact hsome e he hfind ip x hgot

theorem emptyDirent_ends : Ends E (emptyDirent dp) (fun e t => e = Slots.free Dirent.key (v.slots i) ∧ t = s) s := by
  refine inodeAt_ends ?_
  rw [h.copy]
  refine Ends.bind (R := fun x t => x.getD (dirents (v.inode i).size) = Slots.free Dirent.key (v.slots i) ∧ t = s) ?_ ?_
  · refine h.search_ends (fun de => de.key = none) _ (fun e de hp => ?_) (fun e he hfind => ?_) fun hfind => ⟨?_, rfl⟩
    · rw [if_neg fun hz => of_decide_eq_false hp (key_eq_none.mpr hz)]
    · have hz := key_eq_none.mp (of_decide_eq_true (List.findIdx?_eq_some_iff_getElem.mp hfind).2.1)
      rw [if_pos hz]
      exact ends_pure ⟨nofun, (List.findIdx?_eq_some_iff_findIdx_eq.mp hfind).2.symm, rfl⟩
    · rw [Option.getD_none, h.dirents_eq]
      exact (List.findIdx_eq_length.mpr (List.findIdx?_eq_none_iff.mp hfind)).symm
  · rintro x t ⟨hx, rfl⟩
    exact ends_pure ⟨hx, rfl⟩

end OpenDir

end Xv6.Fs
