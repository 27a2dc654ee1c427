import Xv6.Fs.Spec

/-!
# Directory entries

Names are stored as `DIRSIZ` bytes, and compared by what would be stored of them.
-/

open Xv6.Bytes Xv6.Log Xv6.Code

namespace Xv6.Fs

@[simp] theorem strncpy_length (n : Nat) (t : List Byte) : (strncpy n t).length = n := by
  induction n generalizing t with
  | zero => rfl
  | succ n ih =>
    rw [strncpy]
    split
    · rw [List.length_replicate]
    · rw [List.length_cons, ih]

theorem strncpy_replicate (n m : Nat) : strncpy n (List.replicate m 0) = List.replicate n 0 := by
  cases n with
  | zero => rfl
  | succ n =>
    have hhead : (List.replicate m (0 : Byte)).headD 0 = 0 := by cases m <;> rfl
    rw [strncpy, if_pos hhead]

theorem strncpy_strncpy (n : Nat) (t : List Byte) : strncpy n (strncpy n t) = strncpy n t := by
  induction n generalizing t with
  | zero => rfl
  | succ n ih =>
    by_cases h : t.headD 0 = 0
    · rw [show strncpy (n + 1) t = List.replicate (n + 1) 0 from if_pos h, strncpy_replicate]
    · rw [show strncpy (n + 1) t = t.headD 0 :: strncpy n t.tail from if_neg h, strncpy, List.headD_cons, if_neg h,
        List.tail_cons, ih]

theorem strncmp_eq_zero (n : Nat) (p q : List Byte) : strncmp n p q = 0 ↔ strncpy n p = strncpy n q := by
  induction n generalizing p q with
  | zero => simp [strncmp, strncpy]
  | succ n ih =>
    simp only [strncmp, strncpy, List.replicate_succ]
    by_cases hp : p.headD 0 = 0
    · by_cases hq : q.headD 0 = 0
      · simp only [hp, hq, ne_eq, not_true_eq_false, false_and, ↓reduceIte, sub_self]
      · have hnot : ¬(q.headD 0).toNat = 0 := fun h => hq (BitVec.eq_of_toNat_eq h)
        simp only [hp, hq, ne_eq, not_true_eq_false, false_and, ↓reduceIte, List.cons.injEq]
        constructor
        · intro h
          exact absurd (by simpa using h) hnot
        · exact fun h => absurd h.1.symm hq
    · by_cases hpq : p.headD 0 = q.headD 0
      · rw [if_pos ⟨hp, hpq⟩, if_neg hp, if_neg (hpq ▸ hp), ih, hpq]
        simp
      · rw [if_neg fun h => hpq h.2, if_neg hp]
        constructor
        · intro h
          exact absurd (BitVec.eq_of_toNat_eq (by omega)) hpq
        · intro h
          split at h
          case isTrue hq => exact absurd (List.cons.inj h).1 hp
          case isFalse hq => exact absurd (List.cons.inj h).1 hpq

theorem namecmp_eq_zero (p q : List Byte) : namecmp p q = 0 ↔ strncpy dirsiz p = strncpy dirsiz q :=
  strncmp_eq_zero dirsiz p q

theorem namecmp_strncpy (p q : List Byte) : namecmp p (strncpy dirsiz q) = 0 ↔ namecmp p q = 0 := by
  rw [namecmp_eq_zero, strncpy_strncpy, namecmp_eq_zero]

def newDirent (inum : Nat) (name : List Byte) : Dirent := ⟨inum, strncpy dirsiz name⟩

theorem newDirent_length (inum : Nat) (name : List Byte) : (newDirent inum name).bytes.length = direntSize := by
  rw [Dirent.bytes, List.length_append, toLe_length, newDirent, strncpy_length, direntSize]

theorem ofBytes_newDirent (inum : Nat) (name : List Byte) :
    Dirent.ofBytes (newDirent inum name).bytes = newDirent (inum % 2 ^ 16) name := by
  have hlen := toLe_length 2 inum
  have htake : (newDirent inum name).bytes.take 2 = toLe 2 inum := by
    exact List.take_left' hlen
  have hdrop : ((newDirent inum name).bytes.drop 2).take dirsiz = strncpy dirsiz name := by
    rw [show (newDirent inum name).bytes.drop 2 = strncpy dirsiz name from List.drop_left' hlen]
    exact List.take_of_length_le (Nat.le_of_eq (strncpy_length dirsiz name))
  rw [Dirent.ofBytes, htake, hdrop, ofLe_toLe]
  rfl

end Xv6.Fs
