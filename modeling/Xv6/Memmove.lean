import Xv6.Lib.Bytes

/-!
# The two versions of `memmove`

The one in the kernel copies from the end when the ranges overlap that way.
-/

open Function Xv6.Bytes

namespace Xv6.Memmove

abbrev Addr := BitVec 32

abbrev Mem := Addr → Byte

/-- `while(n-- > 0) *d++ = *s++;` -/
def copyUp (m : Mem) (d s : Addr) : Nat → Mem
  | 0 => m
  | n + 1 => copyUp (update m d (m s)) (d + 1) (s + 1) n

/-- `while(n-- > 0) *--d = *--s;` -/
def copyDown (m : Mem) (d s : Addr) : Nat → Mem
  | 0 => m
  | n + 1 => copyDown (update m (d - 1) (m (s - 1))) (d - 1) (s - 1) n

namespace Kernel

def memmove (m : Mem) (dst src n : BitVec 32) : Mem :=
  if src < dst ∧ src + n > dst then copyDown m (dst + n) (src + n) n.toNat else copyUp m dst src n.toNat

end Kernel

namespace Ulib

/-- `n` is an `int`. -/
def memmove (m : Mem) (dst src n : BitVec 32) : Mem := copyUp m dst src n.toInt.toNat

end Ulib

/-- What the `n` bytes at `src` were in `m` is at `dst` in `t`, and the rest is as it was. -/
def Moved (m t : Mem) (dst src : Addr) (n : Nat) : Prop :=
  (∀ i < n, t (dst + .ofNat 32 i) = m (src + .ofNat 32 i)) ∧ ∀ a, (∀ i < n, a ≠ dst + .ofNat 32 i) → t a = m a

def source (dst src : Addr) (i : Nat) : Nat := if src < dst then i % (dst.toNat - src.toNat) else i

theorem copyUp_succ (m : Mem) (d s : Addr) (n : Nat) :
    copyUp m d s (n + 1) = update (copyUp m d s n) (d + .ofNat 32 n) (copyUp m d s n (s + .ofNat 32 n)) := by
  have hnext : ∀ (a : Addr) (n : Nat), a + 1 + .ofNat 32 n = a + .ofNat 32 (n + 1) := by
    intro a n
    bv_omega
  induction n generalizing m d s with
  | zero => simp [copyUp]
  | succ n ih => rw [copyUp, ih, hnext, hnext, ← copyUp]

theorem copyDown_succ (m : Mem) (d s : Addr) (n : Nat) :
    copyDown m d s (n + 1) =
      update (copyDown m d s n) (d - .ofNat 32 (n + 1)) (copyDown m d s n (s - .ofNat 32 (n + 1))) := by
  have hnext : ∀ (a : Addr) (n : Nat), a - 1 - .ofNat 32 n = a - .ofNat 32 (n + 1) := by
    intro a n
    bv_omega
  induction n generalizing m d s with
  | zero => simp [copyDown]
  | succ n ih => rw [copyDown, ih, hnext, hnext, ← copyDown]

variable {dst src : Addr}

theorem copyUp_apply {n : Nat} (hdst : dst.toNat + n ≤ 2 ^ 32) (hsrc : src.toNat + n ≤ 2 ^ 32) (m : Mem) (a : Addr) :
    copyUp m dst src n a =
      if (a - dst).toNat < n then m (src + .ofNat 32 (source dst src (a - dst).toNat)) else m a := by
  induction n generalizing a with
  | zero => simp [copyUp]
  | succ n ih =>
    have hread : copyUp m dst src n (src + .ofNat 32 n) = m (src + .ofNat 32 (source dst src n)) := by
      rw [ih (by omega) (by omega)]
      unfold source
      by_cases hlt : src < dst
      · by_cases hn : n < dst.toNat - src.toNat
        · rw [if_neg (by bv_omega), if_pos hlt, Nat.mod_eq_of_lt hn]
        · have hoff : (src + BitVec.ofNat 32 n - dst).toNat = n - (dst.toNat - src.toNat) := by bv_omega
          rw [if_pos (by bv_omega), if_pos hlt, if_pos hlt, hoff, ← Nat.mod_eq_sub_mod (by omega)]
      · rw [if_neg (by bv_omega), if_neg hlt]
    rw [copyUp_succ, hread]
    by_cases ha : a = dst + .ofNat 32 n
    · have hoff : (a - dst).toNat = n := by bv_omega
      rw [ha, update_self, ← ha, hoff, if_pos (by omega)]
    · rw [update_of_ne ha, ih (by omega) (by omega)]
      congr 1
      rw [eq_iff_iff]
      bv_omega

theorem copyDown_apply {n k : Nat} (hlt : src < dst) (hdst : dst.toNat + n ≤ 2 ^ 32) (hk : k ≤ n) (m : Mem) (a : Addr) :
    copyDown m (dst + .ofNat 32 n) (src + .ofNat 32 n) k a =
      if n - k ≤ (a - dst).toNat ∧ (a - dst).toNat < n then m (src + .ofNat 32 (a - dst).toNat) else m a := by
  induction k generalizing a with
  | zero => rw [copyDown, if_neg (by omega)]
  | succ k ih =>
    have hread : copyDown m (dst + .ofNat 32 n) (src + .ofNat 32 n) k (src + .ofNat 32 n - .ofNat 32 (k + 1)) =
        m (src + .ofNat 32 (n - (k + 1))) := by
      rw [ih (by omega), if_neg (by bv_omega)]
      congr 1
      bv_omega
    rw [copyDown_succ, hread]
    by_cases ha : a = dst + .ofNat 32 n - .ofNat 32 (k + 1)
    · have hoff : (a - dst).toNat = n - (k + 1) := by bv_omega
      rw [ha, update_self, ← ha, if_pos (by omega)]
      congr 1
      bv_omega
    · rw [update_of_ne ha, ih (by omega)]
      congr 1
      rw [eq_iff_iff]
      bv_omega

theorem moved_iff {n : Nat} {f : Nat → Nat} {m t : Mem} (hdst : dst.toNat + n ≤ 2 ^ 32)
    (h : ∀ a, t a = if (a - dst).toNat < n then m (src + .ofNat 32 (f (a - dst).toNat)) else m a) :
    Moved m t dst src n ↔ ∀ i < n, m (src + .ofNat 32 i) = m (src + .ofNat 32 (f i)) := by
  have hoff : ∀ i < n, (dst + BitVec.ofNat 32 i - dst).toNat = i := by
    intro i hi
    bv_omega
  constructor
  · rintro ⟨hmoved, -⟩ i hi
    rw [← hmoved i hi, h, hoff i hi, if_pos hi]
  · intro hf
    refine ⟨fun i hi => ?_, fun a ha => ?_⟩
    · rw [h, hoff i hi, if_pos hi, hf i hi]
    · rw [h, if_neg]
      intro hlt
      exact ha _ hlt (by bv_omega)

/-- The kernel's copy is right on every overlap, the user library's exactly if the bytes that it writes over before it
reads them are there a second time. -/
theorem memmove_moves_iff (m : Mem) (dst src n : BitVec 32) (hdst : dst.toNat + n.toNat ≤ 2 ^ 32)
    (hsrc : src.toNat + n.toNat ≤ 2 ^ 32) :
    Moved m (Kernel.memmove m dst src n) dst src n.toNat ∧
    (0 ≤ n.toInt → (Moved m (Ulib.memmove m dst src n) dst src n.toNat ↔
      (src < dst → ∀ i < n.toNat,
        m (src + .ofNat 32 i) = m (src + .ofNat 32 (i % (dst.toNat - src.toNat)))))) := by
  constructor
  · unfold Kernel.memmove
    split
    · rename_i h
      refine (moved_iff (f := id) hdst fun a => ?_).mpr fun _ _ => rfl
      have happly := copyDown_apply h.1 hdst le_rfl m a
      simpa using happly
    · rename_i h
      refine (moved_iff hdst (copyUp_apply hdst hsrc m)).mpr fun i hi => ?_
      unfold source
      split
      · rw [Nat.mod_eq_of_lt]
        bv_omega
      · rfl
  · intro hn
    have hint : n.toInt.toNat = n.toNat := by
      rw [BitVec.toInt_eq_toNat_cond] at hn ⊢
      split at hn <;> omega
    rw [Ulib.memmove, hint, moved_iff hdst (copyUp_apply hdst hsrc m)]
    unfold source
    by_cases h : src < dst <;> simp [h]

def oneTwo : Mem := fun a => if a = 0 then 1 else if a = 1 then 2 else 0

theorem oneTwo_moved : Moved oneTwo (Kernel.memmove oneTwo 0 1 2) 0 1 2 ∧
    Moved oneTwo (Ulib.memmove oneTwo 0 1 2) 0 1 2 := by
  obtain ⟨hkernel, hulib⟩ := memmove_moves_iff oneTwo 0 1 2 (by decide) (by decide)
  exact ⟨hkernel, (hulib (by decide)).mpr fun h => absurd h (by decide)⟩

theorem oneTwo_not_moved : ¬Moved oneTwo (Ulib.memmove oneTwo 1 0 2) 1 0 2 := by
  intro h
  have hsecond := h.1 1 (by decide)
  revert hsecond
  decide

end Xv6.Memmove
