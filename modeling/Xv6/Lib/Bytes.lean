import Mathlib.Data.BitVec
import Mathlib.Data.Nat.Cast.Basic
import Mathlib.Logic.Function.Basic
import Xv6.Lib.Sizes

/-!
# Bytes in memory

Little-endian numbers, and memories that map addresses to bytes. An address may wrap.
-/

namespace Xv6.Bytes

abbrev Byte := BitVec 8

/-! ## Little-endian numbers -/

/-- The low `w` bytes of `n`, least significant first. -/
def toLe : Nat → Nat → List Byte
  | 0, _ => []
  | w + 1, n => BitVec.ofNat 8 n :: toLe w (n / 256)

def ofLe : List Byte → Nat
  | [] => 0
  | b :: bs => b.toNat + 256 * ofLe bs

@[simp] theorem toLe_length (w n : Nat) : (toLe w n).length = w := by
  induction w generalizing n with
  | zero => rfl
  | succ w ih => simp [toLe, ih]

theorem ofLe_toLe (w n : Nat) : ofLe (toLe w n) = n % 256 ^ w := by
  induction w generalizing n with
  | zero => simp [toLe, ofLe, Nat.mod_one]
  | succ w ih =>
    rw [toLe, ofLe, ih, pow_succ', Nat.mod_mul]
    simp

theorem ofLe_toLe_of_lt (w n : Nat) (h : n < 256 ^ w) : ofLe (toLe w n) = n := by
  rw [ofLe_toLe, Nat.mod_eq_of_lt h]

/-! ## Records -/

def packFields (fs : List (Nat × Nat)) : List Byte := fs.flatMap fun f => toLe f.1 f.2

def unpackFields : List Nat → List Byte → List Nat
  | [], _ => []
  | w :: ws, bs => ofLe (bs.take w) :: unpackFields ws (bs.drop w)

theorem unpackFields_packFields (fs : List (Nat × Nat)) (h : ∀ f ∈ fs, f.2 < 256 ^ f.1) :
    unpackFields (fs.map Prod.fst) (packFields fs) = fs.map Prod.snd := by
  induction fs with
  | nil => rfl
  | cons f fs ih =>
    have htake : (packFields (f :: fs)).take f.1 = toLe f.1 f.2 := by simp [packFields]
    have hdrop : (packFields (f :: fs)).drop f.1 = packFields fs := by simp [packFields]
    rw [List.map_cons, unpackFields, htake, hdrop, ih (fun g hg => h g (List.mem_cons_of_mem _ hg)),
      ofLe_toLe_of_lt _ _ (h f List.mem_cons_self)]
    rfl

theorem take_drop_flatMap {α : Type} {f : α → List Byte} {w : Nat} {l : List α}
    (hw : ∀ x ∈ l, (f x).length = w) {i : Nat} (hi : i < l.length) : ((l.flatMap f).drop (w * i)).take w = f l[i] := by
  induction l generalizing i with
  | nil => exact absurd hi (Nat.not_lt_zero i)
  | cons x l ih =>
    have hx := hw x List.mem_cons_self
    rw [List.flatMap_cons]
    cases i with
    | zero => rw [Nat.mul_zero, List.drop_zero, List.take_left' hx, List.getElem_cons_zero]
    | succ i =>
      have hskip : w * (i + 1) = (f x).length + w * i := by
        rw [hx, Nat.mul_succ]
        omega
      rw [hskip, ← List.drop_drop, List.drop_left, List.getElem_cons_succ,
        ih (fun y hy => hw y (List.mem_cons_of_mem x hy)) (Nat.lt_of_succ_lt_succ hi)]

/-! ## Memories -/

section Memory

variable {A : Type} [AddMonoidWithOne A] [DecidableEq A]

def readBytes (m : A → Byte) (a : A) : Nat → List Byte
  | 0 => []
  | n + 1 => m a :: readBytes m (a + 1) n

/-- Stores the bytes at `a`, `a + 1` and so on. -/
def writeBytes (m : A → Byte) (a : A) : List Byte → A → Byte
  | [] => m
  | b :: bs => writeBytes (Function.update m a b) (a + 1) bs

def Spread (A : Type) [AddMonoidWithOne A] (n : Nat) : Prop :=
  ∀ (a : A) (i j : Nat), i < n → j < n → a + i = a + j → i = j

omit [DecidableEq A] in
@[simp] theorem readBytes_length (m : A → Byte) (a : A) (n : Nat) : (readBytes m a n).length = n := by
  induction n generalizing a with
  | zero => rfl
  | succ n ih => simp [readBytes, ih]

omit [DecidableEq A] in
theorem add_one_add (a : A) (i : Nat) : a + 1 + (i : A) = a + ((i + 1 : Nat) : A) := by
  rw [add_assoc, Nat.add_comm i 1, Nat.cast_add, Nat.cast_one]

omit [DecidableEq A] in
theorem readBytes_congr (m m' : A → Byte) (a : A) (n : Nat) (h : ∀ i < n, m (a + i) = m' (a + i)) :
    readBytes m a n = readBytes m' a n := by
  induction n generalizing a with
  | zero => rfl
  | succ n ih =>
    rw [readBytes, readBytes, ih]
    · have := h 0 (by omega)
      simp only [Nat.cast_zero, add_zero] at this
      rw [this]
    · intro i hi
      rw [add_one_add]
      exact h (i + 1) (by omega)

omit [DecidableEq A] in
theorem readBytes_getElem (m : A → Byte) (a : A) (n i : Nat) (h : i < (readBytes m a n).length) :
    (readBytes m a n)[i] = m (a + i) := by
  induction n generalizing a i with
  | zero => simp at h
  | succ n ih =>
    cases i with
    | zero => simp [readBytes]
    | succ i =>
      rw [← add_one_add]
      exact ih (a + 1) i (by simpa [readBytes] using h)

omit [DecidableEq A] in
theorem readBytes_slice (m : A → Byte) (a : A) (n k j : Nat) (h : k + j ≤ n) :
    readBytes m (a + k) j = ((readBytes m a n).drop k).take j := by
  apply List.ext_getElem
  · simp; omega
  · intro i h1 h2
    rw [readBytes_length] at h1
    rw [readBytes_getElem, List.getElem_take, List.getElem_drop, readBytes_getElem, Nat.cast_add,
      add_assoc]

theorem writeBytes_outside (m : A → Byte) (a x : A) (bs : List Byte) (h : ∀ i < bs.length, a + i ≠ x) :
    writeBytes m a bs x = m x := by
  induction bs generalizing m a with
  | nil => rfl
  | cons b bs ih =>
    rw [writeBytes, ih]
    · have := h 0 (by simp)
      simp only [Nat.cast_zero, add_zero] at this
      rw [Function.update_of_ne (Ne.symm this)]
    · intro i hi
      rw [add_one_add]
      exact h (i + 1) (by simpa using hi)

theorem writeBytes_inside (m : A → Byte) (a : A) (bs : List Byte) (hs : Spread A bs.length) (i : Nat)
    (hi : i < bs.length) : writeBytes m a bs (a + i) = bs[i] := by
  induction bs generalizing m a i with
  | nil => simp at hi
  | cons b bs ih =>
    rw [writeBytes]
    cases i with
    | zero =>
      rw [writeBytes_outside]
      · simp
      · intro j hj he
        rw [add_one_add] at he
        have := hs a (j + 1) 0 (by simpa using hj) (by simp) he
        omega
    | succ i =>
      have hs' : Spread A bs.length :=
        fun a' j k hj hk he => hs a' j k (by simp; omega) (by simp; omega) he
      rw [← add_one_add, ih _ _ hs' i (by simpa using hi)]
      rfl

theorem readBytes_writeBytes (m : A → Byte) (a : A) (bs : List Byte) (hs : Spread A bs.length) :
    readBytes (writeBytes m a bs) a bs.length = bs := by
  apply List.ext_getElem
  · simp
  · intro i h1 h2
    rw [readBytes_getElem, writeBytes_inside m a bs hs i h2]

theorem readBytes_writeBytes_apart (m : A → Byte) (a c : A) (bs : List Byte) (n : Nat)
    (h : ∀ i < bs.length, ∀ j < n, a + i ≠ c + j) :
    readBytes (writeBytes m a bs) c n = readBytes m c n := by
  apply readBytes_congr
  intro j hj
  exact writeBytes_outside m a _ bs (fun i hi => h i hi j hj)

theorem readBytes_writeBytes_within (m : A → Byte) (a : A) (n k : Nat) (bs : List Byte)
    (hs : Spread A n) (hk : k + bs.length ≤ n) :
    readBytes (writeBytes m (a + k) bs) a n =
      (readBytes m a n).take k ++ bs ++ (readBytes m a n).drop (k + bs.length) := by
  apply List.ext_getElem
  · simp; omega
  · intro i h1 h2
    rw [readBytes_length] at h1
    rw [readBytes_getElem]
    by_cases hin : k ≤ i ∧ i < k + bs.length
    · obtain ⟨j, rfl⟩ : ∃ j, i = k + j := ⟨i - k, by omega⟩
      have hb : Spread A bs.length := fun a i j hi hj => hs a i j (by omega) (by omega)
      rw [Nat.cast_add, ← add_assoc, writeBytes_inside _ _ _ hb j (by omega),
        List.getElem_append_left (by simp; omega), List.getElem_append_right (by simp)]
      simp [Nat.min_eq_left (by omega : k ≤ n)]
    · rw [writeBytes_outside]
      · by_cases hlo : i < k
        · rw [List.getElem_append_left (by simp; omega), List.getElem_append_left (by simp; omega),
            List.getElem_take, readBytes_getElem]
        · rw [List.getElem_append_right (by simp; omega), List.getElem_drop, readBytes_getElem]
          congr 3
          simp
          omega
      · intro j hj he
        rw [add_assoc, ← Nat.cast_add] at he
        have := hs a (k + j) i (by omega) h1 he
        omega

/-! ## Numbers in memory -/

def getLe (m : A → Byte) (a : A) (w : Nat) : Nat := ofLe (readBytes m a w)

def putLe (m : A → Byte) (a : A) (w n : Nat) : A → Byte := writeBytes m a (toLe w n)

theorem getLe_putLe (m : A → Byte) (a : A) (w n : Nat) (hs : Spread A w) (hn : n < 256 ^ w) :
    getLe (putLe m a w n) a w = n := by
  have := readBytes_writeBytes m a (toLe w n) (by simpa using hs)
  rw [toLe_length] at this
  rw [getLe, putLe, this, ofLe_toLe_of_lt _ _ hn]

theorem getLe_putLe_apart (m : A → Byte) (a c : A) (w v n : Nat)
    (h : ∀ i < w, ∀ j < v, a + i ≠ c + j) : getLe (putLe m a w n) c v = getLe m c v := by
  rw [getLe, putLe, readBytes_writeBytes_apart _ _ _ _ _ (by simpa using h)]
  rfl

end Memory

/-! ## The two kinds of addresses -/

theorem spread_nat (n : Nat) : Spread Nat n := by
  intro a i j _ _ h
  simp only [Nat.cast_id] at h
  omega

theorem spread_word (n : Nat) (hn : n ≤ 2 ^ 32) : Spread (BitVec 32) n := by
  intro a i j hi hj h
  have h' := congrArg BitVec.toNat (add_left_cancel h)
  simp only [BitVec.natCast_eq_ofNat, BitVec.toNat_ofNat] at h'
  rwa [Nat.mod_eq_of_lt (by omega), Nat.mod_eq_of_lt (by omega)] at h'

end Xv6.Bytes
