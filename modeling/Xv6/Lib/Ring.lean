import Mathlib.Data.BitVec
import Mathlib.Data.List.Basic
import Mathlib.Data.Nat.ModEq
import Mathlib.Logic.Function.Basic

/-!
# Rings with free-running counters

A queue in an array. The two counters wrap around at `2 ^ w`, and a place is a counter modulo the size.
-/

open Function

namespace Xv6

structure Ring (size w : Nat) (α : Type) where
  data : Fin size → α
  nread : BitVec w
  nwrite : BitVec w

namespace Ring

variable {size w : Nat} {α : Type} [NeZero size]

def place (c : BitVec w) : Fin size := Fin.ofNat size c.toNat

def store (x : Ring size w α) (a : α) : Ring size w α :=
  { x with data := update x.data (place x.nwrite) a, nwrite := x.nwrite + 1#w }

def next (x : Ring size w α) : α := x.data (place x.nread)

def take (x : Ring size w α) : Ring size w α := { x with nread := x.nread + 1#w }

structure Holds (x : Ring size w α) (q : List α) : Prop where
  fits : q.length ≤ size
  count : x.nwrite = x.nread + BitVec.ofNat w q.length
  values : ∀ k (h : k < q.length), x.data (place (x.nread + BitVec.ofNat w k)) = q[k]

variable {x : Ring size w α} {q : List α} {a : α}

theorem holds_nil (h : x.nread = x.nwrite) : x.Holds [] :=
  ⟨Nat.zero_le _, by simp [h], fun _ hk => absurd hk (Nat.not_lt_zero _)⟩

section Wrap

variable (hw : size < 2 ^ w)
include hw

theorem Holds.empty_iff (h : x.Holds q) : x.nread = x.nwrite ↔ q = [] := by
  have hlt : q.length < 2 ^ w := lt_of_le_of_lt h.fits hw
  rw [h.count, left_eq_add, ← List.length_eq_zero_iff]
  constructor
  · intro h0
    simpa [Nat.mod_eq_of_lt hlt] using congrArg BitVec.toNat h0
  · intro h0
    rw [h0]
    rfl

theorem Holds.full_iff (h : x.Holds q) : x.nwrite = x.nread + BitVec.ofNat w size ↔ q.length = size := by
  have hlt : q.length < 2 ^ w := lt_of_le_of_lt h.fits hw
  rw [h.count, add_right_inj]
  constructor
  · intro h0
    have := congrArg BitVec.toNat h0
    rwa [BitVec.toNat_ofNat, BitVec.toNat_ofNat, Nat.mod_eq_of_lt hlt, Nat.mod_eq_of_lt hw] at this
  · intro h0
    rw [h0]

end Wrap

theorem place_ofNat (hdvd : size ∣ 2 ^ w) (k : Nat) : place (BitVec.ofNat w k) = Fin.ofNat size k := by
  apply Fin.ext
  simp only [place, Fin.ofNat, BitVec.toNat_ofNat]
  exact Nat.mod_mod_of_dvd _ hdvd

theorem place_add (hdvd : size ∣ 2 ^ w) (c : BitVec w) (k : Nat) :
    place (c + BitVec.ofNat w k) = Fin.ofNat size (c.toNat + k) := by
  rw [← place_ofNat hdvd, BitVec.ofNat_add, BitVec.ofNat_toNat, BitVec.setWidth_eq]

variable (hdvd : size ∣ 2 ^ w)
include hdvd

theorem Holds.store (h : x.Holds q) (hroom : q.length < size) : (x.store a).Holds (q ++ [a]) := by
  refine ⟨?_, ?_, fun k hk => ?_⟩
  · rw [List.length_append, List.length_singleton]
    exact hroom
  · change x.nwrite + 1#w = x.nread + _
    rw [h.count, List.length_append, List.length_singleton, BitVec.ofNat_add, add_assoc]
  · change update x.data (place x.nwrite) a (place (x.nread + BitVec.ofNat w k)) = _
    rw [List.length_append, List.length_singleton] at hk
    by_cases hlast : k = q.length
    · subst hlast
      rw [h.count, update_self, List.getElem_concat_length rfl]
    · have hlt : k < q.length := by omega
      have hne : (place (x.nread + BitVec.ofNat w k) : Fin size) ≠ place x.nwrite := by
        rw [h.count, place_add hdvd, place_add hdvd]
        intro he
        have hmod : (x.nread.toNat + k) % size = (x.nread.toNat + q.length) % size := congrArg Fin.val he
        have hsame : k % size = q.length % size := Nat.ModEq.add_left_cancel' x.nread.toNat hmod
        rw [Nat.mod_eq_of_lt (hlt.trans hroom), Nat.mod_eq_of_lt hroom] at hsame
        omega
      rw [update_of_ne hne, h.values k hlt, List.getElem_append_left hlt]

omit hdvd in
theorem Holds.take (h : x.Holds (a :: q)) : x.next = a ∧ x.take.Holds q := by
  have hfirst := h.values 0 (Nat.zero_lt_succ _)
  have hlen := h.fits
  rw [List.length_cons] at hlen
  refine ⟨?_, by omega, ?_, fun k hk => ?_⟩
  · simpa [next] using hfirst
  · change x.nwrite = x.nread + 1#w + _
    rw [h.count, List.length_cons, Nat.add_comm, BitVec.ofNat_add, ← add_assoc]
  · have hk' := h.values (k + 1) (Nat.succ_lt_succ hk)
    rw [List.getElem_cons_succ] at hk'
    rw [← hk', Nat.add_comm k 1, BitVec.ofNat_add, ← add_assoc]
    rfl

def unstore (x : Ring size w α) : Ring size w α := { x with nwrite := x.nwrite - 1#w }

omit hdvd in
theorem Holds.unstore (h : x.Holds (q ++ [a])) : x.data (place (x.nwrite - 1#w)) = a ∧ x.unstore.Holds q := by
  have hlen := h.fits
  rw [List.length_append, List.length_singleton] at hlen
  have hlast : x.nwrite - 1#w = x.nread + BitVec.ofNat w q.length := by
    rw [h.count, List.length_append, List.length_singleton, BitVec.ofNat_add, ← add_assoc, BitVec.add_sub_cancel]
  refine ⟨?_, by omega, hlast, fun k hk => ?_⟩
  · rw [hlast, h.values q.length (by simp), List.getElem_concat_length rfl]
  · have hk' := h.values k (by rw [List.length_append]; omega)
    rwa [List.getElem_append_left hk] at hk'

omit hdvd in
theorem Holds.front {q' : List α} (h : x.Holds (q ++ q')) {c : BitVec w} (hc : c = x.nread + BitVec.ofNat w q.length) :
    Holds { x with nwrite := c } q := by
  have hlen := h.fits
  rw [List.length_append] at hlen
  refine ⟨by omega, hc, fun k hk => ?_⟩
  have hk' := h.values k (by rw [List.length_append]; omega)
  rwa [List.getElem_append_left hk] at hk'

omit hdvd in
theorem Holds.back {q' : List α} (h : x.Holds (q ++ q')) {c : BitVec w} (hc : c = x.nread + BitVec.ofNat w q.length) :
    Holds { x with nread := c } q' := by
  have hlen := h.fits
  rw [List.length_append] at hlen
  refine ⟨by omega, ?_, fun k hk => ?_⟩
  · change x.nwrite = c + _
    rw [h.count, hc, List.length_append, BitVec.ofNat_add, add_assoc]
  · have hk' := h.values (q.length + k) (by rw [List.length_append]; omega)
    rw [List.getElem_append_right (Nat.le_add_right _ _)] at hk'
    simp only [Nat.add_sub_cancel_left] at hk'
    rw [← hk', BitVec.ofNat_add, ← add_assoc, ← hc]

end Ring

end Xv6
