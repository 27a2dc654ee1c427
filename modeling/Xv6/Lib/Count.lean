import Mathlib.Data.Fintype.Card
import Mathlib.Data.Finset.Card

/-!
# Counting the members of a group

How many members of a finite group are in a state of some kind.
-/

open Function

namespace Xv6.Count

variable {P α : Type} [Fintype P]

def count (f : P → α) (q : α → Bool) : Nat := (Finset.univ.filter fun p => q (f p) = true).card

theorem count_congr {f g : P → α} {q : α → Bool} (h : ∀ p, q (f p) = q (g p)) : count f q = count g q := by
  simp only [count, h]

theorem count_eq_zero {f : P → α} {q : α → Bool} : count f q = 0 ↔ ∀ p, q (f p) = false := by
  simp [count, Finset.filter_eq_empty_iff]

theorem count_pos {f : P → α} {q : α → Bool} {p : P} (h : q (f p) = true) : 0 < count f q :=
  Finset.card_pos.mpr ⟨p, Finset.mem_filter.mpr ⟨Finset.mem_univ p, h⟩⟩

theorem count_le_card (f : P → α) (q : α → Bool) : count f q ≤ Fintype.card P := Finset.card_le_univ _

theorem count_le_one {f : P → α} {q : α → Bool} :
    count f q ≤ 1 ↔ ∀ p r, q (f p) = true → q (f r) = true → p = r := by
  simp only [count, Finset.card_le_one, Finset.mem_filter, Finset.mem_univ, true_and]
  exact ⟨fun h p r hp hr => h p hp r hr, fun h p hp r hr => h p r hp hr⟩

variable [DecidableEq P]

theorem count_update (f : P → α) (q : α → Bool) (p : P) (x : α) :
    count (update f p x) q + (q (f p)).toNat = count f q + (q x).toNat := by
  have hsplit :
      ∀ g : P → α, count g q = ((Finset.univ.erase p).filter fun r => q (g r) = true).card + (q (g p)).toNat := by
    intro g
    unfold count
    rw [← Finset.insert_erase (Finset.mem_univ p), Finset.filter_insert, Finset.erase_insert_eq_erase,
      Finset.erase_idem]
    cases hp : q (g p) with
    | false => simp
    | true => simp
  have hrest : ((Finset.univ.erase p).filter fun r => q (update f p x r) = true) =
      (Finset.univ.erase p).filter fun r => q (f r) = true := by
    apply Finset.filter_congr
    intro r hr
    rw [update_of_ne (Finset.ne_of_mem_erase hr)]
  rw [hsplit f, hsplit (update f p x), hrest, update_self]
  omega

end Xv6.Count
