import Mathlib.Algebra.BigOperators.Group.List.Basic
import Mathlib.Algebra.GroupWithZero.Nat
import Mathlib.Data.List.Perm.Basic
import Mathlib.Tactic.MkIffOfInductiveProp

/-!
# Extents of memory

Disjoint pieces that together are a whole range.
-/

namespace Xv6

structure Extent where
  addr : Nat
  len : Nat
deriving DecidableEq

namespace Extent

def stop (x : Extent) : Nat := x.addr + x.len

@[simp] theorem stop_mk (a n : Nat) : (Extent.mk a n).stop = a + n := rfl

def Apart (x y : Extent) : Prop := x.stop ≤ y.addr ∨ y.stop ≤ x.addr

instance (x y : Extent) : Decidable (x.Apart y) := inferInstanceAs (Decidable (_ ∨ _))

theorem Apart.symm {x y : Extent} (h : x.Apart y) : y.Apart x := Or.symm h

end Extent

@[mk_iff]
structure Tiles (lo hi : Nat) (l : List Extent) : Prop where
  apart : l.Pairwise Extent.Apart
  pos : ∀ x ∈ l, 0 < x.len
  low : ∀ x ∈ l, lo ≤ x.addr
  high : ∀ x ∈ l, x.stop ≤ hi
  sum : lo + (l.map Extent.len).sum = hi

namespace Tiles

variable {lo hi a m n : Nat} {l l' : List Extent}

theorem empty : Tiles lo lo [] where
  apart := .nil
  pos := by simp
  low := by simp
  high := by simp
  sum := by simp

theorem perm (h : Tiles lo hi l) (hp : l.Perm l') : Tiles lo hi l' where
  apart := (hp.pairwise_iff fun hxy => hxy.symm).1 h.apart
  pos x hx := h.pos x (hp.mem_iff.2 hx)
  low x hx := h.low x (hp.mem_iff.2 hx)
  high x hx := h.high x (hp.mem_iff.2 hx)
  sum := by rw [← (hp.map Extent.len).sum_eq, h.sum]

theorem cut (h : Tiles lo hi (⟨a, m + n⟩ :: l)) (hm : 0 < m) (hn : 0 < n) :
    Tiles lo hi (⟨a, m⟩ :: ⟨a + m, n⟩ :: l) := by
  simp only [tiles_iff, List.pairwise_cons, List.forall_mem_cons, Extent.Apart, Extent.stop, List.map_cons,
    List.sum_cons] at h ⊢
  obtain ⟨hpart, hpos, hlow, hhigh, hsum⟩ := h
  refine ⟨⟨⟨.inl (Nat.le_refl _), fun y hy => ?_⟩, fun y hy => ?_, hpart.2⟩, ⟨hm, hn, hpos.2⟩,
    ⟨hlow.1, by omega, hlow.2⟩, ⟨by omega, by omega, hhigh.2⟩, by omega⟩
  all_goals
    have := hpart.1 y hy
    omega

theorem join (h : Tiles lo hi (⟨a, m⟩ :: ⟨a + m, n⟩ :: l)) : Tiles lo hi (⟨a, m + n⟩ :: l) := by
  simp only [tiles_iff, List.pairwise_cons, List.forall_mem_cons, Extent.Apart, Extent.stop, List.map_cons,
    List.sum_cons] at h ⊢
  obtain ⟨hpart, hpos, hlow, hhigh, hsum⟩ := h
  refine ⟨⟨fun y hy => ?_, hpart.2.2⟩, ⟨by omega, hpos.2.2⟩, ⟨hlow.1, hlow.2.2⟩, ⟨by omega, hhigh.2.2⟩, by omega⟩
  -- a third piece does not lie between the two, since it has a length
  have := hpart.1.2 y hy
  have := hpart.2.1 y hy
  have := hpos.2.2 y hy
  omega

theorem move {x : Extent} {l₁ l₂ l₃ : List Extent} :
    Tiles lo hi (l₁ ++ (l₂ ++ x :: l₃)) ↔ Tiles lo hi (l₁ ++ x :: (l₂ ++ l₃)) :=
  ⟨fun h => h.perm (List.perm_middle.append_left l₁), fun h => h.perm (List.perm_middle.symm.append_left l₁)⟩

theorem cut_at {l₁ l₂ : List Extent} (h : Tiles lo hi (l₁ ++ ⟨a, m + n⟩ :: l₂)) (hm : 0 < m) (hn : 0 < n) :
    Tiles lo hi (l₁ ++ ⟨a, m⟩ :: ⟨a + m, n⟩ :: l₂) := by
  have hcut := ((h.perm List.perm_middle).cut hm hn).perm (List.perm_middle.symm.cons _)
  exact hcut.perm List.perm_middle.symm

theorem join_at {l₁ l₂ : List Extent} (h : Tiles lo hi (l₁ ++ ⟨a, m⟩ :: ⟨a + m, n⟩ :: l₂)) :
    Tiles lo hi (l₁ ++ ⟨a, m + n⟩ :: l₂) := by
  have hjoin := ((h.perm List.perm_middle).perm (List.perm_middle.cons _)).join
  exact hjoin.perm List.perm_middle.symm

theorem grow (h : Tiles lo hi l) (hn : 0 < n) : Tiles lo (hi + n) (⟨hi, n⟩ :: l) := by
  simp only [tiles_iff, List.pairwise_cons, List.forall_mem_cons, Extent.Apart, Extent.stop, List.map_cons,
    List.sum_cons] at h ⊢
  obtain ⟨hpart, hpos, hlow, hhigh, hsum⟩ := h
  refine ⟨⟨fun y hy => .inr (hhigh y hy), hpart⟩, ⟨hn, hpos⟩, ⟨by omega, hlow⟩,
    ⟨Nat.le_refl _, fun y hy => ?_⟩, by omega⟩
  have := hhigh y hy
  omega

theorem head_apart {x : Extent} (h : Tiles lo hi (x :: l)) {y : Extent} (hy : y ∈ l) : x.Apart y :=
  (List.pairwise_cons.1 h.apart).1 y hy

theorem head_ne {x : Extent} (h : Tiles lo hi (x :: l)) {y : Extent} (hy : y ∈ l) : x.addr ≠ y.addr := by
  have hpart := h.head_apart hy
  have hx := h.pos x List.mem_cons_self
  have hy := h.pos y (List.mem_cons_of_mem _ hy)
  simp only [Extent.Apart, Extent.stop] at hpart
  omega

end Tiles

end Xv6
