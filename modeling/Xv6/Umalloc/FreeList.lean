import Mathlib.Logic.Relation
import Xv6.Lib.Chain
import Xv6.Lib.Extents
import Xv6.Umalloc.Spec

/-!
# The free list

The free list in the order of addresses, the live blocks and what a call holds make up the memory from `sbrk`.
-/

namespace Xv6.Umalloc

theorem word_of_lt {x : Nat} (h : x < 2 ^ 32) : word x = x := Nat.mod_eq_of_lt h

theorem nunits_pos (n : Nat) : 0 < nunits n := Nat.succ_pos _

theorem nunits_room {n : Nat} (h : n ≤ maxRequest) : n + 8 ≤ 8 * nunits n := by
  have hword : word (n + 8 - 1) = n + 8 - 1 := word_of_lt (by rw [maxRequest] at h; omega)
  rw [nunits, hword]
  omega

namespace Heap

variable (h : Heap) (a x : Nat)

@[simp] theorem setPtr_ptr : (h.setPtr a x).ptr = Function.update h.ptr a x := rfl
@[simp] theorem setPtr_size : (h.setPtr a x).size = h.size := rfl
@[simp] theorem setPtr_freep : (h.setPtr a x).freep = h.freep := rfl
@[simp] theorem setSize_ptr : (h.setSize a x).ptr = h.ptr := rfl
@[simp] theorem setSize_size : (h.setSize a x).size = Function.update h.size a x := rfl

end Heap

def Block.extent (b : Block) : Extent := ⟨b.addr, 8 * nunits b.nbytes⟩

def Heap.OnList (h : Heap) (a : Nat) : Prop := h.freep ≠ 0 ∧ Relation.ReflTransGen (fun x y => y = h.ptr x) h.freep a

structure Heap.Safe (h : Heap) : Prop where
  apart : h.live.Pairwise fun b c => b.extent.Apart c.extent
  off : ∀ b ∈ h.live, ¬ h.OnList b.addr

theorem Heap.safe_of_live_nil {h : Heap} (hlive : h.live = []) : h.Safe where
  apart := by rw [hlive]; exact .nil
  off b hb := by rw [hlive] at hb; cases hb

/-- The links of the free list `fl`, while a call holds `held`. The sizes in `fl` need not be stored yet. -/
structure Linked (base lo : Nat) (h : Heap) (fl held : List Extent) : Prop where
  pos : 0 < base
  below : base + 8 ≤ lo
  top : h.brk < kernbase
  links : Chain h.ptr (base :: fl.map Extent.addr) base
  freep : h.freep ∈ base :: fl.map Extent.addr ∨
    h.ptr h.freep ∈ base :: fl.map Extent.addr ∧ ∀ b ∈ h.live, b.addr ≠ h.freep
  zero : h.size base = 0
  header : ∀ b ∈ h.live, h.size b.addr = nunits b.nbytes
  tiles : Tiles lo h.brk (fl ++ (held ++ h.live.map Block.extent))
  sorted : fl.Pairwise fun x y => x.stop < y.addr

structure Arena (base lo : Nat) (h : Heap) (fl held : List Extent) : Prop extends Linked base lo h fl held where
  home : h.freep ∈ base :: fl.map Extent.addr
  size : ∀ x ∈ fl, x.len = 8 * h.size x.addr

inductive Sound (base lo : Nat) (h : Heap) : Prop
  /-- Before the first call. -/
  | unused (pos : 0 < base) (below : base + 8 ≤ lo) (top : lo < kernbase) (freep : h.freep = 0) (brk : h.brk = lo)
      (live : h.live = [])
  | used (fl : List Extent) (arena : Arena base lo h fl [])

variable {base lo : Nat} {h h' : Heap} {fl held : List Extent} {x y : Extent} {a : Nat} {b : Block}

namespace Linked

variable (hl : Linked base lo h fl held)
include hl

theorem low (hx : x ∈ fl) : base < x.addr := by
  have := hl.tiles.low x (List.mem_append_left _ hx)
  have := hl.below
  omega

theorem ordered : (base :: fl.map Extent.addr).Pairwise (· < ·) := by
  refine List.pairwise_cons.2 ⟨fun a ha => ?_, List.pairwise_map.2 (hl.sorted.imp fun hxy => ?_)⟩
  · obtain ⟨x, hx, rfl⟩ := List.mem_map.1 ha
    exact hl.low hx
  · exact Nat.lt_of_le_of_lt (Nat.le_add_right _ _) hxy

theorem nodup : (base :: fl.map Extent.addr).Nodup :=
  hl.ordered.imp Nat.ne_of_lt

theorem ptr_mem (ha : a ∈ base :: fl.map Extent.addr) :
    h.ptr a ∈ base :: fl.map Extent.addr :=
  (hl.links.next_mem ha).elim id fun heq => heq ▸ List.mem_cons_self

theorem onList_mem (ha : h.OnList a) :
    a ∈ base :: fl.map Extent.addr ∨ a = h.freep := by
  obtain ⟨-, hpath⟩ := ha
  induction hpath with
  | refl => exact .inr rfl
  | tail _ hnext ih =>
    subst hnext
    obtain hmem | rfl := ih
    · exact .inl (hl.ptr_mem hmem)
    · exact .inl (hl.freep.elim hl.ptr_mem And.left)

theorem addr_not_mem (hy : y ∈ held ++ h.live.map Block.extent) :
    y.addr ∉ base :: fl.map Extent.addr := by
  intro hmem
  have hlow := hl.tiles.low y (List.mem_append_right _ hy)
  have hbelow := hl.below
  obtain heq | hmem := List.mem_cons.1 hmem
  · omega
  · obtain ⟨x, hx, heq⟩ := List.mem_map.1 hmem
    have hpart := (List.pairwise_append.1 hl.tiles.apart).2.2 x hx y hy
    have hxpos := hl.tiles.pos x (List.mem_append_left _ hx)
    have hypos := hl.tiles.pos y (List.mem_append_right _ hy)
    simp only [Extent.Apart, Extent.stop] at hpart
    omega

theorem live_not_mem (hb : b ∈ h.live) : b.addr ∉ base :: fl.map Extent.addr :=
  hl.addr_not_mem (y := b.extent) (List.mem_append_right _ (List.mem_map_of_mem hb))

theorem safe : h.Safe where
  apart := by
    have happ := (List.pairwise_append.1 hl.tiles.apart).2.1
    exact List.pairwise_map.1 (List.pairwise_append.1 happ).2.1
  off b hb hon := by
    obtain hmem | heq := hl.onList_mem hon
    · exact hl.live_not_mem hb hmem
    · exact hl.freep.elim (fun hmem => hl.live_not_mem hb (heq ▸ hmem)) fun hstray => hstray.2 b hb heq

end Linked

theorem Arena.freep_ne (ha : Arena base lo h fl held) : h.freep ≠ 0 := by
  have hpos := ha.pos
  obtain heq | hmem := List.mem_cons.1 ha.home
  · omega
  · obtain ⟨x, hx, heq⟩ := List.mem_map.1 hmem
    have := ha.low hx
    omega

theorem Sound.safe (hs : Sound base lo h) : h.Safe := by
  cases hs with
  | unused _ _ _ _ _ hlive => exact Heap.safe_of_live_nil hlive
  | used fl harena => exact harena.safe

end Xv6.Umalloc
