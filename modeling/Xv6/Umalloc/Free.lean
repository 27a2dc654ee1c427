import Mathlib.Data.List.TakeWhile
import Xv6.Lib.Leads
import Xv6.Umalloc.FreeList

/-!
# `free`

The search comes to the place of the block, which is joined to its neighbours or linked in between.
-/

open Function

namespace Xv6.Umalloc

/-- A call runs to `Q`, and no live block is overlapped or on the free list on the way. -/
abbrev Runs (base : Nat) (Q : Heap × Pc → Prop) : Heap × Pc → Prop :=
  Leads (fun s ok => exec base s.1 ok s.2) (fun s => s.1.Safe) Q

variable {base lo p : Nat} {h h' : Heap} {fl A M B held : List Extent} {x y : Extent} {k : Caller}
    {Q : Heap × Pc → Prop}

/-! ## Places in the ring -/

def Upto (base : Nat) (A : List Extent) (p : Nat) : Prop := (base :: A.map Extent.addr).getLast? = some p

theorem Upto.split (hu : Upto base A p) : ∃ C, base :: A.map Extent.addr = C ++ [p] := List.getLast?_eq_some_iff.1 hu

theorem upto_concat : Upto base (A ++ [x]) p ↔ x.addr = p := by
  rw [Upto, List.map_append, ← List.cons_append, List.map_singleton, List.getLast?_concat, Option.some.injEq]

theorem upto_of_mem (hp : p ∈ base :: fl.map Extent.addr) : ∃ A B, fl = A ++ B ∧ Upto base A p := by
  obtain rfl | hp := List.mem_cons.1 hp
  · exact ⟨[], fl, rfl, rfl⟩
  · obtain ⟨x, hx, rfl⟩ := List.mem_map.1 hp
    obtain ⟨A, B, rfl⟩ := List.append_of_mem hx
    exact ⟨A ++ [x], B, by simp, upto_concat.2 rfl⟩

theorem Upto.cases (hu : Upto base A p) : A = [] ∧ p = base ∨ ∃ A₀ x, A = A₀ ++ [x] ∧ x.addr = p := by
  obtain rfl | ⟨A₀, x, rfl⟩ := A.eq_nil_or_concat'
  · exact .inl ⟨rfl, by simpa [Upto] using hu.symm⟩
  · exact .inr ⟨A₀, x, rfl, upto_concat.1 hu⟩

theorem Upto.mem (hu : Upto base A p) : p ∈ base :: (A ++ B).map Extent.addr := by
  obtain ⟨C, hC⟩ := hu.split
  rw [List.map_append, ← List.cons_append, hC]
  simp

section

variable (hl : Linked base lo h (A ++ B) held)
include hl

theorem Linked.upto_le (hu : Upto base A p) (hx : x ∈ A) : x.addr ≤ p := by
  obtain ⟨C, hC⟩ := hu.split
  have hord := hl.ordered
  rw [List.map_append, ← List.cons_append, hC, List.append_assoc] at hord
  have hmem : x.addr ∈ C ++ [p] := hC ▸ List.mem_cons_of_mem _ (List.mem_map_of_mem hx)
  obtain hmem | heq := List.mem_append.1 hmem
  · exact Nat.le_of_lt ((List.pairwise_append.1 hord).2.2 _ hmem p (by simp))
  · exact Nat.le_of_eq (List.mem_singleton.1 heq)

theorem Linked.upto_lt (hu : Upto base A p) (hx : x ∈ B) : p < x.addr := by
  obtain ⟨C, hC⟩ := hu.split
  have hord := hl.ordered
  rw [List.map_append, ← List.cons_append, hC] at hord
  exact (List.pairwise_append.1 hord).2.2 p (by simp) x.addr (List.mem_map_of_mem hx)

theorem Linked.ptr_upto (hu : Upto base A p) :
    h.ptr p = (B.map Extent.addr).headD base := by
  obtain ⟨C, hC⟩ := hu.split
  have hlinks := hl.links
  rw [List.map_append, ← List.cons_append, hC, List.append_assoc] at hlinks
  exact (Chain.append.1 hlinks).2.1

theorem Linked.links_under (hu : Upto base A p) (c : Nat) :
    Chain (update h.ptr p c) (base :: A.map Extent.addr) c := by
  obtain ⟨C, hC⟩ := hu.split
  have hlinks := hl.links
  have hnodup := hl.nodup
  rw [List.map_append, ← List.cons_append, hC] at hlinks hnodup
  rw [hC]
  refine (Chain.append.1 hlinks).1.redirect fun hp => ?_
  exact (List.nodup_append.1 (List.nodup_append.1 hnodup).1).2.2 p hp p (by simp) rfl

theorem Linked.links_above : Chain h.ptr (B.map Extent.addr) base := by
  have hlinks := hl.links
  rw [List.map_append, ← List.cons_append] at hlinks
  exact (Chain.append.1 hlinks).2

theorem Linked.upto_not_mem (hu : Upto base A p) : p ∉ B.map Extent.addr := by
  intro hp
  obtain ⟨x, hx, heq⟩ := List.mem_map.1 hp
  exact Nat.ne_of_gt (hl.upto_lt hu hx) heq

theorem Linked.upto_low (hu : Upto base A p) : base ≤ p := by
  obtain ⟨-, rfl⟩ | ⟨A₀, x, rfl, rfl⟩ := hu.cases
  · exact Nat.le_refl _
  · exact Nat.le_of_lt (hl.low (by simp))

end

/-! ## Changes of one header -/

theorem Arena.setPtr (ha : Arena base lo h fl held) {a c : Nat} (hmem : a ∉ base :: fl.map Extent.addr) :
    Arena base lo (h.setPtr a c) fl held where
  __ := ha
  links := ha.links.update hmem
  freep := .inl ha.home

theorem Linked.setSize (hl : Linked base lo h fl held) {a c : Nat} (ha : a ≠ base) (hlive : ∀ b ∈ h.live, b.addr ≠ a) :
    Linked base lo (h.setSize a c) fl held where
  __ := hl
  zero := (update_of_ne ha.symm _ _).trans hl.zero
  header b hb := (update_of_ne (hlive b hb) _ _).trans (hl.header b hb)

theorem Arena.setSize (ha : Arena base lo h fl held) {a c : Nat} (hmem : a ∉ base :: fl.map Extent.addr)
    (hlive : ∀ b ∈ h.live, b.addr ≠ a) : Arena base lo (h.setSize a c) fl held where
  __ := ha.toLinked.setSize (fun heq => hmem (heq ▸ List.mem_cons_self)) hlive
  home := ha.home
  size x hx := by
    have hne : x.addr ≠ a := fun heq => hmem (heq ▸ List.mem_cons_of_mem _ (List.mem_map_of_mem hx))
    rw [Heap.setSize_size, update_of_ne hne]
    exact ha.size x hx

theorem Linked.setFreep (hl : Linked base lo h fl held) (hsize : ∀ x ∈ fl, x.len = 8 * h.size x.addr)
    (hp : p ∈ base :: fl.map Extent.addr) : Arena base lo { h with freep := p } fl held where
  __ := hl
  freep := .inl hp
  home := hp
  size := hsize

theorem Linked.held_ne (hl : Linked base lo h fl (x :: held)) : ∀ b ∈ h.live, b.addr ≠ x.addr := by
  intro b hb heq
  have hperm : (fl ++ (x :: held ++ h.live.map Block.extent)).Perm (x :: (fl ++ (held ++ h.live.map Block.extent))) :=
    List.perm_middle
  have hmem : b.extent ∈ fl ++ (held ++ h.live.map Block.extent) := by
    simp only [List.mem_append]
    exact .inr (.inr (List.mem_map_of_mem hb))
  exact (hl.tiles.perm hperm).head_ne hmem heq.symm

theorem Linked.held_not_mem (hl : Linked base lo h fl (x :: held)) : x.addr ∉ base :: fl.map Extent.addr :=
  hl.addr_not_mem (List.mem_append_left _ List.mem_cons_self)

/-! ## Linking the block in -/

structure Freed (base lo : Nat) (h : Heap) (fl held : List Extent) (y : Extent) (h' : Heap) : Prop where
  live : h'.live = h.live
  ring : ∃ fl', Arena base lo h' fl' held ∧ (∃ z ∈ fl', y.len ≤ z.len) ∧
    ∀ z ∈ fl', z.addr = y.addr ∨ z.addr ∈ fl.map Extent.addr

/-- The block `x` is about to be linked in behind `p`, as `y` and in the place of `M`, the block above it if that is
joined. -/
structure Gap (base lo : Nat) (h : Heap) (A B held : List Extent) (M : Option Extent) (x y : Extent) (p : Nat) :
    Prop where
  arena : Arena base lo h (A ++ (M.toList ++ B)) (x :: held)
  place : Upto base A p
  addr : y.addr = x.addr
  size : y.len = 8 * h.size y.addr
  ptr : h.ptr y.addr = (B.map Extent.addr).headD base
  tiles : Tiles lo h.brk (A ++ y :: (B ++ (held ++ h.live.map Block.extent)))
  under : ∀ z ∈ A, z.stop ≤ y.addr
  above : ∀ z ∈ B, y.stop < z.addr

namespace Gap

variable {M : Option Extent}

section

variable (hg : Gap base lo h A B held M x y p)
include hg

theorem not_mem :
    y.addr ∉ base :: (A ++ (M.toList ++ B)).map Extent.addr := hg.addr ▸ hg.arena.held_not_mem

theorem freep {L : List Nat} (hA : ∀ a ∈ base :: A.map Extent.addr, a ∈ L)
    (hB : ∀ a ∈ B.map Extent.addr, a ∈ L) (hbase : base ∈ L) {ptr : Nat → Nat}
    (hptr : ∀ a, a ≠ p → ptr a = h.ptr a) :
    h.freep ∈ L ∨ ptr h.freep ∈ L ∧ ∀ b ∈ h.live, b.addr ≠ h.freep := by
  have hhome := hg.arena.home
  rw [List.map_append, List.map_append, ← List.cons_append, List.mem_append, List.mem_append] at hhome
  obtain hmem | hmem | hmem := hhome
  · exact .inl (hA _ hmem)
  · -- the block above has left the ring and still leads to the one behind it
    cases M with
    | none => cases hmem
    | some q =>
      have heq : h.freep = q.addr := by simpa using hmem
      have harena := hg.arena
      rw [Option.toList_some, List.singleton_append, List.append_cons] at harena
      have hne : h.freep ≠ p := heq ▸ Nat.ne_of_gt (hg.arena.upto_lt hg.place (by simp))
      refine .inr ⟨?_, fun b hb hbq => harena.live_not_mem hb ?_⟩
      · rw [hptr _ hne, heq, harena.ptr_upto (upto_concat.2 rfl)]
        cases B with
        | nil => exact hbase
        | cons z B => exact hB _ List.mem_cons_self
      · rw [hbq, heq]
        simp
  · exact .inl (hB _ hmem)

theorem links_above : Chain h.ptr (B.map Extent.addr) base := by
  have harena := hg.arena
  rw [← List.append_assoc] at harena
  exact harena.links_above

theorem place_not_mem : p ∉ B.map Extent.addr := by
  have hnot := hg.arena.upto_not_mem hg.place
  rw [List.map_append] at hnot
  exact fun hp => hnot (List.mem_append_right _ hp)

theorem place_ne : p ≠ y.addr :=
  fun heq => hg.not_mem (heq ▸ hg.place.mem)

theorem sorted_under : A.Pairwise fun x y => x.stop < y.addr :=
  (List.pairwise_append.1 hg.arena.sorted).1

theorem sorted_above : B.Pairwise fun x y => x.stop < y.addr :=
  (List.pairwise_append.1 (List.pairwise_append.1 hg.arena.sorted).2.1).2.1

theorem under_above : ∀ z ∈ A, ∀ w ∈ B, z.stop < w.addr :=
  fun z hz w hw => (List.pairwise_append.1 hg.arena.sorted).2.2 z hz w (List.mem_append_right _ hw)

/-- `p->s.ptr = bp` -/
theorem linkDown (hne : ∀ z ∈ A, z.stop ≠ y.addr) :
    Linked base lo (h.setPtr p y.addr) (A ++ y :: B) held where
  __ := hg.arena
  links := by
    rw [List.map_append, List.map_cons, ← List.cons_append]
    refine Chain.append.2 ⟨hg.arena.links_under hg.place y.addr, ?_, hg.links_above.update hg.place_not_mem⟩
    exact (update_of_ne hg.place_ne.symm _ _).trans hg.ptr
  freep := by
    refine hg.freep (fun a ha => ?_) (fun a ha => ?_) List.mem_cons_self fun a ha => update_of_ne ha _ _
    · rw [List.map_append, ← List.cons_append]
      exact List.mem_append_left _ ha
    · rw [List.map_append, List.map_cons]
      exact List.mem_cons_of_mem _ (List.mem_append_right _ (List.mem_cons_of_mem _ ha))
  tiles := by
    have htiles := hg.tiles
    rwa [← List.cons_append, ← List.append_assoc] at htiles
  sorted := by
    refine List.pairwise_append.2 ⟨hg.sorted_under, List.pairwise_cons.2 ⟨hg.above, hg.sorted_above⟩,
      fun z hz w hw => ?_⟩
    obtain rfl | hw := List.mem_cons.1 hw
    · exact Nat.lt_of_le_of_ne (hg.under z hz) (hne z hz)
    · exact hg.under_above z hz w hw

end

theorem joinDown {A₀ : List Extent} {w : Extent} (hg : Gap base lo h (A₀ ++ [w]) B held M x y w.addr)
    (hw : w.stop = y.addr) (n : Nat) :
    Linked base lo ((h.setSize w.addr n).setPtr w.addr (h.ptr y.addr)) (A₀ ++ ⟨w.addr, w.len + y.len⟩ :: B) held where
  __ := hg.arena.toLinked.setSize (Nat.ne_of_gt (hg.arena.low (by simp)))
    fun b hb heq => hg.arena.live_not_mem hb (heq ▸ hg.place.mem)
  links := by
    have hunder := hg.arena.links_under hg.place (h.ptr y.addr)
    rw [hg.ptr, List.map_append, List.map_singleton, ← List.cons_append] at hunder
    rw [List.map_append, List.map_cons, ← List.cons_append, List.append_cons]
    exact Chain.append.2 ⟨by rw [hg.ptr]; exact hunder, hg.links_above.update hg.place_not_mem⟩
  freep := by
    refine hg.freep (fun a ha => ?_) (fun a ha => ?_) List.mem_cons_self fun a ha => update_of_ne ha _ _
    · simpa [or_assoc] using Or.imp_right (Or.imp_right Or.inl) (by simpa using ha)
    · rw [List.map_append, List.map_cons]
      exact List.mem_cons_of_mem _ (List.mem_append_right _ (List.mem_cons_of_mem _ ha))
  tiles := by
    have htiles := hg.tiles
    rw [List.append_assoc, List.singleton_append,
      show y = ⟨w.addr + w.len, y.len⟩ by rw [show w.addr + w.len = y.addr from hw]]
      at htiles
    have hjoin := htiles.join_at
    rwa [← List.cons_append, ← List.append_assoc] at hjoin
  sorted := by
    obtain ⟨hA, -, hAw⟩ := List.pairwise_append.1 hg.sorted_under
    refine List.pairwise_append.2 ⟨hA, List.pairwise_cons.2 ⟨fun z hz => ?_, hg.sorted_above⟩, fun z hz v hv => ?_⟩
    · have := hg.above z hz
      simp only [Extent.stop] at this hw ⊢
      omega
    · obtain rfl | hv := List.mem_cons.1 hv
      · exact hAw z hz w List.mem_cons_self
      · exact hg.under_above z (List.mem_append_left _ hz) v hv

variable (hg : Gap base lo h A B held M x y p)
include hg

theorem lower_iff :
    word (p + 8 * h.size p) = y.addr ↔ ∃ A₀ w, A = A₀ ++ [w] ∧ w.addr = p ∧ w.stop = y.addr := by
  have htop := hg.arena.top
  have hbrk := hg.arena.tiles.sum
  have hbelow := hg.arena.below
  rw [kernbase] at htop
  obtain ⟨rfl, rfl⟩ | ⟨A₀, w, rfl, rfl⟩ := hg.place.cases
  · rw [hg.arena.zero, word_of_lt (by omega)]
    have hlow := hg.tiles.low y (by simp)
    constructor
    · intro heq
      omega
    · rintro ⟨A₀, w, hnil, -⟩
      simp at hnil
  · have hsize := hg.arena.size w (by simp)
    have hhigh := hg.arena.tiles.high w (by simp)
    rw [Extent.stop] at hhigh
    rw [← hsize, word_of_lt (by omega)]
    constructor
    · intro heq
      exact ⟨A₀, w, rfl, rfl, heq⟩
    · rintro ⟨A₁, v, heq, -, hv⟩
      obtain ⟨-, heq⟩ := List.append_inj' heq rfl
      rw [List.singleton_inj] at heq
      exact heq ▸ hv

theorem stop_ne (hne : ¬ ∃ A₀ w, A = A₀ ++ [w] ∧ w.addr = p ∧ w.stop = y.addr) :
    ∀ z ∈ A, z.stop ≠ y.addr := by
  intro z hz heq
  obtain ⟨rfl, -⟩ | ⟨A₀, w, rfl, hw⟩ := hg.place.cases
  · cases hz
  · obtain hz | hz := List.mem_append.1 hz
    · -- the last block lies between and has a length
      have hzw := (List.pairwise_append.1 hg.sorted_under).2.2 z hz w List.mem_cons_self
      have hwy := hg.under w (by simp)
      have hpos := hg.arena.tiles.pos w (by simp)
      simp only [Extent.stop] at hzw hwy heq
      omega
    · rw [List.mem_singleton] at hz
      exact hne ⟨A₀, w, rfl, hw, hz ▸ heq⟩

theorem size_lt {A₀ : List Extent} {w : Extent} (hA : A = A₀ ++ [w]) :
    h.size w.addr + h.size y.addr < 2 ^ 32 := by
  subst hA
  have htop := hg.arena.top
  have hw := hg.tiles.high w (by simp)
  have hy := hg.tiles.high y (by simp)
  have hsize := hg.arena.size w (by simp)
  have hsize' := hg.size
  rw [kernbase] at htop
  rw [Extent.stop] at hw hy
  omega

theorem lower_runs (k : Caller) :
    Runs base (fun s => s.2 = k.back ∧ Freed base lo h (A ++ (M.toList ++ B)) held y s.1) (h, .lower y.addr p k) := by
  by_cases hjoin : ∃ A₀ w, A = A₀ ++ [w] ∧ w.addr = p ∧ w.stop = y.addr
  · refine .move hg.arena.safe (fun _ => by rw [exec, if_pos (hg.lower_iff.2 hjoin)]) ?_
    obtain ⟨A₀, w, rfl, rfl, hw⟩ := hjoin
    have hword := word_of_lt (hg.size_lt rfl)
    have hlinked := hg.joinDown hw (h.size w.addr + h.size y.addr)
    refine .move hg.arena.safe (fun _ => by rw [exec, hword])
      (.move ?_ (fun _ => rfl) (.move hlinked.safe (fun _ => rfl) (.here ?_)))
    · exact (hg.arena.toLinked.setSize (Nat.ne_of_gt (hg.arena.low (by simp)))
        fun b hb heq => hg.arena.live_not_mem hb (heq ▸ hg.place.mem)).safe
    · refine ⟨rfl, rfl, _, hlinked.setFreep (fun z hz => ?_) (by simp), ⟨⟨w.addr, w.len + y.len⟩, by simp, by simp⟩, ?_⟩
      · rw [Heap.setPtr_size, Heap.setSize_size]
        have hsize := hg.arena.size w (by simp)
        have hsize' := hg.size
        have hnodup := hlinked.nodup
        rw [List.map_append, List.map_cons, ← List.cons_append] at hnodup
        obtain hz | hz := List.mem_append.1 hz
        · have hne : z.addr ≠ w.addr := (List.nodup_append.1 hnodup).2.2 z.addr
            (List.mem_cons_of_mem _ (List.mem_map_of_mem hz)) w.addr List.mem_cons_self
          rw [update_of_ne hne]
          exact hg.arena.size z (by simp [hz])
        · obtain rfl | hz := List.mem_cons.1 hz
          · rw [update_self]
            simp only
            omega
          · have hne : z.addr ≠ w.addr := fun heq => hg.place_not_mem (heq ▸ List.mem_map_of_mem hz)
            rw [update_of_ne hne]
            exact hg.arena.size z (by simp [hz])
      · intro z hz
        refine .inr ?_
        obtain hz | hz := List.mem_append.1 hz
        · exact List.mem_map_of_mem (by simp [hz])
        · obtain rfl | hz := List.mem_cons.1 hz
          · exact List.mem_map.2 ⟨w, by simp, rfl⟩
          · exact List.mem_map_of_mem (by simp [hz])
  · have hlinked := hg.linkDown (hg.stop_ne hjoin)
    refine .move hg.arena.safe (fun _ => by rw [exec, if_neg fun heq => hjoin (hg.lower_iff.1 heq)])
      (.move hg.arena.safe (fun _ => rfl) (.move hlinked.safe (fun _ => rfl) (.here ?_)))
    refine ⟨rfl, rfl, _, hlinked.setFreep (fun z hz => ?_) hg.place.mem, ⟨y, by simp, Nat.le_refl _⟩, fun z hz => ?_⟩
    · obtain hz | hz := List.mem_append.1 hz
      · exact hg.arena.size z (by simp [hz])
      · obtain rfl | hz := List.mem_cons.1 hz
        · exact hg.size
        · exact hg.arena.size z (by simp [hz])
    · obtain hz | hz := List.mem_append.1 hz
      · exact .inr (List.mem_map_of_mem (by simp [hz]))
      · obtain rfl | hz := List.mem_cons.1 hz
        · exact .inl rfl
        · exact .inr (List.mem_map_of_mem (by simp [hz]))

end Gap

/-! ## The place of the block -/

structure Placed (base lo : Nat) (h : Heap) (A B held : List Extent) (x : Extent) (p : Nat) : Prop where
  arena : Arena base lo h (A ++ B) (x :: held)
  place : Upto base A p
  size : x.len = 8 * h.size x.addr
  under : ∀ z ∈ A, z.addr < x.addr
  above : ∀ z ∈ B, x.addr < z.addr

namespace Placed

section

variable (hp : Placed base lo h A B held x p)
include hp

theorem apart {z : Extent} (hz : z ∈ A ++ B) : z.Apart x :=
  (List.pairwise_append.1 hp.arena.tiles.apart).2.2 z hz x (by simp)

theorem stop_le : ∀ z ∈ A, z.stop ≤ x.addr := by
  intro z hz
  have hlt := hp.under z hz
  have hpos := hp.arena.tiles.pos x (by simp)
  obtain hle | hle := hp.apart (List.mem_append_left _ hz)
  · exact hle
  · rw [Extent.stop] at hle
    omega

theorem le_addr : ∀ z ∈ B, x.stop ≤ z.addr := by
  intro z hz
  have hlt := hp.above z hz
  have hpos := hp.arena.tiles.pos z (by simp [hz])
  obtain hle | hle := hp.apart (List.mem_append_right _ hz)
  · rw [Extent.stop] at hle
    omega
  · exact hle

theorem word_stop : word (x.addr + 8 * h.size x.addr) = x.stop := by
  have htop := hp.arena.top
  have hhigh := hp.arena.tiles.high x (by simp)
  rw [kernbase] at htop
  rw [← hp.size]
  exact word_of_lt (by rw [Extent.stop] at hhigh; omega)

theorem low : base < x.addr := by
  have hlow := hp.arena.tiles.low x (by simp)
  have hbelow := hp.arena.below
  omega

/-- `bp->s.ptr = p->s.ptr` -/
theorem gap (hne : ∀ z ∈ B, x.stop ≠ z.addr) :
    Gap base lo (h.setPtr x.addr (h.ptr p)) A B held none x x p where
  arena := hp.arena.setPtr hp.arena.held_not_mem
  place := hp.place
  addr := rfl
  size := hp.size
  ptr := by rw [Heap.setPtr_ptr, update_self, hp.arena.ptr_upto hp.place]
  tiles := by
    have htiles := hp.arena.tiles
    rw [List.append_assoc, List.cons_append] at htiles
    exact Tiles.move.1 htiles
  under := hp.stop_le
  above z hz := Nat.lt_of_le_of_ne (hp.le_addr z hz) (hne z hz)

end

theorem gap_join {q : Extent} (hp : Placed base lo h A (q :: B) held x p) (hq : x.stop = q.addr) :
    Gap base lo ((h.setSize x.addr (h.size x.addr + h.size q.addr)).setPtr x.addr (h.ptr q.addr)) A B held (some q) x
      ⟨x.addr, x.len + q.len⟩ p where
  arena := (hp.arena.setSize hp.arena.held_not_mem hp.arena.held_ne).setPtr hp.arena.held_not_mem
  place := hp.place
  addr := rfl
  size := by
    have hsize := hp.arena.size q (by simp)
    have hsize' := hp.size
    simp only [Heap.setPtr_size, Heap.setSize_size, update_self]
    omega
  ptr := by
    have harena := hp.arena
    rw [List.append_cons] at harena
    simp only [Heap.setPtr_ptr, update_self]
    exact harena.ptr_upto (upto_concat.2 rfl)
  tiles := by
    have htiles : Tiles lo h.brk (A ++ ((q :: B) ++ x :: (held ++ h.live.map Block.extent))) := by
      rw [← List.append_assoc]
      exact hp.arena.tiles
    have hmove := Tiles.move.1 htiles
    rw [show q = ⟨x.addr + x.len, q.len⟩ by rw [show x.addr + x.len = q.addr from hq]] at hmove
    exact hmove.join_at
  under := hp.stop_le
  above z hz := by
    have hqz := (List.pairwise_cons.1 (List.pairwise_append.1 hp.arena.sorted).2.1).1 z hz
    simp only [Extent.stop] at hqz hq ⊢
    omega

theorem upper_runs (hp : Placed base lo h A B held x p) (k : Caller) :
    Runs base (fun s => s.2 = k.back ∧ ∃ y, y.addr = x.addr ∧ x.len ≤ y.len ∧ Freed base lo h (A ++ B) held y s.1)
      (h, .upper x.addr p k) := by
  have hptr := hp.arena.ptr_upto hp.place
  by_cases hjoin : x.stop = h.ptr p
  · -- the block above starts where this one ends
    obtain _ | ⟨q, B⟩ := B
    · have hlow := hp.low
      rw [hptr, Extent.stop] at hjoin
      simp only [List.map_nil, List.headD_nil] at hjoin
      omega
    · replace hptr : h.ptr p = q.addr := hptr
      have hword : word (h.size x.addr + h.size q.addr) = h.size x.addr + h.size q.addr := by
        have htop := hp.arena.top
        have hhigh := hp.arena.tiles.high q (by simp)
        have hsize := hp.arena.size q (by simp)
        have hsize' := hp.size
        rw [hptr, Extent.stop] at hjoin
        rw [kernbase] at htop
        rw [Extent.stop] at hhigh
        exact word_of_lt (by omega)
      have hgap := hp.gap_join (hjoin.trans hptr)
      refine .move hp.arena.safe (fun _ => by rw [exec, hp.word_stop, if_pos hjoin])
        (.move hp.arena.safe (fun _ => by rw [exec, hptr, hword])
          (.move ?_ (fun _ => ?_) ((hgap.lower_runs k).mono ?_)))
      · exact (hp.arena.setSize hp.arena.held_not_mem hp.arena.held_ne).safe
      · rw [exec, Heap.setSize_ptr, hptr]
      · rintro s ⟨hback, hlive, hring⟩
        exact ⟨hback, ⟨x.addr, x.len + q.len⟩, rfl, Nat.le_add_right _ _, hlive, hring⟩
  · have hne : ∀ z ∈ B, x.stop ≠ z.addr := by
      intro z hz heq
      obtain _ | ⟨q, B⟩ := B
      · cases hz
      · obtain rfl | hz := List.mem_cons.1 hz
        · exact hjoin (heq.trans hptr.symm)
        · -- the first block behind the place lies between and has a length
          have hqz := (List.pairwise_cons.1 (List.pairwise_append.1 hp.arena.sorted).2.1).1 z hz
          have hq := hp.le_addr q List.mem_cons_self
          simp only [Extent.stop] at hqz hq heq
          omega
    refine .move hp.arena.safe (fun _ => by rw [exec, hp.word_stop, if_neg hjoin])
      (.move hp.arena.safe (fun _ => rfl) (((hp.gap hne).lower_runs k).mono ?_))
    rintro s ⟨hback, hlive, hring⟩
    exact ⟨hback, x, rfl, Nat.le_refl _, hlive, hring⟩

end Placed

/-! ## The search -/

def Exits (h : Heap) (bp p : Nat) : Prop := (p < bp ∧ bp < h.ptr p) ∨ (h.ptr p ≤ p ∧ (p < bp ∨ bp < h.ptr p))

theorem placed_of_exits (ha : Arena base lo h fl (x :: held)) (hsize : x.len = 8 * h.size x.addr)
    (hp : p ∈ base :: fl.map Extent.addr) (hexit : Exits h x.addr p) :
    ∃ A B, fl = A ++ B ∧ Placed base lo h A B held x p := by
  obtain ⟨A, B, rfl, hu⟩ := upto_of_mem hp
  have hptr := ha.ptr_upto hu
  have hlow := ha.tiles.low x (by simp)
  have hbelow := ha.below
  have hpu := ha.upto_low hu
  refine ⟨A, B, rfl, ha, hu, hsize, fun z hz => ?_, fun z hz => ?_⟩
  · have hle := ha.upto_le hu hz
    have hbase : p < x.addr := by
      obtain ⟨hlt, -⟩ | ⟨hwrap, hlt | hlt⟩ := hexit
      · exact hlt
      · exact hlt
      · -- only the last header leads back, and it leads to `base`
        obtain _ | ⟨q, B⟩ := B
        · simp only [List.map_nil, List.headD_nil] at hptr
          omega
        · have hq : h.ptr p = q.addr := hptr
          have hpq := ha.upto_lt hu List.mem_cons_self
          omega
    omega
  · obtain _ | ⟨q, B⟩ := B
    · cases hz
    · have hq : h.ptr p = q.addr := hptr
      have hpq := ha.upto_lt hu List.mem_cons_self
      have hxq : x.addr < q.addr := by
        obtain ⟨-, hlt⟩ | ⟨hwrap, -⟩ := hexit <;> omega
      obtain rfl | hz := List.mem_cons.1 hz
      · exact hxq
      · have hqz := (List.pairwise_cons.1 (List.pairwise_append.1 ha.sorted).2.1).1 z hz
        rw [Extent.stop] at hqz
        omega

theorem exists_exits (ha : Arena base lo h fl (x :: held)) : ∃ p ∈ base :: fl.map Extent.addr, Exits h x.addr p := by
  -- the place is behind the last header below the block
  have hsplit : fl = fl.takeWhile (·.addr < x.addr) ++ fl.dropWhile (·.addr < x.addr) :=
    List.takeWhile_append_dropWhile.symm
  generalize hA : fl.takeWhile (·.addr < x.addr) = A at hsplit
  generalize hB : fl.dropWhile (·.addr < x.addr) = B at hsplit
  have hlow := ha.tiles.low x (by simp)
  have hbelow := ha.below
  obtain ⟨p, hu⟩ : ∃ p, Upto base A p := ⟨_, List.getLast?_eq_some_getLast (List.cons_ne_nil _ _)⟩
  subst hsplit
  have hp : p < x.addr := by
    obtain ⟨-, rfl⟩ | ⟨A₀, w, rfl, rfl⟩ := hu.cases
    · omega
    · have hmem : w ∈ ((A₀ ++ [w]) ++ B).takeWhile (·.addr < x.addr) := by
        rw [hA]
        simp
      have hlt := List.mem_takeWhile_imp hmem
      exact of_decide_eq_true hlt
  refine ⟨p, hu.mem, ?_⟩
  have hptr := ha.ptr_upto hu
  obtain _ | ⟨q, B⟩ := B
  · have hle := ha.upto_low hu
    exact .inr ⟨by rw [hptr]; exact hle, .inl hp⟩
  · have hq : h.ptr p = q.addr := hptr
    refine .inl ⟨hp, ?_⟩
    have hnot : ¬ q.addr < x.addr := by
      have hhead := List.head?_dropWhile_not (fun z : Extent => decide (z.addr < x.addr)) (A ++ q :: B)
      simpa [hB] using hhead
    have hne : q.addr ≠ x.addr := fun heq => ha.held_not_mem (heq ▸ by simp)
    omega

theorem between_runs (ha : Arena base lo h fl (x :: held)) (hsize : x.len = 8 * h.size x.addr) (k : Caller)
    {l : List Nat} {z : Nat} (hchain : Chain h.ptr (p :: l) z) (hmem : ∀ a ∈ p :: l, a ∈ base :: fl.map Extent.addr)
    (hexit : ∃ a ∈ p :: l, Exits h x.addr a) :
    Runs base (fun s => s.2 = k.back ∧ ∃ y, y.addr = x.addr ∧ x.len ≤ y.len ∧ Freed base lo h fl held y s.1)
      (h, .between x.addr p k) := by
  induction l generalizing p with
  | nil =>
    obtain ⟨a, ha', hexit⟩ := hexit
    rw [List.mem_singleton] at ha'
    subst ha'
    obtain ⟨A, B, rfl, hplaced⟩ := placed_of_exits ha hsize (hmem a List.mem_cons_self) hexit
    obtain hfirst | hwrap := hexit
    · exact .move ha.safe (fun _ => by rw [exec, if_pos hfirst]) (hplaced.upper_runs k)
    · by_cases hfirst : a < x.addr ∧ x.addr < h.ptr a
      · exact .move ha.safe (fun _ => by rw [exec, if_pos hfirst]) (hplaced.upper_runs k)
      · exact .move ha.safe (fun _ => by rw [exec, if_neg hfirst])
          (.move ha.safe (fun _ => by rw [exec, if_pos hwrap]) (hplaced.upper_runs k))
  | cons c l ih =>
    by_cases hfirst : p < x.addr ∧ x.addr < h.ptr p
    · obtain ⟨A, B, rfl, hplaced⟩ := placed_of_exits ha hsize (hmem p List.mem_cons_self) (.inl hfirst)
      exact .move ha.safe (fun _ => by rw [exec, if_pos hfirst]) (hplaced.upper_runs k)
    refine .move ha.safe (fun _ => by rw [exec, if_neg hfirst]) ?_
    by_cases hwrap : h.ptr p ≤ p ∧ (p < x.addr ∨ x.addr < h.ptr p)
    · obtain ⟨A, B, rfl, hplaced⟩ := placed_of_exits ha hsize (hmem p List.mem_cons_self) (.inr hwrap)
      exact .move ha.safe (fun _ => by rw [exec, if_pos hwrap]) (hplaced.upper_runs k)
    · -- not here, so at one of the headers that follow
      refine .move ha.safe (fun _ => by rw [exec, if_neg hwrap]) (.move ha.safe (fun _ => by rw [exec, hchain.1]) ?_)
      refine ih hchain.2 (fun a hal => hmem a (List.mem_cons_of_mem _ hal)) ?_
      obtain ⟨a, hal, hexit⟩ := hexit
      obtain rfl | hal := List.mem_cons.1 hal
      · exact (hexit.elim hfirst hwrap).elim
      · exact ⟨a, hal, hexit⟩

theorem Arena.ring (ha : Arena base lo h fl held) :
    ∃ R, Chain h.ptr (h.freep :: R) h.freep ∧ (h.freep :: R).Perm (base :: fl.map Extent.addr) := by
  obtain ⟨l₁, l₂, hsplit⟩ := List.append_of_mem ha.home
  have hhead : l₁.headD h.freep = base := by
    cases l₁ with
    | nil => exact (List.cons.inj hsplit).1.symm
    | cons c l₁ => exact (List.cons.inj hsplit).1.symm
  refine ⟨l₂ ++ l₁, Chain.rotate ?_, ?_⟩
  · rw [hhead, ← hsplit]
    exact ha.links
  · rw [hsplit, ← List.cons_append]
    exact List.perm_append_comm

theorem free_runs (ha : Arena base lo h fl (x :: held)) (hsize : x.len = 8 * h.size x.addr) (k : Caller) :
    Runs base (fun s => s.2 = k.back ∧ ∃ y, y.addr = x.addr ∧ x.len ≤ y.len ∧ Freed base lo h fl held y s.1)
      (h, .start x.addr k) := by
  obtain ⟨R, hchain, hperm⟩ := ha.ring
  obtain ⟨p, hp, hexit⟩ := exists_exits ha
  exact .move ha.safe (fun _ => rfl)
    (between_runs ha hsize k hchain (fun a hal => hperm.mem_iff.1 hal) ⟨p, hperm.mem_iff.2 hp, hexit⟩)

end Xv6.Umalloc
