import Xv6.Umalloc.Free

/-!
# `malloc`

The search goes once around the ring. If no block fits, `sbrk` is asked once.
-/

open Function

namespace Xv6.Umalloc

variable {base lo n p prevp : Nat} {h : Heap} {fl A B held : List Extent} {x : Extent} {live : List Block}

def Answered (base lo n : Nat) (live : List Block) (s : Heap × Pc) : Prop :=
  s.2 = .idle ∧ (s.1.live = live ∨ ∃ p, s.1.live = ⟨p, n⟩ :: live) ∧ ∃ fl, Arena base lo s.1 fl []

/-! ## A block that fits -/

theorem Arena.deliver (ha : Arena base lo h fl [⟨p, 8 * nunits n⟩]) (hsize : h.size p = nunits n) :
    Arena base lo { h with live := ⟨p, n⟩ :: h.live } fl [] where
  __ := ha
  freep := .inl ha.home
  header := List.forall_mem_cons.2 ⟨hsize, ha.header⟩

theorem setFreep_runs (hl : Linked base lo h fl [⟨p, 8 * nunits n⟩]) (hsizes : ∀ x ∈ fl, x.len = 8 * h.size x.addr)
    (hprev : prevp ∈ base :: fl.map Extent.addr) (hsize : h.size p = nunits n) :
    Runs base (Answered base lo n h.live) (h, .setFreep n prevp p) := by
  have harena := hl.setFreep hsizes hprev
  exact .move hl.safe (fun _ => rfl) (.move harena.safe (fun _ => rfl)
    (.here ⟨rfl, .inr ⟨p, rfl⟩, fl, harena.deliver hsize⟩))

/-- `prevp->s.ptr = p->s.ptr` -/
theorem Arena.unlink (ha : Arena base lo h (A ++ x :: B) []) (hu : Upto base A prevp) :
    Linked base lo (h.setPtr prevp (h.ptr x.addr)) (A ++ B) [x] := by
  have hnext : h.ptr x.addr = (B.map Extent.addr).headD base := by
    have harena := ha
    rw [List.append_cons] at harena
    exact harena.ptr_upto (upto_concat.2 rfl)
  have hne : x.addr ≠ prevp := Nat.ne_of_gt (ha.upto_lt hu List.mem_cons_self)
  have habove := ha.links_above.2
  have hnot : prevp ∉ B.map Extent.addr := fun hmem => ha.upto_not_mem hu (List.mem_cons_of_mem _ hmem)
  have hsub : (A ++ B).Sublist (A ++ x :: B) := (List.sublist_cons_self x B).append_left A
  exact
    { ha with
      links := by
        rw [List.map_append, ← List.cons_append]
        exact Chain.append.2 ⟨hnext ▸ ha.links_under hu _, habove.update hnot⟩
      freep := by
        have hhome := ha.home
        rw [List.map_append, List.map_cons, ← List.cons_append] at hhome
        rw [List.map_append, ← List.cons_append]
        obtain hmem | hmem := List.mem_append.1 hhome
        · exact .inl (List.mem_append_left _ hmem)
        obtain heq | hmem := List.mem_cons.1 hmem
        · -- `freep` still names the block that is taken out
          refine .inr ⟨?_, fun b hb hbx => ha.live_not_mem hb ?_⟩
          · rw [Heap.setPtr_freep, Heap.setPtr_ptr, heq, update_of_ne hne, hnext]
            cases B with
            | nil => simp
            | cons z B => simp
          · rw [hbx, Heap.setPtr_freep, heq]
            simp
        · exact .inl (List.mem_append_right _ hmem)
      tiles := by
        have htiles := ha.tiles
        rw [List.append_assoc, List.cons_append] at htiles
        rw [List.append_assoc]
        exact Tiles.move.2 htiles
      sorted := ha.sorted.sublist hsub }

/-- `p->s.size -= nunits` -/
theorem Arena.shrink (ha : Arena base lo h (A ++ x :: B) []) {m u : Nat} (hx : h.size x.addr = m + u) (hm : 0 < m)
    (hu : 0 < u) :
    Arena base lo (h.setSize x.addr m) (A ++ ⟨x.addr, 8 * m⟩ :: B) [⟨x.addr + 8 * m, 8 * u⟩] := by
  have hlen : x.len = 8 * m + 8 * u := by
    have := ha.size x (by simp)
    omega
  have hmap : (A ++ (⟨x.addr, 8 * m⟩ : Extent) :: B).map Extent.addr = (A ++ x :: B).map Extent.addr := by simp
  have hbase : x.addr ≠ base := Nat.ne_of_gt (ha.low (by simp))
  have hlive : ∀ b ∈ h.live, b.addr ≠ x.addr := fun b hb heq => ha.live_not_mem hb (heq ▸ by simp)
  have hnodup := List.pairwise_map.1 (List.nodup_cons.1 ha.nodup).2
  obtain ⟨-, hxB, hAx⟩ := List.pairwise_append.1 hnodup
  obtain ⟨hA, hB, hAB⟩ := List.pairwise_append.1 ha.sorted
  obtain ⟨hxz, hB⟩ := List.pairwise_cons.1 hB
  exact
    { ha.toLinked.setSize hbase hlive with
      links := by rw [hmap]; exact ha.links
      freep := .inl (by rw [hmap]; exact ha.home)
      home := by rw [hmap]; exact ha.home
      tiles := by
        have htiles := ha.tiles
        rw [List.append_assoc, List.cons_append, show x = ⟨x.addr, 8 * m + 8 * u⟩ by rw [← hlen]] at htiles
        have hcut := htiles.cut_at (by omega) (by omega)
        rw [List.append_cons] at hcut
        have hmove := Tiles.move.2 hcut
        rwa [← List.append_assoc, ← List.append_cons] at hmove
      sorted := by
        refine List.pairwise_append.2 ⟨hA, List.pairwise_cons.2 ⟨fun z hz => ?_, hB⟩, fun z hz w hw => ?_⟩
        · have := hxz z hz
          simp only [Extent.stop] at this ⊢
          omega
        · obtain rfl | hw := List.mem_cons.1 hw
          · exact hAB z hz x List.mem_cons_self
          · exact hAB z hz w (List.mem_cons_of_mem _ hw)
      size := by
        intro z hz
        rw [Heap.setSize_size]
        obtain hz | hz := List.mem_append.1 hz
        · rw [update_of_ne (hAx z hz x List.mem_cons_self)]
          exact ha.size z (by simp [hz])
        · obtain rfl | hz := List.mem_cons.1 hz
          · rw [update_self]
          · rw [update_of_ne ((List.pairwise_cons.1 hxB).1 z hz).symm]
            exact ha.size z (by simp [hz]) }

theorem found_runs (ha : Arena base lo h fl []) (hprev : prevp ∈ base :: fl.map Extent.addr)
    (hfit : nunits n ≤ h.size (h.ptr prevp)) :
    Runs base (Answered base lo n h.live) (h, .fits n prevp (h.ptr prevp)) := by
  have hpos := nunits_pos n
  obtain ⟨A, B, rfl, hu⟩ := upto_of_mem hprev
  have hptr := ha.ptr_upto hu
  obtain _ | ⟨x, B⟩ := B
  · -- the static header has no room
    simp only [List.map_nil, List.headD_nil] at hptr
    rw [hptr, ha.zero] at hfit
    omega
  replace hptr : h.ptr prevp = x.addr := hptr
  rw [hptr] at hfit ⊢
  refine .move ha.safe (fun _ => by rw [exec, if_pos hfit]) ?_
  by_cases heq : h.size x.addr = nunits n
  · have hx : x = ⟨x.addr, 8 * nunits n⟩ := by rw [← heq, ← ha.size x (by simp)]
    have hl := ha.unlink hu
    rw [hx] at hl
    refine .move ha.safe (fun _ => by rw [exec, if_pos heq]) (.move ha.safe (fun _ => rfl) ?_)
    refine setFreep_runs hl (fun z hz => ha.size z ?_) hu.mem heq
    exact ((List.sublist_cons_self x B).append_left A).subset hz
  · obtain ⟨m, hm⟩ : ∃ m, h.size x.addr = m + nunits n := ⟨h.size x.addr - nunits n, by omega⟩
    have hshrink := ha.shrink hm (by omega) hpos
    have hhigh := hshrink.tiles.high ⟨x.addr + 8 * m, 8 * nunits n⟩ (by simp)
    have htop := hshrink.top
    rw [kernbase] at htop
    rw [Extent.stop_mk] at hhigh
    have hsub : word (h.size x.addr + 2 ^ 32 - nunits n) = m := by
      rw [word, hm, show m + nunits n + 2 ^ 32 - nunits n = m + 2 ^ 32 by omega, Nat.add_mod_right]
      exact Nat.mod_eq_of_lt (by omega)
    have htail : word (x.addr + 8 * (h.setSize x.addr m).size x.addr) = x.addr + 8 * m := by
      rw [Heap.setSize_size, update_self]
      exact word_of_lt (by omega)
    have hset := hshrink.setSize (c := nunits n) hshrink.held_not_mem hshrink.held_ne
    refine .move ha.safe (fun _ => by rw [exec, if_neg heq]) (.move ha.safe (fun _ => by rw [exec, hsub])
      (.move hshrink.safe (fun _ => by rw [exec, htail]) (.move hshrink.safe (fun _ => rfl) ?_)))
    exact setFreep_runs hset.toLinked hset.size hu.mem (update_self _ _ _)

/-! ## The search -/

theorem fits_runs (ha : Arena base lo h fl []) {l : List Nat} (hchain : Chain h.ptr (prevp :: l) h.freep)
    (hmem : ∀ a ∈ prevp :: l, a ∈ base :: fl.map Extent.addr) (hfreep : h.freep ∉ l)
    (hsbrk : (∀ a ∈ h.freep :: l, h.size a < nunits n) → Runs base (Answered base lo n h.live) (h, .sbrk n)) :
    Runs base (Answered base lo n h.live) (h, .fits n prevp (h.ptr prevp)) := by
  induction l generalizing prevp with
  | nil =>
    have hptr : h.ptr prevp = h.freep := hchain.1
    by_cases hfit : nunits n ≤ h.size (h.ptr prevp)
    · exact found_runs ha (hmem prevp List.mem_cons_self) hfit
    · refine .move ha.safe (fun _ => by rw [exec, if_neg hfit]) (.move ha.safe (fun _ => by rw [exec, if_pos hptr]) ?_)
      refine hsbrk fun a hal => ?_
      rw [List.mem_singleton.1 hal, ← hptr]
      exact Nat.lt_of_not_le hfit
  | cons c l ih =>
    have hptr : h.ptr prevp = c := hchain.1
    by_cases hfit : nunits n ≤ h.size (h.ptr prevp)
    · exact found_runs ha (hmem prevp List.mem_cons_self) hfit
    · rw [List.mem_cons, not_or] at hfreep
      have hne : ¬ h.ptr prevp = h.freep := fun heq => hfreep.1 (heq ▸ hptr)
      refine .move ha.safe (fun _ => by rw [exec, if_neg hfit]) (.move ha.safe (fun _ => by rw [exec, if_neg hne])
        (.move ha.safe (fun _ => rfl) ?_))
      rw [hptr] at hfit ⊢
      refine ih hchain.2 (fun a hal => hmem a (List.mem_cons_of_mem _ hal)) hfreep.2 fun hall => hsbrk fun a hal => ?_
      rw [List.mem_cons, List.mem_cons] at hal
      obtain rfl | rfl | hal := hal
      · exact hall _ List.mem_cons_self
      · exact Nat.lt_of_not_le hfit
      · exact hall a (List.mem_cons_of_mem _ hal)

theorem around_runs (ha : Arena base lo h fl [])
    (hsbrk : (∀ a ∈ base :: fl.map Extent.addr, h.size a < nunits n) →
      Runs base (Answered base lo n h.live) (h, .sbrk n)) :
    Runs base (Answered base lo n h.live) (h, .fits n h.freep (h.ptr h.freep)) := by
  obtain ⟨R, hchain, hperm⟩ := ha.ring
  have hnot : h.freep ∉ R := (List.nodup_cons.1 (hperm.nodup_iff.2 ha.nodup)).1
  exact fits_runs ha hchain (fun a hal => hperm.mem_iff.1 hal) hnot
    fun hall => hsbrk fun a hal => hall a (hperm.mem_iff.2 hal)

/-! ## `morecore` -/

theorem Arena.extend (ha : Arena base lo h fl []) {m : Nat} (hm : 0 < m) (htop : h.brk + m < kernbase) :
    Arena base lo { h with brk := h.brk + m } fl [⟨h.brk, m⟩] where
  __ := ha
  freep := .inl ha.home
  top := htop
  tiles := (ha.tiles.grow hm).perm List.perm_middle.symm

theorem sbrk_runs (ha : Arena base lo h fl []) : Runs base (Answered base lo n h.live) (h, .sbrk n) := by
  refine .next ha.safe _ (fun _ => rfl) fun ok => ?_
  split
  case isFalse => exact .here ⟨rfl, .inl rfl, fl, ha⟩
  case isTrue hok =>
    have hnu : 0 < 8 * max (nunits n) 4096 := by omega
    have hext := ha.extend hnu hok.2
    have hset := hext.setSize (c := max (nunits n) 4096) hext.held_not_mem hext.held_ne
    refine .move hext.safe (fun _ => rfl) ((free_runs hset ?_ (.morecore n)).trans ?_)
    · rw [Heap.setSize_size, update_self]
    · rintro ⟨h', pc⟩ ⟨rfl, y, -, hy, hlive, fl', harena, ⟨z, hz, hyz⟩, -⟩
      replace hlive : h'.live = h.live := hlive
      replace harena : Arena base lo h' fl' [] := harena
      have hback : Runs base (Answered base lo n h'.live) (h', .fits n h'.freep (h'.ptr h'.freep)) := by
        -- the block that has come in fits
        refine around_runs harena fun hall => absurd (hall z.addr ?_) ?_
        · exact List.mem_cons_of_mem _ (List.mem_map_of_mem hz)
        · have hsize := harena.size z hz
          simp only at hy
          omega
      rw [hlive] at hback
      exact .move (t := (h', .next n h'.freep)) harena.safe (fun _ => by rw [Caller.back, exec, if_neg harena.freep_ne])
        (.move harena.safe (fun _ => rfl) hback)

theorem first_runs (ha : Arena base lo h fl []) : Runs base (Answered base lo n h.live) (h, .first n h.freep) :=
  .move ha.safe (fun _ => rfl) (around_runs ha fun _ => sbrk_runs ha)

theorem Arena.initial (hpos : 0 < base) (hbelow : base + 8 ≤ lo) (htop : lo < kernbase) (hbrk : h.brk = lo)
    (hlive : h.live = []) (hfreep : h.freep = base) (hptr : h.ptr base = base) (hsize : h.size base = 0) :
    Arena base lo h [] [] where
  pos := hpos
  below := hbelow
  top := hbrk ▸ htop
  links := ⟨hptr, trivial⟩
  freep := .inl (by rw [hfreep]; exact List.mem_cons_self)
  zero := hsize
  header b hb := by
    rw [hlive] at hb
    cases hb
  tiles := by
    rw [hlive, hbrk]
    exact Tiles.empty
  sorted := .nil
  home := by
    rw [hfreep]
    exact List.mem_cons_self
  size x hx := by cases hx

theorem malloc_runs (hs : Sound base lo h) : Runs base (Answered base lo n h.live) (h, .enter n) := by
  cases hs with
  | used fl ha => exact .move ha.safe (fun _ => by rw [exec, if_neg ha.freep_ne]) (first_runs ha)
  | unused hpos hbelow htop hfreep hbrk hlive =>
    have hsafe := Heap.safe_of_live_nil hlive
    let h₁ : Heap := { h.setPtr base base with freep := base }
    have hinit : Arena base lo (h₁.setSize base 0) [] [] :=
      .initial hpos hbelow htop hbrk hlive rfl (update_self _ _ _) (update_self _ _ _)
    exact .move (t := (h, .initPtr n)) hsafe (fun _ => by rw [exec, if_pos hfreep])
      (.move (t := (h₁, .initSize n)) (Heap.safe_of_live_nil hlive) (fun _ => rfl)
        (.move (t := (h₁.setSize base 0, .first n base)) (Heap.safe_of_live_nil hlive) (fun _ => rfl)
          (first_runs hinit)))

end Xv6.Umalloc
