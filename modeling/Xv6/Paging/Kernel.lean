import Xv6.Paging.Map

/-!
# The kernel part

What `setupkvm` builds: every address space has the same entries from `KERNBASE` on.
-/

namespace Xv6.Paging

open Xv6.Code Xv6.Count Ownership

structure Row where
  virt : Nat
  phys : Nat
  count : Nat
  perm : Word

def Row.kmap (r : Row) : Kmap := ⟨r.virt * 4096, r.phys * 4096, (r.phys + r.count) * 4096 % 2 ^ 32, r.perm⟩

def Row.entry (r : Row) (v : Nat) : Option Word :=
  if r.virt ≤ v ∧ v < r.virt + r.count then some (Paging.entry (r.phys + (v - r.virt)) r.perm) else none

def rows (l : Link) : List Row :=
  [⟨0x80000, 0, 0x100, pteW⟩, ⟨0x80100, 0x100, l.data - 0x100, 0⟩, ⟨0x80000 + l.data, l.data, 0xE000 - l.data, pteW⟩,
    ⟨0xFE000, 0xFE000, 0x2000, pteW⟩]

def kernelEntry (l : Link) (v : Nat) : Option Word := (rows l).findSome? fun r => r.entry v

theorem kernelEntry_eq_none {l : Link} {q : Nat} :
    kernelEntry l q = none ↔ ¬(0x80000 ≤ q ∧ q < 0x8E000 ∨ 0xFE000 ≤ q ∧ q < 0x100000) := by
  obtain ⟨hlo, hhi, -⟩ := link_data l
  rw [kernelEntry, List.findSome?_eq_none_iff]
  simp only [rows, List.forall_mem_cons, Row.entry, ite_eq_right_iff, reduceCtorEq, imp_false, List.not_mem_nil,
    IsEmpty.forall_iff, implies_true, and_true]
  omega

theorem kernelEntry_user {l : Link} {q : Nat} (hq : q < 2 ^ 19) : kernelEntry l q = none :=
  kernelEntry_eq_none.mpr (by omega)

theorem kmap_eq (l : Link) : kmap l = (rows l).map Row.kmap := by
  obtain ⟨hlo, hhi, -⟩ := link_data l
  have htext : (0x100 + (l.data - 0x100)) * 4096 % 2 ^ 32 = l.data * 4096 := by omega
  have hdata : (l.data + (0xE000 - l.data)) * 4096 % 2 ^ 32 = 0xE000000 := by
    rw [Nat.add_sub_cancel' (Nat.le_of_lt hhi)]
    decide
  have hvirt : 0x80000000 + l.data * 4096 = (0x80000 + l.data) * 4096 := (Nat.add_mul 0x80000 l.data 4096).symm
  simp only [kmap, rows, List.map_cons, List.map_nil, Row.kmap, htext, hdata, kernbase, pgsize, hvirt]
  rfl

def InOrder (lo : Nat) : List Row → Prop
  | [] => True
  | r :: rs => lo ≤ r.virt ∧ 0 < r.count ∧ r.virt + r.count ≤ 2 ^ 20 ∧ r.phys + r.count ≤ 2 ^ 20 ∧
    InOrder (r.virt + r.count) rs

theorem rows_inOrder (l : Link) : InOrder (2 ^ 19) (rows l) := by
  obtain ⟨hlo, hhi, -⟩ := link_data l
  simp only [rows, InOrder, and_true]
  omega

theorem rows_kernel (l : Link) : ∀ r ∈ rows l, ∀ q, r.virt ≤ q → q < r.virt + r.count → (slot q).1 ∈ kernelTables := by
  obtain ⟨hlo, hhi, -⟩ := link_data l
  intro r hr q hq hqr
  rw [mem_kernelTables]
  simp only [rows, List.mem_cons, List.not_mem_nil, or_false] at hr
  rcases hr with rfl | rfl | rfl | rfl <;> dsimp only [slot] at hq hqr ⊢ <;> omega

variable {l : Link} {m t : Mem} {pgdir d x : Page}

theorem card_kernelTables : kernelTables.card = 64 := by decide +kernel

theorem count_tables (h : ∀ i ∉ kernelTables, m.table d i = none) :
    count (m.table d) Option.isSome + (kernelTables.filter fun i => m.table d i = none).card = 64 := by
  have hsome : (Finset.univ.filter fun i => (m.table d i).isSome = true) =
      kernelTables.filter fun i => ¬m.table d i = none := by
    ext i
    simp only [Finset.mem_filter, Finset.mem_univ, true_and, Option.isSome_iff_ne_none]
    exact ⟨fun hi => ⟨by_contra fun hk => hi (h i hk), hi⟩, And.right⟩
  rw [count, hsome, Nat.add_comm, Finset.card_filter_add_card_filter_not, card_kernelTables]

theorem Row.size (r : Row) (hcount : 0 < r.count) (hlt : r.count < 2 ^ 20) (hphys : r.phys + r.count ≤ 2 ^ 20) :
    (r.kmap.physEnd + (2 ^ 32 - r.kmap.physStart)) % 2 ^ 32 = (r.count - 1 + 1) * 4096 := by
  simp only [Row.kmap]
  omega

theorem mapKernel_ends {rs : List Row} {lo : Nat} (h : Space l m pgdir) (hlo : 0 < lo) (hrs : InOrder lo rs)
    (hkernel : ∀ r ∈ rs, ∀ q, r.virt ≤ q → q < r.virt + r.count → (slot q).1 ∈ kernelTables)
    (hnone : ∀ q, lo ≤ q → q < 2 ^ 20 → m.maps pgdir (slot q) = none) :
    Ends Never (mapKernel pgdir (rs.map Row.kmap)) (fun b t => Laid l pgdir m t ∧ match b with
      | true => ∀ q < 2 ^ 20, t.maps pgdir (slot q) = (rs.findSome? fun r => r.entry q).or (m.maps pgdir (slot q))
      | false => t.freelist = [] ∧ ∃ i ∈ kernelTables, t.table pgdir i = none) m := by
  induction rs generalizing m lo with
  | nil => exact ends_pure ⟨.refl h, fun _ _ => rfl⟩
  | cons r rs ih =>
    obtain ⟨hvirt, hcount, hend, hphys, hrest⟩ := hrs
    rw [List.map_cons, mapKernel, r.size hcount (by omega) hphys]
    have haligned : mappages pgdir r.kmap.virt ((r.count - 1 + 1) * 4096) r.kmap.physStart r.kmap.perm =
        mapLoop pgdir r.perm ((r.virt + (r.count - 1)) * 4096) turns (r.virt * 4096) (r.phys * 4096) :=
      mappages_aligned r.virt (r.count - 1) r.phys (by omega)
    rw [haligned]
    refine Ends.bind (mapLoop_kernel h (by omega) (by omega) (by rw [turns_eq]; omega)
      (fun q hq hqk => hkernel r List.mem_cons_self q hq (by omega)) fun q hq hqk => hnone q (by omega) (by omega))
      fun b t ht => ?_
    obtain ⟨hlaid, hrow⟩ := ht
    cases b with
    | false => exact ends_pure ⟨hlaid, hrow⟩
    | true =>
      refine (ih hlaid.space (by omega) hrest (fun r hr => hkernel r (List.mem_cons_of_mem _ hr))
        fun q hq hq20 => ?_).mono
        fun b u hu => ⟨hlaid.trans hu.1, ?_⟩
      · rw [hrow q hq20, if_neg (by omega)]
        exact hnone q (by omega) hq20
      · cases b with
        | false => exact hu.2
        | true =>
          intro q hq
          rw [hu.2 q hq, hrow q hq, List.findSome?_cons, Row.entry]
          by_cases hin : r.virt ≤ q ∧ q < r.virt + r.count
          · -- the rows after this one are above it
            have hin' : r.virt ≤ q ∧ q ≤ r.virt + (r.count - 1) := by omega
            rw [if_pos hin, if_pos hin']
            have habove : ∀ {rs : List Row} {lo : Nat}, InOrder lo rs → q < lo →
                (rs.findSome? fun r => r.entry q) = none := by
              intro rs
              induction rs with
              | nil => exact fun _ _ => rfl
              | cons r rs ih =>
                intro lo hrs hq
                obtain ⟨hvirt, hcount, -, -, hrest⟩ := hrs
                rw [List.findSome?_cons, Row.entry, if_neg (by omega)]
                exact ih hrest (by omega)
            rw [habove hrest hin.2]
            rfl
          · rw [if_neg hin, if_neg (by omega)]

/-- The pages of the address space were free, and no other page has been taken or has changed. -/
abbrev Fresh (l : Link) (m : Mem) (d : Page) (t : Mem) : Prop := Within l m none t (some (.space d))

theorem Fresh.held {p : Part} (h : Fresh l m d t) (hp : t.holds d p = some x) : x ∈ m.freelist :=
  by_contra fun hn => ((h.apart x).mpr ⟨hn, nofun⟩).not_held p hp

theorem Fresh.frame (h : Fresh l m d t) (hx : x ∉ m.freelist) : t.frame x = m.frame x := h.frames x ⟨hx, nofun⟩

theorem setupkvm_ends (h : FreeList l m) :
    Ends Never (setupkvm l) (fun o t => match o with
      | none => m.freelist.length < 65 ∧ (m.freelist = [] → t = m)
      | some d => Fresh l m d t ∧ t.freelist.length + 65 = m.freelist.length ∧
        (∀ i : Fin 1024, i.val < 512 → t.table d i = none) ∧ ∀ q < 2 ^ 20, t.maps d (slot q) = kernelEntry l q) m := by
  unfold setupkvm
  refine Ends.bind kalloc_ends fun o t ht => ?_
  cases o with
  | none =>
    refine ends_pure ⟨?_, fun _ => ht.1⟩
    rw [ht.2]
    decide
  | some d =>
    obtain ⟨next, hfree, rfl⟩ := ht
    have hmem : d ∈ m.freelist := by
      rw [hfree]
      exact List.mem_cons_self
    have hnodup := h.nodup
    rw [hfree, List.nodup_cons] at hnodup
    apply ends_modify_bind
    refine ends_ite nofun fun _ => ?_
    -- the page directory is empty
    have hzero : ∀ i, (Mem.memset { m with freelist := next } d 0).word d i = 0 := by
      intro i
      rw [Mem.word, Mem.memset, setFrame_self, Frame.word_zero]
    have htable := empty_table hzero
    have hmaps : ∀ s, (Mem.memset { m with freelist := next } d 0).maps d s = none :=
      fun s => maps_eq_none_of_table (htable s.1)
    have hspace : Space l (Mem.memset { m with freelist := next } d 0) d :=
      Space.empty ⟨hnodup.2, fun x hx => h.inRange x (by rw [hfree]; exact List.mem_cons_of_mem d hx)⟩ hzero
        (h.inRange d hmem) hnodup.1
    have hfresh : Fresh l m d (Mem.memset { m with freelist := next } d 0) := by
      refine ⟨hspace, fun x => ?_, fun x hx => setFrame_ne _ _ ?_⟩
      · change Outside next (Mem.holds _ d) x ↔ _
        rw [empty_holds hzero, region_page, outside_add (l := Part.dir) rfl, hfree, outside_cons]
        rfl
      · rintro rfl
        exact hx.not_free hmem
    rw [kmap_eq]
    refine Ends.bind (mapKernel_ends hspace (by decide) (rows_inOrder l) (rows_kernel l) fun q _ _ => hmaps _)
      fun b t ht => ?_
    obtain ⟨hlaid, hpost⟩ := ht
    have hroom : t.freelist.length + count (t.table d) Option.isSome + 1 = m.freelist.length := by
      have hempty : count ((Mem.memset { m with freelist := next } d 0).table d) Option.isSome = 0 :=
        count_eq_zero.mpr fun i => by rw [htable]; rfl
      have hroom := hlaid.room
      rw [Mem.room, Mem.room, hempty] at hroom
      rw [hroom, hfree]
      rfl
    have hcount := count_tables (m := t) (d := d) fun i hi => (hlaid.table i hi).trans (htable i)
    cases b with
    | false =>
      obtain ⟨hempty, i, hi, hnone⟩ := hpost
      have hpos : 0 < (kernelTables.filter fun i => t.table d i = none).card :=
        Finset.card_pos.mpr ⟨i, Finset.mem_filter.mpr ⟨hi, hnone⟩⟩
      rw [hempty, List.length_nil] at hroom
      refine ends_pure ⟨by omega, fun hnil => ?_⟩
      rw [hnil] at hfree
      cases hfree
    | true =>
      have hall : (kernelTables.filter fun i => t.table d i = none) = ∅ := by
        refine Finset.filter_eq_empty_iff.mpr fun i hi hnone => ?_
        rw [mem_kernelTables] at hi
        have hslot : (slot (i.val * 1024)).1 = i := by
          ext
          dsimp only [slot]
          omega
        have hentry := hpost (i.val * 1024) (by omega)
        rw [maps_eq_none_of_table (by rw [hslot]; exact hnone), hmaps, Option.or_none] at hentry
        exact kernelEntry_eq_none.mp hentry.symm (by omega)
      rw [hall, Finset.card_empty] at hcount
      refine ends_pure ⟨hfresh.trans hlaid.toWithin, by omega, fun i hi => ?_, fun q hq => ?_⟩
      · rw [hlaid.table i (by rw [mem_kernelTables]; omega), htable]
      · rw [hpost q hq, hmaps, Option.or_none, kernelEntry]

theorem setupkvm_clearMem : ∃ d t, setupkvm smallLink clearMem = .ok (some d, t) := by
  obtain ⟨o, t, ht, hpost⟩ := (setupkvm_ends clearMem_free).exists_ok fun _ => id
  have hlength : clearMem.freelist.length = 0x1000 := List.length_range'
  cases o with
  | none =>
    have hshort : clearMem.freelist.length < 65 := hpost.1
    omega
  | some d => exact ⟨d, t, ht⟩

end Xv6.Paging
