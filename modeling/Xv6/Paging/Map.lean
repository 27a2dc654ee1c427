import Xv6.Lib.Count
import Xv6.Paging.Space

/-!
# Mapping pages

What `walkpgdir` and `mappages` do to an address space.
-/

open Function

namespace Xv6.Paging

open Xv6.Code Xv6.Count Ownership

abbrev Never : Stop → Prop := fun _ => False

structure Grown (pgdir : Page) (m t : Mem) : Prop where
  free : ∀ x ∈ t.freelist, x ∈ m.freelist
  tables : ∀ i x, m.table pgdir i = some x → t.table pgdir i = some x
  fresh : ∀ i x, t.table pgdir i = some x → m.table pgdir i = some x ∨ x ∈ m.freelist
  frames : ∀ x, x ∉ m.freelist → x ≠ pgdir → (∀ i, m.table pgdir i ≠ some x) → t.frame x = m.frame x

def Mem.room (m : Mem) (pgdir : Page) : Nat := m.freelist.length + count (m.table pgdir) Option.isSome

variable {l : Link} {m t u : Mem} {pgdir x : Page} {i j : Fin 1024} {s : Slot} {w : Word}

theorem room_le (m : Mem) (pgdir : Page) : m.room pgdir ≤ m.freelist.length + 1024 := by
  have hcount := count_le_card (m.table pgdir) Option.isSome
  rw [Fintype.card_fin] at hcount
  exact Nat.add_le_add_left hcount _

theorem room_congr (hfree : t.freelist.length = m.freelist.length) (htable : ∀ i, t.table pgdir i = m.table pgdir i) :
    t.room pgdir = m.room pgdir := by
  rw [Mem.room, Mem.room, hfree, funext htable]

theorem SameTables.room (h : SameTables pgdir m t) (hfree : t.freelist = m.freelist) : t.room pgdir = m.room pgdir :=
  room_congr (congrArg List.length hfree) h.table

theorem room_take {next : List Page} (hfree : m.freelist = x :: next) :
    Mem.room { m with freelist := next } pgdir + 1 = m.room pgdir := by
  simp only [Mem.room, hfree, List.length_cons]
  exact Nat.add_right_comm _ _ _

namespace Grown

theorem refl : Grown pgdir m m := ⟨fun _ => id, fun _ _ => id, fun _ _ => .inl, fun _ _ _ _ => rfl⟩

theorem trans (h : Grown pgdir m t) (h' : Grown pgdir t u) : Grown pgdir m u := by
  refine ⟨fun x hx => h.free x (h'.free x hx), fun i x hx => h'.tables i x (h.tables i x hx), fun i x hx => ?_,
    fun x hfree hdir htable => ?_⟩
  · rcases h'.fresh i x hx with hx | hx
    · exact h.fresh i x hx
    · exact .inr (h.free x hx)
  · rw [h'.frames x (fun hx => hfree (h.free x hx)) hdir fun i hi => ?_, h.frames x hfree hdir htable]
    rcases h.fresh i x hi with hi | hx
    · exact htable i hi
    · exact hfree hx

theorem take {next : List Page} (hfree : m.freelist = x :: next) : Grown pgdir m { m with freelist := next } :=
  ⟨fun y hy => by rw [hfree]; exact List.mem_cons_of_mem x hy, fun _ _ => id, fun _ _ => .inl, fun _ _ _ _ => rfl⟩

theorem setFrame {f : Frame} (h : Grown pgdir m t) (hx : x ∈ m.freelist) (hapart : Apart t pgdir x) :
    Grown pgdir m (t.setFrame x f) := by
  have hsame := hapart.sameTables f
  refine ⟨h.free, fun i y hy => by rw [hsame.table]; exact h.tables i y hy,
    fun i y hy => h.fresh i y (by rwa [hsame.table] at hy), fun y hy hdir htable => ?_⟩
  rw [setFrame_ne, h.frames y hy hdir htable]
  rintro rfl
  exact hy hx

theorem frame_apart (h : Grown pgdir m t) (hx : Apart m pgdir x) : t.frame x = m.frame x := by
  refine h.frames x hx.not_free ?_ fun i => hx.not_held (.table i)
  rintro rfl
  exact hx.not_held .dir rfl

theorem frame_user (h : Grown pgdir m t) (hm : Space l m pgdir) (hs : s.User) (hw : m.maps pgdir s = some w) :
    t.frame (pteAddr w) = m.frame (pteAddr w) := by
  have hheld := holds_of_maps hs hw
  refine h.frames _ (hm.owned _ _ hheld).2 ?_ fun i hi => ?_
  · intro heq
    cases hm.once (.user s) .dir (pteAddr w) hheld (by rw [heq]; rfl)
  · cases hm.once (.user s) (.table i) (pteAddr w) hheld hi

end Grown

theorem ends_onMem {s : Sys} {α : Type} {E : Stop → Prop} {c : Code Mem Stop α} {Q : α → Mem → Prop}
    (h : Ends E c Q s.mem) : Ends E (onMem c) (fun a t => ∃ m, t = { s with mem := m } ∧ Q a m) s := by
  rw [ends_iff] at h ⊢
  refine ⟨fun a t ht => ?_, fun e he => ?_⟩
  · unfold onMem at ht
    split at ht
    · rename_i m hm
      cases ht
      exact ⟨m, rfl, h.1 _ _ hm⟩
    · cases ht
  · unfold onMem at he
    split at he
    · cases he
    · rename_i hm
      cases he
      exact h.2 _ hm

/-! ## `kalloc` and `kfree` -/

theorem kalloc_ends : Ends Never kalloc (fun o t => match o with
    | none => t = m ∧ m.freelist = []
    | some x => ∃ next, m.freelist = x :: next ∧ t = { m with freelist := next }) m := by
  unfold kalloc
  apply ends_get_bind
  split
  case h_1 hfree => exact ends_pure ⟨rfl, hfree⟩
  case h_2 x next hfree => exact ends_modify_bind (ends_pure ⟨next, hfree, rfl⟩)

structure Taken (l : Link) (pgdir x : Page) (f : Frame) (m t : Mem) : Prop where
  space : Space l t pgdir
  own : Apart t pgdir x
  inRange : InRange l x
  free : x ∈ m.freelist
  same : SameTables pgdir m t
  grown : Grown pgdir m t
  room : t.room pgdir + 1 = m.room pgdir
  filled : t.frame x = f
  frames : ∀ y, y ≠ x → t.frame y = m.frame y
  apart : ∀ y, Apart m pgdir y ↔ Apart t pgdir y ∧ y ≠ x

theorem Space.taken {next : List Page} (h : Space l m pgdir) (hfree : m.freelist = x :: next) (f : Frame) :
    Taken l pgdir x f m (Mem.setFrame { m with freelist := next } x f) := by
  obtain ⟨hspace, hapart, hin⟩ := h.take hfree
  have hmem : x ∈ m.freelist := by
    rw [hfree]
    exact List.mem_cons_self
  have hsame := hapart.sameTables f
  refine ⟨hspace.setFrame hapart f, hapart.setFrame f, hin, hmem, ⟨hsame.dir, hsame.tables⟩,
    (Grown.take hfree).setFrame hmem hapart, ?_, setFrame_self _ x f, fun y hy => setFrame_ne _ f hy, fun y => ?_⟩
  · rw [hsame.room rfl]
    exact room_take hfree
  · rw [Apart, Apart, hsame.holds, hfree]
    exact outside_cons

def Mem.freed (m : Mem) (x : Page) : Mem := { m.memset x 1 with freelist := x :: m.freelist }

theorem kfree_ends (hx : InRange l x) : Ends Never (kfree l x) (fun _ t => t = m.freed x) m := by
  unfold kfree
  refine ends_ite (fun hbad => ?_) fun _ => ends_modify_bind (ends_modify rfl)
  exact absurd hbad (not_or.mpr ⟨Nat.not_lt.mpr hx.1, Nat.not_le.mpr hx.2⟩)

/-! ## `walkpgdir` -/

theorem walkpgdir_reads (va : Nat) :
    Ends Never (walkpgdir pgdir va false) (fun o t => t = m ∧ o = m.table pgdir (pdx va)) m := by
  unfold walkpgdir
  apply ends_get_bind
  refine ends_ite (fun hp => ends_pure ⟨rfl, ?_⟩) fun hp => ends_pure ⟨rfl, ?_⟩
  · exact (if_pos hp).symm
  · exact (if_neg hp).symm

theorem pde_eq (y : Nat) :
    BitVec.ofNat 32 (y * pgsize) ||| pteP ||| pteW ||| pteU = BitVec.ofNat 32 (y * 4096) ||| 7 := by
  rw [BitVec.or_assoc, BitVec.or_assoc]
  rfl

theorem present_pde (y : Nat) : Present (BitVec.ofNat 32 (y * 4096) ||| 7) := by
  rw [show (7 : Word) = 6 ||| pteP from rfl, ← BitVec.or_assoc]
  exact present_or _

/-- There is a page table, and all else is as it was. -/
structure Walked (l : Link) (pgdir : Page) (i : Fin 1024) (x : Page) (m t : Mem) : Prop where
  space : Space l t pgdir
  grown : Grown pgdir m t
  table : t.table pgdir = update (m.table pgdir) i (some x)
  free : t.freelist.length + (if m.table pgdir i = none then 1 else 0) = m.freelist.length
  maps : t.maps pgdir = m.maps pgdir
  apart : ∀ y, Apart t pgdir y ↔ Apart m pgdir y

theorem walkpgdir_allocs (h : Space l m pgdir) (va : Nat) :
    Ends Never (walkpgdir pgdir va true) (fun o t => match o with
      | none => t = m ∧ m.freelist = [] ∧ m.table pgdir (pdx va) = none
      | some x => Walked l pgdir (pdx va) x m t) m := by
  unfold walkpgdir
  apply ends_get_bind
  refine ends_ite (fun hp => ends_pure ?_) fun hp => ?_
  · have hsome : m.table pgdir (pdx va) = some _ := if_pos hp
    refine ⟨h, .refl, ?_, by rw [hsome, if_neg nofun, Nat.add_zero], rfl, fun _ => Iff.rfl⟩
    rw [← hsome, update_eq_self]
  have hnone : m.table pgdir (pdx va) = none := if_neg hp
  refine Ends.bind kalloc_ends fun o t ht => ?_
  cases o with
  | none => exact ends_pure ⟨ht.1, ht.2, hnone⟩
  | some x =>
    obtain ⟨next, hfree, rfl⟩ := ht
    have htaken := h.taken hfree fun _ => 0
    apply ends_modify_bind
    apply ends_modify_bind
    apply ends_pure
    have haddr : pteAddr (BitVec.ofNat 32 (x * 4096) ||| 7) = x := pteAddr_entry htaken.inRange.lt (by decide)
    have hpresent : Present (BitVec.ofNat 32 (x * 4096) ||| 7) := present_pde x
    have hlength : (Mem.memset { m with freelist := next } x 0).freelist.length + 1 = m.freelist.length := by
      rw [hfree]
      rfl
    rw [pde_eq x]
    change Taken l pgdir x _ m (Mem.memset { m with freelist := next } x 0) at htaken
    generalize Mem.memset { m with freelist := next } x 0 = t at *
    -- the page directory gets the entry when the page table is clear
    have hnone' : t.table pgdir (pdx va) = none := (htaken.same.table _).trans hnone
    obtain ⟨hspace, hmaps, hholds⟩ := htaken.space.addTable htaken.own htaken.inRange hnone'
      (fun k => by rw [Mem.word, htaken.filled, Frame.word_zero]) hpresent haddr
    have htable : (t.setWord pgdir (pdx va) (BitVec.ofNat 32 (x * 4096) ||| 7)).table pgdir =
        update (m.table pgdir) (pdx va) (some x) := by
      funext k
      rw [table_setDir hpresent, haddr, htaken.same.table, update_apply]
    refine ⟨hspace, ⟨htaken.grown.free, fun k y hy => ?_, fun k y hy => ?_, fun y hy hydir _ => ?_⟩, htable,
      by rw [if_pos hnone]; exact hlength, hmaps.trans (funext htaken.same.maps), fun y => ?_⟩
    · rw [htable, update_of_ne, hy]
      rintro rfl
      rw [hnone] at hy
      cases hy
    · rw [htable, update_apply] at hy
      split at hy
      · exact .inr (Option.some.inj hy ▸ htaken.free)
      · exact .inl hy
    · rw [Mem.setWord, setFrame_ne _ _ hydir, htaken.frames]
      rintro rfl
      exact hy htaken.free
    · rw [Apart, hholds, htaken.apart]
      exact outside_add (l := Part.table (pdx va)) hnone'

namespace Walked

variable (h : Walked l pgdir i x m t)
include h

theorem table_self : t.table pgdir i = some x := by rw [h.table, update_self]

theorem table_ne {k : Fin 1024} (hk : k ≠ i) : t.table pgdir k = m.table pgdir k := by rw [h.table, update_of_ne hk]

theorem room : t.room pgdir = m.room pgdir := by
  have hcount := count_update (m.table pgdir) Option.isSome i (some x)
  have hfree := h.free
  rw [Mem.room, Mem.room, h.table]
  cases hi : m.table pgdir i with
  | none =>
    simp only [hi, Option.isSome_none, Bool.toNat_false, Option.isSome_some, Bool.toNat_true, if_true] at hcount hfree
    omega
  | some y =>
    simp only [hi, Option.isSome_some, Bool.toNat_true, reduceCtorEq, if_false] at hcount hfree
    omega

theorem setWord_table : (t.setWord x j w).table pgdir = t.table pgdir :=
  funext (Paging.table_setWord (h.space.dir_ne_table h.table_self))

theorem setWord_room : (t.setWord x j w).room pgdir = m.room pgdir := by
  rw [← h.room, Mem.room, h.setWord_table]
  rfl

end Walked

/-! ## `mappages` -/

variable {perm : Word} {v p n last : Nat}

theorem mapLoop_turn {E : Stop → Prop} {Q : Bool → Mem → Prop} (h : Space l m pgdir)
    (hv : m.maps pgdir (slot v) = none ∨ E .remap)
    (hfail : m.freelist = [] → m.table pgdir (slot v).1 = none → Q false m)
    (hnext : ∀ t x, Walked l pgdir (slot v).1 x m t → m.maps pgdir (slot v) = none →
      Ends E (if v * 4096 = last then pure true
        else mapLoop pgdir perm last n ((v * 4096 + 4096) % 2 ^ 32) ((p * 4096 + 4096) % 2 ^ 32)) Q
        (t.setWord x (slot v).2 (entry p perm))) :
    Ends E (mapLoop pgdir perm last (n + 1) (v * 4096) (p * 4096)) Q m := by
  have hdiv : v * 4096 / 4096 = v := Nat.mul_div_cancel v (by decide)
  unfold mapLoop
  refine Ends.bind ((walkpgdir_allocs h _).allow nofun) fun o t ht => ?_
  rw [pdx_eq, hdiv] at ht
  cases o with
  | none => exact ends_pure (ht.1 ▸ hfail ht.2.1 ht.2.2)
  | some x =>
    dsimp only
    rw [ptx_eq, hdiv]
    apply ends_get_bind
    refine ends_ite (fun hp => ends_stop (hv.resolve_left fun hv => ?_)) fun hp => ends_modify_bind (hnext t x ht ?_)
    · rw [← ht.maps] at hv
      cases hv.symm.trans ((maps_eq_some_of_table ht.table_self).mpr ⟨rfl, hp⟩)
    · rw [← ht.maps]
      exact maps_eq_none_of_absent ht.table_self hp

theorem Grown.setWord (h : Grown pgdir m t) (hspace : Space l t pgdir) (hi : t.table pgdir i = some x) :
    Grown pgdir m (t.setWord x j w) := by
  have htable := table_setWord (m := t) (j := j) (w := w) (hspace.dir_ne_table hi)
  refine ⟨h.free, fun k y hy => by rw [htable]; exact h.tables k y hy, fun k y hy => h.fresh k y (htable k ▸ hy),
    fun y hy hdir hall => ?_⟩
  rw [Mem.setWord, setFrame_ne, h.frames y hy hdir hall]
  rintro rfl
  rcases h.fresh i y hi with hi | hmem
  · exact hall i hi
  · exact hy hmem

theorem turns_eq : turns = 2 ^ 20 + 1 := by
  unfold turns
  rfl

theorem next_page (h : v + 1 < 2 ^ 20) : (v * 4096 + 4096) % 2 ^ 32 = (v + 1) * 4096 := by omega

theorem mappages_aligned (v k p : Nat) (hvk : v + k < 2 ^ 20) :
    mappages pgdir (v * 4096) ((k + 1) * 4096) (p * 4096) perm =
      mapLoop pgdir perm ((v + k) * 4096) turns (v * 4096) (p * 4096) := by
  have hlast : (v * 4096 + (k + 1) * 4096 + (2 ^ 32 - 1)) % 2 ^ 32 = (v + k) * 4096 + 4095 := by omega
  have hround : ((v + k) * 4096 + 4095) / 4096 * 4096 = (v + k) * 4096 := by omega
  have hdown : v * 4096 / 4096 * 4096 = v * 4096 := by rw [Nat.mul_div_cancel v (by decide)]
  change mapLoop pgdir perm ((v * 4096 + (k + 1) * 4096 + (2 ^ 32 - 1)) % 2 ^ 32 / 4096 * 4096) turns
    (v * 4096 / 4096 * 4096) (p * 4096) = _
  rw [hlast, hround, hdown]

/-- The page `y` has been mapped at `v`, where none was. -/
structure Mapped (l : Link) (pgdir : Page) (v : Nat) (y : Page) (perm : Word) (m t : Mem) : Prop where
  space : Space l t pgdir
  grown : Grown pgdir m t
  table : ∀ i, t.table pgdir i = none ↔ m.table pgdir i = none ∧ i ≠ (slot v).1
  free : t.freelist.length + (if m.table pgdir (slot v).1 = none then 1 else 0) = m.freelist.length
  room : t.room pgdir = m.room pgdir
  maps : ∀ s, t.maps pgdir s = if s = slot v then some (entry y perm) else m.maps pgdir s
  apart : ∀ x, Apart t pgdir x ↔ Apart m pgdir x ∧ x ≠ y

theorem mappages_user {E : Stop → Prop} {y : Nat} (h : Space l m pgdir) (hv : v < 2 ^ 19)
    (hnone : m.maps pgdir (slot v) = none ∨ E .remap)
    (hy : Apart m pgdir y) (hin : InRange l y) (hperm : perm.toNat < 4096) :
    Ends E (mappages pgdir (v * 4096) pgsize (y * pgsize) perm) (fun b t =>
      if b then Mapped l pgdir v y perm m t else t = m ∧ m.freelist = [] ∧ m.table pgdir (slot v).1 = none) m := by
  have hone : mappages pgdir (v * 4096) pgsize (y * pgsize) perm =
      mapLoop pgdir perm (v * 4096) turns (v * 4096) (y * 4096) :=
    mappages_aligned v 0 y (by omega)
  rw [hone, turns_eq]
  refine mapLoop_turn h hnone (fun hempty htable => ⟨rfl, hempty, htable⟩) fun t x ht hfree => ?_
  have hw := present_entry y perm
  have haddr := pteAddr_mapped hin.lt hperm
  have huser : (slot v).User := (slot_user (by omega)).mpr hv
  have htable := ht.table_self
  rw [if_pos rfl]
  refine ends_pure ?_
  simp only [if_true]
  refine ⟨ht.space.addPage ((ht.apart y).mpr hy) hin htable huser hw haddr, ht.grown.setWord ht.space htable,
    fun i => ?_,
    ht.free, ht.setWord_room, fun s => ?_, fun z => ?_⟩
  · rw [ht.setWord_table, ht.table, update_apply]
    by_cases hi : i = (slot v).1
    · simp [hi]
    · simp [hi]
  · rw [maps_setWord ht.space htable, if_pos hw, ht.maps]
  · have hholds := holds_setWord (j := (slot v).2) (w := entry y perm) ht.space htable huser
    rw [if_pos hw, haddr] at hholds
    rw [Apart, hholds, ← ht.apart]
    refine outside_add (l := Part.user (slot v)) ?_
    rw [holds_user huser, ht.maps, hfree, Option.map_none]

/-! ## The kernel part -/

/-- The entries of a page directory for `KERNBASE` to `KERNBASE+PHYSTOP`, and for the devices. -/
def kernelTables : Finset (Fin 1024) := Finset.univ.filter fun i => 512 ≤ i.val ∧ i.val < 568 ∨ 1016 ≤ i.val

theorem mem_kernelTables {i : Fin 1024} : i ∈ kernelTables ↔ 512 ≤ i.val ∧ i.val < 568 ∨ 1016 ≤ i.val := by
  simp [kernelTables]

structure Laid (l : Link) (pgdir : Page) (m t : Mem) : Prop extends
    Within l m (some (.space pgdir)) t (some (.space pgdir)) where
  room : t.room pgdir = m.room pgdir
  table : ∀ i ∉ kernelTables, t.table pgdir i = m.table pgdir i
  user : ∀ s, s.User → t.maps pgdir s = m.maps pgdir s

theorem Laid.refl (h : Space l m pgdir) : Laid l pgdir m m :=
  ⟨.refl h, rfl, fun _ _ => rfl, fun _ _ => rfl⟩

theorem Laid.trans (h : Laid l pgdir m t) (h' : Laid l pgdir t u) : Laid l pgdir m u :=
  ⟨h.toWithin.trans h'.toWithin, h'.room.trans h.room, fun i hi => (h'.table i hi).trans (h.table i hi),
    fun s hs => (h'.user s hs).trans (h.user s hs)⟩

theorem Walked.laid (h : Walked l pgdir s.1 x m t) (hs : s.1 ∈ kernelTables) (w : Word) :
    Laid l pgdir m (t.setWord x s.2 w) := by
  have hkernel : ¬ s.User := by
    rw [mem_kernelTables] at hs
    change ¬ s.1.val < 512
    omega
  have hholds : (t.setWord x s.2 w).holds pgdir = t.holds pgdir := h.space.setKernel h.table_self hkernel
  refine ⟨⟨h.space.congr rfl hholds, fun y => ?_, fun y hy => ?_⟩, h.setWord_room, fun i hi => ?_, fun s' hs' => ?_⟩
  · change Outside t.freelist ((t.setWord x s.2 w).holds pgdir) y ↔ _
    rw [hholds]
    exact h.apart y
  · refine (setFrame_ne _ _ ?_).trans (h.grown.frame_apart hy)
    rintro rfl
    exact ((h.apart y).mpr hy).not_held (.table s.1) h.table_self
  · rw [h.setWord_table, h.table_ne]
    rintro rfl
    exact hi hs
  · rw [maps_setWord h.space h.table_self, if_neg, h.maps]
    rintro rfl
    exact hkernel hs'

theorem mapLoop_kernel {k : Nat} (h : Space l m pgdir) (hvk : v + k < 2 ^ 20) (hpk : p + k < 2 ^ 20) (hn : k < n)
    (hkernel : ∀ q, v ≤ q → q ≤ v + k → (slot q).1 ∈ kernelTables)
    (hnone : ∀ q, v ≤ q → q ≤ v + k → m.maps pgdir (slot q) = none) :
    Ends Never (mapLoop pgdir perm ((v + k) * 4096) n (v * 4096) (p * 4096)) (fun b t => Laid l pgdir m t ∧ match b with
      | true => ∀ q < 2 ^ 20, t.maps pgdir (slot q) =
          if v ≤ q ∧ q ≤ v + k then some (entry (p + (q - v)) perm) else m.maps pgdir (slot q)
      | false => t.freelist = [] ∧ ∃ i ∈ kernelTables, t.table pgdir i = none) m := by
  induction n generalizing m v p k with
  | zero => omega
  | succ n ih =>
    have hin := hkernel v (Nat.le_refl v) (Nat.le_add_right v k)
    refine mapLoop_turn h (.inl (hnone v (Nat.le_refl v) (Nat.le_add_right v k)))
      (fun hempty htable => ⟨.refl h, hempty, _, hin, htable⟩) fun t x ht _ => ?_
    have hlaid := ht.laid hin (entry p perm)
    have hmaps : ∀ q < 2 ^ 20, (t.setWord x (slot v).2 (entry p perm)).maps pgdir (slot q) =
        if q = v then some (entry p perm) else m.maps pgdir (slot q) := by
      intro q hq
      rw [maps_setWord ht.space ht.table_self, if_pos (present_entry p perm), ht.maps]
      by_cases hqv : q = v
      · rw [if_pos (congrArg slot hqv), if_pos hqv]
      · rw [if_neg fun heq => hqv (slot_inj hq (by omega) heq), if_neg hqv]
    cases k with
    | zero =>
      rw [if_pos (by rw [Nat.add_zero])]
      refine ends_pure ⟨hlaid, fun q hq => ?_⟩
      rw [hmaps q hq]
      by_cases hqv : q = v
      · rw [if_pos hqv, if_pos (by omega), hqv, Nat.sub_self, Nat.add_zero]
      · rw [if_neg hqv, if_neg (by omega)]
    | succ k =>
      rw [if_neg (by omega), next_page (by omega), next_page (by omega), show v + (k + 1) = v + 1 + k by omega]
      refine (ih hlaid.sound (by omega) (by omega) (by omega) (fun q hq hqk => hkernel q (by omega) (by omega))
        fun q hq hqk => ?_).mono fun b u hu => ⟨hlaid.trans hu.1, ?_⟩
      · rw [hmaps q (by omega), if_neg (by omega)]
        exact hnone q (by omega) (by omega)
      · cases b with
        | false => exact hu.2
        | true =>
          intro q hq
          rw [hu.2 q hq, hmaps q hq]
          by_cases hqv : q = v
          · rw [if_neg (by omega), if_pos hqv, if_pos (by omega), hqv, Nat.sub_self, Nat.add_zero]
          · rw [if_neg hqv]
            by_cases hrow : v + 1 ≤ q ∧ q ≤ v + 1 + k
            · rw [if_pos hrow, if_pos (by omega), show p + 1 + (q - (v + 1)) = p + (q - v) by omega]
            · rw [if_neg hrow, if_neg (by omega)]

end Xv6.Paging
