import Xv6.Lib.Ownership
import Xv6.Paging.Frames

/-!
# The pages of an address space

A page directory has a page for itself, one for each page table and one for each page of the user part.
-/

open Function

namespace Xv6.Paging

open Ownership

inductive Part where
  | dir
  | table (i : Fin 1024)
  | user (s : Slot)
deriving DecidableEq

def Mem.holds (m : Mem) (pgdir : Page) : Part → Option Page
  | .dir => some pgdir
  | .table i => m.table pgdir i
  | .user s => if s.User then (m.maps pgdir s).map pteAddr else none

theorem link_data (l : Link) : 0x100 < l.data ∧ l.data < 0xE000 ∧ 0 < l.first := by
  have hextmem : 0x100000 < l.data * 4096 := l.extmem_lt
  have hphystop : l.first * 4096 < 0xE000000 := l.first_lt
  have hle := l.data_le
  omega

def InRange (l : Link) (x : Page) : Prop := l.first ≤ x ∧ x * pgsize < phystop

theorem InRange.lt {l : Link} {x : Nat} (h : InRange l x) : x < 2 ^ 20 := by
  have : x * 4096 < 0xE000000 := h.2
  omega

structure FreeList (l : Link) (m : Mem) : Prop where
  nodup : m.freelist.Nodup
  inRange : ∀ x ∈ m.freelist, InRange l x

structure Space (l : Link) (m : Mem) (pgdir : Page) : Prop extends FreeList l m where
  owned : ∀ p x, m.holds pgdir p = some x → InRange l x ∧ x ∉ m.freelist
  once : ∀ p q x, m.holds pgdir p = some x → m.holds pgdir q = some x → p = q

abbrev Apart (m : Mem) (pgdir x : Page) : Prop := Outside m.freelist (m.holds pgdir) x

/-- What owns pages: an address space, or a page by itself. -/
inductive Root where
  | space (pgdir : Page)
  | page (x : Page)
deriving DecidableEq

def Mem.region (m : Mem) : Option Root → Part → Option Page
  | none => fun _ => none
  | some (.space pgdir) => m.holds pgdir
  | some (.page x) => fun p => if p = .dir then some x else none

def Sound (l : Link) (m : Mem) : Option Root → Prop
  | none => FreeList l m
  | some (.space pgdir) => Space l m pgdir
  | some (.page x) => FreeList l m ∧ x ∉ m.freelist

/-- Pages go from the free list to the owner or back. None is lost, and all others are as they were. -/
structure Within (l : Link) (m : Mem) (o : Option Root) (t : Mem) (o' : Option Root) : Prop where
  sound : Sound l t o'
  apart : ∀ x, Outside t.freelist (t.region o') x ↔ Outside m.freelist (m.region o) x
  frames : ∀ x, Outside m.freelist (m.region o) x → t.frame x = m.frame x

theorem Within.refl {l : Link} {m : Mem} {o : Option Root} (h : Sound l m o) : Within l m o m o :=
  ⟨h, fun _ => Iff.rfl, fun _ _ => rfl⟩

theorem Within.space {l : Link} {m t : Mem} {o : Option Root} {pgdir : Page}
    (h : Within l m o t (some (.space pgdir))) : Space l t pgdir :=
  h.sound

theorem Within.trans {l : Link} {m t u : Mem} {o o' o'' : Option Root} (h : Within l m o t o')
    (h' : Within l t o' u o'') : Within l m o u o'' :=
  ⟨h'.sound, fun x => (h'.apart x).trans (h.apart x),
    fun x hx => (h'.frames x ((h.apart x).mpr hx)).trans (h.frames x hx)⟩

variable {l : Link} {m t : Mem} {pgdir x : Page} {i j : Fin 1024} {s : Slot} {w : Word}

theorem holds_user (hs : s.User) : m.holds pgdir (.user s) = (m.maps pgdir s).map pteAddr := if_pos hs

theorem holds_of_maps (hs : s.User) (h : m.maps pgdir s = some w) : m.holds pgdir (.user s) = some (pteAddr w) := by
  rw [holds_user hs, h, Option.map_some]

theorem holds_congr (htable : ∀ i, t.table pgdir i = m.table pgdir i)
    (hmaps : ∀ s, s.User → t.maps pgdir s = m.maps pgdir s) : t.holds pgdir = m.holds pgdir := by
  funext p
  cases p with
  | dir => rfl
  | table i => exact htable i
  | user s =>
    by_cases hs : s.User
    · rw [holds_user hs, holds_user hs, hmaps s hs]
    · simp only [Mem.holds, if_neg hs]

theorem SameTables.holds (h : SameTables pgdir m t) : t.holds pgdir = m.holds pgdir :=
  holds_congr h.table fun s _ => h.maps s

namespace Space

variable (h : Space l m pgdir)
include h

theorem congr (hfree : t.freelist = m.freelist) (hholds : t.holds pgdir = m.holds pgdir) :
    Space l t pgdir :=
  ⟨⟨hfree ▸ h.nodup, hfree ▸ h.inRange⟩, by rw [hholds, hfree]; exact h.owned, by rw [hholds]; exact h.once⟩

theorem dir_ne_table (hi : m.table pgdir i = some x) : pgdir ≠ x := by
  rintro rfl
  cases h.once .dir (.table i) pgdir rfl hi

theorem table_inj (hi : m.table pgdir i = some x) (hj : m.table pgdir j = some x) : i = j := by
  cases h.once (.table i) (.table j) x hi hj
  rfl

theorem take {next : List Page} (hfree : m.freelist = x :: next) :
    Space l { m with freelist := next } pgdir ∧ Apart { m with freelist := next } pgdir x ∧ InRange l x := by
  have hnodup := h.nodup
  rw [hfree, List.nodup_cons] at hnodup
  have hmem : ∀ y ∈ next, y ∈ m.freelist := fun y hy => by rw [hfree]; exact List.mem_cons_of_mem x hy
  have hx : x ∈ m.freelist := by rw [hfree]; exact List.mem_cons_self
  refine ⟨⟨⟨hnodup.2, fun y hy => h.inRange y (hmem y hy)⟩, fun p y hy => ?_, h.once⟩,
    ⟨hnodup.1, fun p hp => (h.owned p x hp).2 hx⟩, h.inRange x hx⟩
  obtain ⟨hin, hnot⟩ := h.owned p y hy
  exact ⟨hin, fun hy => hnot (hmem y hy)⟩

theorem give (hx : Apart m pgdir x) (hin : InRange l x) (hfree : t.freelist = x :: m.freelist)
    (hholds : t.holds pgdir = m.holds pgdir) : Space l t pgdir := by
  refine ⟨⟨?_, fun y hy => ?_⟩, fun p y hp => ?_, by rw [hholds]; exact h.once⟩
  · rw [hfree]
    exact List.nodup_cons.mpr ⟨hx.not_free, h.nodup⟩
  · rw [hfree] at hy
    rcases List.mem_cons.mp hy with rfl | hy
    · exact hin
    · exact h.inRange y hy
  · rw [hholds] at hp
    obtain ⟨hy, hnot⟩ := h.owned p y hp
    refine ⟨hy, ?_⟩
    rw [hfree]
    intro hmem
    rcases List.mem_cons.mp hmem with rfl | hmem
    · exact hx.not_held p hp
    · exact hnot hmem

theorem add {p : Part} (hx : Apart m pgdir x) (hin : InRange l x) (hfree : t.freelist = m.freelist)
    (hholds : t.holds pgdir = update (m.holds pgdir) p (some x)) : Space l t pgdir := by
  have hnew : ∀ q y, t.holds pgdir q = some y → q = p ∧ y = x ∨ y ≠ x ∧ m.holds pgdir q = some y := by
    intro q y hq
    rw [hholds, update_apply] at hq
    split at hq
    · rename_i heq
      exact .inl ⟨heq, (Option.some.inj hq).symm⟩
    · refine .inr ⟨?_, hq⟩
      rintro rfl
      exact hx.not_held q hq
  refine ⟨⟨hfree ▸ h.nodup, hfree ▸ h.inRange⟩, fun q y hq => ?_, fun q r y hq hr => ?_⟩
  · rw [hfree]
    rcases hnew q y hq with ⟨-, rfl⟩ | ⟨-, hq⟩
    · exact ⟨hin, hx.not_free⟩
    · exact h.owned q y hq
  · rcases hnew q y hq with ⟨rfl, rfl⟩ | ⟨hne, hq⟩
    · rcases hnew r y hr with ⟨rfl, -⟩ | ⟨hne, -⟩
      · rfl
      · exact absurd rfl hne
    · rcases hnew r y hr with ⟨-, rfl⟩ | ⟨-, hr⟩
      · exact absurd rfl hne
      · exact h.once q r y hq hr

theorem drop {p : Part} (hp : m.holds pgdir p = some x) (hfree : t.freelist = m.freelist)
    (hholds : t.holds pgdir = update (m.holds pgdir) p none) : Space l t pgdir ∧ Apart t pgdir x := by
  have hold : ∀ q y, t.holds pgdir q = some y → q ≠ p ∧ m.holds pgdir q = some y := by
    intro q y hq
    rw [hholds, update_apply] at hq
    split at hq
    · cases hq
    · rename_i hne
      exact ⟨hne, hq⟩
  refine ⟨⟨⟨hfree ▸ h.nodup, hfree ▸ h.inRange⟩, fun q y hq => ?_, fun q r y hq hr => ?_⟩, ⟨?_, fun q hq => ?_⟩⟩
  · rw [hfree]
    exact h.owned q y (hold q y hq).2
  · exact h.once q r y (hold q y hq).2 (hold r y hr).2
  · rw [hfree]
    exact (h.owned p x hp).2
  · obtain ⟨hne, hq⟩ := hold q x hq
    exact hne (h.once q p x hq hp)

end Space

theorem region_page (m : Mem) (x : Page) : m.region (some (.page x)) = update (m.region none) .dir (some x) := by
  funext p
  rw [update_apply]
  rfl

theorem Sound.freeList {o : Option Root} (h : Sound l m o) : FreeList l m := by
  cases o with
  | none => exact h
  | some o =>
    cases o with
    | space pgdir => exact Space.toFreeList h
    | page x => exact h.1

theorem Sound.not_free {o : Option Root} {p : Part} (h : Sound l m o) (hp : m.region o p = some x) :
    x ∉ m.freelist := by
  cases o with
  | none => cases hp
  | some o =>
    cases o with
    | space pgdir => exact (Space.owned h p x hp).2
    | page y =>
      obtain ⟨-, hx⟩ := Option.ite_none_right_eq_some.mp hp
      exact Option.some.inj hx ▸ h.2

theorem Sound.once {o : Option Root} {p q : Part} (h : Sound l m o) (hp : m.region o p = some x)
    (hq : m.region o q = some x) : p = q := by
  cases o with
  | none => cases hp
  | some o =>
    cases o with
    | space pgdir => exact Space.once h p q x hp hq
    | page y =>
      obtain ⟨rfl, -⟩ := Option.ite_none_right_eq_some.mp hp
      obtain ⟨rfl, -⟩ := Option.ite_none_right_eq_some.mp hq
      rfl

theorem Within.congr (h : Space l m pgdir) (hfree : t.freelist = m.freelist) (hholds : t.holds pgdir = m.holds pgdir)
    (hframes : ∀ x, Apart m pgdir x → t.frame x = m.frame x) :
    Within l m (some (.space pgdir)) t (some (.space pgdir)) :=
  ⟨h.congr hfree hholds, fun x => by rw [hfree, Mem.region, Mem.region, hholds], hframes⟩

theorem region_congr {o : Option Root} (h : ∀ p x, m.region o p = some x → t.frame x = m.frame x) :
    t.region o = m.region o := by
  cases o with
  | none => rfl
  | some o =>
    cases o with
    | space pgdir =>
      have hsame : SameTables pgdir m t := ⟨h .dir pgdir rfl, fun i x hx => h (.table i) x hx⟩
      exact hsame.holds
    | page x => rfl

theorem Within.region_eq {o o' a : Option Root} (h : Within l m o t o')
    (ha : ∀ p x, m.region a p = some x → Outside m.freelist (m.region o) x) : t.region a = m.region a :=
  region_congr fun p x hp => h.frames x (ha p x hp)

theorem Within.other {o o' : Option Root} (h : Within l m o t o') (hm : Space l m pgdir)
    (hapart : ∀ p x, m.holds pgdir p = some x → Outside m.freelist (m.region o) x) :
    Space l t pgdir ∧ t.holds pgdir = m.holds pgdir := by
  have hholds : t.holds pgdir = m.holds pgdir := h.region_eq (a := some (.space pgdir)) hapart
  refine ⟨⟨h.sound.freeList, fun p x hp => ?_, by rw [hholds]; exact hm.once⟩, hholds⟩
  rw [hholds] at hp
  exact ⟨(hm.owned p x hp).1, ((h.apart x).mpr (hapart p x hp)).not_free⟩

section Changes

theorem setFrame_self (m : Mem) (x : Page) (f : Frame) : (m.setFrame x f).frame x = f := update_self _ _ _

theorem setFrame_ne (m : Mem) {x y : Page} (f : Frame) (h : y ≠ x) : (m.setFrame x f).frame y = m.frame y :=
  update_of_ne h _ _

theorem Apart.sameTables (h : Apart m pgdir x) (f : Frame) : SameTables pgdir m (m.setFrame x f) := by
  refine ⟨setFrame_ne m f ?_, fun i y hy => setFrame_ne m f ?_⟩
  · rintro rfl
    exact h.not_held .dir rfl
  · rintro rfl
    exact h.not_held (.table i) hy

theorem Apart.setFrame (h : Apart m pgdir x) (f : Frame) : Apart (m.setFrame x f) pgdir x :=
  ⟨h.not_free, by rw [(h.sameTables f).holds]; exact h.not_held⟩

theorem Space.setFrame (h : Space l m pgdir) (hx : Apart m pgdir x) (f : Frame) : Space l (m.setFrame x f) pgdir :=
  h.congr rfl (hx.sameTables f).holds

theorem word_setWord_ne {y : Page} (hne : y ≠ x) : (m.setWord x i w).word y = m.word y := by
  funext k
  rw [Mem.word, Mem.setWord, setFrame_ne m _ hne, Mem.word]

theorem word_setWord (k : Fin 1024) : (m.setWord x i w).word x k = if k = i then w else m.word x k := by
  rw [Mem.word, Mem.setWord, setFrame_self]
  split
  · rename_i heq
    rw [heq, Frame.word_setWord_self]
  · rename_i hne
    rw [Frame.word_setWord_ne _ _ hne, Mem.word]

theorem table_setWord (hne : pgdir ≠ x) (k : Fin 1024) : (m.setWord x j w).table pgdir k = m.table pgdir k := by
  unfold Mem.table
  rw [word_setWord_ne hne]

theorem pte_setWord (h : Space l m pgdir) (hi : m.table pgdir i = some x) (s : Slot) :
    (m.setWord x j w).pte pgdir s = if s = (i, j) then some w else m.pte pgdir s := by
  simp only [Mem.pte, table_setWord (h.dir_ne_table hi)]
  cases hs : m.table pgdir s.1 with
  | none =>
    rw [if_neg]
    · rfl
    · rintro rfl
      rw [hs] at hi
      cases hi
  | some y =>
    rw [Option.map_some, Option.map_some]
    rcases eq_or_ne y x with rfl | hne
    · have hsi := h.table_inj hs hi
      rw [word_setWord]
      by_cases hj : s.2 = j
      · rw [if_pos hj, if_pos (Prod.ext hsi hj)]
      · rw [if_neg hj, if_neg fun heq => hj (by rw [heq])]
    · rw [word_setWord_ne hne, if_neg]
      rintro rfl
      rw [hs] at hi
      exact hne (Option.some.inj hi)

theorem maps_setWord (h : Space l m pgdir) (hi : m.table pgdir i = some x) (s : Slot) :
    (m.setWord x j w).maps pgdir s = if s = (i, j) then (if Present w then some w else none) else m.maps pgdir s := by
  rw [Mem.maps, pte_setWord h hi]
  split
  · simp [Option.filter]
  · rfl

theorem table_setDir (h : Present w) (k : Fin 1024) :
    (m.setWord pgdir i w).table pgdir k = if k = i then some (pteAddr w) else m.table pgdir k := by
  unfold Mem.table
  rw [word_setWord]
  by_cases hk : k = i
  · simp only [hk, if_true]
    rw [if_pos h]
  · simp only [hk, if_false]

section

variable (h : Space l m pgdir)
include h

theorem maps_setDir (hi : m.table pgdir i = none) (hw : Present w) (hne : pteAddr w ≠ pgdir)
    (hzero : ∀ k, m.word (pteAddr w) k = 0) (s : Slot) :
    (m.setWord pgdir i w).maps pgdir s = m.maps pgdir s := by
  simp only [Mem.maps, Mem.pte, table_setDir hw]
  by_cases hs : s.1 = i
  · rw [if_pos hs, hs, hi, Option.map_some, word_setWord_ne hne, hzero]
    rfl
  · rw [if_neg hs]
    cases hx : m.table pgdir s.1 with
    | none => rfl
    | some y => rw [Option.map_some, Option.map_some, word_setWord_ne (h.dir_ne_table hx).symm]

theorem Space.addTable (hx : Apart m pgdir x) (hin : InRange l x) (hi : m.table pgdir i = none)
    (hzero : ∀ k, m.word x k = 0) (hw : Present w) (haddr : pteAddr w = x) :
    Space l (m.setWord pgdir i w) pgdir ∧ (m.setWord pgdir i w).maps pgdir = m.maps pgdir ∧
    (m.setWord pgdir i w).holds pgdir = update (m.holds pgdir) (.table i) (some x) := by
  have hne : pteAddr w ≠ pgdir := by
    rw [haddr]
    rintro rfl
    exact hx.not_held .dir rfl
  have hmaps := maps_setDir h hi hw hne (by rw [haddr]; exact hzero)
  have hholds : (m.setWord pgdir i w).holds pgdir = update (m.holds pgdir) (.table i) (some x) := by
    funext p
    cases p with
    | dir => rfl
    | table k => simp only [Mem.holds, table_setDir hw k, haddr, update_apply, Part.table.injEq]
    | user s => simp only [Mem.holds, hmaps, update_apply, reduceCtorEq, if_false]
  exact ⟨h.add hx hin rfl hholds, funext hmaps, hholds⟩

theorem holds_setWord (hi : m.table pgdir i = some x) (hs : Slot.User (i, j)) :
    (m.setWord x j w).holds pgdir =
      update (m.holds pgdir) (.user (i, j)) (if Present w then some (pteAddr w) else none) := by
  funext p
  cases p with
  | dir => rfl
  | table k => exact table_setWord (h.dir_ne_table hi) k
  | user s =>
    simp only [Mem.holds, maps_setWord h hi, update_apply, Part.user.injEq]
    by_cases heq : s = (i, j)
    · subst heq
      rw [if_pos hs, if_pos rfl, if_pos rfl]
      split <;> rfl
    · rw [if_neg heq, if_neg heq]

theorem Space.addPage {y : Page} (hy : Apart m pgdir y) (hin : InRange l y)
    (hi : m.table pgdir i = some x) (hs : Slot.User (i, j)) (hw : Present w) (haddr : pteAddr w = y) :
    Space l (m.setWord x j w) pgdir := by
  refine h.add hy hin rfl (p := .user (i, j)) ?_
  rw [holds_setWord h hi hs, if_pos hw, haddr]

theorem Space.dropPage (hi : m.table pgdir i = some x) (hs : Slot.User (i, j))
    (hw : m.maps pgdir (i, j) = some w) :
    Space l (m.setWord x j 0) pgdir ∧ Apart (m.setWord x j 0) pgdir (pteAddr w) := by
  refine h.drop (holds_of_maps hs hw) rfl ?_
  rw [holds_setWord h hi hs, if_neg not_present_zero]

theorem Space.setKernel (hi : m.table pgdir i = some x) (hs : ¬ Slot.User (i, j)) :
    (m.setWord x j w).holds pgdir = m.holds pgdir := by
  refine holds_congr (table_setWord (h.dir_ne_table hi)) fun s huser => ?_
  rw [maps_setWord h hi, if_neg]
  rintro rfl
  exact hs huser

end

theorem empty_table (hzero : ∀ i, m.word pgdir i = 0) (i : Fin 1024) : m.table pgdir i = none := by
  rw [Mem.table, hzero, if_neg not_present_zero]

theorem empty_holds (hzero : ∀ i, m.word pgdir i = 0) : m.holds pgdir = m.region (some (.page pgdir)) := by
  funext p
  cases p with
  | dir => rfl
  | table i => exact empty_table hzero i
  | user s =>
    rw [Mem.holds, maps_eq_none_of_table (empty_table hzero s.1)]
    exact ite_self none

theorem Space.empty (h : FreeList l m) (hzero : ∀ i, m.word pgdir i = 0) (hin : InRange l pgdir)
    (hfree : pgdir ∉ m.freelist) : Space l m pgdir := by
  have hdir : ∀ p x, m.holds pgdir p = some x → p = .dir ∧ x = pgdir := by
    intro p x hp
    rw [empty_holds hzero] at hp
    obtain ⟨hp, hx⟩ := Option.ite_none_right_eq_some.mp hp
    exact ⟨hp, (Option.some.inj hx).symm⟩
  refine ⟨h, fun p x hp => ?_, fun p q x hp hq => by rw [(hdir p x hp).1, (hdir q x hq).1]⟩
  rw [(hdir p x hp).2]
  exact ⟨hin, hfree⟩

end Changes

def smallLink : Link := ⟨0x101, 0x200, by decide, by decide, by decide⟩

def clearMem : Mem := ⟨List.range' 0x203 0x1000, fun _ _ => 0⟩

theorem clearMem_free : FreeList smallLink clearMem := by
  refine ⟨List.nodup_range', fun (x : Nat) hx => ?_⟩
  rw [clearMem, List.mem_range'_1] at hx
  exact ⟨Nat.le_trans (by decide) hx.1, show x * 4096 < 0xE000000 by omega⟩

def onePage : Mem :=
  (clearMem.setWord 0x200 0 (BitVec.ofNat 32 (0x201 * 4096) ||| 7)).setWord 0x201 0 (entry 0x202 6)

theorem onePage_space : Space smallLink onePage 0x200 ∧
    (∀ s, onePage.maps 0x200 s = if s = slot 0 then some (entry 0x202 6) else none) ∧
    onePage.holds 0x200 =
      update (update (clearMem.region (some (.page 0x200))) (.table 0) (some 0x201)) (.user (slot 0)) (some 0x202) := by
  have hzero : ∀ x i, clearMem.word x i = 0 := fun x i => Frame.word_zero i
  have hin : ∀ x : Nat, 0x200 ≤ x ∧ x < 0x203 → InRange smallLink x := by
    rintro x ⟨hlo, hhi⟩
    exact ⟨hlo, show x * 4096 < 0xE000000 by omega⟩
  have hout : ∀ x : Nat, x < 0x203 → x ∉ clearMem.freelist := by
    intro x hx hmem
    rw [clearMem, List.mem_range'_1] at hmem
    omega
  have hclear := empty_holds (hzero 0x200)
  have hapart : ∀ x, x ∉ clearMem.freelist → x ≠ 0x200 → Apart clearMem 0x200 x := by
    refine fun x hx hne => ⟨hx, fun p hp => hne ?_⟩
    rw [hclear] at hp
    exact (Option.some.inj (Option.ite_none_right_eq_some.mp hp).2).symm
  have hempty := Space.empty clearMem_free (hzero 0x200) (hin 0x200 (by decide)) (hout 0x200 (by decide))
  have haddr : pteAddr (BitVec.ofNat 32 (0x201 * 4096) ||| 7) = 0x201 := by decide
  have hnone := empty_table (hzero 0x200) 0
  obtain ⟨hspace, hmaps, hholds⟩ := hempty.addTable (i := 0) (hapart 0x201 (hout 0x201 (by decide)) (by decide))
    (hin 0x201 (by decide)) hnone (hzero 0x201) (by decide) haddr
  have hother : Apart (clearMem.setWord 0x200 0 (BitVec.ofNat 32 (0x201 * 4096) ||| 7)) 0x200 0x202 := by
    rw [Apart, hholds]
    exact (outside_add (l := Part.table 0) hnone).mpr ⟨hapart 0x202 (hout 0x202 (by decide)) (by decide), by decide⟩
  have htable : (clearMem.setWord 0x200 0 (BitVec.ofNat 32 (0x201 * 4096) ||| 7)).table 0x200 0 = some 0x201 := by
    rw [table_setDir (by decide), if_pos rfl, haddr]
  refine ⟨hspace.addPage (i := 0) (j := 0) hother (hin 0x202 (by decide)) htable (by decide) (by decide) (by decide),
    fun s => ?_, ?_⟩
  · rw [onePage, maps_setWord hspace htable, if_pos (present_entry 0x202 6), hmaps,
      maps_eq_none_of_table (empty_table (hzero 0x200) s.1)]
    rfl
  · rw [onePage, holds_setWord hspace htable (by decide), hholds, hclear, if_pos (present_entry 0x202 6),
      show pteAddr (entry 0x202 6) = 0x202 by decide]
    rfl

def onePageProc : Sys := ⟨onePage, ⟨0x200, 4096, 4096⟩⟩

end Xv6.Paging
