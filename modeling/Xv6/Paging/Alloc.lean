import Xv6.Paging.Dealloc

/-!
# Mapping new pages

`allocuvm` maps zeroed pages in the range, or takes back what it has mapped.
-/

namespace Xv6.Paging

open Code Ownership

def userPerm : Word := pteW ||| pteU

structure Extended (l : Link) (pgdir : Page) (lo n : Nat) (m t : Mem) : Prop where
  grown : Grown pgdir m t
  others : ∀ s, ¬ InPages lo n s → t.maps pgdir s = m.maps pgdir s
  added : ∀ q, lo ≤ q → q < lo + n → ∃ y : Nat, t.maps pgdir (slot q) = some (entry y userPerm) ∧ y ∈ m.freelist ∧
    InRange l y ∧ t.frame y = fun _ => 0

structure SameUser (pgdir : Page) (m t : Mem) : Prop where
  maps : ∀ s, t.maps pgdir s = m.maps pgdir s
  frames : ∀ s w, s.User → m.maps pgdir s = some w → t.frame (pteAddr w) = m.frame (pteAddr w)

def Unused (m : Mem) (pgdir : Page) (lo hi : Nat) : Prop := ∀ q, lo ≤ q → q < hi → m.maps pgdir (slot q) = none

structure Kept (l : Link) (pgdir : Page) (m t : Mem) : Prop extends
    Within l m (some (.space pgdir)) t (some (.space pgdir)) where
  kernel : ∀ s, ¬ s.User → t.maps pgdir s = m.maps pgdir s

def Sized (m : Mem) (pgdir : Page) (sz : Nat) : Prop := ∀ q < 2 ^ 19, m.maps pgdir (slot q) ≠ none ↔ q < pages sz

variable {l : Link} {m t u : Mem} {pgdir x : Page} {s : Slot} {w : Word} {lo n v oldsz newsz : Nat}

theorem userPerm_lt : userPerm.toNat < 4096 := by decide

theorem pteAddr_userEntry {y : Nat} (hy : InRange l y) : pteAddr (entry y userPerm) = y :=
  pteAddr_mapped hy.lt userPerm_lt

theorem Extended.empty (lo : Nat) : Extended l pgdir lo 0 m m :=
  ⟨.refl, fun _ _ => rfl, fun q hq hqn => absurd hqn (by omega)⟩

theorem Extended.frame_user (h : Extended l pgdir lo n m t) (hm : Space l m pgdir) (hs : s.User)
    (hw : m.maps pgdir s = some w) : t.frame (pteAddr w) = m.frame (pteAddr w) :=
  h.grown.frame_user hm hs hw

theorem Extended.others_page {q : Nat} (h : Extended l pgdir lo n m t) (hq : q < 2 ^ 19) (hlo : lo + n ≤ 2 ^ 19)
    (hnot : ¬ (lo ≤ q ∧ q < lo + n)) : t.maps pgdir (slot q) = m.maps pgdir (slot q) := by
  refine h.others (slot q) ?_
  rintro ⟨q', hq', hqn, heq⟩
  have := slot_inj (by omega) (by omega) heq
  omega

theorem Sized.unused (h : Sized m pgdir oldsz) (hnew : pages newsz ≤ 2 ^ 19) :
    Unused m pgdir (pages oldsz) (pages newsz) := by
  intro q hq hqn
  by_contra hne
  have := (h q (by omega)).mp hne
  omega

theorem Extended.sized (hext : Extended l pgdir (pages oldsz) (pages newsz - pages oldsz) m t)
    (h : Sized m pgdir oldsz) (hle : pages oldsz ≤ pages newsz) (hnew : pages newsz ≤ 2 ^ 19) :
    Sized t pgdir newsz := by
  intro q hq
  by_cases hin : pages oldsz ≤ q ∧ q < pages newsz
  · obtain ⟨y, hy, -⟩ := hext.added q hin.1 (by omega)
    simp [hy, hin.2]
  · rw [hext.others_page hq (by omega) (by omega), h q hq]
    omega

theorem Extended.succ {y : Nat} (h : Extended l pgdir lo n m t) (hlo : lo + n < 2 ^ 19)
    (hgrown : Grown pgdir m u)
    (hmaps : ∀ s, u.maps pgdir s = if s = slot (lo + n) then some (entry y userPerm) else t.maps pgdir s)
    (hmem : y ∈ m.freelist) (hy : InRange l y) (hzero : u.frame y = fun _ => 0)
    (hkeep : ∀ q w, lo ≤ q → q < lo + n → t.maps pgdir (slot q) = some w → u.frame (pteAddr w) = t.frame (pteAddr w)) :
    Extended l pgdir lo (n + 1) m u := by
  refine ⟨hgrown, fun s hs => ?_, fun q hq hqn => ?_⟩
  · rw [hmaps, if_neg, h.others s]
    · rintro ⟨q, hq, hqn, rfl⟩
      exact hs ⟨q, hq, by omega, rfl⟩
    · rintro rfl
      exact hs ⟨lo + n, by omega, by omega, rfl⟩
  · rw [hmaps]
    by_cases hlast : q = lo + n
    · subst hlast
      exact ⟨y, if_pos rfl, hmem, hy, hzero⟩
    · obtain ⟨z, hz, hzmem, hzin, hzzero⟩ := h.added q hq (by omega)
      have hne : slot q ≠ slot (lo + n) := fun heq => hlast (slot_inj (by omega) (by omega) heq)
      refine ⟨z, by rw [if_neg hne, hz], hzmem, hzin, ?_⟩
      have := hkeep q _ hq (by omega) hz
      rw [pteAddr_userEntry hzin] at this
      rw [this, hzzero]

theorem Kept.refl (h : Space l m pgdir) : Kept l pgdir m m := ⟨.refl h, fun _ _ => rfl⟩

theorem Kept.trans (h : Kept l pgdir m t) (h' : Kept l pgdir t u) : Kept l pgdir m u :=
  ⟨h.toWithin.trans h'.toWithin, fun s hs => (h'.kernel s hs).trans (h.kernel s hs)⟩

theorem Space.scan_kept (h : Space l m pgdir) (hlo : lo + n ≤ 2 ^ 19) : Kept l pgdir m (m.scan pgdir n lo) := by
  obtain ⟨hwithin, hunmapped, -⟩ := h.scan hlo
  refine ⟨hwithin, fun s hs => ?_⟩
  rw [hunmapped.maps, if_neg fun hin => hs (hin.user hlo)]

theorem deallocuvm_kept (h : Space l m pgdir) (hold : oldsz ≤ 2 ^ 31) :
    Ends Never (deallocuvm l pgdir oldsz newsz) (fun _ t => Kept l pgdir m t) m := by
  refine (deallocuvm_ends h hold).mono fun _ t ht => ?_
  have hpages := pages_le hold
  split at ht
  · rename_i hlt
    rw [ht.2]
    have := pages_mono (Nat.le_of_lt hlt)
    exact h.scan_kept (by omega)
  · rw [ht.2]
    exact .refl h

theorem Extended.undo {k : Nat} (h : Extended l pgdir lo n m t) (hm : Space l m pgdir) (ht : Space l t pgdir)
    (hnk : n ≤ k) (hlo : lo + k ≤ 2 ^ 19) (hunused : Unused m pgdir lo (lo + k)) :
    SameUser pgdir m (t.scan pgdir k lo) := by
  obtain ⟨-, hunmapped, -⟩ := ht.scan hlo
  refine ⟨fun s => ?_, fun s w hs hw => ?_⟩
  · rw [hunmapped.maps]
    split
    · rename_i hin
      obtain ⟨q, hq, hqk, rfl⟩ := hin
      exact (hunused q hq hqk).symm
    · rename_i hout
      refine h.others s fun hin => hout ?_
      obtain ⟨q, hq, hqn, rfl⟩ := hin
      exact ⟨q, hq, by omega, rfl⟩
  · have hout : ¬ InPages lo k s := by
      rintro ⟨q, hq, hqk, rfl⟩
      rw [hunused q hq hqk] at hw
      cases hw
    have hwt : t.maps pgdir s = some w := by
      rw [h.others s fun hin => hout (hin.imp fun q hq => ⟨hq.1, by omega, hq.2.2⟩), hw]
    rw [hunmapped.frame_user ht (fun s hs => hs.user hlo) hs hout hwt, h.frame_user hm hs hw]

theorem Extended.deallocuvm {k : Nat} (h : Extended l pgdir (pages oldsz) k m t) (hm : Space l m pgdir)
    (ht : Space l t pgdir) (hold : oldsz ≤ newsz) (hnew : newsz ≤ 2 ^ 31) (hk : pages oldsz + k ≤ pages newsz) :
    Ends Never (deallocuvm l pgdir newsz oldsz) (fun _ u => Kept l pgdir t u ∧
      (Unused m pgdir (pages oldsz) (pages newsz) → SameUser pgdir m u)) t := by
  have hpages := pages_le hnew
  refine ((deallocuvm_kept ht hnew).and (deallocuvm_ends ht hnew)).mono fun _ u hu => ⟨hu.1, fun hunused => ?_⟩
  have hadd : pages oldsz + (pages newsz - pages oldsz) = pages newsz := by omega
  have hundo := h.undo (k := pages newsz - pages oldsz) hm ht (by omega) (by omega) (by rw [hadd]; exact hunused)
  have hlast := hu.2
  split at hlast
  · rw [hlast.2]
    exact hundo
  · rw [show newsz = oldsz by omega, Nat.sub_self] at hundo
    rw [hlast.2]
    exact hundo

structure AllocPost (l : Link) (pgdir : Page) (oldsz newsz : Nat) (m : Mem) (r : Nat) (t : Mem) : Prop where
  kept : Kept l pgdir m t
  result : r = newsz ∧ Extended l pgdir (pages oldsz) (pages newsz - pages oldsz) m t ∧
      t.room pgdir + (pages newsz - pages oldsz) = m.room pgdir ∨
    r = 0 ∧ (Unused m pgdir (pages oldsz) (pages newsz) → SameUser pgdir m t) ∧
      m.room pgdir ≤ 1024 + (pages newsz - pages oldsz)

theorem Taken.mapped {y : Page} {f : Frame} {perm : Word} {z : Mem} (ht : Taken l pgdir y f t u)
    (hz : Mapped l pgdir v y perm u z) (hv : v < 2 ^ 19) : Kept l pgdir t z := by
  refine ⟨⟨hz.space, fun x => (hz.apart x).trans (ht.apart x).symm, fun x hx => ?_⟩, fun s hs => ?_⟩
  · obtain ⟨hapart, hne⟩ := (ht.apart x).mp hx
    rw [hz.grown.frame_apart hapart, ht.frames x hne]
  · rw [hz.maps, if_neg, ht.same.maps]
    rintro rfl
    exact hs ((slot_user (by omega)).mpr hv)

theorem Extended.taken {y : Page} (h : Extended l pgdir lo n m t) (ht : Taken l pgdir y (fun _ => 0) t u)
    (hlo : lo + n ≤ 2 ^ 19) : Extended l pgdir lo n m u := by
  refine ⟨h.grown.trans ht.grown, fun s hs => (ht.same.maps s).trans (h.others s hs), fun q hq hqn => ?_⟩
  obtain ⟨z, hz, hzmem, hzin, hzzero⟩ := h.added q hq hqn
  refine ⟨z, (ht.same.maps _).trans hz, hzmem, hzin, ?_⟩
  rw [ht.frames z, hzzero]
  rintro rfl
  have huser : (slot q).User := (slot_user (by omega)).mpr (by omega)
  have hheld := holds_of_maps huser ((ht.same.maps (slot q)).trans hz)
  rw [pteAddr_userEntry hzin] at hheld
  exact ht.own.not_held _ hheld

theorem Taken.given {y : Page} {f : Frame} {z : Mem} (ht : Taken l pgdir y f t u) (hz : Kept l pgdir u z) :
    Kept l pgdir t (z.freed y) := by
  have hapart := (hz.apart y).mpr ht.own
  have hsame := freed_sameTables hapart
  refine ⟨⟨hz.space.give hapart ht.inRange rfl hsame.holds, fun x => ?_, fun x hx => ?_⟩, fun s hs => ?_⟩
  · change Outside (y :: z.freelist) ((z.freed y).holds pgdir) x ↔ Apart t pgdir x
    rw [hsame.holds, outside_cons, ht.apart]
    exact and_congr_left' (hz.apart x)
  · obtain ⟨hapart, hne⟩ := (ht.apart x).mp hx
    exact (setFrame_ne _ _ hne).trans ((hz.frames x hapart).trans (ht.frames x hne))
  · rw [hsame.maps, hz.kernel s hs, ht.same.maps]

theorem SameUser.freed {y : Page} (h : SameUser pgdir m t) (hy : Apart t pgdir y) : SameUser pgdir m (t.freed y) := by
  have hsame := freed_sameTables hy
  refine ⟨fun s => (hsame.maps s).trans (h.maps s), fun s w hs hw => ?_⟩
  rw [← h.frames s w hs hw]
  refine setFrame_ne _ _ ?_
  rintro rfl
  exact hy.not_held (.user s) (holds_of_maps hs ((h.maps s).trans hw))

theorem allocLoop_ends {E : Stop → Prop} {k fuel : Nat} (hm : Space l m pgdir)
    (h : Extended l pgdir (pages oldsz) k m t) (hkept : Kept l pgdir m t) (hroom : t.room pgdir + k = m.room pgdir)
    (hold : oldsz ≤ newsz) (hnew : newsz < 2 ^ 31) (hk : pages oldsz + k ≤ pages newsz)
    (hunused : Unused m pgdir (pages oldsz) (pages newsz) ∨ E .remap) (hfuel : pages newsz - (pages oldsz + k) < fuel) :
    Ends E (allocLoop l pgdir oldsz newsz fuel ((pages oldsz + k) * 4096)) (AllocPost l pgdir oldsz newsz m) t := by
  induction fuel generalizing t k with
  | zero => omega
  | succ fuel ih =>
    have hpages := pages_le (Nat.le_of_lt hnew)
    unfold allocLoop
    refine ends_ite (fun hlt => ?_) fun hge => ?_
    · rw [lt_pages] at hlt
      refine Ends.bind (kalloc_ends.allow nofun) fun o u hu => ?_
      cases o with
      | none =>
        have hempty := room_le t pgdir
        rw [hu.2, List.length_nil] at hempty
        rw [hu.1]
        refine Ends.bind ((h.deallocuvm hm hkept.space hold (by omega) hk).allow nofun) fun _ z hz => ends_pure ?_
        exact ⟨hkept.trans hz.1, .inr ⟨rfl, hz.2, by omega⟩⟩
      | some mem =>
        obtain ⟨next, hnext, rfl⟩ := hu
        have htaken := hkept.space.taken hnext fun _ => 0
        apply ends_modify_bind
        change Ends E _ _ (Mem.setFrame { t with freelist := next } mem fun _ => 0)
        generalize Mem.setFrame { t with freelist := next } mem (fun _ => 0) = u at *
        have hextended := h.taken htaken (by omega)
        have htotal := htaken.room
        have hfree : u.maps pgdir (slot (pages oldsz + k)) = none ∨ E .remap := by
          refine hunused.imp_left fun hunused => ?_
          rw [htaken.same.maps, h.others, hunused _ (by omega) hlt]
          rintro ⟨q, hq, hqk, heq⟩
          have := slot_inj (by omega) (by omega) heq
          omega
        refine Ends.bind (mappages_user htaken.space (by omega) hfree htaken.own htaken.inRange userPerm_lt)
          fun b w hw => ?_
        cases b with
        | false =>
          simp only [Bool.false_eq_true, if_false] at hw ⊢
          have hempty := room_le u pgdir
          rw [hw.2.1, List.length_nil] at hempty
          rw [hw.1]
          refine Ends.bind ((hextended.deallocuvm hm htaken.space hold (by omega) hk).allow nofun) fun _ z hz => ?_
          refine Ends.bind ((kfree_ends htaken.inRange).allow nofun) fun _ y hy => ends_pure ?_
          rw [hy]
          exact ⟨hkept.trans (htaken.given hz.1),
            .inr ⟨rfl, fun hunused => (hz.2 hunused).freed ((hz.1.apart mem).mpr htaken.own), by omega⟩⟩
        | true =>
          simp only [if_true] at hw ⊢
          have hgrown := hw.grown
          have hwroom := hw.room
          have hzero : w.frame mem = fun _ => 0 := by
            rw [hgrown.frame_apart htaken.own, htaken.filled]
          have hnextpage : ((pages oldsz + k) * 4096 + pgsize) % 2 ^ 32 = (pages oldsz + (k + 1)) * 4096 :=
            next_page (by omega)
          rw [hnextpage]
          refine ih (hextended.succ (by omega) (hextended.grown.trans hgrown) hw.maps (h.grown.free mem htaken.free)
            htaken.inRange hzero fun q z hq hqk hz => ?_) (hkept.trans (htaken.mapped hw (by omega))) (by omega)
            (by omega) (by omega)
          exact hgrown.frame_user htaken.space ((slot_user (by omega)).mpr (by omega)) hz
    · rw [lt_pages] at hge
      refine ends_pure ⟨hkept, .inl ⟨rfl, ?_⟩⟩
      rw [show pages newsz - pages oldsz = k by omega]
      exact ⟨h, hroom⟩

theorem allocuvm_ends {E : Stop → Prop} (h : Space l m pgdir) (hold : oldsz ≤ newsz) (hnew : newsz < kernbase)
    (hunused : Unused m pgdir (pages oldsz) (pages newsz) ∨ E .remap) :
    Ends E (allocuvm l pgdir oldsz newsz) (AllocPost l pgdir oldsz newsz m) m := by
  have hnew' : newsz < 2 ^ 31 := hnew
  have hle := pages_mono hold
  unfold allocuvm
  rw [if_neg (Nat.not_le.mpr hnew), if_neg (Nat.not_lt.mpr hold), pgroundup_eq (by omega)]
  refine allocLoop_ends (k := 0) h (.empty _) (.refl h) (Nat.add_zero _) hold hnew' (by omega) hunused ?_
  have := pages_le (Nat.le_of_lt hnew')
  rw [turns_eq]
  omega

theorem allocuvm_cases {E : Stop → Prop} {Q : Nat → Mem → Prop} (hkernel : kernbase ≤ newsz → Q 0 m)
    (hless : newsz < kernbase → newsz < oldsz → Q oldsz m)
    (hgrow : newsz < kernbase → oldsz ≤ newsz → Ends E (allocuvm l pgdir oldsz newsz) Q m) :
    Ends E (allocuvm l pgdir oldsz newsz) Q m := by
  by_cases hnew : newsz < kernbase
  · by_cases hold : oldsz ≤ newsz
    · exact hgrow hnew hold
    · unfold allocuvm
      rw [if_neg (Nat.not_le.mpr hnew), if_pos (Nat.not_le.mp hold)]
      exact ends_pure (hless hnew (Nat.not_le.mp hold))
  · unfold allocuvm
    rw [if_pos (Nat.not_lt.mp hnew)]
    exact ends_pure (hkernel (Nat.not_lt.mp hnew))

end Xv6.Paging
