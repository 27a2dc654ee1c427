import Xv6.Paging.Copyout

/-!
# The size of a process

`sbrk` changes the size by what it is asked for, or changes nothing, except when it takes away the whole size or more.
-/

namespace Xv6.Paging

open Code

structure Proper (l : Link) (s : Sys) : Prop where
  space : Space l s.mem s.proc.pgdir
  size : s.proc.sz ≤ kernbase
  sized : Sized s.mem s.proc.pgdir s.proc.sz

/-- The size has changed by `n`, old pages are as they were, and new ones are zero. -/
structure Resized (n : Int) (s t : Sys) : Prop where
  pgdir : t.proc.pgdir = s.proc.pgdir
  sz : (t.proc.sz : Int) = s.proc.sz + n
  sized : Sized t.mem t.proc.pgdir t.proc.sz
  kept : ∀ q w, q < pages s.proc.sz → q < pages t.proc.sz → s.mem.maps s.proc.pgdir (slot q) = some w →
    t.mem.maps t.proc.pgdir (slot q) = some w ∧ t.mem.frame (pteAddr w) = s.mem.frame (pteAddr w)
  zero : ∀ q w, pages s.proc.sz ≤ q → q < pages t.proc.sz → t.mem.maps t.proc.pgdir (slot q) = some w →
    t.mem.frame (pteAddr w) = fun _ => 0

structure Untouched (s t : Sys) : Prop where
  proc : t.proc = s.proc
  maps : ∀ q < 2 ^ 19, t.mem.maps t.proc.pgdir (slot q) = s.mem.maps s.proc.pgdir (slot q)
  frames : ∀ q w, q < 2 ^ 19 → s.mem.maps s.proc.pgdir (slot q) = some w →
    t.mem.frame (pteAddr w) = s.mem.frame (pteAddr w)

structure Copyable (l : Link) (t : Sys) : Prop where
  there : ∀ q < pages t.proc.sz, t.mem.maps t.proc.pgdir (slot q) ≠ none
  copies : ∃ r u, copyuvm l t.proc.pgdir t.proc.sz t.mem = .ok (r, u)

/-- The old size is returned and `n` added, or -1 is returned and nothing has changed. -/
def ExactOrNothing (l : Link) (n : Int) (s : Sys) (r : Word) (t : Sys) : Prop :=
  (r = BitVec.ofNat 32 s.proc.sz ∧ Resized n s t ∨ r = -1 ∧ Untouched s t) ∧ Copyable l t

variable {l : Link} {s t : Sys} {n : Int}

theorem Proper.copyable (h : Proper l s) : Copyable l s := by
  have hpages := pages_le h.size
  have hthere : ∀ q < pages s.proc.sz, s.mem.maps s.proc.pgdir (slot q) ≠ none := by
    intro q hq
    exact (h.sized q (by omega)).mpr hq
  obtain ⟨r, u, hu, -⟩ := (copyuvm_ends (E := Never) h.space.toFreeList (fun p x hp => (h.space.owned p x hp).2) h.size
    (.inl hthere)).exists_ok fun _ => id
  exact ⟨hthere, r, u, hu⟩

theorem Extended.resized {m : Mem} {k : Nat}
    (hext : Extended l s.proc.pgdir (pages s.proc.sz) (pages (s.proc.sz + k) - pages s.proc.sz) s.mem m)
    (h : Proper l s) (hpk : pages (s.proc.sz + k) ≤ 2 ^ 19) :
    Resized k s { mem := m, proc := { s.proc with sz := s.proc.sz + k } } := by
  have hle : pages s.proc.sz ≤ pages (s.proc.sz + k) := pages_mono (by omega)
  refine ⟨rfl, Int.natCast_add _ _, hext.sized h.sized hle hpk, fun q w hq _ hw => ?_, fun q w hq hqk hw => ?_⟩
  · refine ⟨(hext.others_page (by omega) (by omega) (by omega)).trans hw, ?_⟩
    exact hext.frame_user h.space ((slot_user (by omega)).mpr (by omega)) hw
  · dsimp only at hqk
    obtain ⟨y, hy, -, hin, hzero⟩ := hext.added q hq (by omega)
    cases hy.symm.trans hw
    exact (congrArg m.frame (pteAddr_userEntry hin)).trans hzero

theorem growproc_more (h : Proper l s) (hn : 0 < n) (hint : n < 2 ^ 31) :
    Ends Never (growproc l n) (fun b t => Proper l t ∧ if b then Resized n s t else Untouched s t) s := by
  have hsize : s.proc.sz ≤ 2 ^ 31 := h.size
  obtain ⟨k, rfl⟩ : ∃ k : Nat, n = k := ⟨n.toNat, by omega⟩
  have hnew : (((s.proc.sz : Int) + k) % 2 ^ 32).toNat = s.proc.sz + k := by omega
  unfold growproc
  apply ends_get_bind
  dsimp only
  rw [hnew, if_pos hn]
  rcases Nat.lt_or_ge (s.proc.sz + k) kernbase with hlt | hge
  · have hlt' : s.proc.sz + k < 2 ^ 31 := hlt
    have hpk : pages (s.proc.sz + k) ≤ 2 ^ 19 := pages_le (by omega)
    refine Ends.bind (ends_onMem (allocuvm_ends h.space (by omega) hlt (.inl (h.sized.unused hpk)))) fun r t ht => ?_
    obtain ⟨m, rfl, hkept, ⟨rfl, hext, -⟩ | ⟨rfl, hsame, -⟩⟩ := ht
    · refine ends_ite (fun hzero => by omega) fun _ => ends_modify_bind (ends_pure ?_)
      exact ⟨⟨hkept.space, Nat.le_of_lt hlt, hext.sized h.sized (pages_mono (by omega)) hpk⟩, hext.resized h hpk⟩
    · have hsame := hsame (h.sized.unused hpk)
      refine ends_ite (fun _ => ends_pure ?_) fun hne => absurd rfl hne
      refine ⟨⟨hkept.space, h.size, fun q hq => ?_⟩, rfl, fun q _ => hsame.maps (slot q), fun q w hq hw => ?_⟩
      · change m.maps s.proc.pgdir (slot q) ≠ none ↔ _
        rw [hsame.maps]
        exact h.sized q hq
      · exact hsame.frames (slot q) w ((slot_user (by omega)).mpr hq) hw
  · -- `allocuvm` refuses a size that does not fit below the kernel
    have hrefuse : allocuvm l s.proc.pgdir s.proc.sz (s.proc.sz + k) = pure 0 := if_pos hge
    rw [hrefuse]
    refine Ends.bind (ends_onMem (Q := fun r m => r = 0 ∧ m = s.mem) (ends_pure ⟨rfl, rfl⟩)) fun r t ht => ?_
    obtain ⟨_, rfl, rfl, rfl⟩ := ht
    exact ends_pure ⟨h, rfl, fun _ _ => rfl, fun _ _ _ _ => rfl⟩

theorem Proper.shrink {m : Mem} {k : Nat} (h : Proper l s) (hk : k ≤ s.proc.sz)
    (hm : m = s.mem.scan s.proc.pgdir (pages s.proc.sz - pages k) (pages k)) :
    Proper l { mem := m, proc := { s.proc with sz := k } } ∧
    Resized (k - s.proc.sz) s { mem := m, proc := { s.proc with sz := k } } := by
  have hsz := pages_le h.size
  have hle := pages_mono hk
  have hlen : pages k + (pages s.proc.sz - pages k) ≤ 2 ^ 19 := by omega
  obtain ⟨hwithin, hunmapped, -⟩ := h.space.scan hlen
  rw [← hm] at hwithin hunmapped
  have hin : ∀ q < 2 ^ 19, InPages (pages k) (pages s.proc.sz - pages k) (slot q) ↔
      pages k ≤ q ∧ q < pages s.proc.sz := by
    intro q hq
    constructor
    · rintro ⟨q', hq', hqn, heq⟩
      have := slot_inj (by omega) (by omega) heq
      omega
    · rintro ⟨hqk, hqs⟩
      exact ⟨q, hqk, by omega, rfl⟩
  have hsized : Sized m s.proc.pgdir k := by
    intro q hq
    rw [hunmapped.maps]
    split
    · rename_i hout
      rw [hin q hq] at hout
      simp only [ne_eq, not_true_eq_false, false_iff]
      omega
    · rename_i hout
      rw [hin q hq] at hout
      rw [h.sized q hq]
      omega
  refine ⟨⟨hwithin.space, Nat.le_trans hk h.size, hsized⟩, rfl, ?_, hsized, fun q w hq hqk hw => ?_,
    fun q w hq hqk _ => ?_⟩
  · change (k : Int) = s.proc.sz + (k - s.proc.sz)
    omega
  · dsimp only at hqk
    have hout : ¬ InPages (pages k) (pages s.proc.sz - pages k) (slot q) := by
      rw [hin q (by omega)]
      omega
    refine ⟨by rw [hunmapped.maps, if_neg hout, hw], ?_⟩
    exact hunmapped.frame_user h.space (fun s hs => hs.user hlen) ((slot_user (by omega)).mpr (by omega)) hout hw
  · dsimp only at hqk
    omega

theorem growproc_less (h : Proper l s) (hn : n < 0) (hint : -2 ^ 31 ≤ n) :
    Ends Never (growproc l n) (fun b t =>
      if 0 < s.proc.sz + n then b = true ∧ Proper l t ∧ Resized n s t
      else if s.proc.sz + n = 0 then b = false ∧ t.proc = s.proc ∧ t.mem.maps t.proc.pgdir (slot 0) = none
      else b = decide (s.proc.sz ≠ 0) ∧ t = s) s := by
  have hsize : s.proc.sz ≤ 2 ^ 31 := h.size
  unfold growproc
  apply ends_get_bind
  dsimp only
  rw [if_neg (by omega), if_pos hn]
  by_cases hneg : s.proc.sz + n < 0
  · obtain ⟨k, hk⟩ : ∃ k : Nat, ((s.proc.sz : Int) + n) % 2 ^ 32 = k := ⟨_, (Int.toNat_of_nonneg (by omega)).symm⟩
    have hge : s.proc.sz ≤ k := by omega
    rw [hk, Int.toNat_natCast]
    refine Ends.bind (ends_onMem (deallocuvm_ends h.space h.size)) fun r t ht => ?_
    obtain ⟨m, rfl, hm⟩ := ht
    rw [if_neg (Nat.not_lt.mpr hge)] at hm
    obtain ⟨rfl, rfl⟩ := hm
    refine ends_ite (fun hzero => ends_pure ?_) fun hne => ends_modify_bind (ends_pure ?_)
    · rw [if_neg (by omega), if_neg (by omega)]
      simp [hzero]
    · rw [if_neg (by omega), if_neg (by omega)]
      simp [hne, Sys.setSz]
  · obtain ⟨k, hk⟩ : ∃ k : Nat, (s.proc.sz : Int) + n = k := ⟨_, (Int.toNat_of_nonneg (by omega)).symm⟩
    have hlt : k < s.proc.sz := by omega
    have hnew : (((s.proc.sz : Int) + n) % 2 ^ 32).toNat = k := by omega
    rw [hnew]
    refine Ends.bind (ends_onMem (deallocuvm_ends h.space h.size)) fun r t ht => ?_
    obtain ⟨m, rfl, hm⟩ := ht
    rw [if_pos hlt] at hm
    obtain ⟨rfl, hm⟩ := hm
    obtain ⟨hproper, hresized⟩ := h.shrink (Nat.le_of_lt hlt) hm
    refine ends_ite (fun hzero => ends_pure ?_) fun hne => ends_modify_bind (ends_pure ?_)
    · rw [if_neg (by omega), if_pos (by omega)]
      refine ⟨rfl, rfl, ?_⟩
      by_contra hne
      have := (hproper.sized 0 (by decide)).mp hne
      simp [hzero, pages] at this
    · rw [if_pos (by omega)]
      rw [show (r : Int) - s.proc.sz = n by omega] at hresized
      exact ⟨rfl, hproper, hresized⟩

/-- Whatever the size says of the pages, none is lost. -/
theorem growproc_within (h : Space l s.mem s.proc.pgdir) (hsz : s.proc.sz < kernbase) :
    Ends (fun _ => True) (growproc l n) (fun _ t =>
      Within l s.mem (some (.space s.proc.pgdir)) t.mem (some (.space t.proc.pgdir)) ∧ t.proc.sz < kernbase) s := by
  unfold growproc
  apply ends_get_bind
  refine ends_ite (fun _ => ?_) fun _ => ends_ite (fun _ => ?_) fun _ => ends_pure ⟨.refl h, hsz⟩
  · refine Ends.bind (ends_onMem (allocuvm_kept h)) fun r t ht => ?_
    obtain ⟨m, rfl, hkept, hr⟩ := ht
    exact ends_ite (fun _ => ends_pure ⟨hkept.toWithin, hsz⟩) fun _ =>
      ends_modify_bind (ends_pure ⟨hkept.toWithin, hr hsz⟩)
  · refine Ends.bind ((ends_onMem (deallocuvm_ends h (Nat.le_of_lt hsz))).allow nofun) fun r t ht => ?_
    obtain ⟨m, rfl, hm⟩ := ht
    have hwithin : Within l s.mem (some (.space s.proc.pgdir)) m (some (.space s.proc.pgdir)) ∧ r ≤ s.proc.sz := by
      split at hm
      · rename_i hlt
        have hpages := pages_le (Nat.le_of_lt hsz)
        have hless := pages_mono (Nat.le_of_lt hlt)
        rw [hm.1, hm.2]
        exact ⟨(h.scan (by omega)).1, Nat.le_of_lt hlt⟩
      · rw [hm.1, hm.2]
        exact ⟨.refl h, Nat.le_refl _⟩
    exact ends_ite (fun _ => ends_pure ⟨hwithin.1, hsz⟩) fun _ =>
      ends_modify_bind (ends_pure ⟨hwithin.1, Nat.lt_of_le_of_lt hwithin.2 hsz⟩)

theorem ends_sysSbrk {Q : Bool → Sys → Prop} (h : Ends Never (growproc l n) Q s) :
    Ends Never (sysSbrk l n) (fun r t => ∃ b, r = (if b then BitVec.ofNat 32 s.proc.sz else -1) ∧ Q b t) s := by
  unfold sysSbrk
  apply ends_get_bind
  refine Ends.bind h fun b t ht => ?_
  cases b with
  | true => exact ends_pure ⟨true, rfl, ht⟩
  | false => exact ends_pure ⟨false, rfl, ht⟩

theorem Untouched.refl : Untouched s s := ⟨rfl, fun _ _ => rfl, fun _ _ _ _ => rfl⟩

theorem Resized.refl (h : Proper l s) : Resized 0 s s :=
  ⟨rfl, (Int.add_zero _).symm, h.sized, fun _ _ _ _ hw => ⟨hw, rfl⟩, fun q _ hq hqs _ => absurd hqs (by omega)⟩

/-- The condition holds where `sbrk` adds memory, keeps some or has none to take away. -/
theorem sysSbrk_exact_iff (l : Link) (s : Sys) (n : Int) (h : Proper l s) (hint : -2 ^ 31 ≤ n ∧ n < 2 ^ 31) :
    ∃ r t, sysSbrk l n s = .ok (r, t) ∧
      (ExactOrNothing l n s r t ↔ 0 ≤ n ∨ 0 < s.proc.sz + n ∨ s.proc.sz = 0) := by
  have hsize : s.proc.sz ≤ 2 ^ 31 := h.size
  have hold : BitVec.ofNat 32 s.proc.sz ≠ -1 := by
    intro heq
    have := congrArg BitVec.toNat heq
    rw [BitVec.toNat_ofNat, Nat.mod_eq_of_lt (by omega)] at this
    have hlast : (-1 : Word).toNat = 2 ^ 32 - 1 := by decide
    omega
  rcases Int.lt_trichotomy n 0 with hneg | rfl | hpos
  · obtain ⟨r, t, hrun, b, hr, hpost⟩ := (ends_sysSbrk (growproc_less h hneg hint.1)).exists_ok fun _ => id
    refine ⟨r, t, hrun, ?_⟩
    rcases Int.lt_trichotomy (s.proc.sz + n) 0 with hwrap | hzero | hkeep
    · rw [if_neg (by omega), if_neg (by omega)] at hpost
      obtain ⟨rfl, rfl⟩ := hpost
      by_cases hsz : t.proc.sz = 0
      · simp only [hsz, ne_eq, not_true_eq_false, decide_false, Bool.false_eq_true, if_false] at hr
        exact iff_of_true ⟨.inr ⟨hr, .refl⟩, h.copyable⟩ (.inr (.inr hsz))
      · simp only [hsz, ne_eq, not_false_eq_true, decide_true, if_true] at hr
        refine iff_of_false ?_ (by omega)
        rintro ⟨⟨-, hresized⟩ | ⟨hminus, -⟩, -⟩
        · have := hresized.sz
          omega
        · exact hold (hr.symm.trans hminus)
    · -- the first page is below the size and no longer there
      rw [if_neg (by omega), if_pos hzero] at hpost
      obtain ⟨-, hproc, hgone⟩ := hpost
      refine iff_of_false (fun hexact => hexact.2.there 0 ?_ hgone) (by omega)
      rw [hproc]
      unfold pages
      omega
    · rw [if_pos hkeep] at hpost
      obtain ⟨rfl, hproper, hresized⟩ := hpost
      exact iff_of_true ⟨.inl ⟨hr, hresized⟩, hproper.copyable⟩ (.inr (.inl hkeep))
  · have hsame : Ends Never (growproc l 0) (fun b t => b = true ∧ t = s) s := by
      unfold growproc
      exact ends_get_bind (ends_pure ⟨rfl, rfl⟩)
    obtain ⟨r, t, hrun, b, hr, rfl, rfl⟩ := (ends_sysSbrk hsame).exists_ok fun _ => id
    exact ⟨r, t, hrun, iff_of_true ⟨.inl ⟨hr, .refl h⟩, h.copyable⟩ (.inl (Int.le_refl 0))⟩
  · obtain ⟨r, t, hrun, b, hr, hproper, hpost⟩ := (ends_sysSbrk (growproc_more h hpos hint.2)).exists_ok fun _ => id
    refine ⟨r, t, hrun, iff_of_true ⟨?_, hproper.copyable⟩ (.inl (Int.le_of_lt hpos))⟩
    cases b with
    | true => exact .inl ⟨hr, hpost⟩
    | false => exact .inr ⟨hr, hpost⟩

theorem onePageProc_proper : Proper smallLink onePageProc := by
  obtain ⟨hspace, hmaps, -⟩ := onePage_space
  refine ⟨hspace, by decide, fun q hq => ?_⟩
  change onePage.maps 0x200 (slot q) ≠ none ↔ q < pages 4096
  have hpages : pages 4096 = 1 := by decide
  rw [hmaps, hpages]
  split
  · rename_i heq
    have := slot_inj (by omega) (by decide) heq
    simp [this]
  · rename_i hne
    simp only [ne_eq, not_true_eq_false, false_iff, Nat.lt_one_iff]
    rintro rfl
    exact hne rfl

theorem sbrk_page_more : ∃ r t, sysSbrk smallLink 4096 onePageProc = .ok (r, t) ∧
    ExactOrNothing smallLink 4096 onePageProc r t := by
  obtain ⟨r, t, hrun, hiff⟩ := sysSbrk_exact_iff smallLink onePageProc 4096 onePageProc_proper (by decide)
  exact ⟨r, t, hrun, hiff.mpr (.inl (by decide))⟩

theorem sbrk_all_unmaps : Proper smallLink onePageProc ∧
    ∃ t, sysSbrk smallLink (-4096) onePageProc = .ok (-1, t) ∧ t.proc = onePageProc.proc ∧
      ¬ ExactOrNothing smallLink (-4096) onePageProc (-1) t := by
  refine ⟨onePageProc_proper, ?_⟩
  obtain ⟨r, t, hrun, b, hr, hpost⟩ :=
    (ends_sysSbrk (growproc_less (n := -4096) onePageProc_proper (by decide) (by decide))).exists_ok fun _ => id
  rw [if_neg (by decide), if_pos (by decide)] at hpost
  obtain ⟨rfl, hproc, hgone⟩ := hpost
  subst hr
  refine ⟨t, hrun, hproc, fun hexact => hexact.2.there 0 ?_ hgone⟩
  rw [hproc]
  decide

end Xv6.Paging
