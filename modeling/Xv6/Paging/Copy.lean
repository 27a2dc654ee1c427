import Xv6.Paging.Alloc
import Xv6.Paging.Kernel

/-!
# Copying an address space

`copyuvm` builds an address space of free pages, with the flags and the contents of another one.
-/

namespace Xv6.Paging

open Code Ownership

variable {l : Link} {m t u : Mem} {pgdir d x : Page} {s : Slot} {w : Word} {sz v : Nat}

/-! ## Giving an address space back -/

/-- The page tables of `t` have been freed, but for those in `is`. -/
structure Emptying (l : Link) (pgdir : Page) (t : Mem) (is : List (Fin 1024)) (u : Mem) : Prop where
  free : FreeList l u
  mem : ∀ x, x ∈ u.freelist ↔ x ∈ t.freelist ∨ ∃ i ∉ is, t.table pgdir i = some x
  frames : ∀ x, (∀ i, t.table pgdir i ≠ some x) → u.frame x = t.frame x

theorem Emptying.skip {i : Fin 1024} {is : List (Fin 1024)} (h : Emptying l pgdir t (i :: is) u)
    (hi : t.table pgdir i = none) : Emptying l pgdir t is u := by
  refine ⟨h.free,
    fun y => (h.mem y).trans (or_congr_right (exists_congr fun j => and_congr_left fun hj => ?_)), h.frames⟩
  have hne : j ≠ i := by
    rintro rfl
    rw [hi] at hj
    cases hj
  simp [hne]

theorem Emptying.next {i : Fin 1024} {is : List (Fin 1024)} (h : Emptying l pgdir t (i :: is) u) (ht : Space l t pgdir)
    (hi : i ∉ is) (hx : t.table pgdir i = some x) : Emptying l pgdir t is (u.freed x) := by
  obtain ⟨hin, hfree⟩ := ht.owned (.table i) x hx
  have hnew : x ∉ u.freelist := by
    rw [h.mem]
    rintro (hmem | ⟨j, hj, hjx⟩)
    · exact hfree hmem
    · exact hj (ht.table_inj hjx hx ▸ List.mem_cons_self)
  refine ⟨⟨List.nodup_cons.mpr ⟨hnew, h.free.nodup⟩, List.forall_mem_cons.mpr ⟨hin, h.free.inRange⟩⟩, fun y => ?_,
    fun y hy => (setFrame_ne _ _ ?_).trans (h.frames y hy)⟩
  · change y ∈ x :: u.freelist ↔ _
    rw [List.mem_cons, h.mem]
    constructor
    · rintro (rfl | hy | ⟨j, hj, hjy⟩)
      · exact .inr ⟨i, hi, hx⟩
      · exact .inl hy
      · exact .inr ⟨j, fun hin => hj (List.mem_cons_of_mem i hin), hjy⟩
    · rintro (hy | ⟨j, hj, hjy⟩)
      · exact .inr (.inl hy)
      · by_cases hji : j = i
        · rw [hji, hx] at hjy
          exact .inl (Option.some.inj hjy).symm
        · exact .inr (.inr ⟨j, by simp [hji, hj], hjy⟩)
  · rintro rfl
    exact hy i hx

theorem freevm_ends (h : Space l m pgdir) :
    Ends Never (freevm l pgdir) (fun _ t => Within l m (some (.space pgdir)) t none) m := by
  unfold freevm
  refine Ends.bind (deallocuvm_ends h (Nat.le_refl _)) fun _ t ht => ?_
  rw [if_pos (by decide)] at ht
  have hzero : pages 0 = 0 := rfl
  have hall : pages kernbase = 2 ^ 19 := by decide
  rw [hzero, hall, Nat.sub_zero] at ht
  obtain ⟨hwithin, hunmapped, -⟩ := h.scan (v := 0) (n := 2 ^ 19) (by decide)
  rw [← ht.2] at hwithin hunmapped
  have hspace := hwithin.space
  have huser : ∀ s, s.User → t.maps pgdir s = none := by
    intro s hs
    rw [hunmapped.maps, if_pos]
    exact ⟨s.page, Nat.zero_le _, by rw [Nat.zero_add, ← slot_user s.page_lt, slot_page]; exact hs, (slot_page s).symm⟩
  refine Ends.bind (R := fun _ u => Emptying l pgdir t [] u) ?_ fun _ u hu => ?_
  · refine (ends_forM (I := fun is u => is.Nodup ∧ Emptying l pgdir t is u) ⟨List.nodup_finRange 1024, ?_⟩
      fun i is u hu => ?_).mono fun _ _ hu => hu.2
    · exact ⟨hspace.toFreeList, fun x => by simp, fun _ _ => rfl⟩
    obtain ⟨his, hu⟩ := hu
    rw [List.nodup_cons] at his
    have hdir : u.frame pgdir = t.frame pgdir := hu.frames pgdir fun j hj => hspace.dir_ne_table hj rfl
    apply ends_get_bind
    refine ends_ite (fun hp => ?_) fun hp => ends_pure ⟨his.2, hu.skip ?_⟩
    · rw [Mem.word, hdir] at hp ⊢
      have htable : t.table pgdir i = some (pteAddr ((t.frame pgdir).word i)) := if_pos hp
      refine (kfree_ends (hspace.owned (.table i) _ htable).1).mono fun _ z hz => ⟨his.2, ?_⟩
      rw [hz]
      exact hu.next hspace his.1 htable
    · rw [Mem.word, hdir] at hp
      exact if_neg hp
  · obtain ⟨hin, hfree⟩ := hspace.owned .dir pgdir rfl
    refine (kfree_ends hin).mono fun _ z hz => ?_
    subst hz
    have hnew : pgdir ∉ u.freelist := by
      rw [hu.mem]
      rintro (hmem | ⟨i, -, hi⟩)
      · exact hfree hmem
      · exact hspace.dir_ne_table hi rfl
    have hback : ∀ x, Outside (pgdir :: u.freelist) (fun _ : Part => none) x ↔ Apart t pgdir x := by
      intro x
      rw [outside_cons]
      constructor
      · rintro ⟨⟨hx, -⟩, hdir⟩
        rw [hu.mem, not_or] at hx
        refine ⟨hx.1, fun p hp => ?_⟩
        cases p with
        | dir => exact hdir (Option.some.inj hp).symm
        | table i => exact hx.2 ⟨i, List.not_mem_nil, hp⟩
        | user s =>
          simp only [Mem.holds, Option.ite_none_right_eq_some] at hp
          rw [huser s hp.1] at hp
          cases hp.2
      · rintro ⟨hx, hheld⟩
        refine ⟨⟨?_, fun _ => Option.some_ne_none x ∘ Eq.symm⟩, fun hdir => hheld .dir (hdir ▸ rfl)⟩
        rw [hu.mem]
        rintro (hmem | ⟨i, -, hi⟩)
        · exact hx hmem
        · exact hheld (.table i) hi
    refine hwithin.trans ⟨⟨List.nodup_cons.mpr ⟨hnew, hu.free.nodup⟩, List.forall_mem_cons.mpr ⟨hin, hu.free.inRange⟩⟩,
      hback, fun x hx => (setFrame_ne _ _ ?_).trans (hu.frames x fun i => hx.not_held (.table i))⟩
    rintro rfl
    exact hx.not_held .dir rfl

/-! ## `copyuvm` -/

def InUse (m : Mem) (pgdir : Page) : Prop := ∀ p x, m.holds pgdir p = some x → x ∉ m.freelist

theorem Fresh.sameTables (h : Fresh l m d t) (hp : InUse m pgdir) : SameTables pgdir m t :=
  ⟨h.frame (hp .dir pgdir rfl), fun i x hx => h.frame (hp (.table i) x hx)⟩

/-- The free pages that a copy of the first `v` pages takes, one for each page and each page table. -/
def copied (v : Nat) : Nat := v + (v + 1023) / 1024

structure Copied (l : Link) (pgdir d : Page) (m : Mem) (v : Nat) (t : Mem) : Prop where
  fresh : Fresh l m d t
  count : t.freelist.length + copied v + 65 = m.freelist.length
  tables : ∀ i : Fin 1024, i.val < 512 → (t.table d i = none ↔ v ≤ 1024 * i.val)
  below : ∀ q < v, ∀ w, m.maps pgdir (slot q) = some w → ∃ w', t.maps d (slot q) = some w' ∧
    pteFlags w' = pteFlags w ∧ t.frame (pteAddr w') = m.frame (pteAddr w)
  above : ∀ q, v ≤ q → q < 2 ^ 19 → t.maps d (slot q) = none
  kernel : ∀ q, 2 ^ 19 ≤ q → q < 2 ^ 20 → t.maps d (slot q) = kernelEntry l q

theorem Copied.table_none_iff (h : Copied l pgdir d m v t) (hv : v < 2 ^ 19) :
    t.table d (slot v).1 = none ↔ v % 1024 = 0 := by
  have hval : (slot v).1.val = v / 1024 := Nat.mod_eq_of_lt (by omega)
  rw [h.tables (slot v).1 (by omega), hval]
  omega

theorem Copied.next {mem : Page} {t' u : Mem} (h : Copied l pgdir d m v t) (hv : v < 2 ^ 19)
    (hw : m.maps pgdir (slot v) = some w) (hpresent : Present w) (ht : Taken l d mem (m.frame (pteAddr w)) t t')
    (hlength : t'.freelist.length + 1 = t.freelist.length) (hu : Mapped l d v mem (pteFlags w) t' u) :
    Copied l pgdir d m (v + 1) u := by
  have hmaps : ∀ q, q < 2 ^ 20 → q ≠ v → u.maps d (slot q) = t.maps d (slot q) := by
    intro q hq hne
    rw [hu.maps, if_neg fun heq => hne (slot_inj hq (by omega) heq)]
    exact ht.same.maps _
  refine ⟨h.fresh.trans (ht.mapped hu hv).toWithin, ?_, fun i hi => ?_, fun q hq w' hw' => ?_, fun q hq hq19 => ?_,
    fun q hq hq20 => ?_⟩
  · have hfree := hu.free
    have hcount := h.count
    simp only [ht.same.table, h.table_none_iff hv] at hfree
    unfold copied at hcount ⊢
    split at hfree <;> omega
  · have hval : (slot v).1.val = v / 1024 := Nat.mod_eq_of_lt (by omega)
    rw [hu.table, ht.same.table, h.tables i hi, ne_eq, Fin.ext_iff, hval]
    omega
  · by_cases hqv : q = v
    · subst hqv
      obtain rfl : w = w' := Option.some.inj (hw.symm.trans hw')
      refine ⟨_, by rw [hu.maps, if_pos rfl], ?_, ?_⟩
      · rw [pteFlags_mapped ht.inRange.lt (pteFlags_lt w), pteFlags_or hpresent]
      · rw [pteAddr_mapped ht.inRange.lt (pteFlags_lt w), hu.grown.frame_apart ht.own, ht.filled]
    · obtain ⟨w1, hw1, hflags, hcontents⟩ := h.below q (by omega) w' hw'
      have hquser : (slot q).User := (slot_user (by omega)).mpr (by omega)
      refine ⟨w1, by rw [hmaps q (by omega) hqv, hw1], hflags, ?_⟩
      have hw1' := (ht.same.maps _).trans hw1
      rw [hu.grown.frame_user ht.space hquser hw1', ht.frames, hcontents]
      rintro rfl
      exact ht.own.not_held (.user (slot q)) (holds_of_maps hquser hw1')
  · rw [hmaps q (by omega) (by omega)]
    exact h.above q (by omega) hq19
  · rw [hmaps q hq20 (by omega)]
    exact h.kernel q hq hq20

/-- With so many free pages `copyuvm` loses none when it fails: the kernel part can be had or nothing can, and the
pages do not run out when a page table is next. -/
def Copies (free sz : Nat) : Prop := free = 0 ∨ 65 ≤ free ∧ ∀ i, 1024 * i < pages sz → free ≠ 1025 * i + 66

theorem copyLoop_ends {E : Stop → Prop} {fuel : Nat} (huse : InUse m pgdir) (hsz : sz ≤ 2 ^ 31)
    (hthere : (∀ q < pages sz, m.maps pgdir (slot q) ≠ none) ∨ ∀ e, E e) (h : Copied l pgdir d m v t)
    (hv : v ≤ pages sz) (hfuel : pages sz - v < fuel) :
    Ends E (copyLoop pgdir d sz fuel (v * 4096)) (fun b u => match b with
      | true => Copied l pgdir d m (pages sz) u
      | false => Space l u d ∧ m.freelist.length ≤ 1025 + pages sz ∧
        (Copies m.freelist.length sz → Fresh l m d u)) t := by
  induction fuel generalizing t v with
  | zero => omega
  | succ fuel ih =>
    have hpages := pages_le hsz
    have hcount := h.count
    unfold copyLoop
    refine ends_ite (fun hlt => ?_) fun hge => ?_
    · rw [lt_pages] at hlt
      have hdiv : v * 4096 / 4096 = v := Nat.mul_div_cancel v (by decide)
      have huser : (slot v).User := (slot_user (by omega)).mpr (by omega)
      have hsame := h.fresh.sameTables huse
      have habsent : t.maps pgdir (slot v) = none → ∀ e, E e := by
        rw [hsame.maps]
        exact fun hnone => hthere.resolve_left fun hall => hall v hlt hnone
      refine Ends.bind ((walkpgdir_reads _).allow nofun) fun o t' ht' => ?_
      obtain ⟨rfl, rfl⟩ := ht'
      rw [pdx_eq, hdiv]
      cases hx : t'.table pgdir (slot v).1 with
      | none => exact ends_stop (habsent (maps_eq_none_of_table hx) _)
      | some x =>
        dsimp only
        rw [ptx_eq, hdiv]
        apply ends_get_bind
        refine ends_ite (fun hnot => ends_stop (habsent (maps_eq_none_of_absent hx (not_not.mpr hnot)) _))
          fun hpresent => ?_
        have hw : m.maps pgdir (slot v) = some _ :=
          (hsame.maps _).symm.trans ((maps_eq_some_of_table hx).mpr ⟨rfl, hpresent⟩)
        generalize t'.word x (slot v).2 = w at *
        have hwframe := h.fresh.frame (huse (.user (slot v)) _ (holds_of_maps huser hw))
        refine Ends.bind (kalloc_ends.allow nofun) fun o t1 ht1 => ?_
        cases o with
        | none =>
          rw [ht1.2, List.length_nil] at hcount
          rw [ht1.1]
          refine ends_pure ⟨h.fresh.space, ?_, fun _ => h.fresh⟩
          unfold copied at hcount
          omega
        | some mem =>
          obtain ⟨next, hnext, rfl⟩ := ht1
          have htaken := h.fresh.space.taken hnext (m.frame (pteAddr w))
          have hlength : (Mem.setFrame { t' with freelist := next } mem (m.frame (pteAddr w))).freelist.length + 1 =
              t'.freelist.length := by
            rw [hnext]
            rfl
          apply ends_modify_bind
          have hmove : Mem.memmove { t' with freelist := next } mem (pteAddr w) =
              Mem.setFrame { t' with freelist := next } mem (m.frame (pteAddr w)) := by
            unfold Mem.memmove
            rw [← hwframe]
          rw [hmove]
          generalize Mem.setFrame { t' with freelist := next } mem (m.frame (pteAddr w)) = t2 at *
          refine Ends.bind (mappages_user htaken.space (by omega)
            (.inl ((htaken.same.maps _).trans (h.above v (Nat.le_refl v) (by omega)))) htaken.own htaken.inRange
            (pteFlags_lt w)) fun b u hu => ?_
          cases b with
          | false =>
            simp only [Bool.false_eq_true, if_false] at hu ⊢
            obtain ⟨rfl, hempty, htable⟩ := hu
            -- the page in hand is lost
            rw [htaken.same.table, h.table_none_iff (by omega)] at htable
            rw [hempty, List.length_nil] at hlength
            unfold copied at hcount
            refine ends_pure ⟨htaken.space, by omega, fun hcopies => ?_⟩
            rcases hcopies with hzero | ⟨-, hrun⟩
            · omega
            · exact absurd (by omega) (hrun (v / 1024) (by omega))
          | true =>
            simp only [if_true] at hu ⊢
            have hpage : (v * 4096 + pgsize) % 2 ^ 32 = (v + 1) * 4096 := next_page (by omega)
            rw [hpage]
            exact ih (h.next (by omega) hw hpresent htaken hlength hu) (by omega) (by omega)
    · rw [lt_pages] at hge
      refine ends_pure ?_
      dsimp only
      rwa [show pages sz = v by omega]

theorem copyuvm_ends {E : Stop → Prop} (hfree : FreeList l m) (huse : InUse m pgdir) (hsz : sz ≤ 2 ^ 31)
    (hthere : (∀ q < pages sz, m.maps pgdir (slot q) ≠ none) ∨ ∀ e, E e) :
    Ends E (copyuvm l pgdir sz) (fun r t => match r with
      | none => m.freelist.length ≤ 1025 + pages sz ∧ (Copies m.freelist.length sz → Within l m none t none)
      | some d => Copied l pgdir d m (pages sz) t) m := by
  unfold copyuvm
  refine Ends.bind ((setupkvm_ends hfree).allow nofun) fun o t ht => ?_
  cases o with
  | none =>
    refine ends_pure ⟨by omega, fun hcopies => ?_⟩
    rcases hcopies with hzero | ⟨hmany, -⟩
    · rw [ht.2 (List.length_eq_zero_iff.mp hzero)]
      exact .refl hfree
    · omega
  | some d =>
    obtain ⟨hfresh, hlength, hlow, hmaps⟩ := ht
    have hpages := pages_le hsz
    have hstart : Copied l pgdir d m 0 t := by
      refine ⟨hfresh, hlength, fun i hi => by simp [hlow i hi], nofun, fun q _ hq => ?_, fun q _ hq => hmaps q hq⟩
      rw [hmaps q (by omega), kernelEntry_user hq]
    have hturns : pages sz - 0 < turns := by
      rw [turns_eq]
      omega
    have hloop := copyLoop_ends huse hsz hthere hstart (Nat.zero_le _) hturns
    rw [Nat.zero_mul] at hloop
    refine Ends.bind hloop fun b u hu => ?_
    cases b with
    | false =>
      obtain ⟨hspace, hlong, hback⟩ := hu
      refine Ends.bind ((freevm_ends hspace).allow nofun) fun _ z hz => ends_pure ⟨hlong, fun hcopies => ?_⟩
      exact (hback hcopies).trans hz
    | true => exact ends_pure hu

/-- `copyuvm` maps the pages below the size, with flags and contents, in new pages, and leaves the old address space
as it is. With enough memory it does. -/
theorem copyuvm_isolated (l : Link) (m : Mem) (pgdir : Page) (sz : Nat) (hfree : FreeList l m) (huse : InUse m pgdir)
    (hsz : sz < kernbase) (hthere : ∀ q < pages sz, m.maps pgdir (slot q) ≠ none) :
    ∃ r t, copyuvm l pgdir sz m = .ok (r, t) ∧ (1025 + pages sz < m.freelist.length → r ≠ none) ∧ ∀ d, r = some d →
      (∀ q < pages sz, ∃ w w', m.maps pgdir (slot q) = some w ∧ t.maps d (slot q) = some w' ∧
        pteFlags w' = pteFlags w ∧ t.frame (pteAddr w') = m.frame (pteAddr w)) ∧
      (∀ q, pages sz ≤ q → q < pages kernbase → t.maps d (slot q) = none) ∧
      (∀ s s' w w', s.User → s'.User → t.maps d s = some w → t.maps d s' = some w' → pteAddr w = pteAddr w' → s = s') ∧
      (∀ s w p x, s.User → t.maps d s = some w → m.holds pgdir p = some x → pteAddr w ≠ x) ∧
      (∀ m' d' t', FreeList l m' → setupkvm l m' = .ok (some d', t') →
        ∀ s, ¬ s.User → t.maps d s = t'.maps d' s) ∧
      (∀ p x, m.holds pgdir p = some x → t.frame x = m.frame x) ∧ t.maps pgdir = m.maps pgdir := by
  obtain ⟨r, t, ht, hpost⟩ := (copyuvm_ends (E := Never) hfree huse (Nat.le_of_lt hsz) (.inl hthere)).exists_ok
    fun _ => id
  refine ⟨r, t, ht, fun hlong hnone => ?_, fun d hd => ?_⟩
  · subst hnone
    exact Nat.not_lt.mpr hpost.1 hlong
  subst hd
  have h : Copied l pgdir d m (pages sz) t := hpost
  refine ⟨fun q hq => ?_, fun q hq hq19 => h.above q hq ?_, fun s s' w w' hs hs' hw hw' heq => ?_,
    fun s w p x hs hw hp heq => ?_, fun m' d' t' hfree' ht' s hs => ?_, fun p x hp => ?_, ?_⟩
  · obtain ⟨w, hw⟩ := Option.ne_none_iff_exists'.mp (hthere q hq)
    obtain ⟨w', hw', hflags, hcontents⟩ := h.below q hq w hw
    exact ⟨w, w', hw, hw', hflags, hcontents⟩
  · exact Nat.lt_of_lt_of_le hq19 (pages_le (Nat.le_refl _))
  · have hheld := holds_of_maps hs hw
    rw [heq] at hheld
    cases h.fresh.space.once _ _ _ hheld (holds_of_maps hs' hw')
    rfl
  · exact huse p x hp (h.fresh.held (p := .user s) (by rw [← heq]; exact holds_of_maps hs hw))
  · obtain ⟨-, -, -, hmaps⟩ := (setupkvm_ends hfree').of_ok ht'
    have hpage : 2 ^ 19 ≤ s.page := by
      by_contra hlt
      refine hs ?_
      rw [← slot_page s, slot_user s.page_lt]
      omega
    rw [← slot_page s, h.kernel s.page hpage s.page_lt, hmaps s.page s.page_lt]
  · exact h.fresh.frame (huse p x hp)
  · exact funext (h.fresh.sameTables huse).maps

/-- An address space of a few pages, from the calls that make one. -/
theorem allocuvm_clearMem {k : Nat} (hk : k ≤ 16) : ∃ d t r m, setupkvm smallLink clearMem = .ok (some d, t) ∧
    allocuvm smallLink d 0 (k * 4096) t = .ok (r, m) ∧ Space smallLink m d ∧ 2048 ≤ m.freelist.length ∧
    ∀ q < k, ∃ y, m.maps d (slot q) = some (entry y userPerm) ∧ InRange smallLink y := by
  obtain ⟨d, t, ht⟩ := setupkvm_clearMem
  obtain ⟨hfresh, hcount, -, hmaps⟩ := (setupkvm_ends clearMem_free).of_ok ht
  have hlength : clearMem.freelist.length = 0x1000 := List.length_range'
  have hzero : pages 0 = 0 := rfl
  have hpages : pages (k * 4096) = k := by
    unfold pages
    omega
  have hunused : Unused t d (pages 0) (pages (k * 4096)) := fun q _ hq => by
    rw [hmaps q (by omega), kernelEntry_user (by omega)]
  have hsize : k * 4096 < kernbase := show k * 4096 < 0x80000000 by omega
  obtain ⟨r, m, hm, hpost⟩ :=
    (allocuvm_ends (E := Never) hfresh.space (Nat.zero_le _) hsize (.inl hunused)).exists_ok fun _ => id
  have hroom : t.freelist.length ≤ t.room d := Nat.le_add_right _ _
  rcases hpost.result with ⟨-, hextended, htotal⟩ | ⟨-, -, hfull⟩
  · have htables := room_le m d
    refine ⟨d, t, r, m, ht, hm, hpost.kept.space, by omega, fun q hq => ?_⟩
    obtain ⟨y, hy, -, hin, -⟩ := hextended.added q (Nat.zero_le q) (by omega)
    exact ⟨y, hy, hin⟩
  · omega

theorem copyuvm_threePages : ∃ m pgdir d t, copyuvm smallLink pgdir 12000 m = .ok (some d, t) ∧
    ∀ q < 3, ∃ w w', m.maps pgdir (slot q) = some w ∧ t.maps d (slot q) = some w' ∧ pteFlags w' = pteFlags w ∧
      pteAddr w' ≠ pteAddr w ∧ t.frame (pteAddr w') = m.frame (pteAddr w) := by
  obtain ⟨pgdir, -, -, m, -, -, hspace, hfree, hmaps⟩ := allocuvm_clearMem (show 3 ≤ 16 by decide)
  have hpages : pages 12000 = 3 := by decide
  have hthere : ∀ q < pages 12000, m.maps pgdir (slot q) ≠ none := by
    intro q hq
    obtain ⟨y, hy, -⟩ := hmaps q (by omega)
    rw [hy]
    nofun
  obtain ⟨r, t, ht, hroom, hcopy⟩ := copyuvm_isolated smallLink m pgdir 12000 hspace.toFreeList
    (fun p x hp => (hspace.owned p x hp).2) (by decide) hthere
  obtain ⟨d, rfl⟩ := Option.ne_none_iff_exists'.mp (hroom (by omega))
  obtain ⟨hsame, -, -, hapart, -⟩ := hcopy d rfl
  refine ⟨m, pgdir, d, t, ht, fun q hq => ?_⟩
  obtain ⟨w, w', hw, hw', hflags, hframe⟩ := hsame q (by omega)
  have huser : (slot q).User := (slot_user (by omega)).mpr (by omega)
  exact ⟨w, w', hw, hw', hflags, hapart (slot q) w' (.user (slot q)) _ huser hw' (holds_of_maps huser hw), hframe⟩

end Xv6.Paging
