import Xv6.Paging.Map

/-!
# Unmapping pages

`deallocuvm` and the plain scan over the pages.
-/

namespace Xv6.Paging

open Code Ownership

/-! ## The scan -/

def Mem.unmap (m : Mem) (pgdir : Page) (s : Slot) : Mem :=
  match m.table pgdir s.1 with
  | none => m
  | some x => if Present (m.word x s.2) then (m.freed (pteAddr (m.word x s.2))).setWord x s.2 0 else m

def Mem.scan (m : Mem) (pgdir : Page) : (n v : Nat) → Mem
  | 0, _ => m
  | n + 1, v => (m.unmap pgdir (slot v)).scan pgdir n (v + 1)

def Mem.frames (m : Mem) (pgdir : Page) : (n v : Nat) → List Page
  | 0, _ => []
  | n + 1, v => ((m.maps pgdir (slot v)).map pteAddr).toList ++ m.frames pgdir n (v + 1)

/-- The pages in `P` that were there are freed, their entries are cleared, and that is all. -/
structure Unmapped (pgdir : Page) (P : Slot → Prop) (m t : Mem) : Prop where
  table : ∀ i, t.table pgdir i = m.table pgdir i
  cleared : ∀ s w, P s → m.maps pgdir s = some w → t.pte pgdir s = some 0
  others : ∀ s, (P s → m.maps pgdir s = none) → t.pte pgdir s = m.pte pgdir s
  junk : ∀ s w, P s → m.maps pgdir s = some w → t.frame (pteAddr w) = fun _ => 1
  frames : ∀ x, (∀ i, m.table pgdir i ≠ some x) → (∀ s w, P s → m.maps pgdir s = some w → pteAddr w ≠ x) →
    t.frame x = m.frame x

variable {l : Link} {m t u : Mem} {pgdir x : Page} {s : Slot} {w : Word} {P Q : Slot → Prop}

namespace Unmapped

theorem of_none (h : ∀ s, P s → m.maps pgdir s = none) : Unmapped pgdir P m m := by
  refine ⟨fun _ => rfl, fun s w hs hw => ?_, fun _ _ => rfl, fun s w hs hw => ?_, fun _ _ _ => rfl⟩ <;>
    rw [h s hs] at hw <;> cases hw

theorem maps (h : Unmapped pgdir P m t) [DecidablePred P] (s : Slot) :
    t.maps pgdir s = if P s then none else m.maps pgdir s := by
  by_cases hs : P s ∧ m.maps pgdir s ≠ none
  · obtain ⟨hP, hne⟩ := hs
    obtain ⟨w, hw⟩ := Option.ne_none_iff_exists'.mp hne
    rw [if_pos hP, Mem.maps, h.cleared s w hP hw]
    rfl
  · rw [Mem.maps, h.others s fun hP => by_contra fun hne => hs ⟨hP, hne⟩]
    split
    · rename_i hP
      exact by_contra fun hne => hs ⟨hP, hne⟩
    · rfl

theorem trans (h : Unmapped pgdir P m t) (h' : Unmapped pgdir Q t u) (hm : Space l m pgdir)
    (hP : ∀ s, P s → s.User) (hQ : ∀ s, Q s → s.User) : Unmapped pgdir (fun s => P s ∨ Q s) m u := by
  classical
  have hmaps := h.maps
  -- what is mapped after the first part was mapped before
  have hback : ∀ s w, t.maps pgdir s = some w → ¬ P s ∧ m.maps pgdir s = some w := by
    intro s w hw
    rw [hmaps] at hw
    split at hw
    · cases hw
    · exact ⟨‹_›, hw⟩
  refine ⟨fun i => (h'.table i).trans (h.table i), fun s w hs hw => ?_, fun s hs => ?_, fun s w hs hw => ?_,
    fun x hx hfree => ?_⟩
  · by_cases hPs : P s
    · have hnone : t.maps pgdir s = none := by rw [hmaps, if_pos hPs]
      rw [h'.others s fun _ => hnone, h.cleared s w hPs hw]
    · have hsome : t.maps pgdir s = some w := by rw [hmaps, if_neg hPs, hw]
      exact h'.cleared s w (hs.resolve_left hPs) hsome
  · rw [h'.others s fun hQs => ?_, h.others s fun hPs => hs (.inl hPs)]
    rw [hmaps]
    split
    · rfl
    · exact hs (.inr hQs)
  · by_cases hPs : P s
    · rw [h'.frames (pteAddr w) (fun i hi => ?_) fun s' w' hs' hw' heq => ?_, h.junk s w hPs hw]
      · rw [h.table] at hi
        cases hm.once (.user s) (.table i) _ (holds_of_maps (hP s hPs) hw) hi
      · obtain ⟨hnot, hw'⟩ := hback s' w' hw'
        have hheld := holds_of_maps (hQ s' hs') hw'
        rw [heq] at hheld
        cases hm.once (.user s) (.user s') _ (holds_of_maps (hP s hPs) hw) hheld
        exact hnot hPs
    · exact h'.junk s w (hs.resolve_left hPs) (by rw [hmaps, if_neg hPs, hw])
  · rw [h'.frames x (fun i => by rw [h.table]; exact hx i) fun s w hs hw => ?_,
      h.frames x hx fun s w hs hw => hfree s w (.inl hs) hw]
    exact hfree s w (.inr hs) (hback s w hw).2

theorem congr (h : Unmapped pgdir P m t) (hPQ : ∀ s, P s ↔ Q s) : Unmapped pgdir Q m t := by
  rwa [show Q = P from funext fun s => propext (hPQ s).symm]

end Unmapped

/-! ## One page -/

theorem unmap_none (h : m.maps pgdir s = none) : m.unmap pgdir s = m := by
  unfold Mem.unmap
  split
  · rfl
  · rename_i x hx
    rw [if_neg fun hp => ?_]
    rw [(maps_eq_some_of_table hx).mpr ⟨rfl, hp⟩] at h
    cases h

theorem unmap_some (hx : m.table pgdir s.1 = some x) (hw : m.maps pgdir s = some w) :
    m.unmap pgdir s = (m.freed (pteAddr w)).setWord x s.2 0 := by
  obtain ⟨rfl, hp⟩ := (maps_eq_some_of_table hx).mp hw
  simp only [Mem.unmap, hx]
  exact if_pos hp

theorem freed_setWord (i : Fin 1024) {y : Page} (hne : x ≠ y) :
    (m.freed y).setWord x i 0 = (m.setWord x i 0).freed y := by
  simp only [Mem.freed, Mem.setWord, Mem.memset, Mem.setFrame, Mem.mk.injEq, true_and]
  rw [Function.update_of_ne hne, Function.update_comm hne]

theorem freed_sameTables {y : Page} (h : Apart m pgdir y) : SameTables pgdir m (m.freed y) := by
  have := h.sameTables fun _ => 1
  exact ⟨this.dir, this.tables⟩

theorem Space.unmap (h : Space l m pgdir) (hs : s.User) :
    Within l m (some (.space pgdir)) (m.unmap pgdir s) (some (.space pgdir)) ∧
    Unmapped pgdir (· = s) m (m.unmap pgdir s) ∧
    (m.unmap pgdir s).freelist = ((m.maps pgdir s).map pteAddr).toList ++ m.freelist := by
  cases hw : m.maps pgdir s with
  | none =>
    rw [unmap_none hw]
    exact ⟨.refl h, .of_none fun _ heq => heq ▸ hw, rfl⟩
  | some w =>
    obtain ⟨x, hx, -, -⟩ := table_of_maps hw
    have hheld := holds_of_maps hs hw
    have hne : x ≠ pteAddr w := by
      rintro rfl
      cases h.once (.user s) (.table s.1) _ hheld hx
    rw [unmap_some hx hw, freed_setWord s.2 hne]
    obtain ⟨hspace, hapart⟩ := h.dropPage hx hs hw
    have hsame := freed_sameTables hapart
    have htable : ∀ i, ((m.setWord x s.2 0).freed (pteAddr w)).table pgdir i = m.table pgdir i :=
      fun i => (hsame.table i).trans (table_setWord (h.dir_ne_table hx) i)
    have hpte : ∀ s', ((m.setWord x s.2 0).freed (pteAddr w)).pte pgdir s' =
        if s' = s then some 0 else m.pte pgdir s' :=
      fun s' => (hsame.pte s').trans (pte_setWord h hx s')
    have hholds :
        ((m.setWord x s.2 0).freed (pteAddr w)).holds pgdir = Function.update (m.holds pgdir) (.user s) none := by
      rw [hsame.holds, holds_setWord h hx hs, if_neg not_present_zero]
    have hframe : ∀ y, y ≠ pteAddr w → y ≠ x → ((m.setWord x s.2 0).freed (pteAddr w)).frame y = m.frame y :=
      fun y hyw hyx => (setFrame_ne _ _ hyw).trans (setFrame_ne _ _ hyx)
    refine ⟨⟨hspace.give hapart (h.owned _ _ hheld).1 rfl hsame.holds, fun y => ?_, fun y hy => hframe y ?_ ?_⟩,
      ⟨htable, ?_, fun s' hs' => ?_, ?_, ?_⟩, rfl⟩
    · change Outside (pteAddr w :: m.freelist) (((m.setWord x s.2 0).freed (pteAddr w)).holds pgdir) y ↔ _
      rw [hholds]
      exact outside_give hheld
    · rintro rfl
      exact hy.not_held (.user s) hheld
    · rintro rfl
      exact hy.not_held (.table s.1) hx
    · rintro s' w' rfl -
      rw [hpte, if_pos rfl]
    · rw [hpte, if_neg]
      rintro rfl
      rw [hs' rfl] at hw
      cases hw
    · rintro s' w' rfl hw'
      rw [hw, Option.some.injEq] at hw'
      subst hw'
      exact setFrame_self _ _ _
    · refine fun y hy hfree => hframe y (fun heq => hfree s w rfl hw heq.symm) ?_
      rintro rfl
      exact hy s.1 hx

/-! ## All pages of a range -/

def InPages (v n : Nat) (s : Slot) : Prop := ∃ q, v ≤ q ∧ q < v + n ∧ s = slot q

instance (v n : Nat) : DecidablePred (InPages v n) := fun s =>
  decidable_of_iff (∃ k < n, s = slot (v + k))
    ⟨fun ⟨k, hk, hs⟩ => ⟨v + k, by omega, by omega, hs⟩,
      fun ⟨q, hv, hq, hs⟩ => ⟨q - v, by omega, by rw [show v + (q - v) = q by omega]; exact hs⟩⟩

theorem frames_congr {n v : Nat} (h : ∀ q, v ≤ q → q < v + n → t.maps pgdir (slot q) = m.maps pgdir (slot q)) :
    t.frames pgdir n v = m.frames pgdir n v := by
  induction n generalizing v with
  | zero => rfl
  | succ n ih =>
    rw [Mem.frames, Mem.frames, h v (Nat.le_refl v) (by omega), ih fun q hq hqn => h q (by omega) (by omega)]

theorem InPages.user {n v : Nat} (h : InPages v n s) (hvn : v + n ≤ 2 ^ 19) : s.User := by
  obtain ⟨q, hq, hqn, rfl⟩ := h
  exact (slot_user (by omega)).mpr (by omega)

theorem Unmapped.frame_user (h : Unmapped pgdir P m t) (hm : Space l m pgdir) (hP : ∀ s, P s → s.User) (hs : s.User)
    (hout : ¬ P s) (hw : m.maps pgdir s = some w) : t.frame (pteAddr w) = m.frame (pteAddr w) := by
  have hheld := holds_of_maps hs hw
  refine h.frames (pteAddr w) (fun i hi => ?_) fun s' w' hs' hw' heq => ?_
  · cases hm.once (.user s) (.table i) _ hheld hi
  · have hheld' := holds_of_maps (hP s' hs') hw'
    rw [heq] at hheld'
    cases hm.once (.user s) (.user s') _ hheld hheld'
    exact hout hs'

theorem Space.scan {n v : Nat} (h : Space l m pgdir) (hvn : v + n ≤ 2 ^ 19) :
    Within l m (some (.space pgdir)) (m.scan pgdir n v) (some (.space pgdir)) ∧
    Unmapped pgdir (InPages v n) m (m.scan pgdir n v) ∧
    (m.scan pgdir n v).freelist = (m.frames pgdir n v).reverse ++ m.freelist := by
  induction n generalizing m v with
  | zero =>
    refine ⟨.refl h, .of_none fun s hs => ?_, rfl⟩
    obtain ⟨q, hq, hqv, -⟩ := hs
    omega
  | succ n ih =>
    have huser : (slot v).User := (slot_user (by omega)).mpr (by omega)
    obtain ⟨hwithin, hone, hfree⟩ := h.unmap huser
    obtain ⟨hwithin', hrest, hfree'⟩ := ih hwithin.sound (v := v + 1) (by omega)
    refine ⟨hwithin.trans hwithin', (hone.trans hrest h ?_ ?_).congr fun s => ?_, ?_⟩
    · rintro s rfl
      exact huser
    · rintro s ⟨q, hq, hqn, rfl⟩
      exact (slot_user (by omega)).mpr (by omega)
    · constructor
      · rintro (rfl | ⟨q, hq, hqn, rfl⟩)
        · exact ⟨v, Nat.le_refl v, by omega, rfl⟩
        · exact ⟨q, by omega, by omega, rfl⟩
      · rintro ⟨q, hq, hqn, rfl⟩
        rcases Nat.eq_or_lt_of_le hq with rfl | hlt
        · exact .inl rfl
        · exact .inr ⟨q, by omega, by omega, rfl⟩
    · rw [Mem.scan, hfree', hfree, frames_congr (t := m.unmap pgdir (slot v)) (m := m) fun q hq hqn => ?_, Mem.frames,
        List.reverse_append]
      · cases m.maps pgdir (slot v) with
        | none => simp
        | some w => simp
      · rw [hone.maps, if_neg]
        intro heq
        have := slot_inj (by omega) (by omega) heq
        omega

/-! ## The loop -/

theorem scan_none {n v : Nat} (h : ∀ q, v ≤ q → q < v + n → m.maps pgdir (slot q) = none) : m.scan pgdir n v = m := by
  induction n generalizing v with
  | zero => rfl
  | succ n ih =>
    rw [Mem.scan, unmap_none (h v (Nat.le_refl v) (by omega))]
    exact ih fun q hq hqn => h q (by omega) (by omega)

theorem scan_add (m : Mem) (pgdir : Page) (k n v : Nat) :
    m.scan pgdir (k + n) v = (m.scan pgdir k v).scan pgdir n (v + k) := by
  induction k generalizing m v with
  | zero => rw [Nat.zero_add]; rfl
  | succ k ih => rw [show k + 1 + n = k + n + 1 by omega, Mem.scan, ih, Mem.scan, show v + 1 + k = v + (k + 1) by omega]

theorem jump {v : Nat} (hv : v < 2 ^ 19) :
    (pgaddr ((slot v).1.val + 1) 0 0 + (2 ^ 32 - pgsize) + pgsize) % 2 ^ 32 = (v / 1024 + 1) * 1024 * 4096 := by
  change (((v / 1024 % 1024 + 1) * 2 ^ 22 + 0 * 2 ^ 12 + 0) % 2 ^ 32 + (2 ^ 32 - 4096) + 4096) % 2 ^ 32 = _
  omega

theorem deallocLoop_ends {oldsz hi n v : Nat} (h : Space l m pgdir) (hhi : hi ≤ 2 ^ 19) (hv : v < 2 ^ 20)
    (hold : ∀ q, q * 4096 < oldsz ↔ q < hi) (hn : hi - v < n) :
    Ends Never (deallocLoop l pgdir oldsz n (v * 4096)) (fun _ t => t = m.scan pgdir (hi - v) v) m := by
  induction n generalizing m v with
  | zero => omega
  | succ n ih =>
    unfold deallocLoop
    refine ends_ite (fun hlt => ?_) fun hge => ?_
    · rw [hold] at hlt
      have huser : (slot v).User := (slot_user hv).mpr (by omega)
      have hdiv : v * 4096 / 4096 = v := Nat.mul_div_cancel v (by decide)
      refine Ends.bind (walkpgdir_reads _) fun o t ht => ?_
      obtain ⟨rfl, rfl⟩ := ht
      rw [pdx_eq, hdiv]
      cases hx : t.table pgdir (slot v).1 with
      | none =>
        dsimp only
        rw [jump (by omega)]
        -- the pages up to the end of the page table, or of the range
        have hskip : t.scan pgdir (min ((v / 1024 + 1) * 1024) hi - v) v = t := by
          refine scan_none fun q hq hqn => maps_eq_none_of_table ?_
          rw [show (slot q).1 = (slot v).1 by simp only [slot, Fin.mk.injEq]; omega, hx]
        refine (ih h (by omega) (by omega)).mono fun _ u hu => ?_
        rw [hu, show hi - v = min ((v / 1024 + 1) * 1024) hi - v + (hi - (v / 1024 + 1) * 1024) by omega,
          scan_add, hskip]
        rcases Nat.le_total hi ((v / 1024 + 1) * 1024) with hle | hle
        · rw [show hi - (v / 1024 + 1) * 1024 = 0 by omega]
          rfl
        · rw [show v + (min ((v / 1024 + 1) * 1024) hi - v) = (v / 1024 + 1) * 1024 by omega]
      | some x =>
        dsimp only
        rw [ptx_eq, hdiv]
        apply ends_get_bind
        obtain ⟨hwithin, -, -⟩ := h.unmap huser
        have hnext : ∀ u, u = t.unmap pgdir (slot v) →
            Ends Never (deallocLoop l pgdir oldsz n ((v * 4096 + pgsize) % 2 ^ 32))
              (fun _ u => u = t.scan pgdir (hi - v) v) u := by
          rintro u rfl
          have hpage : (v * 4096 + pgsize) % 2 ^ 32 = (v + 1) * 4096 := next_page (by omega)
          rw [hpage]
          refine (ih hwithin.sound (by omega) (by omega)).mono fun _ u hu => ?_
          rw [hu, show hi - v = hi - (v + 1) + 1 by omega]
          rfl
        refine ends_ite (fun hp => ?_) fun hp => hnext t ?_
        · have hw : t.maps pgdir (slot v) = some (t.word x (slot v).2) := (maps_eq_some_of_table hx).mpr ⟨rfl, hp⟩
          have hin := (h.owned _ _ (holds_of_maps huser hw)).1
          refine ends_ite (fun hzero => ?_) fun _ => ?_
          · rw [hzero] at hin
            exact absurd hin.1 (Nat.not_le.mpr (link_data l).2.2)
          · refine Ends.bind (kfree_ends hin) fun _ u hu => ends_modify_bind (hnext _ ?_)
            rw [hu, unmap_some hx hw]
        · rw [unmap_none (maps_eq_none_of_absent hx hp)]
    · rw [hold] at hge
      refine ends_pure ?_
      rw [show hi - v = 0 by omega]
      rfl

/-! ## `deallocuvm` -/

def pages (sz : Nat) : Nat := (sz + 4095) / 4096

theorem pgroundup_eq {sz : Nat} (h : sz ≤ 2 ^ 31) : pgroundup sz = pages sz * 4096 := by
  change (sz + 4095) % 2 ^ 32 / 4096 * 4096 = (sz + 4095) / 4096 * 4096
  rw [Nat.mod_eq_of_lt (by omega)]

theorem lt_pages {sz : Nat} (q : Nat) : q * 4096 < sz ↔ q < pages sz := by
  unfold pages
  omega

theorem pages_le {sz : Nat} (h : sz ≤ 2 ^ 31) : pages sz ≤ 2 ^ 19 := by
  unfold pages
  omega

theorem pages_mono {sz sz' : Nat} (h : sz ≤ sz') : pages sz ≤ pages sz' := Nat.div_le_div_right (by omega)

theorem deallocuvm_ends {oldsz newsz : Nat} (h : Space l m pgdir) (hold : oldsz ≤ 2 ^ 31) :
    Ends Never (deallocuvm l pgdir oldsz newsz) (fun r t =>
      if newsz < oldsz then r = newsz ∧ t = m.scan pgdir (pages oldsz - pages newsz) (pages newsz)
      else r = oldsz ∧ t = m) m := by
  unfold deallocuvm
  refine ends_ite (fun hle => ends_pure ?_) fun hgt => ?_
  · rw [if_neg (by omega)]
    exact ⟨rfl, rfl⟩
  · have hnew : pages newsz ≤ 2 ^ 19 := pages_le (by omega)
    rw [pgroundup_eq (by omega)]
    refine Ends.bind (deallocLoop_ends h (pages_le hold) (by omega) lt_pages
      (by rw [turns_eq]; have := pages_le hold; omega)) fun _ t ht => ends_pure ?_
    rw [if_pos (by omega)]
    exact ⟨rfl, ht⟩

/-- `deallocuvm` frees each page in the range once, clears the entries, and changes nothing else. -/
theorem deallocuvm_scan (l : Link) (m : Mem) (pgdir : Page) (oldsz newsz : Nat) (h : Space l m pgdir)
    (hold : oldsz ≤ kernbase) :
    ∃ t, deallocuvm l pgdir oldsz newsz m = .ok (if newsz < oldsz then newsz else oldsz, t) ∧
      t = m.scan pgdir (pages oldsz - pages newsz) (pages newsz) ∧
      Unmapped pgdir (fun s => pages newsz * 4096 ≤ s.page * 4096 ∧ s.page * 4096 < oldsz) m t ∧
      t.freelist = (m.frames pgdir (pages oldsz - pages newsz) (pages newsz)).reverse ++ m.freelist ∧
      t.freelist.Nodup := by
  have hpages := pages_le hold
  have hends := @deallocuvm_ends l m pgdir oldsz newsz h hold
  obtain ⟨r, t, ht, hpost⟩ := hends.exists_ok fun _ => id
  have hle : newsz < oldsz ∨ pages oldsz - pages newsz = 0 := by
    unfold pages
    omega
  have hresult : r = (if newsz < oldsz then newsz else oldsz) ∧
      t = m.scan pgdir (pages oldsz - pages newsz) (pages newsz) := by
    split at hpost
    · rename_i hlt
      rw [if_pos hlt]
      exact hpost
    · rename_i hge
      rw [if_neg hge, hle.resolve_left hge]
      exact hpost
  obtain ⟨rfl, rfl⟩ := hresult
  rcases Nat.le_total (pages newsz) (pages oldsz) with hno | hon
  · obtain ⟨hwithin, hunmapped, hfree⟩ := h.scan (v := pages newsz) (n := pages oldsz - pages newsz) (by omega)
    refine ⟨_, ht, rfl, hunmapped.congr fun s => ?_, hfree, (Within.space hwithin).nodup⟩
    rw [lt_pages]
    constructor
    · rintro ⟨q, hq, hqn, rfl⟩
      have : (slot q).page = q := slot_val q (by omega)
      omega
    · rintro ⟨hs, hs'⟩
      exact ⟨s.page, by omega, by omega, (slot_page s).symm⟩
  · rw [Nat.sub_eq_zero_of_le hon] at ht ⊢
    refine ⟨_, ht, rfl, .of_none fun s hs => ?_, rfl, h.nodup⟩
    rw [lt_pages] at hs
    omega

theorem deallocuvm_onePage : ∃ t,
    deallocuvm smallLink 0x200 kernbase 0 onePage = .ok (0, t) ∧ t.pte 0x200 (slot 0) = some 0 := by
  obtain ⟨hspace, hmaps, -⟩ := onePage_space
  obtain ⟨t, ht, -, hunmapped, -⟩ :=
    deallocuvm_scan smallLink onePage 0x200 kernbase 0 hspace (Nat.le_refl _)
  refine ⟨t, ht, hunmapped.cleared (slot 0) (entry 0x202 6) (by decide) ?_⟩
  rw [hmaps, if_pos rfl]

end Xv6.Paging
