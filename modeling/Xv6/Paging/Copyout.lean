import Xv6.Paging.Copy

/-!
# Copying into an address space

`copyout` writes to the pages of the range, up to the first one that the user cannot get at.
-/

namespace Xv6.Paging

open Code Bytes

/-! ## What the user can get at -/

def offset (a : Nat) : Fin 4096 := ⟨a % 4096, Nat.mod_lt _ (by decide)⟩

def Mem.user (m : Mem) (pgdir : Page) (a : Nat) : Option Page :=
  match m.maps pgdir (slot (a / 4096)) with
  | some w => if w &&& pteU = 0 then none else some (pteAddr w)
  | none => none

structure UserSpace (l : Link) (m : Mem) (pgdir : Page) : Prop extends Space l m pgdir where
  kernel : ∀ s w, ¬ s.User → m.maps pgdir s = some w → w &&& pteU = 0

variable {l : Link} {m t u : Mem} {pgdir x : Page} {a b va : Nat} {w : Word} {bs cs : List Byte}

theorem user_eq_some : m.user pgdir a = some x ↔
    ∃ w, m.maps pgdir (slot (a / 4096)) = some w ∧ w &&& pteU ≠ 0 ∧ pteAddr w = x := by
  unfold Mem.user
  cases m.maps pgdir (slot (a / 4096)) with
  | none => simp
  | some w => simp

theorem user_congr (h : a / 4096 = b / 4096) : m.user pgdir a = m.user pgdir b := by
  rw [Mem.user, h, Mem.user]

theorem SameTables.user (h : SameTables pgdir m t) (a : Nat) : t.user pgdir a = m.user pgdir a := by
  rw [Mem.user, h.maps, Mem.user]

namespace UserSpace

variable (h : UserSpace l m pgdir)
include h

theorem user_held (hx : m.user pgdir a = some x) :
    (slot (a / 4096)).User ∧ m.holds pgdir (.user (slot (a / 4096))) = some x := by
  obtain ⟨w, hw, hu, rfl⟩ := user_eq_some.mp hx
  have huser : (slot (a / 4096)).User := by
    by_contra hs
    exact hu (h.kernel _ w hs hw)
  exact ⟨huser, holds_of_maps huser hw⟩

theorem user_lt (ha : a < 2 ^ 32) (hx : m.user pgdir a ≠ none) : a < 2 ^ 31 := by
  obtain ⟨x, hx⟩ := Option.ne_none_iff_exists'.mp hx
  have := (slot_user (by omega)).mp (h.user_held hx).1
  omega

theorem user_inj (ha : a < 2 ^ 32) (hb : b < 2 ^ 32) (hxa : m.user pgdir a = some x)
    (hxb : m.user pgdir b = some x) : a / 4096 = b / 4096 := by
  have heq := h.once _ _ x (h.user_held hxa).2 (h.user_held hxb).2
  exact slot_inj (by omega) (by omega) (Part.user.inj heq)

theorem kept (hk : Kept l pgdir m t) : UserSpace l t pgdir :=
  ⟨hk.space, fun s w hs hw => h.kernel s w hs ((hk.kernel s hs).symm.trans hw)⟩

theorem congr (hfree : t.freelist = m.freelist) (hsame : SameTables pgdir m t) :
    UserSpace l t pgdir :=
  ⟨h.toSpace.congr hfree hsame.holds, fun s w hs hw => h.kernel s w hs ((hsame.maps s).symm.trans hw)⟩

end UserSpace

theorem Space.setUser {s : Slot} (h : Space l m pgdir) (hheld : m.holds pgdir (.user s) = some x) (f : Frame) :
    SameTables pgdir m (m.setFrame x f) := by
  refine ⟨setFrame_ne _ _ ?_, fun i y hy => setFrame_ne _ _ ?_⟩
  · rintro rfl
    cases h.once _ .dir pgdir hheld rfl
  · rintro rfl
    cases h.once _ (.table i) y hheld hy

theorem SameTables.kept (hsame : SameTables pgdir m t) (h : Space l m pgdir) (hfree : t.freelist = m.freelist)
    (hframes : ∀ x, Apart m pgdir x → t.frame x = m.frame x) : Kept l pgdir m t :=
  ⟨.congr h hfree hsame.holds hframes, fun s _ => hsame.maps s⟩

/-! ## What builds an address space -/

theorem flag_entry {p : Nat} {perm : Word} (hp : p < 2 ^ 20) (hperm : perm.toNat < 4096) :
    entry p perm &&& pteU = (perm ||| pteP) &&& pteU := by
  have hmask : (0xFFF : Word) &&& pteU = pteU := by decide
  have hflag : entry p perm &&& pteU = pteFlags (entry p perm) &&& pteU := by
    rw [pteFlags, BitVec.and_assoc, hmask]
  rw [hflag, pteFlags_mapped hp hperm]

theorem kernelEntry_flag {q : Nat} (h : kernelEntry l q = some w) : w &&& pteU = 0 := by
  obtain ⟨hlo, hhi⟩ := link_data l
  rw [kernelEntry, List.findSome?_eq_some_iff] at h
  obtain ⟨before, r, after, hrows, hr, -⟩ := h
  have hmem : r ∈ rows l := by
    rw [hrows]
    simp
  simp only [Row.entry, Option.ite_none_right_eq_some, Option.some.injEq] at hr
  obtain ⟨hin, rfl⟩ := hr
  simp only [rows, List.mem_cons, List.not_mem_nil, or_false] at hmem
  rcases hmem with rfl | rfl | rfl | rfl <;> dsimp only at hin ⊢ <;>
    exact (flag_entry (by omega) (by decide)).trans (by decide)

theorem Space.user (h : Space l m pgdir) (hmaps : ∀ q < 2 ^ 20, m.maps pgdir (slot q) = kernelEntry l q) :
    UserSpace l m pgdir := by
  refine ⟨h, fun s w _ hw => ?_⟩
  rw [← slot_page s, hmaps s.page s.page_lt] at hw
  exact kernelEntry_flag hw

theorem allocuvm_kept {oldsz newsz : Nat} (h : Space l m pgdir) :
    Ends (fun _ => True) (allocuvm l pgdir oldsz newsz) (fun r t =>
      Kept l pgdir m t ∧ (oldsz < kernbase → r < kernbase)) m := by
  refine allocuvm_cases (fun _ => ⟨.refl h, fun _ => by decide⟩) (fun _ _ => ⟨.refl h, id⟩) fun hnew hold => ?_
  refine (allocuvm_ends h hold hnew (.inr trivial)).mono fun r t ht => ⟨ht.kept, fun _ => ?_⟩
  rcases ht.result with ⟨rfl, -⟩ | ⟨rfl, -⟩
  · exact hnew
  · decide

theorem present_clear (w : Word) : Present (w &&& ~~~pteU) ↔ Present w := by
  have hmask : ~~~pteU &&& pteP = pteP := by decide
  rw [Present, BitVec.and_assoc, hmask]

theorem pteAddr_clear (w : Word) : pteAddr (w &&& ~~~pteU) = pteAddr w := by
  have hshift : (w &&& ~~~pteU) >>> 12 = w >>> 12 := by
    refine BitVec.eq_of_getLsbD_eq fun i hi => ?_
    have hmask : ∀ i : Fin 32, i.val < 20 → (~~~pteU).getLsbD (12 + i.val) = true := by decide
    by_cases hlt : i < 20
    · rw [BitVec.getLsbD_ushiftRight, BitVec.getLsbD_ushiftRight, BitVec.getLsbD_and, hmask ⟨i, hi⟩ hlt, Bool.and_true]
    · rw [BitVec.getLsbD_ushiftRight, BitVec.getLsbD_ushiftRight, BitVec.getLsbD_of_ge _ _ (by omega),
        BitVec.getLsbD_of_ge _ _ (by omega)]
  have := congrArg BitVec.toNat hshift
  rwa [BitVec.toNat_ushiftRight, BitVec.toNat_ushiftRight, Nat.shiftRight_eq_div_pow, Nat.shiftRight_eq_div_pow] at this

theorem clear_of_zero (h : w &&& pteU = 0#32) : w &&& ~~~pteU = w := by
  calc w &&& ~~~pteU = (w &&& pteU) ||| (w &&& ~~~pteU) := by rw [h, BitVec.zero_or]
    _ = w &&& (pteU ||| ~~~pteU) := BitVec.and_or_distrib_left.symm
    _ = w := by rw [BitVec.or_not_self, BitVec.and_allOnes]

theorem clearpteu_ends (h : UserSpace l m pgdir) :
    Ends (fun _ => m.table pgdir (slot (va / 4096)).1 = none) (clearpteu pgdir va) (fun _ t => Kept l pgdir m t ∧
      ∀ a, t.user pgdir a = if slot (a / 4096) = slot (va / 4096) then none else m.user pgdir a) m := by
  unfold clearpteu
  refine Ends.bind ((walkpgdir_reads va).allow nofun) fun o t ht => ?_
  obtain ⟨rfl, rfl⟩ := ht
  rw [pdx_eq]
  have hptx := ptx_eq va
  generalize slot (va / 4096) = s at *
  obtain ⟨i, j⟩ := s
  dsimp only at hptx ⊢
  cases hx : t.table pgdir i with
  | none => exact ends_stop rfl
  | some x =>
    refine ends_modify ?_
    rw [hptx]
    have hclear := present_clear (t.word x j)
    have hmaps := maps_setWord (w := t.word x j &&& ~~~pteU) (j := j) h.toSpace hx
    have hold : t.maps pgdir (i, j) = if Present (t.word x j) then some (t.word x j) else none := by
      rw [Mem.maps, Mem.pte, hx]
      simp [Option.filter]
    -- the entry has the same page, if it is there
    have hholds : (t.setWord x j (t.word x j &&& ~~~pteU)).holds pgdir = t.holds pgdir := by
      by_cases hs : Slot.User (i, j)
      · rw [holds_setWord h.toSpace hx hs, Function.update_eq_self_iff, pteAddr_clear, holds_user hs, hold]
        by_cases hp : Present (t.word x j)
        · rw [if_pos (hclear.mpr hp), if_pos hp, Option.map_some]
        · rw [if_neg (mt hclear.mp hp), if_neg hp, Option.map_none]
      · exact h.toSpace.setKernel hx hs
    refine ⟨⟨.congr h.toSpace rfl hholds fun y hy => setFrame_ne _ _ ?_, fun s hs => ?_⟩, fun a => ?_⟩
    · rintro rfl
      exact hy.not_held (.table i) hx
    · rw [hmaps]
      split
      · rename_i heq
        rw [heq, hold]
        by_cases hp : Present (t.word x j)
        · rw [if_pos (hclear.mpr hp), if_pos hp, clear_of_zero]
          exact h.kernel _ _ (heq ▸ hs) (by rw [hold, if_pos hp])
        · rw [if_neg (mt hclear.mp hp), if_neg hp]
      · rfl
    · rw [Mem.user, hmaps]
      by_cases heq : slot (a / 4096) = (i, j)
      · rw [if_pos heq, if_pos heq]
        by_cases hp : Present (t.word x j)
        · have hzero : (t.word x j &&& ~~~pteU) &&& pteU = 0 := by
            rw [BitVec.and_assoc, show ~~~pteU &&& pteU = 0#32 from by decide, BitVec.and_zero]
            rfl
          rw [if_pos (hclear.mpr hp)]
          exact if_pos hzero
        · rw [if_neg (mt hclear.mp hp)]
      · rw [if_neg heq, if_neg heq]
        rfl

/-- A page directory from `setupkvm`, after calls for its user part and whatever others do in between. -/
inductive Built (l : Link) (pgdir : Page) : Mem → Prop
  | setup {m t : Mem} (h : FreeList l m) (ht : setupkvm l m = .ok (some pgdir, t)) : Built l pgdir t
  | alloc {m t : Mem} {oldsz newsz r : Nat} (h : Built l pgdir m) (ht : allocuvm l pgdir oldsz newsz m = .ok (r, t)) :
    Built l pgdir t
  | clear {m t : Mem} {uva : Nat} (h : Built l pgdir m) (ht : clearpteu pgdir uva m = .ok ((), t)) : Built l pgdir t
  | other {m t : Mem} (h : Built l pgdir m) (hfree : FreeList l t) (hsame : SameTables pgdir m t)
    (hheld : ∀ p x, m.holds pgdir p = some x → x ∉ t.freelist) : Built l pgdir t

theorem Built.userSpace (h : Built l pgdir m) : UserSpace l m pgdir := by
  induction h with
  | setup h ht =>
    obtain ⟨hfresh, -, -, hmaps⟩ := (setupkvm_ends h).of_ok ht
    exact hfresh.space.user hmaps
  | alloc _ ht ih => exact ih.kept ((allocuvm_kept ih.toSpace).of_ok ht).1
  | clear _ ht ih => exact ih.kept ((clearpteu_ends ih).of_ok ht).1
  | other _ hfree hsame hheld ih =>
    refine ⟨⟨hfree, fun p x hp => ?_, by rw [hsame.holds]; exact ih.once⟩, fun s w hs hw => ?_⟩
    · rw [hsame.holds] at hp
      exact ⟨(ih.owned p x hp).1, hheld p x hp⟩
    · exact ih.kernel s w hs ((hsame.maps s).symm.trans hw)

/-! ## What is written -/

/-- The bytes are at `va`, on pages that the user can get at. Nothing else has changed. -/
structure Wrote (pgdir : Page) (va : Nat) (bs : List Byte) (m t : Mem) : Prop where
  free : t.freelist = m.freelist
  same : SameTables pgdir m t
  pages : ∀ i < bs.length, va + i < 2 ^ 31 ∧ m.user pgdir (va + i) ≠ none
  bytes : ∀ i c x, bs[i]? = some c → m.user pgdir (va + i) = some x → t.frame x (offset (va + i)) = c
  rest : ∀ x k, (∀ i < bs.length, m.user pgdir (va + i) = some x → offset (va + i) ≠ k) → t.frame x k = m.frame x k

theorem Wrote.nil (va : Nat) : Wrote pgdir va [] m m :=
  ⟨rfl, ⟨rfl, fun _ _ _ => rfl⟩, nofun, nofun, fun _ _ _ => rfl⟩

theorem Wrote.put (h : UserSpace l m pgdir) (hva : va < 2 ^ 32) (hx : m.user pgdir va = some x)
    (hlen : va % 4096 + bs.length ≤ 4096) : Wrote pgdir va bs m (m.put x (va % 4096) bs) := by
  have hlt := h.user_lt hva (by rw [hx]; nofun)
  have hpage : ∀ i < bs.length, m.user pgdir (va + i) = some x := by
    intro i hi
    rw [← hx]
    exact user_congr (by omega)
  refine ⟨rfl, h.toSpace.setUser (h.user_held hx).2 _, fun i hi => ⟨by omega, by rw [hpage i hi]; nofun⟩,
    fun i c y hi hy => ?_, fun y k hk => ?_⟩
  · obtain ⟨hlt', -⟩ := List.getElem?_eq_some_iff.mp hi
    rw [hpage i hlt'] at hy
    cases hy
    have hoff : (offset (va + i)).val = va % 4096 + i := by
      change (va + i) % 4096 = _
      omega
    rw [Mem.put, setFrame_self, Frame.put, hoff, if_pos (by omega), Nat.add_sub_cancel_left, hi]
    rfl
  · by_cases hyx : y = x
    · subst hyx
      rw [Mem.put, setFrame_self, Frame.put]
      split
      · rename_i hle
        by_cases hin : k.val - va % 4096 < bs.length
        · refine absurd ?_ (hk (k.val - va % 4096) hin (hpage _ hin))
          apply Fin.ext
          change (va + (k.val - va % 4096)) % 4096 = k.val
          omega
        · rw [List.getElem?_eq_none (by omega)]
          rfl
      · rfl
    · exact congrFun (setFrame_ne _ _ hyx) k

theorem Wrote.append (h : UserSpace l m pgdir) (h1 : Wrote pgdir va bs m u) (h2 : Wrote pgdir (va + bs.length) cs u t) :
    Wrote pgdir va (bs ++ cs) m t := by
  have huser : ∀ j, u.user pgdir (va + (bs.length + j)) = m.user pgdir (va + (bs.length + j)) :=
    fun j => h1.same.user _
  have hsecond : ∀ i, bs.length ≤ i → ∃ j, i = bs.length + j := fun i hi => ⟨i - bs.length, by omega⟩
  refine ⟨h2.free.trans h1.free, h1.same.trans h2.same, fun i hi => ?_, fun i c x hi hx => ?_, fun x k hk => ?_⟩
  · rw [List.length_append] at hi
    rcases Nat.lt_or_ge i bs.length with hlt | hge
    · exact h1.pages i hlt
    · obtain ⟨j, rfl⟩ := hsecond i hge
      rw [← huser, ← Nat.add_assoc]
      exact h2.pages j (by omega)
  · rcases Nat.lt_or_ge i bs.length with hlt | hge
    · rw [List.getElem?_append_left hlt] at hi
      rw [h2.rest, h1.bytes i c x hi hx]
      -- the second write is at other addresses
      intro j hj hxj heq
      have hpage := (h2.pages j hj).1
      rw [h1.same.user] at hxj
      have hsame := h.user_inj (by have := (h1.pages i hlt).1; omega) (by omega) hx hxj
      have hoff : (va + bs.length + j) % 4096 = (va + i) % 4096 := congrArg Fin.val heq
      omega
    · obtain ⟨j, rfl⟩ := hsecond i hge
      rw [List.getElem?_append_right hge, Nat.add_sub_cancel_left] at hi
      rw [← huser, ← Nat.add_assoc] at hx
      rw [← Nat.add_assoc]
      exact h2.bytes j c x hi hx
  · rw [h2.rest, h1.rest]
    · intro i hi hx
      exact hk i (by rw [List.length_append]; omega) hx
    · intro j hj hx
      rw [Nat.add_assoc] at hx ⊢
      rw [huser] at hx
      exact hk (bs.length + j) (by rw [List.length_append]; omega) hx

theorem Wrote.kept (h : Wrote pgdir va bs m t) (hm : UserSpace l m pgdir) : Kept l pgdir m t :=
  h.same.kept hm.toSpace h.free fun x hx => funext fun k => h.rest x k fun _ _ hi =>
    absurd (hm.user_held hi).2 (hx.not_held _)

/-! ## `copyout` -/

theorem uva2ka_ends (va : Nat) :
    Ends (fun e => e = .nullPte ∧ m.table pgdir (slot (va / 4096)).1 = none) (uva2ka pgdir va) (fun o t =>
      t = m ∧ o = m.user pgdir va ∧ m.table pgdir (slot (va / 4096)).1 ≠ none) m := by
  unfold uva2ka
  refine Ends.bind ((walkpgdir_reads va).allow nofun) fun o t ht => ?_
  obtain ⟨rfl, rfl⟩ := ht
  rw [pdx_eq]
  cases hx : t.table pgdir (slot (va / 4096)).1 with
  | none => exact ends_stop ⟨rfl, rfl⟩
  | some x =>
    apply ends_get_bind
    rw [ptx_eq]
    refine ends_ite (fun hp => ends_pure ⟨rfl, ?_, nofun⟩) fun hp => ?_
    · rw [Mem.user, maps_eq_none_of_absent hx (not_not.mpr hp)]
    · have hsome := (maps_eq_some_of_table (m := t) (s := slot (va / 4096)) hx).mpr ⟨rfl, hp⟩
      refine ends_ite (fun hu => ends_pure ⟨rfl, ?_, nofun⟩) fun hu => ends_pure ⟨rfl, ?_, nofun⟩
      · rw [Mem.user, hsome]
        exact (if_pos hu).symm
      · rw [Mem.user, hsome]
        exact (if_neg hu).symm

def Writable (m : Mem) (pgdir : Page) (va k : Nat) : Prop := ∀ i < k, m.user pgdir (va + i) ≠ none

def TableMissing (m : Mem) (pgdir : Page) (va len : Nat) : Prop :=
  ∃ k < len, Writable m pgdir va k ∧ m.table pgdir (slot ((va + k) / 4096)).1 = none

def CopyPost (pgdir : Page) (va : Nat) (buf : List Byte) (m : Mem) (b : Bool) (t : Mem) : Prop :=
  ∃ k ≤ buf.length, Wrote pgdir va (buf.take k) m t ∧
    if b then k = buf.length
    else k < buf.length ∧ m.user pgdir (va + k) = none ∧ m.table pgdir (slot ((va + k) / 4096)).1 ≠ none

theorem Wrote.missing {k len : Nat} (h : Wrote pgdir va bs m u) (hk : bs.length = k)
    (hmiss : TableMissing u pgdir (va + k) len) : TableMissing m pgdir va (k + len) := by
  obtain ⟨j, hj, husers, hnone⟩ := hmiss
  rw [h.same.table, Nat.add_assoc] at hnone
  refine ⟨k + j, by omega, fun i hi => ?_, hnone⟩
  rcases Nat.lt_or_ge i k with hik | hik
  · exact (h.pages i (by omega)).2
  · have := husers (i - k) (by omega)
    rwa [h.same.user, Nat.add_assoc, Nat.add_sub_cancel' hik] at this

theorem Wrote.post {k : Nat} {buf : List Byte} {b : Bool} (hm : UserSpace l m pgdir)
    (h : Wrote pgdir va (buf.take k) m u)
    (hk : k ≤ buf.length) (hpost : CopyPost pgdir (va + k) (buf.drop k) u b t) : CopyPost pgdir va buf m b t := by
  have hlength : (buf.take k).length = k := List.length_take_of_le hk
  obtain ⟨j, hj, hz, hpost⟩ := hpost
  rw [List.length_drop] at hj hpost
  rw [← hlength] at hz
  have hwrote := h.append hm hz
  rw [hlength, ← List.take_add] at hwrote
  refine ⟨k + j, by omega, hwrote, ?_⟩
  cases b with
  | true =>
    simp only [if_true] at hpost ⊢
    omega
  | false =>
    simp only [Bool.false_eq_true, if_false] at hpost ⊢
    rw [h.same.user, h.same.table, Nat.add_assoc] at hpost
    exact ⟨by omega, hpost.2⟩

theorem copyoutLoop_ends {n : Nat} {buf : List Byte} (h : UserSpace l m pgdir) (hva : va < 2 ^ 32)
    (hn : buf.length ≤ n) :
    Ends (fun e => e = .nullPte ∧ TableMissing m pgdir va buf.length) (copyoutLoop pgdir n va buf)
      (CopyPost pgdir va buf m) m := by
  induction n generalizing va buf m with
  | zero =>
    rw [List.eq_nil_of_length_eq_zero (Nat.le_zero.mp hn)]
    unfold copyoutLoop
    exact ends_pure ⟨0, Nat.le_refl 0, .nil va, rfl⟩
  | succ n ih =>
    cases hbuf : buf with
    | nil =>
      unfold copyoutLoop
      exact ends_pure ⟨0, Nat.le_refl 0, .nil va, rfl⟩
    | cons c rest =>
      rw [← hbuf]
      have hpos : 0 < buf.length := by rw [hbuf]; exact Nat.succ_pos _
      have hloop : copyoutLoop pgdir (n + 1) va buf = (uva2ka pgdir (pgrounddown va) >>= fun o =>
          o.elim (pure false) fun pa0 => do
            modify fun m => m.put pa0 (va - pgrounddown va)
              (buf.take (min (pgsize - (va - pgrounddown va)) buf.length))
            copyoutLoop pgdir n ((pgrounddown va + pgsize) % 2 ^ 32)
              (buf.drop (min (pgsize - (va - pgrounddown va)) buf.length))) := by
        rw [hbuf]
        conv_lhs => unfold copyoutLoop
        refine congrArg (uva2ka pgdir (pgrounddown va) >>= ·) (funext fun o => ?_)
        cases o <;> rfl
      have hdown : pgrounddown va = va / 4096 * 4096 := rfl
      have hround : va / 4096 * 4096 / 4096 = va / 4096 := Nat.mul_div_cancel _ (by decide)
      have hoff : va - va / 4096 * 4096 = va % 4096 := by omega
      rw [hloop, hdown, hoff]
      change Ends _ (uva2ka pgdir (va / 4096 * 4096) >>= _) _ m
      refine Ends.bind ((uva2ka_ends _).allow fun e he => ?_) fun o t ht => ?_
      · rw [hround] at he
        exact ⟨he.1, 0, hpos, fun i hi => absurd hi (Nat.not_lt_zero i), he.2⟩
      · obtain ⟨rfl, rfl, htable⟩ := ht
        rw [hround] at htable
        rw [user_congr (b := va) hround]
        cases hx : t.user pgdir va with
        | none => exact ends_pure ⟨0, Nat.zero_le _, .nil va, hpos, hx, htable⟩
        | some x =>
          apply ends_modify_bind
          have hlt := h.user_lt hva (by simp [hx])
          have hlength : (buf.take (min (4096 - va % 4096) buf.length)).length = min (4096 - va % 4096) buf.length := by
            rw [List.length_take, Nat.min_assoc, Nat.min_self]
          have hwrote : Wrote pgdir va (buf.take (min (4096 - va % 4096) buf.length)) t _ := .put h hva hx (by omega)
          have hspace := h.congr hwrote.free hwrote.same
          change Ends _ _ _ (t.put x (va % 4096) (buf.take (min (4096 - va % 4096) buf.length)))
          change Ends _ (copyoutLoop pgdir n ((va / 4096 * 4096 + 4096) % 2 ^ 32)
            (buf.drop (min (4096 - va % 4096) buf.length))) _ _
          generalize t.put x (va % 4096) (buf.take (min (4096 - va % 4096) buf.length)) = u at *
          rcases Nat.le_total buf.length (4096 - va % 4096) with hlast | hmore
          · rw [Nat.min_eq_right hlast, List.take_length] at hwrote
            rw [Nat.min_eq_right hlast, List.drop_length]
            have hdone : copyoutLoop pgdir n ((va / 4096 * 4096 + 4096) % 2 ^ 32) [] = pure true := by
              cases n <;> rfl
            rw [hdone]
            exact ends_pure ⟨buf.length, Nat.le_refl _, by rwa [List.take_length], rfl⟩
          · rw [Nat.min_eq_left hmore] at hwrote hlength ⊢
            have hnext : (va / 4096 * 4096 + 4096) % 2 ^ 32 = va + (4096 - va % 4096) := by omega
            have hdrop : (buf.drop (4096 - va % 4096)).length = buf.length - (4096 - va % 4096) := List.length_drop
            rw [hnext]
            generalize hk : 4096 - va % 4096 = k at *
            have hn' : (buf.drop k).length ≤ n := by omega
            have hva' : va + k < 2 ^ 32 := by omega
            refine ((ih hspace hva' hn').allow fun e he => ⟨he.1, ?_⟩).mono fun b z hz => hwrote.post h hmore hz
            have := hwrote.missing hlength he.2
            rwa [hdrop, Nat.add_sub_cancel' hmore] at this

theorem copyout_ends {buf : List Byte} (h : UserSpace l m pgdir) (hva : va < 2 ^ 32) :
    Ends (fun e => e = .nullPte ∧ TableMissing m pgdir va buf.length) (copyout pgdir va buf)
    (CopyPost pgdir va buf m) m :=
  copyoutLoop_ends h hva (Nat.le_refl _)

theorem copyout_kept {buf : List Byte} (h : UserSpace l m pgdir) (hva : va < 2 ^ 32) :
    Ends (fun _ => True) (copyout pgdir va buf) (fun _ t => Kept l pgdir m t) m := by
  refine ((copyout_ends h hva).allow fun _ _ => trivial).mono fun _ t ht => ?_
  obtain ⟨k, -, hwrote, -⟩ := ht
  exact hwrote.kept h

/-- `copyout` comes back, returns 0 exactly if the user can get at the whole range, then has written just the bytes, and
never writes to a page that the user cannot get at. -/
def TotalConfined (m : Mem) (pgdir : Page) (va : Nat) (buf : List Byte) : Prop :=
  ∃ b t, copyout pgdir va buf m = .ok (b, t) ∧ (b = true ↔ Writable m pgdir va buf.length) ∧
    (b = true → Wrote pgdir va buf m t) ∧ t.freelist = m.freelist ∧
    ∀ x, (∀ a, m.user pgdir a ≠ some x) → t.frame x = m.frame x

theorem copyout_missing {buf : List Byte} (h : UserSpace l m pgdir) (hva : va < 2 ^ 32)
    (hmiss : TableMissing m pgdir va buf.length) : copyout pgdir va buf m = .error .nullPte := by
  cases hrun : copyout pgdir va buf m with
  | error e => rw [((copyout_ends h hva).of_error hrun).1]
  | ok r =>
    obtain ⟨k, hk, hwrote, hpost⟩ := (copyout_ends h hva).of_ok (a := r.1) (t := r.2) hrun
    obtain ⟨j, hj, husers, hnone⟩ := hmiss
    have hblocked : m.user pgdir (va + j) = none := by
      rw [Mem.user, maps_eq_none_of_table hnone]
    -- the address without a page table is the first one that the user cannot get at
    have hkj : k ≤ j := by
      by_contra hlt
      exact (hwrote.pages j (by rw [List.length_take]; omega)).2 hblocked
    split at hpost
    · omega
    · rcases Nat.lt_or_eq_of_le hkj with hlt | rfl
      · exact absurd hpost.2.1 (husers k hlt)
      · exact absurd hnone hpost.2.2

theorem copyout_confined {buf : List Byte} (h : UserSpace l m pgdir) (hva : va < 2 ^ 32)
    (hthere : ¬ TableMissing m pgdir va buf.length) : TotalConfined m pgdir va buf := by
  obtain ⟨b, t, hrun, k, hk, hwrote, hpost⟩ := (copyout_ends h hva).exists_ok fun e he => hthere he.2
  refine ⟨b, t, hrun, ?_, fun hb => ?_, hwrote.free,
    fun x hx => funext fun j => hwrote.rest x j fun i _ hi => absurd hi (hx _)⟩
  · cases b with
    | true =>
      simp only [if_true] at hpost
      rw [hpost, List.take_length] at hwrote
      exact iff_of_true rfl fun i hi => (hwrote.pages i hi).2
    | false =>
      simp only [Bool.false_eq_true, if_false] at hpost
      exact iff_of_false nofun fun hall => hall k hpost.1 hpost.2.1
  · rw [hb, if_pos rfl] at hpost
    rwa [hpost, List.take_length] at hwrote

/-- `copyout` is total and confined exactly if no address of the range, up to the first bad one, is without a page
table. -/
theorem copyout_total_iff (l : Link) (m : Mem) (pgdir : Page) (va : Nat) (buf : List Byte) (h : Built l pgdir m)
    (hva : va < 2 ^ 32) :
    TotalConfined m pgdir va buf ↔ ∀ k < buf.length, Writable m pgdir va k →
      m.table pgdir (slot ((va + k) / 4096)).1 ≠ none := by
  have hmiss : (∀ k < buf.length, Writable m pgdir va k → m.table pgdir (slot ((va + k) / 4096)).1 ≠ none) ↔
      ¬ TableMissing m pgdir va buf.length := by
    simp only [TableMissing, not_exists, not_and]
  rw [hmiss]
  refine ⟨fun ⟨b, t, hrun, _⟩ hnone => ?_, copyout_confined h.userSpace hva⟩
  rw [copyout_missing h.userSpace hva hnone] at hrun
  cases hrun

theorem copyout_twoPages : ∃ d m t, Built smallLink d m ∧ copyout d 4094 [1, 2, 3] m = .ok (true, t) ∧
    Wrote d 4094 [1, 2, 3] m t := by
  obtain ⟨d, t, r, m, ht, hm, -, -, hmaps⟩ := allocuvm_clearMem (show 2 ≤ 16 by decide)
  have hbuilt : Built smallLink d m := (Built.setup clearMem_free ht).alloc hm
  have huser : ∀ i < 3, m.user d (4094 + i) ≠ none := by
    intro i hi
    obtain ⟨y, hy, hin⟩ := hmaps ((4094 + i) / 4096) (by omega)
    have hflag : entry y userPerm &&& pteU ≠ 0 := by
      rw [flag_entry hin.lt userPerm_lt]
      decide
    rw [user_eq_some.mpr ⟨_, hy, hflag, rfl⟩]
    nofun
  obtain ⟨b, z, hrun, hb, hwrote, -⟩ := (copyout_total_iff smallLink m d 4094 [1, 2, 3] hbuilt (by decide)).mpr
    fun k hk _ hnone => huser k hk (by rw [Mem.user, maps_eq_none_of_table hnone])
  obtain rfl : b = true := hb.mpr huser
  exact ⟨d, m, z, hbuilt, hrun, hwrote rfl⟩

theorem copyout_null : ∃ d m, Built smallLink d m ∧ copyout d 0 [1] m = .error .nullPte ∧
    ¬ TotalConfined m d 0 [1] := by
  obtain ⟨d, m, hm⟩ := setupkvm_clearMem
  obtain ⟨-, -, htable, -⟩ := (setupkvm_ends clearMem_free).of_ok hm
  have hbuilt := Built.setup clearMem_free hm
  have hrun : copyout d 0 [1] m = .error .nullPte :=
    copyout_missing hbuilt.userSpace (by decide) ⟨0, by decide, nofun, htable _ (by decide)⟩
  refine ⟨d, m, hbuilt, hrun, ?_⟩
  rintro ⟨b, t, hok, -⟩
  rw [hrun] at hok
  cases hok

end Xv6.Paging
