import Xv6.Paging.Args

/-!
# Starting a program

`exec` builds an address space from free pages, and frees the old one when nothing can fail any more.
-/

namespace Xv6.Paging

open Code Bytes

variable {l : Link} {m t u : Mem} {pgdir x : Page} {sz : Nat}

/-! ## The segments -/

theorem loadLoop_ends {addr fuel j : Nat} {bytes : List Byte} (h : Space l m pgdir) (haddr : addr % 4096 = 0)
    (hend : addr + sz ≤ 2 ^ 31) (hmapped : ∀ q, addr ≤ q * 4096 → q * 4096 < addr + sz → m.maps pgdir (slot q) ≠ none) :
    Ends (fun _ => True) (loadLoop pgdir addr bytes sz fuel (j * 4096))
    (fun _ t => Kept l pgdir m t ∧ SameTables pgdir m t) m := by
  induction fuel generalizing m j with
  | zero => exact ends_stop trivial
  | succ fuel ih =>
    unfold loadLoop
    refine ends_ite (fun hlt => ?_) fun _ => ends_pure ⟨.refl h, ⟨rfl, fun _ _ _ => rfl⟩⟩
    obtain ⟨q, hq⟩ : ∃ q, addr + j * 4096 = q * 4096 := ⟨addr / 4096 + j, by omega⟩
    have hlo : addr ≤ q * 4096 := hq ▸ Nat.le_add_right _ _
    have hhi : q * 4096 < addr + sz := hq ▸ Nat.add_lt_add_left hlt addr
    have hj : j < 2 ^ 19 := by omega
    have hq19 : q < 2 ^ 19 := by omega
    have hdiv : q * 4096 / 4096 = q := Nat.mul_div_cancel q (by decide)
    have huser : (slot q).User := (slot_user (by omega)).mpr hq19
    obtain ⟨w, hw⟩ := Option.ne_none_iff_exists'.mp (hmapped q hlo hhi)
    obtain ⟨y, hy, hword, -⟩ := table_of_maps hw
    have hnext : (j * 4096 + pgsize) % 2 ^ 32 = (j + 1) * 4096 := next_page (by omega)
    have hmod : (addr + j * 4096) % 2 ^ 32 = q * 4096 := by
      rw [hq]
      exact Nat.mod_eq_of_lt (Nat.lt_of_lt_of_le hhi (by omega))
    rw [hmod]
    refine Ends.bind ((walkpgdir_reads _).allow nofun) fun o t ht => ?_
    obtain ⟨rfl, rfl⟩ := ht
    rw [pdx_eq, hdiv, hy]
    apply ends_get_bind
    apply ends_modify_bind
    rw [ptx_eq, hdiv, hword]
    have hheld := holds_of_maps huser hw
    have hput := h.setUser hheld
      ((t.frame (pteAddr w)).put 0 ((bytes.drop (j * 4096)).take (min (sz - j * 4096) pgsize)))
    have hkept : Kept l pgdir t (t.put (pteAddr w) 0 ((bytes.drop (j * 4096)).take (min (sz - j * 4096) pgsize))) := by
      refine hput.kept h rfl fun x hx => setFrame_ne _ _ ?_
      rintro rfl
      exact hx.not_held _ hheld
    change SameTables pgdir t (t.put (pteAddr w) 0 ((bytes.drop (j * 4096)).take (min (sz - j * 4096) pgsize))) at hput
    refine ends_ite (fun _ => ?_) fun _ => ends_pure ⟨hkept, hput⟩
    rw [hnext]
    refine (ih hkept.space fun q hq hq' => ?_).mono fun _ u hu => ⟨hkept.trans hu.1, hput.trans hu.2⟩
    rw [hput.maps]
    exact hmapped q hq hq'

theorem loaduvm_ends {addr : Nat} {bytes : List Byte} (h : Space l m pgdir) (hend : addr + sz ≤ 2 ^ 31)
    (hmapped : ∀ q, addr ≤ q * 4096 → q * 4096 < addr + sz → m.maps pgdir (slot q) ≠ none) :
    Ends (fun _ => True) (loaduvm pgdir addr bytes sz) (fun _ t => Kept l pgdir m t ∧ SameTables pgdir m t) m := by
  unfold loaduvm
  refine ends_ite (fun _ => ends_stop trivial) fun haddr => ?_
  rw [← Nat.zero_mul 4096]
  exact loadLoop_ends h (not_not.mp haddr) hend hmapped

theorem allocuvm_sized {oldsz newsz : Nat} (h : Space l m pgdir) (hsized : Sized m pgdir oldsz)
    (hold : oldsz < 2 ^ 31) : Ends Never (allocuvm l pgdir oldsz newsz) (fun r t =>
      Kept l pgdir m t ∧ (r ≠ 0 → Sized t pgdir r ∧ newsz ≤ r ∧ r < 2 ^ 31)) m := by
  refine allocuvm_cases (fun _ => ⟨.refl h, fun hr => absurd rfl hr⟩)
    (fun _ hless => ⟨.refl h, fun _ => ⟨hsized, Nat.le_of_lt hless, hold⟩⟩) fun hnew hle => ?_
  have hpages := pages_le (Nat.le_of_lt hnew)
  refine (allocuvm_ends h hle hnew (.inl (hsized.unused hpages))).mono fun r t ht => ⟨ht.kept, fun hr => ?_⟩
  rcases ht.result with ⟨rfl, hextended, -⟩ | ⟨rfl, -⟩
  · exact ⟨hextended.sized hsized (pages_mono hle) hpages, Nat.le_refl r, hnew⟩
  · exact absurd rfl hr

theorem Sized.congr (h : Sized m pgdir sz) (hsame : SameTables pgdir m t) : Sized t pgdir sz := fun q hq => by
  rw [hsame.maps]
  exact h q hq

theorem loadSegments_ends {phdrs : List (Option Proghdr)} (h : Space l m pgdir) (hsized : Sized m pgdir sz)
    (hsz : sz < 2 ^ 31) :
    Ends (fun _ => True) (loadSegments l pgdir sz phdrs) (fun o t =>
      Kept l pgdir m t ∧ ∀ sz, o = some sz → Sized t pgdir sz ∧ sz < 2 ^ 31) m := by
  induction phdrs generalizing m sz with
  | nil =>
    refine ends_pure ⟨.refl h, fun sz' heq => ?_⟩
    cases heq
    exact ⟨hsized, hsz⟩
  | cons ph phdrs ih =>
    cases ph with
    | none => exact ends_pure ⟨.refl h, nofun⟩
    | some ph =>
      unfold loadSegments
      refine ends_ite (fun _ => ih h hsized hsz) fun _ => ends_ite (fun _ => ends_pure ⟨.refl h, nofun⟩) fun hsize => ?_
      refine Ends.bind ((allocuvm_sized h hsized hsz).allow nofun) fun r t ht => ?_
      obtain ⟨hkept, hgrown⟩ := ht
      refine ends_ite (fun _ => ends_pure ⟨hkept, nofun⟩) fun hgood => ?_
      obtain ⟨hsized, htop, hr⟩ := hgrown fun hzero => hgood (.inl hzero)
      -- the segment is below the size
      have hend : ph.vaddr + ph.filesz ≤ r := by
        have := ph.vaddr_lt
        have := ph.memsz_lt
        omega
      refine Ends.bind (loaduvm_ends hkept.space (by omega) fun q _ hq => ?_) fun b u hu => ?_
      · refine (hsized q (by omega)).mpr ?_
        rw [← lt_pages]
        omega
      · have hkept := hkept.trans hu.1
        cases b with
        | false => exact ends_pure ⟨hkept, nofun⟩
        | true => exact (ih hkept.space (hsized.congr hu.2) hr).mono fun o z hz => ⟨hkept.trans hz.1, hz.2⟩

/-! ## The stack -/

variable {argv : List (List Byte)}

def stackTop (sz : Nat) : Nat := pages sz * 4096 + 8192

structure Enough (m : Mem) (pgdir : Page) (sz : Nat) (argv : List (List Byte)) : Prop where
  room : 1026 < m.room pgdir
  size : stackTop sz < 2 ^ 31
  fits : Fits (stackTop sz - 4096) argv.length (stackTop sz) argv
  count : argv.length ≤ maxarg

theorem stackTop_div (sz : Nat) : (stackTop sz - 8192) / 4096 = pages sz := by
  rw [stackTop, Nat.add_sub_cancel]
  exact Nat.mul_div_cancel _ (by decide)

theorem clearpteu_stack (h : UserSpace l m pgdir) (hsz : stackTop sz < 2 ^ 31) (hclear : Kept l pgdir m t)
    (huser : ∀ a, t.user pgdir a =
      if slot (a / 4096) = slot ((stackTop sz - 8192) / 4096) then none else m.user pgdir a) :
    Stack l t pgdir (stackTop sz) (stackTop sz) [] ∧
    ∀ a, stackTop sz ≤ a + 4096 → a < stackTop sz → t.user pgdir a = m.user pgdir a := by
  have htop : stackTop sz = pages sz * 4096 + 8192 := rfl
  rw [stackTop_div] at huser
  refine ⟨⟨h.kept hclear, fun a ha ha' => ?_, ⟨by omega, hsz⟩, ⟨by omega, Nat.le_refl _⟩, by omega, nofun,
    List.Pairwise.nil⟩, fun a ha ha' => ?_⟩
  · rw [huser, if_pos]
    rw [show a / 4096 = pages sz by omega]
  · rw [huser, if_neg]
    intro heq
    have := slot_inj (by omega) (by omega) heq
    omega

theorem Stack.words {strs : List (Nat × List Byte)} {top sp : Nat} {l : Link} {m : Mem}
    (h : Stack l m pgdir top sp strs) (hfits : Fits 0 argv.length sp [])
    (hstrs : strs.map Prod.snd = argv.map (· ++ [0])) :
    Ends (fun _ => ¬ ((∀ a, top ≤ a + 4096 → a < top → m.user pgdir a ≠ none) ∧ Fits (top - 4096) argv.length sp []))
      (copyout pgdir (sp - (3 + strs.length + 1) * 4)
        (([0xFFFFFFFF, strs.length, sp - (strs.length + 1) * 4] ++ strs.map Prod.fst ++ [0]).flatMap (toLe 4)))
      (fun b t => if b then (∀ s ∈ argv, 0 ∉ s) →
          ArgBlock t ⟨pgdir, top, sp - (3 + strs.length + 1) * 4⟩ argv (strs.map Prod.fst)
        else ¬ ((∀ a, top ≤ a + 4096 → a < top → m.user pgdir a ≠ none) ∧ Fits (top - 4096) argv.length sp [])) m := by
  have hcount : strs.length = argv.length := by
    have := congrArg List.length hstrs
    rwa [List.length_map, List.length_map] at this
  obtain ⟨hlo, hhi⟩ := h.inside
  obtain ⟨hmin, hmax⟩ := h.size
  have halign := h.aligned
  unfold Fits at hfits ⊢
  rw [← hcount] at hfits ⊢
  have hargv : sp - (strs.length + 1) * 4 = sp - (3 + strs.length + 1) * 4 + 12 := by omega
  have hlength : (([0xFFFFFFFF, strs.length, sp - (3 + strs.length + 1) * 4 + 12] ++ strs.map Prod.fst ++ [0]).flatMap
      (toLe 4)).length = (3 + strs.length + 1) * 4 := by
    rw [words_length]
    simp only [List.length_append, List.length_cons, List.length_nil, List.length_map]
    omega
  rw [hargv]
  generalize hw : ([0xFFFFFFFF, strs.length, sp - (3 + strs.length + 1) * 4 + 12] ++ strs.map Prod.fst ++ [0]).flatMap
    (toLe 4) = words at *
  have hwritable : (∀ a, top ≤ a + 4096 → a < top → m.user pgdir a ≠ none) ∧
    top - 4096 + (3 + strs.length + 1) * 4 ≤ sp →
      Writable m pgdir (sp - (3 + strs.length + 1) * 4) words.length := by
    rintro ⟨huser, hroom⟩ i hi
    exact huser _ (by omega) (by omega)
  refine ((copyout_push h.space (by omega)).allow fun e he => mt hwritable he).mono fun b t ht => ?_
  cases b with
  | false =>
    simp only [Bool.false_eq_true, if_false] at ht ⊢
    exact mt hwritable ht
  | true =>
    simp only [if_true] at ht ⊢
    intro hnul
    have hne : words ≠ [] := by
      intro hnil
      rw [hnil, List.length_nil] at hlength
      omega
    have hstack := h.push ht (by omega) (by omega) (by omega) hne
    rw [← hw] at hstack
    exact hstack.argBlock hstrs hnul

theorem pushStack_ends (h : UserSpace l m pgdir) (hsized : Sized m pgdir sz) (hsz : sz < 2 ^ 31) :
    Ends (fun _ => ¬ Enough m pgdir sz argv) (pushStack l pgdir sz argv) (fun o t => match o with
      | none => ¬ Enough m pgdir sz argv
      | some r => r.1 = stackTop sz ∧ stackTop sz < 2 ^ 31 ∧ (Fits 0 argv.length r.1 argv → (∀ s ∈ argv, 0 ∉ s) →
        ∃ ptrs, ArgBlock t ⟨pgdir, r.1, r.2⟩ argv ptrs)) m := by
  have hpages := pages_le (Nat.le_of_lt hsz)
  have hround : pgroundup sz = pages sz * 4096 := pgroundup_eq (Nat.le_of_lt hsz)
  have htop : (pages sz * 4096 + 2 * pgsize) % 2 ^ 32 = stackTop sz := by
    change (pages sz * 4096 + 8192) % 2 ^ 32 = pages sz * 4096 + 8192
    omega
  have hold : pages (pages sz * 4096) = pages sz := by
    unfold pages
    omega
  have hnew : pages (stackTop sz) = pages sz + 2 := by
    unfold stackTop pages
    omega
  unfold pushStack
  rw [hround]
  dsimp only
  rw [htop]
  by_cases hlt : stackTop sz < kernbase
  · have hlt' : stackTop sz < 2 ^ 31 := hlt
    have hpages' := pages_le (Nat.le_of_lt hlt')
    have hunused := hsized.unused hpages'
    rw [← hold] at hunused
    have hle : pages sz * 4096 ≤ stackTop sz := Nat.le_add_right _ _
    refine Ends.bind ((allocuvm_ends (E := Never) h.toSpace hle hlt (.inl hunused)).allow nofun) fun r t ht => ?_
    rcases ht.result with ⟨rfl, hextended, -⟩ | ⟨rfl, -, hshort⟩
    · have hpos : stackTop sz ≠ 0 := Nat.succ_ne_zero _
      rw [if_neg hpos]
      rw [hold, hnew, Nat.add_sub_cancel_left] at hextended
      have hspace := h.kept ht.kept
      -- the page before the stack has a page table
      refine Ends.bind ((clearpteu_ends hspace).allow fun e he => ?_) fun _ u hu => ?_
      · rw [show stackTop sz - 2 * pgsize = stackTop sz - 8192 from rfl, stackTop_div] at he
        obtain ⟨y, hy, -⟩ := hextended.added (pages sz) (Nat.le_refl _) (by omega)
        rw [maps_eq_none_of_table he] at hy
        cases hy
      · obtain ⟨hstack, hsame⟩ := clearpteu_stack hspace hlt' hu.1 hu.2
        by_cases hfits : Fits 0 argv.length (stackTop sz) argv
        · have heasy : Enough m pgdir sz argv → Easy u pgdir (stackTop sz) (stackTop sz) 0 argv.length argv := by
            intro henough
            refine ⟨fun a ha ha' => ?_, henough.fits, by rw [Nat.zero_add]; exact henough.count⟩
            rw [hsame a ha ha']
            obtain ⟨y, hy, -, hin, -⟩ := hextended.added (pages sz + 1) (by omega) (by omega)
            have hpage : a / 4096 = pages sz + 1 := by
              unfold stackTop at ha ha'
              omega
            have hflag : entry y userPerm &&& pteU ≠ 0 := by
              rw [flag_entry hin.lt userPerm_lt]
              decide
            rw [user_eq_some.mpr ⟨_, hpage ▸ hy, hflag, rfl⟩]
            nofun
          refine Ends.bind ((pushArgs_ends hstack hfits).allow fun e he => mt heasy he) fun o z hz => ?_
          cases o with
          | none => exact ends_pure (mt heasy hz)
          | some r =>
            obtain ⟨huser, strs, hstrs, hptrs, hbytes, hrest, hlast⟩ := hz
            obtain ⟨sp, ustack⟩ := r
            dsimp only at hstrs hptrs hrest hlast ⊢
            rw [List.nil_append] at hstrs hptrs
            subst hptrs
            have hcount : strs.length = argv.length := by
              have := congrArg List.length hbytes
              rwa [List.length_map, List.length_map] at this
            have hsp := hstrs.inside.2
            have hwords : (3 + strs.length + 1) * 4 ≤ sp := by
              unfold Fits at hrest
              omega
            have hargv : (strs.length + 1) * 4 ≤ sp := by omega
            rw [List.length_map, sub_sp hwords (by omega), sub_sp hargv (by omega)]
            have henough : Enough m pgdir sz argv →
                (∀ a, stackTop sz ≤ a + 4096 → a < stackTop sz → z.user pgdir a ≠ none) ∧
                Fits (stackTop sz - 4096) argv.length sp [] :=
              fun henough => ⟨fun a ha ha' => by rw [huser]; exact (heasy henough).user a ha ha', hlast (heasy henough)⟩
            refine Ends.bind ((hstrs.words hrest hbytes).allow fun e he => mt henough he) fun b z' hz' => ?_
            cases b with
            | false => exact ends_pure (mt henough hz')
            | true => exact ends_pure ⟨rfl, hlt', fun _ hnul => ⟨_, hz' hnul⟩⟩
        · have hnot : ¬ Enough m pgdir sz argv := fun henough => hfits henough.fits.mono
          refine Ends.bind (ends_any fun _ => hnot) fun o z _ => ?_
          cases o with
          | none => exact ends_pure hnot
          | some r =>
            refine Ends.bind (ends_any fun _ => hnot) fun b z' _ => ?_
            cases b with
            | false => exact ends_pure hnot
            | true => exact ends_pure ⟨rfl, hlt', fun hfits' => absurd hfits' hfits⟩
    · rw [if_pos rfl]
      refine ends_pure fun henough => ?_
      have := henough.room
      rw [hold, hnew] at hshort
      omega
  · have hrefuse : allocuvm l pgdir (pages sz * 4096) (stackTop sz) = pure 0 := if_pos (Nat.not_lt.mp hlt)
    rw [hrefuse, ends_pure_bind, if_pos rfl]
    exact ends_pure fun henough => hlt henough.size

theorem pushStack_kept (h : UserSpace l m pgdir) :
    Ends (fun _ => True) (pushStack l pgdir sz argv) (fun _ t => Kept l pgdir m t) m := by
  unfold pushStack
  refine Ends.bind (allocuvm_kept h.toSpace) fun r t ht => ?_
  refine ends_ite (fun _ => ends_pure ht.1) fun _ => ?_
  refine Ends.bind ((clearpteu_ends (h.kept ht.1)).allow fun _ _ => trivial) fun _ u hu => ?_
  have hcleared := ht.1.trans hu.1
  refine Ends.bind (pushArgs_kept (h.kept hcleared)) fun o z hz => ?_
  have hpushed := hcleared.trans hz
  cases o with
  | none => exact ends_pure hpushed
  | some r =>
    refine Ends.bind (copyout_kept (h.kept hpushed) (Nat.mod_lt _ (by decide))) fun b z' hz' => ?_
    cases b with
    | false => exact ends_pure (hpushed.trans hz')
    | true => exact ends_pure (hpushed.trans hz')

/-! ## `exec` -/

theorem loadBytes_congr (h : ∀ a, t.load pgdir a = m.load pgdir a) (a n : Nat) :
    t.loadBytes pgdir a n = m.loadBytes pgdir a n := by
  induction n generalizing a with
  | zero => rfl
  | succ n ih => rw [Mem.loadBytes, Mem.loadBytes, h, ih]

theorem loadStr_congr (h : ∀ a, t.load pgdir a = m.load pgdir a) (a n : Nat) :
    t.loadStr pgdir a n = m.loadStr pgdir a n := by
  induction n generalizing a with
  | zero => rfl
  | succ n ih => rw [Mem.loadStr, Mem.loadStr, h, ih]

theorem ArgBlock.congr {p : Proc} {ptrs : List Nat} (h : ArgBlock m p argv ptrs)
    (hload : ∀ a, t.load p.pgdir a = m.load p.pgdir a) : ArgBlock t p argv ptrs := by
  have hword : ∀ a, t.loadWord p.pgdir a = m.loadWord p.pgdir a := fun a => by
    rw [Mem.loadWord, loadBytes_congr hload, Mem.loadWord]
  refine ⟨(hword _).trans h.argc, (hword _).trans h.argvPtr, h.count, fun i q hi => (hword _).trans (h.pointers i q hi),
    (hword _).trans h.last, fun i q s hi hs => ?_, h.inside, h.apart⟩
  rw [loadStr_congr hload]
  exact h.strings i q s hi hs

theorem setupkvm_empty (h : FreeList l m) :
    Ends Never (setupkvm l) (fun o t => match o with
      | none => m.freelist.length < 65 ∧ (m.freelist = [] → t = m)
      | some d => Fresh l m d t ∧ UserSpace l t d ∧ Sized t d 0 ∧ t.freelist.length + 65 = m.freelist.length) m := by
  refine (setupkvm_ends h).mono fun o t ht => ?_
  cases o with
  | none => exact ht
  | some d =>
    obtain ⟨hfresh, hlength, -, hmaps⟩ := ht
    refine ⟨hfresh, hfresh.space.user hmaps, fun q hq => ?_, hlength⟩
    rw [hmaps q (by omega), kernelEntry_user hq]
    simp [pages]

/-- With so many free pages `exec` loses none when it fails. It takes none when the file is no program. -/
def Builds (image : Image) (free : Nat) : Prop := image.header = true → free = 0 ∨ 65 ≤ free

def BuildPost (l : Link) (image : Image) (argv : List (List Byte)) (m : Mem) (o : Option (Page × Nat × Nat)) (t : Mem) :
    Prop :=
  match o with
  | none => Builds image m.freelist.length → Within l m none t none
  | some (d, sz, sp) => Fresh l m d t ∧ UserSpace l t d ∧ sz < 2 ^ 31 ∧
    (Fits 0 argv.length sz argv → (∀ s ∈ argv, 0 ∉ s) → ∃ ptrs, ArgBlock t ⟨d, sz, sp⟩ argv ptrs)

theorem buildImage_ends {image : Image} (h : FreeList l m) :
    Ends (fun _ => True) (buildImage l image argv) (BuildPost l image argv m) m := by
  have hfail : ∀ {d u}, Fresh l m d u → Ends (fun _ => True) (do freevm l d; pure none) (BuildPost l image argv m) u :=
    fun hu => Ends.bind ((freevm_ends hu.space).allow nofun) fun _ _ hz => ends_pure fun _ => hu.trans hz
  unfold buildImage
  refine ends_ite (fun _ => ends_pure fun _ => .refl h) fun hheader => ?_
  refine Ends.bind ((setupkvm_empty h).allow nofun) fun o t ht => ?_
  cases o with
  | none =>
    refine ends_pure fun hbuilds => ?_
    rcases hbuilds (by simpa using hheader) with hzero | hmany
    · rw [ht.2 (List.length_eq_zero_iff.mp hzero)]
      exact .refl h
    · omega
  | some d =>
    obtain ⟨hfresh, huser, hsized, -⟩ := ht
    refine Ends.bind (loadSegments_ends huser.toSpace hsized (by decide)) fun o u hu => ?_
    have hloaded : Fresh l m d u := hfresh.trans hu.1.toWithin
    cases o with
    | none => exact hfail hloaded
    | some sz =>
      obtain ⟨hsized, hsz⟩ := hu.2 sz rfl
      have huser := huser.kept hu.1
      refine Ends.bind ((pushStack_kept huser).and (pushStack_ends huser hsized hsz)) fun o z hz => ?_
      have hpushed : Fresh l m d z := hloaded.trans hz.1.toWithin
      cases o with
      | none => exact hfail hpushed
      | some r =>
        obtain ⟨sz, sp⟩ := r
        obtain ⟨hkept, hsz, hlt, hblock⟩ := hz
        exact ends_pure ⟨hpushed, huser.kept hkept, hsz.trans_lt hlt, hblock⟩

theorem Within.beside (h : Within l m none t none) (hm : Space l m pgdir) :
    Within l m (some (.space pgdir)) t (some (.space pgdir)) := by
  obtain ⟨hspace, hholds⟩ := h.other hm fun p x hp => ⟨(hm.owned p x hp).2, nofun⟩
  have hfree : ∀ x, x ∉ t.freelist ↔ x ∉ m.freelist := fun x =>
    ⟨fun hx => ((h.apart x).mp ⟨hx, nofun⟩).not_free, fun hx => ((h.apart x).mpr ⟨hx, nofun⟩).not_free⟩
  refine ⟨hspace, fun x => ?_, fun x hx => h.frames x ⟨hx.not_free, nofun⟩⟩
  change Apart t pgdir x ↔ Apart m pgdir x
  rw [Apart, hholds]
  exact ⟨fun hx => ⟨(hfree x).mp hx.not_free, hx.not_held⟩, fun hx => ⟨(hfree x).mpr hx.not_free, hx.not_held⟩⟩

theorem Fresh.old {d old : Page} (h : Fresh l m d t) (hm : Space l m old) :
    Space l t old ∧ t.holds old = m.holds old :=
  Within.other h hm fun p x hp => ⟨(hm.owned p x hp).2, nofun⟩

theorem Fresh.apart_old {d old : Page} {p : Part} (h : Fresh l m d t) (hm : Space l m old) (hp : t.holds d p = some x) :
    Apart t old x := by
  refine ⟨(h.space.owned p x hp).2, fun q hq => ?_⟩
  rw [(h.old hm).2] at hq
  exact (hm.owned q x hq).2 (h.held hp)

/-- The old space is freed when the new one is there. -/
theorem Fresh.replace {d old : Page} (h : Fresh l m d t) (hm : Space l m old)
    (hu : Within l t (some (.space old)) u none) : Within l m (some (.space old)) u (some (.space d)) := by
  obtain ⟨hspace, hholds⟩ := hu.other h.space fun p x hp => h.apart_old hm hp
  have hold := (h.old hm).2
  have hboth : ∀ x, Apart m old x → Apart t d x ∧ Apart t old x := by
    intro x hx
    have hnew := (h.apart x).mpr ⟨hx.not_free, nofun⟩
    exact ⟨hnew, hnew.not_free, by rw [hold]; exact hx.not_held⟩
  have hout : ∀ x, Apart u d x ↔ Apart m old x := by
    intro x
    constructor
    · intro hx
      have hleft := (hu.apart x).mp ⟨hx.not_free, nofun⟩
      have hnew : Apart t d x := ⟨hleft.not_free, hholds ▸ hx.not_held⟩
      exact ⟨((h.apart x).mp hnew).not_free, hold ▸ hleft.not_held⟩
    · intro hx
      obtain ⟨hnew, hleft⟩ := hboth x hx
      exact ⟨((hu.apart x).mpr hleft).not_free, by rw [hholds]; exact hnew.not_held⟩
  exact ⟨hspace, hout, fun x hx => (hu.frames x (hboth x hx).2).trans (h.frame hx.not_free)⟩

theorem Fresh.load {d old : Page} (h : Fresh l m d t) (hm : Space l m old) (ht : UserSpace l t d)
    (hu : Within l t (some (.space old)) u none) (a : Nat) : u.load d a = t.load d a := by
  have hframes : ∀ p x, t.holds d p = some x → u.frame x = t.frame x := fun p x hp => hu.frames x (h.apart_old hm hp)
  have hsame : SameTables d t u := ⟨hframes .dir d rfl, fun i x hx => hframes (.table i) x hx⟩
  rw [Mem.load, hsame.user, Mem.load]
  cases hx : t.user d a with
  | none => rfl
  | some x => rw [Option.map_some, Option.map_some, hframes _ x (ht.user_held hx).2]

theorem exec_ends {image : Image} {s : Sys} (h : Space l s.mem s.proc.pgdir) :
    Ends (fun _ => True) (exec l image argv) (fun b s' =>
      (Builds image s.mem.freelist.length →
        Within l s.mem (some (.space s.proc.pgdir)) s'.mem (some (.space s'.proc.pgdir))) ∧
      (s.proc.sz < 2 ^ 31 → s'.proc.sz < 2 ^ 31) ∧
      (b = true → Fits 0 argv.length s'.proc.sz argv → (∀ a ∈ argv, 0 ∉ a) →
        ∃ ptrs, ArgBlock s'.mem s'.proc argv ptrs)) s := by
  unfold exec
  refine Ends.bind (ends_onMem (buildImage_ends h.toFreeList)) fun o t ht => ?_
  obtain ⟨m, rfl, hm⟩ := ht
  cases o with
  | none => exact ends_pure ⟨fun hbuilds => (hm hbuilds).beside h, id, nofun⟩
  | some r =>
    obtain ⟨d, sz, sp⟩ := r
    obtain ⟨hfresh, huser, hsz, hblock⟩ := hm
    apply ends_get_bind
    apply ends_modify_bind
    refine Ends.bind ((ends_onMem (s := ⟨m, ⟨d, sz, sp⟩⟩) (freevm_ends (hfresh.old h).1)).allow nofun)
      fun _ u hu => ends_pure ?_
    obtain ⟨z, rfl, hz⟩ := hu
    refine ⟨fun _ => hfresh.replace h hz, fun _ => hsz, fun _ hfits hnul => ?_⟩
    obtain ⟨ptrs, hptrs⟩ := hblock hfits hnul
    exact ⟨ptrs, hptrs.congr (hfresh.load h huser hz)⟩

/-- When `exec` returns 0 and `sp` has not gone below 0, the new program finds its arguments on the stack. -/
theorem exec_args (l : Link) (image : Image) (argv : List (List Byte)) (s s' : Sys) (h : Space l s.mem s.proc.pgdir)
    (hnul : ∀ a ∈ argv, 0 ∉ a) (hexec : exec l image argv s = .ok (true, s'))
    (hfits : Fits 0 argv.length s'.proc.sz argv) : ∃ ptrs, ArgBlock s'.mem s'.proc argv ptrs :=
  ((exec_ends h).of_ok hexec).2.2 rfl hfits hnul

theorem exec_bare {s : Sys} (argv : List (List Byte)) (h : Space l s.mem s.proc.pgdir)
    (hroom : 1092 ≤ s.mem.freelist.length) (hfits : Fits 4096 argv.length 8192 argv) (hcount : argv.length ≤ maxarg) :
    ∃ s', exec l ⟨true, []⟩ argv s = .ok (true, s') ∧ s'.proc.sz = 8192 := by
  have htop : stackTop 0 = 8192 := rfl
  have hbuild : Ends Never (buildImage l ⟨true, []⟩ argv) (fun o t => match o with
      | none => False
      | some r => r.2.1 = 8192 ∧ Fresh l s.mem r.1 t) s.mem := by
    unfold buildImage
    rw [if_neg (by decide)]
    refine Ends.bind (setupkvm_empty h.toFreeList) fun o t ht => ?_
    cases o with
    | none => exact absurd ht.1 (by omega)
    | some d =>
      obtain ⟨hfresh, huser, hsized, hlength⟩ := ht
      have hroom : t.freelist.length ≤ t.room d := Nat.le_add_right _ _
      have henough : Enough t d 0 argv := ⟨by omega, by decide, by rw [htop]; exact hfits, hcount⟩
      dsimp only
      rw [show loadSegments l d 0 [] = pure (some 0) from rfl, ends_pure_bind]
      refine Ends.bind (((pushStack_ends huser hsized (by decide)).allow fun _ he => he henough).and
        (pushStack_kept huser)) fun o z hz => ?_
      cases o with
      | none => exact absurd henough hz.1
      | some r =>
        obtain ⟨sz, sp⟩ := r
        exact ends_pure ⟨hz.1.1, hfresh.trans hz.2.toWithin⟩
  have hexec : Ends Never (exec l ⟨true, []⟩ argv) (fun b s' => b = true ∧ s'.proc.sz = 8192) s := by
    unfold exec
    refine Ends.bind (ends_onMem hbuild) fun o t ht => ?_
    obtain ⟨m, rfl, hm⟩ := ht
    cases o with
    | none => exact hm.elim
    | some r =>
      obtain ⟨d, sz, sp⟩ := r
      obtain ⟨hsz, hfresh⟩ := hm
      apply ends_get_bind
      apply ends_modify_bind
      refine Ends.bind (ends_onMem (s := ⟨m, ⟨d, sz, sp⟩⟩) (freevm_ends (Fresh.old hfresh h).1))
        fun _ u hu => ends_pure ⟨rfl, ?_⟩
      obtain ⟨z, rfl, -⟩ := hu
      exact hsz
  obtain ⟨b, s', hrun, rfl, hsz⟩ := hexec.exists_ok fun _ => id
  exact ⟨s', hrun, hsz⟩

theorem exec_three_args : ∃ s' ptrs, exec smallLink ⟨true, []⟩ [[104, 105], [], [49, 50, 51, 52]] onePageProc =
    .ok (true, s') ∧ ArgBlock s'.mem s'.proc [[104, 105], [], [49, 50, 51, 52]] ptrs := by
  have hspace := onePage_space.1
  have hfits : Fits 4096 3 8192 [[104, 105], [], [49, 50, 51, 52]] := by
    simp only [Fits, List.length_cons, List.length_nil]
    decide
  have hroom : 1092 ≤ onePageProc.mem.freelist.length := by
    have hlength : onePageProc.mem.freelist.length = 0x1000 := List.length_range'
    omega
  obtain ⟨s', hrun, hsz⟩ := exec_bare [[104, 105], [], [49, 50, 51, 52]] hspace hroom hfits (by decide)
  have hfits' : Fits 0 3 s'.proc.sz [[104, 105], [], [49, 50, 51, 52]] := by
    rw [hsz]
    exact hfits.mono
  obtain ⟨ptrs, hptrs⟩ := exec_args smallLink ⟨true, []⟩ [[104, 105], [], [49, 50, 51, 52]] onePageProc s' hspace
    (by decide) hrun hfits'
  exact ⟨s', ptrs, hrun, hptrs⟩

end Xv6.Paging
