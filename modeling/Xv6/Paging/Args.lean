import Xv6.Paging.Copyout

/-!
# The argument block

What `exec` pushes onto the stack of the new program, and how the program reads it.
-/

namespace Xv6.Paging

open Code Bytes

/-! ## Reading -/

namespace Mem

variable (m : Mem) (pgdir : Page)

def load (a : Nat) : Option Byte := (m.user pgdir a).map fun x => m.frame x (offset a)

def loadBytes : (a n : Nat) → Option (List Byte)
  | _, 0 => some []
  | a, n + 1 => do
    let c ← m.load pgdir a
    let cs ← loadBytes (a + 1) n
    pure (c :: cs)

def loadWord (a : Nat) : Option Nat := (m.loadBytes pgdir a 4).map ofLe

/-- The string at an address, if its 0 comes before `n` bytes. -/
def loadStr : (a n : Nat) → Option (List Byte)
  | _, 0 => none
  | a, n + 1 => do
    let c ← m.load pgdir a
    if c = 0 then pure []
    else
      let cs ← loadStr (a + 1) n
      pure (c :: cs)

end Mem

def Stored (m : Mem) (pgdir : Page) (a : Nat) (bs : List Byte) : Prop :=
  ∀ i c, bs[i]? = some c → m.load pgdir (a + i) = some c

variable {l : Link} {m t u : Mem} {pgdir x : Page} {a b n va sz sp : Nat} {bs cs : List Byte}

theorem Stored.cons {c : Byte} (h : Stored m pgdir a (c :: cs)) :
    m.load pgdir a = some c ∧ Stored m pgdir (a + 1) cs := by
  refine ⟨h 0 c rfl, fun i c' hi => ?_⟩
  rw [Nat.add_assoc, Nat.add_comm 1 i]
  exact h (i + 1) c' hi

theorem Stored.slice (h : Stored m pgdir a bs) (k n : Nat) : Stored m pgdir (a + k) ((bs.drop k).take n) := by
  intro i c hi
  rw [List.getElem?_take] at hi
  split at hi
  · rw [List.getElem?_drop] at hi
    rw [Nat.add_assoc]
    exact h (k + i) c hi
  · cases hi

theorem Stored.loadBytes (h : Stored m pgdir a bs) : m.loadBytes pgdir a bs.length = some bs := by
  induction bs generalizing a with
  | nil => rfl
  | cons c cs ih =>
    obtain ⟨hc, hcs⟩ := h.cons
    rw [List.length_cons, Mem.loadBytes, hc, ih hcs]
    rfl

theorem Stored.loadWord {words : List Nat} {i w : Nat} (h : Stored m pgdir a (words.flatMap (toLe 4)))
    (hi : words[i]? = some w) (hw : w < 2 ^ 32) : m.loadWord pgdir (a + 4 * i) = some w := by
  obtain ⟨hlt, rfl⟩ := List.getElem?_eq_some_iff.mp hi
  have hslice := h.slice (4 * i) 4
  rw [take_drop_flatMap (fun x _ => toLe_length 4 x) hlt] at hslice
  have hload := hslice.loadBytes
  rw [toLe_length] at hload
  rw [Mem.loadWord, hload, Option.map_some, ofLe_toLe_of_lt 4 _ (by omega)]

theorem Stored.loadStr {s : List Byte} (h : Stored m pgdir a (s ++ [0])) (hs : 0 ∉ s) (hn : s.length < n) :
    m.loadStr pgdir a n = some s := by
  induction s generalizing a n with
  | nil =>
    obtain ⟨n, rfl⟩ : ∃ k, n = k + 1 := ⟨n - 1, by rw [List.length_nil] at hn; omega⟩
    rw [Mem.loadStr, h.cons.1]
    rfl
  | cons c s ih =>
    rw [List.length_cons] at hn
    obtain ⟨n, rfl⟩ : ∃ k, n = k + 1 := ⟨n - 1, by omega⟩
    have hall : Stored m pgdir a (c :: (s ++ [0])) := h
    obtain ⟨hc, hrest⟩ := hall.cons
    have hne : c ≠ 0 := fun hzero => hs (hzero ▸ List.mem_cons_self)
    rw [Mem.loadStr, hc, Option.bind_eq_bind, Option.bind_some, if_neg hne,
      ih hrest (fun hmem => hs (List.mem_cons_of_mem c hmem)) (by omega)]
    rfl

/-! ## Writing -/

theorem Wrote.stored (h : Wrote pgdir va bs m t) : Stored t pgdir va bs := by
  intro i c hi
  obtain ⟨hlt, -⟩ := List.getElem?_eq_some_iff.mp hi
  obtain ⟨x, hx⟩ := Option.ne_none_iff_exists'.mp (h.pages i hlt).2
  rw [Mem.load, h.same.user, hx, Option.map_some, h.bytes i c x hi hx]

theorem Wrote.load_other (h : Wrote pgdir va bs m t) (hm : UserSpace l m pgdir) (ha : a < 2 ^ 32)
    (hout : ∀ i < bs.length, va + i ≠ a) : t.load pgdir a = m.load pgdir a := by
  rw [Mem.load, h.same.user, Mem.load]
  cases hx : m.user pgdir a with
  | none => rfl
  | some x =>
    rw [Option.map_some, Option.map_some, h.rest]
    intro i hi hxi hoff
    have hpage := hm.user_inj (by have := (h.pages i hi).1; omega) ha hxi hx
    have hmod : (va + i) % 4096 = a % 4096 := congrArg Fin.val hoff
    exact hout i hi (by omega)

theorem Wrote.stored_other (h : Wrote pgdir va bs m t) (hm : UserSpace l m pgdir) (hc : Stored m pgdir a cs)
    (ha : a + cs.length ≤ 2 ^ 32) (hout : va + bs.length ≤ a) : Stored t pgdir a cs := by
  intro i c hi
  obtain ⟨hlt, -⟩ := List.getElem?_eq_some_iff.mp hi
  rw [h.load_other hm (by omega) fun j hj => by omega]
  exact hc i c hi

/-! ## The stack -/

/-- The page below `sz`, with what has been pushed, from `sp` on. The page before it cannot be got at. -/
structure Stack (l : Link) (m : Mem) (pgdir : Page) (sz sp : Nat) (blocks : List (Nat × List Byte)) : Prop where
  space : UserSpace l m pgdir
  guard : ∀ a, sz ≤ a + 8192 → a + 4096 < sz → m.user pgdir a = none
  size : 8192 ≤ sz ∧ sz < 2 ^ 31
  inside : sz ≤ sp + 4096 ∧ sp ≤ sz
  aligned : sp % 4 = 0
  stored : ∀ b ∈ blocks, Stored m pgdir b.1 b.2 ∧ b.1 % 4 = 0 ∧ sp ≤ b.1 ∧ b.1 + b.2.length ≤ sz
  apart : blocks.Pairwise fun b c => c.1 + c.2.length ≤ b.1

theorem Stack.push {blocks : List (Nat × List Byte)} (h : Stack l m pgdir sz sp blocks) (hw : Wrote pgdir va bs m t)
    (hva : va % 4 = 0) (hbelow : va + bs.length ≤ sp) (hnear : sp < va + bs.length + 4) (hpos : bs ≠ []) :
    Stack l t pgdir sz va (blocks ++ [(va, bs)]) := by
  obtain ⟨hlo, hhi⟩ := h.inside
  obtain ⟨hmin, hmax⟩ := h.size
  have hlen : 0 < bs.length := List.length_pos_iff.mpr hpos
  have hin : sz ≤ va + 4096 := by
    by_contra hout
    -- some byte would be in the page before the stack
    have hbyte := (hw.pages (max va (sz - 8192) - va) (by omega)).2
    exact hbyte (h.guard _ (by omega) (by omega))
  refine ⟨h.space.kept (hw.kept h.space), fun a ha ha' => (hw.same.user a).trans (h.guard a ha ha'), h.size,
    ⟨hin, by omega⟩, hva,
    fun c hc => ?_, ?_⟩
  · rcases List.mem_append.mp hc with hc | hc
    · obtain ⟨hstored, halign, hsp, hend⟩ := h.stored c hc
      exact ⟨hw.stored_other h.space hstored (by omega) (by omega), halign, by omega, hend⟩
    · rw [List.mem_singleton.mp hc]
      exact ⟨hw.stored, hva, Nat.le_refl va, by dsimp only; omega⟩
  · refine List.pairwise_append.mpr ⟨h.apart, List.pairwise_singleton _ _, fun b hb c hc => ?_⟩
    rw [List.mem_singleton.mp hc]
    have := (h.stored b hb).2.2.1
    dsimp only
    omega

/-! ## The block -/

/-- `argc`, `argv` and the strings, in the stack page, aligned and without overlap. -/
structure ArgBlock (m : Mem) (p : Proc) (argv : List (List Byte)) (ptrs : List Nat) : Prop where
  argc : m.loadWord p.pgdir (p.esp + 4) = some argv.length
  argvPtr : m.loadWord p.pgdir (p.esp + 8) = some (p.esp + 12)
  count : ptrs.length = argv.length
  pointers : ∀ i q : Nat, ptrs[i]? = some q → m.loadWord p.pgdir (p.esp + 12 + 4 * i) = some q
  last : m.loadWord p.pgdir (p.esp + 12 + 4 * argv.length) = some 0
  strings : ∀ (i q : Nat) (s : List Byte), ptrs[i]? = some q → argv[i]? = some s → m.loadStr p.pgdir q pgsize = some s
  inside : ∀ b ∈ (p.esp, 4 * (argv.length + 4)) :: ptrs.zip (argv.map fun s => s.length + 1),
    p.sz ≤ b.1 + pgsize ∧ b.1 + b.2 ≤ p.sz ∧ b.1 % 4 = 0
  apart : ((p.esp, 4 * (argv.length + 4)) :: ptrs.zip (argv.map fun s => s.length + 1)).Pairwise fun b c =>
    b.1 + b.2 ≤ c.1 ∨ c.1 + c.2 ≤ b.1

theorem words_length (words : List Nat) : (words.flatMap (toLe 4)).length = 4 * words.length := by
  induction words with
  | nil => rfl
  | cons w words ih =>
    rw [List.flatMap_cons, List.length_append, toLe_length, ih, List.length_cons]
    omega

theorem Stack.argBlock {strs : List (Nat × List Byte)} {argv : List (List Byte)}
    (h : Stack l m pgdir sz sp (strs ++
      [(sp, ([0xFFFFFFFF, strs.length, sp + 12] ++ strs.map Prod.fst ++ [0]).flatMap (toLe 4))]))
    (hstrs : strs.map Prod.snd = argv.map (· ++ [0])) (hnul : ∀ s ∈ argv, 0 ∉ s) :
    ArgBlock m ⟨pgdir, sz, sp⟩ argv (strs.map Prod.fst) := by
  have hcount : strs.length = argv.length := by
    have := congrArg List.length hstrs
    rwa [List.length_map, List.length_map] at this
  obtain ⟨hmin, hmax⟩ := h.size
  obtain ⟨hlo, hhi⟩ := h.inside
  obtain ⟨hwords, halign, -, hend⟩ := h.stored _ (List.mem_append_right strs List.mem_cons_self)
  dsimp only at hwords halign hend
  rw [words_length] at hend
  simp only [List.length_append, List.length_cons, List.length_nil, List.length_map] at hend
  have hstored : ∀ b ∈ strs, Stored m pgdir b.1 b.2 ∧ b.1 % 4 = 0 ∧ sp ≤ b.1 ∧ b.1 + b.2.length ≤ sz :=
    fun b hb => h.stored b (List.mem_append_left _ hb)
  have hzip : (strs.map Prod.fst).zip (argv.map fun s => s.length + 1) = strs.map fun b => (b.1, b.2.length) := by
    have hlengths : argv.map (fun s => s.length + 1) = strs.map fun b => b.2.length := by
      have := congrArg (List.map List.length) hstrs
      rw [List.map_map, List.map_map] at this
      rw [show (fun b : Nat × List Byte => b.2.length) = List.length ∘ Prod.snd from rfl, this]
      refine List.map_congr_left fun s _ => ?_
      simp
    rw [hlengths, List.zip_map']
  have hpairwise := List.pairwise_append.mp h.apart
  refine ⟨?_, ?_, by rw [List.length_map, hcount], fun i q hi => ?_, ?_, fun i q s hi hs => ?_, fun b hb => ?_, ?_⟩
  · rw [← hcount]
    exact hwords.loadWord (i := 1) rfl (by omega)
  · exact hwords.loadWord (i := 2) rfl (show sp + 12 < 2 ^ 32 by omega)
  · have hlt := (List.getElem?_eq_some_iff.mp hi).1
    rw [List.length_map] at hlt
    have hword : ([0xFFFFFFFF, strs.length, sp + 12] ++ strs.map Prod.fst ++ [0])[3 + i]? = some q := by
      rw [List.getElem?_append_left (by simp; omega), List.getElem?_append_right (by simp), ← hi]
      simp
    have hq : q < 2 ^ 32 := by
      obtain ⟨b, hb, rfl⟩ := List.mem_map.mp (List.mem_of_getElem? hi)
      have := hstored b hb
      omega
    have := hwords.loadWord hword hq
    rwa [Nat.mul_add, ← Nat.add_assoc] at this
  · have hword : ([0xFFFFFFFF, strs.length, sp + 12] ++ strs.map Prod.fst ++ [0])[3 + argv.length]? = some 0 := by
      have hlast : ([0xFFFFFFFF, strs.length, sp + 12] ++ strs.map Prod.fst).length = 3 + argv.length := by
        rw [List.length_append, List.length_map, hcount]
        rfl
      rw [List.getElem?_append_right (Nat.le_of_eq hlast), hlast, Nat.sub_self]
      rfl
    have := hwords.loadWord hword (by decide)
    rwa [Nat.mul_add, ← Nat.add_assoc] at this
  · rw [List.getElem?_map, Option.map_eq_some_iff] at hi
    obtain ⟨b, hb, rfl⟩ := hi
    have hbytes : b.2 = s ++ [0] := by
      have := congrArg (fun bs : List (List Byte) => bs[i]?) hstrs
      simp only [List.getElem?_map, hb, hs, Option.map_some, Option.some.injEq] at this
      exact this
    obtain ⟨hb', -, hge, hle⟩ := hstored b (List.mem_of_getElem? hb)
    rw [hbytes] at hb' hle
    rw [List.length_append, List.length_singleton] at hle
    exact hb'.loadStr (hnul s (List.mem_of_getElem? hs)) (show s.length < 4096 by omega)
  · rw [hzip] at hb
    rcases List.mem_cons.mp hb with rfl | hb
    · refine ⟨hlo, ?_, halign⟩
      dsimp only
      omega
    · obtain ⟨c, hc, rfl⟩ := List.mem_map.mp hb
      obtain ⟨-, hcalign, hge, hle⟩ := hstored c hc
      refine ⟨?_, hle, hcalign⟩
      change sz ≤ c.1 + 4096
      omega
  · rw [hzip]
    refine List.pairwise_cons.mpr ⟨fun b hb => .inl ?_, ?_⟩
    · obtain ⟨c, hc, rfl⟩ := List.mem_map.mp hb
      have := hpairwise.2.2 c hc _ List.mem_cons_self
      dsimp only at this ⊢
      rw [words_length] at this
      simp only [List.length_append, List.length_cons, List.length_nil, List.length_map] at this
      omega
    · rw [List.pairwise_map]
      exact hpairwise.1.imp fun hbc => .inr hbc

/-! ## `pushArgs` -/

def Fits (lo argc : Nat) : (sp : Nat) → List (List Byte) → Prop
  | sp, [] => lo + (3 + argc + 1) * 4 ≤ sp
  | sp, s :: argv => s.length + 1 ≤ sp ∧ lo ≤ (sp - (s.length + 1)) / 4 * 4 ∧
    Fits lo argc ((sp - (s.length + 1)) / 4 * 4) argv

theorem Fits.mono {lo argc : Nat} {argv : List (List Byte)} (h : Fits lo argc sp argv) : Fits 0 argc sp argv := by
  induction argv generalizing sp with
  | nil =>
    unfold Fits at h ⊢
    omega
  | cons s argv ih => exact ⟨h.1, Nat.zero_le _, ih h.2.2⟩

theorem sub_sp {k : Nat} (hk : k ≤ sp) (hsp : sp < 2 ^ 32) : (sp + (2 ^ 32 - k)) % 2 ^ 32 = sp - k := by omega

theorem copyout_push (h : UserSpace l m pgdir) (hva : va < 2 ^ 32) :
    Ends (fun _ => ¬ Writable m pgdir va bs.length) (copyout pgdir va bs) (fun b t =>
      if b then Wrote pgdir va bs m t else ¬ Writable m pgdir va bs.length) m := by
  refine ((copyout_ends h hva).allow fun e he hall => ?_).mono fun b t ht => ?_
  · obtain ⟨-, k, hk, -, hnone⟩ := he
    exact hall k hk (by rw [Mem.user, maps_eq_none_of_table hnone])
  · obtain ⟨k, hk, hwrote, hpost⟩ := ht
    cases b with
    | true =>
      simp only [if_true] at hpost ⊢
      rwa [hpost, List.take_length] at hwrote
    | false =>
      simp only [Bool.false_eq_true, if_false] at hpost ⊢
      exact fun hall => hall k hpost.1 hpost.2.1

structure Easy (m : Mem) (pgdir : Page) (sz sp count argc : Nat) (argv : List (List Byte)) : Prop where
  user : ∀ a, sz ≤ a + 4096 → a < sz → m.user pgdir a ≠ none
  fits : Fits (sz - 4096) argc sp argv
  count : count + argv.length ≤ maxarg

theorem pushArgs_ends {blocks : List (Nat × List Byte)} {argc : Nat} {argv : List (List Byte)}
    (h : Stack l m pgdir sz sp blocks) (hfits : Fits 0 argc sp argv) :
    Ends (fun _ => ¬ Easy m pgdir sz sp blocks.length argc argv) (pushArgs pgdir sp (blocks.map Prod.fst) argv)
    (fun o t =>
      match o with
      | none => ¬ Easy m pgdir sz sp blocks.length argc argv
      | some r => (∀ a, t.user pgdir a = m.user pgdir a) ∧ ∃ new, Stack l t pgdir sz r.1 (blocks ++ new) ∧
        r.2 = (blocks ++ new).map Prod.fst ∧ new.map Prod.snd = argv.map (· ++ [0]) ∧ Fits 0 argc r.1 [] ∧
        (Easy m pgdir sz sp blocks.length argc argv → Fits (sz - 4096) argc r.1 [])) m := by
  induction argv generalizing m sp blocks with
  | nil =>
    refine ends_pure ⟨fun _ => rfl, [], ?_, ?_, rfl, hfits, fun heasy => heasy.fits⟩
    · rwa [List.append_nil]
    · rw [List.append_nil]
  | cons s argv ih =>
    obtain ⟨hlen, -, hrest⟩ := hfits
    obtain ⟨hlo, hhi⟩ := h.inside
    obtain ⟨hmin, hmax⟩ := h.size
    unfold pushArgs
    refine ends_ite (fun hmany => ends_pure fun heasy => ?_) fun hfew => ?_
    · have := heasy.count
      rw [List.length_map] at hmany
      rw [List.length_cons] at this
      omega
    · rw [sub_sp hlen (by omega)]
      have hbytes : (s ++ [0]).length = s.length + 1 := by simp
      -- the string goes right below what has been pushed
      have hwritable : Easy m pgdir sz sp blocks.length argc (s :: argv) →
          Writable m pgdir ((sp - (s.length + 1)) / 4 * 4) (s ++ [0]).length := by
        intro heasy i hi
        rw [hbytes] at hi
        have := heasy.fits.2.1
        exact heasy.user _ (by omega) (by omega)
      refine Ends.bind ((copyout_push h.space (by omega)).allow fun e he => mt hwritable he) fun b t ht => ?_
      cases b with
      | false =>
        simp only [Bool.false_eq_true, if_false] at ht ⊢
        exact ends_pure (mt hwritable ht)
      | true =>
        simp only [if_true] at ht ⊢
        have hstack := h.push ht (by omega) (by rw [hbytes]; omega) (by rw [hbytes]; omega) (by simp)
        have hnext : blocks.map Prod.fst ++ [(sp - (s.length + 1)) / 4 * 4] =
            (blocks ++ [((sp - (s.length + 1)) / 4 * 4, s ++ [0])]).map Prod.fst := by
          rw [List.map_append]
          rfl
        have heasy : Easy m pgdir sz sp blocks.length argc (s :: argv) → Easy t pgdir sz ((sp - (s.length + 1)) / 4 * 4)
            (blocks ++ [((sp - (s.length + 1)) / 4 * 4, s ++ [0])]).length argc argv := by
          intro heasy
          refine ⟨fun a ha ha' => by rw [ht.same.user]; exact heasy.user a ha ha', heasy.fits.2.2, ?_⟩
          have := heasy.count
          rw [List.length_cons] at this
          rw [List.length_append, List.length_singleton]
          omega
        rw [hnext]
        refine ((ih hstack hrest).allow fun e he => mt heasy he).mono fun o u hu => ?_
        cases o with
        | none => exact mt heasy hu
        | some r =>
          obtain ⟨huser, new, hnew, hptrs, hstrs, hfits, hlast⟩ := hu
          rw [List.append_assoc] at hnew hptrs
          refine ⟨fun a => (huser a).trans (ht.same.user a), _, hnew, hptrs, ?_, hfits, fun he => hlast (heasy he)⟩
          rw [List.map_append, hstrs]
          rfl

theorem pushArgs_kept {ustack : List Nat} {argv : List (List Byte)} (h : UserSpace l m pgdir) :
    Ends (fun _ => True) (pushArgs pgdir sp ustack argv) (fun _ t => Kept l pgdir m t) m := by
  induction argv generalizing m sp ustack with
  | nil => exact ends_pure (.refl h.toSpace)
  | cons s argv ih =>
    unfold pushArgs
    refine ends_ite (fun _ => ends_pure (.refl h.toSpace)) fun _ => ?_
    refine Ends.bind (copyout_kept h (by omega)) fun b t ht => ?_
    cases b with
    | false => exact ends_pure ht
    | true => exact (ih (h.kept ht)).mono fun _ u hu => ht.trans hu

end Xv6.Paging
