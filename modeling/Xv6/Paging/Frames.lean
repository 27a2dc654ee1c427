import Xv6.Paging.Spec

/-!
# Entries

The parts of an entry, and the pages of an address space by their entries.
-/

namespace Xv6.Paging

/-! ## Words -/

namespace Frame

variable (f : Frame) (i j : Fin 1024) (w : Word)

theorem setWord_byteOf (k : Fin 4) : f.setWord i w (byteOf i k) = w.extractLsb' (8 * k.val) 8 := by
  have hdiv : (4 * i.val + k.val) / 4 = i.val := by omega
  have hmod : (4 * i.val + k.val) % 4 = k.val := by omega
  simp only [setWord, byteOf, hdiv, hmod, if_true]

theorem setWord_byteOf_ne {i j : Fin 1024} (h : j ≠ i) (k : Fin 4) : f.setWord i w (byteOf j k) = f (byteOf j k) := by
  have hdiv : (4 * j.val + k.val) / 4 = j.val := by omega
  refine if_neg ?_
  simp only [byteOf, hdiv]
  exact fun heq => h (Fin.ext heq)

@[simp] theorem word_setWord_self : (f.setWord i w).word i = w := by
  simp only [word, setWord_byteOf]
  refine BitVec.eq_of_getLsbD_eq fun k hk => ?_
  simp only [BitVec.getLsbD_append, BitVec.getLsbD_extractLsb', Fin.isValue]
  -- which of the four bytes the bit is in
  rcases (by omega : k < 8 ∨ 8 ≤ k ∧ k < 16 ∨ 16 ≤ k ∧ k < 24 ∨ 24 ≤ k) with h | ⟨h1, h2⟩ | ⟨h1, h2⟩ | h
  · simp [h]
  · simp [show ¬ k < 8 by omega, show k - 8 < 8 by omega, show 8 + (k - 8) = k by omega]
  · simp [show ¬ k < 8 by omega, show ¬ k - 8 < 8 by omega, show k - 8 - 8 < 8 by omega,
      show 16 + (k - 8 - 8) = k by omega]
  · simp [show ¬ k < 8 by omega, show ¬ k - 8 < 8 by omega, show ¬ k - 8 - 8 < 8 by omega,
      show k - 8 - 8 - 8 < 8 by omega, show 24 + (k - 8 - 8 - 8) = k by omega]

theorem word_setWord_ne {i j : Fin 1024} (h : j ≠ i) : (f.setWord i w).word j = f.word j := by
  simp only [word, setWord_byteOf_ne f w h]

@[simp] theorem word_zero : Frame.word (fun _ => 0) i = 0 := by
  simp only [word]
  rfl

end Frame

/-! ## Entries -/

abbrev Present (pte : Word) : Prop := pte &&& pteP ≠ 0

theorem present_or (w : Word) : Present (w ||| pteP) := by
  intro h
  have := congrArg (BitVec.getLsbD · 0) h
  simp [pteP] at this

theorem not_present_zero : ¬ Present 0 := by decide

section Entry

variable {x : Nat} {flags : Word}

theorem entry_toNat (hx : x < 2 ^ 20) (hflags : flags.toNat < 4096) :
    (BitVec.ofNat 32 (x * 4096) ||| flags).toNat = x * 4096 + flags.toNat := by
  have hlt : x * 4096 < 2 ^ 32 := by omega
  rw [BitVec.toNat_or, BitVec.toNat_ofNat, Nat.mod_eq_of_lt hlt, Nat.mul_comm,
    ← Nat.two_pow_add_eq_or_of_lt (i := 12) hflags]

theorem pteAddr_entry (hx : x < 2 ^ 20) (hflags : flags.toNat < 4096) :
    pteAddr (BitVec.ofNat 32 (x * 4096) ||| flags) = x := by
  rw [pteAddr, entry_toNat hx hflags]
  change (x * 4096 + flags.toNat) / 4096 = x
  omega

theorem pteFlags_entry (hx : x < 2 ^ 20) (hflags : flags.toNat < 4096) :
    pteFlags (BitVec.ofNat 32 (x * 4096) ||| flags) = flags := by
  apply BitVec.eq_of_toNat_eq
  have hmask : (0xFFF : Word).toNat = 2 ^ 12 - 1 := rfl
  rw [pteFlags, BitVec.toNat_and, hmask, Nat.and_two_pow_sub_one_eq_mod, entry_toNat hx hflags]
  omega

end Entry

theorem pteFlags_lt (pte : Word) : (pteFlags pte).toNat < 4096 := by
  have hmask : (0xFFF : Word).toNat = 2 ^ 12 - 1 := rfl
  rw [pteFlags, BitVec.toNat_and, hmask, Nat.and_two_pow_sub_one_eq_mod]
  omega

theorem or_lt {flags : Word} (h : flags.toNat < 4096) : (flags ||| pteP).toNat < 4096 := by
  rw [BitVec.toNat_or]
  exact Nat.or_lt_two_pow (n := 12) h (by decide)

def entry (p : Nat) (perm : Word) : Word := BitVec.ofNat 32 (p * 4096) ||| perm ||| pteP

theorem present_entry (p : Nat) (perm : Word) : Present (entry p perm) := present_or _

theorem pteAddr_mapped {p : Nat} {perm : Word} (hp : p < 2 ^ 20) (hperm : perm.toNat < 4096) :
    pteAddr (entry p perm) = p := by
  rw [entry, BitVec.or_assoc]
  exact pteAddr_entry hp (or_lt hperm)

theorem pteFlags_mapped {p : Nat} {perm : Word} (hp : p < 2 ^ 20) (hperm : perm.toNat < 4096) :
    pteFlags (entry p perm) = perm ||| pteP := by
  rw [entry, BitVec.or_assoc]
  exact pteFlags_entry hp (or_lt hperm)

theorem pteFlags_or {pte : Word} (h : Present pte) : pteFlags pte ||| pteP = pteFlags pte := by
  refine BitVec.eq_of_getLsbD_eq fun k hk => ?_
  have hbit : pte.getLsbD 0 = true := by
    by_contra hbit
    refine h (BitVec.eq_of_getLsbD_eq fun k hk => ?_)
    cases k with
    | zero => rw [BitVec.getLsbD_and, Bool.eq_false_iff.mpr hbit]; rfl
    | succ k =>
      have : pteP.getLsbD (k + 1) = false := by
        rw [show pteP = 1#32 from rfl, BitVec.getLsbD_one]
        simp
      simp [this]
  cases k with
  | zero => simp [pteFlags, pteP, hbit]
  | succ k =>
    have : pteP.getLsbD (k + 1) = false := by
      rw [show pteP = 1#32 from rfl, BitVec.getLsbD_one]
      simp
    simp [this]

/-! ## Address spaces -/

/-- The entry of the page directory, and that of the page table. -/
abbrev Slot := Fin 1024 × Fin 1024

theorem pdx_lt (v : Nat) : v / 1024 % 1024 < 1024 := Nat.mod_lt _ (by decide)

theorem ptx_lt (v : Nat) : v % 1024 < 1024 := Nat.mod_lt _ (by decide)

def slot (v : Nat) : Slot := (⟨v / 1024 % 1024, pdx_lt v⟩, ⟨v % 1024, ptx_lt v⟩)

theorem slot_inj {v w : Nat} (hv : v < 2 ^ 20) (hw : w < 2 ^ 20) (h : slot v = slot w) : v = w := by
  simp only [slot, Prod.mk.injEq, Fin.mk.injEq] at h
  omega

theorem slot_val (v : Nat) (hv : v < 2 ^ 20) : (slot v).1.val * 1024 + (slot v).2.val = v := by
  simp only [slot]
  omega

abbrev Slot.User (s : Slot) : Prop := s.1.val < 512

theorem slot_user {v : Nat} (hv : v < 2 ^ 20) : (slot v).User ↔ v < 2 ^ 19 := by
  change v / 1024 % 1024 < 512 ↔ _
  omega

def Slot.page (s : Slot) : Nat := s.1.val * 1024 + s.2.val

theorem Slot.page_lt (s : Slot) : s.page < 2 ^ 20 := by
  unfold Slot.page
  omega

theorem slot_page (s : Slot) : slot s.page = s := by
  obtain ⟨i, j⟩ := s
  simp only [slot, Slot.page, Prod.mk.injEq, Fin.ext_iff]
  omega

theorem pdx_eq (va : Nat) : pdx va = (slot (va / 4096)).1 := by
  simp only [pdx, slot, Fin.mk.injEq]
  omega

theorem ptx_eq (va : Nat) : ptx va = (slot (va / 4096)).2 := rfl

namespace Mem

variable (m : Mem) (pgdir : Page)

/-- The page tables, the entries that they have, and those that are present. -/
def table (i : Fin 1024) : Option Page :=
  if Present (m.word pgdir i) then some (pteAddr (m.word pgdir i)) else none

def pte (s : Slot) : Option Word := (m.table pgdir s.1).map fun t => m.word t s.2

def maps (s : Slot) : Option Word := (m.pte pgdir s).filter fun w => Present w

end Mem

variable {m t : Mem} {pgdir x : Page} {i : Fin 1024} {s : Slot} {w : Word}

theorem maps_eq_some : m.maps pgdir s = some w ↔ m.pte pgdir s = some w ∧ Present w := by
  simp [Mem.maps, Option.filter_eq_some_iff]

theorem maps_eq_some_of_table (h : m.table pgdir s.1 = some x) :
    m.maps pgdir s = some w ↔ m.word x s.2 = w ∧ Present w := by
  simp [maps_eq_some, Mem.pte, h]

theorem maps_eq_none_of_table (h : m.table pgdir s.1 = none) : m.maps pgdir s = none := by
  simp [Mem.maps, Mem.pte, h]

theorem maps_eq_none_of_absent (h : m.table pgdir s.1 = some x) (hp : ¬Present (m.word x s.2)) :
    m.maps pgdir s = none := by
  rw [Mem.maps, Mem.pte, h, Option.map_some]
  exact Option.filter_some_neg (by simpa using hp)

theorem table_of_maps (h : m.maps pgdir s = some w) :
    ∃ x, m.table pgdir s.1 = some x ∧ m.word x s.2 = w ∧ Present w := by
  obtain ⟨hpte, hw⟩ := maps_eq_some.mp h
  simp only [Mem.pte, Option.map_eq_some_iff] at hpte
  obtain ⟨x, hx, hword⟩ := hpte
  exact ⟨x, hx, hword, hw⟩

structure SameTables (pgdir : Page) (m t : Mem) : Prop where
  dir : t.frame pgdir = m.frame pgdir
  tables : ∀ i x, m.table pgdir i = some x → t.frame x = m.frame x

namespace SameTables

variable (h : SameTables pgdir m t)
include h

theorem table (i : Fin 1024) : t.table pgdir i = m.table pgdir i := by
  unfold Mem.table Mem.word
  rw [h.dir]

theorem pte (s : Slot) : t.pte pgdir s = m.pte pgdir s := by
  simp only [Mem.pte, h.table]
  cases hx : m.table pgdir s.1 with
  | none => rfl
  | some x => simp only [Option.map_some, Mem.word, h.tables s.1 x hx]

theorem maps (s : Slot) : t.maps pgdir s = m.maps pgdir s := by
  rw [Mem.maps, h.pte, Mem.maps]

theorem trans {u : Mem} (h' : SameTables pgdir t u) : SameTables pgdir m u :=
  ⟨h'.dir.trans h.dir, fun i x hx => (h'.tables i x ((h.table i).trans hx)).trans (h.tables i x hx)⟩

end SameTables

end Xv6.Paging
