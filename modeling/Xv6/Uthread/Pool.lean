import Xv6.Lib.Count
import Xv6.Lib.Run
import Xv6.Uthread.Spec

/-!
# The pool of binary semaphores

`allocSem` takes a block and two binary semaphores, and tests once whether it has got them.
-/

open Xv6.Run Xv6.Count

namespace Xv6.Uthread

variable {n : Nat}

/-! ## `usemaphore.c` -/

def freeSem (sem : CountingSemaphore) (l : Lib n) : Lib n := bsemFree sem.binSemNum2 (bsemFree sem.binSemNum1 l)

def Lib.taken (l : Lib n) : Nat := count l.semaphores (· ≠ -1)
def Lib.free (l : Lib n) : Nat := count l.semaphores (· = -1)

structure Pool (n : Nat) where
  lib : Lib n
  live : List (Nat × CountingSemaphore)

inductive PoolAct (n : Nat) where
  | alloc (t : Fin n) (p : Nat) (enterVal : Word)
  /-- `freeSem` of the semaphore at `p`. -/
  | free (p : Nat)
deriving DecidableEq

namespace Pool

/-- What `allocSem` returns. It writes through `semPtr` without looking at it. -/
def allocated (s : Pool n) (t : Fin n) (p : Nat) (enterVal : Word) : Option (Nat × CountingSemaphore) :=
  (allocSem t enterVal s.lib).1.bind fun sem => if p = 0 then none else some (p, sem)

def step (s : Pool n) : PoolAct n → Option (Pool n)
  | .alloc t p enterVal =>
    if p ∈ s.live.map Prod.fst then none
    else some ⟨(allocSem t enterVal s.lib).2, (s.allocated t p enterVal).toList ++ s.live⟩
  | .free p =>
    (s.live.find? fun x => x.1 = p).map fun x => ⟨freeSem x.2 s.lib, s.live.erase x⟩

/-- Two for each counting semaphore that is alive, and those that were taken otherwise. -/
def Conserved (direct : Nat) (s : Pool n) : Prop := s.lib.taken = direct + 2 * s.live.length

def FailsClean (s : Pool n) : PoolAct n → Prop
  | .alloc t p enterVal =>
    s.allocated t p enterVal = none → ∀ x, (allocSem t enterVal s.lib).2.semaphores x = -1 ↔ s.lib.semaphores x = -1
  | _ => True

/-- There are two binary semaphores and a block, or there is no binary semaphore. -/
def Room (s : Pool n) : PoolAct n → Prop
  | .alloc _ p _ => s.lib.free = 0 ∨ 2 ≤ s.lib.free ∧ p ≠ 0
  | _ => True

/-! ## How many there are -/

variable {l l' : Lib n} {t : Fin n} {x : Sem} {v : Int} {enterVal : Word}

theorem taken_setSem (h : l.semaphores x = -1) (hv : v ≠ -1) :
    (l.setSem x v).taken = l.taken + 1 ∧ (l.setSem x v).free + 1 = l.free := by
  have htaken := count_update l.semaphores (· ≠ -1) x v
  have hfree := count_update l.semaphores (· = -1) x v
  simp only [h, hv, ne_eq, not_true_eq_false, not_false_eq_true, decide_true, decide_false, Bool.toNat_true,
    Bool.toNat_false] at htaken hfree
  exact ⟨htaken, hfree⟩

theorem taken_clear (h : l.semaphores x ≠ -1) : (l.setSem x (-1)).taken + 1 = l.taken := by
  have htaken := count_update l.semaphores (· ≠ -1) x (-1)
  simp only [h, ne_eq, not_true_eq_false, not_false_eq_true, decide_true, decide_false, Bool.toNat_true,
    Bool.toNat_false] at htaken
  exact htaken

theorem bsemAlloc_none_iff : bsemAlloc l = none ↔ l.free = 0 := by
  unfold bsemAlloc Lib.free
  rw [count_eq_zero]
  constructor
  · intro h x
    split at h
    · cases h
    · rename_i hfind
      simpa using List.find?_eq_none.mp hfind x (List.mem_finRange x)
  · intro h
    rw [List.find?_eq_none.mpr fun x _ => by simpa using h x]

theorem bsemAlloc_counts (h : bsemAlloc l = some (x, l')) : l'.taken = l.taken + 1 ∧ l'.free + 1 = l.free := by
  obtain ⟨hx, rfl⟩ := bsemAlloc_some h
  exact taken_setSem hx (by decide)

theorem bsemDown_free_iff (r : Sem) : (bsemDown t x l).semaphores r = -1 ↔ l.semaphores r = -1 := by
  unfold bsemDown
  split
  · rfl
  · split
    · rfl
    · rename_i hx _
      rcases eq_or_ne r x with rfl | hne
      · simp [hx]
      · rw [setSem_ne hne]

theorem taken_bsemDown : (bsemDown t x l).taken = l.taken :=
  count_congr fun r => by simp only [ne_eq, bsemDown_free_iff]

theorem allocSem_cases (t : Fin n) (enterVal : Word) (l : Lib n) :
    l.free = 0 ∧ allocSem t enterVal l = (none, l) ∨
    l.free = 1 ∧ (allocSem t enterVal l).1 = none ∧ (allocSem t enterVal l).2.taken = l.taken + 1 ∨
    2 ≤ l.free ∧ (allocSem t enterVal l).1.isSome ∧ (allocSem t enterVal l).2.taken = l.taken + 2 := by
  unfold allocSem
  cases h1 : bsemAlloc l with
  | none => exact .inl ⟨bsemAlloc_none_iff.mp h1, rfl⟩
  | some r =>
    obtain ⟨x1, l1⟩ := r
    obtain ⟨htaken1, hfree1⟩ := bsemAlloc_counts h1
    cases h2 : bsemAlloc l1 with
    | none =>
      have := bsemAlloc_none_iff.mp h2
      dsimp only
      rw [h2]
      exact .inr (.inl ⟨by omega, rfl, htaken1⟩)
    | some r =>
      obtain ⟨x2, l2⟩ := r
      obtain ⟨htaken2, hfree2⟩ := bsemAlloc_counts h2
      dsimp only
      rw [h2]
      refine .inr (.inr ⟨by omega, rfl, ?_⟩)
      dsimp only
      split
      · rw [taken_bsemDown]
        omega
      · omega

/-! ## One call -/

def numbers (live : List (Nat × CountingSemaphore)) : List Sem :=
  live.flatMap fun x => [x.2.binSemNum1, x.2.binSemNum2]

structure Held (s : Pool n) : Prop where
  nodup : (numbers s.live).Nodup
  taken : ∀ x ∈ numbers s.live, s.lib.semaphores x ≠ -1

theorem bsemAlloc_keeps (h : bsemAlloc l = some (x, l')) {r : Sem} (hr : l.semaphores r ≠ -1) :
    l'.semaphores r ≠ -1 := by
  obtain ⟨hx, rfl⟩ := bsemAlloc_some h
  have hne : r ≠ x := by
    rintro rfl
    exact hr hx
  rwa [setSem_ne hne]

theorem allocSem_keeps (t : Fin n) (enterVal : Word) {r : Sem} (hr : l.semaphores r ≠ -1) :
    (allocSem t enterVal l).2.semaphores r ≠ -1 := by
  unfold allocSem
  split
  · exact hr
  · rename_i h1
    split
    · exact bsemAlloc_keeps h1 hr
    · rename_i h2
      have := bsemAlloc_keeps h2 (bsemAlloc_keeps h1 hr)
      dsimp only
      split
      · rwa [ne_eq, bsemDown_free_iff]
      · exact this

theorem freeSem_semaphores (sem : CountingSemaphore) (l : Lib n) :
    (freeSem sem l).semaphores =
      ((l.setSem sem.binSemNum1 (-1)).setSem sem.binSemNum2 (-1)).semaphores := rfl

variable {s u : Pool n}

theorem Held.alloc (h : s.Held) (t : Fin n) (p : Nat) (enterVal : Word) :
    Held ⟨(allocSem t enterVal s.lib).2, (s.allocated t p enterVal).toList ++ s.live⟩ := by
  cases halloc : allocSem t enterVal s.lib with
  | mk result l' =>
    have hkeeps : ∀ x ∈ numbers s.live, l'.semaphores x ≠ -1 := by
      intro x hx
      have := allocSem_keeps t enterVal (h.taken x hx)
      rwa [halloc] at this
    unfold Pool.allocated
    rw [halloc]
    cases result with
    | none => exact ⟨h.nodup, hkeeps⟩
    | some sem =>
      obtain ⟨hne, h1, h2, -, -, hopen1, hopen2⟩ := allocSem_some halloc
      dsimp only [Option.bind_some]
      split
      · exact ⟨h.nodup, hkeeps⟩
      · refine ⟨?_, ?_⟩
        · simp only [Option.toList_some, List.cons_append, List.nil_append, numbers, List.flatMap_cons,
            List.nodup_cons, List.mem_cons]
          refine ⟨?_, fun hmem => h.taken _ hmem h2, h.nodup⟩
          rintro (heq | hmem)
          · exact hne heq
          · exact h.taken _ hmem h1
        · intro x hx
          simp only [Option.toList_some, List.cons_append, List.nil_append, numbers, List.flatMap_cons,
            List.mem_cons] at hx
          rcases hx with rfl | rfl | hx
          · rw [hopen1]
            decide
          · rw [hopen2]
            split <;> decide
          · exact hkeeps x hx

theorem Held.split (h : s.Held) {x : Nat × CountingSemaphore} (hx : x ∈ s.live) :
    x.2.binSemNum1 ≠ x.2.binSemNum2 ∧ s.lib.semaphores x.2.binSemNum1 ≠ -1 ∧ s.lib.semaphores x.2.binSemNum2 ≠ -1 ∧
    (numbers (s.live.erase x)).Nodup ∧
    ∀ r ∈ numbers (s.live.erase x), r ≠ x.2.binSemNum1 ∧ r ≠ x.2.binSemNum2 ∧ s.lib.semaphores r ≠ -1 := by
  have hperm : (numbers s.live).Perm (x.2.binSemNum1 :: x.2.binSemNum2 :: numbers (s.live.erase x)) :=
    (List.perm_cons_erase hx).flatMap_right _
  have hnodup := hperm.nodup_iff.mp h.nodup
  have htaken : ∀ r ∈ x.2.binSemNum1 :: x.2.binSemNum2 :: numbers (s.live.erase x), s.lib.semaphores r ≠ -1 :=
    fun r hr => h.taken r (hperm.mem_iff.mpr hr)
  simp only [List.nodup_cons, List.mem_cons, not_or] at hnodup
  obtain ⟨⟨hne, hfirst⟩, hsecond, hrest⟩ := hnodup
  refine ⟨hne, htaken _ (by simp), htaken _ (by simp), hrest, fun r hr => ⟨?_, ?_, htaken r (by simp [hr])⟩⟩
  · rintro rfl
    exact hfirst hr
  · rintro rfl
    exact hsecond hr

theorem Held.free (h : s.Held) {x : Nat × CountingSemaphore} (hx : x ∈ s.live) :
    Held ⟨freeSem x.2 s.lib, s.live.erase x⟩ ∧ (freeSem x.2 s.lib).taken + 2 = s.lib.taken := by
  obtain ⟨hne, h1, h2, hnodup, hrest⟩ := h.split hx
  refine ⟨⟨hnodup, fun r hr => ?_⟩, ?_⟩
  · obtain ⟨hr1, hr2, hr⟩ := hrest r hr
    rwa [freeSem_semaphores, setSem_ne hr2, setSem_ne hr1]
  · have hfirst := taken_clear h1
    have hsecond := taken_clear (l := s.lib.setSem x.2.binSemNum1 (-1)) (x := x.2.binSemNum2)
      (by rwa [setSem_ne hne.symm])
    have : (freeSem x.2 s.lib).taken = ((s.lib.setSem x.2.binSemNum1 (-1)).setSem x.2.binSemNum2 (-1)).taken := by
      rw [Lib.taken, Lib.taken, freeSem_semaphores]
    omega

theorem Held.step {a : PoolAct n} (h : s.Held) (hu : s.step a = some u) : u.Held := by
  cases a with
  | alloc t p enterVal =>
    simp only [Pool.step, Option.ite_none_left_eq_some, Option.some.injEq] at hu
    rw [← hu.2]
    exact h.alloc t p enterVal
  | free p =>
    simp only [Pool.step, Option.map_eq_some_iff] at hu
    obtain ⟨x, hx, rfl⟩ := hu
    exact (h.free (List.mem_of_find?_eq_some hx)).1

theorem Held.conserved_iff {direct : Nat} {a : PoolAct n} (h : s.Held) (hs : s.Conserved direct)
    (hu : s.step a = some u) : u.Conserved direct ↔ s.Room a := by
  cases a with
  | alloc t p enterVal =>
    simp only [Pool.step, Option.ite_none_left_eq_some, Option.some.injEq] at hu
    obtain ⟨-, rfl⟩ := hu
    simp only [Conserved, Pool.allocated, Room, List.length_append] at hs ⊢
    rcases allocSem_cases t enterVal s.lib with ⟨hfree, heq⟩ | ⟨hfree, hnone, htaken⟩ | ⟨hfree, hsome, htaken⟩
    · simp [heq, hs, hfree]
    · rw [hnone, htaken, hs, hfree]
      simp
    · obtain ⟨sem, hsem⟩ := Option.isSome_iff_exists.mp hsome
      rw [hsem, Option.bind_some, htaken, hs]
      split
      · rename_i hp
        simp only [Option.toList_none, List.length_nil, hp, ne_eq, not_true_eq_false, and_false, or_false]
        omega
      · rename_i hp
        simp only [Option.toList_some, List.length_singleton, hp, ne_eq, not_false_eq_true, and_true]
        omega
  | free p =>
    simp only [Pool.step, Option.map_eq_some_iff] at hu
    obtain ⟨x, hx, rfl⟩ := hu
    have hmem := List.mem_of_find?_eq_some hx
    have hpos := List.length_pos_of_mem hmem
    have hfreed := (h.free hmem).2
    simp only [Conserved, Room, iff_true, List.length_erase_of_mem hmem] at hs ⊢
    omega

theorem failsClean_iff {a : PoolAct n} : s.FailsClean a ↔ s.Room a := by
  cases a with
  | free p => rfl
  | alloc t p enterVal =>
    simp only [FailsClean, Room, Pool.allocated]
    have hsame : (∀ x, (allocSem t enterVal s.lib).2.semaphores x = -1 ↔ s.lib.semaphores x = -1) →
        (allocSem t enterVal s.lib).2.taken = s.lib.taken :=
      fun hall => count_congr fun x => by simp only [ne_eq, hall x]
    rcases allocSem_cases t enterVal s.lib with ⟨hfree, heq⟩ | ⟨hfree, hnone, htaken⟩ | ⟨hfree, hsome, htaken⟩
    · simp [heq, hfree]
    · constructor
      · intro hall
        have := hsame (hall (by rw [hnone]; rfl))
        omega
      · rw [hfree]
        simp
    · obtain ⟨sem, hsem⟩ := Option.isSome_iff_exists.mp hsome
      rw [hsem, Option.bind_some]
      constructor
      · intro hall
        refine .inr ⟨hfree, ?_⟩
        rintro rfl
        have := hsame (hall rfl)
        omega
      · rintro (hzero | ⟨-, hp⟩)
        · omega
        · rw [if_neg hp]
          nofun

end Pool

def Pool.start (l : Lib n) : Pool n := ⟨l, []⟩

/-- Binary semaphores are conserved exactly when each `allocSem` finds two of them and a block or finds none. -/
theorem pool_conserved_iff (l : Lib n) (as : List (PoolAct n)) :
    (Always Pool.step (Pool.Conserved l.taken) (Pool.start l) as ↔
      Along Pool.step Pool.Room (Pool.start l) as) ∧
    (Along Pool.step Pool.FailsClean (Pool.start l) as ↔ Along Pool.step Pool.Room (Pool.start l) as) := by
  have hheld : (Pool.start l).Held := ⟨List.nodup_nil, nofun⟩
  constructor
  · rw [← always_and_invariant (fun s a u h hu => Pool.Held.step h hu) hheld]
    refine always_iff_along (fun s a u h hu => ?_) ⟨hheld, rfl⟩
    rw [← h.1.conserved_iff h.2 hu]
    exact and_iff_right (h.1.step hu)
  · simp only [show @Pool.FailsClean n = Pool.Room from funext fun s => funext fun a => propext Pool.failsClean_iff]

def oneLeft : Lib 1 :=
  ⟨fun _ => ⟨1, .running, 0, none, none⟩, Function.update (fun _ => 1) 127 (-1)⟩

theorem oneLeft_free : oneLeft.free = 1 := by
  have hnone : count (fun _ : Sem => (1 : Int)) (· = -1) = 0 := count_eq_zero.mpr fun _ => rfl
  have := count_update (fun _ : Sem => (1 : Int)) (· = -1) 127 (-1)
  rw [hnone] at this
  exact this

/-- `allocSem(1)` returns 0, and the last binary semaphore is gone. -/
theorem allocSem_leaks :
    ¬ ∀ (l : Lib 1) (as : List (PoolAct 1)),
      Always Pool.step (Pool.Conserved l.taken) (Pool.start l) as ∧
      Along Pool.step Pool.FailsClean (Pool.start l) as := by
  intro h
  obtain ⟨-, hclean⟩ := h oneLeft [.alloc 0 4096 1]
  have hroom := Pool.failsClean_iff.mp (hclean _ rfl).1
  simp only [Pool.Room, Pool.start, oneLeft_free] at hroom
  omega

end Xv6.Uthread
