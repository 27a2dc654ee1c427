import Mathlib.Algebra.Group.Int.Defs
import Mathlib.Logic.Function.Basic
import Mathlib.Data.List.FinRange
import Xv6.Lib.Sizes

/-!
# User threads and their semaphores

The data of `uthread.c` and its semaphore calls, each one to its end or to where the thread blocks.
-/

open Function

namespace Xv6.Uthread

abbrev Word := BitVec 32

abbrev maxBsem : Nat := 128

def uthreadQuanta : Word := 5

inductive ThreadState where
  | running
  | ready
  | sleeping
  | blocked
  | terminated
deriving DecidableEq, Repr

abbrev Sem := Fin maxBsem

/-- An entry of `threadTable`. `none` stands for -1. -/
structure Thread where
  tid : Nat
  state : ThreadState
  wakeUpTime : Word
  blockedOnSemaphore : Option Sem
  joinOnTid : Option Nat
deriving DecidableEq, Repr

/-- The global variables, with a table of `n` entries. -/
structure Lib (n : Nat) where
  threadTable : Fin n → Thread
  semaphores : Sem → Int

variable {n : Nat}

def Lib.setThread (l : Lib n) (i : Fin n) (x : Thread) : Lib n :=
  { l with threadTable := update l.threadTable i x }

def Lib.setSem (l : Lib n) (s : Sem) (v : Int) : Lib n := { l with semaphores := update l.semaphores s v }

def Lib.block (l : Lib n) (t : Fin n) (s : Sem) : Lib n :=
  l.setThread t { l.threadTable t with blockedOnSemaphore := some s, state := .blocked }

def Lib.release (l : Lib n) (i : Fin n) : Lib n :=
  l.setThread i { l.threadTable i with blockedOnSemaphore := none, state := .ready }

def Lib.mapThreads (l : Lib n) (f : Thread → Thread) : Lib n := { l with threadTable := fun i => f (l.threadTable i) }

/-! ## `uthread.c`: the first thread -/

def initThreadTable (l : Lib n) : Lib n :=
  l.mapThreads fun x => { x with state := .terminated, blockedOnSemaphore := none, joinOnTid := none }

def firstThread (h : 0 < n) (nexttid : Nat) (l : Lib n) : Lib n :=
  let l := initThreadTable l
  l.setThread ⟨0, h⟩ { l.threadTable ⟨0, h⟩ with tid := nexttid, state := .running, joinOnTid := none }

/-! ## `uthread.c`: binary semaphores -/

def bsemAlloc (l : Lib n) : Option (Sem × Lib n) :=
  match (List.finRange maxBsem).find? fun s => l.semaphores s = -1 with
  | some s => some (s, l.setSem s 1)
  | none => none

/-- The call by thread `t`, which is blocked afterwards or has got through. -/
def bsemDown (t : Fin n) (s : Sem) (l : Lib n) : Lib n :=
  if l.semaphores s = -1 then l
  else if l.semaphores s = 0 then l.block t s
  else l.setSem s 0

def firstBlocked (s : Sem) (l : Lib n) : Option (Fin n) :=
  (List.finRange n).find? fun i => (l.threadTable i).blockedOnSemaphore = some s

def bsemUp (s : Sem) (l : Lib n) : Lib n :=
  if l.semaphores s = -1 then l
  else match firstBlocked s l with
    | some i => l.release i
    | none => l.setSem s 1

def releaseDown (s : Sem) (x : Thread) : Thread :=
  if x.blockedOnSemaphore = some s then { x with blockedOnSemaphore := none, state := .ready } else x

def bsemFree (s : Sem) (l : Lib n) : Lib n := (l.mapThreads (releaseDown s)).setSem s (-1)

/-! ## `usemaphore.c` -/

structure CountingSemaphore where
  binSemNum1 : Sem
  binSemNum2 : Sem
  value : Word
deriving DecidableEq, Repr

def allocSem (t : Fin n) (enterVal : Word) (l : Lib n) : Option CountingSemaphore × Lib n :=
  match bsemAlloc l with
  | none => (none, l)
  | some (binSemNum1, l) =>
    match bsemAlloc l with
    | none => (none, l)
    | some (binSemNum2, l) =>
      (some ⟨binSemNum1, binSemNum2, enterVal⟩, if enterVal = 0 then bsemDown t binSemNum2 l else l)

/-! ## Fields -/

section Fields

variable (l : Lib n) (t i : Fin n) (s r : Sem) (v : Int) (x : Thread)

@[simp] theorem setSem_threadTable : (l.setSem s v).threadTable = l.threadTable := rfl
@[simp] theorem block_semaphores : (l.block t s).semaphores = l.semaphores := rfl
@[simp] theorem release_semaphores : (l.release i).semaphores = l.semaphores := rfl

@[simp] theorem setSem_self : (l.setSem s v).semaphores s = v := update_self _ _ _
@[simp] theorem setThread_self : (l.setThread i x).threadTable i = x := update_self _ _ _

@[simp] theorem block_self :
    (l.block t s).threadTable t = { l.threadTable t with blockedOnSemaphore := some s, state := .blocked } :=
  update_self _ _ _

@[simp] theorem release_self :
    (l.release i).threadTable i = { l.threadTable i with blockedOnSemaphore := none, state := .ready } :=
  update_self _ _ _

variable {l t i s r v x}

theorem setSem_ne (h : r ≠ s) : (l.setSem s v).semaphores r = l.semaphores r := update_of_ne h _ _

theorem setSem_zero (h : l.semaphores r = 0) : (l.setSem s 0).semaphores r = 0 := by
  rcases eq_or_ne r s with rfl | hne
  · exact setSem_self l r 0
  · rw [setSem_ne hne, h]

theorem setThread_ne (h : t ≠ i) : (l.setThread i x).threadTable t = l.threadTable t := update_of_ne h _ _

theorem block_ne (h : t ≠ i) : (l.block i s).threadTable t = l.threadTable t := update_of_ne h _ _

theorem release_ne (h : t ≠ i) : (l.release i).threadTable t = l.threadTable t := update_of_ne h _ _

end Fields

/-! ## What the calls do -/

variable {l : Lib n} {s : Sem}

theorem firstBlocked_some {i : Fin n} (h : firstBlocked s l = some i) :
    (l.threadTable i).blockedOnSemaphore = some s := by
  simpa using List.find?_some h

theorem firstBlocked_none (h : firstBlocked s l = none) (i : Fin n) :
    (l.threadTable i).blockedOnSemaphore ≠ some s := by
  simpa using List.find?_eq_none.mp h i (List.mem_finRange i)

theorem firstBlocked_eq {i : Fin n} (h : (l.threadTable i).blockedOnSemaphore = some s)
    (hlt : ∀ j : Fin n, j.val < i.val → (l.threadTable j).blockedOnSemaphore ≠ some s) : firstBlocked s l = some i := by
  rw [firstBlocked, List.find?_eq_some_iff_getElem]
  refine ⟨decide_eq_true h, i.val, by simp, by simp, fun j hj => ?_⟩
  simpa using hlt ⟨j, hj.trans i.isLt⟩ hj

theorem firstBlocked_eq_none (h : ∀ i, (l.threadTable i).blockedOnSemaphore ≠ some s) : firstBlocked s l = none := by
  rw [firstBlocked, List.find?_eq_none]
  exact fun i _ => by simpa using h i

theorem bsemUp_cases (h : l.semaphores s ≠ -1) :
    (∃ i, (l.threadTable i).blockedOnSemaphore = some s ∧ bsemUp s l = l.release i) ∨
    (∀ i, (l.threadTable i).blockedOnSemaphore ≠ some s) ∧ bsemUp s l = l.setSem s 1 := by
  unfold bsemUp
  rw [if_neg h]
  cases hf : firstBlocked s l with
  | some i => exact .inl ⟨i, firstBlocked_some hf, rfl⟩
  | none => exact .inr ⟨firstBlocked_none hf, rfl⟩

theorem bsemAlloc_some {l' : Lib n} (h : bsemAlloc l = some (s, l')) : l.semaphores s = -1 ∧ l' = l.setSem s 1 := by
  unfold bsemAlloc at h
  split at h
  · rename_i hfind
    simp only [Option.some.injEq, Prod.mk.injEq] at h
    obtain ⟨rfl, rfl⟩ := h
    exact ⟨by simpa using List.find?_some hfind, rfl⟩
  · cases h

theorem allocSem_some {t : Fin n} {k : Word} {l' : Lib n} {sem : CountingSemaphore}
    (h : allocSem t k l = (some sem, l')) :
    sem.binSemNum1 ≠ sem.binSemNum2 ∧ l.semaphores sem.binSemNum1 = -1 ∧ l.semaphores sem.binSemNum2 = -1 ∧
    sem.value = k ∧ l'.threadTable = l.threadTable ∧ l'.semaphores sem.binSemNum1 = 1 ∧
    l'.semaphores sem.binSemNum2 = if k = 0 then 0 else 1 := by
  unfold allocSem at h
  cases h1 : bsemAlloc l with
  | none => simp [h1] at h
  | some r =>
    obtain ⟨s1, l1⟩ := r
    cases h2 : bsemAlloc l1 with
    | none => simp [h1, h2] at h
    | some r =>
      obtain ⟨s2, l2⟩ := r
      simp only [h1, h2, Prod.mk.injEq, Option.some.injEq] at h
      obtain ⟨rfl, rfl⟩ := h
      obtain ⟨hs1, rfl⟩ := bsemAlloc_some h1
      obtain ⟨hs2, rfl⟩ := bsemAlloc_some h2
      have hne : s1 ≠ s2 := by
        rintro rfl
        rw [setSem_self] at hs2
        cases hs2
      rw [setSem_ne hne.symm] at hs2
      refine ⟨hne, hs1, hs2, rfl, ?_⟩
      by_cases hk : k = 0
      · rw [if_pos hk, if_pos hk]
        simp [bsemDown, setSem_ne hne]
      · rw [if_neg hk, if_neg hk]
        simp [setSem_ne hne]

/-- A thread that waits for a semaphore is blocked, and the semaphore is allocated. -/
def Lib.Sound (l : Lib n) : Prop :=
  ∀ t x, (l.threadTable t).blockedOnSemaphore = some x → (l.threadTable t).state = .blocked ∧ l.semaphores x ≠ -1

end Xv6.Uthread
