import Xv6.Lib.Count
import Xv6.Lib.Run
import Xv6.Uthread.Spec

/-!
# Counting semaphores

`down` and `up` of one counting semaphore, called by any number of threads. A step is one call of
`bsem_down` or `bsem_up`, or one access to the value.
-/

open Function Xv6.Run Xv6.Count

namespace Xv6.Uthread.Counting

/-! ## `usemaphore.c`: `down` and `up` -/

inductive Pc where
  | idle
  /-- `bsem_down(sem->binSemNum2)`, and then in the call. -/
  | downGate
  | downGateWait
  /-- `bsem_down(sem->binSemNum1)`, and then in the call. -/
  | downLock
  | downLockWait
  | downDec
  | downTest
  | downSignal
  | downUnlock
  | upLock
  | upLockWait
  | upInc
  | upTest
  | upSignal
  | upUnlock
deriving DecidableEq, Repr

/-- `sem` keeps the numbers, and `value` changes. The counters record what has happened. -/
structure Sys (n : Nat) where
  lib : Lib n
  value : Word
  pc : Fin n → Pc
  /-- Calls of `up`. -/
  ups : Nat
  /-- Executions of `sem->value++` and of `sem->value--`. -/
  incs : Nat
  decs : Nat
  /-- Calls of `down` that have returned. -/
  returned : Nat

inductive Act (n : Nat) where
  | down (t : Fin n)
  | up (t : Fin n)
  | go (t : Fin n)
deriving Repr

variable {n : Nat}

def Sys.goto (s : Sys n) (t : Fin n) (pc : Pc) : Sys n := { s with pc := update s.pc t pc }

def Sys.isBlocked (s : Sys n) (t : Fin n) : Bool := (s.lib.threadTable t).state = .blocked

def Sys.acquire (s : Sys n) (t : Fin n) (x : Sem) (wait next : Pc) : Sys n :=
  let s := { s with lib := bsemDown t x s.lib }
  s.goto t (if s.isBlocked t then wait else next)

def Sys.resume (s : Sys n) (t : Fin n) (next : Pc) : Option (Sys n) :=
  if s.isBlocked t then none else some (s.goto t next)

def step (sem : CountingSemaphore) (s : Sys n) : Act n → Option (Sys n)
  | .down t => if s.pc t = .idle ∧ s.isBlocked t = false then some (s.goto t .downGate) else none
  | .up t =>
    if s.pc t = .idle ∧ s.isBlocked t = false then some { s.goto t .upLock with ups := s.ups + 1 } else none
  | .go t =>
    match s.pc t with
    | .idle => none
    | .downGate => some (s.acquire t sem.binSemNum2 .downGateWait .downLock)
    | .downGateWait => s.resume t .downLock
    | .downLock => some (s.acquire t sem.binSemNum1 .downLockWait .downDec)
    | .downLockWait => s.resume t .downDec
    | .downDec => some { s.goto t .downTest with value := s.value - 1, decs := s.decs + 1 }
    | .downTest => some (s.goto t (if (0#32).slt s.value then .downSignal else .downUnlock))
    | .downSignal => some { s.goto t .downUnlock with lib := bsemUp sem.binSemNum2 s.lib }
    | .downUnlock =>
      some { s.goto t .idle with lib := bsemUp sem.binSemNum1 s.lib, returned := s.returned + 1 }
    | .upLock => some (s.acquire t sem.binSemNum1 .upLockWait .upInc)
    | .upLockWait => s.resume t .upInc
    | .upInc => some { s.goto t .upTest with value := s.value + 1, incs := s.incs + 1 }
    | .upTest => some (s.goto t (if s.value = 1 then .upSignal else .upUnlock))
    | .upSignal => some { s.goto t .upUnlock with lib := bsemUp sem.binSemNum2 s.lib }
    | .upUnlock => some { s.goto t .idle with lib := bsemUp sem.binSemNum1 s.lib }

def Sys.start (lib : Lib n) (sem : CountingSemaphore) : Sys n :=
  ⟨lib, sem.value, fun _ => .idle, 0, 0, 0, 0⟩

/-! ## What a thread has -/

abbrev View := Pc × Option Sem

def Sys.view (s : Sys n) (t : Fin n) : View := (s.pc t, (s.lib.threadTable t).blockedOnSemaphore)

def hasLock : View → Bool
  | (.downLockWait, b) | (.upLockWait, b) => b.isNone
  | (.downDec, _) | (.downTest, _) | (.downSignal, _) | (.downUnlock, _) => true
  | (.upInc, _) | (.upTest, _) | (.upSignal, _) | (.upUnlock, _) => true
  | _ => false

def hasGate : View → Bool
  | (.downGateWait, b) => b.isNone
  | (.downLock, _) | (.downLockWait, _) | (.downDec, _) => true
  | _ => false

def signals (v : Nat) : View → Bool
  | (.downTest, _) => 0 < v
  | (.upTest, _) => v = 1
  | (.downSignal, _) | (.upSignal, _) => true
  | _ => false

def willInc : View → Bool
  | (.upLock, _) | (.upLockWait, _) | (.upInc, _) => true
  | _ => false

def hasDec : View → Bool
  | (.downTest, _) | (.downSignal, _) | (.downUnlock, _) => true
  | _ => false

theorem signals_hasLock {v : Nat} {x : View} (h : signals v x = true) : hasLock x = true := by
  obtain ⟨pc, b⟩ := x
  cases pc <;> simp_all [signals, hasLock]

/-! ## Invariants -/

structure Parked (sem : CountingSemaphore) (s : Sys n) : Prop where
  waits : ∀ t x, (s.lib.threadTable t).blockedOnSemaphore = some x →
    x = sem.binSemNum1 ∧ (s.pc t = .downLockWait ∨ s.pc t = .upLockWait) ∧ s.lib.semaphores x = 0 ∨
    x = sem.binSemNum2 ∧ s.pc t = .downGateWait ∧ s.lib.semaphores x = 0 ∨
    x ≠ sem.binSemNum1 ∧ x ≠ sem.binSemNum2 ∧ s.pc t = .idle
  blocked : ∀ t, (s.lib.threadTable t).blockedOnSemaphore ≠ none → (s.lib.threadTable t).state = .blocked
  waiting : ∀ t, s.pc t ≠ .idle → (s.lib.threadTable t).state = .blocked →
    (s.lib.threadTable t).blockedOnSemaphore ≠ none

structure Tallied (sem : CountingSemaphore) (k : Nat) (s : Sys n) : Prop where
  lock_nonneg : 0 ≤ s.lib.semaphores sem.binSemNum1
  gate_nonneg : 0 ≤ s.lib.semaphores sem.binSemNum2
  lock : s.lib.semaphores sem.binSemNum1 + count s.view hasLock = 1
  gate : s.lib.semaphores sem.binSemNum2 + count s.view hasGate + count s.view (signals s.value.toNat) =
    if s.value.toNat = 0 then 0 else 1
  value : s.value.toNat + s.decs = k + s.incs
  incs : s.incs + count s.view willInc = s.ups
  decs : s.returned + count s.view hasDec = s.decs

section Steps

variable {sem : CountingSemaphore} {k : Nat} {s u : Sys n} {t i : Fin n} {p : Pc} {x : Sem}

/-! ## One thread moves on -/

theorem Parked.goto (h : Parked sem s) (hstate : (s.lib.threadTable t).state ≠ .blocked)
    (htable : u.lib.threadTable = s.lib.threadTable) (hpc : u.pc = update s.pc t p)
    (hsem : ∀ r y, (s.lib.threadTable r).blockedOnSemaphore = some y → s.lib.semaphores y = 0 →
      u.lib.semaphores y = 0) : Parked sem u := by
  have hother : ∀ r, (s.lib.threadTable r).state = .blocked → u.pc r = s.pc r := by
    rintro r hr
    rw [hpc, update_of_ne]
    rintro rfl
    exact hstate hr
  refine ⟨fun r y hr => ?_, fun r hr => ?_, fun r hidle hr => ?_⟩
  · rw [htable] at hr
    rw [hother r (h.blocked r (by simp [hr]))]
    have := h.waits r y hr
    have := hsem r y hr
    tauto
  · rw [htable] at hr ⊢
    exact h.blocked r hr
  · rw [htable] at hr ⊢
    rw [hother r hr] at hidle
    exact h.waiting r hidle hr

theorem Parked.block (h : Parked sem s) (hlib : u.lib = s.lib.block t x) (hpc : u.pc = update s.pc t p)
    (hx : s.lib.semaphores x = 0)
    (hp : x = sem.binSemNum1 ∧ (p = .downLockWait ∨ p = .upLockWait) ∨ x = sem.binSemNum2 ∧ p = .downGateWait) :
    Parked sem u := by
  refine ⟨fun r y hr => ?_, fun r hr => ?_, fun r hidle hr => ?_⟩ <;> rw [hlib] at hr <;>
    rcases eq_or_ne r t with rfl | hne
  · rw [block_self, Option.some.injEq] at hr
    subst hr
    rw [hpc, update_self, hlib, block_semaphores]
    tauto
  · rw [block_ne hne] at hr
    rw [hpc, update_of_ne hne, hlib, block_semaphores]
    exact h.waits r y hr
  · rw [hlib, block_self]
  · rw [block_ne hne] at hr
    rw [hlib, block_ne hne]
    exact h.blocked r hr
  · rw [hlib, block_self]
    exact Option.some_ne_none x
  · rw [block_ne hne] at hr
    rw [hpc, update_of_ne hne] at hidle
    rw [hlib, block_ne hne]
    exact h.waiting r hidle hr

theorem Parked.release (h : Parked sem s) (hstate : (s.lib.threadTable t).state ≠ .blocked)
    (hlib : u.lib = s.lib.release i) (hpc : u.pc = update s.pc t p) : Parked sem u := by
  -- the releasing thread moves first
  let v : Sys n := { u with lib := s.lib }
  have hv : Parked sem v := h.goto hstate rfl hpc fun _ _ _ hy => hy
  refine ⟨fun r y hr => ?_, fun r hr => ?_, fun r hidle hr => ?_⟩ <;> rw [hlib] at hr <;>
    rcases eq_or_ne r i with rfl | hne
  · rw [release_self] at hr
    cases hr
  · rw [release_ne hne] at hr
    rw [hlib, release_semaphores]
    exact hv.waits r y hr
  · rw [release_self] at hr
    exact absurd rfl hr
  · rw [release_ne hne] at hr
    rw [hlib, release_ne hne]
    exact hv.blocked r hr
  · rw [release_self] at hr
    cases hr
  · rw [release_ne hne] at hr
    rw [hlib, release_ne hne]
    exact hv.waiting r hidle hr

/-! ## How the numbers change -/

theorem view_goto (htable : u.lib.threadTable = s.lib.threadTable) (hpc : u.pc = update s.pc t p)
    (ht : (s.lib.threadTable t).blockedOnSemaphore = none) : u.view = update s.view t (p, none) := by
  funext r
  rcases eq_or_ne r t with rfl | hne
  · simp only [Sys.view, htable, hpc, update_self, ht]
  · simp only [Sys.view, htable, hpc, update_of_ne hne]

theorem view_block (hlib : u.lib = s.lib.block t x) (hpc : u.pc = update s.pc t p) :
    u.view = update s.view t (p, some x) := by
  funext r
  rcases eq_or_ne r t with rfl | hne
  · simp only [Sys.view, hlib, hpc, update_self, block_self]
  · simp only [Sys.view, hlib, hpc, update_of_ne hne, block_ne hne]

theorem view_release (hlib : u.lib = s.lib.release i) (hpc : u.pc = update s.pc t p) (hne : t ≠ i)
    (ht : (s.lib.threadTable t).blockedOnSemaphore = none) :
    u.view = update (update s.view i (s.pc i, none)) t (p, none) := by
  funext r
  rcases eq_or_ne r t with rfl | hrt
  · simp only [Sys.view, hlib, hpc, update_self, release_ne hne, ht]
  · rw [update_of_ne hrt]
    rcases eq_or_ne r i with rfl | hri
    · simp only [Sys.view, hlib, hpc, update_of_ne hrt, update_self, release_self]
    · simp only [Sys.view, hlib, hpc, update_of_ne hrt, update_of_ne hri, release_ne hri]

theorem Tallied.move {a b : (View → Bool) → Nat} (h : Tallied sem k s)
    (hcount : ∀ q, count u.view q + a q = count s.view q + b q) (hvalue : u.value = s.value)
    (hlock_nonneg : 0 ≤ u.lib.semaphores sem.binSemNum1) (hgate_nonneg : 0 ≤ u.lib.semaphores sem.binSemNum2)
    (hlock : u.lib.semaphores sem.binSemNum1 + b hasLock = s.lib.semaphores sem.binSemNum1 + a hasLock)
    (hgate : u.lib.semaphores sem.binSemNum2 + (b hasGate + b (signals s.value.toNat)) =
      s.lib.semaphores sem.binSemNum2 + (a hasGate + a (signals s.value.toNat)))
    (hincs : u.incs = s.incs) (hdecs : u.decs = s.decs) (hups : s.ups + b willInc = u.ups + a willInc)
    (hreturned : u.returned + b hasDec = s.returned + a hasDec) : Tallied sem k u := by
  have h1 := h.lock
  have h2 := h.gate
  have h3 := h.value
  have h4 := h.incs
  have h5 := h.decs
  have c1 := hcount hasLock
  have c2 := hcount hasGate
  have c3 := hcount (signals s.value.toNat)
  have c4 := hcount willInc
  have c5 := hcount hasDec
  refine ⟨hlock_nonneg, hgate_nonneg, by omega, ?_, ?_, by omega, by omega⟩
  · rw [hvalue]
    omega
  · rw [hvalue]
    omega

structure Good (sem : CountingSemaphore) (k : Nat) (s : Sys n) : Prop where
  ne : sem.binSemNum1 ≠ sem.binSemNum2
  parked : Parked sem s
  tallied : Tallied sem k s

structure Free (s : Sys n) (t : Fin n) (p : Pc) : Prop where
  pc : s.pc t = p
  state : (s.lib.threadTable t).state ≠ .blocked
  waits : (s.lib.threadTable t).blockedOnSemaphore = none

theorem Parked.free (h : Parked sem s) (hp : s.pc t = p) (ht : s.isBlocked t = false) : Free s t p := by
  have hstate : (s.lib.threadTable t).state ≠ .blocked := by simpa [Sys.isBlocked] using ht
  refine ⟨hp, hstate, ?_⟩
  by_contra hne
  exact hstate (h.blocked t hne)

theorem Parked.free_of_pc (h : Parked sem s) (hp : s.pc t = p) (hidle : p ≠ .idle) (hgate : p ≠ .downGateWait)
    (hdown : p ≠ .downLockWait) (hup : p ≠ .upLockWait) : Free s t p := by
  have hwaits : (s.lib.threadTable t).blockedOnSemaphore = none := by
    cases hb : (s.lib.threadTable t).blockedOnSemaphore with
    | none => rfl
    | some x =>
      have := h.waits t x hb
      rw [hp] at this
      tauto
  exact ⟨hp, fun hb => h.waiting t (hp ▸ hidle) hb hwaits, hwaits⟩

theorem Free.count_goto (h : Free s t p) {p' : Pc} (htable : u.lib.threadTable = s.lib.threadTable)
    (hpc : u.pc = update s.pc t p') (q : View → Bool) :
    count u.view q + (q (p, none)).toNat = count s.view q + (q (p', none)).toNat := by
  rw [view_goto htable hpc h.waits, ← count_update s.view q t (p', none), Sys.view, h.pc, h.waits]

theorem Free.count_block (h : Free s t p) {p' : Pc} (hlib : u.lib = s.lib.block t x)
    (hpc : u.pc = update s.pc t p') (q : View → Bool) :
    count u.view q + (q (p, none)).toNat = count s.view q + (q (p', some x)).toNat := by
  rw [view_block hlib hpc, ← count_update s.view q t (p', some x), Sys.view, h.pc, h.waits]

theorem Free.count_release (h : Free s t p) {p' : Pc} (hi : (s.lib.threadTable i).blockedOnSemaphore = some x)
    (hlib : u.lib = s.lib.release i) (hpc : u.pc = update s.pc t p') (q : View → Bool) :
    count u.view q + ((q (p, none)).toNat + (q (s.pc i, some x)).toNat) =
      count s.view q + ((q (p', none)).toNat + (q (s.pc i, none)).toNat) := by
  have hne : t ≠ i := by
    rintro rfl
    rw [h.waits] at hi
    cases hi
  rw [view_release hlib hpc hne h.waits]
  have h1 := count_update (update s.view i (s.pc i, none)) q t (p', none)
  have h2 := count_update s.view q i (s.pc i, none)
  rw [update_of_ne hne, Sys.view, h.pc, h.waits] at h1
  rw [Sys.view, hi] at h2
  omega

/-! ## The calls -/

theorem Sys.acquire_cases (hstate : (s.lib.threadTable t).state ≠ .blocked) (hx : s.lib.semaphores x ≠ -1)
    (w : Pc) :
    s.lib.semaphores x = 0 ∧ s.acquire t x w p = { s with lib := s.lib.block t x }.goto t w ∨
    s.lib.semaphores x ≠ 0 ∧ s.acquire t x w p = { s with lib := s.lib.setSem x 0 }.goto t p := by
  by_cases h0 : s.lib.semaphores x = 0
  · refine .inl ⟨h0, ?_⟩
    simp [Sys.acquire, bsemDown, h0, Sys.isBlocked]
  · refine .inr ⟨h0, ?_⟩
    simp [Sys.acquire, bsemDown, h0, hx, Sys.isBlocked, hstate]

/-- The calls of `bsem_down`: the semaphore, the place of the call, in the call, and behind it. -/
inductive Downs (sem : CountingSemaphore) : Sem → Pc → Pc → Pc → Prop
  | gate : Downs sem sem.binSemNum2 .downGate .downGateWait .downLock
  | downLock : Downs sem sem.binSemNum1 .downLock .downLockWait .downDec
  | upLock : Downs sem sem.binSemNum1 .upLock .upLockWait .upInc

section

variable (h : Good sem k s)
include h

theorem Good.lock_le : s.lib.semaphores sem.binSemNum1 ≤ 1 := by
  have := h.tallied.lock
  omega

theorem Good.gate_le : s.lib.semaphores sem.binSemNum2 ≤ 1 := by
  have := h.tallied.gate
  split at this <;> omega

theorem Good.goto (hf : Free s t p) {p' : Pc} (hlock : hasLock (p', none) = hasLock (p, none))
    (hgate : (hasGate (p', none)).toNat + (signals s.value.toNat (p', none)).toNat =
      (hasGate (p, none)).toNat + (signals s.value.toNat (p, none)).toNat)
    (hinc : willInc (p', none) = willInc (p, none)) (hdec : hasDec (p', none) = hasDec (p, none)) :
    Good sem k (s.goto t p') := by
  refine ⟨h.ne, h.parked.goto hf.state rfl rfl fun _ _ _ hy => hy, ?_⟩
  refine h.tallied.move (hf.count_goto rfl rfl) rfl h.tallied.lock_nonneg h.tallied.gate_nonneg ?_ ?_ rfl rfl ?_ ?_
  · exact congrArg (fun b => s.lib.semaphores sem.binSemNum1 + (b.toNat : Int)) hlock
  · exact congrArg (fun m : Nat => s.lib.semaphores sem.binSemNum2 + (m : Int)) hgate
  · exact congrArg (s.ups + ·.toNat) hinc
  · exact congrArg (s.returned + ·.toNat) hdec

theorem Good.acquire {w p' : Pc} (hf : Free s t p) (hp : Downs sem x p w p') : Good sem k (s.acquire t x w p') := by
  have hlock := h.tallied.lock_nonneg
  have hgate := h.tallied.gate_nonneg
  have hlock_le := h.lock_le
  have hgate_le := h.gate_le
  have hne := h.ne
  have hfree : s.lib.semaphores x ≠ -1 := by cases hp <;> omega
  rcases Sys.acquire_cases hf.state hfree w with ⟨h0, hu⟩ | ⟨h0, hu⟩ <;> rw [hu]
  · refine ⟨hne, h.parked.block rfl rfl h0 (by cases hp <;> tauto), ?_⟩
    refine h.tallied.move (hf.count_block rfl rfl) rfl hlock hgate ?_ ?_ rfl rfl ?_ ?_ <;> cases hp <;> rfl
  · refine ⟨hne, h.parked.goto hf.state rfl rfl fun r y _ hy => setSem_zero hy, ?_⟩
    refine h.tallied.move (hf.count_goto rfl rfl) rfl ?_ ?_ ?_ ?_ rfl rfl ?_ ?_ <;> cases hp <;>
      simp [Sys.goto, setSem_ne hne, setSem_ne hne.symm, hasLock, hasGate, signals, willInc, hasDec] <;> omega

/-- `bsem_up(sem->binSemNum2)`. -/
theorem Good.openGate {p' : Pc} (hf : Free s t p)
    (hp : p = .downSignal ∧ p' = .downUnlock ∨ p = .upSignal ∧ p' = .upUnlock) :
    Good sem k { s.goto t p' with lib := bsemUp sem.binSemNum2 s.lib } := by
  have hsignals : 0 < count s.view (signals s.value.toNat) := by
    apply count_pos (p := t)
    rw [Sys.view, hf.pc]
    rcases hp with ⟨rfl, -⟩ | ⟨rfl, -⟩ <;> rfl
  have hclosed : s.lib.semaphores sem.binSemNum2 = 0 := by
    have h1 := h.tallied.gate
    have h2 := h.tallied.gate_nonneg
    split at h1 <;> omega
  rcases bsemUp_cases (l := s.lib) (s := sem.binSemNum2) (by omega) with ⟨i, hi, hup⟩ | ⟨hnone, hup⟩
  · have hpc : s.pc i = .downGateWait := by
      have := h.parked.waits i _ hi
      have := h.ne
      tauto
    refine ⟨h.ne, h.parked.release hf.state hup rfl, ?_⟩
    have hsem : (bsemUp sem.binSemNum2 s.lib).semaphores = s.lib.semaphores := by rw [hup, release_semaphores]
    refine h.tallied.move (hf.count_release hi hup rfl) rfl ?_ ?_ ?_ ?_ rfl rfl ?_ ?_ <;> simp only [hsem, hpc]
    · exact h.tallied.lock_nonneg
    · exact h.tallied.gate_nonneg
    all_goals rcases hp with ⟨rfl, rfl⟩ | ⟨rfl, rfl⟩ <;> rfl
  · have hself : (bsemUp sem.binSemNum2 s.lib).semaphores sem.binSemNum2 = 1 := by rw [hup, setSem_self]
    have hlock : (bsemUp sem.binSemNum2 s.lib).semaphores sem.binSemNum1 = s.lib.semaphores sem.binSemNum1 := by
      rw [hup, setSem_ne h.ne]
    refine ⟨h.ne, h.parked.goto hf.state (by rw [hup, setSem_threadTable]) rfl fun r y hr hy => ?_, ?_⟩
    · rw [hup, setSem_ne, hy]
      rintro rfl
      exact hnone r hr
    · refine h.tallied.move (hf.count_goto (by rw [hup, setSem_threadTable]) rfl) rfl ?_ ?_ ?_ ?_ rfl rfl ?_ ?_ <;>
        simp only [hself, hlock, hclosed]
      · exact h.tallied.lock_nonneg
      · exact zero_le_one
      all_goals rcases hp with ⟨rfl, rfl⟩ | ⟨rfl, rfl⟩ <;> rfl

/-- `bsem_up(sem->binSemNum1)`, the end of a call. -/
theorem Good.unlock (hf : Free s t p) (hp : p = .downUnlock ∨ p = .upUnlock) :
    Good sem k { s.goto t .idle with
      lib := bsemUp sem.binSemNum1 s.lib, returned := s.returned + (hasDec (p, none)).toNat } := by
  have hholds : 0 < count s.view hasLock := by
    apply count_pos (p := t)
    rw [Sys.view, hf.pc]
    rcases hp with rfl | rfl <;> rfl
  have hclosed : s.lib.semaphores sem.binSemNum1 = 0 := by
    have h1 := h.tallied.lock
    have h2 := h.tallied.lock_nonneg
    omega
  rcases bsemUp_cases (l := s.lib) (s := sem.binSemNum1) (by omega) with ⟨i, hi, hup⟩ | ⟨hnone, hup⟩
  · have hpc : s.pc i = .downLockWait ∨ s.pc i = .upLockWait := by
      have := h.parked.waits i _ hi
      have := h.ne
      tauto
    have hsem : (bsemUp sem.binSemNum1 s.lib).semaphores = s.lib.semaphores := by rw [hup, release_semaphores]
    refine ⟨h.ne, h.parked.release hf.state hup rfl, ?_⟩
    refine h.tallied.move (hf.count_release hi hup rfl) rfl ?_ ?_ ?_ ?_ rfl rfl ?_ ?_ <;> simp only [hsem]
    · exact h.tallied.lock_nonneg
    · exact h.tallied.gate_nonneg
    all_goals rcases hp with rfl | rfl <;> rcases hpc with hpc | hpc <;> rw [hpc] <;> rfl
  · have hself : (bsemUp sem.binSemNum1 s.lib).semaphores sem.binSemNum1 = 1 := by rw [hup, setSem_self]
    have hgate : (bsemUp sem.binSemNum1 s.lib).semaphores sem.binSemNum2 = s.lib.semaphores sem.binSemNum2 := by
      rw [hup, setSem_ne h.ne.symm]
    refine ⟨h.ne, h.parked.goto hf.state (by rw [hup, setSem_threadTable]) rfl fun r y hr hy => ?_, ?_⟩
    · rw [hup, setSem_ne, hy]
      rintro rfl
      exact hnone r hr
    · refine h.tallied.move (hf.count_goto (by rw [hup, setSem_threadTable]) rfl) rfl ?_ ?_ ?_ ?_ rfl rfl ?_ ?_ <;>
        simp only [hself, hgate, hclosed]
      · exact zero_le_one
      · exact h.tallied.gate_nonneg
      all_goals rcases hp with rfl | rfl <;> rfl

end

/-! ## The value -/

theorem Good.no_signals (h : Good sem k s) (hlock : hasLock (s.view t) = true) (v : Nat)
    (ht : signals v (s.view t) = false) : count s.view (signals v) = 0 := by
  have hle : count s.view hasLock ≤ 1 := by
    have h1 := h.tallied.lock
    have h2 := h.tallied.lock_nonneg
    omega
  rw [count_eq_zero]
  intro r
  by_contra hr
  rw [Bool.not_eq_false] at hr
  have hrt : r = t := count_le_one.mp hle r t (signals_hasLock hr) hlock
  rw [hrt, ht] at hr
  cases hr

/-- `sem->value--`. The thread has passed the gate, so the value is not 0. -/
theorem Good.dec (h : Good sem k s) (hf : Free s t .downDec) (hlib : u.lib = s.lib)
    (hpc : u.pc = update s.pc t .downTest) (hvalue : u.value = s.value - 1) (hincs : u.incs = s.incs)
    (hdecs : u.decs = s.decs + 1) (hups : u.ups = s.ups) (hreturned : u.returned = s.returned) : Good sem k u := by
  have hview : s.view t = (.downDec, none) := by rw [Sys.view, hf.pc, hf.waits]
  have htable : u.lib.threadTable = s.lib.threadTable := by rw [hlib]
  have hsignals : ∀ v, count s.view (signals v) = 0 := fun v =>
    h.no_signals (by rw [hview]; rfl) v (by rw [hview]; rfl)
  have hpos : 0 < count s.view hasGate := count_pos (p := t) (by rw [hview]; rfl)
  obtain ⟨h1, h2, h3, h4, h5, h6, h7⟩ := h.tallied
  rw [hsignals] at h4
  have hv : s.value.toNat ≠ 0 := by
    intro h0
    rw [if_pos h0] at h4
    omega
  have hval : u.value.toNat = s.value.toNat - 1 := by bv_omega
  have c1 : count u.view hasLock + 1 = count s.view hasLock + 1 := hf.count_goto htable hpc hasLock
  have c2 : count u.view hasGate + 1 = count s.view hasGate := hf.count_goto htable hpc hasGate
  have c3 := hf.count_goto htable hpc (signals u.value.toNat)
  have c4 : count u.view willInc = count s.view willInc := hf.count_goto htable hpc willInc
  have c5 : count u.view hasDec = count s.view hasDec + 1 := hf.count_goto htable hpc hasDec
  rw [if_neg hv] at h4
  refine ⟨h.ne, h.parked.goto hf.state htable hpc fun _ _ _ hy => hlib ▸ hy, ?_⟩
  refine ⟨hlib ▸ h1, hlib ▸ h2, by rw [hlib]; omega, ?_, by omega, by omega, by omega⟩
  rw [hsignals] at c3
  simp only [signals, Bool.toNat, Bool.cond_decide, Bool.cond_false] at c3
  rw [hlib]
  split at c3 <;> split <;> omega

theorem Good.inc (h : Good sem k s) (hf : Free s t .upInc) (hlib : u.lib = s.lib)
    (hpc : u.pc = update s.pc t .upTest) (hvalue : u.value = s.value + 1)
    (hbound : s.value.toNat + 1 < 2 ^ 32) (hincs : u.incs = s.incs + 1)
    (hdecs : u.decs = s.decs) (hups : u.ups = s.ups) (hreturned : u.returned = s.returned) : Good sem k u := by
  have hview : s.view t = (.upInc, none) := by rw [Sys.view, hf.pc, hf.waits]
  have htable : u.lib.threadTable = s.lib.threadTable := by rw [hlib]
  have hsignals : ∀ v, count s.view (signals v) = 0 := fun v =>
    h.no_signals (by rw [hview]; rfl) v (by rw [hview]; rfl)
  obtain ⟨h1, h2, h3, h4, h5, h6, h7⟩ := h.tallied
  rw [hsignals] at h4
  have hval : u.value.toNat = s.value.toNat + 1 := by bv_omega
  have c1 : count u.view hasLock + 1 = count s.view hasLock + 1 := hf.count_goto htable hpc hasLock
  have c2 : count u.view hasGate = count s.view hasGate := hf.count_goto htable hpc hasGate
  have c3 := hf.count_goto htable hpc (signals u.value.toNat)
  have c4 : count u.view willInc + 1 = count s.view willInc := hf.count_goto htable hpc willInc
  have c5 : count u.view hasDec = count s.view hasDec := hf.count_goto htable hpc hasDec
  refine ⟨h.ne, h.parked.goto hf.state htable hpc fun _ _ _ hy => hlib ▸ hy, ?_⟩
  refine ⟨hlib ▸ h1, hlib ▸ h2, by rw [hlib]; omega, ?_, by omega, by omega, by omega⟩
  rw [hsignals] at c3
  simp only [signals, Bool.toNat, Bool.cond_decide, Bool.cond_false] at c3
  rw [hlib]
  split at c3 <;> split at h4 <;> split <;> omega

/-! ## Every step -/

theorem Good.value_le (h : Good sem k s) : s.value.toNat + count s.view willInc ≤ k + s.ups := by
  have h1 := h.tallied.value
  have h2 := h.tallied.incs
  omega

theorem toInt_of_small {v : Word} (h : v.toNat < 2 ^ 31) : v.toInt = v.toNat :=
  BitVec.toInt_eq_toNat_of_lt (by omega)

theorem slt_of_small {v : Word} (h : v.toNat < 2 ^ 31) : (0#32).slt v = decide (0 < v.toNat) := by
  rw [BitVec.slt, toInt_of_small h]
  simp

theorem step_good {a : Act n} (h : Good sem k s) (hu : step sem s a = some u) (hk : k + u.ups < 2 ^ 31) :
    Good sem k u := by
  cases a with
  | down t =>
    simp only [step, Option.ite_none_right_eq_some, Option.some.injEq] at hu
    obtain ⟨⟨hpc, hb⟩, rfl⟩ := hu
    exact h.goto (h.parked.free hpc hb) rfl rfl rfl rfl
  | up t =>
    simp only [step, Option.ite_none_right_eq_some, Option.some.injEq] at hu
    obtain ⟨⟨hpc, hb⟩, rfl⟩ := hu
    have hf := h.parked.free hpc hb
    refine ⟨h.ne, h.parked.goto hf.state rfl rfl fun _ _ _ hy => hy, ?_⟩
    exact h.tallied.move (hf.count_goto rfl rfl) rfl h.tallied.lock_nonneg h.tallied.gate_nonneg rfl rfl rfl rfl rfl rfl
  | go t =>
    cases hpc : s.pc t <;> simp only [step, hpc, Sys.resume, Option.some.injEq, reduceCtorEq] at hu
    case downGateWait | downLockWait | upLockWait =>
      split at hu
      · cases hu
      · rename_i hb
        cases hu
        exact h.goto (h.parked.free hpc (Bool.eq_false_of_not_eq_true hb)) rfl rfl rfl rfl
    -- in every other place the thread is not blocked
    all_goals
      have hf := h.parked.free_of_pc hpc nofun nofun nofun nofun
      have hle := h.value_le
      have hsmall : s.value.toNat < 2 ^ 31 := by
        rw [← hu] at hk
        simp only [Sys.goto, Sys.acquire] at hk
        omega
      subst hu
    case downGate => exact h.acquire hf .gate
    case downLock => exact h.acquire hf .downLock
    case upLock => exact h.acquire hf .upLock
    case downSignal => exact h.openGate hf (.inl ⟨rfl, rfl⟩)
    case upSignal => exact h.openGate hf (.inr ⟨rfl, rfl⟩)
    case downUnlock => exact h.unlock hf (.inl rfl)
    case upUnlock => exact h.unlock hf (.inr rfl)
    case downDec => exact h.dec hf rfl rfl rfl rfl rfl rfl rfl
    case upInc => exact h.inc hf rfl rfl rfl (by omega) rfl rfl rfl rfl
    case downTest =>
      rw [slt_of_small hsmall]
      by_cases hv : 0 < s.value.toNat <;> simp only [hv, decide_true, decide_false, if_true] <;>
        exact h.goto hf rfl (by simp [hasGate, signals, hv]) rfl rfl
    case upTest =>
      have hone : s.value = 1 ↔ s.value.toNat = 1 := by bv_omega
      by_cases hv : s.value.toNat = 1 <;> simp only [hone, hv, if_true, if_false] <;>
        exact h.goto hf rfl (by simp [hasGate, signals, hv]) rfl rfl

theorem step_ups {a : Act n} (hu : step sem s a = some u) : s.ups ≤ u.ups := by
  cases a with
  | down t =>
    simp only [step, Option.ite_none_right_eq_some, Option.some.injEq] at hu
    obtain ⟨-, rfl⟩ := hu
    rfl
  | up t =>
    simp only [step, Option.ite_none_right_eq_some, Option.some.injEq] at hu
    obtain ⟨-, rfl⟩ := hu
    exact Nat.le_succ _
  | go t =>
    cases hpc : s.pc t <;> simp only [step, hpc, Sys.resume, Option.some.injEq, reduceCtorEq] at hu
    case downGateWait | downLockWait | upLockWait =>
      split at hu <;> cases hu
      rfl
    all_goals
      subst hu
      rfl

theorem run_good {as : List (Act n)} (hs : Good sem k s) (h : run (step sem) s as = some u)
    (hk : k + u.ups < 2 ^ 31) : Good sem k u := by
  -- the number of calls only grows, so the bound holds on the whole way
  have hinv : s.ups ≤ u.ups ∧ (k + u.ups < 2 ^ 31 → Good sem k u) := by
    apply run_invariant (I := fun v => s.ups ≤ v.ups ∧ (k + v.ups < 2 ^ 31 → Good sem k v)) _ ⟨le_rfl, fun _ => hs⟩ h
    rintro v a w ⟨hle, hv⟩ hstep
    have hups := step_ups hstep
    exact ⟨hle.trans hups, fun hw => step_good (hv (by omega)) hstep hw⟩
  exact hinv.2 hk

end Steps

/-! ## The allocated semaphore -/

theorem start_good {t : Fin n} {k : Word} {l l' : Lib n} {sem : CountingSemaphore} (hl : l.Sound)
    (h : allocSem t k l = (some sem, l')) : Good sem k.toNat (Sys.start l' sem) := by
  obtain ⟨hne, h1, h2, hvalue, htable, hlock, hgate⟩ := allocSem_some h
  have hnone : ∀ q : View → Bool, (∀ b, q (.idle, b) = false) → count (Sys.start l' sem).view q = 0 :=
    fun q hq => count_eq_zero.mpr fun r => hq _
  refine ⟨hne, ⟨fun r x hr => ?_, fun r hr => ?_, fun r hidle => absurd rfl hidle⟩, ?_⟩
  · -- nobody waits for a semaphore that was free
    have hx := (hl r x (htable ▸ hr)).2
    refine .inr (.inr ⟨?_, ?_, rfl⟩) <;> rintro rfl <;> contradiction
  · change (l'.threadTable r).blockedOnSemaphore ≠ none at hr
    change (l'.threadTable r).state = .blocked
    rw [htable] at hr ⊢
    obtain ⟨x, hx⟩ := Option.ne_none_iff_exists'.mp hr
    exact (hl r x hx).1
  · have hlib : (Sys.start l' sem).lib = l' := rfl
    have hk : (Sys.start l' sem).value = k := hvalue
    have hwill : count (Sys.start l' sem).view willInc = 0 := hnone willInc fun _ => rfl
    have hdec : count (Sys.start l' sem).view hasDec = 0 := hnone hasDec fun _ => rfl
    refine ⟨?_, ?_, ?_, ?_, congrArg BitVec.toNat hk, by rw [hwill]; rfl, by rw [hdec]; rfl⟩ <;> rw [hlib]
    · rw [hlock]
      exact zero_le_one
    · rw [hgate]
      split <;> decide
    · rw [hlock, hnone hasLock fun _ => rfl]
      rfl
    · rw [hgate, hnone hasGate fun _ => rfl, hnone (signals _) fun _ => rfl, hk]
      have hzero : k.toNat = 0 ↔ k = 0 := by bv_omega
      simp only [hzero]
      split <;> rfl

def Sys.Between (s : Sys n) (t : Fin n) : Prop :=
  s.pc t ∈ [.downDec, .downTest, .downSignal, .downUnlock, .upInc, .upTest, .upSignal, .upUnlock]

def Sys.Granted (s : Sys n) (t : Fin n) : Prop :=
  s.pc t = .downGateWait ∧ (s.lib.threadTable t).state ≠ .blocked ∨ s.pc t ∈ [.downLock, .downLockWait, .downDec]

theorem Good.granted_iff {sem : CountingSemaphore} {k : Nat} {s : Sys n} (h : Good sem k s) (t : Fin n) :
    s.Granted t ↔ hasGate (s.view t) = true := by
  have hblocked := h.parked.blocked t
  have hwaiting := h.parked.waiting t
  unfold Sys.Granted Sys.view
  cases hpc : s.pc t <;> rw [hpc] at hwaiting <;> simp only [hasGate] <;>
    cases hb : (s.lib.threadTable t).blockedOnSemaphore <;> simp_all

theorem signals_between {s : Sys n} {t : Fin n} {v : Nat} (h : signals v (s.view t) = true) : s.Between t := by
  unfold Sys.Between
  unfold Sys.view at h
  cases hpc : s.pc t <;> simp_all [signals]

theorem counting_semaphore {t : Fin n} {k : Word} {l l' : Lib n} {sem : CountingSemaphore} (hl : l.Sound)
    (ha : allocSem t k l = (some sem, l')) {as : List (Act n)} {s : Sys n}
    (h : run (step sem) (Sys.start l' sem) as = some s) (hk : k.toNat + s.ups < 2 ^ 31) :
    0 ≤ s.value.toInt ∧ s.returned ≤ k.toNat + s.incs ∧
    ((∀ r, ¬ s.Between r) →
      (0 < s.value.toInt → s.lib.semaphores sem.binSemNum2 = 1 ∨ ∃ r, s.Granted r) ∧
      (s.value.toInt = 0 → s.lib.semaphores sem.binSemNum2 = 0 ∧ ∀ r, ¬ s.Granted r)) := by
  have hg := run_good (start_good hl ha) h hk
  have hle := hg.value_le
  have hvalue := hg.tallied.value
  have hdecs := hg.tallied.decs
  have hgate := hg.tallied.gate
  have hnonneg := hg.tallied.gate_nonneg
  rw [toInt_of_small (by omega)]
  refine ⟨by omega, by omega, fun hbetween => ?_⟩
  have hsignals : count s.view (signals s.value.toNat) = 0 := by
    rw [count_eq_zero]
    intro r
    by_contra hr
    exact hbetween r (signals_between (Bool.eq_true_of_not_eq_false hr))
  rw [hsignals] at hgate
  refine ⟨fun hpos => ?_, fun hzero => ?_⟩
  · by_contra! hnot
    have hcount : count s.view hasGate = 0 := by
      rw [count_eq_zero]
      intro r
      simpa [hg.granted_iff r] using hnot.2 r
    rw [if_neg (by omega)] at hgate
    omega
  · rw [if_pos (by omega)] at hgate
    refine ⟨by omega, fun r hr => ?_⟩
    have := count_pos ((hg.granted_iff r).mp hr)
    omega

def idleLib : Lib 2 := ⟨fun t => ⟨t, .ready, 0, none, none⟩, fun _ => -1⟩

def zeroSem : CountingSemaphore := ⟨0, 1, 0⟩

def downThenUp : List (Act 2) :=
  [.down 1, .go 1, .up 0, .go 0, .go 0, .go 0, .go 0, .go 0, .go 1, .go 1, .go 1, .go 1, .go 1]

theorem downThenUp_counting :
    ∃ s, run (step zeroSem) (Sys.start (allocSem 0 0 idleLib).2 zeroSem) downThenUp = some s ∧
      s.returned = 1 ∧ s.incs = 1 ∧ 0 ≤ s.value.toInt ∧ s.returned ≤ 0 + s.incs := by
  have hrun : (run (step zeroSem) (Sys.start (allocSem 0 0 idleLib).2 zeroSem) downThenUp).isSome := by decide
  obtain ⟨s, hs⟩ := Option.isSome_iff_exists.mp hrun
  have hcounts : (run (step zeroSem) (Sys.start (allocSem 0 0 idleLib).2 zeroSem) downThenUp).map
      (fun s => (s.returned, s.incs, s.ups)) = some (1, 1, 1) := by decide
  rw [hs, Option.map_some, Option.some.injEq, Prod.mk.injEq, Prod.mk.injEq] at hcounts
  obtain ⟨hreturned, hincs, hups⟩ := hcounts
  have h := counting_semaphore (t := 0) (k := 0) (l := idleLib) (fun _ _ h => nomatch h) rfl hs (by rw [hups]; decide)
  exact ⟨s, hs, hreturned, hincs, h.1, h.2.1⟩

end Xv6.Uthread.Counting
