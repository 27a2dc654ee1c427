import Xv6.Uthread.Counting
import Xv6.Uthread.Pool

/-!
# A semaphore that is freed while threads wait for it

`down`, `up`, `allocSem`, `freeSem` and `bsem_alloc` by any number of threads. A step is one call of a binary
semaphore's function, or one access to the fields. Freed blocks keep their contents.
-/

open Function Xv6.Run Xv6.Count

namespace Xv6.Uthread.Recycle

/-! ## `usemaphore.c` -/

/-- What `allocSem` does next. `none` is a `bsem_alloc` that has returned -1. -/
inductive AllocSemPc where
  | first
  | second (binSemNum1 : Option Sem)
  | fill (binSemNum1 binSemNum2 : Option Sem)
  /-- `bsem_down(semPtr->binSemNum2)`, and then in the call. -/
  | gate
  | gateWait
  | value
deriving DecidableEq

inductive FreeSemPc where
  | first
  | second
  | last
deriving DecidableEq

inductive Pc where
  | idle
  /-- `down(sem)` or `up(sem)`. -/
  | use (sem : Nat) (pc : Counting.Pc)
  | alloc (semPtr : Nat) (enterVal : Word) (pc : AllocSemPc)
  | free (sem : Nat) (pc : FreeSemPc)
deriving DecidableEq

structure Sys (n : Nat) where
  lib : Lib n
  /-- What is at an address, also when the block is free. -/
  heap : Nat → CountingSemaphore
  /-- The blocks that `malloc` has given out. -/
  block : Nat → Bool
  /-- The semaphores that `allocSem` has returned and that nobody has begun to free. -/
  live : Nat → Bool
  pc : Fin n → Pc
  /-- The number of steps so far. -/
  now : Nat
  /-- When the block and when the binary semaphore were last allocated. -/
  made : Nat → Nat
  taken : Sem → Nat
  /-- When `freeSem` was called for the semaphore whose `down` the thread is in. -/
  released : Fin n → Option Nat

inductive Act (n : Nat) where
  | down (t : Fin n) (sem : Nat)
  | up (t : Fin n) (sem : Nat)
  /-- `malloc` returns `semPtr`. -/
  | allocSem (t : Fin n) (semPtr : Nat) (enterVal : Word)
  | freeSem (t : Fin n) (sem : Nat)
  | bsemAlloc (t : Fin n)
  | go (t : Fin n)
deriving DecidableEq

def inDown : Counting.Pc → Bool
  | .downGate | .downGateWait | .downLock | .downLockWait | .downDec | .downTest | .downSignal | .downUnlock => true
  | _ => false

def Pc.downs : Pc → Option Nat
  | .use sem pc => if inDown pc then some sem else none
  | _ => none

variable {n : Nat}

namespace Sys

def goto (s : Sys n) (t : Fin n) (pc : Pc) : Sys n := { s with pc := update s.pc t pc }

def isBlocked (s : Sys n) (t : Fin n) : Bool := (s.lib.threadTable t).state = .blocked

def seen (s : Sys n) (sem : Nat) (pc : Counting.Pc) : Counting.Sys n :=
  ⟨s.lib, (s.heap sem).value, fun _ => pc, 0, 0, 0, 0⟩

def goUse (s : Sys n) (t : Fin n) (sem : Nat) (pc : Counting.Pc) : Option (Sys n) :=
  (Counting.step (s.heap sem) (s.seen sem pc) (.go t)).map fun u =>
    { s.goto t (if u.pc t = .idle then .idle else .use sem (u.pc t)) with
      lib := u.lib, heap := update s.heap sem { s.heap sem with value := u.value } }

def bsemAlloc (s : Sys n) : Option Sem × Sys n :=
  match Uthread.bsemAlloc s.lib with
  | some (x, l) => (some x, { s with lib := l, taken := update s.taken x s.now })
  | none => (none, s)

def goAlloc (s : Sys n) (t : Fin n) (semPtr : Nat) (enterVal : Word) : AllocSemPc → Option (Sys n)
  | .first => some (s.bsemAlloc.2.goto t (.alloc semPtr enterVal (.second s.bsemAlloc.1)))
  | .second binSemNum1 => some (s.bsemAlloc.2.goto t (.alloc semPtr enterVal (.fill binSemNum1 s.bsemAlloc.1)))
  | .fill (some binSemNum1) (some binSemNum2) =>
    some { s.goto t (.alloc semPtr enterVal (if enterVal = 0 then .gate else .value)) with
      heap := update s.heap semPtr ⟨binSemNum1, binSemNum2, (s.heap semPtr).value⟩ }
  | .fill _ _ => some (s.goto t .idle)
  | .gate =>
    let s := { s with lib := bsemDown t (s.heap semPtr).binSemNum2 s.lib }
    some (s.goto t (.alloc semPtr enterVal (if s.isBlocked t then .gateWait else .value)))
  | .gateWait => if s.isBlocked t then none else some (s.goto t (.alloc semPtr enterVal .value))
  | .value =>
    some { s.goto t .idle with
      heap := update s.heap semPtr { s.heap semPtr with value := enterVal }
      live := update s.live semPtr (semPtr ≠ 0) }

def goFree (s : Sys n) (t : Fin n) (sem : Nat) : FreeSemPc → Sys n
  | .first => { s.goto t (.free sem .second) with lib := bsemFree (s.heap sem).binSemNum1 s.lib }
  | .second => { s.goto t (.free sem .last) with lib := bsemFree (s.heap sem).binSemNum2 s.lib }
  | .last => { s.goto t .idle with block := update s.block sem false }

def go (s : Sys n) (t : Fin n) : Option (Sys n) :=
  match s.pc t with
  | .idle => none
  | .use sem pc => s.goUse t sem pc
  | .alloc semPtr enterVal pc => s.goAlloc t semPtr enterVal pc
  | .free sem pc => some (s.goFree t sem pc)

def Outside (s : Sys n) (t : Fin n) : Prop := s.pc t = .idle ∧ s.isBlocked t = false

instance (s : Sys n) (t : Fin n) : Decidable (s.Outside t) := inferInstanceAs (Decidable (_ ∧ _))

def call (s : Sys n) : Act n → Option (Sys n)
  | .down t sem =>
    if s.Outside t ∧ s.live sem then
      some { s.goto t (.use sem .downGate) with released := update s.released t none }
    else none
  | .up t sem => if s.Outside t ∧ s.live sem then some (s.goto t (.use sem .upLock)) else none
  | .allocSem t semPtr enterVal =>
    if s.Outside t ∧ s.block semPtr = false then
      some { s.goto t (.alloc semPtr enterVal .first) with
        block := update s.block semPtr (semPtr ≠ 0), made := update s.made semPtr s.now }
    else none
  | .freeSem t sem =>
    if s.Outside t ∧ s.live sem then
      some { s.goto t (.free sem .first) with
        live := update s.live sem false
        released := fun r => if (s.pc r).downs = some sem then some s.now else s.released r }
    else none
  | .bsemAlloc t => if s.Outside t then some s.bsemAlloc.2 else none
  | .go t => s.go t

end Sys

def step (s : Sys n) (a : Act n) : Option (Sys n) := (s.call a).map fun u => { u with now := s.now + 1 }

def Sys.start (lib : Lib n) (heap : Nat → CountingSemaphore) : Sys n :=
  ⟨lib, heap, fun _ => false, fun _ => false, fun _ => .idle, 0, fun _ => 0, fun _ => 0, fun _ => none⟩

/-! ## What a released thread touches -/

/-- The fields, and the binary semaphore, that the next step of `down` reads or changes. -/
def readsFields : Counting.Pc → Bool
  | .downGateWait | .downLockWait => false
  | pc => inDown pc

def touches (sem : CountingSemaphore) : Counting.Pc → Option Sem
  | .downGate | .downSignal => some sem.binSemNum2
  | .downLock | .downUnlock => some sem.binSemNum1
  | _ => none

/-- `freeSem` was called for the semaphore, at that time, and the thread is still in its `down`. -/
def Sys.stale (s : Sys n) (t : Fin n) : Option (Nat × Nat) :=
  (s.pc t).downs.bind fun sem => (s.released t).map fun time => (sem, time)

/-- The step touches no counting and no binary semaphore that was allocated after the time. -/
def Sys.OldOnly (s : Sys n) (sem : Nat) (pc : Counting.Pc) (time : Nat) : Prop :=
  (readsFields pc → s.made sem ≤ time) ∧
  ∀ x ∈ touches (s.heap sem) pc, s.lib.semaphores x ≠ -1 → s.taken x ≤ time

instance (s : Sys n) (sem : Nat) (pc : Counting.Pc) (time : Nat) : Decidable (s.OldOnly sem pc time) :=
  inferInstanceAs (Decidable (_ ∧ _))

/-- A thread that `freeSem` has released touches no semaphore that was allocated after it. -/
def Clean (s : Sys n) : Act n → Prop
  | .go t =>
    match s.pc t, s.stale t with
    | .use sem pc, some (_, time) => s.OldOnly sem pc time
    | _, _ => True
  | _ => True

instance (s : Sys n) : DecidablePred (Clean s) := fun a => by
  unfold Clean
  split
  · split <;> infer_instance
  · infer_instance

/-! ## When nothing is recycled -/

def left : Pc → Nat
  | .use _ .downGate => 8
  | .use _ .downGateWait => 7
  | .use _ .downLock => 6
  | .use _ .downLockWait => 5
  | .use _ .downDec => 4
  | .use _ .downTest => 3
  | .use _ .downSignal => 2
  | .use _ .downUnlock => 1
  | _ => 0

def Sys.Freeing (s : Sys n) (sem : Nat) : Prop := ∃ t pc, s.pc t = .free sem pc

/-- A released thread gets closer to its return with each step, and no other thread takes it back. -/
def Finishes (s : Sys n) : Prop :=
  ∀ t sem time, s.stale t = some (sem, time) → ¬ s.Freeing sem →
    (∃ u, step s (.go t) = some u ∧ left (u.pc t) < left (s.pc t)) ∧
    ∀ a u, step s a = some u → a ≠ .go t → u.pc t = s.pc t

def Uses (sem : CountingSemaphore) (x : Sem) : Prop := x = sem.binSemNum1 ∨ x = sem.binSemNum2

instance (sem : CountingSemaphore) : DecidablePred (Uses sem) := fun _ => inferInstanceAs (Decidable (_ ∨ _))

/-- `bsem_alloc` finds another semaphore before those of a released thread in `down`. -/
def Sys.Spared (s : Sys n) : Prop :=
  ∀ t, ∀ stale ∈ s.stale t, ∀ x, Uses (s.heap stale.1) x → s.lib.semaphores x = -1 →
    ∃ y, y < x ∧ s.lib.semaphores y = -1

/-- While a released thread is in `down`, nobody gets its block or its binary semaphores. -/
def Quiet (s : Sys n) : Act n → Prop
  | .allocSem _ semPtr _ => ∀ t, ∀ stale ∈ s.stale t, stale.1 ≠ semPtr
  | .bsemAlloc _ => s.Spared
  | .go t =>
    match s.pc t with
    | .alloc _ _ .first | .alloc _ _ (.second _) => s.Spared
    | _ => True
  | _ => True

instance (s : Sys n) : Decidable s.Spared := by
  unfold Sys.Spared
  infer_instance

instance (s : Sys n) : DecidablePred (Quiet s) := fun a => by
  unfold Quiet
  split
  · infer_instance
  · infer_instance
  · split <;> infer_instance
  · infer_instance

/-! ## One step of `down` or `up` -/

def inBsemDown : Counting.Pc → Bool
  | .downGateWait | .downLockWait | .upLockWait => true
  | _ => false

section Use

variable {sem : CountingSemaphore} {c d : Counting.Sys n} {t : Fin n}

theorem counting_go_cases (h : Counting.step sem c (.go t) = some d) :
    (∃ x, Uses sem x ∧ inBsemDown (c.pc t) = false ∧ d.lib = bsemDown t x c.lib ∧
      inBsemDown (d.pc t) = d.isBlocked t) ∨
    (d.lib = c.lib ∧ inBsemDown (d.pc t) = false ∧ (inBsemDown (c.pc t) = true → c.isBlocked t = false)) ∨
    ∃ x, d.lib = bsemUp x c.lib ∧ inBsemDown (c.pc t) = false ∧ inBsemDown (d.pc t) = false := by
  have hacquire : ∀ x wait next, inBsemDown wait = true → inBsemDown next = false →
      inBsemDown ((c.acquire t x wait next).pc t) = (c.acquire t x wait next).isBlocked t := by
    intro x wait next hwait hnext
    unfold Counting.Sys.acquire Counting.Sys.goto
    dsimp only
    rw [update_self]
    cases hb : Counting.Sys.isBlocked { c with lib := bsemDown t x c.lib } t with
    | true => exact hwait.trans hb.symm
    | false => exact hnext.trans hb.symm
  unfold Counting.step at h
  dsimp only at h
  cases hpc : c.pc t <;> rw [hpc] at h <;> dsimp only at h
  case idle => cases h
  case downGate =>
    cases h
    exact .inl ⟨_, .inr rfl, rfl, rfl, hacquire _ _ _ rfl rfl⟩
  case downLock =>
    cases h
    exact .inl ⟨_, .inl rfl, rfl, rfl, hacquire _ _ _ rfl rfl⟩
  case upLock =>
    cases h
    exact .inl ⟨_, .inl rfl, rfl, rfl, hacquire _ _ _ rfl rfl⟩
  case downGateWait | downLockWait | upLockWait =>
    simp only [Counting.Sys.resume, Option.ite_none_left_eq_some, Option.some.injEq] at h
    obtain ⟨hb, rfl⟩ := h
    refine .inr (.inl ⟨rfl, ?_, fun _ => by simpa using hb⟩)
    simp only [Counting.Sys.goto, update_self]
    rfl
  case downDec | upInc =>
    cases h
    refine .inr (.inl ⟨rfl, ?_, fun hin => by cases hin⟩)
    simp only [Counting.Sys.goto, update_self]
    rfl
  case downTest | upTest =>
    cases h
    refine .inr (.inl ⟨rfl, ?_, fun hin => by cases hin⟩)
    simp only [Counting.Sys.goto, update_self]
    split <;> rfl
  case downSignal | upSignal | downUnlock | upUnlock =>
    cases h
    refine .inr (.inr ⟨_, rfl, rfl, ?_⟩)
    simp only [Counting.Sys.goto, update_self]
    rfl

theorem counting_go_inDown (h : Counting.step sem c (.go t) = some d) (hd : inDown (d.pc t) = true) :
    inDown (c.pc t) = true := by
  unfold Counting.step at h
  dsimp only at h
  cases hpc : c.pc t <;> rw [hpc] at h <;> dsimp only at h
  case idle => cases h
  case upLock =>
    cases h
    simp only [Counting.Sys.acquire, Counting.Sys.goto, update_self] at hd
    split at hd <;> cases hd
  case upLockWait =>
    simp only [Counting.Sys.resume, Option.ite_none_left_eq_some, Option.some.injEq] at h
    obtain ⟨-, rfl⟩ := h
    simp only [Counting.Sys.goto, update_self] at hd
    cases hd
  case upInc | upSignal | upUnlock =>
    cases h
    simp only [Counting.Sys.goto, update_self] at hd
    cases hd
  case upTest =>
    cases h
    simp only [Counting.Sys.goto, update_self] at hd
    split at hd <;> cases hd
  all_goals rfl

end Use

/-! ## Threads that wait -/

def Pc.inBsemDown : Pc → Bool
  | .use _ pc => Recycle.inBsemDown pc
  | .alloc _ _ .gateWait => true
  | _ => false

/-- A blocked thread waits in `bsem_down` for a taken semaphore, in `down` for one of its own. -/
structure Parked (s : Sys n) : Prop where
  blocked_iff : ∀ t, (s.lib.threadTable t).state = .blocked ↔ (s.lib.threadTable t).blockedOnSemaphore ≠ none
  waits : ∀ t x, (s.lib.threadTable t).blockedOnSemaphore = some x →
    s.lib.semaphores x ≠ -1 ∧ (s.pc t).inBsemDown = true ∧ ∀ sem, (s.pc t).downs = some sem → Uses (s.heap sem) x

section Parked

variable {s u : Sys n} {t i : Fin n} {p : Pc} {x : Sem}

theorem Parked.free (h : Parked s) (ht : (s.pc t).inBsemDown = true → s.isBlocked t = false) :
    (s.lib.threadTable t).blockedOnSemaphore = none := by
  cases hb : (s.lib.threadTable t).blockedOnSemaphore with
  | none => rfl
  | some x =>
    have hstate : (s.lib.threadTable t).state = .blocked := (h.blocked_iff t).mpr (by simp [hb])
    have := ht (h.waits t x hb).2.1
    simp [Sys.isBlocked, hstate] at this

theorem Parked.not_blocked (h : Parked s) (ht : (s.lib.threadTable t).blockedOnSemaphore = none) :
    s.isBlocked t = false := by
  simp only [Sys.isBlocked, decide_eq_false_iff_not, h.blocked_iff t, ht, ne_eq, not_true_eq_false, not_false_eq_true]

def SameNumbers (s u : Sys n) : Prop :=
  ∀ r sem, (s.pc r).downs = some sem → ∀ x, Uses (u.heap sem) x ↔ Uses (s.heap sem) x

variable (h : Parked s)
include h

theorem Parked.goto (ht : (s.lib.threadTable t).blockedOnSemaphore = none)
    (htable : u.lib.threadTable = s.lib.threadTable) (hsem : ∀ y, s.lib.semaphores y ≠ -1 → u.lib.semaphores y ≠ -1)
    (hpc : u.pc = update s.pc t p) (hnum : SameNumbers s u) : Parked u := by
  refine ⟨fun r => by rw [htable]; exact h.blocked_iff r, fun r y hr => ?_⟩
  rw [htable] at hr
  have hne : r ≠ t := by
    rintro rfl
    rw [ht] at hr
    cases hr
  obtain ⟨hy, hwaits, huses⟩ := h.waits r y hr
  rw [hpc, update_of_ne hne]
  exact ⟨hsem y hy, hwaits, fun sem hdown => (hnum r sem hdown y).mpr (huses sem hdown)⟩

theorem Parked.block (hlib : u.lib = s.lib.block t x) (hx : s.lib.semaphores x ≠ -1)
    (hpc : u.pc = update s.pc t p) (hnum : SameNumbers s u) (hp : p.inBsemDown = true)
    (huses : ∀ sem, p.downs = some sem → Uses (u.heap sem) x) : Parked u := by
  refine ⟨fun r => ?_, fun r y hr => ?_⟩
  · rw [hlib]
    rcases eq_or_ne r t with rfl | hne
    · simp
    · rw [block_ne hne]
      exact h.blocked_iff r
  · rw [hlib] at hr ⊢
    rcases eq_or_ne r t with rfl | hne
    · rw [block_self, Option.some.injEq] at hr
      subst hr
      rw [hpc, update_self]
      exact ⟨hx, hp, huses⟩
    · rw [block_ne hne] at hr
      obtain ⟨hy, hwaits, huses⟩ := h.waits r y hr
      rw [hpc, update_of_ne hne]
      exact ⟨hy, hwaits, fun sem hdown => (hnum r sem hdown y).mpr (huses sem hdown)⟩

theorem Parked.release (f : Fin n → Bool)
    (htable : u.lib.threadTable = fun r =>
      if f r then { s.lib.threadTable r with blockedOnSemaphore := none, state := .ready }
      else s.lib.threadTable r)
    (hsem : ∀ r y, f r = false → (s.lib.threadTable r).blockedOnSemaphore = some y → u.lib.semaphores y ≠ -1)
    (hpc : u.pc = s.pc) (hheap : u.heap = s.heap) : Parked u := by
  refine ⟨fun r => ?_, fun r y hr => ?_⟩
  · rw [htable]
    dsimp only
    split
    · simp
    · exact h.blocked_iff r
  · rw [htable] at hr
    dsimp only at hr
    split at hr
    · cases hr
    · rename_i hf
      rw [hpc, hheap]
      exact ⟨hsem r y (Bool.eq_false_iff.mpr hf) hr, (h.waits r y hr).2⟩

theorem Parked.bsemDown (ht : (s.lib.threadTable t).blockedOnSemaphore = none)
    (hlib : u.lib = Uthread.bsemDown t x s.lib) (hpc : u.pc = update s.pc t p) (hnum : SameNumbers s u)
    (hp : u.isBlocked t = true → p.inBsemDown = true) (huses : ∀ sem, p.downs = some sem → Uses (u.heap sem) x) :
    Parked u := by
  unfold Uthread.bsemDown at hlib
  split at hlib
  · exact h.goto ht (by rw [hlib]) (by rw [hlib]; exact fun _ => id) hpc hnum
  · rename_i hx
    split at hlib
    · exact h.block hlib hx hpc hnum (hp (by simp [Sys.isBlocked, hlib])) huses
    · refine h.goto ht (by rw [hlib]; rfl) (fun y hy => ?_) hpc hnum
      rw [hlib]
      rcases eq_or_ne y x with rfl | hne
      · rw [setSem_self]
        decide
      · rwa [setSem_ne hne]

theorem Parked.bsemUp (hlib : u.lib = Uthread.bsemUp x s.lib) (hpc : u.pc = s.pc)
    (hheap : u.heap = s.heap) : Parked u := by
  have htaken : ∀ r y, (s.lib.threadTable r).blockedOnSemaphore = some y → s.lib.semaphores y ≠ -1 :=
    fun r y hr => (h.waits r y hr).1
  unfold Uthread.bsemUp at hlib
  split at hlib
  · exact h.release (fun _ => false) (by rw [hlib]; rfl) (by rw [hlib]; exact fun r y _ => htaken r y) hpc hheap
  · split at hlib
    · rename_i i _
      refine h.release (fun r => r = i) ?_ (by rw [hlib]; exact fun r y _ => htaken r y) hpc hheap
      rw [hlib]
      funext r
      rcases eq_or_ne r i with rfl | hne
      · simp
      · simp [release_ne hne, hne]
    · refine h.release (fun _ => false) (by rw [hlib]; rfl) (fun r y _ hr => ?_) hpc hheap
      rw [hlib]
      rcases eq_or_ne y x with rfl | hne
      · rw [setSem_self]
        decide
      · rw [setSem_ne hne]
        exact htaken r y hr

theorem Parked.bsemFree (hlib : u.lib = Uthread.bsemFree x s.lib) (hpc : u.pc = s.pc)
    (hheap : u.heap = s.heap) : Parked u := by
  refine h.release (fun r => (s.lib.threadTable r).blockedOnSemaphore = some x) ?_ (fun r y hr hb => ?_) hpc hheap
  · rw [hlib]
    funext r
    simp [Uthread.bsemFree, Lib.mapThreads, releaseDown]
  · rw [hlib]
    have hne : y ≠ x := by
      rintro rfl
      simp [hb] at hr
    rw [Uthread.bsemFree, setSem_ne hne]
    exact (h.waits r y hb).1

end Parked

/-! ## The steps -/

def Pc.holds : Pc → Option Nat
  | .alloc semPtr _ _ => some semPtr
  | .free sem _ => some sem
  | _ => none

inductive Turns (s : Sys n) (t : Fin n) (sem : CountingSemaphore) (next : Pc) (l : Lib n) : Prop
  | down (x : Sem) (huses : Uses sem x) (ht : (s.pc t).inBsemDown = false) (hl : l = bsemDown t x s.lib)
    (hnext : Sys.isBlocked { s with lib := l } t = true → next.inBsemDown = true)
  | stay (ht : (s.pc t).inBsemDown = true → s.isBlocked t = false) (hl : l = s.lib)
  | up (x : Sem) (ht : (s.pc t).inBsemDown = false) (hl : l = bsemUp x s.lib)

/-- `bsem_alloc` takes the first free semaphore, if there is one. -/
inductive Takes (s : Sys n) : Lib n → (Sem → Nat) → Prop
  | none : Takes s s.lib s.taken
  | some {x : Sem} (hx : s.lib.semaphores x = -1) (hfirst : ∀ y, y < x → s.lib.semaphores y ≠ -1) :
    Takes s (s.lib.setSem x 1) (update s.taken x s.now)

inductive Moves (s : Sys n) : Act n → Sys n → Prop
  | down {t : Fin n} {sem : Nat} (ht : s.Outside t) (hlive : s.live sem = true) :
    Moves s (.down t sem) { s.goto t (.use sem .downGate) with released := update s.released t none }
  | up {t : Fin n} {sem : Nat} (ht : s.Outside t) : Moves s (.up t sem) (s.goto t (.use sem .upLock))
  | alloc {t : Fin n} {semPtr : Nat} {enterVal : Word} (ht : s.Outside t) (hblock : s.block semPtr = false) :
    Moves s (.allocSem t semPtr enterVal)
      { s.goto t (.alloc semPtr enterVal .first) with
        block := update s.block semPtr (semPtr ≠ 0), made := update s.made semPtr s.now }
  | free {t : Fin n} {sem : Nat} (ht : s.Outside t) (hlive : s.live sem = true) :
    Moves s (.freeSem t sem)
      { s.goto t (.free sem .first) with
        live := update s.live sem false
        released := fun r => if (s.pc r).downs = some sem then some s.now else s.released r }
  | bsemAlloc {t : Fin n} {l : Lib n} {taken : Sem → Nat} (ht : s.Outside t) (htakes : Takes s l taken) :
    Moves s (.bsemAlloc t) { s with lib := l, taken := taken }
  | use {t : Fin n} {sem : Nat} {pc : Counting.Pc} {next : Pc} {l : Lib n} {value : Word} (ht : s.pc t = .use sem pc)
    (hdowns : ∀ p, next.downs = some p → (s.pc t).downs = some p) (hholds : next.holds = none)
    (hturns : Turns s t (s.heap sem) next l) :
    Moves s (.go t) { s.goto t next with lib := l, heap := update s.heap sem { s.heap sem with value := value } }
  | take {t : Fin n} {semPtr : Nat} {enterVal : Word} {pc next : AllocSemPc} {l : Lib n} {taken : Sem → Nat}
    (ht : s.pc t = .alloc semPtr enterVal pc) (hpc : pc = .first ∨ ∃ x, pc = .second x) (htakes : Takes s l taken) :
    Moves s (.go t) { s.goto t (.alloc semPtr enterVal next) with lib := l, taken := taken }
  | fill {t : Fin n} {semPtr : Nat} {enterVal : Word} {pc next : AllocSemPc} {sem : CountingSemaphore}
    (ht : s.pc t = .alloc semPtr enterVal pc) (hpc : pc ≠ .gateWait) :
    Moves s (.go t) { s.goto t (.alloc semPtr enterVal next) with heap := update s.heap semPtr sem }
  | giveUp {t : Fin n} {semPtr : Nat} {enterVal : Word} {pc : AllocSemPc} (ht : s.pc t = .alloc semPtr enterVal pc)
    (hpc : pc ≠ .gateWait) : Moves s (.go t) (s.goto t .idle)
  | gate {t : Fin n} {semPtr : Nat} {enterVal : Word} {pc next : AllocSemPc} {l : Lib n}
    (ht : s.pc t = .alloc semPtr enterVal pc)
    (hturns : Turns s t (s.heap semPtr) (.alloc semPtr enterVal next) l) :
    Moves s (.go t) { s.goto t (.alloc semPtr enterVal next) with lib := l }
  | value {t : Fin n} {semPtr : Nat} {enterVal : Word} {sem : CountingSemaphore}
    (ht : s.pc t = .alloc semPtr enterVal .value) :
    Moves s (.go t)
      { s.goto t .idle with
        heap := update s.heap semPtr sem, live := update s.live semPtr (semPtr ≠ 0) }
  | freeFirst {t : Fin n} {sem : Nat} (ht : s.pc t = .free sem .first) : Moves s (.go t) (s.goFree t sem .first)
  | freeSecond {t : Fin n} {sem : Nat} (ht : s.pc t = .free sem .second) : Moves s (.go t) (s.goFree t sem .second)
  | freeLast {t : Fin n} {sem : Nat} (ht : s.pc t = .free sem .last) : Moves s (.go t) (s.goFree t sem .last)

section Steps

variable {s u : Sys n} {t : Fin n} {a : Act n}

theorem goUse_moves {sem : Nat} {pc : Counting.Pc} (ht : s.pc t = .use sem pc) (h : s.goUse t sem pc = some u) :
    Moves s (.go t) u := by
  simp only [Sys.goUse, Option.map_eq_some_iff] at h
  obtain ⟨d, hd, rfl⟩ := h
  have hnext : ∀ b, inBsemDown (d.pc t) = b → b = true →
      (if d.pc t = .idle then Pc.idle else .use sem (d.pc t)).inBsemDown = true := by
    rintro b hb rfl
    split
    · rename_i hidle
      rw [hidle] at hb
      cases hb
    · exact hb
  have hin : (s.pc t).inBsemDown = inBsemDown pc := by rw [ht]; rfl
  refine .use ht (fun p hp => ?_) (by split <;> rfl) ?_
  · rw [ht]
    split at hp
    · cases hp
    · simp only [Pc.downs, Option.ite_none_right_eq_some, Option.some.injEq] at hp ⊢
      exact ⟨counting_go_inDown hd hp.1, hp.2⟩
  · rcases counting_go_cases hd with ⟨x, hx, hpc, hl, hb⟩ | ⟨hl, -, hpc⟩ | ⟨x, hl, hpc, -⟩
    · exact .down x hx (hin.trans hpc) hl (hnext _ hb)
    · exact .stay (fun h => hpc (hin.symm.trans h)) hl
    · exact .up x (hin.trans hpc) hl

theorem bsemAlloc_first {l l' : Lib n} {x : Sem} (h : bsemAlloc l = some (x, l')) (y : Sem) (hy : y < x) :
    l.semaphores y ≠ -1 := by
  unfold bsemAlloc at h
  split at h
  · rename_i hfind
    cases h
    obtain ⟨-, k, hk, hget, hlt⟩ := List.find?_eq_some_iff_getElem.mp hfind
    have hkx : k = x.val := by
      rw [← hget]
      simp
    have := hlt y.val (by rw [hkx]; exact hy)
    simpa using this
  · cases h

theorem bsemAlloc_takes (s : Sys n) :
    ∃ l taken, Takes s l taken ∧ s.bsemAlloc.2 = { s with lib := l, taken := taken } := by
  unfold Sys.bsemAlloc
  split
  · rename_i hx
    obtain ⟨hfree, rfl⟩ := bsemAlloc_some hx
    exact ⟨_, _, .some hfree (bsemAlloc_first hx), rfl⟩
  · exact ⟨_, _, .none, rfl⟩

theorem goAlloc_moves {semPtr : Nat} {enterVal : Word} {pc : AllocSemPc} (ht : s.pc t = .alloc semPtr enterVal pc)
    (h : s.goAlloc t semPtr enterVal pc = some u) : Moves s (.go t) u := by
  obtain ⟨l, taken, htakes, halloc⟩ := bsemAlloc_takes s
  unfold Sys.goAlloc at h
  split at h
  · cases h
    rw [halloc]
    exact .take ht (.inl rfl) htakes
  · cases h
    rw [halloc]
    exact .take ht (.inr ⟨_, rfl⟩) htakes
  · cases h
    exact .fill ht nofun
  · cases h
    exact .giveUp ht nofun
  · cases h
    refine .gate ht (.down _ (.inr rfl) (by rw [ht]; rfl) rfl fun hb => ?_)
    rw [if_pos hb]
    rfl
  · obtain ⟨hb, ⟨⟩⟩ := Option.ite_none_left_eq_some.mp h
    exact .gate ht (.stay (fun _ => by simpa using hb) rfl)
  · cases h
    exact .value ht

theorem call_moves (h : s.call a = some u) : Moves s a u := by
  cases a with
  | down t sem =>
    obtain ⟨⟨ht, hlive⟩, ⟨⟩⟩ := Option.ite_none_right_eq_some.mp h
    exact .down ht hlive
  | up t sem =>
    obtain ⟨⟨ht, -⟩, ⟨⟩⟩ := Option.ite_none_right_eq_some.mp h
    exact .up ht
  | allocSem t semPtr enterVal =>
    obtain ⟨⟨ht, hblock⟩, ⟨⟩⟩ := Option.ite_none_right_eq_some.mp h
    exact .alloc ht hblock
  | freeSem t sem =>
    obtain ⟨⟨ht, hlive⟩, ⟨⟩⟩ := Option.ite_none_right_eq_some.mp h
    exact .free ht hlive
  | bsemAlloc t =>
    obtain ⟨ht, ⟨⟩⟩ := Option.ite_none_right_eq_some.mp h
    obtain ⟨l, taken, htakes, halloc⟩ := bsemAlloc_takes s
    rw [halloc]
    exact .bsemAlloc ht htakes
  | go t =>
    simp only [Sys.call, Sys.go] at h
    split at h
    · cases h
    · rename_i ht
      exact goUse_moves ht h
    · rename_i ht
      exact goAlloc_moves ht h
    · rename_i sem pc ht
      cases h
      cases pc with
      | first => exact .freeFirst ht
      | second => exact .freeSecond ht
      | last => exact .freeLast ht

end Steps

end Xv6.Uthread.Recycle
