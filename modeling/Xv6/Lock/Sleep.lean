import Xv6.Lib.Run

/-!
# Sleep locks

`acquiresleep` and `releasesleep`, over `sleep`, `wakeup`, `kill`, `yield` and `scheduler` of `proc.c`, for any number
of CPUs. A process that holds a spinlock goes on in one step until it needs another one or calls `sched`.
-/

open Function Xv6.Run

namespace Xv6.Sleeplock

inductive ProcState where
  | sleeping
  | runnable
  | running
deriving DecidableEq

/-- What a process does next. -/
inductive Pc (L : Type) where
  | idle
  /-- `sleep`, from `acquire(&ptable.lock)`, from `proc->chan = chan` and behind `sched`. -/
  | sleep (l : L)
  | sched (l : L)
  | woken (l : L)
  /-- `acquire(lk)` at the end of `sleep`. -/
  | relock (l : L)
  /-- `wakeup` in `releasesleep`. -/
  | wakeup (l : L)
deriving DecidableEq

/-- The process has `lk->lk`. -/
@[grind] def Pc.locks {L : Type} : Pc L → Bool
  | sleep _ | wakeup _ => true
  | _ => false

@[grind] def Pc.tables {L : Type} : Pc L → Bool
  | sched _ | woken _ => true
  | _ => false

/-- Who has `ptable.lock`, which is passed on in `swtch`. -/
inductive Holder (P : Type) where
  | nobody
  | scheduler
  | process (p : P)
deriving DecidableEq

structure Sys (P L : Type) where
  /-- The process that has `lk->lk`. -/
  lk : L → Option P
  locked : L → Bool
  pid : L → Nat
  table : Holder P
  state : P → ProcState
  chan : P → Option L
  pc : P → Pc L
  /-- From the return of `acquiresleep` to `lk->locked = 0`. -/
  inside : List (P × L)

variable {P L : Type} [DecidableEq P] [DecidableEq L] (pid : P → Nat) {s t : Sys P L} {p : P}

/-- `initsleeplock` has set up the locks. -/
def Sys.init : Sys P L :=
  ⟨fun _ => none, fun _ => false, fun _ => 0, .nobody, fun _ => .runnable, fun _ => none, fun _ => .idle,
    []⟩

/-- `acquire(&lk->lk)`, and the test of the loop in `acquiresleep`. -/
def acquire (s : Sys P L) (p : P) (l : L) : Option (Sys P L) :=
  if s.lk l ≠ none then none
  else if s.locked l then some { s with lk := update s.lk l (some p), pc := update s.pc p (.sleep l) }
  else some { s with
    locked := update s.locked l true, pid := update s.pid l (pid p), pc := update s.pc p .idle
    inside := (p, l) :: s.inside }

def wakeup1 (s : Sys P L) (l : L) (p : P) : ProcState :=
  if s.state p = .sleeping ∧ s.chan p = some l then .runnable else s.state p

def exec (s : Sys P L) (p : P) : Option (Sys P L) :=
  match s.pc p with
  -- the scheduler has passed the table to a process that has been in `yield`
  | .idle => if s.table = .process p then some { s with table := .nobody } else none
  | .relock l => if s.table = .process p then some { s with table := .nobody } else acquire pid s p l
  | .sleep l =>
    if s.table = .nobody then
      some { s with table := .process p, lk := update s.lk l none, pc := update s.pc p (.sched l) }
    else none
  | .sched l => some { s with
      chan := update s.chan p (some l), state := update s.state p .sleeping, table := .scheduler
      pc := update s.pc p (.woken l) }
  | .woken l => some { s with chan := update s.chan p none, table := .nobody, pc := update s.pc p (.relock l) }
  | .wakeup l =>
    if s.table = .nobody then some { s with state := wakeup1 s l, lk := update s.lk l none, pc := update s.pc p .idle }
    else none

inductive Act (P L : Type) where
  | acquiresleep (p : P) (l : L)
  | releasesleep (p : P) (l : L)
  | exec (p : P)
  /-- A timer interrupt, which does not come to a process with a spinlock. -/
  | yield (p : P)
  | kill (p : P)
  /-- A scheduler takes the table, switches to a process, and releases the table. -/
  | schedule
  | dispatch (p : P)
  | finish

/-- The process is in its own code. -/
abbrev Sys.Runs (s : Sys P L) (p : P) : Prop := s.state p = .running ∧ s.pc p = .idle ∧ s.table ≠ .process p

def step (s : Sys P L) : Act P L → Option (Sys P L)
  | .acquiresleep p l => if s.Runs p then acquire pid s p l else none
  | .releasesleep p l =>
    if s.Runs p ∧ (p, l) ∈ s.inside ∧ s.lk l = none then
      some { s with
        lk := update s.lk l (some p), locked := update s.locked l false, pid := update s.pid l 0
        pc := update s.pc p (.wakeup l), inside := s.inside.filter (· ≠ (p, l)) }
    else none
  | .exec p => if s.state p = .running then exec pid s p else none
  | .yield p =>
    if s.state p = .running ∧ s.table = .nobody ∧ (s.pc p).locks = false then
      some { s with state := update s.state p .runnable, table := .scheduler }
    else none
  | .kill p =>
    if s.table = .nobody then
      some { s with state := update s.state p (if s.state p = .sleeping then .runnable else s.state p) }
    else none
  | .schedule => if s.table = .nobody then some { s with table := .scheduler } else none
  | .dispatch p =>
    if s.table = .scheduler ∧ s.state p = .runnable then
      some { s with state := update s.state p .running, table := .process p }
    else none
  | .finish => if s.table = .scheduler then some { s with table := .nobody } else none

structure Inv (s : Sys P L) : Prop where
  lk : ∀ p l, s.pc p = .sleep l ∨ s.pc p = .wakeup l → s.lk l = some p
  table : ∀ p, s.state p = .running → (s.pc p).tables = true → s.table = .process p
  off : ∀ p l, s.pc p = .sleep l ∨ s.pc p = .sched l ∨ s.pc p = .wakeup l → s.state p = .running
  once : ∀ p q l, (p, l) ∈ s.inside → (q, l) ∈ s.inside → p = q
  pid : ∀ p l, (p, l) ∈ s.inside → s.locked l = true ∧ s.pid l = pid p
  held : ∀ l, s.locked l = true → ∃ p, (p, l) ∈ s.inside
  /-- Who sleeps, or is about to, waits for a lock that is taken or whose wakeup is still to come. -/
  waits : ∀ p l, s.pc p = .sched l ∨ s.state p = .sleeping ∧ s.chan p = some l →
    s.locked l = true ∨ ∃ q, s.pc q = .wakeup l
  tested : ∀ p l, s.pc p = .sleep l → s.locked l = true

variable {pid}

omit [DecidableEq P] [DecidableEq L] in
theorem Inv.setTable (h : Inv pid s) (x : Holder P)
    (hfree : ∀ q, s.state q = .running → (s.pc q).tables = true → s.table = .process q → False) :
    Inv pid { s with table := x } :=
  { h with table := fun q hq ht => (hfree q hq ht (h.table q hq ht)).elim }

theorem acquire_inv {l : L} (h : Inv pid s) (hr : s.state p = .running) (hpc : s.pc p = .idle ∨ s.pc p = .relock l)
    (ht : acquire pid s p l = some t) : Inv pid t := by
  unfold acquire at ht
  obtain ⟨hlk, ht⟩ := Option.ite_none_left_eq_some.mp ht
  -- who is at `sleep` or `wakeup` has the spinlock
  have hfree : ∀ q, s.pc q ≠ .sleep l ∧ s.pc q ≠ .wakeup l := fun q =>
    ⟨fun hq => hlk (by simp [h.lk q l (.inl hq)]), fun hq => hlk (by simp [h.lk q l (.inr hq)])⟩
  split at ht
  case isTrue hlocked =>
    cases ht
    cases h
    constructor <;> simp only [update_apply] <;> grind -linarith
  case isFalse hlocked =>
    have hempty : ∀ q, (q, l) ∉ s.inside := fun q hq => hlocked (h.pid q l hq).1
    cases ht
    cases h
    constructor <;> simp only [update_apply] <;> grind -linarith

theorem exec_inv (h : Inv pid s) (hr : s.state p = .running) (ht : exec pid s p = some t) : Inv pid t := by
  unfold exec at ht
  -- a process that goes on with the table would have it
  have htable : (s.pc p).tables = false → s.table = .process p → Inv pid { s with table := .nobody } :=
    fun hpc hp => h.setTable _ fun q _ hq hq' => by
      obtain rfl := Holder.process.inj (hp.symm.trans hq')
      rw [hpc] at hq
      cases hq
  cases hpc : s.pc p with
  | idle =>
    simp only [hpc, Option.ite_none_right_eq_some, Option.some.injEq] at ht
    exact ht.2 ▸ htable (by rw [hpc]; rfl) ht.1
  | relock l =>
    simp only [hpc] at ht
    split at ht
    · cases ht
      exact htable (by rw [hpc]; rfl) ‹_›
    · exact acquire_inv h hr (.inr hpc) ht
  | sleep l =>
    simp only [hpc, Option.ite_none_right_eq_some, Option.some.injEq] at ht
    obtain ⟨hfree, rfl⟩ := ht
    have hlk := h.lk p l (.inl hpc)
    have hlocked := h.tested p l hpc
    cases h
    constructor <;> simp only [update_apply] <;> grind -linarith
  | sched l =>
    simp only [hpc, Option.some.injEq] at ht
    subst ht
    have hwaits := h.waits p l (.inl hpc)
    have hmine := h.table p hr (by rw [hpc]; rfl)
    cases h
    constructor <;> simp only [update_apply] <;> grind -linarith
  | woken l =>
    simp only [hpc, Option.some.injEq] at ht
    subst ht
    have hmine := h.table p hr (by rw [hpc]; rfl)
    cases h
    constructor <;> simp only [update_apply] <;> grind -linarith
  | wakeup l =>
    simp only [hpc, Option.ite_none_right_eq_some, Option.some.injEq] at ht
    obtain ⟨hfree, rfl⟩ := ht
    -- a process on its way to sleep would have the table
    have halone : ∀ q, s.pc q ≠ .sched l := fun q hq => by
      have hq' := h.table q (h.off q l (.inr (.inl hq))) (by rw [hq]; rfl)
      simp [hfree] at hq'
    have hlk := h.lk p l (.inr hpc)
    cases h
    constructor <;> simp only [update_apply, wakeup1] <;> grind -linarith

theorem step_inv {a : Act P L} (h : Inv pid s) (ht : step pid s a = some t) : Inv pid t := by
  unfold step at ht
  cases a <;> simp only [Option.ite_none_right_eq_some] at ht <;> obtain ⟨hok, ht⟩ := ht
  case exec p => exact exec_inv h hok ht
  case acquiresleep p l => exact acquire_inv h hok.1 (.inl hok.2.1) ht
  all_goals cases ht
  case releasesleep p l =>
    obtain ⟨⟨hr, hpc, -⟩, hin, hlk⟩ := hok
    have hsole : ∀ q, (q, l) ∈ s.inside → q = p := fun q hq => h.once q p l hq hin
    cases h
    constructor <;> simp only [update_apply] <;> grind -linarith
  case yield p =>
    obtain ⟨hr, hfree, hlocks⟩ := hok
    have htables : (s.pc p).tables = false := Bool.eq_false_iff.mpr fun hp => by simp [h.table p hr hp] at hfree
    cases h
    constructor <;> simp only [update_apply] <;> grind -linarith
  case kill p =>
    have hoff : ∀ l, s.state p = .sleeping → s.pc p ≠ .sched l := fun l hp hpc => by
      simp [h.off p l (.inr (.inl hpc))] at hp
    cases h
    constructor <;> simp only [update_apply] <;> grind -linarith
  case dispatch p =>
    have hoff : ∀ l, s.pc p ≠ .sleep l ∧ s.pc p ≠ .sched l ∧ s.pc p ≠ .wakeup l := fun l => by
      refine ⟨?_, ?_, ?_⟩ <;> intro hpc <;> simp [h.off p l, hpc] at hok
    cases h
    constructor <;> simp only [update_apply] <;> grind -linarith
  all_goals exact h.setTable _ fun q _ _ hq => by simp [hok] at hq

/-- At most one process is inside, and the lock has its pid. Nobody sleeps on a lock that nobody has. -/
theorem sleeplock_excludes (pid : P → Nat) (as : List (Act P L)) :
    Always (step pid) (fun t => (∀ p q l, (p, l) ∈ t.inside → (q, l) ∈ t.inside → p = q) ∧
      (∀ p l, (p, l) ∈ t.inside → t.locked l = true ∧ t.pid l = pid p) ∧
      ∀ p l, t.state p = .sleeping → t.chan p = some l → t.lk l = none → ∃ q, (q, l) ∈ t.inside) .init as := by
  have hinit : Inv pid (Sys.init : Sys P L) := by constructor <;> simp [Sys.init]
  refine always_of_along (fun s a t h _ => step_inv h) (fun t h => ⟨h.once, h.pid, ?_⟩) hinit (along_true _ as)
  intro p l hp hl hfree
  obtain hlocked | ⟨q, hq⟩ := h.waits p l (.inr ⟨hp, hl⟩)
  · exact h.held l hlocked
  · have := h.lk q l (.inr hq)
    grind

example : ((run (step fun _ => 1) (.init : Sys Bool Unit) [.schedule, .dispatch true, .exec true, .acquiresleep true (),
    .schedule, .dispatch false, .exec false, .acquiresleep false (), .exec false, .exec false]).map
    fun t => (t.state false, t.inside)) = some (.sleeping, [(true, ())]) := by decide

end Xv6.Sleeplock
