import Mathlib.Algebra.Group.Int.Defs
import Mathlib.Logic.Function.Basic
import Xv6.Lib.Run

/-!
# Interrupts and spinlocks

`pushcli`, `popcli`, `acquire` and `release` on any number of CPUs, which `sched` and `scheduler` switch between kernel
threads. `acquire` is one step: its CPU does nothing else until it has the lock. A panic outside of `popcli` has no next
state.
-/

open Function Xv6.Run

namespace Xv6.Interrupts

structure Cpu where
  /-- `FL_IF` -/
  iflag : Bool
  ncli : Int
  intena : Bool

def pushcli (x : Cpu) : Cpu := ⟨false, x.ncli + 1, if x.ncli = 0 then x.iflag else x.intena⟩

/-- Nothing for a panic. -/
def popcli (x : Cpu) : Option Cpu :=
  if x.iflag ∨ x.ncli - 1 < 0 then none
  else some ⟨if x.ncli - 1 = 0 ∧ x.intena then true else x.iflag, x.ncli - 1, x.intena⟩

structure Sys (C P L : Type) where
  cpu : C → Cpu
  /-- The process on a CPU, or the scheduler. -/
  proc : C → Option P
  lock : L → Option C
  /-- For a process on no CPU: `intena` in `sched`, with `first`, or nothing before `forkret`. -/
  context : P → Option (Option (Bool × Option Bool))
  /-- The open calls of `pushcli`, with the locks of those in `acquire`. -/
  calls : C → List (Option L)
  /-- `FL_IF` before the first of these calls, unless the thread has started with a lock. -/
  first : C → Option Bool
  /-- `first`, and `FL_IF` when a process has released its last lock. -/
  nests : List (Option Bool × Bool)
  panicked : Bool

variable {C P L : Type} [DecidableEq C] {s t : Sys C P L} {c : C}

/-- The CPUs have interrupts off and no lock, and all processes are new. -/
def Sys.init : Sys C P L :=
  ⟨fun _ => ⟨false, 0, false⟩, fun _ => none, fun _ => none, fun _ => some none, fun _ => [], fun _ => none, [], false⟩

def Sys.push (s : Sys C P L) (c : C) (l : Option L) : Sys C P L :=
  { s with
    cpu := update s.cpu c (pushcli (s.cpu c)), calls := update s.calls c (l :: s.calls c)
    first := update s.first c (if s.calls c = [] then some (s.cpu c).iflag else s.first c) }

structure Inv (s : Sys C P L) : Prop where
  count : ∀ c, (s.cpu c).ncli = (s.calls c).length
  off : ∀ c, 0 < (s.cpu c).ncli → (s.cpu c).iflag = false
  held : ∀ c l, s.lock l = some c → some l ∈ s.calls c
  intena : ∀ c b, s.proc c ≠ none → s.calls c ≠ [] → s.first c = some b → (s.cpu c).intena = b
  saved : ∀ p i b, s.context p = some (some (i, some b)) → i = b
  nests : ∀ b e, (some b, e) ∈ s.nests → b = e
  panicked : s.panicked = false

theorem push_inv (h : Inv s) (l : Option L) : Inv (s.push c l) := by
  have hnone : s.calls c = [] ↔ (s.cpu c).ncli = 0 := by
    rw [h.count, Int.natCast_eq_zero, List.length_eq_zero_iff]
  cases h
  constructor <;> simp only [Sys.push, pushcli, update_apply] <;> grind

variable [DecidableEq L]

def Sys.pop (s : Sys C P L) (c : C) (l : Option L) : Sys C P L :=
  match popcli (s.cpu c) with
  | none => { s with panicked := true }
  | some x =>
    { s with
      cpu := update s.cpu c x, calls := update s.calls c ((s.calls c).erase l)
      nests := if x.ncli = 0 ∧ s.proc c ≠ none then (s.first c, x.iflag) :: s.nests else s.nests }

theorem pop_inv (h : Inv s) {l : Option L} (hl : l ∈ s.calls c)
    (hlock : ∀ k, s.lock k = some c → some k ≠ l) : Inv (s.pop c l) := by
  have hlen := List.length_erase_of_mem hl
  have hpos := List.length_pos_of_mem hl
  have hcount := h.count c
  have hflag := h.off c (by omega)
  have hlast := h.intena c
  cases h
  unfold Sys.pop popcli
  rw [if_neg (by simp [hflag]; omega)]
  constructor <;> simp only [update_apply] <;> grind

inductive Act (C P L : Type) where
  | pushcli (c : C)
  | popcli (c : C)
  | acquire (c : C) (l : L)
  | release (c : C) (l : L)
  /-- An interrupt that comes in or returns, `cli` or `sti`. -/
  | setFlag (c : C) (iflag : Bool)
  | sched (c : C) (p : P)
  /-- The scheduler, with no lock but `ptable.lock`, switches to a process. -/
  | dispatch (c : C) (p : P) (f : Option (Bool × Option Bool))

variable [DecidableEq P] (table : L)

/-- `table` is `ptable.lock`. -/
def step (s : Sys C P L) : Act C P L → Option (Sys C P L)
  | .pushcli c => some (s.push c none)
  | .popcli c => if none ∈ s.calls c then some (s.pop c none) else none
  | .acquire c l =>
    if s.lock l = none then some { s.push c (some l) with lock := update s.lock l (some c) } else none
  | .release c l =>
    if s.lock l = some c then some ({ s with lock := update s.lock l none }.pop c (some l)) else none
  | .setFlag c iflag =>
    if s.calls c = [] then some { s with cpu := update s.cpu c { s.cpu c with iflag := iflag } } else none
  | .sched c p =>
    if s.proc c = some p ∧ s.lock table = some c ∧ (s.cpu c).ncli = 1 ∧ (s.cpu c).iflag = false then
      some { s with
        proc := update s.proc c none, context := update s.context p (some (some ((s.cpu c).intena, s.first c))) }
    else none
  | .dispatch c p f =>
    if s.context p = some f ∧ s.proc c = none ∧ s.calls c = [some table] then
      some { s with
        proc := update s.proc c (some p), context := update s.context p none
        cpu := update s.cpu c { s.cpu c with intena := f.elim (s.cpu c).intena Prod.fst }
        first := update s.first c (f.bind Prod.snd) }
    else none

theorem step_inv (h : Inv s) {a : Act C P L} (ht : step table s a = some t) : Inv t := by
  unfold step at ht
  cases a <;> simp only [Option.ite_none_right_eq_some, Option.some.injEq] at ht
  case pushcli c => exact ht ▸ push_inv h none
  all_goals obtain ⟨hok, rfl⟩ := ht
  case popcli c => exact pop_inv h hok (by simp)
  case acquire c l =>
    have hpush := push_inv (c := c) h (some l)
    refine ⟨hpush.count, hpush.off, ?_, hpush.intena, hpush.saved, hpush.nests, hpush.panicked⟩
    have := hpush.held
    simp only [Sys.push, update_apply] at *
    grind
  case release c l =>
    have hheld := h.held
    have hfree : Inv { s with lock := update s.lock l none } := by
      refine ⟨h.count, h.off, ?_, h.intena, h.saved, h.nests, h.panicked⟩
      simp only [update_apply]
      grind
    refine pop_inv hfree (hheld c l hok) ?_
    simp only [update_apply]
    grind
  case setFlag c iflag =>
    have hnone : (s.cpu c).ncli = 0 := by rw [h.count, hok]; rfl
    cases h
    constructor <;> simp only [update_apply] <;> grind
  case sched c p =>
    obtain ⟨hproc, htable, -⟩ := hok
    have hsaved : ∀ b, s.first c = some b → (s.cpu c).intena = b :=
      fun b => h.intena c b (by simp [hproc]) (List.ne_nil_of_mem (h.held c table htable))
    cases h
    constructor <;> simp only [update_apply] <;> grind
  case dispatch c p f =>
    -- the process finds `intena` as it was in `sched`, or has not been there
    have hsaved : ∀ b, f.bind Prod.snd = some b → f.elim (s.cpu c).intena Prod.fst = b := fun b hb => by
      obtain ⟨⟨i, first⟩, rfl, rfl⟩ := Option.bind_eq_some_iff.mp hb
      exact h.saved p i b hok.1
    cases h
    constructor <;> simp only [update_apply] <;> grind

/-- `popcli` never panics, and who has released the last lock has interrupts on exactly if they were on before the
first, on whichever CPU. -/
theorem interrupts_nest (as : List (Act C P L)) :
    Always (step table) (fun t => t.panicked = false ∧ (∀ b e, (some b, e) ∈ t.nests → b = e) ∧
      ∀ c, (t.cpu c).ncli = (t.calls c).length ∧ (0 < (t.cpu c).ncli → (t.cpu c).iflag = false)) .init as := by
  have hinit : Inv (Sys.init : Sys C P L) := by constructor <;> simp [Sys.init]
  refine always_of_along (fun s a t h _ => step_inv table h) (fun t h => ⟨h.panicked, h.nests, ?_⟩) hinit
    (along_true _ as)
  exact fun c => ⟨h.count c, h.off c⟩

example : ((run (step ()) (.init : Sys Bool Unit Unit) [.acquire false (), .dispatch false () none, .release false (),
    .setFlag false true, .acquire false (), .sched false (), .release false (), .acquire true (),
    .dispatch true () (some (true, some true)), .release true ()]).map Sys.nests) =
    some [(some true, true), (none, false)] := by decide

end Xv6.Interrupts
