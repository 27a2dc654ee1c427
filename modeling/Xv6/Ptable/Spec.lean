import Mathlib.Data.List.FinRange
import Mathlib.Tactic.Simps.Basic
import Mathlib.Logic.Function.Basic
import Xv6.Lib.Run

/-!
# Processes

The process table of `proc.c` under any number of CPUs. What happens between an `acquire` and the next `release` or
`swtch` is one step. The parts of `fork` and `sigsend` that run without the lock are steps of their own.
-/

namespace Xv6.Ptable

abbrev nofile : Nat := 16
abbrev numsig : Nat := 32

inductive ProcState where
  | unused
  | embryo
  | sleeping
  | runnable
  | running
  | zombie
deriving DecidableEq

/-- What a process sleeps on: a process in `wait`, or anything else. -/
inductive Chan (n : Nat) where
  | proc (p : Fin n)
  | other (a : Nat)
deriving DecidableEq

/-- An entry of `ptable`. Files, inodes and handlers stand for pointers to them. -/
structure Proc (n : Nat) where
  state : ProcState
  pid : Int
  parent : Option (Fin n)
  chan : Option (Chan n)
  killed : Bool
  /-- The process has a kernel stack, and a page directory. -/
  kstack : Bool
  pgdir : Bool
  ofile : Fin nofile → Option Nat
  cwd : Option Nat
  pending : BitVec 32
  signals : Fin numsig → Nat
  alarmEnd : BitVec 32

inductive Saved where
  | forkret
  | yield
  | sleep
  | wait
  | exit
deriving DecidableEq

inductive Mode where
  | go
  | sched (k : Saved)
  | saved (k : Saved)
deriving DecidableEq

inductive Pc (n : Nat) where
  /-- Whatever is not in `proc.c`. -/
  | run
  -- `fork`
  | forkStack (np : Fin n)
  | forkCopy (np : Fin n)
  | forkParent (np : Fin n)
  | forkFiles (np : Fin n)
  | forkSignals (np : Fin n)
  | forkReady (np : Fin n)
  /-- `exit`, when the files are closed. -/
  | exitLock
  /-- `sigsend`, when the loop has ended at `p`, or behind the last entry. -/
  | sigsend (pid : Int) (p : Option (Fin n)) (signum : Fin numsig)
deriving DecidableEq

inductive Cpu (n : Nat) where
  /-- Outside the loop over the table. -/
  | idle
  | scan (i : Nat)
  /-- `swtch` to the process. -/
  | chosen (p : Fin n)
  /-- The code of the process, on its kernel stack. -/
  | on (p : Fin n)
  /-- Behind `swtch`. -/
  | back (p : Fin n)
deriving DecidableEq

namespace Cpu

variable {n : Nat}

def proc : Cpu n → Option (Fin n)
  | chosen p | on p | back p => some p
  | _ => none

def stack : Cpu n → Option (Fin n)
  | on p => some p
  | _ => none

end Cpu

structure Reaped (n : Nat) where
  waiter : Fin n
  parent : Option (Fin n)
  pid : Int

structure Sys (C : Type) (n : Nat) where
  proc : Fin n → Proc n
  /-- An `int` of the source, here without overflow. -/
  nextpid : Int
  initproc : Fin n
  /-- The CPU that holds `ptable.lock`. -/
  lock : Option C
  cpu : C → Cpu n
  pc : Fin n → Pc n
  mode : Fin n → Mode
  /-- `pending` and `alarmEnd` of what would be the next entry behind the table. -/
  beyond : BitVec 32
  beyondEnd : BitVec 32
  /-- The pids of the processes that have exited, and what `wait` has returned. -/
  exits : List Int
  waits : List (Reaped n)

variable {C : Type} {n : Nat}

namespace Sys

@[simps] def setProc (s : Sys C n) (p : Fin n) (x : Proc n) : Sys C n := { s with proc := Function.update s.proc p x }

def setState (s : Sys C n) (p : Fin n) (x : ProcState) : Sys C n := s.setProc p { s.proc p with state := x }

@[simps] def goto (s : Sys C n) (p : Fin n) (x : Pc n) : Sys C n := { s with pc := Function.update s.pc p x }

@[simps] def setMode (s : Sys C n) (p : Fin n) (x : Mode) : Sys C n := { s with mode := Function.update s.mode p x }

def release (s : Sys C n) (p : Fin n) : Sys C n := { s.setMode p .go with lock := none }

variable [DecidableEq C]

@[simps] def setCpu (s : Sys C n) (c : C) (x : Cpu n) : Sys C n := { s with cpu := Function.update s.cpu c x }

end Sys

/-! ## `sleep` and `wakeup` -/

def wakeup1 (chan : Option (Chan n)) (s : Sys C n) : Sys C n :=
  { s with proc := fun p =>
      if (s.proc p).state = .sleeping ∧ (s.proc p).chan = chan then { s.proc p with state := .runnable } else s.proc p }

def sleep (c : C) (p : Fin n) (chan : Chan n) (k : Saved) (s : Sys C n) : Sys C n :=
  { (s.setProc p { s.proc p with chan := some chan, state := .sleeping }).setMode p (.sched k) with lock := some c }

def tidy (p : Fin n) (s : Sys C n) : Sys C n := s.setProc p { s.proc p with chan := none }

/-! ## `fork` -/

/-- The part of `allocproc` under the lock. -/
def allocproc (s : Sys C n) : Option (Fin n × Sys C n) :=
  match (List.finRange n).find? fun p => (s.proc p).state = .unused with
  | none => none
  | some np =>
    some (np, { s.setProc np { s.proc np with state := .embryo, pid := s.nextpid } with nextpid := s.nextpid + 1 })

def forkParent (p np : Fin n) (s : Sys C n) : Sys C n := s.setProc np { s.proc np with parent := some p }

/-- A file that the parent does not have is left as it is. -/
def forkFiles (p np : Fin n) (s : Sys C n) : Sys C n :=
  s.setProc np { s.proc np with
    ofile := fun fd => if (s.proc p).ofile fd = none then (s.proc np).ofile fd else (s.proc p).ofile fd
    cwd := (s.proc p).cwd }

def forkSignals (p np : Fin n) (s : Sys C n) : Sys C n :=
  s.setProc np { s.proc np with signals := (s.proc p).signals, pending := 0 }

/-! ## `exit` and `wait` -/

def exitFiles (p : Fin n) (s : Sys C n) : Sys C n := s.setProc p { s.proc p with ofile := fun _ => none, cwd := none }

def abandon (p q : Fin n) (s : Sys C n) : Sys C n :=
  if (s.proc q).parent = some p then
    let s := s.setProc q { s.proc q with parent := some s.initproc }
    if (s.proc q).state = .zombie then wakeup1 (some (.proc s.initproc)) s else s
  else s

def exitLocked (c : C) (p : Fin n) (s : Sys C n) : Sys C n :=
  let s := wakeup1 ((s.proc p).parent.map .proc) s
  let s := (List.finRange n).foldl (fun s q => abandon p q s) s
  { (s.setState p .zombie).setMode p (.sched .exit) with lock := some c, exits := s.exits ++ [(s.proc p).pid] }

def reap (p q : Fin n) (s : Sys C n) : Sys C n :=
  { (s.setProc q { s.proc q with
      kstack := false, pgdir := false, pid := 0, parent := none, killed := false, state := .unused }).release p with
    waits := s.waits ++ [⟨p, (s.proc q).parent, (s.proc q).pid⟩] }

def deadChild (p : Fin n) (s : Sys C n) : Option (Fin n) :=
  (List.finRange n).find? fun q => (s.proc q).parent = some p ∧ (s.proc q).state = .zombie

def waitLocked (c : C) (p : Fin n) (s : Sys C n) : Sys C n :=
  match deadChild p s with
  | some q => reap p q s
  | none =>
    if (∀ q, (s.proc q).parent ≠ some p) ∨ (s.proc p).killed then s.release p
    else sleep c p (.proc p) .wait s

/-! ## Signals -/

/-- The first entry with this pid, whatever its state. -/
def findPid (pid : Int) (s : Sys C n) : Option (Fin n) := (List.finRange n).find? fun p => (s.proc p).pid = pid

def kill (pid : Int) (s : Sys C n) : Sys C n :=
  match findPid pid s with
  | none => s
  | some p =>
    s.setProc p { s.proc p with
      killed := true
      state := if (s.proc p).state = .sleeping then .runnable else (s.proc p).state }

def light (target : Option (Fin n)) (signum : Fin numsig) (s : Sys C n) : Sys C n :=
  match target with
  | none =>
    { s with
      beyond := s.beyond ||| 1#32 <<< signum.val
      beyondEnd := if signum.val = 14 then 0 else s.beyondEnd }
  | some q =>
    s.setProc q { s.proc q with
      pending := (s.proc q).pending ||| 1#32 <<< signum.val
      alarmEnd := if signum.val = 14 then 0 else (s.proc q).alarmEnd }

/-! ## Steps -/

variable [DecidableEq C]

def schedule (c : C) (s : Sys C n) : Option (Sys C n) :=
  match s.cpu c with
  | .idle => if s.lock = none then some { s.setCpu c (.scan 0) with lock := some c } else none
  | .scan i =>
    if h : i < n then
      if (s.proc ⟨i, h⟩).state ≠ .runnable then some (s.setCpu c (.scan (i + 1)))
      -- `switchuvm` panics
      else if ¬(s.proc ⟨i, h⟩).kstack ∨ ¬(s.proc ⟨i, h⟩).pgdir then none
      else some ((s.setState ⟨i, h⟩ .running).setCpu c (.chosen ⟨i, h⟩))
    else some { s.setCpu c .idle with lock := none }
  | .chosen p => some (s.setCpu c (.on p))
  | .on _ => none
  | .back p => some (s.setCpu c (.scan (p.val + 1)))

def resume (c : C) (p : Fin n) (s : Sys C n) : Saved → Option (Sys C n)
  | .forkret => some (s.release p)
  | .yield => some (s.release p)
  | .sleep => some ((tidy p s).release p)
  | .wait => some (waitLocked c p (tidy p s))
  -- `panic("zombie exit")`
  | .exit => none

/-- The next statements of process `p` on CPU `c`. `ok` says whether there is memory. -/
def exec (c : C) (p : Fin n) (ok : Bool) (s : Sys C n) : Option (Sys C n) :=
  match s.pc p with
  | .run => none
  | .forkStack np =>
    some (if ok then
        (((s.setProc np { s.proc np with kstack := true }).setMode np (.saved .forkret)).goto np .run).goto p
          (.forkCopy np)
      else (s.setState np .unused).goto p .run)
  | .forkCopy np =>
    some (if ok then (s.setProc np { s.proc np with pgdir := true }).goto p (.forkParent np)
      else (s.setProc np { s.proc np with kstack := false, pgdir := false, state := .unused }).goto p .run)
  | .forkParent np => some ((forkParent p np s).goto p (.forkFiles np))
  | .forkFiles np => some ((forkFiles p np s).goto p (.forkSignals np))
  | .forkSignals np => some ((forkSignals p np s).goto p (.forkReady np))
  | .forkReady np => if s.lock = none then some ((s.setState np .runnable).goto p .run) else none
  | .exitLock => if s.lock = none then some (exitLocked c p s) else none
  | .sigsend _ target signum => some ((light target signum s).goto p .run)

/-- What other calls of a process may change in its own entry. -/
structure Own where
  ofile : Fin nofile → Option Nat
  cwd : Option Nat
  pending : BitVec 32
  signals : Fin numsig → Nat
  alarmEnd : BitVec 32

inductive Call where
  | fork
  | exit
  | wait
  | kill (pid : Int)
  | sigsend (pid signum : Int)
  /-- `sleep` outside of `wait`. -/
  | sleep (a : Nat)
  | own (x : Own)

def call (c : C) (p : Fin n) (s : Sys C n) : Call → Option (Sys C n)
  | .fork =>
    if s.lock = none then
      match allocproc s with
      | none => some s
      | some (np, s) => some (s.goto p (.forkStack np))
    else none
  -- `panic("init exiting")`
  | .exit => if p = s.initproc then none else some ((exitFiles p s).goto p .exitLock)
  | .wait => if s.lock = none then some (waitLocked c p s) else none
  | .kill pid => if s.lock = none then some (kill pid s) else none
  | .sigsend pid signum =>
    if h : 0 ≤ signum ∧ signum < numsig then
      if s.lock = none then some (s.goto p (.sigsend pid (findPid pid s) ⟨signum.toNat, by omega⟩)) else none
    else some s
  | .sleep a => if s.lock = none then some (sleep c p (.other a) .sleep s) else none
  | .own x =>
    some (s.setProc p { s.proc p with
      ofile := x.ofile, cwd := x.cwd, pending := x.pending, signals := x.signals, alarmEnd := x.alarmEnd })

def yield (c : C) (p : Fin n) (s : Sys C n) : Option (Sys C n) :=
  if s.lock = none then some { (s.setState p .runnable).setMode p (.sched .yield) with lock := some c } else none

inductive Act (C : Type) where
  | schedule (c : C)
  /-- The process on the CPU goes on. -/
  | exec (c : C) (ok : Bool)
  | call (c : C) (x : Call)
  | yield (c : C)
  | wakeup (c : C) (a : Nat)

def step (s : Sys C n) : Act C → Option (Sys C n)
  | .schedule c => schedule c s
  | .exec c ok =>
    match s.cpu c with
    | .on p =>
      match s.mode p with
      | .go => exec c p ok s
      | .sched k => some ((s.setMode p (.saved k)).setCpu c (.back p))
      | .saved k => resume c p s k
    | _ => none
  | .call c x =>
    match s.cpu c with
    | .on p => if s.mode p = .go ∧ s.pc p = .run then call c p s x else none
    | _ => none
  | .yield c =>
    match s.cpu c with
    | .on p => if s.mode p = .go then yield c p s else none
    | _ => none
  | .wakeup _ a => if s.lock = none then some (wakeup1 (some (.other a)) s) else none

structure Boot (s : Sys C n) : Prop where
  lock : s.lock = none
  cpu : ∀ c, s.cpu c = .idle
  init : s.proc s.initproc = { s.proc s.initproc with
    state := .runnable, pid := 1, parent := none, chan := none, killed := false, kstack := true, pgdir := true }
  mode : s.mode s.initproc = .saved .forkret
  nextpid : s.nextpid = 2
  rest : ∀ p, p ≠ s.initproc → s.proc p = { s.proc p with
    state := .unused, pid := 0, parent := none, chan := none, killed := false, ofile := fun _ => none, cwd := none }
  run : ∀ p, s.pc p = .run
  exits : s.exits = []
  waits : s.waits = []

def twoCpus : Sys (Fin 2) 4 where
  proc p :=
    { state := if p = 0 then .runnable else .unused, pid := if p = 0 then 1 else 0, parent := none, chan := none
      killed := false, kstack := p = 0, pgdir := p = 0, ofile := fun _ => none, cwd := none, pending := 0
      signals := fun _ => 0, alarmEnd := 0 }
  nextpid := 2
  initproc := 0
  lock := none
  cpu _ := .idle
  pc _ := .run
  mode _ := .saved .forkret
  beyond := 0
  beyondEnd := 0
  exits := []
  waits := []

theorem twoCpus_boot : Boot twoCpus where
  lock := rfl
  cpu _ := rfl
  init := rfl
  mode := rfl
  nextpid := rfl
  rest p hp := by
    have hp : p ≠ 0 := hp
    simp [twoCpus, hp]
  run _ := rfl
  exits := rfl
  waits := rfl

def initRuns : List (Act (Fin 2)) := [.schedule 1, .schedule 1, .schedule 1, .exec 1 true]

def initForks : List (Act (Fin 2)) := initRuns ++ .call 1 .fork :: List.replicate 6 (.exec 1 true)

def childRuns : List (Act (Fin 2)) := initForks ++ List.replicate 4 (.schedule 0) ++ [.exec 0 true]

end Xv6.Ptable
