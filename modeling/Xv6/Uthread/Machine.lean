import Xv6.Uthread.Spec

/-!
# The thread library, statement by statement

The threads of one process share its signal state. Between two statements the kernel may deliver `SIGALRM`, and
`uthread_schedule` runs on top. A thread's place in the code stands for its saved trap frame.
-/

open Function

namespace Xv6.Uthread

inductive Pc (n : Nat) where
  | idle
  -- `bsem_down`
  | downTest (x : Sem)
  | downDisable (x : Sem)
  | downLook (x : Sem)
  | downMark (x : Sem)
  | downBlock (x : Sem)
  | downYield (x : Sem)
  | downWait (x : Sem)
  | downTake (x : Sem)
  | downEnable (x : Sem)
  -- `bsem_up`
  | upTest (x : Sem)
  | upDisable (x : Sem)
  | upScan (x : Sem) (i : Nat)
  | upClear (x : Sem) (i : Fin n)
  | upReady (x : Sem) (i : Fin n)
  | upOpen (x : Sem)
  | upEnable (x : Sem)
  -- `bsem_alloc`
  | allocScan (i : Nat)
  | allocTake (x : Sem)
  | allocReturn (x : Sem)
  -- `uthread_sleep`
  | sleepTime (ticks : Word)
  | sleepState
  | sleepYield
  -- `uthread_join`
  | joinScan (tid : Nat) (i : Nat)
  | joinCheck (i : Fin n)
  | joinMark (i : Fin n)
  | joinBlock
  | joinYield
  | joinWait
  -- `uthread_exit`, with the loop of `getThreadCount`
  | exitCount (i : Nat) (threadCount : Nat)
  | exitScan (i : Nat)
  | exitClear (i : Fin n)
  | exitReady (i : Fin n)
  | exitState
  | exitYield
  | exitWait
deriving DecidableEq

/-- A completed `bsem_up`, with the data when it had disabled the scheduler and when it enabled it. -/
structure Up (n : Nat) where
  sem : Sem
  before : Lib n
  after : Lib n

structure Sys (n : Nat) where
  lib : Lib n
  /-- The index of the current thread. -/
  ct : Fin n
  pc : Fin n → Pc n
  /-- The index in the loop of `chooseNextThread`. -/
  sched : Option Nat
  /-- Handler activations that a thread has to return from before it goes on. It then goes on where it was. The source
  keeps less: an alarm in the tail of a handler saves the handler's own context in `ct->tf`, over the thread's. -/
  handlers : Fin n → Nat
  /-- Bit 14 of `pending`. -/
  pending : Bool
  alarmEnd : Word
  ticks : Word
  /-- The process has called `exit`. -/
  exited : Bool
  held : Fin n → Sem → Bool
  seen : Lib n
  ups : List (Up n)

variable {n : Nat}

namespace Sys

def goto (s : Sys n) (p : Pc n) : Sys n := { s with pc := update s.pc s.ct p }

theorem goto_pc_self (s : Sys n) (p : Pc n) : (s.goto p).pc s.ct = p := update_self _ _ _

theorem goto_pc_ne {s : Sys n} {t : Fin n} (h : t ≠ s.ct) (p : Pc n) : (s.goto p).pc t = s.pc t :=
  update_of_ne h _ _

def setThread (s : Sys n) (i : Fin n) (x : Thread) : Sys n := { s with lib := s.lib.setThread i x }

def setSem (s : Sys n) (x : Sem) (v : Int) : Sys n := { s with lib := s.lib.setSem x v }

def thread (s : Sys n) (i : Fin n) : Thread := s.lib.threadTable i

def self (s : Sys n) : Thread := s.thread s.ct

theorem goto_thread (s : Sys n) (p : Pc n) (t : Fin n) : (s.goto p).thread t = s.thread t := rfl

theorem setThread_thread_self (s : Sys n) (i : Fin n) (x : Thread) : (s.setThread i x).thread i = x :=
  update_self _ _ _

theorem setThread_thread_ne {s : Sys n} {i t : Fin n} (h : t ≠ i) (x : Thread) :
    (s.setThread i x).thread t = s.thread t :=
  update_of_ne h _ _

def returnDown (s : Sys n) (x : Sem) : Sys n :=
  { s.goto .idle with held := update s.held s.ct (update (s.held s.ct) x true) }

end Sys

/-! ## `proc.c` -/

def alarm (tickTime : Word) (s : Sys n) : Sys n :=
  if tickTime = 0 then { s with pending := false }
  else { s with pending := true, alarmEnd := s.ticks + tickTime }

theorem alarm_quanta (s : Sys n) :
    alarm uthreadQuanta s = { s with pending := true, alarmEnd := s.ticks + uthreadQuanta } :=
  if_neg (by decide)

def Sys.lit (s : Sys n) : Bool := s.pending && !s.ticks.ult s.alarmEnd

def deliver (s : Sys n) : Sys n :=
  let x := s.self
  { s.setThread s.ct { x with state := if x.state = .running then .ready else x.state } with
    pending := false, sched := some 1 }

/-- The signal is taken when the call returns, as `alarmEnd` is 0. -/
def sigsend (s : Sys n) : Sys n := deliver { s with pending := true, alarmEnd := 0 }

/-! ## `uthread.c` -/

def switchTo (c : Fin n) (s : Sys n) : Sys n :=
  alarm uthreadQuanta
    { s.setThread c { s.thread c with state := .running } with
      ct := c, sched := none, handlers := update s.handlers c (s.handlers c + 1) }

def Sys.currLoc (s : Sys n) (i : Nat) : Fin n :=
  ⟨(s.ct.val + i) % n, Nat.mod_lt _ (Nat.lt_of_le_of_lt (Nat.zero_le _) s.ct.isLt)⟩

def wakeUp (ticks : Word) (x : Thread) : Thread :=
  if x.state = .sleeping ∧ x.wakeUpTime.sle ticks then { x with state := .ready } else x

/-- One turn of the loop in `chooseNextThread`. -/
def chooseNextThread (i : Nat) (s : Sys n) : Sys n :=
  let c := s.currLoc i
  let s := s.setThread c (wakeUp s.ticks (s.thread c))
  if (s.thread c).state = .ready then switchTo c s
  else if i < n then { s with sched := some (i + 1) }
  else if s.self.state = .running then switchTo s.ct s
  else { s with sched := some 1 }

def exec (s : Sys n) : Option (Sys n) :=
  match s.pc s.ct with
  | .idle => none
  | .downTest x => some (if s.lib.semaphores x = -1 then s.returnDown x else s.goto (.downDisable x))
  | .downDisable x => some (alarm 0 (s.goto (.downLook x)))
  | .downLook x => some (s.goto (if s.lib.semaphores x = 0 then .downMark x else .downTake x))
  | .downMark x => some ((s.goto (.downBlock x)).setThread s.ct { s.self with blockedOnSemaphore := some x })
  | .downBlock x => some ((s.goto (.downYield x)).setThread s.ct { s.self with state := .blocked })
  | .downYield x => some (sigsend (s.goto (.downWait x)))
  | .downWait x => some (s.returnDown x)
  | .downTake x => some ((s.goto (.downEnable x)).setSem x 0)
  | .downEnable x => some (alarm uthreadQuanta (s.returnDown x))
  | .upTest x => some (s.goto (if s.lib.semaphores x = -1 then .idle else .upDisable x))
  | .upDisable x => some { alarm 0 (s.goto (.upScan x 0)) with seen := s.lib }
  | .upScan x i =>
    some (s.goto (if h : i < n then
        if (s.thread ⟨i, h⟩).blockedOnSemaphore = some x then .upClear x ⟨i, h⟩ else .upScan x (i + 1)
      else .upOpen x))
  | .upClear x i => some ((s.goto (.upReady x i)).setThread i { s.thread i with blockedOnSemaphore := none })
  | .upReady x i => some ((s.goto (.upEnable x)).setThread i { s.thread i with state := .ready })
  | .upOpen x => some ((s.goto (.upEnable x)).setSem x 1)
  | .upEnable x => some { alarm uthreadQuanta (s.goto .idle) with ups := s.ups ++ [⟨x, s.seen, s.lib⟩] }
  | .allocScan i =>
    some (s.goto (if h : i < maxBsem then if s.lib.semaphores ⟨i, h⟩ = -1 then .allocTake ⟨i, h⟩ else .allocScan (i + 1)
      else .idle))
  | .allocTake x => some ((s.goto (.allocReturn x)).setSem x 1)
  | .allocReturn _ => some (s.goto .idle)
  | .sleepTime ticks => some ((s.goto .sleepState).setThread s.ct { s.self with wakeUpTime := ticks + s.ticks })
  | .sleepState => some ((s.goto .sleepYield).setThread s.ct { s.self with state := .sleeping })
  | .sleepYield => some (sigsend (s.goto .idle))
  | .joinScan tid i =>
    some (s.goto (if h : i < n then if tid = (s.thread ⟨i, h⟩).tid then .joinCheck ⟨i, h⟩ else .joinScan tid (i + 1)
      else .idle))
  | .joinCheck i => some (s.goto (if (s.thread i).state = .terminated then .idle else .joinMark i))
  | .joinMark i => some ((s.goto .joinBlock).setThread s.ct { s.self with joinOnTid := some (s.thread i).tid })
  | .joinBlock => some ((s.goto .joinYield).setThread s.ct { s.self with state := .blocked })
  | .joinYield => some (sigsend (s.goto .joinWait))
  | .joinWait => some (s.goto .idle)
  | .exitCount i threadCount =>
    some (if h : i < n then
        s.goto (.exitCount (i + 1) (if (s.thread ⟨i, h⟩).state = .terminated then threadCount else threadCount + 1))
      else if threadCount = 1 then { s with exited := true }
      else s.goto (.exitScan 0))
  | .exitScan i =>
    some (s.goto (if h : i < n then
        if (s.thread ⟨i, h⟩).joinOnTid = some s.self.tid then .exitClear ⟨i, h⟩ else .exitScan (i + 1)
      else .exitState))
  | .exitClear i => some ((s.goto (.exitReady i)).setThread i { s.thread i with joinOnTid := none })
  | .exitReady i => some ((s.goto (.exitScan (i + 1))).setThread i { s.thread i with state := .ready })
  | .exitState => some ((s.goto .exitYield).setThread s.ct { s.self with state := .terminated })
  | .exitYield => some (sigsend (s.goto .exitWait))
  | .exitWait => none

inductive Call where
  | down (x : Sem)
  | up (x : Sem)
  | alloc
  | sleep (ticks : Word)
  | join (tid : Nat)
  | exit
deriving DecidableEq, Repr

def call (s : Sys n) : Call → Sys n
  | .down x => s.goto (.downTest x)
  | .up x => { s.goto (.upTest x) with held := update s.held s.ct (update (s.held s.ct) x false) }
  | .alloc => s.goto (.allocScan 0)
  | .sleep ticks => s.goto (.sleepTime ticks)
  | .join tid => s.goto (.joinScan tid 0)
  | .exit => s.goto (.exitCount 0 0)

inductive Act where
  /-- The current thread calls the library. -/
  | call (c : Call)
  /-- The current thread executes its next statement, or returns from a handler. -/
  | stmt
  /-- The kernel delivers the alarm. -/
  | preempt
  /-- The handler looks at the next entry. -/
  | scan
  | tick
deriving DecidableEq, Repr

/-! Parts of a schedule, for a machine whose actions hold those of the library. -/

def stmts {A : Type} (base : Act → A) (k : Nat) : List A := .replicate k (base .stmt)

/-- The alarm comes, and the next thread returns from its handler. -/
def switch {A : Type} (base : Act → A) : List A :=
  .replicate 5 (base .tick) ++ [.preempt, .scan, .stmt].map base

/-- The locals of a thread survive a handler here. `sigreturn` leaves 0 in `eax`, so a local that the compiler keeps
there does not: results that rest on one exclude an alarm while it is live. -/
def step (s : Sys n) (a : Act) : Option (Sys n) :=
  if s.exited then none
  else match a, s.sched with
    | .tick, _ => some { s with ticks := s.ticks + 1 }
    | .scan, some i => some (chooseNextThread i s)
    | .preempt, none => if s.lit then some (deliver s) else none
    | .call c, none => if s.pc s.ct = .idle ∧ s.handlers s.ct = 0 then some (call s c) else none
    | .stmt, none =>
      if s.handlers s.ct = 0 then exec s
      else some { s with handlers := update s.handlers s.ct (s.handlers s.ct - 1) }
    | _, _ => none

inductive Moves (s : Sys n) : Act → Sys n → Prop where
  | tick : Moves s .tick { s with ticks := s.ticks + 1 }
  | scan {i : Nat} (hsched : s.sched = some i) : Moves s .scan (chooseNextThread i s)
  | preempt (hsched : s.sched = none) (hpending : s.pending = true) : Moves s .preempt (deliver s)
  | call {c : Call} (hsched : s.sched = none) (hpc : s.pc s.ct = .idle) : Moves s (.call c) (call s c)
  | exec {u : Sys n} (hsched : s.sched = none) (hu : exec s = some u) (hexited : s.exited = false)
      (hhandlers : s.handlers s.ct = 0) : Moves s .stmt u
  | leave (hsched : s.sched = none) :
    Moves s .stmt { s with handlers := update s.handlers s.ct (s.handlers s.ct - 1) }

theorem step_moves {s u : Sys n} {a : Act} (h : step s a = some u) : Moves s a u := by
  unfold step at h
  split at h
  · cases h
  · rename_i hexited
    split at h
    case h_1 =>
      cases h
      exact .tick
    case h_2 i hsched =>
      cases h
      exact .scan hsched
    case h_3 hsched =>
      obtain ⟨hlit, ⟨⟩⟩ := Option.ite_none_right_eq_some.mp h
      simp only [Sys.lit, Bool.and_eq_true] at hlit
      exact .preempt hsched hlit.1
    case h_4 c hsched =>
      obtain ⟨⟨hpc, -⟩, ⟨⟩⟩ := Option.ite_none_right_eq_some.mp h
      exact .call hsched hpc
    case h_5 hsched =>
      split at h
      · exact .exec hsched h (Bool.eq_false_iff.mpr hexited) (by assumption)
      · cases h
        exact .leave hsched
    case h_6 => cases h

end Xv6.Uthread
