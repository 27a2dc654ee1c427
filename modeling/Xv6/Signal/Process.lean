import Xv6.Lib.Run
import Xv6.Signal.Frame

/-!
# The life of a process

User code runs until it enters the kernel, `trap` serves the entry, and `trapret` returns to user
code through `handleSignal`.
-/

open Xv6.Bytes

namespace Xv6.Signal

/-! ## `trap.c` -/

def irqTimer : Word := 32

/-- The other interrupts that `trap` knows: IDE, IDE + 1, KBD, COM1, 7 and SPURIOUS. -/
def irqDevices : List Word := [46, 47, 33, 36, 39, 63]

inductive Event where
  | signalled (signum : Fin 32)
  | killed
  | ticked
deriving DecidableEq, Repr

def sigsend (signum : Fin 32) (p : Proc) : Proc :=
  { p with
    pending := p.pending ||| 1#32 <<< signum.val
    alarmEnd := if signum = sigalrm then 0 else p.alarmEnd }

def Event.apply (s : State) : Event → State
  | .signalled signum => { s with proc := sigsend signum s.proc }
  | .killed => { s with proc := { s.proc with killed := true } }
  | .ticked => { s with ticks := s.ticks + 1 }

def happen (events : List Event) : Kernel Unit := fun s => (.ok (), events.foldl Event.apply s)

def panicTrap : Kernel Unit := fun s => (.error .trap, s)

inductive Outcome where
  | back
  | exited
deriving DecidableEq, Repr

def exitIf (c : Bool) : Kernel Outcome := if c then return .exited else return .back

def serveInterrupt (tf : Trapframe) (cpunum : Nat) : Kernel Unit :=
  if tf.trapno = irqTimer then happen (if cpunum = 0 then [.ticked] else [])
  else if tf.trapno ∈ irqDevices then pure ()
  else if tf.cs &&& 3 = 0 then panicTrap
  else modifyProc fun p => { p with killed := true }

/-- The events come in while a system call sleeps, or after `yield`. -/
def trap (calls : Calls) (cpunum : Nat) (events : List Event) : Kernel Outcome := do
  let s ← getState
  if s.proc.tf.trapno = tSyscall then
    if s.proc.killed then return .exited
    else
      syscall calls
      happen events
      exitIf (← getState).proc.killed
  else
    serveInterrupt s.proc.tf cpunum
    if (← getState).proc.killed && s.proc.tf.cs &&& 3 == 3 then return .exited
    else
      happen events
      exitIf ((← getState).proc.killed && s.proc.tf.cs &&& 3 == 3)

/-! ## `proc.c`: new processes -/

def userSelector (seg : Nat) : Half := BitVec.ofNat 16 (seg <<< 3 ||| dplUser)

/-- The first process. `initcode` is its memory. -/
def userinit (defaultHandler : Word) (initcode : Word → Byte) : Proc where
  sz := 4096
  killed := false
  tf := { Trapframe.ofFields [] with
    cs := userSelector segUcode
    ds := userSelector segUdata
    es := userSelector segUdata
    ss := userSelector segUdata
    eflags := flIf
    esp := 4096
    eip := 0 }
  pending := 0
  signals := fun _ => defaultHandler
  alarmEnd := 0
  mem := initcode
  sz_lt := by decide

/-- The child. Nothing sets its `alarmEnd`. -/
def fork (alarmEnd : Word) (p : Proc) : Proc :=
  { p with tf := p.tf.withEax 0, killed := false, pending := 0, alarmEnd := alarmEnd }

def sysFork : Word := 1

/-! ## The machine -/

structure KeepsMode (a b : Trapframe) : Prop where
  cs : b.cs = a.cs
  ds : b.ds = a.ds
  es : b.es = a.es
  ss : b.ss = a.ss
  eflags : b.eflags &&& (flIf ||| flIoplMask) = a.eflags &&& (flIf ||| flIoplMask)

instance (a b : Trapframe) : Decidable (KeepsMode a b) :=
  decidable_of_iff (b.cs = a.cs ∧ b.ds = a.ds ∧ b.es = a.es ∧ b.ss = a.ss ∧
      b.eflags &&& (flIf ||| flIoplMask) = a.eflags &&& (flIf ||| flIoplMask))
    ⟨fun ⟨h1, h2, h3, h4, h5⟩ => ⟨h1, h2, h3, h4, h5⟩, fun ⟨h1, h2, h3, h4, h5⟩ => ⟨h1, h2, h3, h4, h5⟩⟩

structure Entry where
  tf : Trapframe
  mem : Word → Byte

inductive Act where
  /-- The kernel serves the entry. -/
  | trap (e : Entry) (calls : Calls) (cpunum : Nat) (events : List Event)
  /-- The entry is a call of `fork`, and from here on we follow the child. -/
  | fork (e : Entry) (alarmEnd : Word)
  | event (e : Event)

def State.entered (s : State) (e : Entry) : State := { s with proc := { s.proc with tf := e.tf, mem := e.mem } }

def alltraps (defaultHandler : Word) (calls : Calls) (cpunum : Nat) (events : List Event) : Kernel Outcome := do
  match ← trap calls cpunum events with
  | .exited => return .exited
  | .back =>
    handleSignal defaultHandler
    return .back

/-- There is no next state when the process exits, or when the kernel faults. -/
def step (defaultHandler : Word) (s : State) : Act → Option State
  | .trap e calls cpunum events =>
    if KeepsMode s.proc.tf e.tf then
      match alltraps defaultHandler calls cpunum events (s.entered e) with
      | (.ok .back, t) => some t
      | _ => none
    else none
  | .fork e alarmEnd =>
    if KeepsMode s.proc.tf e.tf ∧ e.tf.trapno = tSyscall ∧ e.tf.eax = sysFork ∧ !s.proc.killed then
      match handleSignal defaultHandler { s with proc := fork alarmEnd (s.entered e).proc } with
      | (.ok (), t) => some t
      | _ => none
    else none
  | .event e => some (e.apply s)

end Xv6.Signal
