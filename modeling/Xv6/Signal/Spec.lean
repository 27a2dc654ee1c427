import Xv6.Lib.Bytes

/-!
# Signals and system call arguments

What `proc.c`, `syscall.c` and `umsigret.S` do with the trap frame and the memory of one process. The kernel records
each access through a user address.
-/

open Xv6.Bytes

namespace Xv6.Signal

abbrev Word := BitVec 32
abbrev Half := BitVec 16

/-! ## Constants -/

def kernbase : Nat := 0x80000000
def pgsize : Nat := 4096

def pgroundup (sz : Nat) : Nat := (sz + pgsize - 1) / pgsize * pgsize

def tSyscall : Word := 64

def sysExec : Word := 7
def sysSignalNum : Word := 22
def sysSigreturnNum : Word := 24
def sysAlarmNum : Word := 25

def nelemSyscalls : Nat := 26

def segUcode : Nat := 4
def segUdata : Nat := 5
def dplUser : Nat := 3

def flIf : Word := 0x200
def flIoplMask : Word := 0x3000

def sigalrm : Fin 32 := 14

/-! ## The trap frame -/

structure Trapframe where
  edi : Word
  esi : Word
  ebp : Word
  oesp : Word
  ebx : Word
  edx : Word
  ecx : Word
  eax : Word
  gs : Half
  padding1 : Half
  fs : Half
  padding2 : Half
  es : Half
  padding3 : Half
  ds : Half
  padding4 : Half
  trapno : Word
  err : Word
  eip : Word
  cs : Half
  padding5 : Half
  eflags : Word
  esp : Word
  ss : Half
  padding6 : Half
deriving DecidableEq, Repr

def Trapframe.withEax (tf : Trapframe) (v : Word) : Trapframe := { tf with eax := v }
def Trapframe.withEip (tf : Trapframe) (v : Word) : Trapframe := { tf with eip := v }
def Trapframe.withEsp (tf : Trapframe) (v : Word) : Trapframe := { tf with esp := v }

def Trapframe.lowFields (tf : Trapframe) : List (Nat × Nat) :=
  [(4, tf.edi.toNat), (4, tf.esi.toNat), (4, tf.ebp.toNat), (4, tf.oesp.toNat), (4, tf.ebx.toNat),
    (4, tf.edx.toNat), (4, tf.ecx.toNat), (4, tf.eax.toNat), (2, tf.gs.toNat), (2, tf.padding1.toNat),
    (2, tf.fs.toNat), (2, tf.padding2.toNat), (2, tf.es.toNat), (2, tf.padding3.toNat),
    (2, tf.ds.toNat), (2, tf.padding4.toNat), (4, tf.trapno.toNat), (4, tf.err.toNat),
    (4, tf.eip.toNat), (2, tf.cs.toNat), (2, tf.padding5.toNat), (4, tf.eflags.toNat)]

def Trapframe.highFields (tf : Trapframe) : List (Nat × Nat) :=
  [(2, tf.ss.toNat), (2, tf.padding6.toNat)]

def Trapframe.fields (tf : Trapframe) : List (Nat × Nat) :=
  tf.lowFields ++ [(4, tf.esp.toNat)] ++ tf.highFields

def Trapframe.bytes (tf : Trapframe) : List Byte := packFields tf.fields

def trapframeWidths : List Nat :=
  [4, 4, 4, 4, 4, 4, 4, 4, 2, 2, 2, 2, 2, 2, 2, 2, 4, 4, 4, 2, 2, 4, 4, 2, 2]

def trapframeSize : Nat := 76

def espOffset : Nat := 68

def Trapframe.ofFields (v : List Nat) : Trapframe where
  edi := BitVec.ofNat 32 (v.getD 0 0)
  esi := BitVec.ofNat 32 (v.getD 1 0)
  ebp := BitVec.ofNat 32 (v.getD 2 0)
  oesp := BitVec.ofNat 32 (v.getD 3 0)
  ebx := BitVec.ofNat 32 (v.getD 4 0)
  edx := BitVec.ofNat 32 (v.getD 5 0)
  ecx := BitVec.ofNat 32 (v.getD 6 0)
  eax := BitVec.ofNat 32 (v.getD 7 0)
  gs := BitVec.ofNat 16 (v.getD 8 0)
  padding1 := BitVec.ofNat 16 (v.getD 9 0)
  fs := BitVec.ofNat 16 (v.getD 10 0)
  padding2 := BitVec.ofNat 16 (v.getD 11 0)
  es := BitVec.ofNat 16 (v.getD 12 0)
  padding3 := BitVec.ofNat 16 (v.getD 13 0)
  ds := BitVec.ofNat 16 (v.getD 14 0)
  padding4 := BitVec.ofNat 16 (v.getD 15 0)
  trapno := BitVec.ofNat 32 (v.getD 16 0)
  err := BitVec.ofNat 32 (v.getD 17 0)
  eip := BitVec.ofNat 32 (v.getD 18 0)
  cs := BitVec.ofNat 16 (v.getD 19 0)
  padding5 := BitVec.ofNat 16 (v.getD 20 0)
  eflags := BitVec.ofNat 32 (v.getD 21 0)
  esp := BitVec.ofNat 32 (v.getD 22 0)
  ss := BitVec.ofNat 16 (v.getD 23 0)
  padding6 := BitVec.ofNat 16 (v.getD 24 0)

def Trapframe.ofBytes (bs : List Byte) : Trapframe := .ofFields (unpackFields trapframeWidths bs)

/-! ## The process -/

/-- The part of `struct proc` that is used here, and the user memory. -/
structure Proc where
  sz : Word
  killed : Bool
  tf : Trapframe
  pending : Word
  signals : Fin 32 → Word
  alarmEnd : Word
  mem : Word → Byte
  sz_lt : sz.toNat < kernbase

structure Access where
  addr : Word
  size : Nat
deriving DecidableEq, Repr

structure State where
  proc : Proc
  ticks : Word
  accesses : List Access

/-- The page is not there, or the address lies in the kernel's own memory. -/
inductive Fault where
  | trap
  | kernelMemory
deriving DecidableEq, Repr

/-! ## Kernel code -/

/-- Kernel code that runs for the process. A fault keeps the state it happened in. -/
def Kernel (α : Type) : Type := State → Except Fault α × State

def Kernel.andThen {α β : Type} (m : Kernel α) (f : α → Kernel β) : Kernel β := fun s =>
  match m s with
  | (.ok a, t) => f a t
  | (.error e, t) => (.error e, t)

instance : Monad Kernel where
  pure a := fun s => (.ok a, s)
  bind := Kernel.andThen

def getState : Kernel State := fun s => (.ok s, s)

def modifyProc (f : Proc → Proc) : Kernel Unit := fun s => (.ok (), { s with proc := f s.proc })

def modifyTf (f : Trapframe → Trapframe) : Kernel Unit := modifyProc fun p => { p with tf := f p.tf }

/-- All pages below `sz` are there, up to the end of the last one. -/
def present (p : Proc) (a : Word) : Bool := a.toNat < pgroundup p.sz.toNat

def firstFault (p : Proc) (a : Word) : Nat → Option Fault
  | 0 => none
  | n + 1 =>
    if present p a then firstFault p (a + 1) n
    else some (if kernbase ≤ a.toNat then .kernelMemory else .trap)

def touch (a : Word) (n : Nat) : Kernel Unit := fun s =>
  let t := { s with accesses := s.accesses ++ [⟨a, n⟩] }
  match firstFault s.proc a n with
  | some e => (.error e, t)
  | none => (.ok (), t)

def load (a : Word) (n : Nat) : Kernel (List Byte) := do
  touch a n
  return readBytes (← getState).proc.mem a n

def store (a : Word) (bs : List Byte) : Kernel Unit := do
  touch a bs.length
  modifyProc fun p => { p with mem := writeBytes p.mem a bs }

/-! ## `syscall.c`: arguments -/

/-- `none` is the return value -1. -/
def fetchint (addr : Word) : Kernel (Option Word) := do
  let p := (← getState).proc
  if p.sz ≤ addr ∨ p.sz < addr + 4 then return none
  else return some (BitVec.ofNat 32 (ofLe (← load addr 4)))

def fetchstrLoop : Nat → Word → Nat → Kernel (Option Nat)
  | 0, _, _ => return none
  | n + 1, s, len => do
    if (← load s 1) = [0] then return some len
    else fetchstrLoop n (s + 1) (len + 1)

def fetchstr (addr : Word) : Kernel (Option Nat) := do
  let p := (← getState).proc
  if p.sz ≤ addr then return none
  else fetchstrLoop (p.sz.toNat - addr.toNat) addr 0

def argint (n : Word) : Kernel (Option Word) := do
  fetchint ((← getState).proc.tf.esp + 4 + 4 * n)

/-- The caller reads or writes the block, so it counts as touched. -/
def argptr (n size : Word) : Kernel (Option Word) := do
  match ← argint n with
  | none => return none
  | some i =>
    let p := (← getState).proc
    if size.slt 0 ∨ p.sz ≤ i ∨ p.sz < i + size then return none
    else
      touch i size.toNat
      return some i

def argstr (n : Word) : Kernel (Option Nat) := do
  match ← argint n with
  | none => return none
  | some addr => fetchstr addr

/-! ## `proc.c`: signals -/

def lit (p : Proc) (ticks : Word) (i : Fin 32) : Bool :=
  p.pending.getLsbD i && !(i == sigalrm && ticks < p.alarmEnd)

def nextSignal (p : Proc) (ticks : Word) : Option (Fin 32) := (List.finRange 32).find? (lit p ticks)

def getLitSignal : Kernel (Option (Fin 32)) := do
  let s ← getState
  match nextSignal s.proc s.ticks with
  | none => return none
  | some i =>
    modifyProc fun p => { p with pending := p.pending &&& ~~~ (1#32 <<< i.val) }
    return some i

/-- `umsigret.S`: `movl $SYS_sigreturn, %eax; int $T_SYSCALL; ret`. -/
def sigreturnCode : List Byte := [0xB8, 0x18, 0x00, 0x00, 0x00, 0xCD, 0x40, 0xC3]

def pushHandler (litSignal : Fin 32) (handler : Word) : Kernel Unit := do
  let origESP := (← getState).proc.tf.esp
  let funcSize := sigreturnCode.length
  modifyTf fun tf => tf.withEsp (tf.esp - BitVec.ofNat 32 funcSize)
  store (← getState).proc.tf.esp sigreturnCode
  let funcAddr := (← getState).proc.tf.esp
  modifyTf fun tf => tf.withEsp (tf.esp - BitVec.ofNat 32 trapframeSize)
  store (← getState).proc.tf.esp (← getState).proc.tf.bytes
  store ((← getState).proc.tf.esp + BitVec.ofNat 32 espOffset) (toLe 4 origESP.toNat)
  modifyTf fun tf => tf.withEsp (tf.esp - 4)
  store (← getState).proc.tf.esp (toLe 4 litSignal)
  modifyTf fun tf => tf.withEsp (tf.esp - 4)
  store (← getState).proc.tf.esp (toLe 4 funcAddr.toNat)
  modifyTf fun tf => tf.withEip handler

/-- The default handler only prints. Its address is known when the kernel is linked. -/
def handleSignal (defaultHandler : Word) : Kernel Unit := do
  if (← getState).proc.tf.cs &&& 3 = 0 then return ()
  else
    match ← getLitSignal with
    | none => return ()
    | some litSignal =>
      let handler := (← getState).proc.signals litSignal
      if handler = defaultHandler then return ()
      else pushHandler litSignal handler

def sigreturn : Kernel Word := do
  modifyTf fun tf => tf.withEsp (tf.esp + 4)
  let bs ← load (← getState).proc.tf.esp trapframeSize
  modifyTf fun _ => .ofBytes bs
  return 0

def signal (signum handler : Word) : Kernel Word := do
  if signum.slt 0 ∨ (31#32).slt signum then return -1
  else
    let i := Fin.ofNat 32 signum.toNat
    let oldHandler := (← getState).proc.signals i
    modifyProc fun p => { p with signals := Function.update p.signals i handler }
    return oldHandler

def alarm (tickTime : Word) : Kernel Word := do
  let sigBit := 1#32 <<< 14
  if tickTime = 0 then
    modifyProc fun p => { p with pending := p.pending &&& ~~~ sigBit }
    return 0
  else
    let ticks := (← getState).ticks
    modifyProc fun p => { p with pending := p.pending ||| sigBit, alarmEnd := ticks + tickTime }
    return 0

def sysSignal : Kernel Word := do
  match ← argint 0 with
  | none => return -1
  | some signum =>
    match ← argint 1 with
    | none => return -1
    | some handle => signal signum handle

def sysAlarm : Kernel Word := do
  match ← argint 0 with
  | none => return -1
  | some tickTime => alarm tickTime

/-! ## User code -/

structure Context where
  edi : Word
  esi : Word
  ebp : Word
  ebx : Word
  edx : Word
  ecx : Word
  eax : Word
  eip : Word
  esp : Word
  eflags : Word
  cs : Half
  ds : Half
  es : Half
  fs : Half
  gs : Half
  ss : Half
deriving DecidableEq, Repr

def Trapframe.context (tf : Trapframe) : Context :=
  { edi := tf.edi, esi := tf.esi, ebp := tf.ebp, ebx := tf.ebx, edx := tf.edx, ecx := tf.ecx,
    eax := tf.eax, eip := tf.eip, esp := tf.esp, eflags := tf.eflags, cs := tf.cs, ds := tf.ds,
    es := tf.es, fs := tf.fs, gs := tf.gs, ss := tf.ss }

inductive UserStep where
  | next (tf : Trapframe)
  | int (tf : Trapframe)
deriving DecidableEq

/-- One instruction of the trampoline: `movl $imm, %eax`, `int $imm` or `ret`. -/
def userStep (m : Word → Byte) (tf : Trapframe) : Option UserStep :=
  if m tf.eip = 0xB8 then
    some (.next ((tf.withEax (BitVec.ofNat 32 (getLe m (tf.eip + 1) 4))).withEip (tf.eip + 5)))
  else if m tf.eip = 0xCD then
    some (.int { tf with trapno := (m (tf.eip + 1)).setWidth 32, err := 0, eip := tf.eip + 2 })
  else if m tf.eip = 0xC3 then
    some (.next ((tf.withEip (BitVec.ofNat 32 (getLe m tf.esp 4))).withEsp (tf.esp + 4)))
  else none

def userRun (m : Word → Byte) : Nat → Trapframe → Option Trapframe
  | 0, _ => none
  | n + 1, tf =>
    match userStep m tf with
    | some (.next tf) => userRun m n tf
    | some (.int tf) => some tf
    | none => none

/-! ## `syscall.c`: the system call -/

/-- The other system calls. Of the trap frame `exec` alone writes anything. -/
structure Calls where
  other : Word → Proc → Word × Proc
  /-- Entry point, stack pointer and new image, or `none` when it fails. -/
  exec : Proc → Option (Word × Word × Proc)

def Calls.call (calls : Calls) (num : Word) : Kernel Word := fun s =>
  let (r, p) := calls.other num s.proc
  (.ok r, { s with proc := { p with tf := s.proc.tf } })

def Calls.callExec (calls : Calls) : Kernel Word := fun s =>
  match calls.exec s.proc with
  | none => (.ok (-1), s)
  | some (entry, sp, p) => (.ok 0, { s with proc := { p with tf := (s.proc.tf.withEip entry).withEsp sp } })

def sysCall (calls : Calls) (num : Word) : Kernel Word :=
  if num = sysSigreturnNum then sigreturn
  else if num = sysSignalNum then sysSignal
  else if num = sysAlarmNum then sysAlarm
  else if num = sysExec then calls.callExec
  else calls.call num

def syscall (calls : Calls) : Kernel Unit := do
  let num := (← getState).proc.tf.eax
  if (0#32).slt num ∧ num.toNat < nelemSyscalls then
    let r ← sysCall calls num
    modifyTf fun tf => tf.withEax r
  else modifyTf fun tf => tf.withEax (-1)

def trampoline (calls : Calls) (s : State) : Option State :=
  match userRun s.proc.mem sigreturnCode.length s.proc.tf with
  | none => none
  | some tf =>
    if tf.trapno = tSyscall then
      match syscall calls { s with proc := { s.proc with tf := tf } } with
      | (.ok (), t) => some t
      | (.error _, _) => none
    else none

end Xv6.Signal
