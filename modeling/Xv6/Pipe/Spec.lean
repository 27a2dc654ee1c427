import Xv6.Lib.Bytes
import Xv6.Lib.Ring
import Xv6.Lib.Run

/-!
# Pipes

`pipewrite` and `piperead` of `pipe.c`, for any number of processes. A process that holds `p->lock` goes on until it
returns or sleeps. A step is one turn of a loop.
-/

open Function Xv6.Bytes

namespace Xv6.Pipe

abbrev pipesize : Nat := 512

inductive Pc where
  /-- In neither function. -/
  | idle
  /-- `acquire(&p->lock)`, at the start or when `sleep` returns. -/
  | writeLock (addr : List Byte) (n : Int) (i : Nat)
  /-- The `for` loop of `pipewrite`. -/
  | write (addr : List Byte) (n : Int) (i : Nat)
  | writeSleep (addr : List Byte) (n : Int) (i : Nat)
  | readLock (n : Int)
  /-- The `while` loop of `piperead`. -/
  | read (n : Int)
  | readSleep (n : Int)
  /-- The `for` loop of `piperead`, with the bytes that it has copied. -/
  | copy (n : Int) (bytes : List Byte)
deriving DecidableEq

namespace Pc

def wakeReader : Pc → Pc
  | readSleep n => readLock n
  | pc => pc

def wakeWriter : Pc → Pc
  | writeSleep addr n i => writeLock addr n i
  | pc => pc

end Pc

structure Sys (P : Type) where
  /-- `data`, `nread` and `nwrite`. -/
  ring : Ring pipesize 32 Byte
  readopen : Bool
  writeopen : Bool
  /-- The process that holds `p->lock`. -/
  lock : Option P
  pc : P → Pc
  killed : P → Bool
  /-- What the last call of a process has returned. -/
  ret : P → Int
  /-- All that has been stored and all that has been returned, in order. -/
  stored : List Byte
  returned : List Byte

variable {P : Type} [DecidableEq P]

namespace Sys

def goto (s : Sys P) (p : P) (pc : Pc) : Sys P := { s with pc := update s.pc p pc }

theorem goto_pc_self (s : Sys P) (p : P) (pc : Pc) : (s.goto p pc).pc p = pc := update_self ..

theorem goto_pc_ne (s : Sys P) {p r : P} (h : r ≠ p) (pc : Pc) : (s.goto p pc).pc r = s.pc r := update_of_ne h ..

def sleep (s : Sys P) (p : P) (pc : Pc) : Sys P := { s.goto p pc with lock := none }

def leave (s : Sys P) (p : P) (r : Int) : Sys P :=
  { s.goto p .idle with lock := none, ret := update s.ret p r }

def wakeReaders (s : Sys P) : Sys P := { s with pc := fun p => (s.pc p).wakeReader }

def wakeWriters (s : Sys P) : Sys P := { s with pc := fun p => (s.pc p).wakeWriter }

end Sys

def pipewrite (s : Sys P) (p : P) (addr : List Byte) (n : Int) (i : Nat) : Sys P :=
  if i < n then
    if s.ring.nwrite = s.ring.nread + BitVec.ofNat 32 pipesize then
      if ¬s.readopen ∨ s.killed p then s.leave p (-1)
      else s.wakeReaders.sleep p (.writeSleep addr n i)
    else
      { s.goto p (.write addr n (i + 1)) with
        ring := s.ring.store (addr.getD i 0)
        stored := s.stored ++ [addr.getD i 0] }
  else s.wakeReaders.leave p n

def pipereadWait (s : Sys P) (p : P) (n : Int) : Sys P :=
  if s.ring.nread = s.ring.nwrite ∧ s.writeopen then
    if s.killed p then s.leave p (-1) else s.sleep p (.readSleep n)
  else s.goto p (.copy n [])

def pipereadCopy (s : Sys P) (p : P) (n : Int) (bytes : List Byte) : Sys P :=
  if bytes.length < n ∧ s.ring.nread ≠ s.ring.nwrite then
    { s.goto p (.copy n (bytes ++ [s.ring.next])) with ring := s.ring.take }
  else { s.wakeWriters.leave p bytes.length with returned := s.returned ++ bytes }

def pipeclose (s : Sys P) (writable : Bool) : Sys P :=
  if writable then { s.wakeReaders with writeopen := false } else { s.wakeWriters with readopen := false }

def exec (s : Sys P) (p : P) : Option (Sys P) :=
  match s.pc p with
  | .idle | .writeSleep _ _ _ | .readSleep _ => none
  | .writeLock addr n i => if s.lock = none then some { s.goto p (.write addr n i) with lock := some p } else none
  | .readLock n => if s.lock = none then some { s.goto p (.read n) with lock := some p } else none
  | .write addr n i => some (pipewrite s p addr n i)
  | .read n => some (pipereadWait s p n)
  | .copy n bytes => some (pipereadCopy s p n bytes)

inductive Act (P : Type) where
  | write (p : P) (addr : List Byte) (n : Int)
  | read (p : P) (n : Int)
  | exec (p : P)
  | kill (p : P)
  /-- The last file of an end is closed. -/
  | close (writable : Bool)

def step (s : Sys P) : Act P → Option (Sys P)
  | .write p addr n => if s.pc p = .idle ∧ s.writeopen then some (s.goto p (.writeLock addr n 0)) else none
  | .read p n => if s.pc p = .idle ∧ s.readopen then some (s.goto p (.readLock n)) else none
  | .exec p => exec s p
  | .kill p =>
    some { s.goto p (s.pc p).wakeReader.wakeWriter with killed := update s.killed p true }
  | .close writable => if s.lock = none then some (pipeclose s writable) else none

/-- The pipe that `pipealloc` makes. Its page holds whatever `kalloc` gives. -/
structure Fresh (s : Sys P) : Prop where
  nread : s.ring.nread = 0
  nwrite : s.ring.nwrite = 0
  lock : s.lock = none
  idle : ∀ p, s.pc p = .idle
  stored : s.stored = []
  returned : s.returned = []

end Xv6.Pipe
