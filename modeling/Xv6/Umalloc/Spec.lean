import Mathlib.Logic.Function.Basic
import Xv6.Lib.Run

/-!
# The user heap

`malloc` and `free` of `umalloc.c`, one C statement a step, for any number of user threads. Threads that interfere can
make a size wrap around, so addresses and sizes are words.
-/

open Function

namespace Xv6.Umalloc

def kernbase : Nat := 0x80000000

def word (x : Nat) : Nat := x % 2 ^ 32

def nunits (nbytes : Nat) : Nat := word (nbytes + 8 - 1) / 8 + 1

structure Block where
  addr : Nat
  nbytes : Nat
deriving DecidableEq

structure Heap where
  /-- `s.ptr` and `s.size` of the header at an address. -/
  ptr : Nat → Nat
  size : Nat → Nat
  freep : Nat
  /-- The end of the process's memory. -/
  brk : Nat
  /-- The blocks that `malloc` has returned and `free` has not got back. -/
  live : List Block

inductive Caller where
  | user
  | morecore (nbytes : Nat)
  /-- `uthread_exit`, which frees the stack it runs on. -/
  | exit (stack : Block)
deriving DecidableEq

inductive Pc where
  /-- Outside of both functions. -/
  | idle
  /-- `uthread_exit` behind its `free`, still on the stack that is free now. -/
  | leaving (stack : Block)
  -- `malloc`
  | enter (nbytes : Nat)
  | initPtr (nbytes : Nat)
  | initSize (nbytes : Nat)
  | first (nbytes prevp : Nat)
  | fits (nbytes prevp p : Nat)
  | exact (nbytes prevp p : Nat)
  | unlink (nbytes prevp p : Nat)
  | shrink (nbytes prevp p : Nat)
  | tail (nbytes prevp p : Nat)
  | setSize (nbytes prevp p : Nat)
  | setFreep (nbytes prevp p : Nat)
  | ret (nbytes p : Nat)
  | around (nbytes p : Nat)
  | next (nbytes p : Nat)
  -- `morecore`
  | sbrk (nbytes : Nat)
  | coreSize (nbytes hp nu : Nat)
  | core (nbytes : Nat)
  -- `free`
  | start (bp : Nat) (k : Caller)
  | between (bp p : Nat) (k : Caller)
  | wrap (bp p : Nat) (k : Caller)
  | advance (bp p : Nat) (k : Caller)
  | upper (bp p : Nat) (k : Caller)
  | upperSize (bp p : Nat) (k : Caller)
  | upperPtr (bp p : Nat) (k : Caller)
  | upperLink (bp p : Nat) (k : Caller)
  | lower (bp p : Nat) (k : Caller)
  | lowerSize (bp p : Nat) (k : Caller)
  | lowerPtr (bp p : Nat) (k : Caller)
  | lowerLink (bp p : Nat) (k : Caller)
  | done (p : Nat) (k : Caller)
deriving DecidableEq

namespace Heap

def setPtr (h : Heap) (a x : Nat) : Heap := { h with ptr := update h.ptr a x }

def setSize (h : Heap) (a x : Nat) : Heap := { h with size := update h.size a x }

end Heap

def Caller.back : Caller → Pc
  | user => .idle
  | morecore nbytes => .core nbytes
  | exit stack => .leaving stack

/-- `base` is the address of the static header, and `ok` says whether `sbrk` has memory. -/
def exec (base : Nat) (h : Heap) (ok : Bool) : Pc → Option (Heap × Pc)
  | .idle | .leaving _ => none
  | .enter n => some (h, if h.freep = 0 then .initPtr n else .first n h.freep)
  | .initPtr n => some ({ h.setPtr base base with freep := base }, .initSize n)
  | .initSize n => some (h.setSize base 0, .first n base)
  | .first n prevp => some (h, .fits n prevp (h.ptr prevp))
  | .fits n prevp p => some (h, if nunits n ≤ h.size p then .exact n prevp p else .around n p)
  | .exact n prevp p => some (h, if h.size p = nunits n then .unlink n prevp p else .shrink n prevp p)
  | .unlink n prevp p => some (h.setPtr prevp (h.ptr p), .setFreep n prevp p)
  | .shrink n prevp p => some (h.setSize p (word (h.size p + 2 ^ 32 - nunits n)), .tail n prevp p)
  | .tail n prevp p => some (h, .setSize n prevp (word (p + 8 * h.size p)))
  | .setSize n prevp p => some (h.setSize p (nunits n), .setFreep n prevp p)
  | .setFreep n prevp p => some ({ h with freep := prevp }, .ret n p)
  | .ret n p => some ({ h with live := ⟨p, n⟩ :: h.live }, .idle)
  | .around n p => some (h, if p = h.freep then .sbrk n else .next n p)
  | .next n p => some (h, .fits n p (h.ptr p))
  -- a request that fails returns 0
  | .sbrk n =>
    let nu := max (nunits n) 4096
    some (if ok ∧ h.brk + 8 * nu < kernbase then ({ h with brk := h.brk + 8 * nu }, .coreSize n h.brk nu)
      else (h, .idle))
  | .coreSize n hp nu => some (h.setSize hp nu, .start hp (.morecore n))
  | .core n => some (h, if h.freep = 0 then .idle else .next n h.freep)
  | .start bp k => some (h, .between bp h.freep k)
  | .between bp p k => some (h, if p < bp ∧ bp < h.ptr p then .upper bp p k else .wrap bp p k)
  | .wrap bp p k => some (h, if h.ptr p ≤ p ∧ (p < bp ∨ bp < h.ptr p) then .upper bp p k else .advance bp p k)
  | .advance bp p k => some (h, .between bp (h.ptr p) k)
  | .upper bp p k => some (h, if word (bp + 8 * h.size bp) = h.ptr p then .upperSize bp p k else .upperLink bp p k)
  | .upperSize bp p k => some (h.setSize bp (word (h.size bp + h.size (h.ptr p))), .upperPtr bp p k)
  | .upperPtr bp p k => some (h.setPtr bp (h.ptr (h.ptr p)), .lower bp p k)
  | .upperLink bp p k => some (h.setPtr bp (h.ptr p), .lower bp p k)
  | .lower bp p k => some (h, if word (p + 8 * h.size p) = bp then .lowerSize bp p k else .lowerLink bp p k)
  | .lowerSize bp p k => some (h.setSize p (word (h.size p + h.size bp)), .lowerPtr bp p k)
  | .lowerPtr bp p k => some (h.setPtr p (h.ptr bp), .done p k)
  | .lowerLink bp p k => some (h.setPtr p bp, .done p k)
  | .done p k => some ({ h with freep := p }, k.back)

structure Sys (T : Type) where
  heap : Heap
  pc : T → Pc

/-- `malloc` is asked for less than this, so that the `int` that `sbrk` gets is positive. -/
def maxRequest : Nat := 2 ^ 31 - 16

def Block.Inside (b : Block) (a : Nat) : Prop := b.addr + 8 ≤ a ∧ a + 8 ≤ b.addr + 8 * nunits b.nbytes

instance (b : Block) (a : Nat) : Decidable (b.Inside a) := inferInstanceAs (Decidable (_ ∧ _))

/-- A thread outside may write to any live block, or to the stack it is leaving. -/
def Pc.MayWrite (live : List Block) (b : Block) : Pc → Prop
  | idle => b ∈ live
  | leaving stack => b = stack
  | _ => False

instance (live : List Block) (b : Block) (pc : Pc) : Decidable (pc.MayWrite live b) := by
  unfold Pc.MayWrite
  split <;> infer_instance

inductive Act (T : Type) where
  | malloc (t : T) (nbytes : Nat)
  | free (t : T) (b : Block)
  /-- `uthread_exit` frees the stack of the thread. -/
  | exit (t : T) (stack : Block)
  | gone (t : T)
  | write (t : T) (b : Block) (a ptr size : Nat)
  /-- The thread goes on in `malloc` or `free`. -/
  | exec (t : T) (ok : Bool)

def Act.thread {T : Type} : Act T → T
  | malloc t _ | free t _ | exit t _ | gone t | write t _ _ _ _ | exec t _ => t

variable {T : Type} [DecidableEq T]

def callFree (s : Sys T) (t : T) (b : Block) (k : Caller) : Option (Sys T) :=
  if s.pc t = .idle ∧ b ∈ s.heap.live then
    some ⟨{ s.heap with live := s.heap.live.erase b }, update s.pc t (.start b.addr k)⟩
  else none

def step (base : Nat) (s : Sys T) : Act T → Option (Sys T)
  | .malloc t nbytes =>
    if s.pc t = .idle ∧ nbytes < maxRequest then some { s with pc := update s.pc t (.enter nbytes) } else none
  | .free t b => callFree s t b .user
  | .exit t stack => callFree s t stack (.exit stack)
  | .gone t =>
    match s.pc t with
    | .leaving _ => some { s with pc := update s.pc t .idle }
    | _ => none
  | .write t b a ptr size =>
    if (s.pc t).MayWrite s.heap.live b ∧ b.Inside a then
      some { s with heap := (s.heap.setPtr a (word ptr)).setSize a (word size) }
    else none
  | .exec t ok => (exec base s.heap ok (s.pc t)).map fun (h, pc) => ⟨h, update s.pc t pc⟩

/-- The heap of a new process, with `base` in the data below it. -/
structure Fresh (base : Nat) (s : Sys T) : Prop where
  pos : 0 < base
  below : base + 8 ≤ s.heap.brk
  brk : s.heap.brk < kernbase
  freep : s.heap.freep = 0
  live : s.heap.live = []
  idle : ∀ t, s.pc t = .idle

end Xv6.Umalloc
