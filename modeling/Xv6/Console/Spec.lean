import Xv6.Lib.Bytes
import Xv6.Lib.Ring
import Xv6.Lib.Run

/-!
# The console

The input side of `console.c`. A step is a character that comes in or a turn of a reader's loop. In the source
`cons.lock` keeps more of them together.
-/

open Function Xv6.Bytes

namespace Xv6.Console

def inputBuf : Nat := 128

instance : NeZero inputBuf := ⟨by decide⟩

def newline : Byte := 0x0a
def carriageReturn : Byte := 0x0d
def ctrlD : Byte := 0x04
def ctrlH : Byte := 0x08
def ctrlP : Byte := 0x10
def ctrlU : Byte := 0x15
def delete : Byte := 0x7f

structure Input where
  buf : Fin inputBuf → Byte
  r : BitVec 32
  w : BitVec 32
  e : BitVec 32

/-- The loop of `C('U')`. -/
def killLine : Nat → Input → Input
  | 0, i => i
  | n + 1, i =>
    if i.e ≠ i.w ∧ i.buf (Ring.place (i.e - 1)) ≠ newline then killLine n { i with e := i.e - 1 } else i

def consoleintr (i : Input) (c : Byte) : Input :=
  if c = ctrlP then i
  else if c = ctrlU then killLine (i.e - i.w).toNat i
  else if c = ctrlH ∨ c = delete then
    if i.e ≠ i.w then { i with e := i.e - 1 } else i
  else if c ≠ 0 ∧ i.e - i.r < BitVec.ofNat 32 inputBuf then
    let c := if c = carriageReturn then newline else c
    let i := { i with buf := update i.buf (Ring.place i.e) c, e := i.e + 1 }
    if c = newline ∨ c = ctrlD ∨ i.e = i.r + BitVec.ofNat 32 inputBuf then { i with w := i.e } else i
  else i

structure Reader where
  target : Nat
  n : Nat
  dst : List Byte

/-- One turn of the loop, and whether it was the last one. -/
def readTurn (i : Input) (x : Reader) : Option (Input × Reader × Bool) :=
  if i.r = i.w then none
  else
    let c := i.buf (Ring.place i.r)
    let i := { i with r := i.r + 1 }
    if c = ctrlD then some (if x.n < x.target then { i with r := i.r - 1 } else i, x, true)
    else
      let x := { x with n := x.n - 1, dst := x.dst ++ [c] }
      some (i, x, c = newline ∨ x.n = 0)

/-- What a call of `consoleread` came to. -/
structure Call (P : Type) where
  proc : P
  size : Int
  value : Int
  dst : List Byte

structure Sys (P : Type) where
  input : Input
  reader : P → Option Reader
  calls : List (Call P)

inductive Act (P : Type) where
  | intr (c : Byte)
  | read (p : P) (n : Int)
  | turn (p : P)
  | killed (p : P)

variable {P : Type} [DecidableEq P]

def Sys.afterTurn (s : Sys P) (p : P) : Input × Reader × Bool → Sys P
  | (i, x, true) => ⟨i, update s.reader p none, s.calls ++ [⟨p, x.target, x.target - x.n, x.dst⟩]⟩
  | (i, x, false) => { s with input := i, reader := update s.reader p (some x) }

def step (s : Sys P) : Act P → Option (Sys P)
  | .intr c => some { s with input := consoleintr s.input c }
  | .read p n =>
    if (s.reader p).isSome then none
    else if n ≤ 0 then some { s with calls := s.calls ++ [⟨p, n, 0, []⟩] }
    else some { s with reader := update s.reader p (some ⟨n.toNat, n.toNat, []⟩) }
  | .turn p => do
    let x ← s.reader p
    (readTurn s.input x).map (s.afterTurn p)
  | .killed p => do
    let x ← s.reader p
    if s.input.r = s.input.w then
      some { s with reader := update s.reader p none, calls := s.calls ++ [⟨p, x.target, -1, x.dst⟩] }
    else none

def Sys.init : Sys P := ⟨⟨fun _ => 0, 0, 0, 0⟩, fun _ => none, []⟩

/-! ## The reference -/

/-- What is committed and not read yet, and what is still edited. `typed` is all that was ever committed. -/
structure Editor where
  committed : List Byte
  pending : List Byte
  typed : List Byte

def Editor.commit (x : Editor) (line : List Byte) : Editor := ⟨x.committed ++ line, [], x.typed ++ line⟩

def Editor.accept (x : Editor) (c : Byte) : Editor :=
  let line := x.pending ++ [c]
  if c = newline ∨ c = ctrlD ∨ (x.committed ++ line).length = inputBuf then x.commit line
  else { x with pending := line }

def Editor.intr (x : Editor) (c : Byte) : Editor :=
  if c = ctrlP ∨ c = 0 then x
  else if c = ctrlU then { x with pending := [] }
  else if c = ctrlH ∨ c = delete then { x with pending := x.pending.dropLast }
  else if (x.committed ++ x.pending).length < inputBuf then x.accept (if c = carriageReturn then newline else c)
  else x

structure Reading where
  n : Nat
  got : List Byte
  room : got.length < n

structure Answer (P : Type) where
  proc : P
  size : Int
  bytes : Option (List Byte)

structure Ref (P : Type) where
  editor : Editor
  reading : P → Option Reading
  answers : List (Answer P)

def Ref.finish (t : Ref P) (p : P) (size : Int) (bytes : Option (List Byte)) : Ref P :=
  { t with reading := update t.reading p none, answers := t.answers ++ [⟨p, size, bytes⟩] }

/-- A newline ends the read, and so does the last byte asked for or a `^D`, which only an empty read takes. -/
def Ref.take (t : Ref P) (p : P) (x : Reading) : List Byte → Option (Ref P)
  | [] => none
  | c :: rest =>
    let rest := { t with editor := { t.editor with committed := rest } }
    if c = ctrlD then some ((if x.got = [] then rest else t).finish p x.n (some x.got))
    else if h : c ≠ newline ∧ x.got.length + 1 < x.n then
      some { rest with reading := update t.reading p (some ⟨x.n, x.got ++ [c], by simpa using h.2⟩) }
    else some (rest.finish p x.n (some (x.got ++ [c])))

def Ref.step (t : Ref P) : Act P → Option (Ref P)
  | .intr c => some { t with editor := t.editor.intr c }
  | .read p n =>
    if (t.reading p).isSome then none
    else if h : 0 < n.toNat then some { t with reading := update t.reading p (some ⟨n.toNat, [], h⟩) }
    else some { t with answers := t.answers ++ [⟨p, n, some []⟩] }
  | .turn p => do
    let x ← t.reading p
    t.take p x t.editor.committed
  | .killed p => do
    let x ← t.reading p
    if t.editor.committed = [] then some (t.finish p x.n none) else none

def Ref.init : Ref P := ⟨⟨[], [], []⟩, fun _ => none, []⟩

end Xv6.Console
