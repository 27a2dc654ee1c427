import Xv6.Lib.Run
import Xv6.Paging.Spec

/-!
# The system calls that use pages

Processes, files and pipes, and the system calls that take pages and give them back, one after another.
-/

open Function

namespace Xv6.Vm

open Code Bytes
open Paging (Page Link Mem Stop Image pgsize kernbase kalloc kfree copyuvm freevm)

inductive Panic where
  | mem (e : Stop)
  | noPgdir
  | filedup
  | fileclose
  | initExiting
deriving DecidableEq, Repr

/-! ## Processes, files and pipes -/

inductive ProcState where
  | unused
  | alive
  | zombie
deriving DecidableEq, Repr

abbrev nofile : Nat := 16

/-- A process with files in a table of `f`. It is `alive` in every state of the source but `UNUSED` and `ZOMBIE`. -/
structure Proc (n f : Nat) where
  state : ProcState
  kstack : Option Page
  pgdir : Option Page
  sz : Nat
  esp : Nat
  parent : Option (Fin n)
  ofile : Fin nofile → Option (Fin f)

inductive FileType where
  | none
  | pipe (p : Page)
  | inode
deriving DecidableEq, Repr

structure File where
  ref : Nat
  type : FileType
  writable : Bool
deriving DecidableEq, Repr

structure Pipe where
  readopen : Bool
  writeopen : Bool
deriving DecidableEq, Repr

/-- `pipe` is each page as a pipe. -/
structure Sys (n f : Nat) where
  mem : Mem
  kpgdir : Page
  pipe : Page → Pipe
  file : Fin f → File
  proc : Fin n → Proc n f
  initproc : Fin n

variable {n f : Nat}

namespace Sys

def setPipe (s : Sys n f) (x : Page) (p : Pipe) : Sys n f := { s with pipe := update s.pipe x p }

def setFile (s : Sys n f) (i : Fin f) (x : File) : Sys n f := { s with file := update s.file i x }

def setProc (s : Sys n f) (p : Fin n) (x : Proc n f) : Sys n f := { s with proc := update s.proc p x }

def setOfile (s : Sys n f) (p : Fin n) (fd : Fin nofile) (x : Option (Fin f)) : Sys n f :=
  s.setProc p { s.proc p with ofile := update (s.proc p).ofile fd x }

end Sys

def onMem {α : Type} (c : Code Mem Stop α) : Code (Sys n f) Panic α := fun s =>
  match c s.mem with
  | .ok (a, m) => .ok (a, { s with mem := m })
  | .error e => .error (.mem e)

def Sys.ran (s : Sys n f) (p : Fin n) (u : Paging.Sys) : Sys n f :=
  Sys.setProc { s with mem := u.mem } p { s.proc p with pgdir := some u.proc.pgdir, sz := u.proc.sz, esp := u.proc.esp }

/-- What a process does to its own address space. -/
def onProc {α : Type} (p : Fin n) (c : Code Paging.Sys Stop α) : Code (Sys n f) Panic α := fun s =>
  match (s.proc p).pgdir with
  | none => .error .noPgdir
  | some pgdir =>
    match c ⟨s.mem, ⟨pgdir, (s.proc p).sz, (s.proc p).esp⟩⟩ with
    | .ok (a, u) => .ok (a, s.ran p u)
    | .error e => .error (.mem e)

def filealloc : Code (Sys n f) Panic (Option (Fin f)) := do
  let s ← get
  match (List.finRange f).find? fun i => (s.file i).ref = 0 with
  | none => pure none
  | some i =>
    modify fun s => s.setFile i { s.file i with ref := 1 }
    pure (some i)

def filedup (i : Fin f) : Code (Sys n f) Panic Unit := do
  let s ← get
  if (s.file i).ref < 1 then stop .filedup
  modify fun s => s.setFile i { s.file i with ref := (s.file i).ref + 1 }

def pipeclose (l : Link) (x : Page) (writable : Bool) : Code (Sys n f) Panic Unit := do
  modify fun s => s.setPipe x
    (if writable then { s.pipe x with writeopen := false } else { s.pipe x with readopen := false })
  let s ← get
  if !(s.pipe x).readopen && !(s.pipe x).writeopen then onMem (kfree l x)

def fileclose (l : Link) (i : Fin f) : Code (Sys n f) Panic Unit := do
  let s ← get
  let ff := s.file i
  if ff.ref < 1 then stop .fileclose
  modify fun s => s.setFile i { ff with ref := ff.ref - 1 }
  if ff.ref - 1 > 0 then pure ()
  else
    modify fun s => s.setFile i { ff with ref := 0, type := .none }
    match ff.type with
    | .pipe x => pipeclose l x ff.writable
    | .inode => pure ()
    | .none => pure ()

def pipealloc (l : Link) : Code (Sys n f) Panic (Option (Fin f × Fin f)) := do
  match ← filealloc with
  | none => pure none
  | some f0 =>
    match ← filealloc with
    | none =>
      fileclose l f0
      pure none
    | some f1 =>
      match ← onMem kalloc with
      | none =>
        fileclose l f0
        fileclose l f1
        pure none
      | some x =>
        modify fun s => s.setPipe x ⟨true, true⟩
        modify fun s => s.setFile f0 { s.file f0 with type := .pipe x, writable := false }
        modify fun s => s.setFile f1 { s.file f1 with type := .pipe x, writable := true }
        pure (some (f0, f1))

def fdalloc (p : Fin n) (i : Fin f) : Code (Sys n f) Panic (Option (Fin nofile)) := do
  let s ← get
  match (List.finRange nofile).find? fun fd => ((s.proc p).ofile fd).isNone with
  | none => pure none
  | some fd =>
    modify fun s => s.setOfile p fd (some i)
    pure (some fd)

/-! ## System calls -/

def sysPipe (l : Link) (p : Fin n) : Code (Sys n f) Panic Int := do
  match ← pipealloc l with
  | none => pure (-1)
  | some (rf, wf) =>
    match ← fdalloc p rf with
    | none =>
      fileclose l rf
      fileclose l wf
      pure (-1)
    | some fd0 =>
      match ← fdalloc p wf with
      | none =>
        modify fun s => s.setOfile p fd0 none
        fileclose l rf
        fileclose l wf
        pure (-1)
      | some _ => pure 0

def sysClose (l : Link) (p : Fin n) (fd : Fin nofile) : Code (Sys n f) Panic Int := do
  let s ← get
  match (s.proc p).ofile fd with
  | none => pure (-1)
  | some i =>
    modify fun s => s.setOfile p fd none
    fileclose l i
    pure 0

def pgdirOf (p : Fin n) : Code (Sys n f) Panic Page := do
  let s ← get
  match (s.proc p).pgdir with
  | none => stop .noPgdir
  | some pgdir => pure pgdir

def growproc (l : Link) (p : Fin n) (k : Int) : Code (Sys n f) Panic Int := do
  if ← onProc p (Paging.growproc l k) then pure 0 else pure (-1)

def allocproc : Code (Sys n f) Panic (Option (Fin n)) := do
  let s ← get
  match (List.finRange n).find? fun q => (s.proc q).state = .unused with
  | none => pure none
  | some np =>
    match ← onMem kalloc with
    | none =>
      modify fun s => s.setProc np { s.proc np with kstack := none }
      pure none
    | some x =>
      modify fun s => s.setProc np { s.proc np with state := .alive, kstack := some x }
      pure (some np)

def dupFiles (p np : Fin n) : Code (Sys n f) Panic Unit :=
  (List.finRange nofile).forM fun fd => do
    let s ← get
    match (s.proc p).ofile fd with
    | none => pure ()
    | some i =>
      filedup i
      modify fun s => s.setOfile np fd (some i)

def fork (l : Link) (p : Fin n) : Code (Sys n f) Panic Int := do
  match ← allocproc with
  | none => pure (-1)
  | some np =>
    let pgdir ← pgdirOf p
    let s ← get
    match ← onMem (copyuvm l pgdir (s.proc p).sz) with
    | none =>
      match ((← get).proc np).kstack with
      | none => stop (.mem .kfree)
      | some x => onMem (kfree l x)
      modify fun s => s.setProc np { s.proc np with state := .unused, kstack := none, pgdir := none }
      pure (-1)
    | some d =>
      modify fun s => s.setProc np
        { s.proc np with pgdir := some d, sz := (s.proc p).sz, esp := (s.proc p).esp, parent := some p }
      dupFiles p np
      pure 0

/-- There is no image when the file cannot be found. -/
def exec (l : Link) (p : Fin n) (image : Option Image) (argv : List (List Byte)) : Code (Sys n f) Panic Int := do
  match image with
  | none => pure (-1)
  | some image => if ← onProc p (Paging.exec l image argv) then pure 0 else pure (-1)

def closeFiles (l : Link) (p : Fin n) : Code (Sys n f) Panic Unit :=
  (List.finRange nofile).forM fun fd => do
    let s ← get
    match (s.proc p).ofile fd with
    | none => pure ()
    | some i =>
      fileclose l i
      modify fun s => s.setOfile p fd none

def Sys.abandon (s : Sys n f) (p : Fin n) : Sys n f :=
  { s with proc := fun q =>
      if (s.proc q).parent = some p then { s.proc q with parent := some s.initproc } else s.proc q }

def exit (l : Link) (p : Fin n) : Code (Sys n f) Panic Int := do
  let s ← get
  if p = s.initproc then stop .initExiting
  closeFiles l p
  modify fun s => s.abandon p
  modify fun s => s.setProc p { s.proc p with state := .zombie }
  pure 0

/-- When no child has exited, `wait` fails or sleeps, and leaves everything as it is. -/
def wait (l : Link) (p : Fin n) : Code (Sys n f) Panic Int := do
  let s ← get
  match (List.finRange n).find? fun q => (s.proc q).parent = some p ∧ (s.proc q).state = .zombie with
  | none => pure (-1)
  | some q =>
    match (s.proc q).kstack with
    | none => stop (.mem .kfree)
    | some x => onMem (kfree l x)
    modify fun s => s.setProc q { s.proc q with kstack := none }
    let pgdir ← pgdirOf q
    onMem (freevm l pgdir)
    modify fun s => s.setProc q { s.proc q with state := .unused, parent := none }
    pure 0

inductive Call where
  | fork
  | exec (image : Option Image) (argv : List (List Byte))
  | sbrk (k : Int)
  | pipe
  | close (fd : Fin nofile)
  | exit
  | wait

def call (l : Link) (p : Fin n) : Call → Code (Sys n f) Panic Int
  | .fork => fork l p
  | .exec image argv => exec l p image argv
  | .sbrk k => growproc l p k
  | .pipe => sysPipe l p
  | .close fd => sysClose l p fd
  | .exit => exit l p
  | .wait => wait l p

/-- A process that has not exited makes a system call. A call that panics has no next state. -/
def step (l : Link) (s : Sys n f) (a : Fin n × Call) : Option (Sys n f) :=
  if (s.proc a.1).state = .alive then
    match call l a.1 a.2 s with
    | .ok (_, t) => some t
    | .error _ => none
  else none

end Xv6.Vm
