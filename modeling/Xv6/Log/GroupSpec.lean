import Xv6.Log.Spec

/-!
# Operations on the log

`begin_op`, `log_write` and `end_op`, called by any number of processes. A step is a critical section
of `log.lock`, or what runs between two of them.
-/

namespace Xv6.Log

structure LogState where
  outstanding : Nat
  committing : Bool
  lh : List Nat
deriving DecidableEq, Repr

inductive Panic where
  | tooBig
  | outsideTrans
  | logCommitting
deriving DecidableEq, Repr

/-- One turn of the loop in `begin_op`. The process sleeps on `none`. -/
def beginOp (l : LogState) : Option LogState :=
  if l.committing then none
  else if l.lh.length + (l.outstanding + 1) * maxopblocks > logsize then none
  else some { l with outstanding := l.outstanding + 1 }

/-- The tests at the start of `log_write`, which run without the lock. -/
def logCheck (size : Nat) (l : LogState) : Option Panic :=
  if l.lh.length ≥ logsize ∨ l.lh.length ≥ size - 1 then some .tooBig
  else if l.outstanding < 1 then some .outsideTrans
  else none

/-- The block takes the place of its last entry, or comes last. -/
def absorb (b : Nat) : List Nat → List Nat
  | [] => [b]
  | c :: cs => if c = b then b :: cs else c :: absorb b cs

def logWrite (b : Nat) (l : LogState) : LogState := { l with lh := absorb b l.lh }

/-- The first critical section of `end_op`, and whether the process has to commit. -/
def endOp (l : LogState) : Except Panic (LogState × Bool) :=
  let l := { l with outstanding := l.outstanding - 1 }
  if l.committing then .error .logCommitting
  else if l.outstanding = 0 then .ok ({ l with committing := true }, true)
  else .ok (l, false)

/-- Where a process is, with the number of its operation. -/
inductive Phase where
  | idle
  | awake
  | asleep
  | inOp (op : Nat)
  | checked (op b : Nat)
  | writing (written : List Nat)
  | cleared
deriving DecidableEq, Repr

def Phase.op : Phase → Option Nat
  | .inOp op => some op
  | .checked op _ => some op
  | _ => none

def Phase.inOperation (f : Phase) : Bool := f.op.isSome

def Phase.inCommit : Phase → Bool
  | .writing _ => true
  | .cleared => true
  | _ => false

def Phase.wake : Phase → Phase
  | .asleep => .awake
  | f => f

structure Commit where
  ops : List Nat
  written : List Nat
deriving DecidableEq, Repr

/-- The last four fields only record what has happened. -/
structure Sys (P : Type) where
  log : LogState
  phase : P → Phase
  panic : Option Panic
  nextOp : Nat
  logged : List (Nat × Nat)
  ended : List Nat
  commits : List Commit

def Sys.init (P : Type) : Sys P := ⟨⟨0, false, []⟩, fun _ => .idle, none, 0, [], [], []⟩

inductive Act (P : Type) where
  | call (p : P)
  | look (p : P)
  | kill (p : P)
  | check (p : P) (b : Nat)
  | write (p : P)
  | endOp (p : P)
  | writeBlock (p : P)
  | clear (p : P)
  | finish (p : P)
deriving Repr

variable {P : Type} [DecidableEq P]

def Sys.goto (s : Sys P) (p : P) (f : Phase) : Sys P := { s with phase := Function.update s.phase p f }

def Sys.wakeup (s : Sys P) : Sys P := { s with phase := fun p => (s.phase p).wake }

def step (size : Nat) (s : Sys P) (a : Act P) : Option (Sys P) :=
  if s.panic.isSome then none
  else match a with
  | .call p => if s.phase p = .idle then some (s.goto p .awake) else none
  | .look p =>
    if s.phase p = .awake then
      match beginOp s.log with
      | none => some (s.goto p .asleep)
      | some l => some { s.goto p (.inOp s.nextOp) with log := l, nextOp := s.nextOp + 1 }
    else none
  | .kill p => if s.phase p = .asleep then some (s.goto p .awake) else none
  | .check p b =>
    match s.phase p with
    | .inOp op =>
      match logCheck size s.log with
      | some e => some { s with panic := some e }
      | none => some (s.goto p (.checked op b))
    | _ => none
  | .write p =>
    match s.phase p with
    | .checked op b => some { s.goto p (.inOp op) with log := logWrite b s.log, logged := s.logged ++ [(op, b)] }
    | _ => none
  | .endOp p =>
    match s.phase p with
    | .inOp op =>
      match endOp s.log with
      | .error e => some { s with panic := some e }
      | .ok (l, true) => some { s.goto p (.writing []) with log := l, ended := s.ended ++ [op] }
      | .ok (l, false) => some { (s.goto p .idle).wakeup with log := l, ended := s.ended ++ [op] }
    | _ => none
  | .writeBlock p =>
    match s.phase p with
    | .writing w =>
      match s.log.lh[w.length]? with
      | some b => some (s.goto p (.writing (w ++ [b])))
      | none => none
    | _ => none
  | .clear p =>
    match s.phase p with
    | .writing w =>
      if s.log.lh.length ≤ w.length then
        some { s.goto p .cleared with
          log := { s.log with lh := [] }, ended := [], commits := s.commits ++ [⟨s.ended, w⟩] }
      else none
    | _ => none
  | .finish p =>
    if s.phase p = .cleared then
      some { (s.goto p .idle).wakeup with log := { s.log with committing := false } }
    else none

end Xv6.Log
