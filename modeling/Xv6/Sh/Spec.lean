import Xv6.Lib.Bytes
import Xv6.Lib.Code

/-!
# The parser of the shell

`parsecmd` of `sh.c` and what it calls. A pointer into the line is a position, and the functions that move `*ps` are
code over the position. `malloc` is taken to succeed.
-/

open Xv6.Bytes

namespace Xv6.Sh

def maxargs : Nat := 10

def oRdonly : Nat := 0x000
def oWronlyCreate : Nat := 0x001 ||| 0x200

def whitespace : List Byte := [0x20, 0x09, 0x0d, 0x0a, 0x0b]

def symbols : List Byte := [0x3c, 0x7c, 0x3e, 0x26, 0x3b, 0x28, 0x29]

structure Span where
  q : Nat
  eq : Nat
deriving DecidableEq

structure Redir (W : Type) where
  file : W
  mode : Nat
  fd : Nat
deriving DecidableEq

/-- `struct cmd`, over what stands for a word. -/
inductive Cmd (W : Type) where
  | exec (argv : List W)
  | redir (cmd : Cmd W) (r : Redir W)
  | pipe (left right : Cmd W)
  | list (left right : Cmd W)
  | back (cmd : Cmd W)
deriving DecidableEq

def redircmds {W : Type} (cmd : Cmd W) (rs : List (Redir W)) : Cmd W := rs.foldl .redir cmd

inductive Tok where
  | eof
  | bar
  | lparen
  | rparen
  | semi
  | amp
  | less
  | greater
  /-- `>>` -/
  | append
  | word
deriving DecidableEq

inductive Stop where
  | panic (msg : String)
  /-- The bound on the recursion is used up. -/
  | fuel
deriving DecidableEq

abbrev Parser (α : Type) : Type := Code Nat Stop α

section

variable (s : List Byte)

/-- `*s` at a position. Behind the line there is its NUL. -/
def charAt (i : Nat) : Byte := s.getD i 0

/-- `while(s < es && p(*s)) s++` -/
def scan (p : Byte → Bool) (i : Nat) : Nat := i + ((s.drop i).takeWhile p).length

def isSpace (c : Byte) : Bool := whitespace.contains c

def isWord (c : Byte) : Bool := !whitespace.contains c && !symbols.contains c

def tokenAt (q : Nat) : Tok × Nat :=
  match charAt s q with
  | 0x00 => (.eof, q)
  | 0x7c => (.bar, q + 1)
  | 0x28 => (.lparen, q + 1)
  | 0x29 => (.rparen, q + 1)
  | 0x3b => (.semi, q + 1)
  | 0x26 => (.amp, q + 1)
  | 0x3c => (.less, q + 1)
  | 0x3e => if charAt s (q + 1) = 0x3e then (.append, q + 2) else (.greater, q + 1)
  | _ => (.word, scan s isWord q)

def gettoken : Parser (Tok × Span) := do
  let i ← Code.get
  let q := scan s isSpace i
  let (ret, eq) := tokenAt s q
  Code.modify fun _ => scan s isSpace eq
  return (ret, ⟨q, eq⟩)

def peek (toks : List Byte) : Parser Bool := do
  Code.modify (scan s isSpace)
  let i ← Code.get
  return charAt s i != 0 && toks.contains (charAt s i)

def angles : List Byte := [0x3c, 0x3e]
def enders : List Byte := [0x7c, 0x29, 0x26, 0x3b]
def amps : List Byte := [0x26]
def semis : List Byte := [0x3b]
def bars : List Byte := [0x7c]
def lparens : List Byte := [0x28]
def rparens : List Byte := [0x29]

def parseredirs : Nat → List (Redir Span) → Parser (List (Redir Span))
  | 0, _ => Code.stop .fuel
  | n + 1, rs => do
    if ← peek s angles then
      let (tok, _) ← gettoken s
      let (file, w) ← gettoken s
      if file ≠ .word then Code.stop (.panic "missing file for redirection")
      else match tok with
        | .less => parseredirs n (rs ++ [⟨w, oRdonly, 0⟩])
        | .greater => parseredirs n (rs ++ [⟨w, oWronlyCreate, 1⟩])
        | .append => parseredirs n (rs ++ [⟨w, oWronlyCreate, 1⟩])
        | _ => parseredirs n rs
    else return rs

/-- The loop of `parseexec`. The command that the redirections are around gets its words meanwhile. -/
def parseargs : Nat → List Span → List (Redir Span) → Parser (Cmd Span)
  | 0, _, _ => Code.stop .fuel
  | n + 1, argv, rs => do
    if ← peek s enders then return redircmds (.exec argv) rs
    else
      let (tok, w) ← gettoken s
      if tok = .eof then return redircmds (.exec argv) rs
      else if tok ≠ .word then Code.stop (.panic "syntax")
      else if (argv ++ [w]).length ≥ maxargs then Code.stop (.panic "too many args")
      else
        let rs ← parseredirs s n rs
        parseargs n (argv ++ [w]) rs

def parsebacks : Nat → Cmd Span → Parser (Cmd Span)
  | 0, _ => Code.stop .fuel
  | n + 1, cmd => do
    if ← peek s amps then
      let _ ← gettoken s
      parsebacks n (.back cmd)
    else return cmd

mutual

def parseline : Nat → Parser (Cmd Span)
  | 0 => Code.stop .fuel
  | n + 1 => do
    let cmd ← parsepipe n
    let cmd ← parsebacks s n cmd
    if ← peek s semis then
      let _ ← gettoken s
      let right ← parseline n
      return .list cmd right
    else return cmd
termination_by structural n => n

def parsepipe : Nat → Parser (Cmd Span)
  | 0 => Code.stop .fuel
  | n + 1 => do
    let cmd ← parseexec n
    if ← peek s bars then
      let _ ← gettoken s
      let right ← parsepipe n
      return .pipe cmd right
    else return cmd
termination_by structural n => n

def parseblock : Nat → Parser (Cmd Span)
  | 0 => Code.stop .fuel
  | n + 1 => do
    if !(← peek s lparens) then Code.stop (.panic "parseblock")
    else
      let _ ← gettoken s
      let cmd ← parseline n
      if !(← peek s rparens) then Code.stop (.panic "syntax - missing )")
      else
        let _ ← gettoken s
        let rs ← parseredirs s n []
        return redircmds cmd rs
termination_by structural n => n

def parseexec : Nat → Parser (Cmd Span)
  | 0 => Code.stop .fuel
  | n + 1 => do
    if ← peek s lparens then parseblock n
    else
      let rs ← parseredirs s n []
      parseargs s n [] rs
termination_by structural n => n

end

end

abbrev Mem : Type := Nat → Byte

def nulterminate : Cmd Span → Mem → Mem
  | .exec argv, m => argv.foldl (fun m w => Function.update m w.eq 0) m
  | .redir cmd r, m => Function.update (nulterminate cmd m) r.file.eq 0
  | .pipe left right, m => nulterminate right (nulterminate left m)
  | .list left right, m => nulterminate right (nulterminate left m)
  | .back cmd, m => nulterminate cmd m

/-- A line as `getcmd` leaves it: its NUL is at its end. -/
structure Line where
  bytes : List Byte
  nonzero : ∀ c ∈ bytes, c ≠ 0

def parsecmd (l : Line) : Parser (Cmd Span × Mem) := do
  let cmd ← parseline l.bytes (4 * l.bytes.length + 4)
  let _ ← peek l.bytes []
  let i ← Code.get
  if i ≠ l.bytes.length then Code.stop (.panic "syntax")
  else return (cmd, nulterminate cmd (charAt l.bytes))

end Xv6.Sh
