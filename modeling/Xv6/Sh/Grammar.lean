import Xv6.Sh.Spec

/-!
# The language of the shell

The tokens of a line and the grammar over them, said without the parser.
-/

open Xv6.Bytes

namespace Xv6.Sh

inductive Token where
  | bar
  | lparen
  | rparen
  | semi
  | amp
  | less
  | greater
  | append
  | word (text : List Byte)
deriving DecidableEq

def token (c : Byte) (cs : List Byte) : Token × List Byte :=
  match c with
  | 0x7c => (.bar, cs)
  | 0x28 => (.lparen, cs)
  | 0x29 => (.rparen, cs)
  | 0x3b => (.semi, cs)
  | 0x26 => (.amp, cs)
  | 0x3c => (.less, cs)
  | 0x3e => if cs.head? = some 0x3e then (.append, cs.tail) else (.greater, cs)
  | _ => (.word (c :: cs.takeWhile isWord), cs.dropWhile isWord)

theorem token_length_le (c : Byte) (cs : List Byte) : (token c cs).2.length ≤ cs.length := by
  unfold token
  split <;> try exact Nat.le_refl _
  · split
    · simp
    · exact Nat.le_refl _
  · exact (List.dropWhile_sublist _).length_le

def lex : List Byte → List Token
  | [] => []
  | c :: cs => if isSpace c then lex cs else (token c cs).1 :: lex (token c cs).2
termination_by cs => cs.length
decreasing_by
  · simp
  · exact Nat.lt_succ_of_le (token_length_le c cs)

inductive RedirOp : Token → Nat → Nat → Prop
  | less : RedirOp .less oRdonly 0
  | greater : RedirOp .greater oWronlyCreate 1
  | append : RedirOp .append oWronlyCreate 1

inductive Items : List Token → List (List Byte) → List (Redir (List Byte)) → Prop
  | nil : Items [] [] []
  | word {ts ws rs} (w : List Byte) (rest : Items ts ws rs) : Items (.word w :: ts) (w :: ws) rs
  | redir {ts ws rs op mode fd} (hop : RedirOp op mode fd) (f : List Byte) (rest : Items ts ws rs) :
      Items (op :: .word f :: ts) ws (⟨f, mode, fd⟩ :: rs)

inductive Nt where
  | line
  | pipe
  | exec

def backs {W : Type} (cmd : Cmd W) : Nat → Cmd W
  | 0 => cmd
  | k + 1 => backs (.back cmd) k

/-- The grammar, with the tree of each derivation. -/
inductive Derives : Nt → List Token → Cmd (List Byte) → Prop
  | line {ts c} (k : Nat) (left : Derives .pipe ts c) : Derives .line (ts ++ List.replicate k .amp) (backs c k)
  | list {ts us c d} (k : Nat) (left : Derives .pipe ts c) (right : Derives .line us d) :
      Derives .line (ts ++ (List.replicate k .amp ++ .semi :: us)) (.list (backs c k) d)
  | single {ts c} (left : Derives .exec ts c) : Derives .pipe ts c
  | pipe {ts us c d} (left : Derives .exec ts c) (right : Derives .pipe us d) :
      Derives .pipe (ts ++ .bar :: us) (.pipe c d)
  | block {ts us c rs} (inner : Derives .line ts c) (redirs : Items us [] rs) :
      Derives .exec (.lparen :: (ts ++ .rparen :: us)) (redircmds c rs)
  | simple {ts ws rs} (items : Items ts ws rs) (few : ws.length ≤ maxargs - 1) :
      Derives .exec ts (redircmds (.exec ws) rs)

end Xv6.Sh
