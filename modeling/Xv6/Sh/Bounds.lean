import Xv6.Sh.Lexer

/-!
# The parser in bounds

The parser once more, with a check where it reads `*s`, stores a cursor, or uses an element of `argv` and `eargv`.
-/

open Xv6.Bytes Xv6.Code

namespace Xv6.Sh.Checked

inductive Fault where
  | stop (e : Stop)
  /-- The position is behind the NUL of the line. -/
  | position (i : Nat)
  /-- `argv` and `eargv` have no such element. -/
  | index (k : Nat)
deriving DecidableEq

abbrev Parser (α : Type) : Type := Code Nat Fault α

def inArgv (k : Nat) : Parser Unit := if k < maxargs then pure () else Code.stop (.index k)

section

variable (s : List Byte)

def inLine (i : Nat) : Parser Unit := if i ≤ s.length then pure () else Code.stop (.position i)

def deref (i : Nat) : Parser Byte := do
  inLine s i
  return charAt s i

/-- `while(s < es && p(*s)) s++` when `es` is `n` characters away. -/
def skip (p : Byte → Bool) : Nat → Nat → Parser Nat
  | 0, i => return i
  | n + 1, i => do
    if p (← deref s i) then skip p n (i + 1) else return i

def scan (p : Byte → Bool) (i : Nat) : Parser Nat := skip s p (s.length - i) i

/-- `*ps = s`. Until then `s` only went up. -/
def moveTo (i : Nat) : Parser Unit := do
  inLine s i
  Code.modify fun _ => i

def tokenAt (q : Nat) : Parser (Tok × Nat) := do
  match ← deref s q with
  | 0x00 => return (.eof, q)
  | 0x7c => return (.bar, q + 1)
  | 0x28 => return (.lparen, q + 1)
  | 0x29 => return (.rparen, q + 1)
  | 0x3b => return (.semi, q + 1)
  | 0x26 => return (.amp, q + 1)
  | 0x3c => return (.less, q + 1)
  | 0x3e => do
    let c ← deref s (q + 1)
    return if c = 0x3e then (.append, q + 2) else (.greater, q + 1)
  | _ => do
    let eq ← scan s isWord q
    return (.word, eq)

def gettoken : Parser (Tok × Span) := do
  let i ← Code.get
  let q ← scan s isSpace i
  let token ← tokenAt s q
  let j ← scan s isSpace token.2
  moveTo s j
  return (token.1, ⟨q, token.2⟩)

def peek (toks : List Byte) : Parser Bool := do
  let i ← Code.get
  let j ← scan s isSpace i
  moveTo s j
  let c ← deref s j
  return c != 0 && toks.contains c

def parseredirs : Nat → List (Redir Span) → Parser (List (Redir Span))
  | 0, _ => Code.stop (.stop .fuel)
  | n + 1, rs => do
    if ← peek s angles then
      let (tok, _) ← gettoken s
      let (file, w) ← gettoken s
      if file ≠ .word then Code.stop (.stop (.panic "missing file for redirection"))
      else match tok with
        | .less => parseredirs n (rs ++ [⟨w, oRdonly, 0⟩])
        | .greater => parseredirs n (rs ++ [⟨w, oWronlyCreate, 1⟩])
        | .append => parseredirs n (rs ++ [⟨w, oWronlyCreate, 1⟩])
        | _ => parseredirs n rs
    else return rs

/-- The loop of `parseexec`, and the zeros behind the words. -/
def parseargs : Nat → List Span → List (Redir Span) → Parser (Cmd Span)
  | 0, _, _ => Code.stop (.stop .fuel)
  | n + 1, argv, rs => do
    if ← peek s enders then
      inArgv argv.length
      return redircmds (.exec argv) rs
    else
      let (tok, w) ← gettoken s
      if tok = .eof then
        inArgv argv.length
        return redircmds (.exec argv) rs
      else if tok ≠ .word then Code.stop (.stop (.panic "syntax"))
      else
        inArgv argv.length
        if (argv ++ [w]).length ≥ maxargs then Code.stop (.stop (.panic "too many args"))
        else
          let rs ← parseredirs s n rs
          parseargs n (argv ++ [w]) rs

def parsebacks : Nat → Cmd Span → Parser (Cmd Span)
  | 0, _ => Code.stop (.stop .fuel)
  | n + 1, cmd => do
    if ← peek s amps then
      let _ ← gettoken s
      parsebacks n (.back cmd)
    else return cmd

mutual

def parseline : Nat → Parser (Cmd Span)
  | 0 => Code.stop (.stop .fuel)
  | n + 1 => do
    let cmd ← parsepipe n
    let cmd ← parsebacks s n cmd
    if ← peek s semis then
      let _ ← gettoken s
      let right ← parseline n
      return .list cmd right
    else return cmd
termination_by structural n => n

def parsepipe : Nat → Parser (Cmd Span)
  | 0 => Code.stop (.stop .fuel)
  | n + 1 => do
    let cmd ← parseexec n
    if ← peek s bars then
      let _ ← gettoken s
      let right ← parsepipe n
      return .pipe cmd right
    else return cmd
termination_by structural n => n

def parseblock : Nat → Parser (Cmd Span)
  | 0 => Code.stop (.stop .fuel)
  | n + 1 => do
    if !(← peek s lparens) then Code.stop (.stop (.panic "parseblock"))
    else
      let _ ← gettoken s
      let cmd ← parseline n
      if !(← peek s rparens) then Code.stop (.stop (.panic "syntax - missing )"))
      else
        let _ ← gettoken s
        let rs ← parseredirs s n []
        return redircmds cmd rs
termination_by structural n => n

def parseexec : Nat → Parser (Cmd Span)
  | 0 => Code.stop (.stop .fuel)
  | n + 1 => do
    if ← peek s lparens then parseblock n
    else
      let rs ← parseredirs s n []
      parseargs s n [] rs
termination_by structural n => n

end

/-- `for(i=0; ecmd->argv[i]; i++) *ecmd->eargv[i] = 0` from an index on. -/
def terminate : Nat → List Span → Mem → Parser Mem
  | i, [], m => do
    inArgv i
    return m
  | i, w :: ws, m => do
    inArgv i
    inLine s w.eq
    terminate (i + 1) ws (Function.update m w.eq 0)

def nulterminate : Cmd Span → Mem → Parser Mem
  | .exec argv, m => terminate s 0 argv m
  | .redir cmd r, m => do
    let m ← nulterminate cmd m
    inLine s r.file.eq
    return Function.update m r.file.eq 0
  | .pipe left right, m => do
    let m ← nulterminate left m
    nulterminate right m
  | .list left right, m => do
    let m ← nulterminate left m
    nulterminate right m
  | .back cmd, m => nulterminate cmd m

end

def parsecmd (l : Line) : Parser (Cmd Span × Mem) := do
  let cmd ← parseline l.bytes (4 * l.bytes.length + 4)
  let _ ← peek l.bytes []
  let i ← Code.get
  if i ≠ l.bytes.length then Code.stop (.stop (.panic "syntax"))
  else
    let m ← nulterminate l.bytes cmd (charAt l.bytes)
    return (cmd, m)

/-! ## Positions -/

variable {s : List Byte} {i q n : Nat}

theorem scan_le (p : Byte → Bool) (h : i ≤ s.length) : Sh.scan s p i ≤ s.length := by
  have hle := (List.takeWhile_sublist p (l := s.drop i)).length_le
  rw [List.length_drop] at hle
  simp only [Sh.scan]
  omega

theorem lt_of_charAt (h : charAt s i ≠ 0) : i < s.length := by
  by_contra hle
  exact h (charAt_of_drop_nil (List.drop_eq_nil_iff.2 (Nat.le_of_not_lt hle)))

theorem tokenAt_le (h : q ≤ s.length) : (Sh.tokenAt s q).2 ≤ s.length := by
  unfold Sh.tokenAt
  split <;> rename_i hc
  case h_1 => exact h
  case h_8 =>
    split
    · rename_i hc'
      exact lt_of_charAt (s := s) (i := q + 1) (by rw [hc']; decide)
    · exact lt_of_charAt (by rw [hc]; decide)
  case h_9 => exact scan_le isWord h
  all_goals exact lt_of_charAt (by rw [hc]; decide)

/-! ## Checks that pass -/

theorem pure_then {α β : Type} (a : α) (f : α → Parser β) : (pure a >>= f) = f a := rfl

theorem inLine_eq (h : i ≤ s.length) : inLine s i = pure () := if_pos h

theorem inArgv_eq {k : Nat} (h : k < maxargs) : inArgv k = pure () := if_pos h

theorem deref_eq (h : i ≤ s.length) : deref s i = pure (charAt s i) := by
  rw [deref, inLine_eq h]
  rfl

theorem moveTo_eq (h : i ≤ s.length) : moveTo s i = Code.modify fun _ => i := by
  rw [moveTo, inLine_eq h]
  rfl

theorem skip_eq (p : Byte → Bool) (h : i + n = s.length) : skip s p n i = pure (Sh.scan s p i) := by
  induction n generalizing i with
  | zero =>
    rw [skip, Sh.scan, List.drop_eq_nil_iff.2 (by omega)]
    rfl
  | succ n ih =>
    have hlt : i < s.length := by omega
    have hdrop := List.drop_eq_getElem_cons hlt
    rw [skip, deref_eq (Nat.le_of_lt hlt), charAt_of_drop hdrop, pure_then, Sh.scan, hdrop, List.takeWhile_cons]
    split
    · rw [ih (by omega), Sh.scan, List.length_cons]
      congr 1
      omega
    · rfl

theorem scan_eq (p : Byte → Bool) (h : i ≤ s.length) : scan s p i = pure (Sh.scan s p i) :=
  skip_eq p (Nat.add_sub_cancel' h)

theorem tokenAt_eq (h : q ≤ s.length) : tokenAt s q = pure (Sh.tokenAt s q) := by
  rw [tokenAt, deref_eq h, pure_then]
  split
  case h_8 hc =>
    rw [deref_eq (lt_of_charAt (by rw [hc]; decide)), Sh.tokenAt, hc]
    rfl
  case h_9 =>
    rw [scan_eq isWord h]
    unfold Sh.tokenAt
    split
    case h_9 => rfl
    all_goals contradiction
  all_goals
    rename_i hc
    rw [Sh.tokenAt, hc]
    rfl

/-! ## Agreement -/

variable {α β : Type}

def Agrees (s : List Byte) (c : Parser α) (m : Sh.Parser α) : Prop :=
  ∀ i ≤ s.length, c i = (m i).mapError .stop ∧ Ends (fun _ => True) m (fun _ j => j ≤ s.length) i

theorem agrees_pure (a : α) : Agrees s (pure a) (pure a) := fun _ hi => ⟨rfl, ends_pure hi⟩

theorem agrees_stop (e : Stop) : Agrees (α := α) s (Code.stop (.stop e)) (Code.stop e) :=
  fun _ _ => ⟨rfl, ends_stop trivial⟩

theorem Agrees.bind {c : Parser α} {m : Sh.Parser α} {f : α → Parser β} {g : α → Sh.Parser β} (h : Agrees s c m)
    (hf : ∀ a, Agrees s (f a) (g a)) : Agrees s (c >>= f) (m >>= g) := by
  intro i hi
  obtain ⟨heq, hends⟩ := h i hi
  refine ⟨?_, hends.bind fun a j hj => (hf a j hj).2⟩
  change Code.andThen c f i = (Code.andThen m g i).mapError .stop
  unfold Code.andThen
  rw [heq]
  cases hm : m i with
  | error e => rfl
  | ok r => exact (hf r.1 r.2 (hends.of_ok hm)).1

theorem agrees_ite {p : Prop} [Decidable p] {c d : Parser α} {m n : Sh.Parser α} (hc : p → Agrees s c m)
    (hd : ¬p → Agrees s d n) : Agrees s (if p then c else d) (if p then m else n) := by
  split
  · exact hc (by assumption)
  · exact hd (by assumption)

theorem agrees_gettoken : Agrees s (gettoken s) (Sh.gettoken s) := by
  intro i hi
  have hq := scan_le isSpace hi
  have heq := tokenAt_le hq
  have hj := scan_le isSpace heq
  refine ⟨?_, ends_get_bind (ends_modify_bind (ends_pure hj))⟩
  change (scan s isSpace i >>= _) i = _
  rw [scan_eq isSpace hi, pure_then, tokenAt_eq hq, pure_then, scan_eq isSpace heq, pure_then, moveTo_eq hj]
  rfl

theorem agrees_peek (set : List Byte) : Agrees s (peek s set) (Sh.peek s set) := by
  intro i hi
  have hj := scan_le isSpace hi
  refine ⟨?_, ends_modify_bind (ends_get_bind (ends_pure hj))⟩
  change (scan s isSpace i >>= _) i = _
  rw [scan_eq isSpace hi, pure_then, moveTo_eq hj, deref_eq hj]
  rfl

theorem agrees_parseredirs (rs : List (Redir Span)) : Agrees s (parseredirs s n rs) (Sh.parseredirs s n rs) := by
  induction n generalizing rs with
  | zero => exact agrees_stop _
  | succ n ih =>
    refine (agrees_peek _).bind fun _ => agrees_ite (fun _ => ?_) fun _ => agrees_pure _
    refine agrees_gettoken.bind fun ⟨tok, _⟩ => agrees_gettoken.bind fun ⟨_, _⟩ =>
      agrees_ite (fun _ => agrees_stop _) fun _ => ?_
    cases tok <;> exact ih _

theorem agrees_parseargs (argv : List Span) (rs : List (Redir Span)) (hroom : argv.length < maxargs) :
    Agrees s (parseargs s n argv rs) (Sh.parseargs s n argv rs) := by
  induction n generalizing argv rs with
  | zero => exact agrees_stop _
  | succ n ih =>
    rw [parseargs, Sh.parseargs, inArgv_eq hroom]
    refine (agrees_peek _).bind fun _ => agrees_ite (fun _ => agrees_pure _) fun _ => ?_
    refine agrees_gettoken.bind fun ⟨_, w⟩ => agrees_ite (fun _ => agrees_pure _) fun _ =>
      agrees_ite (fun _ => agrees_stop _) fun _ => ?_
    refine agrees_ite (fun _ => agrees_stop _) fun hfew => ?_
    exact (agrees_parseredirs rs).bind fun rs => ih _ rs (Nat.lt_of_not_le hfew)

theorem agrees_parsebacks (cmd : Cmd Span) : Agrees s (parsebacks s n cmd) (Sh.parsebacks s n cmd) := by
  induction n generalizing cmd with
  | zero => exact agrees_stop _
  | succ n ih =>
    refine (agrees_peek _).bind fun _ => agrees_ite (fun _ => ?_) fun _ => agrees_pure _
    exact agrees_gettoken.bind fun _ => ih _

theorem agrees_parse (n : Nat) :
    Agrees s (parseline s n) (Sh.parseline s n) ∧ Agrees s (parsepipe s n) (Sh.parsepipe s n) ∧
    Agrees s (parseexec s n) (Sh.parseexec s n) ∧ Agrees s (parseblock s n) (Sh.parseblock s n) := by
  induction n with
  | zero =>
    rw [parseline, parsepipe, parseexec, parseblock, Sh.parseline, Sh.parsepipe, Sh.parseexec, Sh.parseblock]
    exact ⟨agrees_stop _, agrees_stop _, agrees_stop _, agrees_stop _⟩
  | succ n ih =>
    obtain ⟨hline, hpipe, hexec, hblock⟩ := ih
    rw [parseline, parsepipe, parseexec, parseblock, Sh.parseline, Sh.parsepipe, Sh.parseexec, Sh.parseblock]
    refine ⟨?_, ?_, ?_, ?_⟩
    · refine hpipe.bind fun cmd => (agrees_parsebacks cmd).bind fun _ => (agrees_peek _).bind fun _ =>
        agrees_ite (fun _ => ?_) fun _ => agrees_pure _
      exact agrees_gettoken.bind fun _ => hline.bind fun _ => agrees_pure _
    · refine hexec.bind fun _ => (agrees_peek _).bind fun _ => agrees_ite (fun _ => ?_) fun _ => agrees_pure _
      exact agrees_gettoken.bind fun _ => hpipe.bind fun _ => agrees_pure _
    · refine (agrees_peek _).bind fun _ => agrees_ite (fun _ => hblock) fun _ => ?_
      exact (agrees_parseredirs _).bind fun rs => agrees_parseargs _ rs (by decide)
    · refine (agrees_peek _).bind fun _ => agrees_ite (fun _ => agrees_stop _) fun _ => ?_
      refine agrees_gettoken.bind fun _ => hline.bind fun _ => (agrees_peek _).bind fun _ =>
        agrees_ite (fun _ => agrees_stop _) fun _ => ?_
      exact agrees_gettoken.bind fun _ => (agrees_parseredirs _).bind fun _ => agrees_pure _

end Xv6.Sh.Checked
