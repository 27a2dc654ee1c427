import Xv6.Sh.Bounds
import Xv6.Sh.Complete

/-!
# `parsecmd`

A line is accepted if and only if the grammar derives its tokens.
-/

open Function Xv6.Bytes Xv6.Code

namespace Xv6.Sh

variable {s : List Byte} {l : Line} {i q n : Nat}

/-! ## The end of the line -/

theorem ends_peek_pos {E : Stop → Prop} {Q : Bool → Nat → Prop} {set : List Byte}
    (h : ∀ b, Q b (scan s isSpace i)) : Ends E (peek s set) Q i :=
  ends_modify_bind (ends_get_bind (ends_pure (h _)))

theorem lex_length_le (cs : List Byte) : (lex cs).length ≤ cs.length := by
  fun_induction lex cs with
  | case1 => exact Nat.le_refl _
  | case2 c cs _ ih => exact Nat.le_succ_of_le ih
  | case3 c cs _ ih => exact Nat.succ_le_succ (ih.trans (token_length_le c cs))

/-! ## The words in memory -/

theorem nulterminate_eq (cmd : Cmd Span) (m : Mem) :
    nulterminate cmd m = cmd.words.foldl (fun m w => update m w.eq 0) m := by
  induction cmd generalizing m with
  | exec argv => rfl
  | redir cmd r ih => rw [nulterminate, ih, Cmd.words, List.foldl_append, List.foldl_cons, List.foldl_nil]
  | pipe left right ihl ihr => rw [nulterminate, ihl, ihr, Cmd.words, List.foldl_append]
  | list left right ihl ihr => rw [nulterminate, ihl, ihr, Cmd.words, List.foldl_append]
  | back cmd ih => rw [nulterminate, ih, Cmd.words]

theorem foldl_update_eq (ws : List Span) (m : Mem) (a : Nat) :
    ws.foldl (fun m w => update m w.eq 0) m a = if a ∈ ws.map Span.eq then 0 else m a := by
  induction ws generalizing m with
  | nil => simp
  | cons w ws ih =>
    rw [List.foldl_cons, ih, List.map_cons]
    by_cases hmem : a ∈ ws.map Span.eq
    · rw [if_pos hmem, if_pos (List.mem_cons_of_mem _ hmem)]
    · rw [if_neg hmem]
      by_cases heq : a = w.eq
      · rw [heq, update_self, if_pos List.mem_cons_self]
      · rw [update_of_ne heq, if_neg (by simp [heq, hmem])]

def cstring (len : Nat) (m : Mem) (q : Nat) : List Byte := ((List.range' q (len - q)).map m).takeWhile (· != 0)

theorem text_eq_map (w : Span) (hle : w.eq ≤ s.length) :
    text s w = (List.range' w.q (w.eq - w.q)).map (charAt s) := by
  refine List.ext_getElem? fun k => ?_
  rw [text, List.getElem?_take, List.getElem?_map]
  by_cases hk : k < w.eq - w.q
  · rw [if_pos hk, List.getElem?_range' hk, List.getElem?_drop, Option.map_some, Nat.one_mul, charAt,
      List.getD_eq_getElem?_getD, List.getElem?_eq_getElem (by omega), Option.getD_some]
  · rw [if_neg hk, List.getElem?_eq_none (by simpa using hk), Option.map_none]

theorem cstring_nulterminate {cmd : Cmd Span} (hall : ∀ w ∈ cmd.words, WordAt l.bytes w) {w : Span}
    (hw : w ∈ cmd.words) :
    cstring l.bytes.length (nulterminate cmd (charAt l.bytes)) w.q = text l.bytes w := by
  have hat := hall w hw
  have hmem : ∀ a, nulterminate cmd (charAt l.bytes) a =
      if a ∈ cmd.words.map Span.eq then 0 else charAt l.bytes a := by
    intro a
    rw [nulterminate_eq, foldl_update_eq]
  -- no word ends inside of another one
  have hin : ∀ k ∈ List.range' w.q (w.eq - w.q), nulterminate cmd (charAt l.bytes) k = charAt l.bytes k := by
    intro k hk
    rw [List.mem_range'_1] at hk
    have hlt := hat.lt
    have hle := hat.le
    rw [hmem, if_neg fun hend => ?_]
    obtain ⟨v, hv, rfl⟩ := List.mem_map.1 hend
    obtain heq | hno := (hall v hv).ends
    · omega
    · rw [hat.inside v.eq hk.1 (by omega)] at hno
      cases hno
  have hnonzero : ∀ c ∈ text l.bytes w, (c != 0) = true := by
    intro c hc
    exact bne_iff_ne.2 (l.nonzero c (List.mem_of_mem_drop (List.mem_of_mem_take hc)))
  have hsplit : List.range' w.q (l.bytes.length - w.q) =
      List.range' w.q (w.eq - w.q) ++ List.range' w.eq (l.bytes.length - w.eq) := by
    have hlt := hat.lt
    have hle := hat.le
    rw [show l.bytes.length - w.q = (w.eq - w.q) + (l.bytes.length - w.eq) by omega, ← List.range'_append_1,
      Nat.add_sub_cancel' (Nat.le_of_lt hlt)]
  rw [cstring, hsplit, List.map_append, List.map_congr_left hin, ← text_eq_map w hat.le,
    List.takeWhile_append_of_pos hnonzero]
  -- and behind the word there is a NUL or the end of the line
  have hrest : ((List.range' w.eq (l.bytes.length - w.eq)).map (nulterminate cmd (charAt l.bytes))).takeWhile (· != 0) =
      [] := by
    cases hd : l.bytes.length - w.eq with
    | zero => rfl
    | succ d =>
      have hnul : nulterminate cmd (charAt l.bytes) w.eq = 0 := by
        rw [hmem, if_pos (List.mem_map_of_mem hw)]
      rw [List.range'_succ, List.map_cons, hnul]
      rfl
  rw [hrest, List.append_nil]

/-! ## The whole line -/

theorem parsecmd_sound (l : Line) : Ends Panics (parsecmd l) (fun r _ =>
    Derives .line (lex l.bytes) (r.1.map (text l.bytes)) ∧ (∀ w ∈ r.1.words, WordAt l.bytes w) ∧
      r.2 = nulterminate r.1 (charAt l.bytes)) 0 := by
  have hlen : (toks l.bytes 0).length ≤ l.bytes.length := lex_length_le l.bytes
  rw [parsecmd]
  refine ((parse_sound (4 * l.bytes.length + 4)).1 0 (by omega)).bind ?_
  rintro cmd j ⟨ts, htook, hder, hall⟩
  refine ends_bind.mpr (ends_peek (fun c hc => nomatch hc) fun j₁ hj₁ => ends_get_bind ?_)
  refine ends_ite (fun _ => ends_stop (panics_panic _)) fun hend => ends_pure ⟨?_, hall, rfl⟩
  have hnil : toks l.bytes j = [] := by
    rw [← hj₁, not_not.1 hend, toks, List.drop_length, lex]
  have hall : lex l.bytes = ts := by
    have htook' : lex l.bytes = ts ++ toks l.bytes j := htook
    rw [htook', hnil, List.append_nil]
  rwa [hall]

theorem parsecmd_complete (l : Line) {c : Cmd (List Byte)} (h : Derives .line (lex l.bytes) c) :
    Ends Never (parsecmd l) (fun r _ => r.1.map (text l.bytes) = c) 0 := by
  have hlen := lex_length_le l.bytes
  have hline : Ends Never (parseline l.bytes (4 * l.bytes.length + 4)) (fun cmd j =>
      (toks l.bytes j = [] ∧ cmd.map (text l.bytes) = c) ∧ j ≤ l.bytes.length) 0 := by
    have hparse := parse_complete (l := l) (i := 0) (n := 4 * l.bytes.length + 4) h (.inl rfl)
      (by rw [List.append_nil]; rfl) (by simp only [Nt.turns]; omega)
    exact Ends.and hparse ((Checked.agrees_parse _).1 0 (Nat.zero_le _)).2
  rw [parsecmd]
  refine hline.bind ?_
  rintro cmd j ⟨⟨hnil, hcmd⟩, hj⟩
  refine ends_bind.mpr (ends_peek_pos fun _ => ends_get_bind ?_)
  exact ends_ite (fun hne => absurd (scan_of_toks_nil hnil hj) hne) fun _ => ends_pure hcmd

/-- `parsecmd` returns the tree that the grammar derives from the line, and panics if there is none. -/
theorem parsecmd_iff (l : Line) :
    (∀ c, (∃ cmd m j, parsecmd l 0 = .ok ((cmd, m), j) ∧ cmd.map (fun w => cstring l.bytes.length m w.q) = c) ↔
      Derives .line (lex l.bytes) c) ∧
    ((∃ msg, parsecmd l 0 = .error (.panic msg)) ↔ ¬ ∃ c, Derives .line (lex l.bytes) c) := by
  have hok : ∀ {cmd m j}, parsecmd l 0 = .ok ((cmd, m), j) →
      cmd.map (fun w => cstring l.bytes.length m w.q) = cmd.map (text l.bytes) ∧
      Derives .line (lex l.bytes) (cmd.map (text l.bytes)) := by
    intro cmd m j heq
    obtain ⟨hder, hall, hm⟩ := (parsecmd_sound l).of_ok heq
    refine ⟨map_congr_words fun w hw => ?_, hder⟩
    rw [show m = nulterminate cmd (charAt l.bytes) from hm]
    exact cstring_nulterminate hall hw
  refine ⟨fun c => ⟨?_, fun hder => ?_⟩, ?_, fun hno => ?_⟩
  · rintro ⟨cmd, m, j, heq, rfl⟩
    rw [(hok heq).1]
    exact (hok heq).2
  · cases heq : parsecmd l 0 with
    | error e => exact ((parsecmd_complete l hder).of_error heq).elim
    | ok r =>
      obtain ⟨⟨cmd, m⟩, j⟩ := r
      refine ⟨cmd, m, j, rfl, ?_⟩
      rw [(hok heq).1]
      exact (parsecmd_complete l hder).of_ok heq
  · rintro ⟨msg, heq⟩ ⟨c, hder⟩
    exact (parsecmd_complete l hder).of_error heq
  · cases heq : parsecmd l 0 with
    | ok r =>
      obtain ⟨⟨cmd, m⟩, j⟩ := r
      exact absurd ⟨_, (hok heq).2⟩ hno
    | error e =>
      have hpanics := (parsecmd_sound l).of_error heq
      cases e with
      | panic msg => exact ⟨msg, rfl⟩
      | fuel => exact absurd rfl hpanics

/-! ## In bounds -/

def Cmd.Few {W : Type} : Cmd W → Prop
  | .exec argv => argv.length < maxargs
  | .redir cmd _ => cmd.Few
  | .pipe left right => left.Few ∧ right.Few
  | .list left right => left.Few ∧ right.Few
  | .back cmd => cmd.Few

theorem few_map {V W : Type} (f : V → W) (cmd : Cmd V) : (cmd.map f).Few ↔ cmd.Few := by
  induction cmd with
  | exec argv => simp only [Cmd.map, Cmd.Few, List.length_map]
  | redir cmd r ih => exact ih
  | pipe left right ihl ihr => exact and_congr ihl ihr
  | list left right ihl ihr => exact and_congr ihl ihr
  | back cmd ih => exact ih

theorem few_redircmds {W : Type} {cmd : Cmd W} (h : cmd.Few) (rs : List (Redir W)) : (redircmds cmd rs).Few := by
  induction rs generalizing cmd with
  | nil => exact h
  | cons r rs ih => exact ih (show (Cmd.redir cmd r).Few from h)

theorem few_backs {W : Type} {cmd : Cmd W} (h : cmd.Few) (k : Nat) : (backs cmd k).Few := by
  induction k generalizing cmd with
  | zero => exact h
  | succ k ih => exact ih (show (Cmd.back cmd).Few from h)

theorem Derives.few {nt : Nt} {ts : List Token} {c : Cmd (List Byte)} (h : Derives nt ts c) : c.Few := by
  induction h with
  | line k _ ih => exact few_backs ih k
  | list k _ _ ihl ihr => exact ⟨few_backs ihl k, ihr⟩
  | single _ ih => exact ih
  | pipe _ _ ihl ihr => exact ⟨ihl, ihr⟩
  | block _ _ ih => exact few_redircmds ih _
  | simple _ few => exact few_redircmds (show (Cmd.exec _).Few from Nat.lt_succ_of_le few) _

namespace Checked

theorem terminate_eq {ws : List Span} {k : Nat} (hroom : k + ws.length < maxargs) (hin : ∀ w ∈ ws, w.eq ≤ s.length)
    (m : Mem) : terminate s k ws m = pure (ws.foldl (fun m w => update m w.eq 0) m) := by
  induction ws generalizing k m with
  | nil =>
    rw [terminate, inArgv_eq (show k < maxargs from hroom)]
    rfl
  | cons w ws ih =>
    rw [List.length_cons] at hroom
    rw [terminate, inArgv_eq (by omega), pure_then, inLine_eq (hin w List.mem_cons_self), pure_then,
      ih (by omega) fun v hv => hin v (List.mem_cons_of_mem _ hv)]
    rfl

theorem nulterminate_checked {cmd : Cmd Span} (hfew : cmd.Few) (hin : ∀ w ∈ cmd.words, w.eq ≤ s.length) (m : Mem) :
    nulterminate s cmd m = pure (Sh.nulterminate cmd m) := by
  have hleft : ∀ {left right : List Span}, (∀ w ∈ left ++ right, w.eq ≤ s.length) → ∀ w ∈ left, w.eq ≤ s.length :=
    fun h w hw => h w (List.mem_append_left _ hw)
  have hright : ∀ {left right : List Span}, (∀ w ∈ left ++ right, w.eq ≤ s.length) → ∀ w ∈ right, w.eq ≤ s.length :=
    fun h w hw => h w (List.mem_append_right _ hw)
  induction cmd generalizing m with
  | exec argv => exact terminate_eq (by rw [Nat.zero_add]; exact hfew) hin m
  | redir cmd r ih =>
    rw [nulterminate, ih hfew (hleft hin), pure_then, inLine_eq (hright hin r.file List.mem_cons_self)]
    rfl
  | pipe left right ihl ihr =>
    rw [nulterminate, ihl hfew.1 (hleft hin), pure_then, ihr hfew.2 (hright hin)]
    rfl
  | list left right ihl ihr =>
    rw [nulterminate, ihl hfew.1 (hleft hin), pure_then, ihr hfew.2 (hright hin)]
    rfl
  | back cmd ih => exact ih hfew hin m

theorem parsecmd_checked (l : Line) : parsecmd l 0 = (Sh.parsecmd l 0).mapError .stop := by
  obtain ⟨hline, hends⟩ := (agrees_parse (s := l.bytes) (4 * l.bytes.length + 4)).1 0 (Nat.zero_le _)
  have hsound := (parse_sound (l := l) (4 * l.bytes.length + 4)).1 0 (by
    have hlen : (toks l.bytes 0).length ≤ l.bytes.length := lex_length_le l.bytes
    omega)
  change Code.andThen (parseline l.bytes _) _ 0 = (Code.andThen (Sh.parseline l.bytes _) _ 0).mapError .stop
  unfold Code.andThen
  rw [hline]
  cases hrun : Sh.parseline l.bytes (4 * l.bytes.length + 4) 0 with
  | error e => rfl
  | ok r =>
    obtain ⟨cmd, j⟩ := r
    obtain ⟨ts, -, hder, hall⟩ := hsound.of_ok hrun
    have hnul := nulterminate_checked ((few_map _ cmd).mp hder.few) (fun w hw => (hall w hw).le) (charAt l.bytes)
    refine (Agrees.bind (agrees_peek _) fun _ => ?_) j (hends.of_ok hrun) |>.1
    intro i hi
    refine ⟨?_, ends_get_bind (ends_ite (fun _ => ends_stop trivial) fun _ => ends_pure hi)⟩
    change (if i ≠ l.bytes.length then _ else (nulterminate l.bytes cmd (charAt l.bytes) >>= _)) i = _
    rw [hnul]
    exact (agrees_ite (s := l.bytes) (fun _ => agrees_stop _) (fun _ => agrees_pure _) i hi).1

end Checked

/-- No check of the parser fails: it panics, or returns a command whose words, read as C strings, are those of the
line. -/
theorem parsecmd_in_bounds (l : Line) :
    (∃ msg, Checked.parsecmd l 0 = .error (.stop (.panic msg))) ∨
    ∃ cmd m j, Checked.parsecmd l 0 = .ok ((cmd, m), j) ∧
      Derives .line (lex l.bytes) (cmd.map (text l.bytes)) ∧
      ∀ w ∈ cmd.words, WordAt l.bytes w ∧ cstring l.bytes.length m w.q = text l.bytes w := by
  rw [Checked.parsecmd_checked]
  cases hrun : parsecmd l 0 with
  | error e =>
    cases e with
    | panic msg => exact .inl ⟨msg, rfl⟩
    | fuel => exact absurd rfl ((parsecmd_sound l).of_error hrun)
  | ok r =>
    obtain ⟨⟨cmd, m⟩, j⟩ := r
    obtain ⟨hder, hall, hm⟩ := (parsecmd_sound l).of_ok hrun
    refine .inr ⟨cmd, m, j, rfl, hder, fun w hw => ⟨hall w hw, ?_⟩⟩
    rw [show m = nulterminate cmd (charAt l.bytes) from hm]
    exact cstring_nulterminate hall hw

-- `a>b`: the NUL behind `a` is written where the symbol was
example : Code.returned (parsecmd ⟨[0x61, 0x3e, 0x62], by decide⟩) 0 (fun r _ => r.1.map fun w => cstring 3 r.2 w.q) =
    some (.redir (.exec [[0x61]]) ⟨[0x62], oWronlyCreate, 1⟩) := by decide

end Xv6.Sh
