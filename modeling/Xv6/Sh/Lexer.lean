import Mathlib.Data.List.TakeWhile
import Xv6.Sh.Grammar

/-!
# `peek` and `gettoken`

What is left of the line is a list of tokens. `peek` looks at the first one and `gettoken` takes it.
-/

open Xv6.Bytes Xv6.Code

namespace Xv6.Sh

def toks (s : List Byte) (i : Nat) : List Token := lex (s.drop i)

def text (s : List Byte) (w : Span) : List Byte := (s.drop w.q).take (w.eq - w.q)

structure WordAt (s : List Byte) (w : Span) : Prop where
  lt : w.q < w.eq
  le : w.eq ≤ s.length
  inside : ∀ k, w.q ≤ k → k < w.eq → isWord (charAt s k) = true
  ends : w.eq = s.length ∨ isWord (charAt s w.eq) = false

def Token.tok : Token → Tok
  | bar => .bar
  | lparen => .lparen
  | rparen => .rparen
  | semi => .semi
  | amp => .amp
  | less => .less
  | greater => .greater
  | append => .append
  | word _ => .word

def Token.Is (s : List Byte) (w : Span) : Token → Prop
  | word t => text s w = t ∧ WordAt s w
  | _ => True

def Token.among (set : List Byte) : Token → Bool
  | bar => set.contains 0x7c
  | lparen => set.contains 0x28
  | rparen => set.contains 0x29
  | semi => set.contains 0x3b
  | amp => set.contains 0x26
  | less => set.contains 0x3c
  | greater | append => set.contains 0x3e
  | word _ => false

def begins (set : List Byte) : List Token → Bool
  | [] => false
  | t :: _ => t.among set

variable {s : List Byte} {i q : Nat} {c : Byte} {cs : List Byte}

/-! ## Positions -/

theorem charAt_of_drop (h : s.drop i = c :: cs) : charAt s i = c := by
  have hget : s[i]? = some c := by rw [← List.head?_drop, h, List.head?_cons]
  rw [charAt, List.getD_eq_getElem?_getD, hget, Option.getD_some]

theorem charAt_of_drop_nil (h : s.drop i = []) : charAt s i = 0 := by
  have hget : s[i]? = none := by rw [← List.head?_drop, h, List.head?_nil]
  rw [charAt, List.getD_eq_getElem?_getD, hget, Option.getD_none]

theorem drop_succ_of_drop (h : s.drop i = c :: cs) : s.drop (i + 1) = cs := by
  rw [← List.drop_drop, h, List.drop_one, List.tail_cons]

theorem mem_of_drop (h : s.drop i = c :: cs) : c ∈ s :=
  List.mem_of_mem_drop (h ▸ List.mem_cons_self)

theorem cut_takeWhile (p : Byte → Bool) (l : List Byte) :
    l.take (l.takeWhile p).length = l.takeWhile p ∧ l.drop (l.takeWhile p).length = l.dropWhile p := by
  have hsplit : l.takeWhile p ++ l.dropWhile p = l := List.takeWhile_append_dropWhile
  constructor
  · exact (congrArg (List.take _) hsplit.symm).trans List.take_left
  · exact (congrArg (List.drop _) hsplit.symm).trans List.drop_left

theorem drop_scan (p : Byte → Bool) : s.drop (scan s p i) = (s.drop i).dropWhile p := by
  rw [scan, ← List.drop_drop]
  exact (cut_takeWhile p (s.drop i)).2

theorem lex_space (hc : isSpace c = true) : lex (c :: cs) = lex cs := by rw [lex, if_pos hc]

theorem lex_token (hc : isSpace c = false) : lex (c :: cs) = (token c cs).1 :: lex (token c cs).2 := by
  rw [lex, if_neg (by simp [hc])]

theorem lex_dropWhile (l : List Byte) : lex (l.dropWhile isSpace) = lex l := by
  induction l with
  | nil => rfl
  | cons c cs ih =>
    by_cases hc : isSpace c = true
    · rw [List.dropWhile_cons_of_pos hc, ih, lex_space hc]
    · rw [List.dropWhile_cons_of_neg hc]

theorem toks_scan : toks s (scan s isSpace i) = toks s i := by rw [toks, drop_scan, lex_dropWhile, toks]

theorem isSpace_of_drop_scan (h : s.drop (scan s isSpace i) = c :: cs) : isSpace c = false := by
  rw [drop_scan] at h
  have hhead := List.head?_dropWhile_not isSpace (s.drop i)
  rw [h, List.head?_cons] at hhead
  simpa using hhead

/-! ## Words -/

theorem wordAt_scan (h : s.drop q = c :: cs) (hc : isWord c = true) : WordAt s ⟨q, scan s isWord q⟩ := by
  have hlen := congrArg List.length h
  rw [List.length_drop, List.length_cons] at hlen
  have htake : (s.drop q).takeWhile isWord = c :: cs.takeWhile isWord := by rw [h, List.takeWhile_cons_of_pos hc]
  have hle := (List.takeWhile_sublist isWord (l := s.drop q)).length_le
  rw [List.length_drop] at hle
  refine ⟨?_, ?_, fun k hqk hk => ?_, ?_⟩
  · simp only [scan, htake, List.length_cons]
    omega
  · simp only [scan]
    omega
  · simp only [scan] at hqk hk
    have hlt : k - q < ((s.drop q).takeWhile isWord).length := by omega
    have hget : s[k]? = some ((s.drop q).takeWhile isWord)[k - q] := by
      have hsplit := List.takeWhile_append_dropWhile (p := isWord) (l := s.drop q)
      have hk' : (s.drop q)[k - q]? = some ((s.drop q).takeWhile isWord)[k - q] := by
        conv_lhs => rw [← hsplit]
        rw [List.getElem?_append_left hlt, List.getElem?_eq_getElem hlt]
      rwa [List.getElem?_drop, Nat.add_sub_cancel' hqk] at hk'
    rw [charAt, List.getD_eq_getElem?_getD, hget, Option.getD_some]
    exact List.mem_takeWhile_imp (List.getElem_mem hlt)
  · have hdrop := drop_scan (s := s) (i := q) isWord
    cases hrest : s.drop (scan s isWord q) with
    | nil =>
      left
      have := List.drop_eq_nil_iff.1 hrest
      simp only [scan] at this ⊢
      omega
    | cons d ds =>
      right
      rw [charAt_of_drop hrest]
      have hhead := List.head?_dropWhile_not isWord (s.drop q)
      rw [← hdrop, hrest, List.head?_cons] at hhead
      simpa using hhead

theorem text_scan : text s ⟨q, scan s isWord q⟩ = (s.drop q).takeWhile isWord := by
  have hlen : scan s isWord q - q = ((s.drop q).takeWhile isWord).length := by rw [scan, Nat.add_sub_cancel_left]
  rw [text, hlen]
  exact (cut_takeWhile isWord (s.drop q)).1

/-! ## Tokens -/

theorem isWord_of_ne (hc : isSpace c = false) (hsym : c ∉ symbols) : isWord c = true := by
  rw [isSpace] at hc
  rw [isWord, hc]
  simpa using hsym

theorem token_word (hsym : c ∉ symbols) : token c cs = (.word (c :: cs.takeWhile isWord), cs.dropWhile isWord) := by
  simp only [symbols, List.mem_cons, List.not_mem_nil, or_false, not_or] at hsym
  unfold token
  split <;> first | rfl | (exfalso; revert hsym; decide)

theorem tokenAt_word (h : charAt s q = c) (hzero : c ≠ 0) (hsym : c ∉ symbols) :
    tokenAt s q = (.word, scan s isWord q) := by
  simp only [symbols, List.mem_cons, List.not_mem_nil, or_false, not_or] at hsym
  unfold tokenAt
  rw [h]
  split <;> first | rfl | (exfalso; revert hsym; decide) | exact absurd rfl hzero

theorem tokenAt_spec (h : s.drop q = c :: cs) (hc : isSpace c = false) (hzero : c ≠ 0) :
    ∃ t, lex (c :: cs) = t :: toks s (tokenAt s q).2 ∧ (tokenAt s q).1 = t.tok ∧ t.Is s ⟨q, (tokenAt s q).2⟩ := by
  have hnext := drop_succ_of_drop h
  have hchar := charAt_of_drop h
  rw [lex_token hc]
  by_cases hsym : c ∈ symbols
  · have hone : ∀ t : Token, token c cs = (t, cs) → tokenAt s q = (t.tok, q + 1) → (∀ w, t.Is s w) →
        ∃ t, (token c cs).1 :: lex (token c cs).2 = t :: toks s (tokenAt s q).2 ∧ (tokenAt s q).1 = t.tok ∧
          t.Is s ⟨q, (tokenAt s q).2⟩ := by
      intro t ht htok his
      exact ⟨t, by rw [ht, htok, toks, hnext], by rw [htok], his _⟩
    simp only [symbols, List.mem_cons, List.not_mem_nil, or_false] at hsym
    obtain rfl | rfl | rfl | rfl | rfl | rfl | rfl := hsym
    · exact hone .less rfl (by unfold tokenAt; rw [hchar]; rfl) fun _ => trivial
    · exact hone .bar rfl (by unfold tokenAt; rw [hchar]; rfl) fun _ => trivial
    · -- one or two of them
      have htok : tokenAt s q = if charAt s (q + 1) = 0x3e then (.append, q + 2) else (.greater, q + 1) := by
        unfold tokenAt
        rw [hchar]
        rfl
      have htoken : token 0x3e cs = if cs.head? = some 0x3e then (.append, cs.tail) else (.greater, cs) := rfl
      have hiff : charAt s (q + 1) = 0x3e ↔ cs.head? = some 0x3e := by
        cases cs with
        | nil =>
          rw [charAt_of_drop_nil hnext]
          decide
        | cons d ds => rw [charAt_of_drop hnext, List.head?_cons, Option.some.injEq]
      by_cases htwo : cs.head? = some 0x3e
      · rw [if_pos htwo] at htoken
        rw [if_pos (hiff.2 htwo)] at htok
        refine ⟨.append, ?_, by rw [htok]; rfl, trivial⟩
        rw [htoken, htok, toks, ← hnext, List.tail_drop]
      · rw [if_neg htwo] at htoken
        rw [if_neg fun heq => htwo (hiff.1 heq)] at htok
        exact hone .greater htoken htok fun _ => trivial
    · exact hone .amp rfl (by unfold tokenAt; rw [hchar]; rfl) fun _ => trivial
    · exact hone .semi rfl (by unfold tokenAt; rw [hchar]; rfl) fun _ => trivial
    · exact hone .lparen rfl (by unfold tokenAt; rw [hchar]; rfl) fun _ => trivial
    · exact hone .rparen rfl (by unfold tokenAt; rw [hchar]; rfl) fun _ => trivial
  · have hword := isWord_of_ne hc hsym
    rw [token_word hsym, tokenAt_word hchar hzero hsym]
    refine ⟨.word (c :: cs.takeWhile isWord), ?_, rfl, ?_, wordAt_scan h hword⟩
    · rw [toks, drop_scan, h, List.dropWhile_cons_of_pos hword]
    · rw [text_scan, h, List.takeWhile_cons_of_pos hword]

variable {l : Line} {E : Stop → Prop}

theorem ends_gettoken {Q : Tok × Span → Nat → Prop}
    (hnil : toks l.bytes i = [] → ∀ w j, toks l.bytes j = [] → Q (.eof, w) j)
    (hcons : ∀ t ts, toks l.bytes i = t :: ts → ∀ w j, toks l.bytes j = ts → t.Is l.bytes w → Q (t.tok, w) j) :
    Ends E (gettoken l.bytes) Q i := by
  rw [gettoken]
  refine ends_get_bind (ends_modify_bind (ends_pure ?_))
  change Q ((tokenAt l.bytes (scan l.bytes isSpace i)).1, ⟨_, (tokenAt l.bytes (scan l.bytes isSpace i)).2⟩)
    (scan l.bytes isSpace (tokenAt l.bytes (scan l.bytes isSpace i)).2)
  rw [← toks_scan, toks] at hnil hcons
  cases hrest : l.bytes.drop (scan l.bytes isSpace i) with
  | nil =>
    have htok : tokenAt l.bytes (scan l.bytes isSpace i) = (.eof, scan l.bytes isSpace i) := by
      unfold tokenAt
      rw [charAt_of_drop_nil hrest]
      rfl
    rw [htok]
    refine hnil (by rw [hrest, lex]) _ _ ?_
    rw [toks_scan, toks, hrest, lex]
  | cons c cs =>
    have hspace := isSpace_of_drop_scan hrest
    obtain ⟨t, hlex, htok, his⟩ := tokenAt_spec hrest hspace (l.nonzero c (mem_of_drop hrest))
    rw [htok]
    exact hcons t _ (by rw [hrest, hlex]) _ _ toks_scan his

theorem ends_peek {Q : Bool → Nat → Prop} {set : List Byte} (hset : ∀ c ∈ set, c ∈ symbols)
    (h : ∀ j, toks l.bytes j = toks l.bytes i → Q (begins set (toks l.bytes i)) j) :
    Ends E (peek l.bytes set) Q i := by
  rw [peek]
  refine ends_modify_bind (ends_get_bind (ends_pure ?_))
  have hQ := h _ toks_scan
  suffices hb :
      (charAt l.bytes (scan l.bytes isSpace i) != 0 && set.contains (charAt l.bytes (scan l.bytes isSpace i))) =
      begins set (toks l.bytes i) by rwa [hb]
  rw [← toks_scan, toks]
  cases hrest : l.bytes.drop (scan l.bytes isSpace i) with
  | nil =>
    rw [charAt_of_drop_nil hrest, lex]
    rfl
  | cons c cs =>
    have hspace := isSpace_of_drop_scan hrest
    have hzero : (c != 0) = true := bne_iff_ne.2 (l.nonzero c (mem_of_drop hrest))
    rw [charAt_of_drop hrest, hzero, Bool.true_and, lex_token hspace, begins]
    by_cases hsym : c ∈ symbols
    · simp only [symbols, List.mem_cons, List.not_mem_nil, or_false] at hsym
      obtain rfl | rfl | rfl | rfl | rfl | rfl | rfl := hsym
      case inr.inr.inl =>
        change _ = (if cs.head? = some 0x3e then (Token.append, cs.tail) else (Token.greater, cs)).1.among set
        split <;> rfl
      all_goals rfl
    · -- a word starts with no symbol
      rw [token_word hsym]
      simpa [Token.among] using fun hmem => hsym (hset c hmem)

theorem angles_symbols : ∀ c ∈ angles, c ∈ symbols := by decide
theorem enders_symbols : ∀ c ∈ enders, c ∈ symbols := by decide
theorem amps_symbols : ∀ c ∈ amps, c ∈ symbols := by decide
theorem semis_symbols : ∀ c ∈ semis, c ∈ symbols := by decide
theorem bars_symbols : ∀ c ∈ bars, c ∈ symbols := by decide
theorem lparens_symbols : ∀ c ∈ lparens, c ∈ symbols := by decide
theorem rparens_symbols : ∀ c ∈ rparens, c ∈ symbols := by decide

theorem scan_of_toks_nil (h : toks s i = []) (hle : i ≤ s.length) : scan s isSpace i = s.length := by
  rw [← toks_scan, toks] at h
  have hle' := (List.takeWhile_sublist isSpace (l := s.drop i)).length_le
  rw [List.length_drop] at hle'
  cases hrest : s.drop (scan s isSpace i) with
  | nil =>
    have := List.drop_eq_nil_iff.1 hrest
    simp only [scan] at this ⊢
    omega
  | cons c cs =>
    rw [hrest, lex_token (isSpace_of_drop_scan hrest)] at h
    cases h

end Xv6.Sh
