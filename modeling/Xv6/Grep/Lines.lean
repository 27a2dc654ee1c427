import Xv6.Grep.Match

/-!
# How `grep` reads its input

The text arrives in pieces. `grep` keeps the start of a line that has not ended, but only behind a line that has.
-/

open Xv6.Bytes

namespace Xv6.Grep

def newline : Byte := 10

def bufsize : Nat := 1024

/-- `strchr`: what is before the first `c`, and what is behind it. -/
def strchr (c : Byte) : List Byte → Option (List Byte × List Byte)
  | [] => none
  | b :: s => if b = 0 then none else if b = c then some ([], s) else (strchr c s).map fun x => (b :: x.1, x.2)

theorem strchr_some {c : Byte} {p l r : List Byte} (h : strchr c p = some (l, r)) : p = l ++ c :: r ∧ c ∉ l := by
  induction p generalizing l with
  | nil => cases h
  | cons b p ih =>
    unfold strchr at h
    split at h
    · cases h
    · split at h
      · simp_all
      · obtain ⟨⟨l', r'⟩, hp, hx⟩ := Option.map_eq_some_iff.mp h
        cases hx
        obtain ⟨rfl, hl⟩ := ih hp
        exact ⟨rfl, fun hmem => (List.mem_cons.mp hmem).elim (fun he => absurd he.symm (by assumption)) hl⟩

theorem strchr_append {c : Byte} {l : List Byte} (r : List Byte) (hc : c ≠ 0) (hzero : 0 ∉ l) (hl : c ∉ l) :
    strchr c (l ++ c :: r) = some (l, r) := by
  induction l with
  | nil => rw [List.nil_append, strchr, if_neg hc, if_pos rfl]
  | cons b l ih =>
    rw [List.mem_cons, not_or] at hzero hl
    rw [List.cons_append, strchr, if_neg (Ne.symm hzero.1), if_neg (Ne.symm hl.1), ih hzero.2 hl.2]
    rfl

theorem strchr_none {c : Byte} {p : List Byte} (hzero : 0 ∉ p) : strchr c p = none ↔ c ∉ p := by
  induction p with
  | nil => simp [strchr]
  | cons b p ih =>
    rw [List.mem_cons, not_or] at hzero
    unfold strchr
    rw [if_neg (Ne.symm hzero.1)]
    split
    · simp_all
    · rename_i hb
      simp [ih hzero.2, Ne.symm hb]

def written (re p : List Byte) : List (List Byte) :=
  match _h : strchr newline p with
  | none => []
  | some (line, p') => if match_ re line then (line ++ [newline]) :: written re p' else written re p'
termination_by p.length
decreasing_by all_goals rw [(strchr_some _h).1]; simp; omega

/-- Where `p` is behind the inner loop. -/
def rest (p : List Byte) : List Byte :=
  match _h : strchr newline p with
  | none => p
  | some (_, p') => rest p'
termination_by p.length
decreasing_by rw [(strchr_some _h).1]; simp; omega

def kept (buf : List Byte) : List Byte := if (rest buf).length = buf.length then [] else rest buf

/-- `chunks` is what the calls of `read` return before the first 0. -/
def grep (re : List Byte) : List Byte → List (List Byte) → List (List Byte)
  | _, [] => []
  | buf, chunk :: chunks => written re (buf ++ chunk) ++ grep re (kept (buf ++ chunk)) chunks

def Reads : List Byte → List (List Byte) → Prop
  | _, [] => True
  | buf, chunk :: chunks =>
    0 < chunk.length ∧ chunk.length ≤ bufsize - buf.length - 1 ∧ Reads (kept (buf ++ chunk)) chunks

def text (lines : List (List Byte)) : List Byte := lines.flatMap (· ++ [newline])

def matching (re : List Byte) (lines : List (List Byte)) : List (List Byte) :=
  (lines.filter (match_ re)).map (· ++ [newline])

theorem written_none {re p : List Byte} (h : strchr newline p = none) : written re p = [] := by
  unfold written
  split <;> simp_all

theorem written_some {re p line p' : List Byte} (h : strchr newline p = some (line, p')) :
    written re p = if match_ re line then (line ++ [newline]) :: written re p' else written re p' := by
  rw [written]
  split <;> simp_all

theorem rest_none {p : List Byte} (h : strchr newline p = none) : rest p = p := by
  unfold rest
  split <;> simp_all

theorem rest_some {p line p' : List Byte} (h : strchr newline p = some (line, p')) : rest p = rest p' := by
  rw [rest]
  split <;> simp_all

theorem text_cons (l : List Byte) (lines : List (List Byte)) : text (l :: lines) = l ++ newline :: text lines := by
  simp [text]

def Clean (lines : List (List Byte)) : Prop := ∀ l ∈ lines, 0 ∉ l ∧ newline ∉ l

instance (lines : List (List Byte)) : Decidable (Clean lines) := inferInstanceAs (Decidable (∀ l ∈ lines, _))

theorem Clean.text {lines : List (List Byte)} (h : Clean lines) : 0 ∉ text lines := by
  intro hmem
  obtain ⟨l, hl, hmem⟩ := List.mem_flatMap.mp hmem
  rcases List.mem_append.mp hmem with hmem | hmem
  · exact (h l hl).1 hmem
  · exact absurd (List.mem_singleton.mp hmem) (by decide)

theorem rest_suffix (b : List Byte) : rest b <:+ b := by
  induction b using rest.induct with
  | case1 b hnone => rw [rest_none hnone]
  | case2 b l b' hsome ih =>
    rw [rest_some hsome, (strchr_some hsome).1]
    exact ih.trans (List.suffix_append_of_suffix (List.suffix_cons newline b'))

theorem not_mem_rest {b : List Byte} (hzero : 0 ∉ b) : newline ∉ rest b := by
  induction b using rest.induct with
  | case1 b hnone =>
    rw [rest_none hnone]
    exact (strchr_none hzero).mp hnone
  | case2 b l b' hsome ih =>
    rw [rest_some hsome]
    refine ih fun hmem => hzero ?_
    rw [(strchr_some hsome).1]
    exact List.mem_append_right _ (List.mem_cons_of_mem _ hmem)

theorem kept_of_mem {b : List Byte} (hzero : 0 ∉ b) (h : newline ∈ b) : kept b = rest b := by
  refine if_neg fun hlength => not_mem_rest hzero ?_
  rwa [(rest_suffix b).eq_of_length hlength]

theorem written_text {b tail : List Byte} {lines : List (List Byte)} (re : List Byte) (hclean : Clean lines)
    (h : b ++ tail = text lines) :
    ∃ done todo, lines = done ++ todo ∧ written re b = matching re done ∧ rest b ++ tail = text todo := by
  induction b using rest.induct generalizing lines with
  | case1 b hnone =>
    rw [written_none hnone, rest_none hnone]
    exact ⟨[], lines, rfl, rfl, h⟩
  | case2 b l b' hsome ih =>
    obtain ⟨hb, hl⟩ := strchr_some hsome
    rw [hb, List.append_assoc, List.cons_append] at h
    rw [written_some hsome, rest_some hsome]
    cases lines with
    | nil => simp [text] at h
    | cons l' lines =>
      have hzero : 0 ∉ l := fun hmem => hclean.text (h ▸ List.mem_append_left _ hmem)
      obtain ⟨⟨hzero', hl'⟩, hlines⟩ := List.forall_mem_cons.mp hclean
      -- both sides end their first line at the same place
      have hfirst := congrArg (strchr newline) h
      rw [text_cons, strchr_append _ (by decide) hzero hl, strchr_append _ (by decide) hzero' hl'] at hfirst
      obtain ⟨rfl, htail⟩ : l = l' ∧ b' ++ tail = text lines := by simpa using hfirst
      obtain ⟨done, todo, rfl, hwritten, hrest⟩ := ih hlines htail
      refine ⟨l :: done, todo, rfl, ?_, hrest⟩
      rw [hwritten]
      by_cases hm : match_ re l <;> simp [matching, hm]

theorem grep_matching {buf : List Byte} {chunks lines : List (List Byte)} (re : List Byte) (hclean : Clean lines)
    (hnew : ∀ c ∈ chunks, newline ∈ c) (hbuf : newline ∉ buf) (h : buf ++ chunks.flatten = text lines) :
    grep re buf chunks = matching re lines := by
  induction chunks generalizing buf lines with
  | nil =>
    cases lines with
    | nil => rfl
    | cons l lines =>
      rw [List.flatten_nil, List.append_nil] at h
      simp [h, text_cons] at hbuf
  | cons chunk chunks ih =>
    obtain ⟨hchunk, hnew⟩ := List.forall_mem_cons.mp hnew
    rw [List.flatten_cons, ← List.append_assoc] at h
    have hzero : 0 ∉ buf ++ chunk := fun hmem => hclean.text (h ▸ List.mem_append_left _ hmem)
    obtain ⟨done, todo, rfl, hwritten, hrest⟩ := written_text re hclean h
    rw [grep, hwritten, kept_of_mem hzero (List.mem_append_right _ hchunk),
      ih (fun l hl => hclean l (List.mem_append_right _ hl)) hnew (not_mem_rest hzero) hrest]
    simp [matching]

theorem match_nil (text : List Byte) : match_ [] text = true :=
  (matchAnywhere_iff [] text).mpr ⟨[], text, rfl, by rw [matchhere]⟩

theorem written_nil (b : List Byte) : (written [] b).flatten ++ rest b = b := by
  induction b using rest.induct with
  | case1 b hnone => rw [written_none hnone, rest_none hnone, List.flatten_nil, List.nil_append]
  | case2 b l b' hsome ih =>
    rw [written_some hsome, rest_some hsome, if_pos (match_nil l), List.flatten_cons, List.append_assoc, ih,
      List.append_assoc, List.singleton_append, ← (strchr_some hsome).1]

theorem kept_le (b : List Byte) : (written [] b).flatten.length + (kept b).length ≤ b.length := by
  have hlength := congrArg List.length (written_nil b)
  rw [List.length_append] at hlength
  unfold kept
  split
  · rw [List.length_nil]
    omega
  · omega

theorem grep_le (buf : List Byte) (chunks : List (List Byte)) :
    (grep [] buf chunks).flatten.length ≤ (buf ++ chunks.flatten).length := by
  induction chunks generalizing buf with
  | nil => simp [grep]
  | cons chunk chunks ih =>
    have hhead := kept_le (buf ++ chunk)
    have htail := ih (kept (buf ++ chunk))
    simp only [grep, List.flatten_append, List.flatten_cons, List.length_append] at hhead htail ⊢
    omega

theorem grep_lt {buf : List Byte} {chunks : List (List Byte)} (hzero : 0 ∉ buf ++ chunks.flatten)
    (hbuf : newline ∉ buf) (hpos : ∀ c ∈ chunks, 0 < c.length) (h : ∃ c ∈ chunks, newline ∉ c) :
    (grep [] buf chunks).flatten.length < (buf ++ chunks.flatten).length := by
  induction chunks generalizing buf with
  | nil => simp at h
  | cons chunk chunks ih =>
    obtain ⟨hchunk, hpos⟩ := List.forall_mem_cons.mp hpos
    rw [List.flatten_cons, ← List.append_assoc, List.mem_append, not_or] at hzero
    simp only [grep, List.flatten_append, List.flatten_cons, List.length_append]
    by_cases hnew : newline ∈ chunk
    · have hrest := (rest_suffix (buf ++ chunk)).subset
      have hhead := kept_le (buf ++ chunk)
      rw [kept_of_mem hzero.1 (List.mem_append_right _ hnew)] at hhead ⊢
      have htail := @ih (rest (buf ++ chunk))
        (fun hmem => (List.mem_append.mp hmem).elim (fun hmem => hzero.1 (hrest hmem)) hzero.2)
          (not_mem_rest hzero.1) hpos
        (by simpa [hnew] using h)
      simp only [List.length_append] at hhead htail
      omega
    · have hnone : strchr newline (buf ++ chunk) = none := (strchr_none hzero.1).mpr (by simp [hbuf, hnew])
      have hkept : kept (buf ++ chunk) = [] := if_pos (by rw [rest_none hnone])
      have htail := grep_le [] chunks
      rw [written_none hnone, hkept]
      simp only [List.flatten_nil, List.length_nil, List.nil_append] at htail ⊢
      omega

theorem Reads.pos {buf : List Byte} {chunks : List (List Byte)} (h : Reads buf chunks) :
    ∀ c ∈ chunks, 0 < c.length := by
  induction chunks generalizing buf with
  | nil => simp
  | cons chunk chunks ih => exact List.forall_mem_cons.mpr ⟨h.1, ih h.2.2⟩

theorem matching_nil (lines : List (List Byte)) : (matching [] lines).flatten = text lines := by
  rw [matching, List.filter_eq_self.mpr fun l _ => match_nil l, text, List.flatMap]

/-- Every pattern gives its lines, in order and once each, if and only if each piece that is read has a newline: one
without is thrown away, with all that was kept. -/
theorem grep_matching_iff {chunks lines : List (List Byte)} (hclean : Clean lines) (hreads : Reads [] chunks)
    (h : chunks.flatten = text lines) :
    (∀ re, grep re [] chunks = matching re lines) ↔ ∀ c ∈ chunks, newline ∈ c := by
  constructor
  · intro hgrep
    by_contra hnew
    push Not at hnew
    have hlt := grep_lt (by simpa [h] using hclean.text) List.not_mem_nil hreads.pos hnew
    rw [hgrep, matching_nil, ← h] at hlt
    exact Nat.lt_irrefl _ hlt
  · intro hnew re
    exact grep_matching re hclean hnew List.not_mem_nil h

/-- The second line comes in two reads. -/
theorem split_line_matching :
    grep [97] [] [[97, 98, 10, 99], [97, 10, 98, 10]] = matching [97] [[97, 98], [99, 97], [98]] := by
  have hclean : Clean [[97, 98], [99, 97], [98]] := by decide
  have hkept : kept ([] ++ [97, 98, 10, 99]) = [99] := by
    rw [kept_of_mem (by decide) (by decide), @rest_some _ [97, 98] [99] rfl, rest_none rfl]
  have hreads : Reads [] [[97, 98, 10, 99], [97, 10, 98, 10]] := by
    refine ⟨by decide, by decide, ?_⟩
    rw [hkept]
    exact ⟨by decide, by decide, trivial⟩
  exact (grep_matching_iff hclean hreads (by decide)).mpr (by decide) [97]

theorem half_line_lost : Clean [[97, 98]] ∧ Reads [] [[97], [98, 10]] ∧ grep [97] [] [[97], [98, 10]] = [] ∧
    matching [97] [[97, 98]] = [[97, 98, 10]] := by
  have hfirst : strchr newline ([] ++ [97]) = none := rfl
  have hsecond : strchr newline ([] ++ [98, 10]) = some ([98], []) := rfl
  have hkept : kept ([] ++ [97]) = [] := if_pos (by rw [rest_none hfirst])
  have hb : ¬match_ [97] [98] = true := by simp [match_, matchAnywhere, matchhere, caret, star, dollar, dot]
  have hab : match_ [97] [97, 98] = true := by simp [match_, matchAnywhere, matchhere, caret, star, dollar, dot]
  refine ⟨by decide, ⟨by decide, by decide, ?_⟩, ?_, ?_⟩
  · rw [hkept]
    exact ⟨by decide, by decide, trivial⟩
  · rw [grep, grep, grep, hkept, written_none hfirst, written_some hsecond, if_neg hb, written_none rfl]
    rfl
  · rw [matching, List.filter_cons_of_pos hab]
    rfl

end Xv6.Grep
