import Xv6.Lib.Bytes

/-!
# The matcher of `grep`

A pattern is read from left to right as items, and `match` decides whether they match somewhere. Strings are lists
without their NUL.
-/

open Xv6.Bytes

namespace Xv6.Grep

def caret : Byte := 94

def dollar : Byte := 36

def star : Byte := 42

def dot : Byte := 46

mutual

def matchhere (re text : List Byte) : Bool :=
  match re with
  | [] => true
  | c :: re =>
    if re.head? = some star then matchstar c re.tail text
    else if c = dollar ∧ re = [] then text.isEmpty
    else
      match text with
      | [] => false
      | b :: text => if c = dot ∨ c = b then matchhere re text else false
termination_by (re.length, text.length, 0)
decreasing_by all_goals simp_wf; simp [Prod.lex_def]; try omega

def matchstar (c : Byte) (re text : List Byte) : Bool :=
  if matchhere re text then true
  else
    match text with
    | [] => false
    | b :: text => if b = c ∨ c = dot then matchstar c re text else false
termination_by (re.length, text.length, 1)

end

/-- The loop of `match`, which looks at the empty string too. -/
def matchAnywhere (re : List Byte) : List Byte → Bool
  | [] => matchhere re []
  | b :: text => if matchhere re (b :: text) then true else matchAnywhere re text

def match_ (re text : List Byte) : Bool :=
  if re.head? = some caret then matchhere re.tail text else matchAnywhere re text

inductive Item where
  /-- `x*` -/
  | many (x : Byte)
  /-- `$`, when it is last -/
  | finish
  | any
  | char (x : Byte)

def single (c : Byte) : Item := if c = dot then .any else .char c

def items : List Byte → List Item
  | [] => []
  | c :: re =>
    if re.head? = some star then .many c :: items re.tail
    else if c = dollar ∧ re = [] then [.finish]
    else single c :: items re
termination_by re => re.length

def Item.Accepts (u rest : List Byte) : Item → Prop
  | many x => ∀ b ∈ u, b = x ∨ x = dot
  | finish => u = [] ∧ rest = []
  | any => ∃ b, u = [b]
  | char x => u = [x]

def Matches : List Item → List Byte → List Byte → Prop
  | [], w, _ => w = []
  | i :: is, w, post => ∃ u v, w = u ++ v ∧ i.Accepts u (v ++ post) ∧ Matches is v post

def Begins (is : List Item) (text : List Byte) : Prop := ∃ w post, text = w ++ post ∧ Matches is w post

theorem begins_nil (text : List Byte) : Begins [] text := ⟨[], text, rfl, rfl⟩

theorem begins_cons {i : Item} {is : List Item} {text : List Byte} :
    Begins (i :: is) text ↔ ∃ u v, text = u ++ v ∧ i.Accepts u v ∧ Begins is v := by
  constructor
  · rintro ⟨w, post, rfl, u, v, rfl, haccepts, hmatches⟩
    exact ⟨u, v ++ post, List.append_assoc .., haccepts, v, post, rfl, hmatches⟩
  · rintro ⟨u, v, rfl, haccepts, w, post, rfl, hmatches⟩
    exact ⟨u ++ w, post, (List.append_assoc ..).symm, u, w, rfl, haccepts, hmatches⟩

theorem begins_single {c : Byte} {is : List Item} {text : List Byte} :
    Begins (single c :: is) text ↔ ∃ b v, text = b :: v ∧ (c = dot ∨ c = b) ∧ Begins is v := by
  rw [begins_cons]
  unfold single
  split
  · rename_i hdot
    constructor
    · rintro ⟨_, v, rfl, ⟨b, rfl⟩, hbegins⟩
      exact ⟨b, v, rfl, .inl hdot, hbegins⟩
    · rintro ⟨b, v, rfl, -, hbegins⟩
      exact ⟨[b], v, rfl, ⟨b, rfl⟩, hbegins⟩
  · rename_i hdot
    constructor
    · rintro ⟨_, v, rfl, rfl, hbegins⟩
      exact ⟨c, v, rfl, .inr rfl, hbegins⟩
    · rintro ⟨b, v, rfl, hb, hbegins⟩
      exact ⟨[b], v, rfl, congrArg (fun x => [x]) (hb.resolve_left hdot).symm, hbegins⟩

theorem matchstar_iff (c : Byte) (re text : List Byte) : matchstar c re text = true ↔
    ∃ u v, text = u ++ v ∧ (∀ b ∈ u, b = c ∨ c = dot) ∧ matchhere re v = true := by
  induction text with
  | nil =>
    rw [matchstar]
    simp
  | cons b text ih =>
    rw [matchstar]
    constructor
    · intro h
      by_cases hhere : matchhere re (b :: text) = true
      · exact ⟨[], b :: text, rfl, nofun, hhere⟩
      · rw [if_neg hhere] at h
        by_cases hb : b = c ∨ c = dot
        · simp only [if_pos hb] at h
          obtain ⟨u, v, rfl, hu, hv⟩ := ih.mp h
          exact ⟨b :: u, v, rfl, List.forall_mem_cons.mpr ⟨hb, hu⟩, hv⟩
        · simp [hb] at h
    · rintro ⟨u, v, htext, hu, hv⟩
      cases u with
      | nil =>
        rw [List.nil_append] at htext
        rw [htext, if_pos hv]
      | cons b' u =>
        obtain ⟨rfl, rfl⟩ : b = b' ∧ text = u ++ v := by simpa using htext
        obtain ⟨hb, hu⟩ := List.forall_mem_cons.mp hu
        have hrest := ih.mpr ⟨u, v, rfl, hu, hv⟩
        simp [hb, hrest]

theorem matchhere_iff (re text : List Byte) : matchhere re text = true ↔ Begins (items re) text := by
  induction re using items.induct generalizing text with
  | case1 =>
    unfold matchhere items
    exact iff_of_true rfl (begins_nil text)
  | case2 c re hstar ih =>
    unfold matchhere items
    simp only [if_pos hstar, matchstar_iff, begins_cons, ih]
    rfl
  | case3 c re hstar hdollar =>
    unfold matchhere items
    simp only [if_neg hstar, if_pos hdollar, List.isEmpty_iff, begins_cons]
    constructor
    · rintro rfl
      exact ⟨[], [], rfl, ⟨rfl, rfl⟩, begins_nil []⟩
    · rintro ⟨u, v, rfl, ⟨rfl, rfl⟩, -⟩
      rfl
  | case4 c re hstar hdollar ih =>
    unfold matchhere items
    simp only [if_neg hstar, if_neg hdollar, begins_single]
    cases text with
    | nil => simp
    | cons b text => simp [ih]

theorem matchAnywhere_iff (re text : List Byte) :
    matchAnywhere re text = true ↔ ∃ pre rest, text = pre ++ rest ∧ matchhere re rest = true := by
  induction text with
  | nil => simp [matchAnywhere]
  | cons b text ih =>
    rw [matchAnywhere]
    constructor
    · intro h
      split at h
      · exact ⟨[], b :: text, rfl, by assumption⟩
      · obtain ⟨pre, rest, rfl, hrest⟩ := ih.mp h
        exact ⟨b :: pre, rest, rfl, hrest⟩
    · rintro ⟨pre, rest, htext, hrest⟩
      cases pre with
      | nil =>
        rw [List.nil_append] at htext
        rw [htext, if_pos hrest]
      | cons b' pre =>
        obtain ⟨rfl, rfl⟩ := List.cons.inj htext
        split
        · rfl
        · exact ih.mpr ⟨pre, rest, rfl, hrest⟩

def anchored (re : List Byte) : Prop := re.head? = some caret

def body (re : List Byte) : List Byte := if re.head? = some caret then re.tail else re

/-- `match` returns 1 exactly if the items match somewhere, or at the start for a pattern with a `^`. -/
theorem match_iff (re text : List Byte) : match_ re text = true ↔
    ∃ pre w post, text = pre ++ w ++ post ∧ (anchored re → pre = []) ∧ Matches (items (body re)) w post := by
  have hbegins : (∃ pre w post, text = pre ++ w ++ post ∧ (anchored re → pre = []) ∧ Matches (items (body re)) w post) ↔
      ∃ pre rest, text = pre ++ rest ∧ (anchored re → pre = []) ∧ Begins (items (body re)) rest := by
    constructor
    · rintro ⟨pre, w, post, rfl, hpre, hmatches⟩
      exact ⟨pre, w ++ post, List.append_assoc .., hpre, w, post, rfl, hmatches⟩
    · rintro ⟨pre, rest, rfl, hpre, w, post, rfl, hmatches⟩
      exact ⟨pre, w, post, (List.append_assoc ..).symm, hpre, hmatches⟩
  rw [hbegins]
  unfold match_ body anchored
  split
  · rename_i h
    simp [h, matchhere_iff]
  · rename_i h
    simp [h, matchAnywhere_iff, matchhere_iff]

end Xv6.Grep
