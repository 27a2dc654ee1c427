import Mathlib.Data.List.Nodup
import Mathlib.Logic.Function.Basic

/-!
# Ownership

Places hold items, no item twice, and a map says which items of an area are in use.
-/

open Function

namespace Xv6.Ownership

variable {L B : Type}

structure Owns (used : B → Bool) (area : B → Prop) (holds : L → Option B) : Prop where
  inside : ∀ l b, holds l = some b → area b
  once : ∀ l m b, holds l = some b → holds m = some b → l = m
  used_iff : ∀ b, area b → (used b = true ↔ ∃ l, holds l = some b)

variable {used used' : B → Bool} {area : B → Prop} {holds holds' : L → Option B}

variable (h : Owns used area holds)
include h

theorem Owns.used_of_holds {l : L} {b : B} (hl : holds l = some b) : used b = true :=
  (h.used_iff b (h.inside l b hl)).mpr ⟨l, hl⟩

theorem Owns.not_held {b : B} (hb : used b = false) (l : L) : holds l ≠ some b := by
  intro hl
  rw [h.used_of_holds hl] at hb
  cases hb

theorem Owns.used_iff_unique {b : B} (hb : area b) :
    used b = true ↔ ∃! l, holds l = some b := by
  rw [h.used_iff b hb]
  constructor
  · rintro ⟨l, hl⟩
    exact ⟨l, hl, fun m hm => h.once m l b hm hl⟩
  · rintro ⟨l, hl, -⟩
    exact ⟨l, hl⟩

theorem Owns.congr (hused : ∀ b, area b → used' b = used b)
    (hholds : ∀ l, holds' l = holds l) : Owns used' area holds' := by
  obtain rfl : holds' = holds := funext hholds
  exact ⟨h.inside, h.once, fun b hb => by rw [hused b hb]; exact h.used_iff b hb⟩

theorem Owns.take [DecidableEq L] {l : L} {b : B} (harea : area b) (hfree : used b = false)
    (hused : ∀ c, area c → (used' c = true ↔ c = b ∨ used c = true))
    (hl : holds l = none) (hholds : ∀ m, holds' m = if m = l then some b else holds m) :
    Owns used' area holds' := by
  have hnew : ∀ m c, holds' m = some c → (m = l ∧ c = b) ∨ (m ≠ l ∧ c ≠ b ∧ holds m = some c) := by
    intro m c hm
    rw [hholds] at hm
    split at hm
    case isTrue he => exact .inl ⟨he, (Option.some.inj hm).symm⟩
    case isFalse he =>
      refine .inr ⟨he, ?_, hm⟩
      rintro rfl
      exact h.not_held hfree m hm
  refine ⟨fun m c hm => ?_, fun m n c hm hn => ?_, fun c hc => ?_⟩
  · rcases hnew m c hm with ⟨-, rfl⟩ | ⟨-, -, hm⟩
    · exact harea
    · exact h.inside m c hm
  · rcases hnew m c hm with ⟨rfl, rfl⟩ | ⟨-, hne, hm⟩
    · rcases hnew n c hn with ⟨rfl, -⟩ | ⟨-, hne, -⟩
      · rfl
      · exact absurd rfl hne
    · rcases hnew n c hn with ⟨-, rfl⟩ | ⟨-, -, hn⟩
      · exact absurd rfl hne
      · exact h.once m n c hm hn
  · rw [hused c hc, h.used_iff c hc]
    constructor
    · rintro (rfl | ⟨m, hm⟩)
      · exact ⟨l, by rw [hholds, if_pos rfl]⟩
      · refine ⟨m, ?_⟩
        rw [hholds, if_neg, hm]
        rintro rfl
        rw [hl] at hm
        cases hm
    · rintro ⟨m, hm⟩
      rcases hnew m c hm with ⟨-, rfl⟩ | ⟨-, -, hm⟩
      · exact .inl rfl
      · exact .inr ⟨m, hm⟩

omit h

/-! ## Free lists -/

/-- The item is neither free nor held. -/
structure Outside (free : List B) (holds : L → Option B) (b : B) : Prop where
  not_free : b ∉ free
  not_held : ∀ l, holds l ≠ some b

variable {free free' : List B} {b c : B} {l : L}

theorem outside_cons : Outside (b :: free) holds c ↔ Outside free holds c ∧ c ≠ b := by
  constructor
  · rintro ⟨hfree, hheld⟩
    rw [List.mem_cons, not_or] at hfree
    exact ⟨⟨hfree.2, hheld⟩, hfree.1⟩
  · rintro ⟨⟨hfree, hheld⟩, hne⟩
    exact ⟨by rw [List.mem_cons, not_or]; exact ⟨hne, hfree⟩, hheld⟩

theorem outside_add [DecidableEq L] (hl : holds l = none) :
    Outside free (update holds l (some b)) c ↔ Outside free holds c ∧ c ≠ b := by
  constructor
  · rintro ⟨hfree, hheld⟩
    refine ⟨⟨hfree, fun m hm => hheld m ?_⟩, fun hc => hheld l (by rw [update_self, hc])⟩
    rw [update_of_ne, hm]
    rintro rfl
    rw [hl] at hm
    cases hm
  · rintro ⟨⟨hfree, hheld⟩, hne⟩
    refine ⟨hfree, fun m hm => ?_⟩
    rw [update_apply] at hm
    split at hm
    · exact hne (Option.some.inj hm).symm
    · exact hheld m hm

theorem outside_give [DecidableEq L] (hl : holds l = some b) :
    Outside (b :: free) (update holds l none) c ↔ Outside free holds c := by
  rw [outside_cons, ← outside_add (update_self l none holds), update_idem, ← hl, update_eq_self]

/-- Each item of the area is on the free list once or held once. -/
structure Divided [DecidableEq B] (free : List B) (area : B → Prop) (holds : L → Option B) : Prop where
  owns : Owns (fun b => decide (b ∉ free)) area holds
  nodup : free.Nodup
  inside : ∀ b ∈ free, area b

namespace Divided

variable [DecidableEq B]

theorem not_free (h : Divided free area holds) (hl : holds l = some b) : b ∉ free :=
  of_decide_eq_true (h.owns.used_of_holds hl)

theorem count_or_unique (h : Divided free area holds) (hb : area b) :
    (free.count b = 1 ∧ ∀ l, holds l ≠ some b) ∨ (b ∉ free ∧ ∃! l, holds l = some b) := by
  by_cases hfree : b ∈ free
  · exact .inl ⟨List.count_eq_one_of_mem h.nodup hfree, fun l hl => h.not_free hl hfree⟩
  · exact .inr ⟨hfree, (h.owns.used_iff_unique hb).mp (decide_eq_true hfree)⟩

/-- One owner takes of the free items and gives back, and the others keep theirs. -/
theorem change {O : Type} {o : O} {holds holds' : O × L → Option B} (h : Divided free area holds)
    (hnodup : free'.Nodup) (hown : ∀ l b, holds' (o, l) = some b → b ∉ free')
    (honce : ∀ l m b, holds' (o, l) = some b → holds' (o, m) = some b → l = m)
    (hout : ∀ b, Outside free' (fun l => holds' (o, l)) b ↔ Outside free (fun l => holds (o, l)) b)
    (hother : ∀ a, a.1 ≠ o → holds' a = holds a) : Divided free' area holds' := by
  have hin : ∀ b, ¬Outside free' (fun l => holds' (o, l)) b → area b := by
    intro b hb
    by_contra hnot
    exact hb ((hout b).mpr ⟨fun hfree => hnot (h.inside b hfree), fun l hl => hnot (h.owns.inside _ b hl)⟩)
  have hheld : ∀ a b, a.1 ≠ o → holds a = some b → Outside free' (fun l => holds' (o, l)) b := by
    intro a b ha hb
    refine (hout b).mpr ⟨h.not_free hb, fun l hl => ha ?_⟩
    rw [h.owns.once a (o, l) b hb hl]
  refine ⟨⟨fun a b ha => ?_, fun a a' b ha ha' => ?_, fun b hb => ?_⟩, hnodup,
    fun b hb => hin b fun hc => hc.not_free hb⟩
  · by_cases hao : a.1 = o
    · subst hao
      exact hin b fun hc => hc.not_held a.2 ha
    · exact h.owns.inside a b (hother a hao ▸ ha)
  · by_cases hao : a.1 = o
    · subst hao
      by_cases hao' : a'.1 = a.1
      · exact Prod.ext hao'.symm (honce a.2 a'.2 b ha (hao' ▸ ha'))
      · exact absurd ha ((hheld a' b hao' (hother a' hao' ▸ ha')).not_held a.2)
    · by_cases hao' : a'.1 = o
      · subst hao'
        exact absurd ha' ((hheld a b hao (hother a hao ▸ ha)).not_held a'.2)
      · exact h.owns.once a a' b (hother a hao ▸ ha) (hother a' hao' ▸ ha')
  · rw [decide_eq_true_iff]
    constructor
    · intro hfree
      by_cases hc : Outside free' (fun l => holds' (o, l)) b
      · have hc' := (hout b).mp hc
        obtain ⟨a, ha⟩ := (h.owns.used_iff b hb).mp (decide_eq_true hc'.not_free)
        refine ⟨a, ?_⟩
        rw [hother a, ha]
        rintro rfl
        exact hc'.not_held a.2 ha
      · by_contra hnone
        exact hc ⟨hfree, fun l hl => hnone ⟨_, hl⟩⟩
    · rintro ⟨a, ha⟩
      by_cases hao : a.1 = o
      · subst hao
        exact hown a.2 b ha
      · exact (hheld a b hao (hother a hao ▸ ha)).not_free

end Divided

end Xv6.Ownership
