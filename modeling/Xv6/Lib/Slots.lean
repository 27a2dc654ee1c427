import Mathlib.Data.List.Basic

/-!
# Tables of slots

A list of slots, each with a key or free, is a finite map as long as no key is there twice.
-/

namespace Xv6.Slots

variable {α κ : Type} (key : α → Option κ)

def keyAt (l : List α) (e : Nat) : Option κ := l[e]?.bind key

def Distinct (l : List α) : Prop := ∀ e e' k, keyAt key l e = some k → keyAt key l e' = some k → e = e'

def find [DecidableEq κ] (l : List α) (k : κ) : Option Nat := l.findIdx? fun a => key a = some k

def get [DecidableEq κ] (l : List α) (k : κ) : Option (Nat × α) :=
  (find key l k).bind fun e => l[e]?.map fun a => (e, a)

def free [DecidableEq κ] (l : List α) : Nat := l.findIdx fun a => key a = none

def put (l : List α) (e : Nat) (a : α) : List α := if e < l.length then l.set e a else l ++ [a]

section

variable {key} {l : List α} {e : Nat} {a : α} {k : κ}

theorem keyAt_of_lt (h : e < l.length) : keyAt key l e = key l[e] := by
  rw [keyAt, List.getElem?_eq_getElem h, Option.bind_some]

theorem keyAt_of_le (h : l.length ≤ e) : keyAt key l e = none := by
  rw [keyAt, List.getElem?_eq_none h, Option.bind_none]

theorem lt_of_keyAt (h : keyAt key l e = some k) : e < l.length := by
  by_contra hle
  rw [keyAt_of_le (Nat.not_lt.mp hle)] at h
  cases h

theorem put_getElem? (h : e ≤ l.length) (e' : Nat) : (put l e a)[e']? = if e' = e then some a else l[e']? := by
  rw [put]
  split
  case isTrue hlt =>
    rw [List.getElem?_set]
    by_cases he : e = e'
    · rw [if_pos he, if_pos hlt, if_pos he.symm]
    · rw [if_neg he, if_neg (Ne.symm he)]
  case isFalse hlt =>
    obtain rfl : e = l.length := by omega
    rw [List.getElem?_append]
    by_cases he : e' < l.length
    · rw [if_pos he, if_neg (by omega)]
    · rw [if_neg he, List.getElem?_eq_none (Nat.not_lt.mp he), List.getElem?_singleton]
      exact if_congr (by omega) rfl rfl

theorem put_length : (put l e a).length = l.length + if e < l.length then 0 else 1 := by
  rw [put]
  split
  · rw [List.length_set, Nat.add_zero]
  · rw [List.length_append, List.length_singleton]

theorem keyAt_put (h : e ≤ l.length) (e' : Nat) :
    keyAt key (put l e a) e' = if e' = e then key a else keyAt key l e' := by
  rw [keyAt, put_getElem? h]
  split <;> rfl

variable [DecidableEq κ]

theorem find_eq_none : find key l k = none ↔ ∀ e, keyAt key l e ≠ some k := by
  rw [find, List.findIdx?_eq_none_iff]
  constructor
  · intro h e he
    have hlt := lt_of_keyAt he
    rw [keyAt_of_lt hlt] at he
    simpa [he] using h _ (List.getElem_mem hlt)
  · intro h a ha
    obtain ⟨e, hlt, rfl⟩ := List.getElem_of_mem ha
    have he := h e
    rw [keyAt_of_lt hlt] at he
    simpa using he

theorem keyAt_of_find (h : find key l k = some e) : keyAt key l e = some k := by
  obtain ⟨hlt, hk, -⟩ := List.findIdx?_eq_some_iff_getElem.mp h
  rw [keyAt_of_lt hlt]
  simpa using hk

theorem Distinct.find_iff (h : Distinct key l) : find key l k = some e ↔ keyAt key l e = some k := by
  refine ⟨keyAt_of_find, fun hk => ?_⟩
  cases hf : find key l k with
  | none => exact absurd hk (find_eq_none.mp hf e)
  | some e' => rw [h e' e k (keyAt_of_find hf) hk]

theorem free_le : free key l ≤ l.length := List.findIdx_le_length

theorem free_lt_iff : free key l < l.length ↔ ∃ a ∈ l, key a = none := by
  rw [free, List.findIdx_lt_length]
  simp

theorem keyAt_free : keyAt key l (free key l) = none := by
  by_cases h : free key l < l.length
  · rw [keyAt_of_lt h]
    exact of_decide_eq_true (List.findIdx_getElem (w := h))
  · exact keyAt_of_le (Nat.not_lt.mp h)

theorem Distinct.put (h : Distinct key l) (he : e ≤ l.length) (hnew : ∀ k, key a = some k → find key l k = none) :
    Distinct key (put l e a) := by
  intro x y k hx hy
  rw [keyAt_put he] at hx hy
  split at hx <;> split at hy
  case isTrue.isTrue hx' hy' => rw [hx', hy']
  case isTrue.isFalse => exact absurd hy (find_eq_none.mp (hnew k hx) y)
  case isFalse.isTrue => exact absurd hx (find_eq_none.mp (hnew k hy) x)
  case isFalse.isFalse => exact h x y k hx hy

theorem get_eq_none : get key l k = none ↔ find key l k = none := by
  rw [get, Option.bind_eq_none_iff]
  refine ⟨fun h => Option.eq_none_iff_forall_not_mem.mpr fun e he => ?_, fun h e he => by rw [h] at he; cases he⟩
  have hlt := lt_of_keyAt (keyAt_of_find he)
  have hnone := h e he
  rw [List.getElem?_eq_getElem hlt] at hnone
  cases hnone

variable (h : Distinct key l)
include h

theorem Distinct.get_iff {x : Nat × α} : get key l k = some x ↔ l[x.1]? = some x.2 ∧ key x.2 = some k := by
  rw [get, Option.bind_eq_some_iff]
  constructor
  · rintro ⟨e, he, hx⟩
    obtain ⟨a, ha, rfl⟩ := Option.map_eq_some_iff.mp hx
    have hk := keyAt_of_find he
    rw [keyAt, ha] at hk
    exact ⟨ha, hk⟩
  · rintro ⟨ha, hk⟩
    refine ⟨x.1, h.find_iff.mpr ?_, by rw [ha]; rfl⟩
    rw [keyAt, ha]
    exact hk

theorem Distinct.get_put (he : e ≤ l.length) (hnew : ∀ k, key a = some k → find key l k = none)
    (hk : key a = some k) : get key (Slots.put l e a) k = some (e, a) := by
  refine (h.put he hnew).get_iff.mpr ⟨?_, hk⟩
  rw [put_getElem? he, if_pos rfl]

theorem Distinct.get_put_other (he : e ≤ l.length) (hnew : ∀ k, key a = some k → find key l k = none)
    (hold : keyAt key l e ≠ some k) (hk : key a ≠ some k) : get key (Slots.put l e a) k = get key l k := by
  refine Option.ext fun x => ?_
  rw [(h.put he hnew).get_iff, h.get_iff, put_getElem? he]
  split
  case isTrue hx =>
    refine iff_of_false (fun hc => hk ?_) fun hc => hold ?_
    · rw [Option.some.inj hc.1, hc.2]
    · rw [keyAt, ← hx, hc.1]
      exact hc.2
  case isFalse => rfl

theorem Distinct.get_put_free (ha : key a = none) (hk : keyAt key l e = some k) :
    get key (Slots.put l e a) k = none := by
  have he := Nat.le_of_lt (lt_of_keyAt hk)
  rw [get_eq_none, find_eq_none]
  intro e' hc
  rw [keyAt_put he, ha] at hc
  split at hc
  case isTrue => cases hc
  case isFalse hne => exact hne (h e' e k hc hk)

end

end Xv6.Slots
