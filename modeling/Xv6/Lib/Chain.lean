import Mathlib.Data.List.Basic

/-!
# Chains of links

`Chain next l b` says that the nodes of `l` are linked in their order and that the last one leads to `b`. A ring is a
chain that leads back to its own head.
-/

namespace Xv6

def Chain (next : Nat → Nat) : List Nat → Nat → Prop
  | [], _ => True
  | a :: l, b => next a = l.headD b ∧ Chain next l b

namespace Chain

variable {next next' : Nat → Nat} {l k : List Nat} {a b c : Nat}

theorem append : Chain next (l ++ k) b ↔ Chain next l (k.headD b) ∧ Chain next k b := by
  induction l with
  | nil => simp [Chain]
  | cons a l ih =>
    have hhead : (l ++ k).headD b = l.headD (k.headD b) := by cases l <;> rfl
    rw [List.cons_append, Chain, Chain, ih, hhead, and_assoc]

theorem congr (h : Chain next l b) (heq : ∀ a ∈ l, next' a = next a) : Chain next' l b := by
  induction l with
  | nil => trivial
  | cons a l ih =>
    rw [List.forall_mem_cons] at heq
    exact ⟨heq.1.trans h.1, ih h.2 heq.2⟩

theorem update (h : Chain next l b) (ha : a ∉ l) : Chain (Function.update next a c) l b :=
  h.congr fun _ hx => Function.update_of_ne (ne_of_mem_of_not_mem hx ha) _ _

theorem redirect (h : Chain next (l ++ [a]) b) (ha : a ∉ l) : Chain (Function.update next a c) (l ++ [a]) c := by
  refine append.2 ⟨(append.1 h).1.update ha, ?_, trivial⟩
  exact Function.update_self a c next

theorem next_mem (h : Chain next l b) (ha : a ∈ l) : next a ∈ l ∨ next a = b := by
  induction l with
  | nil => cases ha
  | cons c l ih =>
    obtain rfl | ha := List.mem_cons.1 ha
    · rw [h.1]
      cases l with
      | nil => exact .inr rfl
      | cons d l => exact .inl (List.mem_cons_of_mem _ List.mem_cons_self)
    · exact (ih h.2 ha).imp_left (List.mem_cons_of_mem _)

theorem rotate (h : Chain next (l ++ a :: k) (l.headD a)) : Chain next (a :: k ++ l) a := by
  obtain ⟨hl, hk⟩ := append.1 h
  refine append.2 ⟨?_, hl⟩
  exact hk

end Chain

end Xv6
