import Mathlib.Logic.Function.Basic
import Mathlib.Data.List.Basic

/-!
# Replaying a list of writes

A list of writes is applied to a store in order.
-/

open Function

namespace Xv6.Replay

variable {K V : Type} [DecidableEq K]

def replay (d : K → V) (ws : List (K × V)) : K → V := ws.foldl (fun d w => update d w.1 w.2) d

@[simp] theorem replay_nil (d : K → V) : replay d [] = d := rfl

@[simp] theorem replay_cons (d : K → V) (w : K × V) (ws : List (K × V)) :
    replay d (w :: ws) = replay (update d w.1 w.2) ws := rfl

theorem replay_append (d : K → V) (ws vs : List (K × V)) : replay d (ws ++ vs) = replay (replay d ws) vs :=
  List.foldl_append

theorem replay_of_notMem (d : K → V) {ws : List (K × V)} {k : K} (h : ∀ w ∈ ws, w.1 ≠ k) : replay d ws k = d k := by
  induction ws generalizing d with
  | nil => rfl
  | cons w ws ih =>
    rw [List.forall_mem_cons] at h
    rw [replay_cons, ih _ h.2, update_of_ne h.1.symm]

theorem replay_of_mem (d : K → V) {ws : List (K × V)} {k : K} {v : V} (hk : ∃ w ∈ ws, w.1 = k)
    (hv : ∀ w ∈ ws, w.1 = k → w.2 = v) : replay d ws k = v := by
  induction ws generalizing d with
  | nil => simp at hk
  | cons w ws ih =>
    rw [List.forall_mem_cons] at hv
    rw [replay_cons]
    by_cases hlater : ∃ x ∈ ws, x.1 = k
    · exact ih _ hlater hv.2
    · have hw : w.1 = k := by
        obtain ⟨x, hx, hxk⟩ := hk
        rcases List.mem_cons.mp hx with rfl | hx
        · exact hxk
        · exact (hlater ⟨x, hx, hxk⟩).elim
      rw [replay_of_notMem _ (fun x hx hxk => hlater ⟨x, hx, hxk⟩), ← hw, update_self]
      exact hv.1 hw

theorem replay_congr {d e : K → V} {ws : List (K × V)} (h : ∀ k, (∀ w ∈ ws, w.1 ≠ k) → d k = e k) :
    replay d ws = replay e ws := by
  induction ws generalizing d e with
  | nil =>
    funext k
    exact h k (by simp)
  | cons w ws ih =>
    rw [replay_cons, replay_cons]
    apply ih
    intro k hk
    by_cases hw : w.1 = k
    · rw [← hw, update_self, update_self]
    · rw [update_of_ne (Ne.symm hw), update_of_ne (Ne.symm hw)]
      exact h k (List.forall_mem_cons.mpr ⟨hw, hk⟩)

end Xv6.Replay
