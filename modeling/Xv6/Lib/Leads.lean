import Xv6.Lib.Run

/-!
# Code that comes to an end

A machine gets somewhere, whatever its environment chooses at each step.
-/

open Xv6.Run

namespace Xv6

variable {S A : Type} {step : S → A → Option S} {Safe Q R : S → Prop} {s t : S}

/-- Finitely many steps lead to a state with `Q`, through states with `Safe`. -/
inductive Leads (step : S → A → Option S) (Safe Q : S → Prop) : S → Prop
  | here {s : S} (h : Q s) : Leads step Safe Q s
  | next {s : S} (safe : Safe s) (f : A → S) (hstep : ∀ a, step s a = some (f a))
      (h : ∀ a, Leads step Safe Q (f a)) : Leads step Safe Q s

theorem Leads.move (hsafe : Safe s) (hstep : ∀ a, step s a = some t) (h : Leads step Safe Q t) : Leads step Safe Q s :=
  .next hsafe (fun _ => t) hstep fun _ => h

variable (h : Leads step Safe Q s)
include h

theorem Leads.trans (hQ : ∀ t, Q t → Leads step Safe R t) : Leads step Safe R s := by
  induction h with
  | here h => exact hQ _ h
  | next hsafe f hstep _ ih => exact .next hsafe f hstep ih

theorem Leads.mono (hQ : ∀ t, Q t → R t) : Leads step Safe R s :=
  h.trans fun t ht => .here (hQ t ht)

theorem Leads.inv : Q s ∨ Safe s ∧ ∀ a t, step s a = some t → Leads step Safe Q t := by
  cases h with
  | here h => exact .inl h
  | next hsafe f hstep h =>
    refine .inr ⟨hsafe, fun a t ht => ?_⟩
    rw [hstep a, Option.some.injEq] at ht
    exact ht ▸ h a

theorem Leads.reaches (choice : Nat → A) :
    ∃ k t, run step s ((List.range k).map choice) = some t ∧ Q t := by
  induction h generalizing choice with
  | here h => exact ⟨0, _, rfl, h⟩
  | next hsafe f hstep _ ih =>
    obtain ⟨k, t, hrun, ht⟩ := ih (choice 0) fun i => choice (i + 1)
    refine ⟨k + 1, t, ?_, ht⟩
    rw [List.range_succ_eq_map, List.map_cons, run, hstep, List.map_map]
    exact hrun

end Xv6
