import Mathlib.Data.Option.Basic
import Xv6.Lib.Sizes

/-!
# Runs of a machine

A machine takes one action at a time. An action that is not enabled has no next state.
-/

namespace Xv6.Run

variable {S A : Type} (step : S → A → Option S)

def run (s : S) : List A → Option S
  | [] => some s
  | a :: as => (step s a).bind fun t => run t as

/-- Each action that the run takes meets `ok` in the state it is taken in. -/
def Along (ok : S → A → Prop) (s : S) : List A → Prop
  | [] => True
  | a :: as => ∀ t, step s a = some t → ok s a ∧ Along ok t as

/-- `P` holds in every state of the run. -/
def Always (P : S → Prop) (s : S) (as : List A) : Prop :=
  ∀ k t, run step s (as.take k) = some t → P t

variable {step}

theorem run_cons {s t : S} {a : A} {as : List A} (h : run step s (a :: as) = some t) :
    ∃ u, step s a = some u ∧ run step u as = some t := by
  simpa only [run, Option.bind_eq_some_iff] using h

theorem run_along {I : S → Prop} (ok : S → A → Prop)
    (hstep : ∀ s a t, I s → ok s a → step s a = some t → I t) {s t : S} {as : List A} (hs : I s)
    (hok : Along step ok s as) (h : run step s as = some t) : I t := by
  induction as generalizing s with
  | nil =>
    simp only [run, Option.some.injEq] at h
    rwa [← h]
  | cons a as ih =>
    obtain ⟨u, hu, hrun⟩ := run_cons h
    obtain ⟨ha, hok⟩ := hok u hu
    exact ih (hstep s a u hs ha hu) hok hrun

theorem along_of_along {I : S → Prop} {ok ok' : S → A → Prop}
    (hstep : ∀ s a t, I s → ok s a → step s a = some t → I t)
    (hok' : ∀ s a t, I s → ok s a → step s a = some t → ok' s a) {s : S} {as : List A} (hs : I s)
    (hok : Along step ok s as) : Along step ok' s as := by
  induction as generalizing s with
  | nil => trivial
  | cons a as ih =>
    intro t ht
    obtain ⟨ha, hrest⟩ := hok t ht
    exact ⟨hok' s a t hs ha ht, ih (hstep s a t hs ha ht) hrest⟩

theorem along_true (s : S) (as : List A) : Along step (fun _ _ => True) s as := by
  induction as generalizing s with
  | nil => trivial
  | cons a as ih => exact fun t _ => ⟨trivial, ih t⟩

theorem run_invariant {I : S → Prop} (hstep : ∀ s a t, I s → step s a = some t → I t) {s t : S}
    {as : List A} (hs : I s) (h : run step s as = some t) : I t :=
  run_along (fun _ _ => True) (fun s a t hs _ => hstep s a t hs) hs (along_true s as) h

theorem along_of_invariant {I : S → Prop} {ok : S → A → Prop} (hstep : ∀ s a t, I s → step s a = some t → I t)
    (hok : ∀ s a t, I s → step s a = some t → ok s a) {s : S} {as : List A} (hs : I s) : Along step ok s as :=
  along_of_along (fun s a t hs _ => hstep s a t hs) (fun s a t hs _ => hok s a t hs) hs (along_true s as)

instance decidableAlong (ok : S → A → Prop) [∀ s a, Decidable (ok s a)] (s : S) :
    ∀ as : List A, Decidable (Along step ok s as)
  | [] => .isTrue trivial
  | a :: as =>
    match h : step s a with
    | none => .isTrue fun t ht => by rw [h] at ht; cases ht
    | some u =>
      have := decidableAlong ok u as
      decidable_of_iff (ok s a ∧ Along step ok u as)
        ⟨fun hu t ht => by rw [h] at ht; cases ht; exact hu, fun hu => hu u h⟩

theorem always_cons {P : S → Prop} {s : S} {a : A} {as : List A} :
    Always step P s (a :: as) ↔ P s ∧ ∀ t, step s a = some t → Always step P t as := by
  constructor
  · intro h
    refine ⟨h 0 s rfl, fun t ht k u hu => h (k + 1) u ?_⟩
    rw [List.take_succ_cons, run, ht]
    exact hu
  · rintro ⟨hs, h⟩ k t ht
    cases k with
    | zero =>
      simp only [List.take_zero, run, Option.some.injEq] at ht
      rwa [← ht]
    | succ k =>
      rw [List.take_succ_cons] at ht
      obtain ⟨u, hu, hrun⟩ := run_cons ht
      exact h u hu k t hrun

/-- What each step keeps holds in every state of a run whose actions all meet `ok`. -/
theorem always_of_along {I P : S → Prop} {ok : S → A → Prop}
    (hstep : ∀ s a t, I s → ok s a → step s a = some t → I t) (hP : ∀ s, I s → P s) {s : S} {as : List A} (hs : I s)
    (hok : Along step ok s as) : Always step P s as := by
  induction as generalizing s with
  | nil =>
    intro k t ht
    simp only [List.take_nil, run, Option.some.injEq] at ht
    exact ht ▸ hP s hs
  | cons a as ih =>
    rw [always_cons]
    refine ⟨hP s hs, fun t ht => ?_⟩
    obtain ⟨ha, hrest⟩ := hok t ht
    exact ih (hstep s a t hs ha ht) hrest

theorem Always.last {P : S → Prop} {s t : S} {as : List A} (h : Always step P s as) (ht : run step s as = some t) :
    P t :=
  h as.length t (by rw [List.take_length, ht])

theorem along_at {ok : S → A → Prop} {s t u : S} {a : A} {as bs : List A} (h : Along step ok s (as ++ a :: bs))
    (hs : run step s as = some t) (ht : step t a = some u) : ok t a := by
  induction as generalizing s with
  | nil =>
    simp only [run, Option.some.injEq] at hs
    subst hs
    exact (h u ht).1
  | cons b as ih =>
    obtain ⟨v, hv, hrun⟩ := run_cons hs
    exact ih (h v hv).2 hrun

theorem along_and {ok ok' : S → A → Prop} {s : S} {as : List A} (h : Along step ok s as) (h' : Along step ok' s as) :
    Along step (fun t a => ok t a ∧ ok' t a) s as := by
  induction as generalizing s with
  | nil => trivial
  | cons a as ih =>
    intro t ht
    exact ⟨⟨(h t ht).1, (h' t ht).1⟩, ih (h t ht).2 (h' t ht).2⟩

theorem always_and_invariant {I P : S → Prop} (hstep : ∀ s a t, I s → step s a = some t → I t) {s : S} {as : List A}
    (hs : I s) : Always step (fun t => I t ∧ P t) s as ↔ Always step P s as :=
  ⟨fun h k t ht => (h k t ht).2, fun h k t ht => ⟨run_invariant hstep hs ht, h k t ht⟩⟩

theorem along_of_always {I P : S → Prop} {ok : S → A → Prop}
    (hstep : ∀ s a t, I s → ok s a → step s a = some t → I t)
    (hbad : ∀ s a t, I s → step s a = some t → P t → ok s a) {s : S} {as : List A} (hs : I s)
    (h : Always step P s as) : Along step ok s as := by
  induction as generalizing s with
  | nil => trivial
  | cons a as ih =>
    intro t ht
    obtain ⟨-, hrest⟩ := always_cons.mp h
    have hok : ok s a := hbad s a t hs ht (hrest t ht 0 t rfl)
    exact ⟨hok, ih (hstep s a t hs hok ht) (hrest t ht)⟩

/-- When a step keeps `P` exactly if its action meets `ok`, `P` holds throughout exactly if all actions meet `ok`. -/
theorem always_iff_along {P : S → Prop} {ok : S → A → Prop}
    (hstep : ∀ s a t, P s → step s a = some t → (P t ↔ ok s a)) {s : S} {as : List A} (hs : P s) :
    Always step P s as ↔ Along step ok s as := by
  induction as generalizing s with
  | nil =>
    simp only [Along, iff_true]
    intro k t ht
    simp only [List.take_nil, run, Option.some.injEq] at ht
    rwa [← ht]
  | cons a as ih =>
    rw [always_cons]
    constructor
    · rintro ⟨-, h⟩ t ht
      have hP : P t := h t ht 0 t rfl
      exact ⟨(hstep s a t hs ht).mp hP, (ih hP).mp (h t ht)⟩
    · intro h
      refine ⟨hs, fun t ht => ?_⟩
      obtain ⟨hok, hrest⟩ := h t ht
      exact (ih ((hstep s a t hs ht).mpr hok)).mpr hrest

end Xv6.Run
