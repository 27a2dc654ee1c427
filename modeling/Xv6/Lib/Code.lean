import Mathlib.Logic.Basic
import Xv6.Lib.Sizes

/-!
# Code that may stop

Code works on a state. It comes back with a value, or it stops for a reason.
-/

namespace Xv6

/-- Code that stops with an `ε` or comes back with an `α`. -/
def Code (σ ε α : Type) : Type := σ → Except ε (α × σ)

namespace Code

variable {σ ε α β : Type}

def andThen (m : Code σ ε α) (f : α → Code σ ε β) : Code σ ε β := fun s =>
  match m s with
  | .ok (a, t) => f a t
  | .error e => .error e

instance : Monad (Code σ ε) where
  pure a := fun s => .ok (a, s)
  bind := andThen

def get : Code σ ε σ := fun s => .ok (s, s)

def modify (f : σ → σ) : Code σ ε Unit := fun s => .ok ((), f s)

def stop (e : ε) : Code σ ε α := fun _ => .error e

def failure (m : Code σ ε α) (s : σ) : Option ε :=
  match m s with
  | .ok _ => none
  | .error e => some e

theorem eq_error_of_failure {m : Code σ ε α} {s : σ} {e : ε} (h : failure m s = some e) : m s = .error e := by
  unfold failure at h
  split at h
  · cases h
  · rename_i heq
    rw [heq, Option.some.inj h]

def returned {γ : Type} (m : Code σ ε α) (s : σ) (g : α → σ → γ) : Option γ :=
  match m s with
  | .ok (a, t) => some (g a t)
  | .error _ => none

theorem exists_of_returned {γ : Type} {m : Code σ ε α} {s : σ} {g : α → σ → γ} {c : γ}
    (h : returned m s g = some c) : ∃ a t, m s = .ok (a, t) ∧ g a t = c := by
  unfold returned at h
  split at h
  · rename_i a t heq
    exact ⟨a, t, heq, Option.some.inj h⟩
  · cases h

/-- The code comes back with `Q`, or stops for a reason that `E` allows. -/
def Ends (E : ε → Prop) (m : Code σ ε α) (Q : α → σ → Prop) (s : σ) : Prop :=
  match m s with
  | .ok (a, t) => Q a t
  | .error e => E e

variable {E : ε → Prop} {Q R : α → σ → Prop} {s t : σ}

theorem Ends.of_ok {m : Code σ ε α} {a : α} (h : Ends E m Q s) (hm : m s = .ok (a, t)) : Q a t := by
  unfold Ends at h
  rw [hm] at h
  exact h

theorem Ends.of_error {m : Code σ ε α} {e : ε} (h : Ends E m Q s) (hm : m s = .error e) : E e := by
  unfold Ends at h
  rw [hm] at h
  exact h

theorem ends_iff {m : Code σ ε α} :
    Ends E m Q s ↔ (∀ a t, m s = .ok (a, t) → Q a t) ∧ ∀ e, m s = .error e → E e := by
  refine ⟨fun h => ⟨fun a t => h.of_ok, fun e => h.of_error⟩, fun ⟨hok, herror⟩ => ?_⟩
  unfold Ends
  split
  · exact hok _ _ (by assumption)
  · exact herror _ (by assumption)

theorem Ends.exists_ok {m : Code σ ε α} (h : Ends E m Q s) (hE : ∀ e, ¬E e) : ∃ a t, m s = .ok (a, t) ∧ Q a t := by
  cases hm : m s with
  | ok r => exact ⟨r.1, r.2, rfl, h.of_ok hm⟩
  | error e => exact absurd (h.of_error hm) (hE e)

theorem Ends.mono {m : Code σ ε α} (h : Ends E m Q s) (hQ : ∀ a t, Q a t → R a t) : Ends E m R s := by
  rw [ends_iff] at h ⊢
  exact ⟨fun a t hm => hQ a t (h.1 a t hm), h.2⟩

theorem Ends.allow {F : ε → Prop} {m : Code σ ε α} (h : Ends E m Q s) (hE : ∀ e, E e → F e) : Ends F m Q s := by
  rw [ends_iff] at h ⊢
  exact ⟨h.1, fun e he => hE e (h.2 e he)⟩

theorem ends_any {m : Code σ ε α} (h : ∀ e, E e) : Ends E m (fun _ _ => True) s :=
  ends_iff.mpr ⟨fun _ _ _ => trivial, fun e _ => h e⟩

theorem Ends.and {F : ε → Prop} {m : Code σ ε α} (h : Ends E m Q s) (h' : Ends F m R s) :
    Ends E m (fun a t => Q a t ∧ R a t) s := by
  rw [ends_iff] at h h' ⊢
  exact ⟨fun a t hm => ⟨h.1 a t hm, h'.1 a t hm⟩, h.2⟩

theorem Ends.inter {F : ε → Prop} {m : Code σ ε α} (h : Ends E m Q s) (h' : Ends F m R s) :
    Ends (fun e => E e ∧ F e) m (fun a t => Q a t ∧ R a t) s := by
  rw [ends_iff] at h h' ⊢
  exact ⟨fun a t hm => ⟨h.1 a t hm, h'.1 a t hm⟩, fun e he => ⟨h.2 e he, h'.2 e he⟩⟩

theorem ends_pure {a : α} (h : Q a s) : Ends E (pure a) Q s := h

theorem ends_get {Q : σ → σ → Prop} (h : Q s s) : Ends E get Q s := h

theorem ends_modify {f : σ → σ} {Q : Unit → σ → Prop} (h : Q () (f s)) : Ends E (modify f) Q s := h

theorem ends_stop {e : ε} (h : E e) : Ends E (stop e) Q s := h

theorem ends_bind {m : Code σ ε α} {f : α → Code σ ε β} {Q : β → σ → Prop} :
    Ends E (m >>= f) Q s ↔ Ends E m (fun a t => Ends E (f a) Q t) s := by
  change Ends E (andThen m f) Q s ↔ _
  unfold Ends andThen
  cases m s with
  | ok r => rfl
  | error e => rfl

theorem Ends.bind {m : Code σ ε α} {f : α → Code σ ε β} {Q : β → σ → Prop} (hm : Ends E m R s)
    (hf : ∀ a t, R a t → Ends E (f a) Q t) : Ends E (m >>= f) Q s :=
  ends_bind.mpr (hm.mono hf)

theorem ends_get_bind {f : σ → Code σ ε β} {Q : β → σ → Prop} (h : Ends E (f s) Q s) :
    Ends E (get >>= f) Q s := h

theorem ends_pure_bind {a : α} {f : α → Code σ ε β} {Q : β → σ → Prop} :
    Ends E (pure a >>= f) Q s = Ends E (f a) Q s := rfl

theorem ends_stop_bind {e : ε} {f : α → Code σ ε β} {Q : β → σ → Prop} (h : E e) : Ends E (stop e >>= f) Q s := h

theorem ends_modify_bind {g : σ → σ} {f : Unit → Code σ ε β} {Q : β → σ → Prop} (h : Ends E (f ()) Q (g s)) :
    Ends E (modify g >>= f) Q s := h

theorem ends_ite {c : Prop} [Decidable c] {m n : Code σ ε α} (hm : c → Ends E m Q s) (hn : ¬c → Ends E n Q s) :
    Ends E (if c then m else n) Q s := by
  split
  · exact hm (by assumption)
  · exact hn (by assumption)

-- From here on code is not run to see what it does, but taken apart with the rules.
attribute [irreducible] Ends

variable {ι : Type}

/-- A loop over a list keeps what each turn keeps. -/
theorem ends_forM {f : ι → Code σ ε Unit} {I : List ι → σ → Prop} {xs : List ι} (h : I xs s)
    (hturn : ∀ x rest t, I (x :: rest) t → Ends E (f x) (fun _ u => I rest u) t) :
    Ends E (xs.forM f) (fun _ t => I [] t) s := by
  induction xs generalizing s with
  | nil => exact ends_pure h
  | cons x rest ih => exact Ends.bind (hturn x rest s h) fun _ t ht => ih ht

theorem ends_findSomeM {f : ι → Code σ ε (Option α)} {I : List ι → σ → Prop} {Q : Option α → σ → Prop} {xs : List ι}
    (h : I xs s) (hturn : ∀ x rest t, I (x :: rest) t →
      Ends E (f x) (fun r u => match r with | none => I rest u | some _ => Q r u) t)
    (hnone : ∀ t, I [] t → Q none t) : Ends E (xs.findSomeM? f) Q s := by
  induction xs generalizing s with
  | nil => exact ends_pure (hnone s h)
  | cons x rest ih =>
    refine Ends.bind (hturn x rest s h) fun r t ht => ?_
    cases r with
    | none => exact ih ht
    | some a => exact ends_pure ht

variable {γ : Type} {view : σ → γ}

def Keeps (view : σ → γ) (m : Code σ ε α) : Prop := ∀ s, Ends (fun _ => True) m (fun _ t => view t = view s) s

theorem keeps_pure (a : α) : Keeps view (pure a : Code σ ε α) := fun _ => ends_pure rfl

theorem keeps_get : Keeps view (get : Code σ ε σ) := fun _ => ends_get rfl

theorem keeps_stop (e : ε) : Keeps view (stop e : Code σ ε α) := fun _ => ends_stop trivial

theorem keeps_modify {f : σ → σ} (h : ∀ s, view (f s) = view s) : Keeps view (modify f : Code σ ε Unit) :=
  fun s => ends_modify (h s)

theorem Keeps.bind {m : Code σ ε α} {f : α → Code σ ε β} (hm : Keeps view m) (hf : ∀ a, Keeps view (f a)) :
    Keeps view (m >>= f) := fun s =>
  Ends.bind (hm s) fun a t ht => (hf a t).mono fun _ _ hu => hu.trans ht

theorem keeps_ite {c : Prop} [Decidable c] {m n : Code σ ε α} (hm : Keeps view m) (hn : Keeps view n) :
    Keeps view (if c then m else n) := fun s =>
  ends_ite (fun _ => hm s) fun _ => hn s

theorem keeps_forM {f : ι → Code σ ε Unit} (xs : List ι) (hf : ∀ x, Keeps view (f x)) : Keeps view (xs.forM f) :=
  fun s => ends_forM (I := fun _ t => view t = view s) rfl fun x _ t ht => (hf x t).mono fun _ _ hu => hu.trans ht

theorem keeps_findSomeM {f : ι → Code σ ε (Option α)} (xs : List ι) (hf : ∀ x, Keeps view (f x)) :
    Keeps view (xs.findSomeM? f) := fun s => by
  refine ends_findSomeM (I := fun _ t => view t = view s) rfl (fun x rest t ht => ?_) fun _ ht => ht
  refine (hf x t).mono fun r u hu => ?_
  cases r with
  | none => exact hu.trans ht
  | some a => exact hu.trans ht

end Code

end Xv6
