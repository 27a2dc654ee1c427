import Mathlib.Data.Finset.Max
import Mathlib.Data.Fintype.Basic
import Xv6.Signal.Process

/-!
# The pending word is a set of signals

With `alarmEnd` the pending word is a set with a deadline for one of its members.
-/

open Xv6.Bytes Xv6.Run

namespace Xv6.Signal

/-! ## The set -/

@[ext] structure Waiting where
  set : Finset (Fin 32)
  deadline : Word
  ticks : Word

inductive Happening where
  | sigsend (signum : Fin 32)
  | alarm (tickTime : Word)
  | tick
  /-- User code runs. It may call `signal`. -/
  | user (e : Entry) (signals : Fin 32 → Word)
  /-- A return to user mode. -/
  | ret

def Happening.Sends (i : Fin 32) : Happening → Prop
  | .sigsend signum => signum = i
  | .alarm tickTime => i = sigalrm ∧ tickTime ≠ 0
  | _ => False

namespace Waiting

def eligible (w : Waiting) : Finset (Fin 32) := w.set.filter fun i => i = sigalrm → w.deadline ≤ w.ticks

def next (w : Waiting) : Option (Fin 32) := if h : w.eligible.Nonempty then some (w.eligible.min' h) else none

def step (w : Waiting) : Happening → Waiting
  | .sigsend signum =>
    { w with set := insert signum w.set, deadline := if signum = sigalrm then 0 else w.deadline }
  | .alarm tickTime =>
    if tickTime = 0 then { w with set := w.set.erase sigalrm }
    else { w with set := insert sigalrm w.set, deadline := w.ticks + tickTime }
  | .tick => { w with ticks := w.ticks + 1 }
  | .user _ _ => w
  | .ret =>
    match w.next with
    | none => w
    | some i => { w with set := w.set.erase i }

def delivers (w : Waiting) : Happening → Option (Fin 32)
  | .ret => w.next
  | _ => none

def trace (w : Waiting) : List Happening → List (Happening × Option (Fin 32))
  | [] => []
  | a :: as => (a, w.delivers a) :: trace (w.step a) as

end Waiting

/-! ## The process -/

def State.waiting (s : State) : Waiting where
  set := Finset.univ.filter fun i => s.proc.pending.getLsbD i = true
  deadline := s.proc.alarmEnd
  ticks := s.ticks

/-- There is no next state when the kernel faults on the user stack. -/
def happens (defaultHandler : Word) (s : State) : Happening → Option State
  | .sigsend signum => some { s with proc := sigsend signum s.proc }
  | .alarm tickTime => some (alarm tickTime s).2
  | .tick => some (Event.ticked.apply s)
  | .user e signals => some { s with proc := { (s.entered e).proc with signals := signals } }
  | .ret =>
    if s.proc.tf.cs &&& 3 = 0 then none
    else
      match handleSignal defaultHandler s with
      | (.ok (), t) => some t
      | _ => none

def delivered (s : State) : Happening → Option (Fin 32)
  | .ret =>
    match getLitSignal s with
    | (.ok litSignal, _) => litSignal
    | _ => none
  | _ => none

def trace (defaultHandler : Word) (s : State) : List Happening → List (Happening × Option (Fin 32))
  | [] => []
  | a :: as =>
    match happens defaultHandler s a with
    | none => []
    | some t => (a, delivered s a) :: trace defaultHandler t as

/-! ## One step -/

theorem mem_waiting {s : State} {i : Fin 32} : i ∈ s.waiting.set ↔ s.proc.pending.getLsbD i = true := by
  simp only [State.waiting, Finset.mem_filter, Finset.mem_univ, true_and]

theorem lit_iff {s : State} {i : Fin 32} : lit s.proc s.ticks i = true ↔ i ∈ s.waiting.eligible := by
  rw [Waiting.eligible, Finset.mem_filter, mem_waiting]
  simp only [lit, Bool.and_eq_true, Bool.not_eq_true', Bool.and_eq_false_imp, beq_iff_eq, decide_eq_false_iff_not,
    State.waiting, BitVec.not_lt]

theorem nextSignal_eq_next (s : State) : nextSignal s.proc s.ticks = s.waiting.next := by
  cases h : nextSignal s.proc s.ticks with
  | none =>
    have hno : ¬s.waiting.eligible.Nonempty := by
      rintro ⟨i, hi⟩
      exact List.find?_eq_none.mp h i (List.mem_finRange i) (lit_iff.mpr hi)
    rw [Waiting.next, dif_neg hno]
  | some i =>
    obtain ⟨hi, k, hk, hget, hbefore⟩ := List.find?_eq_some_iff_getElem.mp h
    have hik : i.val = k := by rw [← hget, List.getElem_finRange]; rfl
    have hmem : i ∈ s.waiting.eligible := lit_iff.mp hi
    rw [Waiting.next, dif_pos ⟨i, hmem⟩, Option.some.injEq]
    refine le_antisymm (Finset.le_min' _ _ _ fun j hj => ?_) (Finset.min'_le _ _ hmem)
    by_contra hlt
    have hjk : j.val < k := by omega
    have hnot := hbefore j.val hjk
    rw [List.getElem_finRange] at hnot
    have hlit : lit s.proc s.ticks j = true := lit_iff.mpr hj
    simp [hlit] at hnot

theorem delivered_eq (s : State) (a : Happening) : delivered s a = s.waiting.delivers a := by
  cases a with
  | ret =>
    simp only [delivered, Waiting.delivers, ← nextSignal_eq_next]
    cases h : nextSignal s.proc s.ticks with
    | none => rw [getLitSignal_none h]
    | some i => rw [getLitSignal_some h]
  | _ => rfl

def SameTicks (s t : State) : Prop := t.ticks = s.ticks

instance : IsPreorder State SameTicks where
  refl _ := rfl
  trans _ _ _ h h' := Eq.trans h' h

theorem pushHandler_sameTicks (i : Fin 32) (handler : Word) : (pushHandler i handler).Keeps SameTicks := by
  refine pushHandler_keeps (fun _ _ => rfl) (fun _ _ => rfl) (store_keeps (fun a n s => ?_) fun _ _ => rfl) i handler
  rw [touch_run]
  rfl

theorem handleSignal_waiting {defaultHandler : Word} {s t : State} (huser : s.proc.tf.cs &&& 3 ≠ 0)
    (h : handleSignal defaultHandler s = (.ok (), t)) : t.waiting = s.waiting.step .ret := by
  simp only [Waiting.step, ← nextSignal_eq_next]
  cases hnext : nextSignal s.proc s.ticks with
  | none =>
    rw [handleSignal_none hnext] at h
    cases h
    rfl
  | some i =>
    -- the set after `getLitSignal`
    have hcleared : (s.cleared i).waiting = { s.waiting with set := s.waiting.set.erase i } := by
      refine Waiting.ext (Finset.ext fun j => ?_) rfl rfl
      rw [mem_waiting, Finset.mem_erase, mem_waiting, State.cleared, getLsbD_cleared]
      simp [and_comm]
    by_cases hhandler : s.proc.signals i = defaultHandler
    · rw [handleSignal_default huser hnext hhandler] at h
      cases h
      exact hcleared
    · rw [handleSignal_user huser hnext hhandler] at h
      have hsame := pushHandler_sameSignals i (s.proc.signals i) (s.cleared i)
      have hticks := pushHandler_sameTicks i (s.proc.signals i) (s.cleared i)
      rw [h] at hsame hticks
      refine Eq.trans ?_ hcleared
      have hpending : t.proc.pending = (s.cleared i).proc.pending := hsame.1
      exact Waiting.ext (by simp only [State.waiting, hpending]) hsame.2.1 hticks

theorem happens_waiting {defaultHandler : Word} {s t : State} {a : Happening}
    (h : happens defaultHandler s a = some t) : t.waiting = s.waiting.step a := by
  cases a with
  | sigsend signum =>
    cases h
    refine Waiting.ext (Finset.ext fun j => ?_) rfl rfl
    rw [mem_waiting, Waiting.step, Finset.mem_insert, mem_waiting, sigsend, getLsbD_set]
    simp [or_comm]
  | alarm tickTime =>
    cases h
    simp only [alarm, Waiting.step]
    split
    · refine Waiting.ext (Finset.ext fun j => ?_) rfl rfl
      rw [mem_waiting, Finset.mem_erase, mem_waiting]
      refine (Bool.eq_iff_iff.mp (getLsbD_cleared s.proc.pending sigalrm j)).trans ?_
      simp [and_comm]
    · refine Waiting.ext (Finset.ext fun j => ?_) rfl rfl
      rw [mem_waiting, Finset.mem_insert, mem_waiting]
      refine (Bool.eq_iff_iff.mp (getLsbD_set s.proc.pending sigalrm j)).trans ?_
      simp [or_comm]
  | tick =>
    cases h
    rfl
  | user e signals =>
    cases h
    rfl
  | ret =>
    obtain ⟨huser, h⟩ := Option.ite_none_left_eq_some.mp h
    split at h
    case h_1 t' hdone =>
      cases h
      exact handleSignal_waiting huser hdone
    case h_2 => cases h

/-! ## Runs -/

namespace Waiting

def run (w : Waiting) (as : List Happening) : Waiting := as.foldl step w

theorem next_mem {w : Waiting} {i : Fin 32} (h : w.next = some i) : i ∈ w.set := by
  unfold next at h
  split at h
  case isTrue hne =>
    cases h
    exact (Finset.mem_filter.mp (Finset.min'_mem _ hne)).1
  case isFalse => cases h

theorem delivers_mem {w : Waiting} {a : Happening} {i : Fin 32} (h : w.delivers a = some i) : i ∈ w.set := by
  cases a with
  | ret => exact next_mem h
  | _ => cases h

theorem mem_step {w : Waiting} {a : Happening} {i : Fin 32} (h : i ∈ (w.step a).set) :
    a.Sends i ∨ i ∈ w.set ∧ w.delivers a ≠ some i := by
  cases a with
  | sigsend signum =>
    rcases Finset.mem_insert.mp h with rfl | hi
    · exact .inl rfl
    · exact .inr ⟨hi, nofun⟩
  | alarm tickTime =>
    simp only [step] at h
    split at h
    · exact .inr ⟨Finset.mem_of_mem_erase h, nofun⟩
    case isFalse h0 =>
      rcases Finset.mem_insert.mp h with rfl | hi
      · exact .inl ⟨rfl, h0⟩
      · exact .inr ⟨hi, nofun⟩
  | tick => exact .inr ⟨h, nofun⟩
  | user => exact .inr ⟨h, nofun⟩
  | ret =>
    simp only [step] at h
    split at h
    case h_1 hnone =>
      refine .inr ⟨h, ?_⟩
      rw [delivers, hnone]
      nofun
    case h_2 j hj =>
      obtain ⟨hne, hi⟩ := Finset.mem_erase.mp h
      refine .inr ⟨hi, ?_⟩
      rw [delivers, hj]
      exact fun he => hne (Option.some.inj he).symm

theorem not_mem_step {w : Waiting} {a : Happening} {i : Fin 32} (hi : i ∈ w.set) (h : i ∉ (w.step a).set) :
    w.delivers a = some i ∨ i = sigalrm ∧ a = .alarm 0 := by
  cases a with
  | sigsend signum => exact absurd (Finset.mem_insert_of_mem hi) h
  | alarm tickTime =>
    simp only [step] at h
    split at h
    case isTrue h0 =>
      have heq : i = sigalrm := by
        by_contra hne
        exact h (Finset.mem_erase.mpr ⟨hne, hi⟩)
      exact .inr ⟨heq, by rw [h0]⟩
    case isFalse => exact absurd (Finset.mem_insert_of_mem hi) h
  | tick => exact absurd hi h
  | user => exact absurd hi h
  | ret =>
    simp only [step] at h
    split at h
    case h_1 => exact absurd hi h
    case h_2 j hj =>
      have heq : i = j := by
        by_contra hne
        exact h (Finset.mem_erase.mpr ⟨hne, hi⟩)
      exact .inl (heq ▸ hj)

end Waiting

def SentSince (i : Fin 32) (past : List (Happening × Option (Fin 32))) : Prop :=
  ∃ before x after, past = before ++ x :: after ∧ x.1.Sends i ∧ ∀ y ∈ after, y.2 ≠ some i

theorem Waiting.sentSince {w : Waiting} {as : List Happening} {i : Fin 32}
    {past rest : List (Happening × Option (Fin 32))} {a : Happening} (h : w.trace as = past ++ (a, some i) :: rest) :
    SentSince i past ∨ i ∈ w.set ∧ ∀ y ∈ past, y.2 ≠ some i := by
  induction as generalizing w past with
  | nil => exact absurd h.symm (by simp [Waiting.trace])
  | cons b as ih =>
    cases past with
    | nil =>
      simp only [Waiting.trace, List.nil_append, List.cons.injEq, Prod.mk.injEq] at h
      exact .inr ⟨Waiting.delivers_mem h.1.2, nofun⟩
    | cons x past =>
      simp only [Waiting.trace, List.cons_append, List.cons.injEq] at h
      obtain ⟨rfl, h⟩ := h
      rcases ih h with ⟨before, y, after, rfl, hy, hafter⟩ | ⟨hi, hpast⟩
      · exact .inl ⟨_ :: before, y, after, rfl, hy, hafter⟩
      · rcases Waiting.mem_step hi with hsend | ⟨hi, hnot⟩
        · exact .inl ⟨[], _, past, rfl, hsend, hpast⟩
        · refine .inr ⟨hi, fun y hy => ?_⟩
          rcases List.mem_cons.mp hy with rfl | hy
          · exact hnot
          · exact hpast y hy

theorem run_waiting {defaultHandler : Word} {s t : State} {as : List Happening}
    (h : run (happens defaultHandler) s as = some t) :
    t.waiting = s.waiting.run as ∧ trace defaultHandler s as = s.waiting.trace as := by
  induction as generalizing s with
  | nil =>
    cases h
    exact ⟨rfl, rfl⟩
  | cons a as ih =>
    obtain ⟨u, hu, hrun⟩ := run_cons h
    obtain ⟨hend, htrace⟩ := ih hrun
    have hstep := happens_waiting hu
    refine ⟨by rw [hend, hstep]; rfl, ?_⟩
    simp only [trace, hu, Waiting.trace, delivered_eq, htrace, hstep]

/-- The pending word and `alarmEnd` are the set and its deadline, and what is delivered is what the set delivers: each
delivery has a send of its own, and only `alarm(0)` takes a signal away. -/
theorem pending_refines_set {defaultHandler : Word} {s t : State} {as : List Happening}
    (h : run (happens defaultHandler) s as = some t) :
    t.waiting = s.waiting.run as ∧ trace defaultHandler s as = s.waiting.trace as ∧
    (∀ i past a rest, trace defaultHandler s as = past ++ (a, some i) :: rest →
      SentSince i past ∨ s.proc.pending.getLsbD i = true ∧ ∀ y ∈ past, y.2 ≠ some i) ∧
    ∀ u a v, happens defaultHandler u a = some v → ∀ i : Fin 32,
      u.proc.pending.getLsbD i = true → v.proc.pending.getLsbD i = false →
        delivered u a = some i ∨ i = sigalrm ∧ a = .alarm 0 := by
  obtain ⟨hend, htrace⟩ := run_waiting h
  refine ⟨hend, htrace, fun i past a rest hat => ?_, fun u a v hv i hi hgone => ?_⟩
  · rw [htrace] at hat
    rw [← mem_waiting]
    exact Waiting.sentSince hat
  · rw [delivered_eq]
    refine Waiting.not_mem_step (mem_waiting.mpr hi) ?_
    rw [← happens_waiting hv, mem_waiting, hgone]
    exact Bool.false_ne_true

def threeSignals : List Happening := [.sigsend 31, .alarm 1, .sigsend 3, .ret, .ret, .ret, .tick, .ret]

theorem threeSignals_refines :
    ∃ t, run (happens kernelHandler) ⟨userinit kernelHandler fun _ => 0, 0, []⟩ threeSignals = some t ∧
    (trace kernelHandler ⟨userinit kernelHandler fun _ => 0, 0, []⟩ threeSignals).map Prod.snd =
      [none, none, none, some 3, some 31, none, none, some 14] ∧
    t.waiting = (State.waiting ⟨userinit kernelHandler fun _ => 0, 0, []⟩).run threeSignals := by
  have hrun : (run (happens kernelHandler) ⟨userinit kernelHandler fun _ => 0, 0, []⟩ threeSignals).isSome = true := by
    decide +kernel
  obtain ⟨t, ht⟩ := Option.isSome_iff_exists.mp hrun
  exact ⟨t, ht, by decide +kernel, (pending_refines_set ht).1⟩

end Xv6.Signal
