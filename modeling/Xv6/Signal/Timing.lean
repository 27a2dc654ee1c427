import Xv6.Signal.Pending

/-!
# The alarm and the clock

`ticks` is a 32-bit counter that wraps. `sys_sleep` compares a difference of two of its values, `getLitSignal` compares
a value with a sum.
-/

open Xv6.Run

namespace Xv6.Signal

/-- The loop of `sys_sleep`, with the ticks and `killed` each time it makes the test. -/
def sysSleep (n ticks0 : Word) : List (Word × Bool) → Option Word
  | [] => none
  | (ticks, killed) :: later =>
    if ticks - ticks0 < n then if killed then some (-1) else sysSleep n ticks0 later
    else some 0

theorem sysSleep_done_iff (n ticks0 ticks : Word) :
    sysSleep n ticks0 [(ticks, false)] = some 0 ↔ n.toNat ≤ (ticks - ticks0).toNat := by
  rw [← Nat.not_lt, ← BitVec.lt_def]
  by_cases h : ticks - ticks0 < n <;> simp [sysSleep, h]

def Happening.Rearms : Happening → Prop
  | .sigsend signum => signum = sigalrm
  | .alarm _ => True
  | _ => False

namespace Waiting

variable {w : Waiting} {a : Happening} {as : List Happening}

theorem step_deadline (h : ¬a.Rearms) : (w.step a).deadline = w.deadline := by
  cases a with
  | sigsend signum => exact if_neg h
  | alarm tickTime => exact absurd trivial h
  | tick => rfl
  | user => rfl
  | ret =>
    simp only [step]
    split <;> rfl

theorem run_deadline (h : ∀ a ∈ as, ¬a.Rearms) : (w.run as).deadline = w.deadline := by
  induction as generalizing w with
  | nil => rfl
  | cons a as ih =>
    obtain ⟨ha, has⟩ := List.forall_mem_cons.mp h
    exact (ih has).trans (step_deadline ha)

end Waiting

theorem lit_sigalrm_iff {s : State} (h : s.proc.pending.getLsbD sigalrm = true) :
    lit s.proc s.ticks sigalrm = true ↔ s.proc.alarmEnd.toNat ≤ s.ticks.toNat := by
  rw [lit_iff, Waiting.eligible, Finset.mem_filter, mem_waiting, ← BitVec.le_def]
  exact ⟨fun hs => hs.2 rfl, fun hs => ⟨h, fun _ => hs⟩⟩

theorem alarmEnd_of_run {defaultHandler : Word} {s u : State} {t : Word} {as : List Happening} (ht : t ≠ 0)
    (h : run (happens defaultHandler) s (.alarm t :: as) = some u) (has : ∀ a ∈ as, ¬a.Rearms) :
    u.proc.alarmEnd = s.ticks + t := by
  have hend : u.waiting.deadline = ((s.waiting.step (.alarm t)).run as).deadline := by rw [(run_waiting h).1]; rfl
  rw [Waiting.run_deadline has, Waiting.step, if_neg ht] at hend
  exact hend

/-- The comparison is right as long as both sums stay on the same side of the wrap. -/
theorem sum_le_iff_elapsed (T₀ T t : Word) (ht : t.toNat < 2 ^ 31) (he : (T - T₀).toNat < 2 ^ 31) :
    (((T₀ + t).toNat ≤ T.toNat ↔ t.toNat ≤ (T - T₀).toNat) ↔
      (T₀.toNat + t.toNat < 2 ^ 32 ↔ T₀.toNat + (T - T₀).toNat < 2 ^ 32)) := by
  have hT : T.toNat = (T₀.toNat + (T - T₀).toNat) % 2 ^ 32 := by rw [← BitVec.toNat_add, add_sub_cancel]
  have h₀ := T₀.isLt
  rw [BitVec.toNat_add, hT]
  generalize (T - T₀).toNat = e at *
  rcases Nat.lt_or_ge (T₀.toNat + t.toNat) (2 ^ 32) with h1 | h1 <;>
    rcases Nat.lt_or_ge (T₀.toNat + e) (2 ^ 32) with h2 | h2
  · rw [Nat.mod_eq_of_lt h1, Nat.mod_eq_of_lt h2]; omega
  · rw [Nat.mod_eq_of_lt h1]; omega
  · rw [Nat.mod_eq_of_lt h2]; omega
  · omega

/-- `alarm(t)` at tick `T₀` is due at tick `T` exactly when `t` ticks have elapsed, if the counter has wrapped at both
`T₀ + t` and `T` or at neither. `sys_sleep` is right for all values. -/
theorem alarm_due_iff {defaultHandler : Word} {s u : State} {t : Word} {as : List Happening} (hpos : 0 < t.toNat)
    (ht : t.toNat < 2 ^ 31) (h : run (happens defaultHandler) s (.alarm t :: as) = some u)
    (has : ∀ a ∈ as, ¬a.Rearms) (hwait : u.proc.pending.getLsbD sigalrm = true)
    (he : (u.ticks - s.ticks).toNat < 2 ^ 31) :
    ((lit u.proc u.ticks sigalrm = true ↔ t.toNat ≤ (u.ticks - s.ticks).toNat) ↔
      (s.ticks.toNat + t.toNat < 2 ^ 32 ↔ s.ticks.toNat + (u.ticks - s.ticks).toNat < 2 ^ 32)) ∧
    (sysSleep t s.ticks [(u.ticks, false)] = some 0 ↔ t.toNat ≤ (u.ticks - s.ticks).toNat) := by
  have hne : t ≠ 0 := by rintro rfl; exact absurd hpos (Nat.lt_irrefl 0)
  rw [lit_sigalrm_iff hwait, alarmEnd_of_run hne h has]
  exact ⟨sum_le_iff_elapsed s.ticks u.ticks t ht he, sysSleep_done_iff t s.ticks u.ticks⟩

def processAt (ticks : Word) : State := ⟨userinit kernelHandler fun _ => 0, ticks, []⟩

theorem alarm_due_iff_fifteen :
    ∃ u, run (happens kernelHandler) (processAt (-5)) (.alarm 10 :: .replicate 15 .tick) = some u ∧
    lit u.proc u.ticks sigalrm = true := by
  obtain ⟨u, hu⟩ := Option.isSome_iff_exists.mp (show (run (happens kernelHandler) (processAt (-5))
    (.alarm 10 :: .replicate 15 .tick)).isSome = true by decide +kernel)
  have hticks : ((run (happens kernelHandler) (processAt (-5)) (.alarm 10 :: .replicate 15 .tick)).map fun u =>
    (u.ticks, u.proc.pending.getLsbD sigalrm)) = some (10, true) := by decide +kernel
  rw [hu, Option.map_some, Option.some.injEq, Prod.mk.injEq] at hticks
  have hquiet : ∀ a ∈ List.replicate 15 Happening.tick, ¬a.Rearms := fun a ha => by
    rw [List.eq_of_mem_replicate ha]
    nofun
  have hdue := (alarm_due_iff (by decide) (by decide) hu hquiet hticks.2 (by rw [hticks.1]; decide)).1
  rw [hticks.1] at hdue
  refine ⟨u, hu, ?_⟩
  rw [hticks.1]
  exact (hdue.mpr (by decide)).mpr (by decide)

theorem alarm_wraps :
    ((run (happens kernelHandler) (processAt (-5)) [.alarm 10]).map fun u =>
      (lit u.proc u.ticks sigalrm, u.ticks - (-5))) = some (true, 0) ∧
    ((run (happens kernelHandler) (processAt (-10)) (.alarm 5 :: .replicate 10 .tick)).map fun u =>
      (lit u.proc u.ticks sigalrm, u.ticks - (-10))) = some (false, 10) := by
  decide +kernel

end Xv6.Signal
