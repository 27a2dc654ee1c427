import Xv6.Fs.Blocks

/-!
# Transactions and locks

What `begin_op`, `end_op`, `ilock` and `iunlock` do to the state.
-/

open Function Xv6.Bytes Xv6.Log Xv6.Code

namespace Xv6.Fs

variable {P : Type}

def State.setSlot (s : State P) (ip : Iptr) (i : Inode) : State P := { s with icache := update s.icache ip i }

section State

variable (s : State P) (ip : Iptr) (i j : Inode) (d : Dinode) (disk : Disk) (log : LogState) (lg : List Nat)

@[simp] theorem setSlot_self : (s.setSlot ip i).icache ip = i := update_self ..

variable {ip} in
theorem setSlot_ne {q : Iptr} (h : q ≠ ip) : (s.setSlot ip i).icache q = s.icache q := update_of_ne h ..

@[simp] theorem setSlot_setSlot : (s.setSlot ip i).setSlot ip j = s.setSlot ip j := by
  simp [State.setSlot]

@[simp] theorem setSlot_wrote : (s.setSlot ip i).wrote disk log lg = (s.wrote disk log lg).setSlot ip i := rfl

theorem setCopy_eq : s.setCopy ip d = s.setSlot ip { s.icache ip with copy := d } := rfl

end State

variable {E : Fail → Prop} {s : State P} {ip : Iptr}

theorem beginOp_ends (hstuck : Log.beginOp s.log = none → E .stuck) {Q : Unit → State P → Prop}
    (hQ : ∀ log, Log.beginOp s.log = some log → Q () { s with log := log, logged := [] }) : Ends E beginOp Q s := by
  refine ends_get_bind ?_
  cases hlog : Log.beginOp s.log with
  | none => exact ends_stop (hstuck hlog)
  | some l => exact ends_modify (hQ l hlog)

def afterEnd (log : LogState) : LogState :=
  if log.outstanding ≤ 1 then ⟨0, false, []⟩ else { log with outstanding := log.outstanding - 1 }

theorem endOp_ends (hE : s.log.committing = true → ∀ l, E (.panic (.log l))) {Q : Unit → State P → Prop}
    (hQ : s.log.committing = false → Q () { s with log := afterEnd s.log, txns := s.txns ++ [s.logged] }) :
    Ends E endOp Q s := by
  refine ends_get_bind ?_
  cases hcommitting : s.log.committing with
  | true =>
    simp only [Log.endOp, hcommitting, if_true]
    exact ends_stop (hE hcommitting _)
  | false =>
    have hq := hQ hcommitting
    by_cases hlast : s.log.outstanding ≤ 1
    · rw [afterEnd, if_pos hlast] at hq
      simp only [Log.endOp, hcommitting, Bool.false_eq_true, if_false, show s.log.outstanding - 1 = 0 by omega, if_true]
      exact ends_modify hq
    · rw [afterEnd, if_neg hlast, hcommitting] at hq
      simp only [Log.endOp, hcommitting, Bool.false_eq_true, if_false, show ¬s.log.outstanding - 1 = 0 by omega]
      exact ends_modify hq

theorem ilock_ends (hstuck : (s.icache ip).locked = true → E .stuck) {d : Dinode} (href : 1 ≤ (s.icache ip).ref)
    (hvalid : (s.icache ip).valid = true → (s.icache ip).copy = d)
    (hdisk : (s.icache ip).valid = false → getInode s.sb s.disk (s.icache ip).inum = d ∧ d.type ≠ 0)
    {Q : Unit → State P → Prop}
    (hQ : (s.icache ip).locked = false →
      Q () (s.setSlot ip { s.icache ip with locked := true, valid := true, copy := d })) : Ends E (ilock ip) Q s := by
  refine inodeAt_ends ?_
  rw [if_neg (by omega)]
  refine ends_ite (fun hlocked => ends_stop (hstuck hlocked)) fun hfree => ends_modify_bind ?_
  have hq := hQ (by simpa using hfree)
  cases hval : (s.icache ip).valid with
  | true =>
    obtain rfl := hvalid hval
    refine ends_pure ?_
    simpa [State.setSlot, hval] using hq
  | false =>
    obtain ⟨rfl, htype⟩ := hdisk hval
    refine ends_get_bind (ends_modify_bind ?_)
    refine ends_ite (fun h => absurd h htype) fun _ => ends_pure ?_
    simpa [State.setSlot] using hq

theorem iunlock_ends (hlocked : (s.icache ip).locked = true) (href : 1 ≤ (s.icache ip).ref)
    {Q : Unit → State P → Prop} (hQ : Q () (s.setSlot ip { s.icache ip with locked := false })) :
    Ends E (iunlock ip) Q s := by
  refine inodeAt_ends ?_
  refine ends_ite (fun h => ?_) fun _ => ends_modify hQ
  rcases h with h | h
  · exact absurd hlocked h
  · omega

end Xv6.Fs
