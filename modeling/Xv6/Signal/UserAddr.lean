import Xv6.Signal.Frame

/-!
# User addresses

The system call arguments are checked against `sz`, the two ends of a signal are not.
-/

open Xv6.Bytes

namespace Xv6.Signal

inductive UserOp where
  | fetchint (addr : Word)
  | fetchstr (addr : Word)
  | argint (n : Word)
  | argptr (n size : Word)
  | argstr (n : Word)
  | sigreturn
  | handleSignal

def UserOp.code (defaultHandler : Word) : UserOp → Kernel Unit
  | .fetchint addr => do let _ ← Signal.fetchint addr
  | .fetchstr addr => do let _ ← Signal.fetchstr addr
  | .argint n => do let _ ← Signal.argint n
  | .argptr n size => do let _ ← Signal.argptr n size
  | .argstr n => do let _ ← Signal.argstr n
  | .sigreturn => do let _ ← Signal.sigreturn
  | .handleSignal => Signal.handleSignal defaultHandler

def accessesOf (m : Kernel Unit) (s : State) : List Access := (m { s with accesses := [] }).2.accesses

def Access.Inside (sz : Word) (x : Access) : Prop := x.addr.toNat + x.size ≤ sz.toNat

def Confined (m : Kernel Unit) (s : State) : Prop := ∀ x ∈ accessesOf m s, x.Inside s.proc.sz

def Within (s t : State) : Prop :=
  t.proc.sz = s.proc.sz ∧ ∃ new, t.accesses = s.accesses ++ new ∧ ∀ x ∈ new, x.Inside s.proc.sz

instance : IsPreorder State Within where
  refl s := ⟨rfl, [], by simp⟩
  trans s t u := by
    rintro ⟨hst, new, hnew, hin⟩ ⟨htu, more, hmore, hin'⟩
    refine ⟨htu.trans hst, new ++ more, by rw [hmore, hnew, List.append_assoc], ?_⟩
    intro x hx
    rcases List.mem_append.mp hx with h | h
    · exact hin x h
    · rw [← hst]
      exact hin' x h

theorem confined_of_within {m : Kernel Unit} {s : State} (h : m.Keeps Within) : Confined m s := by
  obtain ⟨-, new, hnew, hin⟩ := h { s with accesses := [] }
  unfold Confined accessesOf
  rw [hnew]
  exact hin

theorem touch_within {s : State} {a : Word} {n : Nat} (h : a.toNat + n ≤ s.proc.sz.toNat) :
    Within s (touch a n s).2 := by
  rw [touch_run]
  refine ⟨rfl, [⟨a, n⟩], rfl, ?_⟩
  intro x hx
  rw [List.mem_singleton.mp hx]
  exact h

theorem load_within {s : State} {a : Word} {n : Nat} (h : a.toNat + n ≤ s.proc.sz.toNat) :
    Within s (load a n s).2 :=
  bind_keeps_at (touch_within h) fun _ t _ => bind_keeps getState_keeps (fun _ => pure_keeps _) t

theorem block_inside {p : Proc} {a size : Word} (hsize : size.toNat < 2 ^ 31) (h : ¬ p.sz ≤ a)
    (hend : ¬ p.sz < a + size) : a.toNat + size.toNat ≤ p.sz.toNat := by
  have hsz := p.sz_lt
  simp only [kernbase] at hsz
  simp only [BitVec.le_def, BitVec.lt_def, BitVec.toNat_add, not_le, not_lt] at h hend
  rwa [Nat.mod_eq_of_lt (by omega)] at hend

theorem fetchint_within (addr : Word) : (fetchint addr).Keeps Within := by
  intro s
  unfold fetchint
  rw [getState_bind]
  split
  case isTrue => exact refl_of Within s
  case isFalse h =>
    rw [not_or] at h
    have hin : addr.toNat + (4 : Word).toNat ≤ s.proc.sz.toNat := block_inside (by decide) h.1 h.2
    exact bind_keeps_at (load_within hin) fun _ t _ => pure_keeps _ t

theorem fetchstrLoop_within (n : Nat) (a : Word) (len : Nat) (s : State) (h : a.toNat + n ≤ s.proc.sz.toNat) :
    Within s (fetchstrLoop n a len s).2 := by
  induction n generalizing a len s with
  | zero => exact refl_of Within s
  | succ n ih =>
    have hsz := s.proc.sz_lt
    simp only [kernbase] at hsz
    rw [fetchstrLoop]
    refine bind_keeps_at (load_within (by omega)) fun bs t ht => ?_
    split
    · exact refl_of Within t
    · apply ih
      obtain ⟨-, -, rfl⟩ := load_ok ht
      rw [touched_proc, toNat_add_one (by omega)]
      omega

theorem fetchstr_within (addr : Word) : (fetchstr addr).Keeps Within := by
  intro s
  unfold fetchstr
  rw [getState_bind]
  split
  case isTrue => exact refl_of Within s
  case isFalse h =>
    apply fetchstrLoop_within
    simp only [BitVec.le_def, not_le] at h
    omega

theorem argint_within (n : Word) : (argint n).Keeps Within :=
  bind_keeps getState_keeps fun _ => fetchint_within _

theorem argptr_within (n size : Word) : (argptr n size).Keeps Within := by
  refine bind_keeps (argint_within n) fun i => ?_
  cases i with
  | none => exact pure_keeps _
  | some i =>
    intro s
    simp only
    rw [getState_bind]
    split
    case isTrue => exact refl_of Within s
    case isFalse h =>
      simp only [not_or] at h
      obtain ⟨hneg, hlow, hend⟩ := h
      have hsize : size.toNat < 2 ^ 31 := by
        change ¬ size.slt 0#32 = true at hneg
        rw [BitVec.slt_zero_eq_msb, Bool.not_eq_true, BitVec.msb_eq_false_iff_two_mul_lt] at hneg
        omega
      exact bind_keeps_at (touch_within (block_inside hsize hlow hend)) fun _ t _ => pure_keeps _ t

theorem argstr_within (n : Word) : (argstr n).Keeps Within := by
  refine bind_keeps (argint_within n) fun addr => ?_
  cases addr with
  | none => exact pure_keeps _
  | some addr => exact fetchstr_within addr

def pushAccesses (sp : Word) : List Access :=
  [⟨sp - 8, 8⟩, ⟨sp - 84, trapframeSize⟩, ⟨sp - 16, 4⟩, ⟨sp - 88, 4⟩, ⟨sp - 92, 4⟩]

def upToFault (p : Proc) : List Access → List Access
  | [] => []
  | x :: xs => x :: if firstFault p x.addr x.size = none then upToFault p xs else []

theorem upToFault_inside {p : Proc} {l : List Access} :
    (∀ x ∈ upToFault p l, x.Inside p.sz) ↔ ∀ x ∈ l, x.Inside p.sz := by
  induction l with
  | nil => simp [upToFault]
  | cons x xs ih =>
    rw [upToFault, List.forall_mem_cons, List.forall_mem_cons]
    apply and_congr_right
    intro hx
    rw [if_pos (firstFault_inside p x.addr x.size hx), ih]

theorem store_of_fault {a : Word} {bs : List Byte} {s : State} {e : Fault}
    (h : firstFault s.proc a bs.length = some e) : store a bs s = (.error e, s.touched a bs.length) := by
  unfold store
  exact bind_of_error _ (by rw [touch_run, h])

theorem store_bind_accesses {β : Type} (a : Word) (bs : List Byte) (f : Unit → Kernel β) (s : State) :
    ((store a bs >>= f) s).2.accesses =
      if firstFault s.proc a bs.length = none then (f () (s.stored a bs)).2.accesses
      else s.accesses ++ [⟨a, bs.length⟩] := by
  cases h : firstFault s.proc a bs.length with
  | none => rw [if_pos rfl, store_bind_of_none f h]
  | some e =>
    rw [if_neg (by simp), bind_of_error f (store_of_fault h)]
    rfl

@[simp] theorem firstFault_withTf (s : State) (tf : Trapframe) (a : Word) (n : Nat) :
    firstFault (s.withTf tf).proc a n = firstFault s.proc a n := firstFault_congr (withTf_sz s tf) a n

@[simp] theorem firstFault_stored (s : State) (b : Word) (bs : List Byte) (a : Word) (n : Nat) :
    firstFault (s.stored b bs).proc a n = firstFault s.proc a n := firstFault_congr (stored_sz s b bs) a n

theorem pushHandler_accesses (i : Fin 32) (handler : Word) (s : State) :
    (pushHandler i handler s).2.accesses = s.accesses ++ upToFault s.proc (pushAccesses s.proc.tf.esp) := by
  have h8 : s.proc.tf.esp - 8#32 = s.proc.tf.esp - 8 := rfl
  have h84 : s.proc.tf.esp - 8 - BitVec.ofNat 32 trapframeSize = s.proc.tf.esp - 84 := by
    rw [sub_sub]; rfl
  have h16 : s.proc.tf.esp - 84 + BitVec.ofNat 32 espOffset = s.proc.tf.esp - 16 := by
    rw [sub_add]; rfl
  have h88 : s.proc.tf.esp - 84 - 4 = s.proc.tf.esp - 88 := by rw [sub_sub]; rfl
  have h92 : s.proc.tf.esp - 88 - 4 = s.proc.tf.esp - 92 := by rw [sub_sub]; rfl
  unfold pushHandler
  simp only [getState_bind, modifyTf_bind, store_bind_accesses, modifyTf_run, stored_tf, withTf_tf, withEsp_esp,
    withEsp_withEsp, firstFault_withTf, firstFault_stored, stored_accesses, withTf_accesses, bytes_length,
    sigreturnCode_length, toLe_length, h8, h84, h16, h88, h92]
  simp only [pushAccesses, upToFault]
  split_ifs <;> simp

theorem pushAccesses_inside {p : Proc} {sp : Word} :
    (∀ x ∈ pushAccesses sp, x.Inside p.sz) ↔ frameSize ≤ sp.toNat ∧ sp.toNat ≤ p.sz.toNat := by
  have hsz := p.sz_lt
  have hsp := sp.isLt
  simp only [kernbase] at hsz
  simp only [pushAccesses, List.forall_mem_cons, Access.Inside, trapframeSize, frameSize, BitVec.toNat_sub,
    BitVec.reduceToNat]
  constructor
  · rintro ⟨h8, h84, -, -, h92, -⟩
    omega
  · rintro ⟨hlow, hhigh⟩
    refine ⟨?_, ?_, ?_, ?_, ?_, by simp⟩ <;> omega

theorem sigreturn_accesses (s : State) :
    (sigreturn s).2.accesses = s.accesses ++ [⟨s.proc.tf.esp + 4, trapframeSize⟩] := by
  let u := s.withTf (s.proc.tf.withEsp (s.proc.tf.esp + 4))
  unfold sigreturn
  rw [modifyTf_bind, getState_bind, withTf_tf, withEsp_esp]
  cases h : firstFault u.proc (s.proc.tf.esp + 4) trapframeSize with
  | none =>
    rw [bind_of_ok _ (load_of_none h), modifyTf_bind, pure_run]
    rfl
  | some e =>
    have hload : load (s.proc.tf.esp + 4) trapframeSize u =
        (.error e, u.touched (s.proc.tf.esp + 4) trapframeSize) :=
      bind_of_error _ (by rw [touch_run, h])
    rw [bind_of_error _ hload]
    rfl

def HandlerDue (defaultHandler : Word) (s : State) : Prop :=
  s.proc.tf.cs &&& 3 ≠ 0 ∧ ∃ i, nextSignal s.proc s.ticks = some i ∧ s.proc.signals i ≠ defaultHandler

theorem handleSignal_not_due {defaultHandler : Word} {s : State} (h : ¬ HandlerDue defaultHandler s) :
    (handleSignal defaultHandler s).2.accesses = s.accesses := by
  unfold handleSignal
  rw [getState_bind]
  split
  case isTrue => rfl
  case isFalse huser =>
    cases hsignal : nextSignal s.proc s.ticks with
    | none =>
      rw [bind_of_ok _ (getLitSignal_none hsignal)]
      rfl
    | some i =>
      have hdefault : (s.cleared i).proc.signals i = defaultHandler := by
        by_contra hne
        exact h ⟨huser, i, hsignal, hne⟩
      rw [bind_of_ok _ (getLitSignal_some hsignal)]
      simp only [getState_bind]
      rw [if_pos hdefault]
      rfl

def UserOp.InRange (defaultHandler : Word) (s : State) : UserOp → Prop
  | .sigreturn => (s.proc.tf.esp + 4).toNat + trapframeSize ≤ s.proc.sz.toNat
  | .handleSignal =>
    HandlerDue defaultHandler s → frameSize ≤ s.proc.tf.esp.toNat ∧ s.proc.tf.esp.toNat ≤ s.proc.sz.toNat
  | _ => True

theorem sigreturn_confined_iff (defaultHandler : Word) (s : State) :
    Confined (UserOp.sigreturn.code defaultHandler) s ↔ UserOp.sigreturn.InRange defaultHandler s := by
  have hcode : ∀ t, (UserOp.sigreturn.code defaultHandler t).2 = (sigreturn t).2 := by
    intro t
    change ((sigreturn >>= fun _ => pure ()) t).2 = _
    cases h : sigreturn t with
    | mk r u =>
      cases r with
      | ok v => rw [bind_of_ok _ h]; rfl
      | error e => rw [bind_of_error _ h]
  unfold Confined accessesOf
  rw [hcode, sigreturn_accesses]
  simp [Access.Inside, UserOp.InRange]

theorem handleSignal_confined_iff (defaultHandler : Word) (s : State) :
    Confined (UserOp.handleSignal.code defaultHandler) s ↔ UserOp.handleSignal.InRange defaultHandler s := by
  change (∀ x ∈ (handleSignal defaultHandler { s with accesses := [] }).2.accesses, x.Inside s.proc.sz) ↔
    (HandlerDue defaultHandler s → frameSize ≤ s.proc.tf.esp.toNat ∧ s.proc.tf.esp.toNat ≤ s.proc.sz.toNat)
  by_cases hdue : HandlerDue defaultHandler s
  · obtain ⟨huser, i, hsignal, hhandler⟩ := hdue
    have hpush := handleSignal_user (s := { s with accesses := [] }) huser hsignal hhandler
    rw [hpush, pushHandler_accesses]
    have hinside := upToFault_inside (p := (State.cleared { s with accesses := [] } i).proc)
      (l := pushAccesses s.proc.tf.esp)
    rw [pushAccesses_inside] at hinside
    exact hinside.trans ⟨fun h _ => h, fun h => h ⟨huser, i, hsignal, hhandler⟩⟩
  · rw [handleSignal_not_due (s := { s with accesses := [] }) hdue]
    exact iff_of_true (by simp) fun h => (hdue h).elim

/-- The kernel keeps to the process's memory exactly when there is room at the stack pointer for the frame that is
read or written. -/
theorem user_access_confined_iff (defaultHandler : Word) (op : UserOp) (s : State) :
    Confined (op.code defaultHandler) s ↔ op.InRange defaultHandler s := by
  cases op with
  | fetchint addr =>
    exact iff_of_true (confined_of_within (bind_keeps (fetchint_within addr) fun _ => pure_keeps _)) trivial
  | fetchstr addr =>
    exact iff_of_true (confined_of_within (bind_keeps (fetchstr_within addr) fun _ => pure_keeps _)) trivial
  | argint n =>
    exact iff_of_true (confined_of_within (bind_keeps (argint_within n) fun _ => pure_keeps _)) trivial
  | argptr n size =>
    exact iff_of_true (confined_of_within (bind_keeps (argptr_within n size) fun _ => pure_keeps _)) trivial
  | argstr n =>
    exact iff_of_true (confined_of_within (bind_keeps (argstr_within n) fun _ => pure_keeps _)) trivial
  | sigreturn => exact sigreturn_confined_iff defaultHandler s
  | handleSignal => exact handleSignal_confined_iff defaultHandler s

def kernelStack : State :=
  { interrupted 0 with proc := { (interrupted 0).proc with tf := (interrupted 0).proc.tf.withEsp 0x80100000 } }

theorem kernelStack_not_confined :
    ¬ Confined (UserOp.sigreturn.code kernelHandler) kernelStack ∧
    ¬ Confined (UserOp.handleSignal.code kernelHandler) kernelStack := by
  rw [sigreturn_confined_iff, handleSignal_confined_iff]
  refine ⟨show ¬ (0x80100004 + 76 ≤ 4096) by decide, fun h => ?_⟩
  have hdue : HandlerDue kernelHandler kernelStack := by
    refine ⟨show (35 : Half) &&& 3 ≠ 0 by decide, 3, interrupted_signal 0, ?_⟩
    exact show (0x100 : Word) ≠ kernelHandler by decide
  exact absurd (h hdue).2 (show ¬ (0x80100000 ≤ 4096) by decide)

end Xv6.Signal
