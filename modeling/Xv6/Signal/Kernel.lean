import Xv6.Signal.Spec

/-! # Stepping through kernel code

Each primitive of `Kernel` gets the state it ends in, and a run that comes back is taken apart
at its binds.
-/

open Xv6.Bytes

namespace Xv6.Signal

/-! ## Binds -/

theorem bind_ok {α β : Type} {m : Kernel α} {f : α → Kernel β} {s t : State} {b : β}
    (h : (m >>= f) s = (.ok b, t)) : ∃ a u, m s = (.ok a, u) ∧ f a u = (.ok b, t) := by
  change Kernel.andThen m f s = _ at h
  unfold Kernel.andThen at h
  split at h
  · exact ⟨_, _, by assumption, h⟩
  · simp at h

theorem bind_of_ok {α β : Type} {m : Kernel α} (f : α → Kernel β) {s u : State} {a : α}
    (h : m s = (.ok a, u)) : (m >>= f) s = f a u := by
  change Kernel.andThen m f s = _
  rw [Kernel.andThen, h]

theorem bind_of_error {α β : Type} {m : Kernel α} (f : α → Kernel β) {s u : State} {e : Fault}
    (h : m s = (.error e, u)) : (m >>= f) s = (.error e, u) := by
  change Kernel.andThen m f s = _
  rw [Kernel.andThen, h]

@[simp] theorem pure_run {α : Type} (a : α) (s : State) : (pure a : Kernel α) s = (.ok a, s) := rfl

@[simp] theorem getState_bind {β : Type} (f : State → Kernel β) (s : State) :
    (getState >>= f) s = f s s := bind_of_ok f rfl

/-! ## Relations that code keeps -/

def Kernel.Keeps {α : Type} (R : State → State → Prop) (m : Kernel α) : Prop := ∀ s, R s (m s).2

section Keeps

variable {R : State → State → Prop} [IsPreorder State R] {α β : Type}

theorem bind_keeps_at {m : Kernel α} {f : α → Kernel β} {s : State} (hm : R s (m s).2)
    (hf : ∀ a t, m s = (.ok a, t) → R t (f a t).2) : R s ((m >>= f) s).2 := by
  cases h : m s with
  | mk r t =>
    rw [h] at hm
    cases r with
    | ok a =>
      rw [bind_of_ok f h]
      exact trans_of R hm (hf a t h)
    | error e =>
      rw [bind_of_error f h]
      exact hm

theorem bind_keeps {m : Kernel α} {f : α → Kernel β} (hm : m.Keeps R) (hf : ∀ a, (f a).Keeps R) :
    (m >>= f).Keeps R :=
  fun s => bind_keeps_at (hm s) fun a t _ => hf a t

theorem pure_keeps (a : α) : (pure a : Kernel α).Keeps R := fun s => refl_of R s

theorem getState_keeps : getState.Keeps R := fun s => refl_of R s

omit [IsPreorder State R] in
theorem ite_keeps {c : Prop} [Decidable c] {m n : Kernel α} (hm : m.Keeps R) (hn : n.Keeps R) :
    (if c then m else n).Keeps R := by
  split
  · exact hm
  · exact hn

theorem store_keeps (htouch : ∀ a n, (touch a n).Keeps R)
    (hmem : ∀ f : Proc → Word → Byte, (modifyProc fun p => { p with mem := f p }).Keeps R) (a : Word) (bs : List Byte) :
    (store a bs).Keeps R :=
  bind_keeps (htouch a _) fun _ => hmem fun p => writeBytes p.mem a bs

theorem pushHandler_keeps (hesp : ∀ f : Trapframe → Word, (modifyTf fun tf => tf.withEsp (f tf)).Keeps R)
    (heip : ∀ v, (modifyTf fun tf => tf.withEip v).Keeps R) (hstore : ∀ a bs, (store a bs).Keeps R)
    (i : Fin 32) (handler : Word) : (pushHandler i handler).Keeps R := by
  unfold pushHandler
  refine bind_keeps getState_keeps fun _ => ?_
  refine bind_keeps (hesp _) fun _ => bind_keeps getState_keeps fun _ => ?_
  refine bind_keeps (hstore _ _) fun _ => bind_keeps getState_keeps fun _ => ?_
  refine bind_keeps (hesp _) fun _ => bind_keeps getState_keeps fun _ => ?_
  refine bind_keeps getState_keeps fun _ => bind_keeps (hstore _ _) fun _ => ?_
  refine bind_keeps getState_keeps fun _ => bind_keeps (hstore _ _) fun _ => ?_
  refine bind_keeps (hesp _) fun _ => bind_keeps getState_keeps fun _ => ?_
  refine bind_keeps (hstore _ _) fun _ => bind_keeps (hesp _) fun _ => ?_
  refine bind_keeps getState_keeps fun _ => bind_keeps (hstore _ _) fun _ => ?_
  exact heip _

end Keeps

/-! ## The states the primitives end in -/

def State.touched (s : State) (a : Word) (n : Nat) : State :=
  { s with accesses := s.accesses ++ [⟨a, n⟩] }

def State.stored (s : State) (a : Word) (bs : List Byte) : State :=
  { s.touched a bs.length with proc := { s.proc with mem := writeBytes s.proc.mem a bs } }

def State.withTf (s : State) (tf : Trapframe) : State := { s with proc := { s.proc with tf := tf } }

section Fields

variable (s : State) (a : Word) (n : Nat) (bs : List Byte) (tf : Trapframe)

@[simp] theorem touched_proc : (s.touched a n).proc = s.proc := rfl
@[simp] theorem touched_ticks : (s.touched a n).ticks = s.ticks := rfl
@[simp] theorem touched_accesses : (s.touched a n).accesses = s.accesses ++ [⟨a, n⟩] := rfl
@[simp] theorem stored_tf : (s.stored a bs).proc.tf = s.proc.tf := rfl
@[simp] theorem stored_sz : (s.stored a bs).proc.sz = s.proc.sz := rfl
@[simp] theorem stored_mem : (s.stored a bs).proc.mem = writeBytes s.proc.mem a bs := rfl
@[simp] theorem stored_accesses : (s.stored a bs).accesses = s.accesses ++ [⟨a, bs.length⟩] := rfl
@[simp] theorem withTf_tf : (s.withTf tf).proc.tf = tf := rfl
@[simp] theorem withTf_sz : (s.withTf tf).proc.sz = s.proc.sz := rfl
@[simp] theorem withTf_mem : (s.withTf tf).proc.mem = s.proc.mem := rfl
@[simp] theorem withTf_accesses : (s.withTf tf).accesses = s.accesses := rfl

end Fields

@[simp] theorem withEsp_esp (tf : Trapframe) (v : Word) : (tf.withEsp v).esp = v := rfl
@[simp] theorem withEsp_eip (tf : Trapframe) (v : Word) : (tf.withEsp v).eip = tf.eip := rfl
@[simp] theorem withEip_eip (tf : Trapframe) (v : Word) : (tf.withEip v).eip = v := rfl
@[simp] theorem withEsp_withEsp (tf : Trapframe) (v w : Word) : (tf.withEsp v).withEsp w = tf.withEsp w := rfl

@[simp] theorem modifyTf_run (f : Trapframe → Trapframe) (s : State) :
    modifyTf f s = (.ok (), s.withTf (f s.proc.tf)) := rfl

@[simp] theorem modifyTf_bind {β : Type} (f : Trapframe → Trapframe) (g : Unit → Kernel β) (s : State) :
    (modifyTf f >>= g) s = g () (s.withTf (f s.proc.tf)) := bind_of_ok g rfl

theorem touch_run (a : Word) (n : Nat) (s : State) :
    touch a n s = (match firstFault s.proc a n with | some e => .error e | none => .ok (), s.touched a n) := by
  unfold touch
  cases h : firstFault s.proc a n <;> rfl

theorem touch_of_none {a : Word} {n : Nat} {s : State} (h : firstFault s.proc a n = none) :
    touch a n s = (.ok (), s.touched a n) := by
  rw [touch_run, h]

theorem touch_ok {a : Word} {n : Nat} {s t : State} {u : Unit} (h : touch a n s = (.ok u, t)) :
    firstFault s.proc a n = none ∧ t = s.touched a n := by
  rw [touch_run] at h
  split at h <;> simp_all

theorem load_of_none {a : Word} {n : Nat} {s : State} (h : firstFault s.proc a n = none) :
    load a n s = (.ok (readBytes s.proc.mem a n), s.touched a n) := by
  unfold load
  rw [bind_of_ok _ (touch_of_none h)]
  rfl

theorem load_ok {a : Word} {n : Nat} {s t : State} {bs : List Byte} (h : load a n s = (.ok bs, t)) :
    firstFault s.proc a n = none ∧ bs = readBytes s.proc.mem a n ∧ t = s.touched a n := by
  have hnone : firstFault s.proc a n = none := by
    unfold load at h
    obtain ⟨_, _, ht, _⟩ := bind_ok h
    exact (touch_ok ht).1
  rw [load_of_none hnone] at h
  simp_all

theorem store_of_none {a : Word} {bs : List Byte} {s : State}
    (h : firstFault s.proc a bs.length = none) : store a bs s = (.ok (), s.stored a bs) := by
  unfold store
  rw [bind_of_ok _ (touch_of_none h)]
  rfl

theorem store_ok {a : Word} {bs : List Byte} {s t : State} {u : Unit} (h : store a bs s = (.ok u, t)) :
    firstFault s.proc a bs.length = none ∧ t = s.stored a bs := by
  have hnone : firstFault s.proc a bs.length = none := by
    unfold store at h
    obtain ⟨_, _, ht, _⟩ := bind_ok h
    exact (touch_ok ht).1
  rw [store_of_none hnone] at h
  simp_all

theorem store_bind_ok {β : Type} {a : Word} {bs : List Byte} {f : Unit → Kernel β} {s t : State} {b : β}
    (h : (store a bs >>= f) s = (.ok b, t)) :
    firstFault s.proc a bs.length = none ∧ f () (s.stored a bs) = (.ok b, t) := by
  obtain ⟨_, u, hu, hf⟩ := bind_ok h
  obtain ⟨hnone, rfl⟩ := store_ok hu
  exact ⟨hnone, hf⟩

theorem store_bind_of_none {β : Type} {a : Word} {bs : List Byte} (f : Unit → Kernel β) {s : State}
    (h : firstFault s.proc a bs.length = none) : (store a bs >>= f) s = f () (s.stored a bs) :=
  bind_of_ok f (store_of_none h)

/-! ## Pages -/

theorem le_pgroundup (n : Nat) : n ≤ pgroundup n := by
  unfold pgroundup pgsize
  omega

theorem toNat_add_one {a : Word} (h : a.toNat + 1 < 2 ^ 32) : (a + 1).toNat = a.toNat + 1 := by
  rw [BitVec.toNat_add, show (1 : Word).toNat = 1 from rfl, Nat.mod_eq_of_lt h]

theorem firstFault_inside (p : Proc) (a : Word) (n : Nat) (h : a.toNat + n ≤ p.sz.toNat) :
    firstFault p a n = none := by
  induction n generalizing a with
  | zero => rfl
  | succ n ih =>
    have hsz := p.sz_lt
    have hround := le_pgroundup p.sz.toNat
    simp only [kernbase] at hsz
    have hp : present p a = true := by
      unfold present
      simp only [decide_eq_true_eq]
      omega
    rw [firstFault, if_pos hp]
    apply ih
    rw [toNat_add_one (by omega)]
    omega

theorem firstFault_congr {p q : Proc} (h : p.sz = q.sz) (a : Word) (n : Nat) :
    firstFault p a n = firstFault q a n := by
  induction n generalizing a with
  | zero => rfl
  | succ n ih => rw [firstFault, firstFault, ih, present, present, h]

theorem firstFault_eq_none {p : Proc} {a : Word} {n : Nat} :
    firstFault p a n = none ↔ ∀ i < n, present p (a + i) = true := by
  induction n generalizing a with
  | zero => simp [firstFault]
  | succ n ih =>
    rw [firstFault]
    constructor
    · intro h i hi
      split at h
      · cases i with
        | zero => simpa
        | succ i => rw [← add_one_add]; exact ih.mp h i (by omega)
      · simp at h
    · intro h
      have h0 := h 0 (by omega)
      simp only [Nat.cast_zero, add_zero] at h0
      rw [if_pos h0, ih]
      intro i hi
      rw [add_one_add]
      exact h (i + 1) (by omega)

end Xv6.Signal
