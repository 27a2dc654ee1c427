import Xv6.Signal.Process

/-!
# Signals in signal handlers

Each delivery puts a frame below the stack pointer, so the open frames lie one below the other.
-/

open Xv6.Bytes Xv6.Run

namespace Xv6.Signal

structure Frame where
  signum : Fin 32
  before : State
  after : State

def Frame.base (f : Frame) : Word := f.after.proc.tf.esp

structure Nest where
  state : State
  /-- The last delivery comes first. -/
  frames : List Frame

inductive NestAct where
  | user (u : State)
  | deliver
  /-- The handler has executed `ret`, and the code at its return address runs. -/
  | ret (tf : Trapframe)

def Frame.Kept (f : Frame) (s u : State) : Prop :=
  (∀ k < frameSize, u.proc.mem (f.base + (k : Nat)) = s.proc.mem (f.base + (k : Nat))) ∧
  f.before.proc.tf.esp.toNat ≤ u.proc.sz.toNat

def Nest.Room (n : Nest) : Prop :=
  frameSize ≤ n.state.proc.tf.esp.toNat ∧ n.state.proc.tf.esp.toNat ≤ n.state.proc.sz.toNat ∧
  ∀ f ∈ n.frames.head?, n.state.proc.tf.esp.toNat ≤ f.base.toNat

def Frame.Leaves (f : Frame) (s : State) (tf : Trapframe) : Prop :=
  tf.esp = f.base + 4 ∧ tf.eip = BitVec.ofNat 32 (getLe s.proc.mem f.base 4)

instance (f : Frame) (s u : State) : Decidable (f.Kept s u) :=
  inferInstanceAs (Decidable ((∀ k < frameSize, u.proc.mem (f.base + (k : Nat)) = s.proc.mem (f.base + (k : Nat))) ∧
    f.before.proc.tf.esp.toNat ≤ u.proc.sz.toNat))

instance (n : Nest) : Decidable n.Room :=
  inferInstanceAs
    (Decidable (frameSize ≤ n.state.proc.tf.esp.toNat ∧ n.state.proc.tf.esp.toNat ≤ n.state.proc.sz.toNat ∧
    ∀ f ∈ n.frames.head?, n.state.proc.tf.esp.toNat ≤ f.base.toNat))

instance (f : Frame) (s : State) (tf : Trapframe) : Decidable (f.Leaves s tf) :=
  inferInstanceAs (Decidable (tf.esp = f.base + 4 ∧ tf.eip = BitVec.ofNat 32 (getLe s.proc.mem f.base 4)))

variable (defaultHandler : Word) (calls : Calls)

def dueSignal (s : State) : Option (Fin 32) :=
  if s.proc.tf.cs &&& 3 = 0 then none
  else (nextSignal s.proc s.ticks).filter fun i => s.proc.signals i ≠ defaultHandler

def nestStep (n : Nest) : NestAct → Option Nest
  | .user u => if ∀ f ∈ n.frames, f.Kept n.state u then some ⟨u, n.frames⟩ else none
  | .deliver =>
    if n.Room then
      match dueSignal defaultHandler n.state with
      | none => none
      | some i =>
        match handleSignal defaultHandler n.state with
        | (.ok (), e) => some ⟨e, ⟨i, n.state, e⟩ :: n.frames⟩
        | _ => none
    else none
  | .ret tf =>
    match n.frames with
    | [] => none
    | f :: frames =>
      if f.Leaves n.state tf then (trampoline calls (n.state.withTf tf)).map fun t => ⟨t, frames⟩ else none

variable {defaultHandler calls}

structure Stacked (defaultHandler : Word) (n : Nest) : Prop where
  delivered : ∀ f ∈ n.frames, Delivered defaultHandler f.signum f.before f.after
  low : ∀ f ∈ n.frames, frameSize ≤ f.before.proc.tf.esp.toNat
  mapped : ∀ f ∈ n.frames, f.before.proc.tf.esp.toNat ≤ n.state.proc.sz.toNat
  kept : ∀ f ∈ n.frames, ∀ k < frameSize, n.state.proc.mem (f.base + (k : Nat)) = f.after.proc.mem (f.base + (k : Nat))
  nested : n.frames.Pairwise fun newer older => newer.before.proc.tf.esp.toNat ≤ older.base.toNat

theorem toNat_add_nat {b : Word} {k : Nat} (h : b.toNat + k < 2 ^ 32) : (b + (k : Word)).toNat = b.toNat + k := by
  have hk : k < 2 ^ 32 := by omega
  rw [BitVec.toNat_add, show ((k : Word)).toNat = k from Nat.mod_eq_of_lt hk, Nat.mod_eq_of_lt h]

theorem toNat_sub_frameSize {sp : Word} (h : frameSize ≤ sp.toNat) :
    (sp - BitVec.ofNat 32 frameSize).toNat = sp.toNat - frameSize := by
  rw [BitVec.toNat_sub_of_le (by simpa [BitVec.le_def, frameSize] using h)]
  rfl

theorem dueSignal_eq_some {s : State} {i : Fin 32} : dueSignal defaultHandler s = some i ↔
    s.proc.tf.cs &&& 3 ≠ 0 ∧ nextSignal s.proc s.ticks = some i ∧ s.proc.signals i ≠ defaultHandler := by
  simp [dueSignal, Option.filter_eq_some_iff]

theorem Delivered.toNat_esp {i : Fin 32} {s e : State} (h : Delivered defaultHandler i s e)
    (hlow : frameSize ≤ s.proc.tf.esp.toNat) : e.proc.tf.esp.toNat + frameSize = s.proc.tf.esp.toNat := by
  rw [(delivered_entry h).1, toNat_sub_frameSize hlow]
  omega

theorem Delivered.above {i : Fin 32} {s e : State} (h : Delivered defaultHandler i s e)
    (hlow : frameSize ≤ s.proc.tf.esp.toNat) {a : Word} (ha : s.proc.tf.esp.toNat ≤ a.toNat) :
    e.proc.mem a = s.proc.mem a := by
  have hdone := h.done
  rw [handleSignal_user h.user h.signal h.handler] at hdone
  have hcleared : (s.cleared i).proc.tf = s.proc.tf := rfl
  refine pushHandler_outside hdone fun k hk heq => ?_
  rw [hcleared] at heq
  have hbase : (s.proc.tf.esp - BitVec.ofNat 32 frameSize).toNat = s.proc.tf.esp.toNat - frameSize :=
    toNat_sub_frameSize hlow
  have hesp : s.proc.tf.esp.toNat < 2 ^ 32 := s.proc.tf.esp.isLt
  have hat : a.toNat = s.proc.tf.esp.toNat - frameSize + k := by
    rw [← heq, ← hbase]
    refine toNat_add_nat ?_
    rw [hbase]
    omega
  omega

namespace Stacked

variable {n : Nest} {f : Frame}

section

variable (h : Stacked defaultHandler n)
include h

theorem toNat_base (hf : f ∈ n.frames) :
    f.base.toNat + frameSize = f.before.proc.tf.esp.toNat :=
  (h.delivered f hf).toNat_esp (h.low f hf)

theorem toNat_byte (hf : f ∈ n.frames) {k : Nat} (hk : k < frameSize) :
    (f.base + (k : Word)).toNat = f.base.toNat + k := by
  have hbase := h.toNat_base hf
  have hesp : f.before.proc.tf.esp.toNat < 2 ^ 32 := f.before.proc.tf.esp.isLt
  exact toNat_add_nat (by omega)

theorem below {sp : Nat} (hsp : ∀ f ∈ n.frames.head?, sp ≤ f.base.toNat) :
    ∀ f ∈ n.frames, sp ≤ f.base.toNat := by
  intro f hf
  cases hframes : n.frames with
  | nil => simp [hframes] at hf
  | cons g frames =>
    have hg : g ∈ n.frames := by simp [hframes]
    have htop : sp ≤ g.base.toNat := hsp g (by simp [hframes])
    have hbase := h.toNat_base hg
    have hnested := h.nested
    rw [hframes, List.pairwise_cons] at hnested
    rw [hframes] at hf
    rcases List.mem_cons.mp hf with rfl | hf
    · exact htop
    · have := hnested.1 f hf
      omega

theorem user {u : State} (hkept : ∀ f ∈ n.frames, f.Kept n.state u) :
    Stacked defaultHandler ⟨u, n.frames⟩ where
  delivered := h.delivered
  low := h.low
  mapped f hf := (hkept f hf).2
  kept f hf k hk := ((hkept f hf).1 k hk).trans (h.kept f hf k hk)
  nested := h.nested

theorem deliver (hroom : n.Room) {i : Fin 32} {e : State}
    (hd : Delivered defaultHandler i n.state e) : Stacked defaultHandler ⟨e, ⟨i, n.state, e⟩ :: n.frames⟩ where
  delivered f hf := by
    rcases List.mem_cons.mp hf with rfl | hf
    · exact hd
    · exact h.delivered f hf
  low f hf := by
    rcases List.mem_cons.mp hf with rfl | hf
    · exact hroom.1
    · exact h.low f hf
  mapped f hf := by
    rw [hd.sz]
    rcases List.mem_cons.mp hf with rfl | hf
    · exact hroom.2.1
    · exact h.mapped f hf
  kept f hf k hk := by
    rcases List.mem_cons.mp hf with rfl | hf
    · rfl
    · have habove := h.below hroom.2.2 f hf
      have hbyte := h.toNat_byte hf hk
      exact (hd.above hroom.1 (by omega)).trans (h.kept f hf k hk)
  nested := List.pairwise_cons.mpr ⟨h.below hroom.2.2, h.nested⟩

theorem returned {frames : List Frame} (hframes : n.frames = f :: frames)
    {tf : Trapframe} (htf : f.Leaves n.state tf) : Returned f.after (n.state.withTf tf) where
  eip := by
    have hf : f ∈ n.frames := by simp [hframes]
    have hsame : readBytes n.state.proc.mem f.base 4 = readBytes f.after.proc.mem f.base 4 :=
      readBytes_congr _ _ _ _ fun k hk => h.kept f hf k (by simp only [frameSize]; omega)
    rw [withTf_tf, htf.2, getLe, hsame]
    rfl
  esp := htf.1
  stack k _ hk := h.kept f (by simp [hframes]) k hk
  there k _ hk := by
    have hf : f ∈ n.frames := by simp [hframes]
    have hbyte : (f.after.proc.tf.esp + (k : Word)).toNat = f.base.toNat + k := h.toNat_byte hf hk
    have hbase := h.toNat_base hf
    have hmapped := h.mapped f hf
    have hround := le_pgroundup n.state.proc.sz.toNat
    simp only [present, decide_eq_true_eq, withTf_sz, hbyte]
    omega

theorem ret (calls : Calls) {frames : List Frame} (hframes : n.frames = f :: frames)
    {tf : Trapframe} (htf : f.Leaves n.state tf) :
    ∃ t, trampoline calls (n.state.withTf tf) = some t ∧ t.proc.tf = f.before.proc.tf.withEax 0 ∧
      Stacked defaultHandler ⟨t, frames⟩ := by
  have hf : f ∈ n.frames := by simp [hframes]
  have hrest (g) (hg : g ∈ frames) : g ∈ n.frames := by simp [hframes, hg]
  obtain ⟨t, ht, htf', hmem, hsz⟩ := trampoline_context calls (h.delivered f hf) (h.returned hframes htf)
  have hnested := h.nested
  rw [hframes, List.pairwise_cons] at hnested
  refine ⟨t, ht, htf', fun g hg => h.delivered g (hrest g hg), fun g hg => h.low g (hrest g hg), fun g hg => ?_,
    fun g hg k hk => ?_, hnested.2⟩
  · rw [hsz]
    exact h.mapped g (hrest g hg)
  · rw [hmem]
    exact h.kept g (hrest g hg) k hk

end

theorem delivered_of_due (hroom : n.Room) {i : Fin 32} (hdue : dueSignal defaultHandler n.state = some i) :
    ∃ e, Delivered defaultHandler i n.state e := by
  obtain ⟨huser, hsignal, hhandler⟩ := dueSignal_eq_some.mp hdue
  obtain ⟨e, -, hd, -⟩ := delivered_room huser hsignal hhandler hroom.1 hroom.2.1
  exact ⟨e, hd⟩

theorem step {n' : Nest} {a : NestAct} (h : Stacked defaultHandler n)
    (hn : nestStep defaultHandler calls n a = some n') : Stacked defaultHandler n' := by
  cases a with
  | user u =>
    obtain ⟨hkept, ⟨⟩⟩ := Option.ite_none_right_eq_some.mp hn
    exact h.user hkept
  | deliver =>
    obtain ⟨hroom, hn⟩ := Option.ite_none_right_eq_some.mp hn
    split at hn
    case h_1 => cases hn
    case h_2 i hdue =>
      obtain ⟨e, hd⟩ := delivered_of_due hroom hdue
      rw [hd.done] at hn
      cases hn
      exact h.deliver hroom hd
  | ret tf =>
    simp only [nestStep] at hn
    split at hn
    case h_1 => cases hn
    case h_2 f frames hframes =>
      obtain ⟨htf, hn⟩ := Option.ite_none_right_eq_some.mp hn
      obtain ⟨t, ht, -, hstacked⟩ := h.ret calls hframes htf
      rw [ht] at hn
      cases hn
      exact hstacked

end Stacked

structure Enters (n n' : Nest) (i : Fin 32) : Prop where
  eip : n'.state.proc.tf.eip = n.state.proc.signals i
  code : readBytes n'.state.proc.mem (BitVec.ofNat 32 (getLe n'.state.proc.mem n'.state.proc.tf.esp 4)) 8 =
    sigreturnCode
  signum : getLe n'.state.proc.mem (n'.state.proc.tf.esp + 4) 4 = i
  above : ∀ a : Word, n.state.proc.tf.esp.toNat ≤ a.toNat → n'.state.proc.mem a = n.state.proc.mem a
  frames : n'.frames = ⟨i, n.state, n'.state⟩ :: n.frames

theorem Delivered.enters {n : Nest} {i : Fin 32} {e : State} (h : Delivered defaultHandler i n.state e)
    (hroom : n.Room) : Enters n ⟨e, ⟨i, n.state, e⟩ :: n.frames⟩ i where
  eip := by
    have hdone := h.done
    rw [handleSignal_user h.user h.signal h.handler] at hdone
    rw [(pushHandler_ok hdone).1]
    rfl
  code := by
    have hcode := returned_code h (h.returns hroom.1 hroom.2.1)
    rwa [withTf_mem, withTf_tf, withEsp_eip, withEip_eip] at hcode
  signum := delivered_signum h
  above _ ha := h.above hroom.1 ha
  frames := rfl

/-- A signal that is due enters its handler on a frame of its own, and the handler returns to what was interrupted, but
for `eax`. -/
theorem frames_unwind {s : State} {as : List NestAct} {n : Nest}
    (hrun : run (nestStep defaultHandler calls) ⟨s, []⟩ as = some n) :
    (∀ i, dueSignal defaultHandler n.state = some i → n.Room →
      ∃ n', nestStep defaultHandler calls n .deliver = some n' ∧ Enters n n' i) ∧
    ∀ f frames, n.frames = f :: frames → ∀ tf, f.Leaves n.state tf →
      ∃ t, nestStep defaultHandler calls n (.ret tf) = some ⟨t, frames⟩ ∧
        t.proc.tf = f.before.proc.tf.withEax 0 := by
  have hnone {f : Frame} (hf : f ∈ []) : False := List.not_mem_nil hf
  have hstart : Stacked defaultHandler ⟨s, []⟩ :=
    ⟨fun _ hf => (hnone hf).elim, fun _ hf => (hnone hf).elim, fun _ hf => (hnone hf).elim, fun _ hf => (hnone hf).elim,
      List.Pairwise.nil⟩
  have h : Stacked defaultHandler n := run_invariant (fun _ _ _ h ht => h.step ht) hstart hrun
  constructor
  · intro i hdue hroom
    obtain ⟨e, hd⟩ := Stacked.delivered_of_due hroom hdue
    exact ⟨_, by simp only [nestStep, if_pos hroom, hdue, hd.done], hd.enters hroom⟩
  · intro f frames hframes tf htf
    obtain ⟨t, ht, hback, -⟩ := h.ret calls hframes htf
    exact ⟨t, by simp only [nestStep, hframes, if_pos htf, ht, Option.map_some], hback⟩

def interruptTwice : List NestAct :=
  let e := (handleSignal kernelHandler (interrupted 1)).2
  [.deliver, .user { e with proc := sigsend 5 e.proc }, .deliver]

theorem interruptTwice_unwinds :
    ∃ n f g, run (nestStep kernelHandler noCalls) ⟨interrupted 1, []⟩ interruptTwice = some n ∧
    n.frames = [f, g] ∧ ∀ tf, f.Leaves n.state tf →
      ∃ t, nestStep kernelHandler noCalls n (.ret tf) = some ⟨t, [g]⟩ ∧ t.proc.tf = f.before.proc.tf.withEax 0 := by
  have hrun : (run (nestStep kernelHandler noCalls) ⟨interrupted 1, []⟩ interruptTwice).map (fun n => n.frames.length) =
      some 2 := by
    decide +kernel
  obtain ⟨n, hn, hlength⟩ := Option.map_eq_some_iff.mp hrun
  obtain ⟨f, g, hframes⟩ := List.length_eq_two.mp hlength
  exact ⟨n, f, g, hn, hframes, (frames_unwind hn).2 f [g] hframes⟩

end Xv6.Signal
