import Xv6.Signal.Process

/-!
# Privilege

All kernel code keeps the segment registers and the privileged flags, except `sigreturn`, which takes them from user
memory.
-/

open Xv6.Bytes Xv6.Run

namespace Xv6.Signal

/-- The processor leaves the kernel for ring 3, with interrupts on and no access to ports. -/
structure UserMode (tf : Trapframe) : Prop where
  cs : tf.cs = userSelector segUcode
  ds : tf.ds = userSelector segUdata
  es : tf.es = userSelector segUdata
  ss : tf.ss = userSelector segUdata
  interrupts : tf.eflags &&& flIf ≠ 0
  iopl : tf.eflags &&& flIoplMask = 0

theorem keepsMode_refl (a : Trapframe) : KeepsMode a a := ⟨rfl, rfl, rfl, rfl, rfl⟩

theorem KeepsMode.trans {a b c : Trapframe} (h : KeepsMode a b) (k : KeepsMode b c) : KeepsMode a c :=
  ⟨k.cs.trans h.cs, k.ds.trans h.ds, k.es.trans h.es, k.ss.trans h.ss, k.eflags.trans h.eflags⟩

theorem KeepsMode.symm {a b : Trapframe} (h : KeepsMode a b) : KeepsMode b a :=
  ⟨h.cs.symm, h.ds.symm, h.es.symm, h.ss.symm, h.eflags.symm⟩

theorem KeepsMode.userMode {a b : Trapframe} (h : KeepsMode a b) (ha : UserMode a) : UserMode b := by
  have hif : ∀ x : Word, x &&& flIf = (x &&& (flIf ||| flIoplMask)) &&& flIf := by
    intro x
    rw [BitVec.and_assoc]
    rfl
  have hiopl : ∀ x : Word, x &&& flIoplMask = (x &&& (flIf ||| flIoplMask)) &&& flIoplMask := by
    intro x
    rw [BitVec.and_assoc]
    rfl
  refine ⟨h.cs.trans ha.cs, h.ds.trans ha.ds, h.es.trans ha.es, h.ss.trans ha.ss, ?_, ?_⟩
  · rw [hif, h.eflags, ← hif]
    exact ha.interrupts
  · rw [hiopl, h.eflags, ← hiopl]
    exact ha.iopl

theorem KeepsMode.userMode_iff {a b : Trapframe} (h : KeepsMode a b) : UserMode b ↔ UserMode a :=
  ⟨h.symm.userMode, h.userMode⟩

/-! ## Kernel code that keeps the mode -/

def SameMode (s t : State) : Prop := KeepsMode s.proc.tf t.proc.tf

instance : IsPreorder State SameMode where
  refl s := keepsMode_refl s.proc.tf
  trans _ _ _ := KeepsMode.trans

theorem sameMode_of_tf {s t : State} (h : t.proc.tf = s.proc.tf) : SameMode s t := by
  unfold SameMode
  rw [h]
  exact keepsMode_refl _

theorem touch_sameMode (a : Word) (n : Nat) : (touch a n).Keeps SameMode := by
  intro s
  rw [touch_run]
  exact sameMode_of_tf rfl

theorem modifyProc_sameMode {f : Proc → Proc} (h : ∀ p, (f p).tf = p.tf) : (modifyProc f).Keeps SameMode :=
  fun s => sameMode_of_tf (h s.proc)

theorem modifyTf_sameMode {f : Trapframe → Trapframe} (h : ∀ tf, KeepsMode tf (f tf)) :
    (modifyTf f).Keeps SameMode :=
  fun s => h s.proc.tf

theorem load_sameMode (a : Word) (n : Nat) : (load a n).Keeps SameMode :=
  bind_keeps (touch_sameMode a n) fun _ => bind_keeps getState_keeps fun _ => pure_keeps _

theorem store_sameMode (a : Word) (bs : List Byte) : (store a bs).Keeps SameMode :=
  store_keeps touch_sameMode (fun _ => modifyProc_sameMode fun _ => rfl) a bs

theorem esp_sameMode (f : Trapframe → Word) : (modifyTf fun tf => tf.withEsp (f tf)).Keeps SameMode :=
  modifyTf_sameMode fun _ => ⟨rfl, rfl, rfl, rfl, rfl⟩

theorem fetchint_sameMode (addr : Word) : (fetchint addr).Keeps SameMode :=
  bind_keeps getState_keeps fun _ =>
    ite_keeps (pure_keeps _) (bind_keeps (load_sameMode _ _) fun _ => pure_keeps _)

theorem argint_sameMode (n : Word) : (argint n).Keeps SameMode :=
  bind_keeps getState_keeps fun _ => fetchint_sameMode _

theorem pushHandler_sameMode (i : Fin 32) (handler : Word) : (pushHandler i handler).Keeps SameMode :=
  pushHandler_keeps esp_sameMode (fun _ => modifyTf_sameMode fun _ => ⟨rfl, rfl, rfl, rfl, rfl⟩) store_sameMode
    i handler

theorem getLitSignal_sameMode : getLitSignal.Keeps SameMode := by
  refine bind_keeps getState_keeps fun s => ?_
  cases nextSignal s.proc s.ticks with
  | none => exact pure_keeps _
  | some i => exact bind_keeps (modifyProc_sameMode fun _ => rfl) fun _ => pure_keeps _

theorem handleSignal_sameMode (defaultHandler : Word) : (handleSignal defaultHandler).Keeps SameMode := by
  refine bind_keeps getState_keeps fun _ => ite_keeps (pure_keeps _) ?_
  refine bind_keeps getLitSignal_sameMode fun litSignal => ?_
  cases litSignal with
  | none => exact pure_keeps _
  | some i =>
    exact bind_keeps getState_keeps fun _ => ite_keeps (pure_keeps _) (pushHandler_sameMode _ _)

theorem signal_sameMode (signum handler : Word) : (signal signum handler).Keeps SameMode :=
  ite_keeps (pure_keeps _) <| bind_keeps getState_keeps fun _ =>
    bind_keeps (modifyProc_sameMode fun _ => rfl) fun _ => pure_keeps _

theorem alarm_sameMode (tickTime : Word) : (alarm tickTime).Keeps SameMode := by
  refine ite_keeps ?_ ?_
  · exact bind_keeps (modifyProc_sameMode fun _ => rfl) fun _ => pure_keeps _
  · exact bind_keeps getState_keeps fun _ => bind_keeps (modifyProc_sameMode fun _ => rfl) fun _ => pure_keeps _

theorem sysSignal_sameMode : sysSignal.Keeps SameMode := by
  refine bind_keeps (argint_sameMode 0) fun signum => ?_
  cases signum with
  | none => exact pure_keeps _
  | some signum =>
    refine bind_keeps (argint_sameMode 1) fun handle => ?_
    cases handle with
    | none => exact pure_keeps _
    | some handle => exact signal_sameMode signum handle

theorem sysAlarm_sameMode : sysAlarm.Keeps SameMode := by
  refine bind_keeps (argint_sameMode 0) fun tickTime => ?_
  cases tickTime with
  | none => exact pure_keeps _
  | some tickTime => exact alarm_sameMode tickTime

theorem callExec_sameMode (calls : Calls) : calls.callExec.Keeps SameMode := by
  intro s
  unfold Calls.callExec
  split
  · exact refl_of SameMode s
  · exact ⟨rfl, rfl, rfl, rfl, rfl⟩

theorem sysCall_sameMode (calls : Calls) {num : Word} (h : num ≠ sysSigreturnNum) :
    (sysCall calls num).Keeps SameMode := by
  unfold sysCall
  rw [if_neg h]
  refine ite_keeps sysSignal_sameMode (ite_keeps sysAlarm_sameMode (ite_keeps (callExec_sameMode calls) ?_))
  exact fun s => sameMode_of_tf rfl

theorem happen_sameMode (events : List Event) : (happen events).Keeps SameMode := by
  intro s
  apply sameMode_of_tf
  change (events.foldl Event.apply s).proc.tf = s.proc.tf
  induction events generalizing s with
  | nil => rfl
  | cons e es ih =>
    rw [List.foldl_cons, ih]
    cases e <;> rfl

theorem exitIf_sameMode (c : Bool) : (exitIf c).Keeps SameMode := ite_keeps (pure_keeps _) (pure_keeps _)

theorem serveInterrupt_sameMode (tf : Trapframe) (cpunum : Nat) : (serveInterrupt tf cpunum).Keeps SameMode :=
  ite_keeps (happen_sameMode _) <| ite_keeps (pure_keeps _) <|
    ite_keeps (fun t => refl_of SameMode t) (modifyProc_sameMode fun _ => rfl)

/-! ## System calls -/

def restored (s : State) : Trapframe :=
  .ofBytes (readBytes s.proc.mem (s.proc.tf.esp + 4) trapframeSize)

theorem syscall_sameMode (calls : Calls) {s : State} (h : s.proc.tf.eax ≠ sysSigreturnNum) :
    SameMode s (syscall calls s).2 := by
  unfold syscall
  rw [getState_bind]
  have heax : ∀ r, (modifyTf fun tf => tf.withEax r).Keeps SameMode :=
    fun r => modifyTf_sameMode fun _ => ⟨rfl, rfl, rfl, rfl, rfl⟩
  exact ite_keeps (bind_keeps (sysCall_sameMode calls h) heax) (heax _) s

theorem syscall_restored (calls : Calls) {s t : State} {u : Unit} (heax : s.proc.tf.eax = sysSigreturnNum)
    (h : syscall calls s = (.ok u, t)) : KeepsMode (restored s) t.proc.tf := by
  have hrange : (0#32).slt sysSigreturnNum ∧ sysSigreturnNum.toNat < nelemSyscalls := by decide
  unfold syscall at h
  rw [getState_bind, heax, if_pos hrange, sysCall, if_pos rfl] at h
  obtain ⟨r, v, hret, hv⟩ := bind_ok h
  unfold sigreturn at hret
  rw [modifyTf_bind, getState_bind] at hret
  obtain ⟨bs, w, hload, hw⟩ := bind_ok hret
  obtain ⟨-, rfl, rfl⟩ := load_ok hload
  rw [modifyTf_bind, pure_run] at hw
  rw [modifyTf_run] at hv
  simp only [Prod.mk.injEq] at hw hv
  rw [← hv.2, ← hw.2]
  exact ⟨rfl, rfl, rfl, rfl, rfl⟩

/-! ## The way back to user code -/

theorem trap_syscall_ok {calls : Calls} {cpunum : Nat} {events : List Event} {s t : State} {o : Outcome}
    (htrap : s.proc.tf.trapno = tSyscall) (h : trap calls cpunum events s = (.ok o, t)) :
    s.proc.killed = true ∧ o = .exited ∨ ∃ u, syscall calls s = (.ok (), u) ∧ SameMode u t := by
  unfold trap at h
  rw [getState_bind, if_pos htrap] at h
  split at h
  case isTrue hkilled =>
    rw [pure_run, Prod.mk.injEq, Except.ok.injEq] at h
    exact .inl ⟨hkilled, h.1.symm⟩
  case isFalse =>
    obtain ⟨a, u, hsys, hrest⟩ := bind_ok h
    refine .inr ⟨u, hsys, ?_⟩
    have hkeeps := bind_keeps (happen_sameMode events) (fun _ =>
      bind_keeps getState_keeps fun s : State => exitIf_sameMode s.proc.killed) u
    rw [hrest] at hkeeps
    exact hkeeps

theorem trap_sameMode (calls : Calls) (cpunum : Nat) (events : List Event) {s : State}
    (h : s.proc.tf.trapno = tSyscall → s.proc.tf.eax ≠ sysSigreturnNum) :
    SameMode s (trap calls cpunum events s).2 := by
  unfold trap
  rw [getState_bind]
  split
  case isTrue htrap =>
    split
    · exact refl_of SameMode s
    · refine bind_keeps_at (syscall_sameMode calls (h htrap)) fun _ t _ => ?_
      exact bind_keeps (happen_sameMode events) (fun _ =>
        bind_keeps getState_keeps fun s : State => exitIf_sameMode s.proc.killed) t
  case isFalse =>
    refine bind_keeps (serveInterrupt_sameMode _ cpunum) (fun _ => ?_) s
    refine bind_keeps getState_keeps fun t => ?_
    refine ite_keeps (pure_keeps _) ?_
    exact bind_keeps (happen_sameMode events) fun _ => bind_keeps getState_keeps fun _ => exitIf_sameMode _

theorem alltraps_sameMode (defaultHandler : Word) (calls : Calls) (cpunum : Nat) (events : List Event) {s : State}
    (h : s.proc.tf.trapno = tSyscall → s.proc.tf.eax ≠ sysSigreturnNum) :
    SameMode s (alltraps defaultHandler calls cpunum events s).2 := by
  refine bind_keeps_at (trap_sameMode calls cpunum events h) fun o t _ => ?_
  cases o with
  | exited => exact refl_of SameMode t
  | back => exact bind_keeps (handleSignal_sameMode defaultHandler) (fun _ => pure_keeps _) t

theorem alltraps_restored {defaultHandler : Word} {calls : Calls} {cpunum : Nat} {events : List Event} {s t : State}
    (htrap : s.proc.tf.trapno = tSyscall) (heax : s.proc.tf.eax = sysSigreturnNum)
    (h : alltraps defaultHandler calls cpunum events s = (.ok .back, t)) : KeepsMode (restored s) t.proc.tf := by
  obtain ⟨o, u, hu, ht⟩ := bind_ok h
  cases o with
  | exited => simp at ht
  | back =>
    rcases trap_syscall_ok htrap hu with ⟨-, ho⟩ | ⟨v, hv, hmode⟩
    · simp at ho
    · have hsignal := bind_keeps (handleSignal_sameMode defaultHandler)
        (fun _ => pure_keeps (R := SameMode) Outcome.back) u
      change (handleSignal defaultHandler >>= fun _ => pure Outcome.back) u = _ at ht
      rw [ht] at hsignal
      exact ((syscall_restored calls heax hv).trans hmode).trans hsignal

/-! ## Runs -/

def RestoresUserMode (s : State) : Act → Prop
  | .trap e _ _ _ => e.tf.trapno = tSyscall → e.tf.eax = sysSigreturnNum → UserMode (restored (s.entered e))
  | .fork _ _ => True
  | .event _ => True

theorem step_userMode_iff {defaultHandler : Word} (s : State) (a : Act) (t : State) (hs : UserMode s.proc.tf)
    (h : step defaultHandler s a = some t) : UserMode t.proc.tf ↔ RestoresUserMode s a := by
  cases a with
  | trap e calls cpunum events =>
    simp only [step] at h
    split at h
    case isFalse => simp at h
    case isTrue huser =>
      split at h
      case h_2 => simp at h
      case h_1 u hback =>
        obtain rfl : u = t := by simpa using h
        by_cases hret : e.tf.trapno = tSyscall ∧ e.tf.eax = sysSigreturnNum
        · obtain ⟨htrap, heax⟩ := hret
          rw [(alltraps_restored (s := s.entered e) htrap heax hback).userMode_iff]
          exact ⟨fun hu _ _ => hu, fun hu => hu htrap heax⟩
        · have hmode := alltraps_sameMode defaultHandler calls cpunum events (s := s.entered e)
            (fun htrap heax => hret ⟨htrap, heax⟩)
          rw [hback] at hmode
          exact iff_of_true ((huser.trans hmode).userMode hs) fun htrap heax => (hret ⟨htrap, heax⟩).elim
  | fork e alarmEnd =>
    simp only [step] at h
    split at h
    case isFalse => simp at h
    case isTrue huser =>
      split at h
      case h_2 => simp at h
      case h_1 u hback =>
        obtain rfl : u = t := by simpa using h
        have hmode := handleSignal_sameMode defaultHandler { s with proc := fork alarmEnd (s.entered e).proc }
        rw [hback] at hmode
        have hchild : KeepsMode e.tf (e.tf.withEax 0) := ⟨rfl, rfl, rfl, rfl, rfl⟩
        exact iff_of_true (((huser.1.trans hchild).trans hmode).userMode hs) trivial
  | event e =>
    simp only [step, Option.some.injEq] at h
    have htf : t.proc.tf = s.proc.tf := by rw [← h]; cases e <;> rfl
    rw [htf]
    exact iff_of_true hs trivial

theorem userinit_userMode (defaultHandler : Word) (initcode : Word → Byte) :
    UserMode (userinit defaultHandler initcode).tf :=
  ⟨rfl, rfl, rfl, rfl, show flIf &&& flIf ≠ 0 by decide, show flIf &&& flIoplMask = 0 by decide⟩

def firstState : State := ⟨userinit kernelHandler fun _ => 0, 0, []⟩

def sigreturnEntry (frame : Trapframe) : Entry where
  tf := { firstState.proc.tf with eax := sysSigreturnNum, trapno := tSyscall, esp := 252 }
  mem := writeBytes firstState.proc.mem 256 frame.bytes

def sigreturnAct (frame : Trapframe) : Act := .trap (sigreturnEntry frame) noCalls 0 []

theorem nextSignal_idle {p : Proc} (h : p.pending = 0) (ticks : Word) : nextSignal p ticks = none := by
  simp [nextSignal, lit, h]

theorem handleSignal_idle (defaultHandler : Word) {s : State} (h : s.proc.pending = 0) :
    handleSignal defaultHandler s = (.ok (), s) :=
  handleSignal_none (nextSignal_idle h _)

theorem alltraps_sigreturn (defaultHandler : Word) (calls : Calls) (cpunum : Nat) {s : State} {frame : Trapframe}
    (htrap : s.proc.tf.trapno = tSyscall) (heax : s.proc.tf.eax = sysSigreturnNum) (hkilled : s.proc.killed = false)
    (hpending : s.proc.pending = 0)
    (hthere : ∀ k < trapframeSize, present s.proc (s.proc.tf.esp + 4 + k) = true)
    (hread : readBytes s.proc.mem (s.proc.tf.esp + 4) trapframeSize = frame.bytes) :
    alltraps defaultHandler calls cpunum [] s =
      (.ok .back, (s.touched (s.proc.tf.esp + 4) trapframeSize).withTf (frame.withEax 0)) := by
  let t := (s.touched (s.proc.tf.esp + 4) trapframeSize).withTf (frame.withEax 0)
  have hexit : (happen [] >>= fun _ => getState >>= fun u => exitIf u.proc.killed) t = (.ok .back, t) := by
    change exitIf s.proc.killed t = _
    rw [hkilled]
    rfl
  have hback : trap calls cpunum [] s = (.ok .back, t) := by
    unfold trap
    rw [getState_bind, if_pos htrap, if_neg (by simp [hkilled]),
      bind_of_ok _ (syscall_sigreturn calls heax hthere hread)]
    exact hexit
  unfold alltraps
  rw [bind_of_ok _ hback]
  exact bind_of_ok _ (handleSignal_idle defaultHandler hpending)

theorem readBytes_sigreturnEntry (frame : Trapframe) :
    readBytes (sigreturnEntry frame).mem 256 trapframeSize = frame.bytes := by
  have hbytes := readBytes_writeBytes firstState.proc.mem (256 : Word) frame.bytes
    (spread_word _ (by rw [bytes_length]; decide))
  rwa [bytes_length] at hbytes

theorem sigreturnAct_step (frame : Trapframe) :
    ∃ t, step kernelHandler firstState (sigreturnAct frame) = some t ∧ t.proc.tf = frame.withEax 0 := by
  have hthere : firstFault (firstState.entered (sigreturnEntry frame)).proc 256 trapframeSize = none :=
    firstFault_inside _ _ _ (show 256 + 76 ≤ 4096 by decide)
  have hall := alltraps_sigreturn kernelHandler noCalls 0 (s := firstState.entered (sigreturnEntry frame))
    rfl rfl rfl rfl (firstFault_eq_none.mp hthere) (readBytes_sigreturnEntry frame)
  have hkeeps : KeepsMode firstState.proc.tf (sigreturnEntry frame).tf := ⟨rfl, rfl, rfl, rfl, rfl⟩
  simp only [sigreturnAct, step]
  rw [if_pos hkeeps, hall]
  exact ⟨_, rfl, rfl⟩

theorem restored_sigreturnEntry (frame : Trapframe) :
    restored (firstState.entered (sigreturnEntry frame)) = frame :=
  (congrArg Trapframe.ofBytes (readBytes_sigreturnEntry frame)).trans (ofBytes_bytes frame)

end Xv6.Signal
