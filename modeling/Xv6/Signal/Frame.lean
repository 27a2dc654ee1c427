import Xv6.Signal.Kernel

/-! # A signal and its way back

`handleSignal` puts a frame on the user stack, the handler returns into the trampoline, and
`sigreturn` reads the frame back.
-/

open Xv6.Bytes

namespace Xv6.Signal

/-! ## The struct in memory -/

theorem packFields_append (fs gs : List (Nat × Nat)) :
    packFields (fs ++ gs) = packFields fs ++ packFields gs := by
  simp [packFields]

theorem bytes_eq (tf : Trapframe) :
    tf.bytes = packFields tf.lowFields ++ toLe 4 tf.esp.toNat ++ packFields tf.highFields := by
  rw [Trapframe.bytes, Trapframe.fields, packFields_append, packFields_append]
  simp [packFields]

@[simp] theorem lowFields_length (tf : Trapframe) : (packFields tf.lowFields).length = espOffset := by
  simp [packFields, Trapframe.lowFields, espOffset]

@[simp] theorem highFields_length (tf : Trapframe) : (packFields tf.highFields).length = 4 := by
  simp [packFields, Trapframe.highFields]

@[simp] theorem bytes_length (tf : Trapframe) : tf.bytes.length = trapframeSize := by
  simp [bytes_eq, espOffset, trapframeSize]

theorem ofBytes_bytes (tf : Trapframe) : Trapframe.ofBytes tf.bytes = tf := by
  have hw : trapframeWidths = tf.fields.map Prod.fst := rfl
  have hlt : ∀ f ∈ tf.fields, f.2 < 256 ^ f.1 := by
    intro f hf
    simp only [Trapframe.fields, Trapframe.lowFields, Trapframe.highFields, List.cons_append,
      List.nil_append, List.mem_cons, List.not_mem_nil, or_false] at hf
    rcases hf with rfl | rfl | rfl | rfl | rfl | rfl | rfl | rfl | rfl | rfl | rfl | rfl | rfl | rfl |
      rfl | rfl | rfl | rfl | rfl | rfl | rfl | rfl | rfl | rfl | rfl
    all_goals exact BitVec.isLt _
  rw [Trapframe.ofBytes, Trapframe.bytes, hw, unpackFields_packFields _ hlt]
  simp [Trapframe.ofFields, Trapframe.fields, Trapframe.lowFields, Trapframe.highFields]

/-! ## The frame on the user stack -/

def frameSize : Nat := 92

/-- The stack a handler starts on: return address, signal number, saved context, trampoline. -/
def frameBytes (tf : Trapframe) (i : Fin 32) : List Byte :=
  toLe 4 (tf.esp - 8).toNat ++ toLe 4 i ++ tf.bytes ++ sigreturnCode

@[simp] theorem sigreturnCode_length : sigreturnCode.length = 8 := rfl

theorem patch_esp (tf : Trapframe) (sp : Word) :
    (tf.withEsp sp).bytes.take espOffset ++ toLe 4 tf.esp.toNat ++
      (tf.withEsp sp).bytes.drop (espOffset + 4) = tf.bytes := by
  have htake : (tf.withEsp sp).bytes.take espOffset = packFields tf.lowFields := by
    rw [bytes_eq, List.append_assoc, List.take_left' (lowFields_length _)]
    rfl
  have hdrop : (tf.withEsp sp).bytes.drop (espOffset + 4) = packFields tf.highFields := by
    rw [bytes_eq, List.drop_left' (by simp)]
    rfl
  rw [htake, hdrop, bytes_eq tf]

theorem frame_readBytes (m : Word → Byte) (b : Word) (tf : Trapframe) (sp : Word) (i : Fin 32)
    (ret : Nat) :
    readBytes (writeBytes (writeBytes (writeBytes (writeBytes (writeBytes m (b + (84 : Nat)) sigreturnCode)
      (b + (8 : Nat)) (tf.withEsp sp).bytes) (b + (76 : Nat)) (toLe 4 tf.esp.toNat))
      (b + (4 : Nat)) (toLe 4 i)) (b + (0 : Nat)) (toLe 4 ret)) b frameSize =
    toLe 4 ret ++ toLe 4 i ++ tf.bytes ++ sigreturnCode := by
  have hs : Spread Word frameSize := spread_word _ (by decide)
  have hpatch := patch_esp tf sp
  have hlen : (tf.withEsp sp).bytes.length = 76 := bytes_length _
  generalize (tf.withEsp sp).bytes = saved at hpatch hlen
  rw [readBytes_writeBytes_within _ _ _ _ _ hs (by simp [frameSize]),
    readBytes_writeBytes_within _ _ _ _ _ hs (by simp [frameSize]),
    readBytes_writeBytes_within _ _ _ _ _ hs (by simp [frameSize]),
    readBytes_writeBytes_within _ _ _ _ _ hs (by simp [frameSize, hlen]),
    readBytes_writeBytes_within _ _ _ _ _ hs (by simp [frameSize]), ← hpatch]
  have hm : (readBytes m b frameSize).length = 92 := readBytes_length _ _ _
  generalize readBytes m b frameSize = old at hm
  have hend : old.drop 92 = [] := List.drop_eq_nil_of_le (by omega)
  have hgap : ((old.take 84).take 8).drop 80 = [] := List.drop_eq_nil_of_le (by simp)
  simp [List.take_append, List.drop_append, hm, hlen, espOffset, hend, hgap]

theorem push_addr (sp d : Word) (k : Nat) (h : d + (k : Word) = BitVec.ofNat 32 frameSize) :
    sp - d = sp - BitVec.ofNat 32 frameSize + (k : Word) := by
  rw [← h, sub_add_eq_sub_sub, sub_add_cancel]

theorem pushHandler_stores {i : Fin 32} {handler : Word} {s t : State} {u : Unit}
    (h : pushHandler i handler s = (.ok u, t)) :
    t.proc.tf = (s.proc.tf.withEsp (s.proc.tf.esp - BitVec.ofNat 32 frameSize)).withEip handler ∧
    t.proc.sz = s.proc.sz ∧ ∃ b : Word, b = s.proc.tf.esp - BitVec.ofNat 32 frameSize ∧
    t.proc.mem = writeBytes (writeBytes (writeBytes (writeBytes (writeBytes s.proc.mem (b + (84 : Nat)) sigreturnCode)
      (b + (8 : Nat)) (s.proc.tf.withEsp (b + (8 : Nat))).bytes) (b + (76 : Nat)) (toLe 4 s.proc.tf.esp.toNat))
      (b + (4 : Nat)) (toLe 4 i)) (b + (0 : Nat)) (toLe 4 (s.proc.tf.esp - 8).toNat) := by
  unfold pushHandler at h
  simp only [getState_bind, modifyTf_bind, withTf_tf, withEsp_esp] at h
  replace h := (store_bind_ok h).2
  simp only [getState_bind, modifyTf_bind, stored_tf, withTf_tf, withEsp_esp, withEsp_withEsp] at h
  replace h := (store_bind_ok h).2
  simp only [getState_bind, stored_tf, withTf_tf, withEsp_esp] at h
  replace h := (store_bind_ok h).2
  simp only [getState_bind, modifyTf_bind, stored_tf, withTf_tf, withEsp_esp, withEsp_withEsp] at h
  replace h := (store_bind_ok h).2
  simp only [getState_bind, modifyTf_bind, stored_tf, withTf_tf, withEsp_esp, withEsp_withEsp] at h
  replace h := (store_bind_ok h).2
  simp only [modifyTf_run, stored_tf, withTf_tf, Prod.mk.injEq, true_and] at h
  subst h
  simp only [withTf_tf, stored_mem, withTf_mem, withTf_sz, stored_sz, true_and, sigreturnCode_length]
  have h0 : s.proc.tf.esp - 8#32 - BitVec.ofNat 32 trapframeSize - 4 - 4 =
      s.proc.tf.esp - BitVec.ofNat 32 frameSize + ((0 : Nat) : Word) := by
    simp only [sub_sub]; exact push_addr _ _ _ (by decide)
  have h4 : s.proc.tf.esp - 8#32 - BitVec.ofNat 32 trapframeSize - 4 =
      s.proc.tf.esp - BitVec.ofNat 32 frameSize + ((4 : Nat) : Word) := by
    simp only [sub_sub]; exact push_addr _ _ _ (by decide)
  have h76 : s.proc.tf.esp - 8#32 - BitVec.ofNat 32 trapframeSize + BitVec.ofNat 32 espOffset =
      s.proc.tf.esp - BitVec.ofNat 32 frameSize + ((76 : Nat) : Word) := by
    rw [sub_sub, sub_add]; exact push_addr _ _ _ (by decide)
  have h8 : s.proc.tf.esp - 8#32 - BitVec.ofNat 32 trapframeSize =
      s.proc.tf.esp - BitVec.ofNat 32 frameSize + ((8 : Nat) : Word) := by
    simp only [sub_sub]; exact push_addr _ _ _ (by decide)
  have h84 : s.proc.tf.esp - 8#32 = s.proc.tf.esp - BitVec.ofNat 32 frameSize + ((84 : Nat) : Word) :=
    push_addr _ _ _ (by decide)
  refine ⟨by rw [h0]; simp, _, rfl, ?_⟩
  rw [h0, h4, h76, h8, ← h84]
  rfl

theorem pushHandler_ok {i : Fin 32} {handler : Word} {s t : State} {u : Unit}
    (h : pushHandler i handler s = (.ok u, t)) :
    t.proc.tf = (s.proc.tf.withEsp (s.proc.tf.esp - BitVec.ofNat 32 frameSize)).withEip handler ∧
    readBytes t.proc.mem (s.proc.tf.esp - BitVec.ofNat 32 frameSize) frameSize = frameBytes s.proc.tf i ∧
    t.proc.sz = s.proc.sz := by
  obtain ⟨htf, hsz, b, rfl, hmem⟩ := pushHandler_stores h
  refine ⟨htf, ?_, hsz⟩
  rw [hmem, frame_readBytes]
  rfl

theorem pushHandler_outside {i : Fin 32} {handler : Word} {s t : State} {u : Unit}
    (h : pushHandler i handler s = (.ok u, t)) {a : Word}
    (ha : ∀ k < frameSize, s.proc.tf.esp - BitVec.ofNat 32 frameSize + (k : Word) ≠ a) :
    t.proc.mem a = s.proc.mem a := by
  obtain ⟨-, -, b, rfl, hmem⟩ := pushHandler_stores h
  have hslot (j n : Nat) (hj : j + n ≤ frameSize) :
      ∀ k < n, s.proc.tf.esp - BitVec.ofNat 32 frameSize + (j : Word) + (k : Word) ≠ a := by
    intro k hk
    rw [add_assoc, ← Nat.cast_add]
    exact ha (j + k) (by omega)
  rw [hmem, writeBytes_outside _ _ _ _ (hslot 0 _ (by simp [frameSize])),
    writeBytes_outside _ _ _ _ (hslot 4 _ (by simp [frameSize])),
    writeBytes_outside _ _ _ _ (hslot 76 _ (by simp [frameSize])),
    writeBytes_outside _ _ _ _ (hslot 8 _ (by simp [frameSize, trapframeSize])),
    writeBytes_outside _ _ _ _ (hslot 84 _ (by simp [frameSize]))]

theorem slot_inside {p : Proc} {sp : Word} (d : Word) {n : Nat} (hd : d.toNat ≤ sp.toNat) (hn : n ≤ d.toNat)
    (hsp : sp.toNat ≤ p.sz.toNat) : firstFault p (sp - d) n = none := by
  apply firstFault_inside
  rw [BitVec.toNat_sub_of_le (by simpa [BitVec.le_def] using hd)]
  omega

theorem pushHandler_room (i : Fin 32) (handler : Word) (s : State) (hlow : frameSize ≤ s.proc.tf.esp.toNat)
    (hhigh : s.proc.tf.esp.toNat ≤ s.proc.sz.toNat) :
    ∃ t, pushHandler i handler s = (.ok (), t) := by
  simp only [frameSize] at hlow
  have h84 : s.proc.tf.esp - 8#32 - BitVec.ofNat 32 trapframeSize = s.proc.tf.esp - 84 := by
    rw [sub_sub]; rfl
  have h16 : s.proc.tf.esp - 84 + BitVec.ofNat 32 espOffset = s.proc.tf.esp - 16 := by
    rw [sub_add]; rfl
  have h88 : s.proc.tf.esp - 84 - 4 = s.proc.tf.esp - 88 := by rw [sub_sub]; rfl
  have h92 : s.proc.tf.esp - 88 - 4 = s.proc.tf.esp - 92 := by rw [sub_sub]; rfl
  have hroom : ∀ d : Word, d.toNat ≤ 92 → ∀ n ≤ d.toNat, ∀ t : State, t.proc.sz = s.proc.sz →
      firstFault t.proc (s.proc.tf.esp - d) n = none :=
    fun d hd n hn t ht => slot_inside d (by omega) hn (by rw [ht]; exact hhigh)
  unfold pushHandler
  simp only [getState_bind, modifyTf_bind, withTf_tf, withEsp_esp, sigreturnCode_length]
  rw [store_bind_of_none _ (hroom 8#32 (by decide) _ (by decide) _ (by simp))]
  simp only [getState_bind, modifyTf_bind, stored_tf, withTf_tf, withEsp_esp, withEsp_withEsp, h84]
  rw [store_bind_of_none _ (hroom 84 (by decide) _ (by simp [trapframeSize]) _ (by simp))]
  simp only [getState_bind, stored_tf, withTf_tf, withEsp_esp, h16]
  rw [store_bind_of_none _ (hroom 16 (by decide) _ (by simp) _ (by simp))]
  simp only [getState_bind, modifyTf_bind, stored_tf, withTf_tf, withEsp_esp, withEsp_withEsp, h88]
  rw [store_bind_of_none _ (hroom 88 (by decide) _ (by simp) _ (by simp))]
  simp only [getState_bind, modifyTf_bind, stored_tf, withTf_tf, withEsp_esp, withEsp_withEsp, h92]
  rw [store_bind_of_none _ (hroom 92 (by decide) _ (by simp) _ (by simp)), modifyTf_run]
  exact ⟨_, rfl⟩

/-! ## The handler -/

/-- The handler entered in `e` has returned through its return address, with its caller's part of the stack as it
was. -/
structure Returned (e u : State) : Prop where
  eip : u.proc.tf.eip = BitVec.ofNat 32 (getLe e.proc.mem e.proc.tf.esp 4)
  esp : u.proc.tf.esp = e.proc.tf.esp + 4
  stack : ∀ k, 8 ≤ k → k < frameSize → u.proc.mem (e.proc.tf.esp + k) = e.proc.mem (e.proc.tf.esp + k)
  there : ∀ k, 8 ≤ k → k < frameSize → present u.proc (e.proc.tf.esp + k) = true

/-- `handleSignal` left the process at the start of a user handler. -/
structure Delivered (defaultHandler : Word) (i : Fin 32) (s e : State) : Prop where
  user : s.proc.tf.cs &&& 3 ≠ 0
  signal : nextSignal s.proc s.ticks = some i
  handler : s.proc.signals i ≠ defaultHandler
  done : handleSignal defaultHandler s = (.ok (), e)

def State.cleared (s : State) (i : Fin 32) : State :=
  { s with proc := { s.proc with pending := s.proc.pending &&& ~~~ (1#32 <<< i.val) } }

theorem getLsbD_bit (i j : Fin 32) : (1#32 <<< i.val).getLsbD j.val = decide (j = i) := by
  revert i j
  decide

theorem getLsbD_set (w : Word) (i j : Fin 32) :
    (w ||| 1#32 <<< i.val).getLsbD j.val = (w.getLsbD j.val || decide (j = i)) := by
  rw [BitVec.getLsbD_or, getLsbD_bit]

theorem getLsbD_cleared (w : Word) (i j : Fin 32) :
    (w &&& ~~~ (1#32 <<< i.val)).getLsbD j.val = (w.getLsbD j.val && !decide (j = i)) := by
  rw [BitVec.getLsbD_and, BitVec.getLsbD_not, getLsbD_bit, decide_eq_true j.isLt, Bool.true_and]

theorem getLitSignal_none {s : State} (h : nextSignal s.proc s.ticks = none) :
    getLitSignal s = (.ok none, s) := by
  unfold getLitSignal
  rw [getState_bind, h]
  rfl

theorem getLitSignal_some {s : State} {i : Fin 32} (h : nextSignal s.proc s.ticks = some i) :
    getLitSignal s = (.ok (some i), s.cleared i) := by
  unfold getLitSignal
  rw [getState_bind, h]
  rfl

theorem handleSignal_user {defaultHandler : Word} {i : Fin 32} {s : State} (huser : s.proc.tf.cs &&& 3 ≠ 0)
    (hsignal : nextSignal s.proc s.ticks = some i) (hhandler : s.proc.signals i ≠ defaultHandler) :
    handleSignal defaultHandler s = pushHandler i (s.proc.signals i) (s.cleared i) := by
  unfold handleSignal
  rw [getState_bind, if_neg huser, bind_of_ok _ (getLitSignal_some hsignal)]
  have hcleared : (s.cleared i).proc.signals i ≠ defaultHandler := hhandler
  simp only [getState_bind]
  rw [if_neg hcleared]
  rfl

def SameSignals (s t : State) : Prop :=
  t.proc.pending = s.proc.pending ∧ t.proc.alarmEnd = s.proc.alarmEnd ∧ t.proc.signals = s.proc.signals

instance : IsPreorder State SameSignals where
  refl _ := ⟨rfl, rfl, rfl⟩
  trans _ _ _ h h' := ⟨h'.1.trans h.1, h'.2.1.trans h.2.1, h'.2.2.trans h.2.2⟩

theorem pushHandler_sameSignals (i : Fin 32) (handler : Word) : (pushHandler i handler).Keeps SameSignals := by
  refine pushHandler_keeps (fun _ _ => ⟨rfl, rfl, rfl⟩) (fun _ _ => ⟨rfl, rfl, rfl⟩) (store_keeps (fun a n s => ?_) ?_)
    i handler
  · rw [touch_run]
    exact ⟨rfl, rfl, rfl⟩
  · exact fun _ _ => ⟨rfl, rfl, rfl⟩

theorem handleSignal_none {defaultHandler : Word} {s : State} (hsignal : nextSignal s.proc s.ticks = none) :
    handleSignal defaultHandler s = (.ok (), s) := by
  unfold handleSignal
  rw [getState_bind]
  split
  · rfl
  · rw [bind_of_ok _ (getLitSignal_none hsignal)]
    rfl

theorem handleSignal_default {defaultHandler : Word} {i : Fin 32} {s : State} (huser : s.proc.tf.cs &&& 3 ≠ 0)
    (hsignal : nextSignal s.proc s.ticks = some i) (hhandler : s.proc.signals i = defaultHandler) :
    handleSignal defaultHandler s = (.ok (), s.cleared i) := by
  unfold handleSignal
  rw [getState_bind, if_neg huser, bind_of_ok _ (getLitSignal_some hsignal)]
  have hcleared : (s.cleared i).proc.signals i = defaultHandler := hhandler
  simp only [getState_bind]
  rw [if_pos hcleared]
  rfl

theorem delivered_entry {defaultHandler : Word} {i : Fin 32} {s e : State}
    (h : Delivered defaultHandler i s e) :
    e.proc.tf.esp = s.proc.tf.esp - BitVec.ofNat 32 frameSize ∧
    readBytes e.proc.mem e.proc.tf.esp frameSize = frameBytes s.proc.tf i := by
  have hdone := h.done
  rw [handleSignal_user h.user h.signal h.handler] at hdone
  obtain ⟨htf, hmem, -⟩ := pushHandler_ok hdone
  have hesp : e.proc.tf.esp = s.proc.tf.esp - BitVec.ofNat 32 frameSize := by rw [htf]; rfl
  refine ⟨hesp, ?_⟩
  rw [hesp]
  exact hmem

theorem returned_stack {defaultHandler : Word} {i : Fin 32} {s e u : State}
    (h : Delivered defaultHandler i s e) (hr : Returned e u) :
    readBytes u.proc.mem (e.proc.tf.esp + (8 : Nat)) 84 = s.proc.tf.bytes ++ sigreturnCode := by
  have hsame : readBytes u.proc.mem (e.proc.tf.esp + (8 : Nat)) 84 =
      readBytes e.proc.mem (e.proc.tf.esp + (8 : Nat)) 84 := by
    apply readBytes_congr
    intro k hk
    rw [add_assoc, ← Nat.cast_add]
    exact hr.stack (8 + k) (by omega) (by simp only [frameSize]; omega)
  rw [hsame, readBytes_slice _ _ frameSize 8 84 (by decide), (delivered_entry h).2, frameBytes]
  rw [List.append_assoc, List.drop_left' (by simp), List.take_of_length_le (by simp [trapframeSize])]

theorem delivered_signum {defaultHandler : Word} {i : Fin 32} {s e : State} (h : Delivered defaultHandler i s e) :
    getLe e.proc.mem (e.proc.tf.esp + 4) 4 = i := by
  have hread : readBytes e.proc.mem (e.proc.tf.esp + 4) 4 = toLe 4 i := by
    have hslice := readBytes_slice e.proc.mem e.proc.tf.esp frameSize 4 4 (by decide)
    rw [(delivered_entry h).2, frameBytes, List.append_assoc, List.append_assoc, List.drop_left' (toLe_length _ _),
      List.take_left' (toLe_length _ _)] at hslice
    exact hslice
  have hlt : i.val < 256 ^ 4 := by omega
  rw [getLe, hread, ofLe_toLe_of_lt _ _ hlt]

theorem returned_eip {defaultHandler : Word} {i : Fin 32} {s e u : State}
    (h : Delivered defaultHandler i s e) (hr : Returned e u) :
    u.proc.tf.eip = e.proc.tf.esp + (8 : Nat) + (trapframeSize : Nat) := by
  have hread : readBytes e.proc.mem e.proc.tf.esp 4 = toLe 4 (s.proc.tf.esp - 8).toNat := by
    have hslice := readBytes_slice e.proc.mem e.proc.tf.esp frameSize 0 4 (by decide)
    rw [Nat.cast_zero, add_zero, (delivered_entry h).2, frameBytes, List.drop_zero, List.append_assoc,
      List.append_assoc, List.take_left' (toLe_length _ _)] at hslice
    exact hslice
  have hlt : (s.proc.tf.esp - 8).toNat < 256 ^ 4 := BitVec.isLt _
  rw [hr.eip, getLe, hread, ofLe_toLe_of_lt _ _ hlt, BitVec.ofNat_toNat, BitVec.setWidth_eq,
    (delivered_entry h).1, add_assoc]
  exact push_addr _ _ _ (by decide)

theorem returned_code {defaultHandler : Word} {i : Fin 32} {s e u : State}
    (h : Delivered defaultHandler i s e) (hr : Returned e u) :
    readBytes u.proc.mem u.proc.tf.eip 8 = sigreturnCode := by
  rw [returned_eip h hr, readBytes_slice _ _ 84 trapframeSize 8 (by decide), returned_stack h hr,
    List.drop_left' (bytes_length _)]
  rfl

theorem sigreturnCode_run (m : Word → Byte) (tf : Trapframe) (h : readBytes m tf.eip 8 = sigreturnCode) :
    ∃ v, userRun m sigreturnCode.length tf = some v ∧ v.eax = sysSigreturnNum ∧ v.trapno = tSyscall ∧
      v.esp = tf.esp := by
  have hbyte : ∀ k < 8, m (tf.eip + (k : Nat)) = sigreturnCode.getD k 0 := by
    intro k hk
    rw [← h, List.getD_eq_getElem?_getD, List.getElem?_eq_getElem (by simpa using hk), readBytes_getElem]
    rfl
  have hmov : m tf.eip = 0xB8 := by
    have := hbyte 0 (by decide)
    rwa [Nat.cast_zero, add_zero] at this
  have himm : getLe m (tf.eip + 1) 4 = 24 := by
    have := readBytes_slice m tf.eip 8 1 4 (by decide)
    rw [Nat.cast_one, h] at this
    rw [getLe, this]
    decide
  have hint : m (tf.eip + 5) = 0xCD := hbyte 5 (by decide)
  have hno : m (tf.eip + 5 + 1) = 0x40 := by
    rw [add_assoc]
    exact hbyte 6 (by decide)
  have hfirst : userStep m tf = some (.next ((tf.withEax sysSigreturnNum).withEip (tf.eip + 5))) := by
    rw [userStep, if_pos hmov, himm]
    rfl
  have heip : ((tf.withEax sysSigreturnNum).withEip (tf.eip + 5)).eip = tf.eip + 5 := rfl
  rw [sigreturnCode_length, userRun, hfirst]
  simp only
  rw [userRun, userStep, heip, hint, if_neg (by decide), if_pos rfl, hno]
  exact ⟨_, rfl, rfl, rfl, rfl⟩

/-! ## The way back -/

theorem sigreturn_run {s : State} {tf : Trapframe}
    (hthere : ∀ k < trapframeSize, present s.proc (s.proc.tf.esp + 4 + k) = true)
    (hread : readBytes s.proc.mem (s.proc.tf.esp + 4) trapframeSize = tf.bytes) :
    sigreturn s = (.ok 0, (s.touched (s.proc.tf.esp + 4) trapframeSize).withTf tf) := by
  have hnone : firstFault (s.withTf (s.proc.tf.withEsp (s.proc.tf.esp + 4))).proc (s.proc.tf.esp + 4)
      trapframeSize = none := firstFault_eq_none.mpr hthere
  unfold sigreturn
  rw [modifyTf_bind, getState_bind, withTf_tf, withEsp_esp, bind_of_ok _ (load_of_none hnone),
    modifyTf_bind, withTf_mem, hread, ofBytes_bytes]
  rfl

theorem syscall_sigreturn (calls : Calls) {s : State} {tf : Trapframe} (hnum : s.proc.tf.eax = sysSigreturnNum)
    (hthere : ∀ k < trapframeSize, present s.proc (s.proc.tf.esp + 4 + k) = true)
    (hread : readBytes s.proc.mem (s.proc.tf.esp + 4) trapframeSize = tf.bytes) :
    syscall calls s = (.ok (), (s.touched (s.proc.tf.esp + 4) trapframeSize).withTf (tf.withEax 0)) := by
  have hrange : (0#32).slt sysSigreturnNum ∧ sysSigreturnNum.toNat < nelemSyscalls := by decide
  have hcall : sysCall calls sysSigreturnNum s = sigreturn s := by rw [sysCall, if_pos rfl]
  rw [sigreturn_run hthere hread] at hcall
  unfold syscall
  rw [getState_bind, hnum, if_pos hrange, bind_of_ok _ hcall, modifyTf_run, withTf_tf]
  rfl

theorem trampoline_context (calls : Calls) {defaultHandler : Word} {i : Fin 32} {s e u : State}
    (h : Delivered defaultHandler i s e) (hr : Returned e u) :
    ∃ t, trampoline calls u = some t ∧ t.proc.tf = s.proc.tf.withEax 0 ∧ t.proc.mem = u.proc.mem ∧
      t.proc.sz = u.proc.sz := by
  obtain ⟨v, hrun, heax, htrapno, hvesp⟩ := sigreturnCode_run u.proc.mem u.proc.tf (returned_code h hr)
  have hesp : v.esp + 4 = e.proc.tf.esp + (8 : Nat) := by
    rw [hvesp, hr.esp, add_assoc]
    rfl
  have hthere : ∀ k < trapframeSize, present (u.withTf v).proc (v.esp + 4 + k) = true := by
    intro k hk
    rw [hesp, add_assoc, ← Nat.cast_add]
    exact hr.there (8 + k) (by omega) (by simp only [frameSize, trapframeSize] at *; omega)
  have hread : readBytes (u.withTf v).proc.mem (v.esp + 4) trapframeSize = s.proc.tf.bytes := by
    have hslice := readBytes_slice u.proc.mem (e.proc.tf.esp + (8 : Nat)) 84 0 trapframeSize (by decide)
    rw [Nat.cast_zero, add_zero, returned_stack h hr, List.drop_zero, List.take_left' (bytes_length _)] at hslice
    rw [hesp]
    exact hslice
  refine ⟨_, ?_, withTf_tf ((u.withTf v).touched (v.esp + 4) trapframeSize) _, rfl, rfl⟩
  have hcall : syscall calls { u with proc := { u.proc with tf := v } } = _ :=
    syscall_sigreturn calls (s := u.withTf v) heax hthere hread
  unfold trampoline
  rw [hrun]
  dsimp only
  rw [if_pos htrapno, hcall]
  rfl

/-- A process gets its registers back after a signal exactly when its `eax` was 0. -/
theorem signal_transparent_iff (calls : Calls) {defaultHandler : Word} {i : Fin 32} {s e u : State}
    (h : Delivered defaultHandler i s e) (hr : Returned e u) :
    ∃ t, trampoline calls u = some t ∧ (t.proc.tf.context = s.proc.tf.context ↔ s.proc.tf.eax = 0) := by
  obtain ⟨t, ht, htf, -⟩ := trampoline_context calls h hr
  refine ⟨t, ht, ?_⟩
  rw [htf]
  constructor
  · intro hsame
    exact (congrArg Context.eax hsame).symm
  · intro heax
    have hback : s.proc.tf.withEax 0 = s.proc.tf := by rw [← heax]; rfl
    rw [hback]

/-! ## One process -/

theorem Delivered.sz {defaultHandler : Word} {i : Fin 32} {s e : State} (h : Delivered defaultHandler i s e) :
    e.proc.sz = s.proc.sz := by
  have hdone := h.done
  rw [handleSignal_user h.user h.signal h.handler] at hdone
  exact (pushHandler_ok hdone).2.2

theorem Delivered.returns {defaultHandler : Word} {i : Fin 32} {s e : State} (h : Delivered defaultHandler i s e)
    (hlow : frameSize ≤ s.proc.tf.esp.toNat) (hhigh : s.proc.tf.esp.toNat ≤ s.proc.sz.toNat) :
    Returned e (e.withTf ((e.proc.tf.withEip (BitVec.ofNat 32 (getLe e.proc.mem e.proc.tf.esp 4))).withEsp
      (e.proc.tf.esp + 4))) := by
  refine ⟨rfl, rfl, fun _ _ _ => rfl, fun k _ hk => ?_⟩
  refine firstFault_eq_none.mp ?_ k hk
  rw [(delivered_entry h).1]
  exact slot_inside _ hlow (by decide) (by rw [withTf_sz, h.sz]; exact hhigh)

theorem delivered_room {defaultHandler : Word} {i : Fin 32} {s : State} (huser : s.proc.tf.cs &&& 3 ≠ 0)
    (hsignal : nextSignal s.proc s.ticks = some i) (hhandler : s.proc.signals i ≠ defaultHandler)
    (hlow : frameSize ≤ s.proc.tf.esp.toNat) (hhigh : s.proc.tf.esp.toNat ≤ s.proc.sz.toNat) :
    ∃ e u, Delivered defaultHandler i s e ∧ Returned e u := by
  obtain ⟨e, he⟩ := pushHandler_room i (s.proc.signals i) (s.cleared i) hlow hhigh
  have hd : Delivered defaultHandler i s e :=
    ⟨huser, hsignal, hhandler, by rw [handleSignal_user huser hsignal hhandler, he]⟩
  exact ⟨e, _, hd, hd.returns hlow hhigh⟩

theorem page_lt : (4096 : Word).toNat < kernbase := by decide

def interrupted (eax : Word) : State where
  proc :=
    { sz := 4096, killed := false, pending := 8, signals := fun _ => 0x100, alarmEnd := 0, mem := fun _ => 0
      tf := { Trapframe.ofFields [] with eax := eax, cs := 35, esp := 4096 }
      sz_lt := page_lt }
  ticks := 0
  accesses := []

def noCalls : Calls := ⟨fun _ p => (0, p), fun _ => none⟩

/-- `defaultHandler` is a kernel function, so its address is above `KERNBASE`. -/
def kernelHandler : Word := 0x80103d20

theorem interrupted_signal (eax : Word) :
    nextSignal (interrupted eax).proc (interrupted eax).ticks = some 3 :=
  show (List.finRange 32).find? (fun i : Fin 32 => (8#32).getLsbD i && !(i == sigalrm && (0 : Word) < 0)) = some 3 by
    decide

theorem interrupted_delivered (eax : Word) :
    ∃ e u, Delivered kernelHandler 3 (interrupted eax) e ∧ Returned e u :=
  delivered_room (show (35 : Half) &&& 3 ≠ 0 by decide) (interrupted_signal eax)
    (show (0x100 : Word) ≠ kernelHandler by decide) (show 92 ≤ 4096 by decide) (le_refl 4096)

theorem signal_transparent_zero : ∃ e u t, Delivered kernelHandler 3 (interrupted 0) e ∧ Returned e u ∧
    trampoline noCalls u = some t ∧ t.proc.tf.context = (interrupted 0).proc.tf.context := by
  obtain ⟨e, u, h, hr⟩ := interrupted_delivered 0
  obtain ⟨t, ht, hiff⟩ := signal_transparent_iff noCalls h hr
  exact ⟨e, u, t, h, hr, ht, hiff.mpr rfl⟩

theorem signal_clobbers_eax : ∃ e u t, Delivered kernelHandler 3 (interrupted 1) e ∧ Returned e u ∧
    trampoline noCalls u = some t ∧ t.proc.tf.context ≠ (interrupted 1).proc.tf.context := by
  obtain ⟨e, u, h, hr⟩ := interrupted_delivered 1
  obtain ⟨t, ht, htf, -⟩ := trampoline_context noCalls h hr
  refine ⟨e, u, t, h, hr, ht, ?_⟩
  rw [htf]
  decide

end Xv6.Signal
