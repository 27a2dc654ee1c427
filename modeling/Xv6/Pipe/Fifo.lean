import Xv6.Pipe.Spec

/-!
# A pipe is a queue of bytes

The ring holds what is left of all that was stored, behind what the holder of the lock has taken.
-/

open Xv6.Bytes Xv6.Run

namespace Xv6.Pipe

variable {P : Type} {s t : Sys P}

def Pc.taken : Pc → List Byte
  | copy _ bytes => bytes
  | _ => []

def Pc.locked : Pc → Bool
  | write _ _ _ | read _ | copy _ _ => true
  | _ => false

def Sys.taken (s : Sys P) : List Byte :=
  match s.lock with
  | none => []
  | some p => (s.pc p).taken

structure Flows (s : Sys P) (q : List Byte) : Prop where
  holds : s.ring.Holds q
  stored : s.stored = s.returned ++ s.taken ++ q
  fits : s.taken.length + q.length ≤ pipesize
  count : s.ring.nread = BitVec.ofNat 32 (s.returned ++ s.taken).length
  locked : ∀ p, (s.pc p).locked = true → s.lock = some p

theorem taken_of_not_locked {pc : Pc} (h : pc.locked = false) : pc.taken = [] := by
  cases pc with
  | copy n bytes => cases h
  | _ => rfl

@[simp] theorem wakeReader_locked (pc : Pc) : pc.wakeReader.locked = pc.locked := by cases pc <;> rfl
@[simp] theorem wakeWriter_locked (pc : Pc) : pc.wakeWriter.locked = pc.locked := by cases pc <;> rfl
@[simp] theorem wakeReader_taken (pc : Pc) : pc.wakeReader.taken = pc.taken := by cases pc <;> rfl
@[simp] theorem wakeWriter_taken (pc : Pc) : pc.wakeWriter.taken = pc.taken := by cases pc <;> rfl

theorem taken_of_free (h : s.lock = none) : s.taken = [] := by
  unfold Sys.taken
  rw [h]

theorem taken_of_lock {p : P} (h : s.lock = some p) : s.taken = (s.pc p).taken := by
  unfold Sys.taken
  rw [h]

namespace Flows

variable {p : P} {q : List Byte} {pc : Pc}

theorem wake (h : Flows s q) (hring : t.ring = s.ring) (hstored : t.stored = s.stored)
    (hreturned : t.returned = s.returned)
    (hlock : t.lock = s.lock) (hpc : ∀ p, (t.pc p).locked = (s.pc p).locked ∧ (t.pc p).taken = (s.pc p).taken) :
    Flows t q := by
  have htaken : t.taken = s.taken := by
    cases hs : s.lock with
    | none => rw [taken_of_free hs, taken_of_free (hlock.trans hs)]
    | some p => rw [taken_of_lock hs, taken_of_lock (hlock.trans hs), (hpc p).2]
  refine ⟨hring ▸ h.holds, ?_, ?_, ?_, fun p hp => ?_⟩
  · rw [hstored, hreturned, htaken, h.stored]
  · rw [htaken]
    exact h.fits
  · rw [hring, hreturned, htaken, h.count]
  · rw [hlock]
    exact h.locked p ((hpc p).1 ▸ hp)

theorem wakeReaders (h : Flows s q) : Flows s.wakeReaders q :=
  h.wake rfl rfl rfl rfl fun p => ⟨wakeReader_locked (s.pc p), wakeReader_taken (s.pc p)⟩

theorem wakeWriters (h : Flows s q) : Flows s.wakeWriters q :=
  h.wake rfl rfl rfl rfl fun p => ⟨wakeWriter_locked (s.pc p), wakeWriter_taken (s.pc p)⟩

variable [DecidableEq P]

variable (h : Flows s q)
include h

theorem outside (hold : (s.pc p).locked = false) (hnew : pc.locked = false) : Flows (s.goto p pc) q := by
  refine h.wake rfl rfl rfl rfl fun r => ?_
  by_cases hr : r = p
  · subst hr
    rw [Sys.goto_pc_self, hold, hnew, taken_of_not_locked hold, taken_of_not_locked hnew]
    exact ⟨rfl, rfl⟩
  · rw [Sys.goto_pc_ne s hr]
    exact ⟨rfl, rfl⟩

theorem acquire (hlock : s.lock = none) (hpc : pc.taken = []) :
    Flows { s.goto p pc with lock := some p } q := by
  have hfree := taken_of_free hlock
  have htaken : ({ s.goto p pc with lock := some p } : Sys P).taken = [] := by
    rw [taken_of_lock (p := p) rfl]
    exact (congrArg Pc.taken (s.goto_pc_self p pc)).trans hpc
  refine ⟨h.holds, ?_, ?_, ?_, fun r hr => ?_⟩
  · rw [htaken, ← hfree]
    exact h.stored
  · rw [htaken, ← hfree]
    exact h.fits
  · rw [htaken, ← hfree]
    exact h.count
  · by_cases hrp : r = p
    · rw [hrp]
    · have hheld := h.locked r ((congrArg Pc.locked (s.goto_pc_ne hrp pc)).symm.trans hr)
      rw [hlock] at hheld
      cases hheld

theorem release (hp : s.lock = some p) (pc : Pc) (hpc : pc.locked = false) (ret : P → Int) :
    Flows { s.goto p pc with lock := none, ret := ret, returned := s.returned ++ (s.pc p).taken } q := by
  have htaken := taken_of_lock hp
  refine ⟨h.holds, ?_, ?_, ?_, fun r hr => ?_⟩
  · change s.stored = s.returned ++ (s.pc p).taken ++ [] ++ q
    rw [List.append_nil, ← htaken]
    exact h.stored
  · change 0 + q.length ≤ pipesize
    have := h.fits
    omega
  · change s.ring.nread = BitVec.ofNat 32 (s.returned ++ (s.pc p).taken ++ []).length
    rw [List.append_nil, ← htaken]
    exact h.count
  · by_cases hrp : r = p
    · subst hrp
      have := (congrArg Pc.locked (s.goto_pc_self r pc)).symm.trans hr
      rw [hpc] at this
      cases this
    · have hheld := h.locked r ((congrArg Pc.locked (s.goto_pc_ne hrp pc)).symm.trans hr)
      rw [hp] at hheld
      exact absurd (Option.some.inj hheld).symm hrp

theorem leave (hp : s.lock = some p) (hpc : (s.pc p).taken = []) (r : Int) : Flows (s.leave p r) q := by
  have := h.release hp .idle rfl (Function.update s.ret p r)
  rwa [hpc, List.append_nil] at this

theorem sleep (hp : s.lock = some p) (hpc : (s.pc p).taken = []) (hnew : pc.locked = false) :
    Flows (s.sleep p pc) q := by
  have := h.release hp _ hnew s.ret
  rwa [hpc, List.append_nil] at this

theorem goto (hp : s.lock = some p) {ring : Ring pipesize 32 Byte} {stored q' : List Byte}
    (hholds : ring.Holds q') (hstored : stored = s.returned ++ pc.taken ++ q')
    (hfits : pc.taken.length + q'.length ≤ pipesize)
    (hcount : ring.nread = BitVec.ofNat 32 (s.returned ++ pc.taken).length) :
    Flows { s.goto p pc with ring := ring, stored := stored } q' := by
  have htaken : ({ s.goto p pc with ring := ring, stored := stored } : Sys P).taken = pc.taken := by
    refine (taken_of_lock (p := p) ?_).trans (congrArg Pc.taken (s.goto_pc_self p pc))
    exact hp
  refine ⟨hholds, by rw [htaken]; exact hstored, by rw [htaken]; exact hfits, by rw [htaken]; exact hcount,
    fun r hr => ?_⟩
  by_cases hrp : r = p
  · rw [hrp]
    exact hp
  · exact h.locked r ((congrArg Pc.locked (s.goto_pc_ne hrp pc)).symm.trans hr)

end Flows

variable [DecidableEq P] {p : P} {q : List Byte}

theorem pipewrite_flows (h : Flows s q) {addr : List Byte} {n : Int} {i : Nat} (hpc : s.pc p = .write addr n i) :
    ∃ q', Flows (pipewrite s p addr n i) q' := by
  have hp : s.lock = some p := h.locked p (by rw [hpc]; rfl)
  have htaken : s.taken = [] := by rw [taken_of_lock hp, hpc]; rfl
  have hwoken : (s.wakeReaders.pc p).taken = [] := by
    change ((s.pc p).wakeReader).taken = []
    rw [hpc]
    rfl
  unfold pipewrite
  split
  · split
    · split
      · exact ⟨q, h.leave hp (by rw [hpc]; rfl) _⟩
      · exact ⟨q, h.wakeReaders.sleep hp hwoken rfl⟩
    case isFalse hfull =>
      -- there is room, so that the store does not touch what is in the ring
      have hroom : q.length < pipesize := lt_of_le_of_ne h.holds.fits fun heq =>
        hfull ((h.holds.full_iff (by decide)).mpr heq)
      have hcount := h.count
      rw [htaken] at hcount
      refine ⟨q ++ [addr.getD i 0], h.goto hp (h.holds.store (by decide) hroom) ?_ ?_ hcount⟩
      · rw [h.stored, htaken]
        simp [Pc.taken]
      · simp only [Pc.taken, List.length_nil, List.length_append, List.length_singleton]
        omega
  · exact ⟨q, h.wakeReaders.leave hp hwoken _⟩

theorem pipereadWait_flows (h : Flows s q) {n : Int} (hpc : s.pc p = .read n) : Flows (pipereadWait s p n) q := by
  have hp : s.lock = some p := h.locked p (by rw [hpc]; rfl)
  have htaken : s.taken = [] := by rw [taken_of_lock hp, hpc]; rfl
  unfold pipereadWait
  split
  · split
    · exact h.leave hp (by rw [hpc]; rfl) _
    · exact h.sleep hp (by rw [hpc]; rfl) rfl
  · have hstored := h.stored
    have hfits := h.fits
    have hcount := h.count
    rw [htaken] at hstored hfits hcount
    exact h.goto hp h.holds hstored hfits hcount

theorem pipereadCopy_flows (h : Flows s q) {n : Int} {bytes : List Byte} (hpc : s.pc p = .copy n bytes) :
    ∃ q', Flows (pipereadCopy s p n bytes) q' := by
  have hp : s.lock = some p := h.locked p (by rw [hpc]; rfl)
  have htaken : s.taken = bytes := by rw [taken_of_lock hp, hpc]; rfl
  unfold pipereadCopy
  split
  case isTrue hmore =>
    cases q with
    | nil => exact absurd ((h.holds.empty_iff (by decide)).mpr rfl) hmore.2
    | cons a q =>
      obtain ⟨hnext, htake⟩ := h.holds.take
      have hfits := h.fits
      have hcount := h.count
      rw [htaken] at hfits hcount
      rw [List.length_cons] at hfits
      refine ⟨q, h.goto hp htake (h.stored.trans ?_) ?_ ?_⟩
      · rw [htaken, hnext]
        simp [Pc.taken]
      · rw [Pc.taken, List.length_append, List.length_singleton]
        omega
      · change s.ring.nread + 1#32 = _
        rw [hcount, Pc.taken]
        simp only [List.length_append, List.length_singleton, ← Nat.add_assoc, BitVec.ofNat_add]
  case isFalse =>
    have hrelease := h.wakeWriters.release (p := p) hp .idle rfl (Function.update s.ret p bytes.length)
    have hsame : (s.wakeWriters.pc p).taken = bytes := by
      change ((s.pc p).wakeWriter).taken = bytes
      rw [hpc]
      rfl
    rw [hsame] at hrelease
    exact ⟨q, hrelease⟩

theorem exec_flows (h : Flows s q) (ht : exec s p = some t) : ∃ q', Flows t q' := by
  unfold exec at ht
  split at ht
  case h_1 => cases ht
  case h_2 => cases ht
  case h_3 => cases ht
  case h_4 =>
    obtain ⟨hlock, ⟨⟩⟩ := Option.ite_none_right_eq_some.mp ht
    exact ⟨q, h.acquire hlock rfl⟩
  case h_5 =>
    obtain ⟨hlock, ⟨⟩⟩ := Option.ite_none_right_eq_some.mp ht
    exact ⟨q, h.acquire hlock rfl⟩
  case h_6 hpc =>
    cases ht
    exact pipewrite_flows h hpc
  case h_7 hpc =>
    cases ht
    exact ⟨q, pipereadWait_flows h hpc⟩
  case h_8 hpc =>
    cases ht
    exact pipereadCopy_flows h hpc

theorem step_flows {a : Act P} (h : ∃ q, Flows s q) (ht : step s a = some t) : ∃ q, Flows t q := by
  obtain ⟨q, h⟩ := h
  cases a with
  | write p addr n =>
    obtain ⟨⟨hpc, -⟩, ⟨⟩⟩ := Option.ite_none_right_eq_some.mp ht
    exact ⟨q, h.outside (by rw [hpc]; rfl) rfl⟩
  | read p n =>
    obtain ⟨⟨hpc, -⟩, ⟨⟩⟩ := Option.ite_none_right_eq_some.mp ht
    exact ⟨q, h.outside (by rw [hpc]; rfl) rfl⟩
  | exec p => exact exec_flows h ht
  | kill p =>
    cases ht
    refine ⟨q, h.wake rfl rfl rfl rfl fun r => ?_⟩
    change ((s.goto p (s.pc p).wakeReader.wakeWriter).pc r).locked = _ ∧ ((s.goto p _).pc r).taken = _
    by_cases hr : r = p
    · rw [hr, Sys.goto_pc_self]
      simp
    · rw [Sys.goto_pc_ne s hr]
      exact ⟨rfl, rfl⟩
  | close writable =>
    obtain ⟨hlock, ⟨⟩⟩ := Option.ite_none_right_eq_some.mp ht
    refine ⟨q, ?_⟩
    unfold pipeclose
    split
    · exact h.wakeReaders.wake rfl rfl rfl rfl fun p => ⟨rfl, rfl⟩
    · exact h.wakeWriters.wake rfl rfl rfl rfl fun p => ⟨rfl, rfl⟩

omit [DecidableEq P] in
theorem fresh_flows (h : Fresh s) : Flows s [] := by
  have htaken := taken_of_free h.lock
  refine ⟨Ring.holds_nil (by rw [h.nread, h.nwrite]), ?_, ?_, ?_, fun p hp => ?_⟩
  · rw [h.stored, h.returned, htaken]
    rfl
  · rw [htaken]
    exact Nat.zero_le _
  · rw [h.nread, h.returned, htaken]
    rfl
  · rw [h.idle] at hp
    cases hp

/-- The bytes returned are the first of those stored, and at most `PIPESIZE` are missing, which are in their places. -/
theorem returned_prefix_stored (hs : Fresh s) {as : List (Act P)} (hrun : run step s as = some t) :
    t.returned <+: t.stored ∧ t.stored.length ≤ t.returned.length + pipesize ∧
    ∃ k, k ≤ t.stored.length ∧ t.stored.take k = t.returned ++ t.taken ∧
      t.ring.nread = BitVec.ofNat 32 k ∧ t.ring.nwrite = BitVec.ofNat 32 t.stored.length ∧
      ∀ j (hj : j < t.stored.length), k ≤ j → t.ring.data (Fin.ofNat pipesize j) = t.stored[j] := by
  obtain ⟨q, h⟩ := run_invariant (fun _ _ _ => step_flows) ⟨[], fresh_flows hs⟩ hrun
  have hfits := h.fits
  have hlen : t.stored.length = (t.returned ++ t.taken).length + q.length := by rw [h.stored, List.length_append]
  refine ⟨⟨t.taken ++ q, by rw [h.stored, List.append_assoc]⟩, ?_, (t.returned ++ t.taken).length, by omega, ?_,
    h.count, ?_,
    fun j hj hk => ?_⟩
  · rw [List.length_append] at hlen
    omega
  · rw [h.stored, List.take_left]
  · rw [h.holds.count, h.count, hlen, BitVec.ofNat_add]
  · obtain ⟨i, rfl⟩ := Nat.exists_eq_add_of_le hk
    have hi : i < q.length := by omega
    have hvalue := h.holds.values i hi
    rw [h.count, ← BitVec.ofNat_add, Ring.place_ofNat (by decide)] at hvalue
    rw [hvalue]
    simp only [h.stored, List.getElem_append_right (Nat.le_add_right _ _), Nat.add_sub_cancel_left]

def newPipe : Sys Bool where
  ring := ⟨fun _ => 1, 0, 0⟩
  readopen := true
  writeopen := true
  lock := none
  pc _ := .idle
  killed _ := false
  ret _ := 0
  stored := []
  returned := []

theorem newPipe_fresh : Fresh newPipe := ⟨rfl, rfl, rfl, fun _ => rfl, rfl, rfl⟩

def wakeAndRead : List (Act Bool) :=
  [.read false 2, .exec false, .exec false, .write true [7, 8, 9] 3] ++ List.replicate 5 (.exec true) ++
    List.replicate 5 (.exec false)

theorem wakeAndRead_returned : ∃ t, run step newPipe wakeAndRead = some t ∧ t.returned = [7, 8] ∧ t.stored = [7, 8, 9] ∧
    t.returned <+: t.stored := by
  have hrun : (run step newPipe wakeAndRead).map (fun t => (t.returned, t.stored)) =
      some ([7, 8], [7, 8, 9]) := by
    decide
  obtain ⟨t, ht, hend⟩ := Option.map_eq_some_iff.mp hrun
  obtain ⟨hret, hst⟩ := Prod.mk.inj hend
  exact ⟨t, ht, hret, hst, (returned_prefix_stored newPipe_fresh ht).1⟩

end Xv6.Pipe
