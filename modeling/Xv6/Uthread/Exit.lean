import Mathlib.Data.Fintype.Card
import Xv6.Lib.Run
import Xv6.Uthread.Effects

/-!
# The last thread

`uthread_exit` counts the threads, and only later ends its own.
-/

open Function Xv6.Run

namespace Xv6.Uthread

variable {n : Nat} {s u : Sys n}

def Pc.leaving : Pc n → Bool
  | exitCount _ _ | exitScan _ | exitClear _ | exitReady _ | exitState => true
  | _ => false

def Pc.counted : Pc n → Bool
  | exitScan _ | exitClear _ | exitReady _ | exitState => true
  | _ => false

def OneAtATime (s : Sys n) (a : Act) : Prop := a = .call .exit → ∀ t, (s.pc t).leaving = false

instance : DecidablePred fun a : Act => OneAtATime s a := fun a => inferInstanceAs (Decidable (a = .call .exit → _))

def Sys.aliveBelow (s : Sys n) (i : Nat) : Finset (Fin n) := Finset.univ.filter fun t => t.val < i ∧ s.alive t

structure Leaving (s : Sys n) : Prop where
  unique : ∀ t r, (s.pc t).leaving = true → (s.pc r).leaving = true → t = r
  count : ∀ t i threadCount, s.pc t = .exitCount i threadCount → i ≤ n ∧ threadCount = (s.aliveBelow i).card
  another : ∀ t, (s.pc t).counted = true → ∃ r, r ≠ t ∧ s.alive r
  someone : s.exited = false → ∃ t, s.alive t

theorem leaving_of_counted {p : Pc n} (h : p.counted = true) : p.leaving = true := by
  cases p <;> first | rfl | cases h

theorem aliveBelow_congr (h : ∀ t, u.alive t ↔ s.alive t) (i : Nat) : u.aliveBelow i = s.aliveBelow i := by
  simp only [Sys.aliveBelow, h]

theorem aliveBelow_succ {i : Nat} (hi : i < n) :
    (s.aliveBelow (i + 1)).card = (s.aliveBelow i).card + if s.alive ⟨i, hi⟩ then 1 else 0 := by
  have hmem : (⟨i, hi⟩ : Fin n) ∉ s.aliveBelow i := by simp [Sys.aliveBelow]
  by_cases h : s.alive ⟨i, hi⟩
  · have hset : s.aliveBelow (i + 1) = insert ⟨i, hi⟩ (s.aliveBelow i) := by
      ext t
      simp only [Sys.aliveBelow, Finset.mem_filter, Finset.mem_univ, true_and, Finset.mem_insert]
      constructor
      · rintro ⟨hlt, ht⟩
        exact (Nat.lt_succ_iff_lt_or_eq.mp hlt).elim (fun hlt => .inr ⟨hlt, ht⟩) fun he => .inl (Fin.ext he)
      · rintro (rfl | ⟨hlt, ht⟩)
        · exact ⟨Nat.lt_succ_self i, h⟩
        · exact ⟨Nat.lt_succ_of_lt hlt, ht⟩
    rw [if_pos h, hset, Finset.card_insert_of_notMem hmem]
  · have hset : s.aliveBelow (i + 1) = s.aliveBelow i := by
      ext t
      simp only [Sys.aliveBelow, Finset.mem_filter, Finset.mem_univ, true_and]
      refine and_congr_left fun ht => ?_
      have hne : t.val ≠ i := by
        rintro rfl
        exact h ht
      omega
    rw [if_neg h, hset, Nat.add_zero]

namespace Leaving

variable (h : Leaving s)
include h

theorem congr (hpc : ∀ t, (u.pc t).leaving = true → u.pc t = s.pc t)
    (halive : ∀ t, u.alive t ↔ s.alive t) (hexited : u.exited = s.exited) : Leaving u := by
  refine ⟨fun t r ht hr => ?_, fun t i c ht => ?_, fun t ht => ?_, fun he => ?_⟩
  · have ht' := hpc t ht
    have hr' := hpc r hr
    exact h.unique t r (ht' ▸ ht) (hr' ▸ hr)
  · have ht' := hpc t (by rw [ht]; rfl)
    rw [aliveBelow_congr halive]
    exact h.count t i c (ht' ▸ ht)
  · have ht' := hpc t (leaving_of_counted ht)
    obtain ⟨r, hne, hr⟩ := h.another t (ht' ▸ ht)
    exact ⟨r, hne, (halive r).mpr hr⟩
  · obtain ⟨t, ht⟩ := h.someone (hexited ▸ he)
    exact ⟨t, (halive t).mpr ht⟩

theorem advance {p : Pc n} (hleaving : (s.pc s.ct).leaving = true)
    (hpc : u.pc = update s.pc s.ct p) (halive : ∀ t, u.alive t ↔ s.alive t) (hexited : u.exited = s.exited)
    (hcount : ∀ i c, p = .exitCount i c → i ≤ n ∧ c = (s.aliveBelow i).card)
    (hanother : p.counted = true → ∃ r, r ≠ s.ct ∧ s.alive r) : Leaving u := by
  have hself : u.pc s.ct = p := by rw [hpc, update_self]
  have honly : ∀ t, (u.pc t).leaving = true → t = s.ct := fun t ht => by
    by_contra hne
    rw [hpc, update_of_ne hne] at ht
    exact hne (h.unique t s.ct ht hleaving)
  refine ⟨fun t r ht hr => (honly t ht).trans (honly r hr).symm, fun t i c ht => ?_, fun t ht => ?_, fun he => ?_⟩
  · obtain rfl := honly t (by rw [ht]; rfl)
    rw [aliveBelow_congr halive]
    exact hcount i c (hself ▸ ht)
  · obtain rfl := honly t (leaving_of_counted ht)
    obtain ⟨r, hne, hr⟩ := hanother (hself ▸ ht)
    exact ⟨r, hne, (halive r).mpr hr⟩
  · obtain ⟨t, ht⟩ := h.someone (hexited ▸ he)
    exact ⟨t, (halive t).mpr ht⟩

theorem exists_another {i c : Nat} (hc : Coherent s) (hpc : s.pc s.ct = .exitCount i c) (hi : ¬i < n)
    (hne : c ≠ 1) : ∃ r, r ≠ s.ct ∧ s.alive r := by
  obtain ⟨hle, rfl⟩ := h.count s.ct i c hpc
  obtain rfl : i = n := by omega
  have hmem : ∀ t, t ∈ s.aliveBelow i ↔ s.alive t := fun t => by simp [Sys.aliveBelow]
  have hct : s.ct ∈ s.aliveBelow i := (hmem _).mpr (hc.alive_of_active (by rw [hpc]; rfl))
  have hpos := Finset.card_pos.mpr ⟨_, hct⟩
  have hlt : 1 < (s.aliveBelow i).card := by omega
  obtain ⟨r, hr, hrne⟩ := Finset.exists_mem_ne hlt s.ct
  exact ⟨r, hrne, (hmem r).mp hr⟩

theorem exitState (hpc : s.pc s.ct = .exitState) :
    Leaving ((s.goto .exitYield).setThread s.ct { s.self with state := .terminated }) := by
  have hnone : ∀ t,
      (((s.goto .exitYield).setThread s.ct { s.self with state := .terminated }).pc t).leaving = false := by
    intro t
    rcases eq_or_ne t s.ct with rfl | hne
    · exact congrArg Pc.leaving (s.goto_pc_self _)
    · refine (congrArg Pc.leaving (Sys.goto_pc_ne hne _)).trans ?_
      by_contra hl
      exact hne (h.unique t s.ct (Bool.eq_true_of_not_eq_false hl) (by rw [hpc]; rfl))
  refine ⟨fun t r ht => ?_, fun t i c ht => ?_, fun t ht => ?_, fun _ => ?_⟩
  · rw [hnone] at ht
    cases ht
  · have := hnone t
    rw [ht] at this
    cases this
  · have := leaving_of_counted ht
    rw [hnone] at this
    cases this
  · obtain ⟨r, hne, hr⟩ := h.another s.ct (by rw [hpc]; rfl)
    refine ⟨r, ?_⟩
    rwa [Sys.alive, Sys.setThread_thread_ne hne]

theorem exec (hc : Coherent s) (hu : exec s = some u) : Leaving u := by
  have halive := exec_alive hc hu
  have hquiet {p : Pc n} (hpc : u.pc = update s.pc s.ct p) (hne : s.pc s.ct ≠ .exitState)
      (hp : p.leaving = false) (hexited : u.exited = s.exited) : Leaving u :=
    h.congr (fun t ht => (exec_steady hu).pc_ne fun he => by
      rw [he, hpc, update_self, hp] at ht
      cases ht) (halive hne) hexited
  have hadvance {p : Pc n} (hpc : u.pc = update s.pc s.ct p) (hq : (s.pc s.ct).counted = true)
      (hne : s.pc s.ct ≠ .exitState) (hp : ∀ i c, p ≠ .exitCount i c) (hexited : u.exited = s.exited) : Leaving u :=
    h.advance (leaving_of_counted hq) hpc (halive hne) hexited (fun i c hi => absurd hi (hp i c))
      fun _ => h.another s.ct hq
  cases exec_executes hu with
  | look hpc hlook =>
    rw [hpc] at hquiet hadvance
    cases hlook with
    | @exitCount i c hi =>
      refine h.advance (by rw [hpc]; rfl) rfl (fun _ => Iff.rfl) rfl (fun j d hj => ?_) nofun
      cases hj
      obtain ⟨-, rfl⟩ := h.count s.ct i c hpc
      refine ⟨hi, ?_⟩
      rw [aliveBelow_succ hi]
      by_cases hstate : (s.thread ⟨i, hi⟩).state = .terminated
      · simp [Sys.alive, hstate]
      · simp [Sys.alive, hstate]
    | exitCounted hi hne =>
      exact h.advance (by rw [hpc]; rfl) rfl (fun _ => Iff.rfl) rfl nofun fun _ => h.exists_another hc hpc hi hne
    | exitFound | exitNext | exitNone => exact hadvance rfl rfl nofun nofun rfl
    | _ => exact hquiet rfl nofun rfl rfl
  | write hpc hwrite =>
    rw [hpc] at hquiet
    cases hwrite with
    | exitState => exact h.exitState hpc
    | _ => exact hquiet rfl nofun rfl rfl
  | wake hpc hwake =>
    rw [hpc] at hquiet hadvance
    cases hwake with
    | exitClear | exitReady => exact hadvance rfl rfl nofun nofun rfl
    | upClear | upReady => exact hquiet rfl nofun rfl rfl
  | set hpc hset =>
    rw [hpc] at hquiet
    cases hset <;> exact hquiet rfl nofun rfl rfl
  | yield hpc hyield =>
    rw [hpc] at hquiet
    cases hyield <;> exact hquiet rfl nofun rfl rfl
  | exit => exact ⟨h.unique, h.count, h.another, nofun⟩
  | freed hpc | granted hpc | downEnable hpc | upEnable hpc | downDisable hpc | upDisable hpc =>
    exact hquiet rfl (by rw [hpc]; nofun) rfl rfl

theorem call {c : Call} (hok : OneAtATime s (.call c)) :
    Leaving (call s c) := by
  cases c with
  | exit =>
    have hnone := hok rfl
    have hself : (Uthread.call s .exit).pc s.ct = .exitCount 0 0 := s.goto_pc_self _
    have honly : ∀ t, ((Uthread.call s .exit).pc t).leaving = true → t = s.ct := fun t ht => by
      by_contra hne
      change ((s.goto _).pc t).leaving = true at ht
      rw [Sys.goto_pc_ne hne, hnone t] at ht
      cases ht
    refine ⟨fun t r ht hr => (honly t ht).trans (honly r hr).symm, fun t i c ht => ?_, fun t ht => ?_, h.someone⟩
    · obtain rfl := honly t (by rw [ht]; rfl)
      cases hself.symm.trans ht
      exact ⟨Nat.zero_le n, by simp [Sys.aliveBelow]⟩
    · obtain rfl := honly t (leaving_of_counted ht)
      rw [hself] at ht
      cases ht
  | down | up | alloc | sleep | join =>
    refine h.congr (fun t ht => ?_) (fun _ => Iff.rfl) rfl
    have hne : t ≠ s.ct := by
      rintro rfl
      have hself := congrArg Pc.leaving (s.goto_pc_self _) ▸ ht
      cases hself
    exact Sys.goto_pc_ne hne _

theorem step {a : Act} (hc : Coherent s) (hok : OneAtATime s a) (hu : step s a = some u) :
    Leaving u := by
  cases step_moves hu with
  | tick => exact h.congr (fun _ _ => rfl) (fun _ => Iff.rfl) rfl
  | scan hsched =>
    have hframe := chooseNextThread_rescheduled (s := s)
    exact h.congr (fun t _ => by rw [(hframe _).pc]) (fun t => ((hframe _).shifted t).alive_iff) (hframe _).exited
  | preempt hsched hpending => exact h.congr (fun _ _ => rfl) (fun t => (deliver_shifted t).alive_iff) rfl
  | call hsched hpc => exact h.call hok
  | exec hsched hu => exact h.exec hc hu
  | leave hsched => exact h.congr (fun _ _ => rfl) (fun _ => Iff.rfl) rfl

end Leaving

theorem Started.leaving (h : Started s) : Leaving s := by
  have hnone : ∀ t, (s.pc t).leaving = false := fun t => by rw [h.idle]; rfl
  refine ⟨fun t r ht => ?_, fun t i c ht => absurd ht (h.not_at nofun), fun t ht => ?_, fun _ => ⟨s.ct, ?_⟩⟩
  · rw [hnone] at ht
    cases ht
  · rw [h.idle] at ht
    cases ht
  · rw [Sys.alive, show (s.thread s.ct).state = .running from h.running]
    nofun

/-- As long as threads leave one at a time, some thread is left until the process ends. -/
theorem last_thread_exits {as : List Act} (hs : Started s) (hok : Along step OneAtATime s as) :
    Always step (fun u => u.exited = false → ∃ t, (u.thread t).state ≠ .terminated) s as := by
  refine always_of_along (I := fun u => (Coherent u ∧ Running u) ∧ Leaving u) (fun _ a _ hv ha hw => ?_)
    (fun _ hv => hv.2.someone) ⟨hs.coherent, hs.leaving⟩ hok
  exact ⟨step_coherent hv.1 hw, hv.2.step hv.1.1 ha hw⟩

def pair : Sys 2 where
  lib := ⟨fun t => ⟨t, if t = 0 then .running else .ready, 0, none, none⟩, fun _ => -1⟩
  ct := 0
  pc := fun _ => .idle
  sched := none
  handlers := fun _ => 0
  pending := true
  alarmEnd := 5
  ticks := 0
  exited := false
  held := fun _ _ => false
  seen := ⟨fun t => ⟨t, .ready, 0, none, none⟩, fun _ => -1⟩
  ups := []

theorem pair_started : Started pair :=
  ⟨fun _ => rfl, fun _ => ⟨rfl, rfl⟩, by decide, rfl, fun _ _ => rfl, rfl⟩

def leaveInTurn : List Act :=
  List.flatten [[.call .exit], .replicate 8 .stmt, [.scan, .stmt, .call .exit], .replicate 3 .stmt]

theorem leaveInTurn_exits :
    (run step pair leaveInTurn).map (fun u => u.exited) = some true ∧
      Always step (fun u => u.exited = false → ∃ t, (u.thread t).state ≠ .terminated) pair leaveInTurn :=
  ⟨by decide +kernel, last_thread_exits pair_started (by decide +kernel)⟩

def leaveTogether : List Act :=
  List.flatten [[.call .exit], .replicate 3 .stmt, .replicate 5 .tick, [.preempt, .scan, .stmt, .call .exit],
    .replicate 8 .stmt, [.scan], .replicate 5 .stmt]

theorem leaveTogether_hangs :
    Started pair ∧
      ∃ u, run step pair leaveTogether = some u ∧ u.exited = false ∧ ∀ t, (u.thread t).state = .terminated := by
  have hrun : (run step pair leaveTogether).map (fun u => (u.exited, (u.thread 0).state, (u.thread 1).state)) =
      some (false, .terminated, .terminated) := by decide +kernel
  obtain ⟨u, hu, hend⟩ := Option.map_eq_some_iff.mp hrun
  simp only [Prod.mk.injEq] at hend
  refine ⟨pair_started, u, hu, hend.1, fun t => ?_⟩
  match t with
  | 0 => exact hend.2.1
  | 1 => exact hend.2.2

end Xv6.Uthread
