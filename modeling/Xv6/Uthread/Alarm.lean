import Xv6.Uthread.Lifecycle
import Xv6.Uthread.Spawn
import Xv6.Uthread.Table

/-!
# The alarm of the scheduler

Every thread runs with the alarm set, or between `alarm(0)` and `alarm(UTHREAD_QUANTA)`.
-/

open Function Xv6.Run

namespace Xv6.Uthread

variable {n : Nat}

/-! ## The whole library -/

structure Threads (n : Nat) where
  spawn : Spawn n
  /-- Threads in `bsem_free`. -/
  freeing : Fin n → Option (FreePc n)

inductive ThreadsAct where
  | spawn (a : SpawnAct)
  | free (x : Sem)
  | freeStmt
deriving DecidableEq

namespace Threads

def sys (s : Threads n) : Sys n := s.spawn.sys

def life (s : Threads n) : Life n := ⟨s.sys, s.freeing, []⟩

def setLife (s : Threads n) (v : Life n) : Threads n := ⟨{ s.spawn with sys := v.sys }, v.freeing⟩

def busy (s : Threads n) : SpawnAct → Bool
  | .base a => s.life.busy a
  | _ => (s.freeing s.sys.ct).isSome

def step (s : Threads n) : ThreadsAct → Option (Threads n)
  | .spawn a => if s.busy a then none else (s.spawn.step a).map fun v => { s with spawn := v }
  | .free x => if s.spawn.making s.sys.ct = none then (s.life.step (.free x)).map s.setLife else none
  | .freeStmt => (s.life.step .freeStmt).map s.setLife

end Threads

/-- `uthread_init` up to where the kernel takes the signal that it sends to itself. -/
def uthreadInit (h : 0 < n) (s : Spawn n) : Spawn n :=
  { s with
    sys := sigsend { s.sys with lib := firstThread h s.nexttid s.sys.lib, ct := ⟨0, h⟩ }
    nexttid := s.nexttid + 1 }

theorem uthreadInit_table {m : Nat} (s : Spawn (m + 1)) (hexited : s.sys.exited = false) :
    (uthreadInit (Nat.succ_pos m) s).sys.table (s.nexttid + 1) = (s.sys.table s.nexttid).uthreadInit := by
  have hindex : update (s.sys.table s.nexttid).indexInThreadtable 0 0 = fun i => i.val :=
    update_eq_self (0 : Fin (m + 1)) fun i => i.val
  rw [uthreadInit, sigsend, deliver_table, Table.uthreadInit, Table.firstThread, hindex, ← hexited]
  rfl

def Threads.Initialized (s : Threads n) : Prop :=
  ∃ h v, s.spawn = uthreadInit h v ∧ (∀ t, v.sys.pc t = .idle) ∧ (∀ t, v.sys.handlers t = 0) ∧
    (∀ t, v.making t = none) ∧
    ∀ t, s.freeing t = none

/-! ## What the calls do to the alarm -/

inductive Arms (s u : Sys n) : Prop where
  | given (hsched : u.sched = some 1) (hpc : (u.pc s.ct).critical = false)
  | armed (hsched : u.sched = s.sched) (hpending : u.pending = true) (hpc : (u.pc s.ct).critical = false)
  | disabled (hsched : u.sched = s.sched) (hpc : (u.pc s.ct).critical = true)
    (hpending : u.pending = false ∨ u.pending = s.pending ∧ (s.pc s.ct).critical = true)
  | same (hsched : u.sched = s.sched) (hpending : u.pending = s.pending) (hs : (s.pc s.ct).critical = false)
    (hpc : (u.pc s.ct).critical = false)

theorem exec_arms {s u : Sys n} (hu : exec s = some u) : Arms s u := by
  have hself {u : Sys n} {p} (hpc : u.pc = update s.pc s.ct p) : (u.pc s.ct).critical = p.critical := by
    rw [hpc, update_self]
  -- a statement that leaves the alarm alone stays in the critical section, or outside of it
  have hsame {u : Sys n} {p} (hpc : u.pc = update s.pc s.ct p) (hsched : u.sched = s.sched)
      (hpending : u.pending = s.pending) (hp : (s.pc s.ct).critical = p.critical) : Arms s u := by
    cases hc : p.critical with
    | false => exact .same hsched hpending (hp.trans hc) ((hself hpc).trans hc)
    | true => exact .disabled hsched ((hself hpc).trans hc) (.inr ⟨hpending, hp.trans hc⟩)
  cases exec_executes hu with
  | look hpc h | write hpc h | set hpc h =>
    rw [hpc] at hsame
    cases h <;> exact hsame rfl rfl rfl rfl
  | wake hpc h =>
    rw [hpc] at hsame
    cases h <;> exact hsame rfl rfl rfl rfl
  | yield hpc h => cases h <;> exact .given rfl ((hself rfl).trans rfl)
  | freed hpc | granted hpc =>
    rw [hpc] at hsame
    exact hsame (p := .idle) rfl rfl rfl rfl
  | downDisable hpc => exact .disabled rfl (hself (p := .downLook _) rfl) (.inl rfl)
  | upDisable hpc => exact .disabled rfl (hself (p := .upScan _ 0) rfl) (.inl rfl)
  | downEnable hpc | upEnable hpc => exact .armed rfl rfl (hself (p := .idle) rfl)
  | exit hpc => exact .same rfl rfl (by rw [hpc]; rfl) (by rw [hpc]; rfl)

inductive Chooses (s u : Sys n) : Prop where
  | switch (c : Fin n) (hct : u.ct = c) (hsched : u.sched = none) (hpending : u.pending = true)
    (hend : u.alarmEnd = s.ticks + uthreadQuanta) (hhandlers : u.handlers = update s.handlers c (s.handlers c + 1))
  | goOn (hsched : u.sched ≠ none) (hhandlers : u.handlers = s.handlers)

theorem chooseNextThread_chooses (i : Nat) (s : Sys n) : Chooses s (chooseNextThread i s) := by
  refine chooseNextThread_cases i rfl (fun c _ => ?_) fun j => .goOn nofun rfl
  rw [switchTo_eq]
  exact .switch c rfl rfl rfl rfl rfl

/-! ## The alarm is never lost -/

structure Armed (s : Sys n) : Prop where
  armed : s.sched = none → s.pending = true ∨ (s.pc s.ct).critical = true
  critical : ∀ t, (s.pc t).critical = true → t = s.ct ∧ s.sched = none ∧ s.pending = false

namespace Armed

variable {s u : Sys n}

theorem pending (h : Armed s) (hsched : s.sched = none) (hpc : (s.pc s.ct).critical = false) : s.pending = true :=
  (h.armed hsched).resolve_right (by rw [hpc]; exact Bool.false_ne_true)

theorem elsewhere (h : Armed s) {t : Fin n} (ht : t ≠ s.ct) : (s.pc t).critical = false := by
  by_contra hc
  exact ht (h.critical t (Bool.eq_true_of_not_eq_false hc)).1

theorem nowhere (h : Armed s) (hnot : s.sched ≠ none ∨ s.pending = true) (t : Fin n) : (s.pc t).critical = false := by
  by_contra hc
  obtain ⟨-, hsched, hpending⟩ := h.critical t (Bool.eq_true_of_not_eq_false hc)
  rcases hnot with hnot | hnot
  · exact hnot hsched
  · rw [hpending] at hnot
    cases hnot

theorem of_nowhere (hnone : ∀ t, (u.pc t).critical = false) (harmed : u.sched = none → u.pending = true) : Armed u :=
  ⟨fun hsched => .inl (harmed hsched), fun t ht => by rw [hnone] at ht; cases ht⟩

theorem arms (h : Armed s) (hsched : s.sched = none) (hct : u.ct = s.ct) (hpc : ∀ t, t ≠ s.ct → u.pc t = s.pc t)
    (ha : Arms s u) : Armed u := by
  have hother {t} (ht : t ≠ s.ct) : (u.pc t).critical = false := by
    rw [hpc t ht]
    exact h.elsewhere ht
  have hnone (hself : (u.pc s.ct).critical = false) (t) : (u.pc t).critical = false := by
    rcases eq_or_ne t s.ct with rfl | ht
    · exact hself
    · exact hother ht
  cases ha with
  | given hgiven hself =>
    refine of_nowhere (hnone hself) fun hnot => ?_
    rw [hgiven] at hnot
    cases hnot
  | armed hsame hpending hself => exact of_nowhere (hnone hself) fun _ => hpending
  | disabled hsame hself hpending =>
    refine ⟨fun _ => .inr (hct ▸ hself), fun t ht => ?_⟩
    have ht : t = s.ct := by
      by_contra hne
      rw [hother hne] at ht
      cases ht
    refine ⟨ht.trans hct.symm, hsame.trans hsched, ?_⟩
    rcases hpending with hpending | ⟨hpending, hcritical⟩
    · exact hpending
    · rw [hpending]
      exact (h.critical s.ct hcritical).2.2
  | same hsame hpending hs hself =>
    refine of_nowhere (hnone hself) fun _ => ?_
    rw [hpending]
    exact h.pending hsched hs

theorem step {a : Act} (h : Armed s) (hu : step s a = some u) : Armed u := by
  cases step_moves hu with
  | tick => exact ⟨h.armed, h.critical⟩
  | @scan i hsched =>
    have hnone := h.nowhere (.inl (by rw [hsched]; exact nofun))
    refine of_nowhere (fun t => ?_) fun hs => ?_
    · rw [(chooseNextThread_rescheduled _).pc]
      exact hnone t
    · cases chooseNextThread_chooses i s with
      | switch c hct hsched hpending => exact hpending
      | goOn hgo => exact absurd hs hgo
  | preempt hsched hpending => exact of_nowhere (h.nowhere (.inr hpending)) nofun
  | @call c hsched hpc =>
    have hpending := h.pending hsched (by rw [hpc]; rfl)
    refine h.arms hsched (by cases c <;> rfl) (fun t ht => ?_)
      (.armed (by cases c <;> rfl) (by cases c <;> exact hpending) ?_)
    · cases c <;> exact Sys.goto_pc_ne ht _
    · cases c <;> exact congrArg Pc.critical (s.goto_pc_self _)
  | exec hsched hu => exact h.arms hsched (exec_steady hu).ct (fun _ => (exec_steady hu).pc_ne) (exec_arms hu)
  | leave hsched => exact ⟨h.armed, h.critical⟩

end Armed

/-! ## The other calls -/

structure Quiet (s u : Sys n) : Prop where
  ct : u.ct = s.ct
  sched : u.sched = s.sched
  pending : u.pending = s.pending
  alarmEnd : u.alarmEnd = s.alarmEnd
  ticks : u.ticks = s.ticks
  pc : u.pc = s.pc ∨ s.pc s.ct = .idle ∧ ∀ t, u.pc t = s.pc t ∨ u.pc t = .idle
  handlers : ∀ t, u.handlers t = s.handlers t ∨ u.handlers t = 0

theorem Quiet.of_lib {s u : Sys n} {l : Lib n} (h : u = { s with lib := l }) : Quiet s u := by
  subst h
  exact ⟨rfl, rfl, rfl, rfl, rfl, .inl rfl, fun _ => .inl rfl⟩

theorem Armed.quiet {s u : Sys n} (h : Armed s) (hq : Quiet s u) : Armed u := by
  rcases hq.pc with hpc | ⟨hidle, hpc⟩
  · refine ⟨fun hsched => ?_, fun t ht => ?_⟩
    · rw [hq.pending, hq.ct, hpc]
      exact h.armed (hq.sched ▸ hsched)
    · rw [hq.ct, hq.sched, hq.pending]
      exact h.critical t (hpc ▸ ht)
  · have hnone (t) : (s.pc t).critical = false := by
      rcases eq_or_ne t s.ct with rfl | ht
      · rw [hidle]
        rfl
      · exact h.elsewhere ht
    refine .of_nowhere (fun t => ?_) fun hsched => ?_
    · rcases hpc t with ht | ht
      · rw [ht, hnone]
      · rw [ht]
        rfl
    · rw [hq.pending]
      exact h.pending (hq.sched ▸ hsched) (hnone s.ct)

def Spawn.AtCreate (s : Spawn n) : Prop := ∀ t, s.making t ≠ none → s.sys.pc t = .idle

theorem Spawn.execMake_quiet {s v : Spawn n} {p : Nat} (h : s.AtCreate) (hv : s.execMake p = some v) :
    Quiet s.sys v.sys ∧ v.AtCreate := by
  have hkeep {v : Spawn n} {q : Option (MakePc n)} (hpc : v.sys.pc = s.sys.pc)
      (hmaking : v.making = update s.making s.sys.ct q) (hct : s.making s.sys.ct ≠ none) : v.AtCreate := by
    intro t ht
    rw [hpc]
    rcases eq_or_ne t s.sys.ct with rfl | hne
    · exact h _ hct
    · rw [hmaking, update_of_ne hne] at ht
      exact h t ht
  unfold Spawn.execMake at hv
  cases hmaking : s.making s.sys.ct with
  | none => simp [hmaking] at hv
  | some q =>
    have hct : s.making s.sys.ct ≠ none := by rw [hmaking]; exact nofun
    cases q <;> simp only [hmaking] at hv
    case stack i =>
      obtain ⟨-, ⟨⟩⟩ := Option.ite_none_left_eq_some.mp hv
      exact ⟨.of_lib rfl, hkeep rfl rfl hct⟩
    case ready i =>
      cases hv
      have hpc (t) : update s.sys.pc i .idle t = s.sys.pc t ∨ update s.sys.pc i .idle t = .idle := by
        rcases eq_or_ne t i with rfl | hne
        · exact .inr (update_self _ _ _)
        · exact .inl (update_of_ne hne _ _)
      refine ⟨⟨rfl, rfl, rfl, rfl, rfl, .inr ⟨h _ hct, hpc⟩, fun t => ?_⟩, fun t ht => ?_⟩
      · rcases eq_or_ne t i with rfl | hne
        · exact .inr (update_self _ _ _)
        · exact .inl (update_of_ne hne _ _)
      · rcases hpc t with hsame | hidle
        · have hne : t ≠ s.sys.ct := by
            rintro rfl
            exact ht (update_self _ _ _)
          exact hsame.trans (h t ((update_of_ne hne _ s.making) ▸ ht))
        · exact hidle
    all_goals
      cases hv
      exact ⟨.of_lib rfl, hkeep rfl rfl hct⟩

theorem step_pc {s u : Sys n} {a : Act} (hu : step s a = some u) (t : Fin n) :
    u.pc t = s.pc t ∨ t = s.ct ∧ s.handlers s.ct = 0 ∧ ((∃ c, a = .call c) ∨ a = .stmt) := by
  unfold step at hu
  split at hu
  · cases hu
  · split at hu
    case h_1 =>
      cases hu
      exact .inl rfl
    case h_2 i hsched =>
      cases hu
      exact .inl (by rw [(chooseNextThread_rescheduled _).pc])
    case h_3 hsched =>
      obtain ⟨-, ⟨⟩⟩ := Option.ite_none_right_eq_some.mp hu
      exact .inl rfl
    case h_4 c hsched =>
      obtain ⟨⟨-, hh⟩, ⟨⟩⟩ := Option.ite_none_right_eq_some.mp hu
      rcases eq_or_ne t s.ct with rfl | ht
      · exact .inr ⟨rfl, hh, .inl ⟨c, rfl⟩⟩
      · exact .inl (by cases c <;> exact Sys.goto_pc_ne ht _)
    case h_5 hsched =>
      split at hu
      · rename_i hh
        rcases eq_or_ne t s.ct with rfl | ht
        · exact .inr ⟨rfl, hh, .inr rfl⟩
        · exact .inl ((exec_steady hu).pc_ne ht)
      · cases hu
        exact .inl rfl
    case h_6 => cases hu

namespace Threads

variable {s v : Threads n}

theorem step_cases {a : ThreadsAct} (h : s.spawn.AtCreate) (hv : s.step a = some v) : v.spawn.AtCreate ∧
    ((∃ b, a = .spawn (.base b) ∧ Uthread.step s.sys b = some v.sys) ∨ Quiet s.sys v.sys) := by
  cases a with
  | spawn a =>
    obtain ⟨hbusy, hv⟩ := Option.ite_none_left_eq_some.mp hv
    obtain ⟨w, hw, rfl⟩ := Option.map_eq_some_iff.mp hv
    cases a with
    | base b =>
      obtain ⟨hbusy', hw⟩ := Option.ite_none_left_eq_some.mp hw
      obtain ⟨u, hu, rfl⟩ := Option.map_eq_some_iff.mp hw
      refine ⟨fun t ht => ?_, .inl ⟨b, rfl, hu⟩⟩
      rcases step_pc hu t with hsame | ⟨rfl, hh, hb⟩
      · exact hsame.trans (h t ht)
      · have ht : (s.spawn.making s.spawn.sys.ct).isSome = true := Option.isSome_iff_ne_none.mpr ht
        refine absurd ?_ hbusy'
        rcases hb with ⟨c, rfl⟩ | rfl
        · exact ht
        · simp [Spawn.busy, ht, hh]
    | create =>
      obtain ⟨⟨-, hidle, -⟩, ⟨⟩⟩ := Option.ite_none_right_eq_some.mp hw
      refine ⟨fun t ht => ?_, .inr (.of_lib rfl)⟩
      rcases eq_or_ne t s.spawn.sys.ct with rfl | hne
      · exact hidle
      · exact h t ((update_of_ne hne _ s.spawn.making) ▸ ht)
    | makeStmt p =>
      obtain ⟨-, hw⟩ := Option.ite_none_right_eq_some.mp hw
      exact (Spawn.execMake_quiet h hw).symm.imp_right .inr
    | freeStack =>
      obtain ⟨-, ⟨⟩⟩ := Option.ite_none_right_eq_some.mp hw
      exact ⟨h, .inr (.of_lib rfl)⟩
  | free x =>
    obtain ⟨-, hv⟩ := Option.ite_none_right_eq_some.mp hv
    obtain ⟨w, hw, rfl⟩ := Option.map_eq_some_iff.mp hv
    obtain ⟨-, ⟨⟩⟩ := Option.ite_none_right_eq_some.mp hw
    exact ⟨h, .inr (.of_lib rfl)⟩
  | freeStmt =>
    obtain ⟨w, hw, rfl⟩ := Option.map_eq_some_iff.mp hv
    obtain ⟨-, hw⟩ := Option.ite_none_right_eq_some.mp hw
    obtain ⟨l, hl⟩ : ∃ l, w.sys = { s.sys with lib := l } := by
      unfold Life.execFree at hw
      split at hw <;> cases hw
      all_goals exact ⟨_, rfl⟩
    refine ⟨fun t ht => ?_, .inr (.of_lib hl)⟩
    change w.sys.pc t = .idle
    rw [hl]
    exact h t ht

structure Kept (s : Threads n) : Prop where
  armed : Armed s.sys
  atCreate : s.spawn.AtCreate

theorem Kept.step {a : ThreadsAct} (h : s.Kept) (hv : s.step a = some v) : v.Kept := by
  obtain ⟨hat, ⟨b, -, hu⟩ | hq⟩ := step_cases h.atCreate hv
  · exact ⟨h.armed.step hu, hat⟩
  · exact ⟨h.armed.quiet hq, hat⟩

theorem Initialized.kept (h : s.Initialized) : s.Kept := by
  obtain ⟨hn, w, hs, hidle, -, hmaking, -⟩ := h
  refine ⟨.of_nowhere (fun t => ?_) ?_, fun t ht => ?_⟩
  · rw [sys, hs]
    exact congrArg Pc.critical (hidle t)
  · rw [sys, hs]
    nofun
  · rw [hs] at ht
    exact absurd (hmaking t) ht

end Threads

/-- From the end of `uthread_init` on, while a thread runs and is not between its `alarm(0)` and the end of it, bit 14
is set. -/
theorem alarm_never_lost {s₀ s : Threads n} {as : List ThreadsAct} (hinit : s₀.Initialized)
    (hrun : run Threads.step s₀ as = some s) :
    s.sys.sched = none → (s.sys.pc s.sys.ct).critical = false → s.sys.pending = true := by
  have h : s.Kept := run_invariant (fun _ _ _ h ht => h.step ht) hinit.kept hrun
  exact h.armed.pending

def plainProcess : Spawn 2 where
  sys :=
    { lib := ⟨fun _ => ⟨0, .terminated, 0, none, none⟩, fun _ => -1⟩, ct := 0, pc := fun _ => .idle, sched := none
      handlers := fun _ => 0, pending := false, alarmEnd := 0, ticks := 0, exited := false, held := fun _ _ => false
      seen := ⟨fun _ => ⟨0, .terminated, 0, none, none⟩, fun _ => -1⟩, ups := [] }
  making := fun _ => none
  nexttid := 0
  stack := fun _ => 0
  heap := fun _ => false
  freed := fun _ => false

def newThreads : Threads 2 := ⟨uthreadInit Nat.zero_lt_two plainProcess, fun _ => none⟩

theorem newThreads_initialized : newThreads.Initialized :=
  ⟨Nat.zero_lt_two, plainProcess, rfl, fun _ => rfl, fun _ => rfl, fun _ => rfl, fun _ => rfl⟩

def ThreadsAct.lib (a : Act) : ThreadsAct := .spawn (.base a)

def initScans : List ThreadsAct := [.lib .scan, .lib .scan]

def createAndDown : List ThreadsAct :=
  List.flatten [initScans, [.lib .stmt, .spawn .create], .replicate 16 (.spawn (.makeStmt 8)), [.lib (.call .alloc)],
    stmts .lib 3, [.lib (.call (.down 0))], stmts .lib 5]

theorem createAndDown_armed : ∃ s, run Threads.step newThreads createAndDown = some s ∧ s.sys.lib.semaphores 0 = 0 ∧
    (s.sys.thread 1).state = .ready ∧ s.sys.pending = true := by
  have hrun : (run Threads.step newThreads createAndDown).map (fun s => (s.sys.lib.semaphores 0, (s.sys.thread 1).state,
      s.sys.sched, (s.sys.pc s.sys.ct).critical)) = some (0, .ready, none, false) := by
    decide +kernel
  obtain ⟨s, hs, hend⟩ := Option.map_eq_some_iff.mp hrun
  simp only [Prod.mk.injEq] at hend
  obtain ⟨hsem, hstate, hsched, hpc⟩ := hend
  exact ⟨s, hs, hsem, hstate, alarm_never_lost newThreads_initialized hs hsched hpc⟩

/-! ## The alarm in the handler -/

def Threads.Outside (s : Threads n) (a : ThreadsAct) : Prop :=
  a = .spawn (.base .preempt) → s.sys.handlers s.sys.ct = 0

def Sys.Single (s : Sys n) : Prop := ∀ t, s.handlers t ≤ 1

/-- Between `alarm(UTHREAD_QUANTA)` and `sigreturn` the quantum does not end, and the clock does not pass 2³² within
one. -/
def Threads.Timely (s : Threads n) : ThreadsAct → Prop
  | .spawn (.base .tick) => s.sys.sched = none → s.sys.handlers s.sys.ct ≠ 0 → (s.sys.ticks + 1).ult s.sys.alarmEnd
  | .spawn (.base .scan) => s.sys.ticks.toNat + uthreadQuanta.toNat < 2 ^ 32
  | _ => True

instance (s : Threads n) : DecidablePred s.Timely
  | .spawn (.base .tick) => inferInstanceAs (Decidable (s.sys.sched = none → s.sys.handlers s.sys.ct ≠ 0 →
      (s.sys.ticks + 1).ult s.sys.alarmEnd = true))
  | .spawn (.base .scan) => inferInstanceAs (Decidable (s.sys.ticks.toNat + uthreadQuanta.toNat < 2 ^ 32))
  | .spawn (.base (.call _)) | .spawn (.base .stmt) | .spawn (.base .preempt) | .spawn .create | .spawn (.makeStmt _)
  | .spawn .freeStack | .free _ | .freeStmt => .isTrue trivial

structure Returns (s : Sys n) : Prop where
  only : ∀ t, s.handlers t ≠ 0 → t = s.ct ∧ s.sched = none ∧ s.handlers t = 1
  early : s.handlers s.ct ≠ 0 → s.ticks.ult s.alarmEnd = true

namespace Returns

variable {s u : Sys n}

theorem single (h : Returns s) : s.Single := by
  intro t
  by_cases ht : s.handlers t = 0
  · omega
  · exact (h.only t ht).2.2.le

theorem of_none (hnone : ∀ t, s.handlers t = 0) : Returns s :=
  ⟨fun t ht => absurd (hnone t) ht, fun ht => absurd (hnone _) ht⟩

theorem none_of_ct (h : Returns s) (hct : s.handlers s.ct = 0) (t : Fin n) : s.handlers t = 0 := by
  by_contra ht
  obtain ⟨rfl, -⟩ := h.only t ht
  exact ht hct

theorem none_of_sched (h : Returns s) (hsched : s.sched ≠ none) (t : Fin n) : s.handlers t = 0 := by
  by_contra ht
  exact hsched (h.only t ht).2.1

theorem outside (h : Returns s) (hlit : s.lit = true) : s.handlers s.ct = 0 := by
  by_contra hct
  have hearly := h.early hct
  simp [Sys.lit, hearly] at hlit

theorem quiet (h : Returns s) (hq : Quiet s u) : Returns u := by
  have hold {t} (ht : u.handlers t ≠ 0) : u.handlers t = s.handlers t := (hq.handlers t).resolve_right ht
  refine ⟨fun t ht => ?_, fun ht => ?_⟩
  · have hsame := hold ht
    rw [hsame] at ht ⊢
    rw [hq.ct, hq.sched]
    exact h.only t ht
  · have hsame := hold ht
    rw [hsame, hq.ct] at ht
    rw [hq.ticks, hq.alarmEnd]
    exact h.early ht

theorem add_quanta {x : Word} (h : x.toNat + uthreadQuanta.toNat < 2 ^ 32) : x.ult (x + uthreadQuanta) = true := by
  rw [BitVec.ult, decide_eq_true_iff, BitVec.toNat_add, Nat.mod_eq_of_lt h]
  exact Nat.lt_add_of_pos_right (by decide)

theorem scan {i : Nat} (h : Returns s) (hsched : s.sched = some i)
    (hok : s.ticks.toNat + uthreadQuanta.toNat < 2 ^ 32) : Returns (chooseNextThread i s) := by
  have hnone := h.none_of_sched (by rw [hsched]; exact nofun)
  cases chooseNextThread_chooses i s with
  | switch c hct hsched hpending hend hhandlers =>
    refine ⟨fun t ht => ?_, fun _ => ?_⟩
    · rcases eq_or_ne t c with rfl | hne
      · exact ⟨hct.symm, hsched, by rw [hhandlers, update_self, hnone]⟩
      · rw [hhandlers, update_of_ne hne] at ht
        exact absurd (hnone t) ht
    · rw [(chooseNextThread_rescheduled _).ticks, hend]
      exact add_quanta hok
  | goOn hgo hhandlers => exact .of_none fun t => by rw [hhandlers, hnone]

theorem step {a : Act} (h : Returns s) (hu : step s a = some u)
    (htick : a = .tick → s.sched = none → s.handlers s.ct ≠ 0 → (s.ticks + 1).ult s.alarmEnd)
    (hscan : a = .scan → s.ticks.toNat + uthreadQuanta.toNat < 2 ^ 32) : Returns u := by
  unfold Uthread.step at hu
  split at hu
  · cases hu
  · split at hu
    case h_1 =>
      cases hu
      exact ⟨h.only, fun hct => htick rfl (h.only s.ct hct).2.1 hct⟩
    case h_2 i hsched =>
      cases hu
      exact h.scan hsched (hscan rfl)
    case h_3 hsched =>
      obtain ⟨hlit, ⟨⟩⟩ := Option.ite_none_right_eq_some.mp hu
      exact .of_none (h.none_of_ct (h.outside hlit))
    case h_4 c hsched =>
      obtain ⟨⟨-, hct⟩, ⟨⟩⟩ := Option.ite_none_right_eq_some.mp hu
      have hnone := h.none_of_ct hct
      exact .of_none (by cases c <;> exact hnone)
    case h_5 hsched =>
      split at hu
      · rename_i hct
        exact .of_none fun t => by rw [(exec_steady hu).handlers, h.none_of_ct hct]
      · rename_i hct
        cases hu
        refine .of_none fun t => ?_
        rcases eq_or_ne t s.ct with rfl | hne
        · simp [(h.only s.ct hct).2.2]
        · by_contra ht
          exact hne (h.only t (by simpa [hne] using ht)).1
    case h_6 => cases hu

end Returns

namespace Threads

variable {s v : Threads n}

structure Punctual (s : Threads n) : Prop where
  returns : Returns s.sys
  atCreate : s.spawn.AtCreate

theorem Punctual.step {a : ThreadsAct} (h : s.Punctual) (hok : s.Timely a) (hv : s.step a = some v) : v.Punctual := by
  obtain ⟨hat, ⟨b, rfl, hu⟩ | hq⟩ := step_cases h.atCreate hv
  · refine ⟨h.returns.step hu ?_ ?_, hat⟩
    · rintro rfl
      exact hok
    · rintro rfl
      exact hok
  · exact ⟨h.returns.quiet hq, hat⟩

theorem Punctual.outside {a : ThreadsAct} (h : s.Punctual) (hv : s.step a = some v) : s.Outside a := by
  rintro rfl
  simp only [Threads.step] at hv
  obtain ⟨-, hv⟩ := Option.ite_none_left_eq_some.mp hv
  obtain ⟨w, hw, -⟩ := Option.map_eq_some_iff.mp hv
  simp only [Spawn.step] at hw
  obtain ⟨-, hw⟩ := Option.ite_none_left_eq_some.mp hw
  obtain ⟨u, hu, -⟩ := Option.map_eq_some_iff.mp hw
  refine h.returns.outside ?_
  unfold Uthread.step at hu
  split at hu
  · cases hu
  · split at hu
    case h_3 => exact (Option.ite_none_right_eq_some.mp hu).1
    all_goals simp_all

theorem Initialized.punctual (h : s.Initialized) : s.Punctual := by
  have hat := h.kept.atCreate
  obtain ⟨hn, w, hs, -, hhandlers, -⟩ := h
  refine ⟨.of_none fun t => ?_, hat⟩
  rw [sys, hs]
  exact hhandlers t

end Threads

/-- As long as no quantum ends between `alarm(UTHREAD_QUANTA)` and `sigreturn`, no handler is on top of another. -/
theorem handler_never_nests {s₀ : Threads n} {as : List ThreadsAct} (hinit : s₀.Initialized)
    (hok : Along Threads.step Threads.Timely s₀ as) :
    Along Threads.step Threads.Outside s₀ as ∧ Always Threads.step (fun s => s.sys.Single) s₀ as :=
  ⟨along_of_along (I := Threads.Punctual) (fun _ _ _ h hok hv => h.step hok hv) (fun _ _ _ h _ hv => h.outside hv)
      hinit.punctual hok,
    always_of_along (I := Threads.Punctual) (fun _ _ _ h hok hv => h.step hok hv) (fun _ h => h.returns.single)
      hinit.punctual hok⟩

def quantumEnds : List ThreadsAct :=
  initScans ++ .lib .stmt :: .replicate 5 (.lib .tick) ++ [.lib .preempt]

theorem quantumEnds_outside : Along Threads.step Threads.Timely newThreads quantumEnds ∧
    Along Threads.step Threads.Outside newThreads quantumEnds := by
  have hok : Along Threads.step Threads.Timely newThreads quantumEnds := by decide +kernel
  exact ⟨hok, (handler_never_nests newThreads_initialized hok).1⟩

def lateReturn : List ThreadsAct := initScans ++ .replicate 5 (.lib .tick)

theorem lateReturn_nests :
    ¬Along Threads.step Threads.Outside newThreads (lateReturn ++ [.spawn (.base .preempt)]) := by
  intro h
  have hrun : ((run Threads.step newThreads lateReturn).bind fun s =>
      (Threads.step s (.spawn (.base .preempt))).map fun t => (s.sys.handlers s.sys.ct, t.sys.sched)) =
        some (1, some 1) := by
    decide +kernel
  obtain ⟨s, hs, hstep⟩ := Option.bind_eq_some_iff.mp hrun
  obtain ⟨t, ht, hend⟩ := Option.map_eq_some_iff.mp hstep
  have hzero := along_at h hs ht rfl
  rw [(Prod.mk.inj hend).1] at hzero
  cases hzero

end Xv6.Uthread
