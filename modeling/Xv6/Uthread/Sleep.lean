import Xv6.Uthread.Whole

/-!
# Sleep

`uthread_sleep` adds its argument to the uptime, as signed numbers.
-/

open Function Xv6.Run

namespace Xv6.Uthread

variable {n : Nat}

/-! ## The machine with a clock -/

/-- The library with a clock that does not wrap. -/
structure Sleepers (n : Nat) where
  threads : Threads n
  time : Nat
  /-- The thread has called `uthread_sleep` and has not been chosen since. It may be from this time on. -/
  due : Fin n → Option Nat

def ThreadsAct.ticks : ThreadsAct → Nat
  | .spawn (.base .tick) => 1
  | _ => 0

def ThreadsAct.sleeps : ThreadsAct → Option Word
  | .spawn (.base (.call (.sleep ticks))) => some ticks
  | _ => none

namespace Sleepers

def sys (s : Sleepers n) : Sys n := s.threads.sys

/-- The promise of `uthread_sleep(ticks)`, for an argument that is not negative. -/
def promise (s : Sleepers n) (ticks : Word) : Option Nat :=
  if ticks.toNat < 2 ^ 31 then some (s.time + ticks.toNat) else none

/-- A thread that is chosen has nothing more to wait for. -/
def nextDue (s : Sleepers n) (v : Threads n) (a : ThreadsAct) : Fin n → Option Nat :=
  match a.sleeps with
  | some ticks => update s.due s.sys.ct (s.promise ticks)
  | none => if s.sys.sched ≠ none ∧ v.sys.sched = none then update s.due v.sys.ct none else s.due

def step (s : Sleepers n) (a : ThreadsAct) : Option (Sleepers n) :=
  (s.threads.step a).map fun v => ⟨v, s.time + a.ticks, s.nextDue v a⟩

def OnTime (s : Sleepers n) (a : ThreadsAct) : Prop :=
  ∀ v ∈ s.step a, s.sys.sched ≠ none → v.sys.sched = none → ∀ d ∈ s.due v.sys.ct, d ≤ s.time

instance (s : Sleepers n) : DecidablePred s.OnTime := fun _ =>
  inferInstanceAs (Decidable (∀ v ∈ _, _ → _ → ∀ d ∈ _, _))

end Sleepers

def Pc.fallsAsleep : Pc n → Bool
  | sleepTime _ | sleepState => true
  | _ => false

namespace Sleepers

/-- The sum in `uthread_sleep` does not overflow, and the alarm comes neither before the new state nor in a window. -/
def Unhurried (s : Sleepers n) (a : ThreadsAct) : Prop :=
  s.threads.Undisturbed a ∧ (a = .spawn (.base .preempt) → (s.sys.pc s.sys.ct).fallsAsleep = false) ∧
    (a = .spawn (.base .stmt) →
      match s.sys.pc s.sys.ct with
      | .sleepTime ticks => ticks.toNat < 2 ^ 31 → ticks.toInt + s.sys.ticks.toInt < 2 ^ 31
      | _ => True)

instance (s : Sleepers n) : DecidablePred s.Unhurried := fun _ =>
  have : Decidable (match s.sys.pc s.sys.ct with
      | .sleepTime ticks => ticks.toNat < 2 ^ 31 → ticks.toInt + s.sys.ticks.toInt < 2 ^ 31
      | _ => True) := by
    split <;> infer_instance
  inferInstanceAs (Decidable (_ ∧ _ ∧ _))

end Sleepers

/-! ## The clock -/

/-- From `time` on, a thread with this `wakeUpTime` is not woken before `d`. -/
def Waits (time d : Nat) (wakeUpTime : Word) : Prop :=
  ∀ T, time ≤ T → wakeUpTime.sle (BitVec.ofNat 32 T) = true → d ≤ T

theorem Waits.later {time time' d : Nat} {w : Word} (h : Waits time d w) (hle : time ≤ time') : Waits time' d w :=
  fun T hT => h T (hle.trans hT)

theorem waits_sum {time d : Nat} {ticks : Word} (hnonneg : ticks.toNat < 2 ^ 31) (hd : d ≤ time + ticks.toNat)
    (hfits : ticks.toInt + (BitVec.ofNat 32 time).toInt < 2 ^ 31) : Waits time d (ticks + BitVec.ofNat 32 time) := by
  intro T hT hle
  rw [BitVec.sle_iff_toInt_le] at hle
  have hw := BitVec.toNat_add ticks (BitVec.ofNat 32 time)
  generalize ticks + BitVec.ofNat 32 time = w at *
  have hlt := w.isLt
  rw [BitVec.toInt_eq_toNat_cond, BitVec.toInt_eq_toNat_cond, BitVec.toNat_ofNat] at *
  omega

/-! ## A thread that sleeps -/

/-- The thread sleeps, in `uthread_sleep` or off the processor. -/
structure Dozes (s : Sys n) (t : Fin n) (wakeUpTime : Word) : Prop where
  pc : s.pc t = .sleepYield ∨ s.pc t = .idle
  state : (s.thread t).state = .sleeping
  time : (s.thread t).wakeUpTime = wakeUpTime

theorem Dozes.congr {s u : Sys n} {t : Fin n} {w : Word} (h : Dozes s t w) (hpc : u.pc t = s.pc t)
    (hstate : (u.thread t).state = (s.thread t).state) (htime : (u.thread t).wakeUpTime = (s.thread t).wakeUpTime) :
    Dozes u t w :=
  ⟨hpc ▸ h.pc, hstate.trans h.state, htime.trans h.time⟩

theorem chooseNextThread_sleeper {s : Sys n} {t : Fin n} (ht : (s.thread t).state = .sleeping) (i : Nat) :
    (chooseNextThread i s).thread t = s.thread t ∧
      ((chooseNextThread i s).sched = none → (chooseNextThread i s).ct ≠ t) ∨
    (chooseNextThread i s).ct = t ∧ (chooseNextThread i s).sched = none ∧
      (s.thread t).wakeUpTime.sle s.ticks = true := by
  have hswitch (c : Fin n) (r : Sys n) : ((switchTo c r).ct = c ∧ (switchTo c r).sched = none) ∧
      ∀ j, j ≠ c → (switchTo c r).thread j = r.thread j := by
    unfold switchTo
    rw [alarm_quanta]
    exact ⟨⟨rfl, rfl⟩, fun j hj => Sys.setThread_thread_ne hj _⟩
  -- the entry that is looked at is the sleeper's, or another one
  have hlook : (s.setThread (s.currLoc i) (wakeUp s.ticks (s.thread (s.currLoc i)))).thread t = s.thread t ∨
      s.currLoc i = t ∧ (s.thread t).wakeUpTime.sle s.ticks = true := by
    rcases eq_or_ne t (s.currLoc i) with hc | hc
    · rw [← hc, Sys.setThread_thread_self, wakeUp]
      split
      · exact .inr ⟨rfl, (by assumption : _ ∧ _).2⟩
      · exact .inl rfl
    · exact .inl (Sys.setThread_thread_ne hc _)
  unfold chooseNextThread
  dsimp only
  generalize hr : s.setThread (s.currLoc i) (wakeUp s.ticks (s.thread (s.currLoc i))) = r at *
  have hct : r.ct = s.ct := by rw [← hr]; rfl
  have hloc : (r.thread (s.currLoc i)).state = .ready → s.currLoc i = t →
      (s.thread t).wakeUpTime.sle s.ticks = true := by
    rintro hready rfl
    rcases hlook with hsame | ⟨-, hdue⟩
    · rw [hsame, ht] at hready
      cases hready
    · exact hdue
  split
  · rename_i hready
    rcases eq_or_ne (s.currLoc i) t with hc | hc
    · exact .inr ⟨(hswitch _ r).1.1.trans hc, (hswitch _ r).1.2, hloc hready hc⟩
    · rcases hlook with hsame | ⟨hc', -⟩
      · exact .inl ⟨((hswitch _ r).2 t hc.symm).trans hsame, fun _ => (hswitch _ r).1.1 ▸ hc⟩
      · exact absurd hc' hc
  · rename_i hready
    -- a sleeper that had been woken would be ready
    have hsame : r.thread t = s.thread t := by
      refine hlook.resolve_right ?_
      rintro ⟨rfl, hdue⟩
      refine hready ?_
      rw [← hr, Sys.setThread_thread_self, wakeUp, if_pos ⟨ht, hdue⟩]
    split
    · exact .inl ⟨hsame, fun hnone => by cases hnone⟩
    · split
      · rename_i hrun
        have hne : t ≠ r.ct := by
          rintro rfl
          rw [Sys.self, hsame, ht] at hrun
          cases hrun
        exact .inl ⟨((hswitch _ r).2 t hne).trans hsame, fun _ => (hswitch _ r).1.1 ▸ hne.symm⟩
      · exact .inl ⟨hsame, fun hnone => by cases hnone⟩

theorem Running.not_dozes {s : Sys n} {w : Word} (h : Running s) (hsched : s.sched = none)
    (hpc : (s.pc s.ct).yields = false) : ¬Dozes s s.ct w := by
  intro hd
  rcases h hsched with hrun | hyields
  · have := hd.state
    rw [show (s.thread s.ct).state = .running from hrun] at this
    cases this
  · rw [hpc] at hyields
    cases hyields

theorem exec_dozes {s u : Sys n} {t : Fin n} {w : Word} (h : Dozes s t w) (hc : Coherent s) (hr : Running s)
    (hsched : s.sched = none) (hu : exec s = some u) : Dozes u t w := by
  rcases eq_or_ne t s.ct with rfl | ht
  · -- the thread itself gives up the processor
    rcases h.pc with hpc | hpc
    · rw [exec, hpc] at hu
      cases hu
      have hthread : (sigsend (s.goto .idle)).thread s.ct = s.thread s.ct := by
        refine (Sys.setThread_thread_self _ _ _).trans ?_
        rw [if_neg]
        · rfl
        · exact ne_of_eq_of_ne h.state (by simp)
      exact ⟨.inr (update_self _ _ _), hthread ▸ h.state, hthread ▸ h.time⟩
    · exact absurd h (hr.not_dozes hsched (by rw [hpc]; rfl))
  · obtain ⟨hpc, hrel⟩ := exec_other hu ht
    refine h.congr hpc ?_ ?_ <;> generalize u.thread t = y at hrel <;> cases hrel
    case refine_1.upReady x hat =>
      have := (hc.releasing hat).2.1
      rcases h.pc with hp | hp <;> rw [hp] at this <;> cases this
    case refine_1.exitReady hat =>
      refine absurd (hc.releasing hat).2 ?_
      rcases h.pc with hp | hp <;> rw [hp] <;> exact not_inJoin rfl
    all_goals rfl

def Chosen (s u : Sys n) (t : Fin n) : Prop := s.sched ≠ none ∧ u.sched = none ∧ u.ct = t

theorem not_chosen {s u : Sys n} {t : Fin n} (h : s.sched = none ∨ u.sched = s.sched) : ¬Chosen s u t := by
  rintro ⟨hs, hu, -⟩
  rcases h with h | h
  · exact hs h
  · exact hs (h ▸ hu)

theorem step_dozes {s u : Sys n} {b : Act} {t : Fin n} {w : Word} (h : Dozes s t w) (hc : Coherent s) (hr : Running s)
    (hu : step s b = some u) : Dozes u t w ∧ ¬Chosen s u t ∨ Chosen s u t ∧ w.sle s.ticks = true := by
  cases step_moves hu with
  | tick => exact .inl ⟨h.congr rfl rfl rfl, not_chosen (.inr rfl)⟩
  | @scan i hsched =>
    rcases chooseNextThread_sleeper h.state i with ⟨hsame, hne⟩ | ⟨hct, hs, hdue⟩
    · exact .inl ⟨h.congr (by rw [(chooseNextThread_rescheduled i).pc]) (by rw [hsame]) (by rw [hsame]),
        fun hch => hne hch.2.1 hch.2.2⟩
    · exact .inr ⟨⟨by rw [hsched]; nofun, hs, hct⟩, h.time ▸ hdue⟩
  | preempt hsched hpending =>
    have hthread : (deliver s).thread t = s.thread t := by
      rcases eq_or_ne t s.ct with rfl | ht
      · refine (Sys.setThread_thread_self _ _ _).trans ?_
        rw [if_neg]
        · rfl
        · exact ne_of_eq_of_ne h.state nofun
      · exact deliver_thread_ne ht
    exact .inl ⟨h.congr rfl (by rw [hthread]) (by rw [hthread]), not_chosen (.inl hsched)⟩
  | @call c hsched hpc =>
    have ht : t ≠ s.ct := by
      rintro rfl
      exact hr.not_dozes hsched (by rw [hpc]; rfl) h
    refine .inl ⟨?_, not_chosen (.inl hsched)⟩
    cases c <;> exact h.congr (Sys.goto_pc_ne ht _) rfl rfl
  | exec hsched hu => exact .inl ⟨exec_dozes h hc hr hsched hu, not_chosen (.inl hsched)⟩
  | leave hsched => exact .inl ⟨h.congr rfl rfl rfl, not_chosen (.inl hsched)⟩

theorem Spawn.Sound.execMake_alive {s v : Spawn n} {p : Nat} (h : s.Sound) (hv : s.execMake p = some v) {t : Fin n}
    (ht : s.sys.alive t) : v.sys.thread t = s.sys.thread t ∧ v.sys.pc t = s.sys.pc t := by
  unfold Spawn.execMake at hv
  cases hat : s.making s.sys.ct with
  | none =>
    rw [hat] at hv
    cases hv
  | some q =>
    have hplace := h.place q hat
    rw [hat] at hv
    have hset (i : Fin n) (x : Thread) (hi : ¬s.sys.alive i) : (s.sys.setThread i x).thread t = s.sys.thread t :=
      Sys.setThread_thread_ne (by rintro rfl; exact hi ht) x
    cases q with
    | tid i =>
      cases hv
      exact ⟨hset i _ hplace, rfl⟩
    | join i =>
      cases hv
      exact ⟨hset i _ hplace.1.1, rfl⟩
    | stack i =>
      obtain ⟨-, ⟨⟩⟩ := Option.ite_none_left_eq_some.mp hv
      exact ⟨rfl, rfl⟩
    | ready i =>
      cases hv
      have hi : ¬s.sys.alive i := hplace.1.1
      exact ⟨hset i _ hi, update_of_ne (by rintro rfl; exact hi ht) _ _⟩
    | search i | count i | frame i k =>
      cases hv
      exact ⟨rfl, rfl⟩

theorem Threads.step_dozes {s v : Threads n} {a : ThreadsAct} {t : Fin n} {w : Word} (h : Dozes s.sys t w)
    (hs : s.Sound) (hv : s.step a = some v) :
    Dozes v.sys t w ∧ ¬Chosen s.sys v.sys t ∨ Chosen s.sys v.sys t ∧ w.sle s.sys.ticks = true := by
  have halive : s.sys.alive t := ne_of_eq_of_ne h.state nofun
  cases step_moves hv with
  | base hbusy hw hu => exact Uthread.step_dozes h hs.spawn.coherent hs.spawn.running hu
  | makeStmt hfree hsched hw hmake =>
    obtain ⟨hthread, hpc⟩ := hs.spawn.execMake_alive hmake halive
    exact .inl ⟨h.congr hpc (congrArg Thread.state hthread) (congrArg Thread.wakeUpTime hthread),
      not_chosen (.inl hsched)⟩
  | @freeStack w' hfree hw hsys hmaking =>
    rw [show Threads.sys ⟨w', s.freeing⟩ = s.sys from hsys]
    exact .inl ⟨h, not_chosen (.inr rfl)⟩
  | create | free => exact .inl ⟨h.congr rfl rfl rfl, not_chosen (.inr rfl)⟩
  | freeStmt hsched hexec =>
    refine .inl ⟨?_, not_chosen (.inl hsched)⟩
    unfold Life.execFree at hexec
    split at hexec <;> cases hexec
    case h_3 x i hat =>
      rcases eq_or_ne t i with rfl | ht
      · have hself := s.sys.setThread_thread_self t { s.sys.thread t with blockedOnSemaphore := none }
        exact h.congr rfl ((congrArg Thread.state hself).trans rfl) ((congrArg Thread.wakeUpTime hself).trans rfl)
      · exact h.congr rfl (congrArg Thread.state (Sys.setThread_thread_ne ht _))
          (congrArg Thread.wakeUpTime (Sys.setThread_thread_ne ht _))
    case h_4 x i hat =>
      -- `bsem_free` makes ready a thread that waits in `bsem_down`
      have hwait := (hs.releases _ _ hat rfl).2.2.2.1
      have ht : t ≠ i := by
        rintro rfl
        rcases h.pc with hp | hp <;> rw [hp] at hwait <;> cases hwait
      exact h.congr rfl (congrArg Thread.state (Sys.setThread_thread_ne ht _))
        (congrArg Thread.wakeUpTime (Sys.setThread_thread_ne ht _))
    all_goals exact h.congr rfl rfl rfl

/-! ## Every run -/

namespace Sleepers

/-- The thread has called `uthread_sleep` and sleeps until `d`, or is about to. -/
inductive Asleep (s : Sleepers n) (t : Fin n) (d : Nat) : Prop where
  | time {ticks : Word} (hct : t = s.sys.ct) (hsched : s.sys.sched = none) (hpc : s.sys.pc t = .sleepTime ticks)
    (hticks : ticks.toNat < 2 ^ 31) (hd : d ≤ s.time + ticks.toNat)
  | state (hct : t = s.sys.ct) (hsched : s.sys.sched = none) (hpc : s.sys.pc t = .sleepState)
    (hwaits : Waits s.time d (s.sys.thread t).wakeUpTime)
  | dozes {w : Word} (hdozes : Dozes s.sys t w) (hwaits : Waits s.time d w)

structure Sound (s : Sleepers n) : Prop where
  threads : s.threads.Sound
  clock : s.sys.ticks = BitVec.ofNat 32 s.time
  asleep : ∀ t d, s.due t = some d → s.Asleep t d

variable {s v : Sleepers n}

theorem step_asleep {a : ThreadsAct} {w : Threads n} (h : s.threads.Sound) (hok : s.Unhurried a)
    (hw : s.threads.step a = some w) (hsched : s.sys.sched = none) (hpc : (s.sys.pc s.sys.ct).fallsAsleep = true) :
    a = .spawn (.base .stmt) ∧ exec s.sys = some w.sys ∨
      w.sys.ct = s.sys.ct ∧ w.sys.sched = none ∧ w.sys.pc = s.sys.pc ∧ w.sys.thread = s.sys.thread := by
  have hidle : s.sys.pc s.sys.ct ≠ .idle := by
    intro hidle
    rw [hidle] at hpc
    cases hpc
  have hmaking : s.threads.spawn.making s.sys.ct = none := by
    by_contra hne
    exact hidle (h.spawn.idle _ hne).1
  have hfreeing : s.threads.freeing s.sys.ct = none := by
    by_contra hne
    exact hidle (h.apart _ hne).1
  cases Threads.step_moves hw with
  | base hbusy hw hu =>
    cases step_moves hu with
    | tick => exact .inr ⟨rfl, hsched, rfl, rfl⟩
    | scan hscan =>
      rw [show s.threads.sys.sched = none from hsched] at hscan
      cases hscan
    | preempt =>
      rw [hok.2.1 rfl] at hpc
      cases hpc
    | call _ hcall => exact absurd hcall hidle
    | exec _ hu => exact .inl ⟨rfl, hu⟩
    | leave => exact .inr ⟨rfl, hsched, rfl, rfl⟩
  | create hfree hcreate => exact absurd hcreate hidle
  | makeStmt hfree hs hw hmake =>
    rw [Spawn.execMake, show s.threads.spawn.making s.threads.spawn.sys.ct = none from hmaking] at hmake
    cases hmake
  | @freeStack w hfree hw hsys hmaking =>
    rw [show Threads.sys ⟨w, s.threads.freeing⟩ = s.sys from hsys]
    exact .inr ⟨rfl, hsched, rfl, rfl⟩
  | free hmaking' hsched' hfree => exact absurd hfree hidle
  | freeStmt hsched' hexec =>
    unfold Life.execFree at hexec
    rw [show s.threads.life.freeing s.threads.life.sys.ct = none from hfreeing] at hexec
    cases hexec

theorem step_clock {a : ThreadsAct} {w : Threads n} (h : s.threads.Sound)
    (hclock : s.sys.ticks = BitVec.ofNat 32 s.time) (hw : s.threads.step a = some w) :
    w.sys.ticks = BitVec.ofNat 32 (s.time + a.ticks) := by
  cases Threads.step_moves hw with
  | base hbusy hw hu =>
    cases step_moves hu with
    | tick =>
      rw [BitVec.ofNat_add, ← hclock]
      rfl
    | scan => exact (chooseNextThread_rescheduled _).ticks.trans hclock
    | exec _ hu => exact (exec_steady hu).ticks.trans hclock
    | @call c => cases c <;> exact hclock
    | preempt | leave => exact hclock
  | makeStmt hfree hs hw hmake => exact (Spawn.execMake_quiet h.atCreate hmake).1.ticks.trans hclock
  | freeStack hfree hw hsys hmaking => exact (congrArg Sys.ticks hsys).trans hclock
  | freeStmt hsched hexec =>
    unfold Life.execFree at hexec
    split at hexec <;> cases hexec
    all_goals exact hclock
  | create | free => exact hclock

theorem eq_of_sleeps {a : ThreadsAct} {ticks : Word} (h : a.sleeps = some ticks) :
    a = .spawn (.base (.call (.sleep ticks))) := by
  unfold ThreadsAct.sleeps at h
  split at h
  · cases h
    rfl
  · cases h

theorem nextDue_cases {a : ThreadsAct} {w : Threads n} {t : Fin n} {d : Nat} (h : s.nextDue w a t = some d) :
    s.due t = some d ∧ ((∃ ticks, a.sleeps = some ticks) ∨ ¬Chosen s.sys w.sys t) ∨
      ∃ ticks, a.sleeps = some ticks ∧ t = s.sys.ct ∧ s.promise ticks = some d := by
  unfold nextDue at h
  cases hsleeps : a.sleeps with
  | some ticks =>
    rw [hsleeps] at h
    rcases eq_or_ne t s.sys.ct with rfl | ht
    · exact .inr ⟨ticks, rfl, rfl, (update_self s.sys.ct (s.promise ticks) s.due).symm.trans h⟩
    · exact .inl ⟨(update_of_ne ht (s.promise ticks) s.due).symm.trans h, .inl ⟨ticks, rfl⟩⟩
  | none =>
    rw [hsleeps] at h
    dsimp only at h
    split at h
    · rcases eq_or_ne t w.sys.ct with rfl | ht
      · rw [update_self] at h
        cases h
      · rw [update_of_ne ht] at h
        exact .inl ⟨h, .inr fun hch => ht hch.2.2.symm⟩
    · rename_i hnot
      exact .inl ⟨h, .inr fun hch => hnot ⟨hch.1, hch.2.1⟩⟩

namespace Sound

theorem asleep_step {a : ThreadsAct} {w : Threads n} (h : s.Sound) (hok : s.Unhurried a)
    (hw : s.threads.step a = some w)
    {t : Fin n} {d : Nat} (ht : s.due t = some d) (hnot : ¬Chosen s.sys w.sys t) {f : Fin n → Option Nat} :
    Asleep ⟨w, s.time + a.ticks, f⟩ t d := by
  have hle : s.time ≤ s.time + a.ticks := Nat.le_add_right _ _
  cases h.asleep t d ht with
  | @time ticks hct hsched hpc hticks hd =>
    subst hct
    rcases step_asleep h.threads hok hw hsched (by rw [hpc]; rfl) with ⟨rfl, hu⟩ | ⟨hct, hs, hpcs, hthread⟩
    · -- the thread reads the uptime
      have hfits := hok.2.2 rfl
      rw [hpc] at hfits
      rw [exec, hpc] at hu
      have hu := (Option.some.inj hu).symm
      have hself : w.sys.thread s.sys.ct = { s.sys.self with wakeUpTime := ticks + s.sys.ticks } := by
        rw [hu, Sys.setThread_thread_self]
      refine .state (congrArg Sys.ct hu).symm ((congrArg Sys.sched hu).trans hsched) ?_ ?_
      · exact (congrFun (congrArg Sys.pc hu) _).trans (update_self _ _ _)
      · change Waits s.time d (w.sys.thread s.sys.ct).wakeUpTime
        rw [hself, h.clock]
        exact waits_sum hticks hd (h.clock ▸ hfits hticks)
    · exact .time hct.symm hs ((congrFun hpcs _).trans hpc) hticks (hd.trans (Nat.add_le_add_right hle _))
  | state hct hsched hpc hwaits =>
    subst hct
    rcases step_asleep h.threads hok hw hsched (by rw [hpc]; rfl) with ⟨rfl, hu⟩ | ⟨hct, hs, hpcs, hthread⟩
    · rw [exec, hpc] at hu
      have hu := (Option.some.inj hu).symm
      have hself : w.sys.thread s.sys.ct = { s.sys.self with state := .sleeping } := by
        rw [hu, Sys.setThread_thread_self]
      refine .dozes (w := (s.sys.thread s.sys.ct).wakeUpTime) ⟨.inl ?_, ?_, ?_⟩ (hwaits.later hle)
      · exact (congrFun (congrArg Sys.pc hu) _).trans (update_self _ _ _)
      · exact congrArg Thread.state hself
      · exact (congrArg Thread.wakeUpTime hself).trans rfl
    · refine .state hct.symm hs ((congrFun hpcs _).trans hpc) ?_
      change Waits _ d (w.sys.thread s.sys.ct).wakeUpTime
      rw [hthread]
      exact hwaits.later hle
  | dozes hdozes hwaits =>
    rcases Threads.step_dozes hdozes h.threads hw with ⟨hdozes, -⟩ | ⟨hch, -⟩
    · exact .dozes hdozes (hwaits.later hle)
    · exact absurd hch hnot

theorem step {a : ThreadsAct} (h : s.Sound) (hok : s.Unhurried a) (hv : s.step a = some v) : v.Sound := by
  obtain ⟨w, hw, rfl⟩ := Option.map_eq_some_iff.mp hv
  refine ⟨h.threads.step hok.1 hw, step_clock h.threads h.clock hw, fun t d hd => ?_⟩
  rcases nextDue_cases hd with ⟨hdue, hnot⟩ | ⟨ticks, hsleeps, rfl, hpromise⟩
  · refine h.asleep_step hok hw hdue ?_
    rcases hnot with ⟨ticks, hsleeps⟩ | hnot
    · cases eq_of_sleeps hsleeps
      cases Threads.step_moves hw with
      | base hbusy hw hu =>
        cases step_moves hu with
        | call hsched => exact not_chosen (.inl hsched)
    · exact hnot
  · -- the call has just been made
    cases eq_of_sleeps hsleeps
    obtain ⟨hticks, ⟨⟩⟩ := Option.ite_none_right_eq_some.mp hpromise
    cases Threads.step_moves hw with
    | base hbusy hw hu =>
      cases step_moves hu with
      | call hsched => exact .time rfl hsched (update_self _ _ _) hticks le_rfl

theorem onTime (h : s.Sound) (a : ThreadsAct) : s.OnTime a := by
  intro v hv hsched hchosen d hd
  obtain ⟨w, hw, rfl⟩ := Option.map_eq_some_iff.mp hv
  cases h.asleep _ d hd with
  | time _ hs => exact absurd hs hsched
  | state _ hs => exact absurd hs hsched
  | dozes hdozes hwaits =>
    rcases Threads.step_dozes hdozes h.threads hw with ⟨-, hnot⟩ | ⟨-, hdue⟩
    · exact absurd ⟨hsched, hchosen, rfl⟩ hnot
    · exact hwaits s.time le_rfl (h.clock ▸ hdue)

end Sound

structure Started (s : Sleepers n) : Prop where
  threads : s.threads.Started
  clock : s.sys.ticks = BitVec.ofNat 32 s.time
  due : ∀ t, s.due t = none

theorem Started.sound (h : s.Started) : s.Sound := by
  refine ⟨h.threads.sound, h.clock, fun t d hd => ?_⟩
  rw [h.due] at hd
  cases hd

end Sleepers

/-- A thread is not chosen before its time, if the sum does not overflow and the alarm does not come before the new
state or in a window. -/
theorem uthreadSleep_on_time {s : Sleepers n} {as : List ThreadsAct} (hs : s.Started)
    (hok : Along Sleepers.step Sleepers.Unhurried s as) : Along Sleepers.step Sleepers.OnTime s as :=
  along_of_along (I := Sleepers.Sound) (fun _ _ _ h ha hv => h.step ha hv) (fun _ a _ h _ _ => h.onTime a) hs.sound hok

def trio : Sleepers 3 where
  threads :=
    { spawn :=
        { sys :=
            { lib := ⟨fun t => ⟨t, if t = 0 then .running else .ready, 0, none, none⟩, fun x => if x = 0 then 0 else -1⟩
              ct := 0
              pc := fun _ => .idle
              sched := none
              handlers := fun _ => 0
              pending := true
              alarmEnd := 5
              ticks := 1
              exited := false
              held := fun _ _ => false
              seen := ⟨fun t => ⟨t, .ready, 0, none, none⟩, fun _ => -1⟩
              ups := [] }
          making := fun _ => none
          nexttid := 3
          stack := fun t => 100 * t
          heap := fun b => b == 100 || b == 200
          freed := fun _ => false }
      freeing := fun _ => none }
  time := 1
  due := fun _ => none

theorem trio_started : trio.Started where
  threads :=
    { spawn :=
        { sys := ⟨fun _ => rfl, fun _ => ⟨rfl, rfl⟩, by decide, rfl, fun _ _ => rfl, rfl⟩
          making := fun _ => rfl
          freed := fun _ => rfl
          fresh := by decide
          first := by decide
          own := by
            unfold Spawn.OwnStack
            decide }
      freeing := fun _ => rfl }
  clock := rfl
  due := fun _ => rfl

/-- A whole call of `uthread_sleep`, up to where another thread goes on. -/
def sleepFor (ticks : Word) : List ThreadsAct :=
  .lib (.call (.sleep ticks)) :: (stmts .lib 3 ++ [.lib .scan, .lib .stmt])

theorem sleepFor_six : Along Sleepers.step Sleepers.OnTime trio (sleepFor 6 ++ switch .lib ++ switch .lib) ∧
    (run Sleepers.step trio (sleepFor 6 ++ switch .lib ++ switch .lib)).map (fun s => (s.time, s.sys.ct)) =
      some (11, 0) :=
  ⟨uthreadSleep_on_time trio_started (by decide +kernel), by decide +kernel⟩

def sleepTooLong : List ThreadsAct := sleepFor 0x7FFFFFFF ++ switch .lib ++ switch .lib

def sleepBroken : List ThreadsAct :=
  .lib (.call (.sleep 100)) :: (switch .lib ++ switch .lib ++ switch .lib)

/-- Thread 1 frees the semaphore that thread 0 waits for. Thread 2 gives it up before thread 1 makes thread 0 ready. -/
def sleepFreed : List ThreadsAct :=
  List.flatten [[.lib (.call (.down 0))], stmts .lib 6, [.lib .scan, .lib .stmt, .free 0, .freeStmt],
    switch .lib, [.lib (.call (.up 0))], stmts .lib 6, switch .lib, stmts .lib 1, sleepFor 100,
    [.freeStmt, .freeStmt], switch .lib, switch .lib]

theorem sleep_cut_short : trio.Started ∧ ¬Along Sleepers.step Sleepers.OnTime trio sleepTooLong ∧
    ¬Along Sleepers.step Sleepers.OnTime trio sleepBroken ∧ ¬Along Sleepers.step Sleepers.OnTime trio sleepFreed :=
  ⟨trio_started, by decide +kernel, by decide +kernel, by decide +kernel⟩

end Xv6.Uthread
