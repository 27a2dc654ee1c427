import Xv6.Uthread.Alarm

/-!
# The library as a whole

`uthread_create` keeps the threads apart as long as the alarm does not come in its windows.
-/

open Function Xv6.Run

namespace Xv6.Uthread

variable {n : Nat}

def FreePc.releasing : FreePc n → Bool
  | clear _ _ | ready _ _ => true
  | _ => false

def FreePc.Knows (s : Sys n) : FreePc n → Prop
  | .clear x i => (s.thread i).blockedOnSemaphore = some x
  | .ready x i => (s.thread i).blockedOnSemaphore = none ∧ s.pc i = .downWait x ∧ (s.thread i).state = .blocked
  | _ => True

namespace Threads

/-- The alarm does not come in a window, and `malloc` finds a block. -/
def Undisturbed (s : Threads n) : ThreadsAct → Prop
  | .spawn a => s.spawn.Undisturbed a ∧ (a = .base .preempt → (s.freeing s.sys.ct).any FreePc.releasing = false)
  | _ => True

instance (s : Threads n) : DecidablePred s.Undisturbed
  | .spawn _ => inferInstanceAs (Decidable (_ ∧ _))
  | .free _ | .freeStmt => .isTrue trivial

inductive Moves (s : Threads n) : ThreadsAct → Threads n → Prop where
  | base {b : Act} {u : Sys n} (hbusy : s.life.busy b = false)
    (hw : s.spawn.step (.base b) = some { s.spawn with sys := u })
    (hu : Uthread.step s.sys b = some u) : Moves s (.spawn (.base b)) ⟨{ s.spawn with sys := u }, s.freeing⟩
  | create (hfree : s.freeing s.sys.ct = none) (hpc : s.sys.pc s.sys.ct = .idle)
    (hw : s.spawn.step .create = some (s.spawn.gotoMake (some (.search 0)))) :
    Moves s (.spawn .create) ⟨s.spawn.gotoMake (some (.search 0)), s.freeing⟩
  | makeStmt {p : Nat} {w : Spawn n} (hfree : s.freeing s.sys.ct = none) (hsched : s.sys.sched = none)
    (hw : s.spawn.step (.makeStmt p) = some w) (hmake : s.spawn.execMake p = some w) :
    Moves s (.spawn (.makeStmt p)) ⟨w, s.freeing⟩
  | freeStack {w : Spawn n} (hfree : s.freeing s.sys.ct = none) (hw : s.spawn.step .freeStack = some w)
    (hsys : w.sys = s.sys) (hmaking : w.making = s.spawn.making) : Moves s (.spawn .freeStack) ⟨w, s.freeing⟩
  | free {x : Sem} (hmaking : s.spawn.making s.sys.ct = none) (hsched : s.sys.sched = none)
    (hpc : s.sys.pc s.sys.ct = .idle) :
    Moves s (.free x) ⟨s.spawn, update s.freeing s.sys.ct (some (.scan x 0))⟩
  | freeStmt {w : Life n} (hsched : s.sys.sched = none) (hw : s.life.execFree = some w) :
    Moves s .freeStmt (s.setLife w)

theorem step_moves {s v : Threads n} {a : ThreadsAct} (hv : s.step a = some v) : s.Moves a v := by
  cases a with
  | spawn a =>
    obtain ⟨hbusy, hv⟩ := Option.ite_none_left_eq_some.mp hv
    obtain ⟨w, hw, rfl⟩ := Option.map_eq_some_iff.mp hv
    have hw' := hw
    cases a with
    | base b =>
      obtain ⟨-, hw'⟩ := Option.ite_none_left_eq_some.mp hw'
      obtain ⟨u, hu, rfl⟩ := Option.map_eq_some_iff.mp hw'
      exact .base (Bool.eq_false_iff.mpr hbusy) hw hu
    | create =>
      obtain ⟨⟨-, hpc, -⟩, ⟨⟩⟩ := Option.ite_none_right_eq_some.mp hw'
      exact .create (Option.not_isSome_iff_eq_none.mp hbusy) hpc hw
    | makeStmt p =>
      obtain ⟨hrun, hmake⟩ := Option.ite_none_right_eq_some.mp hw'
      exact .makeStmt (Option.not_isSome_iff_eq_none.mp hbusy) (Spawn.sched_of_running hrun) hw hmake
    | freeStack =>
      obtain ⟨-, ⟨⟩⟩ := Option.ite_none_right_eq_some.mp hw'
      exact .freeStack (Option.not_isSome_iff_eq_none.mp hbusy) hw rfl rfl
  | free x =>
    obtain ⟨hmaking, hv⟩ := Option.ite_none_right_eq_some.mp hv
    obtain ⟨w, hw, rfl⟩ := Option.map_eq_some_iff.mp hv
    obtain ⟨⟨hrun, hpc, -⟩, ⟨⟩⟩ := Option.ite_none_right_eq_some.mp hw
    exact .free hmaking (Life.sched_of_running hrun) hpc
  | freeStmt =>
    obtain ⟨w, hw, rfl⟩ := Option.map_eq_some_iff.mp hv
    obtain ⟨hrun, hw⟩ := Option.ite_none_right_eq_some.mp hw
    exact .freeStmt (Life.sched_of_running hrun) hw

structure Sound (s : Threads n) : Prop where
  spawn : s.spawn.Sound
  apart : ∀ t, s.freeing t ≠ none → s.sys.pc t = .idle ∧ s.spawn.making t = none
  releases : ∀ t p, s.freeing t = some p → p.releasing = true → t = s.sys.ct ∧ s.sys.sched = none ∧ p.Knows s.sys

end Threads

theorem step_stmt_of_handler {s u : Sys n} (hh : s.handlers s.ct ≠ 0) (hu : step s .stmt = some u) :
    u = { s with handlers := update s.handlers s.ct (s.handlers s.ct - 1) } := by
  cases hsched : s.sched <;> simp only [step, hsched, if_neg hh] at hu
  · split at hu
    · cases hu
    · cases hu
      rfl
  · split at hu <;> cases hu

theorem execMake_making {s v : Spawn n} {p : Nat} (hv : s.execMake p = some v) {t : Fin n} (ht : t ≠ s.sys.ct) :
    v.making t = s.making t := by
  unfold Spawn.execMake at hv
  split at hv
  case h_1 => cases hv
  case h_6 =>
    obtain ⟨-, ⟨⟩⟩ := Option.ite_none_left_eq_some.mp hv
    exact update_of_ne ht _ _
  all_goals
    cases hv
    exact update_of_ne ht _ _

namespace Threads.Sound

variable {s v : Threads n}

variable (h : s.Sound)
include h

theorem atCreate : s.spawn.AtCreate := fun t ht => (h.spawn.idle t ht).1

theorem base {b : Act} {u : Sys n} (hok : s.Undisturbed (.spawn (.base b))) (hbusy : s.life.busy b = false)
    (hw : Spawn.Sound { s.spawn with sys := u }) (hu : Uthread.step s.sys b = some u) :
    Sound ⟨{ s.spawn with sys := u }, s.freeing⟩ := by
  have hidle (t) (ht : s.freeing t ≠ none) : u.pc t = .idle := by
    rcases step_pc hu t with hsame | ⟨rfl, hh, hb⟩
    · exact hsame.trans (h.apart t ht).1
    · have ht : (s.freeing s.sys.ct).isSome = true := Option.isSome_iff_ne_none.mpr ht
      rcases hb with ⟨c, rfl⟩ | rfl
      · rw [show s.life.busy (.call c) = (s.freeing s.sys.ct).isSome from rfl, ht] at hbusy
        cases hbusy
      · rw [show s.life.busy .stmt = ((s.freeing s.sys.ct).isSome && s.sys.handlers s.sys.ct == 0) from rfl, ht,
          hh] at hbusy
        cases hbusy
  refine ⟨hw, fun t ht => ⟨hidle t ht, (h.apart t ht).2⟩, fun t p hp hrel => ?_⟩
  obtain ⟨rfl, hsched, hknows⟩ := h.releases t p hp hrel
  have hsome : (s.freeing s.sys.ct).isSome = true := by
    rw [show s.freeing s.sys.ct = some p from hp]
    rfl
  -- only the clock and a handler that returns are left
  cases b with
  | tick =>
    cases Uthread.step_moves hu
    exact ⟨rfl, hsched, by cases p <;> exact hknows⟩
  | scan =>
    cases Uthread.step_moves hu with
    | scan hscan => rw [hsched] at hscan; cases hscan
  | preempt =>
    have hnot := hok.2 rfl
    rw [show s.freeing s.sys.ct = some p from hp, Option.any_some, hrel] at hnot
    cases hnot
  | call c =>
    rw [show s.life.busy (.call c) = (s.freeing s.sys.ct).isSome from rfl, hsome] at hbusy
    cases hbusy
  | stmt =>
    have hh : s.sys.handlers s.sys.ct ≠ 0 := by
      intro hh
      rw [show s.life.busy .stmt = ((s.freeing s.sys.ct).isSome && s.sys.handlers s.sys.ct == 0) from rfl, hsome,
        hh] at hbusy
      cases hbusy
    cases step_stmt_of_handler hh hu
    exact ⟨rfl, hsched, by cases p <;> exact hknows⟩

theorem others {w : Spawn n} (hfree : s.freeing s.sys.ct = none) (hw : w.Sound)
    (hpc : ∀ t, w.sys.pc t = s.sys.pc t ∨ w.sys.pc t = .idle)
    (hmaking : ∀ t, t ≠ s.sys.ct → w.making t = s.spawn.making t) : Sound ⟨w, s.freeing⟩ := by
  have hne (t) (ht : s.freeing t ≠ none) : t ≠ s.sys.ct := by
    rintro rfl
    exact ht hfree
  refine ⟨hw, fun t ht => ⟨?_, (hmaking t (hne t ht)).trans (h.apart t ht).2⟩, fun t p hp hrel => ?_⟩
  · rcases hpc t with hsame | hidle
    · exact hsame.trans (h.apart t ht).1
    · exact hidle
  · have ht : s.freeing t ≠ none := by
      rw [show s.freeing t = some p from hp]
      nofun
    exact absurd (h.releases t p hp hrel).1 (hne t ht)

theorem free (hpc : s.sys.pc s.sys.ct = .idle) (hmaking : s.spawn.making s.sys.ct = none)
    (hsched : s.sys.sched = none) {u : Sys n} {q : Option (FreePc n)} (hct : u.ct = s.sys.ct)
    (hs : u.sched = s.sys.sched) (hpcs : u.pc = s.sys.pc) (hc : Coherent u) (hself : u.self = s.sys.self)
    (htid : ∀ t, (u.thread t).tid = (s.sys.thread t).tid) (halive : ∀ t, u.alive t ↔ s.sys.alive t)
    (hknows : ∀ p, q = some p → p.releasing = true → p.Knows u) :
    Sound ⟨{ s.spawn with sys := u }, update s.freeing s.sys.ct q⟩ := by
  have hrun : Running u := fun _ => by
    rw [hself, hct, hpcs]
    exact h.spawn.running hsched
  refine ⟨h.spawn.move hc hrun halive htid (fun t ht => ?_) (fun t ht => ?_) fun t ht => ?_, fun t ht => ?_,
    fun t p hp hrel => ?_⟩
  · rw [hpcs]
    exact (h.spawn.idle t ht).1
  · rw [hct, hs]
    exact h.spawn.window t ht
  · rw [hpcs]
    exact h.spawn.leaving t ht
  · rcases eq_or_ne t s.sys.ct with rfl | hne
    · exact ⟨(congrFun hpcs _).trans hpc, hmaking⟩
    · dsimp only at ht
      rw [update_of_ne hne] at ht
      exact ⟨(congrFun hpcs _).trans (h.apart t ht).1, (h.apart t ht).2⟩
  · dsimp only at hp
    rcases eq_or_ne t s.sys.ct with rfl | hne
    · rw [update_self] at hp
      exact ⟨hct.symm, hs.trans hsched, hknows p hp hrel⟩
    · rw [update_of_ne hne] at hp
      exact absurd (h.releases t p hp hrel).1 hne

theorem execFree (hsched : s.sys.sched = none) {w : Life n} (hw : s.life.execFree = some w) :
    (s.setLife w).Sound := by
  unfold Life.execFree at hw
  cases hat : s.freeing s.sys.ct with
  | none =>
    rw [show s.life.freeing s.life.sys.ct = none from hat] at hw
    cases hw
  | some p =>
    obtain ⟨hpc, hmaking⟩ := h.apart s.sys.ct (by simp [hat])
    have hknows := h.releases s.sys.ct p hat
    have hcoherent := h.spawn.coherent
    rw [show s.life.freeing s.life.sys.ct = some p from hat] at hw
    -- the entry of a thread that waits, while the semaphore is freed
    have hset (i : Fin n) (x : Sem) (q : FreePc n) (y : Thread) (hwait : s.sys.pc i = .downWait x)
        (hstate : (s.sys.thread i).state = .blocked)
        (hy : y.tid = (s.sys.thread i).tid ∧ y.joinOnTid = (s.sys.thread i).joinOnTid ∧ y.blockedOnSemaphore = none)
        (halive : y.state ≠ .terminated) (hq : q.releasing = true → q.Knows (s.sys.setThread i y)) :
        Sound ⟨{ s.spawn with sys := s.sys.setThread i y }, update s.freeing s.sys.ct (some q)⟩ := by
      have hi : i ≠ s.sys.ct := by
        rintro rfl
        rw [hpc] at hwait
        cases hwait
      have hidle : s.spawn.sys.pc s.spawn.sys.ct = .idle := hpc
      have hreleased : Coherent (s.sys.setThread i y) :=
        hcoherent.release (p := .idle) (by rw [hidle]; exact ⟨rfl, rfl⟩) rfl (by simp [Pc.active]) rfl
          (by rw [← hidle, update_eq_self]; rfl) rfl hwait hstate hy halive (by simp [Pc.critical]) trivial nofun
      refine h.free hpc hmaking hsched rfl rfl rfl hreleased
        (Sys.setThread_thread_ne hi.symm y) (fun t => ?_) (fun t => ?_) ?_
      · rcases eq_or_ne t i with rfl | ht
        · rw [Sys.setThread_thread_self, hy.1]
        · rw [Sys.setThread_thread_ne ht]
      · rcases eq_or_ne t i with rfl | ht
        · rw [Sys.alive, Sys.setThread_thread_self, Sys.alive, hstate]
          exact iff_of_true halive (by simp)
        · rw [Sys.alive, Sys.setThread_thread_ne ht, Sys.alive]
      · rintro p ⟨⟩ hrel
        exact hq hrel
    cases p with
    | scan x i =>
      cases hw
      refine h.free hpc hmaking hsched rfl rfl rfl hcoherent rfl (fun _ => rfl) (fun _ => Iff.rfl) ?_
      rintro p ⟨⟩ hrel
      split
      · split
        · assumption
        · trivial
      · trivial
    | clear x i =>
      cases hw
      have hblocked := (hknows rfl).2.2
      have hi : i ≠ s.sys.ct := by
        rintro rfl
        have hdown := (hcoherent.fits s.sys.ct).down x hblocked
        rw [show s.spawn.sys.pc s.sys.ct = .idle from hpc] at hdown
        exact absurd hdown (not_inDown rfl)
      obtain ⟨hwait, hstate⟩ := hcoherent.parked hblocked hi
      have hself := s.sys.setThread_thread_self i { s.sys.thread i with blockedOnSemaphore := none }
      refine hset i x (.ready x i) _ hwait hstate ⟨rfl, rfl, rfl⟩ ?_ fun _ => ⟨?_, hwait, ?_⟩
      · exact ne_of_eq_of_ne hstate (by simp)
      · exact congrArg Thread.blockedOnSemaphore hself
      · exact (congrArg Thread.state hself).trans hstate
    | ready x i =>
      cases hw
      obtain ⟨hnone, hwait, hstate⟩ := (hknows rfl).2.2
      exact hset i x (.scan x (i + 1)) _ hwait hstate ⟨rfl, rfl, hnone⟩ (by simp) (by simp [FreePc.releasing])
    | drop x =>
      cases hw
      refine h.free hpc hmaking hsched rfl rfl rfl (hcoherent.congr rfl rfl rfl rfl rfl) rfl (fun _ => rfl)
        (fun _ => Iff.rfl) ?_
      simp

theorem step {a : ThreadsAct} (hok : s.Undisturbed a) (hv : s.step a = some v) : v.Sound := by
  cases step_moves hv with
  | base hbusy hw hu => exact h.base hok hbusy (h.spawn.step hok.1 hw) hu
  | create hfree hpc hw =>
    exact h.others hfree (h.spawn.step hok.1 hw) (fun _ => .inl rfl) fun t ht => update_of_ne ht _ _
  | makeStmt hfree hsched hw hmake =>
    refine h.others hfree (h.spawn.step hok.1 hw) (fun t => ?_) fun t ht => execMake_making hmake ht
    rcases (Spawn.execMake_quiet h.atCreate hmake).1.pc with hsame | ⟨-, hpc⟩
    · exact .inl (congrFun hsame t)
    · exact hpc t
  | freeStack hfree hw hsys hmaking =>
    exact h.others hfree (h.spawn.step hok.1 hw) (fun t => .inl (by rw [hsys])) fun t _ => by rw [hmaking]
  | free hmaking hsched hpc =>
    refine h.free hpc hmaking hsched rfl rfl rfl h.spawn.coherent rfl (fun _ => rfl) (fun _ => Iff.rfl) ?_
    rintro p ⟨⟩
    nofun
  | freeStmt hsched hw => exact h.execFree hsched hw

end Threads.Sound

structure Threads.Started (s : Threads n) : Prop where
  spawn : s.spawn.Started
  freeing : ∀ t, s.freeing t = none

theorem Threads.Started.sound {s : Threads n} (h : s.Started) : s.Sound := by
  refine ⟨h.spawn.sound, fun t ht => absurd (h.freeing t) ht, fun t p hp => ?_⟩
  rw [h.freeing] at hp
  cases hp

end Xv6.Uthread
