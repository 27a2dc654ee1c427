import Xv6.Uthread.Machine

/-!
# What a step can be

A statement writes the entry of its thread, releases another one, sets a semaphore, gives up the processor, or turns
the scheduler off and on.
-/

open Function

namespace Xv6.Uthread

variable {n : Nat} {s u : Sys n}

def Pc.afterYield : Pc n → Option (Pc n)
  | downYield x => some (downWait x)
  | sleepYield => some idle
  | joinYield => some joinWait
  | exitYield => some exitWait
  | _ => none

inductive Looks (s : Sys n) : Pc n → Pc n → Prop where
  | downTest {x : Sem} (hopen : s.lib.semaphores x ≠ -1) : Looks s (.downTest x) (.downDisable x)
  | downClosed {x : Sem} (hzero : s.lib.semaphores x = 0) : Looks s (.downLook x) (.downMark x)
  | downOpen {x : Sem} (hzero : s.lib.semaphores x ≠ 0) : Looks s (.downLook x) (.downTake x)
  | upFreed {x : Sem} : Looks s (.upTest x) .idle
  | upTest {x : Sem} (hopen : s.lib.semaphores x ≠ -1) : Looks s (.upTest x) (.upDisable x)
  | upFound {x : Sem} {i : Nat} (hi : i < n) (hfound : (s.thread ⟨i, hi⟩).blockedOnSemaphore = some x) :
    Looks s (.upScan x i) (.upClear x ⟨i, hi⟩)
  | upNext {x : Sem} {i : Nat} (hi : i < n) (hne : (s.thread ⟨i, hi⟩).blockedOnSemaphore ≠ some x) :
    Looks s (.upScan x i) (.upScan x (i + 1))
  | upNone {x : Sem} {i : Nat} (hi : ¬i < n) : Looks s (.upScan x i) (.upOpen x)
  | allocFound {i : Nat} (hi : i < maxBsem) (hfree : s.lib.semaphores ⟨i, hi⟩ = -1) :
    Looks s (.allocScan i) (.allocTake ⟨i, hi⟩)
  | allocNext {i : Nat} : Looks s (.allocScan i) (.allocScan (i + 1))
  | allocNone {i : Nat} : Looks s (.allocScan i) .idle
  | allocReturn {x : Sem} : Looks s (.allocReturn x) .idle
  | joinFound {tid i : Nat} (hi : i < n) (hfound : tid = (s.thread ⟨i, hi⟩).tid) :
    Looks s (.joinScan tid i) (.joinCheck ⟨i, hi⟩)
  | joinNext {tid i : Nat} (hi : i < n) (hne : tid ≠ (s.thread ⟨i, hi⟩).tid) :
    Looks s (.joinScan tid i) (.joinScan tid (i + 1))
  | joinNone {tid i : Nat} (hi : ¬i < n) : Looks s (.joinScan tid i) .idle
  | joinEnded {i : Fin n} (hended : (s.thread i).state = .terminated) : Looks s (.joinCheck i) .idle
  | joinAlive {i : Fin n} (halive : (s.thread i).state ≠ .terminated) : Looks s (.joinCheck i) (.joinMark i)
  | joinWait : Looks s .joinWait .idle
  | exitCount {i c : Nat} (hi : i < n) :
    Looks s (.exitCount i c) (.exitCount (i + 1) (if (s.thread ⟨i, hi⟩).state = .terminated then c else c + 1))
  | exitCounted {i c : Nat} (hi : ¬i < n) (hne : c ≠ 1) : Looks s (.exitCount i c) (.exitScan 0)
  | exitFound {i : Nat} (hi : i < n) (hfound : (s.thread ⟨i, hi⟩).joinOnTid = some s.self.tid) :
    Looks s (.exitScan i) (.exitClear ⟨i, hi⟩)
  | exitNext {i : Nat} (hi : i < n) (hne : (s.thread ⟨i, hi⟩).joinOnTid ≠ some s.self.tid) :
    Looks s (.exitScan i) (.exitScan (i + 1))
  | exitNone {i : Nat} (hi : ¬i < n) : Looks s (.exitScan i) .exitState

inductive Writes (s : Sys n) : Pc n → Pc n → Thread → Prop where
  | downMark {x : Sem} : Writes s (.downMark x) (.downBlock x) { s.self with blockedOnSemaphore := some x }
  | downBlock {x : Sem} : Writes s (.downBlock x) (.downYield x) { s.self with state := .blocked }
  | sleepTime {ticks : Word} : Writes s (.sleepTime ticks) .sleepState { s.self with wakeUpTime := ticks + s.ticks }
  | sleepState : Writes s .sleepState .sleepYield { s.self with state := .sleeping }
  | joinMark {i : Fin n} : Writes s (.joinMark i) .joinBlock { s.self with joinOnTid := some (s.thread i).tid }
  | joinBlock : Writes s .joinBlock .joinYield { s.self with state := .blocked }
  | exitState : Writes s .exitState .exitYield { s.self with state := .terminated }

inductive Wakes (s : Sys n) (i : Fin n) : Pc n → Pc n → Thread → Prop where
  | upClear {x : Sem} : Wakes s i (.upClear x i) (.upReady x i) { s.thread i with blockedOnSemaphore := none }
  | upReady {x : Sem} : Wakes s i (.upReady x i) (.upEnable x) { s.thread i with state := .ready }
  | exitClear : Wakes s i (.exitClear i) (.exitReady i) { s.thread i with joinOnTid := none }
  | exitReady : Wakes s i (.exitReady i) (.exitScan (i + 1)) { s.thread i with state := .ready }

inductive Sets : Pc n → Pc n → Sem → Int → Prop where
  | downTake {x : Sem} : Sets (.downTake x) (.downEnable x) x 0
  | upOpen {x : Sem} : Sets (.upOpen x) (.upEnable x) x 1
  | allocTake {x : Sem} : Sets (.allocTake x) (.allocReturn x) x 1

inductive Yields : Pc n → Pc n → Prop where
  | down {x : Sem} : Yields (.downYield x) (.downWait x)
  | sleep : Yields .sleepYield .idle
  | join : Yields .joinYield .joinWait
  | exit : Yields .exitYield .exitWait

theorem Yields.afterYield {q p : Pc n} (h : Yields q p) : q.afterYield = some p := by cases h <;> rfl

inductive Executes (s : Sys n) : Sys n → Prop where
  | look {q p : Pc n} (hpc : s.pc s.ct = q) (h : Looks s q p) : Executes s (s.goto p)
  | write {q p : Pc n} {x : Thread} (hpc : s.pc s.ct = q) (h : Writes s q p x) :
    Executes s ((s.goto p).setThread s.ct x)
  | wake {q p : Pc n} {i : Fin n} {x : Thread} (hpc : s.pc s.ct = q) (h : Wakes s i q p x) :
    Executes s ((s.goto p).setThread i x)
  | set {q p : Pc n} {x : Sem} {v : Int} (hpc : s.pc s.ct = q) (h : Sets q p x v) : Executes s ((s.goto p).setSem x v)
  | yield {q p : Pc n} (hpc : s.pc s.ct = q) (h : Yields q p) : Executes s (sigsend (s.goto p))
  | freed {x : Sem} (hpc : s.pc s.ct = .downTest x) (hfree : s.lib.semaphores x = -1) : Executes s (s.returnDown x)
  | granted {x : Sem} (hpc : s.pc s.ct = .downWait x) : Executes s (s.returnDown x)
  | downDisable {x : Sem} (hpc : s.pc s.ct = .downDisable x) :
    Executes s { s.goto (.downLook x) with pending := false }
  | upDisable {x : Sem} (hpc : s.pc s.ct = .upDisable x) :
    Executes s { s.goto (.upScan x 0) with pending := false, seen := s.lib }
  | downEnable {x : Sem} (hpc : s.pc s.ct = .downEnable x) :
    Executes s { s.returnDown x with pending := true, alarmEnd := s.ticks + uthreadQuanta }
  | upEnable {x : Sem} (hpc : s.pc s.ct = .upEnable x) :
    Executes s { s.goto .idle with
      pending := true, alarmEnd := s.ticks + uthreadQuanta, ups := s.ups ++ [⟨x, s.seen, s.lib⟩] }
  | exit {i : Nat} (hpc : s.pc s.ct = .exitCount i 1) (hi : ¬i < n) : Executes s { s with exited := true }

/-- Every statement has one of these forms. -/
theorem exec_executes (hu : exec s = some u) : Executes s u := by
  unfold exec at hu
  cases hpc : s.pc s.ct <;> simp only [hpc, Option.some.injEq, reduceCtorEq] at hu
  case downTest x =>
    split at hu <;> subst hu
    · exact .freed hpc (by assumption)
    · exact .look hpc (.downTest (by assumption))
  case downLook x =>
    split at hu <;> subst hu
    · exact .look hpc (.downClosed (by assumption))
    · exact .look hpc (.downOpen (by assumption))
  case upTest x =>
    split at hu <;> subst hu
    · exact .look hpc .upFreed
    · exact .look hpc (.upTest (by assumption))
  case upScan x i =>
    split at hu
    · rename_i hi
      split at hu <;> subst hu
      · exact .look hpc (.upFound hi (by assumption))
      · exact .look hpc (.upNext hi (by assumption))
    · subst hu
      exact .look hpc (.upNone (by assumption))
  case allocScan i =>
    split at hu
    · rename_i hi
      split at hu <;> subst hu
      · exact .look hpc (.allocFound hi (by assumption))
      · exact .look hpc .allocNext
    · subst hu
      exact .look hpc .allocNone
  case joinScan tid i =>
    split at hu
    · rename_i hi
      split at hu <;> subst hu
      · exact .look hpc (.joinFound hi (by assumption))
      · exact .look hpc (.joinNext hi (by assumption))
    · subst hu
      exact .look hpc (.joinNone (by assumption))
  case joinCheck i =>
    split at hu <;> subst hu
    · exact .look hpc (.joinEnded (by assumption))
    · exact .look hpc (.joinAlive (by assumption))
  case exitCount i c =>
    split at hu
    · subst hu
      exact .look hpc (.exitCount (by assumption))
    · rename_i hi
      split at hu <;> subst hu
      · rename_i hone
        exact .exit (by rw [hpc, hone]) hi
      · exact .look hpc (.exitCounted hi (by assumption))
  case exitScan i =>
    split at hu
    · rename_i hi
      split at hu <;> subst hu
      · exact .look hpc (.exitFound hi (by assumption))
      · exact .look hpc (.exitNext hi (by assumption))
    · subst hu
      exact .look hpc (.exitNone (by assumption))
  all_goals subst hu
  case downDisable x => exact .downDisable hpc
  case upDisable x => exact .upDisable hpc
  case downEnable x =>
    rw [alarm_quanta]
    exact .downEnable hpc
  case upEnable x =>
    rw [alarm_quanta]
    exact .upEnable hpc
  case downYield => exact .yield hpc .down
  case sleepYield => exact .yield hpc .sleep
  case joinYield => exact .yield hpc .join
  case exitYield => exact .yield hpc .exit
  case downWait => exact .granted hpc
  case joinWait => exact .look hpc .joinWait
  case allocReturn => exact .look hpc .allocReturn
  case downMark => exact .write hpc .downMark
  case downBlock => exact .write hpc .downBlock
  case sleepTime => exact .write hpc .sleepTime
  case sleepState => exact .write hpc .sleepState
  case joinMark => exact .write hpc .joinMark
  case joinBlock => exact .write hpc .joinBlock
  case exitState => exact .write hpc .exitState
  case upClear => exact .wake hpc .upClear
  case upReady => exact .wake hpc .upReady
  case exitClear => exact .wake hpc .exitClear
  case exitReady => exact .wake hpc .exitReady
  case downTake => exact .set hpc .downTake
  case upOpen => exact .set hpc .upOpen
  case allocTake => exact .set hpc .allocTake

theorem exec_sched (hu : exec s = some u) :
    (∃ p, (s.pc s.ct).afterYield = some p ∧ u = sigsend (s.goto p)) ∨ u.sched = s.sched := by
  cases exec_executes hu with
  | yield hpc h => exact .inl ⟨_, by rw [hpc, h.afterYield], rfl⟩
  | _ => exact .inr rfl

structure Steady (s u : Sys n) : Prop where
  ct : u.ct = s.ct
  handlers : u.handlers = s.handlers
  ticks : u.ticks = s.ticks
  pc : ∃ p, u.pc = update s.pc s.ct p

theorem exec_steady (hu : exec s = some u) : Steady s u := by
  cases exec_executes hu with
  | exit => exact ⟨rfl, rfl, rfl, s.pc s.ct, (update_eq_self _ _).symm⟩
  | _ => exact ⟨rfl, rfl, rfl, _, rfl⟩

theorem Steady.pc_ne (h : Steady s u) {t : Fin n} (ht : t ≠ s.ct) : u.pc t = s.pc t := by
  obtain ⟨p, hp⟩ := h.pc
  rw [hp, update_of_ne ht]

theorem switchTo_eq (c : Fin n) :
    switchTo c s = { s.setThread c { s.thread c with state := .running } with
      ct := c, sched := none, handlers := update s.handlers c (s.handlers c + 1), pending := true,
      alarmEnd := s.ticks + uthreadQuanta } := by
  rw [switchTo, alarm_quanta]
  rfl

theorem chooseNextThread_cases {P : Sys n → Prop} (k : Nat) {r : Sys n}
    (hr : s.setThread (s.currLoc k) (wakeUp s.ticks (s.thread (s.currLoc k))) = r)
    (hswitch : ∀ c, (r.thread c).state = .ready ∨ (r.thread c).state = .running → P (switchTo c r))
    (hpass : ∀ j, P { r with sched := some j }) : P (chooseNextThread k s) := by
  unfold chooseNextThread
  dsimp only
  rw [hr]
  split
  · exact hswitch _ (.inl (by assumption))
  · split
    · exact hpass _
    · split
      · exact hswitch _ (.inr (by assumption))
      · exact hpass _

/-! ## The scheduler changes states only -/

def Shifted (x y : Thread) : Prop :=
  y = { x with state := y.state } ∧
    (y.state = x.state ∨ x.state ≠ .blocked ∧ x.state ≠ .terminated ∧ y.state ≠ .blocked ∧ y.state ≠ .terminated)

namespace Shifted

variable {x y z : Thread}

theorem refl (x : Thread) : Shifted x x := ⟨rfl, .inl rfl⟩

variable (h : Shifted x y)
include h

theorem trans (h' : Shifted y z) : Shifted x z := by
  obtain ⟨hy, hstate⟩ := h
  obtain ⟨hz, hstate'⟩ := h'
  refine ⟨by rw [hz, hy], ?_⟩
  rcases hstate with h1 | ⟨h1, h2, h3, h4⟩
  · rwa [← h1]
  · rcases hstate' with h5 | ⟨-, -, h7, h8⟩
    · exact .inr ⟨h1, h2, h5 ▸ h3, h5 ▸ h4⟩
    · exact .inr ⟨h1, h2, h7, h8⟩

theorem tid : y.tid = x.tid := by rw [h.1]

theorem joinOnTid : y.joinOnTid = x.joinOnTid := by rw [h.1]

theorem blockedOnSemaphore : y.blockedOnSemaphore = x.blockedOnSemaphore := by rw [h.1]

theorem blocked_iff : y.state = .blocked ↔ x.state = .blocked := by
  rcases h.2 with h | ⟨h1, -, h3, -⟩
  · rw [h]
  · exact iff_of_false h3 h1

theorem terminated_iff : y.state = .terminated ↔ x.state = .terminated := by
  rcases h.2 with h | ⟨-, h2, -, h4⟩
  · rw [h]
  · exact iff_of_false h4 h2

end Shifted

theorem setThread_shifted {i : Fin n} {x : Thread} (h : Shifted (s.thread i) x) (t : Fin n) :
    Shifted (s.thread t) ((s.setThread i x).thread t) := by
  rcases eq_or_ne t i with rfl | ht
  · rwa [Sys.setThread_thread_self]
  · rw [Sys.setThread_thread_ne ht]
    exact .refl _

theorem deliver_shifted (t : Fin n) : Shifted (s.thread t) ((deliver s).thread t) := by
  refine setThread_shifted (s := s) ⟨rfl, ?_⟩ t
  by_cases h : s.self.state = .running
  · right
    simp [h, show (s.thread s.ct).state = .running from h]
  · left
    rw [if_neg h]
    rfl

theorem wakeUp_shifted (ticks : Word) (x : Thread) : Shifted x (wakeUp ticks x) := by
  unfold wakeUp
  split
  · rename_i h
    exact ⟨rfl, .inr (by simp [h.1])⟩
  · exact .refl x

structure Rescheduled (s u : Sys n) : Prop where
  pc : u.pc = s.pc
  semaphores : u.lib.semaphores = s.lib.semaphores
  held : u.held = s.held
  ups : u.ups = s.ups
  ticks : u.ticks = s.ticks
  exited : u.exited = s.exited
  shifted : ∀ t, Shifted (s.thread t) (u.thread t)

theorem chooseNextThread_rescheduled (k : Nat) : Rescheduled s (chooseNextThread k s) := by
  have hwake := setThread_shifted (wakeUp_shifted s.ticks (s.thread (s.currLoc k)))
  refine chooseNextThread_cases k rfl (fun c hc => ?_) fun j => ⟨rfl, rfl, rfl, rfl, rfl, rfl, hwake⟩
  rw [switchTo_eq]
  refine ⟨rfl, rfl, rfl, rfl, rfl, rfl, fun t => (hwake t).trans (setThread_shifted ⟨rfl, .inr ?_⟩ t)⟩
  rcases hc with h | h <;> simp [h]

end Xv6.Uthread
