import Xv6.Uthread.Coherent

/-!
# What a step can change

A statement changes the entry of the current thread, or of a thread that it releases.
-/

namespace Xv6.Uthread

variable {n : Nat} {s u : Sys n}

/-! ## Statements -/

inductive Released (s : Sys n) (t : Fin n) : Thread → Prop where
  | kept : Released s t (s.thread t)
  | upClear {x : Sem} (hpc : s.pc s.ct = .upClear x t) : Released s t { s.thread t with blockedOnSemaphore := none }
  | upReady {x : Sem} (hpc : s.pc s.ct = .upReady x t) : Released s t { s.thread t with state := .ready }
  | exitClear (hpc : s.pc s.ct = .exitClear t) : Released s t { s.thread t with joinOnTid := none }
  | exitReady (hpc : s.pc s.ct = .exitReady t) : Released s t { s.thread t with state := .ready }

theorem deliver_thread_ne {t : Fin n} (ht : t ≠ s.ct) : (deliver s).thread t = s.thread t :=
  Sys.setThread_thread_ne ht _

inductive Becomes (s : Sys n) (t : Fin n) : Thread → Prop where
  | kept : Becomes s t (s.thread t)
  | yield {x : Thread} (h : Shifted (s.thread t) x) : Becomes s t x
  | write {q p : Pc n} {x : Thread} (ht : t = s.ct) (hpc : s.pc s.ct = q) (h : Writes s q p x) : Becomes s t x
  | wake {q p : Pc n} {x : Thread} (hpc : s.pc s.ct = q) (h : Wakes s t q p x) : Becomes s t x

section

variable (hu : exec s = some u)
include hu

theorem exec_becomes (t : Fin n) : Becomes s t (u.thread t) := by
  cases exec_executes hu with
  | write hpc hwrite =>
    rcases eq_or_ne t s.ct with rfl | ht
    · rw [Sys.setThread_thread_self]
      exact .write rfl hpc hwrite
    · rw [Sys.setThread_thread_ne ht]
      exact .kept
  | @wake q p i x hpc hwake =>
    rcases eq_or_ne t i with rfl | ht
    · rw [Sys.setThread_thread_self]
      exact .wake hpc hwake
    · rw [Sys.setThread_thread_ne ht]
      exact .kept
  | @yield q p => exact .yield (deliver_shifted (s := { s.goto p with pending := true, alarmEnd := 0 }) t)
  | _ => exact .kept

theorem exec_other {t : Fin n} (ht : t ≠ s.ct) :
    u.pc t = s.pc t ∧ Released s t (u.thread t) := by
  refine ⟨(exec_steady hu).pc_ne ht, ?_⟩
  cases exec_executes hu with
  | write =>
    rw [Sys.setThread_thread_ne ht]
    exact .kept
  | @wake q p i x hpc hwake =>
    rcases eq_or_ne t i with rfl | hne
    · rw [Sys.setThread_thread_self]
      cases hwake with
      | upClear => exact .upClear hpc
      | upReady => exact .upReady hpc
      | exitClear => exact .exitClear hpc
      | exitReady => exact .exitReady hpc
    · rw [Sys.setThread_thread_ne hne]
      exact .kept
  | @yield q p =>
    rw [sigsend, deliver_thread_ne (s := { s.goto p with pending := true, alarmEnd := 0 }) ht]
    exact .kept
  | _ => exact .kept

theorem exec_tid_joinOnTid (t : Fin n) :
    (u.thread t).tid = (s.thread t).tid ∧ ((u.thread t).joinOnTid = (s.thread t).joinOnTid ∨
      (t = s.ct ∧ ∃ i, s.pc s.ct = .joinMark i) ∨ s.pc s.ct = .exitClear t) := by
  have h := exec_becomes hu t
  generalize u.thread t = x at h ⊢
  cases h with
  | kept => exact ⟨rfl, .inl rfl⟩
  | yield h => exact ⟨h.tid, .inl h.joinOnTid⟩
  | write ht hpc h =>
    subst ht
    cases h with
    | joinMark => exact ⟨rfl, .inr (.inl ⟨rfl, _, hpc⟩)⟩
    | _ => exact ⟨rfl, .inl rfl⟩
  | wake hpc h =>
    cases h with
    | exitClear => exact ⟨rfl, .inr (.inr hpc)⟩
    | _ => exact ⟨rfl, .inl rfl⟩

theorem exec_semaphores (x : Sem) :
    u.lib.semaphores x = s.lib.semaphores x ∨ u.lib.semaphores x ≠ -1 ∧
      (s.pc s.ct = .downTake x ∨ s.pc s.ct = .upOpen x ∨ s.pc s.ct = .allocTake x) := by
  cases exec_executes hu with
  | @set q p y v hpc hset =>
    rcases eq_or_ne x y with rfl | hne
    · right
      rw [Sys.setSem, setSem_self]
      cases hset with
      | downTake => exact ⟨by decide, .inl hpc⟩
      | upOpen => exact ⟨by decide, .inr (.inl hpc)⟩
      | allocTake => exact ⟨by decide, .inr (.inr hpc)⟩
    · exact .inl (setSem_ne hne)
  | _ => exact .inl rfl

theorem exec_blockedOn {t : Fin n} {y : Sem} (ht : (u.thread t).blockedOnSemaphore = some y) :
    (s.thread t).blockedOnSemaphore = some y ∨ s.pc s.ct = .downMark y := by
  have h := exec_becomes hu t
  generalize u.thread t = x at h ht
  cases h with
  | kept => exact .inl ht
  | yield h => exact .inl (h.blockedOnSemaphore ▸ ht)
  | write hct hpc h =>
    subst hct
    cases h with
    | downMark =>
      cases ht
      exact .inr hpc
    | _ => exact .inl ht
  | wake hpc h =>
    cases h with
    | upClear => cases ht
    | _ => exact .inl ht

end

/-! ## Threads that have not ended -/

def Sys.alive (s : Sys n) (t : Fin n) : Prop := (s.thread t).state ≠ .terminated

instance (s : Sys n) (t : Fin n) : Decidable (s.alive t) := inferInstanceAs (Decidable (_ ≠ _))

theorem Shifted.alive_iff {t : Fin n} (h : Shifted (s.thread t) (u.thread t)) : u.alive t ↔ s.alive t :=
  not_congr h.terminated_iff

theorem Coherent.alive_of_active (hc : Coherent s) {t : Fin n} (h : (s.pc t).active = true) : s.alive t :=
  (hc.fits t).alive h

theorem exec_alive (hc : Coherent s) (hu : exec s = some u) (hpc : s.pc s.ct ≠ .exitState) (t : Fin n) :
    u.alive t ↔ s.alive t := by
  have h := exec_becomes hu t
  unfold Sys.alive
  generalize u.thread t = x at h ⊢
  cases h with
  | kept => exact Iff.rfl
  | yield h => exact not_congr h.terminated_iff
  | write ht hq h =>
    subst ht
    cases h with
    | exitState => exact absurd hq hpc
    | downMark | sleepTime | joinMark => exact Iff.rfl
    | downBlock | sleepState | joinBlock => exact iff_of_true nofun (hc.alive_of_active (by rw [hq]; rfl))
  | wake hq h =>
    cases h with
    | upClear | exitClear => exact Iff.rfl
    | upReady => exact iff_of_true nofun (by rw [(hc.releasing hq).2.2]; nofun)
    | exitReady => exact iff_of_true nofun (hc.alive_of_active (hc.releasing hq).2.active)

end Xv6.Uthread
