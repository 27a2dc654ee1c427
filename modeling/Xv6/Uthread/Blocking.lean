import Xv6.Uthread.Exit
import Xv6.Signal.Frame

/-!
# Blocking calls among other signals

A thread gives up the processor by sending itself `SIGALRM`, but the kernel handles only the lowest signal that is lit.
-/

open Function Xv6.Run

namespace Xv6.Uthread

/-- The handlers of the other signals. A user handler returns through `sigreturn`. -/
inductive Handler where
  | default
  | user
deriving DecidableEq

structure Host (n : Nat) where
  sys : Sys n
  /-- The bits of `pending` other than bit 14. -/
  others : Fin 32 → Bool
  signals : Fin 32 → Handler
  frames : Fin n → List (Fin 32)
  /-- The thread has called `sigsend` and has not been resumed since. -/
  waiting : Fin n → Bool
  /-- Between `getpid()` and `sigsend`, whether `eax` still holds the process number. -/
  pid : Fin n → Option Bool

inductive HostAct where
  | base (a : Act)
  | finish
  /-- A process sends a signal other than `SIGALRM`. -/
  | arrive (i : Fin 32)
deriving DecidableEq

variable {n : Nat}

/-- Statements that call `alarm` or `uptime`. -/
def Pc.traps : Pc n → Bool
  | downDisable _ | downEnable _ | upDisable _ | upEnable _ | sleepTime _ => true
  | _ => false

namespace Host

def lit (s : Host n) (i : Fin 32) : Bool := if i = Signal.sigalrm then s.sys.lit else s.others i

def nextSignal (s : Host n) : Option (Fin 32) := (List.finRange 32).find? s.lit

/-- The thread will be resumed by `sigreturn`, with 0 in `eax`. -/
def loseEax (s : Host n) : Fin n → Option Bool := update s.pid s.sys.ct ((s.pid s.sys.ct).map fun _ => false)

def handleSignal (s : Host n) : Host n :=
  match s.nextSignal with
  | none => s
  | some i =>
    if i = Signal.sigalrm then { s with sys := deliver s.sys, pid := s.loseEax }
    else
      let s := { s with others := update s.others i false }
      match s.signals i with
      | .default => s
      | .user => { s with frames := update s.frames s.sys.ct (i :: s.frames s.sys.ct), pid := s.loseEax }

/-- What the kernel does on its next return to the thread leaves `eax` alone. -/
def NoHandler (s : Host n) : Prop := ∀ i, s.nextSignal = some i → i ≠ Signal.sigalrm ∧ s.signals i = .default

instance (s : Host n) : Decidable s.NoHandler := inferInstanceAs (Decidable (∀ _ : Fin 32, _))

def getpid (s : Host n) : Host n := { s with pid := update s.pid s.sys.ct (some true) }

/-- A signal for process 0 does nothing to this one. -/
def sigsend (s : Host n) (own : Bool) (p : Pc n) : Host n :=
  { s with
    sys := if own then { s.sys.goto p with pending := true, alarmEnd := 0 } else s.sys.goto p
    waiting := update s.waiting s.sys.ct true
    pid := update s.pid s.sys.ct none }

/-- `uptime` returns in `eax`, too. -/
def exec (s : Host n) : Option (Sys n) :=
  match s.sys.pc s.sys.ct with
  | .sleepTime _ =>
    if s.NoHandler then Uthread.exec s.sys
    else (Uthread.exec { s.sys with ticks := 0 }).map fun u => { u with ticks := s.sys.ticks }
  | _ => Uthread.exec s.sys

def inUser (s : Host n) : Bool := !s.sys.exited && s.sys.sched.isNone

def inOwn (s : Host n) : Prop := s.sys.sched = none ∧ s.sys.handlers s.sys.ct = 0 ∧ s.frames s.sys.ct = []

instance (s : Host n) : Decidable s.inOwn := inferInstanceAs (Decidable (_ ∧ _))

def resume (s : Host n) (u : Sys n) : Host n :=
  { s with sys := u, waiting := if u.sched = none then update s.waiting u.ct false else s.waiting }

/-- Every system call ends in `handleSignal`: `alarm`, `uptime`, `getpid`, `sigsend` and `sigreturn`. -/
def step (s : Host n) : HostAct → Option (Host n)
  | .base .tick => (Uthread.step s.sys .tick).map fun u => { s with sys := u }
  | .base .scan =>
    (Uthread.step s.sys .scan).map fun u => if u.sched = none then (s.resume u).handleSignal else s.resume u
  | .base .preempt => if s.inUser then some s.handleSignal else none
  | .base (.call c) =>
    if s.frames s.sys.ct = [] then (Uthread.step s.sys (.call c)).map fun u => { s with sys := u } else none
  | .base .stmt =>
    if s.inUser ∧ s.inOwn then
      match (s.sys.pc s.sys.ct).afterYield, s.pid s.sys.ct with
      | some _, none => some s.getpid.handleSignal
      | some p, some own => some (s.sigsend own p).handleSignal
      | none, _ =>
        s.exec.map fun u => if (s.sys.pc s.sys.ct).traps then handleSignal { s with sys := u } else { s with sys := u }
    else if s.sys.handlers s.sys.ct = 0 then none
    else (Uthread.step s.sys .stmt).map fun u => handleSignal { s with sys := u }
  | .finish =>
    match s.frames s.sys.ct with
    | [] => none
    | _ :: fs =>
      if s.inUser then some (handleSignal { s with frames := update s.frames s.sys.ct fs }) else none
  | .arrive i => if i = Signal.sigalrm then none else some { s with others := update s.others i true }

def Clear (s : Host n) : Prop := ∀ i < Signal.sigalrm, s.others i = true → s.signals i = .user

instance (s : Host n) : Decidable s.Clear := inferInstanceAs (Decidable (∀ _ : Fin 32, _))

/-- No handler runs between `getpid()` and `sigsend`. What is lit at the `sigsend`, and what comes until the thread has
given up the processor, does not take the place of the alarm. -/
def ClearToYield (s : Host n) : HostAct → Prop
  | .base .stmt =>
    s.inOwn → (s.sys.pc s.sys.ct).yields = true → if s.pid s.sys.ct = none then s.NoHandler else s.Clear
  | .base .preempt => s.pid s.sys.ct ≠ none → s.NoHandler
  | .arrive i => s.sys.sched = none → s.waiting s.sys.ct = true → i < Signal.sigalrm → s.signals i = .user
  | _ => True

instance (s : Host n) : DecidablePred s.ClearToYield
  | .base .stmt => inferInstanceAs (Decidable (_ → _ → _))
  | .base .preempt => inferInstanceAs (Decidable (_ → _))
  | .arrive _ => inferInstanceAs (Decidable (_ → _ → _ → _))
  | .finish | .base (.call _) | .base .scan | .base .tick => .isTrue trivial

def Switches (s : Host n) : Prop :=
  s.inOwn → s.waiting s.sys.ct = false ∧ (s.sys.self.state = .running ∨ (s.sys.pc s.sys.ct).yields = true) ∧
    s.sys.pc s.sys.ct ≠ .exitWait

end Host

structure Host.Sound (s : Host n) : Prop where
  coherent : Coherent s.sys
  own : s.waiting s.sys.ct = false → Running s.sys
  alarm : s.sys.sched = none → s.waiting s.sys.ct = true →
    s.frames s.sys.ct ≠ [] ∧ s.sys.pending = true ∧ s.sys.alarmEnd = 0 ∧ s.Clear
  gone : ∀ t, s.sys.pc t = .exitYield ∨ s.sys.pc t = .exitWait → (s.sys.thread t).state = .terminated
  fresh : ∀ t, s.pid t ≠ none → s.inOwn ∧ t = s.sys.ct ∧ (s.sys.pc t).yields = true ∧ s.pid t = some true

namespace Host

variable {s v : Host n}

theorem lit_sigalrm (hpending : s.sys.pending = true) (hend : s.sys.alarmEnd = 0) : s.lit Signal.sigalrm = true := by
  rw [lit, if_pos rfl, Sys.lit, hpending, hend]
  simp [BitVec.ult_eq_decide]

theorem nextSignal_le {i : Fin 32} (h : s.nextSignal = some i) {j : Fin 32} (hj : s.lit j = true) : i ≤ j := by
  by_contra hlt
  obtain ⟨-, as, bs, hsplit, hbefore⟩ := List.find?_eq_some_iff_append.mp h
  have hmem : j ∈ as := by
    have hj' : j ∈ as ++ i :: bs := hsplit ▸ List.mem_finRange j
    rcases List.mem_append.mp hj' with hj' | hj'
    · exact hj'
    · have hsorted : (as ++ i :: bs).Pairwise (· < ·) := hsplit ▸ List.pairwise_lt_finRange 32
      have htail := (List.pairwise_cons.mp (List.pairwise_append.mp hsorted).2.1).1
      rcases List.mem_cons.mp hj' with rfl | hj'
      · exact absurd le_rfl hlt
      · exact absurd (htail j hj').le hlt
  have hno := hbefore j hmem
  rw [hj] at hno
  cases hno

theorem lit_of_nextSignal {i : Fin 32} (h : s.nextSignal = some i) : s.lit i = true := List.find?_some h

end Host

namespace Host.Sound

variable {s v : Host n} {u : Sys n}

theorem handleSignal (hcoherent : Coherent s.sys) (hown : s.waiting s.sys.ct = false → Running s.sys)
    (halarm : s.waiting s.sys.ct = true → s.sys.pending = true ∧ s.sys.alarmEnd = 0 ∧ s.Clear)
    (hgone : ∀ t, s.sys.pc t = .exitYield ∨ s.sys.pc t = .exitWait → (s.sys.thread t).state = .terminated)
    (hfresh : ∀ t, s.pid t ≠ none →
      s.inOwn ∧ t = s.sys.ct ∧ (s.sys.pc t).yields = true ∧ s.pid t = some true ∧ s.NoHandler) :
    s.handleSignal.Sound := by
  have hlit : s.waiting s.sys.ct = true → s.lit Signal.sigalrm = true := fun hw =>
    lit_sigalrm (halarm hw).1 (halarm hw).2.1
  -- if a handler runs, no thread is between `getpid` and `sigsend`
  have hlose : ¬ s.NoHandler → ∀ t, s.loseEax t = none := fun hno t => by
    have hnone : ∀ t, s.pid t = none := fun t => by
      by_contra ht
      exact hno (hfresh t ht).2.2.2.2
    unfold Host.loseEax
    rcases eq_or_ne t s.sys.ct with rfl | hne
    · rw [update_self, hnone, Option.map_none]
    · rw [update_of_ne hne, hnone]
  unfold Host.handleSignal
  cases hsignal : s.nextSignal with
  | none =>
    have hnot : s.waiting s.sys.ct = false := by
      by_contra hw
      have hnone := List.find?_eq_none.mp hsignal Signal.sigalrm (List.mem_finRange _)
      exact hnone (hlit (Bool.eq_true_of_not_eq_false hw))
    refine ⟨hcoherent, hown, fun _ hw => ?_, hgone, fun t ht => ?_⟩
    · cases hnot.symm.trans hw
    · exact ⟨(hfresh t ht).1, (hfresh t ht).2.1, (hfresh t ht).2.2.1, (hfresh t ht).2.2.2.1⟩
  | some i =>
    dsimp only
    split
    · subst i
      have hlit := lit_of_nextSignal hsignal
      rw [Host.lit, if_pos rfl, Sys.lit, Bool.and_eq_true] at hlit
      refine ⟨hcoherent.deliver (hcoherent.no_critical (.inr hlit.1)), fun _ hs => (by cases hs),
        fun hs => (by cases hs), fun t ht => ?_, fun t ht => absurd (hlose (fun hno => ?_) t) ht⟩
      · exact (deliver_shifted t).terminated_iff.mpr (hgone t ht)
      · exact (hno _ hsignal).1 rfl
    · rename_i hne
      have hclear : s.Clear → ∀ j < Signal.sigalrm, update s.others i false j = true → s.signals j = .user :=
        fun hc j hj hb => hc j hj (by
          rcases eq_or_ne j i with rfl | hji
          · rw [update_self] at hb
            cases hb
          · rwa [update_of_ne hji] at hb)
      split
      · rename_i hdefault
        have hnot : s.waiting s.sys.ct = false := by
          by_contra hw
          replace hw := Bool.eq_true_of_not_eq_false hw
          have hlt : i < Signal.sigalrm := lt_of_le_of_ne (nextSignal_le hsignal (hlit hw)) hne
          have hbit := lit_of_nextSignal hsignal
          rw [Host.lit, if_neg hne] at hbit
          have huser := (halarm hw).2.2 i hlt hbit
          cases huser.symm.trans hdefault
        refine ⟨hcoherent, hown, fun _ hw => ?_, hgone, fun t ht => ?_⟩
        · cases hnot.symm.trans hw
        · exact ⟨(hfresh t ht).1, (hfresh t ht).2.1, (hfresh t ht).2.2.1, (hfresh t ht).2.2.2.1⟩
      · rename_i huser
        refine ⟨hcoherent, hown, fun _ hw => ⟨?_, (halarm hw).1, (halarm hw).2.1, hclear (halarm hw).2.2⟩, hgone,
          fun t ht => absurd (hlose (fun hno => ?_) t) ht⟩
        · dsimp only
          simp
        · cases huser.symm.trans (hno _ hsignal).2

end Host.Sound

theorem Host.of_inUser {s : Host n} (h : s.inUser = true) : s.sys.exited = false ∧ s.sys.sched = none := by
  simpa [Host.inUser, Option.isNone_iff_eq_none] using h

theorem exec_gone {s u : Sys n} (hc : Coherent s) (hu : exec s = some u) (hy : (s.pc s.ct).afterYield = none)
    (hgone : ∀ t, s.pc t = .exitYield ∨ s.pc t = .exitWait → (s.thread t).state = .terminated) (t : Fin n)
    (ht : u.pc t = .exitYield ∨ u.pc t = .exitWait) : (u.thread t).state = .terminated := by
  rcases eq_or_ne t s.ct with rfl | hne
  · have hnot {p : Pc n} (hpc : u.pc = update s.pc s.ct p) (h1 : p ≠ .exitYield) (h2 : p ≠ .exitWait) :
        (u.thread s.ct).state = .terminated := by
      rw [hpc, update_self] at ht
      exact (ht.elim h1 h2).elim
    cases exec_executes hu with
    | look hpc h | set hpc h => cases h <;> exact hnot rfl nofun nofun
    | wake hpc h => cases h <;> exact hnot rfl nofun nofun
    | write hpc h =>
      cases h with
      | exitState => rw [Sys.setThread_thread_self]
      | _ => exact hnot rfl nofun nofun
    | yield hpc h =>
      rw [hpc, h.afterYield] at hy
      cases hy
    | exit hpc =>
      rw [show ({ s with exited := true } : Sys n).pc s.ct = s.pc s.ct from rfl, hpc] at ht
      rcases ht with ht | ht <;> cases ht
    | freed | granted | downEnable | upEnable | downDisable | upDisable => exact hnot rfl nofun nofun
  · obtain ⟨hpc, hr⟩ := exec_other hu hne
    rw [hpc] at ht
    have hstate := hgone t ht
    by_contra hdead
    by_cases hat : s.pc s.ct = .exitState
    · generalize u.thread t = x at hr hdead
      cases hr with
      | kept => exact hdead hstate
      | upClear h | upReady h | exitClear h | exitReady h => cases hat.symm.trans h
    · exact (exec_alive hc hu hat t).mp hdead hstate

theorem yields_of_afterYield {p q : Pc n} (h : p.afterYield = some q) : p.yields = true := by
  cases p <;> first | rfl | cases h

theorem afterYield_of_yields {p : Pc n} (h : p.yields = true) : p.afterYield ≠ none := by
  cases p <;> cases h <;> nofun

namespace Host.Sound

variable {s v : Host n} {u : Sys n}

variable (h : s.Sound)
include h

theorem running (hframes : s.frames s.sys.ct = []) : Running s.sys := by
  intro hsched
  have hnot : s.waiting s.sys.ct = false := by
    by_contra hw
    exact (h.alarm hsched (Bool.eq_true_of_not_eq_false hw)).1 hframes
  exact h.own hnot hsched

theorem not_waiting (hsched : s.sys.sched = none) (hframes : s.frames s.sys.ct = []) :
    s.waiting s.sys.ct = false := by
  by_contra hw
  exact (h.alarm hsched (Bool.eq_true_of_not_eq_false hw)).1 hframes

theorem handled (hsched : s.sys.sched = none) (hno : s.pid s.sys.ct ≠ none → s.NoHandler) : s.handleSignal.Sound := by
  refine handleSignal h.coherent h.own (fun hw => (h.alarm hsched hw).2) h.gone fun t ht => ?_
  obtain ⟨hin, rfl, hy, hpid⟩ := h.fresh t ht
  exact ⟨hin, rfl, hy, hpid, hno ht⟩

theorem pid_none (hnot : ¬ s.inOwn ∨ (s.sys.pc s.sys.ct).yields = false) (t : Fin n) : s.pid t = none := by
  by_contra ht
  obtain ⟨hin, rfl, hy, -⟩ := h.fresh t ht
  rcases hnot with hnot | hnot
  · exact hnot hin
  · cases hy.symm.trans hnot

theorem getpid (hin : s.inOwn) (hy : (s.sys.pc s.sys.ct).yields = true) (hno : s.NoHandler) :
    s.getpid.handleSignal.Sound := by
  refine handleSignal h.coherent h.own (fun hw => (h.alarm hin.1 hw).2) h.gone fun t ht => ?_
  rcases eq_or_ne t s.sys.ct with rfl | hne
  · exact ⟨hin, rfl, hy, update_self _ _ _, hno⟩
  · have hsame : s.getpid.pid t = s.pid t := update_of_ne hne _ _
    exact absurd (h.fresh t (hsame ▸ ht)).2.1 hne

theorem sigsend {p : Pc n} (hp : (s.sys.pc s.sys.ct).afterYield = some p) (hclear : s.Clear) :
    (s.sigsend true p).handleSignal.Sound := by
  have hself : (s.sigsend true p).waiting s.sys.ct = true := update_self _ _ _
  refine handleSignal (h.coherent.afterYield hp) (fun hw => ?_) (fun _ => ⟨rfl, rfl, hclear⟩) (fun t ht => ?_)
    fun t ht => absurd ?_ ht
  · cases hself.symm.trans hw
  · refine h.gone t ?_
    rcases eq_or_ne t s.sys.ct with rfl | hne
    · have hto : p = .exitYield ∨ p = .exitWait := by rwa [← s.sys.goto_pc_self p]
      cases hpc : s.sys.pc s.sys.ct <;> rw [hpc] at hp <;> cases hp <;> simp at hto ⊢
    · have hsame : (s.sigsend true p).sys.pc t = s.sys.pc t := Sys.goto_pc_ne hne p
      rwa [hsame] at ht
  · rcases eq_or_ne t s.sys.ct with rfl | hne
    · exact update_self _ _ _
    · refine (update_of_ne hne _ _).trans ?_
      by_contra ht'
      exact hne (h.fresh t ht').2.1

theorem congr (hlib : u.lib.threadTable = s.sys.lib.threadTable) (hct : u.ct = s.sys.ct)
    (hpc : u.pc = s.sys.pc) (hsched : u.sched = s.sys.sched) (hpending : u.pending = s.sys.pending)
    (hend : u.alarmEnd = s.sys.alarmEnd) (hhandlers : (∀ t, s.pid t = none) ∨ u.handlers = s.sys.handlers) :
    Sound { s with sys := u } := by
  have hthread : ∀ t, u.thread t = s.sys.thread t := fun t => congrFun hlib t
  refine ⟨h.coherent.congr hlib hct hpc hsched hpending, fun hw hs => ?_, fun hs hw => ?_, fun t ht => ?_,
    fun t ht => ?_⟩
  · dsimp only at hw hs ⊢
    rw [hct] at hw
    rw [Sys.self, hct, hthread, hpc]
    exact h.own hw (hsched ▸ hs)
  · dsimp only at hw hs ⊢
    rw [hct] at hw ⊢
    rw [hpending, hend]
    exact h.alarm (hsched ▸ hs) hw
  · dsimp only at ht ⊢
    rw [hthread]
    rw [hpc] at ht
    exact h.gone t ht
  · have hsame := hhandlers.resolve_left fun hnone => ht (hnone t)
    unfold Host.inOwn
    dsimp only at ht ⊢
    rw [hct, hpc, hsched, hsame]
    exact h.fresh t ht

theorem exec (hsched : s.sys.sched = none) (hframes : s.frames s.sys.ct = [])
    (hy : (s.sys.pc s.sys.ct).afterYield = none) (hu : Uthread.exec s.sys = some u) :
    Sound { s with sys := u } ∧ u.sched = none := by
  have hrun := h.running hframes
  have hct := (exec_steady hu).ct
  have hpid := h.pid_none (.inr (Bool.eq_false_iff.mpr fun hyields => afterYield_of_yields hyields hy))
  have hs := (exec_sched hu).resolve_left fun ⟨p, hp, _⟩ => by cases hy.symm.trans hp
  refine ⟨⟨h.coherent.exec hrun hsched hu, fun _ => hrun.exec h.coherent hsched hu, fun _ hw => ?_,
    exec_gone h.coherent hu hy h.gone, fun t ht => absurd (hpid t) ht⟩, hs.trans hsched⟩
  dsimp only at hw
  rw [hct, h.not_waiting hsched hframes] at hw
  cases hw

theorem hostExec (hsched : s.sys.sched = none) (hframes : s.frames s.sys.ct = [])
    (hy : (s.sys.pc s.sys.ct).afterYield = none) (hu : s.exec = some u) :
    Sound { s with sys := u } ∧ u.sched = none := by
  unfold Host.exec at hu
  split at hu
  · split at hu
    · exact h.exec hsched hframes hy hu
    · -- as if no time had passed
      obtain ⟨v, hv, rfl⟩ := Option.map_eq_some_iff.mp hu
      have hzero : Sound { s with sys := { s.sys with ticks := 0 } } :=
        h.congr rfl rfl rfl rfl rfl rfl (.inr rfl)
      obtain ⟨hsound, hs⟩ := hzero.exec hsched hframes hy hv
      exact ⟨hsound.congr rfl rfl rfl rfl rfl rfl (.inr rfl), hs⟩
  · exact h.exec hsched hframes hy hu

theorem resume {i : Nat} (hsched : s.sys.sched = some i) :
    (s.resume (chooseNextThread i s.sys)).Sound := by
  have hnone := h.coherent.no_critical (.inl (by rw [hsched]; nofun))
  have hpid := h.pid_none (.inl fun hin => by cases hsched.symm.trans hin.1)
  refine ⟨h.coherent.chooseNextThread hnone i, fun _ => chooseNextThread_running i, fun hs hw => ?_, fun t ht => ?_,
    fun t ht => absurd (hpid t) ht⟩
  · have hself : (s.resume (chooseNextThread i s.sys)).waiting (chooseNextThread i s.sys).ct = false := by
      unfold Host.resume at hs ⊢
      dsimp only at hs ⊢
      rw [if_pos hs]
      exact update_self _ _ _
    cases hself.symm.trans hw
  · change (chooseNextThread i s.sys).pc t = _ ∨ (chooseNextThread i s.sys).pc t = _ at ht
    rw [(chooseNextThread_rescheduled i).pc] at ht
    exact ((chooseNextThread_rescheduled i).shifted t).terminated_iff.mpr (h.gone t ht)

theorem call (hsched : s.sys.sched = none) (hframes : s.frames s.sys.ct = [])
    (hpc : s.sys.pc s.sys.ct = .idle) (c : Call) : Sound { s with sys := call s.sys c } := by
  obtain ⟨hcoherent, hrun⟩ := h.coherent.call (h.running hframes) hsched hpc c
  have hct : (Uthread.call s.sys c).ct = s.sys.ct := by cases c <;> rfl
  have hpid := h.pid_none (.inr (by rw [hpc]; rfl))
  refine ⟨hcoherent, fun _ => hrun, fun _ hw => ?_, fun t ht => ?_, fun t ht => absurd (hpid t) ht⟩
  · dsimp only at hw
    rw [hct, h.not_waiting hsched hframes] at hw
    cases hw
  · have hthread : (Uthread.call s.sys c).thread t = s.sys.thread t := by cases c <;> rfl
    dsimp only at ht ⊢
    rw [hthread]
    refine h.gone t ?_
    rcases eq_or_ne t s.sys.ct with rfl | hne
    · cases c <;> simp [Uthread.call, Sys.goto] at ht
    · have hsame : (Uthread.call s.sys c).pc t = s.sys.pc t := by cases c <;> exact Sys.goto_pc_ne hne _
      rwa [hsame] at ht

theorem stmt (hok : s.ClearToYield (.base .stmt)) (hv : s.step (.base .stmt) = some v) : v.Sound := by
  simp only [Host.step] at hv
  split at hv
  · rename_i hat
    obtain ⟨hsched, hhandlers, hframes⟩ := hat.2
    split at hv
    · rename_i p hp hpid
      cases hv
      have hy := yields_of_afterYield hp
      have hno := hok hat.2 hy
      rw [if_pos hpid] at hno
      exact h.getpid hat.2 hy hno
    · rename_i p own hp hpid
      cases hv
      have hpid' : s.pid s.sys.ct ≠ none := by rw [hpid]; nofun
      have hclear := hok hat.2 (yields_of_afterYield hp)
      rw [if_neg hpid'] at hclear
      cases hpid.symm.trans (h.fresh _ hpid').2.2.2
      exact h.sigsend hp hclear
    · rename_i hy
      obtain ⟨u, hu, rfl⟩ := Option.map_eq_some_iff.mp hv
      obtain ⟨hsound, hs⟩ := h.hostExec hsched hframes hy hu
      have hpid := h.pid_none (.inr (Bool.eq_false_iff.mpr fun hyields => afterYield_of_yields hyields hy))
      split
      · exact hsound.handled hs fun ht => absurd (hpid _) ht
      · exact hsound
  · obtain ⟨hhandlers, hv⟩ := Option.ite_none_left_eq_some.mp hv
    obtain ⟨u, hu, rfl⟩ := Option.map_eq_some_iff.mp hv
    cases step_moves hu with
    | exec _ _ _ hzero => exact absurd hzero hhandlers
    | leave hsched =>
      have hpid := h.pid_none (.inl fun hin => hhandlers hin.2.1)
      exact handled (h.congr rfl rfl rfl rfl rfl rfl (.inl hpid)) hsched fun ht => absurd (hpid _) ht

theorem step {a : HostAct} (hok : s.ClearToYield a) (hv : s.step a = some v) : v.Sound := by
  cases a with
  | base a =>
    cases a with
    | tick =>
      obtain ⟨u, hu, rfl⟩ := Option.map_eq_some_iff.mp hv
      cases step_moves hu
      exact h.congr rfl rfl rfl rfl rfl rfl (.inr rfl)
    | scan =>
      obtain ⟨u, hu, rfl⟩ := Option.map_eq_some_iff.mp hv
      cases step_moves hu with
      | scan hsched =>
        have hpid := h.pid_none (.inl fun hin => by cases hsched.symm.trans hin.1)
        split
        · exact (h.resume hsched).handled (by assumption) fun ht => absurd (hpid _) ht
        · exact h.resume hsched
    | preempt =>
      obtain ⟨huser, ⟨⟩⟩ := Option.ite_none_right_eq_some.mp hv
      exact h.handled (of_inUser huser).2 hok
    | call c =>
      obtain ⟨hframes, hv⟩ := Option.ite_none_right_eq_some.mp hv
      obtain ⟨u, hu, rfl⟩ := Option.map_eq_some_iff.mp hv
      cases step_moves hu with
      | call hsched hpc => exact h.call hsched hframes hpc c
    | stmt => exact h.stmt hok hv
  | finish =>
    simp only [Host.step] at hv
    split at hv
    · cases hv
    · rename_i hframes
      obtain ⟨huser, ⟨⟩⟩ := Option.ite_none_right_eq_some.mp hv
      have hsched := (of_inUser huser).2
      have hpid := h.pid_none (.inl fun hin => by cases hframes.symm.trans hin.2.2)
      exact handleSignal h.coherent h.own (fun hw => (h.alarm hsched hw).2) h.gone fun t ht => absurd (hpid t) ht
  | arrive i =>
    obtain ⟨hne, ⟨⟩⟩ := Option.ite_none_left_eq_some.mp hv
    refine ⟨h.coherent, h.own, fun hsched hw => ?_, h.gone, h.fresh⟩
    obtain ⟨hframes, hpending, hend, hclear⟩ := h.alarm hsched hw
    refine ⟨hframes, hpending, hend, fun j hj hb => ?_⟩
    rcases eq_or_ne j i with rfl | hji
    · exact hok hsched hw hj
    · exact hclear j hj ((update_of_ne hji _ _).symm.trans hb)

theorem switches : s.Switches := by
  rintro ⟨hsched, -, hframes⟩
  have hrun := h.running hframes hsched
  refine ⟨h.not_waiting hsched hframes, hrun, fun hpc => ?_⟩
  have hgone : s.sys.self.state = .terminated := h.gone s.sys.ct (.inr hpc)
  rcases hrun with hrun | hrun
  · cases hrun.symm.trans hgone
  · rw [hpc] at hrun
    cases hrun

end Host.Sound

structure Host.Started (s : Host n) : Prop where
  sys : Uthread.Started s.sys
  waiting : ∀ t, s.waiting t = false
  pid : ∀ t, s.pid t = none

theorem Host.Started.sound {s : Host n} (h : s.Started) : s.Sound := by
  obtain ⟨hcoherent, hrun⟩ := h.sys.coherent
  refine ⟨hcoherent, fun _ => hrun, fun _ hw => ?_, fun t ht => ?_, fun t ht => absurd (h.pid t) ht⟩
  · rw [h.waiting] at hw
    cases hw
  · rw [h.sys.idle] at ht
    rcases ht with ht | ht <;> cases ht

theorem blocking_calls_switch {s : Host n} {as : List HostAct} (hs : s.Started)
    (hok : Along Host.step Host.ClearToYield s as) : Always Host.step Host.Switches s as :=
  always_of_along (I := Host.Sound) (fun _ _ _ h ha hv => h.step ha hv) (fun _ h => h.switches) hs.sound hok

def pairHost : Host 2 where
  sys := pair
  others := fun _ => false
  signals := fun i => if i = 2 then .user else .default
  frames := fun _ => []
  waiting := fun _ => false
  pid := fun _ => none

theorem pairHost_started : pairHost.Started := ⟨pair_started, fun _ => rfl, fun _ => rfl⟩

/-- Thread 0 takes a semaphore, signals come, and it waits for the semaphore again. -/
def downTwice (signals : List HostAct) (k : Nat) : List HostAct :=
  List.flatten [[.base (.call .alloc)], stmts .base 3, [.base (.call (.down 0))], stmts .base 5, signals,
    [.base (.call (.down 0))], stmts .base k]

/-- A default signal goes on the return of `getpid()`, and a handler runs on that of `sigsend`. -/
def downAndHandler : List HostAct :=
  downTwice [.arrive 3, .arrive 4] 6 ++ [.arrive 2, .base .stmt, .finish, .base .scan]

theorem downTwice_switches :
    (run Host.step pairHost downAndHandler).map (fun v => (v.sys.ct, (v.sys.thread 0).state)) = some (1, .blocked) ∧
      Always Host.step Host.Switches pairHost downAndHandler :=
  ⟨by decide +kernel, blocking_calls_switch pairHost_started (by decide +kernel)⟩

/-- Default signals that are lit together. The next return to the thread takes the lowest one. -/
def arrivals (signals : List (Fin 32)) : List HostAct := signals.map .arrive ++ [.base .preempt]

/-- A handler runs on the return of `getpid()`. -/
def lostPid : List HostAct := downTwice [] 5 ++ .arrive 2 :: .base .stmt :: .finish :: stmts .base 2

theorem default_signal_hides_alarm :
    pairHost.Started ∧
      (∀ as ∈ [downTwice (arrivals [3, 4, 5, 6]) 8, lostPid], ∃ v, run Host.step pairHost as = some v ∧ v.inOwn ∧
        v.sys.pc v.sys.ct = .idle ∧ v.sys.self.state = .blocked ∧ ¬ v.Switches) ∧
      ∃ v, run Host.step pairHost (arrivals [3, 4, 5] ++ .base (.call .exit) :: stmts .base 9) = some v ∧ v.inOwn ∧
        v.sys.pc v.sys.ct = .exitWait ∧ ¬ v.Switches := by
  refine ⟨pairHost_started, fun as has => ?_, ?_⟩
  · have hrun : (run Host.step pairHost as).map (fun v => (decide v.inOwn, v.sys.pc v.sys.ct, v.sys.self.state)) =
        some (true, .idle, .blocked) := by
      rcases List.mem_pair.mp has with rfl | rfl <;> decide +kernel
    obtain ⟨v, hv, hend⟩ := Option.map_eq_some_iff.mp hrun
    simp only [Prod.mk.injEq, decide_eq_true_eq] at hend
    refine ⟨v, hv, hend.1, hend.2.1, hend.2.2, fun h => ?_⟩
    rcases (h hend.1).2.1 with hstate | hpc
    · cases hend.2.2.symm.trans hstate
    · rw [hend.2.1] at hpc
      cases hpc
  · have hrun : (run Host.step pairHost (arrivals [3, 4, 5] ++ .base (.call .exit) :: stmts .base 9)).map (fun v =>
        (decide v.inOwn, v.sys.pc v.sys.ct)) = some (true, .exitWait) := by decide +kernel
    obtain ⟨v, hv, hend⟩ := Option.map_eq_some_iff.mp hrun
    simp only [Prod.mk.injEq, decide_eq_true_eq] at hend
    exact ⟨v, hv, hend.1, hend.2, fun h => (h hend.1).2.2 hend.2⟩

end Xv6.Uthread
