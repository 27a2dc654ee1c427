import Mathlib.Logic.Basic
import Xv6.Lib.Run
import Xv6.Uthread.Machine

/-!
# The thread table between calls

Every call runs to its end, or to the point where it gives up the processor.
-/

open Function Xv6.Run

namespace Xv6.Uthread

structure Table (n : Nat) where
  lib : Lib n
  indexInThreadtable : Fin n → Nat
  /-- An `int` of the source, here without overflow. -/
  nexttid : Nat
  /-- The index of the current thread. -/
  ct : Fin n
  ticks : Word
  /-- The index in the loop of `chooseNextThread`. -/
  sched : Option Nat
  exited : Bool

variable {n : Nat}

namespace Table

def thread (t : Table n) (i : Fin n) : Thread := t.lib.threadTable i

def self (t : Table n) : Thread := t.thread t.ct

def setThread (t : Table n) (i : Fin n) (x : Thread) : Table n := { t with lib := t.lib.setThread i x }

def mapThreads (t : Table n) (f : Thread → Thread) : Table n := { t with lib := t.lib.mapThreads f }

/-! ## `uthread.c`: the scheduler -/

def currLoc (t : Table n) (i : Nat) : Fin n :=
  ⟨(t.indexInThreadtable t.ct + i) % n, Nat.mod_lt _ (Nat.lt_of_le_of_lt (Nat.zero_le _) t.ct.isLt)⟩

def uthreadSchedule (t : Table n) : Table n :=
  { t.setThread t.ct { t.self with state := if t.self.state = .running then .ready else t.self.state } with
    sched := some 1 }

def switchTo (c : Fin n) (t : Table n) : Table n :=
  { t.setThread c { t.thread c with state := .running } with ct := c, sched := none }

/-- One turn of the loop. Without a thread to run, the loop starts again. -/
def chooseNextThread (i : Nat) (t : Table n) : Table n :=
  let c := t.currLoc i
  let t := t.setThread c (wakeUp t.ticks (t.thread c))
  if (t.thread c).state = .ready then switchTo c t
  else if i < n then { t with sched := some (i + 1) }
  else if t.self.state = .running then switchTo t.ct t
  else { t with sched := some 1 }

/-! ## `uthread.c`: the calls -/

def firstThread {m : Nat} (t : Table (m + 1)) : Table (m + 1) :=
  { t with
    lib := Uthread.firstThread (Nat.succ_pos m) t.nexttid t.lib
    nexttid := t.nexttid + 1
    indexInThreadtable := update t.indexInThreadtable 0 0
    ct := 0
    sched := none
    exited := false }

def uthreadInit {m : Nat} (t : Table (m + 1)) : Table (m + 1) := t.firstThread.uthreadSchedule

def getNextSpot (t : Table n) : Option (Fin n) :=
  (List.finRange n).find? fun i => (t.thread i).state = .terminated

def uthreadCreate (t : Table n) : Table n :=
  match t.getNextSpot with
  | none => t
  | some i =>
    { t.setThread i { t.thread i with tid := t.nexttid, joinOnTid := none, state := .ready } with
      nexttid := t.nexttid + 1
      indexInThreadtable := update t.indexInThreadtable i i }

def uthreadSleep (ticks : Word) (t : Table n) : Table n :=
  (t.setThread t.ct { t.self with wakeUpTime := ticks + t.ticks, state := .sleeping }).uthreadSchedule

def findTid (tid : Int) (t : Table n) : Option (Fin n) :=
  (List.finRange n).find? fun i => tid = (t.thread i).tid

def uthreadJoin (tid : Int) (t : Table n) : Table n :=
  match t.findTid tid with
  | none => t
  | some i =>
    if (t.thread i).state = .terminated then t
    else (t.setThread t.ct { t.self with joinOnTid := some (t.thread i).tid, state := .blocked }).uthreadSchedule

def getThreadCount (t : Table n) : Nat :=
  (List.finRange n).countP fun i => (t.thread i).state ≠ .terminated

def releaseJoin (tid : Nat) (x : Thread) : Thread :=
  if x.joinOnTid = some tid then { x with joinOnTid := none, state := .ready } else x

def uthreadExit (t : Table n) : Table n :=
  if t.getThreadCount = 1 then { t with exited := true }
  else
    let t := t.mapThreads (releaseJoin t.self.tid)
    (t.setThread t.ct { t.self with state := .terminated }).uthreadSchedule

def bsemDown (s : Sem) (t : Table n) : Table n :=
  let u := { t with lib := Uthread.bsemDown t.ct s t.lib }
  if t.lib.semaphores s = 0 then u.uthreadSchedule else u

end Table

inductive TableCall where
  | create
  | sleep (ticks : Word)
  | join (tid : Int)
  | exit
  | alloc
  | free (s : Sem)
  | down (s : Sem)
  | up (s : Sem)
deriving DecidableEq

def Table.call (t : Table n) : TableCall → Table n
  | .create => t.uthreadCreate
  | .sleep ticks => t.uthreadSleep ticks
  | .join tid => t.uthreadJoin tid
  | .exit => t.uthreadExit
  | .alloc => { t with lib := ((bsemAlloc t.lib).map Prod.snd).getD t.lib }
  | .free s => { t with lib := bsemFree s t.lib }
  | .down s => t.bsemDown s
  | .up s => { t with lib := bsemUp s t.lib }

inductive TableAct where
  | call (c : TableCall)
  /-- The alarm comes. -/
  | preempt
  /-- `uthread_schedule` looks at the next entry. -/
  | scan
  | tick
deriving DecidableEq

def Table.step (t : Table n) (a : TableAct) : Option (Table n) :=
  if t.exited then none
  else match a, t.sched with
    | .tick, _ => some { t with ticks := t.ticks + 1 }
    | .scan, some i => some (t.chooseNextThread i)
    | .call c, none => some (t.call c)
    | .preempt, none => some t.uthreadSchedule
    | _, _ => none

/-! ## The machine below -/

/-- What the statements of the library do to the table. -/
def Sys.table (s : Sys n) (nexttid : Nat) : Table n := ⟨s.lib, fun i => i, nexttid, s.ct, s.ticks, s.sched, s.exited⟩

theorem deliver_table (s : Sys n) (nexttid : Nat) : (deliver s).table nexttid = (s.table nexttid).uthreadSchedule := rfl

theorem switchTo_table (c : Fin n) (s : Sys n) (nexttid : Nat) :
    (switchTo c s).table nexttid = (s.table nexttid).switchTo c := by
  rw [switchTo, alarm_quanta]
  rfl

theorem chooseNextThread_table (i : Nat) (s : Sys n) (nexttid : Nat) :
    (chooseNextThread i s).table nexttid = (s.table nexttid).chooseNextThread i := by
  unfold chooseNextThread
  dsimp only
  split
  · rename_i hready
    rw [switchTo_table]
    exact (if_pos hready).symm
  · rename_i hready
    refine Eq.trans ?_ (if_neg hready).symm
    split
    · rfl
    · split
      · rename_i hrun
        rw [switchTo_table]
        exact (if_pos hrun).symm
      · rename_i hrun
        exact (if_neg hrun).symm

/-! ## Consistency -/

structure Thread.Waits (x : Thread) : Prop where
  blocked : x.state = .blocked ↔ Xor (x.blockedOnSemaphore ≠ none) (x.joinOnTid ≠ none)
  free : x.state ≠ .blocked → x.blockedOnSemaphore = none ∧ x.joinOnTid = none

structure Table.Consistent (t : Table n) : Prop where
  index : t.indexInThreadtable t.ct = t.ct
  running : ∀ i, (t.thread i).state = .running → i = t.ct
  waits : ∀ i, (t.thread i).Waits

/-- The scheduler ends by resuming a thread that was ready, or whose time had come. -/
def Table.ResumesReady (t : Table n) (a : TableAct) : Prop :=
  ∀ u, t.step a = some u → t.sched ≠ none → u.sched = none →
    (t.thread u.ct).state = .ready ∨ (t.thread u.ct).state = .sleeping ∧ (t.thread u.ct).wakeUpTime.sle t.ticks = true

theorem Thread.Waits.of_free {x : Thread} (h1 : x.state ≠ .blocked) (h2 : x.blockedOnSemaphore = none)
    (h3 : x.joinOnTid = none) : x.Waits := by
  refine ⟨iff_of_false h1 ?_, fun _ => ⟨h2, h3⟩⟩
  rw [h2, h3]
  simp [Xor]

theorem Thread.Waits.move {x : Thread} (h : x.Waits) (hx : x.state ≠ .blocked) {state : ThreadState}
    (hstate : state ≠ .blocked) : Thread.Waits { x with state := state } :=
  .of_free hstate (h.free hx).1 (h.free hx).2

structure Table.Sound (t : Table n) : Prop where
  placed : ∀ i, (t.thread i).state ≠ .terminated ∨ i = t.ct → t.indexInThreadtable i = i
  waits : ∀ i, (t.thread i).Waits
  only : ∀ i, (t.thread i).state = .running → i = t.ct ∧ t.sched = none
  runs : t.sched = none → t.self.state = .running

theorem Table.Sound.consistent {t : Table n} (h : t.Sound) : t.Consistent :=
  ⟨h.placed t.ct (.inr rfl), fun i hi => (h.only i hi).1, h.waits⟩

theorem Thread.Waits.blocked_of_join {x : Thread} (h : x.Waits) {tid : Nat} (hx : x.joinOnTid = some tid) :
    x.state = .blocked ∧ x.blockedOnSemaphore = none := by
  have hstate : x.state = .blocked := by
    by_contra hne
    rw [(h.free hne).2] at hx
    cases hx
  refine ⟨hstate, ?_⟩
  rcases h.blocked.mp hstate with ⟨-, hnot⟩ | ⟨-, hnot⟩
  · rw [hx] at hnot
    exact absurd nofun hnot
  · exact not_ne_iff.mp hnot

theorem Thread.Waits.blocked_of_down {x : Thread} (h : x.Waits) {s : Sem} (hx : x.blockedOnSemaphore = some s) :
    x.state = .blocked ∧ x.joinOnTid = none := by
  have hstate : x.state = .blocked := by
    by_contra hne
    rw [(h.free hne).1] at hx
    cases hx
  refine ⟨hstate, ?_⟩
  rcases h.blocked.mp hstate with ⟨-, hnot⟩ | ⟨-, hnot⟩
  · exact not_ne_iff.mp hnot
  · rw [hx] at hnot
    exact absurd nofun hnot

theorem wakeUp_waits {x : Thread} (h : x.Waits) (ticks : Word) : (wakeUp ticks x).Waits := by
  unfold wakeUp
  split
  · rename_i hx
    exact h.move (by rw [hx.1]; nofun) nofun
  · exact h

namespace Table.Sound

variable {t u : Table n}

variable (h : t.Sound)
include h

/-- The entry `c` becomes `x`, and the others stay. -/
theorem change {c : Fin n} {x : Thread} (htable : u.lib.threadTable = update t.lib.threadTable c x) (hx : x.Waits)
    (hindex : ∀ i, i ≠ c → u.indexInThreadtable i = t.indexInThreadtable i)
    (hplaced : x.state ≠ .terminated ∨ c = u.ct → u.indexInThreadtable c = c) (hct : u.ct ≠ c → u.ct = t.ct)
    (honly : x.state = .running → c = u.ct ∧ u.sched = none)
    (hothers : ∀ i, i ≠ c → (t.thread i).state = .running → i = u.ct ∧ u.sched = none)
    (hruns : u.sched = none → u.ct = c ∧ x.state = .running ∨ u.ct ≠ c ∧ (t.thread u.ct).state = .running) :
    u.Sound := by
  have hself : u.thread c = x := by rw [Table.thread, htable, update_self]
  have hother : ∀ i, i ≠ c → u.thread i = t.thread i := fun i hi => by
    rw [Table.thread, htable, update_of_ne hi, Table.thread]
  refine ⟨fun i hi => ?_, fun i => ?_, fun i hi => ?_, fun hs => ?_⟩
  · rcases eq_or_ne i c with rfl | hne
    · exact hplaced (hself ▸ hi)
    · rw [hindex i hne]
      rw [hother i hne] at hi
      exact h.placed i (hi.imp_right fun he => he.trans (hct (he ▸ hne)))
  · rcases eq_or_ne i c with rfl | hne
    · rwa [hself]
    · rw [hother i hne]
      exact h.waits i
  · rcases eq_or_ne i c with rfl | hne
    · exact honly (hself ▸ hi)
    · exact hothers i hne (hother i hne ▸ hi)
  · rcases hruns hs with ⟨hc, hrun⟩ | ⟨hne, hrun⟩
    · rwa [Table.self, hc, hself]
    · rwa [Table.self, hother _ hne]

theorem set {i : Fin n} {x : Thread} (hx : x.Waits)
    (hrun : x.state = .running ↔ (t.thread i).state = .running)
    (hterm : x.state ≠ .terminated → (t.thread i).state ≠ .terminated) : (t.setThread i x).Sound := by
  refine h.change rfl hx (fun _ _ => rfl) (fun hc => h.placed i (hc.imp_left hterm)) (fun _ => rfl)
    (fun hr => h.only i (hrun.mp hr)) (fun j _ => h.only j) fun hs => ?_
  have hct := h.runs hs
  rcases eq_or_ne t.ct i with rfl | hne
  · exact .inl ⟨rfl, hrun.mpr hct⟩
  · exact .inr ⟨hne, hct⟩

theorem mapThreads {f : Thread → Thread} (hf : ∀ x, x.Waits → (f x).Waits)
    (hrun : ∀ x, x.Waits → ((f x).state = .running ↔ x.state = .running))
    (hterm : ∀ x, x.Waits → (f x).state ≠ .terminated → x.state ≠ .terminated) : (t.mapThreads f).Sound :=
  ⟨fun i hi => h.placed i (hi.imp_left (hterm _ (h.waits i))), fun i => hf _ (h.waits i),
    fun i hi => h.only i ((hrun _ (h.waits i)).mp hi), fun hs => (hrun _ (h.waits _)).mpr (h.runs hs)⟩

theorem congr {l : Lib n} (hl : l.threadTable = t.lib.threadTable) : Table.Sound { t with lib := l } := by
  have hthread : ∀ i, Table.thread { t with lib := l } i = t.thread i := fun i => congrFun hl i
  refine ⟨fun i hi => h.placed i ?_, fun i => ?_, fun i hi => h.only i ?_, fun hs => ?_⟩
  · rwa [hthread] at hi
  · rw [hthread]
    exact h.waits i
  · rwa [hthread] at hi
  · rw [Table.self, hthread]
    exact h.runs hs

theorem halt {x : Thread} (htable : u.lib.threadTable = update t.lib.threadTable t.ct x) (hx : x.Waits)
    (hstate : x.state ≠ .running) (hindex : u.indexInThreadtable = t.indexInThreadtable) (hct : u.ct = t.ct)
    (hsched : u.sched ≠ none) : u.Sound := by
  refine h.change htable hx (fun _ _ => by rw [hindex]) (fun _ => ?_) (fun _ => hct) (absurd · hstate)
    (fun i hi hr => absurd (h.only i hr).1 hi) fun hs => absurd hs hsched
  rw [hindex]
  exact h.placed t.ct (.inr rfl)

theorem stop {x : Thread} (hx : x.Waits) (hstate : x.state ≠ .running) :
    (t.setThread t.ct x).uthreadSchedule.Sound := by
  refine h.halt ?_ hx hstate rfl rfl nofun
  have hself : (t.setThread t.ct x).self = x := update_self _ _ _
  refine (update_idem _ _ _).trans ?_
  rw [hself, if_neg hstate]
  rfl

theorem preempt (hsched : t.sched = none) : t.uthreadSchedule.Sound := by
  have hrun := h.runs hsched
  have hfree := (h.waits t.ct).free (by rw [show (t.thread t.ct).state = .running from hrun]; nofun)
  refine h.halt rfl ?_ ?_ rfl rfl nofun <;> rw [if_pos hrun]
  · exact .of_free nofun hfree.1 hfree.2
  · nofun

theorem switchTo {c : Fin n} (hnone : ∀ i, (t.thread i).state ≠ .running) (hc : (t.thread c).state = .ready) :
    (t.switchTo c).Sound :=
  h.change rfl ((h.waits c).move (by rw [hc]; nofun) nofun) (fun _ _ => rfl)
    (fun _ => h.placed c (.inl (by rw [hc]; nofun))) (absurd rfl) (fun _ => ⟨rfl, rfl⟩)
    (fun i _ hi => absurd hi (hnone i)) fun _ => .inl ⟨rfl, rfl⟩

end Table.Sound

def Table.looked (t : Table n) (i : Nat) : Table n :=
  t.setThread (t.currLoc i) (wakeUp t.ticks (t.thread (t.currLoc i)))

namespace Table.Sound

variable {t u : Table n}

theorem looked (h : t.Sound) (i : Nat) : (t.looked i).Sound := by
  refine h.set (wakeUp_waits (h.waits _) _) ?_ ?_ <;> unfold wakeUp <;> split
  · rename_i hx
    simp [hx.1]
  · rfl
  · rename_i hx
    rw [hx.1]
    exact fun _ => nofun
  · exact id

theorem none_runs (h : t.Sound) (hsched : t.sched ≠ none) (i : Fin n) : (t.thread i).state ≠ .running := fun hi =>
  hsched (h.only i hi).2

theorem wait (h : t.Sound) (hsched : t.sched ≠ none) (k : Nat) : Table.Sound { t with sched := some k } :=
  ⟨h.placed, h.waits, fun i hi => absurd hi (h.none_runs hsched i), nofun⟩

theorem chooseNextThread (h : t.Sound) {i : Nat} (hsched : t.sched = some i) :
    (t.chooseNextThread i).Sound ∧ ((t.chooseNextThread i).sched = none →
      (t.thread (t.chooseNextThread i).ct).state = .ready ∨
        (t.thread (t.chooseNextThread i).ct).state = .sleeping ∧
          (t.thread (t.chooseNextThread i).ct).wakeUpTime.sle t.ticks = true) := by
  have hlooked := h.looked i
  have hon : (t.looked i).sched ≠ none := by
    change t.sched ≠ none
    rw [hsched]
    nofun
  have hnone := hlooked.none_runs hon
  have heq : t.chooseNextThread i =
      if ((t.looked i).thread (t.currLoc i)).state = .ready then (t.looked i).switchTo (t.currLoc i)
      else if i < n then { t.looked i with sched := some (i + 1) }
      else if (t.looked i).self.state = .running then (t.looked i).switchTo (t.looked i).ct
      else { t.looked i with sched := some 1 } := rfl
  rw [heq]
  split
  · rename_i hready
    refine ⟨hlooked.switchTo hnone hready, fun _ => ?_⟩
    have hself : (t.looked i).thread (t.currLoc i) = wakeUp t.ticks (t.thread (t.currLoc i)) := update_self _ _ _
    rw [hself, wakeUp] at hready
    change (t.thread (t.currLoc i)).state = _ ∨ (t.thread (t.currLoc i)).state = _ ∧ _
    split at hready
    · rename_i hx
      exact .inr hx
    · exact .inl hready
  · split
    · exact ⟨hlooked.wait hon _, nofun⟩
    · split
      · rename_i hrun
        exact absurd hrun (hnone _)
      · exact ⟨hlooked.wait hon _, nofun⟩

theorem getNextSpot_terminated {i : Fin n} (hi : t.getNextSpot = some i) : (t.thread i).state = .terminated := by
  simpa using List.find?_some hi

variable (h : t.Sound)
include h

theorem uthreadCreate (hsched : t.sched = none) : t.uthreadCreate.Sound := by
  unfold Table.uthreadCreate
  cases hspot : t.getNextSpot with
  | none => exact h
  | some i =>
    have hterm := getNextSpot_terminated hspot
    have hfree := (h.waits i).free (by rw [hterm]; nofun)
    have hct : i ≠ t.ct := by
      rintro rfl
      cases hterm.symm.trans (h.runs hsched)
    exact h.change rfl (.of_free nofun hfree.1 rfl) (fun j hj => update_of_ne hj _ _) (fun _ => update_self _ _ _)
      (fun _ => rfl) nofun (fun j _ => h.only j) fun hs => .inr ⟨hct.symm, h.runs hs⟩

theorem free_self (hsched : t.sched = none) :
    t.self.blockedOnSemaphore = none ∧ t.self.joinOnTid = none :=
  (h.waits t.ct).free (by rw [show (t.thread t.ct).state = .running from h.runs hsched]; nofun)

theorem uthreadJoin (hsched : t.sched = none) (tid : Int) : (t.uthreadJoin tid).Sound := by
  unfold Table.uthreadJoin
  split
  · exact h
  · split
    · exact h
    · refine h.stop ⟨iff_of_true rfl (.inr ⟨nofun, ?_⟩), fun hne => absurd rfl hne⟩ nofun
      exact not_ne_iff.mpr (h.free_self hsched).1

theorem release {p : Thread → Prop} [DecidablePred p] {f : Thread → Thread}
    (hp : ∀ x, x.Waits → p x → x.state = .blocked ∧ (f x).Waits ∧ (f x).state = .ready) :
    (t.mapThreads fun x => if p x then f x else x).Sound := by
  refine h.mapThreads (fun x hx => ?_) (fun x hx => ?_) (fun x hx => ?_) <;> split
  · rename_i hj
    exact (hp x hx hj).2.1
  · exact hx
  · rename_i hj
    obtain ⟨hblocked, -, hready⟩ := hp x hx hj
    simp [hblocked, hready]
  · rfl
  · rename_i hj
    rw [(hp x hx hj).1]
    exact fun _ => nofun
  · exact id

theorem releaseJoin (tid : Nat) : (t.mapThreads (Table.releaseJoin tid)).Sound := by
  refine h.release (p := fun x => x.joinOnTid = some tid) fun x hx hj => ?_
  obtain ⟨hstate, hfree⟩ := hx.blocked_of_join hj
  exact ⟨hstate, .of_free nofun hfree rfl, rfl⟩

theorem releaseDown (s : Sem) : (t.mapThreads (Uthread.releaseDown s)).Sound := by
  refine h.release (p := fun x => x.blockedOnSemaphore = some s) fun x hx hb => ?_
  obtain ⟨hstate, hfree⟩ := hx.blocked_of_down hb
  exact ⟨hstate, .of_free nofun rfl hfree, rfl⟩

theorem uthreadExit (hsched : t.sched = none) : t.uthreadExit.Sound := by
  unfold Table.uthreadExit
  split
  · exact ⟨h.placed, h.waits, h.only, h.runs⟩
  · have hreleased := h.releaseJoin t.self.tid
    have hfree := hreleased.free_self hsched
    exact hreleased.stop (.of_free nofun hfree.1 hfree.2) nofun

theorem bsemDown (hsched : t.sched = none) (s : Sem) : (t.bsemDown s).Sound := by
  unfold Table.bsemDown Uthread.bsemDown
  dsimp only
  split
  · rename_i hzero
    rw [if_neg (by rw [hzero]; decide)]
    refine h.stop (x := { t.self with blockedOnSemaphore := some s, state := .blocked })
      ⟨iff_of_true rfl (.inl ⟨nofun, ?_⟩), fun hne => absurd rfl hne⟩ nofun
    exact not_ne_iff.mpr (h.free_self hsched).2
  · split
    · exact h
    · exact h.congr rfl

theorem bsemUp (s : Sem) : Table.Sound { t with lib := bsemUp s t.lib } := by
  by_cases hne : t.lib.semaphores s = -1
  · rw [Uthread.bsemUp, if_pos hne]
    exact h
  · rcases bsemUp_cases hne with ⟨i, hi, hup⟩ | ⟨-, hup⟩ <;> rw [hup]
    · obtain ⟨hstate, hjoin⟩ := (h.waits i).blocked_of_down hi
      have hstate' : (t.lib.threadTable i).state = .blocked := hstate
      refine h.set (.of_free nofun rfl hjoin) ?_ ?_ <;> rw [hstate] <;> simp
    · exact h.congr rfl

theorem bsemAlloc : Table.Sound { t with lib := ((bsemAlloc t.lib).map Prod.snd).getD t.lib } := by
  cases halloc : Uthread.bsemAlloc t.lib with
  | none => exact h
  | some r =>
    obtain ⟨s, l⟩ := r
    rw [(bsemAlloc_some halloc).2]
    exact h.congr rfl

theorem call (hsched : t.sched = none) (c : TableCall) : (t.call c).Sound := by
  cases c with
  | create => exact h.uthreadCreate hsched
  | sleep ticks => exact h.stop (.of_free nofun (h.free_self hsched).1 (h.free_self hsched).2) nofun
  | join tid => exact h.uthreadJoin hsched tid
  | exit => exact h.uthreadExit hsched
  | alloc => exact h.bsemAlloc
  | free s => exact (h.releaseDown s).congr rfl
  | down s => exact h.bsemDown hsched s
  | up s => exact h.bsemUp s

theorem step {a : TableAct} (hu : t.step a = some u) : u.Sound ∧ t.ResumesReady a := by
  have hstep := hu
  unfold Table.step at hu
  split at hu
  · cases hu
  · split at hu
    case h_1 =>
      cases hu
      refine ⟨⟨h.placed, h.waits, h.only, h.runs⟩, fun v hv hon hoff => ?_⟩
      cases hstep.symm.trans hv
      exact absurd hoff hon
    case h_2 i hsched =>
      cases hu
      have hchoose := h.chooseNextThread hsched
      refine ⟨hchoose.1, fun v hv _ hoff => ?_⟩
      cases hstep.symm.trans hv
      exact hchoose.2 hoff
    case h_3 c hsched =>
      cases hu
      exact ⟨h.call hsched c, fun _ _ hon => absurd hsched hon⟩
    case h_4 hsched =>
      cases hu
      exact ⟨h.preempt hsched, fun _ _ hon => absurd hsched hon⟩
    case h_5 => cases hu

end Table.Sound

theorem firstThread_sound {m : Nat} (t : Table (m + 1)) : t.firstThread.Sound := by
  have hself : t.firstThread.thread 0 =
      { (initThreadTable t.lib).threadTable 0 with tid := t.nexttid, state := .running, joinOnTid := none } :=
    setThread_self (initThreadTable t.lib) ⟨0, Nat.succ_pos m⟩ _
  have hother : ∀ i, i ≠ 0 → t.firstThread.thread i = (initThreadTable t.lib).threadTable i := fun i hi =>
    update_of_ne hi _ _
  refine ⟨fun i hi => ?_, fun i => ?_, fun i hi => ?_, fun _ => congrArg Thread.state hself⟩
  · rcases eq_or_ne i 0 with rfl | hne
    · simp [Table.firstThread]
    · rw [hother i hne] at hi
      exact (hi.elim (fun h => h rfl) hne).elim
  · rcases eq_or_ne i 0 with rfl | hne
    · rw [hself]
      exact .of_free nofun rfl rfl
    · rw [hother i hne]
      exact .of_free nofun rfl rfl
  · rcases eq_or_ne i 0 with rfl | hne
    · exact ⟨rfl, rfl⟩
    · rw [hother i hne] at hi
      cases hi

/-- From `uthread_init` on, in every state of every run. -/
theorem table_consistent {m : Nat} (t : Table (m + 1)) (as : List TableAct) :
    Always Table.step (fun u => u.Consistent ∧ ∀ a, u.ResumesReady a) t.uthreadInit as := by
  intro k u hu
  have h : u.Sound := run_invariant (fun _ _ _ h hv => (h.step hv).1)
    ((firstThread_sound t).preempt rfl) hu
  exact ⟨h.consistent, fun a v hv => (h.step hv).2 v hv⟩

end Xv6.Uthread
