import Xv6.Uthread.Exit

/-!
# Threads that are created

`uthread_create` and the `free` of `uthread_exit`, with the blocks that `malloc` has handed out.
-/

open Function Xv6.Run

namespace Xv6.Uthread

inductive MakePc (n : Nat) where
  | search (i : Nat)
  | tid (i : Fin n)
  | count (i : Fin n)
  | join (i : Fin n)
  | stack (i : Fin n)
  | frame (i : Fin n) (k : Nat)
  | ready (i : Fin n)
deriving DecidableEq

def frameStmts : Nat := 9

structure Spawn (n : Nat) where
  sys : Sys n
  /-- Threads in `uthread_create`. -/
  making : Fin n → Option (MakePc n)
  /-- An `int` of the source, here without overflow. -/
  nexttid : Nat
  stack : Fin n → Nat
  /-- The blocks that are allocated. -/
  heap : Nat → Bool
  /-- The thread has executed `free(ct->stack)`. -/
  freed : Fin n → Bool

inductive SpawnAct where
  | base (a : Act)
  /-- The current thread calls `uthread_create`. -/
  | create
  /-- The next statement of `uthread_create`. A `malloc` in it returns `p`. -/
  | makeStmt (p : Nat)
  | freeStack
deriving DecidableEq

variable {n : Nat}

def Pc.afterFree : Pc n → Bool
  | exitState => true
  | exitCount i threadCount => n ≤ i && threadCount == 1
  | _ => false

namespace Spawn

def gotoMake (s : Spawn n) (p : Option (MakePc n)) : Spawn n :=
  { s with making := update s.making s.sys.ct p }

def start (s : Spawn n) (i : Fin n) : Spawn n :=
  { s with
    sys := { s.sys.setThread i { s.sys.thread i with state := .ready } with
      pc := update s.sys.pc i .idle
      handlers := update s.sys.handlers i 0 }
    freed := update s.freed i false }

def execMake (s : Spawn n) (p : Nat) : Option (Spawn n) :=
  match s.making s.sys.ct with
  | none => none
  | some (.search i) =>
    some (s.gotoMake (if h : i < n then
        some (if (s.sys.thread ⟨i, h⟩).state = .terminated then .tid ⟨i, h⟩ else .search (i + 1))
      else none))
  | some (.tid i) =>
    some { s.gotoMake (some (.count i)) with sys := s.sys.setThread i { s.sys.thread i with tid := s.nexttid } }
  | some (.count i) => some { s.gotoMake (some (.join i)) with nexttid := s.nexttid + 1 }
  | some (.join i) =>
    some { s.gotoMake (some (.stack i)) with sys := s.sys.setThread i { s.sys.thread i with joinOnTid := none } }
  | some (.stack i) =>
    if p ≠ 0 ∧ s.heap p then none
    else some { s.gotoMake (some (.frame i 0)) with
      stack := update s.stack i p
      heap := if p = 0 then s.heap else update s.heap p true }
  | some (.frame i k) => some (s.gotoMake (some (if k + 1 < frameStmts then .frame i (k + 1) else .ready i)))
  | some (.ready i) => some ((s.gotoMake none).start i)

def running (s : Spawn n) : Bool := !s.sys.exited && s.sys.sched.isNone && s.sys.handlers s.sys.ct == 0

def owesFree (s : Spawn n) : Bool :=
  (s.sys.pc s.sys.ct).afterFree && s.sys.self.tid != 0 && !s.freed s.sys.ct

def busy (s : Spawn n) : Act → Bool
  | .call _ => (s.making s.sys.ct).isSome
  | .stmt => ((s.making s.sys.ct).isSome || s.owesFree) && s.sys.handlers s.sys.ct == 0
  | _ => false

def step (s : Spawn n) : SpawnAct → Option (Spawn n)
  | .base a => if s.busy a then none else (Uthread.step s.sys a).map fun u => { s with sys := u }
  | .create =>
    if s.running ∧ s.sys.pc s.sys.ct = .idle ∧ s.making s.sys.ct = none then some (s.gotoMake (some (.search 0)))
    else none
  | .makeStmt p => if s.running then s.execMake p else none
  | .freeStack =>
    if s.running ∧ s.owesFree then
      some { s with
        heap := update s.heap (s.stack s.sys.ct) false
        freed := update s.freed s.sys.ct true }
    else none

/-! ## The property -/

def OwnStack (s : Spawn n) (i : Fin n) : Prop :=
  s.stack i ≠ 0 ∧ s.heap (s.stack i) = true ∧ ∀ j, s.sys.alive j → s.stack j = s.stack i → j = i

def DistinctTids (s : Spawn n) : Prop :=
  ∀ i j, s.sys.alive i → s.sys.alive j → (s.sys.thread i).tid = (s.sys.thread j).tid → i = j

structure Exclusive (s : Spawn n) : Prop where
  tids : s.DistinctTids
  ownStack : ∀ i, s.sys.alive i → (s.sys.thread i).tid ≠ 0 → s.OwnStack i

/-- The last statement of `uthread_create` adds one thread. A call that finds no slot changes nothing. -/
def AddsOne (s : Spawn n) (a : SpawnAct) : Prop :=
  ∀ p v, a = .makeStmt p → s.step a = some v →
    match s.making s.sys.ct with
    | some (.ready i) => ¬ s.sys.alive i ∧ ∀ j, v.sys.alive j ↔ s.sys.alive j ∨ j = i
    | some (.search _) => v.sys = s.sys ∧ v.nexttid = s.nexttid
    | _ => ∀ j, v.sys.alive j ↔ s.sys.alive j

/-! ## The windows -/

def building (s : Spawn n) (t : Fin n) : Bool :=
  match s.making t with
  | none | some (.search _) => false
  | _ => true

def stranded (s : Spawn n) (t : Fin n) : Bool := s.freed t && decide (s.sys.alive t)

/-- The alarm does not come in a window, and `malloc` finds a block. -/
def Undisturbed (s : Spawn n) : SpawnAct → Prop
  | .base .preempt => s.building s.sys.ct = false ∧ s.stranded s.sys.ct = false
  | .makeStmt p => (∃ i, s.making s.sys.ct = some (.stack i)) → p ≠ 0
  | _ => True

instance (s : Spawn n) : DecidablePred s.Undisturbed
  | .base .preempt => inferInstanceAs (Decidable (_ ∧ _))
  | .makeStmt _ => inferInstanceAs (Decidable ((∃ _ : Fin n, _) → _))
  | .base (.call _) | .base .stmt | .base .scan | .base .tick | .create | .freeStack => .isTrue trivial

/-! ## The invariant -/

def FreeSlot (s : Spawn n) (i : Fin n) : Prop :=
  ¬ s.sys.alive i ∧ ∀ j, s.sys.alive j → (s.sys.thread j).tid < (s.sys.thread i).tid

def FreshStack (s : Spawn n) (i : Fin n) : Prop :=
  s.stack i ≠ 0 ∧ s.heap (s.stack i) = true ∧ ∀ j, s.sys.alive j → s.stack j ≠ s.stack i

def Place (s : Spawn n) : MakePc n → Prop
  | .search _ => True
  | .tid i => ¬ s.sys.alive i
  | .count i => s.FreeSlot i ∧ (s.sys.thread i).tid = s.nexttid
  | .join i | .stack i => s.FreeSlot i ∧ (s.sys.thread i).tid < s.nexttid
  | .frame i _ | .ready i => s.FreeSlot i ∧ (s.sys.thread i).tid < s.nexttid ∧ s.FreshStack i

/-- The number and the stack of a thread are its own, until it has freed the stack. -/
structure Kept (s : Spawn n) (i : Fin n) : Prop where
  fresh : (s.sys.thread i).tid < s.nexttid
  first : (s.sys.thread i).tid = 0 → s.stack i = 0
  own : (s.sys.thread i).tid ≠ 0 → s.freed i = false → s.OwnStack i

structure Sound (s : Spawn n) : Prop where
  coherent : Coherent s.sys
  running : Running s.sys
  idle : ∀ t, s.making t ≠ none → s.sys.pc t = .idle ∧ s.sys.alive t
  window : ∀ t, s.building t = true ∨ s.stranded t = true → t = s.sys.ct ∧ s.sys.sched = none
  place : ∀ q, s.making s.sys.ct = some q → s.Place q
  leaving : ∀ t, s.stranded t = true → (s.sys.pc t).afterFree = true
  kept : ∀ i, s.sys.alive i → s.Kept i

end Spawn

/-! ## Slots -/

section Slot

variable {s u : Sys n} {i : Fin n} {x : Thread} {p : Pc n}

theorem Coherent.not_active (h : Coherent s) (hi : ¬ s.alive i) : (s.pc i).active = false := by
  by_contra ha
  exact hi (h.alive_of_active (Bool.eq_true_of_not_eq_false ha))

theorem InDown.active {y : Sem} {state : ThreadState} (h : InDown y p state) : p.active = true := by
  rcases h with rfl | ⟨rfl | rfl, -⟩ <;> rfl

theorem Coherent.slot_free (h : Coherent s) (hi : ¬ s.alive i) :
    (s.thread i).joinOnTid = none ∧ (s.thread i).blockedOnSemaphore = none := by
  have hact := h.not_active hi
  refine (h.fits i).free (fun hj => ?_) fun y hd => ?_
  · rw [hj.active] at hact
    cases hact
  · rw [hd.active] at hact
    cases hact

theorem not_critical_of_not_active (h : p.active = false) : p.critical = false := by
  cases p <;> first | rfl | cases h

theorem plain_of_not_active (h : p.active = false) : p.plain = true := by
  cases p <;> first | rfl | cases h

/-- Nobody is releasing an entry that waits for nobody. -/
theorem Sys.Releases.away {tid : Nat} {q : Pc n} (h : s.Releases tid q) (hact : (s.pc i).active = false)
    (hfree : (s.thread i).joinOnTid = none ∧ (s.thread i).blockedOnSemaphore = none)
    (hother : ∀ j, j ≠ i → u.thread j = s.thread j ∧ u.pc j = s.pc j) : u.Releases tid q := by
  cases q with
  | exitClear j =>
    have hne : j ≠ i := by
      rintro rfl
      cases hfree.1.symm.trans h
    exact (congrArg Thread.joinOnTid (hother j hne).1).trans h
  | exitReady j =>
    have hne : j ≠ i := by
      rintro rfl
      cases hact.symm.trans h.2.active
    rw [Sys.Releases, (hother j hne).1, (hother j hne).2]
    exact h
  | upClear y j =>
    have hne : j ≠ i := by
      rintro rfl
      cases hfree.2.symm.trans h
    exact (congrArg Thread.blockedOnSemaphore (hother j hne).1).trans h
  | upReady y j =>
    have hne : j ≠ i := by
      rintro rfl
      rw [h.2.1] at hact
      cases hact
    rw [Sys.Releases, (hother j hne).1, (hother j hne).2]
    exact h
  | _ => trivial

theorem Coherent.slot (h : Coherent s) (hi : ¬ s.alive i) (hct : u.ct = s.ct) (hsched : u.sched = s.sched)
    (hpending : u.pending = s.pending) (hpc : u.pc = update s.pc i p)
    (htable : u.lib.threadTable = update s.lib.threadTable i x) (hp : p.active = false)
    (hx : x.joinOnTid = none ∧ x.blockedOnSemaphore = none)
    (htid : x.state ≠ .terminated → ∀ j, s.alive j → (s.thread j).tid ≠ x.tid) : Coherent u := by
  have hself : u.thread i = x := (congrFun htable i).trans (update_self _ _ _)
  have hother : ∀ j, j ≠ i → u.thread j = s.thread j := fun j hj =>
    (congrFun htable j).trans (update_of_ne hj _ _)
  have hpself : u.pc i = p := by rw [hpc, update_self]
  have hpother : ∀ j, j ≠ i → u.pc j = s.pc j := fun j hj => by rw [hpc, update_of_ne hj]
  have hplain := plain_of_not_active hp
  refine ⟨fun j => ?_, fun j hj => ?_, fun j k hj hk he => ?_, fun e => ?_, fun e f k he hf => ?_⟩
  · rcases eq_or_ne j i with rfl | hji
    · rw [hself, hpself]
      refine .of_free hx ?_ ?_ ?_
      · rintro y rfl
        cases hp
      · rintro y rfl
        cases hp
      · rw [hp]
        nofun
    · rw [hother j hji, hpother j hji]
      exact h.fits j
  · have hji : j ≠ i := by
      rintro rfl
      rw [hpself, not_critical_of_not_active hp] at hj
      cases hj
    rw [hct, hsched, hpending]
    exact h.critical j (by rwa [← hpother j hji])
  · by_contra hjk
    rcases eq_or_ne j i with rfl | hji
    · rw [hself] at hj he
      rw [hother k (Ne.symm hjk)] at hk he
      exact htid hj k hk he.symm
    · rw [hother j hji] at hj he
      rcases eq_or_ne k i with rfl | hki
      · rw [hself] at hk he
        exact htid hk j hj he
      · rw [hother k hki] at hk he
        exact hjk (h.tids j k hj hk he)
  · rcases eq_or_ne e i with rfl | hei
    · rw [hpself]
      exact u.releases_of_plain _ hplain
    · rw [hother e hei, hpother e hei]
      exact (h.releases e).away (h.not_active hi) (h.slot_free hi) fun j hj => ⟨hother j hj, hpother j hj⟩
  · have hready : ∀ e, u.pc e = .exitReady k → s.pc e = .exitReady k := fun e he => by
      have hei : e ≠ i := by
        rintro rfl
        rw [← hpself, he] at hplain
        cases hplain
      rwa [← hpother e hei]
    exact h.unique e f k (hready e he) (hready f hf)

end Slot

/-! ## Steps -/

namespace Spawn

variable {s v : Spawn n} {u : Sys n}

theorem sched_of_running (h : s.running = true) : s.sys.sched = none := by
  simp only [running, Bool.and_eq_true, Option.isNone_iff_eq_none] at h
  exact h.1.2

theorem search_of_not_building {t : Fin n} {q : MakePc n} (h : s.building t = false) (hq : s.making t = some q) :
    ∃ i, q = .search i := by
  unfold building at h
  rw [hq] at h
  cases q with
  | search i => exact ⟨i, rfl⟩
  | _ => cases h

theorem stranded_iff {t : Fin n} : s.stranded t = true ↔ s.freed t = true ∧ s.sys.alive t := by
  rw [stranded, Bool.and_eq_true, decide_eq_true_iff]

theorem place_congr {q : MakePc n} (halive : ∀ t, v.sys.alive t ↔ s.sys.alive t)
    (htid : ∀ t, (v.sys.thread t).tid = (s.sys.thread t).tid) (hnext : v.nexttid = s.nexttid)
    (hstack : v.stack = s.stack) (hheap : v.heap = s.heap) (h : s.Place q) : v.Place q := by
  have hplace : v.Place q = s.Place q := by
    cases q <;> simp only [Place, FreeSlot, FreshStack, halive, htid, hnext, hstack, hheap]
  rwa [hplace]

/-- No thread has come to use the stack. -/
theorem Kept.mono {i : Fin n} (h : s.Kept i) (htid : (v.sys.thread i).tid = (s.sys.thread i).tid)
    (hnext : s.nexttid ≤ v.nexttid) (hstack : v.stack i = s.stack i) (hfreed : v.freed i = false → s.freed i = false)
    (hheap : s.heap (s.stack i) = true → v.heap (s.stack i) = true)
    (hothers : ∀ j, v.sys.alive j → v.stack j = s.stack i → s.sys.alive j ∧ s.stack j = s.stack i) : v.Kept i := by
  refine ⟨htid.trans_lt (h.fresh.trans_le hnext), fun hz => hstack.trans (h.first (htid ▸ hz)), fun hne hf => ?_⟩
  obtain ⟨h1, h2, h3⟩ := h.own (htid ▸ hne) (hfreed hf)
  rw [OwnStack, hstack]
  exact ⟨h1, hheap h2, fun j hj he => (hothers j hj he).elim (h3 j)⟩

namespace Sound

section

variable (h : s.Sound)
include h

theorem move (hc : Coherent u) (hr : Running u) (halive : ∀ t, u.alive t ↔ s.sys.alive t)
    (htid : ∀ t, (u.thread t).tid = (s.sys.thread t).tid) (hidle : ∀ t, s.making t ≠ none → u.pc t = .idle)
    (hwindow : ∀ t, s.building t = true ∨ s.stranded t = true → t = u.ct ∧ u.sched = none)
    (hleaving : ∀ t, s.stranded t = true → (u.pc t).afterFree = true) : Sound { s with sys := u } := by
  have hstranded : ∀ t, stranded { s with sys := u } t = true → s.stranded t = true := fun t ht => by
    rw [stranded_iff] at ht ⊢
    exact ⟨ht.1, (halive t).mp ht.2⟩
  refine ⟨hc, hr, fun t ht => ⟨hidle t ht, (halive t).mpr (h.idle t ht).2⟩,
    fun t ht => hwindow t (ht.imp_right (hstranded t)), fun q hq => ?_, fun t ht => hleaving t (hstranded t ht),
    fun i hi => (h.kept i ((halive i).mp hi)).mono (htid i) le_rfl rfl id id fun j hj he => ⟨(halive j).mp hj, he⟩⟩
  dsimp only at hq
  rcases eq_or_ne u.ct s.sys.ct with hct | hct
  · rw [hct] at hq
    exact place_congr halive htid rfl rfl rfl (h.place q hq)
  · have hnot : s.building u.ct = false := by
      by_contra hb
      exact hct (h.window u.ct (.inl (Bool.eq_true_of_not_eq_false hb))).1
    obtain ⟨i, rfl⟩ := search_of_not_building hnot hq
    trivial

/-- The current thread is the only one that may be creating another, and has its stack. -/
theorem change (hsched : s.sys.sched = none) (hcoherent : Coherent v.sys) (hrunning : Running v.sys)
    (hct : v.sys.ct = s.sys.ct) (hsched' : v.sys.sched = s.sys.sched)
    (hmaking : ∀ t, t ≠ s.sys.ct → v.making t = s.making t)
    (hidle : ∀ t, v.making t ≠ none → v.sys.pc t = .idle ∧ v.sys.alive t) (hstranded : ∀ t, ¬ v.stranded t = true)
    (hplace : ∀ q, v.making s.sys.ct = some q → v.Place q) (hkept : ∀ i, v.sys.alive i → v.Kept i) : v.Sound := by
  refine ⟨hcoherent, hrunning, hidle, fun t ht => ?_, fun q hq => hplace q (hct ▸ hq),
    fun t ht => absurd ht (hstranded t), hkept⟩
  rw [hct, hsched']
  refine ⟨?_, hsched⟩
  by_contra hne
  have hb := ht.resolve_right (hstranded t)
  unfold building at hb
  rw [hmaking t hne] at hb
  exact hne (h.window t (.inl hb)).1

theorem alive_self (hsched : s.sys.sched = none) (hyields : (s.sys.pc s.sys.ct).yields = false) :
    s.sys.alive s.sys.ct := by
  have hrun := (h.running hsched).resolve_right (by rw [hyields]; nofun)
  unfold Sys.alive
  rw [show (s.sys.thread s.sys.ct).state = .running from hrun]
  nofun

theorem calm (hct : s.building s.sys.ct = false ∧ s.stranded s.sys.ct = false) (t : Fin n) :
    ¬ (s.building t = true ∨ s.stranded t = true) := by
  intro ht
  obtain ⟨rfl, -⟩ := h.window t ht
  rw [hct.1, hct.2] at ht
  rcases ht with ht | ht <;> cases ht

theorem calm_of_sched (hsched : s.sys.sched ≠ none) (t : Fin n) :
    ¬ (s.building t = true ∨ s.stranded t = true) := fun ht => hsched (h.window t ht).2

theorem not_making (hpc : s.sys.pc s.sys.ct ≠ .idle) : s.making s.sys.ct = none := by
  by_contra hne
  exact hpc (h.idle _ hne).1

theorem exitState (hsched : s.sys.sched = none) (hpc : s.sys.pc s.sys.ct = .exitState)
    (hu : Uthread.exec s.sys = some u) : Sound { s with sys := u } := by
  have hcoherent := h.coherent.exec h.running hsched hu
  have hrunning := h.running.exec h.coherent hsched hu
  have hmaking := h.not_making (by rw [hpc]; nofun)
  rw [Uthread.exec, hpc] at hu
  cases hu
  have hself :
      ¬ Sys.alive ((s.sys.goto .exitYield).setThread s.sys.ct { s.sys.self with state := .terminated }) s.sys.ct := by
    rw [Sys.alive, Sys.setThread_thread_self]
    exact not_not.mpr rfl
  have hother : ∀ t, t ≠ s.sys.ct →
      ((s.sys.goto .exitYield).setThread s.sys.ct { s.sys.self with state := .terminated }).thread t = s.sys.thread t :=
    fun t ht => Sys.setThread_thread_ne ht _
  generalize hu : (s.sys.goto .exitYield).setThread s.sys.ct { s.sys.self with state := .terminated } = u at *
  have hct : u.ct = s.sys.ct := by rw [← hu]; rfl
  have hpother : ∀ t, t ≠ s.sys.ct → u.pc t = s.sys.pc t := fun t ht => by
    rw [← hu]
    exact Sys.goto_pc_ne ht _
  have halive : ∀ t, u.alive t → t ≠ s.sys.ct ∧ s.sys.alive t := fun t ht => by
    have hne : t ≠ s.sys.ct := by
      rintro rfl
      exact hself ht
    refine ⟨hne, ?_⟩
    rwa [Sys.alive, ← hother t hne]
  refine h.change hsched hcoherent hrunning hct (by rw [← hu]; rfl) (fun _ _ => rfl) (fun t ht => ?_) (fun t ht => ?_)
    (fun q hq => ?_) fun i hi => ?_
  · have hne : t ≠ s.sys.ct := by
      rintro rfl
      exact ht hmaking
    dsimp only
    rw [hpother t hne, Sys.alive, hother t hne]
    exact h.idle t ht
  · rw [stranded_iff] at ht
    obtain ⟨hne, ha⟩ := halive t ht.2
    exact hne (h.window t (.inr (stranded_iff.mpr ⟨ht.1, ha⟩))).1
  · cases hmaking.symm.trans hq
  · obtain ⟨hne, ha⟩ := halive i hi
    exact (h.kept i ha).mono (congrArg Thread.tid (hother i hne)) le_rfl rfl id id fun j hj he => ⟨(halive j hj).2, he⟩

theorem exec (hsched : s.sys.sched = none) (hu : Uthread.exec s.sys = some u) :
    Sound { s with sys := u } := by
  by_cases hpc : s.sys.pc s.sys.ct = .exitState
  · exact h.exitState hsched hpc hu
  · have hct := (exec_steady hu).ct
    have hmaking : s.making s.sys.ct = none := by
      refine h.not_making fun hidle => ?_
      rw [Uthread.exec, hidle] at hu
      cases hu
    have hnot : ∀ t, s.building t ≠ true := fun t ht => by
      obtain ⟨rfl, -⟩ := h.window t (.inl ht)
      unfold building at ht
      rw [hmaking] at ht
      cases ht
    -- a thread without its stack has only `exit()` left
    have hlast : ∀ t, s.stranded t = true → t = u.ct ∧ u.sched = none ∧ (u.pc t).afterFree = true := fun t ht => by
      obtain ⟨rfl, hs⟩ := h.window t (.inr ht)
      have hafter := h.leaving _ ht
      cases hat : s.sys.pc s.sys.ct <;> rw [hat] at hafter hpc <;> try cases hafter
      case exitState => exact absurd rfl hpc
      case exitCount i c =>
        simp only [Pc.afterFree, Bool.and_eq_true, decide_eq_true_eq, beq_iff_eq] at hafter
        rw [Uthread.exec, hat] at hu
        dsimp only at hu
        rw [dif_neg (by omega), if_pos hafter.2] at hu
        cases hu
        refine ⟨rfl, hs, ?_⟩
        dsimp only
        rw [hat]
        simp [Pc.afterFree, hafter]
    refine h.move (h.coherent.exec h.running hsched hu) (h.running.exec h.coherent hsched hu)
      (exec_alive h.coherent hu hpc) (fun t => (exec_tid_joinOnTid hu t).1) (fun t ht => ?_) (fun t ht => ?_)
      fun t ht => (hlast t ht).2.2
    · have hne : t ≠ s.sys.ct := by
        rintro rfl
        exact ht hmaking
      rw [(exec_other hu hne).1]
      exact (h.idle t ht).1
    · exact ht.elim (fun hb => absurd hb (hnot t)) fun hst => ⟨(hlast t hst).1, (hlast t hst).2.1⟩

theorem call (hsched : s.sys.sched = none) (hpc : s.sys.pc s.sys.ct = .idle)
    (hmaking : s.making s.sys.ct = none) (c : Call) : Sound { s with sys := call s.sys c } := by
  obtain ⟨hcoherent, hrunning⟩ := h.coherent.call h.running hsched hpc c
  have hthread : ∀ t, (Uthread.call s.sys c).thread t = s.sys.thread t := fun t => by cases c <;> rfl
  have hcalm : ∀ t, ¬ (s.building t = true ∨ s.stranded t = true) := by
    refine h.calm ⟨?_, ?_⟩
    · rw [building, hmaking]
    · by_contra hst
      have hafter := h.leaving _ (Bool.eq_true_of_not_eq_false hst)
      rw [hpc] at hafter
      cases hafter
  refine h.move hcoherent hrunning (fun t => by rw [Sys.alive, hthread, Sys.alive]) (fun t => by rw [hthread])
    (fun t ht => ?_) (fun t ht => absurd ht (hcalm t)) fun t ht => absurd (.inr ht) (hcalm t)
  have hne : t ≠ s.sys.ct := by
    rintro rfl
    exact ht hmaking
  have hsame : (Uthread.call s.sys c).pc t = s.sys.pc t := by cases c <;> exact Sys.goto_pc_ne hne _
  rw [hsame]
  exact (h.idle t ht).1

theorem base {a : Act} (hok : s.Undisturbed (.base a)) (hbusy : s.busy a = false)
    (hu : Uthread.step s.sys a = some u) : Sound { s with sys := u } := by
  obtain ⟨hcoherent, hrunning⟩ := step_coherent ⟨h.coherent, h.running⟩ hu
  cases step_moves hu with
  | tick =>
    exact h.move hcoherent hrunning (fun _ => Iff.rfl) (fun _ => rfl) (fun t ht => (h.idle t ht).1) h.window h.leaving
  | leave =>
    exact h.move hcoherent hrunning (fun _ => Iff.rfl) (fun _ => rfl) (fun t ht => (h.idle t ht).1) h.window h.leaving
  | @scan i hsched =>
    have hcalm := h.calm_of_sched (by rw [hsched]; nofun)
    have hframe := chooseNextThread_rescheduled (s := s.sys) i
    refine h.move hcoherent hrunning (fun t => (hframe.shifted t).alive_iff) (fun t => (hframe.shifted t).tid)
      (fun t ht => ?_) (fun t ht => absurd ht (hcalm t))
      fun t ht => absurd (.inr ht) (hcalm t)
    rw [hframe.pc]
    exact (h.idle t ht).1
  | preempt hsched hpending =>
    have hcalm := h.calm hok
    exact h.move hcoherent hrunning (fun t => (deliver_shifted t).alive_iff) (fun t => (deliver_shifted t).tid)
      (fun t ht => (h.idle t ht).1) (fun t ht => absurd ht (hcalm t)) fun t ht => absurd (.inr ht) (hcalm t)
  | call hsched hpc =>
    exact h.call hsched hpc (Option.not_isSome_iff_eq_none.mp (by simpa [busy] using hbusy)) _
  | exec hsched hu => exact h.exec hsched hu

theorem not_stranded (hpc : s.sys.pc s.sys.ct = .idle) (t : Fin n) : ¬ s.stranded t = true := by
  intro ht
  obtain ⟨rfl, -⟩ := h.window t (.inr ht)
  have hafter := h.leaving _ ht
  rw [hpc] at hafter
  cases hafter

theorem not_freed (hpc : s.sys.pc s.sys.ct = .idle) {t : Fin n} (ht : s.sys.alive t) :
    s.freed t = false := by
  by_contra hf
  exact h.not_stranded hpc t (stranded_iff.mpr ⟨Bool.eq_true_of_not_eq_false hf, ht⟩)

theorem remake (hsched : s.sys.sched = none) (hpc : s.sys.pc s.sys.ct = .idle) {q : Option (MakePc n)}
    (hmaking : v.making = update s.making s.sys.ct q) (hcoherent : Coherent v.sys) (hct : v.sys.ct = s.sys.ct)
    (hsched' : v.sys.sched = s.sys.sched) (hpcs : v.sys.pc = s.sys.pc)
    (hthread : ∀ t, s.sys.alive t → v.sys.thread t = s.sys.thread t) (halive : ∀ t, v.sys.alive t → s.sys.alive t)
    (hnext : s.nexttid ≤ v.nexttid) (hfreed : v.freed = s.freed) (hstack : ∀ t, s.sys.alive t → v.stack t = s.stack t)
    (hheap : ∀ b, s.heap b = true → v.heap b = true) (hplace : ∀ r, q = some r → v.Place r) : v.Sound := by
  have hself := h.alive_self hsched (by rw [hpc]; rfl)
  have halive' : ∀ t, s.sys.alive t → v.sys.alive t := fun t ht => by
    unfold Sys.alive at ht ⊢
    rwa [hthread t ht]
  have hmself : v.making s.sys.ct = q := by rw [hmaking, update_self]
  have hmother : ∀ t, t ≠ s.sys.ct → v.making t = s.making t := fun t ht => by rw [hmaking, update_of_ne ht]
  refine h.change hsched hcoherent (fun _ => ?_) hct hsched' hmother (fun t ht => ?_) (fun t ht => ?_)
    (fun r hr => hplace r (hmself ▸ hr)) fun i hi => ?_
  · rw [Sys.self, hct, hthread _ hself, hpcs]
    exact h.running hsched
  · rw [hpcs]
    rcases eq_or_ne t s.sys.ct with rfl | hne
    · exact ⟨hpc, halive' _ hself⟩
    · rw [hmother t hne] at ht
      exact (h.idle t ht).imp_right (halive' t)
  · rw [stranded_iff, hfreed] at ht
    exact h.not_stranded hpc t (stranded_iff.mpr ⟨ht.1, halive t ht.2⟩)
  · have ha := halive i hi
    exact (h.kept i ha).mono (congrArg Thread.tid (hthread i ha)) hnext (hstack i ha) (fun _ => h.not_freed hpc ha)
      (hheap _) fun j hj he => ⟨halive j hj, (hstack j (halive j hj)).symm.trans he⟩

theorem writeSlot (hsched : s.sys.sched = none) (hpc : s.sys.pc s.sys.ct = .idle) {i : Fin n}
    (hi : ¬ s.sys.alive i) (x : Thread) (q : MakePc n) (hx : x.joinOnTid = none ∧ x.blockedOnSemaphore = none)
    (hstate : x.state = .terminated) (htid : ∀ j, s.sys.alive j → (s.sys.thread j).tid < x.tid)
    (hplace : FreeSlot { s.gotoMake (some q) with sys := s.sys.setThread i x } i →
      ((s.sys.setThread i x).thread i).tid = x.tid → Place { s.gotoMake (some q) with sys := s.sys.setThread i x } q) :
    Sound { s.gotoMake (some q) with sys := s.sys.setThread i x } := by
  have hthread : ∀ t, s.sys.alive t → (s.sys.setThread i x).thread t = s.sys.thread t := fun t ht =>
    Sys.setThread_thread_ne (by rintro rfl; exact hi ht) x
  have hself : (s.sys.setThread i x).thread i = x := Sys.setThread_thread_self _ _ _
  have hdead : ¬ (s.sys.setThread i x).alive i := by
    rw [Sys.alive, hself]
    exact not_not.mpr hstate
  have halive : ∀ t, (s.sys.setThread i x).alive t → s.sys.alive t := fun t ht => by
    have hne : t ≠ i := by
      rintro rfl
      exact hdead ht
    rwa [Sys.alive, Sys.setThread_thread_ne hne] at ht
  refine h.remake hsched hpc rfl ?_ rfl rfl rfl hthread halive le_rfl rfl (fun _ _ => rfl) (fun _ hb => hb) ?_
  · exact h.coherent.slot hi rfl rfl rfl (update_eq_self _ _).symm rfl (h.coherent.not_active hi) hx
      fun hne => absurd hstate hne
  · rintro r ⟨⟩
    refine hplace ⟨hdead, fun j hj => ?_⟩ (by rw [hself])
    dsimp only
    rw [hthread j (halive j hj), hself]
    exact htid j (halive j hj)

end

theorem state_of_not_alive {i : Fin n} (hi : ¬ s.sys.alive i) : (s.sys.thread i).state = .terminated := not_not.mp hi

theorem start (h : s.Sound) (hsched : s.sys.sched = none) (hpc : s.sys.pc s.sys.ct = .idle) {i : Fin n}
    (hplace : s.Place (.ready i)) : ((s.gotoMake none).start i).Sound := by
  obtain ⟨⟨hi, htid⟩, hlt, hne0, hheap, hfresh⟩ := hplace
  have hself := h.alive_self hsched (by rw [hpc]; rfl)
  have hict : i ≠ s.sys.ct := by
    rintro rfl
    exact hi hself
  have hfree := h.coherent.slot_free hi
  have hcoherent : Coherent ((s.gotoMake none).start i).sys :=
    h.coherent.slot hi rfl rfl rfl rfl rfl rfl hfree fun _ j hj => (htid j hj).ne
  have hti : ((s.gotoMake none).start i).sys.thread i = { s.sys.thread i with state := .ready } :=
    Sys.setThread_thread_self _ _ _
  have hto : ∀ j, j ≠ i → ((s.gotoMake none).start i).sys.thread j = s.sys.thread j := fun j hj =>
    Sys.setThread_thread_ne hj _
  have hmself : ((s.gotoMake none).start i).making s.sys.ct = none := update_self _ _ _
  have hmother : ∀ t, t ≠ s.sys.ct → ((s.gotoMake none).start i).making t = s.making t := fun t ht =>
    update_of_ne ht _ _
  have hpother : ∀ t, t ≠ i → ((s.gotoMake none).start i).sys.pc t = s.sys.pc t := fun t ht =>
    update_of_ne ht _ _
  have hfother : ∀ t, t ≠ i → ((s.gotoMake none).start i).freed t = s.freed t := fun t ht => update_of_ne ht _ _
  have halive : ∀ t, t ≠ i → ((s.gotoMake none).start i).sys.alive t → s.sys.alive t := fun t ht ha => by
    rwa [Sys.alive, hto t ht] at ha
  have hstack : ((s.gotoMake none).start i).stack = s.stack := rfl
  have hheap' : ((s.gotoMake none).start i).heap = s.heap := rfl
  have hct : ((s.gotoMake none).start i).sys.ct = s.sys.ct := rfl
  have hsched' : ((s.gotoMake none).start i).sys.sched = s.sys.sched := rfl
  have hnext : ((s.gotoMake none).start i).nexttid = s.nexttid := rfl
  have hfself : ((s.gotoMake none).start i).freed i = false := update_self _ _ _
  generalize (s.gotoMake none).start i = v at *
  refine h.change hsched hcoherent (fun _ => ?_) hct hsched' hmother (fun t ht => ?_) (fun t ht => ?_) (fun r hr => ?_)
    fun j hj => ?_
  · rw [Sys.self, hct, hto _ hict.symm, hpother _ hict.symm]
    exact h.running hsched
  · have htct : t ≠ s.sys.ct := by
      rintro rfl
      exact ht hmself
    rw [hmother t htct] at ht
    have hti' : t ≠ i := by
      rintro rfl
      exact hi (h.idle t ht).2
    rw [hpother t hti', Sys.alive, hto t hti']
    exact h.idle t ht
  · rw [stranded_iff] at ht
    rcases eq_or_ne t i with rfl | hne
    · cases hfself.symm.trans ht.1
    · rw [hfother t hne] at ht
      exact h.not_stranded hpc t (stranded_iff.mpr ⟨ht.1, halive t hne ht.2⟩)
  · cases hmself.symm.trans hr
  · rcases eq_or_ne j i with rfl | hji
    · have hpos := htid s.sys.ct hself
      refine ⟨?_, fun hz => ?_, fun _ _ => ?_⟩
      · rw [hti, hnext]
        exact hlt
      · rw [hti] at hz
        exact absurd hz (Nat.zero_lt_of_lt hpos).ne'
      · rw [OwnStack, hstack, hheap']
        refine ⟨hne0, hheap, fun k hk he => ?_⟩
        by_contra hkj
        exact hfresh k (halive k hkj hk) he
    · have ha := halive j hji hj
      refine (h.kept j ha).mono (congrArg Thread.tid (hto j hji)) hnext.ge (congrFun hstack j)
        (fun _ => h.not_freed hpc ha) (fun hb => by rwa [hheap']) fun k hk he => ?_
      rw [hstack] at he
      have hki : k ≠ i := by
        rintro rfl
        exact hfresh j ha he.symm
      exact ⟨halive k hki hk, he⟩

theorem execMake {p : Nat} (h : s.Sound) (hsched : s.sys.sched = none)
    (hok : (∃ i, s.making s.sys.ct = some (.stack i)) → p ≠ 0) (hv : s.execMake p = some v) : v.Sound := by
  unfold Spawn.execMake at hv
  cases hat : s.making s.sys.ct with
  | none =>
    rw [hat] at hv
    cases hv
  | some q =>
    obtain ⟨hpc, hself⟩ := h.idle s.sys.ct (by rw [hat]; nofun)
    have hplace := h.place q hat
    have hgoto : ∀ r, (∀ q, r = some q → s.Place q) → (s.gotoMake r).Sound := fun r hr =>
      h.remake hsched hpc rfl h.coherent rfl rfl rfl (fun _ _ => rfl) (fun _ ht => ht) le_rfl rfl (fun _ _ => rfl)
        (fun _ hb => hb) fun q hq => place_congr (fun _ => Iff.rfl) (fun _ => rfl) rfl rfl rfl (hr q hq)
    rw [hat] at hv
    cases q with
    | search i =>
      cases hv
      refine hgoto _ fun q hq => ?_
      split at hq
      · cases hq
        split
        · rename_i hterm
          exact not_not.mpr hterm
        · trivial
      · cases hq
    | tid i =>
      cases hv
      have hi : ¬ s.sys.alive i := hplace
      exact h.writeSlot hsched hpc hi { s.sys.thread i with tid := s.nexttid } (.count i) (h.coherent.slot_free hi)
        (state_of_not_alive hi) (fun j hj => (h.kept j hj).fresh) fun hslot heq => ⟨hslot, heq⟩
    | count i =>
      cases hv
      obtain ⟨hslot, htid⟩ := hplace
      refine h.remake hsched hpc rfl h.coherent rfl rfl rfl (fun _ _ => rfl) (fun _ ht => ht) (Nat.le_succ _) rfl
        (fun _ _ => rfl) (fun _ hb => hb) ?_
      rintro q ⟨⟩
      exact ⟨hslot, htid.trans_lt (Nat.lt_succ_self _)⟩
    | join i =>
      cases hv
      obtain ⟨⟨hi, htid⟩, hlt⟩ := hplace
      exact h.writeSlot hsched hpc hi { s.sys.thread i with joinOnTid := none } (.stack i)
        ⟨rfl, (h.coherent.slot_free hi).2⟩ (state_of_not_alive hi) htid fun hslot heq => ⟨hslot, heq.trans_lt hlt⟩
    | stack i =>
      obtain ⟨⟨hi, htid⟩, hlt⟩ := hplace
      obtain ⟨hp, ⟨⟩⟩ := Option.ite_none_left_eq_some.mp hv
      have hp0 : p ≠ 0 := hok ⟨i, hat⟩
      have hfree : s.heap p = false := by
        by_contra hb
        exact hp ⟨hp0, Bool.eq_true_of_not_eq_false hb⟩
      have hold : ∀ t, s.sys.alive t → update s.stack i p t = s.stack t := fun t ht =>
        update_of_ne (by rintro rfl; exact hi ht) _ _
      rw [if_neg hp0]
      refine h.remake hsched hpc rfl h.coherent rfl rfl rfl (fun _ _ => rfl) (fun _ ht => ht) le_rfl rfl hold
        (fun b hb => ?_) ?_
      · rcases eq_or_ne b p with rfl | hne
        · exact update_self _ _ _
        · exact (update_of_ne hne _ _).trans hb
      · rintro q ⟨⟩
        refine ⟨⟨hi, htid⟩, hlt, ?_⟩
        have hself : update s.stack i p i = p := update_self _ _ _
        refine ⟨hself.trans_ne hp0, ?_, fun j hj he => ?_⟩
        · dsimp only
          rw [hself, update_self]
        · have hj' : s.stack j = p := (hold j hj).symm.trans (he.trans hself)
          by_cases hz : (s.sys.thread j).tid = 0
          · exact hp0 (hj'.symm.trans ((h.kept j hj).first hz))
          · have hb := ((h.kept j hj).own hz (h.not_freed hpc hj)).2.1
            rw [hj', hfree] at hb
            cases hb
    | frame i k =>
      cases hv
      refine hgoto _ ?_
      rintro q ⟨⟩
      split <;> exact hplace
    | ready i =>
      cases hv
      exact h.start hsched hpc hplace

theorem create (h : s.Sound) (hsched : s.sys.sched = none) (hpc : s.sys.pc s.sys.ct = .idle) :
    (s.gotoMake (some (.search 0))).Sound := by
  refine h.remake hsched hpc rfl h.coherent rfl rfl rfl (fun _ _ => rfl) (fun _ ht => ht) le_rfl rfl (fun _ _ => rfl)
    (fun _ hb => hb) ?_
  rintro q ⟨⟩
  trivial

theorem freeStack (h : s.Sound) (hsched : s.sys.sched = none) (howes : s.owesFree = true) :
    Sound { s with
      heap := update s.heap (s.stack s.sys.ct) false
      freed := update s.freed s.sys.ct true } := by
  simp only [owesFree, Bool.and_eq_true, bne_iff_ne, ne_eq, Bool.not_eq_true'] at howes
  obtain ⟨⟨hafter, htid⟩, hfreed⟩ := howes
  have hpc : s.sys.pc s.sys.ct ≠ .idle := by
    intro hpc
    rw [hpc] at hafter
    cases hafter
  have hself : s.sys.alive s.sys.ct := by
    refine h.alive_self hsched ?_
    cases hat : s.sys.pc s.sys.ct <;> rw [hat] at hafter <;> first | rfl | cases hafter
  have hmaking := h.not_making hpc
  have hown := (h.kept s.sys.ct hself).own htid hfreed
  have hstranded : ∀ t, stranded { s with
      heap := update s.heap (s.stack s.sys.ct) false
      freed := update s.freed s.sys.ct true } t = true → t = s.sys.ct := fun t ht => by
    by_contra hne
    rw [stranded_iff] at ht
    dsimp only at ht
    rw [update_of_ne hne] at ht
    exact hne (h.window t (.inr (stranded_iff.mpr ht))).1
  refine ⟨h.coherent, h.running, h.idle, fun t ht => ?_, fun q hq => ?_, fun t ht => ?_, fun i hi => ?_⟩
  · rcases ht with ht | ht
    · exact h.window t (.inl ht)
    · exact ⟨hstranded t ht, hsched⟩
  · cases hmaking.symm.trans hq
  · rw [hstranded t ht]
    exact hafter
  · rcases eq_or_ne i s.sys.ct with rfl | hne
    · refine ⟨(h.kept _ hself).fresh, (h.kept _ hself).first, fun _ hf => ?_⟩
      cases (update_self _ _ _).symm.trans hf
    · refine (h.kept i hi).mono rfl le_rfl rfl (fun hf => ?_) (fun hb => ?_) fun j hj he => ⟨hj, he⟩
      · exact (update_of_ne hne _ _).symm.trans hf
      · exact (update_of_ne (fun he => hne (hown.2.2 i hi he)) _ _).trans hb

theorem step {a : SpawnAct} (h : s.Sound) (hok : s.Undisturbed a) (hv : s.step a = some v) : v.Sound := by
  unfold Spawn.step at hv
  cases a with
  | base a =>
    obtain ⟨hbusy, hv⟩ := Option.ite_none_left_eq_some.mp hv
    obtain ⟨u, hu, rfl⟩ := Option.map_eq_some_iff.mp hv
    exact h.base hok (Bool.eq_false_iff.mpr hbusy) hu
  | create =>
    obtain ⟨⟨hrun, hpc, -⟩, ⟨⟩⟩ := Option.ite_none_right_eq_some.mp hv
    exact h.create (sched_of_running hrun) hpc
  | makeStmt p =>
    obtain ⟨hrun, hv⟩ := Option.ite_none_right_eq_some.mp hv
    exact h.execMake (sched_of_running hrun) hok hv
  | freeStack =>
    obtain ⟨⟨hrun, howes⟩, ⟨⟩⟩ := Option.ite_none_right_eq_some.mp hv
    exact h.freeStack (sched_of_running hrun) howes

theorem addsOne (h : s.Sound) (a : SpawnAct) : s.AddsOne a := by
  rintro p v rfl hv
  obtain ⟨-, hv⟩ := Option.ite_none_right_eq_some.mp hv
  unfold Spawn.execMake at hv
  have hwrite : ∀ i x, x.state = (s.sys.thread i).state → ∀ j, (s.sys.setThread i x).alive j ↔ s.sys.alive j :=
    fun i x hx j => by
    unfold Sys.alive
    rcases eq_or_ne j i with rfl | hne
    · rw [Sys.setThread_thread_self, hx]
    · rw [Sys.setThread_thread_ne hne]
  cases hat : s.making s.sys.ct with
  | none =>
    rw [hat] at hv
    cases hv
  | some q =>
    have hplace := h.place q hat
    rw [hat] at hv
    cases q with
    | search i =>
      cases hv
      exact ⟨rfl, rfl⟩
    | tid i | join i =>
      cases hv
      exact hwrite i _ rfl
    | count i | frame i k =>
      cases hv
      exact fun _ => Iff.rfl
    | stack i =>
      obtain ⟨-, ⟨⟩⟩ := Option.ite_none_left_eq_some.mp hv
      exact fun _ => Iff.rfl
    | ready i =>
      cases hv
      refine ⟨hplace.1.1, fun j => ?_⟩
      rcases eq_or_ne j i with rfl | hne
      · refine iff_of_true ?_ (.inr rfl)
        change ((s.sys.setThread j { s.sys.thread j with state := .ready }).thread j).state ≠ .terminated
        rw [Sys.setThread_thread_self]
        nofun
      · have hsame : ((s.gotoMake none).start i).sys.thread j = s.sys.thread j := Sys.setThread_thread_ne hne _
        rw [Sys.alive, hsame]
        exact (or_iff_left hne).symm

theorem freed_step {a : SpawnAct} (hne : a ≠ .freeStack) (hfreed : ∀ t, s.freed t = false) (hv : s.step a = some v)
    (t : Fin n) : v.freed t = false := by
  unfold Spawn.step at hv
  cases a with
  | base a =>
    obtain ⟨-, hv⟩ := Option.ite_none_left_eq_some.mp hv
    obtain ⟨u, -, rfl⟩ := Option.map_eq_some_iff.mp hv
    exact hfreed t
  | create =>
    obtain ⟨-, ⟨⟩⟩ := Option.ite_none_right_eq_some.mp hv
    exact hfreed t
  | makeStmt p =>
    obtain ⟨-, hv⟩ := Option.ite_none_right_eq_some.mp hv
    unfold Spawn.execMake at hv
    split at hv
    · cases hv
    case h_6 =>
      obtain ⟨-, ⟨⟩⟩ := Option.ite_none_left_eq_some.mp hv
      exact hfreed t
    case h_8 i _ =>
      cases hv
      rcases eq_or_ne t i with rfl | hti
      · exact update_self _ _ _
      · exact (update_of_ne hti _ _).trans (hfreed t)
    all_goals
      cases hv
      exact hfreed t
  | freeStack => exact absurd rfl hne

end Sound

structure Started (s : Spawn n) : Prop where
  sys : Uthread.Started s.sys
  making : ∀ t, s.making t = none
  freed : ∀ t, s.freed t = false
  fresh : ∀ i, s.sys.alive i → (s.sys.thread i).tid < s.nexttid
  first : ∀ i, s.sys.alive i → (s.sys.thread i).tid = 0 → s.stack i = 0
  own : ∀ i, s.sys.alive i → (s.sys.thread i).tid ≠ 0 → s.OwnStack i

theorem Started.sound (h : s.Started) : s.Sound := by
  obtain ⟨hcoherent, hrunning⟩ := h.sys.coherent
  have hstranded : ∀ t, ¬ s.stranded t = true := fun t ht => by
    rw [stranded_iff, h.freed] at ht
    cases ht.1
  refine ⟨hcoherent, hrunning, fun t ht => absurd (h.making t) ht, fun t ht => ?_, fun q hq => ?_,
    fun t ht => absurd ht (hstranded t), fun i hi => ⟨h.fresh i hi, h.first i hi, fun hne _ => h.own i hi hne⟩⟩
  · rcases ht with ht | ht
    · unfold building at ht
      rw [h.making] at ht
      cases ht
    · exact absurd ht (hstranded t)
  · rw [h.making] at hq
    cases hq

/-- The property, apart from a thread that has freed its stack and is about to end. -/
structure ExclusiveUntilFreed (s : Spawn n) : Prop where
  tids : s.DistinctTids
  ownStack : ∀ i, s.sys.alive i → (s.sys.thread i).tid ≠ 0 → s.freed i = false → s.OwnStack i

end Spawn

theorem threads_exclusive {s : Spawn n} {as : List SpawnAct} (hs : s.Started)
    (hok : Along Spawn.step Spawn.Undisturbed s as) :
    Always Spawn.step Spawn.ExclusiveUntilFreed s as ∧ Along Spawn.step Spawn.AddsOne s as ∧
      (Along Spawn.step (fun _ a => a ≠ .freeStack) s as → Always Spawn.step Spawn.Exclusive s as) := by
  refine ⟨?_, ?_, fun hkeep => ?_⟩
  · exact always_of_along (I := Spawn.Sound) (fun _ _ _ h ha hv => h.step ha hv)
      (fun _ h => ⟨h.coherent.tids, fun i hi => (h.kept i hi).own⟩) hs.sound hok
  · exact along_of_along (I := Spawn.Sound) (fun _ _ _ h ha hv => h.step ha hv) (fun _ a _ h _ _ => h.addsOne a)
      hs.sound hok
  · refine always_of_along (I := fun v => v.Sound ∧ ∀ t, v.freed t = false) (fun _ _ _ h ha hv => ?_) (fun _ h => ?_)
      ⟨hs.sound, hs.freed⟩ (along_and hok hkeep)
    · exact ⟨h.1.step ha.1 hv, fun t => Spawn.Sound.freed_step ha.2 h.2 hv t⟩
    · exact ⟨h.1.coherent.tids, fun i hi hne => (h.1.kept i hi).own hne (h.2 i)⟩

def nursery : Spawn 3 where
  sys :=
    { lib := ⟨fun t =>
        ⟨if t = 2 then 0 else t, if t = 0 then .running else if t = 1 then .ready else .terminated, 0, none, none⟩,
        fun _ => -1⟩
      ct := 0
      pc := fun _ => .idle
      sched := none
      handlers := fun _ => 0
      pending := true
      alarmEnd := 5
      ticks := 0
      exited := false
      held := fun _ _ => false
      seen := ⟨fun t => ⟨t, .ready, 0, none, none⟩, fun _ => -1⟩
      ups := [] }
  making := fun _ => none
  nexttid := 2
  stack := fun t => if t = 1 then 100 else 0
  heap := fun b => b == 100
  freed := fun _ => false

theorem nursery_started : nursery.Started where
  sys := ⟨fun _ => rfl, fun _ => ⟨rfl, rfl⟩, by decide, rfl, fun _ _ => rfl, rfl⟩
  making := fun _ => rfl
  freed := fun _ => rfl
  fresh := by decide
  first := by decide
  own := by
    unfold Spawn.OwnStack
    decide

def makeStmts (k p : Nat) : List SpawnAct := .replicate k (.makeStmt p)

def createOne : List SpawnAct := .create :: makeStmts 17 200

theorem createOne_exclusive :
    (run Spawn.step nursery createOne).map
        (fun v => ((v.sys.thread 2).tid, (v.sys.thread 2).state, v.stack 2, v.nexttid)) =
        some (2, .ready, 200, 3) ∧
      Always Spawn.step Spawn.ExclusiveUntilFreed nursery createOne ∧ Along Spawn.step Spawn.AddsOne nursery createOne ∧
      (Along Spawn.step (fun _ a => a ≠ .freeStack) nursery createOne →
        Always Spawn.step Spawn.Exclusive nursery createOne) :=
  ⟨by decide +kernel, threads_exclusive nursery_started (by decide +kernel)⟩

/-- Thread 0 is preempted when it has found slot 2, and thread 1 fills the slot. -/
def createTogether : List SpawnAct :=
  List.flatten [[.create], makeStmts 3 0, switch .base, [.create], makeStmts 17 200, switch .base, switch .base,
    makeStmts 13 300]

/-- Thread 1 leaves, and has freed its stack. -/
def freeFirst : List SpawnAct :=
  List.flatten [switch .base, [.base (.call .exit)], stmts .base 8, [.freeStack]]

theorem Spawn.not_exclusive {v : Spawn n} {i : Fin n} (hi : v.sys.alive i) (htid : (v.sys.thread i).tid ≠ 0)
    (hstack : v.stack i = 0 ∨ v.heap (v.stack i) = false) : ¬ v.Exclusive := by
  intro h
  obtain ⟨hne, hheap, -⟩ := h.ownStack i hi htid
  rcases hstack with hz | hf
  · exact hne hz
  · rw [hf] at hheap
    cases hheap

/-- Two creations fill one slot, a thread runs on a stack it has freed, and one without a stack. -/
theorem threads_share :
    nursery.Started ∧
      (∃ v, run Spawn.step nursery createTogether = some v ∧ ¬ v.AddsOne (.makeStmt 300)) ∧
      (∃ v, run Spawn.step nursery freeFirst = some v ∧ ¬ v.Exclusive) ∧
      ∃ v, run Spawn.step nursery (.create :: makeStmts 17 0) = some v ∧ ¬ v.Exclusive := by
  refine ⟨nursery_started, ?_, ?_, ?_⟩
  · have hrun : (run Spawn.step nursery createTogether).map (fun v => (v.making v.sys.ct, decide (v.sys.alive 2),
        (v.step (.makeStmt 300)).isSome)) = some (some (.ready 2), true, true) := by decide +kernel
    obtain ⟨v, hv, hend⟩ := Option.map_eq_some_iff.mp hrun
    simp only [Prod.mk.injEq, decide_eq_true_eq] at hend
    obtain ⟨hmaking, halive, hsome⟩ := hend
    refine ⟨v, hv, fun h => ?_⟩
    obtain ⟨w, hw⟩ := Option.isSome_iff_exists.mp hsome
    have hadds := h 300 w rfl hw
    rw [hmaking] at hadds
    exact hadds.1 halive
  · have hrun : (run Spawn.step nursery freeFirst).map (fun v => (decide (v.sys.alive 1), (v.sys.thread 1).tid,
        v.heap (v.stack 1))) = some (true, 1, false) := by decide +kernel
    obtain ⟨v, hv, hend⟩ := Option.map_eq_some_iff.mp hrun
    simp only [Prod.mk.injEq, decide_eq_true_eq] at hend
    exact ⟨v, hv, Spawn.not_exclusive hend.1 (by rw [hend.2.1]; decide) (.inr hend.2.2)⟩
  · have hrun : (run Spawn.step nursery (.create :: makeStmts 17 0)).map (fun v => (decide (v.sys.alive 2),
        (v.sys.thread 2).tid, v.stack 2)) = some (true, 2, 0) := by decide +kernel
    obtain ⟨v, hv, hend⟩ := Option.map_eq_some_iff.mp hrun
    simp only [Prod.mk.injEq, decide_eq_true_eq] at hend
    exact ⟨v, hv, Spawn.not_exclusive hend.1 (by rw [hend.2.1]; decide) (.inl hend.2.2)⟩

end Xv6.Uthread
