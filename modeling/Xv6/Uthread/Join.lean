import Xv6.Uthread.Exit

/-!
# Join

Neither `uthread_join` nor `uthread_exit` disables the scheduler, so each can miss the other.
-/

open Function Xv6.Run

namespace Xv6.Uthread

variable {n : Nat}

/-! ## Joins and what they return -/

structure Return (n : Nat) where
  tid : Nat
  table : Fin n → Thread

structure Joins (n : Nat) where
  sys : Sys n
  target : Fin n → Nat
  returns : List (Return n)

def Pc.joining : Pc n → Bool
  | joinScan _ _ | joinCheck _ | joinMark _ | joinBlock | joinYield | joinWait => true
  | _ => false

def Act.target (a : Act) (ct : Fin n) (target : Fin n → Nat) : Fin n → Nat :=
  match a with
  | .call (.join tid) => update target ct tid
  | _ => target

namespace Joins

def step (s : Joins n) (a : Act) : Option (Joins n) :=
  (Uthread.step s.sys a).map fun u =>
    { sys := u
      target := a.target s.sys.ct s.target
      returns := if (s.sys.pc s.sys.ct).joining ∧ u.pc s.sys.ct = .idle then
          s.returns ++ [⟨s.target s.sys.ct, u.thread⟩]
        else s.returns }

end Joins

/-- `uthread_join` up to its `sigsend`, and `uthread_exit` up to `TERMINATED`. Their index may be in `eax`. -/
def Pc.window : Pc n → Bool
  | joinScan _ _ | joinCheck _ | joinMark _ | joinBlock | joinYield => true
  | exitCount _ _ | exitScan _ | exitClear _ | exitReady _ | exitState => true
  | _ => false

def Unbroken (s : Joins n) (a : Act) : Prop := a = .preempt → (s.sys.pc s.sys.ct).window = false

instance {s : Joins n} : DecidablePred fun a : Act => Unbroken s a := fun a =>
  inferInstanceAs (Decidable (a = .preempt → _))

def Pc.releasing : Pc n → Bool
  | exitScan i => 0 < i
  | exitClear _ | exitReady _ | exitState => true
  | _ => false

/-! ## The invariant -/

variable {s u : Sys n} {target : Fin n → Nat}

def Sys.WaitsForAlive (s : Sys n) (target : Fin n → Nat) (w : Fin n) : Prop :=
  ∃ t, (s.thread w).joinOnTid = some (s.thread t).tid ∧ target w = (s.thread t).tid ∧ s.alive t

/-- The thread is behind its `sigsend`. Only the current thread can be releasing it. -/
def Sys.Waits (s : Sys n) (target : Fin n → Nat) (w : Fin n) : Prop :=
  ((s.thread w).state = .blocked →
    s.WaitsForAlive target w ∨ s.pc s.ct = .exitReady w ∧ target w = s.self.tid) ∧
  ((s.thread w).state ≠ .blocked →
    (s.pc s.ct).releasing = true ∧ target w = s.self.tid ∨ ∀ j, (s.thread j).tid = target w → ¬ s.alive j)

/-- What the current thread has found out. -/
def Place (s : Sys n) (target : Fin n → Nat) : Pc n → Prop
  | .joinScan tid i => target s.ct = tid ∧ ∀ j : Fin n, j.val < i → (s.thread j).tid ≠ tid
  | .joinCheck i =>
    target s.ct = (s.thread i).tid ∧ ∀ j : Fin n, j.val < i.val → (s.thread j).tid ≠ (s.thread i).tid
  | .joinMark i => target s.ct = (s.thread i).tid ∧ s.alive i
  | .joinBlock => s.WaitsForAlive target s.ct
  | .joinYield => s.WaitsForAlive target s.ct ∧ s.self.state = .blocked
  | .exitScan i => ∀ r : Fin n, r.val < i → (s.thread r).joinOnTid ≠ some s.self.tid
  | .exitClear i | .exitReady i => ∀ r : Fin n, r.val < i.val → (s.thread r).joinOnTid ≠ some s.self.tid
  | .exitState => ∀ r, (s.thread r).joinOnTid ≠ some s.self.tid
  | _ => True

structure Joined (s : Sys n) (target : Fin n → Nat) : Prop where
  window : ∀ t, (s.pc t).window = true → t = s.ct ∧ s.sched = none
  /-- The search finds a thread before any ended thread of the same number. -/
  first : ∀ i j, s.alive j → (s.thread i).tid = (s.thread j).tid → j.val ≤ i.val
  place : Place s target (s.pc s.ct)
  waits : ∀ t, s.pc t = .joinWait → s.Waits target t

def Pc.apart (p : Pc n) : Bool := !p.joining && !p.leaving

theorem place_of_not_window {p : Pc n} (h : p.window = false) : Place s target p := by
  cases p <;> trivial

theorem window_of_releasing {p : Pc n} (h : p.releasing = true) : p.window = true := by
  cases p <;> first | rfl | cases h

theorem window_of_apart {p : Pc n} (h : p.apart = true) : p.window = false := by
  cases p <;> first | rfl | cases h

section Waits

variable {w : Fin n} (htid : ∀ t, (u.thread t).tid = (s.thread t).tid)
  (hjoin : (u.thread w).joinOnTid = (s.thread w).joinOnTid) (halive : ∀ t, u.alive t ↔ s.alive t)
include htid hjoin halive

theorem Sys.WaitsForAlive.congr (h : s.WaitsForAlive target w) : u.WaitsForAlive target w := by
  obtain ⟨t, ht1, ht2, ht3⟩ := h
  exact ⟨t, by rw [hjoin, htid, ht1], by rw [htid, ht2], (halive t).mpr ht3⟩

theorem Sys.Waits.congr {target' : Fin n → Nat} (h : s.Waits target w) (htarget : target' w = target w)
    (hblocked : (u.thread w).state = .blocked ↔ (s.thread w).state = .blocked)
    (hready : s.pc s.ct = .exitReady w → u.ct = s.ct ∧ u.pc s.ct = .exitReady w)
    (hreleasing : (s.pc s.ct).releasing = true → u.ct = s.ct ∧ (u.pc s.ct).releasing = true) : u.Waits target' w := by
  have hself : u.ct = s.ct → u.self.tid = s.self.tid := fun hct => by rw [Sys.self, hct, htid, Sys.self]
  refine ⟨fun hb => ?_, fun hb => ?_⟩
  · rcases h.1 (hblocked.mp hb) with ⟨t, h1, h2, h3⟩ | ⟨he, h2⟩
    · exact .inl ⟨t, by rw [hjoin, htid, h1], by rw [htarget, htid, h2], (halive t).mpr h3⟩
    · obtain ⟨hct, hpc⟩ := hready he
      exact .inr ⟨hct ▸ hpc, by rw [htarget, hself hct, h2]⟩
  · rcases h.2 (mt hblocked.mpr hb) with ⟨he, h2⟩ | h1
    · obtain ⟨hct, hpc⟩ := hreleasing he
      exact .inl ⟨hct ▸ hpc, by rw [htarget, hself hct, h2]⟩
    · exact .inr fun j hj hal => h1 j (by rw [← htid, hj, htarget]) ((halive j).mp hal)

end Waits

namespace Joined

section

variable {p : Pc n} {target' : Fin n → Nat} (h : Joined s target)
include h

theorem not_window {t : Fin n} (ht : t ≠ s.ct) : (s.pc t).window = false := by
  by_contra hw
  exact ht (h.window t (Bool.eq_true_of_not_eq_false hw)).1

theorem change (hct : u.ct = s.ct) (hpc : u.pc = update s.pc s.ct p)
    (htid : ∀ t, (u.thread t).tid = (s.thread t).tid) (halive : ∀ t, u.alive t → s.alive t)
    (hsched : p.window = true → u.sched = none) (hplace : Place u target' p)
    (hself : p = .joinWait → u.Waits target' s.ct) (hwaits : ∀ t, t ≠ s.ct → s.pc t = .joinWait → u.Waits target' t) :
    Joined u target' := by
  refine ⟨fun t ht => ?_, fun i j hj he => ?_, by rwa [hpc, hct, update_self], fun t ht => ?_⟩
  · rcases eq_or_ne t s.ct with rfl | hne
    · rw [hpc, update_self] at ht
      exact ⟨hct.symm, hsched ht⟩
    · rw [hpc, update_of_ne hne, h.not_window hne] at ht
      cases ht
  · rw [htid, htid] at he
    exact h.first i j (halive j hj) he
  · rcases eq_or_ne t s.ct with rfl | hne
    · rw [hpc, update_self] at ht
      exact hself ht
    · rw [hpc, update_of_ne hne] at ht
      exact hwaits t hne ht

theorem move (hct : u.ct = s.ct) (hpc : u.pc = update s.pc s.ct p) (htarget : ∀ t, t ≠ s.ct → target' t = target t)
    (htid : ∀ t, (u.thread t).tid = (s.thread t).tid)
    (hjoin : ∀ t, t ≠ s.ct → (u.thread t).joinOnTid = (s.thread t).joinOnTid) (halive : ∀ t, u.alive t ↔ s.alive t)
    (hblocked : ∀ t, t ≠ s.ct → s.pc t = .joinWait → ((u.thread t).state = .blocked ↔ (s.thread t).state = .blocked))
    (hsched : p.window = true → u.sched = none) (hready : ∀ w, s.pc s.ct ≠ .exitReady w)
    (hreleasing : (s.pc s.ct).releasing = true → p.releasing = true) (hplace : Place u target' p)
    (hself : p = .joinWait → u.Waits target' s.ct) : Joined u target' :=
  h.change hct hpc htid (fun t => (halive t).mp) hsched hplace hself fun t hne ht =>
    (h.waits t ht).congr htid (hjoin t hne) halive (htarget t hne) (hblocked t hne ht) (absurd · (hready t))
      fun hr => ⟨hct, by rw [hpc, update_self]; exact hreleasing hr⟩

theorem afterBlock {i : Fin n} (hi : i ≠ s.ct) (hin : InJoin (s.pc i) (s.thread i).state) :
    s.pc i = .joinWait ∧ (s.thread i).state = .blocked := by
  have hw := h.not_window hi
  rcases hin with hp | ⟨hp | hp, hb⟩
  · cases (congrArg Pc.window hp).symm.trans hw
  · cases (congrArg Pc.window hp).symm.trans hw
  · exact ⟨hp, hb⟩

theorem release {i : Fin n} {x : Thread} (hct : (s.pc s.ct).releasing = true) (hp : p.releasing = true)
    (hready : ∀ t, s.pc s.ct = .exitReady t → t = i) (hu : (s.goto p).setThread i x = u)
    (hx : x.tid = (s.thread i).tid) (hxalive : x.state ≠ .terminated ↔ s.alive i) (hplace : Place u target p)
    (hi : u.Waits target i) : Joined u target := by
  subst hu
  have hself : ((s.goto p).setThread i x).thread i = x := Sys.setThread_thread_self _ i x
  have hother : ∀ t, t ≠ i → ((s.goto p).setThread i x).thread t = s.thread t := fun t ht =>
    Sys.setThread_thread_ne ht x
  have htid : ∀ t, (((s.goto p).setThread i x).thread t).tid = (s.thread t).tid := fun t => by
    rcases eq_or_ne t i with rfl | ht
    · rw [hself, hx]
    · rw [hother t ht]
  have halive : ∀ t, ((s.goto p).setThread i x).alive t ↔ s.alive t := fun t => by
    rcases eq_or_ne t i with rfl | ht
    · rw [Sys.alive, hself, hxalive]
    · rw [Sys.alive, hother t ht, Sys.alive]
  refine h.change rfl rfl htid (fun t => (halive t).mp) (fun _ => (h.window s.ct (window_of_releasing hct)).2) hplace
    (by rintro rfl; cases hp) fun t _ ht => ?_
  rcases eq_or_ne t i with rfl | hti
  · exact hi
  · refine (h.waits t ht).congr htid (by rw [hother t hti]) halive rfl (by rw [hother t hti])
      (fun he => absurd (hready t he) hti) fun _ => ⟨rfl, (congrArg Pc.releasing (s.goto_pc_self p)).trans hp⟩

theorem exec_exitClear (hc : Coherent s) {i : Fin n} (hpc : s.pc s.ct = .exitClear i) :
    Joined ((s.goto (.exitReady i)).setThread i { s.thread i with joinOnTid := none }) target := by
  have hi := hc.exitClear_ne hpc
  have hjoin := hc.releasing hpc
  have hplace := h.place
  obtain ⟨hp, hb⟩ := h.afterBlock hi ((hc.fits i).join _ hjoin)
  have hself : ((s.goto (.exitReady i)).setThread i { s.thread i with joinOnTid := none }).self = s.self :=
    Sys.setThread_thread_ne hi.symm _
  rw [hpc] at hplace
  refine h.release (by rw [hpc]; rfl) rfl (by rw [hpc]; nofun) rfl rfl Iff.rfl (fun r hr => ?_)
    ⟨fun _ => .inr ⟨s.goto_pc_self _, ?_⟩, fun hn => absurd ?_ hn⟩
  · have hri : r ≠ i := by
      rintro rfl
      exact Nat.lt_irrefl _ hr
    rw [Sys.setThread_thread_ne hri, hself]
    exact hplace r hr
  · -- `ct` is about to make the thread ready
    rcases (h.waits i hp).1 hb with ⟨r, h1, h2, -⟩ | ⟨he, -⟩
    · rw [h2, hself]
      exact Option.some.inj (h1.symm.trans hjoin)
    · cases hpc.symm.trans he
  · rw [Sys.setThread_thread_self]
    exact hb

theorem exec_exitReady (hc : Coherent s) {i : Fin n} (hpc : s.pc s.ct = .exitReady i) :
    Joined ((s.goto (.exitScan (i + 1))).setThread i { s.thread i with state := .ready }) target := by
  have hi := hc.exitReady_ne hpc
  obtain ⟨hnone, hin⟩ := hc.releasing hpc
  have hplace := h.place
  obtain ⟨hp, hb⟩ := h.afterBlock hi hin
  have hself : ((s.goto (.exitScan (i + 1))).setThread i { s.thread i with state := .ready }).self = s.self :=
    Sys.setThread_thread_ne hi.symm _
  rw [hpc] at hplace
  refine h.release (by rw [hpc]; rfl) (by simp [Pc.releasing]) (fun t ht => ?_) rfl rfl
    (iff_of_true nofun (hc.alive_of_active hin.active)) (fun r hr => ?_) ⟨fun hn => ?_, fun _ => .inl ⟨?_, ?_⟩⟩
  · cases hpc.symm.trans ht
    rfl
  · rcases eq_or_ne r i with rfl | hri
    · rw [Sys.setThread_thread_self, show (s.thread r).joinOnTid = none from hnone]
      nofun
    · rw [Sys.setThread_thread_ne hri, hself]
      exact hplace r (lt_of_le_of_ne (Nat.lt_succ_iff.mp hr) fun he => hri (Fin.ext he))
  · rw [Sys.setThread_thread_self] at hn
    cases hn
  · exact (congrArg Pc.releasing (s.goto_pc_self _)).trans (by simp [Pc.releasing])
  · rcases (h.waits i hp).1 hb with ⟨r, h1, -, -⟩ | ⟨-, h2⟩
    · rw [hnone] at h1
      cases h1
    · rw [hself, h2]

theorem exec_exitState (hc : Coherent s) (hpc : s.pc s.ct = .exitState) :
    Joined ((s.goto .exitYield).setThread s.ct { s.self with state := .terminated }) target := by
  generalize hu : (s.goto .exitYield).setThread s.ct { s.self with state := .terminated } = u
  have hself : u.thread s.ct = { s.self with state := .terminated } := by rw [← hu, Sys.setThread_thread_self]
  have hother : ∀ t, t ≠ s.ct → u.thread t = s.thread t := fun t ht => by
    rw [← hu, Sys.setThread_thread_ne ht]
    rfl
  have htid : ∀ t, (u.thread t).tid = (s.thread t).tid := fun t => by
    rcases eq_or_ne t s.ct with rfl | ht
    · rw [hself, Sys.self]
    · rw [hother t ht]
  have hdead : ¬ u.alive s.ct := by
    rw [Sys.alive, hself]
    exact fun h => h rfl
  have halive : ∀ t, u.alive t → s.alive t := fun t ht => by
    rcases eq_or_ne t s.ct with rfl | hne
    · exact absurd ht hdead
    · rwa [Sys.alive, hother t hne] at ht
  have hdone := h.place
  rw [hpc] at hdone
  refine h.change (p := .exitYield) (by rw [← hu]; rfl) (by rw [← hu]; rfl) htid halive (by rintro ⟨⟩) trivial
    (by rintro ⟨⟩) fun t hne ht => ?_
  obtain ⟨h1, h2⟩ := h.waits t ht
  rw [← hother t hne] at h1 h2
  refine ⟨fun hb => ?_, fun hb => .inr fun j hj hal => ?_⟩
  · rcases h1 hb with ⟨r, hr1, hr2, hr3⟩ | ⟨he, -⟩
    · have hrne : r ≠ s.ct := by
        rintro rfl
        exact hdone t hr1
      refine .inl ⟨r, by rw [hother t hne, htid, hr1], by rw [htid, hr2], ?_⟩
      rwa [Sys.alive, hother r hrne]
    · cases hpc.symm.trans he
  · rcases h2 hb with ⟨-, htarget⟩ | hall
    · rw [htid, htarget] at hj
      obtain rfl := hc.tids j s.ct (halive j hal) (hc.alive_of_active (by rw [hpc]; rfl)) hj
      exact hdead hal
    · exact hall j (htid j ▸ hj) (halive j hal)

theorem exec_apart (hc : Coherent s) (hu : exec s = some u)
    (hpc : u.pc = update s.pc s.ct p) (hs : (s.pc s.ct).apart = true) (hp : p.apart = true) :
    Joined u target := by
  have hne : ∀ q : Pc n, q.apart = false → s.pc s.ct ≠ q := by
    rintro q hq he
    rw [he, hq] at hs
    cases hs
  have hwindow := window_of_apart hp
  refine h.move (exec_steady hu).ct hpc (fun _ _ => rfl) (fun t => (exec_tid_joinOnTid hu t).1) (fun t _ => ?_)
    (exec_alive hc hu (hne _ rfl)) (fun t hct ht => ?_) (by rw [hwindow]; nofun) (fun w => hne _ rfl) (fun hr => ?_)
    (place_of_not_window hwindow) (by rintro rfl; cases hp)
  · refine (exec_tid_joinOnTid hu t).2.resolve_right ?_
    rintro (⟨-, i, hi⟩ | hi)
    · exact hne _ rfl hi
    · exact hne _ rfl hi
  · have hr := (exec_other hu hct).2
    generalize u.thread t = x at hr ⊢
    cases hr with
    | kept | upClear | exitClear => exact Iff.rfl
    | upReady hup => cases ht.symm.trans (hc.releasing hup).2.1
    | exitReady hex => exact absurd hex (hne _ rfl)
  · cases (window_of_apart hs).symm.trans (window_of_releasing hr)

theorem exec (hc : Coherent s) (hsched : s.sched = none) (hu : exec s = some u) :
    Joined u target := by
  have halive := exec_alive hc hu
  have htid : ∀ t, (u.thread t).tid = (s.thread t).tid := fun t => (exec_tid_joinOnTid hu t).1
  have hquiet {p : Pc n} := h.exec_apart hc hu (p := p)
  have hgoto : ∀ p, (∀ w, s.pc s.ct ≠ .exitReady w) → ((s.pc s.ct).releasing = true → p.releasing = true) →
      Place (s.goto p) target p → p ≠ .joinWait → Joined (s.goto p) target := fun p h1 h2 h3 h4 =>
    h.move rfl rfl (fun _ _ => rfl) (fun _ => rfl) (fun _ _ => rfl) (fun _ => Iff.rfl) (fun _ _ _ => Iff.rfl)
      (fun _ => hsched) h1 h2 h3 (absurd · h4)
  have hplace := h.place
  cases exec_executes hu with
  | look hpc hlook =>
    rw [hpc] at hplace hgoto hquiet
    cases hlook with
    | @joinFound tid i hi he =>
      refine hgoto _ nofun nofun ⟨hplace.1.trans he, fun j hj => ?_⟩ nofun
      rw [Sys.goto_thread, Sys.goto_thread, ← he]
      exact hplace.2 j hj
    | @joinNext tid i hi hne =>
      refine hgoto _ nofun nofun ⟨hplace.1, fun j hj => ?_⟩ nofun
      rcases Nat.lt_succ_iff_lt_or_eq.mp hj with hlt | heq
      · exact hplace.2 j hlt
      · obtain rfl : j = ⟨i, hi⟩ := Fin.ext heq
        exact fun he => hne he.symm
    | joinAlive hne => exact hgoto _ nofun nofun ⟨hplace.1, hne⟩ nofun
    | joinNone | joinEnded | joinWait | exitCount => exact hgoto _ nofun nofun trivial nofun
    | exitCounted => exact hgoto _ nofun nofun (fun r hr => absurd hr (Nat.not_lt_zero _)) nofun
    | exitFound => exact hgoto _ nofun (fun _ => rfl) hplace nofun
    | @exitNext i hi hne =>
      refine hgoto _ nofun (fun _ => by simp [Pc.releasing]) (fun r hr => ?_) nofun
      rcases Nat.lt_succ_iff_lt_or_eq.mp hr with hlt | heq
      · exact hplace r hlt
      · obtain rfl : r = ⟨i, hi⟩ := Fin.ext heq
        exact hne
    | exitNone hi => exact hgoto _ nofun (fun _ => rfl) (fun r => hplace r (by omega)) nofun
    | _ => exact hquiet rfl rfl rfl
  | write hpc hwrite =>
    have hother {p : Pc n} {x : Thread} (t : Fin n) (ht : t ≠ s.ct) :
        ((s.goto p).setThread s.ct x).thread t = s.thread t := Sys.setThread_thread_ne ht _
    rw [hpc] at hplace halive hquiet
    cases hwrite with
    | @joinMark i =>
      refine h.move rfl rfl (fun _ _ => rfl) htid (fun t ht => by rw [hother t ht]) (halive nofun)
        (fun t ht _ => by rw [hother t ht]) (fun _ => hsched) (by rw [hpc]; nofun) (by rw [hpc]; nofun)
        ⟨i, ?_, ?_, ?_⟩ nofun
      · exact (congrArg Thread.joinOnTid (Sys.setThread_thread_self _ _ _)).trans (by rw [htid])
      · rw [htid]
        exact hplace.1
      · exact (halive nofun i).mpr hplace.2
    | joinBlock =>
      refine h.move rfl rfl (fun _ _ => rfl) htid (fun t ht => by rw [hother t ht]) (halive nofun)
        (fun t ht _ => by rw [hother t ht]) (fun _ => hsched) (by rw [hpc]; nofun) (by rw [hpc]; nofun) ⟨?_, ?_⟩ nofun
      · refine Sys.WaitsForAlive.congr htid ?_ (halive nofun) hplace
        exact (congrArg Thread.joinOnTid (Sys.setThread_thread_self (s.goto .joinYield) s.ct _)).trans rfl
      · exact congrArg Thread.state (Sys.setThread_thread_self (s.goto .joinYield) s.ct _)
    | exitState => exact h.exec_exitState hc hpc
    | _ => exact hquiet rfl rfl rfl
  | wake hpc hwake =>
    rw [hpc] at hquiet
    cases hwake with
    | exitClear => exact h.exec_exitClear hc hpc
    | exitReady => exact h.exec_exitReady hc hpc
    | upClear | upReady => exact hquiet rfl rfl rfl
  | set hpc hset =>
    rw [hpc] at hquiet
    cases hset <;> exact hquiet rfl rfl rfl
  | yield hpc hyield =>
    rw [hpc] at hplace halive hquiet
    cases hyield with
    | join =>
      have hshift := deliver_shifted (s := { s.goto .joinWait with pending := true, alarmEnd := 0 })
      refine h.move rfl rfl (fun _ _ => rfl) htid (fun t _ => (hshift t).joinOnTid) (halive nofun)
        (fun t _ _ => (hshift t).blocked_iff) nofun (by rw [hpc]; nofun) (by rw [hpc]; nofun) trivial fun _ =>
        ⟨fun _ => .inl (hplace.1.congr htid (hshift s.ct).joinOnTid (halive nofun)), fun hn => absurd ?_ hn⟩
      exact (hshift s.ct).blocked_iff.mpr hplace.2
    | down | sleep | exit => exact hquiet rfl rfl rfl
  | exit => exact ⟨h.window, h.first, h.place, h.waits⟩
  | freed hpc | granted hpc | downEnable hpc | upEnable hpc | downDisable hpc | upDisable hpc =>
    exact hquiet rfl (by rw [hpc]; rfl) rfl

theorem call (hsched : s.sched = none) (hpc : s.pc s.ct = .idle) (c : Call) :
    Joined (call s c) ((Act.call c).target s.ct target) := by
  have hmove : ∀ p target', (∀ t, t ≠ s.ct → target' t = target t) → Place (s.goto p) target' p → p ≠ .joinWait →
      Joined (s.goto p) target' := fun p target' h1 h2 h3 =>
    h.move rfl rfl h1 (fun _ => rfl) (fun _ _ => rfl) (fun _ => Iff.rfl) (fun _ _ _ => Iff.rfl) (fun _ => hsched)
      (by rw [hpc]; nofun) (by rw [hpc]; nofun) h2 (absurd · h3)
  cases c with
  | join tid =>
    refine hmove _ _ (fun t ht => update_of_ne ht _ _) ⟨update_self _ _ _, fun j hj => ?_⟩ nofun
    exact absurd hj (Nat.not_lt_zero _)
  | up x =>
    obtain ⟨h1, h2, h3, h4⟩ := hmove (.upTest x) target (fun _ _ => rfl) trivial nofun
    exact ⟨h1, h2, h3, h4⟩
  | down | alloc | sleep | exit => exact hmove _ _ (fun _ _ => rfl) trivial nofun

theorem shifted (hpc : u.pc = s.pc) (hshift : ∀ t, Shifted (s.thread t) (u.thread t))
    (hnone : ∀ t, (s.pc t).window = false) : Joined u target := by
  refine ⟨fun t ht => ?_, fun i j hj he => ?_, place_of_not_window (by rw [hpc, hnone]), fun t ht => ?_⟩
  · rw [hpc, hnone t] at ht
    cases ht
  · rw [(hshift i).tid, (hshift j).tid] at he
    exact h.first i j ((hshift j).alive_iff.mp hj) he
  · refine (h.waits t (hpc ▸ ht)).congr (fun t => (hshift t).tid) (hshift t).joinOnTid (fun t => (hshift t).alive_iff)
      rfl (hshift t).blocked_iff (fun he => ?_) fun he => ?_
    · cases (hnone s.ct).symm.trans (congrArg Pc.window he)
    · cases (hnone s.ct).symm.trans (window_of_releasing he)

end

theorem step {s u : Joins n} {a : Act} (h : Joined s.sys s.target) (hc : Coherent s.sys) (hok : Unbroken s a)
    (hu : s.step a = some u) : Joined u.sys u.target := by
  obtain ⟨v, hv, rfl⟩ := Option.map_eq_some_iff.mp hu
  cases step_moves hv with
  | tick | leave => exact ⟨h.window, h.first, h.place, h.waits⟩
  | scan hsched =>
    refine h.shifted (chooseNextThread_rescheduled _).pc (chooseNextThread_rescheduled _).shifted fun t => ?_
    by_contra hw
    cases hsched.symm.trans (h.window t (Bool.eq_true_of_not_eq_false hw)).2
  | preempt hsched hpending =>
    refine h.shifted rfl deliver_shifted fun t => ?_
    rcases eq_or_ne t s.sys.ct with rfl | hne
    · exact hok rfl
    · exact h.not_window hne
  | call hsched hpc => exact h.call hsched hpc _
  | exec hsched hv => exact h.exec hc hsched hv

theorem exec_returns (h : Joined s target) (hrun : Running s) (hsched : s.sched = none) (hu : Uthread.exec s = some u)
    (hjoining : (s.pc s.ct).joining = true) (hidle : u.pc s.ct = .idle) (j : Fin n)
    (hj : (u.thread j).tid = target s.ct) : (u.thread j).state = .terminated := by
  have hplace := h.place
  have hstate := (hrun hsched).resolve_right
  have hnot {p : Pc n} (hpc : u.pc = update s.pc s.ct p) (hp : p ≠ .idle) : (u.thread j).state = .terminated := by
    rw [hpc, update_self] at hidle
    exact absurd hidle hp
  cases exec_executes hu with
  | look hpc hlook =>
    rw [hpc] at hjoining hplace hstate
    cases hlook with
    | joinFound | joinNext | joinAlive => exact hnot rfl nofun
    | joinNone hi => exact absurd (hj.trans hplace.1) (hplace.2 j (by omega))
    | @joinEnded i hended =>
      by_contra hal
      have hle := h.first i j hal (hplace.1.symm.trans hj.symm)
      rcases Nat.lt_or_eq_of_le hle with hlt | heq
      · exact hplace.2 j hlt (hj.trans hplace.1)
      · obtain rfl : j = i := Fin.ext heq
        exact hal hended
    | joinWait =>
      have hrunning : (s.thread s.ct).state = .running := hstate nofun
      rcases (h.waits s.ct hpc).2 (by rw [hrunning]; nofun) with ⟨he, -⟩ | hall
      · rw [hpc] at he
        cases he
      · by_contra hal
        exact hall j hj hal
    | _ => cases hjoining
  | write hpc hwrite =>
    rw [hpc] at hjoining
    cases hwrite with
    | joinMark | joinBlock => exact hnot rfl nofun
    | _ => cases hjoining
  | yield hpc hyield =>
    rw [hpc] at hjoining
    cases hyield with
    | join => exact hnot rfl nofun
    | down | sleep | exit => cases hjoining
  | wake hpc h | set hpc h =>
    rw [hpc] at hjoining
    cases h <;> cases hjoining
  | freed hpc | granted hpc | downEnable hpc | upEnable hpc | downDisable hpc | upDisable hpc | exit hpc =>
    rw [hpc] at hjoining
    cases hjoining

theorem step_returns (h : Joined s target) (hrun : Running s) {a : Act} (hu : Uthread.step s a = some u)
    (hjoining : (s.pc s.ct).joining = true) (hidle : u.pc s.ct = .idle) (j : Fin n)
    (hj : (u.thread j).tid = target s.ct) : (u.thread j).state = .terminated := by
  have hnot : u.pc s.ct ≠ s.pc s.ct := by
    intro he
    rw [← he, hidle] at hjoining
    cases hjoining
  cases step_moves hu with
  | tick => exact absurd rfl hnot
  | scan => exact absurd (congrFun (chooseNextThread_rescheduled _).pc _) hnot
  | preempt => exact absurd rfl hnot
  | call _ hpc =>
    rw [hpc] at hjoining
    cases hjoining
  | exec hsched hu => exact h.exec_returns hrun hsched hu hjoining hidle j hj
  | leave => exact absurd rfl hnot

end Joined

/-! ## Runs -/

/-- None of the threads is in the library, and a search finds the thread that has a number. -/
structure Joins.Started (s : Joins n) : Prop where
  sys : Uthread.Started s.sys
  first : ∀ i j, s.sys.alive j → (s.sys.thread i).tid = (s.sys.thread j).tid → j.val ≤ i.val
  returns : s.returns = []

def Sys.BlockedInJoin (s : Sys n) (w : Fin n) : Prop :=
  (s.thread w).state = .blocked ∧ (s.pc w = .joinYield ∨ s.pc w = .joinWait)

/-- If the alarm never comes inside the two windows, a blocked thread waits for one that has not ended or is releasing
it, and a join returns when the other thread has ended. -/
theorem join_correct {s : Joins n} {as : List Act} (hs : s.Started) (hok : Along Joins.step Unbroken s as) :
    Always Joins.step (fun u =>
      (∀ w, u.sys.BlockedInJoin w →
        (∃ t, (u.sys.thread w).joinOnTid = some (u.sys.thread t).tid ∧ (u.sys.thread t).state ≠ .terminated) ∨
          u.sys.pc u.sys.ct = .exitReady w) ∧
      ∀ r ∈ u.returns, ∀ j, (r.table j).tid = r.tid → (r.table j).state = .terminated) s as := by
  refine always_of_along (I := fun u => (Coherent u.sys ∧ Running u.sys) ∧ Joined u.sys u.target ∧
    ∀ r ∈ u.returns, ∀ j, (r.table j).tid = r.tid → (r.table j).state = .terminated) ?_ ?_ ?_ hok
  · rintro v a w ⟨hcr, hj, hr⟩ ha hw
    have hjw := hj.step hcr.1 ha hw
    obtain ⟨x, hx, rfl⟩ := Option.map_eq_some_iff.mp hw
    refine ⟨step_coherent hcr hx, hjw, fun r hmem => ?_⟩
    dsimp only at hmem
    split at hmem
    · rename_i hret
      rcases List.mem_append.mp hmem with hold | hnew
      · exact hr r hold
      · rw [List.mem_singleton] at hnew
        subst hnew
        exact hj.step_returns hcr.2 hx hret.1 hret.2
    · exact hr r hmem
  · rintro u ⟨-, hj, hr⟩
    refine ⟨fun w ⟨hb, hp⟩ => ?_, hr⟩
    rcases hp with hp | hp
    · obtain rfl := (hj.window w (by rw [hp]; rfl)).1
      have hplace := hj.place
      rw [hp] at hplace
      obtain ⟨t, h1, -, h3⟩ := hplace.1
      exact .inl ⟨t, h1, h3⟩
    · rcases (hj.waits w hp).1 hb with ⟨t, h1, -, h3⟩ | ⟨he, -⟩
      · exact .inl ⟨t, h1, h3⟩
      · exact .inr he
  · refine ⟨hs.sys.coherent, ⟨fun t ht => ?_, hs.first, ?_, fun t ht => absurd ht (hs.sys.not_at nofun)⟩, ?_⟩
    · rw [hs.sys.idle] at ht
      cases ht
    · rw [hs.sys.idle]
      trivial
    · rw [hs.returns]
      exact fun r hr => absurd hr List.not_mem_nil

def pairJoins : Joins 2 := ⟨pair, fun _ => 0, []⟩

theorem pairJoins_started : pairJoins.Started :=
  ⟨pair_started, by decide, rfl⟩

def joinInTurn : List Act :=
  List.flatten [[.call (.join 1)], .replicate 6 .stmt, [.scan, .stmt, .call .exit], .replicate 10 .stmt,
    [.scan, .stmt, .stmt]]

theorem joinInTurn_correct :
    ∃ u, run Joins.step pairJoins joinInTurn = some u ∧ u.returns.length = 1 ∧
      ∀ r ∈ u.returns, ∀ j, (r.table j).tid = r.tid → (r.table j).state = .terminated := by
  have hrun : (run Joins.step pairJoins joinInTurn).map (fun u => u.returns.length) = some 1 := by decide +kernel
  obtain ⟨u, hu, hend⟩ := Option.map_eq_some_iff.mp hrun
  have hok : Along Joins.step Unbroken pairJoins joinInTurn := by decide +kernel
  have hlast : run Joins.step pairJoins (joinInTurn.take joinInTurn.length) = some u := by
    rw [List.take_length, hu]
  exact ⟨u, hu, hend, (join_correct pairJoins_started hok _ u hlast).2⟩

/-- The index is 0 when the alarm comes, so that `eax` does not matter. -/
def lostWakeup : List Act :=
  List.flatten [.replicate 5 .tick, [.preempt, .scan, .stmt, .call (.join 0)], .replicate 2 .stmt, .replicate 5 .tick,
    [.preempt, .scan, .stmt, .call .exit], .replicate 8 .stmt, [.scan], .replicate 3 .stmt]

def earlyReturn : List Act :=
  List.flatten [[.call (.join 1)], .replicate 6 .stmt, [.scan, .stmt, .call .exit], .replicate 6 .stmt,
    .replicate 5 .tick, [.preempt, .scan, .stmt, .stmt]]

theorem join_misses_exit :
    pairJoins.Started ∧
    (∃ u, run Joins.step pairJoins lostWakeup = some u ∧ u.sys.BlockedInJoin 1 ∧
      (u.sys.thread 1).joinOnTid = some (u.sys.thread 0).tid ∧ (u.sys.thread 0).state = .terminated) ∧
    ∃ u, run Joins.step pairJoins earlyReturn = some u ∧
      ∃ r ∈ u.returns, (r.table 1).tid = r.tid ∧ (r.table 1).state ≠ .terminated := by
  refine ⟨pairJoins_started, ?_, ?_⟩
  · have hrun : (run Joins.step pairJoins lostWakeup).map (fun u => (u.sys.thread 1, u.sys.pc 1, u.sys.thread 0)) =
        some (⟨1, .blocked, 0, none, some 0⟩, .joinYield, ⟨0, .terminated, 0, none, none⟩) := by decide +kernel
    obtain ⟨u, hu, hend⟩ := Option.map_eq_some_iff.mp hrun
    simp only [Prod.mk.injEq] at hend
    obtain ⟨h0, hpc, h1⟩ := hend
    refine ⟨u, hu, ⟨by rw [h0], .inl hpc⟩, by rw [h0, h1], by rw [h1]⟩
  · have hrun : (run Joins.step pairJoins earlyReturn).map (fun u => u.returns.map fun r => (r.tid, r.table 1)) =
        some [(1, ⟨1, .ready, 0, none, none⟩)] := by decide +kernel
    obtain ⟨u, hu, hend⟩ := Option.map_eq_some_iff.mp hrun
    have hmem : (1, (⟨1, .ready, 0, none, none⟩ : Thread)) ∈ u.returns.map fun r => (r.tid, r.table 1) := by
      rw [hend]
      exact List.mem_singleton_self _
    obtain ⟨r, hr, he⟩ := List.mem_map.mp hmem
    simp only [Prod.mk.injEq] at he
    exact ⟨u, hu, r, hr, by rw [he.1, he.2], by rw [he.2]; nofun⟩

end Xv6.Uthread
