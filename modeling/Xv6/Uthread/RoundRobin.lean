import Xv6.Uthread.Whole

/-!
# Round robin

`chooseNextThread` goes round the table from the entry after the current one, and looks at the clock anew for each.
-/

open Xv6.Run

namespace Xv6.Uthread

variable {n : Nat}

/-! ## One turn of the loop -/

def Thread.Eligible (ticks : Word) (x : Thread) : Prop :=
  x.state = .ready ∨ x.state = .sleeping ∧ x.wakeUpTime.sle ticks = true

instance (ticks : Word) (x : Thread) : Decidable (x.Eligible ticks) := inferInstanceAs (Decidable (_ ∨ _))

theorem wakeUp_ready_iff {ticks : Word} {x : Thread} : (wakeUp ticks x).state = .ready ↔ x.Eligible ticks := by
  unfold wakeUp Thread.Eligible
  split
  · rename_i h
    exact iff_of_true rfl (.inr h)
  · rename_i h
    exact ⟨.inl, fun hx => hx.resolve_right h⟩

theorem wakeUp_of_not_eligible {ticks : Word} {x : Thread} (h : ¬x.Eligible ticks) : wakeUp ticks x = x :=
  if_neg fun hx => h (.inr hx)

theorem chooseNextThread_looks {s : Sys n} (hself : s.self.state ≠ .running) (i : Nat) :
    ((s.thread (s.currLoc i)).Eligible s.ticks ∧ (chooseNextThread i s).sched = none ∧
        (chooseNextThread i s).ct = s.currLoc i) ∨
      ¬(s.thread (s.currLoc i)).Eligible s.ticks ∧
        chooseNextThread i s = { s with sched := some (if i < n then i + 1 else 1) } := by
  have hready : (wakeUp s.ticks (s.thread (s.currLoc i))).state = .ready ↔
      (s.thread (s.currLoc i)).Eligible s.ticks := wakeUp_ready_iff
  by_cases h : (s.thread (s.currLoc i)).Eligible s.ticks
  · refine .inl ⟨h, ?_⟩
    rw [chooseNextThread]
    rw [if_pos (by rwa [Sys.setThread_thread_self, hready]), switchTo, alarm_quanta]
    exact ⟨rfl, rfl⟩
  · refine .inr ⟨h, ?_⟩
    have hsame : s.setThread (s.currLoc i) (wakeUp s.ticks (s.thread (s.currLoc i))) = s := by
      rw [wakeUp_of_not_eligible h, Sys.setThread, Lib.setThread, Sys.thread, Function.update_eq_self]
    rw [wakeUp_of_not_eligible h] at hready
    rw [chooseNextThread]
    rw [hsame, if_neg (by rwa [hready]), if_neg hself]
    split <;> rfl

/-! ## The order of the entries -/

theorem currLoc_currLoc {s u : Sys n} {i : Nat} (hct : u.ct = s.currLoc i) (j : Nat) :
    u.currLoc j = s.currLoc (i + j) := by
  refine Fin.ext ?_
  simp only [Sys.currLoc, hct]
  rw [Nat.mod_add_mod, Nat.add_assoc]

theorem currLoc_congr {s u : Sys n} (hct : u.ct = s.ct) (j : Nat) : u.currLoc j = s.currLoc j :=
  Fin.ext (by simp only [Sys.currLoc, hct])

theorem currLoc_self (s : Sys n) : s.currLoc n = s.ct := by
  refine Fin.ext ?_
  simp only [Sys.currLoc, Nat.add_mod_right]
  exact Nat.mod_eq_of_lt s.ct.isLt

theorem currLoc_ne {s : Sys n} {i j : Nat} (hij : i < j) (hj : j < i + n) : s.currLoc i ≠ s.currLoc j := by
  intro h
  have h : (s.ct.val + i) % n = (s.ct.val + j) % n := Fin.ext_iff.mp h
  have hzero := Nat.sub_mod_eq_zero_of_mod_eq h.symm
  rw [Nat.add_sub_add_left, Nat.mod_eq_of_lt (by omega)] at hzero
  omega

theorem exists_currLoc {s : Sys n} (b : Fin n) (hb : b ≠ s.ct) : ∃ j, 1 ≤ j ∧ j < n ∧ s.currLoc j = b := by
  have hne : b.val ≠ s.ct.val := fun h => hb (Fin.ext h)
  have h1 := b.isLt
  have h2 := s.ct.isLt
  rcases Nat.lt_or_gt_of_ne hne with h | h
  · refine ⟨b.val + n - s.ct.val, by omega, by omega, Fin.ext ?_⟩
    simp only [Sys.currLoc]
    rw [show s.ct.val + (b.val + n - s.ct.val) = b.val + n by omega, Nat.add_mod_right, Nat.mod_eq_of_lt h1]
  · refine ⟨b.val - s.ct.val, by omega, by omega, Fin.ext ?_⟩
    simp only [Sys.currLoc]
    rw [show s.ct.val + (b.val - s.ct.val) = b.val by omega, Nat.mod_eq_of_lt h1]

/-! ## What the scheduler has seen -/

/-- The library, with the entries that the round has passed and the uptime read for each. -/
structure Rounds (n : Nat) where
  threads : Threads n
  passed : List (Thread × Word)

namespace Rounds

def sys (s : Rounds n) : Sys n := s.threads.sys

/-- The entries passed after a step to `v`. A round starts at the first entry. -/
def nextPassed (s : Rounds n) (v : Sys n) : List (Thread × Word) :=
  match s.sys.sched, v.sched with
  | some i, some j =>
    if j = i + 1 then s.passed ++ [(s.sys.thread (s.sys.currLoc i), s.sys.ticks)]
    else if j = i then s.passed
    else []
  | _, _ => []

def step (s : Rounds n) (a : ThreadsAct) : Option (Rounds n) :=
  (s.threads.step a).map fun v => ⟨v, s.nextPassed v.sys⟩

/-- The thread selected is the first of the round that is ready, or whose time had come when it was looked at. -/
def SelectsFirst (s : Rounds n) (a : ThreadsAct) : Prop :=
  ∀ v ∈ s.step a, s.sys.sched ≠ none → v.sys.sched = none →
    s.passed.length < n ∧ v.sys.ct = s.sys.currLoc (s.passed.length + 1) ∧
      (s.sys.thread v.sys.ct).Eligible s.sys.ticks ∧
      ∀ (j : Nat) x uptime, s.passed[j]? = some (x, uptime) → x = s.sys.thread (s.sys.currLoc (j + 1)) ∧
        ¬x.Eligible uptime

structure Looking (s : Rounds n) : Prop where
  self : s.sys.sched ≠ none → s.sys.self.state ≠ .running
  place : ∀ i, s.sys.sched = some i → i = s.passed.length + 1 ∧ i ≤ n
  passed : s.sys.sched ≠ none → ∀ (j : Nat) x uptime, s.passed[j]? = some (x, uptime) →
    x = s.sys.thread (s.sys.currLoc (j + 1)) ∧ ¬x.Eligible uptime

end Rounds

theorem deliver_self (s : Sys n) : (deliver s).self.state ≠ .running := by
  have hself : (deliver s).self = { s.self with state := if s.self.state = .running then .ready else s.self.state } :=
    Sys.setThread_thread_self _ _ _
  rw [hself]
  dsimp only
  split
  · nofun
  · assumption

inductive Schedules (s u : Sys n) : Prop where
  /-- Threads run, before and after. -/
  | runs (hs : s.sched = none) (hu : u.sched = none) (hct : u.ct = s.ct)
  | activates (hs : s.sched = none) (hu : u.sched = some 1) (hct : u.ct = s.ct) (hself : u.self.state ≠ .running)
  /-- Time may pass. -/
  | waits (hsched : u.sched = s.sched) (hct : u.ct = s.ct) (hthread : u.thread = s.thread)
  | passes {i : Nat} (hs : s.sched = some i) (hnot : ¬(s.thread (s.currLoc i)).Eligible s.ticks)
    (hu : u.sched = some (if i < n then i + 1 else 1)) (hct : u.ct = s.ct) (hthread : u.thread = s.thread)
  | selects {i : Nat} (hs : s.sched = some i) (helig : (s.thread (s.currLoc i)).Eligible s.ticks) (hu : u.sched = none)
    (hct : u.ct = s.currLoc i)

theorem step_schedules {s u : Sys n} {b : Act} (hself : s.sched ≠ none → s.self.state ≠ .running)
    (hu : step s b = some u) : Schedules s u := by
  cases step_moves hu with
  | tick => exact .waits rfl rfl rfl
  | @scan i hsched =>
    rcases chooseNextThread_looks (hself (by rw [hsched]; nofun)) i with ⟨helig, hs, hct⟩ | ⟨hnot, heq⟩
    · exact .selects hsched helig hs hct
    · rw [heq]
      exact .passes hsched hnot rfl rfl rfl
  | preempt hsched => exact .activates hsched rfl rfl (deliver_self s)
  | @call c hsched => cases c <;> exact .runs hsched hsched rfl
  | exec hsched hexec =>
    rcases exec_sched hexec with ⟨p, -, rfl⟩ | hsame
    · exact .activates hsched rfl rfl (deliver_self _)
    · exact .runs hsched (hsame.trans hsched) (exec_steady hexec).ct
  | leave hsched => exact .runs hsched hsched rfl

theorem Threads.step_schedules {s v : Threads n} {a : ThreadsAct} (hat : s.spawn.AtCreate)
    (hself : s.sys.sched ≠ none → s.sys.self.state ≠ .running) (hv : s.step a = some v) : Schedules s.sys v.sys := by
  cases step_moves hv with
  | base hbusy hw hu => exact Uthread.step_schedules hself hu
  | makeStmt hfree hsched hw hmake =>
    obtain ⟨hquiet, -⟩ := Spawn.execMake_quiet hat hmake
    exact .runs hsched (hquiet.sched.trans hsched) hquiet.ct
  | @freeStack w hfree hw hsys hmaking =>
    rw [show Threads.sys ⟨w, s.freeing⟩ = s.sys from hsys]
    exact .waits rfl rfl rfl
  | create | free => exact .waits rfl rfl rfl
  | freeStmt hsched hexec =>
    unfold Life.execFree at hexec
    split at hexec <;> cases hexec
    all_goals exact .runs hsched hsched rfl

namespace Rounds

variable {s : Rounds n} {w : Threads n}

theorem nextPassed_of_none (h : s.sys.sched = none) (u : Sys n) : s.nextPassed u = [] := by
  rw [nextPassed, h]

theorem nextPassed_of_some {i j : Nat} {u : Sys n} (hs : s.sys.sched = some i) (hu : u.sched = some j) :
    s.nextPassed u = if j = i + 1 then s.passed ++ [(s.sys.thread (s.sys.currLoc i), s.sys.ticks)]
      else if j = i then s.passed else [] := by
  rw [nextPassed, hs, hu]

theorem Looking.same (h : s.Looking) {i : Nat} (hs : s.sys.sched = some i) (hu : w.sys.sched = some i)
    (hct : w.sys.ct = s.sys.ct) (hthread : w.sys.thread = s.sys.thread) : Looking ⟨w, s.passed⟩ := by
  have hsome : s.sys.sched ≠ none := by rw [hs]; nofun
  refine ⟨fun _ => ?_, fun j hj => ?_, fun _ j x uptime hj => ?_⟩
  · have hself : w.sys.self = s.sys.self := by rw [Sys.self, Sys.self, hct, hthread]
    exact hself ▸ h.self hsome
  · obtain rfl : i = j := Option.some.inj (hu.symm.trans hj)
    exact h.place i hs
  · have := h.passed hsome j x uptime hj
    rwa [← currLoc_congr hct, ← hthread] at this

theorem Looking.pass (h : s.Looking) {i : Nat} (hs : s.sys.sched = some i) (hu : w.sys.sched = some (i + 1))
    (hct : w.sys.ct = s.sys.ct) (hthread : w.sys.thread = s.sys.thread) (hi : i < n)
    (hnot : ¬(s.sys.thread (s.sys.currLoc i)).Eligible s.sys.ticks) :
    Looking ⟨w, s.passed ++ [(s.sys.thread (s.sys.currLoc i), s.sys.ticks)]⟩ := by
  obtain ⟨hplace, -⟩ := h.place i hs
  have hsome : s.sys.sched ≠ none := by rw [hs]; nofun
  refine ⟨fun _ => ?_, fun j hj => ?_, fun _ j x uptime hj => ?_⟩
  · have hself : w.sys.self = s.sys.self := by rw [Sys.self, Sys.self, hct, hthread]
    exact hself ▸ h.self hsome
  · obtain rfl : i + 1 = j := Option.some.inj (hu.symm.trans hj)
    simp only [List.length_append, List.length_singleton]
    exact ⟨by rw [← hplace], hi⟩
  · change x = w.sys.thread (w.sys.currLoc (j + 1)) ∧ _
    rw [currLoc_congr hct, hthread]
    simp only [List.getElem?_append, List.getElem?_singleton] at hj
    split_ifs at hj with hold hnew
    · exact h.passed hsome j x uptime hj
    · cases hj
      rw [show j + 1 = i by omega]
      exact ⟨rfl, hnot⟩

theorem looking_of_start {l : List (Thread × Word)} (hl : l = [])
    (hself : w.sys.sched ≠ none → w.sys.self.state ≠ .running)
    (hsched : ∀ i, w.sys.sched = some i → i = 1) : Looking ⟨w, l⟩ := by
  subst hl
  refine ⟨hself, fun i hi => ?_, fun _ j x uptime hj => by cases hj⟩
  obtain rfl := hsched i hi
  exact ⟨rfl, Nat.one_le_of_lt w.sys.ct.isLt⟩

theorem Looking.next (h : s.Looking) (hw : Schedules s.sys w.sys) : Looking ⟨w, s.nextPassed w.sys⟩ := by
  have hstop (hl : s.nextPassed w.sys = []) (hu : w.sys.sched = none) : Looking ⟨w, s.nextPassed w.sys⟩ := by
    refine looking_of_start hl (fun hne => absurd hu hne) fun i hi => ?_
    rw [hu] at hi
    cases hi
  cases hw with
  | runs hs hu => exact hstop (nextPassed_of_none hs _) hu
  | activates hs hu hct hself =>
    refine looking_of_start (nextPassed_of_none hs _) (fun _ => hself) fun i hi => ?_
    rw [hu] at hi
    cases hi
    rfl
  | waits hsched hct hthread =>
    cases hs : s.sys.sched with
    | none => exact hstop (nextPassed_of_none hs _) (hsched.trans hs)
    | some i =>
      rw [hs] at hsched
      rw [nextPassed_of_some hs hsched, if_neg (Nat.ne_add_one i), if_pos rfl]
      exact h.same hs hsched hct hthread
  | @passes i hs hnot hu hct hthread =>
    obtain ⟨hplace, hle⟩ := h.place i hs
    have hself : w.sys.self = s.sys.self := by rw [Sys.self, Sys.self, hct, hthread]
    rw [nextPassed_of_some hs hu]
    by_cases hi : i < n
    · rw [if_pos hi] at hu ⊢
      rw [if_pos rfl]
      exact h.pass hs hu hct hthread hi hnot
    · -- the round is over, and the next one starts
      rw [if_neg hi] at hu ⊢
      refine looking_of_start ?_ (fun _ => hself ▸ h.self (by simp [hs])) fun j hj => ?_
      · split_ifs with h1 h2
        · omega
        · exact List.length_eq_zero_iff.mp (by omega)
        · rfl
      · rw [hu] at hj
        cases hj
        rfl
  | selects hs helig hu =>
    refine hstop ?_ hu
    rw [nextPassed, hs, hu]

structure Sound (s : Rounds n) : Prop where
  looking : s.Looking
  kept : s.threads.Kept

theorem Sound.schedules (h : s.Sound) {a : ThreadsAct} (hw : s.threads.step a = some w) : Schedules s.sys w.sys :=
  Threads.step_schedules h.kept.atCreate h.looking.self hw

theorem Sound.next (h : s.Sound) {a : ThreadsAct} (hw : s.threads.step a = some w) : Sound ⟨w, s.nextPassed w.sys⟩ :=
  ⟨h.looking.next (h.schedules hw), h.kept.step hw⟩

theorem Sound.selectsFirst (h : s.Sound) (a : ThreadsAct) : s.SelectsFirst a := by
  intro v hv hsched hnone
  obtain ⟨w, hw, rfl⟩ := Option.map_eq_some_iff.mp hv
  change w.sys.sched = none at hnone
  cases h.schedules hw with
  | runs hs => exact absurd hs hsched
  | activates hs => exact absurd hs hsched
  | waits hsame => exact absurd (hsame ▸ hnone) hsched
  | passes hs hnot hu =>
    rw [hnone] at hu
    cases hu
  | @selects i hs helig hu hct =>
    obtain ⟨hplace, hle⟩ := h.looking.place i hs
    have hct : w.sys.ct = s.sys.currLoc i := hct
    refine ⟨by omega, ?_, ?_, h.looking.passed hsched⟩
    · rw [← hplace]
      exact hct
    · change (s.sys.thread w.sys.ct).Eligible _
      rw [hct]
      exact helig

end Rounds

/-! ## Turns -/

inductive Turn (n : Nat) where
  | activation (ready : List (Fin n))
  | selection (c : Fin n)
deriving DecidableEq

def turn (s u : Sys n) : Option (Turn n) :=
  match s.sched, u.sched with
  | none, some _ => some (.activation ((List.finRange n).filter fun t => (u.thread t).state = .ready))
  | some _, none => some (.selection u.ct)
  | _, _ => none

def turns (s : Threads n) : List ThreadsAct → List (Turn n)
  | [] => []
  | a :: as =>
    match s.step a with
    | none => []
    | some w => (turn s.sys w.sys).toList ++ turns w as

def Ahead (s : Sys n) (a b : Fin n) : Prop := ∃ j k, 1 ≤ j ∧ j < k ∧ k ≤ n ∧ s.currLoc j = b ∧ s.currLoc k = a

theorem Ahead.congr {s u : Sys n} {a b : Fin n} (h : Ahead s a b) (hct : u.ct = s.ct) : Ahead u a b := by
  obtain ⟨j, k, h1, h2, h3, hb, ha⟩ := h
  exact ⟨j, k, h1, h2, h3, by rw [currLoc_congr hct, hb], by rw [currLoc_congr hct, ha]⟩

theorem ahead_of_self {s : Sys n} {b : Fin n} (h : b ≠ s.ct) : Ahead s s.ct b := by
  obtain ⟨j, h1, hj, hb⟩ := exists_currLoc b h
  exact ⟨j, n, h1, hj, le_rfl, hb, currLoc_self s⟩

namespace Rounds.Sound

variable {s : Rounds n} {w : Threads n}

theorem le_of_ready (h : s.Sound) {i j : Nat} (hs : s.sys.sched = some i) (h1 : 1 ≤ j)
    (hj : (s.sys.thread (s.sys.currLoc j)).state = .ready) : i ≤ j := by
  by_contra hlt
  obtain ⟨hplace, -⟩ := h.looking.place i hs
  have hget : s.passed[j - 1]? = some s.passed[j - 1] := List.getElem?_eq_getElem (by omega)
  obtain ⟨hx, hnot⟩ := h.looking.passed (by rw [hs]; nofun) (j - 1) _ _ hget
  rw [show j - 1 + 1 = j by omega] at hx
  exact hnot (.inl (by rw [hx, hj]))

theorem selection (h : s.Sound) {i : Nat} {a b : Fin n} (hs : s.sys.sched = some i) (hct : w.sys.ct = s.sys.currLoc i)
    (hahead : Ahead s.sys a b) (hready : (s.sys.thread b).state = .ready) :
    w.sys.ct ≠ a ∧ (w.sys.ct = b ∨ Ahead w.sys a b) := by
  obtain ⟨j, k, h1, hjk, hk, rfl, rfl⟩ := hahead
  obtain ⟨hplace, hle⟩ := h.looking.place i hs
  have hij : i ≤ j := h.le_of_ready hs h1 hready
  rw [hct]
  refine ⟨currLoc_ne (by omega) (by omega), ?_⟩
  rcases Nat.lt_or_eq_of_le hij with hlt | rfl
  · refine .inr ⟨j - i, k - i, by omega, by omega, by omega, ?_, ?_⟩
    · rw [currLoc_currLoc hct, Nat.add_sub_cancel' hij]
    · rw [currLoc_currLoc hct, Nat.add_sub_cancel' (by omega)]
  · exact .inl rfl

theorem selected_before (h : s.Sound) {as : List ThreadsAct} {a b : Fin n} {between after : List (Turn n)}
    (hturns : turns s.threads as = between ++ .selection a :: after) (hahead : Ahead s.sys a b)
    (hready : s.sys.sched ≠ none → (s.sys.thread b).state = .ready)
    (hall : ∀ ready, .activation ready ∈ between → b ∈ ready) : .selection b ∈ between := by
  -- along the run, from one thing that the scheduler does to the next
  induction as generalizing s between with
  | nil => exact absurd hturns (by simp [turns])
  | cons x as ih =>
    rw [turns] at hturns
    cases hw : s.threads.step x with
    | none =>
      rw [hw] at hturns
      exact absurd hturns (by simp)
    | some w =>
      rw [hw] at hturns
      dsimp only at hturns
      have hnext := h.next hw
      cases h.schedules hw with
      | runs hs hu hct =>
        rw [turn, show s.threads.sys.sched = none from hs, hu] at hturns
        exact ih hnext hturns (hahead.congr hct) (fun hne => absurd hu hne) hall
      | activates hs hu hct =>
        rw [turn, show s.threads.sys.sched = none from hs, hu] at hturns
        cases between with
        | nil => cases hturns
        | cons e between =>
          simp only [Option.toList_some, List.cons_append, List.nil_append, List.cons.injEq] at hturns
          obtain ⟨rfl, hturns⟩ := hturns
          have hb := hall _ List.mem_cons_self
          rw [List.mem_filter, decide_eq_true_eq] at hb
          exact List.mem_cons_of_mem _ (ih hnext hturns (hahead.congr hct) (fun _ => hb.2) fun ready hr =>
            hall ready (List.mem_cons_of_mem _ hr))
      | waits hsched hct hthread =>
        have hnone : turn s.threads.sys w.sys = none := by
          rw [turn, hsched, show s.threads.sys.sched = s.sys.sched from rfl]
          cases s.sys.sched <;> rfl
        rw [hnone] at hturns
        refine ih hnext hturns (hahead.congr hct) (fun hne => ?_) hall
        change (w.sys.thread b).state = _
        rw [hthread]
        exact hready fun hs => hne (hsched.trans hs)
      | passes hs hnot hu hct hthread =>
        have hnone : turn s.threads.sys w.sys = none := by rw [turn, hu, show s.threads.sys.sched = _ from hs]
        rw [hnone] at hturns
        refine ih hnext hturns (hahead.congr hct) (fun _ => ?_) hall
        change (w.sys.thread b).state = _
        rw [hthread]
        exact hready (by rw [hs]; nofun)
      | selects hs helig hu hct =>
        obtain ⟨hne, hor⟩ := h.selection hs hct hahead (hready (by rw [hs]; nofun))
        rw [turn, hu, show s.threads.sys.sched = _ from hs] at hturns
        cases between with
        | nil =>
          simp only [Option.toList_some, List.cons_append, List.nil_append, List.cons.injEq,
            Turn.selection.injEq] at hturns
          exact absurd hturns.1 hne
        | cons e between =>
          simp only [Option.toList_some, List.cons_append, List.nil_append, List.cons.injEq] at hturns
          obtain ⟨rfl, hturns⟩ := hturns
          rcases hor with rfl | hahead
          · exact List.mem_cons_self
          · exact List.mem_cons_of_mem _ (ih hnext hturns hahead (fun hne => absurd hu hne) fun ready hr =>
              hall ready (List.mem_cons_of_mem _ hr))

theorem after_selection (h : s.Sound) {as : List ThreadsAct} {a : Fin n} {before rest : List (Turn n)}
    (hturns : turns s.threads as = before ++ .selection a :: rest) :
    ∃ (r : Rounds n) (bs : List ThreadsAct), r.Sound ∧ r.sys.ct = a ∧ r.sys.sched = none ∧
    turns r.threads bs = rest := by
  induction as generalizing s before with
  | nil => exact absurd hturns (by simp [turns])
  | cons x as ih =>
    rw [turns] at hturns
    cases hw : s.threads.step x with
    | none =>
      rw [hw] at hturns
      exact absurd hturns (by simp)
    | some w =>
      rw [hw] at hturns
      dsimp only at hturns
      have hnext := h.next hw
      cases hturn : turn s.threads.sys w.sys with
      | none =>
        rw [hturn] at hturns
        exact ih hnext hturns
      | some e =>
        rw [hturn, Option.toList_some, List.singleton_append] at hturns
        cases before with
        | cons e' before =>
          rw [List.cons_append, List.cons.injEq] at hturns
          exact ih hnext hturns.2
        | nil =>
          rw [List.nil_append, List.cons.injEq] at hturns
          obtain ⟨rfl, hturns⟩ := hturns
          refine ⟨_, as, hnext, ?_, ?_, hturns⟩
          all_goals
            unfold turn at hturn
            split at hturn
            · cases hturn
            · rename_i hu
              cases hturn
              first | rfl | exact hu
            · cases hturn

end Rounds.Sound

theorem Threads.Initialized.rounds {s : Threads n} (h : s.Initialized) : Rounds.Sound ⟨s, []⟩ := by
  obtain ⟨hn, v, hs, -⟩ := id h
  have hsys : s.sys = (uthreadInit hn v).sys := congrArg Spawn.sys hs
  refine ⟨Rounds.looking_of_start rfl (fun _ => ?_) fun i hi => ?_, h.kept⟩
  · rw [hsys]
    exact deliver_self _
  · rw [hsys] at hi
    cases hi
    rfl

/-- Between two selections of a thread every other thread that was ready throughout is selected. The scheduler
selects the first entry, from the next one round to the current one, that is ready or whose time has come. -/
theorem round_robin {s : Threads n} {as : List ThreadsAct} (hinit : s.Initialized) :
    (∀ a before between after, turns s as = before ++ .selection a :: (between ++ .selection a :: after) →
      ∀ b, b ≠ a → (∀ ready, Turn.activation ready ∈ between → b ∈ ready) → Turn.selection b ∈ between) ∧
    Along Rounds.step Rounds.SelectsFirst ⟨s, []⟩ as ∧ ∀ u : Sys n, u.currLoc n = u.ct := by
  refine ⟨fun a before between after hturns b hb hall => ?_, ?_, currLoc_self⟩
  · obtain ⟨r, bs, hr, rfl, hsched, hrest⟩ := hinit.rounds.after_selection hturns
    exact hr.selected_before hrest (ahead_of_self hb) (fun hne => absurd hsched hne) hall
  · refine along_of_invariant (I := Rounds.Sound) (fun s a t h ht => ?_)
      (fun s a _ h _ => h.selectsFirst a) hinit.rounds
    obtain ⟨w, hw, rfl⟩ := Option.map_eq_some_iff.mp ht
    exact h.next hw

def takeTurns : List ThreadsAct :=
  List.flatten [initScans, [.lib .stmt, .spawn .create], .replicate 16 (.spawn (.makeStmt 8)), switch .lib,
    .replicate 5 (.lib .tick), [.lib .preempt, .lib .scan]]

theorem takeTurns_fair : turns newThreads takeTurns =
      [.selection 0, .activation [0, 1], .selection 1, .activation [0, 1], .selection 0] ∧
    (Turn.selection 1 : Turn 2) ∈ [Turn.activation [0, 1], .selection 1, .activation [0, 1]] ∧
    Along Rounds.step Rounds.SelectsFirst ⟨newThreads, []⟩ takeTurns := by
  have hturns : turns newThreads takeTurns =
      [.selection 0, .activation [0, 1], .selection 1, .activation [0, 1], .selection 0] := by decide +kernel
  obtain ⟨hfair, hfirst, -⟩ := @round_robin 2 newThreads takeTurns newThreads_initialized
  refine ⟨hturns, hfair 0 [] [.activation [0, 1], .selection 1, .activation [0, 1]] [] hturns 1 (by decide)
    fun ready hready => ?_, hfirst⟩
  simp only [List.mem_cons, Turn.activation.injEq, reduceCtorEq, List.not_mem_nil, or_false, false_or,
    or_self] at hready
  rw [hready]
  decide

end Xv6.Uthread
