import Xv6.Ptable.Spec

/-!
# Everything that a step can be
-/

namespace Xv6.Ptable

variable {C : Type} {n : Nat} {s t : Sys C n} {c : C} {p : Fin n}

@[simp] theorem setState_eq (p : Fin n) (x : ProcState) :
    s.setState p x = s.setProc p { s.proc p with state := x } := rfl

@[simp] theorem release_eq (p : Fin n) : s.release p = { s.setMode p .go with lock := none } := rfl

structure Wakes (chan : Option (Chan n)) (s t : Sys C n) : Prop where
  rest : t = { s with proc := t.proc }
  proc : ∀ q, t.proc q = { s.proc q with state := (t.proc q).state }
  state : ∀ q, (t.proc q).state = (s.proc q).state ∨
    ((s.proc q).state = .sleeping ∧ (s.proc q).chan = chan ∧ (t.proc q).state = .runnable)
  woken : ∀ q, (t.proc q).state = .sleeping → (s.proc q).chan ≠ chan

theorem wakeup1_wakes (chan : Option (Chan n)) (s : Sys C n) : Wakes chan s (wakeup1 chan s) := by
  refine ⟨rfl, fun q => ?_, fun q => ?_, fun q => ?_⟩ <;> simp only [wakeup1] <;> split
  · rfl
  · rfl
  · rename_i h
    exact .inr ⟨h.1, h.2, rfl⟩
  · exact .inl rfl
  · exact nofun
  · rename_i h
    exact fun hstate hchan => h ⟨hstate, hchan⟩

structure Passes (p : Fin n) (l : List (Fin n)) (s t : Sys C n) : Prop where
  rest : t = { s with proc := t.proc }
  proc : ∀ q, t.proc q = { s.proc q with state := (t.proc q).state, parent := (t.proc q).parent }
  parent : ∀ q, (t.proc q).parent =
    if q ∈ l ∧ (s.proc q).parent = some p then some s.initproc else (s.proc q).parent
  state : ∀ q, (t.proc q).state = (s.proc q).state ∨
    ((s.proc q).state = .sleeping ∧ (s.proc q).chan = some (.proc s.initproc) ∧ (t.proc q).state = .runnable)
  woken : ∀ q, (t.proc q).state = .sleeping → (s.proc q).chan = some (.proc s.initproc) →
    ∀ r ∈ l, (s.proc r).parent = some p → (s.proc r).state ≠ .zombie

theorem abandon_passes (p q : Fin n) (s : Sys C n) : Passes p [q] s (abandon p q s) := by
  have hproc : (abandon p q s).proc = fun r =>
      { s.proc r with
        parent := if r = q ∧ (s.proc q).parent = some p then some s.initproc else (s.proc r).parent
        state := if (s.proc q).parent = some p ∧ (s.proc q).state = .zombie ∧ (s.proc r).state = .sleeping ∧
            (s.proc r).chan = some (.proc s.initproc) then .runnable else (s.proc r).state } := by
    funext r
    by_cases hparent : (s.proc q).parent = some p
    · by_cases hr : r = q <;> by_cases hzombie : (s.proc q).state = .zombie <;>
        simp [abandon, wakeup1, hparent, hr, hzombie]
      split <;> rfl
    · simp [abandon, hparent]
  refine ⟨?_, ?_, ?_, ?_, ?_⟩
  · unfold abandon
    dsimp only
    split_ifs <;> rfl
  all_goals rw [hproc]; grind

theorem Passes.trans {p : Fin n} {l l' : List (Fin n)} {u : Sys C n} (h : Passes p l s t) (h' : Passes p l' t u) :
    Passes p (l ++ l') s u := by
  have hinit : t.initproc = s.initproc := by rw [h.rest]
  have hchan (q) : (t.proc q).chan = (s.proc q).chan := by rw [h.proc q]
  have hparent (q) := h.parent q
  refine ⟨?_, fun q => ?_, fun q => ?_, fun q => ?_, fun q => ?_⟩
  · rw [h'.rest, h.rest]
  · rw [h'.proc q, h.proc q]
  · have := h'.parent q
    grind
  · have := h.state q
    have := h'.state q
    grind
  · intro hstate hsleep r hr
    have := h.state q
    have := h'.state q
    have := h.woken q
    have := h'.woken q hstate
    have := h.state r
    grind

theorem foldl_passes (p : Fin n) (l : List (Fin n)) (s : Sys C n) :
    Passes p l s (l.foldl (fun s q => abandon p q s) s) := by
  induction l generalizing s with
  | nil => exact ⟨rfl, fun _ => rfl, fun q => (if_neg (by simp)).symm, fun _ => .inl rfl, fun _ _ _ _ hr => nomatch hr⟩
  | cons q l ih => exact (abandon_passes p q s).trans (ih (abandon p q s))

structure Exits (c : C) (p : Fin n) (s t : Sys C n) : Prop where
  rest : t = { s with
    proc := t.proc, mode := Function.update s.mode p (.sched .exit), lock := some c,
    exits := s.exits ++ [(s.proc p).pid] }
  proc : ∀ q, t.proc q = { s.proc q with state := (t.proc q).state, parent := (t.proc q).parent }
  parent : ∀ q, (t.proc q).parent = if (s.proc q).parent = some p then some s.initproc else (s.proc q).parent
  zombie : (t.proc p).state = .zombie
  state : ∀ q, q ≠ p → (t.proc q).state = (s.proc q).state ∨
    (s.proc q).state = .sleeping ∧ (t.proc q).state = .runnable
  woken : ∀ q, q ≠ p → (t.proc q).state = .sleeping → (s.proc q).chan ≠ (s.proc p).parent.map .proc ∧
    ((s.proc q).chan = some (.proc s.initproc) → ∀ r, (s.proc r).parent = some p → (s.proc r).state ≠ .zombie)

theorem exitLocked_exits (c : C) (p : Fin n) (s : Sys C n) : Exits c p s (exitLocked c p s) := by
  let u := wakeup1 ((s.proc p).parent.map .proc) s
  have hu : Wakes ((s.proc p).parent.map .proc) s u := wakeup1_wakes _ s
  let v := (List.finRange n).foldl (fun s q => abandon p q s) u
  have hv : Passes p (List.finRange n) u v := foldl_passes p _ u
  have hparent (q) : (u.proc q).parent = (s.proc q).parent := by rw [hu.proc q]
  have hchan (q) : (u.proc q).chan = (s.proc q).chan := by rw [hu.proc q]
  have hpid (q) : (v.proc q).pid = (s.proc q).pid := by rw [hv.proc q, hu.proc q]
  have hv' (q) : v.proc q = { s.proc q with state := (v.proc q).state, parent := (v.proc q).parent } := by
    rw [hv.proc q, hu.proc q]
  have ht : (exitLocked c p s).proc = Function.update v.proc p { v.proc p with state := .zombie } := rfl
  refine ⟨?_, fun q => ?_, fun q => ?_, ?_, fun q hq => ?_, fun q hq => ?_⟩
  · have hrest : v = { s with proc := v.proc } := by rw [hv.rest, hu.rest]
    change { (v.setState p .zombie).setMode p (.sched .exit) with
      lock := some c, exits := v.exits ++ [(v.proc p).pid] } = _
    rw [hpid p, hrest]
    rfl
  all_goals rw [ht]
  · by_cases hq : q = p
    · subst hq
      rw [Function.update_self, hv' q]
    · rw [Function.update_of_ne hq, hv' q]
  · have hpassed : (v.proc q).parent =
        if (s.proc q).parent = some p then some s.initproc else (s.proc q).parent := by
      have hinit : u.initproc = s.initproc := rfl
      simpa only [List.mem_finRange, true_and, hparent, hinit] using hv.parent q
    by_cases hq : q = p
    · subst hq
      rw [Function.update_self, hpassed]
    · rw [Function.update_of_ne hq, hpassed]
  · simp
  · rw [Function.update_of_ne hq]
    have := hu.state q
    have := hv.state q
    grind
  · rw [Function.update_of_ne hq]
    intro hstate
    have hsleep : (u.proc q).state = .sleeping := by
      have := hv.state q
      grind
    refine ⟨hu.woken q hsleep, fun hinit r hr hzombie => ?_⟩
    refine hv.woken q hstate ((hchan q).trans hinit) r (List.mem_finRange r) ((hparent r).trans hr) ?_
    have := hu.state r
    grind

inductive Waits (c : C) (p : Fin n) (s : Sys C n) : Sys C n → Prop where
  | reap {q : Fin n} (hfound : deadChild p s = some q) (hparent : (s.proc q).parent = some p)
    (hstate : (s.proc q).state = .zombie) : Waits c p s (reap p q s)
  | give (hnone : deadChild p s = none) : Waits c p s (s.release p)
  | sleep (hnone : deadChild p s = none) (halive : ∀ q, (s.proc q).parent = some p → (s.proc q).state ≠ .zombie) :
    Waits c p s (sleep c p (.proc p) .wait s)

inductive Does (c : C) (p : Fin n) (s : Sys C n) : Bool → Sys C n → Prop where
  | stack {np : Fin n} (hpc : s.pc p = .forkStack np) :
    Does c p s true
      ((((s.setProc np { s.proc np with kstack := true }).setMode np (.saved .forkret)).goto np .run).goto
        p (.forkCopy np))
  | noStack {np : Fin n} (hpc : s.pc p = .forkStack np) :
    Does c p s false ((s.setState np .unused).goto p .run)
  | copy {np : Fin n} (hpc : s.pc p = .forkCopy np) :
    Does c p s true ((s.setProc np { s.proc np with pgdir := true }).goto p (.forkParent np))
  | noCopy {np : Fin n} (hpc : s.pc p = .forkCopy np) :
    Does c p s false ((s.setProc np { s.proc np with kstack := false, pgdir := false, state := .unused }).goto p .run)
  | parent {ok : Bool} {np : Fin n} (hpc : s.pc p = .forkParent np) :
    Does c p s ok ((forkParent p np s).goto p (.forkFiles np))
  | files {ok : Bool} {np : Fin n} (hpc : s.pc p = .forkFiles np) :
    Does c p s ok ((forkFiles p np s).goto p (.forkSignals np))
  | signals {ok : Bool} {np : Fin n} (hpc : s.pc p = .forkSignals np) :
    Does c p s ok ((forkSignals p np s).goto p (.forkReady np))
  | ready {ok : Bool} {np : Fin n} (hpc : s.pc p = .forkReady np) (hlock : s.lock = none) :
    Does c p s ok ((s.setState np .runnable).goto p .run)
  | exit {ok : Bool} {t : Sys C n} (hpc : s.pc p = .exitLock) (hlock : s.lock = none) (h : Exits c p s t) :
    Does c p s ok t
  | light {ok : Bool} {pid : Int} {target : Option (Fin n)} {signum : Fin numsig}
    (hpc : s.pc p = .sigsend pid target signum) :
    Does c p s ok ((light target signum s).goto p .run)

inductive Calls (c : C) (p : Fin n) (s : Sys C n) : Call → Sys C n → Prop where
  | noFork : Calls c p s .fork s
  | fork {np : Fin n} (hlock : s.lock = none) (hnp : (s.proc np).state = .unused)
    (hfind : (List.finRange n).find? (fun p => (s.proc p).state = .unused) = some np) :
    Calls c p s .fork (({ s.setProc np { s.proc np with state := .embryo, pid := s.nextpid } with
      nextpid := s.nextpid + 1 } : Sys C n).goto p (.forkStack np))
  | exit (hinit : p ≠ s.initproc) : Calls c p s .exit ((exitFiles p s).goto p .exitLock)
  | wait {t : Sys C n} (hlock : s.lock = none) (h : Waits c p s t) : Calls c p s .wait t
  | noKill {pid : Int} : Calls c p s (.kill pid) s
  | kill {pid : Int} {q : Fin n} (hlock : s.lock = none) (hq : findPid pid s = some q) :
    Calls c p s (.kill pid) (s.setProc q { s.proc q with
      killed := true
      state := if (s.proc q).state = .sleeping then .runnable else (s.proc q).state })
  | find {pid x : Int} {signum : Fin numsig} (hlock : s.lock = none) (hx : x = signum) :
    Calls c p s (.sigsend pid x) (s.goto p (.sigsend pid (findPid pid s) signum))
  | noSignal {pid x : Int} : Calls c p s (.sigsend pid x) s
  | sleep {a : Nat} (hlock : s.lock = none) : Calls c p s (.sleep a) (sleep c p (.other a) .sleep s)
  | own {x : Own} : Calls c p s (.own x) (s.setProc p { s.proc p with
      ofile := x.ofile, cwd := x.cwd, pending := x.pending, signals := x.signals, alarmEnd := x.alarmEnd })

inductive Resumes (c : C) (p : Fin n) (s : Sys C n) : Saved → Sys C n → Prop where
  | forkret : Resumes c p s .forkret (s.release p)
  | yield : Resumes c p s .yield (s.release p)
  | sleep : Resumes c p s .sleep ((tidy p s).release p)
  | wait {t : Sys C n} (h : Waits c p (tidy p s) t) : Resumes c p s .wait t

variable [DecidableEq C]

inductive Schedules (c : C) (s : Sys C n) : Sys C n → Prop where
  | acquire (hcpu : s.cpu c = .idle) (hlock : s.lock = none) :
    Schedules c s { s.setCpu c (.scan 0) with lock := some c }
  | skip {i j : Nat} (hcpu : s.cpu c = .scan i) : Schedules c s (s.setCpu c (.scan j))
  | choose {i : Nat} {p : Fin n} (hcpu : s.cpu c = .scan i) (hstate : (s.proc p).state = .runnable) :
    Schedules c s ((s.setState p .running).setCpu c (.chosen p))
  | release {i : Nat} (hcpu : s.cpu c = .scan i) : Schedules c s { s.setCpu c .idle with lock := none }
  | enter {p : Fin n} (hcpu : s.cpu c = .chosen p) : Schedules c s (s.setCpu c (.on p))
  | back {p : Fin n} {j : Nat} (hcpu : s.cpu c = .back p) : Schedules c s (s.setCpu c (.scan j))

inductive Moves (s : Sys C n) : Act C → Sys C n → Prop where
  | schedule {c : C} {t : Sys C n} (h : Schedules c s t) : Moves s (.schedule c) t
  | swtch {c : C} {p : Fin n} {ok : Bool} {k : Saved} (hon : s.cpu c = .on p) (hmode : s.mode p = .sched k) :
    Moves s (.exec c ok) ((s.setMode p (.saved k)).setCpu c (.back p))
  | resume {c : C} {p : Fin n} {ok : Bool} {k : Saved} {t : Sys C n} (hon : s.cpu c = .on p)
    (hmode : s.mode p = .saved k) (h : Resumes c p s k t) : Moves s (.exec c ok) t
  | exec {c : C} {p : Fin n} {ok : Bool} {t : Sys C n} (hon : s.cpu c = .on p) (hmode : s.mode p = .go)
    (h : Does c p s ok t) : Moves s (.exec c ok) t
  | call {c : C} {p : Fin n} {x : Call} {t : Sys C n} (hon : s.cpu c = .on p) (hmode : s.mode p = .go)
    (hpc : s.pc p = .run) (h : Calls c p s x t) : Moves s (.call c x) t
  | yield {c : C} {p : Fin n} (hon : s.cpu c = .on p) (hmode : s.mode p = .go) (hlock : s.lock = none) :
    Moves s (.yield c) { (s.setState p .runnable).setMode p (.sched .yield) with lock := some c }
  | wakeup {c : C} {a : Nat} {t : Sys C n} (hlock : s.lock = none) (h : Wakes (some (.other a)) s t) :
    Moves s (.wakeup c a) t

omit [DecidableEq C] in
theorem waitLocked_waits : Waits c p s (waitLocked c p s) := by
  unfold waitLocked
  split
  case h_1 q hq =>
    obtain ⟨hparent, hstate⟩ : (s.proc q).parent = some p ∧ (s.proc q).state = .zombie := by
      simpa using List.find?_some hq
    exact .reap hq hparent hstate
  case h_2 hq =>
    have halive : ∀ q, (s.proc q).parent = some p → (s.proc q).state ≠ .zombie := fun q hparent hstate =>
      absurd (List.find?_eq_none.mp hq q (List.mem_finRange q)) (by simp [hparent, hstate])
    split
    · exact .give hq
    · exact .sleep hq halive

theorem schedule_schedules (h : schedule c s = some t) : Schedules c s t := by
  unfold schedule at h
  split at h
  case h_1 hcpu =>
    obtain ⟨hlock, ⟨⟩⟩ := Option.ite_none_right_eq_some.mp h
    exact .acquire hcpu hlock
  case h_2 i hcpu =>
    split at h
    · split at h
      · cases h
        exact .skip hcpu
      · rename_i hstate
        obtain ⟨-, ⟨⟩⟩ := Option.ite_none_left_eq_some.mp h
        exact .choose hcpu (not_not.mp hstate)
    · cases h
      exact .release hcpu
  case h_3 hcpu =>
    cases h
    exact .enter hcpu
  case h_4 => cases h
  case h_5 hcpu =>
    cases h
    exact .back hcpu

omit [DecidableEq C] in
theorem resume_resumes {k : Saved} (h : resume c p s k = some t) : Resumes c p s k t := by
  cases k with
  | forkret => exact Option.some.inj h ▸ .forkret
  | yield => exact Option.some.inj h ▸ .yield
  | sleep => exact Option.some.inj h ▸ .sleep
  | wait => exact Option.some.inj h ▸ .wait waitLocked_waits
  | exit => cases h

omit [DecidableEq C] in
theorem exec_does {ok : Bool} (h : exec c p ok s = some t) : Does c p s ok t := by
  unfold exec at h
  split at h
  case h_1 => cases h
  case h_2 hpc =>
    cases h
    cases ok with
    | true => exact .stack hpc
    | false => exact .noStack hpc
  case h_3 hpc =>
    cases h
    cases ok with
    | true => exact .copy hpc
    | false => exact .noCopy hpc
  case h_4 hpc => exact Option.some.inj h ▸ .parent hpc
  case h_5 hpc => exact Option.some.inj h ▸ .files hpc
  case h_6 hpc => exact Option.some.inj h ▸ .signals hpc
  case h_7 np hpc =>
    obtain ⟨hlock, ⟨⟩⟩ := Option.ite_none_right_eq_some.mp h
    exact .ready hpc hlock
  case h_8 hpc =>
    obtain ⟨hlock, ⟨⟩⟩ := Option.ite_none_right_eq_some.mp h
    exact .exit hpc hlock (exitLocked_exits c p s)
  case h_9 hpc => exact Option.some.inj h ▸ .light hpc

omit [DecidableEq C] in
theorem call_calls {x : Call} (h : call c p s x = some t) : Calls c p s x t := by
  cases x with
  | fork =>
    obtain ⟨hlock, h⟩ := Option.ite_none_right_eq_some.mp h
    unfold allocproc at h
    split at h
    · exact Option.some.inj h ▸ .noFork
    · rename_i hnp
      split at hnp
      · cases hnp
      · rename_i hfind
        cases hnp
        exact Option.some.inj h ▸ .fork hlock (by simpa using List.find?_some hfind) hfind
  | exit =>
    obtain ⟨hinit, ⟨⟩⟩ := Option.ite_none_left_eq_some.mp h
    exact .exit hinit
  | wait =>
    obtain ⟨hlock, ⟨⟩⟩ := Option.ite_none_right_eq_some.mp h
    exact .wait hlock waitLocked_waits
  | kill pid =>
    obtain ⟨hlock, ⟨⟩⟩ := Option.ite_none_right_eq_some.mp h
    unfold kill
    split
    case h_1 => exact .noKill
    case h_2 q hq => exact .kill hlock hq
  | sigsend pid signum =>
    simp only [call] at h
    split at h
    · obtain ⟨hlock, ⟨⟩⟩ := Option.ite_none_right_eq_some.mp h
      exact .find hlock (by simp; omega)
    · cases h
      exact .noSignal
  | sleep a =>
    obtain ⟨hlock, ⟨⟩⟩ := Option.ite_none_right_eq_some.mp h
    exact .sleep hlock
  | own x =>
    cases h
    exact .own

theorem step_moves {a : Act C} (h : step s a = some t) : Moves s a t := by
  cases a with
  | schedule c => exact .schedule (schedule_schedules h)
  | exec c ok =>
    simp only [step] at h
    split at h
    case h_1 p hon =>
      split at h
      case h_1 hmode => exact .exec hon hmode (exec_does h)
      case h_2 k hmode => exact Option.some.inj h ▸ .swtch hon hmode
      case h_3 k hmode => exact .resume hon hmode (resume_resumes h)
    case h_2 => cases h
  | call c x =>
    simp only [step] at h
    split at h
    case h_1 p hon =>
      obtain ⟨⟨hmode, hpc⟩, h⟩ := Option.ite_none_right_eq_some.mp h
      exact .call hon hmode hpc (call_calls h)
    case h_2 => cases h
  | yield c =>
    simp only [step] at h
    split at h
    case h_1 p hon =>
      obtain ⟨hmode, h⟩ := Option.ite_none_right_eq_some.mp h
      obtain ⟨hlock, ⟨⟩⟩ := Option.ite_none_right_eq_some.mp h
      exact .yield hon hmode hlock
    case h_2 => cases h
  | wakeup c a =>
    obtain ⟨hlock, ⟨⟩⟩ := Option.ite_none_right_eq_some.mp h
    exact .wakeup hlock (wakeup1_wakes _ s)

end Xv6.Ptable
