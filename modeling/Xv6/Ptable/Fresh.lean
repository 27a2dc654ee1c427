import Xv6.Ptable.Tree

/-!
# What a new process starts with

`kill` and `sigsend` find an entry by its pid and do not look at its state.
-/

open Xv6.Run

namespace Xv6.Ptable

variable {C : Type} {n : Nat} {s t : Sys C n} {c : C} {p q : Fin n}

/-- What a process is to have when `fork` makes it runnable, by the entry of its parent. -/
structure Inherits (x y : Proc n) : Prop where
  killed : y.killed = false
  pending : y.pending = 0
  signals : y.signals = x.signals
  ofile : y.ofile = x.ofile
  cwd : y.cwd = x.cwd

def Sys.target (s : Sys C n) (c : C) : Option (Fin n) :=
  match s.cpu c with
  | .on p =>
    match s.mode p, s.pc p with
    | .go, .sigsend _ q _ => q
    | _, _ => none
  | _ => none

/-- Only started processes are killed, and no signal is sent to one that a fork is still making. -/
def Aimed (s : Sys C n) : Act C → Prop
  | .call _ (.kill pid) => ∀ q, findPid pid s = some q → (s.proc q).state.live
  | .exec c _ => ∀ q, s.target c = some q → (s.proc q).state ≠ .embryo
  | _ => True

instance (s : Sys C n) : ∀ a : Act C, Decidable (Aimed s a)
  | .call _ (.kill pid) => inferInstanceAs (Decidable (∀ q, findPid pid s = some q → (s.proc q).state.live = true))
  | .exec c _ => inferInstanceAs (Decidable (∀ q, s.target c = some q → (s.proc q).state ≠ .embryo))
  | .call _ .fork | .call _ .exit | .call _ .wait | .call _ (.sigsend _ _) | .call _ (.sleep _) | .call _ (.own _)
  | .schedule _ | .yield _ | .wakeup _ _ => .isTrue trivial

structure Clean (s : Sys C n) : Prop where
  killed : ∀ q, ¬(s.proc q).state.live → (s.proc q).killed = false
  pending : ∀ {p np}, s.pc p = .forkReady np → (s.proc np).pending = 0

namespace Clean

theorem update {r : Fin n} {x : Proc n} (h : Clean s) (hf : Forks s) (hproc : t.proc = Function.update s.proc r x)
    (hpc : ∀ {p np}, t.pc p = .forkReady np → s.pc p = .forkReady np) (hkilled : ¬x.state.live → x.killed = false)
    (hpending : (s.proc r).state = .embryo → x.pending = (s.proc r).pending) : Clean t := by
  refine ⟨fun q hq => ?_, fun {p np} hp => ?_⟩
  · rw [hproc] at hq ⊢
    by_cases he : q = r
    · subst he
      rw [Function.update_self] at hq ⊢
      exact hkilled hq
    · rw [Function.update_of_ne he] at hq ⊢
      exact h.killed q hq
  · have hp := hpc hp
    rw [hproc]
    by_cases he : np = r
    · subst he
      rw [Function.update_self, hpending (hf.embryo (congrArg Pc.child hp))]
      exact h.pending hp
    · rw [Function.update_of_ne he]
      exact h.pending hp

theorem of_proc (h : Clean s) (hproc : t.proc = s.proc)
    (hpc : ∀ {p np}, t.pc p = .forkReady np → s.pc p = .forkReady np) : Clean t := by
  refine ⟨fun q hq => ?_, fun hp => ?_⟩ <;> rw [hproc] at *
  · exact h.killed q hq
  · exact h.pending (hpc hp)

theorem goto_ready {x : Pc n} (hx : ∀ np, x ≠ .forkReady np) {r np : Fin n} (hr : (s.goto p x).pc r = .forkReady np) :
    s.pc r = .forkReady np := by
  by_cases he : r = p
  · subst he
    simp [hx] at hr
  · simpa [he] using hr

theorem waits (h : Clean s) (hf : Forks s) (ht : Waits c p s t) : Clean t := by
  cases ht with
  | reap hfound hparent hstate => exact h.update hf rfl id (fun _ => rfl) (fun hq => by simp [hstate] at hq)
  | give => exact h.of_proc rfl id
  | sleep => exact h.update hf rfl id (fun hx => absurd rfl hx) fun _ => rfl

theorem resumes {k : Saved} (h : Clean s) (hc : Cpus s) (hf : Forks s) (hon : s.cpu c = .on p)
    (ht : Resumes c p s k t) : Clean t := by
  have htidy : Clean (tidy p s) := h.update hf rfl id (h.killed p) fun _ => rfl
  cases ht with
  | forkret => exact h.of_proc rfl id
  | yield => exact h.of_proc rfl id
  | sleep => exact htidy.of_proc rfl id
  | wait ht => exact htidy.waits (hf.tidied hc hon) ht

theorem does {ok : Bool} (h : Clean s) (hf : Forks s) (hon : s.cpu c = .on p) (hmode : s.mode p = .go)
    (hok : Aimed s (.exec c ok)) (ht : Does c p s ok t) : Clean t := by
  have hgo {t : Sys C n} {np y} {x : Pc n} (hp : (s.pc p).child = some np) (hx : ∀ np, x ≠ .forkReady np)
      (hpc : t.pc = (s.goto p x).pc) (hproc : t.proc = Function.update s.proc np y)
      (hkilled : y.killed = (s.proc np).killed) (hpending : y.pending = (s.proc np).pending) : Clean t := by
    refine h.update hf hproc (fun hr => goto_ready hx (hpc ▸ hr)) (fun _ => ?_) fun _ => hpending
    rw [hkilled]
    exact h.killed np (by rw [hf.embryo hp]; exact nofun)
  cases ht with
  | stack hpc =>
    have hp := congrArg Pc.child hpc
    refine h.update hf rfl (fun hr => ?_) (fun _ => h.killed _ (by rw [hf.embryo hp]; exact nofun)) fun _ => rfl
    exact goto_ready (x := .run) nofun (goto_ready (x := .forkCopy _) nofun hr)
  | noStack hpc => exact hgo (x := .run) (congrArg Pc.child hpc) nofun rfl rfl rfl rfl
  | copy hpc => exact hgo (x := .forkParent _) (congrArg Pc.child hpc) nofun rfl rfl rfl rfl
  | noCopy hpc => exact hgo (x := .run) (congrArg Pc.child hpc) nofun rfl rfl rfl rfl
  | parent hpc => exact hgo (x := .forkFiles _) (congrArg Pc.child hpc) nofun rfl rfl rfl rfl
  | files hpc => exact hgo (x := .forkSignals _) (congrArg Pc.child hpc) nofun rfl rfl rfl rfl
  | @signals ok np hpc =>
    have hp := congrArg Pc.child hpc
    refine ⟨fun q hq => ?_, fun {q r} hq => ?_⟩
    · by_cases he : q = np
      · subst he
        simpa [forkSignals] using h.killed q (by rw [hf.embryo hp]; exact nofun)
      · rw [show (((forkSignals p np s).goto p (.forkReady np)).proc q) = s.proc q by simp [forkSignals, he]] at hq ⊢
        exact h.killed q hq
    · by_cases he : r = np
      · subst he
        simp [forkSignals]
      · have hne : q ≠ p := by
          rintro rfl
          have hr : Pc.forkReady np = Pc.forkReady r := by simpa [forkSignals] using hq
          cases hr
          exact he rfl
        have hq : s.pc q = .forkReady r := by simpa [forkSignals, hne] using hq
        simpa [forkSignals, he] using h.pending hq
  | ready hpc hlock => exact h.update hf rfl (goto_ready (x := .run) nofun) (fun hx => absurd rfl hx) fun _ => rfl
  | exit hpc hlock ht =>
    refine ⟨fun q hq => ?_, fun {q r} hq => ?_⟩
    · have hne : q ≠ p := by
        rintro rfl
        rw [ht.zombie] at hq
        exact hq rfl
      rw [ht.proc q]
      refine h.killed q ?_
      rcases ht.state q hne with hstate | ⟨-, hstate⟩
      · rwa [← hstate]
      · rw [hstate] at hq
        exact absurd rfl hq
    · rw [ht.rest] at hq
      rw [ht.proc r]
      exact h.pending hq
  | @light ok pid target signum hpc =>
    cases target with
    | none => exact h.of_proc rfl (goto_ready (x := .run) nofun)
    | some q =>
      refine h.update hf rfl (goto_ready (x := .run) nofun) (h.killed q) fun hq => absurd hq (hok q ?_)
      simp [Sys.target, hon, hmode, hpc]

theorem calls {x : Call} (h : Clean s) (hf : Forks s) (hrun : (s.proc p).state = .running) (hok : Aimed s (.call c x))
    (ht : Calls c p s x t) : Clean t := by
  cases ht with
  | noFork => exact h
  | @fork np hlock hnp hfind =>
    refine h.update hf rfl (goto_ready (x := .forkStack _) (by simp))
      (fun _ => h.killed np (by simp [hnp, ProcState.live])) fun hq => ?_
    rw [hnp] at hq
  | exit hinit => exact h.update hf rfl (goto_ready (x := .exitLock) (by simp)) (h.killed p) fun _ => rfl
  | wait hlock ht => exact h.waits hf ht
  | noKill => exact h
  | @kill pid q hlock hq =>
    refine h.update hf rfl id (fun hx => absurd ?_ hx) fun _ => rfl
    have hlive := hok q hq
    by_cases hsleep : (s.proc q).state = .sleeping
    · simp [hsleep, ProcState.live]
    · simpa [hsleep] using hlive
  | find hlock hx => exact h.of_proc rfl (goto_ready (x := .sigsend _ _ _) (by simp))
  | noSignal => exact h
  | sleep hlock => exact h.update hf rfl id (fun hx => absurd rfl hx) fun _ => rfl
  | own => exact h.update hf rfl id (h.killed p) fun hq => by simp [hrun] at hq

variable [DecidableEq C]

theorem step {a : Act C} (h : Clean s) (hs : Table s) (hok : Aimed s a) (ht : step s a = some t) : Clean t := by
  have hf := hs.forks
  cases step_moves ht with
  | schedule ht =>
    cases ht with
    | choose hcpu hstate => exact h.update hf rfl id (fun hx => absurd rfl hx) fun _ => rfl
    | _ => exact h.of_proc rfl id
  | swtch hon hmode => exact h.of_proc rfl id
  | resume hon hmode ht => exact h.resumes hs.cpus hf hon ht
  | exec hon hmode ht => exact h.does hf hon hmode hok ht
  | call hon hmode hpc ht => exact h.calls hf (hs.cpus.running_of_go hon hmode) hok ht
  | yield hon hmode hlock => exact h.update hf rfl id (fun hx => absurd rfl hx) fun _ => rfl
  | wakeup hlock ht =>
    refine ⟨fun q hq => ?_, fun {q r} hq => ?_⟩
    · rw [ht.proc q]
      refine h.killed q ?_
      rcases ht.state q with hstate | ⟨-, -, hstate⟩
      · rwa [← hstate]
      · rw [hstate] at hq
        exact absurd rfl hq
    · rw [ht.rest] at hq
      rw [ht.proc r]
      exact h.pending hq

end Clean

theorem Boot.clean (h : Boot s) : Clean s := by
  refine ⟨fun q _ => ?_, fun {q r} hq => ?_⟩
  · by_cases hinit : q = s.initproc
    · rw [hinit, h.init]
    · rw [h.rest q hinit]
  · rw [h.run] at hq
    cases hq

theorem Table.inherits {np : Fin n} (hs : Table s) (h : Clean s) (hp : s.pc p = .forkReady np) :
    Inherits (s.proc p) (s.proc np) := by
  have hmade := hs.forks.made (congrArg Pc.child hp)
  rw [hp] at hmade
  exact ⟨h.killed np (by rw [hmade.embryo]; exact nofun), h.pending hp, hmade.signals le_rfl, hmade.ofile,
    hmade.cwd (Nat.le_succ 4)⟩

variable [DecidableEq C]

def StartsClean (s : Sys C n) (a : Act C) : Prop :=
  ∀ t p np, step s a = some t → s.pc p = .forkReady np → (t.proc np).state = .runnable → Inherits (s.proc p) (t.proc np)

theorem Table.startsClean {a : Act C} (hs : Table s) (h : Clean s) : StartsClean s a := by
  intro t p np ht hp hnp
  have hembryo := hs.forks.embryo (congrArg Pc.child hp)
  have hinherits := hs.inherits h hp
  cases Turns.moves hs (step_moves ht) np with
  | ready ha hon hpc hs ht =>
    rw [ht]
    exact ⟨hinherits.killed, hinherits.pending, hinherits.signals, hinherits.ofile, hinherits.cwd⟩
  | unused ht => simp [ht] at hnp
  | alloc ha hfind ht hnext => simp [ht] at hnp
  | making hs ht hpid => simp [ht] at hnp
  | live hs ht => simp [hembryo, ProcState.live] at hs

/-- If `kill` and `sigsend` hit started processes only, a fork makes a process that is not killed, has no signal and has
its parent's handlers, files and directory. -/
theorem fork_starts_clean {s₀ : Sys C n} {as : List (Act C)} (hboot : Boot s₀) (hok : Along step Aimed s₀ as) :
    Along step StartsClean s₀ as :=
  along_of_along (I := fun s => Table s ∧ Clean s) (fun _ _ _ h hok ht => ⟨h.1.step ht, h.2.step h.1 hok ht⟩)
    (fun _ _ _ h _ _ => h.1.startsClean h.2) ⟨hboot.table, hboot.clean⟩ hok

theorem initForks_clean : Along step Aimed twoCpus initForks ∧ Along step StartsClean twoCpus initForks := by
  have hok : Along step Aimed twoCpus initForks := by decide
  exact ⟨hok, fork_starts_clean twoCpus_boot hok⟩

def killedBefore : List (Act (Fin 2)) :=
  initRuns ++ .call 1 (.kill 0) :: .call 1 .fork :: List.replicate 5 (.exec 1 true)

theorem killed_at_start : ¬Along step StartsClean twoCpus (killedBefore ++ [.exec 1 true]) := by
  intro h
  have hrun : ((run step twoCpus killedBefore).bind fun s => (step s (.exec 1 true)).map fun t =>
      (s.pc 0, (t.proc 1).state, (t.proc 1).killed)) = some (.forkReady 1, .runnable, true) := by
    decide
  obtain ⟨s, hs, hstep⟩ := Option.bind_eq_some_iff.mp hrun
  obtain ⟨t, ht, hend⟩ := Option.map_eq_some_iff.mp hstep
  simp only [Prod.mk.injEq] at hend
  obtain ⟨hpc, hstate, hkilled⟩ := hend
  have hclean := (along_at h hs ht t 0 1 ht hpc hstate).killed
  rw [hkilled] at hclean
  cases hclean

end Xv6.Ptable
