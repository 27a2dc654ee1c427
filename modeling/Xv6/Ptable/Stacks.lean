import Xv6.Ptable.Forks

/-!
# The life of a process

An entry is taken by `fork`, filled and started by it, and given back by `wait` or by a fork that fails.
-/

open Xv6.Run

namespace Xv6.Ptable

variable {C : Type} {n : Nat} {s t : Sys C n} {c : C} {p q : Fin n}

def ProcState.live : ProcState → Bool
  | unused | embryo => false
  | _ => true

theorem ProcState.live_of_away {x : ProcState} (h : x.away) : x.live := by cases x <;> simp_all [away, live]

inductive Turns (s : Sys C n) (a : Act C) (t : Sys C n) (q : Fin n) : Prop where
  | unused (ht : (t.proc q).state = .unused)
  | alloc {c : C} (ha : a = .call c .fork)
    (hfind : (List.finRange n).find? (fun p => (s.proc p).state = .unused) = some q)
    (ht : t.proc q = { s.proc q with state := .embryo, pid := s.nextpid }) (hnext : t.nextpid = s.nextpid + 1)
  | making (hs : (s.proc q).state = .embryo) (ht : (t.proc q).state = .embryo) (hpid : (t.proc q).pid = (s.proc q).pid)
  | ready {c : C} {p : Fin n} {ok : Bool} (ha : a = .exec c ok) (hon : s.cpu c = .on p) (hpc : s.pc p = .forkReady q)
    (hs : (s.proc q).state = .embryo) (ht : t.proc q = { s.proc q with state := .runnable })
  | live (hs : (s.proc q).state.live) (ht : (t.proc q).state.live) (hpid : (t.proc q).pid = (s.proc q).pid)
    (hstack : (t.proc q).kstack = (s.proc q).kstack) (hdir : (t.proc q).pgdir = (s.proc q).pgdir)

namespace Turns

variable {a : Act C}

theorem of_state (hstate : (t.proc q).state = (s.proc q).state ∨ (s.proc q).state.live ∧ (t.proc q).state.live)
    (hpid : (t.proc q).pid = (s.proc q).pid) (hstack : (t.proc q).kstack = (s.proc q).kstack)
    (hdir : (t.proc q).pgdir = (s.proc q).pgdir) : Turns s a t q := by
  rcases hstate with hstate | ⟨hs, ht⟩
  · cases hs : (s.proc q).state with
    | unused => exact .unused (hstate.trans hs)
    | embryo => exact .making hs (hstate.trans hs) hpid
    | _ => exact .live (by rw [hs]; rfl) (by rw [hstate, hs]; rfl) hpid hstack hdir
  · exact .live hs ht hpid hstack hdir

theorem of_eq (h : t.proc q = s.proc q) : Turns s a t q :=
  .of_state (.inl (by rw [h])) (by rw [h]) (by rw [h]) (by rw [h])

theorem of_chan (h : t.proc q = { s.proc q with chan := (t.proc q).chan }) : Turns s a t q :=
  .of_state (.inl (by rw [h])) (by rw [h]) (by rw [h]) (by rw [h])

theorem update {r : Fin n} {x : Proc n} (hproc : t.proc = Function.update s.proc r x) (hr : q = r → Turns s a t q) :
    Turns s a t q := by
  by_cases he : q = r
  · exact hr he
  · exact .of_eq (by rw [hproc, Function.update_of_ne he])

theorem tidy_proc (q : Fin n) : (tidy p s).proc q = { s.proc q with chan := ((tidy p s).proc q).chan } := by
  by_cases he : q = p
  · subst he
    simp [tidy]
  · simp [tidy, he]

theorem waits {u : Sys C n} (hu : ∀ q, u.proc q = { s.proc q with chan := (u.proc q).chan })
    (hrun : (s.proc p).state = .running) (ht : Waits c p u t) : Turns s a t q := by
  have heq (h : t.proc q = u.proc q) : Turns s a t q := .of_chan (by rw [h, hu q])
  cases ht with
  | @reap r hfound hparent hstate =>
    by_cases he : q = r
    · exact .unused (by simp [he, reap])
    · exact heq (by simp [he, reap])
  | give => exact heq rfl
  | sleep =>
    by_cases he : q = p
    · subst he
      exact .live (by rw [hrun]; rfl) (by simp [sleep, ProcState.live])
        (by simpa [sleep] using congrArg Proc.pid (hu q))
        (by simpa [sleep] using congrArg Proc.kstack (hu q)) (by simpa [sleep] using congrArg Proc.pgdir (hu q))
    · exact heq (by simp [sleep, he])

theorem resumes {k : Saved} (hc : Cpus s) (hon : s.cpu c = .on p) (hmode : s.mode p = .saved k)
    (ht : Resumes c p s k t) : Turns s a t q := by
  have hrun := hc.running_of_saved hon hmode
  cases ht with
  | forkret => exact .of_eq rfl
  | yield => exact .of_eq rfl
  | sleep =>
    exact .of_chan (tidy_proc q)
  | wait ht => exact waits tidy_proc hrun ht

theorem does {ok : Bool} (hf : Forks s) (hon : s.cpu c = .on p) (hrun : (s.proc p).state = .running)
    (ht : Does c p s ok t) : Turns s (.exec c ok) t q := by
  -- an entry in the making stays so
  have hgo {t : Sys C n} {np x} (hp : (s.pc p).child = some np) (hproc : t.proc = Function.update s.proc np x)
      (hx : x.state = (s.proc np).state) (hpid : x.pid = (s.proc np).pid) : Turns s (.exec c ok) t q := by
    refine .update hproc ?_
    rintro rfl
    exact .making (hf.embryo hp) (by rw [hproc, Function.update_self, hx, hf.embryo hp])
      (by rw [hproc, Function.update_self, hpid])
  cases ht with
  | stack hpc => exact hgo (congrArg Pc.child hpc) rfl (by rfl) (by rfl)
  | noStack hpc => exact .update rfl fun he => .unused (by simp [he])
  | copy hpc => exact hgo (congrArg Pc.child hpc) rfl (by rfl) (by rfl)
  | noCopy hpc => exact .update rfl fun he => .unused (by simp [he])
  | parent hpc => exact hgo (congrArg Pc.child hpc) rfl (by rfl) (by rfl)
  | files hpc => exact hgo (congrArg Pc.child hpc) rfl (by rfl) (by rfl)
  | signals hpc => exact hgo (congrArg Pc.child hpc) rfl (by rfl) (by rfl)
  | ready hpc hlock =>
    refine .update rfl ?_
    rintro rfl
    exact .ready rfl hon hpc (hf.embryo (congrArg Pc.child hpc)) (by simp)
  | exit hpc hlock ht =>
    have hproc := ht.proc q
    refine .of_state ?_ (by rw [hproc]) (by rw [hproc]) (by rw [hproc])
    by_cases he : q = p
    · subst he
      exact .inr ⟨by rw [hrun]; rfl, by rw [ht.zombie]; rfl⟩
    · exact (ht.state q he).imp_right fun h => ⟨by rw [h.1]; rfl, by rw [h.2]; rfl⟩
  | @light ok pid target signum hpc =>
    cases target with
    | none => exact .of_eq rfl
    | some r =>
      refine .update (r := r) rfl ?_
      rintro rfl
      exact .of_state (.inl (by simp [light])) (by simp [light]) (by simp [light]) (by simp [light])

theorem calls {x : Call} (hrun : (s.proc p).state = .running) (ht : Calls c p s x t) : Turns s (.call c x) t q := by
  cases ht with
  | noFork => exact .of_eq rfl
  | fork hlock hnp hfind =>
    refine .update rfl ?_
    rintro rfl
    exact .alloc rfl hfind (by simp) rfl
  | exit hinit =>
    refine .update (r := p) rfl ?_
    rintro rfl
    exact .of_state (.inl (by simp [exitFiles])) (by simp [exitFiles]) (by simp [exitFiles]) (by simp [exitFiles])
  | wait hlock ht => exact waits (fun _ => rfl) hrun ht
  | noKill => exact .of_eq rfl
  | @kill pid r hlock hr =>
    refine .update (r := r) rfl ?_
    rintro rfl
    refine .of_state ?_ (by simp) (by simp) (by simp)
    by_cases hsleep : (s.proc q).state = .sleeping
    · exact .inr ⟨by rw [hsleep]; rfl, by simp [hsleep, ProcState.live]⟩
    · exact .inl (by simp [hsleep])
  | find hlock hx => exact .of_eq rfl
  | noSignal => exact .of_eq rfl
  | sleep hlock =>
    refine .update (r := p) rfl ?_
    rintro rfl
    exact .live (by rw [hrun]; rfl) (by simp [sleep, ProcState.live]) (by simp [sleep]) (by simp [sleep])
      (by simp [sleep])
  | own =>
    refine .update (r := p) rfl ?_
    rintro rfl
    exact .of_state (.inl (by simp)) (by simp) (by simp) (by simp)

variable [DecidableEq C]

theorem moves (h : Table s) (ht : Moves s a t) (q : Fin n) : Turns s a t q := by
  cases ht with
  | schedule ht =>
    cases ht with
    | @choose i p hcpu hstate =>
      refine .update (r := p) rfl ?_
      rintro rfl
      exact .live (by rw [hstate]; rfl) (by simp [ProcState.live]) (by simp) (by simp) (by simp)
    | _ => exact .of_eq rfl
  | swtch hon hmode => exact .of_eq rfl
  | resume hon hmode ht => exact resumes h.cpus hon hmode ht
  | exec hon hmode ht => exact does h.forks hon (h.cpus.running_of_go hon hmode) ht
  | call hon hmode hpc ht => exact calls (h.cpus.running_of_go hon hmode) ht
  | @yield c p hon hmode hlock =>
    refine .update (r := p) rfl ?_
    rintro rfl
    exact .live (by rw [h.cpus.running_of_go hon hmode]; rfl) (by simp [ProcState.live]) (by simp) (by simp) (by simp)
  | wakeup hlock ht =>
    have hproc := ht.proc q
    refine .of_state ((ht.state q).imp_right fun h => ⟨by rw [h.1]; rfl, by rw [h.2.2]; rfl⟩) (by rw [hproc])
      (by rw [hproc]) (by rw [hproc])

end Turns

inductive Goes (s : Sys C n) (a : Act C) (t : Sys C n) (q : Fin n) : Prop where
  | same (ht : t.pc q = s.pc q)
  | run (ht : t.pc q = .run)
  | fork (ht : (t.pc q).child ≠ none)
  | exit (hne : q ≠ s.initproc) (ht : t.pc q = .exitLock)
  | find {c : C} {pid x : Int} {signum : Fin numsig} (ha : a = .call c (.sigsend pid x)) (hx : x = signum)
    (hproc : t.proc = s.proc) (ht : t.pc q = .sigsend pid (findPid pid s) signum)

namespace Goes

variable {a : Act C}

theorem update {r : Fin n} {x : Pc n} (hpc : t.pc = Function.update s.pc r x) (hr : q = r → Goes s a t q) :
    Goes s a t q := by
  by_cases he : q = r
  · exact hr he
  · exact .same (by rw [hpc, Function.update_of_ne he])

variable [DecidableEq C]

theorem moves (ht : Moves s a t) (q : Fin n) : Goes s a t q := by
  have hwaits {u t : Sys C n} {c p} (ht : Waits c p u t) : t.pc = u.pc := by cases ht <;> rfl
  have hfork {t : Sys C n} {p x} (hpc : t.pc = Function.update s.pc p x) (hx : x.child ≠ none) : Goes s a t q :=
    .update hpc fun he => .fork (by rwa [hpc, he, Function.update_self])
  have hrun {t : Sys C n} {p} (hpc : t.pc = Function.update s.pc p .run) : Goes s a t q :=
    .update hpc fun he => .run (by rw [hpc, he, Function.update_self])
  cases ht with
  | schedule ht => cases ht <;> exact .same rfl
  | swtch => exact .same rfl
  | resume hon hmode ht =>
    cases ht with
    | wait ht => exact .same (by rw [hwaits ht]; rfl)
    | _ => exact .same rfl
  | @exec c p ok t hon hmode ht =>
    cases ht with
    | @stack np hpc =>
      by_cases hp : q = p
      · exact .fork (by simp [hp, Pc.child])
      · by_cases hnp : q = np
        · exact .run (by simp [hnp, hnp ▸ hp])
        · exact .same (by simp [hp, hnp])
    | noStack => exact hrun rfl
    | @copy np hpc => exact hfork (x := .forkParent np) rfl nofun
    | noCopy => exact hrun rfl
    | @parent ok np hpc => exact hfork (x := .forkFiles np) rfl nofun
    | @files ok np hpc => exact hfork (x := .forkSignals np) rfl nofun
    | @signals ok np hpc => exact hfork (x := .forkReady np) rfl nofun
    | ready => exact hrun rfl
    | exit hpc hlock ht => exact .same (by rw [ht.rest])
    | @light ok pid target signum hpc => cases target <;> exact hrun rfl
  | @call c p x t hon hmode hpc ht =>
    cases ht with
    | @fork np hlock hnp hfind => exact hfork (x := .forkStack np) rfl nofun
    | exit hinit => exact .update (r := p) rfl fun he => .exit (he ▸ hinit) (by simp [he])
    | wait hlock ht => exact .same (by rw [hwaits ht])
    | @find pid x signum hlock hx => exact .update (r := p) rfl fun he => .find rfl hx rfl (by simp [he])
    | _ => exact .same rfl
  | yield => exact .same rfl
  | wakeup hlock ht => exact .same (by rw [ht.rest])

end Goes

def Backed (s : Sys C n) : Prop := ∀ p, (s.proc p).state.live → (s.proc p).kstack ∧ (s.proc p).pgdir

theorem Boot.backed (h : Boot s) : Backed s := by
  intro p hp
  by_cases hinit : p = s.initproc
  · rw [hinit, h.init]
    exact ⟨rfl, rfl⟩
  · rw [h.rest p hinit] at hp
    cases hp

theorem Cpus.live_of_stack (h : Cpus s) (hc : (s.cpu c).stack = some p) : (s.proc p).state.live := by
  cases hcpu : s.cpu c with
  | on q =>
    rw [hcpu] at hc
    obtain rfl : q = p := Option.some.inj hc
    rcases h.fits_on hcpu with ⟨hrun, -⟩ | ⟨haway, -⟩
    · rw [hrun]
      rfl
    · exact ProcState.live_of_away haway
  | _ =>
    rw [hcpu] at hc
    cases hc

theorem Cpus.running (h : Cpus s) (hrun : (s.proc p).state = .running) : ∃! c, (s.cpu c).proc = some p := by
  by_contra hnone
  have hoff : Off (s.proc p).state (s.mode p) :=
    h.off fun c hc => hnone ⟨c, hc, fun c' hc' => h.only hc' hc⟩
  simp [Off, hrun, ProcState.away] at hoff

theorem Cpus.running_or_lock (h : Cpus s) (hc : (s.cpu c).proc = some p) :
    (s.proc p).state = .running ∨ s.lock = some c := by
  have hfits := h.fits hc
  cases hcpu : s.cpu c with
  | on q =>
    rw [hcpu] at hc hfits
    obtain rfl : q = p := Option.some.inj hc
    rcases hfits with ⟨hrun, -⟩ | ⟨-, hsched⟩
    · exact .inl hrun
    · refine .inr ((h.holds_on hcpu).mpr fun hgo => ?_)
      rw [hgo] at hsched
      cases hsched
  | chosen q => exact .inr (h.lock_of_chosen hcpu)
  | back q => exact .inr (h.lock_of_back hcpu)
  | _ =>
    rw [hcpu] at hc
    cases hc

theorem Cpu.proc_of_stack {x : Cpu n} (h : x.stack = some p) : x.proc = some p := by
  cases x with
  | on q => exact h
  | _ => cases h

variable [DecidableEq C]

theorem Backed.step {a : Act C} (h : Backed s) (hs : Table s) (ht : step s a = some t) : Backed t := by
  intro q hq
  cases Turns.moves hs (step_moves ht) q with
  | unused ht => simp [ht, ProcState.live] at hq
  | alloc ha hfind ht hnext => simp [ht, ProcState.live] at hq
  | making hs ht hpid => simp [ht, ProcState.live] at hq
  | ready ha hon hpc hembryo ht =>
    have hmade := hs.forks.made (congrArg Pc.child hpc)
    rw [hpc] at hmade
    rw [ht]
    exact ⟨hmade.kstack (by simp [Pc.stage]), hmade.pgdir (by simp [Pc.stage])⟩
  | live hs ht hpid hstack hdir =>
    rw [hstack, hdir]
    exact h q hs

theorem step_cpu_or_memory {a : Act C} (ht : step s a = some t) :
    t.cpu = s.cpu ∨ ∀ q, (t.proc q).kstack = (s.proc q).kstack ∧ (t.proc q).pgdir = (s.proc q).pgdir := by
  have hwaits {u : Sys C n} {c p} (ht : Waits c p u t) : t.cpu = u.cpu := by cases ht <;> rfl
  cases step_moves ht with
  | schedule ht =>
    refine .inr fun q => ?_
    cases ht with
    | @choose i p hcpu hstate => by_cases he : q = p <;> simp [he]
    | _ => exact ⟨rfl, rfl⟩
  | swtch => exact .inr fun q => ⟨rfl, rfl⟩
  | resume hon hmode ht =>
    cases ht with
    | wait ht => exact .inl (by rw [hwaits ht]; rfl)
    | _ => exact .inl rfl
  | exec hon hmode ht =>
    cases ht with
    | exit hpc hlock ht => exact .inl (by rw [ht.rest])
    | @light ok pid target signum hpc => cases target <;> exact .inl rfl
    | _ => exact .inl rfl
  | call hon hmode hpc ht =>
    cases ht with
    | wait hlock ht => exact .inl (hwaits ht)
    | _ => exact .inl rfl
  | yield => exact .inl rfl
  | wakeup hlock ht => exact .inl (by rw [ht.rest])

theorem run_backed {s₀ : Sys C n} {as : List (Act C)} (hboot : Boot s₀) (hrun : run step s₀ as = some s) :
    Table s ∧ Backed s :=
  run_invariant (I := fun s => Table s ∧ Backed s) (fun _ _ _ h ht => ⟨h.1.step ht, h.2.step h.1 ht⟩)
    ⟨hboot.table, hboot.backed⟩ hrun

/-- No two CPUs are ever on one kernel stack, a process is running exactly while one CPU has it, unless that CPU holds
the lock, and no step frees what a CPU uses. -/
theorem one_cpu_per_stack {s₀ : Sys C n} {as : List (Act C)} (hboot : Boot s₀) (hrun : run step s₀ as = some s) :
    (∀ c c' p, (s.cpu c).stack = some p → (s.cpu c').stack = some p → c = c') ∧
    (∀ p, (s.proc p).state = .running → ∃! c, (s.cpu c).proc = some p) ∧
    (∀ c p, (s.cpu c).proc = some p → (s.proc p).state = .running ∨ s.lock = some c) ∧
    (∀ c p, (s.cpu c).stack = some p → ((s.proc p).kstack ∧ (s.proc p).pgdir) ∧
      ∀ a t, step s a = some t → (t.proc p).kstack ∧ (t.proc p).pgdir) := by
  obtain ⟨htable, hbacked⟩ := run_backed hboot hrun
  have hc := htable.cpus
  refine ⟨fun c c' p h h' => hc.only (Cpu.proc_of_stack h) (Cpu.proc_of_stack h'), fun p => hc.running,
    fun c p => hc.running_or_lock, fun c p hp => ⟨hbacked p (hc.live_of_stack hp), fun a t ht => ?_⟩⟩
  rcases step_cpu_or_memory ht with hcpu | hmem
  · exact hbacked.step htable ht p ((htable.step ht).cpus.live_of_stack (c := c) (by rw [hcpu, hp]))
  · rw [(hmem p).1, (hmem p).2]
    exact hbacked p (hc.live_of_stack hp)

theorem childRuns_stacks : ∃ t, run step twoCpus childRuns = some t ∧ (t.cpu 0).stack = some 1 ∧
    (t.cpu 1).stack = some 0 ∧ (t.proc 1).kstack := by
  have hrun : (run step twoCpus childRuns).map (fun t => ((t.cpu 0).stack, (t.cpu 1).stack)) =
      some (some 1, some 0) := by
    decide
  obtain ⟨t, ht, hend⟩ := Option.map_eq_some_iff.mp hrun
  obtain ⟨hchild, hinit⟩ := Prod.mk.inj hend
  exact ⟨t, ht, hchild, hinit, ((one_cpu_per_stack twoCpus_boot ht).2.2.2 0 1 hchild).1.1⟩

end Xv6.Ptable
