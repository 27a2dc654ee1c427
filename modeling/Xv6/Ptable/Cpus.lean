import Xv6.Ptable.Moves

/-!
# CPUs and kernel stacks

A process is on a CPU, or its registers are saved and no CPU is on its stack.
-/

namespace Xv6.Ptable

variable {C : Type} {n : Nat} {s t : Sys C n} {c : C} {p : Fin n}

def ProcState.away : ProcState → Bool
  | runnable | sleeping | zombie => true
  | _ => false

def ProcState.busy : ProcState → Bool
  | runnable | running => true
  | _ => false

def Mode.isSched : Mode → Bool
  | sched _ => true
  | _ => false

def Mode.isSaved : Mode → Bool
  | saved _ => true
  | _ => false

def Mode.turn : Mode → Bool
  | go | sched .yield | saved .yield => true
  | _ => false

def Pc.child : Pc n → Option (Fin n)
  | forkStack np | forkCopy np | forkParent np | forkFiles np | forkSignals np | forkReady np => some np
  | _ => none

def Pc.stage : Pc n → Nat
  | forkCopy _ => 1
  | forkParent _ => 2
  | forkFiles _ => 3
  | forkSignals _ => 4
  | forkReady _ => 5
  | _ => 0

def Sys.Holds (s : Sys C n) (c : C) : Prop :=
  match s.cpu c with
  | .idle => False
  | .on p => s.mode p ≠ .go
  | _ => True

def Fits : Cpu n → ProcState → Mode → Prop
  | .chosen _, x, m => x = .running ∧ m.isSaved
  | .on _, x, m => x = .running ∧ ¬m.isSched ∨ x.away ∧ m.isSched
  | .back _, x, m => x.away ∧ m.isSaved
  | _, _, _ => True

def Off (x : ProcState) (m : Mode) : Prop := x = .unused ∨ x = .embryo ∨ x.away ∧ m.isSaved

structure Cpus (s : Sys C n) : Prop where
  only : ∀ {c c' p}, (s.cpu c).proc = some p → (s.cpu c').proc = some p → c = c'
  lock : ∀ c, s.lock = some c ↔ s.Holds c
  fits : ∀ {c p}, (s.cpu c).proc = some p → Fits (s.cpu c) (s.proc p).state (s.mode p)
  off : ∀ {p}, (∀ c, (s.cpu c).proc ≠ some p) → Off (s.proc p).state (s.mode p)

structure Made (k : Nat) (p : Fin n) (x y : Proc n) : Prop where
  embryo : y.state = .embryo
  kstack : 1 ≤ k → y.kstack
  pgdir : 2 ≤ k → y.pgdir
  parent : 3 ≤ k → y.parent = some p
  ofile : y.ofile = if k < 4 then fun _ => none else x.ofile
  cwd : 4 ≤ k → y.cwd = x.cwd
  signals : 5 ≤ k → y.signals = x.signals

/-- A fork under way has one new process in hand, and no other fork has it. -/
structure Forks (s : Sys C n) : Prop where
  busy : ∀ {p np}, (s.pc p).child = some np → (s.proc p).state.busy
  /-- `fork` does not sleep. -/
  turn : ∀ {p np}, (s.pc p).child = some np → (s.mode p).turn
  only : ∀ {p q np}, (s.pc p).child = some np → (s.pc q).child = some np → p = q
  made : ∀ {p np}, (s.pc p).child = some np → Made (s.pc p).stage p (s.proc p) (s.proc np)
  saved : ∀ {p np}, (s.pc p).child = some np → 1 ≤ (s.pc p).stage → s.mode np = .saved .forkret ∧ s.pc np = .run

theorem Forks.embryo {np : Fin n} (h : Forks s) (hp : (s.pc p).child = some np) : (s.proc np).state = .embryo :=
  (h.made hp).embryo

def Undisturbed (s t : Sys C n) (q : Fin n) : Prop :=
  t.mode q = s.mode q ∧ ((t.proc q).state = (s.proc q).state ∨ (s.proc q).state.away ∧ (t.proc q).state.away) ∨
  (∀ c, (s.cpu c).proc ≠ some q) ∧ Off (t.proc q).state (t.mode q)

theorem Undisturbed.of_eq {q : Fin n} (hmode : t.mode q = s.mode q) (hproc : (t.proc q).state = (s.proc q).state) :
    Undisturbed s t q :=
  .inl ⟨hmode, .inl hproc⟩

theorem Undisturbed.fits {q : Fin n} (h : Undisturbed s t q) (hc : (s.cpu c).proc = some q)
    (hfits : Fits (s.cpu c) (s.proc q).state (s.mode q)) :
    t.mode q = s.mode q ∧ Fits (s.cpu c) (t.proc q).state (t.mode q) := by
  rcases h with ⟨hmode, hstate⟩ | ⟨hoff, -⟩
  · refine ⟨hmode, ?_⟩
    rw [hmode]
    rcases hstate with hstate | ⟨hs, ht⟩
    · rwa [hstate]
    · cases hcpu : s.cpu c with
      | idle => trivial
      | scan i => trivial
      | chosen p =>
        rw [hcpu] at hfits
        obtain ⟨hrun, -⟩ := hfits
        rw [hrun] at hs
        cases hs
      | on p =>
        rw [hcpu] at hfits
        rcases hfits with ⟨hrun, -⟩ | ⟨-, hsched⟩
        · rw [hrun] at hs
          cases hs
        · exact .inr ⟨ht, hsched⟩
      | back p =>
        rw [hcpu] at hfits
        exact ⟨ht, hfits.2⟩
  · exact absurd hc (hoff c)

namespace Cpus

section

variable (h : Cpus s)
include h

theorem step_at (c : C) (hcpu : ∀ c', c' ≠ c → t.cpu c' = s.cpu c')
    (hlock : ∀ c', c' ≠ c → (t.lock = some c' ↔ s.lock = some c')) (hown : t.lock = some c ↔ t.Holds c)
    (hnew : ∀ p, (t.cpu c).proc = some p → Fits (t.cpu c) (t.proc p).state (t.mode p) ∧
      ∀ c', c' ≠ c → (s.cpu c').proc ≠ some p)
    (hold : ∀ p, (s.cpu c).proc = some p → (t.cpu c).proc = some p ∨ Off (t.proc p).state (t.mode p))
    (hrest : ∀ p, (s.cpu c).proc ≠ some p → (t.cpu c).proc ≠ some p → Undisturbed s t p) : Cpus t := by
  -- what the other CPUs have is not at this one
  have hother {c' q} (hc' : c' ≠ c) (hq : (s.cpu c').proc = some q) :
      (s.cpu c).proc ≠ some q ∧ (t.cpu c).proc ≠ some q :=
    ⟨fun hs => hc' (h.only hq hs), fun ht => (hnew q ht).2 c' hc' hq⟩
  have hkeep {c' q} (hc' : c' ≠ c) (hq : (s.cpu c').proc = some q) :
      t.mode q = s.mode q ∧ Fits (s.cpu c') (t.proc q).state (t.mode q) :=
    (hrest q (hother hc' hq).1 (hother hc' hq).2).fits hq (h.fits hq)
  refine ⟨fun {c₁ c₂ q} h₁ h₂ => ?_, fun c' => ?_, fun {c' q} hq => ?_, fun {q} hq => ?_⟩
  · by_cases hc₁ : c₁ = c <;> by_cases hc₂ : c₂ = c
    · exact hc₁.trans hc₂.symm
    · subst hc₁
      exact absurd (hcpu c₂ hc₂ ▸ h₂) ((hnew q h₁).2 c₂ hc₂)
    · subst hc₂
      exact absurd (hcpu c₁ hc₁ ▸ h₁) ((hnew q h₂).2 c₁ hc₁)
    · rw [hcpu c₁ hc₁] at h₁
      rw [hcpu c₂ hc₂] at h₂
      exact h.only h₁ h₂
  · by_cases hc' : c' = c
    · exact hc' ▸ hown
    · rw [hlock c' hc', h.lock c']
      unfold Sys.Holds
      rw [hcpu c' hc']
      cases hon : s.cpu c' with
      | on q => simp only [(hkeep hc' (by rw [hon]; rfl)).1]
      | _ => rfl
  · by_cases hc' : c' = c
    · subst hc'
      exact (hnew q hq).1
    · rw [hcpu c' hc'] at hq ⊢
      exact (hkeep hc' hq).2
  · by_cases hs : (s.cpu c).proc = some q
    · exact (hold q hs).resolve_left (hq c)
    · rcases hrest q hs (hq c) with ⟨hmode, hstate⟩ | ⟨-, hoff⟩
      · have hoff : Off (s.proc q).state (s.mode q) := by
          refine h.off fun c' hc' => ?_
          have hne : c' ≠ c := by
            rintro rfl
            exact hs hc'
          exact hq c' (hcpu c' hne ▸ hc')
        rw [hmode]
        rcases hstate with hstate | ⟨haway, haway'⟩
        · rwa [hstate]
        · unfold Off at hoff ⊢
          grind [ProcState.away]
      · exact hoff

theorem holds_on (hon : s.cpu c = .on p) : s.lock = some c ↔ s.mode p ≠ .go := by
  rw [h.lock c, Sys.Holds, hon]

theorem fits_on (hon : s.cpu c = .on p) : Fits (.on p) (s.proc p).state (s.mode p) :=
  hon ▸ h.fits (by rw [hon]; rfl)

theorem running_of_go (hon : s.cpu c = .on p) (hmode : s.mode p = .go) : (s.proc p).state = .running := by
  rcases h.fits_on hon with ⟨hrun, -⟩ | ⟨-, hsched⟩
  · exact hrun
  · rw [hmode] at hsched
    cases hsched

theorem running_of_saved {k : Saved} (hon : s.cpu c = .on p) (hmode : s.mode p = .saved k) :
    (s.proc p).state = .running := by
  rcases h.fits_on hon with ⟨hrun, -⟩ | ⟨-, hsched⟩
  · exact hrun
  · rw [hmode] at hsched
    cases hsched

theorem no_cpu {q : Fin n} (hq : (s.proc q).state = .unused ∨ (s.proc q).state = .embryo) (c : C) :
    (s.cpu c).proc ≠ some q := by
  intro hc
  have hfits := h.fits hc
  cases hcpu : s.cpu c <;> rw [hcpu] at hc hfits <;> rcases hq with hq | hq <;>
    simp_all [Fits, Cpu.proc, ProcState.away]

theorem no_cpu_of_away {q : Fin n} (hlock : s.lock = none ∨ s.lock = some c)
    (hne : (s.cpu c).proc ≠ some q) (hq : (s.proc q).state.away) (c' : C) : (s.cpu c').proc ≠ some q := by
  intro hc
  have hne : c' ≠ c := by
    rintro rfl
    exact hne hc
  have hfree : ¬s.Holds c' := by
    rw [← h.lock c']
    grind
  have hfits := h.fits hc
  cases hcpu : s.cpu c' with
  | on r =>
    rw [hcpu] at hc hfits
    cases hc
    rw [Sys.Holds, hcpu] at hfree
    have hgo : s.mode q = .go := by simpa using hfree
    rcases hfits with ⟨hrun, -⟩ | ⟨-, hsched⟩
    · rw [hrun] at hq
      cases hq
    · rw [hgo] at hsched
      cases hsched
  | _ => simp_all [Sys.Holds, Cpu.proc]

theorem exec_at (hon : s.cpu c = .on p) (hcpu : t.cpu = s.cpu)
    (hlock : t.lock = s.lock ∧ t.mode p = s.mode p ∨
      (s.lock = none ∨ s.lock = some c) ∧ (t.lock = none ∧ t.mode p = .go ∨ t.lock = some c ∧ t.mode p ≠ .go))
    (hfits : Fits (.on p) (t.proc p).state (t.mode p)) (hrest : ∀ q, q ≠ p → Undisturbed s t q) : Cpus t := by
  have hproc (q) : (s.cpu c).proc = some q ↔ q = p := by
    rw [hon]
    exact ⟨fun hq => (Option.some.inj hq).symm, fun hq => hq ▸ rfl⟩
  refine h.step_at c (fun c' _ => by rw [hcpu]) (fun c' hc' => ?_) ?_ (fun q hq => ?_) (fun q hq => .inl (hcpu ▸ hq))
    (fun q hq _ => hrest q (fun he => hq ((hproc q).mpr he)))
  · grind
  · have hs := h.holds_on hon
    rw [Sys.Holds, hcpu, hon]
    grind
  · rw [hcpu] at hq ⊢
    have he := (hproc q).mp hq
    subst he
    exact ⟨hon ▸ hfits, fun c' hc' hq' => hc' (h.only hq' hq)⟩

theorem set_at {q : Fin n} {x : Proc n} (hon : s.cpu c = .on p) (hcpu : t.cpu = s.cpu)
    (hlock : t.lock = s.lock) (hproc : t.proc = Function.update s.proc q x) (hp : t.mode p = s.mode p)
    (hmode : ∀ r, r ≠ q → t.mode r = s.mode r)
    (hq : t.mode q = s.mode q ∧ (x.state = (s.proc q).state ∨ (s.proc q).state.away ∧ x.state.away) ∨
      (∀ c, (s.cpu c).proc ≠ some q) ∧ Off x.state (t.mode q)) : Cpus t := by
  refine h.exec_at hon hcpu (.inl ⟨hlock, hp⟩) ?_ fun r hr => ?_
  · rw [hp, hproc]
    have hfits := h.fits_on hon
    by_cases he : p = q
    · subst he
      rw [Function.update_self]
      rcases hq with ⟨-, hx | ⟨haway, hx⟩⟩ | ⟨hoff, -⟩
      · rwa [hx]
      · refine .inr ⟨hx, ?_⟩
        rcases hfits with ⟨hrun, -⟩ | ⟨-, hsched⟩
        · rw [hrun] at haway
          cases haway
        · exact hsched
      · exact absurd (by rw [hon]; rfl) (hoff c)
    · rwa [Function.update_of_ne he]
  · by_cases he : r = q
    · subst he
      unfold Undisturbed
      rwa [hproc, Function.update_self]
    · exact .of_eq (hmode r he) (by rw [hproc, Function.update_of_ne he])

theorem release_at (hon : s.cpu c = .on p) (hlock : s.lock = none ∨ s.lock = some c)
    (hrun : (s.proc p).state = .running) : Cpus (s.release p) :=
  h.exec_at hon rfl (.inr ⟨hlock, .inl ⟨rfl, by simp⟩⟩) (by simp [Fits, hrun, Mode.isSched]) fun q hq =>
    .of_eq (by simp [hq]) rfl

theorem sched_at {x : Proc n} {k : Saved} (hon : s.cpu c = .on p) (hlock : s.lock = none ∨ s.lock = some c)
    (hx : x.state.away) : Cpus { (s.setProc p x).setMode p (.sched k) with lock := some c } :=
  h.exec_at hon rfl (.inr ⟨hlock, .inr ⟨rfl, by simp⟩⟩) (by simp [Fits, hx, Mode.isSched]) fun q hq =>
    .of_eq (by simp [hq]) (by simp [hq])

theorem waits (hon : s.cpu c = .on p) (hlock : s.lock = none ∨ s.lock = some c)
    (hrun : (s.proc p).state = .running) (ht : Waits c p s t) : Cpus t := by
  cases ht with
  | @reap q hfound hparent hstate =>
    have hne : q ≠ p := by
      rintro rfl
      rw [hrun] at hstate
      cases hstate
    refine h.exec_at hon rfl (.inr ⟨hlock, .inl ⟨rfl, by simp [reap]⟩⟩) ?_ fun r hr => ?_
    · simp [reap, Fits, hne.symm, hrun, Mode.isSched]
    · by_cases he : r = q
      · subst he
        refine .inr ⟨h.no_cpu_of_away hlock ?_ (by rw [hstate]; rfl), .inl ?_⟩
        · simp [hon, Cpu.proc, hne.symm]
        · simp [reap]
      · exact .of_eq (by simp [reap, hr]) (by simp [reap, he])
  | give hnone => exact h.release_at hon hlock hrun
  | sleep hnone halive => exact h.sched_at hon hlock rfl

theorem tidied (hon : s.cpu c = .on p) : Cpus (tidy p s) :=
  h.set_at hon rfl rfl rfl rfl (fun _ _ => rfl) (.inl ⟨rfl, .inl rfl⟩)

theorem resumes {k : Saved} (hon : s.cpu c = .on p) (hmode : s.mode p = .saved k) (ht : Resumes c p s k t) :
    Cpus t := by
  have hlock : s.lock = some c := (h.holds_on hon).mpr (by rw [hmode]; exact nofun)
  have hrun := h.running_of_saved hon hmode
  have hrun' : ((tidy p s).proc p).state = .running := by simpa [tidy] using hrun
  cases ht with
  | forkret => exact h.release_at hon (.inr hlock) hrun
  | yield => exact h.release_at hon (.inr hlock) hrun
  | sleep => exact (h.tidied hon).release_at hon (.inr hlock) hrun'
  | wait ht => exact (h.tidied hon).waits hon (.inr hlock) hrun' ht

theorem does {ok : Bool} (hf : Forks s) (hon : s.cpu c = .on p) (ht : Does c p s ok t) : Cpus t := by
  have hchild {np} (hpc : (s.pc p).child = some np) : np ≠ p ∧ ∀ c, (s.cpu c).proc ≠ some np := by
    have hnone := h.no_cpu (.inr (hf.embryo hpc))
    exact ⟨fun he => hnone c (by rw [hon, he]; rfl), hnone⟩
  have hset {t : Sys C n} {np x} (hpc : (s.pc p).child = some np) (hcpu : t.cpu = s.cpu) (hlock : t.lock = s.lock)
      (hproc : t.proc = Function.update s.proc np x) (hother : ∀ r, r ≠ np → t.mode r = s.mode r)
      (hoff : Off x.state (t.mode np)) : Cpus t :=
    h.set_at hon hcpu hlock hproc (hother p (hchild hpc).1.symm) hother (.inr ⟨(hchild hpc).2, hoff⟩)
  have hembryo {np} (hpc : (s.pc p).child = some np) (m) : Off (s.proc np).state m := .inr (.inl (hf.embryo hpc))
  cases ht with
  | stack hpc =>
    have hpc := congrArg Pc.child hpc
    exact hset hpc rfl rfl rfl (fun r hr => by simp [hr]) (hembryo hpc _)
  | noStack hpc => exact hset (congrArg Pc.child hpc) rfl rfl rfl (fun _ _ => rfl) (.inl rfl)
  | copy hpc =>
    have hpc := congrArg Pc.child hpc
    exact hset hpc rfl rfl rfl (fun _ _ => rfl) (hembryo hpc _)
  | noCopy hpc => exact hset (congrArg Pc.child hpc) rfl rfl rfl (fun _ _ => rfl) (.inl rfl)
  | parent hpc =>
    have hpc := congrArg Pc.child hpc
    exact hset hpc rfl rfl rfl (fun _ _ => rfl) (hembryo hpc _)
  | files hpc =>
    have hpc := congrArg Pc.child hpc
    exact hset hpc rfl rfl rfl (fun _ _ => rfl) (hembryo hpc _)
  | signals hpc =>
    have hpc := congrArg Pc.child hpc
    exact hset hpc rfl rfl rfl (fun _ _ => rfl) (hembryo hpc _)
  | ready hpc hlock =>
    refine hset (congrArg Pc.child hpc) rfl rfl rfl (fun _ _ => rfl) (.inr (.inr ⟨rfl, ?_⟩))
    have hsaved := hf.saved (congrArg Pc.child hpc) (by rw [hpc]; exact Nat.le_add_left 1 4)
    simp [hsaved.1, Mode.isSaved]
  | exit hpc hlock ht =>
    have hmode : t.mode = Function.update s.mode p (.sched .exit) := by rw [ht.rest]
    refine h.exec_at hon (by rw [ht.rest]) (.inr ⟨.inl hlock, .inr ⟨by rw [ht.rest], by simp [hmode]⟩⟩) ?_
      fun q hq => ?_
    · simp [hmode, ht.zombie, Fits, ProcState.away, Mode.isSched]
    · refine .inl ⟨by simp [hmode, hq], (ht.state q hq).imp_right fun hs => ?_⟩
      simp [hs.1, hs.2, ProcState.away]
  | @light ok pid target signum hpc =>
    cases target with
    | none => exact h.exec_at hon rfl (.inl ⟨rfl, rfl⟩) (h.fits_on hon) fun q hq => .of_eq rfl rfl
    | some q => exact h.set_at hon rfl rfl rfl rfl (fun _ _ => rfl) (.inl ⟨rfl, .inl rfl⟩)

theorem calls {x : Call} (hon : s.cpu c = .on p) (hmode : s.mode p = .go) (ht : Calls c p s x t) :
    Cpus t := by
  have hrun := h.running_of_go hon hmode
  cases ht with
  | noFork => exact h
  | fork hlock hnp hfind =>
    exact h.set_at hon rfl rfl rfl rfl (fun _ _ => rfl) (.inr ⟨h.no_cpu (.inl hnp), .inr (.inl rfl)⟩)
  | exit hinit => exact h.set_at hon rfl rfl rfl rfl (fun _ _ => rfl) (.inl ⟨rfl, .inl rfl⟩)
  | wait hlock ht => exact h.waits hon (.inl hlock) hrun ht
  | noKill => exact h
  | @kill pid q hlock hq =>
    refine h.set_at hon rfl rfl rfl rfl (fun _ _ => rfl) (.inl ⟨rfl, ?_⟩)
    by_cases hsleep : (s.proc q).state = .sleeping
    · exact .inr ⟨by rw [hsleep]; rfl, by simp [hsleep, ProcState.away]⟩
    · exact .inl (by simp [hsleep])
  | find hlock hx => exact h.exec_at hon rfl (.inl ⟨rfl, rfl⟩) (h.fits_on hon) fun q hq => .of_eq rfl rfl
  | noSignal => exact h
  | sleep hlock => exact h.sched_at hon (.inl hlock) rfl
  | own => exact h.set_at hon rfl rfl rfl rfl (fun _ _ => rfl) (.inl ⟨rfl, .inl rfl⟩)

theorem lock_of_scan {i : Nat} (hcpu : s.cpu c = .scan i) : s.lock = some c := by
  rw [h.lock c, Sys.Holds, hcpu]
  trivial

theorem lock_of_chosen (hcpu : s.cpu c = .chosen p) : s.lock = some c := by
  rw [h.lock c, Sys.Holds, hcpu]
  trivial

theorem lock_of_back (hcpu : s.cpu c = .back p) : s.lock = some c := by
  rw [h.lock c, Sys.Holds, hcpu]
  trivial

end

variable [DecidableEq C]

theorem leave {x : Cpu n} {l : Option C} (h : Cpus s) (hx : x.proc = none)
    (hold : ∀ p, (s.cpu c).proc = some p → Off (s.proc p).state (s.mode p)) (hlock : s.lock = none ∨ s.lock = some c)
    (hown : l = some c ∧ x ≠ .idle ∨ l = none ∧ x = .idle) : Cpus { s.setCpu c x with lock := l } := by
  refine h.step_at c (fun c' hc' => by simp [hc']) (fun c' hc' => ?_) ?_ (fun p hp => ?_) (fun p hp => .inr (hold p hp))
    (fun p _ _ => .of_eq rfl rfl)
  · grind
  · rw [Sys.Holds, Sys.setCpu_cpu, Function.update_self]
    cases x <;> simp_all [Cpu.proc]
  · simp [hx] at hp

theorem schedules (h : Cpus s) (ht : Schedules c s t) : Cpus t := by
  cases ht with
  | acquire hcpu hlock =>
    exact h.leave rfl (fun p hp => by rw [hcpu] at hp; cases hp) (.inl hlock) (.inl ⟨rfl, nofun⟩)
  | @skip i j hcpu =>
    have hlock := h.lock_of_scan hcpu
    have ht := h.leave (x := .scan j) (l := s.lock) rfl (fun p hp => by rw [hcpu] at hp; cases hp) (.inr hlock)
      (.inl ⟨hlock, nofun⟩)
    exact ht
  | @choose i p hcpu hstate =>
    have hlock := h.lock_of_scan hcpu
    have hnone := h.no_cpu_of_away (.inr hlock) (by simp [hcpu, Cpu.proc]) (by rw [hstate]; rfl)
    have hsaved : (s.mode p).isSaved = true := by
      have hoff := h.off hnone
      simp_all [Off]
    refine h.step_at c (fun c' hc' => by simp [hc']) (fun c' hc' => .rfl) (by simp [hlock, Sys.Holds]) (fun q hq => ?_)
      (fun q hq => ?_) (fun q _ hq => ?_)
    · simp only [Sys.setCpu_cpu, Function.update_self, Cpu.proc, Option.some.injEq] at hq
      subst hq
      exact ⟨by simp [Fits, hsaved], fun c' _ => hnone c'⟩
    · simp [hcpu, Cpu.proc] at hq
    · have hne : q ≠ p := by
        rintro rfl
        exact hq (by simp [Cpu.proc])
      exact .of_eq rfl (by simp [hne])
  | release hcpu =>
    exact h.leave rfl (fun p hp => by rw [hcpu] at hp; cases hp) (.inr (h.lock_of_scan hcpu)) (.inr ⟨rfl, rfl⟩)
  | @enter p hcpu =>
    have hlock := h.lock_of_chosen hcpu
    have hfits := hcpu ▸ h.fits (c := c) (p := p) (by rw [hcpu]; rfl)
    obtain ⟨hrun, hsaved⟩ := hfits
    have hmode : s.mode p ≠ .go ∧ (s.mode p).isSched = false := by
      cases hm : s.mode p <;> simp_all [Mode.isSaved, Mode.isSched]
    refine h.step_at c (fun c' hc' => by simp [hc']) (fun c' hc' => .rfl) (by simp [hlock, Sys.Holds, hmode])
      (fun q hq => ?_) (fun q hq => .inl ?_) (fun q _ _ => .of_eq rfl rfl)
    · simp only [Sys.setCpu_cpu, Function.update_self, Cpu.proc, Option.some.injEq] at hq
      subst hq
      refine ⟨by simp [Fits, hrun, hmode], fun c' hc' hq' => hc' (h.only hq' ?_)⟩
      rw [hcpu]
      rfl
    · simpa [hcpu, Cpu.proc] using hq
  | @back p j hcpu =>
    have hlock := h.lock_of_back hcpu
    have hfits := hcpu ▸ h.fits (c := c) (p := p) (by rw [hcpu]; rfl)
    have ht := h.leave (x := .scan j) (l := s.lock) rfl (fun q hq => ?_) (.inr hlock) (.inl ⟨hlock, nofun⟩)
    · exact ht
    · rw [hcpu] at hq
      cases hq
      exact .inr (.inr hfits)

theorem swtch {k : Saved} (h : Cpus s) (hon : s.cpu c = .on p) (hmode : s.mode p = .sched k) :
    Cpus ((s.setMode p (.saved k)).setCpu c (.back p)) := by
  have hlock : s.lock = some c := (h.holds_on hon).mpr (by rw [hmode]; exact nofun)
  have haway : (s.proc p).state.away = true := by
    rcases h.fits_on hon with ⟨-, hsched⟩ | ⟨haway, -⟩
    · rw [hmode] at hsched
      exact absurd rfl hsched
    · exact haway
  refine h.step_at c (fun c' hc' => by simp [hc']) (fun c' hc' => .rfl) (by simp [hlock, Sys.Holds])
    (fun q hq => ?_) (fun q hq => .inl ?_) (fun q hq _ => .of_eq ?_ rfl)
  · simp only [Sys.setCpu_cpu, Function.update_self, Cpu.proc, Option.some.injEq] at hq
    subst hq
    refine ⟨by simp [Fits, haway, Mode.isSaved], fun c' hc' hq' => hc' (h.only hq' ?_)⟩
    rw [hon]
    rfl
  · simpa [hon, Cpu.proc] using hq
  · have hne : q ≠ p := by
      rintro rfl
      exact hq (by rw [hon]; rfl)
    simp [hne]

theorem moves {a : Act C} (h : Cpus s) (hf : Forks s) (ht : Moves s a t) : Cpus t := by
  cases ht with
  | schedule ht => exact h.schedules ht
  | swtch hon hmode => exact h.swtch hon hmode
  | resume hon hmode ht => exact h.resumes hon hmode ht
  | exec hon hmode ht => exact h.does hf hon ht
  | call hon hmode hpc ht => exact h.calls hon hmode ht
  | yield hon hmode hlock => exact h.sched_at hon (.inl hlock) rfl
  | @wakeup c a t hlock ht =>
    have hcpu : t.cpu = s.cpu := by rw [ht.rest]
    have hmode : t.mode = s.mode := by rw [ht.rest]
    have hkeep (q) : Undisturbed s t q := .inl ⟨by rw [hmode], (ht.state q).imp_right fun hq => by
      simp [hq.1, hq.2.2, ProcState.away]⟩
    refine h.step_at c (fun _ _ => by rw [hcpu]) (fun _ _ => by rw [ht.rest]) ?_ (fun q hq => ?_) (fun q hq => .inl ?_)
      (fun q _ _ => hkeep q)
    · have hlock' : t.lock = s.lock := by rw [ht.rest]
      rw [hlock', h.lock c, Sys.Holds, Sys.Holds, hcpu, hmode]
    · rw [hcpu] at hq ⊢
      exact ⟨((hkeep q).fits hq (h.fits hq)).2, fun c' hc' hq' => hc' (h.only hq' hq)⟩
    · rwa [hcpu]

end Cpus

end Xv6.Ptable
