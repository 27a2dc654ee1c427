import Xv6.Ptable.Cpus

/-!
# Forks under way
-/

open Function (update update_of_ne update_self)

namespace Xv6.Ptable

variable {C : Type} {n : Nat} {s t : Sys C n} {c : C} {p np : Fin n}

/-- A process has no open file while nobody has the entry, and from where it has closed them until `wait`. -/
def Closed (s : Sys C n) : Prop :=
  ∀ p, (s.proc p).state = .unused ∨ (s.proc p).state = .zombie ∨ s.pc p = .exitLock ∧ (s.proc p).state ≠ .embryo →
    (s.proc p).ofile = fun _ => none

structure Alike (x y : Proc n) : Prop where
  state : y.state = x.state
  kstack : y.kstack = x.kstack
  pgdir : y.pgdir = x.pgdir
  parent : y.parent = x.parent
  ofile : y.ofile = x.ofile
  cwd : y.cwd = x.cwd
  signals : y.signals = x.signals

theorem Alike.refl (x : Proc n) : Alike x x := ⟨rfl, rfl, rfl, rfl, rfl, rfl, rfl⟩

theorem Alike.update {q : Fin n} {x : Proc n} (ht : t.proc = update s.proc q x) (hx : Alike (s.proc q) x)
    (r : Fin n) : Alike (s.proc r) (t.proc r) := by
  rw [ht]
  by_cases he : r = q
  · subst he
    rwa [update_self]
  · rw [update_of_ne he]
    exact .refl _

theorem Made.congr {k : Nat} {x x' y y' : Proc n} (h : Made k p x y) (hofile : x'.ofile = x.ofile)
    (hcwd : x'.cwd = x.cwd) (hsignals : x'.signals = x.signals) (hy : Alike y y') : Made k p x' y' where
  embryo := hy.state.trans h.embryo
  kstack hk := hy.kstack.trans (h.kstack hk)
  pgdir hk := hy.pgdir.trans (h.pgdir hk)
  parent hk := hy.parent.trans (h.parent hk)
  ofile := by rw [hy.ofile, hofile, h.ofile]
  cwd hk := by rw [hy.cwd, hcwd, h.cwd hk]
  signals hk := by rw [hy.signals, hsignals, h.signals hk]

namespace Made

variable {x y : Proc n}

theorem stack (h : Made 0 p x y) : Made 1 p x { y with kstack := true } :=
  ⟨h.embryo, fun _ => rfl, by omega, by omega, h.ofile, by omega, by omega⟩

theorem copy (h : Made 1 p x y) : Made 2 p x { y with pgdir := true } :=
  ⟨h.embryo, fun _ => h.kstack le_rfl, fun _ => rfl, by omega, h.ofile, by omega, by omega⟩

theorem setParent (h : Made 2 p x y) : Made 3 p x { y with parent := some p } :=
  ⟨h.embryo, fun _ => h.kstack (by omega), fun _ => h.pgdir le_rfl, fun _ => rfl, h.ofile, by omega, by omega⟩

theorem files (h : Made 3 p x y) : Made 4 p x { y with
    ofile := fun fd => if x.ofile fd = none then y.ofile fd else x.ofile fd
    cwd := x.cwd } := by
  refine ⟨h.embryo, fun _ => h.kstack (by omega), fun _ => h.pgdir (by omega), fun _ => h.parent le_rfl, ?_,
    fun _ => rfl,
    by omega⟩
  funext fd
  have hnone : y.ofile fd = none := congrFun h.ofile fd
  by_cases hfd : x.ofile fd = none
  · simp [hfd, hnone]
  · simp [hfd]

theorem copySignals (h : Made 4 p x y) : Made 5 p x { y with signals := x.signals, pending := 0 } :=
  ⟨h.embryo, fun _ => h.kstack (by omega), fun _ => h.pgdir (by omega), fun _ => h.parent (by omega), h.ofile,
    fun _ => h.cwd le_rfl, fun _ => rfl⟩

end Made

theorem goto_child {x : Pc n} (ht : t.pc = update s.pc p x) (hx : x.child = (s.pc p).child)
    (hstage : x.stage = (s.pc p).stage) (q : Fin n) :
    (t.pc q).child = (s.pc q).child ∧ (t.pc q).stage = (s.pc q).stage := by
  rw [ht]
  by_cases he : q = p
  · subst he
    simp [hx, hstage]
  · simp [he]

namespace Forks

section

variable (h : Forks s)
include h

theorem of_old
    (hold : ∀ {q r}, (t.pc q).child = some r → (s.pc q).child = some r ∧ (t.proc q).state.busy ∧ (t.mode q).turn ∧
      Made (t.pc q).stage q (t.proc q) (t.proc r) ∧ (1 ≤ (t.pc q).stage → t.mode r = .saved .forkret ∧ t.pc r = .run)) :
    Forks t where
  busy hq := (hold hq).2.1
  turn hq := (hold hq).2.2.1
  only hq hr := h.only (hold hq).1 (hold hr).1
  made hq := (hold hq).2.2.2.1
  saved hq hstage := (hold hq).2.2.2.2 hstage

theorem not_busy {q : Fin n} (hp : (s.pc p).child = some np) (hq : (s.pc q).child ≠ none) : q ≠ np := by
  rintro rfl
  obtain ⟨r, hr⟩ := Option.ne_none_iff_exists'.mp hq
  have hbusy := h.busy hr
  rw [h.embryo hp] at hbusy
  cases hbusy

theorem exec_at (hc : Cpus s) (hon : s.cpu c = .on p)
    (hpc : ∀ q, (t.pc q).child = (s.pc q).child ∧ (t.pc q).stage = (s.pc q).stage) (hpc' : ∀ q, q ≠ p → t.pc q = s.pc q)
    (hp : (s.pc p).child ≠ none → (s.mode p).turn → (t.proc p).state.busy ∧ (t.mode p).turn ∧
      (t.proc p).ofile = (s.proc p).ofile ∧ (t.proc p).cwd = (s.proc p).cwd ∧ (t.proc p).signals = (s.proc p).signals)
    (hrest : ∀ q, q ≠ p → t.mode q = s.mode q ∧ (Alike (s.proc q) (t.proc q) ∨
      (s.proc q).state = .sleeping ∨ (s.proc q).state = .zombie)) : Forks t := by
  refine h.of_old fun {q r} hq => ?_
  rw [(hpc q).1] at hq
  rw [(hpc q).2]
  have hr : r ≠ p := by
    rintro rfl
    exact hc.no_cpu (.inr (h.embryo hq)) c (by rw [hon]; rfl)
  have hchild : Alike (s.proc r) (t.proc r) := by
    rcases (hrest r hr).2 with halike | hstate | hstate
    · exact halike
    · simp [h.embryo hq] at hstate
    · simp [h.embryo hq] at hstate
  have hsaved (hstage : 1 ≤ (s.pc q).stage) : t.mode r = .saved .forkret ∧ t.pc r = .run := by
    rw [(hrest r hr).1, hpc' r hr]
    exact h.saved hq hstage
  by_cases he : q = p
  · subst he
    obtain ⟨hbusy, hturn, hofile, hcwd, hsignals⟩ := hp (by rw [hq]; exact nofun) (h.turn hq)
    exact ⟨hq, hbusy, hturn, (h.made hq).congr hofile hcwd hsignals hchild, hsaved⟩
  · obtain ⟨hmode, halike | hstate | hstate⟩ := hrest q he
    · refine ⟨hq, ?_, ?_, (h.made hq).congr halike.ofile halike.cwd halike.signals hchild, hsaved⟩
      · rw [halike.state]
        exact h.busy hq
      · rw [hmode]
        exact h.turn hq
    · have hbusy := h.busy hq
      rw [hstate] at hbusy
      cases hbusy
    · have hbusy := h.busy hq
      rw [hstate] at hbusy
      cases hbusy

theorem advance {x : Pc n} {y : Proc n} (hp : (s.pc p).child = some np) (hx : x.child = some np)
    (hpc : t.pc p = x) (hpc' : ∀ q, q ≠ p → q ≠ np → t.pc q = s.pc q) (hrun : t.pc np = .run)
    (hproc : t.proc = update s.proc np y) (hy : Made x.stage p (s.proc p) y)
    (hmode : ∀ q, q ≠ np → t.mode q = s.mode q) (hsaved : t.mode np = .saved .forkret) : Forks t := by
  have hne : p ≠ np := h.not_busy hp (by rw [hp]; exact nofun)
  refine h.of_old fun {q r} hq => ?_
  have hqnp : q ≠ np := by
    rintro rfl
    rw [hrun] at hq
    cases hq
  rw [hproc, update_of_ne hqnp, hmode q hqnp]
  by_cases he : q = p
  · subst he
    rw [hpc] at hq ⊢
    obtain rfl : np = r := Option.some.inj (hx.symm.trans hq)
    rw [update_self]
    exact ⟨hp, h.busy hp, h.turn hp, hy, fun _ => ⟨hsaved, hrun⟩⟩
  · rw [hpc' q he hqnp] at hq ⊢
    have hrnp : r ≠ np := fun hr => he (h.only (hr ▸ hq) hp)
    have hrp : r ≠ p := (h.not_busy hq (by rw [hp]; exact nofun)).symm
    rw [update_of_ne hrnp, hmode r hrnp, hpc' r hrp hrnp]
    exact ⟨hq, h.busy hq, h.turn hq, h.made hq, h.saved hq⟩

theorem finish {y : Proc n} (hp : (s.pc p).child = some np) (hpc : t.pc = update s.pc p .run)
    (hproc : t.proc = update s.proc np y) (hmode : t.mode = s.mode) : Forks t := by
  refine h.of_old fun {q r} hq => ?_
  have hqp : q ≠ p := by
    rintro rfl
    rw [hpc, update_self] at hq
    cases hq
  rw [hpc, update_of_ne hqp] at hq
  have hqnp : q ≠ np := h.not_busy hp (by rw [hq]; exact nofun)
  have hrnp : r ≠ np := fun hr => hqp (h.only (hr ▸ hq) hp)
  have hrp : r ≠ p := (h.not_busy hq (by rw [hp]; exact nofun)).symm
  rw [hpc, hproc, hmode, update_of_ne hqp, update_of_ne hqnp, update_of_ne hrnp,
    update_of_ne hrp]
  exact ⟨hq, h.busy hq, h.turn hq, h.made hq, h.saved hq⟩

theorem start {y : Proc n} (hc : Cpus s) (hon : s.cpu c = .on p) (hmode : s.mode p = .go)
    (hnp : (s.proc np).state = .unused) (hy : Made 0 p (s.proc p) y) (hproc : t.proc = update s.proc np y)
    (hpc : t.pc = update s.pc p (.forkStack np)) (hsame : t.mode = s.mode) : Forks t := by
  have hrun := hc.running_of_go hon hmode
  have hne : np ≠ p := by
    rintro rfl
    rw [hrun] at hnp
    cases hnp
  have hnew {q r} (hq : (t.pc q).child = some r) : q = p ∧ r = np ∨
      q ≠ p ∧ t.pc q = s.pc q ∧ (s.pc q).child = some r ∧ q ≠ np ∧ r ≠ np := by
    rw [hpc] at hq ⊢
    by_cases he : q = p
    · subst he
      rw [update_self] at hq
      exact .inl ⟨rfl, (Option.some.inj hq).symm⟩
    · rw [update_of_ne he] at hq ⊢
      refine .inr ⟨he, rfl, hq, ?_, ?_⟩
      · rintro rfl
        have hbusy := h.busy hq
        rw [hnp] at hbusy
        cases hbusy
      · rintro rfl
        rw [h.embryo hq] at hnp
        cases hnp
  refine ⟨fun hq => ?_, fun hq => ?_, fun hq hr => ?_, fun hq => ?_, fun {q r} hq hstage => ?_⟩
  · rcases hnew hq with ⟨rfl, rfl⟩ | ⟨-, -, hq, hne, -⟩
    · rw [hproc, update_of_ne hne.symm, hrun]
      rfl
    · rw [hproc, update_of_ne hne]
      exact h.busy hq
  · rw [hsame]
    rcases hnew hq with ⟨rfl, rfl⟩ | ⟨-, -, hq, -⟩
    · rw [hmode]
      rfl
    · exact h.turn hq
  · rcases hnew hq with ⟨hqp, hnp⟩ | ⟨-, -, hq, -, hq'⟩ <;> rcases hnew hr with ⟨hrp, hnp'⟩ | ⟨-, -, hr, -, hr'⟩
    · exact hqp.trans hrp.symm
    · exact absurd hnp hr'
    · exact absurd hnp' hq'
    · exact h.only hq hr
  · rcases hnew hq with ⟨rfl, rfl⟩ | ⟨-, hsame, hq, hq', hr'⟩
    · rw [hproc, hpc, update_self, update_self, update_of_ne hne.symm]
      exact hy
    · rw [hsame, hproc, update_of_ne hq', update_of_ne hr']
      exact h.made hq
  · rcases hnew hq with ⟨rfl, rfl⟩ | ⟨hqp, hold, hq, -, hr'⟩
    · rw [hpc, update_self] at hstage
      cases hstage
    · rw [hold] at hstage
      have hr : r ≠ p := by
        rintro rfl
        rw [h.embryo hq] at hrun
        cases hrun
      rw [hsame, hpc, update_of_ne hr]
      exact h.saved hq hstage

theorem waits (hc : Cpus s) (hon : s.cpu c = .on p) (hnone : (s.pc p).child = none) (ht : Waits c p s t) :
    Forks t := by
  cases ht with
  | @reap q hfound hparent hstate =>
    refine h.exec_at hc hon (fun _ => ⟨rfl, rfl⟩) (fun _ _ => rfl) (fun hp => absurd hnone hp) fun r hr =>
      ⟨by simp [reap, hr], ?_⟩
    by_cases he : r = q
    · exact .inr (.inr (he ▸ hstate))
    · exact .inl (by simpa [reap, he] using .refl _)
  | give =>
    exact h.exec_at hc hon (fun _ => ⟨rfl, rfl⟩) (fun _ _ => rfl) (fun hp => absurd hnone hp) fun q hq =>
      ⟨by simp [hq], .inl (.refl _)⟩
  | sleep =>
    exact h.exec_at hc hon (fun _ => ⟨rfl, rfl⟩) (fun _ _ => rfl) (fun hp => absurd hnone hp) fun q hq =>
      ⟨by simp [sleep, hq], .inl (by simpa [sleep, hq] using .refl _)⟩

theorem tidied (hc : Cpus s) (hon : s.cpu c = .on p) : Forks (tidy p s) :=
  h.exec_at hc hon (fun _ => ⟨rfl, rfl⟩) (fun _ _ => rfl)
    (fun hp hturn => by
      obtain ⟨np, hnp⟩ := Option.ne_none_iff_exists'.mp hp
      simpa [tidy] using ⟨h.busy hnp, hturn⟩)
    fun q hq => ⟨rfl, .inl (Alike.update rfl (by constructor <;> rfl) q)⟩

theorem resumes {k : Saved} (hc : Cpus s) (hon : s.cpu c = .on p) (hmode : s.mode p = .saved k)
    (ht : Resumes c p s k t) : Forks t := by
  have hrelease {s : Sys C n} (h : Forks s) (hc : Cpus s) (hon : s.cpu c = .on p)
      (hrun : (s.proc p).state = .running) : Forks (s.release p) :=
    h.exec_at hc hon (fun _ => ⟨rfl, rfl⟩) (fun _ _ => rfl) (fun _ _ => by simp [hrun, ProcState.busy, Mode.turn])
      fun q hq => ⟨by simp [hq], .inl (.refl _)⟩
  have hrun := hc.running_of_saved hon hmode
  cases ht with
  | forkret => exact hrelease h hc hon hrun
  | yield => exact hrelease h hc hon hrun
  | sleep => exact hrelease (h.tidied hc hon) (hc.tidied hon) hon (by simpa [tidy] using hrun)
  | wait ht =>
    refine (h.tidied hc hon).waits (hc.tidied hon) hon (Option.eq_none_iff_forall_ne_some.mpr fun np hp => ?_) ht
    have hturn := h.turn hp
    rw [hmode] at hturn
    cases hturn

theorem does {ok : Bool} (hc : Cpus s) (hon : s.cpu c = .on p) (ht : Does c p s ok t) : Forks t := by
  have hgo {t : Sys C n} {np x y} (hp : (s.pc p).child = some np) (hx : x.child = some np) (hstage : 1 ≤ (s.pc p).stage)
      (hpc : t.pc = update s.pc p x) (hproc : t.proc = update s.proc np y)
      (hy : Made x.stage p (s.proc p) y) (hmode : t.mode = s.mode) : Forks t := by
    have hne : np ≠ p := (h.not_busy hp (by rw [hp]; exact nofun)).symm
    exact h.advance hp hx (by simp [hpc]) (fun q hq _ => by simp [hpc, hq]) (by simp [hpc, hne, (h.saved hp hstage).2])
      hproc hy (fun q _ => by rw [hmode]) (by rw [hmode, (h.saved hp hstage).1])
  have hmade {np k} (hp : (s.pc p).child = some np) (hk : (s.pc p).stage = k) : Made k p (s.proc p) (s.proc np) :=
    hk ▸ h.made hp
  cases ht with
  | @stack np hpc =>
    have hp := congrArg Pc.child hpc
    have hne : np ≠ p := (h.not_busy hp (by rw [hpc]; exact nofun)).symm
    exact h.advance hp (x := .forkCopy np) rfl (by simp) (fun q hq hq' => by simp [hq, hq']) (by simp [hne]) (by rfl)
      (hmade hp (by rw [hpc]; rfl)).stack (fun q hq => by simp [hq]) (by simp)
  | noStack hpc => exact h.finish (congrArg Pc.child hpc) rfl rfl rfl
  | @copy np hpc =>
    have hp := congrArg Pc.child hpc
    exact hgo (x := .forkParent np) hp rfl (by simp [hpc, Pc.stage]) rfl rfl (hmade hp (by rw [hpc]; rfl)).copy rfl
  | noCopy hpc => exact h.finish (congrArg Pc.child hpc) rfl rfl rfl
  | @parent ok np hpc =>
    have hp := congrArg Pc.child hpc
    exact hgo (x := .forkFiles np) hp rfl (by simp [hpc, Pc.stage]) rfl rfl (hmade hp (by rw [hpc]; rfl)).setParent rfl
  | @files ok np hpc =>
    have hp := congrArg Pc.child hpc
    exact hgo (x := .forkSignals np) hp rfl (by simp [hpc, Pc.stage]) rfl rfl (hmade hp (by rw [hpc]; rfl)).files rfl
  | @signals ok np hpc =>
    have hp := congrArg Pc.child hpc
    exact hgo (x := .forkReady np) hp rfl (by simp [hpc, Pc.stage]) rfl rfl
      (hmade hp (by rw [hpc]; rfl)).copySignals rfl
  | ready hpc hlock => exact h.finish (congrArg Pc.child hpc) rfl rfl rfl
  | exit hpc hlock ht =>
    have hmode : t.mode = update s.mode p (.sched .exit) := by rw [ht.rest]
    have hsame : t.pc = s.pc := by rw [ht.rest]
    refine h.of_old fun {q r} hq => ?_
    rw [hsame] at hq ⊢
    have hqp : q ≠ p := by
      rintro rfl
      rw [hpc] at hq
      cases hq
    have hrp : r ≠ p := by
      rintro rfl
      exact hc.no_cpu (.inr (h.embryo hq)) c (by rw [hon]; rfl)
    have hbusy := h.busy hq
    have hqs : (t.proc q).state = (s.proc q).state := (ht.state q hqp).resolve_right fun hs => by
      rw [hs.1] at hbusy
      cases hbusy
    have hrs : (t.proc r).state = (s.proc r).state := (ht.state r hrp).resolve_right fun hs => by
      rw [h.embryo hq] at hs
      cases hs.1
    rw [hqs, hmode, update_of_ne hqp, update_of_ne hrp]
    -- the new process of `q` is not one of the children that pass to init
    have hmade := h.made hq
    have hparent (hk : 3 ≤ (s.pc q).stage) : (t.proc r).parent = some q := by
      rw [ht.parent r, hmade.parent hk, if_neg (by simpa using hqp)]
    refine ⟨hq, hbusy, h.turn hq, ?_, h.saved hq⟩
    rw [ht.proc q, ht.proc r, hrs]
    exact ⟨hmade.embryo, hmade.kstack, hmade.pgdir, hparent, hmade.ofile, hmade.cwd, hmade.signals⟩
  | @light ok pid target signum hpc =>
    refine h.exec_at hc hon (goto_child (x := .run) ?_ (by rw [hpc]; rfl) (by rw [hpc]; rfl)) (fun q hq => ?_)
      (fun hp => absurd (by rw [hpc]; rfl) hp) fun q hq => ?_
    · cases target <;> rfl
    · cases target <;> simp [light, hq]
    · cases target with
      | none => exact ⟨rfl, .inl (.refl _)⟩
      | some r => exact ⟨rfl, .inl (Alike.update rfl (by constructor <;> rfl) q)⟩

theorem calls {x : Call} (hc : Cpus s) (hz : Closed s) (hon : s.cpu c = .on p) (hmode : s.mode p = .go)
    (hpc : s.pc p = .run) (ht : Calls c p s x t) : Forks t := by
  have hnone : (s.pc p).child = none := by rw [hpc]; rfl
  have hgoto {t : Sys C n} {x : Pc n} (ht : t.pc = update s.pc p x) (hx : x.child = none) (hstage : x.stage = 0) :=
    goto_child ht (by rw [hnone, hx]) (by rw [hpc, hstage]; rfl)
  cases ht with
  | noFork => exact h
  | @fork np hlock hnp hfind =>
    refine h.start hc hon hmode hnp ?_ rfl rfl rfl
    exact ⟨rfl, by omega, by omega, by omega, hz np (.inl hnp), by omega, by omega⟩
  | exit hinit =>
    exact h.exec_at hc hon (hgoto rfl rfl rfl) (fun q hq => by simp [exitFiles, hq]) (fun hp => absurd hnone hp)
      fun q hq => ⟨rfl, .inl (by simpa [exitFiles, hq] using .refl _)⟩
  | wait hlock ht => exact h.waits hc hon hnone ht
  | noKill => exact h
  | @kill pid q hlock hq =>
    refine h.exec_at hc hon (fun _ => ⟨rfl, rfl⟩) (fun _ _ => rfl) (fun hp => absurd hnone hp) fun r hr => ⟨rfl, ?_⟩
    by_cases he : r = q
    · subst he
      by_cases hsleep : (s.proc r).state = .sleeping
      · exact .inr (.inl hsleep)
      · exact .inl (Alike.update rfl (by constructor <;> simp [hsleep]) r)
    · exact .inl (by simpa [he] using .refl _)
  | find hlock hx =>
    exact h.exec_at hc hon (hgoto rfl rfl rfl) (fun q hq => by simp [hq]) (fun hp => absurd hnone hp) fun q hq =>
      ⟨rfl, .inl (.refl _)⟩
  | noSignal => exact h
  | sleep hlock =>
    exact h.exec_at hc hon (fun _ => ⟨rfl, rfl⟩) (fun _ _ => rfl) (fun hp => absurd hnone hp) fun q hq =>
      ⟨by simp [sleep, hq], .inl (by simpa [sleep, hq] using .refl _)⟩
  | own =>
    exact h.exec_at hc hon (fun _ => ⟨rfl, rfl⟩) (fun _ _ => rfl) (fun hp => absurd hnone hp) fun q hq =>
      ⟨rfl, .inl (by simpa [hq] using .refl _)⟩

end

variable [DecidableEq C]

theorem schedules (h : Forks s) (ht : Schedules c s t) : Forks t := by
  cases ht with
  | @choose i p hcpu hstate =>
    refine h.of_old fun {q r} hq => ⟨hq, ?_, h.turn hq, ?_, h.saved hq⟩
    · by_cases he : q = p
      · simp [he, ProcState.busy]
      · simpa [he] using h.busy hq
    · have hne : r ≠ p := by
        rintro rfl
        rw [h.embryo hq] at hstate
        cases hstate
      refine (h.made hq).congr ?_ ?_ ?_ (by simpa [hne] using .refl _) <;> by_cases he : q = p <;> simp [he]
  | _ => exact h.of_old fun hq => ⟨hq, h.busy hq, h.turn hq, h.made hq, h.saved hq⟩

theorem moves {a : Act C} (h : Forks s) (hc : Cpus s) (hz : Closed s) (ht : Moves s a t) : Forks t := by
  cases ht with
  | schedule ht => exact h.schedules ht
  | @swtch c p ok k hon hmode =>
    refine h.exec_at hc hon (fun _ => ⟨rfl, rfl⟩) (fun _ _ => rfl) (fun hp hturn => ?_) fun q hq =>
      ⟨by simp [hq], .inl (.refl _)⟩
    obtain ⟨np, hnp⟩ := Option.ne_none_iff_exists'.mp hp
    refine ⟨h.busy hnp, ?_, rfl, rfl, rfl⟩
    rw [hmode] at hturn
    cases k <;> simp_all [Mode.turn]
  | resume hon hmode ht => exact h.resumes hc hon hmode ht
  | exec hon hmode ht => exact h.does hc hon ht
  | call hon hmode hpc ht => exact h.calls hc hz hon hmode hpc ht
  | yield hon hmode hlock =>
    exact h.exec_at hc hon (fun _ => ⟨rfl, rfl⟩) (fun _ _ => rfl) (fun _ _ => by simp [ProcState.busy, Mode.turn])
      fun q hq => ⟨by simp [hq], .inl (by simpa [hq] using .refl _)⟩
  | wakeup hlock ht =>
    have hmode : t.mode = s.mode := by rw [ht.rest]
    have hpc : t.pc = s.pc := by rw [ht.rest]
    refine h.of_old fun {q r} hq => ?_
    rw [hpc] at hq ⊢
    have hr : t.proc r = s.proc r := by
      rcases ht.state r with hstate | ⟨hsleep, -⟩
      · rw [ht.proc r, hstate]
      · rw [h.embryo hq] at hsleep
        cases hsleep
    have hbusy : (t.proc q).state.busy := by
      rcases ht.state q with hstate | ⟨-, -, hstate⟩
      · rw [hstate]
        exact h.busy hq
      · rw [hstate]
        rfl
    rw [hmode, hr]
    refine ⟨hq, hbusy, h.turn hq, ?_, h.saved hq⟩
    rw [ht.proc q]
    exact (h.made hq).congr rfl rfl rfl (.refl _)

end Forks

namespace Closed

theorem keep (h : Closed s) (hpc : ∀ q, t.pc q = .exitLock → s.pc q = .exitLock)
    (hproc : ∀ q, (t.proc q).ofile = (s.proc q).ofile ∧ ((t.proc q).state = (s.proc q).state ∨
      (s.proc q).state ≠ .embryo ∧ (t.proc q).state ≠ .unused ∧ (t.proc q).state ≠ .zombie)) : Closed t := by
  intro q hq
  obtain ⟨hofile, hstate⟩ := hproc q
  rw [hofile]
  apply h
  have := hpc q
  grind

theorem set {q : Fin n} {x : Proc n} (h : Closed s) (hproc : t.proc = update s.proc q x)
    (hpc : ∀ r, t.pc r = .exitLock → s.pc r = .exitLock ∨ r = q)
    (hx : x.state = .unused ∨ x.state = .zombie ∨ t.pc q = .exitLock ∧ x.state ≠ .embryo → x.ofile = fun _ => none) :
    Closed t := by
  intro r hr
  rw [hproc] at hr ⊢
  by_cases he : r = q
  · subst he
    rw [update_self] at hr ⊢
    exact hx hr
  · rw [update_of_ne he] at hr ⊢
    exact h r (by have := hpc r; grind)

theorem goto_exitLock {x : Pc n} (hx : x ≠ .exitLock) {r : Fin n} (hr : (s.goto p x).pc r = .exitLock) :
    s.pc r = .exitLock := by
  by_cases he : r = p
  · subst he
    simp [hx] at hr
  · simpa [he] using hr

theorem waits (h : Closed s) (hrun : (s.proc p).state = .running) (ht : Waits c p s t) : Closed t := by
  cases ht with
  | @reap q hfound hparent hstate => exact h.set rfl (fun _ hr => .inl hr) fun _ => h q (.inr (.inl hstate))
  | give => exact h
  | sleep =>
    refine h.set rfl (fun _ hr => .inl hr) fun hx => h p (.inr (.inr ⟨?_, by simp [hrun]⟩))
    simpa [sleep] using hx

theorem resumes {k : Saved} (h : Closed s) (hc : Cpus s) (hon : s.cpu c = .on p) (hmode : s.mode p = .saved k)
    (ht : Resumes c p s k t) : Closed t := by
  have hrun := hc.running_of_saved hon hmode
  have htidy : Closed (tidy p s) := h.set rfl (fun _ hr => .inl hr) (h p)
  cases ht with
  | forkret => exact h
  | yield => exact h
  | sleep => exact htidy
  | wait ht => exact htidy.waits (by simpa [tidy] using hrun) ht

theorem does {ok : Bool} (h : Closed s) (hc : Cpus s) (hf : Forks s) (hon : s.cpu c = .on p) (hmode : s.mode p = .go)
    (ht : Does c p s ok t) : Closed t := by
  have hrun := hc.running_of_go hon hmode
  -- an entry in the making is not among those that have no files
  have hgo {t : Sys C n} {np x} (hp : (s.pc p).child = some np) (hpc : ∀ r, t.pc r = .exitLock → s.pc r = .exitLock)
      (hproc : t.proc = update s.proc np x) (hx : x.state = (s.proc np).state) : Closed t := by
    refine h.set hproc (fun r hr => .inl (hpc r hr)) fun hs => ?_
    simp [hx, hf.embryo hp] at hs
  have hend {t : Sys C n} {np x} (hp : (s.pc p).child = some np) (hstage : (s.pc p).stage < 4)
      (hpc : ∀ r, t.pc r = .exitLock → s.pc r = .exitLock) (hproc : t.proc = update s.proc np x)
      (hx : x.ofile = (s.proc np).ofile) : Closed t :=
    h.set hproc (fun r hr => .inl (hpc r hr)) fun _ => by rw [hx, (hf.made hp).ofile, if_pos hstage]
  have hrun {r} : (s.goto p .run).pc r = .exitLock → s.pc r = .exitLock := goto_exitLock (x := .run) nofun
  cases ht with
  | stack hpc =>
    exact hgo (congrArg Pc.child hpc)
      (fun r hr => goto_exitLock (x := .run) nofun (goto_exitLock (x := .forkCopy _) nofun hr)) rfl
      (by rfl)
  | noStack hpc => exact hend (congrArg Pc.child hpc) (by simp [hpc, Pc.stage]) (fun r => hrun) rfl (by rfl)
  | copy hpc => exact hgo (congrArg Pc.child hpc) (fun r => goto_exitLock (x := .forkParent _) nofun) rfl (by rfl)
  | noCopy hpc => exact hend (congrArg Pc.child hpc) (by simp [hpc, Pc.stage]) (fun r => hrun) rfl (by rfl)
  | parent hpc => exact hgo (congrArg Pc.child hpc) (fun r => goto_exitLock (x := .forkFiles _) nofun) rfl (by rfl)
  | files hpc => exact hgo (congrArg Pc.child hpc) (fun r => goto_exitLock (x := .forkSignals _) nofun) rfl (by rfl)
  | signals hpc => exact hgo (congrArg Pc.child hpc) (fun r => goto_exitLock (x := .forkReady _) nofun) rfl (by rfl)
  | @ready ok np hpc hlock =>
    have hsaved := (hf.saved (congrArg Pc.child hpc) (by simp [hpc, Pc.stage])).2
    refine h.set rfl (fun r hr => .inl (hrun hr)) fun hx => ?_
    rcases hx with hx | hx | ⟨hx, -⟩
    · cases hx
    · cases hx
    · rw [hrun hx] at hsaved
      cases hsaved
  | exit hpc hlock ht =>
    have hsame : t.pc = s.pc := by rw [ht.rest]
    intro q hq
    have hofile : (t.proc q).ofile = (s.proc q).ofile := by rw [ht.proc q]
    rw [hofile]
    by_cases he : q = p
    · exact h q (.inr (.inr ⟨he ▸ hpc, by simp [he, hc.running_of_go hon hmode]⟩))
    · have hstate := ht.state q he
      exact h q (by grind)
  | @light ok pid target signum hpc =>
    cases target with
    | none => exact h.keep (fun r => hrun) fun q => ⟨rfl, .inl rfl⟩
    | some q =>
      refine h.set rfl (fun r hr => .inl (hrun hr)) fun hx =>
        h q (hx.imp_right (.imp_right fun hx => ⟨hrun hx.1, hx.2⟩))

theorem calls {x : Call} (h : Closed s) (hc : Cpus s) (hon : s.cpu c = .on p) (hmode : s.mode p = .go)
    (hpc : s.pc p = .run) (ht : Calls c p s x t) : Closed t := by
  have hrun := hc.running_of_go hon hmode
  cases ht with
  | noFork => exact h
  | fork hlock hnp hfind =>
    exact h.set rfl (fun r hr => .inl (goto_exitLock (x := .forkStack _) nofun hr)) fun hx => by simp at hx
  | exit hinit =>
    refine h.set rfl (fun r hr => ?_) fun _ => rfl
    by_cases he : r = p
    · exact .inr he
    · exact .inl (by simpa [exitFiles, he] using hr)
  | wait hlock ht => exact h.waits hrun ht
  | noKill => exact h
  | @kill pid q hlock hq =>
    refine h.set rfl (fun r hr => .inl hr) fun hx => h q ?_
    by_cases hsleep : (s.proc q).state = .sleeping <;> simp_all
  | find hlock hx => exact h.keep (fun r => goto_exitLock (x := .sigsend _ _ _) nofun) fun q => ⟨rfl, .inl rfl⟩
  | noSignal => exact h
  | sleep hlock => exact h.set rfl (fun r hr => .inl hr) fun hx => by simp [sleep, hpc] at hx
  | own => exact h.set rfl (fun r hr => .inl hr) fun hx => by simp [hpc, hrun] at hx

variable [DecidableEq C]

theorem moves {a : Act C} (h : Closed s) (hc : Cpus s) (hf : Forks s) (ht : Moves s a t) : Closed t := by
  cases ht with
  | schedule ht =>
    cases ht with
    | @choose i p hcpu hstate => exact h.set rfl (fun r hr => .inl hr) fun hx => h p (by simp_all)
    | _ => exact h
  | swtch hon hmode => exact h
  | resume hon hmode ht => exact h.resumes hc hon hmode ht
  | exec hon hmode ht => exact h.does hc hf hon hmode ht
  | call hon hmode hpc ht => exact h.calls hc hon hmode hpc ht
  | yield hon hmode hlock =>
    have hrun := hc.running_of_go hon hmode
    exact h.set rfl (fun r hr => .inl hr) fun hx => h _ (by simp_all)
  | wakeup hlock ht =>
    refine h.keep (fun q hq => by rw [ht.rest] at hq; exact hq) fun q => ?_
    have hstate := ht.state q
    rw [ht.proc q]
    grind

end Closed

section

variable [DecidableEq C]

structure Table (s : Sys C n) : Prop where
  cpus : Cpus s
  forks : Forks s
  closed : Closed s

theorem Table.step {a : Act C} (h : Table s) (ht : step s a = some t) : Table t :=
  have hmoves := step_moves ht
  ⟨h.cpus.moves h.forks hmoves, h.forks.moves h.cpus h.closed hmoves, h.closed.moves h.cpus h.forks hmoves⟩

omit [DecidableEq C] in
theorem Boot.table (h : Boot s) : Table s := by
  have hcpu (c) (p) : (s.cpu c).proc ≠ some p := by
    rw [h.cpu c]
    exact nofun
  have hchild {p np} : (s.pc p).child ≠ some np := by
    rw [h.run p]
    exact nofun
  refine ⟨⟨fun hc => absurd hc (hcpu _ _), fun c => ?_, fun hc => absurd hc (hcpu _ _), fun {p} _ => ?_⟩,
    ⟨fun hp => absurd hp hchild, fun hp => absurd hp hchild, fun hp => absurd hp hchild, fun hp => absurd hp hchild,
      fun hp => absurd hp hchild⟩, fun p hp => ?_⟩
  · simp [h.lock, Sys.Holds, h.cpu c]
  · by_cases hinit : p = s.initproc
    · rw [hinit, h.init, h.mode]
      exact .inr (.inr ⟨rfl, rfl⟩)
    · rw [h.rest p hinit]
      exact .inl rfl
  · by_cases hinit : p = s.initproc
    · rw [hinit, h.init, h.run] at hp
      simp at hp
    · rw [h.rest p hinit]

end

end Xv6.Ptable
