import Xv6.Ptable.Stacks

/-!
# Parents and children
-/

open Xv6.Run

namespace Xv6.Ptable

variable {C : Type} {n : Nat} {s t : Sys C n} {c : C} {p q : Fin n}

def ProcState.alive : ProcState → Bool
  | runnable | running | sleeping => true
  | _ => false

structure Steady (s t : Sys C n) : Prop where
  initproc : t.initproc = s.initproc
  exits : t.exits = s.exits
  alive : ∀ q, (s.proc q).state.alive → (t.proc q).state.alive
  parent : ∀ q, (s.proc q).state.live → (t.proc q).state.live → (t.proc q).parent = (s.proc q).parent
  zombie : ∀ q, (t.proc q).state = .zombie → (s.proc q).state = .zombie
  /-- A process goes to sleep in `wait` only when none of its children is dead. -/
  asleep : ∀ q, (t.proc q).state = .sleeping → (t.proc q).chan = some (.proc q) →
    (s.proc q).state = .sleeping ∧ (s.proc q).chan = some (.proc q) ∨
      ∀ r, (s.proc r).parent = some q → (s.proc r).state ≠ .zombie

namespace Steady

section

variable (hinit : t.initproc = s.initproc)
include hinit

theorem of_proc (hexits : t.exits = s.exits) (hproc : t.proc = s.proc) : Steady s t := by
  refine ⟨hinit, hexits, fun q hq => ?_, fun q _ _ => ?_, fun q hq => ?_, fun q hq hchan => .inl ?_⟩ <;> rw [hproc] at *
  · exact hq
  · exact hq
  · exact ⟨hq, hchan⟩

theorem update {r : Fin n} {x : Proc n} (hexits : t.exits = s.exits)
    (hproc : t.proc = Function.update s.proc r x) (halive : (s.proc r).state.alive → x.state.alive)
    (hparent : (s.proc r).state.live → x.state.live → x.parent = (s.proc r).parent)
    (hzombie : x.state = .zombie → (s.proc r).state = .zombie)
    (hasleep : x.state = .sleeping → x.chan = some (.proc r) → (s.proc r).state = .sleeping ∧
      (s.proc r).chan = some (.proc r) ∨ ∀ q, (s.proc q).parent = some r → (s.proc q).state ≠ .zombie) :
      Steady s t := by
  refine ⟨hinit, hexits, fun q => ?_, fun q => ?_, fun q => ?_, fun q => ?_⟩ <;> rw [hproc] <;> by_cases he : q = r
  case pos | pos | pos | pos =>
    subst he
    rwa [Function.update_self]
  all_goals rw [Function.update_of_ne he]
  · exact id
  · exact fun _ _ => rfl
  · exact id
  · exact fun hq hchan => .inl ⟨hq, hchan⟩

theorem making {r : Fin n} {x : Proc n} (hexits : t.exits = s.exits)
    (hproc : t.proc = Function.update s.proc r x) (hs : (s.proc r).state = .unused ∨ (s.proc r).state = .embryo)
    (hx : x.state = .unused ∨ x.state = .embryo ∨ x.state = .runnable) : Steady s t := by
  refine .update hinit hexits hproc ?_ ?_ ?_ ?_ <;> grind [ProcState.alive, ProcState.live]

theorem same {r : Fin n} {x : Proc n} (hexits : t.exits = s.exits)
    (hproc : t.proc = Function.update s.proc r x) (hstate : x.state = (s.proc r).state)
    (hparent : x.parent = (s.proc r).parent) (hchan : x.chan = (s.proc r).chan ∨ (s.proc r).state ≠ .sleeping) :
    Steady s t := by
  refine .update hinit hexits hproc ?_ ?_ ?_ ?_ <;> grind

end

theorem waits (ht : Waits c p s t) : Steady s t := by
  cases ht with
  | @reap q hfound hparent hstate =>
    refine .update (r := q) rfl rfl rfl ?_ ?_ ?_ ?_ <;> simp [hstate, ProcState.alive, ProcState.live]
  | give => exact .of_proc rfl rfl rfl
  | sleep hnone halive =>
    refine .update (r := p) rfl rfl rfl ?_ ?_ ?_ ?_
    · simp [ProcState.alive]
    · simp
    · simp
    · exact fun _ _ => .inr halive

theorem tidied (hrun : (s.proc p).state = .running) : Steady s (tidy p s) :=
  .same rfl rfl rfl rfl rfl (.inr (by simp [hrun]))

theorem trans {u : Sys C n} (h : Steady s u) (hsame : ∀ q, (u.proc q).state = (s.proc q).state ∧
    (u.proc q).parent = (s.proc q).parent) (h' : Steady u t) : Steady s t := by
  refine ⟨h'.initproc.trans h.initproc, h'.exits.trans h.exits, fun q hq => h'.alive q (h.alive q hq),
    fun q hq hq' => ?_,
    fun q hq => h.zombie q (h'.zombie q hq), fun q hq hchan => ?_⟩
  · rw [h'.parent q (by rwa [(hsame q).1]) hq', (hsame q).2]
  · rcases h'.asleep q hq hchan with ⟨hq, hchan⟩ | halive
    · exact h.asleep q hq hchan
    · refine .inr fun r hr => ?_
      rw [← (hsame r).1]
      exact halive r (by rw [(hsame r).2, hr])

theorem resumes {k : Saved} (hrun : (s.proc p).state = .running) (ht : Resumes c p s k t) : Steady s t := by
  have hsame (q) : ((tidy p s).proc q).state = (s.proc q).state ∧ ((tidy p s).proc q).parent = (s.proc q).parent := by
    by_cases he : q = p <;> simp [tidy, he]
  cases ht with
  | forkret => exact .of_proc rfl rfl rfl
  | yield => exact .of_proc rfl rfl rfl
  | sleep => exact (tidied hrun).trans hsame (.of_proc rfl rfl rfl)
  | wait ht => exact (tidied hrun).trans hsame (waits ht)

theorem does {ok : Bool} (hf : Forks s) (ht : Does c p s ok t) : Steady s t ∨ s.pc p = .exitLock ∧ Exits c p s t := by
  have hmaking {t : Sys C n} {np x} (hp : (s.pc p).child = some np) (hinit : t.initproc = s.initproc)
      (hexits : t.exits = s.exits) (hproc : t.proc = Function.update s.proc np x)
      (hx : x.state = .unused ∨ x.state = (s.proc np).state ∨ x.state = .runnable) : Steady s t :=
    .making hinit hexits hproc (.inr (hf.embryo hp)) (by rwa [hf.embryo hp] at hx)
  cases ht with
  | stack hpc => exact .inl (hmaking (congrArg Pc.child hpc) rfl rfl rfl (.inr (.inl rfl)))
  | noStack hpc => exact .inl (hmaking (congrArg Pc.child hpc) rfl rfl rfl (.inl rfl))
  | copy hpc => exact .inl (hmaking (congrArg Pc.child hpc) rfl rfl rfl (.inr (.inl rfl)))
  | noCopy hpc => exact .inl (hmaking (congrArg Pc.child hpc) rfl rfl rfl (.inl rfl))
  | parent hpc => exact .inl (hmaking (congrArg Pc.child hpc) rfl rfl rfl (.inr (.inl rfl)))
  | files hpc => exact .inl (hmaking (congrArg Pc.child hpc) rfl rfl rfl (.inr (.inl rfl)))
  | signals hpc => exact .inl (hmaking (congrArg Pc.child hpc) rfl rfl rfl (.inr (.inl rfl)))
  | ready hpc hlock => exact .inl (hmaking (congrArg Pc.child hpc) rfl rfl rfl (.inr (.inr rfl)))
  | exit hpc hlock ht => exact .inr ⟨hpc, ht⟩
  | @light ok pid target signum hpc =>
    cases target with
    | none => exact .inl (.of_proc rfl rfl rfl)
    | some r => exact .inl (.same rfl rfl rfl (by rfl) (by rfl) (.inl (by rfl)))

theorem calls {x : Call} (ht : Calls c p s x t) : Steady s t := by
  cases ht with
  | noFork => exact .of_proc rfl rfl rfl
  | fork hlock hnp hfind => exact .making rfl rfl rfl (.inl hnp) (.inr (.inl rfl))
  | exit hinit => exact .same rfl rfl rfl (by rfl) (by rfl) (.inl (by rfl))
  | wait hlock ht => exact waits ht
  | noKill => exact .of_proc rfl rfl rfl
  | @kill pid q hlock hq =>
    refine .update rfl rfl rfl ?_ ?_ ?_ ?_ <;> by_cases hsleep : (s.proc q).state = .sleeping <;>
      simp +contextual [hsleep, ProcState.alive]
  | find hlock hx => exact .of_proc rfl rfl rfl
  | noSignal => exact .of_proc rfl rfl rfl
  | sleep hlock =>
    refine .update (r := p) rfl rfl rfl ?_ ?_ ?_ ?_ <;> simp [ProcState.alive]
  | own => exact .same rfl rfl rfl (by rfl) (by rfl) (.inl (by rfl))

variable [DecidableEq C]

theorem moves {a : Act C} (h : Table s) (ht : Moves s a t) : Steady s t ∨ ∃ c p, s.cpu c = .on p ∧ s.mode p = .go ∧
    s.pc p = .exitLock ∧ Exits c p s t := by
  cases ht with
  | schedule ht =>
    cases ht with
    | @choose i p hcpu hstate =>
      refine .inl (.update (r := p) rfl rfl rfl ?_ ?_ ?_ ?_) <;> simp [ProcState.alive]
    | _ => exact .inl (.of_proc rfl rfl rfl)
  | swtch hon hmode => exact .inl (.of_proc rfl rfl rfl)
  | resume hon hmode ht => exact .inl (resumes (h.cpus.running_of_saved hon hmode) ht)
  | exec hon hmode ht => exact (does h.forks ht).imp_right fun ⟨hpc, ht⟩ => ⟨_, _, hon, hmode, hpc, ht⟩
  | call hon hmode hpc ht => exact .inl (calls ht)
  | @yield c p hon hmode hlock =>
    refine .inl (.update (r := p) rfl rfl rfl ?_ ?_ ?_ ?_) <;> simp [ProcState.alive]
  | wakeup hlock ht =>
    have hstate := ht.state
    refine .inl ⟨by rw [ht.rest], by rw [ht.rest], fun q hq => ?_, fun q _ _ => by rw [ht.proc q], fun q hq => ?_,
      fun q hq hchan => .inl ?_⟩
    · rcases ht.state q with hstate | ⟨-, -, hstate⟩
      · rwa [hstate]
      · rw [hstate]
        rfl
    · rcases ht.state q with hstate | ⟨-, -, hstate⟩
      · rwa [← hstate]
      · rw [hstate] at hq
        cases hq
    · rcases ht.state q with hstate | ⟨-, -, hstate⟩
      · rw [ht.proc q] at hchan
        exact ⟨hstate ▸ hq, hchan⟩
      · rw [hstate] at hq
        cases hq

end Steady

/-! ## The tree -/

section

variable [DecidableEq C]

structure Tree (s : Sys C n) : Prop where
  init : (s.proc s.initproc).state.alive
  stays : s.pc s.initproc ≠ .exitLock
  parent : ∀ p, (s.proc p).state.live → p ≠ s.initproc →
    ∃ q, (s.proc p).parent = some q ∧ q ≠ p ∧ (s.proc q).state.alive

namespace Tree

theorem steady {a : Act C} (h : Tree s) (hs : Table s) (ht : Moves s a t) (hst : Steady s t) : Tree t := by
  have hinit := hst.initproc
  refine ⟨hinit ▸ hst.alive _ h.init, fun hq => ?_, fun q hq hne => ?_⟩
  · rw [hinit] at hq
    cases Goes.moves ht s.initproc with
    | same hsame => exact h.stays (hsame ▸ hq)
    | run hrun => simp [hrun] at hq
    | fork hfork => simp [hq, Pc.child] at hfork
    | exit hne => exact hne rfl
    | find ha hx hproc hfind => simp [hfind] at hq
  rw [hinit] at hne
  cases Turns.moves hs ht q with
  | unused ht => simp [ht, ProcState.live] at hq
  | alloc ha hfind ht hnext => simp [ht, ProcState.live] at hq
  | making hs ht hpid => simp [ht, ProcState.live] at hq
  | @ready c p ok ha hon hpc hembryo ht =>
    -- the child of a fork that ends
    have hp := congrArg Pc.child hpc
    have hmade := hs.forks.made hp
    rw [hpc] at hmade
    have hbusy := hs.forks.busy hp
    refine ⟨p, by rw [ht, hmade.parent (by simp [Pc.stage])], hs.forks.not_busy hp (by simp [hpc, Pc.child]), ?_⟩
    apply hst.alive
    cases hstate : (s.proc p).state <;> simp_all [ProcState.busy, ProcState.alive]
  | live hlive ht =>
    obtain ⟨r, hr, hne', halive⟩ := h.parent q hlive hne
    exact ⟨r, (hst.parent q hlive hq).trans hr, hne', hst.alive r halive⟩

omit [DecidableEq C] in
theorem exits {c : C} {p : Fin n} (h : Tree s) (hrun : (s.proc p).state = .running) (hpc : s.pc p = .exitLock)
    (ht : Exits c p s t) : Tree t := by
  have hinit : t.initproc = s.initproc := by rw [ht.rest]
  have hpinit : s.initproc ≠ p := fun he => h.stays (he ▸ hpc)
  have halive {q} (hne : q ≠ p) (hq : (s.proc q).state.alive) : (t.proc q).state.alive := by
    rcases ht.state q hne with hstate | ⟨-, hstate⟩
    · rwa [hstate]
    · rw [hstate]
      rfl
  have hlive {q} (hq : (t.proc q).state.live) : (s.proc q).state.live := by
    by_cases he : q = p
    · rw [he, hrun]
      rfl
    · rcases ht.state q he with hstate | ⟨hstate, -⟩
      · rwa [← hstate]
      · rw [hstate]
        rfl
  refine ⟨hinit ▸ halive hpinit h.init, ?_, fun q hq hne => ?_⟩
  · rw [ht.rest]
    exact h.stays
  · rw [hinit] at hne
    obtain ⟨r, hr, hne', hral⟩ := h.parent q (hlive hq) hne
    rw [ht.parent q, hr]
    by_cases he : r = p
    · exact ⟨s.initproc, if_pos (congrArg some he), hne.symm, halive hpinit h.init⟩
    · exact ⟨r, if_neg (by simpa using he), hne', halive he hral⟩

theorem step {a : Act C} (h : Tree s) (hs : Table s) (ht : step s a = some t) : Tree t := by
  have hmoves := step_moves ht
  rcases Steady.moves hs hmoves with hst | ⟨c, p, hon, hmode, hpc, hexit⟩
  · exact h.steady hs hmoves hst
  · exact h.exits (hs.cpus.running_of_go hon hmode) hpc hexit

end Tree

omit [DecidableEq C] in
theorem Boot.tree (h : Boot s) : Tree s := by
  refine ⟨?_, ?_, fun p hp hne => ?_⟩
  · rw [h.init]
    rfl
  · rw [h.run]
    exact nofun
  · rw [h.rest p hne] at hp
    cases hp

/-! ## Pids -/

omit [DecidableEq C] in
theorem Turns.pid {a : Act C} (h : Turns s a t q) (hq : (t.proc q).state ≠ .unused) :
    (s.proc q).state ≠ .unused ∧ (t.proc q).pid = (s.proc q).pid ∨
      (List.finRange n).find? (fun p => (s.proc p).state = .unused) = some q ∧ (t.proc q).pid = s.nextpid ∧
        t.nextpid = s.nextpid + 1 := by
  cases h with
  | unused ht => exact absurd ht hq
  | alloc ha hfind ht hnext => exact .inr ⟨hfind, by rw [ht], hnext⟩
  | making hs ht hpid => exact .inl ⟨by simp [hs], hpid⟩
  | ready ha hon hpc hembryo ht => exact .inl ⟨by simp [hembryo], by rw [ht]⟩
  | live hs ht hpid => exact .inl ⟨by rintro h; simp [h, ProcState.live] at hs, hpid⟩

structure Pids (s : Sys C n) : Prop where
  fresh : ∀ p, (s.proc p).state ≠ .unused → (s.proc p).pid < s.nextpid
  distinct : ∀ p q, (s.proc p).state ≠ .unused → (s.proc q).state ≠ .unused → (s.proc p).pid = (s.proc q).pid → p = q
  zombie : ∀ p, (s.proc p).state = .zombie → (s.proc p).pid ∈ s.exits
  waited : ∀ r ∈ s.waits, r.parent = some r.waiter ∧ r.pid ∈ s.exits ∧ r.pid < s.nextpid ∧
    ∀ p, (s.proc p).state ≠ .unused → (s.proc p).pid ≠ r.pid
  once : (s.waits.map (·.pid)).Nodup

theorem history {a : Act C} (ht : Moves s a t) : s.nextpid ≤ t.nextpid ∧
    (t.waits = s.waits ∨ ∃ p q, (s.proc q).state = .zombie ∧ (s.proc q).parent = some p ∧ (t.proc q).state = .unused ∧
      t.waits = s.waits ++ [⟨p, some p, (s.proc q).pid⟩]) := by
  have hwaits {u t : Sys C n} {c p} (hu : ∀ q, u.proc q = { s.proc q with chan := (u.proc q).chan })
      (hnext : u.nextpid = s.nextpid) (hw : u.waits = s.waits) (ht : Waits c p u t) : s.nextpid ≤ t.nextpid ∧
      (t.waits = s.waits ∨ ∃ p q, (s.proc q).state = .zombie ∧ (s.proc q).parent = some p ∧ (t.proc q).state = .unused ∧
        t.waits = s.waits ++ [⟨p, some p, (s.proc q).pid⟩]) := by
    cases ht with
    | @reap q hfound hparent hstate =>
      rw [hu q] at hparent hstate
      refine ⟨hnext.ge, .inr ⟨p, q, hstate, hparent, by simp [reap], ?_⟩⟩
      have hq : (u.proc q).parent = some p ∧ (u.proc q).pid = (s.proc q).pid := by
        rw [hu q]
        exact ⟨hparent, rfl⟩
      simp [reap, hw, hq]
    | give => exact ⟨hnext.ge, .inl hw⟩
    | sleep => exact ⟨hnext.ge, .inl hw⟩
  cases ht with
  | schedule ht => cases ht <;> exact ⟨le_rfl, .inl rfl⟩
  | swtch => exact ⟨le_rfl, .inl rfl⟩
  | resume hon hmode ht =>
    cases ht with
    | wait ht => exact hwaits Turns.tidy_proc rfl rfl ht
    | _ => exact ⟨le_rfl, .inl rfl⟩
  | exec hon hmode ht =>
    cases ht with
    | exit hpc hlock ht =>
      rw [ht.rest]
      exact ⟨le_rfl, .inl rfl⟩
    | @light ok pid target signum hpc => cases target <;> exact ⟨le_rfl, .inl rfl⟩
    | _ => exact ⟨le_rfl, .inl rfl⟩
  | call hon hmode hpc ht =>
    cases ht with
    | fork => exact ⟨(Int.lt_succ s.nextpid).le, .inl rfl⟩
    | wait hlock ht => exact hwaits (fun _ => rfl) rfl rfl ht
    | _ => exact ⟨le_rfl, .inl rfl⟩
  | yield => exact ⟨le_rfl, .inl rfl⟩
  | wakeup hlock ht =>
    rw [ht.rest]
    exact ⟨le_rfl, .inl rfl⟩

theorem Pids.step {a : Act C} (h : Pids s) (hs : Table s) (ht : step s a = some t) : Pids t := by
  have hmoves := step_moves ht
  have hpid {q} (hq : (t.proc q).state ≠ .unused) := (Turns.moves hs hmoves q).pid hq
  obtain ⟨hnext, hhist⟩ := history hmoves
  have hexits : ∀ x ∈ s.exits, x ∈ t.exits := by
    rcases Steady.moves hs hmoves with hst | ⟨c, p, -, -, -, hexit⟩
    · rw [hst.exits]
      exact fun _ => id
    · rw [hexit.rest]
      exact fun _ => List.mem_append_left _
  refine ⟨fun p hp => ?_, fun p q hp hq heq => ?_, fun p hp => ?_, fun r hr => ?_, ?_⟩
  · rcases hpid hp with ⟨hold, heq⟩ | ⟨-, heq, hnew⟩
    · rw [heq]
      exact (h.fresh p hold).trans_le hnext
    · omega
  · rcases hpid hp with ⟨hp, hpe⟩ | ⟨hp, hpe, -⟩ <;> rcases hpid hq with ⟨hq, hqe⟩ | ⟨hq, hqe, -⟩
    · exact h.distinct p q hp hq (by rw [← hpe, ← hqe, heq])
    · have := h.fresh p hp
      omega
    · have := h.fresh q hq
      omega
    · exact Option.some.inj (hp.symm.trans hq)
  · have hzombie (hold : (s.proc p).state = .zombie) : (t.proc p).pid ∈ t.exits := by
      rcases hpid (by rw [hp]; exact nofun) with ⟨-, heq⟩ | ⟨hfind, -⟩
      · exact heq ▸ hexits _ (h.zombie p hold)
      · have hunused : (s.proc p).state = .unused := by simpa using List.find?_some hfind
        rw [hold] at hunused
        cases hunused
    rcases Steady.moves hs hmoves with hst | ⟨c, q, -, -, -, hexit⟩
    · exact hzombie (hst.zombie p hp)
    · by_cases he : p = q
      · subst he
        rw [hexit.proc p, hexit.rest]
        exact List.mem_append_right _ List.mem_cons_self
      · exact hzombie ((hexit.state p he).elim (fun hstate => hstate ▸ hp) fun hstate => by simp [hstate.2] at hp)
  · have hold (hr : r ∈ s.waits) : r.parent = some r.waiter ∧ r.pid ∈ t.exits ∧ r.pid < t.nextpid ∧
        ∀ p, (t.proc p).state ≠ .unused → (t.proc p).pid ≠ r.pid := by
      obtain ⟨hparent, hmem, hlt, hgone⟩ := h.waited r hr
      refine ⟨hparent, hexits _ hmem, hlt.trans_le hnext, fun p hp => ?_⟩
      rcases hpid hp with ⟨hp, heq⟩ | ⟨-, heq, -⟩
      · rw [heq]
        exact hgone p hp
      · omega
    rcases hhist with hsame | ⟨p, q, hzombie, hparent, hfree, hadd⟩
    · exact hold (hsame ▸ hr)
    · rw [hadd, List.mem_append, List.mem_singleton] at hr
      rcases hr with hr | rfl
      · exact hold hr
      · have hq : (s.proc q).state ≠ .unused := by simp [hzombie]
        refine ⟨rfl, hexits _ (h.zombie q hzombie), (h.fresh q hq).trans_le hnext, fun p' hp' => ?_⟩
        have hlt := h.fresh q hq
        rcases hpid hp' with ⟨hold, heq⟩ | ⟨-, heq, -⟩
        · rw [heq]
          intro hsame
          exact hp' (h.distinct p' q hold hq hsame ▸ hfree)
        · rw [heq]
          exact hlt.ne'
  · rcases hhist with hsame | ⟨p, q, hzombie, hparent, hfree, hadd⟩
    · rw [hsame]
      exact h.once
    · rw [hadd, List.map_append, List.nodup_append]
      refine ⟨h.once, List.nodup_singleton _, ?_⟩
      intro x hx y hy
      obtain ⟨r, hr, rfl⟩ := List.mem_map.mp hx
      obtain rfl : y = (s.proc q).pid := by simpa using hy
      exact ((h.waited r hr).2.2.2 q (by simp [hzombie])).symm

omit [DecidableEq C] in
theorem Boot.pids (h : Boot s) : Pids s := by
  have hinit {p} (hp : (s.proc p).state ≠ .unused) : p = s.initproc := by
    by_contra hne
    rw [h.rest p hne] at hp
    exact hp rfl
  refine ⟨fun p hp => ?_, fun p q hp hq _ => (hinit hp).trans (hinit hq).symm, fun p hp => ?_, ?_, ?_⟩
  · rw [hinit hp, h.init, h.nextpid]
    exact Int.lt_succ 1
  · obtain rfl := hinit (p := p) (by rw [hp]; exact nofun)
    rw [h.init] at hp
    cases hp
  · simp [h.waits]
  · simp [h.waits]

/-! ## Nobody sleeps through the death of a child -/

def Awake (s : Sys C n) : Prop :=
  ∀ q r, (s.proc q).state = .sleeping → (s.proc q).chan = some (.proc q) → (s.proc r).parent = some q →
    (s.proc r).state ≠ .zombie

omit [DecidableEq C] in
theorem Awake.exits {c : C} {p : Fin n} (h : Awake s) (hs : Tree s) (hrun : (s.proc p).state = .running)
    (hpc : s.pc p = .exitLock) (ht : Exits c p s t) : Awake t := by
  intro q r hq hchan hr hzombie
  have hqp : q ≠ p := by
    rintro rfl
    rw [ht.zombie] at hq
    cases hq
  have hqs : (s.proc q).state = .sleeping :=
    (ht.state q hqp).elim (fun hstate => hstate ▸ hq) fun hstate => by simp [hstate.2] at hq
  rw [ht.proc q] at hchan
  obtain ⟨hwoken, hwoken'⟩ := ht.woken q hqp hq
  have hparent := ht.parent r
  rw [hr] at hparent
  by_cases hrp : r = p
  · -- the parent of the process that dies has been woken
    subst hrp
    have hne : r ≠ s.initproc := fun he => hs.stays (he ▸ hpc)
    obtain ⟨x, hx, hxr, -⟩ := hs.parent r (by rw [hrun]; rfl) hne
    rw [hx, if_neg (by simpa using hxr)] at hparent
    rw [hx, ← hparent] at hwoken
    exact hwoken hchan
  · have hrs : (s.proc r).state = .zombie :=
      (ht.state r hrp).elim (fun hstate => hstate ▸ hzombie) fun hstate => by simp [hstate.2] at hzombie
    by_cases hold : (s.proc r).parent = some p
    · -- a dead child that passes to init has woken it
      rw [if_pos hold] at hparent
      exact hwoken' (by rw [hchan, Option.some.inj hparent]) r hold hrs
    · rw [if_neg hold] at hparent
      exact h q r hqs hchan hparent.symm hrs

theorem Awake.step {a : Act C} (h : Awake s) (hs : Table s) (htree : Tree s) (ht : step s a = some t) : Awake t := by
  rcases Steady.moves hs (step_moves ht) with hst | ⟨c, p, hon, hmode, hpc, hexit⟩
  · intro q r hq hchan hr hzombie
    have hrs := hst.zombie r hzombie
    have hparent := hst.parent r (by rw [hrs]; rfl) (by rw [hzombie]; rfl)
    rw [hr] at hparent
    rcases hst.asleep q hq hchan with ⟨hq, hchan⟩ | halive
    · exact h q r hq hchan hparent.symm hrs
    · exact halive r hparent.symm hrs
  · exact h.exits htree (hs.cpus.running_of_go hon hmode) hpc hexit

omit [DecidableEq C] in
theorem Boot.awake (h : Boot s) : Awake s := by
  intro q r hq
  by_cases hinit : q = s.initproc
  · rw [hinit, h.init] at hq
    cases hq
  · rw [h.rest q hinit] at hq
    cases hq

/-! ## Every run -/

theorem run_tree {s₀ : Sys C n} {as : List (Act C)} (hboot : Boot s₀) (hrun : run step s₀ as = some s) :
    Tree s ∧ Pids s ∧ Awake s := by
  have h : Table s ∧ Tree s ∧ Pids s ∧ Awake s :=
    run_invariant (I := fun s => Table s ∧ Tree s ∧ Pids s ∧ Awake s)
      (fun _ _ _ h ht => ⟨h.1.step ht, h.2.1.step h.1 ht, h.2.2.1.step h.1 ht, h.2.2.2.step h.1 h.2.1 ht⟩)
      ⟨hboot.table, hboot.tree, hboot.pids, hboot.awake⟩ hrun
  exact h.2

/-- In every reachable state pids differ, every process but init has a live parent, and no pid comes twice out of
`wait`, always to the parent. -/
theorem process_tree {s₀ : Sys C n} {as : List (Act C)} (hboot : Boot s₀) (hrun : run step s₀ as = some s) :
    (∀ p q, (s.proc p).state ≠ .unused → (s.proc q).state ≠ .unused → (s.proc p).pid = (s.proc q).pid → p = q) ∧
    (∀ p, (s.proc p).state.live → p ≠ s.initproc → ∃ q, (s.proc p).parent = some q ∧ (s.proc q).state.alive) ∧
    (s.waits.map (·.pid)).Nodup ∧ ∀ r ∈ s.waits, r.parent = some r.waiter ∧ r.pid ∈ s.exits := by
  obtain ⟨htree, hpids, -⟩ := run_tree hboot hrun
  refine ⟨hpids.distinct, fun p hp hne => ?_, hpids.once, fun r hr => ?_⟩
  · obtain ⟨q, hq, -, halive⟩ := htree.parent p hp hne
    exact ⟨q, hq, halive⟩
  · obtain ⟨hparent, hexited, -⟩ := hpids.waited r hr
    exact ⟨hparent, hexited⟩

def childExits : List (Act (Fin 2)) :=
  childRuns ++ [Act.call 1 .wait, .exec 1 true] ++ List.replicate 5 (Act.schedule 1) ++
    [Act.call 0 .exit, .exec 0 true, .exec 0 true] ++ List.replicate 4 (Act.schedule 0)

theorem childExits_parent : ∃ t, run step twoCpus childExits = some t ∧ (t.proc 1).state = .zombie ∧
    ∃ q, (t.proc 1).parent = some q ∧ (t.proc q).state.alive := by
  have hrun : (run step twoCpus childExits).map (fun t => ((t.proc 1).state, t.initproc)) = some (.zombie, 0) := by
    decide
  obtain ⟨t, ht, hend⟩ := Option.map_eq_some_iff.mp hrun
  obtain ⟨hzombie, hinit⟩ := Prod.mk.inj hend
  exact ⟨t, ht, hzombie, (process_tree twoCpus_boot ht).2.1 1 (by rw [hzombie]; rfl) (by rw [hinit]; decide)⟩

/-- No process ever sleeps in `wait` while it has a dead child. -/
theorem exit_wakes_parent {s₀ : Sys C n} {as : List (Act C)} (hboot : Boot s₀) (hrun : run step s₀ as = some s) :
    ¬∃ q r, (s.proc q).state = .sleeping ∧ (s.proc q).chan = some (.proc q) ∧ (s.proc r).parent = some q ∧
      (s.proc r).state = .zombie := by
  rintro ⟨q, r, hq, hchan, hr, hzombie⟩
  exact (run_tree hboot hrun).2.2 q r hq hchan hr hzombie

theorem childExits_awake : ∃ t, run step twoCpus childExits = some t ∧ (t.proc 1).state = .zombie ∧
    (t.proc 0).chan = some (.proc 0) ∧ (t.proc 0).state ≠ .sleeping := by
  have hrun : (run step twoCpus childExits).map (fun t => ((t.proc 1).state, (t.proc 1).parent, (t.proc 0).chan)) =
      some (.zombie, some 0, some (.proc 0)) := by
    decide
  obtain ⟨t, ht, hend⟩ := Option.map_eq_some_iff.mp hrun
  simp only [Prod.mk.injEq] at hend
  obtain ⟨hzombie, hparent, hchan⟩ := hend
  exact ⟨t, ht, hzombie, hchan, fun hsleep =>
    exit_wakes_parent twoCpus_boot ht ⟨0, 1, hsleep, hchan, hparent, hzombie⟩⟩

end

end Xv6.Ptable
