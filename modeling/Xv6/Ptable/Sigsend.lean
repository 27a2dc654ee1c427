import Xv6.Ptable.Tree

/-!
# Signals and their targets

`sigsend` looks for the entry under the lock and writes to it without. The loop does not look at the state of an entry.
-/

open Xv6.Run

namespace Xv6.Ptable

variable {C : Type} {n : Nat} {s t : Sys C n} {c : C} {p q : Fin n}

def Pc.target : Pc n → Option (Fin n)
  | sigsend _ q _ => q
  | _ => none

def Sys.frees (s : Sys C n) : Act C → Option (Fin n)
  | .exec c ok =>
    match s.cpu c with
    | .on p =>
      match s.mode p, s.pc p with
      | .go, .forkStack np => if ok then none else some np
      | .go, .forkCopy np => if ok then none else some np
      | .saved .wait, _ => deadChild p s
      | _, _ => none
    | _ => none
  | .call c .wait =>
    match s.cpu c with
    | .on p => deadChild p s
    | _ => none
  | _ => none

def Known (s : Sys C n) : Act C → Prop
  | .call _ (.sigsend pid signum) =>
    0 ≤ signum ∧ signum < numsig → ∃ q, findPid pid s = some q ∧ (s.proc q).state ≠ .unused
  | _ => True

instance (s : Sys C n) : ∀ a : Act C, Decidable (Known s a)
  | .call _ (.sigsend pid signum) => inferInstanceAs (Decidable (0 ≤ signum ∧ signum < numsig →
      ∃ q, findPid pid s = some q ∧ (s.proc q).state ≠ .unused))
  | .call _ .fork | .call _ .exit | .call _ .wait | .call _ (.kill _) | .call _ (.sleep _) | .call _ (.own _)
  | .exec _ _ | .schedule _ | .yield _ | .wakeup _ _ => .isTrue trivial

/-- Besides, no entry is given back that a `sigsend` has found. -/
def Held (s : Sys C n) (a : Act C) : Prop := Known s a ∧ ∀ q, s.frees a = some q → ∀ p, (s.pc p).target ≠ some q

instance (s : Sys C n) (a : Act C) : Decidable (Held s a) :=
  inferInstanceAs (Decidable (Known s a ∧ ∀ q, s.frees a = some q → ∀ p, (s.pc p).target ≠ some q))

def Reaches (s : Sys C n) (a : Act C) : Prop :=
  ∀ c ok p pid target signum, a = .exec c ok → s.cpu c = .on p → s.mode p = .go → s.pc p = .sigsend pid target signum →
    ∃ q, target = some q ∧ (s.proc q).state ≠ .unused ∧ (s.proc q).pid = pid

def Found (s : Sys C n) : Prop :=
  ∀ p pid target signum, s.pc p = .sigsend pid target signum →
    ∃ q, target = some q ∧ (s.proc q).state ≠ .unused ∧ (s.proc q).pid = pid

theorem findPid_pid {pid : Int} (h : findPid pid s = some q) : (s.proc q).pid = pid := by
  simpa [findPid] using List.find?_some h

theorem deadChild_tidy : deadChild p (tidy p s) = deadChild p s := by
  have hsame (q) : ((tidy p s).proc q).state = (s.proc q).state ∧ ((tidy p s).proc q).parent = (s.proc q).parent := by
    by_cases he : q = p <;> simp [tidy, he]
  simp only [deadChild, hsame]

theorem frees_of_waits (ht : Waits c p s t) (hs : (s.proc q).state ≠ .unused) (hq : (t.proc q).state = .unused) :
    deadChild p s = some q := by
  cases ht with
  | @reap r hfound hparent hstate =>
    by_cases he : q = r
    · exact he ▸ hfound
    · simp [reap, he, hs] at hq
  | give => exact absurd hq hs
  | sleep =>
    by_cases he : q = p
    · simp [sleep, he] at hq
    · simp [sleep, he, hs] at hq

variable [DecidableEq C]

theorem frees_of_unused {a : Act C} (ht : Moves s a t) (hs : (s.proc q).state ≠ .unused)
    (hq : (t.proc q).state = .unused) : s.frees a = some q := by
  have hset {t : Sys C n} {r x} (hproc : t.proc = Function.update s.proc r x) (hq : (t.proc q).state = .unused) :
      q = r ∧ x.state = .unused := by
    by_cases he : q = r
    · subst he
      rw [hproc, Function.update_self] at hq
      exact ⟨rfl, hq⟩
    · rw [hproc, Function.update_of_ne he] at hq
      exact absurd hq hs
  cases ht with
  | schedule ht =>
    cases ht with
    | choose => cases (hset rfl hq).2
    | _ => exact absurd hq hs
  | swtch => exact absurd hq hs
  | @resume c p ok k t hon hmode ht =>
    cases ht with
    | forkret => exact absurd hq hs
    | yield => exact absurd hq hs
    | sleep =>
      obtain ⟨rfl, hx⟩ := hset (r := p) rfl hq
      exact absurd hx hs
    | wait ht =>
      have hs' : ((tidy p s).proc q).state ≠ .unused := by
        by_cases he : q = p
        · subst he
          simpa [tidy] using hs
        · simpa [tidy, he] using hs
      simp only [Sys.frees, hon, hmode]
      rw [← deadChild_tidy]
      exact frees_of_waits ht hs' hq
  | @exec c p ok t hon hmode ht =>
    cases ht with
    | stack hpc =>
      obtain ⟨rfl, hx⟩ := hset rfl hq
      exact absurd hx hs
    | noStack hpc =>
      obtain ⟨rfl, -⟩ := hset rfl hq
      simp [Sys.frees, hon, hmode, hpc]
    | copy hpc =>
      obtain ⟨rfl, hx⟩ := hset rfl hq
      exact absurd hx hs
    | noCopy hpc =>
      obtain ⟨rfl, -⟩ := hset rfl hq
      simp [Sys.frees, hon, hmode, hpc]
    | ready => cases (hset rfl hq).2
    | exit hpc hlock ht =>
      by_cases he : q = p
      · simp [he, ht.zombie] at hq
      · rcases ht.state q he with hstate | ⟨-, hstate⟩
        · exact absurd (hstate ▸ hq) hs
        · simp [hstate] at hq
    | @light ok pid target signum hpc =>
      cases target with
      | none => exact absurd hq hs
      | some r =>
        obtain ⟨rfl, hx⟩ := hset (r := r) rfl hq
        exact absurd hx hs
    | _ =>
      obtain ⟨rfl, hx⟩ := hset rfl hq
      exact absurd hx hs
  | @call c p x t hon hmode hpc ht =>
    cases ht with
    | fork => cases (hset rfl hq).2
    | exit =>
      obtain ⟨rfl, hx⟩ := hset (r := p) rfl hq
      exact absurd hx hs
    | wait hlock ht =>
      simp only [Sys.frees, hon]
      exact frees_of_waits ht hs hq
    | @kill pid r hlock hr =>
      obtain ⟨rfl, hx⟩ := hset (r := r) rfl hq
      by_cases hsleep : (s.proc q).state = .sleeping
      · simp [hsleep] at hx
      · simp [hsleep, hs] at hx
    | sleep => cases (hset (r := p) rfl hq).2
    | own =>
      obtain ⟨rfl, hx⟩ := hset (r := p) rfl hq
      exact absurd hx hs
    | _ => exact absurd hq hs
  | yield => cases (hset rfl hq).2
  | wakeup hlock ht =>
    rcases ht.state q with hstate | ⟨-, -, hstate⟩
    · exact absurd (hstate ▸ hq) hs
    · simp [hstate] at hq

theorem Found.step {a : Act C} (h : Found s) (hs : Table s) (hok : Held s a) (ht : step s a = some t) : Found t := by
  have hmoves := step_moves ht
  intro p pid target signum hp
  -- what was found before the step
  have hold (hp : s.pc p = .sigsend pid target signum) :
      ∃ q, target = some q ∧ (t.proc q).state ≠ .unused ∧ (t.proc q).pid = pid := by
    obtain ⟨q, rfl, hq, hpid⟩ := h p pid target signum hp
    have hq' : (t.proc q).state ≠ .unused := fun hfree =>
      hok.2 q (frees_of_unused hmoves hq hfree) p (by rw [hp]; rfl)
    refine ⟨q, rfl, hq', ?_⟩
    rcases (Turns.moves hs hmoves q).pid hq' with ⟨-, hsame⟩ | ⟨hfind, -⟩
    · rw [hsame, hpid]
    · exact absurd (by simpa using List.find?_some hfind) hq
  cases Goes.moves hmoves p with
  | same hsame => exact hold (hsame ▸ hp)
  | run hrun => simp [hrun] at hp
  | fork hfork => simp [hp, Pc.child] at hfork
  | exit hne hexit => simp [hexit] at hp
  | @find c pid' x signum' ha hx hproc hfind =>
    rw [hp] at hfind
    cases hfind
    subst ha
    obtain ⟨q, hq, hused⟩ := hok.1 ⟨by omega, by have := signum.isLt; omega⟩
    refine ⟨q, hq, ?_⟩
    rw [hproc]
    exact ⟨hused, findPid_pid hq⟩

omit [DecidableEq C] in
theorem Boot.found (h : Boot s) : Found s := by
  intro p pid target signum hp
  rw [h.run p] at hp
  cases hp

/-- If signals go to the pids of processes, and no entry is given back that a `sigsend` has found, every signal reaches
the process that it was sent to. -/
theorem sigsend_reaches {s₀ : Sys C n} {as : List (Act C)} (hboot : Boot s₀) (hok : Along step Held s₀ as) :
    Along step Reaches s₀ as :=
  along_of_along (I := fun s => Table s ∧ Found s) (fun _ _ _ h hok ht => ⟨h.1.step ht, h.2.step h.1 hok ht⟩)
    (fun _ _ _ h _ _ _ _ p pid target signum _ _ _ hpc => h.2 p pid target signum hpc) ⟨hboot.table, hboot.found⟩ hok

def initSignals : List (Act (Fin 2)) := childRuns ++ [.call 1 (.sigsend 2 5), .exec 1 true]

theorem initSignals_reaches : Along step Held twoCpus initSignals ∧ Along step Reaches twoCpus initSignals := by
  have hok : Along step Held twoCpus initSignals := by decide
  exact ⟨hok, sigsend_reaches twoCpus_boot hok⟩

def targetGone : List (Act (Fin 2)) :=
  childRuns ++ Act.call 0 .fork :: List.replicate 6 (Act.exec 0 true) ++
    [Act.call 1 (.sigsend 3 5), .call 0 .wait, .exec 0 true] ++ List.replicate 3 (Act.schedule 0) ++
    [Act.exec 0 true, .call 0 .exit, .exec 0 true, .exec 0 true] ++ List.replicate 7 (Act.schedule 0) ++
      [Act.exec 0 true]

theorem targetGone_misses : ¬Along step Reaches twoCpus (targetGone ++ [.exec 1 true]) := by
  intro h
  have hrun : ((run step twoCpus targetGone).bind fun s => (step s (.exec 1 true)).map fun t =>
      (s.cpu 1, s.mode 0, s.pc 0, (s.proc 2).state, (t.proc 2).pending)) =
        some (.on 0, .go, .sigsend 3 (some 2) 5, .unused, 32) := by
    decide
  obtain ⟨s, hs, hstep⟩ := Option.bind_eq_some_iff.mp hrun
  obtain ⟨t, ht, hend⟩ := Option.map_eq_some_iff.mp hstep
  simp only [Prod.mk.injEq] at hend
  obtain ⟨hon, hmode, hpc, hunused, -⟩ := hend
  obtain ⟨q, hq, hused, -⟩ := along_at h hs ht 1 true 0 3 (some 2) 5 rfl hon hmode hpc
  cases hq
  exact hused hunused

theorem toNat_lt {signum : Int} (h : 0 ≤ signum ∧ signum < numsig) : signum.toNat < numsig := by omega

/-- `sigsend` when nothing comes in between. The loop never ends at a null pointer. -/
def sigsend (pid signum : Int) (s : Sys C n) : Int × Sys C n :=
  if h : 0 ≤ signum ∧ signum < numsig then (0, light (findPid pid s) ⟨signum.toNat, toNat_lt h⟩ s) else (-1, s)

def Proc.signalled (x : Proc n) (signum : Int) : Proc n :=
  { x with
    pending := x.pending ||| 1#32 <<< signum.toNat
    alarmEnd := if signum = 14 then 0 else x.alarmEnd }

def Live (s : Sys C n) (pid : Int) (q : Fin n) : Prop := (s.proc q).state ≠ .unused ∧ (s.proc q).pid = pid

def Refused (pid signum : Int) (s : Sys C n) : Prop := (signum < 0 ∨ 31 < signum) ∨ ¬∃ q, Live s pid q

def Addresses (pid signum : Int) (s : Sys C n) : Prop :=
  (Refused pid signum s → sigsend pid signum s = (-1, s)) ∧
  (¬Refused pid signum s → ∃ q, Live s pid q ∧ sigsend pid signum s = (0, s.setProc q ((s.proc q).signalled signum)))

omit [DecidableEq C] in
theorem sigsend_found {pid signum : Int} (h : ¬(signum < 0 ∨ 31 < signum)) (hq : findPid pid s = some q) :
    sigsend pid signum s = (0, s.setProc q ((s.proc q).signalled signum)) := by
  have hrange : 0 ≤ signum ∧ signum < numsig := by
    simp only [numsig]
    omega
  have hint : signum.toNat = 14 ↔ signum = 14 := by omega
  simp only [sigsend, hrange, and_self, dite_true, hq, light, Proc.signalled, hint]

omit [DecidableEq C] in
theorem sigsend_fst {pid signum : Int} (h : ¬(signum < 0 ∨ 31 < signum)) : (sigsend pid signum s).1 = 0 := by
  have hrange : 0 ≤ signum ∧ signum < numsig := by
    simp only [numsig]
    omega
  simp only [sigsend, hrange, and_self, dite_true]

omit [DecidableEq C] in
theorem exists_live {pid signum : Int} (h : ¬(signum < 0 ∨ 31 < signum)) (ha : Addresses pid signum s) :
    ∃ q, Live s pid q ∧ sigsend pid signum s = (0, s.setProc q ((s.proc q).signalled signum)) := by
  refine ha.2 fun hrefused => ?_
  have hfst := congrArg Prod.fst (ha.1 hrefused)
  rw [sigsend_fst h] at hfst
  cases hfst

omit [DecidableEq C] in
/-- `sigsend` does what it should if and only if the number is out of range, the first entry with the pid is in use, or
neither this entry nor the process would change. -/
theorem sigsend_addresses_iff (pid signum : Int) (s : Sys C n) :
    Addresses pid signum s ↔ (signum < 0 ∨ 31 < signum) ∨
      ∃ q, findPid pid s = some q ∧ ((s.proc q).state ≠ .unused ∨
        (s.proc q).signalled signum = s.proc q ∧ ∃ r, Live s pid r ∧ (s.proc r).signalled signum = s.proc r) := by
  constructor
  · intro h
    by_cases hrange : signum < 0 ∨ 31 < signum
    · exact .inl hrange
    obtain ⟨r, hr, hsend⟩ := exists_live hrange h
    -- the loop ends at the first entry with the pid, which may be another one
    obtain ⟨q, hfind⟩ : ∃ q, findPid pid s = some q := by
      rw [← Option.isSome_iff_exists, findPid, List.find?_isSome]
      exact ⟨r, List.mem_finRange r, by simpa using hr.2⟩
    refine .inr ⟨q, hfind, ?_⟩
    by_cases hqr : q = r
    · exact .inl (hqr ▸ hr.1)
    · rw [sigsend_found hrange hfind] at hsend
      have hproc := congrArg (fun x => x.2.proc) hsend
      have hatq := congrFun hproc q
      have hatr := congrFun hproc r
      simp only [Sys.setProc_proc, Function.update_self, Function.update_of_ne hqr, Function.update_of_ne (Ne.symm hqr)]
        at hatq hatr
      exact .inr ⟨hatq, r, hr, hatr.symm⟩
  · intro h
    by_cases hrange : signum < 0 ∨ 31 < signum
    · have hout : ¬(0 ≤ signum ∧ signum < numsig) := by
        simp only [numsig]
        omega
      exact ⟨fun _ => dif_neg hout, fun h => absurd (.inl hrange) h⟩
    obtain ⟨q, hfind, hq⟩ := h.resolve_left hrange
    have hsend := sigsend_found hrange hfind
    rcases hq with hused | ⟨hsame, r, hr, hsame'⟩
    · have hlive : Live s pid q := ⟨hused, findPid_pid hfind⟩
      exact ⟨fun h => absurd ⟨q, hlive⟩ (h.resolve_left hrange), fun _ => ⟨q, hlive, hsend⟩⟩
    · refine ⟨fun h => absurd ⟨r, hr⟩ (h.resolve_left hrange), fun _ => ⟨r, hr, ?_⟩⟩
      rw [hsend, hsame, hsame', Sys.setProc, Sys.setProc, Function.update_eq_self, Function.update_eq_self]

theorem sigsend_misses : ¬Addresses 7 5 twoCpus ∧ ¬Addresses 0 5 twoCpus := by
  have hnobody (pid : Int) (hpid : pid ≠ 1) : ¬∃ q, Live twoCpus pid q := by
    rintro ⟨q, hused, hq⟩
    by_cases h0 : q = 0
    · subst h0
      exact hpid hq.symm
    · simp [twoCpus, h0] at hused
  constructor
  · intro h
    obtain ⟨q, hq, -⟩ := exists_live (by decide) h
    exact hnobody 7 (by decide) ⟨q, hq⟩
  · intro h
    obtain ⟨q, hq, -⟩ := exists_live (by decide) h
    exact hnobody 0 (by decide) ⟨q, hq⟩

end Xv6.Ptable
