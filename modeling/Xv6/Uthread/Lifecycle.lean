import Xv6.Uthread.Exit

/-!
# The life of a binary semaphore

`bsem_alloc` and `bsem_free` never disable the scheduler, and `bsem_down` and `bsem_up` test for -1 before they do.
-/

open Function Xv6.Run

namespace Xv6.Uthread

inductive FreePc (n : Nat) where
  | scan (x : Sem) (i : Nat)
  | clear (x : Sem) (i : Fin n)
  | ready (x : Sem) (i : Fin n)
  | drop (x : Sem)
deriving DecidableEq

inductive Event where
  | alloc (x : Sem)
  | free (x : Sem)
deriving DecidableEq

structure Life (n : Nat) where
  sys : Sys n
  /-- Threads in `bsem_free`. -/
  freeing : Fin n → Option (FreePc n)
  events : List Event

inductive LifeAct where
  | base (a : Act)
  /-- The current thread calls `bsem_free(x)`. -/
  | free (x : Sem)
  | freeStmt
deriving DecidableEq

variable {n : Nat}

namespace Life

def gotoFree (s : Life n) (p : Option (FreePc n)) : Life n :=
  { s with freeing := update s.freeing s.sys.ct p }

def execFree (s : Life n) : Option (Life n) :=
  match s.freeing s.sys.ct with
  | none => none
  | some (.scan x i) =>
    some (s.gotoFree (some (if h : i < n then
        if (s.sys.thread ⟨i, h⟩).blockedOnSemaphore = some x then .clear x ⟨i, h⟩ else .scan x (i + 1)
      else .drop x)))
  | some (.clear x i) =>
    some { s.gotoFree (some (.ready x i)) with
      sys := s.sys.setThread i { s.sys.thread i with blockedOnSemaphore := none } }
  | some (.ready x i) =>
    some { s.gotoFree (some (.scan x (i + 1))) with sys := s.sys.setThread i { s.sys.thread i with state := .ready } }
  | some (.drop x) => some { s.gotoFree none with sys := s.sys.setSem x (-1), events := s.events ++ [.free x] }

def running (s : Life n) : Bool := !s.sys.exited && s.sys.sched.isNone && s.sys.handlers s.sys.ct == 0

def busy (s : Life n) : Act → Bool
  | .call _ => (s.freeing s.sys.ct).isSome
  | .stmt => (s.freeing s.sys.ct).isSome && s.sys.handlers s.sys.ct == 0
  | _ => false

def allocated (s : Life n) (u : Sys n) : List Event :=
  match s.sys.pc s.sys.ct with
  | .allocReturn x => if u.pc s.sys.ct = .idle then [.alloc x] else []
  | _ => []

def step (s : Life n) : LifeAct → Option (Life n)
  | .base a =>
    if s.busy a then none
    else (Uthread.step s.sys a).map fun u => { s with sys := u, events := s.events ++ s.allocated u }
  | .free x =>
    if s.running ∧ s.sys.pc s.sys.ct = .idle ∧ s.freeing s.sys.ct = none then some (s.gotoFree (some (.scan x 0)))
    else none
  | .freeStmt => if s.running then s.execFree else none

end Life

/-! ## The windows -/

/-- After the test for -1, before the scheduler is disabled, and all of `bsem_alloc`: its index may be in `eax`. -/
def Pc.exposed : Pc n → Bool
  | downDisable _ | upDisable _ | allocScan _ | allocTake _ | allocReturn _ => true
  | _ => false

def Life.inWindow (s : Life n) (t : Fin n) : Bool := (s.sys.pc t).exposed || (s.freeing t).isSome

def Life.Unbroken (s : Life n) (a : LifeAct) : Prop := a = .base .preempt → s.inWindow s.sys.ct = false

instance {s : Life n} : DecidablePred fun a => s.Unbroken a := fun a =>
  inferInstanceAs (Decidable (a = .base .preempt → _))

def Pc.uses (x : Sem) : Pc n → Bool
  | downDisable y | downLook y | downMark y | downBlock y | downTake y => x = y
  | upDisable y | upScan y _ | upClear y _ | upReady y _ | upOpen y | allocReturn y => x = y
  | _ => false

/-! ## The invariant -/

def FreePlace (s : Sys n) : FreePc n → Prop
  | .scan x i => ∀ r : Fin n, r.val < i → (s.thread r).blockedOnSemaphore ≠ some x
  | .clear x i => ∀ r : Fin n, r.val < i.val → (s.thread r).blockedOnSemaphore ≠ some x
  | .ready x i => ∀ r : Fin n, r.val < i.val + 1 → (s.thread r).blockedOnSemaphore ≠ some x
  | .drop x => ∀ r, (s.thread r).blockedOnSemaphore ≠ some x

def Apart (events : List Event) : Prop :=
  ∀ (x : Sem) (i j : Nat), i < j → events[i]? = some (Event.alloc x) → events[j]? = some (Event.alloc x) →
    ∃ k, i < k ∧ k < j ∧ events[k]? = some (Event.free x)

def Freed (events : List Event) (x : Sem) : Prop :=
  ∀ i : Nat, events[i]? = some (Event.alloc x) → ∃ k, i < k ∧ events[k]? = some (Event.free x)

/-- Where a thread relies on a test of a semaphore. -/
def Pc.inside (p : Pc n) : Bool := p.critical || p.exposed

def Life.Outside (s : Life n) (t : Fin n) : Prop := (s.sys.pc t).inside = false ∧ s.freeing t = none

structure Life.Sound (s : Life n) : Prop where
  outside : ∀ t, t ≠ s.sys.ct ∨ s.sys.sched ≠ none → s.Outside t
  disabled : (s.sys.pc s.sys.ct).critical = true → s.sys.pending = false
  idle : s.freeing s.sys.ct ≠ none → s.sys.pc s.sys.ct = .idle
  closed : ∀ x, s.sys.pc s.sys.ct = .allocTake x → s.sys.lib.semaphores x = -1
  opened : ∀ x, (s.sys.pc s.sys.ct).uses x = true → s.sys.lib.semaphores x ≠ -1
  waits : ∀ t x, (s.sys.thread t).blockedOnSemaphore = some x → s.sys.lib.semaphores x ≠ -1
  place : ∀ p, s.freeing s.sys.ct = some p → FreePlace s.sys p
  apart : Apart s.events
  freed : ∀ x, s.sys.lib.semaphores x = -1 ∨ s.sys.pc s.sys.ct = .allocReturn x → Freed s.events x

/-! ## Events -/

theorem getElem?_snoc {es : List Event} {e e' : Event} {k : Nat} :
    (es ++ [e])[k]? = some e' ↔ es[k]? = some e' ∨ k = es.length ∧ e = e' := by
  rcases lt_trichotomy k es.length with h | rfl | h
  · rw [List.getElem?_append_left h]
    simp [h.ne]
  · simp
  · rw [List.getElem?_eq_none (by simp; omega), List.getElem?_eq_none (by omega)]
    simp [h.ne']

theorem getElem?_lt {es : List Event} {e : Event} {k : Nat} (h : es[k]? = some e) : k < es.length :=
  (List.getElem?_eq_some_iff.mp h).1

theorem Apart.snoc {es : List Event} {e : Event} (h : Apart es) (he : ∀ x, e = .alloc x → Freed es x) :
    Apart (es ++ [e]) := by
  intro x i j hij hi hj
  rw [getElem?_snoc] at hi hj
  have hi' : es[i]? = some (Event.alloc x) := by
    refine hi.resolve_right fun ⟨hlen, _⟩ => ?_
    rcases hj with hj | ⟨hj, -⟩
    · have := getElem?_lt hj
      omega
    · omega
  rcases hj with hj | ⟨rfl, rfl⟩
  · obtain ⟨k, h1, h2, h3⟩ := h x i j hij hi' hj
    exact ⟨k, h1, h2, getElem?_snoc.mpr (.inl h3)⟩
  · obtain ⟨k, h1, h2⟩ := he x rfl i hi'
    exact ⟨k, h1, getElem?_lt h2, getElem?_snoc.mpr (.inl h2)⟩

theorem Freed.snoc {es : List Event} {e : Event} {x : Sem} (h : Freed es x) (he : e ≠ .alloc x) :
    Freed (es ++ [e]) x := by
  intro i hi
  obtain ⟨k, h1, h2⟩ := h i ((getElem?_snoc.mp hi).resolve_right fun hi' => he hi'.2)
  exact ⟨k, h1, getElem?_snoc.mpr (.inl h2)⟩

theorem freed_snoc_free {es : List Event} {x : Sem} : Freed (es ++ [.free x]) x := by
  intro i hi
  exact ⟨es.length, getElem?_lt ((getElem?_snoc.mp hi).resolve_right nofun), getElem?_snoc.mpr (.inr ⟨rfl, rfl⟩)⟩

/-! ## Steps -/

theorem Pc.inside_of_uses {x : Sem} {p : Pc n} (h : p.uses x = true) : p.inside = true := by
  cases p <;> first | rfl | cases h

theorem Pc.inside_of_critical {p : Pc n} (h : p.critical = true) : p.inside = true := by rw [Pc.inside, h]; rfl

theorem Life.sched_of_running {s : Life n} (h : s.running = true) : s.sys.sched = none := by
  simp only [Life.running, Bool.and_eq_true, Option.isNone_iff_eq_none] at h
  exact h.1.2

theorem Life.step_allocReturn {v : Life n} {x : Sem} (hexited : v.sys.exited = false) (hsched : v.sys.sched = none)
    (hhandlers : v.sys.handlers v.sys.ct = 0) (hfree : v.freeing v.sys.ct = none)
    (hpc : v.sys.pc v.sys.ct = .allocReturn x) :
    ∃ w, v.step (.base .stmt) = some w ∧ w.events = v.events ++ [.alloc x] := by
  have hnext : Uthread.step v.sys .stmt = some (v.sys.goto .idle) := by
    simp [Uthread.step, hexited, hsched, hhandlers, Uthread.exec, hpc]
  refine ⟨{ v with sys := v.sys.goto .idle, events := v.events ++ v.allocated (v.sys.goto .idle) }, ?_, ?_⟩
  · simp [Life.step, Life.busy, hfree, hnext]
  · rw [Life.allocated, hpc]
    exact congrArg (v.events ++ ·) (if_pos (Sys.goto_pc_self _ _))

namespace Life.Sound

variable {s : Life n} {u : Sys n} {p : Pc n}

theorem of_outside (hout : ∀ t, s.Outside t)
    (hwaits : ∀ t x, (s.sys.thread t).blockedOnSemaphore = some x → s.sys.lib.semaphores x ≠ -1)
    (hapart : Apart s.events) (hfreed : ∀ x, s.sys.lib.semaphores x = -1 → Freed s.events x) : s.Sound := by
  obtain ⟨hpc, hfree⟩ := hout s.sys.ct
  have hnot : (s.sys.pc s.sys.ct).inside ≠ true := by rw [hpc]; nofun
  refine ⟨fun t _ => hout t, fun hc => absurd (Pc.inside_of_critical hc) hnot, fun hne => absurd hfree hne,
    fun x hx => absurd (by rw [hx]; rfl) hnot, fun x hx => absurd (Pc.inside_of_uses hx) hnot, hwaits, fun q hq => ?_,
    hapart, fun x hx => hfreed x (hx.resolve_right fun hx => hnot (by rw [hx]; rfl))⟩
  cases hfree.symm.trans hq

section

variable (h : s.Sound)
include h

theorem own (hfree : s.freeing s.sys.ct = none) (hct : u.ct = s.sys.ct)
    (hpc : u.pc = update s.sys.pc s.sys.ct p)
    (hsem : ∀ x, u.lib.semaphores x = s.sys.lib.semaphores x ∨ u.lib.semaphores x ≠ -1)
    (hblock : ∀ t y, (u.thread t).blockedOnSemaphore = some y →
      (s.sys.thread t).blockedOnSemaphore = some y ∨ (s.sys.pc s.sys.ct).uses y = true)
    (hinside : p.inside = true → u.sched = none) (hcritical : p.critical = true → u.pending = false)
    (hclosed : ∀ x, p = .allocTake x → u.lib.semaphores x = -1)
    (huses : ∀ x, p.uses x = true → u.lib.semaphores x ≠ -1) {events : List Event} (hapart : Apart events)
    (hfreed : ∀ x, u.lib.semaphores x = -1 ∨ p = .allocReturn x → Freed events x) :
    Life.Sound { s with sys := u, events := events } := by
  have hself : u.pc u.ct = p := by rw [hpc, hct, update_self]
  have hkeep : ∀ x, s.sys.lib.semaphores x ≠ -1 → u.lib.semaphores x ≠ -1 := fun x hx =>
    (hsem x).elim (fun he => he ▸ hx) id
  refine ⟨fun t ht => ?_, fun hc => hcritical (hself ▸ hc), fun hne => absurd (hct ▸ hfree) hne,
    fun x hx => hclosed x (hself ▸ hx), fun x hx => huses x (hself ▸ hx), fun t x ht => ?_, fun q hq => ?_, hapart,
    fun x hx => hfreed x (hself ▸ hx)⟩
  · rcases eq_or_ne t s.sys.ct with rfl | hne
    · refine ⟨Bool.eq_false_iff.mpr fun hp => ht.elim (fun hne => hne hct.symm) fun hon => hon (hinside ?_), hfree⟩
      rwa [← hself, hct]
    · rw [Life.Outside, hpc, update_of_ne hne]
      exact h.outside t (.inl hne)
  · exact hkeep x ((hblock t x ht).elim (h.waits t x) (h.opened x))
  · cases (hct ▸ hfree : s.freeing u.ct = none).symm.trans hq

theorem own_quiet (hfree : s.freeing s.sys.ct = none) (hpc : u.pc = update s.sys.pc s.sys.ct p)
    (hsem : ∀ x, u.lib.semaphores x = s.sys.lib.semaphores x ∨ u.lib.semaphores x ≠ -1)
    (hblock : ∀ t y, (u.thread t).blockedOnSemaphore = some y →
      (s.sys.thread t).blockedOnSemaphore = some y ∨ (s.sys.pc s.sys.ct).uses y = true)
    (hinside : p.inside = false) {events : List Event} (hapart : Apart events)
    (hfreed : ∀ x, u.lib.semaphores x = -1 → Freed events x) : Life.Sound { s with sys := u, events := events } := by
  refine of_outside (fun t => ?_) (fun t x ht => ?_) hapart hfreed
  · rcases eq_or_ne t s.sys.ct with rfl | hne
    · exact ⟨by rw [hpc, update_self, hinside], hfree⟩
    · rw [Life.Outside, hpc, update_of_ne hne]
      exact h.outside t (.inl hne)
  · have hx := (hblock t x ht).elim (h.waits t x) (h.opened x)
    exact (hsem x).elim (fun he => he ▸ hx) id

theorem freed_of_keep
    (hsem : ∀ x, u.lib.semaphores x = s.sys.lib.semaphores x ∨ u.lib.semaphores x ≠ -1) {x : Sem}
    (hx : u.lib.semaphores x = -1) : Freed s.events x := by
  rcases hsem x with he | hne
  · exact h.freed x (.inl (he.symm.trans hx))
  · exact absurd hx hne

theorem exec (hsched : s.sys.sched = none) (hu : exec s.sys = some u) :
    Life.Sound { s with sys := u, events := s.events ++ s.allocated u } := by
  have hfree : s.freeing s.sys.ct = none := by
    by_contra hne
    rw [Uthread.exec, h.idle hne] at hu
    cases hu
  have hct := (exec_steady hu).ct
  have hsem : ∀ x, u.lib.semaphores x = s.sys.lib.semaphores x ∨ u.lib.semaphores x ≠ -1 := fun x =>
    (exec_semaphores hu x).imp_right And.left
  have hblock : ∀ t y, (u.thread t).blockedOnSemaphore = some y →
      (s.sys.thread t).blockedOnSemaphore = some y ∨ (s.sys.pc s.sys.ct).uses y = true := fun t y ht =>
    (exec_blockedOn hu ht).imp_right fun hpc => by rw [hpc]; exact decide_eq_true rfl
  have hkeep : ∀ x, (s.sys.pc s.sys.ct).uses x = true → u.lib.semaphores x ≠ -1 := fun x hx =>
    (hsem x).elim (fun he => he ▸ h.opened x hx) id
  by_cases hat : ∃ x, s.sys.pc s.sys.ct = .allocReturn x
  · obtain ⟨x, hx⟩ := hat
    obtain rfl : u = s.sys.goto .idle := by
      rw [Uthread.exec, hx] at hu
      exact (Option.some.inj hu).symm
    have halloc : s.allocated (s.sys.goto .idle) = [.alloc x] := by
      rw [Life.allocated, hx]
      exact if_pos (Sys.goto_pc_self _ _)
    rw [halloc]
    refine h.own_quiet (u := s.sys.goto .idle) hfree rfl hsem hblock rfl (h.apart.snoc ?_) fun y hy => ?_
    · rintro y ⟨⟩
      exact h.freed x (.inr hx)
    · refine (h.freed y (.inl hy)).snoc ?_
      rintro ⟨⟩
      exact h.opened x (by rw [hx]; exact decide_eq_true rfl) hy
  have hevents : s.events ++ s.allocated u = s.events := by
    rw [Life.allocated]
    split
    · exact absurd ⟨_, by assumption⟩ hat
    · exact List.append_nil _
  rw [hevents]
  have hquiet : ∀ p, u.pc = update s.sys.pc s.sys.ct p → p.inside = false → Life.Sound { s with sys := u } :=
    fun p hpc hp => h.own_quiet hfree hpc hsem hblock hp h.apart fun x => h.freed_of_keep hsem
  -- where the alarm must not come
  have hexposed : ∀ p, u.pc = update s.sys.pc s.sys.ct p → u.sched = s.sys.sched →
      (p.critical = true → u.pending = false) → (∀ x, p = .allocTake x → u.lib.semaphores x = -1) →
      (∀ x, p.uses x = true → u.lib.semaphores x ≠ -1) → (∀ x, p = .allocReturn x → s.sys.lib.semaphores x = -1) →
      Life.Sound { s with sys := u } := fun p hpc hs hp hclosed huses hreturn =>
    h.own hfree hct hpc hsem hblock (fun _ => hs.trans hsched) hp hclosed huses h.apart fun x hx =>
      hx.elim (h.freed_of_keep hsem) fun hx => h.freed x (.inl (hreturn x hx))
  -- inside a critical section the statements work on one semaphore
  have hinside : ∀ p, u.pc = update s.sys.pc s.sys.ct p → (s.sys.pc s.sys.ct).critical = true →
      u.sched = s.sys.sched → u.pending = s.sys.pending → p.exposed = false →
      (∀ x, p.uses x = true → (s.sys.pc s.sys.ct).uses x = true) → Life.Sound { s with sys := u } :=
    fun p hpc hcrit hs hp hout huses =>
    hexposed p hpc hs (fun _ => hp.trans (h.disabled hcrit)) (by rintro x rfl; cases hout)
      (fun x hx => hkeep x (huses x hx)) (by rintro x rfl; cases hout)
  cases exec_executes hu with
  | look hpc hlook =>
    rw [hpc] at hinside
    cases hlook with
    | @downTest x hopen =>
      refine hexposed (.downDisable x) rfl rfl nofun nofun (fun y hy => ?_) nofun
      rwa [of_decide_eq_true hy]
    | @upTest x hopen =>
      refine hexposed (.upDisable x) rfl rfl nofun nofun (fun y hy => ?_) nofun
      rwa [of_decide_eq_true hy]
    | downClosed | downOpen | upFound | upNext | upNone => exact hinside _ rfl rfl rfl rfl rfl fun _ hx => hx
    | @allocFound i hi hclosed =>
      refine hexposed (.allocTake ⟨i, hi⟩) rfl rfl nofun ?_ nofun nofun
      rintro y ⟨⟩
      exact hclosed
    | allocNext => exact hexposed _ rfl rfl nofun nofun nofun nofun
    | allocReturn => exact absurd ⟨_, hpc⟩ hat
    | _ => exact hquiet _ rfl rfl
  | write hpc hwrite =>
    rw [hpc] at hinside
    cases hwrite with
    | downMark => exact hinside _ rfl rfl rfl rfl rfl fun _ hx => hx
    | downBlock => exact hinside _ rfl rfl rfl rfl rfl nofun
    | _ => exact hquiet _ rfl rfl
  | wake hpc hwake =>
    rw [hpc] at hinside
    cases hwake with
    | upClear => exact hinside _ rfl rfl rfl rfl rfl fun _ hx => hx
    | upReady => exact hinside _ rfl rfl rfl rfl rfl nofun
    | exitClear | exitReady => exact hquiet _ rfl rfl
  | @set _ _ x _ hpc hset =>
    rw [hpc] at hinside
    cases hset with
    | downTake | upOpen => exact hinside _ rfl rfl rfl rfl rfl nofun
    | allocTake =>
      refine hexposed (.allocReturn x) rfl rfl nofun nofun (fun y hy => ?_) ?_
      · rw [of_decide_eq_true hy, Sys.setSem, setSem_self]
        decide
      · rintro y ⟨⟩
        exact h.closed _ hpc
  | yield hpc hyield => cases hyield <;> exact hquiet _ rfl rfl
  | freed | granted | downEnable | upEnable => exact hquiet .idle rfl rfl
  | downDisable hpc | upDisable hpc =>
    rw [hpc] at hkeep
    exact hexposed _ rfl rfl (fun _ => rfl) (by rintro x ⟨⟩) hkeep (by rintro x ⟨⟩)
  | exit hpc => exact hquiet _ (update_eq_self _ _).symm (by rw [hpc]; rfl)

theorem free (hidle : s.sys.pc s.sys.ct = .idle) (hct : u.ct = s.sys.ct) (hpc : u.pc = s.sys.pc)
    (hsched : u.sched = none) {q : Option (FreePc n)} (hplace : ∀ p, q = some p → FreePlace u p)
    (hwaits : ∀ t x, (u.thread t).blockedOnSemaphore = some x → u.lib.semaphores x ≠ -1)
    {events : List Event} (hapart : Apart events) (hfreed : ∀ x, u.lib.semaphores x = -1 → Freed events x) :
    Life.Sound { s.gotoFree q with sys := u, events := events } := by
  have hself : update s.freeing s.sys.ct q u.ct = q := by rw [hct, update_self]
  have hpc' : u.pc u.ct = .idle := by rw [hpc, hct, hidle]
  refine ⟨fun t ht => ?_, fun hc => ?_, fun _ => hpc', fun x hx => ?_, fun x hx => ?_, hwaits,
    fun p hp => hplace p (hself.symm.trans hp), hapart, fun x hx => hfreed x (hx.resolve_right fun hx => ?_)⟩
  · have hne : t ≠ s.sys.ct := ht.elim (hct ▸ ·) fun hon => absurd hsched hon
    obtain ⟨hout, hfree⟩ := h.outside t (.inl hne)
    exact ⟨by rwa [hpc], (update_of_ne hne _ _).trans hfree⟩
  all_goals simp [hpc', Pc.critical, Pc.uses] at *

end

theorem execFree {v : Life n} (h : s.Sound) (hsched : s.sys.sched = none) (hv : s.execFree = some v) : v.Sound := by
  unfold Life.execFree at hv
  cases hat : s.freeing s.sys.ct with
  | none =>
    rw [hat] at hv
    cases hv
  | some q =>
    have hidle := h.idle (by rw [hat]; nofun)
    have hplace := h.place q hat
    -- an entry that no longer waits
    have hless : ∀ i y, y.blockedOnSemaphore = none ∨ y.blockedOnSemaphore = (s.sys.thread i).blockedOnSemaphore →
        ∀ t x, ((s.sys.setThread i y).thread t).blockedOnSemaphore = some x →
          (s.sys.thread t).blockedOnSemaphore = some x := fun i y hy t x ht => by
      rcases eq_or_ne t i with rfl | hne
      · rw [Sys.setThread_thread_self] at ht
        rcases hy with hy | hy
        · rw [hy] at ht
          cases ht
        · rwa [← hy]
      · rwa [Sys.setThread_thread_ne hne] at ht
    rw [hat] at hv
    cases q with
    | scan x i =>
      cases hv
      refine h.free hidle rfl rfl hsched ?_ h.waits h.apart fun x hx => h.freed x (.inl hx)
      rintro p ⟨⟩
      split
      · rename_i hi
        split
        · exact hplace
        · rename_i hne
          intro r hr
          rcases Nat.lt_succ_iff_lt_or_eq.mp hr with hr | rfl
          · exact hplace r hr
          · exact hne
      · rename_i hi
        exact fun r => hplace r (by have := r.isLt; omega)
    | clear x i =>
      cases hv
      have hwaits := hless i { s.sys.thread i with blockedOnSemaphore := none } (.inl rfl)
      refine h.free (u := s.sys.setThread i _) hidle rfl rfl hsched ?_ (fun t y ht => h.waits t y (hwaits t y ht))
        h.apart fun x hx => h.freed x (.inl hx)
      rintro p ⟨⟩ r hr ht
      rcases Nat.lt_succ_iff_lt_or_eq.mp hr with hr | hr
      · exact hplace r hr (hwaits r x ht)
      · obtain rfl := Fin.ext hr
        rw [Sys.setThread_thread_self] at ht
        cases ht
    | ready x i =>
      cases hv
      have hwaits := hless i { s.sys.thread i with state := .ready } (.inr rfl)
      refine h.free (u := s.sys.setThread i _) hidle rfl rfl hsched ?_ (fun t y ht => h.waits t y (hwaits t y ht))
        h.apart fun x hx => h.freed x (.inl hx)
      rintro p ⟨⟩ r hr ht
      exact hplace r hr (hwaits r x ht)
    | drop x =>
      cases hv
      have hsem : ∀ y, y ≠ x → (s.sys.setSem x (-1)).lib.semaphores y = s.sys.lib.semaphores y := fun y hy =>
        setSem_ne hy
      refine h.free (u := s.sys.setSem x (-1)) (q := none) hidle rfl rfl hsched nofun (fun t y ht => ?_)
        (h.apart.snoc fun _ he => nomatch he) fun y hy => ?_
      · rw [hsem y fun he => hplace t (he ▸ ht)]
        exact h.waits t y ht
      · rcases eq_or_ne y x with rfl | hne
        · exact freed_snoc_free
        · exact (h.freed y (.inl ((hsem y hne).symm.trans hy))).snoc nofun

variable (h : s.Sound)
include h

theorem call (hsched : s.sys.sched = none) (hfree : s.freeing s.sys.ct = none) (c : Call) :
    Life.Sound { s with sys := call s.sys c } := by
  have hfreed : ∀ x, s.sys.lib.semaphores x = -1 → Freed s.events x := fun x hx => h.freed x (.inl hx)
  have hgo : ∀ p : Pc n, p.inside = false → Life.Sound { s with sys := s.sys.goto p } := fun p hp =>
    h.own_quiet (u := s.sys.goto p) hfree rfl (fun _ => .inl rfl) (fun _ _ ht => .inl ht) hp h.apart hfreed
  cases c with
  | up x =>
    exact h.own_quiet (u := Uthread.call s.sys (.up x)) (p := .upTest x) hfree rfl (fun _ => .inl rfl)
      (fun _ _ ht => .inl ht) rfl h.apart hfreed
  | alloc =>
    exact h.own (u := s.sys.goto (.allocScan 0)) hfree rfl rfl (fun _ => .inl rfl) (fun _ _ ht => .inl ht)
      (fun _ => hsched) nofun nofun nofun h.apart fun x hx => hfreed x (hx.resolve_right nofun)
  | down | sleep | join | exit => exact hgo _ rfl

theorem reschedule (hout : ∀ t, s.Outside t) (hpc : u.pc = s.sys.pc)
    (hsem : u.lib.semaphores = s.sys.lib.semaphores) (hshift : ∀ t, Shifted (s.sys.thread t) (u.thread t)) :
    Life.Sound { s with sys := u } := by
  refine of_outside (fun t => ?_) (fun t x ht => ?_) h.apart fun x hx => h.freed x (.inl (by rwa [hsem] at hx))
  · rw [Life.Outside, hpc]
    exact hout t
  · rw [hsem]
    exact h.waits t x (by rwa [(hshift t).blockedOnSemaphore] at ht)

theorem preempted (hwindow : s.inWindow s.sys.ct = false) (hpending : s.sys.pending = true) (t : Fin n) :
    s.Outside t := by
  rcases eq_or_ne t s.sys.ct with rfl | hne
  · obtain ⟨hexposed, hfree⟩ := Bool.or_eq_false_iff.mp hwindow
    refine ⟨Bool.or_eq_false_iff.mpr ⟨Bool.eq_false_iff.mpr fun hc => ?_, hexposed⟩, by simpa using hfree⟩
    rw [h.disabled hc] at hpending
    cases hpending
  · exact h.outside t (.inl hne)

theorem base {a : Act} (hok : s.Unbroken (.base a)) (hbusy : s.busy a = false)
    (hu : Uthread.step s.sys a = some u) :
    Life.Sound { s with sys := u, events := s.events ++ s.allocated u } := by
  have hquiet : u.pc = s.sys.pc → s.events ++ s.allocated u = s.events := fun hpc => by
    rw [Life.allocated, hpc]
    split
    · rename_i x hx
      rw [if_neg (by rw [hx]; nofun), List.append_nil]
    · exact List.append_nil _
  cases step_moves hu with
  | tick | leave =>
    rw [hquiet rfl]
    exact ⟨h.outside, h.disabled, h.idle, h.closed, h.opened, h.waits, fun p hp => h.place p hp, h.apart, h.freed⟩
  | scan hsched =>
    have hframe := chooseNextThread_rescheduled (s := s.sys)
    rw [hquiet (hframe _).pc]
    exact h.reschedule (fun t => h.outside t (.inr (by rw [hsched]; nofun))) (hframe _).pc (hframe _).semaphores
      (hframe _).shifted
  | preempt hsched hpending =>
    rw [hquiet rfl]
    exact h.reschedule (h.preempted (hok rfl) hpending) rfl rfl deliver_shifted
  | @call c hsched hpc =>
    have hfree : s.freeing s.sys.ct = none := Option.not_isSome_iff_eq_none.mp (by simpa [Life.busy] using hbusy)
    have hevents : s.events ++ s.allocated (Uthread.call s.sys c) = s.events := by
      rw [Life.allocated, hpc]
      exact List.append_nil _
    rw [hevents]
    exact h.call hsched hfree _
  | exec hsched hu => exact h.exec hsched hu

theorem step {v : Life n} {a : LifeAct} (hok : s.Unbroken a) (hv : s.step a = some v) : v.Sound := by
  unfold Life.step at hv
  cases a with
  | base a =>
    obtain ⟨hbusy, hv⟩ := Option.ite_none_left_eq_some.mp hv
    obtain ⟨u, hu, rfl⟩ := Option.map_eq_some_iff.mp hv
    exact h.base hok (Bool.eq_false_iff.mpr hbusy) hu
  | free x =>
    obtain ⟨⟨hrun, hpc, -⟩, ⟨⟩⟩ := Option.ite_none_right_eq_some.mp hv
    refine h.free hpc rfl rfl (Life.sched_of_running hrun) ?_ h.waits h.apart fun x hx => h.freed x (.inl hx)
    rintro p ⟨⟩ r hr
    exact absurd hr (Nat.not_lt_zero _)
  | freeStmt =>
    obtain ⟨hrun, hv⟩ := Option.ite_none_right_eq_some.mp hv
    exact h.execFree (Life.sched_of_running hrun) hv

theorem opens {v : Life n} {a : LifeAct} (hv : s.step a = some v) {x : Sem}
    (hclosed : s.sys.lib.semaphores x = -1) (hopen : v.sys.lib.semaphores x ≠ -1) :
    s.sys.pc s.sys.ct = .allocTake x ∧ ∃ w, v.step (.base .stmt) = some w ∧ w.events = s.events ++ [.alloc x] := by
  unfold Life.step at hv
  cases a with
  | base a =>
    obtain ⟨-, hv⟩ := Option.ite_none_left_eq_some.mp hv
    obtain ⟨u, hu, rfl⟩ := Option.map_eq_some_iff.mp hv
    cases step_moves hu with
    | tick | leave | preempt => exact absurd hclosed hopen
    | scan =>
      rw [(chooseNextThread_rescheduled _).semaphores] at hopen
      exact absurd hclosed hopen
    | @call c =>
      have hsame : (Uthread.call s.sys c).lib = s.sys.lib := by cases c <;> rfl
      rw [hsame] at hopen
      exact absurd hclosed hopen
    | exec hsched hu hexited hhandlers =>
      rcases exec_semaphores hu x with hsame | ⟨-, hpc | hpc | hpc⟩
      · rw [hsame] at hopen
        exact absurd hclosed hopen
      · exact absurd hclosed (h.opened x (by rw [hpc]; exact decide_eq_true rfl))
      · exact absurd hclosed (h.opened x (by rw [hpc]; exact decide_eq_true rfl))
      · refine ⟨hpc, ?_⟩
        rw [Uthread.exec, hpc] at hu
        cases hu
        have hfree : s.freeing s.sys.ct = none := by
          by_contra hne
          cases (h.idle hne).symm.trans hpc
        have hquiet : ∀ u, s.allocated u = [] := fun u => by rw [Life.allocated, hpc]
        rw [hquiet, List.append_nil]
        exact Life.step_allocReturn hexited hsched hhandlers hfree (s.sys.goto_pc_self _)
  | free y =>
    obtain ⟨-, ⟨⟩⟩ := Option.ite_none_right_eq_some.mp hv
    exact absurd hclosed hopen
  | freeStmt =>
    obtain ⟨-, hv⟩ := Option.ite_none_right_eq_some.mp hv
    unfold Life.execFree at hv
    split at hv
    · cases hv
    case h_5 y _ =>
      cases hv
      change (s.sys.lib.setSem y (-1)).semaphores x ≠ -1 at hopen
      rcases eq_or_ne x y with rfl | hne
      · exact absurd (setSem_self _ _ _) hopen
      · rw [setSem_ne hne] at hopen
        exact absurd hclosed hopen
    all_goals
      cases hv
      exact absurd hclosed hopen

end Life.Sound

structure Life.Started (s : Life n) : Prop where
  sys : Uthread.Started s.sys
  freeing : ∀ t, s.freeing t = none
  events : s.events = []

theorem Life.Started.sound {s : Life n} (h : s.Started) : s.Sound := by
  refine .of_outside (fun t => ⟨by rw [h.sys.idle]; rfl, h.freeing t⟩) (fun t x ht => ?_) ?_ ?_
  · rw [(h.sys.free t).2] at ht
    cases ht
  · rw [h.events]
    intro x i j _ hi
    cases hi
  · rw [h.events]
    intro x _ i hi
    cases hi

/-- Only `bsem_alloc` opens `x`, and its next statement returns `x`. -/
def Life.OpensByAlloc (s : Life n) (a : LifeAct) : Prop :=
  ∀ v, s.step a = some v → ∀ x, s.sys.lib.semaphores x = -1 → v.sys.lib.semaphores x ≠ -1 →
    s.sys.pc s.sys.ct = .allocTake x ∧ ∃ w, v.step (.base .stmt) = some w ∧ w.events = s.events ++ [.alloc x]

def Life.NoneForgotten (s : Life n) : Prop :=
  ∀ t x, (s.sys.thread t).state = .blocked → (s.sys.thread t).blockedOnSemaphore = some x →
    s.sys.lib.semaphores x ≠ -1

theorem semaphore_lifecycle {s : Life n} {as : List LifeAct} (hs : s.Started)
    (hok : Along Life.step Life.Unbroken s as) :
    Along Life.step Life.OpensByAlloc s as ∧ Always Life.step (fun v => Apart v.events ∧ v.NoneForgotten) s as := by
  constructor
  · exact along_of_along (I := Life.Sound) (fun _ _ _ h ha hv => h.step ha hv)
      (fun v a _ h _ _ w hw x => h.opens hw) hs.sound hok
  · exact always_of_along (I := Life.Sound) (fun _ _ _ h ha hv => h.step ha hv)
      (fun v h => ⟨h.apart, fun t x _ => h.waits t x⟩) hs.sound hok

def pairLife : Life 2 := ⟨pair, fun _ => none, []⟩

theorem pairLife_started : pairLife.Started := ⟨pair_started, fun _ => rfl, rfl⟩

def lifeInTurn : List LifeAct :=
  List.flatten [[.base (.call .alloc)], stmts .base 3, [.base (.call (.down 0))], stmts .base 5, switch .base,
    [.base (.call (.down 0))], stmts .base 6, [.base .scan, .base .stmt, .free 0], .replicate 6 .freeStmt]

theorem lifeInTurn_lifecycle :
    (run Life.step pairLife lifeInTurn).map (fun v => (v.events, v.sys.lib.semaphores 0, (v.sys.thread 1).state)) =
        some ([.alloc 0, .free 0], -1, .ready) ∧
      Along Life.step Life.OpensByAlloc pairLife lifeInTurn ∧
      Always Life.step (fun v => Apart v.events ∧ v.NoneForgotten) pairLife lifeInTurn :=
  ⟨by decide +kernel, semaphore_lifecycle pairLife_started (by decide +kernel)⟩

def allocTogether : List LifeAct :=
  List.flatten [[.base (.call .alloc)], stmts .base 1, switch .base, [.base (.call .alloc)], stmts .base 3,
    switch .base,
    stmts .base 2]

def downFreed : List LifeAct :=
  List.flatten [[.base (.call .alloc)], stmts .base 3, [.base (.call (.down 0))], stmts .base 1, switch .base,
    [.free 0], .replicate 4 .freeStmt, switch .base, stmts .base 2]

def freeMissed : List LifeAct :=
  List.flatten [[.base (.call .alloc)], stmts .base 3, [.base (.call (.down 0))], stmts .base 5, switch .base,
    [.free 0], .replicate 3 .freeStmt, switch .base, [.base (.call (.down 0))], stmts .base 6,
    [.base .scan, .base .stmt], .replicate 1 .freeStmt]

theorem not_apart_twice (x : Sem) : ¬ Apart [.alloc x, .alloc x] := by
  intro h
  obtain ⟨k, hlt, hlt', -⟩ := h x 0 1 Nat.one_pos rfl rfl
  omega

theorem not_opensByAlloc {s : Life n} {a : LifeAct} {x : Sem} (hpc : s.sys.pc s.sys.ct ≠ .allocTake x)
    (hclosed : s.sys.lib.semaphores x = -1) (hopen : ((s.step a).map fun v => v.sys.lib.semaphores x) = some 0) :
    ¬ s.OpensByAlloc a := by
  intro h
  obtain ⟨v, hv, hzero⟩ := Option.map_eq_some_iff.mp hopen
  exact hpc (h v hv x hclosed (by rw [hzero]; decide)).1

theorem lifecycle_broken :
    pairLife.Started ∧ (∃ v, run Life.step pairLife allocTogether = some v ∧ ¬ Apart v.events) ∧
      (∃ v, run Life.step pairLife downFreed = some v ∧ ¬ v.OpensByAlloc (.base .stmt)) ∧
      ∃ v, run Life.step pairLife freeMissed = some v ∧ ¬ v.NoneForgotten := by
  refine ⟨pairLife_started, ?_, ?_, ?_⟩
  · have hrun : (run Life.step pairLife allocTogether).map (fun v => v.events) = some [.alloc 0, .alloc 0] := by
      decide +kernel
    obtain ⟨v, hv, hevents⟩ := Option.map_eq_some_iff.mp hrun
    exact ⟨v, hv, hevents ▸ not_apart_twice 0⟩
  · have hrun : (run Life.step pairLife downFreed).map (fun v => (v.sys.pc v.sys.ct, v.sys.lib.semaphores 0,
        (v.step (.base .stmt)).map fun w => w.sys.lib.semaphores 0)) = some (.downTake 0, -1, some 0) := by
      decide +kernel
    obtain ⟨v, hv, hend⟩ := Option.map_eq_some_iff.mp hrun
    simp only [Prod.mk.injEq] at hend
    exact ⟨v, hv, not_opensByAlloc (by rw [hend.1]; nofun) hend.2.1 hend.2.2⟩
  · have hrun : (run Life.step pairLife freeMissed).map (fun v => ((v.sys.thread 0).state,
        (v.sys.thread 0).blockedOnSemaphore, v.sys.lib.semaphores 0)) = some (.blocked, some 0, -1) := by
      decide +kernel
    obtain ⟨v, hv, hend⟩ := Option.map_eq_some_iff.mp hrun
    simp only [Prod.mk.injEq] at hend
    exact ⟨v, hv, fun h => h 0 0 hend.1 hend.2.1 hend.2.2⟩

end Xv6.Uthread
