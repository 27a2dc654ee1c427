import Xv6.Lib.Run
import Xv6.Uthread.Effects

/-!
# Binary semaphores under preemption

A closed semaphore has one owner: a thread that has returned from `bsem_down`, that has been granted it, or that is in
`bsem_up` and has not passed it on.
-/

open Function Xv6.Run

namespace Xv6.Uthread

variable {n : Nat}

namespace Pc

def inUp (x : Sem) : Pc n → Bool
  | upTest y | upDisable y | upScan y _ | upClear y _ | upOpen y => x = y
  | _ => false

def upping (x : Sem) : Pc n → Bool
  | upTest y | upDisable y | upScan y _ | upClear y _ | upReady y _ | upOpen y | upEnable y => x = y
  | _ => false

def claims (x : Sem) : Pc n → Bool
  | downEnable y | downWait y => x = y
  | p => p.upping x

theorem claims_of_inUp {x : Sem} {p : Pc n} (h : p.inUp x = true) : p.claims x = true := by
  cases p <;> simp_all [inUp, claims, upping]

theorem claims_of_upping {x : Sem} {p : Pc n} (h : p.upping x = true) : p.claims x = true := by
  cases p <;> simp_all [claims, upping]

def reads (x : Sem) : Pc n → Bool
  | downMark y | downTake y | allocTake y => x = y
  | _ => false

end Pc

theorem Coherent.not_critical {s : Sys n} (h : Coherent s) {t : Fin n} (ht : t ≠ s.ct) : (s.pc t).critical = false := by
  by_contra hc
  exact ht (h.critical t (Bool.eq_true_of_not_eq_false hc)).1

/-! ## The value -/

structure Valued (x : Sem) (s : Sys n) : Prop where
  range : s.lib.semaphores x = 0 ∨ s.lib.semaphores x = 1
  waits : ∀ t, (s.thread t).blockedOnSemaphore = some x → s.lib.semaphores x = 0
  mark : ∀ t, s.pc t = .downMark x → s.lib.semaphores x = 0
  take : ∀ t, s.pc t = .downTake x → s.lib.semaphores x = 1
  alloc : ∀ t, s.pc t ≠ .allocTake x

section Value

variable {x : Sem} {s u : Sys n} {p : Pc n}

theorem Valued.own (h : Valued x s) (hpc : u.pc = update s.pc s.ct p)
    (hsem : u.lib.semaphores x = s.lib.semaphores x)
    (hwaits : ∀ t, (u.thread t).blockedOnSemaphore = some x →
      (s.thread t).blockedOnSemaphore = some x ∨ s.lib.semaphores x = 0)
    (hmark : p = .downMark x → s.lib.semaphores x = 0) (htake : p = .downTake x → s.lib.semaphores x = 1)
    (halloc : p ≠ .allocTake x) : Valued x u := by
  have hpself : u.pc s.ct = p := by rw [hpc, update_self]
  have hpother : ∀ t, t ≠ s.ct → u.pc t = s.pc t := fun t ht => by rw [hpc, update_of_ne ht]
  refine ⟨hsem ▸ h.range, fun t ht => ?_, fun t ht => ?_, fun t ht => ?_, fun t ht => ?_⟩
  · rw [hsem]
    exact (hwaits t ht).elim (h.waits t) id
  all_goals rcases eq_or_ne t s.ct with rfl | hne
  · rw [hsem, hmark (hpself ▸ ht)]
  · rw [hsem]
    exact h.mark t (hpother t hne ▸ ht)
  · rw [hsem, htake (hpself ▸ ht)]
  · rw [hsem]
    exact h.take t (hpother t hne ▸ ht)
  · exact halloc (hpself ▸ ht)
  · exact h.alloc t (hpother t hne ▸ ht)

theorem Valued.elsewhere (h : Valued x s) (hpc : u.pc = update s.pc s.ct p) (hp : p.reads x = false)
    (hsem : u.lib.semaphores x = s.lib.semaphores x)
    (hblocked : ∀ t, (u.thread t).blockedOnSemaphore = (s.thread t).blockedOnSemaphore) : Valued x u := by
  have hne : ∀ q : Pc n, q.reads x = true → p ≠ q := by
    rintro q hq rfl
    rw [hp] at hq
    cases hq
  exact h.own hpc hsem (fun t ht => .inl (hblocked t ▸ ht)) (absurd · (hne _ (by simp [Pc.reads])))
    (absurd · (hne _ (by simp [Pc.reads]))) (hne _ (by simp [Pc.reads]))

theorem Valued.congr (h : Valued x s) (hpc : u.pc = s.pc) (hsem : u.lib.semaphores x = s.lib.semaphores x)
    (hblocked : ∀ t, (u.thread t).blockedOnSemaphore = (s.thread t).blockedOnSemaphore) : Valued x u := by
  obtain ⟨h1, h2, h3, h4, h5⟩ := h
  refine ⟨?_, ?_, ?_, ?_, ?_⟩ <;> simpa only [hsem, hpc, hblocked]

theorem Valued.change (h : Valued x s) (hc : Coherent s) {v : Int} (hpc : u.pc = update s.pc s.ct p)
    (hsem : u.lib.semaphores x = v) (hv : v = 0 ∨ v = 1)
    (hwaits : ∀ t, (u.thread t).blockedOnSemaphore = some x → v = 0) (hp : p.reads x = false) : Valued x u := by
  have hpself : u.pc s.ct = p := by rw [hpc, update_self]
  have hpother : ∀ t, t ≠ s.ct → u.pc t = s.pc t := fun t ht => by rw [hpc, update_of_ne ht]
  have hne : ∀ q : Pc n, q.reads x = true → p ≠ q := by
    rintro q hq rfl
    rw [hp] at hq
    cases hq
  rw [← hsem] at hv hwaits
  refine ⟨hv, hwaits, fun t ht => ?_, fun t ht => ?_, fun t ht => ?_⟩ <;> rcases eq_or_ne t s.ct with rfl | hct
  · exact absurd (hpself ▸ ht) (hne _ (by simp [Pc.reads]))
  · have := hc.not_critical hct
    rw [← hpother t hct, ht] at this
    cases this
  · exact absurd (hpself ▸ ht) (hne _ (by simp [Pc.reads]))
  · have := hc.not_critical hct
    rw [← hpother t hct, ht] at this
    cases this
  · exact absurd (hpself ▸ ht) (hne _ (by simp [Pc.reads]))
  · exact h.alloc t (hpother t hct ▸ ht)

end Value

/-! ## The owner -/

def Owner (x : Sem) (s : Sys n) (t : Fin n) : Prop :=
  s.held t x = true ∨ s.pc t = .downEnable x ∨
  (s.pc t = .downWait x ∧ (s.thread t).blockedOnSemaphore = none) ∨ (s.pc t).inUp x = true

structure Owned (x : Sem) (s : Sys n) : Prop where
  unique : ∀ t r, Owner x s t → Owner x s r → t = r
  closed : ∀ t, Owner x s t → s.lib.semaphores x = 0
  upping : ∀ t, (s.pc t).upping x = true → s.held t x = false

section Owner

variable {x : Sem} {s u : Sys n} {p : Pc n}

variable (h : Owned x s)
include h

theorem Owned.own (hpc : u.pc = update s.pc s.ct p)
    (hsem : u.lib.semaphores x = s.lib.semaphores x) (hheld : ∀ t, t ≠ s.ct → u.held t x = s.held t x)
    (hother : ∀ t, t ≠ s.ct → s.pc t = .downWait x → (u.thread t).blockedOnSemaphore = none →
      (s.thread t).blockedOnSemaphore = none)
    (howner : u.held s.ct x = true ∨ p = .downEnable x ∨
      (p = .downWait x ∧ (u.thread s.ct).blockedOnSemaphore = none) ∨ p.inUp x = true → Owner x s s.ct)
    (hupping : p.upping x = true → u.held s.ct x = false) : Owned x u := by
  have hpself : u.pc s.ct = p := by rw [hpc, update_self]
  have hpother : ∀ t, t ≠ s.ct → u.pc t = s.pc t := fun t ht => by rw [hpc, update_of_ne ht]
  have howners : ∀ t, Owner x u t → Owner x s t := fun t ht => by
    rcases eq_or_ne t s.ct with rfl | hne
    · unfold Owner at ht
      rw [hpself] at ht
      exact howner ht
    · unfold Owner at ht ⊢
      rw [hheld t hne, hpother t hne] at ht
      rcases ht with ht | ht | ⟨ht, hb⟩ | ht
      · exact .inl ht
      · exact .inr (.inl ht)
      · exact .inr (.inr (.inl ⟨ht, hother t hne ht hb⟩))
      · exact .inr (.inr (.inr ht))
  refine ⟨fun t r ht hr => h.unique t r (howners t ht) (howners r hr), fun t ht => ?_, fun t ht => ?_⟩
  · rw [hsem]
    exact h.closed t (howners t ht)
  · rcases eq_or_ne t s.ct with rfl | hne
    · exact hupping (hpself ▸ ht)
    · rw [hheld t hne]
      exact h.upping t (hpother t hne ▸ ht)

theorem Owned.elsewhere (hpc : u.pc = update s.pc s.ct p) (hp : p.claims x = false)
    (hsem : u.lib.semaphores x = s.lib.semaphores x) (hheld : ∀ t, u.held t x = s.held t x)
    (hblocked : ∀ t, (u.thread t).blockedOnSemaphore = (s.thread t).blockedOnSemaphore) : Owned x u := by
  have hne : ∀ q : Pc n, q.claims x = true → p ≠ q := by
    rintro q hq rfl
    rw [hp] at hq
    cases hq
  refine h.own hpc hsem (fun t _ => hheld t) (fun t _ _ hb => hblocked t ▸ hb) ?_
    (fun ht => absurd rfl (hne p (Pc.claims_of_upping ht)))
  rintro (ht | ht | ⟨ht, -⟩ | ht)
  · exact .inl (hheld _ ▸ ht)
  · exact absurd ht (hne _ (by simp [Pc.claims]))
  · exact absurd ht (hne _ (by simp [Pc.claims]))
  · exact absurd rfl (hne p (Pc.claims_of_inUp ht))

theorem Owned.up (hpc : u.pc = update s.pc s.ct p)
    (hin : p.inUp x = true → (s.pc s.ct).inUp x = true) (hup : p.upping x = true → (s.pc s.ct).upping x = true)
    (hclaims : p.claims x = p.upping x) (hsem : u.lib.semaphores x = s.lib.semaphores x) (hheld : u.held = s.held)
    (hblocked : ∀ t, (u.thread t).blockedOnSemaphore = (s.thread t).blockedOnSemaphore) : Owned x u := by
  cases hx : p.upping x with
  | false => exact h.elsewhere hpc (hclaims.trans hx) hsem (fun t => by rw [hheld]) hblocked
  | true =>
    refine h.own hpc hsem (fun t _ => by rw [hheld]) (fun t _ _ hb => hblocked t ▸ hb) ?_
      (fun _ => by rw [hheld]; exact h.upping _ (hup hx))
    rintro (ht | rfl | ⟨rfl, -⟩ | ht)
    · exact .inl (hheld ▸ ht)
    · cases hx
    · cases hx
    · exact .inr (.inr (.inr (hin ht)))

theorem Owned.congr (hpc : u.pc = s.pc) (hsem : u.lib.semaphores x = s.lib.semaphores x)
    (hheld : u.held = s.held) (hblocked : ∀ t, (u.thread t).blockedOnSemaphore = (s.thread t).blockedOnSemaphore) :
    Owned x u := by
  have howner : ∀ t, Owner x u t ↔ Owner x s t := fun t => by
    unfold Owner
    rw [hheld, hpc, hblocked]
  obtain ⟨h1, h2, h3⟩ := h
  refine ⟨?_, ?_, ?_⟩ <;> simpa only [howner, hsem, hpc, hheld]

theorem Owned.change {v : Int} (hpc : u.pc = update s.pc s.ct p) (hheld : u.held = s.held)
    (hsem : u.lib.semaphores x = v) (hunique : ∀ t r, Owner x u t → Owner x u r → t = r)
    (hclosed : ∀ t, Owner x u t → v = 0) (hupping : p.upping x = true → (s.pc s.ct).upping x = true) : Owned x u := by
  refine ⟨hunique, hsem ▸ hclosed, fun t ht => ?_⟩
  rw [hheld]
  rcases eq_or_ne t s.ct with rfl | hne
  · rw [hpc, update_self] at ht
    exact h.upping _ (hupping ht)
  · rw [hpc, update_of_ne hne] at ht
    exact h.upping t ht

theorem Owned.taken (hone : s.lib.semaphores x = 1) :
    Owned x ((s.goto (.downEnable x)).setSem x 0) := by
  have howner : ∀ t, Owner x ((s.goto (.downEnable x)).setSem x 0) t → t = s.ct := fun t ht => by
    by_contra hne
    unfold Owner at ht
    rw [show ((s.goto (.downEnable x)).setSem x 0).pc t = s.pc t from Sys.goto_pc_ne hne _] at ht
    rw [h.closed t ht] at hone
    cases hone
  exact h.change rfl rfl (setSem_self _ _ _) (fun t r ht hr => (howner t ht).trans (howner r hr).symm)
    (fun _ _ => rfl) nofun

theorem Owned.opened (hpc : s.pc s.ct = .upOpen x) :
    Owned x ((s.goto (.upEnable x)).setSem x 1) := by
  have hself : Owner x s s.ct := .inr (.inr (.inr (by simp [hpc, Pc.inUp])))
  have hheld : s.held s.ct x = false := h.upping _ (by simp [hpc, Pc.upping])
  have howner : ∀ t, ¬ Owner x ((s.goto (.upEnable x)).setSem x 1) t := fun t ht => by
    unfold Owner at ht
    rcases eq_or_ne t s.ct with rfl | hne
    · rw [show ((s.goto (.upEnable x)).setSem x 1).pc s.ct = _ from Sys.goto_pc_self _ _,
        show ((s.goto (.upEnable x)).setSem x 1).held = s.held from rfl, hheld] at ht
      simp [Pc.inUp] at ht
    · rw [show ((s.goto (.upEnable x)).setSem x 1).pc t = s.pc t from Sys.goto_pc_ne hne _] at ht
      exact hne (h.unique t s.ct ht hself)
  exact h.change rfl rfl (setSem_self _ _ _) (fun t _ ht => absurd ht (howner t))
    (fun t ht => absurd ht (howner t)) (fun _ => by simp [hpc, Pc.upping])

theorem Owned.granted {i : Fin n} (hpc : s.pc s.ct = .upClear x i) :
    Owned x ((s.goto (.upReady x i)).setThread i { s.thread i with blockedOnSemaphore := none }) := by
  have hself : Owner x s s.ct := .inr (.inr (.inr (by simp [hpc, Pc.inUp])))
  have hheld : s.held s.ct x = false := h.upping _ (by simp [hpc, Pc.upping])
  have howner : ∀ t, Owner x ((s.goto (.upReady x i)).setThread i { s.thread i with blockedOnSemaphore := none }) t →
      t = i := fun t ht => by
    by_contra hti
    unfold Owner at ht
    rcases eq_or_ne t s.ct with rfl | hne
    · rw [show ((s.goto (.upReady x i)).setThread i _).pc s.ct = _ from Sys.goto_pc_self _ _,
        show ((s.goto (.upReady x i)).setThread i _).held = s.held from rfl, hheld] at ht
      simp [Pc.inUp] at ht
    · rw [show ((s.goto (.upReady x i)).setThread i _).pc t = s.pc t from Sys.goto_pc_ne hne _,
        Sys.setThread_thread_ne hti, Sys.goto_thread] at ht
      exact hne (h.unique t s.ct ht hself)
  exact h.change rfl rfl (h.closed _ hself) (fun t r ht hr => (howner t ht).trans (howner r hr).symm)
    (fun _ _ => rfl) (fun _ => by simp [hpc, Pc.upping])

end Owner

/-! ## `bsem_up` from end to end -/

def Up.Released (r : Up n) : Prop :=
  r.after = bsemUp r.sem r.before ∧
  ((∃ i, (r.before.threadTable i).state = .blocked ∧ (r.before.threadTable i).blockedOnSemaphore = some r.sem ∧
      r.before.semaphores r.sem = 0 ∧ r.after = r.before.release i) ∨
    (∀ i, (r.before.threadTable i).blockedOnSemaphore ≠ some r.sem) ∧ r.after = r.before.setSem r.sem 1)

def Settled (x : Sem) (l : Lib n) : Prop :=
  l.semaphores x ≠ -1 ∧
  ∀ i, (l.threadTable i).blockedOnSemaphore = some x → (l.threadTable i).state = .blocked ∧ l.semaphores x = 0

def Releasing (x : Sem) (lib seen : Lib n) : Pc n → Prop
  | .upScan y j => y = x → lib = seen ∧ Settled x seen ∧
    ∀ i : Fin n, i.val < j → (seen.threadTable i).blockedOnSemaphore ≠ some x
  | .upClear y i => y = x → lib = seen ∧ Settled x seen ∧ firstBlocked x seen = some i
  | .upReady y i => y = x → Settled x seen ∧ firstBlocked x seen = some i ∧
    lib = seen.setThread i { seen.threadTable i with blockedOnSemaphore := none }
  | .upOpen y => y = x → lib = seen ∧ Settled x seen ∧ ∀ i, (seen.threadTable i).blockedOnSemaphore ≠ some x
  | .upEnable y => y = x → Up.Released ⟨x, seen, lib⟩
  | _ => True

structure Safe (x : Sem) (s : Sys n) : Prop where
  coherent : Coherent s
  running : Running s
  valued : Valued x s
  releasing : Releasing x s.lib s.seen (s.pc s.ct)
  ups : ∀ r ∈ s.ups, r.sem = x → r.Released

variable {x : Sem} {s u : Sys n} {i : Fin n}

theorem Settled.released_some {l : Lib n} (h : Settled x l) (hi : firstBlocked x l = some i) :
    Up.Released ⟨x, l, l.release i⟩ := by
  have hb := firstBlocked_some hi
  obtain ⟨hstate, hzero⟩ := h.2 i hb
  refine ⟨?_, .inl ⟨i, hstate, hb, hzero, rfl⟩⟩
  simp [bsemUp, hzero, hi]

theorem Settled.released_none {l : Lib n} (h : Settled x l)
    (hnone : ∀ i, (l.threadTable i).blockedOnSemaphore ≠ some x) : Up.Released ⟨x, l, l.setSem x 1⟩ := by
  refine ⟨?_, .inr ⟨hnone, rfl⟩⟩
  simp [bsemUp, h.1, firstBlocked_eq_none hnone]

theorem Safe.settled (h : Safe x s) (hpc : s.pc s.ct = .upDisable x) : Settled x s.lib := by
  refine ⟨?_, fun i hi => ⟨?_, h.valued.waits i hi⟩⟩
  · rcases h.valued.range with h0 | h0 <;> rw [h0] <;> decide
  · have hne : i ≠ s.ct := by
      rintro rfl
      have hdown := (h.coherent.fits s.ct).down x hi
      rw [hpc] at hdown
      exact absurd hdown (not_inDown rfl)
    exact (h.coherent.parked hi hne).2

theorem releasing_of_not_upping {lib seen : Lib n} {p : Pc n} (h : p.upping x = false) : Releasing x lib seen p := by
  cases p <;> simp_all [Pc.upping, Releasing, eq_comm]

theorem releasing_of_not_critical {lib seen : Lib n} {p : Pc n} (h : p.critical = false) : Releasing x lib seen p := by
  cases p <;> trivial

/-! ## Statements -/

theorem setThread_blockedOn {z : Thread} (h : z.blockedOnSemaphore = (s.thread i).blockedOnSemaphore) (t : Fin n) :
    ((s.setThread i z).thread t).blockedOnSemaphore = (s.thread t).blockedOnSemaphore := by
  rcases eq_or_ne t i with rfl | hne
  · rw [Sys.setThread_thread_self, h]
  · rw [Sys.setThread_thread_ne hne]

theorem deliver_blockedOn (t : Fin n) :
    ((deliver s).thread t).blockedOnSemaphore = (s.thread t).blockedOnSemaphore :=
  (deliver_shifted t).blockedOnSemaphore

theorem sigsend_blockedOn (p : Pc n) (t : Fin n) :
    ((sigsend (s.goto p)).thread t).blockedOnSemaphore = (s.thread t).blockedOnSemaphore :=
  deliver_blockedOn t

theorem returnDown_held_ne {y : Sem} (h : x ≠ y) (t : Fin n) : (s.returnDown y).held t x = s.held t x := by
  unfold Sys.returnDown
  rcases eq_or_ne t s.ct with rfl | hne
  · simp only [update_self, update_of_ne h]
  · simp only [update_of_ne hne]

theorem returnDown_held_other (y : Sem) {t : Fin n} (h : t ≠ s.ct) : (s.returnDown y).held t x = s.held t x := by
  simp only [Sys.returnDown, update_of_ne h]

theorem Safe.exec_valued (h : Safe x s) (hu : exec s = some u) : Valued x u := by
  have hv := h.valued
  have hblocked : (∀ y, s.pc s.ct ≠ .downMark y) → ∀ t, (u.thread t).blockedOnSemaphore = some x →
      (s.thread t).blockedOnSemaphore = some x ∨ s.lib.semaphores x = 0 := fun hne t ht =>
    (exec_blockedOn hu ht).imp_right fun hpc => absurd hpc (hne x)
  have helse {p : Pc n} (hpc : u.pc = update s.pc s.ct p) (hp : p.reads x = false)
      (hsem : u.lib.semaphores x = s.lib.semaphores x) (hne : ∀ y, s.pc s.ct ≠ .downMark y) : Valued x u := by
    have hnot : ∀ q : Pc n, q.reads x = true → p ≠ q := by
      rintro q hq rfl
      rw [hp] at hq
      cases hq
    exact hv.own hpc hsem (hblocked hne) (absurd · (hnot _ (by simp [Pc.reads])))
      (absurd · (hnot _ (by simp [Pc.reads]))) (hnot _ (by simp [Pc.reads]))
  cases exec_executes hu with
  | look hpc hlook =>
    rw [hpc] at hblocked helse
    cases hlook with
    | downClosed h0 =>
      refine hv.own rfl rfl (hblocked nofun) ?_ nofun nofun
      rintro ⟨⟩
      exact h0
    | downOpen h0 =>
      refine hv.own rfl rfl (hblocked nofun) nofun ?_ nofun
      rintro ⟨⟩
      exact hv.range.resolve_left h0
    | @allocFound j hlt hfree =>
      refine helse rfl ?_ rfl nofun
      have hne : x ≠ ⟨j, hlt⟩ := by
        rintro rfl
        rcases hv.range with h0 | h0 <;> rw [h0] at hfree <;> cases hfree
      simpa [Pc.reads] using hne
    | _ => exact helse rfl rfl rfl nofun
  | write hpc hwrite =>
    rw [hpc] at helse
    cases hwrite with
    | @downMark y =>
      refine hv.own rfl rfl (fun t ht => (exec_blockedOn hu ht).imp_right fun hx => ?_) nofun nofun nofun
      exact hv.mark _ hx
    | _ => exact helse rfl rfl rfl nofun
  | wake hpc hwake =>
    rw [hpc] at helse
    cases hwake <;> exact helse rfl rfl rfl nofun
  | @set q p y v hpc hset =>
    rw [hpc] at helse
    by_cases hy : y = x
    · subst hy
      cases hset with
      | downTake => exact hv.change h.coherent rfl (setSem_self _ _ _) (.inl rfl) (fun _ _ => rfl) rfl
      | upOpen =>
        have hrel := h.releasing
        rw [hpc] at hrel
        obtain ⟨hlib, -, hnone⟩ := hrel rfl
        refine hv.change h.coherent rfl (setSem_self _ _ _) (.inr rfl) (fun t ht => absurd ht ?_) rfl
        change (s.lib.threadTable t).blockedOnSemaphore ≠ some y
        rw [hlib]
        exact hnone t
      | allocTake => exact absurd hpc (hv.alloc _)
    · cases hset <;> exact helse rfl rfl (setSem_ne (Ne.symm hy)) nofun
  | yield hpc hyield =>
    rw [hpc] at helse
    cases hyield <;> exact helse rfl rfl rfl nofun
  | freed hpc | granted hpc | downEnable hpc | upEnable hpc | downDisable hpc | upDisable hpc =>
    exact helse rfl rfl rfl (by rw [hpc]; nofun)
  | exit => exact hv.congr rfl rfl fun _ => rfl

theorem Owned.returned (h : Owned x s) {y : Sem} (hself : y = x → Owner x s s.ct) : Owned x (s.returnDown y) := by
  by_cases hy : y = x
  · subst hy
    exact h.own (u := s.returnDown y) rfl rfl (fun t ht => returnDown_held_other y ht) (fun _ _ _ => id)
      (fun _ => hself rfl) nofun
  · exact h.elsewhere rfl rfl rfl (returnDown_held_ne (Ne.symm hy)) fun _ => rfl

theorem Owned.exec (ho : Owned x s) (h : Safe x s) (hsched : s.sched = none) (hu : exec s = some u) : Owned x u := by
  have hc := h.coherent
  have hrange := h.valued.range
  have hfits := hc.fits s.ct
  cases exec_executes hu with
  | look hpc hlook =>
    cases hlook with
    | upTest | upFound | upNext | upNone =>
      exact ho.up rfl (by simp [hpc, Pc.inUp]) (by simp [hpc, Pc.upping]) rfl rfl rfl fun _ => rfl
    | _ => exact ho.elsewhere rfl rfl rfl (fun _ => rfl) fun _ => rfl
  | write hpc hwrite =>
    cases hwrite with
    | downMark =>
      refine ho.own rfl rfl (fun _ _ => rfl) (fun t ht _ hb => ?_) ?_ nofun
      · rwa [Sys.setThread_thread_ne ht] at hb
      · rintro (hh | hh | ⟨hh, -⟩ | hh)
        · exact .inl hh
        all_goals cases hh
    | _ => exact ho.elsewhere rfl rfl rfl (fun _ => rfl) (setThread_blockedOn (s := s) rfl)
  | @wake q p i z hpc hwake =>
    cases hwake with
    | @upClear y =>
      by_cases hy : y = x
      · subst hy
        exact ho.granted hpc
      · have hwait := (hc.parked (hc.releasing hpc) (hc.upClear_ne hpc)).1
        refine ho.own rfl rfl (fun _ _ => rfl) (fun t _ hp hb => ?_) ?_ (by simp [Pc.upping, Ne.symm hy])
        · rcases eq_or_ne t i with rfl | hti
          · rw [hwait] at hp
            cases hp
            exact absurd rfl hy
          · rwa [Sys.setThread_thread_ne hti] at hb
        · rintro (hh | hh | ⟨hh, -⟩ | hh)
          · exact .inl hh
          all_goals cases hh
    | upReady => exact ho.up rfl nofun (by simp [hpc, Pc.upping]) rfl rfl rfl (setThread_blockedOn (s := s) rfl)
    | exitClear | exitReady => exact ho.elsewhere rfl rfl rfl (fun _ => rfl) (setThread_blockedOn (s := s) rfl)
  | @set q p y v hpc hset =>
    by_cases hy : y = x
    · subst hy
      cases hset with
      | downTake => exact ho.taken (h.valued.take _ hpc)
      | upOpen => exact ho.opened hpc
      | allocTake => exact absurd hpc (h.valued.alloc _)
    · refine ho.elsewhere rfl ?_ (setSem_ne (Ne.symm hy)) (fun _ => rfl) fun _ => rfl
      cases hset <;> simp [Pc.claims, Pc.upping, Ne.symm hy]
  | yield hpc hyield =>
    rw [hpc] at hfits
    cases hyield with
    | @down y =>
      refine ho.own rfl rfl (fun _ _ => rfl) (fun t _ _ hb => sigsend_blockedOn _ t ▸ hb) ?_ nofun
      rw [sigsend_blockedOn]
      rintro (hh | hh | ⟨-, hh⟩ | hh)
      · exact .inl hh
      · cases hh
      · -- it is still waiting
        cases (hfits.marked y (.inr rfl)).symm.trans hh
      · cases hh
    | sleep | join | exit => exact ho.elsewhere rfl rfl rfl (fun _ => rfl) (sigsend_blockedOn _)
  | freed hpc hfree =>
    refine ho.returned ?_
    rintro rfl
    rcases hrange with h0 | h0 <;> rw [h0] at hfree <;> cases hfree
  | granted hpc =>
    refine ho.returned ?_
    rintro rfl
    exact .inr (.inr (.inl ⟨hpc, (hc.settled h.running hsched (by rw [hpc]; rfl)).2.2.2⟩))
  | @downEnable y hpc =>
    refine (ho.returned (y := y) ?_).congr rfl rfl rfl fun _ => rfl
    rintro rfl
    exact .inr (.inl hpc)
  | upDisable hpc => exact ho.up rfl (by simp [hpc, Pc.inUp]) (by simp [hpc, Pc.upping]) rfl rfl rfl fun _ => rfl
  | downDisable | upEnable => exact ho.elsewhere rfl rfl rfl (fun _ => rfl) fun _ => rfl
  | exit => exact ho.congr rfl rfl rfl fun _ => rfl

theorem Safe.exec_releasing (h : Safe x s) (hu : exec s = some u) : Releasing x u.lib u.seen (u.pc u.ct) := by
  have hrel := h.releasing
  have hself {p : Pc n} (hpc : u.pc = update s.pc s.ct p) : u.pc u.ct = p := by
    rw [(exec_steady hu).ct, hpc, update_self]
  have hout {p : Pc n} (hpc : u.pc = update s.pc s.ct p) (hp : p.upping x = false) :
      Releasing x u.lib u.seen (u.pc u.ct) := by
    rw [hself hpc]
    exact releasing_of_not_upping hp
  cases exec_executes hu with
  | look hpc hlook =>
    rw [hpc] at hrel
    cases hlook with
    | upFound hi hfound =>
      rw [hself rfl]
      rintro rfl
      obtain ⟨hlib, hsettled, hbefore⟩ := hrel rfl
      refine ⟨hlib, hsettled, firstBlocked_eq ?_ hbefore⟩
      rwa [Sys.thread, hlib] at hfound
    | upNext hi hne =>
      rw [hself rfl]
      rintro rfl
      obtain ⟨hlib, hsettled, hbefore⟩ := hrel rfl
      refine ⟨hlib, hsettled, fun i hi => ?_⟩
      rcases Nat.lt_succ_iff_lt_or_eq.mp hi with hi | rfl
      · exact hbefore i hi
      · rwa [Sys.thread, hlib] at hne
    | upNone hge =>
      rw [hself rfl]
      rintro rfl
      obtain ⟨hlib, hsettled, hbefore⟩ := hrel rfl
      exact ⟨hlib, hsettled, fun i => hbefore i (i.isLt.trans_le (not_lt.mp hge))⟩
    | upTest =>
      rw [hself rfl]
      trivial
    | _ => exact hout rfl rfl
  | write hpc hwrite => cases hwrite <;> exact hout rfl rfl
  | @wake q p i z hpc hwake =>
    rw [hpc] at hrel
    cases hwake with
    | upClear =>
      rw [hself rfl]
      rintro rfl
      obtain ⟨hlib, hsettled, hfirst⟩ := hrel rfl
      refine ⟨hsettled, hfirst, ?_⟩
      change s.lib.setThread i _ = _
      rw [Sys.thread, hlib]
      rfl
    | upReady =>
      rw [hself rfl]
      rintro rfl
      obtain ⟨hsettled, hfirst, hlib⟩ := hrel rfl
      have hafter : s.lib.setThread i { s.thread i with state := .ready } = s.seen.release i := by
        rw [Sys.thread, hlib, setThread_self]
        simp [Lib.setThread, Lib.release]
      change Up.Released ⟨_, s.seen, s.lib.setThread i _⟩
      rw [hafter]
      exact hsettled.released_some hfirst
    | exitClear | exitReady => exact hout rfl rfl
  | set hpc hset =>
    rw [hpc] at hrel
    cases hset with
    | @upOpen y =>
      rw [hself rfl]
      rintro rfl
      obtain ⟨hlib, hsettled, hnone⟩ := hrel rfl
      change Up.Released ⟨_, s.seen, s.lib.setSem _ 1⟩
      rw [hlib]
      exact hsettled.released_none hnone
    | downTake | allocTake => exact hout rfl rfl
  | yield hpc hyield => cases hyield <;> exact hout rfl rfl
  | upDisable hpc =>
    rw [hself rfl]
    rintro rfl
    exact ⟨rfl, h.settled hpc, fun i hi => absurd hi (Nat.not_lt_zero _)⟩
  | freed | granted | downEnable | upEnable | downDisable => exact hout rfl rfl
  | exit hpc => exact releasing_of_not_upping (by rw [hpc]; rfl)

theorem Safe.exec_ups (h : Safe x s) (hu : exec s = some u) : ∀ r ∈ u.ups, r.sem = x → r.Released := by
  cases exec_executes hu with
  | upEnable hpc =>
    have hrel := h.releasing
    rw [hpc] at hrel
    intro r hr hx
    rcases List.mem_append.mp hr with hr | hr
    · exact h.ups r hr hx
    · cases List.mem_singleton.mp hr
      subst hx
      exact hrel rfl
  | _ => exact h.ups

/-! ## Steps -/

/-- `bsem_up(x)` is called by a thread that has returned from `bsem_down(x)` since its last one. -/
def Disciplined (x : Sem) (s : Sys n) (a : Act) : Prop := a = .call (.up x) → s.held s.ct x = true

theorem Owned.call (h : Owned x s) {c : Call} (hok : Disciplined x s (.call c)) : Owned x (call s c) := by
  cases c with
  | up y =>
    have hne : ∀ t, t ≠ s.ct → (Uthread.call s (.up y)).held t x = s.held t x := fun t ht => by
      simp only [Uthread.call, update_of_ne ht]
    by_cases hy : y = x
    · subst hy
      have hself : (Uthread.call s (.up y)).held s.ct y = false := by simp [Uthread.call]
      exact h.own (u := Uthread.call s (.up y)) rfl rfl hne (fun _ _ _ => id) (fun _ => .inl (hok rfl)) (fun _ => hself)
    · refine h.elsewhere rfl (by simp [Pc.claims, Pc.upping, Ne.symm hy]) rfl (fun t => ?_) fun _ => rfl
      rcases eq_or_ne t s.ct with rfl | ht
      · simp only [Uthread.call, update_self, update_of_ne (Ne.symm hy)]
      · exact hne t ht
  | _ => exact h.elsewhere rfl rfl rfl (fun _ => rfl) fun _ => rfl

theorem step_safe {a : Act} (h : Safe x s) (hu : step s a = some u) : Safe x u := by
  obtain ⟨hc, hr⟩ := step_coherent ⟨h.coherent, h.running⟩ hu
  cases step_moves hu with
  | tick => exact ⟨hc, hr, h.valued.congr rfl rfl fun _ => rfl, h.releasing, h.ups⟩
  | leave => exact ⟨hc, hr, h.valued.congr rfl rfl fun _ => rfl, h.releasing, h.ups⟩
  | @scan k hsched =>
    have hf := chooseNextThread_rescheduled (s := s) k
    refine ⟨hc, hr, h.valued.congr hf.pc (congrFun hf.semaphores x)
      (fun t => (hf.shifted t).blockedOnSemaphore), ?_, hf.ups ▸ h.ups⟩
    rw [hf.pc]
    exact releasing_of_not_critical (h.coherent.no_critical (.inl (by rw [hsched]; nofun)) _)
  | preempt hsched hpending =>
    refine ⟨hc, hr, h.valued.congr rfl rfl deliver_blockedOn, ?_, h.ups⟩
    exact releasing_of_not_critical (h.coherent.no_critical (.inr hpending) _)
  | @call c hsched hpc =>
    have hself : ∀ p, (s.goto p).pc s.ct = p := Sys.goto_pc_self s
    refine ⟨hc, hr, ?_, ?_, ?_⟩
    · cases c <;> exact h.valued.elsewhere rfl rfl rfl fun _ => rfl
    · cases c <;> exact releasing_of_not_critical (congrArg Pc.critical (hself _))
    · cases c <;> exact h.ups
  | exec hsched hu => exact ⟨hc, hr, h.exec_valued hu, h.exec_releasing hu, h.exec_ups hu⟩

theorem step_owned {a : Act} (h : Safe x s ∧ Owned x s) (hok : Disciplined x s a) (hu : step s a = some u) :
    Safe x u ∧ Owned x u := by
  obtain ⟨hs, ho⟩ := h
  refine ⟨step_safe hs hu, ?_⟩
  cases step_moves hu with
  | tick => exact ho.congr rfl rfl rfl fun _ => rfl
  | leave => exact ho.congr rfl rfl rfl fun _ => rfl
  | @scan k hsched =>
    have hf := chooseNextThread_rescheduled (s := s) k
    exact ho.congr hf.pc (congrFun hf.semaphores x) hf.held fun t => (hf.shifted t).blockedOnSemaphore
  | preempt hsched hpending => exact ho.congr rfl rfl rfl deliver_blockedOn
  | call hsched hpc => exact ho.call hok
  | exec hsched hu => exact ho.exec hs hsched hu

/-! ## Runs -/

theorem Started.safe (h : Started s) (hx : s.lib.semaphores x = 1) : Safe x s ∧ Owned x s := by
  have howner : ∀ t, ¬ Owner x s t := fun t ht => by
    unfold Owner at ht
    rw [h.held, h.idle] at ht
    simp [Pc.inUp] at ht
  obtain ⟨hc, hrun⟩ := h.coherent
  refine ⟨⟨hc, hrun, ⟨.inr hx, fun t ht => ?_, fun t ht => ?_, fun t ht => ?_, fun t => ?_⟩, ?_, ?_⟩,
    ⟨fun t _ ht => absurd ht (howner t), fun t ht => absurd ht (howner t), fun t ht => h.held t x⟩⟩
  · rw [(h.free t).2] at ht
    cases ht
  · exact absurd ht (h.not_at nofun)
  · exact absurd ht (h.not_at nofun)
  · exact h.not_at nofun
  · rw [h.idle]
    trivial
  · rw [h.ups]
    exact fun r hr => absurd hr List.not_mem_nil

/-- Between `bsem_down(x)` and where `bsem_up(x)` releases the semaphore. -/
def Sys.Inside (s : Sys n) (x : Sem) (t : Fin n) : Prop := s.held t x = true ∨ (s.pc t).inUp x = true

/-- A semaphore is 0 or 1, it is 0 while a thread waits for it, and `bsem_up` passes it on or opens it. It excludes
when only its holder releases it. -/
theorem bsem_mutual_exclusion {as : List Act} (hs : Started s) (hx : s.lib.semaphores x = 1)
    (h : run step s as = some u) :
    (Along step (Disciplined x) s as → ∀ t r, u.Inside x t → u.Inside x r → t = r) ∧
    (u.lib.semaphores x = 0 ∨ u.lib.semaphores x = 1) ∧
    (u.lib.semaphores x = 1 → ∀ t, (u.thread t).blockedOnSemaphore ≠ some x) ∧
    ∀ r ∈ u.ups, r.sem = x → r.Released := by
  have hsafe : Safe x u := run_invariant (fun _ _ _ hv hw => step_safe hv hw) (hs.safe hx).1 h
  refine ⟨fun hok t r ht hr => ?_, hsafe.valued.range, fun hone t ht => ?_, hsafe.ups⟩
  · have howned : Safe x u ∧ Owned x u :=
      run_along (Disciplined x) (fun _ _ _ hv ha hw => step_owned hv ha hw) (hs.safe hx) hok h
    have howner : ∀ t, u.Inside x t → Owner x u t := fun t ht => ht.imp_right fun hp => .inr (.inr hp)
    exact howned.2.unique t r (howner t ht) (howner r hr)
  · rw [hsafe.valued.waits t ht] at hone
    cases hone

instance : DecidablePred fun a : Act => Disciplined x s a := fun a =>
  inferInstanceAs (Decidable (a = .call (.up x) → s.held s.ct x = true))

def twoThreads : Sys 2 where
  lib := ⟨fun t => ⟨t, if t = 0 then .running else .ready, 0, none, none⟩, fun _ => 1⟩
  ct := 0
  pc := fun _ => .idle
  sched := none
  handlers := fun _ => 0
  pending := true
  alarmEnd := 5
  ticks := 0
  exited := false
  held := fun _ _ => false
  seen := ⟨fun t => ⟨t, .ready, 0, none, none⟩, fun _ => 1⟩
  ups := []

def handOff : List Act :=
  [Act.call (.down 0)] ++ List.replicate 5 Act.stmt ++ List.replicate 5 Act.tick ++
  [Act.preempt, .scan, .stmt, .call (.down 0)] ++ List.replicate 6 Act.stmt ++ [Act.scan, .stmt, .call (.up 0)] ++
  List.replicate 7 Act.stmt ++ List.replicate 5 Act.tick ++ [Act.preempt, .scan, .stmt, .stmt]

theorem handOff_excludes :
    ∃ u, run step twoThreads handOff = some u ∧ u.held 1 0 = true ∧ u.ups.length = 1 ∧
      (∀ t r, u.Inside 0 t → u.Inside 0 r → t = r) ∧ ∀ r ∈ u.ups, r.sem = 0 → r.Released := by
  have hrun : (run step twoThreads handOff).map (fun u => (u.held 1 0, u.ups.length)) = some (true, 1) := by
    decide +kernel
  obtain ⟨u, hu, hend⟩ := Option.map_eq_some_iff.mp hrun
  obtain ⟨hheld, hups⟩ := Prod.mk.injEq .. ▸ hend
  have hstarted : Started twoThreads :=
    ⟨fun _ => rfl, fun _ => ⟨rfl, rfl⟩, by decide, rfl, fun _ _ => rfl, rfl⟩
  have h := bsem_mutual_exclusion hstarted (x := 0) rfl hu
  exact ⟨u, hu, hheld, hups, h.1 (by decide +kernel), h.2.2.2⟩

end Xv6.Uthread
