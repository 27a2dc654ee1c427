import Xv6.Uthread.Statements

/-!
# The thread table under preemption

`alarm(0)` clears the pending bit, so nothing runs in between until `alarm(UTHREAD_QUANTA)`.
-/

open Function

namespace Xv6.Uthread

variable {n : Nat}

/-! ## Places in the code -/

namespace Pc

def critical : Pc n → Bool
  | downLook _ | downMark _ | downBlock _ | downYield _ | downTake _ | downEnable _ => true
  | upScan _ _ | upClear _ _ | upReady _ _ | upOpen _ | upEnable _ => true
  | _ => false

def yields : Pc n → Bool
  | downYield _ | sleepYield | joinYield | exitYield => true
  | _ => false

def active : Pc n → Bool
  | idle | exitYield | exitWait => false
  | _ => true

def plain : Pc n → Bool
  | downBlock _ | downYield _ | downWait _ | joinBlock | joinYield | joinWait => false
  | upClear _ _ | upReady _ _ | exitClear _ | exitReady _ => false
  | _ => true

def joins : Pc n → Bool
  | joinBlock | joinYield | joinWait => true
  | _ => false

def downs : Pc n → Bool
  | downBlock _ | downYield _ | downWait _ => true
  | _ => false

def settled : Pc n → Bool
  | downBlock _ | downYield _ | joinBlock | joinYield | sleepYield | exitYield => false
  | _ => true

end Pc

theorem Looks.settled {s : Sys n} {q p : Pc n} (h : Looks s q p) : q.settled = true := by cases h <;> rfl

theorem Looks.critical {s : Sys n} {q p : Pc n} (h : Looks s q p) (hp : p.critical = true) : q.critical = true := by
  cases h <;> first | rfl | cases hp

def InJoin (p : Pc n) (state : ThreadState) : Prop :=
  p = .joinBlock ∨ (p = .joinYield ∨ p = .joinWait) ∧ state = .blocked

def InDown (x : Sem) (p : Pc n) (state : ThreadState) : Prop :=
  p = .downBlock x ∨ (p = .downYield x ∨ p = .downWait x) ∧ state = .blocked

structure Fits (p : Pc n) (x : Thread) : Prop where
  join : ∀ tid, x.joinOnTid = some tid → InJoin p x.state
  down : ∀ y, x.blockedOnSemaphore = some y → InDown y p x.state
  marked : ∀ y, p = .downBlock y ∨ p = .downYield y → x.blockedOnSemaphore = some y
  alive : p.active = true → x.state ≠ .terminated

theorem Fits.free {p : Pc n} {x : Thread} (h : Fits p x) (hjoin : ¬ InJoin p x.state)
    (hdown : ∀ y, ¬ InDown y p x.state) : x.joinOnTid = none ∧ x.blockedOnSemaphore = none := by
  refine ⟨Option.eq_none_iff_forall_not_mem.mpr fun tid ht => hjoin (h.join tid ht),
    Option.eq_none_iff_forall_not_mem.mpr fun y hy => hdown y (h.down y hy)⟩

theorem Fits.of_free {p : Pc n} {x : Thread} (hfree : x.joinOnTid = none ∧ x.blockedOnSemaphore = none)
    (hblock : ∀ y, p ≠ .downBlock y) (hyield : ∀ y, p ≠ .downYield y)
    (halive : p.active = true → x.state ≠ .terminated) : Fits p x := by
  refine ⟨fun tid ht => ?_, fun y hy => ?_, fun y hy => ?_, halive⟩
  · rw [hfree.1] at ht
    cases ht
  · rw [hfree.2] at hy
    cases hy
  · rcases hy with hy | hy
    · exact absurd hy (hblock y)
    · exact absurd hy (hyield y)

theorem Fits.shift {p : Pc n} {x y : Thread} (h : Fits p x) (hs : Shifted x y) : Fits p y := by
  refine ⟨fun tid ht => ?_, fun z hz => ?_, fun z hz => hs.blockedOnSemaphore.trans (h.marked z hz),
    fun ha => mt hs.terminated_iff.mp (h.alive ha)⟩
  · exact (h.join tid (hs.joinOnTid ▸ ht)).imp_right fun hb => ⟨hb.1, hs.blocked_iff.mpr hb.2⟩
  · exact (h.down z (hs.blockedOnSemaphore ▸ hz)).imp_right fun hb => ⟨hb.1, hs.blocked_iff.mpr hb.2⟩

theorem not_inJoin {p : Pc n} {state : ThreadState} (h : p.joins = false) : ¬ InJoin p state := by
  rintro (rfl | ⟨rfl | rfl, -⟩) <;> cases h

theorem not_inDown {p : Pc n} {state : ThreadState} {x : Sem} (h : p.downs = false) : ¬ InDown x p state := by
  rintro (rfl | ⟨rfl | rfl, -⟩) <;> cases h

/-- What a thread with number `tid` that is about to execute a statement knows of the entry it is releasing. -/
def Sys.Releases (s : Sys n) (tid : Nat) : Pc n → Prop
  | .exitClear i => (s.thread i).joinOnTid = some tid
  | .exitReady i => (s.thread i).joinOnTid = none ∧ InJoin (s.pc i) (s.thread i).state
  | .upClear x i => (s.thread i).blockedOnSemaphore = some x
  | .upReady x i => (s.thread i).blockedOnSemaphore = none ∧ s.pc i = .downWait x ∧ (s.thread i).state = .blocked
  | _ => True

theorem Sys.releases_of_plain (s : Sys n) (tid : Nat) {p : Pc n} (h : p.plain = true) : s.Releases tid p := by
  cases p <;> trivial

theorem Sys.Releases.keep {s u : Sys n} {tid : Nat} {q : Pc n} (h : s.Releases tid q) (hq : q.critical = false)
    (hclear : ∀ j, q = .exitClear j → (u.thread j).joinOnTid = (s.thread j).joinOnTid)
    (hready : ∀ j, q = .exitReady j → (u.thread j).joinOnTid = none ∧ InJoin (u.pc j) (u.thread j).state) :
    u.Releases tid q := by
  cases q with
  | exitClear j => exact (hclear j rfl).trans h
  | exitReady j => exact hready j rfl
  | upClear | upReady => cases hq
  | _ => trivial

/-- What holds for the whole library, whichever semaphores are used and however. -/
structure Coherent (s : Sys n) : Prop where
  fits : ∀ t, Fits (s.pc t) (s.thread t)
  critical : ∀ t, (s.pc t).critical = true → t = s.ct ∧ s.sched = none ∧ s.pending = false
  tids : ∀ i j, (s.thread i).state ≠ .terminated → (s.thread j).state ≠ .terminated →
    (s.thread i).tid = (s.thread j).tid → i = j
  releases : ∀ e, s.Releases (s.thread e).tid (s.pc e)
  unique : ∀ e f i, s.pc e = .exitReady i → s.pc f = .exitReady i → e = f

theorem Coherent.releasing {s : Sys n} (h : Coherent s) {e : Fin n} {q : Pc n} (he : s.pc e = q) :
    s.Releases (s.thread e).tid q := he ▸ h.releases e

def Running (s : Sys n) : Prop :=
  s.sched = none → s.self.state = .running ∨ (s.pc s.ct).yields = true

section Steps

variable {s u : Sys n} {p : Pc n} {x : Thread} {i : Fin n}

section

variable (h : Coherent s)
include h

/-- The current thread goes to `p`, and the entry `i`, maybe its own, becomes `x`. -/
theorem Coherent.change (hct : u.ct = s.ct) (hpc : u.pc = update s.pc s.ct p)
    (htable : u.lib.threadTable = update s.lib.threadTable i x) (hfits : Fits p (u.thread s.ct))
    (hfits_i : i ≠ s.ct → Fits (s.pc i) x) (hcritical : p.critical = true → u.sched = none ∧ u.pending = false)
    (htid : x.tid = (s.thread i).tid) (halive : x.state ≠ .terminated → (s.thread i).state ≠ .terminated)
    (hp : u.Releases s.self.tid p)
    -- what the exits of the other threads rest on
    (hclears : ∀ e, e ≠ s.ct → s.pc e = .exitClear i → x.joinOnTid = (s.thread i).joinOnTid)
    (hreadys : ∀ e j, e ≠ s.ct → s.pc e = .exitReady j →
      (u.thread j).joinOnTid = none ∧ InJoin (u.pc j) (u.thread j).state ∧ p ≠ .exitReady j) : Coherent u := by
  have hself : u.thread i = x := by rw [Sys.thread, htable, update_self]
  have hother : ∀ t, t ≠ i → u.thread t = s.thread t := fun t ht => by
    rw [Sys.thread, htable, update_of_ne ht, Sys.thread]
  have hpself : u.pc s.ct = p := by rw [hpc, update_self]
  have hpother : ∀ t, t ≠ s.ct → u.pc t = s.pc t := fun t ht => by rw [hpc, update_of_ne ht]
  have htids : ∀ t, (u.thread t).tid = (s.thread t).tid := fun t => by
    rcases eq_or_ne t i with rfl | ht
    · rw [hself, htid]
    · rw [hother t ht]
  have halives : ∀ t, (u.thread t).state ≠ .terminated → (s.thread t).state ≠ .terminated := fun t ht => by
    rcases eq_or_ne t i with rfl | hne
    · exact halive (hself ▸ ht)
    · rwa [hother t hne] at ht
  refine ⟨fun t => ?_, fun t ht => ?_, fun i j hi hj hij => ?_, fun e => ?_, fun e f j he hf => ?_⟩
  · rcases eq_or_ne t s.ct with rfl | hne
    · rwa [hpself]
    · rw [hpother t hne]
      rcases eq_or_ne t i with rfl | hti
      · rw [hself]
        exact hfits_i hne
      · rw [hother t hti]
        exact h.fits t
  · rcases eq_or_ne t s.ct with rfl | hne
    · exact ⟨hct.symm, hcritical (hpself ▸ ht)⟩
    · rw [hpother t hne] at ht
      exact absurd (h.critical t ht).1 hne
  · rw [htids, htids] at hij
    exact h.tids i j (halives i hi) (halives j hj) hij
  · rw [htids]
    rcases eq_or_ne e s.ct with rfl | hne
    · rwa [hpself]
    · rw [hpother e hne]
      refine (h.releases e).keep (Bool.eq_false_iff.mpr fun hc => hne (h.critical e hc).1) (fun j hj => ?_)
        fun j hj => ?_
      · rcases eq_or_ne j i with rfl | hji
        · rw [hself, hclears e hne hj]
        · rw [hother j hji]
      · exact ⟨(hreadys e j hne hj).1, (hreadys e j hne hj).2.1⟩
  · rcases eq_or_ne e s.ct with rfl | hne <;> rcases eq_or_ne f s.ct with rfl | hfne
    · rfl
    · exact absurd (hpself ▸ he) (hreadys f j hfne (hpother f hfne ▸ hf)).2.2
    · exact absurd (hpself ▸ hf) (hreadys e j hne (hpother e hne ▸ he)).2.2
    · exact h.unique e f j (hpother e hne ▸ he) (hpother f hfne ▸ hf)

theorem Coherent.own (hct : u.ct = s.ct) (hpc : u.pc = update s.pc s.ct p)
    (htable : u.lib.threadTable = update s.lib.threadTable s.ct x) (hfits : Fits p x)
    (hcritical : p.critical = true → u.sched = none ∧ u.pending = false) (htid : x.tid = s.self.tid)
    (halive : x.state ≠ .terminated → s.self.state ≠ .terminated)
    (hjoin : InJoin (s.pc s.ct) s.self.state → InJoin p x.state ∧ x.joinOnTid = s.self.joinOnTid)
    (hp : u.Releases s.self.tid p) (hready : ∀ i, p ≠ .exitReady i) : Coherent u := by
  have hself : u.thread s.ct = x := by rw [Sys.thread, htable, update_self]
  refine h.change hct hpc htable (hself ▸ hfits) (absurd rfl) hcritical htid halive hp (fun e _ he => ?_)
    fun e j hne he => ?_
  · exact (hjoin ((h.fits s.ct).join _ (h.releasing he))).2
  · obtain ⟨h1, h2⟩ := h.releasing he
    rcases eq_or_ne j s.ct with rfl | hj
    · obtain ⟨hj1, hj2⟩ := hjoin h2
      rw [hself, hpc, update_self]
      exact ⟨hj2.trans h1, hj1, hready _⟩
    · rw [Sys.thread, htable, hpc, update_of_ne hj, update_of_ne hj]
      exact ⟨h1, h2, hready j⟩

theorem Coherent.congr (hlib : u.lib.threadTable = s.lib.threadTable) (hct : u.ct = s.ct)
    (hpc : u.pc = s.pc) (hsched : u.sched = s.sched) (hpending : u.pending = s.pending) : Coherent u := by
  have hthread : u.thread = s.thread := funext fun t => congrFun hlib t
  have hreleases : u.Releases = s.Releases := by
    funext tid q
    cases q <;> simp only [Sys.Releases, hthread, hpc]
  obtain ⟨h1, h2, h3, h4, h5⟩ := h
  refine ⟨?_, ?_, ?_, ?_, ?_⟩ <;> simpa only [hthread, hct, hpc, hsched, hpending, hreleases]

theorem Coherent.settled (hrun : Running s) (hsched : s.sched = none)
    (hq : (s.pc s.ct).settled = true) : s.self.state = .running ∧ ¬InJoin (s.pc s.ct) s.self.state ∧
      s.self.joinOnTid = none ∧ s.self.blockedOnSemaphore = none := by
  have hyields : (s.pc s.ct).yields = false := by
    cases hpc : s.pc s.ct <;> rw [hpc] at hq <;> first | rfl | cases hq
  have hstate : s.self.state = .running := (hrun hsched).resolve_right (by rw [hyields]; nofun)
  have hjoin : ¬InJoin (s.pc s.ct) s.self.state := by
    rintro (hp | ⟨-, hb⟩)
    · rw [hp] at hq
      cases hq
    · cases hstate.symm.trans hb
  refine ⟨hstate, hjoin, (h.fits s.ct).free hjoin fun y => ?_⟩
  rintro (hp | ⟨-, hb⟩)
  · rw [hp] at hq
    cases hq
  · cases hstate.symm.trans hb

theorem Coherent.goto (hrun : Running s) (hsched : s.sched = none) (hq : (s.pc s.ct).settled = true)
    (hct : u.ct = s.ct) (hpc : u.pc = update s.pc s.ct p)
    (htable : u.lib.threadTable = s.lib.threadTable) (hplain : p.plain = true)
    (hcritical : p.critical = true → u.sched = none ∧ u.pending = false) : Coherent u := by
  obtain ⟨hstate, hjoin, hfree⟩ := h.settled hrun hsched hq
  have hself : u.lib.threadTable = update s.lib.threadTable s.ct s.self := by
    rw [htable, Sys.self, Sys.thread, update_eq_self]
  have hne : ∀ r : Pc n, r.plain = false → p ≠ r := by
    rintro r hr rfl
    cases hplain.symm.trans hr
  refine h.own hct hpc hself (Fits.of_free hfree (fun y => hne _ rfl) (fun y => hne _ rfl) ?_) hcritical rfl id
    (absurd · hjoin) (u.releases_of_plain _ hplain) fun i => hne _ rfl
  rintro -
  rw [hstate]
  nofun

theorem Coherent.wake (hq : (s.pc s.ct).joins = false ∧ (s.pc s.ct).downs = false) (hdowns : p.downs = false)
    (halive : p.active = true → (s.pc s.ct).active = true) (hi : i ≠ s.ct) (hct : u.ct = s.ct)
    (hpc : u.pc = update s.pc s.ct p) (htable : u.lib.threadTable = update s.lib.threadTable i x)
    (hfits_i : Fits (s.pc i) x) (hcritical : p.critical = true → u.sched = none ∧ u.pending = false)
    (htid : x.tid = (s.thread i).tid) (halive_i : (s.thread i).state ≠ .terminated)
    (hclear : ∀ e, e ≠ s.ct → s.pc e ≠ .exitClear i) (hready : ∀ e, e ≠ s.ct → s.pc e ≠ .exitReady i)
    (hp : u.Releases s.self.tid p) (hpready : ∀ j, p = .exitReady j → j = i) : Coherent u := by
  have hother : ∀ t, t ≠ i → u.thread t = s.thread t := fun t ht => by
    rw [Sys.thread, htable, update_of_ne ht, Sys.thread]
  have hfits := h.fits s.ct
  have hfits' : Fits p (u.thread s.ct) := by
    rw [hother _ hi.symm]
    refine .of_free (hfits.free (not_inJoin hq.1) fun y => not_inDown hq.2) ?_ ?_ fun ha => hfits.alive (halive ha)
    all_goals
      rintro y rfl
      cases hdowns
  refine h.change hct hpc htable hfits' (fun _ => hfits_i) hcritical htid (fun _ => halive_i) hp
    (fun e hne he => absurd he (hclear e hne)) fun e j hne he => ?_
  obtain ⟨h1, h2⟩ := h.releasing he
  have hji : j ≠ i := by
    rintro rfl
    exact hready e hne he
  have hjct : j ≠ s.ct := by
    rintro rfl
    exact not_inJoin hq.1 h2
  rw [hother j hji, hpc, update_of_ne hjct]
  exact ⟨h1, h2, fun hp => hji (hpready j hp)⟩

theorem Coherent.reschedule (hnone : ∀ t, (s.pc t).critical = false) (hpc : u.pc = s.pc)
    (hshift : ∀ t, Shifted (s.thread t) (u.thread t)) : Coherent u := by
  have halive : ∀ t, (u.thread t).state ≠ .terminated ↔ (s.thread t).state ≠ .terminated := fun t =>
    not_congr (hshift t).terminated_iff
  refine ⟨fun t => ?_, fun t ht => ?_, fun i j hi hj hij => ?_, fun e => ?_, fun e f j he hf => ?_⟩
  · rw [hpc]
    exact (h.fits t).shift (hshift t)
  · rw [hpc, hnone t] at ht
    cases ht
  · rw [(hshift i).tid, (hshift j).tid] at hij
    exact h.tids i j ((halive i).mp hi) ((halive j).mp hj) hij
  · rw [hpc, (hshift e).tid]
    refine (h.releases e).keep (hnone e) (fun j _ => (hshift j).joinOnTid) fun j hj => ?_
    obtain ⟨h1, h2⟩ := h.releasing hj
    rw [hpc]
    exact ⟨(hshift j).joinOnTid.trans h1, h2.imp_right fun hb => ⟨hb.1, (hshift j).blocked_iff.mpr hb.2⟩⟩
  · rw [hpc] at he hf
    exact h.unique e f j he hf

theorem Coherent.deliver (hnone : ∀ t, (s.pc t).critical = false) : Coherent (deliver s) :=
  h.reschedule hnone rfl deliver_shifted

theorem Coherent.chooseNextThread (hnone : ∀ t, (s.pc t).critical = false) (k : Nat) :
    Coherent (chooseNextThread k s) :=
  h.reschedule hnone (chooseNextThread_rescheduled k).pc (chooseNextThread_rescheduled k).shifted

end

/-! ## Statements -/

theorem Coherent.pending (h : Coherent s) (hc : (s.pc s.ct).critical = true) : s.pending = false :=
  (h.critical s.ct hc).2.2

theorem Coherent.no_critical (h : Coherent s) (hs : s.sched ≠ none ∨ s.pending = true) (t : Fin n) :
    (s.pc t).critical = false := by
  by_contra hc
  obtain ⟨-, h1, h2⟩ := h.critical t (Bool.eq_true_of_not_eq_false hc)
  rcases hs with hs | hs
  · exact hs h1
  · rw [h2] at hs
    cases hs

theorem Coherent.ask (h : Coherent s) (hfits : Fits p s.self)
    (hjoin : InJoin (s.pc s.ct) s.self.state → InJoin p s.self.state) (hcritical : p.critical = false)
    (hp : ∀ u : Sys n, u.Releases s.self.tid p) (hready : ∀ i, p ≠ .exitReady i) :
    Coherent { s.goto p with pending := true, alarmEnd := 0 } := by
  have hself : s.lib.threadTable = update s.lib.threadTable s.ct s.self := by
    rw [Sys.self, Sys.thread, update_eq_self]
  refine h.own rfl rfl hself hfits ?_ rfl id (fun hj => ⟨hjoin hj, rfl⟩) (hp _) hready
  rw [hcritical]
  nofun

theorem Fits.downWait {y : Sem} (h : Fits (.downYield y : Pc n) x) : Fits (.downWait y : Pc n) x := by
  refine ⟨fun tid ht => ?_, fun z hz => ?_, nofun, fun _ => h.alive rfl⟩
  · exact absurd (h.join tid ht) (not_inJoin rfl)
  · rcases h.down z hz with hb | ⟨hb | hb, hstate⟩ <;> cases hb
    exact .inr ⟨.inr rfl, hstate⟩

theorem Fits.joinWait (h : Fits (.joinYield : Pc n) x) : Fits (.joinWait : Pc n) x := by
  refine ⟨fun tid ht => ?_, fun z hz => ?_, nofun, fun _ => h.alive rfl⟩
  · rcases h.join tid ht with hb | ⟨-, hstate⟩
    · cases hb
    · exact .inr ⟨.inr rfl, hstate⟩
  · exact absurd (h.down z hz) (not_inDown rfl)

section

variable (h : Coherent s)
include h

theorem Coherent.afterYield (hp : (s.pc s.ct).afterYield = some p) :
    Coherent { s.goto p with pending := true, alarmEnd := 0 } := by
  have hfits : Fits (s.pc s.ct) s.self := h.fits s.ct
  cases hpc : s.pc s.ct <;> rw [hpc] at hp hfits <;> cases hp
  case downYield =>
    exact h.ask hfits.downWait (by rw [hpc]; exact fun hj => absurd hj (not_inJoin rfl)) rfl (fun _ => trivial) nofun
  case joinYield =>
    refine h.ask hfits.joinWait ?_ rfl (fun _ => trivial) nofun
    rw [hpc]
    rintro (hj | ⟨-, hstate⟩)
    · cases hj
    · exact .inr ⟨.inr rfl, hstate⟩
  case sleepYield | exitYield =>
    have hfree := hfits.free (not_inJoin rfl) fun y => not_inDown rfl
    exact h.ask (.of_free hfree nofun nofun nofun)
      (by rw [hpc]; exact fun hj => absurd hj (not_inJoin rfl)) rfl (fun _ => trivial) nofun

theorem Coherent.yield (hp : (s.pc s.ct).afterYield = some p) : Coherent (sigsend (s.goto p)) :=
  (h.afterYield hp).deliver ((h.afterYield hp).no_critical (.inr rfl))

theorem Coherent.parked {y : Sem} (hi : (s.thread i).blockedOnSemaphore = some y) (hne : i ≠ s.ct) :
    s.pc i = .downWait y ∧ (s.thread i).state = .blocked := by
  rcases (h.fits i).down y hi with hp | ⟨hp | hp, hstate⟩
  · exact absurd (h.critical i (by rw [hp]; rfl)).1 hne
  · exact absurd (h.critical i (by rw [hp]; rfl)).1 hne
  · exact ⟨hp, hstate⟩

theorem Coherent.no_exit (hi : ¬ InJoin (s.pc i) (s.thread i).state) (e : Fin n) :
    s.pc e ≠ .exitClear i ∧ s.pc e ≠ .exitReady i :=
  ⟨fun he => hi ((h.fits i).join _ (h.releasing he)), fun he => hi (h.releasing he).2⟩

theorem Coherent.upClear_ne {y : Sem} (hpc : s.pc s.ct = .upClear y i) : i ≠ s.ct := by
  rintro rfl
  have hdown := (h.fits s.ct).down y (h.releasing hpc)
  rw [hpc] at hdown
  exact absurd hdown (not_inDown rfl)

theorem Coherent.upReady_ne {y : Sem} (hpc : s.pc s.ct = .upReady y i) : i ≠ s.ct := by
  rintro rfl
  have hwait := (h.releasing hpc).2.1
  rw [hpc] at hwait
  cases hwait

theorem Coherent.exitClear_ne (hpc : s.pc s.ct = .exitClear i) : i ≠ s.ct := by
  rintro rfl
  have hjoin := (h.fits s.ct).join _ (h.releasing hpc)
  rw [hpc] at hjoin
  exact absurd hjoin (not_inJoin rfl)

theorem Coherent.exitReady_ne (hpc : s.pc s.ct = .exitReady i) : i ≠ s.ct := by
  rintro rfl
  have hjoin := (h.releasing hpc).2
  rw [hpc] at hjoin
  exact absurd hjoin (not_inJoin rfl)

theorem Coherent.release {y : Sem} (hq : (s.pc s.ct).joins = false ∧ (s.pc s.ct).downs = false)
    (hdowns : p.downs = false)
    (halive : p.active = true → (s.pc s.ct).active = true) (hct : u.ct = s.ct) (hpc : u.pc = update s.pc s.ct p)
    (htable : u.lib.threadTable = update s.lib.threadTable i x)
    (hwait : s.pc i = .downWait y) (hstate : (s.thread i).state = .blocked)
    (hx : x.tid = (s.thread i).tid ∧ x.joinOnTid = (s.thread i).joinOnTid ∧ x.blockedOnSemaphore = none)
    (halive_i : x.state ≠ .terminated) (hcritical : p.critical = true → u.sched = none ∧ u.pending = false)
    (hp : u.Releases s.self.tid p) (hpready : ∀ j, p ≠ .exitReady j) : Coherent u := by
  have hi : i ≠ s.ct := by
    rintro rfl
    rw [hwait] at hq
    cases hq.2
  have hjoin : ¬ InJoin (s.pc i) (s.thread i).state := by
    rw [hwait]
    exact not_inJoin rfl
  have hnone : (s.thread i).joinOnTid = none := Option.eq_none_iff_forall_not_mem.mpr fun _ ht =>
    hjoin ((h.fits i).join _ ht)
  refine h.wake hq hdowns halive hi hct hpc htable ?_ hcritical hx.1 ?_ (fun e _ => (h.no_exit hjoin e).1)
    (fun e _ => (h.no_exit hjoin e).2) hp fun j hj => absurd hj (hpready j)
  · rw [hwait]
    exact .of_free ⟨hx.2.1.trans hnone, hx.2.2⟩ nofun nofun fun _ => halive_i
  · rw [hstate]
    nofun

theorem Coherent.exec_upClear {y : Sem} (hpc : s.pc s.ct = .upClear y i) :
    Coherent ((s.goto (.upReady y i)).setThread i { s.thread i with blockedOnSemaphore := none }) := by
  obtain ⟨-, hsched, hpending⟩ := h.critical s.ct (by rw [hpc]; rfl)
  have hi := h.upClear_ne hpc
  obtain ⟨hwait, hstate⟩ := h.parked (h.releasing hpc) hi
  refine h.release (by rw [hpc]; exact ⟨rfl, rfl⟩) rfl (fun _ => by rw [hpc]; rfl) rfl rfl rfl hwait hstate
    ⟨rfl, rfl, rfl⟩
    (by simp [hstate]) (fun _ => ⟨hsched, hpending⟩) ?_ nofun
  rw [Sys.Releases, Sys.setThread_thread_self]
  exact ⟨rfl, (Sys.goto_pc_ne hi _).trans hwait, hstate⟩

theorem Coherent.exec_upReady {y : Sem} (hpc : s.pc s.ct = .upReady y i) :
    Coherent ((s.goto (.upEnable y)).setThread i { s.thread i with state := .ready }) := by
  obtain ⟨-, hsched, hpending⟩ := h.critical s.ct (by rw [hpc]; rfl)
  obtain ⟨hdown, hwait, hstate⟩ := h.releasing hpc
  exact h.release (by rw [hpc]; exact ⟨rfl, rfl⟩) rfl (fun _ => by rw [hpc]; rfl) rfl rfl rfl hwait hstate
    ⟨rfl, rfl, hdown⟩ nofun (fun _ => ⟨hsched, hpending⟩) trivial nofun

end

theorem InJoin.not_inDown {state : ThreadState} {y : Sem} (h : InJoin p state) : ¬ InDown y p state := by
  rcases h with rfl | ⟨rfl | rfl, -⟩ <;> exact Uthread.not_inDown rfl

theorem InJoin.fits {state : ThreadState} (h : InJoin p state)
    (hfree : x.joinOnTid = none ∧ x.blockedOnSemaphore = none) (halive : x.state ≠ .terminated) : Fits p x := by
  rcases h with rfl | ⟨rfl | rfl, -⟩ <;> exact .of_free hfree nofun nofun fun _ => halive

theorem InJoin.active {state : ThreadState} (h : InJoin p state) : p.active = true := by
  rcases h with rfl | ⟨rfl | rfl, -⟩ <;> rfl

theorem Coherent.exec_exitClear (h : Coherent s) (hpc : s.pc s.ct = .exitClear i) :
    Coherent ((s.goto (.exitReady i)).setThread i { s.thread i with joinOnTid := none }) := by
  have hi := h.exitClear_ne hpc
  have hon : (s.thread i).joinOnTid = some s.self.tid := h.releasing hpc
  have hjoin := (h.fits i).join _ hon
  have halive := (h.fits i).alive hjoin.active
  have hdown : (s.thread i).blockedOnSemaphore = none := Option.eq_none_iff_forall_not_mem.mpr fun _ hy =>
    hjoin.not_inDown ((h.fits i).down _ hy)
  refine h.wake (by rw [hpc]; exact ⟨rfl, rfl⟩) rfl (fun _ => by rw [hpc]; rfl) hi rfl rfl rfl
    (hjoin.fits ⟨rfl, hdown⟩ halive) nofun rfl halive (fun e he hce => ?_) (fun e _ hre => ?_) ?_ ?_
  · -- another exiting thread has another tid
    have htid : (s.thread e).tid = s.self.tid := Option.some.inj ((h.releasing hce).symm.trans hon)
    exact he (h.tids e s.ct ((h.fits e).alive (by rw [hce]; rfl)) ((h.fits _).alive (by rw [hpc]; rfl)) htid)
  · cases (h.releasing hre).1.symm.trans hon
  · rw [Sys.Releases, Sys.setThread_thread_self]
    exact ⟨rfl, (Sys.goto_pc_ne hi _).symm ▸ hjoin⟩
  · rintro _ ⟨⟩
    rfl

theorem Coherent.exec_exitReady (h : Coherent s) (hpc : s.pc s.ct = .exitReady i) :
    Coherent ((s.goto (.exitScan (i + 1))).setThread i { s.thread i with state := .ready }) := by
  obtain ⟨hon, hjoin⟩ := h.releasing hpc
  have hi := h.exitReady_ne hpc
  have halive := (h.fits i).alive hjoin.active
  have hdown : (s.thread i).blockedOnSemaphore = none := Option.eq_none_iff_forall_not_mem.mpr fun _ hy =>
    hjoin.not_inDown ((h.fits i).down _ hy)
  refine h.wake (by rw [hpc]; exact ⟨rfl, rfl⟩) rfl (fun _ => by rw [hpc]; rfl) hi rfl rfl rfl
    (hjoin.fits ⟨hon, hdown⟩ nofun) nofun rfl halive (fun e _ hce => ?_)
    (fun e he hre => he (h.unique e s.ct i hre hpc)) trivial nofun
  cases (h.releasing hce).symm.trans hon

theorem Coherent.exec (h : Coherent s) (hrun : Running s) (hsched : s.sched = none) (hu : exec s = some u) :
    Coherent u := by
  have hpending : (s.pc s.ct).critical = true → s.pending = false := h.pending
  have hself : s.lib.threadTable = update s.lib.threadTable s.ct s.self := by
    rw [Sys.self, Sys.thread, update_eq_self]
  have hsettled := h.settled hrun hsched
  have hfits := h.fits s.ct
  cases exec_executes hu with
  | @look q p hpc hlook =>
    have hq : (s.pc s.ct).settled = true := by
      rw [hpc]
      exact hlook.settled
    have hcritical (hp : p.critical = true) : s.sched = none ∧ s.pending = false :=
      ⟨hsched, hpending (by rw [hpc]; exact hlook.critical hp)⟩
    obtain ⟨hstate, hjoin, hfree⟩ := hsettled hq
    have halive : s.self.state ≠ .terminated := by
      rw [hstate]
      nofun
    cases hlook with
    | upFound hi hfound =>
      exact h.own rfl rfl hself (.of_free hfree nofun nofun fun _ => halive) hcritical rfl id
        (absurd · hjoin) hfound nofun
    | exitFound hi hfound =>
      exact h.own rfl rfl hself (.of_free hfree nofun nofun fun _ => halive) hcritical rfl id
        (absurd · hjoin) hfound nofun
    | _ => exact h.goto hrun hsched hq rfl rfl rfl rfl hcritical
  | write hpc hwrite =>
    rw [hpc] at hfits hsettled hpending
    cases hwrite with
    | @downBlock y =>
      have hdown := hfits.marked y (.inl rfl)
      refine h.own rfl rfl rfl ⟨fun tid ht => ?_, fun z hz => ?_, ?_, nofun⟩ (fun _ => ⟨hsched, hpending rfl⟩) rfl
        (fun _ => hfits.alive rfl) ?_ trivial nofun
      · exact absurd (hfits.join tid ht) (not_inJoin rfl)
      · cases hdown.symm.trans hz
        exact .inr ⟨.inl rfl, rfl⟩
      · rintro z (hz | hz) <;> cases hz
        exact hdown
      · rw [hpc]
        exact fun hj => absurd hj (not_inJoin rfl)
    | joinBlock =>
      refine h.own rfl rfl rfl ⟨fun tid ht => .inr ⟨.inl rfl, rfl⟩, fun z hz => ?_, nofun, nofun⟩ nofun rfl
        (fun _ => hfits.alive rfl) (fun _ => ⟨.inr ⟨.inl rfl, rfl⟩, rfl⟩) trivial nofun
      exact absurd (hfits.down z hz) (not_inDown rfl)
    | downMark =>
      obtain ⟨-, hjoin, hfree⟩ := hsettled rfl
      refine h.own rfl rfl rfl ⟨fun tid ht => ?_, fun z hz => ?_, ?_, fun _ => hfits.alive rfl⟩
        (fun _ => ⟨hsched, hpending rfl⟩) rfl id (by rw [hpc]; exact (absurd · hjoin)) trivial nofun
      · cases hfree.1.symm.trans ht
      · cases hz
        exact .inl rfl
      · rintro z (hz | hz) <;> cases hz
        rfl
    | sleepTime =>
      obtain ⟨-, hjoin, hfree⟩ := hsettled rfl
      exact h.own rfl rfl rfl (.of_free hfree nofun nofun fun _ => hfits.alive rfl) nofun rfl id
        (by rw [hpc]; exact (absurd · hjoin)) trivial nofun
    | sleepState =>
      obtain ⟨-, hjoin, hfree⟩ := hsettled rfl
      exact h.own rfl rfl rfl (.of_free hfree nofun nofun nofun) nofun rfl (fun _ => hfits.alive rfl)
        (by rw [hpc]; exact (absurd · hjoin)) trivial nofun
    | joinMark =>
      obtain ⟨-, hjoin, hfree⟩ := hsettled rfl
      refine h.own rfl rfl rfl ⟨fun _ _ => .inl rfl, fun z hz => ?_, nofun, fun _ => hfits.alive rfl⟩ nofun rfl id
        (by rw [hpc]; exact (absurd · hjoin)) trivial nofun
      cases hfree.2.symm.trans hz
    | exitState =>
      obtain ⟨-, hjoin, hfree⟩ := hsettled rfl
      exact h.own rfl rfl rfl (.of_free hfree nofun nofun nofun) nofun rfl (fun ha => absurd rfl ha)
        (by rw [hpc]; exact (absurd · hjoin)) trivial nofun
  | wake hpc hwake =>
    cases hwake with
    | upClear => exact h.exec_upClear hpc
    | upReady => exact h.exec_upReady hpc
    | exitClear => exact h.exec_exitClear hpc
    | exitReady => exact h.exec_exitReady hpc
  | set hpc hset =>
    rw [hpc] at hpending
    cases hset
    case allocTake => exact h.goto hrun hsched (by rw [hpc]; rfl) rfl rfl rfl rfl nofun
    all_goals exact h.goto hrun hsched (by rw [hpc]; rfl) rfl rfl rfl rfl fun _ => ⟨hsched, hpending rfl⟩
  | yield hpc hyield => exact h.yield (by rw [hpc]; exact hyield.afterYield)
  | freed hpc | granted hpc | downEnable hpc | upEnable hpc =>
    exact h.goto hrun hsched (by rw [hpc]; rfl) rfl rfl rfl rfl nofun
  | downDisable hpc | upDisable hpc =>
    exact h.goto hrun hsched (by rw [hpc]; rfl) rfl rfl rfl rfl fun _ => ⟨hsched, rfl⟩
  | exit => exact h.congr rfl rfl rfl rfl rfl

theorem Running.exec (hrun : Running s) (h : Coherent s) (hsched : s.sched = none) (hu : exec s = some u) :
    Running u := by
  intro hs
  have hsettled (hq : (s.pc s.ct).settled = true) : s.self.state = .running := (h.settled hrun hsched hq).1
  cases exec_executes hu with
  | look hpc hlook => exact .inl (hsettled (by rw [hpc]; exact hlook.settled))
  | write hpc hwrite =>
    cases hwrite with
    | downBlock | joinBlock | sleepState | exitState => exact .inr (congrArg Pc.yields (s.goto_pc_self _))
    | downMark | sleepTime | joinMark =>
      left
      exact (congrArg Thread.state (setThread_self s.lib s.ct _)).trans (hsettled (by rw [hpc]; rfl))
  | @wake q p i x hpc hwake =>
    have hne : s.ct ≠ i := by
      cases hwake with
      | upClear => exact (h.upClear_ne hpc).symm
      | upReady => exact (h.upReady_ne hpc).symm
      | exitClear => exact (h.exitClear_ne hpc).symm
      | exitReady => exact (h.exitReady_ne hpc).symm
    left
    exact (congrArg Thread.state (setThread_ne hne)).trans (hsettled (by rw [hpc]; cases hwake <;> rfl))
  | set hpc hset => exact .inl (hsettled (by rw [hpc]; cases hset <;> rfl))
  | yield => cases hs
  | freed hpc | granted hpc | downEnable hpc | upEnable hpc | downDisable hpc | upDisable hpc | exit hpc =>
    exact .inl (hsettled (by rw [hpc]; rfl))

/-! ## Steps -/

theorem Coherent.call (h : Coherent s) (hrun : Running s) (hsched : s.sched = none) (hpc : s.pc s.ct = .idle)
    (c : Call) : Coherent (call s c) ∧ Running (call s c) := by
  have hq : (s.pc s.ct).settled = true := by
    rw [hpc]
    rfl
  have hstate := (h.settled hrun hsched hq).1
  cases c <;> exact ⟨h.goto hrun hsched hq rfl rfl rfl rfl nofun, fun _ => .inl hstate⟩

theorem chooseNextThread_running (k : Nat) : Running (chooseNextThread k s) := by
  refine chooseNextThread_cases k rfl (fun c _ => ?_) fun j => nofun
  rw [switchTo_eq]
  exact fun _ => .inl (congrArg Thread.state (Sys.setThread_thread_self _ c _))

theorem step_coherent {a : Act} (h : Coherent s ∧ Running s) (hu : step s a = some u) : Coherent u ∧ Running u := by
  obtain ⟨hc, hr⟩ := h
  cases step_moves hu with
  | tick => exact ⟨hc.congr rfl rfl rfl rfl rfl, hr⟩
  | scan hsched =>
    exact ⟨hc.chooseNextThread (hc.no_critical (.inl (by rw [hsched]; nofun))) _, chooseNextThread_running _⟩
  | preempt hsched hpending => exact ⟨hc.deliver (hc.no_critical (.inr hpending)), nofun⟩
  | call hsched hpc => exact hc.call hr hsched hpc _
  | exec hsched hu => exact ⟨hc.exec hr hsched hu, hr.exec hc hsched hu⟩
  | leave hsched => exact ⟨hc.congr rfl rfl rfl rfl rfl, hr⟩

end Steps

/-! ## The start -/

structure Started (s : Sys n) : Prop where
  idle : ∀ t, s.pc t = .idle
  free : ∀ t, (s.thread t).joinOnTid = none ∧ (s.thread t).blockedOnSemaphore = none
  tids : ∀ i j, (s.thread i).state ≠ .terminated → (s.thread j).state ≠ .terminated →
    (s.thread i).tid = (s.thread j).tid → i = j
  running : s.self.state = .running
  held : ∀ t x, s.held t x = false
  ups : s.ups = []

theorem Started.not_at {s : Sys n} (h : Started s) {t : Fin n} {p : Pc n} (hp : p ≠ .idle) : s.pc t ≠ p :=
  fun ht => hp (ht.symm.trans (h.idle t))

theorem Started.coherent {s : Sys n} (h : Started s) : Coherent s ∧ Running s := by
  refine ⟨⟨fun t => ?_, fun t ht => ?_, h.tids, fun e => ?_, fun e f i he => absurd he (h.not_at nofun)⟩,
    fun _ => .inl h.running⟩
  · rw [h.idle]
    exact .of_free (h.free t) nofun nofun nofun
  · rw [h.idle] at ht
    cases ht
  · rw [h.idle]
    trivial

end Xv6.Uthread
