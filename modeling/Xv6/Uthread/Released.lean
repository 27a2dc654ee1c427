import Xv6.Uthread.Recycle

/-!
# The threads that `freeSem` releases

What the threads do that were in `down` when their semaphore was freed.
-/

open Function Xv6.Run

namespace Xv6.Uthread.Recycle

variable {n : Nat}

section Steps

variable {s u : Sys n} {t : Fin n} {a : Act n}

/-! ## Who has a block -/

/-- A block is with a live semaphore, or with a thread that makes it or frees it. -/
def Sys.Holds (s : Sys n) : Option (Fin n) → Nat → Prop
  | none, p => s.live p = true
  | some t, p => (s.pc t).holds = some p

structure Owned (s : Sys n) : Prop where
  zero : s.live 0 = false
  holds : ∀ l p, p ≠ 0 → s.Holds l p → s.block p = true ∧ ∀ m, s.Holds m p → m = l

section Owned

variable {p : Nat} {next : Pc}

theorem holds_of_update (hpc : u.pc = update s.pc t next) {r : Fin n} (hr : (u.pc r).holds = some p) :
    r = t ∧ next.holds = some p ∨ r ≠ t ∧ (s.pc r).holds = some p := by
  rw [hpc] at hr
  rcases eq_or_ne r t with rfl | hne
  · rw [update_self] at hr
    exact .inl ⟨rfl, hr⟩
  · rw [update_of_ne hne] at hr
    exact .inr ⟨hne, hr⟩

variable (h : Owned s)
include h

theorem Owned.ne_zero (hp : s.live p = true) : p ≠ 0 := by
  rintro rfl
  cases h.zero.symm.trans hp

theorem Owned.not_held (hp : s.live p = true) (r : Fin n) : (s.pc r).holds ≠ some p := by
  intro hr
  cases (h.holds none p (h.ne_zero hp) hp).2 (some r) hr

/-- In the end `p` is with `l`, or with nobody. -/
theorem Owned.give (l : Option (Fin n)) (hzero : u.live 0 = false)
    (hback : ∀ m q, q ≠ 0 → u.Holds m q → q ≠ p ∧ s.Holds m q ∨ q = p ∧ m = l)
    (hblock : ∀ q, q ≠ p → u.block q = s.block q) (hp : p ≠ 0 → u.Holds l p → u.block p = true) : Owned u := by
  refine ⟨hzero, fun m q hq hm => ?_⟩
  rcases hback m q hq hm with ⟨hne, hm⟩ | ⟨rfl, rfl⟩
  · obtain ⟨hb, hall⟩ := h.holds m q hq hm
    refine ⟨(hblock q hne).trans hb, fun k hk => ?_⟩
    rcases hback k q hq hk with ⟨-, hk⟩ | ⟨he, -⟩
    · exact hall k hk
    · exact absurd he hne
  · refine ⟨hp hq hm, fun k hk => ?_⟩
    rcases hback k q hq hk with ⟨hne, -⟩ | ⟨-, he⟩
    · exact absurd rfl hne
    · exact he

theorem Owned.goto (hpc : u.pc = update s.pc t next) (hlive : u.live = s.live) (hblock : u.block = s.block)
    (hnext : ∀ q, next.holds = some q → (s.pc t).holds = some q) : Owned u := by
  refine h.give (p := 0) none (hlive ▸ h.zero) (fun m q hq hm => .inl ⟨hq, ?_⟩) (fun q _ => congrFun hblock q)
    (absurd rfl)
  cases m with
  | none => exact (congrFun hlive q).symm.trans hm
  | some r =>
    rcases holds_of_update hpc hm with ⟨rfl, hk⟩ | ⟨-, hr⟩
    · exact hnext q hk
    · exact hr

theorem Owned.alloc (hp : s.block p = false) (hpc : u.pc = update s.pc t next) (hnext : next.holds = some p)
    (hlive : u.live = s.live) (hblock : u.block = update s.block p (p ≠ 0)) : Owned u := by
  have hne : ∀ m q, q ≠ 0 → s.Holds m q → q ≠ p := by
    rintro m q hq hm rfl
    cases hp.symm.trans (h.holds m q hq hm).1
  refine h.give (p := p) (some t) (hlive ▸ h.zero) (fun m q hq hm => ?_) (fun q hq => ?_) fun hp0 _ => ?_
  · cases m with
    | none =>
      have hm : s.live q = true := (congrFun hlive q).symm.trans hm
      exact .inl ⟨hne none q hq hm, hm⟩
    | some r =>
      rcases holds_of_update hpc hm with ⟨rfl, hk⟩ | ⟨-, hr⟩
      · exact .inr ⟨Option.some.inj (hk.symm.trans hnext), rfl⟩
      · exact .inl ⟨hne (some r) q hq hr, hr⟩
  · rw [hblock, update_of_ne hq]
  · rw [hblock, update_self]
    exact decide_eq_true hp0

theorem Owned.free (hp : s.live p = true) (hpc : u.pc = update s.pc t next) (hnext : next.holds = some p)
    (hlive : u.live = update s.live p false) (hblock : u.block = s.block) : Owned u := by
  have hp0 := h.ne_zero hp
  refine h.give (p := p) (some t) ?_ (fun m q hq hm => ?_) (fun q _ => congrFun hblock q) fun _ _ => ?_
  · rw [hlive, update_of_ne hp0.symm]
    exact h.zero
  · cases m with
    | none =>
      have hne : q ≠ p := by
        rintro rfl
        rw [Sys.Holds, hlive, update_self] at hm
        cases hm
      rw [Sys.Holds, hlive, update_of_ne hne] at hm
      exact .inl ⟨hne, hm⟩
    | some r =>
      rcases holds_of_update hpc hm with ⟨rfl, hk⟩ | ⟨-, hr⟩
      · exact .inr ⟨Option.some.inj (hk.symm.trans hnext), rfl⟩
      · refine .inl ⟨?_, hr⟩
        rintro rfl
        exact h.not_held hp r hr
  · rw [hblock]
    exact (h.holds none p hp0 hp).1

theorem Owned.drop (ht : (s.pc t).holds = some p) (hpc : u.pc = update s.pc t .idle) (hzero : u.live 0 = false)
    (hlive : ∀ q, q ≠ p → u.live q = s.live q) (hblock : ∀ q, q ≠ p → u.block q = s.block q)
    (hp : p ≠ 0 → u.live p = true → u.block p = true) : Owned u := by
  refine h.give none hzero (fun m q hq hm => ?_) hblock hp
  cases m with
  | none =>
    rcases eq_or_ne q p with rfl | hne
    · exact .inr ⟨rfl, rfl⟩
    · exact .inl ⟨hne, (hlive q hne).symm.trans hm⟩
  | some r =>
    rcases holds_of_update hpc hm with ⟨-, hk⟩ | ⟨hne, hr⟩
    · cases hk
    · refine .inl ⟨?_, hr⟩
      rintro rfl
      exact hne (Option.some.inj ((h.holds (some t) q hq ht).2 (some r) hr))

end Owned

theorem Owned.moves (h : Owned s) (hm : Moves s a u) : Owned u := by
  cases hm with
  | down | up | giveUp => exact h.goto rfl rfl rfl nofun
  | alloc _ hblock => exact h.alloc hblock rfl rfl rfl rfl
  | free _ hlive => exact h.free hlive rfl rfl rfl rfl
  | bsemAlloc => exact ⟨h.zero, h.holds⟩
  | use _ _ hholds => exact h.goto rfl rfl rfl fun p hp => by cases hholds.symm.trans hp
  | take ht | fill ht | gate ht | freeFirst ht | freeSecond ht =>
    exact h.goto rfl rfl rfl fun p hp => by rw [ht]; exact hp
  | @value t semPtr _ _ ht =>
    have hholds : (s.pc t).holds = some semPtr := by rw [ht]; rfl
    refine h.drop hholds rfl ?_ (fun q hq => update_of_ne hq _ _) (fun _ _ => rfl) fun hp _ => ?_
    · rcases eq_or_ne semPtr 0 with rfl | hne
      · exact update_self 0 _ s.live
      · exact (update_of_ne hne.symm _ _).trans h.zero
    · exact (h.holds (some t) semPtr hp hholds).1
  | @freeLast t sem ht =>
    have hholds : (s.pc t).holds = some sem := by rw [ht]; rfl
    refine h.drop hholds rfl h.zero (fun _ _ => rfl) (fun q hq => update_of_ne hq _ _) fun hp hlive => ?_
    exact absurd hholds (h.not_held hlive t)

/-! ## What each step keeps -/

theorem Moves.numbers (hm : Moves s a u) {sem : Nat} (hsem : ∀ r k pc, s.pc r ≠ .alloc sem k pc) :
    (u.heap sem).binSemNum1 = (s.heap sem).binSemNum1 ∧ (u.heap sem).binSemNum2 = (s.heap sem).binSemNum2 := by
  cases hm with
  | @use _ p =>
    dsimp only
    rcases eq_or_ne sem p with rfl | hne
    · rw [update_self]
      exact ⟨rfl, rfl⟩
    · rw [update_of_ne hne]
      exact ⟨rfl, rfl⟩
  | @fill t semPtr _ _ _ _ ht | @value t semPtr _ _ ht =>
    have hne : sem ≠ semPtr := by
      rintro rfl
      exact hsem t _ _ ht
    dsimp only
    rw [update_of_ne hne]
    exact ⟨rfl, rfl⟩
  | _ => exact ⟨rfl, rfl⟩

def Allocates (s : Sys n) : Act n → Prop
  | .bsemAlloc _ => True
  | .go t => ∃ semPtr enterVal pc, s.pc t = .alloc semPtr enterVal pc ∧ (pc = .first ∨ ∃ x, pc = .second x)
  | _ => False

theorem Quiet.spared (h : Quiet s a) (ha : Allocates s a) : s.Spared := by
  cases a with
  | bsemAlloc t => exact h
  | go t =>
    obtain ⟨semPtr, enterVal, pc, hpc, rfl | ⟨x, rfl⟩⟩ := ha
    · simpa only [Quiet, hpc] using h
    · simpa only [Quiet, hpc] using h
  | _ => exact ha.elim

section Takes

variable {l : Lib n} {taken : Sem → Nat} {x : Sem}

theorem Takes.spares (h : Takes s l taken) (hx : s.lib.semaphores x = -1 → ∃ y, y < x ∧ s.lib.semaphores y = -1) :
    l.semaphores x = s.lib.semaphores x ∧ taken x = s.taken x := by
  cases h with
  | none => exact ⟨rfl, rfl⟩
  | @some z hfree hfirst =>
    have hne : x ≠ z := by
      rintro rfl
      obtain ⟨y, hy, hclosed⟩ := hx hfree
      exact hfirst y hy hclosed
    exact ⟨setSem_ne hne, update_of_ne hne _ _⟩

theorem Takes.keeps (h : Takes s l taken) (hx : s.lib.semaphores x ≠ -1) : l.semaphores x ≠ -1 := by
  rwa [(h.spares fun hfree => absurd hfree hx).1]

theorem Takes.threadTable (h : Takes s l taken) : l.threadTable = s.lib.threadTable := by cases h <;> rfl

theorem Takes.taken_le (h : Takes s l taken) (hs : ∀ x, s.taken x ≤ s.now) (x : Sem) : taken x ≤ s.now := by
  cases h with
  | none => exact hs x
  | some =>
    rw [update_apply]
    split
    · exact Nat.le_refl _
    · exact hs x

end Takes

theorem bsemUp_closed {l : Lib n} {x y : Sem} (h : l.semaphores x = -1) : (bsemUp y l).semaphores x = -1 := by
  unfold bsemUp
  split
  · exact h
  · rename_i hy
    split
    · exact h
    · rwa [setSem_ne (by rintro rfl; exact hy h)]

theorem bsemFree_closed {l : Lib n} {x y : Sem} (h : l.semaphores x = -1) : (bsemFree y l).semaphores x = -1 := by
  rcases eq_or_ne x y with rfl | hne
  · exact setSem_self _ _ _
  · rw [bsemFree, setSem_ne hne]
    exact h

theorem Turns.closed {sem : CountingSemaphore} {next : Pc} {l : Lib n} (h : Turns s t sem next l) {x : Sem}
    (hx : s.lib.semaphores x = -1) : l.semaphores x = -1 := by
  cases h with
  | down y huses ht hl => rw [hl, Pool.bsemDown_free_iff, hx]
  | stay ht hl => rw [hl, hx]
  | up y ht hl =>
    rw [hl]
    exact bsemUp_closed hx

theorem Moves.closed (hm : Moves s a u) {x : Sem} (hx : s.lib.semaphores x = -1)
    (hspared : Allocates s a → ∃ y, y < x ∧ s.lib.semaphores y = -1) : u.lib.semaphores x = -1 := by
  cases hm with
  | bsemAlloc _ htakes => exact (htakes.spares fun _ => hspared trivial).1.trans hx
  | take ht hpc htakes => exact (htakes.spares fun _ => hspared ⟨_, _, _, ht, hpc⟩).1.trans hx
  | use _ _ _ hturns | gate _ hturns => exact hturns.closed hx
  | freeFirst | freeSecond => exact bsemFree_closed hx
  | _ => exact hx

theorem Moves.taken (hm : Moves s a u) {x : Sem}
    (hspared : Allocates s a → s.lib.semaphores x = -1 → ∃ y, y < x ∧ s.lib.semaphores y = -1) :
    u.taken x = s.taken x := by
  cases hm with
  | bsemAlloc _ htakes => exact (htakes.spares (hspared trivial)).2
  | take ht hpc htakes => exact (htakes.spares (hspared ⟨_, _, _, ht, hpc⟩)).2
  | _ => rfl

theorem Moves.pc (hm : Moves s a u) (r : Fin n) (hr : a ≠ .go r) (hpc : s.pc r ≠ .idle) : u.pc r = s.pc r := by
  have hgoto : ∀ {t next}, a = .go t → update s.pc t next r = s.pc r := by
    intro t next ha
    refine update_of_ne ?_ _ _
    rintro rfl
    exact hr ha
  have houtside : ∀ {t next}, s.Outside t → update s.pc t next r = s.pc r := by
    intro t next ht
    refine update_of_ne ?_ _ _
    rintro rfl
    exact hpc ht.1
  cases hm with
  | down ht | up ht | alloc ht | free ht => exact houtside ht
  | bsemAlloc => rfl
  | _ => exact hgoto rfl

theorem Moves.alloc_back (hm : Moves s a u) {r : Fin n} {sem : Nat} {k : Word} {pc : AllocSemPc}
    (hr : u.pc r = .alloc sem k pc) : (∃ pc, s.pc r = .alloc sem k pc) ∨ a = .allocSem r sem k := by
  have hgoto : ∀ {t next}, update s.pc t next r = .alloc sem k pc →
      (∀ pc, next = .alloc sem k pc → ∃ pc, s.pc t = .alloc sem k pc) → ∃ pc, s.pc r = .alloc sem k pc := by
    intro t next h hnext
    rcases eq_or_ne r t with rfl | hne
    · rw [update_self] at h
      exact hnext pc h
    · rw [update_of_ne hne] at h
      exact ⟨pc, h⟩
  cases hm with
  | @alloc t =>
    rcases eq_or_ne r t with rfl | hne
    · simp only [Sys.goto, update_self] at hr
      cases hr
      exact .inr rfl
    · simp only [Sys.goto, update_of_ne hne] at hr
      exact .inl ⟨pc, hr⟩
  | bsemAlloc => exact .inl ⟨pc, hr⟩
  | use _ _ hholds =>
    refine .inl (hgoto hr fun pc hpc => ?_)
    rw [hpc] at hholds
    cases hholds
  | take ht | fill ht | gate ht => exact .inl (hgoto hr fun pc hpc => by cases hpc; exact ⟨_, ht⟩)
  | _ => exact .inl (hgoto hr nofun)

def Sys.Freed (s : Sys n) (sem : Nat) : Prop :=
  (∃ r, s.pc r = .free sem .first) ∨
  (∃ r, s.pc r = .free sem .second) ∧ s.lib.semaphores (s.heap sem).binSemNum1 = -1 ∨
  s.lib.semaphores (s.heap sem).binSemNum1 = -1 ∧ s.lib.semaphores (s.heap sem).binSemNum2 = -1

theorem Moves.free_cases (hm : Moves s a u) {r : Fin n} {sem : Nat} {pc : FreeSemPc} (hr : s.pc r = .free sem pc) :
    u.pc r = .free sem pc ∨ u = s.goFree r sem pc := by
  by_cases ha : a = .go r
  · subst ha
    cases hm with
    | freeFirst ht | freeSecond ht | freeLast ht =>
      rw [hr] at ht
      cases ht
      exact .inr rfl
    | use ht | take ht | fill ht | giveUp ht | gate ht | value ht =>
      rw [hr] at ht
      cases ht
  · left
    rw [hm.pc r ha (by rw [hr]; nofun), hr]

/-- The semaphore was freed at the time, and nothing of it allocated since. -/
structure Gone (s : Sys n) (sem time : Nat) : Prop where
  dead : s.live sem = false
  made : s.made sem ≤ time
  taken : ∀ x, Uses (s.heap sem) x → s.taken x ≤ time
  alone : ∀ r k pc, s.pc r ≠ .alloc sem k pc
  freed : s.Freed sem

theorem Gone.moves {sem time : Nat} (h : Gone s sem time) (hstale : s.stale t = some (sem, time)) (hq : Quiet s a)
    (hm : Moves s a u) : Gone u sem time := by
  obtain ⟨hnum1, hnum2⟩ := hm.numbers h.alone
  have hspared : ∀ x, Uses (s.heap sem) x → Allocates s a → s.lib.semaphores x = -1 →
      ∃ y, y < x ∧ s.lib.semaphores y = -1 := fun x hx ha => hq.spared ha t _ hstale x hx
  have hclosed : ∀ x, Uses (s.heap sem) x → s.lib.semaphores x = -1 → u.lib.semaphores x = -1 :=
    fun x hx hfree => hm.closed hfree fun ha => hspared x hx ha hfree
  refine ⟨?_, ?_, fun x hx => ?_, fun r k pc hr => ?_, ?_⟩
  · cases hm with
    | @free _ p =>
      dsimp only
      rcases eq_or_ne sem p with rfl | hne
      · rw [update_self]
      · rw [update_of_ne hne]
        exact h.dead
    | @value t' p _ _ ht =>
      have hne : sem ≠ p := by
        rintro rfl
        exact h.alone t' _ _ ht
      dsimp only
      rw [update_of_ne hne]
      exact h.dead
    | _ => exact h.dead
  · cases hm with
    | alloc =>
      dsimp only
      rw [update_of_ne (hq t _ hstale)]
      exact h.made
    | _ => exact h.made
  · have hx' : Uses (s.heap sem) x := by rwa [Uses, hnum1, hnum2] at hx
    rw [hm.taken (hspared x hx')]
    exact h.taken x hx'
  · rcases hm.alloc_back hr with ⟨pc, hr⟩ | rfl
    · exact h.alone r k pc hr
    · exact hq t _ hstale rfl
  · have hfirst := hclosed _ (.inl rfl)
    have hsecond := hclosed _ (.inr rfl)
    unfold Sys.Freed
    rcases h.freed with ⟨r, hr⟩ | ⟨⟨r, hr⟩, h1⟩ | ⟨h1, h2⟩
    · rcases hm.free_cases hr with hr | rfl
      · exact .inl ⟨r, hr⟩
      · exact .inr (.inl ⟨⟨r, update_self _ _ _⟩, setSem_self _ _ _⟩)
    · rw [hnum1]
      rcases hm.free_cases hr with hr | rfl
      · exact .inr (.inl ⟨⟨r, hr⟩, hfirst h1⟩)
      · exact .inr (.inr ⟨hfirst h1, setSem_self _ _ _⟩)
    · rw [hnum1, hnum2]
      exact .inr (.inr ⟨hfirst h1, hsecond h2⟩)

structure Sound (s : Sys n) : Prop where
  owned : Owned s
  parked : Parked s
  made : ∀ p, s.made p ≤ s.now
  taken : ∀ x, s.taken x ≤ s.now
  live : ∀ t sem, (s.pc t).downs = some sem → s.released t = none → s.live sem = true
  gone : ∀ t sem time, (s.pc t).downs = some sem → s.released t = some time → Gone s sem time

theorem Sound.alone (h : Sound s) {sem : Nat} (ht : (s.pc t).downs = some sem) (r : Fin n) (k : Word)
    (pc : AllocSemPc) : s.pc r ≠ .alloc sem k pc := by
  intro hr
  cases hrel : s.released t with
  | none => exact h.owned.not_held (h.live t sem ht hrel) r (by rw [hr]; rfl)
  | some time => exact (h.gone t sem time ht hrel).alone r k pc hr

theorem Sound.sameNumbers (h : Sound s) (hm : Moves s a u) : SameNumbers s u := by
  intro r sem hr x
  obtain ⟨h1, h2⟩ := hm.numbers (h.alone hr)
  rw [Uses, Uses, h1, h2]

theorem Sound.not_waiting (h : Sound s) (ht : s.Outside t) : (s.lib.threadTable t).blockedOnSemaphore = none :=
  h.parked.free fun _ => ht.2

theorem Sound.turns {sem : CountingSemaphore} {next : Pc} {l : Lib n} (h : Sound s) (ht : Turns s t sem next l)
    (hlib : u.lib = l) (hpc : u.pc = update s.pc t next) (hnum : SameNumbers s u)
    (huses : ∀ x p, Uses sem x → next.downs = some p → Uses (u.heap p) x) : Parked u := by
  cases ht with
  | down x hx hfree hl hnext =>
    refine h.parked.bsemDown (h.parked.free fun hin => ?_) (hlib.trans hl) hpc hnum (fun hb => hnext ?_)
      fun p => huses x p hx
    · rw [hfree] at hin
      cases hin
    · rwa [Sys.isBlocked, hlib] at hb
  | stay hfree hl =>
    exact h.parked.goto (h.parked.free hfree) (by rw [hlib, hl]) (by rw [hlib, hl]; exact fun _ => id) hpc hnum
  | up x hfree hl =>
    -- the thread moves on, and then it releases another one
    let v : Sys n := { u with lib := s.lib }
    have hv : Parked v := by
      refine h.parked.goto (t := t) (h.parked.free fun hin => ?_) rfl (fun _ => id) hpc hnum
      rw [hfree] at hin
      cases hin
    exact hv.bsemUp (hlib.trans hl) rfl rfl

theorem Sound.parked_moves (h : Sound s) (hm : Moves s a u) : Parked u := by
  have hnum := h.sameNumbers hm
  -- a thread that is not in `bsem_down`
  have hfree : ∀ {t}, (s.pc t).inBsemDown = false → (s.lib.threadTable t).blockedOnSemaphore = none := by
    intro t ht
    refine h.parked.free fun hin => ?_
    rw [ht] at hin
    cases hin
  cases hm with
  | down ht | up ht | alloc ht | free ht => exact h.parked.goto (h.not_waiting ht) rfl (fun _ => id) rfl hnum
  | bsemAlloc ht htakes =>
    exact h.parked.goto (h.not_waiting ht) htakes.threadTable (fun _ => htakes.keeps) (update_eq_self _ _).symm hnum
  | @use t _ _ _ _ _ ht hdowns _ hturns =>
    refine h.turns hturns rfl rfl hnum fun x p hx hp => ?_
    have hdown := hdowns p hp
    rw [hnum t p hdown]
    rw [ht] at hdown
    simp only [Pc.downs, Option.ite_none_right_eq_some, Option.some.injEq] at hdown
    rwa [← hdown.2]
  | take ht hpc htakes =>
    refine h.parked.goto (hfree ?_) htakes.threadTable (fun _ => htakes.keeps) rfl hnum
    rw [ht]
    rcases hpc with rfl | ⟨x, rfl⟩ <;> rfl
  | @fill _ _ _ pc _ _ ht hpc | @giveUp _ _ _ pc ht hpc =>
    refine h.parked.goto (hfree ?_) rfl (fun _ => id) rfl hnum
    rw [ht]
    cases pc <;> first | rfl | exact absurd rfl hpc
  | gate _ hturns => exact h.turns hturns rfl rfl hnum (by simp [Pc.downs])
  | value ht | freeLast ht => exact h.parked.goto (hfree (by rw [ht]; rfl)) rfl (fun _ => id) rfl hnum
  | @freeFirst t sem ht =>
    have hv : Parked (s.goto t (.free sem .second)) :=
      h.parked.goto (hfree (by rw [ht]; rfl)) rfl (fun _ => id) rfl hnum
    exact hv.bsemFree rfl rfl rfl
  | @freeSecond t sem ht =>
    have hv : Parked (s.goto t (.free sem .last)) :=
      h.parked.goto (hfree (by rw [ht]; rfl)) rfl (fun _ => id) rfl hnum
    exact hv.bsemFree rfl rfl rfl

theorem Moves.downs_back (hm : Moves s a u) {r : Fin n} {sem : Nat} (hr : (u.pc r).downs = some sem) :
    (s.pc r).downs = some sem ∧ (∀ p, a ≠ .down r p) ∨ a = .down r sem ∧ s.live sem = true ∧ u.released r = none := by
  have hgoto : ∀ {t next}, (update s.pc t next r).downs = some sem →
      (next.downs = some sem → (s.pc t).downs = some sem) → (s.pc r).downs = some sem := by
    intro t next h hnext
    rcases eq_or_ne r t with rfl | hne
    · rw [update_self] at h
      exact hnext h
    · rwa [update_of_ne hne] at h
  cases hm with
  | @down t p _ hlive =>
    dsimp only [Sys.goto] at hr ⊢
    rcases eq_or_ne r t with rfl | hne
    · rw [update_self] at hr
      cases hr
      exact .inr ⟨rfl, hlive, update_self _ _ _⟩
    · rw [update_of_ne hne] at hr
      refine .inl ⟨hr, fun p hp => ?_⟩
      cases hp
      exact hne rfl
  | bsemAlloc => exact .inl ⟨hr, nofun⟩
  | use _ hdowns => exact .inl ⟨hgoto hr (hdowns sem), nofun⟩
  | _ => exact .inl ⟨hgoto hr nofun, nofun⟩

theorem Moves.released (hm : Moves s a u) {r : Fin n} (hdown : ∀ p, a ≠ .down r p)
    (hfree : ∀ t sem, a = .freeSem t sem → (s.pc r).downs ≠ some sem) : u.released r = s.released r := by
  cases hm with
  | @down t p =>
    refine update_of_ne ?_ _ _
    rintro rfl
    exact hdown p rfl
  | @free t sem => exact if_neg (hfree t sem rfl)
  | _ => rfl

theorem Moves.live (hm : Moves s a u) {sem : Nat} (hlive : s.live sem = true) (hne : sem ≠ 0)
    (hfree : ∀ t, a ≠ .freeSem t sem) : u.live sem = true := by
  cases hm with
  | @free t p =>
    dsimp only
    rwa [update_of_ne]
    rintro rfl
    exact hfree t rfl
  | @value _ p =>
    dsimp only
    rcases eq_or_ne sem p with rfl | hp
    · rw [update_self]
      exact decide_eq_true hne
    · rwa [update_of_ne hp]
  | _ => exact hlive

theorem Sound.freeSem (h : Sound s) {r : Fin n} {sem : Nat} (hm : Moves s (.freeSem r sem) u) :
    s.live sem = true ∧ Gone u sem s.now := by
  cases hm with
  | free ht hlive =>
    refine ⟨hlive, update_self _ _ _, h.made sem, fun x _ => h.taken x, fun q k pc hq => ?_, .inl ⟨r, ?_⟩⟩
    · rcases eq_or_ne q r with rfl | hne
      · simp only [Sys.goto, update_self] at hq
        cases hq
      · simp only [Sys.goto, update_of_ne hne] at hq
        exact h.owned.not_held hlive q (by rw [hq]; rfl)
    · exact update_self _ _ _

theorem Sound.users (h : Sound s) (hq : Quiet s a) (hm : Moves s a u) {r : Fin n} {sem : Nat}
    (hr : (u.pc r).downs = some sem) :
    (u.released r = none ∧ u.live sem = true) ∨ ∃ time, u.released r = some time ∧ Gone u sem time := by
  rcases hm.downs_back hr with ⟨hback, hdown⟩ | ⟨rfl, hlive, hnone⟩
  · by_cases hfree : ∃ t, a = .freeSem t sem
    · obtain ⟨t, rfl⟩ := hfree
      refine .inr ⟨s.now, ?_, (h.freeSem hm).2⟩
      cases hm with
      | free => exact if_pos hback
    · have hsame : u.released r = s.released r := by
        refine hm.released hdown fun t p ha hp => ?_
        rw [hback, Option.some.injEq] at hp
        subst hp
        exact hfree ⟨t, ha⟩
      rw [hsame]
      cases hrel : s.released r with
      | none =>
        have hlive := h.live r sem hback hrel
        exact .inl ⟨rfl, hm.live hlive (h.owned.ne_zero hlive) fun t ht => hfree ⟨t, ht⟩⟩
      | some time =>
        refine .inr ⟨time, rfl, (h.gone r sem time hback hrel).moves (t := r) ?_ hq hm⟩
        simp [Sys.stale, hback, hrel]
  · exact .inl ⟨hnone, hm.live hlive (h.owned.ne_zero hlive) nofun⟩

theorem Sound.times (h : Sound s) (hm : Moves s a u) : (∀ p, u.made p ≤ s.now) ∧ ∀ x, u.taken x ≤ s.now := by
  cases hm with
  | alloc =>
    refine ⟨fun p => ?_, h.taken⟩
    dsimp only
    rw [update_apply]
    split
    · exact Nat.le_refl _
    · exact h.made p
  | bsemAlloc _ htakes | take _ _ htakes => exact ⟨h.made, htakes.taken_le h.taken⟩
  | _ => exact ⟨h.made, h.taken⟩

theorem Sound.step (h : Sound s) (hq : Quiet s a) (hu : step s a = some u) : Sound u := by
  simp only [Recycle.step, Option.map_eq_some_iff] at hu
  obtain ⟨v, hv, rfl⟩ := hu
  have hm := call_moves hv
  have howned := h.owned.moves hm
  have hparked := h.parked_moves hm
  obtain ⟨hmade, htaken⟩ := h.times hm
  refine ⟨⟨howned.zero, howned.holds⟩, ⟨hparked.blocked_iff, hparked.waits⟩, fun p => (hmade p).trans (Nat.le_succ _),
    fun x => (htaken x).trans (Nat.le_succ _), fun r sem hr hrel => ?_, fun r sem time hr hrel => ?_⟩
  · rcases h.users hq hm hr with ⟨-, hlive⟩ | ⟨time, htime, -⟩
    · exact hlive
    · cases hrel.symm.trans htime
  · rcases h.users hq hm hr with ⟨hnone, -⟩ | ⟨time, htime, hgone⟩
    · cases hrel.symm.trans hnone
    · cases hrel.symm.trans htime
      exact ⟨hgone.dead, hgone.made, hgone.taken, hgone.alone, hgone.freed⟩

/-! ## What follows for the released threads -/

theorem stale_gone (h : Sound s) {sem time : Nat} (ht : s.stale t = some (sem, time)) :
    Gone s sem time ∧ ∃ pc, s.pc t = .use sem pc ∧ inDown pc = true := by
  simp only [Sys.stale, Option.bind_eq_some_iff, Option.map_eq_some_iff, Prod.mk.injEq] at ht
  obtain ⟨_, hdown, time, htime, rfl, rfl⟩ := ht
  refine ⟨h.gone t _ time hdown htime, ?_⟩
  unfold Pc.downs at hdown
  split at hdown
  · rename_i pc hpc
    simp only [Option.ite_none_right_eq_some, Option.some.injEq] at hdown
    obtain ⟨hin, rfl⟩ := hdown
    exact ⟨pc, hpc, hin⟩
  · cases hdown

theorem uses_of_touches {sem : CountingSemaphore} {pc : Counting.Pc} {x : Sem} (h : x ∈ touches sem pc) :
    Uses sem x := by
  unfold touches at h
  split at h
  · exact .inr (by simpa using h.symm)
  · exact .inr (by simpa using h.symm)
  · exact .inl (by simpa using h.symm)
  · exact .inl (by simpa using h.symm)
  · cases h

theorem Sound.clean (h : Sound s) : Clean s a := by
  unfold Clean
  split
  · split
    · rename_i sem pc p time hpc hstale
      obtain ⟨hgone, pc', hpc', -⟩ := stale_gone h hstale
      rw [hpc] at hpc'
      cases hpc'
      exact ⟨fun _ => hgone.made, fun x hx _ => hgone.taken x (uses_of_touches hx)⟩
    · trivial
  · trivial

theorem goUse_left {sem : Nat} {pc : Counting.Pc} (hpc : s.pc t = .use sem pc) (hin : inDown pc = true)
    (hfree : s.isBlocked t = false) (h1 : s.lib.semaphores (s.heap sem).binSemNum1 = -1)
    (h2 : s.lib.semaphores (s.heap sem).binSemNum2 = -1) :
    ∃ u, step s (.go t) = some u ∧ left (u.pc t) < left (s.pc t) := by
  have hblocked : (s.seen sem pc).isBlocked t = false := hfree
  have hacquire : ∀ x wait next, s.lib.semaphores x = -1 →
      (Counting.Sys.acquire (s.seen sem pc) t x wait next).pc t = next := by
    intro x wait next hx
    have hsame : bsemDown t x (s.seen sem pc).lib = (s.seen sem pc).lib := if_pos hx
    simp only [Counting.Sys.acquire, Counting.Sys.goto, update_self, hsame]
    rw [if_neg]
    exact Bool.eq_false_iff.mp hfree
  simp only [step, Sys.call, Sys.go, hpc, Sys.goUse, Option.map_map, Option.map_eq_some_iff, exists_exists_and_eq_and,
    Function.comp_apply, Sys.goto, update_self]
  cases pc
  case downGate => exact ⟨_, rfl, by simp [hacquire _ _ _ h2, left]⟩
  case downLock => exact ⟨_, rfl, by simp [hacquire _ _ _ h1, left]⟩
  case downGateWait | downLockWait =>
    refine ⟨_, if_neg (by simp [hblocked]), ?_⟩
    simp [Counting.Sys.goto, left]
  case downDec | downSignal | downUnlock =>
    refine ⟨_, rfl, ?_⟩
    simp [Counting.Sys.goto, left]
  case downTest =>
    refine ⟨_, rfl, ?_⟩
    simp only [Counting.Sys.goto, update_self]
    cases (0#32).slt (s.seen sem .downTest).value <;> simp [left]
  all_goals cases hin

theorem Sound.finishes (h : Sound s) : Finishes s := by
  intro t sem time hstale hfreeing
  obtain ⟨hgone, pc, hpc, hin⟩ := stale_gone h hstale
  have hdown : (s.pc t).downs = some sem := by
    rw [hpc]
    simp [Pc.downs, hin]
  have hclosed : s.lib.semaphores (s.heap sem).binSemNum1 = -1 ∧ s.lib.semaphores (s.heap sem).binSemNum2 = -1 := by
    rcases hgone.freed with ⟨r, hr⟩ | ⟨⟨r, hr⟩, -⟩ | hclosed
    · exact absurd ⟨r, _, hr⟩ hfreeing
    · exact absurd ⟨r, _, hr⟩ hfreeing
    · exact hclosed
  have hwaits : (s.lib.threadTable t).blockedOnSemaphore = none := by
    cases hb : (s.lib.threadTable t).blockedOnSemaphore with
    | none => rfl
    | some x =>
      obtain ⟨htaken, -, huses⟩ := h.parked.waits t x hb
      rcases huses sem hdown with rfl | rfl
      · exact absurd hclosed.1 htaken
      · exact absurd hclosed.2 htaken
  refine ⟨goUse_left hpc hin (h.parked.not_blocked hwaits) hclosed.1 hclosed.2, fun a u hu ha => ?_⟩
  simp only [Recycle.step, Option.map_eq_some_iff] at hu
  obtain ⟨v, hv, rfl⟩ := hu
  exact (call_moves hv).pc t ha (by simp [hpc])

end Steps

theorem start_sound {lib : Lib n} {heap : Nat → CountingSemaphore}
    (h : ∀ t, (lib.threadTable t).state ≠ .blocked ∧ (lib.threadTable t).blockedOnSemaphore = none) :
    Sound (Sys.start lib heap) := by
  refine ⟨⟨rfl, fun l _ _ hl => by cases l <;> cases hl⟩, ⟨fun t => ?_, fun t x ht => ?_⟩, fun _ => Nat.le_refl _,
    fun _ => Nat.le_refl _, nofun, nofun⟩
  · simp [Sys.start, h t]
  · have := (h t).2
    rw [show (lib.threadTable t).blockedOnSemaphore = some x from ht] at this
    cases this

def twoThreads : Lib 2 := ⟨fun _ => ⟨1, .running, 0, none, none⟩, fun _ => -1⟩

def anyHeap : Nat → CountingSemaphore := fun _ => ⟨0, 0, 0⟩

def freeWaiting : List (Act 2) :=
  [.allocSem 0 4096 0, .go 0, .go 0, .go 0, .go 0, .go 0, .down 1 4096, .go 1, .freeSem 0 4096, .go 0, .go 0, .go 0]

def allocAgain : List (Act 2) := [.allocSem 0 4096 1, .go 0, .go 0, .go 0, .go 0]

def resume : List (Act 2) := [.go 1, .go 1, .go 1, .go 1, .go 1]

end Xv6.Uthread.Recycle
