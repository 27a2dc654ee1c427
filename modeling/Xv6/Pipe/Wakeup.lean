import Xv6.Pipe.Fifo

/-!
# Sleeping readers and writers

Who sleeps on a pipe has seen that there is nothing to do, and whoever changes that wakes it.
-/

open Xv6.Bytes Xv6.Run

namespace Xv6.Pipe

variable {P : Type} {s t : Sys P} {p : P}

namespace Pc

def onNread : Pc → Bool
  | readSleep _ => true
  | _ => false

def onNwrite : Pc → Bool
  | writeSleep _ _ _ => true
  | _ => false

def storing : Pc → Bool
  | write _ _ _ => true
  | _ => false

def taking : Pc → Bool
  | copy _ _ => true
  | _ => false

@[simp] theorem onNread_wakeReader (pc : Pc) : pc.wakeReader.onNread = false := by cases pc <;> rfl
@[simp] theorem onNwrite_wakeReader (pc : Pc) : pc.wakeReader.onNwrite = pc.onNwrite := by cases pc <;> rfl
@[simp] theorem onNread_wakeWriter (pc : Pc) : pc.wakeWriter.onNread = pc.onNread := by cases pc <;> rfl
@[simp] theorem onNwrite_wakeWriter (pc : Pc) : pc.wakeWriter.onNwrite = false := by cases pc <;> rfl
@[simp] theorem storing_wakeReader (pc : Pc) : pc.wakeReader.storing = pc.storing := by cases pc <;> rfl
@[simp] theorem storing_wakeWriter (pc : Pc) : pc.wakeWriter.storing = pc.storing := by cases pc <;> rfl
@[simp] theorem taking_wakeReader (pc : Pc) : pc.wakeReader.taking = pc.taking := by cases pc <;> rfl
@[simp] theorem taking_wakeWriter (pc : Pc) : pc.wakeWriter.taking = pc.taking := by cases pc <;> rfl

def unstored : Pc → Bool
  | write _ n i => i < n
  | _ => false

theorem locked_of_storing {pc : Pc} (h : pc.storing = true) : pc.locked = true := by
  cases pc with
  | write => rfl
  | _ => cases h

theorem locked_of_taking {pc : Pc} (h : pc.taking = true) : pc.locked = true := by
  cases pc with
  | copy => rfl
  | _ => cases h

end Pc

namespace Sys

abbrev Empty (s : Sys P) : Prop := s.ring.nread = s.ring.nwrite

abbrev Full (s : Sys P) : Prop := s.ring.nwrite = s.ring.nread + BitVec.ofNat 32 pipesize

theorem not_empty_of_full (h : s.Full) : ¬s.Empty := by
  intro he
  rw [Full, ← he] at h
  exact absurd (left_eq_add.mp h) (by decide)

end Sys

def Awake (s : Sys P) : Prop :=
  s.lock = none →
    (∀ p, (s.pc p).onNread = true → s.Empty ∧ s.writeopen = true) ∧
    (∀ p, (s.pc p).onNwrite = true → s.Full ∧ s.readopen = true) ∧
    ¬∃ p q, (s.pc p).onNread = true ∧ (s.pc q).onNwrite = true

def Sys.GivesUp (s : Sys P) (p : P) : Prop := (s.pc p).unstored = true ∧ s.Full ∧ (¬s.readopen ∨ s.killed p)

/-- A writer that gives up on a full pipe leaves no reader asleep. -/
def Heard (s : Sys P) : Act P → Prop
  | .exec p => s.GivesUp p → ∀ q, (s.pc q).onNread = false
  | _ => True

instance (s : Sys P) (p : P) : Decidable (s.GivesUp p) :=
  inferInstanceAs (Decidable ((s.pc p).unstored = true ∧ s.Full ∧ (¬s.readopen ∨ s.killed p)))

instance [Fintype P] (s : Sys P) : ∀ a : Act P, Decidable (Heard s a)
  | .exec p => inferInstanceAs (Decidable (s.GivesUp p → ∀ q, (s.pc q).onNread = false))
  | .write _ _ _ | .read _ _ | .kill _ | .close _ => .isTrue trivial

/-- A sleeper's reason is there, unless the process with the lock is changing it. -/
structure Asleep (s : Sys P) : Prop where
  locked : ∀ p, (s.pc p).locked = true ↔ s.lock = some p
  reader : ∀ p, (s.pc p).onNread = true → s.writeopen = true ∧ (s.Empty ∨ ∃ q, (s.pc q).storing = true)
  writer : ∀ p, (s.pc p).onNwrite = true → s.readopen = true ∧ (s.Full ∨ ∃ q, (s.pc q).taking = true)

namespace Asleep

section

variable (h : Asleep s)
include h

theorem awake : Awake s := by
  intro hfree
  have hnot (q) : (s.pc q).locked ≠ true := fun hq => by
    rw [h.locked, hfree] at hq
    cases hq
  have hreader : ∀ p, (s.pc p).onNread = true → s.Empty ∧ s.writeopen = true := by
    intro p hp
    obtain ⟨hopen, hempty | ⟨q, hq⟩⟩ := h.reader p hp
    · exact ⟨hempty, hopen⟩
    · exact absurd (Pc.locked_of_storing hq) (hnot q)
  have hwriter : ∀ p, (s.pc p).onNwrite = true → s.Full ∧ s.readopen = true := by
    intro p hp
    obtain ⟨hopen, hfull | ⟨q, hq⟩⟩ := h.writer p hp
    · exact ⟨hfull, hopen⟩
    · exact absurd (Pc.locked_of_taking hq) (hnot q)
  refine ⟨hreader, hwriter, ?_⟩
  rintro ⟨p, q, hp, hq⟩
  exact Sys.not_empty_of_full (hwriter q hq).1 (hreader p hp).1

theorem keep (hring : t.ring = s.ring) (hlock : t.lock = s.lock)
    (hlocked : ∀ p, (t.pc p).locked = (s.pc p).locked)
    (hstoring : ∀ p, (t.pc p).storing = (s.pc p).storing) (htaking : ∀ p, (t.pc p).taking = (s.pc p).taking)
    (hreader : ∀ p, (t.pc p).onNread = true → (s.pc p).onNread = true ∧ t.writeopen = s.writeopen)
    (hwriter : ∀ p, (t.pc p).onNwrite = true → (s.pc p).onNwrite = true ∧ t.readopen = s.readopen) : Asleep t := by
  refine ⟨fun p => by rw [hlocked, hlock]; exact h.locked p, fun p hp => ?_, fun p hp => ?_⟩
  · obtain ⟨hs, hopen⟩ := hreader p hp
    simp only [Sys.Empty, hring, hopen, hstoring]
    exact h.reader p hs
  · obtain ⟨hs, hopen⟩ := hwriter p hp
    simp only [Sys.Full, hring, hopen, htaking]
    exact h.writer p hs

theorem wakeReaders : Asleep s.wakeReaders := by
  refine h.keep rfl rfl (fun p => ?_) (fun p => ?_) (fun p => ?_) (fun p hp => ?_) fun p hp => ⟨?_, rfl⟩
  all_goals simp_all [Sys.wakeReaders]

theorem wakeWriters : Asleep s.wakeWriters := by
  refine h.keep rfl rfl (fun p => ?_) (fun p => ?_) (fun p => ?_) (fun p hp => ⟨?_, rfl⟩) fun p hp => ?_
  all_goals simp_all [Sys.wakeWriters]

theorem not_locked {q : P} (hq : s.lock ≠ some q) : (s.pc q).locked = false := by
  rw [Bool.eq_false_iff, Ne, h.locked]
  exact hq

theorem empty (hlock : ∀ q, s.lock = some q → (s.pc q).storing = false) {q : P}
    (hq : (s.pc q).onNread = true) : s.Empty ∧ s.writeopen = true := by
  obtain ⟨hopen, hempty | ⟨r, hr⟩⟩ := h.reader q hq
  · exact ⟨hempty, hopen⟩
  · rw [hlock r ((h.locked r).mp (Pc.locked_of_storing hr))] at hr
    cases hr

theorem full (hlock : ∀ q, s.lock = some q → (s.pc q).taking = false) {q : P}
    (hq : (s.pc q).onNwrite = true) : s.Full ∧ s.readopen = true := by
  obtain ⟨hopen, hfull | ⟨r, hr⟩⟩ := h.writer q hq
  · exact ⟨hfull, hopen⟩
  · rw [hlock r ((h.locked r).mp (Pc.locked_of_taking hr))] at hr
    cases hr

end

variable [DecidableEq P]

theorem acquire (h : Asleep s) (hlock : s.lock = none) {pc : Pc} (hpc : pc.locked = true) (hread : pc.onNread = false)
    (hwrite : pc.onNwrite = false) : Asleep { s.goto p pc with lock := some p } := by
  have hnone (q) (hq : s.lock = some q) : False := by
    rw [hlock] at hq
    cases hq
  refine ⟨fun q => ?_, fun q hq => ?_, fun q hq => ?_⟩
  · by_cases he : q = p
    · subst he
      simp [Sys.goto, hpc]
    · simp [Sys.goto, he, Ne.symm he, h.not_locked (fun hq => hnone q hq)]
  · by_cases he : q = p
    · simp [Sys.goto, he, hread] at hq
    · have := h.empty (fun q hq => (hnone q hq).elim) (q := q) (by simpa [Sys.goto, he] using hq)
      exact ⟨this.2, .inl this.1⟩
  · by_cases he : q = p
    · simp [Sys.goto, he, hwrite] at hq
    · have := h.full (fun q hq => (hnone q hq).elim) (q := q) (by simpa [Sys.goto, he] using hq)
      exact ⟨this.2, .inl this.1⟩

theorem goto (h : Asleep s) (hp : s.lock = some p) {pc : Pc} (hpc : pc.locked = true) (ring : Ring pipesize 32 Byte)
    (stored : List Byte)
    (hread : ∀ q, q ≠ p → (s.pc q).onNread = true →
      s.writeopen = true ∧ (ring.nread = ring.nwrite ∨ pc.storing = true))
    (hwrite : ∀ q, q ≠ p → (s.pc q).onNwrite = true →
      s.readopen = true ∧ (ring.nwrite = ring.nread + BitVec.ofNat 32 pipesize ∨ pc.taking = true))
    (hnread : pc.onNread = false) (hnwrite : pc.onNwrite = false) :
    Asleep { s.goto p pc with ring := ring, stored := stored } := by
  refine ⟨fun q => ?_, fun q hq => ?_, fun q hq => ?_⟩
  · by_cases he : q = p
    · subst he
      simp [Sys.goto, hpc, hp]
    · simpa [Sys.goto, he] using h.locked q
  · by_cases he : q = p
    · simp [Sys.goto, he, hnread] at hq
    · refine (hread q he (by simpa [Sys.goto, he] using hq)).imp_right (.imp_right fun hs => ⟨p, ?_⟩)
      simpa [Sys.goto] using hs
  · by_cases he : q = p
    · simp [Sys.goto, he, hnwrite] at hq
    · refine (hwrite q he (by simpa [Sys.goto, he] using hq)).imp_right (.imp_right fun hs => ⟨p, ?_⟩)
      simpa [Sys.goto] using hs

theorem release (h : Asleep s) (hp : s.lock = some p) {pc : Pc} (hpc : pc.locked = false) (ret : P → Int)
    (returned : List Byte)
    (hread : ∀ q, ((s.goto p pc).pc q).onNread = true → s.Empty ∧ s.writeopen = true)
    (hwrite : ∀ q, ((s.goto p pc).pc q).onNwrite = true → s.Full ∧ s.readopen = true) :
    Asleep { s.goto p pc with lock := none, ret := ret, returned := returned } := by
  refine ⟨fun q => ?_, fun q hq => ?_, fun q hq => ?_⟩
  · by_cases he : q = p
    · subst he
      simp [Sys.goto, hpc]
    · have hnot := h.not_locked (q := q) (by rw [hp]; simpa using Ne.symm he)
      simp [Sys.goto, he, hnot]
  · exact ⟨(hread q hq).2, .inl (hread q hq).1⟩
  · exact ⟨(hwrite q hq).2, .inl (hwrite q hq).1⟩

end Asleep

variable [DecidableEq P]

theorem pipewrite_asleep (h : Asleep s) {addr : List Byte} {n : Int} {i : Nat} (hpc : s.pc p = .write addr n i)
    (hok : s.GivesUp p → ∀ q, (s.pc q).onNread = false) : Asleep (pipewrite s p addr n i) := by
  have hp : s.lock = some p := (h.locked p).mp (by rw [hpc]; rfl)
  -- this process stores, so that whoever sleeps on `nwrite` has seen a full pipe
  have hfull {q : P} : (s.pc q).onNwrite = true → s.Full ∧ s.readopen = true := h.full fun q hq => by
    rw [hp, Option.some.injEq] at hq
    rw [← hq, hpc]
    rfl
  unfold pipewrite
  split
  case isTrue hi =>
    split
    case isTrue hisfull =>
      split
      case isTrue hgive =>
        have hnobody := hok ⟨by simpa [hpc, Pc.unstored] using hi, hisfull, hgive⟩
        refine h.release hp rfl _ _ (fun q hq => ?_) fun q hq => ?_
        · by_cases he : q = p
          · simp [Sys.goto, he, Pc.onNread] at hq
          · simp [Sys.goto, he, hnobody q] at hq
        · by_cases he : q = p
          · simp [Sys.goto, he, Pc.onNwrite] at hq
          · exact hfull (by simpa [Sys.goto, he] using hq)
      case isFalse hgo =>
        refine h.wakeReaders.release hp rfl _ _ (fun q hq => ?_) fun q hq => ?_
        · by_cases he : q = p
          · simp [Sys.goto, he, Pc.onNread] at hq
          · simp [Sys.goto, he, Sys.wakeReaders] at hq
        · have hopen : s.readopen = true := by simpa using (not_or.mp hgo).1
          exact ⟨hisfull, hopen⟩
    case isFalse hroom =>
      refine h.goto hp rfl _ _ (fun q _ hq => ⟨(h.reader q hq).1, .inr rfl⟩) (fun q _ hq => ?_) rfl rfl
      exact absurd (hfull hq).1 hroom
  case isFalse =>
    refine h.wakeReaders.release hp rfl _ _ (fun q hq => ?_) fun q hq => ?_
    · by_cases he : q = p
      · simp [Sys.goto, he, Pc.onNread] at hq
      · simp [Sys.goto, he, Sys.wakeReaders] at hq
    · by_cases he : q = p
      · simp [Sys.goto, he, Pc.onNwrite] at hq
      · exact hfull (by simpa [Sys.goto, he, Sys.wakeReaders] using hq)

theorem pipereadWait_asleep (h : Asleep s) {n : Int} (hpc : s.pc p = .read n) : Asleep (pipereadWait s p n) := by
  have hp : s.lock = some p := (h.locked p).mp (by rw [hpc]; rfl)
  have hholder {q : P} (hq : s.lock = some q) : s.pc q = .read n := by
    rw [hp, Option.some.injEq] at hq
    rw [← hq, hpc]
  have hempty {q : P} : (s.pc q).onNread = true → s.Empty ∧ s.writeopen = true :=
    h.empty fun q hq => by rw [hholder hq]; rfl
  have hfull {q : P} : (s.pc q).onNwrite = true → s.Full ∧ s.readopen = true :=
    h.full fun q hq => by rw [hholder hq]; rfl
  unfold pipereadWait
  split
  case isTrue hwait =>
    split
    · refine h.release hp rfl _ _ (fun q hq => hwait) fun q hq => ?_
      by_cases he : q = p
      · simp [Sys.goto, he, Pc.onNwrite] at hq
      · exact hfull (by simpa [Sys.goto, he] using hq)
    · refine h.release hp rfl _ _ (fun q hq => hwait) fun q hq => ?_
      by_cases he : q = p
      · simp [Sys.goto, he, Pc.onNwrite] at hq
      · exact hfull (by simpa [Sys.goto, he] using hq)
  case isFalse =>
    exact h.goto hp rfl s.ring s.stored (fun q _ hq => ⟨(hempty hq).2, .inl (hempty hq).1⟩)
      (fun q _ hq => ⟨(hfull hq).2, .inr rfl⟩) rfl rfl

theorem pipereadCopy_asleep (h : Asleep s) {n : Int} {bytes : List Byte} (hpc : s.pc p = .copy n bytes) :
    Asleep (pipereadCopy s p n bytes) := by
  have hp : s.lock = some p := (h.locked p).mp (by rw [hpc]; rfl)
  -- this process takes, so that whoever sleeps on `nread` has seen an empty pipe
  have hempty {q : P} : (s.pc q).onNread = true → s.Empty ∧ s.writeopen = true := h.empty fun q hq => by
    rw [hp, Option.some.injEq] at hq
    rw [← hq, hpc]
    rfl
  unfold pipereadCopy
  split
  case isTrue hmore =>
    refine h.goto hp rfl _ s.stored (fun q _ hq => absurd (hempty hq).1 hmore.2) (fun q _ hq => ?_) rfl rfl
    exact ⟨(h.writer q hq).1, .inr rfl⟩
  case isFalse =>
    refine h.wakeWriters.release hp rfl _ _ (fun q hq => ?_) fun q hq => ?_
    · by_cases he : q = p
      · simp [Sys.goto, he, Pc.onNread] at hq
      · exact hempty (by simpa [Sys.goto, he, Sys.wakeWriters] using hq)
    · by_cases he : q = p
      · simp [Sys.goto, he, Pc.onNwrite] at hq
      · simp [Sys.goto, he, Sys.wakeWriters] at hq

theorem exec_asleep (h : Asleep s) (hok : Heard s (.exec p)) (ht : exec s p = some t) : Asleep t := by
  unfold exec at ht
  split at ht
  case h_1 => cases ht
  case h_2 => cases ht
  case h_3 => cases ht
  case h_4 =>
    obtain ⟨hlock, ⟨⟩⟩ := Option.ite_none_right_eq_some.mp ht
    exact h.acquire hlock rfl rfl rfl
  case h_5 =>
    obtain ⟨hlock, ⟨⟩⟩ := Option.ite_none_right_eq_some.mp ht
    exact h.acquire hlock rfl rfl rfl
  case h_6 hpc =>
    cases ht
    exact pipewrite_asleep h hpc hok
  case h_7 hpc =>
    cases ht
    exact pipereadWait_asleep h hpc
  case h_8 hpc =>
    cases ht
    exact pipereadCopy_asleep h hpc

theorem Asleep.outside (h : Asleep s) {pc : Pc} (hold : (s.pc p).locked = false) (hnew : pc.locked = false)
    (hread : pc.onNread = false) (hwrite : pc.onNwrite = false) : Asleep (s.goto p pc) := by
  have hquiet {x : Pc} (hx : x.locked = false) : x.storing = false ∧ x.taking = false := by
    simp only [Bool.eq_false_iff] at hx ⊢
    exact ⟨fun hs => hx (Pc.locked_of_storing hs), fun hs => hx (Pc.locked_of_taking hs)⟩
  refine h.keep rfl rfl (fun q => ?_) (fun q => ?_) (fun q => ?_) (fun q hq => ⟨?_, rfl⟩) fun q hq => ⟨?_, rfl⟩
  all_goals
    by_cases he : q = p
    · simp_all [Sys.goto]
    · simp_all [Sys.goto]

theorem step_asleep {a : Act P} (h : Asleep s) (hok : Heard s a) (ht : step s a = some t) : Asleep t := by
  cases a with
  | write p addr n =>
    obtain ⟨⟨hpc, -⟩, ⟨⟩⟩ := Option.ite_none_right_eq_some.mp ht
    exact h.outside (by rw [hpc]; rfl) rfl rfl rfl
  | read p n =>
    obtain ⟨⟨hpc, -⟩, ⟨⟩⟩ := Option.ite_none_right_eq_some.mp ht
    exact h.outside (by rw [hpc]; rfl) rfl rfl rfl
  | exec p => exact exec_asleep h hok ht
  | kill p =>
    cases ht
    refine h.keep rfl rfl (fun q => ?_) (fun q => ?_) (fun q => ?_) (fun q hq => ⟨?_, rfl⟩) fun q hq => ⟨?_, rfl⟩
    all_goals
      by_cases he : q = p
      · simp_all [Sys.goto]
      · simp_all [Sys.goto]
  | close writable =>
    obtain ⟨hlock, ⟨⟩⟩ := Option.ite_none_right_eq_some.mp ht
    unfold pipeclose
    split
    · refine h.keep rfl rfl (fun q => ?_) (fun q => ?_) (fun q => ?_) (fun q hq => ?_) fun q hq => ⟨?_, rfl⟩
      all_goals simp_all [Sys.wakeReaders]
    · refine h.keep rfl rfl (fun q => ?_) (fun q => ?_) (fun q => ?_) (fun q hq => ⟨?_, rfl⟩) fun q hq => ?_
      all_goals simp_all [Sys.wakeWriters]

theorem heard_of_awake {a : Act P} (ht : step s a = some t) (hawake : Awake t) : Heard s a := by
  cases a with
  | exec p =>
    rintro ⟨hleft, hfull, hgive⟩ q
    rw [Bool.eq_false_iff]
    intro hq
    obtain ⟨addr, n, i, hpc, hi⟩ : ∃ addr n i, s.pc p = .write addr n i ∧ (i : Int) < n := by
      cases hpc : s.pc p with
      | write addr n i => exact ⟨addr, n, i, rfl, by simpa [hpc, Pc.unstored] using hleft⟩
      | _ => simp [hpc, Pc.unstored] at hleft
    simp only [step, exec, hpc, pipewrite, if_pos hi, if_pos hfull, if_pos hgive, Option.some.injEq] at ht
    subst ht
    have hne : q ≠ p := by
      rintro rfl
      simp [hpc, Pc.onNread] at hq
    have hasleep : ((s.leave p (-1)).pc q).onNread = true := by simpa [Sys.leave, Sys.goto, hne] using hq
    exact Sys.not_empty_of_full hfull ((hawake rfl).1 q hasleep).1
  | _ => trivial

omit [DecidableEq P] in
theorem fresh_asleep (h : Fresh s) : Asleep s := by
  refine ⟨fun p => ?_, fun p hp => ?_, fun p hp => ?_⟩
  · simp [h.idle p, h.lock, Pc.locked]
  · simp [h.idle p, Pc.onNread] at hp
  · simp [h.idle p, Pc.onNwrite] at hp

/-- Nobody sleeps without a reason if and only if no writer gives up on a full pipe while a reader sleeps. -/
theorem no_lost_wakeup_iff (hs : Fresh s) (as : List (Act P)) : Always step Awake s as ↔ Along step Heard s as :=
  ⟨along_of_always (fun _ _ _ h hok ht => step_asleep h hok ht) (fun _ _ _ _ ht hawake => heard_of_awake ht hawake)
    (fresh_asleep hs),
   always_of_along (fun _ _ _ h hok ht => step_asleep h hok ht) (fun _ => Asleep.awake) (fresh_asleep hs)⟩

theorem wakeAndRead_awake : Along step Heard newPipe wakeAndRead ∧ Always step Awake newPipe wakeAndRead := by
  have hok : Along step Heard newPipe wakeAndRead := by decide
  exact ⟨hok, (no_lost_wakeup_iff newPipe_fresh wakeAndRead).mpr hok⟩

def killedWriter : List (Act Bool) :=
  [Act.read false 1, .exec false, .exec false, .write true (List.replicate 513 7) 513] ++
    List.replicate 513 (Act.exec true) ++ [Act.kill true, .exec true]

theorem killedWriter_sleeps : ¬Always step Awake newPipe killedWriter := by
  intro h
  have hrun : (run step newPipe killedWriter).map (fun t => (t.lock, t.pc false, t.ring.nread, t.ring.nwrite)) =
      some (none, .readSleep 1, 0, 512) := by
    decide +kernel
  obtain ⟨t, ht, hend⟩ := Option.map_eq_some_iff.mp hrun
  simp only [Prod.mk.injEq] at hend
  obtain ⟨hlock, hpc, hnread, hnwrite⟩ := hend
  have hempty := ((h.last ht hlock).1 false (by rw [hpc]; rfl)).1
  rw [Sys.Empty, hnread, hnwrite] at hempty
  exact absurd hempty (by decide)

end Xv6.Pipe
