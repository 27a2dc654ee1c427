import Xv6.Console.Spec

/-!
# The console keeps to its line discipline

Every step of the console is the same step of the reference.
-/

open Function Xv6.Bytes Xv6.Run

namespace Xv6.Console

variable {i : Input} {x : Editor}

def Input.ring (i : Input) : Ring inputBuf 32 Byte := ⟨i.buf, i.r, i.e⟩

structure Shows (i : Input) (x : Editor) : Prop where
  holds : i.ring.Holds (x.committed ++ x.pending)
  w : i.w = i.r + BitVec.ofNat 32 x.committed.length
  line : newline ∉ x.pending

theorem inputBuf_lt : inputBuf < 2 ^ 32 := by decide

namespace Shows

variable (h : Shows i x)
include h

theorem length_le : x.committed.length + x.pending.length ≤ inputBuf := by
  rw [← List.length_append]
  exact h.holds.fits

theorem sub_r : (i.e - i.r).toNat = (x.committed ++ x.pending).length := by
  have hlt := h.holds.fits.trans_lt inputBuf_lt
  have he : i.e = i.r + _ := h.holds.count
  rw [he, BitVec.add_comm, BitVec.add_sub_cancel, BitVec.toNat_ofNat, Nat.mod_eq_of_lt hlt]

theorem w_sub_r : (i.w - i.r).toNat = x.committed.length := by
  have hle := h.length_le
  have hlt := inputBuf_lt
  rw [h.w, BitVec.add_comm, BitVec.add_sub_cancel, BitVec.toNat_ofNat, Nat.mod_eq_of_lt (by omega)]

theorem sub_w : (i.e - i.w).toNat = x.pending.length := by
  have hback := (h.holds.back h.w).count
  have hlt := (h.holds.back h.w).fits.trans_lt inputBuf_lt
  have he : i.e = i.w + _ := hback
  rw [he, BitVec.add_comm, BitVec.add_sub_cancel, BitVec.toNat_ofNat, Nat.mod_eq_of_lt hlt]

theorem empty_iff : i.r = i.w ↔ x.committed = [] := (h.holds.front h.w).empty_iff inputBuf_lt

theorem edited_iff : i.e = i.w ↔ x.pending = [] :=
  eq_comm.trans ((h.holds.back h.w).empty_iff inputBuf_lt)

theorem room_iff : i.e - i.r < BitVec.ofNat 32 inputBuf ↔ (x.committed ++ x.pending).length < inputBuf := by
  rw [BitVec.lt_def, h.sub_r]
  rfl

/-! ## Editing -/

theorem back_up {line : List Byte} {c : Byte} (hp : x.pending = line ++ [c]) :
    i.buf (Ring.place (i.e - 1)) = c ∧ Shows { i with e := i.e - 1 } { x with pending := line } := by
  have hholds := h.holds
  have hline := h.line
  rw [hp, ← List.append_assoc] at hholds
  rw [hp] at hline
  exact ⟨hholds.unstore.1, hholds.unstore.2, h.w, fun hm => hline (List.mem_append_left _ hm)⟩

theorem killLine {n : Nat} (hn : x.pending.length = n) : Shows (killLine n i) { x with pending := [] } := by
  induction n generalizing i x with
  | zero =>
    rw [List.length_eq_zero_iff] at hn
    rw [← hn]
    exact h
  | succ n ih =>
    obtain ⟨line, c, hp⟩ := (List.eq_nil_or_concat' x.pending).resolve_left (List.ne_nil_of_length_eq_add_one hn)
    obtain ⟨hc, hback⟩ := h.back_up hp
    have hne : ¬i.e = i.w := by
      rw [h.edited_iff, hp]
      simp
    have hline : c ≠ newline := by
      rintro rfl
      exact h.line (by rw [hp]; simp)
    rw [Console.killLine, if_pos ⟨hne, by rw [hc]; exact hline⟩]
    rw [hp, List.length_append, List.length_singleton] at hn
    exact ih (x := { x with pending := line }) hback (Nat.succ.inj hn)

theorem accept (hroom : (x.committed ++ x.pending).length < inputBuf) (c : Byte) :
    let j := { i with buf := update i.buf (Ring.place i.e) c, e := i.e + 1 }
    Shows (if c = newline ∨ c = ctrlD ∨ j.e = j.r + BitVec.ofNat 32 inputBuf then { j with w := j.e } else j)
      (x.accept c) := by
  intro j
  have hstore : j.ring.Holds (x.committed ++ (x.pending ++ [c])) := by
    rw [← List.append_assoc]
    exact h.holds.store (by decide) hroom
  have hfull : (c = newline ∨ c = ctrlD ∨ j.e = j.r + BitVec.ofNat 32 inputBuf) ↔
      (c = newline ∨ c = ctrlD ∨ (x.committed ++ (x.pending ++ [c])).length = inputBuf) :=
    or_congr_right (or_congr_right (hstore.full_iff inputBuf_lt))
  unfold Editor.accept
  by_cases hends : c = newline ∨ c = ctrlD ∨ (x.committed ++ (x.pending ++ [c])).length = inputBuf
  · rw [if_pos (hfull.mpr hends), if_pos hends]
    refine ⟨?_, hstore.count, List.not_mem_nil⟩
    rw [Editor.commit, List.append_nil]
    exact hstore
  · rw [if_neg (mt hfull.mp hends), if_neg hends]
    refine ⟨hstore, h.w, fun hm => ?_⟩
    rcases List.mem_append.mp hm with hm | hm
    · exact h.line hm
    · exact hends (.inl (List.mem_singleton.mp hm).symm)

theorem intr (c : Byte) : Shows (consoleintr i c) (x.intr c) := by
  unfold consoleintr Editor.intr
  by_cases hP : c = ctrlP
  · rw [if_pos hP, if_pos (.inl hP)]
    exact h
  rw [if_neg hP]
  by_cases hzero : c = 0
  · subst hzero
    simpa [ctrlU, ctrlH, delete] using h
  rw [if_neg (not_or.mpr ⟨hP, hzero⟩)]
  by_cases hU : c = ctrlU
  · rw [if_pos hU, if_pos hU]
    exact h.killLine h.sub_w.symm
  rw [if_neg hU, if_neg hU]
  by_cases hH : c = ctrlH ∨ c = delete
  · rw [if_pos hH, if_pos hH]
    rcases List.eq_nil_or_concat' x.pending with hp | ⟨line, d, hp⟩
    · rw [if_neg (not_not.mpr (h.edited_iff.mpr hp)), hp, List.dropLast_nil, ← hp]
      exact h
    · have hne : i.e ≠ i.w := fun he => by simp [h.edited_iff.mp he] at hp
      rw [if_pos hne, hp, List.dropLast_concat]
      exact (h.back_up hp).2
  rw [if_neg hH, if_neg hH]
  by_cases hroom : (x.committed ++ x.pending).length < inputBuf
  · rw [if_pos ⟨hzero, h.room_iff.mpr hroom⟩, if_pos hroom]
    exact h.accept hroom _
  · rw [if_neg (fun hc => hroom (h.room_iff.mp hc.2)), if_neg hroom]
    exact h

theorem take {c : Byte} {rest : List Byte} (hc : x.committed = c :: rest) :
    i.buf (Ring.place i.r) = c ∧ Shows { i with r := i.r + 1 } { x with committed := rest } := by
  have hholds := h.holds
  rw [hc, List.cons_append] at hholds
  have hw := h.w
  rw [hc, List.length_cons, Nat.add_comm, BitVec.ofNat_add, ← add_assoc] at hw
  exact ⟨hholds.take.1, hholds.take.2, hw, h.line⟩

end Shows

/-! ## Steps -/

variable {P : Type} [DecidableEq P] {s s' : Sys P} {t t' : Ref P}

def Reading.code (x : Reading) : Reader := ⟨x.n, x.n - x.got.length, x.got⟩

/-- A killed call returns -1, another one the number of its bytes. -/
structure Matches (c : Call P) (a : Answer P) : Prop where
  proc : c.proc = a.proc
  size : c.size = a.size
  value : c.value = (a.bytes.map fun bs => (bs.length : Int)).getD (-1)
  dst : ∀ bs, a.bytes = some bs → c.dst = bs

structure Agrees (s : Sys P) (t : Ref P) : Prop where
  shows : Shows s.input t.editor
  reader : ∀ p, s.reader p = (t.reading p).map Reading.code
  calls : List.Forall₂ Matches s.calls t.answers

theorem forall₂_concat {α β : Type} {R : α → β → Prop} {as : List α} {bs : List β} (h : List.Forall₂ R as bs) {a : α}
    {b : β} (hab : R a b) : List.Forall₂ R (as ++ [a]) (bs ++ [b]) :=
  List.rel_append h (.cons hab .nil)

namespace Agrees

variable (h : Agrees s t) {p : P}
include h

theorem reader_update (y : Option Reading) (q : P) : update s.reader p (y.map Reading.code) q =
    (update t.reading p y q).map Reading.code := by
  by_cases hq : q = p
  · subst hq
    rw [update_self, update_self]
  · rw [update_of_ne hq, update_of_ne hq, h.reader]

theorem finish {i : Input} {x : Editor} (hshows : Shows i x) {c : Call P} {size : Int} {bytes : Option (List Byte)}
    (hm : Matches c ⟨p, size, bytes⟩) :
    Agrees ⟨i, update s.reader p none, s.calls ++ [c]⟩ (Ref.finish { t with editor := x } p size bytes) :=
  ⟨hshows, h.reader_update none, forall₂_concat h.calls hm⟩

omit h in
theorem readTurn_eq {i : Input} {e : Editor} (hs : Shows i e) {c : Byte} {rest : List Byte}
    (hc : e.committed = c :: rest) (x : Reading) :
    readTurn i x.code = some (if c = ctrlD then (if x.got = [] then { i with r := i.r + 1 } else i, x.code, true)
      else ({ i with r := i.r + 1 }, ⟨x.n, x.n - (x.got.length + 1), x.got ++ [c]⟩,
        decide (c = newline ∨ x.n - (x.got.length + 1) = 0))) := by
  have hne : i.r ≠ i.w := fun he => by simp [hs.empty_iff.mp he] at hc
  have hroom := x.room
  unfold readTurn
  rw [if_neg hne, (hs.take hc).1]
  by_cases hD : c = ctrlD
  · have hpart : x.code.n < x.code.target ↔ x.got ≠ [] := by
      rw [← List.length_pos_iff]
      simp only [Reading.code]
      omega
    rw [if_pos hD, if_pos hD]
    by_cases hgot : x.got = []
    · rw [if_neg (mt hpart.mp (not_not.mpr hgot)), if_pos hgot]
    · rw [if_pos (hpart.mpr hgot), if_neg hgot, BitVec.add_sub_cancel]
  · rw [if_neg hD, if_neg hD]
    rfl

theorem turn : Option.Rel Agrees (step s (.turn p)) (t.step (.turn p)) := by
  change Option.Rel Agrees (s.reader p >>= fun x => (readTurn s.input x).map (s.afterTurn p))
    (t.reading p >>= fun x => t.take p x t.editor.committed)
  rw [h.reader p]
  cases hx : t.reading p with
  | none => exact .none
  | some x =>
    have hroom := x.room
    change Option.Rel Agrees ((readTurn s.input x.code).map (s.afterTurn p)) (t.take p x t.editor.committed)
    cases hc : t.editor.committed with
    | nil =>
      rw [readTurn, if_pos (h.shows.empty_iff.mpr hc)]
      exact .none
    | cons c rest =>
      have htake := (h.shows.take hc).2
      rw [readTurn_eq h.shows hc]
      dsimp only [Ref.take]
      by_cases hD : c = ctrlD
      · have hm : Matches ⟨p, x.n, (x.n : Int) - (x.n - x.got.length : Nat), x.got⟩ ⟨p, x.n, some x.got⟩ :=
          ⟨rfl, rfl, by simp only [Option.map_some, Option.getD_some]; omega, fun _ hbs => Option.some.inj hbs⟩
        rw [if_pos hD, if_pos hD]
        by_cases hgot : x.got = []
        · rw [if_pos hgot, if_pos hgot]
          exact .some (h.finish htake hm)
        · rw [if_neg hgot, if_neg hgot]
          exact .some (h.finish h.shows hm)
      · rw [if_neg hD, if_neg hD]
        have hlast : (c = newline ∨ x.n - (x.got.length + 1) = 0) ↔ ¬(c ≠ newline ∧ x.got.length + 1 < x.n) := by
          rw [not_and_or, not_not]
          exact or_congr_right (by omega)
        by_cases hon : c ≠ newline ∧ x.got.length + 1 < x.n
        · rw [dif_pos hon, decide_eq_false (mt hlast.mp (not_not.mpr hon))]
          have hgoes := h.reader_update (p := p) (some ⟨x.n, x.got ++ [c], by simpa using hon.2⟩)
          refine .some ⟨htake, fun q => (hgoes q).symm ▸ ?_, h.calls⟩
          simp [Sys.afterTurn, Reading.code]
        · rw [dif_neg hon, decide_eq_true (hlast.mpr hon)]
          refine .some (h.finish htake ⟨rfl, rfl, ?_, fun _ hbs => Option.some.inj hbs⟩)
          simp only [Option.map_some, Option.getD_some, List.length_append, List.length_singleton]
          omega

theorem step (a : Act P) : Option.Rel Agrees (Console.step s a) (t.step a) := by
  cases a with
  | intr c => exact .some ⟨h.shows.intr c, h.reader, h.calls⟩
  | turn p => exact h.turn
  | read p n =>
    unfold Console.step Ref.step
    simp only [h.reader p, Option.isSome_map]
    by_cases hbusy : (t.reading p).isSome = true
    · rw [if_pos hbusy, if_pos hbusy]
      exact .none
    · rw [if_neg hbusy, if_neg hbusy]
      by_cases hn : n ≤ 0
      · rw [if_pos hn, dif_neg (by omega)]
        exact .some ⟨h.shows, h.reader, forall₂_concat h.calls ⟨rfl, rfl, rfl, fun _ hbs => Option.some.inj hbs⟩⟩
      · rw [if_neg hn, dif_pos (by omega)]
        exact .some ⟨h.shows, h.reader_update (some ⟨n.toNat, [], _⟩), h.calls⟩
  | killed p =>
    change Option.Rel Agrees (s.reader p >>= _) (t.reading p >>= _)
    rw [h.reader p]
    cases hx : t.reading p with
    | none => exact .none
    | some x =>
      change Option.Rel Agrees (if s.input.r = s.input.w then _ else _) (if t.editor.committed = [] then _ else _)
      by_cases hempty : t.editor.committed = []
      · rw [if_pos (h.shows.empty_iff.mpr hempty), if_pos hempty]
        exact .some (h.finish h.shows ⟨rfl, rfl, rfl, nofun⟩)
      · rw [if_neg (mt h.shows.empty_iff.mp hempty), if_neg hempty]
        exact .none

theorem run (as : List (Act P)) : Option.Rel Agrees (Run.run Console.step s as) (Run.run Ref.step t as) := by
  induction as generalizing s t with
  | nil => exact .some h
  | cons a as ih =>
    have hstep := h.step a
    rw [Run.run, Run.run]
    generalize Console.step s a = s', t.step a = t' at hstep ⊢
    cases hstep with
    | none => exact .none
    | some hnext => exact ih hnext

end Agrees

omit [DecidableEq P] in
theorem agrees_init : Agrees (P := P) .init .init :=
  ⟨⟨Ring.holds_nil rfl, rfl, List.not_mem_nil⟩, fun _ => rfl, .nil⟩

/-! ## The reference -/

def Answer.Fits (a : Answer P) : Prop :=
  ∀ bs, a.bytes = some bs → bs.length ≤ a.size.toNat ∧ newline ∉ bs.dropLast ∧ ctrlD ∉ bs

def Answer.isEof (a : Answer P) : Bool := decide (0 < a.size) && decide (a.bytes = some [])

/-- A reader that goes on has got no newline, and each `^D` that is gone has ended one read. -/
structure Orderly (t : Ref P) : Prop where
  reading : ∀ p x, t.reading p = some x → newline ∉ x.got ∧ ctrlD ∉ x.got
  fits : ∀ a ∈ t.answers, a.Fits
  eofs : t.editor.typed.count ctrlD = t.editor.committed.count ctrlD + t.answers.countP Answer.isEof

theorem count_intr (x : Editor) (c : Byte) : (x.intr c).typed.count ctrlD + x.committed.count ctrlD =
    x.typed.count ctrlD + (x.intr c).committed.count ctrlD := by
  have haccept : ∀ d, (x.accept d).typed.count ctrlD + x.committed.count ctrlD =
      x.typed.count ctrlD + (x.accept d).committed.count ctrlD := by
    intro d
    dsimp only [Editor.accept]
    split_ifs
    · simp only [Editor.commit, List.count_append]
      omega
    · rfl
  unfold Editor.intr
  split_ifs <;> first | exact haccept _ | rfl

namespace Orderly

variable (h : Orderly t) {p : P}
include h

theorem reading_update {y : Option Reading} (hy : ∀ x, y = some x → newline ∉ x.got ∧ ctrlD ∉ x.got) (q : P)
    (x : Reading) (hx : update t.reading p y q = some x) : newline ∉ x.got ∧ ctrlD ∉ x.got := by
  by_cases hq : q = p
  · subst hq
    rw [update_self] at hx
    exact hy x hx
  · rw [update_of_ne hq] at hx
    exact h.reading q x hx

theorem finish {x : Editor} {size : Int} {bytes : Option (List Byte)} (hfits : Answer.Fits ⟨p, size, bytes⟩)
    (heof : x.typed.count ctrlD = x.committed.count ctrlD + t.answers.countP Answer.isEof +
      (Answer.isEof ⟨p, size, bytes⟩).toNat) : Orderly (Ref.finish { t with editor := x } p size bytes) where
  reading := h.reading_update nofun
  fits := fun a ha => by
    rcases List.mem_append.mp ha with ha | ha
    · exact h.fits a ha
    · rwa [List.mem_singleton.mp ha]
  eofs := by
    refine heof.trans ?_
    rw [Nat.add_assoc, Ref.finish, List.countP_append, List.countP_singleton]
    cases Answer.isEof (⟨p, size, bytes⟩ : Answer P) <;> rfl

theorem take {x : Reading} (hx : t.reading p = some x) {q : List Byte} (hq : t.editor.committed = q)
    (hstep : t.take p x q = some t') : Orderly t' := by
  obtain ⟨hnl, heot⟩ := h.reading p x hx
  have hroom := x.room
  have hcount := h.eofs
  cases q with
  | nil => cases hstep
  | cons c rest =>
    dsimp only [Ref.take] at hstep
    rw [hq, List.count_cons] at hcount
    have hgot : Answer.Fits ⟨p, x.n, some x.got⟩ := fun bs hbs => by
      cases hbs
      exact ⟨by simp; omega, fun hm => hnl (List.mem_of_mem_dropLast hm), heot⟩
    split_ifs at hstep with hD hempty hon
    · cases hstep
      refine h.finish hgot ?_
      have hpos : (0 : Int) < x.n := by omega
      simp only [hD, BEq.rfl, ↓reduceIte] at hcount
      simp only [Answer.isEof, hempty, hpos, hcount, decide_true, Bool.and_self, Bool.toNat_true]
      omega
    · cases hstep
      refine h.finish hgot ?_
      rw [hq, hcount, List.count_cons]
      simp [Answer.isEof, hempty]
    · cases hstep
      refine ⟨h.reading_update fun y hy => ?_, h.fits, ?_⟩
      · cases hy
        simp [hnl, heot, Ne.symm hon.1, Ne.symm hD]
      · simpa [hD] using hcount
    · cases hstep
      refine h.finish (fun bs hbs => ?_) ?_
      · cases hbs
        refine ⟨by simp; omega, by rwa [List.dropLast_concat], ?_⟩
        simp [heot, Ne.symm hD]
      · simpa [hD, Answer.isEof] using hcount

theorem step {a : Act P} (hstep : t.step a = some t') : Orderly t' := by
  cases a with
  | intr c =>
    cases hstep
    refine ⟨h.reading, h.fits, ?_⟩
    have hcount := count_intr t.editor c
    have heofs := h.eofs
    dsimp only
    omega
  | turn p =>
    obtain ⟨x, hx, htake⟩ := Option.bind_eq_some_iff.mp hstep
    exact h.take hx rfl htake
  | read p n =>
    dsimp only [Ref.step] at hstep
    split_ifs at hstep with hbusy hn
    · cases hstep
      refine ⟨h.reading_update fun x hx => ?_, h.fits, h.eofs⟩
      cases hx
      exact ⟨List.not_mem_nil, List.not_mem_nil⟩
    · cases hstep
      refine ⟨h.reading, fun a ha => ?_, ?_⟩
      · rcases List.mem_append.mp ha with ha | ha
        · exact h.fits a ha
        · cases List.mem_singleton.mp ha
          intro bs hbs
          cases hbs
          exact ⟨Nat.zero_le _, List.not_mem_nil, List.not_mem_nil⟩
      · have hno : Answer.isEof (⟨p, n, some []⟩ : Answer P) = false := by
          simp only [Answer.isEof, Bool.and_eq_false_iff, decide_eq_false_iff_not]
          omega
        simpa [List.countP_append, List.countP_singleton, hno] using h.eofs
  | killed p =>
    obtain ⟨x, hx, hgone⟩ := Option.bind_eq_some_iff.mp hstep
    split_ifs at hgone
    cases hgone
    exact h.finish nofun (by simpa [Answer.isEof] using h.eofs)

end Orderly

omit [DecidableEq P] in
theorem orderly_init : Orderly (P := P) .init := ⟨nofun, nofun, rfl⟩

/-- The calls return what the reference editor gives, and wait when it does. -/
theorem console_line_discipline (as : List (Act P)) :
    ((run step (.init : Sys P) as).isSome = (run Ref.step (.init : Ref P) as).isSome) ∧
    ∀ s, run step (.init : Sys P) as = some s → ∃ t, run Ref.step .init as = some t ∧
      List.Forall₂ Matches s.calls t.answers ∧ (∀ a ∈ t.answers, a.Fits) ∧
      t.editor.typed.count ctrlD = t.editor.committed.count ctrlD + t.answers.countP Answer.isEof ∧
      (s.input.w - s.input.r).toNat ≤ (s.input.e - s.input.r).toNat ∧ (s.input.e - s.input.r).toNat ≤ inputBuf := by
  have hrel := (agrees_init (P := P)).run as
  have horderly : ∀ t, run Ref.step (.init : Ref P) as = some t → Orderly t := fun t ht =>
    run_invariant (fun _ _ _ h hs => h.step hs) orderly_init ht
  generalize run step (.init : Sys P) as = s, run Ref.step (.init : Ref P) as = t at hrel horderly ⊢
  cases hrel with
  | none => exact ⟨rfl, nofun⟩
  | some h =>
    refine ⟨rfl, fun s hs => ?_⟩
    cases hs
    have ho := horderly _ rfl
    refine ⟨_, rfl, h.calls, ho.fits, ho.eofs, ?_, ?_⟩
    · rw [h.shows.w_sub_r, h.shows.sub_r, List.length_append]
      exact Nat.le_add_right _ _
    · rw [h.shows.sub_r]
      exact h.shows.holds.fits

end Xv6.Console
