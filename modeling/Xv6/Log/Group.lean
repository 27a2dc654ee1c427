import Xv6.Lib.Count
import Xv6.Lib.Run
import Xv6.Log.GroupSpec

/-!
# Group commit

A commit starts when the last operation ends, and no operation starts before it is over.
-/

open Xv6.Run Xv6.Count

namespace Xv6.Log

/-! ## The header in memory -/

theorem mem_absorb {b c : Nat} {l : List Nat} : c ∈ absorb b l ↔ c = b ∨ c ∈ l := by
  induction l with
  | nil => simp [absorb]
  | cons d l ih =>
    rw [absorb]
    split
    case isTrue h =>
      subst h
      simp
    case isFalse =>
      rw [List.mem_cons, ih, List.mem_cons]
      tauto

theorem nodup_absorb {b : Nat} {l : List Nat} (h : l.Nodup) : (absorb b l).Nodup := by
  induction l with
  | nil => simp [absorb]
  | cons c l ih =>
    rw [absorb]
    split
    case isTrue hc =>
      subst hc
      exact h
    case isFalse hc =>
      rw [List.nodup_cons] at h ⊢
      refine ⟨?_, ih h.2⟩
      rw [mem_absorb]
      rintro (rfl | hmem)
      · exact hc rfl
      · exact h.1 hmem

/-! ## The invariant -/

section Invariant

variable {P : Type}

def Sys.committed (s : Sys P) : List Nat := s.commits.flatMap Commit.ops

def Sys.finished (s : Sys P) : List Nat := s.committed ++ s.ended

structure Numbered (s : Sys P) : Prop where
  active : ∀ p q op, (s.phase p).op = some op → (s.phase q).op = some op → p = q
  fresh : ∀ p op, (s.phase p).op = some op → op < s.nextOp ∧ op ∉ s.finished
  nodup : s.finished.Nodup
  below : ∀ op ∈ s.finished, op < s.nextOp
  known : ∀ x ∈ s.logged, x.1 ∈ s.finished ∨ ∃ p, (s.phase p).op = some x.1

structure Recorded (s : Sys P) : Prop where
  nodup : s.log.lh.Nodup
  lh : ∀ b, b ∈ s.log.lh ↔ ∃ op, (op, b) ∈ s.logged ∧ op ∉ s.committed
  writing : ∀ p w, s.phase p = .writing w → w = s.log.lh.take w.length
  commits : ∀ c ∈ s.commits, ∀ b, b ∈ c.written ↔ ∃ op ∈ c.ops, (op, b) ∈ s.logged

structure Counted [Fintype P] (s : Sys P) : Prop where
  outstanding : s.log.outstanding = count s.phase Phase.inOperation
  committing : s.log.committing.toNat = count s.phase Phase.inCommit
  quiet : s.log.committing = true → s.log.outstanding = 0

structure Inv [Fintype P] (s : Sys P) : Prop where
  numbered : Numbered s
  recorded : Recorded s
  counted : Counted s

variable {s t : Sys P}

theorem init_inv [Fintype P] : Inv (Sys.init P) := by
  refine ⟨⟨?_, ?_, ?_, ?_, ?_⟩, ⟨?_, ?_, ?_, ?_⟩, ⟨?_, ?_, ?_⟩⟩ <;>
    simp [Sys.init, Sys.finished, Sys.committed, Phase.op, count, Phase.inOperation, Phase.inCommit]

theorem Counted.no_op [Fintype P] (h : Counted s) (hc : s.log.committing = true) (p : P) : (s.phase p).op = none := by
  have hzero : count s.phase Phase.inOperation = 0 := by rw [← h.outstanding, h.quiet hc]
  simpa [Phase.inOperation] using count_eq_zero.mp hzero p

theorem Counted.committing_of_inCommit [Fintype P] (h : Counted s) {p : P} (hp : (s.phase p).inCommit = true) :
    s.log.committing = true := by
  have hpos := count_pos (q := Phase.inCommit) hp
  rw [← h.committing] at hpos
  cases hc : s.log.committing with
  | false => simp [hc] at hpos
  | true => rfl

theorem Counted.not_committing [Fintype P] (h : Counted s) {p : P} {op : Nat} (hp : (s.phase p).op = some op) :
    s.log.committing = false := by
  by_contra hc
  have hnone := h.no_op (by simpa using hc) p
  rw [hp] at hnone
  simp at hnone

/-! ## Steps that the parts of the invariant do not see -/

theorem Numbered.same (h : Numbered s) (hop : ∀ p, (t.phase p).op = (s.phase p).op) (hfin : t.finished = s.finished)
    (hnext : t.nextOp = s.nextOp) (hlogged : t.logged = s.logged) : Numbered t := by
  constructor
  · simpa only [hop] using h.active
  · simpa only [hop, hfin, hnext] using h.fresh
  · simpa only [hfin] using h.nodup
  · simpa only [hfin, hnext] using h.below
  · simpa only [hop, hfin, hlogged] using h.known

theorem Recorded.same (h : Recorded s) (hlh : t.log.lh = s.log.lh)
    (hwriting : ∀ p w, t.phase p = .writing w → s.phase p = .writing w) (hlogged : t.logged = s.logged)
    (hcommits : t.commits = s.commits) : Recorded t := by
  have hcommitted : t.committed = s.committed := by rw [Sys.committed, hcommits, Sys.committed]
  constructor
  · simpa only [hlh] using h.nodup
  · simpa only [hlh, hlogged, hcommitted] using h.lh
  · intro p w hw
    rw [hlh]
    exact h.writing p w (hwriting p w hw)
  · simpa only [hcommits, hlogged] using h.commits

theorem Counted.same [Fintype P] (h : Counted s) (hop : ∀ p, (t.phase p).op = (s.phase p).op)
    (hcommit : ∀ p, (t.phase p).inCommit = (s.phase p).inCommit) (hout : t.log.outstanding = s.log.outstanding)
    (hcommitting : t.log.committing = s.log.committing) : Counted t := by
  constructor
  · rw [hout, h.outstanding]
    exact count_congr fun p => by rw [Phase.inOperation, Phase.inOperation, hop p]
  · rw [hcommitting, h.committing]
    exact count_congr fun p => (hcommit p).symm
  · rw [hcommitting, hout]
    exact h.quiet

theorem Inv.relabel [Fintype P] (h : Inv s) {ph : P → Phase} (hop : ∀ p, (ph p).op = (s.phase p).op)
    (hcommit : ∀ p, (ph p).inCommit = (s.phase p).inCommit)
    (hwriting : ∀ p w, ph p = .writing w → s.phase p = .writing w) : Inv { s with phase := ph } :=
  ⟨h.numbered.same hop rfl rfl rfl, h.recorded.same rfl hwriting rfl rfl, h.counted.same hop hcommit rfl rfl⟩

theorem Inv.panic [Fintype P] (h : Inv s) (e : Option Panic) : Inv { s with panic := e } :=
  ⟨h.numbered.same (fun _ => rfl) rfl rfl rfl, h.recorded.same rfl (fun _ _ => id) rfl rfl,
    h.counted.same (fun _ => rfl) (fun _ => rfl) rfl rfl⟩

theorem Inv.wakeup [Fintype P] (h : Inv s) : Inv s.wakeup := by
  apply h.relabel
  · intro p
    cases s.phase p <;> rfl
  · intro p
    cases s.phase p <;> rfl
  · intro p w hw
    cases hp : s.phase p <;> simp_all [Phase.wake]

/-! ## What has been written -/

theorem Numbered.write (h : Numbered s) {p : P} {op b : Nat} (hp : (s.phase p).op = some op)
    (hop : ∀ q, (t.phase q).op = (s.phase q).op) (hnext : t.nextOp = s.nextOp) (hfin : t.finished = s.finished)
    (hlogged : t.logged = s.logged ++ [(op, b)]) : Numbered t := by
  constructor
  · simpa only [hop] using h.active
  · simpa only [hop, hfin, hnext] using h.fresh
  · simpa only [hfin] using h.nodup
  · simpa only [hfin, hnext] using h.below
  · intro x hx
    rw [hlogged] at hx
    simp only [hop, hfin]
    rcases List.mem_append.mp hx with hx | hx
    · exact h.known x hx
    · rw [List.mem_singleton.mp hx]
      exact .inr ⟨p, hp⟩

theorem finished_leave {op : Nat} (hcommits : t.commits = s.commits) (hended : t.ended = s.ended ++ [op]) :
    t.finished = s.finished ++ [op] := by
  simp [Sys.finished, Sys.committed, hcommits, hended]

theorem written_iff [Fintype P] (h : Inv s) {p : P} {w : List Nat} (hp : s.phase p = .writing w)
    (hw : s.log.lh.length ≤ w.length) (b : Nat) : b ∈ w ↔ ∃ op ∈ s.ended, (op, b) ∈ s.logged := by
  have hall : w = s.log.lh := by
    rw [h.recorded.writing p w hp, List.take_of_length_le hw]
  have hno := h.counted.no_op (h.counted.committing_of_inCommit (p := p) (by rw [hp]; rfl))
  rw [hall, h.recorded.lh b]
  constructor
  · rintro ⟨op, hlog, hnot⟩
    rcases h.numbered.known _ hlog with hfin | ⟨q, hq⟩
    · rcases List.mem_append.mp hfin with hc | he
      · exact (hnot hc).elim
      · exact ⟨op, he, hlog⟩
    · rw [hno q] at hq
      simp at hq
  · rintro ⟨op, he, hlog⟩
    refine ⟨op, hlog, fun hc => ?_⟩
    exact (List.nodup_append.mp h.numbered.nodup).2.2 op hc op he rfl

end Invariant

/-! ## One process moves -/

section Goto

variable {P : Type} [DecidableEq P] {s : Sys P} {p q : P} {f : Phase}

theorem goto_self : (s.goto p f).phase p = f := Function.update_self _ _ _

theorem goto_ne (h : q ≠ p) : (s.goto p f).phase q = s.phase q := Function.update_of_ne h _ _

theorem goto_same {α : Type} {g : Phase → α} (h : g f = g (s.phase p)) (q : P) :
    g ((s.goto p f).phase q) = g (s.phase q) := by
  by_cases hq : q = p
  · subst hq
    rw [goto_self, h]
  · rw [goto_ne hq]

theorem goto_op {op : Nat} (h : ((s.goto p f).phase q).op = some op) :
    q = p ∧ f.op = some op ∨ q ≠ p ∧ (s.phase q).op = some op := by
  by_cases hq : q = p
  · subst hq
    rw [goto_self] at h
    exact .inl ⟨rfl, h⟩
  · rw [goto_ne hq] at h
    exact .inr ⟨hq, h⟩

theorem goto_writing (hf : ∀ w, f ≠ .writing w) {w : List Nat} (h : (s.goto p f).phase q = .writing w) :
    s.phase q = .writing w := by
  by_cases hq : q = p
  · subst hq
    rw [goto_self] at h
    exact (hf w h).elim
  · rwa [goto_ne hq] at h

theorem goto_count [Fintype P] (c : Phase → Bool) :
    count (s.goto p f).phase c + (c (s.phase p)).toNat = count s.phase c + (c f).toNat :=
  count_update _ _ _ _

theorem Inv.goto [Fintype P] (h : Inv s) (hop : f.op = (s.phase p).op) (hcommit : f.inCommit = (s.phase p).inCommit)
    (hwriting : ∀ w, f ≠ .writing w) : Inv (s.goto p f) :=
  h.relabel (goto_same hop) (goto_same hcommit) fun _ _ => goto_writing hwriting

/-! ## The start of an operation -/

theorem Numbered.begin (h : Numbered s) (hp : (s.phase p).op = none) {t : Sys P}
    (hphase : t.phase = (s.goto p (.inOp s.nextOp)).phase) (hnext : t.nextOp = s.nextOp + 1)
    (hfin : t.finished = s.finished) (hlogged : t.logged = s.logged) : Numbered t := by
  have hnew : ∀ q op, (s.phase q).op = some op → op ≠ s.nextOp := fun q op hq => (h.fresh q op hq).1.ne
  constructor
  · intro q r op hq hr
    rw [hphase] at hq hr
    rcases goto_op hq with ⟨hqp, hf⟩ | ⟨-, hqo⟩ <;> rcases goto_op hr with ⟨hrp, hf'⟩ | ⟨-, hro⟩
    · rw [hqp, hrp]
    · exact (hnew r op hro (Option.some.inj hf).symm).elim
    · exact (hnew q op hqo (Option.some.inj hf').symm).elim
    · exact h.active q r op hqo hro
  · intro q op hq
    rw [hphase] at hq
    rw [hfin, hnext]
    rcases goto_op hq with ⟨rfl, hf⟩ | ⟨-, hq⟩
    · obtain rfl : s.nextOp = op := Option.some.inj hf
      exact ⟨Nat.lt_succ_self _, fun hmem => (h.below _ hmem).false⟩
    · exact ⟨(h.fresh q op hq).1.trans (Nat.lt_succ_self _), (h.fresh q op hq).2⟩
  · rw [hfin]
    exact h.nodup
  · rw [hfin, hnext]
    exact fun op hop => (h.below op hop).trans (Nat.lt_succ_self _)
  · rw [hfin, hlogged, hphase]
    intro x hx
    rcases h.known x hx with hfin | ⟨q, hq⟩
    · exact .inl hfin
    · have hqp : q ≠ p := by
        rintro rfl
        rw [hp] at hq
        simp at hq
      exact .inr ⟨q, by rw [goto_ne hqp]; exact hq⟩

theorem Inv.begin [Fintype P] (h : Inv s) (hp : s.phase p = .awake) {l : LogState} (hl : beginOp s.log = some l) :
    Inv { s.goto p (.inOp s.nextOp) with log := l, nextOp := s.nextOp + 1 } := by
  have hc : s.log.committing = false := by
    by_contra hc
    simp [beginOp, hc] at hl
  obtain rfl : { s.log with outstanding := s.log.outstanding + 1 } = l := by
    unfold beginOp at hl
    rw [if_neg (by simp [hc])] at hl
    split at hl
    · simp at hl
    · exact Option.some.inj hl
  refine ⟨h.numbered.begin (by rw [hp]; rfl) rfl rfl rfl rfl, ?_, ⟨?_, ?_, ?_⟩⟩
  · exact h.recorded.same rfl (fun _ _ => goto_writing (by simp)) rfl rfl
  · have hcount := goto_count (s := s) (p := p) (f := .inOp s.nextOp) Phase.inOperation
    rw [hp, ← h.counted.outstanding] at hcount
    exact hcount.symm
  · have hcount := goto_count (s := s) (p := p) (f := .inOp s.nextOp) Phase.inCommit
    rw [hp, ← h.counted.committing] at hcount
    exact hcount.symm
  · intro hcommitting
    rw [hc] at hcommitting
    simp at hcommitting

/-! ## `log_write` -/

theorem Recorded.write (h : Recorded s) {op b : Nat} (hop : op ∉ s.committed)
    (hquiet : ∀ q, (s.phase q).inCommit = false) {t : Sys P} (hphase : t.phase = (s.goto p (.inOp op)).phase)
    (hlh : t.log.lh = absorb b s.log.lh) (hlogged : t.logged = s.logged ++ [(op, b)])
    (hcommits : t.commits = s.commits) : Recorded t := by
  have hcommitted : t.committed = s.committed := by rw [Sys.committed, hcommits, Sys.committed]
  constructor
  · rw [hlh]
    exact nodup_absorb h.nodup
  · intro c
    rw [hlh, hlogged, hcommitted, mem_absorb, h.lh c]
    simp only [List.mem_append, List.mem_singleton, Prod.mk.injEq]
    constructor
    · rintro (rfl | ⟨o, hlog, ho⟩)
      · exact ⟨op, .inr ⟨rfl, rfl⟩, hop⟩
      · exact ⟨o, .inl hlog, ho⟩
    · rintro ⟨o, hlog | ⟨rfl, rfl⟩, ho⟩
      · exact .inr ⟨o, hlog, ho⟩
      · exact .inl rfl
  · intro q w hw
    rw [hphase] at hw
    have hcommit := hquiet q
    rw [goto_writing (by simp) hw] at hcommit
    simp [Phase.inCommit] at hcommit
  · intro c hc d
    rw [hcommits] at hc
    have hcops : op ∉ c.ops := fun hmem => hop (List.mem_flatMap.mpr ⟨c, hc, hmem⟩)
    rw [h.commits c hc d, hlogged]
    simp only [List.mem_append, List.mem_singleton, Prod.mk.injEq]
    constructor
    · rintro ⟨o, ho, hlog⟩
      exact ⟨o, ho, .inl hlog⟩
    · rintro ⟨o, ho, hlog | ⟨rfl, -⟩⟩
      · exact ⟨o, ho, hlog⟩
      · exact (hcops ho).elim

theorem Inv.write [Fintype P] (h : Inv s) {op b : Nat} (hp : s.phase p = .checked op b) :
    Inv { s.goto p (.inOp op) with log := logWrite b s.log, logged := s.logged ++ [(op, b)] } := by
  have hop : (s.phase p).op = some op := by rw [hp]; rfl
  have hsame : ∀ q, ((s.goto p (.inOp op)).phase q).op = (s.phase q).op := goto_same (by rw [hop]; rfl)
  have hnot : op ∉ s.committed := fun hmem => (h.numbered.fresh p op hop).2 (List.mem_append_left _ hmem)
  have hquiet : ∀ q, (s.phase q).inCommit = false := by
    intro q
    by_contra hq
    have hc := h.counted.committing_of_inCommit (p := q) (by simpa using hq)
    rw [h.counted.not_committing hop] at hc
    simp at hc
  exact ⟨h.numbered.write hop hsame rfl rfl rfl, h.recorded.write hnot hquiet rfl rfl rfl rfl,
    h.counted.same hsame (goto_same (by rw [hp]; rfl)) rfl rfl⟩

/-! ## `end_op` -/

theorem Numbered.leave (h : Numbered s) {op : Nat} (hp : (s.phase p).op = some op) (hf : f.op = none) {t : Sys P}
    (hphase : t.phase = (s.goto p f).phase) (hnext : t.nextOp = s.nextOp) (hfin : t.finished = s.finished ++ [op])
    (hlogged : t.logged = s.logged) : Numbered t := by
  obtain ⟨hlt, hnot⟩ := h.fresh p op hp
  have hactive : ∀ q o, (t.phase q).op = some o → q ≠ p ∧ (s.phase q).op = some o := by
    intro q o hq
    rw [hphase] at hq
    rcases goto_op hq with ⟨-, hfo⟩ | hq
    · rw [hf] at hfo
      simp at hfo
    · exact hq
  constructor
  · intro q r o hq hr
    exact h.active q r o (hactive q o hq).2 (hactive r o hr).2
  · intro q o hq
    obtain ⟨hqp, hq⟩ := hactive q o hq
    rw [hnext, hfin, List.mem_append, List.mem_singleton, not_or]
    refine ⟨(h.fresh q o hq).1, (h.fresh q o hq).2, ?_⟩
    rintro rfl
    exact hqp (h.active q p o hq hp)
  · rw [hfin]
    exact h.nodup.append (List.nodup_singleton op) (by simpa using hnot)
  · rw [hfin, hnext]
    intro o ho
    rcases List.mem_append.mp ho with ho | ho
    · exact h.below o ho
    · rw [List.mem_singleton.mp ho]
      exact hlt
  · rw [hfin, hlogged]
    intro x hx
    rw [List.mem_append, List.mem_singleton]
    rcases h.known x hx with hx | ⟨q, hq⟩
    · exact .inl (.inl hx)
    · by_cases hqp : q = p
      · subst hqp
        rw [hp] at hq
        exact .inl (.inr (Option.some.inj hq).symm)
      · exact .inr ⟨q, by rw [hphase, goto_ne hqp]; exact hq⟩

theorem leave_count [Fintype P] (h : Counted s) {op : Nat} (hp : s.phase p = .inOp op) (hf : f.op = none) :
    s.log.outstanding - 1 = count (s.goto p f).phase Phase.inOperation := by
  have hcount := goto_count (s := s) (p := p) (f := f) Phase.inOperation
  have hout : Phase.inOperation f = false := by rw [Phase.inOperation, hf]; rfl
  have hin : Phase.inOperation (.inOp op) = true := rfl
  rw [hp, ← h.outstanding, hout, hin, Bool.toNat_true, Bool.toNat_false] at hcount
  omega

theorem Inv.leave [Fintype P] (h : Inv s) {op : Nat} (hp : s.phase p = .inOp op) :
    Inv { s.goto p .idle with
      log := { s.log with outstanding := s.log.outstanding - 1 }, ended := s.ended ++ [op] } := by
  have hop : (s.phase p).op = some op := by rw [hp]; rfl
  refine ⟨h.numbered.leave hop rfl rfl rfl (finished_leave rfl rfl) rfl, ?_, leave_count h.counted hp rfl, ?_, ?_⟩
  · exact h.recorded.same rfl (fun _ _ => goto_writing (by simp)) rfl rfl
  · have hcount := goto_count (s := s) (p := p) (f := .idle) Phase.inCommit
    rw [hp, ← h.counted.committing] at hcount
    exact hcount.symm
  · intro hcommitting
    simp [h.counted.not_committing hop] at hcommitting

theorem Inv.last [Fintype P] (h : Inv s) {op : Nat} (hp : s.phase p = .inOp op) (hlast : s.log.outstanding - 1 = 0) :
    Inv { s.goto p (.writing []) with
      log := { s.log with outstanding := s.log.outstanding - 1, committing := true }, ended := s.ended ++ [op] } := by
  have hop : (s.phase p).op = some op := by rw [hp]; rfl
  refine ⟨h.numbered.leave hop rfl rfl rfl (finished_leave rfl rfl) rfl, ⟨h.recorded.nodup, h.recorded.lh, ?_,
    h.recorded.commits⟩, leave_count h.counted hp rfl, ?_, fun _ => hlast⟩
  · intro q w hw
    by_cases hq : q = p
    · subst hq
      have hw' : Phase.writing [] = .writing w := goto_self.symm.trans hw
      rw [← Phase.writing.inj hw']
      rfl
    · exact h.recorded.writing q w ((goto_ne hq).symm.trans hw)
  · have hcount := goto_count (s := s) (p := p) (f := .writing []) Phase.inCommit
    rw [hp, ← h.counted.committing, h.counted.not_committing hop] at hcount
    exact hcount.symm

/-! ## `commit` -/

theorem Inv.writeBlock [Fintype P] (h : Inv s) {w : List Nat} {b : Nat} (hp : s.phase p = .writing w)
    (hb : s.log.lh[w.length]? = some b) : Inv (s.goto p (.writing (w ++ [b]))) := by
  have hop : ∀ q, ((s.goto p (.writing (w ++ [b]))).phase q).op = (s.phase q).op := goto_same (by rw [hp]; rfl)
  refine ⟨h.numbered.same hop rfl rfl rfl, ⟨h.recorded.nodup, h.recorded.lh, ?_, h.recorded.commits⟩,
    h.counted.same hop (goto_same (by rw [hp]; rfl)) rfl rfl⟩
  intro q v hv
  by_cases hq : q = p
  · subst hq
    have hw : w ++ [b] = v := Phase.writing.inj (goto_self.symm.trans hv)
    have htake := h.recorded.writing q w hp
    rw [← hw, List.length_append, List.length_singleton, List.take_add_one]
    change w ++ [b] = s.log.lh.take w.length ++ s.log.lh[w.length]?.toList
    rw [hb, ← htake]
    rfl
  · exact h.recorded.writing q v ((goto_ne hq).symm.trans hv)

theorem Inv.clear [Fintype P] (h : Inv s) {w : List Nat} (hp : s.phase p = .writing w)
    (hw : s.log.lh.length ≤ w.length) :
    Inv { s.goto p .cleared with
      log := { s.log with lh := [] }, ended := [], commits := s.commits ++ [⟨s.ended, w⟩] } := by
  have hop : ∀ q, ((s.goto p .cleared).phase q).op = (s.phase q).op := goto_same (by rw [hp]; rfl)
  have hno := h.counted.no_op (h.counted.committing_of_inCommit (p := p) (by rw [hp]; rfl))
  refine ⟨h.numbered.same hop (by simp [Sys.finished, Sys.committed]) rfl rfl, ⟨List.nodup_nil, ?_, ?_, ?_⟩,
    h.counted.same hop (goto_same (by rw [hp]; rfl)) rfl rfl⟩
  · intro b
    simp only [List.not_mem_nil, false_iff]
    rintro ⟨op, hlog, hnot⟩
    rcases h.numbered.known _ hlog with hfin | ⟨q, hq⟩
    · exact hnot (by simpa [Sys.finished, Sys.committed] using hfin)
    · rw [hno q] at hq
      simp at hq
  · intro q v hv
    by_cases hq : q = p
    · subst hq
      have hv' : Phase.cleared = .writing v := goto_self.symm.trans hv
      simp at hv'
    · -- There is only one committer.
      have hone : count s.phase Phase.inCommit ≤ 1 := by
        rw [← h.counted.committing]
        exact Bool.toNat_le _
      have hqv : s.phase q = .writing v := (goto_ne hq).symm.trans hv
      exact (hq (count_le_one.mp hone q p (by rw [hqv]; rfl) (by rw [hp]; rfl))).elim
  · intro c hc b
    rcases List.mem_append.mp hc with hc | hc
    · exact h.recorded.commits c hc b
    · rw [List.mem_singleton.mp hc]
      exact written_iff h hp hw b

theorem Inv.finish [Fintype P] (h : Inv s) (hp : s.phase p = .cleared) :
    Inv { s.goto p .idle with log := { s.log with committing := false } } := by
  have hc := h.counted.committing_of_inCommit (p := p) (by rw [hp]; rfl)
  have hop : ∀ q, ((s.goto p .idle).phase q).op = (s.phase q).op := goto_same (by rw [hp]; rfl)
  refine ⟨h.numbered.same hop rfl rfl rfl, h.recorded.same rfl (fun _ _ => goto_writing (by simp)) rfl rfl, ?_, ?_,
    by simp⟩
  · exact h.counted.outstanding.trans (count_congr fun q => by
      rw [Phase.inOperation, Phase.inOperation]; exact congrArg _ (hop q).symm)
  · have hcount := goto_count (s := s) (p := p) (f := .idle) Phase.inCommit
    rw [hp, ← h.counted.committing, hc] at hcount
    have hzero : count (s.goto p .idle).phase Phase.inCommit = 0 := by simpa [Phase.inCommit] using hcount
    exact hzero.symm

end Goto

/-! ## Runs -/

variable {P : Type} [DecidableEq P]

inductive Moves (size : Nat) (s : Sys P) : Act P → Sys P → Prop
  | call {p} (hp : s.phase p = .idle) : Moves size s (.call p) (s.goto p .awake)
  | begins {p l} (hp : s.phase p = .awake) (hl : beginOp s.log = some l) :
      Moves size s (.look p) { s.goto p (.inOp s.nextOp) with log := l, nextOp := s.nextOp + 1 }
  | sleeps {p} (hp : s.phase p = .awake) : Moves size s (.look p) (s.goto p .asleep)
  | wakes {p} (hp : s.phase p = .asleep) : Moves size s (.kill p) (s.goto p .awake)
  | checks {p op b} (hp : s.phase p = .inOp op) (hc : logCheck size s.log = none) :
      Moves size s (.check p b) (s.goto p (.checked op b))
  | refuses {p op b e} (hp : s.phase p = .inOp op) (hc : logCheck size s.log = some e) :
      Moves size s (.check p b) { s with panic := some e }
  | writes {p op b} (hp : s.phase p = .checked op b) :
      Moves size s (.write p) { s.goto p (.inOp op) with log := logWrite b s.log, logged := s.logged ++ [(op, b)] }
  | endsInCommit {p} : Moves size s (.endOp p) { s with panic := some .logCommitting }
  | last {p op} (hp : s.phase p = .inOp op) (hlast : s.log.outstanding - 1 = 0) :
      Moves size s (.endOp p) { s.goto p (.writing []) with
        log := { s.log with outstanding := s.log.outstanding - 1, committing := true }, ended := s.ended ++ [op] }
  | leaves {p op} (hp : s.phase p = .inOp op) :
      Moves size s (.endOp p) (Sys.wakeup { s.goto p .idle with
        log := { s.log with outstanding := s.log.outstanding - 1 }, ended := s.ended ++ [op] })
  | writesBlock {p w b} (hp : s.phase p = .writing w) (hb : s.log.lh[w.length]? = some b) :
      Moves size s (.writeBlock p) (s.goto p (.writing (w ++ [b])))
  | clears {p w} (hp : s.phase p = .writing w) (hw : s.log.lh.length ≤ w.length) :
      Moves size s (.clear p) { s.goto p .cleared with
        log := { s.log with lh := [] }, ended := [], commits := s.commits ++ [⟨s.ended, w⟩] }
  | finishes {p} (hp : s.phase p = .cleared) :
      Moves size s (.finish p) (Sys.wakeup { s.goto p .idle with log := { s.log with committing := false } })

theorem endOp_moves {size : Nat} {s t : Sys P} {p : P} {op : Nat} (hp : s.phase p = .inOp op)
    (h : (match endOp s.log with
      | .error e => some { s with panic := some e }
      | .ok (l, true) => some { s.goto p (.writing []) with log := l, ended := s.ended ++ [op] }
      | .ok (l, false) => some { (s.goto p .idle).wakeup with log := l, ended := s.ended ++ [op] }) = some t) :
    Moves size s (.endOp p) t := by
  by_cases hc : s.log.committing = true
  · rw [show endOp s.log = .error .logCommitting by simp [endOp, hc]] at h
    rw [← Option.some.inj h]
    exact .endsInCommit
  · by_cases hlast : s.log.outstanding - 1 = 0
    · rw [show endOp s.log = .ok ({ s.log with outstanding := s.log.outstanding - 1, committing := true }, true) by
        simp [endOp, hc, hlast]] at h
      rw [← Option.some.inj h]
      exact .last hp hlast
    · rw [show endOp s.log = .ok ({ s.log with outstanding := s.log.outstanding - 1 }, false) by
        simp [endOp, hc, hlast]] at h
      rw [← Option.some.inj h]
      exact .leaves hp

theorem step_moves {size : Nat} {s t : Sys P} {a : Act P} (h : step size s a = some t) : Moves size s a t := by
  unfold step at h
  split at h
  case isTrue => simp at h
  case isFalse =>
    cases a with
    | call p | kill p | finish p =>
      simp only at h
      split at h
      case isTrue hp =>
        rw [← Option.some.inj h]
        constructor
        exact hp
      case isFalse => simp at h
    | look p =>
      simp only at h
      split at h
      case isTrue hp =>
        split at h
        case h_1 =>
          rw [← Option.some.inj h]
          exact .sleeps hp
        case h_2 l hl =>
          rw [← Option.some.inj h]
          exact .begins hp hl
      case isFalse => simp at h
    | check p b =>
      simp only at h
      split at h
      case h_1 op hp =>
        split at h
        case h_1 e he =>
          rw [← Option.some.inj h]
          exact .refuses hp he
        case h_2 hc =>
          rw [← Option.some.inj h]
          exact .checks hp hc
      case h_2 => simp at h
    | write p =>
      simp only at h
      split at h
      case h_1 op b hp =>
        rw [← Option.some.inj h]
        exact .writes hp
      case h_2 => simp at h
    | endOp p =>
      simp only at h
      split at h
      case h_1 op hp => exact endOp_moves hp h
      case h_2 => simp at h
    | writeBlock p =>
      simp only at h
      split at h
      case h_1 w hp =>
        split at h
        case h_1 b hb =>
          rw [← Option.some.inj h]
          exact .writesBlock hp hb
        case h_2 => simp at h
      case h_2 => simp at h
    | clear p =>
      simp only at h
      split at h
      case h_1 w hp =>
        split at h
        case isTrue hw =>
          rw [← Option.some.inj h]
          exact .clears hp hw
        case isFalse => simp at h
      case h_2 => simp at h

theorem no_log_write {size : Nat} {s : Sys P} {p : P} (h : (s.phase p).op = none) :
    (∀ b, step size s (.check p b) = none) ∧ step size s (.write p) = none := by
  cases hp : s.phase p with
  | inOp op => simp [hp, Phase.op] at h
  | checked op b => simp [hp, Phase.op] at h
  | _ => simp [step, hp]

section Runs

variable [Fintype P]

theorem step_inv {size : Nat} (s : Sys P) (a : Act P) (t : Sys P) (h : Inv s) (hstep : step size s a = some t) :
    Inv t := by
  cases step_moves hstep with
  | call hp => exact h.goto (by rw [hp]; rfl) (by rw [hp]; rfl) (by simp)
  | begins hp hl => exact h.begin hp hl
  | sleeps hp => exact h.goto (by rw [hp]; rfl) (by rw [hp]; rfl) (by simp)
  | wakes hp => exact h.goto (by rw [hp]; rfl) (by rw [hp]; rfl) (by simp)
  | checks hp _ => exact h.goto (by rw [hp]; rfl) (by rw [hp]; rfl) (by simp)
  | refuses => exact h.panic _
  | writes hp => exact h.write hp
  | endsInCommit => exact h.panic _
  | last hp hlast => exact h.last hp hlast
  | leaves hp => exact (h.leave hp).wakeup
  | writesBlock hp hb => exact h.writeBlock hp hb
  | clears hp hw => exact h.clear hp hw
  | finishes hp => exact (h.finish hp).wakeup

/-- At most one process commits, nothing is logged meanwhile, every operation is in one commit at most, and a commit
writes the blocks of operations that are over. -/
theorem group_commit_whole {size : Nat} {as : List (Act P)} {s : Sys P}
    (h : run (step size) (Sys.init P) as = some s) :
    (∀ p q, (s.phase p).inCommit → (s.phase q).inCommit → p = q) ∧
    (∀ p, (s.phase p).inCommit → s.log.committing = true) ∧
    (s.log.committing = true → s.log.outstanding = 0 ∧
      ∀ p, (∀ b, step size s (.check p b) = none) ∧ step size s (.write p) = none) ∧
    (s.commits.flatMap Commit.ops).Nodup ∧
    (∀ c ∈ s.commits, (∀ op ∈ c.ops, ∀ p, (s.phase p).op ≠ some op) ∧
      ∀ b, b ∈ c.written ↔ ∃ op ∈ c.ops, (op, b) ∈ s.logged) ∧
    ∀ op b, (op, b) ∈ s.logged → op ∉ s.commits.flatMap Commit.ops → b ∈ s.log.lh := by
  have hinv : Inv s := run_invariant step_inv init_inv h
  refine ⟨?_, fun p hp => hinv.counted.committing_of_inCommit hp, ?_, ?_, ?_, ?_⟩
  · have hone : count s.phase Phase.inCommit ≤ 1 := by
      rw [← hinv.counted.committing]
      exact Bool.toNat_le _
    exact count_le_one.mp hone
  · intro hc
    exact ⟨hinv.counted.quiet hc, fun p => no_log_write (hinv.counted.no_op hc p)⟩
  · exact (List.nodup_append.mp hinv.numbered.nodup).1
  · intro c hc
    refine ⟨fun op hop p hp => ?_, hinv.recorded.commits c hc⟩
    have hcommitted : op ∈ s.committed := List.mem_flatMap.mpr ⟨c, hc, hop⟩
    exact (hinv.numbered.fresh p op hp).2 (List.mem_append_left _ hcommitted)
  · intro op b hlog hnot
    exact (hinv.recorded.lh b).mpr ⟨op, hlog, hnot⟩

def twoOperations : List (Act (Fin 2)) :=
  [.call 0, .look 0, .call 1, .look 1, .check 0 5, .write 0, .check 1 5, .write 1, .endOp 0, .check 1 7, .write 1,
    .endOp 1, .writeBlock 1, .writeBlock 1, .clear 1]

theorem twoOperations_whole : ∃ s, run (step logsize) (Sys.init (Fin 2)) twoOperations = some s ∧
    s.commits = [⟨[0, 1], [5, 7]⟩] ∧ s.log.committing = true ∧ s.log.outstanding = 0 := by
  have hrun : ((run (step logsize) (Sys.init (Fin 2)) twoOperations).map fun s => (s.commits, s.log.committing)) =
      some ([⟨[0, 1], [5, 7]⟩], true) := by decide
  obtain ⟨s, hs, hfields⟩ := Option.map_eq_some_iff.mp hrun
  obtain ⟨hcommits, hcommitting⟩ := Prod.mk.inj hfields
  exact ⟨s, hs, hcommits, hcommitting, ((group_commit_whole hs).2.2.1 hcommitting).1⟩

end Runs

/-! ## Room in the log -/

def Sys.openBlocks {P : Type} (s : Sys P) : Finset Nat :=
  ((s.logged.filter fun x => x.1 ∉ s.committed).map Prod.snd).toFinset

theorem Recorded.length {P : Type} {s : Sys P} (h : Recorded s) : s.log.lh.length = s.openBlocks.card := by
  rw [← List.toFinset_card_of_nodup h.nodup]
  congr 1
  ext b
  simp [Sys.openBlocks, h.lh b]

theorem logCheck_tooBig {l : LogState} : logCheck logsize l = some .tooBig ↔ logsize - 1 ≤ l.lh.length := by
  unfold logCheck
  split
  case isTrue h =>
    simp only [true_iff]
    omega
  case isFalse h =>
    rw [not_or] at h
    split <;> simp <;> omega

theorem moves_tooBig_iff {s t : Sys P} {a : Act P} (hs : s.panic ≠ some .tooBig) (h : Moves logsize s a t) :
    t.panic ≠ some .tooBig ↔ ∀ p b, a = .check p b → s.log.lh.length < logsize - 1 := by
  cases h with
  | checks hp hc =>
    have hroom : ¬ logsize - 1 ≤ s.log.lh.length := by
      rw [← logCheck_tooBig, hc]
      simp
    exact iff_of_true hs fun _ _ _ => not_le.mp hroom
  | @refuses _ _ _ e hp hc =>
    have hfull : ¬ some e = some Panic.tooBig ↔ s.log.lh.length < logsize - 1 := by
      rw [← hc, logCheck_tooBig, not_le]
    rw [ne_eq, hfull]
    exact ⟨fun hroom _ _ _ => hroom, fun hroom => hroom _ _ rfl⟩
  | endsInCommit => exact iff_of_true (by simp) (by simp)
  | _ => exact iff_of_true hs (by simp)

variable [Fintype P]

/-- The log that `mkfs` makes is too full exactly when an operation logs after 29 distinct blocks since a commit. -/
theorem log_never_too_big_iff {as : List (Act P)} :
    Always (step logsize) (fun s => s.panic ≠ some .tooBig) (Sys.init P) as ↔
      Along (step logsize) (fun s a => ∀ p b, a = .check p b → s.openBlocks.card < logsize - 1) (Sys.init P) as := by
  rw [← always_and_invariant (I := Inv) step_inv init_inv]
  apply always_iff_along _ ⟨init_inv, by simp [Sys.init]⟩
  rintro s a t ⟨hinv, hs⟩ hstep
  rw [and_iff_right (step_inv s a t hinv hstep), ← hinv.recorded.length]
  exact moves_tooBig_iff hs (step_moves hstep)

def asked (as : List (Act P)) (p : P) : List Nat :=
  as.filterMap fun a => match a with
    | .check q b => if q = p then some b else none
    | _ => none

def threeOperations : List (Act (Fin 3)) :=
  [.call 0, .look 0, .call 1, .look 1, .call 2, .look 2] ++
    (List.range 29).flatMap fun b => [.check (Fin.ofNat 3 (b / 10)) b, .write (Fin.ofNat 3 (b / 10))]

/-- Nobody wants to log more than ten blocks, but there is no room for the thirtieth. -/
theorem threeOperations_too_big :
    (∀ p, (asked (threeOperations ++ [.check 2 29]) p).length ≤ maxopblocks) ∧
    ∃ s, run (step logsize) (Sys.init (Fin 3)) (threeOperations ++ [.check 2 29]) = some s ∧
      s.panic = some .tooBig := by
  refine ⟨by decide, ?_⟩
  have hrun : ((run (step logsize) (Sys.init (Fin 3)) (threeOperations ++ [.check 2 29])).map Sys.panic) =
      some (some .tooBig) := by decide
  exact Option.map_eq_some_iff.mp hrun

end Xv6.Log
