import Mathlib.Data.List.Count
import Xv6.Lib.Run

/-!
# The buffer cache

`bio.c`, for any number of processes, on a disk that reports no errors. A step is a critical section of `bcache.lock`,
or what a process does with a buffer that it has locked, where whoever changes a buffer passes it to `log_write` or
`bwrite`.
-/

open Function Xv6.Run

namespace Xv6.Bcache

/-- `dev` and `blockno`. -/
abbrev Block := Nat × Nat

inductive Pc (B : Type) where
  | idle
  /-- `acquiresleep` in `bget`. -/
  | lock (b : B) (k : Block)
  /-- Behind `releasesleep` in `brelse`. -/
  | drop (b : B)
deriving DecidableEq

structure Sys (P B D : Type) where
  /-- From `head.next` on. -/
  lru : List B
  block : B → Block
  valid : B → Bool
  dirty : B → Bool
  refcnt : B → Nat
  data : B → D
  /-- Who has `b->lock`. -/
  owner : B → Option P
  disk : Block → D
  pc : P → Pc B
  /-- The calls of `bget` that `brelse` has not counted down yet. -/
  refs : List (P × B)
  /-- From the return of `bread` to the call of `brelse`. -/
  inside : List (P × B × Block)
  /-- What was last put into each block. -/
  blocks : Block → D

variable {P B D : Type} [DecidableEq P] [DecidableEq B] {s t : Sys P B D} {p : P} {b : B} {k : Block}

/-- `binit` puts each buffer before those that it has already linked. -/
def Sys.init (buf : List B) (data : B → D) (disk : Block → D) : Sys P B D :=
  ⟨buf.reverse, fun _ => (0, 0), fun _ => false, fun _ => false, fun _ => 0, data, fun _ => none, disk, fun _ => .idle,
    [], [], disk⟩

def find (lru : List B) (block : B → Block) (k : Block) : Option B := lru.find? (block · = k)

def bget (s : Sys P B D) (p : P) (k : Block) : Option (Sys P B D) :=
  match find s.lru s.block k with
  | some b => some { s with
      refcnt := update s.refcnt b (s.refcnt b + 1), refs := (p, b) :: s.refs, pc := update s.pc p (.lock b k) }
  | none =>
    match s.lru.reverse.find? fun b => s.refcnt b = 0 ∧ s.dirty b = false with
    | some b => some { s with
        block := update s.block b k, valid := update s.valid b false, dirty := update s.dirty b false
        refcnt := update s.refcnt b 1, refs := (p, b) :: s.refs, pc := update s.pc p (.lock b k) }
    -- `panic("bget: no buffers")`
    | none => none

def iderw (s : Sys P B D) (b : B) : Sys P B D :=
  if s.dirty b then { s with
    disk := update s.disk (s.block b) (s.data b), valid := update s.valid b true, dirty := update s.dirty b false }
  else { s with data := update s.data b (s.disk (s.block b)), valid := update s.valid b true }

def logWrite (s : Sys P B D) (b : B) (k : Block) (d : D) : Sys P B D :=
  { s with data := update s.data b d, dirty := update s.dirty b true, blocks := update s.blocks k d }

inductive Act (P B D : Type) where
  | bread (p : P) (k : Block)
  /-- The process gets the sleep-lock, and comes back from `bread`. -/
  | lock (p : P) (b : B) (k : Block)
  | logWrite (p : P) (b : B) (k : Block) (d : D)
  | bwrite (p : P) (b : B) (k : Block) (d : D)
  | brelse (p : P) (b : B) (k : Block)
  | drop (p : P) (b : B)

def step (s : Sys P B D) : Act P B D → Option (Sys P B D)
  | .bread p k => if s.pc p = .idle then bget s p k else none
  | .lock p b k =>
    if s.pc p = .lock b k ∧ s.owner b = none then
      some { if s.valid b then s else iderw s b with
        owner := update s.owner b (some p), pc := update s.pc p .idle, inside := (p, b, k) :: s.inside }
    else none
  | .logWrite p b k d => if s.pc p = .idle ∧ (p, b, k) ∈ s.inside then some (logWrite s b k d) else none
  | .bwrite p b k d => if s.pc p = .idle ∧ (p, b, k) ∈ s.inside then some (iderw (logWrite s b k d) b) else none
  | .brelse p b k =>
    if s.pc p = .idle ∧ (p, b, k) ∈ s.inside then
      some { s with
        owner := update s.owner b none, pc := update s.pc p (.drop b), inside := s.inside.filter (· ≠ (p, b, k)) }
    else none
  | .drop p b =>
    if s.pc p = .drop b then
      some { s with
        refcnt := update s.refcnt b (s.refcnt b - 1), lru := if s.refcnt b - 1 = 0 then b :: s.lru.erase b else s.lru
        pc := update s.pc p .idle, refs := s.refs.erase (p, b) }
    else none

structure Inv (s : Sys P B D) : Prop where
  count : ∀ b, s.refcnt b = s.refs.countP (·.2 = b)
  uses : ∀ p b k, s.pc p = .lock b k ∨ (p, b, k) ∈ s.inside → (p, b) ∈ s.refs ∧ s.block b = k
  drops : ∀ p b, s.pc p = .drop b → (p, b) ∈ s.refs ∧ ∀ k, (p, b, k) ∉ s.inside
  owner : ∀ p b k, (p, b, k) ∈ s.inside → s.owner b = some p
  /-- Of the buffers with the same block only the first one is in use. -/
  first : ∀ b, s.refcnt b ≠ 0 ∨ s.valid b = true → find s.lru s.block (s.block b) = some b
  valid : ∀ b, s.dirty b = true ∨ (∃ p k, (p, b, k) ∈ s.inside) → s.valid b = true
  data : ∀ b, s.valid b = true → s.data b = s.blocks (s.block b)
  clean : ∀ k, s.disk k = s.blocks k ∨ ∃ b, s.block b = k ∧ s.dirty b = true

omit [DecidableEq P] in
theorem Inv.used (h : Inv s) (hr : (p, b) ∈ s.refs) : s.refcnt b ≠ 0 := by
  rw [h.count, ← Nat.pos_iff_ne_zero, List.countP_pos_iff]
  exact ⟨_, hr, by simp⟩

section List

variable {lru : List B} {block : B → Block} {c : B}

theorem find_front (h : block b ≠ k) : find (b :: lru.erase b) block k = find lru block k := by
  rw [find, List.find?_cons_of_neg (by simpa using h)]
  induction lru with
  | nil => rfl
  | cons x l ih => grind [find]

theorem find_recycled (hk : find lru block k = none) (hb : b ∈ lru) : find lru (update block b k) k = some b := by
  simp only [find] at *
  induction lru with
  | nil => cases hb
  | cons x l ih => grind

theorem find_other (hc : c ≠ b) (hck : block c ≠ k) (h : find lru block (block c) = some c) :
    find lru (update block b k) (block c) = some c := by
  simp only [find] at *
  induction lru with
  | nil => cases h
  | cons x l ih => grind

end List

theorem bget_inv (h : Inv s) (hp : s.pc p = .idle) (ht : bget s p k = some t) : Inv t := by
  have hused := @h.used
  unfold bget at ht
  split at ht
  case h_1 b hb =>
    have hbk : s.block b = k := by simpa using List.find?_some hb
    cases ht
    cases h
    constructor <;> simp only [update_apply, List.countP_cons] <;> grind -linarith
  case h_2 hnone =>
    split at ht
    case h_2 => cases ht
    case h_1 b hb =>
      obtain ⟨hfree, hclean⟩ : s.refcnt b = 0 ∧ s.dirty b = false := by simpa using List.find?_some hb
      have hunused : ∀ q, (q, b) ∉ s.refs := fun q hq => h.used hq hfree
      have hnew := find_recycled hnone (List.mem_reverse.mp (List.mem_of_find?_eq_some hb))
      have hold : ∀ c, c ≠ b → find s.lru s.block (s.block c) = some c →
          find s.lru (update s.block b k) (s.block c) = some c := by
        intro c hc hf
        refine find_other hc (fun he => ?_) hf
        rw [he, hnone] at hf
        cases hf
      cases ht
      cases h
      constructor <;> simp only [update_apply, List.countP_cons] <;> grind -linarith

omit [DecidableEq P] in
/-- No other buffer in use has the block of one that a process uses. -/
theorem Inv.sole (h : Inv s) (hr : (p, b) ∈ s.refs) {c : B} (hc : s.valid c = true) (hk : s.block c = s.block b) :
    c = b := by
  have hfirst := h.first c (.inr hc)
  rw [hk, h.first b (.inl (h.used hr))] at hfirst
  exact (Option.some.inj hfirst).symm

theorem step_inv {a : Act P B D} (h : Inv s) (ht : step s a = some t) : Inv t := by
  have hused := @h.used
  unfold step at ht
  cases a <;> simp only [Option.ite_none_right_eq_some, Option.some.injEq] at ht
  case bread p k => exact bget_inv h ht.1 ht.2
  all_goals obtain ⟨hp, rfl⟩ := ht
  case lock p b k =>
    obtain ⟨hr, hbk⟩ := h.uses p b k (.inl hp.1)
    have hempty : ∀ q k', (q, b, k') ∉ s.inside := fun q k' hq => by simp [h.owner q b k' hq] at hp
    -- the block of a buffer that is not valid is on the disk
    have hdisk : s.valid b = false → s.disk k = s.blocks k := fun hv =>
      (h.clean k).resolve_right fun ⟨c, hck, hc⟩ => by
        have hvalid := h.valid c (.inl hc)
        rw [h.sole hr hvalid (hck.trans hbk.symm), hv] at hvalid
        cases hvalid
    have hdirty : s.valid b = false → s.dirty b = false := fun hv =>
      Bool.eq_false_iff.mpr fun hd => by simp [h.valid b (.inl hd)] at hv
    unfold iderw
    split <;> try split
    all_goals
      cases h
      constructor <;> simp only [update_apply] <;> grind -linarith
  case brelse p b k =>
    have huse := h.uses p b k (.inr hp.2)
    have hother : ∀ q k', (q, b, k') ∈ s.inside → q = p ∧ k' = k := fun q k' hq =>
      ⟨Option.some.inj ((h.owner q b k' hq).symm.trans (h.owner p b k hp.2)),
        (h.uses q b k' (.inr hq)).2.symm.trans huse.2⟩
    cases h
    constructor <;> simp only [update_apply] <;> grind -linarith
  case drop p b =>
    have hfront : ∀ k, s.block b ≠ k → find (b :: s.lru.erase b) s.block k = find s.lru s.block k := fun _ => find_front
    have hself : find (b :: s.lru.erase b) s.block (s.block b) = some b := by simp [find]
    cases h
    constructor <;> simp only [update_apply, List.countP_erase] <;> grind -linarith
  all_goals
    rename_i p b k d
    obtain ⟨hr, hbk⟩ := h.uses p b k (.inr hp.2)
    have hvalid := h.valid b (.inr ⟨p, k, hp.2⟩)
    have hsole : ∀ c, s.valid c = true → s.block c = k → c = b := fun c hc hck => h.sole hr hc (hck.trans hbk.symm)
    cases h
  case logWrite =>
    unfold logWrite
    constructor <;> simp only [update_apply] <;> grind -linarith
  case bwrite =>
    simp only [iderw, logWrite, update_self, if_true]
    constructor <;> simp only [update_apply] <;> grind -linarith

/-- One process at a time has a block, and finds in its buffer what was last put into the block. What is not on the disk
yet is in a buffer that is not recycled. -/
theorem bcache_coherent (buf : List B) (data : B → D) (disk : Block → D) (as : List (Act P B D)) :
    Always step (fun t => (∀ p q b c k, (p, b, k) ∈ t.inside → (q, c, k) ∈ t.inside → p = q ∧ b = c) ∧
      (∀ p b k, (p, b, k) ∈ t.inside → t.block b = k ∧ t.owner b = some p ∧ t.data b = t.blocks k) ∧
      ∀ k, t.disk k = t.blocks k ∨ ∃ b, t.block b = k ∧ t.dirty b = true ∧ t.data b = t.blocks k)
      (.init buf data disk) as := by
  have hinit : Inv (Sys.init buf data disk : Sys P B D) := by constructor <;> simp [Sys.init]
  refine always_of_along (fun s a t h _ => step_inv h) (fun t h => ?_) hinit (along_true _ as)
  have hused := @h.used
  cases h
  refine ⟨?_, ?_, ?_⟩ <;> grind -linarith

example : ((run step (.init [()] id fun _ => () : Sys Unit Unit Unit) [.bread () (1, 5), .lock () () (1, 5),
    .logWrite () () (1, 5) (), .brelse () () (1, 5), .drop () ()]).map (·.dirty ())) = some true := by decide

end Xv6.Bcache
