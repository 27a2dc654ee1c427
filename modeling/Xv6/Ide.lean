import Xv6.Lib.Run

/-!
# The disk driver

`iderw` and `ideintr`. A step is a critical section of `idelock`. The disk carries out the command that `idestart` has
given it, and raises one interrupt for it.
-/

open Function Xv6.Run

namespace Xv6.Ide

abbrev fssize : Nat := 1000

structure Buf (D : Type) where
  dev : Nat
  blockno : Nat
  valid : Bool
  dirty : Bool
  data : D

namespace Buf

variable {D : Type} (x : Buf D)

def block : Nat × Nat := (x.dev % 2, x.blockno)

def command : (Nat × Nat) × Option D := (x.block, if x.dirty then some x.data else none)

@[grind] def synced : Bool := x.valid && !x.dirty

end Buf

inductive Pc (B : Type) where
  | idle
  /-- In the loop of `iderw`, in `sleep` or behind it. -/
  | asleep (b : B)
  | awake (b : B)
deriving DecidableEq

structure Sys (P B D : Type) where
  buf : B → Buf D
  /-- The process that has locked the buffer and called `iderw`. -/
  owner : B → Option P
  idequeue : List B
  disk : Nat × Nat → D
  /-- The block, and what is to be written to it. -/
  command : Option ((Nat × Nat) × Option D)
  pc : P → Pc B
  /-- The requests as they were made, and as they have completed. -/
  appended : List B
  completed : List B
  /-- What the disk had when the request completed, and whether it has reported an error. -/
  result : B → Option D
  failed : B → Bool

variable {P B D : Type} [DecidableEq B] {s t : Sys P B D} {b : B} {q : List B}

def Sys.init (disk : Nat × Nat → D) (buf : B → Buf D) : Sys P B D :=
  ⟨buf, fun _ => none, [], disk, none, fun _ => .idle, [], [], fun _ => none, fun _ => false⟩

def idestart (s : Sys P B D) (b : B) : Option (Sys P B D) :=
  if (s.buf b).blockno ≥ fssize then none else some { s with command := some (s.buf b).command }

/-- After an error the request is completed all the same. -/
def Sys.complete (s : Sys P B D) (disk : Nat × Nat → D) (block : Nat × Nat) (err : Bool) (b : B) (q : List B) :
    Sys P B D :=
  let x := s.buf b
  { s with
    idequeue := q, disk := disk, command := none, completed := s.completed ++ [b]
    buf := update s.buf b
      { x with data := if !x.dirty && !err then disk block else x.data, valid := true, dirty := false }
    pc := fun p => if s.pc p = .asleep b then .awake b else s.pc p
    result := update s.result b (some (disk x.block)), failed := update s.failed b err }

/-- The disk has ended the command for `block`, where `idewait(1)` finds an error or none. -/
def ideintr (s : Sys P B D) (disk : Nat × Nat → D) (block : Nat × Nat) (err : Bool) : Option (Sys P B D) :=
  match s.idequeue with
  | [] => some { s with disk := disk, command := none }
  | b :: q =>
    let t := s.complete disk block err b q
    match q with
    | [] => some t
    | c :: _ => idestart t c

structure Inv (s : Sys P B D) : Prop where
  owner : ∀ p b, s.pc p = .asleep b ∨ s.pc p = .awake b → s.owner b = some p
  done : ∀ p b, s.pc p = .awake b →
    b ∈ s.idequeue ∨ (s.buf b).synced = true ∧ (s.failed b = false → s.result b = some (s.buf b).data)
  waits : ∀ p b, s.pc p = .asleep b → b ∈ s.idequeue
  queued : ∀ b ∈ s.idequeue, (s.buf b).synced = false ∧ s.owner b ≠ none
  nodup : s.idequeue.Nodup
  command : s.command = s.idequeue.head?.map fun b => (s.buf b).command
  order : s.appended = s.completed ++ s.idequeue

omit [DecidableEq B] in
theorem idestart_eq (ht : idestart s b = some t) : t = { s with command := some (s.buf b).command } := by
  unfold idestart at ht
  split at ht
  · cases ht
  · exact (Option.some.inj ht).symm

section Interrupt

variable {disk : Nat × Nat → D} {block : Nat × Nat} {err : Bool}

theorem ideintr_eq (hq : s.idequeue = b :: q) (ht : ideintr s disk block err = some t) :
    t = { s.complete disk block err b q with
      command := q.head?.map fun c => ((s.complete disk block err b q).buf c).command } := by
  simp only [ideintr, hq] at ht
  cases q with
  | nil => exact (Option.some.inj ht).symm
  | cons c q => exact idestart_eq ht

theorem Inv.ideintr (h : Inv s)
    (hdisk : err = false → ∀ b q, s.idequeue = b :: q →
      disk (s.buf b).block = if (s.buf b).dirty then (s.buf b).data else disk block)
    (ht : ideintr s disk block err = some t) : Inv t := by
  rcases hq : s.idequeue with _ | ⟨b, q⟩
  · simp only [Ide.ideintr, hq, Option.some.injEq] at ht
    subst ht
    cases h
    constructor <;> grind
  · obtain rfl := ideintr_eq hq ht
    obtain ⟨hb, hnodup⟩ := List.nodup_cons.mp (hq ▸ h.nodup)
    -- without an error the buffer gets what the disk has, or has been written to it
    have hdata : err = false → (if !(s.buf b).dirty && !err then disk block else (s.buf b).data) =
        disk (s.buf b).block := by
      rintro rfl
      rw [hdisk rfl b q hq]
      cases (s.buf b).dirty <;> rfl
    have hrest : ∀ c ∈ q, c ≠ b := fun c hc => ne_of_mem_of_not_mem hc hb
    have hsleeps : ∀ p c, s.pc p = .asleep c → c = b ∨ c ∈ q := fun p c hp =>
      List.mem_cons.mp (hq ▸ h.waits p c hp)
    cases h
    constructor <;> simp only [Sys.complete, update_apply] <;> grind

end Interrupt

variable [DecidableEq P] (havedisk1 : Bool)

def Sys.append (s : Sys P B D) (p : P) (b : B) : Sys P B D :=
  { s with
    owner := update s.owner b (some p), idequeue := s.idequeue ++ [b], pc := update s.pc p (.asleep b)
    appended := s.appended ++ [b], result := update s.result b none, failed := update s.failed b false }

def iderw (s : Sys P B D) (p : P) (b : B) : Option (Sys P B D) :=
  if (s.buf b).synced ∨ (s.buf b).dev ≠ 0 ∧ !havedisk1 then none
  else
    let t := s.append p b
    if t.idequeue.head? = some b then idestart t b else some t

/-- The disk is started for the first request only, and is at work for it when there are more. -/
theorem iderw_eq {p : P} (h : Inv s) (hb : b ∉ s.idequeue) (ht : iderw havedisk1 s p b = some t) :
    (s.buf b).synced = false ∧
      t = { s.append p b with command := (s.idequeue ++ [b]).head?.map fun c => (s.buf c).command } := by
  unfold iderw at ht
  obtain ⟨hok, ht⟩ := Option.ite_none_left_eq_some.mp ht
  refine ⟨Bool.eq_false_iff.mpr fun hs => hok (.inl hs), ?_⟩
  cases hq : s.idequeue with
  | nil =>
    rw [if_pos (by simp [Sys.append, hq])] at ht
    exact idestart_eq ht
  | cons c q =>
    have hc : c ≠ b := fun hc => hb (by rw [hq, hc]; exact List.mem_cons_self)
    rw [if_neg (by simp [Sys.append, hq, hc]), Option.some.injEq] at ht
    have hcommand : s.command = some (s.buf c).command := by rw [h.command, hq]; rfl
    rw [← ht, List.cons_append, List.head?_cons, Option.map_some, ← hcommand]
    rfl

theorem Inv.iderw {p : P} (h : Inv s) (hidle : s.pc p = .idle) (hfree : s.owner b = none)
    (ht : iderw havedisk1 s p b = some t) : Inv t := by
  have hb : b ∉ s.idequeue := fun hb => (h.queued b hb).2 hfree
  obtain ⟨hsync, rfl⟩ := iderw_eq havedisk1 h hb ht
  -- nobody else is in `iderw` with the buffer
  have hother : ∀ r c, s.pc r = .asleep c ∨ s.pc r = .awake c → r ≠ p ∧ c ≠ b := fun r c hr =>
    ⟨by rintro rfl; simp [hidle] at hr, by rintro rfl; simp [h.owner r c hr] at hfree⟩
  cases h
  constructor <;> simp only [Sys.append, update_apply] <;> grind

inductive Act (P B D : Type) where
  /-- Whatever others do with a buffer. -/
  | change (b : B) (x : Buf D)
  | iderw (p : P) (b : B)
  /-- The test of the loop in `iderw`. -/
  | test (p : P) (b : B)
  | kill (p : P) (b : B)
  /-- After an error there may be anything in the block. -/
  | interrupt (err : Option D)

def step (s : Sys P B D) : Act P B D → Option (Sys P B D)
  | .change b x => if s.owner b = none then some { s with buf := update s.buf b x } else none
  | .iderw p b => if s.owner b = none ∧ s.pc p = .idle then iderw havedisk1 s p b else none
  | .test p b =>
    if s.pc p = .awake b then
      if (s.buf b).synced then some { s with pc := update s.pc p .idle, owner := update s.owner b none }
      else some { s with pc := update s.pc p (.asleep b) }
    else none
  | .kill p b => if s.pc p = .asleep b then some { s with pc := update s.pc p (.awake b) } else none
  | .interrupt err =>
    match s.command with
    | none => none
    | some (block, data) => ideintr s ((err <|> data).elim s.disk (update s.disk block)) block err.isSome

theorem Inv.interrupt {err : Option D} (h : Inv s) (ht : step havedisk1 s (.interrupt err) = some t) : Inv t := by
  simp only [step] at ht
  split at ht
  case h_1 => cases ht
  case h_2 block data hc =>
    refine h.ideintr (fun herr b q hq => ?_) ht
    have hcommand := h.command
    rw [hc, hq, List.head?_cons, Option.map_some, Option.some.injEq, Buf.command, Prod.mk.injEq] at hcommand
    obtain ⟨rfl, rfl⟩ := hcommand
    obtain rfl := Option.not_isSome_iff_eq_none.mp (Bool.eq_false_iff.mp herr)
    split <;> simp

theorem step_inv {a : Act P B D} (h : Inv s) (ht : step havedisk1 s a = some t) : Inv t := by
  cases a with
  | interrupt err => exact h.interrupt havedisk1 ht
  | iderw p b =>
    obtain ⟨⟨hfree, hidle⟩, ht⟩ := Option.ite_none_right_eq_some.mp ht
    exact h.iderw havedisk1 hidle hfree ht
  | change b x =>
    obtain ⟨hfree, ht⟩ := Option.ite_none_right_eq_some.mp ht
    cases ht
    have hqueue : ∀ c ∈ s.idequeue, update s.buf b x c = s.buf c := fun c hc =>
      update_of_ne (by rintro rfl; exact (h.queued c hc).2 hfree) _ _
    have hinside : ∀ p c, s.pc p = .awake c → update s.buf b x c = s.buf c := fun p c hp =>
      update_of_ne (by rintro rfl; simp [h.owner p c (.inr hp)] at hfree) _ _
    refine { h with done := fun p c hp => ?_, queued := fun c hc => ?_, command := ?_ }
    · simp only [hinside p c hp]
      exact h.done p c hp
    · simp only [hqueue c hc]
      exact h.queued c hc
    · exact h.command.trans (Option.map_congr fun c hc => congrArg _ (hqueue c (List.mem_of_mem_head? hc)).symm)
  | kill p b =>
    obtain ⟨hp, ht⟩ := Option.ite_none_right_eq_some.mp ht
    cases ht
    have hqueue := h.waits p b hp
    have howner := h.owner p b (.inl hp)
    cases h
    constructor <;> simp only [update_apply] <;> grind
  | test p b =>
    obtain ⟨hp, ht⟩ := Option.ite_none_right_eq_some.mp ht
    have howner := h.owner p b (.inr hp)
    have hsole : ∀ r, s.pc r = .asleep b ∨ s.pc r = .awake b → r = p := fun r hr =>
      Option.some.inj ((h.owner r b hr).symm.trans howner)
    split at ht
    case isTrue hs =>
      cases ht
      have hqueue : b ∉ s.idequeue := fun hb => by simp [(h.queued b hb).1] at hs
      cases h
      constructor <;> simp only [update_apply] <;> grind
    case isFalse hs =>
      cases ht
      have hqueue : b ∈ s.idequeue := (h.done p b hp).resolve_right fun hdone => hs hdone.1
      cases h
      constructor <;> simp only [update_apply] <;> grind

/-- The disk works on the first request, requests complete in their order, and nobody sleeps behind that. Who comes
out of `iderw` has in the buffer what was on the disk when the request completed, unless the disk reported an error. -/
theorem ide_requests (disk : Nat × Nat → D) (buf : B → Buf D) (as : List (Act P B D)) :
    Always (step havedisk1) (fun t => t.idequeue.Nodup ∧ t.appended = t.completed ++ t.idequeue ∧
      t.command = t.idequeue.head?.map (fun b => (t.buf b).command) ∧
      (∀ p b, t.pc p = .asleep b → b ∈ t.idequeue) ∧
      ∀ p b, t.pc p = .awake b → (t.buf b).synced = true →
        b ∉ t.idequeue ∧ (t.failed b = false → t.result b = some (t.buf b).data)) (.init disk buf) as := by
  have hinit : Inv (Sys.init disk buf : Sys P B D) := by constructor <;> simp [Sys.init]
  refine always_of_along (fun s a t h _ => step_inv havedisk1 h)
    (fun t h => ⟨h.nodup, h.order, h.command, h.waits, fun p b hp hs => ?_⟩) hinit (along_true _ as)
  have hb : b ∉ t.idequeue := fun hb => by simp [(h.queued b hb).1] at hs
  exact ⟨hb, ((h.done p b hp).resolve_left hb).2⟩

example : ((run (step false) (.init Prod.snd fun _ => ⟨0, 7, false, false, 0⟩ : Sys Unit Unit Nat) [.iderw () (),
    .interrupt none, .test () ()]).map fun t => (t.pc (), (t.buf ()).data)) = some (.idle, 7) := by decide

end Xv6.Ide
