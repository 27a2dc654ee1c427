import Mathlib.Data.List.Count
import Mathlib.Data.List.FinRange
import Mathlib.Data.List.Perm.Basic
import Mathlib.Logic.Function.Basic
import Xv6.Lib.Run

/-!
# The inode cache under concurrency

A step is a critical section of `icache.lock`, of an inode's sleep-lock or of a buffer, with the code that follows it.
-/

open Function Xv6.Run

namespace Xv6.Icache

structure Dinode where
  type : Nat
  nlink : Nat
deriving DecidableEq

attribute [ext] Dinode

structure Slot (n np : Nat) where
  inum : Fin n
  ref : Nat
  /-- `I_VALID`. -/
  valid : Bool
  copy : Dinode
  /-- The process that holds the sleep-lock. -/
  owner : Option (Fin np)

inductive Pc (m n : Nat) where
  | idle
  -- `ialloc`
  | scan (i : Nat) (type : Nat)
  | alloced (i : Fin n)
  -- `ilock`
  | locking (k : Fin m)
  | reading (k : Fin m)
  -- `iput` of an inode without links
  | trunc (k : Fin m)
  | clear (k : Fin m)
  | write (k : Fin m)
  | drop (k : Fin m)
deriving DecidableEq

def Pc.frees {m n : Nat} : Pc m n → Option (Fin m)
  | trunc k | clear k | write k | drop k => some k
  | _ => none

def Pc.about {m n : Nat} : Pc m n → Option (Fin m)
  | locking k | reading k | trunc k | clear k | write k | drop k => some k
  | _ => none

/-- `iput` has yet to free the inode on disk. -/
def Pc.Early {m n : Nat} (c : Pc m n) (k : Fin m) : Prop := c = .trunc k ∨ c = .clear k ∨ c = .write k

theorem Pc.Early.frees {m n : Nat} {c : Pc m n} {k : Fin m} (h : c.Early k) : c.frees = some k := by
  rcases h with rfl | rfl | rfl <;> rfl

theorem Pc.not_early_drop {m n : Nat} {k : Fin m} : ¬(Pc.drop k : Pc m n).Early k := by
  rintro (h | h | h) <;> cases h

structure Cache (m n np : Nat) where
  disk : Fin n → Dinode
  slot : Fin m → Slot n np
  /-- How many directory entries name an inode. The entry `.` of a directory is not one of them, as `nlink` does not
  count it. -/
  entries : Fin n → Nat
  pc : Fin np → Pc m n
  /-- The references that the processes hold. -/
  refs : List (Fin np × Fin m)

inductive Act (m n np : Nat) where
  | ialloc (p : Fin np) (type : Nat)
  /-- `dirlookup`, with its directory locked. -/
  | dirlookup (p : Fin np) (i : Fin n)
  | idup (p : Fin np) (k : Fin m)
  | ilock (p : Fin np) (k : Fin m)
  | iupdate (p : Fin np) (k : Fin m) (nlink : Nat)
  | iunlock (p : Fin np) (k : Fin m)
  | iput (p : Fin np) (k : Fin m)
  | go (p : Fin np)
  | link (i : Fin n)
  | unlink (i : Fin n)
deriving DecidableEq

variable {m n np : Nat}

namespace Cache

def goto (s : Cache m n np) (p : Fin np) (c : Pc m n) : Cache m n np := { s with pc := update s.pc p c }

def setSlot (s : Cache m n np) (k : Fin m) (x : Slot n np) : Cache m n np := { s with slot := update s.slot k x }

def setDisk (s : Cache m n np) (i : Fin n) (d : Dinode) : Cache m n np := { s with disk := update s.disk i d }

section Fields

variable (s : Cache m n np) (p : Fin np) (c : Pc m n) (k : Fin m) (x : Slot n np) (i : Fin n) (d : Dinode)

@[simp] theorem goto_pc_self : (s.goto p c).pc p = c := update_self _ _ _
@[simp] theorem goto_slot : (s.goto p c).slot = s.slot := rfl
@[simp] theorem goto_disk : (s.goto p c).disk = s.disk := rfl
@[simp] theorem setSlot_slot_self : (s.setSlot k x).slot k = x := update_self _ _ _
@[simp] theorem setDisk_disk_self : (s.setDisk i d).disk i = d := update_self _ _ _

variable {s p c k x i d}

theorem goto_pc_ne {q : Fin np} (h : q ≠ p) : (s.goto p c).pc q = s.pc q := update_of_ne h _ _

theorem goto_eq_self (h : s.pc p = c) : s.goto p c = s := by
  subst h
  exact congrArg (fun f => { s with pc := f }) (update_eq_self p s.pc)

theorem setSlot_eq_self (h : x = s.slot k) : s.setSlot k x = s := by
  subst h
  exact congrArg (fun f => { s with slot := f }) (update_eq_self k s.slot)

theorem setDisk_eq_self (h : d = s.disk i) : s.setDisk i d = s := by
  subst h
  exact congrArg (fun f => { s with disk := f }) (update_eq_self i s.disk)

theorem setSlot_slot_ne {l : Fin m} (h : l ≠ k) : (s.setSlot k x).slot l = s.slot l := update_of_ne h _ _

theorem setDisk_disk_ne {j : Fin n} (h : j ≠ i) : (s.setDisk i d).disk j = s.disk j := update_of_ne h _ _

end Fields

def cached (s : Cache m n np) (i : Fin n) : Option (Fin m) :=
  (List.finRange m).find? fun k => 0 < (s.slot k).ref ∧ (s.slot k).inum = i

def empty (s : Cache m n np) : Option (Fin m) := (List.finRange m).find? fun k => (s.slot k).ref = 0

def hold (s : Cache m n np) (p : Fin np) (k : Fin m) : Cache m n np :=
  { s.setSlot k { s.slot k with ref := (s.slot k).ref + 1 } with refs := (p, k) :: s.refs }

def release (s : Cache m n np) (p : Fin np) (k : Fin m) : Cache m n np :=
  { s.setSlot k { s.slot k with ref := (s.slot k).ref - 1 } with refs := s.refs.erase (p, k) }

def iget (s : Cache m n np) (p : Fin np) (i : Fin n) : Option (Cache m n np) :=
  match s.cached i with
  | some k => some ((s.hold p k).goto p .idle)
  | none =>
    match s.empty with
    | none => none
    | some k =>
      some { (s.setSlot k { s.slot k with inum := i, ref := 1, valid := false }).goto p .idle with
        refs := (p, k) :: s.refs }

def writeBack (s : Cache m n np) (k : Fin m) : Cache m n np := s.setDisk (s.slot k).inum (s.slot k).copy

def iput (s : Cache m n np) (p : Fin np) (k : Fin m) : Cache m n np :=
  if (s.slot k).ref = 1 ∧ (s.slot k).valid ∧ (s.slot k).copy.nlink = 0 then s.goto p (.trunc k) else s.release p k

/-- The next critical section of a call. -/
def go (s : Cache m n np) (p : Fin np) : Option (Cache m n np) :=
  match s.pc p with
  | .idle => none
  | .scan i type =>
    if h : i < n then
      if (s.disk ⟨i, h⟩).type = 0 then some ((s.setDisk ⟨i, h⟩ ⟨type, 0⟩).goto p (.alloced ⟨i, h⟩))
      else some (s.goto p (.scan (i + 1) type))
    else none
  | .alloced i => s.iget p i
  | .locking k =>
    if (s.slot k).owner = none then
      some ((s.setSlot k { s.slot k with owner := some p }).goto p (if (s.slot k).valid then .idle else .reading k))
    else none
  | .reading k =>
    let d := s.disk (s.slot k).inum
    if d.type = 0 then none else some ((s.setSlot k { s.slot k with copy := d, valid := true }).goto p .idle)
  | .trunc k => some ((s.writeBack k).goto p (.clear k))
  | .clear k =>
    some ((s.setSlot k { s.slot k with copy := { (s.slot k).copy with type := 0 } }).goto p (.write k))
  | .write k => some ((s.writeBack k).goto p (.drop k))
  | .drop k => some (((s.setSlot k { s.slot k with valid := false }).release p k).goto p .idle)

def step (s : Cache m n np) : Act m n np → Option (Cache m n np)
  | .ialloc p type => if s.pc p = .idle ∧ type ≠ 0 then some (s.goto p (.scan 1 type)) else none
  | .dirlookup p i => if s.pc p = .idle ∧ 0 < s.entries i then s.iget p i else none
  | .idup p k => if s.pc p = .idle ∧ (p, k) ∈ s.refs then some (s.hold p k) else none
  | .ilock p k => if s.pc p = .idle ∧ (p, k) ∈ s.refs then some (s.goto p (.locking k)) else none
  | .iupdate p k nlink =>
    if s.pc p = .idle ∧ (s.slot k).owner = some p then
      some ((s.setSlot k { s.slot k with copy := { (s.slot k).copy with nlink := nlink } }).writeBack k)
    else none
  | .iunlock p k =>
    if s.pc p = .idle ∧ (s.slot k).owner = some p then some (s.setSlot k { s.slot k with owner := none }) else none
  | .iput p k =>
    if s.pc p = .idle ∧ (p, k) ∈ s.refs ∧ (s.slot k).owner ≠ some p then some (s.iput p k) else none
  | .go p => s.go p
  | .link i => some { s with entries := update s.entries i (s.entries i + 1) }
  | .unlink i =>
    if 0 < s.entries i then some { s with entries := update s.entries i (s.entries i - 1) } else none

def LockedCopies (s : Cache m n np) : Prop :=
  ∀ k p, (s.slot k).owner = some p → s.pc p ≠ .reading k →
    (s.slot k).copy.type ≠ 0 ∧ (s.slot k).copy.type = (s.disk (s.slot k).inum).type

/-- No `ilock` gets an inode that `iput` has freed on disk and not in the cache, and the link counts cover the
entries. -/
def NotFreeing (s : Cache m n np) : Act m n np → Prop
  | .go p => ∀ k, s.pc p = .locking k → ∀ q, s.pc q ≠ .drop k
  | .iupdate _ k nlink => s.entries (s.slot k).inum ≤ nlink
  | .link i => s.entries i < (s.disk i).nlink
  | _ => True

instance (s : Cache m n np) (a : Act m n np) : Decidable (s.NotFreeing a) := by
  cases a <;> unfold NotFreeing <;> infer_instance

def Dropping (s : Cache m n np) (k : Fin m) : Prop := ∃ q, s.pc q = .drop k

/-- `iput` has found the last reference to an inode without links. -/
structure Freeing (s : Cache m n np) (q : Fin np) (k : Fin m) : Prop where
  mem : (q, k) ∈ s.refs
  valid : (s.slot k).valid = true
  nlink : (s.slot k).copy.nlink = 0
  disk : (s.disk (s.slot k).inum).nlink = 0
  owner : (s.slot k).owner = none

structure Early (s : Cache m n np) (q : Fin np) (k : Fin m) : Prop extends Freeing s q k where
  last : (s.slot k).ref = 1
  type : (s.disk (s.slot k).inum).type ≠ 0

def At (s : Cache m n np) (q : Fin np) : Pc m n → Prop
  | .idle => True
  | .scan _ type => type ≠ 0
  | .alloced i => (s.disk i).type ≠ 0 ∧ (s.disk i).nlink = 0 ∧
      ∀ k, 0 < (s.slot k).ref → (s.slot k).inum = i → (s.slot k).ref = 1 ∧ s.Dropping k
  | .locking k => (q, k) ∈ s.refs
  | .reading k => (s.slot k).owner = some q ∧ (s.slot k).valid = false
  | .trunc k => s.Early q k ∧ (s.slot k).copy.type = (s.disk (s.slot k).inum).type
  | .clear k => s.Early q k
  | .write k => s.Early q k ∧ (s.slot k).copy.type = 0
  | .drop k => s.Freeing q k ∧ (s.slot k).copy.type = 0 ∧ ((s.disk (s.slot k).inum).type = 0 → (s.slot k).ref = 1)

structure Sound (s : Cache m n np) : Prop where
  place : ∀ q, s.At q (s.pc q)
  sole : ∀ q r k, (s.pc q).frees = some k → (s.pc r).frees = some k → q = r
  once : ∀ q r i, s.pc q = .alloced i → s.pc r = .alloced i → q = r
  count : ∀ k, (s.slot k).ref = (s.refs.map Prod.snd).count k
  distinct : ∀ k l, 0 < (s.slot k).ref → 0 < (s.slot l).ref → (s.slot k).inum = (s.slot l).inum → k = l
  copy : ∀ k, 0 < (s.slot k).ref → (s.slot k).valid = true → (∀ q, (s.pc q).frees ≠ some k) →
    (s.slot k).copy = s.disk (s.slot k).inum ∧ (s.slot k).copy.type ≠ 0
  owner : ∀ k q, (s.slot k).owner = some q → (q, k) ∈ s.refs ∧ (s.pc q = .reading k ∨ (s.slot k).valid = true)
  live : ∀ k, 0 < (s.slot k).ref → (s.disk (s.slot k).inum).type = 0 → s.Dropping k
  entries : ∀ i, s.entries i ≤ (s.disk i).nlink
  dead : ∀ i, (s.disk i).type = 0 → (s.disk i).nlink = 0

end Cache

theorem two_le_count {refs : List (Fin np × Fin m)} {p q : Fin np} {k : Fin m} (hp : (p, k) ∈ refs) (hq : (q, k) ∈ refs)
    (hne : p ≠ q) : 2 ≤ (refs.map Prod.snd).count k := by
  have hperm := List.perm_cons_erase hp
  have hq' : (q, k) ∈ refs.erase (p, k) := (List.mem_erase_of_ne (by simp [hne.symm])).mpr hq
  have hcount := (hperm.map Prod.snd).count_eq k
  rw [hcount, List.map_cons, List.count_cons_self]
  have hpos : 0 < ((refs.erase (p, k)).map Prod.snd).count k :=
    List.count_pos_iff.mpr (List.mem_map.mpr ⟨(q, k), hq', rfl⟩)
  omega

theorem mem_erase_of_other {refs : List (Fin np × Fin m)} {p : Fin np} {k : Fin m} (q : Fin np) (l : Fin m)
    (hne : l ≠ k ∨ q ≠ p) (hm : (q, l) ∈ refs) : (q, l) ∈ refs.erase (p, k) := by
  refine (List.mem_erase_of_ne ?_).mpr hm
  rintro ⟨⟩
  exact hne.elim (fun h => h rfl) fun h => h rfl

theorem count_erase {refs : List (Fin np × Fin m)} {p : Fin np} {k : Fin m} (hp : (p, k) ∈ refs) (l : Fin m) :
    ((refs.erase (p, k)).map Prod.snd).count l = (refs.map Prod.snd).count l - if l = k then 1 else 0 := by
  have hcount := ((List.perm_cons_erase hp).map Prod.snd).count_eq l
  rw [hcount, List.map_cons, List.count_cons]
  simp only [beq_iff_eq, eq_comm (a := k)]
  split <;> omega

theorem Cache.setSlot_count {s : Cache m n np} {k : Fin m} {x : Slot n np}
    (h : ∀ l, (s.slot l).ref = (s.refs.map Prod.snd).count l) (href : x.ref = (s.slot k).ref) (l : Fin m) :
    ((s.setSlot k x).slot l).ref = (s.refs.map Prod.snd).count l := by
  rw [← h]
  rcases eq_or_ne l k with rfl | hl
  · rw [setSlot_slot_self, href]
  · rw [setSlot_slot_ne hl]

theorem Cache.release_count {s : Cache m n np} {p : Fin np} {k : Fin m}
    (h : ∀ l, (s.slot l).ref = (s.refs.map Prod.snd).count l) (hp : (p, k) ∈ s.refs) (l : Fin m) :
    ((s.release p k).slot l).ref = ((s.refs.erase (p, k)).map Prod.snd).count l := by
  rw [count_erase hp, ← h]
  rcases eq_or_ne l k with rfl | hl
  · rw [if_pos rfl]
    exact congrArg Slot.ref (s.setSlot_slot_self l _)
  · rw [if_neg hl]
    exact congrArg Slot.ref (setSlot_slot_ne hl)

namespace Cache.Sound

variable {s u : Cache m n np} {p q : Fin np} {k : Fin m}

variable (h : s.Sound)
include h

theorem ref_pos (hp : (p, k) ∈ s.refs) : 0 < (s.slot k).ref := by
  rw [h.count]
  exact List.count_pos_iff.mpr (List.mem_map.mpr ⟨(p, k), hp, rfl⟩)

theorem at_of {c : Pc m n} (hq : s.pc q = c) : s.At q c := hq ▸ h.place q

theorem freeing (hq : (s.pc q).frees = some k) : s.Freeing q k := by
  have hat := h.place q
  cases hpc : s.pc q <;> rw [hpc] at hq hat <;> cases hq
  case trunc => exact hat.1.toFreeing
  case clear => exact hat.toFreeing
  case write => exact hat.1.toFreeing
  case drop => exact hat.1

theorem not_frees (howner : (s.slot k).owner = some p) (q : Fin np) : (s.pc q).frees ≠ some k :=
  fun hq => nomatch (h.freeing hq).owner.symm.trans howner

theorem early_at (hq : (s.pc q).Early k) : s.Early q k := by
  rcases hq with hq | hq | hq
  exacts [(h.at_of hq).1, h.at_of hq, (h.at_of hq).1]

theorem two_holders (hp : (p, k) ∈ s.refs) (hq : (s.pc q).frees = some k) (hne : p ≠ q) :
    2 ≤ (s.slot k).ref := by
  rw [h.count]
  exact two_le_count hp (h.freeing hq).mem hne

theorem held (hp : (p, k) ∈ s.refs) (hnot : (s.pc p).frees ≠ some k) :
    (s.disk (s.slot k).inum).type ≠ 0 ∧ (∀ q, ¬ (s.pc q).Early k) ∧
      ∀ q, s.pc q ≠ .alloced (s.slot k).inum := by
  have hne : ∀ q, (s.pc q).frees = some k → p ≠ q := by
    rintro q hq rfl
    exact hnot hq
  have hdrop : s.Dropping k → (s.slot k).ref ≠ 1 := by
    rintro ⟨q, hq⟩ hone
    have := h.two_holders hp (by rw [hq]; rfl) (hne q (by rw [hq]; rfl))
    omega
  refine ⟨fun hz => ?_, fun q hq => ?_, fun q hq => ?_⟩
  · obtain ⟨q, hq⟩ := h.live k (h.ref_pos hp) hz
    have hat := h.at_of hq
    exact hdrop ⟨q, hq⟩ (hat.2.2 hz)
  · have htwo := h.two_holders hp hq.frees (hne q hq.frees)
    have hlast := (h.early_at hq).last
    omega
  · have hat := h.at_of hq
    obtain ⟨hone, hd⟩ := hat.2.2 k (h.ref_pos hp) rfl
    exact hdrop hd hone

end Cache.Sound

namespace Cache

variable {s u : Cache m n np} {p q : Fin np} {k : Fin m} {c : Pc m n}

/-- An inode is as it was, or it was free and has been allocated. -/
def Kept (d e : Dinode) : Prop := e = d ∨ d.type = 0 ∧ e.type ≠ 0 ∧ e.nlink = 0

theorem Kept.of_live {d e : Dinode} (h : Kept d e) (hd : d.type ≠ 0) : e = d := h.resolve_right fun hc => hd hc.1

theorem Freeing.frame (h : s.Freeing q k) (hslot : u.slot k = s.slot k)
    (hdisk : Kept (s.disk (s.slot k).inum) (u.disk (s.slot k).inum)) (hmem : (q, k) ∈ u.refs) : u.Freeing q k := by
  refine ⟨hmem, hslot ▸ h.valid, hslot ▸ h.nlink, ?_, hslot ▸ h.owner⟩
  rw [hslot]
  exact hdisk.elim (fun he => he ▸ h.disk) fun hc => hc.2.2

theorem Early.frame (h : s.Early q k) (hslot : u.slot k = s.slot k)
    (hdisk : Kept (s.disk (s.slot k).inum) (u.disk (s.slot k).inum)) (hmem : (q, k) ∈ u.refs) : u.Early q k :=
  ⟨h.toFreeing.frame hslot hdisk hmem, hslot ▸ h.last, by rw [hslot, hdisk.of_live h.type]; exact h.type⟩

theorem At.frame (h : s.At q c)
    (habout : ∀ l, c.about = some l → u.slot l = s.slot l ∧
      (c.frees = some l → Kept (s.disk (s.slot l).inum) (u.disk (s.slot l).inum)) ∧ ((q, l) ∈ s.refs → (q, l) ∈ u.refs))
    (halloced : ∀ i, c = .alloced i → u.disk i = s.disk i ∧
      ∀ l, 0 < (u.slot l).ref → (u.slot l).inum = i → (u.slot l).ref = 1 ∧ u.Dropping l) : u.At q c := by
  cases c with
  | idle => trivial
  | scan => exact h
  | alloced i =>
    obtain ⟨hdisk, hslots⟩ := halloced i rfl
    exact ⟨by rw [hdisk]; exact h.1, by rw [hdisk]; exact h.2.1, hslots⟩
  | locking l => exact (habout l rfl).2.2 h
  | reading l =>
    have hslot := (habout l rfl).1
    exact ⟨by rw [hslot]; exact h.1, by rw [hslot]; exact h.2⟩
  | trunc l =>
    obtain ⟨hslot, hdisk, hmem⟩ := habout l rfl
    refine ⟨h.1.frame hslot (hdisk rfl) (hmem h.1.mem), ?_⟩
    rw [hslot, (hdisk rfl).of_live h.1.type]
    exact h.2
  | clear l =>
    obtain ⟨hslot, hdisk, hmem⟩ := habout l rfl
    exact Early.frame h hslot (hdisk rfl) (hmem (Early.toFreeing h).mem)
  | write l =>
    obtain ⟨hslot, hdisk, hmem⟩ := habout l rfl
    refine ⟨h.1.frame hslot (hdisk rfl) (hmem h.1.mem), ?_⟩
    rw [hslot]
    exact h.2
  | drop l =>
    obtain ⟨hslot, hdisk, hmem⟩ := habout l rfl
    refine ⟨h.1.frame hslot (hdisk rfl) (hmem h.1.mem), hslot ▸ h.2.1, fun hz => ?_⟩
    rw [hslot] at hz ⊢
    exact h.2.2 ((hdisk rfl).elim (fun he => he ▸ hz) fun hc => absurd hz hc.2.1)

theorem about_of_frees (hc : c.frees = some k) : c.about = some k := by
  cases c <;> first | exact hc | cases hc

theorem early_of_frees (hc : c.frees = some k) (hd : c ≠ .drop k) : c.Early k := by
  cases c <;> cases hc
  case trunc => exact .inl rfl
  case clear => exact .inr (.inl rfl)
  case write => exact .inr (.inr rfl)
  case drop => exact absurd rfl hd

/-- The process `p` goes to `c` and changes the slots in `K` and the inodes on disk, so that the others can go on. -/
structure Acts (s u : Cache m n np) (p : Fin np) (c : Pc m n) (K : Fin m → Prop) : Prop where
  pc : u.pc = update s.pc p c := by rfl
  entries : u.entries = s.entries := by rfl
  slot : ∀ l, ¬K l → u.slot l = s.slot l := by exact fun _ hl => setSlot_slot_ne hl
  disk : ∀ l, ¬K l → 0 < (s.slot l).ref → Kept (s.disk (s.slot l).inum) (u.disk (s.slot l).inum) := by
    exact fun _ _ _ => .inl rfl
  inode : ∀ i, u.disk i = s.disk i ∨ s.entries i ≤ (u.disk i).nlink ∧ ((u.disk i).type = 0 → (u.disk i).nlink = 0) := by
    exact fun _ => .inl rfl
  refs : ∀ q l, ¬K l ∨ q ≠ p → (q, l) ∈ s.refs → (q, l) ∈ u.refs := by exact fun _ _ _ => id
  count : ∀ l, (u.slot l).ref = (u.refs.map Prod.snd).count l
  about : ∀ l, (s.pc p).about = some l → K l
  frees : ∀ l, c.frees = some l → K l ∧ ∀ q, q ≠ p → (s.pc q).frees ≠ some l := by nofun
  once : ∀ i, c = .alloced i → ∀ q, s.pc q ≠ .alloced i := by nofun
  place : u.At p c := by trivial
  others : ∀ q l, q ≠ p → K l → (s.pc q).about = some l → u.At q (s.pc q) := by nofun
  alloced : ∀ q i, q ≠ p → s.pc q = .alloced i → u.disk i = s.disk i ∧
    ∀ l, K l → 0 < (u.slot l).ref → (u.slot l).inum = i → (u.slot l).ref = 1 ∧ u.Dropping l
  distinct : ∀ k l, K k → 0 < (u.slot k).ref → 0 < (u.slot l).ref → (u.slot k).inum = (u.slot l).inum → k = l := by
    nofun
  copy : ∀ k, K k → 0 < (u.slot k).ref → (u.slot k).valid = true → (∀ q, (u.pc q).frees ≠ some k) →
    (u.slot k).copy = u.disk (u.slot k).inum ∧ (u.slot k).copy.type ≠ 0 := by nofun
  owner : ∀ k q, K k → (u.slot k).owner = some q →
    (q, k) ∈ u.refs ∧ (u.pc q = .reading k ∨ (u.slot k).valid = true) := by nofun
  live : ∀ k, K k → 0 < (u.slot k).ref → (u.disk (u.slot k).inum).type = 0 → u.Dropping k := by nofun

namespace Acts

variable {K : Fin m → Prop} (a : Acts s u p c K)
include a

theorem pc_self : u.pc p = c := by rw [a.pc, update_self]

theorem pc_ne (hq : q ≠ p) : u.pc q = s.pc q := by rw [a.pc, update_of_ne hq]

theorem ne_of_about {l : Fin m} (hl : ¬K l) (hq : (s.pc q).about = some l) : q ≠ p := by
  rintro rfl
  exact hl (a.about l hq)

theorem dropping {l : Fin m} (hl : ¬K l) : s.Dropping l → u.Dropping l := fun ⟨q, hq⟩ =>
  ⟨q, (a.pc_ne (a.ne_of_about hl (by rw [hq]; rfl))).trans hq⟩

theorem place_ne (h : s.Sound) (hq : q ≠ p) : u.At q (s.pc q) := by
  by_cases hk : ∃ l, K l ∧ (s.pc q).about = some l
  · obtain ⟨l, hl, habout⟩ := hk
    exact a.others q l hq hl habout
  have hother : ∀ l, (s.pc q).about = some l → ¬K l := fun l habout hl => hk ⟨l, hl, habout⟩
  refine (h.place q).frame (fun l hl => ⟨a.slot l (hother l hl), fun hf => ?_, a.refs q l (.inr hq)⟩) fun i hi => ?_
  · exact a.disk l (hother l hl) (h.ref_pos (h.freeing hf).mem)
  obtain ⟨hdisk, hslots⟩ := a.alloced q i hq hi
  refine ⟨hdisk, fun l hl hli => ?_⟩
  by_cases hlk : K l
  · exact hslots l hlk hl hli
  · rw [a.slot l hlk] at hl hli ⊢
    exact ((h.at_of hi).2.2 l hl hli).imp_right (a.dropping hlk)

theorem sole_ne (h : s.Sound) {q r : Fin np} {l : Fin m} (hr : r ≠ p) (hfq : (u.pc q).frees = some l)
    (hfr : (s.pc r).frees = some l) : q = r := by
  rcases eq_or_ne q p with rfl | hq
  · rw [a.pc_self] at hfq
    exact absurd hfr ((a.frees l hfq).2 r hr)
  · rw [a.pc_ne hq] at hfq
    exact h.sole q r l hfq hfr

theorem sole (h : s.Sound) (q r : Fin np) (l : Fin m) (hq : (u.pc q).frees = some l) (hr : (u.pc r).frees = some l) :
    q = r := by
  rcases eq_or_ne r p with rfl | hrp
  · rcases eq_or_ne q r with rfl | hqr
    · rfl
    · exact (a.sole_ne h hqr hr (a.pc_ne hqr ▸ hq)).symm
  · exact a.sole_ne h hrp hq (a.pc_ne hrp ▸ hr)

theorem once_at (h : s.Sound) (q r : Fin np) (i : Fin n) (hq : u.pc q = .alloced i) (hr : u.pc r = .alloced i) :
    q = r := by
  by_cases hc : c = .alloced i
  · have hp : ∀ q, u.pc q = .alloced i → q = p := fun q hq => by
      by_contra hne
      exact a.once i hc q ((a.pc_ne hne).symm.trans hq)
    rw [hp q hq, hp r hr]
  · have hp : ∀ q, u.pc q = .alloced i → s.pc q = .alloced i := fun q hq => by
      rw [← hq, a.pc_ne]
      rintro rfl
      exact hc (a.pc_self.symm.trans hq)
    exact h.once q r i (hp q hq) (hp r hr)

theorem distinct_at (h : s.Sound) (k l : Fin m) (hk : 0 < (u.slot k).ref) (hl : 0 < (u.slot l).ref)
    (he : (u.slot k).inum = (u.slot l).inum) : k = l := by
  by_cases hkk : K k
  · exact a.distinct k l hkk hk hl he
  by_cases hkl : K l
  · exact (a.distinct l k hkl hl hk he.symm).symm
  · rw [a.slot k hkk] at hk he
    rw [a.slot l hkl] at hl he
    exact h.distinct k l hk hl he

theorem copy_at (h : s.Sound) (l : Fin m) (hl : 0 < (u.slot l).ref) (hv : (u.slot l).valid = true)
    (hno : ∀ q, (u.pc q).frees ≠ some l) :
    (u.slot l).copy = u.disk (u.slot l).inum ∧ (u.slot l).copy.type ≠ 0 := by
  by_cases hk : K l
  · exact a.copy l hk hl hv hno
  have hslot := a.slot l hk
  rw [hslot] at hl hv ⊢
  obtain ⟨hcopy, htype⟩ := h.copy l hl hv fun q hq => hno q (by rw [a.pc_ne (a.ne_of_about hk (about_of_frees hq)), hq])
  rw [(a.disk l hk hl).of_live (hcopy ▸ htype)]
  exact ⟨hcopy, htype⟩

theorem owner_at (h : s.Sound) (l : Fin m) (q : Fin np) (hq : (u.slot l).owner = some q) :
    (q, l) ∈ u.refs ∧ (u.pc q = .reading l ∨ (u.slot l).valid = true) := by
  by_cases hk : K l
  · exact a.owner l q hk hq
  rw [a.slot l hk] at hq ⊢
  obtain ⟨hm, hv⟩ := h.owner l q hq
  exact ⟨a.refs q l (.inl hk) hm, hv.imp_left fun hr => by rw [a.pc_ne (a.ne_of_about hk (by rw [hr]; rfl)), hr]⟩

theorem live_at (h : s.Sound) (l : Fin m) (hl : 0 < (u.slot l).ref) (hz : (u.disk (u.slot l).inum).type = 0) :
    u.Dropping l := by
  by_cases hk : K l
  · exact a.live l hk hl hz
  rw [a.slot l hk] at hl hz
  exact a.dropping hk (h.live l hl ((a.disk l hk hl).elim (fun he => he ▸ hz) fun hc => absurd hz hc.2.1))

theorem sound (h : s.Sound) : u.Sound where
  place q := by
    rcases eq_or_ne q p with rfl | hq
    · rw [a.pc_self]
      exact a.place
    · rw [a.pc_ne hq]
      exact a.place_ne h hq
  sole := a.sole h
  once := a.once_at h
  count := a.count
  distinct := a.distinct_at h
  copy := a.copy_at h
  owner := a.owner_at h
  live := a.live_at h
  entries i := by
    rw [a.entries]
    exact (a.inode i).elim (fun he => he ▸ h.entries i) fun hc => hc.1
  dead i := (a.inode i).elim (fun he => he ▸ h.dead i) fun hc => hc.2

end Acts

namespace Sound

section

variable (h : s.Sound)
include h

theorem goto (hp : (s.pc p).about = none) (hc : c.frees = none) (halloced : ∀ i, c ≠ .alloced i) (hat : s.At p c) :
    (s.goto p c).Sound := by
  refine Acts.sound (p := p) (c := c) (K := fun _ => False) ?_ h
  exact {
    slot := fun _ _ => rfl
    count := h.count
    about := fun l hl => nomatch hp.symm.trans hl
    frees := fun l hl => nomatch hc.symm.trans hl
    once := fun i hi => absurd hi (halloced i)
    place := hat.frame (fun _ _ => ⟨rfl, fun _ => .inl rfl, id⟩) fun i hi => absurd hi (halloced i)
    alloced := fun _ _ _ _ => ⟨rfl, fun _ => False.elim⟩ }

theorem mark {i : Fin n} {type j : Nat} (hp : s.pc p = .scan j type) (hz : (s.disk i).type = 0) :
    ((s.setDisk i ⟨type, 0⟩).goto p (.alloced i)).Sound := by
  have htype : type ≠ 0 := h.at_of hp
  have hself := s.setDisk_disk_self i ⟨type, 0⟩
  have hfresh : ∀ q, s.pc q ≠ .alloced i := fun q hq => (h.at_of hq).1 hz
  refine Acts.sound (p := p) (c := .alloced i) (K := fun _ => False) ?_ h
  exact {
    slot := fun _ _ => rfl
    disk := fun l _ _ => by
      rcases eq_or_ne (s.slot l).inum i with hi | hi
      · rw [hi, goto_disk, hself]
        exact .inr ⟨hz, htype, rfl⟩
      · exact .inl (setDisk_disk_ne hi)
    inode := fun j => by
      rcases eq_or_ne j i with rfl | hji
      · have hj := h.entries j
        rw [h.dead j hz] at hj
        exact .inr ⟨hj.trans (Nat.zero_le _), fun h0 => by rw [goto_disk, hself]⟩
      · exact .inl (setDisk_disk_ne hji)
    count := h.count
    about := fun l hl => by rw [hp] at hl; cases hl
    once := fun j hj q => by cases hj; exact hfresh q
    -- a slot that still has the inode is about to be dropped
    place := ⟨by rw [goto_disk, hself]; exact htype, by rw [goto_disk, hself], fun l hl hi => by
      obtain ⟨q, hq⟩ := h.live l hl (hi ▸ hz)
      refine ⟨(h.at_of hq).2.2 (hi ▸ hz), q, (goto_pc_ne ?_).trans hq⟩
      rintro rfl
      cases hp.symm.trans hq⟩
    alloced := fun q j _ hq => ⟨setDisk_disk_ne (by rintro rfl; exact hfresh q hq), fun _ => False.elim⟩ }

/-! ### One slot -/

theorem keeps_disk (hpos : 0 < (s.slot k).ref) (hdisk : ∀ i, i ≠ (s.slot k).inum → u.disk i = s.disk i) (l : Fin m)
    (hl : l ≠ k) (hl' : 0 < (s.slot l).ref) : Kept (s.disk (s.slot l).inum) (u.disk (s.slot l).inum) :=
  .inl (hdisk _ fun he => hl (h.distinct l k hl' hpos he))

theorem keeps_distinct (hpos : 0 < (s.slot k).ref) (hslot : ∀ l, l ≠ k → u.slot l = s.slot l)
    (hinum : (u.slot k).inum = (s.slot k).inum) (j l : Fin m) (hj : j = k) (_ : 0 < (u.slot j).ref)
    (hl : 0 < (u.slot l).ref) (he : (u.slot j).inum = (u.slot l).inum) : j = l := by
  subst hj
  by_contra hne
  rw [hinum, hslot l (Ne.symm hne)] at he
  rw [hslot l (Ne.symm hne)] at hl
  exact hne (h.distinct j l hpos hl he)

theorem other_place (habout : (s.pc q).about = some k) (hmem : (q, k) ∈ s.refs → (q, k) ∈ u.refs)
    (hreading : s.pc q = .reading k → (u.slot k).owner = some q ∧ (u.slot k).valid = false)
    (hearly : ¬(s.pc q).Early k) (hdrop : s.pc q = .drop k → u.At q (.drop k)) : u.At q (s.pc q) := by
  have hat := h.place q
  cases hpc : s.pc q <;> rw [hpc] at habout hat hearly <;> cases habout
  case locking => exact hmem hat
  case reading => exact hreading hpc
  case drop => exact hdrop hpc
  case trunc => exact absurd (.inl rfl) hearly
  case clear => exact absurd (.inr (.inl rfl)) hearly
  case write => exact absurd (.inr (.inr rfl)) hearly

theorem drop_place (hq : s.pc q = .drop k) (hmem : (q, k) ∈ u.refs) (hdisk : u.disk = s.disk) {x : Slot n np}
    (hself : u.slot k = x) (hinum : x.inum = (s.slot k).inum) (hvalid : x.valid = true)
    (hcopy : x.copy = (s.slot k).copy) (howner : x.owner = none)
    (href : (s.disk (s.slot k).inum).type = 0 → x.ref = 1) : u.At q (.drop k) := by
  obtain ⟨hf, htype, -⟩ := h.at_of hq
  refine ⟨⟨hmem, ?_, ?_, ?_, ?_⟩, ?_, ?_⟩ <;> rw [hself]
  exacts [hvalid, hcopy ▸ hf.nlink, hdisk ▸ hinum ▸ hf.disk, howner, hcopy ▸ htype, hdisk ▸ hinum ▸ href]

theorem hold (hpos : 0 < (s.slot k).ref) (hp : s.pc p = .idle ∨ ∃ i, s.pc p = .alloced i)
    (hlive : (s.disk (s.slot k).inum).type ≠ 0) (hearly : ∀ q, ¬(s.pc q).Early k)
    (hmarked : ∀ q, q ≠ p → s.pc q ≠ .alloced (s.slot k).inum) : ((s.hold p k).goto p .idle).Sound := by
  have habout : (s.pc p).about = none := by
    rcases hp with hp | ⟨i, hp⟩ <;> rw [hp] <;> rfl
  have hself : ((s.hold p k).goto p .idle).slot k = { s.slot k with ref := (s.slot k).ref + 1 } :=
    s.setSlot_slot_self k _
  have hne : ∀ {q}, (s.pc q).about = some k → q ≠ p := by
    rintro q hq rfl
    cases habout.symm.trans hq
  refine Acts.sound (p := p) (c := .idle) (K := (· = k)) ?_ h
  exact {
    refs := fun _ _ _ => List.mem_cons_of_mem _
    count := fun l => by
      change _ = (((p, k) :: s.refs).map Prod.snd).count l
      rw [List.map_cons, List.count_cons, ← h.count]
      rcases eq_or_ne l k with rfl | hl
      · rw [hself]
        simp
      · rw [show ((s.hold p k).goto p .idle).slot l = s.slot l from setSlot_slot_ne hl]
        simp [hl.symm]
    about := fun l hl => nomatch habout.symm.trans hl
    others := by
      rintro q _ - rfl hq
      refine h.other_place hq (List.mem_cons_of_mem _) (fun hr => by rw [hself]; exact h.at_of hr) (hearly q)
        fun hd => ?_
      have hf := (h.at_of hd).1
      exact h.drop_place hd (List.mem_cons_of_mem _ hf.mem) rfl hself rfl hf.valid rfl hf.owner fun hz =>
        absurd hz hlive
    alloced := by
      rintro q i hq hi
      refine ⟨rfl, ?_⟩
      rintro _ rfl - hinum
      rw [hself] at hinum
      exact absurd (hi.trans (congrArg Pc.alloced hinum.symm)) (hmarked q hq)
    distinct := h.keeps_distinct hpos (fun l hl => setSlot_slot_ne hl) (by rw [hself])
    copy := by
      rintro _ rfl - hv hno
      rw [hself] at hv ⊢
      exact h.copy _ hpos hv fun q hq => hno q ((goto_pc_ne (hne (about_of_frees hq))).symm ▸ hq)
    owner := by
      rintro _ q rfl hq
      rw [hself] at hq ⊢
      obtain ⟨hm, hv⟩ := h.owner _ q hq
      refine ⟨List.mem_cons_of_mem _ hm, hv.imp_left fun hr => ?_⟩
      exact (goto_pc_ne (hne (congrArg Pc.about hr))).trans hr
    live := by
      rintro _ rfl - hz
      rw [hself] at hz
      exact absurd hz hlive }

theorem release (hp : s.pc p = .idle) (hmem : (p, k) ∈ s.refs) (hno : (s.slot k).owner ≠ some p) :
    (s.release p k).Sound := by
  obtain ⟨hlive, hearly, hmarked⟩ := h.held hmem (by rw [hp]; nofun)
  have hpos := h.ref_pos hmem
  have hself : (s.release p k).slot k = { s.slot k with ref := (s.slot k).ref - 1 } := s.setSlot_slot_self k _
  refine Acts.sound (p := p) (c := .idle) (K := (· = k)) ?_ h
  exact {
    pc := by rw [← hp]; exact (update_eq_self _ _).symm
    refs := mem_erase_of_other
    count := release_count h.count hmem
    about := fun l hl => by rw [hp] at hl; cases hl
    others := by
      rintro q _ hq rfl habout
      have hkeep : ∀ {l}, (q, l) ∈ s.refs → (q, l) ∈ (s.release p l).refs := mem_erase_of_other q _ (.inr hq)
      refine h.other_place habout hkeep (fun hr => by rw [hself]; exact h.at_of hr) (hearly q) fun hd => ?_
      have hf := (h.at_of hd).1
      exact h.drop_place hd (hkeep hf.mem) rfl hself rfl hf.valid rfl hf.owner fun hz => absurd hz hlive
    alloced := by
      refine fun q i _ hi => ⟨rfl, ?_⟩
      rintro _ rfl - hinum
      rw [hself] at hinum
      exact absurd (hi.trans (congrArg Pc.alloced hinum.symm)) (hmarked q)
    distinct := h.keeps_distinct hpos (fun l hl => setSlot_slot_ne hl) (by rw [hself])
    copy := by
      rintro _ rfl - hv hno
      rw [hself] at hv ⊢
      exact h.copy _ hpos hv hno
    owner := by
      rintro _ q rfl hq
      rw [hself] at hq ⊢
      exact (h.owner _ q hq).imp_left (mem_erase_of_other q _ (.inr (by rintro rfl; exact hno hq)))
    live := by
      rintro _ rfl - hz
      rw [hself] at hz
      exact absurd hz hlive }

theorem slotChange {x : Slot n np} (hinum : x.inum = (s.slot k).inum) (href : x.ref = (s.slot k).ref)
    (hpos : 0 < (s.slot k).ref) (habout : ∀ l, (s.pc p).about = some l → l = k) (hnot : s.pc p ≠ .drop k)
    (hfrees : ∀ l, c.frees = some l → l = k) (halloced : ∀ i, c ≠ .alloced i)
    (hplace : ((s.setSlot k x).goto p c).At p c)
    (hreading : ∀ q, q ≠ p → s.pc q = .reading k → x.owner = some q ∧ x.valid = false)
    (hother : ∀ q, q ≠ p → (s.pc q).frees = some k → s.pc q = .drop k ∧
      x.valid = true ∧ x.copy = (s.slot k).copy ∧ x.owner = none ∧ c.frees = none)
    (hcopy : x.valid = true → c.frees = none → (∀ q, q ≠ p → (s.pc q).frees ≠ some k) →
      x.copy = s.disk (s.slot k).inum ∧ x.copy.type ≠ 0)
    (howner : ∀ q, x.owner = some q →
      (q, k) ∈ s.refs ∧ (((s.setSlot k x).goto p c).pc q = .reading k ∨ x.valid = true)) :
    ((s.setSlot k x).goto p c).Sound := by
  have hself : ((s.setSlot k x).goto p c).slot k = x := s.setSlot_slot_self k x
  have hdropping : s.Dropping k → ((s.setSlot k x).goto p c).Dropping k := fun ⟨q, hq⟩ =>
    ⟨q, (goto_pc_ne (by rintro rfl; exact hnot hq)).trans hq⟩
  refine Acts.sound (p := p) (c := c) (K := (· = k)) ?_ h
  exact {
    count := setSlot_count h.count href
    about := habout
    frees := fun l hl => ⟨hfrees l hl, fun q hq hf => by
      obtain rfl := hfrees l hl
      cases hl.symm.trans (hother q hq hf).2.2.2.2⟩
    once := fun i hi => absurd hi (halloced i)
    place := hplace
    others := by
      rintro q _ hq rfl ha
      refine h.other_place ha id (fun hr => by rw [hself]; exact hreading q hq hr) (fun he => ?_) fun hd => ?_
      · rw [(hother q hq he.frees).1] at he
        exact Pc.not_early_drop he
      · obtain ⟨-, hv, hcp, hnone, -⟩ := hother q hq (congrArg Pc.frees hd)
        obtain ⟨hf, -, hlast⟩ := h.at_of hd
        exact h.drop_place hd hf.mem rfl hself hinum hv hcp hnone fun hz => href.trans (hlast hz)
    alloced := by
      refine fun q i _ hi => ⟨rfl, ?_⟩
      rintro _ rfl - hi'
      rw [hself] at hi' ⊢
      obtain ⟨hone, hd⟩ := (h.at_of hi).2.2 _ hpos (hinum.symm.trans hi')
      exact ⟨href.trans hone, hdropping hd⟩
    distinct := h.keeps_distinct hpos (fun l hl => setSlot_slot_ne hl) (by rw [hself, hinum])
    copy := by
      rintro _ rfl - hv hno
      rw [hself] at hv ⊢
      rw [hinum]
      refine hcopy hv (Option.eq_none_iff_forall_ne_some.mpr fun l hl => hno p ?_) fun q hq hf => hno q ?_
      · rw [goto_pc_self, hl, hfrees l hl]
      · rw [goto_pc_ne hq]
        exact hf
    owner := by
      rintro _ q rfl hq
      rw [hself] at hq ⊢
      exact howner q hq
    live := by
      rintro _ rfl - hz
      rw [hself, hinum] at hz
      exact hdropping (h.live _ hpos hz) }

theorem drop_of_frees (hp : (p, k) ∈ s.refs) (hnot : (s.pc p).frees ≠ some k)
    (hq : (s.pc q).frees = some k) : s.pc q = .drop k := by
  obtain ⟨-, hearly, -⟩ := h.held hp hnot
  by_contra hd
  exact hearly q (early_of_frees hq hd)

theorem acquire (hp : s.pc p = .locking k) (hfree : (s.slot k).owner = none)
    (hok : ∀ q, s.pc q ≠ .drop k) :
    ((s.setSlot k { s.slot k with owner := some p }).goto p
      (if (s.slot k).valid then .idle else .reading k)).Sound := by
  have hmem : (p, k) ∈ s.refs := h.at_of hp
  have hnot : (s.pc p).frees ≠ some k := by
    rw [hp]
    nofun
  have hfrees : ∀ q, (s.pc q).frees ≠ some k := fun q hq => hok q (h.drop_of_frees hmem hnot hq)
  refine h.slotChange rfl rfl (h.ref_pos hmem) (fun l hl => ?_) (hok p) (fun l hl => ?_) (fun i hi => ?_) ?_
    (fun q _ hq => ?_) (fun q _ hq => absurd hq (hfrees q)) (fun hv _ _ => h.copy k (h.ref_pos hmem) hv hfrees)
    fun q hq => ?_
  · rw [hp] at hl
    exact (Option.some.inj hl).symm
  · split at hl <;> cases hl
  · split at hi <;> cases hi
  · split
    · trivial
    · rename_i hv
      refine ⟨congrArg Slot.owner (s.setSlot_slot_self k _), ?_⟩
      exact (congrArg Slot.valid (s.setSlot_slot_self k _)).trans (Bool.eq_false_iff.mpr hv)
  · have hat := h.at_of hq
    cases hfree.symm.trans hat.1
  · obtain rfl : p = q := Option.some.inj hq
    refine ⟨hmem, ?_⟩
    rw [goto_pc_self]
    by_cases hv : (s.slot k).valid = true
    · exact .inr hv
    · exact .inl (if_neg hv)

theorem fill (hp : s.pc p = .reading k) (hlive : (s.disk (s.slot k).inum).type ≠ 0) :
    ((s.setSlot k { s.slot k with copy := s.disk (s.slot k).inum, valid := true }).goto p .idle).Sound := by
  have hat := h.at_of hp
  obtain ⟨howner, hv⟩ := hat
  have hmem := (h.owner k p howner).1
  refine h.slotChange rfl rfl (h.ref_pos hmem) (fun l hl => ?_) (by rw [hp]; nofun) nofun nofun trivial
    (fun q hne hq => ?_) (fun q _ hq => ?_) (fun _ _ _ => ⟨rfl, hlive⟩) fun q hq => ⟨(h.owner k q hq).1, .inr rfl⟩
  · rw [hp] at hl
    exact (Option.some.inj hl).symm
  · have hq' := h.at_of hq
    exact absurd (Option.some.inj (hq'.1.symm.trans howner)) hne
  · exact absurd hq (h.not_frees howner q)

theorem iunlock (hp : s.pc p = .idle) (howner : (s.slot k).owner = some p) :
    ((s.setSlot k { s.slot k with owner := none }).goto p .idle).Sound := by
  have hmem := (h.owner k p howner).1
  have hnot := h.not_frees howner
  refine h.slotChange rfl rfl (h.ref_pos hmem) (fun l hl => ?_) (by rw [hp]; nofun) nofun nofun trivial
    (fun q hne hq => ?_) (fun q _ hq => absurd hq (hnot q)) (fun hv _ _ => h.copy k (h.ref_pos hmem) hv hnot) nofun
  · rw [hp] at hl
    cases hl
  · have hq' := h.at_of hq
    exact absurd (Option.some.inj (hq'.1.symm.trans howner)) hne

theorem last (hp : s.pc p = .idle) (hmem : (p, k) ∈ s.refs) (hno : (s.slot k).owner ≠ some p)
    (hone : (s.slot k).ref = 1) (hv : (s.slot k).valid = true) (hnlink : (s.slot k).copy.nlink = 0) :
    (s.goto p (.trunc k)).Sound := by
  have hsingle : ∀ q, q ≠ p → (q, k) ∉ s.refs := fun q hne hq => by
    have htwo := two_le_count hq hmem hne
    rw [← h.count] at htwo
    omega
  have hnone : (s.slot k).owner = none := Option.eq_none_iff_forall_ne_some.mpr fun q hq => by
    rcases eq_or_ne q p with rfl | hne
    · exact hno hq
    · exact hsingle q hne (h.owner k q hq).1
  have hfrees : ∀ q, (s.pc q).frees ≠ some k := fun q hq => by
    rcases eq_or_ne q p with rfl | hne
    · rw [hp] at hq
      cases hq
    · exact hsingle q hne (h.freeing hq).mem
  obtain ⟨hcopy, htype⟩ := h.copy k (h.ref_pos hmem) hv hfrees
  have hplace : (s.goto p (.trunc k)).At p (.trunc k) :=
    ⟨⟨⟨hmem, hv, hnlink, hcopy ▸ hnlink, hnone⟩, hone, hcopy ▸ htype⟩, congrArg Dinode.type hcopy⟩
  rw [← s.setSlot_eq_self (k := k) rfl] at hplace ⊢
  refine h.slotChange rfl rfl (h.ref_pos hmem) (fun l hl => ?_) (by rw [hp]; nofun)
    (fun l hl => (Option.some.inj hl).symm) nofun hplace (fun q _ hq => ?_)
    (fun q _ hq => absurd hq (hfrees q)) nofun fun q hq => ?_
  · rw [hp] at hl
    cases hl
  · exact h.at_of hq
  · rw [hnone] at hq
    cases hq

theorem alone (hp : (s.pc p).Early k) :
    s.Early p k ∧ (s.pc p).frees = some k ∧ (∀ q, q ≠ p → (s.pc q).frees ≠ some k) ∧ (∀ q, s.pc q ≠ .reading k) ∧
      ∀ q, s.pc q ≠ .alloced (s.slot k).inum := by
  have he := h.early_at hp
  refine ⟨he, hp.frees, fun q hne hq => hne (h.sole q p k hq hp.frees), fun q hq => ?_, fun q hq => ?_⟩
  · have hat := h.at_of hq
    cases he.owner.symm.trans hat.1
  · have hat := h.at_of hq
    obtain ⟨-, r, hr⟩ := hat.2.2 k (h.ref_pos he.mem) rfl
    obtain rfl := h.sole r p k (by rw [hr]; rfl) hp.frees
    rw [hr] at hp
    exact Pc.not_early_drop hp

theorem early (hp : (s.pc p).Early k) {x : Slot n np}
    (hinum : x.inum = (s.slot k).inum) (href : x.ref = (s.slot k).ref) (howner : x.owner = none)
    (hc : c.frees = some k) (hplace : ((s.setSlot k x).goto p c).At p c) : ((s.setSlot k x).goto p c).Sound := by
  obtain ⟨he, hfrees, hothers, hreading, -⟩ := h.alone hp
  refine h.slotChange hinum href (h.ref_pos he.mem) (fun l hl => ?_) (fun hd => ?_) (fun l hl => ?_) ?_ hplace
    (fun q _ hq => absurd hq (hreading q)) (fun q hne hq => absurd hq (hothers q hne)) (fun _ hno => ?_) fun q hq => ?_
  · rw [about_of_frees hfrees] at hl
    exact (Option.some.inj hl).symm
  · rw [hd] at hp
    exact Pc.not_early_drop hp
  · exact (Option.some.inj (hc.symm.trans hl)).symm
  · rintro i rfl
    cases hc
  · cases hno.symm.trans hc
  · cases howner.symm.trans hq

theorem trunc (hp : s.pc p = .trunc k) : ((s.writeBack k).goto p (.clear k)).Sound := by
  have hat := h.at_of hp
  have hcopy : (s.slot k).copy = s.disk (s.slot k).inum :=
    Dinode.ext hat.2 (hat.1.nlink.trans hat.1.disk.symm)
  have hself : s.writeBack k = s.setSlot k (s.slot k) := (setDisk_eq_self hcopy).trans (setSlot_eq_self rfl).symm
  rw [hself]
  refine h.early (.inl hp) rfl rfl hat.1.owner rfl ?_
  exact hat.1.frame (s.setSlot_slot_self k _) (.inl rfl) hat.1.mem

theorem clear (hp : s.pc p = .clear k) :
    ((s.setSlot k { s.slot k with copy := { (s.slot k).copy with type := 0 } }).goto p (.write k)).Sound := by
  have hat : s.Early p k := h.at_of hp
  have hself := s.setSlot_slot_self k { s.slot k with copy := { (s.slot k).copy with type := 0 } }
  refine h.early (.inr (.inl hp)) rfl rfl hat.owner rfl ⟨⟨⟨hat.mem, ?_, ?_, ?_, ?_⟩, ?_, ?_⟩, ?_⟩ <;>
  rw [goto_slot, hself]
  exacts [hat.valid, hat.nlink, hat.disk, hat.owner, hat.last, hat.type]

theorem write (hp : s.pc p = .write k) : ((s.writeBack k).goto p (.drop k)).Sound := by
  obtain ⟨he, hfrees, hothers, hreading, hmarked⟩ := h.alone (.inr (.inr hp))
  have hat := h.at_of hp
  have hpos := h.ref_pos he.mem
  have hself : ((s.writeBack k).goto p (.drop k)).disk (s.slot k).inum = (s.slot k).copy := s.setDisk_disk_self _ _
  have hother : ∀ i, i ≠ (s.slot k).inum → ((s.writeBack k).goto p (.drop k)).disk i = s.disk i := fun i hi =>
    setDisk_disk_ne hi
  refine Acts.sound (p := p) (c := .drop k) (K := (· = k)) ?_ h
  exact {
    slot := fun _ _ => rfl
    disk := h.keeps_disk hpos hother
    inode := fun i => by
      rcases eq_or_ne i (s.slot k).inum with rfl | hi
      · have hlinks := h.entries (s.slot k).inum
        rw [hself, he.nlink]
        exact .inr ⟨hlinks.trans_eq he.disk, fun _ => rfl⟩
      · exact .inl (hother i hi)
    count := h.count
    about := fun l hl => (Option.some.inj ((about_of_frees hfrees).symm.trans hl)).symm
    frees := fun l hl => by cases hl; exact ⟨rfl, hothers⟩
    place := ⟨⟨he.mem, he.valid, he.nlink, (congrArg Dinode.nlink hself).trans he.nlink, he.owner⟩, hat.2,
      fun _ => he.last⟩
    others := by
      rintro q _ hq rfl ha
      exact h.other_place ha id (fun hr => absurd hr (hreading q)) (fun hc => hothers q hq hc.frees)
        fun hd => absurd (congrArg Pc.frees hd) (hothers q hq)
    alloced := fun q i _ hi => ⟨hother i (by rintro rfl; exact hmarked q hi), by
      rintro _ rfl - rfl
      exact absurd hi (hmarked q)⟩
    distinct := h.keeps_distinct hpos (fun _ _ => rfl) rfl
    copy := by
      rintro _ rfl - - hno
      exact absurd (congrArg Pc.frees (goto_pc_self _ _ _)) (hno p)
    owner := by
      rintro _ q rfl hq
      cases he.owner.symm.trans hq
    live := by
      rintro _ rfl - -
      exact ⟨p, goto_pc_self _ _ _⟩ }

theorem drop (hp : s.pc p = .drop k) :
    (((s.setSlot k { s.slot k with valid := false }).release p k).goto p .idle).Sound := by
  obtain ⟨hf, -, hlast⟩ := h.at_of hp
  have hpos := h.ref_pos hf.mem
  have hfrees : (s.pc p).frees = some k := congrArg Pc.frees hp
  have hothers : ∀ q, q ≠ p → (s.pc q).frees ≠ some k := fun q hne hq => hne (h.sole q p k hq hfrees)
  have hself : (((s.setSlot k { s.slot k with valid := false }).release p k).goto p .idle).slot k =
      { s.slot k with valid := false, ref := (s.slot k).ref - 1 } := by
    refine (setSlot_slot_self _ _ _).trans ?_
    rw [setSlot_slot_self]
  have hslot : ∀ l, l ≠ k →
      (((s.setSlot k { s.slot k with valid := false }).release p k).goto p .idle).slot l = s.slot l :=
    fun l hl => (setSlot_slot_ne hl).trans (setSlot_slot_ne hl)
  refine Acts.sound (p := p) (c := .idle) (K := (· = k)) ?_ h
  exact {
    slot := hslot
    refs := mem_erase_of_other
    count := release_count (setSlot_count h.count rfl) hf.mem
    about := fun l hl => (Option.some.inj ((about_of_frees hfrees).symm.trans hl)).symm
    others := by
      rintro q _ hq rfl ha
      refine h.other_place ha (mem_erase_of_other q _ (.inr hq)) (fun hr => ?_) (fun hc => hothers q hq hc.frees)
        fun hd => absurd (congrArg Pc.frees hd) (hothers q hq)
      cases hf.owner.symm.trans (h.at_of hr).1
    -- the reference that is given back is the last one
    alloced := by
      refine fun q i _ hi => ⟨rfl, ?_⟩
      rintro _ rfl hleft hinum
      rw [hself] at hleft hinum
      have hone := ((h.at_of hi).2.2 _ hpos hinum).1
      exact absurd hleft (by dsimp only; omega)
    distinct := h.keeps_distinct hpos hslot (by rw [hself])
    copy := by
      rintro _ rfl - hv
      rw [hself] at hv
      cases hv
    owner := by
      rintro _ q rfl hq
      rw [hself] at hq
      cases hf.owner.symm.trans hq
    live := by
      rintro _ rfl hleft hz
      rw [hself] at hleft hz
      have hone := hlast hz
      exact absurd hleft (by dsimp only; omega) }

theorem iupdate (hp : s.pc p = .idle) (howner : (s.slot k).owner = some p) {nlink : Nat}
    (hlinks : s.entries (s.slot k).inum ≤ nlink) :
    (((s.setSlot k { s.slot k with copy := { (s.slot k).copy with nlink := nlink } }).writeBack k).goto
      p .idle).Sound := by
  obtain ⟨hmem, hv⟩ := h.owner k p howner
  have hpos := h.ref_pos hmem
  replace hv : (s.slot k).valid = true := hv.resolve_left (by rw [hp]; nofun)
  have hfrees := h.not_frees howner
  obtain ⟨hcopy, htype⟩ := h.copy k hpos hv hfrees
  obtain ⟨-, -, hmarked⟩ := h.held hmem (hfrees p)
  set x : Slot n np := { s.slot k with copy := { (s.slot k).copy with nlink := nlink } } with hx
  have hself : (((s.setSlot k x).writeBack k).goto p .idle).slot k = x := s.setSlot_slot_self k x
  have hdisk : (((s.setSlot k x).writeBack k).goto p .idle).disk = update s.disk (s.slot k).inum x.copy := by
    change update s.disk ((s.setSlot k x).slot k).inum ((s.setSlot k x).slot k).copy = _
    rw [setSlot_slot_self]
  have hdself : (((s.setSlot k x).writeBack k).goto p .idle).disk (s.slot k).inum = x.copy := by
    rw [hdisk, update_self]
  have hother : ∀ i, i ≠ (s.slot k).inum →
      (((s.setSlot k x).writeBack k).goto p .idle).disk i = s.disk i := fun i hi => by
    rw [hdisk, update_of_ne hi]
  refine Acts.sound (p := p) (c := .idle) (K := (· = k)) ?_ h
  exact {
    disk := h.keeps_disk hpos hother
    inode := fun i => by
      rcases eq_or_ne i (s.slot k).inum with rfl | hi
      · rw [hdself]
        exact .inr ⟨hlinks, fun hz => absurd hz htype⟩
      · exact .inl (hother i hi)
    count := setSlot_count (x := x) h.count rfl
    about := fun l hl => by rw [hp] at hl; cases hl
    others := by
      rintro q _ hq rfl ha
      refine h.other_place ha id (fun hr => ?_) (fun hc => hfrees q hc.frees)
        fun hd => absurd (congrArg Pc.frees hd) (hfrees q)
      exact absurd (Option.some.inj ((h.at_of hr).1.symm.trans howner)) hq
    alloced := fun q i _ hi => ⟨hother i (by rintro rfl; exact hmarked q hi), by
      rintro _ rfl - hinum
      rw [hself] at hinum
      exact absurd (hi.trans (congrArg Pc.alloced hinum.symm)) (hmarked q)⟩
    distinct := h.keeps_distinct hpos (fun l hl => setSlot_slot_ne hl) (by rw [hself])
    copy := by
      rintro _ rfl - - -
      rw [hself]
      exact ⟨hdself.symm, htype⟩
    owner := by
      rintro _ q rfl hq
      rw [hself] at hq ⊢
      exact ⟨(h.owner _ q hq).1, .inr hv⟩
    live := by
      rintro _ rfl - hz
      rw [hself] at hz
      exact absurd ((congrArg Dinode.type hdself).symm.trans hz) htype }

theorem recycle {i : Fin n} (hp : s.pc p = .idle ∨ s.pc p = .alloced i)
    (hno : ∀ l, 0 < (s.slot l).ref → (s.slot l).inum ≠ i) (hempty : (s.slot k).ref = 0) (htype : (s.disk i).type ≠ 0)
    (hothers : ∀ q, q ≠ p → s.pc q ≠ .alloced i) :
    ({ (s.setSlot k { s.slot k with inum := i, ref := 1, valid := false }).goto p .idle with
      refs := (p, k) :: s.refs } : Cache m n np).Sound := by
  set x : Slot n np := { s.slot k with inum := i, ref := 1, valid := false } with hx
  set u : Cache m n np := { (s.setSlot k x).goto p .idle with refs := (p, k) :: s.refs } with hu
  have hself : u.slot k = x := s.setSlot_slot_self k x
  have hslot : ∀ l, l ≠ k → u.slot l = s.slot l := fun l hl => setSlot_slot_ne hl
  -- an empty slot has no references, so no process is at it
  have hmem : ∀ q, (q, k) ∉ s.refs := fun q hq => by
    have := h.ref_pos hq
    omega
  refine Acts.sound (p := p) (c := .idle) (K := (· = k)) ?_ h
  exact {
    slot := hslot
    refs := fun _ _ _ => List.mem_cons_of_mem _
    count := fun l => by
      change _ = (((p, k) :: s.refs).map Prod.snd).count l
      rw [List.map_cons, List.count_cons, ← h.count]
      rcases eq_or_ne l k with rfl | hl
      · rw [hself, hempty]
        simp [hx]
      · rw [hslot l hl]
        simp [hl.symm]
    about := fun l hl => by
      rcases hp with hp | hp <;> rw [hp] at hl <;> cases hl
    others := by
      rintro q _ - rfl ha
      have hat := h.place q
      cases hpc : s.pc q <;> rw [hpc] at ha hat <;> cases ha
      case locking => exact absurd hat (hmem q)
      case reading => exact absurd (h.owner _ q hat.1).1 (hmem q)
      all_goals exact absurd (h.freeing (q := q) (by rw [hpc]; rfl)).mem (hmem q)
    alloced := by
      refine fun q j hq hj => ⟨rfl, ?_⟩
      rintro _ rfl - hi
      rw [hself] at hi
      exact absurd (hj.trans (congrArg Pc.alloced hi.symm)) (hothers q hq)
    distinct := by
      rintro _ l rfl - hl he
      by_contra hne
      rw [hself, hslot l (Ne.symm hne)] at he
      rw [hslot l (Ne.symm hne)] at hl
      exact hno l hl he.symm
    copy := by
      rintro _ rfl - hv
      rw [hself] at hv
      cases hv
    owner := by
      rintro _ q rfl hq
      rw [hself] at hq
      exact absurd (h.owner _ q hq).1 (hmem q)
    live := by
      rintro _ rfl - hz
      rw [hself] at hz
      exact absurd hz htype }

theorem iget {i : Fin n} (hp : s.pc p = .idle ∨ s.pc p = .alloced i) (htype : (s.disk i).type ≠ 0)
    (hothers : ∀ q, q ≠ p → s.pc q ≠ .alloced i)
    (hearly : ∀ k, 0 < (s.slot k).ref → (s.slot k).inum = i →
      ∀ q, ¬ (s.pc q).Early k)
    (hu : s.iget p i = some u) : u.Sound := by
  unfold Cache.iget at hu
  cases hc : s.cached i with
  | some k =>
    obtain ⟨hpos, rfl⟩ : 0 < (s.slot k).ref ∧ (s.slot k).inum = i := by simpa using List.find?_some hc
    rw [hc] at hu
    obtain rfl := Option.some.inj hu
    exact h.hold hpos (hp.imp_right fun hp => ⟨_, hp⟩) htype (hearly k hpos rfl) hothers
  | none =>
    rw [hc] at hu
    cases he : s.empty with
    | none =>
      rw [he] at hu
      cases hu
    | some k =>
      rw [he] at hu
      obtain rfl := Option.some.inj hu
      have hempty : (s.slot k).ref = 0 := by simpa using List.find?_some he
      have hno : ∀ l, 0 < (s.slot l).ref → (s.slot l).inum ≠ i := fun l hl => by
        simpa [hl] using List.find?_eq_none.mp hc l (List.mem_finRange l)
      exact h.recycle hp hno hempty htype hothers

theorem iget_alloced {i : Fin n} (hp : s.pc p = .alloced i) (hu : s.iget p i = some u) : u.Sound := by
  have hat := h.at_of hp
  refine h.iget (.inr hp) hat.1 (fun q hne hq => hne (h.once q p i hq hp)) (fun k hk hi q hq => ?_) hu
  obtain ⟨-, r, hr⟩ := hat.2.2 k hk hi
  obtain ⟨-, hf, -⟩ := h.alone hq
  obtain rfl := h.sole q r k hf (by rw [hr]; rfl)
  rw [hr] at hq
  exact Pc.not_early_drop hq

theorem iget_entry {i : Fin n} (hp : s.pc p = .idle) (he : 0 < s.entries i) (hu : s.iget p i = some u) :
    u.Sound := by
  have hlinks : (s.disk i).nlink ≠ 0 := by
    have := h.entries i
    omega
  refine h.iget (.inl hp) (fun hz => hlinks (h.dead i hz)) (fun q _ hq => ?_) (fun k _ hi q hq => ?_) hu
  · have hat := h.at_of hq
    exact hlinks hat.2.1
  · exact hlinks (hi ▸ (h.alone hq).1.disk)

theorem setEntries {f : Fin n → Nat} (hf : ∀ i, f i ≤ (s.disk i).nlink) :
    ({ s with entries := f } : Cache m n np).Sound :=
  { place := fun q => (h.place q).frame (fun _ _ => ⟨rfl, fun _ => .inl rfl, id⟩) fun i hi => by
      have hat := h.at_of hi
      exact ⟨rfl, hat.2.2⟩
    sole := h.sole
    once := h.once
    count := h.count
    distinct := h.distinct
    copy := h.copy
    owner := h.owner
    live := h.live
    entries := hf
    dead := h.dead }

end

theorem of_goto (h : (s.goto p c).Sound) (hp : s.pc p = c) : s.Sound := goto_eq_self hp ▸ h

theorem go (h : s.Sound) (hok : ∀ k, s.pc p = .locking k → ∀ q, s.pc q ≠ .drop k) (hu : s.go p = some u) :
    u.Sound := by
  unfold Cache.go at hu
  cases hp : s.pc p <;> simp only [hp, Option.some.injEq, reduceCtorEq] at hu
  case scan i type =>
    split at hu
    · split at hu <;> obtain rfl := Option.some.inj hu
      · rename_i hz
        exact h.mark hp hz
      · have hat := h.at_of hp
        exact h.goto (by rw [hp]; rfl) rfl nofun hat
    · cases hu
  case alloced => exact h.iget_alloced hp hu
  case locking k =>
    split at hu
    · obtain rfl := Option.some.inj hu
      rename_i hfree
      exact h.acquire hp hfree (hok k hp)
    · cases hu
  case reading =>
    split at hu
    · cases hu
    · obtain rfl := Option.some.inj hu
      rename_i hlive
      exact h.fill hp hlive
  case trunc =>
    subst hu
    exact h.trunc hp
  case clear =>
    subst hu
    exact h.clear hp
  case write =>
    subst hu
    exact h.write hp
  case drop =>
    subst hu
    exact h.drop hp

theorem step (h : s.Sound) {a : Act m n np} (hok : s.NotFreeing a) (hu : s.step a = some u) : u.Sound := by
  cases a with
  | go p => exact h.go hok hu
  | ialloc p type =>
    obtain ⟨⟨hp, htype⟩, rfl⟩ : _ ∧ _ := by simpa [Cache.step] using hu
    exact h.goto (by rw [hp]; rfl) rfl nofun htype
  | dirlookup p i =>
    obtain ⟨⟨hp, he⟩, hu⟩ : _ ∧ _ := by simpa [Cache.step] using hu
    exact h.iget_entry hp he hu
  | idup p k =>
    obtain ⟨⟨hp, hm⟩, rfl⟩ : _ ∧ _ := by simpa [Cache.step] using hu
    obtain ⟨hlive, hearly, hmarked⟩ := h.held hm (by rw [hp]; nofun)
    exact (h.hold (h.ref_pos hm) (.inl hp) hlive hearly fun q _ => hmarked q).of_goto hp
  | ilock p k =>
    obtain ⟨⟨hp, hm⟩, rfl⟩ : _ ∧ _ := by simpa [Cache.step] using hu
    exact h.goto (by rw [hp]; rfl) rfl nofun hm
  | iupdate p k nlink =>
    obtain ⟨⟨hp, howner⟩, rfl⟩ : _ ∧ _ := by simpa [Cache.step] using hu
    exact (h.iupdate hp howner hok).of_goto hp
  | iunlock p k =>
    obtain ⟨⟨hp, howner⟩, rfl⟩ : _ ∧ _ := by simpa [Cache.step] using hu
    exact (h.iunlock hp howner).of_goto hp
  | iput p k =>
    obtain ⟨⟨hp, hm, hno⟩, rfl⟩ : _ ∧ _ := by simpa [Cache.step] using hu
    unfold Cache.iput
    split
    · rename_i hlast
      exact h.last hp hm hno hlast.1 hlast.2.1 hlast.2.2
    · exact h.release hp hm hno
  | link i =>
    obtain rfl := Option.some.inj hu
    refine h.setEntries fun j => ?_
    rcases eq_or_ne j i with rfl | hj
    · rw [update_self]
      exact hok
    · rw [update_of_ne hj]
      exact h.entries j
  | unlink i =>
    obtain ⟨-, rfl⟩ : _ ∧ _ := by simpa [Cache.step] using hu
    refine h.setEntries fun j => ?_
    rcases eq_or_ne j i with rfl | hj
    · rw [update_self]
      exact (Nat.sub_le _ _).trans (h.entries j)
    · rw [update_of_ne hj]
      exact h.entries j

theorem lockedCopies (h : s.Sound) : s.LockedCopies := by
  intro k p hp hnot
  obtain ⟨hm, hv⟩ := h.owner k p hp
  have hfrees := h.not_frees hp
  obtain ⟨hcopy, htype⟩ := h.copy k (h.ref_pos hm) (hv.resolve_left hnot) hfrees
  exact ⟨htype, congrArg Dinode.type hcopy⟩

end Sound

structure Started (s : Cache m n np) : Prop where
  idle : ∀ p, s.pc p = .idle
  refs : s.refs = []
  ref : ∀ k, (s.slot k).ref = 0
  owner : ∀ k, (s.slot k).owner = none
  entries : ∀ i, s.entries i ≤ (s.disk i).nlink
  dead : ∀ i, (s.disk i).type = 0 → (s.disk i).nlink = 0

theorem Started.sound (h : s.Started) : s.Sound := by
  have hfrees : ∀ q k, (s.pc q).frees ≠ some k := fun q k hq => by
    rw [h.idle q] at hq
    cases hq
  have hempty : ∀ k, ¬ 0 < (s.slot k).ref := fun k hk => by
    rw [h.ref k] at hk
    exact Nat.lt_irrefl 0 hk
  refine ⟨fun q => ?_, fun q r k hq => absurd hq (hfrees q k), fun q r i hq => ?_, fun k => ?_, fun k _ hk => ?_,
    fun k hk => absurd hk (hempty k), fun k q hq => ?_, fun k hk => absurd hk (hempty k), h.entries, h.dead⟩
  · rw [h.idle q]
    trivial
  · cases (h.idle q).symm.trans hq
  · rw [h.ref, h.refs]
    rfl
  · exact absurd hk (hempty k)
  · cases (h.owner k).symm.trans hq

/-- As long as no `ilock` falls between the two halves of an `iput`, a locked inode has the type that is on disk. -/
theorem locked_copies (s : Cache m n np) (as : List (Act m n np)) (h : s.Started) (hok : Along step NotFreeing s as) :
    Always step LockedCopies s as :=
  always_of_along (fun _ _ _ hs ha hu => Sound.step hs ha hu) (fun _ hs => hs.lockedCopies) h.sound hok

def twoProcesses : Cache 2 3 2 where
  disk i := if i = 1 then ⟨2, 1⟩ else ⟨0, 0⟩
  slot _ := ⟨0, 0, false, ⟨0, 0⟩, none⟩
  entries i := if i = 1 then 1 else 0
  pc _ := .idle
  refs := []

theorem twoProcesses_started : twoProcesses.Started := by
  refine ⟨fun _ => rfl, rfl, fun _ => rfl, fun _ => rfl, ?_, ?_⟩ <;> decide

def unlinkAndFree : List (Act 2 3 2) :=
  [.dirlookup 0 1, .ilock 0 0, .go 0, .go 0, .unlink 1, .iupdate 0 0 0, .iunlock 0 0, .iput 0 0, .go 0, .go 0, .go 0]

def allocate : List (Act 2 3 2) := [.ialloc 1 2, .go 1, .go 1]

def lockAfter : List (Act 2 3 2) := unlinkAndFree ++ allocate ++ [.go 0, .ilock 1 0, .go 1, .go 1]

theorem lockAfter_copies :
    (run step twoProcesses lockAfter).isSome ∧ Along step NotFreeing twoProcesses lockAfter ∧
      Always step LockedCopies twoProcesses lockAfter := by
  have hok : Along step NotFreeing twoProcesses lockAfter := by decide +kernel
  exact ⟨by decide +kernel, hok, locked_copies _ _ twoProcesses_started hok⟩

def lockBefore : List (Act 2 3 2) := unlinkAndFree ++ allocate ++ [.ilock 1 0, .go 1]

/-- `ilock` returns the type 0, and the type on disk is 2. -/
theorem stale_type : twoProcesses.Started ∧ ∃ v, run step twoProcesses lockBefore = some v ∧ ¬ v.LockedCopies := by
  refine ⟨twoProcesses_started, ?_⟩
  have hrun : (run step twoProcesses lockBefore).map (fun v => ((v.slot 0).owner, v.pc 1, (v.slot 0).copy.type)) =
      some (some 1, .idle, 0) := by decide +kernel
  obtain ⟨v, hv, hend⟩ := Option.map_eq_some_iff.mp hrun
  simp only [Prod.mk.injEq] at hend
  obtain ⟨howner, hpc, htype⟩ := hend
  exact ⟨v, hv, fun h => (h 0 1 howner (by rw [hpc]; nofun)).1 htype⟩

end Cache

end Xv6.Icache
