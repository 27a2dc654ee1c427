import Xv6.Paging.Exec
import Xv6.Paging.Sbrk
import Xv6.Vm.Spec

/-!
# The objects that own pages

The address spaces and kernel stacks of the processes, and the open pipes.
-/

open Function

namespace Xv6.Vm

open Code Ownership
open Paging (Page Link Mem Stop Image pgsize kernbase kalloc kfree copyuvm freevm Part Root Within InRange FreeList)

/-! ## Owners -/

section Owners

variable {O : Type} {l : Link} {pages : Page → Prop} {r : O → Option Root} {m t : Mem} {x : Page} {o : O}

/-- Each of the pages is on the free list once, or of one owner, and the allocator takes it back. -/
structure Kept (l : Link) (pages : Page → Prop) (r : O → Option Root) (m : Mem) : Prop where
  divided : Divided m.freelist pages fun a : O × Part => m.region (r a.1) a.2
  inRange : ∀ x, pages x → InRange l x

theorem within_take {next : List Page} (h : FreeList l m) (hfree : m.freelist = x :: next) :
    Within l m none { m with freelist := next } (some (.page x)) := by
  have hnodup : x ∉ next ∧ next.Nodup := List.nodup_cons.mp (hfree ▸ h.nodup)
  refine ⟨⟨⟨hnodup.2, fun y hy => h.inRange y (hfree ▸ List.mem_cons_of_mem x hy)⟩, hnodup.1⟩, fun y => ?_,
    fun _ _ => rfl⟩
  rw [Paging.region_page, outside_add (l := Part.dir) rfl, hfree, outside_cons]
  rfl

theorem within_give (h : FreeList l m) (hx : x ∉ m.freelist) (hin : InRange l x) :
    Within l m (some (.page x)) (m.freed x) none := by
  refine ⟨⟨List.nodup_cons.mpr ⟨hx, h.nodup⟩, List.forall_mem_cons.mpr ⟨hin, h.inRange⟩⟩, fun y => ?_, fun y hy => ?_⟩
  · rw [Paging.region_page, outside_add (l := Part.dir) rfl]
    exact outside_cons
  · refine Paging.setFrame_ne _ _ ?_
    rintro rfl
    exact hy.not_held .dir rfl

namespace Kept

variable (h : Kept l pages r m)
include h

theorem freeList : FreeList l m := ⟨h.divided.nodup, fun x hx => h.inRange x (h.divided.inside x hx)⟩

theorem space {pgdir : Page} (ho : r o = some (.space pgdir)) : Paging.Space l m pgdir := by
  have hholds : ∀ p, m.region (r o) p = m.holds pgdir p := fun p => by rw [ho]; rfl
  refine ⟨h.freeList, fun p x hp => ?_, fun p q x hp hq => ?_⟩
  · rw [← hholds] at hp
    exact ⟨h.inRange x (h.divided.owns.inside (o, p) x hp), h.divided.not_free (l := (o, p)) hp⟩
  · rw [← hholds] at hp hq
    exact congrArg Prod.snd (h.divided.owns.once (o, p) (o, q) x hp hq)

theorem page (ho : r o = some (.page x)) : x ∉ m.freelist ∧ InRange l x := by
  have hx : m.region (r o) .dir = some x := by
    rw [ho]
    rfl
  exact ⟨h.divided.not_free (l := (o, Part.dir)) hx, h.inRange x (h.divided.owns.inside (o, Part.dir) x hx)⟩

variable [DecidableEq O]

/-- The pages of the other owners are outside of what is changed. -/
theorem change {b : Option Root} (hw : Within l m (r o) t b) : Kept l pages (update r o b) t := by
  refine ⟨h.divided.change (o := o) hw.sound.freeList.nodup ?_ ?_ ?_ ?_, h.inRange⟩
  · simp only [update_self]
    exact fun p x hp => hw.sound.not_free hp
  · simp only [update_self]
    exact fun p q x hp hq => hw.sound.once hp hq
  · simp only [update_self]
    exact hw.apart
  · rintro ⟨a, p⟩ ha
    dsimp only
    rw [update_of_ne ha, hw.region_eq]
    intro q x hq
    refine ⟨h.divided.not_free (l := (a, q)) hq, fun q' hq' => ha ?_⟩
    exact congrArg Prod.fst (h.divided.owns.once (a, q) (o, q') x hq hq')

theorem same (hw : Within l m (r o) t (r o)) : Kept l pages r t := by
  have hkept := h.change hw
  rwa [update_eq_self] at hkept

theorem take {next : List Page} (ho : r o = none) (hfree : m.freelist = x :: next) :
    Kept l pages (update r o (some (.page x))) { m with freelist := next } :=
  h.change (ho ▸ within_take h.freeList hfree)

theorem give (ho : r o = some (.page x)) : Kept l pages (update r o none) (m.freed x) := by
  obtain ⟨hx, hin⟩ := h.page ho
  exact h.change (ho ▸ within_give h.freeList hx hin)

end Kept

end Owners

variable {n f : Nat}

inductive Owner (n : Nat) where
  | kernel
  | space (p : Fin n)
  | stack (p : Fin n)
  | pipe (x : Page)
deriving DecidableEq

def Pipe.isOpen (p : Pipe) (writable : Bool) : Bool := if writable then p.writeopen else p.readopen

def Proc.live (p : Proc n f) (x : Option Page) : Option Page := if p.state = .unused then none else x

namespace Sys

def root (s : Sys n f) : Owner n → Option Root
  | .kernel => some (.space s.kpgdir)
  | .space p => ((s.proc p).live (s.proc p).pgdir).map .space
  | .stack p => ((s.proc p).live (s.proc p).kstack).map .page
  | .pipe x => if (s.pipe x).readopen || (s.pipe x).writeopen then some (.page x) else none

def owned (s : Sys n f) (o : Owner n × Part) : Option Page := s.mem.region (s.root o.1) o.2

end Sys

/-- Each of the pages is on the free list exactly once, or has exactly one owner. -/
def Conserved (pages : Page → Prop) (s : Sys n f) : Prop :=
  ∀ x, pages x → (s.mem.freelist.count x = 1 ∧ ∀ o, s.owned o ≠ some x) ∨
    (x ∉ s.mem.freelist ∧ ∃! o, s.owned o = some x)

/-- An end of a pipe is open as long as there is a file for it, of which there is at most one. -/
structure Files (s : Sys n f) : Prop where
  unused : ∀ i, (s.file i).ref = 0 → (s.file i).type = .none
  isOpen_iff : ∀ x w, (s.pipe x).isOpen w = true ↔ ∃ i, (s.file i).type = .pipe x ∧ (s.file i).writable = w
  unique : ∀ i j x, (s.file i).type = .pipe x → (s.file j).type = .pipe x →
    (s.file i).writable = (s.file j).writable → i = j

structure Inv (l : Link) (pages : Page → Prop) (s : Sys n f) : Prop where
  kept : Kept l pages s.root s.mem
  files : Files s
  size : ∀ p, (s.proc p).state ≠ .unused → (s.proc p).sz < kernbase

variable {l : Link} {pages : Page → Prop} {s t : Sys n f} {p : Fin n}

abbrev Any : Panic → Prop := fun _ => True

theorem ends_onMem {α : Type} {E : Stop → Prop} {c : Code Mem Stop α} {Q : α → Mem → Prop} (h : Ends E c Q s.mem) :
    Ends Any (onMem c) (fun a t => ∃ m, t = { s with mem := m } ∧ Q a m) s := by
  rw [ends_iff] at h ⊢
  refine ⟨fun a t ht => ?_, fun _ _ => trivial⟩
  unfold onMem at ht
  split at ht
  case h_1 a' m hm =>
    cases ht
    exact ⟨m, rfl, h.1 a m hm⟩
  case h_2 => cases ht

theorem kalloc_onMem : Ends Any (onMem kalloc) (fun o t => match o with
    | none => t = s
    | some x => ∃ next, s.mem.freelist = x :: next ∧ t = { s with mem := { s.mem with freelist := next } }) s := by
  refine (ends_onMem Paging.kalloc_ends).mono fun o t ht => ?_
  obtain ⟨m, rfl, hm⟩ := ht
  cases o with
  | none => rw [hm.1]
  | some x =>
    obtain ⟨next, hnext, rfl⟩ := hm
    exact ⟨next, hnext, rfl⟩

theorem Pipe.open_iff (p : Pipe) : (p.readopen || p.writeopen) = true ↔ ∃ w, p.isOpen w = true := by
  simp [Pipe.isOpen]

theorem Pipe.closed_eq (p : Pipe) : (!p.readopen && !p.writeopen) = !(p.readopen || p.writeopen) :=
  (Bool.not_or _ _).symm

theorem Inv.congr (h : Inv l pages s) (hroot : t.root = s.root) (hmem : t.mem = s.mem) (hfiles : Files t)
    (hsize : ∀ p, (t.proc p).state ≠ .unused → (t.proc p).sz < kernbase) : Inv l pages t :=
  ⟨hroot ▸ hmem ▸ h.kept, hfiles, hsize⟩

theorem Files.congr (h : Files s) (hpipe : t.pipe = s.pipe)
    (hfile : ∀ i, (t.file i).type = (s.file i).type ∧ (t.file i).writable = (s.file i).writable)
    (hunused : ∀ i, (t.file i).ref = 0 → (t.file i).type = .none) : Files t := by
  refine ⟨hunused, fun x w => ?_, fun i j x hi hj hw => ?_⟩
  · rw [hpipe, h.isOpen_iff]
    simp only [(hfile _).1, (hfile _).2]
  · rw [(hfile i).1] at hi
    rw [(hfile j).1] at hj
    rw [(hfile i).2, (hfile j).2] at hw
    exact h.unique i j x hi hj hw

theorem root_congr (hkpgdir : t.kpgdir = s.kpgdir) (hproc : t.proc = s.proc) (hpipe : t.pipe = s.pipe) :
    t.root = s.root := by
  funext o
  cases o with
  | kernel => simp only [Sys.root, hkpgdir]
  | space p => simp only [Sys.root, hproc]
  | stack p => simp only [Sys.root, hproc]
  | pipe x => simp only [Sys.root, hpipe]

theorem root_setProc (p : Fin n) (x : Proc n f) : (s.setProc p x).root =
    update (update s.root (.space p) ((x.live x.pgdir).map .space)) (.stack p) ((x.live x.kstack).map .page) := by
  funext o
  cases o with
  | kernel => simp [Sys.root, Sys.setProc]
  | pipe x => simp [Sys.root, Sys.setProc]
  | space q =>
    by_cases hq : q = p
    · subst hq
      simp [Sys.root, Sys.setProc]
    · simp [Sys.root, Sys.setProc, hq]
  | stack q =>
    by_cases hq : q = p
    · subst hq
      simp [Sys.root, Sys.setProc]
    · simp [Sys.root, Sys.setProc, hq]

theorem root_setProc_same {x : Proc n f} (hpgdir : x.live x.pgdir = (s.proc p).live (s.proc p).pgdir)
    (hkstack : x.live x.kstack = (s.proc p).live (s.proc p).kstack) : (s.setProc p x).root = s.root := by
  rw [root_setProc, hpgdir, hkstack, update_eq_self_iff.mpr, update_eq_self_iff.mpr]
  · rfl
  · rw [update_of_ne (by simp)]
    rfl

theorem size_setProc (h : ∀ q, (s.proc q).state ≠ .unused → (s.proc q).sz < kernbase) {x : Proc n f}
    (hx : x.state ≠ .unused → x.sz < kernbase) :
    ∀ q, ((s.setProc p x).proc q).state ≠ .unused → ((s.setProc p x).proc q).sz < kernbase := by
  intro q hq
  by_cases hqp : q = p
  · subst hqp
    simp only [Sys.setProc, update_self] at hq ⊢
    exact hx hq
  · simp only [Sys.setProc, update_of_ne hqp] at hq ⊢
    exact h q hq

theorem Inv.setOfile (h : Inv l pages s) (p : Fin n) (fd : Fin nofile) (x : Option (Fin f)) :
    Inv l pages (s.setOfile p fd x) :=
  h.congr (root_setProc_same rfl rfl) rfl (h.files.congr rfl (fun _ => ⟨rfl, rfl⟩) h.files.unused)
    (size_setProc h.size (h.size p))

theorem Inv.setRef (h : Inv l pages s) {i : Fin f} {r : Nat} (hr : r = 0 → (s.file i).type = .none) :
    Inv l pages (s.setFile i { s.file i with ref := r }) := by
  refine h.congr rfl rfl (h.files.congr rfl (fun j => ?_) fun j hj => ?_) h.size
  · by_cases hji : j = i
    · simp [Sys.setFile, hji]
    · simp [Sys.setFile, hji]
  · by_cases hji : j = i
    · subst hji
      simp only [Sys.setFile, update_self] at hj ⊢
      exact hr hj
    · simp only [Sys.setFile, update_of_ne hji] at hj ⊢
      exact h.files.unused j hj

def Pipe.shut (p : Pipe) (writable : Bool) : Pipe :=
  if writable then { p with writeopen := false } else { p with readopen := false }

theorem Pipe.isOpen_shut (p : Pipe) (w v : Bool) : (p.shut w).isOpen v = (p.isOpen v && v != w) := by
  cases w with
  | false => cases v with | false => simp [Pipe.shut, Pipe.isOpen] | true => simp [Pipe.shut, Pipe.isOpen]
  | true => cases v with | false => simp [Pipe.shut, Pipe.isOpen] | true => simp [Pipe.shut, Pipe.isOpen]

theorem root_setPipe (x : Page) (p : Pipe) : (s.setPipe x p).root =
    update s.root (.pipe x) (if p.readopen || p.writeopen then some (.page x) else none) := by
  funext o
  cases o with
  | kernel => simp [Sys.root, Sys.setPipe]
  | space q => simp [Sys.root, Sys.setPipe]
  | stack q => simp [Sys.root, Sys.setPipe]
  | pipe y =>
    by_cases hy : y = x
    · subst hy
      simp [Sys.root, Sys.setPipe]
    · simp [Sys.root, Sys.setPipe, hy]

theorem pipeclose_ends (h : Kept l pages s.root s.mem) {x : Page} {w : Bool} (hopen : (s.pipe x).isOpen w = true) :
    Ends Any (pipeclose l x w) (fun _ t => Kept l pages t.root t.mem ∧ t.file = s.file ∧ t.proc = s.proc ∧
      t.pipe = update s.pipe x ((s.pipe x).shut w)) s := by
  have hx : s.root (.pipe x) = some (.page x) := if_pos ((s.pipe x).open_iff.mpr ⟨w, hopen⟩)
  unfold pipeclose
  apply ends_modify_bind
  change Ends Any _ _ (s.setPipe x ((s.pipe x).shut w))
  apply ends_get_bind
  have hself : (s.setPipe x ((s.pipe x).shut w)).pipe x = (s.pipe x).shut w := by simp [Sys.setPipe]
  have hroot := root_setPipe (s := s) x ((s.pipe x).shut w)
  rw [hself, Pipe.closed_eq]
  refine ends_ite (fun hclosed => ?_) fun hstill => ends_pure ⟨?_, rfl, rfl, rfl⟩
  · rw [Bool.not_eq_true'] at hclosed
    rw [hclosed] at hroot
    refine (ends_onMem (s := s.setPipe x _) (Paging.kfree_ends (h.page hx).2)).mono fun _ t ht => ?_
    obtain ⟨m, rfl, rfl⟩ := ht
    refine ⟨?_, rfl, rfl, rfl⟩
    change Kept l pages (s.setPipe x _).root (s.mem.freed x)
    rw [hroot]
    exact h.give hx
  · rw [Bool.not_eq_true, Bool.not_eq_false'] at hstill
    rw [if_pos hstill, ← hx, update_eq_self] at hroot
    rw [hroot]
    exact h

theorem Files.close (h : Files s) {i : Fin f} {x : Page} (hi : (s.file i).type = .pipe x)
    (hfile : t.file = update s.file i { s.file i with ref := 0, type := .none })
    (hpipe : t.pipe = update s.pipe x ((s.pipe x).shut (s.file i).writable)) : Files t := by
  have hself : (t.file i).type = .none := by simp [hfile]
  have hother : ∀ j, j ≠ i → t.file j = s.file j := fun j hj => by simp [hfile, hj]
  have hne : ∀ j y, (t.file j).type = .pipe y → j ≠ i := by
    rintro j y hj rfl
    rw [hself] at hj
    cases hj
  refine ⟨fun j hj => ?_, fun y w => ?_, fun j k y hj hk hw => ?_⟩
  · by_cases hji : j = i
    · rw [hji, hself]
    · rw [hother j hji] at hj ⊢
      exact h.unused j hj
  · have hiff : (∃ j, (t.file j).type = .pipe y ∧ (t.file j).writable = w) ↔
        ∃ j, j ≠ i ∧ (s.file j).type = .pipe y ∧ (s.file j).writable = w := by
      refine exists_congr fun j => ⟨fun hj => ?_, fun ⟨hji, hj⟩ => by rwa [hother j hji]⟩
      have hji := hne j y hj.1
      rw [hother j hji] at hj
      exact ⟨hji, hj⟩
    rw [hiff, hpipe]
    by_cases hyx : y = x
    · subst hyx
      rw [update_self, Pipe.isOpen_shut, Bool.and_eq_true, h.isOpen_iff, bne_iff_ne]
      constructor
      · rintro ⟨⟨j, hj, rfl⟩, hw⟩
        refine ⟨j, ?_, hj, rfl⟩
        rintro rfl
        exact hw rfl
      · rintro ⟨j, hji, hj, rfl⟩
        exact ⟨⟨j, hj, rfl⟩, fun hw => hji (h.unique j i y hj hi hw)⟩
    · rw [update_of_ne hyx, h.isOpen_iff]
      refine exists_congr fun j => ⟨fun hj => ⟨?_, hj⟩, And.right⟩
      rintro rfl
      rw [hi] at hj
      exact hyx (FileType.pipe.inj hj.1).symm
  · have hji := hne j y hj
    have hki := hne k y hk
    rw [hother j hji] at hj hw
    rw [hother k hki] at hk hw
    exact h.unique j k y hj hk hw

theorem Inv.close_other (h : Inv l pages s) {i : Fin f} (hi : ∀ x, (s.file i).type ≠ .pipe x) :
    Inv l pages (s.setFile i { s.file i with ref := 0, type := .none }) := by
  have hself : ((s.setFile i { s.file i with ref := 0, type := .none }).file i).type = .none := by simp [Sys.setFile]
  have hother : ∀ j, j ≠ i → (s.setFile i { s.file i with ref := 0, type := .none }).file j = s.file j :=
    fun j hj => by simp [Sys.setFile, hj]
  have hiff : ∀ j x, ((s.setFile i { s.file i with ref := 0, type := .none }).file j).type = .pipe x ↔
      (s.file j).type = .pipe x := by
    intro j x
    by_cases hji : j = i
    · rw [hji, hself]
      exact ⟨nofun, fun hx => absurd hx (hi x)⟩
    · rw [hother j hji]
  have hwritable : ∀ j, ((s.setFile i { s.file i with ref := 0, type := .none }).file j).writable =
      (s.file j).writable := by
    intro j
    by_cases hji : j = i
    · simp [hji, Sys.setFile]
    · rw [hother j hji]
  refine h.congr rfl rfl ⟨fun j hj => ?_, fun x w => ?_, fun j k x hj hk hw => ?_⟩ h.size
  · by_cases hji : j = i
    · rw [hji, hself]
    · rw [hother j hji] at hj ⊢
      exact h.files.unused j hj
  · simp only [hiff, hwritable]
    exact h.files.isOpen_iff x w
  · rw [hiff] at hj hk
    rw [hwritable, hwritable] at hw
    exact h.files.unique j k x hj hk hw

theorem fileclose_ends (h : Inv l pages s) (i : Fin f) :
    Ends Any (fileclose l i) (fun _ t => Inv l pages t ∧ t.proc = s.proc) s := by
  unfold fileclose
  apply ends_get_bind
  refine ends_ite (fun _ => ends_stop_bind trivial) fun href => ?_
  apply ends_modify_bind
  refine ends_ite (fun hpos => ends_pure ⟨h.setRef (by omega), rfl⟩) fun hlast => ?_
  apply ends_modify_bind
  have htwice : (s.setFile i { s.file i with ref := (s.file i).ref - 1 }).setFile i
      { s.file i with ref := 0, type := .none } = s.setFile i { s.file i with ref := 0, type := .none } := by
    simp [Sys.setFile]
  rw [htwice]
  split
  case h_1 x hx =>
    have hopen : (s.pipe x).isOpen (s.file i).writable = true := (h.files.isOpen_iff x _).mpr ⟨i, hx, rfl⟩
    refine (pipeclose_ends (s := s.setFile i { s.file i with ref := 0, type := .none }) h.kept hopen).mono
      fun _ t ht => ?_
    obtain ⟨hkept, hfile, hproc, hpipe⟩ := ht
    refine ⟨⟨hkept, h.files.close hx hfile hpipe, ?_⟩, hproc⟩
    rw [hproc]
    exact h.size
  case h_2 hi => exact ends_pure ⟨h.close_other (by simp [hi]), rfl⟩
  case h_3 hi => exact ends_pure ⟨h.close_other (by simp [hi]), rfl⟩

theorem filealloc_ends (h : Inv l pages s) : Ends Any filealloc (fun o t => Inv l pages t ∧ t.proc = s.proc ∧
    ∀ i ∈ o, (s.file i).ref = 0 ∧ (t.file i).ref ≠ 0 ∧ ∀ j, (t.file j).type = (s.file j).type ∧
      ((s.file j).ref ≠ 0 → (t.file j).ref ≠ 0)) s := by
  unfold filealloc
  apply ends_get_bind
  split
  case h_1 => exact ends_pure ⟨h, rfl, nofun⟩
  case h_2 i hi =>
    have hzero : (s.file i).ref = 0 := by simpa using List.find?_some hi
    apply ends_modify_bind
    refine ends_pure ⟨h.setRef nofun, rfl, fun j hj => ?_⟩
    cases hj
    refine ⟨hzero, by simp [Sys.setFile], fun j => ?_⟩
    by_cases hji : j = i
    · simp [hji, Sys.setFile]
    · simp [hji, Sys.setFile]

theorem Inv.openPipe (h : Inv l pages s) {x : Page} {next : List Page} (hx : s.mem.freelist = x :: next) {f0 f1 : Fin f}
    (hne : f0 ≠ f1) (h0 : (s.file f0).ref ≠ 0 ∧ (s.file f0).type = .none)
    (h1 : (s.file f1).ref ≠ 0 ∧ (s.file f1).type = .none)
    (ht : t.mem = { s.mem with freelist := next } ∧ t.kpgdir = s.kpgdir ∧ t.proc = s.proc ∧
      t.pipe = update s.pipe x ⟨true, true⟩)
    (hf0 : t.file f0 = { s.file f0 with type := .pipe x, writable := false })
    (hf1 : t.file f1 = { s.file f1 with type := .pipe x, writable := true })
    (hfile : ∀ i, i ≠ f0 → i ≠ f1 → t.file i = s.file i) : Inv l pages t := by
  obtain ⟨hmem, hkpgdir, hproc, hpipe⟩ := ht
  have hclosed : ¬((s.pipe x).readopen || (s.pipe x).writeopen) = true := by
    intro hopen
    have hpage : s.root (.pipe x) = some (.page x) := if_pos hopen
    exact (h.kept.page hpage).1 (by simp [hx])
  have hnone : ∀ i, (s.file i).type ≠ .pipe x := by
    intro i hi
    exact hclosed ((s.pipe x).open_iff.mpr ⟨_, (h.files.isOpen_iff x _).mpr ⟨i, hi, rfl⟩⟩)
  have hroot : t.root = update s.root (.pipe x) (some (.page x)) := by
    rw [root_congr (s := s.setPipe x ⟨true, true⟩) hkpgdir hproc hpipe, root_setPipe]
    rfl
  -- A file of the new state is one of the two ends, or an old file of another pipe.
  have hcases : ∀ i y, (t.file i).type = .pipe y → (y = x ∧ (i = f0 ∨ i = f1)) ∨ (y ≠ x ∧ t.file i = s.file i) := by
    intro i y hi
    by_cases hi0 : i = f0
    · rw [hi0, hf0] at hi
      exact .inl ⟨(FileType.pipe.inj hi).symm, .inl hi0⟩
    · by_cases hi1 : i = f1
      · rw [hi1, hf1] at hi
        exact .inl ⟨(FileType.pipe.inj hi).symm, .inr hi1⟩
      · refine .inr ⟨?_, hfile i hi0 hi1⟩
        rintro rfl
        rw [hfile i hi0 hi1] at hi
        exact hnone i hi
  refine ⟨?_, ⟨fun i hi => ?_, fun y w => ?_, fun i j y hi hj hw => ?_⟩, hproc ▸ h.size⟩
  · rw [hroot, hmem]
    exact h.kept.take (if_neg hclosed) hx
  · by_cases hi0 : i = f0
    · rw [hi0, hf0] at hi
      exact absurd hi h0.1
    · by_cases hi1 : i = f1
      · rw [hi1, hf1] at hi
        exact absurd hi h1.1
      · rw [hfile i hi0 hi1] at hi ⊢
        exact h.files.unused i hi
  · rw [hpipe]
    by_cases hy : y = x
    · subst hy
      rw [update_self]
      refine iff_of_true (by simp [Pipe.isOpen]) ?_
      cases w with
      | false => exact ⟨f0, by simp [hf0]⟩
      | true => exact ⟨f1, by simp [hf1]⟩
    · rw [update_of_ne hy, h.files.isOpen_iff]
      constructor
      · rintro ⟨i, hi, hw⟩
        have hi0 : i ≠ f0 := by
          rintro rfl
          rw [h0.2] at hi
          cases hi
        have hi1 : i ≠ f1 := by
          rintro rfl
          rw [h1.2] at hi
          cases hi
        exact ⟨i, by rw [hfile i hi0 hi1]; exact ⟨hi, hw⟩⟩
      · rintro ⟨i, hi, hw⟩
        rcases hcases i y hi with ⟨hyx, -⟩ | ⟨-, hsame⟩
        · exact absurd hyx hy
        · rw [hsame] at hi hw
          exact ⟨i, hi, hw⟩
  · rcases hcases i y hi with ⟨rfl, hi'⟩ | ⟨hyx, hsame⟩
    · rcases hcases j y hj with ⟨-, hj'⟩ | ⟨hyx, -⟩
      · rcases hi' with rfl | rfl
        · rcases hj' with rfl | rfl
          · rfl
          · simp [hf0, hf1] at hw
        · rcases hj' with rfl | rfl
          · simp [hf0, hf1] at hw
          · rfl
      · exact absurd rfl hyx
    · rcases hcases j y hj with ⟨rfl, -⟩ | ⟨-, hsame'⟩
      · exact absurd rfl hyx
      · rw [hsame] at hi hw
        rw [hsame'] at hj hw
        exact h.files.unique i j y hi hj hw

theorem pipealloc_ends (h : Inv l pages s) :
    Ends Any (pipealloc l) (fun _ t => Inv l pages t ∧ t.proc = s.proc) s := by
  unfold pipealloc
  refine Ends.bind (filealloc_ends h) fun o t ht => ?_
  obtain ⟨hinv, hproc, hspec⟩ := ht
  cases o with
  | none => exact ends_pure ⟨hinv, hproc⟩
  | some f0 =>
    obtain ⟨hzero, hone, htypes⟩ := hspec f0 rfl
    have htype0 : (t.file f0).type = .none := (htypes f0).1.trans (h.files.unused f0 hzero)
    refine Ends.bind (filealloc_ends hinv) fun o u hu => ?_
    obtain ⟨hinv', hproc', hspec'⟩ := hu
    cases o with
    | none =>
      refine Ends.bind (fileclose_ends hinv' f0) fun _ w hw => ends_pure ⟨hw.1, ?_⟩
      rw [hw.2, hproc', hproc]
    | some f1 =>
      obtain ⟨hzero', hone', htypes'⟩ := hspec' f1 rfl
      have hne : f0 ≠ f1 := fun he => hone (he ▸ hzero')
      refine Ends.bind kalloc_onMem fun o w hw => ?_
      cases o with
      | none =>
        subst hw
        refine Ends.bind (fileclose_ends hinv' f0) fun _ w hw => ?_
        refine Ends.bind (fileclose_ends hw.1 f1) fun _ z hz => ends_pure ⟨hz.1, ?_⟩
        rw [hz.2, hw.2, hproc', hproc]
      | some x =>
        obtain ⟨next, hnext, rfl⟩ := hw
        refine ends_modify_bind (ends_modify_bind (ends_modify_bind (ends_pure ⟨?_, hproc'.trans hproc⟩)))
        refine hinv'.openPipe hnext hne ⟨(htypes' f0).2 hone, (htypes' f0).1.trans htype0⟩
          ⟨hone', (htypes' f1).1.trans (hinv.files.unused f1 hzero')⟩ ⟨rfl, rfl, rfl, rfl⟩ ?_ ?_ fun i hi0 hi1 => ?_
        · simp [Sys.setFile, Sys.setPipe, hne]
        · simp [Sys.setFile, Sys.setPipe, hne.symm]
        · simp [Sys.setFile, Sys.setPipe, hi0, hi1]

end Xv6.Vm
