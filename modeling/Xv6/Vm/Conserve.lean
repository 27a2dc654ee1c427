import Xv6.Vm.Owners

/-!
# No page is lost

A call that fails gives back what it took, but `setupkvm` forgets the page directory when a page table cannot be had,
and `copyuvm` the page that it was about to map.
-/

open Function

namespace Xv6.Vm

open Code Run Ownership
open Paging (Page Link Mem Stop Image pgsize kernbase Part Root Within smallLink onePage)

variable {n f : Nat} {l : Link} {pages : Page → Prop} {s t : Sys n f} {p : Fin n}

theorem Sys.setProc_setProc (s : Sys n f) (p : Fin n) (x y : Proc n f) :
    (s.setProc p x).setProc p y = s.setProc p y := by
  simp only [Sys.setProc, update_idem]

theorem Files.of_eq (h : Files s) (hpipe : t.pipe = s.pipe) (hfile : t.file = s.file) : Files t :=
  h.congr hpipe (fun i => by simp [hfile]) (by rw [hfile]; exact h.unused)

theorem pgdirOf_ends (p : Fin n) :
    Ends Any (pgdirOf p) (fun pgdir t => t = s ∧ (s.proc p).pgdir = some pgdir) s := by
  unfold pgdirOf
  apply ends_get_bind
  split
  case h_1 => exact ends_stop trivial
  case h_2 pgdir hp => exact ends_pure ⟨rfl, hp⟩

/-! ## The system calls -/

theorem sysPipe_ends (h : Inv l pages s) (p : Fin n) : Ends Any (sysPipe l p) (fun _ t => Inv l pages t) s := by
  have hfd : ∀ {s : Sys n f} (i : Fin f), Inv l pages s → Ends Any (fdalloc p i) (fun _ t => Inv l pages t) s := by
    intro s i hs
    unfold fdalloc
    apply ends_get_bind
    split
    case h_1 => exact ends_pure hs
    case h_2 fd _ => exact ends_modify_bind (ends_pure (hs.setOfile p fd _))
  have hclose : ∀ {s : Sys n f} (rf wf : Fin f), Inv l pages s → Ends Any (do
      fileclose l rf
      fileclose l wf
      pure (-1 : Int)) (fun _ t => Inv l pages t) s := by
    intro s rf wf hs
    refine Ends.bind (fileclose_ends hs rf) fun _ t ht => ?_
    exact Ends.bind (fileclose_ends ht.1 wf) fun _ u hu => ends_pure hu.1
  unfold sysPipe
  refine Ends.bind (pipealloc_ends h) fun o t ht => ?_
  cases o with
  | none => exact ends_pure ht.1
  | some fs =>
    obtain ⟨rf, wf⟩ := fs
    refine Ends.bind (hfd rf ht.1) fun o u hu => ?_
    cases o with
    | none => exact hclose rf wf hu
    | some fd0 =>
      refine Ends.bind (hfd wf hu) fun o w hw => ?_
      cases o with
      | none => exact ends_modify_bind (hclose rf wf (hw.setOfile p fd0 none))
      | some fd1 => exact ends_pure hw

theorem sysClose_ends (h : Inv l pages s) (p : Fin n) (fd : Fin nofile) :
    Ends Any (sysClose l p fd) (fun _ t => Inv l pages t) s := by
  unfold sysClose
  apply ends_get_bind
  split
  case h_1 => exact ends_pure h
  case h_2 i _ =>
    apply ends_modify_bind
    exact Ends.bind (fileclose_ends (h.setOfile p fd none) i) fun _ t ht => ends_pure ht.1

/-- What a process does within its address space. -/
theorem onProc_ends {α : Type} {c : Code Paging.Sys Stop α} (h : Inv l pages s) (hp : (s.proc p).state = .alive)
    (hc : ∀ pgdir, Paging.Space l s.mem pgdir → Ends (fun _ => True) c (fun _ u =>
      Within l s.mem (some (.space pgdir)) u.mem (some (.space u.proc.pgdir)) ∧ u.proc.sz < kernbase)
      ⟨s.mem, ⟨pgdir, (s.proc p).sz, (s.proc p).esp⟩⟩) :
    Ends Any (onProc p c) (fun _ t => Inv l pages t) s := by
  refine ends_iff.mpr ⟨fun a t ht => ?_, fun _ _ => trivial⟩
  unfold onProc at ht
  split at ht
  case h_1 => cases ht
  case h_2 pgdir hpgdir =>
    split at ht
    case h_2 => cases ht
    case h_1 a' u hu =>
      cases ht
      have hroot : s.root (.space p) = some (.space pgdir) := by simp [Sys.root, Proc.live, hp, hpgdir]
      obtain ⟨hwithin, hsz⟩ := (hc pgdir (h.kept.space hroot)).of_ok hu
      refine ⟨?_, h.files.of_eq rfl rfl, size_setProc h.size fun _ => hsz⟩
      have hstack : ((s.proc p).live (s.proc p).kstack).map Root.page = s.root (.stack p) := rfl
      rw [Sys.ran, root_setProc]
      simp only [Proc.live, hp, reduceCtorEq, if_false] at hstack ⊢
      rw [hstack, update_eq_self_iff.mpr (by rw [update_of_ne (by simp)]; rfl)]
      exact h.kept.change (hroot ▸ hwithin)

theorem growproc_ends (h : Inv l pages s) (hp : (s.proc p).state = .alive) (k : Int) :
    Ends Any (growproc l p k) (fun _ t => Inv l pages t) s := by
  unfold growproc
  refine Ends.bind (onProc_ends h hp fun pgdir hspace =>
    Paging.growproc_within (s := ⟨s.mem, ⟨pgdir, _, _⟩⟩) hspace (h.size p (by simp [hp]))) fun b t ht => ?_
  cases b with
  | true => exact ends_pure ht
  | false => exact ends_pure ht

theorem exec_ends (h : Inv l pages s) (hp : (s.proc p).state = .alive) {image : Option Image}
    {argv : List (List Bytes.Byte)} (hfree : ∀ i ∈ image, Paging.Builds i s.mem.freelist.length) :
    Ends Any (exec l p image argv) (fun _ t => Inv l pages t) s := by
  unfold exec
  cases image with
  | none => exact ends_pure h
  | some image =>
    refine Ends.bind (onProc_ends h hp fun pgdir hspace =>
      (Paging.exec_ends (s := ⟨s.mem, ⟨pgdir, _, _⟩⟩) hspace).mono fun _ u hu =>
        ⟨hu.1 (hfree image rfl), hu.2.1 (h.size p (by simp [hp]))⟩) fun b t ht => ?_
    cases b with
    | true => exact ends_pure ht
    | false => exact ends_pure ht

theorem dupFiles_ends (h : Inv l pages s) (p np : Fin n) : Ends Any (dupFiles p np) (fun _ t => Inv l pages t) s := by
  unfold dupFiles
  refine ends_forM (I := fun _ t => Inv l pages t) h fun fd _ t ht => ?_
  apply ends_get_bind
  split
  case h_1 => exact ends_pure ht
  case h_2 i _ =>
    refine Ends.bind (R := fun _ u => Inv l pages u) ?_ fun _ u hu => ends_modify (hu.setOfile np fd _)
    unfold filedup
    apply ends_get_bind
    refine ends_ite (fun _ => ends_stop_bind trivial) fun _ => ?_
    exact ends_modify (ht.setRef nofun)

theorem allocproc_ends (h : Inv l pages s) : Ends Any allocproc (fun o t => match o with
    | none => Inv l pages t
    | some np => (s.proc np).state = .unused ∧ ∃ x next, s.mem.freelist = x :: next ∧
        t = Sys.setProc { s with mem := { s.mem with freelist := next } } np
          { s.proc np with state := .alive, kstack := some x }) s := by
  unfold allocproc
  apply ends_get_bind
  split
  case h_1 => exact ends_pure h
  case h_2 np hnp =>
    have hunused : (s.proc np).state = .unused := by simpa using List.find?_some hnp
    refine Ends.bind kalloc_onMem fun o t ht => ?_
    cases o with
    | none =>
      subst ht
      refine ends_modify_bind (ends_pure ?_)
      refine h.congr ?_ rfl (h.files.of_eq rfl rfl) (size_setProc h.size fun hne => absurd hunused hne)
      exact root_setProc_same (by simp [Proc.live, hunused]) (by simp [Proc.live, hunused])
    | some x =>
      obtain ⟨next, hnext, rfl⟩ := ht
      exact ends_modify_bind (ends_pure ⟨hunused, x, next, hnext, rfl⟩)

/-- How many pages may be free when a process forks: the stack is the only page that can be had, or the kernel part of
the page directory can be had as well and the pages do not run out at a page table of the user part. -/
def Affordable (free sz : Nat) : Prop :=
  free ≤ 1 ∨ 66 ≤ free ∧ ¬((free - 66) % 1025 = 1 ∧ 1024 * ((free - 66) / 1025) < Paging.pages sz)

instance (free sz : Nat) : Decidable (Affordable free sz) := by
  unfold Affordable
  infer_instance

theorem Affordable.copies {free sz : Nat} (h : Affordable (free + 1) sz) : Paging.Copies free sz := by
  rcases h with h | ⟨h, hstop⟩
  · exact .inl (by omega)
  · refine .inr ⟨by omega, fun i hi he => hstop ⟨by omega, ?_⟩⟩
    have hdiv : (free + 1 - 66) / 1025 = i := by omega
    rw [hdiv]
    exact hi

theorem fork_ends (h : Inv l pages s) (hp : (s.proc p).state = .alive)
    (hfree : (∃ q, (s.proc q).state = .unused) → Affordable s.mem.freelist.length (s.proc p).sz) :
    Ends Any (fork l p) (fun _ t => Inv l pages t) s := by
  unfold fork
  refine Ends.bind (allocproc_ends h) fun o t ht => ?_
  cases o with
  | none => exact ends_pure ht
  | some np =>
    obtain ⟨hunused, x, next, hnext, rfl⟩ := ht
    have hne : p ≠ np := by
      rintro rfl
      rw [hp] at hunused
      cases hunused
    have hstack : s.root (.stack np) = none := by simp [Sys.root, Proc.live, hunused]
    have hspace : s.root (.space np) = none := by simp [Sys.root, Proc.live, hunused]
    have hkept := h.kept.take hstack hnext
    have hpages := hfree ⟨np, hunused⟩
    rw [hnext, List.length_cons] at hpages
    refine Ends.bind (pgdirOf_ends p) fun pgdir t ht => ?_
    obtain ⟨rfl, hpgdir⟩ := ht
    apply ends_get_bind
    have hproc : ∀ (m : Mem) y, (Sys.setProc { s with mem := m } np y).proc p = s.proc p :=
      fun m y => update_of_ne hne _ _
    have hself : ∀ (m : Mem) y, (Sys.setProc { s with mem := m } np y).proc np = y :=
      fun m y => update_self _ _ _
    rw [hproc] at hpgdir ⊢
    have hparent : update s.root (.stack np) (some (.page x)) (.space p) = some (.space pgdir) := by
      rw [update_of_ne (by simp)]
      simp [Sys.root, Proc.live, hp, hpgdir]
    have hchild : update s.root (.stack np) (some (.page x)) (.space np) = none := by
      rw [update_of_ne (by simp), hspace]
    have hsize := h.size p (by simp [hp])
    refine Ends.bind (ends_onMem (Paging.copyuvm_ends (E := fun _ => True) hkept.freeList
      (fun q y hq => ((hkept.space hparent).owned q y hq).2) (Nat.le_of_lt hsize) (.inr fun _ => trivial)))
      fun o u hu => ?_
    obtain ⟨m, hu, hm⟩ := hu
    obtain rfl : u = Sys.setProc { s with mem := m } np { s.proc np with state := .alive, kstack := some x } := hu
    cases o with
    | none =>
      have hback := hkept.same (hchild ▸ hm.2 hpages.copies)
      have hroot := update_self (Owner.stack np) (some (Root.page x)) s.root
      apply ends_get_bind
      rw [hself]
      refine Ends.bind (ends_onMem (Paging.kfree_ends (hback.page hroot).2)) fun _ u hu => ?_
      obtain ⟨_, hu, rfl⟩ := hu
      obtain rfl : u =
        Sys.setProc { s with mem := m.freed x } np { s.proc np with state := .alive, kstack := some x } := hu
      refine ends_modify_bind (ends_pure ?_)
      have hfreed := hback.give hroot
      rw [update_idem, ← hstack, update_eq_self] at hfreed
      rw [hself, Sys.setProc_setProc]
      refine ⟨?_, h.files.of_eq rfl rfl, size_setProc h.size fun hne => absurd rfl hne⟩
      rw [root_setProc_same (s := { s with mem := m.freed x }) (by simp [Proc.live, hunused])
        (by simp [Proc.live, hunused])]
      exact hfreed
    | some d =>
      refine ends_modify_bind (Ends.bind (dupFiles_ends ?_ p np) fun _ u hu => ends_pure hu)
      rw [hself, hproc, Sys.setProc_setProc]
      refine ⟨?_, h.files.of_eq rfl rfl, size_setProc h.size fun _ => hsize⟩
      have hnew := hkept.change (o := .space np) (b := some (.space d)) (by rw [hchild]; exact hm.fresh)
      rw [update_comm (by simp)] at hnew
      rw [root_setProc]
      exact hnew

theorem closeFiles_ends (h : Inv l pages s) (hp : (s.proc p).state = .alive) :
    Ends Any (closeFiles l p) (fun _ t => Inv l pages t ∧ (t.proc p).state = .alive) s := by
  unfold closeFiles
  refine ends_forM (I := fun _ t => Inv l pages t ∧ (t.proc p).state = .alive) ⟨h, hp⟩ fun fd _ t ht => ?_
  apply ends_get_bind
  split
  case h_1 => exact ends_pure ht
  case h_2 i _ =>
    refine Ends.bind (fileclose_ends ht.1 i) fun _ u hu => ends_modify ⟨hu.1.setOfile p fd none, ?_⟩
    simp only [Sys.setOfile, Sys.setProc, update_self, hu.2]
    exact ht.2

theorem Inv.abandon (h : Inv l pages s) (p : Fin n) : Inv l pages (s.abandon p) := by
  have hproc : ∀ q, ((s.abandon p).proc q).state = (s.proc q).state ∧
      ((s.abandon p).proc q).kstack = (s.proc q).kstack ∧
      ((s.abandon p).proc q).pgdir = (s.proc q).pgdir ∧ ((s.abandon p).proc q).sz = (s.proc q).sz := by
    intro q
    simp only [Sys.abandon]
    split
    · exact ⟨rfl, rfl, rfl, rfl⟩
    · exact ⟨rfl, rfl, rfl, rfl⟩
  refine h.congr ?_ rfl (h.files.of_eq rfl rfl) fun q hq => ?_
  · funext o
    cases o with
    | kernel => rfl
    | space q => simp only [Sys.root, Proc.live, hproc]
    | stack q => simp only [Sys.root, Proc.live, hproc]
    | pipe x => rfl
  · rw [(hproc q).1] at hq
    rw [(hproc q).2.2.2]
    exact h.size q hq

theorem exit_ends (h : Inv l pages s) (hp : (s.proc p).state = .alive) :
    Ends Any (exit l p) (fun _ t => Inv l pages t) s := by
  unfold exit
  apply ends_get_bind
  refine ends_ite (fun _ => ends_stop_bind trivial) fun _ => ?_
  refine Ends.bind (closeFiles_ends h hp) fun _ t ht => ?_
  have habandon := ht.1.abandon p
  have halive : ((t.abandon p).proc p).state = .alive := by
    simp only [Sys.abandon]
    split
    · exact ht.2
    · exact ht.2
  refine ends_modify_bind (ends_modify_bind (ends_pure ?_))
  refine habandon.congr ?_ rfl (habandon.files.of_eq rfl rfl)
    (size_setProc habandon.size fun _ => habandon.size p (by simp [halive]))
  exact root_setProc_same (by simp [Proc.live, halive]) (by simp [Proc.live, halive])

theorem wait_ends (h : Inv l pages s) (p : Fin n) : Ends Any (wait l p) (fun _ t => Inv l pages t) s := by
  unfold wait
  apply ends_get_bind
  split
  case h_1 => exact ends_pure h
  case h_2 q hq =>
    have hzombie : (s.proc q).state = .zombie := by
      have hfound := List.find?_some hq
      simp only [decide_eq_true_eq] at hfound
      exact hfound.2
    split
    case h_1 => exact ends_stop_bind trivial
    case h_2 x hx =>
      have hstack : s.root (.stack q) = some (.page x) := by simp [Sys.root, Proc.live, hzombie, hx]
      have hfreed := h.kept.give hstack
      refine Ends.bind (ends_onMem (Paging.kfree_ends (h.kept.page hstack).2)) fun _ u hu => ?_
      obtain ⟨_, rfl, rfl⟩ := hu
      apply ends_modify_bind
      refine Ends.bind (pgdirOf_ends q) fun pgdir t ht => ?_
      obtain ⟨rfl, hpgdir⟩ := ht
      have hpgdir' : (s.proc q).pgdir = some pgdir := by
        simpa only [Sys.setProc, update_self] using hpgdir
      have hdir : update s.root (.stack q) none (.space q) = some (.space pgdir) := by
        rw [update_of_ne (by simp)]
        simp [Sys.root, Proc.live, hzombie, hpgdir']
      refine Ends.bind (ends_onMem (Paging.freevm_ends (hfreed.space hdir))) fun _ u hu => ?_
      obtain ⟨m, hu, hm⟩ := hu
      obtain rfl : u = Sys.setProc { s with mem := m } q { s.proc q with kstack := none } := hu
      refine ends_modify_bind (ends_pure ?_)
      rw [Sys.setProc_setProc]
      refine ⟨?_, h.files.of_eq rfl rfl, size_setProc h.size fun hne => absurd rfl hne⟩
      have hgone := hfreed.change (hdir ▸ hm)
      rw [update_comm (by simp)] at hgone
      rw [root_setProc]
      exact hgone

/-! ## Runs -/

/-- The calls that may fail without losing a page. A `fork` without an entry takes nothing, nor does an `exec` of a file
that is no program. -/
def Enough (s : Sys n f) (a : Fin n × Call) : Prop :=
  match a.2 with
  | .fork => (∃ q, (s.proc q).state = .unused) → Affordable s.mem.freelist.length (s.proc a.1).sz
  | .exec (some image) _ => image.header = true → s.mem.freelist.length = 0 ∨ 65 ≤ s.mem.freelist.length
  | _ => True

instance (s : Sys n f) (a : Fin n × Call) : Decidable (Enough s a) := by
  unfold Enough
  split
  · infer_instance
  · infer_instance
  · infer_instance

structure Boot (l : Link) (pages : Page → Prop) (s : Sys n f) : Prop where
  kept : Kept l pages s.root s.mem
  file : ∀ i, s.file i = ⟨0, .none, false⟩
  pipe : ∀ x, s.pipe x = ⟨false, false⟩
  proc : ∀ p, p ≠ s.initproc → (s.proc p).state = .unused
  size : (s.proc s.initproc).sz = pgsize

theorem Boot.inv (h : Boot l pages s) : Inv l pages s := by
  refine ⟨h.kept, ⟨fun i _ => by simp [h.file], fun x w => ?_, fun i j x hi => by simp [h.file] at hi⟩, fun p hp => ?_⟩
  · simp [h.file, h.pipe, Pipe.isOpen]
  · have hinit : p = s.initproc := by
      by_contra hne
      exact hp (h.proc p hne)
    rw [hinit, h.size]
    decide

theorem call_ends (h : Inv l pages s) {a : Fin n × Call} (hp : (s.proc a.1).state = .alive)
    (hok : Enough s a) : Ends Any (call l a.1 a.2) (fun _ t => Inv l pages t) s := by
  obtain ⟨p, c⟩ := a
  cases c with
  | fork => exact fork_ends h hp hok
  | exec image argv =>
    refine exec_ends h hp fun i hi => ?_
    cases hi
    exact hok
  | sbrk k => exact growproc_ends h hp k
  | pipe => exact sysPipe_ends h p
  | close fd => exact sysClose_ends h p fd
  | exit => exact exit_ends h hp
  | wait => exact wait_ends h p

theorem Inv.step (h : Inv l pages s) {a : Fin n × Call} (hok : Enough s a) (hstep : step l s a = some t) :
    Inv l pages t := by
  unfold Vm.step at hstep
  split at hstep
  case isTrue hp =>
    split at hstep
    case h_1 r t' hcall =>
      cases hstep
      exact (call_ends h hp hok).of_ok hcall
    case h_2 => cases hstep
  case isFalse => cases hstep

theorem Inv.conserved (h : Inv l pages s) : Conserved pages s := fun _ hx => h.kept.divided.count_or_unique hx

def small : Sys 2 2 where
  mem := { onePage with freelist := [0x205, 0x206] }
  kpgdir := 0x203
  pipe := fun _ => ⟨false, false⟩
  file := fun _ => ⟨0, .none, false⟩
  proc := fun p => if p = 0 then ⟨.alive, some 0x204, some 0x200, pgsize, pgsize, none, fun _ => none⟩ else
    ⟨.unused, none, none, 0, 0, none, fun _ => none⟩
  initproc := 0

def smallPages (x : Page) : Prop := x ∈ [0x200, 0x201, 0x202, 0x203, 0x204, 0x205, 0x206]

def smallOwner (x : Page) : Owner 2 × Part :=
  if x = 0x200 then (.space 0, .dir)
  else if x = 0x201 then (.space 0, .table 0)
  else if x = 0x202 then (.space 0, .user (Paging.slot 0))
  else if x = 0x203 then (.kernel, .dir)
  else (.stack 0, .dir)

theorem small_holds : small.mem.holds 0x200 =
    update (update (small.mem.region (some (.page 0x200))) (.table 0) (some 0x201)) (.user (Paging.slot 0))
      (some 0x202) :=
  Paging.onePage_space.2.2

theorem small_kernel : small.mem.holds 0x203 = small.mem.region (some (.page 0x203)) := by
  refine Paging.empty_holds fun i => ?_
  have hframe : small.mem.frame 0x203 = fun _ => 0 := by
    change onePage.frame 0x203 = _
    rw [onePage, Paging.Mem.setWord, Paging.setFrame_ne _ _ (by decide), Paging.Mem.setWord,
      Paging.setFrame_ne _ _ (by decide)]
    rfl
  rw [Paging.Mem.word, hframe, Paging.Frame.word_zero]

theorem small_owned {o : Owner 2 × Part} {x : Page} (h : small.owned o = some x) :
    x ∈ [0x200, 0x201, 0x202, 0x203, 0x204] ∧ o = smallOwner x := by
  obtain ⟨o, p⟩ := o
  cases o with
  | kernel =>
    change small.mem.holds 0x203 p = some x at h
    rw [small_kernel] at h
    obtain ⟨rfl, hx⟩ := Option.ite_none_right_eq_some.mp h
    cases hx
    exact ⟨by decide, rfl⟩
  | space q =>
    by_cases hq : q = 0
    · subst hq
      change small.mem.holds 0x200 p = some x at h
      rw [small_holds, update_apply] at h
      split at h
      · rename_i hp
        cases h
        exact ⟨by decide, by rw [hp]; rfl⟩
      · rw [update_apply] at h
        split at h
        · rename_i hp
          cases h
          exact ⟨by decide, by rw [hp]; rfl⟩
        · obtain ⟨rfl, hx⟩ := Option.ite_none_right_eq_some.mp h
          cases hx
          exact ⟨by decide, rfl⟩
    · simp [Sys.owned, Sys.root, small, Proc.live, hq, Paging.Mem.region] at h
  | stack q =>
    by_cases hq : q = 0
    · subst hq
      obtain ⟨rfl, hx⟩ := Option.ite_none_right_eq_some.mp h
      cases hx
      exact ⟨by decide, rfl⟩
    · simp [Sys.owned, Sys.root, small, Proc.live, hq, Paging.Mem.region] at h
  | pipe y => cases h

theorem small_kept : Kept smallLink smallPages small.root small.mem := by
  refine ⟨⟨⟨fun o x ho => ?_, fun o o' x ho ho' => ?_, fun x hx => ?_⟩, by decide, fun x hx => ?_⟩,
    fun (x : Nat) hx => ?_⟩
  · exact List.mem_append_left [0x205, 0x206] (small_owned ho).1
  · rw [(small_owned ho).2, (small_owned ho').2]
  · constructor
    · intro hused
      have hne : x ∉ [0x205, 0x206] := of_decide_eq_true hused
      refine ⟨smallOwner x, ?_⟩
      simp only [smallPages, List.mem_cons, List.not_mem_nil, or_false, not_or] at hx hne
      rcases hx with rfl | rfl | rfl | rfl | rfl | hx
      · rfl
      · exact congrFun small_holds (.table 0)
      · exact congrFun small_holds (.user (Paging.slot 0))
      · rfl
      · rfl
      · exact (hx.elim hne.1 hne.2).elim
    · rintro ⟨o, ho⟩
      have hin := (small_owned ho).1
      simp only [List.mem_cons, List.not_mem_nil, or_false] at hin
      rcases hin with rfl | rfl | rfl | rfl | rfl
      all_goals decide
  · exact List.mem_append_right [0x200, 0x201, 0x202, 0x203, 0x204] hx
  · have hall : ∀ x ∈ [0x200, 0x201, 0x202, 0x203, 0x204, 0x205, 0x206], 0x200 ≤ x ∧
        x * pgsize < Paging.phystop := by
      decide
    exact hall x hx

theorem small_boot : Boot smallLink smallPages small := by
  refine ⟨small_kept, fun _ => rfl, fun _ => rfl, fun p hp => ?_, rfl⟩
  have hne : p ≠ 0 := hp
  simp [small, hne]

/-- What `fork` leaves: the stack is back on the free list, and page `0x206` is nowhere. -/
def smallForked : Sys 2 2 :=
  Sys.setProc (Sys.setProc { small with mem := (Mem.memset { small.mem with freelist := [] } 0x206 0).freed 0x205 } 1
    { small.proc 1 with state := .alive, kstack := some 0x205 }) 1
    { small.proc 1 with state := .unused, kstack := none, pgdir := none }

theorem smallForked_owned (o : Owner 2 × Part) : smallForked.owned o = small.owned o := by
  have hroot : smallForked.root = small.root := by
    rw [smallForked, Sys.setProc_setProc]
    exact root_setProc_same rfl rfl
  have hframe : ∀ y, y ∉ small.mem.freelist → smallForked.mem.frame y = small.mem.frame y := by
    intro y hy
    have hne : y ≠ 0x205 ∧ y ≠ 0x206 := by simpa [small] using hy
    exact (Paging.setFrame_ne _ _ hne.1).trans (Paging.setFrame_ne _ _ hne.2)
  rw [Sys.owned, hroot]
  exact congrFun (Paging.region_congr fun p x hp => hframe x (small_kept.divided.not_free (l := (o.1, p)) hp)) o.2

end Xv6.Vm
