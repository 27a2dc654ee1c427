import Xv6.Paging.Sbrk
import Xv6.Umalloc.Threads

/-!
# `malloc` over the kernel's `sbrk`

`growproc` takes a size out of range for a success when it is to shrink the process.
-/

open Function Xv6.Run

namespace Xv6.Umalloc

def pgroundup (a : Nat) : Nat := word (a + 4096 - 1) / 4096 * 4096

/-- The size that `allocuvm` returns. `ok` says whether there are enough pages. -/
def allocuvm (ok : Bool) (oldsz newsz : Nat) : Nat :=
  if newsz ≥ kernbase then 0 else if newsz < oldsz then oldsz else if ok then newsz else 0

def deallocuvm (oldsz newsz : Nat) : Nat := if newsz ≥ oldsz then oldsz else newsz

/-- `growproc` on the word of an `int`: the new size of the process, or nothing for -1. -/
def growproc (ok : Bool) (sz n : Nat) : Option Nat :=
  if n = 0 then some sz
  else
    let sz := if n < 2 ^ 31 then allocuvm ok sz (word (sz + n)) else deallocuvm sz (word (sz + n))
    if sz = 0 then none else some sz

section Paging

open Code

variable {l : Paging.Link} {m : Paging.Mem} {pgdir : Paging.Page} {oldsz newsz n : Nat} {s : Paging.Sys}

theorem allocuvm_size (h : Paging.Space l m pgdir) :
    Ends (fun _ => True) (Paging.allocuvm l pgdir oldsz newsz) (fun r _ => ∃ ok, r = allocuvm ok oldsz newsz) m := by
  refine Paging.allocuvm_cases (fun htop => ⟨false, (if_pos htop).symm⟩) (fun hnew hless => ?_) fun hnew hold => ?_
  · exact ⟨false, ((if_neg (Nat.not_le.mpr hnew)).trans (if_pos hless)).symm⟩
  · have hsize : ∀ ok : Bool, allocuvm ok oldsz newsz = if ok then newsz else 0 :=
      fun _ => (if_neg (Nat.not_le.mpr hnew)).trans (if_neg (Nat.not_lt.mpr hold))
    refine (Paging.allocuvm_ends h hold hnew (.inr trivial)).mono fun r t ht => ?_
    rcases ht.result with ⟨rfl, -⟩ | ⟨rfl, -⟩
    · exact ⟨true, (hsize true).symm⟩
    · exact ⟨false, (hsize false).symm⟩

/-- The kernel's `growproc`, whatever pages there are, gives the process one of these sizes. -/
theorem growproc_size (h : Paging.Space l s.mem s.proc.pgdir) (hsz : s.proc.sz < kernbase) (hn : n < 2 ^ 32) :
    Ends (fun _ => True) (Paging.growproc l (if n < 2 ^ 31 then n else n - 2 ^ 32))
      (fun b t => ∃ ok, growproc ok s.proc.sz n = if b then some t.proc.sz else none) s := by
  have hsum : ∀ k : Int, k = n ∨ k = n - 2 ^ 32 → ((s.proc.sz + k) % 2 ^ 32).toNat = word (s.proc.sz + n) := by
    intro k hk
    unfold word
    omega
  have hcases : ∀ ok, n ≠ 0 → growproc ok s.proc.sz n = (fun r => if r = 0 then none else some r)
      (if n < 2 ^ 31 then allocuvm ok s.proc.sz (word (s.proc.sz + n))
        else deallocuvm s.proc.sz (word (s.proc.sz + n))) :=
    fun _ hne => if_neg hne
  unfold Paging.growproc
  apply ends_get_bind
  dsimp only
  by_cases hlt : n < 2 ^ 31
  · rw [if_pos hlt, hsum n (.inl rfl)]
    refine ends_ite (fun hpos => ?_) fun hzero => ?_
    · refine Ends.bind (Paging.ends_onMem (allocuvm_size h)) fun r t ht => ?_
      obtain ⟨m, rfl, ok, hr⟩ := ht
      have hgrow := hcases ok (by omega)
      rw [if_pos hlt, ← hr] at hgrow
      exact ends_ite (fun hfail => ends_pure ⟨ok, hgrow.trans (if_pos hfail)⟩) fun hgood =>
        ends_modify_bind (ends_pure ⟨ok, hgrow.trans (if_neg hgood)⟩)
    · obtain rfl : n = 0 := by omega
      exact ends_pure ⟨true, rfl⟩
  · rw [if_neg hlt, hsum (n - 2 ^ 32) (.inr rfl), if_neg (by omega), if_pos (by omega)]
    refine Ends.bind ((Paging.ends_onMem (Paging.deallocuvm_ends h (Nat.le_of_lt hsz))).allow nofun) fun r t ht => ?_
    obtain ⟨m, rfl, hm⟩ := ht
    have hr : r = deallocuvm s.proc.sz (word (s.proc.sz + n)) := by
      unfold deallocuvm
      split at hm
      · rename_i hless
        rw [if_neg (Nat.not_le.mpr hless)]
        exact hm.1
      · rename_i hmore
        rw [if_pos (Nat.not_lt.mp hmore)]
        exact hm.1
    have hgrow := hcases true (by omega)
    rw [if_neg hlt, ← hr] at hgrow
    exact ends_ite (fun hfail => ends_pure ⟨true, hgrow.trans (if_pos hfail)⟩) fun hgood =>
      ends_modify_bind (ends_pure ⟨true, hgrow.trans (if_neg hgood)⟩)

end Paging

namespace Kernel

/-- One statement, with `sys_sbrk` for `sbrk`. -/
def exec (base : Nat) (h : Heap) (ok : Bool) : Pc → Option (Heap × Pc)
  | .sbrk n =>
    let nu := max (nunits n) 4096
    match growproc ok h.brk (word (nu * 8)) with
    | none => some (h, .idle)
    | some sz => some ({ h with brk := sz }, .coreSize n h.brk nu)
  | .coreSize n hp nu => if hp + 8 ≤ pgroundup h.brk then Umalloc.exec base h ok (.coreSize n hp nu) else none
  | pc => Umalloc.exec base h ok pc

def step (base : Nat) (s : Sys Unit) : Act Unit → Option (Sys Unit)
  | .malloc t nbytes =>
    if s.pc t = .idle ∧ nbytes < 2 ^ 32 then some { s with pc := update s.pc t (.enter nbytes) } else none
  | .exec t ok => (exec base s.heap ok (s.pc t)).map fun (h, pc) => ⟨h, update s.pc t pc⟩
  | act => Umalloc.step base s act

end Kernel

def Block.bytes (b : Block) : Extent := ⟨b.addr + 8, b.nbytes⟩

def Heap.Fits (h : Heap) : Prop :=
  (∀ b ∈ h.live, b.bytes.stop ≤ h.brk) ∧ h.live.Pairwise fun b c => b.bytes.Apart c.bytes

instance (h : Heap) : Decidable h.Fits := inferInstanceAs (Decidable (_ ∧ _))

def Act.Modest : Act Unit → Prop
  | malloc _ nbytes => nbytes ≤ maxRequest
  | _ => True

instance (act : Act Unit) : Decidable act.Modest := by
  unfold Act.Modest
  split <;> infer_instance

def Caller.request : Caller → Option Nat
  | morecore n => some n
  | user | exit _ => none

def Pc.request : Pc → Option Nat
  | idle | leaving _ => none
  | enter n | initPtr n | initSize n | first n _ | fits n _ _ | exact n _ _ | unlink n _ _ | shrink n _ _ | tail n _ _
  | setSize n _ _ | setFreep n _ _ | ret n _ | around n _ | next n _ | sbrk n | coreSize n _ _ | core n => some n
  | start _ k | between _ _ k | wrap _ _ k | advance _ _ k | upper _ _ k | upperSize _ _ k | upperPtr _ _ k
  | upperLink _ _ k | lower _ _ k | lowerSize _ _ k | lowerPtr _ _ k | lowerLink _ _ k | done _ k => k.request

structure Modest (h : Heap) (pc : Pc) : Prop where
  request : ∀ n, pc.request = some n → n ≤ maxRequest
  live : ∀ b ∈ h.live, b.nbytes ≤ maxRequest
  brk : h.brk < kernbase

theorem request_back (k : Caller) : k.back.request = k.request := by cases k <;> rfl

variable {base lo : Nat} {h h' : Heap} {pc pc' : Pc} {ok : Bool}

theorem exec_modest (hm : Modest h pc) (he : exec base h ok pc = some (h', pc')) : Modest h' pc' := by
  obtain ⟨hreq, hlive, hbrk⟩ := hm
  have hkeep : pc'.request = none ∨ pc'.request = pc.request → ∀ n, pc'.request = some n → n ≤ maxRequest := by
    rintro (hn | hn) n hsome
    · rw [hn] at hsome
      cases hsome
    · exact hreq n (hn ▸ hsome)
  cases pc with
  | idle => cases he
  | leaving _ => cases he
  | ret n p =>
    cases he
    exact ⟨nofun, List.forall_mem_cons.2 ⟨hreq n rfl, hlive⟩, hbrk⟩
  | done p k =>
    cases he
    exact ⟨hkeep (.inr (request_back k)), hlive, hbrk⟩
  | sbrk n =>
    rw [exec, Option.some.injEq] at he
    split at he
    case isTrue hok =>
      cases he
      exact ⟨hreq, hlive, hok.2⟩
    case isFalse =>
      cases he
      exact ⟨nofun, hlive, hbrk⟩
  | _ =>
    rw [exec, Option.some.injEq] at he
    cases he
    refine ⟨hkeep ?_, hlive, hbrk⟩
    first | exact .inr rfl | (split <;> first | exact .inr rfl | exact .inl rfl)

theorem allocuvm_eq (sz n : Nat) : allocuvm ok sz (sz + n) = if ok ∧ sz + n < kernbase then sz + n else 0 := by
  unfold allocuvm
  rw [if_neg (Nat.not_lt.mpr (Nat.le_add_right sz n))]
  by_cases htop : sz + n < kernbase
  · rw [if_neg (Nat.not_le.mpr htop)]
    simp only [htop, and_true]
  · rw [if_pos (Nat.le_of_not_lt htop), if_neg fun hc => htop hc.2]

theorem growproc_eq {sz n : Nat} (hn : 0 < n) (hlt : n < 2 ^ 31) (hsz : sz < kernbase) :
    growproc ok sz n = if ok ∧ sz + n < kernbase then some (sz + n) else none := by
  have hword : word (sz + n) = sz + n := word_of_lt (by rw [kernbase] at hsz; omega)
  unfold growproc
  rw [if_neg (Nat.ne_of_gt hn), if_pos hlt, hword, allocuvm_eq]
  by_cases hok : ok ∧ sz + n < kernbase
  · simp only [if_pos hok]
    rw [if_neg (by omega)]
  · simp only [if_neg hok, ↓reduceIte]

theorem Kernel.exec_eq (hm : Modest h pc) (he : Kernel.exec base h ok pc = some (h', pc')) :
    Umalloc.exec base h ok pc = some (h', pc') := by
  cases pc with
  | sbrk n =>
    have hn := hm.request n rfl
    have hword : word (n + 8 - 1) = n + 8 - 1 := word_of_lt (by rw [maxRequest] at hn; omega)
    have hunits : max (nunits n) 4096 * 8 < 2 ^ 31 := by
      rw [nunits, hword]
      rw [maxRequest] at hn
      omega
    rw [Kernel.exec, word_of_lt (by omega), growproc_eq (by omega) hunits hm.brk] at he
    rw [Umalloc.exec, ← he, Nat.mul_comm 8]
    split <;> rfl
  | coreSize n hp nu =>
    rw [Kernel.exec] at he
    split at he
    · exact he
    · cases he
  | _ => exact he

variable {s t : Sys Unit} {act : Act Unit}

theorem callFree_modest {u : Unit} {b : Block} {k : Caller} (hm : Modest s.heap (s.pc ())) (hk : k.request = none)
    (ht : callFree s u b k = some t) : Modest t.heap (t.pc ()) := by
  rw [callFree] at ht
  split at ht
  case isFalse => cases ht
  case isTrue =>
    cases ht
    refine ⟨fun n hn => ?_, fun c hc => hm.live c (List.mem_of_mem_erase hc), hm.brk⟩
    have hnone : k.request = some n := hn
    rw [hk] at hnone
    cases hnone

theorem runs_step (act : Act Unit) (hr : Runs base (Outside base lo) (s.heap, s.pc ()))
    (ht : Umalloc.step base s act = some t) : Runs base (Outside base lo) (t.heap, t.pc ()) :=
  (step_moves hr ht).2

theorem modest_step (hm : Modest s.heap (s.pc ())) (hr : Runs base (Outside base lo) (s.heap, s.pc ()))
    (hact : act.Modest) (ht : Kernel.step base s act = some t) :
    Modest t.heap (t.pc ()) ∧ Runs base (Outside base lo) (t.heap, t.pc ()) := by
  cases act with
  | malloc u n =>
    rw [Kernel.step] at ht
    split at ht
    case isFalse => cases ht
    case isTrue hcall =>
      cases ht
      rw [hcall.1] at hr
      have hruns := (malloc_runs (n := n) (outside_of_runs hr rfl).sound).mono fun _ hans => hans.outside
      refine ⟨⟨fun m hsome => ?_, hm.live, hm.brk⟩, (moves_update (s := s) (u := u) hruns).2⟩
      have hn : some n = some m := hsome
      cases hn
      exact hact
  | exec u ok =>
    rw [Kernel.step, Option.map_eq_some_iff] at ht
    obtain ⟨⟨h', pc'⟩, hexec, rfl⟩ := ht
    have hplain := Kernel.exec_eq hm hexec
    refine ⟨?_, runs_step (.exec u ok) hr ?_⟩
    · exact (update_self u pc' s.pc).symm ▸ exec_modest hm hplain
    · rw [step, hplain]
      rfl
  | free u b => exact ⟨callFree_modest hm rfl ht, runs_step (.free u b) hr ht⟩
  | exit u b => exact ⟨callFree_modest hm rfl ht, runs_step (.exit u b) hr ht⟩
  | gone u =>
    refine ⟨?_, runs_step (.gone u) hr ht⟩
    replace ht : Umalloc.step base s (.gone u) = some t := ht
    rw [Umalloc.step] at ht
    split at ht
    case h_2 => cases ht
    case h_1 =>
      cases ht
      exact ⟨fun n hn => absurd (show none = some n from hn) (by simp), hm.live, hm.brk⟩
  | write u b a x y =>
    refine ⟨?_, runs_step (.write u b a x y) hr ht⟩
    replace ht : Umalloc.step base s (.write u b a x y) = some t := ht
    rw [Umalloc.step] at ht
    split at ht
    case isFalse => cases ht
    case isTrue =>
      cases ht
      exact ⟨hm.request, hm.live, hm.brk⟩

theorem Sound.fits (hs : Sound base lo h) (hm : Modest h pc) : h.Fits := by
  cases hs with
  | unused _ _ _ _ _ hlive =>
    rw [Heap.Fits, hlive]
    exact ⟨nofun, .nil⟩
  | used fl ha =>
    refine ⟨fun b hb => ?_, ha.safe.apart.imp_of_mem fun {b c} hb hc hpart => ?_⟩
    · have hroom := nunits_room (hm.live b hb)
      have hhigh := ha.tiles.high b.extent (by simpa using .inr ⟨b, hb, rfl⟩)
      simp only [Block.bytes, Block.extent, Extent.stop] at hhigh ⊢
      omega
    · have hb := nunits_room (hm.live b hb)
      have hc := nunits_room (hm.live c hc)
      simp only [Extent.Apart, Block.bytes, Block.extent, Extent.stop] at hpart ⊢
      omega

/-- If each request is modest, all blocks that `malloc` has returned are in memory and apart from each other. -/
theorem malloc_fits {s : Sys Unit} (hf : Fresh base s) (acts : List (Act Unit))
    (hmodest : Along (Kernel.step base) (fun _ act => act.Modest) s acts) :
    Always (Kernel.step base) (fun s => s.pc () = .idle → s.heap.Fits) s acts := by
  have hfresh : Modest s.heap (s.pc ()) := by
    refine ⟨?_, ?_, hf.brk⟩
    · rw [hf.idle]
      nofun
    · rw [hf.live]
      nofun
  have hruns := hf.orderly.runs (u := ()) fun _ hne => (hne (Subsingleton.elim _ _)).elim
  refine always_of_along (I := fun t => Modest t.heap (t.pc ()) ∧ Runs base (Outside base s.heap.brk) (t.heap, t.pc ()))
    (fun t act u ⟨hm, hr⟩ hact hu => modest_step hm hr hact hu) (fun t ⟨hm, hr⟩ hidle => ?_) ⟨hfresh, hruns⟩ hmodest
  rw [hidle] at hr
  exact (outside_of_runs hr rfl).sound.fits hm

def mallocOdd : List (Act Unit) := .malloc () 39992 :: goOn () 23

theorem mallocOdd_fits : Along (Kernel.step 8) (fun _ act => act.Modest) (newProcess Unit) mallocOdd ∧
    Always (Kernel.step 8) (fun s => s.pc () = .idle → s.heap.Fits) (newProcess Unit) mallocOdd := by
  have hmodest : Along (Kernel.step 8) (fun _ act => act.Modest) (newProcess Unit) mallocOdd := by decide
  exact ⟨hmodest, malloc_fits (newProcess_fresh Unit) mallocOdd hmodest⟩

def mallocHuge : List (Act Unit) := mallocOdd ++ .malloc () (maxRequest + 1) :: goOn () 21

theorem mallocHuge_outside : Fresh 8 (newProcess Unit) ∧
    ¬ Always (Kernel.step 8) (fun s => s.pc () = .idle → s.heap.Fits) (newProcess Unit) mallocHuge := by
  refine ⟨newProcess_fresh Unit, fun hfits => ?_⟩
  have hend : (run (Kernel.step 8) (newProcess Unit) mallocHuge).map (fun t => (t.pc (), t.heap.live, t.heap.brk)) =
      some (.idle, [⟨44096, maxRequest + 1⟩, ⟨4096, 39992⟩], 44096) := by decide +kernel
  obtain ⟨t, ht, heq⟩ := Option.map_eq_some_iff.1 hend
  simp only [Prod.mk.injEq] at heq
  obtain ⟨hidle, hlive, hbrk⟩ := heq
  have hin := (hfits.last ht hidle).1
  rw [hlive, hbrk] at hin
  revert hin
  decide

end Xv6.Umalloc
