import Mathlib.Data.Fintype.Basic
import Xv6.Umalloc.Malloc

/-!
# Whole runs of the heap

One thread at a time in `malloc` and `free` keeps the heap sound. One that leaves through `uthread_exit` is inside
until it is gone.
-/

open Function Xv6.Run

namespace Xv6.Umalloc

variable {base lo : Nat} {h : Heap} {fl : List Extent} {b c : Block} {a : Nat}

/-! ## Writes behind a header -/

def Away (base : Nat) (h : Heap) (fl : List Extent) (a : Nat) : Prop :=
  a ∉ base :: fl.map Extent.addr ∧ ∀ c ∈ h.live, c.addr ≠ a

theorem Arena.write (ha : Arena base lo h fl []) (haway : Away base h fl a) (x y : Nat) :
    Arena base lo ((h.setPtr a x).setSize a y) fl [] :=
  (ha.setPtr haway.1).setSize haway.1 haway.2

theorem addr_ne_of_inside {x : Extent} (hx : 0 < x.len) (hpart : x.Apart b.extent) (hin : b.Inside a) : x.addr ≠ a := by
  rw [Block.Inside] at hin
  simp only [Extent.Apart, Extent.stop, Block.extent] at hpart
  omega

theorem Linked.tiles_live {held : List Extent} (hl : Linked base lo h fl held) (hb : b ∈ h.live) :
    Tiles lo h.brk (b.extent :: (fl ++ (held ++ (h.live.erase b).map Block.extent))) := by
  have hperm := (List.perm_cons_erase hb).map Block.extent
  have hall := (hperm.append_left held).append_left fl
  refine (hl.tiles.perm hall).perm ?_
  rw [List.map_cons, ← List.append_assoc]
  refine List.perm_middle.trans ?_
  rw [List.append_assoc]

theorem Arena.away_live (ha : Arena base lo h fl []) (hb : b ∈ h.live) (hin : b.Inside a) : Away base h fl a := by
  have htiles := ha.tiles_live hb
  have hlow := htiles.low b.extent List.mem_cons_self
  have hbelow := ha.below
  have hne : ∀ x ∈ fl ++ ([] ++ (h.live.erase b).map Block.extent), x.addr ≠ a := fun x hx =>
    addr_ne_of_inside (htiles.pos x (List.mem_cons_of_mem _ hx)) (htiles.head_apart hx).symm hin
  have hab : b.addr + 8 ≤ a := hin.1
  refine ⟨fun hmem => ?_, fun c hc heq => ?_⟩
  · obtain heq | hmem := List.mem_cons.1 hmem
    · simp only [Block.extent] at hlow
      omega
    · obtain ⟨x, hx, heq⟩ := List.mem_map.1 hmem
      exact hne x (List.mem_append_left _ hx) heq
  · by_cases hcb : c = b
    · subst hcb
      omega
    · refine hne c.extent (List.mem_append_right _ (List.mem_map_of_mem ?_)) heq
      exact (List.mem_erase_of_ne hcb).2 hc

/-! ## Between and inside calls -/

inductive Outside (base lo : Nat) : Heap × Pc → Prop
  | idle {h : Heap} (sound : Sound base lo h) : Outside base lo (h, .idle)
  | leaving {h : Heap} {stack : Block} (fl : List Extent) (arena : Arena base lo h fl [])
      (away : ∀ a, stack.Inside a → Away base h fl a) : Outside base lo (h, .leaving stack)

theorem Outside.sound {s : Heap × Pc} (ho : Outside base lo s) : Sound base lo s.1 := by
  cases ho with
  | idle hs => exact hs
  | leaving fl ha _ => exact .used fl ha

theorem Outside.exec_eq_none {s : Heap × Pc} (ho : Outside base lo s) (ok : Bool) : exec base s.1 ok s.2 = none := by
  cases ho <;> rfl

theorem outside_of_runs {s : Heap × Pc} (hr : Runs base (Outside base lo) s) (hnone : exec base s.1 true s.2 = none) :
    Outside base lo s := by
  cases hr with
  | here ho => exact ho
  | next _ f hstep _ => exact absurd ((hstep true).symm.trans hnone) (by simp)

theorem Runs.safe {s : Heap × Pc} (hr : Runs base (Outside base lo) s) : s.1.Safe := by
  obtain ho | ⟨hsafe, -⟩ := hr.inv
  · exact ho.sound.safe
  · exact hsafe

def Returned (base lo : Nat) (b : Block) (live : List Block) (k : Caller) (s : Heap × Pc) : Prop :=
  s.2 = k.back ∧ s.1.live = live ∧ ∃ fl, Arena base lo s.1 fl [] ∧ ∀ a, b.Inside a → Away base s.1 fl a

theorem free_live_runs (hs : Sound base lo h) (hb : b ∈ h.live) (k : Caller) :
    Runs base (Returned base lo b (h.live.erase b) k) ({ h with live := h.live.erase b }, .start b.addr k) := by
  cases hs with
  | unused _ _ _ _ _ hlive =>
    rw [hlive] at hb
    cases hb
  | used fl ha =>
    have htiles := ha.tiles_live hb
    have harena : Arena base lo { h with live := h.live.erase b } fl [b.extent] :=
      { ha with
        freep := .inl ha.home
        header := fun c hc => ha.header c (List.mem_of_mem_erase hc)
        tiles := htiles.perm List.perm_middle.symm }
    refine (free_runs harena ?_ k).mono ?_
    · show 8 * nunits b.nbytes = 8 * h.size b.addr
      rw [ha.header b hb]
    · rintro ⟨h', pc⟩ ⟨hback, y, hy, -, hlive, fl', ha', -, hmem⟩
      refine ⟨hback, hlive, fl', ha', fun a hin => ?_⟩
      obtain ⟨hring, hlives⟩ := ha.away_live hb hin
      refine ⟨fun hal => ?_, fun c hc => ?_⟩
      · obtain rfl | hal := List.mem_cons.1 hal
        · exact hring List.mem_cons_self
        · -- no header is new but that of the block itself
          obtain ⟨z, hz, rfl⟩ := List.mem_map.1 hal
          obtain heq | hold := hmem z hz
          · have hab : b.addr + 8 ≤ z.addr := hin.1
            have hyb : y.addr = b.addr := hy
            omega
          · exact hring (List.mem_cons_of_mem _ hold)
      · rw [show h'.live = h.live.erase b from hlive] at hc
        exact hlives c (List.mem_of_mem_erase hc)

theorem Returned.outside {s : Heap × Pc} {live : List Block} {k : Caller} (hr : Returned base lo b live k s)
    (hk : k = .user ∨ k = .exit b) : Outside base lo s := by
  obtain ⟨h, pc⟩ := s
  obtain ⟨rfl, -, fl, ha, haway⟩ := hr
  obtain rfl | rfl := hk
  · exact .idle (.used fl ha)
  · exact .leaving fl ha haway

theorem Answered.outside {s : Heap × Pc} {n : Nat} {live : List Block} (hans : Answered base lo n live s) :
    Outside base lo s := by
  obtain ⟨h, pc⟩ := s
  obtain ⟨rfl, -, fl, ha⟩ := hans
  exact .idle (.used fl ha)

theorem Outside.write {pc : Pc} (ho : Outside base lo (h, pc)) (hmay : pc.MayWrite h.live b) (hin : b.Inside a)
    (x y : Nat) : Outside base lo ((h.setPtr a x).setSize a y, pc) := by
  cases ho with
  | idle hs =>
    cases hs with
    | unused _ _ _ _ _ hlive =>
      rw [hlive] at hmay
      cases hmay
    | used fl ha => exact .idle (.used fl (ha.write (ha.away_live hmay hin) x y))
  | leaving fl ha haway =>
    obtain rfl : b = _ := hmay
    exact .leaving fl (ha.write (haway a hin) x y) haway

theorem exec_eq_none_of_mayWrite {pc : Pc} {live : List Block} (hmay : pc.MayWrite live b) (ok : Bool) :
    exec base h ok pc = none := by
  cases pc with
  | idle => rfl
  | leaving stack => rfl
  | _ => exact hmay.elim

/-! ## Runs -/

section

variable {T : Type} {s : Sys T}

/-- While a thread acts, all others are outside of `malloc` and `free` and none is on a stack that it has freed. -/
def Alone (s : Sys T) (act : Act T) : Prop := ∀ u, u ≠ act.thread → s.pc u = .idle

instance [Fintype T] [DecidableEq T] (s : Sys T) (act : Act T) : Decidable (Alone s act) :=
  inferInstanceAs (Decidable (∀ u, u ≠ act.thread → s.pc u = .idle))

inductive Orderly (base lo : Nat) (s : Sys T) : Prop
  | outside (idle : ∀ u, s.pc u = .idle) (sound : Sound base lo s.heap)
  | inside (u : T) (idle : ∀ v, v ≠ u → s.pc v = .idle) (runs : Runs base (Outside base lo) (s.heap, s.pc u))

theorem Orderly.runs (ho : Orderly base lo s) {u : T} (halone : ∀ v, v ≠ u → s.pc v = .idle) :
    Runs base (Outside base lo) (s.heap, s.pc u) := by
  cases ho with
  | outside hidle hs => exact .here (hidle u ▸ .idle hs)
  | inside v hidle hr =>
    by_cases hvu : v = u
    · exact hvu ▸ hr
    · -- the thread that was inside has come out
      have hv := halone v hvu
      rw [hv] at hr
      exact .here (hidle u (Ne.symm hvu) ▸ outside_of_runs hr rfl)

theorem Orderly.safe (ho : Orderly base lo s) : s.heap.Safe := by
  cases ho with
  | outside _ hs => exact hs.safe
  | inside u _ hr => exact hr.safe

theorem Fresh.orderly (hf : Fresh base s) : Orderly base s.heap.brk s :=
  .outside hf.idle (.unused hf.pos hf.below hf.brk hf.freep rfl hf.live)

end

variable {T : Type} [DecidableEq T] {s t : Sys T} {u : T} {act : Act T}

def Moves (base lo : Nat) (s : Sys T) (u : T) (t : Sys T) : Prop :=
  (∀ v, v ≠ u → t.pc v = s.pc v) ∧ Runs base (Outside base lo) (t.heap, t.pc u)

theorem moves_update {h' : Heap} {pc : Pc} (hr : Runs base (Outside base lo) (h', pc)) :
    Moves base lo s u ⟨h', update s.pc u pc⟩ := by
  refine ⟨fun _ hv => update_of_ne hv _ _, ?_⟩
  show Runs base (Outside base lo) (h', update s.pc u pc u)
  rwa [update_self]

theorem callFree_moves {k : Caller} (hk : k = .user ∨ k = .exit b)
    (hr : Runs base (Outside base lo) (s.heap, s.pc u)) (ht : callFree s u b k = some t) : Moves base lo s u t := by
  rw [callFree] at ht
  split at ht
  case isFalse => cases ht
  case isTrue hcall =>
    rw [Option.some.injEq] at ht
    subst ht
    rw [hcall.1] at hr
    have hruns := free_live_runs (outside_of_runs hr rfl).sound hcall.2 k
    exact moves_update (hruns.mono fun _ hret => hret.outside hk)

theorem step_moves (hr : Runs base (Outside base lo) (s.heap, s.pc act.thread)) (ht : step base s act = some t) :
    Moves base lo s act.thread t := by
  cases act with
  | malloc u n =>
    rw [step] at ht
    split at ht
    case isFalse => cases ht
    case isTrue hcall =>
      rw [Option.some.injEq] at ht
      subst ht
      rw [Act.thread, hcall.1] at hr
      exact moves_update ((malloc_runs (outside_of_runs hr rfl).sound).mono fun _ hans => hans.outside)
  | free u b => exact callFree_moves (.inl rfl) hr ht
  | exit u stack => exact callFree_moves (.inr rfl) hr ht
  | gone u =>
    rw [step] at ht
    split at ht
    case h_2 => cases ht
    case h_1 stack hpc =>
      rw [Option.some.injEq] at ht
      subst ht
      rw [Act.thread, hpc] at hr
      exact moves_update (.here (.idle (outside_of_runs hr rfl).sound))
  | write u b a x y =>
    rw [step] at ht
    split at ht
    case isFalse => cases ht
    case isTrue hwrite =>
      rw [Option.some.injEq] at ht
      subst ht
      have ho := outside_of_runs hr (exec_eq_none_of_mayWrite hwrite.1 true)
      exact ⟨fun _ _ => rfl, .here (ho.write hwrite.1 hwrite.2 _ _)⟩
  | exec u ok =>
    rw [step, Option.map_eq_some_iff] at ht
    obtain ⟨⟨h', pc⟩, hexec, rfl⟩ := ht
    obtain ho | ⟨-, hnext⟩ := hr.inv
    · exact absurd (hexec.symm.trans (ho.exec_eq_none ok)) (by simp)
    · exact moves_update (hnext ok _ hexec)

theorem step_orderly (ho : Orderly base lo s) (halone : Alone s act) (ht : step base s act = some t) :
    Orderly base lo t := by
  obtain ⟨hothers, hr⟩ := step_moves (ho.runs halone) ht
  exact .inside act.thread (fun v hv => (hothers v hv).trans (halone v hv)) hr

def newProcess (T : Type) : Sys T := ⟨⟨fun _ => 0, fun _ => 0, 0, 4096, []⟩, fun _ => .idle⟩

theorem newProcess_fresh (T : Type) : Fresh 8 (newProcess T) where
  pos := by decide
  below := show 8 + 8 ≤ 4096 by decide
  brk := show 4096 < kernbase by decide
  freep := rfl
  live := rfl
  idle _ := rfl

def goOn (t : T) (k : Nat) : List (Act T) := List.replicate k (.exec t true)

def inTurn : List (Act Bool) := .malloc false 16 :: goOn false 25 ++ .malloc true 16 :: goOn true 9

def mallocTwice : List (Act Bool) :=
  .malloc false 16 :: goOn false 25 ++
    (.malloc false 16 :: goOn false 5 ++ (.malloc true 16 :: goOn true 9 ++ goOn false 4))

theorem run_exec {oks : List Bool} {x y : Heap × Pc} (hrun : run (fun x ok => exec base x.1 ok x.2) x oks = some y)
    (hs : (s.heap, s.pc u) = x) :
    ∃ t, run (step base) s (oks.map (Act.exec u)) = some t ∧ (t.heap, t.pc u) = y := by
  induction oks generalizing s x with
  | nil =>
    simp only [run, Option.some.injEq] at hrun
    exact ⟨s, rfl, hs.trans hrun⟩
  | cons ok oks ih =>
    obtain ⟨⟨h', pc⟩, hexec, hrest⟩ := run_cons hrun
    subst hs
    have hstep : step base s (.exec u ok) = some ⟨h', update s.pc u pc⟩ := by
      rw [step]
      exact congrArg (Option.map _) hexec
    obtain ⟨t, ht, hy⟩ := ih (s := ⟨h', update s.pc u pc⟩) hrest
      (congrArg (Prod.mk h') (update_self u pc s.pc))
    refine ⟨t, ?_, hy⟩
    rw [List.map_cons, run, hstep]
    exact ht

theorem call_runs {Q : Heap × Pc → Prop} {h' : Heap} {pc : Pc}
    (hstep : step base s act = some ⟨h', update s.pc u pc⟩) (hr : Runs base Q (h', pc)) (ok : Nat → Bool) :
    ∃ k v, run (step base) s (act :: (List.range k).map fun i => .exec u (ok i)) = some v ∧ Q (v.heap, v.pc u) := by
  obtain ⟨k, y, hrun, hy⟩ := hr.reaches ok
  obtain ⟨v, hv, rfl⟩ := run_exec (s := ⟨h', update s.pc u pc⟩) hrun
    (congrArg (Prod.mk h') (update_self u pc s.pc))
  refine ⟨k, v, ?_, hy⟩
  rw [run, hstep]
  rw [List.map_map] at hv
  exact hv

structure NewBlock (h : Heap) (live : List Block) (b : Block) : Prop where
  pos : 0 < b.addr
  room : b.nbytes + 8 ≤ 8 * h.size b.addr
  apart : ∀ c ∈ live, b.extent.Apart c.extent

theorem Arena.newBlock {live : List Block} (ha : Arena base lo h fl []) (hlive : h.live = b :: live)
    (hb : b.nbytes < maxRequest) : NewBlock h live b where
  pos := by
    have hmem : b.extent ∈ fl ++ ([] ++ h.live.map Block.extent) := by simp [hlive]
    have hlow := ha.tiles.low _ hmem
    have hbelow := ha.below
    simp only [Block.extent] at hlow
    omega
  room := by
    rw [ha.header b (by simp [hlive])]
    exact nunits_room (Nat.le_of_lt hb)
  apart c hc := by
    have hpart := ha.safe.apart
    rw [hlive] at hpart
    exact (List.pairwise_cons.1 hpart).1 c hc

/-- After any calls, the heap is sound, and the next call comes to an end and does what it is for. -/
theorem heap_sound {s t : Sys Unit} {acts : List (Act Unit)} (hf : Fresh base s)
    (hrun : run (step base) s acts = some t) (hidle : t.pc () = .idle) :
    Sound base s.heap.brk t.heap ∧
    (∀ n < maxRequest, ∀ ok : Nat → Bool, ∃ k u,
      run (step base) t (.malloc () n :: (List.range k).map fun i => .exec () (ok i)) = some u ∧ u.pc () = .idle ∧
      Sound base s.heap.brk u.heap ∧
      (u.heap.live = t.heap.live ∨ ∃ p, u.heap.live = ⟨p, n⟩ :: t.heap.live ∧ NewBlock u.heap t.heap.live ⟨p, n⟩)) ∧
    (∀ b ∈ t.heap.live, ∀ ok : Nat → Bool, ∃ k u,
      run (step base) t (.free () b :: (List.range k).map fun i => .exec () (ok i)) = some u ∧ u.pc () = .idle ∧
      Sound base s.heap.brk u.heap ∧ u.heap.live = t.heap.live.erase b) := by
  have horderly : Orderly base s.heap.brk t :=
    run_invariant (fun _ _ _ ho ht => step_orderly ho (fun _ hne => (hne (Subsingleton.elim _ _)).elim) ht)
      hf.orderly hrun
  have hr := horderly.runs (u := ()) fun _ hne => (hne (Subsingleton.elim _ _)).elim
  have hs : Sound base s.heap.brk t.heap := (outside_of_runs (hidle ▸ hr) rfl).sound
  refine ⟨hs, fun n hn ok => ?_, fun b hb ok => ?_⟩
  · have hstep : step base t (.malloc () n) = some { t with pc := update t.pc () (.enter n) } := by
      rw [step, if_pos ⟨hidle, hn⟩]
    obtain ⟨k, u, hu, hpc, hlive, fl, ha⟩ := call_runs hstep (malloc_runs hs) ok
    refine ⟨k, u, hu, hpc, .used fl ha, hlive.imp_right ?_⟩
    rintro ⟨p, hlive⟩
    exact ⟨p, hlive, ha.newBlock hlive hn⟩
  · have hstep : step base t (.free () b) =
        some ⟨{ t.heap with live := t.heap.live.erase b }, update t.pc () (.start b.addr .user)⟩ := by
      rw [step, callFree, if_pos ⟨hidle, hb⟩]
    obtain ⟨k, u, hu, hpc, hlive, fl, ha, -⟩ := call_runs hstep (free_live_runs hs hb .user) ok
    exact ⟨k, u, hu, hpc, .used fl ha, hlive⟩

def mallocAndFree : List (Act Unit) :=
  .malloc () 16 :: goOn () 25 ++ (.malloc () 100 :: goOn () 9 ++ .free () ⟨36840, 16⟩ :: goOn () 11)

theorem mallocAndFree_sound : ∃ t, run (step 8) (newProcess Unit) mallocAndFree = some t ∧ t.pc () = .idle ∧
    t.heap.live = [⟨36728, 100⟩] ∧ Sound 8 4096 t.heap := by
  have hlive : (run (step 8) (newProcess Unit) mallocAndFree).map (fun t => (t.pc (), t.heap.live)) =
      some (.idle, [⟨36728, 100⟩]) := by decide
  obtain ⟨t, ht, heq⟩ := Option.map_eq_some_iff.1 hlive
  rw [Prod.mk.injEq] at heq
  exact ⟨t, ht, heq.1, heq.2, (heap_sound (newProcess_fresh Unit) ht heq.1).1⟩

end Xv6.Umalloc
