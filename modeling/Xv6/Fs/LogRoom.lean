import Mathlib.Order.Interval.Finset.Nat
import Xv6.Fs.Inodes
import Xv6.Fs.ReadWrite
import Xv6.Log.Group

/-!
# Room in the log

`writei` logs the blocks that it writes to, the free map, the inode and its indirect block.
-/

open Function Xv6.Bytes Xv6.Log Xv6.Code

namespace Xv6.Fs

/-- The code panics in the log, or waits. -/
def OfLog (e : Fail) : Prop := e = .stuck ∨ ∃ l, e = .panic (.log l)

def NotLog (e : Fail) : Prop := ¬OfLog e

theorem notLog_panic {e : Panic} (h : ∀ l, e ≠ .log l) : NotLog (.panic e) := by
  rintro (he | ⟨l, he⟩)
  · cases he
  · exact h l (Fail.panic.inj he)

def metaBlocks (sb : Superblock) (i : Inode) : List Nat :=
  [0, sb.bmapstart, iblock sb i.inum, (i.copy.addrs indirect).toNat]

/-- What has been logged since `start` is `data` and what else `writei` may log. -/
structure Room (sb : Superblock) (start log : LogState) (i : Inode) (data : List Nat) : Prop where
  one : sb.size ≤ bpb
  nlog : logsize ≤ sb.nlog
  inside : 1 ≤ start.outstanding
  same : log = { start with lh := log.lh }
  nodup : log.lh.Nodup
  logged : log.lh ⊆ data ++ metaBlocks sb i

variable {P : Type} {s : State P} {ip : Iptr} {start : LogState} {data : List Nat} {b : Nat}

abbrev Roomy (start : LogState) (ip : Iptr) (data : List Nat) (s : State P) : Prop :=
  Room s.sb start s.log (s.icache ip) data

namespace Room

variable {sb : Superblock} {log : LogState} {i j : Inode}

theorem cons (h : Room sb start log i data) (b : Nat) : Room sb start log i (b :: data) :=
  { h with logged := fun _ hc => List.mem_cons_of_mem _ (h.logged hc) }

theorem drop_indirect (h : Room sb start log i (b :: data)) (hb : (i.copy.addrs indirect).toNat = b) :
    Room sb start log i data :=
  { h with
    logged := fun c hc => by
      obtain rfl | hc := List.mem_cons.mp (h.logged hc)
      · simp [metaBlocks, hb]
      · exact hc }

variable (h : Room sb start log i data)
include h

theorem setAddr {k : Fin (ndirect + 1)} (hk : i.copy.addrs k = 0) (a : Word) :
    Room sb start log { i with copy := { i.copy with addrs := update i.copy.addrs k a } } data :=
  { h with
    logged := fun c hc => by
      have hold := h.logged hc
      simp only [metaBlocks, List.mem_append, List.mem_cons, List.not_mem_nil, or_false] at hold ⊢
      by_cases hind : k = indirect
      · subst hind
        rw [hk] at hold
        change c ∈ data ∨ c = 0 ∨ c = sb.bmapstart ∨ c = iblock sb i.inum ∨ c = 0 at hold
        tauto
      · rwa [update_of_ne (Ne.symm hind)] }

theorem length_le : log.lh.length ≤ data.length + 4 := by
  have hle := (List.subperm_of_subset h.nodup h.logged).length_le
  rwa [List.length_append] at hle

theorem logCheck_eq (hfew : data.length ≤ 24) : logCheck sb.nlog log = none := by
  have hlen := h.length_le
  have hnlog := h.nlog
  have hsize : logsize = 30 := rfl
  have hinside := h.inside
  rw [logCheck, if_neg (by omega), if_neg (by rw [h.same]; dsimp only; omega)]

theorem logWrite (hb : b ∈ data ++ metaBlocks sb i) : Room sb start (Log.logWrite b log) i data :=
  { h with
    same := by
      rw [Log.logWrite, h.same]
    nodup := nodup_absorb h.nodup
    logged := fun c hc => by
      obtain rfl | hc := mem_absorb.mp hc
      · exact hb
      · exact h.logged hc }

end Room

theorem logWrite_room (start : LogState) (ip : Iptr) (data : List Nat) (h : Roomy start ip data s)
    (hfew : data.length ≤ 24) (hb : b ∈ data ++ metaBlocks s.sb (s.icache ip)) {Q : Unit → State P → Prop}
    (hQ : ∀ t, t.icache = s.icache → Roomy start ip data t → Q () t) : Ends NotLog (logWrite b) Q s := by
  refine ends_get_bind ?_
  rw [h.logCheck_eq hfew]
  exact ends_modify (hQ _ rfl (h.logWrite hb))

theorem balloc_room (h : Roomy start ip data s) (hfew : data.length < 24) {Q : Nat → State P → Prop}
    (hQ : ∀ b t, b < bpb → t.icache = s.icache → Roomy start ip (b :: data) t → Q b t) : Ends NotLog balloc Q s := by
  refine ends_get_bind ?_
  split
  · exact ends_stop (notLog_panic nofun)
  · rename_i b hfind
    have hlt : b < s.sb.size := List.mem_range.mp (List.mem_of_find?_eq_some hfind)
    have hmap : bblock s.sb b = s.sb.bmapstart := by
      rw [bblock, Nat.div_eq_of_lt (lt_of_lt_of_le hlt h.one), Nat.zero_add]
    refine ends_modify_bind (ends_bind.mpr (logWrite_room start ip (b :: data) ?_ hfew ?_ fun t ht h₁ => ?_))
    · exact h.cons b
    · simp [metaBlocks, hmap]
    refine ends_bind.mpr (ends_modify_bind (logWrite_room start ip (b :: data) ?_ hfew ?_ fun u hu h₂ => ends_pure ?_))
    · exact h₁
    · simp
    · exact hQ b u (lt_of_lt_of_le hlt h.one) (hu.trans ht) h₂

theorem addrOrAlloc_room (h : Roomy start ip data s) (hfew : data.length < 24) (k : Fin (ndirect + 1))
    {Q : Nat → State P → Prop}
    (hQ : ∀ a t, ((t.icache ip).copy.addrs k).toNat = a → Roomy start ip (a :: data) t → Q a t) :
    Ends NotLog (addrOrAlloc ip k) Q s := by
  refine inodeAt_ends (ends_ite (fun hzero => ?_) fun _ => ends_pure (hQ _ s rfl (h.cons _)))
  refine ends_bind.mpr (balloc_room h hfew fun b t hb hcache ht => ends_modify_bind (ends_pure ?_))
  rw [← hcache] at hzero
  have hset := ht.setAddr hzero (.ofNat 32 b)
  refine hQ b _ ?_ ?_
  · simp only [update_self]
    exact Nat.mod_eq_of_lt (hb.trans (by decide))
  · simp only [Roomy, update_self]
    exact hset

theorem bmap_room (h : Roomy start ip data s) (hfew : data.length < 24) (bn : Nat) {Q : Nat → State P → Prop}
    (hQ : ∀ a t, Roomy start ip (a :: data) t → Q a t) : Ends NotLog (bmap ip bn) Q s := by
  unfold bmap
  split
  · exact addrOrAlloc_room h hfew _ fun a t _ ht => hQ a t ht
  · refine ends_ite (fun _ => ?_) fun _ => ends_stop (notLog_panic nofun)
    refine ends_bind.mpr (addrOrAlloc_room h hfew indirect fun x t hx ht => ends_get_bind ?_)
    have ht := ht.drop_indirect hx
    refine ends_ite (fun _ => ?_) fun _ => ends_pure (hQ _ t (ht.cons _))
    refine ends_bind.mpr (balloc_room ht hfew fun b u _ hcache hu => ends_get_bind (ends_modify_bind ?_))
    refine ends_bind.mpr (logWrite_room start ip (b :: data) ?_ hfew ?_ fun w _ hw => ends_pure (hQ b w hw))
    · exact hu
    · simp [metaBlocks, hcache, hx]

def blocksOf (off n : Nat) : Nat := if n = 0 then 0 else (off % bsize + n + (bsize - 1)) / bsize

theorem blocksOf_turn (off : Nat) {n : Nat} (hn : n ≠ 0) :
    blocksOf (off + min n (bsize - off % bsize)) (n - min n (bsize - off % bsize)) + 1 ≤ blocksOf off n := by
  rcases Nat.lt_or_ge (bsize - off % bsize) n with hlt | hge
  · rw [Nat.min_eq_right (Nat.le_of_lt hlt), blocksOf, blocksOf, if_neg hn, if_neg (by omega)]
    simp only [bsize] at hlt ⊢
    omega
  · rw [Nat.min_eq_left hge, blocksOf, blocksOf, if_neg hn, if_pos (Nat.sub_self n)]
    simp only [bsize]
    omega

theorem Volume.missing_le (v : Volume) (i off n : Nat) : v.missing i off n ≤ blocksOf off n + 1 := by
  refine Nat.add_le_add ?_ (by split <;> decide)
  have hsub : touched off n ⊆ Finset.Ico (off / bsize) (off / bsize + blocksOf off n) := by
    intro m hm
    have hcover := (mem_touched.mp hm).2
    rw [Finset.mem_Ico, blocksOf, if_neg (Nat.pos_iff_ne_zero.mp hcover.1)]
    simp only [Covers, bsize] at hcover ⊢
    omega
  calc _ ≤ (touched off n).card := Finset.card_filter_le ..
    _ ≤ _ := Finset.card_le_card hsub
    _ = blocksOf off n := by rw [Nat.card_Ico, Nat.add_sub_cancel_left]

theorem writeBlocks_room (fuel : Nat) (src : List Byte) (off n : Nat) (h : Roomy start ip data s)
    (hfew : data.length + blocksOf off n ≤ 24) {Q : Unit → State P → Prop}
    (hQ : ∀ data' t, data'.length ≤ data.length + blocksOf off n → Roomy start ip data' t → Q () t) :
    Ends NotLog (writeBlocks ip fuel src off n) Q s := by
  induction fuel generalizing src off n data s with
  | zero => exact ends_pure (hQ data s (Nat.le_add_right ..) h)
  | succ fuel ih =>
    refine ends_ite (fun _ => ends_pure (hQ data s (Nat.le_add_right ..) h)) fun hn => ?_
    have hturn := blocksOf_turn off hn
    refine ends_bind.mpr (bmap_room h (by omega) _ fun a t ht => ends_get_bind (ends_modify_bind ?_))
    have hlen : (a :: data).length ≤ 24 := by
      rw [List.length_cons]
      omega
    refine ends_bind.mpr (logWrite_room start ip (a :: data) ?_ hlen ?_ fun u _ hu => ?_)
    · exact ht
    · simp
    · refine ih _ _ _ hu (by rw [List.length_cons]; omega) fun data' w hle => hQ data' w ?_
      rw [List.length_cons] at hle
      omega

/-! ## Logs that take what is written -/

/-- `log_write` takes `n` more blocks. -/
structure Takes (sb : Superblock) (log : LogState) (n : Nat) : Prop where
  one : sb.size ≤ bpb
  nlog : logsize ≤ sb.nlog
  inside : 1 ≤ log.outstanding
  nodup : log.lh.Nodup
  few : log.lh.length + n ≤ 28

structure Took (log log' : LogState) (n : Nat) : Prop where
  outstanding : log'.outstanding = log.outstanding
  committing : log'.committing = log.committing
  nodup : log'.lh.Nodup
  few : log'.lh.length ≤ log.lh.length + n

section

variable {sb : Superblock} {log log' : LogState} {m n : Nat}

theorem Took.same (h : log.lh.Nodup) : Took log log n := ⟨rfl, rfl, h, Nat.le_add_right ..⟩

theorem Takes.less (h : Takes sb log n) (hle : m ≤ n) : Takes sb log m :=
  { h with few := (Nat.add_le_add_left hle _).trans h.few }

theorem Takes.later (h : Takes sb log (m + n)) (ht : Took log log' m) : Takes sb log' n :=
  ⟨h.one, h.nlog, ht.outstanding ▸ h.inside, ht.nodup, by have := h.few; have := ht.few; omega⟩

/-- No transaction is open, and the log and the free map are of the sizes that `mkfs` makes. -/
structure Resting (s : State P) : Prop where
  log : s.log = ⟨0, false, []⟩
  one : s.sb.size ≤ bpb
  nlog : logsize ≤ s.sb.nlog

theorem Resting.begun (h : Resting s) (hlog : Log.beginOp s.log = some log) : log = ⟨1, false, []⟩ := by
  rw [h.log] at hlog
  exact (Option.some.inj hlog).symm

theorem Resting.takes (h : Resting s) (hlog : log = ⟨1, false, []⟩) (hn : n ≤ 28) : Takes s.sb log n := by
  subst hlog
  exact ⟨h.one, h.nlog, Nat.le_refl 1, List.nodup_nil, by simpa using hn⟩

theorem Took.ended (h : Took log log' n) (hlog : log = ⟨1, false, []⟩) :
    log'.committing = false ∧ afterEnd log' = ⟨0, false, []⟩ := by
  subst hlog
  exact ⟨h.committing, by rw [afterEnd, h.outstanding, if_pos (Nat.le_refl 1)]⟩

theorem Room.took {i : Inode} (h : Room sb start log i data) (hle : data.length ≤ start.lh.length + n) :
    Took start log (n + 4) where
  outstanding := by rw [h.same]
  committing := by rw [h.same]
  nodup := h.nodup
  few := by have := h.length_le; omega

end

theorem writei_room (src : List Byte) {off n : Word} (h : Takes s.sb s.log (blocksOf off.toNat n.toNat + 4)) :
    Ends NotLog (writei ip src off n) (fun _ t => Took s.log t.log (blocksOf off.toNat n.toNat + 4)) s := by
  have hfew := h.few
  have hstart : Roomy s.log ip s.log.lh s := ⟨h.one, h.nlog, h.inside, rfl, h.nodup, List.subset_append_left ..⟩
  refine inodeAt_ends (ends_ite (fun _ => ends_pure (.same h.nodup)) fun _ => ?_)
  refine ends_ite (fun _ => ends_pure (.same h.nodup)) fun _ => ends_ite (fun _ => ends_pure (.same h.nodup))
    fun _ => ?_
  refine ends_bind.mpr (writeBlocks_room _ _ _ _ hstart (by omega) fun data t hlen ht => inodeAt_ends ?_)
  refine ends_ite (fun _ => ?_) fun _ => ends_pure (ht.took hlen)
  refine ends_bind.mpr (onCopy_ends (ends_bind.mpr (ends_get_bind (ends_modify_bind ?_))))
  refine logWrite_room s.log ip data ?_ (by omega) ?_ fun u _ hu => ends_pure (hu.took hlen)
  · rw [Roomy, setCopy_eq, setSlot_self]
    exact ⟨ht.one, ht.nlog, ht.inside, ht.same, ht.nodup, ht.logged⟩
  · simp [metaBlocks]

/-- `E` has the panics of `balloc` and `log_write` if there is no room for a write. -/
structure Lacks (E : Fail → Prop) (sb : Superblock) (v : Volume) (log : LogState) (i off n : Nat) : Prop where
  blocks : v.free sb < v.missing i off n → E (.panic .outOfBlocks)
  log : ¬Takes sb log (blocksOf off n + 4) → ∀ l, E (.panic (.log l))

/-- `writei` on a solid volume. -/
theorem writei_settles {E : Fail → Prop} {sb : Superblock} {v : Volume} {i : Nat} (hsb : s.sb = sb) (hv : sb.Valid)
    (hs : v.Solid sb) (hi : v.Live sb i) (hcopy : (s.icache ip).copy = v.inode i) (hinum : (s.icache ip).inum = i)
    (ht : Tracks sb v v.inode s.disk) (hdev : (v.inode i).type ≠ tDev) {src : List Byte} {off n : Word}
    (hsrc : n.toNat ≤ src.length) (hE : Lacks E sb v s.log i off.toNat n.toNat) {Q : Int → State P → Prop}
    (hbad : v.Refused i off n → Q (-1) s)
    (hgood : ¬v.Refused i off n → ∀ v' disk log lg, v.Updated sb v' i off.toNat (src.take n.toNat) →
      Tracks sb v' v'.inode disk → GrowLog sb v v' i off.toNat n.toNat lg →
      (Takes sb s.log (blocksOf off.toNat n.toNat + 4) → Took s.log log (blocksOf off.toNat n.toNat + 4)) →
      Q n.toNat ((s.wrote disk log lg).setCopy ip (v'.inode i))) : Ends E (writei ip src off n) Q s := by
  by_cases hroom : Takes sb s.log (blocksOf off.toNat n.toNat + 4)
  · have hends : Ends (fun e => E e ∨ ∃ l, e = .panic (.log l)) (writei ip src off n)
        (fun r t => Took s.log t.log (blocksOf off.toNat n.toNat + 4) → Q r t) s :=
      writei_ends hsb hv hs hi hcopy hinum ht hdev hsrc ⟨fun l => .inr ⟨l, rfl⟩, fun hlt => .inl (hE.blocks hlt)⟩
        (fun hrefused _ => hbad hrefused) fun hok v' disk log lg hup htr hlog htook =>
          hgood hok v' disk log lg hup htr hlog fun _ => htook
    subst hsb
    refine ((hends.inter (writei_room src hroom)).mono fun r t h => h.1 h.2).allow fun e he => ?_
    exact he.1.resolve_right fun hlog => he.2 (.inr hlog)
  · exact writei_ends hsb hv hs hi hcopy hinum ht hdev hsrc ⟨hE.log hroom, hE.blocks⟩ hbad
      fun hok v' disk log lg hup htr hlog => hgood hok v' disk log lg hup htr hlog fun h => absurd h hroom

end Xv6.Fs
