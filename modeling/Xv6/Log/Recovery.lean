import Xv6.Log.Spec

/-!
# Crash recovery

After a crash in a commit, the log area tells how to reach the disk before the transaction or the one after.
-/

open Function Xv6.Bytes Xv6.Replay

namespace Xv6.Log

/-! ## The header block -/

theorem getLe_putLe_before (hb : Block) {i j : Nat} (n : Nat) (h : i + 4 ≤ j ∨ j + 4 ≤ i) :
    getLe (putLe hb j 4 n) i 4 = getLe hb i 4 := by
  apply getLe_putLe_apart
  intro x hx y hy
  simp only [Nat.cast_id]
  omega

theorem getLe_putBlocks_before (i : Nat) (bs : List Nat) (hb : Block) (off : Nat) (h : off + 4 ≤ 4 + 4 * i) :
    getLe (putBlocks i bs hb) off 4 = getLe hb off 4 := by
  induction bs generalizing i hb with
  | nil => rfl
  | cons b bs ih => rw [putBlocks, ih _ _ (by omega), getLe_putLe_before _ _ (by omega)]

theorem getLe_putBlocks (i : Nat) (bs : List Nat) (hb : Block) (hw : ∀ b ∈ bs, b < 2 ^ 32) (j : Nat)
    (hj : j < bs.length) : getLe (putBlocks i bs hb) (4 + 4 * (i + j)) 4 = bs[j] := by
  induction bs generalizing i j hb with
  | nil => simp at hj
  | cons b bs ih =>
    rw [List.forall_mem_cons] at hw
    rw [putBlocks]
    cases j with
    | zero =>
      rw [getLe_putBlocks_before _ _ _ _ (by omega)]
      exact getLe_putLe _ _ _ _ (spread_nat 4) hw.1
    | succ j =>
      have := ih (i + 1) (putLe hb (4 + 4 * i) 4 b) hw.2 j (by simpa using hj)
      rw [show i + (j + 1) = i + 1 + j by omega, this, List.getElem_cons_succ]

theorem headN_fillHead {lh : List Nat} (hb : Block) (h : lh.length ≤ logsize) : headN (fillHead lh hb) = lh.length := by
  have hlt : lh.length < 2 ^ 31 := by simp only [logsize, maxopblocks] at h; omega
  have hn : getLe (fillHead lh hb) 0 4 = lh.length := by
    rw [fillHead, getLe_putBlocks_before _ _ _ _ (by omega)]
    exact getLe_putLe _ _ _ _ (spread_nat 4) (by omega)
  simp only [headN, hn, if_pos hlt]

theorem headN_clear (hb : Block) : headN (fillHead [] hb) = 0 := headN_fillHead hb (Nat.zero_le _)

theorem readHead_fillHead {lh : List Nat} (hb : Block) (h : lh.length ≤ logsize) (hw : ∀ b ∈ lh, b < 2 ^ 32) :
    readHead (fillHead lh hb) = lh := by
  unfold readHead
  rw [headN_fillHead hb h]
  apply List.ext_getElem
  · simp
  · intro i hi hi'
    have := getLe_putBlocks 0 lh (putLe hb 0 4 lh.length) hw i hi'
    rw [Nat.zero_add] at this
    simpa [fillHead] using this

theorem readHead_eq_nil {hb : Block} : readHead hb = [] ↔ headN hb = 0 := by
  simp [readHead]

/-! ## What the machine writes -/

def Machine.puts (m : Machine) (ws : List (Nat × Block)) : Machine :=
  { m with issued := m.issued ++ ws, buf := replay m.buf ws }

@[simp] theorem puts_puts (m : Machine) (ws vs : List (Nat × Block)) : (m.puts ws).puts vs = m.puts (ws ++ vs) := by
  simp [Machine.puts, replay_append]

@[simp] theorem puts_buf (m : Machine) (ws : List (Nat × Block)) : (m.puts ws).buf = replay m.buf ws := rfl

@[simp] theorem puts_issued (m : Machine) (ws : List (Nat × Block)) : (m.puts ws).issued = m.issued ++ ws := rfl

theorem puts_disk (m : Machine) (ws : List (Nat × Block)) : (m.puts ws).disk = replay m.disk ws :=
  replay_append _ _ _

theorem bwrite_setBuf (m : Machine) (b : Nat) (data : Block) : bwrite b (setBuf b data m) = m.puts [(b, data)] := by
  simp [bwrite, setBuf, Machine.puts]

variable {a : Area}

def slotWrites (a : Area) : Nat → List Nat → Disk → List (Nat × Block)
  | _, [], _ => []
  | tail, b :: bs, data => (a.start + tail + 1, data b) :: slotWrites a (tail + 1) bs data

def homeWrites (bs : List Nat) (data : Disk) : List (Nat × Block) := bs.map fun b => (b, data b)

theorem mem_slotWrites {tail : Nat} {bs : List Nat} {data : Disk} {w : Nat × Block} :
    w ∈ slotWrites a tail bs data ↔ ∃ i b, bs[i]? = some b ∧ w = (a.start + (tail + i) + 1, data b) := by
  induction bs generalizing tail with
  | nil => simp [slotWrites]
  | cons c bs ih =>
    rw [slotWrites, List.mem_cons, ih]
    constructor
    · rintro (rfl | ⟨i, b, hb, rfl⟩)
      · exact ⟨0, c, rfl, rfl⟩
      · exact ⟨i + 1, b, hb, by rw [Nat.add_right_comm tail 1 i, Nat.add_assoc tail i 1]⟩
    · rintro ⟨i, b, hb, rfl⟩
      cases i with
      | zero =>
        obtain rfl : c = b := by simpa using hb
        exact .inl rfl
      | succ i => exact .inr ⟨i, b, by simpa using hb, by rw [Nat.add_right_comm tail 1 i, Nat.add_assoc tail i 1]⟩

theorem slotWrites_congr {tail : Nat} {bs : List Nat} {f g : Disk} (h : ∀ b ∈ bs, f b = g b) :
    slotWrites a tail bs f = slotWrites a tail bs g := by
  induction bs generalizing tail with
  | nil => rfl
  | cons b bs ih =>
    rw [List.forall_mem_cons] at h
    rw [slotWrites, slotWrites, h.1, ih h.2]

theorem slot_ne {i b : Nat} (h : i < a.size - 1) (hb : a.Outside b) : a.start + i + 1 ≠ b := by
  unfold Area.Outside at hb
  omega

theorem start_ne {b : Nat} (hb : a.Outside b) : a.start ≠ b := by
  have := a.size_pos
  unfold Area.Outside at hb
  omega

theorem writeLogFrom_eq {tail : Nat} {bs : List Nat} (m : Machine) (hfit : tail + bs.length ≤ a.size - 1)
    (hout : ∀ b ∈ bs, a.Outside b) : writeLogFrom a tail bs m = m.puts (slotWrites a tail bs m.buf) := by
  induction bs generalizing tail m with
  | nil => simp [writeLogFrom, slotWrites, Machine.puts]
  | cons b bs ih =>
    rw [List.length_cons] at hfit
    rw [List.forall_mem_cons] at hout
    have hsame : slotWrites a (tail + 1) bs (m.puts [(a.start + tail + 1, m.buf b)]).buf =
        slotWrites a (tail + 1) bs m.buf :=
      slotWrites_congr fun c hc => replay_of_notMem _ (by simpa using slot_ne (by omega) (hout.2 c hc))
    rw [writeLogFrom, bwrite_setBuf, ih _ (by omega) hout.2, hsame, puts_puts]
    rfl

theorem installTransFrom_eq {tail : Nat} {bs : List Nat} {target : Disk} (m : Machine)
    (hfit : tail + bs.length ≤ a.size - 1) (hout : ∀ b ∈ bs, a.Outside b)
    (hslot : ∀ i b, bs[i]? = some b → m.buf (a.start + (tail + i) + 1) = target b) :
    installTransFrom a tail bs m = m.puts (homeWrites bs target) := by
  induction bs generalizing tail m with
  | nil => simp [installTransFrom, homeWrites, Machine.puts]
  | cons b bs ih =>
    rw [List.length_cons] at hfit
    rw [List.forall_mem_cons] at hout
    have hnext : ∀ i c, bs[i]? = some c →
        (m.puts [(b, target b)]).buf (a.start + (tail + 1 + i) + 1) = target c := by
      intro i c hc
      have hi : i < bs.length := (List.getElem?_eq_some_iff.mp hc).1
      rw [puts_buf, replay_of_notMem _ (by simpa using (slot_ne (by omega) hout.1).symm)]
      rw [show tail + 1 + i = tail + (i + 1) by omega]
      exact hslot (i + 1) c (by simpa using hc)
    have hfirst : m.buf (a.start + tail + 1) = target b := hslot 0 b rfl
    rw [installTransFrom, bwrite_setBuf, hfirst, ih _ (by omega) hout.2 hnext, puts_puts]
    rfl

theorem writeHead_eq (m : Machine) (lh : List Nat) :
    writeHead a lh m = m.puts [(a.start, fillHead lh (m.buf a.start))] :=
  bwrite_setBuf _ _ _

/-! ## The way to a disk -/

/-- The blocks in the header of `d` have their contents of `target` in the log, all others are home already. -/
structure Recoverable (a : Area) (target d : Disk) : Prop where
  fits : (readHead (d a.start)).length ≤ a.size - 1
  outside : ∀ b ∈ readHead (d a.start), a.Outside b
  slots : ∀ i b, (readHead (d a.start))[i]? = some b → d (a.start + i + 1) = target b
  homes : ∀ b, a.Outside b → b ∉ readHead (d a.start) → d b = target b

structure Settled (a : Area) (target d : Disk) : Prop where
  header : headN (d a.start) = 0
  homes : ∀ b, a.Outside b → d b = target b

theorem Settled.recoverable {target d : Disk} (h : Settled a target d) : Recoverable a target d := by
  have hnil : readHead (d a.start) = [] := readHead_eq_nil.mpr h.header
  constructor <;> simp_all [h.homes]

theorem recoverFromLog_eq {target : Disk} {m : Machine} (h : Recoverable a target m.buf) :
    ∃ hb, headN hb = 0 ∧
      recoverFromLog a m = m.puts (homeWrites (readHead (m.buf a.start)) target ++ [(a.start, hb)]) := by
  have hinstall : installTrans a (readHead (m.buf a.start)) m =
      m.puts (homeWrites (readHead (m.buf a.start)) target) :=
    installTransFrom_eq m (by simpa using h.fits) h.outside (by simpa using h.slots)
  simp only [recoverFromLog, hinstall, writeHead_eq, puts_puts]
  exact ⟨_, headN_clear _, rfl⟩

theorem Recoverable.replay_home {target d : Disk} (h : Recoverable a target d)
    {ws : List (Nat × Block)} (hws : ∀ w ∈ ws, w.1 ∈ readHead (d a.start)) :
    Recoverable a target (replay d ws) := by
  have hhead : replay d ws a.start = d a.start :=
    replay_of_notMem _ fun w hw => (start_ne (h.outside _ (hws w hw))).symm
  constructor
  · rw [hhead]
    exact h.fits
  · rw [hhead]
    exact h.outside
  · intro i b hb
    rw [hhead] at hb
    have hi : i < (readHead (d a.start)).length := (List.getElem?_eq_some_iff.mp hb).1
    have hfits := h.fits
    rw [replay_of_notMem _ fun w hw => (slot_ne (by omega) (h.outside _ (hws w hw))).symm]
    exact h.slots i b hb
  · intro b hb hnot
    rw [hhead] at hnot
    rw [replay_of_notMem _ (fun w hw (hwb : w.1 = b) => hnot (hwb ▸ hws w hw))]
    exact h.homes b hb hnot

theorem Recoverable.replay_all {target d : Disk} (h : Recoverable a target d) {hb : Block}
    (hhb : headN hb = 0) :
    Settled a target (replay d (homeWrites (readHead (d a.start)) target ++ [(a.start, hb)])) := by
  rw [replay_append, replay_cons, replay_nil]
  constructor
  · rw [update_self]
    exact hhb
  · intro b hout
    rw [update_of_ne (start_ne hout).symm]
    by_cases hmem : b ∈ readHead (d a.start)
    · apply replay_of_mem
      · exact ⟨(b, target b), List.mem_map.mpr ⟨b, hmem, rfl⟩, rfl⟩
      · intro w hw hwb
        obtain ⟨c, -, rfl⟩ := List.mem_map.mp hw
        simp only at hwb
        rw [hwb]
    · rw [replay_of_notMem]
      · exact h.homes b hout hmem
      · intro w hw hwb
        obtain ⟨c, hc, rfl⟩ := List.mem_map.mp hw
        exact hmem (hwb ▸ hc)

theorem Recoverable.replay_take {target d : Disk} (h : Recoverable a target d) {hb : Block} (hhb : headN hb = 0)
    (k : Nat) :
    Recoverable a target (replay d ((homeWrites (readHead (d a.start)) target ++ [(a.start, hb)]).take k)) := by
  by_cases hk : k ≤ (homeWrites (readHead (d a.start)) target).length
  · rw [List.take_append_of_le_length hk]
    apply h.replay_home
    intro w hw
    obtain ⟨b, hb, rfl⟩ := List.mem_map.mp (List.mem_of_mem_take hw)
    exact hb
  · rw [List.take_of_length_le (by simp; omega)]
    exact (h.replay_all hhb).recoverable

theorem cutRecovery_recoverable {target d : Disk} (h : Recoverable a target d) (k : Nat) :
    Recoverable a target (cutRecovery a d k) := by
  obtain ⟨hb, hhb, heq⟩ := recoverFromLog_eq (m := boot d) h
  unfold cutRecovery
  rw [heq, puts_issued, boot, List.nil_append]
  exact h.replay_take hhb k

theorem cutRecoveries_recoverable {target d : Disk} (h : Recoverable a target d)
    (cuts : List Nat) : Recoverable a target (cuts.foldl (cutRecovery a) d) := by
  induction cuts generalizing d with
  | nil => exact h
  | cons k cuts ih => exact ih (cutRecovery_recoverable h k)

theorem recoverAfter_settled {target d : Disk} (h : Recoverable a target d) (cuts : List Nat) :
    Settled a target (recoverAfter a cuts d) := by
  have hcuts := cutRecoveries_recoverable h cuts
  obtain ⟨hb, hhb, heq⟩ := recoverFromLog_eq (m := boot (cuts.foldl (cutRecovery a) d)) hcuts
  unfold recoverAfter
  rw [heq, puts_disk]
  exact hcuts.replay_all hhb

/-! ## A commit -/

def commitWrites (a : Area) (blocks : List Nat) (data : Disk) (full empty : Block) : List (Nat × Block) :=
  slotWrites a 0 blocks data ++ [(a.start, full)] ++ (homeWrites blocks data ++ [(a.start, empty)])

theorem slotWrites_start {blocks : List Nat} {data : Disk} {w : Nat × Block}
    (hw : w ∈ slotWrites a 0 blocks data) : w.1 ≠ a.start := by
  obtain ⟨i, b, -, rfl⟩ := mem_slotWrites.mp hw
  simp only
  omega

theorem slotWrites_home {data : Disk} (tx : Tx a) {w : Nat × Block} {b : Nat}
    (hw : w ∈ slotWrites a 0 tx.blocks data) (hb : a.Outside b) : w.1 ≠ b := by
  obtain ⟨i, c, hc, rfl⟩ := mem_slotWrites.mp hw
  have hi : i < tx.blocks.length := (List.getElem?_eq_some_iff.mp hc).1
  have hfits := tx.fits
  rw [Nat.zero_add]
  exact slot_ne (by omega) hb

theorem replay_slotWrites (d : Disk) {blocks : List Nat} {data : Disk} {i b : Nat} (hb : blocks[i]? = some b) :
    replay d (slotWrites a 0 blocks data) (a.start + i + 1) = data b := by
  apply replay_of_mem
  · exact ⟨_, mem_slotWrites.mpr ⟨i, b, hb, rfl⟩, by simp⟩
  · intro w hw hwi
    obtain ⟨j, c, hc, rfl⟩ := mem_slotWrites.mp hw
    obtain rfl : j = i := by simp only at hwi; omega
    rw [hb, Option.some.injEq] at hc
    rw [hc]

theorem Tx.length_le (tx : Tx a) : tx.blocks.length ≤ logsize := by
  have hfits := tx.fits
  have hsize := a.size_le
  omega

theorem Tx.run_eq (m : Machine) (tx : Tx a) (h : 0 < tx.blocks.length) :
    ∃ full empty, readHead full = tx.blocks ∧ headN empty = 0 ∧
      Tx.run m tx = (tx.cached m).puts (commitWrites a tx.blocks tx.data full empty) := by
  have hcached : ∀ b ∈ tx.blocks, (tx.cached m).buf b = tx.data b := fun b hb => if_pos hb
  have hlog : writeLog a tx.blocks (tx.cached m) = (tx.cached m).puts (slotWrites a 0 tx.blocks tx.data) := by
    rw [← slotWrites_congr hcached]
    exact writeLogFrom_eq _ (by simpa using tx.fits) tx.outside
  have hinstall : ∀ full, installTrans a tx.blocks
      ((tx.cached m).puts (slotWrites a 0 tx.blocks tx.data ++ [(a.start, full)])) =
      (tx.cached m).puts (slotWrites a 0 tx.blocks tx.data ++ [(a.start, full)] ++ homeWrites tx.blocks tx.data) := by
    intro full
    rw [← puts_puts _ (slotWrites a 0 tx.blocks tx.data ++ [(a.start, full)])]
    apply installTransFrom_eq _ (by simpa using tx.fits) tx.outside
    intro i b hb
    rw [Nat.zero_add, puts_buf, replay_append, replay_of_notMem _ (by simp; omega)]
    exact replay_slotWrites _ hb
  simp only [Tx.run, commit, if_pos h, hlog, writeHead_eq, puts_puts, hinstall]
  exact ⟨_, _, readHead_fillHead _ tx.length_le tx.word, headN_clear _, congrArg _ (List.append_assoc _ _ _)⟩

theorem Tx.run_nil (m : Machine) (tx : Tx a) (h : tx.blocks = []) : Tx.run m tx = m := by
  simp [Tx.run, commit, Tx.cached, h]

theorem committed_recoverable {target d : Disk} (hd : Settled a target d) (tx : Tx a) {full : Block}
    (hfull : readHead full = tx.blocks) :
    Recoverable a (tx.apply target) (replay d (slotWrites a 0 tx.blocks tx.data ++ [(a.start, full)])) := by
  rw [replay_append, replay_cons, replay_nil]
  have hhead : readHead (update (replay d (slotWrites a 0 tx.blocks tx.data)) a.start full a.start) =
      tx.blocks := by rw [update_self, hfull]
  constructor
  · rw [hhead]
    exact tx.fits
  · rw [hhead]
    exact tx.outside
  · intro i b hb
    rw [hhead] at hb
    rw [update_of_ne (by omega), replay_slotWrites d hb]
    exact (if_pos (List.mem_of_getElem? hb)).symm
  · intro b hout hnot
    rw [hhead] at hnot
    rw [update_of_ne (start_ne hout).symm, replay_of_notMem, hd.homes b hout]
    · exact (if_neg hnot).symm
    · exact fun w hw => slotWrites_home tx hw hout

theorem Settled.of_same {target d e : Disk} (h : Settled a target d) (hhead : e a.start = d a.start)
    (hhome : ∀ b, a.Outside b → e b = d b) : Settled a target e := by
  constructor
  · rw [hhead]
    exact h.header
  · intro b hb
    rw [hhome b hb]
    exact h.homes b hb

theorem Tx.apply_homeWrites (tx : Tx a) (target : Disk) :
    homeWrites tx.blocks (tx.apply target) = homeWrites tx.blocks tx.data := by
  apply List.map_congr_left
  intro b hb
  simp [Tx.apply, hb]

theorem commit_settled {target d : Disk} (hd : Settled a target d) (tx : Tx a) {full empty : Block}
    (hfull : readHead full = tx.blocks) (hempty : headN empty = 0) :
    Settled a (tx.apply target) (replay d (commitWrites a tx.blocks tx.data full empty)) := by
  have hrec := committed_recoverable hd tx hfull
  have hall := hrec.replay_all hempty
  rw [replay_append d _ [(a.start, full)], replay_cons, replay_nil, update_self, hfull,
    tx.apply_homeWrites] at hall
  rw [commitWrites, replay_append, replay_append d]
  exact hall

theorem commit_cut {target d : Disk} (hd : Settled a target d) (tx : Tx a) {full empty : Block}
    (hfull : readHead full = tx.blocks) (hempty : headN empty = 0) (k : Nat) :
    Recoverable a
      (if ∃ w ∈ (commitWrites a tx.blocks tx.data full empty).take k, w.1 = a.start then tx.apply target else target)
      (replay d ((commitWrites a tx.blocks tx.data full empty).take k)) := by
  unfold commitWrites
  by_cases hk : k ≤ (slotWrites a 0 tx.blocks tx.data).length
  · -- Only log blocks have been written, and the header does not speak of them.
    rw [List.append_assoc, List.take_append_of_le_length hk, if_neg]
    · apply Settled.recoverable
      apply hd.of_same
      · exact replay_of_notMem _ fun w hw => slotWrites_start (List.mem_of_mem_take hw)
      · intro b hb
        apply replay_of_notMem
        intro w hw
        exact slotWrites_home tx (List.mem_of_mem_take hw) hb
    · rintro ⟨w, hw, hstart⟩
      exact slotWrites_start (List.mem_of_mem_take hw) hstart
  · have hlen : (slotWrites a 0 tx.blocks tx.data ++ [(a.start, full)]).length ≤ k := by simp; omega
    rw [List.take_append, List.take_of_length_le hlen, if_pos ⟨(a.start, full), by simp, rfl⟩]
    have hcut := (committed_recoverable hd tx hfull).replay_take hempty
      (k - (slotWrites a 0 tx.blocks tx.data ++ [(a.start, full)]).length)
    rw [replay_append d _ [(a.start, full)], replay_cons, replay_nil, update_self, hfull,
      tx.apply_homeWrites] at hcut
    rw [replay_append, replay_append d]
    exact hcut

/-! ## Runs of transactions -/

structure Ready (a : Area) (target : Disk) (m : Machine) : Prop where
  cache : m.buf = m.disk
  settled : Settled a target m.disk

theorem boot_ready {d : Disk} (h : headN (d a.start) = 0) : Ready a d (boot d) := ⟨rfl, h, fun _ _ => rfl⟩

theorem Tx.cached_disk (tx : Tx a) (m : Machine) : (tx.cached m).disk = m.disk := rfl

theorem Tx.run_ready {target : Disk} {m : Machine} (h : Ready a target m) (tx : Tx a) :
    Ready a (tx.apply target) (Tx.run m tx) := by
  by_cases hblocks : 0 < tx.blocks.length
  · obtain ⟨full, empty, hfull, hempty, heq⟩ := tx.run_eq m hblocks
    rw [heq]
    refine ⟨?_, ?_⟩
    · rw [puts_buf, puts_disk, tx.cached_disk, ← h.cache]
      apply replay_congr
      intro b hb
      apply if_neg
      intro hmem
      exact hb (b, tx.data b) (by simp [commitWrites, homeWrites, hmem]) rfl
    · rw [puts_disk, tx.cached_disk]
      exact commit_settled h.settled tx hfull hempty
  · have hnil : tx.blocks = [] := List.eq_nil_of_length_eq_zero (by omega)
    have hsame : tx.apply target = target := by
      funext b
      simp [Tx.apply, hnil]
    rw [tx.run_nil m hnil, hsame]
    exact h

theorem runs_ready {target : Disk} {m : Machine} (h : Ready a target m) (txs : List (Tx a)) :
    Ready a (txs.foldl (fun d tx => tx.apply d) target) (txs.foldl Tx.run m) := by
  induction txs generalizing target m with
  | nil => exact h
  | cons tx txs ih => exact ih (tx.run_ready h)

theorem Tx.cut_recoverable {target : Disk} {m : Machine} (h : Ready a target m) (tx : Tx a) (k : Nat) :
    Recoverable a (if ∃ w ∈ (Tx.writes m tx).take k, w.1 = a.start then tx.apply target else target)
      (replay m.disk ((Tx.writes m tx).take k)) := by
  unfold Tx.writes
  by_cases hblocks : 0 < tx.blocks.length
  · obtain ⟨full, empty, hfull, hempty, heq⟩ := tx.run_eq m hblocks
    rw [heq, puts_issued, show (tx.cached m).issued = m.issued from rfl, List.drop_left]
    exact commit_cut h.settled tx hfull hempty k
  · have hnil : tx.blocks = [] := List.eq_nil_of_length_eq_zero (by omega)
    rw [tx.run_nil m hnil, List.drop_length, List.take_nil, if_neg (by simp), replay_nil]
    exact h.settled.recoverable

/-- After any transactions, a crash inside one more commit and crashes of recoveries, recovery leaves the disk of the
whole transactions, with the last one exactly if its header reached the disk. -/
theorem commit_crash_recovers (a : Area) (d : Disk) (h : headN (d a.start) = 0) (done : List (Tx a)) (tx : Tx a)
    (k : Nat) (cuts : List Nat) :
    let m := done.foldl Tx.run (boot d)
    let reached := (Tx.writes m tx).take k
    let restored := recoverAfter a cuts (replay m.disk reached)
    let whole := if ∃ w ∈ reached, w.1 = a.start then done ++ [tx] else done
    headN (restored a.start) = 0 ∧
      ∀ b, a.Outside b → restored b = whole.foldl (fun d tx => tx.apply d) d b := by
  intro m reached restored whole
  have hready := runs_ready (boot_ready h) done
  have hsettled := recoverAfter_settled (tx.cut_recoverable hready k) cuts
  refine ⟨hsettled.header, fun b hb => (hsettled.homes b hb).trans ?_⟩
  by_cases hreached : ∃ w ∈ reached, w.1 = a.start
  · simp only [whole, if_pos hreached, List.foldl_append, List.foldl_cons, List.foldl_nil]
    rw [if_pos hreached]
  · simp only [whole, if_neg hreached]
    rw [if_neg hreached]

def mkfsArea : Area := ⟨2, logsize, by decide, by decide⟩

def onesTx : Tx mkfsArea where
  blocks := [100]
  data := fun _ _ => 1
  nodup := by decide
  fits := by decide
  outside := by decide
  word := by decide

theorem onesTx_recovers :
    let d : Disk := fun _ _ => 0
    let restored := recoverAfter mkfsArea [1, 0] (replay d ((Tx.writes (boot d) onesTx).take 2))
    headN (restored mkfsArea.start) = 0 ∧ restored 100 = fun _ => 1 := by
  intro d restored
  have h := commit_crash_recovers mkfsArea d (by decide) [] onesTx 2 [1, 0]
  refine ⟨h.1, (h.2 100 (by decide)).trans ?_⟩
  have hreached : ∃ w ∈ (Tx.writes (boot d) onesTx).take 2, w.1 = mkfsArea.start := by
    refine ⟨_, List.mem_of_getElem? (i := 1) rfl, rfl⟩
  change List.foldl _ d (if ∃ w ∈ (Tx.writes (boot d) onesTx).take 2, w.1 = mkfsArea.start then [] ++ [onesTx] else [])
    100 = _
  rw [if_pos hreached]
  rfl

end Xv6.Log
