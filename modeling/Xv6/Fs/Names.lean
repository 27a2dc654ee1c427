import Xv6.Fs.Image
import Xv6.Fs.LogRoom
import Xv6.Fs.Lookup

/-!
# Directories as finite maps

`dirlink` and the clearing of entries in `sys_unlink` make a directory a map from names to inode numbers.
-/

open Xv6.Bytes Xv6.Log Xv6.Code

namespace Xv6.Fs

variable {P : Type} {sb : Superblock} {v v' : Volume} {dp ip : Iptr} {i j e : Nat} {x : Inode} {s t : State P}
  {E : Fail → Prop}

def clearDirent (dp : Iptr) (off : Nat) : Prog P Unit := do
  let r ← writei dp (List.replicate direntSize 0) (.ofNat 32 off) (.ofNat 32 direntSize)
  if r ≠ direntSize then panic .unlinkWritei else pure ()

inductive DirOp where
  | link (name : List Byte) (inum : Nat)
  | unlink (name : List Byte)

def DirOp.body (dp : Iptr) : DirOp → Prog P Unit
  | link name inum => do
    let _ ← dirlink dp name inum
    pure ()
  | unlink name => do
    match ← dirlookup dp name with
    | none => pure ()
    | some (ip, off) => do
      clearDirent dp off
      iput ip

/-- Each operation is a transaction of its own. -/
def DirOp.exec (dp : Iptr) (op : DirOp) : Prog P Unit := do
  beginOp
  op.body dp
  endOp

structure Unchanged (s t : State P) : Prop where
  rest : t = { s with icache := t.icache }
  slots : ∀ q, t.icache q = s.icache q ∨ (s.icache q).ref = 0 ∧ (t.icache q).ref = 0

/-! ## References that are given back -/

theorem Got.not_last (h : Got s j ip x) : ¬(x.ref = 1 ∧ x.valid = true) := by
  cases h with
  | shared hpos => exact fun hc => absurd hc.1 (by dsimp only; omega)
  | fresh => exact fun hc => nomatch hc.2

theorem Got.put_back (h : Got s j ip x) : Unchanged s (s.setSlot ip { x with ref := x.ref - 1 }) := by
  refine ⟨rfl, fun q => ?_⟩
  by_cases hq : q = ip
  · subst hq
    rw [setSlot_self]
    cases h with
    | shared => exact .inl (by simp)
    | fresh hzero => exact .inr ⟨hzero, rfl⟩
  · exact .inl (setSlot_ne _ _ hq)

namespace OpenDir

theorem setSlot (h : OpenDir sb v dp i s) (hx : ip = dp → x.inum = i ∧ 1 ≤ x.ref ∧ x.copy = v.inode i) :
    OpenDir sb v dp i (s.setSlot ip x) := by
  by_cases hip : ip = dp
  · subst hip
    obtain ⟨hinum, href, hcopy⟩ := hx rfl
    exact { h with
      inum := by rw [setSlot_self, hinum]
      ref := by rw [setSlot_self]; exact href
      copy := by rw [setSlot_self, hcopy] }
  · have hsame := setSlot_ne s x (Ne.symm hip)
    exact { h with
      inum := by rw [hsame, h.inum]
      ref := by rw [hsame]; exact h.ref
      copy := by rw [hsame, h.copy] }

variable (h : OpenDir sb v dp i s)
include h

theorem unchanged (hu : Unchanged s t) : OpenDir sb v dp i t := by
  have href := h.ref
  have hdp : t.icache dp = s.icache dp := (hu.slots dp).resolve_right fun hc => by omega
  rw [hu.rest]
  exact { h with inum := hdp ▸ h.inum, ref := hdp ▸ h.ref, copy := hdp ▸ h.copy }

theorem got (hgot : Got s j ip x) : OpenDir sb v dp i (s.setSlot ip x) := by
  refine h.setSlot fun hip => ?_
  subst hip
  have href := h.ref
  cases hgot with
  | shared => exact ⟨h.inum, by dsimp only; omega, h.copy⟩
  | fresh hzero => omega

/-! ## Entries -/

variable (hv : sb.Valid)
include hv

theorem writeDirent_ends {bs : List Byte} (hlen : bs.length = direntSize) (he : e ≤ (v.slots i).length)
    (hblocks : v.free sb < v.missing i (direntSize * e) direntSize → E (.panic .outOfBlocks))
    (hlog : ¬Takes sb s.log 5 → ∀ l, E (.panic (.log l))) {Q : Int → State P → Prop}
    (hbig : maxfile * bsize < direntSize * (e + 1) → Q (-1) s)
    (hgood : ∀ v' disk log lg, v'.slots i = Slots.put (v.slots i) e (.ofBytes bs) →
      OpenDir sb v' dp i ((s.wrote disk log lg).setCopy dp (v'.inode i)) → (Takes sb s.log 5 → Took s.log log 5) →
      Q direntSize ((s.wrote disk log lg).setCopy dp (v'.inode i))) :
    Ends E (writei dp bs (.ofNat 32 (direntSize * e)) (.ofNat 32 direntSize)) Q s := by
  have hoff := h.toNat_off he
  have hsixteen : (BitVec.ofNat 32 direntSize).toNat = direntSize := rfl
  have hle : direntSize * e ≤ (v.inode i).size.toNat := by
    rw [Volume.slots_length] at he
    exact (Nat.mul_le_mul_left _ he).trans (Nat.mul_div_le _ _)
  have hsize := h.solid.size_le h.live h.not_dev
  have hadd : (BitVec.ofNat 32 (direntSize * e) + BitVec.ofNat 32 direntSize).toNat = direntSize * (e + 1) := by
    rw [BitVec.toNat_add, hoff, hsixteen, Nat.mul_succ, Nat.mod_eq_of_lt]
    simp only [maxfile, ndirect, nindirect, bsize, direntSize, dirsiz] at hsize hle ⊢
    omega
  have hrefused : v.Refused i (.ofNat 32 (direntSize * e)) (.ofNat 32 direntSize) ↔
      maxfile * bsize < direntSize * (e + 1) := by
    rw [Volume.Refused, gt_iff_lt, BitVec.lt_def, BitVec.lt_def, hadd, hoff, or_iff_right (by omega),
      or_iff_right (by rw [Nat.mul_succ]; omega)]
  have hone : blocksOf (direntSize * e) direntSize + 4 = 5 := by
    rw [blocksOf, if_neg (by decide)]
    simp only [direntSize, dirsiz, bsize]
    omega
  refine writei_settles h.sbEq hv h.solid h.live h.copy h.inum h.tracks h.not_dev (by rw [hlen, hsixteen])
    (by rw [hoff, hsixteen]; exact ⟨hblocks, hone ▸ hlog⟩) (fun hbad => hbig (hrefused.mp hbad))
    fun hok v' disk log lg hup htracks _ htook => ?_
  rw [hoff, hsixteen] at hup htook
  rw [hone] at htook
  rw [List.take_of_length_le hlen.le] at hup
  refine hgood v' disk log lg (hup.slots h.solid ⟨h.live, h.not_dev⟩ h.whole hlen he) ?_ htook
  have hfits := Nat.not_lt.mp (mt hrefused.mpr hok)
  have hself : ((s.wrote disk log lg).setCopy dp (v'.inode i)).icache dp = { s.icache dp with copy := v'.inode i } :=
    Function.update_self ..
  exact {
    sbEq := h.sbEq
    tracks := htracks
    solid := hup.solid h.solid h.not_dev hle (by rw [hlen]; exact hfits)
    live := (hup.live i).mpr h.live
    dir := by rw [hup.type, h.dir]
    whole := by
      rw [hup.size, hlen]
      rcases max_choice (v.inode i).size.toNat (direntSize * e + direntSize) with hm | hm <;> rw [hm]
      · exact h.whole
      · exact ⟨e + 1, rfl⟩
    inum := by rw [hself]; exact h.inum
    ref := by rw [hself]; exact h.ref
    copy := by rw [hself] }

theorem dirlink_ends (hfull : (∀ q, (s.icache q).ref ≠ 0) → E (.panic .igetNoInodes)) (name : List Byte) (inum : Nat)
    (hblocks : v.free sb < v.missing i (direntSize * Slots.free Dirent.key (v.slots i)) direntSize →
      E (.panic .outOfBlocks)) (hlog : ¬Takes sb s.log 5 → ∀ l, E (.panic (.log l)))
    (hbig : maxfile * bsize < direntSize * (Slots.free Dirent.key (v.slots i) + 1) → E (.panic .dirlink))
    {Q : Int → State P → Prop} (hthere : v.find i name ≠ none → ∀ t, Unchanged s t → OpenDir sb v dp i t → Q (-1) t)
    (hnew : v.find i name = none → ∀ v' t, OpenDir sb v' dp i t → (Takes sb s.log 5 → Took s.log t.log 5) →
      v'.slots i = Slots.put (v.slots i) (Slots.free Dirent.key (v.slots i)) (newDirent (inum % 2 ^ 16) name) → Q 0 t) :
    Ends E (dirlink dp name inum) Q s := by
  refine ends_bind.mpr (h.dirlookup_ends hfull name (fun hno => ?_) fun e _ hfind ip x hgot => ?_)
  · refine Ends.bind h.emptyDirent_ends ?_
    rintro e t ⟨rfl, rfl⟩
    refine ends_bind.mpr (h.writeDirent_ends hv (newDirent_length inum name) Slots.free_le hblocks hlog
      (fun hlong => ?_) fun v' disk log lg hslots hopen htook => ?_)
    · exact ends_ite (fun _ => ends_stop (hbig hlong)) fun hne => absurd (by decide) hne
    · rw [ofBytes_newDirent] at hslots
      exact ends_ite (fun hne => absurd rfl hne) fun _ => ends_pure (hnew hno v' _ hopen htook hslots)
  · have hopen := h.got hgot
    refine ends_bind.mpr (iput_ends (fun hc => ?_) (ends_pure ?_))
    · rw [setSlot_self] at hc
      exact hgot.not_last ⟨hc.1, hc.2.1⟩
    · rw [setSlot_setSlot, setSlot_self]
      exact hthere (by rw [hfind]; nofun) _ hgot.put_back (h.unchanged hgot.put_back)

/-- The entry is in a block that is there. -/
theorem clearDirent_ends (he : e < (v.slots i).length) (hlog : ¬Takes sb s.log 5 → ∀ l, E (.panic (.log l)))
    {Q : Unit → State P → Prop}
    (hQ : ∀ v' disk log lg, v'.slots i = Slots.put (v.slots i) e ⟨0, List.replicate dirsiz 0⟩ →
      OpenDir sb v' dp i ((s.wrote disk log lg).setCopy dp (v'.inode i)) → (Takes sb s.log 5 → Took s.log log 5) →
      Q () ((s.wrote disk log lg).setCopy dp (v'.inode i))) : Ends E (clearDirent dp (direntSize * e)) Q s := by
  have hin := h.slot_fits he
  refine ends_bind.mpr (h.writeDirent_ends hv (List.length_replicate ..) he.le (fun hfew => ?_) hlog (fun hlong => ?_)
    fun v' disk log lg hslots hopen htook => ?_)
  · rw [h.solid.missing_eq_zero ⟨h.live, h.not_dev⟩ hin] at hfew
    cases hfew
  · have hfits := hin.trans (h.solid.size_le h.live h.not_dev)
    rw [Nat.mul_succ] at hlong
    omega
  · exact ends_ite (fun hne => absurd rfl hne) fun _ => ends_pure (hQ v' disk log lg hslots hopen htook)

end OpenDir

def Volume.HasRoom (v : Volume) (i : Nat) : Prop :=
  (∃ de ∈ v.slots i, de.inum = 0) ∨ (v.inode i).size.toNat + direntSize ≤ maxfile * bsize

theorem OpenDir.free_fits (h : OpenDir sb v dp i s) (hroom : v.HasRoom i) :
    direntSize * (Slots.free Dirent.key (v.slots i) + 1) ≤ maxfile * bsize := by
  rcases hroom with hfree | hlong
  · have hlt : Slots.free Dirent.key (v.slots i) < (v.slots i).length :=
      Slots.free_lt_iff.mpr (by simpa only [key_eq_none])
    exact (h.slot_fits hlt).trans (h.solid.size_le h.live h.not_dev)
  · rw [h.size_eq] at hlong
    exact (Nat.mul_le_mul_left _ (Nat.succ_le_succ Slots.free_le)).trans hlong

def NoSlot (t : State P) (e : Fail) : Prop := e = .panic .igetNoInodes ∧ ∀ q, (t.icache q).ref ≠ 0

def LogBusy (s : State P) (e : Fail) : Prop := (∃ l, e = .panic (.log l)) ∧ ¬Resting s

/-- A new entry needs a block only behind the last one. -/
def NoBlock (sb : Superblock) (v : Volume) (i : Nat) (e : Fail) : Prop :=
  e = .panic .outOfBlocks ∧ (∀ de ∈ v.slots i, de.inum ≠ 0) ∧
    v.free sb < v.missing i (v.inode i).size.toNat direntSize

theorem OpenDir.noBlock (h : OpenDir sb v dp i s)
    (hfew : v.free sb < v.missing i (direntSize * Slots.free Dirent.key (v.slots i)) direntSize) :
    NoBlock sb v i (.panic .outOfBlocks) := by
  have hall : ¬Slots.free Dirent.key (v.slots i) < (v.slots i).length := fun hlt => by
    rw [h.solid.missing_eq_zero ⟨h.live, h.not_dev⟩ (h.slot_fits hlt)] at hfew
    cases hfew
  have hend : Slots.free Dirent.key (v.slots i) = (v.slots i).length :=
    Nat.le_antisymm Slots.free_le (Nat.not_lt.mp hall)
  rw [hend, ← h.size_eq] at hfew
  refine ⟨rfl, fun de hde hzero => hall (Slots.free_lt_iff.mpr ⟨de, hde, key_eq_none.mpr hzero⟩), hfew⟩

/-! ## Whole sequences -/

section

variable (hv : sb.Valid) (h : OpenDir sb v dp i s) (hd : Slots.Distinct Dirent.key (v.slots i))
include hv h hd

theorem body_distinct (op : DirOp) : Ends (fun _ => True) (op.body dp)
    (fun _ t => (∃ v', OpenDir sb v' dp i t ∧ Slots.Distinct Dirent.key (v'.slots i)) ∧
      (Takes sb s.log 5 → Took s.log t.log 5)) s := by
  cases op with
  | link name inum =>
    refine ends_bind.mpr (h.dirlink_ends hv (fun _ => trivial) name inum (fun _ => trivial) (fun _ _ => trivial)
      (fun _ => trivial) (fun _ t hu hopen => ends_pure ⟨⟨v, hopen, hd⟩, ?_⟩)
      fun hno v' t hopen htook hslots => ends_pure ⟨⟨v', hopen, ?_⟩, htook⟩)
    · rw [hu.rest]
      exact fun htakes => .same htakes.nodup
    rw [hslots]
    refine hd.put Slots.free_le fun k hk => ?_
    rw [key_newDirent] at hk
    split at hk
    case isTrue => cases hk
    case isFalse =>
      cases hk
      exact hno
  | unlink name =>
    refine ends_bind.mpr (h.dirlookup_ends (fun _ => trivial) name
      (fun _ => ends_pure ⟨⟨v, h, hd⟩, fun htakes => .same htakes.nodup⟩) fun e he hfind ip x hgot => ?_)
    refine ends_bind.mpr ((h.got hgot).clearDirent_ends hv he (fun _ _ => trivial)
      fun v' disk log lg hslots hopen htook => ?_)
    -- `ip` may be `dp` itself, for the entry `.`.
    have hip : (((s.setSlot ip x).wrote disk log lg).setCopy dp (v'.inode i)).icache ip =
        { x with copy := if ip = dp then v'.inode i else x.copy } := by
      by_cases he : ip = dp
      · subst he
        simp [State.setCopy, State.wrote]
      · simp [State.setCopy, State.wrote, he]
    refine iput_ends (fun hc => ?_) ⟨⟨v', hopen.setSlot fun he => ?_, ?_⟩, htook⟩
    · rw [hip] at hc
      exact hgot.not_last ⟨hc.1, hc.2.1⟩
    · subst he
      refine ⟨hopen.inum, ?_, hopen.copy⟩
      have href := h.ref
      rw [hip]
      change 1 ≤ x.ref - 1
      rw [hgot.ref]
      omega
    · rw [hslots]
      exact hd.put he.le (by simp [Dirent.key])

theorem exec_distinct (op : DirOp) : Ends (fun _ => True) (op.exec dp)
    (fun _ t => (∃ v', OpenDir sb v' dp i t ∧ Slots.Distinct Dirent.key (v'.slots i)) ∧ (Resting s → Resting t)) s := by
  refine ends_bind.mpr (beginOp_ends (fun _ => trivial) fun log hlog => ?_)
  have hopen : OpenDir sb v dp i { s with log := log, logged := [] } := { h with }
  refine Ends.bind (body_distinct hv hopen hd op) ?_
  rintro _ t ⟨⟨w, hw, hdw⟩, htook⟩
  refine endOp_ends (fun _ _ => trivial) fun _ => ⟨⟨w, { hw with }, hdw⟩, fun hrest => ?_⟩
  have hbegun := hrest.begun hlog
  have htakes : Takes sb log 5 := h.sbEq ▸ hrest.takes hbegun (by decide)
  have hsb : t.sb = s.sb := hw.sbEq.trans h.sbEq.symm
  exact ⟨((htook htakes).ended hbegun).2, hsb ▸ hrest.one, hsb ▸ hrest.nlog⟩

theorem built_distinct {ops : List DirOp}
    (hbuilt : (do ops.forM (DirOp.exec dp); beginOp : Prog P Unit) s = .ok ((), t)) :
    (∃ w, OpenDir sb w dp i t ∧ Slots.Distinct Dirent.key (w.slots i)) ∧ (Resting s → Takes sb t.log 5) := by
  refine Ends.of_ok (E := fun _ => True) (m := do ops.forM (DirOp.exec dp); beginOp) (Q := fun _ t =>
    (∃ w, OpenDir sb w dp i t ∧ Slots.Distinct Dirent.key (w.slots i)) ∧ (Resting s → Takes sb t.log 5)) ?_ hbuilt
  refine Ends.bind (ends_forM (I := fun _ t => (∃ w, OpenDir sb w dp i t ∧ Slots.Distinct Dirent.key (w.slots i)) ∧
    (Resting s → Resting t)) ⟨⟨v, h, hd⟩, id⟩ ?_) ?_
  · rintro op _ t ⟨⟨w, hw, hdw⟩, hrest⟩
    exact (exec_distinct hv hw hdw op).mono fun _ u hu => ⟨hu.1, fun hs => hu.2 (hrest hs)⟩
  · rintro _ t ⟨⟨w, hw, hdw⟩, hrest⟩
    refine beginOp_ends (fun _ => trivial) fun log hlog => ⟨⟨w, { hw with }, hdw⟩, fun hs => ?_⟩
    exact hw.sbEq ▸ (hrest hs).takes ((hrest hs).begun hlog) (by decide)

/-- A directory that has been built by any of these operations is a map. -/
theorem directory_is_map {ops : List DirOp}
    (hbuilt : (do ops.forM (DirOp.exec dp); beginOp : Prog P Unit) s = .ok ((), t)) :
    ∃ w, OpenDir sb w dp i t ∧ Slots.Distinct Dirent.key (w.slots i) ∧ ∀ name,
      Ends (NoSlot t) (dirlookup dp name)
        (fun r u => r.map (fun a => ((u.icache a.1).inum, a.2)) = w.lookup i name) t ∧
      (∀ inum, 0 < inum → inum < 2 ^ 16 → w.HasRoom i →
        Ends (fun e => NoSlot t e ∨ NoBlock sb w i e ∨ LogBusy s e) (dirlink dp name inum) (fun r u =>
        (w.lookup i name ≠ none → r = -1 ∧ Unchanged t u) ∧
        (w.lookup i name = none → r = 0 ∧ ∃ w' e, OpenDir sb w' dp i u ∧
          w'.lookup i name = some (inum, direntSize * e) ∧ (w'.slots i)[e]? = some (newDirent inum name) ∧
          (∀ other, strncpy dirsiz other ≠ strncpy dirsiz name → w'.lookup i other = w.lookup i other) ∧
          (w'.inode i).size.toNat =
            (w.inode i).size.toNat + if ∃ de ∈ w.slots i, de.inum = 0 then 0 else direntSize)) t) ∧
      ∀ inum off, w.lookup i name = some (inum, off) → Ends (LogBusy s) (clearDirent dp off) (fun _ u =>
        ∃ w', OpenDir sb w' dp i u ∧ w'.lookup i name = none ∧ (w'.inode i).size = (w.inode i).size ∧
          ∀ other, strncpy dirsiz other ≠ strncpy dirsiz name → w'.lookup i other = w.lookup i other) t := by
  obtain ⟨⟨w, hw, hdw⟩, htakes⟩ := built_distinct hv h hd hbuilt
  have hbusy : ¬Takes sb t.log 5 → ∀ l, LogBusy s (.panic (.log l)) := fun hno l =>
    ⟨⟨l, rfl⟩, fun hrest => hno (htakes hrest)⟩
  refine ⟨w, hw, hdw, fun name => ⟨?_, fun inum hpos hlt hroom => ?_, fun inum off hlook => ?_⟩⟩
  · refine hw.dirlookup_ends (E := NoSlot t) (fun hall => ⟨rfl, hall⟩) name (fun hno => ?_)
      fun e he hfind ip x hgot => ?_
    · rw [Volume.lookup_eq_none.mpr hno]
      rfl
    · rw [Volume.lookup_of_find he hfind, Option.map_some, setSlot_self, hgot.inum]
  · have hkey : (newDirent inum name).key = some (strncpy dirsiz name) := by
      rw [key_newDirent, if_neg hpos.ne']
    refine hw.dirlink_ends hv (fun hall => .inl ⟨rfl, hall⟩) name inum (fun hfew => .inr (.inl (hw.noBlock hfew)))
      (fun hno l => .inr (.inr (hbusy hno l))) (fun hbig => absurd (hw.free_fits hroom) (Nat.not_le.mpr hbig))
      (fun hthere u hu _ => ⟨fun _ => ⟨rfl, hu⟩, fun hnone => absurd (Volume.lookup_eq_none.mp hnone) hthere⟩)
      fun hno w' u hopen _ hslots => ?_
    rw [Nat.mod_eq_of_lt hlt] at hslots
    have hnew : ∀ k, (newDirent inum name).key = some k → Slots.find Dirent.key (w.slots i) k = none := fun k hk => by
      rw [hkey] at hk
      cases hk
      exact hno
    refine ⟨fun hsome => absurd (Volume.lookup_eq_none.mpr hno) hsome, fun _ =>
      ⟨rfl, w', Slots.free Dirent.key (w.slots i), hopen, ?_, ?_, fun other hne => ?_, ?_⟩⟩
    · rw [Volume.lookup, hslots, hdw.get_put Slots.free_le hnew hkey]
      rfl
    · rw [hslots, Slots.put_getElem? Slots.free_le, if_pos rfl]
    · rw [Volume.lookup, hslots, hdw.get_put_other Slots.free_le hnew (by simp [Slots.keyAt_free])
        (by rw [hkey]; exact fun hc => hne (Option.some.inj hc).symm), Volume.lookup]
    · rw [hopen.size_eq, hw.size_eq, hslots, Slots.put_length, Nat.mul_add]
      simp only [Slots.free_lt_iff, key_eq_none]
      split <;> rfl
  · obtain ⟨⟨e, de⟩, hget, heq⟩ := Option.map_eq_some_iff.mp hlook
    obtain ⟨rfl, rfl⟩ := Prod.mk.inj heq
    obtain ⟨hde, hkey⟩ := hdw.get_iff.mp hget
    have hat : Slots.keyAt Dirent.key (w.slots i) e = some (strncpy dirsiz name) := by
      rw [Slots.keyAt, hde]
      exact hkey
    have he := Slots.lt_of_keyAt hat
    refine hw.clearDirent_ends hv he hbusy fun w' disk log lg hslots hopen _ =>
      ⟨w', hopen, ?_, ?_, fun other hne => ?_⟩
    · rw [Volume.lookup, hslots, hdw.get_put_free rfl hat]
      rfl
    · apply BitVec.eq_of_toNat_eq
      rw [hopen.size_eq, hw.size_eq, hslots, Slots.put_length, if_pos he, Nat.add_zero]
    · rw [Volume.lookup, hslots, hdw.get_put_other he.le (by simp [Dirent.key])
        (by rw [hat]; exact fun hc => hne (Option.some.inj hc).symm) (by simp [Dirent.key]), Volume.lookup]

end

def dirImage : Disk := image [.zero, rootDinode, { emptyFile with type := tDir }] dots

def dirState : State (Fin 1) where
  sb := mkfsSuper
  disk := dirImage
  icache := fun q => ⟨2, if q = 0 then 1 else 0, true, true, { emptyFile with type := tDir }⟩
  ftable := fun _ => ⟨.none, 0, false, false, 0, 0⟩
  proc := fun _ => ⟨fun _ => none, some 0⟩
  log := ⟨0, false, []⟩
  logged := []
  txns := []

theorem dirImage_dir : getInode mkfsSuper dirImage 2 = { emptyFile with type := tDir } :=
  getInode_image (by decide) (by decide)

theorem dirState_open : OpenDir mkfsSuper (stored mkfsSuper dirImage) 0 2 dirState where
  sbEq := rfl
  tracks := tracks_stored (by decide +kernel)
  solid := (image_rooted rfl (fun _ => rfl) dots).solid
  live := ⟨by decide, by simp only [stored, dirImage_dir]; decide⟩
  dir := by simp only [stored, dirImage_dir]
  whole := by simp only [stored, dirImage_dir]; decide
  inum := rfl
  ref := by decide
  copy := by simp only [stored, dirImage_dir]; rfl

def linkTwo : List DirOp := [.link [97] 5, .link [98] 6, .unlink [97]]

theorem linkTwo_is_map : ∃ t w r u,
    (do linkTwo.forM (DirOp.exec 0); beginOp : Prog (Fin 1) Unit) dirState = .ok ((), t) ∧
    OpenDir mkfsSuper w 0 2 t ∧ Slots.Distinct Dirent.key (w.slots 2) ∧ dirlookup 0 [98] t = .ok (r, u) ∧
    r.map (fun a => ((u.icache a.1).inum, a.2)) = w.lookup 2 [98] := by
  have hempty : (stored mkfsSuper dirImage).slots 2 = [] := by
    simp only [Volume.slots, stored, dirImage_dir]
    rfl
  obtain ⟨_, t, ht, hfree⟩ := exists_of_returned (m := do linkTwo.forM (DirOp.exec 0); beginOp) (s := dirState)
    (g := fun _ t => (t.icache 1).ref) (c := 0) (by decide +kernel)
  obtain ⟨w, hopen, hd, hmap⟩ :=
    directory_is_map mkfsSuper_valid dirState_open (by simp [hempty, Slots.Distinct, Slots.keyAt]) ht
  obtain ⟨r, u, hrun, hr⟩ := (hmap [98]).1.exists_ok fun e he => he.2 1 hfree
  exact ⟨t, w, r, u, ht, hopen, hd, hrun, hr⟩

end Xv6.Fs
