import Xv6.Fs.Image
import Xv6.Fs.Tally
import Xv6.Lib.Run

/-!
# The reference counts count the references

A file is referred to as often as descriptors say, and an entry of the inode cache as often as open files and current
directories say.
-/

open Function Xv6.Bytes Xv6.Log Xv6.Code Xv6.Count Xv6.Run

namespace Xv6.Fs

variable {P : Type} [Fintype P] {real proc : P → Proc} {R : List Iptr} {F : List (Fin nfile)}
  {s t : State P} {p : P} {ip : Iptr} {f : Fin nfile} {fd : Fin nofile}

structure Counted (s : State P) : Prop where
  file : ∀ f, (s.ftable f).ref = fileRefs s.proc f
  inode : ∀ ip, (s.icache ip).ref = inodeRefs s.ftable s.proc ip
  closed : ∀ f, (s.ftable f).ref = 0 → (s.ftable f).type = .none
  distinct : ∀ ip jp, 0 < (s.icache ip).ref → 0 < (s.icache jp).ref → (s.icache ip).inum = (s.icache jp).inum → ip = jp

theorem counted_iff : Counted s ↔ Busy s.proc s.proc [] [] s := by
  constructor
  · intro h
    exact ⟨rfl, fun ip => by simpa using h.inode ip, h.distinct, fun f => by simpa using h.file f, h.closed⟩
  · intro h
    exact ⟨fun f => by simpa using h.file f, fun ip => by simpa using h.inode ip, h.closed, h.distinct⟩

/-! ## References of processes -/

section

variable [DecidableEq P]

def setFd (proc : P → Proc) (p : P) (fd : Fin nofile) (o : Option (Fin nfile)) : P → Proc :=
  update proc p { proc p with ofile := update (proc p).ofile fd o }

def setCwd (proc : P → Proc) (p : P) (o : Option Iptr) : P → Proc :=
  update proc p { proc p with cwd := o }

theorem fileRefs_setFd (proc : P → Proc) (p : P) (fd : Fin nofile) (o : Option (Fin nfile)) (f : Fin nfile) :
    fileRefs (setFd proc p fd o) f + (decide ((proc p).ofile fd = some f)).toNat =
      fileRefs proc f + (decide (o = some f)).toNat := by
  have hfun : (fun x : P × Fin nofile => (setFd proc p fd o x.1).ofile x.2) =
      update (fun x : P × Fin nofile => (proc x.1).ofile x.2) (p, fd) o := by
    funext ⟨q, e⟩
    by_cases hq : q = p
    · subst hq
      by_cases he : e = fd
      · simp [setFd, he]
      · simp [setFd, he]
    · simp [setFd, hq]
  unfold fileRefs
  rw [hfun]
  exact count_update _ _ (p, fd) o

theorem fileRefs_setCwd (proc : P → Proc) (p : P) (o : Option Iptr) (f : Fin nfile) :
    fileRefs (setCwd proc p o) f = fileRefs proc f := by
  have hfun : (fun x : P × Fin nofile => (setCwd proc p o x.1).ofile x.2) =
      fun x : P × Fin nofile => (proc x.1).ofile x.2 := by
    funext ⟨q, e⟩
    by_cases hq : q = p
    · subst hq
      simp [setCwd]
    · simp [setCwd, hq]
  unfold fileRefs
  rw [hfun]

theorem inodeRefs_setFd (ftable : Fin nfile → File) (proc : P → Proc) (p : P) (fd : Fin nofile)
    (o : Option (Fin nfile)) (ip : Iptr) : inodeRefs ftable (setFd proc p fd o) ip = inodeRefs ftable proc ip := by
  unfold inodeRefs
  rw [count_congr (f := setFd proc p fd o) (g := proc)]
  intro q
  by_cases hq : q = p
  · subst hq
    simp [setFd]
  · simp [setFd, hq]

theorem inodeRefs_setCwd (ftable : Fin nfile → File) (proc : P → Proc) (p : P) (o : Option Iptr) (ip : Iptr) :
    inodeRefs ftable (setCwd proc p o) ip + (decide ((proc p).cwd = some ip)).toNat =
      inodeRefs ftable proc ip + (decide (o = some ip)).toNat := by
  have hupdate : count (setCwd proc p o) (fun q => decide (q.cwd = some ip)) + (decide ((proc p).cwd = some ip)).toNat =
      count proc (fun q => decide (q.cwd = some ip)) + (decide (o = some ip)).toNat :=
    count_update proc _ p { proc p with cwd := o }
  unfold inodeRefs
  omega

omit [Fintype P] [DecidableEq P] in
theorem count_cons_toNat {α : Type} [DecidableEq α] (a b : α) (l : List α) :
    (a :: l).count b = l.count b + (decide (some a = some b)).toNat := by
  by_cases h : a = b
  · subst h
    simp
  · simp [h]

namespace Busy

theorem assign (h : Busy real proc R (f :: F) s) (hfd : (proc p).ofile fd = none) :
    Busy real (setFd proc p fd (some f)) R F s := by
  refine ⟨h.real, fun ip => ?_, h.distinct, fun g => ?_, h.closed⟩
  · rw [inodeRefs_setFd]
    exact h.inode ip
  · have hset := fileRefs_setFd proc p fd (some f) g
    simp only [hfd, reduceCtorEq, decide_false, Bool.toNat_false, Nat.add_zero] at hset
    have hg := h.file g
    rw [count_cons_toNat] at hg
    omega

theorem unassign (h : Busy real proc R F s) (hfd : (proc p).ofile fd = some f) :
    Busy real (setFd proc p fd none) R (f :: F) s := by
  refine ⟨h.real, fun ip => ?_, h.distinct, fun g => ?_, h.closed⟩
  · rw [inodeRefs_setFd]
    exact h.inode ip
  · have hset := fileRefs_setFd proc p fd none g
    simp only [hfd, reduceCtorEq, decide_false, Bool.toNat_false, Nat.add_zero] at hset
    have hg := h.file g
    rw [count_cons_toNat]
    omega

theorem enter (h : Busy real proc (ip :: R) F s) (hp : (proc p).cwd = none) :
    Busy real (setCwd proc p (some ip)) R F s := by
  refine ⟨h.real, fun jp => ?_, h.distinct, fun g => ?_, h.closed⟩
  · have hset := inodeRefs_setCwd s.ftable proc p (some ip) jp
    simp only [hp, reduceCtorEq, decide_false, Bool.toNat_false, Nat.add_zero] at hset
    have hj := h.inode jp
    rw [count_cons_toNat] at hj
    omega
  · rw [fileRefs_setCwd]
    exact h.file g

theorem leave (h : Busy real proc R F s) (hp : (proc p).cwd = some ip) :
    Busy real (setCwd proc p none) (ip :: R) F s := by
  refine ⟨h.real, fun jp => ?_, h.distinct, fun g => ?_, h.closed⟩
  · have hset := inodeRefs_setCwd s.ftable proc p none jp
    simp only [hp, reduceCtorEq, decide_false, Bool.toNat_false, Nat.add_zero] at hset
    have hj := h.inode jp
    rw [count_cons_toNat]
    omega
  · rw [fileRefs_setCwd]
    exact h.file g

end Busy

end

namespace Busy

theorem shows {real' : P → Proc} (h : Busy real proc R F s) (ht : t = { s with proc := real' }) :
    Busy real' proc R F t := by
  subst ht
  exact ⟨rfl, h.inode, h.distinct, h.file, h.closed⟩

/-! ## Files -/

theorem setFile {S : List Iptr} {G : List (Fin nfile)} (h : Busy real proc R F s) {x : File}
    (hG : ∀ g, g ≠ f → G.count g = F.count g) (hx : x.ref = (G.count f + fileRefs proc f : Nat))
    (hclosed : x.ref = 0 → x.type = .none)
    (hS : ∀ ip, S.count ip + (decide (x.type = .inode ∧ x.ip = ip)).toNat =
      R.count ip + (decide ((s.ftable f).type = .inode ∧ (s.ftable f).ip = ip)).toNat) :
    Busy real proc S G { s with ftable := update s.ftable f x } := by
  refine ⟨h.real, fun jp => ?_, h.distinct, fun g => ?_, fun g hg => ?_⟩
  · have hupdate := count_update s.ftable (fun y => decide (y.type = .inode ∧ y.ip = jp)) f x
    have hj := h.inode jp
    have hjp := hS jp
    unfold inodeRefs at hj ⊢
    simp only at hupdate ⊢
    omega
  · by_cases hgf : g = f
    · subst hgf
      simpa using hx
    · simpa [hgf, hG g hgf] using h.file g
  · by_cases hgf : g = f
    · subst hgf
      simp only [update_self] at hg ⊢
      exact hclosed hg
    · simp only [update_of_ne hgf] at hg ⊢
      exact h.closed g hg

end Busy

theorem filealloc_counts (h : Busy real proc R F s) : Ends Anyhow filealloc (fun o t =>
    Busy real proc R (o.toList ++ F) t ∧ ∀ f ∈ o, ((t.ftable f).type = .none ∧ (t.ftable f).ref ≠ 0) ∧
      (s.ftable f).ref = 0 ∧ ∀ g, g ≠ f → t.ftable g = s.ftable g) s := by
  unfold filealloc
  apply ends_get_bind
  split
  case h_1 => exact ends_pure ⟨h, nofun⟩
  case h_2 f hf =>
    have hzero : (s.ftable f).ref = 0 := by simpa using List.find?_some hf
    have hnone := h.closed f hzero
    refine ends_modify_bind (ends_pure ⟨?_, fun g hg => ?_⟩)
    · refine h.setFile (fun g hg => List.count_cons_of_ne hg.symm) ?_ nofun fun ip => by simp [hnone]
      have hf := h.file f
      rw [hzero] at hf
      simp only [Option.toList_some, List.cons_append, List.nil_append, List.count_cons_self]
      push_cast at hf ⊢
      omega
    · cases hg
      exact ⟨⟨by simpa using hnone, by simp⟩, hzero, fun g hg => by simp [hg]⟩

theorem filedup_counts (h : Busy real proc R F s) (f : Fin nfile) :
    Ends Anyhow (filedup f) (fun _ t => Busy real proc R (f :: F) t) s := by
  unfold filedup
  apply ends_get_bind
  refine ends_ite (fun _ => ends_stop trivial) fun hpos => ends_modify ?_
  refine h.setFile (fun g hg => List.count_cons_of_ne hg.symm) ?_ (fun hzero => ?_) fun ip => rfl
  · have hf := h.file f
    simp only [List.count_cons_self]
    push_cast at hf ⊢
    omega
  · simp only at hzero
    omega

theorem fileclose_counts (h : Busy real proc R (f :: F) s) :
    Ends Anyhow (fileclose f) (fun _ t => Busy real proc R F t) s := by
  have hf := h.file f
  rw [List.count_cons_self] at hf
  have hother : ∀ g, g ≠ f → F.count g = (f :: F).count g := fun g hg => (List.count_cons_of_ne hg.symm).symm
  unfold fileclose
  apply ends_get_bind
  refine ends_ite (fun _ => ends_stop trivial) fun hpos => ends_ite (fun hmore => ends_modify ?_) fun hlast => ?_
  · refine h.setFile hother ?_ (fun hzero => ?_) fun ip => rfl
    · push_cast at hf ⊢
      omega
    · simp only at hzero
      omega
  · apply ends_modify_bind
    have hzero : (0 : Int) = (F.count f + fileRefs proc f : Nat) := by
      push_cast at hf ⊢
      omega
    split
    case h_1 htype => exact ends_pure (h.setFile hother hzero (fun _ => rfl) fun ip => by simp [htype])
    case h_2 htype => exact ends_pure (h.setFile hother hzero (fun _ => rfl) fun ip => by simp [htype])
    case h_3 htype =>
      have hip : Busy real proc ((s.ftable f).ip :: R) F
          { s with ftable := update s.ftable f { s.ftable f with ref := 0, type := .none } } := by
        refine h.setFile hother hzero (fun _ => rfl) fun ip => ?_
        rw [count_cons_toNat]
        simp [htype]
      refine hip.after beginOp_quiet fun _ t ht => ?_
      exact Ends.bind (iput_tally ht) fun _ t ht => ht.keeps endOp_quiet

theorem fdalloc_counts [DecidableEq P] (h : Busy real proc R F s) (p : P) (f : Fin nfile) :
    Ends Anyhow (fdalloc p f) (fun o t => match o with
    | none => t = s
    | some fd => (real p).ofile fd = none ∧ t = { s with proc := setFd real p fd (some f) }) s := by
  unfold fdalloc
  apply ends_get_bind
  split
  case h_1 => exact ends_pure rfl
  case h_2 fd hfd =>
    have hnone := List.find?_some hfd
    simp only [decide_eq_true_eq] at hnone
    refine ends_modify_bind (ends_pure ⟨?_, ?_⟩)
    · rw [← h.real]
      exact hnone
    · rw [← h.real]
      rfl

/-! ## System calls on paths -/

def Gone (proc : P → Proc) : Prop := ∀ p, (proc p).cwd = none → ∀ fd, (proc p).ofile fd = none

def Idle (s : State P) : Prop := ∃ proc, Busy proc proc [] [] s ∧ Gone proc

theorem endOp_idle (h : Busy proc proc [] [] s) (hgone : Gone proc) (r : Int) :
    Ends Anyhow (do endOp; pure r) (fun _ t => Idle t) s :=
  h.after endOp_quiet fun _ _ ht => ends_pure ⟨proc, ht, hgone⟩

theorem iunlockput_idle (h : Busy proc proc [ip] [] s) (hgone : Gone proc) (r : Int) :
    Ends Anyhow (do iunlockput ip; endOp; pure r) (fun _ t => Idle t) s :=
  Ends.bind (iunlockput_tally h) fun _ _ ht => endOp_idle ht hgone r

theorem makeNode_counts (h : Busy proc proc [] [] s) (hgone : Gone proc) (p : P) (path : List Byte)
    (type major minor : Half) : Ends Anyhow (makeNode p path type major minor) (fun _ t => Idle t) s := by
  unfold makeNode
  refine h.after beginOp_quiet fun _ t ht => ?_
  refine Ends.bind (create_tally ht p path type major minor) fun o t ht => ?_
  cases o with
  | none => exact endOp_idle ht hgone (-1)
  | some ip => exact iunlockput_idle ht hgone 0

theorem linkBad_counts (h : Busy proc proc [ip] [] s) (hgone : Gone proc) :
    Ends Anyhow (linkBad ip) (fun _ t => Idle t) s := by
  unfold linkBad
  refine h.after (ilock_quiet ip) fun _ t ht => ?_
  refine ht.after (onCopy_quiet ip _) fun _ t ht => ?_
  exact ht.after (iupdate_quiet ip) fun _ t ht => iunlockput_idle ht hgone (-1)

theorem sysLink_counts (h : Busy proc proc [] [] s) (hgone : Gone proc) (p : P) (old new : List Byte) :
    Ends Anyhow (sysLink p old new) (fun _ t => Idle t) s := by
  unfold sysLink
  refine h.after beginOp_quiet fun _ t ht => ?_
  refine Ends.bind (namei_tally ht p old) fun o t ht => ?_
  cases o with
  | none => exact endOp_idle ht hgone (-1)
  | some ip =>
    refine Busy.after ht (ilock_quiet ip) fun _ t ht => ?_
    refine ht.after (inodeAt_quiet ip) fun i t ht => ?_
    refine ends_ite (fun _ => iunlockput_idle ht hgone (-1)) fun _ => ?_
    refine ht.after (onCopy_quiet ip _) fun _ t ht => ?_
    refine ht.after (iupdate_quiet ip) fun _ t ht => ?_
    refine ht.after (iunlock_quiet ip) fun _ t ht => ?_
    refine Ends.bind (namex_tally ht p new true) fun o t ht => ?_
    cases o with
    | none => exact linkBad_counts ht hgone
    | some r =>
      obtain ⟨dp, name⟩ := r
      refine Busy.after ht (ilock_quiet dp) fun _ t ht => ?_
      refine Ends.bind (dirlink_tally ht dp name _) fun r t ht => ?_
      refine Ends.bind (iunlockput_tally ht) fun _ t ht => ?_
      refine ends_ite (fun _ => linkBad_counts ht hgone) fun _ => ?_
      exact Ends.bind (iput_tally ht) fun _ t ht => endOp_idle ht hgone 0

theorem unlinkEntry_counts {dp : Iptr} (h : Busy proc proc [ip, dp] [] s) (hgone : Gone proc) (off : Nat) :
    Ends Anyhow (unlinkEntry dp ip off) (fun _ t => Idle t) s := by
  have hlast : ∀ {s : State P}, Busy proc proc [ip, dp] [] s → Ends Anyhow (do
      iunlockput dp
      onCopy ip fun d => { d with nlink := d.nlink - 1 }
      iupdate ip
      iunlockput ip
      endOp
      pure (0 : Int)) (fun _ t => Idle t) s := by
    intro s h
    refine Ends.bind (iunlockput_tally h.swap) fun _ t ht => ?_
    refine ht.after (onCopy_quiet ip _) fun _ t ht => ?_
    exact ht.after (iupdate_quiet ip) fun _ t ht => iunlockput_idle ht hgone 0
  have hclear : ∀ {s : State P} {i : Inode} (empty : Bool), Busy proc proc [ip, dp] [] s → Ends Anyhow (
      if ¬empty then do
        iunlockput ip
        unlinkBad dp
      else do
        let r ← writei dp (List.replicate direntSize 0) (.ofNat 32 off) (.ofNat 32 direntSize)
        if r ≠ direntSize then panic .unlinkWritei
        else do
          if i.copy.type = tDir then do
            onCopy dp fun d => { d with nlink := d.nlink - 1 }
            iupdate dp
          else pure ()
          iunlockput dp
          onCopy ip fun d => { d with nlink := d.nlink - 1 }
          iupdate ip
          iunlockput ip
          endOp
          pure (0 : Int)) (fun _ t => Idle t) s := by
    intro s i empty h
    refine ends_ite (fun _ => ?_) fun _ => ?_
    · exact Ends.bind (iunlockput_tally h) fun _ t ht => iunlockput_idle ht hgone (-1)
    · refine h.after (writei_quiet dp _ _ _) fun r t ht => ends_ite (fun _ => ends_stop trivial) fun _ => ?_
      refine ends_ite (fun _ => ?_) fun _ => hlast ht
      refine ht.after (onCopy_quiet dp _) fun _ t ht => ?_
      exact ht.after (iupdate_quiet dp) fun _ t ht => hlast ht
  unfold unlinkEntry
  refine h.after (ilock_quiet ip) fun _ t ht => ?_
  refine ht.after (inodeAt_quiet ip) fun i t ht => ends_ite (fun _ => ends_stop trivial) fun _ => ?_
  refine ends_ite (fun _ => ?_) fun _ => hclear true ht
  exact ht.after (isdirempty_quiet ip) fun empty t ht => hclear empty ht

theorem sysUnlink_counts (h : Busy proc proc [] [] s) (hgone : Gone proc) (p : P) (path : List Byte) :
    Ends Anyhow (sysUnlink p path) (fun _ t => Idle t) s := by
  unfold sysUnlink
  refine h.after beginOp_quiet fun _ t ht => ?_
  refine Ends.bind (namex_tally ht p path true) fun o t ht => ?_
  cases o with
  | none => exact endOp_idle ht hgone (-1)
  | some r =>
    obtain ⟨dp, name⟩ := r
    refine Busy.after ht (ilock_quiet dp) fun _ t ht => ?_
    refine ends_ite (fun _ => iunlockput_idle ht hgone (-1)) fun _ => ?_
    refine Ends.bind (dirlookup_tally ht dp name) fun o t ht => ?_
    cases o with
    | none => exact iunlockput_idle ht hgone (-1)
    | some r => exact unlinkEntry_counts ht hgone r.2

theorem exec_counts (h : Busy proc proc [] [] s) (hgone : Gone proc) (p : P) (path : List Byte) (mem : Memory) :
    Ends Anyhow (exec p path mem) (fun _ t => Idle t) s := by
  unfold exec
  refine h.after beginOp_quiet fun _ t ht => ?_
  refine Ends.bind (namei_tally ht p path) fun o t ht => ?_
  cases o with
  | none => exact endOp_idle ht hgone (-1)
  | some ip =>
    refine Busy.after ht (ilock_quiet ip) fun _ t ht => ?_
    exact ht.after (loadProgram_quiet ip mem) fun ok t ht => iunlockput_idle ht hgone _

omit [Fintype P] in
theorem setCwd_setCwd [DecidableEq P] (proc : P → Proc) (p : P) (a b : Option Iptr) :
    setCwd (setCwd proc p a) p b = setCwd proc p b := by
  simp [setCwd]

omit [Fintype P] in
theorem Gone.setCwd_some [DecidableEq P] (h : Gone proc) (p : P) (ip : Iptr) : Gone (setCwd proc p (some ip)) := by
  intro q hq fd
  by_cases hqp : q = p
  · subst hqp
    simp [setCwd] at hq
  · simp only [setCwd, update_of_ne hqp] at hq ⊢
    exact h q hq fd

theorem cwd_counts (h : Busy real proc R F s) (p : P) :
    Ends Anyhow (cwd p) (fun ip t => t = s ∧ (real p).cwd = some ip) s := by
  unfold cwd
  apply ends_get_bind
  split
  case h_1 => exact ends_stop trivial
  case h_2 ip hip =>
    rw [h.real] at hip
    exact ends_pure ⟨rfl, hip⟩

theorem sysChdir_counts [DecidableEq P] (h : Busy proc proc [] [] s) (hgone : Gone proc) (p : P) (path : List Byte) :
    Ends Anyhow (sysChdir p path) (fun _ t => Idle t) s := by
  unfold sysChdir
  refine h.after beginOp_quiet fun _ t ht => ?_
  refine Ends.bind (namei_tally ht p path) fun o t ht => ?_
  cases o with
  | none => exact endOp_idle ht hgone (-1)
  | some ip =>
    refine Busy.after ht (ilock_quiet ip) fun _ t ht => ?_
    refine ht.after (inodeAt_quiet ip) fun i t ht => ?_
    refine ends_ite (fun _ => iunlockput_idle ht hgone (-1)) fun _ => ?_
    refine ht.after (iunlock_quiet ip) fun _ t ht => ?_
    refine Ends.bind (cwd_counts ht p) fun old t' hold => ?_
    obtain ⟨rfl, hold⟩ := hold
    -- The old directory is put while the process still shows it.
    refine Ends.bind (iput_tally (ht.leave hold)) fun _ t ht => ?_
    refine ht.after endOp_quiet fun _ t ht => ends_modify_bind (ends_pure ?_)
    have hnew := ht.enter (p := p) (by simp [setCwd])
    rw [setCwd_setCwd] at hnew
    refine ⟨_, hnew.shows ?_, hgone.setCwd_some p ip⟩
    rw [← ht.real]
    rfl

/-! ## System calls on descriptors -/

omit [Fintype P] in
theorem Gone.setFd [DecidableEq P] (h : Gone proc) {p : P} (hp : (proc p).cwd ≠ none) (fd : Fin nofile)
    (o : Option (Fin nfile)) : Gone (setFd proc p fd o) := by
  intro q hq e
  by_cases hqp : q = p
  · subst hqp
    simp only [Fs.setFd, update_self] at hq
    exact absurd hq hp
  · simp only [Fs.setFd, update_of_ne hqp] at hq ⊢
    exact h q hq e

theorem argfd_counts (h : Busy real proc R F s) (p : P) (fd : Int) :
    Ends Anyhow (argfd p fd) (fun o t => t = s ∧ ∀ r ∈ o, (real p).ofile r.1 = some r.2) s := by
  unfold argfd
  apply ends_get_bind
  split
  · refine ends_pure ⟨rfl, fun r hr => ?_⟩
    rw [Option.mem_map] at hr
    obtain ⟨f, hf, rfl⟩ := hr
    rw [h.real] at hf
    exact hf
  · exact ends_pure ⟨rfl, nofun⟩

theorem sysDup_counts [DecidableEq P] (h : Busy proc proc [] [] s) (hgone : Gone proc) (hp : (proc p).cwd ≠ none)
    (fd : Int) : Ends Anyhow (sysDup p fd) (fun _ t => Idle t) s := by
  unfold sysDup
  refine Ends.bind (argfd_counts h p fd) fun o t ht => ?_
  obtain ⟨rfl, -⟩ := ht
  cases o with
  | none => exact ends_pure ⟨proc, h, hgone⟩
  | some r =>
    refine Ends.bind (fdalloc_counts h p r.2) fun o u hu => ?_
    cases o with
    | none =>
      subst hu
      exact ends_pure ⟨proc, h, hgone⟩
    | some fd =>
      obtain ⟨hfd, hu⟩ := hu
      refine Ends.bind (filedup_counts (h.shows hu) r.2) fun _ t ht => ends_pure ?_
      exact ⟨_, ht.assign hfd, hgone.setFd hp fd _⟩

theorem sysClose_counts [DecidableEq P] (h : Busy proc proc [] [] s) (hgone : Gone proc) (hp : (proc p).cwd ≠ none)
    (fd : Int) : Ends Anyhow (sysClose p fd) (fun _ t => Idle t) s := by
  unfold sysClose
  refine Ends.bind (argfd_counts h p fd) fun o t ht => ?_
  obtain ⟨rfl, hfd⟩ := ht
  cases o with
  | none => exact ends_pure ⟨proc, h, hgone⟩
  | some r =>
    have hclosed : Busy (setFd proc p r.1 none) _ _ _ _ := (h.unassign (hfd r rfl)).shows
      (t := { t with proc := setFd t.proc p r.1 none }) (by rw [h.real])
    refine ends_modify_bind (Ends.bind (fileclose_counts hclosed) fun _ t ht => ends_pure ?_)
    exact ⟨_, ht, hgone.setFd hp r.1 none⟩

theorem onFile_counts (h : Busy real proc R F s) (f : Fin nfile) {g : File → File}
    (hg : ∀ x, (g x).ref = x.ref ∧ (g x).type = x.type ∧ (g x).ip = x.ip) :
    Ends Anyhow (onFile f g) (fun _ t => Busy real proc R F t) s := by
  refine ends_modify (h.setFile (fun _ _ => rfl) ?_ (fun hzero => ?_) fun ip => ?_)
  · rw [(hg _).1]
    exact h.file f
  · rw [(hg _).1] at hzero
    rw [(hg _).2.1]
    exact h.closed f hzero
  · rw [(hg _).2.1, (hg _).2.2]

theorem sysRead_counts (h : Busy proc proc [] [] s) (hgone : Gone proc) (p : P) (fd : Int) (n : Word) :
    Ends Anyhow (sysRead p fd n) (fun _ t => Idle t) s := by
  unfold sysRead
  refine Ends.bind (argfd_counts h p fd) fun o t ht => ?_
  obtain ⟨rfl, -⟩ := ht
  cases o with
  | none => exact ends_pure ⟨proc, h, hgone⟩
  | some r =>
    refine Ends.bind (R := fun _ t => Busy proc proc [] [] t) ?_ fun o t ht => ?_
    · unfold fileread
      apply ends_get_bind
      refine ends_ite (fun _ => ends_pure h) fun _ => ?_
      split
      case h_1 => exact ends_stop trivial
      case h_2 => exact ends_stop trivial
      case h_3 =>
        refine h.after (ilock_quiet _) fun _ t ht => ?_
        refine ht.after (readi_quiet _ _ n) fun o t ht => ?_
        cases o with
        | none => exact ht.after (iunlock_quiet _) fun _ _ ht => ends_pure ht
        | some bs =>
          refine Ends.bind (onFile_counts ht r.2 ?_) fun _ t ht => ?_
          · exact fun _ => ⟨rfl, rfl, rfl⟩
          · exact ht.after (iunlock_quiet _) fun _ _ ht => ends_pure ht
    · cases o with
      | none => exact ends_pure ⟨proc, ht, hgone⟩
      | some bs => exact ends_pure ⟨proc, ht, hgone⟩

theorem writeChunk_counts (h : Busy real proc R F s) (f : Fin nfile) (src : List Byte) (n : Nat) :
    Ends Anyhow (writeChunk f src n) (fun _ t => Busy real proc R F t) s := by
  unfold writeChunk
  apply ends_get_bind
  refine h.after beginOp_quiet fun _ t ht => ?_
  refine ht.after (ilock_quiet _) fun _ t ht => ?_
  refine ht.after (writei_quiet _ _ _ _) fun r t ht => ?_
  have hend : ∀ {t : State P}, Busy real proc R F t → Ends Anyhow (do
      iunlock (s.ftable f).ip
      endOp
      pure r) (fun _ t => Busy real proc R F t) t := by
    intro t ht
    refine ht.after (iunlock_quiet _) fun _ t ht => ?_
    exact ht.after endOp_quiet fun _ t ht => ends_pure ht
  refine ends_ite (fun _ => ?_) fun _ => hend ht
  refine Ends.bind (onFile_counts ht f ?_) fun _ t ht => hend ht
  exact fun _ => ⟨rfl, rfl, rfl⟩

theorem writeChunks_counts (f : Fin nfile) {fuel : Nat} {src : List Byte} {n : Nat} (h : Busy real proc R F s) :
    Ends Anyhow (writeChunks f fuel src n) (fun _ t => Busy real proc R F t) s := by
  induction fuel generalizing src n s with
  | zero => exact ends_pure h
  | succ fuel ih =>
    unfold writeChunks
    refine ends_ite (fun _ => ends_pure h) fun _ => ?_
    refine Ends.bind (writeChunk_counts h f src _) fun r t ht => ends_ite (fun _ => ends_pure ht) fun _ => ?_
    exact ends_ite (fun _ => ends_stop trivial) fun _ => ih ht

theorem sysWrite_counts (h : Busy proc proc [] [] s) (hgone : Gone proc) (p : P) (fd : Int) (src : List Byte)
    (n : Int) : Ends Anyhow (sysWrite p fd src n) (fun _ t => Idle t) s := by
  unfold sysWrite
  refine Ends.bind (argfd_counts h p fd) fun o t ht => ?_
  obtain ⟨rfl, -⟩ := ht
  cases o with
  | none => exact ends_pure ⟨proc, h, hgone⟩
  | some r =>
    change Ends Anyhow (filewrite r.2 src n) _ _
    unfold filewrite
    apply ends_get_bind
    refine ends_ite (fun _ => ends_pure ⟨proc, h, hgone⟩) fun _ => ?_
    split
    case h_1 => exact ends_stop trivial
    case h_2 => exact ends_stop trivial
    case h_3 => exact Ends.bind (writeChunks_counts r.2 h) fun _ t ht => ends_pure ⟨proc, ht, hgone⟩

/-! ## New files -/

theorem openBad_counts (h : Busy proc proc [ip] [] s) (hgone : Gone proc) :
    Ends Anyhow (openBad ip) (fun _ t => Idle t) s :=
  iunlockput_idle h hgone (-1)

theorem openInode_tally (h : Busy proc proc R F s) (p : P) (path : List Byte) (omode : Word) :
    Ends Anyhow (openInode p path omode) (fun o t => Busy proc proc (o.toList ++ R) F t) s := by
  unfold openInode
  refine ends_ite (fun _ => create_tally h p path tFile 0 0) fun _ => ?_
  refine Ends.bind (namei_tally h p path) fun o t ht => ?_
  cases o with
  | none => exact ends_pure ht
  | some ip =>
    refine Busy.after ht (ilock_quiet ip) fun _ t ht => ?_
    refine ht.after (inodeAt_quiet ip) fun i t ht => ?_
    exact ends_ite (fun _ => Ends.bind (iunlockput_tally ht) fun _ t ht => ends_pure ht) fun _ => ends_pure ht

theorem Busy.untyped_quiet {α : Type} {m : Prog P α} (h : Busy real proc R F s)
    (hf : (s.ftable f).type = .none ∧ (s.ftable f).ref ≠ 0) (hm : Quiet m) :
    Ends Anyhow m (fun _ t => Busy real proc R F t ∧ (t.ftable f).type = .none ∧ (t.ftable f).ref ≠ 0) s := by
  refine (hm s).mono fun _ t ht => ⟨h.quiet ht, ?_⟩
  have hftable : t.ftable = s.ftable := congrArg (fun v => v.2.1) ht
  rw [hftable]
  exact hf

theorem sysOpen_counts [DecidableEq P] (h : Busy proc proc [] [] s) (hgone : Gone proc) (hp : (proc p).cwd ≠ none)
    (path : List Byte) (omode : Word) : Ends Anyhow (sysOpen p path omode) (fun _ t => Idle t) s := by
  unfold sysOpen
  refine h.after beginOp_quiet fun _ t ht => ?_
  refine Ends.bind (openInode_tally ht p path omode) fun o t ht => ?_
  cases o with
  | none => exact endOp_idle ht hgone (-1)
  | some ip =>
    refine Ends.bind (filealloc_counts ht) fun o t ht => ?_
    obtain ⟨ht, hnew⟩ := ht
    cases o with
    | none => exact openBad_counts ht hgone
    | some f =>
      obtain ⟨huntyped, -, -⟩ := hnew f rfl
      refine Ends.bind (fdalloc_counts ht p f) fun o u hu => ?_
      cases o with
      | none =>
        subst hu
        exact Ends.bind (fileclose_counts ht) fun _ t ht => openBad_counts ht hgone
      | some fd =>
        obtain ⟨hfd, hu⟩ := hu
        have hftable : u.ftable = t.ftable := by rw [hu]
        refine Ends.bind (((ht.shows hu).assign hfd).untyped_quiet (hftable ▸ huntyped) (iunlock_quiet ip))
          fun _ t ht => ?_
        refine Ends.bind (ht.1.untyped_quiet ht.2 endOp_quiet) fun _ t ht => ?_
        obtain ⟨ht, htype, href⟩ := ht
        refine ends_modify_bind (ends_pure ⟨_, ht.setFile (fun _ _ => rfl) ?_ ?_ ?_, hgone.setFd hp fd _⟩)
        · exact ht.file f
        · exact fun hzero => absurd hzero href
        · intro jp
          by_cases hj : ip = jp
          · subst hj
            simp [htype]
          · simp [htype, hj]

theorem Busy.setPipe (h : Busy real proc R F s) (hf : (s.ftable f).type = .none ∧ (s.ftable f).ref ≠ 0) (r w : Bool) :
    Busy real proc R F { s with
      ftable := update s.ftable f { s.ftable f with type := .pipe, readable := r, writable := w } } := by
  refine h.setFile (fun _ _ => rfl) (h.file f) (fun hzero => absurd hzero hf.2) fun ip => ?_
  simp [hf.1]

theorem pipealloc_counts (h : Busy real proc R [] s) (page : Bool) : Ends Anyhow (pipealloc page) (fun o t =>
    Busy real proc R (match o with | none => [] | some (f0, f1) => [f1, f0]) t) s := by
  unfold pipealloc
  refine Ends.bind (filealloc_counts h) fun o t ht => ?_
  obtain ⟨ht, hnew⟩ := ht
  cases o with
  | none => exact ends_pure ht
  | some f0 =>
    obtain ⟨huntyped0, -, -⟩ := hnew f0 rfl
    refine Ends.bind (filealloc_counts ht) fun o u hu => ?_
    obtain ⟨hu, hnew⟩ := hu
    cases o with
    | none => exact Ends.bind (fileclose_counts hu) fun _ t ht => ends_pure ht
    | some f1 =>
      obtain ⟨huntyped1, hzero, hold⟩ := hnew f1 rfl
      have hne : f0 ≠ f1 := by
        rintro rfl
        exact huntyped0.2 hzero
      refine ends_ite (fun _ => ?_) fun _ => ?_
      · refine ends_modify_bind (ends_modify_bind (ends_pure ?_))
        have hfirst := Busy.setPipe hu (f := f0) (by rw [hold f0 hne]; exact huntyped0) true false
        exact hfirst.setPipe (by simpa [hne.symm] using huntyped1) false true
      · refine Ends.bind (fileclose_counts (hu.perm (.refl R) (.swap f0 f1 []))) fun _ t ht => ?_
        exact Ends.bind (fileclose_counts ht) fun _ t ht => ends_pure ht

theorem pipeBad_counts {rf wf : Fin nfile} (h : Busy proc proc [] [rf, wf] s) (hgone : Gone proc) :
    Ends Anyhow (pipeBad rf wf) (fun _ t => Idle t) s :=
  Ends.bind (fileclose_counts h) fun _ _ ht => Ends.bind (fileclose_counts ht) fun _ _ ht =>
    ends_pure ⟨proc, ht, hgone⟩

omit [Fintype P] in
@[simp]
theorem setFd_cwd [DecidableEq P] (proc : P → Proc) (p q : P) (fd : Fin nofile) (o : Option (Fin nfile)) :
    (setFd proc p fd o q).cwd = (proc q).cwd := by
  by_cases hq : q = p
  · subst hq
    simp [setFd]
  · simp [setFd, hq]

omit [Fintype P] in
theorem setFd_ofile [DecidableEq P] (proc : P → Proc) (p q : P) (fd e : Fin nofile) (o : Option (Fin nfile)) :
    (setFd proc p fd o q).ofile e = if q = p ∧ e = fd then o else (proc q).ofile e := by
  by_cases hq : q = p
  · subst hq
    by_cases he : e = fd
    · simp [setFd, he]
    · simp [setFd, he]
  · simp [setFd, hq]

theorem sysPipe_counts [DecidableEq P] (h : Busy proc proc [] [] s) (hgone : Gone proc) (hp : (proc p).cwd ≠ none)
    (page : Bool) : Ends Anyhow (sysPipe p page) (fun _ t => Idle t) s := by
  unfold sysPipe
  refine Ends.bind (pipealloc_counts h page) fun o t ht => ?_
  cases o with
  | none => exact ends_pure ⟨proc, ht, hgone⟩
  | some r =>
    obtain ⟨rf, wf⟩ := r
    replace ht : Busy proc proc [] [rf, wf] t := ht.perm (.refl []) (.swap rf wf [])
    refine Ends.bind (fdalloc_counts ht p rf) fun o u hu => ?_
    cases o with
    | none =>
      subst hu
      exact pipeBad_counts ht hgone
    | some fd0 =>
      obtain ⟨hfd, hu⟩ := hu
      have hfirst := (ht.shows hu).assign hfd
      have hgone0 := hgone.setFd hp fd0 (some rf)
      refine Ends.bind (fdalloc_counts hfirst p wf) fun o w hw => ?_
      cases o with
      | none =>
        subst hw
        have hback := hfirst.unassign (show (setFd proc p fd0 (some rf) p).ofile fd0 = some rf by simp [setFd_ofile])
        refine ends_modify_bind (pipeBad_counts (hback.shows ?_) (hgone0.setFd (by simpa using hp) fd0 none))
        rw [← hfirst.real]
        rfl
      | some fd1 =>
        obtain ⟨hfd1, hw⟩ := hw
        exact ends_pure ⟨_, (hfirst.shows hw).assign hfd1, hgone0.setFd (by simpa using hp) fd1 _⟩

/-! ## Processes -/

structure Forking (orig : P → Proc) (p child : P) (rest : List (Fin nofile)) (now : P → Proc) : Prop where
  cwd : ∀ q, (now q).cwd = (orig q).cwd
  ofile : ∀ q fd, q ≠ child ∨ fd ∈ rest → (now q).ofile fd = (orig q).ofile fd

theorem fork_counts [DecidableEq P] (h : Busy proc proc [] [] s) (hgone : Gone proc) (hp : (proc p).cwd ≠ none)
    (child : P) : Ends Anyhow (fork p child) (fun _ t => Idle t) s := by
  unfold fork
  apply ends_get_bind
  rw [h.real]
  refine ends_ite (fun _ => ends_pure ⟨proc, h, hgone⟩) fun hchild => ?_
  have hnone : (proc child).cwd = none := by simpa using hchild
  have hne : p ≠ child := by
    rintro rfl
    exact hp hnone
  refine Ends.bind (ends_forM (f := forkFile p child)
    (I := fun rest t => rest.Nodup ∧ ∃ now, Busy now now [] [] t ∧ Forking proc p child rest now)
    ⟨List.nodup_finRange _, proc, h, fun _ => rfl, fun _ _ _ => rfl⟩ fun fd rest t ht => ?_) fun _ t ht => ?_
  · obtain ⟨hnodup, now, ht, hfork⟩ := ht
    rw [List.nodup_cons] at hnodup
    have hrest : Forking proc p child rest now :=
      ⟨hfork.cwd, fun q e he => hfork.ofile q e (he.imp_right (List.mem_cons_of_mem fd))⟩
    unfold forkFile
    apply ends_get_bind
    split
    case h_1 => exact ends_pure ⟨hnodup.2, now, ht, hrest⟩
    case h_2 f hf =>
      have hfree : (now child).ofile fd = none := by
        rw [hfork.ofile child fd (.inr (by simp))]
        exact hgone child hnone fd
      refine Ends.bind (filedup_counts ht f) fun _ t ht => ends_modify ⟨hnodup.2, _, (ht.assign hfree).shows ?_, ?_, ?_⟩
      · rw [← ht.real]
        rfl
      · intro q
        simpa using hfork.cwd q
      · intro q e he
        rw [setFd_ofile, if_neg]
        · exact hrest.ofile q e he
        · rintro ⟨rfl, rfl⟩
          exact he.elim (fun hq => hq rfl) hnodup.1
  · obtain ⟨-, now, ht, hfork⟩ := ht
    refine Ends.bind (cwd_counts ht p) fun ip t' hip => ?_
    obtain ⟨rfl, hip⟩ := hip
    refine ends_modify_bind (ends_modify_bind (ends_pure ⟨_, Busy.shows (Busy.enter (ht.share (ht.cwd_pos hip))
      (p := child) (by rw [hfork.cwd, hnone])) ?_, ?_⟩))
    · rw [← ht.real]
      rfl
    · intro q hq fd
      by_cases hqc : q = child
      · subst hqc
        simp [setCwd] at hq
      · simp only [setCwd, update_of_ne hqc] at hq ⊢
        rw [hfork.cwd] at hq
        rw [hfork.ofile q fd (.inl hqc)]
        exact hgone q hq fd

structure Exiting (orig : P → Proc) (p : P) (rest : List (Fin nofile)) (now : P → Proc) : Prop where
  cwd : ∀ q, (now q).cwd = (orig q).cwd
  other : ∀ q fd, q ≠ p → (now q).ofile fd = (orig q).ofile fd
  closed : ∀ fd, fd ∉ rest → (now p).ofile fd = none

theorem exit_counts [DecidableEq P] (h : Busy proc proc [] [] s) (hgone : Gone proc) (p : P) :
    Ends Anyhow (exit p) (fun _ t => Idle t) s := by
  unfold exit
  refine Ends.bind (ends_forM (f := exitFile p)
    (I := fun rest t => ∃ now, Busy now now [] [] t ∧ Exiting proc p rest now)
    ⟨proc, h, fun _ => rfl, fun _ _ _ => rfl, fun fd hfd => absurd (List.mem_finRange fd) hfd⟩
    fun fd rest t ht => ?_) fun _ t ht => ?_
  · obtain ⟨now, ht, hexit⟩ := ht
    unfold exitFile
    apply ends_get_bind
    split
    case h_1 hnone =>
      rw [ht.real] at hnone
      refine ends_pure ⟨now, ht, hexit.cwd, hexit.other, fun e he => ?_⟩
      by_cases hef : e = fd
      · rw [hef, hnone]
      · exact hexit.closed e (by simp [hef, he])
    case h_2 f hf =>
      rw [ht.real] at hf
      -- The file is closed while the descriptor still shows it.
      refine Ends.bind (fileclose_counts (ht.unassign hf)) fun _ t ht => ends_modify ⟨_, ht.shows ?_, ?_, ?_, ?_⟩
      · rw [← ht.real]
        rfl
      · intro q
        simpa using hexit.cwd q
      · intro q e hq
        rw [setFd_ofile, if_neg (fun hqe => hq hqe.1)]
        exact hexit.other q e hq
      · intro e he
        rw [setFd_ofile]
        split
        · rfl
        case isFalse hne =>
          exact hexit.closed e (by simp only [List.mem_cons, not_or]; exact ⟨fun h => hne ⟨rfl, h⟩, he⟩)
  · obtain ⟨now, ht, hexit⟩ := ht
    refine ht.after beginOp_quiet fun _ t ht => ?_
    refine Ends.bind (cwd_counts ht p) fun ip t' hip => ?_
    obtain ⟨rfl, hip⟩ := hip
    refine Ends.bind (iput_tally (ht.leave hip)) fun _ t ht => ?_
    refine ht.after endOp_quiet fun _ t ht => ends_modify_bind (ends_pure ⟨_, ht.shows ?_, ?_⟩)
    · rw [← ht.real]
      rfl
    · intro q hq fd
      by_cases hqp : q = p
      · subst hqp
        simpa [setCwd] using hexit.closed fd (by simp)
      · simp only [setCwd, update_of_ne hqp] at hq ⊢
        rw [hexit.cwd] at hq
        rw [hexit.other q fd hqp]
        exact hgone q hq fd

/-! ## Runs -/

theorem Idle.step [DecidableEq P] {a : P × Call P} (h : Idle s) (hstep : step s a = some t) : Idle t := by
  obtain ⟨proc, h, hgone⟩ := h
  obtain ⟨p, c⟩ := a
  unfold Fs.step at hstep
  split at hstep
  · cases hstep
  case isFalse hp =>
    rw [h.real] at hp
    have hcall : Ends Anyhow (syscall p c) (fun _ t => Idle t) s := by
      cases c with
      | «open» path omode => exact sysOpen_counts h hgone hp path omode
      | mkdir path => exact makeNode_counts h hgone p path tDir 0 0
      | mknod path major minor => exact makeNode_counts h hgone p path tDev major minor
      | link old new => exact sysLink_counts h hgone p old new
      | unlink path => exact sysUnlink_counts h hgone p path
      | chdir path => exact sysChdir_counts h hgone p path
      | read fd n => exact sysRead_counts h hgone p fd n
      | write fd src n _ => exact sysWrite_counts h hgone p fd src n
      | dup fd => exact sysDup_counts h hgone hp fd
      | close fd => exact sysClose_counts h hgone hp fd
      | pipe page => exact sysPipe_counts h hgone hp page
      | exec path mem => exact exec_counts h hgone p path mem
      | fork child => exact fork_counts h hgone hp child
      | exit => exact exit_counts h hgone p
    split at hstep
    case h_1 r u hu =>
      cases hstep
      exact hcall.of_ok hu
    case h_2 => cases hstep

structure Boot [DecidableEq P] (init : P) (root : Iptr) (s : State P) : Prop where
  file : ∀ f, (s.ftable f).ref = 0 ∧ (s.ftable f).type = .none
  ofile : ∀ p fd, (s.proc p).ofile fd = none
  cwd : ∀ p, (s.proc p).cwd = if p = init then some root else none
  inum : (s.icache root).inum = rootino
  ref : ∀ ip, (s.icache ip).ref = if ip = root then 1 else 0

theorem Boot.counted [DecidableEq P] {init : P} {root : Iptr} (h : Boot init root s) : Counted s := by
  have hfiles : ∀ ip, (count s.ftable fun f => decide (f.type = .inode ∧ f.ip = ip)) = 0 := by
    intro ip
    rw [count_eq_zero]
    intro f
    simp [(h.file f).2]
  have hcwd : ∀ ip, (count s.proc fun p => decide (p.cwd = some ip)) = if ip = root then 1 else 0 := by
    intro ip
    split
    case isTrue hip =>
      refine Nat.le_antisymm (count_le_one.mpr fun p q hp hq => ?_) (count_pos (p := init) ?_)
      · have hinit : ∀ p, decide ((s.proc p).cwd = some ip) = true → p = init := by
          intro p hp
          by_contra hne
          simp [h.cwd, hne] at hp
        rw [hinit p hp, hinit q hq]
      · simp [h.cwd, hip]
    case isFalse hip =>
      rw [count_eq_zero]
      intro p
      by_cases hp : p = init
      · simp [h.cwd, hp, Ne.symm hip]
      · simp [h.cwd, hp]
  refine ⟨fun f => ?_, fun ip => ?_, fun f _ => (h.file f).2, fun ip jp hi hj _ => ?_⟩
  · have hnone : fileRefs s.proc f = 0 := by
      unfold fileRefs
      rw [count_eq_zero]
      intro x
      simp [h.ofile]
    rw [(h.file f).1, hnone]
    rfl
  · rw [h.ref, inodeRefs, hfiles, hcwd]
    split
    · rfl
    · rfl
  · have hroot : ∀ ip, 0 < (s.icache ip).ref → ip = root := by
      intro ip hip
      by_contra hne
      rw [h.ref, if_neg hne] at hip
      exact absurd hip (by decide)
    rw [hroot ip hi, hroot jp hj]

/-- From boot on, every call leaves the counts right, whatever is on the disk. -/
theorem references_counted [DecidableEq P] {init : P} {root : Iptr} (h : Boot init root s) {as : List (P × Call P)}
    (hrun : run step s as = some t) : Counted t := by
  have hidle : Idle s := ⟨s.proc, counted_iff.mp h.counted, fun p _ fd => h.ofile p fd⟩
  obtain ⟨proc, ht, -⟩ := run_invariant (fun _ _ _ hs hstep => hs.step hstep) hidle hrun
  rw [counted_iff, ht.real]
  exact ht

def bootState : State (Fin 2) where
  sb := mkfsSuper
  disk := fileImage
  icache := fun ip => if ip = 0 then ⟨rootino, 1, false, false, .zero⟩ else ⟨0, 0, false, false, .zero⟩
  ftable := fun _ => ⟨.none, 0, false, false, 0, 0⟩
  proc := fun p => ⟨fun _ => none, if p = 0 then some 0 else none⟩
  log := ⟨0, false, []⟩
  logged := []
  txns := []

theorem bootState_boot : Boot 0 0 bootState := by
  refine ⟨fun _ => ⟨rfl, rfl⟩, fun _ _ => rfl, fun _ => rfl, rfl, fun ip => ?_⟩
  by_cases h : ip = 0
  · simp [bootState, h]
  · simp [bootState, h]

def openAndFork : List (Fin 2 × Call (Fin 2)) :=
  [(0, .open [102] oRdonly), (0, .fork 1), (1, .dup 0), (1, .pipe false), (1, .chdir [47]), (1, .exit)]

theorem openAndFork_counted : ∃ t, run step bootState openAndFork = some t ∧ Counted t := by
  have hrun : (run step bootState openAndFork).isSome = true := by decide +kernel
  obtain ⟨t, ht⟩ := Option.isSome_iff_exists.mp hrun
  exact ⟨t, ht, references_counted bootState_boot ht⟩

end Xv6.Fs
