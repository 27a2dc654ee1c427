import Xv6.Fs.Spec

/-!
# Code that leaves the references alone

Most of `fs.c` changes the disk and the copies of inodes only.
-/

open Xv6.Bytes Xv6.Log Xv6.Code

namespace Xv6.Fs

variable {P : Type}

def State.refs (s : State P) : (Iptr → Int × Nat) × (Fin nfile → File) × (P → Proc) :=
  (fun ip => ((s.icache ip).ref, (s.icache ip).inum), s.ftable, s.proc)

abbrev Quiet {α : Type} (m : Prog P α) : Prop := Keeps State.refs m

theorem onInode_quiet (ip : Iptr) {f : Inode → Inode} (hf : ∀ i, (f i).ref = i.ref ∧ (f i).inum = i.inum) :
    Quiet (onInode ip f : Prog P Unit) := by
  refine keeps_modify fun s => ?_
  have hentry : ∀ jp, ((Function.update s.icache ip (f (s.icache ip)) jp).ref,
      (Function.update s.icache ip (f (s.icache ip)) jp).inum) = ((s.icache jp).ref, (s.icache jp).inum) := by
    intro jp
    by_cases hj : jp = ip
    · subst hj
      simp [hf]
    · simp [hj]
  simp only [State.refs, hentry]

theorem onCopy_quiet (ip : Iptr) (f : Dinode → Dinode) : Quiet (onCopy ip f : Prog P Unit) := by
  refine onInode_quiet ip ?_
  exact fun _ => ⟨rfl, rfl⟩

theorem inodeAt_quiet (ip : Iptr) : Quiet (inodeAt ip : Prog P Inode) := keeps_get.bind fun _ => keeps_pure _

theorem setBuf_quiet (b : Nat) (data : Block) : Quiet (setBuf b data : Prog P Unit) := keeps_modify fun _ => rfl

theorem readsb_quiet : Quiet (readsb : Prog P Unit) := keeps_modify fun _ => rfl

/-! ## Transactions -/

theorem beginOp_quiet : Quiet (beginOp : Prog P Unit) := by
  refine keeps_get.bind fun s => ?_
  split
  · exact keeps_stop _
  · exact keeps_modify fun _ => rfl

theorem logWrite_quiet (b : Nat) : Quiet (logWrite b : Prog P Unit) := by
  refine keeps_get.bind fun s => ?_
  split
  · exact keeps_stop _
  · exact keeps_modify fun _ => rfl

theorem endOp_quiet : Quiet (endOp : Prog P Unit) := by
  refine keeps_get.bind fun s => ?_
  split
  · exact keeps_stop _
  · exact keeps_modify fun _ => rfl

/-! ## Blocks -/

theorem write_quiet (b : Nat) (data : Block) : Quiet (do setBuf b data; logWrite b : Prog P Unit) :=
  (setBuf_quiet b data).bind fun _ => logWrite_quiet b

theorem balloc_quiet : Quiet (balloc : Prog P Nat) := by
  refine keeps_get.bind fun s => ?_
  split
  · exact keeps_stop _
  · exact (setBuf_quiet _ _).bind fun _ => (logWrite_quiet _).bind fun _ =>
      (write_quiet _ _).bind fun _ => keeps_pure _

theorem bfree_quiet (b : Nat) : Quiet (bfree b : Prog P Unit) := by
  refine readsb_quiet.bind fun _ => keeps_get.bind fun s => ?_
  exact keeps_ite (write_quiet _ _) (keeps_stop _)

theorem iupdate_quiet (ip : Iptr) : Quiet (iupdate ip : Prog P Unit) := keeps_get.bind fun _ => write_quiet _ _

/-! ## Inodes -/

theorem ilock_quiet (ip : Iptr) : Quiet (ilock ip : Prog P Unit) := by
  refine (inodeAt_quiet ip).bind fun i => keeps_ite (keeps_stop _) (keeps_ite (keeps_stop _) ?_)
  refine Keeps.bind (onInode_quiet ip ?_) fun _ => ?_
  · exact fun _ => ⟨rfl, rfl⟩
  · refine keeps_ite (keeps_pure _) (keeps_get.bind fun s => Keeps.bind (onInode_quiet ip ?_) fun _ => ?_)
    · exact fun _ => ⟨rfl, rfl⟩
    · exact keeps_ite (keeps_stop _) (keeps_pure _)

theorem iunlock_quiet (ip : Iptr) : Quiet (iunlock ip : Prog P Unit) := by
  refine (inodeAt_quiet ip).bind fun i => keeps_ite (keeps_stop _) (onInode_quiet ip ?_)
  exact fun _ => ⟨rfl, rfl⟩

theorem addrOrAlloc_quiet (ip : Iptr) (k : Fin (ndirect + 1)) : Quiet (addrOrAlloc ip k : Prog P Nat) := by
  refine (inodeAt_quiet ip).bind fun i => keeps_ite ?_ (keeps_pure _)
  exact balloc_quiet.bind fun _ => (onCopy_quiet ip _).bind fun _ => keeps_pure _

theorem bmap_quiet (ip : Iptr) (bn : Nat) : Quiet (bmap ip bn : Prog P Nat) := by
  unfold bmap
  split
  · exact addrOrAlloc_quiet ip _
  · refine keeps_ite ((addrOrAlloc_quiet ip _).bind fun x => keeps_get.bind fun s => ?_) (keeps_stop _)
    exact keeps_ite (balloc_quiet.bind fun _ => keeps_get.bind fun _ => (setBuf_quiet _ _).bind fun _ =>
      (logWrite_quiet _).bind fun _ => keeps_pure _) (keeps_pure _)

theorem itrunc_quiet (ip : Iptr) : Quiet (itrunc ip : Prog P Unit) := by
  have hend : Quiet (do onCopy ip fun d => { d with size := 0 }; iupdate ip : Prog P Unit) :=
    (onCopy_quiet ip _).bind fun _ => iupdate_quiet ip
  refine (keeps_forM _ fun k => ?_).bind fun _ => keeps_get.bind fun s => keeps_ite ?_ ?_
  · refine (inodeAt_quiet ip).bind fun i => keeps_ite (keeps_pure _) ?_
    exact (bfree_quiet _).bind fun _ => onCopy_quiet ip _
  · exact hend
  · refine (keeps_forM _ fun j => keeps_ite (keeps_pure _) (bfree_quiet _)).bind fun _ => ?_
    exact (bfree_quiet _).bind fun _ => (onCopy_quiet ip _).bind fun _ => hend

/-! ## Content -/

theorem readBlocks_quiet (ip : Iptr) (fuel off n : Nat) : Quiet (readBlocks ip fuel off n : Prog P (List Byte)) := by
  induction fuel generalizing off n with
  | zero => exact keeps_pure _
  | succ fuel ih =>
    exact keeps_ite (keeps_pure _) ((bmap_quiet ip _).bind fun _ => keeps_get.bind fun _ =>
      (ih _ _).bind fun _ => keeps_pure _)

theorem readi_quiet (ip : Iptr) (off n : Word) : Quiet (readi ip off n : Prog P (Option (List Byte))) := by
  refine (inodeAt_quiet ip).bind fun i => keeps_ite (keeps_ite (keeps_stop _) (keeps_pure _)) ?_
  exact keeps_ite (keeps_pure _) ((readBlocks_quiet ip _ _ _).bind fun _ => keeps_pure _)

theorem writeBlocks_quiet (ip : Iptr) (fuel : Nat) (src : List Byte) (off n : Nat) :
    Quiet (writeBlocks ip fuel src off n : Prog P Unit) := by
  induction fuel generalizing src off n with
  | zero => exact keeps_pure _
  | succ fuel ih =>
    exact keeps_ite (keeps_pure _) ((bmap_quiet ip _).bind fun _ => keeps_get.bind fun _ =>
      (setBuf_quiet _ _).bind fun _ => (logWrite_quiet _).bind fun _ => ih _ _ _)

theorem writei_quiet (ip : Iptr) (src : List Byte) (off n : Word) : Quiet (writei ip src off n : Prog P Int) := by
  refine (inodeAt_quiet ip).bind fun i => keeps_ite (keeps_pure _) (keeps_ite (keeps_pure _) ?_)
  refine keeps_ite (keeps_pure _) ((writeBlocks_quiet ip _ _ _ _).bind fun _ => (inodeAt_quiet ip).bind fun _ => ?_)
  refine keeps_ite ?_ ((keeps_pure _).bind fun _ => keeps_pure _)
  exact (onCopy_quiet ip _).bind fun _ => (iupdate_quiet ip).bind fun _ => keeps_pure _

theorem readDirent_quiet (dp : Iptr) (e : Nat) (err : Panic) : Quiet (readDirent dp e err : Prog P Dirent) := by
  refine (readi_quiet dp _ _).bind fun o => ?_
  cases o with
  | none => exact keeps_stop _
  | some bs => exact keeps_ite (keeps_pure _) (keeps_stop _)

theorem emptyDirent_quiet (dp : Iptr) : Quiet (emptyDirent dp : Prog P Nat) :=
  (inodeAt_quiet dp).bind fun _ => (keeps_findSomeM _ fun _ => (readDirent_quiet dp _ _).bind fun _ =>
    keeps_pure _).bind fun _ => keeps_pure _

theorem isdirempty_quiet (dp : Iptr) : Quiet (isdirempty dp : Prog P Bool) :=
  (inodeAt_quiet dp).bind fun _ => (keeps_findSomeM _ fun _ => (readDirent_quiet dp _ _).bind fun _ =>
    keeps_pure _).bind fun _ => keeps_pure _

/-! ## Programs -/

theorem readAll_quiet (ip : Iptr) (off n : Nat) : Quiet (readAll ip off n : Prog P (Option (List Byte))) := by
  refine (readi_quiet ip _ _).bind fun o => ?_
  cases o with
  | none => exact keeps_pure _
  | some bs => exact keeps_pure _

theorem loaduvm_quiet (ip : Iptr) (off sz : Nat) : Quiet (loaduvm ip off sz : Prog P Bool) :=
  (keeps_findSomeM _ fun _ => (readAll_quiet ip _ _).bind fun _ => keeps_pure _).bind fun _ => keeps_pure _

theorem loadProgram_quiet (ip : Iptr) (mem : Memory) : Quiet (loadProgram ip mem : Prog P Bool) := by
  refine (readAll_quiet ip _ _).bind fun o => ?_
  cases o with
  | none => exact keeps_pure _
  | some elf =>
    refine keeps_ite (keeps_pure _) ((keeps_findSomeM _ fun k => Keeps.bind ?_ fun _ => keeps_pure _).bind
      fun _ => keeps_pure _)
    refine (readAll_quiet ip _ _).bind fun o => ?_
    cases o with
    | none => exact keeps_pure _
    | some ph => exact keeps_ite (keeps_pure _) (keeps_ite (keeps_pure _) (loaduvm_quiet ip _ _))

end Xv6.Fs
