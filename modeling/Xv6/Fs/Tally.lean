import Mathlib.Data.Fintype.Prod
import Xv6.Fs.Quiet
import Xv6.Lib.Count

/-!
# The reference counts while a call runs

A running call has references of its own, or has given up one that a process still shows.
-/

open Function Xv6.Bytes Xv6.Log Xv6.Code Xv6.Count

namespace Xv6.Fs

variable {P : Type} [Fintype P]

def inodeRefs (ftable : Fin nfile → File) (proc : P → Proc) (ip : Iptr) : Nat :=
  count ftable (fun f => decide (f.type = .inode ∧ f.ip = ip)) + count proc fun p => decide (p.cwd = some ip)

def fileRefs (proc : P → Proc) (f : Fin nfile) : Nat :=
  count (fun x : P × Fin nofile => (proc x.1).ofile x.2) fun o => decide (o = some f)

/-- The call has the references `R` and `F`. The processes are `real`, and their references are those of `proc`. -/
structure Busy (real proc : P → Proc) (R : List Iptr) (F : List (Fin nfile)) (s : State P) : Prop where
  real : s.proc = real
  inode : ∀ ip, (s.icache ip).ref = (R.count ip + inodeRefs s.ftable proc ip : Nat)
  distinct : ∀ ip jp, 0 < (s.icache ip).ref → 0 < (s.icache jp).ref → (s.icache ip).inum = (s.icache jp).inum → ip = jp
  file : ∀ f, (s.ftable f).ref = (F.count f + fileRefs proc f : Nat)
  closed : ∀ f, (s.ftable f).ref = 0 → (s.ftable f).type = .none

abbrev Anyhow : Fail → Prop := fun _ => True

variable {real proc : P → Proc} {R S : List Iptr} {F G : List (Fin nfile)} {s t : State P} {p : P} {ip : Iptr}
  {f : Fin nfile}

namespace Busy

theorem quiet (h : Busy real proc R F s) (hrefs : t.refs = s.refs) : Busy real proc R F t := by
  simp only [State.refs, Prod.mk.injEq] at hrefs
  obtain ⟨hicache, hftable, hproc⟩ := hrefs
  have hentry : ∀ ip, (t.icache ip).ref = (s.icache ip).ref ∧ (t.icache ip).inum = (s.icache ip).inum := by
    intro ip
    simpa using congrFun hicache ip
  refine ⟨hproc.trans h.real, fun ip => ?_, fun ip jp hi hj hinum => ?_, fun f => ?_, fun f hf => ?_⟩
  · rw [(hentry ip).1, hftable]
    exact h.inode ip
  · rw [(hentry ip).1] at hi
    rw [(hentry jp).1] at hj
    rw [(hentry ip).2, (hentry jp).2] at hinum
    exact h.distinct ip jp hi hj hinum
  · rw [hftable]
    exact h.file f
  · rw [hftable] at hf ⊢
    exact h.closed f hf

theorem keeps {α : Type} {m : Prog P α} (h : Busy real proc R F s) (hm : Quiet m) :
    Ends Anyhow m (fun _ t => Busy real proc R F t) s :=
  (hm s).mono fun _ _ ht => h.quiet ht

theorem after {α β : Type} {m : Prog P α} {g : α → Prog P β} {Q : β → State P → Prop} (h : Busy real proc R F s)
    (hm : Quiet m) (hg : ∀ a t, Busy real proc R F t → Ends Anyhow (g a) Q t) : Ends Anyhow (m >>= g) Q s :=
  Ends.bind (h.keeps hm) hg

theorem perm (h : Busy real proc R F s) (hR : R.Perm S) (hF : F.Perm G) : Busy real proc S G s := by
  refine ⟨h.real, fun ip => ?_, h.distinct, fun f => ?_, h.closed⟩
  · rw [← hR.count_eq]
    exact h.inode ip
  · rw [← hF.count_eq]
    exact h.file f

theorem swap {a b : Iptr} (h : Busy real proc (a :: b :: R) F s) : Busy real proc (b :: a :: R) F s :=
  h.perm (.swap b a R) (.refl F)

/-! ## References to inodes -/

theorem setRef (h : Busy real proc R F s) {x : Inode} (hS : ∀ jp, jp ≠ ip → S.count jp = R.count jp)
    (hx : x.ref = (S.count ip + inodeRefs s.ftable proc ip : Nat))
    (hnew : 0 < x.ref → ∀ jp, jp ≠ ip → 0 < (s.icache jp).ref → (s.icache jp).inum ≠ x.inum) :
    Busy real proc S F { s with icache := update s.icache ip x } := by
  refine ⟨h.real, fun jp => ?_, fun jp kp hj hk hinum => ?_, h.file, h.closed⟩
  · by_cases hj : jp = ip
    · subst hj
      simpa using hx
    · simpa [hj, hS jp hj] using h.inode jp
  · by_cases hji : jp = ip
    · by_cases hki : kp = ip
      · rw [hji, hki]
      · subst hji
        simp only [update_self, update_of_ne hki] at hj hk hinum
        exact absurd hinum.symm (hnew hj kp hki hk)
    · by_cases hki : kp = ip
      · subst hki
        simp only [update_self, update_of_ne hji] at hj hk hinum
        exact absurd hinum (hnew hk jp hji hj)
      · simp only [update_of_ne hji, update_of_ne hki] at hj hk hinum
        exact h.distinct jp kp hj hk hinum

theorem share (h : Busy real proc R F s) (hip : 0 < (s.icache ip).ref) :
    Busy real proc (ip :: R) F { s with
      icache := update s.icache ip { s.icache ip with ref := (s.icache ip).ref + 1 } } := by
  refine h.setRef (fun jp hj => List.count_cons_of_ne hj.symm) ?_ fun _ jp hj hpos hinum => ?_
  · rw [List.count_cons_self]
    have := h.inode ip
    push_cast at this ⊢
    omega
  · exact hj (h.distinct jp ip hpos hip hinum)

theorem drop (h : Busy real proc (ip :: R) F s) :
    Busy real proc R F { s with
      icache := update s.icache ip { s.icache ip with ref := (s.icache ip).ref - 1 } } := by
  have href := h.inode ip
  rw [List.count_cons_self] at href
  refine h.setRef (fun jp hj => (List.count_cons_of_ne hj.symm).symm) ?_ fun _ jp hj hpos hinum => ?_
  · push_cast at href ⊢
    omega
  · exact hj (h.distinct jp ip hpos (by omega) hinum)

theorem cwd_pos (h : Busy real proc R F s) (hp : (proc p).cwd = some ip) : 0 < (s.icache ip).ref := by
  have hcount : 0 < count proc fun p => decide (p.cwd = some ip) := count_pos (by simpa using hp)
  have href := h.inode ip
  unfold inodeRefs at href
  omega

end Busy

theorem iget_tally (h : Busy real proc R F s) (inum : Nat) :
    Ends Anyhow (iget inum) (fun ip t => Busy real proc (ip :: R) F t) s := by
  unfold iget
  apply ends_get_bind
  split
  case h_1 ip hip =>
    have hfound := List.find?_some hip
    simp only [decide_eq_true_eq] at hfound
    exact ends_modify_bind (ends_pure (h.share hfound.1))
  case h_2 hnone =>
    rw [List.find?_eq_none] at hnone
    split
    case h_1 => exact ends_stop trivial
    case h_2 ip hip =>
      have hzero := List.find?_some hip
      simp only [decide_eq_true_eq] at hzero
      refine ends_modify_bind (ends_pure ?_)
      refine h.setRef (fun jp hj => List.count_cons_of_ne hj.symm) ?_ fun _ jp _ hpos hinum => ?_
      · have href := h.inode ip
        rw [hzero] at href
        rw [List.count_cons_self]
        push_cast at href ⊢
        omega
      · refine hnone jp (List.mem_finRange jp) ?_
        simp only [decide_eq_true_eq]
        exact ⟨hpos, hinum⟩

theorem iput_tally (h : Busy real proc (ip :: R) F s) :
    Ends Anyhow (iput ip) (fun _ t => Busy real proc R F t) s := by
  have hdrop : ∀ t, Busy real proc (ip :: R) F t →
      Ends Anyhow (onInode ip fun i => { i with ref := i.ref - 1 }) (fun _ t => Busy real proc R F t) t :=
    fun t ht => ends_modify ht.drop
  unfold iput
  refine h.after (inodeAt_quiet ip) fun i t ht => ends_ite (fun _ => ?_) fun _ => hdrop t ht
  refine ht.after (itrunc_quiet ip) fun _ t ht => ?_
  refine ht.after (onCopy_quiet ip _) fun _ t ht => ?_
  refine ht.after (iupdate_quiet ip) fun _ t ht => ?_
  refine ht.after (onInode_quiet ip ?_) fun _ t ht => hdrop t ht
  exact fun _ => ⟨rfl, rfl⟩

theorem iunlockput_tally (h : Busy real proc (ip :: R) F s) :
    Ends Anyhow (iunlockput ip) (fun _ t => Busy real proc R F t) s :=
  h.after (iunlock_quiet ip) fun _ _ ht => iput_tally ht

/-! ## Directories -/

theorem dirlookup_tally (h : Busy real proc R F s) (dp : Iptr) (name : List Byte) :
    Ends Anyhow (dirlookup dp name) (fun o t => Busy real proc ((o.map Prod.fst).toList ++ R) F t) s := by
  unfold dirlookup
  refine h.after (inodeAt_quiet dp) fun i t ht => ends_ite (fun _ => ends_stop trivial) fun _ => ?_
  refine ends_findSomeM (I := fun _ t => Busy real proc R F t) ht (fun e rest t ht => ?_) fun t ht => ht
  refine ht.after (readDirent_quiet dp e _) fun de t ht => ends_ite (fun _ => ?_) fun _ => ends_pure ht
  exact Ends.bind (iget_tally ht de.inum) fun ip t ht => ends_pure ht

theorem dirlink_tally (h : Busy real proc R F s) (dp : Iptr) (name : List Byte) (inum : Nat) :
    Ends Anyhow (dirlink dp name inum) (fun _ t => Busy real proc R F t) s := by
  unfold dirlink
  refine Ends.bind (dirlookup_tally h dp name) fun o t ht => ?_
  cases o with
  | some r => exact Ends.bind (iput_tally ht) fun _ t ht => ends_pure ht
  | none =>
    refine Busy.after ht (emptyDirent_quiet dp) fun e t ht => ?_
    refine ht.after (writei_quiet dp _ _ _) fun r t ht => ?_
    exact ends_ite (fun _ => ends_stop trivial) fun _ => ends_pure ht

/-! ## Paths -/

theorem walk_tally (parent : Bool) {fuel : Nat} {path : List Byte} (h : Busy real proc (ip :: R) F s) :
    Ends Anyhow (walk parent fuel path ip) (fun o t => Busy real proc ((o.map Prod.fst).toList ++ R) F t) s := by
  have hend : ∀ {ip s}, Busy real proc (ip :: R) F s →
      Ends Anyhow (if parent then do iput ip; pure none else pure (some (ip, [])))
        (fun (o : Option (Iptr × List Byte)) t => Busy real proc ((o.map Prod.fst).toList ++ R) F t) s := by
    intro ip s h
    exact ends_ite (fun _ => Ends.bind (iput_tally h) fun _ t ht => ends_pure ht) fun _ => ends_pure h
  induction fuel generalizing path ip s with
  | zero => exact hend h
  | succ fuel ih =>
    unfold walk
    split
    case h_1 => exact hend h
    case h_2 name rest _ =>
      refine h.after (ilock_quiet ip) fun _ t ht => ?_
      refine ht.after (inodeAt_quiet ip) fun i t ht => ?_
      refine ends_ite (fun _ => Ends.bind (iunlockput_tally ht) fun _ t ht => ends_pure ht) fun _ => ?_
      refine ends_ite (fun _ => ht.after (iunlock_quiet ip) fun _ t ht => ends_pure ht) fun _ => ?_
      refine Ends.bind (dirlookup_tally ht ip name) fun o t ht => ?_
      cases o with
      | none => exact Ends.bind (iunlockput_tally ht) fun _ t ht => ends_pure ht
      | some r =>
        obtain ⟨next, off⟩ := r
        exact Ends.bind (iunlockput_tally (Busy.swap ht)) fun _ t ht => ih ht

theorem startOf_tally (h : Busy proc proc R F s) (p : P) (path : List Byte) :
    Ends Anyhow (startOf p path) (fun ip t => Busy proc proc (ip :: R) F t) s := by
  unfold startOf
  refine ends_ite (fun _ => iget_tally h rootino) fun _ => ?_
  refine Ends.bind (R := fun ip t => t = s ∧ (proc p).cwd = some ip) ?_ fun ip t ht => ?_
  · unfold cwd
    apply ends_get_bind
    split
    case h_1 => exact ends_stop trivial
    case h_2 ip hip =>
      rw [h.real] at hip
      exact ends_pure ⟨rfl, hip⟩
  · obtain ⟨rfl, hip⟩ := ht
    exact ends_modify_bind (ends_pure (h.share (h.cwd_pos hip)))

theorem namex_tally (h : Busy proc proc R F s) (p : P) (path : List Byte) (parent : Bool) :
    Ends Anyhow (namex p path parent) (fun o t => Busy proc proc ((o.map Prod.fst).toList ++ R) F t) s :=
  Ends.bind (startOf_tally h p path) fun _ _ ht => walk_tally parent ht

theorem namei_tally (h : Busy proc proc R F s) (p : P) (path : List Byte) :
    Ends Anyhow (namei p path) (fun o t => Busy proc proc (o.toList ++ R) F t) s :=
  Ends.bind (namex_tally h p path false) fun _ _ ht => ends_pure ht

/-! ## New inodes -/

theorem createNew_tally {dp : Iptr} (h : Busy real proc (dp :: R) F s) (name : List Byte) (type major minor : Half) :
    Ends Anyhow (createNew dp name type major minor) (fun ip t => Busy real proc (ip :: R) F t) s := by
  have hrest : ∀ {ip s}, Busy real proc (ip :: dp :: R) F s → Ends Anyhow (do
      let i ← inodeAt ip
      let r ← dirlink dp name i.inum
      if r < 0 then panic .createDirlink
      else do
        iunlockput dp
        pure ip) (fun ip t => Busy real proc (ip :: R) F t) s := by
    intro ip s h
    refine h.after (inodeAt_quiet ip) fun i t ht => ?_
    refine Ends.bind (dirlink_tally ht dp name _) fun r t ht => ends_ite (fun _ => ends_stop trivial) fun _ => ?_
    exact Ends.bind (iunlockput_tally ht.swap) fun _ t ht => ends_pure ht
  unfold createNew ialloc
  refine Ends.bind (R := fun ip t => Busy real proc (ip :: dp :: R) F t) ?_ fun ip t ht => ?_
  · apply ends_get_bind
    split
    · exact ends_stop trivial
    · refine h.after (setBuf_quiet _ _) fun _ t ht => ?_
      exact ht.after (logWrite_quiet _) fun _ t ht => iget_tally ht _
  · refine ht.after (ilock_quiet ip) fun _ t ht => ?_
    refine ht.after (onCopy_quiet ip _) fun _ t ht => ?_
    refine ht.after (iupdate_quiet ip) fun _ t ht => ends_ite (fun _ => ?_) fun _ => hrest ht
    refine Ends.bind (R := fun _ t => Busy real proc (ip :: dp :: R) F t) ?_ fun _ t ht => hrest ht
    unfold makeDots
    refine ht.after (onCopy_quiet dp _) fun _ t ht => ?_
    refine ht.after (iupdate_quiet dp) fun _ t ht => ?_
    refine ht.after (inodeAt_quiet ip) fun self t ht => ?_
    refine ht.after (inodeAt_quiet dp) fun up t ht => ?_
    refine Ends.bind (dirlink_tally ht ip dot _) fun r t ht => ends_ite (fun _ => ends_stop trivial) fun _ => ?_
    refine Ends.bind (dirlink_tally ht ip dotdot _) fun r t ht => ?_
    exact ends_ite (fun _ => ends_stop trivial) fun _ => ends_pure ht

theorem create_tally (h : Busy proc proc R F s) (p : P) (path : List Byte) (type major minor : Half) :
    Ends Anyhow (create p path type major minor) (fun o t => Busy proc proc (o.toList ++ R) F t) s := by
  unfold create
  refine Ends.bind (namex_tally h p path true) fun o t ht => ?_
  cases o with
  | none => exact ends_pure ht
  | some r =>
    obtain ⟨dp, name⟩ := r
    refine Busy.after ht (ilock_quiet dp) fun _ t ht => ?_
    refine Ends.bind (dirlookup_tally ht dp name) fun o t ht => ?_
    cases o with
    | some r =>
      obtain ⟨ip, off⟩ := r
      refine Ends.bind (iunlockput_tally (Busy.swap ht)) fun _ t ht => ?_
      refine ht.after (ilock_quiet ip) fun _ t ht => ?_
      refine ht.after (inodeAt_quiet ip) fun i t ht => ends_ite (fun _ => ends_pure ht) fun _ => ?_
      exact Ends.bind (iunlockput_tally ht) fun _ t ht => ends_pure ht
    | none => exact Ends.bind (createNew_tally ht name type major minor) fun ip t ht => ends_pure ht

end Xv6.Fs
