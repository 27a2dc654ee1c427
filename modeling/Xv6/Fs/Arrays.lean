import Xv6.Fs.Image
import Xv6.Fs.LogRoom

/-!
# Files are byte arrays

Seen through `readi` and `writei`, a file is an array of bytes.
-/

open Function Xv6.Bytes Xv6.Log Xv6.Code

namespace Xv6.Fs

/-! ## Arrays -/

def arrayRead (a : List Byte) (off n : Nat) : Option (List Byte) :=
  if off > a.length ∨ off + n ≥ 2 ^ 32 then none else some ((a.drop off).take n)

def arrayWrite (a : List Byte) (off : Nat) (bs : List Byte) : Int × List Byte :=
  if off > a.length ∨ off + bs.length ≥ 2 ^ 32 ∨ off + bs.length > maxfile * bsize then (-1, a)
  else (bs.length, a.take off ++ bs ++ a.drop (off + bs.length))

inductive Io where
  | read (ip : Iptr) (off n : Word)
  | write (ip : Iptr) (src : List Byte) (off n : Word) (h : n.toNat ≤ src.length)

inductive Answer where
  | bytes (r : Option (List Byte))
  | count (r : Int)
deriving DecidableEq

def Io.ip : Io → Iptr
  | .read ip _ _ => ip
  | .write ip _ _ _ _ => ip

variable {P : Type}

def Io.exec : Io → Prog P Answer
  | .read ip off n => do
    let r ← readi ip off n
    pure (.bytes r)
  | .write ip src off n _ => do
    let r ← writei ip src off n
    pure (.count r)

def Io.blocks (k : Nat) : Io → Nat
  | .read _ _ _ => 0
  | .write _ _ off n _ => blocksOf off.toNat n.toNat + k

def execAll : List Io → Prog P (List Answer)
  | [] => pure []
  | op :: ops => do
    let r ← op.exec
    let rs ← execAll ops
    pure (r :: rs)

def Io.onArrays (num : Iptr → Nat) (arrays : Nat → List Byte) : Io → Answer × (Nat → List Byte)
  | .read ip off n => (.bytes (arrayRead (arrays (num ip)) off.toNat n.toNat), arrays)
  | .write ip src off n _ =>
    let r := arrayWrite (arrays (num ip)) off.toNat (src.take n.toNat)
    (.count r.1, update arrays (num ip) r.2)

def allOnArrays (num : Iptr → Nat) (arrays : Nat → List Byte) : List Io → List Answer × (Nat → List Byte)
  | [] => ([], arrays)
  | op :: ops =>
    let r := op.onArrays num arrays
    let rs := allOnArrays num r.2 ops
    (r.1 :: rs.1, rs.2)

/-! ## The disk as it is -/

def Volume.content (v : Volume) (i : Nat) : List Byte := v.bytes i 0 (v.inode i).size.toNat

/-- No block is shared, no file has a hole, and `S` are regular files, read in from the disk. -/
structure Consistent (S : Iptr → Prop) (s : State P) : Prop where
  valid : s.sb.Valid
  super : getSuperblock (s.disk 1) = s.sb
  solid : (stored s.sb s.disk).Solid s.sb
  copy : ∀ ip, S ip → (s.icache ip).copy = getInode s.sb s.disk (s.icache ip).inum
  inum : ∀ ip, S ip → (s.icache ip).inum < s.sb.ninodes
  regular : ∀ ip, S ip → (s.icache ip).copy.type = tFile
  distinct : ∀ ip jp, S ip → S jp → (s.icache ip).inum = (s.icache jp).inum → ip = jp

/-! ## Content after a write -/

namespace Volume

variable {sb : Superblock} {v v' : Volume} {i off : Nat} {bs : List Byte}

theorem content_length (v : Volume) (i : Nat) : (v.content i).length = (v.inode i).size.toNat := bytes_length ..

theorem content_getElem (v : Volume) (i x : Nat) (h : x < (v.content i).length) : (v.content i)[x] = v.byte i x := by
  simp [content, bytes]

theorem Updated.content_self (h : v.Updated sb v' i off bs) (hs : v.Solid sb) (hi : v.Stores sb i)
    (hoff : off ≤ (v.inode i).size.toNat) :
    v'.content i = (v.content i).take off ++ bs ++ (v.content i).drop (off + bs.length) := by
  have hlen := v.content_length i
  have htake : ((v.content i).take off).length = off := by
    rw [List.length_take]
    omega
  apply List.ext_getElem
  · rw [content_length, h.size]
    simp only [List.length_append, List.length_drop, htake, hlen]
    omega
  · intro x hx hx'
    rw [content_length, h.size] at hx
    rw [content_getElem]
    by_cases hlo : x < off
    · rw [h.byte_old hs hi (by omega) (.inr (.inl hlo)), List.getElem_append_left (by rw [List.length_append]; omega),
        List.getElem_append_left (by omega), List.getElem_take, content_getElem]
    · by_cases hhi : x < off + bs.length
      · obtain ⟨n, rfl⟩ : ∃ n, x = off + n := ⟨x - off, by omega⟩
        rw [h.byte_new (by omega), List.getElem_append_left (by rw [List.length_append]; omega),
          List.getElem_append_right (by omega)]
        simp [htake]
      · rw [h.byte_old hs hi (by omega) (.inr (.inr (by omega))), List.getElem_append_right (by
          rw [List.length_append]; omega), List.getElem_drop, content_getElem]
        congr 1
        rw [List.length_append]
        omega

theorem Updated.content_other (h : v.Updated sb v' i off bs) (hs : v.Solid sb) {j : Nat} (hj : v.Stores sb j)
    (hne : j ≠ i) : v'.content j = v.content j := by
  apply List.ext_getElem
  · rw [content_length, content_length, h.other hne]
  · intro x hx hx'
    rw [content_length] at hx'
    rw [content_getElem, content_getElem, h.byte_old hs hj hx' (.inl hne)]

theorem readi_content (v : Volume) (i : Nat) (off n : Word) :
    v.readi i off n = arrayRead (v.content i) off.toNat n.toNat := by
  have hwrap : off + n < off ↔ off.toNat + n.toNat ≥ 2 ^ 32 := by bv_omega
  have hoff : off > (v.inode i).size ↔ off.toNat > (v.content i).length := by rw [content_length]; rfl
  unfold readi arrayRead
  simp only [hwrap, hoff]
  split
  · rfl
  case isFalse h =>
    congr 1
    apply List.ext_getElem
    · simp [content_length]
    · intro x hx hx'
      rw [List.getElem_take, List.getElem_drop, content_getElem]
      simp [bytes]

theorem refused_iff (v : Volume) (i : Nat) (off n : Word) : v.Refused i off n ↔
    off.toNat > (v.content i).length ∨ off.toNat + n.toNat ≥ 2 ^ 32 ∨ off.toNat + n.toNat > maxfile * bsize := by
  have hwrap : off + n < off ↔ off.toNat + n.toNat ≥ 2 ^ 32 := by bv_omega
  have hoff : off > (v.inode i).size ↔ off.toNat > (v.content i).length := by rw [content_length]; rfl
  unfold Refused
  rw [hoff, hwrap]
  by_cases h : off.toNat + n.toNat ≥ 2 ^ 32
  · simp only [h, true_or]
  · rw [toNat_add_of_not_lt (fun hlt => h (hwrap.mp hlt))]

end Volume

theorem Tracks.content_stored {sb : Superblock} {v : Volume} {disk : Disk} (h : Tracks sb v v.inode disk)
    (hs : v.Solid sb) {i : Nat} (hi : v.Stores sb i) : (stored sb disk).content i = v.content i := by
  have hinode : (stored sb disk).inode i = v.inode i := h.inode i hi.1.1
  apply List.ext_getElem
  · rw [Volume.content_length, Volume.content_length, hinode]
  · intro x hx hx'
    rw [Volume.content_length] at hx'
    obtain ⟨hlt, hne⟩ := hs.addr_of_lt_size hi hx'
    rw [Volume.content_getElem, Volume.content_getElem, h.byte_stored hs.toOwned hi.1 hlt hne]

/-! ## One call -/

structure Holds (S : Iptr → Prop) (num : Iptr → Nat) (sb : Superblock) (v : Volume) (s : State P) : Prop where
  sbEq : s.sb = sb
  tracks : Tracks sb v v.inode s.disk
  solid : v.Solid sb
  copy : ∀ ip, S ip → (s.icache ip).copy = v.inode (num ip)
  inum : ∀ ip, S ip → (s.icache ip).inum = num ip
  live : ∀ ip, S ip → v.Live sb (num ip)
  regular : ∀ ip, S ip → (v.inode (num ip)).type = tFile
  distinct : ∀ ip jp, S ip → S jp → num ip = num jp → ip = jp

section Call

variable {S : Iptr → Prop} {num : Iptr → Nat} {sb : Superblock} {v : Volume} {s : State P}
  (h : Holds S num sb v s) (hv : sb.Valid)
include h

theorem Holds.stores {ip : Iptr} (hip : S ip) : v.Stores sb (num ip) :=
  ⟨h.live ip hip, by rw [h.regular ip hip]; decide⟩

theorem Holds.refused {ip : Iptr} (hip : S ip) {off n : Word} (hbad : v.Refused (num ip) off n) (src : List Byte) :
    writei ip src off n s = .ok (-1, s) := by
  have hrun : ∀ g : Inode → Prog P Int, (inodeAt ip >>= g) s = g (s.icache ip) s := fun _ => rfl
  unfold writei
  rw [hrun, h.copy ip hip, if_neg (h.stores hip).2]
  by_cases hoff : off > (v.inode (num ip)).size ∨ off + n < off
  · rw [if_pos hoff]
    rfl
  · have hmax : (off + n).toNat > maxfile * bsize := by
      unfold Volume.Refused at hbad
      tauto
    rw [if_neg hoff, if_pos hmax]
    rfl

theorem Holds.read {E : Fail → Prop} {ip : Iptr} (hip : S ip) (off n : Word) :
    Ends E (readi ip off n) (fun r t => r = arrayRead (v.content (num ip)) off.toNat n.toNat ∧ t = s) s := by
  rw [← v.readi_content]
  exact readi_ends h.solid (h.live ip hip) (h.copy ip hip) h.tracks (h.stores hip).2 off n

include hv

theorem Holds.write {E : Fail → Prop} {ip : Iptr} (hip : S ip) {src : List Byte} {off n : Word}
    (hsrc : n.toNat ≤ src.length) (hE : Lacks E sb v s.log (num ip) off.toNat n.toNat) :
    Ends E (writei ip src off n) (fun r t =>
      r = (arrayWrite (v.content (num ip)) off.toNat (src.take n.toNat)).1 ∧ ∃ v', Holds S num sb v' t ∧
        v.free sb ≤ v'.free sb + v.missing (num ip) off.toNat n.toNat ∧
        (Takes sb s.log (blocksOf off.toNat n.toNat + 4) → Took s.log t.log (blocksOf off.toNat n.toNat + 4)) ∧
        (∀ i, v'.Stores sb i ↔ v.Stores sb i) ∧
        ∀ i, v.Stores sb i → v'.content i = update v.content (num ip)
          (arrayWrite (v.content (num ip)) off.toNat (src.take n.toNat)).2 i) s := by
  have hlen : (src.take n.toNat).length = n.toNat := by
    rw [List.length_take]
    omega
  refine writei_settles h.sbEq hv h.solid (h.live ip hip) (h.copy ip hip) (h.inum ip hip) h.tracks
    (h.stores hip).2 hsrc hE (fun hbad => ?_) fun hgood v' disk log lg hup ht _ htook => ?_
  · rw [v.refused_iff] at hbad
    rw [arrayWrite, hlen, if_pos hbad]
    refine ⟨rfl, v, h, Nat.le_add_right .., fun htakes => .same htakes.nodup, fun _ => Iff.rfl, fun i _ => ?_⟩
    simp
  · rw [v.refused_iff] at hgood
    rw [arrayWrite, hlen, if_neg hgood]
    rw [not_or, not_or] at hgood
    obtain ⟨hoff, hwrap, hmax⟩ := hgood
    rw [Volume.content_length] at hoff
    have hstores : ∀ i, v'.Stores sb i ↔ v.Stores sb i := by
      intro i
      rw [Volume.Stores, Volume.Stores, hup.live, hup.type]
    refine ⟨rfl, v', ⟨h.sbEq, ht, hup.solid h.solid (h.stores hip).2 (by omega) (by omega), fun jp hjp => ?_,
      fun jp hjp => ?_, fun jp hjp => (hup.live _).mpr (h.live jp hjp), fun jp hjp => ?_, h.distinct⟩,
      by rw [hup.free, hlen], htook, hstores, fun i hi => ?_⟩
    · by_cases hj : jp = ip
      · rw [hj, setCopy_copy]
      · have hnum : num jp ≠ num ip := fun he => hj (h.distinct jp ip hjp hip he)
        rw [hup.other hnum, ← h.copy jp hjp, setCopy_of_ne _ _ _ hj]
        rfl
    · rw [setCopy_inum]
      exact h.inum jp hjp
    · rw [hup.type, h.regular jp hjp]
    · by_cases hi' : i = num ip
      · rw [hi', update_self, hup.content_self h.solid (h.stores hip) (by omega), hlen]
      · rw [update_of_ne hi', hup.content_other h.solid hi hi']

end Call

/-! ## All calls -/

section All

variable {S : Iptr → Prop} {num : Iptr → Nat} {sb : Superblock} (hv : sb.Valid)
include hv

theorem execAll_ends {E : Fail → Prop} (ops : List Io) (hops : ∀ op ∈ ops, S op.ip) (s : State P) (v : Volume)
    (arrays : Nat → List Byte) (h : Holds S num sb v s) (harrays : ∀ i, v.Stores sb i → v.content i = arrays i)
    (hblocks : v.free sb < (ops.map (Io.blocks 1)).sum → E (.panic .outOfBlocks))
    (hlog : ¬Takes sb s.log (ops.map (Io.blocks 4)).sum → ∀ l, E (.panic (.log l))) :
    Ends E (execAll ops) (fun rs t => rs = (allOnArrays num arrays ops).1 ∧ ∃ v', Holds S num sb v' t ∧
      (∀ i, v'.Stores sb i ↔ v.Stores sb i) ∧
      ∀ i, v.Stores sb i → v'.content i = (allOnArrays num arrays ops).2 i) s := by
  induction ops generalizing s v arrays with
  | nil => exact ends_pure ⟨rfl, v, h, fun _ => Iff.rfl, harrays⟩
  | cons op ops ih =>
    have hip : S op.ip := hops op List.mem_cons_self
    have hrest : ∀ op ∈ ops, S op.ip := fun op' h' => hops op' (List.mem_cons_of_mem op h')
    rw [List.map_cons, List.sum_cons] at hblocks hlog
    cases op with
    | read ip off n =>
      change S ip at hip
      refine ends_bind.mpr (Ends.bind (h.read hip off n) ?_)
      rintro r t ⟨rfl, rfl⟩
      rw [Io.blocks, Nat.zero_add] at hblocks hlog
      refine ends_pure (Ends.bind (ih hrest t v arrays h harrays hblocks hlog) ?_)
      rintro rs u ⟨rfl, hu⟩
      refine ends_pure ⟨?_, hu⟩
      rw [harrays _ (h.stores hip)]
      rfl
    | write ip src off n hsrc =>
      change S ip at hip
      simp only [Io.blocks] at hblocks hlog
      have hneed := v.missing_le (num ip) off.toNat n.toNat
      refine ends_bind.mpr (Ends.bind (h.write hv hip hsrc ⟨fun hlt => hblocks (by omega),
        fun hno => hlog fun htakes => hno (htakes.less (Nat.le_add_right ..))⟩) ?_)
      rintro r t ⟨rfl, v₁, h₁, hfree, htook, hstores, hcontent⟩
      rw [harrays _ (h.stores hip)] at hcontent ⊢
      refine ends_pure (Ends.bind (ih hrest t v₁ (update arrays (num ip)
        (arrayWrite (arrays (num ip)) off.toNat (src.take n.toNat)).2) h₁ (fun i hi => ?_)
        (fun hlt => hblocks (by omega)) fun hno => hlog fun htakes =>
          hno (htakes.later (htook (htakes.less (Nat.le_add_right ..)))))
        ?_)
      · rw [hcontent i ((hstores i).mp hi)]
        by_cases he : i = num ip
        · rw [he, update_self, update_self]
        · rw [update_of_ne he, update_of_ne he, harrays i ((hstores i).mp hi)]
      · rintro rs u ⟨rfl, v₂, h₂, hstores₂, hcontent₂⟩
        exact ends_pure ⟨rfl, v₂, h₂, fun i => (hstores₂ i).trans (hstores i), fun i hi =>
          hcontent₂ i ((hstores i).mpr hi)⟩

end All

theorem Consistent.holds {S : Iptr → Prop} {s : State P} (h : Consistent S s) :
    Holds S (fun ip => (s.icache ip).inum) s.sb (stored s.sb s.disk) s where
  sbEq := rfl
  tracks := tracks_stored h.super
  solid := h.solid
  copy := h.copy
  inum := fun _ _ => rfl
  live := fun ip hip => by
    refine ⟨h.inum ip hip, ?_⟩
    have hcopy : (stored s.sb s.disk).inode (s.icache ip).inum = (s.icache ip).copy := (h.copy ip hip).symm
    rw [hcopy, h.regular ip hip]
    decide
  regular := fun ip hip => by
    have hcopy : (stored s.sb s.disk).inode (s.icache ip).inum = (s.icache ip).copy := (h.copy ip hip).symm
    rw [hcopy, h.regular ip hip]
  distinct := h.distinct

theorem Holds.consistent {S : Iptr → Prop} {num : Iptr → Nat} {sb : Superblock} {v : Volume} {s : State P}
    (h : Holds S num sb v s) (hv : sb.Valid) : Consistent S s := by
  obtain rfl := h.sbEq
  have hinode : ∀ ip, S ip → getInode s.sb s.disk (num ip) = v.inode (num ip) :=
    fun ip hip => h.tracks.inode _ (h.live ip hip).1
  refine ⟨hv, h.tracks.super, h.tracks.solid_stored hv h.solid, fun ip hip => ?_, fun ip hip => ?_, fun ip hip => ?_,
    fun ip jp hip hjp he => ?_⟩
  · rw [h.inum ip hip, hinode ip hip, h.copy ip hip]
  · rw [h.inum ip hip]
    exact (h.live ip hip).1
  · rw [h.copy ip hip, h.regular ip hip]
  · rw [h.inum ip hip, h.inum jp hjp] at he
    exact h.distinct ip jp hip hjp he

/-- There are not as many free blocks as the writes may need, or no room in the log for what they may log. -/
def Exhausted (s : State P) (ops : List Io) (e : Fail) : Prop :=
  e = .panic .outOfBlocks ∧ (stored s.sb s.disk).free s.sb < (ops.map (Io.blocks 1)).sum ∨
    (∃ l, e = .panic (.log l)) ∧ ¬Takes s.sb s.log (ops.map (Io.blocks 4)).sum

/-- Unless the disk or the log gets full, each inode acts as an array. -/
theorem files_are_arrays {S : Iptr → Prop} {s : State P} (h : Consistent S s) (ops : List Io)
    (hops : ∀ op ∈ ops, S op.ip) :
    Ends (Exhausted s ops) (execAll ops) (fun answers t =>
      answers = (allOnArrays (fun ip => (s.icache ip).inum) (stored s.sb s.disk).content ops).1 ∧
      (∀ i, (stored s.sb s.disk).Stores s.sb i → (stored t.sb t.disk).content i =
        (allOnArrays (fun ip => (s.icache ip).inum) (stored s.sb s.disk).content ops).2 i) ∧
      Consistent S t ∧
      ∀ ip src (off n : Word), S ip →
        (off > (t.icache ip).copy.size ∨ off + n < off ∨ (off + n).toNat > maxfile * bsize) →
        writei ip src off n t = .ok (-1, t)) s := by
  refine (execAll_ends h.valid ops hops s _ _ h.holds (fun _ _ => rfl) (fun hfew => .inl ⟨rfl, hfew⟩)
    fun hno l => .inr ⟨⟨l, rfl⟩, hno⟩).mono ?_
  rintro answers t ⟨rfl, v, ht, hstores, hcontent⟩
  refine ⟨rfl, fun i hi => ?_, ht.consistent h.valid, fun ip src off n hip hbad => ?_⟩
  · rw [← hcontent i hi, ht.sbEq]
    exact ht.tracks.content_stored ht.solid ((hstores i).mpr hi)
  · rw [ht.copy ip hip] at hbad
    exact ht.refused hip hbad src

def fileState : State (Fin 1) where
  sb := mkfsSuper
  disk := fileImage
  icache := fun _ => ⟨2, 1, true, true, emptyFile⟩
  ftable := fun _ => ⟨.none, 0, false, false, 0, 0⟩
  proc := fun _ => ⟨fun _ => none, some 0⟩
  log := ⟨1, false, []⟩
  logged := []
  txns := []

theorem fileState_consistent : Consistent (· = 0) fileState where
  valid := mkfsSuper_valid
  super := by decide +kernel
  solid := fileImage_rooted.solid
  copy := fun _ _ => by simp only [fileState, fileImage_file]
  inum := fun _ _ => show 2 < 200 by decide
  regular := fun _ _ => rfl
  distinct := by
    rintro ip jp rfl rfl _
    rfl

def shortCalls : List Io := [.write 0 [7, 8, 9] 0 3 (by decide), .read 0 1 5]

theorem files_are_arrays_fileState :
    ∃ t, execAll shortCalls fileState = .ok ([.count 3, .bytes (some [8, 9])], t) := by
  have hops : ∀ op ∈ shortCalls, op.ip = 0 := by
    intro op hop
    simp only [shortCalls, List.mem_cons, List.not_mem_nil, or_false] at hop
    rcases hop with rfl | rfl <;> rfl
  have hcontent : (stored mkfsSuper fileImage).content 2 = [] := by
    simp only [Volume.content, stored, fileImage_file]
    rfl
  have hfree : 2 ≤ (stored mkfsSuper fileImage).free mkfsSuper := by decide +kernel
  have htakes : Takes mkfsSuper fileState.log 5 := ⟨by decide, by decide, by decide, by decide, by decide⟩
  have hnever : ∀ e, ¬Exhausted fileState shortCalls e := by
    rintro e (⟨-, hlt⟩ | ⟨-, hno⟩)
    · exact Nat.not_lt.mpr hfree hlt
    · exact hno htakes
  obtain ⟨answers, t, ht, rfl, -⟩ := (files_are_arrays fileState_consistent shortCalls hops).exists_ok hnever
  refine ⟨t, ht.trans ?_⟩
  simp only [shortCalls, allOnArrays, Io.onArrays, fileState, hcontent, update_self]
  rfl

/-- A write of 31 blocks: 940 are free, but the log holds 30. -/
theorem long_write_too_big :
    Consistent (· = 0) fileState ∧ (∀ b < 1000, 60 ≤ b → marked mkfsSuper fileImage b = false) ∧
      31 * bsize ≤ maxfile * bsize ∧
      writei 0 (List.replicate (31 * bsize) 0) 0 (.ofNat 32 (31 * bsize)) fileState =
      .error (.panic (.log .tooBig)) := by
  refine ⟨fileState_consistent, fun b hb hlow => ?_, by decide, eq_error_of_failure (by decide +kernel)⟩
  exact (fileImage_rooted.bits b hb).trans (decide_eq_false (Nat.not_lt.mpr hlow))

end Xv6.Fs
