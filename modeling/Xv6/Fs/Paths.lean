import Mathlib.Data.List.Count
import Mathlib.Data.List.TakeWhile
import Xv6.Fs.Image
import Xv6.Fs.Lookup

/-!
# Paths

`namei` and `nameiparent` follow the names of a path, and leave one reference behind: the one that they return.
-/

open Xv6.Bytes Xv6.Log Xv6.Code

namespace Xv6.Fs

/-! ## Path elements -/

/-- The runs without a slash, cut to what fits in a directory entry. -/
def components (path : List Byte) : List (List Byte) :=
  ((path.splitOnP (· = slash)).filter (· ≠ [])).map (List.take dirsiz)

theorem components_slash (path : List Byte) : components (slash :: path) = components path := by
  simp [components, List.splitOnP_cons_eq_if_modifyHead]

theorem components_dropWhile (path : List Byte) : components (path.dropWhile (· = slash)) = components path := by
  induction path with
  | nil => rfl
  | cons b path ih =>
    by_cases hb : b = slash
    · rw [List.dropWhile_cons_of_pos (by simpa using hb), ih, hb, components_slash]
    · rw [List.dropWhile_cons_of_neg (by simpa using hb)]

theorem components_run {run rest : List Byte} (hne : run ≠ []) (hrun : ∀ b ∈ run, b ≠ slash)
    (hrest : ∀ b ∈ rest.head?, b = slash) : components (run ++ rest) = run.take dirsiz :: components rest := by
  have hno : ∀ b ∈ run, decide (b = slash) = false := fun b hb => decide_eq_false (hrun b hb)
  cases rest with
  | nil =>
    rw [List.append_nil, components, List.splitOnP_eq_singleton hno]
    simp [hne, components]
  | cons b rest =>
    obtain rfl : b = slash := hrest b rfl
    rw [components_slash, components, List.splitOnP_append_cons_of_forall_mem hno _ (by simp)]
    simp [hne, components]

theorem of_head_dropWhile {p : Byte → Bool} {l : List Byte} {b : Byte} (h : b ∈ (l.dropWhile p).head?) :
    p b = false := by
  have hnot := List.head?_dropWhile_not p l
  rwa [Option.mem_def.mp h] at hnot

theorem components_cons {b : Byte} (hb : b ≠ slash) (l : List Byte) : components (b :: l) =
    ((b :: l).takeWhile (· ≠ slash)).take dirsiz :: components ((b :: l).dropWhile (· ≠ slash)) := by
  have hsplit := List.takeWhile_append_dropWhile (p := (· ≠ slash)) (l := b :: l)
  rw [← components_run ?_ (fun c hc => by simpa using List.mem_takeWhile_imp hc) fun c hc => by
    simpa using of_head_dropWhile hc, hsplit]
  rw [List.takeWhile_cons_of_pos (by simpa using hb)]
  nofun

theorem skipelem_none {path : List Byte} (h : skipelem path = none) : components path = [] := by
  simp only [skipelem, ite_eq_left_iff, reduceCtorEq, imp_false, not_not] at h
  rw [← components_dropWhile, h]
  rfl

theorem skipelem_some {path name rest : List Byte} (h : skipelem path = some (name, rest)) :
    components path = name :: components rest ∧ (rest = [] ↔ components rest = []) ∧ rest.length < path.length := by
  have hhead : ∀ {l : List Byte} {b}, b ∈ (l.dropWhile (· = slash)).head? → b ≠ slash := fun hb => by
    simpa using of_head_dropWhile hb
  have hlen : ∀ (p : Byte → Bool) (l : List Byte), (l.dropWhile p).length ≤ l.length :=
    fun p l => (List.dropWhile_suffix p).length_le
  simp only [skipelem] at h
  cases hs : path.dropWhile (· = slash) with
  | nil => simp [hs] at h
  | cons b l =>
    have hb : b ≠ slash := hhead (by rw [hs]; rfl)
    rw [hs, if_neg nofun, Option.some.injEq, Prod.mk.injEq] at h
    obtain ⟨rfl, rfl⟩ := h
    refine ⟨?_, ⟨fun hnil => by rw [hnil]; rfl, fun hnil => ?_⟩, ?_⟩
    · rw [← components_dropWhile, hs, components_cons hb, components_dropWhile]
    · cases hrest : ((b :: l).dropWhile (· ≠ slash)).dropWhile (· = slash) with
      | nil => rfl
      | cons c l' =>
        rw [hrest, components_cons (hhead (by rw [hrest]; rfl))] at hnil
        cases hnil
    · have hpath := hlen (· = slash) path
      have htail := hlen (· = slash) ((b :: l).dropWhile (· ≠ slash))
      have hrun := hlen (· ≠ slash) l
      rw [hs] at hpath
      rw [List.dropWhile_cons_of_pos (by simpa using hb)] at htail ⊢
      exact (htail.trans hrun).trans_lt hpath

/-! ## The tree -/

namespace Volume

variable {v : Volume} {i : Nat}

def child (v : Volume) (i : Nat) (name : List Byte) : Option Nat :=
  if (v.inode i).type = tDir then (v.lookup i name).map Prod.fst else none

def resolve (v : Volume) : Nat → List (List Byte) → Option Nat
  | i, [] => some i
  | i, name :: names => (v.child i name).bind fun j => resolve v j names

/-- Where the loop of `namex` ends: at the last inode, or one name earlier. -/
def target (v : Volume) (parent : Bool) : Nat → List (List Byte) → Option (Nat × List Byte)
  | i, [] => if parent then none else some (i, [])
  | i, name :: names =>
    if (v.inode i).type ≠ tDir then none
    else if parent ∧ names = [] then some (i, name)
    else (v.lookup i name).bind fun x => target v parent x.1 names

theorem target_cons (v : Volume) (parent : Bool) (i : Nat) (name : List Byte) {names : List (List Byte)}
    (h : ¬(parent = true ∧ names = [])) :
    v.target parent i (name :: names) = (v.child i name).bind fun j => v.target parent j names := by
  rw [target, ite_not, child, if_neg h]
  split
  · rw [Option.bind_map]
    rfl
  · rfl

theorem target_false (v : Volume) (i : Nat) (names : List (List Byte)) :
    v.target false i names = (v.resolve i names).map fun j => (j, []) := by
  induction names generalizing i with
  | nil => rfl
  | cons name names ih =>
    rw [target_cons v false i name nofun, resolve, Option.map_bind]
    exact Option.bind_congr fun j _ => ih j

theorem target_true (v : Volume) (i : Nat) (names : List (List Byte)) (name : List Byte) :
    v.target true i (names ++ [name]) =
      (v.resolve i names).bind fun d => if (v.inode d).type = tDir then some (d, name) else none := by
  induction names generalizing i with
  | nil =>
    rw [List.nil_append, target, ite_not, if_pos (show true = true ∧ _ from ⟨rfl, rfl⟩)]
    rfl
  | cons n names ih =>
    rw [List.cons_append, target_cons v true i n (by simp), resolve, Option.bind_assoc]
    exact Option.bind_congr fun j _ => ih j

theorem resolve_append (v : Volume) (i : Nat) (names : List (List Byte)) (name : List Byte) :
    v.resolve i (names ++ [name]) = (v.resolve i names).bind fun d => v.child d name := by
  induction names generalizing i with
  | nil =>
    change (v.child i name).bind some = v.child i name
    cases v.child i name <;> rfl
  | cons n names ih =>
    rw [List.cons_append, resolve, resolve, Option.bind_assoc]
    exact Option.bind_congr fun j _ => ih j

end Volume

/-! ## References -/

variable {P : Type} {sb : Superblock} {v : Volume} {s t u : State P} {ip jp : Iptr} {i j : Nat}
    {L L' : List (Iptr × Nat)}
  {lk : Option Iptr} {E : Fail → Prop}

def Kept (sb : Superblock) (v : Volume) (s : State P) (i : Nat) : Prop :=
  v.Live sb i ∧ ((v.inode i).nlink = 0 → ∃ q, 0 < (s.icache q).ref ∧ (s.icache q).inum = i)

structure Settled (sb : Superblock) (v : Volume) (s : State P) : Prop where
  sbEq : s.sb = sb
  tracks : Tracks sb v v.inode s.disk
  solid : v.Solid sb
  root : Kept sb v s rootino
  dirs : ∀ i, v.Live sb i → (v.inode i).type = tDir →
    direntSize ∣ (v.inode i).size.toNat ∧ ∀ de ∈ v.slots i, de.inum ≠ 0 → Kept sb v s de.inum
  unlocked : ∀ q, (s.icache q).locked = false
  nonneg : ∀ q, 0 ≤ (s.icache q).ref
  live : ∀ q, 0 < (s.icache q).ref → v.Live sb (s.icache q).inum
  copy : ∀ q, 0 < (s.icache q).ref → (s.icache q).valid = true → (s.icache q).copy = v.inode (s.icache q).inum

/-- The call has got the references in `L`, and has locked `lk`. -/
structure Holding (sb : Superblock) (v : Volume) (s : State P) (L : List (Iptr × Nat)) (lk : Option Iptr)
    (t : State P) : Prop where
  rest : t = { s with icache := t.icache }
  ref : ∀ q, (t.icache q).ref = (s.icache q).ref + (L.map Prod.fst).count q
  inum : ∀ q, 0 < (s.icache q).ref → (t.icache q).inum = (s.icache q).inum
  held : ∀ x ∈ L, (t.icache x.1).inum = x.2 ∧ Kept sb v s x.2 ∧
    ((s.icache x.1).ref = 0 → ∀ q, 0 < (s.icache q).ref → (s.icache q).inum ≠ x.2)
  copy : ∀ q, 0 < (t.icache q).ref → (t.icache q).valid = true → (t.icache q).copy = v.inode (t.icache q).inum
  locked : ∀ q, (t.icache q).locked = decide (lk = some q)

/-- The only failure: not even two slots are free. -/
def Crowded (s : State P) (e : Fail) : Prop :=
  e = .panic .igetNoInodes ∧ ∀ a b, (s.icache a).ref = 0 → (s.icache b).ref = 0 → a = b

namespace Holding

theorem start (hs : Settled sb v s) : Holding sb v s [] none s :=
  ⟨rfl, fun _ => (Int.add_zero _).symm, fun _ _ => rfl, nofun, hs.copy, hs.unlocked⟩

variable (h : Holding sb v s L lk t)
include h

theorem perm (hp : L.Perm L') : Holding sb v s L' lk t :=
  { h with
    ref := fun q => by rw [h.ref q, (hp.map Prod.fst).count_eq]
    held := fun x hx => h.held x (hp.mem_iff.mpr hx) }

theorem ref_pos (hs : Settled sb v s) (hmem : (ip, j) ∈ L) : 0 < (t.icache ip).ref := by
  have hcount : 0 < (L.map Prod.fst).count ip := List.count_pos_iff.mpr (List.mem_map.mpr ⟨_, hmem, rfl⟩)
  have hnonneg := hs.nonneg ip
  rw [h.ref]
  omega

theorem set {x : Inode} (hinum : 0 < (s.icache ip).ref → x.inum = (s.icache ip).inum)
    (href : x.ref = (s.icache ip).ref + (L'.map Prod.fst).count ip)
    (hcount : ∀ q, q ≠ ip → (L'.map Prod.fst).count q = (L.map Prod.fst).count q)
    (hheld : ∀ y ∈ L', ((t.setSlot ip x).icache y.1).inum = y.2 ∧ Kept sb v s y.2 ∧
      ((s.icache y.1).ref = 0 → ∀ q, 0 < (s.icache q).ref → (s.icache q).inum ≠ y.2))
    (hcopy : x.valid = true → 0 < x.ref → x.copy = v.inode x.inum) {lk' : Option Iptr}
    (hlocked : x.locked = decide (lk' = some ip)) (hother : ∀ q, q ≠ ip → (lk = some q ↔ lk' = some q)) :
    Holding sb v s L' lk' (t.setSlot ip x) := by
  refine ⟨congrArg (fun w : State P => { w with icache := Function.update t.icache ip x }) h.rest, fun q => ?_,
    fun q hq => ?_, hheld, fun q hq hv => ?_, fun q => ?_⟩ <;>
  rcases eq_or_ne q ip with rfl | hne
  · rw [setSlot_self, href]
  · rw [setSlot_ne _ _ hne, h.ref, hcount q hne]
  · rw [setSlot_self, hinum hq]
  · rw [setSlot_ne _ _ hne, h.inum q hq]
  · rw [setSlot_self] at hq hv ⊢
    exact hcopy hv hq
  · rw [setSlot_ne _ _ hne] at hq hv ⊢
    exact h.copy q hq hv
  · rw [setSlot_self, hlocked]
  · rw [setSlot_ne _ _ hne, h.locked, decide_eq_decide]
    exact hother q hne

theorem got (hs : Settled sb v s) {x : Inode} (hgot : Got t j ip x) (hkept : Kept sb v s j) :
    Holding sb v s ((ip, j) :: L) lk (t.setSlot ip x) := by
  have hused : ∀ q, 0 < (s.icache q).ref → 0 < (t.icache q).ref := fun q hq => by
    rw [h.ref]
    omega
  have hinum : 0 < (t.icache ip).ref → x.inum = (t.icache ip).inum := fun hpos => by
    cases hgot with
    | shared => rfl
    | fresh hzero => omega
  refine h.set (fun hq => by rw [hinum (hused ip hq), h.inum ip hq]) ?_
    (fun q hne => by rw [List.map_cons, List.count_cons_of_ne hne.symm]) (fun y hy => ?_) (fun hv hpos => ?_) ?_
    fun _ _ => Iff.rfl
  · rw [hgot.ref, h.ref, List.map_cons, List.count_cons_self]
    omega
  · rcases List.mem_cons.mp hy with rfl | hmem
    · -- the call has found the inode in this slot, where nobody used it before
      refine ⟨by rw [setSlot_self, hgot.inum], hkept, fun hzero q hq hj => ?_⟩
      have hzero : (s.icache ip).ref = 0 := hzero
      cases hgot with
      | shared hpos hip =>
        have hcount : 0 < (L.map Prod.fst).count ip := by
          rw [h.ref, hzero] at hpos
          omega
        obtain ⟨y, hmem, rfl⟩ := List.mem_map.mp (List.count_pos_iff.mp hcount)
        obtain ⟨hyi, -, hnew⟩ := h.held y hmem
        exact hnew hzero q hq (by rw [hj, ← hip, hyi])
      | fresh _ hno => exact hno q (hused q hq) (by rw [h.inum q hq, hj])
    · obtain ⟨hyi, hrest⟩ := h.held y hmem
      refine ⟨?_, hrest⟩
      rcases eq_or_ne y.1 ip with rfl | hne
      · rw [setSlot_self, hinum (h.ref_pos hs hmem), hyi]
      · rw [setSlot_ne _ _ hne, hyi]
  · cases hgot with
    | shared hused => exact h.copy ip hused hv
    | fresh => cases hv
  · rw [← h.locked ip]
    cases hgot <;> rfl

omit h in
theorem inum_setSlot {x : Inode} (hx : x.inum = (t.icache ip).inum) (q : Iptr) :
    ((t.setSlot ip x).icache q).inum = (t.icache q).inum := by
  rcases eq_or_ne q ip with rfl | hne
  · rw [setSlot_self, hx]
  · rw [setSlot_ne _ _ hne]

theorem same {x : Inode} (hinum : x.inum = (t.icache ip).inum) (href : x.ref = (t.icache ip).ref)
    (hcopy : x.valid = true → 0 < x.ref → x.copy = v.inode x.inum) {lk' : Option Iptr}
    (hlocked : x.locked = decide (lk' = some ip)) (hother : ∀ q, q ≠ ip → (lk = some q ↔ lk' = some q)) :
    Holding sb v s L lk' (t.setSlot ip x) :=
  h.set (fun hq => by rw [hinum, h.inum ip hq]) (by rw [href, h.ref]) (fun _ _ => rfl)
    (fun y hy => by rw [inum_setSlot hinum]; exact h.held y hy) hcopy hlocked hother

omit h in
theorem ilock_ends {Q : Unit → State P → Prop} (hs : Settled sb v s) (h : Holding sb v s L none t) (hmem : (ip, j) ∈ L)
    (hQ : ∀ u, Holding sb v s L (some ip) u → (u.icache ip).copy = v.inode j → Q () u) : Ends E (ilock ip) Q t := by
  obtain ⟨hip, ⟨hlive, -⟩, -⟩ := h.held _ hmem
  have hpos := h.ref_pos hs hmem
  refine Fs.ilock_ends (d := v.inode j) ?_ hpos (fun hv => ?_) (fun _ => ⟨?_, hlive.2⟩) fun _ =>
    hQ _ (h.same ?_ ?_ ?_ ?_ ?_) ?_
  · simp [h.locked ip]
  · rw [h.copy ip hpos hv, hip]
  · rw [hip, h.rest]
    exact hs.sbEq ▸ hs.tracks.inode j hlive.1
  · rfl
  · rfl
  · exact fun _ _ => congrArg v.inode hip.symm
  · simp
  · exact fun q hne => by simp [hne.symm]
  · rw [setSlot_self]

omit h in
theorem iunlock_ends {Q : Unit → State P → Prop} (hs : Settled sb v s) (h : Holding sb v s L (some ip) t)
    (hmem : (ip, j) ∈ L) (hQ : ∀ u, Holding sb v s L none u → Q () u) : Ends E (iunlock ip) Q t := by
  have hpos := h.ref_pos hs hmem
  refine Fs.iunlock_ends (by simp [h.locked]) hpos (hQ _ (h.same ?_ ?_ ?_ ?_ ?_))
  · rfl
  · rfl
  · exact fun hv _ => h.copy ip hpos hv
  · simp
  · exact fun q hne => by simp [hne.symm]

omit h in
theorem iput_ends {Q : Unit → State P → Prop} (hs : Settled sb v s) (h : Holding sb v s ((ip, j) :: L) lk t)
    (hQ : ∀ u, Holding sb v s L lk u → Q () u) : Ends E (iput ip) Q t := by
  obtain ⟨hip, hkept, hnew⟩ := h.held _ List.mem_cons_self
  have hpos := h.ref_pos hs List.mem_cons_self
  have href := h.ref ip
  rw [List.map_cons, List.count_cons_self] at href
  refine Fs.iput_ends ?_ (hQ _ (h.set (x := { t.icache ip with ref := (t.icache ip).ref - 1 }) (h.inum ip) ?_
    (fun q hne => by rw [List.map_cons, List.count_cons_of_ne hne.symm]) (fun y hy => ?_)
    (fun hv _ => h.copy ip hpos hv) (h.locked ip) fun _ _ => Iff.rfl))
  · -- the last reference: an inode without links would have had another one before the call
    rintro ⟨hone, hvalid, hnlink⟩
    have hnonneg := hs.nonneg ip
    rw [h.copy ip hpos hvalid, hip] at hnlink
    obtain ⟨q, hq, hqi⟩ := hkept.2 hnlink
    exact hnew (show (s.icache ip).ref = 0 by omega) q hq hqi
  · dsimp only
    omega
  · obtain ⟨hyi, hrest⟩ := h.held y (List.mem_cons_of_mem _ hy)
    exact ⟨(inum_setSlot (x := { t.icache ip with ref := (t.icache ip).ref - 1 }) rfl y.1).trans hyi, hrest⟩

omit h in
theorem iunlockput_ends {Q : Unit → State P → Prop} (hs : Settled sb v s)
    (h : Holding sb v s ((ip, j) :: L) (some ip) t)
    (hQ : ∀ u, Holding sb v s L none u → Q () u) : Ends E (iunlockput ip) Q t :=
  ends_bind.mpr (iunlock_ends hs h List.mem_cons_self fun _ hu => iput_ends hs hu hQ)

theorem crowded (hlen : L.length ≤ 1) (hfull : ∀ q, (t.icache q).ref ≠ 0) : Crowded s (.panic .igetNoInodes) := by
  have hmem : ∀ q, (s.icache q).ref = 0 → q ∈ L.map Prod.fst := fun q hzero => by
    have hne := hfull q
    rw [h.ref, hzero] at hne
    exact List.count_pos_iff.mp (by omega)
  refine ⟨rfl, fun a b ha hb => ?_⟩
  match L, hlen with
  | [], _ => cases hmem a ha
  | [x], _ => rw [List.mem_singleton.mp (hmem a ha), List.mem_singleton.mp (hmem b hb)]

theorem openDir (hs : Settled sb v s) (hmem : (ip, j) ∈ L) (hcopy : (t.icache ip).copy = v.inode j)
    (hdir : (v.inode j).type = tDir) : OpenDir sb v ip j t := by
  obtain ⟨hip, ⟨hlive, -⟩, -⟩ := h.held _ hmem
  refine ⟨?_, ?_, hs.solid, hlive, hdir, (hs.dirs j hlive hdir).1, hip, h.ref_pos hs hmem, hcopy⟩
  · rw [h.rest, hs.sbEq]
  · rw [h.rest]
    exact hs.tracks

theorem dirlookup_ends (hs : Settled sb v s) (hlen : L.length ≤ 1) (hmem : (ip, j) ∈ L)
    (hcopy : (t.icache ip).copy = v.inode j) (hdir : (v.inode j).type = tDir) (name : List Byte)
    {Q : Option (Iptr × Nat) → State P → Prop} (hnone : v.lookup j name = none → Q none t)
    (hsome : ∀ jp x u, v.lookup j name = some x → Holding sb v s ((jp, x.1) :: L) lk u → Q (some (jp, x.2)) u) :
    Ends (Crowded s) (dirlookup ip name) Q t := by
  have hopen := h.openDir hs hmem hcopy hdir
  refine hopen.dirlookup_ends (h.crowded hlen) name (fun hno => hnone (Volume.lookup_eq_none.mpr hno))
    fun e he hfind jp x hgot => ?_
  refine hsome jp (_, _) _ (Volume.lookup_of_find he hfind) (h.got hs hgot ?_)
  have hm := key_eq_some.mp (of_decide_eq_true (List.findIdx?_eq_some_iff_getElem.mp hfind).2.1)
  exact (hs.dirs j hopen.live hdir).2 _ (List.getElem_mem he) hm.1

end Holding

/-! ## `namex` -/

def Found (sb : Superblock) (v : Volume) (s : State P) (L : List (Iptr × Nat)) (lk : Option Iptr) :
    Option Iptr → Option Nat → State P → Prop
  | none, none, t => Holding sb v s L lk t
  | some ip, some i, t => Holding sb v s ((ip, i) :: L) lk t
  | _, _, _ => False

theorem stop_ends (hs : Settled sb v s) (parent : Bool) {Q : Option (Iptr × List Byte) → State P → Prop}
    (h : Holding sb v s [(ip, j)] none t)
    (hnone : v.target parent j [] = none → ∀ u, Holding sb v s [] none u → Q none u)
    (hsome : ∀ jp x u, v.target parent j [] = some x → Holding sb v s [(jp, x.1)] none u → Q (some (jp, x.2)) u) :
    Ends E (if parent then do iput ip; pure none else pure (some (ip, []))) Q t := by
  refine ends_ite (fun hp => ?_) fun hp => ends_pure (hsome ip (j, []) t (if_neg hp) h)
  exact ends_bind.mpr (h.iput_ends hs fun u hu => ends_pure (hnone (if_pos hp) u hu))

theorem walk_ends (hs : Settled sb v s) (parent : Bool) {Q : Option (Iptr × List Byte) → State P → Prop} (fuel : Nat)
    {path : List Byte} (hlen : path.length ≤ fuel) (h : Holding sb v s [(ip, j)] none t)
    (hnone : v.target parent j (components path) = none → ∀ u, Holding sb v s [] none u → Q none u)
    (hsome : ∀ jp x u, v.target parent j (components path) = some x → Holding sb v s [(jp, x.1)] none u →
      Q (some (jp, x.2)) u) : Ends (Crowded s) (walk parent fuel path ip) Q t := by
  induction fuel generalizing path ip j t with
  | zero =>
    obtain rfl := List.length_eq_zero_iff.mp (Nat.le_zero.mp hlen)
    exact stop_ends hs parent h hnone hsome
  | succ fuel ih =>
    rw [walk]
    cases hskip : skipelem path with
    | none =>
      rw [skipelem_none hskip] at hnone hsome
      exact stop_ends hs parent h hnone hsome
    | some x =>
      obtain ⟨hcomp, hrest, hless⟩ := skipelem_some hskip
      rw [hcomp, Volume.target] at hnone hsome
      refine ends_bind.mpr (h.ilock_ends hs List.mem_cons_self fun u hu hcopy => inodeAt_ends ?_)
      rw [hcopy]
      refine ends_ite (fun hty => ?_) fun hty => ?_
      · exact ends_bind.mpr (hu.iunlockput_ends hs fun w hw => ends_pure (hnone (if_pos hty) w hw))
      rw [if_neg hty] at hnone hsome
      refine ends_ite (fun hlast => ?_) fun hmore => ?_
      · exact ends_bind.mpr (hu.iunlock_ends hs List.mem_cons_self fun w hw =>
          ends_pure (hsome ip (j, x.1) w (if_pos ⟨hlast.1, hrest.mp hlast.2⟩) hw))
      rw [if_neg fun hlast => hmore ⟨hlast.1, hrest.mpr hlast.2⟩] at hnone hsome
      refine ends_bind.mpr (hu.dirlookup_ends hs le_rfl List.mem_cons_self hcopy (not_not.mp hty) x.1 (fun hno => ?_)
        fun jp y w hy hw => ?_)
      · exact ends_bind.mpr (hu.iunlockput_ends hs fun w hw => ends_pure (hnone (by rw [hno]; rfl) w hw))
      · rw [hy, Option.bind_some] at hnone hsome
        exact ends_bind.mpr ((hw.perm (.swap ..)).iunlockput_ends hs fun w' hw' => ih (by omega) hw' hnone hsome)

section

variable {p : P} {wp : Iptr}

def startInum (s : State P) (wp : Iptr) (path : List Byte) : Nat :=
  if path.head? = some slash then rootino else (s.icache wp).inum

theorem startOf_ends (hs : Settled sb v s) (hcwd : (s.proc p).cwd = some wp) (hused : 0 < (s.icache wp).ref)
    (path : List Byte) {Q : Iptr → State P → Prop}
    (hQ : ∀ ip t, Holding sb v s [(ip, startInum s wp path)] none t → Q ip t) :
    Ends (Crowded s) (startOf p path) Q s := by
  have hstart := Holding.start hs
  unfold startInum at hQ
  refine ends_ite (fun hslash => ?_) fun hslash => ?_
  · rw [if_pos hslash] at hQ
    exact iget_ends (hstart.crowded (Nat.zero_le _)) fun ip x hgot => hQ ip _ (hstart.got hs hgot hs.root)
  · rw [if_neg hslash] at hQ
    refine ends_bind.mpr (ends_get_bind ?_)
    rw [hcwd]
    refine ends_pure (ends_modify_bind (ends_pure (hQ wp _ (hstart.got hs (.shared hused rfl) ?_))))
    exact ⟨hs.live wp hused, fun _ => ⟨wp, hused, rfl⟩⟩

theorem namex_ends (hs : Settled sb v s) (hcwd : (s.proc p).cwd = some wp) (hused : 0 < (s.icache wp).ref)
    (path : List Byte) (parent : Bool) {Q : Option (Iptr × List Byte) → State P → Prop}
    (hnone : v.target parent (startInum s wp path) (components path) = none → ∀ u, Holding sb v s [] none u → Q none u)
    (hsome : ∀ jp x u, v.target parent (startInum s wp path) (components path) = some x →
      Holding sb v s [(jp, x.1)] none u → Q (some (jp, x.2)) u) : Ends (Crowded s) (namex p path parent) Q s :=
  ends_bind.mpr (startOf_ends hs hcwd hused path fun _ _ h => walk_ends hs parent _ le_rfl h hnone hsome)

theorem paths_resolve (hs : Settled sb v s) (hcwd : (s.proc p).cwd = some wp) (hused : 0 < (s.icache wp).ref)
    (path : List Byte) :
    Ends (Crowded s) (namei p path)
      (fun r t => Found sb v s [] none r (v.resolve (startInum s wp path) (components path)) t) s ∧
    (components path = [] → Ends (Crowded s) (nameiparent p path) (fun r t => r = none ∧ Holding sb v s [] none t) s) ∧
    ∀ names name, components path = names ++ [name] → Ends (Crowded s) (nameiparent p path)
      (fun r t => match r with
        | none => (¬∃ d, v.resolve (startInum s wp path) names = some d ∧ (v.inode d).type = tDir) ∧
            Holding sb v s [] none t
        | some (dp, name') => name' = name ∧ ∃ d, v.resolve (startInum s wp path) names = some d ∧
            (v.inode d).type = tDir ∧ Holding sb v s [(dp, d)] none t ∧
            Ends (Crowded s) (do ilock dp; dirlookup dp name) (fun x u => Found sb v s [(dp, d)] (some dp)
              (x.map Prod.fst) (v.resolve (startInum s wp path) (components path)) u) t) s := by
  refine ⟨?_, fun hnil => ?_, fun names name hcomp => ?_⟩
  · refine ends_bind.mpr (namex_ends hs hcwd hused path false (fun hno u hu => ends_pure ?_) fun jp x u hx hu =>
      ends_pure ?_)
    · rw [Volume.target_false, Option.map_eq_none_iff] at hno
      rw [hno]
      exact hu
    · rw [Volume.target_false, Option.map_eq_some_iff] at hx
      obtain ⟨i, hi, rfl⟩ := hx
      rw [hi]
      exact hu
  · refine namex_ends hs hcwd hused path true (fun _ u hu => ⟨rfl, hu⟩) fun jp x u hx _ => ?_
    rw [hnil] at hx
    cases hx
  · rw [hcomp, Volume.resolve_append]
    refine namex_ends hs hcwd hused path true (fun hno u hu => ⟨?_, hu⟩) fun dp x u hx hu => ?_
    · rw [hcomp, Volume.target_true] at hno
      rintro ⟨d, hd, hdir⟩
      rw [hd, Option.bind_some, if_pos hdir] at hno
      cases hno
    · rw [hcomp, Volume.target_true, Option.bind_eq_some_iff] at hx
      obtain ⟨d, hd, hx⟩ := hx
      obtain ⟨hdir, hx⟩ := Option.ite_none_right_eq_some.mp hx
      cases hx
      refine ⟨rfl, d, hd, hdir, hu, ends_bind.mpr (hu.ilock_ends hs List.mem_cons_self fun w hw hcopy => ?_)⟩
      rw [hd, Option.bind_some, Volume.child, if_pos hdir]
      refine hw.dirlookup_ends hs le_rfl List.mem_cons_self hcopy hdir name (fun hno => ?_) fun jp y w' hy hw' => ?_
      · rw [hno]
        exact hw
      · rw [hy]
        exact hw'

end

def rootState : State (Fin 1) where
  sb := mkfsSuper
  disk := fileImage
  icache := fun q => ⟨1, if q = 0 then 1 else 0, false, false, .zero⟩
  ftable := fun _ => ⟨.none, 0, false, false, 0, 0⟩
  proc := fun _ => ⟨fun _ => none, some 0⟩
  log := ⟨0, false, []⟩
  logged := []
  txns := []

theorem rootState_settled : Settled mkfsSuper (stored mkfsSuper fileImage) rootState := by
  have hinode :
      ∀ i < mkfsSuper.ninodes, (stored mkfsSuper fileImage).inode i = [.zero, rootDinode, emptyFile].getD i .zero :=
    fun i hi => getInode_image (show 3 ≤ ipb by decide) hi
  have hkept : ∀ i ∈ [1, 2], Kept mkfsSuper (stored mkfsSuper fileImage) rootState i := by
    intro i hi
    simp only [List.mem_cons, List.not_mem_nil, or_false] at hi
    rcases hi with rfl | rfl <;> rw [Kept, Volume.Live, hinode _ (by decide)] <;> decide
  refine ⟨rfl, tracks_stored (by decide +kernel), fileImage_rooted.solid, hkept 1 (by decide), fun i hi hdir => ?_,
    fun _ => rfl, by decide, fun q _ => (hkept 1 (by decide)).1, by simp [rootState]⟩
  obtain rfl : i = 1 := by
    rw [hinode i hi.1] at hdir
    rcases i with _ | _ | _ | i
    · exact absurd hdir (by decide)
    · rfl
    · exact absurd hdir (by decide)
    · exact absurd (show Dinode.zero.type = tDir from hdir) (by decide)
  refine ⟨by rw [fileImage_rooted.rootSize_toNat]; decide, fun de hde hne => hkept _ ?_⟩
  have hall : ∀ de ∈ (stored mkfsSuper fileImage).slots 1, de.inum ≠ 0 → de.inum ∈ [1, 2] := by decide +kernel
  exact hall de hde hne

theorem slashes_resolve : (stored mkfsSuper fileImage).resolve 1 (components [47, 47, 102]) = some 2 ∧
    Ends (Crowded rootState) (namei 0 [47, 47, 102]) (fun r t =>
      Found mkfsSuper (stored mkfsSuper fileImage) rootState [] none r
        ((stored mkfsSuper fileImage).resolve 1 (components [47, 47, 102])) t) rootState :=
  ⟨by decide +kernel, (paths_resolve rootState_settled rfl (by decide) [47, 47, 102]).1⟩

end Xv6.Fs
