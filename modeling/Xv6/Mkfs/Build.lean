import Xv6.Mkfs.Append
import Xv6.Fs.Directory

/-!
# What `mkfs` builds

`mkfs` makes a root directory that names the files, and the files.
-/

open Function Xv6.Bytes Xv6.Log Xv6.Fs Xv6.Code

namespace Xv6.Mkfs

/-! ## Nodes -/

structure Node where
  type : Half
  bytes : List Byte

def cost (nodes : List Node) : Nat := (nodes.map fun n => blocks n.bytes.length).sum

@[simp] theorem cost_append (xs ys : List Node) : cost (xs ++ ys) = cost xs + cost ys := by
  simp [cost]

@[simp] theorem cost_cons (n : Node) (ns : List Node) : cost (n :: ns) = blocks n.bytes.length + cost ns := rfl

@[simp] theorem cost_nil : cost [] = 0 := rfl

def File.bytes (f : File) : List Byte := (f.chunks.getD []).flatMap Chunk.bytes

/-- The entries of the root directory: its own two, and the files from inode 2 on. -/
def entries (files : List File) : List Dirent :=
  [newDirent rootino dot, newDirent rootino dotdot] ++ (files.zipIdx 2).map fun (f, i) => newDirent i f.target

def rootBytes (files : List File) : List Byte := (entries files).flatMap Dirent.bytes

def made (files : List File) : List Node := ⟨tDir, rootBytes files⟩ :: files.map fun f => ⟨tFile, f.bytes⟩

@[simp] theorem made_length (files : List File) : (made files).length = files.length + 1 := by simp [made]

theorem rootBytes_append (files : List File) (f : File) :
    rootBytes (files ++ [f]) = rootBytes files ++ (newDirent (files.length + 2) f.target).bytes := by
  simp [rootBytes, entries, List.zipIdx_append, Nat.add_comm]

theorem entries_length (files : List File) : (entries files).length = files.length + 2 := by
  rw [entries, List.length_append, List.length_map, List.length_zipIdx]
  exact Nat.add_comm ..

theorem rootBytes_length (files : List File) : (rootBytes files).length = direntSize * (files.length + 2) := by
  induction files using List.reverseRecOn with
  | nil => rfl
  | append_singleton files f ih =>
    rw [rootBytes_append, List.length_append, ih, newDirent_length, List.length_append, List.length_singleton,
      ← Nat.mul_succ]

/-! ## The nodes on the image -/

structure Built (nodes : List Node) (v : Volume) (s : State) : Prop where
  builds : Builds v v.inode s
  owned : v.Owned sb
  inums : s.freeinode = nodes.length + 1
  few : nodes.length < ninodes
  first : (v.inode 0).type = 0
  type : ∀ i, i + 1 < ninodes → (v.inode (i + 1)).type = (nodes.map Node.type).getD i 0
  types : ∀ n ∈ nodes, n.type = tDir ∨ n.type = tFile
  content : ∀ i (h : i < nodes.length), v.content (i + 1) = nodes[i].bytes
  exact : ∀ i, v.Live sb i → Exact v i (v.inode i).size.toNat
  size : ∀ i, v.Live sb i → (v.inode i).size.toNat ≤ maxfile * bsize
  count : s.freeblock = nmeta + cost nodes

namespace Built

variable {nodes : List Node} {v : Volume} {s : State} (h : Built nodes v s)
include h

theorem live_succ {i : Nat} : v.Live sb (i + 1) ↔ i < nodes.length := by
  have hfew := h.few
  constructor
  · rintro ⟨hi, ht⟩
    rw [h.type i hi] at ht
    by_contra hge
    rw [List.getD_eq_default _ _ (by rw [List.length_map]; omega)] at ht
    exact ht rfl
  · intro hi
    have hlt : i + 1 < ninodes := by omega
    refine ⟨hlt, ?_⟩
    rw [h.type i hlt, List.getD_eq_getElem _ _ (by rwa [List.length_map]), List.getElem_map]
    rcases h.types _ (List.getElem_mem hi) with ht | ht
    · rw [ht]
      decide
    · rw [ht]
      decide

theorem live_iff {i : Nat} : v.Live sb i ↔ 1 ≤ i ∧ i ≤ nodes.length := by
  cases i with
  | zero =>
    refine iff_of_false (fun hl => hl.2 h.first) ?_
    omega
  | succ i =>
    rw [h.live_succ]
    omega

theorem type_of_lt {i : Nat} (hi : i < nodes.length) : (v.inode (i + 1)).type = nodes[i].type := by
  have hfew := h.few
  rw [h.type i (by omega), List.getD_eq_getElem _ _ (by rwa [List.length_map]), List.getElem_map]

theorem size_of_lt {i : Nat} (hi : i < nodes.length) : (v.inode (i + 1)).size.toNat = nodes[i].bytes.length := by
  rw [← h.content i hi, Volume.content_length]

theorem not_dev {i : Nat} (hi : v.Live sb i) : (v.inode i).type ≠ tDev := by
  obtain ⟨j, rfl⟩ : ∃ j, i = j + 1 := ⟨i - 1, by have := (h.live_iff.mp hi).1; omega⟩
  have hj := h.live_succ.mp hi
  rw [h.type_of_lt hj]
  rcases h.types _ (List.getElem_mem hj) with ht | ht
  · rw [ht]
    decide
  · rw [ht]
    decide

theorem solid : v.Solid sb := by
  refine ⟨h.owned, fun i hi _ k hk => ?_⟩
  have hle := h.size i hi
  have hmax : k < maxfile := by
    have := Nat.lt_of_lt_of_le hk hle
    exact Nat.lt_of_mul_lt_mul_right this
  exact ⟨hmax, ((h.exact i hi).addr k hmax).mpr hk⟩

omit h in
theorem getD_types (nodes : List Node) (n : Node) (i : Nat) :
    ((nodes ++ [n]).map Node.type).getD i 0 = if i = nodes.length then n.type else (nodes.map Node.type).getD i 0 := by
  rw [List.map_append]
  rcases Nat.lt_trichotomy i nodes.length with hlt | rfl | hgt
  · rw [List.getD_append _ _ _ _ (by rwa [List.length_map]), if_neg (Nat.ne_of_lt hlt)]
  · rw [List.getD_append_right _ _ _ _ (by rw [List.length_map]), if_pos rfl]
    simp
  · rw [List.getD_eq_default _ _ (by simp; omega), if_neg (Nat.ne_of_gt hgt), List.getD_eq_default _ _ (by simp; omega)]

section New

variable {d : Dinode} (hz : d.size = 0)
include hz

omit h in
theorem content_new {i j : Nat} : (v.setInode i d).content j = if j = i then [] else v.content j := by
  by_cases hj : j = i
  · rw [hj, if_pos rfl]
    apply List.eq_nil_of_length_eq_zero
    rw [Volume.content_length, Volume.setInode_self, hz]
    rfl
  · rw [if_neg hj, Volume.content, Volume.setInode_of_ne hj, Volume.content]
    simp only [Volume.bytes, Volume.byte_setInode_of_ne hj]

theorem new (hd : ∀ k, d.addrs k = 0) (hfew : nodes.length + 1 < ninodes) (htype : d.type = tDir ∨ d.type = tFile)
    {t : State} (ht : Builds v (update v.inode (nodes.length + 1) d) t) (hti : t.freeinode = nodes.length + 2)
    (htb : t.freeblock = s.freeblock) : Built (nodes ++ [⟨d.type, []⟩]) (v.setInode (nodes.length + 1) d) t := by
  have hself : (v.setInode (nodes.length + 1) d).inode (nodes.length + 1) = d := Volume.setInode_self ..
  have hdead : ¬v.Live sb (nodes.length + 1) := fun hl => Nat.lt_irrefl _ (h.live_succ.mp hl)
  have hlive : ∀ i, (v.setInode (nodes.length + 1) d).Live sb i →
      i = nodes.length + 1 ∨ i ≠ nodes.length + 1 ∧ v.Live sb i := by
    intro i hi
    by_cases he : i = nodes.length + 1
    · exact .inl he
    · exact .inr ⟨he, (Volume.live_setInode_of_ne he).mp hi⟩
  refine ⟨ht.setInode _ _, h.owned.setEmpty hd fun hl => absurd hl hdead, ?_, ?_, ?_, fun i hi => ?_, fun n hn => ?_,
    fun i hi => ?_, fun i hi => ?_, fun i hi => ?_, ?_⟩
  · rw [hti, List.length_append, List.length_singleton]
  · rwa [List.length_append, List.length_singleton]
  · rw [Volume.setInode_of_ne (Nat.succ_ne_zero _).symm]
    exact h.first
  · rw [getD_types]
    by_cases he : i = nodes.length
    · rw [if_pos he, he, hself]
    · rw [if_neg he, Volume.setInode_of_ne (fun hs => he (Nat.succ.inj hs)), h.type i hi]
  · rcases List.mem_append.mp hn with hn | hn
    · exact h.types n hn
    · rw [List.mem_singleton.mp hn]
      exact htype
  · rw [content_new hz]
    rw [List.length_append, List.length_singleton] at hi
    by_cases he : i = nodes.length
    · subst he
      simp
    · have hlt : i < nodes.length := by omega
      rw [if_neg (fun hs => he (Nat.succ.inj hs)), List.getElem_append_left hlt, h.content i hlt]
  · rcases hlive i hi with rfl | ⟨hne, hl⟩
    · rw [hself, hz]
      have haddrs : ∀ k, ((v.setInode (nodes.length + 1) d).inode (nodes.length + 1)).addrs k = 0 := by
        rw [hself]
        exact hd
      exact ⟨fun k _ => by simp [Volume.addr_of_addrs_zero haddrs],
        by simp [Volume.indirectOf_of_addrs_zero haddrs]⟩
    · rw [Volume.setInode_of_ne hne]
      exact (h.exact i hl).congr (fun _ _ => Volume.addr_setInode_of_ne hne) (Volume.indirectOf_setInode_of_ne hne)
  · rcases hlive i hi with rfl | ⟨hne, hl⟩
    · rw [hself, hz]
      exact Nat.zero_le _
    · rw [Volume.setInode_of_ne hne]
      exact h.size i hl
  · rw [htb, h.count]
    simp [blocks, bsize]

end New

theorem ialloc_ends {E : Exit → Prop} {type : Half} (htype : type = tDir ∨ type = tFile)
    (hfew : nodes.length + 1 < ninodes) {Q : Nat → State → Prop}
    (hQ : ∀ v' t, Built (nodes ++ [⟨type, []⟩]) v' t → Q (nodes.length + 1) t) : Ends E (ialloc type) Q s := by
  refine ends_get_bind (ends_modify_bind ?_)
  rw [h.inums]
  have hnext : Builds v v.inode { s with freeinode := nodes.length + 1 + 1 } :=
    ⟨h.builds.tracks, h.builds.sectors, h.builds.used, h.builds.fresh, h.builds.low, h.builds.high⟩
  exact ends_bind.mpr (winode_ends hnext hfew fun t ht hti htb =>
    ends_pure (hQ _ t (h.new rfl (fun _ => rfl) hfew htype ht hti htb)))

omit h in
theorem iappend_ends {E : Exit → Prop} {pre post : List Node} {n : Node} (h : Built (pre ++ n :: post) v s)
    (p : List Byte) {Q : Unit → State → Prop}
    (hE : maxfile * bsize < n.bytes.length + p.length ∨
      fssize < nmeta + cost (pre ++ ⟨n.type, n.bytes ++ p⟩ :: post) → ∀ e, E e)
    (hQ : ∀ v' t, Built (pre ++ ⟨n.type, n.bytes ++ p⟩ :: post) v' t → Q () t) :
    Ends E (iappend (pre.length + 1) p) Q s := by
  have hlen : pre.length < (pre ++ n :: post).length := by simp
  have hi := h.live_succ.mpr hlen
  have hnode : (pre ++ n :: post)[pre.length] = n := by simp
  have hsize := h.size_of_lt hlen
  rw [hnode] at hsize
  refine Mkfs.iappend_ends h.builds h.owned hi (h.exact _ hi) (h.size _ hi) (fun hs => hE ?_)
    fun v' t hup hx hother ho hb hgrow hmax hti htb => hQ v' t ?_
  · rw [hsize] at hs
    rcases hs with hlong | hfull
    · exact .inl hlong
    · have hmono : blocks n.bytes.length ≤ blocks (n.bytes.length + p.length) := blocks_mono (Nat.le_add_right _ _)
      have hcount := h.count
      simp only [cost_append, cost_cons, List.length_append] at hcount ⊢
      exact .inr (by omega)
  · have hlive : ∀ i, v'.Live sb i ↔ v.Live sb i := hup.live
    have htypes : (pre ++ ⟨n.type, n.bytes ++ p⟩ :: post).map Node.type = (pre ++ n :: post).map Node.type := by simp
    have hlens : (pre ++ (⟨n.type, n.bytes ++ p⟩ : Node) :: post).length = (pre ++ n :: post).length := by simp
    refine ⟨hb, ho, ?_, hlens ▸ h.few, ?_, fun i hlt => ?_, fun m hm => ?_, fun i hlt => ?_, fun i hl => ?_,
      fun i hl => ?_, ?_⟩
    · rw [hti, hlens]
      exact h.inums
    · rw [hup.type]
      exact h.first
    · rw [hup.type, htypes]
      exact h.type i hlt
    · have hm' : m.type ∈ (pre ++ n :: post).map Node.type := htypes ▸ List.mem_map_of_mem hm
      obtain ⟨m', hmem, he⟩ := List.mem_map.mp hm'
      rw [← he]
      exact h.types m' hmem
    · have hstores : v.Stores sb (i + 1) := by
        have hl := h.live_succ.mpr (hlens ▸ hlt)
        exact ⟨hl, h.not_dev hl⟩
      by_cases he : i = pre.length
      · subst he
        have hall := h.content pre.length hlen
        rw [hnode] at hall
        rw [hup.content_self h.solid hstores (Nat.le_refl _), hall, hsize, List.take_length,
          List.drop_eq_nil_of_le (Nat.le_add_right _ _), List.append_nil]
        simp
      · rw [hup.content_other h.solid hstores (fun hs => he (Nat.succ.inj hs)), h.content i (hlens ▸ hlt)]
        rw [List.getElem_append, List.getElem_append]
        split
        · rfl
        · rw [List.getElem_cons, List.getElem_cons, dif_neg (by omega), dif_neg (by omega)]
    · by_cases he : i = pre.length + 1
      · rw [he]
        exact hx
      · rw [hup.other he]
        exact hother i _ he ((hlive i).mp hl) (h.exact i ((hlive i).mp hl))
    · by_cases he : i = pre.length + 1
      · rw [he]
        exact hmax
      · rw [hup.other he]
        exact h.size i ((hlive i).mp hl)
    · have hmono : blocks n.bytes.length ≤ blocks (n.bytes.length + p.length) := blocks_mono (Nat.le_add_right _ _)
      have hcount := h.count
      rw [htb, hgrow, hsize]
      simp only [cost_append, cost_cons, List.length_append] at hcount ⊢
      omega

end Built

/-! ## The files -/

structure Room (files : List File) : Prop where
  names : ∀ f ∈ files, slash ∉ f.name
  opens : ∀ f ∈ files, f.chunks ≠ none
  sizes : ∀ f ∈ files, f.bytes.length ≤ maxfile * bsize
  blocks : nmeta + cost (made files) ≤ fssize
  inums : files.length + 1 < ninodes

def growing (done : List File) (f : File) (part : List Byte) : List Node :=
  (⟨tDir, rootBytes (done ++ [f])⟩ :: done.map fun f => ⟨tFile, f.bytes⟩) ++ [⟨tFile, part⟩]

theorem growing_bytes (done : List File) (f : File) : growing done f f.bytes = made (done ++ [f]) := by
  simp [growing, made]

theorem cost_growing_le {done rest : List File} {f : File} {part : List Byte} (hpart : part.length ≤ f.bytes.length) :
    cost (growing done f part) ≤ cost (made (done ++ f :: rest)) := by
  have hpart := blocks_mono hpart
  have hroot : blocks (rootBytes (done ++ [f])).length ≤ blocks (rootBytes (done ++ f :: rest)).length := by
    apply blocks_mono
    rw [rootBytes_length, rootBytes_length]
    apply Nat.mul_le_mul_left
    simp
  simp only [growing, made, cost_append, cost_cons, cost_nil, List.map_append, List.map_cons]
  omega

theorem rootBytes_short {files : List File} (hfew : files.length + 1 < ninodes) :
    (rootBytes files).length ≤ maxfile * bsize := by
  rw [rootBytes_length]
  simp only [direntSize, dirsiz, maxfile, ndirect, nindirect, bsize, ninodes] at hfew ⊢
  omega

section Files

variable {files done rest : List File} {f : File} {v : Volume} {s : State} {E : Exit → Prop}
    (hE : ¬Room files → ∀ e, E e)
  (hfew : files.length + 1 < ninodes) (hfiles : files = done ++ f :: rest)
include hE hfiles

theorem chunks_ends {chunks : List Chunk} (hchunks : f.bytes = chunks.flatMap Chunk.bytes)
    (h : Built (growing done f []) v s) {Q : Unit → State → Prop}
    (hQ : ∀ v' t, Built (made (done ++ [f])) v' t → Q () t) :
    Ends E (chunks.forM fun c => iappend (done.length + 2) c.bytes) Q s := by
  have hmem : f ∈ files := by simp [hfiles]
  refine (ends_forM (I := fun left t => ∃ v' part, part ++ left.flatMap Chunk.bytes = f.bytes ∧
    Built (growing done f part) v' t) ⟨v, [], hchunks.symm, h⟩ fun c left t ht => ?_).mono ?_
  · obtain ⟨v', part, hpart, hb⟩ := ht
    have hle : part.length + c.bytes.length ≤ f.bytes.length := by
      rw [← hpart]
      simp
    have happend :=
      hb.iappend_ends c.bytes (E := E) (Q := fun _ u => ∃ v'' part', part' ++ left.flatMap Chunk.bytes = f.bytes ∧
      Built (growing done f part') v'' u) (fun hbad => hE fun hr => ?_) fun v'' u hu => ⟨v'', part ++ c.bytes, ?_, hu⟩
    · simpa using happend
    · have hsize := hr.sizes f hmem
      have hcost := hr.blocks
      have hgrow : cost (growing done f (part ++ c.bytes)) ≤ cost (made files) :=
        hfiles ▸ cost_growing_le (by rwa [List.length_append])
      change maxfile * bsize < part.length + c.bytes.length ∨
        fssize < nmeta + cost (growing done f (part ++ c.bytes)) at hbad
      omega
    · rw [← hpart]
      simp
  · rintro ⟨⟩ t ⟨v', part, hpart, hb⟩
    obtain rfl : part = f.bytes := by simpa using hpart
    rw [growing_bytes] at hb
    exact hQ v' t hb

include hfew

theorem addFile_ends (h : Built (made done) v s) {Q : Unit → State → Prop}
    (hQ : ∀ v' t, Built (made (done ++ [f])) v' t → Q () t) : Ends E (addFile rootino f) Q s := by
  have hmem : f ∈ files := by simp [hfiles]
  have hlen : done.length + 1 ≤ files.length := by simp [hfiles]
  unfold addFile
  refine ends_bind.mpr (assert_ends (fun _ => ?_) fun hno => hE (fun hr => hno (hr.names f hmem)) _)
  split
  case h_1 hnone => exact ends_stop (hE (fun hr => hr.opens f hmem hnone) _)
  case h_2 chunks hsome =>
    have hchunks : f.bytes = chunks.flatMap Chunk.bytes := by simp [File.bytes, hsome]
    refine ends_bind.mpr (h.ialloc_ends (.inr rfl) (by rw [made_length]; omega) fun v₁ t₁ h₁ => ?_)
    rw [made_length]
    have hroot :
        Built ([] ++ ⟨tDir, rootBytes done⟩ :: ((done.map fun f => ⟨tFile, f.bytes⟩) ++ [⟨tFile, []⟩])) v₁ t₁ := h₁
    have hgrow : [] ++ (⟨tDir, rootBytes done ++ (newDirent (done.length + 2) f.target).bytes⟩ : Node) ::
        ((done.map fun f => ⟨tFile, f.bytes⟩) ++ [⟨tFile, []⟩]) = growing done f [] := by
      rw [growing, rootBytes_append]
      rfl
    refine ends_bind.mpr (hroot.iappend_ends _ (fun hbad => hE fun hr => ?_) fun v₂ t₂ h₂ =>
      chunks_ends hE hfiles hchunks (hgrow ▸ h₂) hQ)
    have hshort : (rootBytes (done ++ [f])).length ≤ maxfile * bsize := rootBytes_short (by simp; omega)
    have hcost : cost (growing done f []) ≤ cost (made files) := hfiles ▸ cost_growing_le (Nat.zero_le _)
    have hfit := hr.blocks
    rw [rootBytes_append, List.length_append] at hshort
    rw [← hgrow] at hcost
    rcases hbad with hlong | hfull
    · exact Nat.not_lt.mpr hshort hlong
    · exact Nat.not_lt.mpr (Nat.le_trans (Nat.add_le_add_left hcost _) hfit) hfull

end Files

/-! ## The whole run -/

def blank : Volume := ⟨fun _ => .zero, fun b => decide (b < nmeta), fun _ _ => 0⟩

theorem testBit_zero (bi : Nat) : testBit (fun _ => 0) bi = false := by simp [testBit]

def formatted : State :=
  { start with disk := update start.disk 1 (listBlock sb.bytes), sectors := fssize }

theorem format_ends {E : Exit → Prop} {Q : Unit → State → Prop} (hQ : Q () formatted) : Ends E format Q start := by
  rw [format, List.range_eq_range']
  refine ends_bind.mpr
    ((ends_forM (I := fun rest t => t.sectors ≤ fssize ∧ rest = List.range' t.sectors (fssize - t.sectors) ∧
    t = { start with sectors := t.sectors }) ⟨Nat.zero_le _, rfl, rfl⟩ fun i rest t ht => ?_).mono ?_)
  · obtain ⟨hle, hrest, heq⟩ := ht
    rw [heq]
    have hlt : t.sectors < fssize := by
      by_contra hge
      rw [Nat.sub_eq_zero_of_le (Nat.not_lt.mp hge)] at hrest
      cases hrest
    rw [show fssize - t.sectors = fssize - (t.sectors + 1) + 1 by omega, List.range'_succ] at hrest
    obtain ⟨rfl, rfl⟩ := List.cons.inj hrest
    refine ends_modify ?_
    have hmax : max t.sectors (t.sectors + 1) = t.sectors + 1 := Nat.max_eq_right (Nat.le_succ _)
    have hdisk : update start.disk t.sectors (fun _ => 0) = start.disk := update_eq_self ..
    simp only [hmax, hdisk]
    exact ⟨hlt, trivial, trivial⟩
  · rintro ⟨⟩ t ⟨hle, hrest, heq⟩
    have hend : t.sectors = fssize := by
      have := congrArg List.length hrest
      rw [List.length_range', List.length_nil] at this
      omega
    rw [heq, hend]
    exact ends_modify hQ

theorem formatted_zero {b : Nat} (hb : b ≠ 1) : formatted.disk b = fun _ => 0 := update_of_ne hb ..

theorem blank_tracks : Tracks sb { blank with used := fun _ => false } blank.inode formatted.disk := by
  refine ⟨?_, fun b hb => ?_, fun b hb => ?_, fun i hi => ?_⟩
  · have hsuper : formatted.disk 1 = listBlock sb.bytes := update_self 1 _ start.disk
    rw [hsuper]
    decide +kernel
  · rw [marked, formatted_zero, testBit_zero]
    have := (sb_valid.bblock_bounds hb).1
    have := sb_valid.lt_bmapstart
    omega
  · rw [formatted_zero]
    · rfl
    · have := hb.1
      have := sb_valid.lt_bmapstart
      have := sb_valid.bmapstart_lt
      omega
  · have hb : iblock sb i ≠ 1 := by
      have := (sb_valid.iblock_bounds hi).1
      omega
    rw [getInode, formatted_zero hb, readBytes_zero, ← zero_bytes, unpack_bytes, ofFields_fields]
    rfl

theorem blank_owned : blank.Owned sb := by
  have hdead : ∀ i, ¬blank.Live sb i := fun i hl => hl.2 rfl
  have hnone : ∀ l, blank.holds sb l = none := by
    intro l
    cases l with
    | data i k => simp [Volume.holds, hdead]
    | indirect i => simp [Volume.holds, hdead]
  refine ⟨⟨fun l b hl => ?_, fun l m b hl => ?_, fun b hb => ?_⟩, fun b hb => decide_eq_true hb⟩
  · rw [hnone] at hl
    cases hl
  · rw [hnone] at hl
    cases hl
  · simp only [hnone, reduceCtorEq, exists_false, iff_false, Bool.not_eq_true]
    exact decide_eq_false (Nat.not_lt.mpr hb.1)

theorem formatted_built : Built [] blank formatted := by
  have hdead : ∀ i, ¬blank.Live sb i := fun i hl => hl.2 rfl
  refine ⟨⟨blank_tracks, rfl, fun _ => rfl, fun _ _ _ => rfl, Nat.le_refl _, by decide⟩, blank_owned,
    rfl, by decide, rfl, fun _ _ => rfl, nofun, fun i hi => absurd hi (Nat.not_lt_zero i),
    fun i hl => absurd hl (hdead i), fun i hl => absurd hl (hdead i), rfl⟩

theorem rootAppend_ends {E : Exit → Prop} {bs p : List Byte} {v : Volume} {s : State} (h : Built [⟨tDir, bs⟩] v s)
    (hlen : bs.length + p.length ≤ bsize) {Q : Unit → State → Prop}
    (hQ : ∀ v' t, Built [⟨tDir, bs ++ p⟩] v' t → Q () t) : Ends E (iappend rootino p) Q s := by
  have hfirst : Built ([] ++ ⟨tDir, bs⟩ :: []) v s := h
  refine hfirst.iappend_ends p (fun hbad => absurd hbad (not_or.mpr ⟨Nat.not_lt.mpr ?_, Nat.not_lt.mpr ?_⟩)) hQ
  · exact Nat.le_trans hlen (Nat.le_mul_of_pos_left _ (by decide))
  · rw [List.nil_append, cost_cons, List.length_append]
    exact Nat.le_trans (Nat.add_le_add_left (Nat.add_le_add_right (blocks_mono hlen) _) _) (by decide)

theorem makeRoot_ends {E : Exit → Prop} {Q : Nat → State → Prop} (hQ : ∀ v s, Built (made []) v s → Q rootino s) :
    Ends E makeRoot Q formatted := by
  have hlen : ∀ i name, (newDirent i name).bytes.length = 16 := newDirent_length
  refine ends_bind.mpr (formatted_built.ialloc_ends (.inl rfl) (by decide) fun v₁ t₁ h₁ => ?_)
  refine ends_bind.mpr (assert_ends (fun _ => ?_) fun hno => absurd rfl hno)
  refine ends_bind.mpr (rootAppend_ends h₁ (p := (newDirent rootino dot).bytes) (by rw [hlen]; decide)
    fun v₂ t₂ h₂ => ?_)
  refine ends_bind.mpr (rootAppend_ends h₂ (p := (newDirent rootino dotdot).bytes) ?_ fun v₃ t₃ h₃ =>
    ends_pure (hQ v₃ t₃ h₃))
  rw [List.length_append, hlen, hlen]
  decide

section Main

variable {files : List File} {E : Exit → Prop} (hE : ¬Room files → ∀ e, E e) (hfew : files.length + 1 < ninodes)

include hE hfew in
theorem files_ends {v : Volume} {s : State} (h : Built (made []) v s) {Q : Unit → State → Prop}
    (hQ : ∀ v s, Built (made files) v s → Q () s) : Ends E (files.forM (addFile rootino)) Q s := by
  refine (ends_forM (I := fun rest t => ∃ done v, files = done ++ rest ∧ Built (made done) v t) ⟨[], v, rfl, h⟩
    fun f rest t ht => ?_).mono ?_
  · obtain ⟨done, v, hfiles, hb⟩ := ht
    exact addFile_ends hE hfew hfiles hb fun v' u hu => ⟨done ++ [f], v', by simp [hfiles], hu⟩
  · rintro ⟨⟩ t ⟨done, v, hfiles, hb⟩
    rw [List.append_nil] at hfiles
    exact hQ v t (hfiles ▸ hb)

end Main

end Xv6.Mkfs
