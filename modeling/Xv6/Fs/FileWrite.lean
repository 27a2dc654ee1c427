import Xv6.Fs.WriteCost

/-!
# `filewrite` is one write

With enough free blocks, `filewrite` comes back, and its chunks leave the file as one `writei` would.
-/

open Xv6.Bytes Xv6.Log Xv6.Code

namespace Xv6.Fs

def overwrite (a : List Byte) (off : Nat) (bs : List Byte) : List Byte := a.take off ++ bs ++ a.drop (off + bs.length)

theorem overwrite_nil (a : List Byte) (off : Nat) : overwrite a off [] = a := by simp [overwrite]

theorem overwrite_overwrite {a : List Byte} {off : Nat} (hoff : off ≤ a.length) (xs ys : List Byte) :
    overwrite (overwrite a off xs) (off + xs.length) ys = overwrite a off (xs ++ ys) := by
  have hlen : (a.take off ++ xs).length = off + xs.length := by simp [Nat.min_eq_left hoff]
  have hfront : (overwrite a off xs).take (off + xs.length) = a.take off ++ xs := by
    rw [overwrite, ← hlen, List.take_left']
    rfl
  have hback : (overwrite a off xs).drop (off + xs.length + ys.length) = a.drop (off + xs.length + ys.length) := by
    rw [overwrite, List.drop_append, hlen, List.drop_eq_nil_of_le (by omega), List.nil_append, List.drop_drop]
    congr 1
    omega
  rw [overwrite, hfront, hback, overwrite, List.length_append, Nat.add_assoc, List.append_assoc, List.append_assoc,
    List.append_assoc, List.append_assoc]

variable {P : Type} {sb : Superblock} {v : Volume} {f : Fin nfile} {i : Nat} {s : State P}

theorem writeChunk_alone (hv : sb.Valid) (h : OpenFile sb v f i s) (ha : Alone f s) {src : List Byte} {n : Nat}
    (hn : n ≤ writeMax) (hsrc : n ≤ src.length) (hfree : v.missing i (s.ftable f).off.toNat n ≤ v.free sb) :
    Ends (fun _ => False) (writeChunk f src n) (fun r t =>
      maxfile * bsize < (s.ftable f).off.toNat + n ∧ r = -1 ∨
      (s.ftable f).off.toNat + n ≤ maxfile * bsize ∧ r = n ∧ ∃ v', OpenFile sb v' f i t ∧ Alone f t ∧
        v.Updated sb v' i (s.ftable f).off.toNat (src.take n) ∧
        (t.ftable f).off.toNat = (s.ftable f).off.toNat + n) s := by
  have hlt : n < 2 ^ 31 := lt_of_le_of_lt hn (by decide)
  have hlen : (src.take n).length = n := by
    rw [List.length_take]
    omega
  refine writeChunk_ends hv h hlt hsrc (fun hno => absurd ⟨ha, hn⟩ hno) (fun hfew => absurd hfree (Nat.not_le.mpr hfew))
    (fun hlong _ => .inl ⟨hlong, rfl⟩)
    fun hfits v' disk log lg hup ht _ hlog => .inr ⟨hfits, rfl, v', ?_, ⟨⟨hlog ha hn, ha.one, ha.nlog⟩, ?_⟩, hup, ?_⟩
  · refine h.chunk log lg ht (hup.solid h.solid h.not_dev h.off (by omega)) (hup.type i) hlt ?_
    rw [hup.size]
    omega
  · simpa [State.ended, State.seek] using ha.free
  · simp only [State.ended, State.seek, Function.update_self, BitVec.toNat_add, word_toNat hlt]
    have hmax : maxfile * bsize < 2 ^ 32 := by decide
    omega

structure Written (sb : Superblock) (f : Fin nfile) (i : Nat) (a : List Byte) (off : Nat) (bs : List Byte)
    (t : State P) : Prop where
  content : ∃ v', OpenFile sb v' f i t ∧ v'.content i = overwrite a off bs
  off : (t.ftable f).off.toNat = off + bs.length

theorem OpenFile.written_nil (h : OpenFile sb v f i s) :
    Written sb f i (v.content i) (s.ftable f).off.toNat [] s :=
  ⟨⟨v, h, (overwrite_nil _ _).symm⟩, rfl⟩

theorem writeChunks_written (hv : sb.Valid) (h : OpenFile sb v f i s) (ha : Alone f s) {fuel : Nat}
    {src : List Byte} {n : Nat}
    (hfuel : n ≤ fuel) (hn : n ≤ src.length) (hfree : v.missing i (s.ftable f).off.toNat n ≤ v.free sb) :
    Ends (fun _ => False) (writeChunks f fuel src n) (fun left t =>
      (left = 0 ↔ (s.ftable f).off.toNat + n ≤ maxfile * bsize) ∧
      ((s.ftable f).off.toNat + n ≤ maxfile * bsize →
        Written sb f i (v.content i) (s.ftable f).off.toNat (src.take n) t)) s := by
  induction fuel generalizing s v src n with
  | zero =>
    have hoff := h.off_le
    obtain rfl : n = 0 := by omega
    exact ends_pure ⟨by simpa using hoff, fun _ => h.written_nil⟩
  | succ fuel ih =>
    refine ends_ite (fun hnil => ?_) fun hpos => ?_
    · have hoff := h.off_le
      subst hnil
      exact ends_pure ⟨by simpa using hoff, fun _ => h.written_nil⟩
    have hchunk : min n writeMax ≤ n := Nat.min_le_left ..
    have hw : 0 < writeMax := by decide
    have hlen : (src.take (min n writeMax)).length = min n writeMax := by
      rw [List.length_take]
      omega
    refine (writeChunk_alone hv h ha (Nat.min_le_right ..) (by omega)
      ((v.missing_mono (Nat.min_le_left ..)).trans hfree)).bind ?_
    rintro r t (⟨hlong, rfl⟩ | ⟨hfits, rfl, v', hopen, halone, hup, hmoved⟩)
    · rw [if_pos (by decide)]
      exact ends_pure ⟨by omega, fun hall => absurd hall (by omega)⟩
    · rw [if_neg (by omega), if_neg (fun hne => hne rfl)]
      have hbehind : n - min n writeMax ≤ (src.drop (min n writeMax)).length := by
        rw [List.length_drop]
        omega
      have hrest : v'.missing i (t.ftable f).off.toNat (n - min n writeMax) ≤ v'.free sb := by
        have hsum := hup.missing h.live (n - min n writeMax)
        have hfew := hup.free
        rw [hlen, Nat.add_sub_cancel' hchunk] at hsum
        rw [hlen] at hfew
        rw [hmoved]
        omega
      have hcontent : v'.content i = overwrite (v.content i) (s.ftable f).off.toNat (src.take (min n writeMax)) :=
        hup.content_self h.solid ⟨h.live, h.not_dev⟩ h.off
      refine (ih hopen halone (by omega) hbehind hrest).mono ?_
      rintro left u ⟨hleft, hrest⟩
      have htotal :
          (s.ftable f).off.toNat + min n writeMax + (n - min n writeMax) = (s.ftable f).off.toNat + n := by omega
      have hsplit :
          src.take n = src.take (min n writeMax) ++ (src.drop (min n writeMax)).take (n - min n writeMax) := by
        rw [← List.take_add, Nat.add_sub_cancel' hchunk]
      rw [hmoved, htotal] at hleft hrest
      refine ⟨hleft, fun hall => ?_⟩
      obtain ⟨⟨w, hw, hbytes⟩, hend⟩ := hrest hall
      have hin : (s.ftable f).off.toNat ≤ (v.content i).length := by
        rw [Volume.content_length]
        exact h.off
      refine ⟨⟨w, hw, ?_⟩, ?_⟩
      · rw [hbytes, hcontent, hsplit, ← overwrite_overwrite hin, hlen]
      · rw [hend, hsplit, List.length_append, hlen, Nat.add_assoc]

/-- With enough free blocks, a `filewrite` to one's own file comes back. It returns `n` exactly when the file does not
get too long, and then leaves what a single `writei` leaves. -/
theorem filewrite_is_one_write {s : State P} {f : Fin nfile} {i : Nat} (hv : s.sb.Valid)
    (h : OpenFile s.sb (stored s.sb s.disk) f i s) (hw : (s.ftable f).writable = true) (ha : Alone f s)
    (src : List Byte) {n : Nat} (hn : n ≤ src.length) (hint : n < 2 ^ 31)
    (hfree : (stored s.sb s.disk).missing i (s.ftable f).off.toNat n ≤ (stored s.sb s.disk).free s.sb) :
    ∃ r t, filewrite f src n s = .ok (r, t) ∧
      (r = n ↔ (s.ftable f).off.toNat + n ≤ maxfile * bsize) ∧
      ((s.ftable f).off.toNat + n ≤ maxfile * bsize →
        (stored t.sb t.disk).content i =
          overwrite ((stored s.sb s.disk).content i) (s.ftable f).off.toNat (src.take n) ∧
        (t.ftable f).off.toNat = (s.ftable f).off.toNat + n ∧
        ∀ q u, writeChunk f src n s = .ok (q, u) → q = n ∧
          (stored t.sb t.disk).content i = (stored u.sb u.disk).content i ∧ (t.ftable f).off = (u.ftable f).off) := by
  have hlen : (src.take n).length = n := by
    rw [List.length_take]
    omega
  have hstored : ∀ {v' : Volume} {t : State P}, OpenFile s.sb v' f i t →
      (stored t.sb t.disk).content i = v'.content i := by
    intro v' t ht
    rw [ht.sbEq]
    exact ht.tracks.content_stored ht.solid ⟨ht.live, ht.not_dev⟩
  refine Ends.exists_ok (E := fun _ => False) (m := filewrite f src n) (ends_get_bind ?_) fun _ => id
  rw [hw]
  refine ends_ite (fun hno => absurd rfl hno) fun _ => ?_
  rw [h.type]
  refine (writeChunks_written hv h ha (Nat.le_refl n) hn hfree).bind ?_
  rintro left t ⟨hleft, hall⟩
  refine ends_pure ⟨?_, fun hfits => ?_⟩
  · rw [← hleft]
    constructor
    · intro hr
      by_contra hne
      rw [if_neg (fun hc => hne hc.2)] at hr
      omega
    · intro hzero
      rw [if_pos ⟨by omega, hzero⟩]
  obtain ⟨⟨v', hopen, hcontent⟩, hoff⟩ := hall hfits
  rw [hlen] at hoff
  refine ⟨(hstored hopen).trans hcontent, hoff, fun q u hu => ?_⟩
  have hone := (writeChunk_ends (E := fun _ => True) hv h hint hn (fun _ _ _ => trivial) (fun _ => trivial)
    (Q := fun q u => q = n ∧
      (∃ w, OpenFile s.sb w f i u ∧
        w.content i = overwrite ((stored s.sb s.disk).content i) (s.ftable f).off.toNat (src.take n)) ∧
      (u.ftable f).off = (s.ftable f).off + .ofNat 32 n) (fun hlong => absurd hfits (Nat.not_le.mpr hlong))
    fun _ w disk log lg hup ht _ _ => ?_).of_ok hu
  · obtain ⟨hq, ⟨w, hw, hbytes⟩, hseek⟩ := hone
    refine ⟨hq, (hstored hopen).trans (hcontent.trans (hbytes.symm.trans (hstored hw).symm)), BitVec.eq_of_toNat_eq ?_⟩
    have hmax : maxfile * bsize < 2 ^ 32 := by decide
    rw [hoff, hseek, BitVec.toNat_add, word_toNat hint]
    omega
  · refine ⟨rfl, ⟨w, h.chunk log lg ht (hup.solid h.solid h.not_dev h.off (by omega)) (hup.type i) hint ?_, ?_⟩, ?_⟩
    · rw [hup.size]
      omega
    · exact hup.content_self h.solid ⟨h.live, h.not_dev⟩ h.off
    · simp [State.ended, State.seek]

theorem openState_alone : Alone 0 openState := ⟨⟨rfl, by decide, by decide⟩, rfl⟩

theorem shortWrite_is_one_write : Alone 0 openState ∧
    ∃ t, filewrite 0 [7, 8, 9] 3 openState = .ok (3, t) ∧ (t.ftable 0).off.toNat = 3 := by
  have hfits : (openState.ftable 0).off.toNat + 3 ≤ maxfile * bsize := by decide
  obtain ⟨r, t, hrun, hr, hall⟩ :=
    filewrite_is_one_write (s := openState) mkfsSuper_valid openState_open rfl openState_alone
    [7, 8, 9] (n := 3) (by decide) (by decide) (by decide +kernel)
  obtain rfl := hr.mpr hfits
  exact ⟨openState_alone, t, hrun, (hall hfits).2.1⟩

end Xv6.Fs
