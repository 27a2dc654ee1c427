import Xv6.Fs.FileWrite

/-!
# Writers that share a file

Processes that share a `struct file` write to it at the same time.
-/

open Function Xv6.Bytes Xv6.Log Xv6.Code Xv6.Run

namespace Xv6.Fs.Shared

variable {P : Type}

inductive Phase where
  | idle
  | begun (buf : List Byte)
  | wrote (buf : List Byte) (r : Int)
  deriving DecidableEq

structure Sys (P : Type) where
  fs : State P
  phase : P → Phase
  order : List (P × List Byte)
  returned : P → List (List Byte × Int)
  crashed : Option Fail

inductive Act (P : Type) where
  | call (p : P) (buf : List Byte)
  | write (p : P)
  | ret (p : P)

def lockedWrite (f : Fin nfile) (src : List Byte) (n1 : Nat) : Prog P Int := do
  let s ← get
  ilock (s.ftable f).ip
  let r ← writei (s.ftable f).ip src (s.ftable f).off (.ofNat 32 n1)
  if r > 0 then onFile f fun f => { f with off := f.off + .ofInt 32 r } else pure ()
  iunlock (s.ftable f).ip
  pure r

def endWrite (buf : List Byte) (r : Int) : Prog P Int := do
  endOp
  if r < 0 then pure (-1)
  else if r ≠ buf.length then panic .shortFilewrite
  else pure buf.length

/-- A process that has to wait does not move. A panic is the end of all. -/
def perform {α : Type} (s : Sys P) (m : Prog P α) (next : α → State P → Sys P) : Option (Sys P) :=
  match m s.fs with
  | .ok (a, t) => some (next a t)
  | .error .stuck => none
  | .error e => some { s with crashed := some e }

theorem perform_ok {α : Type} {s : Sys P} {m : Prog P α} {next : α → State P → Sys P} {a : α} {t : State P}
    (h : m s.fs = .ok (a, t)) : perform s m next = some (next a t) := by
  rw [perform, h]

theorem of_perform {α : Type} {s t : Sys P} {m : Prog P α} {next : α → State P → Sys P} {E : Fail → Prop}
    {Q : α → State P → Prop} (h : Ends E m Q s.fs) (hE : ∀ e, E e → e = .stuck) (ht : perform s m next = some t) :
    ∃ a fs, Q a fs ∧ t = next a fs := by
  cases hm : m s.fs with
  | ok r =>
    rw [perform_ok hm] at ht
    exact ⟨r.1, r.2, h.of_ok hm, (Option.some.inj ht).symm⟩
  | error e =>
    obtain rfl := hE e (h.of_error hm)
    rw [perform, hm] at ht
    cases ht

theorem perform_isSome {α : Type} {s : Sys P} {m : Prog P α} {next : α → State P → Sys P} {Q : α → State P → Prop}
    (h : Ends (· ≠ .stuck) m Q s.fs) : (perform s m next).isSome := by
  unfold perform
  split
  · rfl
  case h_2 hm => exact absurd rfl (h.of_error hm)
  · rfl

variable [DecidableEq P]

def setPhase (s : Sys P) (p : P) (ph : Phase) (fs : State P) : Sys P :=
  { s with fs := fs, phase := update s.phase p ph }

def finish (s : Sys P) (p : P) (buf : List Byte) (r : Int) : Sys P :=
  { s with returned := update s.returned p (s.returned p ++ [(buf, r)]) }

/-- What a process does next. An empty buffer is returned at once. -/
def go (f : Fin nfile) (s : Sys P) : Act P → Option (Sys P)
  | .call p buf =>
    match s.phase p with
    | .idle =>
      if buf = [] then some (finish { s with order := s.order ++ [(p, buf)] } p buf 0)
      else if buf.length ≤ writeMax then perform s beginOp fun _ t => setPhase s p (.begun buf) t
      else none
    | _ => none
  | .write p =>
    match s.phase p with
    | .begun buf => perform s (lockedWrite f buf buf.length) fun r t =>
        { setPhase s p (.wrote buf r) t with order := if r > 0 then s.order ++ [(p, buf)] else s.order }
    | _ => none
  | .ret p =>
    match s.phase p with
    | .wrote buf r => perform s (endWrite buf r) fun n t => finish (setPhase s p .idle t) p buf n
    | _ => none

def step (f : Fin nfile) (s : Sys P) (act : Act P) : Option (Sys P) := if s.crashed = none then go f s act else none

def Phase.unwritten : Phase → List Byte
  | begun buf => buf
  | _ => []

def Below (f : Fin nfile) (s : Sys P) : Act P → Prop
  | .write p => (s.fs.ftable f).off.toNat + (s.phase p).unwritten.length ≤ maxfile * bsize
  | _ => True

instance (f : Fin nfile) (s : Sys P) : (act : Act P) → Decidable (Below f s act)
  | .call _ _ => inferInstanceAs (Decidable True)
  | .write _ => Nat.decLe _ _
  | .ret _ => inferInstanceAs (Decidable True)

/-- There is room for a write in the file, on the disk and in the log. -/
def HasRoom (f : Fin nfile) (i : Nat) (s : Sys P) (act : Act P) : Prop :=
  Below f s act ∧
    match act with
    | .write p =>
      (stored s.fs.sb s.fs.disk).missing i (s.fs.ftable f).off.toNat (s.phase p).unwritten.length ≤
          (stored s.fs.sb s.fs.disk).free s.fs.sb ∧
        s.fs.log.lh.length + blocksOf (s.fs.ftable f).off.toNat (s.phase p).unwritten.length + 4 ≤ 28
    | _ => True

instance (f : Fin nfile) (i : Nat) (s : Sys P) : (act : Act P) → Decidable (HasRoom f i s act)
  | .call _ _ => inferInstanceAs (Decidable (True ∧ True))
  | .write _ => inferInstanceAs (Decidable (_ ≤ _ ∧ _ ≤ _ ∧ _ ≤ _))
  | .ret _ => inferInstanceAs (Decidable (True ∧ True))

def Sys.written (s : Sys P) : List Byte := (s.order.map Prod.snd).flatten

def Phase.pending : Phase → List (List Byte × Int)
  | wrote buf r => [(buf, r)]
  | _ => []

def Sys.writesOf (s : Sys P) (p : P) : List (List Byte) := (s.order.filter (·.1 = p)).map Prod.snd

def Sys.done (s : Sys P) (p : P) : List (List Byte × Int) := s.returned p ++ (s.phase p).pending

/-- The log has an operation for each process in a call, and no lock is held. -/
structure Logged (f : Fin nfile) (s : Sys P) : Prop where
  crashed : s.crashed = none
  free : (s.fs.icache (s.fs.ftable f).ip).locked = false
  committing : s.fs.log.committing = false
  nodup : s.fs.log.lh.Nodup
  active : ∃ L : List P, L.Nodup ∧ (∀ p, p ∈ L ↔ s.phase p ≠ .idle) ∧ L.length = s.fs.log.outstanding

structure Serial (sb : Superblock) (f : Fin nfile) (i : Nat) (a : List Byte) (off : Nat) (s : Sys P) : Prop
    extends Logged f s where
  one : sb.size ≤ bpb
  nlog : logsize ≤ sb.nlog
  inside : off ≤ a.length
  file : ∃ v, OpenFile sb v f i s.fs ∧ v.content i = overwrite a off s.written
  off : (s.fs.ftable f).off.toNat = off + s.written.length
  own : ∀ p, s.writesOf p = (s.done p).map Prod.fst
  value : ∀ p, ∀ c ∈ s.done p, c.2 = c.1.length
  short : ∀ p buf, s.phase p = .begun buf → buf ≠ [] ∧ buf.length ≤ writeMax

section

variable {sb : Superblock} {f : Fin nfile} {i : Nat} {a : List Byte} {off : Nat} {s t : Sys P}

omit [DecidableEq P] in
theorem lockedWrite_ends (hv : sb.Valid) {v : Volume} {fs : State P} (h : OpenFile sb v f i fs)
    (hlock : (fs.icache (fs.ftable f).ip).locked = false) {buf : List Byte} (hlen : buf.length ≤ writeMax)
    {E : Fail → Prop} (hE : Lacks E sb v fs.log i (fs.ftable f).off.toNat buf.length)
    (hfits : (fs.ftable f).off.toNat + buf.length ≤ maxfile * bsize) :
    Ends E (lockedWrite f buf buf.length) (fun r t => r = buf.length ∧
      (t.icache (t.ftable f).ip).locked = false ∧
      (Takes sb fs.log (blocksOf (fs.ftable f).off.toNat buf.length + 4) →
        Took fs.log t.log (blocksOf (fs.ftable f).off.toNat buf.length + 4)) ∧
      (t.ftable f).off.toNat = (fs.ftable f).off.toNat + buf.length ∧
      ∃ v', OpenFile sb v' f i t ∧ v'.content i = overwrite (v.content i) (fs.ftable f).off.toNat buf) fs := by
  have hlt : buf.length < 2 ^ 31 := lt_of_le_of_lt hlen (by decide)
  refine ends_get_bind (locked_ends hv h hlt (Nat.le_refl _) (fun hlocked => ?_) hE
    (fun hlong => absurd hfits (Nat.not_le.mpr hlong)) fun _ v' disk log lg hup ht _ htook =>
      ends_pure ⟨rfl, ?_, htook, ?_, v', ?_, ?_⟩)
  · rw [hlock] at hlocked
    cases hlocked
  · simpa [State.seek, State.held, State.setSlot, State.wrote] using hlock
  · have hmax : maxfile * bsize < 2 ^ 32 := by decide
    simp only [State.seek, update_self, BitVec.toNat_add, word_toNat hlt]
    change ((fs.ftable f).off.toNat + buf.length) % 2 ^ 32 = _
    omega
  · rw [List.take_length] at hup
    have hopen := h.chunk log lg ht (hup.solid h.solid h.not_dev h.off (by omega)) (hup.type i) hlt
      (by rw [hup.size]; omega)
    exact { hopen with }
  · rw [List.take_length] at hup
    exact hup.content_self h.solid ⟨h.live, h.not_dev⟩ h.off

theorem writesOf_append (s : Sys P) (p q : P) (buf : List Byte) :
    ((s.order ++ [(p, buf)]).filter (·.1 = q)).map Prod.snd = s.writesOf q ++ if p = q then [buf] else [] := by
  rw [List.filter_append, List.map_append]
  congr 1
  by_cases hpq : p = q <;> simp [hpq]

theorem done_update {p : P} {l : List (List Byte × Int)} (hp : t.done p = l) (hq : ∀ q, q ≠ p → t.done q = s.done q) :
    t.done = update s.done p l := by
  funext q
  by_cases h : q = p
  · rw [h, update_self, hp]
  · rw [update_of_ne h, hq q h]

namespace Logged

variable {p : P} (h : Logged f s)
include h

theorem call {buf : List Byte} {log : LogState} (hidle : s.phase p = .idle) (hlog : Log.beginOp s.fs.log = some log) :
    Logged f (setPhase s p (.begun buf) { s.fs with log := log, logged := [] }) := by
  obtain ⟨L, hnodup, hmem, hlen⟩ := h.active
  have hnot : p ∉ L := fun hp => (hmem p).mp hp hidle
  obtain rfl : log = { s.fs.log with outstanding := s.fs.log.outstanding + 1 } := by
    unfold Log.beginOp at hlog
    split_ifs at hlog
    exact (Option.some.inj hlog).symm
  refine ⟨h.crashed, h.free, h.committing, h.nodup, p :: L, List.nodup_cons.mpr ⟨hnot, hnodup⟩, fun q => ?_, ?_⟩
  · by_cases hq : q = p
    · simp [hq, setPhase]
    · simp [hq, setPhase, hmem]
  · simp [setPhase, hlen]

omit [DecidableEq P] in
theorem one_le (hbusy : s.phase p ≠ .idle) : 1 ≤ s.fs.log.outstanding := by
  obtain ⟨L, -, hmem, hlen⟩ := h.active
  rw [← hlen]
  exact List.length_pos_of_mem ((hmem p).mpr hbusy)

theorem write {buf : List Byte} {r : Int} {fs : State P} {n : Nat} (hbusy : s.phase p ≠ .idle)
    (hfree : (fs.icache (fs.ftable f).ip).locked = false) (htook : Took s.fs.log fs.log n) :
    Logged f (setPhase s p (.wrote buf r) fs) := by
  obtain ⟨L, hnodup, hmem, hlen⟩ := h.active
  refine ⟨h.crashed, hfree, htook.committing.trans h.committing, htook.nodup, L, hnodup, fun q => ?_, ?_⟩
  · by_cases hq : q = p
    · subst hq
      simpa [setPhase] using (hmem q).mpr hbusy
    · simp [hq, setPhase, hmem]
  · exact hlen.trans htook.outstanding.symm

theorem ret {buf : List Byte} {n : Int} (hbusy : s.phase p ≠ .idle) :
    Logged f (finish (setPhase s p .idle
      { s.fs with log := afterEnd s.fs.log, txns := s.fs.txns ++ [s.fs.logged] }) p buf n) := by
  obtain ⟨L, hnodup, hmem, hlen⟩ := h.active
  have hlog : afterEnd s.fs.log = ⟨s.fs.log.outstanding - 1, false, (afterEnd s.fs.log).lh⟩ ∧
      (afterEnd s.fs.log).lh.Nodup := by
    unfold afterEnd
    split
    · exact ⟨by rw [Nat.sub_eq_zero_of_le (by assumption)], List.nodup_nil⟩
    · exact ⟨by rw [h.committing], h.nodup⟩
  refine ⟨h.crashed, h.free, ?_, hlog.2, L.erase p, hnodup.erase p, fun q => ?_, ?_⟩
  · change (afterEnd s.fs.log).committing = false
    rw [hlog.1]
  · rw [hnodup.mem_erase_iff, hmem]
    by_cases hq : q = p
    · simp [hq, finish, setPhase]
    · simp [hq, finish, setPhase]
  · rw [List.length_erase_of_mem ((hmem p).mpr hbusy), hlen]
    change _ = (afterEnd s.fs.log).outstanding
    rw [hlog.1]

end Logged

namespace Serial

variable (h : Serial sb f i a off s)
include h

theorem same (hlogged : Logged f t) (hfile : ∀ v, OpenFile sb v f i s.fs → OpenFile sb v f i t.fs)
    (hft : t.fs.ftable = s.fs.ftable) (horder : t.order = s.order) (hdone : t.done = s.done)
    (hshort : ∀ p buf, t.phase p = .begun buf → buf ≠ [] ∧ buf.length ≤ writeMax) : Serial sb f i a off t := by
  obtain ⟨v, hopen, hcontent⟩ := h.file
  have hwritten : t.written = s.written := by rw [Sys.written, horder, Sys.written]
  refine ⟨hlogged, h.one, h.nlog, h.inside, ⟨v, hfile v hopen, hwritten ▸ hcontent⟩, ?_, fun p => ?_,
    hdone ▸ h.value, hshort⟩
  · rw [hft, hwritten, h.off]
  · rw [Sys.writesOf, horder, hdone]
    exact h.own p

theorem more (hlogged : Logged f t) {p : P} {buf : List Byte} {v : Volume} (hfile : OpenFile sb v f i t.fs)
    (hcontent : v.content i = overwrite (overwrite a off s.written) (off + s.written.length) buf)
    (hoff : (t.fs.ftable f).off.toNat = off + s.written.length + buf.length) (horder : t.order = s.order ++ [(p, buf)])
    (hdone : t.done = update s.done p (s.done p ++ [(buf, (buf.length : Int))]))
    (hshort : ∀ p buf, t.phase p = .begun buf → buf ≠ [] ∧ buf.length ≤ writeMax) : Serial sb f i a off t := by
  have hwritten : t.written = s.written ++ buf := by simp [Sys.written, horder]
  refine ⟨hlogged, h.one, h.nlog, h.inside, ⟨v, hfile, ?_⟩, ?_, fun q => ?_, fun q c hc => ?_, hshort⟩
  · rw [hcontent, overwrite_overwrite h.inside, hwritten]
  · rw [hoff, hwritten, List.length_append, Nat.add_assoc]
  · rw [Sys.writesOf, horder, writesOf_append, h.own q, hdone]
    by_cases hq : q = p
    · subst hq
      simp
    · rw [update_of_ne hq, if_neg (Ne.symm hq), List.append_nil]
  · rw [hdone] at hc
    by_cases hq : q = p
    · subst hq
      rw [update_self, List.mem_append, List.mem_singleton] at hc
      rcases hc with hc | rfl
      · exact h.value q c hc
      · rfl
    · rw [update_of_ne hq] at hc
      exact h.value q c hc

theorem short_update {p : P} {ph : Phase} (hph : ∀ buf, ph = .begun buf → buf ≠ [] ∧ buf.length ≤ writeMax) (q : P)
    (buf : List Byte) (hq : update s.phase p ph q = .begun buf) : buf ≠ [] ∧ buf.length ≤ writeMax := by
  by_cases hqp : q = p
  · subst hqp
    rw [update_self] at hq
    exact hph buf hq
  · rw [update_of_ne hqp] at hq
    exact h.short q buf hq

theorem call {p : P} {buf : List Byte} (ht : go f s (.call p buf) = some t) : Serial sb f i a off t := by
  dsimp only [go] at ht
  split at ht
  case h_2 => cases ht
  case h_1 hidle =>
    have hpend : (s.phase p).pending = [] := by rw [hidle]; rfl
    split_ifs at ht with hnil hlen
    · cases ht
      subst hnil
      obtain ⟨v, hopen, hcontent⟩ := h.file
      have hdone := done_update (s := s) (t := finish { s with order := s.order ++ [(p, [])] } p [] 0) (p := p)
        (l := s.done p ++ [([], 0)]) (by simp [Sys.done, finish, hpend]) fun q hq => by
          simp [Sys.done, finish, update_of_ne hq]
      refine h.more ⟨h.crashed, h.free, h.committing, h.nodup, h.active⟩ hopen ?_ ?_ rfl hdone h.short
      · rw [overwrite_nil]
        exact hcontent
      · exact h.off
    · have hends : Ends (· = .stuck) beginOp (fun _ (t : State P) =>
          ∃ log, Log.beginOp s.fs.log = some log ∧ t = { s.fs with log := log, logged := [] }) s.fs :=
        beginOp_ends (E := (· = .stuck)) (fun _ => rfl) fun log hlog => ⟨log, hlog, rfl⟩
      obtain ⟨_, _, ⟨log, hlog, rfl⟩, rfl⟩ := of_perform hends (fun _ => id) ht
      refine h.same (h.toLogged.call hidle hlog) (fun v hopen => { hopen with }) rfl rfl ?_
        (h.short_update fun b hb => ?_)
      · funext q
        by_cases hq : q = p
        · subst hq
          simp [Sys.done, setPhase, Phase.pending, hidle]
        · simp [Sys.done, setPhase, update_of_ne hq]
      · cases hb
        exact ⟨hnil, hlen⟩

theorem write (hv : sb.Valid) {p : P} (hroom : HasRoom f i s (.write p)) (ht : go f s (.write p) = some t) :
    Serial sb f i a off t := by
  dsimp only [go] at ht
  split at ht
  case h_2 => cases ht
  case h_1 buf hbegun =>
    obtain ⟨v, hopen, hcontent⟩ := h.file
    simp only [HasRoom, Below, hbegun, Phase.unwritten, hopen.sbEq] at hroom
    obtain ⟨hbelow, hblocks, hlog⟩ := hroom
    rw [hopen.tracks.free_stored, hopen.tracks.missing_stored hopen.solid.toOwned hopen.live] at hblocks
    have hbusy : s.phase p ≠ .idle := by rw [hbegun]; nofun
    have htakes : Takes sb s.fs.log (blocksOf (s.fs.ftable f).off.toNat buf.length + 4) :=
      ⟨h.one, h.nlog, h.toLogged.one_le hbusy, h.nodup, hlog⟩
    obtain ⟨hne, hlen⟩ := h.short p buf hbegun
    have hends := lockedWrite_ends (E := fun _ => False) hv hopen h.free hlen
      ⟨fun hfew => absurd hblocks (Nat.not_le.mpr hfew), fun hno => absurd htakes hno⟩ hbelow
    obtain ⟨r, fs, ⟨rfl, hfree, htook, hoff, v', hopen', hcontent'⟩, rfl⟩ := of_perform hends (fun _ => False.elim) ht
    have hlogged : Logged f (setPhase s p (.wrote buf buf.length) fs) := h.toLogged.write hbusy hfree (htook htakes)
    have hpos : (buf.length : Int) > 0 := by
      have := List.length_pos_iff.mpr hne
      omega
    rw [hcontent, h.off] at hcontent'
    rw [h.off] at hoff
    refine h.more { hlogged with } hopen' hcontent' hoff (if_pos hpos) (done_update ?_ fun q hq => ?_)
      (h.short_update nofun)
    · simp [Sys.done, setPhase, hbegun, Phase.pending]
    · simp [Sys.done, setPhase, update_of_ne hq]

theorem ret {p : P} (ht : go f s (.ret p) = some t) : Serial sb f i a off t := by
  dsimp only [go] at ht
  split at ht
  case h_2 => cases ht
  case h_1 buf r hwrote =>
    have hr : r = buf.length := h.value p (buf, r) (by simp [Sys.done, hwrote, Phase.pending])
    subst hr
    have hends : Ends (fun _ => False) (endWrite buf buf.length) (fun n (t : State P) => n = buf.length ∧
        t = { s.fs with log := afterEnd s.fs.log, txns := s.fs.txns ++ [s.fs.logged] }) s.fs := by
      refine ends_bind.mpr (endOp_ends (fun hc => ?_) fun _ => ?_)
      · rw [h.committing] at hc
        cases hc
      · rw [if_neg (by omega), if_neg (fun hne => hne rfl)]
        exact ends_pure ⟨rfl, rfl⟩
    obtain ⟨_, _, ⟨rfl, rfl⟩, rfl⟩ := of_perform hends (fun _ => False.elim) ht
    refine h.same (h.toLogged.ret (by rw [hwrote]; nofun)) (fun v hopen => { hopen with }) rfl rfl ?_
      (h.short_update nofun)
    funext q
    by_cases hq : q = p
    · subst hq
      simp [Sys.done, finish, setPhase, hwrote, Phase.pending]
    · simp [Sys.done, finish, setPhase, update_of_ne hq]

theorem goes_on (hv : sb.Valid) {p : P} (hbusy : s.phase p ≠ .idle) :
    (step f s (.write p)).isSome ∨ (step f s (.ret p)).isSome := by
  simp only [step, h.crashed, if_true]
  cases hphase : s.phase p with
  | idle => exact absurd hphase hbusy
  | begun buf =>
    left
    obtain ⟨v, hopen, -⟩ := h.file
    have hlt : buf.length < 2 ^ 31 := lt_of_le_of_lt (h.short p buf hphase).2 (by decide)
    simp only [go, hphase]
    refine perform_isSome (Q := fun _ _ => True)
      (ends_get_bind (locked_ends hv hopen hlt (Nat.le_refl _) (fun hlocked => ?_)
      ⟨fun _ => nofun, fun _ _ => nofun⟩ (fun _ => ends_pure trivial) fun _ _ _ _ _ _ _ _ _ => ends_pure trivial))
    rw [h.free] at hlocked
    cases hlocked
  | wrote buf r =>
    right
    simp only [go, hphase]
    refine perform_isSome (Q := fun _ _ => True) (ends_bind.mpr (endOp_ends (fun _ _ => nofun) fun _ => ?_))
    refine ends_ite (fun _ => ends_pure trivial) fun _ => ?_
    exact ends_ite (fun _ => ends_stop nofun) fun _ => ends_pure trivial

end Serial

end

def atRest (fs : State P) : Sys P := ⟨fs, fun _ => .idle, [], fun _ => [], none⟩

/-- With room for each write no process panics, a call can go on, and in the end the file has all buffers one behind
the other, those of a process in its own order. -/
theorem shared_writes_serial {fs : State P} {f : Fin nfile} {i : Nat} (hv : fs.sb.Valid)
    (h : OpenFile fs.sb (stored fs.sb fs.disk) f i fs) (ha : Alone f fs) {acts : List (Act P)} {t : Sys P}
    (hroom : Along (step f) (HasRoom f i) (atRest fs) acts) (ht : run (step f) (atRest fs) acts = some t) :
    t.crashed = none ∧
    (∀ p, t.phase p ≠ .idle → (step f t (.write p)).isSome ∨ (step f t (.ret p)).isSome) ∧
    ((∀ p, t.phase p = .idle) →
      (stored t.fs.sb t.fs.disk).content i =
        overwrite ((stored fs.sb fs.disk).content i) (fs.ftable f).off.toNat t.written ∧
      (t.fs.ftable f).off.toNat = (fs.ftable f).off.toNat + t.written.length ∧
      ∀ p, t.writesOf p = (t.returned p).map Prod.fst ∧ ∀ c ∈ t.returned p, c.2 = c.1.length) := by
  have hstart : Serial fs.sb f i ((stored fs.sb fs.disk).content i) (fs.ftable f).off.toNat (atRest fs) := by
    have hlog : fs.log = ⟨0, false, []⟩ := ha.log
    refine ⟨⟨rfl, ha.free, ?_, ?_, [], List.nodup_nil, fun p => ?_, ?_⟩, ha.one, ha.nlog, ?_,
      ⟨_, h, (overwrite_nil _ _).symm⟩, rfl, fun _ => rfl, nofun, nofun⟩
    · simp [atRest, hlog]
    · simp [atRest, hlog]
    · simp [atRest]
    · simp [atRest, hlog]
    · rw [Volume.content_length]
      exact h.off
  have hserial := run_along (I := Serial fs.sb f i ((stored fs.sb fs.disk).content i) (fs.ftable f).off.toNat)
    (HasRoom f i)
    (fun s act t hs hok hstep => by
      rw [step, if_pos hs.crashed] at hstep
      cases act with
      | call p buf => exact hs.call hstep
      | write p => exact hs.write hv hok hstep
      | ret p => exact hs.ret hstep) hstart hroom ht
  obtain ⟨v, hopen, hcontent⟩ := hserial.file
  refine ⟨hserial.crashed, fun p => hserial.goes_on hv, fun hidle => ⟨?_, hserial.off, fun p => ?_⟩⟩
  · rw [hopen.sbEq, hopen.tracks.content_stored hopen.solid ⟨hopen.live, hopen.not_dev⟩, hcontent]
  · have hown := hserial.own p
    have hvalue := hserial.value p
    simp only [Sys.done, hidle p, Phase.pending, List.append_nil] at hown hvalue
    exact ⟨hown, hvalue⟩

def sharedState : State Bool where
  sb := mkfsSuper
  disk := fileImage
  icache := fun _ => ⟨2, 1, false, true, emptyFile⟩
  ftable := fun _ => ⟨.inode, 2, true, true, 0, 0⟩
  proc := fun _ => ⟨fun _ => none, some 0⟩
  log := ⟨0, false, []⟩
  logged := []
  txns := []

theorem sharedState_open : OpenFile mkfsSuper (stored mkfsSuper fileImage) 0 2 sharedState := { openState_open with }

theorem sharedState_alone : Alone 0 sharedState := ⟨⟨rfl, by decide, by decide⟩, rfl⟩

def overtaking : List (Act Bool) :=
  [.call false [7, 8], .call true [9], .write true, .write false, .ret true, .ret false]

theorem overtaking_serial : ∃ t, run (step 0) (atRest sharedState) overtaking = some t ∧ t.crashed = none ∧
    t.written = [9, 7, 8] ∧
    (stored t.fs.sb t.fs.disk).content 2 = overwrite ((stored mkfsSuper fileImage).content 2) 0 [9, 7, 8] ∧
    (t.fs.ftable 0).off.toNat = 3 := by
  have hroom : Along (step 0) (HasRoom 0 2) (atRest sharedState) overtaking := by decide +kernel
  have hview : (run (step 0) (atRest sharedState) overtaking).map (fun t => (t.written, t.phase false, t.phase true)) =
      some ([9, 7, 8], .idle, .idle) := by decide +kernel
  obtain ⟨t, ht, hview⟩ := Option.map_eq_some_iff.mp hview
  obtain ⟨hwritten, hfalse, htrue⟩ : t.written = [9, 7, 8] ∧ t.phase false = .idle ∧ t.phase true = .idle := by
    simpa using hview
  obtain ⟨hcrashed, -, hall⟩ := shared_writes_serial mkfsSuper_valid sharedState_open sharedState_alone hroom ht
  obtain ⟨hcontent, hoff, -⟩ := hall (Bool.forall_bool.mpr ⟨hfalse, htrue⟩)
  rw [hwritten] at hcontent hoff
  exact ⟨t, ht, hcrashed, hwritten, hcontent, hoff⟩

def twoFullChunks : List (Act Bool) :=
  [.call false (List.replicate writeMax 0), .call true (List.replicate writeMax 1), .write false, .write true]

/-- Both calls are let in. The first logs 16 blocks, so the second does not find room for its 13. -/
theorem twoFullChunks_too_big :
    OpenFile mkfsSuper (stored mkfsSuper fileImage) 0 2 sharedState ∧ Alone 0 sharedState ∧
    Along (step 0) (Below 0) (atRest sharedState) twoFullChunks ∧
    30 ≤ (stored mkfsSuper fileImage).free mkfsSuper ∧
    (run (step 0) (atRest sharedState) twoFullChunks).map Sys.crashed = some (some (.panic (.log .tooBig))) :=
  ⟨sharedState_open, sharedState_alone, by decide +kernel, by decide +kernel, by decide +kernel⟩

end Xv6.Fs.Shared
