import Xv6.Sh.Lexer

/-!
# What the parser accepts

Whatever the parser returns is the tree of a derivation of the tokens it has taken.
-/

open Xv6.Bytes Xv6.Code

namespace Xv6.Sh

variable {V W : Type}

def Redir.map (f : V → W) (r : Redir V) : Redir W := ⟨f r.file, r.mode, r.fd⟩

def Cmd.map (f : V → W) : Cmd V → Cmd W
  | exec argv => .exec (argv.map f)
  | redir cmd r => .redir (cmd.map f) (r.map f)
  | pipe left right => .pipe (left.map f) (right.map f)
  | list left right => .list (left.map f) (right.map f)
  | back cmd => .back (cmd.map f)

def Cmd.words : Cmd W → List W
  | exec argv => argv
  | redir cmd r => cmd.words ++ [r.file]
  | pipe left right => left.words ++ right.words
  | list left right => left.words ++ right.words
  | back cmd => cmd.words

theorem map_congr_words {f g : V → W} {cmd : Cmd V} (h : ∀ w ∈ cmd.words, f w = g w) : cmd.map f = cmd.map g := by
  induction cmd with
  | exec argv => exact congrArg Cmd.exec (List.map_congr_left h)
  | redir cmd r ih =>
    rw [Cmd.words, List.forall_mem_append, List.forall_mem_singleton] at h
    rw [Cmd.map, Cmd.map, ih h.1, Redir.map, Redir.map, h.2]
  | pipe left right ihl ihr =>
    rw [Cmd.words, List.forall_mem_append] at h
    rw [Cmd.map, Cmd.map, ihl h.1, ihr h.2]
  | list left right ihl ihr =>
    rw [Cmd.words, List.forall_mem_append] at h
    rw [Cmd.map, Cmd.map, ihl h.1, ihr h.2]
  | back cmd ih => rw [Cmd.map, Cmd.map, ih h]

theorem map_redircmds (f : V → W) (cmd : Cmd V) (rs : List (Redir V)) :
    (redircmds cmd rs).map f = redircmds (cmd.map f) (rs.map (Redir.map f)) := by
  induction rs generalizing cmd with
  | nil => rfl
  | cons r rs ih => exact ih (.redir cmd r)

theorem words_redircmds (cmd : Cmd W) (rs : List (Redir W)) :
    (redircmds cmd rs).words = cmd.words ++ rs.map Redir.file := by
  induction rs generalizing cmd with
  | nil => simp [redircmds]
  | cons r rs ih =>
    refine (ih (.redir cmd r)).trans ?_
    simp [Cmd.words]

theorem map_backs (f : V → W) (cmd : Cmd V) (k : Nat) : (backs cmd k).map f = backs (cmd.map f) k := by
  induction k generalizing cmd with
  | zero => rfl
  | succ k ih => exact ih (.back cmd)

theorem Items.append {ts us : List Token} {ws vs : List (List Byte)} {rs qs : List (Redir (List Byte))}
    (h : Items ts ws rs) (h' : Items us vs qs) : Items (ts ++ us) (ws ++ vs) (rs ++ qs) := by
  induction h with
  | nil => exact h'
  | word w _ ih => exact .word w ih
  | redir hop f _ ih => exact .redir hop f ih

theorem begins_one {set : List Byte} {t₀ : Token} (h : ∀ t : Token, t.among set = true ↔ t = t₀) {ts : List Token} :
    begins set ts = true ↔ ∃ us, ts = t₀ :: us := by
  cases ts with
  | nil => simp [begins]
  | cons t us => simp [begins, h]

theorem begins_amps {ts : List Token} : begins amps ts = true ↔ ∃ us, ts = .amp :: us :=
  begins_one fun t => by cases t <;> simp [Token.among, amps]

theorem begins_semis {ts : List Token} : begins semis ts = true ↔ ∃ us, ts = .semi :: us :=
  begins_one fun t => by cases t <;> simp [Token.among, semis]

theorem begins_bars {ts : List Token} : begins bars ts = true ↔ ∃ us, ts = .bar :: us :=
  begins_one fun t => by cases t <;> simp [Token.among, bars]

theorem begins_lparens {ts : List Token} : begins lparens ts = true ↔ ∃ us, ts = .lparen :: us :=
  begins_one fun t => by cases t <;> simp [Token.among, lparens]

theorem begins_rparens {ts : List Token} : begins rparens ts = true ↔ ∃ us, ts = .rparen :: us :=
  begins_one fun t => by cases t <;> simp [Token.among, rparens]

theorem begins_angles {ts : List Token} :
    begins angles ts = true ↔ ∃ op us mode fd, ts = op :: us ∧ RedirOp op mode fd := by
  cases ts with
  | nil => simp [begins]
  | cons t us =>
    constructor
    · intro h
      cases t with
      | less => exact ⟨_, _, _, _, rfl, .less⟩
      | greater => exact ⟨_, _, _, _, rfl, .greater⟩
      | append => exact ⟨_, _, _, _, rfl, .append⟩
      | _ => simp [begins, Token.among, angles] at h
    · rintro ⟨op, us', mode, fd, heq, hop⟩
      rw [List.cons.injEq] at heq
      obtain ⟨rfl, rfl⟩ := heq
      cases hop <;> simp [begins, Token.among, angles]

section

variable {l : Line} {i n : Nat} {E : Stop → Prop}

theorem ends_gettoken_cons {Q : Tok × Span → Nat → Prop} {t : Token} {ts : List Token} (hi : toks l.bytes i = t :: ts)
    (h : ∀ w j, toks l.bytes j = ts → t.Is l.bytes w → Q (t.tok, w) j) : Ends E (gettoken l.bytes) Q i := by
  refine ends_gettoken (fun hnil => ?_) fun t' ts' hcons w j hj his => ?_
  · rw [hi] at hnil
    cases hnil
  · rw [hi, List.cons.injEq] at hcons
    obtain ⟨rfl, rfl⟩ := hcons
    exact h w j hj his

end

variable (l : Line)

def Panics (e : Stop) : Prop := e ≠ .fuel

variable {l} {i n : Nat}

theorem panics_panic (msg : String) : Panics (.panic msg) := by
  intro h
  cases h

def Took (l : Line) (i : Nat) (ts : List Token) (j : Nat) : Prop := toks l.bytes i = ts ++ toks l.bytes j

theorem Took.length_le {ts : List Token} {j : Nat} (h : Took l i ts j) :
    (toks l.bytes j).length ≤ (toks l.bytes i).length := by
  rw [h, List.length_append]
  exact Nat.le_add_left _ _

theorem parseredirs_sound (rs : List (Redir Span)) (hn : (toks l.bytes i).length < n) :
    Ends Panics (parseredirs l.bytes n rs)
      (fun rs' j => ∃ ts new, Took l i ts j ∧ rs' = rs ++ new ∧ Items ts [] (new.map (Redir.map (text l.bytes))) ∧
        ∀ r ∈ new, WordAt l.bytes r.file) i := by
  induction n generalizing i rs with
  | zero => omega
  | succ n ih =>
    rw [parseredirs]
    refine ends_bind.mpr (ends_peek angles_symbols fun j hj => ends_ite (fun hb => ?_) fun _ => ?_)
    · obtain ⟨op, us, mode, fd, hop, hredir⟩ := begins_angles.1 hb
      refine ends_bind.mpr (ends_gettoken_cons (hj.trans hop) fun _ j₁ hj₁ _ => ?_)
      refine ends_bind.mpr (ends_gettoken (fun _ w j₂ _ => ?_) fun t ts ht w j₂ hj₂ his => ?_)
      · exact ends_ite (fun _ => ends_stop (panics_panic _)) fun hne => absurd (by decide) hne
      · refine ends_ite (fun _ => ends_stop (panics_panic _)) fun hword => ?_
        cases t with
        | word f =>
          obtain ⟨htext, hat⟩ := his
          have hlen : (toks l.bytes j₂).length < n := by
            rw [hop, ← hj₁, ht, ← hj₂] at hn
            simp only [List.length_cons] at hn
            omega
          -- whichever redirection it is, the loop goes on behind it
          have hgo : Ends Panics (parseredirs l.bytes n (rs ++ [⟨w, mode, fd⟩])) (fun rs' j => ∃ ts new,
              Took l i ts j ∧ rs' = rs ++ new ∧ Items ts [] (new.map (Redir.map (text l.bytes))) ∧
              ∀ r ∈ new, WordAt l.bytes r.file) j₂ := by
            refine (ih _ hlen).mono ?_
            rintro rs' k ⟨ts', new, htook, rfl, hitems, hall⟩
            refine ⟨op :: .word f :: ts', ⟨w, mode, fd⟩ :: new, ?_, by simp, ?_, ?_⟩
            · rw [Took, hop, ← hj₁, ht, ← hj₂, htook]
              rfl
            · rw [List.map_cons, Redir.map, htext]
              exact .redir hredir f hitems
            · exact List.forall_mem_cons.2 ⟨hat, hall⟩
          cases hredir <;> exact hgo
        | _ => exact absurd (by decide) hword
    · exact ends_pure ⟨[], [], hj.symm, by simp, .nil, by simp⟩

theorem parseargs_sound (argv : List Span) (rs : List (Redir Span)) (hn : (toks l.bytes i).length < n)
    (hargv : argv.length ≤ maxargs - 1) :
    Ends Panics (parseargs l.bytes n argv rs)
      (fun cmd j => ∃ ts ws new, Took l i ts j ∧ cmd = redircmds (.exec (argv ++ ws)) (rs ++ new) ∧
        Items ts (ws.map (text l.bytes)) (new.map (Redir.map (text l.bytes))) ∧ (∀ w ∈ ws, WordAt l.bytes w) ∧
        (∀ r ∈ new, WordAt l.bytes r.file) ∧ (argv ++ ws).length ≤ maxargs - 1) i := by
  induction n generalizing i argv rs with
  | zero => omega
  | succ n ih =>
    rw [parseargs]
    refine ends_bind.mpr (ends_peek enders_symbols fun j hj => ends_ite (fun _ => ?_) fun _ => ?_)
    · exact ends_pure ⟨[], [], [], hj.symm, by simp, .nil, by simp, by simp, by simpa using hargv⟩
    · refine ends_bind.mpr (ends_gettoken (fun hnil w j₁ hj₁ => ?_) fun t ts ht w j₁ hj₁ his => ?_)
      · refine ends_ite (fun _ => ends_pure ?_) fun hne => absurd rfl hne
        exact ⟨[], [], [], by rw [Took, ← hj, hnil, hj₁]; rfl, by simp, .nil, by simp, by simp, by simpa using hargv⟩
      · cases t with
        | word f =>
          obtain ⟨htext, hat⟩ := his
          have hlen : (toks l.bytes j₁).length < n := by
            rw [← hj, ht, ← hj₁, List.length_cons] at hn
            omega
          refine ends_ite (fun heq => by cases heq) fun _ => ends_ite (fun hne => absurd rfl hne) fun _ =>
            ends_ite (fun _ => ends_stop (panics_panic _)) fun hfew => ?_
          refine (parseredirs_sound rs hlen).bind ?_
          rintro rs' j₂ ⟨ts₁, new₁, htook₁, rfl, hitems₁, hall₁⟩
          refine (ih (argv ++ [w]) _ (Nat.lt_of_le_of_lt htook₁.length_le hlen) ?_).mono ?_
          · simp only [maxargs] at hfew ⊢
            omega
          · rintro cmd k ⟨ts₂, ws, new₂, htook₂, rfl, hitems₂, hws, hall₂, hlen₂⟩
            refine ⟨.word f :: (ts₁ ++ ts₂), w :: ws, new₁ ++ new₂, ?_, by simp, ?_, ?_, ?_, by simpa using hlen₂⟩
            · rw [Took, ← hj, ht, ← hj₁, htook₁, htook₂]
              simp
            · rw [List.map_cons, htext, List.map_append]
              exact .word f (hitems₁.append hitems₂)
            · exact List.forall_mem_cons.2 ⟨hat, hws⟩
            · exact List.forall_mem_append.2 ⟨hall₁, hall₂⟩
        | _ =>
          exact ends_ite (fun heq => by cases heq) fun _ =>
            ends_ite (fun _ => ends_stop (panics_panic _)) fun hword => absurd (by decide) hword

theorem parsebacks_sound (cmd : Cmd Span) (hn : (toks l.bytes i).length < n) :
    Ends Panics (parsebacks l.bytes n cmd)
      (fun cmd' j => ∃ k, Took l i (List.replicate k .amp) j ∧ cmd' = backs cmd k) i := by
  induction n generalizing i cmd with
  | zero => omega
  | succ n ih =>
    rw [parsebacks]
    refine ends_bind.mpr (ends_peek amps_symbols fun j hj => ends_ite (fun hb => ?_) fun _ => ?_)
    · obtain ⟨us, hamp⟩ := begins_amps.1 hb
      refine ends_bind.mpr (ends_gettoken_cons (hj.trans hamp) fun _ j₁ hj₁ _ => ?_)
      have hlen : (toks l.bytes j₁).length < n := by
        rw [hamp, ← hj₁, List.length_cons] at hn
        omega
      refine (ih (.back cmd) hlen).mono ?_
      rintro cmd' j₂ ⟨k, htook, rfl⟩
      refine ⟨k + 1, ?_, rfl⟩
      rw [Took, hamp, ← hj₁, htook, List.replicate_succ, List.cons_append]
    · exact ends_pure ⟨0, hj.symm, rfl⟩

theorem words_backs (cmd : Cmd W) (k : Nat) : (backs cmd k).words = cmd.words := by
  induction k generalizing cmd with
  | zero => rfl
  | succ k ih => exact ih (.back cmd)

def Accepts (l : Line) (i : Nat) (nt : Nt) (cmd : Cmd Span) (j : Nat) : Prop :=
  ∃ ts, Took l i ts j ∧ Derives nt ts (cmd.map (text l.bytes)) ∧ ∀ w ∈ cmd.words, WordAt l.bytes w

theorem Accepts.of_peek {nt : Nt} {cmd : Cmd Span} {j k : Nat} (hj : toks l.bytes j = toks l.bytes i)
    (h : Accepts l j nt cmd k) : Accepts l i nt cmd k := by
  obtain ⟨ts, htook, hrest⟩ := h
  exact ⟨ts, hj.symm.trans htook, hrest⟩

theorem simple_sound (hn : (toks l.bytes i).length < n) :
    Ends Panics (parseredirs l.bytes n [] >>= fun rs => parseargs l.bytes n [] rs) (Accepts l i .exec) i := by
  refine (parseredirs_sound [] hn).bind ?_
  rintro rs j₁ ⟨ts₁, new₁, htook₁, rfl, hitems₁, hall₁⟩
  refine (parseargs_sound [] _ (Nat.lt_of_le_of_lt htook₁.length_le hn) (by simp)).mono ?_
  rintro cmd j₂ ⟨ts₂, ws, new₂, htook₂, rfl, hitems₂, hws, hall₂, hlen⟩
  refine ⟨ts₁ ++ ts₂, ?_, ?_, ?_⟩
  · rw [Took, htook₁, htook₂, List.append_assoc]
  · rw [map_redircmds]
    have hitems := hitems₁.append hitems₂
    rw [← List.map_append] at hitems
    exact .simple hitems (by simpa using hlen)
  · rw [words_redircmds, List.forall_mem_append, List.forall_mem_map]
    exact ⟨hws, List.forall_mem_append.2 ⟨hall₁, hall₂⟩⟩

/-- By induction on the turns. Each call uses one. -/
theorem parse_sound (n : Nat) :
    (∀ i, 4 * (toks l.bytes i).length + 4 ≤ n → Ends Panics (parseline l.bytes n) (Accepts l i .line) i) ∧
    (∀ i, 4 * (toks l.bytes i).length + 3 ≤ n → Ends Panics (parsepipe l.bytes n) (Accepts l i .pipe) i) ∧
    (∀ i, 4 * (toks l.bytes i).length + 2 ≤ n → Ends Panics (parseexec l.bytes n) (Accepts l i .exec) i) ∧
    (∀ i, 4 * (toks l.bytes i).length + 1 ≤ n → Ends Panics (parseblock l.bytes n) (Accepts l i .exec) i) := by
  induction n with
  | zero => exact ⟨fun _ h => by omega, fun _ h => by omega, fun _ h => by omega, fun _ h => by omega⟩
  | succ n ih =>
    obtain ⟨ihline, ihpipe, ihexec, ihblock⟩ := ih
    refine ⟨fun i hn => ?_, fun i hn => ?_, fun i hn => ?_, fun i hn => ?_⟩
    · rw [parseline]
      refine (ihpipe i (by omega)).bind ?_
      rintro cmd j ⟨ts, htook, hder, hall⟩
      have hj := htook.length_le
      refine (parsebacks_sound cmd (by omega)).bind ?_
      rintro _ j₁ ⟨k, htook₁, rfl⟩
      refine ends_bind.mpr (ends_peek semis_symbols fun j₂ hj₂ => ends_ite (fun hb => ?_) fun _ => ?_)
      · obtain ⟨us, hsemi⟩ := begins_semis.1 hb
        refine ends_bind.mpr (ends_gettoken_cons (hj₂.trans hsemi) fun _ j₃ hj₃ _ => ?_)
        have hj₁ := htook₁.length_le
        rw [hsemi, ← hj₃, List.length_cons] at hj₁
        refine (ihline j₃ (by omega)).bind ?_
        rintro right j₄ ⟨us', htook₂, hder₂, hall₂⟩
        refine ends_pure ⟨ts ++ (List.replicate k .amp ++ .semi :: us'), ?_, ?_, ?_⟩
        · rw [Took, htook, htook₁, hsemi, ← hj₃, htook₂]
          simp
        · rw [Cmd.map, map_backs]
          exact .list k hder hder₂
        · rw [Cmd.words, words_backs]
          exact List.forall_mem_append.2 ⟨hall, hall₂⟩
      · refine ends_pure ⟨ts ++ List.replicate k .amp, ?_, ?_, by rwa [words_backs]⟩
        · rw [Took, htook, htook₁, hj₂, List.append_assoc]
        · rw [map_backs]
          exact .line k hder
    · rw [parsepipe]
      refine (ihexec i (by omega)).bind ?_
      rintro cmd j ⟨ts, htook, hder, hall⟩
      refine ends_bind.mpr (ends_peek bars_symbols fun j₁ hj₁ => ends_ite (fun hb => ?_) fun _ => ?_)
      · obtain ⟨us, hbar⟩ := begins_bars.1 hb
        refine ends_bind.mpr (ends_gettoken_cons (hj₁.trans hbar) fun _ j₂ hj₂ _ => ?_)
        have hj := htook.length_le
        rw [hbar, ← hj₂, List.length_cons] at hj
        refine (ihpipe j₂ (by omega)).bind ?_
        rintro right j₃ ⟨us', htook₁, hder₁, hall₁⟩
        refine ends_pure ⟨ts ++ .bar :: us', ?_, .pipe hder hder₁, List.forall_mem_append.2 ⟨hall, hall₁⟩⟩
        rw [Took, htook, hbar, ← hj₂, htook₁]
        simp
      · refine ends_pure ⟨ts, ?_, .single hder, hall⟩
        rw [Took, htook, hj₁]
    · rw [parseexec]
      refine ends_bind.mpr (ends_peek lparens_symbols fun j hj => ends_ite (fun _ => ?_) fun _ => ?_)
      · exact (ihblock j (by rw [hj]; omega)).mono fun _ _ h => h.of_peek hj
      · exact (simple_sound (by rw [hj]; omega)).mono fun _ _ h => h.of_peek hj
    · rw [parseblock]
      refine ends_bind.mpr (ends_peek lparens_symbols fun j hj =>
        ends_ite (fun _ => ends_stop (panics_panic _)) fun hb => ?_)
      obtain ⟨us, hparen⟩ := begins_lparens.1 (by simpa using hb)
      refine ends_bind.mpr (ends_gettoken_cons (hj.trans hparen) fun _ j₁ hj₁ _ => ?_)
      rw [hparen, ← hj₁, List.length_cons] at hn
      refine (ihline j₁ (by omega)).bind ?_
      rintro cmd j₂ ⟨ts, htook, hder, hall⟩
      refine ends_bind.mpr (ends_peek rparens_symbols fun j₃ hj₃ =>
        ends_ite (fun _ => ends_stop (panics_panic _)) fun hb₁ => ?_)
      obtain ⟨us₁, hparen₁⟩ := begins_rparens.1 (by simpa using hb₁)
      refine ends_bind.mpr (ends_gettoken_cons (hj₃.trans hparen₁) fun _ j₄ hj₄ _ => ?_)
      have hj₂ := htook.length_le
      rw [hparen₁, ← hj₄, List.length_cons] at hj₂
      refine (parseredirs_sound [] (by omega)).bind ?_
      rintro rs j₅ ⟨ts₁, new, htook₁, rfl, hitems, hnew⟩
      refine ends_pure ⟨.lparen :: (ts ++ .rparen :: ts₁), ?_, ?_, ?_⟩
      · rw [Took, hparen, ← hj₁, htook, hparen₁, ← hj₄, htook₁]
        simp
      · rw [map_redircmds]
        exact .block hder (by simpa using hitems)
      · rw [words_redircmds, List.forall_mem_append, List.forall_mem_map]
        exact ⟨hall, by simpa using hnew⟩

end Xv6.Sh
