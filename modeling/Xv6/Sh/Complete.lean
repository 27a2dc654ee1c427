import Xv6.Sh.Sound

/-!
# What the parser refuses

The parser returns on every line that the grammar derives, with the tree of the derivation.
-/

open Xv6.Bytes Xv6.Code

namespace Xv6.Sh

variable {l : Line} {i n : Nat} {ts us rest : List Token}

def Never (_ : Stop) : Prop := False

/-! ## What may follow -/

def EndsExec (rest : List Token) : Prop := rest = [] ∨ begins enders rest = true

def EndsPipe (rest : List Token) : Prop :=
  rest = [] ∨ (∃ us, rest = .amp :: us) ∨ (∃ us, rest = .semi :: us) ∨ ∃ us, rest = .rparen :: us

def EndsLine (rest : List Token) : Prop := rest = [] ∨ ∃ us, rest = .rparen :: us

def Nt.Follow : Nt → List Token → Prop
  | line => EndsLine
  | pipe => EndsPipe
  | exec => EndsExec

theorem EndsLine.endsPipe (h : EndsLine rest) : EndsPipe rest := h.imp_right fun h => .inr (.inr h)

theorem EndsPipe.endsExec (h : EndsPipe rest) : EndsExec rest := by
  obtain rfl | ⟨us, rfl⟩ | ⟨us, rfl⟩ | ⟨us, rfl⟩ := h
  · exact .inl rfl
  all_goals exact .inr rfl

theorem endsExec_bar : EndsExec (.bar :: us) := .inr rfl

theorem endsPipe_amps (h : EndsPipe rest) (k : Nat) : EndsPipe (List.replicate k .amp ++ rest) := by
  cases k with
  | zero => exact h
  | succ k => exact .inr (.inl ⟨_, rfl⟩)

theorem EndsExec.begins_eq_false {set : List Byte} (hset : ∀ c ∈ set, c ∉ enders) (h : EndsExec rest) :
    begins set rest = false := by
  have hnot : ∀ c, enders.contains c = true → set.contains c = false := by
    intro c hc
    simp only [List.contains_eq_mem, decide_eq_true_eq, decide_eq_false_iff_not] at hc ⊢
    exact fun hmem => hset c hmem hc
  obtain rfl | h := h
  · rfl
  · cases rest with
    | nil => rfl
    | cons t us =>
      cases t with
      | word w => rfl
      | _ => exact hnot _ h

theorem EndsExec.begins_angles (h : EndsExec rest) : begins angles rest = false := h.begins_eq_false (by decide)

theorem EndsExec.begins_lparens (h : EndsExec rest) : begins lparens rest = false := h.begins_eq_false (by decide)

theorem Items.begins_lparens {ws : List (List Byte)} {rs : List (Redir (List Byte))} (h : Items ts ws rs)
    (hrest : EndsExec rest) : begins lparens (ts ++ rest) = false := by
  cases h with
  | nil => exact hrest.begins_lparens
  | word w _ => rfl
  | redir hop f _ => cases hop <;> rfl

/-! ## Loops -/

theorem peek_is {α : Type} {set : List Byte} (hset : ∀ c ∈ set, c ∈ symbols) {f : Bool → Parser α} {Q : α → Nat → Prop}
    {b : Bool} (hi : toks l.bytes i = ts) (hb : begins set ts = b)
    (h : ∀ j, toks l.bytes j = ts → Ends Never (f b) Q j) : Ends Never (peek l.bytes set >>= f) Q i :=
  ends_bind.mpr (ends_peek hset fun j hj => hi ▸ hb ▸ h j (hj.trans hi))

theorem parseredirs_redir {op : Token} {mode fd : Nat} (hop : RedirOp op mode fd) {f : List Byte}
    (rs : List (Redir Span)) {Q : List (Redir Span) → Nat → Prop} (hi : toks l.bytes i = op :: .word f :: ts)
    (h : ∀ w j, toks l.bytes j = ts → text l.bytes w = f →
      Ends Never (parseredirs l.bytes n (rs ++ [⟨w, mode, fd⟩])) Q j) :
    Ends Never (parseredirs l.bytes (n + 1) rs) Q i := by
  rw [parseredirs]
  refine peek_is angles_symbols hi (by cases hop <;> rfl) fun j hj => ?_
  refine ends_bind.mpr (ends_gettoken_cons hj fun _ j₁ hj₁ _ => ?_)
  refine ends_bind.mpr (ends_gettoken_cons hj₁ fun w j₂ hj₂ his => ?_)
  refine ends_ite (fun hne => absurd rfl hne) fun _ => ?_
  have hgo := h w j₂ hj₂ his.1
  cases hop <;> exact hgo

theorem parseredirs_done (rs : List (Redir Span)) {Q : List (Redir Span) → Nat → Prop}
    (hi : begins angles (toks l.bytes i) = false) (h : ∀ j, toks l.bytes j = toks l.bytes i → Q rs j) :
    Ends Never (parseredirs l.bytes (n + 1) rs) Q i := by
  rw [parseredirs]
  exact peek_is angles_symbols rfl hi fun j hj => ends_pure (h j hj)

theorem parseredirs_complete {rs' : List (Redir (List Byte))} (h : Items ts [] rs') (hrest : EndsExec rest)
    (hi : toks l.bytes i = ts ++ rest) (hn : ts.length < n) (rs : List (Redir Span)) :
    Ends Never (parseredirs l.bytes n rs) (fun out j => toks l.bytes j = rest ∧
      out.map (Redir.map (text l.bytes)) = rs.map (Redir.map (text l.bytes)) ++ rs') i := by
  generalize hws : ([] : List (List Byte)) = ws at h
  induction h generalizing i n rs with
  | nil =>
    obtain ⟨n, rfl⟩ := Nat.exists_eq_succ_of_ne_zero (Nat.ne_zero_of_lt hn)
    refine parseredirs_done rs (by rw [hi]; exact hrest.begins_angles) fun j hj => ⟨hj.trans hi, by simp⟩
  | word w _ _ => cases hws
  | redir hop f _ ih =>
    obtain ⟨n, rfl⟩ := Nat.exists_eq_succ_of_ne_zero (Nat.ne_zero_of_lt hn)
    refine parseredirs_redir hop rs hi fun w j hj htext => ?_
    simp only [List.length_cons] at hn
    refine (ih hj (by omega) _ hws).mono ?_
    rintro out k ⟨hk, hout⟩
    refine ⟨hk, hout.trans ?_⟩
    simp [Redir.map, htext]

theorem items_complete {ws : List (List Byte)} {rs' : List (Redir (List Byte))} (h : Items ts ws rs')
    (hrest : EndsExec rest) (hi : toks l.bytes i = ts ++ rest) {m : Nat} (hm : ts.length < m) (hn : ts.length < n)
    (argv : List Span) (rs : List (Redir Span)) (hfew : argv.length + ws.length ≤ maxargs - 1) :
    Ends Never (parseredirs l.bytes m rs >>= fun rs => parseargs l.bytes n argv rs) (fun cmd j =>
      toks l.bytes j = rest ∧ cmd.map (text l.bytes) = redircmds (.exec (argv.map (text l.bytes) ++ ws))
        (rs.map (Redir.map (text l.bytes)) ++ rs')) i := by
  induction h generalizing i m n argv rs with
  | nil =>
    obtain ⟨m, rfl⟩ := Nat.exists_eq_succ_of_ne_zero (Nat.ne_zero_of_lt hm)
    obtain ⟨n, rfl⟩ := Nat.exists_eq_succ_of_ne_zero (Nat.ne_zero_of_lt hn)
    refine ends_bind.mpr (parseredirs_done rs (by rw [hi]; exact hrest.begins_angles) fun j hj => ?_)
    replace hj : toks l.bytes j = rest := hj.trans hi
    have hcmd : (redircmds (.exec argv) rs).map (text l.bytes) =
        redircmds (.exec (argv.map (text l.bytes) ++ [])) (rs.map (Redir.map (text l.bytes)) ++ []) := by
      rw [map_redircmds, List.append_nil, List.append_nil]
      rfl
    rw [parseargs]
    refine ends_bind.mpr (ends_peek enders_symbols fun j₁ hj₁ =>
      ends_ite (fun _ => ends_pure ⟨hj₁.trans hj, hcmd⟩) fun hb => ?_)
    -- the line has come to its end
    obtain rfl | hends := hrest
    · refine ends_bind.mpr (ends_gettoken (fun _ w j₂ hj₂ => ?_) fun t ts ht => ?_)
      · exact ends_ite (fun _ => ends_pure ⟨hj₂, hcmd⟩) fun hne => absurd rfl hne
      · rw [hj₁, hj] at ht
        cases ht
    · exact absurd (hj ▸ hends) hb
  | word w _ ih =>
    obtain ⟨m, rfl⟩ := Nat.exists_eq_succ_of_ne_zero (Nat.ne_zero_of_lt hm)
    obtain ⟨n, rfl⟩ := Nat.exists_eq_succ_of_ne_zero (Nat.ne_zero_of_lt hn)
    refine ends_bind.mpr (parseredirs_done rs (by rw [hi]; rfl) fun j hj => ?_)
    replace hj := hj.trans hi
    rw [parseargs]
    refine peek_is enders_symbols hj rfl fun j₁ hj₁ => ends_bind.mpr (ends_gettoken_cons hj₁ fun v j₂ hj₂ his => ?_)
    simp only [List.length_cons] at hm hn hfew
    have hlt : ¬ (argv ++ [v]).length ≥ maxargs := by
      simp only [maxargs, List.length_append, List.length_singleton] at hfew ⊢
      omega
    refine ends_ite (fun heq => by cases heq) fun _ => ends_ite (fun hne => absurd rfl hne) fun _ =>
      ends_ite (fun hge => absurd hge hlt) fun _ => ?_
    refine (ih hj₂ (by omega) (by omega) (argv ++ [v]) rs (by simp; omega)).mono ?_
    rintro cmd k ⟨hk, hcmd⟩
    refine ⟨hk, hcmd.trans ?_⟩
    simp [his.1]
  | redir hop f _ ih =>
    obtain ⟨m, rfl⟩ := Nat.exists_eq_succ_of_ne_zero (Nat.ne_zero_of_lt hm)
    simp only [List.length_cons] at hm hn
    refine ends_bind.mpr (parseredirs_redir hop rs hi fun w j hj htext => ?_)
    refine ends_bind.mp ((ih hj (by omega) (by omega) argv (rs ++ [_]) hfew).mono ?_)
    rintro cmd k ⟨hk, hcmd⟩
    refine ⟨hk, hcmd.trans ?_⟩
    simp [Redir.map, htext]

theorem parsebacks_complete (k : Nat) (hamp : begins amps rest = false)
    (hi : toks l.bytes i = List.replicate k .amp ++ rest) (hn : k < n) (cmd : Cmd Span) :
    Ends Never (parsebacks l.bytes n cmd) (fun cmd' j => toks l.bytes j = rest ∧ cmd' = backs cmd k) i := by
  induction k generalizing i n cmd with
  | zero =>
    obtain ⟨n, rfl⟩ := Nat.exists_eq_succ_of_ne_zero (Nat.ne_zero_of_lt hn)
    rw [parsebacks]
    exact peek_is amps_symbols hi hamp fun j hj => ends_pure ⟨hj, rfl⟩
  | succ k ih =>
    obtain ⟨n, rfl⟩ := Nat.exists_eq_succ_of_ne_zero (Nat.ne_zero_of_lt hn)
    rw [List.replicate_succ, List.cons_append] at hi
    rw [parsebacks]
    refine peek_is amps_symbols hi rfl fun j hj => ends_bind.mpr (ends_gettoken_cons hj fun _ j₁ hj₁ _ => ?_)
    exact ih hj₁ (by omega) (.back cmd)

/-! ## Commands -/

def parse (s : List Byte) : Nt → Nat → Parser (Cmd Span)
  | .line => parseline s
  | .pipe => parsepipe s
  | .exec => parseexec s

def Nt.turns (k : Nat) : Nt → Nat
  | line => 4 * k + 4
  | pipe => 4 * k + 3
  | exec => 4 * k + 2

theorem parse_complete {nt : Nt} {c : Cmd (List Byte)} (h : Derives nt ts c) (hrest : nt.Follow rest)
    (hi : toks l.bytes i = ts ++ rest) (hn : nt.turns ts.length ≤ n) :
    Ends Never (parse l.bytes nt n) (fun cmd j => toks l.bytes j = rest ∧ cmd.map (text l.bytes) = c) i := by
  induction h generalizing i n rest with
  | line k left ih =>
    obtain ⟨n, rfl⟩ : ∃ m, n = m + 1 := ⟨n - 1, by simp only [Nt.turns] at hn; omega⟩
    simp only [Nt.turns, List.length_append, List.length_replicate] at hn
    rw [List.append_assoc] at hi
    have hpipe := hrest.endsPipe
    have hamp : begins amps rest = false := by
      obtain rfl | ⟨us, rfl⟩ := hrest <;> rfl
    rw [parse, parseline]
    refine Ends.bind (ih (n := n) (endsPipe_amps hpipe k) hi (by simp only [Nt.turns]; omega)) ?_
    rintro cmd j ⟨hj, rfl⟩
    refine Ends.bind (parsebacks_complete k hamp hj (by omega) cmd) ?_
    rintro _ j₁ ⟨hj₁, rfl⟩
    have hsemi : begins semis rest = false := by
      obtain rfl | ⟨us, rfl⟩ := hrest <;> rfl
    exact peek_is semis_symbols hj₁ hsemi fun j₂ hj₂ => ends_pure ⟨hj₂, map_backs _ _ _⟩
  | @list ts us c d k left right ihl ihr =>
    obtain ⟨n, rfl⟩ : ∃ m, n = m + 1 := ⟨n - 1, by simp only [Nt.turns] at hn; omega⟩
    simp only [Nt.turns, List.length_append, List.length_replicate, List.length_cons] at hn
    rw [List.append_assoc, List.append_assoc, List.cons_append] at hi
    have hpipe : EndsPipe (.semi :: (us ++ rest)) := .inr (.inr (.inl ⟨_, rfl⟩))
    rw [parse, parseline]
    refine Ends.bind (ihl (n := n) (endsPipe_amps hpipe k) hi (by simp only [Nt.turns]; omega)) ?_
    rintro cmd j ⟨hj, rfl⟩
    refine Ends.bind (parsebacks_complete k rfl hj (by omega) cmd) ?_
    rintro _ j₁ ⟨hj₁, rfl⟩
    refine peek_is semis_symbols hj₁ rfl fun j₂ hj₂ => ends_bind.mpr (ends_gettoken_cons hj₂ fun _ j₃ hj₃ _ => ?_)
    refine Ends.bind (ihr (n := n) hrest hj₃ (by simp only [Nt.turns]; omega)) ?_
    rintro right j₄ ⟨hj₄, rfl⟩
    refine ends_pure ⟨hj₄, ?_⟩
    rw [Cmd.map, map_backs]
  | single left ih =>
    obtain ⟨n, rfl⟩ : ∃ m, n = m + 1 := ⟨n - 1, by simp only [Nt.turns] at hn; omega⟩
    rw [parse, parsepipe]
    refine Ends.bind (ih (n := n) hrest.endsExec hi (by simp only [Nt.turns] at hn ⊢; omega)) ?_
    rintro cmd j ⟨hj, rfl⟩
    have hbar : begins bars rest = false := by
      obtain rfl | ⟨us, rfl⟩ | ⟨us, rfl⟩ | ⟨us, rfl⟩ := hrest <;> rfl
    exact peek_is bars_symbols hj hbar fun j₁ hj₁ => ends_pure ⟨hj₁, rfl⟩
  | pipe left right ihl ihr =>
    obtain ⟨n, rfl⟩ : ∃ m, n = m + 1 := ⟨n - 1, by simp only [Nt.turns] at hn; omega⟩
    simp only [Nt.turns, List.length_append, List.length_cons] at hn
    rw [List.append_assoc, List.cons_append] at hi
    rw [parse, parsepipe]
    refine Ends.bind (ihl (n := n) endsExec_bar hi (by simp only [Nt.turns]; omega)) ?_
    rintro cmd j ⟨hj, rfl⟩
    refine peek_is bars_symbols hj rfl fun j₁ hj₁ => ends_bind.mpr (ends_gettoken_cons hj₁ fun _ j₂ hj₂ _ => ?_)
    refine Ends.bind (ihr (n := n) hrest hj₂ (by simp only [Nt.turns]; omega)) ?_
    rintro right j₃ ⟨hj₃, rfl⟩
    exact ends_pure ⟨hj₃, rfl⟩
  | @block ts us c rs inner redirs ih =>
    obtain ⟨n, rfl⟩ : ∃ m, n = m + 2 := ⟨n - 2, by simp only [Nt.turns] at hn; omega⟩
    simp only [Nt.turns, List.length_append, List.length_cons] at hn
    rw [List.cons_append, List.append_assoc, List.cons_append] at hi
    rw [parse, parseexec]
    refine peek_is lparens_symbols hi rfl fun j hj => ends_ite (fun _ => ?_) fun hb => absurd rfl hb
    rw [parseblock]
    refine peek_is lparens_symbols hj rfl fun j₁ hj₁ => ends_bind.mpr (ends_gettoken_cons hj₁ fun _ j₂ hj₂ _ => ?_)
    have hline : EndsLine (.rparen :: (us ++ rest)) := .inr ⟨_, rfl⟩
    refine Ends.bind (ih (n := n) hline hj₂ (by simp only [Nt.turns]; omega)) ?_
    rintro cmd j₃ ⟨hj₃, rfl⟩
    refine peek_is rparens_symbols hj₃ rfl fun j₄ hj₄ => ends_bind.mpr (ends_gettoken_cons hj₄ fun _ j₅ hj₅ _ => ?_)
    refine Ends.bind (parseredirs_complete redirs hrest hj₅ (by omega) []) ?_
    rintro out j₆ ⟨hj₆, hout⟩
    refine ends_pure ⟨hj₆, ?_⟩
    rw [map_redircmds, hout]
    rfl
  | simple items few =>
    obtain ⟨n, rfl⟩ : ∃ m, n = m + 1 := ⟨n - 1, by simp only [Nt.turns] at hn; omega⟩
    simp only [Nt.turns] at hn
    rw [parse, parseexec]
    refine peek_is lparens_symbols hi (items.begins_lparens hrest) fun j hj => ?_
    exact items_complete items hrest hj (by omega) (by omega) [] [] (by simpa using few)

end Xv6.Sh
