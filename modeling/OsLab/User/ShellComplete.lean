/-
The parser of the shell returns the tree of every command line whose nodes it has room for.

* `lookahead`, `Stops` — what may come behind a nonterminal;
* `derives_complete` — by induction on the derivation, the functions come to its end;
* `nulterminate_shows` — a word is one of its characters up to where `nulterminate` writes;
* `parsecmd_iff` — the shell accepts the command lines of the grammar.
-/
import OsLab.User.ShellSound

namespace OsLab.Shell

/-! ### Looking ahead -/

/-- The first character of a token that is no word. -/
def Token.first : Token → Option Char
  | .symbol c => some c
  | .append => some '>'
  | .word _ => none

/-- What `peek` sees of the tokens. -/
def lookahead (us : List Token) : Option Char := us.head?.bind Token.first

/-- The tokens are at their end, or at one of these symbols. -/
def Stops (cs : List Char) (us : List Token) : Prop :=
  us = [] ∨ ∃ c ∈ cs, ∃ us', us = .symbol c :: us'

section lookahead

variable {c : Char} {cs toks : List Char} {s text w : Text} {ts us : List Token} {op : Token}
  {mode : OpenMode} {fd : ℕ} {ws : List Text} {rs : List (Redirect Text)}

theorem Stops.lookahead (h : Stops cs us) (hc : c ∉ cs) : lookahead us ≠ some c := by
  rcases h with rfl | ⟨d, hd, us', rfl⟩
  · simp [Shell.lookahead]
  · rintro hcd
    obtain rfl := Option.some.inj hcd
    exact hc hd

theorem Stops.mono {cs' : List Char} (h : Stops cs us) (hcs : ∀ c ∈ cs, c ∈ cs') :
    Stops cs' us := by
  rcases h with rfl | ⟨d, hd, us', rfl⟩
  · exact Or.inl rfl
  · exact Or.inr ⟨d, hcs d hd, us', rfl⟩

theorem peek_first (h : Lexes s us) (hl : lookahead us = some c) (hc : c ∈ toks) :
    peek toks s = (true, skip s) := by
  rcases h.cases_skip with ⟨rfl, -⟩ | ⟨d, r, ts', rfl, hd, hs, -⟩ | ⟨r, ts', rfl, hs, -⟩ |
    ⟨w, r, ts', rfl, -⟩
  · cases hl
  · obtain rfl := Option.some.inj hl
    rw [peek_cons hs, hs]
    simpa using hc
  · obtain rfl := Option.some.inj hl
    rw [peek_cons hs, hs]
    simpa using hc
  · cases hl

theorem peek_other (h : Lexes s us) (hsym : ∀ c ∈ toks, c ∈ symbols)
    (hl : ∀ c ∈ toks, lookahead us ≠ some c) : peek toks s = (false, skip s) := by
  rcases h.cases_skip with ⟨rfl, hs⟩ | ⟨d, r, ts', rfl, hd, hs, -⟩ | ⟨r, ts', rfl, hs, -⟩ |
    ⟨w, r, ts', rfl, hw, hs, -⟩
  · rw [peek_end hs, hs]
  · have hd : d ∉ toks := fun hmem => hl d hmem rfl
    rw [peek_cons hs, hs]
    simpa using hd
  · have hd : '>' ∉ toks := fun hmem => hl '>' hmem rfl
    rw [peek_cons hs, hs]
    simpa using hd
  · obtain ⟨d, w', rfl, hd⟩ := hw.exists_cons
    have hmem : d ∉ toks := fun hmem => notMem_symbols_of_wordChar hd (hsym d hmem)
    rw [List.cons_append] at hs
    rw [peek_cons hs, hs]
    simpa using hmem

theorem Redirs.lookahead_append (h : Redirs ts rs) (us : List Token) :
    ts = [] ∨ lookahead (ts ++ us) = some '<' ∨ lookahead (ts ++ us) = some '>' := by
  cases h with
  | nil => exact Or.inl rfl
  | @cons op w mode fd ts rs hop _ =>
    right
    unfold Token.redirection at hop
    split at hop
    · exact Or.inl rfl
    · exact Or.inr rfl
    · exact Or.inr rfl
    · cases hop

theorem Args.lookahead_append (h : Args ts ws rs) (us : List Token) :
    ts = [] ∨ lookahead (ts ++ us) = none := by
  cases h with
  | nil => exact Or.inl rfl
  | cons _ _ => exact Or.inr rfl

/-- A symbol is seen and taken. -/
theorem Lexes.symbol_turn (hc : c ∈ ['|', '(', ')', ';', '&', '<'])
    (h : Lexes s (.symbol c :: us)) :
    peek [c] s = (true, skip s) ∧ Lexes (gettoken (skip s)).s us ∧
      (gettoken (skip s)).s <:+ s := by
  obtain ⟨r, -, hs, hr⟩ := h.symbol_inv
  have hpeek := peek_first h rfl (List.mem_singleton_self c)
  refine ⟨hpeek, ?_, (peek_reads hc hpeek).suffix⟩
  rw [gettoken_symbol hc ((skip_skip s).trans hs)]
  exact hr.to_skip

/-- A word is taken. -/
theorem Lexes.word_turn (h : Lexes s (.word w :: us)) :
    ∃ a s₁, gettoken s = ⟨'a', a.q, a.eq, s₁⟩ ∧ Lexes s₁ us ∧ s₁ <:+ s ∧
      ∀ text, s <:+ text → Span.Shows text a w := by
  obtain ⟨r, hw, hs, hr⟩ := h.word_inv
  exact ⟨⟨w ++ r, r⟩, skip r, gettoken_word hw hs, hr.to_skip, (Reads.word hw hs).suffix,
    fun text htext => .of_skip hw hs htext⟩

/-- An operator is seen and taken; a word comes next. -/
theorem Lexes.operator_turn (hop : op.redirection = some (mode, fd))
    (h : Lexes s (op :: .word w :: us)) :
    peek ['<', '>'] s = (true, skip s) ∧ Lexes (gettoken (skip s)).s (.word w :: us) ∧
      (gettoken (skip s)).s <:+ s ∧
      ∀ cmd file i, redirBy (gettoken (skip s)).ret cmd file i = redircmd cmd file mode fd i := by
  unfold Token.redirection at hop
  split at hop
  · -- `<`
    obtain ⟨rfl, rfl⟩ := Prod.mk.inj (Option.some.inj hop)
    obtain ⟨r, hsym, hs, hr⟩ := h.symbol_inv
    refine ⟨peek_first h rfl (by simp), ?_⟩
    rw [gettoken_symbol (by simp) ((skip_skip s).trans hs)]
    exact ⟨hr.to_skip, (Reads.symbol hsym hs).suffix, fun _ _ _ => rfl⟩
  · -- `>`, which is not that of `>>`, as a word comes next
    obtain ⟨rfl, rfl⟩ := Prod.mk.inj (Option.some.inj hop)
    obtain ⟨r, hsym, hs, hr⟩ := h.symbol_inv
    have hhead : r.head? ≠ some '>' := by
      intro hhead
      obtain ⟨r', rfl⟩ := List.head?_eq_some_iff.mp hhead
      obtain ⟨r'', hw, hskip, -⟩ := hr.word_inv
      rw [skip_symbol hsym] at hskip
      obtain ⟨d, w', rfl, hd⟩ := hw.exists_cons
      obtain ⟨rfl, -⟩ := List.cons.inj hskip
      exact notMem_symbols_of_wordChar hd hsym
    refine ⟨peek_first h rfl (by simp), ?_⟩
    rw [gettoken_output ((skip_skip s).trans hs) hhead]
    exact ⟨hr.to_skip, (Reads.symbol hsym hs).suffix, fun _ _ _ => rfl⟩
  · -- `>>`
    obtain ⟨rfl, rfl⟩ := Prod.mk.inj (Option.some.inj hop)
    obtain ⟨r, hs, hr⟩ := h.append_inv
    refine ⟨peek_first h rfl (by simp), ?_⟩
    rw [gettoken_append ((skip_skip s).trans hs)]
    exact ⟨hr.to_skip, (Reads.append hs).suffix, fun _ _ _ => rfl⟩
  · cases hop

end lookahead

/-! ### The loops -/

section loops

variable {text s : Text} {argc i : ℕ} {c : Cmd Span} {d : Cmd Text} {ts us : List Token}

theorem node_eq {sz i : ℕ} (h : i + sz ≤ maxN) (a : Cmd Span) :
    (malloc1 sz i >>= fun i => (pure (a, i) : Except Stop _)) = .ok (a, i + sz) := by
  rw [malloc1, if_neg (by omega)]
  rfl

theorem parseredirs_complete {rs : List (Redirect Text)} (hr : Redirs ts rs)
    (hlex : Lexes s (ts ++ us)) (hl : ∀ ch ∈ ['<', '>'], lookahead us ≠ some ch)
    (hs : s <:+ text) (hc : Cmd.Rel (Span.Shows text) c d) (hi : i + 40 * rs.length ≤ maxN) :
    ∃ N c' s', Lexes s' us ∧ s' <:+ s ∧ Cmd.Rel (Span.Shows text) c' (d.redirect rs) ∧
      ∀ fuel, N ≤ fuel → parseredirs fuel c s i = .ok (c', s', i + 40 * rs.length) := by
  induction hr generalizing s i c d with
  | nil =>
    refine ⟨1, c, skip s, hlex.to_skip, (Reads.skip s).suffix, hc, fun fuel hfuel => ?_⟩
    obtain ⟨n, rfl⟩ := Nat.exists_eq_add_of_le' hfuel
    rw [parseredirs, peek_other hlex (by simp [symbols]) hl]
    rfl
  | @cons op w mode fd ts rs hop _ ih =>
    rw [List.length_cons] at hi
    obtain ⟨hpeek, hword, hsuffix, hby⟩ := Lexes.operator_turn hop hlex
    obtain ⟨a, s₁, hgot, hlex₁, hsuffix₁, hshows⟩ := hword.word_turn
    have hs₁ := (hsuffix₁.trans hsuffix).trans hs
    have hrel : Cmd.Rel (Span.Shows text) (.redir c ⟨a, mode, fd⟩) (.redir d ⟨w, mode, fd⟩) :=
      .redir hc (hshows text (hsuffix.trans hs))
    obtain ⟨N, c', s', hlex', hsuffix', hrel', hrun⟩ :=
      ih (i := i + 40) hlex₁ hs₁ hrel (by omega)
    refine ⟨N + 1, c', s', hlex', hsuffix'.trans (hsuffix₁.trans hsuffix), hrel',
      fun fuel hfuel => ?_⟩
    obtain ⟨n, rfl⟩ := Nat.exists_eq_add_of_le' hfuel
    have hturn : parseredirs (n + N + 1) c s i = parseredirs (n + N) (.redir c ⟨a, mode, fd⟩) s₁
        (i + 40) := by
      rw [parseredirs, hpeek]
      simp only [hgot, hby]
      rw [if_neg (by simp), redircmd, node_eq (by omega)]
      rfl
    rw [← Nat.add_assoc, hturn, hrun _ (by omega), List.length_cons]
    congr 3
    omega

theorem parseargs_complete {ws ws' : List Text} {rs rs' : List (Redirect Text)}
    (ha : Args ts ws' rs') (hlex : Lexes s (ts ++ us)) (hstop : Stops ['|', ')', '&', ';'] us)
    (hs : s <:+ text) (hc : Cmd.Rel (Span.Shows text) c ((Cmd.exec ws).redirect rs))
    (hargc : argc = ws.length) (hfew : (ws ++ ws').length < maxArgs)
    (hi : i + 40 * rs'.length ≤ maxN) :
    ∃ N c' s', Lexes s' us ∧ s' <:+ s ∧
      Cmd.Rel (Span.Shows text) c' ((Cmd.exec (ws ++ ws')).redirect (rs ++ rs')) ∧
      ∀ fuel, N ≤ fuel → parseargs fuel argc c s i = .ok (c', s', i + 40 * rs'.length) := by
  induction ha generalizing s i c argc ws rs with
  | nil =>
    refine ⟨1, c, skip s, hlex.to_skip, (Reads.skip s).suffix, by simpa using hc,
      fun fuel hfuel => ?_⟩
    obtain ⟨n, rfl⟩ := Nat.exists_eq_add_of_le' hfuel
    rw [parseargs]
    rcases hstop with rfl | ⟨ch, hch, us', rfl⟩
    · -- the end of the text
      have hnil : skip s = [] := hlex.nil_inv
      rw [peek_end hnil]
      simp only
      rw [gettoken_end rfl, hnil]
      rfl
    · rw [peek_first hlex rfl hch]
      rfl
  | @cons w ts ts' ws' rs' rs'' hr ha ih =>
    have hassoc : .word w :: (ts ++ ts') ++ us = .word w :: (ts ++ (ts' ++ us)) := by simp
    rw [hassoc] at hlex
    rw [List.length_append] at hi
    obtain ⟨a, s₁, hgot, hlex₁, hsuffix₁, hshows⟩ := hlex.to_skip.word_turn
    have hpeek : peek ['|', ')', '&', ';'] s = (false, skip s) :=
      peek_other hlex (by simp [symbols]) (by simp [lookahead, Token.first])
    have hskip := (Reads.skip s).suffix
    have hs₁ := (hsuffix₁.trans hskip).trans hs
    have hadd := hc.addArg (hshows text (hskip.trans hs))
    rw [Cmd.addArg_redirect] at hadd
    -- behind the redirections of the word comes another word or the end
    have hnext : ∀ ch ∈ ['<', '>'], lookahead (ts' ++ us) ≠ some ch := by
      intro ch hch
      rcases ha.lookahead_append us with rfl | hnone
      · refine hstop.lookahead ?_
        rintro hmem
        simp at hch
        rcases hch with rfl | rfl <;> simp at hmem
      · rw [hnone]
        simp
    obtain ⟨N, c₂, s₂, hlex₂, hsuffix₂, hrel₂, hrun₂⟩ :=
      parseredirs_complete (i := i) hr hlex₁ hnext hs₁ hadd (by omega)
    rw [← Cmd.redirect_append] at hrel₂
    have hlength : (ws ++ [w] ++ ws').length < maxArgs := by simpa using hfew
    have hargc₂ : argc + 1 = (ws ++ [w]).length := by simp [hargc]
    obtain ⟨N', c₃, s₃, hlex₃, hsuffix₃, hrel₃, hrun₃⟩ :=
      ih (i := i + 40 * rs'.length) hlex₂ (hsuffix₂.trans hs₁) hrel₂ hargc₂ hlength (by omega)
    refine ⟨max N N' + 1, c₃, s₃, hlex₃,
      hsuffix₃.trans (hsuffix₂.trans (hsuffix₁.trans hskip)), ?_, fun fuel hfuel => ?_⟩
    · simpa [List.append_assoc] using hrel₃
    · obtain ⟨n, rfl⟩ := Nat.exists_eq_add_of_le' hfuel
      have hmore : ¬argc + 1 ≥ maxArgs := by
        simp only [List.length_append, List.length_cons, List.length_nil] at hlength
        omega
      rw [← Nat.add_assoc, parseargs, hpeek]
      simp only [hgot]
      rw [if_neg (by simp), if_neg (by simp), if_neg hmore, hrun₂ _ (by omega)]
      change parseargs (n + max N N') (argc + 1) c₂ s₂ (i + 40 * rs'.length) = _
      rw [hrun₃ _ (by omega), List.length_append]
      congr 3
      omega

theorem parsebacks_complete {n : ℕ} (hlex : Lexes s (List.replicate n (.symbol '&') ++ us))
    (hl : lookahead us ≠ some '&') (hs : s <:+ text) (hc : Cmd.Rel (Span.Shows text) c d)
    (hi : i + 16 * n ≤ maxN) :
    ∃ N c' s', Lexes s' us ∧ s' <:+ s ∧ Cmd.Rel (Span.Shows text) c' (d.backs n) ∧
      ∀ fuel, N ≤ fuel → parsebacks fuel c s i = .ok (c', s', i + 16 * n) := by
  induction n generalizing s i c d with
  | zero =>
    refine ⟨1, c, skip s, hlex.to_skip, (Reads.skip s).suffix, hc, fun fuel hfuel => ?_⟩
    obtain ⟨n, rfl⟩ := Nat.exists_eq_add_of_le' hfuel
    have hpeek : peek ['&'] s = (false, skip s) :=
      peek_other hlex (by simp [symbols]) (by simpa using hl)
    rw [parsebacks, hpeek]
    rfl
  | succ n ih =>
    obtain ⟨hpeek, hlex₁, hsuffix₁⟩ := Lexes.symbol_turn (by simp) hlex
    obtain ⟨N, c', s', hlex', hsuffix', hrel, hrun⟩ :=
      ih (i := i + 16) hlex₁ (hsuffix₁.trans hs) (.back hc) (by omega)
    refine ⟨N + 1, c', s', hlex', hsuffix'.trans hsuffix₁, hrel, fun fuel hfuel => ?_⟩
    obtain ⟨m, rfl⟩ := Nat.exists_eq_add_of_le' hfuel
    rw [← Nat.add_assoc, parsebacks, hpeek]
    simp only
    rw [backcmd, node_eq (by omega)]
    change parsebacks (m + N) (.back c) (gettoken (skip s)).s (i + 16) = _
    rw [hrun _ (by omega)]
    congr 3
    omega

end loops

/-! ### The functions -/

/-- What may come behind a nonterminal. -/
def follow : Nonterminal → List Char
  | .line => [')']
  | .pipe => [')', '&', ';']
  | .exec => ['|', ')', '&', ';']

/-- The function for a nonterminal. -/
def parse : Nonterminal → ℕ → Text → ℕ → Except Stop (Cmd Span × Text × ℕ)
  | .line => parseline
  | .pipe => parsepipe
  | .exec => parseexec

/-- The function comes to the end of the tokens, and returns the tree. -/
def Complete (text : Text) (nt : Nonterminal) (ts : List Token) (d : Cmd Text) : Prop :=
  ∀ s us i, s <:+ text → Lexes s (ts ++ us) → Stops (follow nt) us → d.Few → i + d.size ≤ maxN →
    ∃ N c s', Lexes s' us ∧ s' <:+ s ∧ Cmd.Rel (Span.Shows text) c d ∧
      ∀ fuel, N ≤ fuel → parse nt fuel s i = .ok (c, s', i + d.size)

section functions

variable {text : Text} {ts ts' : List Token} {c d : Cmd Text}

/-- What comes behind the `pipe` of a `line`. -/
theorem stops_backs {us : List Token} (n : ℕ) (h : Stops (follow .pipe) us) :
    Stops (follow .pipe) (List.replicate n (.symbol '&') ++ us) := by
  cases n with
  | zero => exact h
  | succ n => exact Or.inr ⟨'&', by simp [follow], _, rfl⟩

theorem complete_line (h : Complete text .pipe ts c) (n : ℕ) :
    Complete text .line (ts ++ List.replicate n (.symbol '&')) (c.backs n) := by
  intro s us i hs hlex hstop hfew hi
  rw [Cmd.size_backs] at hi ⊢
  rw [List.append_assoc] at hlex
  obtain ⟨N, c₁, s₁, hlex₁, hsuffix₁, hrel₁, hrun₁⟩ := h s _ i hs hlex
    (stops_backs n (hstop.mono (by simp [follow]))) (Cmd.few_backs.mp hfew) (by omega)
  obtain ⟨N', c₂, s₂, hlex₂, hsuffix₂, hrel₂, hrun₂⟩ := parsebacks_complete
    (i := i + c.size) hlex₁ (hstop.lookahead (by simp [follow])) (hsuffix₁.trans hs) hrel₁
    (by omega)
  refine ⟨max N N' + 1, c₂, skip s₂, hlex₂.to_skip,
    (Reads.skip s₂).suffix.trans (hsuffix₂.trans hsuffix₁), hrel₂, fun fuel hfuel => ?_⟩
  obtain ⟨m, rfl⟩ := Nat.exists_eq_add_of_le' hfuel
  have hpeek : peek [';'] s₂ = (false, skip s₂) := peek_other hlex₂ (by simp [symbols])
    (by simpa using hstop.lookahead (by simp [follow]))
  have hpipe : parsepipe (m + max N N') s i = .ok (c₁, s₁, i + c.size) := hrun₁ _ (by omega)
  have hbacks := hrun₂ (m + max N N') (by omega)
  rw [← Nat.add_assoc, parse, parseline]
  simp only [hpipe, hbacks, hpeek, ok_bind]
  rw [Nat.add_assoc]
  rfl

theorem complete_list (h : Complete text .pipe ts c) (n : ℕ) (h' : Complete text .line ts' d) :
    Complete text .line (ts ++ (List.replicate n (.symbol '&') ++ .symbol ';' :: ts'))
      (.list (c.backs n) d) := by
  intro s us i hs hlex hstop hfew hi
  simp only [Cmd.size, Cmd.size_backs] at hi ⊢
  have hassoc : ts ++ (List.replicate n (.symbol '&') ++ .symbol ';' :: ts') ++ us =
      ts ++ (List.replicate n (.symbol '&') ++ .symbol ';' :: (ts' ++ us)) := by simp
  rw [hassoc] at hlex
  have hsemi : Stops (follow .pipe) (.symbol ';' :: (ts' ++ us)) :=
    Or.inr ⟨';', by simp [follow], _, rfl⟩
  obtain ⟨N, c₁, s₁, hlex₁, hsuffix₁, hrel₁, hrun₁⟩ := h s _ i hs hlex (stops_backs n hsemi)
    (Cmd.few_backs.mp hfew.1) (by omega)
  obtain ⟨N', c₂, s₂, hlex₂, hsuffix₂, hrel₂, hrun₂⟩ := parsebacks_complete
    (i := i + c.size) hlex₁ (by simp [lookahead, Token.first]) (hsuffix₁.trans hs) hrel₁ (by omega)
  obtain ⟨hpeek, hlex₃, hsuffix₃⟩ := Lexes.symbol_turn (by simp) hlex₂
  have hsuffix := hsuffix₃.trans (hsuffix₂.trans hsuffix₁)
  obtain ⟨N'', c₄, s₄, hlex₄, hsuffix₄, hrel₄, hrun₄⟩ :=
    h' _ us (i + c.size + 16 * n) (hsuffix.trans hs) hlex₃ hstop hfew.2 (by omega)
  refine ⟨max N (max N' N'') + 1, .list c₂ c₄, s₄, hlex₄, hsuffix₄.trans hsuffix,
    .list hrel₂ hrel₄, fun fuel hfuel => ?_⟩
  obtain ⟨m, rfl⟩ := Nat.exists_eq_add_of_le' hfuel
  rw [← Nat.add_assoc]
  generalize hM : m + max N (max N' N'') = M
  have hpipe : parsepipe M s i = .ok (c₁, s₁, i + c.size) := hrun₁ _ (by omega)
  have hline : parseline M (gettoken (skip s₂)).s (i + c.size + 16 * n) =
      .ok (c₄, s₄, i + c.size + 16 * n + d.size) := hrun₄ _ (by omega)
  have hbacks := hrun₂ M (by omega)
  have hnode : listcmd c₂ c₄ (i + c.size + 16 * n + d.size) =
      .ok (.list c₂ c₄, i + c.size + 16 * n + d.size + 24) := node_eq (by omega) _
  rw [parse, parseline]
  simp only [hpipe, hbacks, hpeek, hline, hnode, ok_bind]
  change Except.ok (_, _, _) = _
  congr 3
  omega

theorem complete_single (h : Complete text .exec ts c) : Complete text .pipe ts c := by
  intro s us i hs hlex hstop hfew hi
  obtain ⟨N, c₁, s₁, hlex₁, hsuffix₁, hrel₁, hrun₁⟩ :=
    h s us i hs hlex (hstop.mono (by simp [follow])) hfew hi
  refine ⟨N + 1, c₁, skip s₁, hlex₁.to_skip, (Reads.skip s₁).suffix.trans hsuffix₁, hrel₁,
    fun fuel hfuel => ?_⟩
  obtain ⟨m, rfl⟩ := Nat.exists_eq_add_of_le' hfuel
  have hpeek : peek ['|'] s₁ = (false, skip s₁) := peek_other hlex₁ (by simp [symbols])
    (by simpa using hstop.lookahead (by simp [follow]))
  have hexec : parseexec (m + N) s i = .ok (c₁, s₁, i + c.size) := hrun₁ _ (by omega)
  rw [← Nat.add_assoc, parse, parsepipe]
  simp only [hexec, hpeek, ok_bind]
  rfl

theorem complete_pipe (h : Complete text .exec ts c) (h' : Complete text .pipe ts' d) :
    Complete text .pipe (ts ++ .symbol '|' :: ts') (.pipe c d) := by
  intro s us i hs hlex hstop hfew hi
  rw [Cmd.size] at hi ⊢
  have hassoc : ts ++ .symbol '|' :: ts' ++ us = ts ++ .symbol '|' :: (ts' ++ us) := by simp
  rw [hassoc] at hlex
  have hbar : Stops (follow .exec) (.symbol '|' :: (ts' ++ us)) :=
    Or.inr ⟨'|', by simp [follow], _, rfl⟩
  obtain ⟨N, c₁, s₁, hlex₁, hsuffix₁, hrel₁, hrun₁⟩ := h s _ i hs hlex hbar hfew.1 (by omega)
  obtain ⟨hpeek, hlex₂, hsuffix₂⟩ := Lexes.symbol_turn (by simp) hlex₁
  have hsuffix := hsuffix₂.trans hsuffix₁
  obtain ⟨N', c₃, s₃, hlex₃, hsuffix₃, hrel₃, hrun₃⟩ :=
    h' _ us (i + c.size) (hsuffix.trans hs) hlex₂ hstop hfew.2 (by omega)
  refine ⟨max N N' + 1, .pipe c₁ c₃, s₃, hlex₃, hsuffix₃.trans hsuffix, .pipe hrel₁ hrel₃,
    fun fuel hfuel => ?_⟩
  obtain ⟨m, rfl⟩ := Nat.exists_eq_add_of_le' hfuel
  rw [← Nat.add_assoc]
  generalize hM : m + max N N' = M
  have hexec : parseexec M s i = .ok (c₁, s₁, i + c.size) := hrun₁ _ (by omega)
  have hpipe : parsepipe M (gettoken (skip s₁)).s (i + c.size) =
      .ok (c₃, s₃, i + c.size + d.size) := hrun₃ _ (by omega)
  have hnode : pipecmd c₁ c₃ (i + c.size + d.size) =
      .ok (.pipe c₁ c₃, i + c.size + d.size + 24) := node_eq (by omega) _
  rw [parse, parsepipe]
  simp only [hexec, hpeek, hpipe, hnode, ok_bind]
  change Except.ok (_, _, _) = _
  congr 3
  omega

theorem complete_block {rs : List (Redirect Text)} (h : Complete text .line ts c)
    (hr : Redirs ts' rs) :
    Complete text .exec (.symbol '(' :: (ts ++ .symbol ')' :: ts')) (c.redirect rs) := by
  intro s us i hs hlex hstop hfew hi
  rw [Cmd.size_redirect] at hi ⊢
  have hassoc : .symbol '(' :: (ts ++ .symbol ')' :: ts') ++ us =
      .symbol '(' :: (ts ++ .symbol ')' :: (ts' ++ us)) := by simp
  rw [hassoc] at hlex
  -- the parenthesis is peeked at twice
  obtain ⟨hopen, -, -⟩ := Lexes.symbol_turn (by simp) hlex
  obtain ⟨hopen', hlex₁, hsuffix₁⟩ := Lexes.symbol_turn (by simp) hlex.to_skip
  have hsuffix := hsuffix₁.trans (Reads.skip s).suffix
  have hclose : Stops (follow .line) (.symbol ')' :: (ts' ++ us)) :=
    Or.inr ⟨')', by simp [follow], _, rfl⟩
  obtain ⟨N, c₂, s₂, hlex₂, hsuffix₂, hrel₂, hrun₂⟩ :=
    h _ _ i (hsuffix.trans hs) hlex₁ hclose (Cmd.few_redirect.mp hfew) (by omega)
  obtain ⟨hpeek, hlex₃, hsuffix₃⟩ := Lexes.symbol_turn (by simp) hlex₂
  have hsuffix' := hsuffix₃.trans (hsuffix₂.trans hsuffix)
  obtain ⟨N', c₄, s₄, hlex₄, hsuffix₄, hrel₄, hrun₄⟩ :=
    parseredirs_complete (i := i + c.size) hr hlex₃ (by
      intro ch hch
      refine hstop.lookahead ?_
      simp at hch
      rcases hch with rfl | rfl <;> simp [follow]) (hsuffix'.trans hs) hrel₂ (by omega)
  refine ⟨max N N' + 2, c₄, s₄, hlex₄, hsuffix₄.trans hsuffix', hrel₄, fun fuel hfuel => ?_⟩
  obtain ⟨m, rfl⟩ := Nat.exists_eq_add_of_le' hfuel
  rw [← Nat.add_assoc]
  generalize hM : m + max N N' = M
  have hline : parseline M (gettoken (skip (skip s))).s i = .ok (c₂, s₂, i + c.size) :=
    hrun₂ _ (by omega)
  rw [parse, parseexec, hopen]
  change parseblock (M + 1) (skip s) i = _
  rw [parseblock, hopen']
  simp only [hline, hpeek, ok_bind]
  rw [hrun₄ _ (by omega), Nat.add_assoc]

theorem complete_exec {ws : List Text} {rs rs' : List (Redirect Text)} (hr : Redirs ts rs)
    (ha : Args ts' ws rs') :
    Complete text .exec (ts ++ ts') ((Cmd.exec ws).redirect (rs ++ rs')) := by
  intro s us i hs hlex hstop hfew hi
  rw [Cmd.size_redirect, Cmd.size, List.length_append] at hi ⊢
  rw [List.append_assoc] at hlex
  have hfew' : ws.length < maxArgs := Cmd.few_redirect.mp hfew
  -- neither the words nor what is behind them start like a redirection or a block
  have hother : ∀ ch ∈ ['<', '>', '('], lookahead (ts' ++ us) ≠ some ch := by
    intro ch hch
    rcases ha.lookahead_append us with rfl | hnone
    · refine hstop.lookahead ?_
      simp at hch
      rcases hch with rfl | rfl | rfl <;> simp [follow]
    · rw [hnone]
      simp
  have hopen : lookahead (ts ++ (ts' ++ us)) ≠ some '(' := by
    rcases hr.lookahead_append (ts' ++ us) with rfl | hl | hl
    · exact hother '(' (by simp)
    · rw [hl]
      simp
    · rw [hl]
      simp
  have hskip := (Reads.skip s).suffix
  obtain ⟨N, c₁, s₁, hlex₁, hsuffix₁, hrel₁, hrun₁⟩ := parseredirs_complete (i := i + 168)
    (d := .exec []) (c := .exec []) hr hlex.to_skip
    (fun ch hch => hother ch (List.mem_append_left ['('] hch)) (hskip.trans hs) (.exec .nil) (by omega)
  have hargc : 0 = ([] : List Text).length := rfl
  obtain ⟨N', c₂, s₂, hlex₂, hsuffix₂, hrel₂, hrun₂⟩ := parseargs_complete
    (i := i + 168 + 40 * rs.length) ha hlex₁ hstop ((hsuffix₁.trans hskip).trans hs) hrel₁ hargc
    hfew' (by omega)
  refine ⟨max N N' + 1, c₂, s₂, hlex₂, hsuffix₂.trans (hsuffix₁.trans hskip), hrel₂,
    fun fuel hfuel => ?_⟩
  obtain ⟨m, rfl⟩ := Nat.exists_eq_add_of_le' hfuel
  rw [← Nat.add_assoc]
  generalize hM : m + max N N' = M
  have hpeek : peek ['('] s = (false, skip s) := peek_other hlex (by simp [symbols])
    (by simpa using hopen)
  have hnode : execcmd i = .ok (.exec [], i + 168) := node_eq (by omega) _
  have hredirs := hrun₁ M (by omega)
  rw [parse, parseexec, hpeek]
  simp only [hnode, hredirs, ok_bind]
  rw [hrun₂ _ (by omega)]
  congr 3
  omega

/-- By induction on the derivation. -/
theorem derives_complete {nt : Nonterminal} (hd : Derives nt ts d) (text : Text) :
    Complete text nt ts d := by
  induction hd with
  | line _ n ih => exact complete_line ih n
  | list _ n _ ih ih' => exact complete_list ih n ih'
  | single _ ih => exact complete_single ih
  | pipe _ _ ih ih' => exact complete_pipe ih ih'
  | block _ hr ih => exact complete_block ih hr
  | exec hr ha => exact complete_exec hr ha

end functions

/-! ### `nulterminate` -/

/-- The string at the first pointer. -/
structure StringAt (text : Text) (buf : Buffer) (a : Span) (w : Text) : Prop where
  chars : ∀ k c, w[k]? = some c → buf (Text.offset text a.q + k) = c
  nul : buf (Text.offset text a.q + w.length) = '\x00'
  noNul : '\x00' ∉ w

/-- The characters of the words are as they were. -/
def Intact (text : Text) (buf : Buffer) : Prop :=
  ∀ k c, text[k]? = some c → isWordChar c = true → buf k = c

section nulterminate

variable {text w : Text} {buf : Buffer} {a : Span} {c : Cmd Span} {d : Cmd Text} {k : ℕ}

theorem intact_buffer (text : Text) : Intact text text.buffer := by
  intro k c hk _
  rw [Text.buffer, List.getD_eq_getElem?_getD, hk]
  rfl

theorem terminate_self (buf : Buffer) (text e : Text) :
    buf.terminate text e (Text.offset text e) = '\x00' :=
  Function.update_self ..

/-- A NUL stays. -/
theorem terminate_nul (e : Text) (h : buf k = '\x00') : buf.terminate text e k = '\x00' := by
  rw [Buffer.terminate, Function.update_apply]
  split
  · rfl
  · exact h

theorem getElem?_offset {p : Text} (hp : p <:+ text) (k : ℕ) :
    text[Text.offset text p + k]? = p[k]? := by
  obtain ⟨l, rfl⟩ := hp
  have hoffset : Text.offset (l ++ p) p = l.length := by
    rw [Text.offset, List.length_append]
    omega
  rw [hoffset, List.getElem?_append_right (by omega)]
  congr 1
  omega

namespace Span.Shows

theorem offset_eq (h : a.Shows text w) :
    Text.offset text a.eq = Text.offset text a.q + w.length := by
  have hlen := h.inside.length_le
  rw [h.split, List.length_append] at hlen
  rw [Text.offset, Text.offset, h.split, List.length_append]
  omega

/-- No character of a word is overwritten. -/
theorem intact (h : a.Shows text w) (hbuf : Intact text buf) :
    Intact text (buf.terminate text a.eq) := by
  intro k c hk hc
  -- `eargv` points to a character that is in no word, or to the NUL
  have hne : k ≠ Text.offset text a.eq := by
    rintro rfl
    have heq : a.eq <:+ text := by
      refine List.IsSuffix.trans ?_ h.inside
      rw [h.split]
      exact List.suffix_append w a.eq
    have hhead := getElem?_offset heq 0
    rw [Nat.add_zero, hk] at hhead
    have hother := h.word.maximal c (by rw [List.head?_eq_getElem?, ← hhead]; rfl)
    rw [hc] at hother
    cases hother
  rw [Buffer.terminate, Function.update_of_ne hne]
  exact hbuf k c hk hc

theorem stringAt (h : a.Shows text w) (hbuf : Intact text buf)
    (hnul : buf (Text.offset text a.eq) = '\x00') (htext : '\x00' ∉ text) :
    StringAt text buf a w := by
  refine ⟨fun k c hk => ?_, ?_, fun hmem => ?_⟩
  · refine hbuf _ c ?_ (h.word.chars c (List.mem_of_getElem? hk))
    rw [getElem?_offset h.inside, h.split, List.getElem?_append_left ?_, hk]
    exact (List.getElem?_eq_some_iff.mp hk).1
  · rwa [← h.offset_eq]
  · refine htext (h.inside.subset ?_)
    rw [h.split]
    exact List.mem_append_left _ hmem

end Span.Shows

theorem Cmd.Rel.imp {α β : Type*} {R S : α → β → Prop} {c : Cmd α} {d : Cmd β}
    (h : Cmd.Rel R c d) (himp : ∀ a b, R a b → S a b) : Cmd.Rel S c d := by
  induction h with
  | exec h => exact .exec (h.imp himp)
  | redir _ hfile ih => exact .redir ih (himp _ _ hfile)
  | pipe _ _ ih ih' => exact .pipe ih ih'
  | list _ _ ih ih' => exact .list ih ih'
  | back _ ih => exact .back ih

/-- `nulterminate` writes nothing but NULs. -/
theorem nulterminate_nul (c : Cmd Span) (h : buf k = '\x00') :
    nulterminate text c buf k = '\x00' := by
  induction c generalizing buf with
  | exec argv =>
    rw [nulterminate]
    induction argv generalizing buf with
    | nil => exact h
    | cons a argv ih => exact ih (terminate_nul a.eq h)
  | redir cmd target ih => exact terminate_nul target.file.eq (ih h)
  | pipe left right ihl ihr => exact ihr (ihl h)
  | list left right ihl ihr => exact ihr (ihl h)
  | back cmd ih => exact ih h

/-- It leaves the words alone, and writes behind each of them. -/
theorem nulterminate_shows (h : Cmd.Rel (Span.Shows text) c d) (hbuf : Intact text buf) :
    Intact text (nulterminate text c buf) ∧
      Cmd.Rel (fun a w => a.Shows text w ∧
        nulterminate text c buf (Text.offset text a.eq) = '\x00') c d := by
  induction h generalizing buf with
  | @exec xs ys h =>
    have hgo : ∀ buf, Intact text buf →
        Intact text (nulterminate text (.exec xs) buf) ∧ List.Forall₂ (fun a w => a.Shows text w ∧
          nulterminate text (.exec xs) buf (Text.offset text a.eq) = '\x00') xs ys := by
      induction h with
      | nil => exact fun buf hbuf => ⟨hbuf, .nil⟩
      | @cons a w xs ys ha _ ih =>
        intro buf hbuf
        obtain ⟨hintact, hrest⟩ := ih _ (ha.intact hbuf)
        exact ⟨hintact, .cons ⟨ha, nulterminate_nul (.exec xs) (terminate_self ..)⟩ hrest⟩
    obtain ⟨hintact, hall⟩ := hgo buf hbuf
    exact ⟨hintact, .exec hall⟩
  | redir _ hfile ih =>
    obtain ⟨hintact, hrel⟩ := ih hbuf
    refine ⟨hfile.intact hintact, .redir ?_ ⟨hfile, terminate_self ..⟩⟩
    exact hrel.imp fun a w ha => ⟨ha.1, terminate_nul _ ha.2⟩
  | @pipe _ c' _ _ _ _ ihl ihr =>
    obtain ⟨hintact, hrel⟩ := ihl hbuf
    obtain ⟨hintact', hrel'⟩ := ihr hintact
    exact ⟨hintact', .pipe (hrel.imp fun a w ha => ⟨ha.1, nulterminate_nul c' ha.2⟩) hrel'⟩
  | @list _ c' _ _ _ _ ihl ihr =>
    obtain ⟨hintact, hrel⟩ := ihl hbuf
    obtain ⟨hintact', hrel'⟩ := ihr hintact
    exact ⟨hintact', .list (hrel.imp fun a w ha => ⟨ha.1, nulterminate_nul c' ha.2⟩) hrel'⟩
  | back _ ih =>
    obtain ⟨hintact, hrel⟩ := ih hbuf
    exact ⟨hintact, .back hrel⟩

end nulterminate

/-! ### The command lines -/

/-- A string as C has it. -/
structure CommandLine where
  chars : Text
  noNul : '\x00' ∉ chars

/-- The text is a command line, for which there are nodes enough. -/
structure Accepted (text : Text) (i : ℕ) (d : Cmd Text) : Prop where
  derivable : Derivable text d
  few : d.Few
  fits : i + d.size ≤ maxN

section accepted

variable {text : Text} {i fuel : ℕ} {d : Cmd Text} {c : Cmd Span} {buf : Buffer}

/-- The tree of an accepted command line is returned. -/
theorem parsecmd_complete (h : Accepted text i d) :
    ∃ N c, Cmd.Rel (Span.Shows text) c d ∧ ∀ fuel, N ≤ fuel →
      parsecmd fuel text i = .ok (c, nulterminate text c text.buffer) := by
  obtain ⟨ts, hlex, hd⟩ := h.derivable
  have hlex' : Lexes text (ts ++ []) := by rwa [List.append_nil]
  obtain ⟨N, c, s, hend, -, hrel, hrun⟩ := derives_complete hd text text [] i
    (List.suffix_refl text) hlex' (Or.inl rfl) h.few h.fits
  refine ⟨N, c, hrel, fun fuel hfuel => ?_⟩
  have hline : parseline fuel text i = .ok (c, s, i + d.size) := hrun fuel hfuel
  rw [parsecmd]
  simp only [hline, ok_bind]
  rw [peek_end hend.nil_inv]
  rfl

/-- What is returned is the tree of an accepted command line. -/
theorem parsecmd_sound (h : parsecmd fuel text i = .ok (c, buf)) : ∃ d, Accepted text i d := by
  rw [parsecmd] at h
  obtain ⟨⟨c₁, s, i₁⟩, hline, h⟩ := bind_ok h
  obtain ⟨ts, d, hreads, hd, -, hfew, rfl, hi⟩ :=
    (parse_sound text fuel).1 text i c₁ s i₁ (List.suffix_refl text) hline
  simp only at h
  split at h
  · rename_i hpeek
    have hnil : skip s = [] := (peek_snd hpeek).symm
    have hend : Lexes s [] := .of_skip (by rw [hnil]; exact .nil)
    have hlex := hreads.lexes [] hend
    rw [List.append_nil] at hlex
    exact ⟨d, ⟨ts, hlex, hd⟩, hfew, hi⟩
  · cases h

theorem parsecmd_ends (hfuel : 4 * text.length + 4 ≤ fuel) : Ends (parsecmd fuel text i) := by
  rw [parsecmd]
  refine ((parse_ends fuel).1 text i hfuel).bind fun x _ => ?_
  obtain ⟨c, s, i'⟩ := x
  simp only
  split
  · exact ends_ok _
  · exact ends_panic _

end accepted

/-- The words of a node are determined by its pointers. -/
theorem Cmd.Rel.unique {text : Text} {c : Cmd Span} {d d' : Cmd Text}
    (h : Cmd.Rel (Span.Shows text) c d) (h' : Cmd.Rel (Span.Shows text) c d') : d = d' := by
  have hword : Relator.RightUnique (Span.Shows text) := by
    intro a w w' hw hw'
    exact List.append_cancel_right (hw.split.symm.trans hw'.split)
  induction h generalizing d' with
  | exec h =>
    cases h' with
    | exec h' => rw [hword.forall₂ h h']
  | redir _ hfile ih =>
    cases h' with
    | redir h' hfile' => rw [ih h', hword hfile hfile']
  | pipe _ _ ihl ihr =>
    cases h' with
    | pipe hl hr => rw [ihl hl, ihr hr]
  | list _ _ ihl ihr =>
    cases h' with
    | list hl hr => rw [ihl hl, ihr hr]
  | back _ ih =>
    cases h' with
    | back h' => rw [ih h']

/-- The parser ends.  It returns a tree if the text is derived from the grammar, with fewer than
`MAXARGS` words for each command and nodes that fit in the pool: the tree of the derivation,
whose words are the strings in the text after `nulterminate`.  Otherwise it exits. -/
theorem parsecmd_iff (line : CommandLine) (i : ℕ) : ∃ N,
    (∃ d, Accepted line.chars i d ∧ (∀ d', Accepted line.chars i d' → d' = d) ∧
      ∃ c buf, (∀ fuel, N ≤ fuel → parsecmd fuel line.chars i = .ok (c, buf)) ∧
        Cmd.Rel (StringAt line.chars buf) c d) ∨
    (¬∃ d, Accepted line.chars i d) ∧
      ∃ m, ∀ fuel, N ≤ fuel → parsecmd fuel line.chars i = .error (.exit m) := by
  by_cases h : ∃ d, Accepted line.chars i d
  · obtain ⟨d, hd⟩ := h
    obtain ⟨N, c, hrel, hrun⟩ := parsecmd_complete hd
    refine ⟨N, Or.inl ⟨d, hd, fun d' hd' => ?_, c, _, hrun, ?_⟩⟩
    · -- for both trees the parser returns the same
      obtain ⟨N', c', hrel', hrun'⟩ := parsecmd_complete hd'
      have hboth := (hrun' (max N N') (by omega)).symm.trans (hrun (max N N') (by omega))
      obtain ⟨rfl, -⟩ := Prod.mk.inj (Except.ok.inj hboth)
      exact hrel'.unique hrel
    · obtain ⟨hintact, hshows⟩ := nulterminate_shows hrel (intact_buffer line.chars)
      exact hshows.imp fun a w ha => ha.1.stringAt hintact ha.2 line.noNul
  · -- it ends, and what it returned would be the tree of an accepted line
    refine ⟨4 * line.chars.length + 4, Or.inr ⟨h, ?_⟩⟩
    have hends := parsecmd_ends (i := i) (le_refl (4 * line.chars.length + 4))
    cases hres : parsecmd (4 * line.chars.length + 4) line.chars i with
    | ok x => exact absurd (parsecmd_sound hres) h
    | error e =>
      cases e with
      | fuel => exact absurd hres hends
      | exit m =>
        refine ⟨m, fun fuel hfuel => ?_⟩
        rcases parsecmd_grows hfuel line.chars i with hfuel | hsame
        · exact absurd hfuel hends
        · rw [← hsame, hres]

/-- `ls | wc > out` -/
def pipeLine : CommandLine := ⟨"ls | wc > out".toList, by decide⟩

/-- Its tree. -/
def pipeTree : Cmd Text :=
  .pipe (.exec ["ls".toList])
    (.redir (.exec ["wc".toList]) ⟨"out".toList, .wronlyCreat, 1⟩)

theorem accepted_pipeLine : Accepted pipeLine.chars 0 pipeTree := by
  have hout : Lexes "out".toList [.word "out".toList] :=
    .word (w := "out".toList) (s := []) (.of_all (by decide) (by decide)) .nil
  have hwc : Lexes "wc > out".toList
      [.word "wc".toList, .symbol '>', .word "out".toList] :=
    .word (w := "wc".toList) (s := " > out".toList) (.of_all (by decide) (by decide))
      (.space (by decide) (.symbol (by decide) (.space (by decide) hout)))
  have hline : Lexes pipeLine.chars
      [.word "ls".toList, .symbol '|', .word "wc".toList, .symbol '>', .word "out".toList] :=
    .word (w := "ls".toList) (s := " | wc > out".toList) (.of_all (by decide) (by decide))
      (.space (by decide) (.symbol (by decide) (.space (by decide) hwc)))
  have hls := Derives.exec Redirs.nil (Args.cons (w := "ls".toList) Redirs.nil Args.nil)
  have hredirs : Redirs [.symbol '>', .word "out".toList] [⟨"out".toList, .wronlyCreat, 1⟩] :=
    .cons rfl .nil
  have hright := Derives.exec Redirs.nil (Args.cons (w := "wc".toList) hredirs Args.nil)
  have htree := Derives.line (.pipe hls (.single hright)) 0
  have hfew : pipeTree.Few := ⟨Nat.le_of_ble_eq_true rfl, Nat.le_of_ble_eq_true rfl⟩
  exact ⟨⟨_, hline, htree⟩, hfew, by decide⟩

/-- A command line with a pipe and a redirection. -/
theorem parsecmd_iff_pipe : ∃ N c buf,
    (∀ fuel, N ≤ fuel → parsecmd fuel pipeLine.chars 0 = .ok (c, buf)) ∧
      Cmd.Rel (StringAt pipeLine.chars buf) c pipeTree := by
  obtain ⟨N, ⟨d, -, hunique, c, buf, hrun, hrel⟩ | ⟨hno, -⟩⟩ := parsecmd_iff pipeLine 0
  · obtain rfl := hunique pipeTree accepted_pipeLine
    exact ⟨N, c, buf, hrun, hrel⟩
  · exact absurd ⟨pipeTree, accepted_pipeLine⟩ hno

end OsLab.Shell
