/-
What the parser of the shell returns is derived from what it has read.

* `Reads` — the tokens between two pointers;
* `Span.Shows` — the word between the two pointers of a node;
* `parse_sound` — the rule for all functions of the parser, by induction on the fuel;
* `parse_ends` — they need no more fuel than four turns for each character;
* `parse_grows` — with more fuel they return the same.
-/
import OsLab.User.ShellParser

namespace OsLab.Shell

/-- The tokens from `s` to `s'`. -/
structure Reads (ts : List Token) (s s' : Text) : Prop where
  lexes : ∀ us, Lexes s' us → Lexes s (ts ++ us)
  suffix : s' <:+ s
  length : ts.length + s'.length ≤ s.length

/-- The pointers are those of the word. -/
structure Span.Shows (text : Text) (a : Span) (w : Text) : Prop where
  inside : a.q <:+ text
  split : a.q = w ++ a.eq
  word : WordAt w a.eq

section reads

variable {c : Char} {s s' s'' r w text : Text} {ts ts' : List Token} {toks : List Char}

namespace Reads

theorem trans (h : Reads ts s s') (h' : Reads ts' s' s'') : Reads (ts ++ ts') s s'' := by
  refine ⟨fun us hus => ?_, h'.suffix.trans h.suffix, ?_⟩
  · rw [List.append_assoc]
    exact h.lexes _ (h'.lexes us hus)
  · have hlen := h.length
    have hlen' := h'.length
    rw [List.length_append]
    omega

/-- White space may be skipped on both sides. -/
theorem of_skip (h : ∀ us, Lexes r us → Lexes (skip s) (ts ++ us)) (hr : r <:+ skip s)
    (hlen : ts.length + r.length ≤ (skip s).length) : Reads ts s (skip r) := by
  have hr' : Shell.skip r <:+ r := List.dropWhile_suffix _
  have hs' : Shell.skip s <:+ s := List.dropWhile_suffix _
  refine ⟨fun us hus => (h us hus.of_skip).of_skip, (hr'.trans hr).trans hs', ?_⟩
  have hlr := hr'.length_le
  have hls := hs'.length_le
  omega

theorem skip (s : Text) : Reads [] s (skip s) := by
  have hs' : Shell.skip s <:+ s := List.dropWhile_suffix _
  refine ⟨fun _ h => h.of_skip, hs', ?_⟩
  simpa using hs'.length_le

theorem symbol (hc : c ∈ symbols) (h : Shell.skip s = c :: r) :
    Reads [.symbol c] s (Shell.skip r) := by
  refine of_skip (fun us hus => ?_) ?_ ?_ <;> rw [h]
  · exact .symbol hc hus
  · exact List.suffix_cons c r
  · simp [Nat.add_comm]

theorem append (h : Shell.skip s = '>' :: '>' :: r) : Reads [.append] s (Shell.skip r) := by
  refine of_skip (fun us hus => ?_) ?_ ?_ <;> rw [h]
  · exact .append hus
  · exact (List.suffix_cons '>' r).trans (List.suffix_cons '>' _)
  · simp [Nat.add_comm]

theorem word (hw : WordAt w r) (h : Shell.skip s = w ++ r) :
    Reads [.word w] s (Shell.skip r) := by
  refine of_skip (fun us hus => ?_) ?_ ?_ <;> rw [h]
  · exact .word hw hus
  · exact List.suffix_append w r
  · have hpos : 0 < w.length := List.length_pos_iff.mpr hw.ne_nil
    simp only [List.length_cons, List.length_nil, List.length_append]
    omega

end Reads

theorem Span.Shows.of_skip (hw : WordAt w r) (h : skip s = w ++ r) (hs : s <:+ text) :
    Span.Shows text ⟨w ++ r, r⟩ w := by
  refine ⟨?_, rfl, hw⟩
  rw [← h]
  exact (List.dropWhile_suffix _).trans hs

theorem gettoken_ret_symbol (hc : c ∈ symbols) (h : skip s = c :: r) :
    (gettoken s).ret ≠ 'a' ∧ (gettoken s).ret ≠ '\x00' := by
  rcases symbol_cases hc with hsym | rfl
  · rw [gettoken_symbol hsym h]
    constructor <;> rintro rfl <;> simp [symbols] at hc
  · rcases output_cases r with ⟨r', rfl⟩ | hr
    · rw [gettoken_append h]
      simp
    · rw [gettoken_output h hr]
      simp

/-- A word. -/
theorem gettoken_eq_a (h : (gettoken s).ret = 'a') :
    ∃ w r, WordAt w r ∧ skip s = w ++ r ∧ gettoken s = ⟨'a', w ++ r, r, skip r⟩ := by
  rcases skip_cases s with hs | ⟨c, r, hs, hc⟩ | ⟨w, r, hs, hw⟩
  · rw [gettoken_end hs] at h
    cases h
  · exact absurd h (gettoken_ret_symbol hc hs).1
  · exact ⟨w, r, hw, hs, gettoken_word hw hs⟩

/-- The end of the text. -/
theorem gettoken_eq_nul (h : (gettoken s).ret = '\x00') : skip s = [] := by
  rcases skip_cases s with hs | ⟨c, r, hs, hc⟩ | ⟨w, r, hs, hw⟩
  · exact hs
  · exact absurd h (gettoken_ret_symbol hc hs).2
  · rw [gettoken_word hw hs] at h
    cases h

/-- The operator of a redirection. -/
theorem operator_reads (hc : c ∈ ['<', '>']) (h : skip s = c :: r) :
    ∃ op mode fd, op.redirection = some (mode, fd) ∧ Reads [op] s (gettoken s).s ∧
      ∀ cmd file i, redirBy (gettoken s).ret cmd file i = redircmd cmd file mode fd i := by
  simp only [List.mem_cons, List.not_mem_nil, or_false] at hc
  rcases hc with rfl | rfl
  · rw [gettoken_symbol (by simp) h]
    exact ⟨.symbol '<', .rdonly, 0, rfl, .symbol (by simp [symbols]) h, fun _ _ _ => rfl⟩
  · rcases output_cases r with ⟨r', rfl⟩ | hr
    · rw [gettoken_append h]
      exact ⟨.append, .wronlyCreat, 1, rfl, .append h, fun _ _ _ => rfl⟩
    · rw [gettoken_output h hr]
      exact ⟨.symbol '>', .wronlyCreat, 1, rfl, .symbol (by simp [symbols]) h, fun _ _ _ => rfl⟩

/-- A symbol that has been peeked at is taken. -/
theorem peek_reads (hc : c ∈ ['|', '(', ')', ';', '&', '<']) (h : peek [c] s = (true, s')) :
    Reads [.symbol c] s (gettoken s').s := by
  obtain ⟨d, r, hd, hskip⟩ := peek_true h
  obtain rfl := peek_snd h
  obtain rfl : d = c := by simpa using hd
  rw [gettoken_symbol hc ((skip_skip s).trans hskip)]
  refine .symbol ?_ hskip
  simp only [List.mem_cons, List.not_mem_nil, or_false] at hc
  rcases hc with rfl | rfl | rfl | rfl | rfl | rfl <;> simp [symbols]

end reads

/-! ### The nodes -/

section nodes

variable {α β : Type*}

theorem bind_ok {σ τ : Type} {x : Except Stop σ} {f : σ → Except Stop τ} {b : τ}
    (h : (x >>= f) = .ok b) : ∃ a, x = .ok a ∧ f a = .ok b := by
  cases x with
  | error e => cases h
  | ok a => exact ⟨a, rfl, h⟩

theorem ok_bind {σ τ : Type} (a : σ) (f : σ → Except Stop τ) :
    ((Except.ok a : Except Stop σ) >>= f) = f a := rfl

/-- What all the constructors of nodes do. -/
theorem node_ok {sz i i' : ℕ} {a b : Cmd Span}
    (h : (malloc1 sz i >>= fun i => pure (a, i)) = .ok (b, i')) :
    b = a ∧ i' = i + sz ∧ i' ≤ maxN := by
  obtain ⟨n, hn, hb⟩ := bind_ok h
  rw [malloc1] at hn
  split at hn
  · cases hn
  · obtain rfl := Except.ok.inj hn
    obtain ⟨rfl, rfl⟩ := Prod.mk.inj (Except.ok.inj hb)
    exact ⟨rfl, rfl, by omega⟩

namespace Cmd

variable {R : α → β → Prop} {c : Cmd α} {d : Cmd β} {a : α} {b : β}

theorem size_redirect (c : Cmd α) (rs : List (Redirect α)) :
    (c.redirect rs).size = c.size + 40 * rs.length := by
  induction rs generalizing c with
  | nil => rfl
  | cons r rs ih =>
    have hcons : c.redirect (r :: rs) = (redir c r).redirect rs := rfl
    rw [hcons, ih, size, List.length_cons]
    omega

theorem few_redirect {c : Cmd α} {rs : List (Redirect α)} : (c.redirect rs).Few ↔ c.Few := by
  induction rs generalizing c with
  | nil => rfl
  | cons r rs ih => exact ih

theorem size_backs (c : Cmd α) (n : ℕ) : (c.backs n).size = c.size + 16 * n := by
  induction n generalizing c with
  | zero => rfl
  | succ n ih =>
    rw [backs, ih, size]
    omega

theorem few_backs {c : Cmd α} {n : ℕ} : (c.backs n).Few ↔ c.Few := by
  induction n generalizing c with
  | zero => rfl
  | succ n ih => exact ih

/-- A word is stored in the command that the redirections are around. -/
theorem addArg_redirect (c : Cmd α) (rs : List (Redirect α)) (w : α) :
    (c.redirect rs).addArg w = (c.addArg w).redirect rs := by
  induction rs generalizing c with
  | nil => rfl
  | cons r rs ih => exact ih (redir c r)

theorem Rel.addArg (h : Rel R c d) (hab : R a b) : Rel R (c.addArg a) (d.addArg b) := by
  induction h with
  | exec h => exact .exec (List.rel_append h (List.Forall₂.cons hab .nil))
  | redir _ hfile ih => exact .redir ih hfile
  | pipe hl hr => exact .pipe hl hr
  | list hl hr => exact .list hl hr
  | back h => exact .back h

end Cmd

end nodes

/-! ### The loops -/

section loops

variable {text s s' : Text} {fuel argc i i' : ℕ} {c c' : Cmd Span} {d : Cmd Text}

/-- A turn of `parseredirs` is its last one, or it does not end, or it takes an operator and a
word. -/
theorem parseredirs_cases (fuel : ℕ) (c : Cmd Span) (s : Text) (i : ℕ) :
    parseredirs (fuel + 1) c s i = .ok (c, skip s, i) ∨
    (∃ m, parseredirs (fuel + 1) c s i = panicExit m) ∨
    ∃ op w mode fd a s₁, op.redirection = some (mode, fd) ∧ Reads [op, .word w] s s₁ ∧
      (∀ text, s <:+ text → Span.Shows text a w) ∧
      parseredirs (fuel + 1) c s i =
        redircmd c a mode fd i >>= fun x => parseredirs fuel x.1 s₁ x.2 := by
  rw [parseredirs]
  split
  · rename_i s₁ hpeek
    obtain rfl := peek_snd hpeek
    exact Or.inl rfl
  · -- an operator, which a word has to follow
    rename_i s₁ hpeek
    obtain ⟨ch, r, hch, hskip⟩ := peek_true hpeek
    obtain rfl := peek_snd hpeek
    obtain ⟨op, mode, fd, hop, hreads, hby⟩ := operator_reads hch ((skip_skip s).trans hskip)
    simp only
    split
    · exact Or.inr (Or.inl ⟨_, rfl⟩)
    · rename_i hword
      obtain ⟨w, r', hw, hfile, hgot⟩ := gettoken_eq_a (not_not.mp hword)
      have hop' : Reads [op] s (gettoken (skip s)).s := (Reads.skip s).trans hreads
      refine Or.inr (Or.inr ⟨op, w, mode, fd, ⟨w ++ r', r'⟩, skip r', hop,
        hop'.trans (.word hw hfile), fun text hs => ?_, ?_⟩)
      · exact .of_skip hw hfile (hop'.suffix.trans hs)
      · rw [hby, hgot]

theorem parseredirs_sound (hs : s <:+ text) (hi : i ≤ maxN)
    (hc : Cmd.Rel (Span.Shows text) c d) (h : parseredirs fuel c s i = .ok (c', s', i')) :
    ∃ ts rs, Reads ts s s' ∧ Redirs ts rs ∧ Cmd.Rel (Span.Shows text) c' (d.redirect rs) ∧
      i' = i + 40 * rs.length ∧ i' ≤ maxN := by
  induction fuel generalizing c d s i with
  | zero => cases h
  | succ fuel ih =>
    rcases parseredirs_cases fuel c s i with hend | ⟨m, hexit⟩ |
      ⟨op, w, mode, fd, a, s₁, hop, hreads, ha, hturn⟩
    · rw [hend] at h
      obtain ⟨rfl, rfl, rfl⟩ : c = c' ∧ skip s = s' ∧ i = i' := by simpa using h
      exact ⟨[], [], .skip s, .nil, hc, rfl, hi⟩
    · rw [hexit] at h
      cases h
    · rw [hturn] at h
      obtain ⟨⟨c₁, i₁⟩, hnode, hrest⟩ := bind_ok h
      obtain ⟨rfl, rfl, hi₁⟩ := node_ok hnode
      obtain ⟨ts, rs, hreads', hrs, hrel, rfl, hi'⟩ :=
        ih (hreads.suffix.trans hs) hi₁ (.redir hc (ha text hs)) hrest
      refine ⟨op :: .word w :: ts, ⟨w, mode, fd⟩ :: rs, hreads.trans hreads', .cons hop hrs, hrel,
        ?_, hi'⟩
      rw [List.length_cons]
      omega

/-- A turn of the loop of `parseexec`. -/
theorem parseargs_cases (fuel argc : ℕ) (c : Cmd Span) (s : Text) (i : ℕ) :
    (∃ s₁, Reads [] s s₁ ∧ parseargs (fuel + 1) argc c s i = .ok (c, s₁, i)) ∨
    (∃ m, parseargs (fuel + 1) argc c s i = panicExit m) ∨
    ∃ w a s₁, Reads [.word w] s s₁ ∧ (∀ text, s <:+ text → Span.Shows text a w) ∧
      argc + 1 < maxArgs ∧
      parseargs (fuel + 1) argc c s i =
        parseredirs fuel (c.addArg a) s₁ i >>= fun x => parseargs fuel (argc + 1) x.1 x.2.1 x.2.2 := by
  rw [parseargs]
  split
  · -- a symbol that ends the command
    rename_i s₁ hpeek
    obtain rfl := peek_snd hpeek
    exact Or.inl ⟨_, .skip s, rfl⟩
  · rename_i s₁ hpeek
    obtain rfl := peek_snd hpeek
    simp only
    split
    · -- the end of the text
      rename_i hnul
      have hnil : skip s = [] := (skip_skip s).symm.trans (gettoken_eq_nul hnul)
      refine Or.inl ⟨skip s, .skip s, ?_⟩
      rw [gettoken_end ((skip_skip s).trans hnil), hnil]
      rfl
    · split
      · exact Or.inr (Or.inl ⟨_, rfl⟩)
      · rename_i hword
        obtain ⟨w, r, hw, hskip, hgot⟩ := gettoken_eq_a (not_not.mp hword)
        rw [hgot]
        split
        · exact Or.inr (Or.inl ⟨_, rfl⟩)
        · rename_i hmore
          refine Or.inr (Or.inr ⟨w, ⟨w ++ r, r⟩, skip r, (Reads.skip s).trans (.word hw hskip),
            fun text hs => ?_, by omega, rfl⟩)
          exact .of_skip hw hskip ((Reads.skip s).suffix.trans hs)

theorem parseargs_sound {ws : List Text} {rs : List (Redirect Text)} (hs : s <:+ text)
    (hi : i ≤ maxN) (hc : Cmd.Rel (Span.Shows text) c ((Cmd.exec ws).redirect rs))
    (hargc : argc = ws.length) (hfew : argc < maxArgs)
    (h : parseargs fuel argc c s i = .ok (c', s', i')) :
    ∃ ts ws' rs', Reads ts s s' ∧ Args ts ws' rs' ∧
      Cmd.Rel (Span.Shows text) c' ((Cmd.exec (ws ++ ws')).redirect (rs ++ rs')) ∧
      (ws ++ ws').length < maxArgs ∧ i' = i + 40 * rs'.length ∧ i' ≤ maxN := by
  induction fuel generalizing c s i argc ws rs with
  | zero => cases h
  | succ fuel ih =>
    rcases parseargs_cases fuel argc c s i with ⟨s₁, hreads, hend⟩ | ⟨m, hexit⟩ |
      ⟨w, a, s₁, hread, ha, hmore, hturn⟩
    · rw [hend] at h
      obtain ⟨rfl, rfl, rfl⟩ : c = c' ∧ s₁ = s' ∧ i = i' := by simpa using h
      refine ⟨[], [], [], hreads, .nil, ?_, ?_, rfl, hi⟩
      · simpa using hc
      · simpa [hargc] using hfew
    · rw [hexit] at h
      cases h
    · rw [hturn] at h
      obtain ⟨⟨c₁, s₂, i₁⟩, hredirs, hrest⟩ := bind_ok h
      -- the word goes to the bottom of the redirections
      have hadd := hc.addArg (ha text hs)
      rw [Cmd.addArg_redirect] at hadd
      obtain ⟨ts, rs', hreads, hrs, hrel, rfl, hi₁⟩ :=
        parseredirs_sound (hread.suffix.trans hs) hi hadd hredirs
      rw [← Cmd.redirect_append] at hrel
      obtain ⟨ts', ws', rs'', hreads', hargs, hrel', hlen, rfl, hi'⟩ :=
        ih ((hread.trans hreads).suffix.trans hs) hi₁ hrel (by simp [hargc]) hmore hrest
      refine ⟨.word w :: (ts ++ ts'), w :: ws', rs' ++ rs'', ?_, .cons hrs hargs, ?_, ?_, ?_, hi'⟩
      · exact hread.trans (hreads.trans hreads')
      · simpa [List.append_assoc] using hrel'
      · simpa using hlen
      · rw [List.length_append]
        omega

theorem parsebacks_sound (hs : s <:+ text) (hi : i ≤ maxN)
    (hc : Cmd.Rel (Span.Shows text) c d) (h : parsebacks fuel c s i = .ok (c', s', i')) :
    ∃ n, Reads (List.replicate n (.symbol '&')) s s' ∧
      Cmd.Rel (Span.Shows text) c' (d.backs n) ∧ i' = i + 16 * n ∧ i' ≤ maxN := by
  induction fuel generalizing c d s i with
  | zero => cases h
  | succ fuel ih =>
    rw [parsebacks] at h
    split at h
    · rename_i s₁ hpeek
      obtain ⟨rfl, rfl, rfl⟩ : c = c' ∧ s₁ = s' ∧ i = i' := by simpa using h
      obtain rfl := peek_snd hpeek
      exact ⟨0, .skip s, hc, rfl, hi⟩
    · rename_i s₁ hpeek
      have hread := peek_reads (by simp) hpeek
      obtain ⟨⟨c₁, i₁⟩, hnode, hrest⟩ := bind_ok h
      obtain ⟨rfl, rfl, hi₁⟩ := node_ok hnode
      obtain ⟨n, hreads, hrel, rfl, hi'⟩ := ih (hread.suffix.trans hs) hi₁ (.back hc) hrest
      exact ⟨n + 1, hread.trans hreads, hrel, by omega, hi'⟩

end loops

/-! ### The functions -/

/-- What the function returns is derived from the nonterminal. -/
def Sound (text : Text) (nt : Nonterminal)
    (f : Text → ℕ → Except Stop (Cmd Span × Text × ℕ)) : Prop :=
  ∀ s i c s' i', s <:+ text → f s i = .ok (c, s', i') →
    ∃ ts d, Reads ts s s' ∧ Derives nt ts d ∧ Cmd.Rel (Span.Shows text) c d ∧ d.Few ∧
      i' = i + d.size ∧ i' ≤ maxN

section functions

variable {text : Text} {fuel : ℕ}

theorem parseline_sound (hpipe : Sound text .pipe (parsepipe fuel))
    (hline : Sound text .line (parseline fuel)) : Sound text .line (parseline (fuel + 1)) := by
  intro s i c s' i' hs h
  rw [parseline] at h
  obtain ⟨⟨c₁, s₁, i₁⟩, h₁, h⟩ := bind_ok h
  obtain ⟨ts, d, hreads, hd, hrel, hfew, rfl, hi₁⟩ := hpipe s i c₁ s₁ i₁ hs h₁
  obtain ⟨⟨c₂, s₂, i₂⟩, h₂, h⟩ := bind_ok h
  -- the ampersands
  obtain ⟨n, hreads₂, hrel₂, rfl, hi₂⟩ :=
    parsebacks_sound (hreads.suffix.trans hs) hi₁ hrel h₂
  have hread := hreads.trans hreads₂
  simp only at h
  split at h
  · rename_i s₃ hpeek
    obtain ⟨rfl, rfl, rfl⟩ : c₂ = c ∧ s₃ = s' ∧ i + d.size + 16 * n = i' := by
      simpa using Except.ok.inj h
    obtain rfl := peek_snd hpeek
    have hall := hread.trans (.skip s₂)
    rw [List.append_nil] at hall
    refine ⟨_, _, hall, .line hd n, hrel₂, Cmd.few_backs.mpr hfew, ?_, hi₂⟩
    rw [Cmd.size_backs, Nat.add_assoc]
  · -- a list
    rename_i s₃ hpeek
    have hsemi := hread.trans (peek_reads (by simp) hpeek)
    obtain ⟨⟨c₄, s₄, i₄⟩, h₄, h⟩ := bind_ok h
    obtain ⟨ts', d', hreads₄, hd', hrel₄, hfew', rfl, hi₄⟩ :=
      hline _ _ c₄ s₄ i₄ (hsemi.suffix.trans hs) h₄
    obtain ⟨⟨c₅, i₅⟩, hnode, h⟩ := bind_ok h
    obtain ⟨rfl, rfl, hi₅⟩ := node_ok hnode
    obtain ⟨rfl, rfl, rfl⟩ := by simpa using Except.ok.inj h
    have hall := hsemi.trans hreads₄
    rw [List.append_assoc, List.append_assoc] at hall
    refine ⟨_, _, hall, .list hd n hd', .list hrel₂ hrel₄, ⟨Cmd.few_backs.mpr hfew, hfew'⟩, ?_, hi₅⟩
    rw [Cmd.size, Cmd.size_backs]
    omega

theorem parsepipe_sound (hexec : Sound text .exec (parseexec fuel))
    (hpipe : Sound text .pipe (parsepipe fuel)) : Sound text .pipe (parsepipe (fuel + 1)) := by
  intro s i c s' i' hs h
  rw [parsepipe] at h
  obtain ⟨⟨c₁, s₁, i₁⟩, h₁, h⟩ := bind_ok h
  obtain ⟨ts, d, hreads, hd, hrel, hfew, rfl, hi₁⟩ := hexec s i c₁ s₁ i₁ hs h₁
  simp only at h
  split at h
  · rename_i s₂ hpeek
    obtain ⟨rfl, rfl, rfl⟩ : c₁ = c ∧ s₂ = s' ∧ i + d.size = i' := by
      simpa using Except.ok.inj h
    obtain rfl := peek_snd hpeek
    have hall := hreads.trans (.skip s₁)
    rw [List.append_nil] at hall
    exact ⟨ts, d, hall, .single hd, hrel, hfew, rfl, hi₁⟩
  · -- a pipe
    rename_i s₂ hpeek
    have hbar := hreads.trans (peek_reads (by simp) hpeek)
    obtain ⟨⟨c₃, s₃, i₃⟩, h₃, h⟩ := bind_ok h
    obtain ⟨ts', d', hreads₃, hd', hrel₃, hfew', rfl, hi₃⟩ :=
      hpipe _ _ c₃ s₃ i₃ (hbar.suffix.trans hs) h₃
    obtain ⟨⟨c₄, i₄⟩, hnode, h⟩ := bind_ok h
    obtain ⟨rfl, rfl, hi₄⟩ := node_ok hnode
    obtain ⟨rfl, rfl, rfl⟩ := by simpa using Except.ok.inj h
    have hall := hbar.trans hreads₃
    rw [List.append_assoc] at hall
    refine ⟨_, _, hall, .pipe hd hd', .pipe hrel hrel₃, ⟨hfew, hfew'⟩, ?_, hi₄⟩
    rw [Cmd.size]
    omega

theorem parseexec_sound (hblock : Sound text .exec (parseblock fuel)) :
    Sound text .exec (parseexec (fuel + 1)) := by
  intro s i c s' i' hs h
  rw [parseexec] at h
  split at h
  · rename_i s₁ hpeek
    obtain rfl := peek_snd hpeek
    obtain ⟨ts, d, hreads, hd, hrest⟩ := hblock _ i c s' i' ((Reads.skip s).suffix.trans hs) h
    exact ⟨ts, d, (Reads.skip s).trans hreads, hd, hrest⟩
  · rename_i s₁ hpeek
    obtain rfl := peek_snd hpeek
    obtain ⟨⟨c₁, i₁⟩, hnode, h⟩ := bind_ok h
    obtain ⟨rfl, rfl, hi₁⟩ := node_ok hnode
    obtain ⟨⟨c₂, s₂, i₂⟩, h₂, h⟩ := bind_ok h
    have hs₁ := (Reads.skip s).suffix.trans hs
    obtain ⟨ts, rs, hreads, hrs, hrel, rfl, hi₂⟩ :=
      parseredirs_sound hs₁ hi₁ (.exec .nil) h₂
    obtain ⟨ts', ws, rs', hreads', hargs, hrel', hfew, rfl, hi'⟩ :=
      parseargs_sound (hreads.suffix.trans hs₁) hi₂ hrel rfl (by simp [maxArgs]) h
    refine ⟨_, _, ((Reads.skip s).trans hreads).trans hreads', .exec hrs hargs, hrel',
      Cmd.few_redirect.mpr hfew, ?_, hi'⟩
    rw [Cmd.size_redirect, Cmd.size, List.length_append]
    omega

theorem parseblock_sound (hline : Sound text .line (parseline fuel)) :
    Sound text .exec (parseblock (fuel + 1)) := by
  intro s i c s' i' hs h
  rw [parseblock] at h
  split at h
  · cases h
  · rename_i s₁ hpeek
    have hopen := peek_reads (by simp) hpeek
    obtain ⟨⟨c₂, s₂, i₂⟩, h₂, h⟩ := bind_ok h
    obtain ⟨ts, d, hreads, hd, hrel, hfew, rfl, hi₂⟩ :=
      hline _ i c₂ s₂ i₂ (hopen.suffix.trans hs) h₂
    simp only at h
    split at h
    · cases h
    · rename_i s₃ hpeek'
      have hclose := (hopen.trans hreads).trans (peek_reads (by simp) hpeek')
      obtain ⟨ts', rs, hreads', hrs, hrel', rfl, hi'⟩ :=
        parseredirs_sound (hclose.suffix.trans hs) hi₂ hrel h
      have hall := hclose.trans hreads'
      rw [List.append_assoc, List.append_assoc] at hall
      refine ⟨_, _, hall, .block hd hrs, hrel', Cmd.few_redirect.mpr hfew, ?_, hi'⟩
      rw [Cmd.size_redirect, Nat.add_assoc]

/-- By induction on the fuel. -/
theorem parse_sound (text : Text) (fuel : ℕ) : Sound text .line (parseline fuel) ∧
    Sound text .pipe (parsepipe fuel) ∧ Sound text .exec (parseexec fuel) ∧
      Sound text .exec (parseblock fuel) := by
  induction fuel with
  | zero =>
    refine ⟨?_, ?_, ?_, ?_⟩ <;> intro s i c s' i' _ h
    · rw [parseline] at h
      cases h
    · rw [parsepipe] at h
      cases h
    · rw [parseexec] at h
      cases h
    · rw [parseblock] at h
      cases h
  | succ fuel ih =>
    obtain ⟨hline, hpipe, hexec, hblock⟩ := ih
    -- each function calls those with less fuel
    exact ⟨parseline_sound hpipe hline, parsepipe_sound hexec hpipe, parseexec_sound hblock,
      parseblock_sound hline⟩

end functions

/-! ### The end -/

/-- The fuel has not run out. -/
def Ends {α : Type*} (x : Except Stop α) : Prop := x ≠ .error .fuel

section ends

variable {σ τ : Type} {s s' : Text} {fuel argc i i' sz : ℕ} {c c' : Cmd Span}

theorem Ends.bind {x : Except Stop σ} {f : σ → Except Stop τ} (hx : Ends x)
    (hf : ∀ a, x = .ok a → Ends (f a)) : Ends (x >>= f) := by
  cases x with
  | error e =>
    intro h
    obtain rfl : e = .fuel := Except.error.inj h
    exact hx rfl
  | ok a => exact hf a rfl

theorem ends_ok (a : σ) : Ends (.ok a) := by
  rintro ⟨⟩

theorem ends_panic (m : String) : Ends (panicExit m : Except Stop σ) := by
  intro h
  cases Except.error.inj h

theorem ends_node (a : Cmd Span) (sz i : ℕ) :
    Ends (malloc1 sz i >>= fun i => (pure (a, i) : Except Stop _)) := by
  refine Ends.bind ?_ fun i' _ => ends_ok _
  rw [malloc1]
  split
  · exact ends_panic _
  · exact ends_ok _

theorem parseredirs_length (h : parseredirs fuel c s i = .ok (c', s', i')) :
    s'.length ≤ s.length := by
  induction fuel generalizing c s i with
  | zero => cases h
  | succ fuel ih =>
    rcases parseredirs_cases fuel c s i with hend | ⟨m, hexit⟩ |
      ⟨op, w, mode, fd, a, s₁, -, hreads, -, hturn⟩
    · rw [hend] at h
      obtain ⟨-, rfl, -⟩ : c = c' ∧ skip s = s' ∧ i = i' := by simpa using h
      exact (Reads.skip s).suffix.length_le
    · rw [hexit] at h
      cases h
    · rw [hturn] at h
      obtain ⟨x, -, hrest⟩ := bind_ok h
      exact (ih hrest).trans hreads.suffix.length_le

theorem parseredirs_ends (hfuel : s.length < fuel) : Ends (parseredirs fuel c s i) := by
  induction fuel generalizing c s i with
  | zero => omega
  | succ fuel ih =>
    rcases parseredirs_cases fuel c s i with hend | ⟨m, hexit⟩ |
      ⟨op, w, mode, fd, a, s₁, -, hreads, -, hturn⟩
    · rw [hend]
      exact ends_ok _
    · rw [hexit]
      exact ends_panic m
    · rw [hturn]
      have hlen := hreads.length
      simp only [List.length_cons] at hlen
      exact (ends_node _ _ _).bind fun x _ => ih (by omega)

theorem parseargs_ends (hfuel : s.length < fuel) : Ends (parseargs fuel argc c s i) := by
  induction fuel generalizing c s i argc with
  | zero => omega
  | succ fuel ih =>
    rcases parseargs_cases fuel argc c s i with ⟨s₁, -, hend⟩ | ⟨m, hexit⟩ |
      ⟨w, a, s₁, hreads, -, -, hturn⟩
    · rw [hend]
      exact ends_ok _
    · rw [hexit]
      exact ends_panic m
    · rw [hturn]
      have hlen := hreads.length
      simp only [List.length_cons, List.length_nil] at hlen
      refine (parseredirs_ends (by omega)).bind fun x hredirs => ih ?_
      obtain ⟨c₁, s₂, i₁⟩ := x
      have hshort := parseredirs_length hredirs
      simp only
      omega

theorem parsebacks_length (h : parsebacks fuel c s i = .ok (c', s', i')) :
    s'.length ≤ s.length := by
  induction fuel generalizing c s i with
  | zero => cases h
  | succ fuel ih =>
    rw [parsebacks] at h
    split at h
    · rename_i s₁ hpeek
      obtain ⟨-, rfl, -⟩ : c = c' ∧ s₁ = s' ∧ i = i' := by simpa using h
      rw [peek_snd hpeek]
      exact (Reads.skip s).suffix.length_le
    · rename_i s₁ hpeek
      obtain ⟨x, -, hrest⟩ := bind_ok h
      exact (ih hrest).trans (peek_reads (by simp) hpeek).suffix.length_le

theorem parsebacks_ends (hfuel : s.length < fuel) : Ends (parsebacks fuel c s i) := by
  induction fuel generalizing c s i with
  | zero => omega
  | succ fuel ih =>
    rw [parsebacks]
    split
    · exact ends_ok _
    · rename_i s₁ hpeek
      have hlen := (peek_reads (by simp) hpeek).length
      simp only [List.length_cons, List.length_nil] at hlen
      exact (ends_node _ _ _).bind fun x _ => ih (by omega)

/-- What a function leaves is no longer than what it has got. -/
theorem Sound.length {nt : Nonterminal} {f : Text → ℕ → Except Stop (Cmd Span × Text × ℕ)}
    (h : Sound s nt f) (hf : f s i = .ok (c, s', i')) : s'.length ≤ s.length := by
  obtain ⟨ts, d, hreads, -⟩ := h s i c s' i' (List.suffix_refl s) hf
  exact hreads.suffix.length_le

/-- Four turns for each character, and those of the functions around it. -/
theorem parse_ends (fuel : ℕ) :
    (∀ s i, 4 * s.length + 4 ≤ fuel → Ends (parseline fuel s i)) ∧
    (∀ s i, 4 * s.length + 3 ≤ fuel → Ends (parsepipe fuel s i)) ∧
    (∀ s i, 4 * s.length + 2 ≤ fuel → Ends (parseexec fuel s i)) ∧
      ∀ s i, 4 * s.length + 1 ≤ fuel → Ends (parseblock fuel s i) := by
  induction fuel with
  | zero => refine ⟨?_, ?_, ?_, ?_⟩ <;> intro s i h <;> omega
  | succ fuel ih =>
    obtain ⟨hline, hpipe, hexec, hblock⟩ := ih
    -- one turn for each of the four functions, and a character before they come round again
    refine ⟨fun s i h => ?_, fun s i h => ?_, fun s i h => ?_, fun s i h => ?_⟩
    · rw [parseline]
      refine (hpipe s i (by omega)).bind fun x h₁ => ?_
      obtain ⟨c₁, s₁, i₁⟩ := x
      have hlen₁ := (parse_sound s fuel).2.1.length h₁
      refine (parsebacks_ends (by omega)).bind fun x h₂ => ?_
      obtain ⟨c₂, s₂, i₂⟩ := x
      have hlen₂ := parsebacks_length h₂
      simp only
      split
      · exact ends_ok _
      · rename_i s₃ hpeek
        have hlen₃ := (peek_reads (by simp) hpeek).length
        simp only [List.length_cons, List.length_nil] at hlen₃
        refine (hline _ _ (by omega)).bind fun x _ => ?_
        exact (ends_node _ _ _).bind fun y _ => ends_ok _
    · rw [parsepipe]
      refine (hexec s i (by omega)).bind fun x h₁ => ?_
      obtain ⟨c₁, s₁, i₁⟩ := x
      have hlen₁ := (parse_sound s fuel).2.2.1.length h₁
      simp only
      split
      · exact ends_ok _
      · rename_i s₂ hpeek
        have hlen₂ := (peek_reads (by simp) hpeek).length
        simp only [List.length_cons, List.length_nil] at hlen₂
        refine (hpipe _ _ (by omega)).bind fun x _ => ?_
        exact (ends_node _ _ _).bind fun y _ => ends_ok _
    · rw [parseexec]
      split
      · rename_i s₁ hpeek
        obtain rfl := peek_snd hpeek
        have hlen := (Reads.skip s).suffix.length_le
        exact hblock _ _ (by omega)
      · rename_i s₁ hpeek
        obtain rfl := peek_snd hpeek
        have hlen := (Reads.skip s).suffix.length_le
        refine (ends_node _ _ _).bind fun x _ => ?_
        refine (parseredirs_ends (by omega)).bind fun x h₂ => ?_
        obtain ⟨c₂, s₂, i₂⟩ := x
        have hlen₂ := parseredirs_length h₂
        exact parseargs_ends (by omega)
    · rw [parseblock]
      split
      · exact ends_panic _
      · rename_i s₁ hpeek
        have hlen := (peek_reads (by simp) hpeek).length
        simp only [List.length_cons, List.length_nil] at hlen
        refine (hline _ _ (by omega)).bind fun x h₂ => ?_
        obtain ⟨c₂, s₂, i₂⟩ := x
        have hlen₂ := (parse_sound _ fuel).1.length h₂
        simp only
        split
        · exact ends_panic _
        · rename_i s₃ hpeek'
          have hlen₃ := (peek_reads (by simp) hpeek').length
          simp only [List.length_cons, List.length_nil] at hlen₃
          exact parseredirs_ends (by omega)

end ends

/-! ### More fuel -/

/-- The second result is what the first one would be with more fuel. -/
def Grows {α : Type*} (x y : Except Stop α) : Prop := x = .error .fuel ∨ x = y

section grows

variable {σ τ : Type}

theorem Grows.refl (x : Except Stop σ) : Grows x x := Or.inr rfl

theorem Grows.bind {x y : Except Stop σ} {f g : σ → Except Stop τ} (hx : Grows x y)
    (hf : ∀ a, Grows (f a) (g a)) : Grows (x >>= f) (y >>= g) := by
  rcases hx with rfl | rfl
  · exact Or.inl rfl
  · cases x with
    | error e => exact Or.inr rfl
    | ok a => exact hf a

theorem parseredirs_grows {fuel fuel' : ℕ} (h : fuel ≤ fuel') (c : Cmd Span) (s : Text) (i : ℕ) :
    Grows (parseredirs fuel c s i) (parseredirs fuel' c s i) := by
  induction fuel generalizing fuel' c s i with
  | zero => exact Or.inl rfl
  | succ fuel ih =>
    obtain ⟨n, rfl⟩ := Nat.exists_eq_add_of_le' (Nat.zero_lt_of_lt h)
    rw [parseredirs, parseredirs]
    split
    · exact .refl _
    · simp only
      split
      · exact .refl _
      · exact Grows.bind (.refl _) fun x => ih (by omega) _ _ _

theorem parseargs_grows {fuel fuel' : ℕ} (h : fuel ≤ fuel') (argc : ℕ) (c : Cmd Span) (s : Text)
    (i : ℕ) : Grows (parseargs fuel argc c s i) (parseargs fuel' argc c s i) := by
  induction fuel generalizing fuel' argc c s i with
  | zero => exact Or.inl rfl
  | succ fuel ih =>
    obtain ⟨n, rfl⟩ := Nat.exists_eq_add_of_le' (Nat.zero_lt_of_lt h)
    rw [parseargs, parseargs]
    split
    · exact .refl _
    · simp only
      split
      · exact .refl _
      · split
        · exact .refl _
        · split
          · exact .refl _
          · exact (parseredirs_grows (by omega) _ _ _).bind fun x => ih (by omega) _ _ _ _

theorem parsebacks_grows {fuel fuel' : ℕ} (h : fuel ≤ fuel') (c : Cmd Span) (s : Text) (i : ℕ) :
    Grows (parsebacks fuel c s i) (parsebacks fuel' c s i) := by
  induction fuel generalizing fuel' c s i with
  | zero => exact Or.inl rfl
  | succ fuel ih =>
    obtain ⟨n, rfl⟩ := Nat.exists_eq_add_of_le' (Nat.zero_lt_of_lt h)
    rw [parsebacks, parsebacks]
    split
    · exact .refl _
    · exact Grows.bind (.refl _) fun x => ih (by omega) _ _ _

theorem parse_grows (fuel : ℕ) : ∀ fuel', fuel ≤ fuel' →
    (∀ s i, Grows (parseline fuel s i) (parseline fuel' s i)) ∧
    (∀ s i, Grows (parsepipe fuel s i) (parsepipe fuel' s i)) ∧
    (∀ s i, Grows (parseexec fuel s i) (parseexec fuel' s i)) ∧
      ∀ s i, Grows (parseblock fuel s i) (parseblock fuel' s i) := by
  induction fuel with
  | zero =>
    intro fuel' _
    refine ⟨?_, ?_, ?_, ?_⟩ <;> intro s i <;> left
    · rw [parseline]
    · rw [parsepipe]
    · rw [parseexec]
    · rw [parseblock]
  | succ fuel ih =>
    intro fuel' h
    obtain ⟨n, rfl⟩ := Nat.exists_eq_add_of_le' (Nat.zero_lt_of_lt h)
    have hle : fuel ≤ n := by omega
    obtain ⟨hline, hpipe, hexec, hblock⟩ := ih n hle
    refine ⟨fun s i => ?_, fun s i => ?_, fun s i => ?_, fun s i => ?_⟩
    · rw [parseline, parseline]
      refine (hpipe s i).bind fun x => ?_
      obtain ⟨c₁, s₁, i₁⟩ := x
      refine (parsebacks_grows hle c₁ s₁ i₁).bind fun x => ?_
      obtain ⟨c₂, s₂, i₂⟩ := x
      simp only
      split
      · exact .refl _
      · exact (hline _ _).bind fun z => .refl _
    · rw [parsepipe, parsepipe]
      refine (hexec s i).bind fun x => ?_
      obtain ⟨c₁, s₁, i₁⟩ := x
      simp only
      split
      · exact .refl _
      · exact (hpipe _ _).bind fun z => .refl _
    · rw [parseexec, parseexec]
      split
      · exact hblock _ _
      · refine Grows.bind (.refl _) fun x => ?_
        exact (parseredirs_grows hle _ _ _).bind fun y => parseargs_grows hle _ _ _ _
    · rw [parseblock, parseblock]
      split
      · exact .refl _
      · refine (hline _ _).bind fun x => ?_
        obtain ⟨c₁, s₁, i₁⟩ := x
        simp only
        split
        · exact .refl _
        · exact parseredirs_grows hle _ _ _

theorem parsecmd_grows {fuel fuel' : ℕ} (h : fuel ≤ fuel') (text : Text) (i : ℕ) :
    Grows (parsecmd fuel text i) (parsecmd fuel' text i) :=
  ((parse_grows fuel fuel' h).1 text i).bind fun _ => .refl _

end grows

end OsLab.Shell
