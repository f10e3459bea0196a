/-
The command language of the shell (`user/sh/main.c`): its words, its grammar and its trees.

* `Lexes` — the tokens of a text: symbols, and words, which are maximal;
* `Derives` — the productions, with the tree of each;
* `Cmd.Rel` — two trees that differ in how they hold their words;
* `Lexes.cases_skip` — a text starts with one of its tokens, behind some white space.
-/
import Mathlib.Data.List.DropRight
import Mathlib.Data.List.Forall2
import Mathlib.Data.List.TakeWhile
import Mathlib.Tactic.Common

namespace OsLab.Shell

/-- A string; also a pointer into one, as what is there up to its end. -/
abbrev Text := List Char

/-- `whitespace` -/
def whitespace : List Char := [' ', '\t', '\r', '\n', '\x0b']

/-- `symbols` -/
def symbols : List Char := ['<', '|', '>', '&', ';', '(', ')']

def isSpace (c : Char) : Bool := whitespace.contains c

def isWordChar (c : Char) : Bool := !whitespace.contains c && !symbols.contains c

/-! ### Words and tokens -/

/-- `w` is a word when `s` comes next. -/
structure WordAt (w s : Text) : Prop where
  ne_nil : w ≠ []
  chars : ∀ c ∈ w, isWordChar c = true
  maximal : ∀ c ∈ s.head?, isWordChar c = false

theorem WordAt.of_all {w s : Text} (hw : (!w.isEmpty && w.all isWordChar) = true)
    (hs : s.head?.all (fun c => !isWordChar c) = true) : WordAt w s := by
  simp only [Bool.and_eq_true, Bool.not_eq_true', List.isEmpty_eq_false_iff,
    List.all_eq_true] at hw
  simp only [Option.all_eq_true, Bool.not_eq_true'] at hs
  exact ⟨hw.1, hw.2, hs⟩

inductive Token
  | symbol (c : Char)
  /-- `>>` -/
  | append
  | word (w : Text)

/-- The text is read as these tokens. -/
inductive Lexes : Text → List Token → Prop
  | nil : Lexes [] []
  | space {c : Char} {s : Text} {ts : List Token} (hc : isSpace c = true) (h : Lexes s ts) :
    Lexes (c :: s) ts
  | symbol {c : Char} {s : Text} {ts : List Token} (hc : c ∈ symbols) (h : Lexes s ts) :
    Lexes (c :: s) (.symbol c :: ts)
  | append {s : Text} {ts : List Token} (h : Lexes s ts) : Lexes ('>' :: '>' :: s) (.append :: ts)
  | word {w s : Text} {ts : List Token} (hw : WordAt w s) (h : Lexes s ts) :
    Lexes (w ++ s) (.word w :: ts)

/-! ### Trees -/

/-- The flags for `open`. -/
inductive OpenMode
  /-- `O_RDONLY` -/
  | rdonly
  /-- `O_WRONLY | O_CREAT` -/
  | wronlyCreat
  deriving DecidableEq, Repr

/-- What a `struct redircmd` says of its file. -/
structure Redirect (α : Type*) where
  file : α
  mode : OpenMode
  fd : ℕ

/-- `struct cmd`, over its words. -/
inductive Cmd (α : Type*)
  | exec (argv : List α)
  | redir (cmd : Cmd α) (target : Redirect α)
  | pipe (left right : Cmd α)
  | list (left right : Cmd α)
  | back (cmd : Cmd α)

/-- `MAXARGS` -/
def maxArgs : ℕ := 10

namespace Cmd

variable {α β : Type*}

/-- The bytes of all its nodes. -/
def size : Cmd α → ℕ
  | exec _ => 168
  | redir cmd _ => cmd.size + 40
  | pipe left right => left.size + right.size + 24
  | list left right => left.size + right.size + 24
  | back cmd => cmd.size + 16

/-- Every command has fewer than `MAXARGS` words. -/
def Few : Cmd α → Prop
  | exec argv => argv.length < maxArgs
  | redir cmd _ => cmd.Few
  | pipe left right => left.Few ∧ right.Few
  | list left right => left.Few ∧ right.Few
  | back cmd => cmd.Few

/-- The command with redirections around it, the first one innermost. -/
def redirect (cmd : Cmd α) (rs : List (Redirect α)) : Cmd α := rs.foldl redir cmd

/-- The command with an `&` for each turn behind it. -/
def backs (cmd : Cmd α) : ℕ → Cmd α
  | 0 => cmd
  | n + 1 => backs (back cmd) n

/-- The trees are the same up to their words, which are related. -/
inductive Rel (R : α → β → Prop) : Cmd α → Cmd β → Prop
  | exec {xs : List α} {ys : List β} (h : List.Forall₂ R xs ys) : Rel R (exec xs) (exec ys)
  | redir {c : Cmd α} {d : Cmd β} {a : α} {b : β} {mode : OpenMode} {fd : ℕ} (hcmd : Rel R c d)
    (hfile : R a b) : Rel R (redir c ⟨a, mode, fd⟩) (redir d ⟨b, mode, fd⟩)
  | pipe {c c' : Cmd α} {d d' : Cmd β} (hl : Rel R c d) (hr : Rel R c' d') :
    Rel R (pipe c c') (pipe d d')
  | list {c c' : Cmd α} {d d' : Cmd β} (hl : Rel R c d) (hr : Rel R c' d') :
    Rel R (list c c') (list d d')
  | back {c : Cmd α} {d : Cmd β} (h : Rel R c d) : Rel R (back c) (back d)

theorem redirect_append (cmd : Cmd α) (rs rs' : List (Redirect α)) :
    cmd.redirect (rs ++ rs') = (cmd.redirect rs).redirect rs' :=
  List.foldl_append ..

end Cmd

/-! ### The grammar -/

/-- The operators of redirections. -/
def Token.redirection : Token → Option (OpenMode × ℕ)
  | .symbol '<' => some (.rdonly, 0)
  | .symbol '>' => some (.wronlyCreat, 1)
  | .append => some (.wronlyCreat, 1)
  | _ => none

/-- `redir*`, with `redir ::= ('<' | '>' | '>>') word` -/
inductive Redirs : List Token → List (Redirect Text) → Prop
  | nil : Redirs [] []
  | cons {op : Token} {w : Text} {mode : OpenMode} {fd : ℕ} {ts : List Token}
    {rs : List (Redirect Text)} (hop : op.redirection = some (mode, fd)) (h : Redirs ts rs) :
    Redirs (op :: .word w :: ts) (⟨w, mode, fd⟩ :: rs)

/-- `(word redir*)*` -/
inductive Args : List Token → List Text → List (Redirect Text) → Prop
  | nil : Args [] [] []
  | cons {w : Text} {ts ts' : List Token} {ws : List Text} {rs rs' : List (Redirect Text)}
    (hr : Redirs ts rs) (h : Args ts' ws rs') :
    Args (.word w :: (ts ++ ts')) (w :: ws) (rs ++ rs')

inductive Nonterminal
  | line | pipe | exec
  deriving DecidableEq, Repr

/-- The tokens are derived from the nonterminal, with this tree. -/
inductive Derives : Nonterminal → List Token → Cmd Text → Prop
  /-- `line ::= pipe '&'*` -/
  | line {ts : List Token} {c : Cmd Text} (hp : Derives .pipe ts c) (n : ℕ) :
    Derives .line (ts ++ List.replicate n (.symbol '&')) (c.backs n)
  /-- `line ::= pipe '&'* ';' line` -/
  | list {ts ts' : List Token} {c d : Cmd Text} (hp : Derives .pipe ts c) (n : ℕ)
    (hl : Derives .line ts' d) :
    Derives .line (ts ++ (List.replicate n (.symbol '&') ++ .symbol ';' :: ts'))
      (.list (c.backs n) d)
  /-- `pipe ::= exec` -/
  | single {ts : List Token} {c : Cmd Text} (he : Derives .exec ts c) : Derives .pipe ts c
  /-- `pipe ::= exec '|' pipe` -/
  | pipe {ts ts' : List Token} {c d : Cmd Text} (he : Derives .exec ts c)
    (hp : Derives .pipe ts' d) : Derives .pipe (ts ++ .symbol '|' :: ts') (.pipe c d)
  /-- `exec ::= '(' line ')' redir*` -/
  | block {ts ts' : List Token} {c : Cmd Text} {rs : List (Redirect Text)}
    (hl : Derives .line ts c) (hr : Redirs ts' rs) :
    Derives .exec (.symbol '(' :: (ts ++ .symbol ')' :: ts')) (c.redirect rs)
  /-- `exec ::= redir* (word redir*)*` -/
  | exec {ts ts' : List Token} {ws : List Text} {rs rs' : List (Redirect Text)}
    (hr : Redirs ts rs) (ha : Args ts' ws rs') :
    Derives .exec (ts ++ ts') ((Cmd.exec ws).redirect (rs ++ rs'))

/-- The text is a command line with this tree. -/
def Derivable (text : Text) (d : Cmd Text) : Prop := ∃ ts, Lexes text ts ∧ Derives .line ts d

/-! ### Reading a text -/

/-- `while (s < es && strchr(whitespace, *s)) s++;` -/
def skip (s : Text) : Text := s.dropWhile isSpace

section skip

variable {c : Char} {s w : Text} {ts : List Token}

theorem skip_skip (s : Text) : skip (skip s) = skip s := by
  rw [skip, skip, List.dropWhile_idempotent]

theorem isSpace_of_symbol (hc : c ∈ symbols) : isSpace c = false := by
  simp only [symbols, List.mem_cons, List.not_mem_nil, or_false] at hc
  rcases hc with rfl | rfl | rfl | rfl | rfl | rfl | rfl <;> rfl

theorem isSpace_of_wordChar (hc : isWordChar c = true) : isSpace c = false := by
  simp only [isWordChar, Bool.and_eq_true, Bool.not_eq_true'] at hc
  exact hc.1

theorem notMem_symbols_of_wordChar (hc : isWordChar c = true) : c ∉ symbols := by
  simp only [isWordChar, Bool.and_eq_true, Bool.not_eq_true'] at hc
  simpa using hc.2

theorem WordAt.exists_cons (h : WordAt w s) : ∃ c w', w = c :: w' ∧ isWordChar c = true := by
  obtain ⟨c, w', rfl⟩ := List.exists_cons_of_ne_nil h.ne_nil
  exact ⟨c, w', rfl, h.chars c List.mem_cons_self⟩

theorem WordAt.skip_eq (h : WordAt w s) : skip (w ++ s) = w ++ s := by
  obtain ⟨c, w', rfl, hc⟩ := h.exists_cons
  exact List.dropWhile_cons_of_neg (by simp [isSpace_of_wordChar hc])

theorem WordAt.dropWhile_eq (h : WordAt w s) : (w ++ s).dropWhile isWordChar = s := by
  rw [List.dropWhile_append_of_pos h.chars]
  cases s with
  | nil => rfl
  | cons c s => exact List.dropWhile_cons_of_neg (by simp [h.maximal c rfl])

theorem skip_symbol (hc : c ∈ symbols) : skip (c :: s) = c :: s :=
  List.dropWhile_cons_of_neg (by simp [isSpace_of_symbol hc])

/-- White space does not matter. -/
theorem Lexes.of_skip (h : Lexes (skip s) ts) : Lexes s ts := by
  induction s with
  | nil => exact h
  | cons c s ih =>
    by_cases hc : isSpace c = true
    · rw [skip, List.dropWhile_cons_of_pos hc] at h
      exact .space hc (ih h)
    · rwa [skip, List.dropWhile_cons_of_neg hc] at h

theorem Lexes.to_skip (h : Lexes s ts) : Lexes (skip s) ts := by
  induction h with
  | nil => exact .nil
  | @space c s ts hc _ ih =>
    have hskip : skip (c :: s) = skip s := List.dropWhile_cons_of_pos hc
    rwa [hskip]
  | symbol hc h =>
    rw [skip_symbol hc]
    exact .symbol hc h
  | append h =>
    rw [skip_symbol (by simp [symbols])]
    exact .append h
  | word hw h =>
    rw [hw.skip_eq]
    exact .word hw h

/-- A text starts with its first token. -/
theorem Lexes.cases_skip (h : Lexes s ts) :
    ts = [] ∧ skip s = [] ∨
    (∃ c r ts', ts = .symbol c :: ts' ∧ c ∈ symbols ∧ skip s = c :: r ∧ Lexes r ts') ∨
    (∃ r ts', ts = .append :: ts' ∧ skip s = '>' :: '>' :: r ∧ Lexes r ts') ∨
    ∃ w r ts', ts = .word w :: ts' ∧ WordAt w r ∧ skip s = w ++ r ∧ Lexes r ts' := by
  induction h with
  | nil => exact Or.inl ⟨rfl, rfl⟩
  | @space c s ts hc _ ih =>
    have hskip : skip (c :: s) = skip s := List.dropWhile_cons_of_pos hc
    rwa [hskip]
  | symbol hc h => exact Or.inr (Or.inl ⟨_, _, _, rfl, hc, skip_symbol hc, h⟩)
  | append h => exact Or.inr (Or.inr (Or.inl ⟨_, _, rfl, skip_symbol (by simp [symbols]), h⟩))
  | word hw h => exact Or.inr (Or.inr (Or.inr ⟨_, _, _, rfl, hw, hw.skip_eq, h⟩))

theorem Lexes.nil_inv (h : Lexes s []) : skip s = [] := by
  rcases h.cases_skip with ⟨-, h⟩ | ⟨c, r, ts', hts, -⟩ | ⟨r, ts', hts, -⟩ | ⟨w, r, ts', hts, -⟩
  · exact h
  all_goals cases hts

theorem Lexes.symbol_inv (h : Lexes s (.symbol c :: ts)) :
    ∃ r, c ∈ symbols ∧ skip s = c :: r ∧ Lexes r ts := by
  rcases h.cases_skip with ⟨hts, -⟩ | ⟨d, r, ts', hts, hd, hs, h⟩ | ⟨r, ts', hts, -⟩ |
    ⟨w, r, ts', hts, -⟩
  · cases hts
  · cases hts
    exact ⟨r, hd, hs, h⟩
  all_goals cases hts

theorem Lexes.append_inv (h : Lexes s (.append :: ts)) :
    ∃ r, skip s = '>' :: '>' :: r ∧ Lexes r ts := by
  rcases h.cases_skip with ⟨hts, -⟩ | ⟨d, r, ts', hts, -⟩ | ⟨r, ts', hts, hs, h⟩ |
    ⟨w, r, ts', hts, -⟩
  · cases hts
  · cases hts
  · cases hts
    exact ⟨r, hs, h⟩
  · cases hts

theorem Lexes.word_inv (h : Lexes s (.word w :: ts)) :
    ∃ r, WordAt w r ∧ skip s = w ++ r ∧ Lexes r ts := by
  rcases h.cases_skip with ⟨hts, -⟩ | ⟨d, r, ts', hts, -⟩ | ⟨r, ts', hts, -⟩ |
    ⟨w, r, ts', hts, hw, hs, h⟩
  · cases hts
  · cases hts
  · cases hts
  · cases hts
    exact ⟨r, hw, hs, h⟩

/-- What a text starts with. -/
theorem skip_cases (s : Text) : skip s = [] ∨ (∃ c r, skip s = c :: r ∧ c ∈ symbols) ∨
    ∃ w r, skip s = w ++ r ∧ WordAt w r := by
  cases hskip : skip s with
  | nil => exact Or.inl rfl
  | cons c r =>
    by_cases hsym : c ∈ symbols
    · exact Or.inr (Or.inl ⟨c, r, rfl, hsym⟩)
    · have hspace : isSpace c = false := by
        have hhead := List.head?_dropWhile_not isSpace s
        rw [← skip, hskip] at hhead
        simpa using hhead
      have hword : isWordChar c = true := by
        simp only [isWordChar, Bool.and_eq_true, Bool.not_eq_true']
        exact ⟨hspace, by simpa using hsym⟩
      refine Or.inr (Or.inr ⟨(c :: r).takeWhile isWordChar, (c :: r).dropWhile isWordChar,
        List.takeWhile_append_dropWhile.symm, ?_, ?_, ?_⟩)
      · simp [hword]
      · exact fun d hd => List.mem_takeWhile_imp hd
      · intro d hd
        have hhead := List.head?_dropWhile_not isWordChar (c :: r)
        rw [Option.mem_def.mp hd] at hhead
        simpa using hhead

end skip

end OsLab.Shell
