/-
The parser of the shell (`user/sh/main.c`).

A pointer into the text is what the text has from there on, so that `es` is the empty text; `i`
is the number of bytes that `malloc1` has given away.  The functions that are recursive or have
loops take some fuel.

* `gettoken`, `peek` — the tokenizer;
* `parsecmd` — the parser, with `nulterminate` behind it;
* `gettoken_symbol`, `gettoken_word`, … — the tokenizer by what the text starts with.
-/
import OsLab.User.ShellGrammar

namespace OsLab.Shell

/-! ### The tokenizer -/

/-- What `gettoken` returns, and the pointers that it stores. -/
structure GotToken where
  ret : Char
  q : Text
  eq : Text
  s : Text

/-- `gettoken` -/
def gettoken (s : Text) : GotToken :=
  let q := skip s
  let got (ret : Char) (eq : Text) : GotToken := ⟨ret, q, eq, skip eq⟩
  match q with
  | [] => got '\x00' []
  | '|' :: s => got '|' s
  | '(' :: s => got '(' s
  | ')' :: s => got ')' s
  | ';' :: s => got ';' s
  | '&' :: s => got '&' s
  | '<' :: s => got '<' s
  | '>' :: '>' :: s => got '+' s
  | '>' :: s => got '>' s
  | s => got 'a' (s.dropWhile isWordChar)

/-- `peek`, and `*ps` afterwards -/
def peek (toks : List Char) (s : Text) : Bool × Text :=
  match skip s with
  | [] => (false, [])
  | c :: s => (toks.contains c, c :: s)

/-! ### The nodes -/

/-- A word in the text: `argv[i]` and `eargv[i]`, or `file` and `efile`. -/
structure Span where
  q : Text
  eq : Text

/-- Why the parser does not return. -/
inductive Stop
  /-- the fuel of the model has run out -/
  | fuel
  /-- a message has been printed, and `exit(1)` called -/
  | exit (message : String)
  deriving DecidableEq, Repr

/-- `MAXN` -/
def maxN : ℕ := 10000

/-- `PANIC` -/
def panicExit {α : Type*} (message : String) : Except Stop α := .error (.exit message)

/-- `malloc1` -/
def malloc1 (sz i : ℕ) : Except Stop ℕ :=
  if i + sz > maxN then .error (.exit "malloc1: memory used out") else .ok (i + sz)

/-- `execcmd` -/
def execcmd (i : ℕ) : Except Stop (Cmd Span × ℕ) := do
  let i ← malloc1 168 i
  return (.exec [], i)

/-- `redircmd` -/
def redircmd (subcmd : Cmd Span) (file : Span) (mode : OpenMode) (fd i : ℕ) :
    Except Stop (Cmd Span × ℕ) := do
  let i ← malloc1 40 i
  return (.redir subcmd ⟨file, mode, fd⟩, i)

/-- `pipecmd` -/
def pipecmd (left right : Cmd Span) (i : ℕ) : Except Stop (Cmd Span × ℕ) := do
  let i ← malloc1 24 i
  return (.pipe left right, i)

/-- `listcmd` -/
def listcmd (left right : Cmd Span) (i : ℕ) : Except Stop (Cmd Span × ℕ) := do
  let i ← malloc1 24 i
  return (.list left right, i)

/-- `backcmd` -/
def backcmd (subcmd : Cmd Span) (i : ℕ) : Except Stop (Cmd Span × ℕ) := do
  let i ← malloc1 16 i
  return (.back subcmd, i)

/-- A word is stored in the node at the bottom of the redirections. -/
def Cmd.addArg {α : Type*} : Cmd α → α → Cmd α
  | .exec argv, a => .exec (argv ++ [a])
  | .redir cmd target, a => .redir (cmd.addArg a) target
  | cmd, _ => cmd

/-! ### The parser -/

/-- The `switch` of `parseredirs` -/
def redirBy (tok : Char) (cmd : Cmd Span) (file : Span) (i : ℕ) : Except Stop (Cmd Span × ℕ) :=
  match tok with
  | '<' => redircmd cmd file .rdonly 0 i
  | '>' => redircmd cmd file .wronlyCreat 1 i
  | '+' => redircmd cmd file .wronlyCreat 1 i
  | _ => .ok (cmd, i)

/-- `parseredirs` -/
def parseredirs : ℕ → Cmd Span → Text → ℕ → Except Stop (Cmd Span × Text × ℕ)
  | 0, _, _, _ => .error .fuel
  | fuel + 1, cmd, s, i =>
    match peek ['<', '>'] s with
    | (false, s) => .ok (cmd, s, i)
    | (true, s) => do
      let tok := gettoken s
      let file := gettoken tok.s
      if file.ret ≠ 'a' then panicExit "missing file for redirection"
      else
        let (cmd, i) ← redirBy tok.ret cmd ⟨file.q, file.eq⟩ i
        parseredirs fuel cmd file.s i

/-- The loop of `parseexec`; `cmd` is the node at the bottom of `ret`. -/
def parseargs : ℕ → ℕ → Cmd Span → Text → ℕ → Except Stop (Cmd Span × Text × ℕ)
  | 0, _, _, _, _ => .error .fuel
  | fuel + 1, argc, ret, s, i =>
    match peek ['|', ')', '&', ';'] s with
    | (true, s) => .ok (ret, s, i)
    | (false, s) => do
      let tok := gettoken s
      if tok.ret = '\x00' then return (ret, tok.s, i)
      else if tok.ret ≠ 'a' then panicExit "syntax"
      else
        let ret := ret.addArg ⟨tok.q, tok.eq⟩
        if argc + 1 ≥ maxArgs then panicExit "too many args"
        else
          let (ret, s, i) ← parseredirs fuel ret tok.s i
          parseargs fuel (argc + 1) ret s i

/-- The first loop of `parseline` -/
def parsebacks : ℕ → Cmd Span → Text → ℕ → Except Stop (Cmd Span × Text × ℕ)
  | 0, _, _, _ => .error .fuel
  | fuel + 1, cmd, s, i =>
    match peek ['&'] s with
    | (false, s) => .ok (cmd, s, i)
    | (true, s) => do
      let (cmd, i) ← backcmd cmd i
      parsebacks fuel cmd (gettoken s).s i

mutual

/-- `parseline` -/
def parseline : ℕ → Text → ℕ → Except Stop (Cmd Span × Text × ℕ)
  | 0, _, _ => .error .fuel
  | fuel + 1, s, i => do
    let (cmd, s, i) ← parsepipe fuel s i
    let (cmd, s, i) ← parsebacks fuel cmd s i
    match peek [';'] s with
    | (false, s) => return (cmd, s, i)
    | (true, s) => do
      let (right, s, i) ← parseline fuel (gettoken s).s i
      let (cmd, i) ← listcmd cmd right i
      return (cmd, s, i)

/-- `parsepipe` -/
def parsepipe : ℕ → Text → ℕ → Except Stop (Cmd Span × Text × ℕ)
  | 0, _, _ => .error .fuel
  | fuel + 1, s, i => do
    let (cmd, s, i) ← parseexec fuel s i
    match peek ['|'] s with
    | (false, s) => return (cmd, s, i)
    | (true, s) => do
      let (right, s, i) ← parsepipe fuel (gettoken s).s i
      let (cmd, i) ← pipecmd cmd right i
      return (cmd, s, i)

/-- `parseexec` -/
def parseexec : ℕ → Text → ℕ → Except Stop (Cmd Span × Text × ℕ)
  | 0, _, _ => .error .fuel
  | fuel + 1, s, i =>
    match peek ['('] s with
    | (true, s) => parseblock fuel s i
    | (false, s) => do
      let (ret, i) ← execcmd i
      let (ret, s, i) ← parseredirs fuel ret s i
      parseargs fuel 0 ret s i

/-- `parseblock` -/
def parseblock : ℕ → Text → ℕ → Except Stop (Cmd Span × Text × ℕ)
  | 0, _, _ => .error .fuel
  | fuel + 1, s, i =>
    match peek ['('] s with
    | (false, _) => panicExit "parseblock"
    | (true, s) => do
      let (cmd, s, i) ← parseline fuel (gettoken s).s i
      match peek [')'] s with
      | (false, _) => panicExit "syntax - missing )"
      | (true, s) => parseredirs fuel cmd (gettoken s).s i

end

/-! ### `nulterminate` -/

/-- The memory of the text, from its start on. -/
abbrev Buffer := ℕ → Char

/-- The text, and the NUL behind it. -/
def Text.buffer (text : Text) : Buffer := fun k => text.getD k '\x00'

/-- Where a pointer is in the text. -/
def Text.offset (text p : Text) : ℕ := text.length - p.length

/-- `*e = 0` -/
def Buffer.terminate (buf : Buffer) (text e : Text) : Buffer :=
  Function.update buf (Text.offset text e) '\x00'

/-- `nulterminate` -/
def nulterminate (text : Text) : Cmd Span → Buffer → Buffer
  | .exec argv, buf => argv.foldl (fun buf arg => buf.terminate text arg.eq) buf
  | .redir cmd target, buf => (nulterminate text cmd buf).terminate text target.file.eq
  | .pipe left right, buf => nulterminate text right (nulterminate text left buf)
  | .list left right, buf => nulterminate text right (nulterminate text left buf)
  | .back cmd, buf => nulterminate text cmd buf

/-- `parsecmd`, and the memory of the text afterwards -/
def parsecmd (fuel : ℕ) (text : Text) (i : ℕ) : Except Stop (Cmd Span × Buffer) := do
  let (cmd, s, _) ← parseline fuel text i
  match peek [] s with
  | (_, []) => return (cmd, nulterminate text cmd (Text.buffer text))
  | (_, c :: s) => panicExit ("leftovers: " ++ String.ofList (c :: s) ++ "\nsyntax")

/-! ### What the tokenizer sees -/

section tokens

variable {c : Char} {s s' r w : Text} {ts us : List Token} {toks : List Char}

theorem peek_end (h : skip s = []) : peek toks s = (false, []) := by
  rw [peek, h]

theorem peek_cons (h : skip s = c :: r) : peek toks s = (toks.contains c, c :: r) := by
  rw [peek, h]

theorem peek_snd {b : Bool} (h : peek toks s = (b, s')) : s' = skip s := by
  cases hskip : skip s with
  | nil =>
    rw [peek_end hskip] at h
    exact (Prod.mk.inj h).2.symm
  | cons c r =>
    rw [peek_cons hskip] at h
    exact (Prod.mk.inj h).2.symm

theorem peek_true (h : peek toks s = (true, s')) : ∃ c r, c ∈ toks ∧ skip s = c :: r := by
  cases hskip : skip s with
  | nil =>
    rw [peek_end hskip] at h
    cases h
  | cons c r =>
    rw [peek_cons hskip] at h
    exact ⟨c, r, by simpa using (Prod.mk.inj h).1, rfl⟩

/-- All symbols but one are tokens of their own. -/
theorem symbol_cases (hc : c ∈ symbols) : c ∈ ['|', '(', ')', ';', '&', '<'] ∨ c = '>' := by
  simp only [symbols, List.mem_cons, List.not_mem_nil, or_false] at hc
  rcases hc with rfl | rfl | rfl | rfl | rfl | rfl | rfl <;> simp

theorem output_cases (r : Text) : (∃ r', r = '>' :: r') ∨ r.head? ≠ some '>' := by
  by_cases hr : r.head? = some '>'
  · obtain ⟨r', rfl⟩ := List.head?_eq_some_iff.mp hr
    exact Or.inl ⟨r', rfl⟩
  · exact Or.inr hr

theorem gettoken_end (h : skip s = []) : gettoken s = ⟨'\x00', [], [], []⟩ := by
  simp only [gettoken, h]
  rfl

theorem gettoken_symbol (hc : c ∈ ['|', '(', ')', ';', '&', '<']) (h : skip s = c :: r) :
    gettoken s = ⟨c, c :: r, r, skip r⟩ := by
  simp only [List.mem_cons, List.not_mem_nil, or_false] at hc
  rcases hc with rfl | rfl | rfl | rfl | rfl | rfl <;> simp [gettoken, h]

theorem gettoken_append (h : skip s = '>' :: '>' :: r) :
    gettoken s = ⟨'+', '>' :: '>' :: r, r, skip r⟩ := by
  simp [gettoken, h]

theorem gettoken_output (h : skip s = '>' :: r) (hr : r.head? ≠ some '>') :
    gettoken s = ⟨'>', '>' :: r, r, skip r⟩ := by
  cases r with
  | nil => simp [gettoken, h]
  | cons d r =>
    have hd : d ≠ '>' := by simpa using hr
    simp [gettoken, h, hd]

theorem gettoken_word (hw : WordAt w r) (h : skip s = w ++ r) :
    gettoken s = ⟨'a', w ++ r, r, skip r⟩ := by
  have hdrop := hw.dropWhile_eq
  obtain ⟨c, w', rfl, hc⟩ := hw.exists_cons
  have hsym := notMem_symbols_of_wordChar hc
  simp only [symbols, List.mem_cons, List.not_mem_nil, or_false, not_or] at hsym
  rw [List.cons_append] at h hdrop ⊢
  simp [gettoken, h, hdrop, hsym]

end tokens

end OsLab.Shell
