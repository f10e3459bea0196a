/-
The console (`kernel/console.c`).

Characters that are typed go into a ring with three indices: `console_read` has returned what
lies before `r`, what lies before `w` is committed, and typing and editing happen at `e`.

* `Input` — the ring, and what the two functions do to it;
* `Line` — what has been typed, after editing;
* `ConsoleState.Faithful` — reading returns the committed input;
* `ConsoleState.Straight` — the calls in which the indices do what they should;
* `console_faithful` — so reading is right in these runs;
* `console_wrong` — the first character that is read is the second one.
-/
import OsLab.Lib.System
import Mathlib.Data.BitVec
import Mathlib.Data.Int.Notation
import Mathlib.Data.List.Infix

namespace OsLab

abbrev inputBuf : ℕ := 128

/-- `C('D')` -/
abbrev ctrlD : UInt8 := 4

/-- `C('U')` -/
abbrev ctrlU : UInt8 := 21

/-- `'\x7f'` -/
abbrev backspace : UInt8 := 127

abbrev newline : UInt8 := 10

/-- `input`.  The indices are `usize`. -/
structure Input where
  buf : ℕ → UInt8
  r : BitVec 64
  w : BitVec 64
  e : BitVec 64

namespace Input

/-- The loop of `console_read` with `k` turns left, the next of which is turn `i`. -/
def readLoop (s : Input) (i : ℕ) : ℕ → List UInt8 × Input
  | 0 => ([], s)
  | k + 1 =>
    if s.r + BitVec.ofNat 64 i = s.w then ([], s)
    else
      let data := s.buf ((s.r + 1) % 128#64).toNat
      let s' := { s with r := (s.r + 1) % 128#64 }
      if data = ctrlD then ([data], s')
      else (data :: (readLoop s' (i + 1) k).1, (readLoop s' (i + 1) k).2)

/-- `console_read` -/
def consoleRead (s : Input) (n : ℤ) : List UInt8 × Input := s.readLoop 0 n.toNat

/-- The loop of `console_intr` for Ctrl+U. -/
def killLine (s : Input) : ℕ → Option Input
  | 0 => none
  | fuel + 1 =>
    if s.e = s.w then some s
    else
      let s' := { s with e := (s.e - 1) % 128#64 }
      if s'.buf s'.e.toNat = newline ∨ s'.buf s'.e.toNat = ctrlD then some s'
      else s'.killLine fuel

/-- One turn of the loop of `console_intr`, and whether the character was ignored for want of
room. -/
def intrTurn (s : Input) (data : UInt8) : Option (Input × Bool) :=
  if data = ctrlD then
    if (s.e + 1) % 128#64 = s.r then some (s, true) else some ({ s with w := s.e }, false)
  else if data = ctrlU then
    -- `e` takes at most 129 values: a loop that is still running after these never ends
    (s.killLine (inputBuf + 1)).map fun t => (t, false)
  else if data = backspace then
    if s.e ≠ s.w then some ({ s with e := (s.e - 1) % 128#64 }, false) else some (s, false)
  else if s.e - s.r < 128#64 ∧ data ≠ ctrlD then
    some ({ s with buf := Function.update s.buf (s.e % 128#64).toNat data, e := s.e + 1 }, false)
  else some (s, true)

/-- A character as an `int`; `signed` says whether `char` is a signed type. -/
def charInt (signed : Bool) (data : UInt8) : ℤ := if signed then data.toInt8.toInt else data.toNat

/-- `console_intr` with so many turns.  `getc` returns the characters, and `(char)-1` when there
are none left. -/
def consoleIntr (signed : Bool) : ℕ → Input → List UInt8 → Option Input
  | 0, _, _ => none
  | fuel + 1, s, chars =>
    let data := chars.headD 255
    if charInt signed data = -1 then some s
    else (s.intrTurn data).bind fun t => consoleIntr signed fuel t.1 chars.tail

end Input

/-- What has been typed, after editing. -/
structure Line where
  committed : List UInt8
  /-- what is not committed, the last character first -/
  pending : List UInt8

namespace Line

/-- Everything that was kept, in order. -/
def text (l : Line) : List UInt8 := l.committed ++ l.pending.reverse

/-- Ctrl+U takes characters away until it has taken the end of a line. -/
def eraseLine : List UInt8 → List UInt8
  | [] => []
  | c :: cs => if c = newline ∨ c = ctrlD then cs else eraseLine cs

def type (l : Line) (data : UInt8) : Line :=
  if data = ctrlD then ⟨l.text, []⟩
  else if data = ctrlU then { l with pending := eraseLine l.pending }
  else if data = backspace then { l with pending := l.pending.tail }
  else { l with pending := data :: l.pending }

end Line

/-- A call of `console_read`: what it asked for, how much committed input there was, and what
it returned. -/
structure ConsoleRead where
  n : ℤ
  left : ℕ
  bytes : List UInt8

structure ConsoleState where
  input : Input
  line : Line
  /-- all that was returned -/
  returned : List UInt8
  reads : List ConsoleRead
  /-- how many unread characters there were each time that one was ignored -/
  dropped : List ℕ

/-- Reads, and the turns of `console_intr`. -/
inductive ConsoleStep
  | read (n : ℤ)
  | intr (data : UInt8)

namespace ConsoleState

def step (s : ConsoleState) : ConsoleStep → Option ConsoleState
  | .read n => some { s with
      input := (s.input.consoleRead n).2
      returned := s.returned ++ (s.input.consoleRead n).1
      reads := s.reads ++
        [⟨n, s.line.committed.length - s.returned.length, (s.input.consoleRead n).1⟩] }
  | .intr data => (s.input.intrTurn data).map fun t => { s with
      input := t.1
      -- what is ignored does not become part of the input
      line := if t.2 then s.line else s.line.type data
      dropped := if t.2 then s.dropped ++ [s.line.text.length - s.returned.length]
        else s.dropped }

structure Faithful (s : ConsoleState) : Prop where
  /-- what was returned is committed, in order, each character once -/
  returned : s.returned <+: s.line.committed
  /-- input is only dropped when the ring is full of unread characters -/
  dropped : ∀ k ∈ s.dropped, k = inputBuf
  /-- a call only stops early at the end of what is committed or at an end-of-file mark -/
  reads : ∀ q ∈ s.reads, q.bytes.length < q.n →
    q.bytes.length = q.left ∨ q.bytes.getLast? = some ctrlD

/-- The calls for which the indices do what they should. -/
def Straight (s : ConsoleState) : ConsoleStep → Prop
  | .read n => n ≤ 0 ∨ s.input.r = s.input.w ∨
    -- the load at `r + 1` finds the byte at `r`, and `r + i` does not meet `w` too early
    (s.input.r.toNat + n.toNat < inputBuf ∧ s.input.r.toNat + n.toNat ≤ s.input.w.toNat ∧
      ∀ i < n.toNat, s.input.r.toNat + 2 * i ≠ s.input.w.toNat ∧
        s.input.buf (s.input.r.toNat + i + 1) = s.input.buf (s.input.r.toNat + i))
  | .intr data => (data = ctrlD → (s.input.e + 1) % 128#64 ≠ s.input.r) ∧
    (data = ctrlU ∨ data = backspace → s.input.e = s.input.w ∨ s.input.e.toNat ≤ inputBuf)

instance (s : ConsoleState) (l : ConsoleStep) : Decidable (s.Straight l) :=
  match l with
  | .read _ => inferInstanceAs (Decidable (_ ∨ _ ∨ _))
  | .intr data => inferInstanceAs (Decidable ((data = ctrlD → _) ∧ (data = ctrlU ∨ data = backspace → _)))

end ConsoleState

def consoleSystem : System ConsoleState ConsoleStep where
  init s := s.input.r = 0 ∧ s.input.w = 0 ∧ s.input.e = 0 ∧ s.line = ⟨[], []⟩ ∧
    s.returned = [] ∧ s.reads = [] ∧ s.dropped = []
  step := ConsoleState.step

/-! ### The two loops -/

namespace Input

variable {s : Input}

theorem toNat_mod (x : BitVec 64) : (x % 128#64).toNat = x.toNat % 128 :=
  BitVec.toNat_umod

theorem toNat_next {x : BitVec 64} (h : x.toNat + 1 < inputBuf) :
    ((x + 1) % 128#64).toNat = x.toNat + 1 := by
  simp only [inputBuf] at h
  rw [toNat_mod]
  bv_omega

theorem toNat_back {x : BitVec 64} (hpos : 0 < x.toNat) (h : x.toNat ≤ inputBuf) :
    ((x - 1) % 128#64).toNat = x.toNat - 1 := by
  simp only [inputBuf] at h
  rw [toNat_mod]
  bv_omega

/-- As long as `r` stays in front of the end of the ring. -/
theorem readLoop_eq {k : ℕ} : ∀ {s : Input} {i : ℕ}, s.r.toNat + k < inputBuf → i + k < inputBuf →
    (∀ j < k, s.r.toNat + j + (i + j) ≠ s.w.toNat ∧ s.buf (s.r.toNat + j + 1) ≠ ctrlD) →
    s.readLoop i k = ((List.range k).map fun j => s.buf (s.r.toNat + j + 1),
      { s with r := s.r + BitVec.ofNat 64 k }) := by
  induction k with
  | zero => simp [readLoop]
  | succ k ih =>
    intro s i hr hi hturn
    have hne : s.r + BitVec.ofNat 64 i ≠ s.w := by
      have h := (hturn 0 (Nat.succ_pos k)).1
      intro heq
      apply h
      rw [← heq, BitVec.toNat_add, BitVec.toNat_ofNat]
      simp only [inputBuf] at hr hi
      omega
    have hnat : ((s.r + 1) % 128#64).toNat = s.r.toNat + 1 := toNat_next (by omega)
    have hD := (hturn 0 (Nat.succ_pos k)).2
    have hshift : ∀ j, s.r.toNat + 1 + j + 1 = s.r.toNat + (j + 1) + 1 := fun j => by omega
    have htail : readLoop { s with r := (s.r + 1) % 128#64 } (i + 1) k =
        ((List.range k).map fun j => s.buf (s.r.toNat + (j + 1) + 1),
          { s with r := (s.r + 1) % 128#64 + BitVec.ofNat 64 k }) := by
      rw [ih]
      · simp only [hnat, hshift]
      · show ((s.r + 1) % 128#64).toNat + k < inputBuf
        rw [hnat]
        omega
      · omega
      · intro j hj
        have h := hturn (j + 1) (Nat.succ_lt_succ hj)
        simp only [hnat, hshift]
        exact ⟨fun heq => h.1 (by rw [← heq]; omega), h.2⟩
    rw [readLoop, if_neg hne]
    simp only [htail, hnat]
    rw [if_neg hD, List.range_succ_eq_map, List.map_cons, List.map_map]
    have hlast : (s.r + 1) % 128#64 + BitVec.ofNat 64 k = s.r + BitVec.ofNat 64 (k + 1) := by
      refine BitVec.eq_of_toNat_eq ?_
      rw [BitVec.toNat_add, hnat, BitVec.toNat_add, BitVec.toNat_ofNat, BitVec.toNat_ofNat]
      omega
    rw [hlast]
    rfl

theorem killLine_eq {pending : List UInt8} : ∀ {s : Input} {fuel : ℕ},
    s.e.toNat = s.w.toNat + pending.length → s.e.toNat ≤ inputBuf →
    (∀ j c, pending[j]? = some c → s.buf (s.e.toNat - 1 - j) = c) → pending.length < fuel →
    ∃ e : BitVec 64, e.toNat = s.w.toNat + (Line.eraseLine pending).length ∧
      s.killLine fuel = some { s with e := e } := by
  induction pending with
  | nil =>
    intro s fuel he _ _ hfuel
    obtain ⟨fuel, rfl⟩ := Nat.exists_eq_succ_of_ne_zero (Nat.ne_of_gt hfuel)
    refine ⟨s.e, he, ?_⟩
    rw [killLine, if_pos (BitVec.eq_of_toNat_eq he)]
  | cons c pending ih =>
    intro s fuel he hle hbuf hfuel
    obtain ⟨fuel, rfl⟩ := Nat.exists_eq_succ_of_ne_zero (Nat.ne_of_gt (Nat.lt_of_le_of_lt
      (Nat.zero_le _) hfuel))
    rw [List.length_cons] at he hfuel
    have hne : s.e ≠ s.w := by
      intro heq
      rw [heq] at he
      omega
    have hnat : ((s.e - 1) % 128#64).toNat = s.e.toNat - 1 := toNat_back (by omega) hle
    have hc : s.buf (s.e.toNat - 1) = c := hbuf 0 c rfl
    rw [killLine, if_neg hne]
    simp only [hnat, hc]
    unfold Line.eraseLine
    split
    · exact ⟨_, by rw [hnat]; omega, rfl⟩
    · -- the rest of the line
      have hloop : ∃ e : BitVec 64, e.toNat = s.w.toNat + (Line.eraseLine pending).length ∧
          killLine { s with e := (s.e - 1) % 128#64 } fuel = some { s with e := e } := by
        refine @ih { s with e := (s.e - 1) % 128#64 } fuel ?_ ?_ (fun j c hj => ?_)
          (Nat.lt_of_succ_lt_succ hfuel)
        · simp only [hnat]
          omega
        · simp only [hnat]
          omega
        · simp only [hnat]
          rw [← hbuf (j + 1) c hj]
          congr 1
          omega
      exact hloop

end Input

namespace Line

theorem type_ctrlD (l : Line) : l.type ctrlD = ⟨l.text, []⟩ := if_pos rfl

theorem type_ctrlU (l : Line) : l.type ctrlU = { l with pending := eraseLine l.pending } := by
  rw [type, if_neg (by decide), if_pos rfl]

theorem type_backspace (l : Line) : l.type backspace = { l with pending := l.pending.tail } := by
  rw [type, if_neg (by decide), if_neg (by decide), if_pos rfl]

theorem eraseLine_suffix (cs : List UInt8) : eraseLine cs <:+ cs := by
  induction cs with
  | nil => exact List.suffix_refl []
  | cons c cs ih =>
    unfold eraseLine
    split
    · exact List.suffix_cons c cs
    · exact ih.trans (List.suffix_cons c cs)

end Line

namespace ConsoleState

variable {s t : ConsoleState} {l : ConsoleStep}

/-- What holds in these runs: the ring holds what was typed and not yet returned. -/
structure Inv (s : ConsoleState) : Prop where
  r : s.input.r.toNat = s.returned.length
  w : s.input.w.toNat = s.line.committed.length
  e : s.input.e.toNat = s.line.text.length
  r_lt : s.input.r.toNat < inputBuf
  room : s.input.e.toNat ≤ s.input.r.toNat + inputBuf
  buf : ∀ k c, s.input.r.toNat ≤ k → s.line.text[k]? = some c → s.input.buf (k % inputBuf) = c
  /-- Ctrl+D is not stored -/
  marks : ctrlD ∉ s.line.text
  faithful : s.Faithful

theorem inv_init (h : consoleSystem.init s) : s.Inv := by
  obtain ⟨hr, hw, he, hline, hreturned, hreads, hdropped⟩ := h
  refine ⟨?_, ?_, ?_, ?_, ?_, fun k c _ hk => ?_, ?_, ⟨?_, fun k hk => ?_, fun q hq => ?_⟩⟩
  · rw [hr, hreturned]
    rfl
  · rw [hw, hline]
    rfl
  · rw [he, hline]
    rfl
  · rw [hr]
    decide
  · rw [he]
    exact Nat.zero_le _
  · rw [hline] at hk
    cases hk
  · rw [hline]
    exact List.not_mem_nil
  · rw [hreturned]
    exact List.nil_prefix
  · rw [hdropped] at hk
    cases hk
  · rw [hreads] at hq
    cases hq

namespace Inv

theorem length_text (s : ConsoleState) :
    s.line.text.length = s.line.committed.length + s.line.pending.length := by
  simp [Line.text]

theorem r_le (h : s.Inv) : s.input.r.toNat ≤ s.input.w.toNat := by
  rw [h.r, h.w]
  exact h.faithful.returned.length_le

/-- What is committed and not yet returned is in the ring. -/
theorem buf_committed (h : s.Inv) {k : ℕ} (hr : s.input.r.toNat ≤ k) (hw : k < s.input.w.toNat)
    (hk : k < inputBuf) : s.line.committed[k]? = some (s.input.buf k) := by
  have hlt : k < s.line.committed.length := by
    rw [← h.w]
    exact hw
  obtain ⟨c, hc⟩ : ∃ c, s.line.committed[k]? = some c := ⟨_, List.getElem?_eq_getElem hlt⟩
  have htext : s.line.text[k]? = some c := by
    rw [Line.text, List.getElem?_append_left hlt]
    exact hc
  have hbuf := h.buf k c hr htext
  rw [Nat.mod_eq_of_lt hk] at hbuf
  rw [hc, hbuf]

/-- What is not committed is in the ring, the last character in front of `e`. -/
theorem buf_pending (h : s.Inv) (hle : s.input.e.toNat ≤ inputBuf) (j : ℕ) (c : UInt8)
    (hj : s.line.pending[j]? = some c) : s.input.buf (s.input.e.toNat - 1 - j) = c := by
  have hlt := (List.getElem?_eq_some_iff.mp hj).1
  have hlen := length_text s
  have he := h.e
  have hr := h.r_le
  have hw := h.w
  have htext : s.line.text[s.input.e.toNat - 1 - j]? = some c := by
    rw [Line.text, List.getElem?_append_right (by omega), List.getElem?_reverse (by omega), ← hj]
    congr 1
    omega
  have hbuf := h.buf _ c (by omega) htext
  rwa [Nat.mod_eq_of_lt (by omega)] at hbuf

/-- One more call of `console_read`. -/
theorem record (h : s.Inv) {n : ℤ} {bytes : List UInt8} {r : BitVec 64}
    (hr : r.toNat = s.input.r.toNat + bytes.length) (hr_lt : r.toNat < inputBuf)
    (hbytes : s.returned ++ bytes <+: s.line.committed)
    (hearly : bytes.length < n → bytes.length = s.line.committed.length - s.returned.length) :
    Inv { s with
      input := { s.input with r := r }
      returned := s.returned ++ bytes
      reads := s.reads ++ [⟨n, s.line.committed.length - s.returned.length, bytes⟩] } := by
  refine ⟨?_, h.w, h.e, hr_lt, ?_, fun k c hk hc => ?_, h.marks, hbytes, h.faithful.dropped,
    fun q hq hlt => ?_⟩
  · show r.toNat = _
    rw [hr, h.r, List.length_append]
  · show s.input.e.toNat ≤ r.toNat + inputBuf
    have hroom := h.room
    omega
  · have hk' : r.toNat ≤ k := hk
    exact h.buf k c (by omega) hc
  · rcases List.mem_append.mp hq with hq | hq
    · exact h.faithful.reads q hq hlt
    · obtain rfl := List.mem_singleton.mp hq
      exact .inl (hearly hlt)

/-- A call that returns nothing. -/
theorem record_nil (h : s.Inv) {n : ℤ} (hn : n ≤ 0 ∨ s.input.r = s.input.w) :
    Inv { s with
      input := s.input
      returned := s.returned ++ []
      reads := s.reads ++ [⟨n, s.line.committed.length - s.returned.length, []⟩] } := by
  refine h.record rfl h.r_lt ?_ fun hlt => ?_
  · rw [List.append_nil]
    exact h.faithful.returned
  · rcases hn with hn | hn
    · exact absurd hlt (by simpa using hn)
    · rw [← h.r, ← h.w, hn, Nat.sub_self]
      rfl

theorem read (h : s.Inv) {n : ℤ} (hl : s.Straight (.read n))
    (hs : s.step (.read n) = some t) : t.Inv := by
  cases hs
  unfold Input.consoleRead
  rcases hl with hn | hrw | ⟨hr, hw, hturn⟩
  · rw [Int.toNat_of_nonpos hn]
    exact h.record_nil (.inl hn)
  · have hloop : s.input.readLoop 0 n.toNat = ([], s.input) := by
      cases n.toNat with
      | zero => rfl
      | succ k => exact if_pos (by rw [← hrw]; simp)
    rw [hloop]
    exact h.record_nil (.inr hrw)
  · have hD : ∀ j < n.toNat, s.input.buf (s.input.r.toNat + j + 1) ≠ ctrlD := by
      intro j hj heq
      have hc := h.buf_committed (k := s.input.r.toNat + j) (by omega) (by omega) (by omega)
      rw [← (hturn j hj).2, heq] at hc
      exact h.marks (List.mem_append_left _ (List.mem_of_getElem? hc))
    have hloop := Input.readLoop_eq (s := s.input) (i := 0) (k := n.toNat) hr (by omega)
      fun j hj => ⟨fun heq => (hturn j hj).1 (by omega), hD j hj⟩
    rw [hloop]
    have hlen : ((List.range n.toNat).map fun j =>
        s.input.buf (s.input.r.toNat + j + 1)).length = n.toNat := by simp
    refine h.record ?_ ?_ ?_ fun hlt => ?_
    · rw [hlen]
      simp only [inputBuf] at hr
      rw [BitVec.toNat_add, BitVec.toNat_ofNat]
      omega
    · simp only [inputBuf] at hr ⊢
      rw [BitVec.toNat_add, BitVec.toNat_ofNat]
      omega
    · -- each byte is the one that it should be
      obtain ⟨rest, hrest⟩ := h.faithful.returned
      have htake : ((List.range n.toNat).map fun j => s.input.buf (s.input.r.toNat + j + 1)) =
          rest.take n.toNat := by
        refine List.ext_getElem? fun j => ?_
        rcases Nat.lt_or_ge j n.toNat with hj | hj
        · have hc := h.buf_committed (k := s.input.r.toNat + j) (by omega) (by omega) (by omega)
          rw [← hrest, List.getElem?_append_right (by rw [h.r]; omega), h.r,
            Nat.add_sub_cancel_left, ← h.r] at hc
          rw [List.getElem?_take_of_lt hj, hc, ← (hturn j hj).2, List.getElem?_map,
            List.getElem?_range hj]
          rfl
        · rw [List.getElem?_eq_none (by rw [hlen]; exact hj),
            List.getElem?_eq_none ((List.length_take_le _ _).trans hj)]
      rw [htake, ← hrest]
      exact (List.prefix_append_right_inj _).mpr (List.take_prefix _ _)
    · rw [hlen] at hlt
      omega

/-- Characters are taken away at the end of what is not committed. -/
theorem erase (h : s.Inv) {pending : List UInt8} (hp : pending <:+ s.line.pending)
    {e : BitVec 64} (he : e.toNat = s.input.w.toNat + pending.length) :
    Inv { s with input := { s.input with e := e }, line := { s.line with pending := pending } } := by
  have htext : s.line.committed ++ pending.reverse <+: s.line.text :=
    (List.prefix_append_right_inj _).mpr (List.reverse_prefix.mpr hp)
  refine ⟨h.r, h.w, ?_, h.r_lt, ?_, fun k c hk hc => h.buf k c hk ?_, fun hmem => ?_,
    ⟨h.faithful.returned, h.faithful.dropped, h.faithful.reads⟩⟩
  · show e.toNat = (s.line.committed ++ pending.reverse).length
    rw [he, h.w, List.length_append, List.length_reverse]
  · have hle := hp.length_le
    have hroom := h.room
    have hlen := length_text s
    rw [h.e, hlen, ← h.w] at hroom
    show e.toNat ≤ s.input.r.toNat + inputBuf
    omega
  · obtain ⟨rest, hrest⟩ := htext
    have hlt := (List.getElem?_eq_some_iff.mp hc).1
    rw [← hrest]
    exact (List.getElem?_append_left hlt).trans hc
  · exact h.marks (htext.subset hmem)

theorem commit (h : s.Inv) : Inv { s with
    input := { s.input with w := s.input.e }
    line := ⟨s.line.text, []⟩ } := by
  have htext : s.line.text ++ [].reverse = s.line.text := List.append_nil _
  refine ⟨h.r, h.e, ?_, h.r_lt, h.room, fun k c hk hc => h.buf k c hk ?_, fun hmem => h.marks ?_,
    ⟨h.faithful.returned.trans (List.prefix_append _ _), h.faithful.dropped, h.faithful.reads⟩⟩
  · show _ = (s.line.text ++ [].reverse).length
    rw [htext]
    exact h.e
  · rw [← htext]
    exact hc
  · rw [← htext]
    exact hmem

/-- A character is stored. -/
theorem store (h : s.Inv) {data : UInt8} (hdata : data ≠ ctrlD)
    (hroom : s.input.e.toNat < s.input.r.toNat + inputBuf) : Inv { s with
      input := { s.input with
        buf := Function.update s.input.buf (s.input.e % 128#64).toNat data
        e := s.input.e + 1 }
      line := { s.line with pending := data :: s.line.pending } } := by
  have htext : s.line.committed ++ (data :: s.line.pending).reverse = s.line.text ++ [data] := by
    rw [List.reverse_cons, ← List.append_assoc]
    rfl
  have hr_lt := h.r_lt
  have hnat : (s.input.e + 1).toNat = s.input.e.toNat + 1 := by
    simp only [inputBuf] at hroom hr_lt
    bv_omega
  refine ⟨h.r, h.w, ?_, h.r_lt, ?_, fun k c hk hc => ?_, fun hmem => ?_,
    ⟨h.faithful.returned, h.faithful.dropped, h.faithful.reads⟩⟩
  · show (s.input.e + 1).toNat = (s.line.committed ++ _).length
    rw [htext, hnat, h.e, List.length_append]
    rfl
  · show (s.input.e + 1).toNat ≤ s.input.r.toNat + inputBuf
    rw [hnat]
    exact hroom
  · show Function.update s.input.buf (s.input.e % 128#64).toNat data (k % inputBuf) = c
    have hk' : s.input.r.toNat ≤ k := hk
    have hc' : (s.line.text ++ [data])[k]? = some c := by
      rw [← htext]
      exact hc
    rw [Input.toNat_mod]
    rcases Nat.lt_or_ge k s.line.text.length with hlt | hge
    · -- the slots between `r` and `e` are different ones
      have hne : k % inputBuf ≠ s.input.e.toNat % 128 := by
        have he := h.e
        simp only [inputBuf] at hroom ⊢
        omega
      rw [Function.update_of_ne hne]
      rw [List.getElem?_append_left hlt] at hc'
      exact h.buf k c hk' hc'
    · obtain rfl : k = s.line.text.length := by
        have hlt := (List.getElem?_eq_some_iff.mp hc').1
        rw [List.length_append, List.length_singleton] at hlt
        omega
      rw [h.e, Function.update_self]
      simpa using hc'
  · have hmem' : ctrlD ∈ s.line.text ++ [data] := by
      rw [← htext]
      exact hmem
    rcases List.mem_append.mp hmem' with hmem' | hmem'
    · exact h.marks hmem'
    · exact hdata (List.mem_singleton.mp hmem').symm

/-- A character is ignored, with the ring full. -/
theorem drop (h : s.Inv) (hfull : s.input.e.toNat = s.input.r.toNat + inputBuf) :
    Inv { s with dropped := s.dropped ++ [s.line.text.length - s.returned.length] } := by
  refine ⟨h.r, h.w, h.e, h.r_lt, h.room, h.buf, h.marks,
    ⟨h.faithful.returned, fun k hk => ?_, h.faithful.reads⟩⟩
  rcases List.mem_append.mp hk with hk | hk
  · exact h.faithful.dropped k hk
  · obtain rfl := List.mem_singleton.mp hk
    rw [← h.e, ← h.r, hfull, Nat.add_sub_cancel_left]

theorem intr (h : s.Inv) {data : UInt8} (hl : s.Straight (.intr data))
    (hs : s.step (.intr data) = some t) : t.Inv := by
  have hlen := length_text s
  have hw := h.w
  have he := h.e
  have hroom := h.room
  have hle := h.r_le
  obtain ⟨u, hu, rfl⟩ := Option.map_eq_some_iff.mp hs
  unfold Input.intrTurn at hu
  by_cases hD : data = ctrlD
  · rw [if_pos hD, if_neg (hl.1 hD)] at hu
    cases hu
    simp only [Bool.false_eq_true, if_false, hD, Line.type_ctrlD]
    exact h.commit
  rw [if_neg hD] at hu
  by_cases hU : data = ctrlU
  · rw [if_pos hU] at hu
    obtain ⟨i, hkill, rfl⟩ := Option.map_eq_some_iff.mp hu
    simp only [Bool.false_eq_true, if_false, hU, Line.type_ctrlU]
    have hsuffix := Line.eraseLine_suffix s.line.pending
    rcases hl.2 (.inl hU) with heq | hle'
    · -- there is nothing to delete
      rw [Input.killLine, if_pos heq] at hkill
      cases hkill
      rw [heq] at he
      have hnil : s.line.pending = [] := List.length_eq_zero_iff.mp (by omega)
      rw [hnil]
      exact h.erase List.nil_suffix (by rw [heq]; rfl)
    · obtain ⟨e, he', hkill'⟩ := Input.killLine_eq (by omega) hle' (h.buf_pending hle')
        (by omega : s.line.pending.length < inputBuf + 1)
      cases hkill.symm.trans hkill'
      exact h.erase hsuffix he'
  rw [if_neg hU] at hu
  by_cases hB : data = backspace
  · rw [if_pos hB] at hu
    split at hu
    · rename_i hne
      cases hu
      simp only [Bool.false_eq_true, if_false, hB, Line.type_backspace]
      have hle' := (hl.2 (.inr hB)).resolve_left hne
      have hne' : s.input.e.toNat ≠ s.input.w.toNat := fun heq => hne (BitVec.eq_of_toNat_eq heq)
      refine h.erase (List.tail_suffix _) ?_
      rw [Input.toNat_back (by omega) hle', List.length_tail]
      omega
    · rename_i heq
      cases hu
      have heq := not_not.mp heq
      rw [heq] at he
      have hnil : s.line.pending = [] := List.length_eq_zero_iff.mp (by omega)
      simp only [Bool.false_eq_true, if_false, hB, Line.type_backspace, hnil]
      exact h.erase List.nil_suffix (by rw [heq]; rfl)
  rw [if_neg hB] at hu
  have hr_lt := h.r_lt
  have hcount : (s.input.e - s.input.r).toNat = s.input.e.toNat - s.input.r.toNat := by
    bv_omega
  split at hu
  · rename_i hlt
    cases hu
    simp only [Bool.false_eq_true, if_false, Line.type, hD, hU, hB]
    have hlt' := BitVec.lt_def.mp hlt.1
    rw [hcount] at hlt'
    refine h.store hD ?_
    show s.input.e.toNat < s.input.r.toNat + 128
    have h128 : (128#64).toNat = 128 := rfl
    omega
  · rename_i hge
    cases hu
    refine h.drop ?_
    have hge' : ¬(s.input.e - s.input.r < 128#64) := fun hlt => hge ⟨hlt, hD⟩
    rw [BitVec.lt_def, hcount] at hge'
    have h128 : (128#64).toNat = 128 := rfl
    simp only [inputBuf] at hroom ⊢
    omega

end Inv

end ConsoleState

/-- **Reading returns the committed input**, as long as all calls are ones in which the indices
do what they should. -/
theorem console_faithful (s : ConsoleState)
    (h : consoleSystem.Reachable ConsoleState.Straight s) : s.Faithful := by
  have hinv : s.Inv := h.induction (I := ConsoleState.Inv) (fun _ => ConsoleState.inv_init)
    fun _ l _ hinv hl hs =>
      match l with
      | .read _ => hinv.read hl hs
      | .intr _ => hinv.intr hl hs
  exact hinv.faithful

namespace ConsoleState

def boot : ConsoleState where
  input := ⟨fun _ => 0, 0, 0, 0⟩
  line := ⟨[], []⟩
  returned := []
  reads := []
  dropped := []

theorem init_boot : consoleSystem.init boot := ⟨rfl, rfl, rfl, rfl, rfl, rfl, rfl⟩

end ConsoleState

/-- Three characters are committed after one was corrected, one of them is read, and two more
are typed and deleted. -/
theorem console_faithful_three : ∃ s : ConsoleState, s.returned = [97] ∧
    s.line.committed = [97, 97, 97] ∧ s.line.pending = [113] ∧ s.Faithful := by
  have hrun : (consoleSystem.exec ConsoleState.Straight .boot
      [.intr 97, .intr 97, .intr 97, .intr 98, .intr backspace, .intr ctrlD, .read 1, .intr 121,
        .intr 122, .intr ctrlU, .intr 113]).map
      (fun s => (s.returned, s.line.committed, s.line.pending)) =
      some ([97], [97, 97, 97], [113]) := by
    decide
  obtain ⟨s, hs, heq⟩ := Option.map_eq_some_iff.mp hrun
  obtain ⟨hreturned, heq⟩ := Prod.mk.inj heq
  obtain ⟨hcommitted, hpending⟩ := Prod.mk.inj heq
  exact ⟨s, hreturned, hcommitted, hpending,
    console_faithful s ⟨_, ConsoleState.init_boot, System.leads_of_exec hs⟩⟩

/-- **The first character that is read is the second one.** -/
theorem console_wrong : ∃ s : ConsoleState, consoleSystem.Reachable (fun _ _ => True) s ∧
    s.returned = [98] ∧ s.line.committed = [97, 98] ∧ ¬s.Faithful := by
  have hrun : (consoleSystem.exec (fun _ _ => True) .boot
      [.intr 97, .intr 98, .intr ctrlD, .read 1]).map (fun s => (s.returned, s.line.committed)) =
      some ([98], [97, 98]) := by
    decide
  obtain ⟨s, hs, heq⟩ := Option.map_eq_some_iff.mp hrun
  obtain ⟨hreturned, hcommitted⟩ := Prod.mk.inj heq
  refine ⟨s, ⟨_, ConsoleState.init_boot, System.leads_of_exec hs⟩, hreturned, hcommitted,
    fun hfaithful => ?_⟩
  have hfront := hfaithful.returned
  rw [hreturned, hcommitted] at hfront
  exact absurd hfront (by decide)

end OsLab
