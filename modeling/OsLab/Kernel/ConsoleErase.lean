/-
Deleting what has been typed (`console_intr` in `kernel/console.c`).

Backspace and Ctrl+U move `e` back by one in the ring, and leave it below `INPUT_BUF`.  The loop
of Ctrl+U ends when `e` and `w` are equal, and `w` is not reduced in this way.  The loop of the
call ends when `getc` has returned `(char)-1`, which is not -1 where `char` is unsigned.

* `Input.back` — the edit position after some turns;
* `Input.killLine_first`, `Input.killLine_endless` — where the loop of Ctrl+U ends;
* `Input.consoleIntr_chars`, `Input.consoleIntr_unsigned` — where the loop of a call ends;
* `Editing.Kept` — the calls that find the position again;
* `console_erases_iff` — these calls end and delete what has been typed only, and no others do;
* `console_stuck` — a character typed behind 128 committed ones, and Ctrl+U.
-/
import OsLab.Kernel.Console
import OsLab.Lib.Search

namespace OsLab

namespace Input

/-- The edit position `k` characters back. -/
def back (e : BitVec 64) (k : ℕ) : BitVec 64 :=
  if k = 0 then e else (e - BitVec.ofNat 64 k) % 128#64

/-- The loop of Ctrl+U ends after `k` turns, when it has come to them. -/
def stops (s : Input) (k : ℕ) : Bool :=
  back s.e k = s.w ∨
    (0 < k ∧ (s.buf (back s.e k).toNat = newline ∨ s.buf (back s.e k).toNat = ctrlD))

/-- How many characters a call deletes. -/
def removes (s : Input) (data : UInt8) : Option ℕ :=
  if data = ctrlU then firstIndex s.stops (inputBuf + 1)
  else if data = backspace ∧ s.e ≠ s.w then some 1 else some 0

end Input

/-- The ring, and how many of the characters that have been typed since the last commit are
left. -/
structure Editing where
  input : Input
  typed : ℕ

namespace Editing

/-- A read, or the turn of `console_intr` for a character; -1 is the end of the input. -/
def step (signed : Bool) (s : Editing) : ConsoleStep → Option Editing
  | .read n => some { s with input := (s.input.consoleRead n).2 }
  | .intr data =>
    if Input.charInt signed data = -1 then some s
    else do
      let (input, ignored) ← s.input.intrTurn data
      let k ← s.input.removes data
      return {
        input
        typed := if ignored then s.typed
          else if data = ctrlD then 0
          else if data = ctrlU ∨ data = backspace then s.typed - k
          else s.typed + 1 }

/-- The call for this character ends.  Backspace and Ctrl+U move the edit position back over
characters that have been typed since the last commit, and change nothing else. -/
def Right (signed : Bool) (s : Editing) (data : UInt8) : Prop :=
  ∃ fuel input k, Input.consoleIntr signed fuel s.input [data] = some input ∧
    s.input.removes data = some k ∧ k ≤ s.typed ∧
    (data = ctrlU ∨ data = backspace → input = { s.input with e := Input.back s.input.e k })

/-- The same for the turn of the call that takes the character. -/
def RightTurn (s : Editing) (data : UInt8) : Prop :=
  ∃ input ignored k, s.input.intrTurn data = some (input, ignored) ∧
    s.input.removes data = some k ∧ k ≤ s.typed ∧
    (data = ctrlU ∨ data = backspace → input = { s.input with e := Input.back s.input.e k })

/-- Something is left to delete, and Ctrl+U comes to the end of a line or finds `w` again. -/
def Finds (s : Editing) (data : UInt8) : Prop :=
  (data = backspace → s.input.e = s.input.w ∨ 0 < s.typed) ∧
  (data = ctrlU → s.input.e = s.input.w ∨ (0 < s.typed ∧ s.input.w < 128#64) ∨
    ∃ j < s.typed, s.input.buf ((s.input.e - BitVec.ofNat 64 (j + 1)) % 128#64).toNat = newline ∨
      s.input.buf ((s.input.e - BitVec.ofNat 64 (j + 1)) % 128#64).toNat = ctrlD)

instance (s : Editing) (data : UInt8) : Decidable (s.Finds data) :=
  inferInstanceAs (Decidable (_ ∧ _))

/-- The end of the input is -1, and the turn finds the position. -/
def Kept (signed : Bool) (s : Editing) : ConsoleStep → Prop
  | .read _ => True
  | .intr data => signed = true ∧ s.Finds data

instance (signed : Bool) (s : Editing) (l : ConsoleStep) : Decidable (s.Kept signed l) :=
  match l with
  | .read _ => inferInstanceAs (Decidable True)
  | .intr _ => inferInstanceAs (Decidable (_ ∧ _))

def boot : Editing := ⟨⟨fun _ => 0, 0, 0, 0⟩, 0⟩

end Editing

def editSystem (signed : Bool) : System Editing ConsoleStep where
  init s := s.input.r = 0 ∧ s.input.w = 0 ∧ s.input.e = 0 ∧ s.typed = 0
  step := Editing.step signed

/-! ### The loop -/

namespace Input

variable {s t : Input} {k i fuel : ℕ}

@[simp] theorem back_zero (e : BitVec 64) : back e 0 = e := rfl

theorem back_succ (e : BitVec 64) (k : ℕ) :
    back e (k + 1) = (e - BitVec.ofNat 64 (k + 1)) % 128#64 := rfl

/-- One turn. -/
theorem back_back (e : BitVec 64) (k : ℕ) : (back e k - 1) % 128#64 = back e (k + 1) := by
  have hsucc : BitVec.ofNat 64 (k + 1) = BitVec.ofNat 64 k + 1 := BitVec.ofNat_add ..
  cases k with
  | zero => rfl
  | succ k =>
    rw [back_succ, back_succ, hsucc]
    generalize BitVec.ofNat 64 (k + 1) = x
    have hsub : e - (x + 1) = e - x - 1 := by bv_omega
    rw [hsub]
    generalize e - x = y
    have hy := toNat_mod y
    generalize y % 128#64 = z at hy ⊢
    refine BitVec.eq_of_toNat_eq ?_
    rw [toNat_mod, toNat_mod]
    bv_omega

/-- The position comes again after a whole turn of the ring. -/
theorem back_period (e : BitVec 64) (hk : 0 < k) : back e (k + inputBuf) = back e k := by
  obtain ⟨k, rfl⟩ := Nat.exists_eq_succ_of_ne_zero hk.ne'
  have hadd : BitVec.ofNat 64 (k + 1 + inputBuf) = BitVec.ofNat 64 (k + 1) + 128#64 :=
    BitVec.ofNat_add ..
  have hshift : k + 1 + inputBuf = (k + inputBuf) + 1 := by omega
  rw [hshift, back_succ, ← hshift, hadd, back_succ]
  generalize BitVec.ofNat 64 (k + 1) = x
  refine BitVec.eq_of_toNat_eq ?_
  rw [toNat_mod, toNat_mod]
  bv_omega

/-- A position in the ring is below its size. -/
theorem back_lt (e : BitVec 64) (hk : 0 < k) : back e k < 128#64 := by
  obtain ⟨k, rfl⟩ := Nat.exists_eq_succ_of_ne_zero hk.ne'
  rw [back_succ]
  exact BitVec.umod_lt _ (by decide)

theorem stops_iff : s.stops k = true ↔ back s.e k = s.w ∨
    (0 < k ∧ (s.buf (back s.e k).toNat = newline ∨ s.buf (back s.e k).toNat = ctrlD)) :=
  decide_eq_true_iff

/-- The loop ends at the first turn after which it stops. -/
theorem killLine_first (hk : s.stops k = true) (hfirst : ∀ j < k, s.stops j = false) :
    ∀ fuel i, i ≤ k → k - i < fuel → (i = k → back s.e k = s.w) →
      killLine { s with e := back s.e i } fuel = some { s with e := back s.e k } := by
  intro fuel
  induction fuel with
  | zero => exact fun _ _ hlt => absurd hlt (Nat.not_lt_zero _)
  | succ fuel ih =>
    intro i hi hfuel hlast
    rw [killLine]
    rcases hi.eq_or_lt with rfl | hlt
    · exact if_pos (hlast rfl)
    · -- the turn after `i`
      have hnot : back s.e i ≠ s.w := fun heq =>
        absurd (stops_iff.mpr (Or.inl heq)) (by rw [hfirst i hlt]; exact Bool.false_ne_true)
      rw [if_neg hnot]
      simp only [back_back]
      by_cases hend : s.buf (back s.e (i + 1)).toNat = newline ∨
          s.buf (back s.e (i + 1)).toNat = ctrlD
      · have hik : i + 1 = k := by
          refine le_antisymm hlt (Nat.le_of_not_lt fun hlt' => ?_)
          have hstop := stops_iff.mpr (Or.inr ⟨Nat.succ_pos i, hend⟩)
          rw [hfirst _ hlt'] at hstop
          cases hstop
        rw [if_pos hend, hik]
      · rw [if_neg hend]
        refine ih (i + 1) hlt (by omega) fun hik => ?_
        subst hik
        exact (stops_iff.mp hk).resolve_right fun h => hend h.2

/-- It goes on as long as it does not stop. -/
theorem killLine_endless : ∀ fuel i, (∀ j, i ≤ j → j ≤ i + fuel → s.stops j = false) →
    killLine { s with e := back s.e i } fuel = none := by
  intro fuel
  induction fuel with
  | zero => exact fun _ _ => rfl
  | succ fuel ih =>
    intro i hnone
    have hstop : ∀ j, i ≤ j → j ≤ i + (fuel + 1) → ¬(back s.e j = s.w ∨
        (0 < j ∧ (s.buf (back s.e j).toNat = newline ∨ s.buf (back s.e j).toNat = ctrlD))) := by
      intro j hj hle h
      exact absurd (stops_iff.mpr h) (by rw [hnone j hj hle]; exact Bool.false_ne_true)
    have hnot := not_or.mp (hstop i le_rfl (by omega))
    have hnext := not_or.mp (hstop (i + 1) (by omega) (by omega))
    rw [killLine, if_neg hnot.1]
    simp only [back_back]
    rw [if_neg fun hend => hnext.2 ⟨Nat.succ_pos i, hend⟩]
    exact ih (i + 1) fun j hj hle => hnone j (by omega) (by omega)

/-- It stops in the first turn of the ring or never. -/
theorem exists_stop (hk : s.stops k = true) : ∃ j ≤ inputBuf, j ≤ k ∧ s.stops j = true := by
  induction k using Nat.strong_induction_on with
  | _ k ih =>
    rcases Nat.lt_or_ge inputBuf k with hlt | hle
    · -- a turn of the ring earlier
      obtain ⟨m, rfl⟩ : ∃ m, k = m + inputBuf := ⟨k - inputBuf, by omega⟩
      have hm : 0 < m := by omega
      have hback := back_period s.e hm
      have hstop : s.stops m = true := by
        rw [stops_iff, hback] at hk
        exact stops_iff.mpr (hk.imp id fun h => ⟨hm, h.2⟩)
      obtain ⟨j, hj, hjm, hstop'⟩ := ih m (by simp only [inputBuf]; omega) hstop
      exact ⟨j, hj, hjm.trans (Nat.le_add_right _ _), hstop'⟩
    · exact ⟨k, hle, le_rfl, hk⟩

/-- What Ctrl+U does when it ends. -/
theorem killLine_some (h : firstIndex s.stops (inputBuf + 1) = some k) :
    s.killLine (inputBuf + 1) = some { s with e := back s.e k } := by
  obtain ⟨hlt, hk, hfirst⟩ := firstIndex_eq_some h
  refine killLine_first hk hfirst (inputBuf + 1) 0 (Nat.zero_le k) (by omega) ?_
  rintro rfl
  exact (stops_iff.mp hk).resolve_right fun h => absurd h.1 (lt_irrefl 0)

theorem killLine_none (h : firstIndex s.stops (inputBuf + 1) = none) (fuel : ℕ) :
    s.killLine fuel = none := by
  refine killLine_endless fuel 0 fun j _ _ => Bool.eq_false_iff.mpr fun hj => ?_
  obtain ⟨m, hm, -, hstop⟩ := exists_stop hj
  have hnone := firstIndex_eq_none h (Nat.lt_succ_of_le hm)
  rw [hstop] at hnone
  cases hnone

/-- Ctrl+U deletes at most `k` characters if the loop stops within `k` turns. -/
theorem exists_first (k : ℕ) : (∃ j ≤ k, firstIndex s.stops (inputBuf + 1) = some j) ↔
    ∃ j ≤ k, s.stops j = true := by
  constructor
  · rintro ⟨j, hj, h⟩
    exact ⟨j, hj, (firstIndex_eq_some h).2.1⟩
  · rintro ⟨j, hj, hstop⟩
    obtain ⟨m, hm, hmj, hstop'⟩ := exists_stop hstop
    cases h : firstIndex s.stops (inputBuf + 1) with
    | none =>
      rw [firstIndex_eq_none h (Nat.lt_succ_of_le hm)] at hstop'
      cases hstop'
    | some i =>
      -- it would stop at `m` before
      refine ⟨i, Nat.le_of_not_lt fun hlt => ?_, rfl⟩
      have hbefore := (firstIndex_eq_some h).2.2 m (by omega)
      rw [hstop'] at hbefore
      cases hbefore

theorem back_mod (e : BitVec 64) (k : ℕ) : ((back e k).toNat + k) % 128 = e.toNat % 128 := by
  cases k with
  | zero => rfl
  | succ k =>
    have hx : (BitVec.ofNat 64 (k + 1)).toNat % 128 = (k + 1) % 128 := by
      rw [BitVec.toNat_ofNat]
      omega
    rw [back_succ, toNat_mod, BitVec.toNat_sub]
    omega

theorem readLoop_r (k : ℕ) : ∀ (s : Input) (i : ℕ), ∃ r, (s.readLoop i k).2 = { s with r := r } := by
  induction k with
  | zero => exact fun s _ => ⟨s.r, rfl⟩
  | succ k ih =>
    intro s i
    obtain ⟨r, hr⟩ := ih { s with r := (s.r + 1) % 128#64 } (i + 1)
    rw [readLoop]
    split
    · exact ⟨s.r, rfl⟩
    · simp only
      split
      · exact ⟨_, rfl⟩
      · exact ⟨r, hr⟩

theorem intrTurn_ctrlU : s.intrTurn ctrlU =
    (s.killLine (inputBuf + 1)).map fun t => (t, false) := by
  rw [intrTurn, if_neg (by decide), if_pos rfl]

theorem intrTurn_backspace : s.intrTurn backspace =
    some ({ s with e := if s.e ≠ s.w then back s.e 1 else s.e }, false) := by
  rw [intrTurn, if_neg (by decide), if_neg (by decide), if_pos rfl]
  split <;> rfl

/-- The other characters leave `e` and `w` alone, or store the character, or commit. -/
theorem intrTurn_other {data : UInt8} (hU : data ≠ ctrlU) (hB : data ≠ backspace) :
    (data = ctrlD ∧ s.intrTurn data = some ({ s with w := s.e }, false)) ∨
    s.intrTurn data = some (s, true) ∨
    (data ≠ ctrlD ∧ ∃ buf, s.intrTurn data = some ({ s with buf := buf, e := s.e + 1 }, false)) := by
  unfold intrTurn
  by_cases hD : data = ctrlD
  · rw [if_pos hD]
    by_cases hfull : (s.e + 1) % 128#64 = s.r
    · rw [if_pos hfull]
      exact Or.inr (Or.inl rfl)
    · rw [if_neg hfull]
      exact Or.inl ⟨hD, rfl⟩
  · rw [if_neg hD, if_neg hU, if_neg hB]
    split
    · exact Or.inr (Or.inr ⟨hD, _, rfl⟩)
    · exact Or.inr (Or.inl rfl)

/-! ### The loop of the call -/

theorem charInt_signed (data : UInt8) : charInt true data = -1 ↔ data = 255 := by
  have hall : ∀ k : Fin 256, charInt true (.ofNat k) = -1 ↔ UInt8.ofNat k = 255 := by
    decide +kernel
  have hdata := hall ⟨data.toNat, data.toNat_lt⟩
  rwa [UInt8.ofNat_toNat] at hdata

/-- An unsigned character is not -1. -/
theorem charInt_unsigned (data : UInt8) : charInt false data ≠ -1 := by
  show (data.toNat : ℤ) ≠ -1
  omega

/-- **Where `char` is unsigned no call ends.** -/
theorem consoleIntr_unsigned (fuel : ℕ) : ∀ (s : Input) (chars : List UInt8),
    consoleIntr false fuel s chars = none := by
  induction fuel with
  | zero => exact fun _ _ => rfl
  | succ fuel ih =>
    intro s chars
    rw [consoleIntr, if_neg (charInt_unsigned _)]
    cases s.intrTurn (chars.headD 255) with
    | none => rfl
    | some t => exact ih t.1 chars.tail

/-- **A call takes the characters turn by turn** where `char` is signed. -/
theorem consoleIntr_chars : ∀ {chars : List UInt8} {s : Input} {fuel : ℕ},
    255 ∉ chars → chars.length < fuel → consoleIntr true fuel s chars
      = chars.foldlM (fun t data => (t.intrTurn data).map Prod.fst) s := by
  intro chars
  induction chars with
  | nil =>
    intro s fuel _ hfuel
    obtain ⟨fuel, rfl⟩ := Nat.exists_eq_succ_of_ne_zero hfuel.ne'
    rw [consoleIntr]
    exact if_pos ((charInt_signed 255).mpr rfl)
  | cons data chars ih =>
    intro s fuel hmem hfuel
    obtain ⟨hne, hmem⟩ := not_or.mp (fun h => hmem (List.mem_cons.mpr h))
    obtain ⟨fuel, rfl⟩ := Nat.exists_eq_succ_of_ne_zero (Nat.ne_of_gt (Nat.lt_of_le_of_lt
      (Nat.zero_le _) hfuel))
    have hlt : chars.length < fuel := Nat.lt_of_succ_lt_succ hfuel
    rw [consoleIntr, List.foldlM_cons]
    refine (if_neg fun h => hne ((charInt_signed data).mp h).symm).trans ?_
    show (s.intrTurn data).bind _ = _
    cases s.intrTurn data with
    | none => rfl
    | some t => exact ih hmem hlt

/-- A call for one character. -/
theorem consoleIntr_one {data : UInt8} {t : Input} :
    (∃ fuel, consoleIntr true fuel s [data] = some t) ↔
      if charInt true data = -1 then t = s else ∃ ignored, s.intrTurn data = some (t, ignored) := by
  by_cases hend : charInt true data = -1
  · rw [if_pos hend]
    constructor
    · rintro ⟨fuel, h⟩
      cases fuel with
      | zero => cases h
      | succ fuel => exact (Option.some.inj ((if_pos hend).symm.trans h)).symm
    · rintro rfl
      exact ⟨1, if_pos hend⟩
  · rw [if_neg hend]
    have hmem : 255 ∉ [data] := fun h =>
      hend ((charInt_signed data).mpr (List.mem_singleton.mp h).symm)
    have hcall : ∀ fuel, 1 < fuel →
        consoleIntr true fuel s [data] = (s.intrTurn data).map Prod.fst := fun fuel hfuel => by
      rw [consoleIntr_chars hmem hfuel, List.foldlM_cons]
      cases s.intrTurn data <;> rfl
    have hmap : (s.intrTurn data).map Prod.fst = some t ↔
        ∃ ignored, s.intrTurn data = some (t, ignored) := by
      rw [Option.map_eq_some_iff]
      exact ⟨fun ⟨u, hu, heq⟩ => ⟨u.2, heq ▸ hu⟩, fun ⟨ignored, hu⟩ => ⟨_, hu, rfl⟩⟩
    rw [← hmap]
    constructor
    · rintro ⟨fuel, h⟩
      rcases Nat.lt_or_ge 1 fuel with hlt | hle
      · rwa [hcall fuel hlt] at h
      · -- there is no turn left for the end of the input
        have hnone : consoleIntr true fuel s [data] = none := by
          cases fuel with
          | zero => rfl
          | succ fuel =>
            obtain rfl : fuel = 0 := by omega
            refine (if_neg hend).trans ?_
            show (s.intrTurn data).bind _ = none
            cases s.intrTurn data <;> rfl
        rw [hnone] at h
        cases h
    · exact fun h => ⟨2, (hcall 2 (by decide)).trans h⟩

end Input

/-! ### The runs -/

namespace Editing

variable {s t : Editing} {l : ConsoleStep}

/-- In the ring, `e` is as many characters behind `w` as have been typed. -/
def Inv (s : Editing) : Prop := s.input.e.toNat % 128 = (s.input.w.toNat + s.typed) % 128

theorem inv_init {signed : Bool} (h : (editSystem signed).init s) : s.Inv := by
  obtain ⟨-, hw, he, htyped⟩ := h
  unfold Inv
  rw [hw, he, htyped]
  rfl

/-- The loop of Ctrl+U stops in time. -/
theorem exists_stop_iff (hinv : s.Inv) : (∃ j ≤ s.typed, s.input.stops j = true) ↔
    (s.input.e = s.input.w ∨ (0 < s.typed ∧ s.input.w < 128#64) ∨
      ∃ j < s.typed, s.input.buf ((s.input.e - BitVec.ofNat 64 (j + 1)) % 128#64).toNat = newline ∨
        s.input.buf ((s.input.e - BitVec.ofNat 64 (j + 1)) % 128#64).toNat = ctrlD) := by
  constructor
  · rintro ⟨j, hj, hstop⟩
    rw [Input.stops_iff] at hstop
    cases j with
    | zero => exact Or.inl (hstop.resolve_right fun h => absurd h.1 (lt_irrefl 0))
    | succ j =>
      rcases hstop with hw | hend
      · exact Or.inr (Or.inl ⟨by omega, hw ▸ Input.back_lt s.input.e (Nat.succ_pos j)⟩)
      · exact Or.inr (Or.inr ⟨j, hj, hend.2⟩)
  · rintro (heq | ⟨hpos, hw⟩ | ⟨j, hj, hend⟩)
    · exact ⟨0, Nat.zero_le _, Input.stops_iff.mpr (Or.inl heq)⟩
    · -- `w` is below the size of the ring, so that the position comes to it
      obtain ⟨k, hk, hkpos, hmod⟩ : ∃ k ≤ s.typed, 0 < k ∧ k % 128 = s.typed % 128 :=
        ⟨(s.typed - 1) % 128 + 1, by omega, by omega, by omega⟩
      refine ⟨k, hk, Input.stops_iff.mpr (Or.inl (BitVec.eq_of_toNat_eq ?_))⟩
      have hback := Input.back_mod s.input.e k
      have hlt := BitVec.lt_def.mp (Input.back_lt s.input.e hkpos)
      have hwlt := BitVec.lt_def.mp hw
      have h128 : (128#64).toNat = 128 := rfl
      unfold Inv at hinv
      omega
    · exact ⟨j + 1, hj, Input.stops_iff.mpr (Or.inr ⟨Nat.succ_pos j, hend⟩)⟩

/-- A turn does the right thing if it finds the position. -/
theorem rightTurn_iff (hinv : s.Inv) (data : UInt8) : s.RightTurn data ↔ s.Finds data := by
  by_cases hU : data = ctrlU
  · subst hU
    have hkept : s.Finds ctrlU ↔ ∃ j ≤ s.typed, s.input.stops j = true := by
      rw [exists_stop_iff hinv]
      exact ⟨fun h => h.2 rfl, fun h => ⟨fun heq => absurd heq (by decide), fun _ => h⟩⟩
    have hremoves : s.input.removes ctrlU = firstIndex s.input.stops (inputBuf + 1) := if_pos rfl
    rw [hkept, ← Input.exists_first]
    constructor
    · rintro ⟨-, -, k, -, hk, hle, -⟩
      exact ⟨k, hle, hremoves ▸ hk⟩
    · rintro ⟨k, hle, hk⟩
      have hcall : s.input.intrTurn ctrlU =
          some ({ s.input with e := Input.back s.input.e k }, false) := by
        rw [Input.intrTurn_ctrlU, Input.killLine_some hk]
        rfl
      exact ⟨_, _, k, hcall, hremoves.trans hk, hle, fun _ => rfl⟩
  by_cases hB : data = backspace
  · subst hB
    have hkept : s.Finds backspace ↔ s.input.e = s.input.w ∨ 0 < s.typed :=
      ⟨fun h => h.1 rfl, fun h => ⟨fun _ => h, fun heq => absurd heq (by decide)⟩⟩
    have hremoves : s.input.removes backspace = if s.input.e ≠ s.input.w then some 1 else some 0 := by
      rw [Input.removes, if_neg (by decide)]
      simp only [true_and]
    rw [hkept]
    unfold RightTurn
    rw [hremoves, Input.intrTurn_backspace]
    by_cases heq : s.input.e = s.input.w
    · rw [if_neg (not_not.mpr heq), if_neg (not_not.mpr heq)]
      exact iff_of_true ⟨_, _, 0, rfl, rfl, Nat.zero_le _, fun _ => rfl⟩ (Or.inl heq)
    · rw [if_pos heq, if_pos heq]
      constructor
      · rintro ⟨-, -, k, -, hk, hle, -⟩
        obtain rfl := Option.some.inj hk
        exact Or.inr hle
      · intro h
        exact ⟨_, _, 1, rfl, rfl, h.resolve_left heq, fun _ => rfl⟩
  · -- nothing is deleted
    have hremoves : s.input.removes data = some 0 := by
      rw [Input.removes, if_neg hU, if_neg fun h => hB h.1]
    refine iff_of_true ?_ ⟨fun h => absurd h hB, fun h => absurd h hU⟩
    have hother : ∃ input ignored, s.input.intrTurn data = some (input, ignored) := by
      rcases Input.intrTurn_other (s := s.input) hU hB with ⟨-, h⟩ | h | ⟨-, _, h⟩ <;>
        exact ⟨_, _, h⟩
    obtain ⟨input, ignored, h⟩ := hother
    exact ⟨input, ignored, 0, h, hremoves, Nat.zero_le _, fun h => h.elim (absurd · hU) (absurd · hB)⟩

/-- A call does the right thing if it is one of those. -/
theorem right_iff {signed : Bool} (hinv : s.Inv) (data : UInt8) :
    s.Right signed data ↔ s.Kept signed (.intr data) := by
  cases signed with
  | false =>
    refine iff_of_false ?_ fun h => Bool.false_ne_true h.1
    rintro ⟨fuel, input, k, hcall, -⟩
    rw [Input.consoleIntr_unsigned] at hcall
    cases hcall
  | true =>
    by_cases hend : Input.charInt true data = -1
    · -- the call ends at once
      obtain rfl := (Input.charInt_signed data).mp hend
      obtain ⟨fuel, hcall⟩ := (Input.consoleIntr_one (s := s.input) (t := s.input)).mpr
        ((if_pos hend).mpr rfl)
      refine iff_of_true ⟨fuel, s.input, 0, hcall, rfl, Nat.zero_le _, fun h => ?_⟩
        ⟨rfl, fun h => absurd h (by decide), fun h => absurd h (by decide)⟩
      exact absurd h (by decide)
    · have hturn : s.Right true data ↔ s.RightTurn data := by
        constructor
        · rintro ⟨fuel, input, k, hcall, hright⟩
          have hone := Input.consoleIntr_one.mp ⟨fuel, hcall⟩
          rw [if_neg hend] at hone
          obtain ⟨ignored, hone⟩ := hone
          exact ⟨input, ignored, k, hone, hright⟩
        · rintro ⟨input, ignored, k, hone, hright⟩
          obtain ⟨fuel, hcall⟩ := Input.consoleIntr_one.mpr
            ((if_neg hend).mpr ⟨ignored, hone⟩)
          exact ⟨fuel, input, k, hcall, hright⟩
      rw [hturn, rightTurn_iff hinv]
      exact ⟨fun h => ⟨rfl, h⟩, fun h => h.2⟩

/-- These calls keep the distance in the ring. -/
theorem inv_step {signed : Bool} (hinv : s.Inv) (hl : s.Kept signed l)
    (hs : s.step signed l = some t) : t.Inv := by
  cases l with
  | read n =>
    obtain ⟨r, hr⟩ := Input.readLoop_r n.toNat s.input 0
    have ht : { s with input := (s.input.consoleRead n).2 } = t := Option.some.inj hs
    rw [← ht, Input.consoleRead, hr]
    exact hinv
  | intr data =>
    obtain ⟨input, ignored, k, hcall, hremoves, hle, herase⟩ :=
      (rightTurn_iff hinv data).mpr hl.2
    rw [step] at hs
    split at hs
    · obtain rfl := Option.some.inj hs
      exact hinv
    rw [hcall] at hs
    simp only [Option.bind_eq_bind, Option.bind_some, hremoves] at hs
    obtain rfl := Option.some.inj hs
    unfold Inv at hinv ⊢
    by_cases hdel : data = ctrlU ∨ data = backspace
    · have hmod := Input.back_mod s.input.e k
      have hD : data ≠ ctrlD := by
        rcases hdel with rfl | rfl <;> decide
      -- these two characters are never dropped
      have hseen : ignored = false := by
        rcases hdel with rfl | rfl
        · rw [Input.intrTurn_ctrlU] at hcall
          obtain ⟨_, -, heq⟩ := Option.map_eq_some_iff.mp hcall
          exact (congrArg Prod.snd heq).symm
        · rw [Input.intrTurn_backspace] at hcall
          exact (congrArg Prod.snd (Option.some.inj hcall)).symm
      simp only [herase hdel, hseen, Bool.false_eq_true, if_false, if_neg hD, if_pos hdel]
      omega
    · obtain ⟨hU, hB⟩ := not_or.mp hdel
      rcases Input.intrTurn_other (s := s.input) hU hB with ⟨hD, h⟩ | h | ⟨hD, _, h⟩
      · obtain ⟨rfl, rfl⟩ := Prod.mk.inj (Option.some.inj (hcall.symm.trans h))
        simp only [Bool.false_eq_true, if_false, if_pos hD, Nat.add_zero]
      · obtain ⟨rfl, rfl⟩ := Prod.mk.inj (Option.some.inj (hcall.symm.trans h))
        simpa using hinv
      · obtain ⟨rfl, rfl⟩ := Prod.mk.inj (Option.some.inj (hcall.symm.trans h))
        simp only [Bool.false_eq_true, if_false, if_neg hD, if_neg hdel]
        rw [BitVec.toNat_add]
        show (s.input.e.toNat + 1) % 2 ^ 64 % 128 = _
        omega

theorem inv_of_reachable {signed : Bool} (h : (editSystem signed).Reachable (Kept signed) s) :
    s.Inv :=
  h.induction (I := Inv) (fun _ => inv_init) fun _ _ _ hinv hl hs => inv_step hinv hl hs

end Editing

/-- **Deleting.**  In a run of calls that find the position again, a call ends and deletes
only what has been typed since the last commit if it is one of these, and not otherwise; the
loop of Ctrl+U does not end at all if it does not end after a turn of the ring. -/
theorem console_erases_iff (signed : Bool) (s : Editing)
    (h : (editSystem signed).Reachable (Editing.Kept signed) s) (data : UInt8) :
    (s.Right signed data ↔ s.Kept signed (.intr data)) ∧
    (s.input.killLine (inputBuf + 1) = none → ∀ fuel, s.input.killLine fuel = none) := by
  refine ⟨Editing.right_iff (Editing.inv_of_reachable h) data, fun hnone fuel => ?_⟩
  cases hfirst : firstIndex s.input.stops (inputBuf + 1) with
  | none => exact Input.killLine_none hfirst fuel
  | some k =>
    rw [Input.killLine_some hfirst] at hnone
    cases hnone

/-- Two characters are committed and a third one is typed: Ctrl+U deletes it. -/
theorem console_erases_third : ∃ s : Editing, s.typed = 1 ∧ s.input.w = 2 ∧ s.input.e = 3 ∧
    s.Right true ctrlU := by
  have hrun : ((editSystem true).exec (Editing.Kept true) .boot
      [.intr 97, .intr 98, .intr ctrlD, .intr 99]).map
      (fun s => (s.typed, s.input.w, s.input.e, decide (s.Kept true (.intr ctrlU)))) =
      some (1, 2, 3, true) := by
    decide
  obtain ⟨s, hs, heq⟩ := Option.map_eq_some_iff.mp hrun
  simp only [Prod.mk.injEq, decide_eq_true_eq] at heq
  obtain ⟨htyped, hw, he, hkept⟩ := heq
  exact ⟨s, htyped, hw, he, (console_erases_iff true s ⟨_, ⟨rfl, rfl, rfl, rfl⟩,
    System.leads_of_exec hs⟩ ctrlU).1.mpr hkept⟩

/-- **Behind 128 committed characters**, of which one has been read, another one is typed: the
loop of Ctrl+U does not end, and the second Backspace deletes a committed character.  Where
`char` is unsigned already the first call does not end. -/
theorem console_stuck :
    (∃ s : Editing, (editSystem true).Reachable (fun _ _ => True) s ∧ s.typed = 1 ∧
      (∀ fuel, s.input.killLine fuel = none) ∧ ¬ s.Right true ctrlU) ∧
    (∃ s t : Editing, (editSystem true).Reachable (fun _ _ => True) s ∧ s.typed = 0 ∧
      s.input.r = 1 ∧ s.input.w = 128 ∧ s.step true (.intr backspace) = some t ∧
      t.input.e = 127 ∧ ¬ s.Right true backspace) ∧
    ∀ fuel, Input.consoleIntr false fuel Editing.boot.input [97] = none := by
  have hkill : ((editSystem true).exec (fun _ _ => True) .boot
      (List.replicate 128 (.intr 97) ++ [.intr ctrlD, .read 1, .intr 98])).map
      (fun s => (s.typed, firstIndex s.input.stops (inputBuf + 1))) = some (1, none) := by
    decide +kernel
  have hback : ((editSystem true).exec (fun _ _ => True) .boot
      (List.replicate 128 (.intr 97) ++ [.intr ctrlD, .read 1, .intr 98, .intr backspace])).map
      (fun s => (s.typed, s.input.r, s.input.w, s.input.removes backspace,
        (s.step true (.intr backspace)).map fun t => t.input.e)) =
      some (0, 1, 128, some 1, some 127) := by
    decide +kernel
  obtain ⟨s, hs, heq⟩ := Option.map_eq_some_iff.mp hkill
  obtain ⟨htyped, hnone⟩ := Prod.mk.inj heq
  refine ⟨⟨s, ⟨_, ⟨rfl, rfl, rfl, rfl⟩, System.leads_of_exec hs⟩, htyped,
    Input.killLine_none hnone, ?_⟩, ?_, fun fuel => Input.consoleIntr_unsigned fuel _ _⟩
  · rintro ⟨-, -, k, -, hk, -⟩
    have hremoves : s.input.removes ctrlU = none := hnone
    rw [hremoves] at hk
    cases hk
  · obtain ⟨u, hu, heq'⟩ := Option.map_eq_some_iff.mp hback
    simp only [Prod.mk.injEq] at heq'
    obtain ⟨htyped', hr, hw, hremoves, hstep⟩ := heq'
    obtain ⟨t, ht, he⟩ := Option.map_eq_some_iff.mp hstep
    refine ⟨u, t, ⟨_, ⟨rfl, rfl, rfl, rfl⟩, System.leads_of_exec hu⟩, htyped', hr, hw, ht, he, ?_⟩
    rintro ⟨-, -, k, -, hk, hle, -⟩
    rw [hremoves] at hk
    obtain rfl := Option.some.inj hk
    omega

end OsLab
