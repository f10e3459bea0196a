/-
`_print_int` of `common/format.c`.

The first loop writes the digits to `buf`, the last one first, and the second one takes them from
its end.  A store or a load outside of `buf` is `none`.

* `Canonical` — a string that is read as the number, without needless zeros in front;
* `Canonical.eq_intNumeral` — there is one for each number;
* `writeDigits_numeral`, `emitDigits_reverse` — the loops;
* `printInt_canonical` — so this string is printed.
-/
import OsLab.Lib.Numeral
import Mathlib.Data.Int.Notation

namespace OsLab

/-- `'-'` -/
abbrev minus : UInt8 := 45

/-- `digit`, with the NUL at its end. -/
def digit : List UInt8 :=
  [48, 49, 50, 51, 52, 53, 54, 55, 56, 57, 97, 98, 99, 100, 101, 102, 0]

/-- `static char buf[64]` -/
abbrev PrintBuf := Fin 64 → UInt8

namespace PrintBuf

/-- `*pos = c` -/
def store (buf : PrintBuf) (pos : ℕ) (c : UInt8) : Option PrintBuf :=
  if h : pos < 64 then some (Function.update buf ⟨pos, h⟩ c) else none

/-- `*pos` -/
def load (buf : PrintBuf) (pos : ℕ) : Option UInt8 :=
  if h : pos < 64 then some (buf ⟨pos, h⟩) else none

end PrintBuf

/-- `do *pos++ = digit[v % base]; while (v /= base);`: `none` also when the fuel runs out. -/
def writeDigits (base : BitVec 64) : ℕ → PrintBuf → ℕ → BitVec 64 → Option (PrintBuf × ℕ)
  | 0, _, _, _ => none
  | fuel + 1, buf, pos, v => do
    let c ← digit[(v % base).toNat]?
    let buf ← buf.store pos c
    if v / base = 0 then return (buf, pos + 1) else writeDigits base fuel buf (pos + 1) (v / base)

variable {κ : Type}

/-- `do put_char(ctx, *(--pos)); while (pos != buf);` -/
def emitDigits (putChar : κ → UInt8 → κ) (buf : PrintBuf) : κ → ℕ → Option κ
  | _, 0 => none
  | ctx, pos + 1 => do
    let c ← buf.load pos
    if pos = 0 then return putChar ctx c else emitDigits putChar buf (putChar ctx c) pos

/-- `_print_int`: what `put_char` has made of `ctx`, and what is left in `buf`. -/
def printInt (putChar : κ → UInt8 → κ) (fuel : ℕ) (buf : PrintBuf) (ctx : κ) (u : BitVec 64)
    (base : BitVec 32) (isSigned : Bool) : Option (κ × PrintBuf) := do
  let base := base.signExtend 64
  let negative := isSigned && u.slt 0
  let v := if negative then -u else u
  let ctx := if negative then putChar ctx minus else ctx
  let (buf, pos) ← writeDigits base fuel buf 0 v
  let ctx ← emitDigits putChar buf ctx pos
  return (ctx, buf)

/-! ### Reading numbers -/

/-- The value of a digit. -/
def charValue (c : UInt8) : Option ℕ :=
  if 48 ≤ c ∧ c ≤ 57 then some (c.toNat - 48)
  else if 97 ≤ c ∧ c ≤ 102 then some (c.toNat - 87)
  else none

/-- A string of one digit or more. -/
def readNat (base : ℕ) (s : List UInt8) : Option ℕ :=
  if s = [] then none
  else (s.mapM fun c => (charValue c).filter (· < base)).map (numeralValue base)

/-- The digits of a number, behind its sign. -/
def magnitude (s : List UInt8) : List UInt8 := if s.head? = some minus then s.tail else s

def readInt (base : ℕ) (s : List UInt8) : Option ℤ :=
  (readNat base (magnitude s)).map fun n : ℕ => if s.head? = some minus then -(n : ℤ) else n

/-- The string says `z`: a sign is in front of a negative number only, and a zero is in front
of other digits in no number. -/
structure Canonical (base : ℕ) (z : ℤ) (s : List UInt8) : Prop where
  read : readInt base s = some z
  sign : s.head? = some minus ↔ z < 0
  leading : (magnitude s).head? = some 48 → magnitude s = [48]

/-- The number that is printed. -/
def printed (u : BitVec 64) (isSigned : Bool) : ℤ := if isSigned then u.toInt else u.toNat

/-- The character of a digit. -/
def digitChar (d : ℕ) : UInt8 := digit.getD d 0

/-- The string for `z`. -/
def intNumeral (base : ℕ) (z : ℤ) : List UInt8 :=
  (if z < 0 then [minus] else []) ++ (numeral base z.natAbs).map digitChar

variable {base d n : ℕ} {z : ℤ} {c : UInt8} {s l : List UInt8} {ds : List ℕ}

/-! ### One string for each number -/

theorem charValue_digitChar (hd : d < 16) : charValue (digitChar d) = some d := by
  revert d
  decide

/-- No other character has the value. -/
theorem eq_digitChar (hc : charValue c = some d) : c = digitChar d ∧ d < 16 := by
  have hlow : ∀ d < 10, UInt8.ofNat (d + 48) = digitChar d := by decide
  have hhigh : ∀ d < 16, 10 ≤ d → UInt8.ofNat (d + 87) = digitChar d := by decide
  rw [charValue] at hc
  split at hc
  · rename_i hin
    obtain rfl := Option.some.inj hc
    have hge := UInt8.le_iff_toNat_le.mp hin.1
    have hle := UInt8.le_iff_toNat_le.mp hin.2
    have h48 : (48 : UInt8).toNat = 48 := rfl
    have h57 : (57 : UInt8).toNat = 57 := rfl
    refine ⟨?_, by omega⟩
    rw [← hlow _ (by omega), Nat.sub_add_cancel (by omega), UInt8.ofNat_toNat]
  · split at hc
    · rename_i hin
      obtain rfl := Option.some.inj hc
      have hge := UInt8.le_iff_toNat_le.mp hin.1
      have hle := UInt8.le_iff_toNat_le.mp hin.2
      have h97 : (97 : UInt8).toNat = 97 := rfl
      have h102 : (102 : UInt8).toNat = 102 := rfl
      refine ⟨?_, by omega⟩
      rw [← hhigh _ (by omega) (by omega), Nat.sub_add_cancel (by omega), UInt8.ofNat_toNat]
    · cases hc

/-- A string of digits below the base. -/
theorem mapM_eq_some (hbase : base ≤ 16) :
    (s.mapM fun c => (charValue c).filter (· < base)) = some ds ↔
      s = ds.map digitChar ∧ ∀ d ∈ ds, d < base := by
  induction s generalizing ds with
  | nil => cases ds <;> simp
  | cons c s ih =>
    rw [List.mapM_cons]
    constructor
    · intro h
      obtain ⟨d, hd, hrest⟩ := Option.bind_eq_some_iff.mp h
      obtain ⟨ds', hds, hcons⟩ := Option.bind_eq_some_iff.mp hrest
      obtain rfl := Option.some.inj hcons
      obtain ⟨hc, hlt⟩ := Option.filter_eq_some_iff.mp hd
      obtain ⟨hs, hall⟩ := ih.mp hds
      rw [List.map_cons, ← (eq_digitChar hc).1, ← hs]
      exact ⟨rfl, List.forall_mem_cons.mpr ⟨by simpa using hlt, hall⟩⟩
    · rintro ⟨hs, hall⟩
      cases ds with
      | nil => cases hs
      | cons d ds =>
        obtain ⟨rfl, rfl⟩ := List.cons.inj hs
        obtain ⟨hd, hall⟩ := List.forall_mem_cons.mp hall
        have hvalue : (charValue (digitChar d)).filter (· < base) = some d := by
          rw [charValue_digitChar (by omega)]
          simp [hd]
        rw [hvalue, ih.mpr ⟨rfl, hall⟩]
        rfl

/-- What is read as `n`. -/
theorem readNat_eq_some (hbase : base ≤ 16) : readNat base s = some n ↔
    ∃ ds, ds ≠ [] ∧ (∀ d ∈ ds, d < base) ∧ s = ds.map digitChar ∧ numeralValue base ds = n := by
  rw [readNat]
  split
  · rename_i hnil
    subst hnil
    refine iff_of_false (by simp) ?_
    rintro ⟨ds, hne, -, hs, -⟩
    exact hne (List.map_eq_nil_iff.mp hs.symm)
  · rename_i hne
    rw [Option.map_eq_some_iff]
    constructor
    · rintro ⟨ds, hds, hn⟩
      obtain ⟨hs, hall⟩ := (mapM_eq_some hbase).mp hds
      refine ⟨ds, ?_, hall, hs, hn⟩
      rintro rfl
      exact hne hs
    · rintro ⟨ds, -, hall, hs, hn⟩
      exact ⟨ds, (mapM_eq_some hbase).mpr ⟨hs, hall⟩, hn⟩

theorem digitChar_zero_iff (hd : d < 16) : digitChar d = 48 ↔ d = 0 := by
  revert d
  decide

theorem digitChar_ne_minus (hd : d < 16) : digitChar d ≠ minus := by
  revert d
  decide

/-- Digits have no sign in front. -/
theorem head_ne_minus (hall : ∀ d ∈ ds, d < 16) : (ds.map digitChar).head? ≠ some minus := by
  cases ds with
  | nil => simp
  | cons d ds =>
    intro h
    exact digitChar_ne_minus (hall d List.mem_cons_self) (Option.some.inj h)

theorem magnitude_intNumeral (hb : 1 < base) (hbase : base ≤ 16) (z : ℤ) :
    magnitude (intNumeral base z) = (numeral base z.natAbs).map digitChar ∧
      ((intNumeral base z).head? = some minus ↔ z < 0) := by
  have hall : ∀ d ∈ numeral base z.natAbs, d < 16 := fun d hd =>
    lt_of_lt_of_le ((isNumeral_numeral hb _).lt_base d hd) hbase
  have hnot := head_ne_minus hall
  rw [magnitude, intNumeral]
  by_cases hz : z < 0
  · rw [if_pos hz]
    exact ⟨if_pos rfl, iff_of_true rfl hz⟩
  · rw [if_neg hz, List.nil_append, if_neg hnot]
    exact ⟨rfl, iff_of_false hnot hz⟩

/-- The string for `z` is read as `z`, and has no needless zeros. -/
theorem canonical_intNumeral (hb : 1 < base) (hbase : base ≤ 16) (z : ℤ) :
    Canonical base z (intNumeral base z) := by
  obtain ⟨hmag, hsign⟩ := magnitude_intNumeral hb hbase z
  have hnumeral := isNumeral_numeral hb z.natAbs
  constructor
  case sign => exact hsign
  case read =>
    have hread : readNat base (magnitude (intNumeral base z)) = some z.natAbs :=
      (readNat_eq_some hbase).mpr
        ⟨_, hnumeral.ne_nil, hnumeral.lt_base, hmag, value_numeral base z.natAbs⟩
    rw [readInt, hread, Option.map_some]
    congr 1
    split
    · rename_i hminus
      have hz := hsign.mp hminus
      omega
    · rename_i hminus
      have hz := mt hsign.mpr hminus
      omega
  case leading =>
    rw [hmag]
    intro hhead
    have hzero : (numeral base z.natAbs).head? = some 0 := by
      obtain ⟨d, ds, heq⟩ := List.exists_cons_of_ne_nil hnumeral.ne_nil
      rw [heq] at hhead ⊢
      have hd : d < 16 := lt_of_lt_of_le (hnumeral.lt_base d (heq ▸ List.mem_cons_self)) hbase
      rw [(digitChar_zero_iff hd).mp (Option.some.inj hhead)]
      rfl
    rw [hnumeral.leading hzero]
    rfl

/-- No other string does. -/
theorem Canonical.eq_intNumeral (hb : 1 < base) (hbase : base ≤ 16) (h : Canonical base z s) :
    s = intNumeral base z := by
  obtain ⟨n, hn, hz⟩ := Option.map_eq_some_iff.mp h.read
  obtain ⟨ds, hne, hall, hs, hvalue⟩ := (readNat_eq_some hbase).mp hn
  have hnumeral : IsNumeral base ds := by
    refine ⟨hne, hall, fun hhead => ?_⟩
    have hzero : (magnitude s).head? = some 48 := by
      rw [hs, List.head?_map, hhead]
      rfl
    have hone := h.leading hzero
    rw [hs] at hone
    obtain ⟨d, rfl⟩ := List.length_eq_one_iff.mp ((List.length_map digitChar).symm.trans
      (congrArg List.length hone))
    exact congrArg (fun d => [d]) (Option.some.inj hhead)
  have hdigits : magnitude s = (numeral base n).map digitChar := by
    rw [hs, hnumeral.eq_numeral hb, hvalue]
  rw [intNumeral]
  by_cases hneg : z < 0
  · have hminus := h.sign.mpr hneg
    rw [if_pos hminus] at hz
    have habs : z.natAbs = n := by omega
    rw [magnitude, if_pos hminus] at hdigits
    rw [if_pos hneg, habs, ← hdigits, List.singleton_append]
    exact (List.cons_head?_tail hminus).symm
  · have hminus := mt h.sign.mp hneg
    rw [if_neg hminus] at hz
    have habs : z.natAbs = n := by omega
    rw [magnitude, if_neg hminus] at hdigits
    rw [if_neg hneg, habs, ← hdigits, List.nil_append]

/-! ### The loops -/

namespace PrintBuf

/-- The characters of `l` are at the front of `buf`. -/
def Holds (buf : PrintBuf) (l : List UInt8) : Prop := ∀ i c, l[i]? = some c → buf.load i = some c

/-- One more character is stored behind them. -/
theorem Holds.store {buf : PrintBuf} (h : buf.Holds l) (hl : l.length < 64) (c : UInt8) :
    ∃ buf' : PrintBuf, buf.store l.length c = some buf' ∧ buf'.Holds (l ++ [c]) := by
  refine ⟨_, dif_pos hl, fun i c' hi => ?_⟩
  have hlen := (List.getElem?_eq_some_iff.mp hi).1
  rw [List.length_append, List.length_singleton] at hlen
  have hi64 : i < 64 := by omega
  rw [load, dif_pos hi64]
  by_cases hil : i = l.length
  · subst hil
    rw [List.getElem?_concat_length] at hi
    rw [Function.update_self, hi]
  · have hne : (⟨i, hi64⟩ : Fin 64) ≠ ⟨l.length, hl⟩ := fun heq => hil (congrArg Fin.val heq)
    rw [List.getElem?_append_left (by omega)] at hi
    have hload := h i c' hi
    rw [load, dif_pos hi64] at hload
    rw [Function.update_of_ne hne, hload]

end PrintBuf

theorem digit_getElem (hd : d < 16) : digit[d]? = some (digitChar d) := by
  revert d
  decide

/-- **The first loop** puts the numeral behind what is in `buf`, the last digit first. -/
theorem writeDigits_numeral {base : BitVec 64} (hb : 1 < base.toNat) (hbase : base.toNat ≤ 16)
    {fuel : ℕ} {buf : PrintBuf} {v : BitVec 64} (hbuf : buf.Holds l)
    (hfuel : (numeral base.toNat v.toNat).length ≤ fuel)
    (hroom : l.length + (numeral base.toNat v.toNat).length ≤ 64) :
    ∃ buf', writeDigits base fuel buf l.length v =
        some (buf', l.length + (numeral base.toNat v.toNat).length) ∧
      buf'.Holds (l ++ ((numeral base.toNat v.toNat).map digitChar).reverse) := by
  induction fuel generalizing buf v l with
  | zero =>
    exact absurd (List.length_pos_iff.mpr (numeral_ne_nil base.toNat v.toNat)) (by omega)
  | succ fuel ih =>
    have hdigit : digit[(v % base).toNat]? = some (digitChar (v.toNat % base.toNat)) := by
      rw [BitVec.toNat_umod]
      exact digit_getElem (lt_of_lt_of_le (Nat.mod_lt _ (by omega)) hbase)
    have hpos := List.length_pos_iff.mpr (numeral_ne_nil base.toNat v.toNat)
    obtain ⟨buf', hstore, hbuf'⟩ := hbuf.store (by omega) (digitChar (v.toNat % base.toNat))
    rw [writeDigits, hdigit]
    simp only [Option.bind_eq_bind, Option.bind_some, hstore]
    by_cases hlt : v.toNat < base.toNat
    · have hzero : v / base = 0 := by
        refine BitVec.eq_of_toNat_eq ?_
        rw [BitVec.toNat_udiv, Nat.div_eq_of_lt hlt]
        rfl
      rw [numeral_of_lt hlt, if_pos hzero]
      rw [Nat.mod_eq_of_lt hlt] at hbuf'
      exact ⟨buf', rfl, hbuf'⟩
    · -- the other digits are those of the quotient
      have hdiv := numeral_div hb (Nat.le_of_not_lt hlt)
      have hnonzero : v / base ≠ 0 := by
        intro heq
        have hquot := congrArg BitVec.toNat heq
        rw [BitVec.toNat_udiv] at hquot
        exact absurd hquot (Nat.div_pos (Nat.le_of_not_lt hlt) (by omega)).ne'
      rw [hdiv, List.length_append, List.length_singleton] at hfuel hroom
      rw [← BitVec.toNat_udiv] at hdiv hfuel hroom
      obtain ⟨buf'', hwrite, hbuf''⟩ := ih hbuf' (v := v / base) (by omega) (by
        rw [List.length_append, List.length_singleton]
        omega)
      rw [List.length_append, List.length_singleton] at hwrite
      rw [if_neg hnonzero, hwrite, hdiv]
      refine ⟨buf'', ?_, ?_⟩
      · rw [List.length_append, List.length_singleton, Nat.add_assoc, Nat.add_comm 1]
      · rw [List.map_append, List.reverse_append]
        rwa [List.append_assoc] at hbuf''

/-- **The second loop** emits what is in `buf` from its end. -/
theorem emitDigits_reverse (putChar : κ → UInt8 → κ) {buf : PrintBuf} (hne : l ≠ [])
    (hbuf : buf.Holds l) (ctx : κ) :
    emitDigits putChar buf ctx l.length = some (l.reverse.foldl putChar ctx) := by
  induction l using List.reverseRecOn generalizing ctx with
  | nil => exact absurd rfl hne
  | append_singleton l c ih =>
    have hload : buf.load l.length = some c := hbuf _ _ List.getElem?_concat_length
    have hfront : buf.Holds l := fun i c' hi => by
      refine hbuf i c' ?_
      rwa [List.getElem?_append_left (List.getElem?_eq_some_iff.mp hi).1]
    rw [List.length_append, List.length_singleton, emitDigits, hload, List.reverse_append]
    simp only [Option.bind_eq_bind, Option.bind_some]
    by_cases hnil : l = []
    · rw [hnil, if_pos List.length_nil]
      rfl
    · rw [if_neg (mt List.length_eq_zero_iff.mp hnil), ih hnil hfront]
      rfl

/-- Both loops: 20 digits are enough for a word. -/
theorem emitDigits_writeDigits (putChar : κ → UInt8 → κ) (buf : PrintBuf) (v : BitVec 64)
    {base : BitVec 64} {fuel : ℕ} (hb : 1 < base.toNat) (hbase : base.toNat ≤ 16)
    (hpow : 2 ^ 64 < base.toNat ^ 20) (hfuel : 20 ≤ fuel) :
    ∃ buf' pos, writeDigits base fuel buf 0 v = some (buf', pos) ∧
      ∀ ctx, emitDigits putChar buf' ctx pos =
        some (((numeral base.toNat v.toNat).map digitChar).foldl putChar ctx) := by
  have hlen : (numeral base.toNat v.toNat).length ≤ 20 :=
    length_numeral_le hb (by decide) (lt_trans v.isLt hpow)
  have hempty : buf.Holds [] := fun i c hi => by simp at hi
  have hroom : ([] : List UInt8).length + (numeral base.toNat v.toNat).length ≤ 64 := by
    rw [List.length_nil]
    omega
  obtain ⟨buf', hwrite, hbuf'⟩ := writeDigits_numeral hb hbase hempty (hlen.trans hfuel) hroom
  rw [List.length_nil, Nat.zero_add] at hwrite
  rw [List.nil_append] at hbuf'
  refine ⟨buf', _, hwrite, fun ctx => ?_⟩
  have hne : ((numeral base.toNat v.toNat).map digitChar).reverse ≠ [] :=
    List.reverse_ne_nil_iff.mpr (mt List.map_eq_nil_iff.mp (numeral_ne_nil _ _))
  have hemit := emitDigits_reverse putChar hne hbuf' ctx
  rwa [List.length_reverse, List.length_map, List.reverse_reverse] at hemit

/-! ### `_print_int` -/

theorem printed_neg_iff (u : BitVec 64) (isSigned : Bool) :
    (isSigned && u.slt 0) = true ↔ printed u isSigned < 0 := by
  cases isSigned with
  | false => exact iff_of_false Bool.false_ne_true (Int.not_lt.mpr (Int.natCast_nonneg u.toNat))
  | true => exact BitVec.slt_iff_toInt_lt

/-- The word that is divided is the magnitude of the number, also of the lowest one. -/
theorem printed_natAbs (u : BitVec 64) (isSigned : Bool) :
    (if isSigned && u.slt 0 then -u else u).toNat = (printed u isSigned).natAbs := by
  have hu := u.isLt
  by_cases hneg : printed u isSigned < 0
  · rw [if_pos ((printed_neg_iff u isSigned).mpr hneg)]
    cases isSigned with
    | false => exact absurd hneg (Int.not_lt.mpr (Int.natCast_nonneg u.toNat))
    | true =>
      have hint : printed u true = u.toInt := rfl
      rw [hint, BitVec.toInt_eq_toNat_cond] at hneg ⊢
      rw [BitVec.toNat_neg]
      split at hneg <;> omega
  · rw [if_neg (mt (printed_neg_iff u isSigned).mp hneg)]
    cases isSigned with
    | false => rfl
    | true =>
      have hint : printed u true = u.toInt := rfl
      rw [hint, BitVec.toInt_eq_toNat_cond] at hneg ⊢
      split at hneg <;> omega

/-- **`_print_int`** prints the canonical string of the number, in base 10 and 16, and keeps to
`buf`. -/
theorem printInt_canonical (putChar : κ → UInt8 → κ) (buf : PrintBuf) (ctx : κ) (u : BitVec 64)
    {base : BitVec 32} (isSigned : Bool) {fuel : ℕ} (hbase : base = 10 ∨ base = 16)
    (hfuel : 20 ≤ fuel) :
    ∃ s buf', printInt putChar fuel buf ctx u base isSigned =
        some (s.foldl putChar ctx, buf') ∧
      Canonical base.toNat (printed u isSigned) s := by
  have hext : (base.signExtend 64).toNat = base.toNat := by
    rcases hbase with rfl | rfl <;> rfl
  obtain ⟨hone, hsixteen, hpow⟩ : 1 < base.toNat ∧ base.toNat ≤ 16 ∧ 2 ^ 64 < base.toNat ^ 20 := by
    rcases hbase with rfl | rfl <;> decide
  have hneg := printed_neg_iff u isSigned
  obtain ⟨buf', pos, hwrite, hemit⟩ := emitDigits_writeDigits putChar buf
    (if isSigned && u.slt 0 then -u else u) (hext.symm ▸ hone) (hext.symm ▸ hsixteen)
    (hext.symm ▸ hpow) hfuel
  rw [hext, printed_natAbs] at hemit
  refine ⟨intNumeral base.toNat (printed u isSigned), buf', ?_, canonical_intNumeral hone hsixteen _⟩
  unfold printInt
  simp only [Option.bind_eq_bind, hwrite, Option.bind_some, hemit]
  rw [intNumeral, List.foldl_append]
  by_cases hz : printed u isSigned < 0
  · rw [if_pos hz, if_pos (hneg.mpr hz)]
    rfl
  · rw [if_neg hz, if_neg (mt hneg.mp hz)]
    rfl

/-- The lowest number, and the same word without a sign in base 16. -/
theorem printInt_canonical_lowest :
    (∃ s buf', printInt (fun l c => l ++ [c]) 20 (fun _ => 0) [] (BitVec.intMin 64) 10 true =
      some (s.foldl (fun l c => l ++ [c]) [], buf') ∧ Canonical 10 (-9223372036854775808) s) ∧
    ∃ s buf', printInt (fun l c => l ++ [c]) 20 (fun _ => 0) [] (BitVec.intMin 64) 16 false =
      some (s.foldl (fun l c => l ++ [c]) [], buf') ∧ Canonical 16 9223372036854775808 s :=
  ⟨printInt_canonical _ _ _ (BitVec.intMin 64) true (Or.inl rfl) le_rfl,
    printInt_canonical _ _ _ (BitVec.intMin 64) false (Or.inr rfl) le_rfl⟩

end OsLab
