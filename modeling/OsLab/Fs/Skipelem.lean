/-
`skipelem` of `fs/inode.c`: the elements of a path, one after another.

`Memory.StrAt m p s` says that the string `s` is at `p`.  The elements of a path are the
non-empty parts between its slashes (`pathElems`).

* `skipWhile_strAt` — each of the three loops stops at the first byte that it does not skip;
* `copyElem_name` — what comes into `name`;
* `exists_elem` — the parts of a string with an element;
* `skipelem_some`, `skipelem_none` — one call;
* `skipelems_pathElems` — calls on their own results, until one returns a null pointer.
-/
import OsLab.Common.Memmove
import OsLab.Fs.Directory
import Mathlib.Data.List.TakeWhile

namespace OsLab

/-- `'/'` -/
abbrev slash : UInt8 := 47

/-- `while (skip(*path)) path++;`: `none` when the fuel runs out. -/
def skipWhile (skip : UInt8 → Bool) (m : Memory) : ℕ → BitVec 64 → Option (BitVec 64)
  | 0, _ => none
  | fuel + 1, path => if skip (m path) then skipWhile skip m fuel (path + 1) else some path

/-- `*path == '/'` -/
def isSlash (b : UInt8) : Bool := b = slash

/-- `*path != '/' && *path != 0` -/
def inElem (b : UInt8) : Bool := b ≠ slash ∧ b ≠ 0

/-- The copy of the element at `s` to `name`; `len` is an `int`. -/
def copyElem (m : Memory) (name s : BitVec 64) (len : BitVec 32) : Memory :=
  if (fileNameMaxLength : ℤ) ≤ len.toInt then
    (memmove m name s (BitVec.ofNat 64 fileNameMaxLength)).2
  else
    Function.update (memmove m name s (len.signExtend 64)).2 (name + len.signExtend 64) 0

/-- `skipelem`: the pointer that it returns, with `none` for a null pointer, and the memory. -/
def skipelem (fuel : ℕ) (m : Memory) (path name : BitVec 64) :
    Option (Option (BitVec 64) × Memory) := do
  let path ← skipWhile isSlash m fuel path
  if m path = 0 then return (none, m)
  let s := path
  let path ← skipWhile inElem m fuel path
  let len := (path - s).setWidth 32
  let m := copyElem m name s len
  let path ← skipWhile isSlash m fuel path
  return (some path, m)

/-- `while ((path = skipelem(path, name)) != NULL)`: the results, and the memory after each
call. -/
def skipelems (fuel : ℕ) : ℕ → Memory → BitVec 64 → BitVec 64 →
    Option (List (BitVec 64 × Memory))
  | 0, _, _, _ => none
  | n + 1, m, path, name => do
    match ← skipelem fuel m path name with
    | (none, _) => return []
    | (some path, m) => return (path, m) :: (← skipelems fuel n m path name)

/-- The elements of a path. -/
def pathElems (s : List UInt8) : List (List UInt8) := (s.splitOn slash).filter fun e => e ≠ []

/-- The string `s` is at `p`. -/
def Memory.StrAt (m : Memory) : BitVec 64 → List UInt8 → Prop
  | p, [] => m p = 0
  | p, b :: s => m p = b ∧ b ≠ 0 ∧ m.StrAt (p + 1) s

variable {m m' : Memory} {p path name : BitVec 64} {s t e : List UInt8} {fuel : ℕ}

/-! ### Strings in memory -/

namespace Memory.StrAt

theorem drop (h : m.StrAt p (s ++ t)) : m.StrAt (p + BitVec.ofNat 64 s.length) t := by
  induction s generalizing p with
  | nil => simpa using h
  | cons b s ih =>
    have hrest := ih h.2.2
    rwa [List.length_cons, offset_succ]

theorem getElem (h : m.StrAt p s) {i : ℕ} (hi : i < s.length) :
    m (p + BitVec.ofNat 64 i) = s[i] := by
  induction s generalizing p i with
  | nil => exact absurd hi (Nat.not_lt_zero i)
  | cons b s ih =>
    cases i with
    | zero => simpa using h.1
    | succ i =>
      have hrest := ih h.2.2 (Nat.lt_of_succ_lt_succ hi)
      rwa [offset_succ]

theorem ne_zero (h : m.StrAt p s) : ∀ b ∈ s, b ≠ 0 := by
  induction s generalizing p with
  | nil => nofun
  | cons b s ih => exact List.forall_mem_cons.mpr ⟨h.2.1, ih h.2.2⟩

/-- The string stays when none of its bytes changes. -/
theorem congr (h : m.StrAt p s)
    (heq : ∀ i ≤ s.length, m' (p + BitVec.ofNat 64 i) = m (p + BitVec.ofNat 64 i)) :
    m'.StrAt p s := by
  have hfirst : m' p = m p := by simpa using heq 0 (Nat.zero_le _)
  induction s generalizing p with
  | nil => exact hfirst.trans h
  | cons b s ih =>
    have hrest : ∀ i ≤ s.length, m' (p + 1 + BitVec.ofNat 64 i) = m (p + 1 + BitVec.ofNat 64 i) := by
      intro i hi
      have hi' := heq (i + 1) (Nat.succ_le_succ hi)
      rwa [offset_succ] at hi'
    refine ⟨hfirst.trans h.1, h.2.1, ih h.2.2 hrest ?_⟩
    simpa using hrest 0 (Nat.zero_le _)

end Memory.StrAt

/-- A loop stops at the first byte that it does not skip. -/
theorem skipWhile_strAt (skip : UInt8 → Bool) (hzero : skip 0 = false) (h : m.StrAt p s)
    (hfuel : s.length < fuel) :
    skipWhile skip m fuel p = some (p + BitVec.ofNat 64 (s.takeWhile skip).length) := by
  induction s generalizing p fuel with
  | nil =>
    obtain ⟨n, rfl⟩ : ∃ n, fuel = n + 1 := ⟨fuel - 1, by simp at hfuel; omega⟩
    have hp : m p = 0 := h
    rw [skipWhile, hp, if_neg (by simp [hzero])]
    simp
  | cons b s ih =>
    obtain ⟨n, rfl⟩ : ∃ n, fuel = n + 1 := ⟨fuel - 1, by simp at hfuel; omega⟩
    rw [skipWhile, h.1]
    by_cases hb : skip b = true
    · rw [if_pos hb, ih h.2.2 (Nat.lt_of_succ_lt_succ hfuel), List.takeWhile_cons_of_pos hb,
        List.length_cons, offset_succ]
    · rw [if_neg hb, List.takeWhile_cons_of_neg hb]
      simp

/-- What comes behind the bytes that a loop skips. -/
theorem head_dropWhile (skip : UInt8 → Bool) (s : List UInt8) {b : UInt8}
    (hb : b ∈ (s.dropWhile skip).head?) : skip b = false := by
  have hnot := List.head?_dropWhile_not skip s
  rw [Option.mem_def.mp hb] at hnot
  exact Bool.eq_false_iff.mpr (by simpa using hnot)

/-! ### The elements -/

theorem pathElems_slash : pathElems (slash :: s) = pathElems s := by
  have hnil : slash ∉ ([] : List UInt8) := List.not_mem_nil
  have hsplit : (slash :: s).splitOn slash = [] :: s.splitOn slash :=
    List.splitOn_append_cons_self_of_not_mem hnil s
  rw [pathElems, hsplit, List.filter_cons_of_neg (by simp), pathElems]

theorem pathElems_dropWhile : pathElems (s.dropWhile isSlash) = pathElems s := by
  induction s with
  | nil => rfl
  | cons b s ih =>
    by_cases hb : b = slash
    · rw [List.dropWhile_cons_of_pos (by simpa [isSlash] using hb), ih, hb, pathElems_slash]
    · rw [List.dropWhile_cons_of_neg (by simpa [isSlash] using hb)]

/-- A first element that ends at a slash or with the string. -/
theorem pathElems_append (hc : e ≠ []) (hslash : slash ∉ e) (ht : ∀ b ∈ t.head?, b = slash) :
    pathElems (e ++ t) = e :: pathElems t := by
  cases t with
  | nil =>
    rw [List.append_nil, pathElems, List.splitOn_eq_singleton hslash,
      List.filter_cons_of_pos (by simpa using hc)]
    rfl
  | cons b t =>
    obtain rfl : b = slash := ht b rfl
    rw [pathElems, List.splitOn_append_cons_self_of_not_mem hslash,
      List.filter_cons_of_pos (by simpa using hc), pathElems_slash, pathElems]

/-! ### The copy -/

/-- `name` is the element `e`, with a NUL if there is room for it, and cut off otherwise. -/
structure Memory.HasName (m : Memory) (name : BitVec 64) (e : List UInt8) : Prop where
  bytes : ∀ j < fileNameMaxLength, ∀ hj : j < e.length, m (name + BitVec.ofNat 64 j) = e[j]
  nul : e.length < fileNameMaxLength → m (name + BitVec.ofNat 64 e.length) = 0

/-- The element is copied, and nothing else is written than the bytes of `name`. -/
theorem copyElem_name (hbytes : ∀ j (hj : j < e.length), m (p + BitVec.ofNat 64 j) = e[j])
    (hshort : e.length < 2 ^ 31) (hp : p.toNat + e.length ≤ 2 ^ 64)
    (hname : name.toNat + fileNameMaxLength ≤ 2 ^ 64) :
    (copyElem m name p (BitVec.ofNat 32 e.length)).HasName name e ∧
    ∀ a, (∀ j < fileNameMaxLength, a ≠ name + BitVec.ofNat 64 j) →
      copyElem m name p (BitVec.ofNat 32 e.length) a = m a := by
  have hlen : (BitVec.ofNat 32 e.length).toInt = e.length := by
    rw [BitVec.toInt_ofNat', Int.bmod_eq_of_le (by omega) (by omega)]
  have hext : (BitVec.ofNat 32 e.length).signExtend 64 = BitVec.ofNat 64 e.length := by
    rw [BitVec.signExtend, hlen]
    rfl
  have hnat : (BitVec.ofNat 64 e.length).toNat = e.length := by
    rw [BitVec.toNat_ofNat]
    exact Nat.mod_eq_of_lt (by omega)
  unfold copyElem
  rw [hlen, hext]
  by_cases hlong : fileNameMaxLength ≤ e.length
  · -- the element is cut off
    have hfull : (BitVec.ofNat 64 fileNameMaxLength).toNat = fileNameMaxLength := rfl
    rw [if_pos (by exact_mod_cast hlong), memmove_moved (by omega) (by omega)]
    refine ⟨⟨?_, fun hlt => absurd hlong (by omega)⟩, ?_⟩
    · intro j hj hjc
      rw [← hbytes j hjc]
      exact moved_at (by decide) hj
    · intro a ha
      exact moved_of_ne ha
  · have hlt : e.length < fileNameMaxLength := by omega
    rw [if_neg (by exact_mod_cast hlong), memmove_moved (hnat.symm ▸ hp) (by omega), hnat]
    refine ⟨⟨?_, fun _ => Function.update_self _ _ _⟩, ?_⟩
    · intro j hj hjc
      -- the NUL is behind all bytes of the element
      have hne : name + BitVec.ofNat 64 j ≠ name + BitVec.ofNat 64 e.length := by
        simp only [fileNameMaxLength] at hlt
        bv_omega
      rw [Function.update_of_ne hne, ← hbytes j hjc]
      exact moved_at (by omega) hjc
    · intro a ha
      rw [Function.update_of_ne (ha _ hlt)]
      exact moved_of_ne fun k hk => ha k (by omega)

/-! ### The calls -/

/-- The arguments of a call: the string `s` is at `path`, shorter than an `int` can say, and
`name` is elsewhere. -/
structure PathArgs (m : Memory) (path name : BitVec 64) (s : List UInt8) : Prop where
  str : m.StrAt path s
  short : s.length < 2 ^ 31
  path_le : path.toNat + s.length < 2 ^ 64
  name_le : name.toNat + fileNameMaxLength ≤ 2 ^ 64
  apart : ∀ i ≤ s.length, ∀ j < fileNameMaxLength,
    path + BitVec.ofNat 64 i ≠ name + BitVec.ofNat 64 j

namespace PathArgs

/-- The same for a later part of the string, when only `name` has been written. -/
theorem rest (h : PathArgs m path name (s ++ t))
    (hframe : ∀ a, (∀ j < fileNameMaxLength, a ≠ name + BitVec.ofNat 64 j) → m' a = m a) :
    PathArgs m' (path + BitVec.ofNat 64 s.length) name t := by
  have hlen : (s ++ t).length = s.length + t.length := List.length_append
  have hle := h.path_le
  have hshort := h.short
  have hadd : ∀ i, path + BitVec.ofNat 64 s.length + BitVec.ofNat 64 i =
      path + BitVec.ofNat 64 (s.length + i) := by
    intro i
    rw [BitVec.ofNat_add, BitVec.add_assoc]
  constructor
  case str => exact (h.str.congr fun i hi => hframe _ (h.apart i hi)).drop
  case short => omega
  case path_le => bv_omega
  case name_le => exact h.name_le
  case apart =>
    intro i hi
    rw [hadd]
    exact h.apart _ (by omega)

end PathArgs

/-- A string of slashes has no element. -/
theorem skipelem_none (h : m.StrAt path s) (hfuel : s.length < fuel)
    (hrest : s.dropWhile isSlash = []) : skipelem fuel m path name = some (none, m) := by
  have hall : s.takeWhile isSlash = s := by
    have happ := List.takeWhile_append_dropWhile (p := isSlash) (l := s)
    rwa [hrest, List.append_nil] at happ
  have hend : m (path + BitVec.ofNat 64 s.length) = 0 :=
    Memory.StrAt.drop (s := s) (t := []) (by rwa [List.append_nil])
  unfold skipelem
  rw [skipWhile_strAt isSlash rfl h hfuel, hall]
  simp [hend]

/-- A string with an element: the slashes in front of it, the element, and what is behind it,
with its slashes first. -/
theorem exists_elem (hzero : ∀ x ∈ s, x ≠ 0) (hrest : s.dropWhile isSlash ≠ []) :
    ∃ a e u b tail : List UInt8, s = a ++ (e ++ u) ∧ u = b ++ tail ∧ e ≠ [] ∧
      s.takeWhile isSlash = a ∧ (e ++ u).takeWhile inElem = e ∧ u.takeWhile isSlash = b ∧
      tail.head? ≠ some slash ∧ pathElems s = e :: pathElems tail := by
  obtain ⟨a, r, ha, hr, hsr⟩ : ∃ a r, s.takeWhile isSlash = a ∧ s.dropWhile isSlash = r ∧
      s = a ++ r := ⟨_, _, rfl, rfl, List.takeWhile_append_dropWhile.symm⟩
  obtain ⟨e, u, he, hu, hru⟩ : ∃ e u, r.takeWhile inElem = e ∧ r.dropWhile inElem = u ∧
      r = e ++ u := ⟨_, _, rfl, rfl, List.takeWhile_append_dropWhile.symm⟩
  obtain ⟨b, tail, hb, htail, hut⟩ : ∃ b tail, u.takeWhile isSlash = b ∧
      u.dropWhile isSlash = tail ∧ u = b ++ tail :=
    ⟨_, _, rfl, rfl, List.takeWhile_append_dropWhile.symm⟩
  -- the first byte behind the slashes belongs to the element
  have hene : e ≠ [] := by
    obtain ⟨d, r', hdr⟩ := List.exists_cons_of_ne_nil (hr ▸ hrest : r ≠ [])
    have hslash : isSlash d = false := head_dropWhile _ s (by rw [hr, hdr]; rfl)
    have hd0 : d ≠ 0 := hzero d (by rw [hsr, hdr]; simp)
    have hd : inElem d = true := by simpa [inElem, isSlash, hd0] using hslash
    rw [← he, hdr, List.takeWhile_cons_of_pos hd]
    exact List.cons_ne_nil _ _
  have heslash : slash ∉ e := by
    intro hmem
    rw [← he] at hmem
    exact absurd (List.mem_takeWhile_imp (p := inElem) hmem) (by decide)
  -- and it ends at a slash, as no NUL is in the string
  have huslash : ∀ x ∈ u.head?, x = slash := by
    intro x hx
    have hin : inElem x = false := head_dropWhile _ r (by rwa [hu])
    have hx0 : x ≠ 0 := hzero x (by
      rw [hsr, hru]
      exact List.mem_append_right _ (List.mem_append_right _ (List.mem_of_mem_head? hx)))
    simpa [inElem, hx0] using hin
  have htailne : tail.head? ≠ some slash := by
    intro heq
    exact absurd (head_dropWhile isSlash u (by rw [htail]; exact heq)) (by decide)
  have helems : pathElems s = e :: pathElems tail := by
    rw [← pathElems_dropWhile, hr, hru, pathElems_append hene heslash huslash,
      ← pathElems_dropWhile (s := u), htail]
  exact ⟨a, e, u, b, tail, hru ▸ hsr, hut, hene, ha, hru ▸ he, hb, htailne, helems⟩

/-- Otherwise the first element comes into `name`, and the call returns a pointer to what follows
it and its slashes. -/
theorem skipelem_some (h : PathArgs m path name s) (hfuel : s.length < fuel)
    (hrest : s.dropWhile isSlash ≠ []) :
    ∃ (e l tail : List UInt8) (m' : Memory), s = l ++ tail ∧ tail.head? ≠ some slash ∧
      pathElems s = e :: pathElems tail ∧
      skipelem fuel m path name = some (some (path + BitVec.ofNat 64 l.length), m') ∧
      m'.HasName name e ∧
      ∀ a, (∀ j < fileNameMaxLength, a ≠ name + BitVec.ofNat 64 j) → m' a = m a := by
  obtain ⟨a, e, u, b, tail, hs, hu, hene, ha, he, hb, htail, helems⟩ :=
    exists_elem h.str.ne_zero hrest
  have hlen : s.length = a.length + (e.length + u.length) := by
    rw [hs, List.length_append, List.length_append]
  have hargs : PathArgs m (path + BitVec.ofNat 64 a.length) name (e ++ u) :=
    (hs ▸ h : PathArgs m path name (a ++ (e ++ u))).rest fun _ _ => rfl
  -- the copy
  have hargs_le := hargs.path_le
  have hargs_short := hargs.short
  rw [List.length_append] at hargs_le hargs_short
  have hbytes : ∀ j (hj : j < e.length),
      m (path + BitVec.ofNat 64 a.length + BitVec.ofNat 64 j) = e[j] := by
    intro j hj
    have hbyte := hargs.str.getElem (i := j) (by rw [List.length_append]; omega)
    rwa [List.getElem_append_left hj] at hbyte
  obtain ⟨hname, hframe⟩ := copyElem_name hbytes (by omega) (by omega) hargs.name_le
  have hafter := (hargs.rest hframe).str
  -- the three loops
  have hfuel₂ : (e ++ u).length < fuel := by
    rw [List.length_append]
    omega
  have hfuel₃ : u.length < fuel := by omega
  have hfirst := skipWhile_strAt isSlash rfl h.str hfuel
  have hsecond := skipWhile_strAt inElem rfl hargs.str hfuel₂
  have hthird := skipWhile_strAt isSlash rfl hafter hfuel₃
  rw [ha] at hfirst
  rw [he] at hsecond
  rw [hb] at hthird
  have hnonzero : m (path + BitVec.ofNat 64 a.length) ≠ 0 := by
    obtain ⟨d, e', rfl⟩ := List.exists_cons_of_ne_nil hene
    have hstr := hargs.str
    rw [hstr.1]
    exact hstr.2.1
  have hdist : ((path + BitVec.ofNat 64 a.length + BitVec.ofNat 64 e.length) -
      (path + BitVec.ofNat 64 a.length)).setWidth 32 = BitVec.ofNat 32 e.length := by
    rw [BitVec.add_comm _ (BitVec.ofNat 64 e.length), BitVec.add_sub_cancel]
    exact BitVec.setWidth_ofNat_of_le (by decide) _
  refine ⟨e, a ++ (e ++ b), tail, _, ?_, htail, helems, ?_, hname, hframe⟩
  · rw [hs, hu]
    simp only [List.append_assoc]
  · have hptr : path + BitVec.ofNat 64 (a ++ (e ++ b)).length =
        path + BitVec.ofNat 64 a.length + BitVec.ofNat 64 e.length + BitVec.ofNat 64 b.length := by
      rw [List.length_append, List.length_append, BitVec.ofNat_add, BitVec.ofNat_add,
        BitVec.add_assoc, BitVec.add_assoc]
    unfold skipelem
    rw [hptr, hfirst]
    simp only [Option.bind_eq_bind, Option.bind_some, if_neg hnonzero, hsecond, hdist, hthird]
    rfl

/-- **The elements of a path.**  The calls of `skipelem` on their own results end with a null
pointer, and come to the non-empty parts between the slashes in order: each is in `name` then,
the result points to the next one or to the end of the string, and nothing but the bytes of
`name` has been written. -/
theorem skipelems_pathElems {n : ℕ} (h : PathArgs m path name s) (hfuel : s.length < fuel)
    (hn : (pathElems s).length < n) :
    ∃ calls, skipelems fuel n m path name = some calls ∧
      calls.length = (pathElems s).length ∧
      ∀ (i : ℕ) (e : List UInt8), (pathElems s)[i]? = some e → ∃ (k : ℕ) (m' : Memory),
        calls[i]? = some (path + BitVec.ofNat 64 k, m') ∧ k ≤ s.length ∧
        (s.drop k).head? ≠ some slash ∧ pathElems (s.drop k) = (pathElems s).drop (i + 1) ∧
        m'.HasName name e ∧
        ∀ a, (∀ j < fileNameMaxLength, a ≠ name + BitVec.ofNat 64 j) → m' a = m a := by
  induction n generalizing m path s with
  | zero => exact absurd hn (Nat.not_lt_zero _)
  | succ n ih =>
    by_cases hrest : s.dropWhile isSlash = []
    · have hnil : pathElems s = [] := by rw [← pathElems_dropWhile, hrest]; rfl
      refine ⟨[], ?_, by rw [hnil]; rfl, fun i e hc => ?_⟩
      · rw [skipelems, skipelem_none h.str hfuel hrest]
        rfl
      · rw [hnil] at hc
        cases hc
    · obtain ⟨e, l, tail, m₁, rfl, htail, helems, hcall, hname, hframe⟩ :=
        skipelem_some h hfuel hrest
      have hlen : (l ++ tail).length = l.length + tail.length := List.length_append
      obtain ⟨calls, hcalls, hcount, hall⟩ := ih (h.rest hframe) (by omega)
        (by rw [helems, List.length_cons] at hn; omega)
      refine ⟨(path + BitVec.ofNat 64 l.length, m₁) :: calls, ?_, ?_, ?_⟩
      · rw [skipelems, hcall]
        simp only [Option.bind_eq_bind, Option.bind_some, hcalls]
        rfl
      · rw [helems, List.length_cons, List.length_cons, hcount]
      · intro i e' hc'
        rw [helems] at hc' ⊢
        cases i with
        | zero =>
          obtain rfl := Option.some.inj hc'
          refine ⟨l.length, m₁, rfl, by omega, ?_, ?_, hname, hframe⟩
          · rwa [List.drop_left]
          · rw [List.drop_left]
            rfl
        | succ i =>
          -- the later calls are those on the rest of the string
          obtain ⟨k, m', hget, hk, hhead, hdrop, hname', hframe'⟩ := hall i e' hc'
          refine ⟨l.length + k, m', ?_, by omega, ?_, ?_, hname', ?_⟩
          · rw [List.getElem?_cons_succ, hget, BitVec.ofNat_add, BitVec.add_assoc]
          · rwa [← List.drop_drop, List.drop_left]
          · rw [← List.drop_drop, List.drop_left, hdrop]
            rfl
          · intro a ha
            rw [hframe' a ha, hframe a ha]

/-- The path `/ab/c`. -/
theorem skipelems_two : ∃ (m : Memory) (calls : List (BitVec 64 × Memory)),
    m.StrAt 0x1000 [47, 97, 98, 47, 99] ∧ skipelems 6 3 m 0x1000 0x2000 = some calls ∧
    calls.length = 2 ∧ ∃ p m', calls[0]? = some (p, m') ∧ m'.HasName 0x2000 [97, 98] := by
  obtain ⟨m, hstr⟩ : ∃ m : Memory, m.StrAt 0x1000 [47, 97, 98, 47, 99] :=
    ⟨fun a => [47, 97, 98, 47, 99].getD (a.toNat - 0x1000) 0, by simp [Memory.StrAt]⟩
  have hargs : PathArgs m 0x1000 0x2000 [47, 97, 98, 47, 99] := by
    refine ⟨hstr, by decide, by decide, by decide, fun i hi j hj => ?_⟩
    simp only [List.length_cons, List.length_nil, fileNameMaxLength] at hi hj
    bv_omega
  have hfuel : [47, 97, 98, 47, 99].length < 6 := by decide
  have hn : (pathElems [47, 97, 98, 47, 99]).length < 3 := by decide
  obtain ⟨calls, hcalls, hlen, hall⟩ := skipelems_pathElems hargs hfuel hn
  obtain ⟨k, m', hget, -, -, -, hname, -⟩ := hall 0 [97, 98] (by decide)
  exact ⟨m, calls, hstr, hcalls, hlen, _, m', hget, hname⟩

end OsLab
