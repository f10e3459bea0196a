/-
Ring buffers with free-running counters.

The counters `head` and `tail` have `width` bits and are never reset; a buffer has
`size` slots, and a counter belongs to slot `counter % size`.  When `size` divides
`2 ^ width`, the slots go round across the wrap of the counters:

* `Ring.contents` — the values between the counters, oldest first;
* `Ring.contents_push`, `Ring.contents_pop` — what storing at `tail` and fetching from
  `head` do to them;
* `Ring.full_iff`, `Ring.empty_iff` — the tests on the counters tell the two apart.
-/
import Mathlib.Data.BitVec
import Mathlib.Data.Nat.ModEq
import Mathlib.Logic.Function.Basic
import Mathlib.Tactic.Common
import Mathlib.Tactic.Ring

namespace OsLab.Ring

variable {α : Type*} {size width : ℕ}

/-- The slot of a counter. -/
def slot (size : ℕ) [NeZero size] (counter : BitVec width) : Fin size :=
  Fin.ofNat size counter.toNat

/-- How many values there are between the counters. -/
def count (head tail : BitVec width) : ℕ := (tail - head).toNat

/-- The values between the counters, oldest first. -/
def contents [NeZero size] (data : Fin size → α) (head tail : BitVec width) : List α :=
  (List.range (count head tail)).map fun k => data (slot size (head + BitVec.ofNat width k))

/-! ### Counters -/

section counters

variable {head tail : BitVec width}

@[simp] theorem count_self : count head head = 0 := by
  rw [count, sub_self]
  rfl

theorem empty_iff : head = tail ↔ count head tail = 0 := by
  constructor
  · rintro rfl
    exact count_self
  · intro h
    have hzero : tail - head = 0 := BitVec.eq_of_toNat_eq h
    exact (sub_eq_zero.mp hzero).symm

/-- `tail` is as far behind `head` as the count says. -/
theorem tail_eq : tail = head + BitVec.ofNat width (count head tail) := by
  rw [count, BitVec.ofNat_toNat, BitVec.setWidth_eq]
  ring

theorem full_iff (hsize : size < 2 ^ width) :
    tail = head + BitVec.ofNat width size ↔ count head tail = size := by
  constructor
  · rintro rfl
    rw [count, add_sub_cancel_left, BitVec.toNat_ofNat, Nat.mod_eq_of_lt hsize]
  · intro h
    rw [← h]
    exact tail_eq

/-- Storing adds one, as long as the count does not wrap. -/
theorem count_push (hlt : count head tail + 1 < 2 ^ width) :
    count head (tail + 1) = count head tail + 1 := by
  have hshift : tail + 1 - head = (tail - head) + BitVec.ofNat width 1 := by
    show tail + 1 - head = (tail - head) + 1
    ring
  rw [count, hshift, BitVec.toNat_add, BitVec.toNat_ofNat, Nat.add_mod_mod]
  exact Nat.mod_eq_of_lt hlt

/-- Fetching takes one off. -/
theorem count_pop (hpos : 0 < count head tail) :
    count (head + 1) tail + 1 = count head tail := by
  obtain ⟨n, hn⟩ : ∃ n, count head tail = n + 1 := ⟨_, (Nat.succ_pred_eq_of_pos hpos).symm⟩
  have hlt : count head tail < 2 ^ width := BitVec.isLt _
  have htail : tail - (head + 1) = BitVec.ofNat width n := by
    have heq : tail - head = BitVec.ofNat width n + 1 := by
      calc tail - head
          = BitVec.ofNat width (count head tail) := by
            rw [count, BitVec.ofNat_toNat, BitVec.setWidth_eq]
        _ = BitVec.ofNat width n + 1 := by
            rw [hn]
            exact BitVec.ofNat_add n 1
    rw [← sub_sub, heq]
    ring
  rw [hn, count, htail, BitVec.toNat_ofNat, Nat.mod_eq_of_lt (by omega)]

end counters

/-! ### Contents -/

section contents

variable [NeZero size] {data : Fin size → α} {head tail : BitVec width} {c : α}

@[simp] theorem length_contents : (contents data head tail).length = count head tail := by
  simp [contents]

@[simp] theorem contents_self : contents data head head = [] := by
  simp [contents]

/-- The slots from `head` on are numbered from the slot of `head`. -/
theorem slot_add (hdvd : size ∣ 2 ^ width) (k : ℕ) :
    (slot size (head + BitVec.ofNat width k)).val = (head.toNat + k) % size := by
  simp only [slot, Fin.ofNat_eq_cast, Fin.val_natCast, BitVec.toNat_add, BitVec.toNat_ofNat,
    Nat.add_mod_mod]
  exact Nat.mod_mod_of_dvd _ hdvd

/-- Values less than `size` apart are in different slots. -/
theorem slot_ne (hdvd : size ∣ 2 ^ width) {i j : ℕ} (hij : i < j) (hj : j < i + size) :
    slot size (head + BitVec.ofNat width i) ≠ slot size (head + BitVec.ofNat width j) := by
  intro heq
  have hmod : head.toNat + i ≡ head.toNat + j [MOD size] := by
    show (head.toNat + i) % size = (head.toNat + j) % size
    rw [← slot_add hdvd, ← slot_add hdvd, heq]
  have hle := (Nat.modEq_iff_dvd' (by omega)).mp hmod
  have := Nat.le_of_dvd (by omega) hle
  omega

/-- **Storing** a value at `tail` while there is room appends it. -/
theorem contents_push (hdvd : size ∣ 2 ^ width) (hroom : count head tail < size)
    (hwrap : size < 2 ^ width) :
    contents (Function.update data (slot size tail) c) head (tail + 1)
      = contents data head tail ++ [c] := by
  have htail : slot size tail = slot size (head + BitVec.ofNat width (count head tail)) := by
    rw [← tail_eq]
  unfold contents
  rw [count_push (by omega), List.range_succ, List.map_append, List.map_singleton, ← htail,
    Function.update_self]
  refine congrArg (· ++ [c]) (List.map_congr_left fun k hk => ?_)
  have hk := List.mem_range.mp hk
  rw [htail]
  exact Function.update_of_ne (slot_ne hdvd hk (by omega)) _ _

/-- **Fetching** the value at `head` takes off the oldest one. -/
theorem contents_pop (hpos : 0 < count head tail) :
    contents data head tail = data (slot size head) :: contents data (head + 1) tail := by
  unfold contents
  rw [← count_pop hpos, List.range_succ_eq_map, List.map_cons, List.map_map]
  congr 1
  · simp
  · refine List.map_congr_left fun k _ => ?_
    have hshift : head + BitVec.ofNat width (k + 1) = head + 1 + BitVec.ofNat width k := by
      rw [BitVec.ofNat_add, add_assoc, add_comm 1]
      rfl
    simp only [Function.comp_apply, Nat.succ_eq_add_one, hshift]

end contents

end OsLab.Ring
