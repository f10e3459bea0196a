/-
Little-endian numbers in memory.

`leByte v j` is byte `j` of the number `v`, and `leValue f w` is the number
whose `w` bytes are `f 0, …, f (w - 1)`.  Storing a number in `w` bytes and
reading it back keeps it modulo `256 ^ w` (`leValue_leByte`).
-/
import Mathlib.Tactic.Ring
import Mathlib.Data.Nat.ModEq

namespace OsLab

/-- Byte `j` of the little-endian representation of `v`. -/
def leByte (v j : ℕ) : UInt8 := UInt8.ofNat (v / 256 ^ j)

/-- The number with the little-endian bytes `f 0, …, f (w - 1)`. -/
def leValue (f : ℕ → UInt8) : ℕ → ℕ
  | 0 => 0
  | w + 1 => leValue f w + 256 ^ w * (f w).toNat

theorem leValue_congr {f g : ℕ → UInt8} {w : ℕ} (h : ∀ j < w, f j = g j) :
    leValue f w = leValue g w := by
  induction w with
  | zero => rfl
  | succ w ih =>
    rw [leValue, leValue, ih fun j hj => h j (by omega), h w (Nat.lt_succ_self w)]

/-- **Round trip.**  A number stored in `w` bytes is read back modulo
`256 ^ w`. -/
theorem leValue_leByte (v w : ℕ) : leValue (leByte v) w = v % 256 ^ w := by
  induction w with
  | zero => simp [leValue, Nat.mod_one]
  | succ w ih =>
    rw [leValue, ih, Nat.mod_pow_succ, leByte, UInt8.toNat_ofNat']

end OsLab
