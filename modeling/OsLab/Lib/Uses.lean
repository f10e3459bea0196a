/-
Reference counting.

`f` gives for each place what it refers to, if anything.  `uses f p` is the number of
places that refer to `p`; it changes by one when one place is filled or emptied
(`uses_update`).
-/
import Mathlib.Data.Fintype.Card
import Mathlib.Logic.Function.Basic
import Mathlib.Tactic.Common

namespace OsLab

variable {ι P : Type*} [Fintype ι] [DecidableEq P]

/-- The number of places that refer to `p`. -/
def uses (f : ι → Option P) (p : P) : ℕ := (Finset.univ.filter fun n => f n = some p).card

variable {f : ι → Option P} {n : ι} {p : P}

theorem uses_eq_zero : uses f p = 0 ↔ ∀ n, f n ≠ some p := by
  simp [uses, Finset.filter_eq_empty_iff]

/-- A place is filled anew: the old thing loses a reference, and the new one gets one. -/
theorem uses_update [DecidableEq ι] (f : ι → Option P) (n : ι) (v : Option P) (p : P) :
    uses (Function.update f n v) p + (if f n = some p then 1 else 0) =
      uses f p + if v = some p then 1 else 0 := by
  -- the other places are the same
  have hothers : ∀ g : ι → Option P, uses g p =
      ((Finset.univ.erase n).filter fun k => g k = some p).card + if g n = some p then 1 else 0 := by
    intro g
    unfold uses
    rw [← Finset.insert_erase (Finset.mem_univ n), Finset.filter_insert,
      Finset.erase_insert (Finset.notMem_erase n Finset.univ)]
    split
    · rw [Finset.card_insert_of_notMem]
      simp
    · rfl
  have hsame : ((Finset.univ.erase n).filter fun k => Function.update f n v k = some p) =
      (Finset.univ.erase n).filter fun k => f k = some p := by
    refine Finset.filter_congr fun k hk => ?_
    rw [Function.update_of_ne (Finset.ne_of_mem_erase hk)]
  rw [hothers f, hothers (Function.update f n v), hsame, Function.update_self]
  omega

end OsLab
