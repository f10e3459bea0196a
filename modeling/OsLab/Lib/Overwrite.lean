/-
Overwriting a part of a list.

`overwrite l offset s` is what a write of `s` at `offset` makes of a file with the
content `l`: the positions from `offset` on are overwritten, and the list grows
when the write passes its end.

* `map_overwrite` — the same as a function of the position;
* `prefix_overwrite` — what is in front of a write and the write itself stay together.
-/
import Mathlib.Data.List.Basic
import Mathlib.Tactic.Common

namespace OsLab

variable {α : Type*}

/-- `l` with the positions `offset … offset + s.length - 1` replaced by `s`. -/
def overwrite (l : List α) (offset : ℕ) (s : List α) : List α :=
  l.take offset ++ s ++ l.drop (offset + s.length)

theorem getElem?_overwrite {l s : List α} {offset : ℕ} (h : offset ≤ l.length) (p : ℕ) :
    (overwrite l offset s)[p]?
      = if offset ≤ p ∧ p < offset + s.length then s[p - offset]? else l[p]? := by
  have htake : (l.take offset).length = offset := by
    rw [List.length_take]
    omega
  rw [overwrite, List.append_assoc]
  by_cases hlt : p < offset
  · rw [if_neg (by omega), List.getElem?_append_left (by omega), List.getElem?_take_of_lt hlt]
  · rw [List.getElem?_append_right (by omega), htake]
    by_cases hin : p < offset + s.length
    · rw [if_pos ⟨by omega, hin⟩, List.getElem?_append_left (by omega)]
    · have hadd : offset + s.length + (p - offset - s.length) = p := by omega
      rw [if_neg (by omega), List.getElem?_append_right (by omega), List.getElem?_drop, hadd]

/-- A list given by a function of the position, after an overwrite. -/
theorem map_overwrite (f : ℕ → α) {n offset : ℕ} (s : List α) (d : α) (h : offset ≤ n) :
    (List.range (max n (offset + s.length))).map
      (fun p => if offset ≤ p ∧ p < offset + s.length then s.getD (p - offset) d else f p)
      = overwrite ((List.range n).map f) offset s := by
  have hlen : offset ≤ ((List.range n).map f).length := by simpa using h
  apply List.ext_getElem?
  intro p
  rw [getElem?_overwrite hlen, List.getElem?_map]
  by_cases hin : offset ≤ p ∧ p < offset + s.length
  · have hp : p < max n (offset + s.length) := by omega
    have hs : p - offset < s.length := by omega
    rw [if_pos hin, List.getElem?_range hp, Option.map_some, if_pos hin,
      List.getD_eq_getElem?_getD, List.getElem?_eq_getElem hs, Option.getD_some]
  · rw [if_neg hin, List.getElem?_map]
    by_cases hp : p < n
    · rw [List.getElem?_range hp, List.getElem?_range (by omega), Option.map_some,
        Option.map_some, if_neg hin]
    · have hmax : max n (offset + s.length) ≤ p := by omega
      rw [List.getElem?_eq_none (by simpa using hmax), List.getElem?_eq_none (by simpa using hp)]
      rfl

/-- The same for a write that is given by a function. -/
theorem map_overwrite_range (f g : ℕ → α) {n offset : ℕ} (count : ℕ) (h : offset ≤ n) :
    (List.range (max n (offset + count))).map
      (fun p => if offset ≤ p ∧ p < offset + count then g (p - offset) else f p)
      = overwrite ((List.range n).map f) offset ((List.range count).map g) := by
  have hlen : ((List.range count).map g).length = count := by simp
  rw [← map_overwrite f _ (g 0) h, hlen]
  refine List.map_congr_left fun p _ => ?_
  by_cases hin : offset ≤ p ∧ p < offset + count
  · have hlt : p - offset < count := by omega
    rw [if_pos hin, if_pos hin, List.getD_eq_getElem?_getD, List.getElem?_map,
      List.getElem?_range hlt]
    rfl
  · rw [if_neg hin, if_neg hin]

@[simp] theorem overwrite_nil (l : List α) (offset : ℕ) : overwrite l offset [] = l := by
  simp [overwrite]

/-- What is in front of a write is not overwritten, and the write follows it. -/
theorem prefix_overwrite {l s : List α} {offset : ℕ} (h : offset ≤ l.length) :
    (overwrite l offset s).take offset = l.take offset ∧ s <+: (overwrite l offset s).drop offset := by
  have htake : (l.take offset).length = offset := by
    rw [List.length_take]
    omega
  rw [overwrite, List.append_assoc]
  constructor
  · exact List.take_left' htake
  · rw [List.drop_left' htake]
    exact List.prefix_append _ _

/-- A prefix of the list from `o` on can be continued where it ends. -/
theorem prefix_append_of_take {l l' s t : List α} {o offset : ℕ} (hs : s <+: l.drop o)
    (hlen : o + s.length = offset) (htake : l'.take offset = l.take offset)
    (ht : t <+: l'.drop offset) : s ++ t <+: l'.drop o := by
  have hfront : s = (l'.drop o).take s.length := by
    have hsub : offset - o = s.length := by omega
    calc s = (l.drop o).take s.length := List.prefix_iff_eq_take.mp hs
      _ = (l.take offset).drop o := by rw [List.drop_take, hsub]
      _ = (l'.take offset).drop o := by rw [htake]
      _ = (l'.drop o).take s.length := by rw [List.drop_take, hsub]
  obtain ⟨rest, hrest⟩ := ht
  refine ⟨rest, ?_⟩
  have hback : (l'.drop o).drop s.length = t ++ rest := by
    rw [List.drop_drop, hlen, hrest]
  calc s ++ t ++ rest = s ++ (t ++ rest) := List.append_assoc _ _ _
    _ = (l'.drop o).take s.length ++ (l'.drop o).drop s.length := by rw [hback, ← hfront]
    _ = l'.drop o := List.take_append_drop _ _

end OsLab
