/-
Lists searched by a key.

`findKey key k l` is the first element of `l` whose key is `k`.  The lemmas say
when the search is not affected by a change of the list or of a key: an element
appended at the end, moved to the front or removed, and the key of one element
changed to a key that was not in use.
-/
import Mathlib.Logic.Function.Basic
import Mathlib.Data.List.Basic

namespace OsLab

variable {α κ : Type*} [DecidableEq κ]

/-- The first element with key `k`. -/
def findKey (key : α → κ) (k : κ) (l : List α) : Option α := l.find? fun a => key a == k

variable {key key' : α → κ} {k : κ} {l : List α} {a b : α}

theorem findKey_eq_none : findKey key k l = none ↔ ∀ a ∈ l, key a ≠ k := by
  simp [findKey, List.find?_eq_none]

theorem mem_of_findKey (h : findKey key k l = some a) : a ∈ l := List.mem_of_find?_eq_some h

theorem key_of_findKey (h : findKey key k l = some a) : key a = k := by
  simpa [findKey] using List.find?_some h

theorem findKey_congr (h : ∀ a ∈ l, key' a = key a) : findKey key' k l = findKey key k l := by
  induction l with
  | nil => rfl
  | cons a l ih =>
    have htail := ih fun b hb => h b (List.mem_cons_of_mem _ hb)
    simp only [findKey] at htail ⊢
    rw [List.find?_cons, List.find?_cons, h a List.mem_cons_self, htail]

/-- Appending an element keeps what was found. -/
theorem findKey_append (h : findKey key k l = some a) : findKey key k (l ++ [b]) = some a := by
  simp only [findKey] at h ⊢
  rw [List.find?_append, h, Option.some_or]

/-- An appended element is found when nothing was. -/
theorem findKey_append_self (h : findKey key k l = none) (hb : key b = k) :
    findKey key k (l ++ [b]) = some b := by
  simp only [findKey] at h ⊢
  simp [List.find?_append, h, hb]

variable [DecidableEq α]

/-- Removing an element does not matter to the search for another key. -/
theorem findKey_erase (hb : key b ≠ k) : findKey key k (l.erase b) = findKey key k l := by
  induction l with
  | nil => rfl
  | cons a l ih =>
    by_cases hab : a = b
    · subst hab
      simp [findKey, hb]
    · simp only [findKey] at ih ⊢
      rw [List.erase_cons_tail (by simpa using hab), List.find?_cons, List.find?_cons, ih]

/-- Moving an element to the front: it is found, and the search for another key
is not affected. -/
theorem findKey_moveToFront :
    findKey key k (b :: l.erase b) = if key b = k then some b else findKey key k l := by
  by_cases hb : key b = k
  · simp [findKey, hb]
  · have hskip : findKey key k (b :: l.erase b) = findKey key k (l.erase b) := by
      simp [findKey, hb]
    rw [if_neg hb, hskip, findKey_erase hb]

/-- Giving an element a key that is not in use makes it the one that is found. -/
theorem findKey_update_self (h : findKey key k l = none) (hb : b ∈ l) :
    findKey (Function.update key b k) k l = some b := by
  obtain ⟨c, hc⟩ : ∃ c, findKey (Function.update key b k) k l = some c := by
    by_contra hnone
    have hnone' : findKey (Function.update key b k) k l = none := by
      cases hfind : findKey (Function.update key b k) k l with
      | none => rfl
      | some c => exact absurd ⟨c, hfind⟩ hnone
    exact findKey_eq_none.mp hnone' b hb (Function.update_self b k key)
  have hkey := key_of_findKey hc
  by_cases hcb : c = b
  · rw [hc, hcb]
  · rw [Function.update_of_ne hcb] at hkey
    exact absurd hkey (findKey_eq_none.mp h c (mem_of_findKey hc))

/-- Giving another element a key that differs from `k` keeps what was found
for `k`. -/
theorem findKey_update {k' : κ} (h : findKey key k l = some a) (hab : a ≠ b) (hk : k' ≠ k) :
    findKey (Function.update key b k') k l = some a := by
  induction l with
  | nil => cases h
  | cons c l ih =>
    simp only [findKey, List.find?_cons] at h ih ⊢
    by_cases hcb : c = b
    · subst hcb
      rw [Function.update_self, beq_false_of_ne hk]
      cases hc : key c == k with
      | true =>
        rw [hc] at h
        exact absurd (Option.some.inj h).symm hab
      | false =>
        rw [hc] at h
        exact ih h
    · rw [Function.update_of_ne hcb]
      cases hc : key c == k with
      | true =>
        rw [hc] at h
        exact h
      | false =>
        rw [hc] at h
        exact ih h

end OsLab
