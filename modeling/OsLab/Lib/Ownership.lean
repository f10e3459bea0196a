/-
Resources held in slots.

`Owns slot used` says that the slots hold resources without sharing, and that
`used` is the set of resources held; `0` marks an empty slot.

* `Owns.assign`, `Owns.clear` — putting an unused resource into an empty slot and
  taking one out.
-/
import Mathlib.Data.Finset.Basic
import Mathlib.Logic.Function.Basic

namespace OsLab

variable {κ ρ : Type*} [Zero ρ]

/-- No resource is in two slots, and the resources in use are those in slots. -/
structure Owns (slot : κ → ρ) (used : Finset ρ) : Prop where
  inj : ∀ k l, slot k ≠ 0 → slot k = slot l → k = l
  mem : ∀ r, r ∈ used ↔ r ≠ 0 ∧ ∃ k, slot k = r

namespace Owns

variable {slot slot' : κ → ρ} {used : Finset ρ} {k l : κ} {r : ρ}

theorem congr (h : Owns slot used) (hslot : ∀ k, slot' k = slot k) : Owns slot' used := by
  obtain rfl : slot' = slot := funext hslot
  exact h

theorem mem_used (h : Owns slot used) (hk : slot k ≠ 0) : slot k ∈ used :=
  (h.mem _).mpr ⟨hk, k, rfl⟩

/-- Two slots with different keys hold different resources. -/
theorem ne (h : Owns slot used) (hkl : k ≠ l) (hk : slot k ≠ 0) : slot k ≠ slot l :=
  fun heq => hkl (h.inj k l hk heq)

variable [DecidableEq κ] [DecidableEq ρ]

theorem assign (h : Owns slot used) (hk : slot k = 0) (hr : r ∉ used) (hr0 : r ≠ 0) :
    Owns (Function.update slot k r) (insert r used) := by
  have hfresh : ∀ l, slot l ≠ r := by
    rintro l rfl
    exact hr (h.mem_used hr0)
  constructor
  · intro a b ha hab
    by_cases hak : a = k <;> by_cases hbk : b = k
    · rw [hak, hbk]
    · rw [hak, Function.update_self, Function.update_of_ne hbk] at hab
      exact absurd hab.symm (hfresh b)
    · rw [hbk, Function.update_self, Function.update_of_ne hak] at hab
      exact absurd hab (hfresh a)
    · rw [Function.update_of_ne hak] at ha hab
      rw [Function.update_of_ne hbk] at hab
      exact h.inj a b ha hab
  · intro x
    rw [Finset.mem_insert, h.mem]
    constructor
    · rintro (rfl | ⟨hx, l, rfl⟩)
      · exact ⟨hr0, k, Function.update_self _ _ _⟩
      · have hlk : l ≠ k := by
          rintro rfl
          exact hx hk
        exact ⟨hx, l, Function.update_of_ne hlk _ _⟩
    · rintro ⟨hx, l, rfl⟩
      by_cases hlk : l = k
      · rw [hlk, Function.update_self]
        exact .inl rfl
      · rw [Function.update_of_ne hlk] at hx ⊢
        exact .inr ⟨hx, l, rfl⟩

theorem clear (h : Owns slot used) (hk : slot k ≠ 0) :
    Owns (Function.update slot k 0) (used.erase (slot k)) := by
  have hother : ∀ l, l ≠ k → slot l ≠ 0 → slot l ≠ slot k := fun l hlk hl => h.ne hlk hl
  constructor
  · intro a b ha hab
    by_cases hak : a = k
    · rw [hak, Function.update_self] at ha
      exact absurd rfl ha
    · by_cases hbk : b = k
      · rw [hbk, Function.update_self] at hab
        exact absurd hab ha
      · rw [Function.update_of_ne hak] at ha hab
        rw [Function.update_of_ne hbk] at hab
        exact h.inj a b ha hab
  · intro x
    rw [Finset.mem_erase, h.mem]
    constructor
    · rintro ⟨hxk, hx, l, rfl⟩
      have hlk : l ≠ k := by
        rintro rfl
        exact hxk rfl
      exact ⟨hx, l, Function.update_of_ne hlk _ _⟩
    · rintro ⟨hx, l, rfl⟩
      by_cases hlk : l = k
      · rw [hlk, Function.update_self] at hx
        exact absurd rfl hx
      · rw [Function.update_of_ne hlk] at hx ⊢
        exact ⟨hother l hlk hx, hx, l, rfl⟩

end Owns

end OsLab
