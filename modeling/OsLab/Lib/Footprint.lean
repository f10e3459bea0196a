/-
Memories that are described piece by piece.

A piece says something about some locations of a memory, its footprint.  `Pieces.Held A m ps` says
that the pieces `ps` are in the memory `m`, and that no location is in two of them.

* `Held.frame` — what a step does to some pieces, it does beside any others;
* `Held.extend` — a piece on other locations comes beside them;
* `Held.entail`, `held_congr` — pieces may be replaced by ones that say the same;
* `Held.arrange`, `Held.drop` — the order of the pieces does not matter, and some may be forgotten;
* `Held.disjoint` — a location is in one piece only.
-/
import Mathlib.Data.Multiset.Bind

namespace OsLab

/-- Pieces of memories: their footprints, and what they say, which depends on these alone. -/
structure Pieces (M L P : Type*) where
  /-- The memories agree at a location. -/
  Same : M → M → L → Prop
  foot : P → Multiset L
  Holds : M → P → Prop
  congr : ∀ {m m' : M} {p : P}, (∀ l ∈ foot p, Same m m' l) → Holds m p → Holds m' p

namespace Pieces

variable {M L P : Type*} {A : Pieces M L P} {m m' : M} {ps qs rs : Multiset P} {p q : P} {l : L}

/-- The locations of the pieces, with repetitions. -/
def feet (A : Pieces M L P) (ps : Multiset P) : Multiset L := ps.bind A.foot

@[simp] theorem feet_add : A.feet (ps + qs) = A.feet ps + A.feet qs := Multiset.add_bind _ _ _

@[simp] theorem feet_singleton : A.feet {p} = A.foot p := Multiset.singleton_bind _ _

@[simp] theorem feet_zero : A.feet 0 = 0 := Multiset.zero_bind _

/-- The memory has the pieces, apart from each other. -/
structure Held (A : Pieces M L P) (m : M) (ps : Multiset P) : Prop where
  holds : ∀ p ∈ ps, A.Holds m p
  nodup : (A.feet ps).Nodup

namespace Held

theorem arrange (h : A.Held m ps) (qs : Multiset P) (heq : ps = qs) : A.Held m qs := heq ▸ h

theorem drop (h : A.Held m (ps + qs)) : A.Held m qs where
  holds p hp := h.holds p (Multiset.mem_add.mpr (Or.inr hp))
  nodup := (Multiset.nodup_add.mp (feet_add ▸ h.nodup)).2.1

/-- The frame rule. -/
theorem frame (h : A.Held m (ps + rs)) (hps : ∀ p ∈ qs, A.Holds m' p)
    (hfeet : A.feet qs ≤ A.feet ps) (hsame : ∀ l, l ∉ A.feet ps → A.Same m m' l) :
    A.Held m' (qs + rs) := by
  have hnodup := h.nodup
  rw [feet_add, Multiset.nodup_add] at hnodup
  obtain ⟨hn, hr, hdisj⟩ := hnodup
  constructor
  · intro p hp
    rcases Multiset.mem_add.mp hp with hp | hp
    · exact hps p hp
    · refine A.congr (fun l hl => hsame l fun hl' => ?_) (h.drop.holds p hp)
      exact Multiset.disjoint_left.mp hdisj hl' (Multiset.mem_bind.mpr ⟨p, hp, hl⟩)
  · rw [feet_add, Multiset.nodup_add]
    exact ⟨Multiset.nodup_of_le hfeet hn, hr, hdisj.mono_left hfeet⟩

/-- A piece that is new. -/
theorem extend (h : A.Held m ps) (hp : A.Holds m' p) (hnodup : (A.foot p).Nodup)
    (hdisj : ∀ l ∈ A.foot p, l ∉ A.feet ps) (hsame : ∀ l, l ∉ A.foot p → A.Same m m' l) :
    A.Held m' ({p} + ps) := by
  constructor
  · intro q hq
    rcases Multiset.mem_add.mp hq with hq | hq
    · obtain rfl := Multiset.mem_singleton.mp hq
      exact hp
    · exact A.congr (fun l hl => hsame l fun hl' =>
        hdisj l hl' (Multiset.mem_bind.mpr ⟨q, hq, hl⟩)) (h.holds q hq)
  · rw [feet_add, feet_singleton, Multiset.nodup_add]
    exact ⟨hnodup, h.nodup, Multiset.disjoint_left.mpr fun {l} hl => hdisj l hl⟩

/-- Pieces that follow from others on the same locations. -/
theorem entail (h : A.Held m (ps + rs)) (hps : (∀ p ∈ ps, A.Holds m p) → ∀ p ∈ qs, A.Holds m p)
    (hfeet : A.feet ps = A.feet qs) : A.Held m (qs + rs) := by
  constructor
  · intro p hp
    rcases Multiset.mem_add.mp hp with hp | hp
    · exact hps (fun q hq => h.holds q (Multiset.mem_add.mpr (Or.inl hq))) p hp
    · exact h.drop.holds p hp
  · rw [feet_add, ← hfeet, ← feet_add]
    exact h.nodup

theorem head (h : A.Held m ({p} + rs)) : A.Holds m p :=
  h.holds p (Multiset.mem_add.mpr (Or.inl (Multiset.mem_singleton_self p)))

theorem disjoint (h : A.Held m ({p} + {q} + rs)) (hl : l ∈ A.foot p) : l ∉ A.foot q := by
  have hnodup := h.nodup
  rw [feet_add, feet_add, feet_singleton, feet_singleton, Multiset.nodup_add] at hnodup
  exact Multiset.disjoint_left.mp (Multiset.nodup_add.mp hnodup.1).2.2 hl

end Held

/-- The same, said in two ways. -/
theorem held_congr (hps : (∀ p ∈ ps, A.Holds m p) ↔ ∀ p ∈ qs, A.Holds m p)
    (hfeet : A.feet ps = A.feet qs) : A.Held m (ps + rs) ↔ A.Held m (qs + rs) :=
  ⟨fun h => h.entail hps.mp hfeet, fun h => h.entail hps.mpr hfeet.symm⟩

end Pieces

end OsLab
