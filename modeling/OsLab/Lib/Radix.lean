/-
Radix trees of tables in memory.

A table is named by an address and has a word for each index; `child` reads from a word
the address of the table below it, `0` when there is none.  Several directories, each with
a root table, share the memory.  A path is a list of indices, the last one first, so that
the path of a table is the tail of the paths of the tables below it.

* `Radix.node` — the table at the end of a path;
* `Radix.Separate` — two paths lead to two tables;
* `Radix.node_root`, `Radix.node_add` — a new table becomes the table of one path and
  leaves the table of every other path as it is (`Radix.Grows`);
* `Radix.Extends` — what is left of this when several tables are added along a path;
* `Radix.below` — the tables below a path, each one after those below it; it has every
  table once (`mem_below`, `nodup_below`).
-/
import Mathlib.Data.List.Basic
import Mathlib.Data.List.Nodup
import Mathlib.Logic.Function.Basic
import Mathlib.Tactic.Common

namespace OsLab

/-- The memory, and the root table of each directory. -/
structure Forest (D A I W : Type*) where
  root : D → A
  words : A → I → W

/-- How tables are linked: the lowest ones are `height` links below the root. -/
structure Radix (A W : Type*) [Zero A] [Zero W] where
  child : W → A
  height : ℕ
  child_zero : child 0 = 0

namespace Radix

variable {D A I W : Type*} [Zero A] [Zero W] [DecidableEq A] (R : Radix A W)

/-- The table at the end of a path, or 0. -/
def node (F : Forest D A I W) (d : D) : List I → A
  | [] => F.root d
  | i :: r =>
    if node F d r ≠ 0 ∧ r.length < R.height then R.child (F.words (node F d r) i) else 0

/-- The word of index `i` of the table at the end of a path. -/
def slot (F : Forest D A I W) (d : D) (r : List I) (i : I) : W :=
  if R.node F d r = 0 then 0 else F.words (R.node F d r) i

/-- Two paths lead to two tables. -/
def Separate (F : Forest D A I W) : Prop :=
  ∀ d r e q, R.node F d r ≠ 0 → R.node F d r = R.node F e q → d = e ∧ r = q

/-- `p` becomes the table of one path; the others stay. -/
structure Grows (F F' : Forest D A I W) (d : D) (r : List I) (p : A) : Prop where
  here : R.node F' d r = p
  other : ∀ e q, ¬(e = d ∧ q = r) → R.node F' e q = R.node F e q

/-- Tables are added along a path of `d`. -/
structure Extends (F F' : Forest D A I W) (d : D) (path : List I) : Prop where
  keep : ∀ e q, R.node F e q ≠ 0 → R.node F' e q = R.node F e q
  grow : ∀ e q, R.node F e q = 0 → R.node F' e q ≠ 0 → e = d ∧ q <:+ path
  /-- no word of a lowest table changes, and a new one is empty -/
  slot : ∀ e q i, q.length = R.height → R.slot F' e q i = R.slot F e q i

variable {R} {F F' F'' : Forest D A I W} {d : D} {r : List I} {i : I} {p : A}

theorem node_cons (hr : R.node F d r ≠ 0) (hlen : r.length < R.height) :
    R.node F d (i :: r) = R.child (F.words (R.node F d r) i) :=
  if_pos ⟨hr, hlen⟩

theorem node_cons_of_zero (hr : R.node F d r = 0) : R.node F d (i :: r) = 0 :=
  if_neg fun h => h.1 hr

/-- A path that leads to a table is not too long. -/
theorem length_le_of_ne (h : R.node F d r ≠ 0) : r.length ≤ R.height := by
  cases r with
  | nil => exact Nat.zero_le _
  | cons i r =>
    by_contra hlong
    refine h (if_neg fun hand => hlong ?_)
    rw [List.length_cons]
    exact hand.2

/-- Nothing is below a path that leads to no table. -/
theorem node_append_of_zero (hr : R.node F d r = 0) : ∀ q : List I, R.node F d (q ++ r) = 0
  | [] => hr
  | _ :: q => node_cons_of_zero (node_append_of_zero hr q)

/-- Words that are not read do not matter. -/
theorem node_congr (hroot : F'.root = F.root)
    (hwords : ∀ e q i, R.node F e q ≠ 0 → q.length < R.height →
      F'.words (R.node F e q) i = F.words (R.node F e q) i) (d : D) (r : List I) :
    R.node F' d r = R.node F d r := by
  induction r with
  | nil => exact congrFun hroot d
  | cons i r ih =>
    simp only [node, ih]
    split
    · rename_i hr
      rw [hwords d r i hr.1 hr.2]
    · rfl

theorem slot_congr (hnode : R.node F' d r = R.node F d r)
    (hword : R.node F d r ≠ 0 → F'.words (R.node F d r) i = F.words (R.node F d r) i) :
    R.slot F' d r i = R.slot F d r i := by
  unfold slot
  rw [hnode]
  split
  · rfl
  · exact hword ‹_›

/-- Two slots in tables are one only on one path. -/
theorem Separate.slot_inj (h : R.Separate F) {e : D} {q : List I} {j : I}
    (hr : R.node F d r ≠ 0) :
    (R.node F d r, i) = (R.node F e q, j) ↔ d = e ∧ r = q ∧ i = j := by
  constructor
  · intro heq
    obtain ⟨rfl, rfl⟩ := h d r e q hr (Prod.mk.inj heq).1
    exact ⟨rfl, rfl, (Prod.mk.inj heq).2⟩
  · rintro ⟨rfl, rfl, rfl⟩
    rfl

/-- A directory may lose its root table. -/
theorem node_forget [DecidableEq D] (F : Forest D A I W) (d e : D) (q : List I) :
    R.node { F with root := Function.update F.root d 0 } e q =
      if e = d then 0 else R.node F e q := by
  induction q with
  | nil => exact Function.update_apply F.root d 0 e
  | cons i q ih =>
    rw [node, ih]
    by_cases he : e = d
    · rw [if_pos he, if_pos he]
      exact if_neg fun h => h.1 rfl
    · rw [if_neg he, if_neg he]
      rfl

/-! ### A new table -/

/-- An empty root table for a directory that had none. -/
theorem node_root [DecidableEq D] (hroot : F'.root = Function.update F.root d p)
    (hzero : F.root d = 0) (hp : ∀ j, F'.words p j = 0)
    (hwords : ∀ e q, R.node F e q ≠ 0 → F'.words (R.node F e q) = F.words (R.node F e q)) :
    R.Grows F F' d [] p := by
  have hhere : R.node F' d [] = p := by
    show F'.root d = p
    rw [hroot, Function.update_self]
  refine ⟨hhere, fun e q => ?_⟩
  induction q with
  | nil =>
    intro hne
    show F'.root e = F.root e
    rw [hroot, Function.update_of_ne fun h => hne ⟨h, rfl⟩]
  | cons i q ih =>
    intro _
    by_cases hnew : e = d ∧ q = []
    · -- below the new table there is nothing
      obtain ⟨rfl, rfl⟩ := hnew
      rw [node_cons_of_zero (show R.node F e [] = 0 from hzero), node.eq_2, hhere, hp,
        R.child_zero, ite_self]
    · rw [node.eq_2, node.eq_2, ih hnew]
      split
      · rename_i hq
        rw [hwords e q hq.1]
      · rfl

/-- An empty table `p`, linked from index `i` of the table at the end of `r`. -/
theorem node_add (hsep : R.Separate F) (hr : R.node F d r ≠ 0) (hlen : r.length < R.height)
    (hnone : R.node F d (i :: r) = 0) (hroot : F'.root = F.root)
    (hlink : R.child (F'.words (R.node F d r) i) = p) (hp : ∀ j, F'.words p j = 0)
    (hwords : ∀ e q j, R.node F e q ≠ 0 → ¬(R.node F e q = R.node F d r ∧ j = i) →
      F'.words (R.node F e q) j = F.words (R.node F e q) j) :
    R.Grows F F' d (i :: r) p := by
  -- the words of a table stay, but for the one that links `p`
  have hcons : ∀ e q j, R.node F' e q = R.node F e q → ¬(e = d ∧ q = r ∧ j = i) →
      R.node F' e (j :: q) = R.node F e (j :: q) := by
    intro e q j hq hne
    rw [node.eq_2, node.eq_2, hq]
    split
    · rename_i hand
      rw [hwords e q j hand.1]
      rintro ⟨htable, rfl⟩
      obtain ⟨rfl, rfl⟩ := hsep _ _ _ _ hand.1 htable
      exact hne ⟨rfl, rfl, rfl⟩
    · rfl
  -- a path no longer than `r` does not come to `p`
  have hshort : ∀ q : List I, q.length ≤ r.length → R.node F' d q = R.node F d q := by
    intro q
    induction q with
    | nil => exact fun _ => congrFun hroot d
    | cons j q ih =>
      intro hle
      refine hcons d q j (ih (Nat.le_of_succ_le hle)) ?_
      rintro ⟨-, rfl, -⟩
      exact Nat.not_succ_le_self _ hle
  have hhere : R.node F' d (i :: r) = p := by
    have hr' := hshort r (Nat.le_refl _)
    rw [node_cons (by rwa [hr']) hlen, hr', hlink]
  refine ⟨hhere, fun e q => ?_⟩
  induction q with
  | nil => exact fun _ => congrFun hroot e
  | cons j q ih =>
    intro hne
    by_cases hnew : e = d ∧ q = i :: r
    · -- below the new table there is nothing
      obtain ⟨rfl, rfl⟩ := hnew
      rw [node_cons_of_zero hnone, node.eq_2, hhere, hp, R.child_zero, ite_self]
    · refine hcons e q j (ih hnew) ?_
      rintro ⟨rfl, rfl, rfl⟩
      exact hne ⟨rfl, rfl⟩

/-- The new table is not one of the tables there were. -/
theorem Grows.separate (h : R.Grows F F' d r p) (hsep : R.Separate F)
    (hp : ∀ e q, R.node F e q ≠ p) : R.Separate F' := by
  intro e q e' q' hne heq
  by_cases hq : e = d ∧ q = r
  · obtain ⟨rfl, rfl⟩ := hq
    by_contra hdiff
    have hother := h.other e' q' fun hq' => hdiff ⟨hq'.1.symm, hq'.2.symm⟩
    rw [h.here, hother] at heq
    exact hp e' q' heq.symm
  · rw [h.other e q hq] at hne heq
    by_cases hq' : e' = d ∧ q' = r
    · obtain ⟨rfl, rfl⟩ := hq'
      rw [h.here] at heq
      exact (hp e q heq).elim
    · rw [h.other e' q' hq'] at heq
      exact hsep e q e' q' hne heq

/-- What a new table on a path adds. -/
theorem Grows.extends {path : List I} (h : R.Grows F F' d r p) (hpath : r <:+ path)
    (hnone : R.node F d r = 0) (hp : ∀ j, F'.words p j = 0)
    (hwords : ∀ e q j, R.node F e q ≠ 0 → q.length = R.height →
      F'.words (R.node F e q) j = F.words (R.node F e q) j) :
    R.Extends F F' d path where
  keep e q hq := by
    refine h.other e q ?_
    rintro ⟨rfl, rfl⟩
    exact hq hnone
  grow e q hq hq' := by
    by_contra hdiff
    refine hq' ?_
    rw [h.other e q fun heq => hdiff ⟨heq.1, heq.2 ▸ hpath⟩, hq]
  slot e q i hlen := by
    by_cases hq : e = d ∧ q = r
    · obtain ⟨rfl, rfl⟩ := hq
      unfold slot
      rw [h.here, if_pos hnone, hp, ite_self]
    · exact slot_congr (h.other e q hq) fun hne => hwords e q i hne hlen

namespace Extends

variable {path : List I}

protected theorem refl (F : Forest D A I W) (d : D) (path : List I) : R.Extends F F d path where
  keep _ _ _ := rfl
  grow _ _ hq hq' := (hq' hq).elim
  slot _ _ _ _ := rfl

theorem trans (h : R.Extends F F' d path) (h' : R.Extends F' F'' d path) :
    R.Extends F F'' d path where
  keep e q hq := by
    have hkeep := h.keep e q hq
    rw [h'.keep e q (by rwa [hkeep]), hkeep]
  grow e q hq hq'' := by
    by_cases hq' : R.node F' e q = 0
    · exact h'.grow e q hq' hq''
    · exact h.grow e q hq hq'
  slot e q i hlen := (h'.slot e q i hlen).trans (h.slot e q i hlen)

/-- The path may be said to be longer. -/
theorem mono {path' : List I} (h : R.Extends F F' d path) (hpath : path <:+ path') :
    R.Extends F F' d path' where
  keep := h.keep
  grow e q hq hq' := ⟨(h.grow e q hq hq').1, (h.grow e q hq hq').2.trans hpath⟩
  slot := h.slot

end Extends

/-! ### The tables below a path -/

variable (R) in
/-- The tables that are at most `n` links below the table at the end of `r`; `is` are the
indices in their order. -/
def below (F : Forest D A I W) (d : D) (is : List I) : ℕ → List I → List A
  | 0, _ => []
  | n + 1, r => is.flatMap fun i =>
    if R.node F d (i :: r) = 0 then [] else below F d is n (i :: r) ++ [R.node F d (i :: r)]

variable {is : List I} {n : ℕ}

theorem mem_below (his : ∀ i, i ∈ is) : ∀ (n : ℕ) (r : List I),
    p ∈ R.below F d is n r ↔ ∃ q, q ≠ [] ∧ q.length ≤ n ∧ R.node F d (q ++ r) = p ∧ p ≠ 0
  | 0, r => by
    refine iff_of_false List.not_mem_nil ?_
    rintro ⟨q, hq, hlen, -⟩
    exact hq (List.eq_nil_of_length_eq_zero (Nat.le_zero.mp hlen))
  | n + 1, r => by
    unfold below
    rw [List.mem_flatMap]
    constructor
    · rintro ⟨i, -, hi⟩
      split at hi
      · exact (List.not_mem_nil hi).elim
      · rename_i hne
        rcases List.mem_append.mp hi with hi | hi
        · obtain ⟨q, -, hlen, hq, hp⟩ := (mem_below his n (i :: r)).mp hi
          refine ⟨q ++ [i], by simp, by simp; omega, ?_, hp⟩
          rwa [List.append_assoc]
        · obtain rfl := List.mem_singleton.mp hi
          exact ⟨[i], by simp, by simp, rfl, hne⟩
    · rintro ⟨q, hq, hlen, hnode, hp⟩
      -- the first link from `r` is the last index of the path
      obtain ⟨q, i, rfl⟩ := (List.eq_nil_or_concat q).resolve_left hq
      rw [List.concat_eq_append] at hlen hnode
      rw [List.append_assoc, List.singleton_append] at hnode
      have hi : R.node F d (i :: r) ≠ 0 := by
        intro hzero
        exact hp (hnode ▸ node_append_of_zero hzero q)
      refine ⟨i, his i, ?_⟩
      rw [if_neg hi, List.mem_append]
      by_cases hnil : q = []
      · subst hnil
        exact .inr (List.mem_singleton.mpr hnode.symm)
      · refine .inl ((mem_below his n (i :: r)).mpr ⟨q, hnil, ?_, hnode, hp⟩)
        rw [List.length_append, List.length_singleton] at hlen
        omega

/-- The tables of one branch. -/
theorem mem_branch (his : ∀ i, i ∈ is) {n : ℕ}
    (hp : p ∈ R.below F d is n (i :: r) ++ [R.node F d (i :: r)]) (hi : R.node F d (i :: r) ≠ 0) :
    ∃ q, R.node F d (q ++ i :: r) = p ∧ p ≠ 0 := by
  rcases List.mem_append.mp hp with hp | hp
  · obtain ⟨q, -, -, hq, hne⟩ := (mem_below his n (i :: r)).mp hp
    exact ⟨q, hq, hne⟩
  · obtain rfl := List.mem_singleton.mp hp
    exact ⟨[], rfl, hi⟩

/-- Two branches have no table in common. -/
theorem Separate.branch_ne (hsep : R.Separate F) {j : I} {q q' : List I} (hij : i ≠ j)
    (hne : R.node F d (q ++ i :: r) ≠ 0) :
    R.node F d (q ++ i :: r) ≠ R.node F d (q' ++ j :: r) := by
  intro heq
  obtain ⟨-, hpath⟩ := hsep _ _ _ _ hne heq
  exact hij (List.cons.inj (List.append_inj_right' hpath rfl)).1

theorem nodup_below (hsep : R.Separate F) (his : ∀ i, i ∈ is) (hnodup : is.Nodup) :
    ∀ (n : ℕ) (r : List I), (R.below F d is n r).Nodup
  | 0, _ => List.nodup_nil
  | n + 1, r => by
    unfold below
    refine List.nodup_flatMap.mpr ⟨fun i _ => ?_, hnodup.imp fun {i j} hij => ?_⟩
    · split
      · exact List.nodup_nil
      · rename_i hne
        refine List.nodup_append.mpr ⟨nodup_below hsep his hnodup n (i :: r),
          List.nodup_singleton _, fun p hp p' hp' heq => ?_⟩
        obtain ⟨q, hq, -, hnode, -⟩ := (mem_below his n (i :: r)).mp hp
        obtain rfl := List.mem_singleton.mp hp'
        obtain ⟨-, hpath⟩ := hsep _ _ _ _ hne (heq.symm.trans hnode.symm)
        exact hq (List.append_left_eq_self.mp hpath.symm)
    · show List.Disjoint _ _
      intro p hp hp'
      dsimp only at hp hp'
      split at hp
      · exact List.not_mem_nil hp
      · rename_i hi
        split at hp'
        · exact List.not_mem_nil hp'
        · rename_i hj
          obtain ⟨q, rfl, hne⟩ := mem_branch his hp hi
          obtain ⟨q', hq', -⟩ := mem_branch his hp' hj
          exact hsep.branch_ne hij hne hq'.symm

end Radix

end OsLab
