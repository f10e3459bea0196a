/-
How deep the trees of `common/rbtree.c` get.

* `BinTree.Valid.depth_le` — a red-black tree of n nodes has at most 2 log (n + 1) nodes on a
  way down;
* `lookupFrom_depth`, `descend_depth`, `leftmost_depth` — the loops that go down a tree make
  one pass for each node on the way;
* `rbtree_search` — so the searches take that many passes in every state of a run, however
  the nodes were inserted and erased.
-/
import OsLab.Common.RbtreeRun
import Mathlib.Data.Nat.Log

namespace OsLab

namespace BinTree

variable {α : Type*} {t : BinTree α} {c : Bool} {n : ℕ}

/-- The number of nodes on the longest way down. -/
def depth : BinTree α → ℕ
  | nil => 0
  | node _ l _ r => max l.depth r.depth + 1

theorem depth_le_length (t : BinTree α) : t.depth ≤ t.toList.length := by
  induction t with
  | nil => exact Nat.le_refl _
  | node c l z r ihl ihr =>
    rw [depth, toList, List.length_append, List.length_cons]
    omega

/-- At least every second node on a way down is black. -/
theorem Balanced.depth_le (h : t.Balanced c n) : t.depth ≤ 2 * n + if c then 0 else 1 := by
  induction h with
  | nil => exact Nat.zero_le _
  | @red l r x n _ _ ihl ihr =>
    have hl : l.depth ≤ 2 * n := ihl
    have hr : r.depth ≤ 2 * n := ihr
    exact Nat.succ_le_succ (max_le hl hr)
  | @black l r x c c' n _ _ ihl ihr =>
    have hc : ∀ c : Bool, (if c then 0 else 1) ≤ 1 := by decide
    have hl : l.depth ≤ 2 * n + 1 := ihl.trans (Nat.add_le_add_left (hc c) _)
    have hr : r.depth ≤ 2 * n + 1 := ihr.trans (Nat.add_le_add_left (hc c') _)
    exact Nat.succ_le_succ (max_le hl hr)

/-- The black nodes alone make up a full tree. -/
theorem Balanced.pow_le (h : t.Balanced c n) : 2 ^ n ≤ t.toList.length + 1 := by
  induction h with
  | nil => exact Nat.le_refl _
  | red _ _ ihl ihr =>
    rw [toList, List.length_append, List.length_cons]
    omega
  | black _ _ ihl ihr =>
    rw [toList, List.length_append, List.length_cons, Nat.pow_succ]
    omega

/-- **The depth of a red-black tree.** -/
theorem Valid.depth_le (h : t.Valid) : t.depth ≤ 2 * Nat.log 2 (t.toList.length + 1) := by
  obtain ⟨n, hn⟩ := h
  have hlog : n ≤ Nat.log 2 (t.toList.length + 1) :=
    Nat.le_log_of_pow_le Nat.one_lt_two hn.pow_le
  exact hn.depth_le.trans (Nat.mul_le_mul_left 2 hlog)

end BinTree

namespace RbTree

open BinTree

variable {T : Type} {m : RbTree T} {x y p : T} {v : Option T} {t : BinTree T}
  {cmp : T → T → Bool} {fuel : ℕ}

/-! ### The loops that go down -/

theorem lookupFrom_depth (h : m.Shows v t) (hfuel : t.depth ≤ fuel) :
    lookupFrom cmp x fuel m t.root? ≠ none := by
  induction t generalizing v fuel with
  | nil => cases fuel <;> simp [root?, lookupFrom]
  | node c l z r ihl ihr =>
    obtain ⟨k, rfl⟩ : ∃ k, fuel = k + 1 := ⟨fuel - 1, by simp only [depth] at hfuel; omega⟩
    have hk : max l.depth r.depth ≤ k := Nat.le_of_succ_le_succ hfuel
    obtain ⟨hcell, hl, hr⟩ := h
    have hleft : (m.node z).left = l.root? := hcell.child
    have hright : (m.node z).right = r.root? := hcell.other
    rw [root?, lookupFrom, hleft, hright]
    split
    · exact ihl hl ((Nat.le_max_left _ _).trans hk)
    · split
      · exact ihr hr ((Nat.le_max_right _ _).trans hk)
      · simp

theorem descend_depth [DecidableEq T] (h : m.Shows v t) (hy : t.root? = some y)
    (hfuel : t.depth ≤ fuel) : descend cmp x fuel m y ≠ none := by
  induction t generalizing v fuel y with
  | nil => cases hy
  | node c l z r ihl ihr =>
    obtain rfl := Option.some.inj hy
    obtain ⟨k, rfl⟩ : ∃ k, fuel = k + 1 := ⟨fuel - 1, by simp only [depth] at hfuel; omega⟩
    have hk : max l.depth r.depth ≤ k := Nat.le_of_succ_le_succ hfuel
    obtain ⟨hcell, hl, hr⟩ := h
    have hleft : (m.node z).left = l.root? := hcell.child
    have hright : (m.node z).right = r.root? := hcell.other
    rw [descend, hleft, hright]
    split
    · cases hw : l.root? with
      | none => simp
      | some w => exact ihl hl hw ((Nat.le_max_left _ _).trans hk)
    · split
      · cases hw : r.root? with
        | none => simp
        | some w => exact ihr hr hw ((Nat.le_max_right _ _).trans hk)
      · simp

theorem leftmost_depth (h : m.Shows v t) (hy : t.root? = some y) (hfuel : t.depth ≤ fuel) :
    leftmost fuel m p y ≠ none := by
  induction t generalizing v fuel y p with
  | nil => cases hy
  | node c l z r ihl _ =>
    obtain rfl := Option.some.inj hy
    obtain ⟨k, rfl⟩ : ∃ k, fuel = k + 1 := ⟨fuel - 1, by simp only [depth] at hfuel; omega⟩
    have hk : max l.depth r.depth ≤ k := Nat.le_of_succ_le_succ hfuel
    obtain ⟨hcell, hl, -⟩ := h
    have hleft : (m.node z).left = l.root? := hcell.child
    rw [leftmost, hleft]
    cases hw : l.root? with
    | none => simp
    | some w => exact ihl hl hw ((Nat.le_max_left _ _).trans hk)

/-! ### More fuel changes nothing -/

theorem lookupFrom_mono {n k : ℕ} {o : Option T} {r : Option T} (hk : n ≤ k)
    (h : lookupFrom cmp x n m o = some r) : lookupFrom cmp x k m o = some r := by
  induction n generalizing k o with
  | zero =>
    cases o with
    | none => cases k <;> exact h
    | some y => cases h
  | succ n ih =>
    obtain ⟨k, rfl⟩ : ∃ j, k = j + 1 := ⟨k - 1, by omega⟩
    cases o with
    | none => exact h
    | some y =>
      have hk := Nat.le_of_succ_le_succ hk
      rw [lookupFrom] at h ⊢
      split
      · rw [if_pos (by assumption)] at h
        exact ih hk h
      · rw [if_neg (by assumption)] at h
        split
        · rw [if_pos (by assumption)] at h
          exact ih hk h
        · rw [if_neg (by assumption)] at h
          exact h

theorem leftmost_mono {n k : ℕ} {r : T × T} (hk : n ≤ k) (h : leftmost n m p y = some r) :
    leftmost k m p y = some r := by
  induction n generalizing k p y with
  | zero => cases h
  | succ n ih =>
    obtain ⟨k, rfl⟩ : ∃ j, k = j + 1 := ⟨k - 1, by omega⟩
    rw [leftmost] at h ⊢
    cases hl : (m.node y).left with
    | none =>
      rw [hl] at h
      exact h
    | some w =>
      rw [hl] at h
      exact ih (Nat.le_of_succ_le_succ hk) h

theorem descend_mono [DecidableEq T] {n k : ℕ} {r : Option (RbTree T × T)} (hk : n ≤ k)
    (h : descend cmp x n m y = some r) : descend cmp x k m y = some r := by
  induction n generalizing k y with
  | zero => cases h
  | succ n ih =>
    obtain ⟨k, rfl⟩ : ∃ j, k = j + 1 := ⟨k - 1, by omega⟩
    have hk := Nat.le_of_succ_le_succ hk
    rw [descend] at h ⊢
    split
    · rw [if_pos (by assumption)] at h
      cases hl : (m.node y).left with
      | none =>
        rw [hl] at h
        exact h
      | some w =>
        rw [hl] at h
        exact ih hk h
    · rw [if_neg (by assumption)] at h
      split
      · rw [if_pos (by assumption)] at h
        cases hr : (m.node y).right with
        | none =>
          rw [hr] at h
          exact h
        | some w =>
          rw [hr] at h
          exact ih hk h
      · rw [if_neg (by assumption)] at h
        exact h

/-! ### Runs -/

variable [DecidableEq T] {N : Finset T}

theorem Shape.card_eq (h : Shape cmp m t N) : t.toList.length = N.card := by
  have hN : t.toList.toFinset = N := Finset.ext fun x => by rw [List.mem_toFinset, h.mem]
  rw [← hN, List.toFinset_card_of_nodup h.is.nodup]

/-- **The searches are short.**  In every state of a run with a transitive comparison, with `n`
nodes in the tree, the loops of `_rb_lookup`, `_rb_insert` and `_rb_first` that go down the tree
return after at most 2 log (n + 1) passes. -/
theorem rbtree_search (htrans : ∀ a b c, cmp a b → cmp b c → cmp a c)
    (hmem : ∀ l : List T, l.Nodup → l.length < rbFuel) (h : RbRun cmp m N) :
    let passes := 2 * Nat.log 2 (N.card + 1)
    (∀ x, ∃ r, lookupFrom cmp x passes m m.root = some r ∧ m.lookup cmp x = some r) ∧
    (∀ x y, x ∉ N → m.root = some y →
      let m := { m with node := Function.update m.node x .zero }
      ∃ r, descend cmp x passes m y = some r ∧ descend cmp x rbFuel m y = some r) ∧
    ∀ y, m.root = some y →
      ∃ r, leftmost passes m y y = some r ∧ leftmost rbFuel m y y = some r := by
  intro passes
  obtain ⟨t, h⟩ := h.shape htrans hmem
  obtain ⟨hroot, hshows, hnodup⟩ := is_iff.mp h.is
  have hshort : t.depth ≤ passes := by
    have hdepth := h.valid.depth_le
    rwa [h.card_eq] at hdepth
  have hlong : t.depth ≤ rbFuel := t.depth_le_length.trans (hmem _ hnodup).le
  refine ⟨fun x => ?_, fun x y hx hy => ?_, fun y hy => ?_⟩
  · obtain ⟨r, hr⟩ := Option.ne_none_iff_exists'.mp
      (lookupFrom_depth hshows (Nat.le_refl _))
    rw [← hroot] at hr
    exact ⟨r, lookupFrom_mono hshort hr, lookupFrom_mono hlong hr⟩
  · intro m'
    have hshows' : m'.Shows none t := hshows.congr fun z hz => by
      have hne : z ≠ x := by
        rintro rfl
        exact hx ((h.mem z).mp hz)
      exact Function.update_of_ne hne _ _
    obtain ⟨r, hr⟩ := Option.ne_none_iff_exists'.mp
      (descend_depth hshows' (hroot.symm.trans hy) (Nat.le_refl _))
    exact ⟨r, descend_mono hshort hr, descend_mono hlong hr⟩
  · obtain ⟨r, hr⟩ := Option.ne_none_iff_exists'.mp
      (leftmost_depth (p := y) hshows (hroot.symm.trans hy) (Nat.le_refl _))
    exact ⟨r, leftmost_mono hshort hr, leftmost_mono hlong hr⟩

/-- Seven nodes in increasing order, two of which are erased: four passes are enough. -/
theorem rbtree_search_seven : ∃ m : RbTree (Fin 7),
    RbRun (fun a b => decide (a < b)) m {6, 5, 4, 2, 0} ∧
    ∀ x, ∃ r, lookupFrom (fun a b => decide (a < b)) x 4 m m.root = some r ∧
      m.lookup (fun a b => decide (a < b)) x = some r := by
  have htrans : ∀ a b c : Fin 7, decide (a < b) → decide (b < c) → decide (a < c) := by decide
  have hmem : ∀ l : List (Fin 7), l.Nodup → l.length < rbFuel := fun l hl =>
    lt_of_le_of_lt hl.length_le_card (by decide)
  have h₀ : RbRun (fun a b : Fin 7 => decide (a < b)) ⟨fun _ => .zero, none⟩ ∅ := .start rfl
  have h₁ := h₀.insert (x := 0) (by decide) rfl
  have h₂ := h₁.insert (x := 1) (by decide) rfl
  have h₃ := h₂.insert (x := 2) (by decide) rfl
  have h₄ := h₃.insert (x := 3) (by decide) rfl
  have h₅ := h₄.insert (x := 4) (by decide) rfl
  have h₆ := h₅.insert (x := 5) (by decide) rfl
  have h₇ := h₆.insert (x := 6) (by decide) rfl
  have h₈ := h₇.erase (x := 1) (by decide) rfl
  have h₉ := h₈.erase (x := 3) (by decide) rfl
  exact ⟨_, h₉, (rbtree_search htrans hmem h₉).1⟩

end RbTree

end OsLab
