/-
The red-black trees of `common/rbtree.c` over any run of insertions and removals.

* `lookupFrom_spec`, `first_spec` — what `_rb_lookup` and `_rb_first` find in a sorted tree;
* `RbRun.shape` — the invariant of a run, from `insert_spec` and `erase_spec`;
* `rbtree_run` — what holds, and what the functions do, in every state of a run.
-/
import OsLab.Common.RbtreeInsert
import OsLab.Common.RbtreeErase
import Mathlib.Data.Finset.Card
import Mathlib.Data.Fintype.Card

namespace OsLab

open BinTree TreePath

namespace RbTree

variable {T : Type} {m m' : RbTree T} {x y : T} {d : Side} {v : Option T} {t : BinTree T}
  {cmp : T → T → Bool}

/-! ### Searches -/

/-- The search finds an equal node, or there is none. -/
theorem lookupFrom_spec (htrans : ∀ a b c, cmp a b → cmp b c → cmp a c) (fuel : ℕ)
    (h : m.Shows v t) (hsorted : t.toList.Pairwise fun a b => cmp a b)
    (hfuel : t.toList.length ≤ fuel) :
    ∃ r, lookupFrom cmp x fuel m t.root? = some r ∧
      (∀ y, r = some y → y ∈ t.toList ∧ cmp x y = false ∧ cmp y x = false) ∧
      (r = none → ∀ y ∈ t.toList, cmp x y ∨ cmp y x) := by
  induction t generalizing fuel v with
  | nil => exact ⟨none, by cases fuel <;> rfl, by simp, by simp [toList]⟩
  | node c l z r ihl ihr =>
    simp only [toList, List.length_append, List.length_cons] at hfuel
    obtain ⟨fuel, rfl⟩ : ∃ k, fuel = k + 1 := ⟨fuel - 1, by omega⟩
    rw [toList, List.pairwise_append, List.pairwise_cons] at hsorted
    obtain ⟨hl, ⟨hzr, hr⟩, hlz⟩ := hsorted
    obtain ⟨hcell, hshowsl, hshowsr⟩ := h
    have hleft : (m.node z).left = l.root? := hcell.child
    have hright : (m.node z).right = r.root? := hcell.other
    rw [root?, lookupFrom]
    cases hlt : cmp x z with
    | true =>
      obtain ⟨o, hfound, hsome, hnone⟩ := ihl fuel hshowsl hl (by omega)
      refine ⟨o, ?_, fun y hy => ⟨List.mem_append_left _ (hsome y hy).1, (hsome y hy).2⟩, ?_⟩
      · rw [if_pos rfl, hleft]
        exact hfound
      · intro ho y hy
        rcases List.mem_append.mp hy with hy | hy
        · exact hnone ho y hy
        · rcases List.mem_cons.mp hy with rfl | hy
          · exact Or.inl hlt
          · exact Or.inl (htrans x z y hlt (hzr y hy))
    | false =>
      rw [if_neg Bool.false_ne_true]
      cases hgt : cmp z x with
      | true =>
        obtain ⟨o, hfound, hsome, hnone⟩ := ihr fuel hshowsr hr (by omega)
        refine ⟨o, ?_, fun y hy =>
          ⟨List.mem_append_right _ (List.mem_cons_of_mem _ (hsome y hy).1), (hsome y hy).2⟩, ?_⟩
        · rw [if_pos rfl, hright]
          exact hfound
        · intro ho y hy
          rcases List.mem_append.mp hy with hy | hy
          · exact Or.inr (htrans y z x (hlz y hy z List.mem_cons_self) hgt)
          · rcases List.mem_cons.mp hy with rfl | hy
            · exact Or.inr hgt
            · exact hnone ho y hy
      | false =>
        refine ⟨some z, by rw [if_neg Bool.false_ne_true], ?_, by simp⟩
        intro y hy
        obtain rfl := Option.some.inj hy
        exact ⟨List.mem_append_right _ List.mem_cons_self, hlt, hgt⟩

/-- `_rb_first` is the first node in order. -/
theorem first_spec (h : m.Is t) (hsize : t.toList.length ≤ rbFuel) :
    m.first = some t.toList.head? := by
  obtain ⟨hroot, hshows, -⟩ := is_iff.mp h
  unfold first
  rw [hroot]
  cases ht : t.root? with
  | none =>
    obtain rfl := root?_eq_none.mp ht
    rfl
  | some n =>
    obtain ⟨D, c, s, r, p, rfl, hleft, -, hfound⟩ := leftmost_spec rbFuel hshows ht hsize n
    dsimp only
    rw [hfound, toList_plug, before_of_left hleft]
    rfl

/-! ### The nodes of a tree -/

theorem Shows.child_mem (h : m.Shows v t) (hx : x ∈ t.toList) (hy : m.child d x = some y) :
    y ∈ t.toList := by
  induction t generalizing v with
  | nil => cases hx
  | node c l z r ihl ihr =>
    obtain ⟨hcell, hl, hr⟩ := h
    rcases List.mem_append.mp hx with hx | hx
    · exact List.mem_append_left _ (ihl hl hx)
    · rcases List.mem_cons.mp hx with rfl | hx
      · cases d with
        | left => exact List.mem_append_left _ (root?_mem (hcell.child.symm.trans hy))
        | right =>
          exact List.mem_append_right _ (List.mem_cons_of_mem _
            (root?_mem (hcell.other.symm.trans hy)))
      · exact List.mem_append_right _ (List.mem_cons_of_mem _ (ihr hr hx))

theorem Shows.linked (h : m.Shows v t) (hroot : ∀ x, t.root? = some x → m.Linked x)
    (hx : x ∈ t.toList) : m.Linked x := by
  induction t generalizing v with
  | nil => cases hx
  | node c l z r ihl ihr =>
    obtain ⟨hcell, hl, hr⟩ := h
    have hz := hroot z rfl
    rcases List.mem_append.mp hx with hx | hx
    · exact ihl hl (fun y hy => .child .left hz (hcell.child.trans hy)) hx
    · rcases List.mem_cons.mp hx with rfl | hx
      · exact hz
      · exact ihr hr (fun y hy => .child .right hz (hcell.other.trans hy)) hx

/-- The nodes of the tree are the ones that are linked to the root. -/
theorem Is.linked_iff (h : m.Is t) : m.Linked x ↔ x ∈ t.toList := by
  obtain ⟨hroot, hshows, -⟩ := is_iff.mp h
  constructor
  · intro hx
    induction hx with
    | root hx => exact root?_mem (hroot.symm.trans hx)
    | child d _ hy ih => exact hshows.child_mem ih hy
  · exact hshows.linked fun y hy => .root (hroot.trans hy)

theorem Is.congr (h : m.Is t) (hroot : m'.root = m.root)
    (hnode : ∀ x ∈ t.toList, m'.node x = m.node x) : m'.Is t := by
  obtain ⟨h₁, h₂, h₃⟩ := is_iff.mp h
  exact is_iff.mpr ⟨hroot.trans h₁, h₂.congr hnode, h₃⟩

/-! ### Runs -/

variable [DecidableEq T]

/-- The states and the nodes of a tree, from an empty root on. -/
inductive RbRun (cmp : T → T → Bool) : RbTree T → Finset T → Prop
  | start {m : RbTree T} : m.root = none → RbRun cmp m ∅
  /-- Nodes that are not in the tree are not the tree's. -/
  | write {m m' : RbTree T} {N : Finset T} : RbRun cmp m N → m'.root = m.root →
    (∀ x ∈ N, m'.node x = m.node x) → RbRun cmp m' N
  | insert {m m' : RbTree T} {N : Finset T} {x : T} : RbRun cmp m N → x ∉ N →
    m.insert cmp x = some (0, m') → RbRun cmp m' (Insert.insert x N)
  | equal {m m' : RbTree T} {N : Finset T} {x : T} : RbRun cmp m N → x ∉ N →
    m.insert cmp x = some (-1, m') → RbRun cmp m' N
  | erase {m m' : RbTree T} {N : Finset T} {x : T} : RbRun cmp m N → x ∈ N →
    m.erase x = some m' → RbRun cmp m' (N.erase x)

variable {N : Finset T}

/-- The tree of the nodes is red-black and sorted. -/
structure Shape (cmp : T → T → Bool) (m : RbTree T) (t : BinTree T) (N : Finset T) : Prop where
  is : m.Is t
  valid : t.Valid
  sorted : t.toList.Pairwise fun a b => cmp a b
  mem : ∀ x, x ∈ t.toList ↔ x ∈ N

/-- Each step keeps the tree red-black and sorted. -/
theorem RbRun.shape (htrans : ∀ a b c, cmp a b → cmp b c → cmp a c)
    (hmem : ∀ l : List T, l.Nodup → l.length < rbFuel) (h : RbRun cmp m N) :
    ∃ t, Shape cmp m t N := by
  induction h with
  | start hroot =>
    exact ⟨.nil, is_iff.mpr ⟨hroot, trivial, List.nodup_nil⟩, ⟨0, .nil⟩, .nil, by simp [toList]⟩
  | write _ hroot hnode ih =>
    obtain ⟨t, h⟩ := ih
    exact ⟨t, h.is.congr hroot fun x hx => hnode x ((h.mem x).mp hx), h.valid, h.sorted, h.mem⟩
  | @insert m m' N x _ hx hinsert ih =>
    obtain ⟨t, h⟩ := ih
    rcases insert_spec htrans h.is h.valid h.sorted (fun hmem => hx ((h.mem x).mp hmem))
      (hmem _ h.is.nodup) with ⟨m'', hstep, -⟩ | ⟨m'', t', hstep, his, hvalid, hsorted, hmem', -⟩
    · cases hstep.symm.trans hinsert
    · obtain ⟨-, rfl⟩ := Prod.mk.inj (Option.some.inj (hstep.symm.trans hinsert))
      refine ⟨t', his, hvalid, hsorted, fun z => ?_⟩
      rw [hmem', Finset.mem_insert, h.mem]
  | @equal m m' N x _ hx hinsert ih =>
    obtain ⟨t, h⟩ := ih
    rcases insert_spec htrans h.is h.valid h.sorted (fun hmem => hx ((h.mem x).mp hmem))
      (hmem _ h.is.nodup) with ⟨m'', hstep, his, -⟩ | ⟨m'', t', hstep, -⟩
    · obtain ⟨-, rfl⟩ := Prod.mk.inj (Option.some.inj (hstep.symm.trans hinsert))
      exact ⟨t, his, h.valid, h.sorted, h.mem⟩
    · cases hstep.symm.trans hinsert
  | @erase m m' N x _ hx herase ih =>
    obtain ⟨t, h⟩ := ih
    obtain ⟨m'', t', hstep, his, hvalid, hlist⟩ :=
      erase_spec h.is h.valid ((h.mem x).mpr hx) (hmem _ h.is.nodup)
    obtain rfl := Option.some.inj (hstep.symm.trans herase)
    refine ⟨t', his, hvalid, ?_, fun z => ?_⟩
    · rw [hlist]
      exact h.sorted.sublist List.erase_sublist
    · rw [hlist, h.is.nodup.mem_erase_iff, h.mem, Finset.mem_erase]

/-- In every state of a run the nodes make up a sorted red-black tree, with every parent pointer
in its place, of the nodes that were inserted and not erased; and each function does in it what
it should. -/
theorem rbtree_run (htrans : ∀ a b c, cmp a b → cmp b c → cmp a c)
    (hmem : ∀ l : List T, l.Nodup → l.length < rbFuel) (h : RbRun cmp m N) :
    (∃ t, m.root = t.root? ∧ m.Shows none t ∧ t.Valid ∧ t.toList.Nodup ∧
      (t.toList.Pairwise fun a b => cmp a b) ∧ (∀ x, x ∈ t.toList ↔ x ∈ N)) ∧
    (∀ x, m.Linked x ↔ x ∈ N) ∧
    (∀ x, x ∉ N → ∃ r m', m.insert cmp x = some (r, m') ∧ (r = 0 ∨ r = -1) ∧
      (r = -1 ↔ ∃ y ∈ N, cmp x y = false ∧ cmp y x = false) ∧
      (r = -1 → m'.root = m.root ∧ ∀ y ∈ N, m'.node y = m.node y)) ∧
    (∀ x ∈ N, ∃ m', m.erase x = some m') ∧
    (∀ x, ∃ r, m.lookup cmp x = some r ∧
      (r = none ↔ ¬∃ y ∈ N, cmp x y = false ∧ cmp y x = false) ∧
      ∀ y, r = some y → y ∈ N ∧ cmp x y = false ∧ cmp y x = false) ∧
    ∃ r, m.first = some r ∧ (r = none ↔ N = ∅) ∧
      ∀ y, r = some y → y ∈ N ∧ ∀ z ∈ N, z ≠ y → cmp y z := by
  obtain ⟨t, h⟩ := h.shape htrans hmem
  obtain ⟨hroot, hshows, hnodup⟩ := is_iff.mp h.is
  have hsize := hmem _ hnodup
  refine ⟨⟨t, hroot, hshows, h.valid, hnodup, h.sorted, h.mem⟩, ?_, ?_, ?_, ?_, ?_⟩
  · intro x
    rw [h.is.linked_iff, h.mem]
  · intro x hx
    rcases insert_spec htrans h.is h.valid h.sorted (fun hmem => hx ((h.mem x).mp hmem)) hsize with
      ⟨m', hstep, -, hroot', hnode, z, hz, hequal⟩ | ⟨m', -, hstep, -, -, -, -, hother⟩
    · refine ⟨-1, m', hstep, Or.inr rfl, iff_of_true rfl ⟨z, (h.mem z).mp hz, hequal⟩, fun _ =>
        ⟨hroot', fun y hy => hnode y ?_⟩⟩
      rintro rfl
      exact hx hy
    · refine ⟨0, m', hstep, Or.inl rfl, iff_of_false (by simp) ?_, fun hr => by simp at hr⟩
      rintro ⟨y, hy, hxy, hyx⟩
      rcases hother y ((h.mem y).mpr hy) with hlt | hgt
      · exact Bool.false_ne_true (hxy.symm.trans hlt)
      · exact Bool.false_ne_true (hyx.symm.trans hgt)
  · intro x hx
    obtain ⟨m', -, hstep, -⟩ := erase_spec h.is h.valid ((h.mem x).mpr hx) hsize
    exact ⟨m', hstep⟩
  · intro x
    obtain ⟨r, hfound, hsome, hnone⟩ :=
      lookupFrom_spec (x := x) htrans rbFuel hshows h.sorted hsize.le
    refine ⟨r, ?_, ?_, fun y hy => ⟨(h.mem y).mp (hsome y hy).1, (hsome y hy).2⟩⟩
    · rw [lookup, hroot]
      exact hfound
    · constructor
      · rintro rfl ⟨y, hy, hxy, hyx⟩
        rcases hnone rfl y ((h.mem y).mpr hy) with hlt | hgt
        · exact Bool.false_ne_true (hxy.symm.trans hlt)
        · exact Bool.false_ne_true (hyx.symm.trans hgt)
      · intro hnot
        cases r with
        | none => rfl
        | some y => exact absurd ⟨y, (h.mem y).mp (hsome y rfl).1, (hsome y rfl).2⟩ hnot
  · refine ⟨t.toList.head?, first_spec h.is hsize.le, ?_, fun y hy => ?_⟩
    · rw [List.head?_eq_none_iff, List.eq_nil_iff_forall_not_mem, Finset.eq_empty_iff_forall_notMem]
      exact forall_congr' fun x => not_congr (h.mem x)
    · obtain ⟨l, hl⟩ := List.head?_eq_some_iff.mp hy
      have hsorted := h.sorted
      rw [hl, List.pairwise_cons] at hsorted
      refine ⟨(h.mem y).mp (hl ▸ List.mem_cons_self), fun z hz hzy => hsorted.1 z ?_⟩
      have hz' := (h.mem z).mpr hz
      rw [hl] at hz'
      exact (List.mem_cons.mp hz').resolve_left hzy

/-- The third node makes the second one the root, which is erased then. -/
theorem rbtree_run_three : ∃ m : RbTree (Fin 3), RbRun (fun a b => decide (a < b)) m {2, 0} ∧
    (∀ x, m.Linked x ↔ x ∈ ({2, 0} : Finset (Fin 3))) ∧ ∃ r, m.first = some r ∧
      ∀ y, r = some y → ∀ z ∈ ({2, 0} : Finset (Fin 3)), z ≠ y → decide (y < z) := by
  have htrans : ∀ a b c : Fin 3, decide (a < b) → decide (b < c) → decide (a < c) := by decide
  have hmem : ∀ l : List (Fin 3), l.Nodup → l.length < rbFuel := fun l hl =>
    lt_of_le_of_lt hl.length_le_card (by decide)
  have h₀ : RbRun (fun a b : Fin 3 => decide (a < b)) ⟨fun _ => .zero, none⟩ ∅ := .start rfl
  have h₁ := h₀.insert (x := 0) (by decide) rfl
  have h₂ := h₁.insert (x := 1) (by decide) rfl
  have h₃ := h₂.insert (x := 2) (by decide) rfl
  have h₄ := h₃.erase (x := 1) (by decide) rfl
  obtain ⟨-, hlinked, -, -, -, r, hfirst, -, hleast⟩ := rbtree_run htrans hmem h₄
  exact ⟨_, h₄, hlinked, r, hfirst, fun y hy => (hleast y hy).2⟩

end RbTree

end OsLab
