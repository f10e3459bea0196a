/-
How the nodes of `common/rbtree.c` make up a tree.

The memory is described in pieces: the fields of a node, a tree below a node, what is around a
place, and the pointer to the root.  `RbTree.Held m ps` says that these are in memory, and that no
node is in two of them.

* `held_join`, `held_cons`, `held_plug` — a tree, a path and the whole are held when their parts
  are;
* `Held.setChild`, `Held.setParentColor` and the like — what a store does to the pieces;
* `Held.adopt`, `Held.changeChild`, `Held.rotateSetParents` — the steps of the rotations.
-/
import OsLab.Common.Rbtree
import OsLab.Lib.Footprint
import Mathlib.Tactic.Abel

namespace OsLab

open BinTree TreePath

namespace RbTree

variable {T : Type}

/-- The fields of a node: the child on side `d` is `a`, and `b` is the other one. -/
structure Cell (m : RbTree T) (x : T) (parent : Option T) (black : Bool) (d : Side)
    (a b : Option T) : Prop where
  parent : (m.node x).parent = parent
  black : (m.node x).black = black
  child : m.child d x = a
  other : m.child d.other x = b

/-- The tree is in memory, below `v`. -/
def Shows (m : RbTree T) : Option T → BinTree T → Prop
  | _, .nil => True
  | v, .node c l x r =>
    m.Cell x v c .left l.root? r.root? ∧ m.Shows (some x) l ∧ m.Shows (some x) r

/-- The nodes around a place are in memory, below `v` and with `hole` as the link to the place. -/
def ShowsPath (m : RbTree T) (v : Option T) : Option T → TreePath T → Prop
  | _, [] => True
  | hole, f :: C => m.Cell f.key (above v C) f.black f.side hole f.sibling.root? ∧
    m.Shows (some f.key) f.sibling ∧ m.ShowsPath v (some f.key) C

/-- A part of the memory. -/
inductive RbPiece (T : Type)
  | ptr (o : Option T)
  | cell (x : T) (parent : Option T) (black : Bool) (d : Side) (a b : Option T)
  | tree (v : Option T) (t : BinTree T)
  | path (v hole : Option T) (C : TreePath T)

open RbPiece

/-- The locations are the nodes, and `none` for the pointer to the root. -/
def Same (m m' : RbTree T) : Option T → Prop
  | none => m'.root = m.root
  | some x => m'.node x = m.node x

def RbPiece.foot : RbPiece T → Multiset (Option T)
  | ptr _ => {none}
  | cell x _ _ _ _ _ => {some x}
  | tree _ t => (t.toList.map some : List (Option T))
  | path _ _ C => ((keys C).map some : List (Option T))

def RbPiece.Holds (m : RbTree T) : RbPiece T → Prop
  | ptr o => m.root = o
  | cell x parent black d a b => m.Cell x parent black d a b
  | tree v t => m.Shows v t
  | path v hole C => m.ShowsPath v hole C

variable {m m' : RbTree T} {x y g p : T} {v w o hole : Option T} {c c' k : Bool} {d e : Side}
  {a b a' b' : Option T} {s t u : BinTree T} {C D : TreePath T} {n : ℕ}
  {R : Multiset (RbPiece T)}

theorem Cell.congr (h : m.Cell x v c d a b) (heq : m'.node x = m.node x) :
    m'.Cell x v c d a b := by
  have hchild : ∀ e, m'.child e x = m.child e x := fun e => by
    cases e <;> simp only [RbTree.child, heq]
  exact ⟨heq ▸ h.parent, heq ▸ h.black, (hchild d).trans h.child, (hchild d.other).trans h.other⟩

theorem Cell.swap (h : m.Cell x v c d a b) : m.Cell x v c d.other b a :=
  ⟨h.parent, h.black, h.other, by rw [Side.other_other]; exact h.child⟩

theorem Shows.congr (h : m.Shows v t) (heq : ∀ x ∈ t.toList, m'.node x = m.node x) :
    m'.Shows v t := by
  induction t generalizing v with
  | nil => trivial
  | node c l x r ihl ihr =>
    simp only [toList, List.mem_append, List.mem_cons] at heq
    obtain ⟨hcell, hl, hr⟩ := h
    exact ⟨hcell.congr (heq x (Or.inr (Or.inl rfl))), ihl hl fun y hy => heq y (Or.inl hy),
      ihr hr fun y hy => heq y (Or.inr (Or.inr hy))⟩

theorem ShowsPath.congr (h : m.ShowsPath v hole C) (heq : ∀ x ∈ keys C, m'.node x = m.node x) :
    m'.ShowsPath v hole C := by
  induction C generalizing hole with
  | nil => trivial
  | cons f C ih =>
    simp only [keys, List.mem_cons, List.mem_append] at heq
    obtain ⟨hcell, hs, hC⟩ := h
    exact ⟨hcell.congr (heq _ (Or.inl rfl)), hs.congr fun y hy => heq y (Or.inr (Or.inl hy)),
      ih hC fun y hy => heq y (Or.inr (Or.inr hy))⟩

/-- The pieces of a red-black tree in memory. -/
def pieces (T : Type) : Pieces (RbTree T) (Option T) (RbPiece T) where
  Same := Same
  foot := RbPiece.foot
  Holds := RbPiece.Holds
  congr {m m' p} hsame h := by
    cases p with
    | ptr o => exact (hsame none (Multiset.mem_singleton_self _)).trans h
    | cell x => exact h.congr (hsame (some x) (Multiset.mem_singleton_self _))
    | tree v t => exact h.congr fun x hx => hsame (some x) (List.mem_map_of_mem hx)
    | path v hole C => exact h.congr fun x hx => hsame (some x) (List.mem_map_of_mem hx)

abbrev Held (m : RbTree T) (ps : Multiset (RbPiece T)) : Prop := (pieces T).Held m ps

/-- Everything around a place, with `hole` as the link to it. -/
def around (hole : Option T) (C : TreePath T) : Multiset (RbPiece T) :=
  {ptr (top hole C)} + {path none hole C}

/-- The memory is the tree. -/
def Is (m : RbTree T) (t : BinTree T) : Prop := m.Held ({ptr t.root?} + {tree none t})

/-! ### Parts -/

@[simp] theorem foot_cell : (pieces T).foot (cell x v c d a b) = {some x} := rfl

@[simp] theorem foot_ptr : (pieces T).foot (ptr o) = {none} := rfl

@[simp] theorem foot_tree : (pieces T).foot (tree v t) = (t.toList.map some : List (Option T)) :=
  rfl

@[simp] theorem foot_path :
    (pieces T).foot (path v hole C) = ((keys C).map some : List (Option T)) := rfl

theorem held_swap : m.Held ({cell x v c d a b} + R) ↔ m.Held ({cell x v c d.other b a} + R) := by
  refine Pieces.held_congr ?_ rfl
  simp only [Multiset.mem_singleton, forall_eq]
  exact ⟨Cell.swap, fun h => Side.other_other d ▸ Cell.swap h⟩

theorem held_nil : m.Held ({tree v .nil} + R) ↔ m.Held R := by
  rw [← zero_add R, ← add_assoc, add_zero]
  refine Pieces.held_congr ?_ rfl
  simp only [Multiset.mem_singleton, forall_eq, Multiset.notMem_zero, false_implies, implies_true,
    iff_true]
  trivial

/-- The parts of a tree. -/
theorem held_join : m.Held ({tree v (join d c x s t)} + R) ↔
    m.Held ({cell x v c d s.root? t.root?} + {tree (some x) s} + {tree (some x) t} + R) := by
  refine Pieces.held_congr ?_ ?_
  · simp only [Multiset.mem_add, Multiset.mem_singleton, or_imp, forall_and, forall_eq, and_assoc]
    cases d with
    | left => exact Iff.rfl
    | right =>
      constructor
      · rintro ⟨hcell, ht, hs⟩
        exact ⟨hcell.swap, hs, ht⟩
      · rintro ⟨hcell, hs, ht⟩
        exact ⟨hcell.swap, ht, hs⟩
  · simp only [Pieces.feet_add, Pieces.feet_singleton, foot_cell, foot_tree]
    cases d <;> simp [join, toList, ← Multiset.coe_add, ← Multiset.singleton_add,
      ← Multiset.cons_coe] <;> abel

theorem Held.fold (h : m.Held ({cell x v c d a b} + {tree (some x) s} + {tree (some x) t} + R))
    (hs : s.root? = a) (ht : t.root? = b) : m.Held ({tree v (join d c x s t)} + R) :=
  held_join.mpr (by rwa [hs, ht])

/-- The parts of a path. -/
theorem held_path_cons {f : TreeFrame T} : m.Held ({path v hole (f :: C)} + R) ↔
    m.Held ({cell f.key (above v C) f.black f.side hole f.sibling.root?} +
      {tree (some f.key) f.sibling} + {path v (some f.key) C} + R) := by
  refine Pieces.held_congr ?_ ?_
  · simp only [Multiset.mem_add, Multiset.mem_singleton, or_imp, forall_and, forall_eq, and_assoc]
    exact Iff.rfl
  · simp only [Pieces.feet_add, Pieces.feet_singleton, foot_cell, foot_tree, foot_path, keys,
      List.map_cons, List.map_append, ← Multiset.coe_add, ← Multiset.singleton_add,
      ← Multiset.cons_coe]
    abel

theorem held_path_nil : m.Held ({path v hole []} + R) ↔ m.Held R := by
  rw [← zero_add R, ← add_assoc, add_zero]
  refine Pieces.held_congr ?_ rfl
  simp only [Multiset.mem_singleton, forall_eq, Multiset.notMem_zero, false_implies, implies_true,
    iff_true]
  trivial

theorem held_cons {f : TreeFrame T} : m.Held (around hole (f :: C) + R) ↔
    m.Held ({cell f.key (above none C) f.black f.side hole f.sibling.root?} +
      {tree (some f.key) f.sibling} + around (some f.key) C + R) := by
  rw [around, around, top, add_comm {ptr _}, add_assoc, held_path_cons]
  have harrange : ∀ p q r s t : Multiset (RbPiece T),
      p + q + r + (s + t) = p + q + (s + r) + t := by
    intro p q r s t
    abel
  rw [harrange]

/-- The lower part of a path. -/
theorem held_append : m.Held (around hole (D ++ C) + R) ↔
    m.Held ({path (above none C) hole D} + around (top hole D) C + R) := by
  induction D generalizing hole R with
  | nil => rw [add_assoc, held_path_nil, List.nil_append, top]
  | cons f D ih =>
    have hleft : ∀ p q r s : Multiset (RbPiece T), p + q + r + s = r + (p + q + s) := by
      intro p q r s
      abel
    have hright : ∀ p q r s t : Multiset (RbPiece T),
        p + q + (r + s + t) = r + s + p + (q + t) := by
      intro p q r s t
      abel
    rw [List.cons_append, held_cons, hleft, ih, hright, above_append, ← held_path_cons, top,
      ← add_assoc]

/-- A tree in its place, in a part of a path. -/
theorem held_path_plug : m.Held ({tree v (plug D t)} + R) ↔
    m.Held ({path v t.root? D} + {tree (above v D) t} + R) := by
  induction D generalizing t R with
  | nil => rw [add_assoc, held_path_nil, plug, above]
  | cons f D ih =>
    have hleft : ∀ p q r : Multiset (RbPiece T), p + q + r = q + (p + r) := by
      intro p q r
      abel
    have hright : ∀ p q r s q' : Multiset (RbPiece T),
        p + q + r + (q' + s) = p + q' + q + (r + s) := by
      intro p q r s q'
      abel
    rw [plug, ih, TreeFrame.fill, root?_join, above, add_assoc {path v t.root? _}, held_path_cons,
      hright, ← held_join, hleft]

theorem held_around_nil : m.Held (around hole [] + R) ↔ m.Held ({ptr hole} + R) := by
  refine Pieces.held_congr ?_ ?_
  · simp only [around, Multiset.mem_add, Multiset.mem_singleton, or_imp, forall_and, forall_eq]
    exact and_iff_left trivial
  · rw [around, Pieces.feet_add, Pieces.feet_singleton, Pieces.feet_singleton]
    exact add_zero _

theorem held_leaf : m.Held ({tree v (.node c .nil x .nil)} + R) ↔
    m.Held ({cell x v c .left none none} + R) := by
  have hjoin := held_join (m := m) (v := v) (d := .left) (c := c) (x := x) (s := .nil) (t := .nil)
    (R := R)
  rw [add_assoc, add_assoc, add_left_comm, held_nil, add_left_comm, held_nil] at hjoin
  exact hjoin

/-- From a node to a child. -/
theorem held_down : m.Held (around (some x) C + {tree (above none C) (join d c x s t)} + R) ↔
    m.Held (around s.root? (⟨d, c, x, t⟩ :: C) + {tree (some x) s} + R) := by
  have harrange : {cell x (above none C) c d s.root? t.root?} + {tree (some x) t} +
      around (some x) C + ({tree (some x) s} + R) =
      {cell x (above none C) c d s.root? t.root?} + {tree (some x) s} + {tree (some x) t} +
      (around (some x) C + R) := by abel
  rw [add_assoc (around s.root? _), held_cons, harrange, ← held_join, add_left_comm, add_assoc]

/-- A tree in its place is a part of a tree. -/
theorem held_plug : m.Held (around t.root? C + {tree (above none C) t}) ↔ m.Is (plug C t) := by
  induction C generalizing t with
  | nil =>
    exact held_around_nil
  | cons f C ih =>
    have hdown := held_down (m := m) (x := f.key) (C := C) (d := f.side) (c := f.black) (s := t)
      (t := f.sibling) (R := 0)
    rw [add_zero, add_zero] at hdown
    rw [plug, ← ih, TreeFrame.fill, root?_join]
    exact hdown.symm

theorem Held.whole (h : m.Held (around hole C + {tree (above none C) t})) (ht : t.root? = hole) :
    m.Is (plug C t) :=
  held_plug.mp (by rwa [ht])

theorem Held.node (h : m.Held ({tree v (join d c x s t)} + R)) :
    m.Cell x v c d s.root? t.root? :=
  (((held_join.mp h).arrange _ (add_assoc _ _ _)).arrange _ (add_assoc _ _ _)).head

/-- The colour of a root. -/
theorem Held.colour (h : m.Held ({tree v t} + R)) (ht : t.Balanced c n) (hx : t.root? = some x) :
    (m.node x).black = c := by
  obtain ⟨k, l, r, rfl⟩ := exists_join .left hx
  rw [← ht.colour rfl]
  exact (Held.node h).black

theorem Held.blackOrNull [DecidableEq T] (h : m.Held ({tree v t} + R)) (ht : t.Balanced c n) :
    m.blackOrNull t.root? = c := by
  cases hroot : t.root? with
  | none =>
    obtain rfl := root?_eq_none.mp hroot
    cases ht
    rfl
  | some x => exact Held.colour h ht hroot

/-- On which side a child is. -/
theorem Cell.side (h : m.Cell x v c d a b) (hne : a ≠ b) [DecidableEq T] :
    (if a ≠ (m.node x).right then Side.left else .right) = d := by
  cases d with
  | left =>
    have hb : (m.node x).right = b := h.other
    rw [hb, if_pos hne]
  | right =>
    have ha : (m.node x).right = a := h.child
    rw [ha, if_neg (not_not.mpr rfl)]

theorem is_iff : m.Is t ↔ m.root = t.root? ∧ m.Shows none t ∧ t.toList.Nodup := by
  have hfeet : ((pieces T).feet ({ptr t.root?} + {tree none t})).Nodup ↔ t.toList.Nodup := by
    rw [Pieces.feet_add, Pieces.feet_singleton, Pieces.feet_singleton, Multiset.nodup_add,
      foot_tree, foot_ptr, Multiset.coe_nodup, List.nodup_map_iff (Option.some_injective T)]
    simp
  constructor
  · intro h
    exact ⟨h.head, (h.arrange _ (add_comm _ _)).head, hfeet.mp (Pieces.Held.nodup h)⟩
  · rintro ⟨hroot, hshows, hnodup⟩
    refine ⟨fun p hp => ?_, hfeet.mpr hnodup⟩
    simp only [Multiset.mem_add, Multiset.mem_singleton] at hp
    rcases hp with rfl | rfl
    · exact hroot
    · exact hshows

theorem Is.nodup (h : m.Is t) : t.toList.Nodup := (is_iff.mp h).2.2

theorem Held.fields (h : m.Held ({cell x v c d a b} + R)) : m.Cell x v c d a b := h.head

/-- The roots of two trees are different. -/
theorem Held.root?_ne (h : m.Held ({tree v s} + {tree w t} + R)) (hs : s.root? = some x) :
    t.root? ≠ some x := fun ht =>
  h.disjoint (List.mem_map_of_mem (root?_mem hs)) (List.mem_map_of_mem (root?_mem ht))

theorem Held.ne_root? (h : m.Held ({cell x v c d a b} + {tree w t} + R)) : t.root? ≠ some x :=
  fun ht => h.disjoint (Multiset.mem_singleton_self _) (List.mem_map_of_mem (root?_mem ht))

/-! ### Stores -/

variable [DecidableEq T]

theorem setParentColorIf_some : m.setParentColorIf (some x) w k = m.setParentColor x w k := rfl

theorem Held.setChild (h : m.Held ({cell x v c d a b} + R)) (o : Option T) :
    (m.setChild d x o).Held ({cell x v c d o b} + R) := by
  obtain ⟨hp, hb, -, ho⟩ := h.fields
  refine h.frame ?_ le_rfl ?_
  · simp only [Multiset.mem_singleton, forall_eq]
    cases d with
    | left =>
      have hx : (m.setChild .left x o).node x = { m.node x with left := o } :=
        Function.update_self _ _ _
      exact ⟨(congrArg RbNode.parent hx).trans hp, (congrArg RbNode.black hx).trans hb,
        congrArg RbNode.left hx, (congrArg RbNode.right hx).trans ho⟩
    | right =>
      have hx : (m.setChild .right x o).node x = { m.node x with right := o } :=
        Function.update_self _ _ _
      exact ⟨(congrArg RbNode.parent hx).trans hp, (congrArg RbNode.black hx).trans hb,
        congrArg RbNode.right hx, (congrArg RbNode.left hx).trans ho⟩
  · intro l hl
    cases l with
    | none => cases d <;> rfl
    | some y =>
      have hy : y ≠ x := fun heq => hl (by simp [heq])
      cases d <;> exact Function.update_of_ne hy _ _

omit [DecidableEq T] in
theorem Held.setRoot (h : m.Held ({ptr o} + R)) (hole : Option T) :
    Held { m with root := hole } ({ptr hole} + R) := by
  refine h.frame ?_ le_rfl ?_
  · simp only [Multiset.mem_singleton, forall_eq]
    rfl
  · intro l hl
    cases l with
    | none => exact absurd (Multiset.mem_singleton_self _) hl
    | some y => rfl

theorem Held.setOther (h : m.Held ({cell x v c d a b} + R)) (o : Option T) :
    (m.setChild d.other x o).Held ({cell x v c d a o} + R) :=
  held_swap.mpr (Held.setChild (held_swap.mp h) o)

theorem Held.setParentColor (h : m.Held ({cell x v c d a b} + R)) (w : Option T) (k : Bool) :
    (m.setParentColor x w k).Held ({cell x w k d a b} + R) := by
  obtain ⟨-, -, ha, hb⟩ := h.fields
  have hx : (m.setParentColor x w k).node x = { m.node x with parent := w, black := k } :=
    Function.update_self _ _ _
  have hchild : ∀ e, (m.setParentColor x w k).child e x = m.child e x := by
    intro e
    cases e <;> simp only [RbTree.child, hx]
  refine h.frame ?_ le_rfl ?_
  · simp only [Multiset.mem_singleton, forall_eq]
    exact ⟨by rw [hx], by rw [hx], (hchild d).trans ha, (hchild d.other).trans hb⟩
  · intro l hl
    cases l with
    | none => rfl
    | some y =>
      have hy : y ≠ x := fun heq => hl (by simp [heq])
      exact Function.update_of_ne hy _ _

theorem Held.setParent (h : m.Held ({cell x v c d a b} + R)) (w : Option T) :
    (m.setParent x w).Held ({cell x w c d a b} + R) := by
  unfold RbTree.setParent
  rw [h.fields.black]
  exact Held.setParentColor h w c

/-- A tree gets another parent, and its root a colour. -/
theorem Held.setParentColorIf (h : m.Held ({tree v t} + R)) (w : Option T) (k : Bool) :
    (m.setParentColorIf t.root? w k).Held ({tree w (t.paint k)} + R) := by
  cases t with
  | nil => exact held_nil.mpr (held_nil.mp h)
  | node c l x r =>
    have hparts := held_join (d := .left).mp h
    rw [add_assoc, add_assoc] at hparts
    have hset := Held.setParentColor hparts w k
    rw [← add_assoc, ← add_assoc] at hset
    exact held_join (d := .left).mpr hset

/-- A tree becomes the child of a node. -/
theorem Held.adopt (h : m.Held ({cell x v c d a b} + {tree w t} + R)) (k : Bool) :
    ((m.setChild d x t.root?).setParentColorIf t.root? (some x) k).Held
      ({cell x v c d t.root? b} + {tree (some x) (t.paint k)} + R) := by
  rw [add_assoc] at h
  have hset := (Held.setChild h t.root?).arrange
    ({tree w t} + ({cell x v c d t.root? b} + R)) (by abel)
  exact (Held.setParentColorIf hset (some x) k).arrange _ (by abel)

/-- The link to a place is changed. -/
theorem Held.changeChild (h : m.Held (around (some x) C + {cell x v c d a b} + R))
    (new : Option T) :
    (m.changeChild x new (above none C)).Held (around new C + {cell x v c d a b} + R) := by
  cases C with
  | nil =>
    rw [add_assoc, held_around_nil] at h ⊢
    exact Held.setRoot h new
  | cons f C =>
    rw [add_assoc, held_cons] at h ⊢
    have hparts := h.arrange ({cell x v c d a b} + {tree (some f.key) f.sibling} +
      ({cell f.key (above none C) f.black f.side (some x) f.sibling.root?} +
        around (some f.key) C + R)) (by abel)
    have hsibling := Held.ne_root? hparts
    rw [add_assoc, add_assoc] at h ⊢
    have hset := Held.setChild h new
    obtain ⟨-, -, hside, hother⟩ := h.fields
    have hstore : m.changeChild x new (some f.key) = m.setChild f.side f.key new := by
      unfold RbTree.changeChild
      cases hd : f.side with
      | left =>
        rw [hd] at hside
        exact if_pos hside
      | right =>
        rw [hd] at hother
        exact if_neg fun heq => hsibling (hother.symm.trans heq)
    rw [above, hstore]
    exact hset

/-- A node takes the place of another one, which comes below it. -/
theorem Held.rotateSetParents {b' : Option T}
    (h : m.Held (around (some g) C + {cell g (above none C) k d a b} + {cell p v c e a' b'} + R))
    (black : Bool) : (m.rotateSetParents g p black).Held
      (around (some p) C + {cell p (above none C) k e a' b'} +
        {cell g (some p) black d a b} + R) := by
  have hg := (h.arrange ({cell g (above none C) k d a b} +
    (around (some g) C + {cell p v c e a' b'} + R)) (by abel)).head
  have hp := Held.setParentColor (h.arrange ({cell p v c e a' b'} +
    (around (some g) C + {cell g (above none C) k d a b} + R)) (by abel)) (above none C) k
  have hg' := Held.setParentColor (hp.arrange ({cell g (above none C) k d a b} +
    (around (some g) C + {cell p (above none C) k e a' b'} + R)) (by abel)) (some p) black
  have hset := Held.changeChild (hg'.arrange (around (some g) C + {cell g (some p) black d a b} +
    ({cell p (above none C) k e a' b'} + R)) (by abel)) (some p)
  unfold RbTree.rotateSetParents
  rw [hg.parent, hg.black]
  exact hset.arrange _ (by abel)

/-- The end of a rotation: `g` comes below `p`. -/
theorem Held.rotate (h : m.Held (around (some g) C + {cell g (above none C) k d s.root? u.root?} +
      {tree (some g) s} + {tree (some g) u} + {cell p v c d a (some g)} + {tree (some p) t}))
    (ht : t.root? = a) (black : Bool) : (m.rotateSetParents g p black).Is
      (plug C (join d k p t (join d black g s u))) := by
  have hset := Held.rotateSetParents (h.arrange (around (some g) C +
    {cell g (above none C) k d s.root? u.root?} + {cell p v c d a (some g)} +
    ({tree (some g) s} + {tree (some g) u} + {tree (some p) t})) (by abel)) black
  have hlower := Held.fold (hset.arrange ({cell g (some p) black d s.root? u.root?} +
    {tree (some g) s} + {tree (some g) u} + (around (some p) C +
    {cell p (above none C) k d a (some g)} + {tree (some p) t})) (by abel)) rfl rfl
  have hupper := Held.fold (hlower.arrange ({cell p (above none C) k d a (some g)} +
    {tree (some p) t} + {tree (some p) (join d black g s u)} + around (some p) C) (by abel))
    ht root?_join
  exact Held.whole (hupper.arrange _ (add_comm _ _)) root?_join

end RbTree

end OsLab
