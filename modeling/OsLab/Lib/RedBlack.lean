/-
Red-black trees and places in them.

A tree is taken apart at a node by `join`, which says on which side a subtree is, so that what
holds on one side and its mirror image are one statement.  A `TreePath` is what is around a place:
the nodes above it, the closest one first, with the subtrees on their other sides.

* `BinTree.Balanced` — a tree of a colour and a number of black nodes on every way down;
  `TreePath.Fits` — the place for such a tree;
* `Fits.plug`, `Valid.unplug` — putting trees into places, and taking them out;
* `toList_plug`, `exists_plug` — the order of the nodes;
* `Fits.recolour`, `Fits.rotate_outer`, `Fits.rotate_inner` — the cases after an insertion;
* `Fits.erase_child` to `Fits.raise_inner` — the cases of a removal.
-/
import Mathlib.Data.List.Nodup
import Mathlib.Tactic.Common

namespace OsLab

/-- A side of a node. -/
inductive Side
  | left | right
  deriving DecidableEq

def Side.other : Side → Side
  | .left => .right
  | .right => .left

@[simp] theorem Side.other_other (d : Side) : d.other.other = d := by cases d <;> rfl

@[simp] theorem Side.other_ne (d : Side) : d.other ≠ d := by cases d <;> simp [Side.other]

@[simp] theorem Side.ne_other (d : Side) : d ≠ d.other := d.other_ne.symm

/-- A tree of coloured nodes. -/
inductive BinTree (α : Type*)
  | nil
  | node (black : Bool) (l : BinTree α) (x : α) (r : BinTree α)

/-- What is above a place on side `side`: a node, and the subtree on its other side. -/
structure TreeFrame (α : Type*) where
  side : Side
  black : Bool
  key : α
  sibling : BinTree α

/-- What is around a place, from the node above it up to the root. -/
abbrev TreePath (α : Type*) := List (TreeFrame α)

variable {α : Type*}

namespace BinTree

/-- The nodes in order. -/
def toList : BinTree α → List α
  | nil => []
  | node _ l x r => l.toList ++ x :: r.toList

def root? : BinTree α → Option α
  | nil => none
  | node _ _ x _ => some x

/-- The colour of the root is changed. -/
def paint (black : Bool) : BinTree α → BinTree α
  | nil => nil
  | node _ l x r => node black l x r

/-- The tree with `a` on side `d` of its root `x`, and `b` on the other side. -/
def join (d : Side) (black : Bool) (x : α) (a b : BinTree α) : BinTree α :=
  match d with
  | .left => node black a x b
  | .right => node black b x a

/-- A red-black tree with a root of the colour, `nil` counted as black, and `n` black nodes on
every way down. -/
inductive Balanced : BinTree α → Bool → ℕ → Prop
  | nil : Balanced nil true 0
  | red {l r : BinTree α} {x : α} {n : ℕ} :
    Balanced l true n → Balanced r true n → Balanced (node false l x r) false n
  | black {l r : BinTree α} {x : α} {c c' : Bool} {n : ℕ} :
    Balanced l c n → Balanced r c' n → Balanced (node true l x r) true (n + 1)

/-- A red-black tree. -/
def Valid (t : BinTree α) : Prop := ∃ n, t.Balanced true n

end BinTree

open BinTree

/-- The tree at the node of a frame, with `t` at the place. -/
def TreeFrame.fill (f : TreeFrame α) (t : BinTree α) : BinTree α :=
  join f.side f.black f.key t f.sibling

namespace TreePath

/-- The tree with `t` at the place. -/
def plug : TreePath α → BinTree α → BinTree α
  | [], t => t
  | f :: C, t => plug C (f.fill t)

/-- The node above, which is `v` where the path ends. -/
def above (v : Option α) : TreePath α → Option α
  | [] => v
  | f :: _ => some f.key

/-- The upper end of a path, with `hole` at the place. -/
def top (hole : Option α) : TreePath α → Option α
  | [] => hole
  | f :: C => top (some f.key) C

/-- The nodes before the place. -/
def before : TreePath α → List α
  | [] => []
  | f :: C => match f.side with
    | .left => before C
    | .right => before C ++ (f.sibling.toList ++ [f.key])

/-- The nodes behind the place. -/
def after : TreePath α → List α
  | [] => []
  | f :: C => match f.side with
    | .left => f.key :: f.sibling.toList ++ after C
    | .right => after C

/-- The nodes around the place. -/
def keys : TreePath α → List α
  | [] => []
  | f :: C => f.key :: (f.sibling.toList ++ keys C)

/-- The place is for trees with a root of the colour and `n` black nodes on every way down. -/
inductive Fits : TreePath α → Bool → ℕ → Prop
  | root {n : ℕ} : Fits [] true n
  | red {d : Side} {x : α} {s : BinTree α} {C : TreePath α} {n : ℕ} :
    s.Balanced true n → Fits C false n → Fits (⟨d, false, x, s⟩ :: C) true n
  | black {d : Side} {x : α} {s : BinTree α} {C : TreePath α} {c c' : Bool} {n : ℕ} :
    s.Balanced c' n → Fits C true (n + 1) → Fits (⟨d, true, x, s⟩ :: C) c n

end TreePath

variable {t s a b u : BinTree α} {C : TreePath α} {d e : Side} {c c' black : Bool}
  {x y z : α} {n k : ℕ}

namespace BinTree

/-! ### Sides -/

theorem join_other : join d.other c x a b = join d c x b a := by cases d <;> rfl

theorem root?_join : (join d c x a b).root? = some x := by cases d <;> rfl

@[simp] theorem root?_paint : (t.paint c).root? = t.root? := by cases t <;> rfl

@[simp] theorem toList_paint : (t.paint c).toList = t.toList := by cases t <;> rfl

theorem paint_join : (join d c x a b).paint c' = join d c' x a b := by cases d <;> rfl

theorem root?_mem (h : t.root? = some x) : x ∈ t.toList := by
  cases t with
  | nil => cases h
  | node c l y r =>
    obtain rfl := Option.some.inj h
    simp [toList]

theorem root?_eq_none : t.root? = none ↔ t = nil := by
  cases t <;> simp [root?]

theorem mem_join : y ∈ (join d c x a b).toList ↔ y = x ∨ y ∈ a.toList ∨ y ∈ b.toList := by
  cases d <;> simp only [join, toList, List.mem_append, List.mem_cons] <;> tauto

/-- A tree at the side of a node. -/
theorem exists_join (d : Side) (h : t.root? = some x) : ∃ c a b, t = join d c x a b := by
  cases t with
  | nil => cases h
  | node c l y r =>
    obtain rfl := Option.some.inj h
    cases d with
    | left => exact ⟨c, l, r, rfl⟩
    | right => exact ⟨c, r, l, rfl⟩

/-! ### Colours -/

theorem Balanced.colour (h : t.Balanced c n) (ht : t = join d c' x a b) : c' = c := by
  subst ht
  cases d <;> cases h <;> rfl

theorem Balanced.join (ha : a.Balanced true n) (hb : b.Balanced true n) :
    (BinTree.join d c x a b).Balanced c (n + c.toNat) := by
  cases c with
  | false =>
    cases d with
    | left => exact .red ha hb
    | right => exact .red hb ha
  | true =>
    cases d with
    | left => exact .black ha hb
    | right => exact .black hb ha

theorem Balanced.join_black (ha : a.Balanced c n) (hb : b.Balanced c' n) :
    (BinTree.join d true x a b).Balanced true (n + 1) := by
  cases d with
  | left => exact .black ha hb
  | right => exact .black hb ha

theorem Balanced.of_red (h : (BinTree.join d false x a b).Balanced c n) :
    c = false ∧ a.Balanced true n ∧ b.Balanced true n := by
  cases d with
  | left =>
    cases h with
    | red ha hb => exact ⟨rfl, ha, hb⟩
  | right =>
    cases h with
    | red hb ha => exact ⟨rfl, ha, hb⟩

theorem Balanced.of_black (h : (BinTree.join d true x a b).Balanced c n) :
    ∃ k, n = k + 1 ∧ c = true ∧ (∃ c', a.Balanced c' k) ∧ ∃ c', b.Balanced c' k := by
  cases d with
  | left =>
    cases h with
    | black ha hb => exact ⟨_, rfl, rfl, ⟨_, ha⟩, ⟨_, hb⟩⟩
  | right =>
    cases h with
    | black hb ha => exact ⟨_, rfl, rfl, ⟨_, ha⟩, ⟨_, hb⟩⟩

/-- A red root becomes black. -/
theorem Balanced.paint_red (h : t.Balanced false n) : (t.paint true).Balanced true (n + 1) := by
  cases h with
  | red hl hr => exact .black hl hr

theorem Balanced.paint_black (h : t.Balanced true n) : t.paint true = t := by
  cases h <;> rfl

/-- A tree with a black node on every way down has a root. -/
theorem Balanced.exists_root (h : t.Balanced c (n + 1)) : ∃ x, t.root? = some x := by
  cases h <;> exact ⟨_, rfl⟩

/-- A tree without black nodes is `nil`, or a red node alone. -/
theorem Balanced.of_zero (h : t.Balanced true 0) : t = BinTree.nil := by
  cases h
  rfl

end BinTree

namespace TreePath

/-! ### Places -/

theorem plug_append (C D : TreePath α) (t : BinTree α) : plug (C ++ D) t = plug D (plug C t) := by
  induction C generalizing t with
  | nil => rfl
  | cons f C ih => exact ih (f.fill t)

theorem toList_plug (C : TreePath α) (t : BinTree α) :
    (plug C t).toList = before C ++ t.toList ++ after C := by
  induction C generalizing t with
  | nil => simp [plug, before, after]
  | cons f C ih =>
    obtain ⟨d, c, x, s⟩ := f
    rw [plug, ih]
    cases d <;> simp [TreeFrame.fill, join, toList, before, after]

theorem above_append (v : Option α) (C D : TreePath α) :
    above v (C ++ D) = above (above v D) C := by
  cases C <;> rfl

theorem top_append (o : Option α) (C D : TreePath α) : top o (C ++ D) = top (top o C) D := by
  induction C generalizing o with
  | nil => rfl
  | cons f C ih => exact ih (some f.key)

theorem above_eq_none : above none C = none ↔ C = [] := by
  cases C <;> simp [above]

theorem before_append (C D : TreePath α) : before (C ++ D) = before D ++ before C := by
  induction C with
  | nil => simp [before]
  | cons f C ih => cases hd : f.side <;> simp [before, hd, ih]

theorem after_append (C D : TreePath α) : after (C ++ D) = after C ++ after D := by
  induction C with
  | nil => simp [after]
  | cons f C ih => cases hd : f.side <;> simp [after, hd, ih]

/-- Nothing is before a place on the left side. -/
theorem before_of_left (h : ∀ f ∈ C, f.side = .left) : before C = [] := by
  induction C with
  | nil => rfl
  | cons f C ih =>
    rw [before, h f List.mem_cons_self]
    exact ih fun g hg => h g (List.mem_cons_of_mem f hg)

theorem exists_plug (h : x ∈ t.toList) : ∃ C c l r, t = plug C (.node c l x r) := by
  induction t with
  | nil => cases h
  | node c l y r ihl ihr =>
    rcases List.mem_append.mp h with hl | hr
    · obtain ⟨C, c', l', r', rfl⟩ := ihl hl
      exact ⟨C ++ [⟨.left, c, y, r⟩], c', l', r', by rw [plug_append]; rfl⟩
    · rcases List.mem_cons.mp hr with rfl | hr
      · exact ⟨[], c, l, r, rfl⟩
      · obtain ⟨C, c', l', r', rfl⟩ := ihr hr
        exact ⟨C ++ [⟨.right, c, y, l⟩], c', l', r', by rw [plug_append]; rfl⟩

theorem length_add_le_plug (C : TreePath α) (t : BinTree α) :
    C.length + t.toList.length ≤ (plug C t).toList.length := by
  induction C generalizing t with
  | nil => simp [plug]
  | cons f C ih =>
    have hfill : (f.fill t).toList.length = t.toList.length + f.sibling.toList.length + 1 := by
      obtain ⟨d, c, x, s⟩ := f
      cases d <;> simp only [TreeFrame.fill, join, toList, List.length_append, List.length_cons] <;>
        omega
    have := ih (f.fill t)
    rw [plug, List.length_cons]
    omega

theorem Fits.up {f : TreeFrame α} (h : Fits (f :: C) c n) :
    Fits C f.black (n + f.black.toNat) := by
  cases h with
  | red _ h => exact h
  | black _ h => exact h

/-- The subtree beside the place. -/
theorem Fits.sibling {f : TreeFrame α} (h : Fits (f :: C) c n) :
    ∃ c', f.sibling.Balanced c' n ∧ (f.black = false → c' = true ∧ c = true) := by
  cases h with
  | red hs _ => exact ⟨true, hs, fun _ => ⟨rfl, rfl⟩⟩
  | black hs _ => exact ⟨_, hs, fun h => by cases h⟩

/-- A place for a red node is below a black one. -/
theorem Fits.exists_black (h : Fits C false n) : ∃ d x s C', C = ⟨d, true, x, s⟩ :: C' := by
  cases h with
  | black _ _ => exact ⟨_, _, _, _, rfl⟩

/-- A place below a black node is for either colour. -/
theorem Fits.of_black (h : Fits (⟨d, true, x, s⟩ :: C) c n) : Fits (⟨d, true, x, s⟩ :: C) c' n := by
  cases h with
  | black hs hC => exact .black hs hC

/-- A place for a red node is one for a black one. -/
theorem Fits.mono (h : Fits C c n) : Fits C true n := by
  cases h with
  | root => exact .root
  | red hs hC => exact .red hs hC
  | black hs hC => exact .black hs hC

/-- The place does not depend on the nodes above. -/
theorem Fits.rename {D : TreePath α} (h : Fits (D ++ ⟨d, black, x, s⟩ :: C) c n) (y : α) :
    Fits (D ++ ⟨d, black, y, s⟩ :: C) c n := by
  induction D generalizing c n with
  | nil =>
    cases h with
    | red hs hC => exact .red hs hC
    | black hs hC => exact .black hs hC
  | cons f D ih =>
    cases h with
    | red hs hC => exact .red hs (ih hC)
    | black hs hC => exact .black hs (ih hC)

/-- A tree in its place is a part of a red-black tree. -/
theorem Fits.plug (h : Fits C c n) (ht : t.Balanced c n) : (TreePath.plug C t).Valid := by
  induction h generalizing t with
  | root => exact ⟨_, ht⟩
  | red hs _ ih => exact ih (Balanced.join ht hs)
  | black hs _ ih => exact ih (Balanced.join_black ht hs)

end TreePath

/-- A part of a red-black tree, and its place. -/
theorem BinTree.Valid.unplug (h : (TreePath.plug C t).Valid) :
    ∃ c n, TreePath.Fits C c n ∧ t.Balanced c n := by
  induction C generalizing t with
  | nil =>
    obtain ⟨n, hn⟩ := h
    exact ⟨true, n, .root, hn⟩
  | cons f C ih =>
    obtain ⟨d, black, x, s⟩ := f
    obtain ⟨c, n, hC, ht⟩ := ih h
    cases black with
    | false =>
      obtain ⟨rfl, ha, hs⟩ := Balanced.of_red ht
      exact ⟨true, n, .red hs hC, ha⟩
    | true =>
      obtain ⟨k, rfl, rfl, ⟨c', ha⟩, ⟨_, hs⟩⟩ := Balanced.of_black ht
      exact ⟨c', k, .black hs hC, ha⟩

namespace TreePath

variable {p g v w : α} {sa sb ta tb : BinTree α}

/-! ### A red node below a red one -/

/-- The uncle is red: the two red nodes below the grandparent become black, and it becomes red. -/
theorem Fits.recolour (h : Fits (⟨d, false, p, s⟩ :: ⟨e, true, g, u⟩ :: C) true n)
    (ht : t.Balanced false n) (hu : u.Balanced false n) :
    Fits C true (n + 1) ∧
      (join e false g (join d true p t s) (u.paint true)).Balanced false (n + 1) := by
  obtain ⟨_, hs, hcolour⟩ := h.sibling
  obtain ⟨rfl, -⟩ := hcolour rfl
  exact ⟨h.up.up, Balanced.join (c := false) (Balanced.join_black ht hs) hu.paint_red⟩

/-- The uncle is black, and the node is on the outer side. -/
theorem Fits.rotate_outer (h : Fits (⟨d, false, p, s⟩ :: ⟨d, true, g, u⟩ :: C) true n)
    (ht : t.Balanced false n) (hu : u.Balanced true n) :
    (TreePath.plug C (join d true p t (join d false g s u))).Valid := by
  obtain ⟨_, hs, hcolour⟩ := h.sibling
  obtain ⟨rfl, -⟩ := hcolour rfl
  exact h.up.up.plug (Balanced.join_black ht (Balanced.join (c := false) hs hu))

/-- The uncle is black, and the node is on the inner side. -/
theorem Fits.rotate_inner (h : Fits (⟨d.other, false, p, s⟩ :: ⟨d, true, g, u⟩ :: C) true n)
    (ht : (join d false x a b).Balanced false n) (hu : u.Balanced true n) :
    (TreePath.plug C (join d true x (join d false p s a) (join d false g b u))).Valid := by
  obtain ⟨_, hs, hcolour⟩ := h.sibling
  obtain ⟨rfl, -⟩ := hcolour rfl
  obtain ⟨-, ha, hb⟩ := Balanced.of_red ht
  exact h.up.up.plug
    (Balanced.join_black (Balanced.join (c := false) hs ha) (Balanced.join (c := false) hb hu))

/-! ### A removal -/

/-- A node with one child is black, and the child is red. -/
theorem Fits.erase_child (h : Fits C c n) (ht : (join d c x nil b).Balanced c n)
    (hb : b.root? = some y) : c = true ∧ (TreePath.plug C (b.paint true)).Valid := by
  cases c with
  | false =>
    obtain ⟨-, ha, hb'⟩ := Balanced.of_red ht
    cases ha
    rw [hb'.of_zero] at hb
    cases hb
  | true =>
    obtain ⟨k, rfl, -, ⟨_, ha⟩, c', hb'⟩ := Balanced.of_black ht
    cases ha
    cases c' with
    | false => exact ⟨rfl, h.plug hb'.paint_red⟩
    | true =>
      rw [hb'.of_zero] at hb
      cases hb

/-- A red node without children. -/
theorem Fits.erase_red (h : Fits C false n) (ht : (join d false x nil nil).Balanced false n) :
    (TreePath.plug C nil).Valid := by
  obtain ⟨-, ha, -⟩ := Balanced.of_red ht
  cases ha
  exact h.mono.plug .nil

/-- A black node without children leaves a place for more than `nil`. -/
theorem Fits.erase_black (h : Fits C true n) (ht : (join d true x nil nil).Balanced true n) :
    Fits C true 1 := by
  obtain ⟨k, rfl, -, ⟨_, ha⟩, -⟩ := Balanced.of_black ht
  cases ha
  exact h

/-! ### A black node too few -/

/-- The sibling is red: it comes above the parent, which then has a black one. -/
theorem Fits.lower (h : Fits (⟨d, black, p, join d false v sa sb⟩ :: C) c (n + 1)) :
    black = true ∧ Fits (⟨d, false, p, sa⟩ :: ⟨d, true, v, sb⟩ :: C) true (n + 1) ∧
      sa.Balanced true (n + 1) := by
  obtain ⟨c', hs, hcolour⟩ := h.sibling
  obtain ⟨rfl, ha, hb⟩ := Balanced.of_red hs
  cases black with
  | false => cases (hcolour rfl).1
  | true => exact ⟨rfl, .red ha (.black hb h.up), ha⟩

/-- The sibling and its children are black, and the parent is red. -/
theorem Fits.even_red (h : Fits (⟨d, false, p, s⟩ :: C) c (n + 1)) (ht : t.Balanced true n)
    (ha : sa.Balanced true n) (hb : sb.Balanced true n) :
    (TreePath.plug C (join d true p t (join d false v sa sb))).Valid :=
  h.up.mono.plug (Balanced.join_black ht (Balanced.join (c := false) ha hb))

/-- The sibling and its children are black, and so is the parent: now it is one node too few
there. -/
theorem Fits.even_black (h : Fits (⟨d, true, p, s⟩ :: C) c (n + 1)) (ht : t.Balanced true n)
    (ha : sa.Balanced true n) (hb : sb.Balanced true n) :
    Fits C true (n + 1 + 1) ∧ (join d true p t (join d false v sa sb)).Balanced true (n + 1) :=
  ⟨h.up, Balanced.join_black ht (Balanced.join (c := false) ha hb)⟩

/-- The outer child of the sibling is red. -/
theorem Fits.raise_outer (h : Fits (⟨d, black, p, s⟩ :: C) c (n + 1)) (ht : t.Balanced true n)
    (ha : sa.Balanced c' n) (hb : sb.Balanced false n) :
    (TreePath.plug C (join d black v (join d true p t sa) (sb.paint true))).Valid :=
  h.up.plug (Balanced.join (Balanced.join_black ht ha) hb.paint_red)

/-- Its inner child is red. -/
theorem Fits.raise_inner (h : Fits (⟨d, black, p, s⟩ :: C) c (n + 1)) (ht : t.Balanced true n)
    (ha : (join d false w ta tb).Balanced false n) (hb : sb.Balanced true n) :
    (TreePath.plug C (join d black w (join d true p t ta) (join d true v tb sb))).Valid := by
  obtain ⟨-, hta, htb⟩ := Balanced.of_red ha
  exact h.up.plug (Balanced.join (Balanced.join_black ht hta) (Balanced.join_black htb hb))

end TreePath

end OsLab
