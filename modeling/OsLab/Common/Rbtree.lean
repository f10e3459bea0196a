/-
The red-black trees of `common/rbtree.c`.

A node has its links and its colour, a tree is a root, and a function works on the nodes
and one root.  It returns `none` when it follows a null pointer, or when it has made
`rbFuel` passes of a loop.  The two halves of the loops that repair a tree mirror each
other, and are written once for a `Side`.

* `RbTree.erase_bare` — the removal of a node without parent and children clears the
  root, whether the node is in the tree or not;
* `RbTree.insert_empty`, `RbTree.linked_iff` — the tree of one node.
-/
import OsLab.Lib.RedBlack
import Mathlib.Algebra.Order.Ring.Nat
import Mathlib.Data.Int.Notation
import Mathlib.Logic.Function.Basic
import Mathlib.Tactic.Common

namespace OsLab

/-- `struct rb_node_`; `__rb_parent_color` is `parent` and, in its lowest bit, `black`. -/
structure RbNode (T : Type) where
  parent : Option T
  black : Bool
  right : Option T
  left : Option T
  deriving DecidableEq

/-- A node in memory that is zero, and what `_rb_insert` makes of a node at first. -/
def RbNode.zero {T : Type} : RbNode T := ⟨none, false, none, none⟩

/-- A node without links. -/
structure RbNode.Bare {T : Type} (n : RbNode T) : Prop where
  parent : n.parent = none
  right : n.right = none
  left : n.left = none

/-- More passes than there are addresses. -/
def rbFuel : ℕ := 2 ^ 64

/-- The nodes, and `root->rb_node`. -/
structure RbTree (T : Type) where
  node : T → RbNode T
  root : Option T

namespace RbTree

variable {T : Type}

def child (m : RbTree T) : Side → T → Option T
  | .left, t => (m.node t).left
  | .right, t => (m.node t).right

variable [DecidableEq T]

def setChild (m : RbTree T) : Side → T → Option T → RbTree T
  | .left, t, v => { m with node := Function.update m.node t { m.node t with left := v } }
  | .right, t, v => { m with node := Function.update m.node t { m.node t with right := v } }

/-- `rb_set_parent_color` -/
def setParentColor (m : RbTree T) (t : T) (parent : Option T) (black : Bool) : RbTree T :=
  { m with node := Function.update m.node t { m.node t with parent := parent, black := black } }

/-- `rb_set_parent` -/
def setParent (m : RbTree T) (t : T) (parent : Option T) : RbTree T :=
  m.setParentColor t parent (m.node t).black

/-- `if (t) rb_set_parent_color(t, ...)` -/
def setParentColorIf (m : RbTree T) (t : Option T) (parent : Option T) (black : Bool) : RbTree T :=
  match t with
  | none => m
  | some t => m.setParentColor t parent black

/-- `!t || rb_is_black(t)` -/
def blackOrNull (m : RbTree T) : Option T → Bool
  | none => true
  | some t => (m.node t).black

/-- `__rb_change_child` -/
def changeChild (m : RbTree T) (old : T) (new parent : Option T) : RbTree T :=
  match parent with
  | none => { m with root := new }
  | some p => if (m.node p).left = some old then m.setChild .left p new else m.setChild .right p new

/-- `__rb_rotate_set_parents` -/
def rotateSetParents (m : RbTree T) (old new : T) (black : Bool) : RbTree T :=
  let parent := (m.node old).parent
  let m := m.setParentColor new parent (m.node old).black
  let m := m.setParentColor old (some new) black
  m.changeChild old (some new) parent

/-- The end of the loop of `__rb_insert_fix`: cases 2 and 3, where the uncle is black. -/
def insertRotate (m : RbTree T) (d : Side) (node parent gparent : T) : RbTree T :=
  let tmp := m.child d.other parent
  let r : RbTree T × T × Option T :=
    if some node = tmp then
      let tmp := m.child d node
      let m := m.setChild d.other parent tmp
      let m := m.setParentColorIf tmp (some parent) true
      let m := m.setChild d node (some parent)
      let m := m.setParentColor parent (some node) false
      (m, node, m.child d.other node)
    else (m, parent, tmp)
  let (m, parent, tmp) := r
  let m := m.setChild d gparent tmp
  let m := m.setParentColorIf tmp (some gparent) true
  let m := m.setChild d.other parent (some gparent)
  m.rotateSetParents gparent parent false

/-- `__rb_insert_fix`, from `while (1)` on. -/
def insertFix : ℕ → RbTree T → T → Option T → Option (RbTree T)
  | _, m, node, none => some { m.setParentColor node none true with root := some node }
  | 0, _, _, some _ => none
  | fuel + 1, m, node, some parent =>
    if (m.node parent).black then some m
    else do
      let gparent ← (m.node parent).parent
      let d : Side := if some parent ≠ (m.node gparent).right then .left else .right
      match m.child d.other gparent with
      | some uncle =>
        if (m.node uncle).black = false then
          -- case 1: go on with the grandparent
          let m := m.setParentColor uncle (some gparent) true
          let m := m.setParentColor parent (some gparent) true
          let above := (m.node gparent).parent
          insertFix fuel (m.setParentColor gparent above false) gparent above
        else some (m.insertRotate d node parent gparent)
      | none => some (m.insertRotate d node parent gparent)

/-- The loop of `_rb_insert` from `nw` on; `some none` when it returns -1. -/
def descend (cmp : T → T → Bool) (node : T) : ℕ → RbTree T → T → Option (Option (RbTree T × T))
  | 0, _, _ => none
  | fuel + 1, m, nw =>
    if cmp node nw then
      match (m.node nw).left with
      | none => some (some ((m.setChild .left nw (some node)).setParentColor node (some nw) false, nw))
      | some next => descend cmp node fuel m next
    else if cmp nw node then
      match (m.node nw).right with
      | none => some (some ((m.setChild .right nw (some node)).setParentColor node (some nw) false, nw))
      | some next => descend cmp node fuel m next
    else some none

/-- `_rb_insert`: the result and the tree. -/
def insert (m : RbTree T) (cmp : T → T → Bool) (node : T) : Option (ℤ × RbTree T) :=
  let m := { m with node := Function.update m.node node .zero }
  match m.root with
  | none => (m.insertFix rbFuel node none).map fun m => (0, m)
  | some nw => (m.descend cmp node rbFuel nw).bind fun
    | none => some (-1, m)
    | some (m, parent) => (m.insertFix rbFuel node (some parent)).map fun m => (0, m)

/-- `while (n->rb_left) n = n->rb_left`, with the node before. -/
def leftmost : ℕ → RbTree T → T → T → Option (T × T)
  | 0, _, _, _ => none
  | fuel + 1, m, parent, n =>
    match (m.node n).left with
    | none => some (parent, n)
    | some next => leftmost fuel m n next

/-- `_rb_first` -/
def first (m : RbTree T) : Option (Option T) :=
  match m.root with
  | none => some none
  | some n => (m.leftmost rbFuel n n).map fun r => some r.2

/-- `__rb_erase`: `rebalance` and the tree. -/
def eraseNode (m : RbTree T) (node : T) : Option (Option T × RbTree T) :=
  match (m.node node).left, (m.node node).right with
  | none, child =>
    let pc := m.node node
    let m := m.changeChild node child pc.parent
    match child with
    | some c => some (none, m.setParentColor c pc.parent pc.black)
    | none => some (if pc.black then pc.parent else none, m)
  | some tmp, none =>
    let pc := m.node node
    let m := m.setParentColor tmp pc.parent pc.black
    some (none, m.changeChild node (some tmp) pc.parent)
  | some _, some child => do
    -- the successor takes the place of the node
    let (parent, successor, child2, m) ← (match (m.node child).left with
      | none => some (child, child, (m.node child).right, m)
      | some tmp => (m.leftmost rbFuel child tmp).map fun r =>
        let child2 := (m.node r.2).right
        let m := m.setChild .left r.1 child2
        let m := m.setChild .right r.2 (some child)
        (r.1, r.2, child2, m.setParent child (some r.2)))
    let tmp ← (m.node node).left
    let m := (m.setChild .left successor (some tmp)).setParent tmp (some successor)
    let pc := m.node node
    let m := m.changeChild node (some successor) pc.parent
    match child2 with
    | some c =>
      let m := m.setParentColor successor pc.parent pc.black
      some (none, m.setParentColor c (some parent) true)
    | none =>
      let black := (m.node successor).black
      some (if black then some parent else none, m.setParentColor successor pc.parent pc.black)

/-- The end of the loop of `__rb_erase_fix`: cases 3 and 4, where a child `tmp1` or the other
child of the sibling is red. -/
def eraseRotate (m : RbTree T) (d : Side) (parent sibling : T) (tmp1 : Option T) :
    Option (RbTree T) := do
  let (m, sibling, tmp1) ← (
    if m.blackOrNull tmp1 then do
      let tmp2 ← m.child d sibling
      let tmp1 := m.child d.other tmp2
      let m := m.setChild d sibling tmp1
      let m := m.setParentColorIf tmp1 (some sibling) true
      let m := m.setChild d.other tmp2 (some sibling)
      some (m.setChild d.other parent (some tmp2), tmp2, some sibling)
    else some (m, sibling, tmp1))
  let tmp2 := m.child d sibling
  let m := m.setChild d.other parent tmp2
  let m := match tmp2 with
    | none => m
    | some t => m.setParent t (some parent)
  let m := m.setChild d sibling (some parent)
  let tmp1 ← tmp1
  let m := m.setParentColor tmp1 (some sibling) true
  return m.rotateSetParents parent sibling true

/-- `__rb_erase_fix`, from `while (1)` on. -/
def eraseFix : ℕ → RbTree T → Option T → T → Option (RbTree T)
  | 0, _, _, _ => none
  | fuel + 1, m, node, parent => do
    let d : Side := if node ≠ (m.node parent).right then .left else .right
    let sibling ← m.child d.other parent
    let (m, sibling) ← (
      if (m.node sibling).black = false then do
        -- case 1: the sibling becomes black
        let tmp1 ← m.child d sibling
        let m := m.setChild d.other parent (some tmp1)
        let m := m.setParentColor tmp1 (some parent) true
        let m := m.setChild d sibling (some parent)
        some (m.rotateSetParents parent sibling false, tmp1)
      else some (m, sibling))
    let tmp1 := m.child d.other sibling
    if m.blackOrNull tmp1 && m.blackOrNull (m.child d sibling) then
      let m := m.setParentColor sibling (some parent) false
      if (m.node parent).black = false then
        some (m.setParentColor parent (m.node parent).parent true)
      else match (m.node parent).parent with
        | some above => eraseFix fuel m (some parent) above
        | none => some m
    else m.eraseRotate d parent sibling tmp1

/-- `_rb_erase` -/
def erase (m : RbTree T) (node : T) : Option (RbTree T) :=
  (m.eraseNode node).bind fun r =>
    match r.1 with
    | none => some r.2
    | some rebalance => r.2.eraseFix rbFuel none rebalance

/-- The loop of `_rb_lookup` from `nw` on. -/
def lookupFrom (cmp : T → T → Bool) (node : T) : ℕ → RbTree T → Option T → Option (Option T)
  | _, _, none => some none
  | 0, _, some _ => none
  | fuel + 1, m, some nw =>
    if cmp node nw then lookupFrom cmp node fuel m (m.node nw).left
    else if cmp nw node then lookupFrom cmp node fuel m (m.node nw).right
    else some (some nw)

/-- `_rb_lookup` -/
def lookup (m : RbTree T) (cmp : T → T → Bool) (node : T) : Option (Option T) :=
  lookupFrom cmp node rbFuel m m.root

/-- The nodes that are linked to the root. -/
inductive Linked (m : RbTree T) : T → Prop
  | root {t : T} : m.root = some t → m.Linked t
  | child {t u : T} (d : Side) : m.Linked t → m.child d t = some u → m.Linked u

/-! ### Trees of one node -/

variable {m : RbTree T} {t : T} {cmp : T → T → Bool}

/-- A node without links has no parent, so the root is cleared. -/
theorem erase_bare (h : (m.node t).Bare) : m.erase t = some { m with root := none } := by
  have hnode : m.eraseNode t
      = some (if (m.node t).black then none else none, { m with root := none }) := by
    unfold eraseNode
    rw [h.left, h.right]
    simp only [h.parent, changeChild]
  have hnone : (if (m.node t).black then none else none : Option T) = none := ite_self none
  rw [erase, hnode, hnone]
  rfl

/-- The first node becomes the root, and black. -/
theorem insert_empty (h : m.root = none) : m.insert cmp t = some (0,
    { node := Function.update m.node t ⟨none, true, none, none⟩, root := some t }) := by
  unfold insert
  dsimp only
  rw [h]
  simp only [insertFix, setParentColor, Option.map_some, RbNode.zero, Function.update_self,
    Function.update_idem]

section Links

variable {T : Type} {m : RbTree T} {t u : T}

theorem first_empty (h : m.root = none) : m.first = some none := by
  rw [first, h]

/-- The root is the first node when it has no left child. -/
theorem first_root (h : m.root = some t) (hleft : (m.node t).left = none) :
    m.first = some (some t) := by
  have hstep : m.leftmost rbFuel t t = some (t, t) := by
    rw [show rbFuel = (2 ^ 64 - 1) + 1 from rfl, leftmost, hleft]
  rw [first, h]
  simp only [hstep, Option.map_some]

/-- Nothing but a root without children is in the tree. -/
theorem linked_iff (h : ∀ t, m.root = some t → (m.node t).Bare) :
    m.Linked u ↔ m.root = some u := by
  constructor
  · intro hu
    induction hu with
    | root hroot => exact hroot
    | child d _ hchild ih =>
      have hbare := h _ ih
      cases d with
      | left => exact absurd (hbare.left.symm.trans hchild) (by simp)
      | right => exact absurd (hbare.right.symm.trans hchild) (by simp)
  · exact Linked.root

end Links

end RbTree

end OsLab
