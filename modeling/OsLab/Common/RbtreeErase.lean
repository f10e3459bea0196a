/-
Removal from the red-black trees of `common/rbtree.c`.

* `Held.eraseLower`, `Held.eraseRaise`, `Held.eraseRotate_inner` — the rotations of cases 1, 4
  and 3;
* `eraseFix_spec` — `__rb_erase_fix` makes a red-black tree where a black node is missing;
* `Held.eraseSuccessor`, `Held.eraseReplace` — the successor of a node with two children takes its
  place;
* `erase_spec` — `_rb_erase` leaves the other nodes in order.
-/
import OsLab.Common.RbtreeShape

namespace OsLab

open BinTree TreePath

namespace RbTree

open RbPiece

variable {T : Type} [DecidableEq T] {m : RbTree T} {x y g p q r : T} {v w o hole : Option T}
  {c c' k : Bool} {d e : Side} {s t u a b : BinTree T} {C : TreePath T} {n fuel : ℕ}
  {R : Multiset (RbPiece T)}

/-! ### Rotations -/

/-- `if (t) rb_set_parent(t, ...)` -/
def setParentIf (m : RbTree T) (t : Option T) (parent : Option T) : RbTree T :=
  match t with
  | none => m
  | some t => m.setParent t parent

theorem setParentIf_some : m.setParentIf (some x) v = m.setParent x v := rfl

theorem Held.setParentIf (h : m.Held ({tree v t} + R)) (w : Option T) :
    (m.setParentIf t.root? w).Held ({tree w t} + R) := by
  cases t with
  | nil => exact held_nil.mpr (held_nil.mp h)
  | node c l x r =>
    have hparts := held_join (d := .left).mp h
    rw [add_assoc, add_assoc] at hparts
    have hset := Held.setParent hparts w
    rw [← add_assoc, ← add_assoc] at hset
    exact held_join (d := .left).mpr hset

/-- The end of case 4: the sibling `q` comes above the parent `p`. -/
def eraseRaise (m : RbTree T) (d : Side) (p q y : T) : RbTree T :=
  (((((m.setChild d.other p (m.child d q)).setParentIf (m.child d q) (some p)).setChild d q
    (some p)).setParentColor y (some q) true).rotateSetParents p q true)

theorem eraseRotate_outer (hred : m.blackOrNull (some y) = false) :
    m.eraseRotate d p q (some y) = some (m.eraseRaise d p q y) := by
  unfold eraseRotate eraseRaise setParentIf
  rw [hred]
  rfl

theorem eraseRotate_inner (hblack : m.blackOrNull o = true) (hchild : m.child d q = some r) :
    m.eraseRotate d p q o =
    some (((((m.setChild d q (m.child d.other r)).setParentColorIf (m.child d.other r) (some q)
      true).setChild d.other r (some q)).setChild d.other p (some r)).eraseRaise d p r q) := by
  unfold eraseRotate eraseRaise setParentIf
  rw [hblack, hchild]
  rfl

/-- Case 4: one rotation. -/
theorem Held.eraseRaise (h : m.Held (around (some p) C +
      {cell p (above none C) k d t.root? o} + {tree (some p) t} +
      {cell q v c d a.root? (some y)} + {tree (some q) a} + {tree w b}))
    (hy : b.root? = some y) :
    (m.eraseRaise d p q y).Is (plug C (join d k q (join d true p t a) (b.paint true))) := by
  have hq := (h.arrange ({cell q v c d a.root? (some y)} + (around (some p) C +
    {cell p (above none C) k d t.root? o} + {tree (some p) t} + {tree (some q) a} + {tree w b}))
    (by abel)).head
  have hinner := Held.setOther (h.arrange ({cell p (above none C) k d t.root? o} +
    (around (some p) C + {tree (some p) t} + {cell q v c d a.root? (some y)} +
    {tree (some q) a} + {tree w b})) (by abel)) a.root?
  have hparent := Held.setParentIf (hinner.arrange ({tree (some q) a} + (around (some p) C +
    {cell p (above none C) k d t.root? a.root?} + {tree (some p) t} +
    {cell q v c d a.root? (some y)} + {tree w b})) (by abel)) (some p)
  have hlink := Held.setChild (hparent.arrange ({cell q v c d a.root? (some y)} +
    (around (some p) C + {cell p (above none C) k d t.root? a.root?} + {tree (some p) t} +
    {tree (some p) a} + {tree w b})) (by abel)) (some p)
  have houter := Held.setParentColorIf (hlink.arrange ({tree w b} + (around (some p) C +
    {cell p (above none C) k d t.root? a.root?} + {tree (some p) t} + {tree (some p) a} +
    {cell q v c d (some p) (some y)})) (by abel)) (some q) true
  rw [hy, setParentColorIf_some] at houter
  have hswap := held_swap.mp (houter.arrange ({cell p (above none C) k d t.root? a.root?} +
    (around (some p) C + {tree (some p) t} + {tree (some p) a} +
    {cell q v c d (some p) (some y)} + {tree (some q) (b.paint true)})) (by abel))
  have hswap' := held_swap.mp (hswap.arrange ({cell q v c d (some p) (some y)} +
    (around (some p) C + {cell p (above none C) k d.other a.root? t.root?} + {tree (some p) a} +
    {tree (some p) t} + {tree (some q) (b.paint true)})) (by abel))
  have hrotate := Held.rotate (hswap'.arrange (around (some p) C +
    {cell p (above none C) k d.other a.root? t.root?} + {tree (some p) a} + {tree (some p) t} +
    {cell q v c d.other (some y) (some p)} + {tree (some q) (b.paint true)}) (by abel))
    (root?_paint.trans hy) true
  rw [join_other, join_other] at hrotate
  unfold RbTree.eraseRaise
  rw [hq.child]
  exact hrotate

/-- Case 3: one more, between the sibling and its red child. -/
theorem Held.eraseRotate_inner (h : m.Held (around (some p) C +
      {cell p (above none C) k d t.root? (some q)} + {tree (some p) t} +
      {cell q (some p) c d (some r) s.root?} + {tree (some q) s} +
      {cell r (some q) c' d a.root? b.root?} + {tree (some r) a} + {tree (some r) b}))
    (hb : b.paint true = b) (hblack : m.blackOrNull s.root? = true) :
    ∃ m', m.eraseRotate d p q s.root? = some m' ∧
      m'.Is (plug C (join d k r (join d true p t a) (join d true q b s))) := by
  have hq := (h.arrange ({cell q (some p) c d (some r) s.root?} + (around (some p) C +
    {cell p (above none C) k d t.root? (some q)} + {tree (some p) t} + {tree (some q) s} +
    {cell r (some q) c' d a.root? b.root?} + {tree (some r) a} + {tree (some r) b}))
    (by abel)).head
  have hr := (h.arrange ({cell r (some q) c' d a.root? b.root?} + (around (some p) C +
    {cell p (above none C) k d t.root? (some q)} + {tree (some p) t} +
    {cell q (some p) c d (some r) s.root?} + {tree (some q) s} + {tree (some r) a} +
    {tree (some r) b})) (by abel)).head
  have hadopt := Held.adopt (h.arrange ({cell q (some p) c d (some r) s.root?} +
    {tree (some r) b} + (around (some p) C + {cell p (above none C) k d t.root? (some q)} +
    {tree (some p) t} + {tree (some q) s} + {cell r (some q) c' d a.root? b.root?} +
    {tree (some r) a})) (by abel)) true
  rw [hb] at hadopt
  have hlink := Held.setOther (hadopt.arrange ({cell r (some q) c' d a.root? b.root?} +
    (around (some p) C + {cell p (above none C) k d t.root? (some q)} + {tree (some p) t} +
    {cell q (some p) c d b.root? s.root?} + {tree (some q) b} + {tree (some q) s} +
    {tree (some r) a})) (by abel)) (some q)
  have hparent := Held.setOther (hlink.arrange ({cell p (above none C) k d t.root? (some q)} +
    (around (some p) C + {tree (some p) t} + {cell q (some p) c d b.root? s.root?} +
    {tree (some q) b} + {tree (some q) s} + {cell r (some q) c' d a.root? (some q)} +
    {tree (some r) a})) (by abel)) (some r)
  have hfold := Held.fold (hparent.arrange ({cell q (some p) c d b.root? s.root?} +
    {tree (some q) b} + {tree (some q) s} + (around (some p) C +
    {cell p (above none C) k d t.root? (some r)} + {tree (some p) t} +
    {cell r (some q) c' d a.root? (some q)} + {tree (some r) a})) (by abel)) rfl rfl
  have hraise := Held.eraseRaise (hfold.arrange (around (some p) C +
    {cell p (above none C) k d t.root? (some r)} + {tree (some p) t} +
    {cell r (some q) c' d a.root? (some q)} + {tree (some r) a} +
    {tree (some p) (join d c q b s)}) (by abel)) root?_join
  rw [paint_join] at hraise
  refine ⟨_, ?_, hraise⟩
  rw [RbTree.eraseRotate_inner hblack hq.child, hr.other]

/-- Case 1: the sibling comes above the parent. -/
theorem Held.eraseLower (h : m.Held (around (some p) C +
      {cell p (above none C) k d t.root? (some q)} + {tree (some p) t} +
      {cell q (some p) c d a.root? b.root?} + {tree (some q) a} + {tree (some q) b}))
    (ha : a.paint true = a) (hy : a.root? = some y) :
    ((((m.setChild d.other p (some y)).setParentColor y (some p) true).setChild d q
      (some p)).rotateSetParents p q false).Is
        (plug (⟨d, false, p, a⟩ :: ⟨d, k, q, b⟩ :: C) t) := by
  have hswap := held_swap.mp (h.arrange ({cell p (above none C) k d t.root? (some q)} +
    (around (some p) C + {tree (some p) t} + {cell q (some p) c d a.root? b.root?} +
    {tree (some q) a} + {tree (some q) b})) (by abel))
  have hadopt := Held.adopt (hswap.arrange ({cell p (above none C) k d.other (some q) t.root?} +
    {tree (some q) a} + (around (some p) C + {tree (some p) t} +
    {cell q (some p) c d a.root? b.root?} + {tree (some q) b})) (by abel)) true
  rw [ha, hy, setParentColorIf_some] at hadopt
  have hlink := Held.setChild (hadopt.arrange ({cell q (some p) c d (some y) b.root?} +
    (around (some p) C + {cell p (above none C) k d.other (some y) t.root?} +
    {tree (some p) a} + {tree (some p) t} + {tree (some q) b})) (by abel)) (some p)
  have hswap' := held_swap.mp hlink
  rw [← hy] at hswap'
  have hrotate := Held.rotate (hswap'.arrange (around (some p) C +
    {cell p (above none C) k d.other a.root? t.root?} + {tree (some p) a} + {tree (some p) t} +
    {cell q (some p) c d.other b.root? (some p)} + {tree (some q) b}) (by abel)) rfl false
  rw [join_other, join_other, hy] at hrotate
  exact hrotate

/-! ### The repair -/

/-- The rest of a pass of the loop, where the sibling is black. -/
def eraseSettle (fuel : ℕ) (m : RbTree T) (d : Side) (parent sibling : T) : Option (RbTree T) :=
  if m.blackOrNull (m.child d.other sibling) && m.blackOrNull (m.child d sibling) then
    let m := m.setParentColor sibling (some parent) false
    if (m.node parent).black = false then
      some (m.setParentColor parent (m.node parent).parent true)
    else match (m.node parent).parent with
      | some above => eraseFix fuel m (some parent) above
      | none => some m
  else m.eraseRotate d parent sibling (m.child d.other sibling)

theorem eraseFix_black (hside : (if hole ≠ (m.node p).right then Side.left else .right) = d)
    (hchild : m.child d.other p = some q) (hblack : (m.node q).black = true) :
    eraseFix (fuel + 1) m hole p = eraseSettle fuel m d p q := by
  rw [eraseFix, hside, hchild]
  dsimp only [Option.bind_eq_bind, Option.bind_some]
  rw [hblack, if_neg (by simp)]
  rfl

theorem eraseFix_red (hside : (if hole ≠ (m.node p).right then Side.left else .right) = d)
    (hchild : m.child d.other p = some q) (hred : (m.node q).black = false)
    (hinner : m.child d q = some y) :
    eraseFix (fuel + 1) m hole p =
      eraseSettle fuel ((((m.setChild d.other p (some y)).setParentColor y (some p) true).setChild d
        q (some p)).rotateSetParents p q false) d p y := by
  rw [eraseFix, hside, hchild]
  dsimp only [Option.bind_eq_bind, Option.bind_some]
  rw [hred, if_pos rfl, hinner]
  rfl

/-- The sibling is black: only where its children and the parent are, too, is it left to do the
same one node above. -/
theorem eraseSettle_spec
    (h : m.Held (around t.root? (⟨d, k, p, join d true q a b⟩ :: C) + {tree (some p) t}))
    (hfits : Fits (⟨d, k, p, join d true q a b⟩ :: C) c (n + 1)) (ht : t.Balanced true n)
    (hrec : k = true → ∀ m' t' r, m'.Held (around (some p) C + {tree (above none C) t'}) →
      t'.root? = some p → t'.Balanced true (n + 1) → above none C = some r →
      ∃ m'' t'', eraseFix fuel m' (some p) r = some m'' ∧ m''.Is t'' ∧ t''.Valid ∧
        t''.toList = (plug C t').toList) :
    ∃ m' t', eraseSettle fuel m d p q = some m' ∧ m'.Is t' ∧ t'.Valid ∧
      t'.toList = (plug (⟨d, k, p, join d true q a b⟩ :: C) t).toList := by
  have hsibling := held_join.mp ((held_cons.mp h).arrange ({tree (some p) (join d true q a b)} +
    ({cell p (above none C) k d t.root? (join d true q a b).root?} + around (some p) C +
    {tree (some p) t})) (by abel))
  rw [root?_join] at hsibling
  have hparts := hsibling.arrange (around (some p) C +
    {cell p (above none C) k d t.root? (some q)} + {tree (some p) t} +
    {cell q (some p) true d a.root? b.root?} + {tree (some q) a} + {tree (some q) b}) (by abel)
  have hq := (hparts.arrange ({cell q (some p) true d a.root? b.root?} + (around (some p) C +
    {cell p (above none C) k d t.root? (some q)} + {tree (some p) t} + {tree (some q) a} +
    {tree (some q) b})) (by abel)).head
  obtain ⟨_, hs, -⟩ := hfits.sibling
  obtain ⟨_, hn, -, ⟨ca, ha⟩, cb, hb⟩ := hs.of_black
  obtain rfl := Nat.succ.inj hn
  have hca : m.blackOrNull a.root? = ca := Held.blackOrNull (hparts.arrange
    ({tree (some q) a} + (around (some p) C + {cell p (above none C) k d t.root? (some q)} +
    {tree (some p) t} + {cell q (some p) true d a.root? b.root?} + {tree (some q) b}))
    (by abel)) ha
  have hcb : m.blackOrNull b.root? = cb := Held.blackOrNull (hparts.arrange
    ({tree (some q) b} + (around (some p) C + {cell p (above none C) k d t.root? (some q)} +
    {tree (some p) t} + {cell q (some p) true d a.root? b.root?} + {tree (some q) a}))
    (by abel)) hb
  unfold eraseSettle
  rw [hq.child, hq.other, hca, hcb]
  cases cb with
  | false =>
    -- case 4: the outer child is red
    obtain ⟨y, hy⟩ : ∃ y, b.root? = some y := by
      cases hb
      exact ⟨_, rfl⟩
    rw [hy] at hparts hcb ⊢
    refine ⟨_, _, eraseRotate_outer hcb, Held.eraseRaise hparts hy, hfits.raise_outer ht ha hb, ?_⟩
    rw [plug, toList_plug, toList_plug]
    cases d <;> simp [TreeFrame.fill, join, toList]
  | true =>
    cases ca with
    | false =>
      -- case 3: only the inner one is red
      obtain ⟨r, hr⟩ : ∃ r, a.root? = some r := by
        cases ha
        exact ⟨_, rfl⟩
      obtain ⟨c', ta, tb, rfl⟩ := exists_join d hr
      obtain rfl := ha.colour rfl
      obtain ⟨-, hta, htb⟩ := ha.of_red
      rw [root?_join] at hparts
      have hinner := held_join.mp (hparts.arrange ({tree (some q) (join d false r ta tb)} +
        (around (some p) C + {cell p (above none C) k d t.root? (some q)} + {tree (some p) t} +
        {cell q (some p) true d (some r) b.root?} + {tree (some q) b})) (by abel))
      obtain ⟨m', hrotate, his⟩ := Held.eraseRotate_inner (hinner.arrange (around (some p) C +
        {cell p (above none C) k d t.root? (some q)} + {tree (some p) t} +
        {cell q (some p) true d (some r) b.root?} + {tree (some q) b} +
        {cell r (some q) false d ta.root? tb.root?} + {tree (some r) ta} + {tree (some r) tb})
        (by abel)) htb.paint_black hcb
      refine ⟨m', _, hrotate, his, hfits.raise_inner ht ha hb, ?_⟩
      rw [plug, toList_plug, toList_plug]
      cases d <;> simp [TreeFrame.fill, join, toList]
    | true =>
      -- case 2: the sibling becomes red, and the parent black if it was red
      have hred := Held.setParentColor (hparts.arrange ({cell q (some p) true d a.root? b.root?} +
        (around (some p) C + {cell p (above none C) k d t.root? (some q)} + {tree (some p) t} +
        {tree (some q) a} + {tree (some q) b})) (by abel)) (some p) false
      have hlower := Held.fold (hred.arrange ({cell q (some p) false d a.root? b.root?} +
        {tree (some q) a} + {tree (some q) b} + (around (some p) C +
        {cell p (above none C) k d t.root? (some q)} + {tree (some p) t})) (by abel)) rfl rfl
      have hheld := hlower.arrange ({cell p (above none C) k d t.root? (some q)} +
        ({tree (some p) t} + {tree (some p) (join d false q a b)} + around (some p) C)) (by abel)
      have hp := hheld.head
      rw [Bool.and_self, if_pos rfl]
      dsimp only
      rw [hp.black, hp.parent]
      cases k with
      | false =>
        have hpaint := Held.setParentColor hheld (above none C) true
        have hupper := Held.fold (hpaint.arrange ({cell p (above none C) true d t.root? (some q)} +
          {tree (some p) t} + {tree (some p) (join d false q a b)} + around (some p) C)
          (by abel)) rfl root?_join
        refine ⟨_, _, rfl, Held.whole (hupper.arrange _ (add_comm _ _)) root?_join,
          hfits.even_red ht ha hb, ?_⟩
        rw [plug, toList_plug, toList_plug]
        cases d <;> simp [TreeFrame.fill, join, toList]
      | true =>
        have hupper := (Held.fold (hheld.arrange ({cell p (above none C) true d t.root? (some q)} +
          {tree (some p) t} + {tree (some p) (join d false q a b)} + around (some p) C)
          (by abel)) rfl root?_join).arrange _ (add_comm _ _)
        obtain ⟨-, ht'⟩ := hfits.even_black (v := q) ht ha hb
        have hlist : (plug (⟨d, true, p, join d true q a b⟩ :: C) t).toList =
            (plug C (join d true p t (join d false q a b))).toList := by
          rw [plug, toList_plug, toList_plug]
          cases d <;> simp [TreeFrame.fill, join, toList]
        rw [if_neg (by simp), hlist]
        cases habove : above none C with
        | none =>
          obtain rfl := above_eq_none.mp habove
          exact ⟨_, _, rfl, Held.whole hupper root?_join, ⟨_, ht'⟩, rfl⟩
        | some r => exact hrec rfl _ _ r hupper root?_join ht' habove

/-- A place for a tree with one black node more: the loop makes a red-black tree. -/
theorem eraseFix_spec (fuel : ℕ) (h : m.Held (around hole C + {tree (above none C) t}))
    (hhole : t.root? = hole) (hfits : Fits C true (n + 1)) (ht : t.Balanced true n)
    (hp : above none C = some p) (hfuel : C.length < fuel) :
    ∃ m' t', eraseFix fuel m hole p = some m' ∧ m'.Is t' ∧ t'.Valid ∧
      t'.toList = (plug C t).toList := by
  -- by induction on the passes, each of which goes up by one node
  induction fuel generalizing m t C n p hole with
  | zero => exact absurd hfuel (Nat.not_lt_zero _)
  | succ fuel ih =>
    match C, hfits, h, hp, hfuel with
    | ⟨d, k, g, s⟩ :: C, hfits, h, hp, hfuel =>
      obtain rfl := Option.some.inj hp
      obtain ⟨c', hs, -⟩ := hfits.sibling
      obtain ⟨q, hq⟩ := hs.exists_root
      obtain ⟨cq, a, b, rfl⟩ := exists_join d hq
      obtain rfl := hs.colour rfl
      have hparts := (held_cons.mp h).arrange ({tree (some g) (join d cq q a b)} +
        {tree (some g) t} + ({cell g (above none C) k d hole (join d cq q a b).root?} +
        around (some g) C)) (by
          rw [above]
          abel)
      have hg := (hparts.arrange ({cell g (above none C) k d hole (join d cq q a b).root?} +
        ({tree (some g) (join d cq q a b)} + {tree (some g) t} + around (some g) C))
        (by abel)).head
      have hne := Held.root?_ne hparts hq
      have hqcell := Held.node (hparts.arrange _ (add_assoc _ _ _))
      have hside := hg.side (by rwa [hq, ← hhole])
      have hchild := hg.other.trans hq
      cases cq with
      | true =>
        rw [eraseFix_black hside hchild hqcell.black]
        rw [← hhole] at h
        refine eraseSettle_spec h hfits ht fun hk m' t' r hheld hroot hbal habove => ?_
        subst hk
        exact ih hheld hroot hfits.up hbal habove (Nat.lt_of_succ_lt_succ hfuel)
      | false =>
        -- case 1: afterwards the parent is red, so that the loop ends
        obtain ⟨rfl, hlower, ha⟩ := hfits.lower
        obtain ⟨y, hy⟩ := ha.exists_root
        rw [eraseFix_red hside hchild hqcell.black (hqcell.child.trans hy)]
        have hjoin := held_join.mp (hparts.arrange _ (add_assoc _ _ _))
        rw [hq, ← hhole] at hjoin
        have his := Held.eraseLower (hjoin.arrange (around (some g) C +
          {cell g (above none C) true d t.root? (some q)} + {tree (some g) t} +
          {cell q (some g) false d a.root? b.root?} + {tree (some q) a} + {tree (some q) b})
          (by abel)) ha.paint_black hy
        obtain ⟨ca, a', b', rfl⟩ := exists_join d hy
        obtain rfl := ha.colour rfl
        obtain ⟨m', t', hsettle, his', hvalid, hlist⟩ :=
          eraseSettle_spec (held_plug.mpr his) hlower ht fun hk => by cases hk
        refine ⟨m', t', hsettle, his', hvalid, hlist.trans ?_⟩
        rw [plug, plug, plug, toList_plug, toList_plug]
        cases d <;> simp [TreeFrame.fill, join, toList]

/-! ### The successor -/

/-- The link to a place is changed, below another node. -/
theorem Held.setHole {f : TreeFrame T} (h : m.Held ({path v hole (f :: C)} + R)) (o : Option T) :
    (m.setChild f.side f.key o).Held ({path v o (f :: C)} + R) := by
  rw [held_path_cons, add_assoc, add_assoc] at h ⊢
  exact Held.setChild h o

/-- The upper end of a path gets another parent. -/
theorem Held.setTop {f : TreeFrame T} (h : m.Held ({path v hole (f :: C)} + R))
    (hy : top hole (f :: C) = some y) (w : Option T) :
    (m.setParent y w).Held ({path w hole (f :: C)} + R) := by
  have harrange : ∀ p q r s : Multiset (RbPiece T), p + q + r + s = r + (p + q + s) := by
    intro p q r s
    abel
  induction C generalizing f hole R with
  | nil =>
    obtain rfl := Option.some.inj hy
    rw [held_path_cons, harrange, held_path_nil, add_assoc] at h ⊢
    exact Held.setParent h w
  | cons g C ih =>
    rw [held_path_cons, harrange] at h ⊢
    exact ih h hy

omit [DecidableEq T] in
/-- The loop to the left ends at a node without a left child. -/
theorem leftmost_spec (fuel : ℕ) (h : m.Shows v t) (hy : t.root? = some y)
    (hfuel : t.toList.length ≤ fuel) (p : T) :
    ∃ D c s r p', t = plug D (.node c .nil s r) ∧ (∀ f ∈ D, f.side = .left) ∧
      above (some p) D = some p' ∧ m.leftmost fuel p y = some (p', s) := by
  induction t generalizing fuel y v p with
  | nil => cases hy
  | node c l z r ihl _ =>
    obtain rfl := Option.some.inj hy
    simp only [toList, List.length_append, List.length_cons] at hfuel
    obtain ⟨fuel, rfl⟩ : ∃ k, fuel = k + 1 := ⟨fuel - 1, by omega⟩
    have hleft : (m.node z).left = l.root? := h.1.child
    cases hroot : l.root? with
    | none =>
      obtain rfl := root?_eq_none.mp hroot
      refine ⟨[], c, z, r, p, rfl, by simp, rfl, ?_⟩
      rw [leftmost, hleft, hroot]
    | some y =>
      obtain ⟨D, c', s, r', p', rfl, hD, hp, hfound⟩ := ihl fuel h.2.1 hroot (by omega) z
      refine ⟨D ++ [⟨.left, c, z, r⟩], c', s, r', p', ?_, ?_, ?_, ?_⟩
      · rw [plug_append]
        rfl
      · intro f hf
        rcases List.mem_append.mp hf with hf | hf
        · exact hD f hf
        · rw [List.mem_singleton.mp hf]
      · rw [above_append]
        exact hp
      · rw [leftmost, hleft, hroot]
        exact hfound

/-- What `__rb_erase` does to find the successor, and to take it out of its place. -/
def eraseSuccessor (m : RbTree T) (child : T) : Option (T × T × Option T × RbTree T) :=
  match (m.node child).left with
  | none => some (child, child, (m.node child).right, m)
  | some tmp => (m.leftmost rbFuel child tmp).map fun r =>
    let child2 := (m.node r.2).right
    let m := m.setChild .left r.1 child2
    let m := m.setChild .right r.2 (some child)
    (r.1, r.2, child2, m.setParent child (some r.2))

theorem Held.eraseSuccessor (h : m.Held ({tree (some x) t} + R)) (hy : t.root? = some y)
    (hsize : t.toList.length ≤ rbFuel) :
    ∃ D c s r p v m', t = plug D (.node c .nil s r) ∧ (∀ f ∈ D, f.side = .left) ∧
      m.eraseSuccessor y = some (p, s, r.root?, m') ∧ above (some s) D = some p ∧
      m'.Held ({cell s v c .left none (top r.root? D)} + {path (some s) r.root? D} +
        {tree (some s) r} + R) := by
  have hshows : m.Shows (some x) t := h.head
  obtain ⟨c, l, z, r, rfl⟩ : ∃ c l z r, t = .node c l z r := by
    cases t with
    | nil => cases hy
    | node c l z r => exact ⟨c, l, z, r, rfl⟩
  obtain rfl := Option.some.inj hy
  have hleft : (m.node z).left = l.root? := hshows.1.child
  have hright : (m.node z).right = r.root? := hshows.1.other
  unfold RbTree.eraseSuccessor
  rw [hleft]
  cases hroot : l.root? with
  | none =>
    obtain rfl := root?_eq_none.mp hroot
    have hparts := held_join (d := .left) (s := .nil).mp h
    refine ⟨[], c, z, r, z, some x, m, rfl, by simp, ?_, rfl, ?_⟩
    · rw [hright]
    · rw [hroot, add_assoc, add_assoc, add_left_comm, held_nil] at hparts
      have hpath : m.Held ({path (some z) r.root? []} +
          ({cell z (some x) c .left none r.root?} + ({tree (some z) r} + R))) :=
        held_path_nil.mpr hparts
      exact hpath.arrange _ (by
        rw [top]
        abel)
  | some y =>
    obtain ⟨D, c', s, r', p', hl, hD, hp, hfound⟩ := leftmost_spec rbFuel hshows.2.1 hroot (by
      simp only [toList, List.length_append, List.length_cons] at hsize
      omega) z
    have hplug : BinTree.node c l z r =
        plug (D ++ [⟨.left, c, z, r⟩]) (.node c' .nil s r') := by
      rw [plug_append, ← hl]
      rfl
    have habove : above (some x) (D ++ [⟨.left, c, z, r⟩]) = some p' := by
      rw [above_append]
      exact hp
    -- the path from the right child to the successor is not empty
    obtain ⟨f, E, hE⟩ : ∃ f E, D ++ [⟨.left, c, z, r⟩] = f :: E := by
      cases D with
      | nil => exact ⟨_, _, rfl⟩
      | cons f D => exact ⟨f, _, rfl⟩
    have hleft : ∀ f ∈ D ++ [⟨Side.left, c, z, r⟩], f.side = .left := by
      intro f hf
      rcases List.mem_append.mp hf with hf | hf
      · exact hD f hf
      · rw [List.mem_singleton.mp hf]
    have htop : top r'.root? (D ++ [⟨.left, c, z, r⟩]) = some z := by
      rw [top_append]
      rfl
    rw [hE] at hplug habove hleft htop
    obtain rfl : f.key = p' := Option.some.inj habove
    rw [hplug] at h ⊢
    have hpath := held_path_plug.mp h
    have hparts := held_join (d := .left) (s := .nil).mp (hpath.arrange
      ({tree (some f.key) (.node c' .nil s r')} + ({path (some x) (some s) (f :: E)} + R)) (by
        rw [root?, above]
        abel))
    have hnil := held_nil.mp (hparts.arrange ({tree (some s) .nil} +
      ({cell s (some f.key) c' .left none r'.root?} + {tree (some s) r'} +
      {path (some x) (some s) (f :: E)} + R)) (by
        rw [root?]
        abel))
    have hs := (hnil.arrange ({cell s (some f.key) c' .left none r'.root?} +
      ({tree (some s) r'} + {path (some x) (some s) (f :: E)} + R)) (by abel)).head
    have hhole := Held.setHole (hnil.arrange ({path (some x) (some s) (f :: E)} +
      ({cell s (some f.key) c' .left none r'.root?} + {tree (some s) r'} + R)) (by abel)) r'.root?
    rw [hleft f List.mem_cons_self] at hhole
    have hchild := Held.setOther (hhole.arrange ({cell s (some f.key) c' .left none r'.root?} +
      ({path (some x) r'.root? (f :: E)} + {tree (some s) r'} + R)) (by abel)) (some z)
    have hset := Held.setTop (hchild.arrange ({path (some x) r'.root? (f :: E)} +
      ({cell s (some f.key) c' .left none (some z)} + {tree (some s) r'} + R)) (by abel)) htop
      (some s)
    refine ⟨f :: E, c', s, r', f.key, some f.key,
      ((m.setChild .left f.key r'.root?).setChild .right s (some z)).setParent z (some s), rfl,
      hleft, ?_, rfl, ?_⟩
    · dsimp only
      rw [hfound, Option.map_some]
      dsimp only
      have hother : (m.node s).right = r'.root? := hs.other
      rw [hother]
    · rw [htop]
      exact hset.arrange _ (by abel)

/-- The rest of `__rb_erase`: the successor takes the place of the node. -/
def eraseReplace (m : RbTree T) (node parent successor : T) (child2 : Option T) :
    Option (Option T × RbTree T) := do
  let tmp ← (m.node node).left
  let m := (m.setChild .left successor (some tmp)).setParent tmp (some successor)
  let pc := m.node node
  let m := m.changeChild node (some successor) pc.parent
  match child2 with
  | some c =>
    let m := m.setParentColor successor pc.parent pc.black
    some (none, m.setParentColor c (some parent) true)
  | none =>
    let black := (m.node successor).black
    some (if black then some parent else none, m.setParentColor successor pc.parent pc.black)

theorem eraseNode_both {l : T} (hl : (m.node x).left = some l) (hr : (m.node x).right = some y) :
    m.eraseNode x =
      (m.eraseSuccessor y).bind fun q => q.2.2.2.eraseReplace x q.1 q.2.1 q.2.2.1 := by
  unfold eraseNode eraseSuccessor eraseReplace
  rw [hl, hr]
  rfl

theorem Held.eraseReplace {D : TreePath T} {l : T}
    (h : m.Held ({cell y v c' .left none (top t.root? D)} +
      {path (some y) t.root? D} + {tree (some y) t} + (around (some x) C +
      {cell x (above none C) c .left s.root? o} + {tree (some x) s})))
    (hl : s.root? = some l) :
    ∃ m', m.eraseReplace x p y t.root? =
        some (if t.root? = none ∧ c' = true then some p else none, m') ∧
      m'.Held (around t.root? (D ++ ⟨.right, c, y, s⟩ :: C) + {tree (some p) (t.paint true)}) := by
  have hx := (h.arrange ({cell x (above none C) c .left s.root? o} +
    ({cell y v c' .left none (top t.root? D)} + {path (some y) t.root? D} + {tree (some y) t} +
    around (some x) C + {tree (some x) s})) (by abel)).head
  have hlink := Held.setChild (h.arrange ({cell y v c' .left none (top t.root? D)} +
    ({path (some y) t.root? D} + {tree (some y) t} + around (some x) C +
    {cell x (above none C) c .left s.root? o} + {tree (some x) s})) (by abel)) (some l)
  have hparent := Held.setParentIf (hlink.arrange ({tree (some x) s} +
    ({cell y v c' .left (some l) (top t.root? D)} + {path (some y) t.root? D} +
    {tree (some y) t} + around (some x) C + {cell x (above none C) c .left s.root? o}))
    (by abel)) (some y)
  rw [hl, setParentIf_some] at hparent
  have hx' := (hparent.arrange ({cell x (above none C) c .left (some l) o} +
    ({cell y v c' .left (some l) (top t.root? D)} + {path (some y) t.root? D} +
    {tree (some y) t} + around (some x) C + {tree (some y) s})) (by abel)).head
  have hplace := Held.changeChild (hparent.arrange (around (some x) C +
    {cell x (above none C) c .left (some l) o} +
    ({cell y v c' .left (some l) (top t.root? D)} + {path (some y) t.root? D} +
    {tree (some y) t} + {tree (some y) s})) (by abel)) (some y)
  have hheld := hplace.arrange ({cell y v c' .left (some l) (top t.root? D)} +
    (around (some y) C + {cell x (above none C) c .left (some l) o} + {path (some y) t.root? D} +
    {tree (some y) t} + {tree (some y) s})) (by abel)
  have hy := hheld.head
  have hswap := held_swap.mp (Held.setParentColor hheld (above none C) c)
  have hcons : Held _ (around (top t.root? D) (⟨.right, c, y, s⟩ :: C) +
      ({path (some y) t.root? D} + {tree (some y) t} +
        {cell x (above none C) c .left (some l) o})) :=
    held_cons.mpr (hswap.arrange _ (by
      simp only [Side.other, hl]
      abel))
  have happend := held_append.mpr (hcons.arrange ({path (some y) t.root? D} +
    around (top t.root? D) (⟨.right, c, y, s⟩ :: C) + ({tree (some y) t} +
    {cell x (above none C) c .left (some l) o})) (by abel))
  have hchild := Held.setParentColorIf (happend.arrange ({tree (some y) t} +
    (around t.root? (D ++ ⟨.right, c, y, s⟩ :: C) +
    {cell x (above none C) c .left (some l) o})) (by abel)) (some p) true
  have hdone := Pieces.Held.drop (hchild.arrange ({cell x (above none C) c .left (some l) o} +
    (around t.root? (D ++ ⟨.right, c, y, s⟩ :: C) + {tree (some p) (t.paint true)})) (by abel))
  refine ⟨_, ?_, hdone⟩
  unfold RbTree.eraseReplace
  have hleft : (m.node x).left = some l := hx.child.trans hl
  rw [hleft]
  dsimp only [Option.bind_eq_bind, Option.bind_some]
  rw [hx'.parent, hx'.black, hy.black]
  cases t.root? with
  | none => simp [RbTree.setParentColorIf]
  | some z => rfl

/-! ### Removal -/

/-- A node without a left child. -/
theorem Held.eraseNode_left (h : m.Held (around (some x) C +
      {tree (above none C) (.node c .nil x t)})) :
    ∃ m', m.eraseNode x =
        some (if t.root? = none ∧ c = true then above none C else none, m') ∧
      m'.Held (around t.root? C + {tree (above none C) (t.paint c)}) := by
  have hparts := held_join (d := .left) (s := .nil).mp (h.arrange _ (add_comm _ _))
  have hheld := (held_nil.mp (hparts.arrange ({tree (some x) .nil} +
    ({cell x (above none C) c .left none t.root?} + {tree (some x) t} + around (some x) C)) (by
      rw [root?]
      abel))).arrange ({cell x (above none C) c .left none t.root?} +
    ({tree (some x) t} + around (some x) C)) (add_assoc _ _ _)
  have hx := hheld.head
  have hchild := Held.changeChild (hheld.arrange (around (some x) C +
    {cell x (above none C) c .left none t.root?} + {tree (some x) t}) (by abel)) t.root?
  have hparent := Held.setParentColorIf (hchild.arrange ({tree (some x) t} +
    (around t.root? C + {cell x (above none C) c .left none t.root?})) (by abel)) (above none C) c
  have hdone := Pieces.Held.drop (hparent.arrange
    ({cell x (above none C) c .left none t.root?} +
    (around t.root? C + {tree (above none C) (t.paint c)})) (by abel))
  refine ⟨_, ?_, hdone⟩
  have hleft : (m.node x).left = none := hx.child
  have hright : (m.node x).right = t.root? := hx.other
  unfold eraseNode
  rw [hleft, hright]
  dsimp only
  rw [hx.parent, hx.black]
  cases t.root? with
  | none => simp [RbTree.setParentColorIf]
  | some z => rfl

/-- A node with a left child only. -/
theorem Held.eraseNode_right (h : m.Held (around (some x) C +
      {tree (above none C) (.node c t x .nil)})) (hy : t.root? = some y) :
    ∃ m', m.eraseNode x = some (none, m') ∧
      m'.Held (around t.root? C + {tree (above none C) (t.paint c)}) := by
  have hparts := held_join (d := .left) (t := .nil).mp (h.arrange _ (add_comm _ _))
  have hheld := (held_nil.mp (hparts.arrange ({tree (some x) .nil} +
    ({cell x (above none C) c .left (some y) none} + {tree (some x) t} + around (some x) C)) (by
      rw [root?, hy]
      abel))).arrange ({cell x (above none C) c .left (some y) none} +
    ({tree (some x) t} + around (some x) C)) (add_assoc _ _ _)
  have hx := hheld.head
  have hparent := Held.setParentColorIf (hheld.arrange ({tree (some x) t} +
    (around (some x) C + {cell x (above none C) c .left (some y) none})) (by abel))
    (above none C) c
  rw [hy, setParentColorIf_some] at hparent
  have hchild := Held.changeChild (hparent.arrange (around (some x) C +
    {cell x (above none C) c .left (some y) none} + {tree (above none C) (t.paint c)})
    (by abel)) (some y)
  have hdone := Pieces.Held.drop (hchild.arrange
    ({cell x (above none C) c .left (some y) none} +
    (around (some y) C + {tree (above none C) (t.paint c)})) (by abel))
  rw [← hy] at hdone
  refine ⟨_, ?_, hdone⟩
  have hleft : (m.node x).left = some y := hx.child
  have hright : (m.node x).right = none := hx.other
  unfold eraseNode
  rw [hleft, hright]
  dsimp only
  rw [hx.parent, hx.black, hy]

/-- A node with at most one child has left its place to the child. -/
theorem Held.erased (h : m.Held (around b.root? C + {tree (above none C) (b.paint c)}))
    (hfits : Fits C c n) (ht : (join d c x .nil b).Balanced c n) (hfuel : C.length < rbFuel) :
    ∃ m' t', (match (if b.root? = none ∧ c = true then above none C else none) with
        | none => some m
        | some r => m.eraseFix rbFuel none r) = some m' ∧
      m'.Is t' ∧ t'.Valid ∧ t'.toList = (plug C b).toList := by
  have hlist : (plug C (b.paint c)).toList = (plug C b).toList := by
    rw [toList_plug, toList_plug, toList_paint]
  cases hb : b.root? with
  | some y =>
    obtain ⟨rfl, hvalid⟩ := hfits.erase_child ht hb
    exact ⟨m, _, by simp, Held.whole h root?_paint, hvalid, hlist⟩
  | none =>
    obtain rfl := root?_eq_none.mp hb
    cases c with
    | false => exact ⟨m, _, by simp, Held.whole h root?_paint, hfits.erase_red ht, hlist⟩
    | true =>
      rw [if_pos ⟨rfl, rfl⟩]
      cases hp : above none C with
      | none =>
        obtain rfl := above_eq_none.mp hp
        exact ⟨m, _, rfl, Held.whole h root?_paint, ⟨0, .nil⟩, hlist⟩
      | some p =>
        exact eraseFix_spec rbFuel h rfl (hfits.erase_black ht) .nil hp hfuel

/-- A node with two children: its successor has taken its place. -/
theorem Held.eraseNode_both {l r : BinTree T} {z : T}
    (h : m.Held (around (some x) C + {tree (above none C) (.node c l x r)}))
    (hl : l.root? = some y) (hr : r.root? = some z) (hsize : r.toList.length ≤ rbFuel) :
    ∃ D c' s t m', r = plug D (.node c' .nil s t) ∧ (∀ f ∈ D, f.side = .left) ∧
      m.eraseNode x = some (if t.root? = none ∧ c' = true then
        above none (D ++ ⟨.right, c, s, l⟩ :: C) else none, m') ∧
      m'.Held (around t.root? (D ++ ⟨.right, c, s, l⟩ :: C) +
        {tree (above none (D ++ ⟨.right, c, s, l⟩ :: C)) (t.paint true)}) := by
  have hparts := held_join (d := .left).mp (h.arrange _ (add_comm _ _))
  have hx := (hparts.arrange ({cell x (above none C) c .left l.root? r.root?} +
    ({tree (some x) l} + {tree (some x) r} + around (some x) C)) (by abel)).head
  obtain ⟨D, c', s, t, p, v, m₁, hD, hleft, hfound, hp, hheld⟩ := Held.eraseSuccessor
    (hparts.arrange ({tree (some x) r} + (around (some x) C +
      {cell x (above none C) c .left l.root? r.root?} + {tree (some x) l})) (by abel)) hr hsize
  obtain ⟨m', hreplace, hdone⟩ := Held.eraseReplace (p := p) hheld hl
  have habove : above none (D ++ ⟨.right, c, s, l⟩ :: C) = some p := by
    rw [above_append]
    exact hp
  rw [← habove] at hdone hreplace
  refine ⟨D, c', s, t, m', hD, hleft, ?_, hdone⟩
  have hl' : (m.node x).left = some y := hx.child.trans hl
  have hr' : (m.node x).right = some z := hx.other.trans hr
  rw [RbTree.eraseNode_both hl' hr', hfound, Option.bind_some]
  exact hreplace

/-- `_rb_erase` takes the node out, and the others stay in order. -/
theorem erase_spec (h : m.Is t) (hvalid : t.Valid) (hx : x ∈ t.toList)
    (hsize : t.toList.length < rbFuel) :
    ∃ m' t', m.erase x = some m' ∧ m'.Is t' ∧ t'.Valid ∧ t'.toList = t.toList.erase x := by
  obtain ⟨C, c, l, r, rfl⟩ := exists_plug hx
  obtain ⟨c', n, hfits, ht⟩ := hvalid.unplug
  obtain rfl := ht.colour (d := .left) rfl
  have hheld := held_plug.mpr h
  have herase : (plug C (.node c l x r)).toList.erase x =
      before C ++ (l.toList ++ r.toList) ++ after C := by
    have hnodup := h.nodup
    rw [toList_plug, toList, List.append_assoc, List.append_assoc, List.cons_append,
      ← List.append_assoc] at hnodup ⊢
    have hnot : x ∉ before C ++ l.toList := fun hmem =>
      (List.nodup_append.mp hnodup).2.2 x hmem x List.mem_cons_self rfl
    rw [List.erase_append_right _ hnot, List.erase_cons_head]
    simp only [List.append_assoc]
  rw [herase]
  have hfuel : ∀ D : TreePath T, ∀ u : BinTree T, plug D u = plug C (.node c l x r) →
      D.length < rbFuel := by
    intro D u hu
    have hlength := length_add_le_plug D u
    rw [hu] at hlength
    omega
  unfold erase
  cases hl : l.root? with
  | none =>
    obtain rfl := root?_eq_none.mp hl
    obtain ⟨m₁, hnode, hm₁⟩ := Held.eraseNode_left hheld
    obtain ⟨m', t', hfix, his, hvalid', hlist⟩ :=
      Held.erased hm₁ hfits (d := .left) ht (hfuel C _ rfl)
    refine ⟨m', t', ?_, his, hvalid', ?_⟩
    · rw [hnode]
      exact hfix
    · rw [hlist, toList_plug]
      rfl
  | some y =>
    cases hr : r.root? with
    | none =>
      obtain rfl := root?_eq_none.mp hr
      obtain ⟨m₁, hnode, hm₁⟩ := Held.eraseNode_right hheld hl
      obtain ⟨m', t', hfix, his, hvalid', hlist⟩ :=
        Held.erased hm₁ hfits (d := .right) ht (hfuel C _ rfl)
      refine ⟨m', t', ?_, his, hvalid', ?_⟩
      · rw [if_neg (by simp [hl])] at hfix
        rw [hnode]
        exact hfix
      · rw [hlist, toList_plug]
        simp [toList]
    | some z =>
      have hsize' : r.toList.length ≤ rbFuel := by
        rw [toList_plug] at hsize
        simp only [toList, List.length_append, List.length_cons] at hsize
        omega
      obtain ⟨D, c', s, t, m₁, rfl, hleft, hnode, hm₁⟩ :=
        Held.eraseNode_both hheld hl hr hsize'
      have hplug : plug (D ++ ⟨.right, c, x, l⟩ :: C) (.node c' .nil s t) =
          plug C (.node c l x (plug D (.node c' .nil s t))) := by
        rw [plug_append]
        rfl
      have hlength := hfuel _ _ hplug
      rw [← hplug] at hvalid
      obtain ⟨k, n', hfits', ht'⟩ := hvalid.unplug
      obtain rfl := ht'.colour (d := .left) rfl
      have hrename := hfits'.rename s
      have hpaint : t.paint true = t.paint c' := by
        cases hroot : t.root? with
        | none =>
          obtain rfl := root?_eq_none.mp hroot
          rfl
        | some y => rw [(hrename.erase_child (d := .left) ht' hroot).1]
      rw [hpaint] at hm₁
      obtain ⟨m', t', hfix, his, hvalid', hlist⟩ := Held.erased hm₁ hrename (d := .left) ht' (by
        rw [List.length_append] at hlength ⊢
        exact hlength)
      refine ⟨m', t', ?_, his, hvalid', ?_⟩
      · rw [hnode]
        exact hfix
      · rw [hlist, toList_plug, toList_plug, before_append, after_append, before_of_left hleft]
        simp [before, after, toList]

end RbTree

end OsLab
