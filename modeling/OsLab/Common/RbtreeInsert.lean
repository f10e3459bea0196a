/-
Insertion into the red-black trees of `common/rbtree.c`.

* `Held.insertRotate_outer`, `Held.insertRotate_inner`, `Held.insertColour` — the three cases of
  `__rb_insert_fix`, with the tree in memory before and after;
* `insertFix_spec` — the loop makes a red-black tree where a red node has come in;
* `descend_spec` — the place that `_rb_insert` finds;
* `insert_spec` — `_rb_insert` puts the node in order, or finds an equal one.
-/
import OsLab.Common.RbtreeShape

namespace OsLab

open BinTree TreePath

namespace RbTree

open RbPiece

variable {T : Type} [DecidableEq T] {m : RbTree T} {x y g p : T} {v w hole : Option T}
  {c c' k : Bool} {d e : Side} {s t u a b : BinTree T} {C : TreePath T} {n : ℕ}

/-! ### Rotations -/

theorem insertRotate_of_ne (hne : m.child d.other p ≠ some x) : m.insertRotate d x p g =
    (((m.setChild d g (m.child d.other p)).setParentColorIf (m.child d.other p) (some g)
      true).setChild d.other p (some g)).rotateSetParents g p false := by
  unfold insertRotate
  dsimp only
  rw [if_neg hne.symm]

/-- Case 3: the node is on the outer side. -/
theorem Held.insertRotate_outer (h : m.Held (around (some g) C +
      {cell g (above none C) k d (some p) u.root?} + {tree (some g) u} +
      {cell p (some g) c d t.root? s.root?} + {tree (some p) s} + {tree (some p) t}))
    (ht : t.root? = some x) (hs : s.paint true = s) :
    (m.insertRotate d x p g).Is (plug C (join d k p t (join d false g s u))) := by
  have hp := (h.arrange ({cell p (some g) c d t.root? s.root?} + (around (some g) C +
    {cell g (above none C) k d (some p) u.root?} + {tree (some g) u} + {tree (some p) s} +
    {tree (some p) t})) (by abel)).head
  have hne := Held.root?_ne (h.arrange ({tree (some p) t} + {tree (some p) s} +
    (around (some g) C + {cell g (above none C) k d (some p) u.root?} + {tree (some g) u} +
    {cell p (some g) c d t.root? s.root?})) (by abel)) ht
  have hadopt := Held.adopt (h.arrange ({cell g (above none C) k d (some p) u.root?} +
    {tree (some p) s} + (around (some g) C + {tree (some g) u} +
    {cell p (some g) c d t.root? s.root?} + {tree (some p) t})) (by abel)) true
  rw [hs] at hadopt
  have hlink := Held.setOther (hadopt.arrange ({cell p (some g) c d t.root? s.root?} +
    (around (some g) C + {cell g (above none C) k d s.root? u.root?} + {tree (some g) s} +
    {tree (some g) u} + {tree (some p) t})) (by abel)) (some g)
  rw [← hp.other] at hne
  rw [insertRotate_of_ne hne, hp.other]
  exact Held.rotate (hlink.arrange _ (by abel)) rfl false

theorem insertRotate_of_eq (heq : m.child d.other p = some x) :
    m.insertRotate d x p g =
    (let m₁ := (m.setChild d.other p (m.child d x)).setParentColorIf (m.child d x) (some p) true
    let m₂ := (m₁.setChild d x (some p)).setParentColor p (some x) false
    let tmp := m₂.child d.other x
    (((m₂.setChild d g tmp).setParentColorIf tmp (some g) true).setChild d.other x
      (some g)).rotateSetParents g x false) := by
  unfold insertRotate
  dsimp only
  rw [if_pos heq.symm]

/-- Cases 2 and 3: it is on the inner side. -/
theorem Held.insertRotate_inner (h : m.Held (around (some g) C +
      {cell g (above none C) k d (some p) u.root?} + {tree (some g) u} +
      {cell p (some g) c d.other (some x) s.root?} + {tree (some p) s} +
      {cell x (some p) c' d a.root? b.root?} + {tree (some x) a} + {tree (some x) b}))
    (ha : a.paint true = a) (hb : b.paint true = b) :
    (m.insertRotate d x p g).Is
      (plug C (join d k x (join d false p s a) (join d false g b u))) := by
  have hp := (h.arrange ({cell p (some g) c d.other (some x) s.root?} + (around (some g) C +
    {cell g (above none C) k d (some p) u.root?} + {tree (some g) u} + {tree (some p) s} +
    {cell x (some p) c' d a.root? b.root?} + {tree (some x) a} + {tree (some x) b}))
    (by abel)).head
  have hx := (h.arrange ({cell x (some p) c' d a.root? b.root?} + (around (some g) C +
    {cell g (above none C) k d (some p) u.root?} + {tree (some g) u} +
    {cell p (some g) c d.other (some x) s.root?} + {tree (some p) s} + {tree (some x) a} +
    {tree (some x) b})) (by abel)).head
  -- the parent gets a child of the node, and comes below it
  have hlower := Held.adopt (h.arrange ({cell p (some g) c d.other (some x) s.root?} +
    {tree (some x) a} + (around (some g) C + {cell g (above none C) k d (some p) u.root?} +
    {tree (some g) u} + {tree (some p) s} + {cell x (some p) c' d a.root? b.root?} +
    {tree (some x) b})) (by abel)) true
  rw [ha] at hlower
  have hjoin := Held.fold (hlower.arrange ({cell p (some g) c d.other a.root? s.root?} +
    {tree (some p) a} + {tree (some p) s} + (around (some g) C +
    {cell g (above none C) k d (some p) u.root?} + {tree (some g) u} +
    {cell x (some p) c' d a.root? b.root?} + {tree (some x) b})) (by abel)) rfl rfl
  have hupper := Held.adopt (hjoin.arrange ({cell x (some p) c' d a.root? b.root?} +
    {tree (some g) (join d.other c p a s)} + (around (some g) C +
    {cell g (above none C) k d (some p) u.root?} + {tree (some g) u} + {tree (some x) b}))
    (by abel)) false
  rw [root?_join, paint_join, join_other, setParentColorIf_some] at hupper
  have hx₂ := (hupper.arrange _ (add_assoc _ _ _)).head
  -- and the grandparent gets the other one
  have hadopt := Held.adopt (hupper.arrange ({cell g (above none C) k d (some p) u.root?} +
    {tree (some x) b} + (around (some g) C + {cell x (some p) c' d (some p) b.root?} +
    {tree (some x) (join d false p s a)} + {tree (some g) u})) (by abel)) true
  rw [hb] at hadopt
  have hlink := Held.setOther (hadopt.arrange ({cell x (some p) c' d (some p) b.root?} +
    (around (some g) C + {cell g (above none C) k d b.root? u.root?} + {tree (some g) b} +
    {tree (some g) u} + {tree (some x) (join d false p s a)})) (by abel)) (some g)
  rw [insertRotate_of_eq hp.child, hx.child]
  dsimp only
  rw [hx₂.other]
  exact Held.rotate (hlink.arrange _ (by abel)) root?_join false

/-! ### The repair -/

/-- The uncle is black: one rotation, or two. -/
theorem Held.insertRotate (h : m.Held (around (some g) C +
      {cell g (above none C) true e (some p) u.root?} + {tree (some g) u} +
      {cell p (some g) false d t.root? s.root?} + {tree (some p) s} + {tree (some p) t}))
    (hfits : Fits (⟨d, false, p, s⟩ :: ⟨e, true, g, u⟩ :: C) true n) (ht : t.Balanced false n)
    (hx : t.root? = some x) (hu : u.Balanced true n) :
    ∃ t', (m.insertRotate e x p g).Is t' ∧ t'.Valid ∧
      t'.toList = (plug (⟨d, false, p, s⟩ :: ⟨e, true, g, u⟩ :: C) t).toList := by
  obtain ⟨_, hs, hcolour⟩ := hfits.sibling
  obtain ⟨rfl, -⟩ := hcolour rfl
  by_cases hde : d = e
  · subst hde
    refine ⟨_, Held.insertRotate_outer h hx hs.paint_black, hfits.rotate_outer ht hu, ?_⟩
    rw [toList_plug, plug, plug, toList_plug]
    cases d <;> simp [TreeFrame.fill, join, toList]
  · obtain rfl : d = e.other := by cases d <;> cases e <;> simp_all [Side.other]
    obtain ⟨c, a, b, rfl⟩ := exists_join e hx
    obtain rfl := ht.colour rfl
    obtain ⟨-, ha, hb⟩ := ht.of_red
    have hparts := held_join.mp (h.arrange ({tree (some p) (join e false x a b)} +
      (around (some g) C + {cell g (above none C) true e (some p) u.root?} + {tree (some g) u} +
      {cell p (some g) false e.other (join e false x a b).root? s.root?} + {tree (some p) s}))
      (by abel))
    rw [root?_join] at hparts
    refine ⟨_, Held.insertRotate_inner (hparts.arrange _ (by abel)) ha.paint_black hb.paint_black,
      hfits.rotate_inner ht hu, ?_⟩
    rw [toList_plug, plug, plug, toList_plug]
    cases e <;> simp [TreeFrame.fill, join, toList, Side.other]

/-- The uncle is red: the three nodes are coloured. -/
theorem Held.insertColour (h : m.Held (around (some g) C +
      {cell g (above none C) true e (some p) u.root?} + {tree (some g) u} +
      {cell p (some g) false d t.root? s.root?} + {tree (some p) s} + {tree (some p) t}))
    (hy : u.root? = some y) :
    let m' := (m.setParentColor y (some g) true).setParentColor p (some g) true
    (m'.node g).parent = above none C ∧
      (m'.setParentColor g (above none C) false).Held (around (some g) C +
        {tree (above none C) (join e false g (join d true p t s) (u.paint true))}) := by
  have huncle := Held.setParentColorIf (h.arrange ({tree (some g) u} + (around (some g) C +
    {cell g (above none C) true e (some p) u.root?} +
    {cell p (some g) false d t.root? s.root?} + {tree (some p) s} + {tree (some p) t}))
    (by abel)) (some g) true
  rw [hy, setParentColorIf_some] at huncle
  have hparent := Held.setParentColor (huncle.arrange ({cell p (some g) false d t.root? s.root?} +
    (around (some g) C + {cell g (above none C) true e (some p) (some y)} +
    {tree (some g) (u.paint true)} + {tree (some p) s} + {tree (some p) t})) (by abel))
    (some g) true
  have hheld := hparent.arrange ({cell g (above none C) true e (some p) (some y)} +
    (around (some g) C + {cell p (some g) true d t.root? s.root?} +
    {tree (some g) (u.paint true)} + {tree (some p) s} + {tree (some p) t})) (by abel)
  have hgparent := Held.setParentColor hheld (above none C) false
  have hlower := Held.fold (hgparent.arrange ({cell p (some g) true d t.root? s.root?} +
    {tree (some p) t} + {tree (some p) s} + (around (some g) C +
    {cell g (above none C) false e (some p) (some y)} + {tree (some g) (u.paint true)}))
    (by abel)) rfl rfl
  have hupper := Held.fold (hlower.arrange ({cell g (above none C) false e (some p) (some y)} +
    {tree (some g) (join d true p t s)} + {tree (some g) (u.paint true)} + around (some g) C)
    (by abel)) root?_join (root?_paint.trans hy)
  exact ⟨hheld.head.parent, hupper.arrange _ (add_comm _ _)⟩

theorem insertFix_some (fuel : ℕ) (hred : (m.node p).black = false)
    (hg : (m.node p).parent = some g) (he : (if some p ≠ (m.node g).right then Side.left
      else .right) = e) : insertFix (fuel + 1) m x (some p) =
      match m.child e.other g with
      | some y =>
        if (m.node y).black = false then
          let m' := (m.setParentColor y (some g) true).setParentColor p (some g) true
          insertFix fuel (m'.setParentColor g (m'.node g).parent false) g (m'.node g).parent
        else some (m.insertRotate e x p g)
      | none => some (m.insertRotate e x p g) := by
  rw [insertFix, hred, if_neg Bool.false_ne_true, hg, ← he]
  rfl

/-- A red node in a place for a black one: the loop makes a red-black tree of the same nodes. -/
theorem insertFix_spec (fuel : ℕ) (h : m.Held (around (some x) C + {tree (above none C) t}))
    (ht : t.Balanced false n) (hfits : Fits C true n) (hx : t.root? = some x)
    (hfuel : C.length < fuel) :
    ∃ m' t', insertFix fuel m x (above none C) = some m' ∧ m'.Is t' ∧ t'.Valid ∧
      t'.toList = (plug C t).toList := by
  induction fuel generalizing m t C n x with
  | zero => exact absurd hfuel (Nat.not_lt_zero _)
  | succ fuel ih =>
    rw [← hx] at h
    match C, hfits, h, hfuel with
    | [], _, h, _ =>
      -- the root becomes black
      have hroot := Held.setParentColorIf (((held_plug (C := [])).mp h).arrange ({tree none t} +
        {ptr t.root?}) (add_comm _ _)) none true
      have hheld := hroot.arrange ({ptr t.root?} + {tree none (t.paint true)}) (add_comm _ _)
      rw [hx, setParentColorIf_some] at hheld
      have hset : { m.setParentColor x none true with root := some x } =
          m.setParentColor x none true := by
        rw [← hheld.head]
      refine ⟨m.setParentColor x none true, t.paint true, ?_, ?_, ⟨_, ht.paint_red⟩, ?_⟩
      · rw [above, insertFix, hset]
      · unfold Is
        rw [root?_paint, hx]
        exact hheld
      · exact toList_paint
    | ⟨d, true, p, s⟩ :: C, hfits, h, _ =>
      have hp := (held_cons.mp h).arrange _ (by rw [add_assoc, add_assoc])
      refine ⟨m, plug (⟨d, true, p, s⟩ :: C) t, ?_, held_plug.mp h, ?_, rfl⟩
      · rw [above, insertFix, if_pos hp.head.black]
      · exact hfits.of_black.plug ht
    | ⟨d, false, p, s⟩ :: C, hfits, h, hfuel =>
      obtain ⟨e, g, u, C, rfl⟩ := hfits.up.exists_black
      have hparent := held_cons.mp h
      have hgparent := held_cons.mp (hparent.arrange (around (some p) (⟨e, true, g, u⟩ :: C) +
        ({cell p (some g) false d t.root? s.root?} + {tree (some p) s} + {tree (some p) t}))
        (by
          rw [above, above]
          abel))
      have hparts := hgparent.arrange (around (some g) C +
        {cell g (above none C) true e (some p) u.root?} + {tree (some g) u} +
        {cell p (some g) false d t.root? s.root?} + {tree (some p) s} + {tree (some p) t})
        (by abel)
      have hp := (hparts.arrange ({cell p (some g) false d t.root? s.root?} +
        (around (some g) C + {cell g (above none C) true e (some p) u.root?} +
        {tree (some g) u} + {tree (some p) s} + {tree (some p) t})) (by abel)).head
      have hg := (hparts.arrange ({cell g (above none C) true e (some p) u.root?} +
        (around (some g) C + {tree (some g) u} + {cell p (some g) false d t.root? s.root?} +
        {tree (some p) s} + {tree (some p) t})) (by abel)).head
      have hne := Held.ne_root? (hparts.arrange ({cell p (some g) false d t.root? s.root?} +
        {tree (some g) u} + (around (some g) C +
        {cell g (above none C) true e (some p) u.root?} +
        {tree (some p) s} + {tree (some p) t})) (by abel))
      have hcolour : ∀ c' y, u.Balanced c' n → u.root? = some y → (m.node y).black = c' :=
        fun c' y => Held.colour (hparts.arrange ({tree (some g) u} + (around (some g) C +
          {cell g (above none C) true e (some p) u.root?} +
          {cell p (some g) false d t.root? s.root?} + {tree (some p) s} + {tree (some p) t}))
          (by abel))
      have hstep := insertFix_some (x := x) fuel hp.black hp.parent (hg.side hne.symm)
      rw [hg.other] at hstep
      obtain ⟨c', hu, -⟩ := hfits.up.sibling
      cases c' with
      | true =>
        -- the uncle is black or missing: the loop ends
        obtain ⟨t', hrotate, hvalid, hlist⟩ := Held.insertRotate hparts hfits ht hx hu
        refine ⟨m.insertRotate e x p g, t', ?_, hrotate, hvalid, hlist⟩
        rw [above, hstep]
        cases hy : u.root? with
        | none => rfl
        | some y =>
          dsimp only
          rw [hcolour true y hu hy, if_neg (by simp)]
      | false =>
        -- the uncle is red: the red node is the grandparent now
        obtain ⟨y, hy⟩ : ∃ y, u.root? = some y := by
          cases hu
          exact ⟨_, rfl⟩
        obtain ⟨hfits', ht'⟩ := hfits.recolour ht hu
        obtain ⟨habove, hheld⟩ := Held.insertColour hparts hy
        obtain ⟨m', t', hfix, his, hvalid, hlist⟩ := ih hheld ht' hfits' root?_join (by
          simp only [List.length_cons] at hfuel
          omega)
        refine ⟨m', t', ?_, his, hvalid, ?_⟩
        · rw [above, hstep, hy]
          dsimp only
          rw [hcolour false y hu hy, if_pos rfl, habove]
          exact hfix
        · rw [hlist, plug, plug, toList_plug, toList_plug]
          cases d <;> cases e <;> simp [TreeFrame.fill, join, toList]

/-! ### The place of a node -/

/-- The node becomes a child. -/
theorem Held.attach (h : m.Held (around none (⟨d, c, y, s⟩ :: C) +
      {cell x none false .left none none})) :
    ((m.setChild d y (some x)).setParentColor x (some y) false).Held
      (around (some x) (⟨d, c, y, s⟩ :: C) + {tree (some y) (.node false .nil x .nil)}) := by
  have hchild := Held.setChild ((held_cons.mp h).arrange
    ({cell y (above none C) c d none s.root?} + ({tree (some y) s} + around (some y) C +
    {cell x none false .left none none})) (by abel)) (some x)
  have hparent := Held.setParentColor (hchild.arrange ({cell x none false .left none none} +
    ({cell y (above none C) c d (some x) s.root?} + {tree (some y) s} + around (some y) C))
    (by abel)) (some y) false
  exact held_cons.mpr ((held_leaf.mpr hparent).arrange _ (add_comm _ _))

variable {cmp : T → T → Bool} {next : T → Option (Option (RbTree T × T))}

/-- What the loop does below a place: it finds an equal node, or makes the node a child between
the smaller and the greater ones. -/
def Descended (cmp : T → T → Bool) (x : T) (t : BinTree T) (C : TreePath T)
    (r : Option (Option (RbTree T × T))) : Prop :=
  (r = some none ∧ ∃ z ∈ t.toList, cmp x z = false ∧ cmp z x = false) ∨
  ∃ m' C' p, r = some (some (m', p)) ∧ above none C' = some p ∧
    m'.Held (around (some x) C' + {tree (above none C') (.node false .nil x .nil)}) ∧
    plug C' .nil = plug C t ∧ (∀ z ∈ before C', cmp z x) ∧ ∀ z ∈ after C', cmp x z

/-- The loop goes to side `d`. -/
theorem Descended.side (h : m.Held (around (some y) C + {tree (above none C) (join d c y s t)} +
      {cell x none false .left none none}))
    (hbefore : ∀ z ∈ before (⟨d, c, y, t⟩ :: C), cmp z x)
    (hafter : ∀ z ∈ after (⟨d, c, y, t⟩ :: C), cmp x z)
    (hnext : ∀ z, s.root? = some z → m.Held (around (some z) (⟨d, c, y, t⟩ :: C) +
      {tree (some y) s} + {cell x none false .left none none}) →
      Descended cmp x s (⟨d, c, y, t⟩ :: C) (next z)) :
    Descended cmp x (join d c y s t) C (match m.child d y with
      | none => some (some ((m.setChild d y (some x)).setParentColor x (some y) false, y))
      | some z => next z) := by
  have hdown := held_down.mp h
  have hy := Held.node (h.arrange ({tree (above none C) (join d c y s t)} +
    (around (some y) C + {cell x none false .left none none})) (by abel))
  rw [hy.child]
  cases hroot : s.root? with
  | none =>
    obtain rfl := root?_eq_none.mp hroot
    have hleaf := held_nil.mp (hdown.arrange ({tree (some y) .nil} + (around none
      (⟨d, c, y, t⟩ :: C) + {cell x none false .left none none})) (by
        rw [hroot]
        abel))
    exact Or.inr ⟨_, _, y, rfl, rfl, Held.attach hleaf, rfl, hbefore, hafter⟩
  | some z =>
    rw [hroot] at hdown
    rcases hnext z hroot hdown with ⟨hfound, w, hw, hequal⟩ | hplace
    · exact Or.inl ⟨hfound, w, mem_join.mpr (Or.inr (Or.inl hw)), hequal⟩
    · exact Or.inr hplace

/-- The nodes before the place are less, and those behind it greater. -/
theorem descend_spec (htrans : ∀ a b c, cmp a b → cmp b c → cmp a c) (fuel : ℕ)
    (h : m.Held (around (some y) C + {tree (above none C) t} + {cell x none false .left none none}))
    (hy : t.root? = some y) (hfuel : t.toList.length ≤ fuel)
    (hsorted : t.toList.Pairwise fun a b => cmp a b) (hbefore : ∀ z ∈ before C, cmp z x)
    (hafter : ∀ z ∈ after C, cmp x z) : Descended cmp x t C (descend cmp x fuel m y) := by
  induction t generalizing C fuel y with
  | nil => cases hy
  | node c l z r ihl ihr =>
    obtain rfl := Option.some.inj hy
    simp only [toList, List.length_append, List.length_cons] at hfuel
    obtain ⟨fuel, rfl⟩ : ∃ k, fuel = k + 1 := ⟨fuel - 1, by omega⟩
    rw [toList, List.pairwise_append, List.pairwise_cons] at hsorted
    obtain ⟨hl, ⟨hzr, hr⟩, hlz⟩ := hsorted
    rw [descend]
    cases hlt : cmp x z with
    | true =>
      have hafter' : ∀ w ∈ after (⟨.left, c, z, r⟩ :: C), cmp x w := by
        intro w hw
        simp only [after, List.cons_append, List.mem_cons, List.mem_append] at hw
        rcases hw with rfl | hw | hw
        · exact hlt
        · exact htrans x z w hlt (hzr w hw)
        · exact hafter w hw
      rw [if_pos rfl]
      exact Descended.side (d := .left) h hbefore hafter' fun w hw hdown =>
        ihl fuel hdown hw (by omega) hl hbefore hafter'
    | false =>
      rw [if_neg Bool.false_ne_true]
      cases hgt : cmp z x with
      | true =>
        have hbefore' : ∀ w ∈ before (⟨.right, c, z, l⟩ :: C), cmp w x := by
          intro w hw
          simp only [before, List.mem_singleton, List.mem_append] at hw
          rcases hw with hw | hw | rfl
          · exact hbefore w hw
          · exact htrans w z x (hlz w hw z List.mem_cons_self) hgt
          · exact hgt
        rw [if_pos rfl]
        exact Descended.side (d := .right) h hbefore' hafter fun w hw hdown =>
          ihr fuel hdown hw (by omega) hr hbefore' hafter
      | false =>
        rw [if_neg Bool.false_ne_true]
        exact Or.inl ⟨rfl, z, List.mem_append_right _ List.mem_cons_self, hlt, hgt⟩

/-! ### Insertion -/

/-- `_rb_insert` clears the node at first. -/
theorem Is.clear (h : m.Is t) (hx : x ∉ t.toList) :
    Held { m with node := Function.update m.node x .zero }
      ({cell x none false .left none none} + ({ptr t.root?} + {tree none t})) := by
  have hnode : (Function.update m.node x .zero) x = .zero := Function.update_self _ _ _
  refine h.extend ?_ (Multiset.nodup_singleton _) ?_ ?_
  · exact ⟨congrArg RbNode.parent hnode, congrArg RbNode.black hnode, congrArg RbNode.left hnode,
      congrArg RbNode.right hnode⟩
  · intro l hl
    obtain rfl := Multiset.mem_singleton.mp hl
    rw [Pieces.feet_add, Pieces.feet_singleton, Pieces.feet_singleton, foot_ptr, foot_tree]
    simpa using hx
  · intro l hl
    cases l with
    | none => rfl
    | some y =>
      have hy : y ≠ x := fun heq => hl (by simp [heq])
      exact Function.update_of_ne hy _ _

/-- `_rb_insert` puts the node in order, or returns -1 where an equal one is, and changes no node
of the tree. -/
theorem insert_spec (htrans : ∀ a b c, cmp a b → cmp b c → cmp a c) (h : m.Is t)
    (hvalid : t.Valid) (hsorted : t.toList.Pairwise fun a b => cmp a b) (hx : x ∉ t.toList)
    (hsize : t.toList.length < rbFuel) :
    (∃ m', m.insert cmp x = some (-1, m') ∧ m'.Is t ∧ m'.root = m.root ∧
      (∀ y, y ≠ x → m'.node y = m.node y) ∧ ∃ z ∈ t.toList, cmp x z = false ∧ cmp z x = false) ∨
    ∃ m' t', m.insert cmp x = some (0, m') ∧ m'.Is t' ∧ t'.Valid ∧
      (t'.toList.Pairwise fun a b => cmp a b) ∧ (∀ z, z ∈ t'.toList ↔ z = x ∨ z ∈ t.toList) ∧
      ∀ z ∈ t.toList, cmp x z ∨ cmp z x := by
  have hclear := h.clear hx
  have hroot : m.root = t.root? := h.head
  unfold insert
  dsimp only
  cases ht : t.root? with
  | none =>
    -- the node becomes the root
    obtain rfl := root?_eq_none.mp ht
    have hnode := held_nil.mp ((Held.setParentColor hclear none true).arrange
      ({tree none .nil} + ({ptr none} + {cell x none true .left none none})) (by
        rw [ht]
        abel))
    have hset := Held.setRoot hnode (some x)
    have hleaf := held_leaf.mpr (hset.arrange ({cell x none true .left none none} +
      {ptr (some x)}) (add_comm _ _))
    refine Or.inr ⟨_, .node true .nil x .nil, ?_, hleaf.arrange _ (add_comm _ _),
      ⟨1, .black .nil .nil⟩, List.pairwise_singleton _ _, ?_, ?_⟩
    · rw [hroot, ht, rbFuel, insertFix]
      rfl
    · intro z
      simp [toList]
    · intro z hz
      cases hz
  | some y =>
    have hplace := held_around_nil.mpr (hclear.arrange ({ptr (some y)} + ({tree none t} +
      {cell x none false .left none none})) (by
        rw [ht]
        abel))
    rw [hroot, ht]
    dsimp only
    have hplaced := descend_spec htrans rbFuel (hplace.arrange (around (some y) [] +
      {tree (above none []) t} + {cell x none false .left none none}) (add_assoc _ _ _).symm) ht
      hsize.le hsorted (by simp [before]) (by simp [after])
    rcases hplaced with ⟨hdescend, z, hz, hequal⟩ |
      ⟨m', C, p, hdescend, hp, hheld, hplug, hbefore, hafter⟩
    · refine Or.inl ⟨{ m with node := Function.update m.node x .zero }, ?_, hclear.drop,
        hroot.trans ht, ?_, z, hz, hequal⟩
      · rw [hroot, ht] at hdescend ⊢
        rw [hdescend]
        rfl
      · exact fun u hu => Function.update_of_ne hu _ _
    · rw [plug] at hplug
      subst hplug
      obtain ⟨c, n, hfits, hnil⟩ := hvalid.unplug
      cases hnil
      have hfuel : C.length < rbFuel :=
        lt_of_le_of_lt (le_trans (Nat.le_add_right _ _) (length_add_le_plug C .nil)) hsize
      obtain ⟨m'', t', hfix, his, hvalid', hlist⟩ :=
        insertFix_spec rbFuel hheld (.red .nil .nil) hfits rfl hfuel
      rw [toList_plug] at hlist hsorted
      refine Or.inr ⟨m'', t', ?_, his, hvalid', ?_, ?_, ?_⟩
      · rw [hroot, ht] at hdescend
        rw [hdescend, Option.bind_some]
        dsimp only
        rw [← hp, hfix]
        rfl
      · rw [hlist]
        simp only [toList, List.nil_append, List.append_nil, List.append_assoc,
          List.pairwise_append, List.pairwise_cons, List.cons_append] at hsorted ⊢
        refine ⟨hsorted.1, ⟨hafter, hsorted.2.1⟩, fun a ha b hb => ?_⟩
        rcases List.mem_cons.mp hb with rfl | hb
        · exact hbefore a ha
        · exact hsorted.2.2 a ha b hb
      · intro z
        rw [hlist, toList_plug]
        simp only [toList, List.mem_append, List.mem_singleton, List.nil_append,
          List.not_mem_nil]
        tauto
      · intro z hz
        rw [toList_plug] at hz
        simp only [toList, List.append_nil, List.mem_append] at hz
        exact hz.symm.imp (hafter z) (hbefore z)

end RbTree

end OsLab
