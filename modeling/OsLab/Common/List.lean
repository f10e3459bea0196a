/-
The circular lists of `common/list.c` and the macros of `common/list.h`.

The functions are written store by store, with `none` for a null pointer; `mergeList_eq` and
`detachFromList_eq` bring them to the operations on `Links`.

* `forInList_ring` — a loop over a list that leaves the links alone comes to every node, and to
  the head last;
* `list_operations` — what the operations do when the nodes lie in rings.
-/
import OsLab.Lib.RingList

namespace OsLab

variable {α : Type*} [DecidableEq α]

namespace Links

/-- `node->next = p` -/
def setNext (L : Links α) (node p : α) : Links α := { L with next := Function.update L.next node p }

/-- `node->prev = p` -/
def setPrev (L : Links α) (node p : α) : Links α := { L with prev := Function.update L.prev node p }

end Links

/-- `init_list_node` -/
def initListNode (L : Links α) (node : α) : Links α := (L.setPrev node node).setNext node node

/-- `_merge_list` -/
def mergeList (L : Links α) (node1 node2 : Option α) : Option α × Links α :=
  match node1, node2 with
  | none, _ => (node2, L)
  | some _, none => (node1, L)
  | some node1, some node2 =>
    let node3 := L.next node1
    let node4 := L.prev node2
    let L := L.setNext node1 node2
    let L := L.setPrev node2 node1
    let L := L.setNext node4 node3
    let L := L.setPrev node3 node4
    (some node1, L)

/-- `_insert_into_list` -/
def insertIntoList (L : Links α) (list : Option α) (node : α) : Option α × Links α :=
  mergeList (initListNode L node) list (some node)

/-- `_detach_from_list` -/
def detachFromList (L : Links α) (node : α) : Option α × Links α :=
  let prev := L.prev node
  let L := L.setNext (L.prev node) (L.next node)
  let L := L.setPrev (L.next node) (L.prev node)
  let L := initListNode L node
  if prev = node then (none, L) else (some prev, L)

/-- The values of `valptr` in `_for_in_list` from the current one on; `none` when the fuel
runs out. -/
def forInListFrom (L : Links α) (flag : α) : ℕ → Option α → Option (List α)
  | _, none => some []
  | 0, some _ => none
  | fuel + 1, some valptr =>
    (forInListFrom L flag fuel (if valptr = flag then none else some (L.next valptr))).map
      (valptr :: ·)

/-- `_for_in_list` with a body that leaves the links alone. -/
def forInList (L : Links α) (fuel : ℕ) (list : α) : Option (List α) :=
  forInListFrom L list fuel (some (L.next list))

/-- `_empty_list` -/
def emptyList (L : Links α) (list : α) : Prop := L.next list = list

instance (L : Links α) (list : α) : Decidable (emptyList L list) :=
  inferInstanceAs (Decidable (_ = _))

variable {L : Links α} {a b h n : α} {xs ys : List α}

theorem mergeList_eq : mergeList L (some a) (some b) = (some a, L.merge a b) := rfl

theorem insertIntoList_eq : insertIntoList L (some a) n = (some a, L.insert a n) := rfl

theorem detachFromList_eq : detachFromList L n = L.detach n := by
  -- the first store leaves the two pointers of `node` as they are
  have hnext : (L.setNext (L.prev n) (L.next n)).next n = L.next n := by
    show Function.update L.next (L.prev n) (L.next n) n = L.next n
    by_cases heq : n = L.prev n
    · rw [← heq, Function.update_self]
    · rw [Function.update_of_ne heq]
  have hlinks : initListNode ((L.setNext (L.prev n) (L.next n)).setPrev
      ((L.setNext (L.prev n) (L.next n)).next n) (L.prev n)) n = (L.detach n).2 := by
    rw [hnext]
    rfl
  show (if L.prev n = n then (none, _) else (some (L.prev n), _)) = _
  by_cases hprev : L.prev n = n
  · rw [if_pos hprev, Links.detach, if_pos hprev]
    exact Prod.ext rfl hlinks
  · rw [if_neg hprev, Links.detach, if_neg hprev]
    exact Prod.ext rfl hlinks

theorem forInListFrom_walk : ∀ (fuel : ℕ) (v : α),
    forInListFrom L h fuel (some v) = L.walk h fuel v := by
  intro fuel
  -- the node of the flag is still visited: the loop ends only after it
  induction fuel with
  | zero => exact fun _ => rfl
  | succ fuel ih =>
    intro v
    rw [forInListFrom, Links.walk]
    by_cases hv : v = h
    · rw [if_pos hv, if_pos hv]
      cases fuel <;> rfl
    · rw [if_neg hv, if_neg hv, ih]

/-- A loop over a list comes to its nodes in order, and then to the head. -/
theorem forInList_ring (hr : L.Ring h xs) {fuel : ℕ} (hfuel : xs.length < fuel) :
    forInList L fuel h = some (xs ++ [h]) := by
  rw [forInList, forInListFrom_walk]
  exact hr.walk hfuel

omit [DecidableEq α] in
theorem emptyList_iff (hr : L.Ring h xs) : emptyList L h ↔ xs = [] := by
  constructor
  · intro hempty
    cases xs with
    | nil => rfl
    | cons x xs =>
      have hnext : L.next h = x := (hr.next_eq (l := []) (r := xs ++ [h]) rfl).1
      have hx : h ∉ x :: xs := (List.nodup_cons.mp hr.nodup).1
      exact absurd (List.mem_cons.mpr (Or.inl (hempty.symm.trans hnext))) hx
  · rintro rfl
    exact (hr.next_eq (l := []) (r := []) rfl).1

/-- A node of no list comes right after the head. -/
theorem insertIntoList_ring (hr : L.Ring h xs) (hn : n ∉ h :: xs) :
    (insertIntoList L (some h) n).2.Ring h (n :: xs) := by
  rw [insertIntoList_eq]
  exact hr.insert hn

/-- A node is alone when `_detach_from_list` returns a null pointer. -/
theorem detachFromList_none (hr : L.Ring n xs) :
    (detachFromList L n).1 = none ↔ xs = [] := by
  rw [detachFromList_eq]
  rcases List.eq_nil_or_concat xs with rfl | ⟨l, c, rfl⟩
  · have hprev : L.prev n = n := (hr.next_eq (l := []) (r := []) rfl).2
    exact iff_of_true (if_pos hprev) rfl
  · rw [List.concat_eq_append] at hr ⊢
    rw [hr.detach_head.1]
    simp

/-- It returns the node before. -/
theorem detachFromList_prev (hr : L.Ring h (xs ++ n :: ys)) :
    (detachFromList L n).1 = (h :: xs).getLast? := by
  obtain ⟨⟨l, hl⟩, -⟩ := hr.neighbours
  have hne : L.prev n ≠ n := by
    intro heq
    have hmem : n ∈ h :: xs := by rw [hl, heq]; simp
    have hnodup : ((h :: xs) ++ n :: ys).Nodup := hr.nodup
    exact (List.nodup_append.mp hnodup).2.2 n hmem n List.mem_cons_self rfl
  rw [detachFromList_eq, hl, List.getLast?_concat]
  exact if_neg hne

/-- **The lists.**  When the nodes of `N` lie in rings, `_merge_list` of nodes of two rings makes
one ring of them, `_detach_from_list` leaves a ring of one node and the rest of the former ring,
and a loop that leaves the links alone comes to every node once and to the head last. -/
theorem list_operations (L : Links α) (N : Set α) (hN : L.Rings N) :
    (∀ a ∈ N, ∀ b ∈ N, ∀ xs ys, L.Ring a xs → L.Ring b ys → b ∉ a :: xs →
      (mergeList L (some a) (some b)).1 = some a ∧
      (mergeList L (some a) (some b)).2.Ring a (b :: (ys ++ xs)) ∧
      (∀ k zs, L.Ring k zs → a ∉ k :: zs → b ∉ k :: zs →
        (mergeList L (some a) (some b)).2.Ring k zs) ∧
      (mergeList L (some a) (some b)).2.Rings N) ∧
    (∀ n ∈ N, (detachFromList L n).2.Ring n [] ∧
      ((detachFromList L n).1 = none ↔ L.Ring n []) ∧
      (∀ h xs ys, L.Ring h (xs ++ n :: ys) →
        (detachFromList L n).1 = (h :: xs).getLast? ∧
        (detachFromList L n).2.Ring h (xs ++ ys)) ∧
      (∀ k zs, L.Ring k zs → n ∉ k :: zs → (detachFromList L n).2.Ring k zs) ∧
      (detachFromList L n).2.Rings N) ∧
    (∀ h ∈ N, ∀ xs, L.Ring h xs → (emptyList L h ↔ xs = []) ∧
      ∀ fuel, xs.length < fuel → forInList L fuel h = some (xs ++ [h])) := by
  refine ⟨?merge, ?detach, ?loop⟩
  case merge =>
    intro a ha b hb xs ys hr hs hne
    rw [mergeList_eq]
    refine ⟨rfl, hr.merge hs fun c hc => hr.disjoint hs hne hc, ?_, hN.merge ha hb hr hs hne⟩
    intro k zs hk hka hkb
    exact hk.frame_merge hr hs (fun c hc hcz => hk.disjoint hr hka hcz hc)
      (fun c hc hcz => hk.disjoint hs hkb hcz hc)
  case detach =>
    intro n hn
    obtain ⟨xs, hr, -⟩ := hN n hn
    have halone : (detachFromList L n).1 = none ↔ L.Ring n [] := by
      rw [detachFromList_none hr]
      constructor
      · rintro rfl
        exact hr
      · exact hr.unique
    refine ⟨?_, halone, ?_, ?_, ?_⟩
    · rw [detachFromList_eq]
      exact Links.Ring.detach_self L n
    · intro h xs ys hs
      refine ⟨detachFromList_prev hs, ?_⟩
      rw [detachFromList_eq]
      exact hs.detach
    · intro k zs hk hnk
      rw [detachFromList_eq]
      exact hk.frame_detach_self hr hnk
    · rw [detachFromList_eq]
      exact hN.detach hn
  case loop =>
    intro h _ xs hr
    exact ⟨emptyList_iff hr, fun fuel hfuel => forInList_ring hr hfuel⟩

/-- The nodes 0 and 1 make a ring, and 2 is alone. -/
theorem list_operations_three : ∃ L : Links ℕ, L.Ring 0 [1] ∧
    (mergeList L (some 1) (some 2)).2.Ring 1 [2, 0] ∧ (detachFromList L 1).1 = some 0 ∧
    forInList L 2 0 = some [1, 0] := by
  have halone : ∀ n, (Links.mk id id : Links ℕ).Ring n [] := fun n =>
    ⟨List.nodup_singleton n, List.isChain_cons_cons.mpr ⟨⟨rfl, rfl⟩, .singleton n⟩⟩
  have hN : (Links.mk id id : Links ℕ).Rings fun _ => True := fun n _ => ⟨[], halone n, nofun⟩
  have hring : ((Links.mk id id : Links ℕ).merge 0 1).Ring 0 [1] :=
    (halone 0).merge (halone 1) (by decide)
  have htwo : ((Links.mk id id : Links ℕ).merge 0 1).Ring 2 [] :=
    (halone 2).frame_merge (halone 0) (halone 1) (by decide) (by decide)
  obtain ⟨hmerge, hdetach, hloop⟩ := list_operations ((Links.mk id id : Links ℕ).merge 0 1)
    (fun _ => True) (hN.merge trivial trivial (halone 0) (halone 1) (by decide))
  exact ⟨_, hring, (hmerge 1 trivial 2 trivial [0] [] hring.rotate htwo (by decide)).2.1,
    ((hdetach 1 trivial).2.2.1 0 [] [] hring).1, (hloop 0 trivial [1] hring).2 2 (by decide)⟩

end OsLab
