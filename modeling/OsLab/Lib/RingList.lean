/-
Circular doubly linked lists.

Every node has a `next` and a `prev`; `Links.Ring L h xs` says that the nodes from `h` on,
along `next`, are `h`, those of `xs`, and `h` again, and the same backwards along `prev`.

* `Links.link` — the two stores that make two nodes neighbours; all operations are made of it;
* `Ring.merge`, `Ring.insert`, `Ring.detach`, `Ring.detach_head` — one rule for each operation;
* `Ring.frame_merge`, `Ring.frame_detach`, `Ring.frame_init` — the other rings stay;
* `Ring.walk` — a walk along `next` from `h` comes to every node and back to `h`;
* `Ring.rotate_to`, `Ring.unique`, `Ring.disjoint` — rings are read from any node, and two rings
  are the same or have no common node;
* `Rings.merge`, `Rings.detach` — nodes that lie in rings still do so.
-/
import Mathlib.Data.List.Chain
import Mathlib.Data.List.Nodup
import Mathlib.Data.Set.Defs
import Mathlib.Logic.Function.Basic
import Mathlib.Tactic.Common

namespace OsLab

/-- The pointers of all nodes. -/
structure Links (α : Type*) where
  next : α → α
  prev : α → α

namespace Links

/-! ### Rings -/

section rings

variable {α : Type*} {L : Links α} {a b c h n : α} {xs ys : List α}

/-- `b` comes next to `a`. -/
def Linked (L : Links α) (a b : α) : Prop := L.next a = b ∧ L.prev b = a

/-- The circular list of `h` and then `xs`. -/
structure Ring (L : Links α) (h : α) (xs : List α) : Prop where
  nodup : (h :: xs).Nodup
  chain : (h :: (xs ++ [h])).IsChain L.Linked

/-- Two lists with a new link between them. -/
theorem chain_join (hl : (xs ++ [a]).IsChain L.Linked) (hr : (b :: ys).IsChain L.Linked)
    (hab : L.Linked a b) : (xs ++ a :: b :: ys).IsChain L.Linked :=
  List.isChain_append_cons_cons.mpr ⟨hl, hab, hr⟩

namespace Ring

theorem next_eq (hr : L.Ring h xs) {l r : List α} (heq : h :: (xs ++ [h]) = l ++ a :: b :: r) :
    L.next a = b ∧ L.prev b = a := by
  have hchain := hr.chain
  rw [heq] at hchain
  exact (List.isChain_append_cons_cons.mp hchain).2.1

/-- The list may be read from its last node on. -/
theorem rotate (hr : L.Ring h (xs ++ [c])) : L.Ring c (h :: xs) := by
  have hnodup := hr.nodup
  have hchain := hr.chain
  constructor
  · refine hnodup.perm ?_
    show (h :: xs ++ [c]).Perm (c :: (h :: xs))
    exact List.perm_append_singleton c (h :: xs)
  · have hsplit : h :: (xs ++ [c] ++ [h]) = (h :: xs) ++ c :: h :: [] := by simp
    rw [hsplit, List.isChain_append_cons_cons] at hchain
    show (c :: h :: (xs ++ [c])).IsChain L.Linked
    rw [List.isChain_cons_cons]
    exact ⟨hchain.2.1, hchain.1⟩

/-- The list may be read from any of its nodes on. -/
theorem rotate_to (hr : L.Ring h (xs ++ n :: ys)) : L.Ring n (ys ++ h :: xs) := by
  induction ys using List.reverseRecOn generalizing h xs with
  | nil => exact hr.rotate
  | append_singleton ys c ih =>
    have hsplit : xs ++ n :: (ys ++ [c]) = (xs ++ n :: ys) ++ [c] := by simp
    rw [hsplit] at hr
    have hrot : L.Ring c ((h :: xs) ++ n :: ys) := hr.rotate
    have hread := ih hrot
    rwa [List.append_assoc, List.singleton_append]

theorem of_mem (hr : L.Ring h xs) (hc : c ∈ h :: xs) :
    ∃ ys, L.Ring c ys ∧ (c :: ys).Perm (h :: xs) := by
  rcases List.mem_cons.mp hc with rfl | hc
  · exact ⟨xs, hr, List.Perm.refl _⟩
  · obtain ⟨l, r, rfl⟩ := List.append_of_mem hc
    refine ⟨r ++ h :: l, hr.rotate_to, ?_⟩
    show ((c :: r) ++ (h :: l)).Perm ((h :: l) ++ (c :: r))
    exact List.perm_append_comm

/-- The node before the first one is the last one. -/
theorem prev_mem (hr : L.Ring h xs) : L.prev h ∈ h :: xs := by
  rcases List.eq_nil_or_concat xs with rfl | ⟨l, c, rfl⟩
  · rw [(hr.next_eq (l := []) (r := []) rfl).2]
    exact List.mem_cons_self
  · rw [List.concat_eq_append] at hr ⊢
    have hlast := hr.next_eq (a := c) (b := h) (l := h :: l) (r := []) (by simp)
    rw [hlast.2]
    simp

theorem next_mem (hr : L.Ring h xs) : L.next h ∈ h :: xs := by
  cases xs with
  | nil =>
    rw [(hr.next_eq (l := []) (r := []) rfl).1]
    exact List.mem_cons_self
  | cons x xs =>
    rw [(hr.next_eq (l := []) (r := xs ++ [h]) rfl).1]
    exact List.mem_cons_of_mem h List.mem_cons_self

/-- The neighbours of a node of the list. -/
theorem neighbours (hr : L.Ring h (xs ++ n :: ys)) :
    (∃ l, h :: xs = l ++ [L.prev n]) ∧ ∃ r, ys ++ [h] = L.next n :: r := by
  obtain ⟨l, p, hl⟩ : ∃ l p, h :: xs = l ++ [p] :=
    ⟨_, _, (List.dropLast_append_getLast (List.cons_ne_nil h xs)).symm⟩
  obtain ⟨q, r, hq⟩ : ∃ q r, ys ++ [h] = q :: r := by
    cases ys with
    | nil => exact ⟨h, [], rfl⟩
    | cons y ys => exact ⟨y, ys ++ [h], rfl⟩
  have hshape : h :: (xs ++ n :: ys ++ [h]) = l ++ p :: n :: q :: r := by
    rw [List.append_assoc, List.cons_append, hq, ← List.cons_append, hl]
    simp
  have hprev := hr.next_eq hshape
  have hnext := hr.next_eq (a := n) (b := q) (l := l ++ [p]) (r := r) (by rw [hshape]; simp)
  exact ⟨⟨l, hprev.2 ▸ hl⟩, ⟨r, hnext.1 ▸ hq⟩⟩

end Ring

end rings

/-! ### Operations -/

variable {α : Type*} [DecidableEq α]

/-- `a` and `b` become neighbours. -/
def link (L : Links α) (a b : α) : Links α where
  next := Function.update L.next a b
  prev := Function.update L.prev b a

/-- A list of its own. -/
def init (L : Links α) (n : α) : Links α := L.link n n

/-- The list of `node2` comes behind `node1`. -/
def merge (L : Links α) (node1 node2 : α) : Links α :=
  (L.link node1 node2).link (L.prev node2) (L.next node1)

/-- A new node comes behind `list`. -/
def insert (L : Links α) (list node : α) : Links α := (L.init node).merge list node

/-- The node leaves its list; the node before it, if it was not alone. -/
def detach (L : Links α) (node : α) : Option α × Links α :=
  (if L.prev node = node then none else some (L.prev node),
    (L.link (L.prev node) (L.next node)).init node)

/-- The nodes that a walk from `v` along `next` comes to, up to `flag`; `none` when the fuel
runs out. -/
def walk (L : Links α) (flag : α) : ℕ → α → Option (List α)
  | 0, _ => none
  | fuel + 1, v => if v = flag then some [v] else (L.walk flag fuel (L.next v)).map (v :: ·)

variable {L : Links α} {a b c h g n : α} {l xs ys zs : List α}

theorem link_linked : (L.link a b).Linked a b := by
  constructor <;> simp [link]

/-- A link between two nodes leaves the other neighbours alone. -/
theorem chain_link (hl : l.IsChain L.Linked) (ha : a ∉ l.dropLast) (hb : b ∉ l.tail) :
    l.IsChain (L.link a b).Linked := by
  induction l with
  | nil => exact .nil
  | cons x l ih =>
    cases l with
    | nil => exact .singleton x
    | cons y l =>
      rw [List.isChain_cons_cons] at hl ⊢
      rw [List.dropLast_cons_of_ne_nil (by simp), List.mem_cons, not_or] at ha
      rw [List.tail_cons, List.mem_cons, not_or] at hb
      refine ⟨?_, ih hl.2 ha.2 (by rw [List.tail_cons]; exact hb.2)⟩
      show Function.update L.next a b x = y ∧ Function.update L.prev b a y = x
      rw [Function.update_of_ne (Ne.symm ha.1), Function.update_of_ne (Ne.symm hb.1)]
      exact hl.1

namespace Ring

/-- A link between nodes of other lists. -/
theorem frame_link (hr : L.Ring h xs) (ha : a ∉ h :: xs) (hb : b ∉ h :: xs) :
    (L.link a b).Ring h xs := by
  refine ⟨hr.nodup, chain_link hr.chain ?_ ?_⟩
  · rw [← List.cons_append, List.dropLast_concat]
    exact ha
  · rw [List.tail_cons]
    intro hmem
    rcases List.mem_append.mp hmem with hmem | hmem
    · exact hb (List.mem_cons_of_mem h hmem)
    · exact hb (by rw [List.mem_singleton.mp hmem]; exact List.mem_cons_self)

theorem frame_init (hr : L.Ring h xs) (hn : n ∉ h :: xs) : (L.init n).Ring h xs :=
  hr.frame_link hn hn

theorem init (n : α) : (L.init n).Ring n [] :=
  ⟨List.nodup_singleton n, List.isChain_cons_cons.mpr ⟨link_linked, .singleton n⟩⟩

/-- The list of `g` goes between `h` and what follows it. -/
theorem merge (hr : L.Ring h xs) (hs : L.Ring g ys) (hdisj : ∀ a ∈ h :: xs, a ∉ g :: ys) :
    (L.merge h g).Ring h (g :: (ys ++ xs)) := by
  -- the last node of the one list and the node behind the head of the other
  obtain ⟨l, c, hl⟩ : ∃ l c, g :: ys = l ++ [c] :=
    ⟨_, _, (List.dropLast_append_getLast (List.cons_ne_nil g ys)).symm⟩
  obtain ⟨d, r, hd⟩ : ∃ d r, xs ++ [h] = d :: r := by
    cases xs with
    | nil => exact ⟨h, [], rfl⟩
    | cons x xs => exact ⟨x, xs ++ [h], rfl⟩
  have hc : L.prev g = c := (hs.next_eq (l := l) (r := []) (by
    rw [← List.cons_append, hl, List.append_assoc]
    rfl)).2
  have hn : L.next h = d := (hr.next_eq (l := []) (r := r) (by rw [hd]; rfl)).1
  have hcmem : c ∈ g :: ys := by rw [hl]; simp
  have hdmem : d ∈ h :: xs := hn ▸ hr.next_mem
  have hnodup_s := hs.nodup
  have hnodup_r : (d :: r).Nodup := by
    rw [← hd]
    exact hr.nodup.perm (List.perm_append_singleton h xs).symm
  have hchain_s : (l ++ [c]).IsChain L.Linked := by
    have hchain := hs.chain
    rw [← List.cons_append, hl] at hchain
    exact (List.isChain_append.mp hchain).1
  have hchain_r : (d :: r).IsChain L.Linked := by
    have hchain := hr.chain
    rw [hd] at hchain
    exact (List.isChain_cons_cons.mp hchain).2
  have hd_drop : ∀ x ∈ (d :: r).dropLast, x ∈ xs := by
    intro x hx
    rwa [← hd, List.dropLast_concat] at hx
  have hd_all : ∀ x ∈ d :: r, x ∈ h :: xs := by
    intro x hx
    rw [← hd] at hx
    exact (List.perm_append_singleton h xs).mem_iff.mp hx
  constructor
  · have hperm : (h :: g :: (ys ++ xs)).Perm ((h :: xs) ++ (g :: ys)) := by
      show (h :: ((g :: ys) ++ xs)).Perm (h :: (xs ++ (g :: ys)))
      exact (List.perm_append_comm).cons h
    exact (List.nodup_append.mpr ⟨hr.nodup, hs.nodup, fun a ha b hb hab =>
      hdisj a ha (hab ▸ hb)⟩).perm hperm.symm
  · have hshape : h :: (g :: (ys ++ xs) ++ [h]) = h :: (l ++ c :: d :: r) := by
      have hleft : g :: (ys ++ xs) ++ [h] = (g :: ys) ++ (xs ++ [h]) := by simp
      rw [hleft, hl, hd]
      simp
    rw [hshape]
    unfold Links.merge
    rw [hc, hn]
    have hfirst : ∃ l', l ++ c :: d :: r = g :: l' := by
      cases l with
      | nil =>
        obtain ⟨rfl, -⟩ := List.cons.inj hl
        exact ⟨_, rfl⟩
      | cons x l =>
        obtain ⟨rfl, -⟩ := List.cons.inj hl
        exact ⟨_, rfl⟩
    have hnodup_l : (l ++ [c]).Nodup := hl ▸ hnodup_s
    have hcl : c ∉ l := fun hm => (List.nodup_append.mp hnodup_l).2.2 c hm c (by simp) rfl
    have htail : (l ++ [c]).tail = ys := by rw [← hl]; rfl
    have hleft : (l ++ [c]).IsChain ((L.link h g).link c d).Linked := by
      refine chain_link (chain_link hchain_s ?_ ?_) ?_ ?_
      · rw [List.dropLast_concat]
        intro hm
        exact hdisj h List.mem_cons_self (by rw [hl]; exact List.mem_append_left _ hm)
      · rw [htail]
        exact (List.nodup_cons.mp hnodup_s).1
      · rw [List.dropLast_concat]
        exact hcl
      · rw [htail]
        intro hm
        exact hdisj d hdmem (List.mem_cons_of_mem g hm)
    have hright : (d :: r).IsChain ((L.link h g).link c d).Linked := by
      refine chain_link (chain_link hchain_r ?_ ?_) ?_ ?_
      · intro hm
        exact (List.nodup_cons.mp hr.nodup).1 (hd_drop h hm)
      · intro hm
        exact hdisj g (hd_all g (List.mem_cons_of_mem d hm)) List.mem_cons_self
      · intro hm
        exact hdisj c (List.mem_cons_of_mem h (hd_drop c hm)) hcmem
      · exact (List.nodup_cons.mp hnodup_r).1
    have hall := chain_join hleft hright link_linked
    obtain ⟨l', hl'⟩ := hfirst
    rw [hl'] at hall ⊢
    refine List.isChain_cons_cons.mpr ⟨?_, hall⟩
    -- the link from `h` to `g` has not been changed by the second one
    have hch : h ≠ c := fun heq => hdisj h List.mem_cons_self (heq ▸ hcmem)
    have hdg : g ≠ d := fun heq => hdisj d hdmem (heq ▸ List.mem_cons_self)
    unfold Linked Links.link
    simp only [Function.update_of_ne hch, Function.update_of_ne hdg, Function.update_self,
      and_self]

theorem frame_merge {xs' : List α} {k : α} (ht : L.Ring k xs') (hr : L.Ring h xs)
    (hs : L.Ring g ys) (hh : ∀ a ∈ h :: xs, a ∉ k :: xs') (hg : ∀ a ∈ g :: ys, a ∉ k :: xs') :
    (L.merge h g).Ring k xs' :=
  (ht.frame_link (hh h List.mem_cons_self) (hg g List.mem_cons_self)).frame_link
    (hg _ hs.prev_mem) (hh _ hr.next_mem)

/-- A new node behind the head. -/
theorem insert (hr : L.Ring h xs) (hn : n ∉ h :: xs) : (L.insert h n).Ring h (n :: xs) := by
  refine (hr.frame_init hn).merge (Ring.init n) fun a ha hmem => hn ?_
  rw [← List.mem_singleton.mp hmem]
  exact ha

theorem frame_insert {xs' : List α} {k : α} (ht : L.Ring k xs') (hr : L.Ring h xs)
    (hn : n ∉ h :: xs) (hn' : n ∉ k :: xs') (hh : ∀ a ∈ h :: xs, a ∉ k :: xs') :
    (L.insert h n).Ring k xs' := by
  refine (ht.frame_init hn').frame_merge (hr.frame_init hn) (Ring.init n) hh fun a ha => ?_
  rw [List.mem_singleton.mp ha]
  exact hn'

/-- A node leaves the list. -/
theorem detach (hr : L.Ring h (xs ++ n :: ys)) : (L.detach n).2.Ring h (xs ++ ys) := by
  obtain ⟨⟨l, hl⟩, ⟨r, hnext⟩⟩ := hr.neighbours
  have hperm : (h :: (xs ++ n :: ys)).Perm (n :: (h :: (xs ++ ys))) :=
    ((List.perm_middle).cons h).trans (List.Perm.swap n h _)
  obtain ⟨hn, hnodup⟩ := List.nodup_cons.mp (hr.nodup.perm hperm)
  refine Ring.frame_init ⟨hnodup, ?_⟩ hn
  obtain ⟨hleft, hright, hcross⟩ := List.nodup_append.mp
    (show ((h :: xs) ++ ys).Nodup from hnodup)
  have hchain := hr.chain
  rw [List.append_assoc, List.cons_append, hnext, ← List.cons_append, hl] at hchain
  have hp : L.prev n ∈ h :: xs := by rw [hl]; simp
  have hlp : L.prev n ∉ l := fun hm =>
    (List.nodup_append.mp (hl ▸ hleft)).2.2 _ hm _ List.mem_cons_self rfl
  have hqnot : L.next n ∉ xs := by
    have hq : L.next n ∈ ys ++ [h] := by rw [hnext]; exact List.mem_cons_self
    intro hm
    rcases List.mem_append.mp hq with hq | hq
    · exact hcross _ (List.mem_cons_of_mem h hm) _ hq rfl
    · rw [List.mem_singleton.mp hq] at hm
      exact (List.nodup_cons.mp hleft).1 hm
  have hys : (ys ++ [h]).Nodup := by
    refine List.nodup_append.mpr ⟨hright, List.nodup_singleton h, fun a ha b hb hab => ?_⟩
    rw [List.mem_singleton.mp hb] at hab
    exact hcross h List.mem_cons_self a ha hab.symm
  have hfirst : (l ++ [L.prev n]).IsChain (L.link (L.prev n) (L.next n)).Linked := by
    refine chain_link (List.isChain_append.mp hchain).1 ?_ ?_
    · rw [List.dropLast_concat]
      exact hlp
    · rw [← hl]
      exact hqnot
  have hsecond : (L.next n :: r).IsChain (L.link (L.prev n) (L.next n)).Linked := by
    have hrest : (L.next n :: r).IsChain L.Linked := by
      rw [List.append_assoc] at hchain
      exact (List.isChain_cons_cons.mp (List.isChain_append_cons_cons.mp hchain).2.2).2
    refine chain_link hrest ?_ ?_
    · rw [← hnext, List.dropLast_concat]
      exact fun hm => hcross _ hp _ hm rfl
    · rw [List.tail_cons]
      rw [hnext] at hys
      exact (List.nodup_cons.mp hys).1
  have hall := chain_join hfirst hsecond link_linked
  rw [← hnext] at hall
  have hshape : h :: (xs ++ ys ++ [h]) = l ++ L.prev n :: (ys ++ [h]) := by
    rw [List.append_assoc, ← List.cons_append, hl]
    simp
  rw [hshape]
  exact hall

/-- The node is alone then. -/
theorem detach_self (L : Links α) (n : α) : (L.detach n).2.Ring n [] := Ring.init n

theorem frame_detach {xs' : List α} {k : α} (ht : L.Ring k xs') (hr : L.Ring h (xs ++ n :: ys))
    (hh : ∀ a ∈ h :: (xs ++ n :: ys), a ∉ k :: xs') : (L.detach n).2.Ring k xs' := by
  obtain ⟨⟨l, hl⟩, ⟨r, hnext⟩⟩ := hr.neighbours
  have hprev : L.prev n ∈ h :: (xs ++ n :: ys) := by
    rw [← List.cons_append, hl]
    simp
  have hnext' : L.next n ∈ h :: (xs ++ n :: ys) := by
    have hmem : L.next n ∈ ys ++ [h] := by rw [hnext]; exact List.mem_cons_self
    rcases List.mem_append.mp hmem with hmem | hmem
    · exact List.mem_cons_of_mem h (List.mem_append_right xs (List.mem_cons_of_mem n hmem))
    · rw [List.mem_singleton.mp hmem]
      exact List.mem_cons_self
  exact (ht.frame_link (hh _ hprev) (hh _ hnext')).frame_init (hh n (by simp))

/-- The head leaves its list: what is left is headed by the node that was the last one. -/
theorem detach_head (hr : L.Ring h (xs ++ [c])) :
    (L.detach h).1 = some c ∧ (L.detach h).2.Ring c xs := by
  have hrot := hr.rotate
  have hsplit : L.Ring c ([] ++ h :: xs) := hrot
  refine ⟨?_, hsplit.detach⟩
  have hprev := (hrot.next_eq (l := []) rfl).2
  have hne : c ≠ h := by
    have hnodup := hrot.nodup
    rw [List.nodup_cons, List.mem_cons, not_or] at hnodup
    exact hnodup.1.1
  show (if L.prev h = h then none else some (L.prev h)) = some c
  rw [hprev, if_neg hne]

/-- A walk comes to all nodes, and to the head last. -/
theorem walk {m : ℕ} (hr : L.Ring h xs) (hm : xs.length < m) :
    L.walk h m (L.next h) = some (xs ++ [h]) := by
  -- from any point of the list the walk comes to what follows it
  have hfrom : ∀ (ys : List α) (a : α) (fuel : ℕ), (a :: (ys ++ [h])).IsChain L.Linked → h ∉ ys →
      ys.length < fuel → L.walk h fuel (L.next a) = some (ys ++ [h]) := by
    intro ys
    induction ys with
    | nil =>
      intro a fuel hchain _ hlt
      obtain ⟨n, rfl⟩ : ∃ n, fuel = n + 1 := ⟨fuel - 1, by simp at hlt; omega⟩
      rw [(List.isChain_cons_cons.mp hchain).1.1, Links.walk, if_pos rfl]
      rfl
    | cons y ys ih =>
      intro a fuel hchain hne hlt
      obtain ⟨hay, hrest⟩ := List.isChain_cons_cons.mp hchain
      obtain ⟨hhy, hys⟩ := not_or.mp (mt List.mem_cons.mpr hne)
      obtain ⟨n, rfl⟩ : ∃ n, fuel = n + 1 := ⟨fuel - 1, by simp at hlt; omega⟩
      rw [hay.1, Links.walk, if_neg (Ne.symm hhy), ih y n hrest hys (by simp at hlt; omega)]
      rfl
  exact hfrom xs h m hr.chain (List.nodup_cons.mp hr.nodup).1 hm

/-- What is read from a node on. -/
theorem unique (hr : L.Ring h xs) (hs : L.Ring h ys) : xs = ys := by
  have hwalk := hr.walk (m := xs.length + ys.length + 1) (by omega)
  rw [hs.walk (by omega), Option.some_inj] at hwalk
  exact (List.append_cancel_right hwalk).symm

theorem mem_comm (hr : L.Ring a xs) (hs : L.Ring b ys) (ha : a ∈ b :: ys) : b ∈ a :: xs := by
  obtain ⟨zs, hz, hperm⟩ := hs.of_mem ha
  rw [hr.unique hz]
  exact hperm.mem_iff.mpr List.mem_cons_self

/-- Two rings are the same or have no common node. -/
theorem disjoint (hr : L.Ring a xs) (hs : L.Ring b ys) (hb : b ∉ a :: xs) (hc : c ∈ a :: xs) :
    c ∉ b :: ys := by
  intro hc'
  obtain ⟨zs, hz, hperm⟩ := hs.of_mem hc'
  exact hb (hr.mem_comm hs (hperm.mem_iff.mp (hz.mem_comm hr hc)))

/-- The rings without the node stay. -/
theorem frame_detach_self {k : α} (ht : L.Ring k zs) (hr : L.Ring n xs) (hn : n ∉ k :: zs) :
    (L.detach n).2.Ring k zs := by
  have hout : ∀ a ∈ n :: xs, a ∉ k :: zs := fun a ha hk =>
    ht.disjoint hr hn hk ha
  exact (ht.frame_link (hout _ hr.prev_mem) (hout _ hr.next_mem)).frame_init hn

end Ring

/-- The nodes of `N` lie in rings of such nodes. -/
def Rings (L : Links α) (N : Set α) : Prop := ∀ n ∈ N, ∃ xs, L.Ring n xs ∧ ∀ x ∈ xs, x ∈ N

namespace Rings

variable {N : Set α}

theorem mem (hN : L.Rings N) (hn : n ∈ N) (hr : L.Ring n xs) (hc : c ∈ n :: xs) : c ∈ N := by
  obtain ⟨ys, hs, hys⟩ := hN n hn
  rw [hr.unique hs] at hc
  rcases List.mem_cons.mp hc with rfl | hc
  · exact hn
  · exact hys c hc

theorem merge (hN : L.Rings N) (ha : a ∈ N) (hb : b ∈ N) (hr : L.Ring a xs) (hs : L.Ring b ys)
    (hne : b ∉ a :: xs) : (L.merge a b).Rings N := by
  have hdisj : ∀ c ∈ a :: xs, c ∉ b :: ys := fun c hc => hr.disjoint hs hne hc
  have hmerged := hr.merge hs hdisj
  have hsub : ∀ c ∈ a :: b :: (ys ++ xs), c ∈ N := by
    intro c hc
    have hc' : c ∈ a :: xs ∨ c ∈ b :: ys := by
      simp only [List.mem_cons, List.mem_append] at hc ⊢
      tauto
    exact hc'.elim (hN.mem ha hr) (hN.mem hb hs)
  intro n hn
  by_cases hin : n ∈ a :: b :: (ys ++ xs)
  · obtain ⟨zs, hz, hperm⟩ := hmerged.of_mem hin
    exact ⟨zs, hz, fun x hx => hsub x (hperm.mem_iff.mp (List.mem_cons_of_mem n hx))⟩
  · -- the ring of `n` is another one
    obtain ⟨zs, hz, hzs⟩ := hN n hn
    have hout : n ∉ a :: xs ∧ n ∉ b :: ys := by
      simp only [List.mem_cons, List.mem_append, not_or] at hin ⊢
      tauto
    exact ⟨zs, hz.frame_merge hr hs (fun c hc => hr.disjoint hz hout.1 hc)
      (fun c hc => hs.disjoint hz hout.2 hc), hzs⟩

theorem detach (hN : L.Rings N) (hn : n ∈ N) : (L.detach n).2.Rings N := by
  intro m hm
  rcases eq_or_ne m n with rfl | hne
  · exact ⟨[], Ring.detach_self L m, nofun⟩
  · obtain ⟨zs, hz, hzs⟩ := hN m hm
    by_cases hin : n ∈ zs
    · obtain ⟨l, r, rfl⟩ := List.append_of_mem hin
      refine ⟨l ++ r, hz.detach, fun x hx => hzs x ?_⟩
      simp only [List.mem_append, List.mem_cons] at hx ⊢
      tauto
    · obtain ⟨xs, hr, -⟩ := hN n hn
      exact ⟨zs, hz.frame_detach_self hr (by simpa using ⟨hne.symm, hin⟩), hzs⟩

end Rings

end Links

end OsLab
