/-
The `Queue` of `common/list.c`: a ring of nodes without a head, and pointers to its first and
its last node.

* `QueueState.Holds` — the queue holds the nodes of a list;
* `Holds.push`, `Holds.pop` — the operations on it;
* `queue_fifo` — so it is a first-in first-out list in all runs.
-/
import OsLab.Common.List
import Mathlib.Algebra.Order.Ring.Nat
import Mathlib.Data.Fintype.Card
import Mathlib.Data.Int.Notation

namespace OsLab

/-- `PHYSTOP / sizeof(ListNode)`: no more nodes lie in memory at a time. -/
abbrev maxListNodes : ℕ := 0x3f000000 / 16

/-- A `Queue`, but for its lock, and the links of all nodes. -/
structure QueueState (α : Type*) where
  begin : Option α
  end_ : Option α
  sz : BitVec 32
  links : Links α

inductive QueueOp (α : Type*)
  /-- `queue_push(x, item)` -/
  | push (item : α)
  /-- `queue_pop(x)` -/
  | pop
  deriving DecidableEq, Repr

variable {α : Type*}

namespace QueueState

/-- `queue_init` -/
def init (L : Links α) : QueueState α := ⟨none, none, 0, L⟩

/-- `queue_push` -/
def push [DecidableEq α] (x : QueueState α) (item : α) : QueueState α :=
  let links := initListNode x.links item
  if x.sz = 0 then ⟨some item, some item, x.sz + 1, links⟩
  else ⟨x.begin, some item, x.sz + 1, (mergeList links x.end_ (some item)).2⟩

/-- `queue_pop`; `none` when it comes to `PANIC()`, or follows a null pointer. -/
def pop [DecidableEq α] (x : QueueState α) : Option (QueueState α) :=
  if x.sz = 0 then none
  else if x.sz = 1 then some ⟨none, none, x.sz - 1, x.links⟩
  else x.begin.map fun t =>
    ⟨some (x.links.next t), x.end_, x.sz - 1, (detachFromList x.links t).2⟩

/-- `queue_front`; `none` when it comes to `PANIC()`. -/
def front (x : QueueState α) : Option α := x.begin

/-- `queue_empty` -/
def empty (x : QueueState α) : Bool := x.sz = 0

def step [DecidableEq α] (x : QueueState α) : QueueOp α → Option (QueueState α)
  | .push item => some (x.push item)
  | .pop => x.pop

/-- The queue holds the nodes of `l`. -/
structure Holds (x : QueueState α) (l : List α) : Prop where
  begin_eq : x.begin = l.head?
  end_eq : x.end_ = l.getLast?
  sz_eq : x.sz = BitVec.ofNat 32 l.length
  ring : ∀ h xs, l = h :: xs → x.links.Ring h xs

end QueueState

/-- What a queue is for: a node that is not in it comes in at the end, and one leaves at the
front. -/
def fifoStep [DecidableEq α] (l : List α) : QueueOp α → Option (List α)
  | .push item => if item ∈ l then none else some (l ++ [item])
  | .pop => match l with
    | [] => none
    | _ :: l => some l

variable {x y : QueueState α} {l l' : List α} {item h : α}

namespace QueueState

theorem init_holds (L : Links α) : (init L).Holds [] := ⟨rfl, rfl, rfl, nofun⟩

namespace Holds

theorem nodup (hx : x.Holds l) : l.Nodup := by
  cases l with
  | nil => exact List.nodup_nil
  | cons h xs => exact (hx.ring h xs rfl).nodup

/-- The counter does not wrap. -/
theorem sz_eq_iff (hx : x.Holds l) (hl : l.length ≤ maxListNodes) {n : ℕ} (hn : n < 2 ^ 32) :
    x.sz = BitVec.ofNat 32 n ↔ l.length = n := by
  have hlt : l.length < 2 ^ 32 := lt_of_le_of_lt hl (by decide)
  rw [hx.sz_eq]
  constructor
  · intro h
    have hval := congrArg BitVec.toNat h
    rwa [BitVec.toNat_ofNat, BitVec.toNat_ofNat, Nat.mod_eq_of_lt hlt, Nat.mod_eq_of_lt hn] at hval
  · exact congrArg (BitVec.ofNat 32)

theorem sz_eq_zero (hx : x.Holds l) (hl : l.length ≤ maxListNodes) : x.sz = 0 ↔ l = [] :=
  (hx.sz_eq_iff hl (n := 0) (by decide)).trans List.length_eq_zero_iff

theorem sz_eq_one (hx : x.Holds l) (hl : l.length ≤ maxListNodes) : x.sz = 1 ↔ l.length = 1 :=
  hx.sz_eq_iff hl (n := 1) (by decide)

variable [DecidableEq α]

/-- A node comes in behind the last one. -/
theorem push (hx : x.Holds l) (hl : l.length ≤ maxListNodes) (hitem : item ∉ l) :
    (x.push item).Holds (l ++ [item]) := by
  have hsz : x.sz + 1 = BitVec.ofNat 32 (l ++ [item]).length := by
    rw [hx.sz_eq, List.length_append, List.length_singleton, BitVec.ofNat_add]
    rfl
  unfold QueueState.push
  rcases List.eq_nil_or_concat l with rfl | ⟨xs, e, rfl⟩
  · -- the node is alone, whatever its links were
    rw [if_pos ((hx.sz_eq_zero hl).mpr rfl)]
    refine ⟨rfl, rfl, hsz, fun h ys heq => ?_⟩
    obtain ⟨rfl, rfl⟩ := List.cons.inj heq
    show (x.links.init item).Ring item []
    exact Links.Ring.init item
  · rw [List.concat_eq_append] at hx hl hitem hsz ⊢
    rw [if_neg (mt (hx.sz_eq_zero hl).mp (by simp)), hx.end_eq, List.getLast?_concat]
    refine ⟨?_, List.getLast?_concat.symm, hsz, fun h ys heq => ?_⟩
    · show x.begin = _
      rw [hx.begin_eq]
      cases xs <;> rfl
    · show (((x.links).init item).merge e item).Ring h ys
      -- the ring is read from its last node on when the new one comes behind it
      cases xs with
      | nil =>
        obtain ⟨rfl, rfl⟩ := List.cons.inj heq
        exact (hx.ring _ [] rfl).insert hitem
      | cons b zs =>
        obtain ⟨rfl, rfl⟩ := List.cons.inj heq
        have hread : x.links.Ring e (b :: zs) := (hx.ring b (zs ++ [e]) rfl).rotate
        have hout : item ∉ e :: (b :: zs) := by
          simp only [List.mem_append, List.mem_cons, not_or] at hitem ⊢
          tauto
        have hnew : ((x.links).insert e item).Ring e ([item] ++ b :: zs) := hread.insert hout
        show (((x.links).init item).merge e item).Ring b (zs ++ [e] ++ [item])
        rw [List.append_assoc]
        exact hnew.rotate_to

/-- The first node leaves. -/
theorem pop (hx : x.Holds (h :: l)) (hl : (h :: l).length ≤ maxListNodes) :
    ∃ y, x.pop = some y ∧ y.Holds l := by
  have hsz : x.sz - 1 = BitVec.ofNat 32 l.length := by
    rw [hx.sz_eq, List.length_cons, BitVec.ofNat_add]
    exact BitVec.add_sub_cancel _ _
  have hring := hx.ring h l rfl
  unfold QueueState.pop
  rw [if_neg (mt (hx.sz_eq_zero hl).mp (List.cons_ne_nil h l))]
  cases l with
  | nil =>
    rw [if_pos ((hx.sz_eq_one hl).mpr rfl)]
    exact ⟨_, rfl, rfl, rfl, hsz, nofun⟩
  | cons b zs =>
    rw [if_neg (mt (hx.sz_eq_one hl).mp (by simp)), hx.begin_eq]
    refine ⟨_, rfl, ?_, ?_, hsz, fun c ys heq => ?_⟩
    · have hnext : x.links.next h = b := (hring.next_eq (l := []) (r := zs ++ [h]) rfl).1
      exact congrArg some hnext
    · show x.end_ = _
      rw [hx.end_eq]
      exact List.getLast?_cons_cons
    · -- `_detach_from_list` takes the node out as the last one of the ring read from its next
      obtain ⟨rfl, rfl⟩ := List.cons.inj heq
      have hfront : x.links.Ring h ([] ++ b :: zs) := hring
      have hread : x.links.Ring b (zs ++ h :: []) := hfront.rotate_to
      have hleft := hread.detach
      rw [List.append_nil] at hleft
      show (detachFromList x.links h).2.Ring b zs
      rwa [detachFromList_eq]

/-- What the list can do, the queue does. -/
theorem step (hmem : ∀ l : List α, l.Nodup → l.length ≤ maxListNodes) (hx : x.Holds l)
    {op : QueueOp α} (hop : fifoStep l op = some l') : ∃ y, x.step op = some y ∧ y.Holds l' := by
  have hl := hmem l hx.nodup
  cases op with
  | push item =>
    have hitem : item ∉ l := by
      intro hmem
      rw [fifoStep, if_pos hmem] at hop
      cases hop
    rw [fifoStep, if_neg hitem] at hop
    obtain rfl := Option.some.inj hop
    exact ⟨_, rfl, hx.push hl hitem⟩
  | pop =>
    cases l with
    | nil => simp [fifoStep] at hop
    | cons h l =>
      obtain rfl := Option.some.inj hop
      exact hx.pop hl

theorem run (hmem : ∀ l : List α, l.Nodup → l.length ≤ maxListNodes) (ops : List (QueueOp α)) :
    ∀ (x : QueueState α) (l l' : List α), x.Holds l → ops.foldlM fifoStep l = some l' →
      ∃ y, ops.foldlM QueueState.step x = some y ∧ y.Holds l' := by
  induction ops with
  | nil =>
    intro x l l' hx hops
    cases hops
    exact ⟨x, rfl, hx⟩
  | cons op ops ih =>
    intro x l l' hx hops
    obtain ⟨l₁, hop, hrest⟩ := Option.bind_eq_some_iff.mp hops
    obtain ⟨x₁, hstep, hx₁⟩ := hx.step hmem hop
    obtain ⟨y, hrun, hy⟩ := ih x₁ l₁ l' hx₁ hrest
    refine ⟨y, ?_, hy⟩
    rw [List.foldlM_cons, hstep]
    exact hrun

end Holds

end QueueState

/-- **`Queue` is a first-in first-out list.**  After any pushes of nodes that are not in it and
pops while it is not empty, its front is the oldest node, its size is the number of nodes, and
the nodes make one ring in the order in which they came, from `begin` to `end`. -/
theorem queue_fifo [DecidableEq α] (hmem : ∀ l : List α, l.Nodup → l.length ≤ maxListNodes) (L : Links α)
    (ops : List (QueueOp α)) (l : List α) (hops : ops.foldlM fifoStep [] = some l) :
    ∃ x, ops.foldlM QueueState.step (.init L) = some x ∧
      x.front = l.head? ∧ (x.empty ↔ l = []) ∧ x.sz.toInt = l.length ∧
      x.begin = l.head? ∧ x.end_ = l.getLast? ∧ ∀ h xs, l = h :: xs → x.links.Ring h xs := by
  obtain ⟨x, hrun, hx⟩ := QueueState.Holds.run hmem ops _ _ _ (QueueState.init_holds L) hops
  have hl := hmem l hx.nodup
  refine ⟨x, hrun, hx.begin_eq, ?_, ?_, hx.begin_eq, hx.end_eq, hx.ring⟩
  · rw [QueueState.empty, decide_eq_true_eq]
    exact hx.sz_eq_zero hl
  · have hlt : l.length < 2 ^ 31 := lt_of_le_of_lt hl (by decide)
    rw [hx.sz_eq, BitVec.toInt_ofNat', Int.bmod_eq_of_le (by omega) (by omega)]

/-- Three nodes come in, and the first one leaves. -/
theorem queue_fifo_three : ∃ x : QueueState (Fin 3),
    [.push 2, .push 0, .push 1, .pop].foldlM QueueState.step (.init ⟨id, id⟩) = some x ∧
      x.front = some 0 ∧ x.sz.toInt = 2 ∧ x.links.Ring 0 [1] := by
  have hmem : ∀ l : List (Fin 3), l.Nodup → l.length ≤ maxListNodes := by
    intro l hl
    have hcard := hl.length_le_card
    rw [Fintype.card_fin] at hcard
    exact hcard.trans (by decide)
  obtain ⟨x, hrun, hfront, -, hsz, -, -, hring⟩ := queue_fifo hmem ⟨id, id⟩
    [.push 2, .push 0, .push 1, .pop] [0, 1] (by decide)
  exact ⟨x, hrun, hfront, hsz, hring 0 [1] rfl⟩

end OsLab
