/-
The queue of `QueueNode`s that is used without a lock (`common/list.c`).

Any number of threads run the three functions; a turn is one access to the head or to the
`next` of a node.  A thread owns the nodes that it has fetched and not added since.

* `LockFree.Custody` — every node is in the queue once, or owned by one thread;
* `LockFree.Unchanged` — a swap of `fetch_from_queue` succeeds only if `next` of the node is
  what has been read;
* `lockFree_custody_iff` — in the runs with such swaps there is custody, and a swap that is not
  such a one ends it;
* `lockFree_refetched` — a node has been fetched and added again in the meantime.
-/
import OsLab.Lib.Chain
import OsLab.Lib.System
import Mathlib.Algebra.Order.Ring.Nat
import Mathlib.Data.Set.Insert

namespace OsLab

/-- Where a thread is in the functions. -/
inductive QueuePoint (A : Type*)
  | out
  /-- `add_to_queue(head, node)`, before `*head` is read -/
  | addHead (node : A)
  /-- before what has been read is stored in `node->next` -/
  | addNext (node old : A)
  /-- before `node->next` is read as what the swap expects -/
  | addExpected (node : A)
  /-- before the swap -/
  | addSwap (node expected : A)
  /-- the swap has failed and has seen another head, which is stored in `node->next` -/
  | addFailed (node seen : A)
  /-- `fetch_from_queue(head)`, before `*head` is read -/
  | fetchHead
  /-- before `node->next` is read -/
  | fetchNext (node : A)
  /-- before the swap -/
  | fetchSwap (node next : A)
  /-- `fetch_all_from_queue(head)`, before the exchange -/
  | fetchAll

/-- The queue, and the threads `T`; 0 is `NULL`. -/
structure LockFree (A T : Type*) where
  head : A
  next : A → A
  point : T → QueuePoint A
  owned : T → Set A

inductive QueueTurn (A T : Type*)
  /-- the thread calls `add_to_queue` -/
  | add (t : T) (node : A)
  /-- the thread calls `fetch_from_queue` -/
  | fetch (t : T)
  /-- the thread calls `fetch_all_from_queue` -/
  | fetchAll (t : T)
  /-- the next access of the thread; `weak` is a swap that fails although it need not -/
  | turn (t : T) (weak : Bool)

/-- The node that is added from now on. -/
def QueueTurn.added {A T : Type*} : QueueTurn A T → Option A
  | .add _ node => some node
  | _ => none

namespace LockFree

variable {A T : Type*} [DecidableEq T]

def goto (s : LockFree A T) (t : T) (pc : QueuePoint A) : LockFree A T :=
  { s with point := Function.update s.point t pc }

/-- The nodes are those of the thread from now on. -/
def give (s : LockFree A T) (t : T) (ps : Set A) : LockFree A T :=
  { s with owned := Function.update s.owned t (s.owned t ∪ ps) }

/-- The node is not that of the thread any more. -/
def release (s : LockFree A T) (t : T) (node : A) : LockFree A T :=
  { s with owned := Function.update s.owned t (s.owned t \ {node}) }

section owned

variable {s : LockFree A T} {t u : T} {node p : A} {ps : Set A}

theorem mem_give : p ∈ (s.give t ps).owned u ↔ p ∈ s.owned u ∨ u = t ∧ p ∈ ps := by
  rcases eq_or_ne u t with rfl | hut
  · simp [give]
  · simp [give, hut]

theorem mem_release : p ∈ (s.release t node).owned u ↔ p ∈ s.owned u ∧ ¬(u = t ∧ p = node) := by
  rcases eq_or_ne u t with rfl | hut
  · simp [release]
  · simp [release, hut]

end owned

variable [DecidableEq A] [Zero A]

/-- The next access of a thread that is at `pc`. -/
def access (s : LockFree A T) (t : T) (weak : Bool) : QueuePoint A → Option (LockFree A T)
  | .out => none
  | .addHead node => some (s.goto t (.addNext node s.head))
  | .addNext node old =>
    some ({ s with next := Function.update s.next node old }.goto t (.addExpected node))
  | .addExpected node => some (s.goto t (.addSwap node (s.next node)))
  | .addSwap node expected =>
    if s.head = expected ∧ weak = false then
      some (({ s with head := node }.release t node).goto t .out)
    else some (s.goto t (.addFailed node s.head))
  | .addFailed node seen =>
    some ({ s with next := Function.update s.next node seen }.goto t (.addHead node))
  | .fetchHead => some (s.goto t (if s.head = 0 then .out else .fetchNext s.head))
  | .fetchNext node => some (s.goto t (.fetchSwap node (s.next node)))
  | .fetchSwap node next =>
    if s.head = node ∧ weak = false then
      some (({ s with head := next }.give t {node}).goto t .out)
    else some (s.goto t .fetchHead)
  | .fetchAll => some (({ s with head := 0 }.give t {p | OnChain s.next s.head p}).goto t .out)

def call (s : LockFree A T) (t : T) (pc : QueuePoint A) : Option (LockFree A T) :=
  match s.point t with
  | .out => some (s.goto t pc)
  | _ => none

def step (s : LockFree A T) : QueueTurn A T → Option (LockFree A T)
  | .add t node => s.call t (.addHead node)
  | .fetch t => s.call t .fetchHead
  | .fetchAll t => s.call t .fetchAll
  | .turn t weak => s.access t weak (s.point t)

omit [DecidableEq T] [DecidableEq A] in
/-- Every node is in the queue once, and owned by no thread, or it is not in the queue, and owned
by one thread. -/
def Custody (s : LockFree A T) : Prop :=
  ∃ xs, Chain s.next s.head xs ∧ xs.Nodup ∧ (∀ p ∈ xs, ∀ t, p ∉ s.owned t) ∧
    ∀ p, p ≠ 0 → p ∉ xs → ∃! t, p ∈ s.owned t

/-- A thread adds only a node that it owns. -/
def AddsOwned (s : LockFree A T) : QueueTurn A T → Prop
  | .add t node => node ∈ s.owned t
  | _ => True

/-- When the swap of `fetch_from_queue` succeeds, `next` of the node is still what it was when it
was read. -/
def Unchanged (s : LockFree A T) : QueueTurn A T → Prop
  | .turn t weak =>
    match s.point t with
    | .fetchSwap node next => s.head = node → weak = false → s.next node = next
    | _ => True
  | _ => True

end LockFree

/-- Calls of the functions, and the accesses in them, in any order. -/
def lockFreeSystem (A T : Type*) [DecidableEq A] [DecidableEq T] [Zero A] :
    System (LockFree A T) (QueueTurn A T) where
  init s := (∀ t, s.point t = .out) ∧ (∀ t, 0 ∉ s.owned t) ∧ s.Custody
  step := LockFree.step

namespace LockFree

variable {A T : Type*} [Zero A] {s s' : LockFree A T} {t u : T} {node v p : A} {ps : Set A}
  {c : QueuePoint A}

/-- What a thread knows of its nodes. -/
def Knows (s : LockFree A T) (t : T) : QueuePoint A → Prop
  | .addHead node | .addNext node _ | .addExpected node | .addFailed node _ => node ∈ s.owned t
  | .addSwap node expected => node ∈ s.owned t ∧ s.next node = expected
  | .fetchNext node | .fetchSwap node _ => node ≠ 0
  | .out | .fetchHead | .fetchAll => True

structure Inv (s : LockFree A T) : Prop where
  custody : s.Custody
  notNull : ∀ t, 0 ∉ s.owned t
  knows : ∀ t, s.Knows t (s.point t)

/-- What a thread knows stays true when others write. -/
theorem Knows.mono (h : s.Knows t c) (howned : s.owned t ⊆ s'.owned t)
    (hnext : ∀ p ∈ s.owned t, s'.next p = s.next p) : s'.Knows t c := by
  cases c with
  | addHead node | addNext node old | addExpected node | addFailed node seen => exact howned h
  | addSwap node expected => exact ⟨howned h.1, (hnext node h.1).trans h.2⟩
  | fetchNext node | fetchSwap node next => exact h
  | out | fetchHead | fetchAll => trivial

namespace Inv

/-- A node has one owner. -/
theorem owner_unique (h : s.Inv) (ht : node ∈ s.owned t) (hu : node ∈ s.owned u) :
    u = t := by
  obtain ⟨xs, -, -, hqueued, howned⟩ := h.custody
  have hnode : node ∉ xs := fun hmem => hqueued node hmem t ht
  have hne : node ≠ 0 := by
    rintro rfl
    exact h.notNull t ht
  exact (howned node hne hnode).unique hu ht

end Inv

variable [DecidableEq T]

namespace Inv

/-- A thread goes on, and the others do not notice. -/
theorem turn (h : s.Inv) (hcustody : s'.Custody) (hnotNull : ∀ u, 0 ∉ s'.owned u)
    (hpoint : s'.point = Function.update s.point t c) (hpc : s'.Knows t c)
    (howned : ∀ u, u ≠ t → s'.owned u = s.owned u)
    (hnext : ∀ u, u ≠ t → ∀ p ∈ s.owned u, s'.next p = s.next p) : s'.Inv := by
  refine ⟨hcustody, hnotNull, fun u => ?_⟩
  rcases eq_or_ne u t with rfl | hut
  · rw [hpoint, Function.update_self]
    exact hpc
  · rw [hpoint, Function.update_of_ne hut]
    exact (h.knows u).mono (howned u hut).superset (hnext u hut)

theorem goto (h : s.Inv) (hpc : s.Knows t c) : (s.goto t c).Inv :=
  h.turn (t := t) h.custody h.notNull rfl hpc (fun _ _ => rfl) (fun _ _ _ _ => rfl)

/-- A call begins. -/
theorem call (h : s.Inv) (hpc : s.Knows t c) (hs : s.call t c = some s') : s'.Inv := by
  simp only [LockFree.call] at hs
  split at hs
  · obtain rfl := Option.some.inj hs
    exact h.goto hpc
  · cases hs

/-- A node is added. -/
theorem added (h : s.Inv) (hnode : node ∈ s.owned t) (hnext : s.next node = s.head) :
    (({ s with head := node }.release t node).goto t .out).Inv := by
  obtain ⟨xs, hchain, hnodup, hqueued, howned⟩ := h.custody
  have hmem : node ∉ xs := fun hmem => hqueued node hmem t hnode
  have hne : node ≠ 0 := by
    rintro rfl
    exact h.notNull t hnode
  refine h.turn (t := t) (c := .out) ⟨node :: xs, ⟨rfl, hne, ?_⟩, ?_, ?_, ?_⟩ ?_ rfl trivial ?_
    (fun _ _ _ _ => rfl)
  · change Chain s.next (s.next node) xs
    rw [hnext]
    exact hchain
  · exact List.nodup_cons.mpr ⟨hmem, hnodup⟩
  · -- the node has lost its only owner
    intro p hp u hu
    obtain ⟨hu, hother⟩ := mem_release.mp hu
    rcases List.mem_cons.mp hp with rfl | hp
    · exact hother ⟨h.owner_unique hnode hu, rfl⟩
    · exact hqueued p hp u hu
  · intro p hp hpx
    obtain ⟨hpn, hpx⟩ := not_or.mp (mt List.mem_cons.mpr hpx)
    obtain ⟨u, hu, honly⟩ := howned p hp hpx
    refine ⟨u, mem_release.mpr ⟨hu, fun hboth => hpn hboth.2⟩, fun w hw => ?_⟩
    exact honly w (mem_release.mp hw).1
  · exact fun u hu => h.notNull u (mem_release.mp hu).1
  · exact fun u hut => Function.update_of_ne hut ..

/-- The nodes of the queue but for those that are left are given to a thread. -/
theorem given {head : A} {ys zs : List A} (h : s.Inv) (hchain : Chain s.next s.head (ys ++ zs))
    (hrest : Chain s.next head zs) :
    (({ s with head := head }.give t {p | p ∈ ys}).goto t .out).Inv := by
  obtain ⟨xs, hxs, hnodup, hqueued, howned⟩ := h.custody
  obtain rfl := hxs.unique hchain
  refine h.turn (t := t) (c := .out) ⟨zs, hrest, hnodup.of_append_right, ?_, ?_⟩ ?_ rfl trivial ?_
    (fun _ _ _ _ => rfl)
  · intro p hp u hu
    rcases mem_give.mp hu with hu | ⟨-, hpy⟩
    · exact hqueued p (List.mem_append_right ys hp) u hu
    · exact List.disjoint_of_nodup_append hnodup hpy hp
  · intro p hp hpz
    by_cases hpy : p ∈ ys
    · -- it was in the queue
      refine ⟨t, mem_give.mpr (Or.inr ⟨rfl, hpy⟩), fun w hw => ?_⟩
      rcases mem_give.mp hw with hw | ⟨rfl, -⟩
      · exact absurd hw (hqueued p (List.mem_append_left zs hpy) w)
      · rfl
    · obtain ⟨u, hu, honly⟩ := howned p hp (by simp [hpy, hpz])
      refine ⟨u, mem_give.mpr (Or.inl hu), fun w hw => ?_⟩
      rcases mem_give.mp hw with hw | ⟨-, hw⟩
      · exact honly w hw
      · exact absurd hw hpy
  · intro u hu
    rcases mem_give.mp hu with hu | ⟨-, hu⟩
    · exact h.notNull u hu
    · exact (hchain.ne_zero (List.mem_append_left zs hu)) rfl
  · exact fun u hut => Function.update_of_ne hut ..

/-- A node is fetched that has changed: the node behind it gets lost, or the one that has been
there is in the queue although it has an owner. -/
theorem changed (h : s.Inv) (hne : s.head ≠ 0) (hnext : s.next s.head ≠ v) :
    ¬(({ s with head := v }.give t {s.head}).goto t .out).Custody := by
  rintro ⟨ys, hys, -, hqueued', howned'⟩
  obtain ⟨xs, hchain, hnodup, hqueued, howned⟩ := h.custody
  obtain ⟨l, rfl, hrest⟩ := hchain.pop hne
  -- the nodes of the new queue are nodes of the old one behind its first
  have hold : ∀ p ∈ ys, p ∈ l := by
    intro p hp
    have hpn : p ≠ s.head := by
      rintro rfl
      exact hqueued' s.head hp t (mem_give.mpr (Or.inr ⟨rfl, rfl⟩))
    by_contra hpl
    obtain ⟨u, hu, -⟩ := howned p (hys.ne_zero hp) (by simp [hpn, hpl])
    exact hqueued' p hp u (mem_give.mpr (Or.inl hu))
  cases l with
  | nil =>
    -- the queue is empty now, but the new head is not `NULL`
    obtain rfl : ys = [] := List.eq_nil_iff_forall_not_mem.mpr fun p hp => by simpa using hold p hp
    exact hnext (hrest.trans hys.symm)
  | cons c l =>
    obtain ⟨rfl, hc, hrest'⟩ := hrest
    -- the second node has no owner, so that it must be in the new queue
    have hmem : s.next s.head ∈ ys := by
      by_contra hmem
      obtain ⟨u, hu, -⟩ := howned' _ hc hmem
      rcases mem_give.mp hu with hu | ⟨-, hu⟩
      · exact hqueued _ (by simp) u hu
      · have hcycle : s.next s.head ∉ s.next s.head :: l :=
          hu.symm ▸ (List.nodup_cons.mp hnodup).1
        exact hcycle List.mem_cons_self
    have hv : v ≠ 0 := by
      rintro rfl
      rw [hys.eq_nil] at hmem
      cases hmem
    obtain ⟨l', rfl, -⟩ := hys.pop hv
    -- the second one of the old queue is behind `v`, which is behind it
    have hvl : v ∈ l := by
      rcases List.mem_cons.mp (hold v List.mem_cons_self) with rfl | hvl
      · exact absurd rfl hnext
      · exact hvl
    obtain ⟨l₁, l₂, rfl⟩ := List.append_of_mem hvl
    obtain rfl : l' = l₂ := by
      have hsuffix : Chain s.next v (v :: l₂) := hrest'.suffix
      exact (List.cons.inj (hys.unique hsuffix)).2
    have htwice : s.next s.head ∉ l₁ ++ v :: l' :=
      (List.nodup_cons.mp (List.nodup_cons.mp hnodup).2).1
    exact htwice (List.mem_append_right l₁ hmem)

variable [DecidableEq A]

/-- A thread writes to its node. -/
theorem store (h : s.Inv) (hnode : node ∈ s.owned t)
    (hpc : ∀ u : LockFree A T, u.owned = s.owned → u.Knows t c) :
    ({ s with next := Function.update s.next node v }.goto t c).Inv := by
  obtain ⟨xs, hchain, hnodup, hqueued, howned⟩ := h.custody
  have hmem : node ∉ xs := fun hmem => hqueued node hmem t hnode
  refine h.turn (t := t) ⟨xs, hchain.update hmem, hnodup, hqueued, howned⟩ h.notNull rfl
    (hpc _ rfl) (fun _ _ => rfl) ?_
  intro u hut p hp
  refine Function.update_of_ne ?_ ..
  rintro rfl
  exact hut (h.owner_unique hnode hp)

/-- What one access does, unless a swap of `fetch_from_queue` succeeds whose node has changed. -/
theorem access {weak : Bool} (h : s.Inv) (hpc : s.Knows t c)
    (hsame : ∀ node next, c = .fetchSwap node next → s.head = node → weak = false →
      s.next node = next) (hs : s.access t weak c = some s') : s'.Inv := by
  cases c with
  | out => cases hs
  | addHead node =>
    obtain rfl := Option.some.inj hs
    exact h.goto hpc
  | addNext node old =>
    obtain rfl := Option.some.inj hs
    refine h.store hpc fun u hu => ?_
    rw [Knows, hu]
    exact hpc
  | addExpected node =>
    obtain rfl := Option.some.inj hs
    exact h.goto ⟨hpc, rfl⟩
  | addSwap node expected =>
    simp only [LockFree.access] at hs
    split at hs
    · rename_i hswap
      obtain rfl := Option.some.inj hs
      exact h.added hpc.1 (hpc.2.trans hswap.1.symm)
    · obtain rfl := Option.some.inj hs
      exact h.goto hpc.1
  | addFailed node seen =>
    obtain rfl := Option.some.inj hs
    refine h.store hpc fun u hu => ?_
    rw [Knows, hu]
    exact hpc
  | fetchHead =>
    obtain rfl := Option.some.inj hs
    refine h.goto ?_
    split
    · trivial
    · assumption
  | fetchNext node =>
    obtain rfl := Option.some.inj hs
    exact h.goto hpc
  | fetchSwap node next =>
    simp only [LockFree.access] at hs
    split at hs
    · -- the node is fetched: the queue goes on with what has been read
      rename_i hswap
      obtain rfl := Option.some.inj hs
      obtain ⟨xs, hchain, -⟩ := h.custody
      obtain ⟨hhead, hweak⟩ := hswap
      have hnext := hsame node next rfl hhead hweak
      rw [hhead] at hchain
      obtain ⟨l, rfl, hrest⟩ := hchain.pop hpc
      rw [hnext] at hrest
      have hset : ({node} : Set A) = {p | p ∈ [node]} := by
        ext p
        simp
      rw [hset]
      exact h.given (by rwa [hhead]) hrest
    · obtain rfl := Option.some.inj hs
      exact h.goto trivial
  | fetchAll =>
    obtain rfl := Option.some.inj hs
    obtain ⟨xs, hchain, -⟩ := h.custody
    have hset : {p | OnChain s.next s.head p} = {p | p ∈ xs} := by
      ext p
      exact hchain.mem_iff.symm
    rw [hset]
    have hnone : Chain s.next 0 [] := rfl
    exact h.given (by rwa [List.append_nil]) hnone

theorem step {l : QueueTurn A T} (h : s.Inv) (hadds : s.AddsOwned l) (hsame : s.Unchanged l)
    (hs : s.step l = some s') : s'.Inv := by
  cases l with
  | add t node => exact h.call (c := .addHead node) hadds hs
  | fetch t => exact h.call (c := .fetchHead) trivial hs
  | fetchAll t => exact h.call (c := .fetchAll) trivial hs
  | turn t weak =>
    refine h.access (h.knows t) ?_ hs
    intro node next hpoint
    rw [Unchanged, hpoint] at hsame
    exact hsame

/-- A step that is not as it should be. -/
theorem not_custody {l : QueueTurn A T} (h : s.Inv) (hs : s.step l = some s')
    (hchanged : ¬s.Unchanged l) : ¬s'.Custody := by
  cases l with
  | add t node | fetch t | fetchAll t => exact absurd trivial hchanged
  | turn t weak =>
    have hknows := h.knows t
    simp only [Unchanged] at hchanged
    simp only [LockFree.step] at hs
    cases hpoint : s.point t with
    | fetchSwap node next =>
      rw [hpoint] at hchanged hs hknows
      simp only [Classical.not_imp] at hchanged
      obtain ⟨rfl, rfl, hnext⟩ := hchanged
      simp only [LockFree.access, and_self, if_true] at hs
      obtain rfl := Option.some.inj hs
      exact h.changed hknows hnext
    | _ =>
      rw [hpoint] at hchanged
      exact absurd trivial hchanged

end Inv

theorem inv_of_reachable [DecidableEq A]
    (h : (lockFreeSystem A T).Reachable (fun s l => s.AddsOwned l ∧ s.Unchanged l) s) : s.Inv := by
  refine h.induction (fun s₀ hinit => ?_) fun s l s' hinv hok hs => hinv.step hok.1 hok.2 hs
  obtain ⟨hout, hnotNull, hcustody⟩ := hinit
  refine ⟨hcustody, hnotNull, fun t => ?_⟩
  rw [hout t]
  trivial

end LockFree

open LockFree

/-- As long as every swap of `fetch_from_queue` that succeeds finds its node unchanged, every node
is in the queue once or owned by one thread; and the first other swap ends this. -/
theorem lockFree_custody_iff {A T : Type*} [DecidableEq A] [DecidableEq T] [Zero A]
    {s : LockFree A T}
    (h : (lockFreeSystem A T).Reachable (fun s l => s.AddsOwned l ∧ s.Unchanged l) s) :
    s.Custody ∧ ∀ l s', s.AddsOwned l → s.step l = some s' → (s'.Custody ↔ s.Unchanged l) := by
  have hinv := inv_of_reachable h
  refine ⟨hinv.custody, fun l s' hadds hs => ⟨fun hcustody => ?_, fun hsame => ?_⟩⟩
  · by_contra hchanged
    exact hinv.not_custody hs hchanged hcustody
  · exact (hinv.step hadds hsame hs).custody

/-- The queue holds the nodes 1 and 2, and one of two threads owns all others. -/
def twoQueued : LockFree ℕ Bool where
  head := 1
  next p := if p = 1 then 2 else 0
  point _ := .out
  owned t := {p | t = true ∧ p ≠ 0 ∧ p ≠ 1 ∧ p ≠ 2}

theorem twoQueued_init : (lockFreeSystem ℕ Bool).init twoQueued := by
  refine ⟨fun _ => rfl, fun t ht => ht.2.1 rfl, [1, 2], ?_, by simp, ?_, ?_⟩
  · simp [Chain, twoQueued]
  · intro p hp t ht
    have hother := ht.2.2
    rw [List.mem_cons, List.mem_singleton] at hp
    omega
  · intro p hp hpx
    simp only [List.mem_cons, List.not_mem_nil, or_false, not_or] at hpx
    exact ⟨true, ⟨rfl, hp, hpx⟩, fun u hu => hu.1⟩

/-- A thread fetches the first node. -/
theorem lockFree_custody_first :
    ∃ s : LockFree ℕ Bool, s.Custody ∧ s.head = 2 ∧ 1 ∈ s.owned false := by
  have hstart : (lockFreeSystem ℕ Bool).Reachable (fun s l => s.AddsOwned l ∧ s.Unchanged l)
      twoQueued := .of_init twoQueued_init
  have hcalled := hstart.step (l := .fetch false) ⟨trivial, trivial⟩ rfl
  have hhead := hcalled.step (l := .turn false false) ⟨trivial, trivial⟩ rfl
  have hnext := hhead.step (l := .turn false false) ⟨trivial, trivial⟩ rfl
  have hswap := hnext.step (l := .turn false false) ⟨trivial, fun _ _ => rfl⟩ rfl
  exact ⟨_, (lockFree_custody_iff hswap).1, rfl, Or.inr rfl⟩

theorem leads_of_exec_added {s t : LockFree ℕ Bool} (ls : List (QueueTurn ℕ Bool))
    (h : (lockFreeSystem ℕ Bool).exec (fun _ l => l.added = none) s ls = some t) :
    (lockFreeSystem ℕ Bool).Leads AddsOwned s t := by
  refine (System.leads_of_exec h).mono fun u l hl => ?_
  cases l with
  | add t node => cases hl
  | fetch t | fetchAll t | turn t weak => trivial

/-- A thread has read node 1 and what is behind it when another one fetches both nodes and adds
node 1 again.  The swap of the first thread succeeds, and node 2 is in the queue and that of the
other thread. -/
theorem lockFree_refetched : ∃ s : LockFree ℕ Bool,
    (lockFreeSystem ℕ Bool).Reachable AddsOwned s ∧ s.head = 2 ∧ 2 ∈ s.owned true ∧
      ¬s.Custody := by
  have hread := leads_of_exec_added (s := twoQueued)
    [.fetch false, .turn false false, .turn false false] rfl
  have hfetched := hread.trans (leads_of_exec_added
    [.fetch true, .turn true false, .turn true false, .turn true false,
      .fetch true, .turn true false, .turn true false, .turn true false] rfl)
  have hcalled := hfetched.tail (l := .add true 1) (Or.inl (Or.inr rfl)) rfl
  have hadded := hcalled.trans (leads_of_exec_added
    [.turn true false, .turn true false, .turn true false, .turn true false] rfl)
  have hswap := hadded.trans (leads_of_exec_added [.turn false false] rfl)
  refine ⟨_, ⟨twoQueued, twoQueued_init, hswap⟩, rfl, ⟨Or.inr rfl, by simp⟩, ?_⟩
  rintro ⟨xs, hchain, -, hqueued, -⟩
  obtain ⟨l, rfl, -⟩ := hchain.pop (show (2 : ℕ) ≠ 0 by simp)
  exact hqueued 2 List.mem_cons_self true ⟨Or.inr rfl, by simp⟩

end OsLab
