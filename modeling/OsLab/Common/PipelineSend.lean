/-
The loop of `pipeline_send` (`common/ipc.c`) on the list nodes.

The receivers are nodes of a circular list, and the loop goes on from the node it stands on.
A receiver whose buffer is too small has just been detached from the list then, and its `next`
is itself, so that the loop comes to it again and again.  The receivers that are woken do not
run before the loop has ended.

* `pipelineLoop` — the loop; `pipelineLoop_refines` — it computes what `pipelineSend` does on
  the list of the receivers;
* `Delivered` — what the call has done when it returns as it should;
* `delivered_iff` — this is so when the first receiver that matches has room for the message.
-/
import OsLab.Common.Ipc
import OsLab.Lib.RingList
import Mathlib.Data.List.TakeWhile

namespace OsLab

/-- The nodes of the receivers while `pipeline_send` runs; `seen` has the nodes that the loop
has come to, and `woken` those of the calls of `activate_proc`, in this order. -/
structure PipeNodes where
  links : Links ℕ
  r_msg : ℕ → RMsg
  woken : List ℕ
  seen : List ℕ

/-- The passes of the loop from `node` on; `flag` is `&msgq->q_receiver`, and `rcver` has what
the receivers have set before they went to sleep. -/
def pipelineLoop (rcver : ℕ → MsgReceiver) (flag : ℕ) (msg : MsgMsg) :
    ℕ → ℕ → PipeNodes → Option (Bool × PipeNodes)
  | 0, _, _ => none
  | fuel + 1, node, s =>
    if node = flag then some (false, s)
    else
      let s := { s with seen := s.seen ++ [node] }
      if testmsg (rcver node).mtype msg.mtype then
        let s := { s with links := (s.links.detach node).2, woken := s.woken ++ [node] }
        if (rcver node).size < msg.size then
          let s := { s with r_msg := Function.update s.r_msg node .null }
          pipelineLoop rcver flag msg fuel (s.links.next node) s
        else some (true, { s with r_msg := Function.update s.r_msg node (.msg msg) })
      else pipelineLoop rcver flag msg fuel (s.links.next node) s

section Delivery

variable (rcver : ℕ → MsgReceiver) (msg : MsgMsg)

/-- The receiver waits for such a message. -/
def matchesMsg (n : ℕ) : Bool := testmsg (rcver n).mtype msg.mtype

/-- The receiver has room for it, too. -/
def fitsMsg (n : ℕ) : Bool := matchesMsg rcver msg n && decide (msg.size ≤ (rcver n).size)

/-- The receivers before the first one that fits. -/
def beforeFit (ns : List ℕ) : List ℕ := ns.takeWhile fun n => !fitsMsg rcver msg n

/-- Those of them whose buffer is too small. -/
def tooSmall (ns : List ℕ) : List ℕ := (beforeFit rcver msg ns).filter (matchesMsg rcver msg)

/-- The others, and those behind the one that fits. -/
def stillQueued (ns : List ℕ) : List ℕ :=
  (beforeFit rcver msg ns).filter (fun n => !matchesMsg rcver msg n) ++
    (ns.dropWhile fun n => !fitsMsg rcver msg n).tail

/-- From `s` with the receivers `ns`, the call has returned `ret` in `t`. -/
structure Delivered (flag : ℕ) (ns : List ℕ) (s : PipeNodes) (ret : Bool) (t : PipeNodes) :
    Prop where
  /-- no receiver is considered twice or out of order -/
  seen : ∃ l, l <+: ns ∧ t.seen = s.seen ++ l
  returned : ret = (ns.find? (fitsMsg rcver msg)).isSome
  woken : t.woken = s.woken ++ tooSmall rcver msg ns ++ (ns.find? (fitsMsg rcver msg)).toList
  small : ∀ n ∈ tooSmall rcver msg ns, t.r_msg n = .null ∧ t.links.Ring n []
  fit : ∀ n, ns.find? (fitsMsg rcver msg) = some n → t.r_msg n = .msg msg ∧ t.links.Ring n []
  other : ∀ n, n ∉ tooSmall rcver msg ns → ns.find? (fitsMsg rcver msg) ≠ some n →
    t.r_msg n = s.r_msg n
  queued : t.links.Ring flag (stillQueued rcver msg ns)

end Delivery

/-! ### The passes of the loop -/

section Passes

variable {rcver : ℕ → MsgReceiver} {msg : MsgMsg} {flag a b n fuel : ℕ} {s t : PipeNodes}
variable {ns front back : List ℕ} {r : Bool × PipeNodes}

/-- A receiver that does not match is passed by. -/
theorem pipelineLoop_other (hn : n ≠ flag) (hno : matchesMsg rcver msg n = false) :
    pipelineLoop rcver flag msg (fuel + 1) n s
      = pipelineLoop rcver flag msg fuel (s.links.next n) { s with seen := s.seen ++ [n] } := by
  have htest : ¬testmsg (rcver n).mtype msg.mtype = true := by
    intro h
    rw [matchesMsg, h] at hno
    cases hno
  rw [pipelineLoop, if_neg hn]
  dsimp only
  rw [if_neg htest]

/-- A receiver that fits ends the loop. -/
theorem pipelineLoop_fit (hn : n ≠ flag) (hyes : matchesMsg rcver msg n = true)
    (hroom : msg.size ≤ (rcver n).size) :
    pipelineLoop rcver flag msg (fuel + 1) n s = some (true,
      { links := (s.links.detach n).2
        r_msg := Function.update s.r_msg n (.msg msg)
        woken := s.woken ++ [n]
        seen := s.seen ++ [n] }) := by
  have htest : testmsg (rcver n).mtype msg.mtype = true := hyes
  rw [pipelineLoop, if_neg hn]
  dsimp only
  rw [if_pos htest, if_neg (Int.not_lt.mpr hroom)]

/-- A node that has been detached comes next to itself. -/
theorem next_detach (L : Links ℕ) (n : ℕ) : (L.detach n).2.next n = n :=
  ((Links.Ring.detach_self L n).next_eq (l := []) (r := []) rfl).1

/-- From a receiver that matches and is too small the loop does not get away. -/
theorem pipelineLoop_small (hn : n ≠ flag) (hyes : matchesMsg rcver msg n = true)
    (hsmall : (rcver n).size < msg.size) : pipelineLoop rcver flag msg fuel n s = none := by
  have htest : testmsg (rcver n).mtype msg.mtype = true := hyes
  induction fuel generalizing s with
  | zero => rfl
  | succ fuel ih =>
    rw [pipelineLoop, if_neg hn]
    dsimp only
    rw [if_pos htest, if_pos hsmall, next_detach]
    exact ih

/-- The receivers in front that do not match are passed by one after the other. -/
theorem pipelineLoop_pass (hchain : (a :: (front ++ b :: back)).IsChain s.links.Linked)
    (hflag : flag ∉ front) (hno : ∀ n ∈ front, matchesMsg rcver msg n = false) :
    pipelineLoop rcver flag msg (front.length + fuel) (s.links.next a) s
      = pipelineLoop rcver flag msg fuel b { s with seen := s.seen ++ front } := by
  induction front generalizing a s with
  | nil =>
    rw [(List.isChain_cons_cons.mp hchain).1.1, List.length_nil, Nat.zero_add, List.append_nil]
  | cons x front ih =>
    obtain ⟨hax, hrest⟩ := List.isChain_cons_cons.mp hchain
    obtain ⟨hx, hfront⟩ := not_or.mp (mt List.mem_cons.mpr hflag)
    have hlen : (x :: front).length + fuel = (front.length + fuel) + 1 := by
      rw [List.length_cons]
      omega
    rw [hax.1, hlen, pipelineLoop_other (Ne.symm hx) (hno x List.mem_cons_self)]
    have hpass := ih (s := { s with seen := s.seen ++ [x] }) hrest hfront
      fun n hn => hno n (List.mem_cons_of_mem x hn)
    rw [hpass, List.append_assoc]
    rfl

/-- With more fuel the loop returns the same. -/
theorem pipelineLoop_mono {k : ℕ} (h : pipelineLoop rcver flag msg fuel n s = some r) :
    pipelineLoop rcver flag msg (fuel + k) n s = some r := by
  induction fuel generalizing n s with
  | zero => cases h
  | succ fuel ih =>
    rw [Nat.succ_add, pipelineLoop]
    rw [pipelineLoop] at h
    dsimp only at h ⊢
    split_ifs at h ⊢ with hflag htest hsmall
    · exact h
    · exact ih h
    · exact h
    · exact ih h

/-! ### The call -/

/-- No receiver matches: the call returns 0. -/
theorem pipelineLoop_none (hr : s.links.Ring flag ns)
    (hno : ∀ n ∈ ns, matchesMsg rcver msg n = false) :
    pipelineLoop rcver flag msg (ns.length + 1) (s.links.next flag) s
      = some (false, { s with seen := s.seen ++ ns }) := by
  have hchain : (flag :: (ns ++ flag :: [])).IsChain s.links.Linked := hr.chain
  rw [pipelineLoop_pass hchain (List.nodup_cons.mp hr.nodup).1 hno, pipelineLoop, if_pos rfl]

/-- The receivers before the first one that matches are passed by. -/
theorem pipelineLoop_front (hr : s.links.Ring flag (front ++ n :: back))
    (hno : ∀ m ∈ front, matchesMsg rcver msg m = false) :
    pipelineLoop rcver flag msg (front.length + fuel) (s.links.next flag) s
      = pipelineLoop rcver flag msg fuel n { s with seen := s.seen ++ front } := by
  have hchain := hr.chain
  rw [List.append_assoc, List.cons_append] at hchain
  exact pipelineLoop_pass hchain
    (fun hm => (List.nodup_cons.mp hr.nodup).1 (List.mem_append_left _ hm)) hno

/-- A node of the list is not its head. -/
theorem ne_flag (hr : s.links.Ring flag (front ++ n :: back)) : n ≠ flag := by
  rintro rfl
  exact (List.nodup_cons.mp hr.nodup).1 (List.mem_append_right _ List.mem_cons_self)

/-- The first one that matches has room. -/
theorem pipelineLoop_some (hr : s.links.Ring flag (front ++ n :: back))
    (hno : ∀ m ∈ front, matchesMsg rcver msg m = false) (hyes : matchesMsg rcver msg n = true)
    (hroom : msg.size ≤ (rcver n).size) :
    pipelineLoop rcver flag msg (front.length + 1) (s.links.next flag) s = some (true,
      { links := (s.links.detach n).2
        r_msg := Function.update s.r_msg n (.msg msg)
        woken := s.woken ++ [n]
        seen := s.seen ++ front ++ [n] }) := by
  rw [pipelineLoop_front hr hno]
  exact pipelineLoop_fit (ne_flag hr) hyes hroom

/-- The first one that matches has no room: the call does not return. -/
theorem pipelineLoop_stuck (hr : s.links.Ring flag (front ++ n :: back))
    (hno : ∀ m ∈ front, matchesMsg rcver msg m = false) (hyes : matchesMsg rcver msg n = true)
    (hsmall : (rcver n).size < msg.size) :
    pipelineLoop rcver flag msg fuel (s.links.next flag) s = none := by
  cases hloop : pipelineLoop rcver flag msg fuel (s.links.next flag) s with
  | none => rfl
  | some r =>
    have hmore := pipelineLoop_mono (k := front.length) hloop
    rw [Nat.add_comm, pipelineLoop_front hr hno,
      pipelineLoop_small (ne_flag hr) hyes hsmall] at hmore
    cases hmore

end Passes

/-! ### What has been done -/

section Done

variable {rcver : ℕ → MsgReceiver} {msg : MsgMsg} {flag n : ℕ} {s : PipeNodes}
variable {ns front back : List ℕ}

/-- When the first receiver that matches fits, none before it does either. -/
theorem beforeFit_front (hno : ∀ m ∈ front, matchesMsg rcver msg m = false) (l : List ℕ) :
    beforeFit rcver msg (front ++ l) = front ++ beforeFit rcver msg l ∧
      ((front ++ l).dropWhile fun n => !fitsMsg rcver msg n)
        = l.dropWhile (fun n => !fitsMsg rcver msg n) ∧
      (front ++ l).find? (fitsMsg rcver msg) = l.find? (fitsMsg rcver msg) := by
  have hnot : ∀ m ∈ front, (!fitsMsg rcver msg m) = true := by
    intro m hm
    rw [fitsMsg, hno m hm]
    rfl
  refine ⟨List.takeWhile_append_of_pos hnot, List.dropWhile_append_of_pos hnot, ?_⟩
  rw [List.find?_append, List.find?_eq_none.mpr fun m hm => by simpa using hnot m hm]
  rfl

/-- None of the receivers in front is too small. -/
theorem filter_front (hno : ∀ m ∈ front, matchesMsg rcver msg m = false) :
    front.filter (matchesMsg rcver msg) = [] ∧
      front.filter (fun n => !matchesMsg rcver msg n) = front := by
  constructor
  · refine List.filter_eq_nil_iff.mpr fun m hm => ?_
    rw [hno m hm]
    exact Bool.false_ne_true
  · refine List.filter_eq_self.mpr fun m hm => ?_
    rw [hno m hm]
    rfl

theorem delivered_none (hr : s.links.Ring flag ns)
    (hno : ∀ n ∈ ns, matchesMsg rcver msg n = false) :
    Delivered rcver msg flag ns s false { s with seen := s.seen ++ ns } := by
  obtain ⟨hbefore, hdrop, hfind⟩ := beforeFit_front hno []
  obtain ⟨hmatch, hothers⟩ := filter_front hno
  rw [List.append_nil] at hbefore hdrop hfind
  have hnil : beforeFit rcver msg [] = [] := rfl
  have hsmall : tooSmall rcver msg ns = [] := by
    rw [tooSmall, hbefore, hnil, List.append_nil, hmatch]
  have hqueued : stillQueued rcver msg ns = ns := by
    rw [stillQueued, hbefore, hnil, List.append_nil, hothers, hdrop]
    exact List.append_nil ns
  refine ⟨⟨ns, List.prefix_rfl, rfl⟩, ?_, ?_, ?_, ?_, fun n _ _ => rfl, ?_⟩
  · rw [hfind]
    rfl
  · rw [hsmall, hfind]
    simp
  · rw [hsmall]
    simp
  · rw [hfind]
    simp
  · rw [hqueued]
    exact hr

theorem delivered_some (hr : s.links.Ring flag (front ++ n :: back))
    (hno : ∀ m ∈ front, matchesMsg rcver msg m = false) (hfit : fitsMsg rcver msg n = true) :
    Delivered rcver msg flag (front ++ n :: back) s true
      { links := (s.links.detach n).2
        r_msg := Function.update s.r_msg n (.msg msg)
        woken := s.woken ++ [n]
        seen := s.seen ++ front ++ [n] } := by
  obtain ⟨hbefore, hdrop, hfind⟩ := beforeFit_front hno (n :: back)
  obtain ⟨hmatch, hothers⟩ := filter_front hno
  have hstop : ¬(!fitsMsg rcver msg n) = true := by
    rw [hfit]
    exact Bool.false_ne_true
  have hnil : beforeFit rcver msg (n :: back) = [] := List.takeWhile_cons_of_neg hstop
  rw [hnil, List.append_nil] at hbefore
  have hrest : ((n :: back).dropWhile fun n => !fitsMsg rcver msg n) = n :: back :=
    List.dropWhile_cons_of_neg hstop
  rw [hrest] at hdrop
  rw [List.find?_cons_of_pos hfit] at hfind
  have hsmall : tooSmall rcver msg (front ++ n :: back) = [] := by
    rw [tooSmall, hbefore, hmatch]
  have hqueued : stillQueued rcver msg (front ++ n :: back) = front ++ back := by
    rw [stillQueued, hbefore, hothers, hdrop]
    rfl
  refine ⟨⟨front ++ [n], ⟨back, by simp⟩, List.append_assoc ..⟩, ?_, ?_, ?_, ?_, ?_, ?_⟩
  · rw [hfind]
    rfl
  · rw [hsmall, hfind, List.append_nil]
    rfl
  · rw [hsmall]
    simp
  · intro m hm
    rw [hfind] at hm
    obtain rfl : n = m := Option.some.inj hm
    exact ⟨Function.update_self _ _ _, Links.Ring.detach_self s.links n⟩
  · intro m _ hm
    rw [hfind] at hm
    have hne : m ≠ n := fun heq => hm (by rw [heq])
    exact Function.update_of_ne hne _ _
  · rw [hqueued]
    exact hr.detach

end Done

/-- **The message is handed over** as it should be exactly when the first receiver that matches
it has room for it, or none matches; else the call does not return. -/
theorem delivered_iff (rcver : ℕ → MsgReceiver) (msg : MsgMsg) (flag : ℕ) (ns : List ℕ)
    (s : PipeNodes) (hr : s.links.Ring flag ns) :
    (∃ fuel ret t, pipelineLoop rcver flag msg fuel (s.links.next flag) s = some (ret, t) ∧
      Delivered rcver msg flag ns s ret t) ↔
    ∀ n, ns.find? (matchesMsg rcver msg) = some n → msg.size ≤ (rcver n).size := by
  constructor
  · rintro ⟨fuel, ret, t, hloop, -⟩ n hfind
    obtain ⟨hyes, front, back, rfl, hno⟩ := List.find?_eq_some_iff_append.mp hfind
    have hnot : ∀ m ∈ front, matchesMsg rcver msg m = false := fun m hm => by
      simpa using hno m hm
    by_contra hsmall
    rw [pipelineLoop_stuck hr hnot hyes (Int.not_le.mp hsmall)] at hloop
    cases hloop
  · intro hroom
    cases hfind : ns.find? (matchesMsg rcver msg) with
    | none =>
      have hno : ∀ m ∈ ns, matchesMsg rcver msg m = false := fun m hm => by
        simpa using List.find?_eq_none.mp hfind m hm
      exact ⟨_, _, _, pipelineLoop_none hr hno, delivered_none hr hno⟩
    | some n =>
      obtain ⟨hyes, front, back, rfl, hno⟩ := List.find?_eq_some_iff_append.mp hfind
      have hnot : ∀ m ∈ front, matchesMsg rcver msg m = false := fun m hm => by
        simpa using hno m hm
      have hle := hroom n hfind
      have hfit : fitsMsg rcver msg n = true := by
        rw [fitsMsg, hyes, decide_eq_true hle]
        rfl
      exact ⟨_, _, _, pipelineLoop_some hr hnot hyes hle, delivered_some hr hnot hfit⟩

/-! ### The list of the receivers -/

section Refines

variable {rcver : ℕ → MsgReceiver} {msg : MsgMsg} {flag : ℕ} {s : PipeNodes}

/-- The loop on the nodes does what `pipelineSend` does on the list of the receivers. -/
def Refines (rcver : ℕ → MsgReceiver) (msg : MsgMsg) (flag : ℕ) (ns : List ℕ) (s : PipeNodes) :
    Option (Option (MsgReceiver × List MsgReceiver)) → Prop
  | none => ∀ fuel, pipelineLoop rcver flag msg fuel (s.links.next flag) s = none
  | some none => ∃ fuel t, t.links.Ring flag ns ∧
      pipelineLoop rcver flag msg fuel (s.links.next flag) s = some (false, t)
  | some (some (r, rs)) => ∃ fuel t n ms, rcver n = r ∧ ms.map rcver = rs ∧
      t.links.Ring flag ms ∧ t.r_msg n = .msg msg ∧
      pipelineLoop rcver flag msg fuel (s.links.next flag) s = some (true, t)

theorem pipelineSend_front {front : List ℕ} (l : List ℕ)
    (hno : ∀ m ∈ front, matchesMsg rcver msg m = false) :
    pipelineSend msg ((front ++ l).map rcver)
      = (pipelineSend msg (l.map rcver)).map
          (Option.map fun x => (x.1, front.map rcver ++ x.2)) := by
  induction front with
  | nil =>
    show _ = (pipelineSend msg (l.map rcver)).map (Option.map id)
    rw [Option.map_id, Option.map_id]
    rfl
  | cons x front ih =>
    have htest : ¬testmsg (rcver x).mtype msg.mtype = true := fun h => by
      have hx := hno x List.mem_cons_self
      rw [matchesMsg, h] at hx
      cases hx
    rw [List.cons_append, List.map_cons, pipelineSend, if_neg htest,
      ih fun m hm => hno m (List.mem_cons_of_mem x hm), Option.map_map, Option.map_comp_map]
    rfl

theorem pipelineLoop_refines {ns : List ℕ} (hr : s.links.Ring flag ns) :
    Refines rcver msg flag ns s (pipelineSend msg (ns.map rcver)) := by
  cases hfind : ns.find? (matchesMsg rcver msg) with
  | none =>
    have hno : ∀ m ∈ ns, matchesMsg rcver msg m = false := fun m hm => by
      simpa using List.find?_eq_none.mp hfind m hm
    have hsend := pipelineSend_front [] hno
    rw [List.append_nil] at hsend
    rw [hsend]
    exact ⟨_, { s with seen := s.seen ++ ns }, hr, pipelineLoop_none hr hno⟩
  | some n =>
    obtain ⟨hyes, front, back, rfl, hno⟩ := List.find?_eq_some_iff_append.mp hfind
    have hnot : ∀ m ∈ front, matchesMsg rcver msg m = false := fun m hm => by
      simpa using hno m hm
    have htest : testmsg (rcver n).mtype msg.mtype = true := hyes
    rw [pipelineSend_front (n :: back) hnot, List.map_cons, pipelineSend, if_pos htest]
    split_ifs with hsmall
    · intro fuel
      exact pipelineLoop_stuck hr hnot hyes hsmall
    · have hloop := pipelineLoop_some hr hnot hyes (Int.not_lt.mp hsmall)
      exact ⟨_, _, n, front ++ back, rfl, List.map_append, hr.detach,
        Function.update_self _ _ _, hloop⟩

end Refines

/-! ### Two receivers -/

/-- The list with its head in 0 and two receivers, in the nodes 1 and 2. -/
def PipeNodes.two : PipeNodes where
  links := (((Links.mk id id).init 0).insert 0 2).insert 0 1
  r_msg := fun _ => .unset
  woken := []
  seen := []

theorem PipeNodes.ring_two : PipeNodes.two.links.Ring 0 [1, 2] :=
  ((Links.Ring.init 0).insert (by simp)).insert (by simp)

/-- One of them waits for type 1 with room for four bytes, the other one for any type. -/
def twoReceivers (n : ℕ) : MsgReceiver := if n = 1 then ⟨1, 1, 4⟩ else ⟨2, 0, 8⟩

/-- The first one is passed by, the second one gets the message. -/
theorem delivered_two : ∃ fuel ret t,
    pipelineLoop twoReceivers 0 ⟨0, 2, 8, [], []⟩ fuel (PipeNodes.two.links.next 0) .two
      = some (ret, t) ∧ Delivered twoReceivers ⟨0, 2, 8, [], []⟩ 0 [1, 2] .two ret t :=
  (delivered_iff twoReceivers ⟨0, 2, 8, [], []⟩ 0 [1, 2] .two PipeNodes.ring_two).mpr (by decide)

/-- **The first one matches and is too small**: no number of passes is enough, and the second
one does not get the message. -/
theorem not_delivered_small : PipeNodes.two.links.Ring 0 [1, 2] ∧
    ∀ fuel, pipelineLoop twoReceivers 0 ⟨0, 1, 8, [], []⟩ fuel
      (PipeNodes.two.links.next 0) .two = none :=
  ⟨PipeNodes.ring_two, fun _ => pipelineLoop_stuck
    (show PipeNodes.two.links.Ring 0 ([] ++ 1 :: [2]) from PipeNodes.ring_two)
    (by simp) (by decide) (by decide)⟩

end OsLab
