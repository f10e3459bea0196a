/-
Processes that wait for a semaphore (`common/sem.c`).

`semSystem` interleaves the sections under the lock of one semaphore with the
wake-ups by `alert_proc`.  A process in `_wait_sem` sleeps, has been made runnable by
a post or by an alert, and then takes the lock again.  A wait takes a ticket when it
starts; the history has the posts and the tickets in the order in which they were
granted.

* `SemState.Inv`, `inv_step` — the queue, the value and the flags `up` agree;
* `sem_sound` — so no permit is lost or created, permits are granted in the order of
  the tickets, no assertion fails and `post_all_sem` wakes exactly the waiters.
-/
import OsLab.Common.Sem
import OsLab.Lib.System
import Mathlib.Logic.Function.Basic
import Mathlib.Data.List.Range
import Mathlib.Order.Basic
import Mathlib.Algebra.Order.Group.Int

namespace OsLab

/-- Where a process is in `_wait_sem`. -/
inductive WaitPc
  | outside
  /-- in `sched(SLEEPING)`, or in `sched(DEEPSLEEPING)` when not alertable -/
  | asleep (alertable : Bool)
  /-- runnable again, and about to take the lock -/
  | woken
  deriving DecidableEq, Repr

/-- A semaphore and the processes that use it. -/
structure SemState where
  sem : Semaphore
  pc : ℕ → WaitPc
  /-- `wait->up` of the `WaitData` of a process in `_wait_sem` -/
  up : ℕ → Bool
  /-- the ticket of the last wait of a process -/
  ticket : ℕ → ℕ
  nextTicket : ℕ
  /-- the posts so far -/
  posts : ℕ
  /-- the tickets that have been granted, in this order -/
  granted : List ℕ

/-- The sections and the wake-ups. -/
inductive SemCall
  /-- `_wait_sem` up to the point where it returns or sleeps -/
  | wait (p : ℕ) (alertable : Bool)
  /-- `_wait_sem` after `sched` -/
  | resume (p : ℕ)
  | alert (p : ℕ)
  | post
  | get
  | getAll
  | postAll

namespace SemState

/-- An acquisition that is granted at once. -/
def grantNext (s : SemState) : SemState :=
  { s with nextTicket := s.nextTicket + 1, granted := s.granted ++ [s.nextTicket] }

/-- The first section of `_wait_sem`. -/
def wait (s : SemState) (p : ℕ) (alertable : Bool) : SemState :=
  let r := s.sem.wait p
  if r.1 then { s.grantNext with sem := r.2, ticket := Function.update s.ticket p s.nextTicket }
  else { s with
    sem := r.2
    pc := Function.update s.pc p (.asleep alertable)
    up := Function.update s.up p false
    ticket := Function.update s.ticket p s.nextTicket
    nextTicket := s.nextTicket + 1 }

/-- The second section of `_wait_sem`; `none` when `ASSERT(++sem->val <= 0)` fails. -/
def resume (s : SemState) (p : ℕ) : Option SemState :=
  let s := { s with pc := Function.update s.pc p .outside }
  if s.up p then some s
  else if s.sem.val + 1 ≤ 0 then
    some { s with sem := ⟨s.sem.val + 1, s.sem.sleeplist.erase p⟩ }
  else none

/-- `alert_proc`: a process in `SLEEPING` becomes runnable. -/
def alert (s : SemState) (p : ℕ) : SemState :=
  if s.pc p = .asleep true then { s with pc := Function.update s.pc p .woken } else s

/-- `activate_proc` -/
def activate (s : SemState) (p : ℕ) : SemState :=
  match s.pc p with
  | .asleep _ => { s with pc := Function.update s.pc p .woken }
  | _ => s

/-- `_post_sem`; `none` when `ASSERT(!_empty_list(&sem->sleeplist))` fails. -/
def postSem (s : SemState) : Option SemState :=
  let s := { s with posts := s.posts + 1 }
  if s.sem.val + 1 ≤ 0 then
    match s.sem.sleeplist.getLast? with
    | none => none
    | some p => some (activate { s with
        sem := ⟨s.sem.val + 1, s.sem.sleeplist.dropLast⟩
        up := Function.update s.up p true
        granted := s.granted ++ [s.ticket p] } p)
  else some { s with sem := { s.sem with val := s.sem.val + 1 } }

/-- `_get_sem` -/
def getSem (s : SemState) : Bool × SemState :=
  if 0 < s.sem.val then
    (true, { s.grantNext with sem := { s.sem with val := s.sem.val - 1 } })
  else (false, s)

/-- `get_all_sem` -/
def getAllSem (s : SemState) : ℤ × SemState :=
  if 0 < s.sem.val then
    (s.sem.val, { s with
      sem := { s.sem with val := 0 }
      nextTicket := s.nextTicket + s.sem.val.toNat
      granted := s.granted ++ List.range' s.nextTicket s.sem.val.toNat })
  else (0, s)

/-- The loop of `post_all_sem`, with fuel. -/
def postAllLoop : ℕ → ℤ → SemState → Option (ℤ × SemState)
  | 0, _, _ => none
  | fuel + 1, ret, s =>
    match s.postSem with
    | none => none
    | some s =>
      if s.getSem.1 then some (ret + 1, s.getSem.2) else postAllLoop fuel (ret + 1) s

/-- `post_all_sem` with enough fuel (`postAllSem_eq`). -/
def postAllSem (s : SemState) : Option (ℤ × SemState) :=
  postAllLoop (s.sem.sleeplist.length + 1) (-1) s

/-- One section or wake-up. -/
def step (s : SemState) : SemCall → Option SemState
  | .wait p alertable => if s.pc p = .outside then some (s.wait p alertable) else none
  | .resume p => if s.pc p = .woken then s.resume p else none
  | .alert p => some (s.alert p)
  | .post => s.postSem
  | .get => some s.getSem.2
  | .getAll => some s.getAllSem.2
  | .postAll => s.postAllSem.map (·.2)

end SemState

/-- A semaphore initialised with `val`, and any number of processes. -/
def semSystem (val : ℤ) : System SemState SemCall where
  init s := s.sem = .init val ∧ (∀ p, s.pc p = .outside) ∧ s.nextTicket = 0 ∧ s.posts = 0 ∧
    s.granted = []
  step := SemState.step

namespace SemState

/-- The semaphore after `init_sem`. -/
def new (val : ℤ) : SemState :=
  ⟨.init val, fun _ => .outside, fun _ => false, fun _ => 0, 0, 0, []⟩

theorem init_new (val : ℤ) : (semSystem val).init (new val) :=
  ⟨rfl, fun _ => rfl, rfl, rfl, rfl⟩

variable {s t : SemState} {p q : ℕ} {val : ℤ}

/-- What holds between the sections. -/
structure Inv (val : ℤ) (s : SemState) : Prop where
  nodup : s.sem.sleeplist.Nodup
  /-- the processes on the list are in `_wait_sem` and not marked -/
  queued : ∀ p ∈ s.sem.sleeplist, s.pc p ≠ .outside ∧ s.up p = false
  /-- the others that are in `_wait_sem` have been given a permit -/
  marked : ∀ p, s.pc p ≠ .outside → p ∉ s.sem.sleeplist → s.pc p = .woken ∧ s.up p = true
  length : (s.sem.sleeplist.length : ℤ) = max 0 (-s.sem.val)
  permits : val + s.posts = s.sem.val + s.granted.length + s.sem.sleeplist.length
  /-- the granted tickets, and then those on the list from its tail -/
  order : (s.granted ++ (s.sem.sleeplist.map s.ticket).reverse).Pairwise (· < ·)
  tickets : ∀ k ∈ s.granted ++ (s.sem.sleeplist.map s.ticket).reverse, k < s.nextTicket

theorem inv_init (h : (semSystem val).init s) (hval : 0 ≤ val) : s.Inv val := by
  obtain ⟨hsem, hpc, hnext, hposts, hgranted⟩ := h
  refine ⟨?_, ?_, fun p hp => absurd (hpc p) hp, ?_, ?_, ?_, ?_⟩
  · simp [hsem, Semaphore.init]
  · simp [hsem, Semaphore.init]
  · simp [hsem, Semaphore.init, hval]
  · simp [hsem, Semaphore.init, hposts, hgranted]
  · simp [hsem, Semaphore.init, hgranted]
  · simp [hsem, Semaphore.init, hgranted]

/-- A new ticket is later than all others. -/
theorem Inv.order_next (h : s.Inv val) :
    ((s.granted ++ (s.sem.sleeplist.map s.ticket).reverse) ++ [s.nextTicket]).Pairwise (· < ·) := by
  refine List.pairwise_append.mpr ⟨h.order, List.pairwise_singleton _ _, ?_⟩
  intro a ha b hb
  rw [List.mem_singleton.mp hb]
  exact h.tickets a ha

/-- With a positive value nobody waits. -/
theorem Inv.sleeplist_eq_nil (h : s.Inv val) (hpos : 0 ≤ s.sem.val) : s.sem.sleeplist = [] := by
  have := h.length
  refine List.eq_nil_of_length_eq_zero ?_
  omega

/-- `_wait_sem` that returns at once, `_get_sem`: nobody is overtaken. -/
theorem inv_grantNext {sem : Semaphore} {ticket : ℕ → ℕ} (h : s.Inv val) (hpos : 0 < s.sem.val)
    (hsem : sem = { s.sem with val := s.sem.val - 1 }) :
    ({ s.grantNext with sem := sem, ticket := ticket } : SemState).Inv val := by
  have hnil := h.sleeplist_eq_nil (Int.le_of_lt hpos)
  have horder := h.order_next
  have htickets := h.tickets
  have hpermits := h.permits
  have hmarked := h.marked
  rw [hnil] at horder htickets hpermits hmarked
  subst hsem
  refine ⟨by simp [hnil], by simp [hnil], ?_, ?_, ?_, ?_, ?_⟩
  · exact fun p hp hmem => hmarked p hp (by simp)
  · simp only [hnil, List.length_nil]
    omega
  · simp only [hnil, grantNext, List.length_append, List.length_nil, List.length_singleton] at hpermits ⊢
    omega
  · simpa [hnil, grantNext] using horder
  · intro k hk
    simp only [hnil, grantNext, List.map_nil, List.reverse_nil, List.append_nil, List.mem_append,
      List.mem_singleton] at hk htickets ⊢
    rcases hk with hk | rfl
    · exact Nat.lt_succ_of_lt (htickets k hk)
    · exact Nat.lt_succ_self _

theorem inv_wait {alertable : Bool} (h : s.Inv val) (hp : s.pc p = .outside) :
    (s.wait p alertable).Inv val := by
  have hpl : p ∉ s.sem.sleeplist := fun hmem => (h.queued p hmem).1 hp
  by_cases hpos : 0 ≤ s.sem.val - 1
  · have hstep : s.wait p alertable = { s.grantNext with
        sem := { s.sem with val := s.sem.val - 1 }
        ticket := Function.update s.ticket p s.nextTicket } := by
      simp only [wait, Semaphore.wait, if_pos hpos, if_true]
    rw [hstep]
    exact inv_grantNext h (by omega) rfl
  · have hstep : s.wait p alertable = { s with
        sem := ⟨s.sem.val - 1, p :: s.sem.sleeplist⟩
        pc := Function.update s.pc p (.asleep alertable)
        up := Function.update s.up p false
        ticket := Function.update s.ticket p s.nextTicket
        nextTicket := s.nextTicket + 1 } := by
      simp only [wait, Semaphore.wait, if_neg hpos, Bool.false_eq_true, if_false]
    have hlength := h.length
    have hpermits := h.permits
    rw [hstep]
    -- the tickets of those that wait already
    have hold : s.sem.sleeplist.map (Function.update s.ticket p s.nextTicket)
        = s.sem.sleeplist.map s.ticket := by
      refine List.map_congr_left fun q hq => Function.update_of_ne ?_ _ _
      rintro rfl
      exact hpl hq
    have hlist : s.granted ++ ((p :: s.sem.sleeplist).map
        (Function.update s.ticket p s.nextTicket)).reverse
        = (s.granted ++ (s.sem.sleeplist.map s.ticket).reverse) ++ [s.nextTicket] := by
      rw [List.map_cons, Function.update_self, hold, List.reverse_cons, List.append_assoc]
    refine ⟨List.nodup_cons.mpr ⟨hpl, h.nodup⟩, fun q hq => ?_, fun q hq hmem => ?_, ?_, ?_, ?_, ?_⟩
    · by_cases hqp : q = p
      · simp [hqp]
      · simp only [Function.update_of_ne hqp]
        exact h.queued q ((List.mem_cons.mp hq).resolve_left hqp)
    · have hqp : q ≠ p := fun hqp => hmem (hqp ▸ List.mem_cons_self)
      simp only [Function.update_of_ne hqp] at hq ⊢
      exact h.marked q hq fun hm => hmem (List.mem_cons_of_mem p hm)
    · simp only [List.length_cons]
      omega
    · simp only [List.length_cons]
      omega
    · rw [hlist]
      exact h.order_next
    · rw [hlist]
      intro k hk
      rcases List.mem_append.mp hk with hk | hk
      · exact Nat.lt_succ_of_lt (h.tickets k hk)
      · rw [List.mem_singleton.mp hk]
        exact Nat.lt_succ_self _

/-- Which processes sleep does not matter to the queue. -/
private theorem inv_wake (h : s.Inv val) (hp : s.pc p ≠ .outside) :
    ({ s with pc := Function.update s.pc p .woken } : SemState).Inv val := by
  refine ⟨h.nodup, fun q hq => ⟨?_, (h.queued q hq).2⟩, fun q hq hmem => ?_, h.length, h.permits,
    h.order, h.tickets⟩
  · by_cases hqp : q = p
    · simp [hqp]
    · simp only [Function.update_of_ne hqp]
      exact (h.queued q hq).1
  · by_cases hqp : q = p
    · subst hqp
      simp only [Function.update_self, true_and]
      exact (h.marked q hp hmem).2
    · simp only [Function.update_of_ne hqp] at hq ⊢
      exact h.marked q hq hmem

theorem inv_alert (h : s.Inv val) : (s.alert p).Inv val := by
  unfold alert
  split
  · rename_i hp
    exact inv_wake h (by simp [hp])
  · exact h

/-- The second section of `_wait_sem`: when the process is still on the list it has
been woken by an alert, and it takes itself off. -/
theorem inv_resume (h : s.Inv val) (hp : s.pc p = .woken) :
    ∃ t, s.resume p = some t ∧ t.Inv val := by
  have hout : ∀ q, q ≠ p → Function.update s.pc p .outside q = s.pc q := fun q hq =>
    Function.update_of_ne hq _ _
  by_cases hmem : p ∈ s.sem.sleeplist
  · have hup : s.up p = false := (h.queued p hmem).2
    have hlen := List.length_pos_of_mem hmem
    have hlength := h.length
    have hpermits := h.permits
    have hle : s.sem.val + 1 ≤ 0 := by omega
    have herase : (s.sem.sleeplist.erase p).length + 1 = s.sem.sleeplist.length := by
      rw [List.length_erase_of_mem hmem]
      omega
    -- the others keep their places
    have hsub : ((s.sem.sleeplist.erase p).map s.ticket).reverse.Sublist
        (s.sem.sleeplist.map s.ticket).reverse :=
      (List.Sublist.map s.ticket List.erase_sublist).reverse
    have hsub' := (List.Sublist.refl s.granted).append hsub
    simp only [resume, hup, if_pos hle]
    refine ⟨_, rfl, h.nodup.erase p, fun q hq => ?_, fun q hq hq' => ?_, ?_, ?_, ?_, ?_⟩
    · obtain ⟨hqp, hq⟩ := h.nodup.mem_erase_iff.mp hq
      simp only [hout q hqp]
      exact h.queued q hq
    · by_cases hqp : q = p
      · simp [hqp] at hq
      · simp only [hout q hqp] at hq ⊢
        exact h.marked q hq fun hm => hq' (h.nodup.mem_erase_iff.mpr ⟨hqp, hm⟩)
    · dsimp only
      omega
    · dsimp only
      omega
    · exact h.order.sublist hsub'
    · exact fun k hk => h.tickets k (hsub'.subset hk)
  · have hup : s.up p = true := (h.marked p (by simp [hp]) hmem).2
    simp only [resume, hup]
    refine ⟨_, rfl, h.nodup, fun q hq => ?_, fun q hq hq' => ?_, h.length, h.permits, h.order,
      h.tickets⟩
    · have hqp : q ≠ p := fun hqp => hmem (hqp ▸ hq)
      simp only [hout q hqp]
      exact h.queued q hq
    · by_cases hqp : q = p
      · simp [hqp] at hq
      · simp only [hout q hqp] at hq ⊢
        exact h.marked q hq hq'

/-- The process at the tail of the list is marked and made runnable. -/
def wakeLast (s : SemState) (l : List ℕ) (p : ℕ) : SemState :=
  { s with
    sem := ⟨s.sem.val + 1, l⟩
    pc := Function.update s.pc p .woken
    up := Function.update s.up p true
    posts := s.posts + 1
    granted := s.granted ++ [s.ticket p] }

private theorem activate_eq (hp : s.pc p ≠ .outside) :
    s.activate p = { s with pc := Function.update s.pc p .woken } := by
  rw [activate]
  split
  · rfl
  · rename_i hno
    have hw : s.pc p = .woken := by
      cases h : s.pc p with
      | outside => exact absurd h hp
      | asleep b => exact absurd h (hno b)
      | woken => rfl
    rw [← hw, Function.update_eq_self]

/-- `_post_sem` with waiters wakes the one that has waited longest. -/
theorem postSem_append (h : s.Inv val) {l : List ℕ} (hl : s.sem.sleeplist = l ++ [p]) :
    s.postSem = some (s.wakeLast l p) ∧ (s.wakeLast l p).Inv val := by
  have hlength := h.length
  have hpermits := h.permits
  have hlen : s.sem.sleeplist.length = l.length + 1 := by simp [hl]
  have hle : s.sem.val + 1 ≤ 0 := by omega
  have hp := h.queued p (by simp [hl])
  have hnodup := h.nodup
  rw [hl, List.nodup_append] at hnodup
  have hpl : p ∉ l := fun hm => hnodup.2.2 p hm p (List.mem_singleton.mpr rfl) rfl
  have hlast : s.sem.sleeplist.getLast? = some p := by simp [hl]
  have hdrop : s.sem.sleeplist.dropLast = l := by simp [hl]
  -- the ticket moves from the list to the granted ones
  have htickets : s.granted ++ [s.ticket p] ++ (l.map s.ticket).reverse
      = s.granted ++ (s.sem.sleeplist.map s.ticket).reverse := by
    rw [hl, List.map_append, List.map_singleton, List.reverse_append, List.reverse_singleton,
      List.append_assoc]
  constructor
  · simp only [postSem, if_pos hle, hlast, hdrop]
    exact congrArg some (activate_eq hp.1)
  · refine ⟨hnodup.1, fun q hq => ?_, fun q hq hq' => ?_, ?_, ?_, ?_, ?_⟩
    · have hqp : q ≠ p := fun hqp => hpl (hqp ▸ hq)
      simp only [wakeLast, Function.update_of_ne hqp]
      exact h.queued q (by simp only [wakeLast] at hq; simp [hl, hq])
    · by_cases hqp : q = p
      · simp [wakeLast, hqp]
      · simp only [wakeLast, Function.update_of_ne hqp] at hq ⊢
        refine h.marked q hq fun hm => hq' ?_
        rw [hl] at hm
        exact (List.mem_append.mp hm).resolve_right fun hm => hqp (List.mem_singleton.mp hm)
    · simp only [wakeLast]
      omega
    · simp only [wakeLast, List.length_append, List.length_singleton]
      omega
    · simp only [wakeLast]
      rw [htickets]
      exact h.order
    · simp only [wakeLast]
      rw [htickets]
      exact h.tickets

/-- `_post_sem` without waiters. -/
theorem postSem_nil (h : s.Inv val) (hnil : s.sem.sleeplist = []) :
    s.postSem = some { s with posts := s.posts + 1, sem := { s.sem with val := s.sem.val + 1 } } ∧
    ({ s with posts := s.posts + 1, sem := { s.sem with val := s.sem.val + 1 } } : SemState).Inv
      val := by
  have hlength := h.length
  have hpermits := h.permits
  rw [hnil, List.length_nil] at hlength hpermits
  have hpos : ¬ s.sem.val + 1 ≤ 0 := by omega
  constructor
  · simp only [postSem, if_neg hpos]
  · refine ⟨h.nodup, h.queued, h.marked, ?_, ?_, h.order, h.tickets⟩
    · simp only [hnil, List.length_nil]
      omega
    · simp only [hnil, List.length_nil]
      omega

/-- `_post_sem`: its assertion holds. -/
theorem inv_post (h : s.Inv val) : ∃ t, s.postSem = some t ∧ t.Inv val := by
  by_cases hnil : s.sem.sleeplist = []
  · exact ⟨_, postSem_nil h hnil⟩
  · exact ⟨_, postSem_append h (List.dropLast_append_getLast hnil).symm⟩

theorem inv_get (h : s.Inv val) : s.getSem.2.Inv val := by
  unfold getSem
  split
  · rename_i hpos
    exact inv_grantNext h hpos rfl
  · exact h

theorem inv_getAll (h : s.Inv val) : s.getAllSem.2.Inv val := by
  unfold getAllSem
  by_cases hpos : 0 < s.sem.val
  · rw [if_pos hpos]
    have hnil := h.sleeplist_eq_nil (Int.le_of_lt hpos)
    have hpermits := h.permits
    have horder := h.order
    have htickets := h.tickets
    have hnat : (s.sem.val.toNat : ℤ) = s.sem.val := Int.toNat_of_nonneg (Int.le_of_lt hpos)
    rw [hnil] at hpermits horder htickets
    rw [List.length_nil] at hpermits
    rw [List.map_nil, List.reverse_nil, List.append_nil] at horder htickets
    refine ⟨h.nodup, h.queued, h.marked, ?_, ?_, ?_, ?_⟩
    · simp [hnil]
    · simp only [hnil, List.length_append, List.length_range', List.length_nil]
      omega
    · simp only [hnil, List.map_nil, List.reverse_nil, List.append_nil]
      refine List.pairwise_append.mpr ⟨horder, List.pairwise_lt_range', fun a ha b hb => ?_⟩
      have hlt := htickets a ha
      have hle := (List.mem_range'_1.mp hb).1
      omega
    · simp only [hnil, List.map_nil, List.reverse_nil, List.append_nil]
      intro k hk
      rcases List.mem_append.mp hk with hk | hk
      · have hlt := htickets k hk
        omega
      · exact (List.mem_range'_1.mp hk).2
  · rw [if_neg hpos]
    exact h

/-- **`post_all_sem`** terminates: it wakes the waiters, from the tail of the list on,
and takes back the last post. -/
theorem postAllLoop_eq (h : s.Inv val) (ret : ℤ) :
    ∃ t, postAllLoop (s.sem.sleeplist.length + 1) ret s
        = some (ret + 1 + s.sem.sleeplist.length, t) ∧ t.Inv val ∧
      t.sem = ⟨max s.sem.val 0, []⟩ ∧
      (∀ p ∈ s.sem.sleeplist, t.pc p = .woken ∧ t.up p = true) ∧
      ∀ p ∉ s.sem.sleeplist, t.pc p = s.pc p ∧ t.up p = s.up p := by
  obtain ⟨n, hn⟩ : ∃ n, s.sem.sleeplist.length = n := ⟨_, rfl⟩
  induction n generalizing s ret with
  | zero =>
    have hnil := List.eq_nil_of_length_eq_zero hn
    have hlength := h.length
    have hval : 0 ≤ s.sem.val := by omega
    obtain ⟨hpost, hinv⟩ := postSem_nil h hnil
    have hpos : 0 < s.sem.val + 1 := by omega
    refine ⟨_, ?_, inv_get hinv, ?_, by simp [hnil], fun p _ => ?_⟩
    · simp only [hn, postAllLoop, hpost, getSem, if_pos hpos, if_true]
      simp
    · simp only [getSem, if_pos hpos, hnil, grantNext]
      rw [max_eq_left hval, add_sub_cancel_right]
    · simp only [getSem, if_pos hpos]
      exact ⟨rfl, rfl⟩
  | succ n ih =>
    have hne : s.sem.sleeplist ≠ [] := by
      intro hnil
      simp [hnil] at hn
    obtain ⟨l, p, hl⟩ : ∃ l p, s.sem.sleeplist = l ++ [p] :=
      ⟨_, _, (List.dropLast_append_getLast hne).symm⟩
    obtain ⟨hpost, hinv⟩ := postSem_append h hl
    have hlen : l.length = n := by
      simp only [hl, List.length_append, List.length_singleton] at hn
      omega
    have hlength := h.length
    have hget : ¬ 0 < (s.wakeLast l p).sem.val := by
      simp only [wakeLast]
      omega
    obtain ⟨t, hrun, ht, hsem, hin, hout⟩ := ih hinv (ret + 1) hlen
    have hnodup := h.nodup
    rw [hl, List.nodup_append] at hnodup
    have hpl : p ∉ l := fun hm => hnodup.2.2 p hm p (List.mem_singleton.mpr rfl) rfl
    have hlist : (s.wakeLast l p).sem.sleeplist = l := rfl
    rw [hlist] at hrun hin hout
    refine ⟨t, ?_, ht, ?_, fun q hq => ?_, fun q hq => ?_⟩
    · rw [hn, postAllLoop, hpost]
      simp only [getSem, if_neg hget, Bool.false_eq_true, if_false]
      rw [← hlen, hrun]
      congr 2
      push_cast
      omega
    · rw [hsem]
      simp only [wakeLast, Semaphore.mk.injEq, and_true]
      omega
    · rcases List.mem_append.mp (hl ▸ hq) with hq | hq
      · exact hin q hq
      · obtain rfl := List.mem_singleton.mp hq
        obtain ⟨hpc, hup⟩ := hout q hpl
        rw [hpc, hup]
        simp [wakeLast]
    · have hqp : q ≠ p := fun hqp => hq (by simp [hl, hqp])
      have hql : q ∉ l := fun hm => hq (by simp [hl, hm])
      obtain ⟨hpc, hup⟩ := hout q hql
      rw [hpc, hup]
      simp [wakeLast, hqp]

/-- `post_all_sem` returns how many processes waited and leaves nobody on the list. -/
theorem postAllSem_eq (h : s.Inv val) :
    ∃ t, s.postAllSem = some ((s.sem.sleeplist.length : ℤ), t) ∧ t.Inv val ∧
      t.sem = ⟨max s.sem.val 0, []⟩ ∧
      (∀ p ∈ s.sem.sleeplist, t.pc p = .woken ∧ t.up p = true) ∧
      ∀ p ∉ s.sem.sleeplist, t.pc p = s.pc p ∧ t.up p = s.up p := by
  obtain ⟨t, hrun, ht⟩ := postAllLoop_eq h (-1)
  refine ⟨t, ?_, ht⟩
  rw [postAllSem, hrun]
  simp

/-- Every section and every wake-up keeps the invariant. -/
theorem inv_step {l : SemCall} (h : s.Inv val) (hs : s.step l = some t) : t.Inv val := by
  cases l with
  | wait p alertable =>
    simp only [step] at hs
    split at hs
    · rename_i hp
      cases hs
      exact inv_wait h hp
    · cases hs
  | resume p =>
    simp only [step] at hs
    split at hs
    · rename_i hp
      obtain ⟨u, hu, hinv⟩ := inv_resume h hp
      exact Option.some.inj (hu.symm.trans hs) ▸ hinv
    · cases hs
  | alert p =>
    cases hs
    exact inv_alert h
  | post =>
    obtain ⟨u, hu, hinv⟩ := inv_post h
    exact Option.some.inj (hu.symm.trans hs) ▸ hinv
  | get =>
    cases hs
    exact inv_get h
  | getAll =>
    cases hs
    exact inv_getAll h
  | postAll =>
    obtain ⟨u, hu, hinv, -⟩ := postAllSem_eq h
    obtain ⟨r, hr, rfl⟩ := Option.map_eq_some_iff.mp hs
    exact Option.some.inj (hu.symm.trans hr) ▸ hinv

theorem inv_of_reachable (hval : 0 ≤ val)
    (h : (semSystem val).Reachable (fun _ _ => True) s) : s.Inv val :=
  h.induction (fun _ h => inv_init h hval) fun _ _ _ hi _ hs => inv_step hi hs

/-- What the functions of `sem.c` promise in state `s`. -/
structure Sound (val : ℤ) (s : SemState) : Prop where
  sleepers : (s.sem.sleeplist.length : ℤ) = max 0 (-s.sem.val)
  unmarked : ∀ p ∈ s.sem.sleeplist, s.up p = false
  permits : val + s.posts = s.sem.val + s.granted.length + s.sem.sleeplist.length
  /-- in arrival order -/
  granted : s.granted.Pairwise (· < ·)
  post : ∃ t, s.postSem = some t
  resume : ∀ p, s.pc p = .woken → ∃ t, s.resume p = some t
  getAll : s.getAllSem.1 = max s.sem.val 0 ∧ s.getAllSem.2.sem.val = min s.sem.val 0
  postAll : ∃ t, s.postAllSem = some ((s.sem.sleeplist.length : ℤ), t) ∧
    t.sem = ⟨max s.sem.val 0, []⟩ ∧
    (∀ p ∈ s.sem.sleeplist, t.pc p = .woken ∧ t.up p = true) ∧
    ∀ p ∉ s.sem.sleeplist, t.pc p = s.pc p ∧ t.up p = s.up p

end SemState

/-- **Semaphores are sound** in every interleaving of their sections and of alerts. -/
theorem sem_sound (val : ℤ) (hval : 0 ≤ val) (s : SemState)
    (h : (semSystem val).Reachable (fun _ _ => True) s) : s.Sound val := by
  have hi := SemState.inv_of_reachable hval h
  obtain ⟨t, hrun, -, hafter⟩ := SemState.postAllSem_eq hi
  refine ⟨hi.length, fun p hp => (hi.queued p hp).2, hi.permits,
    (List.pairwise_append.mp hi.order).1, ?_, fun p hp => ?_, ?_, t, hrun, hafter⟩
  · obtain ⟨u, hu, -⟩ := SemState.inv_post hi
    exact ⟨u, hu⟩
  · obtain ⟨u, hu, -⟩ := SemState.inv_resume hi hp
    exact ⟨u, hu⟩
  · unfold SemState.getAllSem
    by_cases hpos : 0 < s.sem.val
    · rw [if_pos hpos]
      exact ⟨(max_eq_left (Int.le_of_lt hpos)).symm, (min_eq_right (Int.le_of_lt hpos)).symm⟩
    · rw [if_neg hpos]
      exact ⟨(max_eq_right (Int.not_lt.mp hpos)).symm, (min_eq_left (Int.not_lt.mp hpos)).symm⟩

/-- A waiter that has been alerted and is then overtaken by a post, and one that is
interrupted. -/
theorem sem_sound_two : ∃ s : SemState, s.granted = [0] ∧ s.sem = ⟨-1, [1]⟩ ∧ s.Sound 0 := by
  have hrun : ((semSystem 0).exec (fun _ _ => True) (.new 0)
      [.wait 0 true, .wait 1 true, .wait 2 true, .alert 0, .alert 2, .resume 2, .post,
        .resume 0]).map (fun s => (s.granted, s.sem)) = some ([0], ⟨-1, [1]⟩) := by
    decide
  obtain ⟨s, hs, heq⟩ := Option.map_eq_some_iff.mp hrun
  exact ⟨s, (Prod.mk.inj heq).1, (Prod.mk.inj heq).2, sem_sound 0 (by decide) s
    ⟨_, SemState.init_new 0, System.leads_of_exec hs⟩⟩

end OsLab
