/-
The kernel stacks of the processes (`init_proc`, `exit` and `wait` of `kernel/proc.c`,
`kalloc_page` and `kfree_page` of `kernel/mem.c`).

A step is one section under `treelock`, under the scheduler lock or under `page_lock`; the
other users of pages allocate, share and free them at any time.

* `PageMem.Refs` — the counters agree with a list of all references to pages;
* `KstackState.Owned` — the stack of a process that may run again is its own, and a stack is
  given back by a process that does not run any more;
* `kstack_owned` — so it is as long as no process calls `exit`; every `exit` gives the stack
  back while its process runs on it;
* `kstack_shared` — another user can get the page then.
-/
import OsLab.Kernel.Pages
import OsLab.Kernel.Sched
import Mathlib.Data.List.Perm.Basic

namespace OsLab

namespace PageMem

/-! ### References -/

variable {m m' : PageMem} {pool held held' : List Addr} {p q : Addr}

/-- The pages of `pool`, and the references to them, each as often as it is held. -/
structure Refs (pool held : List Addr) (m : PageMem) : Prop where
  index : ∀ p ∈ pool, ∀ q ∈ pool, pageIndex p = pageIndex q → p = q
  zero : m.zero ∉ pool
  nodup : m.free.Nodup
  free_pool : ∀ p ∈ m.free, p ∈ pool
  held_pool : ∀ p ∈ held, p ∈ pool
  not_free : ∀ p ∈ held, p ∉ m.free
  ref : ∀ p ∈ held, m.ref (pageIndex p) = held.count p

theorem Refs.perm (h : Refs pool held m) (hperm : held.Perm held') : Refs pool held' m :=
  { h with
    held_pool := fun p hp => h.held_pool p (hperm.mem_iff.mpr hp)
    not_free := fun p hp => h.not_free p (hperm.mem_iff.mpr hp)
    ref := fun p hp => by rw [← hperm.count_eq p]; exact h.ref p (hperm.mem_iff.mpr hp) }

/-- `kalloc_page` gives out a page that nobody holds. -/
theorem Refs.kallocPage (h : Refs pool held m) (hs : m.kallocPage = some (p, m')) :
    Refs pool (p :: held) m' ∧ p ∉ held := by
  unfold PageMem.kallocPage at hs
  split at hs
  · cases hs
  · rename_i q free hfree
    cases hs
    have hq : p ∈ m.free := by rw [hfree]; exact List.mem_cons_self
    have hnew : p ∉ held := fun hmem => h.not_free p hmem hq
    have hnodup := h.nodup
    rw [hfree] at hnodup
    obtain ⟨hpf, hnodup⟩ := List.nodup_cons.mp hnodup
    have hsub : ∀ q ∈ free, q ∈ m.free := fun q hm => by rw [hfree]; exact List.mem_cons_of_mem p hm
    refine ⟨{ index := h.index, zero := h.zero, nodup := hnodup
              free_pool := fun q hm => h.free_pool q (hsub q hm)
              held_pool := fun q hm => ?_, not_free := fun q hm => ?_, ref := fun q hm => ?_ }, hnew⟩
    · rcases List.mem_cons.mp hm with rfl | hm
      · exact h.free_pool q hq
      · exact h.held_pool q hm
    · rcases List.mem_cons.mp hm with rfl | hm
      · exact hpf
      · exact fun hf => h.not_free q hm (hsub q hf)
    · show Function.update m.ref (pageIndex p) 1 (pageIndex q) = _
      rcases List.mem_cons.mp hm with rfl | hm
      · rw [Function.update_self, List.count_cons_self, List.count_eq_zero.mpr hnew]
        rfl
      · have hqp : q ≠ p := fun heq => hnew (heq ▸ hm)
        have hidx : pageIndex q ≠ pageIndex p := fun heq =>
          hqp (h.index q (h.held_pool q hm) p (h.free_pool p hq) heq)
        rw [Function.update_of_ne hidx, List.count_cons_of_ne hqp.symm]
        exact h.ref q hm

/-- `ref_page` by somebody who holds the page. -/
theorem Refs.refPage (h : Refs pool held m) (hp : p ∈ held) :
    Refs pool (p :: held) (m.refPage p) := by
  refine { h with
    held_pool := fun q hm => ?_, not_free := fun q hm => ?_, ref := fun q hm => ?_ }
  · rcases List.mem_cons.mp hm with rfl | hm
    · exact h.held_pool q hp
    · exact h.held_pool q hm
  · rcases List.mem_cons.mp hm with rfl | hm
    · exact h.not_free q hp
    · exact h.not_free q hm
  · show Function.update m.ref (pageIndex p) (m.ref (pageIndex p) + 1) (pageIndex q) = _
    by_cases hqp : q = p
    · subst hqp
      rw [Function.update_self, List.count_cons_self, h.ref q hp]
      push_cast
      rfl
    · have hm' : q ∈ held := (List.mem_cons.mp hm).resolve_left hqp
      have hidx : pageIndex q ≠ pageIndex p := fun heq =>
        hqp (h.index q (h.held_pool q hm') p (h.held_pool p hp) heq)
      rw [Function.update_of_ne hidx, List.count_cons_of_ne (Ne.symm hqp)]
      exact h.ref q hm'

/-- `kfree_page` by somebody who holds the page puts it back with its last reference. -/
theorem Refs.kfreePage (h : Refs pool held m) (hp : p ∈ held) :
    Refs pool (held.erase p) (m.kfreePage p) := by
  have hsub : ∀ q ∈ held.erase p, q ∈ held := fun q hq => List.mem_of_mem_erase hq
  have hcount : (m.ref (pageIndex p) - 1 : ℤ) = (held.erase p).count p := by
    rw [h.ref p hp, List.count_erase_self]
    have hpos := List.count_pos_iff.mpr hp
    omega
  have hothers : ∀ q ∈ held.erase p, q ≠ p →
      Function.update m.ref (pageIndex p) (m.ref (pageIndex p) - 1) (pageIndex q)
        = (held.erase p).count q := by
    intro q hq hqp
    have hidx : pageIndex q ≠ pageIndex p := fun heq =>
      hqp (h.index q (h.held_pool q (hsub q hq)) p (h.held_pool p hp) heq)
    rw [Function.update_of_ne hidx, List.count_erase_of_ne hqp]
    exact h.ref q (hsub q hq)
  unfold PageMem.kfreePage
  simp only [Function.update_self, hcount]
  split
  · rename_i hlast
    have hgone : p ∉ held.erase p := by
      have hzero := hlast.1
      norm_cast at hzero
      exact List.count_eq_zero.mp hzero
    refine { index := h.index, zero := h.zero
             nodup := List.nodup_cons.mpr ⟨h.not_free p hp, h.nodup⟩
             free_pool := fun q hq => ?_, held_pool := fun q hq => h.held_pool q (hsub q hq)
             not_free := fun q hq => ?_, ref := fun q hq => ?_ }
    · rcases List.mem_cons.mp hq with rfl | hq
      · exact h.held_pool q hp
      · exact h.free_pool q hq
    · have hqp : q ≠ p := by
        rintro rfl
        exact hgone hq
      exact fun hf => h.not_free q (hsub q hq) ((List.mem_cons.mp hf).resolve_left hqp)
    · have hqp : q ≠ p := by
        rintro rfl
        exact hgone hq
      have hq' := hothers q hq hqp
      rw [hcount] at hq'
      exact hq'
  · refine { h with
      held_pool := fun q hq => h.held_pool q (hsub q hq)
      not_free := fun q hq => h.not_free q (hsub q hq)
      ref := fun q hq => ?_ }
    by_cases hqp : q = p
    · rw [hqp]
      exact Function.update_self _ _ _
    · have hq' := hothers q hq hqp
      rw [hcount] at hq'
      exact hq'

end PageMem

/-! ### Processes and their stacks -/

/-- The scheduler, the pages, and the processes in the order of their creation. -/
structure KstackState where
  sched : SchedState
  mem : PageMem
  /-- how many processes have been created -/
  next : ℕ
  /-- `p->kstack` -/
  kstack : ℕ → Addr
  /-- the references that other users of pages have -/
  others : List Addr
  /-- `exit` has called `kfree_page(this->kstack)` -/
  given : ℕ → Bool
  /-- `wait` has freed the process -/
  reaped : ℕ → Bool

inductive KstackStep
  /-- `create_proc` -/
  | create
  /-- `activate_proc` at the end of `start_proc` -/
  | start (n : ℕ)
  /-- `_sched` with one of the states that a process takes before `exit` -/
  | sched (cpu : Cpu) (new : ProcState)
  /-- a process is woken or alerted -/
  | wake (n : ℕ) (onalert : Bool)
  /-- the section of `exit` under `treelock`, by the process of the CPU -/
  | exit (cpu : Cpu)
  /-- its `_sched(ZOMBIE)` -/
  | exitSched (cpu : Cpu)
  /-- `wait` reaps the process -/
  | wait (n : ℕ)
  /-- `kalloc_page`, `ref_page` and `kfree_page` for other purposes -/
  | kalloc
  | ref (p : Addr)
  | kfree (p : Addr)

namespace KstackState

def step (s : KstackState) : KstackStep → Option KstackState
  | .create => s.mem.kallocPage.map fun r => { s with
      mem := r.2
      kstack := Function.update s.kstack s.next r.1
      next := s.next + 1 }
  | .start n =>
    if n < s.next ∧ s.sched.state (.task n) = .unused then
      some { s with sched := (s.sched.activate (.task n) false).2 }
    else none
  | .sched cpu new =>
    if new = .runnable ∨ new = .sleeping ∨ new = .deepSleeping then
      (s.sched.simpleSched cpu new).map fun sched => { s with sched := sched }
    else none
  | .wake n onalert =>
    if s.sched.state (.task n) ≠ .unused then
      some { s with sched := (s.sched.activate (.task n) onalert).2 }
    else none
  | .exit cpu =>
    match s.sched.thisproc cpu with
    | .task n =>
      if n < s.next ∧ s.sched.state (.task n) = .running ∧ s.given n = false then
        some { s with
          mem := s.mem.kfreePage (s.kstack n)
          given := Function.update s.given n true }
      else none
    | .idle _ => none
  | .exitSched cpu =>
    match s.sched.thisproc cpu with
    | .task n =>
      if s.given n then
        (s.sched.simpleSched cpu .zombie).map fun sched => { s with sched := sched }
      else none
    | .idle _ => none
  | .wait n =>
    if s.sched.state (.task n) = .zombie ∧ s.reaped n = false then
      some { s with reaped := Function.update s.reaped n true }
    else none
  | .kalloc => s.mem.kallocPage.map fun r => { s with mem := r.2, others := r.1 :: s.others }
  | .ref p =>
    if p ∈ s.others then some { s with mem := s.mem.refPage p, others := p :: s.others } else none
  | .kfree p =>
    if p ∈ s.others then
      some { s with mem := s.mem.kfreePage p, others := s.others.erase p }
    else none

/-- `RUNNING`, `RUNNABLE` or asleep -/
def Alive (s : KstackState) (n : ℕ) : Prop :=
  n < s.next ∧ s.sched.state (.task n) ≠ .unused ∧ s.sched.state (.task n) ≠ .zombie

/-- The stack of a process is allocated and is its own until the process has switched away
for the last time. -/
def Owned (s : KstackState) : Prop :=
  (∀ n, s.Alive n → s.mem.ref (pageIndex (s.kstack n)) = 1 ∧ s.kstack n ∉ s.mem.free ∧
    s.kstack n ∉ s.others ∧ ∀ k, k < s.next → k ≠ n → s.given k = false →
      s.kstack k ≠ s.kstack n) ∧
  ∀ n, s.given n = true → s.sched.state (.task n) = .zombie

/-- The step is no `exit`. -/
def NoExit (_ : KstackState) : KstackStep → Prop
  | .exit _ => False
  | _ => True

instance (s : KstackState) (l : KstackStep) : Decidable (s.NoExit l) := by
  unfold NoExit
  split <;> infer_instance

/-- The stacks of the processes. -/
def kstacks (s : KstackState) : List Addr := (List.range s.next).map s.kstack

end KstackState

/-- The free pages `pool`, and no process. -/
def kstackSystem (pool : List Addr) : System KstackState KstackStep where
  init s := schedSystem.init s.sched ∧ s.mem.Refs pool [] ∧ s.next = 0 ∧ s.others = [] ∧
    ∀ n, s.given n = false
  step := KstackState.step

namespace KstackState

variable {pool : List Addr} {s t : KstackState}

/-- What holds as long as nobody calls `exit`. -/
structure Inv (pool : List Addr) (s : KstackState) : Prop where
  refs : s.mem.Refs pool (s.kstacks ++ s.others)
  nodup : s.kstacks.Nodup
  disjoint : ∀ p ∈ s.kstacks, p ∉ s.others
  given : ∀ n, s.given n = false

theorem Inv.step {l : KstackStep} (h : s.Inv pool) (hok : s.NoExit l) (hs : s.step l = some t) :
    t.Inv pool := by
  cases l with
  | create =>
    obtain ⟨⟨p, mem⟩, hpage, rfl⟩ := Option.map_eq_some_iff.mp hs
    obtain ⟨hrefs, hnew⟩ := h.refs.kallocPage hpage
    obtain ⟨hps, hpo⟩ := not_or.mp (mt List.mem_append.mpr hnew)
    have hstacks : (List.range (s.next + 1)).map (Function.update s.kstack s.next p)
        = s.kstacks ++ [p] := by
      rw [List.range_succ, List.map_append, List.map_singleton, Function.update_self]
      refine congrArg (· ++ [p]) (List.map_congr_left fun n hn => ?_)
      exact Function.update_of_ne (Nat.ne_of_lt (List.mem_range.mp hn)) _ _
    refine ⟨?_, ?_, fun q hq => ?_, h.given⟩
    · show mem.Refs pool ((List.range (s.next + 1)).map _ ++ s.others)
      rw [hstacks]
      refine hrefs.perm ?_
      rw [List.append_assoc]
      exact List.perm_middle.symm
    · show ((List.range (s.next + 1)).map _).Nodup
      rw [hstacks]
      refine List.nodup_append.mpr ⟨h.nodup, by simp, fun a ha b hb => ?_⟩
      rw [List.mem_singleton.mp hb]
      rintro rfl
      exact hps ha
    · have hq' : q ∈ s.kstacks ++ [p] := hstacks ▸ hq
      rcases List.mem_append.mp hq' with hq' | hq'
      · exact h.disjoint q hq'
      · rw [List.mem_singleton.mp hq']
        exact hpo
  | start n =>
    simp only [KstackState.step] at hs
    split at hs
    · cases hs
      exact ⟨h.refs, h.nodup, h.disjoint, h.given⟩
    · cases hs
  | sched cpu new =>
    simp only [KstackState.step] at hs
    split at hs
    · obtain ⟨sched, -, rfl⟩ := Option.map_eq_some_iff.mp hs
      exact ⟨h.refs, h.nodup, h.disjoint, h.given⟩
    · cases hs
  | wake n onalert =>
    simp only [KstackState.step] at hs
    split at hs
    · cases hs
      exact ⟨h.refs, h.nodup, h.disjoint, h.given⟩
    · cases hs
  | exit cpu => exact hok.elim
  | exitSched cpu =>
    simp only [KstackState.step] at hs
    split at hs
    · split at hs
      · rename_i n _ hgiven
        rw [h.given n] at hgiven
        cases hgiven
      · cases hs
    · cases hs
  | wait n =>
    simp only [KstackState.step] at hs
    split at hs
    · cases hs
      exact ⟨h.refs, h.nodup, h.disjoint, h.given⟩
    · cases hs
  | kalloc =>
    obtain ⟨⟨p, mem⟩, hpage, rfl⟩ := Option.map_eq_some_iff.mp hs
    obtain ⟨hrefs, hnew⟩ := h.refs.kallocPage hpage
    refine ⟨hrefs.perm List.perm_middle.symm, h.nodup, fun q hq hm => ?_, h.given⟩
    rcases List.mem_cons.mp hm with rfl | hm
    · exact hnew (List.mem_append_left _ hq)
    · exact h.disjoint q hq hm
  | ref p =>
    simp only [KstackState.step] at hs
    split at hs
    · rename_i hp
      cases hs
      have hrefs := h.refs.refPage (List.mem_append_right s.kstacks hp)
      refine ⟨hrefs.perm List.perm_middle.symm, h.nodup, fun q hq hm => ?_, h.given⟩
      rcases List.mem_cons.mp hm with rfl | hm
      · exact h.disjoint q hq hp
      · exact h.disjoint q hq hm
    · cases hs
  | kfree p =>
    simp only [KstackState.step] at hs
    split at hs
    · rename_i hp
      cases hs
      have hrefs := h.refs.kfreePage (List.mem_append_right s.kstacks hp)
      rw [List.erase_append_right _ fun hstack => h.disjoint p hstack hp] at hrefs
      exact ⟨hrefs, h.nodup, fun q hq hm => h.disjoint q hq (List.mem_of_mem_erase hm), h.given⟩
    · cases hs

theorem Inv.owned (h : s.Inv pool) : s.Owned := by
  refine ⟨fun n hn => ?_, fun n hgiven => ?_⟩
  · have hmem : s.kstack n ∈ s.kstacks := List.mem_map_of_mem (List.mem_range.mpr hn.1)
    have hheld := List.mem_append_left s.others hmem
    have hother := h.disjoint _ hmem
    refine ⟨?_, h.refs.not_free _ hheld, hother, fun k hk hkn _ heq => ?_⟩
    · rw [h.refs.ref _ hheld, List.count_append, List.count_eq_one_of_mem h.nodup hmem,
        List.count_eq_zero.mpr hother]
      rfl
    · exact hkn (List.inj_on_of_nodup_map h.nodup (List.mem_range.mpr hk)
        (List.mem_range.mpr hn.1) heq)
  · rw [h.given n] at hgiven
    cases hgiven

end KstackState

/-- **Kernel stacks are owned** as long as no process calls `exit`; and every `exit`, in any
state, gives a stack back while its process runs on it. -/
theorem kstack_owned (pool : List Addr) (s : KstackState)
    (h : (kstackSystem pool).Reachable KstackState.NoExit s) :
    s.Owned ∧ ∀ cpu t, s.step (.exit cpu) = some t → ¬t.Owned := by
  refine ⟨?_, fun cpu t hs howned => ?_⟩
  · refine (h.induction (I := KstackState.Inv pool) ?_ fun _ _ _ hinv hok hs => hinv.step hok hs).owned
    rintro s ⟨-, hrefs, hnext, hothers, hgiven⟩
    refine ⟨?_, ?_, ?_, hgiven⟩
    · simp only [KstackState.kstacks, hnext, hothers]
      exact hrefs
    · simp [KstackState.kstacks, hnext]
    · simp [hothers]
  · simp only [KstackState.step] at hs
    split at hs
    · rename_i n hn
      split at hs
      · rename_i hrun
        cases hs
        have hzombie := howned.2 n (Function.update_self _ _ _)
        rw [show s.sched.state (.task n) = _ from hrun.2.1] at hzombie
        cases hzombie
      · cases hs
    · cases hs

/-- Three free pages. -/
def KstackState.bootPool : List Addr := [p2k 0x81000, p2k 0x82000, p2k 0x83000]

def KstackState.boot : KstackState where
  sched := .boot
  mem := { free := bootPool, ref := fun _ => 0, allocated := 0, zero := 0, words := fun _ _ => 0 }
  next := 0
  kstack _ := 0
  others := []
  given _ := false
  reaped _ := false

theorem KstackState.init_boot : (kstackSystem bootPool).init .boot := by
  refine ⟨SchedState.init_boot, ?_, rfl, rfl, fun _ => rfl⟩
  refine { index := fun p hp q hq heq => ?_, zero := by decide, nodup := by decide
           free_pool := fun _ hp => hp, held_pool := nofun, not_free := nofun, ref := nofun }
  simp only [bootPool, List.mem_cons, List.not_mem_nil, or_false] at hp hq
  rcases hp with rfl | rfl | rfl <;> rcases hq with rfl | rfl | rfl <;>
    first
      | rfl
      | exact absurd heq (by decide)

/-- Two processes run, and a third page is in use. -/
theorem kstack_owned_two : ∃ s : KstackState, s.sched.state (.task 0) = .running ∧
    s.sched.state (.task 1) = .running ∧ s.others.length = 1 ∧ s.Owned := by
  have hrun : ((kstackSystem KstackState.bootPool).exec KstackState.NoExit .boot
      [.create, .start 0, .sched 0 .runnable, .create, .start 1, .kalloc, .sched 1 .runnable]).map
      (fun s => (s.sched.state (.task 0), s.sched.state (.task 1), s.others.length)) =
      some (.running, .running, 1) := by
    decide
  obtain ⟨s, hs, heq⟩ := Option.map_eq_some_iff.mp hrun
  obtain ⟨hzero, heq⟩ := Prod.mk.inj heq
  obtain ⟨hone, hothers⟩ := Prod.mk.inj heq
  exact ⟨s, hzero, hone, hothers, (kstack_owned KstackState.bootPool s
    ⟨_, KstackState.init_boot, System.leads_of_exec hs⟩).1⟩

/-- **A running process has lost its stack**: it is in `exit`, and another user of pages has
allocated the page. -/
theorem kstack_shared : ∃ s : KstackState,
    (kstackSystem KstackState.bootPool).Reachable (fun _ _ => True) s ∧
    s.sched.state (.task 1) = .running ∧ s.kstack 1 ∈ s.others ∧ ¬s.Owned := by
  have hrun : ((kstackSystem KstackState.bootPool).exec (fun _ _ => True) .boot
      [.create, .start 0, .sched 0 .runnable, .create, .start 1, .sched 1 .runnable, .exit 1,
        .kalloc]).map
      (fun s => (s.sched.state (.task 1), decide (s.kstack 1 ∈ s.others), s.next)) =
      some (.running, true, 2) := by
    decide
  obtain ⟨s, hs, heq⟩ := Option.map_eq_some_iff.mp hrun
  obtain ⟨hstate, heq⟩ := Prod.mk.inj heq
  obtain ⟨hmem, hnext⟩ := Prod.mk.inj heq
  have hshared := of_decide_eq_true hmem
  refine ⟨s, ⟨_, KstackState.init_boot, System.leads_of_exec hs⟩, hstate, hshared, fun howned => ?_⟩
  refine (howned.1 1 ⟨?_, ?_, ?_⟩).2.2.1 hshared
  · rw [hnext]
    exact Nat.lt_succ_self 1
  · rw [hstate]
    simp
  · rw [hstate]
    simp

end OsLab
