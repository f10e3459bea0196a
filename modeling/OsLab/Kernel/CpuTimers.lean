/-
The timers of the CPUs (`kernel/cpu.c`), which `kernel/sched.c` sets and cancels.

A CPU has the timer of the process that it runs and its hello timer in a red-black tree.
A state has the scheduler, the nodes of all timers and the roots of all trees; a step is a
call under the scheduler lock, one pass of the loop of the clock interrupt, the start of a CPU
or the creation of a process.

* `timers_kept_iff` — a step drops no timer, and cancels only what is in the tree, exactly
  when it is not the first call of `_sched` on its CPU;
* `timers_dropped` — at that call the idle process runs, whose timer has never been set,
  and the hello timer is lost.
-/
import OsLab.Common.Rbtree
import OsLab.Kernel.Sched

namespace OsLab

/-- `hello_timer[c]`, or `p->schinfo.t`. -/
inductive Timer
  | hello (c : Cpu)
  | ofProc (p : Proc)
  deriving DecidableEq, Repr

/-- `elapse`: 5000 and `ELAPSE` -/
def Timer.elapse : Timer → BitVec 64
  | .hello _ => 5000
  | .ofProc _ => 7

/-- The scheduler, the timers and the CPUs. -/
structure TimerState where
  sched : SchedState
  /-- `_node` -/
  node : Timer → RbNode Timer
  /-- `cpus[c].timer` -/
  root : Cpu → Option Timer
  triggered : Timer → Bool
  /-- `_key` -/
  key : Timer → BitVec 64
  online : Cpu → Bool
  /-- the handler `interrupt` is about to call `_sched` -/
  interrupted : Cpu → Bool
  /-- the timers set on the CPU that have neither been cancelled nor fired -/
  pending : Cpu → Finset Timer
  /-- the calls of `_sched` on the CPU -/
  calls : Cpu → ℕ

/-- The steps; `now` and `later` are readings of `get_timestamp_ms`. -/
inductive TimerCall
  /-- `set_cpu_on` -/
  | on (c : Cpu) (now : BitVec 64)
  /-- `init_schinfo` for process `n`; `kalloc` leaves `junk` in `_node` -/
  | create (n : ℕ) (junk : RbNode Timer)
  | activate (p : Proc) (onalert : Bool)
  | sched (c : Cpu) (new : ProcState) (now : BitVec 64)
  /-- one pass of the loop of `timer_clock_handler` -/
  | clock (c : Cpu) (now later : BitVec 64)

namespace TimerState

/-- `__timer_cmp`, for timers at the addresses `addr`. -/
def timerCmp (addr : Timer → ℕ) (key : Timer → BitVec 64) (l r : Timer) : Bool :=
  let d := key l - key r
  if d.slt 0 then true else if d = 0 then decide (addr l < addr r) else false

/-- The tree of a CPU. -/
def tree (s : TimerState) (c : Cpu) : RbTree Timer := ⟨s.node, s.root c⟩

/-- `t` is in the tree of `c`. -/
def InTree (s : TimerState) (c : Cpu) (t : Timer) : Prop := (s.tree c).Linked t

/-- `thisproc()->schinfo.t` -/
def thisTimer (s : TimerState) (c : Cpu) : Timer := .ofProc (s.sched.thisproc c)

/-- `set_cpu_timer` on CPU `c`. -/
def setCpuTimer (addr : Timer → ℕ) (s : TimerState) (c : Cpu) (t : Timer) (now : BitVec 64) :
    Option TimerState :=
  let key := Function.update s.key t (now + t.elapse)
  ((s.tree c).insert (timerCmp addr key) t).bind fun r =>
    if r.1 = 0 then some
      { s with
        triggered := Function.update s.triggered t false
        key := key
        node := r.2.node
        root := Function.update s.root c r.2.root
        pending := Function.update s.pending c (insert t (s.pending c)) }
    else none

/-- `cancel_cpu_timer` on CPU `c`. -/
def cancelCpuTimer (s : TimerState) (c : Cpu) (t : Timer) : Option TimerState :=
  if s.triggered t then none
  else ((s.tree c).erase t).map fun m =>
    { s with
      node := m.node
      root := Function.update s.root c m.root
      pending := Function.update s.pending c ((s.pending c).erase t) }

/-- `simple_sched` on CPU `c`: the timer of the process that runs is cancelled unless it has
triggered, and that of the next one is set. -/
def simpleSched (addr : Timer → ℕ) (s : TimerState) (c : Cpu) (new : ProcState)
    (now : BitVec 64) : Option TimerState :=
  (s.sched.simpleSched c new).bind fun sched =>
    (if s.triggered (s.thisTimer c) = false then s.cancelCpuTimer c (s.thisTimer c)
      else some s).bind fun s =>
        { s with sched := sched }.setCpuTimer addr c (.ofProc (sched.thisproc c)) now

/-- One pass of the loop of `timer_clock_handler`. -/
def clockPass (addr : Timer → ℕ) (s : TimerState) (c : Cpu) (now later : BitVec 64) :
    Option TimerState :=
  (s.tree c).first.bind fun
    | none => some s
    | some t =>
      if now < s.key t then some s
      else (s.cancelCpuTimer c t).bind fun s =>
        let s := { s with triggered := Function.update s.triggered t true }
        match t with
        | .hello _ => s.setCpuTimer addr c (.hello c) later
        | .ofProc _ => some { s with interrupted := Function.update s.interrupted c true }

/-- One step.  The callers of `_sched` and `_activate_proc` keep to `SchedState.Legal`, and
`interrupt` passes `RUNNABLE`. -/
def step (addr : Timer → ℕ) (s : TimerState) : TimerCall → Option TimerState
  | .on c now =>
    if s.online c then none
    else (s.setCpuTimer addr c (.hello c) now).map fun s =>
      { s with online := Function.update s.online c true }
  | .create n junk =>
    if s.sched.state (.task n) = .unused then some
      { s with
        node := Function.update s.node (.ofProc (.task n)) junk
        triggered := Function.update s.triggered (.ofProc (.task n)) false }
    else none
  | .activate p onalert =>
    if s.sched.Legal (.activate p onalert) then
      some { s with sched := (s.sched.activate p onalert).2 }
    else none
  | .sched c new now =>
    if s.online c ∧ s.sched.Legal (.sched c new) ∧ (s.interrupted c → new = .runnable) then
      (s.simpleSched addr c new now).map fun s =>
        { s with
          interrupted := Function.update s.interrupted c false
          calls := Function.update s.calls c (s.calls c + 1) }
    else none
  | .clock c now later =>
    if s.online c ∧ s.interrupted c = false then s.clockPass addr c now later else none

end TimerState

/-- Kernel start: `define_init(idle)` has been run, on memory that is zero. -/
structure TimerStart (s : TimerState) : Prop where
  sched : schedSystem.init s.sched
  idle : ∀ c, s.node (.ofProc (.idle c)) = .zero ∧ s.triggered (.ofProc (.idle c)) = false
  hello : ∀ c, s.node (.hello c) = .zero ∧ s.triggered (.hello c) = false
  root : ∀ c, s.root c = none
  online : ∀ c, s.online c = false
  interrupted : ∀ c, s.interrupted c = false
  pending : ∀ c, s.pending c = ∅
  calls : ∀ c, s.calls c = 0

def timerSystem (addr : Timer → ℕ) : System TimerState TimerCall where
  init := TimerStart
  step := TimerState.step addr

namespace TimerState

/-- The timers that a step passes to `cancel_cpu_timer`. -/
def Cancels (s : TimerState) : TimerCall → Cpu → Timer → Prop
  | .sched c _ _, d, t => d = c ∧ t = s.thisTimer c ∧ s.triggered t = false
  | .clock c now _, d, t => d = c ∧ (s.tree c).first = some (some t) ∧ ¬now < s.key t
  | _, _, _ => False

/-- The step cancels only what is in the tree of its CPU, and every other timer stays where it
is. -/
def Keeps (s t : TimerState) (l : TimerCall) : Prop :=
  (∀ c u, s.Cancels l c u → s.InTree c u) ∧
  ∀ c u, s.InTree c u → ¬s.Cancels l c u → t.InTree c u

/-- The first call of `_sched` on a CPU. -/
def First (s : TimerState) : TimerCall → Prop
  | .sched c _ _ => s.calls c = 0
  | _ => False

/-- The tree has exactly the timer of the process that runs, unless it has triggered, and the
other timers that are pending. -/
def Exact (s : TimerState) (c : Cpu) : Prop :=
  ∀ t, s.InTree c t ↔ if t = s.thisTimer c then s.triggered t = false else t ∈ s.pending c

/-! ### The invariant -/

/-- What is in the trees: the hello timer before the first call of `_sched`, and after it the
timer of the process that runs. -/
structure Inv (s : TimerState) : Prop where
  sched : s.sched.WellFormed
  root : ∀ c, s.root c = if s.calls c = 0 then (if s.online c then some (.hello c) else none)
    else if s.triggered (s.thisTimer c) then none else some (s.thisTimer c)
  bare : ∀ c t, s.root c = some t → (s.node t).Bare
  /-- the timer of the idle process is set by `_sched` only -/
  idle : ∀ c, s.calls c = 0 → s.sched.thisproc c = .idle c ∧
    (s.node (.ofProc (.idle c))).Bare ∧ s.triggered (.ofProc (.idle c)) = false
  online : ∀ c, s.calls c ≠ 0 → s.online c = true
  pending : ∀ c, s.online c = true → .hello c ∈ s.pending c

variable {addr : Timer → ℕ} {s t : TimerState} {c d : Cpu} {new : ProcState} {u : Timer}
  {now later : BitVec 64}

theorem hello_ne {p : Proc} : Timer.hello c ≠ .ofProc p := by
  rintro ⟨⟩

theorem update_hello (c : Cpu) {p : Proc} (f : Timer → Bool) (b : Bool) :
    Function.update f (.hello c) b (.ofProc p) = f (.ofProc p) :=
  Function.update_of_ne hello_ne.symm _ _

theorem bare_zero : (RbNode.zero : RbNode Timer).Bare := ⟨rfl, rfl, rfl⟩

theorem Inv.of_start (h : TimerStart s) : s.Inv := by
  refine ⟨SchedState.wellFormed_init h.sched, fun c => ?_, fun c t ht => ?_, fun c _ => ?_,
    fun c hc => ?_, fun c hc => ?_⟩
  · rw [h.root, if_pos (h.calls c), h.online]
    rfl
  · rw [h.root] at ht
    cases ht
  · refine ⟨(h.sched.1 c).2, ?_, (h.idle c).2⟩
    rw [(h.idle c).1]
    exact bare_zero
  · exact absurd (h.calls c) hc
  · rw [h.online] at hc
    cases hc

/-- A tree has its root and nothing else. -/
theorem Inv.inTree_iff (h : s.Inv) : s.InTree c u ↔ s.root c = some u :=
  RbTree.linked_iff (m := s.tree c) fun t ht => h.bare c t ht

/-- The timer of the process that runs has no links, whether it has been set or not. -/
theorem Inv.bare_this (h : s.Inv) (htrig : s.triggered (s.thisTimer c) = false) :
    (s.node (s.thisTimer c)).Bare := by
  by_cases hcalls : s.calls c = 0
  · obtain ⟨hthis, hbare, -⟩ := h.idle c hcalls
    rw [thisTimer, hthis]
    exact hbare
  · have hroot := h.root c
    rw [if_neg hcalls, htrig] at hroot
    exact h.bare c _ hroot

/-! ### The functions -/

/-- `cancel_cpu_timer` of a timer without links clears the tree. -/
theorem cancelCpuTimer_bare (htrig : s.triggered u = false) (hbare : (s.node u).Bare) :
    s.cancelCpuTimer c u = some
      { s with
        root := Function.update s.root c none
        pending := Function.update s.pending c ((s.pending c).erase u) } := by
  have herase : (s.tree c).erase u = some { s.tree c with root := none } :=
    RbTree.erase_bare hbare
  rw [cancelCpuTimer, htrig, herase]
  rfl

/-- `set_cpu_timer` on a CPU with an empty tree. -/
theorem setCpuTimer_empty (hroot : s.root c = none) : s.setCpuTimer addr c u now = some
    { s with
      triggered := Function.update s.triggered u false
      key := Function.update s.key u (now + u.elapse)
      node := Function.update s.node u ⟨none, true, none, none⟩
      root := Function.update s.root c (some u)
      pending := Function.update s.pending c (insert u (s.pending c)) } := by
  have hinsert : ∀ cmp, (s.tree c).insert cmp u = some (0,
      { node := Function.update s.node u ⟨none, true, none, none⟩, root := some u }) :=
    fun _ => RbTree.insert_empty hroot
  rw [setCpuTimer, hinsert]
  rfl

/-- The first part of `simple_sched` leaves an empty tree. -/
theorem Inv.cancel_this (h : s.Inv) : ∃ P, (.hello c ∈ s.pending c → .hello c ∈ P) ∧
    (if s.triggered (s.thisTimer c) = false then s.cancelCpuTimer c (s.thisTimer c) else some s)
      = some { s with
          root := Function.update s.root c none
          pending := Function.update s.pending c P } := by
  by_cases htrig : s.triggered (s.thisTimer c) = false
  · rw [if_pos htrig, cancelCpuTimer_bare htrig (h.bare_this htrig)]
    refine ⟨_, fun hmem => Finset.mem_erase.mpr ⟨?_, hmem⟩, rfl⟩
    rintro ⟨⟩
  · rw [if_neg htrig]
    have hcalls : s.calls c ≠ 0 := by
      intro h0
      obtain ⟨hthis, -, hfalse⟩ := h.idle c h0
      rw [thisTimer, hthis] at htrig
      exact htrig hfalse
    have hroot : s.root c = none := by
      rw [h.root c, if_neg hcalls, Bool.eq_true_of_not_eq_false htrig]
      rfl
    have hsame : Function.update s.root c none = s.root := by
      rw [← hroot, Function.update_eq_self]
    refine ⟨s.pending c, id, ?_⟩
    rw [hsame, Function.update_eq_self]

/-- **`simple_sched`** leaves the timer of the next process in the tree and nothing else. -/
theorem Inv.simpleSched (h : s.Inv) (addr : Timer → ℕ) (now : BitVec 64)
    (hl : s.sched.Legal (.sched c new)) :
    ∃ sched P, sched.WellFormed ∧ (∀ d, d ≠ c → sched.thisproc d = s.sched.thisproc d) ∧
      (.hello c ∈ s.pending c → .hello c ∈ P) ∧
      s.simpleSched addr c new now = some
        { s with
          sched := sched
          triggered := Function.update s.triggered (.ofProc (sched.thisproc c)) false
          key := Function.update s.key (.ofProc (sched.thisproc c)) (now + 7)
          node := Function.update s.node (.ofProc (sched.thisproc c)) ⟨none, true, none, none⟩
          root := Function.update s.root c (some (.ofProc (sched.thisproc c)))
          pending := Function.update s.pending c P } := by
  obtain ⟨sched, hsched, hwf⟩ := SchedState.wellFormed_sched h.sched hl
  obtain ⟨P, hP, hcancel⟩ := h.cancel_this (c := c)
  refine ⟨sched, insert (.ofProc (sched.thisproc c)) P, hwf,
    fun d hd => SchedState.simpleSched_other hsched hd,
    fun hmem => Finset.mem_insert_of_mem (hP hmem), ?_⟩
  rw [TimerState.simpleSched, hsched, Option.bind_some, hcancel, Option.bind_some,
    setCpuTimer_empty (Function.update_self _ _ _)]
  simp only [Function.update_idem, Function.update_self]
  rfl

/-! ### The steps -/

/-- The state after a call of `_sched` that chose `next`. -/
structure Scheds (s t : TimerState) (c : Cpu) : Prop where
  sched : t.sched.WellFormed
  other : ∀ d, d ≠ c → t.sched.thisproc d = s.sched.thisproc d
  triggered : t.triggered = Function.update s.triggered (t.thisTimer c) false
  node : t.node = Function.update s.node (t.thisTimer c) ⟨none, true, none, none⟩
  root : t.root = Function.update s.root c (some (t.thisTimer c))
  calls : t.calls = Function.update s.calls c (s.calls c + 1)
  online : t.online = s.online
  pending : ∀ d, .hello d ∈ s.pending d → .hello d ∈ t.pending d

theorem Inv.scheds (h : s.Inv) (hs : (timerSystem addr).step s (.sched c new now) = some t) :
    s.online c = true ∧ s.Scheds t c := by
  simp only [timerSystem, step] at hs
  split at hs
  · rename_i hguard
    obtain ⟨sched, P, hwf, hother, hP, hsched⟩ := h.simpleSched addr now hguard.2.1
    rw [hsched, Option.map_some] at hs
    cases hs
    refine ⟨hguard.1, ⟨hwf, hother, rfl, rfl, rfl, rfl, rfl, fun d hd => ?_⟩⟩
    by_cases hdc : d = c
    · subst hdc
      simp only [Function.update_self]
      exact hP hd
    · simp only [Function.update_of_ne hdc]
      exact hd
  · cases hs

/-- Another CPU does not run the process that was chosen. -/
theorem Scheds.ne (h : s.Scheds t c) (hdc : d ≠ c) : s.thisTimer d ≠ t.thisTimer c := by
  intro heq
  have hproc : s.sched.thisproc d = t.sched.thisproc c := Timer.ofProc.inj heq
  rw [← h.other d hdc] at hproc
  exact hdc (h.sched.thisproc_injective hproc)

theorem Inv.sched_step (h : s.Inv) (hon : s.online c = true) (ht : s.Scheds t c) : t.Inv := by
  have hthis : ∀ d, d ≠ c → t.thisTimer d = s.thisTimer d := fun d hd => by
    rw [thisTimer, thisTimer, ht.other d hd]
  refine ⟨ht.sched, fun d => ?_, fun d u hu => ?_, fun d hd => ?_, fun d hd => ?_, fun d hd => ?_⟩
  · by_cases hdc : d = c
    · subst hdc
      rw [ht.root, ht.calls, ht.triggered]
      simp only [Function.update_self]
      rfl
    · rw [ht.root, ht.calls, ht.online, hthis d hdc, ht.triggered, Function.update_of_ne hdc,
        Function.update_of_ne hdc, Function.update_of_ne (ht.ne hdc)]
      exact h.root d
  · rw [ht.node]
    by_cases hut : u = t.thisTimer c
    · rw [hut, Function.update_self]
      exact ⟨rfl, rfl, rfl⟩
    · have hdc : d ≠ c := by
        rintro rfl
        rw [ht.root, Function.update_self] at hu
        exact hut (Option.some.inj hu).symm
      rw [ht.root, Function.update_of_ne hdc] at hu
      rw [Function.update_of_ne hut]
      exact h.bare d u hu
  · have hdc : d ≠ c := by
      rintro rfl
      rw [ht.calls, Function.update_self] at hd
      exact absurd hd (Nat.succ_ne_zero _)
    rw [ht.calls, Function.update_of_ne hdc] at hd
    obtain ⟨hidle, hbare, htrig⟩ := h.idle d hd
    have hne := ht.ne hdc
    rw [thisTimer, hidle] at hne
    rw [ht.other d hdc, ht.node, ht.triggered, Function.update_of_ne hne, Function.update_of_ne hne]
    exact ⟨hidle, hbare, htrig⟩
  · rw [ht.online]
    by_cases hdc : d = c
    · rw [hdc]
      exact hon
    · rw [ht.calls, Function.update_of_ne hdc] at hd
      exact h.online d hd
  · rw [ht.online] at hd
    exact ht.pending d (h.pending d hd)

/-- A call of `_sched` keeps what is in the trees exactly when it is not the first. -/
theorem Inv.sched_keeps (h : s.Inv) (ht : t.Inv) (hon : s.online c = true) (hst : s.Scheds t c) :
    s.Keeps t (.sched c new now) ↔ s.calls c ≠ 0 := by
  constructor
  · rintro ⟨hcancel, -⟩ h0
    obtain ⟨hidle, -, htrig⟩ := h.idle c h0
    have hthis : s.thisTimer c = .ofProc (.idle c) := by rw [thisTimer, hidle]
    have hmem := hcancel c _ ⟨rfl, hthis.symm, htrig⟩
    rw [h.inTree_iff, h.root c, if_pos h0, hon] at hmem
    cases hmem
  · intro hcalls
    have hroot := h.root c
    rw [if_neg hcalls] at hroot
    constructor
    · rintro d u ⟨rfl, rfl, htrig⟩
      rw [h.inTree_iff, hroot, htrig]
      rfl
    · intro d u hmem hnot
      rw [h.inTree_iff] at hmem
      rw [ht.inTree_iff, hst.root]
      by_cases hdc : d = c
      · subst hdc
        -- the only timer in this tree is the one that is cancelled
        rw [hroot] at hmem
        split at hmem
        · cases hmem
        · rename_i htrig
          cases hmem
          exact absurd ⟨rfl, rfl, Bool.eq_false_of_not_eq_true htrig⟩ hnot
      · rw [Function.update_of_ne hdc]
        exact hmem

/-- A step that leaves the roots, the CPUs and the timers of their processes alone. -/
theorem Inv.frame (h : s.Inv) (hsched : t.sched.WellFormed)
    (hthis : t.sched.thisproc = s.sched.thisproc) (hroot : t.root = s.root)
    (hcalls : t.calls = s.calls) (honline : t.online = s.online) (hpending : t.pending = s.pending)
    (hnode : ∀ c, t.node (s.thisTimer c) = s.node (s.thisTimer c) ∧
      t.node (.hello c) = s.node (.hello c))
    (htrig : ∀ c, t.triggered (s.thisTimer c) = s.triggered (s.thisTimer c)) :
    t.Inv ∧ ∀ l, (∀ c u, ¬s.Cancels l c u) → s.Keeps t l := by
  have hsame : ∀ c, t.thisTimer c = s.thisTimer c := fun c => by rw [thisTimer, thisTimer, hthis]
  have hi : t.Inv := by
    refine ⟨hsched, fun c => ?_, fun c u hu => ?_, fun c hc => ?_, ?_, ?_⟩
    · rw [hroot, hcalls, honline, hsame, htrig]
      exact h.root c
    · rw [hroot] at hu
      -- the root is one of the timers that stay
      have hbare := h.bare c u hu
      rw [h.root c] at hu
      split at hu
      · split at hu
        · cases hu
          rw [(hnode c).2]
          exact hbare
        · cases hu
      · split at hu
        · cases hu
        · cases hu
          rw [(hnode c).1]
          exact hbare
    · rw [hcalls] at hc
      obtain ⟨hidle, hbare, hfalse⟩ := h.idle c hc
      have hthis' : s.thisTimer c = .ofProc (.idle c) := by rw [thisTimer, hidle]
      rw [← hthis'] at hbare hfalse ⊢
      rw [hthis, (hnode c).1, htrig]
      exact ⟨hidle, hbare, hfalse⟩
    · rw [hcalls, honline]
      exact h.online
    · rw [honline, hpending]
      exact h.pending
  refine ⟨hi, fun l hl => ⟨fun c u hc => absurd hc (hl c u), fun c u hmem _ => ?_⟩⟩
  rw [h.inTree_iff] at hmem
  rwa [hi.inTree_iff, hroot]

/-- The hello timer of `c` has been set. -/
structure Greets (s t : TimerState) (c : Cpu) : Prop where
  sched : t.sched = s.sched
  calls : t.calls = s.calls
  online : t.online = Function.update s.online c true
  triggered : ∀ p, t.triggered (.ofProc p) = s.triggered (.ofProc p)
  node : t.node = Function.update s.node (.hello c) ⟨none, true, none, none⟩
  root : t.root = Function.update s.root c (some (.hello c))
  pending : ∀ d, d = c ∨ .hello d ∈ s.pending d → .hello d ∈ t.pending d

theorem mem_update_insert {P : Cpu → Finset Timer} (hd : d = c ∨ .hello d ∈ P d) :
    .hello d ∈ Function.update P c (insert (.hello c) (P c)) d := by
  by_cases hdc : d = c
  · rw [hdc, Function.update_self]
    exact Finset.mem_insert_self _ _
  · rw [Function.update_of_ne hdc]
    exact hd.resolve_left hdc

theorem Inv.greets (h : s.Inv) (hcalls : s.calls c = 0) (hg : s.Greets t c) :
    t.Inv ∧ ∀ d u, s.InTree d u → t.InTree d u := by
  have hthis : ∀ d, t.thisTimer d = s.thisTimer d := fun d => by rw [thisTimer, thisTimer, hg.sched]
  have hnode : ∀ p, t.node (.ofProc p) = s.node (.ofProc p) := fun p => by
    rw [hg.node, Function.update_of_ne hello_ne.symm]
  have hi : t.Inv := by
    refine ⟨hg.sched ▸ h.sched, fun d => ?_, fun d u hu => ?_, fun d hd => ?_, fun d hd => ?_,
      fun d hd => ?_⟩
    · by_cases hdc : d = c
      · subst hdc
        rw [hg.root, hg.calls, hg.online, Function.update_self, Function.update_self, if_pos hcalls]
        rfl
      · rw [hg.root, hg.calls, hg.online, Function.update_of_ne hdc, Function.update_of_ne hdc, hthis,
          show t.triggered (s.thisTimer d) = s.triggered (s.thisTimer d) from hg.triggered _]
        exact h.root d
    · rw [hg.node]
      by_cases hut : u = .hello c
      · rw [hut, Function.update_self]
        exact ⟨rfl, rfl, rfl⟩
      · have hdc : d ≠ c := by
          rintro rfl
          rw [hg.root, Function.update_self] at hu
          exact hut (Option.some.inj hu).symm
        rw [hg.root, Function.update_of_ne hdc] at hu
        rw [Function.update_of_ne hut]
        exact h.bare d u hu
    · rw [hg.calls] at hd
      rw [hg.sched, hnode, hg.triggered]
      exact h.idle d hd
    · rw [hg.calls] at hd
      rw [hg.online, Function.update_of_ne]
      · exact h.online d hd
      · rintro rfl
        exact hd hcalls
    · rw [hg.online] at hd
      by_cases hdc : d = c
      · exact hg.pending d (.inl hdc)
      · rw [Function.update_of_ne hdc] at hd
        exact hg.pending d (.inr (h.pending d hd))
  refine ⟨hi, fun d u hmem => ?_⟩
  rw [h.inTree_iff] at hmem
  rw [hi.inTree_iff, hg.root]
  by_cases hdc : d = c
  · -- the hello timer is all that can have been in this tree
    subst hdc
    rw [h.root d, if_pos hcalls] at hmem
    rw [Function.update_self]
    split at hmem
    · exact hmem
    · cases hmem
  · rw [Function.update_of_ne hdc]
    exact hmem

/-- `set_cpu_on` finds an empty tree. -/
theorem Inv.on (h : s.Inv) (hs : (timerSystem addr).step s (.on c now) = some t) :
    t.Inv ∧ s.Keeps t (.on c now) := by
  simp only [timerSystem, step] at hs
  split at hs
  · cases hs
  · rename_i hoff
    have hcalls : s.calls c = 0 := by
      by_contra hne
      exact hoff (h.online c hne)
    have hroot : s.root c = none := by rw [h.root c, if_pos hcalls, if_neg hoff]
    rw [setCpuTimer_empty hroot, Option.map_some] at hs
    have hg : s.Greets t c := by
      obtain rfl := Option.some.inj hs
      exact ⟨rfl, rfl, rfl, fun _ => update_hello c s.triggered false, rfl, rfl,
        fun d hd => mem_update_insert hd⟩
    obtain ⟨hi, hkeep⟩ := h.greets hcalls hg
    exact ⟨hi, fun _ _ hc => hc.elim, fun d u hmem _ => hkeep d u hmem⟩

theorem Inv.create (h : s.Inv) {n : ℕ} {junk : RbNode Timer}
    (hs : (timerSystem addr).step s (.create n junk) = some t) :
    t.Inv ∧ s.Keeps t (.create n junk) := by
  simp only [timerSystem, step] at hs
  split at hs
  · rename_i hunused
    cases hs
    have hne : ∀ c, s.thisTimer c ≠ .ofProc (.task n) := by
      intro c heq
      have hrun := h.sched.this_running c
      rw [Timer.ofProc.inj heq, hunused] at hrun
      cases hrun
    have hboth := h.frame (t := { s with
        node := Function.update s.node (.ofProc (.task n)) junk
        triggered := Function.update s.triggered (.ofProc (.task n)) false })
      h.sched rfl rfl rfl rfl rfl
      (fun c => ⟨Function.update_of_ne (hne c) _ _,
        Function.update_of_ne (hello_ne (p := .task n)) junk s.node⟩)
      fun c => Function.update_of_ne (hne c) _ _
    exact ⟨hboth.1, hboth.2 _ fun _ _ hc => hc⟩
  · cases hs

theorem Inv.activate (h : s.Inv) {p : Proc} {onalert : Bool}
    (hs : (timerSystem addr).step s (.activate p onalert) = some t) :
    t.Inv ∧ s.Keeps t (.activate p onalert) := by
  simp only [timerSystem, step] at hs
  split at hs
  · rename_i hlegal
    cases hs
    have hthis : (s.sched.activate p onalert).2.thisproc = s.sched.thisproc := by
      rcases SchedState.activate_cases s.sched p onalert with ⟨heq, -⟩ | ⟨heq, -⟩
      · rw [heq]
      · rw [heq]
        rfl
    have hboth := h.frame (t := { s with sched := (s.sched.activate p onalert).2 })
      (SchedState.wellFormed_activate h.sched hlegal) hthis rfl rfl rfl rfl
      (fun _ => ⟨rfl, rfl⟩) fun _ => rfl
    exact ⟨hboth.1, hboth.2 _ fun _ _ hc => hc⟩
  · cases hs

/-- The timer of the process that `c` runs has fired. -/
structure Fires (s t : TimerState) (c : Cpu) : Prop where
  sched : t.sched = s.sched
  calls : t.calls = s.calls
  online : t.online = s.online
  triggered : t.triggered = Function.update s.triggered (s.thisTimer c) true
  node : t.node = s.node
  root : t.root = Function.update s.root c none
  pending : ∀ d, .hello d ∈ s.pending d → .hello d ∈ t.pending d

theorem Inv.fires (h : s.Inv) (hcalls : s.calls c ≠ 0) (hf : s.Fires t c) :
    t.Inv ∧ ∀ d u, s.InTree d u → (d = c → u ≠ s.thisTimer c) → t.InTree d u := by
  have hthis : ∀ d, t.thisTimer d = s.thisTimer d := fun d => by rw [thisTimer, thisTimer, hf.sched]
  have hne : ∀ d, d ≠ c → s.thisTimer d ≠ s.thisTimer c := fun d hdc heq =>
    hdc (h.sched.thisproc_injective (Timer.ofProc.inj heq))
  have hi : t.Inv := by
    refine ⟨hf.sched ▸ h.sched, fun d => ?_, fun d u hu => ?_, fun d hd => ?_, ?_, fun d hd => ?_⟩
    · rw [hf.root, hf.calls, hf.online, hthis, hf.triggered]
      by_cases hdc : d = c
      · rw [hdc, Function.update_self, Function.update_self, if_neg hcalls]
        rfl
      · rw [Function.update_of_ne hdc, Function.update_of_ne (hne d hdc)]
        exact h.root d
    · rw [hf.node]
      by_cases hdc : d = c
      · rw [hf.root, hdc, Function.update_self] at hu
        cases hu
      · rw [hf.root, Function.update_of_ne hdc] at hu
        exact h.bare d u hu
    · rw [hf.calls] at hd
      have hdc : d ≠ c := by
        rintro rfl
        exact hcalls hd
      obtain ⟨hidle, hbare, hfalse⟩ := h.idle d hd
      have hne' := hne d hdc
      rw [thisTimer, hidle] at hne'
      rw [hf.sched, hf.node, hf.triggered, Function.update_of_ne hne']
      exact ⟨hidle, hbare, hfalse⟩
    · rw [hf.calls, hf.online]
      exact h.online
    · rw [hf.online] at hd
      exact hf.pending d (h.pending d hd)
  refine ⟨hi, fun d u hmem hu => ?_⟩
  rw [h.inTree_iff] at hmem
  rw [hi.inTree_iff, hf.root]
  by_cases hdc : d = c
  · subst hdc
    rw [h.root d, if_neg hcalls] at hmem
    split at hmem
    · cases hmem
    · exact absurd (Option.some.inj hmem).symm (hu rfl)
  · rw [Function.update_of_ne hdc]
    exact hmem

/-- The root of a tree that is not empty. -/
theorem Inv.root_cases (h : s.Inv) (hroot : s.root c = some u) :
    (s.calls c = 0 ∧ s.online c = true ∧ u = .hello c) ∨
    (s.calls c ≠ 0 ∧ s.triggered u = false ∧ u = s.thisTimer c) := by
  rw [h.root c] at hroot
  split at hroot
  · rename_i hcalls
    split at hroot
    · rename_i hon
      exact .inl ⟨hcalls, hon, (Option.some.inj hroot).symm⟩
    · cases hroot
  · rename_i hcalls
    split at hroot
    · cases hroot
    · rename_i htrig
      obtain rfl := Option.some.inj hroot
      exact .inr ⟨hcalls, Bool.eq_false_of_not_eq_true htrig, rfl⟩

/-- A pass of the loop that does nothing. -/
theorem Inv.idle_pass (h : s.Inv) (l : TimerCall) (hl : ∀ c u, ¬s.Cancels l c u) :
    s.Inv ∧ s.Keeps s l :=
  ⟨h, fun c u hc => absurd hc (hl c u), fun _ _ hmem _ => hmem⟩

theorem Inv.clock (h : s.Inv) (hs : (timerSystem addr).step s (.clock c now later) = some t) :
    t.Inv ∧ s.Keeps t (.clock c now later) := by
  simp only [timerSystem, step] at hs
  split at hs
  · rw [clockPass] at hs
    cases hroot : s.root c with
    | none =>
      have hfirst : (s.tree c).first = some none := RbTree.first_empty hroot
      rw [hfirst] at hs
      cases hs
      refine h.idle_pass _ fun d u hc => ?_
      rw [Cancels, hfirst] at hc
      cases hc.2.1
    | some u =>
      have hfirst : (s.tree c).first = some (some u) :=
        RbTree.first_root hroot (h.bare c u hroot).left
      rw [hfirst, Option.bind_some] at hs
      dsimp only at hs
      split at hs
      · rename_i hearly
        cases hs
        refine h.idle_pass _ fun d v hc => ?_
        rw [Cancels, hfirst] at hc
        obtain rfl : u = v := Option.some.inj (Option.some.inj hc.2.1)
        exact hc.2.2 hearly
      · -- the first timer is cancelled, and it is in the tree
        have hcancels : ∀ d v, s.Cancels (.clock c now later) d v → s.InTree d v := by
          rintro d v ⟨rfl, hv, -⟩
          rw [h.inTree_iff, hroot]
          exact Option.some.inj (hfirst.symm.trans hv)
        rename_i hdue
        obtain ⟨x, hx, hs⟩ := Option.bind_eq_some_iff.mp hs
        have htrig : s.triggered u = false := by
          by_contra hne
          rw [cancelCpuTimer, if_pos (Bool.eq_true_of_not_eq_false hne)] at hx
          cases hx
        rw [cancelCpuTimer_bare htrig (h.bare c u hroot)] at hx
        obtain rfl := Option.some.inj hx
        rcases h.root_cases hroot with ⟨hcalls, hon, rfl⟩ | ⟨hcalls, -, rfl⟩
        · -- it is the hello timer, which is set again
          dsimp only at hs
          rw [setCpuTimer_empty (Function.update_self _ _ _)] at hs
          have hg : s.Greets t c := by
            obtain rfl := Option.some.inj hs
            refine ⟨rfl, rfl, ?_, fun _ => ?_, rfl, Function.update_idem .., fun d hd => ?_⟩
            · rw [← hon, Function.update_eq_self]
            · exact (update_hello c _ false).trans (update_hello c s.triggered true)
            · refine mem_update_insert ?_
              by_cases hdc : d = c
              · exact .inl hdc
              · simp only [Function.update_of_ne hdc]
                exact hd
          obtain ⟨hi, hkeep⟩ := h.greets hcalls hg
          exact ⟨hi, hcancels, fun d v hmem _ => hkeep d v hmem⟩
        · -- it is the timer of the process, and the handler goes on to call `_sched`
          have hf : s.Fires t c := by
            obtain rfl := Option.some.inj hs
            refine ⟨rfl, rfl, rfl, rfl, rfl, rfl, fun d hd => ?_⟩
            by_cases hdc : d = c
            · subst hdc
              simp only [Function.update_self]
              exact Finset.mem_erase.mpr ⟨hello_ne, hd⟩
            · simp only [Function.update_of_ne hdc]
              exact hd
          obtain ⟨hi, hkeep⟩ := h.fires hcalls hf
          refine ⟨hi, hcancels, fun d v hmem hnot => hkeep d v hmem ?_⟩
          rintro rfl rfl
          exact hnot ⟨rfl, hfirst, hdue⟩
  · cases hs

/-- One step. -/
theorem Inv.step (h : s.Inv) {l : TimerCall} (hs : (timerSystem addr).step s l = some t) :
    t.Inv ∧ (s.Keeps t l ↔ ¬s.First l) := by
  cases l with
  | on c now =>
    obtain ⟨hi, hkeep⟩ := h.on hs
    exact ⟨hi, iff_of_true hkeep id⟩
  | create n junk =>
    obtain ⟨hi, hkeep⟩ := h.create hs
    exact ⟨hi, iff_of_true hkeep id⟩
  | activate p onalert =>
    obtain ⟨hi, hkeep⟩ := h.activate hs
    exact ⟨hi, iff_of_true hkeep id⟩
  | sched c new now =>
    obtain ⟨hon, hst⟩ := h.scheds hs
    have hi := h.sched_step hon hst
    exact ⟨hi, h.sched_keeps hi hon hst⟩
  | clock c now later =>
    obtain ⟨hi, hkeep⟩ := h.clock hs
    exact ⟨hi, iff_of_true hkeep id⟩

theorem inv_of_reachable (h : (timerSystem addr).Reachable (fun _ _ => True) s) : s.Inv :=
  h.induction (I := Inv) (fun _ => Inv.of_start) fun _ _ _ hi _ hs => (hi.step hs).1

/-- After the first call of `_sched` the tree has the timer of the process that runs. -/
theorem Inv.inTree_of_calls (h : s.Inv) (hcalls : s.calls c ≠ 0) :
    s.InTree c u ↔ u = s.thisTimer c ∧ s.triggered u = false := by
  rw [h.inTree_iff, h.root c, if_neg hcalls]
  cases htrig : s.triggered (s.thisTimer c) with
  | true =>
    refine iff_of_false (by simp) ?_
    rintro ⟨rfl, hfalse⟩
    rw [htrig] at hfalse
    cases hfalse
  | false =>
    constructor
    · intro heq
      obtain rfl := Option.some.inj heq
      exact ⟨rfl, htrig⟩
    · rintro ⟨rfl, -⟩
      rfl

/-- Something is missing in every tree: at first the timer of the idle process, and then the hello
timer. -/
theorem Inv.not_exact (h : s.Inv) (c : Cpu) : ¬s.Exact c := by
  intro hexact
  by_cases hcalls : s.calls c = 0
  · obtain ⟨hidle, -, htrig⟩ := h.idle c hcalls
    have hthis : s.thisTimer c = .ofProc (.idle c) := by rw [thisTimer, hidle]
    have hmem := (hexact (s.thisTimer c)).mpr (by rw [if_pos rfl, hthis]; exact htrig)
    rcases h.root_cases (h.inTree_iff.mp hmem) with ⟨-, -, heq⟩ | ⟨hne, -⟩
    · exact hello_ne heq.symm
    · exact hne hcalls
  · have hpending := h.pending c (h.online c hcalls)
    have hne : Timer.hello c ≠ s.thisTimer c := hello_ne
    have hmem := (hexact (.hello c)).mpr (by rw [if_neg hne]; exact hpending)
    exact hello_ne ((h.inTree_of_calls hcalls).mp hmem).1

/-- `_sched` returns: `_rb_insert` does not find the timer, and no null pointer is followed. -/
theorem Inv.sched_isSome (h : s.Inv) (hon : s.online c = true)
    (hl : s.sched.Legal (.sched c new)) (hint : s.interrupted c = true → new = .runnable) :
    ((timerSystem addr).step s (.sched c new now)).isSome = true := by
  obtain ⟨sched, P, -, -, -, hsched⟩ := h.simpleSched addr now hl
  simp only [timerSystem, TimerState.step]
  rw [if_pos ⟨hon, hl, hint⟩, hsched]
  rfl

end TimerState

/-- **When the timers are kept.**  In every run, a step cancels only a timer that is in the tree of
its CPU, and leaves all others where they are, exactly when it is not the first call of `_sched` on
that CPU.  After that call the tree has the timer of the process that runs, unless it has
triggered; the hello timer is missing, as that of the idle process was before. -/
theorem timers_kept_iff (addr : Timer → ℕ) (s : TimerState)
    (h : (timerSystem addr).Reachable (fun _ _ => True) s) :
    (∀ l t, (timerSystem addr).step s l = some t → (s.Keeps t l ↔ ¬s.First l)) ∧
    (∀ c, s.calls c ≠ 0 → ∀ u, s.InTree c u ↔ u = s.thisTimer c ∧ s.triggered u = false) ∧
    (∀ c, ¬s.Exact c) ∧
    ∀ c new now, s.online c = true → s.sched.Legal (.sched c new) →
      (s.interrupted c = true → new = .runnable) →
      ((timerSystem addr).step s (.sched c new now)).isSome = true := by
  have hi := TimerState.inv_of_reachable h
  exact ⟨fun l t hs => (hi.step hs).2, fun c hc u => hi.inTree_of_calls hc, hi.not_exact,
    fun c new now hon hl hint => hi.sched_isSome hon hl hint⟩

namespace TimerState

/-- Kernel start. -/
def boot : TimerState where
  sched := .boot
  node := fun _ => .zero
  root := fun _ => none
  triggered := fun _ => false
  key := fun _ => 0
  online := fun _ => false
  interrupted := fun _ => false
  pending := fun _ => ∅
  calls := fun _ => 0

theorem start_boot : TimerStart boot :=
  ⟨SchedState.init_boot, fun _ => ⟨rfl, rfl⟩, fun _ => ⟨rfl, rfl⟩, fun _ => rfl, fun _ => rfl,
    fun _ => rfl, fun _ => rfl, fun _ => rfl⟩

/-- Some addresses. -/
def addrs : Timer → ℕ
  | .hello c => c
  | .ofProc (.idle c) => 4 + c
  | .ofProc (.task n) => 8 + n

theorem reachable_of_exec {ls : List TimerCall}
    (h : (timerSystem addrs).exec (fun _ _ => True) boot ls = some s) :
    (timerSystem addrs).Reachable (fun _ _ => True) s :=
  ⟨boot, start_boot, System.leads_of_exec h⟩

end TimerState

/-- CPU 0 switches to a process, whose timer fires; the second call of `_sched` keeps the timers. -/
theorem timers_kept_two : ∃ s t : TimerState, s.calls 0 = 1 ∧
    s.triggered (.ofProc (.task 0)) = true ∧
    (timerSystem TimerState.addrs).step s (.sched 0 .runnable 10) = some t ∧
    s.Keeps t (.sched 0 .runnable 10) ∧ t.InTree 0 (.ofProc (.task 0)) := by
  have hrun : ((timerSystem TimerState.addrs).exec (fun _ _ => True) .boot
      [.on 0 0, .create 0 .zero, .activate (.task 0) false, .sched 0 .runnable 1,
        .clock 0 9 9]).bind (fun s =>
        ((timerSystem TimerState.addrs).step s (.sched 0 .runnable 10)).map fun t =>
          (s.calls 0, s.triggered (.ofProc (.task 0)), t.root 0))
      = some (1, true, some (.ofProc (.task 0))) := by
    decide
  obtain ⟨s, hs, hrest⟩ := Option.bind_eq_some_iff.mp hrun
  obtain ⟨t, ht, heq⟩ := Option.map_eq_some_iff.mp hrest
  obtain ⟨hcalls, heq⟩ := Prod.mk.inj heq
  obtain ⟨htrig, hroot⟩ := Prod.mk.inj heq
  refine ⟨s, t, hcalls, htrig, ht, ?_, .root hroot⟩
  have hkept := (timers_kept_iff TimerState.addrs s (TimerState.reachable_of_exec hs)).1 _ t ht
  refine hkept.mpr fun hfirst => ?_
  rw [TimerState.First, hcalls] at hfirst
  cases hfirst

/-- **The first call of `_sched`** cancels the timer of the idle process, which is in no tree, and
the hello timer is gone. -/
theorem timers_dropped : ∃ s t : TimerState,
    (timerSystem TimerState.addrs).Reachable (fun _ _ => True) s ∧
    (timerSystem TimerState.addrs).step s (.sched 0 .runnable 1) = some t ∧
    s.Cancels (.sched 0 .runnable 1) 0 (.ofProc (.idle 0)) ∧
    ¬s.InTree 0 (.ofProc (.idle 0)) ∧
    s.InTree 0 (.hello 0) ∧ ¬t.InTree 0 (.hello 0) ∧ .hello 0 ∈ t.pending 0 := by
  have hrun : ((timerSystem TimerState.addrs).exec (fun _ _ => True) .boot [.on 0 0]).bind (fun s =>
        ((timerSystem TimerState.addrs).step s (.sched 0 .runnable 1)).map fun t =>
          (s.sched.thisproc 0, s.triggered (.ofProc (.idle 0)), s.root 0, t.root 0))
      = some (.idle 0, false, some (.hello 0), some (.ofProc (.idle 0))) := by
    decide
  obtain ⟨s, hs, hrest⟩ := Option.bind_eq_some_iff.mp hrun
  obtain ⟨t, ht, heq⟩ := Option.map_eq_some_iff.mp hrest
  obtain ⟨hidle, heq⟩ := Prod.mk.inj heq
  obtain ⟨htrig, heq⟩ := Prod.mk.inj heq
  obtain ⟨hroot, hroot'⟩ := Prod.mk.inj heq
  have hreach := TimerState.reachable_of_exec hs
  have hi := TimerState.inv_of_reachable hreach
  have hi' := (hi.step ht).1
  refine ⟨s, t, hreach, ht, ⟨rfl, ?_, htrig⟩, ?_, ?_, ?_, ?_⟩
  · rw [TimerState.thisTimer, hidle]
  · rw [hi.inTree_iff, hroot]
    exact fun heq => TimerState.hello_ne (Option.some.inj heq)
  · rw [hi.inTree_iff, hroot]
  · rw [hi'.inTree_iff, hroot']
    exact fun heq => TimerState.hello_ne (Option.some.inj heq).symm
  · obtain ⟨hon, hst⟩ := hi.scheds ht
    exact hst.pending 0 (hi.pending 0 hon)

end OsLab
