/-
The timers of one CPU as a queue (`kernel/cpu.c`, `driver/clock.c`).

The timers that are set are in a red-black tree, ordered by the time at which they are due.
A state has the timers, the root of the tree and the countdown of the clock; a step is
a call of `set_cpu_timer` or `cancel_cpu_timer`, the start of `timer_clock_handler`, or one pass
of its loop up to the call of the handler.  What the handler does, and what runs between two
passes when it schedules, are further steps.

* `TimerQueue.Serves` — what a step does to the timers that are set, as a map from timers to
  times;
* `timers_served` — every step of a run does that, and the clock is set to the first time.
-/
import OsLab.Common.RbtreeRun
import OsLab.Lib.System

namespace OsLab

/-- The timers, the tree and the clock. -/
structure TimerQueue (T : Type) where
  /-- `_node` -/
  node : T → RbNode T
  /-- `cpus[cpuid()].timer` -/
  root : Option T
  triggered : T → Bool
  /-- `_key` -/
  key : T → BitVec 64
  /-- what `reset_clock` was given last -/
  countdown : BitVec 64
  /-- the timers that are set: neither cancelled nor triggered since -/
  pending : Finset T
  /-- the last reading of `get_timestamp_ms` -/
  time : BitVec 64

/-- What does not change: where the timers are, and `one_ms`. -/
structure TimerConfig (T : Type) where
  addr : T → ℕ
  elapse : T → BitVec 32
  oneMs : BitVec 64

/-- The steps; `now` and `later` are readings of `get_timestamp_ms`. -/
inductive TimerQueueCall (T : Type)
  | set (t : T) (now later : BitVec 64)
  | cancel (t : T) (later : BitVec 64)
  /-- the start of `timer_clock_handler` -/
  | clock
  /-- one pass of the loop -/
  | pass (now later : BitVec 64)

namespace TimerQueue

variable {T : Type} [DecidableEq T]

/-- `__timer_cmp` -/
def timerCmp (addr : T → ℕ) (key : T → BitVec 64) (l r : T) : Bool :=
  let d := key l - key r
  if d.slt 0 then true else if d = 0 then decide (addr l < addr r) else false

def tree (s : TimerQueue T) : RbTree T := ⟨s.node, s.root⟩

/-- `reset_clock` -/
def resetClock (k : TimerConfig T) (s : TimerQueue T) (ms : BitVec 64) : Option (TimerQueue T) :=
  if ms * k.oneMs ≤ 0x7fffffff then some { s with countdown := ms } else none

/-- `__timer_set_clock` -/
def timerSetClock (k : TimerConfig T) (s : TimerQueue T) (t0 : BitVec 64) :
    Option (TimerQueue T) :=
  s.tree.first.bind fun
    | none => s.resetClock k 1000
    | some t => if s.key t ≤ t0 then s.resetClock k 0 else s.resetClock k (s.key t - t0)

/-- `set_cpu_timer` -/
def setCpuTimer (k : TimerConfig T) (s : TimerQueue T) (t : T) (now later : BitVec 64) :
    Option (TimerQueue T) :=
  let key := Function.update s.key t (now + (k.elapse t).signExtend 64)
  (s.tree.insert (timerCmp k.addr key) t).bind fun r =>
    if r.1 = 0 then
      { s with
        triggered := Function.update s.triggered t false
        key := key
        node := r.2.node
        root := r.2.root
        pending := insert t s.pending
        time := later }.timerSetClock k later
    else none

/-- `cancel_cpu_timer` -/
def cancelCpuTimer (k : TimerConfig T) (s : TimerQueue T) (t : T) (later : BitVec 64) :
    Option (TimerQueue T) :=
  if s.triggered t then none
  else (s.tree.erase t).bind fun m =>
    { s with
      node := m.node
      root := m.root
      pending := s.pending.erase t
      time := later }.timerSetClock k later

/-- One pass of the loop of `timer_clock_handler`, up to the call of the handler: the timer
that is triggered, if there is one. -/
def clockPass (k : TimerConfig T) (s : TimerQueue T) (now later : BitVec 64) :
    Option (Option T × TimerQueue T) :=
  s.tree.first.bind fun
    | none => some (none, { s with time := now })
    | some t =>
      if now < s.key t then some (none, { s with time := now })
      else (s.cancelCpuTimer k t later).map fun s =>
        (some t, { s with triggered := Function.update s.triggered t true })

/-- One step, and the timer that is triggered by it. -/
def step (k : TimerConfig T) (s : TimerQueue T) :
    TimerQueueCall T → Option (Option T × TimerQueue T)
  | .set t now later => (s.setCpuTimer k t now later).map fun s => (none, s)
  | .cancel t later => (s.cancelCpuTimer k t later).map fun s => (none, s)
  | .clock => (s.resetClock k 1000).map fun s => (none, s)
  | .pass now later => s.clockPass k now later

/-- Time does not go back, a timer is set when it is not set already and to a time before
2^63, its `elapse` is no more than the clock can count down, and a timer is cancelled when it is
set. -/
def Timely (k : TimerConfig T) (s : TimerQueue T) : TimerQueueCall T → Prop
  | .set t now later => s.time ≤ now ∧ now ≤ later ∧ t ∉ s.pending ∧ 0 ≤ (k.elapse t).toInt ∧
      later.toNat + (k.elapse t).toNat < 2 ^ 63 ∧ (k.elapse t).toNat * k.oneMs.toNat ≤ 0x7fffffff
  | .cancel t later => s.time ≤ later ∧ t ∈ s.pending
  | .clock => True
  | .pass now later => s.time ≤ now ∧ now ≤ later

instance (k : TimerConfig T) (s : TimerQueue T) (c : TimerQueueCall T) :
    Decidable (s.Timely k c) :=
  match c with
  | .set _ _ _ => inferInstanceAs (Decidable (_ ∧ _))
  | .cancel _ _ => inferInstanceAs (Decidable (_ ∧ _))
  | .clock => inferInstanceAs (Decidable True)
  | .pass _ _ => inferInstanceAs (Decidable (_ ∧ _))

end TimerQueue

/-- A CPU without timers. -/
def timerQueueSystem {T : Type} [DecidableEq T] (k : TimerConfig T) :
    System (TimerQueue T) (TimerQueueCall T) where
  init s := s.root = none ∧ s.pending = ∅
  step s c := (s.step k c).map Prod.snd

namespace TimerQueue

variable {T : Type} [DecidableEq T]

/-- When the timers that are set are due. -/
def due (s : TimerQueue T) (t : T) : Option ℕ :=
  if t ∈ s.pending then some (s.key t).toNat else none

/-- The clock counts down to the first time that a timer is due, from time `now` on; without
timers it counts down a second. -/
def Armed (s : TimerQueue T) (now : ℕ) : Prop :=
  ((∀ t, s.due t = none) ∧ s.countdown = 1000) ∨
  ∃ t n, s.due t = some n ∧ s.countdown.toNat = n - now ∧ ∀ u m, s.due u = some m → n ≤ m

/-- What a step does to the timers that are set, and which one it triggers. -/
def Serves (k : TimerConfig T) (s : TimerQueue T) (r : Option T) (s' : TimerQueue T) :
    TimerQueueCall T → Prop
  | .set t now later => r = none ∧ s'.Armed later.toNat ∧
      s'.due = Function.update s.due t (some (now.toNat + (k.elapse t).toNat))
  | .cancel t later => r = none ∧ s'.Armed later.toNat ∧ s'.due = Function.update s.due t none
  | .clock => r = none ∧ s'.due = s.due
  | .pass now later =>
    (r = none ∧ s'.due = s.due ∧ s'.countdown = s.countdown ∧
      ∀ t n, s.due t = some n → now.toNat < n) ∨
    ∃ t n, r = some t ∧ s.due t = some n ∧ n ≤ now.toNat ∧
      (∀ u m, s.due u = some m → n < m ∨ n = m ∧ k.addr t ≤ k.addr u) ∧
      s'.due = Function.update s.due t none ∧ s'.Armed later.toNat

end TimerQueue

/-! ### Comparisons -/

namespace RbTree

open BinTree

variable {T : Type} [DecidableEq T] {m : RbTree T} {t : BinTree T} {v : Option T} {x y : T}
  {cmp cmp' : T → T → Bool}

/-- The descent compares the node with those of the tree only. -/
theorem descend_congr (h : m.Shows v t) (hy : t.root? = some y)
    (hcmp : ∀ z ∈ t.toList, cmp x z = cmp' x z ∧ cmp z x = cmp' z x) (fuel : ℕ) :
    descend cmp x fuel m y = descend cmp' x fuel m y := by
  induction t generalizing v fuel y with
  | nil => cases hy
  | node c l z r ihl ihr =>
    obtain rfl := Option.some.inj hy
    cases fuel with
    | zero => rfl
    | succ fuel =>
      obtain ⟨hcell, hl, hr⟩ := h
      have hleft : (m.node z).left = l.root? := hcell.child
      have hright : (m.node z).right = r.root? := hcell.other
      obtain ⟨hxz, hzx⟩ := hcmp z (by simp [toList])
      rw [descend, descend, hxz, hzx, hleft, hright]
      have hdown : ∀ w, l.root? = some w → descend cmp x fuel m w = descend cmp' x fuel m w :=
        fun w hw => ihl hl hw (fun u hu => hcmp u (by simp [toList, hu])) fuel
      have hdown' : ∀ w, r.root? = some w → descend cmp x fuel m w = descend cmp' x fuel m w :=
        fun w hw => ihr hr hw (fun u hu => hcmp u (by simp [toList, hu])) fuel
      congr 1
      · cases hw : l.root? with
        | none => rfl
        | some w => exact hdown w hw
      · congr 1
        cases hw : r.root? with
        | none => rfl
        | some w => exact hdown' w hw

theorem insert_congr (h : m.Is t) (hx : x ∉ t.toList)
    (hcmp : ∀ z ∈ t.toList, cmp x z = cmp' x z ∧ cmp z x = cmp' z x) :
    m.insert cmp x = m.insert cmp' x := by
  obtain ⟨hroot, hshows, -⟩ := is_iff.mp h
  have hshows' : ({ m with node := Function.update m.node x .zero } : RbTree T).Shows none t :=
    hshows.congr fun z hz => by
      have hne : z ≠ x := by
        rintro rfl
        exact hx hz
      exact Function.update_of_ne hne _ _
  rw [insert, insert]
  cases hy : m.root with
  | none => rfl
  | some y =>
    rw [hy] at hshows'
    dsimp only
    rw [descend_congr hshows' (hroot.symm.trans hy) hcmp]

end RbTree

namespace TimerQueue

section Order

variable {T : Type} {l r : T} {addr : T → ℕ} {key key' : T → BitVec 64}

/-- The order by time and address. -/
def before (addr : T → ℕ) (key : T → BitVec 64) (l r : T) : Bool :=
  decide ((key l).toNat < (key r).toNat ∨ (key l).toNat = (key r).toNat ∧ addr l < addr r)

theorem before_iff : before addr key l r = true ↔
    (key l).toNat < (key r).toNat ∨ (key l).toNat = (key r).toNat ∧ addr l < addr r :=
  decide_eq_true_iff

theorem before_trans (a b c : T) (hab : before addr key a b) (hbc : before addr key b c) :
    before addr key a c := by
  rw [before_iff] at *
  omega

theorem before_congr (hl : key l = key' l) (hr : key r = key' r) :
    before addr key l r = before addr key' l r := by
  rw [before, before, hl, hr]

/-- The difference of two times has the sign that it should have. -/
theorem timerCmp_eq (hl : (key l).toNat < 2 ^ 63) (hr : (key r).toNat < 2 ^ 63) :
    timerCmp addr key l r = before addr key l r := by
  have hsub : (key l - key r).toNat = (2 ^ 64 - (key r).toNat + (key l).toNat) % 2 ^ 64 :=
    BitVec.toNat_sub _ _
  have hslt : (key l - key r).slt 0 = true ↔ (key l).toNat < (key r).toNat := by
    have hneg : (key l - key r).toInt < 0 ↔ (key l).toNat < (key r).toNat := by
      rw [BitVec.toInt_neg_iff, hsub]
      omega
    rwa [BitVec.slt_eq_decide, decide_eq_true_iff]
  have hzero : key l - key r = 0 ↔ (key l).toNat = (key r).toNat := by
    rw [← BitVec.toNat_inj, hsub, show (0 : BitVec 64).toNat = 0 from rfl]
    omega
  rw [timerCmp, before, Bool.eq_iff_iff, decide_eq_true_iff]
  by_cases hlt : (key l).toNat < (key r).toNat
  · rw [if_pos (hslt.mpr hlt)]
    exact iff_of_true rfl (.inl hlt)
  · rw [if_neg fun h => hlt (hslt.mp h)]
    by_cases heq : (key l).toNat = (key r).toNat
    · rw [if_pos (hzero.mpr heq), decide_eq_true_iff]
      omega
    · rw [if_neg fun h => heq (hzero.mp h)]
      refine iff_of_false Bool.false_ne_true ?_
      omega

end Order

/-! ### The invariant -/

section Invariant

variable {T : Type} {k : TimerConfig T} {s : TimerQueue T} {t : T} {now : BitVec 64}

/-- The timers that are set are in the tree in order, and none is further away than its
`elapse`. -/
structure Inv (k : TimerConfig T) (s : TimerQueue T) : Prop where
  shape : ∃ t, RbTree.Shape (before k.addr s.key) s.tree t s.pending
  key_lt : ∀ t ∈ s.pending, (s.key t).toNat < 2 ^ 63
  soon : ∀ t ∈ s.pending, (s.key t).toNat ≤ s.time.toNat + (k.elapse t).toNat
  short : ∀ t ∈ s.pending, (k.elapse t).toNat * k.oneMs.toNat ≤ 0x7fffffff
  armed : ∀ t ∈ s.pending, s.triggered t = false

/-- A countdown that is short enough is accepted. -/
theorem resetClock_eq {ms : BitVec 64} (h : ms.toNat * k.oneMs.toNat ≤ 0x7fffffff) :
    s.resetClock k ms = some { s with countdown := ms } := by
  rw [resetClock, if_pos]
  rw [BitVec.le_def, BitVec.toNat_mul, Nat.mod_eq_of_lt (by omega)]
  exact h

/-- The invariant does not speak of the clock. -/
theorem Inv.countdown (h : s.Inv k) (ms : BitVec 64) :
    ({ s with countdown := ms } : TimerQueue T).Inv k :=
  ⟨h.shape, h.key_lt, h.soon, h.short, h.armed⟩

/-- Time passes. -/
theorem Inv.advance (h : s.Inv k) (htime : s.time ≤ now) :
    ({ s with time := now } : TimerQueue T).Inv k := by
  refine ⟨h.shape, h.key_lt, fun t ht => ?_, h.short, h.armed⟩
  have hle : s.time.toNat ≤ now.toNat := htime
  have hsoon := h.soon t ht
  show (s.key t).toNat ≤ now.toNat + (k.elapse t).toNat
  omega

/-- The time at which a timer is due. -/
theorem toNat_key (hpos : 0 ≤ (k.elapse t).toInt)
    (hsum : now.toNat + (k.elapse t).toNat < 2 ^ 63) :
    (now + (k.elapse t).signExtend 64).toNat = now.toNat + (k.elapse t).toNat := by
  have hext : ((k.elapse t).signExtend 64).toNat = (k.elapse t).toNat := by
    have hmsb : (k.elapse t).msb = false := by
      by_contra hneg
      rw [Bool.not_eq_false] at hneg
      have := BitVec.toInt_neg_of_msb_true hneg
      omega
    rw [BitVec.signExtend_eq_setWidth_of_msb_false hmsb, BitVec.toNat_setWidth,
      Nat.mod_eq_of_lt]
    have := (k.elapse t).isLt
    omega
  rw [BitVec.toNat_add, hext, Nat.mod_eq_of_lt (by omega)]

end Invariant

variable {T : Type} [DecidableEq T] {k : TimerConfig T} {s s' : TimerQueue T} {t u : T}
  {now later : BitVec 64}

theorem due_eq (ht : t ∈ s.pending) : s.due t = some (s.key t).toNat := if_pos ht

theorem due_eq_none (ht : t ∉ s.pending) : s.due t = none := if_neg ht

theorem due_eq_some {n : ℕ} : s.due t = some n ↔ t ∈ s.pending ∧ (s.key t).toNat = n := by
  rw [due]
  split <;> simp_all

theorem due_eq_none_iff : s.due t = none ↔ t ∉ s.pending := by
  rw [due]
  split <;> simp_all

/-- **`__timer_set_clock`** never fails, and sets the clock to the first time. -/
theorem Inv.timerSetClock (h : s.Inv k) (hsize : ∀ l : List T, l.Nodup → l.length < rbFuel)
    (hms : 1000 * k.oneMs.toNat ≤ 0x7fffffff) (htime : s.time ≤ later) :
    ∃ ms, s.timerSetClock k later = some { s with countdown := ms } ∧
      ({ s with countdown := ms } : TimerQueue T).Armed later.toNat := by
  obtain ⟨t, ht⟩ := h.shape
  rw [TimerQueue.timerSetClock, RbTree.first_spec ht.is (hsize _ ht.is.nodup).le, Option.bind_some]
  cases hhead : t.toList.head? with
  | none =>
    have hnil : t.toList = [] := List.head?_eq_none_iff.mp hhead
    refine ⟨1000, resetClock_eq hms, .inl ⟨fun u => due_eq_none_iff.mpr fun hu => ?_, rfl⟩⟩
    have hmem := (ht.mem u).mpr hu
    rw [hnil] at hmem
    cases hmem
  | some u =>
    obtain ⟨l, hl⟩ := List.head?_eq_some_iff.mp hhead
    have hu : u ∈ s.pending := (ht.mem u).mp (by rw [hl]; exact List.mem_cons_self)
    have hsorted := ht.sorted
    rw [hl, List.pairwise_cons] at hsorted
    have hfirst : ∀ w m, s.due w = some m → (s.key u).toNat ≤ m := by
      intro w m hw
      obtain ⟨hpending, rfl⟩ := due_eq_some.mp hw
      have hmem := (ht.mem w).mpr hpending
      rw [hl] at hmem
      rcases List.mem_cons.mp hmem with rfl | hmem
      · exact Nat.le_refl _
      · have hlt := before_iff.mp (hsorted.1 w hmem)
        omega
    have hbound := h.soon u hu
    have hshort := h.short u hu
    have htime' : s.time.toNat ≤ later.toNat := htime
    dsimp only
    by_cases hdue : s.key u ≤ later
    · rw [if_pos hdue]
      have hle : (s.key u).toNat ≤ later.toNat := hdue
      refine ⟨0, resetClock_eq (by simp), .inr ⟨u, _, due_eq hu, ?_, hfirst⟩⟩
      show 0 = (s.key u).toNat - later.toNat
      omega
    · rw [if_neg hdue]
      have hlt : later.toNat < (s.key u).toNat := Nat.not_le.mp hdue
      have hsub : (s.key u - later).toNat = (s.key u).toNat - later.toNat := by
        rw [BitVec.toNat_sub]
        have := (s.key u).isLt
        omega
      refine ⟨_, resetClock_eq ?_, .inr ⟨u, _, due_eq hu, hsub, hfirst⟩⟩
      rw [hsub]
      exact (Nat.mul_le_mul_right _ (by omega)).trans hshort

/-! ### The functions -/

/-- **`set_cpu_timer`** -/
theorem Inv.setCpuTimer (h : s.Inv k) (haddr : Function.Injective k.addr)
    (hsize : ∀ l : List T, l.Nodup → l.length < rbFuel)
    (hms : 1000 * k.oneMs.toNat ≤ 0x7fffffff) (hok : s.Timely k (.set t now later)) :
    ∃ s', s.setCpuTimer k t now later = some s' ∧ s'.Inv k ∧ s'.Armed later.toNat ∧
      s'.due = Function.update s.due t (some (now.toNat + (k.elapse t).toNat)) := by
  obtain ⟨hnow, hlater, hfresh, hpos, hsum, hshort⟩ := hok
  have hle : now.toNat ≤ later.toNat := hlater
  have htime : s.time.toNat ≤ now.toNat := hnow
  obtain ⟨b, hb⟩ := h.shape
  have hnot : t ∉ b.toList := fun hmem => hfresh ((hb.mem t).mp hmem)
  set key := Function.update s.key t (now + (k.elapse t).signExtend 64) with hkey
  have hself : (key t).toNat = now.toNat + (k.elapse t).toNat := by
    rw [hkey, Function.update_self]
    exact toNat_key hpos (by omega)
  have hother : ∀ u ∈ s.pending, key u = s.key u := fun u hu =>
    Function.update_of_ne (ne_of_mem_of_not_mem hu hfresh) _ _
  -- the tree is in order for the new times as well, and the comparison is the order
  have hsorted : b.toList.Pairwise fun l r => before k.addr key l r :=
    hb.sorted.imp_of_mem fun hl hr hlr => by
      rwa [before_congr (hother _ ((hb.mem _).mp hl)) (hother _ ((hb.mem _).mp hr))]
  have hinsert : s.tree.insert (timerCmp k.addr key) t = s.tree.insert (before k.addr key) t := by
    refine RbTree.insert_congr hb.is hnot fun z hz => ?_
    have hz' : (key z).toNat < 2 ^ 63 := by
      rw [hother z ((hb.mem z).mp hz)]
      exact h.key_lt z ((hb.mem z).mp hz)
    exact ⟨timerCmp_eq (by omega) hz', timerCmp_eq hz' (by omega)⟩
  rcases RbTree.insert_spec before_trans hb.is hb.valid hsorted hnot (hsize _ hb.is.nodup) with
    ⟨m', -, -, -, -, z, hz, htz, hzt⟩ | ⟨m', b', hrun, his, hvalid, hsorted', hmem, -⟩
  · -- no two timers are equal
    have heq : t = z := by
      refine haddr ?_
      rw [← Bool.not_eq_true, before_iff] at htz hzt
      omega
    exact absurd (heq ▸ hz) hnot
  · set x : TimerQueue T :=
      { s with
        triggered := Function.update s.triggered t false
        key := key
        node := m'.node
        root := m'.root
        pending := insert t s.pending
        time := later } with hx
    have hinv : x.Inv k := by
      refine ⟨⟨b', his, hvalid, hsorted', fun u => ?_⟩, fun u hu => ?_, fun u hu => ?_,
        fun u hu => ?_, fun u hu => ?_⟩
      · rw [hmem, hb.mem]
        exact Finset.mem_insert.symm
      · rcases Finset.mem_insert.mp hu with rfl | hu
        · show (key u).toNat < _
          omega
        · show (key u).toNat < _
          rw [hother u hu]
          exact h.key_lt u hu
      · rcases Finset.mem_insert.mp hu with rfl | hu
        · show (key u).toNat ≤ later.toNat + _
          omega
        · have hsoon := h.soon u hu
          show (key u).toNat ≤ later.toNat + _
          rw [hother u hu]
          omega
      · rcases Finset.mem_insert.mp hu with rfl | hu
        · exact hshort
        · exact h.short u hu
      · rcases Finset.mem_insert.mp hu with rfl | hu
        · exact Function.update_self _ _ _
        · show Function.update s.triggered t false u = false
          rw [Function.update_of_ne (ne_of_mem_of_not_mem hu hfresh)]
          exact h.armed u hu
    obtain ⟨ms, hset, harmed⟩ := hinv.timerSetClock hsize hms (BitVec.le_refl later)
    refine ⟨{ x with countdown := ms }, ?_, hinv.countdown ms, harmed, funext fun u => ?_⟩
    · rw [TimerQueue.setCpuTimer, ← hkey, hinsert, hrun, Option.bind_some, if_pos rfl]
      exact hset
    · show x.due u = _
      by_cases hut : u = t
      · subst hut
        rw [Function.update_self, due_eq (Finset.mem_insert_self _ _), ← hself]
      · rw [Function.update_of_ne hut, due, due]
        show (if u ∈ insert t s.pending then some (key u).toNat else none) = _
        by_cases hu : u ∈ s.pending
        · rw [if_pos (Finset.mem_insert_of_mem hu), if_pos hu, hother u hu]
        · rw [if_neg hu, if_neg fun hmem => (Finset.mem_insert.mp hmem).elim hut hu]

/-- **`cancel_cpu_timer`** -/
theorem Inv.cancelCpuTimer (h : s.Inv k) (hsize : ∀ l : List T, l.Nodup → l.length < rbFuel)
    (hms : 1000 * k.oneMs.toNat ≤ 0x7fffffff) (htime : s.time ≤ later) (ht : t ∈ s.pending) :
    ∃ s', s.cancelCpuTimer k t later = some s' ∧ s'.Inv k ∧ s'.Armed later.toNat ∧
      s'.due = Function.update s.due t none ∧ s'.pending = s.pending.erase t := by
  obtain ⟨b, hb⟩ := h.shape
  obtain ⟨m', b', hrun, his, hvalid, hlist⟩ :=
    RbTree.erase_spec hb.is hb.valid ((hb.mem t).mpr ht) (hsize _ hb.is.nodup)
  have hle : s.time.toNat ≤ later.toNat := htime
  set x : TimerQueue T :=
    { s with node := m'.node, root := m'.root, pending := s.pending.erase t, time := later } with hx
  have hinv : x.Inv k := by
    refine ⟨⟨b', his, hvalid, ?_, fun u => ?_⟩, fun u hu => h.key_lt u (Finset.mem_of_mem_erase hu),
      fun u hu => ?_, fun u hu => h.short u (Finset.mem_of_mem_erase hu),
      fun u hu => h.armed u (Finset.mem_of_mem_erase hu)⟩
    · rw [hlist]
      exact hb.sorted.sublist List.erase_sublist
    · rw [hlist, hb.is.nodup.mem_erase_iff, hb.mem]
      exact Finset.mem_erase.symm
    · have hsoon := h.soon u (Finset.mem_of_mem_erase hu)
      show (s.key u).toNat ≤ later.toNat + _
      omega
  obtain ⟨ms, hset, harmed⟩ := hinv.timerSetClock hsize hms (BitVec.le_refl later)
  refine ⟨{ x with countdown := ms }, ?_, hinv.countdown ms, harmed, funext fun u => ?_, rfl⟩
  · rw [TimerQueue.cancelCpuTimer, h.armed t ht, if_neg Bool.false_ne_true, hrun, Option.bind_some]
    exact hset
  · show x.due u = _
    by_cases hut : u = t
    · subst hut
      rw [Function.update_self, due_eq_none (Finset.notMem_erase _ _)]
    · rw [Function.update_of_ne hut, due, due]
      show (if u ∈ s.pending.erase t then some (s.key u).toNat else none) = _
      simp only [Finset.mem_erase, ne_eq, hut, not_false_eq_true, true_and]

/-- **One pass** triggers the first timer when it is due. -/
theorem Inv.clockPass (h : s.Inv k) (hsize : ∀ l : List T, l.Nodup → l.length < rbFuel)
    (hms : 1000 * k.oneMs.toNat ≤ 0x7fffffff) (hok : s.Timely k (.pass now later)) :
    ∃ r s', s.clockPass k now later = some (r, s') ∧ s'.Inv k ∧
      s.Serves k r s' (.pass now later) := by
  obtain ⟨hnow, hlater⟩ := hok
  have htime : s.time.toNat ≤ now.toNat := hnow
  have hle : now.toNat ≤ later.toNat := hlater
  obtain ⟨b, hb⟩ := h.shape
  rw [TimerQueue.clockPass, RbTree.first_spec hb.is (hsize _ hb.is.nodup).le, Option.bind_some]
  cases hhead : b.toList.head? with
  | none =>
    have hnil : b.toList = [] := List.head?_eq_none_iff.mp hhead
    refine ⟨none, _, rfl, h.advance hnow, .inl ⟨rfl, rfl, rfl, fun u n hu => ?_⟩⟩
    have hmem := (hb.mem u).mpr (due_eq_some.mp hu).1
    rw [hnil] at hmem
    cases hmem
  | some u =>
    obtain ⟨l, hl⟩ := List.head?_eq_some_iff.mp hhead
    have hu : u ∈ s.pending := (hb.mem u).mp (by rw [hl]; exact List.mem_cons_self)
    have hsorted := hb.sorted
    rw [hl, List.pairwise_cons] at hsorted
    have hfirst : ∀ w m, s.due w = some m →
        (s.key u).toNat < m ∨ (s.key u).toNat = m ∧ k.addr u ≤ k.addr w := by
      intro w m hw
      obtain ⟨hpending, rfl⟩ := due_eq_some.mp hw
      have hmem := (hb.mem w).mpr hpending
      rw [hl] at hmem
      rcases List.mem_cons.mp hmem with rfl | hmem
      · exact .inr ⟨rfl, Nat.le_refl _⟩
      · exact (before_iff.mp (hsorted.1 w hmem)).imp id fun h => ⟨h.1, h.2.le⟩
    dsimp only
    by_cases hdue : now < s.key u
    · rw [if_pos hdue]
      have hlt : now.toNat < (s.key u).toNat := hdue
      refine ⟨none, _, rfl, h.advance hnow, .inl ⟨rfl, rfl, rfl, fun w n hw => ?_⟩⟩
      rcases hfirst w n hw with hlt' | ⟨heq, -⟩ <;> omega
    · rw [if_neg hdue]
      have hdue' : (s.key u).toNat ≤ now.toNat := Nat.not_lt.mp hdue
      have htime' : s.time ≤ later := show s.time.toNat ≤ later.toNat by omega
      obtain ⟨x, hcancel, hinv, harmed, hrest, hpending⟩ := h.cancelCpuTimer hsize hms htime' hu
      refine ⟨some u, { x with triggered := Function.update x.triggered u true }, ?_,
        ⟨hinv.shape, hinv.key_lt, hinv.soon, hinv.short, fun w hw => ?_⟩,
        .inr ⟨u, _, rfl, due_eq hu, hdue', hfirst, hrest, harmed⟩⟩
      · rw [hcancel]
        rfl
      · have hwu : w ≠ u := by
          rintro rfl
          have hw' : w ∈ s.pending.erase w := hpending ▸ hw
          exact Finset.notMem_erase _ _ hw'
        show Function.update x.triggered u true w = false
        rw [Function.update_of_ne hwu]
        exact hinv.armed w hw

/-- **One step.** -/
theorem Inv.step (h : s.Inv k) (haddr : Function.Injective k.addr)
    (hsize : ∀ l : List T, l.Nodup → l.length < rbFuel)
    (hms : 1000 * k.oneMs.toNat ≤ 0x7fffffff) {c : TimerQueueCall T} (hok : s.Timely k c) :
    ∃ r s', s.step k c = some (r, s') ∧ s'.Inv k ∧ s.Serves k r s' c := by
  cases c with
  | set t now later =>
    obtain ⟨s', hrun, hinv, harmed, hdue⟩ := h.setCpuTimer haddr hsize hms hok
    exact ⟨none, s', by rw [TimerQueue.step, hrun]; rfl, hinv, rfl, harmed, hdue⟩
  | cancel t later =>
    obtain ⟨s', hrun, hinv, harmed, hdue, -⟩ := h.cancelCpuTimer hsize hms hok.1 hok.2
    exact ⟨none, s', by rw [TimerQueue.step, hrun]; rfl, hinv, rfl, harmed, hdue⟩
  | clock =>
    have hclock : s.resetClock k 1000 = some { s with countdown := 1000 } := resetClock_eq hms
    exact ⟨none, _, by rw [TimerQueue.step, hclock]; rfl, h.countdown 1000, rfl, rfl⟩
  | pass now later => exact h.clockPass hsize hms hok

theorem inv_of_reachable (haddr : Function.Injective k.addr)
    (hsize : ∀ l : List T, l.Nodup → l.length < rbFuel)
    (hms : 1000 * k.oneMs.toNat ≤ 0x7fffffff)
    (h : (timerQueueSystem k).Reachable (Timely k) s) : s.Inv k := by
  refine h.induction (fun s hs => ?_) fun s c s' hi hok hstep => ?_
  · obtain ⟨hroot, hpending⟩ := hs
    have hnone : ∀ t, t ∉ s.pending := fun t => by
      rw [hpending]
      exact Finset.notMem_empty t
    have hnil : s.tree.Is .nil := RbTree.is_iff.mpr ⟨hroot, trivial, List.nodup_nil⟩
    refine ⟨⟨.nil, hnil, ⟨0, .nil⟩, .nil, fun t => ?_⟩, fun t ht => absurd ht (hnone t),
      fun t ht => absurd ht (hnone t), fun t ht => absurd ht (hnone t),
      fun t ht => absurd ht (hnone t)⟩
    exact iff_of_false (List.not_mem_nil) (hnone t)
  · obtain ⟨r, x, hrun, hinv, -⟩ := hi.step haddr hsize hms hok
    have hstep' : (s.step k c).map Prod.snd = some s' := hstep
    rw [hrun] at hstep'
    exact Option.some.inj hstep' ▸ hinv

end TimerQueue

/-- **The timers of a CPU are a queue.**  In every state of a run of timely calls every timely
call returns, no assertion fails, and the timers that are set are a map from timers to times: `set_cpu_timer` adds
one, `cancel_cpu_timer` removes one, and a pass of the clock interrupt triggers a timer that is
due and first in time, the lower address first, and removes it, or finds that none is due.
Whenever a timer is added or removed the clock is set to the first time that is left. -/
theorem timers_served {T : Type} [DecidableEq T] (k : TimerConfig T)
    (haddr : Function.Injective k.addr) (hsize : ∀ l : List T, l.Nodup → l.length < rbFuel)
    (hms : 1000 * k.oneMs.toNat ≤ 0x7fffffff) (s : TimerQueue T)
    (h : (timerQueueSystem k).Reachable (TimerQueue.Timely k) s) (c : TimerQueueCall T)
    (hok : s.Timely k c) : ∃ r s', s.step k c = some (r, s') ∧ s.Serves k r s' c := by
  have hi := TimerQueue.inv_of_reachable haddr hsize hms h
  obtain ⟨r, s', hrun, -, hserves⟩ := hi.step haddr hsize hms hok
  exact ⟨r, s', hrun, hserves⟩

/-- Three timers, at ten bytes from each other, on a clock with 62500 ticks in a millisecond. -/
def TimerConfig.three : TimerConfig (Fin 3) where
  addr t := 4096 + 10 * t
  elapse t := if t = 1 then 5 else 7
  oneMs := 62500

/-- The second timer, which is set last, is due first. -/
theorem timers_served_three : ∃ s : TimerQueue (Fin 3), s.pending = {0, 1, 2} ∧ s.due 1 = some 16 ∧
    ∃ r s', s.step .three (.pass 20 20) = some (r, s') ∧ s.Serves .three r s' (.pass 20 20) := by
  have hsize : ∀ l : List (Fin 3), l.Nodup → l.length < rbFuel := fun l hl =>
    lt_of_le_of_lt hl.length_le_card (by decide)
  have haddr : Function.Injective TimerConfig.three.addr := fun a b h => by
    have hab : 4096 + 10 * (a : ℕ) = 4096 + 10 * (b : ℕ) := h
    exact Fin.ext (by omega)
  have hrun : ((timerQueueSystem .three).exec (TimerQueue.Timely .three)
      ⟨fun _ => .zero, none, fun _ => false, fun _ => 0, 0, ∅, 0⟩
      [.set 0 10 10, .set 2 10 11, .clock, .set 1 11 11]).map
      (fun s => (s.pending, s.due 1, decide (s.time = 11))) = some ({0, 1, 2}, some 16, true) := by
    decide +kernel
  obtain ⟨s, hs, hf⟩ := Option.map_eq_some_iff.mp hrun
  obtain ⟨hpending, hf⟩ := Prod.mk.inj hf
  obtain ⟨hdue, htime⟩ := Prod.mk.inj hf
  have htime' : s.time = 11 := of_decide_eq_true htime
  exact ⟨s, hpending, hdue, timers_served .three haddr hsize (by decide) s
    ⟨_, ⟨rfl, rfl⟩, System.leads_of_exec hs⟩ _ ⟨by rw [htime']; decide, by decide⟩⟩

end OsLab
