/-
Who holds `sdlock` (`sdrw` and `sd_intr` of `driver/sd.c`, `common/spinlock.c`).

Both functions are cut into the stretches between two accesses to the lock or to the queue.
The requests are pushed under the lock of the queue, so that they come at any time, and a
release clears `sdlock` whoever has it.

* `SdLockState.Exclusive` — at most one thread is in a section; a thread in its section has one
  release less behind it than acquisitions, and outside of it as many;
* `SdLockState.Lone` — the handler does not start the next request after a write;
* `sdlock_exclusive_iff` — in these runs it is so, and a step that is not one of these ends it;
* `sdlock_shared` — two handlers are in their sections.
-/
import OsLab.Driver.Sd

namespace OsLab

/-- Where a thread is in `sdrw` or in `sd_intr`. -/
inductive SdPoint
  | out
  /-- `sdrw` in `_acquire_spinlock(&sdlock)` -/
  | rwSpin (b : ℕ)
  /-- before `sd_start(b)` -/
  | rwLocked (b : ℕ)
  /-- before the release of `sdrw` -/
  | rwStarted
  /-- `sd_intr` in `_acquire_spinlock(&sdlock)` -/
  | intrSpin
  /-- before the interrupt is read and cleared -/
  | intrLocked
  /-- before `queue_empty`; `none` is an interrupt that `sd_intr` does not know, or no one -/
  | serving (interrupt : Option Interrupt)
  /-- before `queue_front` -/
  | front (interrupt : Option Interrupt)
  /-- at the `switch` -/
  | switch (interrupt : Option Interrupt) (b : ℕ)
  /-- before `queue_pop` -/
  | pop (interrupt : Interrupt) (b : ℕ)
  /-- before `post_sem` -/
  | popped (interrupt : Interrupt) (b : ℕ)
  /-- before `queue_empty` is asked again -/
  | posted (interrupt : Interrupt)
  /-- before `queue_front` and `sd_start` of the next request -/
  | next (interrupt : Interrupt)
  /-- before the last `get_and_clear_EMMC_INTERRUPT` and the release at an exit -/
  | leaving
  deriving DecidableEq, Repr

/-- The thread has come into its section and not to its end. -/
def SdPoint.inside : SdPoint → Bool
  | .out | .rwSpin _ | .intrSpin => false
  | _ => true

/-- What the sections look at.  Thread `t` calls `sdrw` and takes interrupts on some CPU. -/
structure SdLockState where
  /-- `sdlock.locked` -/
  locked : Bool
  /-- `buf_queue` -/
  queue : List ℕ
  /-- `B_DIRTY` -/
  dirty : ℕ → Bool
  /-- `B_VALID` -/
  valid : ℕ → Bool
  point : ℕ → SdPoint
  /-- how often the thread has acquired `sdlock` -/
  acquired : ℕ → ℕ
  released : ℕ → ℕ

inductive SdTurn
  /-- `sdrw(b)`, up to the test of `is_empty` -/
  | sdrw (t b : ℕ) (dirty valid : Bool)
  /-- an interrupt: `sd_intr` is called -/
  | intr (t : ℕ)
  /-- the next stretch; `interrupt` is what `*EMMC_INTERRUPT` says if it is read there -/
  | turn (t : ℕ) (interrupt : Option Interrupt)

namespace SdLockState

def goto (s : SdLockState) (t : ℕ) (pc : SdPoint) : SdLockState :=
  { s with point := Function.update s.point t pc }

/-- `_acquire_spinlock(&sdlock)`, when it gets through. -/
def acquire (s : SdLockState) (t : ℕ) : Option SdLockState :=
  if s.locked then none
  else some { s with locked := true, acquired := Function.update s.acquired t (s.acquired t + 1) }

/-- `_release_spinlock(&sdlock)` -/
def release (s : SdLockState) (t : ℕ) : SdLockState :=
  { s with locked := false, released := Function.update s.released t (s.released t + 1) }

/-- The `switch` of `sd_intr`, up to `queue_pop`. -/
def serve (s : SdLockState) (t : ℕ) (interrupt : Option Interrupt) (b : ℕ) : SdLockState :=
  match interrupt with
  | some .readRdy =>
    if s.dirty b = false ∧ s.valid b = false then
      { s with valid := Function.update s.valid b true }.goto t (.pop .readRdy b)
    else s.goto t .leaving
  | some .dataDone =>
    if s.dirty b then { s with dirty := Function.update s.dirty b false }.goto t (.pop .dataDone b)
    -- a read that has not come yet is started again
    else s.goto t .leaving
  | none => s.goto t .leaving

def turn (s : SdLockState) (t : ℕ) (interrupt : Option Interrupt) : Option SdLockState :=
  match s.point t with
  | .out => none
  | .rwSpin b => (s.acquire t).map fun s => s.goto t (.rwLocked b)
  | .rwLocked _ => some (s.goto t .rwStarted)
  | .rwStarted => some ((s.release t).goto t .out)
  | .intrSpin => (s.acquire t).map fun s => s.goto t .intrLocked
  | .intrLocked => some (s.goto t (.serving interrupt))
  | .serving i => some (s.goto t (if s.queue = [] then .leaving else .front i))
  | .front i => s.queue.head?.map fun b => s.goto t (.switch i b)
  | .switch i b => some (s.serve t i b)
  | .pop i b =>
    match s.queue with
    | [] => none
    | _ :: queue => some ({ s with queue := queue }.goto t (.popped i b))
  | .popped i _ => some (s.goto t (.posted i))
  | .posted i => some (s.goto t (if s.queue = [] then .leaving else .next i))
  | .next i =>
    if s.queue = [] then none
    -- after a write `sdlock` is released here, and at the end again
    else some ((if i = .dataDone then s.release t else s).goto t .leaving)
  | .leaving => some ((s.release t).goto t .out)

def step (s : SdLockState) : SdTurn → Option SdLockState
  | .sdrw t b dirty valid =>
    if s.point t = .out then
      -- behind another request `sdrw` is at its end
      some ({ s with
        queue := s.queue ++ [b]
        dirty := Function.update s.dirty b dirty
        valid := Function.update s.valid b valid }.goto t (if s.queue = [] then .rwSpin b else .out))
    else none
  | .intr t => if s.point t = .out then some (s.goto t .intrSpin) else none
  | .turn t interrupt => s.turn t interrupt

/-- At most one thread is in a section, it has the lock, and it has released it as often as
acquired but for this time. -/
structure Exclusive (s : SdLockState) : Prop where
  one : ∀ t u, (s.point t).inside → (s.point u).inside → t = u
  locked : s.locked = true ↔ ∃ t, (s.point t).inside
  once : ∀ t, s.acquired t = s.released t + if (s.point t).inside then 1 else 0

/-- The handler is not about to start the next request after a write. -/
def Lone (s : SdLockState) : SdTurn → Prop
  | .turn t _ => s.point t ≠ .next .dataDone
  | _ => True

instance (s : SdLockState) (l : SdTurn) : Decidable (s.Lone l) := by
  unfold Lone
  split <;> infer_instance

end SdLockState

/-- Nobody is in the driver; any requests are in the queue. -/
def sdLockSystem : System SdLockState SdTurn where
  init s := s.locked = false ∧ (∀ t, s.point t = .out) ∧ (∀ t, s.acquired t = 0) ∧
    ∀ t, s.released t = 0
  step := SdLockState.step

namespace SdLockState

variable {s u : SdLockState} {t : ℕ} {c : SdPoint} {i : Option Interrupt}

theorem exclusive_init (h : sdLockSystem.init s) : s.Exclusive := by
  obtain ⟨hlocked, hpoint, hacquired, hreleased⟩ := h
  constructor
  case one =>
    intro t u ht
    rw [hpoint t] at ht
    cases ht
  case locked =>
    rw [hlocked]
    refine iff_of_false Bool.false_ne_true ?_
    rintro ⟨t, ht⟩
    rw [hpoint t] at ht
    cases ht
  case once =>
    intro t
    rw [hacquired, hreleased, hpoint]
    rfl

namespace Exclusive

/-- A thread goes on, in its section or outside of it. -/
theorem go (h : s.Exclusive) (hpc : c.inside = (s.point t).inside)
    (hpoint : u.point = Function.update s.point t c) (hlocked : u.locked = s.locked)
    (hacquired : u.acquired = s.acquired) (hreleased : u.released = s.released) :
    u.Exclusive := by
  have hinside : ∀ v, (u.point v).inside = (s.point v).inside := by
    intro v
    rw [hpoint]
    by_cases hv : v = t
    · rw [hv, Function.update_self, hpc]
    · rw [Function.update_of_ne hv]
  constructor
  case one =>
    intro v w hv hw
    rw [hinside] at hv hw
    exact h.one v w hv hw
  case locked =>
    rw [hlocked, h.locked]
    simp only [hinside]
  case once =>
    intro v
    rw [hacquired, hreleased, hinside]
    exact h.once v

/-- A thread comes into its section when the lock is free. -/
theorem acquire (h : s.Exclusive) (hout : (s.point t).inside = false) (hpc : c.inside = true)
    (hs : (s.acquire t).map (fun s => s.goto t c) = some u) : u.Exclusive := by
  unfold SdLockState.acquire at hs
  split at hs
  · cases hs
  · rename_i hfree
    obtain rfl := Option.some.inj hs
    -- nobody else is in a section
    have hnone : ∀ v, ¬(s.point v).inside = true := fun v hv => hfree (h.locked.mpr ⟨v, hv⟩)
    have hother : ∀ v, (Function.update s.point t c v).inside = true → v = t := by
      intro v hv
      by_contra hne
      rw [Function.update_of_ne hne] at hv
      exact hnone v hv
    constructor
    case one =>
      intro v w hv hw
      rw [hother v hv, hother w hw]
    case locked =>
      refine iff_of_true rfl ⟨t, ?_⟩
      show (Function.update s.point t c t).inside = true
      rw [Function.update_self, hpc]
    case once =>
      intro v
      show Function.update s.acquired t _ v = s.released v +
        if (Function.update s.point t c v).inside then 1 else 0
      have honce := h.once v
      by_cases hv : v = t
      · subst hv
        rw [hout] at honce
        rw [Function.update_self, Function.update_self, hpc, honce]
        rfl
      · rw [Function.update_of_ne hv, Function.update_of_ne hv]
        exact honce

/-- The thread in the section leaves it with a release. -/
theorem release (h : s.Exclusive) (hin : (s.point t).inside = true) (hpc : c.inside = false) :
    ((s.release t).goto t c).Exclusive := by
  -- the lock was the thread's own, so that no section is open after the release
  have hnone : ∀ v, (((s.release t).goto t c).point v).inside = false := by
    intro v
    show (Function.update s.point t c v).inside = false
    by_cases hv : v = t
    · rw [hv, Function.update_self, hpc]
    · rw [Function.update_of_ne hv]
      exact Bool.eq_false_iff.mpr fun hv' => hv (h.one v t hv' hin)
  constructor
  case one =>
    intro v w hv
    rw [hnone v] at hv
    cases hv
  case locked =>
    refine iff_of_false Bool.false_ne_true ?_
    rintro ⟨v, hv⟩
    rw [hnone v] at hv
    cases hv
  case once =>
    intro v
    rw [hnone v]
    show s.acquired v = Function.update s.released t _ v + 0
    have honce := h.once v
    by_cases hv : v = t
    · subst hv
      rw [hin] at honce
      rw [Function.update_self, honce]
      rfl
    · rw [Function.update_of_ne hv]
      have hout : (s.point v).inside = false :=
        Bool.eq_false_iff.mpr fun hv' => hv (h.one v t hv' hin)
      rw [hout] at honce
      exact honce

/-- The stretches of a thread. -/
theorem turn (h : s.Exclusive) (hl : s.point t ≠ .next .dataDone)
    (hs : s.turn t i = some u) : u.Exclusive := by
  unfold SdLockState.turn at hs
  split at hs
  case h_1 => cases hs
  case h_2 b hpc => exact h.acquire (by rw [hpc]; rfl) rfl hs
  case h_3 hpc =>
    obtain rfl := Option.some.inj hs
    exact h.go (t := t) (c := .rwStarted) (by rw [hpc]; rfl) rfl rfl rfl rfl
  case h_4 hpc =>
    obtain rfl := Option.some.inj hs
    exact h.release (by rw [hpc]; rfl) rfl
  case h_5 hpc => exact h.acquire (by rw [hpc]; rfl) rfl hs
  case h_6 hpc =>
    obtain rfl := Option.some.inj hs
    exact h.go (t := t) (c := .serving i) (by rw [hpc]; rfl) rfl rfl rfl rfl
  case h_7 hpc =>
    obtain rfl := Option.some.inj hs
    refine h.go (t := t) ?_ rfl rfl rfl rfl
    rw [hpc]
    split <;> rfl
  case h_8 hpc =>
    obtain ⟨b, -, rfl⟩ := Option.map_eq_some_iff.mp hs
    exact h.go (t := t) (c := .switch _ b) (by rw [hpc]; rfl) rfl rfl rfl rfl
  case h_9 i b hpc =>
    obtain rfl := Option.some.inj hs
    -- served or not, the handler still has the lock
    have hpop : ∀ j, (SdPoint.pop j b).inside = (s.point t).inside := fun _ => by rw [hpc]; rfl
    have hleave : SdPoint.leaving.inside = (s.point t).inside := by rw [hpc]; rfl
    unfold serve
    split
    · split
      · exact h.go (t := t) (hpop .readRdy) rfl rfl rfl rfl
      · exact h.go (t := t) hleave rfl rfl rfl rfl
    · split
      · exact h.go (t := t) (hpop .dataDone) rfl rfl rfl rfl
      · exact h.go (t := t) hleave rfl rfl rfl rfl
    · exact h.go (t := t) hleave rfl rfl rfl rfl
  case h_10 i b hpc =>
    split at hs
    · cases hs
    · obtain rfl := Option.some.inj hs
      exact h.go (t := t) (c := .popped i b) (by rw [hpc]; rfl) rfl rfl rfl rfl
  case h_11 hpc =>
    obtain rfl := Option.some.inj hs
    exact h.go (t := t) (c := .posted _) (by rw [hpc]; rfl) rfl rfl rfl rfl
  case h_12 hpc =>
    obtain rfl := Option.some.inj hs
    refine h.go (t := t) ?_ rfl rfl rfl rfl
    rw [hpc]
    split <;> rfl
  case h_13 i hpc =>
    -- after a read the lock is kept
    have hread : i ≠ .dataDone := by
      rintro rfl
      exact hl hpc
    rw [if_neg hread] at hs
    split at hs
    · cases hs
    · obtain rfl := Option.some.inj hs
      exact h.go (t := t) (c := .leaving) (by rw [hpc]; rfl) rfl rfl rfl rfl
  case h_14 hpc =>
    obtain rfl := Option.some.inj hs
    exact h.release (by rw [hpc]; rfl) rfl

theorem step {l : SdTurn} (h : s.Exclusive) (hl : s.Lone l) (hs : s.step l = some u) :
    u.Exclusive := by
  cases l with
  | sdrw t b dirty valid =>
    simp only [SdLockState.step] at hs
    split at hs
    · rename_i hout
      obtain rfl := Option.some.inj hs
      refine h.go (t := t) ?_ rfl rfl rfl rfl
      rw [hout]
      split <;> rfl
    · cases hs
  | intr t =>
    simp only [SdLockState.step] at hs
    split at hs
    · rename_i hout
      obtain rfl := Option.some.inj hs
      exact h.go (t := t) (c := .intrSpin) (by rw [hout]; rfl) rfl rfl rfl rfl
    · cases hs
  | turn t i => exact h.turn hl hs

/-- After a write the lock is released, and the handler goes on. -/
theorem not_of_next (h : s.Exclusive) (hpc : s.point t = .next .dataDone)
    (hs : s.turn t i = some u) : ¬u.Exclusive := by
  intro hu
  unfold SdLockState.turn at hs
  rw [hpc] at hs
  simp only [if_true] at hs
  split at hs
  · cases hs
  · obtain rfl := Option.some.inj hs
    -- one more release than acquisitions would be behind the thread at its end
    have hbefore := h.once t
    have hafter := hu.once t
    rw [hpc] at hbefore
    change s.acquired t = Function.update s.released t (s.released t + 1) t +
      if (Function.update s.point t .leaving t).inside then 1 else 0 at hafter
    rw [Function.update_self, Function.update_self] at hafter
    change s.acquired t = s.released t + 1 at hbefore
    change s.acquired t = s.released t + 1 + 1 at hafter
    omega

end Exclusive

end SdLockState

/-- **`sdlock` is mutually exclusive**, and each call releases it once while it has it, in all
runs in which no handler starts the next request after a write; a step that does this ends it. -/
theorem sdlock_exclusive_iff (s : SdLockState)
    (h : sdLockSystem.Reachable SdLockState.Lone s) :
    s.Exclusive ∧ ∀ l u, s.step l = some u → (u.Exclusive ↔ s.Lone l) := by
  have hexclusive : s.Exclusive :=
    h.induction (I := SdLockState.Exclusive) (fun _ => SdLockState.exclusive_init)
      fun _ _ _ hinv hl hs => hinv.step hl hs
  refine ⟨hexclusive, fun l u hs => ⟨fun hu => ?_, fun hl => hexclusive.step hl hs⟩⟩
  cases l with
  | sdrw t b dirty valid => trivial
  | intr t => trivial
  | turn t i => exact fun hpc => hexclusive.not_of_next hpc hs hu

def SdLockState.boot : SdLockState where
  locked := false
  queue := []
  dirty _ := false
  valid _ := false
  point _ := .out
  acquired _ := 0
  released _ := 0

theorem SdLockState.init_boot : sdLockSystem.init .boot :=
  ⟨rfl, fun _ => rfl, fun _ => rfl, fun _ => rfl⟩

/-- A read is served with a write behind it, which is started while another handler waits. -/
theorem sdlock_exclusive_two : ∃ s : SdLockState, s.queue = [1] ∧ (s.point 3).inside ∧
    s.released 2 = 1 ∧ s.Exclusive := by
  have hrun : (sdLockSystem.exec SdLockState.Lone .boot
      [.sdrw 0 0 false false, .turn 0 none, .turn 0 none, .turn 0 none, .sdrw 1 1 true false,
        .intr 2, .intr 3, .turn 2 none, .turn 2 (some .readRdy), .turn 2 none, .turn 2 none,
        .turn 2 none, .turn 2 none, .turn 2 none, .turn 2 none, .turn 2 none, .turn 2 none,
        .turn 3 none]).map
      (fun s => (s.queue, (s.point 3).inside, s.released 2)) = some ([1], true, 1) := by
    decide
  obtain ⟨s, hs, heq⟩ := Option.map_eq_some_iff.mp hrun
  simp only [Prod.mk.injEq] at heq
  obtain ⟨hqueue, hinside, hreleased⟩ := heq
  exact ⟨s, hqueue, hinside, hreleased,
    (sdlock_exclusive_iff s ⟨_, SdLockState.init_boot, System.leads_of_exec hs⟩).1⟩

/-- **Two handlers are in their sections**: a write has been served with another request behind
it, and the second release has given away the lock that the second handler had taken. -/
theorem sdlock_shared : ∃ s : SdLockState, sdLockSystem.Reachable (fun _ _ => True) s ∧
    (s.point 3).inside ∧ (s.point 4).inside ∧ s.acquired 2 = 1 ∧ s.released 2 = 2 := by
  have hrun : (sdLockSystem.exec (fun _ _ => True) .boot
      [.sdrw 0 0 true false, .turn 0 none, .turn 0 none, .turn 0 none, .sdrw 1 1 true false,
        .intr 2, .turn 2 none, .turn 2 (some .dataDone), .turn 2 none, .turn 2 none,
        .turn 2 none, .turn 2 none, .turn 2 none, .turn 2 none, .turn 2 none,
        .intr 3, .turn 3 none, .turn 2 none, .intr 4, .turn 4 none]).map
      (fun s => ((s.point 3).inside, (s.point 4).inside, s.acquired 2, s.released 2)) =
      some (true, true, 1, 2) := by
    decide
  obtain ⟨s, hs, heq⟩ := Option.map_eq_some_iff.mp hrun
  simp only [Prod.mk.injEq] at heq
  obtain ⟨hthree, hfour, hacquired, hreleased⟩ := heq
  exact ⟨s, ⟨_, SdLockState.init_boot, System.leads_of_exec hs⟩, hthree, hfour, hacquired,
    hreleased⟩

end OsLab
