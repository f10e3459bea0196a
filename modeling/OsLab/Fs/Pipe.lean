/-
The bytes that go through a pipe (`fs/pipe.c`, `fs/pipe.h`).

`Pipe.turn` is one turn of the loop of `pipeWrite` or `pipeRead`; `pipeSystem`
interleaves the turns of any number of calls in any order.  The history has the bytes
stored and the bytes delivered so far.

* `PipeState.Inv`, `inv_step` — what is stored is what was delivered and what is still
  in the buffer;
* `pipe_sound` — so no byte is lost, doubled or overwritten, also across the wrap of
  `nread` and `nwrite`, and a short read means an empty pipe without writers.
-/
import OsLab.Lib.Ring
import OsLab.Lib.System

namespace OsLab

/-- `PIPESIZE` -/
abbrev pipeSize : ℕ := 512

local instance pipeSize_neZero : NeZero pipeSize := ⟨by decide⟩

/-- `Pipe`, without its locks. -/
structure Pipe where
  data : Fin pipeSize → UInt8
  nread : BitVec 32
  nwrite : BitVec 32
  readopen : Bool
  writeopen : Bool

/-- A call of `pipeWrite` or `pipeRead`, with the bytes it has moved so far. -/
inductive PipeCall
  | write (addr : ℕ → UInt8) (n : ℤ) (i : ℕ)
  /-- `got` is `addr[0 .. i - 1]` -/
  | read (n : ℤ) (got : List UInt8)

/-- What a turn of the loop comes to. -/
inductive PipeTurn
  /-- `wait_sem` -/
  | wait
  | finish (ret : ℤ)
  /-- the byte has been copied -/
  | moved (c : UInt8) (pi : Pipe) (call : PipeCall)

namespace Pipe

/-- `pi->nwrite == (pi->nread + PIPESIZE)` -/
def full (pi : Pipe) : Bool := pi.nwrite == pi.nread + BitVec.ofNat 32 pipeSize

/-- `pi->nread == pi->nwrite` -/
def empty (pi : Pipe) : Bool := pi.nread == pi.nwrite

/-- `pi->data[pi->nwrite++ % PIPESIZE] = c` -/
def put (pi : Pipe) (c : UInt8) : Pipe :=
  { pi with
    data := Function.update pi.data (Ring.slot pipeSize pi.nwrite) c
    nwrite := pi.nwrite + 1 }

/-- `pi->data[pi->nread++ % PIPESIZE]` -/
def take (pi : Pipe) : UInt8 × Pipe :=
  (pi.data (Ring.slot pipeSize pi.nread), { pi with nread := pi.nread + 1 })

/-- A turn of the `for` loop of `pipeWrite` or `pipeRead`. -/
def turn (pi : Pipe) : PipeCall → PipeTurn
  | .write addr n i =>
    if (i : ℤ) < n then
      if pi.full && pi.readopen then .wait
      else if !pi.readopen then .finish (-1)
      else .moved (addr i) (pi.put (addr i)) (.write addr n (i + 1))
    else .finish n
  | .read n got =>
    if (got.length : ℤ) < n then
      if pi.empty && pi.writeopen then .wait
      else if pi.empty then .finish got.length
      else .moved pi.take.1 pi.take.2 (.read n (got ++ [pi.take.1]))
    else .finish got.length

/-- What `pipeClose` does to the end. -/
def close (pi : Pipe) (writable : Bool) : Pipe :=
  if writable then { pi with writeopen := false } else { pi with readopen := false }

/-- The unread bytes, oldest first. -/
def unread (pi : Pipe) : List UInt8 := Ring.contents pi.data pi.nread pi.nwrite

end Pipe

/-- A pipe, the calls in progress, and the bytes that went in and came out. -/
structure PipeState where
  pipe : Pipe
  call : ℕ → Option PipeCall
  stored : List UInt8
  delivered : List UInt8

inductive PipeStep
  | write (p : ℕ) (addr : ℕ → UInt8) (n : ℤ)
  | read (p : ℕ) (n : ℤ)
  | turn (p : ℕ)
  | close (writable : Bool)

namespace PipeState

/-- A call begins. -/
def enter (s : PipeState) (p : ℕ) (call : PipeCall) : Option PipeState :=
  if (s.call p).isNone then some { s with call := Function.update s.call p (some call) } else none

/-- The byte `c` that a call has moved goes to the history. -/
def record (s : PipeState) (c : UInt8) : PipeCall → PipeState
  | .write .. => { s with stored := s.stored ++ [c] }
  | .read .. => { s with delivered := s.delivered ++ [c] }

def step (s : PipeState) : PipeStep → Option PipeState
  | .write p addr n => s.enter p (.write addr n 0)
  | .read p n => s.enter p (.read n [])
  | .turn p =>
    (s.call p).map fun call =>
      match s.pipe.turn call with
      | .wait => s
      | .finish _ => { s with call := Function.update s.call p none }
      | .moved c pi call' =>
        { s.record c call with pipe := pi, call := Function.update s.call p (some call') }
  | .close writable => some { s with pipe := s.pipe.close writable }

end PipeState

/-- The pipe as `pipeAlloc` leaves it; its buffer is not initialised. -/
def pipeSystem : System PipeState PipeStep where
  init s := s.pipe.nread = 0 ∧ s.pipe.nwrite = 0 ∧ s.pipe.readopen = true ∧
    s.pipe.writeopen = true ∧ (∀ p, s.call p = none) ∧ s.stored = [] ∧ s.delivered = []
  step := PipeState.step

namespace Pipe

variable {pi : Pipe} {c : UInt8}

theorem length_unread : pi.unread.length = (pi.nwrite - pi.nread).toNat := Ring.length_contents

theorem full_iff : pi.full = true ↔ pi.unread.length = pipeSize := by
  rw [full, beq_iff_eq, length_unread]
  exact Ring.full_iff (by decide)

theorem empty_iff : pi.empty = true ↔ pi.unread = [] := by
  rw [empty, beq_iff_eq, ← List.length_eq_zero_iff, length_unread]
  exact Ring.empty_iff

@[simp] theorem unread_close (writable : Bool) : (pi.close writable).unread = pi.unread := by
  unfold close
  split <;> rfl

/-- A byte that is stored goes behind the others, and none of them is overwritten. -/
theorem unread_put (hroom : pi.unread.length < pipeSize) :
    (pi.put c).unread = pi.unread ++ [c] := by
  rw [length_unread] at hroom
  exact Ring.contents_push (by decide) hroom (by decide)

/-- The byte that is fetched is the oldest one. -/
theorem unread_take (hne : pi.unread ≠ []) : pi.unread = pi.take.1 :: pi.take.2.unread := by
  refine Ring.contents_pop (Nat.pos_of_ne_zero fun hzero => hne ?_)
  rw [← List.length_eq_zero_iff]
  exact length_unread.trans hzero

/-- What a turn that copies a byte does to the unread bytes. -/
theorem turn_moved {call call' : PipeCall} {pi' : Pipe} (hle : pi.unread.length ≤ pipeSize)
    (h : pi.turn call = .moved c pi' call') :
    (∃ addr n i, call = .write addr n i ∧ pi'.unread = pi.unread ++ [c] ∧
      pi'.unread.length ≤ pipeSize) ∨
    ∃ n got, call = .read n got ∧ pi.unread = c :: pi'.unread := by
  cases call with
  | write addr n i =>
    simp only [turn] at h
    split_ifs at h with hi hwait hclosed
    cases h
    -- the loop has seen room, and the read end is open
    have hroom : pi.unread.length ≠ pipeSize := by
      intro heq
      rw [full_iff.mpr heq] at hwait
      simp_all
    have hput := unread_put (c := addr i) (lt_of_le_of_ne hle hroom)
    refine .inl ⟨addr, n, i, rfl, hput, ?_⟩
    rw [hput, List.length_append, List.length_singleton]
    omega
  | read n got =>
    simp only [turn] at h
    split_ifs at h with hi hwait hempty
    cases h
    exact .inr ⟨n, got, rfl, unread_take fun hnil => hempty (empty_iff.mpr hnil)⟩

/-- A read that returns early has found the pipe empty and without a write end. -/
theorem turn_read_finish {n ret : ℤ} {got : List UInt8}
    (h : pi.turn (.read n got) = .finish ret) :
    ret = got.length ∧ (ret < n → pi.unread = [] ∧ pi.writeopen = false) := by
  simp only [turn] at h
  split_ifs at h with hi hwait hempty
  · cases h
    refine ⟨rfl, fun _ => ⟨empty_iff.mp hempty, ?_⟩⟩
    rw [hempty, Bool.true_and, Bool.not_eq_true] at hwait
    exact hwait
  · cases h
    exact ⟨rfl, fun hlt => absurd hlt hi⟩

end Pipe

namespace PipeState

variable {s s' : PipeState} {l : PipeStep}

/-- The bytes delivered and the unread ones are the bytes stored. -/
structure Inv (s : PipeState) : Prop where
  stored : s.stored = s.delivered ++ s.pipe.unread
  room : s.pipe.unread.length ≤ pipeSize

theorem inv_init (h : pipeSystem.init s) : s.Inv := by
  obtain ⟨hread, hwrite, -, -, -, hstored, hdelivered⟩ := h
  have hnil : s.pipe.unread = [] := by
    apply Pipe.empty_iff.mp
    rw [Pipe.empty, hread, hwrite]
    rfl
  constructor
  · rw [hstored, hdelivered, hnil]
    rfl
  · rw [hnil]
    exact Nat.zero_le _

/-- A turn of a call. -/
theorem inv_turn {p : ℕ} (h : s.Inv) (hs : s.step (.turn p) = some s') : s'.Inv := by
  obtain ⟨call, -, rfl⟩ := Option.map_eq_some_iff.mp hs
  cases hturn : s.pipe.turn call with
  | wait => exact h
  | finish ret => exact ⟨h.stored, h.room⟩
  | moved c pi call' =>
    rcases Pipe.turn_moved h.room hturn with ⟨addr, n, i, rfl, hput, hroom⟩ | ⟨n, got, rfl, htake⟩
    · refine ⟨?_, hroom⟩
      simp only [record, hput, h.stored, List.append_assoc]
    · have hroom := h.room
      rw [htake, List.length_cons] at hroom
      refine ⟨?_, Nat.le_of_succ_le hroom⟩
      simp only [record, h.stored, htake, List.append_assoc, List.singleton_append]

theorem inv_step (h : s.Inv) (hs : s.step l = some s') : s'.Inv := by
  cases l with
  | write p addr n =>
    simp only [step, enter] at hs
    split at hs
    · cases hs
      exact ⟨h.stored, h.room⟩
    · cases hs
  | read p n =>
    simp only [step, enter] at hs
    split at hs
    · cases hs
      exact ⟨h.stored, h.room⟩
    · cases hs
  | turn p => exact inv_turn h hs
  | close writable =>
    cases hs
    refine ⟨?_, ?_⟩
    · rw [Pipe.unread_close]
      exact h.stored
    · rw [Pipe.unread_close]
      exact h.room

theorem inv_of_reachable (h : pipeSystem.Reachable (fun _ _ => True) s) : s.Inv :=
  h.induction (fun _ => inv_init) fun _ _ _ hi _ hs => inv_step hi hs

end PipeState

/-- **A pipe is a queue of bytes**: in every interleaving of turns of `pipeWrite` and
`pipeRead`, what has been delivered is a prefix of what has been stored, the rest is in
the buffer, and a read that returns fewer bytes than asked has delivered everything and
finds the write end closed. -/
theorem pipe_sound (s : PipeState) (h : pipeSystem.Reachable (fun _ _ => True) s) :
    s.delivered <+: s.stored ∧
    s.pipe.unread = s.stored.drop s.delivered.length ∧
    (s.pipe.nwrite - s.pipe.nread).toNat = s.stored.length - s.delivered.length ∧
    (s.pipe.nwrite - s.pipe.nread).toNat ≤ pipeSize ∧
    ∀ n got ret, s.pipe.turn (.read n got) = .finish ret → ret < n →
      ret = got.length ∧ s.delivered = s.stored ∧ s.pipe.writeopen = false := by
  have hi := PipeState.inv_of_reachable h
  refine ⟨⟨_, hi.stored.symm⟩, ?_, ?_, ?_, fun n got ret hturn hlt => ?_⟩
  · rw [hi.stored, List.drop_left]
  · rw [← Pipe.length_unread, hi.stored, List.length_append, Nat.add_sub_cancel_left]
  · rw [← Pipe.length_unread]
    exact hi.room
  · obtain ⟨hret, hshort⟩ := Pipe.turn_read_finish hturn
    obtain ⟨hnil, hclosed⟩ := hshort hlt
    refine ⟨hret, ?_, hclosed⟩
    rw [hi.stored, hnil, List.append_nil]

namespace PipeState

/-- The pipe that `pipeAlloc` makes. -/
def new : PipeState where
  pipe := ⟨fun _ => 0, 0, 0, true, true⟩
  call := fun _ => none
  stored := []
  delivered := []

theorem init_new : pipeSystem.init new := ⟨rfl, rfl, rfl, rfl, fun _ => rfl, rfl, rfl⟩

end PipeState

/-- A write of three bytes, and a read of five that gets the first two of them so far. -/
theorem pipe_sound_two : ∃ s : PipeState, s.stored = [7, 8, 9] ∧ s.delivered = [7, 8] ∧
    s.delivered <+: s.stored ∧ (s.pipe.nwrite - s.pipe.nread).toNat = 1 := by
  have hrun : (pipeSystem.exec (fun _ _ => True) .new
      [.write 0 (fun i => UInt8.ofNat (i + 7)) 3, .read 1 5, .turn 0, .turn 1, .turn 1, .turn 0,
        .turn 0, .turn 1]).map (fun s => (s.stored, s.delivered)) = some ([7, 8, 9], [7, 8]) := by
    decide
  obtain ⟨s, hs, heq⟩ := Option.map_eq_some_iff.mp hrun
  obtain ⟨hstored, hdelivered⟩ := Prod.mk.inj heq
  obtain ⟨hinitial, -, hcount, -⟩ := pipe_sound s ⟨_, PipeState.init_new, System.leads_of_exec hs⟩
  refine ⟨s, hstored, hdelivered, hinitial, ?_⟩
  rw [hcount, hstored, hdelivered]
  rfl

end OsLab
