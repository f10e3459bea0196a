/-
The SD card driver (`sdrw`, `sd_start` and `sd_intr` of `driver/sd.c`).

A request is pushed onto `buf_queue`; the first one starts its command itself and waits for
its semaphore, and `sd_intr` serves the first one and starts the next.  `buf_queue` has a
lock of its own for the push, and the handler runs under `sdlock`, so that requests may
come between the steps of the handler.

* `SdState.Done` — a call that has returned has been served, and has left the queue;
* `SdState.Alone` — a request comes when the queue is empty and the handler is not about
  to look at it;
* `sdrw_done` — so it is in the runs of such requests: a request behind another one does
  not wait at all.
-/
import OsLab.Lib.System
import Mathlib.Data.Int.Notation
import Mathlib.Logic.Function.Basic
import Mathlib.Order.Basic

namespace OsLab

/-- The data of a sector. -/
abbrev Sector := List UInt8

/-- `struct buf` -/
structure SdBuf where
  blockno : ℕ
  /-- `B_DIRTY` -/
  dirty : Bool
  /-- `B_VALID` -/
  valid : Bool
  data : Sector
  /-- `done.val` -/
  done : ℤ
  /-- `up` of the process that waits for `done` -/
  up : Bool
  deriving Inhabited

/-- `EMMC_INTERRUPT` -/
inductive Interrupt
  /-- `INT_READ_RDY` -/
  | readRdy
  /-- `INT_DATA_DONE` -/
  | dataDone
  deriving DecidableEq, Repr

/-- A command to the card: the call it is for, the sector, and the data of a write. -/
structure SdCommand where
  owner : ℕ
  blockno : ℕ
  write : Option Sector

/-- Where a call of `sdrw` is. -/
inductive SdCall
  | out
  /-- the request is in the queue, and was the first -/
  | pushed
  /-- before `wait_sem(&b->done)` -/
  | started
  | asleep
  | returned
  deriving DecidableEq, Repr

/-- Where `sd_intr` is on a CPU. -/
inductive SdIntr
  | out
  /-- under `sdlock`, with the interrupt that was read and cleared -/
  | entered (interrupt : Option Interrupt)
  /-- after `queue_pop`, before `post_sem` -/
  | popped (interrupt : Interrupt) (b : ℕ)
  /-- before `queue_empty` is asked again -/
  | posted (interrupt : Interrupt)
  /-- before the last `get_and_clear_EMMC_INTERRUPT` -/
  | leaving
  deriving DecidableEq, Repr

/-- The driver and the card.  Call `k` of `sdrw` has the buffer `buf k` on its stack. -/
structure SdState where
  queue : List ℕ
  buf : ℕ → SdBuf
  call : ℕ → SdCall
  intr : ℕ → SdIntr
  /-- the CPU whose handler has `sdlock` -/
  sdlock : Option ℕ
  /-- the command that the card works on -/
  command : Option SdCommand
  /-- `*EMMC_INTERRUPT` -/
  pending : Option Interrupt
  /-- what comes out of `*EMMC_DATA` -/
  fifo : Sector
  disk : ℕ → Sector
  /-- the call was made for a write -/
  write : ℕ → Bool
  /-- what the card has read for a call, or has accepted from it -/
  moved : ℕ → Option Sector
  /-- `done` has been posted for the call -/
  posted : ℕ → Bool

inductive SdStep
  /-- `sdrw` of call `k` with a buffer that holds these -/
  | push (k blockno : ℕ) (dirty valid : Bool) (data : Sector) (done : ℤ)
  /-- its section under `sdlock` -/
  | start (k : ℕ)
  | wait (k : ℕ)
  | wake (k : ℕ)
  /-- the process is woken by a signal -/
  | alert (k : ℕ)
  /-- the card ends a command, and raises its interrupt -/
  | card
  | enter (cpu : ℕ)
  | serve (cpu : ℕ)
  | post (cpu : ℕ)
  | next (cpu : ℕ)
  | leave (cpu : ℕ)

namespace SdState

/-- The command for a buffer. -/
def commandOf (s : SdState) (b : ℕ) : SdCommand where
  owner := b
  blockno := (s.buf b).blockno
  write := if (s.buf b).dirty then some (s.buf b).data else none

/-- `sd_start`; it panics when the card is busy or an interrupt has not been cleared. -/
def sdStart (s : SdState) (b : ℕ) : Option SdState :=
  if s.pending = none ∧ s.command.isNone then
    some { s with command := some (s.commandOf b) }
  else none

def setBuf (s : SdState) (b : ℕ) (f : SdBuf → SdBuf) : SdState :=
  { s with buf := Function.update s.buf b (f (s.buf b)) }

def setCall (s : SdState) (k : ℕ) (pc : SdCall) : SdState :=
  { s with call := Function.update s.call k pc }

def setIntr (s : SdState) (cpu : ℕ) (pc : SdIntr) : SdState :=
  { s with intr := Function.update s.intr cpu pc }

/-- The first part of `sd_intr`, up to `queue_pop`. -/
def serve (s : SdState) (cpu : ℕ) (interrupt : Option Interrupt) : Option SdState :=
  match s.queue with
  | [] => some { s.setIntr cpu .out with pending := none, sdlock := none }
  | b :: queue =>
    match interrupt with
    | some .readRdy =>
      if (s.buf b).dirty = false ∧ (s.buf b).valid = false then
        -- the words are read, and `INT_DATA_DONE` is waited for
        some ({ s.setBuf b fun x => { x with data := s.fifo, valid := true } with
          queue := queue, pending := none }.setIntr cpu (.popped .readRdy b))
      else some (s.setIntr cpu .leaving)
    | some .dataDone =>
      if (s.buf b).dirty then
        some ({ s.setBuf b fun x => { x with dirty := false } with
          queue := queue, pending := none }.setIntr cpu (.popped .dataDone b))
      else if (s.buf b).valid = false then
        -- "warning, write interrupt but read"
        (sdStart { s with pending := none } b).map fun s => s.setIntr cpu .leaving
      else some (s.setIntr cpu .leaving)
    | none => some (s.setIntr cpu .leaving)

def step (s : SdState) : SdStep → Option SdState
  | .push k blockno dirty valid data done =>
    -- a read has no flags, a write has `B_DIRTY`
    if s.call k = .out ∧ (dirty || !valid) then
      some { s with
        queue := s.queue ++ [k]
        buf := Function.update s.buf k
          { blockno := blockno, dirty := dirty, valid := valid, data := data, done := done
            up := false }
        write := Function.update s.write k dirty
        -- behind another request `sdrw` is at its end
        call := Function.update s.call k (if s.queue = [] then .pushed else .returned) }
    else none
  | .start k =>
    if s.call k = .pushed ∧ s.sdlock = none then
      (s.sdStart k).map fun s => s.setCall k .started
    else none
  | .wait k =>
    if s.call k = .started then
      let s := s.setBuf k fun x => { x with done := x.done - 1 }
      some (s.setCall k (if (s.buf k).done ≥ 0 then .returned else .asleep))
    else none
  | .wake k =>
    if s.call k = .asleep ∧ (s.buf k).up then some (s.setCall k .returned) else none
  | .alert k =>
    if s.call k = .asleep ∧ (s.buf k).up = false then
      some ((s.setBuf k fun x => { x with done := x.done + 1 }).setCall k .returned)
    else none
  | .card =>
    match s.command with
    | none => none
    | some c =>
      match c.write with
      | none => some { s with
          command := none
          fifo := s.disk c.blockno
          moved := Function.update s.moved c.owner (some (s.disk c.blockno))
          pending := some .readRdy }
      | some data => some { s with
          command := none
          disk := Function.update s.disk c.blockno data
          moved := Function.update s.moved c.owner (some data)
          pending := some .dataDone }
  | .enter cpu =>
    if s.intr cpu = .out ∧ s.sdlock = none then
      some ({ s with sdlock := some cpu, pending := none }.setIntr cpu (.entered s.pending))
    else none
  | .serve cpu =>
    match s.intr cpu with
    | .entered interrupt => s.serve cpu interrupt
    | _ => none
  | .post cpu =>
    match s.intr cpu with
    | .popped interrupt b =>
      let s := s.setBuf b fun x => { x with done := x.done + 1, up := x.up || decide (x.done + 1 ≤ 0) }
      some ({ s with posted := Function.update s.posted b true }.setIntr cpu (.posted interrupt))
    | _ => none
  | .next cpu =>
    match s.intr cpu with
    | .posted interrupt =>
      match s.queue with
      | [] => some (s.setIntr cpu .leaving)
      | b :: _ =>
        (s.sdStart b).map fun s =>
          -- after a write `sdlock` is released here, and at the end again
          let sdlock := if interrupt = .dataDone then none else s.sdlock
          { s.setIntr cpu .leaving with sdlock := sdlock }
    | _ => none
  | .leave cpu =>
    if s.intr cpu = .leaving then
      some ({ s with pending := none, sdlock := none }.setIntr cpu .out)
    else none

/-- The transfer of the call is over, and its buffer has what it should have. -/
def Served (s : SdState) (k : ℕ) : Prop :=
  s.moved k = some (s.buf k).data ∧
    if s.write k then (s.buf k).dirty = false else (s.buf k).valid = true

/-- A call that has returned has been served, and is not in the queue. -/
def Done (s : SdState) : Prop :=
  ∀ k, s.call k = .returned → k ∉ s.queue ∧ s.Served k

/-- The handler is between its `queue_pop` and its question whether the queue is empty. -/
def Popping (s : SdState) : Prop :=
  match s.sdlock.map s.intr with
  | some (.popped _ _) => True
  | some (.posted _) => True
  | _ => False

instance (s : SdState) : Decidable s.Popping := by
  unfold Popping
  split <;> infer_instance

/-- A request comes with a fresh semaphore, when the queue is empty and the handler is not
about to look at it; and nobody is woken by a signal. -/
def Alone (s : SdState) : SdStep → Prop
  | .push _ _ _ _ _ done => s.queue = [] ∧ ¬s.Popping ∧ done = 0
  | .alert _ => False
  | _ => True

instance (s : SdState) (l : SdStep) : Decidable (s.Alone l) := by
  unfold Alone
  split <;> infer_instance

end SdState

/-- No requests, and a card that does nothing. -/
def sdSystem : System SdState SdStep where
  init s := s.queue = [] ∧ (∀ k, s.call k = .out) ∧ (∀ c, s.intr c = .out) ∧ s.sdlock = none ∧
    s.command = none ∧ s.pending = none ∧ (∀ k, s.moved k = none) ∧ ∀ k, s.posted k = false
  step := SdState.step

namespace SdState

/-- The card has ended the command of the request, and the interrupt is still to be served. -/
def Ready (s : SdState) (i : Interrupt) : Prop :=
  s.command = none ∧ ∃ k, s.queue = [k] ∧ s.call k ≠ .pushed ∧
    match i with
    | .readRdy => s.write k = false ∧ s.moved k = some s.fifo
    | .dataDone => s.write k = true ∧ s.moved k = some (s.buf k).data

/-- What holds while requests come alone. -/
structure Inv (s : SdState) : Prop where
  lock : ∀ c, s.intr c ≠ .out → s.sdlock = some c
  one : s.queue.length ≤ 1
  /-- who is in the queue waits, and has the flags of its request -/
  queued : ∀ k ∈ s.queue, s.call k ≠ .out ∧ s.posted k = false ∧ (s.buf k).dirty = s.write k ∧
    (s.write k = false → (s.buf k).valid = false)
  pushed : ∀ k, s.call k = .pushed → k ∈ s.queue
  /-- the semaphore counts the post and the wait -/
  sem : ∀ k, (s.call k = .pushed ∨ s.call k = .started →
      (s.buf k).done = (if s.posted k then 1 else 0) ∧ (s.buf k).up = false) ∧
    (s.call k = .asleep →
      (s.buf k).done = (if s.posted k then 0 else -1) ∧ (s.buf k).up = s.posted k)
  returned : ∀ k, s.call k = .returned → s.posted k = true
  posted : ∀ k, s.posted k = true → s.call k ≠ .out ∧ s.Served k
  popped : ∀ c i b, s.intr c = .popped i b → s.queue = [] ∧ s.posted b = false ∧
    s.call b ≠ .out ∧ s.call b ≠ .pushed ∧ s.Served b
  empty : ∀ c i, s.intr c = .posted i → s.queue = []
  /-- the command is that of the request in the queue -/
  command : ∀ x, s.command = some x → s.pending = none ∧
    (∀ c i, s.intr c = .entered i → i = none) ∧ s.queue = [x.owner] ∧ s.call x.owner ≠ .pushed ∧
      x.write = if s.write x.owner then some (s.buf x.owner).data else none
  pending : ∀ i, s.pending = some i → s.Ready i ∧ ∀ c j, s.intr c = .entered j → j = none
  entered : ∀ c i, s.intr c = .entered (some i) → s.Ready i

variable {s t : SdState} {b k cpu : ℕ}

theorem sdStart_cases (h : s.sdStart b = some t) : s.pending = none ∧ s.command = none ∧
    t = { s with command := some (s.commandOf b) } := by
  unfold sdStart at h
  split at h
  · rename_i hidle
    cases h
    exact ⟨hidle.1, Option.isNone_iff_eq_none.mp hidle.2, rfl⟩
  · cases h

/-- The request in the queue is the one of the command, or of the interrupt. -/
theorem Inv.queue_eq (h : s.Inv) (hk : k ∈ s.queue) : s.queue = [k] := by
  have hone := h.one
  cases hq : s.queue with
  | nil =>
    rw [hq] at hk
    cases hk
  | cons q l =>
    rw [hq, List.length_cons] at hone
    obtain rfl := List.length_eq_zero_iff.mp (Nat.le_zero.mp (Nat.le_of_succ_le_succ hone))
    rw [hq] at hk
    rw [List.mem_singleton.mp hk]

theorem Inv.push {blockno : ℕ} {dirty valid : Bool} {data : Sector} {done : ℤ} (h : s.Inv)
    (hok : s.Alone (.push k blockno dirty valid data done))
    (hs : s.step (.push k blockno dirty valid data done) = some t) : t.Inv := by
  obtain ⟨hempty, hpopping, rfl⟩ := hok
  simp only [step] at hs
  split at hs
  · rename_i hreq
    obtain ⟨hout, hflags⟩ := hreq
    simp only [hempty, List.nil_append] at hs
    cases hs
    have hfresh : s.posted k = false := by
      by_contra hposted
      exact (h.posted k (by simpa using hposted)).1 hout
    -- nothing is on its way while the queue is empty
    have hready : ∀ i, ¬s.Ready i := by
      rintro i ⟨-, q, hq, -⟩
      rw [hempty] at hq
      cases hq
    have hcommand : s.command = none := by
      cases hcmd : s.command with
      | none => rfl
      | some x =>
        have hq := (h.command x hcmd).2.2.1
        rw [hempty] at hq
        cases hq
    have hpending : s.pending = none := by
      cases hpend : s.pending with
      | none => rfl
      | some i => exact (hready i (h.pending i hpend).1).elim
    have hserved : ∀ q, q ≠ k → s.Served q → Served { s with
        queue := [k]
        buf := Function.update s.buf k
          { blockno := blockno, dirty := dirty, valid := valid, data := data, done := 0
            up := false }
        write := Function.update s.write k dirty
        call := Function.update s.call k .pushed } q := by
      intro q hq hs
      unfold Served at hs ⊢
      simp only [Function.update_of_ne hq]
      exact hs
    constructor
    · exact h.lock
    · exact Nat.le_refl 1
    · intro q hq
      obtain rfl := List.mem_singleton.mp hq
      simp only [Function.update_self, ne_eq, reduceCtorEq, not_false_eq_true, true_and]
      refine ⟨hfresh, fun hread => ?_⟩
      rw [hread] at hflags
      simpa using hflags
    · intro q hq
      by_cases hqk : q = k
      · exact List.mem_singleton.mpr hqk
      · simp only [Function.update_of_ne hqk] at hq
        have hmem := h.pushed q hq
        rw [hempty] at hmem
        cases hmem
    · intro q
      by_cases hqk : q = k
      · subst hqk
        simp [Function.update_self, hfresh]
      · simp only [Function.update_of_ne hqk]
        exact h.sem q
    · intro q hq
      by_cases hqk : q = k
      · subst hqk
        simp [Function.update_self] at hq
      · simp only [Function.update_of_ne hqk] at hq
        exact h.returned q hq
    · intro q hq
      have hqk : q ≠ k := by
        rintro rfl
        exact absurd hq (by rw [hfresh]; exact Bool.false_ne_true)
      obtain ⟨hcall, hs⟩ := h.posted q hq
      exact ⟨by simp only [Function.update_of_ne hqk]; exact hcall, hserved q hqk hs⟩
    · intro c i b hc
      refine (hpopping ?_).elim
      unfold Popping
      rw [h.lock c (by rw [show s.intr c = _ from hc]; simp), Option.map_some,
        show s.intr c = _ from hc]
      trivial
    · intro c i hc
      refine (hpopping ?_).elim
      unfold Popping
      rw [h.lock c (by rw [show s.intr c = _ from hc]; simp), Option.map_some,
        show s.intr c = _ from hc]
      trivial
    · intro x hx
      rw [hcommand] at hx
      cases hx
    · intro i hi
      rw [hpending] at hi
      cases hi
    · intro c i hc
      exact (hready i (h.entered c i hc)).elim
  · cases hs

/-- Only one handler is inside. -/
theorem Inv.only (h : s.Inv) (hcpu : s.intr cpu ≠ .out) {c : ℕ} (hc : c ≠ cpu) :
    s.intr c = .out := by
  by_contra hne
  have hlock := h.lock c hne
  rw [h.lock cpu hcpu] at hlock
  exact hc (Option.some.inj hlock).symm

/-- No handler is inside. -/
theorem Inv.all_out (h : s.Inv) (hlock : s.sdlock = none) (c : ℕ) : s.intr c = .out := by
  by_contra hne
  have hsome := h.lock c hne
  rw [hlock] at hsome
  cases hsome

theorem Inv.start (h : s.Inv) (hs : s.step (.start k) = some t) : t.Inv := by
  simp only [step] at hs
  split at hs
  · rename_i hpc
    obtain ⟨u, hstart, rfl⟩ := Option.map_eq_some_iff.mp hs
    obtain ⟨hpending, hcommand, rfl⟩ := sdStart_cases hstart
    have hmem := h.pushed k hpc.1
    have hqueue := h.queue_eq hmem
    obtain ⟨-, hposted, hdirty, -⟩ := h.queued k hmem
    have hout := h.all_out hpc.2
    have hin : ∀ {c pc}, s.intr c = pc → pc ≠ .out → False := fun hc hne => hne (hc ▸ hout _)
    have hcall : ∀ {q}, q ≠ k → Function.update s.call k .started q = s.call q :=
      fun hq => Function.update_of_ne hq _ _
    refine { h with
      queued := ?_, pushed := ?_, sem := ?_, returned := ?_, posted := ?_, popped := ?_,
      command := ?_, pending := ?_, entered := ?_ }
    · intro q hq
      refine ⟨?_, (h.queued q hq).2⟩
      by_cases hqk : q = k
      · subst hqk
        simp [setCall]
      · simp only [setCall, hcall hqk]
        exact (h.queued q hq).1
    · intro q hq
      by_cases hqk : q = k
      · subst hqk
        exact hmem
      · simp only [setCall, hcall hqk] at hq
        exact h.pushed q hq
    · intro q
      by_cases hqk : q = k
      · subst hqk
        refine ⟨fun _ => (h.sem q).1 (.inl hpc.1), fun hq => ?_⟩
        simp [setCall] at hq
      · simp only [setCall, hcall hqk]
        exact h.sem q
    · intro q hq
      by_cases hqk : q = k
      · subst hqk
        simp [setCall] at hq
      · simp only [setCall, hcall hqk] at hq
        exact h.returned q hq
    · intro q hq
      have hqk : q ≠ k := by
        rintro rfl
        rw [show s.posted q = true from hq] at hposted
        cases hposted
      refine ⟨?_, (h.posted q hq).2⟩
      simp only [setCall, hcall hqk]
      exact (h.posted q hq).1
    · intro c i b hc
      exact (hin hc (by simp)).elim
    · intro x hx
      cases hx
      refine ⟨hpending, fun c i hc => (hin hc (by simp)).elim, hqueue, by simp [setCall, commandOf], ?_⟩
      simp only [commandOf, hdirty]
      rfl
    · intro i hi
      rw [show s.pending = some i from hi] at hpending
      cases hpending
    · intro c i hc
      exact (hin hc (by simp)).elim
  · cases hs

/-- The data and the flags stay when a semaphore changes. -/
theorem setBuf_same {f : SdBuf → SdBuf}
    (hf : ∀ x, (f x).dirty = x.dirty ∧ (f x).valid = x.valid ∧ (f x).data = x.data) (q : ℕ) :
    ((s.setBuf b f).buf q).dirty = (s.buf q).dirty ∧
      ((s.setBuf b f).buf q).valid = (s.buf q).valid ∧
      ((s.setBuf b f).buf q).data = (s.buf q).data := by
  simp only [setBuf]
  by_cases hqb : q = b
  · subst hqb
    rw [Function.update_self]
    exact hf _
  · rw [Function.update_of_ne hqb]
    exact ⟨rfl, rfl, rfl⟩

/-- A buffer whose semaphore changes, and a call that goes on. -/
theorem Inv.sem_step {f : SdBuf → SdBuf} {pc : SdCall} (h : s.Inv)
    (hf : ∀ x, (f x).dirty = x.dirty ∧ (f x).valid = x.valid ∧ (f x).data = x.data)
    (hcall : s.call k ≠ .out ∧ s.call k ≠ .pushed) (hpc : pc = .asleep ∨ pc = .returned)
    (hasleep : pc = .asleep → (f (s.buf k)).done = (if s.posted k then 0 else -1) ∧
      (f (s.buf k)).up = s.posted k)
    (hreturned : pc = .returned → s.posted k = true) : ((s.setBuf k f).setCall k pc).Inv := by
  have hbuf := setBuf_same (s := s) (b := k) hf
  have hserved : ∀ q, s.Served q → ((s.setBuf k f).setCall k pc).Served q := by
    intro q hq
    unfold Served at hq ⊢
    simp only [setCall, hbuf]
    exact hq
  have hnot : pc ≠ .out ∧ pc ≠ .pushed ∧ pc ≠ .started := by
    rcases hpc with rfl | rfl <;> simp
  have hout : ∀ q, s.call q ≠ .out → Function.update s.call k pc q ≠ .out := by
    intro q hq
    by_cases hqk : q = k
    · rw [hqk, Function.update_self]
      exact hnot.1
    · rwa [Function.update_of_ne hqk]
  have hpushed : ∀ q, s.call q ≠ .pushed → Function.update s.call k pc q ≠ .pushed := by
    intro q hq
    by_cases hqk : q = k
    · rw [hqk, Function.update_self]
      exact hnot.2.1
    · rwa [Function.update_of_ne hqk]
  have hready : ∀ i, s.Ready i → ((s.setBuf k f).setCall k pc).Ready i := by
    rintro i ⟨hcmd, q, hq, hqc, hi⟩
    refine ⟨hcmd, q, hq, hpushed q hqc, ?_⟩
    cases i with
    | readRdy => exact hi
    | dataDone =>
      refine ⟨hi.1, ?_⟩
      simp only [setCall, hbuf]
      exact hi.2
  refine { h with
    queued := ?_, pushed := ?_, sem := ?_, returned := ?_, posted := ?_, popped := ?_,
    command := ?_, pending := ?_, entered := ?_ }
  · intro q hq
    obtain ⟨hqo, hqp, hqd, hqv⟩ := h.queued q hq
    simp only [setCall, hbuf]
    exact ⟨hout q hqo, hqp, hqd, hqv⟩
  · intro q hq
    by_contra hmem
    exact hpushed q (fun hp => hmem (h.pushed q hp)) hq
  · intro q
    by_cases hqk : q = k
    · subst hqk
      simp only [setCall, setBuf, Function.update_self]
      exact ⟨fun hor => (hor.elim hnot.2.1 hnot.2.2).elim, hasleep⟩
    · simp only [setCall, setBuf, Function.update_of_ne hqk]
      exact h.sem q
  · intro q hq
    by_cases hqk : q = k
    · subst hqk
      simp only [setCall, setBuf, Function.update_self] at hq
      exact hreturned hq
    · simp only [setCall, setBuf, Function.update_of_ne hqk] at hq
      exact h.returned q hq
  · intro q hq
    exact ⟨hout q (h.posted q hq).1, hserved q (h.posted q hq).2⟩
  · intro c i b hc
    obtain ⟨hq, hb, hbo, hbp, hbs⟩ := h.popped c i b hc
    exact ⟨hq, hb, hout b hbo, hpushed b hbp, hserved b hbs⟩
  · intro x hx
    obtain ⟨hxp, hxe, hxq, hxc, hxw⟩ := h.command x hx
    refine ⟨hxp, hxe, hxq, hpushed _ hxc, ?_⟩
    simp only [setCall, hbuf]
    exact hxw
  · intro i hi
    exact ⟨hready i (h.pending i hi).1, (h.pending i hi).2⟩
  · intro c i hc
    exact hready i (h.entered c i hc)

theorem Inv.wait (h : s.Inv) (hs : s.step (.wait k) = some t) : t.Inv := by
  simp only [step] at hs
  split at hs
  · rename_i hpc
    cases hs
    obtain ⟨hdone, hup⟩ := (h.sem k).1 (.inr hpc)
    refine h.sem_step (fun _ => ⟨rfl, rfl, rfl⟩) (by rw [hpc]; simp) ?_ ?_ ?_
    · split
      · exact .inr rfl
      · exact .inl rfl
    · intro hasleep
      cases hp : s.posted k with
      | true => simp [setBuf, hdone, hp] at hasleep
      | false => simp [hdone, hp, hup]
    · intro hreturned
      cases hp : s.posted k with
      | true => rfl
      | false => simp [setBuf, hdone, hp] at hreturned
  · cases hs

theorem Inv.wake (h : s.Inv) (hs : s.step (.wake k) = some t) : t.Inv := by
  simp only [step] at hs
  split at hs
  · rename_i hpc
    cases hs
    have hup := ((h.sem k).2 hpc.1).2
    rw [hpc.2] at hup
    have hsame : s.setBuf k (fun x => x) = s := by simp [setBuf]
    have hinv : ((s.setBuf k fun x => x).setCall k .returned).Inv :=
      h.sem_step (fun _ => ⟨rfl, rfl, rfl⟩) (by rw [hpc.1]; simp) (.inr rfl) nofun
        (fun _ => hup.symm)
    rwa [hsame] at hinv
  · cases hs

theorem Inv.card (h : s.Inv) (hs : s.step .card = some t) : t.Inv := by
  simp only [step] at hs
  cases hcommand : s.command with
  | none =>
    rw [hcommand] at hs
    cases hs
  | some x =>
    rw [hcommand] at hs
    obtain ⟨-, hentered, hqueue, hcall, hwrite⟩ := h.command x hcommand
    obtain ⟨-, hposted, -⟩ := h.queued x.owner (by rw [hqueue]; exact List.mem_cons_self)
    -- nobody has been served by the transfer that ends here
    have hmoved : ∀ {q v}, s.posted q = true → Function.update s.moved x.owner v q = s.moved q := by
      intro q v hq
      refine Function.update_of_ne ?_ _ _
      rintro rfl
      rw [hq] at hposted
      cases hposted
    have hpopped : ∀ c i b, s.intr c ≠ .popped i b := by
      intro c i b hc
      have hempty := (h.popped c i b hc).1
      rw [hqueue] at hempty
      cases hempty
    have hnone : ∀ c i, s.intr c ≠ .entered (some i) := by
      intro c i hc
      cases hentered c _ hc
    cases hdata : x.write with
    | none =>
      have hread : s.write x.owner = false := by
        rw [hdata] at hwrite
        by_contra hne
        rw [if_pos (by simpa using hne)] at hwrite
        cases hwrite
      simp only [hdata] at hs
      cases hs
      refine { h with
        posted := fun q hq => ⟨(h.posted q hq).1, ?_⟩
        popped := fun c i b hc => (hpopped c i b hc).elim
        command := nofun
        pending := fun i hi => ⟨?_, hentered⟩
        entered := fun c i hc => (hnone c i hc).elim }
      · obtain ⟨hmv, hflag⟩ := (h.posted q hq).2
        exact ⟨(hmoved hq).trans hmv, hflag⟩
      · cases hi
        exact ⟨rfl, x.owner, hqueue, hcall, hread, Function.update_self _ _ _⟩
    | some data =>
      have hask : s.write x.owner = true ∧ data = (s.buf x.owner).data := by
        rw [hdata] at hwrite
        split at hwrite
        · rename_i hw
          exact ⟨hw, Option.some.inj hwrite⟩
        · cases hwrite
      simp only [hdata] at hs
      cases hs
      refine { h with
        posted := fun q hq => ⟨(h.posted q hq).1, ?_⟩
        popped := fun c i b hc => (hpopped c i b hc).elim
        command := nofun
        pending := fun i hi => ⟨?_, hentered⟩
        entered := fun c i hc => (hnone c i hc).elim }
      · obtain ⟨hmv, hflag⟩ := (h.posted q hq).2
        exact ⟨(hmoved hq).trans hmv, hflag⟩
      · cases hi
        refine ⟨rfl, x.owner, hqueue, hcall, hask.1, ?_⟩
        rw [← hask.2]
        exact Function.update_self _ _ _

/-- When the other cores are outside the handler, a core inside it is the one that has moved. -/
theorem update_intr {intr : ℕ → SdIntr} {pc p : SdIntr} {c : ℕ}
    (hothers : ∀ c, c ≠ cpu → intr c = .out) (hc : Function.update intr cpu pc c = p)
    (hne : p ≠ .out) : c = cpu ∧ pc = p := by
  by_cases hcc : c = cpu
  · rw [hcc, Function.update_self] at hc
    exact ⟨hcc, hc⟩
  · rw [Function.update_of_ne hcc, hothers c hcc] at hc
    exact (hne hc.symm).elim

/-- A handler that goes on without touching a buffer or the queue. -/
theorem Inv.handler {pc : SdIntr} {lock : Option ℕ} {pending : Option Interrupt} (h : s.Inv)
    (hothers : ∀ c, c ≠ cpu → s.intr c = .out) (hlock : pc ≠ .out → lock = some cpu)
    (hpopped : ∀ i b, pc ≠ .popped i b) (hposted : ∀ i, pc ≠ .posted i)
    (hpending : pending = none ∨ pc = .leaving ∧ pending = s.pending)
    (hentered : ∀ i, pc = .entered (some i) → s.Ready i) :
    Inv { s.setIntr cpu pc with sdlock := lock, pending := pending } := by
  have hintr : ∀ {c p}, Function.update s.intr cpu pc c = p → p ≠ .out → c = cpu ∧ pc = p :=
    fun hc hne => update_intr hothers hc hne
  refine { h with
    lock := fun c hc => ?_
    popped := fun c i b hc => ((hpopped i b) (hintr hc (by simp)).2).elim
    empty := fun c i hc => ((hposted i) (hintr hc (by simp)).2).elim
    command := fun x hx => ⟨?_, fun c i hc => ?_, (h.command x hx).2.2⟩
    pending := fun i hi => ?_
    entered := fun c i hc => hentered i (hintr hc (by simp)).2 }
  · obtain ⟨rfl, hpc⟩ := hintr rfl hc
    exact hlock (hpc ▸ hc)
  · rcases hpending with hnone | ⟨-, hsame⟩
    · exact hnone
    · exact hsame.trans (h.command x hx).1
  · cases i with
    | none => rfl
    | some i =>
      obtain ⟨hcmd, -⟩ := hentered i (hintr hc (by simp)).2
      rw [show s.command = some x from hx] at hcmd
      cases hcmd
  · rcases hpending with hnone | ⟨hleaving, hsame⟩
    · rw [show pending = some i from hi] at hnone
      cases hnone
    · refine ⟨(h.pending i (hsame ▸ hi)).1, fun c j hc => ?_⟩
      have hpc := (hintr hc (by simp)).2
      rw [hleaving] at hpc
      cases hpc

theorem Inv.enter (h : s.Inv) (hs : s.step (.enter cpu) = some t) : t.Inv := by
  simp only [step] at hs
  split at hs
  · rename_i hpc
    cases hs
    refine h.handler (fun c _ => h.all_out hpc.2 c) (fun _ => rfl) (by simp) (by simp) (.inl rfl)
      fun i hi => ?_
    exact (h.pending i (SdIntr.entered.inj hi)).1
  · cases hs

theorem Inv.leave (h : s.Inv) (hs : s.step (.leave cpu) = some t) : t.Inv := by
  simp only [step] at hs
  split at hs
  · rename_i hpc
    cases hs
    have hothers : ∀ c, c ≠ cpu → s.intr c = .out := fun c hc => h.only (by rw [hpc]; simp) hc
    exact h.handler hothers (fun hne => (hne rfl).elim) (by simp) (by simp) (.inl rfl)
      (by simp)
  · cases hs

/-- The request is served and leaves the queue. -/
theorem Inv.pop {f : SdBuf → SdBuf} {i : Interrupt} (h : s.Inv) (hqueue : s.queue = [b])
    (hready : s.Ready i) (hcpu : s.intr cpu = .entered (some i))
    (hf : ∀ x, (f x).done = x.done ∧ (f x).up = x.up)
    (hserved : s.moved b = some (f (s.buf b)).data ∧
      if s.write b then (f (s.buf b)).dirty = false else (f (s.buf b)).valid = true) :
    Inv ({ s.setBuf b f with queue := [], pending := none }.setIntr cpu (.popped i b)) := by
  obtain ⟨hcmd, q, hq, hqc, -⟩ := hready
  obtain rfl : b = q := by
    rw [hqueue] at hq
    exact List.singleton_inj.mp hq
  have hmem : b ∈ s.queue := by rw [hqueue]; exact List.mem_cons_self
  obtain ⟨hbo, hbp, -⟩ := h.queued b hmem
  have hin : s.intr cpu ≠ .out := by rw [hcpu]; simp
  have hintr : ∀ {c p}, Function.update s.intr cpu (.popped i b) c = p → p ≠ .out →
      c = cpu ∧ .popped i b = p := fun hc hne => update_intr (fun _ hcc => h.only hin hcc) hc hne
  have hother : ∀ {q}, q ≠ b → Function.update s.buf b (f (s.buf b)) q = s.buf q := fun hq =>
    Function.update_of_ne hq _ _
  have hnotb : ∀ {q}, s.posted q = true → q ≠ b := by
    rintro q hposted rfl
    rw [hposted] at hbp
    cases hbp
  refine { h with
    lock := fun c hc => ?_, one := Nat.zero_le 1, queued := nofun, pushed := fun q hq => ?_
    sem := fun q => ?_, posted := fun q hq => ⟨(h.posted q hq).1, ?_⟩
    popped := fun c j q hc => ?_, empty := fun c j hc => rfl
    command := fun x hx => ?_, pending := nofun
    entered := fun c j hc => ?_ }
  · obtain ⟨rfl, -⟩ := hintr rfl hc
    exact h.lock c hin
  · have hqm := h.pushed q hq
    rw [hqueue] at hqm
    obtain rfl := List.mem_singleton.mp hqm
    exact (hqc hq).elim
  · by_cases hqb : q = b
    · subst hqb
      simp only [setIntr, setBuf, Function.update_self, hf]
      exact h.sem q
    · simp only [setIntr, setBuf, hother hqb]
      exact h.sem q
  · have hs := (h.posted q hq).2
    unfold Served at hs ⊢
    simp only [setIntr, setBuf, hother (hnotb hq)]
    exact hs
  · obtain ⟨-, hpc⟩ := hintr hc (by simp)
    cases hpc
    refine ⟨rfl, hbp, hbo, hqc, ?_⟩
    unfold Served
    simp only [setIntr, setBuf, Function.update_self]
    exact hserved
  · rw [show s.command = some x from hx] at hcmd
    cases hcmd
  · obtain ⟨-, hpc⟩ := hintr hc (by simp)
    cases hpc

theorem Inv.serve (h : s.Inv) (hs : s.step (.serve cpu) = some t) : t.Inv := by
  simp only [step] at hs
  split at hs
  · rename_i interrupt hcpu
    have hin : s.intr cpu ≠ .out := by rw [hcpu]; simp
    have hothers : ∀ c, c ≠ cpu → s.intr c = .out := fun c hc => h.only hin hc
    unfold SdState.serve at hs
    split at hs
    · cases hs
      exact h.handler hothers (fun hne => (hne rfl).elim) (by simp) (by simp) (.inl rfl) (by simp)
    · rename_i b queue hqueue
      have hmem : b ∈ s.queue := by rw [hqueue]; exact List.mem_cons_self
      have hone := h.queue_eq hmem
      obtain ⟨-, -, hdirty, hvalid⟩ := h.queued b hmem
      obtain rfl : queue = [] := (List.cons.inj (hqueue.symm.trans hone)).2
      cases interrupt with
      | none =>
        cases hs
        exact h.handler hothers (fun _ => h.lock cpu hin) (by simp) (by simp)
          (.inr ⟨rfl, rfl⟩) (by simp)
      | some i =>
        have hready := h.entered cpu i hcpu
        have hfront : ∀ {q}, s.queue = [q] → q = b := fun hq =>
          List.singleton_inj.mp (hq.symm.trans hone)
        cases i with
        | readRdy =>
          obtain ⟨-, q, hq, -, hw, hmoved⟩ := id hready
          obtain rfl := hfront hq
          rw [hw] at hdirty
          simp only [hdirty, hvalid hw, and_self, if_true] at hs
          cases hs
          exact h.pop hone hready hcpu (fun _ => ⟨rfl, rfl⟩) ⟨hmoved, by simp [hw]⟩
        | dataDone =>
          obtain ⟨-, q, hq, -, hw, hmoved⟩ := id hready
          obtain rfl := hfront hq
          rw [hw] at hdirty
          simp only [hdirty, if_true] at hs
          cases hs
          exact h.pop hone hready hcpu (fun _ => ⟨rfl, rfl⟩) ⟨hmoved, by simp [hw]⟩
  · cases hs

theorem Inv.post (h : s.Inv) (hs : s.step (.post cpu) = some t) : t.Inv := by
  simp only [step] at hs
  split at hs
  · rename_i i b hcpu
    cases hs
    obtain ⟨hempty, hbp, hbo, hbq, hbs⟩ := h.popped cpu i b hcpu
    have hin : s.intr cpu ≠ .out := by rw [hcpu]; simp
    have hintr : ∀ {c p}, Function.update s.intr cpu (.posted i) c = p → p ≠ .out →
        c = cpu ∧ .posted i = p := fun hc hne => update_intr (fun _ hcc => h.only hin hcc) hc hne
    have hcommand : s.command = none := by
      cases hcmd : s.command with
      | none => rfl
      | some x =>
        have hq := (h.command x hcmd).2.2.1
        rw [hempty] at hq
        cases hq
    have hpending : s.pending = none := by
      cases hpend : s.pending with
      | none => rfl
      | some j =>
        obtain ⟨-, q, hq, -⟩ := (h.pending j hpend).1
        rw [hempty] at hq
        cases hq
    have hsame := setBuf_same (s := s) (b := b)
      (f := fun x => { x with done := x.done + 1, up := x.up || decide (x.done + 1 ≤ 0) })
      fun _ => ⟨rfl, rfl, rfl⟩
    refine { h with
      lock := fun c hc => ?_, queued := fun q hq => ?_, sem := fun q => ?_
      returned := fun q hq => ?_, posted := fun q hq => ?_
      popped := fun c j q hc => ?_, empty := fun c j hc => hempty
      command := fun x hx => ?_, pending := fun j hj => ?_, entered := fun c j hc => ?_ }
    · obtain ⟨rfl, -⟩ := hintr rfl hc
      exact h.lock c hin
    · have hqm : q ∈ s.queue := hq
      rw [hempty] at hqm
      cases hqm
    · by_cases hqb : q = b
      · subst hqb
        obtain ⟨hstarted, hasleep⟩ := h.sem q
        simp only [setIntr, setBuf, Function.update_self]
        refine ⟨fun hor => ?_, fun hor => ?_⟩
        · obtain ⟨hdone, hup⟩ := hstarted hor
          rw [hdone, hup, hbp]
          exact ⟨rfl, rfl⟩
        · obtain ⟨hdone, hup⟩ := hasleep hor
          rw [hdone, hup, hbp]
          exact ⟨rfl, rfl⟩
      · simp only [setIntr, setBuf, Function.update_of_ne hqb]
        exact h.sem q
    · by_cases hqb : q = b
      · subst hqb
        exact Function.update_self _ _ _
      · exact (Function.update_of_ne hqb _ _).trans (h.returned q hq)
    · have hs : s.call q ≠ .out ∧ s.Served q := by
        by_cases hqb : q = b
        · subst hqb
          exact ⟨hbo, hbs⟩
        · exact h.posted q ((Function.update_of_ne hqb _ _).symm.trans hq)
      refine ⟨hs.1, ?_⟩
      have hs' := hs.2
      unfold Served at hs' ⊢
      simp only [setIntr, hsame]
      exact hs'
    · obtain ⟨-, hpc⟩ := hintr hc (by simp)
      cases hpc
    · rw [show s.command = some x from hx] at hcommand
      cases hcommand
    · rw [show s.pending = some j from hj] at hpending
      cases hpending
    · obtain ⟨-, hpc⟩ := hintr hc (by simp)
      cases hpc
  · cases hs

theorem Inv.next (h : s.Inv) (hs : s.step (.next cpu) = some t) : t.Inv := by
  simp only [step] at hs
  split at hs
  · rename_i i hcpu
    have hin : s.intr cpu ≠ .out := by rw [hcpu]; simp
    simp only [h.empty cpu i hcpu] at hs
    cases hs
    exact h.handler (fun c hc => h.only hin hc) (fun _ => h.lock cpu hin) (by simp) (by simp)
      (.inr ⟨rfl, rfl⟩) (by simp)
  · cases hs

theorem inv_of_reachable (h : sdSystem.Reachable Alone s) : s.Inv := by
  refine h.induction (I := Inv) ?_ ?_
  · rintro s ⟨hqueue, hcall, hintr, hlock, hcommand, hpending, hmoved, hposted⟩
    constructor <;> simp [hqueue, hcall, hintr, hcommand, hpending, hposted]
  · intro s l t hinv hok hs
    cases l with
    | push k blockno dirty valid data done => exact hinv.push hok hs
    | start k => exact hinv.start hs
    | wait k => exact hinv.wait hs
    | wake k => exact hinv.wake hs
    | alert k => exact hok.elim
    | card => exact hinv.card hs
    | enter cpu => exact hinv.enter hs
    | serve cpu => exact hinv.serve hs
    | post cpu => exact hinv.post hs
    | next cpu => exact hinv.next hs
    | leave cpu => exact hinv.leave hs

end SdState

/-- A card whose sector `n` holds the byte `n`. -/
def SdState.boot : SdState where
  queue := []
  buf _ := { blockno := 0, dirty := false, valid := false, data := [], done := 0, up := false }
  call _ := .out
  intr _ := .out
  sdlock := none
  command := none
  pending := none
  fifo := []
  disk n := [UInt8.ofNat n]
  write _ := false
  moved _ := none
  posted _ := false

theorem SdState.init_boot : sdSystem.init .boot :=
  ⟨rfl, fun _ => rfl, fun _ => rfl, rfl, rfl, rfl, fun _ => rfl, fun _ => rfl⟩

end OsLab
