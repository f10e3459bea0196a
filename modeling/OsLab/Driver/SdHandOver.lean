/-
The hand-over of the duty to start the next request of the SD card driver.

Who pushes onto an empty `buf_queue` starts its request itself, and the handler starts the
request that it finds behind the one it has served.  `sd_intr` clears `*EMMC_INTERRUPT` once
more before it leaves, so that an interrupt which the card raises by then is lost.

* `SdState.NoneLost` — when no call is in progress, the first request is on the card, or its
  interrupt is to be served;
* `SdState.Quiet` — the card ends no command while a handler is inside;
* `sd_handOver` — in the runs of this kind no request is lost, for any pushes, signals and
  handlers that enter without an interrupt;
* `sd_lost` — a request that the handler has started is lost before it leaves.
-/
import OsLab.Driver.Sd

namespace OsLab

namespace SdState

/-- The interrupt that ends a command for the buffer. -/
def kind (s : SdState) (b : ℕ) : Interrupt := if (s.buf b).dirty then .dataDone else .readRdy

/-- The card has ended the command of the request with this interrupt. -/
def Ended (s : SdState) (h : ℕ) (i : Interrupt) : Prop := s.moved h ≠ none ∧ i = s.kind h

/-- The request is on the card, or its interrupt is outstanding. -/
def InFlight (s : SdState) (h : ℕ) : Prop :=
  (∃ x, s.command = some x ∧ x.owner = h) ∨ ∃ i, s.pending = some i ∧ s.Ended h i

/-- No `sdrw` and no `sd_intr` is in progress. -/
def Idle (s : SdState) : Prop :=
  (∀ k, s.call k = .out ∨ s.call k = .returned) ∧ ∀ c, s.intr c = .out

def NoneLost (s : SdState) : Prop := s.Idle → ∀ h, s.queue.head? = some h → s.InFlight h

/-- The card ends no command while a handler is inside. -/
def Quiet (s : SdState) : SdStep → Prop
  | .card => ∀ c, s.intr c = .out
  | _ => True

/-- The handler has an interrupt in its hands, or is about to start the next request. -/
def Busy : SdIntr → Prop
  | .entered (some _) => True
  | .popped _ _ => True
  | .posted _ => True
  | _ => False

/-- The interrupt is that of the first request, or that of a request which has left the queue
before it has started itself; the first one is then still to be started. -/
def Fits (s : SdState) (i : Interrupt) : Prop :=
  (∃ h, s.queue.head? = some h ∧ s.Ended h i) ∨
    i = .readRdy ∧ ∀ h, s.queue.head? = some h → s.call h = .pushed

/-- Who answers for the first request. -/
def Duty (s : SdState) (h : ℕ) : Prop :=
  s.call h = .pushed ∨ s.InFlight h ∨ (∃ c i, s.intr c = .entered (some i) ∧ s.Ended h i) ∨
    ∃ c, Busy (s.intr c) ∧ ∀ i, s.intr c ≠ .entered i

/-- What holds while the card is quiet. -/
structure HandOver (s : SdState) : Prop where
  nodup : s.queue.Nodup
  /-- who is in the queue has not been served -/
  queued : ∀ k ∈ s.queue, s.call k ≠ .out ∧ ((s.buf k).dirty = false → (s.buf k).valid = false)
  /-- who is still to start its request is the first, or has been served by now -/
  pushed : ∀ k, s.call k = .pushed →
    s.queue.head? = some k ∨ k ∉ s.queue ∧ (s.buf k).dirty = false
  busy : ∀ c, Busy (s.intr c) → s.sdlock = some c ∧ s.command = none ∧
    ∀ c', c' ≠ c → s.intr c' = .out
  command : ∀ x, s.command = some x → s.pending = none ∧ s.call x.owner ≠ .out ∧
    (s.queue.head? = some x.owner ∧ (x.write.isSome ↔ (s.buf x.owner).dirty = true) ∨
      x.owner ∉ s.queue ∧ x.write = none ∧ ∀ h, s.queue.head? = some h → s.call h = .pushed)
  pending : ∀ i, s.pending = some i → (∀ c, s.intr c = .out) ∧ s.command = none ∧ s.Fits i
  entered : ∀ c i, s.intr c = .entered (some i) → s.Fits i
  duty : ∀ h, s.queue.head? = some h → s.Duty h

variable {s t : SdState} {b k cpu : ℕ}

/-- An interrupt in the hands of a handler makes it busy. -/
theorem busy_entered {c : ℕ} {i : Interrupt} (hc : s.intr c = .entered (some i)) :
    Busy (s.intr c) := by
  rw [hc]
  trivial

/-- When no handler is busy, the first request is on the card or is still to be started. -/
theorem HandOver.duty_of_calm (h : s.HandOver) (hcalm : ∀ c, ¬Busy (s.intr c)) {q : ℕ}
    (hq : s.queue.head? = some q) : s.call q = .pushed ∨ s.InFlight q := by
  rcases h.duty q hq with hpushed | hflight | ⟨c, i, hc, -⟩ | ⟨c, hc, -⟩
  · exact .inl hpushed
  · exact .inr hflight
  · exact (hcalm c (busy_entered hc)).elim
  · exact (hcalm c hc).elim

/-- While a handler is inside there is no interrupt. -/
theorem HandOver.pending_none (h : s.HandOver) (hin : s.intr cpu ≠ .out) : s.pending = none := by
  cases hpend : s.pending with
  | none => rfl
  | some i => exact (hin ((h.pending i hpend).1 cpu)).elim

/-- No handler is busy while `sdlock` is free. -/
theorem HandOver.calm_of_free (h : s.HandOver) (hlock : s.sdlock = none) (c : ℕ) :
    ¬Busy (s.intr c) := by
  intro hc
  have hsome := (h.busy c hc).1
  rw [hlock] at hsome
  cases hsome

/-- The others are not busy when a handler is inside. -/
theorem HandOver.calm_of_in (h : s.HandOver) (hin : s.intr cpu ≠ .out) {c : ℕ} (hc : c ≠ cpu) :
    ¬Busy (s.intr c) := fun hbusy => hin ((h.busy c hbusy).2.2 cpu hc.symm)

theorem head?_mem {l : List ℕ} {q : ℕ} (hq : l.head? = some q) : q ∈ l :=
  List.mem_of_mem_head? (Option.mem_def.mpr hq)

/-- A step leaves a request alone. -/
structure Same (s t : SdState) (q : ℕ) : Prop where
  call : t.call q = s.call q
  dirty : (t.buf q).dirty = (s.buf q).dirty
  valid : (t.buf q).valid = (s.buf q).valid

theorem Ended.same {q : ℕ} {i : Interrupt} (h : s.Ended q i) (hmoved : t.moved = s.moved)
    (hdirty : (t.buf q).dirty = (s.buf q).dirty) : t.Ended q i := by
  unfold Ended kind at *
  rw [hmoved, hdirty]
  exact h

/-- Nothing happens to the card and the handlers. -/
structure Aside (s t : SdState) : Prop where
  intr : t.intr = s.intr
  sdlock : t.sdlock = s.sdlock
  command : t.command = s.command
  pending : t.pending = s.pending
  moved : t.moved = s.moved

/-- A request whose flags stay keeps who answers for it. -/
theorem Duty.aside {q : ℕ} (h : s.Duty q) (ht : Aside s t)
    (hcall : s.call q = .pushed → t.call q = .pushed)
    (hdirty : (t.buf q).dirty = (s.buf q).dirty) : t.Duty q := by
  have hended : ∀ i, s.Ended q i → t.Ended q i := fun i hi => hi.same ht.moved hdirty
  unfold Duty InFlight at *
  rw [ht.intr, ht.command, ht.pending]
  rcases h with hpushed | (hcommand | ⟨i, hi, hend⟩) | ⟨c, i, hc, hend⟩ | hbusy
  · exact .inl (hcall hpushed)
  · exact .inr (.inl (.inl hcommand))
  · exact .inr (.inl (.inr ⟨i, hi, hended i hend⟩))
  · exact .inr (.inr (.inl ⟨c, i, hc, hended i hend⟩))
  · exact .inr (.inr (.inr hbusy))

theorem HandOver.push {blockno : ℕ} {dirty valid : Bool} {data : Sector} {done : ℤ}
    (h : s.HandOver) (hs : s.step (.push k blockno dirty valid data done) = some t) :
    t.HandOver := by
  -- what the step does, in terms of the fields
  have hpush : s.call k = .out ∧ t.queue = s.queue ++ [k] ∧ Aside s t ∧
      (∀ q, q ≠ k → Same s t q) ∧ t.call k ≠ .out ∧
      (s.queue = [] → t.call k = .pushed) ∧ (t.call k = .pushed → s.queue = []) ∧
      ((t.buf k).dirty = false → (t.buf k).valid = false) := by
    simp only [step] at hs
    split at hs
    · rename_i hreq
      cases hs
      refine ⟨hreq.1, rfl, ⟨rfl, rfl, rfl, rfl, rfl⟩, fun q hq => ?_, ?_, ?_, ?_, ?_⟩
      · constructor <;> simp only [Function.update_of_ne hq]
      · simp only [Function.update_self]
        split <;> simp
      · intro hempty
        simp only [Function.update_self, if_pos hempty]
      · intro hpushed
        by_contra hne
        simp [Function.update_self, hne] at hpushed
      · simp only [Function.update_self]
        intro hread
        have hflags := hreq.2
        rw [hread] at hflags
        simpa using hflags
    · cases hs
  obtain ⟨hout, hqueue, haside, hsame, hne, hfirst, hempty, hflags⟩ := hpush
  have hfresh : k ∉ s.queue := fun hk => (h.queued k hk).1 hout
  -- a queue that was not empty keeps its first request
  have hkeep : ∀ {q}, s.queue.head? = some q → t.queue.head? = some q ∧ q ≠ k := by
    intro q hq
    refine ⟨by rw [hqueue, List.head?_append, hq]; rfl, ?_⟩
    rintro rfl
    exact hfresh (head?_mem hq)
  have hhead : ∀ {q}, t.queue.head? = some q → s.queue.head? = some q ∧ q ≠ k ∨ 
      q = k ∧ t.call k = .pushed := by
    intro q hq
    cases hs : s.queue with
    | nil =>
      rw [hqueue, hs] at hq
      exact .inr ⟨(Option.some.inj hq).symm, hfirst hs⟩
    | cons a l =>
      have ha : s.queue.head? = some a := by rw [hs]; rfl
      obtain ⟨hta, hak⟩ := hkeep ha
      obtain rfl : a = q := Option.some.inj (hta.symm.trans hq)
      exact .inl ⟨rfl, hak⟩
  have hothers : (∀ q, s.queue.head? = some q → s.call q = .pushed) →
      ∀ q, t.queue.head? = some q → t.call q = .pushed := by
    intro hall q hq
    rcases hhead hq with ⟨hold, hqk⟩ | ⟨rfl, hpushed⟩
    · exact (hsame q hqk).call.trans (hall q hold)
    · exact hpushed
  have hfits : ∀ {i}, s.Fits i → t.Fits i := by
    rintro i (⟨q, hq, hended⟩ | ⟨hread, hall⟩)
    · obtain ⟨htq, hqk⟩ := hkeep hq
      exact .inl ⟨q, htq, hended.same haside.moved (hsame q hqk).dirty⟩
    · exact .inr ⟨hread, hothers hall⟩
  refine ⟨?_, ?_, ?_, ?_, ?_, ?_, ?_, ?_⟩
  · rw [hqueue]
    exact List.nodup_append.mpr ⟨h.nodup, by simp, fun a ha b hb => by
      rw [List.mem_singleton.mp hb]
      rintro rfl
      exact hfresh ha⟩
  · intro q hq
    by_cases hqk : q = k
    · subst hqk
      exact ⟨hne, hflags⟩
    · rw [(hsame q hqk).call, (hsame q hqk).dirty, (hsame q hqk).valid]
      rw [hqueue] at hq
      exact h.queued q ((List.mem_append.mp hq).resolve_right fun hm =>
        hqk (List.mem_singleton.mp hm))
  · intro q hq
    by_cases hqk : q = k
    · subst hqk
      exact .inl (by rw [hqueue, hempty hq]; rfl)
    · rw [(hsame q hqk).call] at hq
      rw [(hsame q hqk).dirty]
      refine (h.pushed q hq).imp (fun hh => (hkeep hh).1) fun hh => ⟨?_, hh.2⟩
      rw [hqueue]
      simp [hh.1, hqk]
  · rw [haside.intr, haside.sdlock, haside.command]
    exact h.busy
  · intro x hx
    rw [haside.command] at hx
    obtain ⟨hpend, hcall, hor⟩ := h.command x hx
    have hxk : x.owner ≠ k := fun heq => hcall (heq ▸ hout)
    rw [haside.pending, (hsame _ hxk).call, (hsame _ hxk).dirty]
    refine ⟨hpend, hcall, hor.imp (fun hh => ⟨(hkeep hh.1).1, hh.2⟩) fun hh =>
      ⟨?_, hh.2.1, hothers hh.2.2⟩⟩
    rw [hqueue]
    simp [hh.1, hxk]
  · intro i hi
    rw [haside.pending] at hi
    rw [haside.intr, haside.command]
    exact ⟨(h.pending i hi).1, (h.pending i hi).2.1, hfits (h.pending i hi).2.2⟩
  · intro c i hc
    rw [haside.intr] at hc
    exact hfits (h.entered c i hc)
  · intro q hq
    rcases hhead hq with ⟨hold, hqk⟩ | ⟨rfl, hpushed⟩
    · exact (h.duty q hold).aside haside (fun hp => (hsame q hqk).call.trans hp) (hsame q hqk).dirty
    · exact .inl hpushed

/-- A step of a process that waits for its semaphore or has been woken. -/
theorem HandOver.sem_step (h : s.HandOver) (haside : Aside s t) (hqueue : t.queue = s.queue)
    (hflags : ∀ q, (t.buf q).dirty = (s.buf q).dirty ∧ (t.buf q).valid = (s.buf q).valid)
    (hcall : ∀ q, (t.call q = .pushed ↔ s.call q = .pushed) ∧ (t.call q = .out ↔ s.call q = .out)) :
    t.HandOver := by
  have hfits : ∀ {i}, s.Fits i → t.Fits i := by
    rintro i (⟨q, hq, hended⟩ | ⟨hread, hall⟩)
    · exact .inl ⟨q, hqueue ▸ hq, hended.same haside.moved (hflags q).1⟩
    · exact .inr ⟨hread, fun q hq => (hcall q).1.mpr (hall q (hqueue ▸ hq))⟩
  refine ⟨hqueue ▸ h.nodup, fun q hq => ?_, fun q hq => ?_, ?_, fun x hx => ?_, fun i hi => ?_,
    fun c i hc => ?_, fun q hq => ?_⟩
  · obtain ⟨hne, hfl⟩ := h.queued q (hqueue ▸ hq)
    rw [(hflags q).1, (hflags q).2]
    exact ⟨fun hout => hne ((hcall q).2.mp hout), hfl⟩
  · rw [hqueue, (hflags q).1]
    exact h.pushed q ((hcall q).1.mp hq)
  · rw [haside.intr, haside.sdlock, haside.command]
    exact h.busy
  · rw [haside.command] at hx
    obtain ⟨hpend, hne, hor⟩ := h.command x hx
    rw [haside.pending, hqueue, (hflags _).1]
    exact ⟨hpend, fun hout => hne ((hcall _).2.mp hout), hor.imp_right fun hh =>
      ⟨hh.1, hh.2.1, fun q hq => (hcall q).1.mpr (hh.2.2 q hq)⟩⟩
  · rw [haside.pending] at hi
    rw [haside.intr, haside.command]
    exact ⟨(h.pending i hi).1, (h.pending i hi).2.1, hfits (h.pending i hi).2.2⟩
  · rw [haside.intr] at hc
    exact hfits (h.entered c i hc)
  · exact (h.duty q (hqueue ▸ hq)).aside haside (hcall q).1.mpr (hflags q).1

/-- `wait_sem` and the ways out of it touch the semaphore and the place of one call. -/
theorem HandOver.sleeper {f : SdBuf → SdBuf} {pc : SdCall} (h : s.HandOver)
    (hf : ∀ x, (f x).dirty = x.dirty ∧ (f x).valid = x.valid ∧ (f x).data = x.data)
    (hfrom : s.call k = .started ∨ s.call k = .asleep) (hto : pc = .asleep ∨ pc = .returned) :
    ((s.setBuf k f).setCall k pc).HandOver := by
  have hbuf := setBuf_same (s := s) (b := k) hf
  refine h.sem_step ⟨rfl, rfl, rfl, rfl, rfl⟩ rfl (fun q => ⟨(hbuf q).1, (hbuf q).2.1⟩) fun q => ?_
  by_cases hqk : q = k
  · subst hqk
    simp only [setCall, Function.update_self]
    rcases hfrom with hfrom | hfrom <;> rcases hto with rfl | rfl <;> simp [hfrom]
  · simp only [setCall, setBuf, Function.update_of_ne hqk]
    exact ⟨trivial, trivial⟩

theorem HandOver.wait (h : s.HandOver) (hs : s.step (.wait k) = some t) : t.HandOver := by
  simp only [step] at hs
  split at hs
  · rename_i hpc
    cases hs
    refine h.sleeper (fun _ => ⟨rfl, rfl, rfl⟩) (.inl hpc) ?_
    split
    · exact .inr rfl
    · exact .inl rfl
  · cases hs

theorem HandOver.wake (h : s.HandOver) (hs : s.step (.wake k) = some t) : t.HandOver := by
  simp only [step] at hs
  split at hs
  · rename_i hpc
    cases hs
    have hsame : s.setBuf k (fun x => x) = s := by simp [setBuf]
    have hnext := h.sleeper (k := k) (f := fun x => x) (fun _ => ⟨rfl, rfl, rfl⟩) (.inr hpc.1)
      (.inr rfl)
    rwa [hsame] at hnext
  · cases hs

theorem HandOver.alert (h : s.HandOver) (hs : s.step (.alert k) = some t) : t.HandOver := by
  simp only [step] at hs
  split at hs
  · rename_i hpc
    cases hs
    exact h.sleeper (fun _ => ⟨rfl, rfl, rfl⟩) (.inr hpc.1) (.inr rfl)
  · cases hs

theorem commandOf_write (b : ℕ) :
    (s.commandOf b).write.isSome = true ↔ (s.buf b).dirty = true := by
  show (if (s.buf b).dirty then some (s.buf b).data else none).isSome = true ↔ _
  split <;> simp [*]

/-- `sdrw` starts its own request. -/
theorem HandOver.start (h : s.HandOver) (hs : s.step (.start k) = some t) : t.HandOver := by
  simp only [step] at hs
  split at hs
  · rename_i hpc
    obtain ⟨hpushed, hfree⟩ := hpc
    obtain ⟨u, hstart, rfl⟩ := Option.map_eq_some_iff.mp hs
    obtain ⟨hpending, hcommand, rfl⟩ := sdStart_cases hstart
    have hcalm := h.calm_of_free hfree
    have hcall : ∀ {q}, q ≠ k → Function.update s.call k .started q = s.call q :=
      fun hq => Function.update_of_ne hq _ _
    -- with no command, no interrupt and no busy handler the first request starts itself
    have hfirst : ∀ {q}, s.queue.head? = some q → s.call q = .pushed := by
      intro q hq
      rcases h.duty_of_calm hcalm hq with hp | ⟨x, hx, -⟩ | ⟨i, hi, -⟩
      · exact hp
      · rw [hcommand] at hx
        cases hx
      · rw [hpending] at hi
        cases hi
    refine ⟨h.nodup, fun q hq => ⟨?_, (h.queued q hq).2⟩, fun q hq => ?_, fun c hc =>
      (hcalm c hc).elim, fun x hx => ?_, fun i hi => ?_, fun c i hc => ?_, fun q hq => ?_⟩
    · by_cases hqk : q = k
      · subst hqk
        simp [setCall]
      · simp only [setCall, hcall hqk]
        exact (h.queued q hq).1
    · by_cases hqk : q = k
      · subst hqk
        simp [setCall] at hq
      · simp only [setCall, hcall hqk] at hq
        exact h.pushed q hq
    · cases hx
      refine ⟨hpending, by simp [setCall, commandOf], ?_⟩
      rcases h.pushed k hpushed with hk | ⟨hgone, hclean⟩
      · exact .inl ⟨hk, commandOf_write k⟩
      · refine .inr ⟨hgone, by simp [commandOf, hclean], fun q hq => ?_⟩
        have hqk : q ≠ k := by
          rintro rfl
          exact hgone (head?_mem hq)
        simp only [setCall, hcall hqk]
        exact hfirst hq
    · rw [show s.pending = some i from hi] at hpending
      cases hpending
    · exact (hcalm c (busy_entered hc)).elim
    · by_cases hqk : q = k
      · exact .inr (.inl (.inl ⟨_, rfl, hqk.symm⟩))
      · refine .inl ?_
        simp only [setCall, hcall hqk]
        exact hfirst hq
  · cases hs

/-- The card ends a command while no handler is inside. -/
theorem HandOver.card (h : s.HandOver) (hout : ∀ c, s.intr c = .out)
    (hs : s.step .card = some t) : t.HandOver := by
  -- whatever the command was, its interrupt is pending now
  have hcard : ∃ x v, s.command = some x ∧ t.queue = s.queue ∧ t.buf = s.buf ∧ t.call = s.call ∧
      t.intr = s.intr ∧ t.command = none ∧ t.moved = Function.update s.moved x.owner (some v) ∧
      t.pending = some (if x.write.isSome then .dataDone else .readRdy) := by
    simp only [step] at hs
    split at hs
    · cases hs
    · rename_i x hx
      split at hs
      · rename_i hread
        cases hs
        exact ⟨x, _, hx, rfl, rfl, rfl, rfl, rfl, rfl, by simp [hread]⟩
      · rename_i data hwrite
        cases hs
        exact ⟨x, _, hx, rfl, rfl, rfl, rfl, rfl, rfl, by simp [hwrite]⟩
  obtain ⟨x, v, hx, hqueue, hbuf, hcall, hintr, hcommand, hmoved, hpending⟩ := hcard
  obtain ⟨-, -, hor⟩ := h.command x hx
  have hnone : ∀ c, ¬Busy (t.intr c) := by
    intro c hc
    rw [hintr, hout c] at hc
    exact hc
  have hended : (x.write.isSome ↔ (s.buf x.owner).dirty = true) →
      t.Ended x.owner (if x.write.isSome then .dataDone else .readRdy) := by
    intro hkind
    refine ⟨by rw [hmoved, Function.update_self]; simp, ?_⟩
    unfold kind
    rw [hbuf]
    simp only [hkind]
  refine ⟨hqueue ▸ h.nodup, ?_, ?_, fun c hc => (hnone c hc).elim, ?_, fun i hi => ?_,
    fun c i hc => (hnone c (busy_entered hc)).elim, fun q hq => ?_⟩
  · rw [hqueue, hbuf, hcall]
    exact h.queued
  · rw [hqueue, hbuf, hcall]
    exact h.pushed
  · rw [hcommand]
    intro y hy
    cases hy
  · refine ⟨hintr ▸ hout, hcommand, ?_⟩
    obtain rfl := Option.some.inj (hpending.symm.trans hi)
    rcases hor with ⟨hfirst, hkind⟩ | ⟨-, hread, hothers⟩
    · exact .inl ⟨x.owner, hqueue ▸ hfirst, hended hkind⟩
    · refine .inr ⟨by simp [hread], ?_⟩
      rw [hqueue, hcall]
      exact hothers
  · rw [hqueue] at hq
    rcases hor with ⟨hfirst, hkind⟩ | ⟨-, -, hothers⟩
    · obtain rfl := Option.some.inj (hfirst.symm.trans hq)
      exact .inr (.inl (.inr ⟨_, hpending, hended hkind⟩))
    · refine .inl ?_
      rw [hcall]
      exact hothers q hq

/-- A handler comes to a place where it is not busy, and nobody else is. -/
theorem HandOver.calm {pc : SdIntr} {lock : Option ℕ} {p : Option Interrupt} (h : s.HandOver)
    (hp : p = none) (hpending : s.pending = none) (hpc : ¬Busy pc) (hcalm : ∀ c, c ≠ cpu → ¬Busy (s.intr c))
    (hduty : ∀ q, s.queue.head? = some q → s.call q = .pushed ∨ s.InFlight q) :
    HandOver { s.setIntr cpu pc with sdlock := lock, pending := p } := by
  subst hp
  have hnone : ∀ c, ¬Busy (Function.update s.intr cpu pc c) := by
    intro c
    by_cases hc : c = cpu
    · rw [hc, Function.update_self]
      exact hpc
    · rw [Function.update_of_ne hc]
      exact hcalm c hc
  refine { h with
    busy := fun c hc => (hnone c hc).elim
    command := fun x hx => ⟨rfl, (h.command x hx).2⟩
    pending := fun i hi => by cases hi
    entered := fun c i hc => (hnone c (busy_entered (s := s.setIntr cpu pc) hc)).elim
    duty := fun q hq => ?_ }
  rcases hduty q hq with hpushed | hcommand | ⟨i, hi, -⟩
  · exact .inl hpushed
  · exact .inr (.inl (.inl hcommand))
  · rw [hpending] at hi
    cases hi

theorem HandOver.enter (h : s.HandOver) (hs : s.step (.enter cpu) = some t) : t.HandOver := by
  simp only [step] at hs
  split at hs
  · rename_i hpc
    cases hs
    have hfree := h.calm_of_free hpc.2
    cases hpend : s.pending with
    | none =>
      exact h.calm rfl hpend id (fun c _ => hfree c) fun q hq => h.duty_of_calm hfree hq
    | some i =>
      -- the interrupt goes from the card to the handler
      obtain ⟨hout, hcommand, hfits⟩ := h.pending i hpend
      have hin : ∀ {c j}, Function.update s.intr cpu (.entered (some i)) c = .entered (some j) →
          j = i := by
        intro c j hc
        by_cases hcc : c = cpu
        · rw [hcc, Function.update_self] at hc
          cases hc
          rfl
        · rw [Function.update_of_ne hcc, hout c] at hc
          cases hc
      refine { h with
        busy := fun c hc => ?_
        command := fun x hx => ?_
        pending := fun i hi => by cases hi
        entered := fun c j hc => ?_
        duty := fun q hq => ?_ }
      · have hcc : c = cpu := by
          by_contra hne
          have hbusy : Busy (Function.update s.intr cpu (.entered (some i)) c) := hc
          rw [Function.update_of_ne hne, hout c] at hbusy
          exact hbusy
        subst hcc
        refine ⟨rfl, hcommand, fun c' hc' => ?_⟩
        exact (Function.update_of_ne hc' _ _).trans (hout c')
      · rw [show s.command = some x from hx] at hcommand
        cases hcommand
      · rw [hin hc]
        exact hfits
      · rcases hfits with ⟨q', hq', hended⟩ | ⟨-, hothers⟩
        · obtain rfl := Option.some.inj (hq'.symm.trans hq)
          exact .inr (.inr (.inl ⟨cpu, i, Function.update_self _ _ _, hended⟩))
        · exact .inl (hothers q hq)
  · cases hs

theorem HandOver.leave (h : s.HandOver) (hs : s.step (.leave cpu) = some t) : t.HandOver := by
  simp only [step] at hs
  split at hs
  · rename_i hpc
    cases hs
    have hin : s.intr cpu ≠ .out := by rw [hpc]; simp
    have hcalm : ∀ c, ¬Busy (s.intr c) := by
      intro c
      by_cases hc : c = cpu
      · rw [hc, hpc]
        exact id
      · exact h.calm_of_in hin hc
    exact h.calm rfl (h.pending_none hin) id (fun c _ => hcalm c) fun q hq => h.duty_of_calm hcalm hq
  · cases hs

/-- The handler that has the interrupt goes on, and is still to ask for the next request. -/
theorem HandOver.working {pc : SdIntr} (h : s.HandOver) (hbusy : Busy (s.intr cpu))
    (hintr : t.intr = Function.update s.intr cpu pc) (hpc : Busy pc) (hne : ∀ i, pc ≠ .entered i)
    (hlock : t.sdlock = s.sdlock) (hcommand : t.command = s.command) (hpending : t.pending = none)
    (hnodup : t.queue.Nodup)
    (hqueued : ∀ k ∈ t.queue, t.call k ≠ .out ∧ ((t.buf k).dirty = false → (t.buf k).valid = false))
    (hpushed : ∀ k, t.call k = .pushed →
      t.queue.head? = some k ∨ k ∉ t.queue ∧ (t.buf k).dirty = false) : t.HandOver := by
  obtain ⟨hown, hidle, hothers⟩ := h.busy cpu hbusy
  have hself : t.intr cpu = pc := by rw [hintr, Function.update_self]
  have hout : ∀ c, c ≠ cpu → t.intr c = .out := by
    intro c hc
    rw [hintr, Function.update_of_ne hc, hothers c hc]
  refine ⟨hnodup, hqueued, hpushed, fun c hc => ?_, fun x hx => ?_, fun i hi => ?_,
    fun c i hc => ?_, fun q hq => .inr (.inr (.inr ⟨cpu, ?_, ?_⟩))⟩
  · have hcc : c = cpu := by
      by_contra hne
      rw [hout c hne] at hc
      exact hc
    subst hcc
    exact ⟨hlock.trans hown, hcommand.trans hidle, hout⟩
  · rw [hcommand, hidle] at hx
    cases hx
  · rw [hpending] at hi
    cases hi
  · by_cases hcc : c = cpu
    · rw [hcc, hself] at hc
      exact (hne _ hc).elim
    · rw [hout c hcc] at hc
      cases hc
  · rw [hself]
    exact hpc
  · rw [hself]
    exact hne

/-- The first request has been served and leaves the queue. -/
theorem HandOver.pop {f : SdBuf → SdBuf} {i : Interrupt} {l : List ℕ} (h : s.HandOver)
    (hcpu : s.intr cpu = .entered (some i)) (hqueue : s.queue = b :: l)
    (hf : (f (s.buf b)).dirty = false) :
    HandOver ({ s.setBuf b f with queue := l, pending := none }.setIntr cpu (.popped i b)) := by
  have hnodup := h.nodup
  rw [hqueue] at hnodup
  obtain ⟨hnot, hrest⟩ := List.nodup_cons.mp hnodup
  refine h.working (busy_entered hcpu) rfl trivial (fun i hi => by cases hi) rfl rfl rfl hrest (fun q hq => ?_)
    fun q hq => ?_
  · have hqb : q ≠ b := by
      rintro rfl
      exact hnot hq
    simp only [setIntr, setBuf, Function.update_of_ne hqb]
    exact h.queued q (by rw [hqueue]; exact List.mem_cons_of_mem b hq)
  · refine .inr ?_
    by_cases hqb : q = b
    · subst hqb
      simp only [setIntr, setBuf, Function.update_self]
      exact ⟨hnot, hf⟩
    · simp only [setIntr, setBuf, Function.update_of_ne hqb]
      have hp := h.pushed q hq
      rw [hqueue] at hp
      rcases hp with hfirst | ⟨hgone, hclean⟩
      · exact (hqb (Option.some.inj hfirst).symm).elim
      · exact ⟨fun hm => hgone (List.mem_cons_of_mem b hm), hclean⟩

theorem HandOver.serve (h : s.HandOver) (hs : s.step (.serve cpu) = some t) : t.HandOver := by
  simp only [step] at hs
  split at hs
  · rename_i interrupt hcpu
    have hin : s.intr cpu ≠ .out := by rw [hcpu]; simp
    have hpending := h.pending_none hin
    have hcalm : ∀ c, c ≠ cpu → ¬Busy (s.intr c) := fun c hc => h.calm_of_in hin hc
    unfold SdState.serve at hs
    split at hs
    · rename_i hempty
      cases hs
      refine h.calm rfl hpending id hcalm fun q hq => ?_
      rw [hempty] at hq
      cases hq
    · rename_i b l hqueue
      have hb : s.queue.head? = some b := by rw [hqueue]; rfl
      obtain ⟨-, hflags⟩ := h.queued b (head?_mem hb)
      -- a handler whose interrupt is not for the first request leaves
      have hleave : (s.call b = .pushed ∨ s.InFlight b) → (s.setIntr cpu .leaving).HandOver := by
        intro hor
        refine h.calm hpending hpending id hcalm fun q hq => ?_
        obtain rfl := Option.some.inj (hb.symm.trans hq)
        exact hor
      cases interrupt with
      | none =>
        cases hs
        refine hleave (h.duty_of_calm (fun c => ?_) hb)
        by_cases hc : c = cpu
        · rw [hc, hcpu]
          exact id
        · exact hcalm c hc
      | some i =>
        have hfits := h.entered cpu i hcpu
        have hkind : i = s.kind b ∨ i = .readRdy ∧ s.call b = .pushed := by
          rcases hfits with ⟨q, hq, -, hi⟩ | ⟨hi, hothers⟩
          · obtain rfl := Option.some.inj (hb.symm.trans hq)
            exact .inl hi
          · exact .inr ⟨hi, hothers b hb⟩
        cases i with
        | readRdy =>
          simp only at hs
          split at hs
          · rename_i hread
            cases hs
            exact h.pop hcpu hqueue hread.1
          · rename_i hread
            cases hs
            refine hleave (.inl ?_)
            rcases hkind with hkind | ⟨-, hpushed⟩
            · -- a request in the queue is not clean and valid
              cases hd : (s.buf b).dirty with
              | true =>
                simp [kind, hd] at hkind
              | false => exact (hread ⟨hd, hflags hd⟩).elim
            · exact hpushed
        | dataDone =>
          have hdirty : (s.buf b).dirty = true := by
            rcases hkind with hkind | ⟨hkind, -⟩
            · unfold kind at hkind
              split at hkind
              · assumption
              · cases hkind
            · cases hkind
          simp only [hdirty, if_true] at hs
          cases hs
          exact h.pop hcpu hqueue rfl
  · cases hs

theorem HandOver.post (h : s.HandOver) (hs : s.step (.post cpu) = some t) : t.HandOver := by
  simp only [step] at hs
  split at hs
  · rename_i i b hcpu
    cases hs
    have hbusy : Busy (s.intr cpu) := by
      rw [hcpu]
      trivial
    have hin : s.intr cpu ≠ .out := by
      rw [hcpu]
      simp
    have hpending := h.pending_none hin
    have hflags := setBuf_same (s := s) (b := b)
      (f := fun x => { x with done := x.done + 1, up := x.up || decide (x.done + 1 ≤ 0) })
      fun _ => ⟨rfl, rfl, rfl⟩
    refine h.working hbusy rfl trivial (fun i hi => by cases hi) rfl rfl hpending h.nodup (fun q hq => ?_) fun q hq => ?_
    · simp only [setIntr, hflags]
      exact h.queued q hq
    · simp only [setIntr, hflags]
      exact h.pushed q hq
  · cases hs

theorem HandOver.next (h : s.HandOver) (hs : s.step (.next cpu) = some t) : t.HandOver := by
  simp only [step] at hs
  split at hs
  · rename_i i hcpu
    have hin : s.intr cpu ≠ .out := by rw [hcpu]; simp
    have hpending := h.pending_none hin
    have hcalm : ∀ c, c ≠ cpu → ¬Busy (s.intr c) := fun c hc => h.calm_of_in hin hc
    split at hs
    · rename_i hempty
      cases hs
      refine h.calm hpending hpending id hcalm fun q hq => ?_
      rw [hempty] at hq
      cases hq
    · rename_i b l hqueue
      have hb : s.queue.head? = some b := by rw [hqueue]; rfl
      obtain ⟨u, hstart, rfl⟩ := Option.map_eq_some_iff.mp hs
      obtain ⟨-, -, rfl⟩ := sdStart_cases hstart
      have hnone : ∀ c, ¬Busy (Function.update s.intr cpu .leaving c) := by
        intro c
        by_cases hc : c = cpu
        · rw [hc, Function.update_self]
          exact id
        · rw [Function.update_of_ne hc]
          exact hcalm c hc
      refine ⟨h.nodup, h.queued, h.pushed, fun c hc => (hnone c hc).elim, fun x hx => ?_,
        fun j hj => ?_, fun c j hc => ?_, fun q hq => ?_⟩
      · cases hx
        exact ⟨hpending, (h.queued b (head?_mem hb)).1, .inl ⟨hb, commandOf_write b⟩⟩
      · rw [show s.pending = some j from hj] at hpending
        cases hpending
      · exact (hnone c (by rw [show Function.update s.intr cpu .leaving c = _ from hc]; trivial)).elim
      · obtain rfl := Option.some.inj (hb.symm.trans hq)
        exact .inr (.inl (.inl ⟨_, rfl, rfl⟩))
  · cases hs

theorem handOver_of_reachable (h : sdSystem.Reachable Quiet s) : s.HandOver := by
  refine h.induction (I := HandOver) ?_ ?_
  · rintro s ⟨hqueue, hcall, hintr, -, hcommand, hpending, -, -⟩
    constructor <;> simp [hqueue, hcall, hintr, hcommand, hpending, Busy]
  · intro s l t hinv hok hs
    cases l with
    | push k blockno dirty valid data done => exact hinv.push hs
    | start k => exact hinv.start hs
    | wait k => exact hinv.wait hs
    | wake k => exact hinv.wake hs
    | alert k => exact hinv.alert hs
    | card => exact hinv.card hok hs
    | enter cpu => exact hinv.enter hs
    | serve cpu => exact hinv.serve hs
    | post cpu => exact hinv.post hs
    | next cpu => exact hinv.next hs
    | leave cpu => exact hinv.leave hs

end SdState

/-- **No request is lost** while the card ends no command before the handler has left. -/
theorem sd_handOver (s : SdState) (h : sdSystem.Reachable SdState.Quiet s) : s.NoneLost := by
  intro ⟨hcalls, hout⟩ q hq
  have hinv := SdState.handOver_of_reachable h
  have hcalm : ∀ c, ¬SdState.Busy (s.intr c) := by
    intro c hc
    rw [hout c] at hc
    exact hc
  rcases hinv.duty_of_calm hcalm hq with hpushed | hflight
  · rcases hcalls q with hcall | hcall <;> rw [hpushed] at hcall <;> cases hcall
  · exact hflight

/-- The one that waited is killed while the interrupt of its request is outstanding, and the
other one, behind it, has not waited at all. -/
theorem sd_handOver_two : ∃ s : SdState, s.Idle ∧ s.queue = [0, 1] ∧ s.pending = some .readRdy ∧
    s.InFlight 0 := by
  have hrun : ∃ s, sdSystem.Leads SdState.Quiet .boot s ∧ s.Idle ∧ s.queue = [0, 1] ∧
      s.pending = some .readRdy := by
    refine ⟨_, ((((((System.Leads.refl _).tail (l := .push 0 5 false false [] 0) trivial rfl).tail
      (l := .start 0) trivial rfl).tail (l := .wait 0) trivial rfl).tail
      (l := .push 1 6 false false [] 0) trivial rfl).tail (l := .alert 0) trivial rfl).tail
      (l := .card) (fun _ => rfl) rfl, ⟨fun k => ?_, fun _ => rfl⟩, rfl, rfl⟩
    match k with
    | 0 => exact .inr rfl
    | 1 => exact .inr rfl
    | k + 2 => exact .inl rfl
  obtain ⟨s, hleads, hidle, hqueue, hpending⟩ := hrun
  exact ⟨s, hidle, hqueue, hpending,
    sd_handOver s ⟨_, SdState.init_boot, hleads⟩ hidle 0 (by rw [hqueue]; rfl)⟩

/-- **A request is lost**: the handler of the write starts the request behind it, the card
ends that one at once, and the handler clears its interrupt when it leaves. -/
theorem sd_lost : ∃ s : SdState, sdSystem.Reachable (fun _ _ => True) s ∧ s.Idle ∧
    s.queue = [1] ∧ s.command = none ∧ s.pending = none ∧ ¬s.NoneLost := by
  have hrun : ∃ s, sdSystem.Leads (fun _ _ => True) .boot s ∧ s.Idle ∧ s.queue = [1] ∧
      s.command = none ∧ s.pending = none := by
    refine ⟨_, ((((((((((((System.Leads.refl _).tail (l := .push 0 5 true true [9] 0) trivial rfl).tail
      (l := .start 0) trivial rfl).tail (l := .wait 0) trivial rfl).tail
      (l := .push 1 6 false false [] 0) trivial rfl).tail (l := .card) trivial rfl).tail
      (l := .enter 0) trivial rfl).tail (l := .serve 0) trivial rfl).tail
      (l := .post 0) trivial rfl).tail (l := .next 0) trivial rfl).tail
      -- the interrupt of request 1
      (l := .card) trivial rfl).tail (l := .leave 0) trivial rfl).tail
      (l := .wake 0) trivial rfl, ⟨fun k => ?_, fun c => ?_⟩, rfl, rfl, rfl⟩
    · match k with
      | 0 => exact .inr rfl
      | 1 => exact .inr rfl
      | k + 2 => exact .inl rfl
    · match c with
      | 0 => rfl
      | c + 1 => rfl
  obtain ⟨s, hleads, hidle, hqueue, hcommand, hpending⟩ := hrun
  refine ⟨s, ⟨_, SdState.init_boot, hleads⟩, hidle, hqueue, hcommand, hpending, fun hnone => ?_⟩
  rcases hnone hidle 1 (by rw [hqueue]; rfl) with ⟨x, hx, -⟩ | ⟨i, hi, -⟩
  · rw [hcommand] at hx
    cases hx
  · rw [hpending] at hi
    cases hi

end OsLab
