/-
The content that `cache_acquire` returns to threads.

A client that reuses a buffer publishes its number first, waits for the sleep
lock and then reads the device, whatever another client has done to the buffer
in between.

* `ThreadState.Exclusive` — at most one client has the sleep lock of a buffer;
* `ThreadState.Coherent` — an unmodified copy has the content of the last sync,
  and so has the device unless the block is pinned;
* `acquire_returns_synced` — when no reused buffer has been pinned before it is
  read, `cache_acquire` returns the content of the last sync;
* `synced_modification_lost` — a run in which it does not.
-/
import OsLab.Fs.CacheCopies

namespace OsLab

namespace Pc

/-- The buffer whose sleep lock the client waits for. -/
def sleeps : Pc → Option ℕ
  | sleeping _ a _ => some a
  | _ => none

/-- The buffer that the client is about to read again. -/
def rereads : Pc → Option ℕ
  | locked .reuse a _ => some a
  | _ => none

/-- The client is back from `cache_acquire`. -/
def returned : Pc → Bool
  | holding _ _ _ => true
  | _ => false

/-- The client has modified the block since the last sync. -/
def dirty : Pc → Bool
  | holding _ _ dirty => dirty
  | _ => false

theorem buffer_of_sleeps {c : Pc} {a : ℕ} (h : c.sleeps = some a) : c.buffer = some a := by
  cases c <;> first | exact h | cases h

end Pc

/-- A reused buffer is read before it is pinned, a modified block is synced before
it is released, and there is at most one copy of each block. -/
def ReadsFirst (s : ThreadState) : ThreadStep → Prop
  | .fill p => ∀ a ∈ (s.pc p).rereads, (s.cache.heap a).pinned = false
  | .post p => (s.pc p).dirty = false
  | l => SeesFresh s l

instance (s : ThreadState) (l : ThreadStep) : Decidable (ReadsFirst s l) :=
  match l with
  | .fill p => inferInstanceAs (Decidable
      (∀ a ∈ (s.pc p).rereads, (s.cache.heap a).pinned = false))
  | .post p => inferInstanceAs (Decidable ((s.pc p).dirty = false))
  | .acquire p n => inferInstanceAs (Decidable (SeesFresh s (.acquire p n)))
  | .release p => inferInstanceAs (Decidable (SeesFresh s (.release p)))
  | .wait _ => isTrue trivial
  | .wake _ => isTrue trivial
  | .modify _ _ => isTrue trivial
  | .sync _ _ => isTrue trivial

theorem ReadsFirst.seesFresh {s : ThreadState} {l : ThreadStep} (h : ReadsFirst s l) :
    SeesFresh s l := by
  cases l with
  | fill p => trivial
  | post p => trivial
  | _ => exact h

/-- `cache_acquire` gives no sleep lock back. -/
theorem Bcache.lock_fillSection (path : Path) (a : ℕ) (s : Bcache) (b : ℕ) :
    ((fillSection path a s).heap b).lock = (s.heap b).lock := by
  have hload : ((s.load a).heap b).lock = (s.heap b).lock := by
    rw [load_eq]
    by_cases hba : b = a
    · rw [hba, heap_setBlock_self]
    · rw [heap_setBlock_ne hba]
  cases path with
  | hit =>
    simp only [fillSection]
    split
    · exact hload
    · rfl
  | reuse => exact hload
  | fresh => exact hload

namespace ThreadState

variable {sb : SuperBlock} {s t : ThreadState} {p q r a b m n : ℕ} {c : Pc} {cache : Bcache}

/-! ### Sleep locks -/

/-- The clients asleep on the sleep lock of buffer `a`. -/
def Asleep (s : ThreadState) (a q : ℕ) : Prop := (s.pc q).sleeps = some a

/-- The clients that have it. -/
def Owns (s : ThreadState) (a q : ℕ) : Prop := ∃ n, (s.pc q).holds = some (a, n)

/-- The sleep locks of the buffers in existence are sleep locks of their clients. -/
def Exclusive (s : ThreadState) : Prop :=
  ∀ a, s.InMemory a → (s.cache.heap a).lock.Locks (s.Asleep a) (s.Owns a)

theorem Exclusive.unique (hs : s.Exclusive) (ha : s.InMemory a) (hp : s.Owns a p)
    (hq : s.Owns a q) : p = q := (hs a ha).unique hp hq

theorem exclusive_init (h : (threadSystem sb).init s) : s.Exclusive := by
  obtain ⟨D, hD, hrun, hidle, -⟩ := h
  obtain ⟨cache, hrun', hb⟩ := Bcache.initBcache_spec hD
  obtain rfl := Except.ok.inj (hrun.symm.trans hrun')
  rintro a (ha | ⟨q, n, hq⟩)
  · have hacq : (s.cache.heap a).acquired = false := by
      by_contra hacq
      exact hb.held _ a (hb.wf.held_of_acquired ha (by simpa using hacq))
    have hlock : (s.cache.heap a).lock = .initSleeplock := by
      rw [hb.wf.lock a, hacq]
      rfl
    rw [hlock]
    refine .free (fun q hq => ?_) fun q hq => ?_
    · rw [Asleep, hidle q] at hq
      cases hq
    · obtain ⟨n, hq⟩ := hq
      rw [hidle q] at hq
      cases hq
  · rw [hidle q] at hq
    cases hq

/-- Client `p`, on buffer `a` at most, moves on: the other sleep locks are not
concerned. -/
private theorem Exclusive.goto (hs : s.Exclusive) (a : ℕ)
    (hold : ∀ b, (s.pc p).buffer = some b → b = a) (hnew : ∀ b, c.buffer = some b → b = a)
    (hmem : ∀ b, b ≠ a → (s.goto p c cache).InMemory b → s.InMemory b)
    (hlock : ∀ b, b ≠ a → (cache.heap b).lock = (s.cache.heap b).lock)
    (ha : (s.goto p c cache).InMemory a → (cache.heap a).lock.Locks
      ((s.goto p c cache).Asleep a) ((s.goto p c cache).Owns a)) :
    (s.goto p c cache).Exclusive := by
  intro b hb
  by_cases hba : b = a
  · rw [hba] at hb ⊢
    exact ha hb
  · rw [goto_cache, hlock b hba]
    refine (hs b (hmem b hba hb)).congr (fun q => ?_) fun q => ?_
    · by_cases hqp : q = p
      · rw [hqp, Asleep, Asleep, pc_goto_self]
        exact ⟨fun h => absurd (hnew b (Pc.buffer_of_sleeps h)) hba,
          fun h => absurd (hold b (Pc.buffer_of_sleeps h)) hba⟩
      · rw [Asleep, Asleep, pc_goto_ne hqp]
    · by_cases hqp : q = p
      · rw [hqp, Owns, Owns, pc_goto_self]
        constructor
        · rintro ⟨n, h⟩
          exact absurd (hnew b (Pc.buffer_of_uses (Pc.uses_of_holds h))) hba
        · rintro ⟨n, h⟩
          exact absurd (hold b (Pc.buffer_of_uses (Pc.uses_of_holds h))) hba
      · rw [Owns, Owns, pc_goto_ne hqp]

private theorem asleep_goto : (s.goto p c cache).Asleep a q ↔
    (q = p ∧ c.sleeps = some a) ∨ (q ≠ p ∧ s.Asleep a q) := by
  by_cases hqp : q = p
  · rw [hqp, Asleep, pc_goto_self]
    simp
  · rw [Asleep, pc_goto_ne hqp, Asleep]
    simp [hqp]

private theorem owns_goto : (s.goto p c cache).Owns a q ↔
    (q = p ∧ ∃ n, c.holds = some (a, n)) ∨ (q ≠ p ∧ s.Owns a q) := by
  by_cases hqp : q = p
  · rw [hqp, Owns, pc_goto_self]
    simp
  · rw [Owns, pc_goto_ne hqp, Owns]
    simp [hqp]

/-- The sleep lock of `a` when `p` has moved on: what is left to show is about `p`. -/
private theorem locks_goto {lock : Semaphore} {asleep owns : ℕ → Prop}
    (h : lock.Locks asleep owns) (hothers : ∀ q, q ≠ p → (asleep q ↔ s.Asleep a q) ∧
      (owns q ↔ s.Owns a q))
    (hasleep : asleep p ↔ c.sleeps = some a) (howns : owns p ↔ ∃ n, c.holds = some (a, n)) :
    lock.Locks ((s.goto p c cache).Asleep a) ((s.goto p c cache).Owns a) := by
  refine h.congr (fun q => ?_) fun q => ?_
  · rw [asleep_goto]
    rcases eq_or_ne q p with rfl | hqp
    · simp [hasleep]
    · simp [hqp, hothers q hqp]
  · rw [owns_goto]
    rcases eq_or_ne q p with rfl | hqp
    · simp [howns]
    · simp [hqp, hothers q hqp]

/-- A step that concerns no sleep lock. -/
private theorem Exclusive.same (hs : s.Exclusive) (c : Pc) (cache : Bcache) (hsleeps : c.sleeps = (s.pc p).sleeps)
    (hholds : c.holds = (s.pc p).holds) (hmem : ∀ b, (s.goto p c cache).InMemory b → s.InMemory b)
    (hlock : ∀ b, (s.goto p c cache).InMemory b → (cache.heap b).lock = (s.cache.heap b).lock) :
    (s.goto p c cache).Exclusive := by
  intro b hb
  rw [goto_cache, hlock b hb]
  exact locks_goto (hs b (hmem b hb)) (fun q _ => ⟨Iff.rfl, Iff.rfl⟩) (by rw [hsleeps, Asleep])
    (by rw [hholds, Owns])

private theorem exclusive_acquire (hs : s.Exclusive) (hi : s.Inv)
    (h : s.step (.acquire p n) = some t) : t.Exclusive := by
  obtain ⟨-, hp, rfl⟩ := step_acquire h
  have hold : ∀ q, (s.pc q).buffer ≠ some s.cache.brk := fun q hq =>
    Nat.lt_irrefl _ (hi.buffer q _ hq).1
  have hlist : ∀ (path : Bcache.Path) (a : ℕ) (f : Block → Block), path ≠ .fresh →
      (f (s.cache.heap a)).lock = (s.cache.heap a).lock →
      (s.goto p (.entered path a n) (s.cache.setBlock a f)).Exclusive := by
    intro path a f hpath hlock
    refine hs.same _ _ (by rw [hp]; rfl) (by rw [hp]; rfl) (fun b hb => ?_) fun b _ => ?_
    · refine InMemory.mono (t := s.goto p (.entered path a n) (s.cache.setBlock a f))
        (fun _ hc => hc) (fun q e hq => ?_) hb
      rwa [inserts_enter hp hpath] at hq
    · by_cases hba : b = a
      · rw [hba, Bcache.heap_setBlock_self, hlock]
      · rw [Bcache.heap_setBlock_ne hba]
  rcases s.cache.acquireSection_cases n with ⟨a, hfind, hsec⟩ | ⟨a, hfind, hvictim, hsec⟩ |
    ⟨hfind, -, hsec⟩
  · rw [hsec]
    exact hlist .hit a (fun b => { b with acquired := true }) (by decide) rfl
  · rw [hsec]
    exact hlist .reuse a (fun b => { b with blockNo := n, acquired := true, valid := false })
      (by decide) rfl
  · rw [hsec]
    refine hs.goto s.cache.brk (fun b hb => by rw [hp] at hb; cases hb)
      (fun b hb => (Option.some.inj hb).symm) (fun b hbrk hb => ?_) (fun b hbrk => ?_) fun _ => ?_
    · rcases hb with hb | ⟨q, m, hq⟩
      · exact .inl hb
      · by_cases hqp : q = p
        · rw [hqp, pc_goto_self] at hq
          exact absurd (Prod.mk.inj (Option.some.inj hq)).1.symm hbrk
        · rw [pc_goto_ne hqp] at hq
          exact .inr ⟨q, m, hq⟩
    · exact congrArg Block.lock (Function.update_of_ne hbrk _ _)
    · -- nobody knows the new buffer
      have hnew : ∀ B, (Function.update s.cache.heap s.cache.brk B) s.cache.brk = B := fun B =>
        Function.update_self _ _ _
      simp only [hnew]
      refine .free (fun q hq => ?_) fun q hq => ?_
      · rcases asleep_goto.mp hq with ⟨-, hq⟩ | ⟨-, hq⟩
        · cases hq
        · exact hold q (Pc.buffer_of_sleeps hq)
      · rcases owns_goto.mp hq with ⟨-, m, hq⟩ | ⟨-, m, hq⟩
        · cases hq
        · exact hold q (Pc.buffer_of_uses (Pc.uses_of_holds hq))

theorem exclusive_step {l : ThreadStep} (hs : s.Exclusive) (hi : s.Inv) (h : s.step l = some t) :
    t.Exclusive := by
  -- a step that stays concerns at most the sleep lock of the client's buffer
  have hstay : s.Stays t → ∀ b, t.InMemory b → s.InMemory b := fun hst b hb =>
    hb.mono (fun c hc => hst.head ▸ hc) fun q e hq => hst.inserts q ▸ hq
  cases l with
  | acquire p n => exact exclusive_acquire hs hi h
  | wait p =>
    have hmem := hstay (stays_of_step h nofun nofun nofun)
    obtain ⟨path, a, n, hp, rfl⟩ := step_wait h
    have hbuf : (s.pc p).buffer = some a := by rw [hp]; rfl
    have hsleeps : ¬ s.Asleep a p := by rw [Asleep, hp]; exact nofun
    have hlocks := hs a (hi.inMemory hbuf)
    refine hs.goto a (fun b hb => (Option.some.inj (hbuf.symm.trans hb)).symm) ?_
      (fun b _ => hmem b) (fun b hb => by rw [Bcache.heap_setBlock_ne hb]) fun _ => ?_
    · intro b hb
      split at hb <;> exact (Option.some.inj hb).symm
    · rw [Bcache.heap_setBlock_self]
      cases hwait : ((s.cache.heap a).lock.wait p).1 with
      | true =>
        exact locks_goto (hlocks.wait_true hwait) (fun q hqp => by simp [hqp])
          (by simp [hsleeps, Pc.sleeps]) (by simp [Pc.holds])
      | false =>
        have howns : ¬ s.Owns a p := by
          rintro ⟨m, hm⟩
          rw [hp] at hm
          cases hm
        exact locks_goto (hlocks.wait_false hsleeps hwait) (fun q hqp => by simp [hqp])
          (by simp [Pc.sleeps]) (by simp [howns, Pc.holds])
  | wake p =>
    have hmem := hstay (stays_of_step h nofun nofun nofun)
    obtain ⟨path, a, n, hp, hawake, rfl⟩ := step_wake h
    have hbuf : (s.pc p).buffer = some a := by rw [hp]; rfl
    have hsleeps : s.Asleep a p := by rw [Asleep, hp]; rfl
    refine hs.goto a (fun b hb => (Option.some.inj (hbuf.symm.trans hb)).symm)
      (fun b hb => (Option.some.inj hb).symm) (fun b _ => hmem b) (fun _ _ => rfl) fun _ => ?_
    exact locks_goto ((hs a (hi.inMemory hbuf)).wake hsleeps hawake) (fun q hqp => by simp [hqp])
      (by simp [Pc.sleeps]) (by simp [Pc.holds])
  | post p =>
    have hmem := hstay (stays_of_step h nofun nofun nofun)
    obtain ⟨a, n, dirty, hp, rfl⟩ := step_post h
    have hbuf : (s.pc p).buffer = some a := by rw [hp]; rfl
    have howns : s.Owns a p := ⟨n, by rw [hp]; rfl⟩
    have hsleeps : ¬ s.Asleep a p := by rw [Asleep, hp]; exact nofun
    refine hs.goto a (fun b hb => (Option.some.inj (hbuf.symm.trans hb)).symm)
      (fun b hb => (Option.some.inj hb).symm) (fun b _ => hmem b)
      (fun b hb => by rw [Bcache.heap_setBlock_ne hb]) fun _ => ?_
    rw [Bcache.heap_setBlock_self]
    exact locks_goto ((hs a (hi.inMemory hbuf)).post howns hsleeps) (fun q hqp => by simp [hqp])
      (by simp [hsleeps, Pc.sleeps]) (by simp [Pc.holds])
  | fill p =>
    obtain ⟨path, a, n, hp, rfl⟩ := step_fill h
    have hbuf : (s.pc p).buffer = some a := by rw [hp]; rfl
    refine hs.same _ _ (by rw [hp]; rfl) (by rw [hp]; rfl) (fun b hb => ?_) fun b _ => ?_
    · cases path with
      | fresh =>
        rcases hb with hb | ⟨q, m, hq⟩
        · rcases List.mem_append.mp hb with hb | hb
          · exact .inl hb
          · rw [List.mem_singleton.mp hb]
            exact hi.inMemory hbuf
        · by_cases hqp : q = p
          · rw [hqp, pc_goto_self] at hq
            cases hq
          · rw [pc_goto_ne hqp] at hq
            exact .inr ⟨q, m, hq⟩
      | hit | reuse =>
        refine hstay (stays_of_step h nofun nofun fun r c m hr hc => ?_) b hb
        obtain rfl := ThreadStep.fill.inj hr
        rw [hp] at hc
        cases hc
    · exact Bcache.lock_fillSection path a s.cache b
  | modify p d =>
    have hmem := hstay (stays_of_step h nofun nofun nofun)
    obtain ⟨a, n, dirty, hp, rfl⟩ := step_modify h
    refine hs.same _ _ (by rw [hp]; rfl) (by rw [hp]; rfl) hmem fun b _ => ?_
    by_cases hba : b = a
    · rw [hba, Bcache.heap_setBlock_self]
    · rw [Bcache.heap_setBlock_ne hba]
  | sync p ctx =>
    have hmem := hstay (stays_of_step h nofun nofun nofun)
    obtain ⟨a, n, dirty, cache, hp, hcache, rfl⟩ := step_sync h
    refine hs.same (.holding a n false) cache (by rw [hp]; rfl) (by rw [hp]; rfl) hmem fun b _ => ?_
    rcases hcache with rfl | ⟨header, rfl⟩
    · rfl
    · by_cases hba : b = a
      · simp [hba, Bcache.setBlock]
      · simp [hba, Bcache.setBlock]
  | release p =>
    obtain ⟨a, n, hp, rfl⟩ := step_release h
    have ha : a ∈ s.cache.head := hi.listed p a (by rw [hp]; rfl) (by rw [hp]; rfl)
    refine hs.same _ _ (by rw [hp]; rfl) (by rw [hp]; rfl) (fun b hb => ?_) fun b _ => ?_
    · refine hb.mono (fun c hc => Bcache.mem_of_mem_releaseSection ha hc) fun q e hq => ?_
      by_cases hqp : q = p
      · rw [hqp, pc_goto_self] at hq
        cases hq
      · rwa [pc_goto_ne hqp] at hq
    · rw [Bcache.heap_releaseSection]
      by_cases hba : b = a
      · rw [hba, Bcache.heap_setBlock_self]
      · rw [Bcache.heap_setBlock_ne hba]

/-! ### Contents -/

/-- Unmodified copies have the content of the last sync, and so has the device for
the blocks that are not pinned. -/
structure Coherent (s : ThreadState) : Prop where
  /-- `cache_acquire` returns filled buffers -/
  filled : ∀ p a n dirty, s.pc p = .holding a n dirty → (s.cache.heap a).valid = true
  pinned : ∀ a ∈ s.cache.head, (s.cache.heap a).pinned = true → (s.cache.heap a).valid = true
  device : ∀ n, (∀ a ∈ s.cache.head, (s.cache.heap a).pinned = true →
    (s.cache.heap a).blockNo ≠ n) → s.cache.device n = s.synced n
  data : ∀ a ∈ s.cache.head, (s.cache.heap a).valid = true →
    (∀ p n, s.pc p ≠ .holding a n true) →
    (s.cache.heap a).data = s.synced (s.cache.heap a).blockNo

theorem coherent_init (h : (threadSystem sb).init s) : s.Coherent := by
  obtain ⟨D, hD, hrun, hidle, hsynced⟩ := h
  obtain ⟨cache, hrun', hb⟩ := Bcache.initBcache_spec hD
  obtain rfl := Except.ok.inj (hrun.symm.trans hrun')
  have hunpinned : ∀ a ∈ s.cache.head, (s.cache.heap a).pinned ≠ true := fun a ha hpin =>
    hb.pinned _ ⟨a, ⟨ha, hb.wf.valid a ha (.inr hpin), rfl⟩, hpin⟩
  refine ⟨fun p a n dirty hp => ?_, fun a ha hpin => absurd hpin (hunpinned a ha),
    fun n _ => by rw [hsynced], fun a ha hvalid _ => ?_⟩
  · rw [hidle p] at hp
    cases hp
  · have hacq : (s.cache.heap a).acquired = false := by
      by_contra hacq
      exact hb.held _ a (hb.wf.held_of_acquired ha (by simpa using hacq))
    rw [hsynced]
    exact hb.clean _ a ⟨ha, hvalid, rfl⟩ hacq (by simpa using hunpinned a ha)

/-- A step that changes neither contents nor numbers of the buffers allocated so
far, and takes no pinned buffer off the list. -/
private theorem Coherent.same (hs : s.Coherent) (hi : s.Inv)
    (hsub : ∀ a ∈ t.cache.head, a ∈ s.cache.head)
    (hkeep : ∀ a ∈ s.cache.head, (s.cache.heap a).pinned = true → a ∈ t.cache.head)
    (hheap : ∀ a < s.cache.brk, (t.cache.heap a).blockNo = (s.cache.heap a).blockNo ∧
      (t.cache.heap a).valid = (s.cache.heap a).valid ∧
      (t.cache.heap a).pinned = (s.cache.heap a).pinned ∧
      (t.cache.heap a).data = (s.cache.heap a).data)
    (hdevice : t.cache.device = s.cache.device) (hsynced : t.synced = s.synced)
    (hpc : ∀ q a n dirty, t.pc q = .holding a n dirty → s.pc q = .holding a n dirty)
    (hdirty : ∀ q a n, s.pc q = .holding a n true → t.pc q = .holding a n true) : t.Coherent := by
  refine ⟨fun p a n dirty hp => ?_, fun a ha hpin => ?_, fun n hn => ?_, fun a ha hvalid hclean => ?_⟩
  · have hold := hpc p a n dirty hp
    have hlt := (hi.buffer p a (by rw [hold]; rfl)).1
    rw [(hheap a hlt).2.1]
    exact hs.filled p a n dirty hold
  · have hh := hheap a (hi.lt_brk a (hsub a ha))
    rw [hh.2.1]
    exact hs.pinned a (hsub a ha) (hh.2.2.1 ▸ hpin)
  · rw [hdevice, hsynced]
    refine hs.device n fun a ha hpin => ?_
    have hh := hheap a (hi.lt_brk a ha)
    rw [← hh.1]
    exact hn a (hkeep a ha hpin) (hh.2.2.1 ▸ hpin)
  · have hh := hheap a (hi.lt_brk a (hsub a ha))
    rw [hh.2.2.2, hsynced, hh.1]
    exact hs.data a (hsub a ha) (hh.2.1 ▸ hvalid) fun p n hp => hclean p n (hdirty p a n hp)

/-- Client `p` was not between `cache_acquire` and `cache_release`, or has nothing
unsynced, and is not there now. -/
private theorem holding_goto (c : Pc) (cache : Bcache) (hold : (s.pc p).dirty = false)
    (hnew : c.returned = false) :
    (∀ q a n dirty, (s.goto p c cache).pc q = .holding a n dirty →
      s.pc q = .holding a n dirty) ∧
    ∀ q a n, s.pc q = .holding a n true → (s.goto p c cache).pc q = .holding a n true := by
  refine ⟨fun q a n dirty hq => ?_, fun q a n hq => ?_⟩
  · by_cases hqp : q = p
    · rw [hqp, pc_goto_self] at hq
      rw [hq] at hnew
      cases hnew
    · rwa [pc_goto_ne hqp] at hq
  · by_cases hqp : q = p
    · rw [← hqp, hq] at hold
      cases hold
    · rwa [pc_goto_ne hqp]

private theorem coherent_acquire (hs : s.Coherent) (hi : s.Inv)
    (h : s.step (.acquire p n) = some t) : t.Coherent := by
  obtain ⟨-, hp, rfl⟩ := step_acquire h
  have hidle : (s.pc p).dirty = false := by rw [hp]; rfl
  rcases s.cache.acquireSection_cases n with ⟨a, hfind, hsec⟩ | ⟨a, hfind, hvictim, hsec⟩ |
    ⟨hfind, -, hsec⟩
  · rw [hsec]
    obtain ⟨hpc, hdirty⟩ := holding_goto (.entered .hit a n)
      (s.cache.setBlock a fun b => { b with acquired := true }) hidle rfl
    refine hs.same hi (fun _ => id) (fun _ hb _ => hb) (fun b _ => ?_) rfl rfl hpc hdirty
    by_cases hba : b = a
    · simp [hba, Bcache.setBlock]
    · simp [hba, Bcache.setBlock]
  · rw [hsec]
    -- the victim is neither in use nor pinned, so nothing is lost with its content
    obtain ⟨ha, hacq, hpin⟩ := Bcache.findVictim_spec hvictim
    set t := s.goto p (.entered .reuse a n) (s.cache.setBlock a fun b =>
      { b with blockNo := n, acquired := true, valid := false }) with ht
    obtain ⟨hpc, hdirty⟩ := holding_goto (.entered .reuse a n) t.cache hidle rfl
    have hne : ∀ b, b ≠ a → t.cache.heap b = s.cache.heap b := fun b hba => by
      simp [ht, Bcache.heap_setBlock_ne hba]
    have hself : (t.cache.heap a).valid = false ∧ (t.cache.heap a).pinned = false := by
      simp [ht, hpin]
    refine ⟨fun q b m dirty hq => ?_, fun b hb hbpin => ?_, fun m hm => ?_,
      fun b hb hvalid hclean => ?_⟩
    · have hold := hpc q b m dirty hq
      have hba : b ≠ a := by
        rintro rfl
        rcases (hi.uses q b m (by rw [hold]; rfl)).2 with hflag | hflag
        · rw [hacq] at hflag
          cases hflag
        · rw [hpin] at hflag
          cases hflag
      rw [hne b hba]
      exact hs.filled q b m dirty hold
    · have hba : b ≠ a := by
        rintro rfl
        rw [hself.2] at hbpin
        cases hbpin
      rw [hne b hba] at hbpin ⊢
      exact hs.pinned b hb hbpin
    · refine hs.device m fun b hb hbpin => ?_
      have hba : b ≠ a := by
        rintro rfl
        rw [hpin] at hbpin
        cases hbpin
      rw [← hne b hba] at hbpin ⊢
      exact hm b hb hbpin
    · have hba : b ≠ a := by
        rintro rfl
        rw [hself.1] at hvalid
        cases hvalid
      rw [hne b hba] at hvalid ⊢
      exact hs.data b hb hvalid fun q m hq => hclean q m (hdirty q b m hq)
  · rw [hsec]
    obtain ⟨hpc, hdirty⟩ := holding_goto (.entered .fresh s.cache.brk n)
      { s.cache with
        brk := s.cache.brk + 1
        heap := Function.update s.cache.heap s.cache.brk
          { initBlock with blockNo := n, acquired := true, valid := false } } hidle rfl
    refine hs.same hi (fun _ => id) (fun _ hb _ => hb) (fun b hb => ?_) rfl rfl hpc hdirty
    have hne : b ≠ s.cache.brk := by omega
    simp [hne]

/-- When no other buffer for block `n` can be pinned, the device has the content of
the last sync. -/
private theorem Coherent.device_eq (hs : s.Coherent) (hu : s.Unique) (hi : s.Inv)
    (huse : (s.pc p).uses = some (a, n))
    (hpin : (s.pc p).inserts = none → (s.cache.heap a).pinned = false) :
    s.cache.device n = s.synced n := by
  refine hs.device n fun b hb hbpin hno => ?_
  have hfind := hu.found b hb (.inl (hs.pinned b hb hbpin))
  rw [hno] at hfind
  have hbuf := Pc.buffer_of_uses huse
  cases hins : (s.pc p).inserts with
  | none =>
    have hfind' := hu.found a (hi.listed p a hbuf hins) (.inr ⟨p, hbuf⟩)
    rw [(hi.uses p a n huse).1, hfind] at hfind'
    obtain rfl := Option.some.inj hfind'
    rw [hpin hins] at hbpin
    cases hbpin
  | some e =>
    obtain ⟨c, m⟩ := e
    have huse' := Pc.uses_of_inserts hins
    obtain ⟨rfl, rfl⟩ := Prod.mk.inj (Option.some.inj (huse'.symm.trans huse))
    rw [(hu.alone p c m hins).1] at hfind
    cases hfind

/-- The device read of `cache_acquire`. -/
private theorem Coherent.load (hs : s.Coherent) (hno : (s.cache.heap a).blockNo = n)
    (hdev : s.cache.device n = s.synced n) {head : List ℕ}
    (hhead : head = s.cache.head ∨ head = s.cache.head ++ [a]) (hp : (s.pc p).dirty = false) :
    (s.goto p (.holding a n false) { s.cache.load a with head := head }).Coherent := by
  set t := s.goto p (.holding a n false) { s.cache.load a with head := head } with ht
  have hself : t.cache.heap a = { s.cache.heap a with data := s.cache.device n, valid := true } := by
    show (s.cache.load a).heap a = _
    rw [Bcache.load_eq, Bcache.heap_setBlock_self, ← hno]
  have hne : ∀ b, b ≠ a → t.cache.heap b = s.cache.heap b := by
    intro b hba
    show (s.cache.load a).heap b = _
    rw [Bcache.load_eq, Bcache.heap_setBlock_ne hba]
  have hsub : ∀ b, b ≠ a → b ∈ t.cache.head → b ∈ s.cache.head := by
    intro b hba hb
    rcases hhead with hh | hh
    · exact hh ▸ hb
    · have hb' : b ∈ s.cache.head ++ [a] := hh ▸ hb
      simpa [hba] using hb'
  have hpc : ∀ q, q ≠ p → t.pc q = s.pc q := fun q hq => pc_goto_ne hq
  have hptp : t.pc p = .holding a n false := pc_goto_self
  have hdirty : ∀ q b m, s.pc q = .holding b m true → t.pc q = .holding b m true := by
    intro q b m hq
    by_cases hqp : q = p
    · rw [← hqp, hq] at hp
      cases hp
    · rwa [hpc q hqp]
  refine ⟨fun q b m dirty hq => ?_, fun b hb hbpin => ?_, fun m hm => ?_,
    fun b hb hvalid hclean => ?_⟩
  · by_cases hba : b = a
    · rw [hba, hself]
    · rw [hne b hba]
      by_cases hqp : q = p
      · rw [hqp, hptp] at hq
        injection hq with hab
        exact absurd hab.symm hba
      · exact hs.filled q b m dirty (hpc q hqp ▸ hq)
  · by_cases hba : b = a
    · rw [hba, hself]
    · rw [hne b hba] at hbpin ⊢
      exact hs.pinned b (hsub b hba hb) hbpin
  · refine hs.device m fun b hb hbpin => ?_
    have hkey : (t.cache.heap b).blockNo = (s.cache.heap b).blockNo ∧
        (t.cache.heap b).pinned = (s.cache.heap b).pinned := by
      by_cases hba : b = a
      · rw [hba, hself]
        exact ⟨rfl, rfl⟩
      · rw [hne b hba]
        exact ⟨rfl, rfl⟩
    have hbt : b ∈ t.cache.head := by
      rcases hhead with hh | hh
      · show b ∈ head
        rwa [hh]
      · show b ∈ head
        rw [hh]
        exact List.mem_append_left _ hb
    rw [← hkey.1]
    exact hm b hbt (hkey.2 ▸ hbpin)
  · by_cases hba : b = a
    · rw [hba, hself, hno]
      exact hdev
    · rw [hne b hba] at hvalid ⊢
      exact hs.data b (hsub b hba hb) hvalid fun q m hq => hclean q m (hdirty q b m hq)

private theorem coherent_fill (hs : s.Coherent) (hu : s.Unique) (hi : s.Inv)
    (hl : ReadsFirst s (.fill p)) (h : s.step (.fill p) = some t) : t.Coherent := by
  obtain ⟨path, a, n, hp, rfl⟩ := step_fill h
  have huse : (s.pc p).uses = some (a, n) := by rw [hp]; rfl
  have hclean : (s.pc p).dirty = false := by rw [hp]; rfl
  have hno := (hi.uses p a n huse).1
  cases path with
  | fresh =>
    refine hs.load hno (hs.device_eq hu hi huse fun hins => ?_) (.inr rfl) hclean
    rw [hp] at hins
    cases hins
  | reuse =>
    have hpin : (s.cache.heap a).pinned = false := hl a (by rw [hp]; rfl)
    exact hs.load hno (hs.device_eq hu hi huse fun _ => hpin) (.inl rfl) hclean
  | hit =>
    have ha : a ∈ s.cache.head := hi.listed p a (Pc.buffer_of_uses huse) (by rw [hp]; rfl)
    simp only [Bcache.fillSection]
    split
    · rename_i hread
      have hpin : (s.cache.heap a).pinned = false := by
        simp only [Bool.and_eq_true, Bool.not_eq_true'] at hread
        exact hread.2
      exact hs.load hno (hs.device_eq hu hi huse fun _ => hpin) (.inl rfl) hclean
    · rename_i hskip
      have hvalid : (s.cache.heap a).valid = true := by
        by_contra hv
        refine hv (hs.pinned a ha ?_)
        by_contra hpin
        exact hskip (by simp [hv, hpin])
      have hdirty : ∀ q b m, s.pc q = .holding b m true →
          (s.goto p (.holding a n false) s.cache).pc q = .holding b m true := by
        intro q b m hq
        by_cases hqp : q = p
        · rw [← hqp, hq] at hclean
          cases hclean
        · rwa [pc_goto_ne hqp]
      refine ⟨fun q b m dirty hq => ?_, hs.pinned, hs.device, fun b hb hv hd =>
        hs.data b hb hv fun q m hq => hd q m (hdirty q b m hq)⟩
      by_cases hqp : q = p
      · rw [hqp, pc_goto_self] at hq
        injection hq with hab
        exact hab ▸ hvalid
      · exact hs.filled q b m dirty (pc_goto_ne hqp ▸ hq)

private theorem coherent_modify {d : BlockData} (hs : s.Coherent)
    (h : s.step (.modify p d) = some t) : t.Coherent := by
  obtain ⟨a, n, dirty, hp, rfl⟩ := step_modify h
  set t := s.goto p (.holding a n true) (s.cache.setBlock a fun b => { b with data := d }) with ht
  have hkey : ∀ b, (t.cache.heap b).blockNo = (s.cache.heap b).blockNo ∧
      (t.cache.heap b).valid = (s.cache.heap b).valid ∧
      (t.cache.heap b).pinned = (s.cache.heap b).pinned := by
    intro b
    by_cases hba : b = a
    · subst hba
      simp [ht]
    · simp [ht, Bcache.heap_setBlock_ne hba]
  have hdirty : t.pc p = .holding a n true := pc_goto_self
  refine ⟨fun q b m x hq => ?_, fun b hb hpin => ?_, fun m hm => ?_, fun b hb hvalid hclean => ?_⟩
  · rw [(hkey b).2.1]
    by_cases hqp : q = p
    · rw [hqp, hdirty] at hq
      injection hq with hab
      exact hab ▸ hs.filled p a n dirty hp
    · exact hs.filled q b m x (pc_goto_ne hqp ▸ hq)
  · rw [(hkey b).2.1]
    exact hs.pinned b hb ((hkey b).2.2 ▸ hpin)
  · refine hs.device m fun b hb hpin => ?_
    rw [← (hkey b).1]
    exact hm b hb ((hkey b).2.2 ▸ hpin)
  · have hba : b ≠ a := by
      rintro rfl
      exact hclean p n hdirty
    have hsame : t.cache.heap b = s.cache.heap b := by simp [ht, Bcache.heap_setBlock_ne hba]
    rw [hsame] at hvalid ⊢
    refine hs.data b hb hvalid fun q m hq => hclean q m ?_
    have hqp : q ≠ p := by
      rintro rfl
      rw [hp] at hq
      injection hq with hab
      exact hba hab.symm
    rwa [ht, pc_goto_ne hqp]

private theorem coherent_sync {ctx : Option ℕ} (hs : s.Coherent) (hu : s.Unique) (hi : s.Inv)
    (h : s.step (.sync p ctx) = some t) : t.Coherent := by
  obtain ⟨a, n, dirty, cache, hp, hcache, rfl⟩ := step_sync h
  have huse : (s.pc p).uses = some (a, n) := by rw [hp]; rfl
  have hbuf := Pc.buffer_of_uses huse
  have ha : a ∈ s.cache.head := hi.listed p a hbuf (by rw [hp]; rfl)
  have hno := (hi.uses p a n huse).1
  have hvalid := hs.filled p a n dirty hp
  -- what both branches do
  have hhead : cache.head = s.cache.head := by rcases hcache with rfl | ⟨_, rfl⟩ <;> rfl
  have hkey : ∀ b, (cache.heap b).blockNo = (s.cache.heap b).blockNo ∧
      (cache.heap b).valid = (s.cache.heap b).valid ∧
      (cache.heap b).data = (s.cache.heap b).data ∧
      ((s.cache.heap b).pinned = true → (cache.heap b).pinned = true) ∧
      (b ≠ a → (cache.heap b).pinned = (s.cache.heap b).pinned) := by
    intro b
    rcases hcache with rfl | ⟨header, rfl⟩
    · exact ⟨rfl, rfl, rfl, id, fun _ => rfl⟩
    · by_cases hba : b = a
      · simp [hba, Bcache.setBlock]
      · simp [hba, Bcache.setBlock]
  have hdevice : ∀ m, (∀ b ∈ s.cache.head, (cache.heap b).pinned = true →
      (s.cache.heap b).blockNo ≠ m) →
      cache.device m = Function.update s.synced n (s.cache.heap a).data m := by
    intro m hm
    have hold : s.cache.device m = s.synced m := hs.device m fun b hb hpin =>
      hm b hb ((hkey b).2.2.2.1 hpin)
    rcases hcache with rfl | ⟨header, rfl⟩
    · show Function.update s.cache.device (s.cache.heap a).blockNo (s.cache.heap a).data m = _
      rw [hno]
      by_cases hmn : m = n
      · rw [hmn, Function.update_self, Function.update_self]
      · rw [Function.update_of_ne hmn, Function.update_of_ne hmn]
        exact hold
    · have hmn : m ≠ n := by
        rintro rfl
        exact hm a ha (by simp [Bcache.setBlock]) hno
      rw [Function.update_of_ne hmn]
      exact hold
  refine ⟨fun q b m x hq => ?_, fun b hb hpin => ?_, fun m hm => ?_, fun b hb hv hclean => ?_⟩
  · show (cache.heap b).valid = true
    rw [(hkey b).2.1]
    have hq' : (Function.update s.pc p (.holding a n false) q) = .holding b m x := hq
    by_cases hqp : q = p
    · rw [hqp, Function.update_self] at hq'
      injection hq' with hab
      exact hab ▸ hvalid
    · rw [Function.update_of_ne hqp] at hq'
      exact hs.filled q b m x hq'
  · show (cache.heap b).valid = true
    have hb' : b ∈ s.cache.head := hhead ▸ hb
    rw [(hkey b).2.1]
    by_cases hba : b = a
    · exact hba ▸ hvalid
    · exact hs.pinned b hb' ((hkey b).2.2.2.2 hba ▸ hpin)
  · show cache.device m = Function.update s.synced (s.cache.heap a).blockNo (s.cache.heap a).data m
    rw [hno]
    refine hdevice m fun b hb hpin => ?_
    rw [← (hkey b).1]
    exact hm b (show b ∈ cache.head from hhead.symm ▸ hb) hpin
  · have hb' : b ∈ s.cache.head := hhead ▸ hb
    have hv' : (s.cache.heap b).valid = true := (hkey b).2.1 ▸ hv
    show (cache.heap b).data = Function.update s.synced (s.cache.heap a).blockNo
      (s.cache.heap a).data (cache.heap b).blockNo
    rw [(hkey b).2.2.1, (hkey b).1]
    by_cases hba : b = a
    · rw [hba, Function.update_self]
    · have hne : (s.cache.heap b).blockNo ≠ (s.cache.heap a).blockNo := fun heq =>
        hba (hu.eq_of_blockNo hb' (.inl hv') ha (.inr ⟨p, hbuf⟩) heq)
      rw [Function.update_of_ne hne]
      refine hs.data b hb' hv' fun q m hq => hclean q m ?_
      have hqp : q ≠ p := by
        rintro rfl
        rw [hp] at hq
        injection hq with hab
        exact hba hab.symm
      show Function.update s.pc p _ q = _
      rw [Function.update_of_ne hqp, hq]

theorem coherent_step {l : ThreadStep} (hs : s.Coherent) (hu : s.Unique) (hi : s.Inv)
    (hl : ReadsFirst s l) (h : s.step l = some t) : t.Coherent := by
  cases l with
  | acquire p n => exact coherent_acquire hs hi h
  | fill p => exact coherent_fill hs hu hi hl h
  | modify p d => exact coherent_modify hs h
  | sync p ctx => exact coherent_sync hs hu hi h
  | wait p =>
    obtain ⟨path, a, n, hp, rfl⟩ := step_wait h
    obtain ⟨hpc, hdirty⟩ := holding_goto
      (if ((s.cache.heap a).lock.wait p).1 then .locked path a n else .sleeping path a n)
      (s.cache.setBlock a fun b => { b with lock := ((s.cache.heap a).lock.wait p).2 })
      (show (s.pc p).dirty = false by rw [hp]; rfl) (by split <;> rfl)
    refine hs.same hi (fun _ => id) (fun _ hb _ => hb) (fun b _ => ?_) rfl rfl hpc hdirty
    by_cases hba : b = a
    · simp [hba, Bcache.setBlock]
    · simp [hba, Bcache.setBlock]
  | wake p =>
    obtain ⟨path, a, n, hp, -, rfl⟩ := step_wake h
    obtain ⟨hpc, hdirty⟩ := holding_goto (.locked path a n) s.cache
      (show (s.pc p).dirty = false by rw [hp]; rfl) rfl
    exact hs.same hi (fun _ => id) (fun _ hb _ => hb) (fun b _ => ⟨rfl, rfl, rfl, rfl⟩) rfl rfl
      hpc hdirty
  | post p =>
    obtain ⟨a, n, dirty, hp, rfl⟩ := step_post h
    obtain ⟨hpc, hdirty⟩ := holding_goto (.releasing a n)
      (s.cache.setBlock a fun b => { b with lock := b.lock.post }) hl rfl
    refine hs.same hi (fun _ => id) (fun _ hb _ => hb) (fun b _ => ?_) rfl rfl hpc hdirty
    by_cases hba : b = a
    · simp [hba, Bcache.setBlock]
    · simp [hba, Bcache.setBlock]
  | release p =>
    obtain ⟨a, n, hp, rfl⟩ := step_release h
    obtain ⟨hpc, hdirty⟩ := holding_goto .idle (Bcache.releaseSection a s.cache)
      (show (s.pc p).dirty = false by rw [hp]; rfl) rfl
    have ha : a ∈ s.cache.head := hi.listed p a (by rw [hp]; rfl) (by rw [hp]; rfl)
    refine hs.same hi (fun b hb => Bcache.mem_of_mem_releaseSection ha hb)
      (fun b hb hpin => Bcache.mem_releaseSection hb hpin) (fun b _ => ?_)
      (s.cache.device_releaseSection a) rfl hpc hdirty
    rw [goto_cache, Bcache.heap_releaseSection]
    by_cases hba : b = a
    · simp [hba, Bcache.setBlock]
    · simp [hba, Bcache.setBlock]

theorem exclusive_of_reachable (h : (threadSystem sb).Reachable LastUser s) : s.Exclusive :=
  h.strong_induction (fun _ => exclusive_init) fun _ _ _ hr hs _ hstep =>
    exclusive_step hs (inv_of_reachable hr) hstep

theorem coherent_of_reachable (h : (threadSystem sb).Reachable ReadsFirst s) : s.Coherent := by
  refine h.strong_induction (fun _ => coherent_init) fun u _ _ hr hs hl hstep => ?_
  have hfresh := hr.mono fun _ _ => ReadsFirst.seesFresh
  exact coherent_step hs (unique_of_reachable hfresh)
    (inv_of_reachable (hfresh.mono fun _ _ => SeesFresh.lastUser)) hl hstep

/-- `cache_acquire(n)` of client `p` returns buffer `a`, and the state is `t`. -/
def Returns (s : ThreadState) (p n a : ℕ) (t : ThreadState) : Prop :=
  s.step (.fill p) = some t ∧ (t.pc p).holds = some (a, n)

end ThreadState

/-- **No synced modification is lost.**  In every run in which there is one copy of
each block, reused buffers are read before they are pinned, and modified blocks
are synced, `cache_acquire(n)` returns the content of the last sync of `n`. -/
theorem acquire_returns_synced (sb : SuperBlock) (s t : ThreadState) (p n a : ℕ)
    (hs : (threadSystem sb).Reachable ReadsFirst s) (hl : ReadsFirst s (.fill p))
    (hret : s.Returns p n a t) :
    (t.cache.heap a).blockNo = n ∧ (t.cache.heap a).data = t.synced n := by
  obtain ⟨hstep, hp⟩ := hret
  have ht := hs.step hl hstep
  have hlast := ht.mono fun _ _ h => h.seesFresh.lastUser
  have hi := ThreadState.inv_of_reachable hlast
  have hex := ThreadState.exclusive_of_reachable hlast
  have hc := ThreadState.coherent_of_reachable ht
  have huse := Pc.uses_of_holds hp
  have hbuf := Pc.buffer_of_uses huse
  have hno := (hi.uses p a n huse).1
  obtain ⟨path, a', n', -, rfl⟩ := ThreadState.step_fill hstep
  rw [ThreadState.pc_goto_self] at hp
  obtain ⟨rfl, rfl⟩ := Prod.mk.inj (Option.some.inj hp)
  set t := s.goto p (.holding a' n' false) (Bcache.fillSection path a' s.cache) with ht'
  have hptp : t.pc p = .holding a' n' false := ThreadState.pc_goto_self
  have hmem : a' ∈ t.cache.head := hi.listed p a' hbuf (by rw [hptp]; rfl)
  refine ⟨hno, ?_⟩
  rw [hc.data a' hmem (hc.filled p a' n' false hptp) fun q m hq => ?_, hno]
  -- nobody else can hold it modified
  have hqp : q = p := hex.unique (.inl hmem) ⟨m, by rw [hq]; rfl⟩ ⟨n', by rw [hptp]; rfl⟩
  rw [hqp, hptp] at hq
  cases hq

/-- Client 1 waits for block 500 while client 0 modifies, logs and releases it. -/
theorem acquire_returns_synced_mkfs : ∃ s t : ThreadState,
    (threadSystem .mkfs).Reachable ReadsFirst s ∧ s.Returns 1 500 0 t ∧
    (t.cache.heap 0).data.byte 0 = 7 ∧ (t.cache.heap 0).data = t.synced 500 := by
  have hrun : ((ThreadState.boot .mkfs OpState.blankDisk 2).bind fun s =>
      (threadSystem .mkfs).exec ReadsFirst s
        [.acquire 0 500, .wait 0, .fill 0, .acquire 1 500, .wait 1, .modify 0 (.fill 7),
          .sync 0 (some 10), .post 0, .release 0, .wake 1]).map
      (fun s => (decide (ReadsFirst s (.fill 1)), (s.step (.fill 1)).map fun t =>
        ((t.pc 1).holds, (t.cache.heap 0).data.byte 0)))
      = some (true, some (some (0, 500), 7)) := by
    decide
  obtain ⟨s, hs, hf⟩ := ThreadState.exists_reachable_of_exec hrun
  obtain ⟨hl, hstep⟩ := Prod.mk.inj hf
  obtain ⟨t, ht, hft⟩ := Option.map_eq_some_iff.mp hstep
  obtain ⟨hp, hbyte⟩ := Prod.mk.inj hft
  exact ⟨s, t, hs, ⟨ht, hp⟩, hbyte,
    (acquire_returns_synced .mkfs s t 1 500 0 hs (of_decide_eq_true hl) ⟨ht, hp⟩).2⟩

/-- Client 0 gives an idle buffer to block 500; before it has the sleep lock,
client 1 finds the buffer, modifies, logs and releases the block.  Client 0 then
reads the old content from the device. -/
theorem synced_modification_lost : ∃ s t : ThreadState,
    (threadSystem .mkfs).Reachable (fun _ _ => True) s ∧ ∃ p n a,
    s.Returns p n a t ∧ (t.cache.heap a).data ≠ t.synced n := by
  have hrun : ((ThreadState.boot .mkfs OpState.blankDisk 2).bind fun s =>
      (threadSystem .mkfs).exec (fun _ _ => True) s
        [.acquire 0 500, .acquire 1 500, .wait 1, .fill 1, .modify 1 (.fill 7),
          .sync 1 (some 10), .post 1, .release 1, .wait 0]).map
      (fun s => (s.step (.fill 0)).map fun t =>
        ((t.pc 0).holds, (t.cache.heap 0).data.byte 0, (t.synced 500).byte 0))
      = some (some (some (0, 500), 0, 7)) := by
    decide
  obtain ⟨s, hs, hstep⟩ := ThreadState.exists_reachable_of_exec hrun
  obtain ⟨t, ht, hft⟩ := Option.map_eq_some_iff.mp hstep
  obtain ⟨hp, hbytes⟩ := Prod.mk.inj hft
  obtain ⟨hdata, hsynced⟩ := Prod.mk.inj hbytes
  refine ⟨s, t, hs, 0, 500, 0, ⟨ht, hp⟩, fun heq => ?_⟩
  rw [heq, hsynced] at hdata
  exact absurd hdata (by decide)

end OsLab
