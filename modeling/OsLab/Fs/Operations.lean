/-
Clients of the block cache.

`opSystem` interleaves the calls that any number of clients make: `begin_op`,
`acquire`, a store into a block that is held, `sync`, `release`, and the two
sections of `end_op`.  Every call is the function of `Cache.lean` and one step;
a call that would sleep is not enabled.  The state keeps the history that the
results speak about: the synced contents and the committed groups.

* `OpState.Inv`, `inv_of_reachable` — what holds between the calls;
* `OpState.reachable_toLog` — the sections under `loglock` behave as in
  `logSystem`, so the bounds on the header apply.
-/
import OsLab.Fs.LogAdmission
import OsLab.Fs.Commit

namespace OsLab

/-- One `cache_sync`: the operation (`none` for the null context), the block and
its content. -/
structure SyncEvent where
  op : Option ℕ
  blockNo : ℕ
  data : BlockData

/-- One run of `commit`. -/
structure CommitEvent where
  /-- the device writes before it -/
  start : ℕ
  /-- the syncs before it -/
  synced : ℕ
  /-- the logged blocks with their contents -/
  group : List (ℕ × BlockData)

/-- The block cache and its clients. -/
structure OpState where
  cache : Bcache
  /-- the operations between `begin_op` and `end_op` -/
  running : Finset ℕ
  /-- `ctx->rm` -/
  rm : ℕ → ℕ
  /-- operations are named in the order in which they begin -/
  nextOp : ℕ
  /-- the buffers that clients have acquired -/
  held : Finset ℕ
  /-- those modified since they were last synced -/
  dirty : Finset ℕ
  /-- the device before `init_bcache` -/
  disk : ℕ → BlockData
  syncs : List SyncEvent
  commits : List CommitEvent

/-- The calls. -/
inductive OpCall
  | beginOp
  | acquire (n : ℕ)
  /-- the client stores `d` in the buffer `a`, which it holds -/
  | modify (a : ℕ) (d : BlockData)
  | sync (ctx : Option ℕ) (a : ℕ)
  | release (a : ℕ)
  /-- the first section of `cache_end_op` -/
  | endOp (c : ℕ)
  /-- the second one -/
  | commit

namespace OpState

/-- The step of a call; `none` when it sleeps or fails, or when the client may
not make it: it uses a buffer that is not held or an operation that is not
running. -/
def step (sb : SuperBlock) (s : OpState) : OpCall → Option OpState
  | .beginOp =>
    match cacheBeginOp.run s.cache with
    | .ok (rm, cache) => some { s with
        cache := cache
        running := insert s.nextOp s.running
        rm := Function.update s.rm s.nextOp rm
        nextOp := s.nextOp + 1 }
    | .error _ => none
  | .acquire n =>
    match (cacheAcquire n).run s.cache with
    | .ok (a, cache) => some { s with cache := cache, held := insert a s.held }
    | .error _ => none
  | .modify a d =>
    if a ∈ s.held then some { s with
        cache := s.cache.setBlock a fun b => { b with data := d }
        dirty := insert a s.dirty }
    else none
  | .sync none a =>
    if a ∈ s.held then
      match (cacheSync none a).run s.cache with
      | .ok (_, cache) => some { s with
          cache := cache
          dirty := s.dirty.erase a
          syncs := s.syncs ++ [⟨none, (s.cache.heap a).blockNo, (s.cache.heap a).data⟩] }
      | .error _ => none
    else none
  | .sync (some c) a =>
    if a ∈ s.held ∧ c ∈ s.running then
      match (cacheSync (some (s.rm c)) a).run s.cache with
      | .ok (rm, cache) => some { s with
          cache := cache
          rm := Function.update s.rm c (rm.getD 0)
          dirty := s.dirty.erase a
          syncs := s.syncs ++ [⟨some c, (s.cache.heap a).blockNo, (s.cache.heap a).data⟩] }
      | .error _ => none
    else none
  | .release a =>
    if a ∈ s.held then
      match (cacheRelease a).run s.cache with
      | .ok (_, cache) => some { s with
          cache := cache, held := s.held.erase a, dirty := s.dirty.erase a }
      | .error _ => none
    else none
  | .endOp c =>
    if c ∈ s.running then
      match s.cache.log.endSection with
      | .ok (_, log) => some { s with
          cache := { s.cache with log := log }, running := s.running.erase c }
      | .error _ => none
    else none
  | .commit =>
    if s.cache.log.committing then
      match (commitSection sb).run s.cache with
      | .ok (_, cache) => some { s with
          cache := cache
          commits := s.commits ++ [⟨s.cache.trace.length, s.syncs.length, s.cache.group⟩] }
      | .error _ => none
    else none

end OpState

/-- The clients of a cache that `init_bcache` has just set up. -/
def opSystem (sb : SuperBlock) : System OpState OpCall where
  init s := (logFormat sb).Sound s.disk ∧ initBcache sb s.disk = .ok s.cache ∧ s.running = ∅ ∧
    s.held = ∅ ∧ s.dirty = ∅ ∧ s.syncs = [] ∧ s.commits = []
  step := OpState.step sb

/-- `init_bcache` on a disk, before the first call. -/
def OpState.boot (sb : SuperBlock) (disk : ℕ → BlockData) : Option OpState :=
  match initBcache sb disk with
  | .ok cache => some ⟨cache, ∅, fun _ => 0, 0, ∅, ∅, disk, [], []⟩
  | .error _ => none

theorem OpState.init_of_boot {sb : SuperBlock} {disk : ℕ → BlockData} {s : OpState}
    (hD : (logFormat sb).Sound disk) (h : OpState.boot sb disk = some s) :
    (opSystem sb).init s ∧ s.disk = disk := by
  simp only [boot] at h
  split at h
  · rename_i cache hrun
    cases h
    exact ⟨⟨hD, hrun, rfl, rfl, rfl, rfl, rfl⟩, rfl⟩
  · cases h

/-- What is asked of every client: it acquires blocks outside the log area, with
numbers that fit in a `usize`, and no commit has more blocks than the log area
holds. -/
def Proper (sb : SuperBlock) (s : OpState) : OpCall → Prop
  | .acquire n => ¬ sb.InLog n ∧ n < 2 ^ 64
  | .commit => s.cache.header.numBlocks ≤ sb.numLogBlocks - 1
  | _ => True

instance (sb : SuperBlock) (s : OpState) (l : OpCall) : Decidable (Proper sb s l) :=
  match l with
  | .acquire n => inferInstanceAs (Decidable (¬ sb.InLog n ∧ n < 2 ^ 64))
  | .commit => inferInstanceAs (Decidable (s.cache.header.numBlocks ≤ sb.numLogBlocks - 1))
  | .beginOp | .modify _ _ | .sync _ _ | .release _ | .endOp _ => inferInstanceAs (Decidable True)

namespace OpState

variable {sb : SuperBlock} {s t : OpState} {a c n : ℕ}

/-- The part of the state that the sections under `loglock` use. -/
def toLog (s : OpState) : LogState := ⟨s.cache.header, s.cache.log, s.running, s.rm⟩

/-! ### What a call does -/

theorem step_beginOp (h : s.step sb .beginOp = some t) :
    ∃ log, s.cache.log.beginSection s.cache.header = some log ∧
      t = { s with
        cache := { s.cache with log := log }
        running := insert s.nextOp s.running
        rm := Function.update s.rm s.nextOp opMaxNumBlocks
        nextOp := s.nextOp + 1 } := by
  unfold step at h
  dsimp only at h
  split at h
  · rename_i rm cache hrun
    cases h
    have hwp : wp cacheBeginOp
        (fun rm cache => ∃ log, s.cache.log.beginSection s.cache.header = some log ∧
          rm = opMaxNumBlocks ∧ cache = { s.cache with log := log }) (fun _ => True) s.cache := by
      simp only [cacheBeginOp, wp_bind, wp_get]
      cases hlog : s.cache.log.beginSection s.cache.header with
      | none => trivial
      | some log => exact ⟨log, rfl, rfl, rfl⟩
    obtain ⟨log, hlog, rfl, rfl⟩ := wp_run hwp hrun
    exact ⟨log, hlog, rfl⟩
  · cases h

theorem step_acquire (hs : s.cache.Wf) (h : s.step sb (.acquire n) = some t) :
    ∃ a, s.cache.Acquires n a t.cache ∧
      t = { s with cache := t.cache, held := insert a s.held } := by
  unfold step at h
  dsimp only at h
  split at h
  · rename_i a cache hrun
    cases h
    exact ⟨a, wp_run (Bcache.wp_cacheAcquire (E := fun _ => True) hs fun _ _ => trivial) hrun, rfl⟩
  · cases h

theorem step_modify {d : BlockData} (h : s.step sb (.modify a d) = some t) :
    a ∈ s.held ∧ t = { s with
      cache := s.cache.setBlock a fun b => { b with data := d }
      dirty := insert a s.dirty } := by
  unfold step at h
  dsimp only at h
  split at h
  · rename_i ha
    exact ⟨ha, (Option.some.inj h).symm⟩
  · cases h

theorem step_sync_none (h : s.step sb (.sync none a) = some t) :
    a ∈ s.held ∧ t = { s with
      cache := s.cache.deviceWrite a
      dirty := s.dirty.erase a
      syncs := s.syncs ++ [⟨none, (s.cache.heap a).blockNo, (s.cache.heap a).data⟩] } := by
  unfold step at h
  dsimp only at h
  split at h
  · rename_i ha
    exact ⟨ha, (Option.some.inj h).symm⟩
  · cases h

theorem step_sync_some (h : s.step sb (.sync (some c) a) = some t) :
    a ∈ s.held ∧ c ∈ s.running ∧ ∃ rm header,
      s.cache.header.absorb (s.rm c) (s.cache.heap a).blockNo = .ok (rm, header) ∧
      t = { s with
        cache := { s.cache.setBlock a fun b => { b with pinned := true } with header := header }
        rm := Function.update s.rm c rm
        dirty := s.dirty.erase a
        syncs := s.syncs ++ [⟨some c, (s.cache.heap a).blockNo, (s.cache.heap a).data⟩] } := by
  unfold step at h
  dsimp only at h
  split at h
  · rename_i ha
    split at h
    · rename_i r cache hrun
      cases h
      have hwp : wp (cacheSync (some (s.rm c)) a)
          (fun r cache => ∃ rm header,
            s.cache.header.absorb (s.rm c) (s.cache.heap a).blockNo = .ok (rm, header) ∧
            r = some rm ∧
            cache = { s.cache.setBlock a fun b => { b with pinned := true } with header := header })
          (fun _ => True) s.cache :=
        Bcache.wp_cacheSync_some (fun _ _ => trivial) fun rm header habs =>
          ⟨rm, header, habs, rfl, rfl⟩
      obtain ⟨rm, header, habs, rfl, rfl⟩ := wp_run hwp hrun
      exact ⟨ha.1, ha.2, rm, header, habs, rfl⟩
    · cases h
  · cases h

theorem step_release (hs : s.cache.Wf) (hheld : ∀ a ∈ s.held, ∃ n, s.cache.Held n a)
    (h : s.step sb (.release a) = some t) :
    a ∈ s.held ∧ ∃ n, s.cache.Releases n a t.cache ∧
      t = { s with cache := t.cache, held := s.held.erase a, dirty := s.dirty.erase a } := by
  unfold step at h
  dsimp only at h
  split at h
  · rename_i ha
    obtain ⟨n, hn⟩ := hheld a ha
    split at h
    · rename_i u cache hrun
      cases h
      have hrel := wp_run (Bcache.wp_cacheRelease (E := fun _ => True) hs hn) hrun
      exact ⟨ha, n, hrel, rfl⟩
    · cases h
  · cases h

theorem step_endOp (h : s.step sb (.endOp c) = some t) :
    c ∈ s.running ∧ ∃ doCommit log, s.cache.log.endSection = .ok (doCommit, log) ∧
      t = { s with cache := { s.cache with log := log }, running := s.running.erase c } := by
  unfold step at h
  dsimp only at h
  split at h
  · rename_i hc
    split at h
    · rename_i doCommit log hsec
      exact ⟨hc, doCommit, log, hsec, (Option.some.inj h).symm⟩
    · cases h
  · cases h

/-- The commit section: what `commit` writes is the group of logged blocks. -/
theorem step_commit (hs : Bcache.Committable sb s.cache) (h : s.step sb .commit = some t) :
    s.cache.log.committing = true ∧ s.cache.Commits sb t.cache ∧
    t = { s with
      cache := t.cache
      commits := s.commits ++ [⟨s.cache.trace.length, s.syncs.length, s.cache.group⟩] } := by
  unfold step at h
  dsimp only at h
  split at h
  · rename_i hcom
    split at h
    · rename_i u cache hrun
      cases h
      have hc := wp_run (Bcache.wp_commitSection (E := fun _ => True) hs fun _ _ _ _ => trivial) hrun
      exact ⟨hcom, hc, rfl⟩
    · cases h
  · cases h

/-- What holds between the calls. -/
structure Inv (sb : SuperBlock) (s : OpState) : Prop where
  wf : s.cache.Wf
  head : ∀ a, ¬ s.cache.Live sb.logStart a
  held_iff : ∀ a, a ∈ s.held ↔ ∃ n, s.cache.Held n a
  proper : ∀ n a, s.cache.Held n a → ¬ sb.InLog n ∧ n < 2 ^ 64
  logged_iff : ∀ n, n ∈ s.cache.header.logged ↔ s.cache.Pinned n
  logged_proper : ∀ n ∈ s.cache.header.logged, ¬ sb.InLog n ∧ n < 2 ^ 64
  clean : ∀ n, sb.InLog n → s.cache.Clean n
  dirty : s.dirty ⊆ s.held
  running_lt : ∀ c ∈ s.running, c < s.nextOp
  log : s.toLog.Inv Set.univ

/-! ### The log part -/

/-- A call does to the log what a section of `logSystem` does, or nothing. -/
theorem toLog_step (hs : s.Inv sb) {l : OpCall} (h : s.step sb l = some t)
    (hcommit : l = .commit → Bcache.Committable sb s.cache) :
    t.toLog = s.toLog ∨ ∃ l', logSystem.step s.toLog l' = some t.toLog := by
  cases l with
  | beginOp =>
    obtain ⟨log, hlog, rfl⟩ := step_beginOp h
    have hfresh : s.nextOp ∉ s.running := fun hc => Nat.lt_irrefl _ (hs.running_lt _ hc)
    refine .inr ⟨.beginOp s.nextOp, ?_⟩
    simp [logSystem, LogState.step, toLog, hfresh, hlog]
  | acquire n =>
    obtain ⟨a, ha, ht⟩ := step_acquire hs.wf h
    refine .inl ?_
    rw [ht, toLog, toLog, ha.header, ha.log]
  | modify a d =>
    obtain ⟨-, rfl⟩ := step_modify h
    exact .inl rfl
  | sync ctx a =>
    cases ctx with
    | none =>
      obtain ⟨-, rfl⟩ := step_sync_none h
      exact .inl rfl
    | some c =>
      obtain ⟨-, hc, rm, header, habs, rfl⟩ := step_sync_some h
      refine .inr ⟨.sync c (s.cache.heap a).blockNo, ?_⟩
      simp only [logSystem, LogState.step, toLog, if_pos hc, habs]
      rfl
  | release a =>
    obtain ⟨-, n, hr, ht⟩ := step_release hs.wf (fun a ha => (hs.held_iff a).mp ha) h
    refine .inl ?_
    rw [ht, toLog, toLog, hr.header, hr.log]
  | endOp c =>
    obtain ⟨hc, doCommit, log, hsec, rfl⟩ := step_endOp h
    refine .inr ⟨.endOp c, ?_⟩
    simp only [logSystem, LogState.step, toLog, if_pos hc, hsec]
  | commit =>
    obtain ⟨hcom, hc, ht⟩ := step_commit (hcommit rfl) h
    refine .inr ⟨.commit, ?_⟩
    rw [ht]
    simp only [logSystem, LogState.step, toLog, if_pos hcom, hc.header, hc.log]

/-- Between the calls a commit of blocks that fit in the log area can run. -/
theorem Inv.committable (hs : s.Inv sb) (hlog : 0 < sb.numLogBlocks)
    (hfit : s.cache.header.numBlocks ≤ sb.numLogBlocks - 1) : Bcache.Committable sb s.cache where
  wf := hs.wf
  head := hs.head
  fits := by
    refine ⟨?_, fun n hn => outside_of_not_inLog hlog (hs.logged_proper n hn).1⟩
    have hbudget : s.cache.header.numBlocks + ∑ c ∈ s.running, s.rm c ≤ logMaxSize := hs.log.budget
    rw [LogHeader.length_logged]
    exact le_min hfit (by omega)
  clean n hn := hs.wf.clean_of_pinned ((hs.logged_iff n).mp hn)
  slot i hi := by
    have hin : sb.InLog (sb.logBlock i) := SuperBlock.inLog_logBlock (by omega)
    exact ⟨fun a ha => (hs.proper _ a ha).1 hin, hs.clean _ hin⟩

/-! ### The invariant -/

theorem inv_init (h : (opSystem sb).init s) : s.Inv sb := by
  obtain ⟨hsound, hboot, hrun, hheld, hdirty, -, -⟩ := h
  obtain ⟨cache, hcache, hb⟩ := Bcache.initBcache_spec hsound
  obtain rfl : s.cache = cache := Except.ok.inj (hboot.symm.trans hcache)
  have hlogged : s.cache.header.logged = [] := by simp [LogHeader.logged, hb.header]
  refine ⟨hb.wf, hb.head, fun a => ?_, fun n a ha => absurd ha (hb.held n a), fun n => ?_,
    fun n hn => ?_, fun n _ => hb.clean n, ?_, ?_, ?_⟩
  · simp [hheld, hb.held]
  · simp [hlogged, hb.pinned]
  · rw [hlogged] at hn
    cases hn
  · rw [hdirty]
    exact Finset.empty_subset _
  · rw [hrun]
    exact fun c hc => absurd hc (Finset.notMem_empty c)
  · exact LogState.inv_init ⟨hb.header, hb.log, hrun⟩

theorem inv_acquire (hs : s.Inv sb) (hlog : 0 < sb.numLogBlocks) (hn : ¬ sb.InLog n ∧ n < 2 ^ 64)
    (ha : s.cache.Acquires n a t.cache)
    (ht : t = { s with cache := t.cache, held := insert a s.held }) (htl : t.toLog.Inv Set.univ) :
    t.Inv sb := by
  have hheld : t.held = insert a s.held := by rw [ht]
  have hq := ha.quiet hs.wf
  refine ⟨ha.wf, fun b hb => ?_, fun b => ?_, fun m b hb => ?_, fun m => ?_, ?_,
    fun m hm => ha.clean (hs.clean m hm), ?_, ?_, htl⟩
  · rcases ha.back _ b hb with hb | ⟨heq, -⟩
    · exact hs.head b hb
    · exact hn.1 (heq ▸ SuperBlock.inLog_logStart hlog)
  · rw [hheld, Finset.mem_insert, hs.held_iff]
    constructor
    · rintro (rfl | ⟨m, hb⟩)
      · exact ⟨n, ha.held⟩
      · exact ⟨m, ha.held_iff.mpr (.inl hb)⟩
    · rintro ⟨m, hb⟩
      rcases ha.held_iff.mp hb with hb | ⟨-, rfl⟩
      · exact .inr ⟨m, hb⟩
      · exact .inl rfl
  · rcases ha.held_iff.mp hb with hb | ⟨rfl, -⟩
    · exact hs.proper m b hb
    · exact hn
  · rw [ha.header, ha.pinned_iff]
    exact hs.logged_iff m
  · rw [ha.header]
    exact hs.logged_proper
  · rw [hheld, show t.dirty = s.dirty by rw [ht]]
    exact hs.dirty.trans (Finset.subset_insert _ _)
  · rw [show t.running = s.running by rw [ht], show t.nextOp = s.nextOp by rw [ht]]
    exact hs.running_lt

theorem inv_release (hs : s.Inv sb) (hr : s.cache.Releases n a t.cache)
    (ht : t = { s with cache := t.cache, held := s.held.erase a, dirty := s.dirty.erase a })
    (htl : t.toLog.Inv Set.univ) : t.Inv sb := by
  have hheld : t.held = s.held.erase a := by rw [ht]
  have hn := (hs.proper n a hr.was_held).1
  refine ⟨hr.wf, fun b hb => hs.head b (hr.back _ b hb), fun b => ?_, fun m b hb => ?_, fun m => ?_,
    ?_, fun m hm => ?_, ?_, ?_, htl⟩
  · rw [hheld, Finset.mem_erase, hs.held_iff]
    constructor
    · rintro ⟨hba, m, hb⟩
      exact ⟨m, (hr.held_iff hs.wf).mpr ⟨hb, hba⟩⟩
    · rintro ⟨m, hb⟩
      obtain ⟨hb, hba⟩ := (hr.held_iff hs.wf).mp hb
      exact ⟨hba, m, hb⟩
  · exact hs.proper m b ((hr.held_iff hs.wf).mp hb).1
  · rw [hr.header, hr.pinned_iff]
    exact hs.logged_iff m
  · rw [hr.header]
    exact hs.logged_proper
  · refine hr.clean hs.wf (fun _ => hs.clean m hm) ?_
    rintro rfl
    exact absurd hm hn
  · rw [hheld, show t.dirty = s.dirty.erase a by rw [ht]]
    exact Finset.erase_subset_erase a hs.dirty
  · rw [show t.running = s.running by rw [ht], show t.nextOp = s.nextOp by rw [ht]]
    exact hs.running_lt

theorem inv_modify {d : BlockData} (hs : s.Inv sb) (h : s.step sb (.modify a d) = some t) :
    t.Inv sb := by
  obtain ⟨ha, rfl⟩ := step_modify h
  obtain ⟨n, hn⟩ := (hs.held_iff a).mp ha
  have hlive : ∀ m b, (s.cache.setBlock a fun b => { b with data := d }).Live m b ↔
      s.cache.Live m b := fun m b => Bcache.live_setBlock rfl rfl
  have hheld : ∀ m b, (s.cache.setBlock a fun b => { b with data := d }).Held m b ↔
      s.cache.Held m b := fun m b => Bcache.held_setBlock rfl rfl rfl
  have hpin : ∀ b, ((s.cache.setBlock a fun b => { b with data := d }).heap b).pinned
      = (s.cache.heap b).pinned := by
    intro b
    by_cases hba : b = a
    · rw [hba, Bcache.heap_setBlock_self]
    · rw [Bcache.heap_setBlock_ne hba]
  have hwf : (s.cache.setBlock a fun b => { b with data := d }).Wf :=
    hs.wf.setBlock rfl rfl rfl rfl fun _ => hn.1.2.1
  refine ⟨hwf, fun b hb => hs.head b ((hlive _ b).mp hb), fun b => ?_, fun m b hb => hs.proper m b ((hheld m b).mp hb), fun m => ?_, hs.logged_proper,
    fun m hm b hb hacq hp => ?_, ?_, hs.running_lt, hs.log⟩
  · exact (hs.held_iff b).trans (exists_congr fun m => (hheld m b).symm)
  · refine (hs.logged_iff m).trans (exists_congr fun b => ?_)
    rw [hlive, hpin]
  · have hb' := (hlive m b).mp hb
    have hba : b ≠ a := by
      rintro rfl
      obtain rfl := hb'.number hn.1
      exact (hs.proper m b hn).1 hm
    dsimp only at hacq hp ⊢
    rw [Bcache.heap_setBlock_ne hba] at hacq hp ⊢
    exact hs.clean m hm b hb' hacq hp
  · exact Finset.insert_subset ha hs.dirty

theorem inv_sync_none (hs : s.Inv sb) (h : s.step sb (.sync none a) = some t) : t.Inv sb := by
  obtain ⟨ha, rfl⟩ := step_sync_none h
  obtain ⟨n, hn⟩ := (hs.held_iff a).mp ha
  have hw := hs.wf
  refine ⟨⟨hw.nodup, hw.lt_brk, hw.findBlock, hw.valid, hw.lock, hw.freed⟩, hs.head, hs.held_iff, hs.proper,
    hs.logged_iff, hs.logged_proper, fun m hm b hb hacq hp => ?_,
    (Finset.erase_subset a s.dirty).trans hs.dirty, hs.running_lt, hs.log⟩
  have hne : m ≠ (s.cache.heap a).blockNo := by
    rintro rfl
    refine (hs.proper n a hn).1 ?_
    rwa [← hn.1.2.2]
  show (s.cache.heap b).data = Function.update s.cache.device _ _ m
  rw [Function.update_of_ne hne]
  exact hs.clean m hm b hb hacq hp

theorem inv_sync_some (hs : s.Inv sb) (h : s.step sb (.sync (some c) a) = some t)
    (htl : t.toLog.Inv Set.univ) : t.Inv sb := by
  obtain ⟨ha, hc, rm, header, habs, rfl⟩ := step_sync_some h
  obtain ⟨n, hn⟩ := (hs.held_iff a).mp ha
  set u := s.cache.setBlock a fun b => { b with pinned := true } with hu
  have hlive : ∀ m b, u.Live m b ↔ s.cache.Live m b := fun m b => Bcache.live_setBlock rfl rfl
  have hheld : ∀ m b, u.Held m b ↔ s.cache.Held m b := fun m b => Bcache.held_setBlock rfl rfl rfl
  have hwf : u.Wf := hs.wf.setBlock rfl rfl rfl rfl fun _ => hn.1.2.1
  have hpin : ∀ m, u.Pinned m ↔ s.cache.Pinned m ∨ m = n := by
    intro m
    constructor
    · rintro ⟨b, hb, hp⟩
      have hb' := (hlive m b).mp hb
      by_cases hba : b = a
      · subst hba
        exact .inr (hb'.number hn.1)
      · rw [hu, Bcache.heap_setBlock_ne hba] at hp
        exact .inl ⟨b, hb', hp⟩
    · rintro (⟨b, hb, hp⟩ | rfl)
      · refine ⟨b, (hlive m b).mpr hb, ?_⟩
        by_cases hba : b = a
        · rw [hba, hu, Bcache.heap_setBlock_self]
        · rw [hu, Bcache.heap_setBlock_ne hba]
          exact hp
      · exact ⟨a, (hlive m a).mpr hn.1, by rw [hu, Bcache.heap_setBlock_self]⟩
  have hlogged : ∀ m, m ∈ header.logged ↔ m ∈ s.cache.header.logged ∨ m = n := by
    rw [hn.1.2.2] at habs
    intro m
    rcases LogHeader.absorb_cases habs with ⟨hmem, -, -, hl⟩ | ⟨-, -, -, -, -, hl⟩
    · rw [hl]
      constructor
      · exact .inl
      · rintro (hm | rfl)
        · exact hm
        · exact hmem
    · rw [hl, List.mem_append, List.mem_singleton]
  refine ⟨⟨hwf.nodup, hwf.lt_brk, hwf.findBlock, hwf.valid, hwf.lock, hwf.freed⟩,
    fun b hb => hs.head b ((hlive _ b).mp hb), fun b => ?_,
    fun m b hb => hs.proper m b ((hheld m b).mp hb), fun m => ?_, fun m hm => ?_,
    fun m hm b hb hacq hp => ?_, (Finset.erase_subset a s.dirty).trans hs.dirty, hs.running_lt, htl⟩
  · exact (hs.held_iff b).trans (exists_congr fun m => (hheld m b).symm)
  · rw [hlogged, hs.logged_iff]
    exact (hpin m).symm
  · rcases (hlogged m).mp hm with hm | rfl
    · exact hs.logged_proper m hm
    · exact hs.proper m a hn
  · have hb' : s.cache.Live m b := (hlive m b).mp hb
    have hba : b ≠ a := by
      rintro rfl
      obtain rfl := hb'.number hn.1
      exact (hs.proper m b hn).1 hm
    change (u.heap b).acquired = false at hacq
    change (u.heap b).pinned = false at hp
    show (u.heap b).data = s.cache.device m
    rw [hu, Bcache.heap_setBlock_ne hba] at hacq hp ⊢
    exact hs.clean m hm b hb' hacq hp

theorem inv_commit (hs : s.Inv sb) (hc : Bcache.Committable sb s.cache)
    (h : s.step sb .commit = some t) (htl : t.toLog.Inv Set.univ) : t.Inv sb := by
  obtain ⟨-, ⟨hw, hhdr, hhead, -, -⟩, ht⟩ := step_commit hc h
  have hheld : ∀ m b, t.cache.Held m b ↔ s.cache.Held m b := hw.held_iff
  have hwf := hw.wf
  have hpin : ∀ m, ¬ t.cache.Pinned m := by
    intro m hm
    obtain ⟨hm, hnot⟩ := (hw.pinned_iff m).mp hm
    exact hnot ((hs.logged_iff m).mpr hm)
  have hlogged : t.cache.header.logged = [] := by rw [hhdr, LogHeader.logged_clear]
  refine ⟨⟨hwf.nodup, hwf.lt_brk, hwf.findBlock, hwf.valid, hwf.lock, hwf.freed⟩, hhead, fun b => ?_,
    fun m b hb => hs.proper m b ((hheld m b).mp hb), fun m => ?_, fun m hm => ?_,
    fun m hm => hw.clean m (hs.clean m hm), ?_, ?_, htl⟩
  · rw [show t.held = s.held by rw [ht]]
    exact (hs.held_iff b).trans (exists_congr fun m => (hheld m b).symm)
  · simp [hlogged, hpin m]
  · rw [hlogged] at hm
    cases hm
  · rw [show t.held = s.held by rw [ht], show t.dirty = s.dirty by rw [ht]]
    exact hs.dirty
  · rw [show t.running = s.running by rw [ht], show t.nextOp = s.nextOp by rw [ht]]
    exact hs.running_lt

/-- Every call of a proper client keeps the invariant. -/
theorem inv_step (hlog : 0 < sb.numLogBlocks) {l : OpCall} (hs : s.Inv sb) (hl : Proper sb s l)
    (h : s.step sb l = some t) : t.Inv sb := by
  have hcommit : l = .commit → Bcache.Committable sb s.cache := by
    rintro rfl
    exact hs.committable hlog hl
  have htl : t.toLog.Inv Set.univ := by
    rcases toLog_step hs h hcommit with heq | ⟨l', hl'⟩
    · rw [heq]
      exact hs.log
    · refine LogState.inv_step hs.log ?_ hl'
      cases l' <;> trivial
  cases l with
  | beginOp =>
    obtain ⟨log, hlog, rfl⟩ := step_beginOp h
    have hw := hs.wf
    refine ⟨⟨hw.nodup, hw.lt_brk, hw.findBlock, hw.valid, hw.lock, hw.freed⟩, hs.head, hs.held_iff, hs.proper,
      hs.logged_iff, hs.logged_proper, hs.clean, hs.dirty, fun c hc => ?_, htl⟩
    rcases Finset.mem_insert.mp hc with rfl | hc
    · exact Nat.lt_succ_self _
    · exact Nat.lt_succ_of_lt (hs.running_lt c hc)
  | acquire n =>
    obtain ⟨a, ha, ht⟩ := step_acquire hs.wf h
    exact inv_acquire hs hlog hl ha ht htl
  | modify a d => exact inv_modify hs h
  | sync ctx a =>
    cases ctx with
    | none => exact inv_sync_none hs h
    | some c => exact inv_sync_some hs h htl
  | release a =>
    obtain ⟨-, n, hr, ht⟩ := step_release hs.wf (fun a ha => (hs.held_iff a).mp ha) h
    exact inv_release hs hr ht htl
  | endOp c =>
    obtain ⟨-, doCommit, log, -, rfl⟩ := step_endOp h
    have hw := hs.wf
    exact ⟨⟨hw.nodup, hw.lt_brk, hw.findBlock, hw.valid, hw.lock, hw.freed⟩, hs.head, hs.held_iff, hs.proper,
      hs.logged_iff, hs.logged_proper, hs.clean, hs.dirty,
      fun d hd => hs.running_lt d (Finset.mem_of_mem_erase hd), htl⟩
  | commit => exact inv_commit hs (hcommit rfl) h htl

theorem inv_of_reachable (hlog : 0 < sb.numLogBlocks) (h : (opSystem sb).Reachable (Proper sb) s) :
    s.Inv sb :=
  h.induction (fun _ => inv_init) fun _ _ _ => inv_step hlog

/-! ### The history -/

/-- The history of `t` continues that of `s`. -/
structure Extends (s t : OpState) : Prop where
  disk : t.disk = s.disk
  trace : s.cache.trace <+: t.cache.trace
  syncs : s.syncs <+: t.syncs
  commits : s.commits <+: t.commits

theorem Extends.refl (s : OpState) : s.Extends s :=
  ⟨rfl, List.prefix_rfl, List.prefix_rfl, List.prefix_rfl⟩

theorem Extends.trans {u : OpState} (h : s.Extends t) (h' : t.Extends u) : s.Extends u :=
  ⟨h'.disk.trans h.disk, h.trace.trans h'.trace, h.syncs.trans h'.syncs,
    h.commits.trans h'.commits⟩

theorem extends_step (hlog : 0 < sb.numLogBlocks) {l : OpCall} (hs : s.Inv sb) (hl : Proper sb s l)
    (h : s.step sb l = some t) : s.Extends t := by
  cases l with
  | beginOp =>
    obtain ⟨log, -, rfl⟩ := step_beginOp h
    exact ⟨rfl, List.prefix_rfl, List.prefix_rfl, List.prefix_rfl⟩
  | acquire n =>
    obtain ⟨a, ha, ht⟩ := step_acquire hs.wf h
    refine ⟨by rw [ht], by rw [ha.trace], by rw [ht], by rw [ht]⟩
  | modify a d =>
    obtain ⟨-, rfl⟩ := step_modify h
    exact ⟨rfl, List.prefix_rfl, List.prefix_rfl, List.prefix_rfl⟩
  | sync ctx a =>
    cases ctx with
    | none =>
      obtain ⟨-, rfl⟩ := step_sync_none h
      exact ⟨rfl, List.prefix_append _ _, List.prefix_append _ _, List.prefix_rfl⟩
    | some c =>
      obtain ⟨-, -, rm, header, -, rfl⟩ := step_sync_some h
      exact ⟨rfl, List.prefix_rfl, List.prefix_append _ _, List.prefix_rfl⟩
  | release a =>
    obtain ⟨-, n, hr, ht⟩ := step_release hs.wf (fun a ha => (hs.held_iff a).mp ha) h
    exact ⟨by rw [ht], by rw [hr.trace], by rw [ht], by rw [ht]⟩
  | endOp c =>
    obtain ⟨-, doCommit, log, -, rfl⟩ := step_endOp h
    exact ⟨rfl, List.prefix_rfl, List.prefix_rfl, List.prefix_rfl⟩
  | commit =>
    obtain ⟨-, hc, ht⟩ := step_commit (hs.committable hlog hl) h
    have htrace : t.cache.trace = _ := hc.wrote.trace
    refine ⟨by rw [ht], ?_, by rw [ht], ?_⟩
    · rw [htrace]
      exact List.prefix_append _ _
    · rw [show t.commits = s.commits ++ [_] by rw [ht]]
      exact List.prefix_append _ _

/-- Along a run the history only grows. -/
theorem extends_of_leads (hlog : 0 < sb.numLogBlocks) (hs : (opSystem sb).Reachable (Proper sb) s)
    (h : (opSystem sb).Leads (Proper sb) s t) : s.Extends t := by
  have hboth := h.induction (I := fun u => (opSystem sb).Reachable (Proper sb) u ∧ s.Extends u)
    (fun u l u' hu hl hstep => ⟨hu.1.step hl hstep,
      hu.2.trans (extends_step hlog (inv_of_reachable hlog hu.1) hl hstep)⟩) ⟨hs, .refl s⟩
  exact hboth.2

/-! ### Concrete runs -/

theorem step_disk {l : OpCall} (h : s.step sb l = some t) : t.disk = s.disk := by
  unfold step at h
  split at h <;> (repeat' split at h) <;> cases h <;> rfl

theorem disk_of_leads {ok : OpState → OpCall → Prop} (h : (opSystem sb).Leads ok s t) :
    t.disk = s.disk :=
  h.induction (I := fun u => u.disk = s.disk) (fun _ _ _ hu _ hstep => (step_disk hstep).trans hu)
    rfl

/-- A run executed from a boot reaches a state of the system. -/
theorem exists_reachable_of_exec {α : Type} {ok : OpState → OpCall → Prop}
    [∀ s l, Decidable (ok s l)] {disk : ℕ → BlockData} (hD : (logFormat sb).Sound disk)
    {calls : List OpCall} {f : OpState → α} {v : α}
    (h : ((boot sb disk).bind fun s => (opSystem sb).exec ok s calls).map f = some v) :
    ∃ s, (opSystem sb).Reachable ok s ∧ s.disk = disk ∧ f s = v := by
  obtain ⟨s, hexec, hv⟩ := Option.map_eq_some_iff.mp h
  obtain ⟨s₀, hboot, hrun⟩ := Option.bind_eq_some_iff.mp hexec
  obtain ⟨hinit, hdisk⟩ := init_of_boot hD hboot
  have hleads := System.leads_of_exec hrun
  exact ⟨s, (System.Reachable.of_init hinit).leads hleads, (disk_of_leads hleads).trans hdisk, hv⟩

/-- A disk of zeros: its log is empty. -/
def blankDisk : ℕ → BlockData := fun _ => .fill 0

theorem numBlocks_blank : (LogHeader.ofBlock (.fill 0)).numBlocks = 0 := by decide

theorem sound_blankDisk (sb : SuperBlock) : (logFormat sb).Sound blankDisk := by
  have htargets : (logFormat sb).targets (.fill 0) = [] :=
    List.eq_nil_of_length_eq_zero ((LogHeader.length_logged _).trans numBlocks_blank)
  simp [RedoLog.Sound, RedoLog.Fits, blankDisk, htargets]

end OpState
end OsLab
