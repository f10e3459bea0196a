/-
Crashes (`commit`, `recover_from_log`, `init_bcache`).

The disk after a crash is the initial disk with a prefix of the device writes,
since a block is written atomically.  `Durable` says of every such disk that
the log on it can be replayed, and that its logical content is the one after
some prefix of the committed groups.

* `durable_of_reachable` — it holds in every run in which blocks are synced to
  the log only;
* `crash_recovers` — so the file system outside the log is, after a crash and
  any number of interrupted restarts, what a whole prefix of the groups made it.
-/
import OsLab.Fs.Operations

namespace OsLab

/-- The device write that is the first `write_header()` of a commit. -/
def CommitEvent.headerWrite (e : CommitEvent) : ℕ := e.start + e.group.length

/-- No block is synced with the null context. -/
def LoggedOnly (sb : SuperBlock) (s : OpState) : OpCall → Prop
  | .sync none _ => False
  | l => Proper sb s l

instance (sb : SuperBlock) (s : OpState) (l : OpCall) : Decidable (LoggedOnly sb s l) :=
  match l with
  | .sync none _ => inferInstanceAs (Decidable False)
  | .acquire n => inferInstanceAs (Decidable (Proper sb s (.acquire n)))
  | .commit => inferInstanceAs (Decidable (Proper sb s .commit))
  | .sync (some _) _ | .beginOp | .modify _ _ | .release _ | .endOp _ =>
    inferInstanceAs (Decidable True)

theorem LoggedOnly.proper {sb : SuperBlock} {s : OpState} {l : OpCall} (h : LoggedOnly sb s l) :
    Proper sb s l := by
  cases l with
  | sync ctx a =>
    cases ctx with
    | none => exact h.elim
    | some c => exact h
  | _ => exact h

/-- `D'` is what is on the disk after a crash left `D`, and any number of
restarts stopped after some of the writes of `init_bcache`. -/
inductive Restarts (sb : SuperBlock) : (ℕ → BlockData) → (ℕ → BlockData) → Prop
  | crash (D) : Restarts sb D D
  | again {D D' : ℕ → BlockData} {s : Bcache} (k : ℕ) : initBcache sb D = .ok s →
      Restarts sb (writeAll D (s.trace.take k)) D' → Restarts sb D D'

/-- After the restarts `init_bcache` still returns, and the device is what a
complete replay would have left on the crashed disk. -/
theorem Restarts.recovers {sb : SuperBlock} {D D' : ℕ → BlockData} (h : Restarts sb D D')
    (hD : (logFormat sb).Sound D) :
    ∃ s, initBcache sb D' = .ok s ∧ (logFormat sb).Recovers D s.device := by
  induction h with
  | crash D =>
    obtain ⟨s, hrun, hboot⟩ := Bcache.initBcache_spec hD
    exact ⟨s, hrun, hboot.device ▸ .done D⟩
  | again k hrun _ ih =>
    obtain ⟨s, hrun', hboot⟩ := Bcache.initBcache_spec hD
    obtain rfl := Except.ok.inj (hrun.symm.trans hrun')
    rw [hboot.trace] at ih
    obtain ⟨t, ht, hrec⟩ := ih ((RedoLog.logical_replay_take hD k).1)
    exact ⟨t, ht, .again k hrec⟩

namespace OpState

variable {sb : SuperBlock} {s t : OpState}

/-- The content after the first `j` committed groups. -/
def contentAfter (sb : SuperBlock) (s : OpState) (j : ℕ) : ℕ → BlockData :=
  writeAll ((logFormat sb).logical s.disk) ((s.commits.take j).flatMap CommitEvent.group)

/-- The disk after a crash between the device writes `k` and `k + 1`. -/
def crashDisk (s : OpState) (k : ℕ) : ℕ → BlockData := writeAll s.disk (s.cache.trace.take k)

/-- What a crash after `k` device writes leaves: the groups whose header write
was made survive, and perhaps later ones. -/
structure Survives (sb : SuperBlock) (s : OpState) (k j : ℕ) : Prop where
  le : j ≤ s.commits.length
  content : ∀ n, (logFormat sb).Outside n →
    (logFormat sb).logical (s.crashDisk k) n = s.contentAfter sb j n
  committed : ∀ i (hi : i < s.commits.length), s.commits[i].headerWrite < k → i < j

/-- Every crash leaves a prefix of the groups. -/
structure Durable (sb : SuperBlock) (s : OpState) : Prop where
  device : s.cache.device = writeAll s.disk s.cache.trace
  empty : (logFormat sb).targets (s.cache.device sb.logStart) = []
  content : ∀ n, (logFormat sb).Outside n →
    s.cache.device n = s.contentAfter sb s.commits.length n
  header : ∀ e ∈ s.commits, ∃ hb, s.cache.trace[e.headerWrite]? = some (sb.logStart, hb) ∧
    (logFormat sb).targets hb = e.group.map Prod.fst
  crash : ∀ k, (logFormat sb).Sound (s.crashDisk k) ∧ ∃ j, s.Survives sb k j

theorem durable_init (h : (opSystem sb).init s) : s.Durable sb := by
  obtain ⟨hsound, hboot, -, -, -, -, hcommits⟩ := h
  obtain ⟨cache, hcache, hb⟩ := Bcache.initBcache_spec hsound
  obtain rfl : s.cache = cache := Except.ok.inj (hboot.symm.trans hcache)
  have hrec := (RedoLog.Recovers.done s.disk).spec hsound
  have hcontent : ∀ j, s.contentAfter sb j = (logFormat sb).logical s.disk := by
    intro j
    simp [contentAfter, hcommits]
  refine ⟨by rw [hb.device, hb.trace], by rw [hb.device]; exact hrec.1, fun n hn => ?_,
    fun e he => ?_, fun k => ?_⟩
  · rw [hb.device, hcontent]
    exact hrec.2 n hn
  · rw [hcommits] at he
    cases he
  · have htake := RedoLog.logical_replay_take hsound k
    have hdisk : s.crashDisk k = writeAll s.disk (((logFormat sb).replay s.disk).take k) := by
      rw [crashDisk, hb.trace]
    rw [hdisk]
    refine ⟨htake.1, 0, Nat.zero_le _, fun n hn => ?_, fun i hi => ?_⟩
    · rw [hdisk, htake.2 n hn, hcontent]
    · simp [hcommits] at hi

/-- A call that writes nothing keeps it. -/
theorem Durable.of_eq (hs : s.Durable sb) (hdev : t.cache.device = s.cache.device)
    (htrace : t.cache.trace = s.cache.trace) (hdisk : t.disk = s.disk)
    (hcommits : t.commits = s.commits) : t.Durable sb := by
  have hcrash : ∀ k, t.crashDisk k = s.crashDisk k := fun k => by
    rw [crashDisk, crashDisk, hdisk, htrace]
  have hcontent : ∀ j, t.contentAfter sb j = s.contentAfter sb j := fun j => by
    rw [contentAfter, contentAfter, hdisk, hcommits]
  refine ⟨?_, ?_, fun n hn => ?_, fun e he => ?_, fun k => ?_⟩
  · rw [hdev, htrace, hdisk]
    exact hs.device
  · rw [hdev]
    exact hs.empty
  · rw [hdev, hcontent, hcommits]
    exact hs.content n hn
  · rw [hcommits] at he
    rw [htrace]
    exact hs.header e he
  · obtain ⟨hsound, j, hj⟩ := hs.crash k
    rw [hcrash]
    refine ⟨hsound, j, ?_, fun n hn => ?_, ?_⟩
    · rw [hcommits]
      exact hj.le
    · rw [hcrash, hcontent]
      exact hj.content n hn
    · rw [hcommits]
      exact hj.committed

/-- A committed group is one more group, from its header write on. -/
theorem durable_commit (hs : s.Durable sb) (hi : s.Inv sb) (hc : Bcache.Committable sb s.cache)
    (h : s.step sb .commit = some t) : t.Durable sb := by
  obtain ⟨-, ⟨hw, hhdr, -, -, -⟩, ht⟩ := step_commit hc h
  set F := logFormat sb with hF
  set g := s.cache.group with hg
  set hb := s.cache.header.toBlock with hhb
  set he := ({ s.cache.header with numBlocks := 0 } : LogHeader).toBlock with hhe
  have hround := LogHeader.logged_ofBlock_toBlock (h := s.cache.header)
    (by
      have hbudget : s.cache.header.numBlocks + ∑ c ∈ s.running, s.rm c ≤ logMaxSize :=
        hi.log.budget
      omega)
    fun n hn => (hi.logged_proper n hn).2
  have htargets : F.targets hb = g.map Prod.fst := by
    rw [hg, Bcache.map_fst_group]
    exact hround.2
  have hempty : F.targets he = [] := LogHeader.logged_ofBlock_clear _
  have hfits : F.Fits (g.map Prod.fst) := by
    rw [hg, Bcache.map_fst_group]
    exact hc.fits
  have hcommits : t.commits = s.commits ++ [⟨s.cache.trace.length, s.syncs.length, g⟩] := by rw [ht]
  have hdisk : t.disk = s.disk := by rw [ht]
  have hdev : t.cache.device = writeAll s.cache.device (F.commit g hb he) := hw.device
  have htrace : t.cache.trace = s.cache.trace ++ F.commit g hb he := hw.trace
  have hlen : (F.commit g hb he).length = 2 * g.length + 2 := by
    simp only [RedoLog.commit, List.length_append, List.length_cons, RedoLog.length_fills,
      List.length_nil]
    omega
  have hold : ∀ j ≤ s.commits.length, t.contentAfter sb j = s.contentAfter sb j := by
    intro j hj
    rw [contentAfter, contentAfter, hdisk, hcommits, List.take_append_of_le_length hj]
  have hnew : ∀ n, t.contentAfter sb t.commits.length n
      = writeAll (s.contentAfter sb s.commits.length) g n := by
    intro n
    rw [contentAfter, contentAfter, hdisk, List.take_length, List.take_length, hcommits,
      List.flatMap_append, writeAll_append]
    simp
  have hnew' : ∀ n, F.Outside n →
      writeAll s.cache.device g n = t.contentAfter sb t.commits.length n := by
    intro n hn
    rw [hnew]
    exact writeAll_congr (.inr (hs.content n hn))
  have hfull : F.targets (writeAll s.cache.device (F.commit g hb he) F.head) = [] ∧
      ∀ n, F.Outside n → writeAll s.cache.device (F.commit g hb he) n
        = writeAll s.cache.device g n := RedoLog.writeAll_commit hempty hfits
  -- a header write before `k` belongs to an older group, or to this one
  have hheader : ∀ i (hi : i < t.commits.length) k, t.commits[i].headerWrite < k →
      (∃ hi' : i < s.commits.length, s.commits[i].headerWrite < k) ∨
      s.cache.trace.length + g.length < k := by
    intro i hi k hik
    simp only [hcommits] at hik
    by_cases hold : i < s.commits.length
    · rw [List.getElem_append_left hold] at hik
      exact .inl ⟨hold, hik⟩
    · rw [List.getElem_append_right (Nat.not_lt.mp hold), List.getElem_singleton] at hik
      exact .inr hik
  refine ⟨?_, ?_, fun n hn => ?_, fun e he' => ?_, fun k => ?_⟩
  · rw [hdev, htrace, hdisk, writeAll_append, ← hs.device]
  · rw [hdev]
    exact hfull.1
  · rw [hdev, hfull.2 n hn, hnew' n hn]
  · rw [hcommits, List.mem_append, List.mem_singleton] at he'
    rcases he' with he' | rfl
    · obtain ⟨hb', hget, htg⟩ := hs.header e he'
      refine ⟨hb', ?_, htg⟩
      rw [htrace, List.getElem?_append_left (List.getElem?_eq_some_iff.mp hget).1, hget]
    · refine ⟨hb, ?_, htargets⟩
      rw [htrace, CommitEvent.headerWrite, List.getElem?_append_right (Nat.le_add_right _ _),
        Nat.add_sub_cancel_left, RedoLog.commit,
        List.getElem?_append_right (Nat.le_of_eq RedoLog.length_fills), RedoLog.length_fills,
        Nat.sub_self]
      rfl
  · by_cases hk : k ≤ s.cache.trace.length
    · -- a crash before this commit
      have hcrash : t.crashDisk k = s.crashDisk k := by
        rw [crashDisk, crashDisk, hdisk, htrace, List.take_append_of_le_length hk]
      obtain ⟨hsound, j, hj⟩ := hs.crash k
      rw [hcrash]
      refine ⟨hsound, j, ?_, fun n hn => ?_, fun i hi' hik => ?_⟩
      · rw [hcommits, List.length_append]
        exact hj.le.trans (Nat.le_add_right _ _)
      · rw [hcrash, hold j hj.le]
        exact hj.content n hn
      · rcases hheader i hi' k hik with ⟨hlast, hik⟩ | hlt
        · exact hj.committed i hlast hik
        · omega
    · -- a crash in it or after it
      obtain ⟨d, rfl⟩ : ∃ d, k = s.cache.trace.length + d := ⟨k - s.cache.trace.length, by omega⟩
      have hcrash : t.crashDisk (s.cache.trace.length + d)
          = writeAll s.cache.device ((F.commit g hb he).take d) := by
        rw [crashDisk, hdisk, htrace, List.take_length_add_append, writeAll_append, hs.device]
      have hcommit := RedoLog.logical_commit_take (D := s.cache.device) hs.empty htargets hempty
        hfits d
      rw [hcrash]
      refine ⟨hcommit.1, ?_⟩
      by_cases hd : d ≤ g.length
      · refine ⟨s.commits.length, ?_, fun n hn => ?_, fun i hi' hik => ?_⟩
        · rw [hcommits, List.length_append]
          exact Nat.le_add_right _ _
        · rw [hcrash, hcommit.2 n hn, if_pos hd, hold _ (Nat.le_refl _)]
          exact hs.content n hn
        · rcases hheader i hi' _ hik with ⟨hlast, -⟩ | hlt
          · exact hlast
          · omega
      · refine ⟨t.commits.length, Nat.le_refl _, fun n hn => ?_, fun i hi' _ => hi'⟩
        rw [hcrash, hcommit.2 n hn, if_neg hd, hnew' n hn]

/-- Every call keeps it. -/
theorem durable_step (hlog : 0 < sb.numLogBlocks) {l : OpCall} (hs : s.Durable sb) (hi : s.Inv sb)
    (hl : LoggedOnly sb s l) (h : s.step sb l = some t) : t.Durable sb := by
  cases l with
  | beginOp =>
    obtain ⟨log, -, rfl⟩ := step_beginOp h
    exact hs.of_eq rfl rfl rfl rfl
  | acquire n =>
    obtain ⟨a, ha, ht⟩ := step_acquire hi.wf h
    exact hs.of_eq ha.device ha.trace (by rw [ht]) (by rw [ht])
  | modify a d =>
    obtain ⟨-, rfl⟩ := step_modify h
    exact hs.of_eq rfl rfl rfl rfl
  | sync ctx a =>
    cases ctx with
    | none => exact hl.elim
    | some c =>
      obtain ⟨-, -, rm, header, -, rfl⟩ := step_sync_some h
      exact hs.of_eq rfl rfl rfl rfl
  | release a =>
    obtain ⟨-, n, hr, ht⟩ := step_release hi.wf (fun a ha => (hi.held_iff a).mp ha) h
    exact hs.of_eq hr.device hr.trace (by rw [ht]) (by rw [ht])
  | endOp c =>
    obtain ⟨-, doCommit, log, -, rfl⟩ := step_endOp h
    exact hs.of_eq rfl rfl rfl rfl
  | commit => exact durable_commit hs hi (hi.committable hlog hl) h

theorem inv_of_loggedOnly (hlog : 0 < sb.numLogBlocks)
    (h : (opSystem sb).Reachable (LoggedOnly sb) s) : s.Inv sb :=
  inv_of_reachable hlog (h.mono fun _ _ => LoggedOnly.proper)

/-- **Durability.**  It holds in every run in which blocks are synced to the log
only. -/
theorem durable_of_reachable (hlog : 0 < sb.numLogBlocks)
    (h : (opSystem sb).Reachable (LoggedOnly sb) s) : s.Durable sb :=
  h.strong_induction (fun _ => durable_init) fun _ _ _ hr hs hl hstep =>
    durable_step hlog hs (inv_of_loggedOnly hlog hr) hl hstep

/-- After a crash and the restarts `init_bcache` returns, with an empty log and
the content that survived the crash. -/
theorem Durable.recover (hs : s.Durable sb) (hlog : 0 < sb.numLogBlocks) {k : ℕ}
    {D : ℕ → BlockData} (hD : Restarts sb (s.crashDisk k) D) :
    ∃ c, initBcache sb D = .ok c ∧ (LogHeader.ofBlock (c.device sb.logStart)).numBlocks = 0 ∧
      ∃ j, s.Survives sb k j ∧
        ∀ n, ¬ sb.InLog n → c.device n = s.contentAfter sb j n := by
  obtain ⟨hsound, j, hj⟩ := hs.crash k
  obtain ⟨c, hrun, hrec⟩ := hD.recovers hsound
  obtain ⟨hempty, hcontent⟩ := hrec.spec hsound
  refine ⟨c, hrun, ?_, j, hj, fun n hn => ?_⟩
  · have hlen := congrArg List.length hempty
    rwa [show (logFormat sb).targets (c.device (logFormat sb).head)
      = (LogHeader.ofBlock (c.device sb.logStart)).logged from rfl, LogHeader.length_logged] at hlen
  · have hout := outside_of_not_inLog hlog hn
    rw [hcontent n hout, hj.content n hout]

end OpState

/-- **Crash safety.**  On a disk whose log is empty, at any point of any run in
which blocks are synced to the log only and every group fits in the log area: a
crash after `k` device writes, and any number of interrupted restarts, leave a
disk on which `init_bcache` returns, empties the log, and makes the blocks
outside the log area what the first `j` groups made them, where every group
whose header write is among the `k` writes is one of them. -/
theorem crash_recovers (sb : SuperBlock) (hlog : 0 < sb.numLogBlocks) (s : OpState)
    (h : (opSystem sb).Reachable (LoggedOnly sb) s)
    (hempty : (LogHeader.ofBlock (s.disk sb.logStart)).numBlocks = 0)
    (k : ℕ) (D : ℕ → BlockData) (hD : Restarts sb (writeAll s.disk (s.cache.trace.take k)) D) :
    ∃ c, initBcache sb D = .ok c ∧ (LogHeader.ofBlock (c.device sb.logStart)).numBlocks = 0 ∧
      ∃ j ≤ s.commits.length,
        (∀ n, ¬ sb.InLog n →
          c.device n = writeAll s.disk ((s.commits.take j).flatMap CommitEvent.group) n) ∧
        ∀ i (hi : i < s.commits.length),
          (∃ hb, s.cache.trace[s.commits[i].headerWrite]? = some (sb.logStart, hb)) ∧
          (s.commits[i].headerWrite < k → i < j) := by
  have hs := OpState.durable_of_reachable hlog h
  obtain ⟨c, hrun, hnum, j, hj, hcontent⟩ := hs.recover hlog hD
  have htargets : (logFormat sb).targets (s.disk (logFormat sb).head) = [] := by
    refine List.eq_nil_of_length_eq_zero ?_
    rwa [show (logFormat sb).targets (s.disk (logFormat sb).head)
      = (LogHeader.ofBlock (s.disk sb.logStart)).logged from rfl, LogHeader.length_logged]
  refine ⟨c, hrun, hnum, j, hj.le, fun n hn => ?_, fun i hi => ⟨?_, hj.committed i hi⟩⟩
  · rw [hcontent n hn, OpState.contentAfter, RedoLog.logical_of_empty htargets]
  · obtain ⟨hb, hget, -⟩ := hs.header s.commits[i] (List.getElem_mem hi)
    exact ⟨hb, hget⟩

/-- A blank disk, and an operation that logs block 500: a crash right after the
header write of its commit. -/
theorem crash_recovers_mkfs : ∃ s : OpState, s.commits.length = 1 ∧
    ∃ c, initBcache .mkfs (writeAll s.disk (s.cache.trace.take 3)) = .ok c ∧
      (LogHeader.ofBlock (c.device SuperBlock.mkfs.logStart)).numBlocks = 0 ∧
      ∃ j ≤ s.commits.length,
        (∀ n, ¬ SuperBlock.mkfs.InLog n →
          c.device n = writeAll s.disk ((s.commits.take j).flatMap CommitEvent.group) n) ∧
        ∀ i (hi : i < s.commits.length),
          (∃ hb, s.cache.trace[s.commits[i].headerWrite]? = some (SuperBlock.mkfs.logStart, hb)) ∧
          (s.commits[i].headerWrite < 3 → i < j) := by
  have hrun : ((OpState.boot .mkfs OpState.blankDisk).bind fun s =>
      (opSystem .mkfs).exec (LoggedOnly .mkfs) s
        [.beginOp, .acquire 500, .modify 0 (.fill 7), .sync (some 0) 0, .release 0, .endOp 0,
          .commit]).map (fun s => s.commits.length) = some 1 := by
    decide +kernel
  obtain ⟨s, hreach, hdisk, hlen⟩ :=
    OpState.exists_reachable_of_exec (OpState.sound_blankDisk .mkfs) hrun
  exact ⟨s, hlen, crash_recovers .mkfs (by decide) s hreach
    (by rw [hdisk]; exact OpState.numBlocks_blank) 3 _ (.crash _)⟩

end OsLab
