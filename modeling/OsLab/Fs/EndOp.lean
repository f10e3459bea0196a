/-
When `cache_end_op` may promise that blocks are persisted.

Operations are committed in groups: the last one to end runs `commit`, the
others return at once.  `Persists` says which syncs the committed groups hold,
and with it:

* `endOp_persists` — on return from `cache_end_op` of the last running
  operation, or of one that synced nothing, every block it synced survives any
  later crash;
* `endOp_not_persisted` — an operation that ends while another is running can
  lose its blocks.
-/
import OsLab.Fs.CrashSafety
import OsLab.Fs.CacheRefinement

namespace OsLab

/-- Blocks are synced to the log only, and nobody releases a block with changes
that are not synced. -/
def Disciplined (sb : SuperBlock) (s : OpState) : OpCall → Prop
  | .release a => a ∉ s.dirty
  | l => LoggedOnly sb s l

instance (sb : SuperBlock) (s : OpState) (l : OpCall) : Decidable (Disciplined sb s l) :=
  match l with
  | .release a => inferInstanceAs (Decidable (a ∉ s.dirty))
  | .beginOp => inferInstanceAs (Decidable (LoggedOnly sb s .beginOp))
  | .acquire n => inferInstanceAs (Decidable (LoggedOnly sb s (.acquire n)))
  | .modify a d => inferInstanceAs (Decidable (LoggedOnly sb s (.modify a d)))
  | .sync ctx a => inferInstanceAs (Decidable (LoggedOnly sb s (.sync ctx a)))
  | .endOp c => inferInstanceAs (Decidable (LoggedOnly sb s (.endOp c)))
  | .commit => inferInstanceAs (Decidable (LoggedOnly sb s .commit))

theorem Disciplined.loggedOnly {sb : SuperBlock} {s : OpState} {l : OpCall}
    (h : Disciplined sb s l) : LoggedOnly sb s l := by
  cases l with
  | release a => trivial
  | _ => exact h

theorem Disciplined.release {sb : SuperBlock} {s : OpState} {l : OpCall} (h : Disciplined sb s l)
    {a : ℕ} (hl : l = .release a) : a ∉ s.dirty := by
  subst hl
  exact h

namespace OpState

variable {sb : SuperBlock} {s t r : OpState} {c : ℕ}

/-- The map after the first `m` syncs. -/
def storeAfter (sb : SuperBlock) (s : OpState) (m : ℕ) : ℕ → BlockData :=
  writeAll ((logFormat sb).logical s.disk) ((s.syncs.take m).map fun e => (e.blockNo, e.data))

/-- The content after some groups is the map after the syncs before the last of
them. -/
structure Persists (sb : SuperBlock) (s : OpState) : Prop where
  outside : ∀ e ∈ s.syncs, ¬ sb.InLog e.blockNo
  le : ∀ e ∈ s.commits, e.synced ≤ s.syncs.length
  content : ∀ j ≤ s.commits.length, ∃ m ≤ s.syncs.length,
    (∀ i (hi : i < s.commits.length), i < j → s.commits[i].synced ≤ m) ∧
    ∀ n, ¬ sb.InLog n → s.contentAfter sb j n = s.storeAfter sb m n

theorem persists_init (h : (opSystem sb).init s) : s.Persists sb := by
  obtain ⟨-, -, -, -, -, hsyncs, hcommits⟩ := h
  refine ⟨by simp [hsyncs], by simp [hcommits], fun j hj => ⟨0, Nat.zero_le _, ?_, fun n _ => ?_⟩⟩
  · simp [hcommits]
  · simp [contentAfter, storeAfter, hcommits]

/-- A call that commits nothing keeps it. -/
theorem Persists.of_prefix (h : s.Persists sb) (hdisk : t.disk = s.disk)
    (hcommits : t.commits = s.commits) (hsyncs : s.syncs <+: t.syncs)
    (hout : ∀ e ∈ t.syncs, ¬ sb.InLog e.blockNo) : t.Persists sb := by
  have hlen := hsyncs.length_le
  refine ⟨hout, fun e he => (h.le e (hcommits ▸ he)).trans hlen, fun j hj => ?_⟩
  obtain ⟨m, hm, hsynced, hcontent⟩ := h.content j (hcommits ▸ hj)
  refine ⟨m, hm.trans hlen, ?_, fun n hn => ?_⟩
  · rw [hcommits]
    exact hsynced
  · obtain ⟨rest, hrest⟩ := hsyncs
    rw [storeAfter, ← hrest, List.take_append_of_le_length hm, hdisk, contentAfter, hcommits, hdisk]
    exact hcontent n hn

/-- After a commit all syncs so far are in the groups. -/
theorem persists_commit (h : s.Persists sb) (ht : t.Durable sb) (htr : t.Tracks sb)
    (hempty : t.cache.header.logged = []) (hdisk : t.disk = s.disk) (hsyncs : t.syncs = s.syncs)
    {e : CommitEvent} (he : e.synced = s.syncs.length) (hlog : 0 < sb.numLogBlocks)
    (hcommits : t.commits = s.commits ++ [e]) : t.Persists sb := by
  have hle : ∀ e' ∈ t.commits, e'.synced ≤ t.syncs.length := by
    intro e' he'
    rw [hsyncs]
    rw [hcommits, List.mem_append, List.mem_singleton] at he'
    rcases he' with he' | rfl
    · exact h.le e' he'
    · exact Nat.le_of_eq he
  refine ⟨hsyncs ▸ h.outside, hle, fun j hj => ?_⟩
  have hlen : t.commits.length = s.commits.length + 1 := by simp [hcommits]
  by_cases hold : j ≤ s.commits.length
  · obtain ⟨m, hm, hsynced, hcontent⟩ := h.content j hold
    refine ⟨m, hsyncs ▸ hm, fun i hi hij => ?_, fun n hn => ?_⟩
    · have hi' : i < s.commits.length := by omega
      have hget : t.commits[i] = s.commits[i] := by
        simp only [hcommits]
        exact List.getElem_append_left hi'
      rw [hget]
      exact hsynced i hi' hij
    · rw [storeAfter, hsyncs, contentAfter, hcommits, List.take_append_of_le_length hold, hdisk]
      exact hcontent n hn
  · obtain rfl : j = t.commits.length := by omega
    refine ⟨t.syncs.length, Nat.le_refl _, fun i hi _ => hle _ (List.getElem_mem hi),
      fun n hn => ?_⟩
    rw [← ht.content n (outside_of_not_inLog hlog hn), htr.device n hn (by simp [hempty]),
      storeAfter, List.take_length]
    rfl

/-- The invariants of a disciplined run together. -/
structure Sound (sb : SuperBlock) (s : OpState) : Prop where
  inv : s.Inv sb
  tracks : s.Tracks sb
  durable : s.Durable sb
  persists : s.Persists sb

theorem sound_step (hlog : 0 < sb.numLogBlocks) {l : OpCall} (h : s.Sound sb)
    (hl : Disciplined sb s l) (hs : s.step sb l = some t) : t.Sound sb := by
  obtain ⟨hi, htr, hd, hp⟩ := h
  have hproper := hl.loggedOnly.proper
  have hi' := inv_step hlog hi hproper hs
  have htr' := tracks_step hlog htr hi hproper (fun _ => hl.release) hs
  have hd' := durable_step hlog hd hi hl.loggedOnly hs
  have hext := extends_step hlog hi hproper hs
  refine ⟨hi', htr', hd', ?_⟩
  cases l with
  | beginOp =>
    obtain ⟨log, -, rfl⟩ := step_beginOp hs
    exact hp.of_prefix rfl rfl hext.syncs hp.outside
  | acquire n =>
    obtain ⟨a, -, ht⟩ := step_acquire hi.wf hs
    exact hp.of_prefix (by rw [ht]) (by rw [ht]) hext.syncs (by rw [ht]; exact hp.outside)
  | modify a d =>
    obtain ⟨-, rfl⟩ := step_modify hs
    exact hp.of_prefix rfl rfl hext.syncs hp.outside
  | sync ctx a =>
    cases ctx with
    | none => exact hl.elim
    | some c =>
      obtain ⟨ha, -, rm, header, -, rfl⟩ := step_sync_some hs
      refine hp.of_prefix rfl rfl hext.syncs fun e he => ?_
      rcases List.mem_append.mp he with he | he
      · exact hp.outside e he
      · obtain rfl := List.mem_singleton.mp he
        obtain ⟨n, hn⟩ := (hi.held_iff a).mp ha
        rw [hn.1.2.2]
        exact (hi.proper n a hn).1
  | release a =>
    obtain ⟨-, n, -, ht⟩ := step_release hi.wf (fun a ha => (hi.held_iff a).mp ha) hs
    exact hp.of_prefix (by rw [ht]) (by rw [ht]) hext.syncs (by rw [ht]; exact hp.outside)
  | endOp c =>
    obtain ⟨-, doCommit, log, -, rfl⟩ := step_endOp hs
    exact hp.of_prefix rfl rfl hext.syncs hp.outside
  | commit =>
    obtain ⟨-, hc, ht⟩ := step_commit (hi.committable hlog hproper) hs
    refine persists_commit hp hd' htr' ?_ (by rw [ht]) (by rw [ht])
      (e := ⟨s.cache.trace.length, s.syncs.length, s.cache.group⟩) rfl hlog (by rw [ht])
    rw [hc.header, LogHeader.logged_clear]

theorem sound_of_reachable (hlog : 0 < sb.numLogBlocks)
    (h : (opSystem sb).Reachable (Disciplined sb) s) : s.Sound sb :=
  h.induction (fun _ h₀ => ⟨inv_init h₀, tracks_init hlog h₀, durable_init h₀, persists_init h₀⟩)
    fun _ _ _ hs hl hstep => sound_step hlog hs hl hstep

/-! ### Returning from `cache_end_op` -/

/-- `cache_end_op` of operation `c`, called in `s`, returns in `r`: at once when
other operations are running, else after the commit. -/
def EndOpReturns (sb : SuperBlock) (c : ℕ) (s r : OpState) : Prop :=
  ∃ t, s.step sb (.endOp c) = some t ∧
    (s.cache.log.outstanding ≠ 1 ∧ r = t ∨
      s.cache.log.outstanding = 1 ∧ ∃ u, (opSystem sb).Leads (Disciplined sb) t u ∧
        u.commits = t.commits ∧ Disciplined sb u .commit ∧ u.step sb .commit = some r)

/-- Whenever the machine stops after `r`, and however often it is restarted, each
block that operation `c` had synced comes back with the content of that sync or
of a later one. -/
def Persisted (sb : SuperBlock) (c : ℕ) (r : OpState) : Prop :=
  ∀ t, (opSystem sb).Leads (Disciplined sb) r t →
  ∀ k, r.cache.trace.length ≤ k → ∀ D, Restarts sb (t.crashDisk k) D →
  ∃ cache, initBcache sb D = .ok cache ∧
    ∀ i (hi : i < r.syncs.length), r.syncs[i].op = some c →
    ∃ j, ∃ hj : j < t.syncs.length, i ≤ j ∧ t.syncs[j].blockNo = r.syncs[i].blockNo ∧
      cache.device r.syncs[i].blockNo = t.syncs[j].data

/-- In a state right after a commit all syncs are persisted. -/
theorem Sound.persisted (hlog : 0 < sb.numLogBlocks)
    (hr : (opSystem sb).Reachable (Disciplined sb) r)
    (hsynced : ∃ g, ∃ hg : g < r.commits.length,
      r.commits[g].synced = r.syncs.length ∧ r.commits[g].headerWrite < r.cache.trace.length) :
    Persisted sb c r := by
  intro t hleads k hk D hD
  obtain ⟨g, hg, hall, hheader⟩ := hsynced
  have hext := extends_of_leads hlog (hr.mono fun _ _ h => h.loggedOnly.proper)
    (hleads.mono fun _ _ h => h.loggedOnly.proper)
  obtain ⟨hi, -, hd, hp⟩ := sound_of_reachable hlog (hr.leads hleads)
  obtain ⟨cache, hrun, -, j, hj, hdev⟩ := hd.recover hlog hD
  refine ⟨cache, hrun, fun i hir _ => ?_⟩
  have hgt : g < t.commits.length := Nat.lt_of_lt_of_le hg hext.commits.length_le
  have hsame : t.commits[g] = r.commits[g] := (hext.commits.getElem hg).symm
  -- the group of that commit survives, and all syncs of `r` are before it
  have hgj : g < j := hj.committed g hgt (by rw [hsame]; omega)
  obtain ⟨m, hm, hle, hcontent⟩ := hp.content j hj.le
  have hlen : r.syncs.length ≤ m := by
    have := hle g hgt hgj
    rwa [hsame, hall] at this
  have hit : i < t.syncs.length := by omega
  have hsync : t.syncs[i] = r.syncs[i] := (hext.syncs.getElem hir).symm
  have hout := hp.outside t.syncs[i] (List.getElem_mem hit)
  set ws := (t.syncs.take m).map fun e => (e.blockNo, e.data) with hws
  have hwlen : ws.length = m := by
    rw [hws, List.length_map, List.length_take]
    omega
  have hget : ∀ q (hq : q < ws.length) (hqt : q < t.syncs.length),
      ws[q] = (t.syncs[q].blockNo, t.syncs[q].data) := by
    intro q hq hqt
    simp only [hws, List.getElem_map, List.getElem_take]
  have hiw : i < ws.length := by omega
  obtain ⟨q, hq, hiq, hqn, heq⟩ := exists_writeAll_eq ((logFormat sb).logical t.disk) hiw
    (n := t.syncs[i].blockNo) (by rw [hget i hiw hit])
  have hqt : q < t.syncs.length := by omega
  rw [hget q hq hqt] at hqn heq
  rw [← hsync]
  refine ⟨q, hqt, hiq, hqn, ?_⟩
  rw [hdev _ hout, hcontent _ hout]
  exact heq

end OpState

/-- **When `cache_end_op` persists.**  In every disciplined run, when `cache_end_op`
returns from the last running operation, or from an operation that synced nothing,
the blocks synced under it survive every crash later in the run. -/
theorem endOp_persists (sb : SuperBlock) (hlog : 0 < sb.numLogBlocks) (c : ℕ) (s r : OpState)
    (hs : (opSystem sb).Reachable (Disciplined sb) s) (hret : OpState.EndOpReturns sb c s r)
    (hcond : s.cache.log.outstanding = 1 ∨ ∀ e ∈ s.syncs, e.op ≠ some c) :
    OpState.Persisted sb c r := by
  obtain ⟨t, ht, ⟨hout, rfl⟩ | ⟨hout, u, hleads, -, hcommit, hr⟩⟩ := hret
  · -- it returned at once, and it has synced nothing
    intro t' hleads k hk D hD
    have hreach := hs.step (l := .endOp c) trivial ht
    obtain ⟨hi, -, hd, -⟩ := OpState.sound_of_reachable hlog (hreach.leads hleads)
    obtain ⟨cache, hrun, -⟩ := hd.recover hlog hD
    refine ⟨cache, hrun, fun i hi hop => ?_⟩
    obtain ⟨-, doCommit, log, -, rfl⟩ := OpState.step_endOp ht
    exact absurd hop ((hcond.resolve_left hout) _ (List.getElem_mem hi))
  · -- it committed
    have hu := (hs.step (l := .endOp c) trivial ht).leads hleads
    obtain ⟨hi, -, -, -⟩ := OpState.sound_of_reachable hlog hu
    obtain ⟨-, hc, hreq⟩ := OpState.step_commit (hi.committable hlog hcommit.loggedOnly.proper) hr
    have hcommits : r.commits = u.commits ++
        [⟨u.cache.trace.length, u.syncs.length, u.cache.group⟩] := by rw [hreq]
    have hsyncs : r.syncs = u.syncs := by rw [hreq]
    have htrace : r.cache.trace = _ := hc.wrote.trace
    have hg : u.commits.length < r.commits.length := by simp [hcommits]
    have hget : r.commits[u.commits.length]
        = ⟨u.cache.trace.length, u.syncs.length, u.cache.group⟩ := by
      simp [hcommits]
    refine OpState.Sound.persisted hlog (hu.step hcommit hr) ⟨u.commits.length, hg, ?_, ?_⟩
    · rw [hget, hsyncs]
    · rw [hget, htrace]
      simp only [CommitEvent.headerWrite, RedoLog.commit, List.length_append, List.length_cons,
        RedoLog.length_fills]
      omega

/-- On a blank disk, an operation that syncs block 500 and ends alone. -/
theorem endOp_persists_mkfs : ∃ r : OpState, r.syncs.length = 1 ∧ r.commits.length = 1 ∧
    OpState.Persisted .mkfs 0 r := by
  have hrun : ((OpState.boot .mkfs OpState.blankDisk).bind fun s =>
      (opSystem .mkfs).exec (Disciplined .mkfs) s
        [.beginOp, .acquire 500, .modify 0 (.fill 7), .sync (some 0) 0, .release 0]).map
      (fun s => (s.cache.log.outstanding, ((s.step .mkfs (.endOp 0)).bind fun t =>
        if Disciplined .mkfs t .commit then
          (t.step .mkfs .commit).map fun r => (r.syncs.length, r.commits.length)
        else none))) = some (1, some (1, 1)) := by
    decide +kernel
  obtain ⟨s, hs, -, hf⟩ := OpState.exists_reachable_of_exec (OpState.sound_blankDisk .mkfs) hrun
  obtain ⟨hout, hsteps⟩ := Prod.mk.inj hf
  obtain ⟨t, ht, hif⟩ := Option.bind_eq_some_iff.mp hsteps
  split at hif
  · rename_i hcommit
    obtain ⟨r, hr, hlen⟩ := Option.map_eq_some_iff.mp hif
    exact ⟨r, (Prod.mk.inj hlen).1, (Prod.mk.inj hlen).2,
      endOp_persists .mkfs (by decide) 0 s r hs
        ⟨t, ht, .inr ⟨hout, t, .refl t, rfl, hcommit, hr⟩⟩ (.inl hout)⟩
  · cases hif

/-- On a blank disk, operation 0 syncs block 500 and ends while operation 1 is
running: `cache_end_op` returns, and a crash right then loses the block. -/
theorem endOp_not_persisted : ∃ s r : OpState,
    (opSystem .mkfs).Reachable (Disciplined .mkfs) s ∧ OpState.EndOpReturns .mkfs 0 s r ∧
    ¬ OpState.Persisted .mkfs 0 r := by
  have hrun : ((OpState.boot .mkfs OpState.blankDisk).bind fun s =>
      (opSystem .mkfs).exec (Disciplined .mkfs) s
        [.beginOp, .beginOp, .acquire 500, .modify 0 (.fill 7), .sync (some 0) 0, .release 0]).map
      (fun s => decide (s.cache.log.outstanding = 2 ∧ s.commits.length = 0 ∧
        s.syncs.map (fun e => (e.op, e.blockNo, e.data.byte 0)) = [(some 0, 500, 7)] ∧
        (s.step .mkfs (.endOp 0)).isSome = true)) = some true := by
    decide +kernel
  obtain ⟨s, hs, hdisk, hf⟩ :=
    OpState.exists_reachable_of_exec (OpState.sound_blankDisk .mkfs) hrun
  obtain ⟨hout, hcommits, hsyncs, hsome⟩ := of_decide_eq_true hf
  obtain ⟨r, hr⟩ := Option.isSome_iff_exists.mp hsome
  refine ⟨s, r, hs, ⟨r, hr, .inl ⟨by omega, rfl⟩⟩, fun hpersisted => ?_⟩
  have hreach := hs.step (l := .endOp 0) trivial hr
  obtain ⟨-, doCommit, log, -, hreq⟩ := OpState.step_endOp hr
  have hrsyncs : r.syncs = s.syncs := by rw [hreq]
  have hrcommits : r.commits = [] := by
    rw [hreq]
    exact List.eq_nil_of_length_eq_zero hcommits
  have hrdisk : r.disk = OpState.blankDisk := by rw [hreq, ← hdisk]
  -- the only sync is that of block 500
  obtain ⟨e, he⟩ : ∃ e, s.syncs = [e] := List.length_eq_one_iff.mp (by
    simpa using congrArg List.length hsyncs)
  simp only [he, List.map_cons, List.map_nil, List.cons.injEq, Prod.mk.injEq, and_true] at hsyncs
  obtain ⟨hop, hno, hbyte⟩ := hsyncs
  have hlen : r.syncs.length = 1 := by rw [hrsyncs, he]; rfl
  have hall : ∀ j (hj : j < r.syncs.length), r.syncs[j] = e := by
    intro j hj
    obtain rfl : j = 0 := by omega
    simp [hrsyncs, he]
  -- after a crash the block is blank
  have hd : r.Durable .mkfs := (OpState.sound_of_reachable (by decide) hreach).durable
  obtain ⟨cache, hinit, hpers⟩ := hpersisted r (.refl r) _ (Nat.le_refl _) _ (.crash _)
  obtain ⟨cache', hinit', -, j, -, hcontent⟩ := hd.recover (by decide) (.crash _)
  obtain rfl := Except.ok.inj (hinit.symm.trans hinit')
  obtain ⟨q, hq, -, -, hdev⟩ := hpers 0 (by omega) (by rw [hall 0 (by omega)]; exact hop)
  rw [hall q hq, hall 0 (by omega), hno, hcontent 500 (by decide), OpState.contentAfter, hrcommits,
    hrdisk] at hdev
  have hlogical : (logFormat .mkfs).logical OpState.blankDisk = OpState.blankDisk :=
    RedoLog.logical_of_empty (List.eq_nil_of_length_eq_zero
      ((LogHeader.length_logged _).trans OpState.numBlocks_blank))
  rw [hlogical, List.take_nil, List.flatMap_nil, writeAll_nil] at hdev
  rw [← hdev] at hbyte
  exact absurd hbyte (by decide)

end OsLab
