/-
The block cache as a map from block numbers to contents.

`OpState.store` is the map: the content of the last sync of each block, or the
content the disk had when the cache was set up.  `Tracks` ties it to the cached
copies and to the device.

* `tracks_step` — it is kept by every call, as long as nobody releases a block
  with changes that are not synced;
* `cache_refines_map` — so for a single client every call returns,
  `cache_acquire` returns what the map holds, and after `cache_end_op` the
  device is the map.
-/
import OsLab.Fs.Operations

namespace OsLab

namespace OpState

variable {sb : SuperBlock} {s t : OpState} {a b c m n : ℕ}

/-- The map from block numbers to contents. -/
def store (sb : SuperBlock) (s : OpState) : ℕ → BlockData :=
  writeAll ((logFormat sb).logical s.disk) (s.syncs.map fun e => (e.blockNo, e.data))

/-- A sync replaces the content of one block. -/
theorem store_sync {op : Option ℕ} {d : BlockData} (hdisk : t.disk = s.disk)
    (hsyncs : t.syncs = s.syncs ++ [⟨op, n, d⟩]) :
    t.store sb = Function.update (s.store sb) n d := by
  rw [store, store, hdisk, hsyncs, List.map_append, writeAll_append]
  rfl

/-- The other calls keep the map. -/
theorem store_eq (hdisk : t.disk = s.disk) (hsyncs : t.syncs = s.syncs) :
    t.store sb = s.store sb := by
  rw [store, store, hdisk, hsyncs]

/-- Outside the log area, a copy without unsynced changes is what the map says,
and so is the device for a block that is not logged. -/
structure Tracks (sb : SuperBlock) (s : OpState) : Prop where
  live : ∀ n a, ¬ sb.InLog n → s.cache.Live n a → a ∉ s.dirty →
    (s.cache.heap a).data = s.store sb n
  device : ∀ n, ¬ sb.InLog n → n ∉ s.cache.header.logged → s.cache.device n = s.store sb n

namespace Tracks

variable (h : s.Tracks sb) (hi : s.Inv sb)
include h hi

/-- What `cache_acquire` returns for a block that nobody holds. -/
theorem view_eq (hn : ¬ sb.InLog n) (hidle : ∀ a, ¬ s.cache.Held n a) :
    s.cache.view n = s.store sb n := by
  by_cases hlive : ∃ a, s.cache.Live n a
  · obtain ⟨a, ha⟩ := hlive
    rw [hi.wf.view_of_live ha]
    refine h.live n a hn ha fun hd => ?_
    obtain ⟨m, hm⟩ := (hi.held_iff a).mp (hi.dirty hd)
    exact hidle a (ha.number hm.1 ▸ hm)
  · rw [Bcache.view_of_not_live fun a ha => hlive ⟨a, ha⟩]
    refine h.device n hn fun hl => ?_
    obtain ⟨a, ha, -⟩ := (hi.logged_iff n).mp hl
    exact hlive ⟨a, ha⟩

/-- An idle copy that is not logged agrees with the device. -/
theorem clean (m : ℕ) : s.cache.Clean m := by
  by_cases hm : sb.InLog m
  · exact hi.clean m hm
  · intro a ha hacq hpin
    have hlogged : m ∉ s.cache.header.logged := by
      intro hl
      rw [hi.wf.pinned_of_live ha ((hi.logged_iff m).mp hl)] at hpin
      cases hpin
    have hdirty : a ∉ s.dirty := by
      intro hd
      obtain ⟨k, hk⟩ := (hi.held_iff a).mp (hi.dirty hd)
      rw [hk.2] at hacq
      cases hacq
    rw [h.live m a hm ha hdirty, h.device m hm hlogged]

end Tracks

theorem tracks_init (hlog : 0 < sb.numLogBlocks) (h : (opSystem sb).init s) : s.Tracks sb := by
  obtain ⟨hsound, hboot, -, -, -, hsyncs, -⟩ := h
  obtain ⟨cache, hcache, hb⟩ := Bcache.initBcache_spec hsound
  obtain rfl : s.cache = cache := Except.ok.inj (hboot.symm.trans hcache)
  have hrec := (RedoLog.Recovers.done s.disk).spec hsound
  have hstore : s.store sb = (logFormat sb).logical s.disk := by simp [store, hsyncs]
  have hdev : ∀ n, ¬ sb.InLog n → s.cache.device n = s.store sb n := by
    intro n hn
    rw [hb.device, hstore]
    exact hrec.2 n (outside_of_not_inLog hlog hn)
  refine ⟨fun n a hn ha _ => ?_, fun n hn _ => hdev n hn⟩
  rw [← hdev n hn]
  refine hb.clean n a ha ?_ ?_
  · by_contra hacq
    exact hb.held n a ⟨ha, by simpa using hacq⟩
  · by_contra hpin
    exact hb.pinned n ⟨a, ha, by simpa using hpin⟩

theorem tracks_acquire (h : s.Tracks sb) (hi : s.Inv sb) (hn : ¬ sb.InLog n)
    (ha : s.cache.Acquires n a t.cache)
    (ht : t = { s with cache := t.cache, held := insert a s.held }) : t.Tracks sb := by
  have hstore : t.store sb = s.store sb := store_eq (by rw [ht]) (by rw [ht])
  refine ⟨fun m b hm hb hd => ?_, fun m hm hl => ?_⟩
  · rw [hstore]
    by_cases hba : b = a
    · subst hba
      obtain rfl := hb.number ha.held.1
      rw [ha.data, h.view_eq hi hm fun c => ha.not_held]
    · rw [ha.heap b hba]
      refine h.live m b hm ((ha.back m b hb).resolve_right fun hh => hba hh.2) ?_
      rwa [show t.dirty = s.dirty by rw [ht]] at hd
  · rw [hstore, ha.device]
    rw [ha.header] at hl
    exact h.device m hm hl

theorem tracks_release (h : s.Tracks sb) (hd : a ∉ s.dirty) (hr : s.cache.Releases n a t.cache)
    (ht : t = { s with cache := t.cache, held := s.held.erase a, dirty := s.dirty.erase a }) :
    t.Tracks sb := by
  have hstore : t.store sb = s.store sb := store_eq (by rw [ht]) (by rw [ht])
  refine ⟨fun m b hm hb hbd => ?_, fun m hm hl => ?_⟩
  · rw [hstore, hr.data_eq]
    refine h.live m b hm (hr.back m b hb) fun hbd' => hbd ?_
    rw [show t.dirty = s.dirty.erase a by rw [ht], Finset.mem_erase]
    refine ⟨?_, hbd'⟩
    rintro rfl
    exact hd hbd'
  · rw [hstore, hr.device]
    rw [hr.header] at hl
    exact h.device m hm hl

theorem tracks_modify {d : BlockData} (h : s.Tracks sb) (hs : s.step sb (.modify a d) = some t) :
    t.Tracks sb := by
  obtain ⟨-, rfl⟩ := step_modify hs
  refine ⟨fun m b hm hb hd => ?_, h.device⟩
  have hba : b ≠ a := by
    rintro rfl
    exact hd (Finset.mem_insert_self b s.dirty)
  dsimp only
  rw [Bcache.heap_setBlock_ne hba]
  exact h.live m b hm ((Bcache.live_setBlock rfl rfl).mp hb) fun hb' =>
    hd (Finset.mem_insert_of_mem hb')

/-- After a sync of the held buffer `a` the map holds its content. -/
theorem Tracks.live_sync (h : s.Tracks sb) (hi : s.Inv sb) (ha : s.cache.Held n a) (hm : ¬ sb.InLog m)
    (hb : s.cache.Live m b) (hd : b ∉ s.dirty.erase a) :
    (s.cache.heap b).data = Function.update (s.store sb) n (s.cache.heap a).data m := by
  by_cases hba : b = a
  · subst hba
    rw [hb.number ha.1, Function.update_self]
  · have hmn : m ≠ n := by
      rintro rfl
      exact hba (hi.wf.unique hb ha.1)
    rw [Function.update_of_ne hmn]
    exact h.live m b hm hb fun hb' => hd (Finset.mem_erase.mpr ⟨hba, hb'⟩)

theorem tracks_sync_none (h : s.Tracks sb) (hi : s.Inv sb)
    (hs : s.step sb (.sync none a) = some t) : t.Tracks sb := by
  obtain ⟨ha, ht⟩ := step_sync_none hs
  obtain ⟨n, hn⟩ := (hi.held_iff a).mp ha
  rw [hn.1.2.2] at ht
  have hstore : t.store sb = Function.update (s.store sb) n (s.cache.heap a).data :=
    store_sync (by rw [ht]) (by rw [ht])
  have hcache : t.cache = s.cache.deviceWrite a := by rw [ht]
  refine ⟨fun m b hm hb hd => ?_, fun m hm hl => ?_⟩
  · rw [hstore]
    rw [hcache] at hb ⊢
    exact h.live_sync hi hn hm hb (by rwa [ht] at hd)
  · rw [hcache] at hl ⊢
    rw [hstore]
    show Function.update s.cache.device (s.cache.heap a).blockNo _ m = _
    rw [hn.1.2.2]
    by_cases hmn : m = n
    · rw [hmn, Function.update_self, Function.update_self]
    · rw [Function.update_of_ne hmn, Function.update_of_ne hmn]
      exact h.device m hm hl

theorem tracks_sync_some (h : s.Tracks sb) (hi : s.Inv sb)
    (hs : s.step sb (.sync (some c) a) = some t) : t.Tracks sb := by
  obtain ⟨ha, -, rm, header, habs, ht⟩ := step_sync_some hs
  obtain ⟨n, hn⟩ := (hi.held_iff a).mp ha
  rw [hn.1.2.2] at ht habs
  have hstore : t.store sb = Function.update (s.store sb) n (s.cache.heap a).data :=
    store_sync (by rw [ht]) (by rw [ht])
  have hdata : ∀ b, (t.cache.heap b).data = (s.cache.heap b).data := by
    intro b
    rw [ht]
    by_cases hba : b = a
    · rw [hba]
      simp
    · simp [Bcache.setBlock, hba]
  have hmem : n ∈ header.logged ∧ ∀ m ∈ s.cache.header.logged, m ∈ header.logged := by
    rcases LogHeader.absorb_cases habs with ⟨hmem, -, -, hl⟩ | ⟨-, -, -, -, -, hl⟩
    · rw [hl]
      exact ⟨hmem, fun _ => id⟩
    · rw [hl]
      exact ⟨List.mem_append_right _ (List.mem_singleton.mpr rfl),
        fun m hm => List.mem_append_left _ hm⟩
  refine ⟨fun m b hm hb hd => ?_, fun m hm hl => ?_⟩
  · rw [hstore, hdata]
    refine h.live_sync hi hn hm ?_ (by rwa [ht] at hd)
    rw [ht] at hb
    exact (Bcache.live_setBlock (s := s.cache) (f := fun b => { b with pinned := true })
      rfl rfl).mp hb
  · rw [ht] at hl
    have hmn : m ≠ n := by
      rintro rfl
      exact hl hmem.1
    rw [hstore, Function.update_of_ne hmn, ht]
    exact h.device m hm fun hm' => hl (hmem.2 m hm')

theorem tracks_commit (hlog : 0 < sb.numLogBlocks) (h : s.Tracks sb) (hi : s.Inv sb)
    (hc : Bcache.Committable sb s.cache) (hs : s.step sb .commit = some t) : t.Tracks sb := by
  obtain ⟨-, hcommit, ht⟩ := step_commit hc hs
  have hw := hcommit.wrote
  have hstore : t.store sb = s.store sb := store_eq (by rw [ht]) (by rw [ht])
  have hdirty : t.dirty = s.dirty := by rw [ht]
  have hwf : t.cache.Wf := ⟨hw.wf.nodup, hw.wf.lt_brk, hw.wf.findBlock, hw.wf.valid, hw.wf.lock, hw.wf.freed⟩
  have hfits : (logFormat sb).Fits (s.cache.group.map Prod.fst) := by
    rw [Bcache.map_fst_group]
    exact hc.fits
  have hempty := LogHeader.logged_ofBlock_clear s.cache.header
  have hgroup : ∀ w ∈ s.cache.group, w.2 = s.cache.view w.1 := by
    intro w hw
    obtain ⟨n, -, rfl⟩ := List.mem_map.mp hw
    rfl
  -- a commit shows nothing new
  have hview : ∀ m, ¬ sb.InLog m → t.cache.view m = s.cache.view m := by
    intro m hm
    have hv : t.cache.view m = _ := hw.view_eq m (h.clean hi m)
    rw [hv, (RedoLog.writeAll_commit hempty hfits).2 m (outside_of_not_inLog hlog hm)]
    exact writeAll_of_mem hgroup (.inr rfl)
  refine ⟨fun m b hm hb hd => ?_, fun m hm _ => ?_⟩
  · rw [hstore]
    by_cases hheld : s.cache.Held m b
    · rw [show t.cache.heap b = s.cache.heap b from hw.heap_of_held m b hheld]
      exact h.live m b hm hheld.1 (hdirty ▸ hd)
    · have hidle : ∀ c, ¬ s.cache.Held m c := by
        intro c hc'
        have hc'' : t.cache.Held m c := (hw.held_iff m c).mpr hc'
        exact hheld (hwf.unique hb hc''.1 ▸ hc')
      rw [← hwf.view_of_live hb, hview m hm, h.view_eq hi hm hidle]
  · have hdev : t.cache.device = _ := hw.device
    rw [hdev, hstore, (RedoLog.writeAll_commit hempty hfits).2 m (outside_of_not_inLog hlog hm)]
    by_cases hl : m ∈ s.cache.header.logged
    · rw [← h.view_eq hi hm (hcommit.idle m hl)]
      refine writeAll_of_mem hgroup (.inl ⟨(m, s.cache.view m), ?_, rfl⟩)
      exact List.mem_map_of_mem (f := fun n => (n, s.cache.view n)) hl
    · rw [writeAll_of_notMem, h.device m hm hl]
      rintro w hw' rfl
      refine hl ?_
      rw [← Bcache.map_fst_group]
      exact List.mem_map_of_mem hw'

/-- Every call of a disciplined client keeps the cache in step with the map. -/
theorem tracks_step (hlog : 0 < sb.numLogBlocks) {l : OpCall} (h : s.Tracks sb) (hi : s.Inv sb)
    (hl : Proper sb s l) (hd : ∀ a, l = .release a → a ∉ s.dirty)
    (hs : s.step sb l = some t) : t.Tracks sb := by
  cases l with
  | beginOp =>
    obtain ⟨log, -, rfl⟩ := step_beginOp hs
    exact ⟨h.live, h.device⟩
  | acquire n =>
    obtain ⟨a, ha, ht⟩ := step_acquire hi.wf hs
    exact tracks_acquire h hi hl.1 ha ht
  | modify a d => exact tracks_modify h hs
  | sync ctx a =>
    cases ctx with
    | none => exact tracks_sync_none h hi hs
    | some c => exact tracks_sync_some h hi hs
  | release a =>
    obtain ⟨-, n, hr, ht⟩ := step_release hi.wf (fun a ha => (hi.held_iff a).mp ha) hs
    exact tracks_release h (hd a rfl) hr ht
  | endOp c =>
    obtain ⟨-, doCommit, log, -, rfl⟩ := step_endOp hs
    exact ⟨h.live, h.device⟩
  | commit => exact tracks_commit hlog h hi (hi.committable hlog hl) hs

/-! ### A single client -/

/-- The distinct blocks that operation `c` has synced. -/
def syncedBy (s : OpState) (c : ℕ) : Finset ℕ :=
  ((s.syncs.filter fun e => e.op = some c).map SyncEvent.blockNo).toFinset

end OpState

/-- A single client: it has one operation open at most, does not acquire a block it
holds, syncs what it has changed before it releases it, syncs at most
`OP_MAX_NUM_BLOCKS` distinct blocks in an operation, and ends an operation with
no block in its hands. -/
def SingleClient (sb : SuperBlock) (s : OpState) : OpCall → Prop
  | .beginOp => s.running = ∅
  | .acquire n => (¬ sb.InLog n ∧ n < 2 ^ 64) ∧ ∀ a ∈ s.held, (s.cache.heap a).blockNo ≠ n
  | .modify _ _ => True
  | .sync none _ => True
  | .sync (some c) a => (insert (s.cache.heap a).blockNo (s.syncedBy c)).card ≤ opMaxNumBlocks
  | .release a => a ∉ s.dirty
  | .endOp _ => s.held = ∅
  | .commit => True

instance (sb : SuperBlock) (s : OpState) (l : OpCall) : Decidable (SingleClient sb s l) :=
  match l with
  | .beginOp => inferInstanceAs (Decidable (s.running = ∅))
  | .acquire n => inferInstanceAs (Decidable
      ((¬ sb.InLog n ∧ n < 2 ^ 64) ∧ ∀ a ∈ s.held, (s.cache.heap a).blockNo ≠ n))
  | .sync (some c) a => inferInstanceAs (Decidable
      ((insert (s.cache.heap a).blockNo (s.syncedBy c)).card ≤ opMaxNumBlocks))
  | .release a => inferInstanceAs (Decidable (a ∉ s.dirty))
  | .endOp _ => inferInstanceAs (Decidable (s.held = ∅))
  | .modify _ _ | .sync none _ | .commit => inferInstanceAs (Decidable True)

namespace OpState

variable {sb : SuperBlock} {s t : OpState} {a b c m n : ℕ}

theorem syncedBy_append_some {d : BlockData} (h : t.syncs = s.syncs ++ [⟨some c, n, d⟩]) :
    t.syncedBy c = insert n (s.syncedBy c) := by
  ext m
  simp [syncedBy, h, eq_comm]

theorem syncedBy_append_none {d : BlockData} (h : t.syncs = s.syncs ++ [⟨none, n, d⟩]) (c : ℕ) :
    t.syncedBy c = s.syncedBy c := by
  simp [syncedBy, h]

theorem syncedBy_eq (h : t.syncs = s.syncs) (c : ℕ) : t.syncedBy c = s.syncedBy c := by
  rw [syncedBy, syncedBy, h]

/-- What holds between the calls of a single client. -/
structure Single (s : OpState) : Prop where
  one : s.running.card ≤ 1
  logged : ∀ c ∈ s.running, s.cache.header.logged.toFinset = s.syncedBy c
  budget : ∀ c ∈ s.running, s.cache.header.numBlocks + s.rm c = opMaxNumBlocks
  le : s.cache.header.numBlocks ≤ opMaxNumBlocks
  idle : s.running = ∅ → s.cache.log.committing = false → s.cache.header.numBlocks = 0
  past : ∀ e ∈ s.syncs, ∀ c, e.op = some c → c < s.nextOp

theorem single_init (h : (opSystem sb).init s) : s.Single := by
  obtain ⟨hsound, hboot, hrun, -, -, hsyncs, -⟩ := h
  obtain ⟨cache, hcache, hb⟩ := Bcache.initBcache_spec hsound
  obtain rfl : s.cache = cache := Except.ok.inj (hboot.symm.trans hcache)
  refine ⟨?_, ?_, ?_, ?_, fun _ _ => hb.header, ?_⟩
  · simp [hrun]
  · simp [hrun]
  · simp [hrun]
  · simp [hb.header]
  · simp [hsyncs]

/-- A call that changes neither the log nor the operations keeps it. -/
theorem Single.of_eq (h : s.Single) (hheader : t.cache.header = s.cache.header)
    (hlog : t.cache.log = s.cache.log) (hrun : t.running = s.running) (hrm : t.rm = s.rm)
    (hnext : t.nextOp = s.nextOp) (hsynced : ∀ c, t.syncedBy c = s.syncedBy c)
    (hpast : ∀ e ∈ t.syncs, ∀ c, e.op = some c → c < s.nextOp) : t.Single := by
  refine ⟨?_, ?_, ?_, ?_, ?_, ?_⟩
  · rw [hrun]
    exact h.one
  · intro c hc
    rw [hheader, hsynced]
    exact h.logged c (hrun ▸ hc)
  · intro c hc
    rw [hheader, hrm]
    exact h.budget c (hrun ▸ hc)
  · rw [hheader]
    exact h.le
  · rw [hrun, hlog, hheader]
    exact h.idle
  · rw [hnext]
    exact hpast

theorem single_beginOp (h : s.Single) (hrun : s.running = ∅) (hs : s.step sb .beginOp = some t) :
    t.Single := by
  obtain ⟨log, hlog, rfl⟩ := step_beginOp hs
  have hcom : s.cache.log.committing = false := by
    by_contra hcom
    simp [Log.beginSection, hcom] at hlog
  have hzero := h.idle hrun hcom
  have hempty : s.syncedBy s.nextOp = ∅ := by
    rw [syncedBy, List.filter_eq_nil_iff.mpr]
    · rfl
    · intro e he hop
      exact Nat.lt_irrefl _ (h.past e he _ (by simpa using hop))
  refine ⟨?_, fun c hc => ?_, fun c hc => ?_, h.le, fun hne => ?_, fun e he c hop => ?_⟩
  · simp [hrun]
  · obtain rfl : c = s.nextOp := by simpa [hrun] using hc
    show s.cache.header.logged.toFinset = s.syncedBy s.nextOp
    rw [hempty, LogHeader.logged, hzero]
    rfl
  · obtain rfl : c = s.nextOp := by simpa [hrun] using hc
    show s.cache.header.numBlocks + Function.update s.rm s.nextOp opMaxNumBlocks s.nextOp = _
    rw [hzero, Function.update_self, Nat.zero_add]
  · simp at hne
  · exact Nat.lt_succ_of_lt (h.past e he c hop)

theorem single_sync_some (h : s.Single) (hi : s.Inv sb)
    (hs : s.step sb (.sync (some c) a) = some t) : t.Single := by
  obtain ⟨-, hc, rm, header, habs, rfl⟩ := step_sync_some hs
  have honly : ∀ d ∈ s.running, d = c := fun d hd => Finset.card_le_one.mp h.one d hd c hc
  have hbudget := h.budget c hc
  have hnum : header.numBlocks + rm = opMaxNumBlocks ∧
      header.logged.toFinset = insert (s.cache.heap a).blockNo s.cache.header.logged.toFinset := by
    rcases LogHeader.absorb_cases habs with ⟨hmem, rfl, hn, hl⟩ | ⟨-, -, hpos, rfl, hn, hl⟩
    · rw [hn, hl, Finset.insert_eq_of_mem (List.mem_toFinset.mpr hmem)]
      exact ⟨hbudget, rfl⟩
    · rw [hn, hl]
      refine ⟨by omega, ?_⟩
      ext m
      simp [or_comm]
  refine ⟨h.one, fun d hd => ?_, fun d hd => ?_, ?_, fun hne => ?_, fun e he d hop => ?_⟩
  · obtain rfl := honly d hd
    rw [syncedBy_append_some rfl, ← h.logged d hc]
    exact hnum.2
  · obtain rfl := honly d hd
    show header.numBlocks + Function.update s.rm d rm d = _
    rw [Function.update_self]
    exact hnum.1
  · show header.numBlocks ≤ _
    omega
  · exact absurd hne (Finset.ne_empty_of_mem hc)
  · rcases List.mem_append.mp he with he | he
    · exact h.past e he d hop
    · obtain rfl := List.mem_singleton.mp he
      obtain rfl := Option.some.inj hop
      exact hi.running_lt c hc

theorem single_endOp (h : s.Single) (hi : s.Inv sb) (hs : s.step sb (.endOp c) = some t) :
    t.Single ∧ t.cache.log.committing = true := by
  obtain ⟨hc, doCommit, log, hsec, rfl⟩ := step_endOp hs
  have hone : s.running = {c} :=
    Finset.eq_singleton_iff_unique_mem.mpr
      ⟨hc, fun d hd => Finset.card_le_one.mp h.one d hd c hc⟩
  have hout : s.cache.log.outstanding = s.running.card := hi.log.outstanding
  have hlast : s.cache.log.outstanding - 1 = 0 := by
    rw [hout, hone]
    rfl
  have hcom : log.committing = true := by
    simp only [Log.endSection, hlast] at hsec
    split at hsec
    · cases hsec
    · simp only [if_true, Except.ok.injEq, Prod.mk.injEq] at hsec
      rw [← hsec.2]
  have hempty : s.running.erase c = ∅ := by simp [hone]
  refine ⟨⟨?_, ?_, ?_, h.le, fun _ hfalse => ?_, h.past⟩, hcom⟩
  · simp [hempty]
  · simp [hempty]
  · simp [hempty]
  · rw [show log.committing = false from hfalse] at hcom
    cases hcom

theorem single_commit (h : s.Single) (hi : s.Inv sb) (hc : Bcache.Committable sb s.cache)
    (hs : s.step sb .commit = some t) : t.Single := by
  obtain ⟨hcom, hcommit, ht⟩ := step_commit hc hs
  have hrun : t.running = ∅ := by
    rw [show t.running = s.running by rw [ht]]
    exact hi.log.committing hcom
  have hnum : t.cache.header.numBlocks = 0 := by rw [hcommit.header]
  refine ⟨?_, ?_, ?_, ?_, fun _ _ => hnum, ?_⟩
  · simp [hrun]
  · simp [hrun]
  · simp [hrun]
  · simp [hnum]
  · rw [ht]
    exact h.past

/-- A single client is a proper and disciplined one. -/
theorem Single.proper (h : s.Single) (hroom : opMaxNumBlocks ≤ sb.numLogBlocks - 1) {l : OpCall}
    (hl : SingleClient sb s l) :
    Proper sb s l ∧ ∀ a, l = .release a → a ∉ s.dirty := by
  cases l with
  | acquire n => exact ⟨hl.1, by simp⟩
  | release a =>
    refine ⟨trivial, ?_⟩
    rintro b hb
    obtain rfl := OpCall.release.inj hb
    exact hl
  | commit => exact ⟨h.le.trans hroom, by simp⟩
  | beginOp => exact ⟨trivial, by simp⟩
  | modify a d => exact ⟨trivial, by simp⟩
  | sync ctx a => exact ⟨trivial, by simp⟩
  | endOp c => exact ⟨trivial, by simp⟩

theorem single_step (hroom : opMaxNumBlocks ≤ sb.numLogBlocks - 1) {l : OpCall} (h : s.Single)
    (hi : s.Inv sb) (hl : SingleClient sb s l) (hs : s.step sb l = some t) : t.Single := by
  have hlog : 0 < sb.numLogBlocks := by
    have hop : opMaxNumBlocks = 10 := rfl
    omega
  cases l with
  | beginOp => exact single_beginOp h hl hs
  | acquire n =>
    obtain ⟨a, ha, ht⟩ := step_acquire hi.wf hs
    exact h.of_eq ha.header ha.log (by rw [ht]) (by rw [ht]) (by rw [ht])
      (syncedBy_eq (by rw [ht])) (by rw [ht]; exact h.past)
  | modify a d =>
    obtain ⟨-, rfl⟩ := step_modify hs
    exact h.of_eq rfl rfl rfl rfl rfl (fun _ => rfl) h.past
  | sync ctx a =>
    cases ctx with
    | none =>
      obtain ⟨-, rfl⟩ := step_sync_none hs
      refine h.of_eq rfl rfl rfl rfl rfl (syncedBy_append_none rfl) fun e he c hop => ?_
      rcases List.mem_append.mp he with he | he
      · exact h.past e he c hop
      · obtain rfl := List.mem_singleton.mp he
        cases hop
    | some c => exact single_sync_some h hi hs
  | release a =>
    obtain ⟨-, n, hr, ht⟩ := step_release hi.wf (fun a ha => (hi.held_iff a).mp ha) hs
    exact h.of_eq hr.header hr.log (by rw [ht]) (by rw [ht]) (by rw [ht])
      (syncedBy_eq (by rw [ht])) (by rw [ht]; exact h.past)
  | endOp c => exact (single_endOp h hi hs).1
  | commit => exact single_commit h hi (hi.committable hlog (h.proper hroom hl).1) hs

/-! ### The refinement -/

/-- The state of a single client's run: the invariants together. -/
theorem single_of_reachable (hroom : opMaxNumBlocks ≤ sb.numLogBlocks - 1)
    (h : (opSystem sb).Reachable (SingleClient sb) s) : s.Inv sb ∧ s.Tracks sb ∧ s.Single := by
  have hlog : 0 < sb.numLogBlocks := by
    have hop : opMaxNumBlocks = 10 := rfl
    omega
  refine h.induction (I := fun s => s.Inv sb ∧ s.Tracks sb ∧ s.Single)
    (fun s h₀ => ⟨inv_init h₀, tracks_init hlog h₀, single_init h₀⟩) ?_
  rintro s l t ⟨hi, ht, hsg⟩ hl hs
  obtain ⟨hp, hd⟩ := hsg.proper hroom hl
  exact ⟨inv_step hlog hi hp hs, tracks_step hlog ht hi hp hd hs, single_step hroom hsg hi hl hs⟩

/-- `cache_acquire` returns the content that the map holds. -/
theorem acquire_returns (hi : s.Inv sb) (ht : s.Tracks sb) (hn : ¬ sb.InLog n)
    (hidle : ∀ a ∈ s.held, (s.cache.heap a).blockNo ≠ n) :
    ∃ a cache, (cacheAcquire n).run s.cache = .ok (a, cache) ∧
      (cache.heap a).blockNo = n ∧ (cache.heap a).data = s.store sb n := by
  have hnone : ∀ a, ¬ s.cache.Held n a := fun a ha =>
    hidle a ((hi.held_iff a).mpr ⟨n, ha⟩) ha.1.2.2
  obtain ⟨a, cache, hrun, ha⟩ := exists_run_of_wp (Bcache.wp_cacheAcquire hi.wf hnone)
  exact ⟨a, cache, hrun, ha.blockNo_eq, by rw [ha.data, ht.view_eq hi hn hnone]⟩

/-- A sync within the budget of its operation returns. -/
theorem sync_returns (hi : s.Inv sb) (hsg : s.Single) (hc : c ∈ s.running)
    (hcard : (insert (s.cache.heap a).blockNo (s.syncedBy c)).card ≤ opMaxNumBlocks) :
    ∃ rm cache, (cacheSync (some (s.rm c)) a).run s.cache = .ok (rm, cache) := by
  have hbudget := hsg.budget c hc
  have hop : opMaxNumBlocks = 10 := rfl
  have hmax : logMaxSize = 63 := rfl
  set n := (s.cache.heap a).blockNo with hn
  obtain ⟨rm, header, habs⟩ : ∃ rm header, s.cache.header.absorb (s.rm c) n = .ok (rm, header) := by
    by_cases hl : n ∈ s.cache.header.logged
    · exact ⟨_, _, LogHeader.absorb_logged hl (by omega)⟩
    · have hnodup : s.cache.header.logged.Nodup := hi.log.nodup
      rw [← hsg.logged c hc, Finset.card_insert_of_notMem (by simpa using hl),
        List.toFinset_card_of_nodup hnodup, LogHeader.length_logged] at hcard
      exact ⟨_, _, LogHeader.absorb_fresh hl (by omega) (by omega)⟩
  have hwp : wp (cacheSync (some (s.rm c)) a) (fun _ _ => True) (fun _ => False) s.cache := by
    refine Bcache.wp_cacheSync_some (fun e he => ?_) fun _ _ _ => trivial
    rw [← hn, habs] at he
    cases he
  obtain ⟨r, cache, hrun, -⟩ := exists_run_of_wp hwp
  exact ⟨r, cache, hrun⟩

/-- `cache_end_op` by the only running operation returns, and the device is the
map. -/
theorem endOp_returns (hroom : opMaxNumBlocks ≤ sb.numLogBlocks - 1) (hi : s.Inv sb)
    (ht : s.Tracks sb) (hsg : s.Single) (hc : c ∈ s.running) (hheld : s.held = ∅) :
    ∃ cache, (cacheEndOp sb).run s.cache = .ok ((), cache) ∧
      ∀ n, ¬ sb.InLog n → cache.device n = s.store sb n := by
  have hlog : 0 < sb.numLogBlocks := by
    have hop : opMaxNumBlocks = 10 := rfl
    omega
  have hone : s.running = {c} :=
    Finset.eq_singleton_iff_unique_mem.mpr
      ⟨hc, fun d hd => Finset.card_le_one.mp hsg.one d hd c hc⟩
  have hout : s.cache.log.outstanding = s.running.card := hi.log.outstanding
  have hlast : s.cache.log.outstanding - 1 = 0 := by
    rw [hout, hone]
    rfl
  have hcom : s.cache.log.committing = false := by
    by_contra hcom
    have hempty : s.running = ∅ := hi.log.committing (by simpa [toLog] using hcom)
    rw [hempty] at hc
    exact Finset.notMem_empty c hc
  have hsec : s.cache.log.endSection = .ok (true, ⟨true, s.cache.log.outstanding - 1⟩) := by
    rw [Log.endSection, if_neg (by simp [hcom]), if_pos hlast]
  -- the two sections as calls of the system
  set t : OpState := { s with
    cache := { s.cache with log := ⟨true, s.cache.log.outstanding - 1⟩ }
    running := s.running.erase c } with htdef
  have hstep : s.step sb (.endOp c) = some t := by
    simp only [step, if_pos hc, hsec]
    rfl
  have hit := inv_step hlog hi (l := .endOp c) trivial hstep
  have htt := tracks_step hlog ht hi (l := .endOp c) trivial (by simp) hstep
  have hct := hit.committable hlog (hsg.le.trans hroom)
  obtain ⟨u, cache, hrun, -⟩ := exists_run_of_wp (Bcache.wp_commitSection hct
    fun n _ a ha => by
      have hmem : a ∈ s.held := (hi.held_iff a).mpr ⟨n, ha⟩
      rw [hheld] at hmem
      exact Finset.notMem_empty a hmem)
  have hend : (cacheEndOp sb).run s.cache = .ok ((), cache) := by
    have hwp : wp (cacheEndOp sb) (fun _ r => r = cache) (fun _ => False) s.cache := by
      simp only [cacheEndOp, wp_bind, wp_get, hsec, wp_set, if_true]
      exact wp_of_run hrun rfl
    obtain ⟨_, r, hr, rfl⟩ := exists_run_of_wp hwp
    exact hr
  refine ⟨cache, hend, fun n hn => ?_⟩
  set v : OpState := { t with
    cache := cache
    commits := t.commits ++ [⟨t.cache.trace.length, t.syncs.length, t.cache.group⟩] } with hv
  have hstep' : t.step sb .commit = some v := by
    have hcomt : t.cache.log.committing = true := rfl
    simp only [step, if_pos hcomt, hrun]
    rfl
  have htv := tracks_commit hlog htt hit hct hstep'
  have hempty : v.cache.header.logged = [] := by
    rw [(step_commit hct hstep').2.1.header, LogHeader.logged_clear]
  have hdev := htv.device n hn (by simp [hempty])
  exact hdev.trans (congrFun (store_eq rfl rfl) n)

/-- `cache_begin_op` with no operation open returns. -/
theorem beginOp_returns (hi : s.Inv sb) (hsg : s.Single) (hrun : s.running = ∅)
    (hcom : s.cache.log.committing = false) :
    ∃ cache, cacheBeginOp.run s.cache = .ok (opMaxNumBlocks, cache) := by
  have hout : s.cache.log.outstanding = s.running.card := hi.log.outstanding
  have hsec : s.cache.log.beginSection s.cache.header
      = some { s.cache.log with outstanding := s.cache.log.outstanding + 1 } := by
    rw [Log.beginSection, if_neg (by simp [hcom]), if_neg]
    rw [hsg.idle hrun hcom, hout, hrun]
    decide
  have hwp : wp cacheBeginOp (fun rm _ => rm = opMaxNumBlocks) (fun _ => False) s.cache := by
    simp only [cacheBeginOp, wp_bind, wp_get, hsec]
    rfl
  obtain ⟨rm, cache, hr, rfl⟩ := exists_run_of_wp hwp
  exact ⟨cache, hr⟩

/-- In state `s` every call that a single client may make returns, and what it
sees is the map. -/
structure RefinesMap (sb : SuperBlock) (s : OpState) : Prop where
  acquire : ∀ n, ¬ sb.InLog n → (∀ a ∈ s.held, (s.cache.heap a).blockNo ≠ n) →
    ∃ a cache, (cacheAcquire n).run s.cache = .ok (a, cache) ∧
      (cache.heap a).blockNo = n ∧ (cache.heap a).data = s.store sb n
  release : ∀ a ∈ s.held, ∃ cache, (cacheRelease a).run s.cache = .ok ((), cache)
  beginOp : s.running = ∅ → s.cache.log.committing = false →
    ∃ cache, cacheBeginOp.run s.cache = .ok (opMaxNumBlocks, cache)
  sync : ∀ c ∈ s.running, ∀ a ∈ s.held,
    (insert (s.cache.heap a).blockNo (s.syncedBy c)).card ≤ opMaxNumBlocks →
    ∃ rm cache, (cacheSync (some (s.rm c)) a).run s.cache = .ok (rm, cache)
  endOp : ∀ c ∈ s.running, s.held = ∅ →
    ∃ cache, (cacheEndOp sb).run s.cache = .ok ((), cache) ∧
      ∀ n, ¬ sb.InLog n → cache.device n = s.store sb n

end OpState

/-- **The cache refines a map.**  After any run of a single client, over a log
area that holds the blocks of an operation: every call it may make returns,
`cache_acquire` returns a block with the number and the content of the last
sync, and `cache_end_op` leaves the device outside the log area equal to the
map. -/
theorem cache_refines_map (sb : SuperBlock) (hroom : opMaxNumBlocks ≤ sb.numLogBlocks - 1)
    (s : OpState) (h : (opSystem sb).Reachable (SingleClient sb) s) : s.RefinesMap sb := by
  obtain ⟨hi, ht, hsg⟩ := OpState.single_of_reachable hroom h
  refine ⟨fun n hn hidle => OpState.acquire_returns hi ht hn hidle, fun a ha => ?_,
    OpState.beginOp_returns hi hsg, fun c hc a _ hcard => OpState.sync_returns hi hsg hc hcard,
    fun c hc hheld => OpState.endOp_returns hroom hi ht hsg hc hheld⟩
  obtain ⟨n, hn⟩ := (hi.held_iff a).mp ha
  obtain ⟨_, cache, hrun, -⟩ := exists_run_of_wp (Bcache.wp_cacheRelease hi.wf hn)
  exact ⟨cache, hrun⟩

/-- A client of a blank disk that has synced one block in an operation, one more
with the null context, and holds a third. -/
theorem cache_refines_map_mkfs : ∃ s : OpState, s.syncs.length = 2 ∧ s.held.card = 1 ∧
    s.RefinesMap .mkfs := by
  have hrun : ((OpState.boot .mkfs OpState.blankDisk).bind fun s =>
      (opSystem .mkfs).exec (SingleClient .mkfs) s
        [.beginOp, .acquire 500, .modify 0 (.fill 7), .sync (some 0) 0, .release 0, .endOp 0,
          .commit, .acquire 501, .modify 2 (.fill 8), .sync none 2, .release 2, .acquire 500]).map
      (fun s => (s.syncs.length, s.held.card)) = some (2, 1) := by
    decide +kernel
  obtain ⟨s, hreach, -, hlen⟩ :=
    OpState.exists_reachable_of_exec (OpState.sound_blankDisk .mkfs) hrun
  exact ⟨s, (Prod.mk.inj hlen).1, (Prod.mk.inj hlen).2,
    cache_refines_map .mkfs (by decide) s hreach⟩

end OsLab
