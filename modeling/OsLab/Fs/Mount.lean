/-
A mounted file system, and crashes.

`Mount` is the inode layer over the block cache with its log.  Operations begin and end,
the calls of the inode layer run in them, the log is committed when the last one has
ended, and at any time the machine may crash and be restarted (`MountCall`).  A call of
the inode layer is one step.

* `HoldsFs` — the blocks of a disk are those of a file system;
* `mount_call` — a call does to the files what `FsCall.Spec` says, unless the context of
  its operation has no room for the blocks that it changes;
* `crash_files` — after a crash and any number of interrupted restarts the files are those
  of a commit, so that every operation is there as a whole or not at all.
-/
import OsLab.Fs.CachedFs

namespace OsLab

/-- The blocks hold a file system: the blocks before the data area are marked as used, and
of the data blocks those of the inodes in use. -/
structure HoldsFs (sb : SuperBlock) (v : ℕ → BlockData) : Prop where
  bits : ∀ n < sb.dataStart, bitOf sb v n = true
  consistent : Consistent sb (BlockStore.abs sb ⟨v, ∅⟩)

section Outside

variable {sb : SuperBlock} {v w : ℕ → BlockData} {i n : ℕ} {inode : Inode}

/-- The bits are not in the log area. -/
theorem bitOf_outside (ho : sb.Ordered) (hw : ∀ n, ¬ sb.InLog n → w n = v n)
    (hn : n ≤ sb.numBlocks) : bitOf sb w n = bitOf sb v n := by
  rw [bitOf, bitOf, hw _ (ho.served_bitmap (Nat.div_le_div_right hn)).1]

theorem diskEntry_outside (ho : sb.Ordered) (hw : ∀ n, ¬ sb.InLog n → w n = v n)
    (hi : i < sb.numInodes) : diskEntry sb w i = diskEntry sb v i := by
  rw [diskEntry, diskEntry, hw _ (ho.served_inodes (ho.toLayout.inInodes_toBlockNo hi)).1]

theorem inUse_outside (ho : sb.Ordered) (hw : ∀ n, ¬ sb.InLog n → w n = v n) :
    InUse sb w i ↔ InUse sb v i := by
  refine and_congr_right fun _ => and_congr_right fun hi => ?_
  rw [diskEntry_outside ho hw hi]

theorem liveEntry_outside (ho : sb.Ordered) (hw : ∀ n, ¬ sb.InLog n → w n = v n) :
    liveEntry sb w i = liveEntry sb v i := by
  rw [liveEntry, liveEntry]
  by_cases huse : InUse sb v i
  · rw [if_pos huse, if_pos ((inUse_outside ho hw).mpr huse), diskEntry_outside ho hw huse.2.1]
  · rw [if_neg huse, if_neg fun h => huse ((inUse_outside ho hw).mp h)]

theorem loaded_outside (ho : sb.Ordered) (hw : ∀ n, ¬ sb.InLog n → w n = v n)
    (h : Loaded sb v i inode) : Loaded sb w i inode where
  inodeNo := h.inodeNo
  inUse := (inUse_outside ho hw).mpr h.inUse
  valid := h.valid
  entry := by rw [h.entry, diskEntry_outside ho hw h.inUse.2.1]

theorem used_outside (ho : sb.Ordered) (hw : ∀ n, ¬ sb.InLog n → w n = v n) :
    BlockStore.used sb ⟨w, ∅⟩ = BlockStore.used sb ⟨v, ∅⟩ := by
  ext n
  rw [BlockStore.mem_used, BlockStore.mem_used]
  exact and_congr_right fun hn => by rw [bitOf_outside ho hw (Nat.le_of_lt hn.2)]

namespace HoldsFs

/-- The blocks of the inodes are not in the log area. -/
theorem undisturbed (h : HoldsFs sb v) (ho : sb.Ordered) (hw : ∀ n, ¬ sb.InLog n → w n = v n)
    (i : ℕ) : Undisturbed v w (liveEntry sb v i) := by
  refine undisturbed_of_view fun k hk => hw _ ?_
  have howns : Owns (slots (liveEntry sb v) v) (BlockStore.used sb ⟨v, ∅⟩) := h.consistent.owns
  have hmem : blockOf (liveEntry sb v i) v k ∈ BlockStore.used sb ⟨v, ∅⟩ :=
    (howns.mem _).mpr ⟨hk, (i, k), rfl⟩
  exact (ho.served_data (BlockStore.mem_used.mp hmem).1).1

/-- What is in the log area does not matter. -/
theorem congr (h : HoldsFs sb v) (ho : sb.Ordered) (hw : ∀ n, ¬ sb.InLog n → w n = v n) :
    HoldsFs sb w := by
  have hlive : liveEntry sb w = liveEntry sb v := funext fun i => liveEntry_outside ho hw
  refine ⟨fun n hn => ?_, rfl, ?_, fun i => ?_⟩
  · rw [bitOf_outside ho hw (Nat.le_of_lt (Nat.lt_of_lt_of_le hn ho.dataStart_le))]
    exact h.bits n hn
  · have howns : Owns (slots (liveEntry sb v) v) (BlockStore.used sb ⟨v, ∅⟩) := h.consistent.owns
    show Owns (slots (liveEntry sb w) w) (BlockStore.used sb ⟨w, ∅⟩)
    rw [used_outside ho hw, hlive]
    exact howns.congr fun k => (h.undisturbed ho hw k.1 k.2).1
  · have hmaps := h.consistent.maps i
    show Maps (liveEntry sb w i) w (fileBlocks (liveEntry sb w i).numBytes.toNat)
    rw [hlive]
    exact (h.undisturbed ho hw i).maps hmaps

theorem files_congr (h : HoldsFs sb v) (ho : sb.Ordered) (hw : ∀ n, ¬ sb.InLog n → w n = v n) :
    files sb w = files sb v := by
  funext i
  rw [files, files]
  by_cases huse : InUse sb v i
  · have hund := h.undisturbed ho hw i
    have hmaps : Maps (liveEntry sb v i) v (fileBlocks (liveEntry sb v i).numBytes.toNat) :=
      h.consistent.maps i
    rw [liveEntry_of_inUse huse] at hund hmaps
    rw [if_pos huse, if_pos ((inUse_outside ho hw).mpr huse), diskEntry_outside ho hw huse.2.1,
      hund.content hmaps]
  · rw [if_neg huse, if_neg fun h => huse ((inUse_outside ho hw).mp h)]

/-- A file system over the plain block store. -/
theorem fsInv (h : HoldsFs sb v) (ho : sb.Ordered) {inodes : ℕ → Option Inode} {l : List ℕ}
    (hload : ∀ i inode, inodes i = some inode → Loaded sb v i inode) :
    (plainCache sb ho).FsInv ⟨(⟨v, ∅⟩, l), inodes⟩ (BlockStore.abs sb ⟨v, ∅⟩) where
  store := ⟨⟨h.bits, fun n hn => absurd hn (Finset.notMem_empty n)⟩, rfl⟩
  consistent := h.consistent
  loaded := hload

theorem of_fsInv {ho : sb.Ordered} {s : FsState (BlockStore × List ℕ)} {A : MapState}
    (h : (plainCache sb ho).FsInv s A) :
    s.store.1.held = ∅ ∧ A.view = s.store.1.blocks ∧ HoldsFs sb s.store.1.blocks := by
  obtain rfl : s.store.1.abs sb = A := h.abs_eq
  have hheld : s.store.1.held = ∅ := h.consistent.held
  have hok : s.store.1.Ok sb := h.store.1
  refine ⟨hheld, rfl, hok.bits, ?_⟩
  have hstore : s.store.1 = ⟨s.store.1.blocks, ∅⟩ := by rw [← hheld]
  rw [← hstore]
  exact h.consistent

end HoldsFs

end Outside

/-! ### The machine -/

/-- The files at a commit, and the operations that were open then. -/
structure Snapshot where
  files : Files
  running : Finset ℕ

/-- The inode layer over the block cache. -/
structure Mount where
  fs : FsState OpState
  /-- the files since the last start: at the start, and at each commit -/
  saved : List Snapshot

/-- What happens to it. -/
inductive MountCall
  | beginOp
  | call (l : FsCall)
  | endOp (c : ℕ)
  | commit
  /-- a crash after `k` device writes; the restarts are stopped after so many writes of
  `init_bcache`, the last one is not -/
  | crash (k : ℕ) (restarts : List ℕ)

/-- The disk after restarts that are stopped. -/
def restartDisk (sb : SuperBlock) : (ℕ → BlockData) → List ℕ → Option (ℕ → BlockData)
  | D, [] => some D
  | D, k :: ks =>
    match initBcache sb D with
    | .ok c => restartDisk sb (writeAll D (c.trace.take k)) ks
    | .error _ => none

namespace Mount

variable (sb : SuperBlock)

/-- The block cache of the inode layer. -/
abbrev cache : BlockCache (StateT OpState (Except Fault)) := (cachedOps sb).withBitmap sb

/-- The files. -/
def files (s : Mount) : Files := OsLab.files sb (s.fs.store.store sb)

/-- How many data blocks are in use. -/
def usedBlocks (s : Mount) : ℕ := (BlockStore.used sb ⟨s.fs.store.store sb, ∅⟩).card

/-- The inode layer over a cache that has just been set up. -/
def start (x : OpState) : Mount :=
  ⟨⟨x, fun _ => none⟩, [⟨OsLab.files sb (x.store sb), x.running⟩]⟩

/-- The inode layer when the cache has changed. -/
def withStore (s : Mount) (x : OpState) : Mount := { s with fs := { s.fs with store := x } }

/-- One step; `none` when it sleeps or fails. -/
def step (s : Mount) : MountCall → Option Mount
  | .beginOp => (s.fs.store.step sb .beginOp).map s.withStore
  | .call l =>
    match (fsCall sb (cache sb) l).run s.fs with
    | .ok (_, t) => some { s with fs := t }
    | .error _ => none
  | .endOp c => (s.fs.store.step sb (.endOp c)).map s.withStore
  | .commit => (s.fs.store.step sb .commit).map fun x =>
      { s.withStore x with saved := s.saved ++ [⟨s.files sb, s.fs.store.running⟩] }
  | .crash k ks =>
    match restartDisk sb (s.fs.store.crashDisk k) ks with
    | some D => (OpState.boot sb D).map (start sb)
    | none => none

end Mount

/-- A file system that has just been mounted. -/
def mountSystem (sb : SuperBlock) : System Mount MountCall where
  init s := ∃ x, (opSystem sb).init x ∧ HoldsFs sb ((logFormat sb).logical x.disk) ∧
    s = Mount.start sb x
  step := Mount.step sb

/-- An inode is read only when its indirect block is not in the log: `inode_map` syncs it
with the null context. -/
def FsCall.Settled (s : FsState OpState) : FsCall → Prop
  | .read i _ _ => ∀ inode ∈ s.inodes i,
      inode.entry.indirect.toNat ∉ s.store.cache.header.logged
  | _ => True

/-- What is asked of the callers: the calls are allowed and fit, those that change the file
system are in an operation that is open, and a commit has room in the log area. -/
def Mount.Uses (sb : SuperBlock) (s : Mount) : MountCall → Prop
  | .call l => l.Allowed s.fs (s.files sb) ∧ l.Fits sb (s.usedBlocks sb) s.fs (s.files sb) ∧
      l.InOperation ∧ (∀ c ∈ l.context, c ∈ s.fs.store.running) ∧ l.Settled s.fs
  | .commit => s.fs.store.cache.header.numBlocks ≤ sb.numLogBlocks - 1
  | .beginOp | .endOp _ | .crash _ _ => True

namespace OpState

variable {sb : SuperBlock} {s t : OpState}

/-- At the start the map is what the log leaves of the disk. -/
theorem store_init (h : (opSystem sb).init s) : s.store sb = (logFormat sb).logical s.disk := by
  obtain ⟨-, -, -, -, -, hsyncs, -⟩ := h
  rw [store, hsyncs]
  rfl

/-- Later commits do not change what the first ones made. -/
theorem contentAfter_append {e : CommitEvent} {j : ℕ} (hdisk : t.disk = s.disk)
    (hcommits : t.commits = s.commits ++ [e]) (hj : j ≤ s.commits.length) :
    t.contentAfter sb j = s.contentAfter sb j := by
  rw [contentAfter, contentAfter, hdisk, hcommits, List.take_append_of_le_length hj]

/-- When nothing is logged, the commits have made the disk what the map is. -/
theorem contentAfter_eq_store (hlog : 0 < sb.numLogBlocks) (ht : s.Tracks sb) (hd : s.Durable sb)
    (hempty : s.cache.header.logged = []) (n : ℕ) (hn : ¬ sb.InLog n) :
    s.contentAfter sb s.commits.length n = s.store sb n := by
  rw [← hd.content n (outside_of_not_inLog hlog hn)]
  exact ht.device n hn (by rw [hempty]; exact List.not_mem_nil)

end OpState

namespace Mount

variable {sb : SuperBlock} {s t : Mount} {l : FsCall}

/-- What holds between the steps. -/
structure Good (sb : SuperBlock) (s : Mount) : Prop where
  inv : s.fs.store.Inv sb
  tracks : s.fs.store.Tracks sb
  durable : s.fs.store.Durable sb
  held : s.fs.store.held = ∅
  holds : HoldsFs sb (s.fs.store.store sb)
  loaded : ∀ i inode, s.fs.inodes i = some inode → Loaded sb (s.fs.store.store sb) i inode
  length : s.saved.length = s.fs.store.commits.length + 1
  saved : ∀ j (hj : j < s.saved.length), HoldsFs sb (s.fs.store.contentAfter sb j) ∧
    OsLab.files sb (s.fs.store.contentAfter sb j) = s.saved[j].files ∧ s.saved[j].running = ∅

theorem Good.dirty (h : s.Good sb) : s.fs.store.dirty = ∅ :=
  Finset.subset_empty.mp (h.held ▸ h.inv.dirty)

/-- The files after a restart. -/
theorem good_start (hlog : 0 < sb.numLogBlocks) {x : OpState} (hx : (opSystem sb).init x)
    (hfs : HoldsFs sb ((logFormat sb).logical x.disk)) : (start sb x).Good sb := by
  have hstore := OpState.store_init hx
  obtain ⟨-, -, hrun, hheld, -, -, hcommits⟩ := id hx
  refine
    { inv := OpState.inv_init hx, tracks := OpState.tracks_init hlog hx
      durable := OpState.durable_init hx, held := hheld, holds := ?_
      loaded := fun i inode hi => by cases hi
      length := ?_, saved := fun j hj => ?_ }
  · show HoldsFs sb (x.store sb)
    rwa [hstore]
  · show 1 = x.commits.length + 1
    rw [hcommits]
    rfl
  · have hcontent : x.contentAfter sb j = (logFormat sb).logical x.disk := by
      simp [OpState.contentAfter, hcommits]
    obtain rfl : j = 0 := Nat.lt_one_iff.mp hj
    show HoldsFs sb (x.contentAfter sb 0) ∧ OsLab.files sb (x.contentAfter sb 0)
      = OsLab.files sb (x.store sb) ∧ x.running = ∅
    rw [hcontent, hstore]
    exact ⟨hfs, rfl, hrun⟩

/-- A call that changes no block and commits nothing. -/
theorem Good.withStore (h : s.Good sb) {x : OpState} (hinv : x.Inv sb) (htracks : x.Tracks sb)
    (hdurable : x.Durable sb) (hheld : x.held = s.fs.store.held)
    (hdisk : x.disk = s.fs.store.disk) (hsyncs : x.syncs = s.fs.store.syncs)
    (hcommits : x.commits = s.fs.store.commits) : (s.withStore x).Good sb := by
  have hstore : x.store sb = s.fs.store.store sb := OpState.store_eq hdisk hsyncs
  have hcontent : ∀ j, x.contentAfter sb j = s.fs.store.contentAfter sb j := fun j => by
    rw [OpState.contentAfter, OpState.contentAfter, hdisk, hcommits]
  refine
    { inv := hinv, tracks := htracks, durable := hdurable, held := hheld.trans h.held
      holds := ?_, loaded := fun i inode hi => ?_, length := ?_, saved := fun j hj => ?_ }
  · show HoldsFs sb (x.store sb)
    rw [hstore]
    exact h.holds
  · show Loaded sb (x.store sb) i inode
    rw [hstore]
    exact h.loaded i inode hi
  · show s.saved.length = x.commits.length + 1
    rw [hcommits]
    exact h.length
  · show HoldsFs sb (x.contentAfter sb j) ∧ OsLab.files sb (x.contentAfter sb j)
      = s.saved[j].files ∧ s.saved[j].running = ∅
    rw [hcontent]
    exact h.saved j hj

theorem good_beginOp (hlog : 0 < sb.numLogBlocks) (h : s.Good sb)
    (hs : s.step sb .beginOp = some t) : t.Good sb := by
  obtain ⟨x, hx, rfl⟩ := Option.map_eq_some_iff.mp hs
  obtain ⟨log, -, heq⟩ := OpState.step_beginOp hx
  refine h.withStore (OpState.inv_step hlog h.inv (l := .beginOp) trivial hx)
    (OpState.tracks_step hlog h.tracks h.inv (l := .beginOp) trivial (by simp) hx)
    (OpState.durable_step hlog h.durable h.inv (l := .beginOp) trivial hx) ?_ ?_ ?_ ?_ <;> rw [heq]

theorem good_endOp (hlog : 0 < sb.numLogBlocks) (h : s.Good sb) {c : ℕ}
    (hs : s.step sb (.endOp c) = some t) : t.Good sb := by
  obtain ⟨x, hx, rfl⟩ := Option.map_eq_some_iff.mp hs
  obtain ⟨-, doCommit, log, -, heq⟩ := OpState.step_endOp hx
  refine h.withStore (OpState.inv_step hlog h.inv (l := .endOp c) trivial hx)
    (OpState.tracks_step hlog h.tracks h.inv (l := .endOp c) trivial (by simp) hx)
    (OpState.durable_step hlog h.durable h.inv (l := .endOp c) trivial hx) ?_ ?_ ?_ ?_ <;> rw [heq]

/-- A commit saves the files as they are; no operation is open. -/
theorem good_commit (ho : sb.Ordered) (hlog : 0 < sb.numLogBlocks) (h : s.Good sb)
    (hu : s.Uses sb .commit) (hs : s.step sb .commit = some t) : t.Good sb := by
  obtain ⟨x, hx, rfl⟩ := Option.map_eq_some_iff.mp hs
  have hproper : Proper sb s.fs.store .commit := hu
  obtain ⟨hcom, hc, heq⟩ := OpState.step_commit (h.inv.committable hlog hproper) hx
  have hinv : x.Inv sb := OpState.inv_step hlog h.inv hproper hx
  have htracks : x.Tracks sb := OpState.tracks_step hlog h.tracks h.inv hproper (by simp) hx
  have hdurable : x.Durable sb :=
    OpState.durable_step hlog h.durable h.inv (l := .commit) hproper hx
  have hdisk : x.disk = s.fs.store.disk := by rw [heq]
  have hcommits : x.commits = s.fs.store.commits
      ++ [⟨s.fs.store.cache.trace.length, s.fs.store.syncs.length, s.fs.store.cache.group⟩] := by
    rw [heq]
  have hlen : x.commits.length = s.fs.store.commits.length + 1 := by
    rw [hcommits, List.length_append, List.length_singleton]
  have hstore : x.store sb = s.fs.store.store sb := OpState.store_eq hdisk (by rw [heq])
  have hempty : x.cache.header.logged = [] := by
    rw [hc.header, LogHeader.logged]
    rfl
  have hrun : s.fs.store.running = ∅ := h.inv.log.committing hcom
  -- the blocks after this commit
  have hnew : ∀ n, ¬ sb.InLog n →
      x.contentAfter sb x.commits.length n = s.fs.store.store sb n := fun n hn => by
    rw [OpState.contentAfter_eq_store hlog htracks hdurable hempty n hn, hstore]
  refine
    { inv := hinv, tracks := htracks, durable := hdurable, held := ?_
      holds := ?_, loaded := fun i inode hi => ?_, length := ?_, saved := fun j hj => ?_ }
  · show x.held = ∅
    rw [heq]
    exact h.held
  · show HoldsFs sb (x.store sb)
    rw [hstore]
    exact h.holds
  · show Loaded sb (x.store sb) i inode
    rw [hstore]
    exact h.loaded i inode hi
  · show (s.saved ++ [_]).length = x.commits.length + 1
    rw [List.length_append, h.length, hlen, List.length_singleton]
  · have hsaved : ∀ p, (s.saved ++ [(⟨s.files sb, s.fs.store.running⟩ : Snapshot)])[j]? = some p →
        HoldsFs sb (x.contentAfter sb j) ∧
          OsLab.files sb (x.contentAfter sb j) = p.files ∧ p.running = ∅ := by
      intro p hp
      by_cases hold : j < s.saved.length
      · rw [List.getElem?_append_left hold, List.getElem?_eq_getElem hold] at hp
        obtain rfl := Option.some.inj hp
        rw [OpState.contentAfter_append hdisk hcommits (by have := h.length; omega)]
        exact h.saved j hold
      · have hlt : j < (s.saved ++ [(⟨s.files sb, s.fs.store.running⟩ : Snapshot)]).length := hj
        rw [List.length_append, List.length_singleton] at hlt
        obtain rfl : j = s.saved.length := by omega
        rw [List.getElem?_append_right (Nat.le_refl _), Nat.sub_self] at hp
        obtain rfl := Option.some.inj hp
        rw [h.length, ← hlen]
        exact ⟨h.holds.congr ho hnew, h.holds.files_congr ho hnew, hrun⟩
    exact hsaved _ (List.getElem?_eq_getElem hj)

/-! ### The calls -/

/-- The cache before a call of the inode layer. -/
theorem Good.sim (h : s.Good sb) {ctx : Option ℕ} (hctx : ∀ c ∈ ctx, c ∈ s.fs.store.running) :
    CacheSim sb ctx s.fs.store (fun _ => .free) (⟨s.fs.store.store sb, ∅⟩, []) s.fs.store where
  inv := h.inv
  tracks := h.tracks
  durable := h.durable
  use :=
    { running := rfl, commits := rfl, disk := rfl, nextOp := rfl, log := rfl
      null := fun _ => ⟨rfl, rfl⟩, logged := fun n => by simp
      op := fun c hc => ⟨hctx c hc, by simp⟩ }
  grip n := by simp
  held n := by
    refine iff_of_false (Finset.notMem_empty n) ?_
    rintro ⟨a, ha⟩
    have hmem := (h.inv.held_iff a).mpr ⟨n, ha⟩
    rw [h.held] at hmem
    exact absurd hmem (Finset.notMem_empty a)
  data n a ha := by
    have hmem := (h.inv.held_iff a).mpr ⟨n, ha⟩
    rw [h.held] at hmem
    exact absurd hmem (Finset.notMem_empty a)
  dirty n a ha hd := by
    rw [h.dirty] at hd
    exact absurd hd (Finset.notMem_empty a)
  idle n hn _ := rfl

/-- A call over the cache does what it does over the plain block store, or it panics since the
context of its operation is used up. -/
theorem Good.call (h : s.Good sb) (ho : sb.Ordered) (hlog : 0 < sb.numLogBlocks)
    (hu : s.Uses sb (.call l)) :
    ∃ r t B, (fsCall sb (plainCache sb ho).cache l).run
        ⟨(⟨s.fs.store.store sb, ∅⟩, []), s.fs.inodes⟩ = .ok (r, t) ∧
      (plainCache sb ho).FsInv t B ∧ l.Spec (s.files sb) r (OsLab.files sb B.view) ∧
      ((∃ u, (fsCall sb (cache sb) l).run s.fs = .ok (r, u) ∧ u.inodes = t.inodes ∧
          CacheSim sb l.context s.fs.store (fun _ => .free) t.store u.store) ∨
        (fsCall sb (cache sb) l).run s.fs = .error .panic ∧
          Overdrawn s.fs.store l.context t.store) := by
  obtain ⟨hallow, hfits, hop, hctx, hsettled⟩ := hu
  have hA := h.holds.fsInv ho (l := []) h.loaded
  obtain ⟨r, t, hrun, B, hB, hspec⟩ := exists_run_of_wp (wp_mono
    (MapCache.wp_fsCall ho.toLayout hA (l := l) (by cases l <;> exact hallow))
    (fun _ _ hq => hq) fun _ he => he (by cases l <;> exact hfits))
  refine ⟨r, t, B, hrun, hB, hspec, ?_⟩
  rw [show (plainCache sb ho).cache = (plainOps sb).withBitmap sb from rfl, run_fsCall] at hrun
  rw [run_fsCall]
  cases hpick : l.pick sb s.fs.inodes with
  | error e =>
    rw [hpick] at hrun
    cases hrun
  | ok inode =>
    rw [hpick] at hrun
    rw [except_ok_bind] at hrun ⊢
    have hread : ∀ i offset count, l = .read i offset count →
        inode.entry.indirect.toNat ∉ s.fs.store.cache.header.logged := by
      rintro i offset count rfl
      refine hsettled inode ?_
      rw [FsCall.pick] at hpick
      cases hinode : s.fs.inodes i with
      | none =>
        rw [hinode] at hpick
        cases hpick
      | some jnode =>
        rw [hinode] at hpick
        cases hpick
        rfl
    have htidy : Tidy l.context (fun n => n ∉ s.fs.store.cache.header.logged) (l.prog sb inode) :=
      tidy_prog hop hread
    cases hprog : ((l.prog sb inode).interp (plainOps sb).answer).run
        (⟨s.fs.store.store sb, ∅⟩, []) with
    | error e =>
      dsimp only at hrun
      rw [hprog] at hrun
      cases hrun
    | ok p =>
      dsimp only at hrun
      rw [hprog] at hrun
      cases hrun
      rcases Prog.simulates (cachedOps_simulates hlog l.context s.fs.store)
          (fun c r s s' hr hover => by
            obtain ⟨m, hm⟩ := plain_run_grows hr
            exact hover.mono hm)
          (htidy.follows fun _ => .free) (h.sim hctx) hprog with
        ⟨y, e, hy, he, hsim⟩ | ⟨hpanic, hover⟩
      · rw [hy]
        obtain rfl : e = fun _ => Grip.free := he
        exact .inl ⟨_, rfl, rfl, hsim⟩
      · rw [hpanic]
        exact .inr ⟨rfl, hover⟩

/-- What a call leaves. -/
theorem Good.after (h : s.Good sb) (ho : sb.Ordered) {ctx : Option ℕ} {B : MapState}
    {x : FsState (BlockStore × List ℕ)} {u : FsState OpState}
    (hx : (plainCache sb ho).FsInv x B) (hinodes : u.inodes = x.inodes)
    (hsim : CacheSim sb ctx s.fs.store (fun _ => .free) x.store u.store) :
    ({ s with fs := u } : Mount).Good sb ∧
      OsLab.files sb (u.store.store sb) = OsLab.files sb B.view := by
  obtain ⟨hheld, hview, hfs⟩ := HoldsFs.of_fsInv hx
  have hw : ∀ n, ¬ sb.InLog n → u.store.store sb n = x.store.1.blocks n := fun n hn =>
    (hsim.idle n hn (by rw [hheld]; exact Finset.notMem_empty n)).symm
  have hcontent : ∀ j, u.store.contentAfter sb j = s.fs.store.contentAfter sb j := fun j => by
    rw [OpState.contentAfter, OpState.contentAfter, hsim.use.disk, hsim.use.commits]
  refine ⟨
    { inv := hsim.inv, tracks := hsim.tracks, durable := hsim.durable, held := ?_
      holds := hfs.congr ho hw, loaded := fun i inode hi => ?_, length := ?_
      saved := fun j hj => ?_ }, ?_⟩
  · refine Finset.eq_empty_of_forall_notMem fun a ha => ?_
    obtain ⟨n, hn⟩ := (hsim.inv.held_iff a).mp ha
    exact absurd rfl ((hsim.grip n).mpr ((hsim.held n).mpr ⟨a, hn⟩))
  · have hi' : x.inodes i = some inode := hinodes ▸ hi
    have hload := hx.loaded i inode hi'
    rw [hview] at hload
    exact loaded_outside ho hw hload
  · show s.saved.length = u.store.commits.length + 1
    rw [hsim.use.commits]
    exact h.length
  · show HoldsFs sb (u.store.contentAfter sb j) ∧ OsLab.files sb (u.store.contentAfter sb j)
      = s.saved[j].files ∧ s.saved[j].running = ∅
    rw [hcontent]
    exact h.saved j hj
  · rw [hview]
    exact hfs.files_congr ho hw

theorem good_call (ho : sb.Ordered) (hlog : 0 < sb.numLogBlocks) (h : s.Good sb)
    (hu : s.Uses sb (.call l)) (hs : s.step sb (.call l) = some t) : t.Good sb := by
  obtain ⟨r, x, B, -, hx, -, hcall⟩ := h.call ho hlog hu
  simp only [step] at hs
  rcases hcall with ⟨u, hu, hinodes, hsim⟩ | ⟨hpanic, -⟩
  · rw [hu] at hs
    cases hs
    exact (h.after ho hx hinodes hsim).1
  · rw [hpanic] at hs
    cases hs

/-! ### Crashes -/

end Mount

/-- The restarts leave a sound log with the same content. -/
theorem Restarts.logical {sb : SuperBlock} {D D' : ℕ → BlockData} (h : Restarts sb D D')
    (hD : (logFormat sb).Sound D) : (logFormat sb).Sound D' ∧
      ∀ n, (logFormat sb).Outside n → (logFormat sb).logical D' n = (logFormat sb).logical D n := by
  induction h with
  | crash D => exact ⟨hD, fun _ _ => rfl⟩
  | again k hrun _ ih =>
    obtain ⟨c, hrun', hboot⟩ := Bcache.initBcache_spec hD
    obtain rfl := Except.ok.inj (hrun.symm.trans hrun')
    rw [hboot.trace] at ih
    obtain ⟨hsound, hsame⟩ := RedoLog.logical_replay_take hD k
    obtain ⟨hsound', hsame'⟩ := ih hsound
    exact ⟨hsound', fun n hn => (hsame' n hn).trans (hsame n hn)⟩

theorem exists_restartDisk {sb : SuperBlock} {D : ℕ → BlockData} (hD : (logFormat sb).Sound D)
    (ks : List ℕ) : ∃ D', restartDisk sb D ks = some D' ∧ Restarts sb D D' := by
  induction ks generalizing D with
  | nil => exact ⟨D, rfl, .crash D⟩
  | cons k ks ih =>
    obtain ⟨c, hrun, hboot⟩ := Bcache.initBcache_spec hD
    obtain ⟨hsound, -⟩ := RedoLog.logical_replay_take hD k
    rw [← hboot.trace] at hsound
    obtain ⟨D', hD', hre⟩ := ih hsound
    refine ⟨D', ?_, .again k hrun hre⟩
    rw [restartDisk, hrun]
    exact hD'

namespace Mount

variable {sb : SuperBlock} {s t : Mount}

/-- The state after a crash: the files are those of snapshot `j`. -/
structure Survivor (sb : SuperBlock) (s : Mount) (k : ℕ) (t : Mount) (j : ℕ) : Prop where
  init : (mountSystem sb).init t
  lt : j < s.saved.length
  files : ∀ p, s.saved[j]? = some p → t.files sb = p.files ∧ p.running = ∅
  committed : ∀ i (hi : i < s.fs.store.commits.length),
    s.fs.store.commits[i].headerWrite < k → i < j

theorem Good.crash (h : s.Good sb) (ho : sb.Ordered) (hlog : 0 < sb.numLogBlocks) (k : ℕ)
    (ks : List ℕ) : ∃ t j, s.step sb (.crash k ks) = some t ∧ s.Survivor sb k t j := by
  obtain ⟨hsound, j, hj⟩ := h.durable.crash k
  obtain ⟨D, hD, hre⟩ := exists_restartDisk hsound ks
  obtain ⟨hsound', hsame⟩ := hre.logical hsound
  obtain ⟨c, hboot, -⟩ := hre.recovers hsound
  have hx : OpState.boot sb D = some ⟨c, ∅, fun _ => 0, 0, ∅, ∅, D, [], []⟩ := by
    rw [OpState.boot, hboot]
  set x : OpState := ⟨c, ∅, fun _ => 0, 0, ∅, ∅, D, [], []⟩ with hxdef
  obtain ⟨hinit, hdisk⟩ := OpState.init_of_boot hsound' hx
  have hlt : j < s.saved.length := by
    have := hj.le
    have := h.length
    omega
  obtain ⟨hfs, hfiles, hrun⟩ := h.saved j hlt
  have hw : ∀ n, ¬ sb.InLog n →
      (logFormat sb).logical x.disk n = s.fs.store.contentAfter sb j n := fun n hn => by
    have hout := outside_of_not_inLog hlog hn
    rw [hdisk, hsame n hout, hj.content n hout]
  refine ⟨start sb x, j, ?_,
    { init := ⟨x, hinit, hfs.congr ho hw, rfl⟩, lt := hlt, files := fun p hp => ?_
      committed := hj.committed }⟩
  · simp only [step]
    rw [hD]
    show (OpState.boot sb D).map (start sb) = _
    rw [hx]
    rfl
  · rw [List.getElem?_eq_getElem hlt] at hp
    obtain rfl := Option.some.inj hp
    refine ⟨?_, hrun⟩
    show OsLab.files sb (x.store sb) = _
    rw [OpState.store_init hinit, hfs.files_congr ho hw, hfiles]

theorem good_step (ho : sb.Ordered) (hlog : 0 < sb.numLogBlocks) {l : MountCall} (h : s.Good sb)
    (hu : s.Uses sb l) (hs : s.step sb l = some t) : t.Good sb := by
  cases l with
  | beginOp => exact good_beginOp hlog h hs
  | call l => exact good_call ho hlog h hu hs
  | endOp c => exact good_endOp hlog h hs
  | commit => exact good_commit ho hlog h hu hs
  | crash k ks =>
    obtain ⟨u, j, hu, hj⟩ := h.crash ho hlog k ks
    obtain rfl := Option.some.inj (hs.symm.trans hu)
    obtain ⟨x, hx, hfs, rfl⟩ := hj.init
    exact good_start hlog hx hfs

theorem good_of_reachable (ho : sb.Ordered) (hlog : 0 < sb.numLogBlocks)
    (h : (mountSystem sb).Reachable (Uses sb) s) : s.Good sb :=
  h.induction (fun _ ⟨_, hx, hfs, hs⟩ => hs ▸ good_start hlog hx hfs)
    fun _ _ _ hi hu hs => good_step ho hlog hi hu hs

end Mount

/-! ### The results -/

/-- The abstract file system: the files, and those that a crash may bring back. -/
structure AtomicFs where
  files : Files
  saved : List Files

/-- The steps of the abstract file system. -/
inductive AtomicFs.Step : AtomicFs → MountCall → AtomicFs → Prop
  | beginOp (a) : Step a .beginOp a
  | call (a) (l : FsCall) (r : FsResult) (f : Files) : l.Spec a.files r f →
      Step a (.call l) { a with files := f }
  | endOp (a) (c : ℕ) : Step a (.endOp c) a
  | commit (a) : Step a .commit { a with saved := a.saved ++ [a.files] }
  | crash (a) (k : ℕ) (ks : List ℕ) (f : Files) : f ∈ a.saved → Step a (.crash k ks) ⟨f, [f]⟩

/-- The mounted file system as its files. -/
def Mount.abs (sb : SuperBlock) (s : Mount) : AtomicFs := ⟨s.files sb, s.saved.map Snapshot.files⟩

section Decidable

variable {sb : SuperBlock}

instance {σ : Type} (used : ℕ) (s : FsState σ) (f : Files) (l : FsCall) :
    Decidable (l.Fits sb used s f) :=
  match l with
  | .alloc _ type =>
    have : Decidable (∃ i, 0 < i ∧ i < sb.numInodes ∧ f i = none) :=
      decidable_of_iff (∃ i < sb.numInodes, 0 < i ∧ f i = none)
        (exists_congr fun _ => and_left_comm)
    inferInstanceAs (Decidable (type ≠ inodeInvalid ∧ _))
  | .get _ => inferInstanceAs (Decidable True)
  | .write _ i src offset =>
    inferInstanceAs (Decidable (s.inodes i ≠ none ∧ ∃ l ∈ f i, offset ≤ l.length ∧
      offset + src.length ≤ inodeMaxBytes ∧ used + blocksFor (max l.length (offset + src.length))
        ≤ sb.numDataBlocks + blocksFor l.length))
  | .read i offset count =>
    inferInstanceAs (Decidable (s.inodes i ≠ none ∧ ∃ l ∈ f i, offset ≤ l.length ∧
      offset + count < usizeSize))
  | .clear _ i | .put _ i => inferInstanceAs (Decidable (s.inodes i ≠ none))

instance (l : FsCall) : Decidable l.InOperation :=
  match l with
  | .get _ | .read _ _ _ => inferInstanceAs (Decidable True)
  | .alloc ctx _ | .clear ctx _ | .put ctx _ => inferInstanceAs (Decidable (ctx ≠ none))
  | .write op _ _ _ => inferInstanceAs (Decidable (some op ≠ none))

instance (s : FsState OpState) (l : FsCall) : Decidable (l.Settled s) :=
  match l with
  | .read i _ _ => inferInstanceAs (Decidable (∀ inode ∈ s.inodes i, _ ∉ _))
  | .alloc _ _ | .get _ | .write _ _ _ _ | .clear _ _ | .put _ _ => inferInstanceAs (Decidable True)

instance (s : Mount) (l : MountCall) : Decidable (s.Uses sb l) :=
  match l with
  | .call l => inferInstanceAs (Decidable (l.Allowed s.fs (s.files sb) ∧ _ ∧ _ ∧ _ ∧ _))
  | .commit => inferInstanceAs (Decidable (_ ≤ _))
  | .beginOp | .endOp _ | .crash _ _ => inferInstanceAs (Decidable True)

end Decidable

/-- A call has a result and new files as `FsCall.Spec` says, with a list of blocks to sync,
as over the plain block store.  It does so over the cache when its operation has room for
those blocks of the list that the log does not have yet, and enters them in the log;
otherwise it panics. -/
def Mount.CallRefines (sb : SuperBlock) (ho : sb.Ordered) (s : Mount) (l : FsCall) : Prop :=
  ∃ r f t, (fsCall sb (plainCache sb ho).cache l).run
      ⟨(⟨s.fs.store.store sb, ∅⟩, []), s.fs.inodes⟩ = .ok (r, t) ∧ l.Spec (s.files sb) r f ∧
    let logged := s.fs.store.cache.header.logged
    let fresh := t.store.2.toFinset \ logged.toFinset
    ((∀ c ∈ l.context, fresh.card ≤ s.fs.store.rm c) → ∃ u,
      (fsCall sb (Mount.cache sb) l).run s.fs = .ok (r, u) ∧
      OsLab.files sb (u.store.store sb) = f ∧ u.inodes = t.inodes ∧
      (∀ n, n ∈ u.store.cache.header.logged ↔ n ∈ logged ∨ n ∈ fresh) ∧
      ∀ c ∈ l.context, u.store.rm c = s.fs.store.rm c - fresh.card) ∧
    ((∃ c ∈ l.context, s.fs.store.rm c < fresh.card) →
      (fsCall sb (Mount.cache sb) l).run s.fs = .error .panic)

/-- **A call over the cache.**  In every state of a mounted file system that a run of calls which
`Mount.Uses` allows reaches, a call that it allows does over the block cache what it does over
the plain block store, as long as its operation has room in the log; without room it panics. -/
theorem mount_call (sb : SuperBlock) (ho : sb.Ordered) (hlog : 0 < sb.numLogBlocks) (s : Mount)
    (h : (mountSystem sb).Reachable (Mount.Uses sb) s) (l : FsCall) (hu : s.Uses sb (.call l)) :
    s.CallRefines sb ho l := by
  have hs := Mount.good_of_reachable ho hlog h
  obtain ⟨r, t, B, hrun, hB, hspec, hcall⟩ := hs.call ho hlog hu
  refine ⟨r, files sb B.view, t, hrun, hspec, ?_⟩
  intro logged fresh
  rcases hcall with ⟨u, hok, hinodes, hsim⟩ | ⟨hpanic, c, hc, hover⟩
  · have hrm : ∀ c ∈ l.context, u.store.rm c + fresh.card = s.fs.store.rm c := fun c hc =>
      (hsim.use.op c hc).2
    have hfiles := (hs.after ho hB hinodes hsim).2
    refine ⟨fun _ => ⟨u, hok, hfiles, hinodes, fun n => ?_, fun c hc => ?_⟩, ?_⟩
    · rw [hsim.use.logged n, Finset.mem_sdiff, List.mem_toFinset, List.mem_toFinset]
      tauto
    · have := hrm c hc
      omega
    · rintro ⟨c, hc, hlt⟩
      have := hrm c hc
      omega
  · exact ⟨fun hfits => absurd (hfits c hc) (Nat.not_le.mpr hover), fun _ => hpanic⟩

/-- **Crashes.**  At any point of any run that `Mount.Uses` allows, crashes included, a crash
after `k` device writes and any number of interrupted restarts bring the file system up again,
with no inode in memory and with the files of a commit since the last start, or those at that
start; no operation was open then, and every commit whose header write is among the `k` writes
is that one or an older one. -/
theorem crash_files (sb : SuperBlock) (ho : sb.Ordered) (hlog : 0 < sb.numLogBlocks) (s : Mount)
    (h : (mountSystem sb).Reachable (Mount.Uses sb) s) (k : ℕ) (ks : List ℕ) :
    s.saved.length = s.fs.store.commits.length + 1 ∧
    (∀ i (hi : i < s.fs.store.commits.length), ∃ b,
      s.fs.store.cache.trace[s.fs.store.commits[i].headerWrite]? = some (sb.logStart, b)) ∧
    ∃ t j, s.step sb (.crash k ks) = some t ∧ s.Survivor sb k t j := by
  have hs := Mount.good_of_reachable ho hlog h
  refine ⟨hs.length, fun i hi => ?_, hs.crash ho hlog k ks⟩
  obtain ⟨b, hb, -⟩ := hs.durable.header _ (List.getElem_mem hi)
  exact ⟨b, hb⟩

/-- **Atomicity.**  Every step of a mounted file system, in a run that `Mount.Uses` allows, is a
step of the abstract file system on the files. -/
theorem mount_atomic (sb : SuperBlock) (ho : sb.Ordered) (hlog : 0 < sb.numLogBlocks) (s t : Mount)
    (h : (mountSystem sb).Reachable (Mount.Uses sb) s) (l : MountCall) (hu : s.Uses sb l)
    (hs : (mountSystem sb).step s l = some t) : (s.abs sb).Step l (t.abs sb) := by
  have hg := Mount.good_of_reachable ho hlog h
  have hstep : s.step sb l = some t := hs
  cases l with
  | beginOp =>
    obtain ⟨x, hx, rfl⟩ := Option.map_eq_some_iff.mp hstep
    obtain ⟨log, -, rfl⟩ := OpState.step_beginOp hx
    exact .beginOp _
  | call l =>
    obtain ⟨r, x, B, -, hB, hspec, hcall⟩ := hg.call ho hlog hu
    simp only [Mount.step] at hstep
    rcases hcall with ⟨u, hok, hinodes, hsim⟩ | ⟨hpanic, -⟩
    · rw [hok] at hstep
      cases hstep
      have hfiles := (hg.after ho hB hinodes hsim).2
      rw [← hfiles] at hspec
      exact .call _ l r _ hspec
    · rw [hpanic] at hstep
      cases hstep
  | endOp c =>
    obtain ⟨x, hx, rfl⟩ := Option.map_eq_some_iff.mp hstep
    obtain ⟨-, doCommit, log, -, rfl⟩ := OpState.step_endOp hx
    exact .endOp _ c
  | commit =>
    obtain ⟨x, hx, rfl⟩ := Option.map_eq_some_iff.mp hstep
    obtain ⟨-, -, hx⟩ := OpState.step_commit (hg.inv.committable hlog hu) hx
    have hfiles : files sb (x.store sb) = s.files sb :=
      congrArg (files sb) (OpState.store_eq (by rw [hx]) (by rw [hx]))
    have habs : Mount.abs sb { s.withStore x with
        saved := s.saved ++ [⟨s.files sb, s.fs.store.running⟩] }
        = { s.abs sb with saved := (s.abs sb).saved ++ [(s.abs sb).files] } := by
      show AtomicFs.mk (files sb (x.store sb)) ((s.saved ++ [_]).map Snapshot.files) = _
      rw [hfiles, List.map_append]
      rfl
    rw [habs]
    exact .commit _
  | crash k ks =>
    obtain ⟨u, j, hu, hj⟩ := hg.crash ho hlog k ks
    obtain rfl := Option.some.inj (hstep.symm.trans hu)
    obtain ⟨hfiles, -⟩ := hj.files _ (List.getElem?_eq_getElem hj.lt)
    obtain ⟨x, -, -, rfl⟩ := hj.init
    show AtomicFs.Step _ _ ⟨(Mount.start sb x).files sb, [(Mount.start sb x).files sb]⟩
    rw [hfiles]
    exact .crash _ k ks _ (List.mem_map.mpr ⟨_, List.getElem_mem hj.lt, rfl⟩)

/-! ### A run -/

/-- A disk with three data blocks and a log of five. -/
def SuperBlock.small : SuperBlock where
  numBlocks := 12
  numDataBlocks := 3
  numInodes := 3
  numLogBlocks := 6
  logStart := 1
  inodeStart := 7
  bitmapStart := 8

theorem SuperBlock.ordered_small : SuperBlock.small.Ordered :=
  ⟨⟨by decide, by decide, by decide, by decide⟩, by decide⟩

/-- A blank disk holds a file system without inodes. -/
theorem init_small {x : OpState} (h : OpState.boot .small (FsState.blankBlocks .small) = some x) :
    (mountSystem .small).init (Mount.start .small x) := by
  have hempty : (logFormat .small).targets (FsState.blankBlocks .small 1) = [] := by decide +kernel
  have hsound : (logFormat .small).Sound (FsState.blankBlocks .small) := by
    rw [RedoLog.Sound, show (logFormat .small).head = 1 from rfl, hempty]
    exact ⟨Nat.zero_le _, fun n hn => absurd hn List.not_mem_nil⟩
  obtain ⟨hinit, hdisk⟩ := OpState.init_of_boot hsound h
  have hblank : (bitmapCache .small SuperBlock.ordered_small.toLayout).Empty (.blank .small) :=
    FsState.empty_of_init _ (FsState.init_blank_of (by decide +kernel) (by decide +kernel))
  refine ⟨x, hinit, ?_, rfl⟩
  rw [hdisk, RedoLog.logical_of_empty hempty]
  exact ⟨hblank.ok.bits, hblank.inv.consistent⟩

/-- A file of three bytes is written in an operation, which is committed. -/
def smallCalls : List MountCall :=
  [.beginOp, .call (.alloc (some 0) 1), .call (.get 1), .call (.write 0 1 [7, 8, 9] 0), .endOp 0,
    .commit]

theorem exists_small {α : Type} (calls : List MountCall) (f : Mount → α) (v : α)
    (h : ((OpState.boot .small (FsState.blankBlocks .small)).bind fun x =>
      (mountSystem .small).exec (Mount.Uses .small) (Mount.start .small x) calls).map f = some v) :
    ∃ s, (mountSystem .small).Reachable (Mount.Uses .small) s ∧ f s = v := by
  obtain ⟨s, hexec, hv⟩ := Option.map_eq_some_iff.mp h
  obtain ⟨x, hboot, hrun⟩ := Option.bind_eq_some_iff.mp hexec
  exact ⟨s, (System.Reachable.of_init (init_small hboot)).leads (System.leads_of_exec hrun), hv⟩

/-- A write in the middle of an operation. -/
theorem mount_call_small : ∃ s : Mount, s.files .small 1 = some [] ∧
    s.CallRefines .small SuperBlock.ordered_small (.write 0 1 [7, 8, 9] 0) := by
  obtain ⟨s, hs, hf⟩ := exists_small (smallCalls.take 3)
    (fun s => (s.files .small 1, decide (s.Uses .small (.call (.write 0 1 [7, 8, 9] 0)))))
    (some [], true) (by decide +kernel)
  obtain ⟨hfile, hu⟩ := Prod.mk.inj hf
  exact ⟨s, hfile, mount_call .small SuperBlock.ordered_small (by decide) s hs _
    (of_decide_eq_true hu)⟩

/-- A crash right after the header write of the commit, and three interrupted restarts. -/
theorem crash_files_small : ∃ s : Mount,
    s.fs.store.commits.map CommitEvent.headerWrite = [4] ∧ s.files .small 1 = some [7, 8, 9] ∧
    ∃ t j, s.step .small (.crash 5 [1, 0, 2]) = some t ∧ s.Survivor .small 5 t j := by
  obtain ⟨s, hs, hf⟩ := exists_small smallCalls
    (fun s => (s.fs.store.commits.map CommitEvent.headerWrite, s.files .small 1))
    ([4], some [7, 8, 9]) (by decide +kernel)
  obtain ⟨hheader, hfile⟩ := Prod.mk.inj hf
  exact ⟨s, hheader, hfile, (crash_files .small SuperBlock.ordered_small (by decide) s hs 5
    [1, 0, 2]).2.2⟩

/-- A crash before it. -/
theorem mount_atomic_small : ∃ s t : Mount, s.files .small 1 = some [7, 8, 9] ∧
    t.files .small 1 = none ∧ (s.abs .small).Step (.crash 4 [1]) (t.abs .small) := by
  obtain ⟨s, hs, hf⟩ := exists_small smallCalls
    (fun s => (s.files .small 1, (s.step .small (.crash 4 [1])).map fun t => t.files .small 1))
    (some [7, 8, 9], some none) (by decide +kernel)
  obtain ⟨hfile, hcrash⟩ := Prod.mk.inj hf
  obtain ⟨t, ht, hnone⟩ := Option.map_eq_some_iff.mp hcrash
  exact ⟨s, t, hfile, hnone, mount_atomic .small SuperBlock.ordered_small (by decide) s t hs _
    trivial ht⟩

end OsLab
