/-
`file_write` on the file of an inode.

The model starts where `sys_write` has found an open file and a positive size.  The
operation is admitted by `cache_begin_op`, `inode_write` syncs its blocks to the log, and
`cache_end_op` ends it.  Other operations may be running and may have synced blocks; what
they have left in the log is a state that `logSystem` reaches.

* `fileWrite_returns_iff` — when a call returns;
* `file_write_completes_iff` — which it does from every log that admits it exactly when
  the assertions of `inode_write` hold, enough blocks are free, and the write syncs at most
  `OP_MAX_NUM_BLOCKS` blocks.
-/
import OsLab.Fs.WriteCost
import OsLab.Kernel.SysFile

namespace OsLab

/-- `cache_begin_op` by a caller that must not sleep. -/
def beginOp : StateT LoggedStore (Except Fault) Unit := do
  let s ← get
  match s.log.beginSection s.header with
  | none => throw .blocked
  | some log => set { s with log := log, rm := opMaxNumBlocks }

/-- `cache_end_op`; a commit leaves the header empty. -/
def endOp : StateT LoggedStore (Except Fault) Unit := do
  let s ← get
  match s.log.endSection with
  | .error e => throw e
  | .ok (false, log) => set { s with log := log }
  | .ok (true, log) =>
    set { s with
      header := { s.header with numBlocks := 0 }
      log := { log with committing := false } }

/-- `file_write`: the result, the file and the inode.  `pipeWrite` is what it does to a
pipe. -/
def fileWrite (sb : SuperBlock) (pipeWrite : StateT LoggedStore (Except Fault) ℤ) (file : File)
    (inode : Inode) (addr : ℕ → UInt8) (n : ℕ) :
    StateT LoggedStore (Except Fault) (ℤ × File × Inode) := do
  if file.type = .inode ∧ file.writable = true then
    beginOp
    let inode ← inodeLock sb (loggedOps.withBitmap sb) inode
    let r ← inodeWrite sb (loggedOps.withBitmap sb) (some 0) inode addr file.off n
    endOp
    if 0 < r.1 then return (r.1, { file with off := (file.off + r.1) % usizeSize }, r.2)
    else return (r.1, file, r.2)
  else if file.type = .pipe ∧ file.writable = true then
    let r ← pipeWrite
    return (r, file, inode)
  else return (-1, file, inode)

/-- `file` is open for writing and has the inode `inode` in memory. -/
structure FsState.Opens (s : FsState BlockStore) (file : File) (inode : Inode) : Prop where
  type : file.type = .inode
  writable : file.writable = true
  obj : s.inodes file.obj = some inode
  rc : inode.rc ≠ 0

/-- A write of `n` bytes at `offset` to a file of `size` bytes fits into the file, into the
free blocks and into the context of one operation.  `used` are the blocks in use. -/
structure WriteFits (sb : SuperBlock) (used : Finset ℕ) (size offset n : ℕ) : Prop where
  start : offset ≤ size
  limit : offset + n ≤ inodeMaxBytes
  free : used.card + blocksFor (max size (offset + n)) ≤ sb.numDataBlocks + blocksFor size
  budget : opCost sb used size offset n ≤ opMaxNumBlocks

section Runs

variable {sb : SuperBlock} {pipeWrite : StateT LoggedStore (Except Fault) ℤ} {file : File}
  {inode : Inode} {addr : ℕ → UInt8} {n : ℕ} {store : BlockStore} {header : LogHeader}
  {log log' : Log} {rm : ℕ}

theorem beginSection_eq_some (h : log.beginSection header = some log') :
    log.committing = false ∧ log' = { log with outstanding := log.outstanding + 1 } ∧
      (header.numBlocks : ℤ) + (log.outstanding + 1) * opMaxNumBlocks ≤ logMaxSize := by
  rw [Log.beginSection] at h
  split at h
  · cases h
  · rename_i hcom
    split at h
    · cases h
    · rename_i hle
      cases h
      exact ⟨by simpa using hcom, rfl, by omega⟩

/-- An operation that has been admitted ends. -/
theorem exists_run_endOp (h : log.beginSection header = some log') {x : LoggedStore}
    (hx : x.log = log') : ∃ y, endOp.run x = .ok ((), y) := by
  obtain ⟨hcom, rfl, -⟩ := beginSection_eq_some h
  have hend : endOp.run x = (match x.log.endSection with
      | .error e => (throw e : StateT LoggedStore (Except Fault) Unit)
      | .ok (false, log) => set { x with log := log }
      | .ok (true, log) => set { x with
          header := { x.header with numBlocks := 0 }
          log := { log with committing := false } }).run x := rfl
  rw [hend, hx, Log.endSection, if_neg (by simp [hcom])]
  by_cases h0 : log.outstanding + 1 - 1 = 0
  · rw [if_pos h0]
    exact ⟨_, rfl⟩
  · rw [if_neg h0]
    exact ⟨_, rfl⟩

/-- **When `file_write` returns.** -/
theorem fileWrite_returns_iff (htype : file.type = .inode) (hw : file.writable = true)
    (hrc : inode.rc ≠ 0) (hvalid : inode.valid = true) (hadm : log.beginSection header = some log')
    (hroom : header.numBlocks + opMaxNumBlocks ≤ logMaxSize) :
    (∃ r x, (fileWrite sb pipeWrite file inode addr n).run ⟨store, header, log, rm⟩ = .ok (r, x)) ↔
    ∃ a t m, (inodeWrite sb (tracedOps.withBitmap sb) (some 0) inode addr file.off n).run
      (store, []) = .ok (a, (t, m)) ∧ (m.toFinset \ header.logged.toFinset).card ≤ opMaxNumBlocks := by
  rw [← interp_inodeWrite tracedOps]
  have hbegin : beginOp.run ⟨store, header, log, rm⟩
      = .ok ((), ⟨store, header, log', opMaxNumBlocks⟩) := by
    have hrun : beginOp.run ⟨store, header, log, rm⟩ = (match log.beginSection header with
        | none => (throw Fault.blocked : StateT LoggedStore (Except Fault) Unit)
        | some log => set (⟨store, header, log, opMaxNumBlocks⟩ : LoggedStore)).run
          ⟨store, header, log, rm⟩ := rfl
    rw [hrun, hadm]
    rfl
  have hlock : inodeLock sb (loggedOps.withBitmap sb) inode = pure inode := by
    rw [inodeLock, if_neg hrc, if_pos hvalid]
  constructor
  · rintro ⟨r, x, hrun⟩
    have h : wp (fileWrite sb pipeWrite file inode addr n) (fun _ _ => True) (fun _ => False)
        ⟨store, header, log, rm⟩ := wp_of_run hrun trivial
    rw [fileWrite, if_pos ⟨htype, hw⟩, hlock] at h
    simp only [wp_bind, wp_pure] at h
    have hwrite := wp_run h hbegin
    obtain ⟨a, y, hy, -⟩ := exists_run_of_wp hwrite
    rw [← interp_inodeWrite loggedOps] at hy
    obtain ⟨t, m, ht⟩ := (logged_run_iff hroom a).mp ⟨y, hy⟩
    exact ⟨a, t, m, ht⟩
  · rintro ⟨a, t, m, ht⟩
    obtain ⟨y, hy⟩ : ∃ y, ((inodeWrite sb (progCache sb) (some 0) inode addr file.off n).interp
        loggedOps.answer).run ⟨store, header, log', opMaxNumBlocks⟩ = .ok (a, y) :=
      (logged_run_iff hroom a).mpr ⟨t, m, ht⟩
    obtain ⟨z, hz⟩ := exists_run_endOp hadm (logged_run_log hy)
    rw [interp_inodeWrite] at hy
    have h : wp (fileWrite sb pipeWrite file inode addr n) (fun _ _ => True) (fun _ => False)
        ⟨store, header, log, rm⟩ := by
      rw [fileWrite, if_pos ⟨htype, hw⟩, hlock]
      simp only [wp_bind, wp_pure]
      refine wp_of_run hbegin (wp_of_run hy (wp_of_run hz ?_))
      split
      · trivial
      · trivial
    obtain ⟨r, x, hrun, -⟩ := exists_run_of_wp h
    exact ⟨r, x, hrun⟩

end Runs

section Write

variable {sb : SuperBlock} {s : FsState BlockStore} {file : File} {inode : Inode}
  {addr : ℕ → UInt8} {n : ℕ}

/-- What a write syncs and needs. -/
theorem write_cost {A : MapState} {hl : sb.Layout} (h : (bitmapCache sb hl).FsInv s A)
    (ho : s.Opens file inode) (hn : 0 < n) (hoff : file.off ≤ inode.entry.numBytes.toNat) (hmax : file.off + n ≤ inodeMaxBytes) :
    wp (inodeWrite sb (tracedOps.withBitmap sb) (some 0) inode addr file.off n)
      (fun r t => r.1 = n ∧
        t.2.toFinset.card = opCost sb (s.store.used sb) inode.entry.numBytes.toNat file.off n ∧
        (s.store.used sb).card + blocksFor (max inode.entry.numBytes.toNat (file.off + n))
          ≤ sb.numDataBlocks + blocksFor inode.entry.numBytes.toNat)
      (fun _ => True) (s.store, []) := by
  obtain rfl : s.store.abs sb = A := h.abs_eq
  have hlo := h.loaded _ _ ho.obj
  have hlive := hlo.entry_live
  have hw : wp (inodeWrite sb (tracedOps.withBitmap sb) (some 0) inode addr file.off n) _
      (fun _ => True) (s.store, []) :=
    traced_inodeWrite hl h.store rfl h.consistent.held h.consistent.owns hlive hlo.inodeNo
      hlo.inUse.2.1 hlo.valid (h.consistent.maps _) (hlive ▸ hoff) hn hmax
  rwa [← hlive] at hw

/-- A write for which there are enough blocks returns next to a list. -/
theorem write_returns {A : MapState} {hl : sb.Layout} (h : (bitmapCache sb hl).FsInv s A)
    (ho : s.Opens file inode) (hoff : file.off ≤ inode.entry.numBytes.toNat)
    (hmax : file.off + n ≤ inodeMaxBytes)
    (hfree : (s.store.used sb).card + blocksFor (max inode.entry.numBytes.toNat (file.off + n))
      ≤ sb.numDataBlocks + blocksFor inode.entry.numBytes.toNat) :
    ∃ a t m, (inodeWrite sb (tracedOps.withBitmap sb) (some 0) inode addr file.off n).run
      (s.store, []) = .ok (a, (t, m)) := by
  obtain rfl : s.store.abs sb = A := h.abs_eq
  have hlo := h.loaded _ _ ho.obj
  have hlive := hlo.entry_live
  have hblocks : wp (inodeWrite sb (mapOps.withBitmap sb) (some 0) inode addr file.off n)
      (fun _ _ => True) (fun _ => False) s.store := by
    have hoff' : file.off ≤ (liveEntry sb (s.store.abs sb).view file.obj).numBytes.toNat :=
      hlive ▸ hoff
    refine MapCache.wp_inodeWrite (M := bitmapCache sb hl) hl h.store h.consistent.held
      h.consistent.owns hlive hlo.inodeNo hlo.inUse.2.1 hlo.valid
      (liveEntry_of_inUse hlo.inUse).symm (h.consistent.maps _) hoff' hmax (fun _ hfull => ?_)
      fun _ _ _ _ _ => trivial
    rw [← hlive] at hfull
    exact absurd hfree (Nat.not_le.mpr hfull)
  rw [← interp_inodeWrite mapOps] at hblocks
  obtain ⟨a, t, hrun, -⟩ := exists_run_of_wp (wp_traced hblocks [])
  rw [interp_inodeWrite] at hrun
  exact ⟨a, t.1, t.2, hrun⟩

/-- The room of an operation that a reachable log admits. -/
theorem room_of_admitted {l : LogState} (h : logSystem.Reachable (SyncsOnly Set.univ) l)
    {log : Log} (hadm : l.log.beginSection l.header = some log) :
    l.header.numBlocks + opMaxNumBlocks ≤ logMaxSize := by
  obtain ⟨-, -, hroom⟩ := beginSection_eq_some hadm
  have hout : l.log.outstanding = l.running.card := (LogState.inv_of_reachable h).outstanding
  have hpos : (0 : ℤ) ≤ l.running.card := Int.natCast_nonneg _
  have hop : opMaxNumBlocks = 10 := rfl
  rw [hop] at hroom ⊢
  omega

end Write

/-- **When `file_write` completes.**  A write of `n` bytes to an open file returns, from
every log that admits its operation, exactly when it fits into the file, into the free
blocks and into the context of the operation; otherwise it panics. -/
theorem file_write_completes_iff (sb : SuperBlock) (hl : sb.Layout) (s : FsState BlockStore)
    (h : (fsSystem sb).Reachable (FsState.AllowedAt sb) s)
    (pipeWrite : StateT LoggedStore (Except Fault) ℤ) (file : File) (inode : Inode)
    (ho : s.Opens file inode) (addr : ℕ → UInt8) (n : ℕ) (hn : 0 < n) (hn' : n < 2 ^ 31) :
    (∀ l, logSystem.Reachable (SyncsOnly Set.univ) l → l.log.beginSection l.header ≠ none →
      ∀ rm, ∃ r x, (fileWrite sb pipeWrite file inode addr n).run
        ⟨s.store, l.header, l.log, rm⟩ = .ok (r, x)) ↔
    WriteFits sb (s.store.used sb) inode.entry.numBytes.toNat file.off n := by
  obtain ⟨A, hA⟩ := FsState.inv_of_reachable hl h
  have hvalid := (hA.loaded _ _ ho.obj).valid
  constructor
  · intro hall
    -- an empty log
    set l : LogState := ⟨⟨0, fun _ => 0⟩, ⟨false, 0⟩, ∅, fun _ => 0⟩ with hl'
    have hreach : logSystem.Reachable (SyncsOnly Set.univ) l := .of_init ⟨rfl, rfl, rfl⟩
    have hadm : l.log.beginSection l.header = some ⟨false, 1⟩ := by decide
    have hrun := hall l hreach (by rw [hadm]; simp) 0
    obtain ⟨a, t, m, hrun, hcard⟩ := (fileWrite_returns_iff ho.type ho.writable ho.rc hvalid hadm
      (room_of_admitted hreach hadm)).mp hrun
    obtain ⟨hoff, hmax⟩ := MapCache.args_of_write (Nat.lt_trans hn' (by decide)) hrun
    obtain ⟨-, hcost, hfree⟩ := wp_run (write_cost hA ho hn hoff hmax) hrun
    refine ⟨hoff, hmax, hfree, ?_⟩
    rwa [show l.header.logged = [] from rfl, List.toFinset_nil, Finset.sdiff_empty, hcost] at hcard
  · rintro ⟨hoff, hmax, hfree, hbudget⟩ l hreach hadm rm
    obtain ⟨log, hlog⟩ := Option.ne_none_iff_exists'.mp hadm
    refine (fileWrite_returns_iff ho.type ho.writable ho.rc hvalid hlog
      (room_of_admitted hreach hlog)).mpr ?_
    obtain ⟨a, t, m, hrun⟩ : ∃ a t m, (inodeWrite sb (tracedOps.withBitmap sb) (some 0) inode addr
        file.off n).run (s.store, []) = .ok (a, (t, m)) := write_returns hA ho hoff hmax hfree
    obtain ⟨-, hcost, -⟩ := wp_run (write_cost hA ho hn hoff hmax) hrun
    refine ⟨a, t, m, hrun, ?_⟩
    calc (m.toFinset \ l.header.logged.toFinset).card ≤ m.toFinset.card :=
          Finset.card_le_card Finset.sdiff_subset
      _ = opCost sb (s.store.used sb) inode.entry.numBytes.toNat file.off n := hcost
      _ ≤ opMaxNumBlocks := hbudget

/-- A writable file of inode 1, at its start. -/
def File.ofInode : File := ⟨.inode, 1, false, true, 1, 0⟩

/-- Eight blocks into an empty file are the most that one call can write. -/
theorem file_write_completes_eight : ∃ (s : FsState BlockStore) (inode : Inode),
    s.Opens .ofInode inode ∧ inode.entry.numBytes = 0 ∧
    ∀ l, logSystem.Reachable (SyncsOnly Set.univ) l → l.log.beginSection l.header ≠ none →
      ∀ rm, ∃ r x, (fileWrite .mkfs (throw .panic) .ofInode inode (fun _ => 7) 4096).run
        ⟨s.store, l.header, l.log, rm⟩ = .ok (r, x) := by
  have hrun : ((fsSystem .mkfs).exec (FsState.AllowedAt .mkfs) (.blank .mkfs)
      [.alloc none 2, .get 1]).map (fun s => (s.store.used .mkfs,
        (s.inodes 1).map fun inode => (inode.rc, inode.entry.numBytes)))
      = some (∅, some (1, 0)) := by
    decide +kernel
  obtain ⟨s, hs, hstate⟩ := Option.map_eq_some_iff.mp hrun
  obtain ⟨hused, hinode⟩ := Prod.mk.inj hstate
  obtain ⟨inode, hsome, hpair⟩ := Option.map_eq_some_iff.mp hinode
  obtain ⟨hrc, hnum⟩ := Prod.mk.inj hpair
  have hopens : s.Opens .ofInode inode := ⟨rfl, rfl, hsome, by rw [hrc]; decide⟩
  refine ⟨s, inode, hopens, hnum, ?_⟩
  refine (file_write_completes_iff .mkfs SuperBlock.layout_mkfs s
    ⟨_, FsState.init_blank, System.leads_of_exec hs⟩ (throw .panic) .ofInode inode hopens
    (fun _ => 7) 4096 (by decide) (by decide)).mpr ?_
  rw [hused, hnum]
  exact ⟨by decide, by decide, by decide, by decide⟩

/-- Of an empty file, a write of nine blocks runs out of the blocks of its context, and one
behind `INODE_MAX_BYTES` fails an assertion. -/
theorem file_write_panics : ((fsSystem .mkfs).exec (FsState.AllowedAt .mkfs) (.blank .mkfs)
    [.alloc none 2, .get 1]).map (fun s => (s.inodes 1).map fun inode =>
      [4097, inodeMaxBytes + 1].map fun n =>
        failure ((fileWrite .mkfs (throw .panic) .ofInode inode (fun _ => 7) n).run
          ⟨s.store, ⟨0, fun _ => 0⟩, ⟨false, 0⟩, 0⟩))
    = some (some [some .panic, some .panic]) := by
  decide +kernel

end OsLab
