/-
Spin locks around sleeping (`fs/file.c`, `fs/inode.c`, `fs/cache.c`).

`acquire_sleeplock` may put a process to sleep; the cache reaches it in `cache_acquire` and in
`cache_begin_op`.  The functions are programs over the spin locks, in the order of the source;
what is read from blocks, and from the list of cached blocks, is left to the run.

* `fileClose`, `inodeAlloc`, `inodePut`, `cacheEndOp` — the four functions, and what they call;
* `sleepPoints` — the system: any number of threads in these calls, and other code that
  changes files and inodes;
* `no_sleep_locked` — when no lock is held where a process may sleep;
* `sleep_locked` — each of the three locks is held at such a point in some run.
-/
import OsLab.Fs.OnDisk
import OsLab.Kernel.SysFile
import OsLab.Lib.SpinPrograms

namespace OsLab

inductive FsLock
  /-- `ftable.lock` -/
  | ftable
  /-- `lock` of `fs/inode.c` -/
  | inode
  /-- `loglock` -/
  | log
  /-- `lock` of `fs/cache.c` -/
  | cache
  /-- the lock of a pipe -/
  | pipe (p : ℕ)
deriving DecidableEq

/-- What the tests read, and the variables of the threads. -/
structure FsData where
  fileRef : ℕ → ℤ
  fileType : ℕ → FileType
  /-- `f->ip` -/
  fileIp : ℕ → ℕ
  numLinks : ℕ → ℕ
  rc : ℕ → ℤ
  committing : Bool
  outstanding : ℤ
  /-- `header.num_blocks` -/
  numBlocks : ℕ
  /-- `ctx->rm` of a thread -/
  rm : ℕ → ℕ
  /-- the argument `inode` of `inode_put` -/
  ip : ℕ → ℕ
  /-- the loop of `cache_begin_op` has been left -/
  begun : ℕ → Bool
  doCommit : ℕ → Bool
  tail : ℕ → ℕ

inductive FsTest
  /-- `f->ref == 0`, after the decrement -/
  | lastRef (f : ℕ)
  | isInode (f : ℕ)
  | isPipe (f : ℕ)
  /-- `inode->entry.num_links == 0` -/
  | noLinks
  /-- `r == 1` -/
  | lastRc
  /-- the loop of `cache_begin_op` goes on -/
  | notBegun
  /-- `log.committing`, in `cache_begin_op` -/
  | opCommitting
  /-- there is no room in the log for one more operation -/
  | opTooMany
  /-- `ctx->rm == 0` -/
  | noRoom
  /-- `log.committing`, in `cache_end_op` -/
  | committing
  /-- `log.outstanding == 0` -/
  | lastOp
  | doCommit
  /-- `tail < header.num_blocks` -/
  | moreBlocks
  /-- a test of a block, or of the list of cached blocks -/
  | block
deriving DecidableEq

inductive FsAct
  | decRef (f : ℕ)
  | setNone (f : ℕ)
  | loadIp (f : ℕ)
  | setIp (ip : ℕ)
  | decRc
  | enterOp
  | beginOp
  | leaveOp
  | startCommit
  | addBlock
  | resetTail
  | nextTail
  | emptyHeader
  | finishCommit

/-- Other code gives a file or an inode new values. -/
inductive FsOther
  | file (f : ℕ) (ref : ℤ) (type : FileType) (ip : ℕ)
  | inode (ip numLinks : ℕ) (rc : ℤ)

namespace FsData

def test (d : FsData) (t : ℕ) : FsTest → Option Bool
  | .lastRef f => some (d.fileRef f == 0)
  | .isInode f => some (decide (d.fileType f = .inode))
  | .isPipe f => some (decide (d.fileType f = .pipe))
  | .noLinks => some (d.numLinks (d.ip t) == 0)
  | .lastRc => some (d.rc (d.ip t) == 1)
  | .notBegun => some !d.begun t
  | .opCommitting => some d.committing
  | .opTooMany => some (decide ((d.numBlocks : ℤ) + (d.outstanding + 1) * opMaxNumBlocks > logMaxSize))
  | .noRoom => some (d.rm t == 0)
  | .committing => some d.committing
  | .lastOp => some (d.outstanding == 0)
  | .doCommit => some (d.doCommit t)
  | .moreBlocks => some (decide (d.tail t < d.numBlocks))
  | .block => none

def act (d : FsData) (t : ℕ) : FsAct → FsData
  | .decRef f => { d with fileRef := Function.update d.fileRef f (d.fileRef f - 1) }
  | .setNone f => { d with fileType := Function.update d.fileType f .none }
  | .loadIp f => { d with ip := Function.update d.ip t (d.fileIp f) }
  | .setIp ip => { d with ip := Function.update d.ip t ip }
  | .decRc => { d with rc := Function.update d.rc (d.ip t) (d.rc (d.ip t) - 1) }
  | .enterOp => { d with begun := Function.update d.begun t false }
  | .beginOp => { d with
      outstanding := d.outstanding + 1
      rm := Function.update d.rm t opMaxNumBlocks
      begun := Function.update d.begun t true }
  | .leaveOp => { d with
      outstanding := d.outstanding - 1
      doCommit := Function.update d.doCommit t false }
  | .startCommit => { d with
      committing := true
      doCommit := Function.update d.doCommit t true }
  | .addBlock => { d with
      numBlocks := d.numBlocks + 1
      rm := Function.update d.rm t (d.rm t - 1) }
  | .resetTail => { d with tail := Function.update d.tail t 0 }
  | .nextTail => { d with tail := Function.update d.tail t (d.tail t + 1) }
  | .emptyHeader => { d with numBlocks := 0 }
  | .finishCommit => { d with committing := false }

def other (d : FsData) : FsOther → FsData
  | .file f ref type ip => { d with
      fileRef := Function.update d.fileRef f ref
      fileType := Function.update d.fileType f type
      fileIp := Function.update d.fileIp f ip }
  | .inode ip numLinks rc => { d with
      numLinks := Function.update d.numLinks ip numLinks
      rc := Function.update d.rc ip rc }

end FsData

abbrev FsProg : Type := Cmd FsLock FsTest FsAct

namespace FsProg

open Cmd

/-! ### `fs/cache.c` -/

/-- `cache_acquire`: the block is cached, or an unused one is taken, or a new one is made. -/
def cacheAcquire : FsProg :=
  seqs [.lock .cache,
    .ite .block (seqs [.unlock .cache, .sleep])
      (.ite .block (seqs [.unlock .cache, .sleep])
        (seqs [.unlock .cache, .sleep, .lock .cache, .unlock .cache]))]

/-- `cache_release` -/
def cacheRelease : FsProg := seqs [.lock .cache, .unlock .cache]

/-- `cache_begin_op` -/
def cacheBeginOp : FsProg :=
  seqs [.act .enterOp,
    .loop .notBegun (seqs [.lock .log,
      .ite .opCommitting (seqs [.unlock .log, .sleep])
        (.ite .opTooMany (seqs [.unlock .log, .sleep])
          (seqs [.act .beginOp, .unlock .log]))])]

/-- `cache_sync` in an operation; the first test finds the block in the header. -/
def cacheSync : FsProg :=
  seqs [.lock .log,
    .ite .block .skip (seqs [.ite .noRoom .panic .skip, .act .addBlock]),
    .unlock .log]

/-- One of the two loops of `commit`. -/
def commitLoop : FsProg :=
  seqs [.act .resetTail,
    .loop .moreBlocks (seqs [cacheAcquire, cacheAcquire, cacheRelease, cacheRelease,
      .act .nextTail])]

/-- `commit` -/
def commit : FsProg := seqs [commitLoop, commitLoop, .act .emptyHeader]

/-- `cache_end_op` -/
def cacheEndOp : FsProg :=
  seqs [.lock .log, .act .leaveOp,
    .ite .committing .panic .skip,
    .ite .lastOp (.act .startCommit) .skip,
    .unlock .log,
    .ite .doCommit (seqs [.lock .log, commit, .act .finishCommit, .unlock .log]) .skip]

/-- `cache_free` -/
def cacheFree : FsProg := seqs [cacheAcquire, cacheSync, cacheRelease]

/-! ### `fs/inode.c` -/

/-- `inode_sync` of a valid inode, with `do_write` -/
def inodeSync : FsProg := seqs [cacheAcquire, cacheSync, cacheRelease]

/-- `n` turns of a loop -/
def times (n : ℕ) (p : FsProg) : FsProg := seqs (List.replicate n p)

/-- `inode_clear` -/
def inodeClear : FsProg :=
  seqs [times inodeNumDirect (.ite .block cacheFree .skip),
    .ite .block
      (seqs [cacheAcquire, times inodeNumIndirect (.ite .block cacheFree .skip), cacheSync,
        cacheRelease, cacheFree])
      .skip,
    inodeSync]

/-- `inode_put` -/
def inodePut : FsProg :=
  seqs [.lock .inode,
    .ite .noLinks
      (.ite .lastRc
        (seqs [inodeClear, cacheAcquire, cacheSync, cacheRelease, .unlock .inode])
        (seqs [.act .decRc, .unlock .inode]))
      (seqs [.act .decRc, .unlock .inode])]

/-- The loop of `inode_alloc`, with `n` inodes left. -/
def inodeAllocLoop : ℕ → FsProg
  | 0 => seqs [.unlock .inode, .panic]
  | n + 1 => seqs [cacheAcquire,
      .ite .block (seqs [cacheSync, cacheRelease, .unlock .inode])
        (seqs [cacheRelease, inodeAllocLoop n])]

/-- `inode_alloc` -/
def inodeAlloc (num_inodes : ℕ) : FsProg :=
  seqs [.lock .inode, inodeAllocLoop (num_inodes - 1)]

/-! ### `fs/file.c` -/

/-- `pipeClose`; posting does not sleep. -/
def pipeClose (p : ℕ) : FsProg := seqs [.lock (.pipe p), .unlock (.pipe p)]

/-- `file_close`, of a file whose `pipe` is `p` -/
def fileClose (f p : ℕ) : FsProg :=
  seqs [.lock .ftable, .act (.decRef f),
    .ite (.lastRef f)
      (seqs [.ite (.isInode f)
          (seqs [cacheBeginOp, .act (.loadIp f), inodePut, cacheEndOp])
          (.ite (.isPipe f) (pipeClose p) .skip),
        .act (.setNone f)])
      .skip,
    .unlock .ftable]

end FsProg

inductive LockingCall
  | fileClose (f p : ℕ)
  | inodeAlloc
  | inodePut (ip : ℕ)
  | beginOp
  | endOp
  | sync
  | acquire
  | release

/-- The program of a call. -/
def LockingCall.body (num_inodes : ℕ) : LockingCall → FsProg
  | .fileClose f p => FsProg.fileClose f p
  | .inodeAlloc => FsProg.inodeAlloc num_inodes
  | .inodePut ip => Cmd.seqs [.act (.setIp ip), FsProg.inodePut]
  | .beginOp => FsProg.cacheBeginOp
  | .endOp => FsProg.cacheEndOp
  | .sync => FsProg.cacheSync
  | .acquire => FsProg.cacheAcquire
  | .release => FsProg.cacheRelease

/-- Any number of threads, on a file system with so many inodes. -/
def sleepPoints (num_inodes : ℕ) : SpinMachine FsData FsLock FsTest FsAct LockingCall FsOther where
  body := LockingCall.body num_inodes
  test := FsData.test
  act := FsData.act
  other := FsData.other

/-- After `init_bcache`. -/
def FsData.Start (d : FsData) : Prop :=
  d.committing = false ∧ d.outstanding = 0 ∧ d.numBlocks = 0

/-- The locks under which a process must not sleep. -/
def FsLock.critical : Set FsLock := {.ftable, .inode, .log}

/-- The calls and branches that do not lead to a point of sleep under one of these locks. -/
def LockingCall.Quiet (num_inodes : ℕ) : LockingCall → Prop
  -- the loop acquires a block in its first turn
  | .inodeAlloc => num_inodes ≤ 1
  | _ => True

def FsTest.Quiet (held : Set FsLock) (c : FsTest) (b : Bool) : Prop :=
  b = true →
    -- `file_close` does not have to wait for the log
    (c = .opCommitting ∨ c = .opTooMany → .ftable ∉ held) ∧
    -- `inode_put` does not free the inode
    c ≠ .lastRc ∧
    -- there is nothing to commit
    c ≠ .moreBlocks

instance (num_inodes : ℕ) (k : LockingCall) : Decidable (k.Quiet num_inodes) :=
  match k with
  | .inodeAlloc => inferInstanceAs (Decidable (num_inodes ≤ 1))
  | .fileClose .. | .inodePut .. | .beginOp | .endOp | .sync | .acquire | .release => .isTrue trivial

instance (s : SpinState FsData FsLock FsTest FsAct) (t : ℕ) (c : FsTest) (b : Bool) :
    Decidable (c.Quiet (s.held t) b) :=
  inferInstanceAs (Decidable (b = true → _ ∧ _ ∧ _))

/-! ### The functions keep to the rules -/

namespace FsProg

open Cmd

variable {H : Set FsLock}

/-- The rules for these functions. -/
abbrev Keeps (H : Set FsLock) (p : FsProg) (H' : Set FsLock) : Prop :=
  Runs FsLock.critical FsTest.Quiet H p H'

theorem cacheAcquire_keeps (hH : ∀ l ∈ H, l ∉ FsLock.critical) (hcache : .cache ∉ H) :
    Keeps H cacheAcquire H := by
  have hsleep : Keeps (insert .cache H) (seqs [.unlock .cache, .sleep]) H :=
    .cons (.unlock_insert hcache) (.cons (.sleep hH) .nil)
  refine .cons .lock (.cons (.ite (fun _ => hsleep) fun _ => .ite (fun _ => hsleep) fun _ => ?_)
    .nil)
  exact .cons (.unlock_insert hcache) (.cons (.sleep hH)
    (.cons .lock (.cons (.unlock_insert hcache) .nil)))

theorem cacheRelease_keeps (hcache : .cache ∉ H) : Keeps H cacheRelease H :=
  .cons .lock (.cons (.unlock_insert hcache) .nil)

theorem cacheSync_keeps (hlog : .log ∉ H) : Keeps H cacheSync H := by
  refine .cons .lock (.cons (.ite (fun _ => .skip _) fun _ => ?_)
    (.cons (.unlock_insert hlog) .nil))
  exact .cons (.ite (fun _ => .panic) fun _ => .skip _) (.cons (.act _) .nil)

/-- Under `ftable.lock` the operation begins at once. -/
theorem cacheBeginOp_keeps (hlog : .log ∉ H)
    (hH : .ftable ∉ H → ∀ l ∈ H, l ∉ FsLock.critical) : Keeps H cacheBeginOp H := by
  have hwait : .ftable ∉ insert .log H → Keeps (insert .log H) (seqs [.unlock .log, .sleep]) H := by
    intro hftable
    have hftable' : .ftable ∉ H := fun hmem => hftable (Set.mem_insert_of_mem _ hmem)
    exact .cons (.unlock_insert hlog) (.cons (.sleep (hH hftable')) .nil)
  refine .cons (.act _) (.cons (.loop fun _ => .cons .lock (.cons ?_ .nil)) .nil)
  refine .ite (fun h => hwait ((h rfl).1 (.inl rfl))) fun _ =>
    .ite (fun h => hwait ((h rfl).1 (.inr rfl))) fun _ => ?_
  exact .cons (.act _) (.cons (.unlock_insert hlog) .nil)

theorem commitLoop_keeps : Keeps H commitLoop H :=
  .cons (.act _) (.cons (.loop fun hmore => absurd rfl (hmore rfl).2.2) .nil)

theorem cacheEndOp_keeps (hlog : .log ∉ H) : Keeps H cacheEndOp H := by
  have hcommit : Keeps (insert .log H) commit (insert .log H) :=
    .cons commitLoop_keeps (.cons commitLoop_keeps (.cons (.act _) .nil))
  refine .cons .lock (.cons (.act _) (.cons (.ite (fun _ => .panic) fun _ => .skip _)
    (.cons (.ite (fun _ => .act _) fun _ => .skip _) (.cons (.unlock_insert hlog) ?_))))
  refine .cons (.ite (fun _ => .cons .lock (.cons hcommit (.cons (.act _) ?_))) fun _ => .skip _) .nil
  exact .cons (.unlock_insert hlog) .nil

/-- The inode is not freed. -/
theorem inodePut_keeps (hinode : .inode ∉ H) : Keeps H inodePut H := by
  have hdec : Keeps (insert .inode H) (seqs [.act .decRc, .unlock .inode]) H :=
    .cons (.act _) (.cons (.unlock_insert hinode) .nil)
  exact .cons .lock (.cons (.ite (fun _ => .ite (fun hlast => absurd rfl (hlast rfl).2.1) fun _ => hdec)
    fun _ => hdec) .nil)

theorem inodeAlloc_keeps {num_inodes : ℕ} (h : num_inodes ≤ 1) :
    Keeps ∅ (inodeAlloc num_inodes) ∅ := by
  have hzero : num_inodes - 1 = 0 := Nat.sub_eq_zero_of_le h
  unfold inodeAlloc
  rw [hzero]
  exact .cons .lock (.cons (.cons (.unlock_insert (Set.notMem_empty _)) (.cons .panic .nil)) .nil)

theorem pipeClose_keeps {p : ℕ} (hpipe : .pipe p ∉ H) : Keeps H (pipeClose p) H :=
  .cons .lock (.cons (.unlock_insert hpipe) .nil)

theorem fileClose_keeps (f p : ℕ) : Keeps ∅ (fileClose f p) ∅ := by
  -- under `ftable.lock`
  have hbegin : Keeps (insert .ftable ∅) cacheBeginOp (insert .ftable ∅) :=
    cacheBeginOp_keeps (by simp) fun hftable => absurd (Set.mem_insert _ _) hftable
  have hput : Keeps (insert .ftable ∅) inodePut (insert .ftable ∅) := inodePut_keeps (by simp)
  have hend : Keeps (insert .ftable ∅) cacheEndOp (insert .ftable ∅) := cacheEndOp_keeps (by simp)
  refine .cons .lock (.cons (.act _) (.cons (.ite (fun _ => .cons (.ite (fun _ => ?_) fun _ => ?_)
    (.cons (.act _) .nil)) fun _ => .skip _) (.cons (.unlock_insert (Set.notMem_empty _)) .nil)))
  · exact .cons hbegin (.cons (.act _) (.cons hput (.cons hend .nil)))
  · exact .ite (fun _ => pipeClose_keeps (by simp)) fun _ => .skip _

theorem body_keeps {num_inodes : ℕ} {k : LockingCall} (hk : k.Quiet num_inodes) :
    Keeps ∅ (k.body num_inodes) ∅ := by
  have hnone : ∀ {l : FsLock}, l ∉ (∅ : Set FsLock) := fun {l} => Set.notMem_empty l
  cases k with
  | fileClose f p => exact fileClose_keeps f p
  | inodeAlloc => exact inodeAlloc_keeps hk
  | inodePut ip => exact .cons (.act _) (.cons (inodePut_keeps hnone) .nil)
  | beginOp => exact cacheBeginOp_keeps hnone fun _ l hl => absurd hl hnone
  | endOp => exact cacheEndOp_keeps hnone
  | sync => exact cacheSync_keeps hnone
  | acquire => exact cacheAcquire_keeps (fun l hl => absurd hl hnone) hnone
  | release => exact cacheRelease_keeps hnone

end FsProg

/-- **No spin lock is held where a process may sleep**, as long as calls and branches are quiet
ones. -/
theorem no_sleep_locked (num_inodes : ℕ) (s : SpinState FsData FsLock FsTest FsAct)
    (h : ((sleepPoints num_inodes).system FsData.Start).Reachable
      ((sleepPoints num_inodes).Ok (LockingCall.Quiet num_inodes) FsTest.Quiet) s) :
    s.Awake FsLock.critical :=
  SpinMachine.awake_of_reachable (fun _ hk => FsProg.body_keeps hk) h

/-- File 3 is open on inode 5. -/
def sleepBoot : SpinState FsData FsLock FsTest FsAct where
  data :=
    { fileRef := fun _ => 1, fileType := fun _ => .inode, fileIp := fun _ => 5
      numLinks := fun _ => 1, rc := fun _ => 2
      committing := false, outstanding := 0, numBlocks := 0
      rm := fun _ => 0, ip := fun _ => 0, begun := fun _ => false
      doCommit := fun _ => false, tail := fun _ => 0 }
  owner _ := none
  code _ := []

theorem init_sleepBoot : ((sleepPoints 10).system FsData.Start).init sleepBoot :=
  ⟨⟨rfl, rfl, rfl⟩, fun _ => rfl, fun _ => rfl⟩

/-- The next turns of a thread. -/
def turns (t n : ℕ) : List (SpinStep LockingCall FsOther) := List.replicate n (.turn t true)

/-- One thread is in an operation, one closes a file, and one may sleep in `cache_acquire`. -/
theorem no_sleep_locked_three : ∃ s : SpinState FsData FsLock FsTest FsAct,
    s.owner .ftable = some 1 ∧ s.owner .inode = some 1 ∧ Cmd.sleeps (s.code 2) = true ∧
    s.Awake FsLock.critical := by
  have hrun : (((sleepPoints 10).system FsData.Start).exec
      ((sleepPoints 10).Ok (LockingCall.Quiet 10) FsTest.Quiet) sleepBoot
      (.call 0 .beginOp :: turns 0 17 ++ .call 1 (.fileClose 3 0) :: turns 1 32 ++
        .call 2 .acquire :: turns 2 7)).map
      (fun s => (s.owner .ftable, s.owner .inode, Cmd.sleeps (s.code 2))) =
      some (some 1, some 1, true) := by
    decide
  obtain ⟨s, hs, heq⟩ := Option.map_eq_some_iff.mp hrun
  obtain ⟨hftable, heq⟩ := Prod.mk.inj heq
  obtain ⟨hinode, hsleeps⟩ := Prod.mk.inj heq
  exact ⟨s, hftable, hinode, hsleeps,
    no_sleep_locked 10 s ⟨_, init_sleepBoot, System.leads_of_exec hs⟩⟩

/-- How a thread gets to a point of sleep with the lock. -/
def FsLock.wayToSleep : FsLock → List (SpinStep LockingCall FsOther)
  -- another thread is about to commit
  | .ftable => .call 1 .beginOp :: turns 1 17 ++ .call 1 .endOp :: turns 1 12 ++
      .call 0 (.fileClose 3 0) :: turns 0 20
  | .inode => .call 0 .inodeAlloc :: turns 0 11
  -- one block was synced
  | _ => .call 0 .beginOp :: turns 0 17 ++ .call 0 .sync :: turns 0 3 ++ .turn 0 false :: turns 0 9 ++
      .call 0 .endOp :: turns 0 30

theorem asleep_with {l : FsLock} (hl : l ∈ FsLock.critical) :
    ∃ s : SpinState FsData FsLock FsTest FsAct,
      ((sleepPoints 10).system FsData.Start).Reachable (fun _ _ => True) s ∧
      l ∈ s.held 0 ∧ ¬s.Awake FsLock.critical := by
  have hrun : ∀ l ∈ [FsLock.ftable, .inode, .log],
      (((sleepPoints 10).system FsData.Start).exec (fun _ _ => True) sleepBoot l.wayToSleep).map
        (fun s => (s.owner l, Cmd.sleeps (s.code 0))) = some (some 0, true) := by
    decide
  have hmem : l ∈ [FsLock.ftable, .inode, .log] := by
    simpa [FsLock.critical] using hl
  obtain ⟨s, hs, heq⟩ := Option.map_eq_some_iff.mp (hrun l hmem)
  obtain ⟨howner, hsleeps⟩ := Prod.mk.inj heq
  exact ⟨s, ⟨_, init_sleepBoot, System.leads_of_exec hs⟩, howner,
    fun hawake => hawake 0 hsleeps l howner hl⟩

/-- **Each of the three locks is held where a process may sleep**: `ftable.lock` in
`file_close`, the inode layer's lock in `inode_alloc`, and `loglock` in `cache_end_op`. -/
theorem sleep_locked :
    (∃ s : SpinState FsData FsLock FsTest FsAct,
      ((sleepPoints 10).system FsData.Start).Reachable (fun _ _ => True) s ∧
      .ftable ∈ s.held 0 ∧ ¬s.Awake FsLock.critical) ∧
    (∃ s : SpinState FsData FsLock FsTest FsAct,
      ((sleepPoints 10).system FsData.Start).Reachable (fun _ _ => True) s ∧
      .inode ∈ s.held 0 ∧ ¬s.Awake FsLock.critical) ∧
    ∃ s : SpinState FsData FsLock FsTest FsAct,
      ((sleepPoints 10).system FsData.Start).Reachable (fun _ _ => True) s ∧
      .log ∈ s.held 0 ∧ ¬s.Awake FsLock.critical :=
  ⟨asleep_with (.inl rfl), asleep_with (.inr (.inl rfl)), asleep_with (.inr (.inr rfl))⟩

end OsLab
