/-
Reading a file while operations are running (`inode_read` and `inode_map` with a null
context).

`inode_map` calls `cache->sync(ctx, b)` on the indirect block also when `ctx` is null,
and this writes the block to the device at once.  `readSystem` interleaves the calls to
the block cache that any number of `inode_read`s make with the calls of `opSystem`.

* `ReadsDirect` — the bytes that are read are in direct blocks;
* `home_writes_committed` — while this holds of all reads, the blocks outside the log
  area are written by `commit` and `recover_from_log` only;
* `indirect_read_writes` — a read through an indirect block writes what an operation has
  not committed.
-/
import OsLab.Fs.CrashSafety
import OsLab.Fs.BlockPrograms

namespace OsLab

/-- The block cache makes one call. -/
def BlockCall.run (sb : SuperBlock) (s : OpState) : (c : BlockCall) → Option (c.Ret × OpState)
  | .acquire n =>
    match (cacheAcquire n).run s.cache with
    | .ok (a, _) => (s.step sb (.acquire n)).map fun t => (a, t)
    | .error _ => none
  | .data b => some ((s.cache.heap b).data, s)
  | .store b d => (s.step sb (.modify b d)).map fun t => ((), t)
  | .sync ctx b => (s.step sb (.sync ctx b)).map fun t => ((), t)
  | .release b => (s.step sb (.release b)).map fun t => ((), t)

/-- The operations, and the `inode_read`s that are under way. -/
structure ReadState where
  ops : OpState
  readers : ℕ → Option (BlockProg (List UInt8 × ℕ))

inductive ReadStep
  /-- a call of an operation -/
  | op (l : OpCall)
  /-- thread `i` calls `inode_read` -/
  | read (i : ℕ) (inode : Inode) (offset count : ℕ)
  /-- the next call of the `inode_read` of thread `i`, or its return -/
  | go (i : ℕ)

namespace ReadState

/-- Thread `i` goes on with `p`. -/
def setReader (s : ReadState) (i : ℕ) (p : Option (BlockProg (List UInt8 × ℕ))) : ReadState :=
  { s with readers := Function.update s.readers i p }

/-- The next call of thread `i`. -/
def go (sb : SuperBlock) (s : ReadState) (i : ℕ) : Option ReadState :=
  match s.readers i with
  | none => none
  | some (.done _) => some (s.setReader i none)
  | some (.fail _) => none
  | some (.call c k) =>
    (c.run sb s.ops).map fun r => { s with ops := r.2 }.setReader i (some (k r.1))

def step (sb : SuperBlock) (s : ReadState) : ReadStep → Option ReadState
  | .op l => (s.ops.step sb l).map fun ops => { s with ops := ops }
  | .read i inode offset count =>
    match s.readers i with
    | none => some (s.setReader i (some (inodeRead (progCache sb) inode offset count)))
    | some _ => none
  | .go i => s.go sb i

end ReadState

/-- Any number of `inode_read`s among the calls of `opSystem`. -/
def readSystem (sb : SuperBlock) : System ReadState ReadStep where
  init s := (opSystem sb).init s.ops ∧ ∀ i, s.readers i = none
  step := ReadState.step sb

/-- The bytes of the file that are read are in direct blocks, or there is no indirect
block. -/
def ReadsDirect (inode : Inode) (offset count : ℕ) : Prop :=
  inode.entry.indirect = 0 ∨ min (offset + count) inode.entry.numBytes.toNat ≤ offset ∨
    min (offset + count) inode.entry.numBytes.toNat ≤ inodeNumDirect * blockSize

namespace ReadState

/-- The operations sync with their contexts, blocks are acquired outside the log area, and
sizes are `usize`. -/
def Disciplined (sb : SuperBlock) (s : ReadState) : ReadStep → Prop
  | .op l => LoggedOnly sb s.ops l
  | .read _ _ _ count => count < usizeSize
  | .go i =>
    match s.readers i with
    | some (.call (.acquire n) _) => Proper sb s.ops (.acquire n)
    | _ => True

/-- The step does not begin a read through an indirect block. -/
def Direct : ReadStep → Prop
  | .read _ inode offset count => ReadsDirect inode offset count
  | _ => True

/-- All reads are of direct blocks. -/
def DirectOnly (sb : SuperBlock) (s : ReadState) (l : ReadStep) : Prop :=
  Disciplined sb s l ∧ Direct l

end ReadState

/-! ### `inode_read` of direct blocks -/

/-- The call is not a sync. -/
def BlockCall.Quiet : BlockCall → Prop
  | .sync _ _ => False
  | _ => True

section Quiet

variable {sb : SuperBlock} {inode : Inode} {offset count : ℕ}

theorem quiet_inodeMap (h : inode.entry.indirect = 0 ∨ offset / blockSize < inodeNumDirect) :
    (inodeMap (progCache sb) none inode offset).All BlockCall.Quiet := by
  simp only [inodeMap]
  by_cases hdirect : offset / blockSize % 2 ^ 32 < inodeNumDirect
  · rw [if_pos hdirect]
    split <;> exact Prog.all_pure _
  · have hind : inode.entry.indirect = 0 := h.resolve_right fun hlt =>
      hdirect (Nat.lt_of_le_of_lt (Nat.mod_le _ _) hlt)
    simp only [if_neg hdirect, hind, if_true]
    split <;> exact Prog.all_pure _

theorem quiet_readChunk {total : ℕ} {dest : List UInt8}
    (h : inode.entry.indirect = 0 ∨ offset / blockSize < inodeNumDirect) :
    (readChunk (progCache sb) inode count offset total dest).All BlockCall.Quiet := by
  refine Prog.all_bind (quiet_inodeMap h) fun r => ?_
  refine Prog.all_bind (Prog.all_ask.mpr trivial) fun b => ?_
  refine Prog.all_bind (Prog.all_ask.mpr trivial) fun d => ?_
  exact Prog.all_bind (Prog.all_ask.mpr trivial) fun _ => Prog.all_pure _

theorem all_forChunks {α : Type} {P : BlockCall → Prop} {body : ℕ → ℕ → α → BlockProg α}
    (hbody : ∀ total < count, ∀ x, (body (offset + total) total x).All P) :
    ∀ fuel total x, (forChunks count body fuel (offset + total) total x).All P := by
  intro fuel
  induction fuel with
  | zero => exact fun _ _ => Prog.all_pure _
  | succ fuel ih =>
    intro total x
    rw [forChunks]
    split
    · rename_i hlt
      refine Prog.all_bind (hbody total hlt x) fun y => ?_
      simp only [Nat.add_assoc]
      exact ih _ y
    · exact Prog.all_pure _

/-- A pass of the loop of `inode_read` is at a byte that is to be read. -/
private theorem pass_lt {total nb m : ℕ} (h32 : nb < 2 ^ 32) (hcount : count < usizeSize)
    (hm : (if nb < (count + offset) % usizeSize then (nb + usizeSize - offset) % usizeSize
      else count) = m)
    (hoff : offset ≤ nb) (hle : offset ≤ (offset + m) % usizeSize) (htotal : total < m) :
    offset + total < min (offset + count) nb := by
  have husize : usizeSize = 2 ^ 64 := rfl
  by_cases hwrap : count + offset < usizeSize
  · rw [Nat.mod_eq_of_lt hwrap] at hm
    split at hm
    · have hsub : nb + usizeSize - offset = (nb - offset) + usizeSize := by omega
      rw [hsub, Nat.add_mod_right, Nat.mod_eq_of_lt (by omega)] at hm
      omega
    · omega
  · -- the sum wraps around to a number below `offset`
    have hmod : (count + offset) % usizeSize = count + offset - usizeSize := by
      rw [Nat.mod_eq_sub_mod (by omega), Nat.mod_eq_of_lt (by omega)]
    rw [hmod, if_neg (by omega)] at hm
    rw [← hm, Nat.add_comm, hmod] at hle
    omega

/-- **`inode_read`** of direct blocks syncs nothing. -/
theorem quiet_inodeRead (hcount : count < usizeSize) (h : ReadsDirect inode offset count) :
    (inodeRead (progCache sb) inode offset count).All BlockCall.Quiet := by
  have h32 : inode.entry.numBytes.toNat < 2 ^ 32 := inode.entry.numBytes.toNat_lt
  simp only [inodeRead]
  generalize hm : (if inode.entry.numBytes.toNat < (count + offset) % usizeSize
    then (inode.entry.numBytes.toNat + usizeSize - offset) % usizeSize else count) = m
  split
  · rename_i hassert
    obtain ⟨hoff, -, hle⟩ := hassert
    have hbody : ∀ total < m, ∀ x,
        (readChunk (progCache sb) inode m (offset + total) total x).All BlockCall.Quiet := by
      intro total htotal x
      have hlt := pass_lt h32 hcount hm hoff hle htotal
      refine quiet_readChunk (h.imp id fun h => Nat.div_lt_of_lt_mul ?_)
      rw [Nat.mul_comm]
      omega
    exact Prog.all_bind (all_forChunks hbody m 0 []) fun dest => Prog.all_pure _
  · exact Prog.all_throw _

end Quiet

/-! ### Runs -/

namespace OpState

variable {sb : SuperBlock} {s t : OpState}

/-- The device writes outside the log area are those of `recover_from_log`, and those of
the groups of `commit` after their header writes. -/
def OnlyCommits (sb : SuperBlock) (s : OpState) : Prop :=
  ∀ j n d, s.cache.trace[j]? = some (n, d) → ¬ sb.InLog n →
    j < ((logFormat sb).replay s.disk).length ∨
      ∃ e ∈ s.commits, e.headerWrite < j ∧ (n, d) ∈ e.group

theorem onlyCommits_init (h : (opSystem sb).init s) : s.OnlyCommits sb := by
  obtain ⟨hsound, hboot, -⟩ := h
  obtain ⟨cache, hcache, hb⟩ := Bcache.initBcache_spec hsound
  obtain rfl : s.cache = cache := Except.ok.inj (hboot.symm.trans hcache)
  intro j n d hj _
  rw [hb.trace] at hj
  exact .inl (List.getElem?_eq_some_iff.mp hj).1

theorem OnlyCommits.of_eq (h : s.OnlyCommits sb) (htrace : t.cache.trace = s.cache.trace)
    (hdisk : t.disk = s.disk) (hcommits : t.commits = s.commits) : t.OnlyCommits sb := by
  intro j n d hj hn
  rw [htrace] at hj
  rw [hdisk, hcommits]
  exact h j n d hj hn

/-- The calls other than `commit` and a sync without a context write nothing. -/
theorem trace_eq_of_step {l : OpCall} (hi : s.Inv sb) (hl : ∀ a, l ≠ .sync none a)
    (hne : l ≠ .commit) (hs : s.step sb l = some t) :
    t.cache.trace = s.cache.trace ∧ t.disk = s.disk ∧ t.commits = s.commits := by
  cases l with
  | beginOp =>
    obtain ⟨log, -, rfl⟩ := step_beginOp hs
    exact ⟨rfl, rfl, rfl⟩
  | acquire n =>
    obtain ⟨a, ha, ht⟩ := step_acquire hi.wf hs
    exact ⟨ha.trace, by rw [ht], by rw [ht]⟩
  | modify a d =>
    obtain ⟨-, rfl⟩ := step_modify hs
    exact ⟨rfl, rfl, rfl⟩
  | sync ctx a =>
    cases ctx with
    | none => exact absurd rfl (hl a)
    | some c =>
      obtain ⟨-, -, rm, header, -, rfl⟩ := step_sync_some hs
      exact ⟨rfl, rfl, rfl⟩
  | release a =>
    obtain ⟨-, n, hr, ht⟩ := step_release hi.wf (fun a ha => (hi.held_iff a).mp ha) hs
    exact ⟨hr.trace, by rw [ht], by rw [ht]⟩
  | endOp c =>
    obtain ⟨-, doCommit, log, -, rfl⟩ := step_endOp hs
    exact ⟨rfl, rfl, rfl⟩
  | commit => exact absurd rfl hne

theorem onlyCommits_commit (hlog : 0 < sb.numLogBlocks) (h : s.OnlyCommits sb)
    (hc : Bcache.Committable sb s.cache) (hs : s.step sb .commit = some t) : t.OnlyCommits sb := by
  obtain ⟨-, ⟨hw, -, -, -, -⟩, ht⟩ := step_commit hc hs
  have hdisk : t.disk = s.disk := by rw [ht]
  have hcommits : t.commits
      = s.commits ++ [⟨s.cache.trace.length, s.syncs.length, s.cache.group⟩] := by rw [ht]
  have htrace : t.cache.trace = s.cache.trace ++ _ := hw.trace
  have hlen : s.cache.group.length ≤ (logFormat sb).cap := by
    have hfits := hc.fits.1
    rwa [← Bcache.map_fst_group, List.length_map] at hfits
  intro j n d hj hn
  rw [hdisk, hcommits]
  rw [htrace] at hj
  by_cases hold : j < s.cache.trace.length
  · rw [List.getElem?_append_left hold] at hj
    refine (h j n d hj hn).imp id ?_
    rintro ⟨e, he, hlt⟩
    exact ⟨e, List.mem_append_left _ he, hlt⟩
  · -- a write of this commit
    rw [List.getElem?_append_right (Nat.not_lt.mp hold)] at hj
    obtain ⟨hlt, hmem⟩ := RedoLog.commit_outside hlen hj (outside_of_not_inLog hlog hn)
    refine .inr ⟨_, List.mem_append_right _ (List.mem_singleton.mpr rfl), ?_, hmem⟩
    show s.cache.trace.length + s.cache.group.length < j
    omega

/-- Every call with a context keeps it. -/
theorem onlyCommits_step (hlog : 0 < sb.numLogBlocks) {l : OpCall} (h : s.OnlyCommits sb)
    (hi : s.Inv sb) (hl : LoggedOnly sb s l) (hs : s.step sb l = some t) : t.OnlyCommits sb := by
  by_cases hcommit : l = .commit
  · subst hcommit
    exact onlyCommits_commit hlog h (hi.committable hlog hl) hs
  · have hctx : ∀ a, l ≠ .sync none a := by
      rintro a rfl
      exact hl
    have heq := trace_eq_of_step hi hctx hcommit hs
    exact h.of_eq heq.1 heq.2.1 heq.2.2

end OpState

/-- What a call that is not a sync does: nothing, or a call that writes nothing. -/
theorem BlockCall.run_cases {sb : SuperBlock} {s t : OpState} {c : BlockCall} {r : c.Ret}
    (hq : c.Quiet) (h : c.run sb s = some (r, t)) :
    t = s ∨ ∃ l, s.step sb l = some t ∧ l ≠ .commit ∧ (∀ a, l ≠ .sync none a) ∧
      ∀ n, l = .acquire n → c = .acquire n := by
  cases c with
  | acquire n =>
    simp only [run] at h
    split at h
    · obtain ⟨u, hu, heq⟩ := Option.map_eq_some_iff.mp h
      obtain rfl : u = t := (Prod.mk.inj heq).2
      exact .inr ⟨.acquire n, hu, by simp, by simp, fun m hm => by rw [OpCall.acquire.inj hm]⟩
    · cases h
  | data b =>
    exact .inl (Prod.mk.inj (Option.some.inj h)).2.symm
  | store b d =>
    obtain ⟨u, hu, heq⟩ := Option.map_eq_some_iff.mp h
    obtain rfl : u = t := (Prod.mk.inj heq).2
    exact .inr ⟨.modify b d, hu, by simp, by simp, by simp⟩
  | sync ctx b => exact hq.elim
  | release b =>
    obtain ⟨u, hu, heq⟩ := Option.map_eq_some_iff.mp h
    obtain rfl : u = t := (Prod.mk.inj heq).2
    exact .inr ⟨.release b, hu, by simp, by simp, by simp⟩

namespace ReadState

variable {sb : SuperBlock} {s t : ReadState} {i : ℕ} {l : ReadStep}

/-- What holds while all reads are of direct blocks. -/
structure Inv (sb : SuperBlock) (s : ReadState) : Prop where
  ops : (opSystem sb).Reachable (LoggedOnly sb) s.ops
  only : s.ops.OnlyCommits sb
  quiet : ∀ i p, s.readers i = some p → p.All BlockCall.Quiet

/-- The step of a reader. -/
theorem go_cases (h : s.go sb i = some t) :
    (∃ r, s.readers i = some (.done r) ∧ t = s.setReader i none) ∨
    ∃ c k r ops, s.readers i = some (.call c k) ∧ c.run sb s.ops = some (r, ops) ∧
      t = { s with ops := ops }.setReader i (some (k r)) := by
  simp only [go] at h
  split at h
  · cases h
  · rename_i r hr
    exact .inl ⟨r, hr, (Option.some.inj h).symm⟩
  · cases h
  · rename_i c k hr
    obtain ⟨⟨r, ops⟩, hrun, rfl⟩ := Option.map_eq_some_iff.mp h
    exact .inr ⟨c, k, r, ops, hr, hrun, rfl⟩

theorem Inv.setReader {ops : OpState} {p : Option (BlockProg (List UInt8 × ℕ))}
    (h : s.Inv sb) (hops : (opSystem sb).Reachable (LoggedOnly sb) ops)
    (honly : ops.OnlyCommits sb) (hp : ∀ q, p = some q → q.All BlockCall.Quiet) :
    ({ s with ops := ops }.setReader i p).Inv sb := by
  refine ⟨hops, honly, fun j q hj => ?_⟩
  change Function.update s.readers i p j = some q at hj
  by_cases hji : j = i
  · rw [hji, Function.update_self] at hj
    exact hp q hj
  · rw [Function.update_of_ne hji] at hj
    exact h.quiet j q hj

theorem inv_go (hlog : 0 < sb.numLogBlocks) (h : s.Inv sb) (hd : Disciplined sb s (.go i))
    (hs : s.go sb i = some t) : t.Inv sb := by
  rcases go_cases hs with ⟨r, -, rfl⟩ | ⟨c, k, r, ops, hp, hrun, rfl⟩
  · exact h.setReader h.ops h.only (by simp)
  obtain ⟨hq, hk⟩ := h.quiet i _ hp
  have hkr : ∀ q, some (k r) = some q → q.All BlockCall.Quiet := fun q hqk =>
    Option.some.inj hqk ▸ hk r
  rcases BlockCall.run_cases hq hrun with rfl | ⟨l, hstep, hne, hctx, hacq⟩
  · exact h.setReader h.ops h.only hkr
  have hl : LoggedOnly sb s.ops l := by
    cases l with
    | acquire n =>
      obtain rfl := hacq n rfl
      simp only [Disciplined, hp] at hd
      exact hd
    | commit => exact absurd rfl hne
    | sync ctx a =>
      cases ctx with
      | none => exact absurd rfl (hctx a)
      | some c => trivial
    | _ => trivial
  have hinv := OpState.inv_of_loggedOnly hlog h.ops
  exact h.setReader (h.ops.step hl hstep) (OpState.onlyCommits_step hlog h.only hinv hl hstep) hkr

/-- Every step keeps it. -/
theorem inv_step (hlog : 0 < sb.numLogBlocks) (h : s.Inv sb) (hl : DirectOnly sb s l)
    (hs : s.step sb l = some t) : t.Inv sb := by
  obtain ⟨hd, hdirect⟩ := hl
  cases l with
  | op l =>
    obtain ⟨ops, hstep, rfl⟩ := Option.map_eq_some_iff.mp hs
    have hinv := OpState.inv_of_loggedOnly hlog h.ops
    exact ⟨h.ops.step hd hstep, OpState.onlyCommits_step hlog h.only hinv hd hstep, h.quiet⟩
  | read i inode offset count =>
    simp only [step] at hs
    split at hs
    · cases hs
      refine h.setReader h.ops h.only fun q hq => ?_
      rw [← Option.some.inj hq]
      exact quiet_inodeRead hd hdirect
    · cases hs
  | go i => exact inv_go hlog h hd hs

theorem inv_of_reachable (hlog : 0 < sb.numLogBlocks)
    (h : (readSystem sb).Reachable (DirectOnly sb) s) : s.Inv sb := by
  refine h.induction (fun s hs => ?_) fun _ _ _ hi hl hs => inv_step hlog hi hl hs
  obtain ⟨hinit, hreaders⟩ := hs
  refine ⟨.of_init hinit, OpState.onlyCommits_init hinit, fun i p hp => ?_⟩
  rw [hreaders i] at hp
  cases hp

/-- A reader writes nothing. -/
theorem trace_go (hlog : 0 < sb.numLogBlocks) (h : s.Inv sb) (hs : s.go sb i = some t) :
    t.ops.cache.trace = s.ops.cache.trace := by
  rcases go_cases hs with ⟨r, -, rfl⟩ | ⟨c, k, r, ops, hp, hrun, rfl⟩
  · rfl
  rcases BlockCall.run_cases (h.quiet i _ hp).1 hrun with rfl | ⟨l, hstep, hne, hctx, -⟩
  · rfl
  · exact (OpState.trace_eq_of_step (OpState.inv_of_loggedOnly hlog h.ops) hctx hne hstep).1

end ReadState

/-- **Home blocks are written by commits only**, in every run whose reads are of direct
blocks: a device write outside the log area is one of `recover_from_log`, or one of a
group whose header has been written before it; and the reads write nothing. -/
theorem home_writes_committed (sb : SuperBlock) (hlog : 0 < sb.numLogBlocks) (s : ReadState)
    (h : (readSystem sb).Reachable (ReadState.DirectOnly sb) s) :
    s.ops.OnlyCommits sb ∧ ∀ i t, (readSystem sb).step s (.go i) = some t →
      t.ops.cache.trace = s.ops.cache.trace := by
  have hi := ReadState.inv_of_reachable hlog h
  exact ⟨hi.only, fun i t ht => ReadState.trace_go hlog hi ht⟩

namespace ReadState

instance (sb : SuperBlock) (s : ReadState) (l : ReadStep) : Decidable (Disciplined sb s l) :=
  match l with
  | .op l => inferInstanceAs (Decidable (LoggedOnly sb s.ops l))
  | .read _ _ _ count => inferInstanceAs (Decidable (count < usizeSize))
  | .go i =>
    match h : s.readers i with
    | some (.call (.acquire n) _) =>
      decidable_of_iff (Proper sb s.ops (.acquire n)) (by simp [Disciplined, h])
    | some (.call (.data _) _) | some (.call (.store _ _) _) | some (.call (.sync _ _) _)
    | some (.call (.release _) _) | some (.done _) | some (.fail _) | none =>
      isTrue (by simp [Disciplined, h])

instance (inode : Inode) (offset count : ℕ) : Decidable (ReadsDirect inode offset count) :=
  inferInstanceAs (Decidable (_ ∨ _ ∨ _))

instance : (l : ReadStep) → Decidable (Direct l)
  | .read _ inode offset count => inferInstanceAs (Decidable (ReadsDirect inode offset count))
  | .op _ | .go _ => inferInstanceAs (Decidable True)

instance (sb : SuperBlock) (s : ReadState) (l : ReadStep) : Decidable (DirectOnly sb s l) :=
  inferInstanceAs (Decidable (_ ∧ _))

/-- The state after `init_bcache`, without readers. -/
def boot (sb : SuperBlock) (disk : ℕ → BlockData) : Option ReadState :=
  (OpState.boot sb disk).map fun ops => ⟨ops, fun _ => none⟩

/-- A run executed from a boot reaches a state of the system. -/
theorem exists_reachable_of_exec {α : Type} {ok : ReadState → ReadStep → Prop}
    [∀ s l, Decidable (ok s l)] {sb : SuperBlock} {disk : ℕ → BlockData}
    (hD : (logFormat sb).Sound disk) {steps : List ReadStep} {f : ReadState → α} {v : α}
    (h : ((boot sb disk).bind fun s => (readSystem sb).exec ok s steps).map f = some v) :
    ∃ s, (readSystem sb).Reachable ok s ∧ f s = v := by
  obtain ⟨s, hexec, hv⟩ := Option.map_eq_some_iff.mp h
  obtain ⟨s₀, hboot, hrun⟩ := Option.bind_eq_some_iff.mp hexec
  obtain ⟨ops, hops, rfl⟩ := Option.map_eq_some_iff.mp hboot
  have hinit : (readSystem sb).init ⟨ops, fun _ => none⟩ :=
    ⟨(OpState.init_of_boot hD hops).1, fun _ => rfl⟩
  exact ⟨s, (System.Reachable.of_init hinit).leads (System.leads_of_exec hrun), hv⟩

end ReadState

/-- An operation syncs block 500, a read of a direct block runs, and the operation is
committed. -/
theorem home_writes_committed_mkfs : ∃ s : ReadState,
    s.ops.cache.trace.map Prod.fst = [2, 3, 2, 500, 2] ∧ s.ops.OnlyCommits .mkfs := by
  have hrun : ((ReadState.boot .mkfs OpState.blankDisk).bind fun s =>
      (readSystem .mkfs).exec (ReadState.DirectOnly .mkfs) s
        [.op .beginOp, .op (.acquire 500), .op (.modify 0 (.fill 1)), .op (.sync (some 0) 0),
          .op (.release 0),
          .read 0 ⟨1, 1, true, { InodeEntry.zero with numBytes := 9, indirect := 500 }⟩ 0 9,
          .go 0, .go 0, .go 0, .go 0, .op (.endOp 0), .op .commit]).map
      (fun s => s.ops.cache.trace.map Prod.fst) = some [2, 3, 2, 500, 2] := by
    decide +kernel
  obtain ⟨s, hreach, hv⟩ := ReadState.exists_reachable_of_exec (OpState.sound_blankDisk .mkfs) hrun
  exact ⟨s, hv, (home_writes_committed .mkfs (by decide) s hreach).1⟩

/-- A read of the first byte behind the direct blocks writes the indirect block, which an
operation that has not ended has changed. -/
theorem indirect_read_writes : ∃ s : ReadState,
    (readSystem .mkfs).Reachable (ReadState.Disciplined .mkfs) s ∧ s.ops.running = {0} ∧
      (s.ops.cache.trace.map fun w => (w.1, w.2 0)) = [(2, 0), (500, 1)] ∧
      ¬ s.ops.OnlyCommits .mkfs := by
  have hrun : ((ReadState.boot .mkfs OpState.blankDisk).bind fun s =>
      (readSystem .mkfs).exec (ReadState.Disciplined .mkfs) s
        [.op .beginOp, .op (.acquire 500), .op (.modify 0 (.fill 1)), .op (.sync (some 0) 0),
          .op (.release 0),
          .read 0 ⟨1, 1, true, { InodeEntry.zero with numBytes := 6145, indirect := 500 }⟩ 6144 1,
          .go 0, .go 0, .go 0]).map
      (fun s => (s.ops.running, (s.ops.cache.trace.map fun w => (w.1, w.2 0)), s.ops.commits.length,
        ((logFormat .mkfs).replay s.ops.disk).length))
      = some ({0}, [(2, 0), (500, 1)], 0, 1) := by
    decide +kernel
  obtain ⟨s, hreach, hv⟩ := ReadState.exists_reachable_of_exec (OpState.sound_blankDisk .mkfs) hrun
  obtain ⟨hrunning, hv⟩ := Prod.mk.inj hv
  obtain ⟨htrace, hv⟩ := Prod.mk.inj hv
  obtain ⟨hcommits, hreplay⟩ := Prod.mk.inj hv
  refine ⟨s, hreach, hrunning, htrace, fun h => ?_⟩
  have hget : (s.ops.cache.trace.map fun w => (w.1, w.2 0))[1]? = some (500, 1) := by rw [htrace]; rfl
  rw [List.getElem?_map] at hget
  obtain ⟨⟨n, d⟩, hw, hnd⟩ := Option.map_eq_some_iff.mp hget
  obtain rfl : n = 500 := (Prod.mk.inj hnd).1
  rcases h 1 500 d hw (by decide) with hlt | ⟨e, he, -⟩
  · omega
  · rw [List.eq_nil_of_length_eq_zero hcommits] at he
    cases he

end OsLab
