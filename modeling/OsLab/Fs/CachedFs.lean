/-
The inode layer over the block cache.

`cachedOps` makes the calls of the inode layer to the block cache with its log: each is one
step of `opSystem`.  A client names a block that it has acquired by its number; at any time
there is one buffer of it at most.

* `CacheSim` — the cache in the middle of a program, seen as a map of blocks;
* `cachedOps_simulates` — every call of `plainOps` is made by the cache as well, unless the
  context of the operation has no room for a block that is to be logged.
-/
import OsLab.Fs.PlainCache
import OsLab.Fs.FsPrograms
import OsLab.Fs.CacheRefinement
import OsLab.Fs.CrashSafety

namespace OsLab

/-- The buffer of block `n`. -/
def OpState.bufferOf (x : OpState) (n : ℕ) : ℕ := (x.cache.findBlock n).getD 0

/-- One step of the block cache. -/
def opCall (sb : SuperBlock) (l : OpCall) : StateT OpState (Except Fault) Unit := fun x =>
  match x.step sb l with
  | some y => .ok ((), y)
  | none => .error .panic

/-- The calls to the block cache. -/
def cachedOps (sb : SuperBlock) : BlockOps (StateT OpState (Except Fault)) where
  acquire n := do
    opCall sb (.acquire n)
    return n
  data b := do
    let x ← get
    return (x.cache.heap (x.bufferOf b)).data
  store b d := do opCall sb (.modify ((← get).bufferOf b) d)
  sync ctx b := do opCall sb (.sync ctx ((← get).bufferOf b))
  release b := do opCall sb (.release ((← get).bufferOf b))

namespace OpState

variable {sb : SuperBlock} {s t x y : OpState} {a b c n : ℕ} {d : BlockData}

/-- A held block has one buffer. -/
theorem bufferOf_eq (hi : x.Inv sb) (ha : x.cache.Held n a) : x.bufferOf n = a := by
  rw [bufferOf, hi.wf.findBlock n a ha.1]
  rfl

/-- A block that agrees with the device is written to it. -/
theorem durable_rewrite (hs : s.Durable sb) (hn : s.cache.Held n a)
    (hsame : (s.cache.heap a).data = s.cache.device n) (h : s.step sb (.sync none a) = some t) :
    t.Durable sb := by
  obtain ⟨-, ht⟩ := step_sync_none h
  have hno : (s.cache.heap a).blockNo = n := hn.1.2.2
  have hdev : t.cache.device = s.cache.device := by
    rw [ht]
    show Function.update s.cache.device (s.cache.heap a).blockNo (s.cache.heap a).data = _
    rw [hno, hsame, Function.update_eq_self]
  have htrace : t.cache.trace = s.cache.trace ++ [(n, s.cache.device n)] := by
    rw [ht]
    show s.cache.trace ++ [((s.cache.heap a).blockNo, (s.cache.heap a).data)] = _
    rw [hno, hsame]
  have hdisk : t.disk = s.disk := by rw [ht]
  have hcommits : t.commits = s.commits := by rw [ht]
  have hcontent : ∀ j, t.contentAfter sb j = s.contentAfter sb j := fun j => by
    rw [contentAfter, contentAfter, hdisk, hcommits]
  -- the write changes no disk that a crash can leave
  have hcrash : ∀ k, t.crashDisk k = s.crashDisk k := by
    intro k
    rw [crashDisk, crashDisk, hdisk, htrace]
    by_cases hk : k ≤ s.cache.trace.length
    · rw [List.take_append_of_le_length hk]
    · have hold : s.cache.trace.take k = s.cache.trace := List.take_of_length_le (by omega)
      have hnew : (s.cache.trace ++ [(n, s.cache.device n)]).take k
          = s.cache.trace ++ [(n, s.cache.device n)] :=
        List.take_of_length_le (by rw [List.length_append, List.length_singleton]; omega)
      rw [hold, hnew, writeAll_append, ← hs.device]
      exact Function.update_eq_self n _
  refine ⟨?_, by rw [hdev]; exact hs.empty, fun m hm => ?_, fun e he => ?_, fun k => ?_⟩
  · rw [hdev, htrace, hdisk, writeAll_append, ← hs.device]
    exact (Function.update_eq_self n _).symm
  · rw [hdev, hcontent, hcommits]
    exact hs.content m hm
  · obtain ⟨hb, hget, htg⟩ := hs.header e (hcommits ▸ he)
    refine ⟨hb, ?_, htg⟩
    rw [htrace, List.getElem?_append_left (List.getElem?_eq_some_iff.mp hget).1, hget]
  · obtain ⟨hsound, j, hj⟩ := hs.crash k
    rw [hcrash]
    refine ⟨hsound, j, hcommits ▸ hj.le, fun m hm => ?_, hcommits ▸ hj.committed⟩
    rw [hcrash, hcontent]
    exact hj.content m hm

end OpState

/-- What an operation has used of the log since state `x₀`, when `l` has been synced. -/
structure LogUse (x₀ x : OpState) (ctx : Option ℕ) (l : List ℕ) : Prop where
  running : x.running = x₀.running
  commits : x.commits = x₀.commits
  disk : x.disk = x₀.disk
  nextOp : x.nextOp = x₀.nextOp
  log : x.cache.log = x₀.cache.log
  null : ctx = none → x.cache.header = x₀.cache.header ∧ l = []
  logged : ∀ n, n ∈ x.cache.header.logged ↔ n ∈ x₀.cache.header.logged ∨ n ∈ l
  op : ∀ c, ctx = some c → c ∈ x.running ∧
    x.rm c + (l.toFinset \ x₀.cache.header.logged.toFinset).card = x₀.rm c

/-- A call that does not log. -/
theorem LogUse.of_eq {x₀ x y : OpState} {ctx : Option ℕ} {l : List ℕ} (hu : LogUse x₀ x ctx l)
    (hheader : y.cache.header = x.cache.header) (hlog : y.cache.log = x.cache.log)
    (hrun : y.running = x.running) (hcommits : y.commits = x.commits) (hdisk : y.disk = x.disk)
    (hnext : y.nextOp = x.nextOp) (hrm : y.rm = x.rm) : LogUse x₀ y ctx l where
  running := hrun.trans hu.running
  commits := hcommits.trans hu.commits
  disk := hdisk.trans hu.disk
  nextOp := hnext.trans hu.nextOp
  log := hlog.trans hu.log
  null h := ⟨hheader.trans (hu.null h).1, (hu.null h).2⟩
  logged n := by rw [hheader, hu.logged]
  op c hc := by
    rw [hrun, hrm]
    exact hu.op c hc

/-- The cache in the middle of a program that was started in `x₀`: the program has the
blocks as `h` says, and sees the blocks `s.1`. -/
structure CacheSim (sb : SuperBlock) (ctx : Option ℕ) (x₀ : OpState) (h : ℕ → Grip)
    (s : BlockStore × List ℕ) (x : OpState) : Prop where
  inv : x.Inv sb
  tracks : x.Tracks sb
  durable : x.Durable sb
  use : LogUse x₀ x ctx s.2
  grip : ∀ n, h n ≠ .free ↔ n ∈ s.1.held
  held : ∀ n, n ∈ s.1.held ↔ ∃ a, x.cache.Held n a
  data : ∀ n a, x.cache.Held n a → (x.cache.heap a).data = s.1.blocks n
  dirty : ∀ n a, x.cache.Held n a → a ∈ x.dirty → h n = .dirty
  idle : ∀ n, ¬ sb.InLog n → n ∉ s.1.held → s.1.blocks n = x.store sb n

/-- The number of new blocks in a list that grows. -/
theorem card_append_fresh {l : List ℕ} {L : Finset ℕ} {b : ℕ} (hL : b ∉ L) (hl : b ∉ l) :
    ((l ++ [b]).toFinset \ L).card = (l.toFinset \ L).card + 1 := by
  have hset : (l ++ [b]).toFinset \ L = insert b (l.toFinset \ L) := by
    ext m
    by_cases hm : m = b
    · simp [hm, hL]
    · simp [hm]
  rw [hset, Finset.card_insert_of_notMem (by simp [hl])]

theorem sdiff_append_old {l : List ℕ} {L : Finset ℕ} {b : ℕ} (h : b ∈ L ∨ b ∈ l) :
    (l ++ [b]).toFinset \ L = l.toFinset \ L := by
  ext m
  by_cases hm : m = b
  · rcases h with h | h <;> simp [hm, h]
  · simp [hm]

/-- The operation has to log more blocks than its context allows. -/
def Overdrawn (x₀ : OpState) (ctx : Option ℕ) (s : BlockStore × List ℕ) : Prop :=
  ∃ c, ctx = some c ∧ x₀.rm c < (s.2.toFinset \ x₀.cache.header.logged.toFinset).card

namespace CacheSim

variable {sb : SuperBlock} {ctx : Option ℕ} {x₀ x y : OpState} {h : ℕ → Grip}
  {s : BlockStore × List ℕ} {a b n : ℕ} {d : BlockData}

variable (hs : CacheSim sb ctx x₀ h s x)
include hs

/-- A block in hand has a buffer. -/
theorem exists_held (hb : h b ≠ .free) : ∃ a, x.cache.Held b a ∧ x.bufferOf b = a ∧ a ∈ x.held := by
  obtain ⟨a, ha⟩ := (hs.held b).mp ((hs.grip b).mp hb)
  exact ⟨a, ha, OpState.bufferOf_eq hs.inv ha, (hs.inv.held_iff a).mpr ⟨b, ha⟩⟩

theorem acquire (hlog : 0 < sb.numLogBlocks) (hn : sb.Served n) (hfree : n ∉ s.1.held) :
    ∃ y, x.step sb (.acquire n) = some y ∧ CacheSim sb ctx x₀ (Function.update h n .clean)
      ({ s.1 with held := insert n s.1.held }, s.2) y := by
  have hnone : ∀ a, ¬ x.cache.Held n a := fun a ha => hfree ((hs.held n).mpr ⟨a, ha⟩)
  obtain ⟨a, cache, hrun, ha⟩ := exists_run_of_wp
    (Bcache.wp_cacheAcquire (E := fun _ => False) hs.inv.wf hnone)
  set y : OpState := { x with cache := cache, held := insert a x.held } with hy
  have hstep : x.step sb (.acquire n) = some y := by
    simp only [OpState.step, hrun]
    rfl
  have hfresh : a ∉ x.held := fun hmem => by
    obtain ⟨m, hm⟩ := (hs.inv.held_iff a).mp hmem
    exact ha.idle m hm
  refine ⟨y, hstep, ?_⟩
  refine
    { inv := OpState.inv_step hlog hs.inv (l := .acquire n) hn hstep
      tracks := OpState.tracks_step hlog hs.tracks hs.inv (l := .acquire n) hn (by simp) hstep
      durable := OpState.durable_step hlog hs.durable hs.inv (l := .acquire n) hn hstep
      use := ?_, grip := fun m => ?_, held := fun m => ?_, data := fun m b hb => ?_
      dirty := fun m b hb hd => ?_, idle := fun m hm hidle => ?_ }
  · exact hs.use.of_eq ha.header ha.log rfl rfl rfl rfl rfl
  · by_cases hmn : m = n
    · subst hmn
      simp
    · rw [Function.update_of_ne hmn, Finset.mem_insert, or_iff_right hmn]
      exact hs.grip m
  · rw [Finset.mem_insert, hs.held]
    constructor
    · rintro (rfl | ⟨b, hb⟩)
      · exact ⟨a, ha.held⟩
      · exact ⟨b, ha.held_iff.mpr (.inl hb)⟩
    · rintro ⟨b, hb⟩
      rcases ha.held_iff.mp hb with hb | ⟨rfl, -⟩
      · exact .inr ⟨b, hb⟩
      · exact .inl rfl
  · rcases ha.held_iff.mp hb with hold | ⟨rfl, rfl⟩
    · rw [show y.cache.heap b = x.cache.heap b from ha.heap b (ha.ne_of_held hold)]
      exact hs.data m b hold
    · rw [show (y.cache.heap b).data = x.cache.view m from ha.data,
        hs.tracks.view_eq hs.inv hn.1 hnone]
      exact (hs.idle m hn.1 hfree).symm
  · rcases ha.held_iff.mp hb with hold | ⟨rfl, rfl⟩
    · have hmn : m ≠ n := by
        rintro rfl
        exact hnone b hold
      rw [Function.update_of_ne hmn]
      exact hs.dirty m b hold hd
    · exact absurd (hs.inv.dirty hd) hfresh
  · rw [show y.store sb = x.store sb from OpState.store_eq rfl rfl]
    exact hs.idle m hm fun hmem => hidle (Finset.mem_insert_of_mem hmem)

/-- `block->data` -/
theorem data_eq (hb : h b ≠ .free) : (x.cache.heap (x.bufferOf b)).data = s.1.blocks b := by
  obtain ⟨a, ha, hbuf, -⟩ := hs.exists_held hb
  rw [hbuf]
  exact hs.data b a ha

theorem modify (hlog : 0 < sb.numLogBlocks) (hb : h b ≠ .free) (d : BlockData) :
    ∃ y, x.step sb (.modify (x.bufferOf b) d) = some y ∧
      CacheSim sb ctx x₀ (Function.update h b .dirty)
        ({ s.1 with blocks := Function.update s.1.blocks b d }, s.2) y := by
  obtain ⟨a, ha, hbuf, hmem⟩ := hs.exists_held hb
  rw [hbuf]
  set y : OpState := { x with
    cache := x.cache.setBlock a fun b => { b with data := d }
    dirty := insert a x.dirty } with hy
  have hstep : x.step sb (.modify a d) = some y := if_pos hmem
  have hheld : ∀ m c, y.cache.Held m c ↔ x.cache.Held m c := fun m c =>
    Bcache.held_setBlock rfl rfl rfl
  -- the other held buffers are those of other blocks
  have hother : ∀ m c, x.cache.Held m c → c ≠ a → m ≠ b := by
    rintro m c hc hca rfl
    exact hca (hs.inv.wf.unique hc.1 ha.1)
  refine ⟨y, hstep, ?_⟩
  refine
    { inv := OpState.inv_step hlog hs.inv (l := .modify a d) trivial hstep
      tracks := OpState.tracks_step hlog hs.tracks hs.inv (l := .modify a d) trivial (by simp) hstep
      durable := OpState.durable_step hlog hs.durable hs.inv (l := .modify a d) trivial hstep
      use := hs.use.of_eq rfl rfl rfl rfl rfl rfl rfl, grip := fun m => ?_, held := fun m => ?_
      data := fun m c hc => ?_, dirty := fun m c hc hd => ?_, idle := fun m hm hidle => ?_ }
  · by_cases hmb : m = b
    · subst hmb
      simp [(hs.grip m).mp hb]
    · rw [Function.update_of_ne hmb]
      exact hs.grip m
  · exact (hs.held m).trans (exists_congr fun c => (hheld m c).symm)
  · have hc' := (hheld m c).mp hc
    show _ = Function.update s.1.blocks b d m
    by_cases hca : c = a
    · subst hca
      rw [hc'.1.number ha.1, Function.update_self]
      show ((x.cache.setBlock c fun b => { b with data := d }).heap c).data = d
      rw [Bcache.heap_setBlock_self]
    · rw [Function.update_of_ne (hother m c hc' hca), ← hs.data m c hc']
      show ((x.cache.setBlock a fun b => { b with data := d }).heap c).data = _
      rw [Bcache.heap_setBlock_ne hca]
  · have hc' := (hheld m c).mp hc
    by_cases hca : c = a
    · subst hca
      rw [hc'.1.number ha.1, Function.update_self]
    · rw [Function.update_of_ne (hother m c hc' hca)]
      exact hs.dirty m c hc' ((Finset.mem_insert.mp hd).resolve_left hca)
  · have hmb : m ≠ b := by
      rintro rfl
      exact hidle ((hs.grip m).mp hb)
    show Function.update s.1.blocks b d m = _
    rw [Function.update_of_ne hmb, show y.store sb = x.store sb from OpState.store_eq rfl rfl]
    exact hs.idle m hm hidle

theorem release (hlog : 0 < sb.numLogBlocks) (hb : h b = .clean) :
    ∃ y, x.step sb (.release (x.bufferOf b)) = some y ∧
      CacheSim sb ctx x₀ (Function.update h b .free)
        ({ s.1 with held := s.1.held.erase b }, s.2) y := by
  obtain ⟨a, ha, hbuf, hmem⟩ := hs.exists_held (b := b) (by rw [hb]; decide)
  rw [hbuf]
  have hclean : a ∉ x.dirty := fun hd => by
    have hdirty := hs.dirty b a ha hd
    rw [hb] at hdirty
    cases hdirty
  obtain ⟨u, cache, hrun, hr⟩ := exists_run_of_wp
    (Bcache.wp_cacheRelease (E := fun _ => False) hs.inv.wf ha)
  set y : OpState := { x with
    cache := cache, held := x.held.erase a, dirty := x.dirty.erase a } with hy
  have hstep : x.step sb (.release a) = some y := by
    simp only [OpState.step, if_pos hmem, hrun]
    rfl
  have hheld : ∀ m c, y.cache.Held m c ↔ x.cache.Held m c ∧ c ≠ a := fun m c =>
    hr.held_iff hs.inv.wf
  have hdisc : ∀ c, OpCall.release a = .release c → c ∉ x.dirty := fun c hc => by
    obtain rfl := OpCall.release.inj hc
    exact hclean
  have hother : ∀ m c, x.cache.Held m c → c ≠ a → m ≠ b := by
    rintro m c hc hca rfl
    exact hca (hs.inv.wf.unique hc.1 ha.1)
  refine ⟨y, hstep, ?_⟩
  refine
    { inv := OpState.inv_step hlog hs.inv (l := .release a) trivial hstep
      tracks := OpState.tracks_step hlog hs.tracks hs.inv (l := .release a) trivial hdisc hstep
      durable := OpState.durable_step hlog hs.durable hs.inv (l := .release a) trivial hstep
      use := hs.use.of_eq hr.header hr.log rfl rfl rfl rfl rfl, grip := fun m => ?_
      held := fun m => ?_, data := fun m c hc => ?_, dirty := fun m c hc hd => ?_
      idle := fun m hm hidle => ?_ }
  · by_cases hmb : m = b
    · subst hmb
      simp
    · rw [Function.update_of_ne hmb, Finset.mem_erase, and_iff_right hmb]
      exact hs.grip m
  · rw [Finset.mem_erase, hs.held]
    constructor
    · rintro ⟨hmb, c, hc⟩
      refine ⟨c, (hheld m c).mpr ⟨hc, ?_⟩⟩
      rintro rfl
      exact hmb (hc.1.number ha.1)
    · rintro ⟨c, hc⟩
      obtain ⟨hc, hca⟩ := (hheld m c).mp hc
      exact ⟨hother m c hc hca, c, hc⟩
  · obtain ⟨hc, hca⟩ := (hheld m c).mp hc
    rw [show y.cache.heap c = x.cache.heap c from hr.heap c hca]
    exact hs.data m c hc
  · obtain ⟨hc, hca⟩ := (hheld m c).mp hc
    rw [Function.update_of_ne (hother m c hc hca)]
    exact hs.dirty m c hc (Finset.mem_of_mem_erase hd)
  · rw [show y.store sb = x.store sb from OpState.store_eq rfl rfl]
    by_cases hmb : m = b
    · subst hmb
      rw [← hs.data m a ha]
      exact hs.tracks.live m a hm ha.1 hclean
    · exact hs.idle m hm fun hmem => hidle (Finset.mem_erase.mpr ⟨hmb, hmem⟩)

/-- A sync with the null context writes what is on the device already. -/
theorem sync_null (hlog : 0 < sb.numLogBlocks) (hnull : ctx = none) (hb : h b = .clean)
    (hthrough : b ∉ x₀.cache.header.logged) :
    ∃ y, x.step sb (.sync none (x.bufferOf b)) = some y ∧
      CacheSim sb ctx x₀ (Function.update h b .clean) s y := by
  obtain ⟨a, ha, hbuf, hmem⟩ := hs.exists_held (b := b) (by rw [hb]; decide)
  rw [hbuf]
  have hclean : a ∉ x.dirty := fun hd => by
    have hdirty := hs.dirty b a ha hd
    rw [hb] at hdirty
    cases hdirty
  have hout : ¬ sb.InLog b := (hs.inv.proper b a ha).1
  have hsame : (x.cache.heap a).data = x.cache.device b := by
    rw [hs.tracks.live b a hout ha.1 hclean, hs.tracks.device b hout]
    rwa [(hs.use.null hnull).1]
  set y : OpState := { x with
    cache := x.cache.deviceWrite a
    dirty := x.dirty.erase a
    syncs := x.syncs ++ [⟨none, (x.cache.heap a).blockNo, (x.cache.heap a).data⟩] } with hy
  have hstep : x.step sb (.sync none a) = some y := by
    simp only [OpState.step, if_pos hmem]
    rfl
  have hstore : y.store sb = Function.update (x.store sb) b (x.cache.heap a).data := by
    rw [← ha.1.2.2]
    exact OpState.store_sync rfl rfl
  refine ⟨y, hstep, ?_⟩
  refine
    { inv := OpState.inv_step hlog hs.inv (l := .sync none a) trivial hstep
      tracks := OpState.tracks_step hlog hs.tracks hs.inv (l := .sync none a) trivial (by simp)
        hstep
      durable := OpState.durable_rewrite hs.durable ha hsame hstep
      use := hs.use.of_eq rfl rfl rfl rfl rfl rfl rfl, grip := fun m => ?_, held := hs.held
      data := hs.data, dirty := fun m c hc hd => ?_, idle := fun m hm hidle => ?_ }
  · rw [← hb, Function.update_eq_self]
    exact hs.grip m
  · rw [← hb, Function.update_eq_self]
    exact hs.dirty m c hc (Finset.mem_of_mem_erase hd)
  · have hmb : m ≠ b := by
      rintro rfl
      exact hidle ((hs.held m).mpr ⟨a, ha⟩)
    rw [hstore, Function.update_of_ne hmb]
    exact hs.idle m hm hidle

/-- A sync in an operation goes to the log, unless the context is used up. -/
theorem sync_op {c : ℕ} (hlog : 0 < sb.numLogBlocks) (hctx : ctx = some c) (hb : h b ≠ .free) :
    (∃ y, x.step sb (.sync (some c) (x.bufferOf b)) = some y ∧
      CacheSim sb ctx x₀ (Function.update h b .clean) (s.1, s.2 ++ [b]) y) ∨
    x.step sb (.sync (some c) (x.bufferOf b)) = none ∧ Overdrawn x₀ ctx (s.1, s.2 ++ [b]) := by
  obtain ⟨a, ha, hbuf, hmem⟩ := hs.exists_held hb
  rw [hbuf]
  obtain ⟨hrun, hrm⟩ := hs.use.op c hctx
  have hno : (x.cache.heap a).blockNo = b := ha.1.2.2
  have hroom : x.cache.header.numBlocks + x.rm c ≤ logMaxSize := by
    have hbudget : x.cache.header.numBlocks + ∑ c ∈ x.running, x.rm c ≤ logMaxSize :=
      hs.inv.log.budget
    have hle : x.rm c ≤ ∑ c ∈ x.running, x.rm c :=
      Finset.single_le_sum (f := x.rm) (fun _ _ => Nat.zero_le _) hrun
    omega
  set L := x₀.cache.header.logged.toFinset with hL
  have hlogged := hs.use.logged b
  -- the cases of `absorb`
  by_cases hgone : b ∉ x.cache.header.logged ∧ x.rm c = 0
  · -- no entry is left in the context
    obtain ⟨hnot, hzero⟩ := hgone
    refine .inr ⟨?_, c, hctx, ?_⟩
    · have hwp : wp (cacheSync (some (x.rm c)) a) (fun _ _ => False) (fun _ => True) x.cache := by
        refine Bcache.wp_cacheSync_some (fun _ _ => trivial) fun rm' header habs => ?_
        rw [hno] at habs
        rcases LogHeader.absorb_cases habs with ⟨hin, -⟩ | ⟨-, -, hpos, -⟩
        · exact hnot hin
        · omega
      rw [wp] at hwp
      cases hsync : (cacheSync (some (x.rm c)) a).run x.cache with
      | ok r =>
        rw [hsync] at hwp
        exact hwp.elim
      | error e => simp only [OpState.step, if_pos (And.intro hmem hrun), hsync]
    · rw [hlogged, not_or] at hnot
      have hfresh := card_append_fresh (L := L) (by simpa [hL] using hnot.1) hnot.2
      show x₀.rm c < ((s.2 ++ [b]).toFinset \ L).card
      omega
  · obtain ⟨rm, header, habs, hrm', hnew⟩ : ∃ rm header,
        x.cache.header.absorb (x.rm c) b = .ok (rm, header) ∧
        rm + ((s.2 ++ [b]).toFinset \ L).card = x₀.rm c ∧
        ∀ m, m ∈ header.logged ↔ m ∈ x.cache.header.logged ∨ m = b := by
      by_cases hin : b ∈ x.cache.header.logged
      · have habs : x.cache.header.absorb (x.rm c) b
            = .ok (x.rm c, x.cache.header.setEntry (x.cache.header.logged.idxOf b) b) :=
          LogHeader.absorb_logged hin (by omega)
        refine ⟨_, _, habs, ?_, fun m => ?_⟩
        · rw [sdiff_append_old (by simpa [hL] using hlogged.mp hin)]
          exact hrm
        · rcases LogHeader.absorb_cases habs with ⟨-, -, -, hl⟩ | ⟨hnot, -⟩
          · rw [hl]
            exact ⟨.inl, fun h => h.elim id fun h => h ▸ hin⟩
          · exact absurd hin hnot
      · have hpos : 0 < x.rm c := by
          by_contra h0
          exact hgone ⟨hin, by omega⟩
        have habs := LogHeader.absorb_fresh hin (by omega) hpos
        refine ⟨_, _, habs, ?_, fun m => ?_⟩
        · rw [hlogged, not_or] at hin
          have hfresh := card_append_fresh (L := L) (by simpa [hL] using hin.1) hin.2
          omega
        · rcases LogHeader.absorb_cases habs with ⟨hmem', -⟩ | ⟨-, -, -, -, -, hl⟩
          · exact absurd hmem' hin
          · rw [hl, List.mem_append, List.mem_singleton]
    left
    have hwp : wp (cacheSync (some (x.rm c)) a)
        (fun r cache => r = some rm ∧ cache =
          { x.cache.setBlock a fun b => { b with pinned := true } with header := header })
        (fun _ => False) x.cache := by
      refine Bcache.wp_cacheSync_some (fun e he => ?_) fun rm' header' habs' => ?_
      · rw [hno, habs] at he
        cases he
      · rw [hno, habs] at habs'
        cases habs'
        exact ⟨rfl, rfl⟩
    obtain ⟨_, _, hsync, rfl, rfl⟩ := exists_run_of_wp hwp
    set y : OpState := { x with
      cache := { x.cache.setBlock a fun b => { b with pinned := true } with header := header }
      rm := Function.update x.rm c rm
      dirty := x.dirty.erase a
      syncs := x.syncs ++ [⟨some c, (x.cache.heap a).blockNo, (x.cache.heap a).data⟩] } with hy
    have hstep : x.step sb (.sync (some c) a) = some y := by
      simp only [OpState.step, if_pos (And.intro hmem hrun), hsync]
      rfl
    have hstore : y.store sb = Function.update (x.store sb) b (x.cache.heap a).data := by
      rw [← hno]
      exact OpState.store_sync rfl rfl
    have hheld : ∀ m e, y.cache.Held m e ↔ x.cache.Held m e := fun m e =>
      show (x.cache.setBlock a fun b => { b with pinned := true }).Held m e ↔ _ from
        Bcache.held_setBlock rfl rfl rfl
    have hother : ∀ m e, x.cache.Held m e → e ≠ a → m ≠ b := by
      rintro m e he hea rfl
      exact hea (hs.inv.wf.unique he.1 ha.1)
    have hdata : ∀ e, (y.cache.heap e).data = (x.cache.heap e).data := by
      intro e
      show ((x.cache.setBlock a fun b => { b with pinned := true }).heap e).data = _
      by_cases hea : e = a
      · rw [hea, Bcache.heap_setBlock_self]
      · rw [Bcache.heap_setBlock_ne hea]
    refine ⟨y, hstep, ?_⟩
    refine
      { inv := OpState.inv_step hlog hs.inv (l := .sync (some c) a) trivial hstep
        tracks := OpState.tracks_step hlog hs.tracks hs.inv (l := .sync (some c) a) trivial (by simp)
          hstep
        durable := OpState.durable_step hlog hs.durable hs.inv (l := .sync (some c) a) trivial
          hstep
        use := ?_, grip := fun m => ?_, held := fun m => ?_, data := fun m e he => ?_
        dirty := fun m e he hd => ?_, idle := fun m hm hidle => ?_ }
    · refine
        { running := hs.use.running, commits := hs.use.commits, disk := hs.use.disk
          nextOp := hs.use.nextOp, log := hs.use.log, null := fun hnull => ?_
          logged := fun m => ?_, op := fun c' hc' => ?_ }
      · rw [hctx] at hnull
        cases hnull
      · rw [show y.cache.header = header from rfl, hnew, hs.use.logged, List.mem_append,
          List.mem_singleton, or_assoc]
      · obtain rfl : c = c' := by
          rw [hctx] at hc'
          exact Option.some.inj hc'
        exact ⟨hrun, by rw [show y.rm c = rm from Function.update_self ..]; exact hrm'⟩
    · by_cases hmb : m = b
      · subst hmb
        simp [(hs.grip m).mp hb]
      · rw [Function.update_of_ne hmb]
        exact hs.grip m
    · exact (hs.held m).trans (exists_congr fun e => (hheld m e).symm)
    · rw [hdata]
      exact hs.data m e ((hheld m e).mp he)
    · have he' := (hheld m e).mp he
      have hea : e ≠ a := Finset.ne_of_mem_erase hd
      rw [Function.update_of_ne (hother m e he' hea)]
      exact hs.dirty m e he' (Finset.mem_of_mem_erase hd)
    · have hmb : m ≠ b := by
        rintro rfl
        exact hidle ((hs.grip m).mp hb)
      rw [hstore, Function.update_of_ne hmb]
      exact hs.idle m hm hidle

end CacheSim

section Calls

variable {sb : SuperBlock} {s s' : BlockStore × List ℕ} {n m : ℕ}

theorem plain_acquire_run (h : ((plainOps sb).acquire n).run s = .ok (m, s')) :
    sb.Served n ∧ n ∉ s.1.held ∧ m = n ∧ s' = ({ s.1 with held := insert n s.1.held }, s.2) := by
  by_cases hn : sb.Served n
  · rw [plain_acquire hn] at h
    by_cases hheld : n ∈ s.1.held
    · have hwp : wp (tracedOps.acquire n) (fun _ _ => False) (fun _ => True) s :=
        wp_traced_acquire_iff.mpr (by rw [if_pos hheld]; trivial)
      exact (wp_run hwp h).elim
    · have hwp : wp (tracedOps.acquire n) (fun m t => m = n ∧
          t = ({ s.1 with held := insert n s.1.held }, s.2)) (fun _ => True) s :=
        wp_traced_acquire_iff.mpr (by rw [if_neg hheld]; exact ⟨rfl, rfl⟩)
      have hr := wp_run hwp h
      exact ⟨hn, hheld, hr⟩
  · rw [show (plainOps sb).acquire n = throw .panic from if_neg hn] at h
    cases h

/-- The list of the blocks that are synced only grows. -/
theorem plain_run_grows {c : BlockCall} {r : c.Ret}
    (h : ((plainOps sb).answer c).run s = .ok (r, s')) : ∃ l, s'.2 = s.2 ++ l := by
  cases c with
  | acquire n => exact ⟨[], by rw [(plain_acquire_run h).2.2.2, List.append_nil]⟩
  | sync ctx b =>
    cases ctx with
    | none =>
      cases h
      exact ⟨[], (List.append_nil _).symm⟩
    | some c =>
      cases h
      exact ⟨[b], rfl⟩
  | data b | store b d | release b =>
    cases h
    exact ⟨[], (List.append_nil _).symm⟩

theorem Overdrawn.mono {x₀ : OpState} {ctx : Option ℕ} {l : List ℕ} (h : Overdrawn x₀ ctx s)
    (hl : s'.2 = s.2 ++ l) : Overdrawn x₀ ctx s' := by
  obtain ⟨c, hc, hlt⟩ := h
  refine ⟨c, hc, hlt.trans_le (Finset.card_le_card (Finset.sdiff_subset_sdiff ?_ subset_rfl))⟩
  rw [hl, List.toFinset_append]
  exact Finset.subset_union_left

theorem opCall_ok {x y : OpState} {l : OpCall} (h : x.step sb l = some y) :
    (opCall sb l).run x = .ok ((), y) := by
  show opCall sb l x = _
  rw [opCall, h]

theorem opCall_panic {x : OpState} {l : OpCall} (h : x.step sb l = none) :
    (opCall sb l).run x = .error .panic := by
  show opCall sb l x = _
  rw [opCall, h]

theorem cached_acquire {x y : OpState} (h : x.step sb (.acquire n) = some y) :
    ((cachedOps sb).acquire n).run x = .ok (n, y) := by
  show (opCall sb (.acquire n)).run x >>= (fun r => .ok (n, r.2)) = _
  rw [opCall_ok h]
  rfl

/-- **One call.**  What `plainOps` does, the cache does as well, or it panics since the context
of the operation is used up. -/
theorem cachedOps_simulates (hlog : 0 < sb.numLogBlocks) (ctx : Option ℕ) (x₀ : OpState) :
    Prog.SimulatesCalls (cacheDiscipline ctx fun n => n ∉ x₀.cache.header.logged)
      (CacheSim sb ctx x₀) (Overdrawn x₀ ctx) .panic (plainOps sb).answer
      (cachedOps sb).answer := by
  intro h c r s s' x hpre hs hrun
  cases c with
  | acquire n =>
    obtain ⟨hserved, hfree, hr, hs'⟩ := plain_acquire_run hrun
    obtain ⟨y, hstep, hy⟩ := hs.acquire hlog hserved hfree
    have hgrip : h n = .free := by
      by_contra hne
      exact hfree ((hs.grip n).mp hne)
    refine ⟨⟨hr, hgrip⟩, .inl ⟨y, ?_, hs' ▸ hy⟩⟩
    rw [hr]
    exact cached_acquire hstep
  | data b =>
    obtain ⟨rfl, rfl⟩ : r = s.1.blocks b ∧ s' = s := by
      cases hrun
      exact ⟨rfl, rfl⟩
    refine ⟨trivial, .inl ⟨x, ?_, hs⟩⟩
    rw [← hs.data_eq hpre]
    rfl
  | store b d =>
    obtain ⟨y, hstep, hy⟩ := hs.modify hlog hpre d
    cases hrun
    exact ⟨trivial, .inl ⟨y, opCall_ok hstep, hy⟩⟩
  | sync ctx' b =>
    obtain ⟨hb, rfl, hnull⟩ := hpre
    refine ⟨trivial, ?_⟩
    cases ctx' with
    | none =>
      obtain ⟨hclean, hthrough⟩ := hnull rfl
      obtain ⟨y, hstep, hy⟩ := hs.sync_null hlog rfl hclean hthrough
      cases hrun
      exact .inl ⟨y, opCall_ok hstep, hy⟩
    | some c =>
      cases hrun
      rcases hs.sync_op hlog rfl hb with ⟨y, hstep, hy⟩ | ⟨hstep, hover⟩
      · exact .inl ⟨y, opCall_ok hstep, hy⟩
      · exact .inr ⟨opCall_panic hstep, hover⟩
  | release b =>
    obtain ⟨y, hstep, hy⟩ := hs.release hlog hpre
    cases hrun
    exact ⟨trivial, .inl ⟨y, opCall_ok hstep, hy⟩⟩

end Calls

end OsLab
