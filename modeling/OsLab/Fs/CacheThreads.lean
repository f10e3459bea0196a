/-
Threads in the block cache.

`cache_acquire` and `cache_release` are several steps each: the critical section
under `lock`, the sleep lock, and the device read that follows.  `threadSystem`
interleaves these steps of any number of clients; a client is one use of a
block, from `cache_acquire` to `cache_release`, so a thread that holds several
blocks is several clients.

The flag `acquired` is shared by all clients of a buffer and cleared by
each of them.  No step is a commit, so a buffer that has been pinned stays so.

* `ThreadState.Inv`, `inv_of_reachable` — in the runs in which nobody clears the
  flag of a buffer that another client uses, a buffer in use keeps its number,
  its place and its flags;
* `buffer_in_use_kept` — hence it is not renamed, not evicted and not freed;
* `buffer_in_use_renamed` — a run in which the flag is cleared under a waiter.
-/
import OsLab.Fs.Operations

namespace OsLab

namespace Bcache

variable {s t : Bcache} {a b : ℕ}

/-- At most the sleep lock, the data, the flag `valid` and, to set it, the flag
`pinned` of buffer `a` are assigned to. -/
structure Touches (s : Bcache) (a : ℕ) (t : Bcache) : Prop where
  head : t.head = s.head
  brk : t.brk = s.brk
  freed : t.freed = s.freed
  heap : ∀ b, b ≠ a → t.heap b = s.heap b
  blockNo : (t.heap a).blockNo = (s.heap a).blockNo
  acquired : (t.heap a).acquired = (s.heap a).acquired
  pinned : (s.heap a).pinned = true → (t.heap a).pinned = true

namespace Touches

theorem refl (a : ℕ) : s.Touches a s := ⟨rfl, rfl, rfl, fun _ _ => rfl, rfl, rfl, id⟩

theorem same (h : s.Touches a t) (P : Block → Block → Prop) (hrefl : ∀ b, P b b)
    (ha : P (t.heap a) (s.heap a)) (b : ℕ) : P (t.heap b) (s.heap b) := by
  by_cases hba : b = a
  · rwa [hba]
  · rw [h.heap b hba]
    exact hrefl _

end Touches

theorem touches_setBlock (s : Bcache) {f : Block → Block}
    (hno : (f (s.heap a)).blockNo = (s.heap a).blockNo)
    (hacq : (f (s.heap a)).acquired = (s.heap a).acquired)
    (hpin : (s.heap a).pinned = true → (f (s.heap a)).pinned = true) :
    s.Touches a (s.setBlock a f) := by
  refine ⟨rfl, rfl, rfl, fun b hb => heap_setBlock_ne hb, ?_, ?_, ?_⟩
  · rw [heap_setBlock_self, hno]
  · rw [heap_setBlock_self, hacq]
  · rw [heap_setBlock_self]
    exact hpin

/-- The buffer once `device_read` and `valid = true` are done. -/
theorem load_eq (s : Bcache) (a : ℕ) : s.load a = s.setBlock a fun b =>
    { b with data := s.device b.blockNo, valid := true } := by
  simp [load, deviceRead, setBlock]

theorem touches_fill {path : Path} (hpath : path ≠ .fresh) :
    s.Touches a (fillSection path a s) := by
  have hload : s.Touches a (s.load a) := by
    rw [load_eq]
    exact s.touches_setBlock rfl rfl id
  cases path with
  | hit =>
    simp only [fillSection]
    split
    · exact hload
    · exact .refl a
  | reuse => exact hload
  | fresh => exact absurd rfl hpath

/-- The three ways through the first critical section of `cache_acquire`. -/
theorem acquireSection_cases (s : Bcache) (n : ℕ) :
    (∃ a, s.findBlock n = some a ∧
      s.acquireSection n = (.hit, a, s.setBlock a fun b => { b with acquired := true })) ∨
    (∃ a, s.findBlock n = none ∧ s.findVictim = some a ∧
      s.acquireSection n = (.reuse, a, s.setBlock a fun b =>
        { b with blockNo := n, acquired := true, valid := false })) ∨
    (s.findBlock n = none ∧ s.findVictim = none ∧
      s.acquireSection n = (.fresh, s.brk, { s with
        brk := s.brk + 1
        heap := Function.update s.heap s.brk
          { initBlock with blockNo := n, acquired := true, valid := false } })) := by
  unfold acquireSection
  cases hfind : s.findBlock n with
  | some a => exact .inl ⟨a, rfl, rfl⟩
  | none =>
    cases hvictim : s.findVictim with
    | some a => exact .inr (.inl ⟨a, rfl, rfl, rfl⟩)
    | none => exact .inr (.inr ⟨rfl, rfl, rfl⟩)

/-- The critical section of `cache_release` frees the buffer or moves it to the
front. -/
theorem releaseSection_cases (s : Bcache) (a : ℕ) :
    ((s.heap a).pinned = false ∧ evictionThreshold < (s.head.erase a).length ∧
      releaseSection a s = { s.setBlock a fun b => { b with acquired := false } with
        head := s.head.erase a, freed := a :: s.freed }) ∨
    (releaseSection a s = { s.setBlock a fun b => { b with acquired := false } with
      head := a :: s.head.erase a }) := by
  simp only [releaseSection]
  split
  · rename_i hfree
    rw [heap_setBlock_self] at hfree
    simp only [Bool.and_eq_true, Bool.not_eq_true', decide_eq_true_eq] at hfree
    exact .inl ⟨hfree.1, hfree.2, rfl⟩
  · exact .inr rfl

theorem heap_releaseSection (s : Bcache) (a : ℕ) : (releaseSection a s).heap
    = (s.setBlock a fun b => { b with acquired := false }).heap := by
  rcases s.releaseSection_cases a with ⟨-, -, hrel⟩ | hrel <;> rw [hrel]

theorem device_releaseSection (s : Bcache) (a : ℕ) : (releaseSection a s).device = s.device := by
  rcases s.releaseSection_cases a with ⟨-, -, hrel⟩ | hrel <;> rw [hrel] <;> rfl

theorem mem_of_mem_releaseSection (ha : a ∈ s.head) (hb : b ∈ (releaseSection a s).head) :
    b ∈ s.head := by
  rcases s.releaseSection_cases a with ⟨-, -, hrel⟩ | hrel
  · rw [hrel] at hb
    exact List.mem_of_mem_erase hb
  · rw [hrel] at hb
    rcases List.mem_cons.mp hb with rfl | hb
    · exact ha
    · exact List.mem_of_mem_erase hb

/-- A pinned buffer stays on the list. -/
theorem mem_releaseSection (hb : b ∈ s.head) (hpin : (s.heap b).pinned = true) :
    b ∈ (releaseSection a s).head := by
  have hkeep : b ≠ a → b ∈ s.head.erase a := fun hba => (List.mem_erase_of_ne hba).mpr hb
  rcases s.releaseSection_cases a with ⟨hunpinned, -, hrel⟩ | hrel
  · rw [hrel]
    refine hkeep ?_
    rintro rfl
    rw [hpin] at hunpinned
    cases hunpinned
  · rw [hrel]
    by_cases hba : b = a
    · exact hba ▸ List.mem_cons_self
    · exact List.mem_cons_of_mem _ (hkeep hba)

theorem findVictim_spec (h : s.findVictim = some a) :
    a ∈ s.head ∧ (s.heap a).acquired = false ∧ (s.heap a).pinned = false := by
  refine ⟨List.mem_reverse.mp (List.mem_of_find?_eq_some h), ?_⟩
  simpa using List.find?_some h

end Bcache

/-- Where a client stands between `cache_acquire` and `cache_release`. -/
inductive Pc
  | idle
  /-- in `cache_acquire`, past the first critical section -/
  | entered (path : Bcache.Path) (a n : ℕ)
  /-- in `acquire_sleeplock`, asleep or just woken -/
  | sleeping (path : Bcache.Path) (a n : ℕ)
  /-- in `cache_acquire`, with the sleep lock -/
  | locked (path : Bcache.Path) (a n : ℕ)
  /-- back from `cache_acquire`; `dirty` when it has modified the block since the
  last sync -/
  | holding (a n : ℕ) (dirty : Bool)
  /-- in `cache_release`, past `release_sleeplock` -/
  | releasing (a n : ℕ)
  deriving DecidableEq

namespace Pc

/-- The buffer the client works on. -/
def buffer : Pc → Option ℕ
  | idle => none
  | entered _ a _ => some a
  | sleeping _ a _ => some a
  | locked _ a _ => some a
  | holding a _ _ => some a
  | releasing a _ => some a

/-- The buffer and the number it was acquired for, until `cache_release`. -/
def uses : Pc → Option (ℕ × ℕ)
  | entered _ a n => some (a, n)
  | sleeping _ a n => some (a, n)
  | locked _ a n => some (a, n)
  | holding a n _ => some (a, n)
  | _ => none

/-- The same while the client has the sleep lock. -/
def holds : Pc → Option (ℕ × ℕ)
  | locked _ a n => some (a, n)
  | holding a n _ => some (a, n)
  | _ => none

/-- The same for a fresh buffer that is not on the list yet. -/
def inserts : Pc → Option (ℕ × ℕ)
  | entered .fresh a n => some (a, n)
  | sleeping .fresh a n => some (a, n)
  | locked .fresh a n => some (a, n)
  | _ => none

theorem uses_of_holds {c : Pc} {e : ℕ × ℕ} (h : c.holds = some e) : c.uses = some e := by
  cases c <;> first | exact h | cases h

theorem uses_of_inserts {c : Pc} {e : ℕ × ℕ} (h : c.inserts = some e) : c.uses = some e := by
  rcases c with _ | ⟨path, a, n⟩ | ⟨path, a, n⟩ | ⟨path, a, n⟩ | _ | _
  case entered | sleeping | locked => cases path <;> first | exact h | cases h
  all_goals cases h

theorem buffer_of_uses {c : Pc} {a n : ℕ} (h : c.uses = some (a, n)) : c.buffer = some a := by
  cases c <;> first | (cases h; rfl) | cases h

end Pc

/-- The block cache and the clients that run in it. -/
structure ThreadState where
  cache : Bcache
  /-- the clients are `0 … clients - 1` -/
  clients : ℕ
  pc : ℕ → Pc
  /-- the content of the last sync of each block, at first that of the device -/
  synced : ℕ → BlockData

/-- The steps; the client comes first. -/
inductive ThreadStep
  /-- the first critical section of `cache_acquire` -/
  | acquire (p n : ℕ)
  /-- `acquire_sleeplock`, up to the point where the client sleeps or has the lock -/
  | wait (p : ℕ)
  /-- the return of a client that has been woken -/
  | wake (p : ℕ)
  /-- the rest of `cache_acquire` -/
  | fill (p : ℕ)
  /-- the client stores `d` in the block it holds -/
  | modify (p : ℕ) (d : BlockData)
  /-- `cache_sync`; `ctx` is `ctx->rm` or `none` -/
  | sync (p : ℕ) (ctx : Option ℕ)
  /-- `release_sleeplock` in `cache_release` -/
  | post (p : ℕ)
  /-- the critical section of `cache_release` -/
  | release (p : ℕ)

namespace ThreadState

/-- Client `p` goes on to `c`, with the cache `cache`. -/
def goto (s : ThreadState) (p : ℕ) (c : Pc) (cache : Bcache) : ThreadState :=
  { s with cache := cache, pc := Function.update s.pc p c }

/-- The step of a client; `none` when it is not at that point, or when it sleeps
or fails there. -/
def step (s : ThreadState) : ThreadStep → Option ThreadState
  | .acquire p n =>
    if p < s.clients ∧ s.pc p = .idle then
      let r := s.cache.acquireSection n
      some (s.goto p (.entered r.1 r.2.1 n) r.2.2)
    else none
  | .wait p =>
    match s.pc p with
    | .entered path a n =>
      let r := (s.cache.heap a).lock.wait p
      some (s.goto p (if r.1 then .locked path a n else .sleeping path a n)
        (s.cache.setBlock a fun b => { b with lock := r.2 }))
    | _ => none
  | .wake p =>
    match s.pc p with
    | .sleeping path a n =>
      if p ∈ (s.cache.heap a).lock.sleeplist then none
      else some (s.goto p (.locked path a n) s.cache)
    | _ => none
  | .fill p =>
    match s.pc p with
    | .locked path a n => some (s.goto p (.holding a n false) (Bcache.fillSection path a s.cache))
    | _ => none
  | .modify p d =>
    match s.pc p with
    | .holding a n _ =>
      some (s.goto p (.holding a n true) (s.cache.setBlock a fun b => { b with data := d }))
    | _ => none
  | .sync p ctx =>
    match s.pc p with
    | .holding a n _ =>
      match (cacheSync ctx a).run s.cache with
      | .ok (_, cache) => some { s.goto p (.holding a n false) cache with
          synced := Function.update s.synced (s.cache.heap a).blockNo (s.cache.heap a).data }
      | .error _ => none
    | _ => none
  | .post p =>
    match s.pc p with
    | .holding a n _ =>
      some (s.goto p (.releasing a n) (s.cache.setBlock a fun b => { b with lock := b.lock.post }))
    | _ => none
  | .release p =>
    match s.pc p with
    | .releasing a _ => some (s.goto p .idle (Bcache.releaseSection a s.cache))
    | _ => none

/-! ### What a step does -/

variable {s t : ThreadState} {p q n : ℕ} {c : Pc} {cache : Bcache}

@[simp] theorem goto_cache : (s.goto p c cache).cache = cache := rfl

@[simp] theorem goto_clients : (s.goto p c cache).clients = s.clients := rfl

@[simp] theorem goto_pc : (s.goto p c cache).pc = Function.update s.pc p c := rfl

@[simp] theorem goto_synced : (s.goto p c cache).synced = s.synced := rfl

theorem step_acquire (h : s.step (.acquire p n) = some t) :
    p < s.clients ∧ s.pc p = .idle ∧
      t = s.goto p (.entered (s.cache.acquireSection n).1 (s.cache.acquireSection n).2.1 n)
        (s.cache.acquireSection n).2.2 := by
  simp only [step] at h
  split at h
  · rename_i hp
    exact ⟨hp.1, hp.2, (Option.some.inj h).symm⟩
  · cases h

theorem step_wait (h : s.step (.wait p) = some t) : ∃ path a n, s.pc p = .entered path a n ∧
    t = s.goto p (if ((s.cache.heap a).lock.wait p).1 then .locked path a n
        else .sleeping path a n)
      (s.cache.setBlock a fun b => { b with lock := ((s.cache.heap a).lock.wait p).2 }) := by
  simp only [step] at h
  split at h
  · rename_i path a n hp
    exact ⟨path, a, n, hp, (Option.some.inj h).symm⟩
  · cases h

theorem step_wake (h : s.step (.wake p) = some t) : ∃ path a n, s.pc p = .sleeping path a n ∧
    p ∉ (s.cache.heap a).lock.sleeplist ∧ t = s.goto p (.locked path a n) s.cache := by
  simp only [step] at h
  split at h
  · rename_i path a n hp
    split at h
    · cases h
    · rename_i hmem
      exact ⟨path, a, n, hp, hmem, (Option.some.inj h).symm⟩
  · cases h

theorem step_fill (h : s.step (.fill p) = some t) : ∃ path a n, s.pc p = .locked path a n ∧
    t = s.goto p (.holding a n false) (Bcache.fillSection path a s.cache) := by
  simp only [step] at h
  split at h
  · rename_i path a n hp
    exact ⟨path, a, n, hp, (Option.some.inj h).symm⟩
  · cases h

theorem step_modify {d : BlockData} (h : s.step (.modify p d) = some t) :
    ∃ a n dirty, s.pc p = .holding a n dirty ∧
      t = s.goto p (.holding a n true) (s.cache.setBlock a fun b => { b with data := d }) := by
  simp only [step] at h
  split at h
  · rename_i a n dirty hp
    exact ⟨a, n, dirty, hp, (Option.some.inj h).symm⟩
  · cases h

/-- `cache_sync` writes the block to the device, or pins and logs it. -/
theorem step_sync {ctx : Option ℕ} (h : s.step (.sync p ctx) = some t) :
    ∃ a n dirty cache, s.pc p = .holding a n dirty ∧
      (cache = s.cache.deviceWrite a ∨ ∃ header, cache =
        { s.cache.setBlock a fun b => { b with pinned := true } with header := header }) ∧
      t = { s.goto p (.holding a n false) cache with
        synced := Function.update s.synced (s.cache.heap a).blockNo (s.cache.heap a).data } := by
  simp only [step] at h
  split at h
  · rename_i a n dirty hp
    split at h
    · rename_i r cache hrun
      refine ⟨a, n, dirty, cache, hp, ?_, (Option.some.inj h).symm⟩
      cases ctx with
      | none =>
        obtain ⟨-, rfl⟩ := Prod.mk.inj (Except.ok.inj hrun)
        exact .inl rfl
      | some rm =>
        refine .inr ?_
        have hsync : wp (cacheSync (some rm) a) (fun _ t => ∃ header, t =
            { s.cache.setBlock a fun b => { b with pinned := true } with header := header })
            (fun _ => True) s.cache :=
          Bcache.wp_cacheSync_some (fun _ _ => trivial) fun _ header _ => ⟨header, rfl⟩
        exact wp_run hsync hrun
    · cases h
  · cases h

theorem step_post (h : s.step (.post p) = some t) : ∃ a n dirty, s.pc p = .holding a n dirty ∧
    t = s.goto p (.releasing a n) (s.cache.setBlock a fun b => { b with lock := b.lock.post }) := by
  simp only [step] at h
  split at h
  · rename_i a n dirty hp
    exact ⟨a, n, dirty, hp, (Option.some.inj h).symm⟩
  · cases h

theorem step_release (h : s.step (.release p) = some t) : ∃ a n, s.pc p = .releasing a n ∧
    t = s.goto p .idle (Bcache.releaseSection a s.cache) := by
  simp only [step] at h
  split at h
  · rename_i a n hp
    exact ⟨a, n, hp, (Option.some.inj h).symm⟩
  · cases h

/-- A step that leaves the list, the numbers and the flag `acquired` alone, and in
which no client goes on to another buffer. -/
structure Stays (s t : ThreadState) : Prop where
  clients : t.clients = s.clients
  head : t.cache.head = s.cache.head
  brk : t.cache.brk = s.cache.brk
  freed : t.cache.freed = s.cache.freed
  blockNo : ∀ a, (t.cache.heap a).blockNo = (s.cache.heap a).blockNo
  acquired : ∀ a, (t.cache.heap a).acquired = (s.cache.heap a).acquired
  pinned : ∀ a, (s.cache.heap a).pinned = true → (t.cache.heap a).pinned = true
  /-- a buffer becomes valid only when a client works on it -/
  valid : ∀ a, (t.cache.heap a).valid = true → (s.cache.heap a).valid = true ∨
    ∃ q, (s.pc q).buffer = some a
  buffer : ∀ q, (t.pc q).buffer = (s.pc q).buffer
  inserts : ∀ q, (t.pc q).inserts = (s.pc q).inserts
  uses : ∀ q e, (t.pc q).uses = some e → (s.pc q).uses = some e

/-- An observation of the client that moves which stays the same is the same for
all clients. -/
private theorem update_same {β : Type*} {f : Pc → β} (h : f c = f (s.pc p)) (q : ℕ) :
    f (Function.update s.pc p c q) = f (s.pc q) := by
  by_cases hq : q = p
  · rw [hq, Function.update_self, h]
  · rw [Function.update_of_ne hq]

/-- Client `p` moves on, and only its buffer is touched. -/
private theorem stays_goto {a : ℕ} (synced : ℕ → BlockData) (c : Pc)
    (hbuf : (s.pc p).buffer = some a) (hcache : s.cache.Touches a cache)
    (hc : c.buffer = some a) (hins : c.inserts = (s.pc p).inserts)
    (huses : c.uses = none ∨ c.uses = (s.pc p).uses) :
    s.Stays { s.goto p c cache with synced := synced } := by
  refine
    { clients := rfl, head := hcache.head, brk := hcache.brk, freed := hcache.freed
      blockNo := hcache.same (fun x y => x.blockNo = y.blockNo) (fun _ => rfl) hcache.blockNo
      acquired := hcache.same (fun x y => x.acquired = y.acquired) (fun _ => rfl) hcache.acquired
      pinned := hcache.same (fun x y => y.pinned = true → x.pinned = true) (fun _ => id)
        hcache.pinned
      valid := fun b hb => ?_
      buffer := update_same (f := Pc.buffer) (hc.trans hbuf.symm)
      inserts := update_same (f := Pc.inserts) hins
      uses := fun q e hq => ?_ }
  · by_cases hba : b = a
    · exact .inr ⟨p, hba ▸ hbuf⟩
    · rw [← hcache.heap b hba]
      exact .inl hb
  · have hq' : (Function.update s.pc p c q).uses = some e := hq
    by_cases hqp : q = p
    · subst hqp
      rw [Function.update_self] at hq'
      rcases huses with hnone | hsame
      · rw [hnone] at hq'
        cases hq'
      · rw [← hsame, hq']
    · rwa [Function.update_of_ne hqp] at hq'

/-- Every step stays, except the critical sections of `cache_acquire` and
`cache_release`. -/
theorem stays_of_step {l : ThreadStep} (h : s.step l = some t)
    (hacquire : ∀ p n, l ≠ .acquire p n) (hrelease : ∀ p, l ≠ .release p)
    (hfresh : ∀ p a n, l = .fill p → s.pc p ≠ .locked .fresh a n) : s.Stays t := by
  cases l with
  | acquire p n => exact absurd rfl (hacquire p n)
  | release p => exact absurd rfl (hrelease p)
  | wait p =>
    obtain ⟨path, a, n, hp, rfl⟩ := step_wait h
    have hcache := s.cache.touches_setBlock (a := a)
      (f := fun b => { b with lock := ((s.cache.heap a).lock.wait p).2 }) rfl rfl id
    split
    · exact stays_goto _ (.locked path a n) (by rw [hp]; rfl) hcache rfl
        (by rw [hp]; cases path <;> rfl) (.inr (by rw [hp]; rfl))
    · exact stays_goto _ (.sleeping path a n) (by rw [hp]; rfl) hcache rfl
        (by rw [hp]; cases path <;> rfl) (.inr (by rw [hp]; rfl))
  | wake p =>
    obtain ⟨path, a, n, hp, -, rfl⟩ := step_wake h
    exact stays_goto _ (.locked path a n) (by rw [hp]; rfl) (.refl _) rfl
      (by rw [hp]; cases path <;> rfl) (.inr (by rw [hp]; rfl))
  | fill p =>
    obtain ⟨path, a, n, hp, rfl⟩ := step_fill h
    have hload : path ≠ .fresh := fun hpath => hfresh p a n rfl (hpath ▸ hp)
    refine stays_goto _ (.holding a n false) (by rw [hp]; rfl) (Bcache.touches_fill hload) rfl ?_
      (.inr (by rw [hp]; rfl))
    rw [hp]
    cases path with
    | fresh => exact absurd rfl hload
    | hit => rfl
    | reuse => rfl
  | modify p d =>
    obtain ⟨a, n, dirty, hp, rfl⟩ := step_modify h
    have hcache := s.cache.touches_setBlock (a := a) (f := fun b => { b with data := d }) rfl rfl id
    exact stays_goto _ (.holding a n true) (by rw [hp]; rfl) hcache rfl (by rw [hp]; rfl) (.inr (by rw [hp]; rfl))
  | sync p ctx =>
    obtain ⟨a, n, dirty, cache, hp, hcache, rfl⟩ := step_sync h
    refine stays_goto _ (.holding a n false) (by rw [hp]; rfl) ?_ rfl (by rw [hp]; rfl)
      (.inr (by rw [hp]; rfl))
    rcases hcache with rfl | ⟨header, rfl⟩
    · exact ⟨rfl, rfl, rfl, fun _ _ => rfl, rfl, rfl, id⟩
    · have hpin := s.cache.touches_setBlock (a := a) (f := fun b => { b with pinned := true })
        rfl rfl fun _ => rfl
      exact ⟨rfl, rfl, rfl, hpin.heap, hpin.blockNo, hpin.acquired, hpin.pinned⟩
  | post p =>
    obtain ⟨a, n, dirty, hp, rfl⟩ := step_post h
    have hcache := s.cache.touches_setBlock (a := a) (f := fun b => { b with lock := b.lock.post })
      rfl rfl id
    exact stays_goto _ (.releasing a n) (by rw [hp]; rfl) hcache rfl
      (by rw [hp]; rfl) (.inl rfl)

end ThreadState

/-- The runs start after `init_bcache`, on any disk whose log can be replayed and
with any number of clients. -/
def threadSystem (sb : SuperBlock) : System ThreadState ThreadStep where
  init s := ∃ D, (logFormat sb).Sound D ∧ initBcache sb D = .ok s.cache ∧
    (∀ p, s.pc p = .idle) ∧ s.synced = s.cache.device
  step := ThreadState.step

namespace ThreadState

/-- `init_bcache` on a disk, before the first step of `clients` clients. -/
def boot (sb : SuperBlock) (disk : ℕ → BlockData) (clients : ℕ) : Option ThreadState :=
  match initBcache sb disk with
  | .ok cache => some ⟨cache, clients, fun _ => .idle, cache.device⟩
  | .error _ => none

theorem init_of_boot {sb : SuperBlock} {disk : ℕ → BlockData} {clients : ℕ} {s : ThreadState}
    (hD : (logFormat sb).Sound disk) (h : boot sb disk clients = some s) :
    (threadSystem sb).init s := by
  simp only [boot] at h
  split at h
  · rename_i cache hrun
    cases h
    exact ⟨disk, hD, hrun, fun _ => rfl, rfl⟩
  · cases h

/-- A run executed from a boot on a blank disk reaches a state of the system. -/
theorem exists_reachable_of_exec {α : Type} {ok : ThreadState → ThreadStep → Prop}
    [∀ s l, Decidable (ok s l)] {sb : SuperBlock} {clients : ℕ} {steps : List ThreadStep}
    {f : ThreadState → α} {v : α}
    (h : ((boot sb OpState.blankDisk clients).bind fun s =>
      (threadSystem sb).exec ok s steps).map f = some v) :
    ∃ s, (threadSystem sb).Reachable ok s ∧ f s = v := by
  obtain ⟨s, hexec, hv⟩ := Option.map_eq_some_iff.mp h
  obtain ⟨s₀, hboot, hrun⟩ := Option.bind_eq_some_iff.mp hexec
  have hinit := init_of_boot (OpState.sound_blankDisk sb) hboot
  exact ⟨s, (System.Reachable.of_init hinit).leads (System.leads_of_exec hrun), hv⟩

end ThreadState

/-- The critical section of `cache_release` clears the flag `acquired` and may
free the buffer.  Unless the buffer is pinned, no other client uses it then; and
if it is freed, no other client is about to release it either. -/
def LastUser (s : ThreadState) : ThreadStep → Prop
  | .release p => ∀ a ∈ (s.pc p).buffer, (s.cache.heap a).pinned = true ∨
      ∀ q < s.clients, q ≠ p → (∀ e ∈ (s.pc q).uses, e.1 ≠ a) ∧
        (evictionThreshold < (s.cache.head.erase a).length → (s.pc q).buffer ≠ some a)
  | _ => True

instance (s : ThreadState) (l : ThreadStep) : Decidable (LastUser s l) :=
  match l with
  | .release p => inferInstanceAs (Decidable (∀ a ∈ (s.pc p).buffer,
      (s.cache.heap a).pinned = true ∨
      ∀ q < s.clients, q ≠ p → (∀ e ∈ (s.pc q).uses, e.1 ≠ a) ∧
        (evictionThreshold < (s.cache.head.erase a).length → (s.pc q).buffer ≠ some a)))
  | .acquire _ _ => isTrue trivial
  | .wait _ => isTrue trivial
  | .wake _ => isTrue trivial
  | .fill _ => isTrue trivial
  | .modify _ _ => isTrue trivial
  | .sync _ _ => isTrue trivial
  | .post _ => isTrue trivial

namespace ThreadState

variable {sb : SuperBlock} {s t : ThreadState} {p q a n : ℕ} {c : Pc} {cache : Bcache}

/-! ### Buffers in use -/

/-- What holds of the buffers in use when `acquired` is cleared by the last user
only. -/
structure Inv (s : ThreadState) : Prop where
  idle : ∀ q, s.clients ≤ q → (s.pc q).buffer = none
  nodup : s.cache.head.Nodup
  lt_brk : ∀ a ∈ s.cache.head, a < s.cache.brk
  freed : ∀ a ∈ s.cache.freed, a < s.cache.brk ∧ a ∉ s.cache.head
  buffer : ∀ q a, (s.pc q).buffer = some a → a < s.cache.brk ∧ a ∉ s.cache.freed
  /-- it is on the list, unless the client has yet to insert it -/
  listed : ∀ q a, (s.pc q).buffer = some a → (s.pc q).inserts = none → a ∈ s.cache.head
  /-- then nobody else knows it -/
  inserts : ∀ q a n, (s.pc q).inserts = some (a, n) → a ∉ s.cache.head ∧
    ∀ r, (s.pc r).buffer = some a → r = q
  uses : ∀ q a n, (s.pc q).uses = some (a, n) → (s.cache.heap a).blockNo = n ∧
    ((s.cache.heap a).acquired = true ∨ (s.cache.heap a).pinned = true)

theorem inv_init (h : (threadSystem sb).init s) : s.Inv := by
  obtain ⟨D, hD, hrun, hidle, -⟩ := h
  obtain ⟨cache, hrun', hb⟩ := Bcache.initBcache_spec hD
  obtain rfl := Except.ok.inj (hrun.symm.trans hrun')
  have hbuf : ∀ q, (s.pc q).buffer = none := fun q => by rw [hidle q]; rfl
  refine
    { idle := fun q _ => hbuf q, nodup := hb.wf.nodup, lt_brk := hb.wf.lt_brk, freed := hb.wf.freed
      buffer := fun q a h => ?_, listed := fun q a h => ?_, inserts := fun q a n h => ?_
      uses := fun q a n h => ?_ }
  · rw [hbuf q] at h
    cases h
  · rw [hbuf q] at h
    cases h
  · rw [hidle q] at h
    cases h
  · rw [hidle q] at h
    cases h

theorem Inv.of_stays (hs : s.Inv) (h : s.Stays t) : t.Inv := by
  refine
    { idle := fun q hq => ?_, nodup := h.head ▸ hs.nodup, lt_brk := ?_, freed := ?_
      buffer := fun q a hq => ?_, listed := fun q a hq hins => ?_
      inserts := fun q a n hins => ?_, uses := fun q a n huses => ?_ }
  · rw [h.buffer]
    exact hs.idle q (h.clients ▸ hq)
  · rw [h.head, h.brk]
    exact hs.lt_brk
  · rw [h.head, h.brk, h.freed]
    exact hs.freed
  · rw [h.brk, h.freed]
    exact hs.buffer q a (h.buffer q ▸ hq)
  · rw [h.head]
    exact hs.listed q a (h.buffer q ▸ hq) (h.inserts q ▸ hins)
  · rw [h.head]
    obtain ⟨hmem, honly⟩ := hs.inserts q a n (h.inserts q ▸ hins)
    exact ⟨hmem, fun r hr => honly r (h.buffer r ▸ hr)⟩
  · obtain ⟨hno, hflag⟩ := hs.uses q a n (h.uses q _ huses)
    rw [h.blockNo, h.acquired]
    exact ⟨hno, hflag.imp id (h.pinned a)⟩

/-- What another client works on does not change. -/
theorem pc_goto_ne (h : q ≠ p) : (s.goto p c cache).pc q = s.pc q := by
  rw [goto_pc, Function.update_of_ne h]

@[simp] theorem pc_goto_self : (s.goto p c cache).pc p = c := by
  rw [goto_pc, Function.update_self]

/-- `cache_acquire` takes a buffer of the list: the cached block, or an idle one
that nobody uses. -/
private theorem Inv.enter (hs : s.Inv) (path : Bcache.Path) (f : Block → Block)
    (hpath : path ≠ .fresh) (hlt : p < s.clients) (ha : a ∈ s.cache.head)
    (hno : (f (s.cache.heap a)).blockNo = n) (hacq : (f (s.cache.heap a)).acquired = true)
    (hkeep : ∀ q m, (s.pc q).uses = some (a, m) → m = n) :
    (s.goto p (.entered path a n) (s.cache.setBlock a f)).Inv := by
  have hins : (Pc.entered path a n).inserts = none := by
    cases path with
    | fresh => exact absurd rfl hpath
    | hit => rfl
    | reuse => rfl
  have hbuf : ∀ q b, ((s.goto p (.entered path a n) (s.cache.setBlock a f)).pc q).buffer = some b →
      q = p ∧ b = a ∨ q ≠ p ∧ (s.pc q).buffer = some b := by
    intro q b hq
    by_cases hqp : q = p
    · subst hqp
      rw [pc_goto_self] at hq
      exact .inl ⟨rfl, (Option.some.inj hq).symm⟩
    · exact .inr ⟨hqp, pc_goto_ne hqp ▸ hq⟩
  refine
    { idle := fun q hq => ?_, nodup := hs.nodup, lt_brk := hs.lt_brk, freed := hs.freed
      buffer := fun q b hq => ?_, listed := fun q b hq hi => ?_
      inserts := fun q b m hi => ?_, uses := fun q b m hu => ?_ }
  · have hqp : q ≠ p := by
      have : s.clients ≤ q := hq
      omega
    rw [pc_goto_ne hqp]
    exact hs.idle q hq
  · rcases hbuf q b hq with ⟨-, rfl⟩ | ⟨-, hold⟩
    · exact ⟨hs.lt_brk b ha, fun hb => (hs.freed b hb).2 ha⟩
    · exact hs.buffer q b hold
  · rcases hbuf q b hq with ⟨-, rfl⟩ | ⟨hqp, hold⟩
    · exact ha
    · exact hs.listed q b hold (pc_goto_ne hqp ▸ hi)
  · by_cases hqp : q = p
    · rw [hqp, pc_goto_self, hins] at hi
      cases hi
    · rw [pc_goto_ne hqp] at hi
      obtain ⟨hmem, honly⟩ := hs.inserts q b m hi
      refine ⟨hmem, fun r hr => ?_⟩
      rcases hbuf r b hr with ⟨-, rfl⟩ | ⟨-, hold⟩
      · exact absurd ha hmem
      · exact honly r hold
  · rw [goto_cache]
    by_cases hqp : q = p
    · rw [hqp, pc_goto_self] at hu
      obtain ⟨rfl, rfl⟩ := Prod.mk.inj (Option.some.inj hu)
      rw [Bcache.heap_setBlock_self]
      exact ⟨hno, .inl hacq⟩
    · rw [pc_goto_ne hqp] at hu
      by_cases hba : b = a
      · subst hba
        rw [Bcache.heap_setBlock_self]
        exact ⟨hno.trans (hkeep q m hu).symm, .inl hacq⟩
      · rw [Bcache.heap_setBlock_ne hba]
        exact hs.uses q b m hu

/-- `cache_acquire` allocates a buffer. -/
private theorem Inv.enter_fresh (hs : s.Inv) (hlt : p < s.clients) {B : Block}
    (hno : B.blockNo = n) (hacq : B.acquired = true) :
    (s.goto p (.entered .fresh s.cache.brk n) { s.cache with
      brk := s.cache.brk + 1, heap := Function.update s.cache.heap s.cache.brk B }).Inv := by
  set t := s.goto p (.entered .fresh s.cache.brk n) { s.cache with
      brk := s.cache.brk + 1, heap := Function.update s.cache.heap s.cache.brk B } with ht
  have hpc : ∀ q, q ≠ p → t.pc q = s.pc q := fun q hq => pc_goto_ne hq
  have hself : t.pc p = .entered .fresh s.cache.brk n := pc_goto_self
  have hbrk : t.cache.brk = s.cache.brk + 1 := rfl
  have hold : ∀ q, (s.pc q).buffer ≠ some s.cache.brk := fun q hq =>
    Nat.lt_irrefl _ (hs.buffer q _ hq).1
  refine
    { idle := fun q hq => ?_, nodup := hs.nodup, lt_brk := fun b hb => ?_, freed := fun b hb => ?_
      buffer := fun q b hq => ?_, listed := fun q b hq hi => ?_
      inserts := fun q b m hi => ?_, uses := fun q b m hu => ?_ }
  · have hqp : q ≠ p := by
      have : s.clients ≤ q := hq
      omega
    rw [hpc q hqp]
    exact hs.idle q hq
  · exact Nat.lt_succ_of_lt (hs.lt_brk b hb)
  · exact ⟨Nat.lt_succ_of_lt (hs.freed b hb).1, (hs.freed b hb).2⟩
  · by_cases hqp : q = p
    · rw [hqp, hself] at hq
      obtain rfl := Option.some.inj hq
      exact ⟨Nat.lt_succ_self _, fun hb => Nat.lt_irrefl _ (hs.freed _ hb).1⟩
    · rw [hpc q hqp] at hq
      exact ⟨Nat.lt_succ_of_lt (hs.buffer q b hq).1, (hs.buffer q b hq).2⟩
  · by_cases hqp : q = p
    · rw [hqp, hself] at hi
      cases hi
    · rw [hpc q hqp] at hq hi
      exact hs.listed q b hq hi
  · by_cases hqp : q = p
    · rw [hqp, hself] at hi
      obtain ⟨rfl, rfl⟩ := Prod.mk.inj (Option.some.inj hi)
      refine ⟨fun hb => Nat.lt_irrefl _ (hs.lt_brk _ hb), fun r hr => ?_⟩
      by_contra hrq
      rw [hpc r fun h => hrq (h.trans hqp.symm)] at hr
      exact hold r hr
    · rw [hpc q hqp] at hi
      obtain ⟨hmem, honly⟩ := hs.inserts q b m hi
      refine ⟨hmem, fun r hr => ?_⟩
      by_cases hrp : r = p
      · rw [hrp, hself] at hr
        obtain rfl := Option.some.inj hr
        exact absurd (Pc.buffer_of_uses (Pc.uses_of_inserts hi)) (hold q)
      · rw [hpc r hrp] at hr
        exact honly r hr
  · have hheap : t.cache.heap = Function.update s.cache.heap s.cache.brk B := rfl
    rw [hheap]
    by_cases hqp : q = p
    · rw [hqp, hself] at hu
      obtain ⟨rfl, rfl⟩ := Prod.mk.inj (Option.some.inj hu)
      rw [Function.update_self]
      exact ⟨hno, .inl hacq⟩
    · rw [hpc q hqp] at hu
      have hb : b ≠ s.cache.brk := by
        rintro rfl
        exact hold q (Pc.buffer_of_uses hu)
      rw [Function.update_of_ne hb]
      exact hs.uses q b m hu

theorem inv_acquire (hs : s.Inv) (h : s.step (.acquire p n) = some t) : t.Inv := by
  obtain ⟨hlt, -, rfl⟩ := step_acquire h
  rcases s.cache.acquireSection_cases n with ⟨a, hfind, hsec⟩ | ⟨a, hfind, hvictim, hsec⟩ |
    ⟨hfind, hvictim, hsec⟩
  · rw [hsec]
    have hno := Bcache.blockNo_of_findBlock hfind
    refine hs.enter .hit (fun b => { b with acquired := true }) (by decide) hlt
      (Bcache.mem_of_findBlock hfind) hno rfl fun q m hu => ?_
    rw [← (hs.uses q a m hu).1, hno]
  · rw [hsec]
    obtain ⟨ha, hacq, hpin⟩ := Bcache.findVictim_spec hvictim
    refine hs.enter .reuse (fun b => { b with blockNo := n, acquired := true, valid := false })
      (by decide) hlt ha rfl rfl fun q m hu => ?_
    -- the victim is not in use
    rcases (hs.uses q a m hu).2 with hflag | hflag
    · rw [hacq] at hflag
      cases hflag
    · rw [hpin] at hflag
      cases hflag
  · rw [hsec]
    exact hs.enter_fresh hlt rfl rfl

/-- A fresh buffer is put on the list. -/
theorem inv_insert (hs : s.Inv) (hp : s.pc p = .locked .fresh a n) :
    (s.goto p (.holding a n false) (Bcache.fillSection .fresh a s.cache)).Inv := by
  set t := s.goto p (.holding a n false) (Bcache.fillSection .fresh a s.cache) with ht
  have hpc : ∀ q, q ≠ p → t.pc q = s.pc q := fun q hq => pc_goto_ne hq
  have hself : t.pc p = .holding a n false := pc_goto_self
  have hhead : t.cache.head = s.cache.head ++ [a] := rfl
  have hbuf : (s.pc p).buffer = some a := by rw [hp]; rfl
  obtain ⟨hmem, honly⟩ := hs.inserts p a n (by rw [hp]; rfl)
  obtain ⟨hbrk, hfreed⟩ := hs.buffer p a hbuf
  refine
    { idle := fun q hq => ?_, nodup := ?_, lt_brk := fun b hb => ?_, freed := fun b hb => ?_
      buffer := fun q b hq => ?_, listed := fun q b hq hi => ?_
      inserts := fun q b m hi => ?_, uses := fun q b m hu => ?_ }
  · have hidle := hs.idle q hq
    have hqp : q ≠ p := by
      rintro rfl
      rw [hbuf] at hidle
      cases hidle
    rw [hpc q hqp]
    exact hidle
  · rw [hhead]
    refine List.nodup_append.mpr ⟨hs.nodup, List.nodup_singleton a, fun b hb c hc => ?_⟩
    rintro rfl
    exact hmem (List.mem_singleton.mp hc ▸ hb)
  · rcases List.mem_append.mp (hhead ▸ hb) with hb | hb
    · exact hs.lt_brk b hb
    · rw [List.mem_singleton.mp hb]
      exact hbrk
  · refine ⟨(hs.freed b hb).1, fun hbm => ?_⟩
    rcases List.mem_append.mp (hhead ▸ hbm) with hbm | hbm
    · exact (hs.freed b hb).2 hbm
    · exact hfreed (List.mem_singleton.mp hbm ▸ hb)
  · by_cases hqp : q = p
    · rw [hqp, hself] at hq
      obtain rfl := Option.some.inj hq
      exact ⟨hbrk, hfreed⟩
    · rw [hpc q hqp] at hq
      exact hs.buffer q b hq
  · rw [hhead]
    by_cases hqp : q = p
    · rw [hqp, hself] at hq
      obtain rfl := Option.some.inj hq
      simp
    · rw [hpc q hqp] at hq hi
      exact List.mem_append_left _ (hs.listed q b hq hi)
  · by_cases hqp : q = p
    · rw [hqp, hself] at hi
      cases hi
    · rw [hpc q hqp] at hi
      obtain ⟨hbm, hbonly⟩ := hs.inserts q b m hi
      -- `p` alone knows `a`, and `q` alone knows `b`
      have hba : b ≠ a := by
        rintro rfl
        exact hqp (honly q (Pc.buffer_of_uses (Pc.uses_of_inserts hi)))
      refine ⟨by rw [hhead]; simp [hbm, hba], fun r hr => ?_⟩
      by_cases hrp : r = p
      · rw [hrp, hself] at hr
        exact absurd (Option.some.inj hr).symm hba
      · rw [hpc r hrp] at hr
        exact hbonly r hr
  · have huse : (s.pc q).uses = some (b, m) := by
      by_cases hqp : q = p
      · rw [hqp, hself] at hu
        rw [hqp, hp]
        exact hu
      · rwa [hpc q hqp] at hu
    have hload : t.cache.heap = (s.cache.load a).heap := rfl
    have htouch : s.cache.Touches a (s.cache.load a) := by
      rw [Bcache.load_eq]
      exact s.cache.touches_setBlock rfl rfl id
    rw [hload, htouch.same (fun x y => x.blockNo = y.blockNo) (fun _ => rfl) htouch.blockNo b,
      htouch.same (fun x y => x.acquired = y.acquired) (fun _ => rfl) htouch.acquired b]
    refine ⟨(hs.uses q b m huse).1, (hs.uses q b m huse).2.imp id ?_⟩
    exact htouch.same (fun x y => y.pinned = true → x.pinned = true) (fun _ => id) htouch.pinned b

/-- The critical section of `cache_release`, by the last user. -/
private theorem Inv.leave (hs : s.Inv) (hp : s.pc p = .releasing a n) {head freed : List ℕ}
    (hlast : (s.cache.heap a).pinned = true ∨ ∀ q m, q ≠ p → (s.pc q).uses ≠ some (a, m))
    (hnodup : head.Nodup) (hmem : ∀ b, b ≠ a → (b ∈ head ↔ b ∈ s.cache.head))
    (hplace : a ∈ head ∧ freed = s.cache.freed ∨
      a ∉ head ∧ freed = a :: s.cache.freed ∧ ∀ q, q ≠ p → (s.pc q).buffer ≠ some a) :
    (s.goto p .idle { s.cache.setBlock a fun b => { b with acquired := false } with
      head := head, freed := freed }).Inv := by
  set t := s.goto p .idle { s.cache.setBlock a fun b => { b with acquired := false } with
      head := head, freed := freed } with ht
  have hpc : ∀ q, q ≠ p → t.pc q = s.pc q := fun q hq => pc_goto_ne hq
  have hself : t.pc p = .idle := pc_goto_self
  have hbuf : (s.pc p).buffer = some a := by rw [hp]; rfl
  have ha : a ∈ s.cache.head := hs.listed p a hbuf (by rw [hp]; rfl)
  have hsub : ∀ b ∈ head, b ∈ s.cache.head := by
    intro b hb
    by_cases hba : b = a
    · exact hba ▸ ha
    · exact (hmem b hba).mp hb
  have hne : ∀ q f, (f : Pc → Option (ℕ × ℕ)) .idle = none → ∀ e, f (t.pc q) = some e → q ≠ p := by
    rintro q f hf e he rfl
    rw [hself, hf] at he
    cases he
  have hneb : ∀ q b, (t.pc q).buffer = some b → q ≠ p := by
    rintro q b hb rfl
    rw [hself] at hb
    cases hb
  refine
    { idle := fun q hq => ?_, nodup := hnodup, lt_brk := fun b hb => hs.lt_brk b (hsub b hb)
      freed := fun b hb => ?_, buffer := fun q b hq => ?_, listed := fun q b hq hi => ?_
      inserts := fun q b m hi => ?_, uses := fun q b m hu => ?_ }
  · by_cases hqp : q = p
    · rw [hqp, hself]
      rfl
    · rw [hpc q hqp]
      exact hs.idle q hq
  · have hcase : b ∈ s.cache.freed ∨ b = a ∧ a ∉ head := by
      rcases hplace with ⟨-, hfr⟩ | ⟨hout, hfr, -⟩
      · exact .inl (hfr ▸ hb)
      · rcases List.mem_cons.mp (show b ∈ a :: s.cache.freed from hfr ▸ hb) with hba | hb
        · exact .inr ⟨hba, hout⟩
        · exact .inl hb
    rcases hcase with hb | ⟨rfl, hout⟩
    · exact ⟨(hs.freed b hb).1, fun hbm => (hs.freed b hb).2 (hsub b hbm)⟩
    · exact ⟨hs.lt_brk b ha, hout⟩
  · have hqp := hneb q b hq
    rw [hpc q hqp] at hq
    refine ⟨(hs.buffer q b hq).1, ?_⟩
    rcases hplace with ⟨-, hfr⟩ | ⟨-, hfr, hnobody⟩
    · show b ∉ freed
      rw [hfr]
      exact (hs.buffer q b hq).2
    · show b ∉ freed
      rw [hfr, List.mem_cons, not_or]
      exact ⟨fun hba => hnobody q hqp (hba ▸ hq), (hs.buffer q b hq).2⟩
  · have hqp := hneb q b hq
    rw [hpc q hqp] at hq hi
    by_cases hba : b = a
    · rcases hplace with ⟨hin, -⟩ | ⟨-, -, hnobody⟩
      · exact hba ▸ hin
      · exact absurd (hba ▸ hq) (hnobody q hqp)
    · exact (hmem b hba).mpr (hs.listed q b hq hi)
  · have hqp := hne q Pc.inserts rfl _ hi
    rw [hpc q hqp] at hi
    obtain ⟨hbm, honly⟩ := hs.inserts q b m hi
    refine ⟨fun hb => hbm (hsub b hb), fun r hr => ?_⟩
    rw [hpc r (hneb r b hr)] at hr
    exact honly r hr
  · have hqp := hne q Pc.uses rfl _ hu
    rw [hpc q hqp] at hu
    have hheap : t.cache.heap = (s.cache.setBlock a fun b => { b with acquired := false }).heap :=
      rfl
    obtain ⟨hno, hflag⟩ := hs.uses q b m hu
    rw [hheap]
    by_cases hba : b = a
    · subst hba
      rw [Bcache.heap_setBlock_self]
      exact ⟨hno, .inr (hlast.resolve_right fun hothers => hothers q m hqp hu)⟩
    · rw [Bcache.heap_setBlock_ne hba]
      exact ⟨hno, hflag⟩

theorem inv_release (hs : s.Inv) (hl : LastUser s (.release p))
    (h : s.step (.release p) = some t) : t.Inv := by
  obtain ⟨a, n, hp, rfl⟩ := step_release h
  have hbuf : (s.pc p).buffer = some a := by rw [hp]; rfl
  -- the condition speaks of all other clients, as the others are idle
  have hothers : (s.cache.heap a).pinned = true ∨ ∀ q, q ≠ p →
      (∀ m, (s.pc q).uses ≠ some (a, m)) ∧
      (evictionThreshold < (s.cache.head.erase a).length → (s.pc q).buffer ≠ some a) := by
    refine (hl a hbuf).imp id fun hall q hqp => ?_
    by_cases hq : q < s.clients
    · obtain ⟨huses, hgone⟩ := hall q hq hqp
      exact ⟨fun m hm => huses (a, m) hm rfl, hgone⟩
    · have hnone := hs.idle q (Nat.le_of_not_lt hq)
      refine ⟨fun m hm => ?_, fun _ hq => ?_⟩
      · rw [Pc.buffer_of_uses hm] at hnone
        cases hnone
      · rw [hq] at hnone
        cases hnone
  have hlast := hothers.imp id fun hall q m hqp => (hall q hqp).1 m
  rcases s.cache.releaseSection_cases a with ⟨hpin, hlen, hrel⟩ | hrel
  · rw [hrel]
    refine hs.leave hp hlast (hs.nodup.erase a) (fun b hba => List.mem_erase_of_ne hba)
      (.inr ⟨hs.nodup.not_mem_erase, rfl, fun q hqp => ?_⟩)
    rcases hothers with hpin' | hall
    · rw [hpin] at hpin'
      cases hpin'
    · exact (hall q hqp).2 hlen
  · rw [hrel]
    refine hs.leave hp hlast (List.nodup_cons.mpr ⟨hs.nodup.not_mem_erase, hs.nodup.erase a⟩)
      (fun b hba => ?_) (.inl ⟨List.mem_cons_self, rfl⟩)
    rw [List.mem_cons, List.mem_erase_of_ne hba]
    exact ⟨fun hb => hb.resolve_left hba, .inr⟩

theorem inv_step {l : ThreadStep} (hs : s.Inv) (hl : LastUser s l) (h : s.step l = some t) :
    t.Inv := by
  cases l with
  | acquire p n => exact inv_acquire hs h
  | release p => exact inv_release hs hl h
  | fill p =>
    obtain ⟨path, a, n, hp, ht⟩ := step_fill h
    cases path with
    | fresh =>
      rw [ht]
      exact inv_insert hs hp
    | hit | reuse =>
      refine hs.of_stays (stays_of_step h nofun nofun fun r b m hr hb => ?_)
      obtain rfl := ThreadStep.fill.inj hr
      rw [hp] at hb
      cases hb
  | _ => exact hs.of_stays (stays_of_step h nofun nofun nofun)

theorem inv_of_reachable (h : (threadSystem sb).Reachable LastUser s) : s.Inv :=
  h.induction (fun _ => inv_init) fun _ _ _ hs hl hstep => inv_step hs hl hstep

/-- The blocks in existence: those on the list, and those about to be inserted. -/
def InMemory (s : ThreadState) (a : ℕ) : Prop :=
  a ∈ s.cache.head ∨ ∃ q n, (s.pc q).inserts = some (a, n)

theorem InMemory.mono (hhead : ∀ b ∈ t.cache.head, b ∈ s.cache.head)
    (hins : ∀ q e, (t.pc q).inserts = some e → (s.pc q).inserts = some e) (h : t.InMemory a) :
    s.InMemory a := by
  rcases h with ha | ⟨q, n, hq⟩
  · exact .inl (hhead a ha)
  · exact .inr ⟨q, n, hins q _ hq⟩

theorem Inv.inMemory (hs : s.Inv) (h : (s.pc q).buffer = some a) : s.InMemory a := by
  cases hins : (s.pc q).inserts with
  | none => exact .inl (hs.listed q a h hins)
  | some e =>
    obtain ⟨b, n⟩ := e
    have hb := Pc.buffer_of_uses (Pc.uses_of_inserts hins)
    obtain rfl := Option.some.inj (hb.symm.trans h)
    exact .inr ⟨q, n, hins⟩

/-- What a client may rely on while it has the sleep lock of the buffer that it
acquired for block `n`. -/
structure Kept (s : ThreadState) (a n : ℕ) : Prop where
  blockNo : (s.cache.heap a).blockNo = n
  inMemory : s.InMemory a
  /-- no `cache_acquire` chooses it -/
  victim : s.cache.findVictim ≠ some a
  freed : a ∉ s.cache.freed

end ThreadState

/-- **Buffers in use are kept.**  In every run in which only the last user of a
buffer clears its flag `acquired`, a buffer whose sleep lock is held keeps its
number and its place until the holder releases it. -/
theorem buffer_in_use_kept (sb : SuperBlock) (s : ThreadState)
    (hs : (threadSystem sb).Reachable LastUser s) :
    ∀ p a n, (s.pc p).holds = some (a, n) → s.Kept a n := by
  intro p a n hp
  have hinv := ThreadState.inv_of_reachable hs
  have huse := Pc.uses_of_holds hp
  have hbuf := Pc.buffer_of_uses huse
  obtain ⟨hno, hflag⟩ := hinv.uses p a n huse
  refine ⟨hno, hinv.inMemory hbuf, fun hvictim => ?_, (hinv.buffer p a hbuf).2⟩
  obtain ⟨-, hacq, hpin⟩ := Bcache.findVictim_spec hvictim
  rcases hflag with hflag | hflag
  · rw [hacq] at hflag
    cases hflag
  · rw [hpin] at hflag
    cases hflag

/-- A buffer that is pinned while client 1 waits for it stays client 1's, although
client 0 clears the flag. -/
theorem buffer_in_use_kept_mkfs : ∃ s : ThreadState,
    (threadSystem .mkfs).Reachable LastUser s ∧ (s.pc 1).holds = some (0, 500) ∧ s.Kept 0 500 := by
  have hrun : ((ThreadState.boot .mkfs OpState.blankDisk 2).bind fun s =>
      (threadSystem .mkfs).exec LastUser s
        [.acquire 0 500, .wait 0, .fill 0, .sync 0 (some 10), .acquire 1 500, .wait 1, .post 0,
          .wake 1, .release 0, .fill 1]).map (fun s => (s.pc 1).holds) = some (some (0, 500)) := by
    decide
  obtain ⟨s, hs, hp⟩ := ThreadState.exists_reachable_of_exec hrun
  exact ⟨s, hs, hp, buffer_in_use_kept .mkfs s hs 1 0 500 hp⟩

/-- Client 1 waits for the buffer that client 0 holds, and 19 other clients use
the rest of the list.  Client 0 hands the sleep lock over and clears the flag;
the buffer that client 1 holds for block 500 is then given to block 900. -/
theorem buffer_in_use_renamed : ∃ s : ThreadState,
    (threadSystem .mkfs).Reachable (fun _ _ => True) s ∧ ∃ p a n,
    (s.pc p).holds = some (a, n) ∧ ¬ s.Kept a n := by
  have hrun : ((ThreadState.boot .mkfs OpState.blankDisk 22).bind fun s =>
      (threadSystem .mkfs).exec (fun _ _ => True) s
        ([.acquire 0 500, .wait 0, .fill 0, .acquire 1 500, .wait 1] ++
          (List.range 19).map (fun i => .acquire (2 + i) (600 + i)) ++
          [.post 0, .release 0, .wake 1, .fill 1, .acquire 21 900])).map
      (fun s => ((s.pc 1).holds, (s.cache.heap 0).blockNo)) = some (some (0, 500), 900) := by
    decide
  obtain ⟨s, hs, hf⟩ := ThreadState.exists_reachable_of_exec hrun
  obtain ⟨hp, hno⟩ := Prod.mk.inj hf
  refine ⟨s, hs, 1, 0, 500, hp, fun hkept => ?_⟩
  rw [hkept.blockNo] at hno
  cases hno

end OsLab
